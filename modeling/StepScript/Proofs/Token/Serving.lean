import StepScript.Proofs.Token.Tiling

/-! What a lexer serves.

A lexer hands out the results of its text one after the other and then the end, again and
again. `serve_of_owes` says this of one request, whatever was asked before: the answer is the
one that a plain list of the results gives. As each search for a result moves on in the text,
every way to use a lexer comes to an end.
-/

set_option autoImplicit false

namespace StepScript

namespace Lexer

inductive Request where
  | token
  | item
  | atEnd
  deriving DecidableEq

inductive Answer where
  | token (result : Except LexError Token)
  | item (result : Option (Except LexError Token))
  | atEnd (ended : Bool)

def Answer.ends : Answer → Bool
  | token result => isEnd result
  | item result => result.isNone
  | atEnd ended => ended

def serve (lexer : Lexer) : Request → Answer × Lexer
  | .token => (.token lexer.next.1, lexer.next.2)
  | .item => (.item lexer.next?.1, lexer.next?.2)
  | .atEnd => (.atEnd lexer.atEnd.1, lexer.atEnd.2)

def serveAll (lexer : Lexer) : List Request → List Answer × Lexer
  | [] => ([], lexer)
  | request :: requests =>
    let (answer, lexer) := lexer.serve request
    let (answers, lexer) := lexer.serveAll requests
    (answer :: answers, lexer)

theorem serveAll_cons (lexer : Lexer) (request : Request) (requests : List Request) :
    lexer.serveAll (request :: requests) =
      ((lexer.serve request).1 :: ((lexer.serve request).2.serveAll requests).1,
        ((lexer.serve request).2.serveAll requests).2) :=
  rfl

def serveFrom (size : Nat) (results : List (Except LexError Token)) :
    Request → Answer × List (Except LexError Token)
  | .token => (.token (results.headD (.ok (endToken size))), results.tail)
  | .item => (.item results.head?, results.tail)
  | .atEnd => (.atEnd results.isEmpty, results)

/-- The lexer stands between two pieces of the text and still has these results to hand out. -/
structure Owes (source : String) (lexer : Lexer) (results : List (Except LexError Token)) :
    Prop where
  place : ∃ front, source.toList = front ++ lexer.rest ∧ lexer.position = byteLength front
  inside : ∀ result ∈ results, isEnd result = false
  results : match lexer.ahead with
    | none => results = resultsFrom 0 lexer.rest lexer.position
    | some result =>
      results = result :: resultsFrom 0 lexer.rest lexer.position ∨
        results = [] ∧ result = .ok (endToken source.utf8ByteSize) ∧ lexer.rest = []

/-! ## Searching for one result -/

theorem isEnd_of_mem_resultsFrom {chars : List Char} {skip position : Nat}
    {result : Except LexError Token} (member : result ∈ resultsFrom skip chars position) :
    isEnd result = false := by
  cases result with
  | error e => rfl
  | ok token =>
    have inside := ne_eof_of_mem_resultsFrom member
    obtain ⟨lexeme, span⟩ := token
    cases lexeme with
    | eof => exact absurd rfl inside
    | _ => rfl

theorem resultsFrom_drop (skip : Nat) (chars : List Char) (position : Nat) :
    resultsFrom skip chars position =
      resultsFrom 0 (chars.drop skip) (position + byteLength (chars.take skip)) := by
  induction chars generalizing skip position with
  | nil => cases skip <;> rfl
  | cons c rest ih =>
    cases skip with
    | zero => rfl
    | succ skip =>
      rw [resultsFrom, ih, List.take_succ_cons, byteLength_cons, Nat.add_assoc]
      rfl

/-- What a search comes to: the end of the text if no results are left, and otherwise the
first of them, with at least one character taken off. -/
inductive Scans (position : Nat) : List Char → List (Except LexError Token) →
    Except LexError Token × List Char × Nat → Prop where
  | ended (chars : List Char) : Scans position chars []
    (.ok (endToken (position + byteLength chars)), [], position + byteLength chars)
  | found {result : Except LexError Token} {taken : List Char} (rest : List Char)
    (some : taken ≠ []) : Scans position (taken ++ rest)
      (result :: resultsFrom 0 rest (position + byteLength taken))
      (result, rest, position + byteLength taken)

theorem Scans.prepend {position : Nat} {chars : List Char}
    {results : List (Except LexError Token)} {outcome : Except LexError Token × List Char × Nat}
    (c : Char) (scans : Scans (position + c.utf8Size) chars results outcome) :
    Scans position (c :: chars) results outcome := by
  cases scans with
  | ended chars =>
    have ended : Scans position (c :: chars) [] _ := .ended (c :: chars)
    rwa [byteLength_cons, ← Nat.add_assoc] at ended
  | @found result taken rest some =>
    have found : Scans position _ (result :: _) _ := .found rest (List.cons_ne_nil c taken)
    rwa [byteLength_cons, ← Nat.add_assoc] at found

theorem scans_scanFrom (skip : Nat) (chars : List Char) (position : Nat) :
    Scans position chars (resultsFrom skip chars position) (scanFrom skip chars position) := by
  induction chars generalizing skip position with
  | nil => cases skip <;> exact .ended []
  | cons c rest ih =>
    cases skip with
    | succ skip => exact .prepend c (ih skip _)
    | zero =>
      rw [resultsFrom, scanFrom]
      cases (bite c rest).result with
      | none => exact .prepend c (ih _ _)
      | some result =>
        -- What a bite takes off may reach behind the end, and then nothing is left.
        have split := List.take_append_drop (bite c rest).extra rest
        have found : Scans position _
            (locate result (bite c rest).reach (c :: rest) position :: _) _ :=
          .found (rest.drop (bite c rest).extra)
            (List.cons_ne_nil c (rest.take (bite c rest).extra))
        rw [List.cons_append, split] at found
        rwa [resultsFrom_drop, Nat.add_assoc, ← byteLength_cons]

/-- A search takes text off the front, at least one character unless it comes to the end. -/
theorem scan_takes (lexer : Lexer) :
    ∃ taken, lexer.rest = taken ++ lexer.scan.2.rest ∧
      lexer.scan.2.position = lexer.position + byteLength taken ∧
      (isEnd lexer.scan.1 = true ∨ taken ≠ []) := by
  obtain ⟨chars, position, ahead⟩ := lexer
  have scans := scans_scanFrom 0 chars position
  unfold Lexer.scan
  generalize scanFrom 0 chars position = outcome at scans
  generalize resultsFrom 0 chars position = results at scans
  cases scans with
  | ended => exact ⟨chars, by simp, rfl, .inl rfl⟩
  | @found result taken rest some => exact ⟨taken, rfl, rfl, .inr some⟩

section

variable {source : String} {lexer : Lexer} {results : List (Except LexError Token)}

theorem owes_start (source : String) : Owes source (start source) (lexResults source) where
  place := ⟨[], rfl, rfl⟩
  inside := fun _ member => isEnd_of_mem_resultsFrom member
  results := rfl

/-- A search hands out the first of the results that are left in the text. -/
theorem scan_of_owes (owes : Owes source lexer results) (fresh : lexer.ahead = none) :
    lexer.scan.1 = results.headD (.ok (endToken source.utf8ByteSize)) ∧
      Owes source lexer.scan.2 results.tail ∧ lexer.scan.2.ahead = none ∧
        (results = [] → lexer.scan.2.rest = []) := by
  obtain ⟨rest, position, ahead⟩ := lexer
  cases fresh
  obtain ⟨⟨front, split, rfl⟩, inside, same⟩ := owes
  have scans := scans_scanFrom 0 rest (byteLength front)
  simp only at split same
  rw [← same] at scans
  unfold Lexer.scan
  generalize scanFrom 0 rest (byteLength front) = outcome at scans
  cases scans with
  | ended chars =>
    have size : byteLength front + byteLength rest = source.utf8ByteSize := by
      rw [← byteLength_append, ← split, byteLength_toList]
    refine ⟨by rw [← size]; rfl, ⟨⟨source.toList, by simp, ?_⟩, by simp, rfl⟩, rfl, fun _ => rfl⟩
    rw [byteLength_toList, ← size]
  | @found result taken rest some =>
    refine ⟨rfl, ⟨⟨front ++ taken, by simp [split], by simp⟩, ?_, rfl⟩, rfl, by simp⟩
    exact fun result member => inside result (List.mem_cons_of_mem _ member)

theorem next_of_owes (owes : Owes source lexer results) :
    lexer.next.1 = results.headD (.ok (endToken source.utf8ByteSize)) ∧
      Owes source lexer.next.2 results.tail := by
  unfold Lexer.next
  have kept := owes.results
  split
  · next result looked =>
    rw [looked] at kept
    rcases kept with rfl | ⟨rfl, rfl, ended⟩
    · exact ⟨rfl, owes.place, fun other member => owes.inside other (.tail _ member), rfl⟩
    · exact ⟨rfl, owes.place, by simp, by simp only [ended]; rfl⟩
  · next fresh =>
    obtain ⟨first, more, -⟩ := scan_of_owes owes fresh
    exact ⟨first, more⟩

theorem isEnd_headD (inside : ∀ result ∈ results, isEnd result = false) (size : Nat) :
    isEnd (results.headD (.ok (endToken size))) = results.isEmpty := by
  cases results with
  | nil => rfl
  | cons result rest => exact inside result (.head _)

theorem atEnd_of_owes (owes : Owes source lexer results) :
    lexer.atEnd.1 = results.isEmpty ∧ Owes source lexer.atEnd.2 results := by
  unfold Lexer.atEnd
  have kept := owes.results
  have ended := isEnd_headD owes.inside source.utf8ByteSize
  split
  · next result looked =>
    rw [looked] at kept
    refine ⟨?_, owes⟩
    rcases kept with rfl | ⟨rfl, rfl, -⟩
    · exact ended
    · exact ended
  · next fresh =>
    obtain ⟨first, more, clear, stops⟩ := scan_of_owes owes fresh
    have left := more.results
    rw [clear] at left
    refine ⟨(congrArg isEnd first).trans ended, more.place, owes.inside, ?_⟩
    -- The result that was found is kept, and it is the end if there is none.
    cases results with
    | nil => exact .inr ⟨rfl, first, stops rfl⟩
    | cons result rest => exact .inl (by rw [first, ← left]; rfl)

/-- A lexer answers as the list of its results does, and goes on with what the list has left. -/
theorem serve_of_owes (owes : Owes source lexer results) (request : Request) :
    (lexer.serve request).1 = (serveFrom source.utf8ByteSize results request).1 ∧
      Owes source (lexer.serve request).2 (serveFrom source.utf8ByteSize results request).2 := by
  obtain ⟨first, more⟩ := next_of_owes owes
  cases request with
  | token => exact ⟨congrArg Answer.token first, more⟩
  | item =>
    refine ⟨congrArg Answer.item ?_, more⟩
    have ended := isEnd_headD owes.inside source.utf8ByteSize
    show (if isEnd lexer.next.1 then none else some lexer.next.1) = results.head?
    rw [first, ended]
    cases results with
    | nil => rfl
    | cons result rest => rfl
  | atEnd =>
    obtain ⟨ended, kept⟩ := atEnd_of_owes owes
    exact ⟨congrArg Answer.atEnd ended, kept⟩

theorem ends_serve_of_owes (owes : Owes source lexer results) (request : Request) :
    (lexer.serve request).1.ends = results.isEmpty := by
  rw [(serve_of_owes owes request).1]
  cases request with
  | token => exact isEnd_headD owes.inside _
  | item | atEnd => cases results <;> rfl

theorem serveAll_of_owes (owes : Owes source lexer results) (requests : List Request) :
    ∃ left, Owes source (lexer.serveAll requests).2 left := by
  induction requests generalizing lexer results with
  | nil => exact ⟨results, owes⟩
  | cons request requests ih => exact ih (serve_of_owes owes request).2

/-! ## Ways to use a lexer -/

inductive Collects : Lexer → Except LexError (List Token) → Prop where
  | ended {lexer after : Lexer} {token : Token} (next : lexer.next = (.ok token, after))
    (last : token.lexeme = .eof) : Collects lexer (.ok [token])
  | fault {lexer after : Lexer} {e : LexError} (next : lexer.next = (.error e, after)) :
    Collects lexer (.error e)
  | token {lexer after : Lexer} {token : Token} {outcome : Except LexError (List Token)}
    (next : lexer.next = (.ok token, after)) (inside : token.lexeme ≠ .eof)
    (more : Collects after outcome) : Collects lexer (outcome.map (token :: ·))

theorem collects_of_owes (owes : Owes source lexer results) :
    Collects lexer ((results.mapM id).map (· ++ [endToken source.utf8ByteSize])) := by
  -- By induction on what is owed, of which each token is the first.
  induction results generalizing lexer with
  | nil => exact .ended (Prod.ext (next_of_owes owes).1 rfl) rfl
  | cons result results ih =>
    obtain ⟨first, more⟩ := next_of_owes owes
    have next : lexer.next = (result, lexer.next.2) := Prod.ext first rfl
    rw [List.mapM_cons]
    cases result with
    | error e => exact .fault next
    | ok token =>
      have inside : token.lexeme ≠ .eof := by
        intro ended
        obtain ⟨lexeme, span⟩ := token
        cases ended
        cases owes.inside _ (.head _)
      have collected := Collects.token next inside (ih more)
      cases all : results.mapM id with
      | error e =>
        rw [all] at collected
        exact collected
      | ok tokens =>
        rw [all] at collected
        exact collected

theorem items_of_owes (owes : Owes source lexer results) (count : Nat) :
    (lexer.serveAll (List.replicate count .item)).1 =
      (List.range count).map fun k => .item results[k]? := by
  induction count generalizing lexer results with
  | zero => rfl
  | succ count ih =>
    obtain ⟨first, more⟩ := serve_of_owes owes .item
    rw [List.replicate_succ, serveAll_cons, List.range_succ_eq_map, List.map_cons, List.map_map]
    refine List.cons_eq_cons.mpr ⟨?_, (ih more).trans (List.map_congr_left fun k _ => ?_)⟩
    · rw [first, serveFrom, List.head?_eq_getElem?]
    · rw [serveFrom, Function.comp_apply, List.getElem?_tail]

theorem ends_of_owes_nothing (owes : Owes source lexer []) (requests : List Request) :
    (∀ answer ∈ (lexer.serveAll requests).1, answer.ends = true) ∧
      Owes source (lexer.serveAll requests).2 [] := by
  induction requests generalizing lexer with
  | nil => exact ⟨fun answer member => absurd member List.not_mem_nil, owes⟩
  | cons request requests ih =>
    have more : Owes source (lexer.serve request).2 [] := by
      have left := (serve_of_owes owes request).2
      cases request <;> exact left
    obtain ⟨later, nothing⟩ := ih more
    rw [serveAll_cons]
    exact ⟨List.forall_mem_cons.mpr ⟨ends_serve_of_owes owes request, later⟩, nothing⟩

theorem owes_nothing_of_ends (owes : Owes source lexer results) (requests : List Request)
    (ended : ∃ answer ∈ (lexer.serveAll requests).1, answer.ends = true) :
    Owes source (lexer.serveAll requests).2 [] := by
  induction requests generalizing lexer results with
  | nil =>
    obtain ⟨answer, member, -⟩ := ended
    cases member
  | cons request requests ih =>
    obtain ⟨answer, member, ends⟩ := ended
    rw [serveAll_cons] at member
    rcases List.mem_cons.mp member with same | later
    · rw [same, ends_serve_of_owes owes request, List.isEmpty_iff] at ends
      subst ends
      exact (ends_of_owes_nothing owes (request :: requests)).2
    · exact ih (serve_of_owes owes request).2 ⟨answer, later, ends⟩

theorem length_resultsFrom_le (skip : Nat) (chars : List Char) (position : Nat) :
    (resultsFrom skip chars position).length ≤ byteLength chars := by
  induction chars generalizing skip position with
  | nil => cases skip <;> exact Nat.le_refl 0
  | cons c rest ih =>
    have wide := c.utf8Size_pos
    rw [byteLength_cons]
    cases skip with
    | succ skip => exact Nat.le_add_left_of_le (ih skip _)
    | zero =>
      have more := ih (bite c rest).extra (position + c.utf8Size)
      rw [resultsFrom]
      split
      · omega
      · rw [List.length_cons]
        omega

end

/-- However a lexer is used, it comes to an end. -/
structure Finishes (source : String) : Prop where
  /-- A search for a result, after any requests, takes text off the front of what is left, and
  at least a byte of it unless the text is at its end. -/
  advances : ∀ requests, let lexer := ((start source).serveAll requests).2
    ∃ taken, lexer.rest = taken ++ lexer.scan.2.rest ∧
      lexer.scan.2.position = lexer.position + byteLength taken ∧
      lexer.scan.2.position ≤ source.utf8ByteSize ∧
      (isEnd lexer.scan.1 = true ∨ lexer.position < lexer.scan.2.position)
  /-- Collecting the tokens comes to its end. -/
  collects : Collects (start source) (tokenize source)
  /-- Items are the results, mistakes included. -/
  items : ∀ count, ((start source).serveAll (List.replicate count .item)).1 =
    (List.range count).map fun k => .item (lexResults source)[k]?
  /-- There are at most as many results as bytes. -/
  bounded : (lexResults source).length ≤ source.utf8ByteSize
  /-- Once an answer has been the end, all later ones are. -/
  stays : ∀ before after, (∃ answer ∈ ((start source).serveAll before).1, answer.ends = true) →
    ∀ answer ∈ (((start source).serveAll before).2.serveAll after).1, answer.ends = true

/-- Lexing always finishes, on malformed text too. -/
theorem lexing_finishes (source : String) : Finishes source where
  advances := by
    intro requests lexer
    obtain ⟨results, owes⟩ : ∃ results, Owes source lexer results :=
      serveAll_of_owes (owes_start source) requests
    obtain ⟨front, split, placed⟩ := owes.place
    obtain ⟨taken, whole, moved, progress⟩ := scan_takes lexer
    have size : source.utf8ByteSize =
        byteLength front + (byteLength taken + byteLength lexer.scan.2.rest) := by
      rw [← byteLength_toList, split, byteLength_append, whole, byteLength_append]
    refine ⟨taken, whole, moved, by omega, progress.imp_right fun some => ?_⟩
    have wide := byteLength_pos some
    omega
  collects := collects_of_owes (owes_start source)
  items := items_of_owes (owes_start source)
  bounded := by
    have bound := length_resultsFrom_le 0 source.toList 0
    rwa [byteLength_toList] at bound
  stays := fun before after ended =>
    (ends_of_owes_nothing (owes_nothing_of_ends (owes_start source) before ended) after).1

end Lexer

end StepScript
