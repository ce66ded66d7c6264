import StepScript.Proofs.Evaluator.Statements

/-! Members, calls and literals do what the evaluator does. -/

set_option autoImplicit false

namespace StepScript

variable {σ β : Type} {host : Host σ} {k : Nat} {c : Setting} {path : List Nat} {n : Nat}
  {memo converted : NodeMap Value} {s : Store σ} {sub : Rose Node} {up : Nat}

theorem simulates_act (above : (Outline.ofRose c.tree).parent n = some up) (bodies : s.Bodies)
    {computation : Act σ Value} (keeps : computation.Keeps) {q : Nat}
    {R : Value → Store σ → Behaviour σ} :
    Simulates k (Eval.act computation) s
      (c.resulting host (Handler.andThen (fun value => pure (.finish value))
        ((Handler.act computation).exec ⟨c.frame n q memo converted, s⟩)))
      (c.finished host n up memo converted) R := by
  rw [← bind_pure (Eval.act computation), Handler.exec_act]
  apply Simulates.act keeps bodies
  · intro e s' run
    rw [run]
    exact Setting.resulting_error _ _
  · intro value s' run bodies'
    rw [run]
    exact Clear.finish above bodies' value

variable (clear : Clear c path sub memo converted)
  (above : (Outline.ofRose c.tree).parent (c.tree.place path) = some up)
  (agrees : Agrees host k) (bodies : s.Bodies)

section Member

include clear above agrees bodies

theorem simulates_member (content : sub.value = .operation .member) {base key : Rose Node}
    (parts : sub.children = [base, key]) {f : Value → Value → Eval σ β}
    {K : β → Store σ → Behaviour σ}
    (next : ∀ object name s', s'.Bodies → Simulates k (f object name) s'
      (c.resulting host ((if Handler.isTarget (.ofRose c.tree) (c.tree.place path) = true then
          pure (.finish .undefined)
        else Handler.readMember (c.tree.place (path ++ [0])) (c.tree.place (path ++ [1]))).exec
        ⟨c.frame (c.tree.place path) (c.tree.place (path ++ [1]))
          ((memo.insert (c.tree.place (path ++ [0])) object).insert (c.tree.place (path ++ [1]))
            name) converted, s'⟩)) K (c.given host)) :
    Simulates (k + 1) (do
        let object ← Evaluator.eval host c.depthLimit k c.here base
        let name ← Evaluator.eval host c.depthLimit k c.here key
        f object name) s
      ((c.state s (c.tree.place path) up memo converted).behaviour host) K (c.given host) := by
  have first : sub.children[0]? = some base := by rw [parts]; rfl
  have second : sub.children[1]? = some key := by rw [parts]; rfl
  have differ := clear.place_ne second first (by omega)
  have plain : sub.value.isAssignment = false := by rw [content]; rfl
  have handles : Setting.handle host (c.tree.place path) sub.value =
      Handler.memberAccess (c.tree.place path) := by
    rw [content]
    rfl
  apply clear.descend (c.tree.place (path ++ [0]))
  · simp [handles, Handler.memberAccess, Setting.exec_requiredChild clear.found first,
      Setting.exec_requiredChild clear.found second, Setting.visit_enter above]
  apply Simulates.bind (agrees c _ _ base s memo converted (clear.child first)
    (clear.above first) (clear.plain first fun _ => plain) bodies)
  intro object s' bodies'
  apply clear.step
  have resumed : (Setting.handle host (c.tree.place path) sub.value).exec
      ⟨c.frame (c.tree.place path) (c.tree.place (path ++ [0]))
        (memo.insert (c.tree.place (path ++ [0])) object) converted, s'⟩ =
      (.ok (.descend (c.tree.place (path ++ [1]))), ⟨c.frame (c.tree.place path)
        (c.tree.place (path ++ [0])) (memo.insert (c.tree.place (path ++ [0])) object) converted,
        s'⟩) := by
    simp [handles, Handler.memberAccess, Setting.exec_requiredChild clear.found first,
      Setting.exec_requiredChild clear.found second,
      Setting.visit_resume clear.found (clear.below first)]
  rw [resumed]
  apply Simulates.bind (agrees c _ _ key s' _ converted
    (clear.sibling first second (by omega) object) (clear.above second)
    (clear.plain second fun zero => by omega) bodies')
  intro name s'' bodies''
  apply clear.step
  rw [handles]
  -- Coming back from the key, the node is either read or, as a target, left as it is.
  simp only [Handler.memberAccess, Handler.exec_bind,
    Setting.exec_requiredChild clear.found first, Setting.exec_requiredChild clear.found second,
    Handler.andThen_ok, Setting.exec_visit, Setting.visit_resume clear.found (clear.below second),
    Handler.exec_ofExcept_ok, if_neg differ, Handler.exec_code, Setting.frame_code]
  exact next object name s'' bodies''

theorem performs_member (content : sub.value = .operation .member) {base key : Rose Node}
    (parts : sub.children = [base, key])
    (aside : Handler.isTarget (.ofRose c.tree) (c.tree.place path) = false) :
    Performs host c (c.tree.place path) up memo converted s (k + 1) (do
      let object ← Evaluator.eval host c.depthLimit k c.here base
      let name ← Evaluator.eval host c.depthLimit k c.here key
      Eval.readMember object name) := by
  have first : sub.children[0]? = some base := by rw [parts]; rfl
  have second : sub.children[1]? = some key := by rw [parts]; rfl
  have differ := clear.place_ne first second (by omega)
  apply simulates_member clear above agrees bodies content parts
  intro object name s' bodies'
  rw [aside, if_neg (by simp)]
  simp only [Handler.readMember, Handler.exec_bind, Handler.exec_take, Handler.andThen_ok,
    Handler.exec_store, Setting.frame_peek, Setting.frame_discard, NodeMap.find?_insert,
    if_neg differ, if_true, Option.getD_some, NodeMap.erase_insert_of_ne differ,
    NodeMap.erase_insert (clear.child first).absent,
    NodeMap.erase_insert (clear.child second).absent]
  apply Simulates.store
  apply Simulates.store
  cases read : s'.index object (s'.text name) with
  | ok answer => exact Clear.finish above (bodies'.index read) answer.1
  | error e => exact Simulates.fail (Setting.resulting_error _ _)

end Member

/-! ## Calls -/

def Handler.perform (host : Host σ) (node callee : Nat) : Handler σ Move := do
  let args ← takeAll ((← code).children node).tail
  let function ← take callee
  match (← store).callee function with
  | .error e => fault (.value e)
  | .ok (.native id) => return .finish (← act (host.call id args))
  | .ok (.script id) => return .call (← closure id) args

section Call

include clear

theorem exec_perform {function : Value} {args : List Value}
    (count : (function :: args).length = sub.children.length) {q : Nat} :
    (Handler.perform host (c.tree.place path) (c.tree.place (path ++ [0]))).exec
        ⟨c.frame (c.tree.place path) q (memo.insertAll (c.kept path (function :: args))) converted,
          s⟩ =
      (match s.callee function with
        | .error e => Handler.fault (.value e)
        | .ok (.native id) => do return .finish (← Handler.act (host.call id args))
        | .ok (.script id) => do return .call (← Handler.closure id) args : Handler σ Move).exec
        ⟨c.frame (c.tree.place path) q memo converted, s⟩ := by
  have positions := clear.kept_positions count
  have rising := clear.kept_distinct (Nat.le_of_eq count)
  have missing := clear.kept_absent count
  -- The callee is kept in front of the arguments but taken after them.
  obtain ⟨rest, split, values⟩ : ∃ rest, c.kept path (function :: args) =
      (c.tree.place (path ++ [0]), function) :: rest ∧ rest.map (·.2) = args := by
    refine ⟨args.mapIdx fun i value => (c.tree.place (path ++ [i + 1]), value),
      List.mapIdx_cons, ?_⟩
    apply List.ext_getElem
    · simp
    · simp
  rw [split, List.map_cons] at positions rising missing
  obtain ⟨least, later⟩ := List.pairwise_cons.mp rising
  have taken : (Handler.takeAll (rest.map (·.1)) : Handler σ (List Value)).exec
      ⟨c.frame (c.tree.place path) q
        ((memo.insert (c.tree.place (path ++ [0])) function).insertAll rest) converted, s⟩ =
      (.ok (rest.map (·.2)), ⟨c.frame (c.tree.place path) q
        (memo.insert (c.tree.place (path ++ [0])) function) converted, s⟩) := by
    apply exec_takeAll rest (later.imp Nat.ne_of_lt)
    intro m member
    rw [NodeMap.find?_insert, if_neg (Nat.ne_of_gt (least m member))]
    exact missing m (List.mem_cons_of_mem _ member)
  have kept : memo.insertAll ((c.tree.place (path ++ [0]), function) :: rest) =
      (memo.insert (c.tree.place (path ++ [0])) function).insertAll rest := rfl
  have absent := missing _ (List.mem_cons_self ..)
  rw [split, kept]
  simp only [Handler.perform, Handler.exec_bind, Handler.exec_code, Handler.andThen_ok,
    Setting.frame_code, ← positions, List.tail_cons, taken, values, Handler.exec_take,
    Setting.frame_peek, NodeMap.find?_insert, if_true, Option.getD_some, Setting.frame_discard,
    NodeMap.erase_insert absent, Handler.exec_store]

include above agrees bodies

theorem performs_call (keeps : host.Keeps) (content : sub.value = .operation .call)
    {callee : Rose Node} {arguments : List (Rose Node)}
    (parts : sub.children = callee :: arguments) :
    Performs host c (c.tree.place path) up memo converted s (k + 1) (do
      let function ← Evaluator.eval host c.depthLimit k c.here callee
      let values ← Evaluator.evalAll (Evaluator.eval host c.depthLimit k c.here) arguments
      Evaluator.callValue host c.depthLimit (Evaluator.eval host c.depthLimit k) c.here function
        values) := by
  have first : sub.children[0]? = some callee := by rw [parts]; rfl
  have plain : sub.value.isAssignment = false := by rw [content]; rfl
  -- The callee is the first of the children that are evaluated in turn.
  have all : (do
      let function ← Evaluator.eval host c.depthLimit k c.here callee
      let values ← Evaluator.evalAll (Evaluator.eval host c.depthLimit k c.here) arguments
      Evaluator.callValue host c.depthLimit (Evaluator.eval host c.depthLimit k) c.here function
        values) =
      Evaluator.evalAll (Evaluator.eval host c.depthLimit k c.here) sub.children >>= fun values =>
        Evaluator.callValue host c.depthLimit (Evaluator.eval host c.depthLimit k) c.here
          (values.head?.getD .undefined) values.tail := by
    simp [parts, Evaluator.evalAll]
  rw [all]
  apply simulates_all clear agrees (fun i part selected => clear.plain selected fun _ => plain)
    (Handler.perform host (c.tree.place path) (c.tree.place (path ++ [0])))
    ?_ ?_ s bodies (Setting.visit_enter above)
  · intro q memo' s'
    rw [Setting.exec_node clear.found _ rfl, content]
    show (Handler.call host (c.tree.place path)).exec _ = _
    simp only [Handler.call, Handler.exec_bind, Setting.exec_requiredChild clear.found first,
      Handler.andThen_ok]
    rfl
  · intro values q s' count bodies'
    cases values with
    | nil =>
      rw [parts] at count
      cases count
    | cons function args =>
      rw [exec_perform clear count]
      apply Simulates.store
      simp only [List.head?_cons, Option.getD_some, List.tail_cons]
      cases s'.callee function with
      | error e => exact Simulates.fail (Setting.resulting_error _ _)
      | ok target =>
        cases target with
        | native id =>
          simp only [Handler.exec_bind]
          exact simulates_act above bodies' (keeps id args)
        | script id =>
          apply Simulates.store
          exact (simulates_call agrees bodies' id above args).of_le (Nat.le_succ k)

end Call

/-! ## Object literals -/

def Store.fill (id : Nat) : Store σ → List Value → Store σ
  | s, key :: value :: rest => fill id (s.insert id (s.text key) value) rest
  | s, _ => s

theorem Store.Bodies.fill (id : Nat) : ∀ (values : List Value) {s : Store σ}, s.Bodies →
    (s.fill id values).Bodies
  | [], _, bodies => bodies
  | [_], _, bodies => bodies
  | _ :: _ :: rest, _, bodies => Store.Bodies.fill id rest (Store.Bodies.insert bodies id _ _)

theorem simulates_fill (id : Nat) {f : Unit → Eval σ Value} {b : Behaviour σ}
    {K R : Value → Store σ → Behaviour σ} : ∀ (values : List Value) {s : Store σ},
    Simulates k (f ()) (s.fill id values) b K R →
      Simulates k (Eval.fillObject id values >>= f) s b K R
  | [], _, simulates => simulates
  | [_], _, simulates => simulates
  | _ :: _ :: rest, _, simulates => simulates_fill id rest simulates

theorem exec_fillObject (id : Nat) {p : Nat} : ∀ (entries : List (Nat × Value)) {s : Store σ},
    (entries.map (·.1)).Nodup → (∀ m ∈ entries.map (·.1), memo.find? m = none) →
    entries.length % 2 = 0 →
    (Handler.fillObject id (entries.map (·.1))).exec
        ⟨c.frame n p (memo.insertAll entries) converted, s⟩ =
      (.ok (), ⟨c.frame n p memo converted, s.fill id (entries.map (·.2))⟩)
  | [], _, _, _, _ => rfl
  | [_], _, _, _, even => by simp at even
  | (m, key) :: (m', value) :: rest, s, distinct, absent, even => by
    simp only [List.map_cons, List.nodup_cons] at distinct absent
    have first := absent m (List.mem_cons_self ..)
    have apart : m ∉ ((m', value) :: rest).map (·.1) := distinct.1
    have second := absent m' (List.mem_cons_of_mem _ (List.mem_cons_self ..))
    have others (m'' : Nat) (member : m'' ∈ rest.map (·.1)) : memo.find? m'' = none :=
      absent m'' (List.mem_cons_of_mem _ (List.mem_cons_of_mem _ member))
    have evenRest : rest.length % 2 = 0 := by
      simp only [List.length_cons] at even
      omega
    simp only [List.map_cons, Handler.fillObject, Handler.exec_bind, Handler.exec_store,
      Handler.andThen_ok, exec_take_first first apart, exec_take_first second distinct.2.1,
      Handler.exec_setStore, exec_fillObject id rest distinct.2.2 others evenRest]
    rfl

def Handler.makeObject (node : Nat) : Handler σ Move := do
  let (id, s) := (← store).newObject ⟨.null, []⟩
  setStore s
  fillObject id ((← code).children node)
  return .finish (.object id)

theorem Operation.even_of_entriesFit : ∀ {parts : List Node}, entriesFit parts = true →
    parts.length % 2 = 0
  | [], _ => rfl
  | [_], fits => by cases fits
  | _ :: _ :: rest, fits => by
    simp only [entriesFit, Bool.and_eq_true] at fits
    have := even_of_entriesFit fits.2
    simp only [List.length_cons]
    omega

section Object

include clear above agrees bodies

theorem performs_objectLiteral (content : sub.value = .operation .objectLiteral) :
    Performs host c (c.tree.place path) up memo converted s (k + 1) (do
      Eval.makeObject
        (← Evaluator.evalAll (Evaluator.eval host c.depthLimit k c.here) sub.children)) := by
  have plain : sub.value.isAssignment = false := by rw [content]; rfl
  -- Keys and values alternate, so none is left over when they are taken in pairs.
  have even : sub.children.length % 2 = 0 := by
    have fits := clear.shaped.fits
    rw [content] at fits
    simpa using Operation.even_of_entriesFit fits
  apply simulates_all clear agrees (fun i part selected => clear.plain selected fun _ => plain)
    (Handler.makeObject (c.tree.place path)) ?_ ?_ s bodies (Setting.visit_enter above)
  · intro q memo' s'
    rw [Setting.exec_node clear.found _ rfl, content]
    show (Handler.objectLiteral (c.tree.place path)).exec _ = _
    simp only [Handler.objectLiteral, Handler.exec_bind]
    rfl
  · intro values q s' count bodies'
    have distinct := (clear.kept_distinct (Nat.le_of_eq count)).imp Nat.ne_of_lt
    have pairs : (c.kept path values).length % 2 = 0 := by
      rw [Setting.kept, List.length_mapIdx, count, even]
    have contents : (c.kept path values).map (·.2) = values := by
      apply List.ext_getElem
      · simp [Setting.kept]
      · simp [Setting.kept]
    simp only [Handler.makeObject, Handler.exec_bind, Handler.exec_store, Handler.andThen_ok,
      Handler.exec_setStore, Handler.exec_code, Setting.frame_code, ← clear.kept_positions count,
      exec_fillObject _ _ distinct (clear.kept_absent count) pairs, contents]
    apply Simulates.store
    apply Simulates.setStore
    apply simulates_fill
    exact Clear.finish above ((bodies'.newObject _).fill _ values) _

end Object

/-! ## Function literals -/

theorem exec_parameterNames (positions : List Nat) (names : List String) (l : Local σ)
    (texts : positions.map (Handler.literalName l.frame.code) = names.map some) :
    (Handler.parameterNames positions).exec l = (.ok names, l) := by
  induction positions generalizing names with
  | nil =>
    cases names with
    | nil => rfl
    | cons name names => cases texts
  | cons position rest ih =>
    cases names with
    | nil => cases texts
    | cons name names =>
      simp only [List.map_cons, List.cons.injEq] at texts
      simp [Handler.parameterNames, texts.1, ih names texts.2]

theorem map_text? {parts : List (Rose Node)} (texts : ∀ part ∈ parts, part.value.isText = true) :
    parts.map (·.value.text?) = (parts.filterMap (·.value.text?)).map some := by
  induction parts with
  | nil => rfl
  | cons part rest ih =>
    obtain ⟨content, same⟩ := Node.eq_of_isText (texts part (List.mem_cons_self ..))
    have others := ih fun other member => texts other (List.mem_cons_of_mem _ member)
    have first : part.value.text? = some content := by
      rw [same]
      rfl
    simp [first, others]

section Function

include clear

theorem literalName_child {j : Nat} {part : Rose Node} (selected : sub.children[j]? = some part) :
    Handler.literalName (.ofRose c.tree) (c.tree.place (path ++ [j])) = part.value.text? := by
  rw [Handler.literalName, Outline.get?_place (clear.below selected)]
  unfold Node.text?
  split <;> simp_all

theorem Clear.function_parts (content : sub.value = .operation .functionLiteral) :
    ∃ title params body, sub.children = title :: (params ++ [body]) ∧
      (∀ param ∈ params, param.value.isText = true) ∧ body.value = .statement .block := by
  have fits := clear.shaped.fits
  rw [content] at fits
  obtain ⟨first, names, whole, -, texts⟩ := Operation.function_parts fits
  obtain ⟨title, rest, parts, -, tail⟩ := List.map_eq_cons_iff.mp whole
  obtain ⟨params, last, rfl, rfl, single⟩ := List.map_eq_append_iff.mp tail
  obtain ⟨body, rfl, block⟩ := List.map_eq_singleton_iff.mp single
  exact ⟨title, params, body, parts, fun param member =>
    texts _ (List.mem_map_of_mem member), block⟩

include above bodies

theorem performs_functionLiteral (content : sub.value = .operation .functionLiteral)
    {title : Rose Node} {rest : List (Rose Node)} (parts : sub.children = title :: rest) :
    Performs host c (c.tree.place path) up memo converted s (k + 1)
      (Eval.makeClosure ⟨title.value.text?, rest.dropLast.filterMap (·.value.text?),
        .ofRose (rest.getLast?.getD (.leaf (.statement .block))), c.scope⟩) := by
  obtain ⟨title', params, body, parts', texts, block⟩ := clear.function_parts content
  cases parts.symm.trans parts'
  have first : sub.children[0]? = some title := by rw [parts]; rfl
  have last : sub.children[params.length + 1]? = some body := by simp [parts]
  -- The children are the title, the parameters and the body, at these places.
  have positions : (Outline.ofRose c.tree).children (c.tree.place path) =
      (c.tree.place (path ++ [0]) :: (List.range params.length).map fun j =>
        c.tree.place (path ++ [j + 1])) ++ [c.tree.place (path ++ [params.length + 1])] := by
    have count : sub.children.length = params.length + 1 + 1 := by simp [parts]
    rw [Outline.children_place clear.found, Rose.childPaths, count, List.range_succ,
      List.range_succ_eq_map]
    simp [Function.comp_def]
  have names : ((List.range params.length).map fun j => c.tree.place (path ++ [j + 1])).map
      (Handler.literalName (.ofRose c.tree)) =
        (params.filterMap (·.value.text?)).map some := by
    rw [← map_text? texts]
    apply List.ext_getElem
    · simp
    · intro j bound bound'
      have inside : j < params.length := by simpa using bound'
      have selected : sub.children[j + 1]? = some params[j] := by
        simp [parts, List.getElem?_append_left inside]
      simp [literalName_child clear selected]
  apply clear.enter
  rw [content]
  show Simulates k _ s (c.resulting host ((Handler.functionLiteral (c.tree.place path)).exec _)) _ _
  simp only [Handler.functionLiteral, Handler.exec_bind, Handler.exec_code, Handler.andThen_ok,
    Setting.frame_code, positions, List.getLast?_concat, Handler.checkBody,
    Outline.get?_place (clear.below last), block, Option.map_some, Option.getD_some,
    Node.isStatement, beq_self_eq_true, if_true, Handler.exec_pure, List.dropLast_concat,
    List.head?_cons, Option.bind_some, literalName_child clear first, List.tail_cons]
  rw [exec_parameterNames _ _ _ names]
  simp only [Handler.andThen_ok, Handler.exec_bind, Handler.exec_code, Setting.frame_code,
    Handler.exec_frame, Setting.frame_scope, Handler.exec_store, Handler.exec_setStore,
    Handler.exec_pure, Outline.subtree_place (clear.below last)]
  apply Simulates.store
  apply Simulates.setStore
  exact Clear.finish above (bodies.newClosure ⟨body, rfl, (clear.child last).shaped, block⟩) _

end Function

end StepScript
