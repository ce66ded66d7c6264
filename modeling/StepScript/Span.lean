/-! Byte ranges into the text of one unit. -/

set_option autoImplicit false

namespace StepScript

structure Span where
  start : Nat
  stop : Nat
  deriving Repr, DecidableEq

namespace Span

/-- Positions beyond this are recorded as this. -/
def limit : Nat := 4294967295

def point (position : Nat) : Span :=
  ⟨position, position⟩

def ofRange (start stop : Nat) : Span :=
  ⟨min start limit, min stop limit⟩

/-- The number of bytes; a span that runs backward has none. -/
def length (s : Span) : Nat :=
  s.stop - s.start

def isEmpty (s : Span) : Bool :=
  s.stop ≤ s.start

def text (s : Span) : String :=
  toString s.start ++ ".." ++ toString s.stop

end Span

end StepScript
