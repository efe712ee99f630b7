set_option autoImplicit false

/-! # Spans of a source text -/

namespace SmallLisp

/-- **A stretch of source text**, from the byte offset `start` up to but not including
`stop`. -/
structure Span where
  start : Nat
  stop : Nat
deriving DecidableEq, Repr

namespace Span

/-- The wording used in messages: `2..7`. -/
def text (s : Span) : String := toString s.start ++ ".." ++ toString s.stop

/-- The span moved `n` bytes to the right. -/
def shift (n : Nat) (s : Span) : Span := ⟨s.start + n, s.stop + n⟩

end Span

end SmallLisp
