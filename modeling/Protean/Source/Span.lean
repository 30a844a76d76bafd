/-!
# Source — Span

A `Span` is a range of bytes of a source text, `start` included and `stop` excluded.  Tokens,
expressions and diagnostics all point into the text by spans.
-/

namespace Protean

/-- The bytes from `start` up to `stop`. -/
structure Span where
  start : Nat
  stop : Nat
deriving DecidableEq, Inhabited

namespace Span

/-- The span that holds no byte and stands at `offset`. -/
def empty (offset : Nat) : Span := ⟨offset, offset⟩

/-- The least span that covers both spans. -/
def cover (a b : Span) : Span := ⟨min a.start b.start, max a.stop b.stop⟩

/-- Both ends count, so that a cursor right behind a name still touches the name. -/
def contains (s : Span) (offset : Nat) : Bool := s.start ≤ offset && offset ≤ s.stop

/-- The number of bytes, counted in words of 64 bits: where a span stops before it starts, the count
wraps around. -/
def length (s : Span) : Nat := (UInt64.ofNat s.stop - UInt64.ofNat s.start).toNat

def isEmpty (s : Span) : Bool := s.start == s.stop

def render (s : Span) : String := toString s.start ++ ".." ++ toString s.stop

end Span

end Protean
