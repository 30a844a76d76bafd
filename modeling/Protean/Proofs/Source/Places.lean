import Mathlib.Order.MinMax
import Protean.Parser.Basic
import Protean.Text.Basic

/-!
# Proofs — Source — places in a text

Spans point into a text by offsets.  `Span.relocate f` moves both ends along `f`, as tokens and errors
move with their spans; `Span.Sited P` says that both ends are known to satisfy `P` and stand in order; and
`Text.IsPlace cs` holds of the offsets between the characters of `cs`.

* `Text.byteLength`: offsets are counted in bytes, and the characters before an offset have that many.
* `Span.cover`: the span of an expression covers those of its parts, so its ends are ends of these.
-/

namespace Protean

/-! ### Spans

Moving spans, and what is known of their ends. -/

namespace Span

/-- The span with both ends moved along `f`. -/
def relocate (f : Nat → Nat) (s : Span) : Span := ⟨f s.start, f s.stop⟩

/-- The span does not stop before it starts, and both ends satisfy `P`. -/
structure Sited (P : Nat → Prop) (s : Span) : Prop where
  start_le : s.start ≤ s.stop
  start : P s.start
  stop : P s.stop

variable {f : Nat → Nat} {P : Nat → Prop} {s t : Span}

/-- To move a span along the identity is not to move it. -/
@[simp] theorem relocate_id (s : Span) : s.relocate id = s := rfl

/-- The empty span at an offset moves with the offset. -/
@[simp] theorem relocate_empty (f : Nat → Nat) (n : Nat) : (empty n).relocate f = empty (f n) := rfl

/-- The cover of two spans moves with them, if offsets keep their order. -/
theorem relocate_cover (hf : Monotone f) (s t : Span) :
    (s.cover t).relocate f = (s.relocate f).cover (t.relocate f) := by
  simp only [cover, relocate, hf.map_min, hf.map_max]

theorem Sited.empty {n : Nat} (hn : P n) : (Span.empty n).Sited P := ⟨Nat.le_refl n, hn, hn⟩

/-- The cover of two spans begins and ends where one of them does. -/
theorem Sited.cover (hs : s.Sited P) (ht : t.Sited P) : (s.cover t).Sited P where
  start_le := (Nat.min_le_left _ _).trans (hs.start_le.trans (Nat.le_max_left _ _))
  start := by
    rw [Span.cover, Nat.min_def]
    split
    · exact hs.start
    · exact ht.start
  stop := by
    rw [Span.cover, Nat.max_def]
    split
    · exact ht.stop
    · exact hs.stop

end Span

/-- A token moves with its span. -/
def Token.relocate (f : Nat → Nat) (t : Token) : Token := { t with span := t.span.relocate f }

/-- To move tokens along the identity is not to move them. -/
@[simp] theorem Token.relocate_id : Token.relocate id = id := rfl

/-- An error of the lexer moves with its span. -/
def LexicalError.relocate (f : Nat → Nat) (e : LexicalError) : LexicalError :=
  { e with span := e.span.relocate f }

/-- An error of the parser moves with its span. -/
def GrammarError.relocate (f : Nat → Nat) (e : GrammarError) : GrammarError :=
  { e with span := e.span.relocate f }

/-! ### Places

Offsets between the characters of a text. -/

namespace Text

/-- Characters one after the other have the bytes of both. -/
@[simp] theorem byteLength_append (cs ds : List Char) :
    byteLength (cs ++ ds) = byteLength cs + byteLength ds := by
  induction cs with
  | nil => simp [byteLength]
  | cons c cs ih => simp [byteLength, ih, Nat.add_assoc]

/-- The bytes of a text are those of its characters. -/
theorem utf8ByteSize_eq (text : String) : text.utf8ByteSize = byteLength text.toList := by
  obtain ⟨cs, rfl⟩ : ∃ cs, text = String.ofList cs := ⟨text.toList, String.ofList_toList.symm⟩
  rw [String.toList_ofList]
  induction cs with
  | nil => rfl
  | cons c cs ih =>
    rw [String.ofList_cons, String.utf8ByteSize_append, String.utf8ByteSize_singleton, ih, byteLength]

/-- An offset between two characters, or at an end of the text. -/
def IsPlace (cs : List Char) (offset : Nat) : Prop :=
  ∃ passed rest, cs = passed ++ rest ∧ offset = byteLength passed

/-- No place is behind the end of the text. -/
theorem IsPlace.le {cs : List Char} {offset : Nat} (h : IsPlace cs offset) : offset ≤ byteLength cs := by
  obtain ⟨passed, rest, rfl, rfl⟩ := h
  rw [byteLength_append]
  exact Nat.le_add_right _ _

end Text

end Protean
