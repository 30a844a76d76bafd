/-!
# Text — Basic

What the modules on text share: how many bytes characters take, and sets of characters given by
ranges.
-/

namespace Protean.Text

/-- The number of bytes that characters take in a text. -/
def byteLength : List Char → Nat
  | [] => 0
  | c :: cs => c.utf8Size + byteLength cs

/-- Whether a character lies in one of the ranges, both ends included. -/
def inRanges (ranges : List (Nat × Nat)) (c : Char) : Bool :=
  ranges.any fun (first, last) => first ≤ c.toNat && c.toNat ≤ last

end Protean.Text
