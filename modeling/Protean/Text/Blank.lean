/-!
# Text — Blank

The characters that Unicode lists under `White_Space`, and trimming a text of them.
-/

namespace Protean.Text

/-- `White_Space` of Unicode: the ASCII controls 9 to 13 and the space, NEL, the no-break space and
the separators of the higher planes. -/
def isBlank (c : Char) : Bool :=
  let n := c.toNat
  (9 ≤ n && n ≤ 13) || n == 0x20 || n == 0x85 || n == 0xA0 || n == 0x1680 ||
    (0x2000 ≤ n && n ≤ 0x200A) || n == 0x2028 || n == 0x2029 || n == 0x202F || n == 0x205F ||
    n == 0x3000

/-- A text without the blanks at its two ends. -/
def trim (s : String) : String :=
  String.ofList ((s.toList.dropWhile isBlank).reverse.dropWhile isBlank).reverse

end Protean.Text
