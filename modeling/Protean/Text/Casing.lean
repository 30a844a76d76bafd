import Protean.Text.Basic
import Protean.Text.Casing.Table

/-!
# Text — Casing

Upper and lower case of a text by Unicode's full mappings, without regard to a language.  A character
may become several.  The capital sigma is the one letter whose lower case depends on its neighbours:
at the end of a word it becomes `ς`, elsewhere `σ`.
-/

namespace Protean.Text.Casing

/-- The image of `n` under a list of runs. -/
def runImage (runs : List Run) (n : Nat) : Option Nat :=
  (runs.find? fun r => r.first ≤ n && n ≤ r.last && (n - r.first) % r.step == 0).map fun r =>
    r.image + (n - r.first)

def isCased (c : Char) : Bool := inRanges casedRanges c

def isIgnorable (c : Char) : Bool := inRanges ignorableRanges c

/-- A character beyond ASCII, mapped by the runs or the words, or left alone. -/
def mapChar (runs : List Run) (words : List (Nat × List Nat)) (c : Char) : List Char :=
  match runImage runs c.toNat with
  | some n => [Char.ofNat n]
  | none =>
    match words.lookup c.toNat with
    | some ns => ns.map Char.ofNat
    | none => [c]

def upperChar (c : Char) : List Char :=
  if c.toNat < 128 then [c.toUpper] else mapChar upperRuns upperWords c

def lowerChar (c : Char) : List Char :=
  if c.toNat < 128 then [c.toLower] else mapChar lowerRuns lowerWords c

/-- Beyond the characters that casing passes over, the next one has case. -/
def meetsCased (cs : List Char) : Bool :=
  match cs.dropWhile isIgnorable with
  | c :: _ => isCased c
  | [] => false

/-- Lower case from left to right; `before` is what has been read, the nearest character first. -/
def lowerAfter (before : List Char) : List Char → List Char
  | [] => []
  | c :: after =>
    let image :=
      if c = 'Σ' then
        if meetsCased before && !meetsCased after then ['ς'] else ['σ']
      else lowerChar c
    image ++ lowerAfter (c :: before) after

end Casing

/-- The upper-case form of a text. -/
def toUpper (s : String) : String := String.ofList (s.toList.flatMap Casing.upperChar)

/-- The lower-case form of a text. -/
def toLower (s : String) : String := String.ofList (Casing.lowerAfter [] s.toList)

end Protean.Text
