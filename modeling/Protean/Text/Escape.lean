/-!
# Text — Escape

How a text is written between the quotes of a string literal.  Six characters are written as a
backslash and a letter or the character itself; every other character stands for itself.
`escapeOf` and `unescape?` are each other's inverse on those six.
-/

namespace Protean.Text

/-- What follows the backslash when `c` must be escaped. -/
def escapeOf : Char → Option Char
  | '"' => some '"'
  | '\\' => some '\\'
  | '$' => some '$'
  | '\n' => some 'n'
  | '\t' => some 't'
  | '\r' => some 'r'
  | _ => none

/-- The character that a backslash and `c` stand for. -/
def unescape? : Char → Option Char
  | '"' => some '"'
  | '\\' => some '\\'
  | '$' => some '$'
  | 'n' => some '\n'
  | 't' => some '\t'
  | 'r' => some '\r'
  | _ => none

/-- A character as it is written inside a literal. -/
def escapeChar (c : Char) : List Char :=
  match escapeOf c with
  | some d => ['\\', d]
  | none => [c]

/-- A text as it is written inside a literal. -/
def escape (s : String) : String := String.ofList (s.toList.flatMap escapeChar)

/-- A string literal: the escaped text between quotes. -/
def quote (s : String) : String := "\"" ++ escape s ++ "\""

theorem unescape?_escapeOf {c d : Char} (h : escapeOf c = some d) : unescape? d = some c := by
  unfold escapeOf at h
  split at h <;> simp_all <;> subst h <;> rfl

end Protean.Text
