import Protean.Text.Basic
import Protean.Text.Grapheme.Table

/-!
# Text — Grapheme

Grapheme clusters: the pieces of a text that its reader takes for one character each, by Unicode's
rules for extended clusters.  A text is read from left to right.  Each character has a class, and
whether it joins the cluster before it depends on that class and on what was read so far, which a
`Context` sums up.

* `Context.joins` is the rule.
* `clusters` splits a text.
* `flatten_clusters`: nothing is lost or added.
-/

namespace Protean.Text.Grapheme

/-- What a character is for the sake of clusters. -/
inductive Class where
  | other
  | carriageReturn
  | lineFeed
  | control
  | extend
  | joiner
  | regional
  | prepend
  | spacing
  /-- The leading consonant of a Hangul syllable. -/
  | leading
  | vowel
  | trailing
  /-- A Hangul syllable without a trailing consonant. -/
  | openSyllable
  /-- A Hangul syllable with one. -/
  | closedSyllable
  | pictographic
  | consonant
deriving DecidableEq

/-- Joins pictographs to one picture. -/
def joiner : Char := Char.ofNat 0x200D

/-- A mark that keeps consonants from forming a conjunct. -/
def nonJoiner : Char := Char.ofNat 0x200C

/-- The class of a character.  Among ASCII only the controls are special. -/
def classOf (c : Char) : Class :=
  let n := c.toNat
  if n = 0x0D then .carriageReturn
  else if n = 0x0A then .lineFeed
  else if 0x20 ≤ n && n < 0x7F then .other
  else if inRanges controlRanges c then .control
  else if c = joiner then .joiner
  else if inRanges extendRanges c then .extend
  else if inRanges spacingRanges c then .spacing
  else if inRanges prependRanges c then .prepend
  else if 0x1F1E6 ≤ n && n ≤ 0x1F1FF then .regional
  else if inRanges leadingRanges c then .leading
  else if inRanges vowelRanges c then .vowel
  else if inRanges trailingRanges c then .trailing
  else if 0xAC00 ≤ n && n ≤ 0xD7A3 then
    if (n - 0xAC00) % 28 = 0 then .openSyllable else .closedSyllable
  else if inRanges pictographicRanges c then .pictographic
  else if inRanges consonantRanges c then .consonant
  else .other

/-- Whether a character may stand between the consonants of a conjunct. -/
def isConjunctMark (c : Char) : Bool :=
  match classOf c with
  | .joiner => true
  | .extend => c != nonJoiner
  | _ => false

/-! ### What was read -/

/-- The class of the last character, and what ends with it. -/
structure Context where
  last : Class
  /-- An odd number of regional indicators. -/
  oddRegional : Bool := false
  /-- A pictograph and marks. -/
  pictograph : Bool := false
  /-- A pictograph, marks and a joiner. -/
  joined : Bool := false
  /-- A consonant and marks. -/
  consonant : Bool := false
  /-- A consonant and marks, a linker among them. -/
  linked : Bool := false

namespace Context

/-- Nothing was read. -/
def start : Context where
  last := .control

/-- The context after one more character. -/
def next (ctx : Context) (c : Char) : Context :=
  let k := classOf c
  let conjunct := ctx.consonant && isConjunctMark c
  { last := k
    oddRegional := k == .regional && !ctx.oddRegional
    pictograph := k == .pictographic || (ctx.pictograph && k == .extend)
    joined := ctx.pictograph && k == .joiner
    consonant := k == .consonant || conjunct
    linked := conjunct && (ctx.linked || inRanges linkerRanges c) }

/-- Whether a character of the given class belongs to the cluster before it. -/
def joins (ctx : Context) (k : Class) : Bool :=
  match ctx.last, k with
  | .carriageReturn, .lineFeed => true
  | .control, _ | .carriageReturn, _ | .lineFeed, _ => false
  | _, .control | _, .carriageReturn | _, .lineFeed => false
  | .leading, .leading | .leading, .vowel | .leading, .openSyllable
  | .leading, .closedSyllable => true
  | .openSyllable, .vowel | .openSyllable, .trailing | .vowel, .vowel | .vowel, .trailing => true
  | .closedSyllable, .trailing | .trailing, .trailing => true
  | _, .extend | _, .joiner | _, .spacing | .prepend, _ => true
  | _, .consonant => ctx.linked
  | .joiner, .pictographic => ctx.joined
  | .regional, .regional => ctx.oddRegional
  | _, _ => false

end Context

/-! ### Clusters -/

/-- The cluster that starts with `taken`, which is newest first, and those behind it. -/
def grow (ctx : Context) (taken : List Char) : List Char → List (List Char)
  | [] => [taken.reverse]
  | c :: cs =>
    if ctx.joins (classOf c) then grow (ctx.next c) (c :: taken) cs
    else taken.reverse :: grow (ctx.next c) [c] cs

/-- The clusters of a text. -/
def clusters : List Char → List (List Char)
  | [] => []
  | c :: cs => grow (Context.start.next c) [c] cs

theorem flatten_grow (ctx : Context) (taken cs : List Char) :
    (grow ctx taken cs).flatten = taken.reverse ++ cs := by
  induction cs generalizing ctx taken with
  | nil => simp [grow]
  | cons c cs ih =>
    rw [grow]
    split <;> simp [ih]

/-- The clusters of a text make up the text. -/
theorem flatten_clusters (cs : List Char) : (clusters cs).flatten = cs := by
  cases cs with
  | nil => rfl
  | cons c cs => simp [clusters, flatten_grow]

end Protean.Text.Grapheme
