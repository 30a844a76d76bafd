import Protean.Proofs.Source.Places
import Protean.Proofs.Token.Lexeme

/-!
# Proofs — Token — one token at a time

What the lexer does next, taken apart.  Outside of strings the characters in front say what is taken off
the text (`Lexer.lexeme`), the kind of the token says which delimiter it opens or closes (`Lexer.nest`),
and `State.step` is one round of the lexer.  A run is a number of steps up to a state without one, and
there is always fuel for all of them (`State.run_of_reaches`).

* `Lexer.Passes`: what lies between two places in a text, for the gaps, the contents and the tokens.
* `State.Round`: what one step comes to, a case for each way to go on.
* `State.left`: what is left of a text, which every step makes smaller.
* `State.Stands`: the lexer stands at a place of the text.
-/

namespace Protean

namespace Lexer

open Token

/-! ### What stands in front

The scanner of the model decides and acts in one go.  Here the decision is a value of its own (`Lexeme`), and
`scan_eq` says that the scanner acts by it. -/

/-- What the lexer makes of the characters in front. -/
inductive Lexeme where
  | token (kind : TokenKind) (taken rest : List Char)
  /-- A newline that separates nothing. -/
  | skipped
  /-- A character that starts no token. -/
  | stray

/-- The kinds of the tokens that are one character each. -/
def symbol? (c : Char) : Option TokenKind :=
  if c = '"' then some .stringStart
  else if c = '(' then some .leftParen
  else if c = '[' then some .leftBracket
  else if c = '{' then some .leftBrace
  else if c = ')' then some .rightParen
  else if c = ']' then some .rightBracket
  else if c = '}' then some .rightBrace
  else if c = ',' then some .comma
  else if c = '.' then some .dot
  else if c = ';' then some .semicolon
  else none

/-- What is taken off the characters `c :: r` behind a token of the kind `last`. -/
def lexeme (last : Option TokenKind) (c : Char) (r : List Char) : Lexeme :=
  if c = '\n' then
    match last with
    | none | some .newline => .skipped
    | some _ => .token .newline [c] r
  else if isNameStart c then
    .token .identifier ((c :: r).span isNameChar).1 ((c :: r).span isNameChar).2
  else if c.isDigit then
    .token .number (numberRun (last == some .dot) (c :: r)).1 (numberRun (last == some .dot) (c :: r)).2
  else if c = '-' ∧ (r.head?.any Char.isDigit) ∧ ¬ last.any TokenKind.endsOperand then
    .token .number (c :: (numberRun false r).1) (numberRun false r).2
  else
    (symbol? c).elim
      (if isOperatorChar c then
        .token (if c = '=' ∧ (operatorRun r).1 = [] then .assign else .operator)
          (c :: (operatorRun r).1) (operatorRun r).2
      else .stray)
      (.token · [c] r)

/-- The modes behind a token that stands at `offset`. -/
def nest (kind : TokenKind) (offset : Nat) (modes : List Mode) : List Mode :=
  match kind with
  | .stringStart => .string offset :: modes
  | .interpolationStart => .interpolation :: modes
  | .leftParen | .leftBracket => .inline :: modes
  | .leftBrace => .statements :: modes
  | .rightParen | .rightBracket | .rightBrace | .stringEnd => modes.tail
  | _ => modes

namespace State

/-- Takes a token off the text and enters or leaves modes with it. -/
def pass (s : State) (kind : TokenKind) (taken rest : List Char) : State :=
  { s.emit kind taken rest with modes := nest kind s.offset s.modes }

/-- What the lexer does about a lexeme. -/
def take (s : State) (c : Char) (r : List Char) : Lexeme → State
  | .token kind taken rest => s.pass kind taken rest
  | .skipped => s.drop c r
  | .stray => (s.drop c r).report (.unexpectedCharacter c) ⟨s.offset, s.offset + c.utf8Size⟩

/-- To scan is to take off what the characters in front say. -/
theorem scan_eq (s : State) (c : Char) (r : List Char) :
    s.scan c r = s.take c r (lexeme s.lastKind c r) := by
  -- both choose by the same conditions in the same order, so they are compared choice by choice
  have hchoice : ∀ {p : Prop} [Decidable p] {x y : State} {a b : Lexeme},
      (p → x = s.take c r a) → (¬ p → y = s.take c r b) →
        (if p then x else y) = s.take c r (if p then a else b) := by
    intro p _ x y a b hx hy
    by_cases hp : p
    · rw [if_pos hp, if_pos hp, hx hp]
    · rw [if_neg hp, if_neg hp, hy hp]
  have hsymbol : ∀ {p : Prop} [Decidable p] {kind : TokenKind} {x y : State} {k : Option TokenKind}
      {b : Lexeme}, x = s.pass kind [c] r → y = s.take c r (k.elim b (.token · [c] r)) →
        (if p then x else y) = s.take c r ((if p then some kind else k).elim b (.token · [c] r)) := by
    intro p _ kind x y k b hx hy
    by_cases hp : p
    · rw [if_pos hp, if_pos hp, hx]
      rfl
    · rw [if_neg hp, if_neg hp, hy]
  rw [scan, lexeme.eq_def]
  refine hchoice (fun _ => ?_) fun _ => hchoice (fun _ => rfl) fun _ => hchoice (fun _ => rfl)
    fun _ => hchoice (fun _ => rfl) fun _ => ?_
  · rcases s.lastKind with _ | kind
    · rfl
    · cases kind <;> rfl
  · rw [symbol?]
    iterate 10 refine hsymbol rfl ?_
    refine hchoice (fun _ => ?_) fun _ => rfl
    simp only [take, pass]
    split <;> rfl

/-- The state behind the content of a string. -/
def content (s : State) : State :=
  let k := chunk s.offset s.rest
  ⟨k.offset, k.rest, s.modes, if k.offset = s.offset then s.tokens
    else ⟨.stringContent, String.ofList k.text, ⟨s.offset, k.offset⟩⟩ :: s.tokens,
      k.errors.reverse ++ s.errors⟩

/-- In a string the lexer takes content, and then what comes behind it. -/
theorem stringPart_eq (s : State) (openedAt : Nat) :
    s.stringPart openedAt =
      match s.content.rest with
      | '"' :: r => s.content.pass .stringEnd ['"'] r
      | '$' :: c :: r => s.content.pass .interpolationStart ['$', c] r
      | _ => (s.content.report .unterminatedString ⟨openedAt, s.content.offset⟩).pop := rfl

/-! ### Steps

One round of the lexer, and runs as sequences of rounds. -/

/-- One round of the lexer, where the text is not at its end. -/
def step (s : State) : Option State :=
  match s.mode with
  | .string openedAt => some (s.stringPart openedAt)
  | _ =>
    match s.skipGap.rest with
    | [] => none
    | c :: r => some (s.skipGap.take c r (lexeme s.lastKind c r))

/-- Outside of strings the lexer takes what stands behind the gap. -/
theorem step_eq_take {s : State} {c : Char} {r : List Char} (hmode : ∀ n, s.mode ≠ .string n)
    (hrest : s.skipGap.rest = c :: r) : s.step = some (s.skipGap.take c r (lexeme s.lastKind c r)) := by
  rw [step]
  split
  · rename_i n hstring
    exact absurd hstring (hmode n)
  · rw [hrest]

/-- `t` is reached from `s` by steps. -/
inductive Reaches : State → State → Prop where
  | refl (s : State) : Reaches s s
  | step {s s' t : State} (h : s.step = some s') (rest : Reaches s' t) : Reaches s t

theorem Reaches.trans {s t u : State} (h : Reaches s t) (h' : Reaches t u) : Reaches s u := by
  induction h with
  | refl => exact h'
  | step hs _ ih => exact .step hs (ih h')

/-- A run makes a step and goes on, or finishes. -/
theorem run_succ (fuel : Nat) (s : State) :
    run (fuel + 1) s =
      match s.step with
      | some s' => run fuel s'
      | none => s.skipGap.finish := by
  rw [run, step]
  cases s.mode with
  | string openedAt => rfl
  | statements | inline | interpolation =>
    dsimp only
    cases s.skipGap.rest with
    | nil => rfl
    | cons c r => exact congrArg (run fuel) (scan_eq _ c r)

end State

/-! ### What is taken off the text

Every round takes characters off the text and loses none of them: what was passed and what is left are the
text. -/

/-- What is taken off and what is left of a fraction are all characters. -/
theorem fractionRun_append_eq (cs : List Char) : (fractionRun cs).1 ++ (fractionRun cs).2 = cs := by
  rw [fractionRun.eq_def]
  split
  · split
    · simp [List.span_eq_takeWhile_dropWhile]
    · rfl
  · rfl

theorem exponentRun_append_eq (cs : List Char) : (exponentRun cs).1 ++ (exponentRun cs).2 = cs := by
  rw [exponentRun.eq_def]
  split
  · split
    · split
      · simp [List.span_eq_takeWhile_dropWhile]
      · split
        · simp [List.span_eq_takeWhile_dropWhile]
        · rfl
    · rfl
  · split <;> rfl
  · rfl

theorem numberRun_append_eq (integerOnly : Bool) (cs : List Char) :
    (numberRun integerOnly cs).1 ++ (numberRun integerOnly cs).2 = cs := by
  have hdigits : (cs.span Char.isDigit).1 ++ (cs.span Char.isDigit).2 = cs := by
    rw [List.span_eq_takeWhile_dropWhile, List.takeWhile_append_dropWhile]
  rw [numberRun]
  cases integerOnly with
  | true => exact hdigits
  | false =>
    simp only [Bool.false_eq_true, if_false, List.append_assoc]
    rw [exponentRun_append_eq, fractionRun_append_eq, hdigits]

theorem operatorRun_append_eq (cs : List Char) : (operatorRun cs).1 ++ (operatorRun cs).2 = cs := by
  fun_induction operatorRun cs <;> simp_all

/-- A token takes characters off the front, at least one. -/
theorem lexeme_token {last : Option TokenKind} {c : Char} {r taken rest : List Char} {kind : TokenKind}
    (h : lexeme last c r = .token kind taken rest) : taken ++ rest = c :: r ∧ taken ≠ [] := by
  have hname : isNameStart c = true → isNameChar c = true := by
    simp only [isNameStart, isNameChar, Char.isAlphanum, Bool.or_eq_true]
    exact fun hc => hc.imp_left .inl
  -- the cases of the definition, in their order: newline, name, number, negative number, symbol, operator
  rw [lexeme.eq_def] at h
  split at h
  · split at h <;> cases h
    exact ⟨rfl, List.cons_ne_nil _ _⟩
  split at h
  · rename_i hc
    cases h
    rw [List.span_eq_takeWhile_dropWhile, List.takeWhile_append_dropWhile,
      List.takeWhile_cons_of_pos (hname hc)]
    exact ⟨rfl, List.cons_ne_nil _ _⟩
  split at h
  · rename_i hc
    cases h
    refine ⟨numberRun_append_eq _ _, ?_⟩
    have hwhole : ((c :: r).span Char.isDigit).1 ≠ [] := by
      rw [List.span_eq_takeWhile_dropWhile, List.takeWhile_cons_of_pos hc]
      exact List.cons_ne_nil _ _
    cases hdot : last == some .dot with
    | true => exact hwhole
    | false => exact List.append_ne_nil_of_left_ne_nil (List.append_ne_nil_of_left_ne_nil hwhole _) _
  split at h
  · cases h
    exact ⟨congrArg (c :: ·) (numberRun_append_eq _ _), List.cons_ne_nil _ _⟩
  cases hsymbol : symbol? c with
  | some kind =>
    rw [hsymbol] at h
    cases h
    exact ⟨rfl, List.cons_ne_nil _ _⟩
  | none =>
    rw [hsymbol, Option.elim_none] at h
    split at h <;> cases h
    exact ⟨congrArg (c :: ·) (operatorRun_append_eq _), List.cons_ne_nil _ _⟩

/-- From `cs` at `offset` to `rest` at `offset'` all bytes have been counted. -/
def Passes (offset : Nat) (cs : List Char) (offset' : Nat) (rest : List Char) : Prop :=
  ∃ passed, cs = passed ++ rest ∧ offset' = offset + Text.byteLength passed

namespace Passes

variable {offset offset' offset'' : Nat} {cs rest rest' : List Char}

/-- Nothing is passed between a place and itself. -/
theorem refl (offset : Nat) (cs : List Char) : Passes offset cs offset cs := ⟨[], rfl, rfl⟩

theorem trans (h : Passes offset cs offset' rest) (h' : Passes offset' rest offset'' rest') :
    Passes offset cs offset'' rest' := by
  obtain ⟨passed, rfl, rfl⟩ := h
  obtain ⟨passed', rfl, rfl⟩ := h'
  exact ⟨passed ++ passed', by simp, by rw [Text.byteLength_append, Nat.add_assoc]⟩

/-- Characters in front are passed by their bytes. -/
theorem append (offset : Nat) (front rest : List Char) :
    Passes offset (front ++ rest) (offset + Text.byteLength front) rest := ⟨front, rfl, rfl⟩

/-- No place is in front of an earlier one. -/
theorem le (h : Passes offset cs offset' rest) : offset ≤ offset' := by
  obtain ⟨passed, -, rfl⟩ := h
  exact Nat.le_add_right _ _

end Passes

theorem skip_passes (statements : Bool) (gap : Gap) (offset : Nat) (cs : List Char) :
    Passes offset cs (skip statements gap offset cs).1 (skip statements gap offset cs).2 := by
  fun_induction skip statements gap offset cs with
  | case1 | case5 | case6 => exact .refl _ _
  | case2 offset r ih => exact (Passes.append offset ['/', '/'] r).trans ih
  | case3 offset r ih => exact (Passes.append offset ['/', '*'] r).trans ih
  | case4 offset c r _ _ _ ih => exact (Passes.append offset [c] r).trans ih
  | case7 offset c r hc _ ih =>
    obtain rfl : c = '\n' := beq_iff_eq.mp hc
    exact (Passes.append offset ['\n'] r).trans ih
  | case8 offset c r _ ih => exact (Passes.append offset [c] r).trans ih
  | case9 depth offset r ih => exact (Passes.append offset ['/', '*'] r).trans ih
  | case10 offset r ih => exact (Passes.append offset ['*', '/'] r).trans ih
  | case11 depth offset r ih => exact (Passes.append offset ['*', '/'] r).trans ih
  | case12 depth offset c r _ _ _ ih => exact (Passes.append offset [c] r).trans ih

theorem chunk_passes (offset : Nat) (cs : List Char) :
    Passes offset cs (chunk offset cs).offset (chunk offset cs).rest := by
  fun_induction chunk offset cs with
  | case1 | case2 | case3 => exact .refl _ _
  | case4 offset => exact .append offset ['\\'] []
  | case5 offset c r hne stop d hd ih | case6 offset c r hne stop hd ih =>
    have hfront := Passes.append offset ['\\', c] r
    rw [Text.byteLength, Text.byteLength, Text.byteLength, ← Nat.add_assoc, ← Nat.add_assoc] at hfront
    exact hfront.trans ih
  | case7 offset c r _ _ _ _ _ ih => exact (Passes.append offset [c] r).trans ih

/-- Content ends at a quote, at an interpolation or with the text. -/
theorem chunk_rest (offset : Nat) (cs : List Char) : (chunk offset cs).rest = [] ∨
    (∃ r, (chunk offset cs).rest = '"' :: r) ∨ ∃ r, (chunk offset cs).rest = '$' :: '{' :: r := by
  fun_induction chunk offset cs with
  | case1 | case4 => exact .inl rfl
  | case2 offset r => exact .inr (.inl ⟨r, rfl⟩)
  | case3 offset r => exact .inr (.inr ⟨r, rfl⟩)
  | case5 => assumption
  | case6 => assumption
  | case7 => assumption

namespace State

theorem skipGap_passes (s : State) : Passes s.offset s.rest s.skipGap.offset s.skipGap.rest :=
  skip_passes _ .plain s.offset s.rest

theorem content_passes (s : State) : Passes s.offset s.rest s.content.offset s.content.rest :=
  chunk_passes s.offset s.rest

/-! ### The ways in which a round can go

An inversion: what one round can do, with all that is known where it does it.  Every invariant of the lexer is
shown by the cases of `State.Round`. -/

/-- One round of the lexer, taken apart. -/
inductive Round (s : State) : State → Prop where
  | quote {openedAt : Nat} {r : List Char} (hmode : s.mode = .string openedAt)
      (hrest : s.content.rest = '"' :: r) : Round s (s.content.pass .stringEnd ['"'] r)
  | interpolation {openedAt : Nat} {r : List Char} (hmode : s.mode = .string openedAt)
      (hrest : s.content.rest = '$' :: '\x7b' :: r) :
      Round s (s.content.pass .interpolationStart ['$', '\x7b'] r)
  | unterminated {openedAt : Nat} (hmode : s.mode = .string openedAt) (hrest : s.content.rest = []) :
      Round s (s.content.report .unterminatedString ⟨openedAt, s.content.offset⟩).pop
  | token {c : Char} {r taken rest : List Char} {kind : TokenKind} (hmode : ∀ n, s.mode ≠ .string n)
      (hrest : s.skipGap.rest = c :: r) (hlexeme : lexeme s.lastKind c r = .token kind taken rest) :
      Round s (s.skipGap.pass kind taken rest)
  | skipped {c : Char} {r : List Char} (hmode : ∀ n, s.mode ≠ .string n)
      (hrest : s.skipGap.rest = c :: r) (hlexeme : lexeme s.lastKind c r = .skipped) :
      Round s (s.skipGap.drop c r)
  | stray {c : Char} {r : List Char} (hmode : ∀ n, s.mode ≠ .string n)
      (hrest : s.skipGap.rest = c :: r) (hlexeme : lexeme s.lastKind c r = .stray) :
      Round s ((s.skipGap.drop c r).report (.unexpectedCharacter c)
        ⟨s.skipGap.offset, s.skipGap.offset + c.utf8Size⟩)

theorem round_of_step {s s' : State} (h : s.step = some s') : s.Round s' := by
  rw [step] at h
  split at h
  · rename_i openedAt hmode
    cases h
    rw [stringPart_eq]
    obtain hrest | ⟨r, hrest⟩ | ⟨r, hrest⟩ := chunk_rest s.offset s.rest
    · rw [show s.content.rest = [] from hrest]
      exact .unterminated hmode hrest
    · rw [show s.content.rest = '"' :: r from hrest]
      exact .quote hmode hrest
    · rw [show s.content.rest = '$' :: '\x7b' :: r from hrest]
      exact .interpolation hmode hrest
  · rename_i hmode
    split at h
    · cases h
    · rename_i c r hrest
      cases h
      cases hlexeme : lexeme s.lastKind c r with
      | token kind taken rest => exact .token hmode hrest hlexeme
      | skipped => exact .skipped hmode hrest hlexeme
      | stray => exact .stray hmode hrest hlexeme

/-- A mode that is a string is one of those that are kept. -/
theorem modes_of_string {s : State} {n : Nat} (h : s.mode = .string n) : ∃ outer, s.modes = .string n :: outer := by
  rw [mode] at h
  cases hmodes : s.modes with
  | nil =>
    rw [hmodes] at h
    cases h
  | cons m outer =>
    rw [hmodes] at h
    exact ⟨outer, by rw [show m = _ from h]⟩

/-- A round counts the bytes that it takes off the text. -/
theorem step_passes {s s' : State} (h : s.step = some s') : Passes s.offset s.rest s'.offset s'.rest := by
  cases round_of_step h with
  | quote _ hrest => exact s.content_passes.trans (hrest ▸ .append _ ['"'] _)
  | interpolation _ hrest => exact s.content_passes.trans (hrest ▸ .append _ ['$', '\x7b'] _)
  | unterminated _ _ => exact s.content_passes
  | token _ hrest hlexeme =>
    exact s.skipGap_passes.trans (hrest ▸ (lexeme_token hlexeme).1 ▸ .append _ _ _)
  | @skipped c _ _ hrest _ => exact s.skipGap_passes.trans (hrest ▸ .append _ [c] _)
  | @stray c _ _ hrest _ => exact s.skipGap_passes.trans (hrest ▸ .append _ [c] _)

end State

/-! ### There is fuel for all steps

What is left of a text counts its characters twice, and the open strings once, so that leaving a string is
progress as well. -/

/-- The lexer is in a string. -/
def Mode.isString : Mode → Bool
  | .string _ => true
  | _ => false

theorem countP_nest_le (kind : TokenKind) (offset : Nat) (modes : List Mode) :
    (nest kind offset modes).countP Mode.isString ≤ modes.countP Mode.isString + 1 := by
  have htail : modes.tail.countP Mode.isString ≤ modes.countP Mode.isString + 1 :=
    Nat.le_succ_of_le (List.tail_sublist modes).countP_le
  rw [nest.eq_def]
  split
  · rw [List.countP_cons]
    exact Nat.add_le_add_left (by split <;> omega) _
  all_goals first
    | exact htail
    | rw [List.countP_cons_of_neg (by simp [Mode.isString])]; exact Nat.le_succ _
    | exact Nat.le_succ _

namespace State

/-- How many steps are left at most: a string that the text leaves open takes one step more. -/
def left (s : State) : Nat := 2 * s.rest.length + s.modes.countP Mode.isString

theorem left_pass {s : State} {kind : TokenKind} {taken rest : List Char}
    (h : s.rest = taken ++ rest) (hne : taken ≠ []) : (s.pass kind taken rest).left < s.left := by
  have hlength := congrArg List.length h
  rw [List.length_append] at hlength
  have htaken := List.length_pos_iff.mpr hne
  have hcount := countP_nest_le kind s.offset s.modes
  show 2 * rest.length + (nest kind s.offset s.modes).countP Mode.isString < s.left
  rw [left]
  omega

/-- What is passed is not left any more. -/
theorem left_of_passes {s s' : State} (h : Passes s.offset s.rest s'.offset s'.rest)
    (hmodes : s'.modes = s.modes) : s'.left ≤ s.left := by
  obtain ⟨passed, hrest, -⟩ := h
  rw [left, left, hrest, hmodes, List.length_append]
  omega

/-- A character that is dropped is not left any more. -/
theorem left_drop {s : State} {c : Char} {r : List Char} (h : s.rest = c :: r) :
    (s.drop c r).left < s.left := by
  rw [left, left, h, List.length_cons]
  show 2 * r.length + s.modes.countP Mode.isString < _
  omega

theorem left_step {s s' : State} (h : s.step = some s') : s'.left < s.left := by
  have hcontent : s.content.left ≤ s.left := left_of_passes s.content_passes rfl
  have hgap : s.skipGap.left ≤ s.left := left_of_passes s.skipGap_passes rfl
  cases round_of_step h with
  | quote _ hrest | interpolation _ hrest =>
    exact Nat.lt_of_lt_of_le (left_pass hrest (List.cons_ne_nil _ _)) hcontent
  | unterminated hmode _ =>
    refine Nat.lt_of_lt_of_le ?_ hcontent
    obtain ⟨outer, houter⟩ := modes_of_string hmode
    show 2 * s.content.rest.length + s.modes.tail.countP Mode.isString <
      2 * s.content.rest.length + s.modes.countP Mode.isString
    rw [houter, List.tail_cons, List.countP_cons_of_pos rfl]
    omega
  | token _ hrest hlexeme =>
    obtain ⟨hsplit, hne⟩ := lexeme_token hlexeme
    exact Nat.lt_of_lt_of_le (left_pass (hrest.trans hsplit.symm) hne) hgap
  | skipped _ hrest _ | stray _ hrest _ =>
    have hdrop : (s.skipGap.drop _ _).left < s.skipGap.left := left_drop hrest
    exact Nat.lt_of_lt_of_le hdrop hgap

/-- A run that has fuel for more steps than are left takes them all. -/
theorem run_of_reaches {s t : State} (h : Reaches s t) (hend : t.step = none) :
    ∀ {fuel : Nat}, s.left < fuel → run fuel s = t.skipGap.finish := by
  induction h with
  | refl s =>
    intro fuel hfuel
    obtain ⟨fuel, rfl⟩ := Nat.exists_eq_succ_of_ne_zero (Nat.ne_zero_of_lt hfuel)
    rw [Nat.succ_eq_add_one, run_succ, hend]
  | step hs _ ih =>
    intro fuel hfuel
    obtain ⟨fuel, rfl⟩ := Nat.exists_eq_succ_of_ne_zero (Nat.ne_zero_of_lt hfuel)
    rw [Nat.succ_eq_add_one, run_succ, hs]
    exact ih hend (Nat.lt_of_lt_of_le (left_step hs) (Nat.le_of_lt_succ hfuel))

theorem exists_reaches (s : State) : ∃ t, Reaches s t ∧ t.step = none := by
  induction hn : s.left using Nat.strongRecOn generalizing s with
  | ind n ih =>
    cases hstep : s.step with
    | none => exact ⟨s, .refl s, hstep⟩
    | some s' =>
      obtain ⟨t, ht, hend⟩ := ih s'.left (hn ▸ left_step hstep) s' rfl
      exact ⟨t, .step hstep ht, hend⟩

/-- What every step preserves holds wherever steps lead. -/
theorem Reaches.invariant {P : State → Prop} (hstep : ∀ s s', P s → s.step = some s' → P s')
    {s t : State} (h : Reaches s t) (hs : P s) : P t := by
  induction h with
  | refl => exact hs
  | step hs' _ ih => exact ih (hstep _ _ hs hs')

end State

end Lexer

/-- **The tokens of a text** are found step by step. -/
theorem Token.ofText_of_reaches {text : String} {t : Lexer.State}
    (h : Lexer.State.Reaches (.start text.toList) t) (hend : t.step = none) :
    Token.ofText text = ⟨t.skipGap.finish.tokens.reverse, t.skipGap.finish.errors.reverse⟩ := by
  have hfuel : (Lexer.State.start text.toList).left < 2 * text.toList.length + 2 := by
    show 2 * text.toList.length + 0 < _
    omega
  rw [ofText, Lexer.State.run_of_reaches h hend hfuel]

/-! ### Where tokens stand

The lexer stands at a place of the text at every moment, so all spans begin and end at places. -/

namespace Lexer

/-- What has been passed from the start on ends at a place of the text. -/
theorem Passes.isPlace {cs rest : List Char} {offset : Nat} (h : Passes 0 cs offset rest) :
    Text.IsPlace cs offset := by
  obtain ⟨passed, hcs, hoffset⟩ := h
  exact ⟨passed, rest, hcs, by rw [hoffset, Nat.zero_add]⟩

namespace State

/-- The state stands in `cs`, and so do all tokens found so far. -/
structure Stands (cs : List Char) (s : State) : Prop where
  place : Passes 0 cs s.offset s.rest
  tokens : ∀ t ∈ s.tokens, t.span.Sited (Text.IsPlace cs)

namespace Stands

variable {cs : List Char} {s : State}

/-- Passing over characters without a token. -/
theorem move {s' : State} (h : s.Stands cs) (hpasses : Passes s.offset s.rest s'.offset s'.rest)
    (htokens : s'.tokens = s.tokens) : s'.Stands cs :=
  ⟨h.place.trans hpasses, htokens ▸ h.tokens⟩

/-- What is passed from a place on is a span of the text. -/
theorem span {offset : Nat} {rest : List Char} (h : s.Stands cs)
    (hpasses : Passes s.offset s.rest offset rest) :
    (Span.mk s.offset offset).Sited (Text.IsPlace cs) :=
  ⟨hpasses.le, h.place.isPlace, (h.place.trans hpasses).isPlace⟩

/-- Behind a token the lexer stands at a place. -/
theorem pass {kind : TokenKind} {taken rest : List Char} (h : s.Stands cs)
    (hrest : s.rest = taken ++ rest) : (s.pass kind taken rest).Stands cs := by
  have hpasses : Passes s.offset s.rest (s.offset + Text.byteLength taken) rest :=
    hrest ▸ .append s.offset taken rest
  exact ⟨h.place.trans hpasses, List.forall_mem_cons.mpr ⟨h.span hpasses, h.tokens⟩⟩

theorem drop {c : Char} {r : List Char} (h : s.Stands cs) (hrest : s.rest = c :: r) :
    (s.drop c r).Stands cs :=
  h.move (hrest ▸ .append s.offset [c] r) rfl

theorem content (h : s.Stands cs) : s.content.Stands cs := by
  refine ⟨h.place.trans s.content_passes, ?_⟩
  show ∀ t ∈ (if (chunk s.offset s.rest).offset = s.offset then s.tokens else _ :: s.tokens), _
  split
  · exact h.tokens
  · exact List.forall_mem_cons.mpr ⟨h.span s.content_passes, h.tokens⟩

theorem step {s' : State} (h : s.Stands cs) (hs : s.step = some s') : s'.Stands cs := by
  have hgap : s.skipGap.Stands cs := h.move s.skipGap_passes rfl
  cases round_of_step hs with
  | quote _ hrest | interpolation _ hrest => exact h.content.pass hrest
  | unterminated _ _ => exact h.content.move (.refl _ _) rfl
  | token _ hrest hlexeme => exact hgap.pass (hrest.trans (lexeme_token hlexeme).1.symm)
  | skipped _ hrest _ => exact hgap.drop hrest
  | stray _ hrest _ => exact (hgap.drop hrest).move (.refl _ _) rfl

end Stands

end State

end Lexer

/-- **All tokens stand in the text**, between characters of it. -/
theorem Token.ofText_sited (text : String) :
    ∀ t ∈ (Token.ofText text).tokens, t.span.Sited (Text.IsPlace text.toList) := by
  obtain ⟨t, hreaches, hend⟩ := Lexer.State.exists_reaches (.start text.toList)
  have hstart : (Lexer.State.start text.toList).Stands text.toList := ⟨.refl _ _, List.forall_mem_nil _⟩
  have hstands := hreaches.invariant (fun _ _ hs hstep => hs.step hstep) hstart
  have hgap : t.skipGap.Stands text.toList := hstands.move t.skipGap_passes rfl
  have hfinish : ∀ t' ∈ t.skipGap.finish.tokens, t'.span.Sited (Text.IsPlace text.toList) := by
    have hspan := hgap.span (.refl _ _)
    rw [Lexer.State.finish]
    split <;> exact List.forall_mem_cons.mpr ⟨hspan, hgap.tokens⟩
  rw [Token.ofText_of_reaches hreaches hend]
  exact fun t' ht' => hfinish t' (List.mem_reverse.mp ht')

end Protean
