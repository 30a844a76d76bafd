import Protean.Proofs.Token.Scan

/-!
# Proofs — Token — texts line by line

What the tokens of `a`, a newline and `b` have to do with those of `a` and of `b`.

* A newline behind a text is no part of a token and ends no comment but one of a line, so what was found in
  front of it stays as it is (`State.step_extend`).
* Behind a newline the lexer starts afresh, but for where it stands: `State.behind` moves a state to where
  other text stands in front of it, and every step commutes with that (`State.step_behind`).
* In between, the lexer has to be outside of all delimiters.  Every token changes how many of them are open
  by its kind (`TokenKind.nesting`), so this can be read off the tokens alone.

* `State.extend`, `State.step_extend`, `Reaches.extend`: more text behind.
* `State.behind`, `State.step_behind`, `Reaches.behind`: more text in front.
* `State.Nested`: the number of open delimiters, read off the tokens.
* `Token.ofText_join`: all of it for two texts and the newline between them.
-/

namespace Protean

namespace Lexer

open Token

/-! ### Gaps, one move at a time

The lexer passes over a gap one or two characters at a time, and what it does depends on the gap it is in and
on these characters.  So a gap that ends before a newline is the same with more text behind the newline. -/

namespace Gap

/-- The gap behind two characters that open or close a comment together. -/
def pair : Gap → Char → Char → Option Gap
  | .plain, '/', '/' => some .line
  | .plain, '/', '*' => some (.block 0)
  | .block depth, '/', '*' => some (.block (depth + 1))
  | .block 0, '*', '/' => some .plain
  | .block (depth + 1), '*', '/' => some (.block depth)
  | _, _, _ => none

/-- The gap behind one character. -/
def single : Gap → Char → Gap
  | .line, c => if c == '\n' then .plain else .line
  | gap, _ => gap

/-- Whether the gap ends in front of a character. -/
def endsAt (statements : Bool) : Gap → Char → Bool
  | .plain, c => !(Text.isBlank c && !(c == '\n' && statements))
  | .line, c => c == '\n' && statements
  | .block _, _ => false

/-- Block comments are what the end of a text may leave open. -/
def isBlock : Gap → Bool
  | .block _ => true
  | .plain | .line => false

/-- The gap in which a text ends that is passed over from `gap` on. -/
def atEnd : Gap → List Char → Gap
  | gap, [] => gap
  | gap, [c] => gap.single c
  | gap, c :: d :: r =>
    match gap.pair c d with
    | some gap' => gap'.atEnd r
    | none => (gap.single c).atEnd (d :: r)

/-- What a gap is at its end is found two characters at a time. -/
theorem atEnd_cons (gap : Gap) (c : Char) (r : List Char) :
    gap.atEnd (c :: r) =
      match r.head?.bind (gap.pair c) with
      | some gap' => gap'.atEnd r.tail
      | none => (gap.single c).atEnd r := by
  cases r with
  | nil => rfl
  | cons d r => rfl

/-- No comment opens or closes with a newline. -/
theorem pair_newline (gap : Gap) (c : Char) : gap.pair c '\n' = none := by
  rw [pair.eq_def]
  split <;> first | rfl | (rename_i heq; cases heq)

end Gap

theorem skip_cons (statements : Bool) (gap : Gap) (offset : Nat) (c : Char) (r : List Char) :
    skip statements gap offset (c :: r) =
      match r.head?.bind (gap.pair c) with
      | some gap' => skip statements gap' (offset + 2) r.tail
      | none =>
        if gap.endsAt statements c then (offset, c :: r)
        else skip statements (gap.single c) (offset + c.utf8Size) r := by
  have hnone : ∀ {gap : Gap}, (∀ d r', r = d :: r' → gap.pair c d = none) →
      r.head?.bind (gap.pair c) = none := by
    intro gap h
    cases r with
    | nil => rfl
    | cons d r' => exact h d r' rfl
  rw [skip.eq_def]
  split
  case h_1 heq => cases heq
  -- outside of comments, in one of a line, and in a block: where no pair starts, one character is passed
  case h_4 c r hline hblock heq =>
    cases heq
    rw [hnone]
    · cases hblank : Text.isBlank c && !(c == '\n' && statements) <;> simp only [Gap.endsAt, hblank] <;>
        rfl
    · rintro d r' rfl
      rw [Gap.pair.eq_def]
      split <;> simp_all
  case h_5 c r heq =>
    cases heq
    rw [hnone fun d r' _ => rfl]
    cases hnewline : c == '\n' <;> cases statements <;> simp [Gap.endsAt, Gap.single, hnewline]
    rw [beq_iff_eq.mp hnewline]
    rfl
  case h_9 depth c r hopen hlast hclose heq =>
    cases heq
    rw [hnone]
    · rfl
    · rintro d r' rfl
      rw [Gap.pair.eq_def]
      split <;> simp_all
  all_goals
    rename_i heq
    cases heq
    rfl

/-- At the end of a text there is nothing to pass over. -/
theorem skip_nil (statements : Bool) (gap : Gap) (offset : Nat) :
    skip statements gap offset [] = (offset, []) := by
  rw [skip.eq_def]

/-- Where a gap ends does not depend on where it starts. -/
theorem skip_add (n : Nat) (statements : Bool) : ∀ (gap : Gap) (offset : Nat) (cs : List Char),
    skip statements gap (offset + n) cs =
      ((skip statements gap offset cs).1 + n, (skip statements gap offset cs).2)
  | gap, offset, [] => by rw [skip_nil, skip_nil]
  | gap, offset, c :: r => by
      rw [skip_cons, skip_cons]
      cases r.head?.bind (gap.pair c) with
      | some gap' =>
        dsimp only
        rw [Nat.add_right_comm, skip_add n statements gap' (offset + 2) r.tail]
      | none =>
        dsimp only
        split
        · rfl
        · rw [Nat.add_right_comm, skip_add n statements (gap.single c) _ r]
termination_by _ _ cs => cs.length
decreasing_by all_goals (simp only [List.length_cons, List.length_tail]; omega)

/-- **A newline behind a text** is not reached by a gap that ends before it, and ends every gap where
statements are read, unless the text ends inside of a block comment. -/
theorem skip_append (b : List Char) (statements : Bool) : ∀ (gap : Gap) (offset : Nat) (cs : List Char),
    (skip statements gap offset cs).2 ≠ [] ∨ statements = true ∧ (gap.atEnd cs).isBlock = false →
      skip statements gap offset (cs ++ '\n' :: b) =
        ((skip statements gap offset cs).1, (skip statements gap offset cs).2 ++ '\n' :: b)
  | gap, offset, [], h => by
      rw [skip_nil] at h ⊢
      obtain ⟨rfl, hgap⟩ := h.resolve_left fun hne => hne rfl
      have hends : gap.endsAt true '\n' = true := by
        cases gap with
        | block depth => cases hgap
        | plain | line => rfl
      have hpair : b.head?.bind (gap.pair '\n') = none := by
        cases b with
        | nil => rfl
        | cons d b =>
          show gap.pair '\n' d = none
          rw [Gap.pair.eq_def]
          split <;> first | rfl | (rename_i heq; cases heq)
      rw [List.nil_append, skip_cons, hpair, if_pos hends]
  | gap, offset, c :: r, h => by
      -- the last character of the text may become the first of a pair, but not with a newline
      have hhead : (r ++ '\n' :: b).head?.bind (gap.pair c) = r.head?.bind (gap.pair c) := by
        cases r with
        | nil => exact gap.pair_newline c
        | cons d r => rfl
      rw [skip_cons, Gap.atEnd_cons] at h
      rw [List.cons_append, skip_cons, hhead, skip_cons statements gap offset c r]
      cases hpair : r.head?.bind (gap.pair c) with
      | some gap' =>
        rw [hpair] at h
        have htail : (r ++ '\n' :: b).tail = r.tail ++ '\n' :: b := by
          cases r with
          | nil => cases hpair
          | cons d r => rfl
        dsimp only
        rw [htail, skip_append b statements gap' _ r.tail h]
      | none =>
        rw [hpair] at h
        dsimp only at h ⊢
        split
        · rfl
        · rename_i hends
          rw [if_neg hends] at h
          rw [skip_append b statements (gap.single c) _ r h]
termination_by _ _ cs => cs.length
decreasing_by all_goals (simp only [List.length_cons, List.length_tail]; omega)

/-! ### Content of strings

Content is taken off up to a quote, an interpolation or the end of the text.  A newline is content like any
other character. -/

/-- The content of a string that stands `n` bytes further on. -/
def Chunk.shift (n : Nat) (k : Chunk) : Chunk :=
  ⟨k.text, k.errors.map (LexicalError.relocate (· + n)), k.offset + n, k.rest⟩

/-- The content of a string does not depend on where it stands, but for the spans of its errors. -/
theorem chunk_add (n offset : Nat) (cs : List Char) :
    chunk (offset + n) cs = (chunk offset cs).shift n := by
  fun_induction chunk offset cs with
  | case1 | case2 | case3 => rfl
  | case4 offset => rw [chunk, Nat.add_right_comm]; rfl
  | case5 offset c r stop next d hd ih =>
    have hstop : offset + n + 1 + c.utf8Size = stop + n := by omega
    rw [chunk, hd, hstop, ih]
    rfl
  | case6 offset c r stop next hd ih =>
    have hstop : offset + n + 1 + c.utf8Size = stop + n := by omega
    rw [chunk, hd, hstop, ih]
    rfl
  | case7 offset c r hquote hmark hlast hescape next ih =>
    rw [chunk, Nat.add_right_comm, ih]
    · rfl
    all_goals assumption

/-- Content that ends before the text does ends there in a longer text as well. -/
theorem chunk_append (tail : List Char) (offset : Nat) (cs : List Char)
    (h : (chunk offset cs).rest ≠ []) :
    chunk offset (cs ++ tail) = { chunk offset cs with rest := (chunk offset cs).rest ++ tail } := by
  fun_induction chunk offset cs with
  | case1 | case4 => exact absurd rfl h
  | case2 => rfl
  | case3 => rfl
  | case5 offset c r stop next d hd ih =>
    rw [List.cons_append, List.cons_append, chunk, hd, ih h]
  | case6 offset c r stop next hd ih => rw [List.cons_append, List.cons_append, chunk, hd, ih h]
  | case7 offset c r hquote hmark hlast hescape next ih =>
    have hr : r ≠ [] := by
      rintro rfl
      exact h rfl
    obtain ⟨d, r, rfl⟩ := List.exists_cons_of_ne_nil hr
    rw [List.cons_append, chunk, ih h]
    · exact hquote
    · rintro r' rfl heq
      exact hmark r rfl (by rw [(List.cons.inj heq).1])
    · nofun
    · exact fun d' r' hc heq => hescape d r hc rfl

/-! ### Tokens outside of strings

No token goes on with a newline, so what is taken off in front of one does not depend on what follows. -/

/-- What is taken off a text does not reach a newline behind it. -/
def StopsAtNewline (run : List Char → List Char × List Char) : Prop :=
  ∀ cs b, run (cs ++ '\n' :: b) = ((run cs).1, (run cs).2 ++ '\n' :: b)

/-- Characters of a class are taken off up to a newline, if it is not of the class. -/
theorem span_stops {p : Char → Bool} (hp : p '\n' = false) : StopsAtNewline (List.span p) := by
  intro cs b
  simp only [List.span_eq_takeWhile_dropWhile]
  induction cs with
  | nil => simp [hp]
  | cons c cs ih =>
    cases hc : p c with
    | true => simpa [hc] using ih
    | false => simp [hc]

/-- The fraction of a number ends before a newline. -/
theorem fractionRun_stops : StopsAtNewline fractionRun := by
  have hspan := span_stops (p := Char.isDigit) (by decide)
  rintro (_ | ⟨c, _ | ⟨d, r⟩⟩) b
  · rfl
  · by_cases hc : c = '.'
    · subst hc
      rfl
    · simp only [List.cons_append, List.nil_append]
      rw [fractionRun, fractionRun] <;> simp [hc]
  · by_cases hc : c = '.'
    · subst hc
      simp only [List.cons_append, fractionRun]
      rw [show d :: (r ++ '\n' :: b) = (d :: r) ++ '\n' :: b from rfl, hspan (d :: r) b]
      split <;> rfl
    · simp only [List.cons_append]
      rw [fractionRun, fractionRun] <;> simp [hc]

theorem exponentRun_stops : StopsAtNewline exponentRun := by
  have hspan := span_stops (p := Char.isDigit) (by decide)
  have hdigit : Char.isDigit '\n' = false := by decide
  rintro (_ | ⟨e, _ | ⟨s, _ | ⟨d, r⟩⟩⟩) b
  · rcases b with _ | ⟨x, _ | ⟨y, b⟩⟩ <;> rfl
  · cases b with
    | nil => simp [exponentRun, hdigit]
    | cons x b => simp [exponentRun, hdigit]
  · cases hs : s.isDigit <;> simp [exponentRun, hs, hdigit, List.span_eq_takeWhile_dropWhile]
    split <;> rfl
  · simp only [List.cons_append, exponentRun]
    rw [show s :: d :: (r ++ '\n' :: b) = (s :: d :: r) ++ '\n' :: b from rfl,
      show d :: (r ++ '\n' :: b) = (d :: r) ++ '\n' :: b from rfl, hspan, hspan]
    split
    · split
      · rfl
      · split <;> rfl
    · rfl

theorem numberRun_stops (integerOnly : Bool) : StopsAtNewline (numberRun integerOnly) := by
  intro cs b
  have hspan := span_stops (p := Char.isDigit) (by decide) cs b
  cases integerOnly with
  | true => exact hspan
  | false =>
    simp only [numberRun, hspan, fractionRun_stops _ b, exponentRun_stops _ b]
    rfl

theorem operatorRun_stops : StopsAtNewline operatorRun := by
  intro cs b
  have hcomment : ∀ {c : Char} {r : List Char}, (∀ r', c = '/' → r = '/' :: r' → False) →
      (∀ r', c = '/' → r = '*' :: r' → False) →
        (∀ r', c = '/' → r ++ '\n' :: b = '/' :: r' → False) ∧
          ∀ r', c = '/' → r ++ '\n' :: b = '*' :: r' → False := by
    intro c r hline hblock
    cases r with
    | nil => exact ⟨nofun, nofun⟩
    | cons d r =>
      exact ⟨fun r' hc heq => hline r hc (by rw [(List.cons.inj heq).1]),
        fun r' hc heq => hblock r hc (by rw [(List.cons.inj heq).1])⟩
  fun_induction operatorRun cs with
  | case1 | case2 => rfl
  | case3 c r hline hblock hc taken rest heq ih =>
    obtain ⟨hline', hblock'⟩ := hcomment hline hblock
    rw [List.cons_append, operatorRun, if_pos hc, ih, heq]
    exacts [hline', hblock']
  | case4 c r hline hblock hc =>
    obtain ⟨hline', hblock'⟩ := hcomment hline hblock
    rw [List.cons_append, operatorRun, if_neg hc]
    exacts [hline', hblock']
  | case5 => rfl

/-- The lexeme in a text that goes on with `tail`. -/
def Lexeme.extend (tail : List Char) : Lexeme → Lexeme
  | .token kind taken rest => .token kind taken (rest ++ tail)
  | .skipped => .skipped
  | .stray => .stray

/-- **A newline behind a text** is part of no token in front of it. -/
theorem lexeme_append (last : Option TokenKind) (c : Char) (r b : List Char) :
    lexeme last c (r ++ '\n' :: b) = (lexeme last c r).extend ('\n' :: b) := by
  have hname := span_stops (p := isNameChar) (by decide) (c :: r) b
  have hhead : (r ++ '\n' :: b).head?.any Char.isDigit = r.head?.any Char.isDigit := by
    cases r <;> rfl
  rw [lexeme.eq_def, lexeme.eq_def, hhead]
  split
  · split <;> rfl
  split
  · rw [show c :: (r ++ '\n' :: b) = (c :: r) ++ '\n' :: b from rfl, hname]
    rfl
  split
  · rw [show c :: (r ++ '\n' :: b) = (c :: r) ++ '\n' :: b from rfl, numberRun_stops _ (c :: r) b]
    rfl
  split
  · rw [numberRun_stops _ r b]
    rfl
  rw [operatorRun_stops r b]
  cases symbol? c with
  | some kind => rfl
  | none =>
    rw [Option.elim_none, Option.elim_none]
    split <;> rfl

/-- Behind a newline all is as at the start of a text. -/
theorem lexeme_newline (c : Char) (r : List Char) :
    lexeme (some .newline) c r = lexeme none c r := rfl

/-- Behind all other tokens a newline makes a token. -/
theorem lexeme_newline_behind {kind : TokenKind} (hkind : kind ≠ .newline) (r : List Char) :
    lexeme (some kind) '\n' r = .token .newline ['\n'] r := by
  rw [lexeme.eq_def, if_pos rfl]
  split
  · contradiction
  · rename_i heq
    exact absurd (Option.some.inj heq) hkind
  · rfl

/-! ### In front of other text

A state with more text behind it takes the same steps, as long as there are no errors. -/

namespace State

/-- The state in a text that goes on with `tail`. -/
def extend (tail : List Char) (s : State) : State := { s with rest := s.rest ++ tail }

/-- A step of the lexer forgets no error. -/
theorem errors_step {s s' : State} (h : s.step = some s') : s.errors <:+ s'.errors := by
  have hcontent : s.errors <:+ s.content.errors := List.suffix_append _ _
  cases round_of_step h with
  | quote _ _ | interpolation _ _ => exact hcontent
  | unterminated _ _ => exact hcontent.trans (List.suffix_cons _ _)
  | token _ _ _ | skipped _ _ _ => exact List.suffix_refl _
  | stray _ _ _ => exact List.suffix_cons _ _

/-- A state without errors was reached without errors. -/
theorem errors_eq_nil {s s' : State} (h : s.step = some s') (hs' : s'.errors = []) : s.errors = [] :=
  List.suffix_nil.mp (hs' ▸ errors_step h)

/-- To take a token off leaves more text behind. -/
theorem take_extend (s : State) (c : Char) (r tail : List Char) (lexeme : Lexeme) :
    (s.extend tail).take c (r ++ tail) (lexeme.extend tail) = (s.take c r lexeme).extend tail := by
  cases lexeme <;> rfl

/-- Content without errors, or the end of a string, is the same with more text behind. -/
theorem stringPart_extend {s : State} {openedAt : Nat} (tail : List Char)
    (herrors : (s.stringPart openedAt).errors = []) :
    (s.extend tail).stringPart openedAt = (s.stringPart openedAt).extend tail := by
  have hcontent : s.content.rest ≠ [] → (s.extend tail).content = s.content.extend tail := by
    intro hrest
    have hchunk : chunk s.offset (s.rest ++ tail) = _ := chunk_append tail s.offset s.rest hrest
    simp only [content, extend, hchunk]
  rw [stringPart_eq] at herrors ⊢
  rw [stringPart_eq]
  obtain hrest | ⟨r, hrest⟩ | ⟨r, hrest⟩ := chunk_rest s.offset s.rest
  · rw [show s.content.rest = [] from hrest] at herrors
    cases herrors
  · have hquote : s.content.rest = '"' :: r := hrest
    rw [hcontent (by rw [hquote]; exact List.cons_ne_nil _ _), extend, hquote]
    rfl
  · have hmark : s.content.rest = '$' :: '\x7b' :: r := hrest
    rw [hcontent (by rw [hmark]; exact List.cons_ne_nil _ _), extend, hmark]
    rfl

/-- **A step that finds no error** is the same step in front of a newline. -/
theorem step_extend {s s' : State} (b : List Char) (h : s.step = some s') (herrors : s'.errors = []) :
    (s.extend ('\n' :: b)).step = some (s'.extend ('\n' :: b)) := by
  have hmode : (s.extend ('\n' :: b)).mode = s.mode := rfl
  rw [step] at h ⊢
  rw [hmode]
  split at h
  · cases h
    rw [stringPart_extend _ herrors]
  -- outside of strings there is a character left, so the gap ends before the end of the text
  · split at h
    · cases h
    · rename_i c r hrest
      cases h
      have hskip : skip (s.mode == .statements) .plain s.offset (s.rest ++ '\n' :: b) = _ :=
        skip_append b _ .plain s.offset s.rest (.inl (by
          rw [show (skip (s.mode == .statements) .plain s.offset s.rest).2 = c :: r from hrest]
          exact List.cons_ne_nil _ _))
      have hgap : (s.extend ('\n' :: b)).skipGap = s.skipGap.extend ('\n' :: b) := by
        rw [skipGap, hmode]
        simp only [extend, hskip]
        rfl
      have hrest' : (s.extend ('\n' :: b)).skipGap.rest = c :: (r ++ '\n' :: b) := by
        rw [hgap, extend, hrest]
        rfl
      -- and what is taken off there does not reach the newline
      rw [hrest', hgap]
      show some ((s.skipGap.extend ('\n' :: b)).take c (r ++ '\n' :: b)
        (lexeme s.lastKind c (r ++ '\n' :: b))) = _
      rw [lexeme_append, take_extend]

theorem Reaches.extend {s t : State} (b : List Char) (h : Reaches s t) (herrors : t.errors = []) :
    Reaches (s.extend ('\n' :: b)) (t.extend ('\n' :: b)) ∧ s.errors = [] := by
  induction h with
  | refl s => exact ⟨.refl _, herrors⟩
  | step hs _ ih =>
    obtain ⟨hreaches, hnone⟩ := ih herrors
    exact ⟨.step (step_extend b hs hnone) hreaches, errors_eq_nil hs hnone⟩

/-! ### Behind other text

A state with more text in front of it takes the same steps, moved. -/

end State

/-- The mode in a text that stands `n` bytes further on. -/
def Mode.shift (n : Nat) : Mode → Mode
  | .string openedAt => .string (openedAt + n)
  | .statements => .statements
  | .inline => .inline
  | .interpolation => .interpolation

/-- A delimiter is opened where its token stands. -/
theorem nest_shift (n : Nat) (kind : TokenKind) (offset : Nat) (modes : List Mode) :
    nest kind (offset + n) (modes.map (Mode.shift n)) = (nest kind offset modes).map (Mode.shift n) := by
  cases kind <;> simp [nest, Mode.shift, List.map_tail]

namespace State

/-- The state in a text that stands behind `n` bytes of other text, in which `before` was found. -/
def behind (n : Nat) (before : List Token) (s : State) : State :=
  ⟨s.offset + n, s.rest, s.modes.map (Mode.shift n),
    s.tokens.map (Token.relocate (· + n)) ++ before, s.errors.map (LexicalError.relocate (· + n))⟩

section
variable {n : Nat} {before : List Token}

theorem mode_behind (s : State) : (s.behind n before).mode = s.mode.shift n := by
  rw [mode, mode, behind]
  cases s.modes <;> rfl

/-- Behind nothing or a newline, tokens are found as at the start of a text. -/
theorem lexeme_behind (hbefore : ∀ t ∈ before.head?, t.kind = .newline) (s : State) (c : Char)
    (r : List Char) : lexeme (s.behind n before).lastKind c r = lexeme s.lastKind c r := by
  rw [lastKind, lastKind, behind]
  cases s.tokens with
  | cons t ts => rfl
  | nil =>
    cases before with
    | nil => rfl
    | cons t ts =>
      have hkind : t.kind = .newline := hbefore t rfl
      simp only [List.map_nil, List.nil_append, List.head?_cons, Option.map_some, hkind]
      exact lexeme_newline c r

theorem pass_behind (s : State) (kind : TokenKind) (taken rest : List Char) :
    (s.behind n before).pass kind taken rest = (s.pass kind taken rest).behind n before := by
  simp only [pass, behind, emit, nest_shift, List.map_cons, List.cons_append, Token.relocate,
    Span.relocate, Nat.add_right_comm]

theorem drop_behind (s : State) (c : Char) (r : List Char) :
    (s.behind n before).drop c r = (s.drop c r).behind n before := by
  simp only [drop, behind, Nat.add_right_comm]

theorem report_behind (s : State) (cause : LexicalCause) (span : Span) :
    (s.behind n before).report cause (span.relocate (· + n)) = (s.report cause span).behind n before :=
  rfl

theorem skipGap_behind (s : State) : (s.behind n before).skipGap = s.skipGap.behind n before := by
  have hmode : ((s.behind n before).mode == .statements) = (s.mode == .statements) := by
    rw [mode_behind]
    cases s.mode <;> rfl
  rw [skipGap, hmode]
  simp only [behind, skip_add n, skipGap]

theorem content_behind (s : State) : (s.behind n before).content = s.content.behind n before := by
  have hsame : ∀ k : Nat, k + n = s.offset + n ↔ k = s.offset := fun k => by omega
  simp only [content, behind, chunk_add n, Chunk.shift, hsame]
  split <;> simp [Token.relocate, Span.relocate]

theorem take_behind (s : State) (c : Char) (r : List Char) (lexeme : Lexeme) :
    (s.behind n before).take c r lexeme = (s.take c r lexeme).behind n before := by
  cases lexeme with
  | token kind taken rest => exact pass_behind s kind taken rest
  | skipped => exact drop_behind s c r
  | stray =>
    rw [take, take, drop_behind, ← report_behind]
    simp only [behind, Span.relocate, Nat.add_right_comm]

theorem stringPart_behind (s : State) (openedAt : Nat) :
    (s.behind n before).stringPart (openedAt + n) = (s.stringPart openedAt).behind n before := by
  rw [stringPart_eq, stringPart_eq, content_behind]
  rw [show (s.content.behind n before).rest = s.content.rest from rfl]
  split
  · exact pass_behind _ _ _ _
  · exact pass_behind _ _ _ _
  · simp only [report, pop, behind, List.map_tail, List.map_cons, LexicalError.relocate, Span.relocate]

/-- **A step behind other text** is the step moved. -/
theorem step_behind (hbefore : ∀ t ∈ before.head?, t.kind = .newline) (s : State) :
    (s.behind n before).step = s.step.map (behind n before) := by
  rw [step, step, mode_behind, skipGap_behind]
  cases hmode : s.mode with
  | string openedAt => exact congrArg some (stringPart_behind s openedAt)
  | statements | inline | interpolation =>
    rw [show (s.skipGap.behind n before).rest = s.skipGap.rest from rfl]
    cases s.skipGap.rest with
    | nil => rfl
    | cons c r =>
      simp only [Mode.shift, Option.map_some, lexeme_behind hbefore, take_behind]

theorem Reaches.behind (hbefore : ∀ t ∈ before.head?, t.kind = .newline) {s t : State}
    (h : Reaches s t) : Reaches (s.behind n before) (t.behind n before) := by
  induction h with
  | refl s => exact .refl _
  | step hs _ ih => exact .step (by rw [step_behind hbefore, hs]; rfl) ih

theorem finish_behind (s : State) : (s.behind n before).finish = s.finish.behind n before := by
  have hmodes : (s.behind n before).modes.contains .interpolation =
      s.modes.contains .interpolation := by
    rw [behind]
    induction s.modes with
    | nil => rfl
    | cons mode modes ih =>
      rw [List.map_cons, List.contains_cons, List.contains_cons, ih]
      cases mode <;> rfl
  rw [finish, finish, hmodes]
  split
  · simp only [emit, report, behind, List.map_cons, List.cons_append, Token.relocate, Span.relocate,
      Text.byteLength, Nat.add_zero]
    rfl
  · simp only [emit, behind, List.map_cons, List.cons_append, Token.relocate, Span.relocate,
      Text.byteLength, Nat.add_zero]

end

end State

end Lexer

/-! ### Open delimiters

How many delimiters are open is counted by the modes, and can be read off the kinds of the tokens. -/

/-- How many delimiters are open behind a token of a kind, where `opened` are in front of it. -/
def TokenKind.nesting (kind : TokenKind) (opened : Nat) : Nat :=
  match kind with
  | .stringStart | .interpolationStart | .leftParen | .leftBracket | .leftBrace => opened + 1
  | .rightParen | .rightBracket | .rightBrace | .stringEnd => opened - 1
  | _ => opened

/-- How many delimiters are open behind tokens. -/
def Token.nesting (ts : List Token) (opened : Nat) : Nat :=
  ts.foldl (fun opened t => t.kind.nesting opened) opened

namespace Lexer

/-- A token opens and closes as many delimiters as its kind says. -/
theorem length_nest (kind : TokenKind) (offset : Nat) (modes : List Mode) :
    (nest kind offset modes).length = kind.nesting modes.length := by
  cases kind <;> simp [nest, TokenKind.nesting]

namespace State

/-- As long as there is no error, there is a mode for every delimiter that is open. -/
def Nested (s : State) : Prop := s.errors = [] → s.modes.length = Token.nesting s.tokens.reverse 0

theorem nesting_pass {s : State} (h : s.modes.length = Token.nesting s.tokens.reverse 0)
    (kind : TokenKind) (taken rest : List Char) : (s.pass kind taken rest).modes.length =
      Token.nesting (s.pass kind taken rest).tokens.reverse 0 := by
  show (nest kind s.offset s.modes).length = Token.nesting (_ :: s.tokens).reverse 0
  rw [length_nest, h, Token.nesting, Token.nesting, List.reverse_cons, List.foldl_append]
  rfl

theorem Nested.step {s s' : State} (h : s.Nested) (hs : s.step = some s') : s'.Nested := by
  intro herrors
  have hs₀ := h (errors_eq_nil hs herrors)
  have hcontent : s.content.modes.length = Token.nesting s.content.tokens.reverse 0 := by
    show s.modes.length = Token.nesting (if _ then s.tokens else _ :: s.tokens).reverse 0
    split
    · exact hs₀
    · rw [hs₀, Token.nesting, Token.nesting, List.reverse_cons, List.foldl_append]
      rfl
  have hgap : s.skipGap.modes.length = Token.nesting s.skipGap.tokens.reverse 0 := hs₀
  cases round_of_step hs with
  | quote _ _ | interpolation _ _ => exact nesting_pass hcontent _ _ _
  | unterminated _ _ | stray _ _ _ => cases herrors
  | token _ _ _ => exact nesting_pass hgap _ _ _
  | skipped _ _ _ => exact hgap

/-! ### The end of a text

Where the first text ends outside of all delimiters and of comments, the newline behind it takes the lexer to
the start of the second text. -/

/-- Takes all steps, at most `fuel` of them. -/
def exhaust : Nat → State → State
  | 0, s => s
  | fuel + 1, s =>
    match s.step with
    | some s' => exhaust fuel s'
    | none => s

/-- With fuel enough, a run is the steps up to a state without one. -/
theorem exhaust_of_reaches {s t : State} (h : Reaches s t) (hend : t.step = none) :
    ∀ {fuel : Nat}, s.left < fuel → exhaust fuel s = t := by
  induction h with
  | refl s =>
    intro fuel hfuel
    obtain ⟨fuel, rfl⟩ := Nat.exists_eq_succ_of_ne_zero (Nat.ne_zero_of_lt hfuel)
    rw [Nat.succ_eq_add_one, exhaust, hend]
  | step hs _ ih =>
    intro fuel hfuel
    obtain ⟨fuel, rfl⟩ := Nat.exists_eq_succ_of_ne_zero (Nat.ne_zero_of_lt hfuel)
    rw [Nat.succ_eq_add_one, exhaust, hs]
    exact ih hend (Nat.lt_of_lt_of_le (left_step hs) (Nat.le_of_lt_succ hfuel))

end State

end Lexer

/-- Whether the text ends inside of a block comment that is not closed. -/
def Token.endsInComment (text : String) : Bool :=
  let last := Lexer.State.exhaust (2 * text.toList.length + 2) (.start text.toList)
  (Lexer.Gap.plain.atEnd last.rest).isBlock

namespace Lexer.State

/-- At the end of a text outside of all delimiters and block comments, the newline that follows is scanned
next. -/
theorem step_extend_end {t : State} (b : List Char) (hend : t.step = none) (hmodes : t.modes = [])
    (hgap : (Gap.plain.atEnd t.rest).isBlock = false) :
    (t.extend ('\n' :: b)).step =
      some ((t.skipGap.extend ('\n' :: b)).take '\n' b (lexeme t.lastKind '\n' b)) := by
  have hmode : t.mode = .statements := by rw [mode, hmodes]; rfl
  -- outside of all delimiters the lexer stops where only a gap is left
  have hrest : t.skipGap.rest = [] := by
    rw [step, hmode] at hend
    dsimp only at hend
    split at hend
    · assumption
    · cases hend
  have hskip : skip true .plain t.offset (t.rest ++ '\n' :: b) = _ :=
    skip_append b true .plain t.offset t.rest (.inr ⟨rfl, hgap⟩)
  have hextend : (t.extend ('\n' :: b)).skipGap = t.skipGap.extend ('\n' :: b) := by
    have hstatements : ((t.extend ('\n' :: b)).mode == .statements) = true := by
      show (t.mode == .statements) = true
      rw [hmode]
      rfl
    have hstatements' : (t.mode == .statements) = true := hstatements
    rw [skipGap, skipGap, hstatements, hstatements']
    simp only [extend, hskip]
  have hrest' : (t.extend ('\n' :: b)).skipGap.rest = '\n' :: b := by
    rw [hextend, extend, hrest, List.nil_append]
  rw [step, show (t.extend ('\n' :: b)).mode = .statements from hmode, hrest', hextend]
  rfl

/-- The tokens `before` of a text in front of a newline, the newline included, if it makes a token, are the
tokens `ts` of the text but for a newline at the end. -/
inductive Lined (ts : List Token) : List Token → Prop where
  | empty (hts : ts = []) : Lined ts []
  | line {x : List Token} {newline : Token} (hnewline : newline.kind = .newline)
      (hts : ts = x ∨ ts = x ++ [newline]) : Lined ts (x ++ [newline])

/-- No token is left out of a line that was found in the text. -/
theorem Lined.length_le {ts before : List Token} (h : Lined ts before) : ts.length ≤ before.length := by
  cases h with
  | empty hts => rw [hts]
  | line _ hts => rcases hts with rfl | rfl <;> simp

/-- The newline behind a text leads to where the next text starts. -/
theorem take_newline {t : State} (b : List Char) (hrest : t.rest = []) (hmodes : t.modes = [])
    (herrors : t.errors = []) : ∃ before, Lined t.tokens.reverse before.reverse ∧
      (∀ u ∈ before.head?, u.kind = .newline) ∧
        (t.extend ('\n' :: b)).take '\n' b (lexeme t.lastKind '\n' b) =
          (start b).behind (t.offset + 1) before := by
  rcases t with ⟨offset, rest, modes, tokens, errors⟩
  cases hrest
  cases hmodes
  cases herrors
  -- wherever the newline leads, the state is the start of `b` behind what was found
  have hstart : ∀ before : List Token,
      (start b).behind (offset + 1) before = ⟨offset + 1, b, [], before, []⟩ := fun before => by
    rw [behind, start, Nat.zero_add]
    rfl
  cases tokens with
  | nil => exact ⟨[], .empty rfl, nofun, (hstart []).symm⟩
  | cons u us =>
    have hlast : lastKind ⟨offset, [], [], u :: us, []⟩ = some u.kind := rfl
    by_cases hkind : u.kind = .newline
    · refine ⟨u :: us, ?_, fun v hv => by cases hv; exact hkind, ?_⟩
      · rw [List.reverse_cons]
        exact .line hkind (.inr rfl)
      · rw [hlast, hkind, hstart]
        rfl
    · let newline : Token := ⟨.newline, String.ofList ['\n'], ⟨offset, offset + 1⟩⟩
      have hlined : Lined (u :: us).reverse ((u :: us).reverse ++ [newline]) := .line rfl (.inl rfl)
      refine ⟨newline :: u :: us, ?_, fun v hv => by cases hv; rfl, ?_⟩
      · rwa [show (newline :: u :: us).reverse = (u :: us).reverse ++ [newline] from List.reverse_cons]
      · rw [hlast, lexeme_newline_behind hkind, hstart]
        rfl

/-- A lexer that cannot go on has only a gap left. -/
theorem rest_of_step_eq_none {t : State} (h : t.step = none) : t.skipGap.rest = [] := by
  rw [step] at h
  split at h
  · cases h
  · split at h
    · assumption
    · cases h

/-- The end of a text without errors. -/
theorem finish_eq_of_errors {s : State} (h : s.finish.errors = []) :
    s.finish.tokens = ⟨.eof, "", ⟨s.offset, s.offset⟩⟩ :: s.tokens ∧ s.errors = [] := by
  rw [finish] at h ⊢
  split at h
  · cases h
  · rename_i hnot
    rw [if_neg hnot]
    exact ⟨rfl, h⟩

end Lexer.State

/-- **The tokens of two texts with a newline between them**, where the first has no errors and ends outside of
all delimiters and block comments: its tokens, but for the end, with the newline behind them unless they
are none or end with one already, and then the tokens and errors of the second text, moved. -/
theorem Token.ofText_join {a : String} (herrors : (ofText a).errors = [])
    (hnesting : nesting (ofText a).tokens 0 = 0) (hcomment : endsInComment a = false) (b : String) :
    ∃ ts eof before, (ofText a).tokens = ts ++ [eof] ∧ eof.kind = .eof ∧
      Lexer.State.Lined ts before ∧
      (ofText (a ++ "\n" ++ b)).tokens =
        before ++ (ofText b).tokens.map (Token.relocate (· + (a.utf8ByteSize + 1))) ∧
      (ofText (a ++ "\n" ++ b)).errors =
        (ofText b).errors.map (LexicalError.relocate (· + (a.utf8ByteSize + 1))) := by
  obtain ⟨t, hreaches, hend⟩ := Lexer.State.exists_reaches (.start a.toList)
  obtain ⟨u, hreachesb, hendb⟩ := Lexer.State.exists_reaches (.start b.toList)
  rw [ofText_of_reaches hreaches hend] at herrors hnesting ⊢
  rw [ofText_of_reaches hreachesb hendb]
  have hlast : Lexer.State.exhaust (2 * a.toList.length + 2) (.start a.toList) = t :=
    Lexer.State.exhaust_of_reaches hreaches hend (by
      show 2 * a.toList.length + 0 < _
      omega)
  rw [endsInComment, hlast] at hcomment
  obtain ⟨htokens, herrors⟩ := Lexer.State.finish_eq_of_errors (List.reverse_eq_nil_iff.mp herrors)
  -- the lexer is where it started: no mode is left, and it stands behind all bytes of `a`
  have hmodes : t.modes = [] := by
    have hnested : t.Nested :=
      hreaches.invariant (fun _ _ => Lexer.State.Nested.step) fun _ => rfl
    rw [htokens, List.reverse_cons, nesting, List.foldl_append] at hnesting
    exact List.length_eq_zero_iff.mp ((hnested herrors).trans hnesting)
  have hrest : t.skipGap.rest = [] := Lexer.State.rest_of_step_eq_none hend
  have hoffset : t.skipGap.offset = a.utf8ByteSize := by
    have hstart : (Lexer.State.start a.toList).Stands a.toList := ⟨.refl _ _, List.forall_mem_nil _⟩
    have hstands := hreaches.invariant (fun _ _ hs hstep => Lexer.State.Stands.step hs hstep) hstart
    obtain ⟨passed, hpassed, hbytes⟩ := hstands.place.trans t.skipGap_passes
    rw [hrest, List.append_nil] at hpassed
    rw [hbytes, Nat.zero_add, ← hpassed, Text.utf8ByteSize_eq]
  obtain ⟨before, hlined, hquiet, hnewline⟩ :=
    Lexer.State.take_newline (t := t.skipGap) b.toList hrest hmodes herrors
  refine ⟨t.tokens.reverse, _, before.reverse, by rw [htokens, List.reverse_cons]; rfl, rfl, hlined, ?_⟩
  -- so the steps of the whole are those of `a`, the newline, and those of `b` further on
  have hjoined : Lexer.State.Reaches (.start (a ++ "\n" ++ b).toList)
      (u.behind (a.utf8ByteSize + 1) before) := by
    have hchars : (a ++ "\n" ++ b).toList = a.toList ++ '\n' :: b.toList := by simp
    have hfront := (hreaches.extend b.toList herrors).1
    have hstep := Lexer.State.step_extend_end b.toList hend hmodes hcomment
    rw [show t.lastKind = t.skipGap.lastKind from rfl, hnewline, hoffset] at hstep
    rw [hchars]
    exact hfront.trans (.step hstep (hreachesb.behind hquiet))
  have hendjoined : (u.behind (a.utf8ByteSize + 1) before).step = none := by
    rw [Lexer.State.step_behind hquiet, hendb]
    rfl
  rw [ofText_of_reaches hjoined hendjoined, Lexer.State.skipGap_behind, Lexer.State.finish_behind]
  simp [Lexer.State.behind]

end Protean
