import Protean.Proofs.Expr.Shape

/-!
# Proofs — Token — lexing piece by piece

`Lexes modes last cs ts modes' cs'` says that the lexer, inside of the delimiters `modes` and behind a
token of kind `last`, passes from the characters `cs` on to `cs'`, finds the tokens `ts` on the way and
no error, and is then inside of `modes'`.  Pieces are put together by `Lexes.append`, and a blank in
front of a piece makes no difference (`Lexes.blank`).

There is a lemma for each sort of token: it is found in a text as soon as the text does not go on with
something that would belong to it.

* `Lexer.after`: the kind of the last token, which decides whether a minus is part of a number.
* `Lexer.Outside`: delimiters whose innermost one is no string.
* `lexes_identifier`, `lexes_operator`, `lexes_number`, `lexes_quote`, …: the sorts of tokens.
-/

namespace Protean

/-- What a token says, without where it stands. -/
abbrev Shape := TokenKind × String

/-- The kind and the text of a token, without its span. -/
def Token.shape (t : Token) : Shape := (t.kind, t.lexeme)

namespace Lexer

open Token

/-! ### Pieces of a text

The relation, how pieces are put together, and the round of the lexer that finds one token outside of strings. -/

/-- The shapes of the tokens found so far, the last one first. -/
def State.shapes (s : State) : List Shape := s.tokens.map Token.shape

/-- The kind of the last token, when `ts` were found behind one of kind `last`. -/
def after (last : Option TokenKind) (ts : List Shape) : Option TokenKind :=
  ts.foldl (fun _ t => some t.1) last

/-- No tokens leave the last one as it was. -/
@[simp] theorem after_nil (last : Option TokenKind) : after last [] = last := rfl

/-- The first of several tokens is the last one for the next. -/
@[simp] theorem after_cons (last : Option TokenKind) (t : Shape) (ts : List Shape) :
    after last (t :: ts) = after (some t.1) ts := rfl

@[simp] theorem after_append (last : Option TokenKind) (ts us : List Shape) :
    after last (ts ++ us) = after (after last ts) us :=
  List.foldl_append

/-- The lexer passes from `cs` to `cs'`, finding the tokens `ts` and no error; it needs no more rounds
than it passes characters. -/
def Lexes (modes : List Mode) (last : Option TokenKind) (cs : List Char) (ts : List Shape)
    (modes' : List Mode) (cs' : List Char) : Prop :=
  ∀ s : State, s.modes = modes → s.lastKind = last → s.rest = cs →
    ∃ n s', n + cs'.length ≤ cs.length ∧
      (∀ fuel, State.run (n + fuel + 1) s = State.run (fuel + 1) s') ∧
        s'.modes = modes' ∧ s'.rest = cs' ∧ s'.errors = s.errors ∧
          s'.shapes = ts.reverse ++ s.shapes

/-- The kind of the last token can be read off the shapes. -/
theorem State.lastKind_of_shapes {s s' : State} {ts : List Shape}
    (h : s'.shapes = ts.reverse ++ s.shapes) : s'.lastKind = after s.lastKind ts := by
  have hlast : ∀ s : State, s.lastKind = s.shapes.head?.map Prod.fst := by
    intro s
    rw [lastKind, shapes, List.head?_map, Option.map_map]
    rfl
  have hafter : ∀ us : List Shape,
      (ts.reverse ++ us).head?.map Prod.fst = after (us.head?.map Prod.fst) ts := by
    clear h
    induction ts with
    | nil => exact fun _ => rfl
    | cons t ts ih => intro us; simpa using ih (t :: us)
  rw [hlast s', h, hlast s, hafter]

/-- Whether newlines separate statements inside of `modes`. -/
def separating (modes : List Mode) : Bool := modes.headD .statements == .statements

/-- Outside of strings. -/
def Outside (modes : List Mode) : Prop := ∀ openedAt, modes.headD .statements ≠ .string openedAt

/-- Inside of parentheses and brackets the lexer is outside of strings. -/
theorem outside_inline (modes : List Mode) : Outside (.inline :: modes) := nofun

theorem outside_statements (modes : List Mode) : Outside (.statements :: modes) := nofun

theorem outside_nil : Outside [] := nofun

/-- One round of the lexer outside of strings: it skips a gap, and then scans or finishes. -/
theorem State.run_outside {s : State} (ho : Outside s.modes) (fuel : Nat) :
    State.run (fuel + 1) s =
      match s.skipGap.rest with
      | [] => s.skipGap.finish
      | c :: r => State.run fuel (s.skipGap.scan c r) := by
  rw [State.run]
  split
  · rename_i openedAt heq
    exact absurd heq (ho openedAt)
  · rfl

/-- Outside of comments a gap goes on with blanks. -/
theorem skip_plain (statements : Bool) (offset : Nat) {c : Char} {r : List Char}
    (hc : startsComment (c :: r) = false) : skip statements .plain offset (c :: r) =
      if Text.isBlank c && !(c == '\n' && statements) then
        skip statements .plain (offset + c.utf8Size) r
      else (offset, c :: r) := by
  obtain ⟨hline, hblock⟩ := startsComment_eq_false.mp hc
  rw [skip.eq_def]
  split
  case h_2 =>
    rename_i heq
    obtain ⟨hc, hr⟩ := List.cons.inj heq
    exact absurd hr (hline _ hc)
  case h_3 =>
    rename_i heq
    obtain ⟨hc, hr⟩ := List.cons.inj heq
    exact absurd hr (hblock _ hc)
  case h_4 =>
    rename_i heq
    obtain ⟨rfl, rfl⟩ := List.cons.inj heq
    rfl
  all_goals simp_all

/-- Where no gap is, the lexer scans. -/
theorem State.run_scan {s : State} {c : Char} {r : List Char} (ho : Outside s.modes)
    (hr : s.rest = c :: r) (hcomment : startsComment (c :: r) = false)
    (hc : Text.isBlank c = false ∨ c = '\n' ∧ separating s.modes = true) (fuel : Nat) :
    State.run (fuel + 1) s = State.run fuel (s.scan c r) := by
  have hstay : (Text.isBlank c && !(c == '\n' && separating s.modes)) = false := by
    rcases hc with hc | ⟨rfl, hc⟩
    · rw [hc, Bool.false_and]
    · rw [hc]
      decide
  have hgap : s.skipGap = s := by
    have hmode : (s.mode == .statements) = separating s.modes := rfl
    rw [skipGap, hmode, hr, skip_plain _ _ hcomment, hstay, ← hr]
    rfl
  rw [run_outside ho, hgap, hr]

theorem skip_blank (statements : Bool) (offset : Nat) (cs : List Char) :
    skip statements .plain offset (' ' :: cs) = skip statements .plain (offset + 1) cs := by
  have hblank : Text.isBlank ' ' = true := by decide
  rw [skip_plain _ _ rfl, hblank]
  rfl

namespace Lexes

variable {modes modes' modes'' : List Mode} {last : Option TokenKind} {cs cs' cs'' r : List Char}
  {ts ts' : List Shape}

theorem nil : Lexes modes last cs [] modes cs := by
  intro s hm _ hr
  exact ⟨0, s, by simp, fun fuel => by rw [Nat.zero_add], hm, hr, rfl, rfl⟩

/-- Pieces of a text one behind the other. -/
theorem append (h : Lexes modes last cs ts modes' cs')
    (h' : Lexes modes' (after last ts) cs' ts' modes'' cs'') :
    Lexes modes last cs (ts ++ ts') modes'' cs'' := by
  intro s hm hl hr
  obtain ⟨n, s₁, hn, hrun, hm₁, hr₁, he₁, hs₁⟩ := h s hm hl hr
  obtain ⟨n', s₂, hn', hrun', hm₂, hr₂, he₂, hs₂⟩ :=
    h' s₁ hm₁ (by rw [State.lastKind_of_shapes hs₁, hl]) hr₁
  refine ⟨n + n', s₂, by omega, fun fuel => ?_, hm₂, hr₂, he₂.trans he₁, ?_⟩
  · rw [Nat.add_assoc n, hrun, hrun']
  · rw [hs₂, hs₁, List.reverse_append, List.append_assoc]

theorem cons {t : Shape} (h : Lexes modes last cs [t] modes' cs')
    (h' : Lexes modes' (some t.1) cs' ts' modes'' cs'') :
    Lexes modes last cs (t :: ts') modes'' cs'' := h.append h'

/-- A blank in front of a piece. -/
theorem blank (ho : Outside modes) (h : Lexes modes last cs ts modes' cs') :
    Lexes modes last (' ' :: cs) ts modes' cs' := by
  intro s hm hl hr
  -- the lexer passes the blank on its way to the next token
  obtain ⟨n, s', hn, hrun, hrest⟩ := h { s with offset := s.offset + 1, rest := cs } hm hl rfl
  refine ⟨n, s', by rw [List.length_cons]; omega, fun fuel => ?_, hrest⟩
  rw [← hrun]
  have hskip : s.skipGap = State.skipGap { s with offset := s.offset + 1, rest := cs } := by
    simp only [State.skipGap, hr, skip_blank, State.mode]
  rw [State.run_outside (hm ▸ ho), hskip]
  exact (State.run_outside (s := { s with offset := s.offset + 1, rest := cs }) (hm ▸ ho) _).symm

/-- A character that starts a token. -/
theorem scan {c : Char} {t : Shape} (ho : Outside modes) (hcomment : startsComment (c :: r) = false)
    (hc : Text.isBlank c = false ∨ c = '\n' ∧ separating modes = true)
    (hlen : cs'.length ≤ r.length)
    (hscan : ∀ s : State, s.modes = modes → s.lastKind = last →
      (s.scan c r).modes = modes' ∧ (s.scan c r).rest = cs' ∧ (s.scan c r).errors = s.errors ∧
        (s.scan c r).shapes = t :: s.shapes) :
    Lexes modes last (c :: r) [t] modes' cs' := by
  intro s hm hl hr
  refine ⟨1, s.scan c r, by rw [List.length_cons]; omega, fun fuel => ?_, hscan s hm hl⟩
  rw [Nat.add_comm 1, State.run_scan (hm ▸ ho) hr hcomment (hm ▸ hc)]

end Lexes

/-! ### Delimiters and signs

Tokens of one character, which are found whatever follows them. -/

section
variable {modes : List Mode} {mode : Mode} {last : Option TokenKind} {r : List Char}

theorem lexes_leftParen (ho : Outside modes) :
    Lexes modes last ('(' :: r) [(.leftParen, "(")] (.inline :: modes) r :=
  .scan ho rfl (.inl (by decide)) (Nat.le_refl _) fun s hm _ => ⟨congrArg (_ :: ·) hm, rfl, rfl, rfl⟩

theorem lexes_leftBracket (ho : Outside modes) :
    Lexes modes last ('[' :: r) [(.leftBracket, "[")] (.inline :: modes) r :=
  .scan ho rfl (.inl (by decide)) (Nat.le_refl _) fun s hm _ => ⟨congrArg (_ :: ·) hm, rfl, rfl, rfl⟩

theorem lexes_leftBrace (ho : Outside modes) :
    Lexes modes last ('\x7b' :: r) [(.leftBrace, "\x7b")] (.statements :: modes) r :=
  .scan ho rfl (.inl (by decide)) (Nat.le_refl _) fun s hm _ => ⟨congrArg (_ :: ·) hm, rfl, rfl, rfl⟩

theorem lexes_rightParen (ho : Outside (mode :: modes)) :
    Lexes (mode :: modes) last (')' :: r) [(.rightParen, ")")] modes r :=
  .scan ho rfl (.inl (by decide)) (Nat.le_refl _) fun s hm _ => ⟨congrArg List.tail hm, rfl, rfl, rfl⟩

theorem lexes_rightBracket (ho : Outside (mode :: modes)) :
    Lexes (mode :: modes) last (']' :: r) [(.rightBracket, "]")] modes r :=
  .scan ho rfl (.inl (by decide)) (Nat.le_refl _) fun s hm _ => ⟨congrArg List.tail hm, rfl, rfl, rfl⟩

theorem lexes_rightBrace (ho : Outside (mode :: modes)) :
    Lexes (mode :: modes) last ('\x7d' :: r) [(.rightBrace, "\x7d")] modes r :=
  .scan ho rfl (.inl (by decide)) (Nat.le_refl _) fun s hm _ => ⟨congrArg List.tail hm, rfl, rfl, rfl⟩

theorem lexes_comma (ho : Outside modes) :
    Lexes modes last (',' :: r) [(.comma, ",")] modes r :=
  .scan ho rfl (.inl (by decide)) (Nat.le_refl _) fun s hm _ => ⟨hm, rfl, rfl, rfl⟩

theorem lexes_dot (ho : Outside modes) : Lexes modes last ('.' :: r) [(.dot, ".")] modes r :=
  .scan ho rfl (.inl (by decide)) (Nat.le_refl _) fun s hm _ => ⟨hm, rfl, rfl, rfl⟩

/-- A sign of assignment with a blank behind it. -/
theorem lexes_assign (ho : Outside modes) :
    Lexes modes last ('=' :: ' ' :: r) [(.assign, "=")] modes (' ' :: r) :=
  .scan ho rfl (.inl (by decide)) (Nat.le_refl _) fun s hm _ => ⟨hm, rfl, rfl, rfl⟩

/-- A newline that separates statements, behind a token that is no newline. -/
theorem lexes_newline {kind : TokenKind} (ho : Outside modes) (hs : separating modes = true)
    (hkind : kind ≠ .newline) :
    Lexes modes (some kind) ('\n' :: r) [(.newline, "\n")] modes r := by
  refine .scan ho rfl (.inr ⟨rfl, hs⟩) (Nat.le_refl _) fun s hm hl => ?_
  have hscan : s.scan '\n' r = s.emit .newline ['\n'] r := by
    rw [State.scan, if_pos rfl, hl]
    split
    · contradiction
    · rename_i heq
      exact absurd (Option.some.inj heq) hkind
    · rfl
  rw [hscan]
  exact ⟨hm, rfl, rfl, rfl⟩

end

/-! ### Names and operators

Tokens that are as long as possible, so they are found in front of characters that do not go on with them. -/

theorem isBlank_eq_false {c : Char} (hlow : 32 < c.toNat) (hhigh : c.toNat < 127) :
    Text.isBlank c = false := by
  simp only [Text.isBlank, Bool.or_eq_false_iff, Bool.and_eq_false_iff, decide_eq_false_iff_not,
    beq_eq_false_iff_ne]
  omega

/-- Characters of a class are taken off up to one that is not of it. -/
theorem span_append {p : Char → Bool} {cs r : List Char} (hcs : ∀ c ∈ cs, p c = true)
    (hr : ∀ c ∈ r.head?, p c = false) : (cs ++ r).span p = (cs, r) := by
  rw [List.span_eq_takeWhile_dropWhile, List.takeWhile_append_of_pos hcs,
    List.dropWhile_append_of_pos hcs]
  cases r with
  | nil => simp
  | cons c r => simp [hr c rfl]

/-- Names start with a letter, or with a sign next to the letters. -/
theorem isNameStart_range {c : Char} (hc : isNameStart c = true) :
    64 < c.toNat ∧ c.toNat < 123 := by
  rw [isNameStart, Bool.or_eq_true, beq_iff_eq] at hc
  rcases hc with hletter | rfl
  · have hranges : (decide (c.val ≥ 'A'.val ∧ c.val ≤ 'Z'.val) ||
        decide (c.val ≥ 'a'.val) && decide (c.val ≤ 'z'.val)) = true := hletter
    simp only [Bool.or_eq_true, Bool.and_eq_true, decide_eq_true_eq, ge_iff_le,
      UInt32.le_iff_toNat_le] at hranges
    rcases hranges with ⟨hlow, hhigh⟩ | ⟨hlow, hhigh⟩
    · have hlow' : 65 ≤ c.toNat := hlow
      have hhigh' : c.toNat ≤ 90 := hhigh
      omega
    · have hlow' : 97 ≤ c.toNat := hlow
      have hhigh' : c.toNat ≤ 122 := hhigh
      omega
  · decide

theorem isNameStart_spec {c : Char} (hc : isNameStart c = true) :
    c ≠ '\n' ∧ c ≠ '/' ∧ Text.isBlank c = false ∧ isNameChar c = true := by
  have hrange := isNameStart_range hc
  refine ⟨?_, ?_, isBlank_eq_false (by omega) (by omega), ?_⟩
  · rintro rfl
    exact absurd hrange.1 (by decide)
  · rintro rfl
    exact absurd hrange.1 (by decide)
  · simp only [isNameStart, isNameChar, Char.isAlphanum, Bool.or_eq_true] at hc ⊢
    exact hc.imp_left .inl

section
variable {modes : List Mode} {last : Option TokenKind} {r : List Char} {name : String}

/-- A name, in front of something that is no character of names. -/
theorem lexes_identifier (ho : Outside modes) (hname : IsIdentifier name)
    (hr : ∀ c ∈ r.head?, isNameChar c = false) :
    Lexes modes last (name.toList ++ r) [(.identifier, name)] modes r := by
  obtain ⟨c, cs, hchars, hc, hcs⟩ := hname
  obtain ⟨hnewline, hslash, hblank, hchar⟩ := isNameStart_spec hc
  have hspan : (c :: (cs ++ r)).span isNameChar = (c :: cs, r) :=
    span_append (List.forall_mem_cons.mpr ⟨hchar, hcs⟩) hr
  rw [hchars, List.cons_append]
  refine .scan ho ?_ (.inl hblank) (by simp) fun s hm _ => ?_
  · exact startsComment_eq_false.mpr ⟨fun _ h => absurd h hslash, fun _ h => absurd h hslash⟩
  · rw [State.scan, if_neg hnewline, if_pos hc, hspan]
    refine ⟨hm, rfl, rfl, congrArg (fun text => ((TokenKind.identifier, text) : Shape) :: s.shapes) ?_⟩
    rw [← hchars, String.ofList_toList]

/-- Operator characters start nothing else. -/
theorem isOperatorChar_spec : ∀ {c : Char}, isOperatorChar c = true →
    c ≠ '\n' ∧ isNameStart c = false ∧ c.isDigit = false ∧ Text.isBlank c = false ∧ c ≠ '"' ∧
      c ≠ '(' ∧ c ≠ '[' ∧ c ≠ '\x7b' ∧ c ≠ ')' ∧ c ≠ ']' ∧ c ≠ '\x7d' ∧ c ≠ ',' ∧ c ≠ '.' ∧ c ≠ ';' := by
  -- a Boolean check of the list, as no instance for all characters is to be used
  have hall : (['!', '#', '%', '&', '\'', '*', '+', '-', '/', ':', '<', '=', '>', '?', '@', '\\', '^',
      '|', '~'].all fun c => decide (c ≠ '\n' ∧ isNameStart c = false ∧ c.isDigit = false ∧
        Text.isBlank c = false ∧ c ≠ '"' ∧ c ≠ '(' ∧ c ≠ '[' ∧ c ≠ '\x7b' ∧ c ≠ ')' ∧ c ≠ ']' ∧
          c ≠ '\x7d' ∧ c ≠ ',' ∧ c ≠ '.' ∧ c ≠ ';')) = true := by
    decide
  exact fun {c} hc => of_decide_eq_true (List.all_eq_true.mp hall c (List.contains_iff_mem.mp hc))

/-- No comment starts with an operator, or with its end and what is behind it. -/
theorem startsComment_append {c : Char} {cs : List Char} (hfree : commentFree (c :: cs) = true)
    (hr : ∀ d ∈ r.head?, isOperatorChar d = false) : startsComment (c :: (cs ++ r)) = false := by
  rw [commentFree, Bool.and_eq_true, Bool.not_eq_true', startsComment_eq_false] at hfree
  obtain ⟨⟨hline, hblock⟩, -⟩ := hfree
  rw [startsComment_eq_false]
  cases cs with
  | nil =>
    refine ⟨fun r' _ he => ?_, fun r' _ he => ?_⟩
    · exact absurd (hr '/' (by rw [← List.nil_append r, he]; rfl)) (by decide)
    · exact absurd (hr '*' (by rw [← List.nil_append r, he]; rfl)) (by decide)
  | cons d cs =>
    refine ⟨fun r' hc he => hline cs hc ?_, fun r' hc he => hblock cs hc ?_⟩
    · rw [(List.cons.inj he).1]
    · rw [(List.cons.inj he).1]

/-- An operator is taken off as a whole. -/
theorem operatorRun_append {cs : List Char} (hcs : ∀ d ∈ cs, isOperatorChar d = true)
    (hfree : commentFree cs = true) (hr : ∀ d ∈ r.head?, isOperatorChar d = false) :
    operatorRun (cs ++ r) = (cs, r) := by
  induction cs with
  | nil =>
    cases r with
    | nil => rfl
    | cons d r =>
      have hd : isOperatorChar d = false := hr d rfl
      rw [List.nil_append, operatorRun.eq_def]
      split
      · rename_i heq
        rw [heq]
      · rename_i heq
        rw [heq]
      · rename_i heq
        obtain ⟨rfl, rfl⟩ := List.cons.inj heq
        simp only [hd, Bool.false_eq_true, if_false]
      · rename_i heq
        cases heq
  | cons c cs ih =>
    obtain ⟨hc, hcs⟩ := List.forall_mem_cons.mp hcs
    -- the run would end at a comment, but none starts within the operator
    have hstart := startsComment_eq_false.mp (startsComment_append hfree hr)
    rw [commentFree, Bool.and_eq_true] at hfree
    rw [List.cons_append, operatorRun.eq_def]
    split
    · rename_i heq
      obtain ⟨hslash, hrest⟩ := List.cons.inj heq
      exact absurd hrest (hstart.1 _ hslash)
    · rename_i heq
      obtain ⟨hslash, hrest⟩ := List.cons.inj heq
      exact absurd hrest (hstart.2 _ hslash)
    · rename_i heq
      obtain ⟨rfl, rfl⟩ := List.cons.inj heq
      simp only [hc, if_true, ih hcs hfree.2]
    · rename_i heq
      cases heq

/-- An operator, in front of something that is neither an operator character nor a digit. -/
theorem lexes_operator (ho : Outside modes) (hname : IsOperator name)
    (hr : ∀ c ∈ r.head?, isOperatorChar c = false ∧ c.isDigit = false) :
    Lexes modes last (name.toList ++ r) [(.operator, name)] modes r := by
  obtain ⟨c, cs, hchars, hall, hfree, hassign⟩ := hname
  obtain ⟨hc, hcs⟩ := List.forall_mem_cons.mp hall
  -- an operator character is none of those that start another token
  obtain ⟨h₁, h₂, h₃, hblank, h₄, h₅, h₆, h₇, h₈, h₉, h₁₀, h₁₁, h₁₂, h₁₃⟩ := isOperatorChar_spec hc
  have hstop : ∀ d ∈ r.head?, isOperatorChar d = false := fun d hd => (hr d hd).1
  have hfree' : commentFree cs = true := by
    rw [commentFree, Bool.and_eq_true] at hfree
    exact hfree.2
  -- a minus starts a number only in front of a digit
  have hminus : ¬ (c = '-' ∧ (cs ++ r).head?.any Char.isDigit ∧ ¬ last.any TokenKind.endsOperand) := by
    rintro ⟨-, hdigit, -⟩
    cases cs with
    | nil =>
      cases r with
      | nil => cases hdigit
      | cons d r => exact absurd hdigit (by simp [(hr d rfl).2])
    | cons d cs => exact absurd hdigit (by simp [(isOperatorChar_spec (hcs d List.mem_cons_self)).2.2.1])
  rw [hchars, List.cons_append]
  refine .scan ho (startsComment_append hfree hstop) (.inl hblank) (by simp) fun s hm hl => ?_
  subst hl
  -- nor is the operator the sign of assignment
  have hkind : ¬ (c = '=' ∧ cs = []) := fun h => hassign (by rw [h.1, h.2])
  simp only [State.scan, if_neg h₁, h₂, h₃, if_neg hminus, if_neg h₄, if_neg h₅, if_neg h₆, if_neg h₇,
    if_neg h₈, if_neg h₉, if_neg h₁₀, if_neg h₁₁, if_neg h₁₂, if_neg h₁₃, hc, if_true,
    Bool.false_eq_true, if_false, operatorRun_append hcs hfree' hstop, if_neg hkind]
  refine ⟨hm, rfl, rfl, congrArg (fun text => ((TokenKind.operator, text) : Shape) :: s.shapes) ?_⟩
  rw [← hchars, String.ofList_toList]

/-! ### Numbers

A number is found where no operand ends in front of it, or without a minus, and in front of nothing that goes
on with it. -/

theorem isDigit_spec {c : Char} (hc : c.isDigit = true) :
    c ≠ '\n' ∧ isNameStart c = false ∧ Text.isBlank c = false ∧ c ≠ '/' := by
  obtain ⟨hlow, hhigh⟩ : 48 ≤ c.toNat ∧ c.toNat ≤ 57 := by
    simp only [Char.isDigit, Bool.and_eq_true, decide_eq_true_eq] at hc
    exact ⟨UInt32.le_iff_toNat_le.mp hc.1, UInt32.le_iff_toNat_le.mp hc.2⟩
  refine ⟨?_, ?_, isBlank_eq_false (by omega) (by omega), ?_⟩
  · rintro rfl
    exact absurd hlow (by decide)
  · by_contra hname
    obtain ⟨hlow', -⟩ := isNameStart_range (by simpa using hname)
    omega
  · rintro rfl
    exact absurd hlow (by decide)

/-- The text does not go on with anything that belongs to a number. -/
def NumberStops (r : List Char) : Prop :=
  (∀ c ∈ r.head?, c.isDigit = false ∧ c ≠ 'e' ∧ c ≠ 'E') ∧
    ∀ d r', r = '.' :: d :: r' → d.isDigit = false

theorem exponentRun_eq (hr : ∀ c ∈ r.head?, c ≠ 'e' ∧ c ≠ 'E') : exponentRun r = ([], r) := by
  rw [exponentRun.eq_def]
  split
  · rename_i e s d r'
    obtain ⟨h₁, h₂⟩ := hr e rfl
    simp only [h₁, h₂, or_self, if_false]
  · rename_i e d
    obtain ⟨h₁, h₂⟩ := hr e rfl
    simp only [h₁, h₂, or_self, false_and, if_false]
  · rfl

/-- A fraction is taken off as a whole. -/
theorem fractionRun_append {fraction : List Char} (hr : NumberStops r)
    (hf : fraction = [] ∨ ∃ digits, fraction = '.' :: digits ∧ digits ≠ [] ∧
      ∀ c ∈ digits, c.isDigit = true) : fractionRun (fraction ++ r) = (fraction, r) := by
  rcases hf with rfl | ⟨digits, rfl, hne, hdigits⟩
  · rw [List.nil_append, fractionRun.eq_def]
    split
    · rename_i d r'
      simp only [hr.2 d r' rfl, Bool.false_eq_true, if_false]
    · rfl
  · obtain ⟨d, ds, rfl⟩ := List.exists_cons_of_ne_nil hne
    have hspan : (d :: (ds ++ r)).span Char.isDigit = (d :: ds, r) :=
      span_append hdigits fun c hc => (hr.1 c hc).1
    simp only [List.cons_append, fractionRun, hdigits d List.mem_cons_self, if_true, hspan]

theorem numberRun_append {whole fraction : List Char} (hr : NumberStops r)
    (hw : ∀ c ∈ whole, c.isDigit = true)
    (hf : fraction = [] ∨ ∃ digits, fraction = '.' :: digits ∧ digits ≠ [] ∧
      ∀ c ∈ digits, c.isDigit = true) :
    numberRun false (whole ++ (fraction ++ r)) = (whole ++ fraction, r) := by
  have hspan : (whole ++ (fraction ++ r)).span Char.isDigit = (whole, fraction ++ r) := by
    refine span_append hw fun c hc => ?_
    rcases hf with rfl | ⟨digits, rfl, -, -⟩
    · exact (hr.1 c hc).1
    · cases hc
      decide
  simp only [numberRun, hspan, fractionRun_append hr hf, Bool.false_eq_true, if_false,
    exponentRun_eq fun c hc => (hr.1 c hc).2, List.append_nil]

/-- A number where an operand may stand; so a minus sign belongs to it. -/
theorem lexes_number {text : String} (ho : Outside modes) (hdot : last ≠ some .dot)
    (hoperand : last.any TokenKind.endsOperand = false) (htext : Number.IsPlain text.toList)
    (hr : NumberStops r) : Lexes modes last (text.toList ++ r) [(.number, text)] modes r := by
  -- the number is printed as an optional minus, digits and an optional fraction
  obtain ⟨sign, whole, fraction, hchars, hsign, hne, hw, hf⟩ := htext
  obtain ⟨d, ds, rfl⟩ := List.exists_cons_of_ne_nil hne
  have hd := hw d List.mem_cons_self
  obtain ⟨hnewline, hname, hblank, hslash⟩ := isDigit_spec hd
  have hrun := numberRun_append hr hw hf
  have hlexeme : ∀ s : State, ((TokenKind.number, String.ofList (sign ++ (d :: ds ++ fraction))) : Shape)
      :: s.shapes = (.number, text) :: s.shapes := by
    intro s
    rw [← List.append_assoc, ← hchars, String.ofList_toList]
  rw [hchars]
  rcases hsign with rfl | rfl
  -- without a minus it starts with a digit
  · simp only [List.nil_append, List.cons_append, List.append_assoc] at hrun hlexeme ⊢
    refine .scan ho ?_ (.inl hblank) (by simp; omega) fun s hm hl => ?_
    · exact startsComment_eq_false.mpr ⟨fun _ h => absurd h hslash, fun _ h => absurd h hslash⟩
    · have hinteger : (s.lastKind == some .dot) = false := by rw [hl]; exact beq_false_of_ne hdot
      simp only [State.scan, if_neg hnewline, hname, hd, hinteger, hrun, Bool.false_eq_true, if_false,
        if_true]
      exact ⟨hm, rfl, rfl, hlexeme s⟩
  -- a minus in front of a digit is part of the number unless an operand ends before it
  · simp only [List.nil_append, List.cons_append, List.append_assoc] at hrun hlexeme ⊢
    refine .scan ho rfl (.inl (by decide)) (by simp; omega) fun s hm hl => ?_
    have hminus : '-' = '-' ∧ (d :: (ds ++ (fraction ++ r))).head?.any Char.isDigit ∧
        ¬ s.lastKind.any TokenKind.endsOperand := ⟨rfl, hd, by rw [hl, hoperand]; decide⟩
    have hscan : s.scan '-' (d :: (ds ++ (fraction ++ r))) =
        s.emit .number ('-' :: d :: (ds ++ fraction)) r := by
      rw [State.scan, if_neg (by decide), if_neg (by decide), if_neg (by decide), if_pos hminus, hrun]
    rw [hscan]
    exact ⟨hm, rfl, rfl, hlexeme s⟩

/-- An index behind a dot. -/
theorem lexes_index (ho : Outside modes) (n : Nat) (hr : ∀ c ∈ r.head?, c.isDigit = false) :
    Lexes modes (some .dot) ((toString n).toList ++ r) [(.number, toString n)] modes r := by
  have hdigits : ∀ c ∈ (toString n).toList, c.isDigit = true := by
    rw [Nat.toString_eq_repr, Nat.toList_repr]
    exact fun c hc => Nat.isDigit_of_mem_toDigits (by decide) (by decide) hc
  have hne : (toString n).toList ≠ [] := by
    rw [Nat.toString_eq_repr, Nat.toList_repr]
    exact Nat.toDigits_ne_nil
  obtain ⟨d, ds, hchars⟩ := List.exists_cons_of_ne_nil hne
  have hd := hdigits d (hchars ▸ List.mem_cons_self)
  obtain ⟨hnewline, hname, hblank, hslash⟩ := isDigit_spec hd
  have hspan : (d :: (ds ++ r)).span Char.isDigit = (d :: ds, r) := span_append (hchars ▸ hdigits) hr
  rw [hchars, List.cons_append]
  refine .scan ho ?_ (.inl hblank) (by simp) fun s hm hl => ?_
  · exact startsComment_eq_false.mpr ⟨fun _ h => absurd h hslash, fun _ h => absurd h hslash⟩
  · simp only [State.scan, if_neg hnewline, hname, hd, hl, numberRun, hspan, Bool.false_eq_true,
      if_false, if_true, beq_self_eq_true]
    refine ⟨hm, rfl, rfl, congrArg (fun text => ((TokenKind.number, text) : Shape) :: s.shapes) ?_⟩
    rw [← hchars, String.ofList_toList]

/-! ### Strings

The content of a string is the text that was escaped, and its closing quote ends it. -/

/-- The tokens of a string literal; without any text it has no content. -/
def textShapes (text : String) : List Shape :=
  (.stringStart, "\"") :: (if text.toList = [] then [] else [(.stringContent, text)]) ++
    [(.stringEnd, "\"")]

/-- Content is read up to the quote, with its escapes resolved. -/
theorem chunk_escape (cs : List Char) (offset : Nat) :
    (chunk offset (cs.flatMap Text.escapeChar ++ '"' :: r)).text = cs ∧
      (chunk offset (cs.flatMap Text.escapeChar ++ '"' :: r)).errors = [] ∧
        (chunk offset (cs.flatMap Text.escapeChar ++ '"' :: r)).rest = '"' :: r ∧
          offset + cs.length ≤ (chunk offset (cs.flatMap Text.escapeChar ++ '"' :: r)).offset ∧
            (cs = [] → (chunk offset (cs.flatMap Text.escapeChar ++ '"' :: r)).offset = offset) := by
  induction cs generalizing offset with
  | nil => simp [chunk]
  | cons c cs ih =>
    rw [List.flatMap_cons, List.append_assoc]
    -- a character that must be escaped is read back from its escape
    cases hescape : Text.escapeOf c with
    | some d =>
      obtain ⟨htext, herrors, hrest, hoffset, -⟩ := ih (offset + 1 + d.utf8Size)
      have hchunk : ∀ r', chunk offset ('\\' :: d :: r') =
          { chunk (offset + 1 + d.utf8Size) r' with
            text := c :: (chunk (offset + 1 + d.utf8Size) r').text } := by
        intro r'
        simp only [chunk, Text.unescape?_escapeOf hescape]
      simp only [Text.escapeChar, hescape, List.cons_append, List.nil_append, hchunk]
      refine ⟨by rw [htext], herrors, hrest, ?_, nofun⟩
      rw [List.length_cons]
      omega
    -- the others are read as they are, since they start neither an escape nor an interpolation nor the end
    | none =>
      obtain ⟨htext, herrors, hrest, hoffset, -⟩ := ih (offset + c.utf8Size)
      have hchunk : ∀ r', chunk offset (c :: r') =
          { chunk (offset + c.utf8Size) r' with
            text := c :: (chunk (offset + c.utf8Size) r').text } := by
        intro r'
        have hne : c ≠ '"' ∧ c ≠ '$' ∧ c ≠ '\\' := by
          refine ⟨?_, ?_, ?_⟩ <;> rintro rfl <;> cases hescape
        rw [chunk.eq_def]
        split
        case h_6 =>
          rename_i heq
          obtain ⟨rfl, rfl⟩ := List.cons.inj heq
          rfl
        all_goals simp_all
      have hsize := c.utf8Size_pos
      simp only [Text.escapeChar, hescape, List.cons_append, List.nil_append, hchunk]
      refine ⟨by rw [htext], herrors, hrest, ?_, nofun⟩
      rw [List.length_cons]
      omega

/-- An escaped text is one piece of content, in front of its closing quote. -/
theorem stringPart_escape {s : State} (cs : List Char) (openedAt : Nat)
    (hr : s.rest = cs.flatMap Text.escapeChar ++ '"' :: r) :
    (s.stringPart openedAt).modes = s.modes.tail ∧ (s.stringPart openedAt).rest = r ∧
      (s.stringPart openedAt).errors = s.errors ∧ (s.stringPart openedAt).shapes =
        (.stringEnd, "\"") ::
          (if cs = [] then s.shapes else (.stringContent, String.ofList cs) :: s.shapes) := by
  obtain ⟨htext, herrors, hrest, hoffset, hempty⟩ := chunk_escape (r := r) cs s.offset
  rw [← hr] at htext herrors hrest hoffset hempty
  have htokens : (chunk s.offset s.rest).offset = s.offset ↔ cs = [] := by
    refine ⟨fun h => List.eq_nil_of_length_eq_zero (by omega), hempty⟩
  simp only [State.stringPart, htext, herrors, hrest, htokens]
  refine ⟨rfl, rfl, rfl, congrArg (_ :: ·) ?_⟩
  rw [apply_ite (List.map Token.shape)]
  rfl

theorem lexes_quote (ho : Outside modes) (text : String) :
    Lexes modes last ((Text.quote text).toList ++ r) (textShapes text) modes r := by
  have hchars : (Text.quote text).toList ++ r =
      '"' :: (text.toList.flatMap Text.escapeChar ++ '"' :: r) := by
    simp [Text.quote, Text.escape]
  intro s hm hl hr
  rw [hchars] at hr
  obtain ⟨hmodes, hrest, herrors, hshapes⟩ := stringPart_escape (r := r) text.toList s.offset
    (s := s.scan '"' (text.toList.flatMap Text.escapeChar ++ '"' :: r)) rfl
  refine ⟨2, _, ?_, fun fuel => ?_, hmodes.trans hm, hrest, herrors, hshapes.trans ?_⟩
  · rw [hchars]
    simp
    omega
  · rw [show 2 + fuel + 1 = fuel + 1 + 1 + 1 by omega, State.run_scan (hm ▸ ho) hr rfl (.inl (by decide))]
    rfl
  · rw [textShapes, String.ofList_toList]
    split
    · rfl
    · rfl

end

end Lexer

end Protean
