import Mathlib.Data.List.Chain
import Protean.Proofs.Token.Joined

/-!
# Proofs — Token — every byte is accounted for

A text is laid out as tokens with gaps between them.  What a gap may consist of is said by a grammar of its own
(`Lexer.Filler`): blanks, line comments, nested comments, of which one may run to the end of the text, and
characters that an error reports.  `Lexer.Laid` is the layout of a text, a gap and a token at a time.

* Passing over a gap passes over filler (`skip_fills`).
* If the rest of the text is laid out behind a step of the lexer, it is in front of the step (`State.Lays.step`), so
  every text is (`State.Lays.of_reaches`, `Token.ofText_laid`).
* From the layout, where tokens stand is read off one property at a time.
-/

namespace Protean

theorem Text.byteLength_pos {cs : List Char} (h : cs ≠ []) : 0 < byteLength cs := by
  cases cs with
  | nil => exact absurd rfl h
  | cons c cs => exact Nat.add_pos_left c.utf8Size_pos _

namespace Lexer

/-! ### Gaps

What may stand between two tokens, as a grammar of its own.  It does not say what the lexer does, only what
the result looks like. -/

/-- A mark that opens or closes a comment stands in front. -/
def StartsMark (cs : List Char) : Prop := (∃ r, cs = '/' :: '*' :: r) ∨ ∃ r, cs = '*' :: '/' :: r

/-- The line is at its end. -/
def EndsLine (cs : List Char) : Prop := cs = [] ∨ ∃ r, cs = '\n' :: r

/-- What follows the opening mark of a comment up to and including its closing mark: characters and whole
comments. -/
inductive Closing : List Char → Prop where
  | mark : Closing ['*', '/']
  | char {c : Char} {cs : List Char} (hc : ¬ StartsMark (c :: cs)) (h : Closing cs) : Closing (c :: cs)
  | nested {inner cs : List Char} (hi : Closing inner) (h : Closing cs) :
      Closing ('/' :: '*' :: (inner ++ cs))

/-- What follows the opening mark of a comment that is not closed: characters, whole comments, and in the end
perhaps another comment that is not closed. -/
inductive Unclosed : List Char → Prop where
  | nil : Unclosed []
  | char {c : Char} {cs : List Char} (hc : ¬ StartsMark (c :: cs)) (h : Unclosed cs) : Unclosed (c :: cs)
  | nested {inner cs : List Char} (hi : Closing inner) (h : Unclosed cs) :
      Unclosed ('/' :: '*' :: (inner ++ cs))
  | inner {cs : List Char} (h : Unclosed cs) : Unclosed ('/' :: '*' :: cs)

/-- What may stand at `offset` between tokens, with `after` behind it. -/
inductive Filler (errors : List LexicalError) : Nat → List Char → List Char → Prop where
  | nil {offset : Nat} {after : List Char} : Filler errors offset [] after
  | blank {offset : Nat} {c : Char} {cs after : List Char} (hc : Text.isBlank c = true)
      (h : Filler errors (offset + c.utf8Size) cs after) : Filler errors offset (c :: cs) after
  | line {offset : Nat} {line cs after : List Char} (hline : '\n' ∉ line) (hend : EndsLine (cs ++ after))
      (h : Filler errors (offset + 2 + Text.byteLength line) cs after) :
      Filler errors offset ('/' :: '/' :: (line ++ cs)) after
  | comment {offset : Nat} {inner cs after : List Char} (hi : Closing inner)
      (h : Filler errors (offset + 2 + Text.byteLength inner) cs after) :
      Filler errors offset ('/' :: '*' :: (inner ++ cs)) after
  /-- Only at the end of the text. -/
  | unclosed {offset : Nat} {cs : List Char} (hc : Unclosed cs) :
      Filler errors offset ('/' :: '*' :: cs) []
  | stray {offset : Nat} {c : Char} {cs after : List Char}
      (hc : ⟨.unexpectedCharacter c, ⟨offset, offset + c.utf8Size⟩⟩ ∈ errors)
      (h : Filler errors (offset + c.utf8Size) cs after) : Filler errors offset (c :: cs) after

/-- The bytes of a comment are those of its two marks and of what is inside. -/
theorem byteLength_comment {mark : Char} (hmark : mark.utf8Size = 1) (offset : Nat)
    (inner cs : List Char) : offset + Text.byteLength ('/' :: mark :: (inner ++ cs)) =
      offset + 2 + Text.byteLength inner + Text.byteLength cs := by
  rw [Text.byteLength, Text.byteLength, Text.byteLength_append, hmark]
  simp only [← Nat.add_assoc]
  rfl

theorem Filler.append {errors : List LexicalError} {offset : Nat} {gap gap' after : List Char}
    (h : Filler errors offset gap (gap' ++ after))
    (h' : Filler errors (offset + Text.byteLength gap) gap' after) :
    Filler errors offset (gap ++ gap') after := by
  -- the induction is on the first filler, which may end in an unclosed comment only at the end of the text
  generalize hrest : gap' ++ after = rest at h
  induction h with
  | nil => exact h'
  | blank hc _ ih =>
    rw [Text.byteLength, ← Nat.add_assoc] at h'
    exact .blank hc (ih h' hrest)
  | line hline hend _ ih =>
    rw [byteLength_comment rfl] at h'
    rw [List.cons_append, List.cons_append, List.append_assoc]
    exact .line hline (by rwa [List.append_assoc, hrest]) (ih h' hrest)
  | comment hi _ ih =>
    rw [byteLength_comment rfl] at h'
    rw [List.cons_append, List.cons_append, List.append_assoc]
    exact .comment hi (ih h' hrest)
  | unclosed hc =>
    obtain ⟨rfl, rfl⟩ := List.append_eq_nil_iff.mp hrest
    rw [List.append_nil]
    exact .unclosed hc
  | stray hc _ ih =>
    rw [Text.byteLength, ← Nat.add_assoc] at h'
    exact .stray hc (ih h' hrest)

/-! ### Passing over a gap

The lexer passes over a gap in three ways, at the start, inside of a comment of a line, and inside of block
comments at some depth.  Each of them passes over filler, or over what goes on with a comment that is open. -/

/-- What closes `depth + 1` comments, the innermost first. -/
def ClosingAll : Nat → List Char → Prop
  | 0, cs => Closing cs
  | depth + 1, cs => ∃ inner outer, cs = inner ++ outer ∧ Closing inner ∧ ClosingAll depth outer

/-- What leaves one of `depth + 1` comments open. -/
def UnclosedSome : Nat → List Char → Prop
  | 0, cs => Unclosed cs
  | depth + 1, cs =>
    Unclosed cs ∨ ∃ inner outer, cs = inner ++ outer ∧ Closing inner ∧ UnclosedSome depth outer

/-- A mark of a comment is one with more text behind it. -/
theorem StartsMark.append {cs : List Char} (h : StartsMark cs) (ds : List Char) : StartsMark (cs ++ ds) := by
  obtain ⟨r, rfl⟩ | ⟨r, rfl⟩ := h
  · exact .inl ⟨r ++ ds, rfl⟩
  · exact .inr ⟨r ++ ds, rfl⟩

section
variable {depth : Nat} {c : Char} {cs inner outer : List Char}

/-- A character that starts no mark may stand in a comment. -/
theorem ClosingAll.char (hc : ¬ StartsMark (c :: cs)) (h : ClosingAll depth cs) :
    ClosingAll depth (c :: cs) := by
  cases depth with
  | zero => exact .char hc h
  | succ depth =>
    obtain ⟨inner, outer, rfl, hi, ho⟩ := h
    exact ⟨c :: inner, outer, rfl, .char (fun hm => hc (hm.append outer)) hi, ho⟩

theorem ClosingAll.nested (hi : Closing inner) (h : ClosingAll depth outer) :
    ClosingAll depth ('/' :: '*' :: (inner ++ outer)) := by
  cases depth with
  | zero => exact .nested hi h
  | succ depth =>
    obtain ⟨inner', outer, rfl, hi', ho⟩ := h
    exact ⟨'/' :: '*' :: (inner ++ inner'), outer, by simp, .nested hi hi', ho⟩

/-- The innermost comment may be the one that is not closed. -/
theorem UnclosedSome.of_unclosed (h : Unclosed cs) : UnclosedSome depth cs := by
  cases depth with
  | zero => exact h
  | succ depth => exact .inl h

/-- A character that starts no mark may stand in front of it. -/
theorem UnclosedSome.char (hc : ¬ StartsMark (c :: cs)) (h : UnclosedSome depth cs) :
    UnclosedSome depth (c :: cs) := by
  cases depth with
  | zero => exact Unclosed.char hc h
  | succ depth =>
    obtain h | ⟨inner, outer, rfl, hi, ho⟩ := h
    · exact .inl (.char hc h)
    · exact .inr ⟨c :: inner, outer, rfl, .char (fun hm => hc (hm.append outer)) hi, ho⟩

theorem UnclosedSome.nested (hi : Closing inner) (h : UnclosedSome depth outer) :
    UnclosedSome depth ('/' :: '*' :: (inner ++ outer)) := by
  cases depth with
  | zero => exact Unclosed.nested hi h
  | succ depth =>
    obtain h | ⟨inner', outer, rfl, hi', ho⟩ := h
    · exact .inl (.nested hi h)
    · exact .inr ⟨'/' :: '*' :: (inner ++ inner'), outer, by simp, .nested hi hi', ho⟩

/-- Entering one more comment. -/
theorem UnclosedSome.enter (h : UnclosedSome (depth + 1) cs) : UnclosedSome depth ('/' :: '*' :: cs) := by
  obtain h | ⟨inner, outer, rfl, hi, ho⟩ := h
  · exact .of_unclosed (.inner h)
  · exact .nested hi ho

end

/-- What `piece` has to be for the lexer to pass over it from where it stands in a gap. -/
def Gap.Fills (errors : List LexicalError) : Gap → Nat → List Char → List Char → Prop
  | .plain, offset, piece, after => Filler errors offset piece after
  | .line, offset, piece, after => ∃ line cs, piece = line ++ cs ∧ '\n' ∉ line ∧ EndsLine (cs ++ after) ∧
      Filler errors (offset + Text.byteLength line) cs after
  | .block depth, offset, piece, after =>
    (∃ inner cs, piece = inner ++ cs ∧ ClosingAll depth inner ∧
      Filler errors (offset + Text.byteLength inner) cs after) ∨ UnclosedSome depth piece ∧ after = []

/-- Passing over `front` and then over a piece of what follows. -/
theorem Gap.Fills.behind {errors : List LexicalError} {gap gap' : Gap} {offset offset' : Nat}
    (front : List Char) {cs after : List Char}
    (h : ∃ piece, cs = piece ++ after ∧ offset' = offset + Text.byteLength front + Text.byteLength piece ∧
      gap'.Fills errors (offset + Text.byteLength front) piece after)
    (hgap : ∀ piece, cs = piece ++ after → gap'.Fills errors (offset + Text.byteLength front) piece after →
      gap.Fills errors offset (front ++ piece) after) :
    ∃ piece, front ++ cs = piece ++ after ∧ offset' = offset + Text.byteLength piece ∧
      gap.Fills errors offset piece after := by
  obtain ⟨piece, rfl, rfl, hpiece⟩ := h
  refine ⟨front ++ piece, (List.append_assoc _ _ _).symm, ?_, hgap piece rfl hpiece⟩
  rw [Text.byteLength_append, Nat.add_assoc]

/-- Passing over `front` within comments, whatever this does to their depth. -/
theorem Gap.Fills.behind_block {errors : List LexicalError} {depth depth' offset : Nat} {front piece after : List Char}
    (h : Gap.Fills errors (.block depth') (offset + Text.byteLength front) piece after)
    (hclosing : ∀ inner cs, piece = inner ++ cs → ClosingAll depth' inner → ClosingAll depth (front ++ inner))
    (hunclosed : UnclosedSome depth' piece → UnclosedSome depth (front ++ piece)) :
    Gap.Fills errors (.block depth) offset (front ++ piece) after := by
  obtain ⟨inner, cs, rfl, hinner, hcs⟩ | ⟨hpiece, hafter⟩ := h
  · refine .inl ⟨front ++ inner, cs, (List.append_assoc _ _ _).symm, hclosing inner cs rfl hinner, ?_⟩
    rwa [Text.byteLength_append, ← Nat.add_assoc]
  · exact .inr ⟨hunclosed hpiece, hafter⟩

/-- **A gap is filler**, whatever is open in front of it. -/
theorem skip_fills (errors : List LexicalError) (statements : Bool) (gap : Gap) (offset : Nat)
    (cs : List Char) : ∃ piece, cs = piece ++ (skip statements gap offset cs).2 ∧
      (skip statements gap offset cs).1 = offset + Text.byteLength piece ∧
        gap.Fills errors offset piece (skip statements gap offset cs).2 := by
  -- the induction is on the passing itself: a case for each thing the lexer does in a gap
  fun_induction skip statements gap offset cs with
  | case1 gap offset =>
    refine ⟨[], rfl, rfl, ?_⟩
    cases gap with
    | plain => exact .nil
    | line => exact ⟨[], [], rfl, List.not_mem_nil, .inl rfl, .nil⟩
    | block depth => exact .inr ⟨.of_unclosed .nil, rfl⟩
  -- a comment of a line goes on to the newline, which is filler of the gap around it
  | case2 offset r ih =>
    refine Gap.Fills.behind ['/', '/'] ih fun piece _ hpiece => ?_
    obtain ⟨line, cs, rfl, hline, hend, hcs⟩ := hpiece
    show Filler errors offset ('/' :: '/' :: (line ++ cs)) _
    exact .line hline hend hcs
  -- a comment that is opened is closed later, or the text ends in it
  | case3 offset r ih =>
    refine Gap.Fills.behind ['/', '*'] ih fun piece _ hpiece => ?_
    obtain ⟨inner, cs, rfl, hinner, hcs⟩ | ⟨hpiece, hafter⟩ := hpiece
    · show Filler errors offset ('/' :: '*' :: (inner ++ cs)) _
      exact .comment hinner hcs
    · rw [hafter]
      exact .unclosed hpiece
  | case4 offset c r _ _ hc ih =>
    refine Gap.Fills.behind [c] ih fun piece _ hpiece => ?_
    exact Filler.blank (Bool.and_eq_true_iff.mp hc).1 hpiece
  | case5 offset c r => exact ⟨[], rfl, rfl, .nil⟩
  | case6 offset c r hc =>
    obtain rfl : c = '\n' := beq_iff_eq.mp hc
    exact ⟨[], rfl, rfl, [], [], rfl, List.not_mem_nil, .inr ⟨r, rfl⟩, .nil⟩
  -- the newline that ends the comment is a blank
  | case7 offset c r hc _ ih =>
    obtain rfl : c = '\n' := beq_iff_eq.mp hc
    refine Gap.Fills.behind ['\n'] ih fun piece _ hpiece => ?_
    exact ⟨[], '\n' :: piece, rfl, List.not_mem_nil, .inr ⟨_, rfl⟩, .blank (by decide) hpiece⟩
  | case8 offset c r hc ih =>
    refine Gap.Fills.behind [c] ih fun piece _ hpiece => ?_
    obtain ⟨line, cs, rfl, hline, hend, hcs⟩ := hpiece
    refine ⟨c :: line, cs, rfl, ?_, hend, ?_⟩
    · exact fun hmem => (List.mem_cons.mp hmem).elim (fun heq => hc (beq_iff_eq.mpr heq.symm)) hline
    · rwa [Text.byteLength, ← Nat.add_assoc]
  -- what is closed inside of a comment is part of the one around it
  | case9 depth offset r ih =>
    refine Gap.Fills.behind ['/', '*'] ih fun piece _ hpiece => hpiece.behind_block ?_ .enter
    rintro _ cs rfl ⟨inner, outer, rfl, hinner, houter⟩
    show ClosingAll depth ('/' :: '*' :: (inner ++ outer))
    exact .nested hinner houter
  | case10 offset r ih =>
    refine Gap.Fills.behind ['*', '/'] ih fun piece _ hpiece => ?_
    exact .inl ⟨['*', '/'], piece, rfl, .mark, hpiece⟩
  | case11 depth offset r ih =>
    refine Gap.Fills.behind ['*', '/'] ih fun piece _ hpiece => hpiece.behind_block ?_ ?_
    · exact fun inner _ _ hinner => ⟨['*', '/'], inner, rfl, .mark, hinner⟩
    · exact fun hopen => .inr ⟨['*', '/'], piece, rfl, .mark, hopen⟩
  | case12 depth offset c r hopen hclose hcloses ih =>
    -- a character that starts no mark here starts none in the piece that is passed, which is shorter
    refine Gap.Fills.behind [c] ih fun piece hr hpiece => ?_
    have hc : ¬ StartsMark (c :: r) := by
      rintro (⟨r', heq⟩ | ⟨r', heq⟩) <;> obtain ⟨rfl, rfl⟩ := List.cons.inj heq
      · exact hopen r' rfl rfl
      · cases depth with
        | zero => exact hclose r' rfl rfl rfl
        | succ depth => exact hcloses depth r' rfl rfl rfl
    replace hc : ¬ StartsMark (c :: piece) := fun hm => hc (by rw [hr]; exact hm.append _)
    refine hpiece.behind_block ?_ (.char hc)
    rintro inner cs rfl hinner
    exact .char (fun hm => hc (hm.append cs)) hinner

/-- The lexer passes over filler before it looks for a token. -/
theorem State.skipGap_fills (errors : List LexicalError) (s : State) :
    ∃ gap, s.rest = gap ++ s.skipGap.rest ∧ s.skipGap.offset = s.offset + Text.byteLength gap ∧
      Filler errors s.offset gap s.skipGap.rest :=
  skip_fills errors _ .plain s.offset s.rest

/-! ### The layout

From the end of the text back to its start: behind each step the rest of the text is laid out, so it is in
front of the step. -/

/-- `cs`, which stands at `offset` behind a token of the kind `last`, is laid out as tokens: each of them behind
a gap, and behind the last gap the end.  Newlines stand behind other tokens only, and all lexemes but those of
string content are as in the text. -/
inductive Laid (errors : List LexicalError) : Option TokenKind → Nat → List Char → List Token → Prop where
  | eof {last : Option TokenKind} {offset : Nat} {gap : List Char} (hgap : Filler errors offset gap []) :
      Laid errors last offset gap [⟨.eof, "", .empty (offset + Text.byteLength gap)⟩]
  | token {last : Option TokenKind} {offset : Nat} {gap taken rest : List Char} {kind : TokenKind}
      {lexeme : String} {tokens : List Token} (hgap : Filler errors offset gap (taken ++ rest))
      (hne : taken ≠ []) (hkind : kind ≠ .eof)
      (hlexeme : kind ≠ .stringContent → lexeme = String.ofList taken)
      (hnewline : kind = .newline → last ≠ none ∧ last ≠ some .newline)
      (h : Laid errors (some kind) (offset + Text.byteLength gap + Text.byteLength taken) rest tokens) :
      Laid errors last offset (gap ++ (taken ++ rest)) (⟨kind, lexeme,
        ⟨offset + Text.byteLength gap, offset + Text.byteLength gap + Text.byteLength taken⟩⟩ :: tokens)

/-- Symbols are tokens of their own, none of which needs more to be known of what stands in front. -/
theorem symbol?_kind {c : Char} {kind : TokenKind} (h : symbol? c = some kind) :
    kind ∉ [.eof, .newline, .stringEnd] := by
  -- one character at a time, since all the choices at once are slow to split
  have hchoice : ∀ {p : Prop} [Decidable p] {k : TokenKind} {others : Option TokenKind},
      k ∉ [.eof, .newline, .stringEnd] → (others = some kind → kind ∉ [.eof, .newline, .stringEnd]) →
        (if p then some k else others) = some kind → kind ∉ [.eof, .newline, .stringEnd] := by
    intro p _ k others hk hothers h
    by_cases hp : p
    · rw [if_pos hp] at h
      exact Option.some.inj h ▸ hk
    · rw [if_neg hp] at h
      exact hothers h
  revert h
  rw [symbol?]
  iterate 10 refine hchoice (by decide) ?_
  exact fun h => absurd h.symm (Option.some_ne_none kind)

/-- Texts have no token for their end, strings end elsewhere, and newlines make tokens only behind others. -/
theorem lexeme_kind {last : Option TokenKind} {c : Char} {r taken rest : List Char} {kind : TokenKind}
    (h : lexeme last c r = .token kind taken rest) :
    kind ≠ .eof ∧ kind ≠ .stringEnd ∧ (kind = .newline → last ≠ none ∧ last ≠ some .newline) := by
  -- all other tokens are told from these three by their kind
  have hother {k : TokenKind} (hk : k ∉ [.eof, .newline, .stringEnd]) :
      k ≠ .eof ∧ k ≠ .stringEnd ∧ (k = .newline → last ≠ none ∧ last ≠ some .newline) := by
    simp only [List.mem_cons, List.not_mem_nil, or_false, not_or] at hk
    exact ⟨hk.1, hk.2.2, fun hnewline => absurd hnewline hk.2.1⟩
  rw [lexeme.eq_def] at h
  split at h
  -- a newline makes a token only behind a token that is none
  · split at h <;> cases h
    rename_i hnewline
    exact ⟨by decide, by decide, fun _ =>
      ⟨Option.some_ne_none _, fun heq => hnewline (Option.some.inj heq)⟩⟩
  split at h
  · cases h
    exact hother (by decide)
  split at h
  · cases h
    exact hother (by decide)
  split at h
  · cases h
    exact hother (by decide)
  cases hsymbol : symbol? c with
  | some kind' =>
    rw [hsymbol] at h
    cases h
    exact hother (symbol?_kind hsymbol)
  | none =>
    rw [hsymbol, Option.elim_none] at h
    split at h <;> cases h
    split <;> exact hother (by decide)

/-- Only a newline is passed over without a token or an error. -/
theorem lexeme_skipped {last : Option TokenKind} {c : Char} {r : List Char}
    (h : lexeme last c r = .skipped) : c = '\n' := by
  by_contra hc
  rw [lexeme.eq_def, if_neg hc] at h
  split_ifs at h <;> cases hsymbol : symbol? c <;> rw [hsymbol] at h <;> cases h

section
variable {errors : List LexicalError}

namespace Laid

variable {last : Option TokenKind} {offset : Nat} {cs gap : List Char} {tokens : List Token}

/-- More of a gap in front. -/
theorem behind (hgap : Filler errors offset gap cs)
    (h : Laid errors last (offset + Text.byteLength gap) cs tokens) :
    Laid errors last offset (gap ++ cs) tokens := by
  cases h with
  | @eof _ _ gap' hgap' =>
    rw [Nat.add_assoc, ← Text.byteLength_append]
    refine .eof (.append ?_ hgap')
    rwa [List.append_nil]
  | token hgap' hne hkind hlexeme hnewline h =>
    rw [Nat.add_assoc offset, ← Text.byteLength_append] at h ⊢
    rw [← List.append_assoc]
    exact .token (.append hgap hgap') hne hkind hlexeme hnewline h

end Laid

namespace State

theorem errors_of_reaches {s t : State} (h : Reaches s t) : s.errors <:+ t.errors := by
  induction h with
  | refl s => exact List.suffix_refl _
  | step hs _ ih => exact (errors_step hs).trans ih

/-- There is no content, or it makes a token. -/
theorem content_cases (s : State) :
    (s.content.rest = s.rest ∧ s.content.offset = s.offset ∧ s.content.tokens = s.tokens) ∨
      ∃ taken text, taken ≠ [] ∧ s.rest = taken ++ s.content.rest ∧
        s.content.offset = s.offset + Text.byteLength taken ∧
          s.content.tokens = ⟨.stringContent, text, ⟨s.offset, s.content.offset⟩⟩ :: s.tokens := by
  obtain ⟨taken, hrest, hoffset⟩ := s.content_passes
  by_cases hempty : s.content.offset = s.offset
  · have hnil : taken = [] := by
      by_contra hne
      have hpos := Text.byteLength_pos hne
      omega
    rw [hnil] at hrest
    exact .inl ⟨hrest.symm, hempty, if_pos hempty⟩
  · have hne : taken ≠ [] := by
      rintro rfl
      exact hempty hoffset
    exact .inr ⟨taken, _, hne, hrest, hoffset, if_neg hempty⟩

/-- `stream` is the tokens found so far and a layout of what is left. -/
def Lays (errors : List LexicalError) (s : State) (stream : List Token) : Prop :=
  ∃ tokens, stream = s.tokens.reverse ++ tokens ∧ Laid errors s.lastKind s.offset s.rest tokens

namespace Lays

variable {s s' : State} {stream : List Token}

/-- Passing over filler. -/
theorem move {gap : List Char} (h : s'.Lays errors stream) (htokens : s'.tokens = s.tokens)
    (hrest : s.rest = gap ++ s'.rest) (hoffset : s'.offset = s.offset + Text.byteLength gap)
    (hgap : Filler errors s.offset gap s'.rest) : s.Lays errors stream := by
  obtain ⟨tokens, hstream, hlaid⟩ := h
  rw [htokens] at hstream
  rw [hoffset, lastKind, htokens] at hlaid
  exact ⟨tokens, hstream, hrest ▸ hlaid.behind hgap⟩

/-- Taking a token off the text. -/
theorem add {t : Token} {taken : List Char} (h : s'.Lays errors stream)
    (htokens : s'.tokens = t :: s.tokens) (hrest : s.rest = taken ++ s'.rest)
    (hoffset : s'.offset = s.offset + Text.byteLength taken) (hspan : t.span = ⟨s.offset, s'.offset⟩)
    (hne : taken ≠ []) (hkind : t.kind ≠ .eof)
    (hlexeme : t.kind ≠ .stringContent → t.lexeme = String.ofList taken)
    (hnewline : t.kind = .newline → s.lastKind ≠ none ∧ s.lastKind ≠ some .newline) :
    s.Lays errors stream := by
  obtain ⟨tokens, hstream, hlaid⟩ := h
  rw [htokens, List.reverse_cons, List.append_assoc] at hstream
  rw [hoffset, lastKind, htokens] at hlaid
  refine ⟨t :: tokens, hstream, ?_⟩
  have hgap : Filler errors s.offset [] (taken ++ s'.rest) := .nil
  have hadded := Laid.token hgap hne hkind hlexeme hnewline hlaid
  rw [hrest]
  rwa [List.nil_append, Text.byteLength, Nat.add_zero, ← hoffset, ← hspan] at hadded

/-- If what is behind a token is laid out, so is what is in front of it. -/
theorem pass {kind : TokenKind} {taken rest : List Char}
    (h : (s.pass kind taken rest).Lays errors stream) (hrest : s.rest = taken ++ rest)
    (hne : taken ≠ []) (hkind : kind ≠ .eof)
    (hnewline : kind = .newline → s.lastKind ≠ none ∧ s.lastKind ≠ some .newline) :
    s.Lays errors stream :=
  h.add rfl hrest rfl rfl hne hkind (fun _ => rfl) hnewline

/-- The content of a string makes a token unless there is none. -/
theorem content (h : s.content.Lays errors stream) : s.Lays errors stream := by
  obtain ⟨hrest, hoffset, htokens⟩ | ⟨taken, text, hne, hrest, hoffset, htokens⟩ := s.content_cases
  · have hsame : s.rest = [] ++ s.content.rest := hrest.symm
    exact h.move htokens hsame hoffset .nil
  · exact h.add htokens hrest hoffset rfl hne nofun (fun hc => absurd rfl hc) nofun

/-- **One step outside of strings**: what is laid out behind it is laid out behind the gap in front of it. -/
theorem skipGap (hmode : ∀ n, s.mode ≠ .string n) (hs : s.step = some s') (herrors : s'.errors ⊆ errors)
    (h : s'.Lays errors stream) : s.skipGap.Lays errors stream := by
  cases round_of_step hs with
  | quote hstring _ | interpolation hstring _ | unterminated hstring _ => exact absurd hstring (hmode _)
  | token _ hrest hlexeme =>
    obtain ⟨hsplit, hne⟩ := lexeme_token hlexeme
    obtain ⟨heof, -, hnewline⟩ := lexeme_kind hlexeme
    exact h.pass (hrest.trans hsplit.symm) hne heof hnewline
  | skipped _ hrest hlexeme =>
    obtain rfl := lexeme_skipped hlexeme
    exact h.move rfl hrest rfl (.blank (by decide) .nil)
  | stray _ hrest _ => exact h.move rfl hrest rfl (.stray (herrors List.mem_cons_self) .nil)

/-- **One step**: what is laid out behind it is laid out in front of it. -/
theorem step (hs : s.step = some s') (herrors : s'.errors ⊆ errors) (h : s'.Lays errors stream) :
    s.Lays errors stream := by
  obtain ⟨gap, hgap, hoffset, hfiller⟩ := s.skipGap_fills errors
  cases round_of_step hs with
  | quote _ hrest =>
    exact (h.pass hrest (List.cons_ne_nil _ _) (by decide) fun heq => absurd heq (by decide)).content
  | interpolation _ hrest =>
    exact (h.pass hrest (List.cons_ne_nil _ _) (by decide) fun heq => absurd heq (by decide)).content
  | unterminated _ _ => exact (h.move (s := s.content) rfl rfl rfl .nil).content
  | token hmode _ _ | skipped hmode _ _ | stray hmode _ _ =>
    exact (h.skipGap hmode hs herrors).move rfl hgap hoffset hfiller

/-- At the end of the text the last token is made. -/
theorem finish_of_rest (hrest : s.rest = []) : s.Lays errors s.finish.tokens.reverse := by
  have htokens : s.finish.tokens = ⟨.eof, "", .empty s.offset⟩ :: s.tokens := by
    rw [State.finish]
    split <;> rfl
  refine ⟨_, by rw [htokens, List.reverse_cons], ?_⟩
  rw [hrest]
  exact .eof .nil

/-- In front of the end there may be a gap. -/
theorem finish (hend : s.step = none) : s.Lays errors s.skipGap.finish.tokens.reverse := by
  obtain ⟨gap, hgap, hoffset, hfiller⟩ := s.skipGap_fills errors
  exact (finish_of_rest (rest_of_step_eq_none hend)).move rfl hgap hoffset hfiller

/-- **A whole run** lays out what it starts from. -/
theorem of_reaches {t : State} (hreaches : Reaches s t) (hend : t.step = none)
    (herrors : t.errors ⊆ errors) : s.Lays errors t.skipGap.finish.tokens.reverse := by
  induction hreaches with
  | refl s => exact finish hend
  | step hs hreaches ih =>
    exact (ih hend herrors).step hs (List.Subset.trans (errors_of_reaches hreaches).subset herrors)

/-- **A run from outside of strings** lays out what stands behind the first gap. -/
theorem skipGap_of_reaches {t : State} (hmode : ∀ n, s.mode ≠ .string n) (hreaches : Reaches s t)
    (hend : t.step = none) (herrors : t.errors ⊆ errors) : s.skipGap.Lays errors t.skipGap.finish.tokens.reverse := by
  cases hreaches with
  | refl => exact finish_of_rest (rest_of_step_eq_none hend)
  | step hs hreaches =>
    exact (of_reaches hreaches hend herrors).skipGap hmode hs
      (List.Subset.trans (errors_of_reaches hreaches).subset herrors)

end Lays

end State

end

/-! ### What the layout says

Properties of the tokens that follow from the layout by induction on it. -/

/-- The part of the text between two offsets, with what is in front of it and behind it. -/
def IsSlice (cs : List Char) (span : Span) (piece : List Char) : Prop :=
  ∃ before after, cs = before ++ (piece ++ after) ∧
    span = ⟨Text.byteLength before, Text.byteLength before + Text.byteLength piece⟩

/-- Between two offsets there is filler. -/
def IsGap (errors : List LexicalError) (cs : List Char) (start stop : Nat) : Prop :=
  ∃ before gap after, cs = before ++ (gap ++ after) ∧ start = Text.byteLength before ∧
    stop = start + Text.byteLength gap ∧ Filler errors start gap after

namespace Laid

variable {errors : List LexicalError} {last : Option TokenKind} {offset : Nat} {cs : List Char}
  {tokens : List Token}

/-- The last token stands at the end, and it is the only one that is empty. -/
theorem ends (h : Laid errors last offset cs tokens) :
    ∃ inner, tokens = inner ++ [⟨.eof, "", .empty (offset + Text.byteLength cs)⟩] ∧
      ∀ t ∈ inner, t.kind ≠ .eof ∧ t.span.start < t.span.stop := by
  induction h with
  | eof => exact ⟨[], rfl, List.forall_mem_nil _⟩
  | token _ hne hkind _ _ _ ih =>
    obtain ⟨inner, rfl, hinner⟩ := ih
    rw [Text.byteLength_append, Text.byteLength_append, ← Nat.add_assoc, ← Nat.add_assoc]
    refine ⟨_ :: inner, rfl, List.forall_mem_cons.mpr ⟨⟨hkind, ?_⟩, hinner⟩⟩
    exact Nat.lt_add_of_pos_right (Text.byteLength_pos hne)

/-- Tokens do not overlap and stand in order. -/
theorem ordered (h : Laid errors last offset cs tokens) :
    (∀ t ∈ tokens, offset ≤ t.span.start) ∧ tokens.Pairwise fun a b => a.span.stop ≤ b.span.start := by
  induction h with
  | eof => exact ⟨List.forall_mem_singleton.mpr (Nat.le_add_right _ _), List.pairwise_singleton _ _⟩
  | token _ _ _ _ _ _ ih =>
    obtain ⟨hstart, hpairs⟩ := ih
    refine ⟨List.forall_mem_cons.mpr ⟨Nat.le_add_right _ _, fun t ht => ?_⟩,
      List.pairwise_cons.mpr ⟨hstart, hpairs⟩⟩
    have hle := hstart t ht
    omega

/-- Lexemes are slices of the text. -/
theorem lexemes (h : Laid errors last offset cs tokens) (front : List Char)
    (hfront : Text.byteLength front = offset) : ∀ t ∈ tokens, t.kind ≠ .stringContent →
      IsSlice (front ++ cs) t.span t.lexeme.toList := by
  induction h generalizing front with
  | @eof _ _ gap _ =>
    refine List.forall_mem_singleton.mpr fun _ => ⟨front ++ gap, [], by simp, ?_⟩
    rw [Text.byteLength_append, hfront]
    rfl
  | @token _ offset gap taken rest _ _ _ _ _ _ hlexeme _ _ ih =>
    have hbehind : Text.byteLength (front ++ gap) = offset + Text.byteLength gap := by
      rw [Text.byteLength_append, hfront]
    refine List.forall_mem_cons.mpr ⟨fun hkind => ⟨front ++ gap, rest, ?_, ?_⟩, ?_⟩
    · rw [hlexeme hkind, String.toList_ofList, List.append_assoc]
    · rw [hlexeme hkind, String.toList_ofList, hbehind]
    · have hrest := ih (front ++ gap ++ taken) (by rw [Text.byteLength_append, hbehind])
      rwa [List.append_assoc, List.append_assoc] at hrest

/-- No newline stands at the start or behind a newline. -/
theorem newlines (h : Laid errors last offset cs tokens) :
    (∀ t ∈ tokens.head?, t.kind = .newline → last ≠ none ∧ last ≠ some .newline) ∧
      tokens.IsChain fun a b => ¬ (a.kind = .newline ∧ b.kind = .newline) := by
  induction h with
  | eof => exact ⟨fun t ht => by cases ht; nofun, .singleton _⟩
  | token _ _ _ _ hnewline _ ih =>
    refine ⟨fun t ht => by cases ht; exact hnewline, ih.2.cons fun t ht hboth => ?_⟩
    exact (ih.1 t ht hboth.2).2 (congrArg some hboth.1)

/-- All that stands between tokens is filler. -/
theorem gaps (h : Laid errors last offset cs tokens) (front : List Char)
    (hfront : Text.byteLength front = offset) :
    (∀ t ∈ tokens.head?, IsGap errors (front ++ cs) offset t.span.start) ∧
      tokens.IsChain fun a b => IsGap errors (front ++ cs) a.span.stop b.span.start := by
  induction h generalizing front with
  | @eof _ _ gap hgap =>
    refine ⟨fun t ht => ?_, .singleton _⟩
    cases ht
    exact ⟨front, gap, [], by simp, hfront.symm, rfl, hgap⟩
  | @token _ _ gap taken rest _ _ _ hgap _ _ _ _ _ ih =>
    have hrest := ih (front ++ gap ++ taken) (by simp [hfront, Nat.add_assoc])
    rw [List.append_assoc, List.append_assoc] at hrest
    refine ⟨fun t ht => ?_, hrest.2.cons hrest.1⟩
    cases ht
    exact ⟨front, gap, taken ++ rest, rfl, hfront.symm, rfl, hgap⟩

end Laid

end Lexer

/-- The tokens of a text are a layout of it. -/
theorem Token.ofText_laid (text : String) :
    Lexer.Laid (Token.ofText text).errors none 0 text.toList (Token.ofText text).tokens := by
  obtain ⟨t, hreaches, hend⟩ := Lexer.State.exists_reaches (.start text.toList)
  have hout := Token.ofText_of_reaches hreaches hend
  have herrors : t.errors ⊆ (Token.ofText text).errors := by
    rw [hout]
    intro e he
    rw [List.mem_reverse, Lexer.State.finish]
    split
    · exact List.mem_cons_of_mem _ he
    · exact he
  obtain ⟨tokens, htokens, hlaid⟩ := Lexer.State.Lays.of_reaches hreaches hend herrors
  have hstream : (Token.ofText text).tokens = tokens := by
    rw [hout]
    exact htokens
  exact hstream ▸ hlaid

/-- **Every byte of a text is accounted for** by its tokens.  Splitting a text ends, with the same result for
every fuel that is not less than the one used.  The last token, and no other, is of the kind `eof`; it is empty
and stands at the end of the text, and all others hold a byte.  All spans lie in the text between characters,
in order and without overlap.  All lexemes but those of string content are the slices of the text under their
spans.  Newlines stand neither first nor behind newlines.  And what stands in front of the first token and between
a token and the next is filler: blanks, comments, the last of them unclosed perhaps, and reported characters. -/
theorem tokens_account_for_every_byte (text : String) :
    let cs := text.toList
    let out := Token.ofText text
    (∀ fuel, 2 * cs.length + 2 ≤ fuel →
      out = ⟨(Lexer.State.run fuel (.start cs)).tokens.reverse,
        (Lexer.State.run fuel (.start cs)).errors.reverse⟩) ∧
      (∃ inner, out.tokens = inner ++ [⟨.eof, "", .empty text.utf8ByteSize⟩] ∧
        ∀ t ∈ inner, t.kind ≠ .eof ∧ t.span.start < t.span.stop) ∧
      (∀ t ∈ out.tokens, t.span.Sited (Text.IsPlace cs)) ∧
      out.tokens.Pairwise (fun a b => a.span.stop ≤ b.span.start) ∧
      (∀ t ∈ out.tokens, t.kind ≠ .stringContent → Lexer.IsSlice cs t.span t.lexeme.toList) ∧
      (∀ t ∈ out.tokens.head?, t.kind ≠ .newline) ∧
      (out.tokens.IsChain fun a b => ¬ (a.kind = .newline ∧ b.kind = .newline)) ∧
      (∀ t ∈ out.tokens.head?, Lexer.IsGap out.errors cs 0 t.span.start) ∧
      out.tokens.IsChain fun a b => Lexer.IsGap out.errors cs a.span.stop b.span.start := by
  intro cs out
  obtain ⟨t, hreaches, hend⟩ := Lexer.State.exists_reaches (.start cs)
  have hout : out = ⟨t.skipGap.finish.tokens.reverse, t.skipGap.finish.errors.reverse⟩ :=
    Token.ofText_of_reaches hreaches hend
  have hrun : ∀ fuel, 2 * cs.length + 2 ≤ fuel →
      Lexer.State.run fuel (.start cs) = t.skipGap.finish := by
    intro fuel hfuel
    refine Lexer.State.run_of_reaches hreaches hend (Nat.lt_of_lt_of_le ?_ hfuel)
    show 2 * cs.length + 0 < _
    omega
  -- finishing adds one error at most
  have herrors : t.errors ⊆ out.errors := by
    rw [hout]
    intro e he
    rw [List.mem_reverse, Lexer.State.finish]
    split
    · exact List.mem_cons_of_mem _ he
    · exact he
  obtain ⟨tokens, htokens, hlaid⟩ := Lexer.State.Lays.of_reaches hreaches hend herrors
  have hstream : out.tokens = tokens := by
    rw [hout]
    exact htokens
  have hgaps := hlaid.gaps [] rfl
  rw [hstream]
  -- from the layout, where tokens stand is read off one property at a time
  refine ⟨fun fuel hfuel => by rw [hrun fuel hfuel]; exact hout, ?_, ?_, hlaid.ordered.2, ?_, ?_,
    hlaid.newlines.2, hgaps.1, hgaps.2⟩
  · rw [Text.utf8ByteSize_eq, ← Nat.zero_add (Text.byteLength text.toList)]
    exact hlaid.ends
  · exact hstream ▸ Token.ofText_sited text
  · exact hlaid.lexemes [] rfl
  · exact fun t ht hkind => (hlaid.newlines.1 t ht hkind).1 rfl

end Protean
