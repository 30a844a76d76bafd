import Protean.Proofs.Token.Layout

/-!
# Proofs — Token — what the modes stand for

The lexer leaves the innermost mode at every closing delimiter, whatever opened it.  What its modes say about the
tokens found so far is said by two invariants, each of them about some of the modes only.

* The strings among the modes are those whose quotes are open (`State.Quoted`).  Outside of strings the innermost mode
  is never one, so closing delimiters leave them, and all that may stand directly inside of one is an interpolation.
  An interpolation that the end of the text leaves open is an error, so without errors no quote is left open.
* The other modes are those of the delimiters that are open, as long as these match (`State.Delimited`).
-/

namespace Protean

open Lexer

/-! ### What tokens leave open

What is open behind some tokens, said of the tokens alone: the delimiters that have not been closed, as long
as closers match, and the quotes that have not been closed, whatever the other closers do. -/

namespace TokenKind

/-- The delimiters that are open behind a token, the innermost first, where `opened` are in front of it; none if
the token closes another one than the innermost. -/
def follow (kind : TokenKind) (opened : List TokenKind) : Option (List TokenKind) :=
  match kind, opened with
  | .leftParen, _ | .leftBracket, _ | .leftBrace, _ | .interpolationStart, _ => some (kind :: opened)
  | .rightParen, .leftParen :: outer => some outer
  | .rightBracket, .leftBracket :: outer => some outer
  | .rightBrace, .leftBrace :: outer => some outer
  | .rightBrace, .interpolationStart :: outer => some outer
  | .rightParen, _ | .rightBracket, _ | .rightBrace, _ => none
  | _, _ => some opened

/-- The mode inside of an open delimiter. -/
def mode : TokenKind → Mode
  | .leftBrace => .statements
  | .interpolationStart => .interpolation
  | _ => .inline

/-- Only a brace separates statements inside of it. -/
theorem mode_eq_statements (kind : TokenKind) : kind.mode = .statements ↔ kind = .leftBrace := by
  cases kind <;> simp [mode]

/-- A closing delimiter leaves what is open around the innermost. -/
theorem follow_closing {kind : TokenKind} {opened opened' : List TokenKind}
    (hkind : kind = .rightParen ∨ kind = .rightBracket ∨ kind = .rightBrace)
    (h : kind.follow opened = some opened') : ∃ k, opened = k :: opened' := by
  cases opened with
  | nil => obtain rfl | rfl | rfl := hkind <;> cases h
  | cons k outer =>
    obtain rfl | rfl | rfl := hkind <;> cases k <;> cases h <;> exact ⟨_, rfl⟩

end TokenKind

namespace Token

/-- The delimiters that are open behind tokens, the innermost first; none if some token closes another one than
the innermost. -/
def delimiters (ts : List Token) : Option (List TokenKind) :=
  ts.foldlM (fun opened t => t.kind.follow opened) []

/-- The opening quotes without a closing one, the latest first, where `opened` are in front of the token; none if it
closes a string and none is open. -/
def quote (t : Token) (opened : List Token) : Option (List Token) :=
  match t.kind with
  | .stringStart => some (t :: opened)
  | .stringEnd => opened.tail?
  | _ => some opened

/-- The opening quotes without a closing one, the latest first; none if a string is closed that is not open. -/
def quotes (ts : List Token) : Option (List Token) := ts.foldlM (fun opened t => t.quote opened) []

theorem delimiters_concat (ts : List Token) (t : Token) :
    delimiters (ts ++ [t]) = (delimiters ts).bind t.kind.follow := by
  rw [delimiters, delimiters, List.foldlM_append]
  refine congrArg _ (funext fun opened => ?_)
  exact Option.bind_fun_some _

theorem quotes_concat (ts : List Token) (t : Token) : quotes (ts ++ [t]) = (quotes ts).bind t.quote := by
  rw [quotes, quotes, List.foldlM_append]
  refine congrArg _ (funext fun opened => ?_)
  exact Option.bind_fun_some _

/-- What is nested is nested up to every token. -/
theorem delimiters_prefix {ts us : List Token} (h : (delimiters (ts ++ us)).isSome = true) :
    ∃ opened, delimiters ts = some opened := by
  rw [delimiters, List.foldlM_append] at h
  cases hts : delimiters ts with
  | some opened => exact ⟨opened, rfl⟩
  | none =>
    rw [delimiters] at hts
    rw [hts] at h
    cases h

end Token

namespace Lexer.State

variable {s s' : State}

/-! ### Modes

Which mode a token opens, and what is known of the modes where the innermost one is no string. -/

/-- If the innermost mode is no string, neither is the first one that is kept. -/
theorem modes_of_other (h : ∀ n, s.mode ≠ .string n) :
    s.modes = [] ∨ ∃ m outer, s.modes = m :: outer ∧ s.mode = m ∧ m.isString = false := by
  cases hmodes : s.modes with
  | nil => exact .inl rfl
  | cons m outer =>
    have hmode : s.mode = m := by rw [mode, hmodes]; rfl
    refine .inr ⟨m, outer, rfl, hmode, ?_⟩
    cases m with
    | string n => exact absurd hmode (h n)
    | _ => rfl

/-! ### Strings

The strings among the modes are the open quotes. -/

/-- The quote that a mode goes back to. -/
def openedAt? : Mode → Option Nat
  | .string n => some n
  | .statements | .inline | .interpolation => none

theorem openedAt?_of_other {m : Mode} (h : m.isString = false) : openedAt? m = none := by
  cases m with
  | string n => cases h
  | _ => rfl

/-- A string is the innermost mode or has an interpolation directly inside of it.  As long as there is no error, the
strings among the modes are those whose quotes are open. -/
structure Quoted (s : State) : Prop where
  guarded : s.modes.IsChain fun inner outer => outer.isString = true → inner = .interpolation
  quotes : s.errors = [] → ∃ opened, Token.quotes s.tokens.reverse = some opened ∧
    s.modes.filterMap openedAt? = opened.map fun t => t.span.start

namespace Quoted

/-- At its start the lexer is in no string. -/
theorem start (cs : List Char) : (start cs).Quoted where
  guarded := .nil
  quotes _ := ⟨[], rfl, rfl⟩

/-- Content leaves open what is open. -/
theorem content (h : s.Quoted) (herrors : s.content.errors = []) : ∃ opened,
    Token.quotes s.content.tokens.reverse = some opened ∧
      s.modes.filterMap openedAt? = opened.map fun t => t.span.start := by
  obtain ⟨opened, hquotes, hmodes⟩ := h.quotes (List.append_eq_nil_iff.mp herrors).2
  refine ⟨opened, ?_, hmodes⟩
  obtain ⟨-, -, htokens⟩ | ⟨_, _, -, -, -, htokens⟩ := s.content_cases
  · rwa [htokens]
  · rw [htokens, List.reverse_cons, Token.quotes_concat, hquotes]
    rfl

/-- A token outside of strings. -/
theorem pass (h : s.Quoted) (hmode : ∀ n, s.mode ≠ .string n) {kind : TokenKind} (hkind : kind ≠ .stringEnd)
    (taken rest : List Char) : (s.pass kind taken rest).Quoted where
  guarded := by
    -- a token opens nothing directly inside of a string, for the lexer is not in one
    have hcons (m : Mode) :
        (m :: s.modes).IsChain fun inner outer => outer.isString = true → inner = .interpolation := by
      refine h.guarded.cons fun outer houter hstring => ?_
      obtain hmodes | ⟨m, _, hmodes, -, hm⟩ := modes_of_other hmode
      · rw [hmodes] at houter
        cases houter
      · rw [hmodes] at houter
        cases houter
        exact absurd hstring (by rw [hm]; decide)
    show (nest kind s.offset s.modes).IsChain _
    cases kind with
    | stringStart | interpolationStart | leftParen | leftBracket | leftBrace => exact hcons _
    | rightParen | rightBracket | rightBrace | stringEnd => exact h.guarded.tail
    | _ => exact h.guarded
  quotes := by
    intro herrors
    obtain ⟨opened, hquotes, hmodes⟩ := h.quotes herrors
    -- so a closing delimiter never takes a quote away
    have htail : s.modes.tail.filterMap openedAt? = opened.map fun t => t.span.start := by
      rw [← hmodes]
      obtain hnil | ⟨m, outer, hcons, -, hm⟩ := modes_of_other hmode
      · rw [hnil]
        rfl
      · rw [hcons, List.tail_cons, List.filterMap_cons_none (openedAt?_of_other hm)]
    show ∃ opened', Token.quotes (_ :: s.tokens).reverse = some opened' ∧
      (nest kind s.offset s.modes).filterMap openedAt? = opened'.map fun t => t.span.start
    rw [List.reverse_cons, Token.quotes_concat, hquotes, Option.bind_some]
    -- an opening quote is the only kind that adds one
    cases kind with
    | stringStart => exact ⟨_ :: opened, rfl, congrArg (s.offset :: ·) hmodes⟩
    | stringEnd => exact absurd rfl hkind
    | rightParen | rightBracket | rightBrace => exact ⟨opened, rfl, htail⟩
    | _ => exact ⟨opened, rfl, hmodes⟩

/-- **One round.** -/
theorem step (h : s.Quoted) (hs : s.step = some s') : s'.Quoted := by
  cases round_of_step hs with
  -- the innermost mode is the string that the quote closes, and its quote is the last one opened
  | quote hmode _ =>
    refine ⟨h.guarded.tail, fun herrors => ?_⟩
    obtain ⟨opened, hquotes, hmodes⟩ := h.content herrors
    obtain ⟨outer, houter⟩ := modes_of_string hmode
    rw [houter] at hmodes
    cases opened with
    | nil => cases hmodes
    | cons t opened =>
      show ∃ opened', Token.quotes (_ :: s.content.tokens).reverse = some opened' ∧
        s.modes.tail.filterMap openedAt? = opened'.map fun t => t.span.start
      rw [List.reverse_cons, Token.quotes_concat, hquotes, houter]
      exact ⟨opened, rfl, (List.cons.inj hmodes).2⟩
  -- an interpolation is the only thing to be opened inside of a string
  | interpolation _ _ =>
    refine ⟨h.guarded.cons fun _ _ _ => rfl, fun herrors => ?_⟩
    obtain ⟨opened, hquotes, hmodes⟩ := h.content herrors
    refine ⟨opened, ?_, hmodes⟩
    show Token.quotes (_ :: s.content.tokens).reverse = _
    rw [List.reverse_cons, Token.quotes_concat, hquotes]
    rfl
  -- where an error is reported nothing is claimed
  | unterminated _ _ => exact ⟨h.guarded.tail, fun herrors => absurd herrors (List.cons_ne_nil _ _)⟩
  | token hmode _ hlexeme =>
    have hgap : s.skipGap.Quoted := ⟨h.guarded, h.quotes⟩
    exact hgap.pass hmode (lexeme_kind hlexeme).2.1 _ _
  | skipped _ _ _ => exact ⟨h.guarded, h.quotes⟩
  | stray _ _ _ => exact ⟨h.guarded, fun herrors => absurd herrors (List.cons_ne_nil _ _)⟩

/-- Where no interpolation is open and the innermost mode is no string, none of the modes is. -/
theorem filterMap_openedAt? : ∀ {modes : List Mode},
    (modes.IsChain fun inner outer => outer.isString = true → inner = .interpolation) →
      (∀ m ∈ modes.head?, m.isString = false) → Mode.interpolation ∉ modes → modes.filterMap openedAt? = []
  | [], _, _, _ => rfl
  | m :: modes, hguarded, hhead, hnone => by
      have hm : m ≠ .interpolation := fun heq => hnone (heq ▸ List.mem_cons_self)
      have hnext : ∀ outer ∈ modes.head?, outer.isString = false := by
        intro outer houter
        cases modes with
        | nil => cases houter
        | cons next modes =>
          cases houter
          exact Bool.eq_false_iff.mpr fun hstring => hm ((List.isChain_cons_cons.mp hguarded).1 hstring)
      rw [List.filterMap_cons_none (openedAt?_of_other (hhead m rfl))]
      exact filterMap_openedAt? hguarded.tail hnext fun hmem => hnone (List.mem_cons_of_mem m hmem)

/-- **At the end of a text without errors** no string is open. -/
theorem finish {t : State} (h : t.Quoted) (hend : t.step = none) (herrors : t.skipGap.finish.errors = []) :
    Token.quotes t.skipGap.finish.tokens.reverse = some [] := by
  obtain ⟨htokens, hnone⟩ := finish_eq_of_errors herrors
  obtain ⟨opened, hquotes, hmodes⟩ := h.quotes hnone
  -- a run does not stop inside of a string, but reports that it is not closed
  have hmode : ∀ n, t.mode ≠ .string n := by
    intro n hmode
    rw [State.step, hmode] at hend
    cases hend
  -- an interpolation that is still open would have been reported as well
  have hclosed : Mode.interpolation ∉ t.modes := by
    intro hmem
    have hcontains : t.skipGap.modes.contains .interpolation = true := List.contains_iff_mem.mpr hmem
    rw [State.finish, if_pos hcontains] at herrors
    cases herrors
  have hhead : ∀ m ∈ t.modes.head?, m.isString = false := by
    obtain hnil | ⟨m, outer, hcons, -, hm⟩ := modes_of_other hmode
    · rw [hnil]
      exact fun m hm => absurd hm (Option.not_mem_none m)
    · rw [hcons]
      exact fun m' hm' => by cases hm'; exact hm
  rw [filterMap_openedAt? h.guarded hhead hclosed] at hmodes
  obtain rfl : opened = [] := List.map_eq_nil_iff.mp hmodes.symm
  rw [htokens, List.reverse_cons, Token.quotes_concat]
  show (Token.quotes t.tokens.reverse).bind _ = _
  rw [hquotes]
  rfl

end Quoted

/-! ### Delimiters

All modes are the open delimiters, as long as these match. -/

/-- The modes other than strings are those of the delimiters that are open. -/
def Delimited (s : State) : Prop :=
  ∀ opened, Token.delimiters s.tokens.reverse = some opened →
    s.modes.filter (fun m => !m.isString) = opened.map TokenKind.mode

namespace Delimited

theorem start (cs : List Char) : (start cs).Delimited := by
  intro opened hopened
  cases hopened
  rfl

/-- A token that leaves the modes other than strings as its kind says. -/
theorem concat {t : Token} (h : s.Delimited) (modes : List Mode)
    (hnest : ∀ opened opened', t.kind.follow opened = some opened' →
      s.modes.filter (fun m => !m.isString) = opened.map TokenKind.mode →
        modes.filter (fun m => !m.isString) = opened'.map TokenKind.mode)
    (htokens : s'.tokens = t :: s.tokens) (hmodes : s'.modes = modes) : s'.Delimited := by
  intro opened' hopened
  rw [htokens, List.reverse_cons, Token.delimiters_concat] at hopened
  obtain ⟨opened, hopened, hfollow⟩ := Option.bind_eq_some_iff.mp hopened
  rw [hmodes]
  exact hnest opened opened' hfollow (h opened hopened)

theorem content (h : s.Delimited) : s.content.Delimited := by
  obtain ⟨-, -, htokens⟩ | ⟨_, _, -, -, -, htokens⟩ := s.content_cases
  · intro opened hopened
    rw [htokens] at hopened
    exact h opened hopened
  · refine h.concat _ (fun opened opened' hfollow hmodes => ?_) htokens rfl
    cases hfollow
    exact hmodes

/-- A token outside of strings. -/
theorem pass (h : s.Delimited) (hmode : ∀ n, s.mode ≠ .string n) {kind : TokenKind} (hkind : kind ≠ .stringEnd)
    (taken rest : List Char) : (s.pass kind taken rest).Delimited := by
  refine h.concat _ (fun opened opened' hfollow hmodes => ?_) rfl rfl
  have hclosing (hclosing : kind = .rightParen ∨ kind = .rightBracket ∨ kind = .rightBrace) :
      s.modes.tail.filter (fun m => !m.isString) = opened'.map TokenKind.mode := by
    obtain ⟨k, rfl⟩ := TokenKind.follow_closing hclosing hfollow
    obtain hnil | ⟨m, outer, hcons, -, hm⟩ := modes_of_other hmode
    · rw [hnil] at hmodes
      cases hmodes
    · rw [hcons, List.filter_cons_of_pos (by rw [hm]; rfl)] at hmodes
      rw [hcons]
      exact (List.cons.inj hmodes).2
  cases kind with
  | leftParen | leftBracket | leftBrace | interpolationStart =>
    cases hfollow
    exact congrArg (List.cons _) hmodes
  | rightParen => exact hclosing (.inl rfl)
  | rightBracket => exact hclosing (.inr (.inl rfl))
  | rightBrace => exact hclosing (.inr (.inr rfl))
  | stringEnd => exact absurd rfl hkind
  | _ =>
    cases hfollow
    exact hmodes

/-- **One round.** -/
theorem step (h : s.Delimited) (hs : s.step = some s') : s'.Delimited := by
  cases round_of_step hs with
  | quote hmode _ =>
    obtain ⟨outer, houter⟩ := modes_of_string hmode
    refine h.content.concat outer (fun opened opened' hfollow hmodes => ?_) rfl ?_
    · cases hfollow
      rw [show s.content.modes = _ from houter] at hmodes
      exact hmodes
    · show s.modes.tail = outer
      rw [houter, List.tail_cons]
  | interpolation _ _ =>
    refine h.content.concat _ (fun opened opened' hfollow hmodes => ?_) rfl rfl
    cases hfollow
    exact congrArg (List.cons _) hmodes
  | unterminated hmode _ =>
    obtain ⟨outer, houter⟩ := modes_of_string hmode
    intro opened hopened
    have hmodes := h.content opened hopened
    rw [show s.content.modes = _ from houter] at hmodes
    show s.modes.tail.filter _ = _
    rw [houter]
    exact hmodes
  | token hmode _ hlexeme =>
    have hgap : s.skipGap.Delimited := h
    exact hgap.pass hmode (lexeme_kind hlexeme).2.1 _ _
  | skipped _ _ _ | stray _ _ _ => exact h

/-- **Newlines separate statements** where the innermost open delimiter is a brace or there is none. -/
theorem mode_eq_statements (h : s.Delimited) (hmode : ∀ n, s.mode ≠ .string n) {opened : List TokenKind}
    (hopened : Token.delimiters s.tokens.reverse = some opened) :
    s.mode = .statements ↔ ∀ k ∈ opened.head?, k = .leftBrace := by
  have hmodes := h opened hopened
  obtain hnil | ⟨m, outer, hcons, hm, hother⟩ := modes_of_other hmode
  · rw [hnil] at hmodes
    obtain rfl : opened = [] := List.map_eq_nil_iff.mp hmodes.symm
    rw [mode, hnil]
    exact ⟨fun _ _ hk => absurd hk (Option.not_mem_none _), fun _ => rfl⟩
  · rw [hcons, List.filter_cons_of_pos (by rw [hother]; rfl)] at hmodes
    cases opened with
    | nil => cases hmodes
    | cons k opened =>
      rw [hm, (List.cons.inj hmodes).1, TokenKind.mode_eq_statements]
      exact ⟨fun hk k' hk' => by cases hk'; exact hk, fun hall => hall k rfl⟩

end Delimited

end Lexer.State

end Protean
