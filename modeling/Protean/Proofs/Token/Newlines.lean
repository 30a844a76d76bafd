import Protean.Proofs.Token.Modes

/-!
# Proofs — Token — which newlines make tokens

A newline that stands outside of strings and comments makes a token if statements are separated there and a token
that is no newline stands in front of it.

* A run passes over every character in one of its rounds (`State.Reaches.passing`).  In a string that round makes
  content of it (`State.inString_of_mode`).
* Outside of strings no token goes on with a newline, so the gap in front of the next token reaches up to it
  (`State.skipGap_reaches`), and beyond it where newlines are blanks.  Whether a comment is open there is known from
  what stands behind the last token, which is the invariant `State.Spaced`: the lexer may have stopped in between, at
  characters that make no token.
* So the mode at the newline decides (`State.Reaches.newline_iff`), and that is the mode inside of the innermost
  delimiter (`State.Delimited.mode_eq_statements`).
-/

namespace Protean

open Lexer

/-! ### Strings and comments

Whether the lexer stands in a string is told from its modes.  Whether it stands in a comment is told from what
it has passed since the last token, for a comment is no token. -/

namespace Token

/-- The offset lies in the content of a string. -/
def InString (ts : List Token) (offset : Nat) : Prop :=
  ∃ t ∈ ts, t.kind = .stringContent ∧ t.span.start ≤ offset ∧ offset < t.span.stop

instance (ts : List Token) (offset : Nat) : Decidable (InString ts offset) :=
  inferInstanceAs (Decidable (∃ t ∈ ts, t.kind = .stringContent ∧ t.span.start ≤ offset ∧ offset < t.span.stop))

/-- Where the last of the tokens ends. -/
def lastStop (ts : List Token) : Nat := (ts.getLast?.map fun t => t.span.stop).getD 0

/-- Behind `before`, of which `ts` are the tokens, a block comment is open.  Comments are what stands behind the last
token. -/
def InComment (ts : List Token) (before : List Char) : Prop :=
  ∃ front gap, before = front ++ gap ∧ Text.byteLength front = lastStop ts ∧ (Gap.plain.atEnd gap).isBlock = true

/-- There is one way only to cut off what stands behind the last token. -/
theorem inComment_iff {ts : List Token} {front gap : List Char} (hfront : Text.byteLength front = lastStop ts) :
    InComment ts (front ++ gap) ↔ (Gap.plain.atEnd gap).isBlock = true := by
  refine ⟨?_, fun hblock => ⟨front, gap, rfl, hfront, hblock⟩⟩
  rintro ⟨front', gap', hsplit, hfront', hblock⟩
  have hnil (cs : List Char) (hcs : Text.byteLength cs = 0) : cs = [] := by
    by_contra hne
    exact (Text.byteLength_pos hne).ne' hcs
  obtain ⟨beyond, rfl, rfl⟩ | ⟨beyond, rfl, rfl⟩ := List.append_eq_append_iff.mp hsplit
  · rw [Text.byteLength_append] at hfront'
    obtain rfl := hnil beyond (by omega)
    exact hblock
  · rw [Text.byteLength_append] at hfront
    obtain rfl := hnil beyond (by omega)
    exact hblock

end Token

namespace Lexer

/-! ### Gaps in pieces

The lexer may stop inside of a gap, at a character that it reports.  What is passed over then is passed over
in pieces, and the pieces make the gap. -/

/-- Characters in front of a text start like the text. -/
theorem head?_of_prefix {front cs : List Char} (h : front <+: cs) : front = [] ∨ front.head? = cs.head? := by
  obtain ⟨rest, rfl⟩ := h
  cases front with
  | nil => exact .inl rfl
  | cons c front => exact .inr rfl

/-- Where passing over a gap stops, at a character that makes no token, it goes on behind it from the beginning. -/
theorem skip_resumes (statements : Bool) : ∀ (gap : Gap) (offset : Nat) (cs : List Char) {c : Char} {r : List Char},
    (skip statements gap offset cs).2 = c :: r → ∃ passed, cs = passed ++ c :: r ∧
      ∀ front, front <+: r → gap.atEnd (passed ++ c :: front) = Gap.plain.atEnd front
  | gap, offset, [], c, r, h => by
      rw [skip_nil] at h
      cases h
  | gap, offset, d :: ds, c, r, h => by
      rw [skip_cons] at h
      cases hpair : ds.head?.bind (gap.pair d) with
      | some gap' =>
        rw [hpair] at h
        cases ds with
        | nil => cases hpair
        | cons e es =>
          obtain ⟨passed, rfl, hpassed⟩ := skip_resumes statements gap' (offset + 2) es h
          refine ⟨d :: e :: passed, rfl, fun front hfront => ?_⟩
          have hpair' : gap.pair d e = some gap' := hpair
          rw [List.cons_append, List.cons_append, Gap.atEnd, hpair']
          exact hpassed front hfront
      | none =>
        rw [hpair] at h
        dsimp only at h
        split at h
        · rename_i hends
          cases h
          refine ⟨[], rfl, fun front hfront => ?_⟩
          have hnone : front.head?.bind (gap.pair d) = none := by
            obtain rfl | hhead := head?_of_prefix hfront
            · rfl
            · rw [hhead, hpair]
          have hsingle : gap.single d = .plain := by
            cases gap with
            | plain => rfl
            | line =>
              rw [Gap.single, if_pos (Bool.and_eq_true_iff.mp hends).1]
            | block depth => cases hends
          rw [List.nil_append, Gap.atEnd_cons, hnone]
          exact congrArg (Gap.atEnd · front) hsingle
        · obtain ⟨passed, rfl, hpassed⟩ := skip_resumes statements (gap.single d) _ ds h
          refine ⟨d :: passed, rfl, fun front hfront => ?_⟩
          have hnone : (passed ++ c :: front).head?.bind (gap.pair d) = none := by
            rw [← hpair]
            cases passed <;> rfl
          rw [List.cons_append, Gap.atEnd_cons, hnone]
          exact hpassed front hfront
termination_by _ _ cs => cs.length
decreasing_by all_goals (subst_vars; simp only [List.length_cons]; omega)

/-- Where newlines are blanks, no gap stops at one. -/
theorem skip_ne_newline (gap : Gap) (offset : Nat) (cs r : List Char) :
    (skip false gap offset cs).2 ≠ '\n' :: r := by
  fun_induction skip false gap offset cs with
  | case1 => exact (List.cons_ne_nil _ _).symm
  | case5 offset c cs _ _ hc =>
    intro heq
    cases heq
    exact hc (by decide)
  | case6 offset c cs hc => contradiction
  | _ => assumption

/-! ### Where a character is passed over

Every character of a text is passed over in some round: as part of a token, of a gap or of the content of a
string, or as one that is reported. -/

/-- What `mark` does not hold stands in front of it. -/
theorem exists_append_of_not_mem {c : Char} {front after taken mark : List Char}
    (h : front ++ c :: after = taken ++ mark) (hmark : c ∉ mark) : ∃ between, taken = front ++ c :: between := by
  obtain ⟨between, rfl, hafter⟩ | ⟨between, rfl, rfl⟩ := List.append_eq_append_iff.mp h
  · cases between with
    | nil =>
      obtain rfl : c :: after = mark := hafter
      exact absurd List.mem_cons_self hmark
    | cons d between =>
      obtain ⟨rfl, -⟩ := List.cons.inj hafter
      exact ⟨between, rfl⟩
  · exact absurd (List.mem_append_right between List.mem_cons_self) hmark

namespace State

variable {s s' t : State}

/-- A run goes on behind each of its rounds. -/
theorem Reaches.next (h : Reaches s t) (hend : t.step = none) (hs : s.step = some s') : Reaches s' t := by
  cases h with
  | refl => cases hend.symm.trans hs
  | step hs' h => exact Option.some.inj (hs'.symm.trans hs) ▸ h

/-- What has been found is found. -/
theorem Reaches.tokens_subset (h : Reaches s t) (hend : t.step = none) : s.tokens ⊆ t.skipGap.finish.tokens := by
  obtain ⟨later, hlater, -⟩ := Lays.of_reaches h hend (List.Subset.refl _)
  intro x hx
  rw [← List.mem_reverse, hlater]
  exact List.mem_append_left _ (List.mem_reverse.mpr hx)

/-- Every character is in front of some state of a run, behind whose round, if there is one, it is not. -/
theorem Reaches.passing (h : Reaches s t) (hend : t.step = none) {before after : List Char} {c : Char}
    (hrest : s.rest = before ++ c :: after) : ∃ u front, Reaches s u ∧ Reaches u t ∧
      u.rest = front ++ c :: after ∧ u.offset + Text.byteLength front = s.offset + Text.byteLength before ∧
        ∀ u', u.step = some u' → u'.rest <:+ after := by
  induction h generalizing before with
  | refl s => exact ⟨s, before, .refl s, .refl s, hrest, rfl, fun u' hu' => nomatch hend.symm.trans hu'⟩
  | @step s s' t hs hreaches ih =>
    obtain ⟨passed, hpassed, hoffset⟩ := step_passes hs
    obtain ⟨beyond, hbeyond, hafter⟩ | ⟨front, rfl, hfront⟩ :=
      List.append_eq_append_iff.mp (hrest.symm.trans hpassed)
    · cases beyond with
      | nil =>
        have hnext : s'.rest = [] ++ c :: after := hafter.symm
        obtain ⟨u, front, hsu, hut, hu, hbytes, hlast⟩ := ih hend hnext
        refine ⟨u, front, .step hs hsu, hut, hu, ?_, hlast⟩
        rw [hbytes, hoffset, hbeyond, List.append_nil]
        rfl
      | cons d beyond =>
        refine ⟨s, before, .refl s, .step hs hreaches, hrest, rfl, fun u' hu' => ?_⟩
        obtain rfl := Option.some.inj (hs.symm.trans hu')
        exact ⟨beyond, (List.cons.inj hafter).2.symm⟩
    · obtain ⟨u, front', hsu, hut, hu, hbytes, hlast⟩ := ih hend hfront
      refine ⟨u, front', .step hs hsu, hut, hu, ?_, hlast⟩
      rw [hbytes, hoffset, Text.byteLength_append, Nat.add_assoc]

/-! ### What is open in a gap

The invariant says what the lexer has passed since its last token, so that the comments which are open at a
character can be read off the text. -/

/-- Behind the last token of `cs` stands a gap that reaches up to the state, and outside of comments. -/
structure Spaced (cs : List Char) (s : State) : Prop where
  stops : ∀ t ∈ s.tokens, t.span.stop ≤ s.offset
  gap : ∃ front gap, cs = front ++ (gap ++ s.rest) ∧
    Text.byteLength front = Token.lastStop s.tokens.reverse ∧ Text.byteLength (front ++ gap) = s.offset ∧
      ∀ r, r <+: s.rest → Gap.plain.atEnd (gap ++ r) = Gap.plain.atEnd r

namespace Spaced

variable {cs : List Char}

/-- At its start the lexer has not passed anything. -/
theorem start (cs : List Char) : (start cs).Spaced cs where
  stops := nofun
  gap := ⟨[], [], rfl, rfl, rfl, fun _ _ => rfl⟩

/-- Behind a token there is no gap yet. -/
theorem add {t : Token} (h : s.Spaced cs) (hpasses : Passes s.offset s.rest s'.offset s'.rest)
    (htokens : s'.tokens = t :: s.tokens) (hstop : t.span.stop = s'.offset) : s'.Spaced cs := by
  obtain ⟨front, gap, rfl, -, hoffset, -⟩ := h.gap
  obtain ⟨taken, hrest, htaken⟩ := hpasses
  have hbytes : Text.byteLength (front ++ gap ++ taken) = s'.offset := by
    rw [Text.byteLength_append, hoffset, htaken]
  refine ⟨?_, front ++ gap ++ taken, [], ?_, ?_, ?_, fun _ _ => rfl⟩
  · rw [htokens]
    exact List.forall_mem_cons.mpr ⟨hstop.le, fun t ht => (h.stops t ht).trans (htaken ▸ Nat.le_add_right _ _)⟩
  · rw [hrest]
    simp
  · rw [hbytes, htokens, Token.lastStop, List.getLast?_reverse]
    exact hstop.symm
  · rwa [List.append_nil]

theorem content (h : s.Spaced cs) : s.content.Spaced cs := by
  obtain ⟨hrest, hoffset, htokens⟩ | ⟨_, _, -, -, -, htokens⟩ := s.content_cases
  · constructor
    · rw [htokens, hoffset]
      exact h.stops
    · rw [hrest, hoffset, htokens]
      exact h.gap
  · exact h.add s.content_passes htokens rfl

/-- A character without a token becomes part of the gap. -/
theorem drop {c : Char} {r : List Char} (h : s.Spaced cs) (hrest : s.skipGap.rest = c :: r)
    (hpasses : Passes s.offset s.rest s'.offset r) (hs' : s'.rest = r) (htokens : s'.tokens = s.tokens) :
    s'.Spaced cs := by
  obtain ⟨front, gap, rfl, hfront, hoffset, hgap⟩ := h.gap
  obtain ⟨taken, hsplit, htaken⟩ := hpasses
  obtain ⟨passed, hpassed, hresumes⟩ := skip_resumes _ .plain s.offset s.rest hrest
  have hcover : taken = passed ++ [c] := by
    refine List.append_cancel_right (hsplit.symm.trans (hpassed.trans ?_))
    rw [List.append_assoc]
    rfl
  refine ⟨?_, front, gap ++ taken, ?_, htokens ▸ hfront, ?_, fun piece hpiece => ?_⟩
  · rw [htokens, htaken]
    exact fun t ht => (h.stops t ht).trans (Nat.le_add_right _ _)
  · rw [hs', hsplit, List.append_assoc]
  · rw [← List.append_assoc, Text.byteLength_append, hoffset, htaken]
  · rw [hs'] at hpiece
    have hprefix : taken ++ piece <+: s.rest := by
      rw [hsplit]
      exact (List.prefix_append_right_inj taken).mpr hpiece
    rw [List.append_assoc, hgap _ hprefix, hcover, List.append_assoc]
    exact hresumes piece hpiece

/-- **One round.** -/
theorem step (h : s.Spaced cs) (hs : s.step = some s') : s'.Spaced cs := by
  have hpasses := step_passes hs
  cases round_of_step hs with
  | quote _ hrest => exact h.content.add (hrest ▸ .append _ ['"'] _) rfl rfl
  | interpolation _ hrest => exact h.content.add (hrest ▸ .append _ ['$', '\x7b'] _) rfl rfl
  | unterminated _ _ => exact ⟨h.content.stops, h.content.gap⟩
  | token _ _ _ => exact h.add hpasses rfl rfl
  | skipped _ hrest _ => exact h.drop hrest hpasses rfl rfl
  | stray _ hrest _ => exact h.drop hrest hpasses rfl rfl

/-- No comment is open at the end of a gap where none is open in the text. -/
theorem isBlock_eq_false {before gap after : List Char} (h : s.Spaced (before ++ after))
    (hrest : s.rest = gap ++ after) (hnone : ¬ Token.InComment s.tokens.reverse before) :
    (Gap.plain.atEnd gap).isBlock = false := by
  obtain ⟨front, gap', hcs, hfront, -, hgap⟩ := h.gap
  rw [hrest, ← List.append_assoc, ← List.append_assoc] at hcs
  rw [List.append_cancel_right hcs, List.append_assoc, Token.inComment_iff hfront,
    hgap gap (hrest ▸ List.prefix_append gap after)] at hnone
  exact Bool.eq_false_iff.mpr hnone

end Spaced

/-! ### One newline

All of it for one newline: the state in whose round it is passed over decides whether there is a token for it. -/

variable {gap after : List Char}

/-- A newline in front of what ends the content lies in the content. -/
theorem inString_content {mark r : List Char} (hrest : s.rest = gap ++ '\n' :: after)
    (hmark : s.content.rest = mark ++ r) (hnot : '\n' ∉ mark) (hr : r <:+ after) :
    Token.InString s.content.tokens (s.offset + Text.byteLength gap) := by
  obtain ⟨taken, hsplit, htaken⟩ := s.content_passes
  obtain ⟨x, rfl⟩ := hr
  have hwhole : gap ++ '\n' :: x ++ r = taken ++ mark ++ r := by
    rw [List.append_assoc, List.append_assoc, ← hmark, ← hsplit, hrest]
    rfl
  obtain ⟨y, rfl⟩ := exists_append_of_not_mem (List.append_cancel_right hwhole) hnot
  rw [Text.byteLength_append, Text.byteLength, ← Nat.add_assoc] at htaken
  have hpos := Char.utf8Size_pos '\n'
  obtain ⟨-, hempty, -⟩ | ⟨_, _, -, -, -, htokens⟩ := s.content_cases
  · omega
  · refine ⟨_, htokens ▸ List.mem_cons_self, rfl, Nat.le_add_right _ _, ?_⟩
    show _ < s.content.offset
    omega

/-- A newline that is passed over inside of quotes lies in the content. -/
theorem inString_of_mode {n : Nat} (hmode : s.mode = .string n) (hrest : s.rest = gap ++ '\n' :: after)
    (hs : s.step = some s') (hafter : s'.rest <:+ after) :
    Token.InString s'.tokens (s.offset + Text.byteLength gap) := by
  cases round_of_step hs with
  | quote _ hquote =>
    have hquote : s.content.rest = ['"'] ++ _ := hquote
    obtain ⟨t, ht, hin⟩ := inString_content hrest hquote (by decide) hafter
    exact ⟨t, List.mem_cons_of_mem _ ht, hin⟩
  | interpolation _ hmark =>
    have hmark : s.content.rest = ['$', '\x7b'] ++ _ := hmark
    obtain ⟨t, ht, hin⟩ := inString_content hrest hmark (by decide) hafter
    exact ⟨t, List.mem_cons_of_mem _ ht, hin⟩
  | unterminated _ hnil =>
    have hnil : s.content.rest = [] ++ [] := hnil
    exact inString_content hrest hnil List.not_mem_nil List.nil_suffix
  | token hother _ _ | skipped hother _ _ | stray hother _ _ => exact absurd hmode (hother n)

/-- No newline starts behind what has been found and in front of what is left. -/
theorem Lays.no_newline {errors : List LexicalError} {stream : List Token} {offset : Nat} (h : s.Lays errors stream)
    (hstops : ∀ x ∈ s.tokens, x.span.stop ≤ offset) (hlt : offset < s.offset)
    (hfilled : ∀ x ∈ stream, x.kind = .newline → x.span.start < x.span.stop) :
    ¬ ∃ x ∈ stream, x.kind = .newline ∧ x.span.start = offset := by
  rintro ⟨x, hx, hkind, hstart⟩
  have hpos := hfilled x hx hkind
  obtain ⟨later, rfl, hlaid⟩ := h
  obtain hfound | hleft := List.mem_append.mp hx
  · have hstop := hstops x (List.mem_reverse.mp hfound)
    omega
  · have hle := hlaid.ordered.1 x hleft
    omega

section
variable (hmode : ∀ n, s.mode ≠ .string n)
include hmode

variable (hrest : s.rest = gap ++ '\n' :: after) (hlast : ∀ s', s.step = some s' → s'.rest <:+ after)
include hrest hlast

/-- Outside of strings the gap reaches up to a newline that is passed over, since no token goes on with one. -/
theorem skipGap_reaches : ∃ beyond, '\n' :: after = beyond ++ s.skipGap.rest ∧
    s.skipGap.offset = s.offset + Text.byteLength gap + Text.byteLength beyond := by
  obtain ⟨passed, hpassed, hoffset⟩ := s.skipGap_passes
  obtain ⟨beyond, rfl, hbeyond⟩ | ⟨front, rfl, hfront⟩ := List.append_eq_append_iff.mp (hrest.symm.trans hpassed)
  · exact ⟨beyond, hbeyond, by rw [hoffset, Text.byteLength_append, Nat.add_assoc]⟩
  · cases front with
    | nil => exact ⟨[], hfront.symm, by rw [hoffset, List.append_nil]; rfl⟩
    | cons c front =>
      -- a token that starts in front of the newline would leave it
      have hfront : s.skipGap.rest = c :: (front ++ '\n' :: after) := hfront
      have hstep := hlast _ (step_eq_take hmode hfront)
      rw [lexeme_append] at hstep
      have hleft : '\n' :: after <:+ (s.skipGap.take c (front ++ '\n' :: after)
          ((lexeme s.lastKind c front).extend ('\n' :: after))).rest := by
        cases lexeme s.lastKind c front with
        | token kind taken rest => exact ⟨rest, rfl⟩
        | skipped | stray => exact ⟨front, rfl⟩
      have hlength := (hleft.trans hstep).length_le
      rw [List.length_cons] at hlength
      omega

/-- Where statements are separated and no comment is open, the gap stops at the newline, elsewhere behind it. -/
theorem skipGap_newline (hblock : (Gap.plain.atEnd gap).isBlock = false) :
    if s.mode = .statements then
      s.skipGap.rest = '\n' :: after ∧ s.skipGap.offset = s.offset + Text.byteLength gap
    else s.offset + Text.byteLength gap < s.skipGap.offset := by
  obtain ⟨beyond, hbeyond, hoffset⟩ := skipGap_reaches hmode hrest hlast
  split
  · rename_i hstatements
    have hskip : s.skipGap.rest = (skip true .plain s.offset (gap ++ '\n' :: after)).2 := by
      rw [skipGap, hstatements, hrest]
      rfl
    rw [skip_append after true .plain s.offset gap (.inr ⟨rfl, hblock⟩)] at hskip
    -- the newline ends the gap, for it is passed over only where it is a blank
    have hnil : beyond = [] := by
      have hlength := congrArg List.length hbeyond
      rw [hskip, List.length_append, List.length_append] at hlength
      exact List.length_eq_zero_iff.mp (by omega)
    rw [hnil] at hbeyond hoffset
    exact ⟨hbeyond.symm, hoffset⟩
  · rename_i hother
    -- where it is a blank, the gap goes on behind it
    have hne : beyond ≠ [] := by
      rintro rfl
      have hskip : s.skipGap.rest = (skip false .plain s.offset s.rest).2 := by
        rw [skipGap, beq_eq_false_iff_ne.mpr hother]
      exact skip_ne_newline .plain s.offset s.rest after (hskip.symm.trans hbeyond.symm)
    have hpos := Text.byteLength_pos hne
    omega

/-- What has been found in front of a newline is what ends there. -/
theorem Reaches.front_eq (h : Reaches s t) (hend : t.step = none)
    (hstops : ∀ x ∈ s.tokens, x.span.stop ≤ s.offset) :
    t.skipGap.finish.tokens.reverse.filter (fun x => x.span.stop ≤ s.offset + Text.byteLength gap) =
      s.tokens.reverse := by
  -- what is found later stands behind the gap that reaches up to the newline
  obtain ⟨beyond, hbeyond, hoffset⟩ := skipGap_reaches hmode hrest hlast
  obtain ⟨later, hlater, hlaid⟩ := Lays.skipGap_of_reaches hmode h hend (List.Subset.refl _)
  obtain ⟨inner, hinner, hfilled⟩ := hlaid.ends
  have hbytes := congrArg Text.byteLength hbeyond
  rw [Text.byteLength_append, Text.byteLength] at hbytes
  have hpos := Char.utf8Size_pos '\n'
  -- so no later token ends in front of the newline, and all earlier ones do
  have hbehind : ∀ x ∈ later, ¬ x.span.stop ≤ s.offset + Text.byteLength gap := by
    intro x hx
    have hstart := hlaid.ordered.1 x hx
    rw [hinner] at hx
    obtain hx | hx := List.mem_append.mp hx
    · have hlt := (hfilled x hx).2
      omega
    · obtain rfl := List.mem_singleton.mp hx
      show ¬ s.skipGap.offset + Text.byteLength s.skipGap.rest ≤ _
      omega
  have hnone : later.filter (fun x => x.span.stop ≤ s.offset + Text.byteLength gap) = [] :=
    List.filter_eq_nil_iff.mpr fun x hx => by
      rw [decide_eq_true_eq]
      exact hbehind x hx
  rw [hlater, List.filter_append, hnone, List.append_nil]
  exact List.filter_eq_self.mpr fun x hx =>
    decide_eq_true ((hstops x (List.mem_reverse.mp hx)).trans (Nat.le_add_right _ _))

/-- **A newline** makes a token where statements are separated and another token is in front of it. -/
theorem Reaches.newline_iff (h : Reaches s t) (hend : t.step = none)
    (hstops : ∀ x ∈ s.tokens, x.span.stop ≤ s.offset)
    (hfilled : ∀ x ∈ t.skipGap.finish.tokens.reverse, x.kind = .newline → x.span.start < x.span.stop)
    (hblock : (Gap.plain.atEnd gap).isBlock = false) :
    (∃ x ∈ t.skipGap.finish.tokens.reverse,
        x.kind = .newline ∧ x.span.start = s.offset + Text.byteLength gap) ↔
      s.mode = .statements ∧ ∃ x ∈ s.tokens.head?, x.kind ≠ .newline := by
  have hreaches := skipGap_newline hmode hrest hlast hblock
  replace hstops : ∀ x ∈ s.tokens, x.span.stop ≤ s.offset + Text.byteLength gap :=
    fun x hx => (hstops x hx).trans (Nat.le_add_right _ _)
  -- inside of statements the gap in front of the next token ends at the newline
  by_cases hstatements : s.mode = .statements
  · rw [if_pos hstatements] at hreaches
    obtain ⟨hnewline, hoffset⟩ := hreaches
    have hnext := h.next hend (step_eq_take hmode hnewline)
    -- a newline that is skipped makes no token, and none is made of it later
    have hquiet (hlexeme : lexeme s.lastKind '\n' after = .skipped) :
        ¬ ∃ x ∈ t.skipGap.finish.tokens.reverse,
          x.kind = .newline ∧ x.span.start = s.offset + Text.byteLength gap := by
      rw [hlexeme] at hnext
      refine (Lays.of_reaches hnext hend (List.Subset.refl _)).no_newline hstops ?_ hfilled
      exact hoffset ▸ Nat.lt_succ_self s.skipGap.offset
    cases htokens : s.tokens with
    | nil =>
      refine iff_of_false (hquiet (by rw [lastKind, htokens]; rfl)) ?_
      rintro ⟨-, x, hx, -⟩
      cases hx
    -- the newline is skipped behind another one, and makes a token behind anything else
    | cons x front =>
      have hkind : s.lastKind = some x.kind := by
        rw [lastKind, htokens]
        rfl
      by_cases hnl : x.kind = .newline
      · refine iff_of_false (hquiet (by rw [hkind, hnl]; rfl)) ?_
        rintro ⟨-, x', hx', hne⟩
        cases hx'
        exact hne hnl
      · rw [hkind, lexeme_newline_behind hnl] at hnext
        have hmem := hnext.tokens_subset hend List.mem_cons_self
        exact iff_of_true ⟨_, List.mem_reverse.mpr hmem, rfl, hoffset⟩ ⟨hstatements, x, rfl, hnl⟩
  -- where newlines are blanks, the gap goes on behind the newline
  · rw [if_neg hstatements] at hreaches
    have hlays := Lays.skipGap_of_reaches hmode h hend (List.Subset.refl _)
    exact iff_of_false (hlays.no_newline hstops hreaches hfilled) fun hboth => hstatements hboth.1

end

end State

end Lexer

namespace Token

/-- **Quotes match** in a text without errors. -/
theorem quotes_of_errors {text : String} (herrors : (ofText text).errors = []) :
    quotes (ofText text).tokens = some [] := by
  obtain ⟨t, hreaches, hend⟩ := State.exists_reaches (.start text.toList)
  rw [ofText_of_reaches hreaches hend] at herrors ⊢
  have hquoted := hreaches.invariant (fun _ _ => State.Quoted.step) (.start text.toList)
  exact hquoted.finish hend (List.reverse_eq_nil_iff.mp herrors)

/-- All tokens but the last hold a byte. -/
theorem ofText_filled (text : String) : ∀ x ∈ (ofText text).tokens, x.kind ≠ .eof → x.span.start < x.span.stop := by
  obtain ⟨inner, hinner, hfilled⟩ := (ofText_laid text).ends
  rw [hinner]
  refine List.forall_mem_append.mpr ⟨fun x hx _ => (hfilled x hx).2, ?_⟩
  exact List.forall_mem_singleton.mpr fun heof => absurd rfl heof

end Token

/-- **The modes keep track of what is open.**  In a text without errors the quotes match: each closing quote belongs
to the latest that is open, and none is left open.  Where the other delimiters match up to every token, a newline
outside of strings and comments makes a token if and only if the innermost delimiter that is open there, if there is
one, is a brace, and a token stands in front of it that is no newline. -/
theorem modes_track_nesting (text : String) :
    let out := Token.ofText text
    (out.errors = [] → Token.quotes out.tokens = some []) ∧
      ((Token.delimiters out.tokens).isSome = true → ∀ before after, text.toList = before ++ '\n' :: after →
        let offset := Text.byteLength before
        let front := out.tokens.filter fun t => t.span.stop ≤ offset
        ¬ Token.InString out.tokens offset → ¬ Token.InComment front before →
          ((∃ t ∈ out.tokens, t.kind = .newline ∧ t.span.start = offset) ↔
            (∃ opened, Token.delimiters front = some opened ∧ ∀ kind ∈ opened.head?, kind = .leftBrace) ∧
              ∃ t ∈ front.getLast?, t.kind ≠ .newline)) := by
  intro out
  refine ⟨Token.quotes_of_errors, ?_⟩
  intro hdelimiters before after htext offset front hstring hcomment
  obtain ⟨t, hreaches, hend⟩ := State.exists_reaches (.start text.toList)
  have htokens : out.tokens = t.skipGap.finish.tokens.reverse :=
    congrArg Tokens.tokens (Token.ofText_of_reaches hreaches hend)
  have hwhole : (State.start text.toList).rest = before ++ '\n' :: after := htext
  obtain ⟨s, gap, hto, hfrom, hrest, hoffset, hlast⟩ := hreaches.passing hend hwhole
  replace hoffset : s.offset + Text.byteLength gap = offset := hoffset.trans (Nat.zero_add _)
  have hmode : ∀ n, s.mode ≠ .string n := by
    intro n hmode
    have hs : s.step = some (s.stringPart n) := by rw [State.step, hmode]
    obtain ⟨x, hx, hin⟩ := State.inString_of_mode hmode hrest hs (hlast _ hs)
    refine hstring ⟨x, ?_, hoffset ▸ hin⟩
    rw [htokens]
    exact List.mem_reverse.mpr ((hfrom.next hend hs).tokens_subset hend hx)
  -- what has been found at the newline is what ends in front of it, and no comment is open there
  have hspaced := hto.invariant (fun _ _ h hs => State.Spaced.step h hs) (.start text.toList)
  have hfront : front = s.tokens.reverse := by
    have heq := hfrom.front_eq hmode hrest hlast hend hspaced.stops
    rwa [hoffset, ← htokens] at heq
  rw [hfront] at hcomment ⊢
  have hblock := State.Spaced.isBlock_eq_false (htext ▸ hspaced) hrest hcomment
  have hfilled : ∀ x ∈ out.tokens, x.kind = .newline → x.span.start < x.span.stop := fun x hx hkind =>
    Token.ofText_filled text x hx (by rw [hkind]; decide)
  have hiff := hfrom.newline_iff hmode hrest hlast hend hspaced.stops (htokens ▸ hfilled) hblock
  rw [hoffset, ← htokens] at hiff
  -- the mode there is the one of the innermost delimiter
  have hdelimited := hto.invariant (fun _ _ => State.Delimited.step) (.start text.toList)
  obtain ⟨opened, hopened⟩ : ∃ opened, Token.delimiters s.tokens.reverse = some opened := by
    obtain ⟨later, hlater, -⟩ := State.Lays.of_reaches hfrom hend (List.Subset.refl _)
    rw [htokens, hlater] at hdelimiters
    exact Token.delimiters_prefix hdelimiters
  have hstatements := hdelimited.mode_eq_statements hmode hopened
  rw [List.getLast?_reverse, hopened]
  simp only [Option.some.injEq, exists_eq_left']
  rw [← hstatements]
  exact hiff

/-- The first newline of the text stands inside of parentheses, the second behind the string that holds them. -/
theorem modes_track_nesting_interpolation :
    let out := Token.ofText "\"$\x7b(1,\n2)\x7d\"\nx"
    Token.quotes out.tokens = some [] ∧ (¬ ∃ t ∈ out.tokens, t.kind = .newline ∧ t.span.start = 6) ∧
      ∃ t ∈ out.tokens, t.kind = .newline ∧ t.span.start = 11 := by
  intro out
  obtain ⟨hquotes, hnewlines⟩ := modes_track_nesting "\"$\x7b(1,\n2)\x7d\"\nx"
  have hdelimiters : (Token.delimiters out.tokens).isSome = true := by decide +kernel
  refine ⟨hquotes (by decide +kernel), fun hnewline => ?_, ?_⟩
  · have hlast : Token.lastStop (out.tokens.filter fun t => t.span.stop ≤ 6) = 6 := by decide +kernel
    have hcomment := @Token.inComment_iff _ "\"$\x7b(1,".toList [] hlast.symm
    have hiff := hnewlines hdelimiters "\"$\x7b(1,".toList "2)\x7d\"\nx".toList (by decide +kernel)
      (by decide +kernel) fun h => nomatch hcomment.mp h
    obtain ⟨⟨opened, hopened, hbrace⟩, -⟩ := hiff.mp hnewline
    have hparen : Token.delimiters (out.tokens.filter fun t => t.span.stop ≤ 6) =
        some [.leftParen, .interpolationStart] := by decide +kernel
    cases hparen.symm.trans hopened
    cases hbrace _ rfl
  · have hlast : Token.lastStop (out.tokens.filter fun t => t.span.stop ≤ 11) = 11 := by decide +kernel
    have hcomment := @Token.inComment_iff _ "\"$\x7b(1,\n2)\x7d\"".toList [] hlast.symm
    have hiff := hnewlines hdelimiters "\"$\x7b(1,\n2)\x7d\"".toList ['x'] (by decide +kernel)
      (by decide +kernel) fun h => nomatch hcomment.mp h
    have hquote : ∃ t ∈ (out.tokens.filter fun t => t.span.stop ≤ 11).getLast?, t.kind ≠ .newline := by
      decide +kernel
    exact hiff.mpr ⟨⟨[], by decide +kernel, nofun⟩, hquote⟩

end Protean
