import Protean.Number.Text
import Protean.Proofs.Token.Reading

/-!
# Proofs — Token — numbers and the end of a text

What the lexer takes for a number can be read as one, whatever follows it in the text, and the tokens
of a text are followed by the only token of kind `eof` (`Token.ofText_spec`).

* `Lexer.numberRun_reads`, `Lexer.legible_number`: what is taken off a text in front of a digit.
* `Token.Inner`, `State.Inner`: the tokens in front of the end, none of which is an end.
* `Token.ofText_legible`: the lexer makes no number that the parser would have to complain about.
-/

namespace Protean

namespace Lexer

open Number

/-! ### Numbers

The lexer takes digits off the text, then a fraction and an exponent if there are any.  Each part is one that
the reader of numbers accepts. -/

/-- Digits, at least one. -/
def Digits (cs : List Char) : Prop := cs ≠ [] ∧ ∀ c ∈ cs, c.isDigit = true

theorem digits_span {c : Char} (r : List Char) (hc : c.isDigit = true) :
    Digits ((c :: r).span Char.isDigit).1 := by
  rw [List.span_eq_takeWhile_dropWhile]
  refine ⟨?_, List.all_eq_true.mp List.all_takeWhile⟩
  rw [List.takeWhile_cons_of_pos hc]
  exact List.cons_ne_nil _ _

/-- What may stand behind the `e` of a number. -/
theorem readExponent?_isSome {ds : List Char} (hds : Digits ds) :
    (readExponent? ds).isSome = true ∧ (readExponent? ('+' :: ds)).isSome = true ∧
      (readExponent? ('-' :: ds)).isSome = true := by
  obtain ⟨hne, hall⟩ := hds
  have hdigits : ds ≠ [] ∧ ds.all Char.isDigit = true := ⟨hne, List.all_eq_true.mpr hall⟩
  refine ⟨?_, by simp [readExponent?, hdigits], by simp [readExponent?, hdigits]⟩
  obtain ⟨d, ds, rfl⟩ := List.exists_cons_of_ne_nil hne
  have hd := hall d List.mem_cons_self
  rw [readExponent?.eq_def]
  split
  rename_i negative digits hmatch
  split at hmatch
  · rename_i hcons
    cases hcons
    cases hd
  · rename_i hcons
    cases hcons
    cases hd
  · cases hmatch
    rw [if_pos hdigits]
    rfl

/-- A fraction is nothing, or a dot with digits behind it. -/
theorem fractionRun_cases (cs : List Char) :
    (fractionRun cs).1 = [] ∨ ∃ ds, Digits ds ∧ (fractionRun cs).1 = '.' :: ds := by
  rw [fractionRun.eq_def]
  split
  · rename_i d r
    by_cases hd : d.isDigit = true
    · rw [if_pos hd]
      exact .inr ⟨_, digits_span r hd, rfl⟩
    · rw [if_neg hd]
      exact .inl rfl
  · exact .inl rfl

/-- An exponent is nothing, or has a number behind its letter. -/
theorem exponentRun_cases (cs : List Char) :
    (exponentRun cs).1 = [] ∨ ∃ e ds, (e = 'e' ∨ e = 'E') ∧ (exponentRun cs).1 = e :: ds ∧
      (readExponent? ds).isSome = true := by
  rw [exponentRun.eq_def]
  split
  · rename_i e sign d r
    by_cases he : e = 'e' ∨ e = 'E'
    · rw [if_pos he]
      -- a digit right behind the letter, or a sign and a digit behind it
      by_cases hsign : sign.isDigit = true
      · rw [if_pos hsign]
        exact .inr ⟨e, _, he, rfl, (readExponent?_isSome (digits_span (d :: r) hsign)).1⟩
      · rw [if_neg hsign]
        by_cases hd : (sign = '+' ∨ sign = '-') ∧ d.isDigit = true
        · rw [if_pos hd]
          refine .inr ⟨e, _, he, rfl, ?_⟩
          obtain ⟨-, hplus, hminus⟩ := readExponent?_isSome (digits_span r hd.2)
          rcases hd.1 with rfl | rfl
          · exact hplus
          · exact hminus
        · rw [if_neg hd]
          exact .inl rfl
    · rw [if_neg he]
      exact .inl rfl
  -- with two characters left there is no room for a sign
  · rename_i e d
    by_cases hd : (e = 'e' ∨ e = 'E') ∧ d.isDigit = true
    · rw [if_pos hd]
      have hdigits : Digits [d] := ⟨List.cons_ne_nil d [], List.forall_mem_singleton.mpr hd.2⟩
      exact .inr ⟨e, [d], hd.1, rfl, (readExponent?_isSome hdigits).1⟩
    · rw [if_neg hd]
      exact .inl rfl
  · exact .inl rfl

/-- Digits, a fraction and an exponent can be read as a number. -/
theorem readUnsigned?_isSome {whole fraction exponent : List Char} (hw : Digits whole)
    (hf : fraction = [] ∨ ∃ ds, Digits ds ∧ fraction = '.' :: ds)
    (he : exponent = [] ∨ ∃ e ds, (e = 'e' ∨ e = 'E') ∧ exponent = e :: ds ∧
      (readExponent? ds).isSome = true) :
    (readUnsigned? (whole ++ fraction ++ exponent)).isSome = true := by
  -- neither the letter of an exponent nor the dot of a fraction is a digit, so the parts are found again
  have hstop : ∀ c ∈ exponent.head?, c.isDigit = false := by
    intro c hc
    rcases he with rfl | ⟨e, ds, rfl | rfl, rfl, -⟩ <;> cases hc <;> rfl
  have hwhole : (whole ++ fraction ++ exponent).span Char.isDigit = (whole, fraction ++ exponent) := by
    rw [List.append_assoc]
    refine span_append hw.2 fun c hc => ?_
    rcases hf with rfl | ⟨ds, -, rfl⟩
    · exact hstop c hc
    · cases hc
      rfl
  rw [readUnsigned?, hwhole]
  rcases hf with rfl | ⟨ds, hds, rfl⟩
  · rcases he with rfl | ⟨e, ds, rfl | rfl, rfl, hread⟩
    · simp [hw.1]
    · simpa [hw.1] using hread
    · simpa [hw.1] using hread
  · simp only [List.cons_append, span_append hds.2 hstop, if_neg hw.1, Option.isSome_map]
    rcases he with rfl | ⟨e, ds, he, rfl, hread⟩
    · rfl
    · simp only [if_pos he, hread]

theorem numberRun_reads {c : Char} (integerOnly : Bool) (r : List Char) (hc : c.isDigit = true) :
    (numberRun integerOnly (c :: r)).1.head? = some c ∧
      (readUnsigned? (numberRun integerOnly (c :: r)).1).isSome = true := by
  have hwhole := digits_span r hc
  have hstart : ((c :: r).span Char.isDigit).1 = c :: (r.takeWhile Char.isDigit) := by
    rw [List.span_eq_takeWhile_dropWhile, List.takeWhile_cons_of_pos hc]
  cases integerOnly with
  | true =>
    refine ⟨congrArg List.head? hstart, ?_⟩
    have hread := readUnsigned?_isSome hwhole (.inl rfl) (.inl rfl)
    rwa [List.append_nil, List.append_nil] at hread
  | false =>
    refine ⟨?_, readUnsigned?_isSome hwhole (fractionRun_cases _) (exponentRun_cases _)⟩
    show (((c :: r).span Char.isDigit).1 ++ _ ++ _).head? = some c
    rw [hstart]
    rfl

end Lexer

/-! ### Whole texts

The invariant of a run: no token found so far is an end, and all numbers among them can be read. -/

namespace Token

/-- A number can be read as one. -/
def Legible (t : Token) : Prop := t.kind = .number → (Number.read? t.lexeme).isSome = true

/-- A token inside of a text. -/
def Inner (t : Token) : Prop := t.kind ≠ .eof ∧ t.Legible

variable {kind : TokenKind} {lexeme : String} {span : Span}

/-- A token that is neither a number nor the end. -/
theorem Inner.of_kind (h : kind ≠ .eof ∧ kind ≠ .number) : (mk kind lexeme span).Inner :=
  ⟨h.1, (absurd · h.2)⟩

theorem Inner.of_read (h : (Number.read? lexeme).isSome = true) :
    (mk .number lexeme span).Inner := ⟨TokenKind.noConfusion, fun _ => h⟩

end Token

namespace Lexer

open Token Number

/-- The number may have a minus in front of it. -/
theorem legible_number {c : Char} (integerOnly : Bool) (r : List Char) (hc : c.isDigit = true) :
    (read? (String.ofList (numberRun integerOnly (c :: r)).1)).isSome = true ∧
      (read? (String.ofList ('-' :: (numberRun integerOnly (c :: r)).1))).isSome = true := by
  obtain ⟨hhead, hread⟩ := numberRun_reads integerOnly r hc
  rw [read?, read?, String.toList_ofList, String.toList_ofList]
  refine ⟨?_, by simpa using hread⟩
  split
  · rename_i hcons
    rw [hcons] at hhead
    cases hhead
    cases hc
  · exact hread

namespace State

/-- All tokens found so far stand inside of the text. -/
def Inner (s : State) : Prop := ∀ t ∈ s.tokens, t.Inner

theorem Inner.cons {s : State} (hs : s.Inner) {t : Token} (ht : t.Inner) :
    ∀ u ∈ t :: s.tokens, u.Inner := List.forall_mem_cons.mpr ⟨ht, hs⟩

/-- The parts of strings are neither numbers nor the end. -/
theorem Inner.stringPart {s : State} (hs : s.Inner) (openedAt : Nat) :
    (s.stringPart openedAt).Inner := by
  have hcontent : ∀ k : Chunk, ∀ t ∈ (if k.offset = s.offset then s.tokens
      else ⟨.stringContent, String.ofList k.text, ⟨s.offset, k.offset⟩⟩ :: s.tokens), t.Inner := by
    intro k
    exact iteInduction (motive := fun tokens : List Token => ∀ t ∈ tokens, t.Inner) (fun _ => hs)
      fun _ => hs.cons (.of_kind (by decide))
  rw [State.stringPart]
  split
  · exact List.forall_mem_cons.mpr ⟨.of_kind (by decide), hcontent _⟩
  · exact List.forall_mem_cons.mpr ⟨.of_kind (by decide), hcontent _⟩
  · exact hcontent _

/-- Outside of strings, what is taken for a number can be read. -/
theorem Inner.scan {s : State} (hs : s.Inner) (c : Char) (r : List Char) : (s.scan c r).Inner := by
  have hsymbol : ∀ {p : Prop} [Decidable p] {kind : TokenKind} {taken rest : List Char}
      {modes : List Mode} {other : State}, kind ≠ .eof ∧ kind ≠ .number → other.Inner →
        (if p then { s.emit kind taken rest with modes := modes } else other).Inner := by
    intro p _ kind taken rest modes other hkind hother
    exact iteInduction (motive := Inner) (fun _ => hs.cons (.of_kind hkind)) fun _ => hother
  rw [State.scan]
  refine iteInduction (motive := Inner) (fun _ => ?_) fun _ => ?_
  · split
    · exact hs
    · exact hs
    · exact hs.cons (.of_kind (by decide))
  refine hsymbol (by decide) ?_
  refine iteInduction (motive := Inner) (fun hdigit => ?_) fun _ => ?_
  · exact hs.cons (.of_read (legible_number _ r hdigit).1)
  refine iteInduction (motive := Inner) (fun hminus => ?_) fun _ => ?_
  · obtain ⟨rfl, hdigit, -⟩ := hminus
    cases r with
    | nil => cases hdigit
    | cons d r => exact hs.cons (.of_read (legible_number false r hdigit).2)
  iterate 10 refine hsymbol (by decide) ?_
  refine iteInduction (motive := Inner) (fun _ => hs.cons (.of_kind ?_)) fun _ => hs
  split <;> decide

/-- The end stands behind all other tokens. -/
theorem Inner.run {fuel : Nat} {s : State} (hs : s.Inner) : ∃ eof tokens,
    (run fuel s).tokens = eof :: tokens ∧ eof.kind = .eof ∧ ∀ t ∈ tokens, t.Inner := by
  have hfinish : ∀ s : State, s.Inner → ∃ eof tokens,
      s.finish.tokens = eof :: tokens ∧ eof.kind = .eof ∧ ∀ t ∈ tokens, t.Inner := by
    intro s hs
    rw [finish]
    split
    · exact ⟨_, _, rfl, rfl, hs⟩
    · exact ⟨_, _, rfl, rfl, hs⟩
  induction fuel generalizing s with
  | zero => exact hfinish s hs
  | succ fuel ih =>
    rw [State.run]
    split
    · exact ih (hs.stringPart _)
    · simp only
      split
      · exact hfinish _ hs
      · rename_i c r _
        exact ih (Inner.scan (s := s.skipGap) hs c r)

end State

end Lexer

/-- **The tokens of a text are followed by the end**, which stands nowhere else, and all numbers among
them can be read. -/
theorem Token.ofText_spec (text : String) : ∃ tokens eof,
    (Token.ofText text).tokens = tokens ++ [eof] ∧ eof.kind = .eof ∧ ∀ t ∈ tokens, t.Inner := by
  have hstart : (Lexer.State.start text.toList).Inner := fun t ht => absurd ht List.not_mem_nil
  obtain ⟨eof, tokens, hrun, heof, htokens⟩ := hstart.run
  refine ⟨tokens.reverse, eof, ?_, heof, fun t ht => htokens t (List.mem_reverse.mp ht)⟩
  rw [ofText, hrun, List.reverse_cons]

theorem Token.ofText_legible (text : String) : ∀ t ∈ (ofText text).tokens, t.Legible := by
  obtain ⟨inner, eof, htokens, heof, hinner⟩ := ofText_spec text
  rw [htokens, List.forall_mem_append, List.forall_mem_singleton]
  refine ⟨fun t ht => (hinner t ht).2, fun hnumber => ?_⟩
  rw [heof] at hnumber
  cases hnumber

end Protean
