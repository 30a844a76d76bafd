import Mathlib.Data.List.TakeDrop
import Protean.Token.Lexer

/-!
# Proofs — Token — names and operators

What the lexer takes for a name or an operator can be written down again: a name is made of the
characters of names, and an operator of operator characters with no start of a comment among them, and
is not the sign of assignment (`ofText_sound`).

* `Lexer.isIdentifier_span`, `Lexer.operatorRun_spec`: what is taken off a text in front of a name or an operator.
* `State.Sound`: the invariant, which every way to make a token keeps.
-/

namespace Protean

namespace Token

/-- The start of a comment. -/
def startsComment : List Char → Bool
  | '/' :: '/' :: _ | '/' :: '*' :: _ => true
  | _ => false

/-- No comment starts anywhere. -/
def commentFree : List Char → Bool
  | [] => true
  | c :: cs => !startsComment (c :: cs) && commentFree cs

/-- A text that is read as one identifier. -/
def IsIdentifier (text : String) : Prop :=
  ∃ c cs, text.toList = c :: cs ∧ isNameStart c ∧ ∀ d ∈ cs, isNameChar d

/-- A text that is read as one operator. -/
def IsOperator (text : String) : Prop :=
  ∃ c cs, text.toList = c :: cs ∧ (∀ d ∈ c :: cs, isOperatorChar d) ∧ commentFree (c :: cs) ∧
    c :: cs ≠ ['=']

/-- The lexeme of a name is one. -/
def Sound (t : Token) : Prop :=
  (t.kind = .identifier → IsIdentifier t.lexeme) ∧ (t.kind = .operator → IsOperator t.lexeme)

end Token

namespace Lexer

open Token

/-- A comment starts with a slash and another one, or with a slash and a star. -/
theorem startsComment_eq_false {c : Char} {r : List Char} :
    startsComment (c :: r) = false ↔
      (∀ r', c = '/' → r ≠ '/' :: r') ∧ ∀ r', c = '/' → r ≠ '*' :: r' := by
  rw [startsComment.eq_def]
  split <;> simp_all

/-- A gap ends in front of no comment. -/
theorem startsComment_skip (statements : Bool) (gap : Gap) (offset : Nat) (cs : List Char) :
    startsComment (skip statements gap offset cs).2 = false := by
  fun_induction skip statements gap offset cs with
  | case1 => rfl
  | case5 _ _ _ hline hblock => exact startsComment_eq_false.mpr ⟨hline, hblock⟩
  | case6 _ c r hc => exact startsComment_eq_false.mpr (by simp_all)
  | _ => assumption

/-- An operator ends in front of a comment, and no comment starts inside of it. -/
theorem operatorRun_spec (c : Char) (cs : List Char) (hc : startsComment (c :: cs) = false) :
    (∀ d ∈ (operatorRun cs).1, isOperatorChar d) ∧ commentFree (c :: (operatorRun cs).1) := by
  induction cs generalizing c with
  | nil => exact ⟨nofun, by simp [operatorRun, commentFree, startsComment]⟩
  | cons d cs ih =>
    rw [operatorRun.eq_def]
    split
    case _ | _ => exact ⟨nofun, by simp [commentFree, startsComment]⟩
    case _ d' cs' hline hblock heq =>
      obtain ⟨rfl, rfl⟩ := List.cons.inj heq
      by_cases hd : isOperatorChar d
      · obtain ⟨hall, hfree⟩ := ih d (startsComment_eq_false.mpr ⟨hline, hblock⟩)
        simp only [hd, if_true]
        refine ⟨List.forall_mem_cons.mpr ⟨hd, hall⟩, ?_⟩
        rw [commentFree, hfree, Bool.and_true, Bool.not_eq_true', startsComment_eq_false]
        obtain ⟨h₁, h₂⟩ := startsComment_eq_false.mp hc
        exact ⟨fun r' hs he => h₁ _ hs (by rw [(List.cons.inj he).1]),
          fun r' hs he => h₂ _ hs (by rw [(List.cons.inj he).1])⟩
      · simp only [hd]
        exact ⟨nofun, by simp [commentFree, startsComment]⟩
    case _ => exact ⟨nofun, by simp [commentFree, startsComment]⟩

namespace State

/-- All tokens found so far are sound. -/
def Sound (s : State) : Prop := ∀ t ∈ s.tokens, t.Sound

/-- A token that is a name or an operator as it should be joins the others. -/
theorem Sound.emit {s : State} (hs : s.Sound) {kind : TokenKind} {taken : List Char} {span : Span}
    (hi : kind = .identifier → IsIdentifier (String.ofList taken))
    (ho : kind = .operator → IsOperator (String.ofList taken)) :
    ∀ t ∈ (⟨kind, String.ofList taken, span⟩ : Token) :: s.tokens, t.Sound :=
  List.forall_mem_cons.mpr ⟨⟨hi, ho⟩, hs⟩

theorem Sound.stringPart {s : State} (hs : s.Sound) (openedAt : Nat) :
    (s.stringPart openedAt).Sound := by
  have hcontent : ∀ k : Chunk, ∀ t ∈ (if k.offset = s.offset then s.tokens
      else ⟨.stringContent, String.ofList k.text, ⟨s.offset, k.offset⟩⟩ :: s.tokens), t.Sound := by
    intro k
    exact iteInduction (motive := fun tokens : List Token => ∀ t ∈ tokens, t.Sound) (fun _ => hs)
      fun _ => hs.emit nofun nofun
  rw [State.stringPart]
  split
  · exact List.forall_mem_cons.mpr ⟨⟨nofun, nofun⟩, hcontent _⟩
  · exact List.forall_mem_cons.mpr ⟨⟨nofun, nofun⟩, hcontent _⟩
  · exact hcontent _

/-- Characters of names from one on that names may start with are a name. -/
theorem isIdentifier_span {c : Char} (r : List Char) (hc : isNameStart c) :
    IsIdentifier (String.ofList ((c :: r).span isNameChar).1) := by
  have hname : isNameChar c := by
    simp only [isNameStart, isNameChar, Char.isAlphanum, Bool.or_eq_true] at hc ⊢
    exact hc.imp_left .inl
  rw [List.span_eq_takeWhile_dropWhile, List.takeWhile_cons_of_pos hname]
  exact ⟨c, r.takeWhile isNameChar, String.toList_ofList .., hc,
    List.all_eq_true.mp List.all_takeWhile⟩

/-- Outside of strings, what is taken for a name or an operator is one. -/
theorem Sound.scan {s : State} (hs : s.Sound) {c : Char} {r : List Char}
    (hc : startsComment (c :: r) = false) : (s.scan c r).Sound := by
  have hsymbol : ∀ {p : Prop} [Decidable p] {kind : TokenKind} {taken rest : List Char}
      {modes : List Mode} {other : State}, kind ≠ .identifier → kind ≠ .operator → other.Sound →
        (if p then { s.emit kind taken rest with modes := modes } else other).Sound := by
    intro p _ kind taken rest modes other hi ho hother
    exact iteInduction (motive := Sound) (fun _ => hs.emit (absurd · hi) (absurd · ho)) fun _ => hother
  rw [State.scan]
  refine iteInduction (motive := Sound) (fun _ => ?_) fun _ => ?_
  · split
    · exact hs
    · exact hs
    · exact hs.emit nofun nofun
  refine iteInduction (motive := Sound) (fun hname => ?_) fun _ => ?_
  · exact hs.emit (fun _ => isIdentifier_span r hname) nofun
  iterate 12 refine hsymbol nofun nofun ?_
  refine iteInduction (motive := Sound) (fun hop => ?_) fun _ => hs
  obtain ⟨hall, hfree⟩ := operatorRun_spec c r hc
  refine hs.emit (fun hk => ?_) fun hk => ?_
  · split at hk <;> cases hk
  · split at hk
    · cases hk
    · rename_i hassign
      refine ⟨c, (operatorRun r).1, String.toList_ofList .., ?_, hfree, fun he => hassign ?_⟩
      · exact List.forall_mem_cons.mpr ⟨hop, hall⟩
      · exact List.cons.inj he

theorem Sound.run {fuel : Nat} {s : State} (hs : s.Sound) : (run fuel s).Sound := by
  have hfinish : ∀ s : State, s.Sound → s.finish.Sound := by
    intro s hs
    rw [finish]
    split
    · exact Sound.emit (s := s.report _ _) hs nofun nofun
    · exact hs.emit nofun nofun
  induction fuel generalizing s with
  | zero => exact hfinish s hs
  | succ fuel ih =>
    rw [State.run]
    split
    · exact ih (hs.stringPart _)
    · simp only
      split
      · exact hfinish _ hs
      · rename_i c r hrest
        refine ih (Sound.scan (s := s.skipGap) hs ?_)
        have hskip := startsComment_skip (s.mode == .statements) .plain s.offset s.rest
        rwa [show (skip (s.mode == .statements) .plain s.offset s.rest).2 = c :: r from hrest] at hskip

end State

end Lexer

/-- **All names and operators of a text are sound.** -/
theorem Token.ofText_sound (text : String) : ∀ t ∈ (Token.ofText text).tokens, t.Sound := by
  have hstart : (Lexer.State.start text.toList).Sound := nofun
  intro t ht
  exact hstart.run t (List.mem_reverse.mp ht)

end Protean
