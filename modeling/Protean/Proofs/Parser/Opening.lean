import Protean.Proofs.Parser.Reading

/-!
# Proofs — Parser — how expressions start

The readers look ahead twice: an argument is named if a name and `=` stand in front of it, and an
expression is a destructuring assignment if it starts like one.  Printed operands are not taken for
either, as only a dot or arguments follow a name that an operand starts with (`Opening`).
-/

namespace Protean

namespace Parser

open Protean.Expr (Printable shapes)

variable {ts us tail : List Shape} {t : Shape} {e : Expr}

/-! ### How the tokens of an expression start

In three ways: with a name that stands alone, with a name and what goes on with it, or with another token. -/

/-- The tokens start with a name and perhaps something that can follow it, or with no name at all.
Only an assignment has `=` behind the name. -/
inductive Opening (assigned : Bool) : List Shape → Prop where
  | name {t : Shape} (h : t.1 = .identifier ∨ t.1 = .operator) : Opening assigned [t]
  | named {t t' : Shape} {ts : List Shape} (h : t.1 = .identifier ∨ t.1 = .operator)
      (h' : t'.1 = .dot ∨ t'.1 = .leftParen ∨ t'.1 = .assign ∧ assigned = true) :
      Opening assigned (t :: t' :: ts)
  | other {t : Shape} {ts : List Shape}
      (h : t.1 ∈ [TokenKind.number, .stringStart, .leftBrace, .leftBracket, .leftParen]) :
      Opening assigned (t :: ts)

namespace Opening

variable {assigned : Bool}

/-- What is known to start in some way has a start. -/
theorem ne_nil (h : Opening assigned ts) : ts ≠ [] := by
  cases h <;> simp

/-- What does not start an expression. -/
theorem front_ne (h : Opening assigned ts) : ∀ kind ∈ [TokenKind.newline, .semicolon, .rightParen,
    .rightBrace, .eof], front ts ≠ kind := by
  have hname : ∀ kind, kind = TokenKind.identifier ∨ kind = .operator → kind ∉
      [TokenKind.newline, .semicolon, .rightParen, .rightBrace, .eof] := by
    rintro kind (rfl | rfl) <;> decide
  have hother : ∀ kind ∈ [TokenKind.number, .stringStart, .leftBrace, .leftBracket, .leftParen],
      kind ∉ [TokenKind.newline, .semicolon, .rightParen, .rightBrace, .eof] := by
    decide
  rintro kind hkind rfl
  cases h with
  | name h => exact hname _ h hkind
  | named h _ => exact hname _ h hkind
  | other h => exact hother _ h hkind

/-- An operand goes on with a dot or with arguments. -/
theorem append (h : Opening false ts) (ht : t.1 = .dot ∨ t.1 = .leftParen) :
    Opening assigned (ts ++ t :: us) := by
  cases h with
  | name h => exact .named h (ht.imp_right .inl)
  | named h h' => exact .named h (h'.imp_right fun h' => .inl (h'.resolve_right (by simp)))
  | other h => exact .other h

end Opening

/-- Printed expressions start like operands, and those that are assignments are told from the others. -/
theorem opening (he : e.Every Printable) : Opening e.isAssignment e.shapes := by
  -- a tree starts like its leftmost part
  induction he with
  | @identifier a name h => exact .name (nameShape_kind name)
  | @literal a value h =>
    cases value with
    | number x => exact .other (by simp)
    | string text => exact .other (by simp)
  | bracket h _ _ => exact .other (by decide)
  | field h _ ih =>
    rw [h.1.1] at ih
    exact ih.append (.inl rfl)
  | call h _ _ _ ih _ _ =>
    rw [h.1.1] at ih
    rw [shapes, List.append_assoc]
    exact ih.append (.inr rfl)
  | send h _ _ _ ih _ _ =>
    rw [h.1.1] at ih
    rw [shapes, List.append_assoc]
    exact ih.append (.inl rfl)
  | bind h _ _ => exact .named (nameShape_kind _) (.inr (.inr ⟨rfl, rfl⟩))
  | store h _ _ ih _ =>
    rw [h.1.1] at ih
    exact ih.append (.inl rfl)
  | destructure h _ _ => exact .other (by simp)
  | @function a decorators parameters body h _ _ =>
    rcases decorators with _ | ⟨d, ds⟩
    · cases body <;> exact .other (by simp)
    · cases body <;> exact .other (by simp)
  | builtin h => exact absurd h.1 id

/-- An operand in the place of an argument is not taken for a named one. -/
theorem not_named (h : Opening false ts) (htail : front tail ≠ .assign) {s : State}
    (hs : s.shapes = ts ++ tail) : s.atNamedArgument = false := by
  -- what operands start with, names apart
  have hother : ∀ kind ∈ [TokenKind.number, .stringStart, .leftBrace, .leftBracket, .leftParen],
      (kind == .identifier || kind == .operator) = false := by
    decide
  cases h with
  -- behind the name there is the token that follows the operand
  | name h =>
    obtain ⟨token, r, hrest, -, htokens⟩ := List.map_eq_cons_iff.mp hs
    have hsecond : (s.rest[1]?.map Token.kind == some .assign) = false := by
      rw [hrest]
      cases r with
      | nil => rfl
      | cons second r =>
        rw [show tail = _ from htokens.symm] at htail
        simpa [Token.shape] using htail
    rw [State.atNamedArgument, hsecond, Bool.and_false]
  -- behind the name there is a dot or a parenthesis of the same operand
  | named h h' =>
    obtain ⟨token, r, hrest, -, htokens⟩ := List.map_eq_cons_iff.mp hs
    obtain ⟨second, r, rfl, rfl, -⟩ := List.map_eq_cons_iff.mp htokens
    have hsecond : (s.rest[1]?.map Token.kind == some .assign) = false := by
      rw [hrest]
      rcases h' with h' | h' | ⟨_, h'⟩
      · simp [show second.kind = .dot from h']
      · simp [show second.kind = .leftParen from h']
      · cases h'
    rw [State.atNamedArgument, hsecond, Bool.and_false]
  | other h =>
    rw [State.atNamedArgument, State.atName, show s.kind = _ from State.kind_eq hs, hother _ h,
      Bool.false_and]

/-- An expression in parentheses is not taken for the names of an assignment. -/
theorem destructuredNames_bracket {assigned : Bool} (h : Opening assigned ts)
    (htail : front tail ≠ .assign) {tokens : List Token} {closer : String}
    (htokens : tokens.map Token.shape = ts ++ (.rightParen, closer) :: tail) :
    destructuredNames tokens = none := by
  cases h with
  -- the bracket is closed behind the name, and no sign of assignment follows
  | name h =>
    obtain ⟨token, r, rfl, -, hr⟩ := List.map_eq_cons_iff.mp htokens
    obtain ⟨mark, r, rfl, hmark, rfl⟩ := List.map_eq_cons_iff.mp hr
    have hmark : mark.kind = .rightParen := congrArg Prod.fst hmark
    have hnext : r.head?.map Token.kind ≠ some .assign := by
      cases r with
      | nil => simp
      | cons next r => simpa [Token.shape] using htail
    simp [destructuredNames, hmark, hnext]
  -- what goes on behind the name is no token of a list of names
  | named h h' =>
    obtain ⟨token, r, rfl, -, hr⟩ := List.map_eq_cons_iff.mp htokens
    obtain ⟨mark, r, rfl, rfl, -⟩ := List.map_eq_cons_iff.mp hr
    rcases h' with h' | h' | ⟨h', -⟩
    · simp [destructuredNames, show mark.kind = .dot from h']
    · simp [destructuredNames, show mark.kind = .leftParen from h']
    · simp [destructuredNames, show mark.kind = .assign from h']
  -- the first token is no name to begin with
  | other h =>
    obtain ⟨token, r, rfl, rfl, -⟩ := List.map_eq_cons_iff.mp htokens
    have hkind : token.kind ≠ .identifier := by
      intro hkind
      rw [show token.shape.1 = .identifier from hkind] at h
      exact absurd h (by decide)
    cases r with
    | nil => rfl
    | cons mark r => simp [destructuredNames, hkind]

/-- An operand is not taken for a destructuring assignment. -/
theorem not_destructuring (he : e.Every Printable) (ha : e.isAssignment = false)
    (htail : front tail ≠ .assign) {s : State} (hs : s.shapes = e.shapes ++ tail) :
    s.destructuring? = none := by
  have hother : front s.shapes ≠ .leftParen → s.destructuring? = none := by
    intro hfront
    rw [State.destructuring?, if_neg (by rwa [State.kind_eq_front])]
  induction he generalizing tail with
  | @identifier a name h =>
    refine hother ?_
    rw [hs]
    exact nameShape_ne name (by decide) (by decide)
  | @literal a value h =>
    refine hother ?_
    rw [hs]
    cases value <;> simp [shapes, Lexer.textShapes]
  | @bracket a inner h hinner _ =>
    obtain ⟨token, r, hrest, -, htokens⟩ := List.map_eq_cons_iff.mp hs
    -- a single name in parentheses would need `=` behind them
    have hnames : destructuredNames r = none :=
      destructuredNames_bracket (opening hinner) htail (htokens.trans (List.append_assoc _ _ _))
    rw [State.destructuring?, hrest, List.tail_cons, hnames, ite_self]
  | field h _ ih =>
    rw [shapes, List.append_assoc] at hs
    exact ih h.1.1 (by simp) hs
  | call h _ _ _ ih _ _ =>
    rw [shapes, List.append_assoc, List.append_assoc] at hs
    exact ih h.1.1 (by simp) hs
  | send h _ _ _ ih _ _ =>
    rw [shapes, List.append_assoc, List.append_assoc] at hs
    exact ih h.1.1 (by simp) hs
  | @function a decorators parameters body h _ _ =>
    refine hother ?_
    rw [hs]
    rcases decorators with _ | ⟨d, ds⟩
    · cases body <;> simp [shapes, Decorators.shapes]
    · cases body <;> simp [shapes, Decorators.shapes]
  | builtin h => exact absurd h.1 id
  | _ => cases ha

end Parser

end Protean
