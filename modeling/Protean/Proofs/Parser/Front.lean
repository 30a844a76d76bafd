import Protean.Proofs.Parser.Phrase

/-!
# Proofs — Parser — how phrases start

A reader goes by the next token or two, so what it reads depends on how phrases start and on how they
go on behind their first token.  An operation is a primary, and whatever follows it inside the operation
starts with a token of its own (`Operation.parts`).  Therefore names in front of a sign of assignment
start no operation that is an operand of the assignment (`Operation.not_destructuring`).

* `headKind`: the kind of the first token, and the end of the text if there is none.
* `continuesAccess`, `continuesOperation`, `opensCall`: tokens that go on with what has been read.
* `startsOperand`: tokens that operations start with.
* `Function.isTarget`, `isTarget_foldl`: what cannot be assigned to.
-/

namespace Protean

/-- A name or a field, to which something can be assigned. -/
def Expr.isTarget : Expr → Bool
  | .identifier .. | .field .. => true
  | _ => false

namespace Grammar

open Protean.Parser

/-! ### First tokens

The classes of tokens that phrases start with and go on with. -/

/-- The kind of the first token; without any there is only the end. -/
def headKind (ts : List Token) : TokenKind := (ts.head?.map Token.kind).getD .eof

@[simp] theorem headKind_cons (t : Token) (ts : List Token) : headKind (t :: ts) = t.kind := rfl

/-- If there are any tokens, it does not depend on what follows them. -/
theorem headKind_append {ts : List Token} (h : ts ≠ []) (us : List Token) :
    headKind (ts ++ us) = headKind ts := by
  obtain ⟨t, ts, rfl⟩ := List.exists_cons_of_ne_nil h
  rfl

/-- The kinds that an operand may start with. -/
def startsOperand : TokenKind → Bool
  | .identifier | .operator | .number | .stringStart | .leftBrace | .leftBracket | .leftParen => true
  | _ => false

/-- The kinds that arguments of a call may start with. -/
def opensCall : TokenKind → Bool
  | .leftParen | .leftBrace | .leftBracket => true
  | _ => false

/-- The kinds that go on with the access in front of them. -/
def continuesAccess : TokenKind → Bool
  | .dot => true
  | kind => opensCall kind

/-- The kinds that go on with the operation in front of them. -/
def continuesOperation : TokenKind → Bool
  | .identifier | .operator => true
  | kind => continuesAccess kind

/-- A token that opens a call goes on with an operation. -/
theorem continuesOperation_of_opens {kind : TokenKind} (h : opensCall kind = true) :
    continuesOperation kind = true := by
  cases kind <;> first | rfl | cases h

/-- What does not go on with an access opens no call. -/
theorem opens_eq_false {kind : TokenKind} (h : continuesAccess kind = false) :
    opensCall kind = false := by
  cases kind <;> first | rfl | cases h

/-- What does not go on with an operation does not go on with its last access. -/
theorem continuesAccess_eq_false {kind : TokenKind} (h : continuesOperation kind = false) :
    continuesAccess kind = false := by
  cases kind <;> first | rfl | cases h

/-- Tokens of a class are not tokens outside of it. -/
theorem ne_of_class {good : TokenKind → Bool} {kind other : TokenKind} (h : good kind = true)
    (hother : good other = false) : kind ≠ other := by
  rintro rfl
  exact Bool.false_ne_true (hother.symm.trans h)

section
variable {R : Phrase Expr} {ts us vs tail : List Token} {e e' : Expr}

/-- What starts with a token of a class that the end of the text is not in is not empty. -/
theorem ne_nil_of_headKind {good : TokenKind → Bool} (hgood : good .eof = false)
    (h : good (headKind ts) = true) : ts ≠ [] := by
  rintro rfl
  exact ne_of_class h hgood rfl

/-- Phrases one behind the other start as the first of them. -/
theorem Repeated.front {α : Type} {P : Phrase α} {as : List α} {good : TokenKind → Bool}
    (hgood : good .eof = false) (hP : ∀ ts a, P ts a → good (headKind ts) = true)
    (h : Repeated P ts as) : (ts = [] ∧ as = []) ∨ good (headKind ts) = true := by
  cases h with
  | nil => exact .inl ⟨rfl, rfl⟩
  | cons ha _ =>
    have hhead := hP _ _ ha
    rw [headKind_append (ne_nil_of_headKind hgood hhead)]
    exact .inr hhead

/-- Items with commas between them start like the first one. -/
theorem Separated.front {α : Type} {P : Phrase α} {as : List α} {good : TokenKind → Bool}
    (hgood : good .eof = false) (hP : ∀ ts a, P ts a → good (headKind ts) = true)
    (h : Separated P ts as) : good (headKind ts) = true := by
  cases h with
  | last ha => exact hP _ _ ha
  | more ha _ _ =>
    have hhead := hP _ _ ha
    rwa [headKind_append (ne_nil_of_headKind hgood hhead)]

theorem Decorator.front {d : String × Option String} (h : Decorator ts d) :
    startsOperand (headKind ts) = true := by
  cases h with
  | mark hname | text hname _ _ _ =>
    rw [headKind_cons, hname]
    rfl

/-- Functions start with their braces or with the bracket around their decorators. -/
theorem Function.front (h : Function R ts e) :
    headKind ts = .leftBrace ∨ headKind ts = .leftBracket := by
  obtain ⟨hremarks, hopen, -, -⟩ := h
  cases hremarks with
  | none => exact .inl hopen
  | empty hbracket _ => exact .inr hbracket
  | full hbracket _ _ => exact .inr hbracket

theorem Function.opens (h : Function R ts e) : opensCall (headKind ts) = true := by
  rcases h.front with hfront | hfront <;> rw [hfront] <;> rfl

theorem Parens.front {r : List (Argument Expr) × Span} (h : Parens R ts r) :
    headKind ts = .leftParen := by
  cases h with
  | empty hopen _ => exact hopen
  | full hopen _ _ _ => exact hopen

theorem Parens.opens {r : List (Argument Expr) × Span} (h : Parens R ts r) :
    opensCall (headKind ts) = true := by
  rw [h.front]
  rfl

/-- Arguments go on with a call, with or without parentheses. -/
theorem CallArgs.opens {a : Arguments} (h : CallArgs R ts a) :
    opensCall (headKind ts) = true := by
  cases h with
  | parens hparens _ =>
    rw [headKind_append (ne_nil_of_headKind rfl hparens.opens)]
    exact hparens.opens
  | functions hfunctions =>
    rcases hfunctions.front rfl fun _ _ hf => hf.opens with ⟨hnil, -⟩ | hfront
    · cases hnil
    · exact hfront

/-- Calls give something to which nothing can be assigned. -/
theorem Calls.front (h : Calls R e ts e') :
    (ts = [] ∧ e' = e) ∨ (opensCall (headKind ts) = true ∧ e'.isTarget = false) := by
  induction h with
  | nil => exact .inl ⟨rfl, rfl⟩
  | cons ha _ ih =>
    refine .inr ⟨ha.opens, ?_⟩
    rcases ih with ⟨-, rfl⟩ | ⟨-, htarget⟩
    · rfl
    · exact htarget

/-- What follows the calls of an access starts with a dot, if there is anything. -/
theorem Fields.front (h : Fields R e ts e') : (ts = [] ∧ e' = e) ∨ headKind ts = .dot := by
  cases h with
  | nil => exact .inl ⟨rfl, rfl⟩
  | field hdot _ _ => exact .inr hdot
  | send hdot _ _ _ _ => exact .inr hdot

/-- Primaries start with a token that operands start with. -/
theorem Primary.front (h : Primary R ts e) : startsOperand (headKind ts) = true := by
  cases h with
  | name hname => rcases hname with hkind | hkind <;> rw [headKind_cons, hkind] <;> rfl
  | number hkind => rw [headKind_cons, hkind]; rfl
  | string hkind _ => rw [headKind_cons, hkind]; rfl
  | function hfunction => rcases hfunction.front with hkind | hkind <;> rw [hkind] <;> rfl
  | bracket hkind _ _ => rw [List.cons_append, headKind_cons, hkind]; rfl

/-! ### Operations

An operation is a primary and what follows it. -/

/-- What follows the primary inside an operation starts with a token that goes on with it. -/
theorem Operation.parts (h : Operation ts e) : ∃ first rest e', ts = first ++ rest ∧
    Primary Operation first e' ∧
      ((rest = [] ∧ e = e') ∨ continuesOperation (headKind rest) = true) := by
  obtain ⟨@⟨_, operators, _, rights, @⟨first, calls, fields, e', called, _, hprimary, hcalls, hfields⟩,
    hrights⟩⟩ := h
  refine ⟨first, calls ++ fields ++ operators, e', by simp, hprimary, ?_⟩
  have hcontinues : ∀ ts us, continuesOperation (headKind ts) = true →
      continuesOperation (headKind (ts ++ us)) = true := by
    intro ts us hts
    rwa [headKind_append (ne_nil_of_headKind rfl hts)]
  rcases hcalls.front with ⟨rfl, rfl⟩ | ⟨hcalls, -⟩
  · rcases hfields.front with ⟨rfl, rfl⟩ | hdot
    · have hname : ∀ ts right, Operator (Access Operation) ts right →
          continuesOperation (headKind ts) = true := by
        rintro _ _ ⟨hname, -⟩
        rcases hname with hkind | hkind <;> rw [headKind_cons, hkind] <;> rfl
      rcases hrights.front rfl hname with ⟨rfl, rfl⟩ | hoperator
      · exact .inl ⟨rfl, rfl⟩
      · exact .inr hoperator
    · exact .inr (hcontinues fields operators (by rw [hdot]; rfl))
  · refine .inr (hcontinues _ operators (hcontinues _ fields ?_))
    exact continuesOperation_of_opens hcalls

theorem Operation.front (h : Operation ts e) : startsOperand (headKind ts) = true := by
  obtain ⟨first, rest, e', rfl, hfirst, -⟩ := h.parts
  rw [headKind_append (ne_nil_of_headKind rfl hfirst.front)]
  exact hfirst.front

theorem Operation.ne_nil (h : Operation ts e) : ts ≠ [] := ne_nil_of_headKind rfl h.front

/-- Expressions start like operations, for destructured names stand in parentheses. -/
theorem Expression.front (h : Expression Operation ts e) : startsOperand (headKind ts) = true := by
  cases h with
  | destructure hopen _ _ _ => rw [List.cons_append, headKind_cons, hopen]; rfl
  | bind htarget _ _ | store htarget _ _ =>
    rw [headKind_append htarget.ne_nil]
    exact htarget.front
  | operation he => exact he.front

/-! ### Names in front

A phrase that starts with a name goes on with one of few tokens, if it goes on at all. -/

/-- Arguments start like operations, for the name of an argument is an operator. -/
theorem Passed.front {arg : Argument Expr} (h : Passed Operation ts arg) :
    startsOperand (headKind ts) = true := by
  cases h with
  | named hname _ _ => rcases hname with hkind | hkind <;> rw [headKind_cons, hkind] <;> rfl
  | positional hvalue => exact hvalue.front

/-- A primary that starts with a name is the name. -/
theorem Primary.of_name (h : Primary R ts e)
    (hname : headKind ts = .identifier ∨ headKind ts = .operator) : ∃ t, ts = [t] := by
  cases h with
  | name _ => exact ⟨_, rfl⟩
  | number _ => exact ⟨_, rfl⟩
  | string hkind _ => simp [hkind] at hname
  | function hfunction => rcases hfunction.front with hkind | hkind <;> simp [hkind] at hname
  | bracket hkind _ _ => simp [hkind] at hname

/-- An operation that starts with a name is the name alone or goes on with one of few tokens. -/
theorem Operation.of_name (h : Operation ts e)
    (hname : headKind ts = .identifier ∨ headKind ts = .operator) :
    ∃ t us, ts = t :: us ∧ (us = [] ∨ continuesOperation (headKind us) = true) := by
  obtain ⟨first, rest, e', rfl, hfirst, hrest⟩ := h.parts
  rw [headKind_append (ne_nil_of_headKind rfl hfirst.front)] at hname
  obtain ⟨t, rfl⟩ := hfirst.of_name hname
  exact ⟨t, rest, rfl, hrest.imp_left And.left⟩

theorem Expression.of_name (h : Expression Operation ts e)
    (hname : headKind ts = .identifier ∨ headKind ts = .operator) :
    ∃ t us, ts = t :: us ∧
      (us = [] ∨ continuesOperation (headKind us) = true ∨ headKind us = .assign) := by
  cases h with
  | destructure hopen _ _ _ => simp [hopen] at hname
  | bind htarget hequals _ | store htarget hequals _ =>
    rw [headKind_append htarget.ne_nil] at hname
    obtain ⟨t, us, rfl, rfl | hus⟩ := htarget.of_name hname
    · exact ⟨t, _, rfl, .inr (.inr hequals)⟩
    · refine ⟨t, us ++ _, rfl, .inr (.inl ?_)⟩
      rwa [headKind_append (ne_nil_of_headKind rfl hus)]
  | operation he =>
    obtain ⟨t, us, rfl, hus⟩ := he.of_name hname
    exact ⟨t, us, rfl, hus.imp_right .inl⟩

/-- Names in parentheses in front of a sign of assignment start an operation only if it is a single name
in parentheses, to which nothing can be assigned. -/
theorem Operation.not_destructuring (h : Operation ts e) {lparen equals : Token}
    {names : List String} (hopen : lparen.kind = .leftParen) (hnames : Names us names)
    (hequals : equals.kind = .assign) (heq : ts ++ tail = lparen :: us ++ equals :: vs) :
    e.isTarget = false ∧ headKind tail = .assign := by
  -- the operation starts with a primary, which in front of a parenthesis can only be a bracket
  obtain ⟨first, rest, e', rfl, hfirst, hrest⟩ := h.parts
  have hhead : headKind first = .leftParen := by
    have hne := ne_nil_of_headKind rfl hfirst.front
    rw [← hopen, ← headKind_cons lparen (us ++ equals :: vs), ← List.cons_append, ← heq,
      List.append_assoc, headKind_append hne]
  obtain ⟨name, mark, more, rfl, hname, hmark⟩ : ∃ name mark more, us = name :: mark :: more ∧
      name.kind = .identifier ∧ (mark.kind = .comma ∨ (mark.kind = .rightParen ∧ more = [])) := by
    cases hnames with
    | last hname hclose => exact ⟨_, _, _, rfl, hname, .inr ⟨hclose, rfl⟩⟩
    | more hname hcomma _ => exact ⟨_, _, _, rfl, hname, .inl hcomma⟩
  cases hfirst with
  | name hkind => rcases hkind with hkind | hkind <;> simp [hkind] at hhead
  | number hkind => simp [hkind] at hhead
  | string hkind _ => simp [hkind] at hhead
  | function hfunction => rcases hfunction.front with hkind | hkind <;> simp [hkind] at hhead
  | @bracket _ rparen inner _ _ hinner hclose =>
    have hinside : inner ++ rparen :: (rest ++ tail) = name :: mark :: (more ++ equals :: vs) := by
      simpa using congrArg List.tail heq
    clear heq
    -- inside of the bracket there is an expression that starts with the first name
    obtain ⟨t, after, rfl⟩ := List.exists_cons_of_ne_nil (ne_nil_of_headKind rfl hinner.front)
    rw [List.cons_append] at hinside
    obtain ⟨rfl, hbehind⟩ := List.cons.inj hinside
    obtain ⟨_, _, hcons, hafter⟩ := hinner.of_name (.inl hname)
    obtain ⟨-, rfl⟩ := List.cons.inj hcons
    rcases after with _ | ⟨next, after⟩
    · -- The bracket holds the name alone, and `=` cannot go on with it.
      obtain ⟨rfl, hassign⟩ := List.cons.inj hbehind
      obtain ⟨-, rfl⟩ := hmark.resolve_left (by simp [hclose])
      rw [List.nil_append] at hassign
      rcases hrest with ⟨rfl, rfl⟩ | hrest
      · have htail : tail = equals :: vs := hassign
        exact ⟨rfl, htail ▸ hequals⟩
      · rw [← headKind_append (ne_nil_of_headKind rfl hrest) tail, hassign, headKind_cons,
          hequals] at hrest
        cases hrest
    -- with more inside of the bracket, the name would have to go on with a comma or a parenthesis
    · obtain ⟨rfl, -⟩ := List.cons.inj hbehind
      rcases hmark with hmark | ⟨hmark, -⟩ <;> simp [hmark, continuesOperation, continuesAccess, opensCall] at hafter

/-! ### Targets

Which phrases can be assigned to. -/

/-- What is built up from other expressions cannot be assigned to, if no step makes it so. -/
theorem isTarget_foldl {β : Type} {f : Expr → β → Expr} (hf : ∀ e b, (f e b).isTarget = false)
    {bs : List β} (hbs : bs ≠ []) (e : Expr) : (bs.foldl f e).isTarget = false := by
  obtain ⟨init, last, rfl⟩ := (List.eq_nil_or_concat bs).resolve_left hbs
  rw [List.concat_eq_append, List.foldl_append]
  exact hf _ _

/-- Every interpolation adds two parts. -/
theorem StringRest.parts_length {p : Pieces} {r : Pieces × Span} (h : StringRest R p ts r)
    (hp : p.parts.length ≠ 1) : r.1.parts.length ≠ 1 := by
  induction h with
  | stop _ => exact hp
  | content _ _ ih => exact ih hp
  | interpolation _ _ _ _ ih => exact ih (by simp [Pieces.addPart])

/-- A string with interpolations cannot be assigned to. -/
theorem isTarget_build {p : Pieces} (hp : p.parts.length ≠ 1) (span stop : Span) :
    (p.build span stop).isTarget = false := by
  unfold Pieces.build
  split
  · rfl
  · rename_i hne
    dsimp only
    split
    · rename_i first others hparts
      refine isTarget_foldl (fun _ _ => rfl) ?_ first
      rintro rfl
      have hlength := congrArg List.length hparts
      have hpos := List.length_pos_iff.mpr hne
      rw [List.length_reverse] at hlength
      split at hlength
      · exact hp hlength
      · simp at hlength
        exact hne hlength
    · rfl

theorem Function.isTarget (h : Function R ts e) : e.isTarget = false := by
  obtain ⟨-, -, -, -⟩ := h
  rfl

end

end Grammar

end Protean
