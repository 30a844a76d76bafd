import Protean.Proofs.Parser.Phrase
import Protean.Proofs.Token.Joined

/-!
# Proofs — Parser — delimiters match

The lexer leaves the innermost mode at any closer, whatever opened it; that openers and closers match is
for the grammar to say.  Tokens are *balanced* (`Token.Balanced`) when behind them as many delimiters are
open as in front of them, however many these are.  All phrases are: each construct that opens a delimiter
closes it, and what stands between is balanced.  So a program ends outside of all delimiters
(`Program.nesting_eq_zero`).

`Operation` is the least phrase that is closed under its own construction (`Operation.least`), so what is
shown of each construct, over any operations that have the property, holds of all.

* `Token.nesting`: how many delimiters are open behind tokens, when so many are open in front of them.
* `Token.Balanced`: tokens that leave this number as it is, with rules for tokens one after the other.
* `StringRest.nesting_eq`: what follows the opening quote of a string closes one delimiter more than it opens.
* `Operation.balanced`: and with that the knot is tied.
-/

namespace Protean

/-! ### Balanced tokens

What it is for tokens to be balanced, and the rules for tokens one after the other. -/

/-- The kinds that neither open nor close anything. -/
def TokenKind.isNeutral : TokenKind → Bool
  | .identifier | .operator | .number | .stringContent | .comma | .dot | .semicolon | .assign | .newline
  | .eof => true
  | _ => false

/-- Tokens that are no delimiters leave the number of open ones as it is. -/
theorem TokenKind.nesting_neutral {kind : TokenKind} (h : kind.isNeutral = true) (opened : Nat) :
    kind.nesting opened = opened := by
  cases kind <;> first | rfl | cases h

namespace Token

/-- Behind the tokens as many delimiters are open as in front of them. -/
def Balanced (ts : List Token) : Prop := ∀ opened, nesting ts opened = opened

/-- Tokens one after the other open and close delimiters one after the other. -/
theorem nesting_append (ts us : List Token) (opened : Nat) :
    nesting (ts ++ us) opened = nesting us (nesting ts opened) := List.foldl_append

namespace Balanced

variable {ts us : List Token} {t opener closer : Token}

theorem nil : Balanced [] := fun _ => rfl

/-- Balanced tokens one after the other are balanced. -/
theorem append (hts : Balanced ts) (hus : Balanced us) : Balanced (ts ++ us) := fun opened => by
  rw [nesting_append, hts, hus]

/-- A token that is no delimiter may stand in front of balanced ones. -/
theorem cons (ht : t.kind.isNeutral = true) (hts : Balanced ts) : Balanced (t :: ts) := fun opened =>
  (congrArg (nesting ts) (TokenKind.nesting_neutral ht opened)).trans (hts opened)

theorem neutral (hts : ∀ t ∈ ts, t.kind.isNeutral = true) : Balanced ts := by
  induction ts with
  | nil => exact nil
  | cons t ts ih =>
    obtain ⟨ht, hts⟩ := List.forall_mem_cons.mp hts
    exact cons ht (ih hts)

/-- What stands between an opener and a closer, and behind it. -/
theorem enclose (hopener : ∀ opened, opener.kind.nesting opened = opened + 1)
    (hcloser : ∀ opened, closer.kind.nesting opened = opened - 1) (hts : Balanced ts)
    (hus : Balanced us) : Balanced (opener :: ts ++ closer :: us) := fun opened => by
  have hclose : nesting (closer :: us) (opened + 1) = opened := by
    show nesting us (closer.kind.nesting (opened + 1)) = opened
    rw [hcloser, Nat.add_sub_cancel, hus]
  rw [nesting_append, show nesting (opener :: ts) opened = nesting ts (opener.kind.nesting opened) from rfl,
    hopener, hts, hclose]

end Balanced

end Token

namespace Grammar

open Token Protean.Parser

/-- A phrase whose tokens are balanced. -/
def Phrase.Balanced {α : Type} (P : Phrase α) : Prop := ∀ ts a, P ts a → Token.Balanced ts

/-! ### Each construct

Each phrase over operations that are balanced is balanced. -/

section
variable {α : Type} {P : Phrase α} {R : Phrase Expr} {ts : List Token}

theorem Repeated.balanced (hP : P.Balanced) : Phrase.Balanced (Repeated P) := by
  intro ts as h
  induction h with
  | nil => exact .nil
  | cons ha _ ih => exact (hP _ _ ha).append ih

theorem Separated.balanced (hP : P.Balanced) : Phrase.Balanced (Separated P) := by
  intro ts as h
  induction h with
  | last ha => exact hP _ _ ha
  | more ha hcomma _ ih => exact (hP _ _ ha).append (.cons (by rw [hcomma]; rfl) ih)

theorem Separators.balanced (h : Separators ts) : Token.Balanced ts :=
  .neutral fun t ht => by rcases h t ht with hkind | hkind <;> rw [hkind] <;> rfl

theorem Statements.balanced (hR : R.Balanced) : Phrase.Balanced (Statements R) := by
  intro ts es h
  induction h with
  | last he hseps => exact (hR _ _ he).append hseps.balanced
  | more he hseps _ _ ih => exact ((hR _ _ he).append hseps.balanced).append ih

/-- The body of a function or of a program. -/
theorem Body.balanced (hR : R.Balanced) : Phrase.Balanced (Body R) := by
  intro ts es h
  cases h with
  | empty hseps => exact hseps.balanced
  | full hseps hstatements => exact hseps.balanced.append (Statements.balanced hR _ _ hstatements)

theorem IsName.isNeutral {t : Token} (h : IsName t) : t.kind.isNeutral = true := by
  rcases h with hkind | hkind <;> rw [hkind] <;> rfl

/-- The names in front of a destructuring assignment close the parenthesis before them. -/
theorem Names.nesting_eq {names : List String} (h : Names ts names) (opened : Nat) :
    nesting ts opened = opened - 1 := by
  induction h with
  | @last name close hname hclose =>
    show close.kind.nesting (name.kind.nesting opened) = opened - 1
    rw [hname, hclose]
    rfl
  | @more name comma ts names hname hcomma _ ih =>
    show nesting ts (comma.kind.nesting (name.kind.nesting opened)) = opened - 1
    rw [hname, hcomma]
    exact ih

/-- An expression whose operations are balanced: the parentheses around destructured names match. -/
theorem Expression.balanced (hR : R.Balanced) : Phrase.Balanced (Expression R) := by
  intro ts e h
  cases h with
  | @destructure lparen equals ts us names value hopen hnames hequals hvalue =>
    have hfront : Token.Balanced (lparen :: ts) := fun opened => by
      show nesting ts (lparen.kind.nesting opened) = opened
      rw [hopen, hnames.nesting_eq]
      rfl
    exact hfront.append (.cons (by rw [hequals]; rfl) (hR _ _ hvalue))
  | bind hname hequals hvalue =>
    exact (hR _ _ hname).append (.cons (by rw [hequals]; rfl) (hR _ _ hvalue))
  | store hfield hequals hvalue =>
    exact (hR _ _ hfield).append (.cons (by rw [hequals]; rfl) (hR _ _ hvalue))
  | operation he => exact hR _ _ he

/-- The rest of a string closes its quote. -/
theorem Content.nesting_eq {text : String} (h : Content ts text) (opened : Nat) :
    nesting ts opened = opened - 1 := by
  induction h with
  | @stop quote hquote =>
    show quote.kind.nesting opened = opened - 1
    rw [hquote]
    rfl
  | @more content ts text hcontent _ ih =>
    show nesting ts (content.kind.nesting opened) = opened - 1
    rw [hcontent]
    exact ih

/-- A decorator: the quotes around its text match, and there are no interpolations in it. -/
theorem Decorator.balanced : Phrase.Balanced Decorator := by
  intro ts d h
  cases h with
  | mark hname => exact .cons (by rw [hname]; rfl) .nil
  | @text name equals quote ts text hname hequals hquote htext =>
    refine .cons (by rw [hname]; rfl) (.cons (by rw [hequals]; rfl) fun opened => ?_)
    show nesting ts (quote.kind.nesting opened) = opened
    rw [hquote, htext.nesting_eq]
    rfl

/-- The decorators of a function: their brackets match. -/
theorem Remarks.balanced : Phrase.Balanced Remarks := by
  intro ts ds h
  cases h with
  | none => exact .nil
  | empty hopen hclose =>
    exact .enclose (fun _ => by rw [hopen]; rfl) (fun _ => by rw [hclose]; rfl) .nil .nil
  | full hopen hds hclose =>
    exact .enclose (fun _ => by rw [hopen]; rfl) (fun _ => by rw [hclose]; rfl)
      (Separated.balanced Decorator.balanced _ _ hds) .nil

/-- A function whose operations are balanced: its braces match. -/
theorem Function.balanced (hR : R.Balanced) : Phrase.Balanced (Function R) := by
  rintro _ _ ⟨hremarks, hopen, hbody, hclose⟩
  rw [List.append_assoc]
  exact (Remarks.balanced _ _ hremarks).append <| .enclose (fun _ => by rw [hopen]; rfl)
    (fun _ => by rw [hclose]; rfl) (Body.balanced (Expression.balanced hR) _ _ hbody) .nil

/-- The rest of a string closes the quote that opened it.  An interpolation closes the brace it opens. -/
theorem StringRest.nesting_eq (hR : R.Balanced) {p : Pieces} {r : Pieces × Span}
    (h : StringRest R p ts r) (opened : Nat) : nesting ts opened = opened - 1 := by
  induction h generalizing opened with
  | @stop p quote hquote =>
    show quote.kind.nesting opened = opened - 1
    rw [hquote]
    rfl
  | @content p content ts r hcontent _ ih =>
    show nesting ts (content.kind.nesting opened) = opened - 1
    rw [hcontent]
    exact ih opened
  | @interpolation p mark rbrace ts us e r hmark he hclose _ ih =>
    have hinner : Token.Balanced (mark :: ts ++ [rbrace]) :=
      .enclose (fun _ => by rw [hmark]; rfl) (fun _ => by rw [hclose]; rfl)
        (Expression.balanced hR _ _ he) .nil
    rw [show mark :: ts ++ rbrace :: us = (mark :: ts ++ [rbrace]) ++ us by simp, nesting_append, hinner]
    exact ih opened

/-- A primary whose operations are balanced: its quotes, braces or parentheses match. -/
theorem Primary.balanced (hR : R.Balanced) : Phrase.Balanced (Primary R) := by
  intro ts e h
  cases h with
  | name hname => exact .cons hname.isNeutral .nil
  | number hnumber => exact .cons (by rw [hnumber]; rfl) .nil
  | @string quote ts pieces stop hquote hrest =>
    intro opened
    show nesting ts (quote.kind.nesting opened) = opened
    rw [hquote, hrest.nesting_eq hR]
    rfl
  | function hfunction => exact Function.balanced hR _ _ hfunction
  | bracket hopen he hclose =>
    exact .enclose (fun _ => by rw [hopen]; rfl) (fun _ => by rw [hclose]; rfl)
      (Expression.balanced hR _ _ he) .nil

theorem Passed.balanced (hR : R.Balanced) : Phrase.Balanced (Passed R) := by
  intro ts a h
  cases h with
  | named hname hequals hvalue =>
    exact .cons hname.isNeutral (.cons (by rw [hequals]; rfl) (hR _ _ hvalue))
  | positional hvalue => exact hR _ _ hvalue

/-- Arguments that are balanced: the parentheses around them match. -/
theorem Parens.balanced (hR : R.Balanced) : Phrase.Balanced (Parens R) := by
  intro ts r h
  cases h with
  | empty hopen hclose =>
    exact .enclose (fun _ => by rw [hopen]; rfl) (fun _ => by rw [hclose]; rfl) .nil .nil
  | @full lparen rparen ts us args hopen hargs hcomma hclose =>
    have hus : Token.Balanced us := by
      rcases hcomma with rfl | ⟨comma, hcomma, rfl⟩
      · exact .nil
      · exact .cons (by rw [hcomma]; rfl) .nil
    exact .enclose (fun _ => by rw [hopen]; rfl) (fun _ => by rw [hclose]; rfl)
      ((Separated.balanced (Passed.balanced hR) _ _ hargs).append hus) .nil

/-- The arguments of a call and the functions behind it. -/
theorem CallArgs.balanced (hR : R.Balanced) : Phrase.Balanced (CallArgs R) := by
  intro ts a h
  cases h with
  | parens hparens hfunctions =>
    exact (Parens.balanced hR _ _ hparens).append
      (Repeated.balanced (Function.balanced hR) _ _ hfunctions)
  | functions hfunctions => exact Repeated.balanced (Function.balanced hR) _ _ hfunctions

theorem Calls.balanced (hR : R.Balanced) (e : Expr) : Phrase.Balanced (Calls R e) := by
  intro ts e' h
  induction h with
  | nil => exact .nil
  | cons ha _ ih => exact (CallArgs.balanced hR _ _ ha).append ih

theorem KeyToken.isNeutral {t : Token} {key : Key} (h : KeyToken t key) : t.kind.isNeutral = true := by
  cases h with
  | name hname => exact hname.isNeutral
  | index hnumber _ => rw [hnumber]; rfl

theorem Fields.balanced (hR : R.Balanced) (e : Expr) : Phrase.Balanced (Fields R e) := by
  intro ts e' h
  induction h with
  | nil => exact .nil
  | field hdot hkey _ ih => exact .cons (by rw [hdot]; rfl) (.cons hkey.isNeutral ih)
  | send hdot hkey ha hcalls _ ih =>
    exact (Token.Balanced.append (.cons (by rw [hdot]; rfl) (.cons hkey.isNeutral
      (CallArgs.balanced hR _ _ ha))) (Calls.balanced hR _ _ _ hcalls)).append ih

/-- An access, with all its calls and fields. -/
theorem Access.balanced (hR : R.Balanced) : Phrase.Balanced (Access R) := by
  rintro _ _ ⟨hprimary, hcalls, hfields⟩
  exact ((Primary.balanced hR _ _ hprimary).append (Calls.balanced hR _ _ _ hcalls)).append
    (Fields.balanced hR _ _ _ hfields)

theorem Chain.balanced (hR : R.Balanced) : Phrase.Balanced (Chain R) := by
  have hoperator : Phrase.Balanced (Operator R) := by
    rintro _ _ ⟨hname, hrhs⟩
    exact .cons hname.isNeutral (hR _ _ hrhs)
  rintro _ _ ⟨hfirst, hrights⟩
  exact (hR _ _ hfirst).append (Repeated.balanced hoperator _ _ hrights)

end

/-! ### Operations and programs

The knot is tied, and a program is balanced as a whole. -/

/-- **Operations are the least phrase** that holds of chains of accesses over it. -/
theorem Operation.least {R : Phrase Expr} (hR : ∀ ts e, Chain (Access R) ts e → R ts e)
    {ts : List Token} {e : Expr} (h : Operation ts e) : R ts e := by
  -- each construct over operations is the same construct over `R`
  apply @Operation.rec (fun ts e _ => R ts e) (fun ts e _ => Chain (Access R) ts e)
    (fun ts e _ => Access R ts e) (fun ts es _ => Repeated (Operator (Access R)) ts es)
    (fun ts e _ => Primary R ts e) (fun e ts e' _ => Calls R e ts e') (fun e ts e' _ => Fields R e ts e')
    (fun ts r _ => Operator (Access R) ts r) (fun p ts r _ => StringRest R p ts r)
    (fun ts e _ => Function R ts e) (fun ts e _ => Expression R ts e) (fun ts a _ => CallArgs R ts a)
    (fun ts es _ => Body (Expression R) ts es) (fun ts r _ => Parens R ts r)
    (fun ts es _ => Repeated (Function R) ts es) (fun ts es _ => Statements (Expression R) ts es)
    (fun ts args _ => Separated (Passed R) ts args) (fun ts a _ => Passed R ts a)
    (fun _ h => hR _ _ h)
  case t => exact h
  case bracket => exact fun hopen _ hclose he => .bracket hopen he hclose
  case send => exact fun hdot hkey _ _ _ ha hcalls hfields => .send hdot hkey ha hcalls hfields
  case interpolation => exact fun hmark _ hclose _ he hrest => .interpolation hmark he hclose hrest
  all_goals
    intros
    constructor <;> assumption

/-- Operations, as the least phrase that is closed under its own construction. -/
theorem Operation.balanced : Phrase.Balanced Operation := fun _ _ h =>
  Operation.least (R := fun ts _ => Token.Balanced ts)
    (Chain.balanced (Access.balanced fun _ _ hts => hts)) h

/-- **A program ends outside of all delimiters.** -/
theorem Program.nesting_eq_zero {ts : List Token} {es : List Expr} (h : Program ts es) :
    nesting ts 0 = 0 := by
  obtain ⟨hbody, heof⟩ := h
  have hend : Token.Balanced [_] := .cons (by rw [heof]; rfl) .nil
  exact (Body.balanced (Expression.balanced Operation.balanced) _ _ hbody).append hend 0

end Grammar

end Protean
