import Protean.Proofs.Token.Reading

/-!
# Proofs — Expr — the tokens of a printed expression

`Expr.shapes` lists the tokens of an expression in the layout of the printer.  The lexer finds exactly
these in the printed text (`lexes_print`): wherever an expression stands in a printed text, what is left
and right of it makes no token run into another one.  Newlines are tokens there only right inside of
braces, a number never stands behind something that would take its sign for an operator, and no
operator is followed by an operator character.

* `follows_cons`, `Follows.spec`: what may stand behind a name or a number in a printed text.
* `lexes_name`, `lexes_key`, `lexes_separated`, `lexes_decorators`: the parts of a printed expression.
* `Expr.lexes_args`, `Expr.lexes_trailing`, `Expr.lexes_body`: those that hold expressions in turn, given that each of
  these is read as its tokens wherever it stands.
* `Expr.lexes_lines`: a printed program.
-/

namespace Protean

open Token Lexer

/-! ### Tokens in the layout of the printer

The tokens that the printer means, said without the text it prints. -/

/-- The token of a name, which is an operator unless it starts like an identifier. -/
def nameShape (name : String) : Shape :=
  (if name.toList.head?.any isNameStart then .identifier else .operator, name)

/-- The token that a key is printed as. -/
def Key.shape : Key → Shape
  | .name text => nameShape text
  | .index n => (.number, toString n)

/-- Items with commas between them. -/
def separated : List (List Shape) → List Shape
  | [] => []
  | [item] => item
  | item :: next :: items => item ++ (.comma, ",") :: separated (next :: items)

namespace Decorators

/-- The tokens of a remark: its name and, where there is one, its text. -/
def oneShapes : String × Option String → List Shape
  | (name, some text) => (.identifier, name) :: (.assign, "=") :: textShapes text
  | (name, none) => [(.identifier, name)]

/-- The tokens of all remarks. -/
def shapes : Decorators → List Shape
  | [] => []
  | decorators => (.leftBracket, "[") :: separated (decorators.map oneShapes) ++ [(.rightBracket, "]")]

end Decorators

namespace Expr

mutual

/-- The tokens of an expression. -/
def shapes : Expr → List Shape
  | .identifier _ name => [nameShape name]
  | .literal _ (.number x) => [(.number, Number.render x)]
  | .literal _ (.string text) => textShapes text
  | .bracket _ inner => (.leftParen, "(") :: inner.shapes ++ [(.rightParen, ")")]
  | .field _ target key _ => target.shapes ++ [(.dot, "."), key.shape]
  | .call _ target args trailing =>
    target.shapes ++ (.leftParen, "(") :: separated (argsShapes args) ++
      (.rightParen, ")") :: trailingShapes trailing
  | .send _ target key _ args trailing =>
    target.shapes ++ (.dot, ".") :: key.shape :: (.leftParen, "(") :: separated (argsShapes args) ++
      (.rightParen, ")") :: trailingShapes trailing
  | .bind _ name _ value => nameShape name :: (.assign, "=") :: value.shapes
  | .store _ target key _ value =>
    target.shapes ++ (.dot, ".") :: key.shape :: (.assign, "=") :: value.shapes
  | .destructure _ names value =>
    (.leftParen, "(") :: separated (names.map fun name => [(.identifier, name)]) ++
      (.rightParen, ")") :: (.assign, "=") :: value.shapes
  | .function _ decorators _ [] =>
    decorators.shapes ++ [(.leftBrace, "\x7b"), (.rightBrace, "\x7d")]
  | .function _ decorators _ (e :: body) =>
    decorators.shapes ++ (.leftBrace, "\x7b") :: (.newline, "\n") :: e.shapes ++
      (.newline, "\n") :: bodyShapes body ++ [(.rightBrace, "\x7d")]
  | .builtin .. => []

/-- The tokens of each argument. -/
def argsShapes : List (Argument Expr) → List (List Shape)
  | [] => []
  | ⟨some name, e⟩ :: args => (nameShape name :: (.assign, "=") :: e.shapes) :: argsShapes args
  | ⟨none, e⟩ :: args => e.shapes :: argsShapes args

/-- The tokens of the functions behind the arguments. -/
def trailingShapes : List Expr → List Shape
  | [] => []
  | e :: es => e.shapes ++ trailingShapes es

/-- The tokens of statements, each with the newline behind it. -/
def bodyShapes : List Expr → List Shape
  | [] => []
  | e :: es => e.shapes ++ (.newline, "\n") :: bodyShapes es

end

/-- The tokens of one argument. -/
def argumentShapes (arg : Argument Expr) : List Shape :=
  (arg.name.elim [] fun name => [nameShape name, (.assign, "=")]) ++ arg.value.shapes

/-- The tokens of arguments are those of each. -/
theorem argsShapes_eq_map : ∀ args : List (Argument Expr), argsShapes args = args.map argumentShapes
  | [] => rfl
  | ⟨some _, _⟩ :: args | ⟨none, _⟩ :: args => by
    rw [argsShapes, argsShapes_eq_map args]
    rfl

/-- The tokens of a program, with newlines between its statements. -/
def lines : List Expr → List Shape
  | [] => []
  | [e] => e.shapes
  | e :: next :: es => e.shapes ++ (.newline, "\n") :: lines (next :: es)

/-- A node that is read and that can be read again. -/
def Printable (e : Expr) : Prop := e.Grammatical ∧ e.Reprintable

end Expr

/-! ### Names and keys

Names are printed as they are, and read as names or as operators. -/

/-- The characters that may follow an expression in a printed text. -/
def Follows (r : List Char) : Prop := ∀ c ∈ r.head?, c ∈ ['(', ')', ']', ',', '.', ' ', '\n']

/-- The characters that the printer puts behind a name or a number. -/
theorem follows_cons {c : Char} {r : List Char} (hc : c ∈ ['(', ')', ']', ',', '.', ' ', '\n']) :
    Follows (c :: r) := by
  rintro d ⟨⟩
  exact hc

/-- What follows a printed expression does not go on with a name, an operator or a number. -/
theorem Follows.spec {r : List Char} (hr : Follows r) : ∀ c ∈ r.head?,
    isNameChar c = false ∧ isOperatorChar c = false ∧ c.isDigit = false ∧ c ≠ 'e' ∧ c ≠ 'E' := by
  have hall : (['(', ')', ']', ',', '.', ' ', '\n'].all fun c => decide (isNameChar c = false ∧
      isOperatorChar c = false ∧ c.isDigit = false ∧ c ≠ 'e' ∧ c ≠ 'E')) = true := by
    decide
  exact fun c hc => of_decide_eq_true (List.all_eq_true.mp hall c (hr c hc))

/-- A number ends there, unless there is a point. -/
theorem Follows.numberStops {c : Char} {r : List Char} (hr : Follows (c :: r)) (hc : c ≠ '.') :
    NumberStops (c :: r) := by
  refine ⟨fun d hd => (hr.spec d hd).2.2, fun d r' he => ?_⟩
  exact absurd (List.cons.inj he).1 hc

section
variable {modes : List Mode} {last : Option TokenKind} {r : List Char}

/-- A printed name is read as one token. -/
theorem lexes_name {name : String} (ho : Outside modes) (hname : IsName name) (hr : Follows r) :
    Lexes modes last (name.toList ++ r) [nameShape name] modes r := by
  rcases hname with hname | hname
  · have hshape : nameShape name = (.identifier, name) := by
      obtain ⟨c, cs, hchars, hc, -⟩ := hname
      simp [nameShape, hchars, hc]
    rw [hshape]
    exact lexes_identifier ho hname fun c hc => (hr.spec c hc).1
  · have hshape : nameShape name = (.operator, name) := by
      obtain ⟨c, cs, hchars, hall, -⟩ := hname
      simp [nameShape, hchars, (isOperatorChar_spec (hall c List.mem_cons_self)).2.1]
    rw [hshape]
    exact lexes_operator ho hname fun c hc => ⟨(hr.spec c hc).2.1, (hr.spec c hc).2.2.1⟩

theorem lexes_key {key : Key} (ho : Outside modes) (hkey : key.Writable) (hr : Follows r) :
    Lexes modes (some .dot) (key.render.toList ++ r) [key.shape] modes r := by
  cases key with
  | name text => exact lexes_name ho hkey hr
  | index n => exact lexes_index ho n fun c hc => (hr.spec c hc).2.2.1

theorem Token.IsName.ne_nil {name : String} (hname : IsName name) : name.toList ≠ [] := by
  rcases hname with ⟨c, cs, hchars, -⟩ | ⟨c, cs, hchars, -⟩ <;> rw [hchars] <;> exact nofun

/-- A name does not start with a digit. -/
theorem Token.IsName.head_not_digit {name : String} (hname : IsName name) :
    ∀ c ∈ name.toList.head?, c.isDigit = false := by
  intro c hc
  by_contra hdigit
  have hd := isDigit_spec (by simpa using hdigit)
  rcases hname with ⟨c', cs, hchars, hc', -⟩ | ⟨c', cs, hchars, hall, -⟩ <;>
    rw [hchars] at hc <;> cases hc
  · rw [hd.2.1] at hc'
    cases hc'
  · exact hdigit (isOperatorChar_spec (hall c List.mem_cons_self)).2.2.1

/-! ### Lists

Items with commas between them: names, arguments and decorators. -/

/-- Behind a token of this kind a number may have a sign. -/
def OperandStart (last : Option TokenKind) : Prop :=
  last ≠ some .dot ∧ last.any TokenKind.endsOperand = false

instance (last : Option TokenKind) : Decidable (OperandStart last) :=
  inferInstanceAs (Decidable (_ ∧ _))

/-- A text that is found as the tokens `item`, wherever an operand may stand. -/
def Item (modes : List Mode) (text : String) (item : List Shape) : Prop :=
  ∀ last r, OperandStart last → Follows r → NumberStops r →
    Lexes modes last (text.toList ++ r) item modes r

/-- What is printed between commas is read item by item. -/
theorem lexes_separated {texts : List String} {items : List (List Shape)} (ho : Outside modes)
    (h : List.Forall₂ (Item modes) texts items) (hlast : OperandStart last) (hr : Follows r)
    (hstop : NumberStops r) :
    Lexes modes last ((", ".intercalate texts).toList ++ r) (separated items) modes r := by
  induction h generalizing last with
  | nil => exact .nil
  | @cons text item texts items hitem htail ih =>
    cases htail with
    | nil =>
      rw [String.intercalate_singleton]
      exact hitem last r hlast hr hstop
    | @cons text' item' texts' items' hitem' htail' =>
      have hchars : (", ".intercalate (text :: text' :: texts')).toList ++ r =
          text.toList ++ ',' :: ' ' :: ((", ".intercalate (text' :: texts')).toList ++ r) := by
        simp [String.intercalate_cons_cons]
      have hcomma : Follows (',' :: ' ' :: ((", ".intercalate (text' :: texts')).toList ++ r)) :=
        follows_cons (by decide)
      rw [hchars, separated]
      exact (hitem last _ hlast hcomma (hcomma.numberStops (by decide))).append
        ((lexes_comma ho).cons (.blank ho (ih (by decide))))

/-- Each of several names is found as an item of its own. -/
theorem lexes_names {names : List String} (ho : Outside modes)
    (hnames : ∀ name ∈ names, IsIdentifier name) : List.Forall₂ (Item modes) names
      (names.map fun name => [(TokenKind.identifier, name)]) := by
  induction names with
  | nil => exact .nil
  | cons name names ih =>
    obtain ⟨hname, hnames⟩ := List.forall_mem_cons.mp hnames
    refine .cons (fun last r _ hr _ => ?_) (ih hnames)
    exact lexes_identifier ho hname fun c hc => (hr.spec c hc).1

/-- ` = ` between a name and a value. -/
theorem lexes_equals {cs cs' : List Char} {ts : List Shape} {modes' : List Mode} (ho : Outside modes)
    (h : Lexes modes (some .assign) cs ts modes' cs') :
    Lexes modes last (' ' :: '=' :: ' ' :: cs) ((.assign, "=") :: ts) modes' cs' :=
  .blank ho ((lexes_assign ho).cons (.blank ho h))

/-- The printed remarks are read one by one, in front of anything. -/
theorem lexes_decorators {decorators : Decorators} (ho : Outside modes)
    (hd : ∀ d ∈ decorators, IsIdentifier d.1) {cs : List Char} {ts : List Shape} {modes' : List Mode}
    {cs' : List Char} (hrest : ∀ last, Lexes modes last cs ts modes' cs') :
    Lexes modes last (decorators.print.toList ++ cs) (decorators.shapes ++ ts) modes' cs' := by
  -- each decorator is an item, with its text between quotes if it has one
  have hitems : ∀ ds : Decorators, (∀ d ∈ ds, IsIdentifier d.1) → List.Forall₂
      (Item (.inline :: modes)) (ds.map Decorators.printOne) (ds.map Decorators.oneShapes) := by
    intro ds hds
    induction ds with
    | nil => exact .nil
    | cons d ds ih =>
      obtain ⟨hname, hds⟩ := List.forall_mem_cons.mp hds
      refine .cons (fun last r _ hr _ => ?_) (ih hds)
      have ho' := outside_inline modes
      rcases d with ⟨name, _ | text⟩
      · exact lexes_identifier ho' hname fun c hc => (hr.spec c hc).1
      · have hchars : (Decorators.printOne (name, some text)).toList ++ r =
            name.toList ++ ' ' :: '=' :: ' ' :: ((Text.quote text).toList ++ r) := by
          simp [Decorators.printOne]
        rw [hchars]
        refine Lexes.cons (lexes_identifier ho' hname ?_) (lexes_equals ho' (lexes_quote ho' text))
        rintro c ⟨⟩
        decide
  -- without decorators there are no brackets either
  rcases decorators with _ | ⟨d, ds⟩
  · exact hrest last
  · have hchars : (Decorators.print (d :: ds)).toList ++ cs =
        '[' :: ((", ".intercalate ((d :: ds).map Decorators.printOne)).toList ++ ']' :: ' ' :: cs) := by
      simp [Decorators.print]
    have hclose : Follows (']' :: ' ' :: cs) := follows_cons (by decide)
    rw [hchars, Decorators.shapes, List.append_assoc, List.cons_append]
    · exact (lexes_leftBracket ho).cons ((lexes_separated (outside_inline modes) (hitems _ hd)
        (by decide) hclose (hclose.numberStops (by decide))).append
          ((lexes_rightBracket (outside_inline modes)).cons (.blank ho (hrest _))))
    · simp

/-! ### Expressions

Each kind of node is printed as its tokens, in front of whatever may follow an expression. -/

namespace Expr

/-- Behind the functions that follow the arguments, the last token is no newline. -/
theorem after_trailingShapes {trailing : List Expr} {last : Option TokenKind}
    (h : ∀ f ∈ trailing, ∀ last, ∃ kind, after last f.shapes = some kind ∧ kind ≠ .newline)
    (hlast : ∃ kind, last = some kind ∧ kind ≠ .newline) :
    ∃ kind, after last (trailingShapes trailing) = some kind ∧ kind ≠ .newline := by
  induction trailing generalizing last with
  | nil => exact hlast
  | cons f trailing ih =>
    obtain ⟨hf, hrest⟩ := List.forall_mem_cons.mp h
    rw [trailingShapes, after_append]
    exact ih hrest (hf last)

/-- The last token of an expression is no newline. -/
theorem after_shapes {e : Expr} (he : e.Every Printable) (last : Option TokenKind) :
    ∃ kind, after last e.shapes = some kind ∧ kind ≠ .newline := by
  -- names are printed as names or operators, which are no newlines
  have hname : ∀ name, (nameShape name).1 ≠ .newline := by
    intro name
    rw [nameShape]
    split <;> simp
  -- the induction is on the tree, and the last token is that of its last part
  induction he generalizing last with
  | identifier h => exact ⟨_, rfl, hname _⟩
  | @literal a value h =>
    cases value with
    | number x => exact ⟨_, rfl, by simp⟩
    | string text => exact ⟨.stringEnd, by simp [shapes, textShapes], by simp⟩
  | bracket h _ _ => exact ⟨.rightParen, by simp [shapes], by simp⟩
  | @field a target key span h _ _ =>
    refine ⟨key.shape.1, by simp [shapes], ?_⟩
    cases key with
    | name text => exact hname text
    | index n => simp [Key.shape]
  | call h _ _ _ _ _ ih =>
    simp only [shapes, after_append, after_cons]
    exact after_trailingShapes ih ⟨_, rfl, by simp⟩
  | send h _ _ _ _ _ ih =>
    simp only [shapes, after_append, after_cons]
    exact after_trailingShapes ih ⟨_, rfl, by simp⟩
  | bind h _ ih => exact ih _
  | store h _ _ _ ih =>
    simp only [shapes, after_append, after_cons]
    exact ih _
  | destructure h _ ih =>
    simp only [shapes, after_append, after_cons]
    exact ih _
  | @function a decorators parameters body h _ _ =>
    refine ⟨.rightBrace, ?_, by simp⟩
    cases body <;> simp [shapes]
  | builtin h => exact absurd h.1 id

/-- The lexer finds the tokens of the printed expression.  Where it may end with a number, the number
has to end there. -/
def Lexes (e : Expr) : Prop :=
  ∀ (modes : List Mode) (last : Option TokenKind) (r : List Char), Outside modes → Follows r →
    (e.isNumber = true ∨ e.isAssignment = true → NumberStops r) →
      (OperandStart last ∨ e.isFunction = true) →
        Lexer.Lexes modes last (e.print.toList ++ r) e.shapes modes r

/-- Each printed argument is found as an item of its own, if its value is found as its tokens. -/
theorem lexes_args {args : List (Argument Expr)} (ho : Outside modes)
    (hnames : ∀ arg ∈ args, ∀ name, arg.name = some name → IsName name)
    (h : ∀ arg ∈ args, arg.value.Lexes) :
    List.Forall₂ (Item modes) (printArgs args) (argsShapes args) := by
  induction args with
  | nil => exact .nil
  | cons arg args ih =>
    obtain ⟨hname, hrest⟩ := List.forall_mem_cons.mp hnames
    obtain ⟨harg, hargs⟩ := List.forall_mem_cons.mp h
    rcases arg with ⟨_ | name, e⟩
    · exact .cons (fun last r hlast hr hstop => harg modes last r ho hr (fun _ => hstop) (.inl hlast))
        (ih hrest hargs)
    · refine .cons (fun last r _ hr hstop => ?_) (ih hrest hargs)
      have hchars : (name ++ " = " ++ e.print).toList ++ r =
          name.toList ++ ' ' :: '=' :: ' ' :: (e.print.toList ++ r) := by
        simp
      rw [hchars]
      exact (lexes_name ho (hname name rfl) (follows_cons (by decide))).cons
        (lexes_equals ho (harg modes _ r ho hr (fun _ => hstop) (.inl (by decide))))

/-- The functions behind the arguments are read one by one. -/
theorem lexes_trailing {trailing : List Expr} (ho : Outside modes) (hr : Follows r)
    (hf : ∀ f ∈ trailing, f.isFunction = true) (h : ∀ f ∈ trailing, f.Lexes) :
    Lexer.Lexes modes last ((printTrailing trailing).toList ++ r) (trailingShapes trailing) modes r := by
  induction trailing generalizing last with
  | nil => exact .nil
  | cons f trailing ih =>
    obtain ⟨hf, hfs⟩ := List.forall_mem_cons.mp hf
    obtain ⟨hlex, hlexs⟩ := List.forall_mem_cons.mp h
    have hchars : (printTrailing (f :: trailing)).toList ++ r =
        ' ' :: (f.print.toList ++ ((printTrailing trailing).toList ++ r)) := by
      simp [printTrailing]
    have hnext : Follows ((printTrailing trailing).toList ++ r) := by
      cases trailing with
      | nil => exact hr
      | cons g trailing => simpa [printTrailing] using follows_cons (c := ' ') (by decide)
    have hnumber : f.isNumber = true ∨ f.isAssignment = true →
        NumberStops ((printTrailing trailing).toList ++ r) := by
      cases f with
      | function => exact nofun
      | _ => cases hf
    rw [hchars, trailingShapes]
    exact .blank ho ((hlex modes last _ ho hnext hnumber (.inr hf)).append (ih hfs hlexs))

/-- A printed body is read line by line, with a newline token behind each. -/
theorem lexes_body {body : List Expr} (hb : ∀ e ∈ body, e.Every Printable)
    (h : ∀ e ∈ body, e.Lexes) :
    Lexer.Lexes (.statements :: modes) (some .newline) ((printBody body).toList ++ r)
      (bodyShapes body) (.statements :: modes) r := by
  induction body with
  | nil => exact .nil
  | cons e body ih =>
    obtain ⟨he, hb⟩ := List.forall_mem_cons.mp hb
    obtain ⟨hlex, hlexs⟩ := List.forall_mem_cons.mp h
    have hchars : (printBody (e :: body)).toList ++ r =
        e.print.toList ++ '\n' :: ((printBody body).toList ++ r) := by
      simp [printBody]
    have ho := outside_statements modes
    have hnewline : Follows ('\n' :: ((printBody body).toList ++ r)) := follows_cons (by decide)
    -- a newline behind a newline would make no token
    obtain ⟨kind, hkind, hne⟩ := after_shapes he (some .newline)
    rw [hchars, bodyShapes]
    refine (hlex _ _ _ ho hnewline (fun _ => hnewline.numberStops (by decide)) (.inl (by decide))).append ?_
    rw [hkind]
    exact (lexes_newline ho rfl hne).cons (ih hb hlexs)

/-- Arguments in parentheses and the functions behind them. -/
theorem lexes_tail {args : List (Argument Expr)} {trailing : List Expr} (ho : Outside modes)
    (hr : Follows r) (hw : TailWritable args trailing) (ha : ∀ arg ∈ args, arg.value.Lexes)
    (hf : ∀ f ∈ trailing, f.Lexes) :
    Lexer.Lexes modes last
      ('(' :: ((", ".intercalate (printArgs args)).toList ++
        ')' :: ((printTrailing trailing).toList ++ r)))
      ((.leftParen, "(") :: separated (argsShapes args) ++
        (.rightParen, ")") :: trailingShapes trailing) modes r := by
  have ho' := outside_inline modes
  have hclose : Follows (')' :: ((printTrailing trailing).toList ++ r)) := follows_cons (by decide)
  have hargs : Lexer.Lexes (.inline :: modes) (some .leftParen)
      ((", ".intercalate (printArgs args)).toList ++ ')' :: ((printTrailing trailing).toList ++ r))
      (separated (argsShapes args)) (.inline :: modes)
      (')' :: ((printTrailing trailing).toList ++ r)) :=
    lexes_separated ho' (lexes_args ho' hw.1 ha) (by decide) hclose (hclose.numberStops (by decide))
  exact (lexes_leftParen ho).cons (hargs.append ((lexes_rightParen ho').cons
    (lexes_trailing ho hr hw.2 hf)))

/-- A dot and a key behind a target. -/
theorem lexes_dotted {target : Expr} {key : Key} {cs cs' : List Char} {ts : List Shape}
    {modes' : List Mode} (ho : Outside modes) (ht : target.Lexes)
    (hassign : target.isAssignment = false) (hlast : OperandStart last)
    (hkey : key.Writable) (hfits : KeyFits target key) (hcs : Follows cs)
    (hrest : ∀ last, Lexer.Lexes modes last cs ts modes' cs') :
    Lexer.Lexes modes last (target.print.toList ++ '.' :: (key.render.toList ++ cs))
      (target.shapes ++ (.dot, ".") :: key.shape :: ts) modes' cs' := by
  have hstop : target.isNumber = true ∨ target.isAssignment = true →
      NumberStops ('.' :: (key.render.toList ++ cs)) := by
    intro hnumber
    -- a digit behind the dot would belong to the number
    replace hnumber := hnumber.resolve_right (by simp [hassign])
    refine ⟨fun c hc => by cases hc; decide, fun d r' he => ?_⟩
    cases key with
    | index n => exact absurd (hfits n rfl) (by simp [hnumber])
    | name text =>
      have hchars := (List.cons.inj he).2
      rcases htext : text.toList with _ | ⟨c, rest⟩
      · exact absurd htext (Token.IsName.ne_nil hkey)
      · rw [Key.render, htext] at hchars
        obtain ⟨rfl, -⟩ := List.cons.inj hchars
        exact Token.IsName.head_not_digit hkey c (by rw [htext]; rfl)
  exact (ht modes last _ ho (follows_cons (by decide)) hstop (.inl hlast)).append
    ((lexes_dot ho).cons ((lexes_key ho hkey hcs).cons (hrest _)))

/-- **The lexer finds the tokens of a printed expression.** -/
theorem lexes_print {e : Expr} (he : e.Every Printable) : e.Lexes := by
  induction he with
  | @identifier a name h =>
    intro modes last r ho hr _ _
    exact lexes_name ho h.1 hr
  | @literal a value h =>
    intro modes last r ho hr hstop hlast
    cases value with
    | number x =>
      -- behind the end of an operand the sign would be an operator
      obtain ⟨hlast, hoperand⟩ := hlast.resolve_right nofun
      exact lexes_number ho hlast hoperand h.2.1 (hstop (.inl rfl))
    | string text => exact lexes_quote ho text
  | @bracket a inner h _ ih =>
    intro modes last r ho hr _ _
    have hchars : (print (.bracket a inner)).toList ++ r =
        '(' :: (inner.print.toList ++ ')' :: r) := by
      simp [print]
    have ho' := outside_inline modes
    have hclose : Follows (')' :: r) := follows_cons (by decide)
    rw [hchars]
    exact (lexes_leftParen ho).cons ((ih _ _ _ ho' hclose (fun _ => hclose.numberStops (by decide))
      (.inl (by decide))).append (lexes_rightParen ho'))
  | @field a target key span h _ ih =>
    intro modes last r ho hr _ hlast
    have hchars : (print (.field a target key span)).toList ++ r =
        target.print.toList ++ '.' :: (key.render.toList ++ r) := by
      simp [print]
    rw [hchars]
    exact lexes_dotted ho ih h.1.1 (hlast.resolve_right nofun) h.1.2 h.2 hr fun _ => .nil
  | @call a target args trailing h _ _ _ ih iha iht =>
    intro modes last r ho hr _ hlast
    have hchars : (print (.call a target args trailing)).toList ++ r = target.print.toList ++
        '(' :: ((", ".intercalate (printArgs args)).toList ++
          ')' :: ((printTrailing trailing).toList ++ r)) := by
      simp [print]
    rw [hchars, shapes, List.append_assoc]
    have hopen : Follows ('(' :: ((", ".intercalate (printArgs args)).toList ++
        ')' :: ((printTrailing trailing).toList ++ r))) := follows_cons (by decide)
    exact (ih modes last _ ho hopen (fun _ => hopen.numberStops (by decide))
      (.inl (hlast.resolve_right nofun))).append (lexes_tail ho hr h.1.2.2 iha iht)
  | @send a target key span args trailing h _ _ _ ih iha iht =>
    intro modes last r ho hr _ hlast
    have hchars : (print (.send a target key span args trailing)).toList ++ r =
        target.print.toList ++ '.' :: (key.render.toList ++
          '(' :: ((", ".intercalate (printArgs args)).toList ++
            ')' :: ((printTrailing trailing).toList ++ r))) := by
      simp [print]
    rw [hchars, shapes, List.append_assoc]
    exact lexes_dotted ho ih h.1.1 (hlast.resolve_right nofun) h.1.2.1 h.2.1 (follows_cons (by decide))
      fun _ => lexes_tail ho hr h.1.2.2 iha iht
  | @bind a name span value h _ ih =>
    intro modes last r ho hr hstop _
    have hchars : (print (.bind a name span value)).toList ++ r =
        name.toList ++ ' ' :: '=' :: ' ' :: (value.print.toList ++ r) := by
      simp [print]
    rw [hchars]
    exact (lexes_name ho h.1.1 (follows_cons (by decide))).cons (lexes_equals ho
      (ih modes _ r ho hr (fun _ => hstop (.inr rfl)) (.inl (by decide))))
  | @store a target key span value h _ _ iht ihv =>
    intro modes last r ho hr hstop hlast
    have hchars : (print (.store a target key span value)).toList ++ r = target.print.toList ++
        '.' :: (key.render.toList ++ ' ' :: '=' :: ' ' :: (value.print.toList ++ r)) := by
      simp [print]
    rw [hchars]
    exact lexes_dotted ho iht h.1.1 (hlast.resolve_right nofun) h.1.2.1 h.2 (follows_cons (by decide))
      fun _ => lexes_equals ho (ihv modes _ r ho hr (fun _ => hstop (.inr rfl)) (.inl (by decide)))
  | @destructure a names value h _ ih =>
    intro modes last r ho hr hstop _
    have hchars : (print (.destructure a names value)).toList ++ r =
        '(' :: ((", ".intercalate names).toList ++
          ')' :: ' ' :: '=' :: ' ' :: (value.print.toList ++ r)) := by
      simp [print]
    have ho' := outside_inline modes
    have hclose : Follows (')' :: ' ' :: '=' :: ' ' :: (value.print.toList ++ r)) := follows_cons (by decide)
    rw [hchars, shapes, List.cons_append]
    exact (lexes_leftParen ho).cons ((lexes_separated ho' (lexes_names ho' h.1.2.1) (by decide) hclose
      (hclose.numberStops (by decide))).append ((lexes_rightParen ho').cons (lexes_equals ho
        (ih modes _ r ho hr (fun _ => hstop (.inr rfl)) (.inl (by decide))))))
  | @function a decorators parameters body h hbody ih =>
    intro modes last r ho hr _ _
    have ho' := outside_statements modes
    cases body with
    | nil =>
      have hchars : (print (.function a decorators parameters [])).toList ++ r =
          decorators.print.toList ++ '\x7b' :: ' ' :: '\x7d' :: r := by
        simp [print]
      rw [hchars]
      exact lexes_decorators ho h.1.1.1 fun _ =>
        (lexes_leftBrace ho).cons (.blank ho' (lexes_rightBrace ho'))
    | cons e body =>
      have hchars : (print (.function a decorators parameters (e :: body))).toList ++ r =
          decorators.print.toList ++
            '\x7b' :: '\n' :: ((printBody (e :: body)).toList ++ '\x7d' :: r) := by
        simp [print, printBody]
      have hshapes : shapes (.function a decorators parameters (e :: body)) = decorators.shapes ++
          (.leftBrace, "\x7b") :: (.newline, "\n") :: (bodyShapes (e :: body) ++
            [(.rightBrace, "\x7d")]) := by
        simp [shapes, bodyShapes]
      rw [hchars, hshapes]
      exact lexes_decorators ho h.1.1.1 fun _ => (lexes_leftBrace ho).cons
        ((lexes_newline ho' rfl (by decide)).cons ((lexes_body hbody ih).append (lexes_rightBrace ho')))
  | builtin h => exact absurd h.1 id

/-! ### Programs

Expressions on lines of their own. -/

theorem lexes_lines {exprs : List Expr} (h : ∀ e ∈ exprs, e.Every Printable)
    (hlast : OperandStart last) :
    Lexer.Lexes [] last (printAll exprs).toList (lines exprs) [] [] := by
  have hend : NumberStops [] := ⟨nofun, nofun⟩
  induction exprs generalizing last with
  | nil => exact .nil
  | cons e exprs ih =>
    obtain ⟨he, hrest⟩ := List.forall_mem_cons.mp h
    cases exprs with
    | nil =>
      have hchars : (printAll [e]).toList = e.print.toList ++ [] := by
        simp [printAll]
      rw [hchars]
      exact lexes_print he [] last [] outside_nil nofun (fun _ => hend) (.inl hlast)
    | cons next exprs =>
      have hchars : (printAll (e :: next :: exprs)).toList =
          e.print.toList ++ '\n' :: (printAll (next :: exprs)).toList := by
        simp [printAll, String.intercalate_cons_cons]
      have hnewline : Follows ('\n' :: (printAll (next :: exprs)).toList) := follows_cons (by decide)
      obtain ⟨kind, hkind, hne⟩ := after_shapes he last
      rw [hchars, lines]
      refine (lexes_print he [] last _ outside_nil hnewline
        (fun _ => hnewline.numberStops (by decide)) (.inl hlast)).append ?_
      rw [hkind]
      exact (lexes_newline outside_nil rfl hne).cons (ih hrest (by decide))

/-- **The tokens of a printed program.**  There is no error among them. -/
theorem ofText_printAll {exprs : List Expr} (h : ∀ e ∈ exprs, e.Every Printable) :
    (ofText (printAll exprs)).tokens.map Token.shape = lines exprs ++ [(.eof, "")] ∧
      (ofText (printAll exprs)).errors = [] := by
  have hlex : Lexer.Lexes [] none (printAll exprs).toList (lines exprs) [] [] :=
    lexes_lines h (by decide)
  obtain ⟨n, s, hn, hrun, hmodes, hrest, herrors, hshapes⟩ :=
    hlex (.start (printAll exprs).toList) rfl rfl rfl
  have hfuel : 2 * (printAll exprs).toList.length + 2 =
      n + (2 * (printAll exprs).toList.length + 1 - n) + 1 := by
    have hle : n ≤ (printAll exprs).toList.length := hn
    omega
  -- nothing is left, so the lexer finishes in the next round
  have hgap : s.skipGap.rest = [] := by
    rw [State.skipGap, hrest]
    rfl
  have hfinish : State.run (2 * (printAll exprs).toList.length + 2)
      (.start (printAll exprs).toList) = s.skipGap.finish := by
    rw [hfuel, hrun, State.run_outside (hmodes ▸ outside_nil), hgap]
  have hclosed : s.skipGap.finish = s.skipGap.emit .eof [] [] := by
    have hnone : s.skipGap.modes.contains .interpolation = false := by
      rw [show s.skipGap.modes = [] from hmodes]
      rfl
    rw [State.finish, hnone]
    rfl
  rw [ofText, hfinish, hclosed]
  refine ⟨?_, ?_⟩
  · have hreverse : (s.skipGap.emit .eof [] []).shapes = (.eof, "") :: (lines exprs).reverse := by
      show _ :: s.shapes = _
      rw [hshapes]
      simp [State.shapes, State.start]
      rfl
    rw [List.map_reverse]
    exact (congrArg List.reverse hreverse).trans (by simp)
  · show s.errors.reverse = []
    rw [herrors]
    rfl

end Expr

end

end Protean
