import Protean.Expr.Printer
import Protean.Proofs.Token.Lexeme

/-!
# Proofs — Expr — the shape of trees

What is said about the nodes of an expression here does not depend on where they stand:

* `Expr.strip` forgets all spans and whether nodes may be edited, and nothing else;
* `Expr.Every P` says that `P` holds of every node of a tree;
* `Expr.Grammatical` describes the nodes that the grammar has, whatever text they are read from;
* `Expr.Reprintable` describes the nodes whose printed form can be read: it leaves out numbers that are
  printed with anything but digits, a sign and a point, an index right behind a number, and an
  assignment in the place of an argument.

The equations of `strip` stand beside it by name (`strip_identifier`, …, `strip_function`), since the definition is
mutual with those for bodies and arguments, which are maps (`stripAll_eq_map`, `stripArgs_eq_map`).
-/

namespace Protean

namespace Expr

/-! ### Kinds of nodes

Which expressions are functions, fields or assignments. -/

/-- Whether the node assigns to a name or a field, or to several names. -/
def isAssignment : Expr → Bool
  | .bind .. | .store .. | .destructure .. => true
  | _ => false

/-- Whether the node reads a field. -/
def isField : Expr → Bool
  | .field .. => true
  | _ => false

/-- Whether the node is a function. -/
def isFunction : Expr → Bool
  | .function .. => true
  | _ => false

/-- Whether the node is a number. -/
def isNumber : Expr → Bool
  | .literal _ (.number _) => true
  | _ => false

/-! ### Forgetting places

Trees without spans, which is how trees are compared. -/

mutual

/-- The expression without spans; no node may be told from another by where it stands. -/
def strip : Expr → Expr
  | .identifier _ name => .identifier .nowhere name
  | .literal _ value => .literal .nowhere value
  | .bracket _ inner => .bracket .nowhere inner.strip
  | .field _ target key _ => .field .nowhere target.strip key none
  | .call _ target args trailing =>
    .call .nowhere target.strip (stripArgs args) (stripAll trailing)
  | .send _ target key _ args trailing =>
    .send .nowhere target.strip key none (stripArgs args) (stripAll trailing)
  | .bind _ name _ value => .bind .nowhere name none value.strip
  | .store _ target key _ value => .store .nowhere target.strip key none value.strip
  | .destructure _ names value => .destructure .nowhere names value.strip
  | .function _ decorators parameters body =>
    .function .nowhere decorators parameters (stripAll body)
  | .builtin _ which => .builtin .nowhere which

/-- The trees of a body without their places. -/
def stripAll : List Expr → List Expr
  | [] => []
  | e :: es => e.strip :: stripAll es

/-- The trees of arguments without their places. -/
def stripArgs : List (Argument Expr) → List (Argument Expr)
  | [] => []
  | ⟨name, e⟩ :: args => ⟨name, e.strip⟩ :: stripArgs args

end

section
variable {a : Anchor} {target value : Expr} {key : Key} {span : Option Span}
  {args : List (Argument Expr)} {trailing : List Expr}

theorem strip_identifier {name : String} :
    strip (.identifier a name) = .identifier .nowhere name := rfl

theorem strip_bracket {inner : Expr} : strip (.bracket a inner) = .bracket .nowhere inner.strip := rfl

/-- A field keeps its key, but not where it is written. -/
theorem strip_field : strip (.field a target key span) = .field .nowhere target.strip key none := rfl

/-- A call strips its target and all that it passes on. -/
theorem strip_call :
    strip (.call a target args trailing) =
      .call .nowhere target.strip (stripArgs args) (stripAll trailing) := rfl

/-- A call of a method does, too, and keeps the key of the method. -/
theorem strip_send :
    strip (.send a target key span args trailing) =
      .send .nowhere target.strip key none (stripArgs args) (stripAll trailing) := rfl

theorem strip_bind {name : String} :
    strip (.bind a name span value) = .bind .nowhere name none value.strip := rfl

/-- An assignment to a field keeps the key. -/
theorem strip_store :
    strip (.store a target key span value) =
      .store .nowhere target.strip key none value.strip := rfl

/-- An assignment to several names keeps the names. -/
theorem strip_destructure {names : List String} :
    strip (.destructure a names value) = .destructure .nowhere names value.strip := rfl

/-- A function keeps its remarks and parameters, and strips its body. -/
theorem strip_function {decorators : Decorators} {parameters : List Parameter} {body : List Expr} :
    strip (.function a decorators parameters body) =
      .function .nowhere decorators parameters (stripAll body) := rfl

end

/-- The trees of a body are stripped one at a time. -/
theorem stripAll_eq_map : ∀ es : List Expr, stripAll es = es.map strip
  | [] => rfl
  | e :: es => by rw [stripAll, stripAll_eq_map es, List.map_cons]

/-- The trees of arguments are stripped one at a time, and keep their names. -/
theorem stripArgs_eq_map :
    ∀ args : List (Argument Expr), stripArgs args = args.map fun a => ⟨a.name, a.value.strip⟩
  | [] => rfl
  | a :: args => by rw [stripArgs, stripArgs_eq_map args, List.map_cons]

/-! ### Properties of all nodes

A property that holds of a node and of all nodes below it, as an inductive predicate with a rule for every
kind of node. -/

/-- `P` holds of the expression and of everything that is nested in it. -/
inductive Every (P : Expr → Prop) : Expr → Prop where
  | identifier {a name} (h : P (.identifier a name)) : Every P (.identifier a name)
  | literal {a value} (h : P (.literal a value)) : Every P (.literal a value)
  | bracket {a inner} (h : P (.bracket a inner)) (hinner : Every P inner) :
      Every P (.bracket a inner)
  | field {a target key span} (h : P (.field a target key span)) (htarget : Every P target) :
      Every P (.field a target key span)
  | call {a target args trailing} (h : P (.call a target args trailing)) (htarget : Every P target)
      (hargs : ∀ arg ∈ args, Every P arg.value) (htrailing : ∀ f ∈ trailing, Every P f) :
      Every P (.call a target args trailing)
  | send {a target key span args trailing} (h : P (.send a target key span args trailing))
      (htarget : Every P target) (hargs : ∀ arg ∈ args, Every P arg.value)
      (htrailing : ∀ f ∈ trailing, Every P f) : Every P (.send a target key span args trailing)
  | bind {a name span value} (h : P (.bind a name span value)) (hvalue : Every P value) :
      Every P (.bind a name span value)
  | store {a target key span value} (h : P (.store a target key span value))
      (htarget : Every P target) (hvalue : Every P value) : Every P (.store a target key span value)
  | destructure {a names value} (h : P (.destructure a names value)) (hvalue : Every P value) :
      Every P (.destructure a names value)
  | function {a decorators parameters body} (h : P (.function a decorators parameters body))
      (hbody : ∀ e ∈ body, Every P e) : Every P (.function a decorators parameters body)
  | builtin {a which} (h : P (.builtin a which)) : Every P (.builtin a which)

/-- Two properties that hold of every node hold of every node together. -/
theorem Every.and {P Q : Expr → Prop} {e : Expr} (hp : e.Every P) (hq : e.Every Q) :
    e.Every fun e => P e ∧ Q e := by
  induction hp with
  | identifier h => cases hq with | identifier h' => exact .identifier ⟨h, h'⟩
  | literal h => cases hq with | literal h' => exact .literal ⟨h, h'⟩
  | bracket h _ ih => cases hq with | bracket h' hi => exact .bracket ⟨h, h'⟩ (ih hi)
  | field h _ ih => cases hq with | field h' ht => exact .field ⟨h, h'⟩ (ih ht)
  | call h _ _ _ ih iha iht =>
    cases hq with
    | call h' ht ha htr =>
      exact .call ⟨h, h'⟩ (ih ht) (fun a hmem => iha a hmem (ha a hmem))
        fun f hmem => iht f hmem (htr f hmem)
  | send h _ _ _ ih iha iht =>
    cases hq with
    | send h' ht ha htr =>
      exact .send ⟨h, h'⟩ (ih ht) (fun a hmem => iha a hmem (ha a hmem))
        fun f hmem => iht f hmem (htr f hmem)
  | bind h _ ih => cases hq with | bind h' hv => exact .bind ⟨h, h'⟩ (ih hv)
  | store h _ _ iht ihv =>
    cases hq with | store h' ht hv => exact .store ⟨h, h'⟩ (iht ht) (ihv hv)
  | destructure h _ ih => cases hq with | destructure h' hv => exact .destructure ⟨h, h'⟩ (ih hv)
  | function h _ ih =>
    cases hq with
    | function h' hb => exact .function ⟨h, h'⟩ fun e hmem => ih e hmem (hb e hmem)
  | builtin h => cases hq with | builtin h' => exact .builtin ⟨h, h'⟩

/-- What holds of every node holds of the tree itself. -/
theorem Every.node {P : Expr → Prop} {e : Expr} (h : e.Every P) : P e := by
  cases h <;> assumption

end Expr

/-! ### Nodes of the grammar

What a strict reader may build. -/

/-- A text that is read as one name or operator. -/
def Token.IsName (text : String) : Prop := IsIdentifier text ∨ IsOperator text

/-- A key that can be written behind a dot. -/
def Key.Writable : Key → Prop
  | .name text => Token.IsName text
  | .index n => n < Number.indexLimit

/-- Names of decorators are identifiers, and none stands twice. -/
def Decorators.Writable (decorators : Decorators) : Prop :=
  (∀ d ∈ decorators, Token.IsIdentifier d.1) ∧ (decorators.map Prod.fst).Nodup

namespace Expr

/-- What stands behind a call or a field: named arguments have names, and only functions trail. -/
def TailWritable (args : List (Argument Expr)) (trailing : List Expr) : Prop :=
  (∀ arg ∈ args, ∀ name, arg.name = some name → Token.IsName name) ∧
    ∀ f ∈ trailing, f.isFunction = true

/-- A node of the grammar.  An assignment is no operand, and a field that is called is sent to its
object. -/
def Grammatical : Expr → Prop
  | .identifier _ name => Token.IsName name
  | .literal .. | .bracket .. => True
  | .field _ target key _ => target.isAssignment = false ∧ key.Writable
  | .call _ target args trailing =>
    target.isAssignment = false ∧ target.isField = false ∧ TailWritable args trailing
  | .send _ target key _ args trailing =>
    target.isAssignment = false ∧ key.Writable ∧ TailWritable args trailing
  | .bind _ name _ value => Token.IsName name ∧ value.isAssignment = false
  | .store _ target key _ value =>
    target.isAssignment = false ∧ key.Writable ∧ value.isAssignment = false
  | .destructure _ names value =>
    names ≠ [] ∧ (∀ name ∈ names, Token.IsIdentifier name) ∧ value.isAssignment = false
  | .function _ decorators parameters _ => decorators.Writable ∧ parameters = []
  | .builtin .. => False

end Expr

/-! ### Nodes that print legibly

What is asked for of a tree that is to be read again after it has been printed. -/

/-- Digits, with a sign in front or none, and with a point and digits behind them or none. -/
def Number.IsPlain (cs : List Char) : Prop :=
  ∃ sign whole fraction : List Char, cs = sign ++ whole ++ fraction ∧ (sign = [] ∨ sign = ['-']) ∧
    whole ≠ [] ∧ (∀ c ∈ whole, c.isDigit) ∧
      (fraction = [] ∨ ∃ digits, fraction = '.' :: digits ∧ digits ≠ [] ∧ ∀ c ∈ digits, c.isDigit)

/-- A number whose text is plain and reads back as the number. -/
def Number.Legible (x : Float) : Prop := IsPlain (render x).toList ∧ read? (render x) = some x

namespace Expr

/-- A key that can stand right behind the target: no index stands behind a number. -/
def KeyFits (target : Expr) (key : Key) : Prop := ∀ n, key = .index n → target.isNumber = false

/-- A node that can be read when it is printed. -/
def Reprintable : Expr → Prop
  | .literal _ (.number x) => Number.Legible x
  | .field _ target key _ | .store _ target key _ _ => KeyFits target key
  | .call _ _ args _ => ∀ arg ∈ args, arg.value.isAssignment = false
  | .send _ target key _ args _ =>
    KeyFits target key ∧ ∀ arg ∈ args, arg.value.isAssignment = false
  | _ => True

end Expr

end Protean
