import Protean.Machine.Call
import Protean.Text.Casing

/-!
# Builtin — Apply

What the builtin functions do.  Most of them receive their arguments evaluated and checked; the lazy
ones evaluate and check one argument at a time.  Those that call back do so through `invoke`, and a
loop has a bound on its rounds, for which the limits of the run leave room enough.
-/

namespace Protean

/-- A call of a value with arguments. -/
abbrev Invoker := Labeled → CallArguments → Eval Labeled

namespace Builtin

/-- Calls `callee` with positional values and without a receiver. -/
def callWith (invoke : Invoker) (callee : Labeled) (values : List Labeled) : Eval Labeled := fun m =>
  let global := m.global
  invoke callee (.ofValues values global) m

/-! ### Arguments of a given kind -/

def expectNumber (v : Labeled) (who : String) : Eval Float :=
  match v.value with
  | .number x => Eval.pure x
  | other => Eval.misuse (.wrongKind who "number" other.kindName)

def expectString (v : Labeled) (who : String) : Eval String :=
  match v.value with
  | .string text => Eval.pure text
  | other => Eval.misuse (.wrongKind who "string" other.kindName)

def expectBoolean (v : Labeled) (who : String) : Eval Bool :=
  match v.value with
  | .boolean b => Eval.pure b
  | other => Eval.misuse (.wrongKind who "boolean" other.kindName)

/-- A string names a field, and so does a number that is an index. -/
def expectKey (v : Labeled) (who : String) : Eval Key :=
  match v.value with
  | .string text => Eval.pure (.name text)
  | .number x =>
    if 0 ≤ x && Number.isWhole x then Eval.pure (.index (Number.toIndex x))
    else Eval.misuse (.wrongKind who "field key" "number")
  | other => Eval.misuse (.wrongKind who "field key" other.kindName)

/-- A key as a value. -/
def keyValue : Key → Value
  | .name text => .string text
  | .index n => .number (Number.ofIndex n)

/-! ### Numbers and operators -/

/-- Folds the positional numbers, of which there must be one. -/
def foldNumbers (who : String) (pick : Float → Float → Float) :
    Option Float → Entries → Eval Labeled
  | some x, [] => Eval.pure (.bare (.number x))
  | none, [] => Eval.misuse (.noNumbers who)
  | best, (_, v) :: rest => do
    let x ← expectNumber v who
    foldNumbers who pick (some ((best.map (pick · x)).getD x)) rest

/-- A number computed from the receiver. -/
def onReceiver (who : String) (f : Float → Float) (args : Entries) : Eval Labeled := do
  let x ← expectNumber args.self who
  return .bare (.number (f x))

/-- A string computed from the receiver. -/
def onText (who : String) (f : String → Value) (args : Entries) : Eval Labeled := do
  let text ← expectString args.self who
  return .bare (f text)

/-- A value computed from two numbers. -/
def onNumbers (who : String) (f : Float → Float → Value) (args : Entries) : Eval Labeled := do
  let x ← expectNumber (args.positional 0) who
  let y ← expectNumber (args.positional 1) who
  return .bare (f x y)

/-- Adds numbers; where a string is involved, joins the texts of both sides. -/
def addValues (left right : Value) : Eval Labeled :=
  match left, right with
  | .number x, .number y => Eval.pure (.bare (.number (x + y)))
  | .string _, _ | _, .string _ =>
    Eval.ask fun h => .bare (.string (h.display left ++ h.display right))
  | _, _ => Eval.misuse (.cannotAdd left.kindName right.kindName)

/-- Whether `needle` stands somewhere in `text`. -/
def occursIn (needle : List Char) : List Char → Bool
  | [] => needle.isEmpty
  | c :: cs => needle.isPrefixOf (c :: cs) || occursIn needle cs

/-! ### Objects and lists -/

/-- An object of the positional arguments under their indices and the named ones under their names. -/
def newObject (args : Entries) : Eval Labeled := do
  let id ← Eval.change fun h => h.allocPlain (some Heap.objectProto)
  setAll id args.positionals
  setAll id args.nameds
  return .bare (.object id)

/-- Calls back with value and key of each of the fields. -/
def forEachField (invoke : Invoker) (callback : Labeled) : Fields → Eval Labeled
  | [] => Eval.pure .null
  | (key, v) :: rest => do
    let _ ← callWith invoke callback [v, .bare (keyValue key)]
    forEachField invoke callback rest

/-- A list of the positional arguments: its elements under their indices, and their number. -/
def newList (scope : ObjectId) (args : Entries) : Eval Labeled := do
  let proto ← Eval.ask fun h => h.getField scope (.name "listProto")
  match proto.value with
  | .object proto =>
    let id ← Eval.change fun h => h.allocPlain (some proto)
    setAll id args.positionals
    setAll id [(.name "length", .bare (.number (Number.ofIndex args.positionals.length)))]
    return .bare (.object id)
  | _ => Eval.misuse .noListProto

/-- Puts a value behind the last element of a list. -/
def appendTo (args : Entries) : Eval Labeled :=
  match args.self.value with
  | .object id => do
    let length ← Eval.ask fun h => h.getField id (.name "length")
    let length ← expectNumber length "add"
    let v := args.positional 0
    setAll id [(.index (Number.toIndex length), v),
      (.name "length", .bare (.number (length + 1)))]
    return v
  | _ => Eval.misuse .noListReceiver

/-! ### Control -/

/-- Calls `body` as long as `condition` yields true, at most `rounds` times, and yields what the last
call of `body` did. -/
def loopWhile (invoke : Invoker) (condition body : Labeled) : Nat → Labeled → Eval Labeled
  | 0, _ => Eval.starve
  | rounds + 1, last => do
    let again ← callWith invoke condition []
    let again ← expectBoolean again "while condition"
    if again then
      let v ← callWith invoke body []
      loopWhile invoke condition body rounds v
    else return last

/-- Calls one of two branches; a branch that is null yields null. -/
def chooseBranch (invoke : Invoker) (args : Entries) : Eval Labeled := do
  let taken ← expectBoolean (args.positional 0) "if"
  let branch := if taken then args.positional 1 else args.positional 2
  if branch.value.isNull then return .null else callWith invoke branch []

/-! ### All of them -/

/-- A builtin function on evaluated and checked arguments. -/
def applyEager (invoke : Invoker) (rounds : Nat) (scope : ObjectId) (args : Entries) :
    Builtin → Eval Labeled
  | .object => newObject args
  | .forEach =>
    match args.self.value with
    | .object id => do
      let fields ← Eval.ask fun h => h.fields id
      forEachField invoke (args.positional 0) fields
    | _ => Eval.pure .null
  | .get => do
    let key ← expectKey (args.positional 0) "get"
    Eval.read fun h => h.getValueField args.self.value key
  | .set => do
    let key ← expectKey (args.positional 0) "set"
    let v := args.positional 1
    Eval.write fun h => h.setValueField args.self.value key v true
    return v
  | .has => do
    let key ← expectKey (args.positional 0) "has"
    let v ← Eval.read fun h => h.getValueField args.self.value key
    return .bare (.boolean (!v.value.isNull))
  | .not => do
    let b ← expectBoolean (args.positional 0) "!"
    return .bare (.boolean (!b))
  | .floor => onReceiver "floor" Number.floor args
  | .ceil => onReceiver "ceil" Number.ceil args
  | .round => onReceiver "round" Number.round args
  | .abs => onReceiver "abs" Number.abs args
  | .min => foldNumbers "min" Number.lesser none args.positionals
  | .max => foldNumbers "max" Number.greater none args.positionals
  | .string => Eval.ask fun h => .bare (.string (h.display (args.positional 0).value))
  | .stringLength => onText "length" (fun s => .number (Number.ofIndex s.length)) args
  | .toUpperCase => onText "toUpperCase" (fun s => .string (Text.toUpper s)) args
  | .toLowerCase => onText "toLowerCase" (fun s => .string (Text.toLower s)) args
  | .contains => do
    let text ← expectString args.self "contains"
    let needle ← expectString (args.positional 0) "contains"
    return .bare (.boolean (occursIn needle.toList text.toList))
  | .choose => chooseBranch invoke args
  | .loop => loopWhile invoke (args.positional 0) (args.positional 1) rounds .null
  | .raise => do
    let message ← expectString (args.positional 0) "error"
    Eval.fail (.raised message)
  | .add => addValues (args.positional 0).value (args.positional 1).value
  | .subtract => onNumbers "-" (fun x y => .number (x - y)) args
  | .multiply => onNumbers "*" (fun x y => .number (x * y)) args
  | .divide => onNumbers "/" (fun x y => .number (x / y)) args
  | .remainder => onNumbers "%" (fun x y => .number (Number.remainder x y)) args
  | .less => onNumbers "<" (fun x y => .boolean (x < y)) args
  | .lessOrEqual => onNumbers "<=" (fun x y => .boolean (x ≤ y)) args
  | .greater => onNumbers ">" (fun x y => .boolean (y < x)) args
  | .greaterOrEqual => onNumbers ">=" (fun x y => .boolean (y ≤ x)) args
  | .equal =>
    Eval.pure (.bare (.boolean ((args.positional 0).value.same (args.positional 1).value)))
  | .notEqual =>
    Eval.pure (.bare (.boolean (!(args.positional 0).value.same (args.positional 1).value)))
  | .list => newList scope args
  | .listAdd => appendTo args
  | .constTrue | .constFalse | .and | .or | .coalesce => Eval.pure .null

/-- Evaluates the positional argument `n` and checks it as far as a parameter is declared for it. -/
def forced (eval : Evaluator) (parameters : List Parameter) (args : CallArguments) (n : Nat) :
    Eval Labeled := do
  let v ← evaluatePositional eval args n
  validate [(.index n, v)] (parameters.filter fun p => p.key = .index n)
  return v

/-- A lazy builtin function: the operators evaluate their right side only if the left one does not
decide. -/
def applyLazy (eval : Evaluator) (args : CallArguments) (which : Builtin) : Eval Labeled :=
  match which with
  | .constTrue => Eval.pure (.bare (.boolean true))
  | .constFalse => Eval.pure (.bare (.boolean false))
  | .and => do
    let left ← forced eval which.parameters args 0
    let b ← expectBoolean left "&&"
    if b then forced eval which.parameters args 1 else return left
  | .or => do
    let left ← forced eval which.parameters args 0
    let b ← expectBoolean left "||"
    if b then return left else forced eval which.parameters args 1
  | .coalesce => do
    let left ← forced eval which.parameters args 0
    if left.value.isNull then forced eval which.parameters args 1 else return left
  | _ => Eval.pure .null

/-- Calls a builtin function that was made in `scope`. -/
def apply (eval : Evaluator) (invoke : Invoker) (rounds : Nat) (which : Builtin) (scope : ObjectId)
    (args : CallArguments) : Eval Labeled :=
  if which.isLazy then applyLazy eval args which
  else do
    let entries ← materialize eval args
    validate entries which.parameters
    applyEager invoke rounds scope entries which

end Builtin

end Protean
