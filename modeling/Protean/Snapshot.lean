import Protean.Machine.Basic

/-!
# Snapshot

A description of what a run has left.  Objects that are there from the start go by the name under
which they can be reached then; all others are numbered in the order in which the description comes
across them: the result, what the global scope holds beyond the start, and then object by object what
each refers to.
-/

namespace Protean

/-- A value in a description. -/
inductive Shown where
  | null
  | number (x : Float)
  | string (text : String)
  | boolean (b : Bool)
  | known (name : String)
  | numbered (n : Nat)

/-- A field in a description, with the span of its source. -/
structure ShownField where
  key : Key
  value : Shown
  source : Option Span

/-- A numbered object. -/
structure ShownObject where
  kind : ObjectKind
  proto : Shown
  scope : Option Shown
  fields : List ShownField

structure Snapshot where
  result : Shown
  globals : List ShownField
  objects : List ShownObject

namespace Snapshot

/-- Names of objects, earliest first. -/
abbrev Names := List (ObjectId × String)

/-- Names each object that a field holds, unless it has a name already. -/
def nameFields (label : Key → String) (fields : Fields) (names : Names) : Names :=
  fields.foldl
    (fun names (key, v) =>
      match v.value with
      | .object id => if (names.lookup id).isSome then names else names ++ [(id, label key)]
      | _ => names)
    names

/-- The global scope, what it holds, and what that holds. -/
def namesOf (m : Machine) : Names :=
  let direct := nameFields Key.render (m.heap.fields m.global) [(m.global, "global")]
  direct.tail.foldl
    (fun names (id, owner) =>
      nameFields (fun key => owner ++ "." ++ key.render) (m.heap.fields id) names)
    direct

/-- The numbers given so far: the objects in order, and for each place of the heap its number. -/
structure Numbering where
  objects : Array ObjectId
  numbers : Array (Option Nat)

namespace Numbering

/-- Shows an object, with the next number if it is new. -/
def showObject (names : Names) (n : Numbering) (id : ObjectId) : Shown × Numbering :=
  match names.lookup id with
  | some name => (.known name, n)
  | none =>
    match n.numbers.getD id none with
    | some k => (.numbered k, n)
    | none =>
      let k := n.objects.size
      (.numbered k, ⟨n.objects.push id, n.numbers.setIfInBounds id (some k)⟩)

def showValue (names : Names) (n : Numbering) : Value → Shown × Numbering
  | .null => (.null, n)
  | .number x => (.number x, n)
  | .string text => (.string text, n)
  | .boolean b => (.boolean b, n)
  | .object id => n.showObject names id

def showFields (names : Names) : Numbering → Fields → List ShownField × Numbering
  | n, [] => ([], n)
  | n, (key, v) :: rest =>
    let (value, n) := n.showValue names v.value
    let (shown, n) := showFields names n rest
    (⟨key, value, v.source.bind Expr.span⟩ :: shown, n)

/-- Shows an optional object. -/
def showOption (names : Names) (n : Numbering) : Option ObjectId → Shown × Numbering
  | some id => n.showObject names id
  | none => (.null, n)

/-- Describes the object numbered `k` and those after it, which may be numbered on the way; at most
`fuel` of them. -/
def describe (names : Names) (h : Heap) :
    Nat → Nat → Numbering → List ShownObject → List ShownObject
  | 0, _, _, read => read.reverse
  | fuel + 1, k, n, read =>
    match n.objects[k]? with
    | none => read.reverse
    | some id =>
      let o := h.get id
      let (proto, n) := n.showOption names o.proto
      let (scope, n) :=
        match o.kind with
        | .function _ scope =>
          let (shown, n) := n.showObject names scope
          (some shown, n)
        | _ => (none, n)
      let (fields, n) := n.showFields names o.fields
      describe names h fuel (k + 1) n (⟨o.kind, proto, scope, fields⟩ :: read)

end Numbering

/-- The fields of the global scope that do not hold what they held at the start. -/
def changedGlobals (start m : Machine) : Fields :=
  let before := start.heap.fields start.global
  (m.heap.fields m.global).filter fun (key, v) =>
    match before.find? key with
    | some old => !v.value.same old.value
    | none => true

/-- Describes a machine that was `start` after starting up, with the result of the run if it has
one. -/
def take (start m : Machine) (result : Option Value) : Snapshot :=
  let names := namesOf start
  let size := m.heap.size
  let n : Numbering := ⟨#[], Array.replicate size none⟩
  let (shown, n) := n.showValue names (result.getD .null)
  let (globals, n) := n.showFields names (changedGlobals start m)
  ⟨shown, globals, n.describe names m.heap (size + 1) 0 []⟩

end Snapshot

end Protean
