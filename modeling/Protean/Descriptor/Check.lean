import Protean.Heap.Basic

/-!
# Descriptor — Check

Whether a value fits a descriptor, and if not, which descriptor refused it and under which keys the
refused part is found.  The elements of a list are looked at in order; of the indices that hold no
element only the first counts, for all of them read as null.
-/

namespace Protean

/-- The descriptor that refused a value, by its name, and the keys that lead to the value. -/
structure Mismatch where
  expected : String
  path : List Key := []

namespace Mismatch

/-- The same refusal, seen from one field further up. -/
def under (m : Mismatch) (key : Key) : Mismatch := { m with path := key :: m.path }

end Mismatch

/-- Keys as a path with dots. -/
def Key.renderPath (path : List Key) : String := ".".intercalate (path.map Key.render)

/-- The first refusal of any of the items. -/
def firstMismatch {α : Type} (check : α → Except Mismatch Unit) : List α → Except Mismatch Unit
  | [] => .ok ()
  | a :: as =>
    match check a with
    | .ok () => firstMismatch check as
    | .error m => .error m

namespace Primitive

def accepts (h : Heap) : Primitive → Value → Bool
  | .any, _ => true
  | .null, .null => true
  | .number, .number _ => true
  | .string, .string _ => true
  | .boolean, .boolean _ => true
  | .function, v => h.isCallable v
  | .object, .object _ => true
  | _, _ => false

end Primitive

namespace Heap

/-- The length of a list: a number without a fraction, zero or more, in the field `length`. -/
def listLength? (h : Heap) (id : ObjectId) : Option Nat :=
  match (h.getField id (.name "length")).value with
  | .number x => if 0 ≤ x && Number.isWhole x then some (Number.toIndex x) else none
  | _ => none

/-- The indices below `length` that can be read from an object, in ascending order. -/
def storedIndices (h : Heap) (id : ObjectId) (length : Nat) : List Nat :=
  ((h.visibleKeys (.object id)).filterMap fun key =>
    match key with
    | .index n => if n < length then some n else none
    | .name _ => none).mergeSort

end Heap

/-- The first number from `n` on that the ascending list leaves out. -/
def firstGap : Nat → List Nat → Nat
  | n, [] => n
  | n, i :: is => if i = n then firstGap (n + 1) is else n

/-- The stored indices together with the first index below `length` that is not among them. -/
def withFirstGap (indices : List Nat) (length : Nat) : List Nat :=
  let gap := firstGap 0 indices
  if gap < length then indices.take gap ++ gap :: indices.drop gap else indices

namespace Descriptor

mutual

/-- Checks a value against a descriptor. -/
def check (h : Heap) : Descriptor → Value → Except Mismatch Unit
  | .primitive kind, v => if kind.accepts h v then .ok () else .error ⟨kind.label, []⟩
  | .or alternatives, v =>
    if checkAny h alternatives v then .ok () else .error ⟨label (.or alternatives), []⟩
  | .objectOf fields, .object id => checkFields h fields id
  | .objectOf fields, _ => .error ⟨label (.objectOf fields), []⟩
  | .listOf element, .object id =>
    if (h.get id).kind.isCallable then .error ⟨label (.listOf element), []⟩
    else
      match h.listLength? id with
      | none => .error ⟨label (.listOf element), [.name "length"]⟩
      | some length =>
        firstMismatch
          (fun i =>
            match element.check h (h.getField id (.index i)).value with
            | .ok () => .ok ()
            | .error m => .error (m.under (.index i)))
          (withFirstGap (h.storedIndices id length) length)
  | .listOf element, _ => .error ⟨label (.listOf element), []⟩

/-- Some alternative accepts the value. -/
def checkAny (h : Heap) : List Descriptor → Value → Bool
  | [], _ => false
  | t :: ts, v => (t.check h v).isOk || checkAny h ts v

/-- The fields of an object, in the order of the descriptor. -/
def checkFields (h : Heap) : List (Key × Descriptor) → ObjectId → Except Mismatch Unit
  | [], _ => .ok ()
  | (key, t) :: fields, id =>
    match t.check h (h.getField id key).value with
    | .ok () => checkFields h fields id
    | .error m => .error (m.under key)

end

end Descriptor

end Protean
