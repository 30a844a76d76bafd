import Protean.Descriptor.Check
import Protean.Proofs.Heap.WellFormed

/-!
# Proofs — Heap — other code for functions

`Heap.recode f` gives every function on the heap the code that `f` makes of its own.  A heap is never asked
what a function does, only whether something is one, so every operation of a heap commutes with `recode`:
reading gives the same values, and writing changes the same fields and links.

`Heap.Functions C` says that `C` holds of all functions on the heap.  Only allocation adds any.

* `get_recode`, `chain_recode`, `getField_recode`: reading sees no code.
* `writeOwn_recode`, `setProto_recode`, `setValueField_recode`: writing neither looks at code nor changes it.
* `check_recode`: nor do the checks of descriptors.
* `Functions.alloc`, `Functions.initial`: what holds of all functions.
-/

namespace Protean

/-- The kind with other code for a function. -/
def ObjectKind.recode (f : Lambda → Lambda) : ObjectKind → ObjectKind
  | .plain => .plain
  | .function lambda scope => .function (f lambda) scope
  | .builtin which scope => .builtin which scope

/-- A function with other code is a function. -/
@[simp] theorem ObjectKind.isCallable_recode (f : Lambda → Lambda) (kind : ObjectKind) :
    (kind.recode f).isCallable = kind.isCallable := by
  cases kind <;> rfl

/-- The object, with other code if it is a function. -/
def Object.recode (f : Lambda → Lambda) (o : Object) : Object := { o with kind := o.kind.recode f }

namespace Heap

/-- The heap with other code for all functions. -/
def recode (f : Lambda → Lambda) (h : Heap) : Heap := ⟨h.objects.map (Object.recode f)⟩

section
variable (f : Lambda → Lambda) (h : Heap)

@[simp] theorem size_recode : (h.recode f).size = h.size := by simp [recode, size]

@[simp] theorem get_recode (id : ObjectId) : (h.recode f).get id = (h.get id).recode f := by
  simp only [get, recode, Array.getD_eq_getD_getElem?, Array.getElem?_map]
  cases h.objects[id]? <;> rfl

@[simp] theorem fields_recode (id : ObjectId) : (h.recode f).fields id = h.fields id := by
  rw [fields, get_recode, Object.recode, fields]

@[simp] theorem proto_recode (id : ObjectId) : (h.recode f).proto id = h.proto id := by
  rw [proto, get_recode, Object.recode, proto]

/-- A new object may get its code before or after it is made. -/
theorem recode_alloc (o : Object) :
    (h.recode f).alloc (o.recode f) = ((h.alloc o).1, (h.alloc o).2.recode f) := by
  simp [alloc, recode, size]

/-- An update that does not touch code commutes with other code. -/
theorem recode_modify {g : Object → Object} (hg : ∀ o, (g o).recode f = g (o.recode f))
    (id : ObjectId) : (h.recode f).modify id g = (h.modify id g).recode f := by
  rw [modify, modify, recode, recode]
  refine congrArg Heap.mk (Array.ext (by simp) fun i hi _ => ?_)
  simp only [Array.getElem_modify, Array.getElem_map]
  split
  · exact (hg _).symm
  · rfl

/-! ### Reading

Fields, chains and what is displayed do not depend on the code of functions. -/

@[simp] theorem chain_recode (id : ObjectId) : (h.recode f).chain id = h.chain id := by
  have hfrom : ∀ (fuel : Nat) (id : ObjectId), (h.recode f).chainFrom fuel id = h.chainFrom fuel id := by
    intro fuel
    induction fuel with
    | zero => exact fun _ => rfl
    | succ fuel ih => intro id; simp only [chainFrom, proto_recode, ih]
  rw [chain, size_recode, hfrom, chain]

/-- The owner of a key does not depend on code. -/
@[simp] theorem owner?_recode (id : ObjectId) (key : Key) :
    (h.recode f).owner? id key = h.owner? id key := by
  simp only [owner?, chain_recode, fields_recode]

/-- **Reading** gives the very same value. -/
@[simp] theorem getField_recode (id : ObjectId) (key : Key) :
    (h.recode f).getField id key = h.getField id key := by
  simp only [getField, protoValue, lookup, proto_recode, chain_recode, fields_recode]

@[simp] theorem getValueField_recode (v : Value) (key : Key) :
    (h.recode f).getValueField v key = h.getValueField v key := by
  cases v <;> simp only [getValueField, getField_recode]

@[simp] theorem visibleKeys_recode (v : Value) : (h.recode f).visibleKeys v = h.visibleKeys v := by
  simp only [visibleKeys, chain_recode, fields_recode]

@[simp] theorem display_recode (v : Value) : (h.recode f).display v = h.display v := by
  cases v <;> simp [display, Object.recode]

/-! ### Writing

Writes and allocations commute with a change of all code. -/

theorem writeOwn_recode (id : ObjectId) (key : Key) (v : Labeled) :
    (h.recode f).writeOwn id key v = (h.writeOwn id key v).recode f :=
  recode_modify f h (g := fun o => { o with fields := o.fields.write key v }) (fun _ => rfl) id

theorem linkProto_recode (id : ObjectId) (proto : Option ObjectId) :
    (h.recode f).linkProto id proto = (h.linkProto id proto).recode f :=
  recode_modify f h (g := fun o => { o with proto }) (fun _ => rfl) id

theorem setProto_recode (id : ObjectId) (v : Value) :
    (h.recode f).setProto id v = ((h.setProto id v).1, (h.setProto id v).2.recode f) := by
  cases v with
  | null => simp only [setProto, linkProto_recode]
  | number _ | string _ | boolean _ => rfl
  | object proto =>
    simp only [setProto, chain_recode, linkProto_recode]
    split <;> rfl

/-- Setting an own field commutes with other code, and has the same outcome. -/
theorem setOwn_recode (id : ObjectId) (key : Key) (v : Labeled) :
    (h.recode f).setOwn id key v = ((h.setOwn id key v).1, (h.setOwn id key v).2.recode f) := by
  rw [setOwn, setOwn]
  split
  · exact setProto_recode f h id v.value
  · rw [writeOwn_recode]

theorem setField_recode (id : ObjectId) (key : Key) (v : Labeled) :
    (h.recode f).setField id key v = ((h.setField id key v).1, (h.setField id key v).2.recode f) := by
  simp only [setField, owner?_recode, writeOwn_recode]
  split
  · exact setProto_recode f h id v.value
  · rfl

theorem setValueField_recode (target : Value) (key : Key) (v : Labeled) (own : Bool) :
    (h.recode f).setValueField target key v own =
      ((h.setValueField target key v own).1, (h.setValueField target key v own).2.recode f) := by
  cases target with
  | null => rfl
  | object id => cases own <;> simp [setValueField, setOwn_recode, setField_recode]
  | number _ | string _ | boolean _ =>
    by_cases hkey : key = .proto
    · simp [setValueField, hkey]
    · cases own <;> simp [setValueField, primitiveProto, hkey, setOwn_recode, setField_recode]

end

end Heap

/-! ### All functions

A condition on the code of every function on a heap, which all operations keep. -/

/-- `C` holds of every function on the heap. -/
def Heap.Functions (C : Lambda → Prop) (h : Heap) : Prop :=
  ∀ id lambda scope, (h.get id).kind = .function lambda scope → C lambda

namespace Heap.Functions

variable {C : Lambda → Prop} {h h' : Heap}

/-- A new object keeps what holds of all functions, if it holds of this one, or this is none. -/
theorem alloc {o : Object} (hh : h.Functions C)
    (ho : ∀ lambda scope, o.kind = .function lambda scope → C lambda) :
    (h.alloc o).2.Functions C := by
  intro id lambda scope hkind
  rw [get_alloc] at hkind
  split at hkind
  · exact ho lambda scope hkind
  · exact hh id lambda scope hkind

theorem allocPlain (hh : h.Functions C) (proto : Option ObjectId) :
    (h.allocPlain proto).2.Functions C :=
  hh.alloc fun _ _ hkind => by cases hkind

/-- An operation that allocates nothing. -/
theorem update (hh : h.Functions C) (hext : h.Extends h') (hsize : h'.size = h.size) :
    h'.Functions C := by
  intro id lambda scope hkind
  by_cases hid : id < h.size
  · rw [hext.kind_eq id hid] at hkind
    exact hh id lambda scope hkind
  · rw [get_of_size_le (hsize ▸ Nat.le_of_not_lt hid)] at hkind
    cases hkind

/-- Functions that keep their code leave the heap as it is. -/
theorem recode_eq_self {f : Lambda → Lambda} (hh : h.Functions fun lambda => f lambda = lambda) :
    h.recode f = h := by
  refine congrArg Heap.mk (Array.ext (by simp) fun id hid hid' => ?_)
  have hget : h.objects[id] = h.get id := by simp [get, hid']
  rw [Array.getElem_map, hget, Object.recode]
  cases hkind : (h.get id).kind with
  | function lambda scope => rw [ObjectKind.recode, hh id lambda scope hkind, ← hkind]
  | plain | builtin _ _ => rw [ObjectKind.recode, ← hkind]

theorem initial : Heap.initial.Functions C := fun id _ _ hkind => by
  rw [kind_initial] at hkind
  cases hkind

end Heap.Functions

/-! ### Descriptors

Checks ask whether a value can be called, not for its code. -/

namespace Descriptor

variable (f : Lambda → Lambda) (h : Heap)

/-- Whether a value is a function does not depend on what it does. -/
theorem accepts_recode (kind : Primitive) (v : Value) :
    kind.accepts (h.recode f) v = kind.accepts h v := by
  cases kind <;> cases v <;> simp [Primitive.accepts, Heap.isCallable, Object.recode]

mutual

theorem check_recode : ∀ (t : Descriptor) (v : Value), t.check (h.recode f) v = t.check h v
  | .primitive kind, v => by rw [check, check, accepts_recode]
  | .or alternatives, v => by rw [check, check, checkAny_recode alternatives v]
  | .objectOf fields, .object id => by rw [check, check, checkFields_recode fields id]
  | .objectOf _, .null | .objectOf _, .number _ | .objectOf _, .string _
  | .objectOf _, .boolean _ => by simp only [check]
  | .listOf element, .object id => by
      rw [check, check]
      simp only [Heap.get_recode, Object.recode, ObjectKind.isCallable_recode, Heap.listLength?,
        Heap.storedIndices, Heap.visibleKeys_recode, Heap.getField_recode, check_recode element]
  | .listOf _, .null | .listOf _, .number _ | .listOf _, .string _ | .listOf _, .boolean _ => by
      simp only [check]

theorem checkAny_recode : ∀ (ts : List Descriptor) (v : Value),
    checkAny (h.recode f) ts v = checkAny h ts v
  | [], _ => by rw [checkAny, checkAny]
  | t :: ts, v => by rw [checkAny, checkAny, check_recode t v, checkAny_recode ts v]

theorem checkFields_recode : ∀ (fields : List (Key × Descriptor)) (id : ObjectId),
    checkFields (h.recode f) fields id = checkFields h fields id
  | [], _ => by rw [checkFields, checkFields]
  | (key, t) :: fields, id => by
      rw [checkFields, checkFields, Heap.getField_recode, check_recode t,
        checkFields_recode fields id]

end

end Descriptor

end Protean
