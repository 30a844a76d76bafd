import Protean.Proofs.Code.Forget
import Protean.Proofs.Heap.Recode

/-!
# Proofs — Heap — forgetting sources

`Heap.forget` drops the sources of all field values and the origins in the code of all functions.  Every
operation of a heap commutes with it: reading from a heap that has forgotten gives what reading from the
heap gives, but for the source, and writing to it is writing and then forgetting.  What asks about a
heap without reading labels (its chains, its keys, the texts of its values, the checks of descriptors)
is the same for both.

The lemmas follow the operations: fields (`find?_forget`, `write_forget`), objects and links (`get_forget`,
`chain_forget`), reading (`getField_forget`), writing (`writeOwn_forget`, `setProto_forget`, `setValueField_forget`)
and the checks of descriptors (`check_forget`).  `Heap.Lowered` says that all functions on the heap have been lowered
from expressions, so that there is a source to forget.
-/

namespace Protean

/-! ### Fields

Labels in lists of fields. -/

namespace Fields

/-- The fields without the sources of their values. -/
def forget (fields : Fields) : Fields := fields.map fun (key, v) => (key, v.forget)

@[simp] theorem forget_nil : forget [] = [] := rfl

@[simp] theorem forget_cons (key : Key) (v : Labeled) (fields : Fields) :
    forget ((key, v) :: fields) = (key, v.forget) :: forget fields := rfl

@[simp] theorem keys_forget (fields : Fields) : fields.forget.keys = fields.keys := by
  simp [keys, forget, Function.comp_def]

/-- What is found under a key is found without its source. -/
theorem find?_forget (key : Key) : ∀ fields : Fields,
    fields.forget.find? key = (fields.find? key).map Labeled.forget
  | [] => rfl
  | (other, v) :: rest => by
      rw [forget_cons, find?, find?]
      split
      · rfl
      · exact find?_forget key rest

theorem put_forget (key : Key) (v : Labeled) : ∀ fields : Fields,
    fields.forget.put key v.forget = (fields.put key v).forget
  | [] => rfl
  | (other, old) :: rest => by
      rw [forget_cons, put, put]
      split
      · rfl
      · rw [put_forget key v rest, forget_cons]

theorem erase_forget (key : Key) : ∀ fields : Fields,
    fields.forget.erase key = (fields.erase key).forget
  | [] => rfl
  | (other, v) :: rest => by
      rw [forget_cons, erase, erase]
      split
      · rfl
      · rw [erase_forget key rest, forget_cons]

theorem write_forget (key : Key) (v : Labeled) (fields : Fields) :
    fields.forget.write key v.forget = (fields.write key v).forget := by
  rw [write, write, Labeled.forget_value]
  split
  · exact erase_forget key fields
  · exact put_forget key v fields

end Fields

/-! ### Objects and heaps

Labels and origins in objects, and in all objects of a heap. -/

/-- The kind with the code of a function without origins. -/
def ObjectKind.forget : ObjectKind → ObjectKind
  | .plain => .plain
  | .function lambda scope =>
    .function ⟨lambda.decorators, lambda.parameters, Code.forgetAll lambda.body⟩ scope
  | .builtin which scope => .builtin which scope

/-- A function that has forgotten is a function. -/
@[simp] theorem ObjectKind.isCallable_forget (kind : ObjectKind) :
    kind.forget.isCallable = kind.isCallable := by
  cases kind <;> rfl

/-- The object without sources: in its fields, and in its code if it is a function. -/
def Object.forget (o : Object) : Object := ⟨o.kind.forget, o.fields.forget, o.proto⟩

namespace Heap

/-- The heap without sources and origins. -/
def forget (h : Heap) : Heap := ⟨h.objects.map Object.forget⟩

variable {h : Heap}

@[simp] theorem size_forget (h : Heap) : h.forget.size = h.size := by simp [forget, size]

@[simp] theorem get_forget (h : Heap) (id : ObjectId) : h.forget.get id = (h.get id).forget := by
  simp only [get, forget, Array.getD_eq_getD_getElem?, Array.getElem?_map]
  cases h.objects[id]? <;> rfl

/-- The fields of an object are those that have forgotten. -/
@[simp] theorem fields_forget (h : Heap) (id : ObjectId) :
    h.forget.fields id = (h.fields id).forget := by
  rw [fields, get_forget, Object.forget, fields]

@[simp] theorem proto_forget (h : Heap) (id : ObjectId) : h.forget.proto id = h.proto id := by
  rw [proto, get_forget, Object.forget, proto]

/-- A new object may forget before or after it is made. -/
theorem forget_alloc (h : Heap) (o : Object) :
    h.forget.alloc o.forget = ((h.alloc o).1, (h.alloc o).2.forget) := by
  simp [alloc, forget, size]

/-- Two updates that agree on objects that have forgotten agree on heaps that have. -/
theorem forget_modify {f g : Object → Object} (hfg : ∀ o, (f o).forget = g o.forget) (h : Heap)
    (id : ObjectId) : h.forget.modify id g = (h.modify id f).forget := by
  rw [modify, modify, forget, forget]
  refine congrArg Heap.mk (Array.ext (by simp) fun i hi _ => ?_)
  simp only [Array.getElem_modify, Array.getElem_map]
  split
  · exact (hfg _).symm
  · rfl

/-! ### Reading

Whatever is read has lost its label, and nothing else. -/

@[simp] theorem chain_forget (h : Heap) (id : ObjectId) : h.forget.chain id = h.chain id := by
  have hfrom : ∀ (fuel : Nat) (id : ObjectId), h.forget.chainFrom fuel id = h.chainFrom fuel id := by
    intro fuel
    induction fuel with
    | zero => exact fun _ => rfl
    | succ fuel ih => intro id; simp only [chainFrom, proto_forget, ih]
  rw [chain, size_forget, hfrom, chain]

/-- A search finds the same, without its source. -/
theorem lookup_forget (h : Heap) (key : Key) (ids : List ObjectId) :
    h.forget.lookup key ids = (h.lookup key ids).map Labeled.forget := by
  induction ids with
  | nil => rfl
  | cons id ids ih =>
    rw [lookup] at ih
    rw [lookup, lookup, List.findSome?_cons, List.findSome?_cons, fields_forget,
      Fields.find?_forget]
    cases (h.fields id).find? key with
    | some v => rfl
    | none => exact ih

/-- The owner of a key depends on keys and links only. -/
@[simp] theorem owner?_forget (h : Heap) (id : ObjectId) (key : Key) :
    h.forget.owner? id key = h.owner? id key := by
  simp only [owner?, chain_forget, fields_forget, Fields.find?_forget, Option.isSome_map]

/-- The prototype is read as the same value. -/
@[simp] theorem protoValue_forget (h : Heap) (id : ObjectId) :
    h.forget.protoValue id = h.protoValue id := by
  rw [protoValue, proto_forget, protoValue]

/-- The prototype as a value has no source to forget. -/
theorem forget_protoValue (h : Heap) (id : ObjectId) : (h.protoValue id).forget = h.protoValue id := by
  rw [protoValue]
  split <;> rfl

/-- **Reading** gives the same value, without its source. -/
@[simp] theorem getField_forget (h : Heap) (id : ObjectId) (key : Key) :
    h.forget.getField id key = (h.getField id key).forget := by
  rw [getField, getField]
  split
  · rw [protoValue_forget, forget_protoValue]
  · rw [lookup_forget, chain_forget]
    cases h.lookup key (h.chain id) <;> rfl

theorem getValueField_forget (h : Heap) (v : Value) (key : Key) :
    h.forget.getValueField v key = (h.getValueField v key).map Labeled.forget := by
  cases v with
  | null => rfl
  | object id => simp [getValueField, Except.map]
  | number _ | string _ | boolean _ =>
    by_cases hkey : key = .proto <;> simp [getValueField, primitiveProto, hkey, Except.map]

/-- Visible keys depend on keys and links only. -/
@[simp] theorem visibleKeys_forget (h : Heap) (v : Value) : h.forget.visibleKeys v = h.visibleKeys v := by
  simp only [visibleKeys, chain_forget, fields_forget, Fields.keys_forget]

@[simp] theorem isCallable_forget (h : Heap) (v : Value) : h.forget.isCallable v = h.isCallable v := by
  cases v <;> simp [isCallable, Object.forget]

/-- The text of a value does not show sources. -/
@[simp] theorem display_forget (h : Heap) (v : Value) : h.forget.display v = h.display v := by
  cases v <;> simp [display, Object.forget]

/-! ### Writing

Operations that change a heap commute with forgetting. -/

theorem writeOwn_forget (h : Heap) (id : ObjectId) (key : Key) (v : Labeled) :
    h.forget.writeOwn id key v.forget = (h.writeOwn id key v).forget := by
  refine forget_modify (fun o => ?_) h id
  simp only [Object.forget, Fields.write_forget]

theorem linkProto_forget (h : Heap) (id : ObjectId) (proto : Option ObjectId) :
    h.forget.linkProto id proto = (h.linkProto id proto).forget := by
  refine forget_modify (fun o => ?_) h id
  rfl

theorem setProto_forget (h : Heap) (id : ObjectId) (v : Value) :
    h.forget.setProto id v = ((h.setProto id v).1, (h.setProto id v).2.forget) := by
  cases v with
  | null => simp only [setProto, linkProto_forget]
  | number _ | string _ | boolean _ => rfl
  | object proto =>
    simp only [setProto, chain_forget, linkProto_forget]
    split <;> rfl

/-- Setting an own field commutes with forgetting, and has the same outcome. -/
theorem setOwn_forget (h : Heap) (id : ObjectId) (key : Key) (v : Labeled) :
    h.forget.setOwn id key v.forget = ((h.setOwn id key v).1, (h.setOwn id key v).2.forget) := by
  rw [setOwn, setOwn]
  split
  · exact setProto_forget h id v.value
  · rw [writeOwn_forget]

theorem setField_forget (h : Heap) (id : ObjectId) (key : Key) (v : Labeled) :
    h.forget.setField id key v.forget = ((h.setField id key v).1, (h.setField id key v).2.forget) := by
  simp only [setField, owner?_forget, writeOwn_forget]
  split
  · exact setProto_forget h id v.value
  · rfl

theorem setValueField_forget (h : Heap) (target : Value) (key : Key) (v : Labeled) (own : Bool) :
    h.forget.setValueField target key v.forget own =
      ((h.setValueField target key v own).1, (h.setValueField target key v own).2.forget) := by
  cases target with
  | null => rfl
  | object id => cases own <;> simp [setValueField, setOwn_forget, setField_forget]
  | number _ | string _ | boolean _ =>
    by_cases hkey : key = .proto
    · simp [setValueField, hkey]
    · cases own <;> simp [setValueField, primitiveProto, hkey, setOwn_forget, setField_forget]

end Heap

/-! ### Descriptors

Checks see values only. -/

/-- The length of a list is a number, wherever it comes from. -/
theorem Heap.listLength?_forget (h : Heap) (id : ObjectId) :
    h.forget.listLength? id = h.listLength? id := by
  simp only [Heap.listLength?, Heap.getField_forget, Labeled.forget_value]

/-- The indices that are stored depend on keys and links only. -/
theorem Heap.storedIndices_forget (h : Heap) (id : ObjectId) (length : Nat) :
    h.forget.storedIndices id length = h.storedIndices id length := by
  simp only [Heap.storedIndices, Heap.visibleKeys_forget]

namespace Descriptor

theorem accepts_forget (h : Heap) (kind : Primitive) (v : Value) :
    kind.accepts h.forget v = kind.accepts h v := by
  cases kind <;> cases v <;> simp [Primitive.accepts]

mutual

/-- **Checks do not see sources**, by induction on the descriptor. -/
theorem check_forget (h : Heap) : ∀ (t : Descriptor) (v : Value), t.check h.forget v = t.check h v
  | .primitive kind, v => by rw [check, check, accepts_forget]
  | .or alternatives, v => by rw [check, check, checkAny_forget h alternatives v]
  | .objectOf fields, .object id => by rw [check, check, checkFields_forget h fields id]
  | .objectOf _, .null | .objectOf _, .number _ | .objectOf _, .string _
  | .objectOf _, .boolean _ => by simp only [check]
  | .listOf element, .object id => by
      rw [check, check]
      simp only [Heap.get_forget, Object.forget, ObjectKind.isCallable_forget,
        Heap.listLength?_forget, Heap.storedIndices_forget, Heap.getField_forget,
        Labeled.forget_value, check_forget h element]
  | .listOf _, .null | .listOf _, .number _ | .listOf _, .string _ | .listOf _, .boolean _ => by
      simp only [check]

theorem checkAny_forget (h : Heap) : ∀ (ts : List Descriptor) (v : Value),
    checkAny h.forget ts v = checkAny h ts v
  | [], _ => by rw [checkAny, checkAny]
  | t :: ts, v => by rw [checkAny, checkAny, check_forget h t v, checkAny_forget h ts v]

theorem checkFields_forget (h : Heap) : ∀ (fields : List (Key × Descriptor)) (id : ObjectId),
    checkFields h.forget fields id = checkFields h fields id
  | [], _ => by rw [checkFields, checkFields]
  | (key, t) :: fields, id => by
      rw [checkFields, checkFields, Heap.getField_forget, Labeled.forget_value,
        check_forget h t, checkFields_forget h fields id]

end

end Descriptor

/-! ### Functions on the heap

The code of functions is the lowering of their literals, with or without origins. -/

/-- The body of every function has been lowered from expressions. -/
def Heap.Lowered (h : Heap) : Prop :=
  ∀ id lambda scope, (h.get id).kind = .function lambda scope →
    ∃ l body, lambda.body = Expr.lowerAll l body

namespace Heap.Lowered

variable {h h' : Heap}

/-- A new object keeps the heap lowered if it is no function or a lowered one. -/
theorem alloc {o : Object} (hl : h.Lowered)
    (ho : ∀ lambda scope, o.kind = .function lambda scope →
      ∃ l body, lambda.body = Expr.lowerAll l body) : (h.alloc o).2.Lowered :=
  Functions.alloc hl ho

theorem allocPlain (hl : h.Lowered) (proto : Option ObjectId) : (h.allocPlain proto).2.Lowered :=
  Functions.allocPlain hl proto

/-- An operation that allocates nothing. -/
theorem update (hl : h.Lowered) (hext : h.Extends h') (hsize : h'.size = h.size) : h'.Lowered :=
  Functions.update hl hext hsize

end Heap.Lowered

end Protean
