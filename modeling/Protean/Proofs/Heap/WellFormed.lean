import Protean.Proofs.Heap.Walk

/-!
# Proofs — Heap — well-formed heaps

A heap is *well-formed* (`WellFormed`) when every object it mentions is there, links to prototypes
never run in a circle, no field holds null or has the key `proto`, and no object has a key twice.

Everything that is ever done to a heap is one of a few operations (`Change`).  Applied to objects and
values that are there, each of them, whether it succeeds or not,

* keeps the heap well-formed (`Change.wellFormed`), and
* leaves every object in its place and of its kind (`Change.toExtends`).

Only `setProto` can close a circle, and it refuses to exactly when the object stands on the chain of
its new prototype; that the chain is searched in full is `Walk.chain_eq`.

The proofs go operation by operation.  The two that change links, `alloc` and `setProto`, get a lemma each about
walks; all the others come down to writing or erasing one own field, so what is shown of `writeOwn` is passed up
through `setOwn`, `setField` and `setValueField`:

* `WellFormed.alloc`, `WellFormed.writeOwn`, `WellFormed.setProto`: the three basic operations.
* `WellFormed.setOwn`, `WellFormed.setField`, `WellFormed.setValueField`: the ones made from them.
* `extends_alloc`, …, `extends_setValueField`: none of them removes an object or changes its kind.
* `wellFormed_initial`: the heap that everything starts with.
-/

namespace Protean

/-! ### What refers to objects that are there

Values, labels, prototypes and code that mention nothing but the first so many objects. -/

/-- The value is no object, or one of the first `n` on the heap. -/
def Value.Below (n : Nat) : Value → Prop
  | .object id => id < n
  | .null | .number _ | .string _ | .boolean _ => True

/-- The captured scope is one of the first `n` objects. -/
def ObjectKind.Below (n : Nat) : ObjectKind → Prop
  | .plain => True
  | .function _ scope | .builtin _ scope => scope < n

/-- A value that mentions objects of a heap only does so for any larger heap. -/
theorem Value.Below.mono {n n' : Nat} (hn : n ≤ n') {v : Value} (hv : v.Below n) : v.Below n' := by
  cases v with
  | object id => exact Nat.lt_of_lt_of_le hv hn
  | null | number _ | string _ | boolean _ => trivial

theorem ObjectKind.Below.mono {n n' : Nat} (hn : n ≤ n') {k : ObjectKind} (hk : k.Below n) :
    k.Below n' := by
  cases k with
  | plain => trivial
  | function _ _ | builtin _ _ => exact Nat.lt_of_lt_of_le hk hn

/-! ### Fields

Lists of fields without repetitions and without null. -/

namespace Fields

variable {key k : Key} {value v : Labeled} {fields : Fields}

/-- A field that is there after a field has been put was there before, or is the one that has been put. -/
theorem mem_put (h : (k, v) ∈ put key value fields) :
    (k, v) ∈ fields ∨ k = key ∧ v = value := by
  induction fields with
  | nil => simpa [put] using h
  | cons field rest ih =>
    rw [put] at h
    split at h
    · rename_i he
      rcases List.mem_cons.mp h with he' | hmem
      · cases he'; exact .inr ⟨he, rfl⟩
      · exact .inl (List.mem_cons_of_mem _ hmem)
    · rcases List.mem_cons.mp h with he' | hmem
      · exact .inl (he' ▸ List.mem_cons_self)
      · exact (ih hmem).imp_left (List.mem_cons_of_mem _)

/-- Erasing drops fields and keeps the order of the others. -/
theorem erase_sublist (key : Key) (fields : Fields) : (erase key fields).Sublist fields := by
  induction fields with
  | nil => exact .slnil
  | cons field rest ih =>
    rw [erase]
    split
    · exact List.sublist_cons_self _ _
    · exact ih.cons_cons _

@[simp] theorem keys_cons (key : Key) (value : Labeled) (rest : Fields) :
    keys ((key, value) :: rest) = key :: rest.keys := rfl

/-- Overwriting keeps the keys, and a new key comes last. -/
theorem keys_put (key : Key) (value : Labeled) (fields : Fields) :
    (put key value fields).keys = if key ∈ fields.keys then fields.keys else fields.keys ++ [key] := by
  induction fields with
  | nil => rfl
  | cons field rest ih =>
    obtain ⟨other, old⟩ := field
    rw [put]
    by_cases he : other = key
    · simp [he]
    · rw [if_neg he, keys_cons, ih, keys_cons]
      by_cases hmem : key ∈ keys rest <;> simp [hmem, Ne.symm he]

/-- A written field is an old one or holds the new value, which then is not null. -/
theorem mem_write (h : (k, v) ∈ write key value fields) :
    (k, v) ∈ fields ∨ (k = key ∧ v = value ∧ value.value.isNull = false) := by
  rw [write] at h
  split at h
  · exact .inl ((erase_sublist key fields).subset h)
  · rename_i hnull
    rcases mem_put h with hmem | ⟨rfl, rfl⟩
    · exact .inl hmem
    · exact .inr ⟨rfl, rfl, by simpa using hnull⟩

/-- Writing adds at most the key that is written. -/
theorem mem_keys_of_write {k : Key} (h : k ∈ (write key value fields).keys) :
    k ∈ fields.keys ∨ k = key := by
  obtain ⟨⟨k', v⟩, hmem, rfl⟩ := List.mem_map.mp h
  rcases mem_write hmem with hmem | ⟨rfl, -, -⟩
  · exact .inl (List.mem_map_of_mem hmem)
  · exact .inr rfl

/-- No key comes twice by writing, since a key that is there is overwritten in its place. -/
theorem nodup_write (h : fields.keys.Nodup) : (write key value fields).keys.Nodup := by
  rw [write]
  split
  · exact h.sublist ((erase_sublist key fields).map Prod.fst)
  · rw [keys_put]
    split
    · exact h
    · rename_i hmem
      exact List.nodup_append.mpr
        ⟨h, List.nodup_singleton _, fun a ha b hb he => hmem (by simp_all)⟩

/-- What is found under a key is among the fields. -/
theorem mem_of_find? (h : find? key fields = some v) : (key, v) ∈ fields := by
  induction fields with
  | nil => cases h
  | cons field rest ih =>
    rw [find?] at h
    split at h
    · rename_i he
      cases h
      exact he ▸ List.mem_cons_self
    · exact List.mem_cons_of_mem _ (ih h)

end Fields

/-! ### Well-formed objects and heaps

The invariant, object by object, with the condition that chains end. -/

/-- An object on a heap of `n` objects: what it mentions is there, no field holds null or has the key
`proto`, and no key comes twice. -/
structure Object.Sound (n : Nat) (o : Object) : Prop where
  proto_lt : ∀ p, o.proto = some p → p < n
  kind_below : o.kind.Below n
  value_below : ∀ key v, (key, v) ∈ o.fields → v.value.Below n
  not_null : ∀ key v, (key, v) ∈ o.fields → v.value.isNull = false
  proto_not_mem : Key.proto ∉ o.fields.keys
  nodup : o.fields.keys.Nodup

namespace Object.Sound

variable {n n' : Nat} {o : Object}

/-- An object is sound for any larger heap. -/
theorem mono (hn : n ≤ n') (ho : o.Sound n) : o.Sound n' where
  proto_lt p hp := Nat.lt_of_lt_of_le (ho.proto_lt p hp) hn
  kind_below := ho.kind_below.mono hn
  value_below key v hv := (ho.value_below key v hv).mono hn
  not_null := ho.not_null
  proto_not_mem := ho.proto_not_mem
  nodup := ho.nodup

/-- An object without fields. -/
theorem bare {kind : ObjectKind} {proto : Option ObjectId} (hk : kind.Below n)
    (hp : ∀ p, proto = some p → p < n) : Object.Sound n { kind := kind, proto := proto } where
  proto_lt := hp
  kind_below := hk
  value_below _ _ hv := by cases hv
  not_null _ _ hv := by cases hv
  proto_not_mem hmem := by cases hmem
  nodup := List.nodup_nil

/-- Writing a value that is there to a field other than `proto` keeps an object sound. -/
theorem write {key : Key} {value : Labeled} (ho : o.Sound n) (hkey : key ≠ .proto)
    (hv : value.value.Below n) :
    Object.Sound n { o with fields := o.fields.write key value } where
  proto_lt := ho.proto_lt
  kind_below := ho.kind_below
  value_below k v hmem := by
    rcases Fields.mem_write hmem with hmem | ⟨-, rfl, -⟩
    · exact ho.value_below k v hmem
    · exact hv
  not_null k v hmem := by
    rcases Fields.mem_write hmem with hmem | ⟨-, rfl, hnull⟩
    · exact ho.not_null k v hmem
    · exact hnull
  proto_not_mem hmem :=
    (Fields.mem_keys_of_write hmem).elim ho.proto_not_mem fun he => hkey he.symm
  nodup := Fields.nodup_write ho.nodup

theorem relink {proto : Option ObjectId} (ho : o.Sound n) (hp : ∀ p, proto = some p → p < n) :
    Object.Sound n { o with proto := proto } where
  proto_lt := hp
  kind_below := ho.kind_below
  value_below := ho.value_below
  not_null := ho.not_null
  proto_not_mem := ho.proto_not_mem
  nodup := ho.nodup

end Object.Sound

namespace Heap

/-- The builtin prototypes are there, every object is sound, and following the links to prototypes
ends from everywhere. -/
structure WellFormed (h : Heap) : Prop where
  builtins : booleanProto < h.size
  sound : ∀ id, (h.get id).Sound h.size
  grounded : ∀ id, ∃ ids, h.Walk id ids

/-- `h'` has all the objects of `h`, and each is of the same kind: a function keeps its code and its
captured scope. -/
structure Extends (h h' : Heap) : Prop where
  size_le : h.size ≤ h'.size
  kind_eq : ∀ id, id < h.size → (h'.get id).kind = (h.get id).kind

theorem Extends.refl (h : Heap) : h.Extends h := ⟨le_rfl, fun _ _ => rfl⟩

/-- Extensions compose, so that a run extends the heap if its steps do. -/
theorem Extends.trans {h₁ h₂ h₃ : Heap} (h₁₂ : h₁.Extends h₂) (h₂₃ : h₂.Extends h₃) :
    h₁.Extends h₃ where
  size_le := h₁₂.size_le.trans h₂₃.size_le
  kind_eq id hid :=
    (h₂₃.kind_eq id (Nat.lt_of_lt_of_le hid h₁₂.size_le)).trans (h₁₂.kind_eq id hid)

namespace WellFormed

variable {h : Heap} {id : ObjectId} {key : Key} {value : Labeled}

theorem proto_lt (hw : h.WellFormed) {p : ObjectId} (hp : h.proto id = some p) : p < h.size :=
  (hw.sound id).proto_lt p hp

/-- The chain of an object that is there is the whole walk from it. -/
theorem walk_chain (hw : h.WellFormed) (hid : id < h.size) : h.Walk id (h.chain id) := by
  obtain ⟨ids, hids⟩ := hw.grounded id
  rwa [hids.chain_eq (fun _ _ => hw.proto_lt) hid]

/-- A field holds an object that is there. -/
theorem getField_below (hw : h.WellFormed) : (h.getField id key).value.Below h.size := by
  rw [getField]
  split
  · rw [protoValue]
    split
    · rename_i p hp
      exact hw.proto_lt hp
    · trivial
  · cases hl : h.lookup key (h.chain id) with
    | none => trivial
    | some v =>
      obtain ⟨owner, -, hfind⟩ := List.exists_of_findSome?_eq_some hl
      exact (hw.sound owner).value_below key v (Fields.mem_of_find? hfind)

/-- What is read from a value is an object that is there, if it is an object at all. -/
theorem getValueField_below (hw : h.WellFormed) {target : Value} {v : Labeled}
    (hv : h.getValueField target key = .ok v) : v.value.Below h.size := by
  cases target with
  | null => cases hv
  | object id => cases hv; exact hw.getField_below
  | number _ | string _ | boolean _ =>
    cases hv
    split
    · exact Nat.lt_of_le_of_lt (by decide) hw.builtins
    · exact hw.getField_below

/-! ### Each operation keeps a heap well-formed

One lemma for each operation that changes a heap. -/

/-- A new sound object keeps the heap well-formed: nothing links to it yet, so it closes no circle. -/
theorem alloc {o : Object} (hw : h.WellFormed) (ho : o.Sound h.size) :
    (h.alloc o).2.WellFormed := by
  have hproto : ∀ id, id ≠ h.size → (h.alloc o).2.proto id = h.proto id := fun id hid => by
    rw [proto, get_alloc, if_neg hid, proto]
  have hold : ∀ {id ids}, id < h.size → h.Walk id ids → (h.alloc o).2.Walk id ids :=
    fun hid hids => hids.relink hproto fun hmem =>
      Nat.lt_irrefl _ (hids.lt_size (fun _ _ => hw.proto_lt) hid _ hmem)
  refine ⟨?_, fun id => ?_, fun id => ?_⟩
  · rw [size_alloc]
    exact Nat.lt_succ_of_lt hw.builtins
  · rw [size_alloc, get_alloc]
    split
    · exact ho.mono (Nat.le_succ _)
    · exact (hw.sound id).mono (Nat.le_succ _)
  · -- the new object's prototype is an old object, so the walk from it avoids the new one
    have hnew : ∃ ids, (h.alloc o).2.Walk h.size ids := by
      have hp : (h.alloc o).2.proto h.size = o.proto := by rw [proto, get_alloc, if_pos rfl]
      cases hop : o.proto with
      | none => exact ⟨_, .root (hp.trans hop)⟩
      | some p =>
        obtain ⟨ids, hids⟩ := hw.grounded p
        exact ⟨_, .link (hp.trans hop) (hold (ho.proto_lt p hop) hids)⟩
    obtain ⟨ids, hids⟩ := hw.grounded id
    exact hids.exists_relink hproto hnew

theorem writeOwn (hw : h.WellFormed) (hkey : key ≠ .proto)
    (hv : value.value.Below h.size) : (h.writeOwn id key value).WellFormed := by
  have hproto : ∀ x, (h.writeOwn id key value).proto x = h.proto x := fun x => by
    rw [proto, Heap.writeOwn, get_modify, proto]
    split <;> rfl
  refine ⟨?_, fun x => ?_, fun x => ?_⟩
  · rw [Heap.writeOwn, size_modify]
    exact hw.builtins
  · rw [Heap.writeOwn, size_modify, get_modify]
    split
    · exact (hw.sound x).write hkey hv
    · exact hw.sound x
  · obtain ⟨ids, hids⟩ := hw.grounded x
    exact hids.exists_relink (x := h.size) (fun y _ => hproto y)
      ⟨_, .root ((hproto _).trans (by rw [proto, get_of_size_le le_rfl]))⟩

/-- A link may be changed to any object whose chain misses `id`. -/
theorem linkProto {proto : Option ObjectId} (hw : h.WellFormed)
    (hp : ∀ p, proto = some p → p < h.size ∧ id ∉ h.chain p) :
    (h.linkProto id proto).WellFormed := by
  have hother : ∀ x, x ≠ id → (h.linkProto id proto).proto x = h.proto x := fun x hx => by
    rw [Heap.proto, Heap.linkProto, get_modify, if_neg (fun hc => hx hc.1.symm), Heap.proto]
  refine ⟨?_, fun x => ?_, fun x => ?_⟩
  · rw [Heap.linkProto, size_modify]
    exact hw.builtins
  · rw [Heap.linkProto, size_modify, get_modify]
    split
    · exact (hw.sound x).relink fun p hpp => (hp p hpp).1
    · exact hw.sound x
  · have hself : ∃ ids, (h.linkProto id proto).Walk id ids := by
      by_cases hid : id < h.size
      · have hlink : (h.linkProto id proto).proto id = proto := by
          rw [Heap.proto, Heap.linkProto, get_modify, if_pos ⟨rfl, hid⟩]
        cases hpp : proto with
        | none => exact ⟨_, .root (hpp ▸ hlink)⟩
        | some p =>
          obtain ⟨hlt, hmiss⟩ := hp p hpp
          exact ⟨_, .link (hpp ▸ hlink) (hpp ▸ (hw.walk_chain hlt).relink hother hmiss)⟩
      · have hsame : (h.linkProto id proto).proto id = h.proto id := by
          rw [Heap.proto, Heap.linkProto, get_modify, if_neg (fun hc => hid hc.2), Heap.proto]
        refine ⟨_, .root (hsame.trans ?_)⟩
        rw [Heap.proto, get_of_size_le (Nat.le_of_not_lt hid)]
    obtain ⟨ids, hids⟩ := hw.grounded x
    exact hids.exists_relink hother hself

theorem setProto {v : Value} (hw : h.WellFormed) (hv : v.Below h.size) :
    (h.setProto id v).2.WellFormed := by
  cases v with
  | null => exact hw.linkProto fun p hp => by cases hp
  | object proto =>
    rw [Heap.setProto]
    split
    · exact hw
    · rename_i hmiss
      -- the new prototype does not lead back to the object, which is what was checked
      refine hw.linkProto fun p hp => ?_
      cases hp
      exact ⟨hv, fun hmem => hmiss (List.contains_iff_mem.mpr hmem)⟩
  | number _ | string _ | boolean _ => exact hw

/-- A field of the object's own is a field or, under `proto`, the link. -/
theorem setOwn (hw : h.WellFormed) (hv : value.value.Below h.size) :
    (h.setOwn id key value).2.WellFormed := by
  rw [Heap.setOwn]
  split
  · exact hw.setProto hv
  · rename_i hkey
    exact hw.writeOwn hkey hv

/-- A field is set on the nearest object that owns the key, or else on the object itself. -/
theorem setField (hw : h.WellFormed) (hv : value.value.Below h.size) :
    (h.setField id key value).2.WellFormed := by
  rw [Heap.setField]
  split
  · exact hw.setProto hv
  · rename_i hkey
    exact hw.writeOwn hkey hv

/-- A field is set on a value, which is refused for any value but an object. -/
theorem setValueField {target : Value} {own : Bool} (hw : h.WellFormed)
    (hv : value.value.Below h.size) :
    (h.setValueField target key value own).2.WellFormed := by
  cases target with
  | null => exact hw
  | object id =>
    rw [Heap.setValueField]
    split
    · exact hw.setOwn hv
    · exact hw.setField hv
  | number _ | string _ | boolean _ =>
    simp only [Heap.setValueField, primitiveProto]
    split
    · exact hw
    · split
      · exact hw.setOwn hv
      · exact hw.setField hv

end WellFormed

/-- The heap that everything starts with: the prototype of all objects and four more, which link to it. -/
theorem wellFormed_initial : initial.WellFormed := by
  have hget : ∀ id, initial.get id = {} ∨ initial.get id = { proto := some objectProto }
    | 0 => .inl rfl
    | 1 | 2 | 3 | 4 => .inr rfl
    | _ + 5 => .inl rfl
  have hroot : initial.Walk objectProto [objectProto] := .root rfl
  refine ⟨by decide, fun id => ?_, fun id => ?_⟩
  · rcases hget id with he | he <;> rw [he]
    · exact .bare trivial fun p hp => by cases hp
    · exact .bare trivial fun p hp => by cases hp; decide
  · rcases hget id with he | he
    · exact ⟨_, .root (congrArg Object.proto he)⟩
    · exact ⟨_, .link (congrArg Object.proto he) hroot⟩

/-- None of the builtin prototypes can be called. -/
theorem kind_initial (id : ObjectId) : (initial.get id).kind = .plain := by
  match id with
  | 0 | 1 | 2 | 3 | 4 | _ + 5 => rfl

/-! ### All operations

The operations as one relation, so that what all of them keep can be said at once. -/

theorem extends_alloc (h : Heap) (o : Object) : h.Extends (h.alloc o).2 where
  size_le := by rw [size_alloc]; exact Nat.le_succ _
  kind_eq id hid := by rw [get_alloc, if_neg (Nat.ne_of_lt hid)]

/-- An update that keeps the kind leaves every object in its place. -/
theorem extends_modify (h : Heap) (id : ObjectId) {f : Object → Object}
    (hf : ∀ o, (f o).kind = o.kind) : h.Extends (h.modify id f) where
  size_le := le_of_eq (size_modify h id f).symm
  kind_eq other _ := by
    rw [get_modify]
    split
    · exact hf _
    · rfl

/-- Writing a field leaves every object in its place and of its kind. -/
theorem extends_writeOwn (h : Heap) (id : ObjectId) (key : Key) (value : Labeled) :
    h.Extends (h.writeOwn id key value) := h.extends_modify id fun _ => rfl

theorem extends_setProto (h : Heap) (id : ObjectId) (v : Value) :
    h.Extends (h.setProto id v).2 := by
  cases v with
  | null => exact h.extends_modify id fun _ => rfl
  | object proto =>
    rw [setProto]
    split
    · exact .refl h
    · exact h.extends_modify id fun _ => rfl
  | number _ | string _ | boolean _ => exact .refl h

theorem extends_setOwn (h : Heap) (id : ObjectId) (key : Key) (value : Labeled) :
    h.Extends (h.setOwn id key value).2 := by
  rw [setOwn]
  split
  · exact h.extends_setProto id value.value
  · exact h.extends_writeOwn id key value

theorem extends_setField (h : Heap) (id : ObjectId) (key : Key) (value : Labeled) :
    h.Extends (h.setField id key value).2 := by
  rw [setField]
  split
  · exact h.extends_setProto id value.value
  · exact h.extends_writeOwn _ key value

theorem extends_setValueField (h : Heap) (target : Value) (key : Key) (value : Labeled)
    (own : Bool) : h.Extends (h.setValueField target key value own).2 := by
  cases target with
  | null => exact .refl h
  | object id =>
    rw [setValueField]
    split
    · exact h.extends_setOwn id key value
    · exact h.extends_setField id key value
  | number _ | string _ | boolean _ =>
    simp only [setValueField, primitiveProto]
    split
    · exact .refl h
    · split
      · exact h.extends_setOwn _ key value
      · exact h.extends_setField _ key value

@[simp] theorem size_writeOwn (h : Heap) (id : ObjectId) (key : Key) (value : Labeled) :
    (h.writeOwn id key value).size = h.size := size_modify _ _ _

@[simp] theorem size_setProto (h : Heap) (id : ObjectId) (v : Value) :
    (h.setProto id v).2.size = h.size := by
  cases v with
  | null => exact size_modify _ _ _
  | object proto =>
    rw [setProto]
    split
    · rfl
    · exact size_modify _ _ _
  | number _ | string _ | boolean _ => rfl

@[simp] theorem size_setOwn (h : Heap) (id : ObjectId) (key : Key) (value : Labeled) :
    (h.setOwn id key value).2.size = h.size := by
  rw [setOwn]
  split <;> simp

@[simp] theorem size_setField (h : Heap) (id : ObjectId) (key : Key) (value : Labeled) :
    (h.setField id key value).2.size = h.size := by
  rw [setField]
  split <;> simp

@[simp] theorem size_setValueField (h : Heap) (target : Value) (key : Key) (value : Labeled)
    (own : Bool) : (h.setValueField target key value own).2.size = h.size := by
  cases target with
  | null => rfl
  | object id => rw [setValueField]; split <;> simp
  | number _ | string _ | boolean _ =>
    simp only [setValueField, primitiveProto]
    split
    · rfl
    · split <;> simp

/-- One operation on a heap, with objects and values that are there, and the heap it leaves, whether
it succeeds or not. -/
inductive Change (h : Heap) : Heap → Prop where
  | allocPlain {proto : Option ObjectId} (hp : ∀ p, proto = some p → p < h.size) :
      Change h (h.allocPlain proto).2
  | allocObject : Change h (h.allocPlain (some objectProto)).2
  | allocFunction (lambda : Lambda) {scope : ObjectId} (hs : scope < h.size) :
      Change h (h.allocFunction lambda scope).2
  | allocBuiltin (which : Builtin) {scope : ObjectId} (hs : scope < h.size) :
      Change h (h.allocBuiltin which scope).2
  | define {id : ObjectId} {name : String} {value : Labeled} (hid : id < h.size)
      (hname : name ≠ "proto") (hv : value.value.Below h.size) : Change h (h.define id name value)
  | setField {id : ObjectId} (key : Key) {value : Labeled} (hid : id < h.size)
      (hv : value.value.Below h.size) : Change h (h.setField id key value).2
  | setOwn {id : ObjectId} (key : Key) {value : Labeled} (hid : id < h.size)
      (hv : value.value.Below h.size) : Change h (h.setOwn id key value).2
  | setProto {id : ObjectId} {v : Value} (hid : id < h.size) (hv : v.Below h.size) :
      Change h (h.setProto id v).2
  | setValueField {target : Value} (key : Key) {value : Labeled} (own : Bool)
      (ht : target.Below h.size) (hv : value.value.Below h.size) :
      Change h (h.setValueField target key value own).2

namespace Change

variable {h h' : Heap}

/-- **Every operation keeps a heap well-formed.** -/
theorem wellFormed (hc : Change h h') (hw : h.WellFormed) : h'.WellFormed := by
  have hbuiltin : ∀ {id}, id ≤ booleanProto → id < h.size := fun hid =>
    Nat.lt_of_le_of_lt hid hw.builtins
  cases hc with
  | allocPlain hp => exact hw.alloc (.bare trivial hp)
  | allocObject => exact hw.alloc (.bare trivial fun p hp => by cases hp; exact hbuiltin (by decide))
  | allocFunction _ hs | allocBuiltin _ hs =>
    exact hw.alloc (.bare hs fun p hp => by cases hp; exact hbuiltin (by decide))
  | define _ hname hv => exact hw.writeOwn (fun he => hname (Key.name.inj he)) hv
  | setField _ _ hv => exact hw.setField hv
  | setOwn _ _ hv => exact hw.setOwn hv
  | setProto _ hv => exact hw.setProto hv
  | setValueField _ _ _ hv => exact hw.setValueField hv

/-- **No operation takes an object away or changes its kind.** -/
theorem toExtends (hc : Change h h') : h.Extends h' := by
  cases hc with
  | allocPlain _ | allocObject | allocFunction _ _ | allocBuiltin _ _ => exact h.extends_alloc _
  | define _ _ _ => exact h.extends_writeOwn _ _ _
  | setField _ _ _ => exact h.extends_setField _ _ _
  | setOwn _ _ _ => exact h.extends_setOwn _ _ _
  | setProto _ _ => exact h.extends_setProto _ _
  | setValueField _ _ _ _ => exact h.extends_setValueField _ _ _ _

end Change

end Heap

end Protean
