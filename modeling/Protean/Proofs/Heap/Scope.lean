import Protean.Proofs.Machine.Entry

/-!
# Proofs — Heap — scopes

What the calls of functions do to the heap.  A call opens a scope inside of the captured one
(`Heap.openScope`) and binds its arguments, in an object of their own and in the scope (`Heap.bindCall`).  Each
of the two puts one object on the heap, which only grows by it (`Heap.Grows`): all objects that were there are
what they were, and so is all that is read from them (`Heap.Grows.getField`).

An object that is known can be read step by step along its links (`Heap.Chained.getField_found`,
`Heap.Chained.getField_outer`).

* `get_enter_scope`, `get_enter_args`: the two objects that a call with these arguments puts on the heap.
* `Grows.alloc`, `Grows.openScope`, `Grows.enter`, `Grows.writeOwn`: what only adds objects, where writing to an object
  that is new itself counts as adding.
* `Grows.getField`: the heap that has grown reads as before.
-/

namespace Protean

/-! ### Objects that are being built

A new object to which fields are written one after the other is made at once. -/

/-- The entries as the fields of a new object. -/
def Entries.fields (entries : Entries) : Fields := entries.foldl (fun fields e => fields.write e.1 e.2) []

namespace Heap

variable {h : Heap} {id captured scope x : ObjectId} {key : Key} {kind : ObjectKind} {fields : Fields}
  {proto : Option ObjectId} {v : Labeled} {entries : Entries}

/-- Fields that are written right after the object has been put on the heap. -/
theorem writeOwn_alloc (h : Heap) (o : Object) (key : Key) (v : Labeled) :
    (h.alloc o).2.writeOwn h.size key v = (h.alloc { o with fields := o.fields.write key v }).2 := by
  refine ext_get (by simp) fun id => ?_
  rw [writeOwn, get_modify, get_alloc, get_alloc]
  by_cases hid : id = h.size
  · simp [hid]
  · rw [if_neg (fun hc => hid hc.1.symm), if_neg hid, if_neg hid]

/-- The new object is what it was made as. -/
theorem get_alloc_self (h : Heap) (o : Object) : (h.alloc o).2.get h.size = o :=
  (get_alloc ..).trans (if_pos rfl)

/-- The objects that were there are what they were. -/
theorem get_alloc_of_lt {o : Object} (hx : x < h.size) : (h.alloc o).2.get x = h.get x :=
  (get_alloc ..).trans (if_neg (Nat.ne_of_lt hx))

/-- The object that is written has its field, and the same kind and link. -/
theorem get_writeOwn_self (hid : id < h.size) (key : Key) (v : Labeled) :
    (h.writeOwn id key v).get id = { h.get id with fields := (h.get id).fields.write key v } := by
  rw [writeOwn, get_modify, if_pos ⟨rfl, hid⟩]

/-! ### Scopes

The scope of a call, with the bindings of its arguments. -/

/-- A new scope inside of the captured one. -/
def openScope (h : Heap) (captured : ObjectId) : Heap :=
  (h.alloc ⟨.plain, [(.name "this", .bare (.object h.size))], some captured⟩).2

/-- The fields of a scope that has been bound. -/
def scopeFields (scope argsObject : ObjectId) (entries : Entries) : Fields :=
  ((Fields.write (.name "args") (.bare (.object argsObject)) [(.name "this", .bare (.object scope))]).write
    (.name "it") (entries.positional 0)).write (.name "self") entries.self

/-- The arguments of a call have been put into a new object and bound in its scope. -/
def bindCall (h : Heap) (scope : ObjectId) (entries : Entries) : Heap :=
  (((h.alloc ⟨.plain, entries.fields, some objectProto⟩).2.define scope "args" (.bare (.object h.size))).define
    scope "it" (entries.positional 0)).define scope "self" entries.self

/-- A call with evaluated arguments: its scope is the first new object. -/
def enter (h : Heap) (captured : ObjectId) (entries : Entries) : Heap :=
  (h.openScope captured).bindCall h.size entries

@[simp] theorem size_openScope (h : Heap) (captured : ObjectId) : (h.openScope captured).size = h.size + 1 :=
  size_alloc ..

/-- Binding the arguments makes one object, which holds them. -/
@[simp] theorem size_bindCall (h : Heap) (scope : ObjectId) (entries : Entries) :
    (h.bindCall scope entries).size = h.size + 1 := by
  simp [bindCall, define]

@[simp] theorem size_enter (h : Heap) (captured : ObjectId) (entries : Entries) :
    (h.enter captured entries).size = h.size + 2 := by
  simp [enter]

/-- A new scope knows itself as `this`, and links to the scope around. -/
theorem get_openScope_self (h : Heap) (captured : ObjectId) :
    (h.openScope captured).get h.size = ⟨.plain, [(.name "this", .bare (.object h.size))], some captured⟩ :=
  get_alloc_self ..

theorem get_openScope_of_lt (hx : x < h.size) : (h.openScope captured).get x = h.get x :=
  get_alloc_of_lt hx

theorem get_bindCall_of_ne (hx : x < h.size) (hne : x ≠ scope) : (h.bindCall scope entries).get x = h.get x := by
  simp only [bindCall, define]
  rw [get_writeOwn_ne hne, get_writeOwn_ne hne, get_writeOwn_ne hne, get_alloc_of_lt hx]

/-- The arguments are in an object of their own, behind all others. -/
theorem get_bindCall_args (hscope : scope < h.size) (entries : Entries) :
    (h.bindCall scope entries).get h.size = ⟨.plain, entries.fields, some objectProto⟩ := by
  have hne : h.size ≠ scope := (Nat.ne_of_lt hscope).symm
  simp only [bindCall, define]
  rw [get_writeOwn_ne hne, get_writeOwn_ne hne, get_writeOwn_ne hne, get_alloc_self]

/-- The scope has got its four names, as far as the arguments are not null. -/
theorem get_bindCall_scope (hscope : scope < h.size)
    (hget : h.get scope = ⟨.plain, [(.name "this", .bare (.object scope))], proto⟩) (entries : Entries) :
    (h.bindCall scope entries).get scope = ⟨.plain, scopeFields scope h.size entries, proto⟩ := by
  have hlt : ∀ h' : Heap, h'.size = h.size + 1 → scope < h'.size := fun h' hsize => by
    rw [hsize]
    exact Nat.lt_succ_of_lt hscope
  simp only [bindCall, define]
  rw [get_writeOwn_self (hlt _ (by simp)), get_writeOwn_self (hlt _ (by simp)),
    get_writeOwn_self (hlt _ (by simp)), get_alloc_of_lt hscope, hget]
  rfl

/-- Binding the arguments leaves every object in its place and of its kind. -/
theorem extends_bindCall (h : Heap) (scope : ObjectId) (entries : Entries) :
    h.Extends (h.bindCall scope entries) :=
  (((h.extends_alloc _).trans (extends_writeOwn ..)).trans (extends_writeOwn ..)).trans (extends_writeOwn ..)

/-- A call changes no object that was there. -/
theorem get_enter_of_lt (hx : x < h.size) : (h.enter captured entries).get x = h.get x := by
  have hx' : x < (h.openScope captured).size := by rw [size_openScope]; exact Nat.lt_succ_of_lt hx
  rw [enter, get_bindCall_of_ne hx' (Nat.ne_of_lt hx), get_openScope_of_lt hx]

/-- The scope of a call is the next object. -/
theorem get_enter_scope (h : Heap) (captured : ObjectId) (entries : Entries) :
    (h.enter captured entries).get h.size = ⟨.plain, scopeFields h.size (h.size + 1) entries, some captured⟩ := by
  rw [enter, get_bindCall_scope (by simp) (get_openScope_self ..), size_openScope]

/-- The object with its arguments is the one after the scope. -/
theorem get_enter_args (h : Heap) (captured : ObjectId) (entries : Entries) :
    (h.enter captured entries).get (h.size + 1) = ⟨.plain, entries.fields, some objectProto⟩ := by
  have hscope : h.size < (h.openScope captured).size := by simp
  have hargs := get_bindCall_args hscope entries
  rwa [size_openScope] at hargs

/-! ### Reading an object that is known

Where an object and its prototype are known, so is what is read from it. -/

/-- A field that the object has. -/
theorem Chained.getField_found (hc : h.Chained) (hget : h.get id = ⟨kind, fields, proto⟩) (hkey : key ≠ .proto)
    (hfind : fields.find? key = some v) : h.getField id key = v := by
  refine hc.getField_own hkey ?_
  rwa [Heap.fields, hget]

/-- A field that the object does not have. -/
theorem Chained.getField_outer {next : ObjectId} (hc : h.Chained) (hget : h.get id = ⟨kind, fields, some next⟩)
    (hkey : key ≠ .proto) (hfind : fields.find? key = none) : h.getField id key = h.getField next key := by
  refine hc.getField_link hkey (Fields.find?_eq_none.mp ?_) (by rw [Heap.proto, hget])
  rwa [Heap.fields, hget]

/-- What is read from an object depends on the objects of its chain only. -/
theorem Chained.getField_congr {h' : Heap} (hc : h.Chained) (hc' : h'.Chained)
    (hget : ∀ y ∈ h.chain id, h'.get y = h.get y) : h'.getField id key = h.getField id key := by
  refine hc.induction (P := fun id => (∀ y ∈ h.chain id, h'.get y = h.get y) →
    h'.getField id key = h.getField id key) (fun id ih hget => ?_) id hget
  have hself : h'.get id = h.get id := by
    obtain ⟨rest, hrest⟩ := hc.chain_head id
    exact hget id (hrest ▸ List.mem_cons_self)
  have hfields : h'.fields id = h.fields id := congrArg Object.fields hself
  have hproto : h'.proto id = h.proto id := congrArg Object.proto hself
  by_cases hkey : key = .proto
  · rw [getField, getField, if_pos hkey, if_pos hkey, protoValue, protoValue, hproto]
  by_cases hown : key ∈ (h.fields id).keys
  · obtain ⟨v, hv⟩ := Fields.exists_find? hown
    rw [hc.getField_own hkey hv, hc'.getField_own hkey (hfields ▸ hv)]
  · cases hp : h.proto id with
    | none =>
      rw [hc.getField_root hkey hown hp, hc'.getField_root hkey (hfields ▸ hown) (hproto.trans hp)]
    | some next =>
      rw [hc.getField_link hkey hown hp, hc'.getField_link hkey (hfields ▸ hown) (hproto.trans hp)]
      exact ih next hp fun y hy => hget y (hc.chain_link hp ▸ List.mem_cons_of_mem _ hy)

/-! ### Growth

Heaps to which objects have been added and in which nothing else has changed. -/

/-- `h'` has all the objects of `h` as they are, and maybe more. -/
structure Grows (h h' : Heap) : Prop where
  size_le : h.size ≤ h'.size
  get_eq : ∀ x, x < h.size → h'.get x = h.get x

namespace Grows

variable {h' h'' : Heap}

theorem refl (h : Heap) : h.Grows h := ⟨le_rfl, fun _ _ => rfl⟩

theorem trans (hg : h.Grows h') (hg' : h'.Grows h'') : h.Grows h'' where
  size_le := hg.size_le.trans hg'.size_le
  get_eq x hx := (hg'.get_eq x (hx.trans_le hg.size_le)).trans (hg.get_eq x hx)

theorem alloc (h : Heap) (o : Object) : h.Grows (h.alloc o).2 where
  size_le := by rw [size_alloc]; exact Nat.le_succ _
  get_eq _ hx := get_alloc_of_lt hx

theorem openScope (h : Heap) (captured : ObjectId) : h.Grows (h.openScope captured) := .alloc ..

theorem enter (h : Heap) (captured : ObjectId) (entries : Entries) : h.Grows (h.enter captured entries) where
  size_le := by rw [size_enter]; omega
  get_eq _ hx := get_enter_of_lt hx

/-- Writing to a new object leaves the old ones alone. -/
theorem writeOwn (hg : h.Grows h') {x : ObjectId} (hx : h.size ≤ x) (key : Key) (v : Labeled) :
    h.Grows (h'.writeOwn x key v) where
  size_le := hg.size_le.trans (size_writeOwn ..).ge
  get_eq y hy := (get_writeOwn_ne (Nat.ne_of_lt (hy.trans_le hx)) key v).trans (hg.get_eq y hy)

/-- A heap that has only grown keeps every object in its place and of its kind. -/
theorem toExtends (hg : h.Grows h') : h.Extends h' := ⟨hg.size_le, fun x hx => by rw [hg.get_eq x hx]⟩

/-- New objects do not change what is read from old ones. -/
theorem getField (hg : h.Grows h') (hw : h.WellFormed) (hw' : h'.WellFormed) (hid : id < h.size) (key : Key) :
    h'.getField id key = h.getField id key :=
  hw.chained.getField_congr hw'.chained fun y hy =>
    hg.get_eq y ((hw.chained id).lt_size (fun _ _ => hw.proto_lt) hid y hy)

end Grows

/-- An object with a link is there. -/
theorem lt_of_get {next : ObjectId} (hget : h.get id = ⟨kind, fields, some next⟩) : id < h.size := by
  by_contra hlt
  rw [get_of_size_le (Nat.le_of_not_lt hlt)] at hget
  cases hget

/-- A function is there. -/
theorem lt_of_function {code : Lambda} (hkind : (h.get id).kind = .function code captured) : id < h.size := by
  by_contra hlt
  rw [get_of_size_le (Nat.le_of_not_lt hlt)] at hkind
  cases hkind

end Heap

end Protean
