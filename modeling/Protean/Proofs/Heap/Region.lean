import Protean.Descriptor.Check
import Protean.Proofs.Code.Closed

/-!
# Proofs — Heap — regions

A *region* takes in some of the objects, the builtin prototypes among them, and some of the expressions.  A
value is in it when it is no object or one of the region and comes from an expression of the region; code is
when its constants and its origins are.

Two heaps are *alike* in a region (`Region.Alike`) when they are of one size, have the same objects in it,
and nothing that is in it leads out of it.  What lies beyond the heaps belongs to the region, so that objects
allocated later do.

* Reading alike heaps inside of the region gives the same, which is in the region again.
* Writing to alike heaps inside of the region leaves them alike, and every object outside of it as it was
  (`Region.Changed`).

The lemmas about `Alike` are in the order of the operations:

* reading: `chain_eq`, `getField_eq`, `getValueField_in`, `check_alike`;
* writing: `alloc`, `modify`, `writeOwn`, `setProto`, `setValueField`, each of which gives `Changed`.

Runs on two heaps that differ outside of a region only can so be compared one operation at a time.
-/

namespace Protean

/-- Some objects, the builtin prototypes among them, and some expressions. -/
structure Region where
  objects : ObjectId → Prop
  sources : Expr → Prop
  builtins : ∀ id, id ≤ Heap.booleanProto → objects id

/-- The expression, if there is one, is in the region. -/
def Region.Marks (R : Region) (origin : Option Expr) : Prop := ∀ e, origin = some e → R.sources e

/-- Code without an origin comes from nowhere, and so from nowhere outside. -/
theorem Region.marks_none (R : Region) : R.Marks none := fun _ h => by cases h

/-! ### Values and code

What it is for values, labels and code to be of a region. -/

/-- The value is no object or one of the region. -/
def Value.In (R : Region) : Value → Prop
  | .object id => R.objects id
  | .null | .number _ | .string _ | .boolean _ => True

theorem Value.number_in (R : Region) (x : Float) : (Value.number x).In R := trivial

theorem Value.string_in (R : Region) (text : String) : (Value.string text).In R := trivial

theorem Value.boolean_in (R : Region) (b : Bool) : (Value.boolean b).In R := trivial

/-- The value and its source are in the region. -/
structure Labeled.In (R : Region) (v : Labeled) : Prop where
  value : v.value.In R
  source : R.Marks v.source

namespace Labeled.In

variable {R : Region} {v : Labeled} {origin : Option Expr}

/-- A value without a source is in the region as soon as its object is. -/
theorem bare {value : Value} (h : value.In R) : (Labeled.bare value).In R := ⟨h, R.marks_none⟩

theorem null : Labeled.null.In R := ⟨trivial, R.marks_none⟩

/-- An object of the region is in it as a value. -/
theorem ofObject {id : ObjectId} (h : R.objects id) : (Labeled.bare (.object id)).In R := bare h

/-- The object that a value of the region stands for is in the region. -/
theorem object {id : ObjectId} (hv : v.In R) (hid : v.value = .object id) : R.objects id := by
  have hvalue := hv.value
  rwa [hid] at hvalue

/-- A label from the region keeps a value in it. -/
theorem orSource (hv : v.In R) (ho : R.Marks origin) : (v.orSource origin).In R := by
  rw [Labeled.orSource]
  split
  · exact hv
  · exact ⟨hv.value, ho⟩

end Labeled.In

namespace Code

mutual

/-- All origins, and all constants with their sources, are in the region. -/
def In (R : Region) : Code → Prop
  | .const v => v.In R
  | .identifier o _ | .literal o _ | .builtin o _ | .probeScope o _ => R.Marks o
  | .bracket o c | .field o c _ | .bind o _ c | .destructure o _ c | .probeField o c _ =>
    R.Marks o ∧ c.In R
  | .call o c args | .send o c _ args => R.Marks o ∧ c.In R ∧ ArgsIn R args
  | .store o target _ value => R.Marks o ∧ target.In R ∧ value.In R
  | .function o _ _ body => R.Marks o ∧ BodyIn R body

/-- All of the code in a body is in the region. -/
def BodyIn (R : Region) : List Code → Prop
  | [] => True
  | c :: cs => c.In R ∧ BodyIn R cs

/-- The code of all arguments is in the region. -/
def ArgsIn (R : Region) : List (Argument Code) → Prop
  | [] => True
  | ⟨_, c⟩ :: args => c.In R ∧ ArgsIn R args

end

variable {R : Region}

/-- Code of the region comes from an expression of the region. -/
theorem In.origin : ∀ {c : Code}, c.In R → R.Marks c.origin
  | .const _, _ => R.marks_none
  | .identifier .., h | .literal .., h | .builtin .., h | .probeScope .., h => h
  | .bracket .., h | .field .., h | .bind .., h | .destructure .., h | .probeField .., h
  | .call .., h | .send .., h | .store .., h | .function .., h => h.1

/-- A body is in the region exactly if each of its parts is. -/
theorem bodyIn_iff {cs : List Code} : BodyIn R cs ↔ ∀ c ∈ cs, c.In R := by
  induction cs with
  | nil => exact iff_of_true trivial (List.forall_mem_nil _)
  | cons c cs ih => rw [BodyIn, ih, List.forall_mem_cons]

/-- Arguments are in the region exactly if the code of each is. -/
theorem argsIn_iff {args : List (Argument Code)} : ArgsIn R args ↔ ∀ a ∈ args, a.value.In R := by
  induction args with
  | nil => exact iff_of_true trivial (List.forall_mem_nil _)
  | cons a args ih => rw [ArgsIn, ih, List.forall_mem_cons]

end Code

/-! ### Objects and heaps

When two heaps are alike in a region, and when a region is closed. -/

/-- The captured scope and the code of a function are in the region. -/
def ObjectKind.In (R : Region) : ObjectKind → Prop
  | .plain => True
  | .function lambda scope => R.objects scope ∧ Code.BodyIn R lambda.body
  | .builtin _ scope => R.objects scope

/-- Nothing leads from the object out of the region. -/
structure Object.In (R : Region) (o : Object) : Prop where
  proto : ∀ p, o.proto = some p → R.objects p
  kind : o.kind.In R
  fields : ∀ field ∈ o.fields, field.2.In R

namespace Object.In

variable {R : Region} {o : Object}

/-- An object without fields. -/
theorem fresh {kind : ObjectKind} {proto : ObjectId} (hk : kind.In R) (hp : R.objects proto) :
    Object.In R ⟨kind, [], some proto⟩ :=
  ⟨fun p h => by cases h; exact hp, hk, fun _ hmem => by cases hmem⟩

/-- A field with a value of the region keeps an object in it. -/
theorem write {key : Key} {v : Labeled} (ho : o.In R) (hv : v.In R) :
    Object.In R { o with fields := o.fields.write key v } := by
  refine ⟨ho.proto, ho.kind, fun field hmem => ?_⟩
  rcases Fields.mem_write hmem with hmem | ⟨-, heq, -⟩
  · exact ho.fields field hmem
  · exact heq ▸ hv

theorem relink {proto : Option ObjectId} (ho : o.In R) (hp : ∀ p, proto = some p → R.objects p) :
    Object.In R { o with proto := proto } := ⟨hp, ho.kind, ho.fields⟩

/-- What a field of such an object holds is in the region. -/
theorem find? {key : Key} {v : Labeled} (ho : o.In R) (h : Fields.find? key o.fields = some v) :
    v.In R := ho.fields _ (Fields.mem_of_find? h)

end Object.In

namespace Region

variable {R : Region} {h h' k k' : Heap} {id : ObjectId} {key : Key} {v : Labeled}

/-- The heaps have the same objects in the region, nothing leads out of it, and it takes in whatever is
allocated next. -/
structure Alike (R : Region) (h h' : Heap) : Prop where
  size_eq : h.size = h'.size
  beyond : ∀ id, h.size ≤ id → R.objects id
  get_eq : ∀ id, R.objects id → h.get id = h'.get id
  closed : ∀ id, R.objects id → (h.get id).In R

/-- The objects outside of the region are the same in `h` and `k`. -/
def Keeps (R : Region) (h k : Heap) : Prop := ∀ id, ¬ R.objects id → k.get id = h.get id

theorem Keeps.refl (R : Region) (h : Heap) : R.Keeps h h := fun _ _ => rfl

theorem Keeps.trans {l : Heap} (h₁ : R.Keeps h k) (h₂ : R.Keeps k l) : R.Keeps h l :=
  fun id hid => (h₂ id hid).trans (h₁ id hid)

/-! ### Reading

Whatever is read from an object of the region is the same in both heaps, and of the region. -/

namespace Alike

/-- Objects of the region have the same link on both heaps. -/
theorem proto_eq (ha : R.Alike h h') (hid : R.objects id) : h.proto id = h'.proto id := by
  rw [Heap.proto, Heap.proto, ha.get_eq id hid]

/-- Objects of the region have the same fields on both heaps. -/
theorem fields_eq (ha : R.Alike h h') (hid : R.objects id) : h.fields id = h'.fields id := by
  rw [Heap.fields, Heap.fields, ha.get_eq id hid]

/-- Links do not lead out of the region. -/
theorem proto_in (ha : R.Alike h h') (hid : R.objects id) {p : ObjectId} (hp : h.proto id = some p) :
    R.objects p := (ha.closed id hid).proto p hp

/-- The search along links is the same on both heaps and stays in the region, by induction on its fuel. -/
theorem chainFrom_eq (ha : R.Alike h h') : ∀ (fuel : Nat) {id : ObjectId}, R.objects id →
    h.chainFrom fuel id = h'.chainFrom fuel id ∧ ∀ x ∈ h.chainFrom fuel id, R.objects x
  | 0, _, _ => ⟨rfl, List.forall_mem_nil _⟩
  | fuel + 1, id, hid => by
      rw [Heap.chainFrom, Heap.chainFrom, ← ha.proto_eq hid]
      cases hp : h.proto id with
      | none => exact ⟨rfl, List.forall_mem_singleton.mpr hid⟩
      | some next =>
        obtain ⟨heq, hin⟩ := chainFrom_eq ha fuel (ha.proto_in hid hp)
        exact ⟨congrArg (id :: ·) heq, List.forall_mem_cons.mpr ⟨hid, hin⟩⟩

theorem chain_eq (ha : R.Alike h h') (hid : R.objects id) : h.chain id = h'.chain id := by
  rw [Heap.chain, Heap.chain, ← ha.size_eq]
  exact (ha.chainFrom_eq _ hid).1

/-- The chain of an object stays in the region. -/
theorem chain_in (ha : R.Alike h h') (hid : R.objects id) : ∀ x ∈ h.chain id, R.objects x :=
  (ha.chainFrom_eq _ hid).2

/-- The first object of the region whose fields pass a test is the same on both heaps. -/
theorem find?_eq (ha : R.Alike h h') {ids : List ObjectId} (hids : ∀ x ∈ ids, R.objects x)
    (p : Fields → Bool) :
    ids.find? (fun x => p (h.fields x)) = ids.find? fun x => p (h'.fields x) := by
  induction ids with
  | nil => rfl
  | cons x ids ih =>
    obtain ⟨hx, hids⟩ := List.forall_mem_cons.mp hids
    rw [List.find?_cons, List.find?_cons, ha.fields_eq hx, ih hids]

/-- Keys have the same owner on both heaps. -/
theorem owner?_eq (ha : R.Alike h h') (hid : R.objects id) (key : Key) :
    h.owner? id key = h'.owner? id key := by
  rw [Heap.owner?, Heap.owner?, ← ha.chain_eq hid]
  exact ha.find?_eq (ha.chain_in hid) fun fields => (fields.find? key).isSome

/-- The object that a write would go to is in the region. -/
theorem owner?_in (ha : R.Alike h h') (hid : R.objects id) (key : Key) :
    R.objects ((h.owner? id key).getD id) := by
  cases howner : h.owner? id key with
  | none => exact hid
  | some owner => exact ha.chain_in hid owner (List.mem_of_find?_eq_some howner)

/-- A search through objects of the region finds the same. -/
theorem lookup_eq (ha : R.Alike h h') (key : Key) {ids : List ObjectId}
    (hids : ∀ x ∈ ids, R.objects x) : h.lookup key ids = h'.lookup key ids := by
  rw [Heap.lookup, Heap.lookup]
  induction ids with
  | nil => rfl
  | cons x ids ih =>
    obtain ⟨hx, hids⟩ := List.forall_mem_cons.mp hids
    rw [List.findSome?_cons, List.findSome?_cons, ha.fields_eq hx, ih hids]

/-- **Reading** from an object of the region gives the same. -/
theorem getField_eq (ha : R.Alike h h') (hid : R.objects id) (key : Key) :
    h.getField id key = h'.getField id key := by
  rw [Heap.getField, Heap.getField, Heap.protoValue, Heap.protoValue, ← ha.proto_eq hid,
    ← ha.chain_eq hid, ha.lookup_eq key (ha.chain_in hid)]

/-- A field that is read in the region holds a value of the region. -/
theorem getField_in (ha : R.Alike h h') (hid : R.objects id) (key : Key) :
    (h.getField id key).In R := by
  rw [Heap.getField]
  split
  · rw [Heap.protoValue]
    split
    · rename_i p hp
      exact .bare (ha.proto_in hid hp)
    · exact .null
  · cases hl : h.lookup key (h.chain id) with
    | none => exact .null
    | some v =>
      obtain ⟨owner, hmem, hfind⟩ := List.exists_of_findSome?_eq_some hl
      exact (ha.closed owner (ha.chain_in hid owner hmem)).find? hfind

theorem getValueField_eq (ha : R.Alike h h') {target : Value} (ht : target.In R) (key : Key) :
    h.getValueField target key = h'.getValueField target key := by
  cases target with
  | null => rfl
  | object id => exact congrArg Except.ok (ha.getField_eq ht key)
  | number _ | string _ | boolean _ =>
    simp only [Heap.getValueField, Heap.primitiveProto]
    rw [ha.getField_eq (R.builtins _ (by decide)) key]

/-- What is read from a value of the region is in the region. -/
theorem getValueField_in (ha : R.Alike h h') {target : Value} (ht : target.In R)
    (hv : h.getValueField target key = .ok v) : v.In R := by
  cases target with
  | null => cases hv
  | object id => cases hv; exact ha.getField_in ht key
  | number _ | string _ | boolean _ =>
    cases hv
    split
    · exact .bare (R.builtins _ (by decide))
    · exact ha.getField_in (R.builtins _ (by decide)) key

theorem isCallable_eq (ha : R.Alike h h') {target : Value} (ht : target.In R) :
    h.isCallable target = h'.isCallable target := by
  cases target with
  | object id => rw [Heap.isCallable, Heap.isCallable, ha.get_eq id ht]
  | null | number _ | string _ | boolean _ => rfl

theorem display_eq (ha : R.Alike h h') {target : Value} (ht : target.In R) :
    h.display target = h'.display target := by
  cases target with
  | object id => rw [Heap.display, Heap.display, ha.get_eq id ht]
  | null | number _ | string _ | boolean _ => rfl

theorem storedIndices_eq (ha : R.Alike h h') (hid : R.objects id) (length : Nat) :
    h.storedIndices id length = h'.storedIndices id length := by
  have hkeys : (h.chain id).flatMap (fun o => (h.fields o).keys) =
      (h.chain id).flatMap fun o => (h'.fields o).keys := by
    simp only [List.flatMap]
    refine congrArg List.flatten (List.map_congr_left fun x hx => ?_)
    rw [ha.fields_eq (ha.chain_in hid x hx)]
  simp only [Heap.storedIndices, Heap.visibleKeys, Heap.base, ← ha.chain_eq hid, hkeys]

end Alike

end Region

/-! ### Descriptors

Checks read fields, so they come to the same verdict. -/

namespace Descriptor

variable {R : Region} {h h' : Heap}

/-- A primitive descriptor accepts the same values of the region. -/
theorem accepts_alike (ha : R.Alike h h') (kind : Primitive) {v : Value} (hv : v.In R) :
    kind.accepts h v = kind.accepts h' v := by
  cases kind with
  | function => simp only [Primitive.accepts, ha.isCallable_eq hv]
  | any | null | number | string | boolean | object => cases v <;> rfl

mutual

/-- A value of the region fits a descriptor on both heaps or on neither, and for the same reason. -/
theorem check_alike (ha : R.Alike h h') : ∀ (t : Descriptor) {v : Value}, v.In R →
    t.check h v = t.check h' v
  | .primitive kind, v, hv => by rw [check, check, accepts_alike ha kind hv]
  | .or alternatives, v, hv => by rw [check, check, checkAny_alike ha alternatives hv]
  | .objectOf fields, .object id, hid => by rw [check, check, checkFields_alike ha fields hid]
  | .objectOf _, .null, _ | .objectOf _, .number _, _ | .objectOf _, .string _, _
  | .objectOf _, .boolean _, _ => by simp only [check]
  | .listOf element, .object id, hid => by
      have helement : ∀ i, element.check h (h.getField id (.index i)).value =
          element.check h' (h'.getField id (.index i)).value := fun i => by
        rw [← ha.getField_eq hid]
        exact check_alike ha element (ha.getField_in hid _).value
      have hlength : h.listLength? id = h'.listLength? id := by
        rw [Heap.listLength?, Heap.listLength?, ha.getField_eq hid]
      rw [check, check]
      simp only [ha.get_eq id hid, hlength, ha.storedIndices_eq hid, helement]
  | .listOf _, .null, _ | .listOf _, .number _, _ | .listOf _, .string _, _
  | .listOf _, .boolean _, _ => by simp only [check]

theorem checkAny_alike (ha : R.Alike h h') : ∀ (ts : List Descriptor) {v : Value}, v.In R →
    checkAny h ts v = checkAny h' ts v
  | [], _, _ => by rw [checkAny, checkAny]
  | t :: ts, v, hv => by rw [checkAny, checkAny, check_alike ha t hv, checkAny_alike ha ts hv]

theorem checkFields_alike (ha : R.Alike h h') : ∀ (fields : List (Key × Descriptor)) {id : ObjectId},
    R.objects id → checkFields h fields id = checkFields h' fields id
  | [], _, _ => by rw [checkFields, checkFields]
  | (key, t) :: fields, id, hid => by
      rw [checkFields, checkFields, ← ha.getField_eq hid,
        check_alike ha t (ha.getField_in hid key).value, checkFields_alike ha fields hid]

end

end Descriptor

/-! ### Writing

Both heaps are changed alike, and outside of the region neither is changed. -/

namespace Region

variable {R : Region} {h h' k k' : Heap} {id : ObjectId} {key : Key} {v : Labeled}

/-- What was done to `h` and `h'` has left them alike, and did nothing outside of the region. -/
structure Changed (R : Region) (h h' k k' : Heap) : Prop where
  alike : R.Alike k k'
  keeps : R.Keeps h k
  keeps' : R.Keeps h' k'

namespace Changed

theorem refl (ha : R.Alike h h') : R.Changed h h' h h' := ⟨ha, .refl R h, .refl R h'⟩

/-- One change after the other is a change. -/
theorem trans {l l' : Heap} (h₁ : R.Changed h h' k k') (h₂ : R.Changed k k' l l') :
    R.Changed h h' l l' := ⟨h₂.alike, h₁.keeps.trans h₂.keeps, h₁.keeps'.trans h₂.keeps'⟩

end Changed

/-- A new object is in the region, so that nothing outside of it changes. -/
theorem keeps_alloc {o : Object} (hnew : R.objects h.size) : R.Keeps h (h.alloc o).2 := by
  intro id hid
  rw [Heap.get_alloc, if_neg fun heq => hid (by rw [heq]; exact hnew)]

theorem keeps_modify {f : Object → Object} (hid : R.objects id) : R.Keeps h (h.modify id f) := by
  intro other hother
  rw [Heap.get_modify]
  exact if_neg fun ⟨heq, _⟩ => hother (heq ▸ hid)

namespace Alike

theorem alloc {o : Object} (ha : R.Alike h h') (ho : o.In R) :
    R.Changed h h' (h.alloc o).2 (h'.alloc o).2 := by
  refine ⟨⟨by rw [Heap.size_alloc, Heap.size_alloc, ha.size_eq], fun id hid => ?_, fun id hid => ?_,
    fun id hid => ?_⟩, keeps_alloc (ha.beyond _ le_rfl), keeps_alloc (ha.beyond _ ha.size_eq.le)⟩
  · rw [Heap.size_alloc] at hid
    exact ha.beyond id (Nat.le_of_succ_le hid)
  · rw [Heap.get_alloc, Heap.get_alloc, ← ha.size_eq, ha.get_eq id hid]
  · rw [Heap.get_alloc]
    split
    · exact ho
    · exact ha.closed id hid

theorem modify {f : Object → Object} (ha : R.Alike h h') (hid : R.objects id)
    (hf : ∀ o : Object, o.In R → (f o).In R) :
    R.Changed h h' (h.modify id f) (h'.modify id f) := by
  refine ⟨⟨by rw [Heap.size_modify, Heap.size_modify, ha.size_eq], fun other hother => ?_,
    fun other hother => ?_, fun other hother => ?_⟩, keeps_modify hid, keeps_modify hid⟩
  · exact ha.beyond other (by rwa [Heap.size_modify] at hother)
  · rw [Heap.get_modify, Heap.get_modify, ← ha.size_eq, ha.get_eq other hother]
  · rw [Heap.get_modify]
    split
    · exact hf _ (ha.closed other hother)
    · exact ha.closed other hother

theorem writeOwn (ha : R.Alike h h') (hid : R.objects id) (key : Key) (hv : v.In R) :
    R.Changed h h' (h.writeOwn id key v) (h'.writeOwn id key v) :=
  ha.modify hid fun _ ho => ho.write hv

theorem define (ha : R.Alike h h') (hid : R.objects id) (name : String) (hv : v.In R) :
    R.Changed h h' (h.define id name v) (h'.define id name v) := ha.writeOwn hid _ hv

/-- Setting the same link, which is refused on both heaps or on neither. -/
theorem setProto (ha : R.Alike h h') (hid : R.objects id) {value : Value} (hv : value.In R) :
    (h.setProto id value).1 = (h'.setProto id value).1 ∧
      R.Changed h h' (h.setProto id value).2 (h'.setProto id value).2 := by
  cases value with
  | null => exact ⟨rfl, ha.modify hid fun _ ho => ho.relink fun p hp => by cases hp⟩
  | object proto =>
    rw [Heap.setProto, Heap.setProto, ← ha.chain_eq hv]
    split
    · exact ⟨rfl, .refl ha⟩
    · exact ⟨rfl, ha.modify hid fun _ ho => ho.relink fun p hp => by cases hp; exact hv⟩
  | number _ | string _ | boolean _ => exact ⟨rfl, .refl ha⟩

theorem setOwn (ha : R.Alike h h') (hid : R.objects id) (key : Key) (hv : v.In R) :
    (h.setOwn id key v).1 = (h'.setOwn id key v).1 ∧
      R.Changed h h' (h.setOwn id key v).2 (h'.setOwn id key v).2 := by
  rw [Heap.setOwn, Heap.setOwn]
  split
  · exact ha.setProto hid hv.value
  · exact ⟨rfl, ha.writeOwn hid key hv⟩

/-- Setting the same field: the object that owns the key is the same. -/
theorem setField (ha : R.Alike h h') (hid : R.objects id) (key : Key) (hv : v.In R) :
    (h.setField id key v).1 = (h'.setField id key v).1 ∧
      R.Changed h h' (h.setField id key v).2 (h'.setField id key v).2 := by
  rw [Heap.setField, Heap.setField, ← ha.owner?_eq hid]
  split
  · exact ha.setProto hid hv.value
  · exact ⟨rfl, ha.writeOwn (ha.owner?_in hid key) key hv⟩

/-- Setting the same field on the same value. -/
theorem setValueField (ha : R.Alike h h') {target : Value} (ht : target.In R) (key : Key) (hv : v.In R)
    (own : Bool) : (h.setValueField target key v own).1 = (h'.setValueField target key v own).1 ∧
      R.Changed h h' (h.setValueField target key v own).2 (h'.setValueField target key v own).2 := by
  have hwrite : ∀ {id}, R.objects id →
      (if own then h.setOwn id key v else h.setField id key v).1 =
          (if own then h'.setOwn id key v else h'.setField id key v).1 ∧
        R.Changed h h' (if own then h.setOwn id key v else h.setField id key v).2
          (if own then h'.setOwn id key v else h'.setField id key v).2 := by
    intro id hid
    split
    · exact ha.setOwn hid key hv
    · exact ha.setField hid key hv
  cases target with
  | null => exact ⟨rfl, .refl ha⟩
  | object id => exact hwrite ht
  | number _ | string _ | boolean _ =>
    simp only [Heap.setValueField, Heap.primitiveProto]
    split
    · exact ⟨rfl, .refl ha⟩
    · exact hwrite (R.builtins _ (by decide))

end Alike

end Region

end Protean
