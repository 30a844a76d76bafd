import Protean.Proofs.Library.Stock
import Protean.Proofs.Machine.Entered
import Protean.Proofs.Number.Exact

/-!
# Proofs — Library — lists

How a list stands for its elements.  An element that is null leaves no field, so the elements are not the fields
with an index: `Heap.IsList` says that the object has a length, the other elements under their indices, and
nothing else of its own.  `list(...)` makes such an object and `add` appends to it, as long as the length is a
whole number that doubles represent exactly.

* `Labeled.stored`: what is read where a value has been written; null comes back as null, without its source.
* `Fields.Elements`: the fields of a list, apart from its length.
* `Heap.IsList.getField_index`: **what a list holds is read from it**, nulls included, if lists inherit no elements.
* `Heap.IsList.appended`, `Heap.isList_ofElements`: one more element, and a new list.
* `Machine.Invokes.list`, `Machine.Invokes.add`, `Machine.Invokes.get`: the builtin functions on lists.
-/

namespace Protean

theorem Key.index_ne_proto (i : Nat) : Key.index i ≠ .proto := nofun

namespace Labeled

variable {v : Labeled}

/-- The field that is left by writing the value: null leaves none. -/
def field? (v : Labeled) : Option Labeled := if v.value.isNull then none else some v

/-- What is read where the value has been written. -/
def stored (v : Labeled) : Labeled := v.field?.getD .null

theorem field?_of_null (hv : v.value = .null) : v.field? = none := if_pos (Value.isNull_iff.mpr hv)

theorem field?_of_ne_null (hv : v.value ≠ .null) : v.field? = some v :=
  if_neg fun hnull => hv (Value.isNull_iff.mp hnull)

/-- Null is read back as null, without a source. -/
theorem stored_of_null (hv : v.value = .null) : v.stored = .null := by rw [stored, field?_of_null hv]; rfl

/-- Any other value is read back as it is. -/
theorem stored_of_ne_null (hv : v.value ≠ .null) : v.stored = v := by rw [stored, field?_of_ne_null hv]; rfl

/-- What is read back leaves the same field. -/
@[simp] theorem field?_stored (v : Labeled) : v.stored.field? = v.field? := by
  by_cases hv : v.value = .null
  · rw [stored_of_null hv, field?_of_null hv]
    rfl
  · rw [stored_of_ne_null hv]

/-- To be read back twice is to be read back once. -/
@[simp] theorem stored_stored (v : Labeled) : v.stored.stored = v.stored := by rw [stored, field?_stored, stored]

end Labeled

/-! ### Elements

A list is read as its elements: by index, by its length, and as null everywhere else. -/

namespace Fields

variable {fields : Fields} {vs : List Labeled} {v : Labeled} {key : Key}

/-- Where nothing was, what has been written is found, unless it is null. -/
theorem find?_write_self (hkey : key ∉ fields.keys) : (fields.write key v).find? key = v.field? := by
  by_cases hv : v.value = .null
  · rw [write_null hv, erase_of_not_mem hkey, find?_eq_none.mpr hkey, Labeled.field?_of_null hv]
  · rw [write_of_ne_null hv, find?_put_self, Labeled.field?_of_ne_null hv]

/-- The fields hold the elements under their indices, and under a name at most a length. -/
structure Elements (fields : Fields) (vs : List Labeled) : Prop where
  index : ∀ i, fields.find? (.index i) = vs[i]?.bind Labeled.field?
  name : ∀ name, name ≠ "length" → fields.find? (.name name) = none
  stored : ∀ v ∈ vs, v.stored = v

namespace Elements

theorem nil : Elements [] [] where
  index _ := rfl
  name _ _ := rfl
  stored _ hv := by cases hv

/-- One more element. -/
theorem append (he : Elements fields vs) (v : Labeled) :
    Elements (fields.write (.index vs.length) v) (vs ++ [v.stored]) where
  index i := by
    by_cases hi : i = vs.length
    · have hfree : Key.index vs.length ∉ fields.keys := by
        rw [← find?_eq_none, he.index, List.getElem?_eq_none le_rfl, Option.bind_none]
      rw [hi, find?_write_self hfree, List.getElem?_concat_length, Option.bind_some, Labeled.field?_stored]
    · rw [find?_write_ne (fun hkey => hi (Key.index.inj hkey)), he.index]
      rcases Nat.lt_or_gt_of_ne hi with hlt | hgt
      · rw [List.getElem?_append_left hlt]
      · rw [List.getElem?_eq_none (by omega), List.getElem?_eq_none (by simp; omega)]
  name name hname := (find?_write_ne Key.noConfusion v fields).trans (he.name name hname)
  stored w hw := by
    rcases List.mem_append.mp hw with hw | hw
    · exact he.stored w hw
    · rw [List.mem_singleton.mp hw, Labeled.stored_stored]

/-- The length is not among the elements. -/
theorem write_length (he : Elements fields vs) (v : Labeled) :
    Elements (fields.write (.name "length") v) vs where
  index i := (find?_write_ne Key.noConfusion v fields).trans (he.index i)
  name name hname :=
    (find?_write_ne (fun hkey => hname (Key.name.inj hkey)) v fields).trans (he.name name hname)
  stored := he.stored

end Elements

end Fields

/-- The number of elements as a value. -/
def Labeled.whole (n : Nat) : Labeled := .bare (.number (Number.ofIndex n))

namespace Heap

/-- The object is a list of the elements. -/
structure IsList (h : Heap) (listProto id : ObjectId) (vs : List Labeled) : Prop where
  lt : id < h.size
  proto : h.proto id = some listProto
  length : (h.fields id).find? (.name "length") = some (.whole vs.length)
  elements : (h.fields id).Elements vs

variable {h h' : Heap} {global listProto id : ObjectId} {vs : List Labeled} {key : Key} {v : Labeled}

namespace IsList

/-- To be a list depends on one object only. -/
theorem of_get (hl : h.IsList listProto id vs) (hlt : id < h'.size) (hget : h'.get id = h.get id) :
    h'.IsList listProto id vs where
  lt := hlt
  proto := by rw [Heap.proto, hget]; exact hl.proto
  length := by rw [Heap.fields, hget]; exact hl.length
  elements := by rw [Heap.fields, hget]; exact hl.elements

/-- The length of a list is its number of elements. -/
theorem getField_length (hl : h.IsList listProto id vs) (hc : h.Chained) :
    h.getField id (.name "length") = .whole vs.length :=
  hc.getField_own (by decide) hl.length

/-- A list has the methods of its prototype. -/
theorem getField_name (hl : h.IsList listProto id vs) (hc : h.Chained) {name : String} (hname : name ≠ "length")
    (hproto : name ≠ "proto") : h.getField id (.name name) = h.getField listProto (.name name) :=
  hc.getField_link (fun hkey => hproto (Key.name.inj hkey))
    (Fields.find?_eq_none.mp (hl.elements.name name hname)) hl.proto

/-- A list is no scope. -/
theorem ne_scope (hl : h.IsList listProto id vs) {x : ObjectId} {kind : ObjectKind} {fields : Fields}
    {link : Option ObjectId} (hget : h.get x = ⟨kind, (.name "this", v) :: fields, link⟩) : id ≠ x := by
  rintro rfl
  have hthis := hl.elements.name "this" (by decide)
  rw [Heap.fields, hget] at hthis
  cases hthis

/-- **What a list holds is read from it.** -/
theorem getField_index (hl : h.IsList listProto id vs) (hw : h.WellFormed) (hs : h.Stocked global listProto)
    (i : Nat) : h.getField id (.index i) = vs.getD i .null := by
  have hfind := hl.elements.index i
  have houter : (h.fields id).find? (.index i) = none → h.getField id (.index i) = .null := fun hnone => by
    rw [hw.chained.getField_link (Key.index_ne_proto i) (Fields.find?_eq_none.mp hnone) hl.proto]
    exact hw.getField_eq_null (Key.index_ne_proto i) (hs.index_free i)
  rw [List.getD_eq_getElem?_getD]
  cases hv : vs[i]? with
  | none =>
    rw [hv] at hfind
    exact houter hfind
  | some v =>
    rw [hv, Option.bind_some] at hfind
    have hstored := hl.elements.stored v (List.mem_of_getElem? hv)
    by_cases hnull : v.value = .null
    · rw [Labeled.stored_of_null hnull] at hstored
      exact (houter (hfind.trans (Labeled.field?_of_null hnull))).trans hstored
    · exact hw.chained.getField_own (Key.index_ne_proto i) (hfind.trans (Labeled.field?_of_ne_null hnull))

end IsList

/-! ### One more element

What it is to add an element: one more index, and the length. -/

/-- A value has been put behind the last of `n` elements. -/
def appended (h : Heap) (id : ObjectId) (n : Nat) (v : Labeled) : Heap :=
  (h.writeOwn id (.index n) v).writeOwn id (.name "length") (.whole (n + 1))

@[simp] theorem size_appended (h : Heap) (id : ObjectId) (n : Nat) (v : Labeled) :
    (h.appended id n v).size = h.size := by simp [appended]

theorem get_appended_ne {x : ObjectId} (hx : x ≠ id) (n : Nat) (v : Labeled) :
    (h.appended id n v).get x = h.get x := by
  rw [appended, get_writeOwn_ne hx, get_writeOwn_ne hx]

/-- **Appending** makes a list of one element more. -/
theorem IsList.appended (hl : h.IsList listProto id vs) (v : Labeled) :
    (h.appended id vs.length v).IsList listProto id (vs ++ [v.stored]) := by
  have hlt : id < (h.writeOwn id (.index vs.length) v).size := (size_writeOwn ..).symm ▸ hl.lt
  have hget := get_writeOwn_self hlt (.name "length") (.whole (vs.length + 1))
  rw [get_writeOwn_self hl.lt] at hget
  refine ⟨by rw [size_appended]; exact hl.lt, ?_, ?_, ?_⟩
  · rw [Heap.proto, Heap.appended, hget]
    exact hl.proto
  · rw [Heap.fields, Heap.appended, hget, List.length_append]
    exact Fields.find?_put_self ..
  · rw [Heap.fields, Heap.appended, hget]
    have helements := (hl.elements.append v).write_length (.whole (vs.length + 1))
    exact helements

end Heap

/-! ### A new list

The fields that a new list gets from its elements. -/

/-- Positional arguments under their positions, counted from `n`. -/
def Entries.indexed : Nat → List Labeled → Entries
  | _, [] => []
  | n, v :: vs => (.index n, v) :: indexed (n + 1) vs

theorem Entries.length_indexed : ∀ (n : Nat) (vs : List Labeled), (indexed n vs).length = vs.length
  | _, [] => rfl
  | n, _ :: vs => congrArg (· + 1) (length_indexed (n + 1) vs)

theorem Entries.proto_not_mem_indexed : ∀ (n : Nat) (vs : List Labeled), Key.proto ∉ Fields.keys (indexed n vs)
  | _, [] => List.not_mem_nil
  | n, _ :: vs => fun hmem =>
      (List.mem_cons.mp hmem).elim Key.noConfusion (proto_not_mem_indexed (n + 1) vs)

/-- The fields of a new list. -/
def Fields.ofElements (vs : List Labeled) : Fields :=
  (Entries.fields (.indexed 0 vs)).write (.name "length") (.whole vs.length)

/-- Writing values under the indices that come next appends them, by induction on the values. -/
theorem Fields.Elements.ofIndexed : ∀ (vs : List Labeled) {ws : List Labeled} {fields : Fields},
    fields.Elements ws → Fields.Elements
      ((Entries.indexed ws.length vs).foldl (fun fields e => fields.write e.1 e.2) fields)
      (ws ++ vs.map Labeled.stored)
  | [], _, _, he => by rwa [List.map_nil, List.append_nil]
  | v :: vs, ws, fields, he => by
      have hrest := Fields.Elements.ofIndexed vs (he.append v)
      rw [List.length_append, List.length_singleton, List.append_assoc] at hrest
      exact hrest

/-- **A new list** holds what was passed, as far as it is not null. -/
theorem Heap.isList_ofElements (h : Heap) (listProto : ObjectId) (vs : List Labeled) :
    (h.alloc ⟨.plain, Fields.ofElements vs, some listProto⟩).2.IsList listProto h.size
      (vs.map Labeled.stored) := by
  refine ⟨by simp, ?_, ?_, ?_⟩
  · rw [Heap.proto, Heap.get_alloc_self]
  · rw [Heap.fields, Heap.get_alloc_self, List.length_map]
    exact Fields.find?_put_self ..
  · have helements := (Fields.Elements.ofIndexed vs .nil).write_length (.whole vs.length)
    rw [Heap.fields, Heap.get_alloc_self]
    exact helements

/-! ### The builtin functions

What the functions of lists do to a machine, with the elements before and behind. -/

namespace Machine

variable {m m₁ : Machine} {global listProto id f home : ObjectId} {vs : List Labeled} {v callee : Labeled}
  {args : CallArguments} {entries : Entries}

/-- What the builtin `list` does to the machine. -/
theorem newList_eq (hentries : entries.positionals = .indexed 0 vs)
    (hproto : m.heap.getField global (.name "listProto") = .bare (.object listProto)) :
    Builtin.newList global entries m = (.ok (.bare (.object m.heap.size)),
      m.withHeap (m.heap.alloc ⟨.plain, Fields.ofElements vs, some listProto⟩).2) := by
  obtain ⟨heap, gl, steps, depth⟩ := m
  have hread : Eval.ask (fun h => h.getField global (.name "listProto")) ⟨heap, gl, steps, depth⟩ =
      (.ok (.bare (.object listProto)), ⟨heap, gl, steps, depth⟩) := congrArg (fun v => (Except.ok v, _)) hproto
  have hindexed := setAll_alloc heap gl steps depth (.indexed 0 vs) { proto := some listProto }
    (Entries.proto_not_mem_indexed 0 vs)
  have hlength := setAll_alloc heap gl steps depth [(.name "length", .whole vs.length)]
    ⟨.plain, Entries.fields (.indexed 0 vs), some listProto⟩ (by simp [Fields.keys, Key.proto])
  rw [Builtin.newList, hentries, Entries.length_indexed, Eval.bind_of_ok hread]
  refine Eval.bind_eq_ok.mpr ⟨heap.size, _, rfl, ?_⟩
  exact Eval.bind_eq_ok.mpr ⟨(), _, hindexed, Eval.bind_eq_ok.mpr ⟨(), _, hlength, rfl⟩⟩

/-- **`list(...)` makes a list** of the arguments. -/
theorem Invokes.list (hcallee : callee.value = .object f)
    (hkind : (m.heap.get f).kind = .builtin .list global) (hargs : m.entered.Materializes args entries m₁)
    (hentries : entries.positionals = .indexed 0 vs)
    (hproto : m₁.heap.getField global (.name "listProto") = .bare (.object listProto)) :
    m.Invokes callee args (.bare (.object m₁.heap.size))
      (m₁.withHeap (m₁.heap.alloc ⟨.plain, Fields.ofElements vs, some listProto⟩).2).left :=
  .builtin hcallee hkind rfl hargs rfl (.of_eq fun _ _ => newList_eq hentries hproto)

/-- What the builtin `add` does to the machine, if the length of the list is exact. -/
theorem appendTo_eq (hself : entries.self.value = .object id) (hl : m.heap.IsList listProto id vs)
    (hc : m.heap.Chained) (hlt : vs.length < 2 ^ 53) :
    Builtin.appendTo entries m =
      (.ok (entries.positional 0), m.withHeap (m.heap.appended id vs.length (entries.positional 0))) := by
  obtain ⟨heap, gl, steps, depth⟩ := m
  have hread : Eval.ask (fun h => h.getField id (.name "length")) ⟨heap, gl, steps, depth⟩ =
      (.ok (.whole vs.length), ⟨heap, gl, steps, depth⟩) :=
    congrArg (fun v => (Except.ok v, _)) (hl.getField_length hc)
  have hindex : Number.toIndex (Number.ofIndex vs.length) = vs.length := Number.toIndex_ofIndex hlt
  have hwrite : setAll id [(.index (Number.toIndex (Number.ofIndex vs.length)), entries.positional 0),
      (.name "length", .bare (.number (Number.ofIndex vs.length + 1)))] ⟨heap, gl, steps, depth⟩ =
      (.ok (), ⟨heap.appended id vs.length (entries.positional 0), gl, steps, depth⟩) := by
    rw [hindex, Number.ofIndex_add_one hlt]
    rfl
  simp only [Builtin.appendTo, hself]
  refine Eval.bind_eq_ok.mpr ⟨_, _, hread, ?_⟩
  refine Eval.bind_eq_ok.mpr ⟨Number.ofIndex vs.length, _, rfl, ?_⟩
  exact Eval.bind_eq_ok.mpr ⟨(), _, hwrite, rfl⟩

/-- **`add` appends to a list** and yields what it appended. -/
theorem Invokes.add (hcallee : callee.value = .object f)
    (hkind : (m.heap.get f).kind = .builtin .listAdd home) (hargs : m.entered.Materializes args entries m₁)
    (hself : entries.self.value = .object id) (hl : m₁.heap.IsList listProto id vs) (hc : m₁.heap.Chained)
    (hlt : vs.length < 2 ^ 53) :
    m.Invokes callee args (entries.positional 0)
      (m₁.withHeap (m₁.heap.appended id vs.length (entries.positional 0))).left := by
  refine .builtin hcallee hkind rfl hargs ?_ (.of_eq fun _ _ => appendTo_eq hself hl hc hlt)
  have hcheck : (Descriptor.primitive .object).check m₁.heap entries.self.value = .ok () := by
    rw [hself]
    rfl
  exact Eval.bind_eq_ok.mpr ⟨(), m₁, validateOne_eq_ok.mpr ⟨rfl, hcheck⟩, rfl⟩

/-- `get` with an index. -/
theorem Invokes.get (hcallee : callee.value = .object f) (hkind : (m.heap.get f).kind = .builtin .get home)
    {self : Labeled} (hself : self.value = .object id) {k : Nat} (hk : k < 2 ^ 53)
    (hargs : m.entered.Materializes args [(.name "self", self), (.index 0, .whole k)] m₁) :
    m.Invokes callee args (m₁.heap.getField id (.index k)) m₁.left := by
  have hkey : Builtin.expectKey (.whole k) "get" m₁ = (.ok (.index k), m₁) := by
    have hindex : (0 ≤ Number.ofIndex k && Number.isWhole (Number.ofIndex k)) = true := by
      rw [Bool.and_eq_true]
      exact ⟨decide_eq_true (Number.zero_le_ofIndex hk), Number.isWhole_ofIndex hk⟩
    show (if _ then _ else _ : Eval Key) m₁ = _
    rw [if_pos hindex, Number.toIndex_ofIndex hk]
    rfl
  refine .builtin hcallee hkind rfl hargs rfl (.of_eq fun limits fuel => ?_)
  refine Eval.bind_eq_ok.mpr ⟨_, _, hkey, ?_⟩
  have hread : m₁.heap.getValueField self.value (.index k) = .ok (m₁.heap.getField id (.index k)) := by
    rw [hself, Heap.getValueField]
  show Eval.read (fun h => h.getValueField self.value (.index k)) m₁ = _
  rw [Eval.read, hread]

end Machine

end Protean
