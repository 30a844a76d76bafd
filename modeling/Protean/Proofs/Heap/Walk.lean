import Mathlib.Data.List.Nodup
import Mathlib.Data.Finset.Card
import Mathlib.Data.Finset.Range
import Protean.Heap.Basic

/-!
# Proofs — Heap — walks along the prototypes

What the three ways of building a heap leave of the objects that are there (`get_alloc`,
`get_modify`), and where following the links to prototypes leads.

`Walk h id ids` says that following the links from `id` comes across `ids` and then ends.  A heap on
which every object has a walk has no circle of links.  A walk has no object twice, so it is no longer
than the heap, and `Heap.chain`, which gives up after as many objects as the heap has, is the whole
walk (`Walk.chain_eq`).

* `get_alloc`, `get_modify`: a new object is the last one, and an update changes one object.
* `Walk.unique`, `Walk.lt_size`: a walk is determined by where it starts, and stays on the heap.
* `Walk.nodup`, `Walk.length_le`: by uniqueness an object that came twice would be followed by the same walk both
  times, so a walk, which ends, has no object twice.
* `Walk.chain_eq`: the bounded search is the whole walk.
-/

namespace Protean.Heap

/-! ### Reading a changed heap

A heap is changed at one object or by one more object, and what is read elsewhere is the same. -/

/-- A new object adds one to the size. -/
@[simp] theorem size_alloc (h : Heap) (o : Object) : (h.alloc o).2.size = h.size + 1 := by
  simp [alloc, size]

/-- A new object is the one behind the last. -/
@[simp] theorem alloc_fst (h : Heap) (o : Object) : (h.alloc o).1 = h.size := rfl

/-- A new object is read at its place, and every other object as before. -/
theorem get_alloc (h : Heap) (o : Object) (id : ObjectId) :
    (h.alloc o).2.get id = if id = h.size then o else h.get id := by
  simp only [alloc, get, size, Array.getD_eq_getD_getElem?, Array.getElem?_push]
  split <;> rfl

@[simp] theorem size_modify (h : Heap) (id : ObjectId) (f : Object → Object) :
    (h.modify id f).size = h.size := by
  simp [modify, size]

/-- An update changes one object, if that is there. -/
theorem get_modify (h : Heap) (id other : ObjectId) (f : Object → Object) :
    (h.modify id f).get other =
      if id = other ∧ id < h.size then f (h.get other) else h.get other := by
  simp only [modify, get, size, Array.getD_eq_getD_getElem?, Array.getElem?_modify]
  grind

/-- Where there is no object, a plain one without fields and links is read. -/
theorem get_of_size_le {h : Heap} {id : ObjectId} (hid : h.size ≤ id) : h.get id = {} := by
  have hnone : h.objects[id]? = none := Array.getElem?_eq_none hid
  rw [get, Array.getD_eq_getD_getElem?, hnone, Option.getD_none]

/-- An object that is there is read from the array, without the default. -/
theorem get_eq_getElem {h : Heap} {id : ObjectId} (hid : id < h.objects.size) :
    h.get id = h.objects[id] := by
  rw [get, Array.getD_eq_getD_getElem?, Array.getElem?_eq_getElem hid, Option.getD_some]

/-! ### Walks

On a heap without circles every walk along the prototypes ends, so one may argue along them by induction. -/

/-- Following the links from `id` comes across `ids`, the last of which has no prototype. -/
inductive Walk (h : Heap) : ObjectId → List ObjectId → Prop where
  | root {id : ObjectId} (hp : h.proto id = none) : Walk h id [id]
  | link {id next : ObjectId} {ids : List ObjectId} (hp : h.proto id = some next)
      (hw : Walk h next ids) : Walk h id (id :: ids)

namespace Walk

variable {h : Heap} {id : ObjectId} {ids : List ObjectId}

/-- From an object there is only one walk, since each object has at most one prototype. -/
theorem unique {ids' : List ObjectId} (hw : Walk h id ids) (hw' : Walk h id ids') :
    ids = ids' := by
  induction hw generalizing ids' with
  | root hp =>
    cases hw' with
    | root => rfl
    | link hp' _ => rw [hp] at hp'; cases hp'
  | link hp _ ih =>
    cases hw' with
    | root hp' => rw [hp] at hp'; cases hp'
    | link hp' hw' =>
      rw [hp] at hp'
      cases hp'
      rw [ih hw']

/-- From an object on a walk, the walk goes on to its end. -/
theorem of_mem {x : ObjectId} (hw : Walk h id ids) (hx : x ∈ ids) :
    ∃ rest, Walk h x rest ∧ rest.length ≤ ids.length := by
  induction hw with
  | root hp =>
    obtain rfl := List.mem_singleton.mp hx
    exact ⟨_, .root hp, le_rfl⟩
  | link hp hw ih =>
    rcases List.mem_cons.mp hx with rfl | hx
    · exact ⟨_, .link hp hw, le_rfl⟩
    · obtain ⟨rest, hrest, hle⟩ := ih hx
      exact ⟨rest, hrest, hle.trans (Nat.le_succ _)⟩

/-- No walk comes back to an object. -/
theorem nodup (hw : Walk h id ids) : ids.Nodup := by
  induction hw with
  | root => exact List.nodup_singleton _
  | @link id next ids hp hw ih =>
    refine List.nodup_cons.mpr ⟨fun hmem => ?_, ih⟩
    -- coming back to `id`, the walk from there would be shorter than itself
    obtain ⟨rest, hrest, hle⟩ := hw.of_mem hmem
    rw [hrest.unique (.link hp hw), List.length_cons] at hle
    omega

/-- A walk that starts on the heap stays there, if links lead to objects that are there. -/
theorem lt_size (hlt : ∀ id p, h.proto id = some p → p < h.size) (hid : id < h.size)
    (hw : Walk h id ids) : ∀ x ∈ ids, x < h.size := by
  induction hw with
  | root => intro x hx; rwa [List.mem_singleton.mp hx]
  | link hp _ ih =>
    intro x hx
    rcases List.mem_cons.mp hx with rfl | hx
    · exact hid
    · exact ih (hlt _ _ hp) x hx

/-- A walk is no longer than the heap: it has no object twice, and all of them are on the heap. -/
theorem length_le (hlt : ∀ id p, h.proto id = some p → p < h.size) (hid : id < h.size)
    (hw : Walk h id ids) : ids.length ≤ h.size := by
  rw [← List.toFinset_card_of_nodup hw.nodup, ← Finset.card_range h.size]
  refine Finset.card_le_card fun x hx => ?_
  exact Finset.mem_range.mpr (hw.lt_size hlt hid x (List.mem_toFinset.mp hx))

/-- With fuel for its length, the bounded search finds the whole walk. -/
theorem chainFrom_eq (hw : Walk h id ids) :
    ∀ {fuel : Nat}, ids.length ≤ fuel → h.chainFrom fuel id = ids := by
  induction hw with
  | root hp =>
    intro fuel hfuel
    obtain ⟨fuel, rfl⟩ : ∃ n, fuel = n + 1 := ⟨fuel - 1, by simp at hfuel; omega⟩
    simp [chainFrom, hp]
  | link hp _ ih =>
    intro fuel hfuel
    rw [List.length_cons] at hfuel
    obtain ⟨fuel, rfl⟩ : ∃ n, fuel = n + 1 := ⟨fuel - 1, by omega⟩
    simp [chainFrom, hp, ih (Nat.le_of_succ_le_succ hfuel)]

/-- **The chain is the whole walk.** -/
theorem chain_eq (hlt : ∀ id p, h.proto id = some p → p < h.size) (hid : id < h.size)
    (hw : Walk h id ids) : h.chain id = ids :=
  hw.chainFrom_eq (hw.length_le hlt hid)

/-- A walk that misses `x` stays a walk when only the link of `x` changes. -/
theorem relink {h' : Heap} {x : ObjectId} (hsame : ∀ y, y ≠ x → h'.proto y = h.proto y)
    (hw : Walk h id ids) (hx : x ∉ ids) : Walk h' id ids := by
  induction hw with
  | root hp =>
    have hne : _ ≠ x := fun he => hx (he ▸ List.mem_cons_self)
    exact .root ((hsame _ hne).trans hp)
  | link hp _ ih =>
    have hne : _ ≠ x := fun he => hx (he ▸ List.mem_cons_self)
    exact .link ((hsame _ hne).trans hp) (ih fun hmem => hx (List.mem_cons_of_mem _ hmem))

/-- If `x` has a walk after its link has changed, so has every object that had one before. -/
theorem exists_relink {h' : Heap} {x : ObjectId} (hsame : ∀ y, y ≠ x → h'.proto y = h.proto y)
    (hx : ∃ ids', Walk h' x ids') (hw : Walk h id ids) : ∃ ids', Walk h' id ids' := by
  induction hw with
  | @root id hp =>
    by_cases he : id = x
    · exact he ▸ hx
    · exact ⟨_, .root ((hsame id he).trans hp)⟩
  | @link id next ids hp _ ih =>
    by_cases he : id = x
    -- from `x` on the walk is another one
    · exact he ▸ hx
    · obtain ⟨ids', hids'⟩ := ih
      exact ⟨_, .link ((hsame id he).trans hp) hids'⟩

end Walk

end Protean.Heap
