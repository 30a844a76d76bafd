import Protean.Proofs.Heap.Lookup

/-!
# Proofs — Heap — visible keys

The keys that are visible on a value are those that can be read from it.  Reading stops at the first owner of
a key, while the keys are collected along the whole chain and then rid of repetitions; on a well-formed heap
the two agree (`WellFormed.mem_visibleKeys_iff`), and what is left are the *levels* of the chain, one for each
object on the walk, with those of its own keys that no nearer object owns (`Walk.levels`).

* `nodup_visibleKeys`: no key comes twice.
* `WellFormed.mem_visibleKeys_iff`: a key is visible exactly if something other than null is read under it.
* `WellFormed.proto_not_mem_visibleKeys`: the link is no field.
-/

namespace Protean

/-! ### Removing repetitions

The keys of a chain are listed without repetitions, the first one of each. -/

section
variable {α : Type} [DecidableEq α]

theorem nodup_eraseDups : ∀ l : List α, l.eraseDups.Nodup
  | [] => List.nodup_nil
  | a :: l => by
      rw [List.eraseDups_cons, List.nodup_cons]
      have hle := List.length_filter_le (fun b => !b == a) l
      exact ⟨by simp, nodup_eraseDups _⟩
termination_by l => l.length
decreasing_by exact Nat.lt_succ_of_le hle

/-- Dropping repetitions and dropping what fails a test commute, since equal elements pass the same tests. -/
theorem eraseDups_filter (p : α → Bool) : ∀ l : List α, (l.filter p).eraseDups = l.eraseDups.filter p
  | [] => rfl
  | a :: l => by
      have hle := List.length_filter_le (fun b => !b == a) l
      have ih := eraseDups_filter p (l.filter fun b => !b == a)
      rw [List.eraseDups_cons, List.filter_cons, List.filter_cons, ← ih]
      split
      · rw [List.eraseDups_cons, List.filter_comm]
      · rename_i ha
        -- dropping `a` from what satisfies `p` changes nothing
        rw [List.filter_filter]
        refine congrArg _ (List.filter_congr fun b _ => ?_)
        by_cases hb : b = a
        · simp [hb, ha]
        · simp [hb]
termination_by l => l.length
decreasing_by exact Nat.lt_succ_of_le hle

/-- Where there are no repetitions none are dropped. -/
theorem eraseDups_of_nodup {l : List α} (h : l.Nodup) : l.eraseDups = l := by
  induction l with
  | nil => rfl
  | cons a l ih =>
    obtain ⟨ha, hl⟩ := List.nodup_cons.mp h
    rw [List.eraseDups_cons, List.filter_eq_self.mpr, ih hl]
    intro b hb
    have hne : b ≠ a := fun he => ha (he ▸ hb)
    simp [hne]

end

namespace Heap

variable {h : Heap} {id : ObjectId} {key : Key}

/-! ### Reading and owning

A key of the chain is one that can be read, since no field holds null. -/

/-- A field can be read exactly if some object on the chain owns it. -/
theorem WellFormed.getField_ne_null_iff (hw : h.WellFormed) (hkey : key ≠ .proto) :
    (h.getField id key).value ≠ .null ↔ ∃ owner, h.Nearest key id owner := by
  constructor
  · intro hread
    by_contra hnone
    rw [hw.chained.getField_of_no_nearest hkey fun owner hn => hnone ⟨owner, hn⟩] at hread
    exact hread rfl
  · rintro ⟨owner, hn⟩ hnull
    obtain ⟨v, hv⟩ := Fields.exists_find? hn.owns
    rw [hw.chained.getField_of_nearest hkey hn hv] at hnull
    have hstored := (hw.sound owner).not_null key v (Fields.mem_of_find? hv)
    rw [Value.isNull_iff.mpr hnull] at hstored
    cases hstored

/-! ### Levels

How far up the chain the nearest owner of a key is. -/

/-- An object with those of its own keys, in the order of its fields, that are read from it when one starts
at `id`. -/
structure Level (h : Heap) (id : ObjectId) (level : ObjectId × List Key) : Prop where
  sublist : level.2.Sublist (h.fields level.1).keys
  mem_iff : ∀ key, key ∈ level.2 ↔ h.Nearest key id level.1

/-- The first level has all keys of the object. -/
theorem Level.first (h : Heap) (id : ObjectId) : h.Level id (id, (h.fields id).keys) :=
  ⟨.refl _, fun _ => ⟨.here, Nearest.owns⟩⟩

/-- Seen from one object further down, a level loses the keys of that object. -/
theorem Level.below {next : ObjectId} {level : ObjectId × List Key} (hl : h.Level next level)
    (hp : h.proto id = some next) (hne : level.1 ≠ id) :
    h.Level id (level.1, level.2.filter fun key => !(h.fields id).keys.elem key) := by
  obtain ⟨o, keys⟩ := level
  refine ⟨(List.filter_sublist).trans hl.sublist, fun key => ?_⟩
  change key ∈ keys.filter _ ↔ h.Nearest key id o
  rw [List.mem_filter, hl.mem_iff, Bool.not_eq_true', ← Bool.not_eq_true, List.elem_iff]
  constructor
  · rintro ⟨hn, hown⟩
    exact .above hown hp hn
  · intro hn
    cases hn with
    | here _ => exact absurd rfl hne
    | above hown hp' hn =>
      rw [hp] at hp'
      cases hp'
      exact ⟨hn, hown⟩

/-- **What is left of the keys of a walk.** -/
theorem Walk.levels {ids : List ObjectId} (hnodup : ∀ o, (h.fields o).keys.Nodup) (hwalk : h.Walk id ids) :
    ∃ levels : List (ObjectId × List Key), levels.map Prod.fst = ids ∧
      (ids.flatMap fun o => (h.fields o).keys).eraseDups = levels.flatMap Prod.snd ∧
      ∀ level ∈ levels, h.Level id level := by
  induction hwalk with
  | @root id hp =>
    refine ⟨[(id, (h.fields id).keys)], rfl, ?_, by simpa using Level.first h id⟩
    rw [List.flatMap_singleton, List.flatMap_singleton, eraseDups_of_nodup (hnodup id)]
  | @link id next ids hp hrest ih =>
    obtain ⟨levels, hfst, hkeys, hlevels⟩ := ih
    have hnew : id ∉ ids := (List.nodup_cons.mp (Walk.link hp hrest).nodup).1
    refine ⟨(id, (h.fields id).keys) ::
      levels.map fun level => (level.1, level.2.filter fun key => !(h.fields id).keys.elem key), ?_, ?_, ?_⟩
    · rw [List.map_cons, List.map_map]
      exact congrArg (id :: ·) hfst
    · rw [List.flatMap_cons, List.eraseDups_append, eraseDups_of_nodup (hnodup id), List.removeAll,
        eraseDups_filter, hkeys, List.flatMap_cons, List.filter_flatMap, List.flatMap_map]
    · intro level hmem
      rcases List.mem_cons.mp hmem with rfl | hmem
      · exact Level.first h id
      · obtain ⟨above, habove, rfl⟩ := List.mem_map.mp hmem
        refine (hlevels above habove).below hp fun he => hnew ?_
        rw [← hfst, ← he]
        exact List.mem_map_of_mem habove

/-! ### Visible keys

The list of all keys that can be read, sorted by their levels. -/

theorem visibleKeys_eq_nil {v : Value} (hv : base v = none) : h.visibleKeys v = [] := by
  rw [visibleKeys, hv]

/-- The visible keys are the own keys along the chain, each at its first place. -/
theorem visibleKeys_of_base {v : Value} (hv : base v = some id) :
    h.visibleKeys v = ((h.chain id).flatMap fun o => (h.fields o).keys).eraseDups := by
  rw [visibleKeys, hv]

theorem nodup_visibleKeys (h : Heap) (v : Value) : (h.visibleKeys v).Nodup := by
  cases hv : base v with
  | none => rw [visibleKeys_eq_nil hv]; exact List.nodup_nil
  | some id => rw [visibleKeys_of_base hv]; exact nodup_eraseDups _

namespace WellFormed

/-- The visible keys, level by level along the whole chain. -/
theorem visibleKeys_levels (hw : h.WellFormed) {v : Value} (hv : base v = some id) :
    ∃ levels : List (ObjectId × List Key), h.Walk id (levels.map Prod.fst) ∧
      h.visibleKeys v = levels.flatMap Prod.snd ∧ ∀ level ∈ levels, h.Level id level := by
  obtain ⟨levels, hfst, hkeys, hlevels⟩ := (hw.chained id).levels fun o => (hw.sound o).nodup
  refine ⟨levels, ?_, (visibleKeys_of_base hv).trans hkeys, hlevels⟩
  rw [hfst]
  exact hw.chained id

/-- A key is visible exactly if some object of the chain owns it. -/
theorem mem_visibleKeys_iff_nearest (hw : h.WellFormed) {v : Value} (hv : base v = some id) :
    key ∈ h.visibleKeys v ↔ ∃ owner, h.Nearest key id owner := by
  obtain ⟨levels, hwalk, hkeys, hlevels⟩ := hw.visibleKeys_levels hv
  rw [hkeys, List.mem_flatMap]
  constructor
  · rintro ⟨level, hmem, hkey⟩
    exact ⟨level.1, ((hlevels level hmem).mem_iff key).mp hkey⟩
  · rintro ⟨owner, hn⟩
    have howner := hn.mem_chain hw.chained
    rw [(hw.chained id).unique hwalk] at howner
    obtain ⟨level, hmem, rfl⟩ := List.mem_map.mp howner
    exact ⟨level, hmem, ((hlevels level hmem).mem_iff key).mpr hn⟩

/-- The link to the prototype is not among the visible keys. -/
theorem proto_not_mem_visibleKeys (hw : h.WellFormed) (v : Value) : .proto ∉ h.visibleKeys v := by
  cases hv : base v with
  | none => rw [visibleKeys_eq_nil hv]; exact List.not_mem_nil
  | some id =>
    rw [hw.mem_visibleKeys_iff_nearest hv]
    rintro ⟨owner, hn⟩
    exact (hw.sound owner).proto_not_mem hn.owns

/-- **The visible keys are those that can be read.** -/
theorem mem_visibleKeys_iff (hw : h.WellFormed) (hkey : key ≠ .proto) (v : Value) :
    key ∈ h.visibleKeys v ↔ ∃ w, h.getValueField v key = .ok w ∧ w.value ≠ .null := by
  have hobject : ∀ id, base v = some id → h.getValueField v key = .ok (h.getField id key) →
      (key ∈ h.visibleKeys v ↔ ∃ w, h.getValueField v key = .ok w ∧ w.value ≠ .null) := by
    intro id hv hread
    rw [hw.mem_visibleKeys_iff_nearest hv, ← hw.getField_ne_null_iff hkey, hread]
    exact ⟨fun hne => ⟨_, rfl, hne⟩, fun ⟨w, hw, hne⟩ => by cases hw; exact hne⟩
  cases v with
  | null => exact iff_of_false List.not_mem_nil nofun
  | object id => exact hobject id rfl rfl
  | number _ => exact hobject numberProto rfl (by simp [getValueField, primitiveProto, hkey])
  | string _ => exact hobject stringProto rfl (by simp [getValueField, primitiveProto, hkey])
  | boolean _ => exact hobject booleanProto rfl (by simp [getValueField, primitiveProto, hkey])

end WellFormed

end Heap

end Protean
