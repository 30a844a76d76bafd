import Protean.Proofs.Heap.WellFormed

/-!
# Proofs — Heap — reading after writing

A field is read from the nearest object on the chain that owns its key, and is written there as well.
`Nearest h key id owner` says which object that is by following the links one at a time, with no bound on
their number; on a well-formed heap `Heap.owner?` finds it (`owner?_eq_some_iff`) and `Heap.getField` reads
it (`getField_of_nearest`).

A write changes the own fields of one object, its *target*, and no link.  So the chains stay what they were,
and what is read changes only where a chain passes the target under the key that was written
(`writes_are_read_back`).

The lemmas come in three groups:

* fields: what is found after `put`, `erase` and `write` (`find?_put_self`, …, `find?_write_ne`);
* reading: `Chained.getField_own`, `Chained.getField_root` and `Chained.getField_link` say what the first object of a
  chain contributes, and `Chained.getField_of_nearest` what the whole chain does;
* writing: `Chained.getField_writeOwn_nearest` and `Chained.getField_writeOwn_elsewhere` separate the readers that see
  what has been written from those that do not.
-/

namespace Protean

theorem Value.isNull_iff {v : Value} : v.isNull = true ↔ v = .null := by
  cases v with
  | null => exact iff_of_true rfl rfl
  | number _ | string _ | boolean _ | object _ => exact ⟨nofun, nofun⟩

/-! ### Fields

Lists of fields: what is found after a write, and in which order fields stand. -/

namespace Fields

variable {key k : Key} {v : Labeled} {fields : Fields}

/-- Nothing is found under a key exactly if the key is not there. -/
theorem find?_eq_none : find? key fields = none ↔ key ∉ fields.keys := by
  induction fields with
  | nil => simp [find?, keys]
  | cons field rest ih =>
    rw [find?, keys_cons]
    split
    · rename_i he
      simp [he]
    · rename_i he
      rw [ih, List.mem_cons, not_or]
      exact ⟨fun hrest => ⟨Ne.symm he, hrest⟩, And.right⟩

/-- Something is found under a key that is there. -/
theorem exists_find? (h : key ∈ fields.keys) : ∃ w, find? key fields = some w :=
  Option.ne_none_iff_exists'.mp fun hnone => find?_eq_none.mp hnone h

/-- A field is found under its key if no key comes twice. -/
theorem find?_of_mem (hnodup : fields.keys.Nodup) (h : (key, v) ∈ fields) :
    find? key fields = some v := by
  induction fields with
  | nil => cases h
  | cons field rest ih =>
    obtain ⟨hnot, hrest⟩ := List.nodup_cons.mp hnodup
    rcases List.mem_cons.mp h with rfl | hmem
    · rw [find?, if_pos rfl]
    · have hne : field.1 ≠ key := fun he => hnot (he ▸ List.mem_map_of_mem hmem)
      rw [find?, if_neg hne, ih hrest hmem]

theorem find?_put_self (key : Key) (v : Labeled) (fields : Fields) :
    find? key (put key v fields) = some v := by
  induction fields with
  | nil => simp [put, find?]
  | cons field rest ih =>
    rw [put]
    split
    · rename_i he
      simp [find?, he]
    · rename_i he
      rw [find?, if_neg he, ih]

theorem find?_put_ne (hne : k ≠ key) (v : Labeled) (fields : Fields) :
    find? k (put key v fields) = find? k fields := by
  induction fields with
  | nil => simp [put, find?, hne.symm]
  | cons field rest ih =>
    rw [put]
    split
    · rename_i he
      rw [find?, find?, if_neg (he ▸ hne.symm), if_neg (he ▸ hne.symm)]
    · rw [find?, find?, ih]

/-- What has been erased is not found, if no key came twice. -/
theorem find?_erase_self (hnodup : fields.keys.Nodup) : find? key (erase key fields) = none := by
  induction fields with
  | nil => rfl
  | cons field rest ih =>
    obtain ⟨hnot, hrest⟩ := List.nodup_cons.mp hnodup
    rw [erase]
    split
    · rename_i he
      exact find?_eq_none.mpr (he ▸ hnot)
    · rename_i he
      rw [find?, if_neg he, ih hrest]

theorem find?_erase_ne (hne : k ≠ key) (fields : Fields) :
    find? k (erase key fields) = find? k fields := by
  induction fields with
  | nil => rfl
  | cons field rest ih =>
    rw [erase]
    split
    · rename_i he
      rw [find?, if_neg (he ▸ hne.symm)]
    · rw [find?, find?, ih]

theorem write_null (hv : v.value = .null) (key : Key) (fields : Fields) :
    write key v fields = erase key fields := if_pos (Value.isNull_iff.mpr hv)

theorem write_of_ne_null (hv : v.value ≠ .null) (key : Key) (fields : Fields) :
    write key v fields = put key v fields := if_neg fun hnull => hv (Value.isNull_iff.mp hnull)

theorem find?_write_ne (hne : k ≠ key) (v : Labeled) (fields : Fields) :
    find? k (write key v fields) = find? k fields := by
  rw [write]
  split
  · exact find?_erase_ne hne fields
  · exact find?_put_ne hne v fields

/-- A new key goes last. -/
theorem put_of_not_mem (h : key ∉ fields.keys) (v : Labeled) :
    put key v fields = fields ++ [(key, v)] := by
  induction fields with
  | nil => rfl
  | cons field rest ih =>
    rw [keys_cons, List.mem_cons, not_or] at h
    rw [put, if_neg (Ne.symm h.1), ih h.2, List.cons_append]

/-- An overwritten key keeps its place. -/
theorem put_of_mem (h : key ∈ fields.keys) (v : Labeled) : ∃ before old after,
    fields = before ++ (key, old) :: after ∧ put key v fields = before ++ (key, v) :: after := by
  induction fields with
  | nil => cases h
  | cons field rest ih =>
    obtain ⟨other, old⟩ := field
    rw [put]
    split
    · rename_i he
      exact ⟨[], old, rest, by rw [he]; rfl, by rw [he]; rfl⟩
    · rename_i he
      obtain ⟨before, w, after, hrest, hput⟩ := ih ((List.mem_cons.mp h).resolve_left (Ne.symm he))
      exact ⟨(other, old) :: before, w, after, congrArg _ hrest, congrArg _ hput⟩

/-- A removal keeps the others in order. -/
theorem erase_eq_filter (hnodup : fields.keys.Nodup) :
    erase key fields = fields.filter fun field => field.1 ≠ key := by
  induction fields with
  | nil => rfl
  | cons field rest ih =>
    obtain ⟨hnot, hrest⟩ := List.nodup_cons.mp hnodup
    rw [erase, List.filter_cons]
    split
    · rename_i he
      rw [if_neg (by simp [he]), List.filter_eq_self.mpr]
      intro other hmem
      have hne : other.1 ≠ key := fun heq => hnot (he ▸ heq ▸ List.mem_map_of_mem hmem)
      simpa using hne
    · rename_i he
      rw [if_pos (by simpa using he), ih hrest]

/-- Erasing a key that is not there changes nothing. -/
theorem erase_of_not_mem (h : key ∉ fields.keys) : erase key fields = fields := by
  induction fields with
  | nil => rfl
  | cons field rest ih =>
    rw [keys_cons, List.mem_cons, not_or] at h
    rw [erase, if_neg (Ne.symm h.1), ih h.2]

end Fields

namespace Heap

/-! ### Chains

The chain of an object starts with it and goes on with the chain of its prototype. -/

/-- Following the links from `id`, `owner` is the first object that owns `key`. -/
inductive Nearest (h : Heap) (key : Key) : ObjectId → ObjectId → Prop where
  | here {id : ObjectId} (hown : key ∈ (h.fields id).keys) : Nearest h key id id
  | above {id next owner : ObjectId} (hown : key ∉ (h.fields id).keys) (hp : h.proto id = some next)
      (hn : Nearest h key next owner) : Nearest h key id owner

/-- Where a write of `key` on `id` goes: to the nearest owner, and to `id` if there is none. -/
def Target (h : Heap) (key : Key) (id target : ObjectId) : Prop :=
  h.Nearest key id target ∨ (∀ owner, ¬ h.Nearest key id owner) ∧ target = id

/-- The owner of `key` that comes next above `id`. -/
def NextOwner (h : Heap) (key : Key) (id owner : ObjectId) : Prop :=
  ∃ next, h.proto id = some next ∧ h.Nearest key next owner

/-- From every object the chain is the whole walk. -/
def Chained (h : Heap) : Prop := ∀ id, h.Walk id (h.chain id)

/-- No walk is longer than the heap. -/
theorem WellFormed.length_walk_le {h : Heap} {id : ObjectId} {ids : List ObjectId} (hw : h.WellFormed)
    (hwalk : h.Walk id ids) : ids.length ≤ h.size := by
  by_cases hid : id < h.size
  · exact hwalk.length_le (fun _ _ => hw.proto_lt) hid
  · -- where there is no object, the walk is over at once
    have hroot : h.proto id = none := by rw [proto, get_of_size_le (Nat.le_of_not_lt hid)]
    rw [hwalk.unique (.root hroot)]
    exact Nat.lt_of_le_of_lt (Nat.zero_le _) hw.builtins

/-- On a well-formed heap every object has a walk along its prototypes. -/
theorem WellFormed.chained {h : Heap} (hw : h.WellFormed) : h.Chained := by
  intro id
  obtain ⟨ids, hwalk⟩ := hw.grounded id
  rwa [chain, hwalk.chainFrom_eq (hw.length_walk_le hwalk)]

namespace Chained

variable {h : Heap} {id next owner : ObjectId} {key : Key}

/-- The chain of an object without a prototype is the object. -/
theorem chain_root (hc : h.Chained) (hp : h.proto id = none) : h.chain id = [id] :=
  (hc id).unique (.root hp)

/-- The chain of an object goes on with the chain of its prototype. -/
theorem chain_link (hc : h.Chained) (hp : h.proto id = some next) :
    h.chain id = id :: h.chain next := (hc id).unique (.link hp (hc next))

theorem chain_head (hc : h.Chained) (id : ObjectId) : ∃ rest, h.chain id = id :: rest := by
  cases hp : h.proto id with
  | none => exact ⟨[], hc.chain_root hp⟩
  | some next => exact ⟨_, hc.chain_link hp⟩

/-- What holds of an object as soon as it holds of its prototype holds of all. -/
theorem induction (hc : h.Chained) {P : ObjectId → Prop}
    (step : ∀ id, (∀ next, h.proto id = some next → P next) → P id) (id : ObjectId) : P id := by
  obtain ⟨ids, hwalk⟩ : ∃ ids, h.Walk id ids := ⟨_, hc id⟩
  induction hwalk with
  | root hp => exact step _ fun next hnext => by rw [hp] at hnext; cases hnext
  | link hp _ ih => exact step _ fun next hnext => by rw [hp] at hnext; cases hnext; exact ih

/-- No object stands above itself. -/
theorem not_mem_chain (hc : h.Chained) (hp : h.proto id = some next) : id ∉ h.chain next := by
  have hnodup := (hc id).nodup
  rw [hc.chain_link hp] at hnodup
  exact (List.nodup_cons.mp hnodup).1

/-! ### Reading

A field is read from the nearest owner of its key, or is null. -/

/-- A field of the object's own is read first. -/
theorem getField_own (hc : h.Chained) (hkey : key ≠ .proto) {v : Labeled}
    (hv : Fields.find? key (h.fields id) = some v) : h.getField id key = v := by
  obtain ⟨rest, hrest⟩ := hc.chain_head id
  rw [getField, if_neg hkey, hrest, lookup, List.findSome?_cons, hv, Option.getD_some]

/-- Where the chain ends, what is not there reads as null. -/
theorem getField_root (hc : h.Chained) (hkey : key ≠ .proto) (hown : key ∉ (h.fields id).keys)
    (hp : h.proto id = none) : h.getField id key = .null := by
  rw [getField, if_neg hkey, hc.chain_root hp, lookup, List.findSome?_cons,
    Fields.find?_eq_none.mpr hown, List.findSome?_nil, Option.getD_none]

/-- What the object does not own is read from its prototype. -/
theorem getField_link (hc : h.Chained) (hkey : key ≠ .proto) (hown : key ∉ (h.fields id).keys)
    (hp : h.proto id = some next) : h.getField id key = h.getField next key := by
  rw [getField, getField, if_neg hkey, if_neg hkey, hc.chain_link hp, lookup, List.findSome?_cons,
    Fields.find?_eq_none.mpr hown, lookup]

/-- **A field is read from its nearest owner**, by induction on the way there. -/
theorem getField_of_nearest (hc : h.Chained) (hkey : key ≠ .proto) (hn : h.Nearest key id owner)
    {v : Labeled} (hv : Fields.find? key (h.fields owner) = some v) : h.getField id key = v := by
  induction hn with
  | here _ => exact hc.getField_own hkey hv
  | above hown hp _ ih => exact (hc.getField_link hkey hown hp).trans (ih hv)

/-- Where no object of the chain owns the key, null is read. -/
theorem getField_of_no_nearest (hc : h.Chained) (hkey : key ≠ .proto)
    (hn : ∀ owner, ¬ h.Nearest key id owner) : h.getField id key = .null := by
  refine hc.induction (P := fun id => (∀ owner, ¬ h.Nearest key id owner) → h.getField id key = .null)
    (fun id ih hn => ?_) id hn
  have hown : key ∉ (h.fields id).keys := fun hmem => hn id (.here hmem)
  cases hp : h.proto id with
  | none => exact hc.getField_root hkey hown hp
  | some next =>
    exact (hc.getField_link hkey hown hp).trans
      (ih next hp fun owner hnext => hn owner (.above hown hp hnext))

end Chained

namespace Nearest

variable {h : Heap} {key : Key} {id owner owner' : ObjectId}

theorem owns (hn : h.Nearest key id owner) : key ∈ (h.fields owner).keys := by
  induction hn with
  | here hown => exact hown
  | above _ _ _ ih => exact ih

theorem unique (hn : h.Nearest key id owner) (hn' : h.Nearest key id owner') : owner = owner' := by
  induction hn with
  | here hown =>
    cases hn' with
    | here _ => rfl
    | above hnot _ _ => exact absurd hown hnot
  | above hnot hp _ ih =>
    cases hn' with
    | here hown => exact absurd hown hnot
    | above _ hp' hn' =>
      rw [hp] at hp'
      cases hp'
      exact ih hn'

theorem mem_chain (hc : h.Chained) (hn : h.Nearest key id owner) : owner ∈ h.chain id := by
  induction hn with
  | @here id _ =>
    obtain ⟨rest, hrest⟩ := hc.chain_head id
    rw [hrest]
    exact List.mem_cons_self
  | above _ hp _ ih => rw [hc.chain_link hp]; exact List.mem_cons_of_mem _ ih

end Nearest

/-- **The nearest owner is found.** -/
theorem Chained.owner?_eq_some_iff {h : Heap} {id owner : ObjectId} {key : Key} (hc : h.Chained) :
    h.owner? id key = some owner ↔ h.Nearest key id owner := by
  -- the chain is searched from the object on, so the induction is along its links
  refine hc.induction (P := fun id => h.owner? id key = some owner ↔ h.Nearest key id owner)
    (fun id ih => ?_) id
  by_cases hown : key ∈ (h.fields id).keys
  · obtain ⟨v, hv⟩ := Fields.exists_find? hown
    obtain ⟨rest, hrest⟩ := hc.chain_head id
    have hfound : h.owner? id key = some id := by
      rw [owner?, hrest, List.find?_cons, hv, Option.isSome_some]
    rw [hfound]
    exact ⟨fun he => by cases he; exact .here hown,
      fun hn => congrArg some (Nearest.unique (.here hown) hn)⟩
  · have hmiss := Fields.find?_eq_none.mpr hown
    cases hp : h.proto id with
    | none =>
      rw [owner?, hc.chain_root hp, List.find?_cons, hmiss, Option.isSome_none, List.find?_nil]
      refine ⟨nofun, fun hn => ?_⟩
      cases hn with
      | here hmem => exact absurd hmem hown
      | above _ hp' _ => rw [hp] at hp'; cases hp'
    | some next =>
      rw [owner?, hc.chain_link hp, List.find?_cons, hmiss, Option.isSome_none]
      refine (ih next hp).trans ⟨.above hown hp, fun hn => ?_⟩
      cases hn with
      | here hmem => exact absurd hmem hown
      | above _ hp' hn => rw [hp] at hp'; cases hp'; exact hn

/-! ### Writing

What a write to one object does to the chains and the owners of all others. -/

section
variable {h h' : Heap} {id o x : ObjectId} {key k : Key} {v : Labeled}

@[simp] theorem proto_writeOwn (h : Heap) (id : ObjectId) (key : Key) (v : Labeled) (x : ObjectId) :
    (h.writeOwn id key v).proto x = h.proto x := by
  rw [proto, writeOwn, get_modify, proto]
  split <;> rfl

@[simp] theorem kind_writeOwn (h : Heap) (id : ObjectId) (key : Key) (v : Labeled) (x : ObjectId) :
    ((h.writeOwn id key v).get x).kind = (h.get x).kind := by
  rw [writeOwn, get_modify]
  split <;> rfl

theorem get_writeOwn_ne (hx : x ≠ id) (key : Key) (v : Labeled) :
    (h.writeOwn id key v).get x = h.get x := by
  rw [writeOwn, get_modify, if_neg fun hc => hx hc.1.symm]

theorem fields_writeOwn_ne (hx : x ≠ id) (key : Key) (v : Labeled) :
    (h.writeOwn id key v).fields x = h.fields x := congrArg Object.fields (get_writeOwn_ne hx key v)

/-- The fields of the object itself are those that have been written. -/
theorem fields_writeOwn_self (hid : id < h.size) (key : Key) (v : Labeled) :
    (h.writeOwn id key v).fields id = (h.fields id).write key v := by
  rw [fields, writeOwn, get_modify, if_pos ⟨rfl, hid⟩, fields]

theorem chain_congr (hsize : h'.size = h.size) (hproto : ∀ y, h'.proto y = h.proto y) (x : ObjectId) :
    h'.chain x = h.chain x := by
  have hfrom : ∀ (fuel : Nat) (y : ObjectId), h'.chainFrom fuel y = h.chainFrom fuel y := by
    intro fuel
    induction fuel with
    | zero => exact fun _ => rfl
    | succ fuel ih =>
      intro y
      rw [chainFrom, chainFrom, hproto]
      split
      · rw [ih]
      · rfl
  rw [chain, chain, hsize, hfrom]

theorem chain_writeOwn (h : Heap) (id : ObjectId) (key : Key) (v : Labeled) (x : ObjectId) :
    (h.writeOwn id key v).chain x = h.chain x :=
  chain_congr (h.size_writeOwn id key v) (h.proto_writeOwn id key v) x

theorem Chained.writeOwn (hc : h.Chained) (id : ObjectId) (key : Key) (v : Labeled) :
    (h.writeOwn id key v).Chained := by
  refine fun x => hc.induction (P := fun x => (h.writeOwn id key v).Walk x _) (fun x ih => ?_) x
  rw [chain_writeOwn]
  cases hp : h.proto x with
  | none =>
    rw [hc.chain_root hp]
    exact .root ((h.proto_writeOwn id key v x).trans hp)
  | some next =>
    have hnext := ih next hp
    rw [chain_writeOwn] at hnext
    rw [hc.chain_link hp]
    exact .link ((h.proto_writeOwn id key v x).trans hp) hnext

/-- A search along the same objects finds the same, if each holds the same under the key. -/
theorem lookup_congr {ids : List ObjectId}
    (hids : ∀ y ∈ ids, Fields.find? k (h'.fields y) = Fields.find? k (h.fields y)) :
    h'.lookup k ids = h.lookup k ids := by
  induction ids with
  | nil => rfl
  | cons y ids ih =>
    obtain ⟨hy, hids⟩ := List.forall_mem_cons.mp hids
    rw [lookup, lookup, List.findSome?_cons, List.findSome?_cons, hy]
    split
    · rfl
    · exact ih hids

/-- A write is read only along chains with its object, and only under its key. -/
theorem getField_writeOwn_frame (hk : k ≠ key ∨ id ∉ h.chain x) (v : Labeled) :
    (h.writeOwn id key v).getField x k = h.getField x k := by
  have hfind : ∀ y ∈ h.chain x,
      Fields.find? k ((h.writeOwn id key v).fields y) = Fields.find? k (h.fields y) := by
    intro y hy
    by_cases hid : y = id ∧ id < h.size
    · obtain ⟨rfl, hlt⟩ := hid
      rw [fields_writeOwn_self hlt, Fields.find?_write_ne (hk.resolve_right fun hmem => hmem hy)]
    · rw [fields, Heap.writeOwn, get_modify, if_neg fun hc => hid ⟨hc.1.symm, hc.2⟩, fields]
  rw [getField, getField, protoValue, protoValue, proto_writeOwn, chain_writeOwn, lookup_congr hfind]

/-! ### The target of a write

The nearest owner of the key, or the object itself if there is none. -/

/-- The target of a write is the nearest owner, or else the object itself. -/
theorem Chained.target_owner? (hc : h.Chained) (id : ObjectId) (key : Key) :
    h.Target key id ((h.owner? id key).getD id) := by
  cases howner : h.owner? id key with
  | some owner => exact .inl (hc.owner?_eq_some_iff.mp howner)
  | none =>
    refine .inr ⟨fun owner hn => ?_, rfl⟩
    rw [hc.owner?_eq_some_iff.mpr hn] at howner
    cases howner

theorem WellFormed.target_lt (hw : h.WellFormed) (hid : id < h.size) (ht : h.Target key id o) :
    o < h.size := by
  obtain hn | ⟨-, rfl⟩ := ht
  · have hwalk := hw.chained id
    exact hwalk.lt_size (fun _ _ => hw.proto_lt) hid o (hn.mem_chain hw.chained)
  · exact hid

/-- After a value other than null has been written, its key is owned. -/
theorem owns_writeOwn (ho : o < h.size) (hv : v.value ≠ .null) :
    key ∈ ((h.writeOwn o key v).fields o).keys := by
  rw [fields_writeOwn_self ho, Fields.write_of_ne_null hv, Fields.keys_put]
  split
  · assumption
  · exact List.mem_append_right _ List.mem_cons_self

/-- What is stored in the target is what the object reads from then on. -/
theorem Target.nearest_writeOwn (ht : h.Target key id o) (ho : o < h.size)
    (hv : v.value ≠ .null) : (h.writeOwn o key v).Nearest key id o := by
  obtain hn | ⟨-, rfl⟩ := ht
  · induction hn with
    | here _ => exact .here (owns_writeOwn ho hv)
    | @above id next owner hown hp hn ih =>
      -- the object owns nothing under the key, so it is not the target
      have hne : id ≠ owner := fun he => hown (he ▸ hn.owns)
      refine .above ?_ ((proto_writeOwn ..).trans hp) (ih ho)
      rwa [fields_writeOwn_ne hne]
  · exact .here (owns_writeOwn ho hv)

/-- Readers for which the target is the nearest owner read what has been written. -/
theorem Chained.getField_writeOwn_nearest (hc : h.Chained) (hkey : key ≠ .proto) (ho : o < h.size)
    (hv : v.value ≠ .null) (hn : (h.writeOwn o key v).Nearest key x o) :
    (h.writeOwn o key v).getField x key = v := by
  refine (hc.writeOwn o key v).getField_of_nearest hkey hn ?_
  rw [fields_writeOwn_self ho, Fields.write_of_ne_null hv, Fields.find?_put_self]

/-- All other readers read what they have read before: on the way to their nearest owner, if they have one, they
do not come across the target, or come across it behind the owner. -/
theorem Chained.getField_writeOwn_elsewhere (hc : h.Chained) (hkey : key ≠ .proto) (ho : o < h.size)
    (hv : v.value ≠ .null) (hn : ¬ (h.writeOwn o key v).Nearest key x o) :
    (h.writeOwn o key v).getField x key = h.getField x key := by
  have hc' := hc.writeOwn o key v
  refine hc.induction (P := fun x => ¬ (h.writeOwn o key v).Nearest key x o →
    (h.writeOwn o key v).getField x key = h.getField x key) (fun x ih hn => ?_) x hn
  have hne : x ≠ o := by
    rintro rfl
    exact hn (.here (owns_writeOwn ho hv))
  have hfields := fields_writeOwn_ne (h := h) hne key v
  by_cases hown : key ∈ (h.fields x).keys
  · obtain ⟨w, hw⟩ := Fields.exists_find? hown
    rw [hc.getField_own hkey hw, hc'.getField_own hkey (hfields ▸ hw)]
  · have hown' : key ∉ ((h.writeOwn o key v).fields x).keys := hfields ▸ hown
    have hproto := h.proto_writeOwn o key v x
    cases hp : h.proto x with
    | none => rw [hc.getField_root hkey hown hp, hc'.getField_root hkey hown' (hproto.trans hp)]
    | some next =>
      rw [hc.getField_link hkey hown hp, hc'.getField_link hkey hown' (hproto.trans hp)]
      exact ih next hp fun hnext => hn (.above hown' (hproto.trans hp) hnext)

/-- Removing a field leaves its owner to read on from its prototype. -/
theorem Chained.getField_removed (hc : h.Chained) (hkey : key ≠ .proto) (ho : o < h.size)
    (hnodup : (h.fields o).keys.Nodup) (hv : v.value = .null) (hn : h.Nearest key id o) :
    (∀ p, h.proto o = some p → (h.writeOwn o key v).getField id key = h.getField p key) ∧
      (h.proto o = none → (h.writeOwn o key v).getField id key = .null) := by
  have hc' := hc.writeOwn o key v
  induction hn with
  | @here o hown =>
    have hgone : key ∉ ((h.writeOwn o key v).fields o).keys := by
      rw [fields_writeOwn_self ho, ← Fields.find?_eq_none, Fields.write_null hv,
        Fields.find?_erase_self hnodup]
    have hproto := h.proto_writeOwn o key v o
    refine ⟨fun p hp => ?_, fun hp => hc'.getField_root hkey hgone (hproto.trans hp)⟩
    rw [hc'.getField_link hkey hgone (hproto.trans hp)]
    exact getField_writeOwn_frame (.inr (hc.not_mem_chain hp)) v
  | @above id next owner hown hp hn ih =>
    have hne : id ≠ owner := fun he => hown (he ▸ hn.owns)
    have hown' : key ∉ ((h.writeOwn owner key v).fields id).keys := by rwa [fields_writeOwn_ne hne]
    rw [hc'.getField_link hkey hown' ((h.proto_writeOwn owner key v id).trans hp)]
    exact ih ho hnodup hc'

/-- After a removal the object reads what the next owner above the target holds. -/
theorem WellFormed.getField_removed (hw : h.WellFormed) (hkey : key ≠ .proto) (hid : id < h.size)
    (hv : v.value = .null) (ht : h.Target key id o) :
    (∀ n w, h.NextOwner key o n → (key, w) ∈ h.fields n →
        (h.writeOwn o key v).getField id key = w) ∧
      ((∀ n, ¬ h.NextOwner key o n) → (h.writeOwn o key v).getField id key = .null) := by
  have hc := hw.chained
  have ho := hw.target_lt hid ht
  obtain hn | ⟨hnone, rfl⟩ := ht
  -- the owner loses the key, so the search goes on behind it, where the next owner is
  · obtain ⟨hlink, hroot⟩ := hc.getField_removed hkey ho (hw.sound o).nodup hv hn
    refine ⟨fun n w ⟨p, hp, hnext⟩ hmem => ?_, fun hno => ?_⟩
    · rw [hlink p hp]
      exact hc.getField_of_nearest hkey hnext (Fields.find?_of_mem (hw.sound n).nodup hmem)
    · cases hp : h.proto o with
      | none => exact hroot hp
      | some p =>
        rw [hlink p hp]
        exact hc.getField_of_no_nearest hkey fun n hnext => hno n ⟨p, hp, hnext⟩
  · -- nobody owns the key, so there is nothing to remove and nothing above
    have hown : key ∉ (h.fields o).keys := fun hmem => hnone o (.here hmem)
    have hgone : key ∉ ((h.writeOwn o key v).fields o).keys := by
      rw [fields_writeOwn_self ho, Fields.write_null hv, Fields.erase_of_not_mem hown]
      exact hown
    have hproto := h.proto_writeOwn o key v o
    have hnull : (h.writeOwn o key v).getField o key = .null := by
      have hc' := hc.writeOwn o key v
      cases hp : h.proto o with
      | none => exact hc'.getField_root hkey hgone (hproto.trans hp)
      | some p =>
        rw [hc'.getField_link hkey hgone (hproto.trans hp),
          getField_writeOwn_frame (.inr (hc.not_mem_chain hp)),
          hc.getField_of_no_nearest hkey fun n hnext => hnone n (.above hown hp hnext)]
    exact ⟨fun n w ⟨p, hp, hnext⟩ _ => absurd (.above hown hp hnext) (hnone n), fun _ => hnull⟩

end

/-- **What is written is read back.**  On a well-formed heap let `o` be the nearest object on the chain of `a`
that owns `key`, or `a` if none does.

* A value other than null is read by `a` and by every object whose nearest owner of `key` is `o` from then on,
  with its source; all other objects read under `key` what they read before.
* After null has been written, `a` reads what the next owner above `o` holds, and null if there is none.
* Every other key is read as before, and nothing but the own fields of `o` has changed.  Among these, an
  overwritten key has kept its place, a new one is the last, and the rest of a removed one is in order. -/
theorem writes_are_read_back {h : Heap} (hw : h.WellFormed) {a : ObjectId} (ha : a < h.size) {key : Key}
    (hkey : key ≠ .proto) :
    ∃ o, h.Target key a o ∧ ∀ v : Labeled, ∃ h', h.setField a key v = (.ok (), h') ∧
      (v.value ≠ .null → h'.Nearest key a o ∧ (∀ x, h'.Nearest key x o → h'.getField x key = v) ∧
        ∀ x, ¬ h'.Nearest key x o → h'.getField x key = h.getField x key) ∧
      (v.value = .null →
        (∀ n w, h.NextOwner key o n → (key, w) ∈ h.fields n → h'.getField a key = w) ∧
          ((∀ n, ¬ h.NextOwner key o n) → h'.getField a key = .null)) ∧
      (∀ x k, k ≠ key → h'.getField x k = h.getField x k) ∧
      h'.size = h.size ∧
      (∀ x, h'.proto x = h.proto x ∧ (h'.get x).kind = (h.get x).kind ∧
        (x ≠ o → h'.fields x = h.fields x)) ∧
      (v.value ≠ .null → key ∈ (h.fields o).keys → ∃ before old after,
        h.fields o = before ++ (key, old) :: after ∧ h'.fields o = before ++ (key, v) :: after) ∧
      (v.value ≠ .null → key ∉ (h.fields o).keys → h'.fields o = h.fields o ++ [(key, v)]) ∧
      (v.value = .null → h'.fields o = (h.fields o).filter fun field => field.1 ≠ key) := by
  -- the field is written to the nearest owner, or to the object itself if there is none
  have hc := hw.chained
  have ht := hc.target_owner? a key
  have ho := hw.target_lt ha ht
  generalize howner : (h.owner? a key).getD a = o at ht ho
  refine ⟨o, ht, fun v => ⟨h.writeOwn o key v, by rw [setField, if_neg hkey, howner], ?_⟩⟩
  have hfields := fields_writeOwn_self ho key v
  -- what follows are the readers of the new owner, the next owner after null, the frame and the order of the
  -- fields
  refine ⟨fun hv => ⟨ht.nearest_writeOwn ho hv, fun x => ?_, fun x => ?_⟩, fun hv => ?_,
    fun x k hk => ?_, h.size_writeOwn o key v, fun x => ⟨?_, ?_, fun hx => ?_⟩, fun hv hown => ?_,
    fun hv hown => ?_, fun hv => ?_⟩
  · exact hc.getField_writeOwn_nearest hkey ho hv
  · exact hc.getField_writeOwn_elsewhere hkey ho hv
  · exact hw.getField_removed hkey ha hv ht
  · exact getField_writeOwn_frame (.inl hk) v
  · exact h.proto_writeOwn o key v x
  · exact h.kind_writeOwn o key v x
  · exact fields_writeOwn_ne hx key v
  · rw [hfields, Fields.write_of_ne_null hv]
    exact Fields.put_of_mem hown v
  · rw [hfields, Fields.write_of_ne_null hv]
    exact Fields.put_of_not_mem hown v
  · rw [hfields, Fields.write_null hv]
    exact Fields.erase_eq_filter (hw.sound o).nodup

/-- Two objects with the same prototype, which has a field `x`. -/
def siblings : Heap :=
  let parent := (initial.allocPlain (some objectProto)).2
  let child := (parent.define 5 "x" (.bare (.string "old"))).allocPlain (some 5)
  (child.2.allocPlain (some 5)).2

theorem wellFormed_siblings : siblings.WellFormed := by
  have hchild : ∀ {h : Heap}, h.WellFormed → 5 < h.size → (h.allocPlain (some 5)).2.WellFormed :=
    fun hw hlt => (Change.allocPlain fun p hp => by cases hp; exact hlt).wellFormed hw
  have hparent := Change.allocObject.wellFormed wellFormed_initial
  exact hchild (hchild (hparent.writeOwn (by decide) trivial) (by decide)) (by decide)

/-- The theorem at a field that two objects share: written on one, it is read on the other; removed, it is read
nowhere. -/
theorem writes_are_read_back_siblings :
    let x := Key.name "x"
    let v := Labeled.bare (.string "new")
    siblings.WellFormed ∧ 6 < siblings.size ∧ x ≠ .proto ∧
      (siblings.setField 6 x v).2.getField 6 x = v ∧ (siblings.setField 6 x v).2.getField 7 x = v ∧
      (siblings.setField 6 x .null).2.getField 6 x = .null := by
  intro x v
  have hlt : 6 < siblings.size := by decide
  have hx : x ≠ .proto := by decide
  obtain ⟨o, ht, hwrite⟩ := writes_are_read_back wellFormed_siblings hlt hx
  have hparent : siblings.Nearest x 6 5 := .above (by decide) rfl (.here (by decide))
  -- the nearest owner is the prototype that both siblings share
  obtain rfl : o = 5 := ht.elim (·.unique hparent) fun hnone => absurd hparent (hnone.1 5)
  have hno : ∀ n, ¬ siblings.NextOwner x 5 n := by
    rintro n ⟨p, hp, hn⟩
    cases hp
    cases hn with
    | here hown => exact absurd hown (by decide)
    | above _ hp _ => cases hp
  obtain ⟨h', heq, hstored, -, -, -, hrest, -⟩ := hwrite v
  obtain ⟨hself, hread, -⟩ := hstored nofun
  obtain ⟨hproto, -, hfields⟩ := hrest 7
  -- the other sibling reads the new value through the same prototype
  have hsibling : h'.Nearest x 7 5 :=
    .above (by rw [hfields (by decide)]; decide) (hproto.trans rfl) (.here hself.owns)
  obtain ⟨h'', heq', -, hremoved, -⟩ := hwrite .null
  rw [heq, heq']
  exact ⟨wellFormed_siblings, hlt, hx, hread 6 hself, hread 7 hsibling, (hremoved rfl).2 hno⟩

end Heap

end Protean
