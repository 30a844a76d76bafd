import Mathlib.Logic.Relation
import Protean.Proofs.Heap.Lookup

/-!
# Proofs — Heap — writing the prototype

The link to the prototype can be set to null and to every object that the links do not lead back from.
`Heap.setProto` looks for the object on the chain of its new prototype before it writes the link.

The other way to do it is to write the link first, to follow the links from there, and to take the new one
back when they return to the object or do not end (`Heap.setProtoOnTrial`).  That walk goes over links of which
one has changed, and it gives up after a number of steps.  On a well-formed heap the two agree
(`setProtoOnTrial_eq`): up to the object itself the walk is the one from before, so it returns exactly when the
object was on the old chain, and no walk that ends is longer than the heap.

So a prototype is refused exactly when it must be, and a write that is refused leaves the heap as it was
(`proto_writes_are_exact`).

* `Chained.setProto_loop_iff`, `setProto_invalid_iff`: when a link is refused, and as what.
* `setProto_refused`, …, `setValueField_refused`: a refused write has done nothing, whichever way it is asked for.
* `setProtoOnTrial_eq`: looking first and trying first come to the same.
-/

namespace Protean

/-- A number, a string or a boolean. -/
def Value.IsPrimitive : Value → Prop
  | .number _ | .string _ | .boolean _ => True
  | .null | .object _ => False

/-- The object that a value is. -/
def Value.object? : Value → Option ObjectId
  | .object id => some id
  | .null | .number _ | .string _ | .boolean _ => none

namespace Heap

variable {h h' : Heap} {a p id : ObjectId} {key : Key}

/-- Heaps with the same objects are the same. -/
theorem ext_get (hsize : h.size = h'.size) (hget : ∀ id, h.get id = h'.get id) : h = h' := by
  obtain ⟨objects⟩ := h
  obtain ⟨objects'⟩ := h'
  refine congrArg Heap.mk (Array.ext hsize fun i hi hi' => ?_)
  have hi := hget i
  rwa [get_eq_getElem, get_eq_getElem] at hi

/-! ### Links

What is reached by prototype links from an object, as a relation and as a bounded walk. -/

/-- The object `a` is reached from `p` by following zero or more links to prototypes. -/
def LeadsTo (h : Heap) (p a : ObjectId) : Prop :=
  Relation.ReflTransGen (fun x y => h.proto x = some y) p a

/-- The objects on a chain are those that the links lead to. -/
theorem Chained.mem_chain_iff (hc : h.Chained) : a ∈ h.chain p ↔ h.LeadsTo p a := by
  constructor
  · refine hc.induction (P := fun p => a ∈ h.chain p → h.LeadsTo p a) (fun p ih hmem => ?_) p
    cases hp : h.proto p with
    | none =>
      rw [hc.chain_root hp, List.mem_singleton] at hmem
      exact hmem ▸ .refl
    | some next =>
      rw [hc.chain_link hp] at hmem
      rcases List.mem_cons.mp hmem with rfl | hmem
      · exact .refl
      · exact (ih next hp hmem).head hp
  · intro hlead
    induction hlead using Relation.ReflTransGen.head_induction_on with
    | refl =>
      obtain ⟨rest, hrest⟩ := hc.chain_head a
      exact hrest ▸ List.mem_cons_self
    | head hp _ ih => exact hc.chain_link hp ▸ List.mem_cons_of_mem _ ih

theorem size_linkProto (h : Heap) (id : ObjectId) (proto : Option ObjectId) :
    (h.linkProto id proto).size = h.size := size_modify _ _ _

/-- The object has the link, and is otherwise what it was. -/
theorem get_linkProto_self (hid : id < h.size) (proto : Option ObjectId) :
    (h.linkProto id proto).get id = { h.get id with proto := proto } := by
  rw [linkProto, get_modify, if_pos ⟨rfl, hid⟩]

theorem get_linkProto_ne {x : ObjectId} (hx : x ≠ id) (proto : Option ObjectId) :
    (h.linkProto id proto).get x = h.get x := by
  rw [linkProto, get_modify, if_neg fun hc => hx hc.1.symm]

theorem fields_linkProto (h : Heap) (id : ObjectId) (proto : Option ObjectId) (x : ObjectId) :
    (h.linkProto id proto).fields x = h.fields x := by
  rw [fields, linkProto, get_modify, fields]
  split <;> rfl

/-- Taking a link back. -/
theorem linkProto_back (hid : id < h.size) (proto : Option ObjectId) :
    (h.linkProto id proto).linkProto id (h.proto id) = h := by
  have hlt : id < (h.linkProto id proto).size := by rwa [size_linkProto]
  refine ext_get ((size_linkProto ..).trans (size_linkProto ..)) fun x => ?_
  by_cases hx : x = id
  · rw [hx, get_linkProto_self hlt, get_linkProto_self hid]
    rfl
  · rw [get_linkProto_ne hx, get_linkProto_ne hx]

/-! ### On trial

The code links first and looks for a circle afterwards, taking the link back if there is one.  Looking before
linking comes to the same. -/

/-- Following the links from `next` comes to `id`, or goes on for more than `steps` objects. -/
def returnsTo (h : Heap) (id : ObjectId) (next : Option ObjectId) : Nat → Bool
  | 0 => next.isSome
  | steps + 1 =>
    match next with
    | some x => x == id || h.returnsTo id (h.proto x) steps
    | none => false

/-- Writes the link, follows it, and restores the one before if that leads back. -/
def linkOnTrial (h : Heap) (id : ObjectId) (proto : Option ObjectId) : Except HeapError Unit × Heap :=
  let linked := h.linkProto id proto
  if linked.returnsTo id (linked.proto id) (linked.size + 1) then
    (.error .protoLoop, linked.linkProto id (h.proto id))
  else (.ok (), linked)

/-- Sets the prototype and takes the link back if it closes a circle. -/
def setProtoOnTrial (h : Heap) (id : ObjectId) : Value → Except HeapError Unit × Heap
  | .null => h.linkOnTrial id none
  | .object proto => h.linkOnTrial id (some proto)
  | .number _ | .string _ | .boolean _ => (.error .invalidProto, h)

/-- A walk that comes across `a` does so on every heap where only the link of `a` may be another. -/
theorem Walk.returnsTo_of_mem {ids : List ObjectId} (hw : h.Walk p ids)
    (hsame : ∀ x, x ≠ a → h'.proto x = h.proto x) (ha : a ∈ ids) {steps : Nat}
    (hsteps : ids.length ≤ steps) : h'.returnsTo a (some p) steps = true := by
  induction hw generalizing steps with
  | root _ =>
    obtain ⟨steps, rfl⟩ : ∃ n, steps = n + 1 := ⟨steps - 1, by simp at hsteps; omega⟩
    rw [returnsTo, List.mem_singleton.mp ha, beq_self_eq_true, Bool.true_or]
  | @link x next ids hp _ ih =>
    rw [List.length_cons] at hsteps
    obtain ⟨steps, rfl⟩ : ∃ n, steps = n + 1 := ⟨steps - 1, by omega⟩
    rw [returnsTo, Bool.or_eq_true, beq_iff_eq]
    by_cases hx : x = a
    · exact .inl hx
    · rw [hsame x hx, hp]
      exact .inr (ih ((List.mem_cons.mp ha).resolve_left (Ne.symm hx)) (Nat.le_of_succ_le_succ hsteps))

/-- A walk that misses `a` ends within its length. -/
theorem Walk.returnsTo_of_not_mem {ids : List ObjectId} (hw : h.Walk p ids) (ha : a ∉ ids)
    {steps : Nat} (hsteps : ids.length ≤ steps) : h.returnsTo a (some p) steps = false := by
  induction hw generalizing steps with
  | root hp =>
    obtain ⟨steps, rfl⟩ : ∃ n, steps = n + 1 := ⟨steps - 1, by simp at hsteps; omega⟩
    have hne : _ ≠ a := fun he => ha (he ▸ List.mem_cons_self)
    rw [returnsTo, beq_false_of_ne hne, Bool.false_or, hp]
    cases steps <;> rfl
  | link hp _ ih =>
    rw [List.length_cons] at hsteps
    obtain ⟨steps, rfl⟩ : ∃ n, steps = n + 1 := ⟨steps - 1, by omega⟩
    have hne : _ ≠ a := fun he => ha (he ▸ List.mem_cons_self)
    rw [returnsTo, beq_false_of_ne hne, Bool.false_or, hp]
    exact ih (fun hmem => ha (List.mem_cons_of_mem _ hmem)) (Nat.le_of_succ_le_succ hsteps)

/-- **Looking before and looking after** come to the same. -/
theorem WellFormed.setProtoOnTrial_eq (hw : h.WellFormed) (ha : a < h.size) (v : Value) :
    h.setProtoOnTrial a v = h.setProto a v := by
  have hself : ∀ proto, (h.linkProto a proto).proto a = proto := fun proto => by
    rw [Heap.proto, get_linkProto_self ha]
  have hother : ∀ proto x, x ≠ a → (h.linkProto a proto).proto x = h.proto x := fun proto x hx => by
    rw [Heap.proto, get_linkProto_ne hx, Heap.proto]
  cases v with
  | null => rw [setProtoOnTrial, linkOnTrial, hself]; rfl
  | object p =>
    have hwalk := hw.chained p
    have hlength : (h.chain p).length ≤ h.size + 1 := Nat.le_succ_of_le (hw.length_walk_le hwalk)
    have hreturns : (h.linkProto a (some p)).returnsTo a (some p) (h.size + 1) =
        (h.chain p).contains a := by
      by_cases hmem : a ∈ h.chain p
      · rw [hwalk.returnsTo_of_mem (hother _) hmem hlength, List.contains_iff_mem.mpr hmem]
      · rw [(hwalk.relink (hother _) hmem).returnsTo_of_not_mem hmem hlength]
        exact (Bool.eq_false_iff.mpr fun hc => hmem (List.contains_iff_mem.mp hc)).symm
    rw [setProtoOnTrial, linkOnTrial, hself, size_linkProto, linkProto_back ha, hreturns, Heap.setProto]
  | number _ | string _ | boolean _ => rfl

/-! ### Refusals

When a write is refused, and that nothing is written then. -/

/-- A prototype that is neither null nor an object is refused as invalid, and nothing else is. -/
theorem setProto_invalid_iff {v : Value} :
    (h.setProto a v).1 = .error .invalidProto ↔ v.IsPrimitive := by
  cases v with
  | null => exact iff_of_false (fun h => by cases h) id
  | object p =>
    rw [setProto]
    split <;> exact iff_of_false (fun h => by cases h) id
  | number _ | string _ | boolean _ => exact iff_of_true rfl trivial

/-- **A prototype is refused as a loop** exactly if the links lead from it back to the object. -/
theorem Chained.setProto_loop_iff (hc : h.Chained) {v : Value} :
    (h.setProto a v).1 = .error .protoLoop ↔ ∃ p, v = .object p ∧ h.LeadsTo p a := by
  cases v with
  | object p =>
    simp only [Value.object.injEq, exists_eq_left', setProto, ← hc.mem_chain_iff, List.contains_iff_mem]
    split
    · exact iff_of_true rfl ‹_›
    · exact iff_of_false (fun h => by cases h) ‹_›
  | null | number _ | string _ | boolean _ =>
    refine iff_of_false (fun h => by cases h) ?_
    rintro ⟨p, hp, -⟩
    cases hp

/-- A prototype that is not refused. -/
theorem setProto_ok {v : Value} (hv : ¬ v.IsPrimitive) (hloop : (h.setProto a v).1 ≠ .error .protoLoop) :
    h.setProto a v = (.ok (), h.linkProto a v.object?) := by
  cases v with
  | null => rfl
  | object p =>
    rw [setProto] at hloop ⊢
    split at hloop
    · exact absurd rfl hloop
    · rw [if_neg ‹_›]
      rfl
  | number _ | string _ | boolean _ => exact absurd trivial hv

/-- A prototype that has been set. -/
theorem setProto_eq_ok {v : Value} (hset : h.setProto id v = (.ok (), h')) :
    h' = h.linkProto id v.object? := by
  cases v with
  | null => cases hset; rfl
  | object p =>
    rw [setProto] at hset
    split at hset <;> cases hset
    rfl
  | number _ | string _ | boolean _ => cases hset

/-- A link that is refused is not written. -/
theorem setProto_refused {v : Value} {e : HeapError} (he : (h.setProto id v).1 = .error e) :
    (h.setProto id v).2 = h := by
  cases v with
  | null => cases he
  | object p =>
    rw [setProto] at he ⊢
    split at he
    · rw [if_pos ‹_›]
    · cases he
  | number _ | string _ | boolean _ => rfl

/-- Only the key `proto` is ever refused, and then nothing is written. -/
theorem setOwn_refused {v : Labeled} {e : HeapError} (he : (h.setOwn id key v).1 = .error e) :
    (h.setOwn id key v).2 = h := by
  rw [setOwn] at he ⊢
  split at he
  · rw [if_pos ‹_›]
    exact setProto_refused he
  · cases he

/-- A refused write to a field leaves the heap as it was. -/
theorem setField_refused {v : Labeled} {e : HeapError} (he : (h.setField id key v).1 = .error e) :
    (h.setField id key v).2 = h := by
  rw [setField] at he ⊢
  split at he
  · rw [if_pos ‹_›]
    exact setProto_refused he
  · cases he

theorem setValueField_refused {target : Value} {v : Labeled} {own : Bool} {e : HeapError}
    (he : (h.setValueField target key v own).1 = .error e) :
    (h.setValueField target key v own).2 = h := by
  have hwrite : ∀ id, (if own then h.setOwn id key v else h.setField id key v).1 = .error e →
      (if own then h.setOwn id key v else h.setField id key v).2 = h := by
    intro id he
    cases own with
    | true => exact setOwn_refused he
    | false => exact setField_refused he
  cases target with
  | null => rfl
  | object id => exact hwrite id he
  | number _ | string _ | boolean _ =>
    simp only [setValueField, primitiveProto] at he ⊢
    split at he
    · rw [if_pos ‹_›]
    · rw [if_neg ‹_›]
      exact hwrite _ he

/-- **A prototype is refused exactly when it must be, and what is refused changes nothing.**  On a well-formed
heap, for an object `a` that is there, setting the prototype to `v`

* fails with `invalidProto` exactly if `v` is a number, a string or a boolean,
* fails with `protoLoop` exactly if `v` is an object from which links lead to `a`,
* else succeeds and changes nothing but the link of `a`,
* and is the same as to write the link first and to take it back if the walk from there returns.

Whatever write of a field is refused, the heap is what it was. -/
theorem proto_writes_are_exact {h : Heap} (hw : h.WellFormed) :
    (∀ a v, a < h.size →
      ((h.setProto a v).1 = .error .invalidProto ↔ v.IsPrimitive) ∧
      ((h.setProto a v).1 = .error .protoLoop ↔ ∃ p, v = .object p ∧ h.LeadsTo p a) ∧
      (¬ v.IsPrimitive → (¬ ∃ p, v = .object p ∧ h.LeadsTo p a) →
        ∃ h', h.setProto a v = (.ok (), h') ∧ h'.size = h.size ∧
          h'.get a = { h.get a with proto := v.object? } ∧ ∀ x, x ≠ a → h'.get x = h.get x) ∧
      h.setProtoOnTrial a v = h.setProto a v) ∧
    (∀ id v e, (h.setProto id v).1 = .error e → (h.setProto id v).2 = h) ∧
    (∀ id key v e, (h.setField id key v).1 = .error e → (h.setField id key v).2 = h) ∧
    (∀ id key v e, (h.setOwn id key v).1 = .error e → (h.setOwn id key v).2 = h) ∧
    ∀ target key v own e, (h.setValueField target key v own).1 = .error e →
      (h.setValueField target key v own).2 = h := by
  refine ⟨fun a v ha => ⟨setProto_invalid_iff, hw.chained.setProto_loop_iff, fun hprim hlead => ?_,
      hw.setProtoOnTrial_eq ha v⟩, fun _ _ _ => setProto_refused, fun _ _ _ _ => setField_refused,
    fun _ _ _ _ => setOwn_refused, fun _ _ _ _ _ => setValueField_refused⟩
  have hok := setProto_ok hprim fun hloop => hlead (hw.chained.setProto_loop_iff.mp hloop)
  exact ⟨_, hok, size_linkProto .., get_linkProto_self ha _, fun x hx => get_linkProto_ne hx _⟩

/-- The theorem at two objects with one prototype: that cannot have one of them as its own, and one of them can
have the other. -/
theorem proto_writes_are_exact_siblings :
    siblings.WellFormed ∧ 5 < siblings.size ∧ 6 < siblings.size ∧
      (siblings.setProto 5 (.string "x")).1 = .error .invalidProto ∧
      (siblings.setProto 5 (.object 7)).1 = .error .protoLoop ∧
      (siblings.setProto 5 (.object 7)).2 = siblings ∧
      ∃ h', siblings.setProto 6 (.object 7) = (.ok (), h') ∧
        h'.get 6 = { siblings.get 6 with proto := some 7 } ∧ h'.get 7 = siblings.get 7 := by
  have hw := wellFormed_siblings
  have hlt : 5 < siblings.size := by decide
  have hlt' : 6 < siblings.size := by decide
  obtain ⟨hexact, hrefused, -⟩ := proto_writes_are_exact hw
  have hup : siblings.LeadsTo 7 5 := .single rfl
  have hloop := (hexact 5 (.object 7) hlt).2.1.mpr ⟨7, rfl, hup⟩
  have hfree : ¬ ∃ p, Value.object 7 = .object p ∧ siblings.LeadsTo p 6 := by
    rintro ⟨p, hp, hlead⟩
    cases hp
    exact absurd (hw.chained.mem_chain_iff.mpr hlead) (by decide)
  obtain ⟨h', hset, -, hself, hothers⟩ := (hexact 6 (.object 7) hlt').2.2.1 nofun hfree
  exact ⟨hw, hlt, hlt', (hexact 5 (.string "x") hlt).1.mpr trivial, hloop, hrefused 5 _ _ hloop, h',
    hset, hself, hothers 7 (by decide)⟩

end Heap

end Protean
