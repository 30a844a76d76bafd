import Protean.Proofs.Heap.Link
import Protean.Proofs.Machine.Frame
import Protean.Proofs.Machine.Soundness

/-!
# Proofs — Machine — entering a function

What the body of a function of the language finds when it starts.  A call that has come to the body
(`BodyStarts`) has opened a scope, evaluated its arguments, put them into the object `args` one after the other,
bound `args`, `it` and `self`, and checked the declared parameters.

* The object `args` holds the *last* argument under each key, while the *first* one is checked.  So declared
  parameters fit the object if no name is given twice.
* A binding to null is no binding.  So `it` is the first positional argument unless that is null, and then
  it is what `it` means where the function was made.

Nothing can get at the scope while the arguments are evaluated: it is new, and nothing leads to it
(`materialize_keeps_scope`).

* `materializeFrom_keys`: the keys that arguments get, which the code alone decides.
* `bindArguments_eq_ok`, `Bindings`: the scope that the arguments are bound in, and what can be read there.
* `BodyStarts.bindings`: a body that starts finds such a scope, with parameters that have been checked.
* `Bindings.getField_args`, `Bindings.getField_it`: what `args` and `it` mean there.
-/

namespace Protean

/-! ### Sequences

Inversions: from the result of a combinator back to the results of its parts. -/

/-- What a sequence went through if it has a result. -/
theorem Eval.bind_eq_ok {α β : Type} {p : Eval α} {f : α → Eval β} {m m' : Machine} {b : β} :
    (p >>= f) m = (.ok b, m') ↔ ∃ a k, p m = (.ok a, k) ∧ f a k = (.ok b, m') := by
  change Eval.bind p f m = _ ↔ _
  rw [Eval.bind]
  rcases p m with ⟨i | a, k⟩
  · refine ⟨(fun h => by cases h), ?_⟩
    rintro ⟨a, k', heq, -⟩
    cases heq
  · refine ⟨fun h => ⟨a, k, rfl, h⟩, ?_⟩
    rintro ⟨a', k', heq, h⟩
    cases heq
    exact h

theorem Eval.pure_eq_ok {α : Type} {a b : α} {m m' : Machine} :
    (Pure.pure a : Eval α) m = (.ok b, m') ↔ a = b ∧ m = m' := by
  change ((Except.ok a : Except Interrupt α), m) = _ ↔ _
  rw [Prod.mk.injEq, Except.ok.injEq]

theorem Eval.change_eq_ok {α : Type} {f : Heap → α × Heap} {m m' : Machine} {a : α}
    (h : Eval.change f m = (.ok a, m')) : f m.heap = (a, m'.heap) := by
  obtain ⟨heap, global, steps, depth⟩ := m
  cases h
  rfl

/-- A write that succeeds has changed the heap. -/
theorem Eval.write_eq_ok {f : Heap → Except HeapError Unit × Heap} {m m' : Machine}
    (h : Eval.write f m = (.ok (), m')) : f m.heap = (.ok (), m'.heap) := by
  obtain ⟨heap, global, steps, depth⟩ := m
  rw [Eval.write] at h
  rcases hf : f heap with ⟨e | _, heap'⟩ <;> rw [hf] at h <;> cases h
  rfl

/-! ### Arguments and their keys

Which keys the arguments of a call get, and which of two arguments under one key is found first or last. -/

namespace CallArguments

/-- The keys of arguments, positional ones counted from `n`. -/
def keysFrom : Nat → List (Argument Code) → List Key
  | _, [] => []
  | n, ⟨some name, _⟩ :: args => .name name :: keysFrom n args
  | n, ⟨none, _⟩ :: args => .index n :: keysFrom (n + 1) args

/-- The keys that the arguments are passed under, in the order of the call. -/
def keys (args : CallArguments) : List Key := keysFrom 0 args.entries

/-- No key is smaller than the index that counting starts at. -/
theorem index_not_mem_keysFrom {i : Nat} : ∀ {args : List (Argument Code)} {n : Nat}, i < n →
    .index i ∉ keysFrom n args
  | [], _, _ => List.not_mem_nil
  | ⟨some _, _⟩ :: _, _, hi => by
      rw [keysFrom, List.mem_cons, not_or]
      exact ⟨nofun, index_not_mem_keysFrom hi⟩
  | ⟨none, _⟩ :: _, n, hi => by
      rw [keysFrom, List.mem_cons, not_or]
      exact ⟨fun he => Nat.ne_of_lt hi (Key.index.inj he), index_not_mem_keysFrom (Nat.lt_succ_of_lt hi)⟩

/-- Indices are counted up, so no index is given twice. -/
theorem count_index_keysFrom (i : Nat) : ∀ (args : List (Argument Code)) (n : Nat),
    (keysFrom n args).count (.index i) ≤ 1
  | [], _ => Nat.zero_le _
  | ⟨some _, _⟩ :: args, n => by
      rw [keysFrom, List.count_cons_of_ne Key.noConfusion]
      exact count_index_keysFrom i args n
  | ⟨none, _⟩ :: args, n => by
      rw [keysFrom]
      by_cases hi : n = i
      · rw [hi, List.count_cons_self, List.count_eq_zero.mpr (index_not_mem_keysFrom (Nat.lt_succ_self i))]
      · rw [List.count_cons_of_ne fun he => hi (Key.index.inj he)]
        exact count_index_keysFrom i args (n + 1)

end CallArguments

namespace Entries

/-- The last argument under `key`; null if there is none. -/
def latest (entries : Entries) (key : Key) : Labeled := Entries.lookup entries.reverse key

end Entries

/-- What the first fields do not have is looked for in the others. -/
theorem Fields.find?_append (key : Key) (fields fields' : Fields) :
    find? key (fields ++ fields') = (find? key fields).or (find? key fields') := by
  induction fields with
  | nil => rfl
  | cons field rest ih =>
    rw [List.cons_append, find?, find?]
    split
    · rfl
    · exact ih

/-- An argument that is given once is the first and the last under its key. -/
theorem Entries.latest_eq_lookup {entries : Entries} {key : Key}
    (honce : (Fields.keys entries).count key ≤ 1) : entries.latest key = entries.lookup key := by
  rw [latest, lookup, lookup]
  refine congrArg (Option.getD · Labeled.null) ?_
  induction entries with
  | nil => rfl
  | cons entry rest ih =>
    rw [List.reverse_cons, Fields.find?_append, Fields.find?]
    split
    · rename_i he
      rw [Fields.keys_cons, he, List.count_cons_self] at honce
      have hnot : key ∉ Fields.keys rest.reverse := by
        rw [Fields.keys, List.map_reverse, List.mem_reverse]
        exact List.count_eq_zero.mp (Nat.le_zero.mp (Nat.le_of_succ_le_succ honce))
      rw [Fields.find?_eq_none.mpr hnot, Option.none_or, Fields.find?, if_pos he]
    · rename_i he
      rw [Fields.keys_cons, List.count_cons_of_ne he] at honce
      rw [ih honce, Fields.find?, Option.or_none, Fields.find?, if_neg he]

section
variable {eval : Evaluator} {scope : ObjectId} {m m' : Machine}

/-- The keys of the entries are those that the code of the arguments asks for, in their order. -/
theorem materializeFrom_keys : ∀ {args : List (Argument Code)} {n : Nat} {entries : Entries} {m : Machine},
    materializeFrom eval scope n args m = (.ok entries, m') →
      Fields.keys entries = CallArguments.keysFrom n args
  | [], _, _, _, h => by cases h; rfl
  | ⟨some name, _⟩ :: _, _, _, _, h | ⟨none, _⟩ :: _, _, _, _, h => by
      obtain ⟨v, k, -, h⟩ := Eval.bind_eq_ok.mp h
      obtain ⟨rest, k', hrest, h⟩ := Eval.bind_eq_ok.mp h
      cases h
      exact congrArg _ (materializeFrom_keys hrest)

/-- **The first positional argument** is evaluated after the named ones before it, and found under the first
index. -/
theorem materializeFrom_first : ∀ {args : List (Argument Code)} {n : Nat} {entries : Entries} {m : Machine}
    {code : Code}, materializeFrom eval scope n args m = (.ok entries, m') →
    CallArguments.positional? ⟨args, scope⟩ 0 = some code →
      ∃ before after values v k k', args = before ++ ⟨none, code⟩ :: after ∧
        (∀ a ∈ before, a.name.isSome) ∧ materializeFrom eval scope n before m = (.ok values, k) ∧
        evaluateLabeled eval code scope k = (.ok v, k') ∧ entries.lookup (.index n) = v
  | [], _, _, _, _, _, hcode => by cases hcode
  | ⟨some name, c⟩ :: args, n, _, m, _, h, hcode => by
      obtain ⟨w, k₀, hw, h⟩ := Eval.bind_eq_ok.mp h
      obtain ⟨rest, k₁, hrest, h⟩ := Eval.bind_eq_ok.mp h
      cases h
      obtain ⟨before, after, values, v, k, k', rfl, hnamed, hbefore, hv, hlookup⟩ :=
        materializeFrom_first hrest hcode
      refine ⟨⟨some name, c⟩ :: before, after, (.name name, w) :: values, v, k, k', rfl,
        List.forall_mem_cons.mpr ⟨rfl, hnamed⟩, ?_, hv, ?_⟩
      · exact Eval.bind_eq_ok.mpr ⟨w, k₀, hw, Eval.bind_eq_ok.mpr ⟨values, k, hbefore, rfl⟩⟩
      · rw [Entries.lookup, Fields.find?, if_neg Key.noConfusion]
        exact hlookup
  | ⟨none, c⟩ :: args, n, _, m, _, h, hcode => by
      obtain ⟨v, k, hv, h⟩ := Eval.bind_eq_ok.mp h
      obtain ⟨rest, k₁, hrest, h⟩ := Eval.bind_eq_ok.mp h
      cases h
      cases hcode
      refine ⟨[], args, [], v, m, k, rfl, List.forall_mem_nil _, rfl, hv, ?_⟩
      rw [Entries.lookup, Fields.find?, if_pos rfl, Option.getD_some]

/-! ### Collecting, binding and checking

What each stage of a call has done if it has succeeded. -/

/-- A new plain object. -/
theorem Heap.allocPlain_eq {h h' : Heap} {proto : Option ObjectId} {id : ObjectId}
    (heq : h.allocPlain proto = (id, h')) :
    id = h.size ∧ h'.size = h.size + 1 ∧ h'.get id = { proto := proto } ∧
      ∀ x, x ≠ id → h'.get x = h.get x := by
  obtain ⟨rfl, rfl⟩ : h.size = id ∧ (h.alloc { proto := proto }).2 = h' := Prod.mk.injEq .. ▸ heq
  exact ⟨rfl, size_alloc .., (get_alloc ..).trans (if_pos rfl), fun x hx => (get_alloc ..).trans (if_neg hx)⟩

/-- A call opens a scope with nothing in it but `this`, and changes no other object. -/
theorem openScope_eq_ok {captured : ObjectId} (h : openScope captured m = (.ok scope, m')) :
    scope = m.heap.size ∧ m'.heap.size = m.heap.size + 1 ∧
      m'.heap.get scope = ⟨.plain, [(.name "this", .bare (.object scope))], some captured⟩ ∧
      ∀ x, x ≠ scope → m'.heap.get x = m.heap.get x := by
  have hdefine := Eval.change_eq_ok h
  rcases halloc : m.heap.allocPlain (some captured) with ⟨new, heap⟩
  simp only [halloc, Prod.mk.injEq] at hdefine
  obtain ⟨rfl, hheap⟩ := hdefine
  obtain ⟨hnew, hsize, hget, hother⟩ := Heap.allocPlain_eq halloc
  have hlt : new < heap.size := by rw [hsize, hnew]; exact Nat.lt_succ_self _
  rw [← hheap]
  refine ⟨hnew, (Heap.size_writeOwn ..).trans hsize, ?_, fun x hx => ?_⟩
  · rw [Heap.define, Heap.writeOwn, Heap.get_modify, if_pos ⟨rfl, hlt⟩, hget]
    rfl
  · exact (Heap.get_writeOwn_ne hx _ _).trans (hother x hx)

/-- After a write the key has the new value, and other keys have what they had. -/
theorem getOwn_writeOwn {h : Heap} {id : ObjectId} {key k : Key} (hid : id < h.size)
    (hnodup : (h.fields id).keys.Nodup) (hkey : key ≠ .proto) (v : Labeled) :
    ((h.writeOwn id k v).getOwn id key).value = if k = key then v.value else (h.getOwn id key).value := by
  rw [Heap.getOwn, Heap.getOwn, if_neg hkey, if_neg hkey, Heap.fields_writeOwn_self hid]
  split
  · rename_i heq
    subst heq
    by_cases hv : v.value = .null
    · rw [Fields.write_null hv, Fields.find?_erase_self hnodup, hv]
      rfl
    · rw [Fields.write_of_ne_null hv, Fields.find?_put_self, Option.getD_some]
  · rename_i hne
    rw [Fields.find?_write_ne (Ne.symm hne)]

/-- A write that succeeds changes one object, and there one key only. -/
theorem setOwn_eq_ok {h h' : Heap} {id : ObjectId} {k : Key} {v : Labeled} (hid : id < h.size)
    (hnodup : (h.fields id).keys.Nodup) (hset : h.setOwn id k v = (.ok (), h')) :
    h'.size = h.size ∧ (h'.fields id).keys.Nodup ∧ (∀ x, x ≠ id → h'.get x = h.get x) ∧
      ∀ key, key ≠ .proto →
        (h'.getOwn id key).value = if k = key then v.value else (h.getOwn id key).value := by
  rw [Heap.setOwn] at hset
  split at hset
  · rename_i hk
    rw [Heap.setProto_eq_ok hset, Heap.fields_linkProto]
    refine ⟨Heap.size_linkProto .., hnodup, fun x hx => Heap.get_linkProto_ne hx _, fun key hkey => ?_⟩
    have hne : k ≠ key := fun he => hkey (he ▸ hk)
    rw [Heap.getOwn, Heap.getOwn, if_neg hkey, if_neg hkey, Heap.fields_linkProto, if_neg hne]
  · cases hset
    refine ⟨Heap.size_writeOwn .., ?_, fun x hx => Heap.get_writeOwn_ne hx _ _, fun key hkey => ?_⟩
    · rw [Heap.fields_writeOwn_self hid]
      exact Fields.nodup_write hnodup
    · exact getOwn_writeOwn hid hnodup hkey v

/-- Writing one field after the other: each key holds what was written last. -/
theorem setAll_eq_ok {id : ObjectId} : ∀ {fields : Fields} {m : Machine}, id < m.heap.size →
    (m.heap.fields id).keys.Nodup → setAll id fields m = (.ok (), m') →
      m'.heap.size = m.heap.size ∧ (∀ x, x ≠ id → m'.heap.get x = m.heap.get x) ∧
      ∀ key, key ≠ .proto → (m'.heap.getOwn id key).value =
        ((Fields.find? key fields.reverse).getD (m.heap.getOwn id key)).value
  | [], _, _, _, h => by
      cases h
      exact ⟨rfl, fun _ _ => rfl, fun _ _ => rfl⟩
  | (k, v) :: rest, m, hid, hnodup, h => by
      obtain ⟨⟨⟩, k₁, hwrite, h⟩ := Eval.bind_eq_ok.mp h
      obtain ⟨hsize, hnodup', hother, hown⟩ := setOwn_eq_ok hid hnodup (Eval.write_eq_ok hwrite)
      obtain ⟨hsize', hother', hlast⟩ := setAll_eq_ok (hsize ▸ hid) hnodup' h
      refine ⟨hsize'.trans hsize, fun x hx => (hother' x hx).trans (hother x hx), fun key hkey => ?_⟩
      rw [hlast key hkey, List.reverse_cons, Fields.find?_append]
      cases hrest : Fields.find? key rest.reverse with
      | some w => rfl
      | none =>
        rw [Option.none_or, Fields.find?, Fields.find?, Option.getD_none, hown key hkey]
        split <;> rfl

/-- **The object `args`** is new and holds the last argument under each key. -/
theorem collectArguments_eq_ok {entries : Entries} {id : ObjectId}
    (h : collectArguments entries m = (.ok id, m')) :
    id = m.heap.size ∧ m'.heap.size = m.heap.size + 1 ∧ (∀ x, x ≠ id → m'.heap.get x = m.heap.get x) ∧
      ∀ key, key ≠ .proto → (m'.heap.getOwn id key).value = (entries.latest key).value := by
  obtain ⟨new, k, hnew, h⟩ := Eval.bind_eq_ok.mp h
  obtain ⟨⟨⟩, k', hall, h⟩ := Eval.bind_eq_ok.mp h
  obtain ⟨rfl, rfl⟩ := Eval.pure_eq_ok.mp h
  obtain ⟨hid, hsize, hget, hother⟩ := Heap.allocPlain_eq (Eval.change_eq_ok hnew)
  have hlt : new < k.heap.size := by rw [hsize, hid]; exact Nat.lt_succ_self _
  have hfields : k.heap.fields new = [] := congrArg Object.fields hget
  obtain ⟨hsize', hother', hlast⟩ := setAll_eq_ok hlt (by rw [hfields]; exact List.nodup_nil) hall
  refine ⟨hid, hsize'.trans hsize, fun x hx => (hother' x hx).trans (hother x hx), fun key hkey => ?_⟩
  rw [hlast key hkey, Heap.getOwn, if_neg hkey, hfields]
  rfl

/-- A parameter is accepted exactly if its descriptor accepts the value, and nothing changes. -/
theorem validateOne_eq_ok {parameter : Parameter} {v : Labeled} :
    validateOne parameter v m = (.ok (), m') ↔
      m = m' ∧ parameter.type.check m.heap v.value = .ok () := by
  rw [validateOne]
  cases parameter.type.check m.heap v.value with
  | ok _ => simp
  | error _ => simp

/-- **The first argument** under the key of each parameter is checked. -/
theorem validate_eq_ok {entries : Entries} : ∀ {parameters : List Parameter},
    validate entries parameters m = (.ok (), m') →
      m = m' ∧ ∀ p ∈ parameters, p.type.check m.heap (entries.lookup p.key).value = .ok ()
  | [], h => by
      cases h
      exact ⟨rfl, List.forall_mem_nil _⟩
  | p :: ps, h => by
      obtain ⟨⟨⟩, k, hone, h⟩ := Eval.bind_eq_ok.mp h
      obtain ⟨rfl, hcheck⟩ := validateOne_eq_ok.mp hone
      obtain ⟨heq, hrest⟩ := validate_eq_ok h
      exact ⟨heq, List.forall_mem_cons.mpr ⟨hcheck, hrest⟩⟩

/-- The stages of a call up to its body. -/
theorem prepareCall_eq_ok {lambda : Lambda} {captured : ObjectId} {args : CallArguments}
    (h : prepareCall eval lambda captured args m = (.ok scope, m')) :
    ∃ entries argsObject m₁ m₂ m₃, openScope captured m = (.ok scope, m₁) ∧
      materialize eval args m₁ = (.ok entries, m₂) ∧
      collectArguments entries m₂ = (.ok argsObject, m₃) ∧
      bindArguments scope argsObject entries m₃ = (.ok (), m') ∧
      ∀ p ∈ lambda.parameters, p.type.check m'.heap (entries.lookup p.key).value = .ok () := by
  obtain ⟨scope', m₁, hopen, h⟩ := Eval.bind_eq_ok.mp h
  obtain ⟨entries, m₂, hargs, h⟩ := Eval.bind_eq_ok.mp h
  obtain ⟨argsObject, m₃, hcollect, h⟩ := Eval.bind_eq_ok.mp h
  obtain ⟨⟨⟩, m₄, hbind, h⟩ := Eval.bind_eq_ok.mp h
  obtain ⟨⟨⟩, m₅, hvalid, h⟩ := Eval.bind_eq_ok.mp h
  obtain ⟨rfl, rfl⟩ := Eval.pure_eq_ok.mp h
  obtain ⟨rfl, hchecks⟩ := validate_eq_ok hvalid
  exact ⟨entries, argsObject, m₁, m₂, m₃, hopen, hargs, hcollect, hbind, hchecks⟩

/-- The bindings of a call are three writes to its scope, one after the other. -/
theorem bindArguments_eq_ok {argsObject : ObjectId} {entries : Entries} (hscope : scope < m.heap.size)
    (h : bindArguments scope argsObject entries m = (.ok (), m')) :
    m'.heap.size = m.heap.size ∧ (∀ x, x ≠ scope → m'.heap.get x = m.heap.get x) ∧
      m'.heap.proto scope = m.heap.proto scope ∧
      m'.heap.fields scope = (((m.heap.fields scope).write (.name "args") (.bare (.object argsObject))).write
        (.name "it") (entries.positional 0)).write (.name "self") entries.self := by
  obtain ⟨heap, global, steps, depth⟩ := m
  cases h
  simp only [Heap.define]
  refine ⟨by simp, fun x hx => ?_, by simp, ?_⟩
  · rw [Heap.get_writeOwn_ne hx, Heap.get_writeOwn_ne hx, Heap.get_writeOwn_ne hx]
  · rw [Heap.fields_writeOwn_self (by simpa using hscope), Heap.fields_writeOwn_self (by simpa using hscope),
      Heap.fields_writeOwn_self hscope]

end

/-! ### The new scope is out of reach

While the arguments are evaluated the new scope stays as it is, by the frame of evaluation. -/

/-- All objects but one, with all expressions. -/
def Region.without (id : ObjectId) (hid : Heap.booleanProto < id) : Region where
  objects x := x ≠ id
  sources _ := True
  builtins _ hx := Nat.ne_of_lt (Nat.lt_of_le_of_lt hx hid)

section
variable {R : Region} {n : Nat} (hall : ∀ e, R.sources e) (hlt : ∀ id, id < n → R.objects id)
include hlt

/-- A value of the machine before the call is in the region of its objects. -/
theorem Value.Below.in_region {v : Value} (hv : v.Below n) : v.In R := by
  cases v with
  | object id => exact hlt id hv
  | null | number _ | string _ | boolean _ => trivial

include hall

theorem Object.Sound.in_region {o : Object} (ho : o.Sound n) (hc : o.kind.Closed n) : o.In R := by
  refine ⟨fun p hp => hlt p (ho.proto_lt p hp), ?_, fun field hf => ⟨?_, fun e _ => hall e⟩⟩
  · have hbelow := ho.kind_below
    cases hk : o.kind with
    | plain => trivial
    | function lambda captured =>
      rw [hk] at hc hbelow
      exact ⟨hlt _ hbelow, Code.bodyIn_of_mentions hall _ fun id hm => hlt id (hm.lt hc)⟩
    | builtin which captured =>
      rw [hk] at hbelow
      exact hlt _ hbelow
  · exact Value.Below.in_region hlt (ho.value_below field.1 field.2 hf)

theorem CallArguments.Below.in_region {args : CallArguments} (ha : args.Below n) : args.In R :=
  fun _ hmem => ⟨Code.in_of_mentions hall _ fun id hm => hlt id (hm.lt (ha.entries.of_mem hmem)),
    .inl (hlt _ ha.scope_lt)⟩

end

/-- **Arguments are evaluated without a trace in the new scope.** -/
theorem materialize_keeps_scope {m m₁ : Machine} {args : CallArguments} {captured scope : ObjectId}
    (limits : Limits) (fuel : Nat) (hm : m.Sound) (ha : args.Below m.heap.size)
    (hopen : openScope captured m = (.ok scope, m₁)) :
    (materialize (evaluate limits fuel) args m₁).2.heap.get scope = m₁.heap.get scope := by
  obtain ⟨hscope, hsize, -, hother⟩ := openScope_eq_ok hopen
  let R := Region.without scope (hscope ▸ hm.wellFormed.builtins)
  have hold : ∀ id, id < m.heap.size → R.objects id := fun id hid => by
    show id ≠ scope
    rw [hscope]
    exact Nat.ne_of_lt hid
  -- nothing but the scope itself leads to it
  have halike : R.Alike m₁.heap m₁.heap := by
    refine ⟨rfl, fun id hid => ?_, fun _ _ => rfl, fun id hid => ?_⟩
    · rw [hsize, ← hscope] at hid
      exact Nat.ne_of_gt hid
    · rw [hother id hid]
      exact (hm.wellFormed.sound id).in_region (fun _ => trivial) hold (hm.consistent.closed id)
  have hargs : args.In R := ha.in_region (fun _ => trivial) hold
  have hrun := materialize_confined (evaluate_invoke_confined R limits fuel).1 hargs m₁ m₁
    ⟨halike, rfl, rfl, rfl⟩
  exact hrun.keeps scope fun hin => hin rfl

/-- What the body of a function finds in its scope: next to `this` the object with the arguments, the first
positional one and the receiver, as far as these are not null. -/
structure Bindings (entries : Entries) (captured scope argsObject : ObjectId) (h : Heap) : Prop where
  proto : h.proto scope = some captured
  fields : h.fields scope = ((Fields.write (.name "args") (.bare (.object argsObject))
    [(.name "this", .bare (.object scope))]).write (.name "it") (entries.positional 0)).write
      (.name "self") entries.self
  args : ∀ key, key ≠ .proto → (h.getOwn argsObject key).value = (entries.latest key).value

/-- **What a call has bound** when its body starts. -/
theorem prepareCall_bindings {limits : Limits} {fuel : Nat} {m m₁ m' : Machine} {args : CallArguments}
    {lambda : Lambda} {captured scope : ObjectId} (hm : m.Sound) (ha : args.Below m.heap.size)
    (hc : captured < m.heap.size) (hopen : openScope captured m = (.ok scope, m₁))
    (hprepare : prepareCall (evaluate limits fuel) lambda captured args m = (.ok scope, m')) :
    ∃ entries m₂ argsObject, materialize (evaluate limits fuel) args m₁ = (.ok entries, m₂) ∧
      Bindings entries captured scope argsObject m'.heap ∧
      ∀ p ∈ lambda.parameters, p.type.check m'.heap (entries.lookup p.key).value = .ok () := by
  obtain ⟨entries, argsObject, m₁', m₂, m₃, hopen', hargs, hcollect, hbind, hchecks⟩ :=
    prepareCall_eq_ok hprepare
  obtain rfl : m₁ = m₁' := by rw [hopen] at hopen'; cases hopen'; rfl
  obtain ⟨hscope, hsize, hnew, -⟩ := openScope_eq_ok hopen
  have hm₁ := (openScope_safe hc m hm le_rfl).1
  rw [hopen] at hm₁
  -- evaluating the arguments has left the scope alone, and the object `args` comes after it
  have hgrow := (materialize_safe (evaluate_safe limits fuel) (ha.mono (by omega)) m₁ hm₁ le_rfl).2.1.size_le
  have hkept := materialize_keeps_scope limits fuel hm ha hopen
  rw [hargs] at hgrow hkept
  have hlt : scope < m₂.heap.size := by
    rw [hsize] at hgrow
    exact hscope ▸ hgrow
  obtain ⟨hobject, hsize', hother, hlatest⟩ := collectArguments_eq_ok hcollect
  have hne : scope ≠ argsObject := hobject ▸ Nat.ne_of_lt hlt
  have hget := (hother scope hne).trans (hkept.trans hnew)
  obtain ⟨-, hother', hproto, hfields⟩ :=
    bindArguments_eq_ok (by rw [hsize']; exact Nat.lt_succ_of_lt hlt) hbind
  refine ⟨entries, m₂, argsObject, hargs, ⟨?_, ?_, fun key hkey => ?_⟩, hchecks⟩
  · rw [hproto, Heap.proto, hget]
  · rw [hfields, Heap.fields, hget]
  · rw [← hlatest key hkey, Heap.getOwn, Heap.getOwn, if_neg hkey, if_neg hkey, Heap.fields,
      hother' argsObject (Ne.symm hne), Heap.fields]

/-! ### The body starts

All stages of a call up to its body, and what is bound in its scope then. -/

/-- A call of `callee` has come to the body of a function of the language.  The call was let in on `m`, its
arguments were evaluated from `m₁` on, where there is a new scope, and the body is about to run in that scope
on `m'`. -/
structure BodyStarts (limits : Limits) (fuel : Nat) (m : Machine) (callee : Labeled) (args : CallArguments)
    (lambda : Lambda) (captured scope : ObjectId) (m₁ m' : Machine) : Prop where
  function : ∃ id, callee.value = .object id ∧ (m.heap.get id).kind = .function lambda captured
  prepared : ∃ m₀, Eval.enter limits m = (.ok (), m₀) ∧ openScope captured m₀ = (.ok scope, m₁) ∧
    prepareCall (evaluate limits fuel) lambda captured args m₀ = (.ok scope, m')

/-- To let in a call changes nothing but the counts. -/
theorem Machine.Sound.enter {limits : Limits} {m m₀ : Machine} (hm : m.Sound)
    (h : Eval.enter limits m = (.ok (), m₀)) : m₀.Sound ∧ m₀.heap = m.heap := by
  obtain ⟨heap, global, steps, depth⟩ := m
  rw [Eval.enter] at h
  split at h
  · cases h
  · split at h <;> cases h
    exact ⟨⟨hm.consistent, hm.global_lt⟩, rfl⟩

namespace BodyStarts

variable {limits : Limits} {fuel : Nat} {m m₁ m' : Machine} {callee : Labeled} {args : CallArguments}
  {lambda : Lambda} {captured scope : ObjectId}

/-- What is left of the call is to run the body. -/
theorem invoke_eq (hb : BodyStarts limits fuel m callee args lambda captured scope m₁ m') :
    invoke limits (fuel + 1) callee args m =
      ((runAll (evaluate limits fuel) lambda.body scope m').1,
        Eval.leave (runAll (evaluate limits fuel) lambda.body scope m').2) := by
  obtain ⟨⟨id, hcallee, hkind⟩, m₀, henter, -, hprepare⟩ := hb
  have hcall : callFunction (evaluate limits fuel) lambda captured args m₀ =
      runAll (evaluate limits fuel) lambda.body scope m' := by
    show Eval.bind _ _ m₀ = _
    rw [Eval.bind, hprepare]
  have hdispatch : invoke limits (fuel + 1) callee args m =
      Eval.guarded (Eval.enter limits) (callFunction (evaluate limits fuel) lambda captured args) m := by
    rw [invoke_succ, dispatch, hcallee]
    show Eval.bind _ _ m = _
    rw [Eval.bind, Eval.ask]
    simp only [hkind]
  rw [hdispatch, Eval.guarded, henter]
  simp only [hcall]

/-- The scope around a function is an object of the machine. -/
theorem captured_lt (hm : m.Sound)
    (hb : BodyStarts limits fuel m callee args lambda captured scope m₁ m') :
    captured < m.heap.size := by
  obtain ⟨id, -, hkind⟩ := hb.function
  have hbelow := (hm.wellFormed.sound id).kind_below
  rwa [hkind] at hbelow

/-- The machine on which a body starts is sound. -/
theorem sound (hm : m.Sound) (ha : args.Below m.heap.size)
    (hb : BodyStarts limits fuel m callee args lambda captured scope m₁ m') : m'.Sound := by
  have hc := hb.captured_lt hm
  obtain ⟨m₀, henter, -, hprepare⟩ := hb.prepared
  obtain ⟨hm₀, hheap⟩ := hm.enter henter
  have hs : (prepareCall (evaluate limits fuel) lambda captured args m₀).2.Sound :=
    (prepareCall_safe (evaluate_safe limits fuel) (hheap ▸ hc) (hheap ▸ ha) m₀ hm₀ le_rfl).1
  rwa [hprepare] at hs

/-- The scope that a body starts in has the bindings of its arguments, and the parameters fit the entries. -/
theorem bindings (hm : m.Sound) (ha : args.Below m.heap.size)
    (hb : BodyStarts limits fuel m callee args lambda captured scope m₁ m') :
    ∃ entries m₂ argsObject, materialize (evaluate limits fuel) args m₁ = (.ok entries, m₂) ∧
      Bindings entries captured scope argsObject m'.heap ∧
      ∀ p ∈ lambda.parameters, p.type.check m'.heap (entries.lookup p.key).value = .ok () := by
  have hc := hb.captured_lt hm
  obtain ⟨m₀, henter, hopen, hprepare⟩ := hb.prepared
  obtain ⟨hm₀, hheap⟩ := hm.enter henter
  exact prepareCall_bindings hm₀ (hheap ▸ ha) (hheap ▸ hc) hopen hprepare

end BodyStarts

namespace Bindings

variable {entries : Entries} {captured scope argsObject : ObjectId} {h : Heap}

/-- In the body `args` is the object with the arguments. -/
theorem getField_args (hb : Bindings entries captured scope argsObject h) (hc : h.Chained) :
    h.getField scope (.name "args") = .bare (.object argsObject) := by
  have hobject : (Labeled.bare (.object argsObject)).value ≠ .null := nofun
  refine hc.getField_own (by decide) ?_
  rw [hb.fields, Fields.find?_write_ne (by decide), Fields.find?_write_ne (by decide),
    Fields.write_of_ne_null hobject, Fields.find?_put_self]

/-- In the body `it` is the first positional argument, unless this is null. -/
theorem getField_it (hb : Bindings entries captured scope argsObject h) (hc : h.Chained)
    (hv : (entries.positional 0).value ≠ .null) :
    h.getField scope (.name "it") = entries.positional 0 := by
  refine hc.getField_own (by decide) ?_
  rw [hb.fields, Fields.find?_write_ne (by decide), Fields.write_of_ne_null hv, Fields.find?_put_self]

/-- Where `it` is bound to null, it is not bound. -/
theorem getField_it_null (hb : Bindings entries captured scope argsObject h) (hc : h.Chained)
    (hv : (entries.positional 0).value = .null) :
    h.getField scope (.name "it") = h.getField captured (.name "it") := by
  refine hc.getField_link (by decide) ?_ hb.proto
  have hnodup : (Fields.write (.name "args") (.bare (.object argsObject))
      [(.name "this", .bare (.object scope))]).keys.Nodup :=
    Fields.nodup_write (List.nodup_singleton _)
  rw [← Fields.find?_eq_none, hb.fields, Fields.find?_write_ne (by decide), Fields.write_null hv,
    Fields.find?_erase_self hnodup]

end Bindings

/-! ### Declared parameters and `it`

What the two theorems say of each argument that has been given. -/

section
variable {limits : Limits} {fuel : Nat} {m m₁ m' : Machine} {callee : Labeled} {args : CallArguments}
  {lambda : Lambda} {captured scope : ObjectId}

/-- **Declared parameters fit what is given once.**  When the body of a function starts, every declared parameter
fits the first argument under its key, and the object `args` holds the last one under each key, where null stands
for none.  So each declared parameter under a key that is given at most once, as every index is, fits what
`args` holds. -/
theorem parameters_fit_arguments_given_once (hm : m.Sound) (ha : args.Below m.heap.size)
    (hb : BodyStarts limits fuel m callee args lambda captured scope m₁ m') :
    invoke limits (fuel + 1) callee args m =
        ((runAll (evaluate limits fuel) lambda.body scope m').1,
          Eval.leave (runAll (evaluate limits fuel) lambda.body scope m').2) ∧
    ∃ entries m₂ argsObject, materialize (evaluate limits fuel) args m₁ = (.ok entries, m₂) ∧
      m'.heap.getField scope (.name "args") = .bare (.object argsObject) ∧
      (∀ p ∈ lambda.parameters, p.type.check m'.heap (entries.lookup p.key).value = .ok ()) ∧
      (∀ key, key ≠ .proto → (m'.heap.getOwn argsObject key).value = (entries.latest key).value) ∧
      (∀ p ∈ lambda.parameters, p.key ≠ .proto → args.keys.count p.key ≤ 1 →
        p.type.check m'.heap (m'.heap.getOwn argsObject p.key).value = .ok ()) ∧
      ∀ n, args.keys.count (.index n) ≤ 1 := by
  obtain ⟨entries, m₂, argsObject, hargs, hbound, hchecks⟩ := hb.bindings hm ha
  have hchained := (hb.sound hm ha).wellFormed.chained
  refine ⟨hb.invoke_eq, entries, m₂, argsObject, hargs, hbound.getField_args hchained, hchecks,
    hbound.args, fun p hp hkey honce => ?_, fun n => CallArguments.count_index_keysFrom n _ _⟩
  have hkeys : Fields.keys entries = args.keys := materializeFrom_keys hargs
  rw [hbound.args p.key hkey, Entries.latest_eq_lookup (hkeys ▸ honce)]
  exact hchecks p hp

end

/-- What a new machine has become after the evaluation of an expression. -/
def Machine.after (e : Expr) : Machine :=
  (evaluate {} 4 (e.lower { retain := false }) initial.global initial).2

theorem Machine.sound_after (e : Expr) : (after e).Sound :=
  (evaluate_safe {} 4 (Expr.lower_below _ _ e) sound_initial.global_lt initial sound_initial le_rfl).1

/-- A function with one declared parameter, a number under the name `a`. -/
def Expr.takesNumber : Expr := .function .nowhere [] [⟨.name "a", .primitive .number⟩] []

/-- The theorem at `f(a = 1)`. -/
theorem parameters_fit_arguments_given_once_number :
    let m := Machine.after .takesNumber
    let args := CallArguments.withSelf (.bare (.object 5)) [⟨some "a", .literal none (.number 1)⟩] 5
    let lambda : Lambda := ⟨[], [⟨.name "a", .primitive .number⟩], []⟩
    m.Sound ∧ args.Below m.heap.size ∧ ∃ m₁ m' argsObject,
      BodyStarts {} 1 m (.bare (.object 6)) args lambda 5 7 m₁ m' ∧
      m'.heap.getField 7 (.name "args") = .bare (.object argsObject) ∧
      Descriptor.check m'.heap (.primitive .number) (m'.heap.getOwn argsObject (.name "a")).value = .ok () := by
  intro m args lambda
  have hm : m.Sound := Machine.sound_after _
  have ha : args.Below m.heap.size := ⟨⟨(by decide : 5 < m.heap.size), trivial, trivial⟩, by decide⟩
  have hb : BodyStarts {} 1 m (.bare (.object 6)) args lambda 5 7 _ _ :=
    ⟨⟨6, rfl, rfl⟩, _, rfl, rfl, rfl⟩
  obtain ⟨-, -, -, argsObject, -, hargs, -, -, hfit, -⟩ := parameters_fit_arguments_given_once hm ha hb
  exact ⟨hm, ha, _, _, argsObject, hb, hargs,
    hfit ⟨.name "a", .primitive .number⟩ List.mem_cons_self (by decide) (by decide)⟩

/-- At `f(a = 1, a = "x")` the number is checked, and the body finds the string. -/
theorem repeated_argument_escapes_check :
    let f := Expr.takesNumber.lower { retain := false }
    let m := Machine.after .takesNumber
    let args := CallArguments.withSelf (.bare (.object 5))
      [⟨some "a", .literal none (.number 1)⟩, ⟨some "a", .literal none (.string "x")⟩] 5
    let lambda : Lambda := ⟨[], [⟨.name "a", .primitive .number⟩], []⟩
    evaluate {} 4 f 5 Machine.initial = (.ok (.bare (.object 6)), m) ∧ m.Sound ∧
      args.Below m.heap.size ∧ ∃ m₁ m', BodyStarts {} 1 m (.bare (.object 6)) args lambda 5 7 m₁ m' ∧
      m'.heap.getField 7 (.name "args") = .bare (.object 8) ∧
      (m'.heap.getOwn 8 (.name "a")).value = .string "x" ∧
      (Descriptor.check m'.heap (.primitive .number) (m'.heap.getOwn 8 (.name "a")).value).isOk = false := by
  intro f m args lambda
  have ha : args.Below m.heap.size := ⟨⟨(by decide : 5 < m.heap.size), trivial, trivial, trivial⟩, by decide⟩
  exact ⟨rfl, Machine.sound_after _, ha, _, _, ⟨⟨6, rfl, rfl⟩, _, rfl, rfl, rfl⟩, rfl, rfl, rfl⟩

section
variable {limits : Limits} {fuel : Nat} {m m₁ m' : Machine} {callee : Labeled} {args : CallArguments}
  {lambda : Lambda} {captured scope : ObjectId}

/-- **`it` is the first positional argument, if that is not null.**  Let the first positional argument of a call
evaluate to `v`, after the named arguments before it have been evaluated.  When the body of the function starts,
`it` yields `v` if that is not null, and if it is, the same as in the scope that the function was made in.  So it
yields `v` exactly if `v` is not null or `it` is null out there. -/
theorem it_is_first_positional_or_outer (hm : m.Sound) (ha : args.Below m.heap.size)
    (hb : BodyStarts limits fuel m callee args lambda captured scope m₁ m') {code : Code}
    (hcode : args.positional? 0 = some code) :
    invoke limits (fuel + 1) callee args m =
        ((runAll (evaluate limits fuel) lambda.body scope m').1,
          Eval.leave (runAll (evaluate limits fuel) lambda.body scope m').2) ∧
    ∃ before after values v k k', args.entries = before ++ ⟨none, code⟩ :: after ∧
      (∀ a ∈ before, a.name.isSome) ∧
      materializeFrom (evaluate limits fuel) args.scope 0 before m₁ = (.ok values, k) ∧
      evaluateLabeled (evaluate limits fuel) code args.scope k = (.ok v, k') ∧
      ∀ n origin,
        let it := Code.identifier origin "it"
        (v.value ≠ .null → evaluate limits (n + 1) it scope m' = (.ok v, m')) ∧
        (v.value = .null → evaluate limits (n + 1) it scope m' = evaluate limits (n + 1) it captured m') ∧
        ((∃ w, evaluate limits (n + 1) it scope m' = (.ok w, m') ∧ w.value = v.value) ↔
          v.value ≠ .null ∨ ∃ w, evaluate limits (n + 1) it captured m' = (.ok w, m') ∧ w.value = .null) := by
  -- the scope that the body starts in is found to be the one of the bindings
  have hchained := (hb.sound hm ha).wellFormed.chained
  obtain ⟨entries, m₂, argsObject, hargs, hbound, -⟩ := hb.bindings hm ha
  -- the first positional argument is evaluated after the named ones in front of it
  obtain ⟨before, after, values, v, k, k', hsplit, hnamed, hbefore, hv, hlookup⟩ :=
    materializeFrom_first hargs hcode
  have hit : entries.positional 0 = v := hlookup
  have hread : ∀ n origin id, evaluate limits (n + 1) (.identifier origin "it") id m' =
      (.ok (m'.heap.getField id (.name "it")), m') := fun _ _ _ => rfl
  refine ⟨hb.invoke_eq, before, after, values, v, k, k', hsplit, hnamed, hbefore, hv, fun n origin => ?_⟩
  simp only [hread]
  -- a binding to null is none, so the name is read in the scope around the function
  by_cases hnull : v.value = .null
  · have houter := hbound.getField_it_null hchained (hit ▸ hnull)
    rw [houter]
    refine ⟨fun hv => absurd hnull hv, fun _ => rfl, ?_⟩
    rw [hnull]
    exact ⟨.inr, fun h => h.resolve_left fun hv => hv rfl⟩
  · have hself := (hbound.getField_it hchained (hit ▸ hnull)).trans hit
    rw [hself]
    exact ⟨fun _ => rfl, fun hv => absurd hv hnull, fun _ => .inl hnull, fun _ => ⟨v, rfl, rfl⟩⟩

end

/-- A function made by a call whose first argument is `"x"`: the value of `{ { it } }("x")`. -/
def Expr.nested : Expr :=
  .call .nowhere (.function .nowhere [] [] [.function .nowhere [] [] [.identifier .nowhere "it"]])
    [⟨none, .literal .nowhere (.string "x")⟩] []

/-- The theorem where that function is called with a string. -/
theorem it_is_first_positional_or_outer_nested :
    let m := Machine.after .nested
    let args := CallArguments.ofValues [.bare (.string "y")] 5
    let lambda : Lambda := ⟨[], [], [.identifier none "it"]⟩
    m.Sound ∧ args.Below m.heap.size ∧ args.positional? 0 = some (.const (.bare (.string "y"))) ∧
      ∃ m₁ m', BodyStarts {} 1 m (.bare (.object 9)) args lambda 7 10 m₁ m' ∧
        evaluate {} 1 (.identifier none "it") 10 m' = (.ok (.bare (.string "y")), m') := by
  intro m args lambda
  have hm : m.Sound := Machine.sound_after _
  have ha : args.Below m.heap.size := ⟨⟨trivial, trivial⟩, by decide⟩
  have hb : BodyStarts {} 1 m (.bare (.object 9)) args lambda 7 10 _ _ :=
    ⟨⟨9, rfl, rfl⟩, _, rfl, rfl, rfl⟩
  obtain ⟨-, before, -, -, v, k, k', -, -, -, hv, hit⟩ :=
    it_is_first_positional_or_outer hm ha hb rfl
  cases hv
  exact ⟨hm, ha, rfl, _, _, hb, (hit 0 none).1 nofun⟩

/-- Called with null, it reads the argument of the call that made it. -/
theorem null_argument_uncovers_outer_it :
    let outer := Expr.nested.lower { retain := false }
    let m := Machine.after .nested
    let args := CallArguments.ofValues [.null] 5
    let lambda : Lambda := ⟨[], [], [.identifier none "it"]⟩
    evaluate {} 4 outer 5 Machine.initial = (.ok (.bare (.object 9)), m) ∧ m.Sound ∧
      args.Below m.heap.size ∧ args.positional? 0 = some (.const .null) ∧
      ∃ m₁ m', BodyStarts {} 1 m (.bare (.object 9)) args lambda 7 10 m₁ m' ∧
        evaluateLabeled (evaluate {} 1) (.const .null) 5 m₁ = (.ok .null, m₁) ∧
        evaluate {} 1 (.identifier none "it") 10 m' = (.ok (.bare (.string "x")), m') := by
  intro outer m args lambda
  have ha : args.Below m.heap.size := ⟨⟨trivial, trivial⟩, by decide⟩
  exact ⟨rfl, Machine.sound_after _, ha, rfl, _, _, ⟨⟨9, rfl, rfl⟩, _, rfl, rfl, rfl⟩, rfl, rfl⟩

end Protean
