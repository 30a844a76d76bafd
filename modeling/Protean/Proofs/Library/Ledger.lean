import Protean.Proofs.Library.Lists
import Protean.Proofs.Library.Startup

/-!
# Proofs — Library — lists in use

What becomes of lists when any number of them is made and added to, in any order.  A `Ledger` keeps account of
what has been put into each of them, nulls included, and a `Session` is a sequence of calls of `list` and `add`
together with the ledger that goes with it.  The values that are put in can be anything, the lists themselves among
them, and one list can go by several names: a ledger knows lists by their place on the heap.

What holds in between is `Session.Kept`: every list on the ledger is a list of what has been put into it
(`Heap.IsList`), and of all that was there at first nothing has changed.  Each of the two functions keeps it up
(`Kept.make`, `Kept.add`), because a call has one result, so it holds after every session.  From this,
**lists keep their representation** (`lists_keep_their_representation`).
-/

namespace Protean

/-! ### Own fields of lists

Lists have the functions of lists by their prototype, as long as nobody has taken these away. -/

/-- The own fields of the object are its length, the number of values, and those of the values under their indices
that are not null. -/
structure Heap.Represents (h : Heap) (id : ObjectId) (values : List Labeled) : Prop where
  lt : id < h.size
  nodup : (h.fields id).keys.Nodup
  length : (h.fields id).find? (.name "length") = some (.whole values.length)
  index : ∀ i, (h.fields id).find? (.index i) = values[i]?.bind Labeled.field?
  name : ∀ name, name ≠ "length" → (h.fields id).find? (.name name) = none

/-- A list of what is stored for some values represents these values. -/
theorem Heap.IsList.represents {h : Heap} {listProto id : ObjectId} {values : List Labeled}
    (hl : h.IsList listProto id (values.map Labeled.stored)) (hw : h.WellFormed) : h.Represents id values where
  lt := hl.lt
  nodup := (hw.sound id).nodup
  length := by
    rw [hl.length, List.length_map]
  index i := by
    rw [hl.elements.index, List.getElem?_map]
    cases values[i]? with
    | none => rfl
    | some v => exact Labeled.field?_stored v
  name := hl.elements.name

/-! ### Calls of the two functions

What a call of `list` or `add` does to the machine, with its arguments evaluated. -/

/-- The positional entries are the values under their positions. -/
theorem materializeFrom_positionals {eval : Evaluator} {scope : ObjectId} : ∀ {args : List (Argument Code)} {n : Nat}
    {entries : Entries} {m m' : Machine}, materializeFrom eval scope n args m = (.ok entries, m') →
      entries.positionals = .indexed n (entries.positionals.map Prod.snd)
  | [], n, _, m, _, h => by
      cases h
      rfl
  | ⟨some name, code⟩ :: args, n, _, m, _, h => by
      obtain ⟨v, k, hv, h⟩ := Eval.bind_eq_ok.mp h
      obtain ⟨rest, k₁, hrest, h⟩ := Eval.bind_eq_ok.mp h
      cases h
      have hskip : Entries.positionals ((.name name, v) :: rest) = rest.positionals := rfl
      rw [hskip]
      exact materializeFrom_positionals hrest
  | ⟨none, code⟩ :: args, n, _, m, _, h => by
      obtain ⟨v, k, hv, h⟩ := Eval.bind_eq_ok.mp h
      obtain ⟨rest, k₁, hrest, h⟩ := Eval.bind_eq_ok.mp h
      cases h
      exact congrArg (List.cons (Key.index n, v)) (materializeFrom_positionals hrest)

namespace Machine

/-- A call of `list` with the positional values.  To evaluate the arguments changes nothing. -/
structure MakesList (m : Machine) (callee : Labeled) (args : CallArguments) (values : List Labeled) : Prop where
  callee : ∃ f, callee.value = .object f ∧ (m.heap.get f).kind = .builtin .list m.global
  below : args.Below m.heap.size
  entries : ∃ entries : Entries, m.entered.Materializes args entries m.entered ∧
    entries.positionals.map Prod.snd = values

/-- A call of `add` on the object with the value.  To evaluate the arguments changes nothing. -/
structure AddsTo (m : Machine) (callee : Labeled) (args : CallArguments) (id : ObjectId) (v : Labeled) : Prop where
  callee : ∃ f home, callee.value = .object f ∧ (m.heap.get f).kind = .builtin .listAdd home
  below : args.Below m.heap.size
  entries : ∃ entries : Entries, m.entered.Materializes args entries m.entered ∧
    entries.self.value = .object id ∧ entries.positional 0 = v

variable {m m' : Machine} {callee v : Labeled} {args : CallArguments} {values : List Labeled} {id listProto : ObjectId}

/-- A function that is found on the heap is there. -/
theorem callee_below {f home : ObjectId} {which : Builtin} (hf : callee.value = .object f)
    (hkind : (m.heap.get f).kind = .builtin which home) : callee.Below m.heap.size := by
  have hlt : f < m.heap.size := by
    by_contra hge
    rw [Heap.get_of_size_le (Nat.le_of_not_lt hge)] at hkind
    cases hkind
  rw [Labeled.Below, hf]
  exact hlt

/-- A call of `list` makes a list of the values, and nothing else. -/
theorem MakesList.invokes (hcall : m.MakesList callee args values)
    (hproto : m.heap.getField m.global (.name "listProto") = .bare (.object listProto)) :
    m.Invokes callee args (.bare (.object m.heap.size))
      (m.charged.withHeap (m.heap.alloc ⟨.plain, Fields.ofElements values, some listProto⟩).2) := by
  obtain ⟨⟨f, hf, hkind⟩, -, entries, hargs, rfl⟩ := hcall
  have hpositionals : entries.positionals = .indexed 0 (entries.positionals.map Prod.snd) := by
    obtain ⟨limits, fuel, hrun⟩ := hargs
    exact materializeFrom_positionals (hrun limits fuel (.refl _) le_rfl)
  exact .list hf hkind hargs hpositionals hproto

/-- A call of `add` puts the value behind the others, and changes nothing else. -/
theorem AddsTo.invokes (hcall : m.AddsTo callee args id v) (hl : m.heap.IsList listProto id values)
    (hc : m.heap.Chained) (hlt : values.length < 2 ^ 53) :
    m.Invokes callee args v (m.charged.withHeap (m.heap.appended id values.length v)) := by
  obtain ⟨⟨f, home, hf, hkind⟩, -, entries, hargs, hself, rfl⟩ := hcall
  exact .add hf hkind hargs hself hl hc hlt

end Machine

/-! ### Sessions

A ledger keeps the elements of all lists that a session has made, by what has been asked for only. -/

/-- What has been put into the lists, in order; nothing for what is no list of this ledger. -/
def Ledger := ObjectId → Option (List Labeled)

namespace Ledger

/-- A ledger without lists. -/
def empty : Ledger := fun _ => none

/-- The ledger with the values of one list written anew. -/
def enter (L : Ledger) (id : ObjectId) (values : List Labeled) : Ledger :=
  fun x => if x = id then some values else L x

/-- What has been entered for a list is on the ledger. -/
theorem enter_self (L : Ledger) (id : ObjectId) (values : List Labeled) : L.enter id values id = some values :=
  if_pos rfl

end Ledger

/-- From the machine `m` on, lists have been made and added to; the ledger says what has been put into them.  Doubles
count exactly as long as a list that is added to has fewer than 2^53 values. -/
inductive Machine.Session (m : Machine) : Ledger → Machine → Prop where
  | start : m.Session .empty m
  | make {L : Ledger} {p p' : Machine} {callee : Labeled} {args : CallArguments} {values : List Labeled}
      {id : ObjectId} (session : m.Session L p) (call : p.MakesList callee args values)
      (result : p.Invokes callee args (.bare (.object id)) p') : m.Session (L.enter id values) p'
  | add {L : Ledger} {p p' : Machine} {callee v r : Labeled} {args : CallArguments} {id : ObjectId}
      {values : List Labeled} (session : m.Session L p) (call : p.AddsTo callee args id v)
      (listed : L id = some values) (room : values.length < 2 ^ 53) (result : p.Invokes callee args r p') :
      m.Session (L.enter id (values ++ [v])) p'

namespace Machine.Session

/-- What holds in a session that started on `m`. -/
structure Kept (m : Machine) (listProto : ObjectId) (L : Ledger) (p : Machine) : Prop where
  sound : p.Sound
  binding : p.heap.getField p.global (.name "listProto") = .bare (.object listProto)
  lists : ∀ id values, L id = some values → p.heap.IsList listProto id (values.map Labeled.stored)
  made : ∀ id values, L id = some values → m.heap.size ≤ id
  grows : m.heap.Grows p.heap

variable {m p : Machine} {L : Ledger} {listProto id : ObjectId} {callee v : Labeled} {args : CallArguments}
  {values : List Labeled}

/-- An empty ledger is kept on any machine with the prototype of lists. -/
theorem Kept.start (hm : m.Sound)
    (hbinding : m.heap.getField m.global (.name "listProto") = .bare (.object listProto)) :
    Kept m listProto .empty m where
  sound := hm
  binding := hbinding
  lists _ _ h := by cases h
  made _ _ h := by cases h
  grows := .refl _

/-- **A new list** is put on the ledger, and no object that is there changes. -/
theorem Kept.make (hk : Kept m listProto L p) (hcall : p.MakesList callee args values) :
    ∃ p', p.Invokes callee args (.bare (.object p.heap.size)) p' ∧ p.heap.Grows p'.heap ∧
      Kept m listProto (L.enter p.heap.size values) p' := by
  let h' := (p.heap.alloc ⟨.plain, Fields.ofElements values, some listProto⟩).2
  have hinvokes := hcall.invokes hk.binding
  obtain ⟨f, hf, hkind⟩ := hcall.callee
  have hsound : (p.charged.withHeap h').Sound := (hinvokes.sound hk.sound (callee_below hf hkind) hcall.below).1
  have hgrows : p.heap.Grows h' := .alloc ..
  refine ⟨p.charged.withHeap h', hinvokes, hgrows, hsound, ?binding, ?lists, ?made, hk.grows.trans hgrows⟩
  case binding =>
    exact (hgrows.getField hk.sound.wellFormed hsound.wellFormed hk.sound.global_lt _).trans hk.binding
  case lists =>
    intro id vs hid
    rw [Ledger.enter] at hid
    split_ifs at hid with heq
    · subst heq
      cases hid
      exact p.heap.isList_ofElements listProto values
    · have hl := hk.lists id vs hid
      exact hl.of_get (hl.lt.trans_le hgrows.size_le) (hgrows.get_eq id hl.lt)
  case made =>
    intro id vs hid
    rw [Ledger.enter] at hid
    split_ifs at hid with heq
    · exact heq ▸ hk.grows.size_le
    · exact hk.made id vs hid

/-- **One more value** is entered under its list, and no other object changes. -/
theorem Kept.add (hk : Kept m listProto L p) (hcall : p.AddsTo callee args id v) (hlisted : L id = some values)
    (hlt : values.length < 2 ^ 53) :
    ∃ p', p.Invokes callee args v p' ∧ p'.heap.size = p.heap.size ∧
      (∀ x, x ≠ id → p'.heap.get x = p.heap.get x) ∧ Kept m listProto (L.enter id (values ++ [v])) p' := by
  have hl := hk.lists id values hlisted
  have hlength : (values.map Labeled.stored).length = values.length := List.length_map _
  have hinvokes := hcall.invokes hl hk.sound.wellFormed.chained (hlength ▸ hlt)
  have hnext := hl.appended v
  obtain ⟨f, home, hf, hkind⟩ := hcall.callee
  have hsound := (hinvokes.sound hk.sound (callee_below hf hkind) hcall.below).1
  rw [hlength] at hinvokes hnext hsound
  let h' := p.heap.appended id values.length v
  have hsize : h'.size = p.heap.size := Heap.size_appended ..
  have hother : ∀ x, x ≠ id → h'.get x = p.heap.get x := fun x hx => Heap.get_appended_ne hx _ v
  refine ⟨p.charged.withHeap h', hinvokes, hsize, hother, hsound, ?binding, ?lists, ?made, ?grows⟩
  case binding =>
    -- neither an index nor the length is the name of the prototype
    have hread : h'.getField p.global (.name "listProto") = p.heap.getField p.global (.name "listProto") :=
      (Heap.getField_writeOwn_frame (.inl (by decide)) _).trans (Heap.getField_writeOwn_frame (.inl Key.noConfusion) v)
    exact hread.trans hk.binding
  case lists =>
    intro x vs hx
    rw [Ledger.enter] at hx
    split_ifs at hx with heq
    · subst heq
      cases hx
      rw [List.map_append]
      exact hnext
    · have hlx := hk.lists x vs hx
      exact hlx.of_get (hsize ▸ hlx.lt) (hother x heq)
  case made =>
    intro x vs hx
    rw [Ledger.enter] at hx
    split_ifs at hx with heq
    · exact heq ▸ hk.made id values hlisted
    · exact hk.made x vs hx
  case grows =>
    refine ⟨hsize ▸ hk.grows.size_le, fun x hx => ?_⟩
    have hne : x ≠ id := Nat.ne_of_lt (hx.trans_le (hk.made id values hlisted))
    exact (hother x hne).trans (hk.grows.get_eq x hx)

/-- A session keeps all of it, by induction on its calls. -/
theorem kept (h : m.Session L p) (hm : m.Sound)
    (hbinding : m.heap.getField m.global (.name "listProto") = .bare (.object listProto)) :
    Kept m listProto L p := by
  induction h with
  | start => exact .start hm hbinding
  | make session call result ih =>
    obtain ⟨p', hinvokes, -, hkept⟩ := ih.make call
    obtain ⟨hid, rfl⟩ := result.unique hinvokes
    cases hid
    exact hkept
  | add session call listed room result ih =>
    obtain ⟨p', hinvokes, -, -, hkept⟩ := ih.add call listed room
    obtain ⟨-, rfl⟩ := result.unique hinvokes
    exact hkept

end Machine.Session

/-! ### Every session

The lists on the heap are those of the ledger, whatever the session was. -/

/-- **Lists keep their representation.**  Start from any machine on which `listProto` is bound as it was when the
machine had started up, and let any number of lists be made and added to:

* the own fields of every list are exactly its length and those of its values that are not null;
* what was there before is as it was;
* `list` yields a new object and changes none that is there;
* `add` yields the value that it was given and changes the one list only.

With budget enough, these calls always succeed. -/
theorem lists_keep_their_representation {m₀ m p : Machine} {L : Ledger} (hm₀ : m₀.Started) (hm : m.Sound)
    (hbinding : m.heap.getField m.global (.name "listProto") = m₀.heap.getField m₀.global (.name "listProto"))
    (h : m.Session L p) :
    (∀ id values, L id = some values → p.heap.Represents id values) ∧
    (∀ x < m.heap.size, p.heap.get x = m.heap.get x) ∧
    (∀ callee args values, p.MakesList callee args values →
      ∃ p', p.Invokes callee args (.bare (.object p.heap.size)) p' ∧
        m.Session (L.enter p.heap.size values) p' ∧ ∀ x < p.heap.size, p'.heap.get x = p.heap.get x) ∧
    (∀ callee args id v values, p.AddsTo callee args id v → L id = some values → values.length < 2 ^ 53 →
      ∃ p', p.Invokes callee args v p' ∧ m.Session (L.enter id (values ++ [v])) p' ∧
        p'.heap.size = p.heap.size ∧ ∀ x, x ≠ id → p'.heap.get x = p.heap.get x) := by
  have hkept := h.kept hm (hbinding.trans hm₀.stocked.prototype)
  refine ⟨fun id values hid => ?_, fun x hx => hkept.grows.get_eq x hx, fun callee args values hcall => ?_,
    fun callee args id v values hcall hlisted hlt => ?_⟩
  · exact (hkept.lists id values hid).represents hkept.sound.wellFormed
  · obtain ⟨p', hinvokes, hgrows, -⟩ := hkept.make hcall
    exact ⟨p', hinvokes, .make h hcall hinvokes, hgrows.get_eq⟩
  · obtain ⟨p', hinvokes, hsize, hother, -⟩ := hkept.add hcall hlisted hlt
    exact ⟨p', hinvokes, .add h hcall hlisted hlt hinvokes, hsize, hother⟩

/-- A list that has been made of null and then put into itself. -/
theorem lists_keep_their_representation_nested : ∃ (m p : Machine) (L : Ledger) (id : ObjectId),
    m.Started ∧ m.Session L p ∧ L id = some [.null, .bare (.object id)] ∧
      p.heap.Represents id [.null, .bare (.object id)] := by
  obtain ⟨modules, i, m, hmodules, hi, hboot, -⟩ := Library.exists_started_stocked
  have hm : m.Started := ⟨modules, i, {}, hmodules, hi, hboot⟩
  have hglobal := hm.sound.global_lt
  have below {f x : ObjectId} {name : String} (hf : m.heap.getField x (.name name) = .bare (.object f)) :
      f < m.heap.size := by
    have hbelow : (m.heap.getField x (.name name)).value.Below m.heap.size := hm.sound.wellFormed.getField_below
    rwa [hf] at hbelow
  -- `list(null)`
  obtain ⟨f, -, hkind⟩ := hm.stocked.globals ("list", .list) (by simp [Library.globals])
  have hmake : m.MakesList (.bare (.object f))
      (.withSelf (.bare (.object m.global)) [⟨none, .const .null⟩] m.global) [.null] :=
    ⟨⟨f, rfl, hkind⟩, ⟨⟨hglobal, trivial, trivial⟩, hglobal⟩, _, .withSelf (.positional (.const _ _) rfl (.nil _)), rfl⟩
  obtain ⟨-, -, hlist, -⟩ := lists_keep_their_representation hm hm.sound rfl .start
  obtain ⟨p, -, hsession, hkeeps⟩ := hlist _ _ _ hmake
  obtain ⟨hrepresents, -, -, hadd⟩ := lists_keep_their_representation hm hm.sound rfl hsession
  have hlisted := Ledger.empty.enter_self m.heap.size [.null]
  -- `l.add(l)`
  obtain ⟨g, hg, hkind'⟩ := hm.stocked.methods ("add", .listAdd) (by simp [Library.methods])
  have hlt := (hrepresents _ _ hlisted).lt
  have hcall : p.AddsTo (.bare (.object g)) (.withSelf (.bare (.object m.heap.size))
      [⟨none, .const (.bare (.object m.heap.size))⟩] m.heap.size) m.heap.size (.bare (.object m.heap.size)) :=
    ⟨⟨g, m.global, rfl, (congrArg Object.kind (hkeeps g (below hg))).trans hkind'⟩, ⟨⟨hlt, hlt, trivial⟩, hlt⟩, _,
      .withSelf (.positional (.const _ _) rfl (.nil _)), rfl, rfl⟩
  obtain ⟨p', -, hsession', -⟩ := hadd _ _ _ _ _ hcall hlisted (by decide)
  have hlisted' := Ledger.enter_self (Ledger.empty.enter m.heap.size [.null]) m.heap.size
    [.null, .bare (.object m.heap.size)]
  exact ⟨m, p', _, m.heap.size, hm, hsession', hlisted',
    (lists_keep_their_representation hm hm.sound rfl hsession').1 _ _ hlisted'⟩

end Protean
