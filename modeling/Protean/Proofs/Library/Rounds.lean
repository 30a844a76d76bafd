import Protean.Proofs.Library.Iteration

/-!
# Proofs — Library — rounds

The loop of `forEach`.  A helper binds its callback in its scope (`Iteration.Bound`), and `forEach` then counts
there.  A round tests its condition and comes to the call of the callback (`Iteration.calling`); what it does
afterwards is to count on (`Iteration.counted`).

What a callback does is not known, so the theorem about the loop is a rule (`Iteration.Carries.call`): an invariant
that every call of the callback carries from one round to the next holds in the end.  All that is asked of a call is
to succeed, and to leave the list, the two scopes and what the library relies on as they are
(`Iteration.Undisturbed`).

* `Iteration.Intact`: the library, the list and the callback are there.  It survives new objects, names that are not
  the library's, and every call that does not disturb (`Intact.invoked`).
* `Iteration.Call`, `Iteration.Entered`: a helper is called, and has received its arguments.
* `Iteration.Between`: the state between two rounds; `Between.test`, `Between.round` and `Between.next` are the
  parts of a round.
* `Iteration.Carries.loops`: the rounds that are left, by induction on their number.
-/

namespace Protean

/-- The objects are in the second machine what they are in the first. -/
def Machine.Keeps (p p' : Machine) (objects : List ObjectId) : Prop := ∀ x ∈ objects, p'.heap.get x = p.heap.get x

/-- `this.name = value` binds the name in the scope itself. -/
theorem Machine.Evaluates.bindThis {m m₁ : Machine} {scope : ObjectId} {name : String} {value : Code} {v : Labeled}
    (hv : m.Evaluates value scope v m₁) (horigin : value.origin = none) (hname : name ≠ "proto")
    (hthis : m₁.heap.getField scope (.name "this") = .bare (.object scope)) :
    m.Evaluates (.store none (Library.name "this") (.name name) value) scope v
      (m₁.withHeap (m₁.heap.define scope name v)) := by
  have hkey : Key.name name ≠ .proto := fun he => hname (Key.name.inj he)
  refine .store hv horigin (.reads hthis) ?_
  show m₁.heap.setOwn scope (.name name) v = _
  rw [Heap.setOwn, if_neg hkey]
  rfl

namespace Iteration

variable {i : Iteration} {p p' : Machine} {more : Fields} {k : Nat} {r v : Labeled} {x : ObjectId}

/-! ### What lasts

What is as it was from one round to the next: the library, the list and the scope of the helper. -/

/-- The library, the list and the callback are there. -/
structure Intact (i : Iteration) (p : Machine) : Prop where
  sound : p.Sound
  stocked : p.heap.Stocked i.global i.listProto
  list : p.heap.IsList i.listProto i.list i.elements
  callback : p.heap.IsFunction i.callback

namespace Intact

/-- New objects leave all of it in place. -/
theorem grows (hi : i.Intact p) (hs : p'.Sound) (hg : p.heap.Grows p'.heap) : i.Intact p' where
  sound := hs
  stocked := hi.stocked.grows hi.sound.wellFormed hs.wellFormed hg
  list := hi.list.of_get (hi.list.lt.trans_le hg.size_le) (hg.get_eq _ hi.list.lt)
  callback := hi.callback.extends hg.toExtends

theorem define (hi : i.Intact p) {name : String} (hx : x < p.heap.size) (hname : name ∉ Library.reserved)
    (hlist : i.list ≠ x) (hv : v.Below p.heap.size) : i.Intact (p.withHeap (p.heap.define x name v)) where
  sound := hi.sound.define hx (fun he => hname (he ▸ List.mem_cons_self)) hv
  stocked := hi.stocked.define hi.sound.wellFormed hname x v
  list := hi.list.of_get ((Heap.size_writeOwn ..).symm ▸ hi.list.lt) (Heap.get_writeOwn_ne hlist _ _)
  callback := hi.callback.extends (p.heap.extends_writeOwn ..)

/-- The calls that have been made so far, and how many are under way, do not count. -/
theorem of_heap (hi : i.Intact p) (hheap : p'.heap = p.heap) (hglobal : p'.global = p.global) : i.Intact p' := by
  obtain ⟨heap, global, steps, depth⟩ := p'
  obtain rfl : heap = p.heap := hheap
  obtain rfl : global = p.global := hglobal
  exact ⟨⟨hi.sound.consistent, hi.sound.global_lt⟩, hi.stocked, hi.list, hi.callback⟩

theorem callback_below (hi : i.Intact p) : i.callback.Below p.heap.size := by
  obtain ⟨id, code, captured, hid, hkind⟩ := hi.callback
  rw [Labeled.Below, hid]
  exact Heap.lt_of_function hkind

theorem element_below (hi : i.Intact p) (k : Nat) : (i.elements.getD k .null).Below p.heap.size := by
  rw [Labeled.Below, ← hi.list.getField_index hi.sound.wellFormed hi.stocked k]
  exact hi.sound.wellFormed.getField_below

/-- An element is what is read back where it is written: nulls have lost their sources already. -/
theorem element_stored (hi : i.Intact p) (k : Nat) :
    (i.elements.getD k .null).stored = i.elements.getD k .null := by
  rw [List.getD_eq_getElem?_getD]
  cases hv : i.elements[k]? with
  | none => rfl
  | some v => exact hi.list.elements.stored v (List.mem_of_getElem? hv)

/-- A call of the callback leaves a sound machine, whatever it does. -/
theorem invoke_sound (hi : i.Intact p) {caller : ObjectId} (hcaller : caller < p.heap.size)
    (hcall : p.Invokes i.callback (.callback caller (i.elements.getD k .null) k) r p') :
    p'.Sound ∧ p.heap.Extends p'.heap ∧ r.Below p'.heap.size :=
  hcall.sound hi.sound hi.callback_below ⟨⟨hcaller, hi.element_below k, trivial, trivial⟩, hcaller⟩

/-- What a call of the callback leaves. -/
theorem invoked (hi : i.Intact p) {caller : ObjectId} (hcaller : caller < p.heap.size)
    (hcall : p.Invokes i.callback (.callback caller (i.elements.getD k .null) k) r p')
    (hlist : p'.heap.get i.list = p.heap.get i.list) (hs : p'.heap.Stocked i.global i.listProto) :
    i.Intact p' ∧ p.heap.Extends p'.heap ∧ r.Below p'.heap.size := by
  obtain ⟨hsound, hext, hr⟩ := hi.invoke_sound hcaller hcall
  exact ⟨⟨hsound, hs, hi.list.of_get (hi.list.lt.trans_le hext.size_le) hlist, hi.callback.extends hext⟩, hext, hr⟩

end Intact

/-! ### The scope of a helper

The bindings of a helper when its body starts, and what its first expressions add to them. -/

/-- The helper has bound its callback, and more, in its scope. -/
structure Bound (i : Iteration) (more : Fields) (p : Machine) : Prop extends i.Intact p where
  frame : ∃ A, p.heap.get i.scope = i.frame A more

namespace Bound

theorem scope_lt (hb : i.Bound more p) : i.scope < p.heap.size := by
  obtain ⟨A, hF⟩ := hb.frame
  exact Heap.lt_of_get hF

theorem list_ne (hb : i.Bound more p) : i.list ≠ i.scope := by
  obtain ⟨A, hF⟩ := hb.frame
  exact hb.list.ne_scope hF

/-- New objects leave the scope as it is. -/
theorem grows (hb : i.Bound more p) (hs : p'.Sound) (hg : p.heap.Grows p'.heap) : i.Bound more p' :=
  ⟨hb.toIntact.grows hs hg, (hg.get_eq _ hb.scope_lt).symm ▸ hb.frame⟩

/-- How many calls have been made does not count. -/
theorem of_heap (hb : i.Bound more p) (hheap : p'.heap = p.heap) (hglobal : p'.global = p.global) :
    i.Bound more p' :=
  ⟨hb.toIntact.of_heap hheap hglobal, hheap ▸ hb.frame⟩

/-- The helper writes a name of its own in its scope. -/
theorem define {name : String} {more' : Fields} (hb : i.Bound more p) (hname : name ∉ Library.reserved)
    (hmore : ∀ A, (i.bindings A ++ more).write (.name name) v = i.bindings A ++ more')
    (hv : v.Below p.heap.size) : i.Bound more' (p.withHeap (p.heap.define i.scope name v)) := by
  obtain ⟨A, hF⟩ := hb.frame
  refine ⟨hb.toIntact.define hb.scope_lt hname hb.list_ne hv, A, ?_⟩
  show (p.heap.writeOwn i.scope (.name name) v).get i.scope = _
  rw [Heap.get_writeOwn_self hb.scope_lt, hF, Iteration.frame, hmore A, Iteration.frame]

/-- The names that the helper has not bound are read from outside. -/
theorem outer (hb : i.Bound more p) {name : String} (hname : name ≠ "proto")
    (hfind : ∀ A, (i.bindings A ++ more).find? (.name name) = none) :
    p.heap.getField i.scope (.name name) = p.heap.getField i.global (.name name) := by
  obtain ⟨A, hF⟩ := hb.frame
  exact hb.sound.wellFormed.chained.getField_outer hF (fun he => hname (Key.name.inj he)) (hfind A)

/-- The names that the helper has bound are read in its scope. -/
theorem reads (hb : i.Bound more p) {name : String} (hname : name ≠ "proto")
    (hfind : ∀ A, (i.bindings A ++ more).find? (.name name) = some v) :
    p.heap.getField i.scope (.name name) = v := by
  obtain ⟨A, hF⟩ := hb.frame
  exact hb.sound.wellFormed.chained.getField_found hF (fun he => hname (Key.name.inj he)) (hfind A)

end Bound

/-- The call of the helper has come to the body. -/
structure Entered (i : Iteration) (p : Machine) : Prop extends i.Intact p where
  scope : ∃ A, p.heap.get i.scope =
    ⟨.plain, Heap.scopeFields i.scope A [(.name "self", i.self), (.index 0, i.callback)], some i.global⟩

/-- The arguments of a call of a helper. -/
def arguments (i : Iteration) : Entries := [(.name "self", i.self), (.index 0, i.callback)]

theorem proto_not_mem_arguments (i : Iteration) : Key.proto ∉ Fields.keys i.arguments := by
  simp [arguments, Fields.keys, Key.proto]

/-- A helper has received its arguments. -/
def received (i : Iteration) (p : Machine) : Machine := p.withHeap (p.heap.bindCall i.scope i.arguments)

/-- A helper is called: `args` evaluate to the list and the callback, which at most adds objects. -/
structure Call (i : Iteration) (m : Machine) (args : CallArguments) (m₁ : Machine) : Prop where
  sound : m.Sound
  list : m.heap.IsList i.listProto i.list i.elements
  scope : i.scope = m.heap.size
  below : args.Below m.heap.size
  arguments : (m.opening i.global).Materializes args i.arguments m₁
  grows : (m.opening i.global).heap.Grows m₁.heap
  callback : m₁.heap.IsFunction i.callback

namespace Call

variable {m m₁ m₂ : Machine} {args : CallArguments}

/-- When the arguments are evaluated, the scope is still as it was opened. -/
theorem scope_get (hcall : i.Call m args m₁) :
    m₁.heap.get i.scope = ⟨.plain, [(.name "this", .bare (.object i.scope))], some i.global⟩ := by
  have hlt : i.scope < (m.opening i.global).heap.size := by
    rw [hcall.scope]
    exact (Heap.size_openScope m.heap i.global).symm ▸ Nat.lt_succ_self _
  rw [hcall.grows.get_eq _ hlt, hcall.scope]
  exact Heap.get_openScope_self ..

/-- Up to the body, a call has made objects and changed none. -/
theorem received_grows (hcall : i.Call m args m₁) : m.heap.Grows (i.received m₁).heap where
  size_le := by
    refine ((Heap.Grows.openScope m.heap i.global).trans hcall.grows).size_le.trans ?_
    exact (Heap.size_bindCall ..).symm ▸ Nat.le_succ _
  get_eq x hx := by
    have hgrows := (Heap.Grows.openScope m.heap i.global).trans hcall.grows
    have hne : x ≠ i.scope := hcall.scope ▸ Nat.ne_of_lt hx
    exact (Heap.get_bindCall_of_ne (hx.trans_le hgrows.size_le) hne).trans (hgrows.get_eq x hx)

/-- **A helper starts** with the library, the list and the callback in place. -/
theorem entered (hcall : i.Call m args m₁) (hs : m.heap.Stocked i.global i.listProto) :
    i.Entered (i.received m₁) := by
  have hglobal := hs.global_lt hcall.sound.wellFormed
  have hopening := hcall.sound.opening hglobal
  have hbelow := hcall.below.mono (Heap.Grows.openScope m.heap i.global).size_le
  obtain ⟨hsound, -, hentries⟩ := hcall.arguments.sound hopening hbelow
  have hscope : i.scope < m₁.heap.size := Heap.lt_of_get hcall.scope_get
  have hreceived : (i.received m₁).Sound := hsound.bindCall hscope hentries i.proto_not_mem_arguments
  have hgrows := hcall.received_grows
  refine ⟨⟨hreceived, hs.grows hcall.sound.wellFormed hreceived.wellFormed hgrows,
    hcall.list.of_get (hcall.list.lt.trans_le hgrows.size_le) (hgrows.get_eq _ hcall.list.lt),
    hcall.callback.extends (m₁.heap.extends_bindCall ..)⟩, _, Heap.get_bindCall_scope hscope hcall.scope_get _⟩

/-- What the body of a helper does is what its call does. -/
theorem invokes {name : String} {body : List Code} {m₂ : Machine} (hcall : i.Call m args m₁)
    (hs : m.heap.Stocked i.global i.listProto) (hhelper : (name, body) ∈ Library.helpers)
    (hbody : (i.received m₁).EvaluatesAll body i.scope v m₂) :
    m.Invokes (m.heap.getField i.list (.name name)) args v m₂.left := by
  obtain ⟨decorators, id, hread, hkind⟩ := hs.helpers _ hhelper
  have hnames : ∀ f ∈ Library.helpers, f.1 ≠ "length" ∧ f.1 ≠ "proto" := by simp [Library.helpers]
  obtain ⟨hlength, hproto⟩ := hnames _ hhelper
  rw [hcall.list.getField_name hcall.sound.wellFormed.chained hlength hproto, hread]
  exact .lambda rfl hkind rfl hcall.arguments i.proto_not_mem_arguments (hcall.scope ▸ hbody)

end Call

/-- The helper has bound its callback. -/
def stored (i : Iteration) (p : Machine) : Machine := p.withHeap (p.heap.define i.scope "callback" i.callback)

/-- The first statement of a helper binds its callback. -/
theorem Entered.stores (he : i.Entered p) :
    p.Evaluates (.store none (Library.name "this") (.name "callback") (Library.name "it")) i.scope i.callback
      (i.stored p) ∧ i.Bound [] (i.stored p) := by
  obtain ⟨A, hF⟩ := he.scope
  have hself : i.self.value.isNull = false := by rw [i.self_value]; rfl
  have hcallback : i.callback.value.isNull = false := by
    obtain ⟨id, -, -, hid, -⟩ := he.callback
    rw [hid]
    rfl
  have hfields : Heap.scopeFields i.scope A [(.name "self", i.self), (.index 0, i.callback)] =
      [(.name "this", .bare (.object i.scope)), (.name "args", .bare (.object A)), (.name "it", i.callback),
        (.name "self", i.self)] := by
    have hself' : Entries.self [(.name "self", i.self), (.index 0, i.callback)] = i.self := rfl
    have hfirst : Entries.positional [(.name "self", i.self), (.index 0, i.callback)] 0 = i.callback := rfl
    rw [Heap.scopeFields, hself', hfirst]
    have hobject : ∀ id, (Labeled.bare (.object id)).value.isNull = false := fun _ => rfl
    simp [Fields.write, Fields.put, hself, hcallback, hobject]
  have hc := he.sound.wellFormed.chained
  have hlt : i.scope < p.heap.size := Heap.lt_of_get hF
  have hlist : i.list ≠ i.scope := he.list.ne_scope (hF.trans (by rw [hfields]))
  rw [hfields] at hF
  refine ⟨.bindThis (.reads (hc.getField_found hF (by decide) rfl)) rfl (by decide)
      (hc.getField_found hF (by decide) rfl),
    he.toIntact.define hlt (by decide) hlist he.callback_below, A, ?_⟩
  show (p.heap.writeOwn i.scope (.name "callback") i.callback).get i.scope = _
  rw [Heap.get_writeOwn_self hlt, hF]
  simp [Fields.write, Fields.put, hcallback, frame, bindings]

/-! ### The stages of a round

The machine before the callback is called, behind it, and when the counter has been raised. -/

/-- Between two rounds, before round `k`. -/
def Between (i : Iteration) (k : Nat) (p : Machine) : Prop := i.Bound (counter k) p

/-- The condition has been tested, in a scope of its own. -/
def tested (i : Iteration) (p : Machine) : Machine := (p.inside i.scope []).charged.left

/-- The round has come to the call of the callback. -/
def calling (i : Iteration) (p : Machine) : Machine := ((i.tested p).inside i.scope []).charged

/-- The scope of the round. -/
def caller (i : Iteration) (p : Machine) : ObjectId := (i.tested p).heap.size

/-- The callback has been called, and the round has counted on. -/
def counted (i : Iteration) (k : Nat) (p : Machine) : Machine :=
  (p.charged.withHeap (p.heap.define i.scope "i" (.whole (k + 1)))).left

/-- What a call of the callback must not change. -/
def Undisturbed (i : Iteration) (p p' : Machine) : Prop :=
  (i.calling p).Keeps p' [i.scope, i.caller p, i.list] ∧ p'.heap.Stocked i.global i.listProto

theorem tested_grows (i : Iteration) (p : Machine) : p.heap.Grows (i.tested p).heap := .enter ..

theorem calling_grows (i : Iteration) (p : Machine) : p.heap.Grows (i.calling p).heap :=
  (i.tested_grows p).trans (.enter ..)

/-- Counting on changes the scope of the helper only. -/
theorem counted_get (hx : x ≠ i.scope) : (i.counted k p).heap.get x = p.heap.get x := Heap.get_writeOwn_ne hx _ _

theorem write_counter (i : Iteration) (A : ObjectId) (k k' : Nat) :
    (i.bindings A ++ counter k).write (.name "i") (.whole k') = i.bindings A ++ counter k' := by
  simp [Fields.write, Fields.put, bindings, counter, Labeled.whole, Labeled.bare, Value.isNull]

namespace Bound

/-- A scope inside of the helper's does not change that one. -/
theorem inside (hb : i.Bound more p) : i.Bound more (p.inside i.scope []) :=
  hb.grows (hb.sound.inside_nil hb.scope_lt) (.enter ..)

theorem tested (hb : i.Bound more p) : i.Bound more (i.tested p) := hb.inside.of_heap rfl rfl

theorem calling (hb : i.Bound more p) : i.Bound more (i.calling p) := hb.tested.inside.of_heap rfl rfl

end Bound

namespace Between

/-- In a scope inside of the helper's, the condition and the rounds find what they need. -/
theorem inFrame (hb : i.Between k p) : (p.inside i.scope []).heap.InFrame i p.heap.size k where
  chained := hb.inside.sound.wellFormed.chained
  frame := hb.inside.frame
  inner := ⟨_, Heap.get_enter_scope ..⟩

/-- The scope that the callback is called from is there. -/
theorem caller_lt (hb : i.Between k p) : i.caller p < (i.calling p).heap.size :=
  (inFrame (Bound.tested hb)).inner_lt

/-- **The test** says whether there is an element left. -/
theorem test (hb : i.Between k p) (hk : k < 2 ^ 53) (hn : i.elements.length < 2 ^ 53) {c : ObjectId}
    (hc : (p.heap.get c).kind = .function ⟨[], [], Library.condition⟩ i.scope) (scope : ObjectId) :
    p.Invokes (.bare (.object c)) (.ofValues [] scope) (.bare (.boolean (decide (k < i.elements.length))))
      (i.tested p) :=
  .block rfl hc (Machine.condition_evaluates hb.inFrame hb.inside.stocked hb.inside.list hk hn)

/-- The callback leaves the frame as it was. -/
theorem called (hb : i.Between k p)
    (hcall : (i.calling p).Invokes i.callback (.callback (i.caller p) (i.elements.getD k .null) k) r p')
    (hkeeps : i.Undisturbed p p') : i.Between k p' ∧ (i.calling p).heap.Extends p'.heap := by
  obtain ⟨hkeeps, hs'⟩ := hkeeps
  have hcalling : i.Between k (i.calling p) := Bound.calling hb
  obtain ⟨hintact, hext, -⟩ := hcalling.invoked hb.caller_lt hcall (hkeeps i.list (by simp)) hs'
  exact ⟨⟨hintact, by rw [hkeeps i.scope (by simp)]; exact hcalling.frame⟩, hext⟩

/-- **The next round** starts where the callback has left and the frame has counted on. -/
theorem next (hb : i.Between k p)
    (hcall : (i.calling p).Invokes i.callback (.callback (i.caller p) (i.elements.getD k .null) k) r p')
    (hkeeps : i.Undisturbed p p') :
    i.Between (k + 1) (i.counted k p') ∧ p.heap.Extends (i.counted k p').heap := by
  obtain ⟨hbound, hext⟩ := hb.called hcall hkeeps
  have hname : "i" ∉ Library.reserved := by decide
  refine ⟨(Bound.define hbound hname (i.write_counter · k (k + 1)) trivial).of_heap rfl rfl, ?_⟩
  exact ((i.calling_grows p).toExtends.trans hext).trans (p'.heap.extends_writeOwn ..)

/-- **A round** after its test. -/
theorem round (hb : i.Between k p) (hk : k + 1 < 2 ^ 53) {d : ObjectId}
    (hd : (p.heap.get d).kind = .function ⟨[], [], Library.round⟩ i.scope)
    (hcall : (i.calling p).Invokes i.callback (.callback (i.caller p) (i.elements.getD k .null) k) r p')
    (hkeeps : i.Undisturbed p p') (scope : ObjectId) :
    (i.tested p).Invokes (.bare (.object d)) (.ofValues [] scope) (.whole (k + 1)) (i.counted k p') := by
  obtain ⟨hbound, -⟩ := hb.called hcall hkeeps
  obtain ⟨hkeeps, hs'⟩ := hkeeps
  have htested : i.Between k (i.tested p) := Bound.tested hb
  have hin' : p'.heap.InFrame i (i.caller p) k :=
    htested.inFrame.of_get hbound.sound.wellFormed.chained (hkeeps i.scope (by simp))
      (hkeeps (i.caller p) (by simp))
  have hround := Machine.round_evaluates htested.inside.sound htested.inFrame htested.inside.stocked
    htested.inside.list hk htested.inside.callback hcall hin' hs'
  have hd' : ((i.tested p).heap.get d).kind = .function ⟨[], [], Library.round⟩ i.scope := by
    rw [(i.tested_grows p).get_eq d (Heap.lt_of_function hd), hd]
  exact .block rfl hd' hround

end Between

/-! ### The loop

Rounds are made until the counter has reached the length, by induction on the rounds to come. -/

section
variable {c d : ObjectId} {Inv : Nat → Machine → Prop}

/-- Every call of the callback succeeds, disturbs nothing, and carries the invariant on. -/
def Carries (i : Iteration) (Inv : Nat → Machine → Prop) : Prop :=
  ∀ k p, k < i.elements.length → i.Between k p → Inv k p →
    ∃ r p', (i.calling p).Invokes i.callback (.callback (i.caller p) (i.elements.getD k .null) k) r p' ∧
      i.Undisturbed p p' ∧ Inv (k + 1) (i.counted k p')

/-- **The rounds that are left**, by induction on their number. -/
theorem Carries.loops (hcarries : i.Carries Inv) (hn : i.elements.length < 2 ^ 53) (left : Nat) :
    ∀ {k p last}, k + left = i.elements.length → i.Between k p → Inv k p →
      (p.heap.get c).kind = .function ⟨[], [], Library.condition⟩ i.scope →
      (p.heap.get d).kind = .function ⟨[], [], Library.round⟩ i.scope →
      ∃ v p', Inv i.elements.length p' ∧ i.Between i.elements.length p' ∧ p'.heap.get i.list = p.heap.get i.list ∧
        p.Loops (.bare (.object c)) (.bare (.object d)) last v (i.tested p') := by
  induction left with
  | zero =>
    intro k p last hk hb hinv hc _
    obtain rfl : k = i.elements.length := hk
    have htest := hb.test hn hn hc p.global
    exact ⟨last, p, hinv, hb, rfl, .stop htest (by rw [decide_eq_false (Nat.lt_irrefl _)]; rfl)⟩
  | succ left ih =>
    intro k p last hk hb hinv hc hd
    have hlt : k < i.elements.length := by omega
    obtain ⟨r, p₁, hcall, hkeeps, hinv'⟩ := hcarries k p hlt hb hinv
    have htest := hb.test (hlt.trans hn) hn hc p.global
    have hround := hb.round (by omega) hd hcall hkeeps (i.tested p).global
    obtain ⟨hb', hext⟩ := hb.next hcall hkeeps
    have hkind : ∀ {x code}, (p.heap.get x).kind = .function code i.scope →
        ((i.counted k p₁).heap.get x).kind = .function code i.scope :=
      fun hx => (hext.kind_eq _ (Heap.lt_of_function hx)).trans hx
    have hlist : (i.counted k p₁).heap.get i.list = p.heap.get i.list := by
      rw [counted_get hb.list_ne, hkeeps.1 i.list (by simp), (i.calling_grows p).get_eq _ hb.list.lt]
    obtain ⟨v, p', hinvEnd, hend, hlist', hloops⟩ := ih (by omega) hb' hinv' (hkind hc) (hkind hd)
    exact ⟨v, p', hinvEnd, hend, hlist'.trans hlist, .again htest (by rw [decide_eq_true hlt]; rfl) hround hloops⟩

/-! ### The call

The body of the helper around its loop, and the call of the helper around its body. -/

/-- `forEach` has bound its counter. -/
def counting (i : Iteration) (p : Machine) : Machine :=
  (i.stored p).withHeap ((i.stored p).heap.define i.scope "i" (.whole 0))

/-- `forEach` has come to its loop. -/
def begun (i : Iteration) (p : Machine) : Machine :=
  ((i.counting p).entered.making Library.condition i.scope).making Library.round i.scope

namespace Bound

/-- A function that is made in the scope does not change it. -/
theorem making {codes : List Code} (hb : i.Bound more p) (hcodes : Code.BodyBelow p.heap.size codes) :
    i.Bound more (p.making codes i.scope) :=
  hb.grows (hb.sound.making hb.scope_lt hcodes) (p.making_grows codes i.scope)

/-- The functions of the library are found from the scope of a helper. -/
theorem provides (hb : i.Bound more p) {b : String × Builtin} (hmem : b ∈ Library.globals)
    (hfind : ∀ A, (i.bindings A ++ more).find? (.name b.1) = none) :
    p.heap.Provides i.scope b.1 (.builtin b.2 i.global) := by
  obtain ⟨id, hread, hkind⟩ := hb.stocked.globals b hmem
  have hname : ∀ b ∈ Library.globals, b.1 ≠ "proto" := by simp [Library.globals]
  exact ⟨id, (hb.outer (hname b hmem) hfind).trans hread, hkind⟩

end Bound

/-- Up to the loop, no object is removed. -/
theorem begun_extends (i : Iteration) (p : Machine) : p.heap.Extends (i.begun p).heap := by
  have hstored := p.heap.extends_writeOwn i.scope (.name "callback") i.callback
  have hcounting := (i.stored p).heap.extends_writeOwn i.scope (.name "i") (.whole 0)
  have htesting := (i.counting p).entered.making_grows Library.condition i.scope
  have hbegun := ((i.counting p).entered.making Library.condition i.scope).making_grows Library.round i.scope
  exact (hstored.trans hcounting).trans (htesting.trans hbegun).toExtends

/-- Before its loop, `forEach` has changed no object but its scope. -/
theorem begun_get (hx : x ≠ i.scope) (hlt : x < p.heap.size) : (i.begun p).heap.get x = p.heap.get x := by
  have htesting := (i.counting p).entered.making_grows Library.condition i.scope
  have hbegun := ((i.counting p).entered.making Library.condition i.scope).making_grows Library.round i.scope
  have hcounting : (i.counting p).heap.size = p.heap.size :=
    (Heap.size_writeOwn ..).trans (Heap.size_writeOwn ..)
  calc (i.begun p).heap.get x
    _ = (i.counting p).heap.get x := (htesting.trans hbegun).get_eq x (hcounting ▸ hlt)
    _ = (i.stored p).heap.get x := Heap.get_writeOwn_ne hx _ _
    _ = p.heap.get x := Heap.get_writeOwn_ne hx _ _

/-- Up to the loop, a call has made objects and changed none that was there before. -/
theorem Call.begun_grows {m m₁ : Machine} {args : CallArguments} (hcall : i.Call m args m₁) :
    m.heap.Grows (i.begun (i.received m₁)).heap where
  size_le := hcall.received_grows.size_le.trans (i.begun_extends _).size_le
  get_eq x hx :=
    (begun_get (hcall.scope ▸ Nat.ne_of_lt hx) (hx.trans_le hcall.received_grows.size_le)).trans
      (hcall.received_grows.get_eq x hx)

/-- `forEach` binds its counter. -/
theorem Entered.counts (he : i.Entered p) :
    (i.stored p).Evaluates (.store none (Library.name "this") (.name "i") (Library.whole 0)) i.scope (.whole 0)
      (i.counting p) ∧ i.Between 0 (i.counting p) := by
  have hbound := he.stores.2
  refine ⟨.bindThis (.literal _ _) rfl (by decide) (hbound.reads (by decide) fun A => rfl), ?_⟩
  exact hbound.define (by decide) (fun A => by
    simp [Fields.write, Fields.put, bindings, counter, Labeled.whole, Labeled.bare, Value.isNull]) trivial

theorem Entered.begun (he : i.Entered p) : i.Between 0 (i.begun p) := by
  have hcounting : i.Between 0 (i.counting p).entered := Bound.of_heap he.counts.2 rfl rfl
  have hcondition : ∀ n, Code.BodyBelow n Library.condition := by
    simp [Library.condition, Code.BodyBelow, Code.Below, Code.ArgsBelow]
  have hround : ∀ n, Code.BodyBelow n Library.round := by
    simp [Library.round, Code.BodyBelow, Code.Below, Code.ArgsBelow]
  exact (Bound.making hcounting (hcondition _)).making (hround _)

/-- The body of `forEach` runs the rounds and yields null. -/
theorem Carries.body_evaluates (hcarries : i.Carries Inv) (hn : i.elements.length < 2 ^ 53) (he : i.Entered p)
    (hinv : Inv 0 (i.begun p)) :
    ∃ p', Inv i.elements.length p' ∧ i.Between i.elements.length p' ∧
      p'.heap.get i.list = (i.begun p).heap.get i.list ∧
      p.EvaluatesAll Library.forEachBody i.scope .null (i.tested p').left := by
  obtain ⟨hcounter, hcounting⟩ := he.counts
  obtain ⟨w, hread, hkind⟩ := hcounting.provides (b := ("while", .loop)) (by simp [Library.globals]) fun A => rfl
  -- the two blocks are the next two objects
  let c := (i.counting p).entered.heap.size
  let d := ((i.counting p).entered.making Library.condition i.scope).heap.size
  have hargs : (i.counting p).entered.Materializes
      (.withSelf (.bare (.object i.scope)) [Library.positional (Library.block Library.condition),
        Library.positional (Library.block Library.round)] i.scope)
      [(.name "self", .bare (.object i.scope)), (.index 0, .bare (.object c)), (.index 1, .bare (.object d))]
      (i.begun p) :=
    .withSelf (.positional (.block _ _ _) rfl (.positional (.block _ _ _) rfl (.nil _)))
  have hc : ((i.begun p).heap.get c).kind = .function ⟨[], [], Library.condition⟩ i.scope := by
    have hmade := (i.counting p).entered.making_kind Library.condition i.scope
    have hgrows := ((i.counting p).entered.making Library.condition i.scope).making_grows Library.round i.scope
    rw [Iteration.begun, hgrows.get_eq c (Heap.lt_of_function hmade)]
    exact hmade
  have hd : ((i.begun p).heap.get d).kind = .function ⟨[], [], Library.round⟩ i.scope := Machine.making_kind ..
  have hcallable : ∀ {x code}, ((i.begun p).heap.get x).kind = .function code i.scope →
      (i.begun p).heap.isCallable (.object x) = true := fun {x code} hx => by
    rw [Heap.isCallable, hx]
    rfl
  -- the loop calls them until all elements have been passed
  obtain ⟨v, p', hinvEnd, hend, hlist, hloops⟩ :=
    hcarries.loops hn i.elements.length (Nat.zero_add _) he.begun hinv hc hd
  have hwhile : (i.counting p).Invokes (.bare (.object w)) _ v (i.tested p').left :=
    .loop rfl hkind hargs (hcallable hc) (hcallable hd) hloops
  -- the last expression of the helper is a name that is bound nowhere
  have hnull : (i.tested p').left.heap.getField i.scope (.name "null") = .null := by
    have htested := Bound.tested hend
    have hname : "null" ≠ "proto" := by decide
    have hglobal := htested.outer hname fun A => rfl
    exact hglobal.trans (htested.sound.wellFormed.getField_eq_null (by decide) htested.stocked.null_free)
  exact ⟨p', hinvEnd, hend, hlist, .cons he.stores.1 (.cons hcounter (.cons (.call (.reads hread) hwhile)
    (.single (.reads hnull))))⟩

/-- **A call of `forEach`.** -/
theorem Carries.call {m m₁ : Machine} {args : CallArguments} (hcarries : i.Carries Inv)
    (hn : i.elements.length < 2 ^ 53) (hcall : i.Call m args m₁) (hs : m.heap.Stocked i.global i.listProto)
    (hinv : Inv 0 (i.begun (i.received m₁))) :
    ∃ p', Inv i.elements.length p' ∧ i.Between i.elements.length p' ∧ p'.heap.get i.list = m.heap.get i.list ∧
      m.Invokes (m.heap.getField i.list (.name "forEach")) args .null (i.tested p').left.left := by
  obtain ⟨p', hinvEnd, hend, hlist, hbody⟩ := hcarries.body_evaluates hn (hcall.entered hs) hinv
  have hbefore := hcall.begun_grows.get_eq _ hcall.list.lt
  exact ⟨p', hinvEnd, hend, hlist.trans hbefore, hcall.invokes hs (by simp [Library.helpers]) hbody⟩

end

end Iteration

end Protean
