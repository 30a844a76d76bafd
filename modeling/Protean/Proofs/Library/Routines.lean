import Protean.Proofs.Library.Collect
import Protean.Proofs.Library.Startup

/-!
# Proofs — Library — routines

A helper calls its callback from scopes of its own, and in between it does its bookkeeping; a `Routine` says how.
`Routine.Calls` are the calls that have been made so far, in order, each with the next element and its index.

What is asked of the calls is said with a routine, too, since it is asked of those calls only which are made:

* `Routine.Unfailing`: each succeeds, and leaves alone what is the helper's, the list, and the library, which has to
  be unobstructed (`Machine.Unobstructed`).
* `Routine.Decides`: each yields a boolean.

Under these conditions the rules for `forEach`, `map` and `filter` apply, with the calls that have been made for
invariant (`Iteration.forEach_invokes`, `Iteration.map_collects`, `Iteration.filter_collects`).

For a callback that changes nothing and whose result is known (`Machine.Answers`), the conditions are consequences:
all that the helpers write themselves is new (`Routine.Orderly`), so every call finds the machine as the helper found
it, but for new objects.
-/

namespace Protean

/-! ### The library unmodified

What is asked for of the library while callbacks run: all bindings that it relies on, and nothing in their
way. -/

/-- The bindings of the library are unmodified: all that could be read on the machine that has started up is still
read. -/
structure Machine.Unmodified (m₀ : Machine) (h : Heap) : Prop where
  extended : m₀.heap.Extends h
  bindings : ∀ id < m₀.heap.size, ∀ key, (m₀.heap.getField id key).value ≠ .null →
    h.getField id key = m₀.heap.getField id key

/-- Besides, the library is not *obstructed*: where the helpers read what nobody has bound, it is still not bound.
They end by reading `null`, which is but a name, and they read the elements of lists, which lists would inherit.
Neither is a binding of the library (`list_helpers_need_more`). -/
structure Machine.Unobstructed (m₀ : Machine) (h : Heap) : Prop extends m₀.Unmodified h where
  null_free : (h.getField m₀.global (.name "null")).value = .null
  index_free : ∀ n, (h.getField Library.listProto (.index n)).value = .null

namespace Machine

variable {m₀ : Machine} {h : Heap}

/-- A machine that has just started up. -/
theorem Started.unobstructed (hm₀ : m₀.Started) : m₀.Unobstructed m₀.heap where
  extended := .refl _
  bindings _ _ _ _ := rfl
  null_free := hm₀.stocked.null_free
  index_free := hm₀.stocked.index_free

namespace Unobstructed

/-- Then the heap has all that the helpers rely on. -/
theorem stocked (hu : m₀.Unobstructed h) (hm₀ : m₀.Started) (hw : h.WellFormed) :
    h.Stocked m₀.global Library.listProto := by
  have hs := hm₀.stocked
  have hw₀ := hm₀.sound.wellFormed
  refine hs.of_reads hw₀ hu.extended fun id key hr => ?_
  by_cases hnull : id = m₀.global ∧ key = .name "null"
  · obtain ⟨rfl, rfl⟩ := hnull
    rw [hw.getField_eq_null (by decide) hu.null_free, hw₀.getField_eq_null (by decide) hs.null_free]
  by_cases hindex : id = Library.listProto ∧ ∃ n, key = .index n
  · obtain ⟨rfl, n, rfl⟩ := hindex
    rw [hw.getField_eq_null (Key.index_ne_proto n) (hu.index_free n),
      hw₀.getField_eq_null (Key.index_ne_proto n) (hs.index_free n)]
  have hlt : id < m₀.heap.size := by
    rcases hr with ⟨rfl, -⟩ | ⟨rfl, -⟩
    · exact hs.global_lt hw₀
    · exact hs.listProto_lt hw₀
  exact hu.bindings id hlt key (hs.relied_ne_null hr hnull hindex)

/-- New objects obstruct nothing. -/
theorem grows {h' : Heap} (hu : m₀.Unobstructed h) (hm₀ : m₀.Started) (hw : h.WellFormed)
    (hw' : h'.WellFormed) (hg : h.Grows h') : m₀.Unobstructed h' := by
  have hs := hu.stocked hm₀ hw
  refine ⟨⟨hu.extended.trans hg.toExtends, fun id hid key hkey => ?_⟩, ?_, fun n => ?_⟩
  · rw [hg.getField hw hw' (hid.trans_le hu.extended.size_le), hu.bindings id hid key hkey]
  · rw [hg.getField hw hw' (hs.global_lt hw), hu.null_free]
  · rw [hg.getField hw hw' (hs.listProto_lt hw), hu.index_free]

end Unobstructed

end Machine

/-! ### The calls of a callback

A helper as a routine: the machine before each call, and the machine behind it, which the next call starts
from. -/

/-- How a helper calls its callback. -/
structure Routine where
  callback : Labeled
  elements : List Labeled
  /-- The machine before the first round. -/
  start : Machine
  /-- The machine on which round `k` calls the callback, from the machine before the round. -/
  calling : Nat → Machine → Machine
  /-- The scope that the callback is called from. -/
  caller : Machine → ObjectId
  /-- The list and the helper's own objects. -/
  own : Machine → List ObjectId
  /-- The machine before the next round: from the results so far, the machine before this round, its result and the
  machine that the callback has left. -/
  next : List Labeled → Machine → Labeled → Machine → Machine
  /-- What the helper leaves, from the machine after the last round. -/
  finish : Machine → Machine

namespace Routine

/-- After the results `rs`, the callback is called with the next element and its index, and yields `r`. -/
def Yields (s : Routine) (rs : List Labeled) (p : Machine) (r : Labeled) (p' : Machine) : Prop :=
  (s.calling rs.length p).Invokes s.callback
    (.callback (s.caller p) (s.elements.getD rs.length .null) rs.length) r p'

/-- The calls that have been made before a round, in order. -/
inductive Calls (s : Routine) : List Labeled → Machine → Prop
  | start : s.Calls [] s.start
  | call {rs : List Labeled} {p p' : Machine} {r : Labeled} (hcalls : s.Calls rs p)
      (hleft : rs.length < s.elements.length) (hr : s.Yields rs p r p') : s.Calls (rs ++ [r]) (s.next rs p r p')

/-- Every call that is made succeeds, and leaves the helper's own objects as they are and the library unobstructed;
the list it leaves as it is, with its link to the prototype of lists. -/
def Unfailing (s : Routine) (m₀ : Machine) : Prop :=
  ∀ rs p, s.Calls rs p → rs.length < s.elements.length →
    ∃ r p', s.Yields rs p r p' ∧ (s.calling rs.length p).Keeps p' (s.own p) ∧ m₀.Unobstructed p'.heap

/-- Every call that is made yields a boolean. -/
def Decides (s : Routine) : Prop :=
  ∀ rs p r p', s.Calls rs p → rs.length < s.elements.length → s.Yields rs p r p' → ∃ b, r.value = .boolean b

end Routine

/-! ### The helpers

What the three helpers come to, for callbacks whose calls never fail. -/

namespace Iteration

variable {j : Iteration} {m₀ m m₁ : Machine} {args : CallArguments} {F R : ObjectId} {first : Machine}

/-- The library is as it was when the machine had started up. -/
theorem stocked_of_unobstructed (hm₀ : m₀.Started) (hglobal : j.global = m₀.global)
    (hproto : j.listProto = Library.listProto) {p : Machine} (hp : p.Sound) (hu : m₀.Unobstructed p.heap) :
    p.heap.Stocked j.global j.listProto :=
  hglobal ▸ hproto ▸ hu.stocked hm₀ hp.wellFormed

/-- How `forEach` calls the callback, once its arguments are evaluated. -/
def forEach (j : Iteration) (m₁ : Machine) : Routine where
  callback := j.callback
  elements := j.elements
  start := j.begun (j.received m₁)
  calling _ p := j.calling p
  caller := j.caller
  own p := [j.scope, j.caller p, j.list]
  next rs _ _ p' := j.counted rs.length p'
  finish p := (j.tested p).left.left

/-- **`forEach` makes all of its calls**, if none fails: the calls that have been made are the invariant. -/
theorem forEach_invokes (hm₀ : m₀.Started) (hglobal : j.global = m₀.global)
    (hproto : j.listProto = Library.listProto) (hlib : m₀.Unobstructed m.heap) (hn : j.elements.length < 2 ^ 53)
    (hcall : j.Call m args m₁) (hf : (j.forEach m₁).Unfailing m₀) :
    ∃ rs p, (j.forEach m₁).Calls rs p ∧ rs.length = j.elements.length ∧
      m.Invokes (m.heap.getField j.list (.name "forEach")) args .null ((j.forEach m₁).finish p) ∧
      ((j.forEach m₁).finish p).heap.get j.list = m.heap.get j.list := by
  have hcarries : j.Carries fun k p => ∃ rs, rs.length = k ∧ (j.forEach m₁).Calls rs p := by
    rintro k p hk hb ⟨rs, rfl, hcalls⟩
    obtain ⟨r, p', hr, hkeeps, hlib'⟩ := hf rs p hcalls hk
    have hcalling : j.Between rs.length (j.calling p) := Bound.calling hb
    obtain ⟨hsound, -⟩ := hcalling.invoke_sound hb.caller_lt hr
    exact ⟨r, p', hr, ⟨hkeeps, stocked_of_unobstructed hm₀ hglobal hproto hsound hlib'⟩, rs ++ [r], by simp,
      .call hcalls hk hr⟩
  obtain ⟨p, ⟨rs, hrs, hcalls⟩, hend, hlist, hinvokes⟩ :=
    hcarries.call hn hcall (stocked_of_unobstructed hm₀ hglobal hproto hcall.sound hlib) ⟨[], rfl, .start⟩
  have hsame : ((j.forEach m₁).finish p).heap.get j.list = p.heap.get j.list :=
    (j.tested_grows p).get_eq _ hend.list.lt
  exact ⟨rs, p, hcalls, hrs, hinvokes, hsame.trans hlist⟩

/-- How `map` calls the callback: `F` is the scope of its inner iteration and `R` the new list. -/
def mapRoutine (j : Iteration) (F R : ObjectId) (first : Machine) : Routine where
  callback := j.callback
  elements := j.elements
  start := first
  calling k p := j.mapping F k p
  caller p := j.roundScope F p
  own p := [F, (j.inner F).caller p, j.list, j.scope, R]
  next rs _ r p' := (j.inner F).counted rs.length (mapped R rs.length r p')
  finish p := ((j.inner F).tested p).left.left.left

/-- A round of `map` makes the next call and collects its result. -/
theorem map_collects (hm₀ : m₀.Started) (hglobal : j.global = m₀.global)
    (hproto : j.listProto = Library.listProto) (hn : j.elements.length < 2 ^ 53)
    (hf : (j.mapRoutine F R first).Unfailing m₀) :
    j.Collects F R Library.mapRound fun k acc p =>
      ∃ rs, rs.length = k ∧ acc = rs.map Labeled.stored ∧ (j.mapRoutine F R first).Calls rs p := by
  rintro k acc p hk hb hc ⟨rs, rfl, rfl, hcalls⟩
  obtain ⟨r, p', hr, hkeeps, hlib'⟩ := hf rs p hcalls hk
  have hcalls' : (j.mapRoutine F R first).Calls (rs ++ [r])
      ((j.inner F).counted rs.length (mapped R rs.length r p')) := hcalls.call hk hr
  dsimp only [Routine.Yields, mapRoutine] at hr hkeeps
  obtain ⟨hsound, -⟩ := (hc.mapping_bound hb).invoke_sound (hc.mapping_scope hb) hr
  have hlt : (rs.map Labeled.stored).length + 1 < 2 ^ 53 := by
    rw [List.length_map]
    omega
  obtain ⟨hinvokes, hundisturbed, hc'⟩ :=
    hc.map_round hb hlt hr hkeeps (stocked_of_unobstructed hm₀ hglobal hproto hsound hlib')
  rw [List.length_map] at hinvokes hundisturbed hc'
  exact ⟨r, _, _, hinvokes, hundisturbed, hc', rs ++ [r], by simp, by simp, hcalls'⟩

/-- How `filter` calls the callback. -/
def filterRoutine (j : Iteration) (F R : ObjectId) (first : Machine) : Routine where
  callback := j.callback
  elements := j.elements
  start := first
  calling k p := j.filtering F k p
  caller p := j.roundScope F p
  own p := [F, (j.inner F).caller p, j.list, j.scope, R, j.roundScope F p, j.roundScope F p + 1]
  next rs p r p' := (j.inner F).counted rs.length
    (filtered (j.roundScope F p) R (selection j.elements rs).length (j.elements.getD rs.length .null) r p')
  finish p := ((j.inner F).tested p).left.left.left

/-- A round of `filter` makes the next call and collects the element if the result is true. -/
theorem filter_collects (hm₀ : m₀.Started) (hglobal : j.global = m₀.global)
    (hproto : j.listProto = Library.listProto) (hn : j.elements.length < 2 ^ 53)
    (hf : (j.filterRoutine F R first).Unfailing m₀) (hboolean : (j.filterRoutine F R first).Decides) :
    j.Collects F R Library.filterRound fun k acc p =>
      ∃ rs, rs.length = k ∧ acc = selection j.elements rs ∧ (j.filterRoutine F R first).Calls rs p := by
  rintro k acc p hk hb hc ⟨rs, rfl, rfl, hcalls⟩
  obtain ⟨r, p', hr, hkeeps, hlib'⟩ := hf rs p hcalls hk
  obtain ⟨b, hb'⟩ := hboolean rs p r p' hcalls hk hr
  have hcalls' : (j.filterRoutine F R first).Calls (rs ++ [r]) ((j.inner F).counted rs.length
      (filtered (j.roundScope F p) R (selection j.elements rs).length (j.elements.getD rs.length .null) r p')) :=
    hcalls.call hk hr
  dsimp only [Routine.Yields, filterRoutine] at hr hkeeps
  obtain ⟨hsound, -⟩ := (hc.filtering_bound hb).invoke_sound (hc.filtering_scope hb) hr
  have hlt : (selection j.elements rs).length + 1 < 2 ^ 53 := by
    have hle := selection_length_le j.elements rs
    omega
  obtain ⟨w, hinvokes, hundisturbed, hc'⟩ :=
    hc.filter_round hb hlt hb' hr hkeeps (stocked_of_unobstructed hm₀ hglobal hproto hsound hlib')
  exact ⟨w, _, _, hinvokes, hundisturbed, hc', rs ++ [r], by simp, (selection_snoc hk r).symm, hcalls'⟩

/-- The new list of `map` and `filter`. -/
def collection (j : Iteration) (m₁ : Machine) : ObjectId := (j.stored (j.received m₁)).heap.size

/-- It is none of the objects that have been there before the call. -/
theorem Call.collection_new (hcall : j.Call m args m₁) : m.heap.size ≤ j.collection m₁ :=
  hcall.received_grows.size_le.trans (Heap.size_writeOwn ..).ge

/-- How `map` calls the callback, once its arguments are evaluated. -/
def map (j : Iteration) (m₁ : Machine) : Routine :=
  let p := j.prepared (j.received m₁)
  j.mapRoutine p.heap.size (j.collection m₁) (j.innerBegun Library.mapRound p)

/-- How `filter` calls the callback, once its arguments are evaluated. -/
def filter (j : Iteration) (m₁ : Machine) : Routine :=
  let p := j.prepared (j.received m₁)
  j.filterRoutine p.heap.size (j.collection m₁) (j.innerBegun Library.filterRound p)

/-- A helper that collects yields a new list of what it has collected. -/
theorem Collects.yields {name : String} {codes : List Code} {Inv : Nat → List Labeled → Machine → Prop}
    (hcall : j.Call m args m₁) (hs : m.heap.Stocked j.global j.listProto) (hn : j.elements.length < 2 ^ 53)
    (hhelper : (name, Library.collectBody codes) ∈ Library.helpers) (hcodes : ∀ n, Code.BodyBelow n codes)
    (hcollects : j.Collects (j.prepared (j.received m₁)).heap.size (j.collection m₁) codes Inv)
    (hinv : Inv 0 [] (j.innerBegun codes (j.prepared (j.received m₁)))) :
    ∃ acc p, Inv j.elements.length acc p ∧
      let last := ((j.inner (j.prepared (j.received m₁)).heap.size).tested p).left.left.left
      m.Invokes (m.heap.getField j.list (.name name)) args (.bare (.object (j.collection m₁))) last ∧
        m.heap.size ≤ j.collection m₁ ∧ last.heap.IsList j.listProto (j.collection m₁) acc ∧
        last.heap.get j.list = m.heap.get j.list := by
  obtain ⟨acc, p, hinv', hc, hend, hlist, hinvokes⟩ := hcollects.call hcall hs hn hhelper hcodes hinv
  have htested := (j.inner (j.prepared (j.received m₁)).heap.size).tested_grows p
  refine ⟨acc, p, hinv', hinvokes, hcall.collection_new, ?_, ?_⟩
  · exact hc.collected.of_get (hc.collected.lt.trans_le htested.size_le) (htested.get_eq _ hc.collected.lt)
  · exact (htested.get_eq _ hc.list.lt).trans hlist

end Iteration

/-! ### Callbacks that leave new objects only

Where callbacks do nothing to the objects that were there, their calls are known beforehand, one for each
element. -/

/-- The callback answers each of the elements with `answer`, wherever it is called on what `m` has grown to, and
leaves new objects only. -/
def Machine.Answers (m : Machine) (callback : Labeled) (elements : List Labeled) (answer : Labeled → Labeled) :
    Prop :=
  ∀ (q : Machine) (caller : ObjectId) (k : Nat), q.Sound → m.heap.Grows q.heap → caller < q.heap.size →
    k < elements.length → ∃ q', q.Invokes callback (.callback caller (elements.getD k .null) k)
      (answer (elements.getD k .null)) q' ∧ q'.Sound ∧ q.heap.Grows q'.heap

namespace Routine

/-- What holds before each round of a routine that `m` has started, if its callback answers: the callback is called
on a sound machine that `m` has grown to, where the helper's objects are, and the next round starts so, too. -/
structure Orderly (s : Routine) (m : Machine) (answer : Labeled → Labeled)
    (Inv : List Labeled → Machine → Prop) : Prop where
  start : Inv [] s.start
  sound : ∀ rs p, Inv rs p → (s.calling rs.length p).Sound
  grows : ∀ rs p, Inv rs p → m.heap.Grows (s.calling rs.length p).heap
  caller_lt : ∀ rs p, Inv rs p → s.caller p < (s.calling rs.length p).heap.size
  own_lt : ∀ rs p, Inv rs p → ∀ x ∈ s.own p, x < (s.calling rs.length p).heap.size
  next : ∀ rs p p', Inv rs p → rs.length < s.elements.length →
    s.Yields rs p (answer (s.elements.getD rs.length .null)) p' → p'.Sound →
      (s.calling rs.length p).heap.Grows p'.heap →
        Inv (rs ++ [answer (s.elements.getD rs.length .null)])
          (s.next rs p (answer (s.elements.getD rs.length .null)) p')

namespace Orderly

variable {s : Routine} {m₀ m : Machine} {answer : Labeled → Labeled} {Inv : List Labeled → Machine → Prop}
  {rs : List Labeled} {p : Machine}

/-- The next call. -/
theorem yields (ho : s.Orderly m answer Inv) (ha : m.Answers s.callback s.elements answer) (hinv : Inv rs p)
    (hleft : rs.length < s.elements.length) :
    ∃ p', s.Yields rs p (answer (s.elements.getD rs.length .null)) p' ∧ p'.Sound ∧
      (s.calling rs.length p).heap.Grows p'.heap :=
  ha _ _ _ (ho.sound rs p hinv) (ho.grows rs p hinv) (ho.caller_lt rs p hinv) hleft

/-- **The calls that are made** have the answers for results, by induction on them. -/
theorem calls (ho : s.Orderly m answer Inv) (ha : m.Answers s.callback s.elements answer) (hcalls : s.Calls rs p) :
    Inv rs p ∧ rs.length ≤ s.elements.length ∧ rs = (s.elements.take rs.length).map answer := by
  induction hcalls with
  | start => exact ⟨ho.start, Nat.zero_le _, rfl⟩
  | @call rs p p' r _ hleft hr ih =>
    obtain ⟨hinv, -, hrs⟩ := ih
    -- a call has one result, so this is the call whose answer is known
    obtain ⟨q, hq, hsound, hgrows⟩ := ho.yields ha hinv hleft
    obtain ⟨rfl, rfl⟩ := Machine.Invokes.unique hr hq
    refine ⟨ho.next rs p _ hinv hleft hq hsound hgrows, by simpa using hleft, ?_⟩
    have hget : s.elements.getD rs.length .null = s.elements[rs.length] := by simp [hleft]
    rw [List.length_append, List.length_singleton, List.take_succ_eq_append_getElem hleft, List.map_append, ← hrs,
      hget, List.map_singleton]

/-- Once each element has been passed on, the results are all answers. -/
theorem results (ho : s.Orderly m answer Inv) (ha : m.Answers s.callback s.elements answer) (hcalls : s.Calls rs p)
    (hrs : rs.length = s.elements.length) : rs = s.elements.map answer := by
  have hanswers := (ho.calls ha hcalls).2.2
  rwa [hrs, List.take_length] at hanswers

/-- New objects keep what is there, and the library. -/
theorem unfailing (ho : s.Orderly m answer Inv) (ha : m.Answers s.callback s.elements answer) (hm₀ : m₀.Started)
    (hm : m.Sound) (hu : m₀.Unobstructed m.heap) : s.Unfailing m₀ := by
  intro rs p hcalls hleft
  have hinv := (ho.calls ha hcalls).1
  obtain ⟨p', hp', hsound, hgrows⟩ := ho.yields ha hinv hleft
  refine ⟨_, p', hp', fun x hx => hgrows.get_eq x (ho.own_lt rs p hinv x hx), ?_⟩
  exact hu.grows hm₀ hm.wellFormed hsound.wellFormed ((ho.grows rs p hinv).trans hgrows)

/-- If the answers are booleans, every call yields one. -/
theorem decides (ho : s.Orderly m answer Inv) (ha : m.Answers s.callback s.elements answer)
    (hanswer : ∀ v, ∃ b, (answer v).value = .boolean b) : s.Decides := by
  intro rs p r p' hcalls hleft hr
  obtain ⟨q, hq, -, -⟩ := ho.yields ha (ho.calls ha hcalls).1 hleft
  rw [(Machine.Invokes.unique hr hq).1]
  exact hanswer _

end Orderly

end Routine

namespace Iteration

variable {j : Iteration} {m₀ m m₁ : Machine} {args : CallArguments} {F R f : ObjectId} {first : Machine}
  {answer : Labeled → Labeled}

/-- Up to its inner iteration, a helper that collects has made objects and written to its scope only. -/
theorem Call.prepared_grows (hcall : j.Call m args m₁) : m.heap.Grows (j.prepared (j.received m₁)).heap :=
  have hscope := hcall.scope.ge
  ((hcall.received_grows.writeOwn hscope ..).trans (.alloc ..)).writeOwn hscope ..

/-- A helper that collects is before the first round of its inner iteration. -/
theorem Call.collecting {codes : List Code} (hcall : j.Call m args m₁) (hs : m.heap.Stocked j.global j.listProto)
    (hcodes : ∀ n, Code.BodyBelow n codes) :
    j.Collecting (j.prepared (j.received m₁)).heap.size (j.collection m₁) codes []
        (j.innerBegun codes (j.prepared (j.received m₁))) ∧
      (j.inner (j.prepared (j.received m₁)).heap.size).Between 0 (j.innerBegun codes (j.prepared (j.received m₁))) ∧
      m.heap.Grows (j.innerBegun codes (j.prepared (j.received m₁))).heap := by
  obtain ⟨-, hprepared, hcollected, hne, -⟩ := (hcall.entered hs).prepares
  obtain ⟨hbegun, hgrows⟩ := hprepared.innerBegun hcodes
  exact ⟨hprepared.collecting hcollected hne hcodes, hbegun, hcall.prepared_grows.trans hgrows⟩

/-- The objects of the iteration are there when `forEach` calls the callback. -/
theorem Between.calling_own_lt {k : Nat} {p : Machine} (hb : j.Between k p) :
    ∀ x ∈ [j.scope, j.caller p, j.list], x < (j.calling p).heap.size := by
  have hcalling : j.Between k (j.calling p) := Bound.calling hb
  intro x hx
  simp only [List.mem_cons, List.not_mem_nil, or_false] at hx
  rcases hx with rfl | rfl | rfl
  exacts [hcalling.scope_lt, hb.caller_lt, hcalling.list.lt]

/-- **`forEach` is orderly**: it writes to its own scope only, which is new. -/
theorem Call.forEach_orderly (hcall : j.Call m args m₁) (hs : m.heap.Stocked j.global j.listProto) :
    (j.forEach m₁).Orderly m answer fun rs p => j.Between rs.length p ∧ m.heap.Grows p.heap where
  start := ⟨(hcall.entered hs).begun, hcall.begun_grows⟩
  sound _ _ hinv := (Bound.calling hinv.1).sound
  grows _ p hinv := hinv.2.trans (j.calling_grows p)
  caller_lt _ _ hinv := hinv.1.caller_lt
  own_lt _ _ hinv := hinv.1.calling_own_lt
  next rs p p' hinv _ hyields hsound hgrows := by
    obtain ⟨hb, hgrown⟩ := hinv
    have hcalling : j.Between rs.length (j.calling p) := Bound.calling hb
    have hkeeps : j.Undisturbed p p' := ⟨fun x hx => hgrows.get_eq x (hb.calling_own_lt x hx),
      hcalling.stocked.grows hcalling.sound.wellFormed hsound.wellFormed hgrows⟩
    rw [List.length_append]
    refine ⟨(hb.next hyields hkeeps).1, ?_⟩
    exact ((hgrown.trans (j.calling_grows p)).trans hgrows).writeOwn hcall.scope.ge ..

/-- The objects of the two iterations are there when `map` calls the callback. -/
theorem Collecting.mapping_own_lt {codes : List Code} {acc : List Labeled} {p : Machine} {k : Nat}
    (hc : j.Collecting F R codes acc p) (hb : (j.inner F).Between k p) :
    ∀ x ∈ [F, (j.inner F).caller p, j.list, j.scope, R], x < (j.mapping F k p).heap.size := by
  intro x hx
  by_cases hR : x = R
  · exact hR ▸ (hc.answering hb).collected.lt
  · exact (hc.apart hb (by simpa [hR] using hx)).2.trans_le (j.answering_grows F k p).size_le

/-- The same where `filter` calls it, whose round has a scope and arguments of its own. -/
theorem Collecting.filtering_own_lt {codes : List Code} {acc : List Labeled} {p : Machine} {k : Nat}
    (hc : j.Collecting F R codes acc p) (hb : (j.inner F).Between k p) :
    ∀ x ∈ [F, (j.inner F).caller p, j.list, j.scope, R, j.roundScope F p, j.roundScope F p + 1],
      x < (j.filtering F k p).heap.size := by
  intro x hx
  have hround := (hc.keeping hb).2.2
  by_cases hS : x = j.roundScope F p
  · exact hS ▸ hround.lt.2.1
  by_cases hA : x = j.roundScope F p + 1
  · exact hA ▸ hround.lt.2.2
  · have hsize : (j.mapping F k p).heap.size = (j.filtering F k p).heap.size := (Heap.size_writeOwn ..).symm
    exact (hc.mapping_own_lt hb x (by simpa [hS, hA] using hx)).trans_eq hsize

/-- A round of `map` has not written yet when it calls the callback. -/
theorem mapping_grows {k : Nat} {p : Machine} (hgrows : m.heap.Grows p.heap) :
    m.heap.Grows (j.mapping F k p).heap :=
  (hgrows.trans ((j.inner F).calling_grows p)).trans (j.answering_grows F k p)

/-- A round of `filter` has written to its own scope. -/
theorem filtering_grows {k : Nat} {p : Machine} (hgrows : m.heap.Grows p.heap) :
    m.heap.Grows (j.filtering F k p).heap :=
  have hscope : m.heap.size ≤ j.roundScope F p := (hgrows.trans ((j.inner F).calling_grows p)).size_le
  (mapping_grows hgrows).writeOwn hscope ..

/-- Counting on writes to the scope of the iteration only, which is new. -/
theorem counted_grows {k : Nat} {p : Machine} (hi : m.heap.size ≤ j.scope) (hgrows : m.heap.Grows p.heap) :
    m.heap.Grows (j.counted k p).heap := Heap.Grows.writeOwn hgrows hi ..

/-- A round writes to the new list only, if its callback does not write at all. -/
theorem mapped_grows {n : Nat} {r : Labeled} {p : Machine} (hR : m.heap.size ≤ R) (hgrows : m.heap.Grows p.heap) :
    m.heap.Grows (mapped R n r p).heap := (hgrows.writeOwn hR ..).writeOwn hR ..

/-- A round of `filter` makes a branch, and may write to the new list. -/
theorem filtered_grows {n : Nat} {S : ObjectId} {v r : Labeled} {p : Machine} (hR : m.heap.size ≤ R)
    (hgrows : m.heap.Grows p.heap) : m.heap.Grows (filtered S R n v r p).heap := by
  have hdeciding : m.heap.Grows (deciding S p).heap := hgrows.trans (p.making_grows ..)
  unfold filtered
  split
  · have hinside : m.heap.Grows ((deciding S p).inside S []).heap := hdeciding.trans (.enter ..)
    exact (hinside.writeOwn hR ..).writeOwn hR ..
  · exact hdeciding

namespace Collecting

variable {acc : List Labeled} {p p' : Machine} {k : Nat} {r : Labeled}

/-- The next round of `map`, where the callback has left new objects only. -/
theorem map_next (hc : j.Collecting F R Library.mapRound acc p) (hb : (j.inner F).Between k p)
    (hlt : acc.length + 1 < 2 ^ 53)
    (hcall : (j.mapping F k p).Invokes j.callback (.callback (j.roundScope F p) (j.elements.getD k .null) k) r p')
    (hsound : p'.Sound) (hgrows : (j.mapping F k p).heap.Grows p'.heap) :
    j.Collecting F R Library.mapRound (acc ++ [r.stored]) ((j.inner F).counted k (mapped R acc.length r p')) ∧
      (j.inner F).Between (k + 1) ((j.inner F).counted k (mapped R acc.length r p')) := by
  have hmapping := hc.mapping_bound hb
  have hs := hmapping.stocked.grows hmapping.sound.wellFormed hsound.wellFormed hgrows
  obtain ⟨hinvokes, hundisturbed, hc'⟩ :=
    hc.map_round hb hlt hcall (fun x hx => hgrows.get_eq x (hc.mapping_own_lt hb x hx)) hs
  exact ⟨hc', (hb.next hinvokes hundisturbed).1⟩

/-- The next round of `filter`. -/
theorem filter_next (hc : j.Collecting F R Library.filterRound acc p) (hb : (j.inner F).Between k p)
    (hlt : acc.length + 1 < 2 ^ 53) {b : Bool} (hr : r.value = .boolean b)
    (hcall : (j.filtering F k p).Invokes j.callback
      (.callback (j.roundScope F p) (j.elements.getD k .null) k) r p')
    (hsound : p'.Sound) (hgrows : (j.filtering F k p).heap.Grows p'.heap) :
    let q := (j.inner F).counted k (filtered (j.roundScope F p) R acc.length (j.elements.getD k .null) r p')
    j.Collecting F R Library.filterRound (acc ++ if r.isTrue then [j.elements.getD k .null] else []) q ∧
      (j.inner F).Between (k + 1) q := by
  have hfiltering := hc.filtering_bound hb
  have hs := hfiltering.stocked.grows hfiltering.sound.wellFormed hsound.wellFormed hgrows
  obtain ⟨w, hinvokes, hundisturbed, hc'⟩ :=
    hc.filter_round hb hlt hr hcall (fun x hx => hgrows.get_eq x (hc.filtering_own_lt hb x hx)) hs
  exact ⟨hc', (hb.next hinvokes hundisturbed).1⟩

end Collecting

/-- **`map` is orderly**: it writes to its scopes and to the new list only. -/
theorem mapRoutine_orderly (hn : j.elements.length < 2 ^ 53) (hc : j.Collecting F R Library.mapRound [] first)
    (hb : (j.inner F).Between 0 first) (hgrows : m.heap.Grows first.heap) (hF : m.heap.size ≤ F)
    (hR : m.heap.size ≤ R) : (j.mapRoutine F R first).Orderly m answer fun rs p =>
      j.Collecting F R Library.mapRound (rs.map Labeled.stored) p ∧ (j.inner F).Between rs.length p ∧
        m.heap.Grows p.heap where
  start := ⟨hc, hb, hgrows⟩
  sound _ _ hinv := (hinv.1.mapping_bound hinv.2.1).sound
  grows _ _ hinv := mapping_grows hinv.2.2
  caller_lt rs p hinv := by
    dsimp only [mapRoutine]
    exact hinv.1.mapping_scope hinv.2.1
  own_lt rs p hinv := hinv.1.mapping_own_lt hinv.2.1
  next rs p p' hinv hleft hyields hsound hgrows := by
    obtain ⟨hc, hb, hgrown⟩ := hinv
    dsimp only [Routine.Yields, mapRoutine] at hleft hyields hgrows ⊢
    have hlt : (rs.map Labeled.stored).length + 1 < 2 ^ 53 := by
      rw [List.length_map]
      omega
    obtain ⟨hc', hb'⟩ := hc.map_next hb hlt hyields hsound hgrows
    rw [List.length_map] at hc' hb'
    rw [List.map_append, List.length_append]
    exact ⟨hc', hb', counted_grows hF (mapped_grows hR ((mapping_grows hgrown).trans hgrows))⟩

/-- **`filter` is orderly** if the answers are booleans. -/
theorem filterRoutine_orderly (hn : j.elements.length < 2 ^ 53)
    (hc : j.Collecting F R Library.filterRound [] first) (hb : (j.inner F).Between 0 first)
    (hgrows : m.heap.Grows first.heap) (hF : m.heap.size ≤ F) (hR : m.heap.size ≤ R)
    (hanswer : ∀ v, ∃ b, (answer v).value = .boolean b) :
    (j.filterRoutine F R first).Orderly m answer fun rs p =>
      j.Collecting F R Library.filterRound (selection j.elements rs) p ∧ (j.inner F).Between rs.length p ∧
        m.heap.Grows p.heap where
  start := ⟨by rw [selection_nil]; exact hc, hb, hgrows⟩
  sound _ _ hinv := (hinv.1.filtering_bound hinv.2.1).sound
  grows _ _ hinv := filtering_grows hinv.2.2
  caller_lt rs p hinv := by
    dsimp only [filterRoutine]
    exact hinv.1.filtering_scope hinv.2.1
  own_lt rs p hinv := hinv.1.filtering_own_lt hinv.2.1
  next rs p p' hinv hleft hyields hsound hgrows := by
    obtain ⟨hc, hb, hgrown⟩ := hinv
    dsimp only [Routine.Yields, filterRoutine] at hleft hyields hgrows ⊢
    obtain ⟨b, hb'⟩ := hanswer (j.elements.getD rs.length .null)
    have hlt : (selection j.elements rs).length + 1 < 2 ^ 53 := by
      have hle := selection_length_le j.elements rs
      omega
    obtain ⟨hc', hnext⟩ := hc.filter_next hb hlt hb' hyields hsound hgrows
    rw [selection_snoc hleft, List.length_append]
    exact ⟨hc', hnext, counted_grows hF (filtered_grows hR ((filtering_grows hgrown).trans hgrows))⟩

/-- **`map` is orderly** from the start. -/
theorem Call.map_orderly (hcall : j.Call m args m₁) (hs : m.heap.Stocked j.global j.listProto)
    (hn : j.elements.length < 2 ^ 53) : (j.map m₁).Orderly m answer fun rs p =>
      j.Collecting (j.prepared (j.received m₁)).heap.size (j.collection m₁) Library.mapRound
        (rs.map Labeled.stored) p ∧
        (j.inner (j.prepared (j.received m₁)).heap.size).Between rs.length p ∧ m.heap.Grows p.heap :=
  have ⟨hc, hb, hgrows⟩ := hcall.collecting hs Library.mapRound_below
  mapRoutine_orderly hn hc hb hgrows hcall.prepared_grows.size_le hcall.collection_new

/-- **`filter` is orderly** from the start. -/
theorem Call.filter_orderly (hcall : j.Call m args m₁) (hs : m.heap.Stocked j.global j.listProto)
    (hn : j.elements.length < 2 ^ 53) (hanswer : ∀ v, ∃ b, (answer v).value = .boolean b) :
    (j.filter m₁).Orderly m answer fun rs p =>
      j.Collecting (j.prepared (j.received m₁)).heap.size (j.collection m₁) Library.filterRound
        (selection j.elements rs) p ∧
        (j.inner (j.prepared (j.received m₁)).heap.size).Between rs.length p ∧ m.heap.Grows p.heap :=
  have ⟨hc, hb, hgrows⟩ := hcall.collecting hs Library.filterRound_below
  filterRoutine_orderly hn hc hb hgrows hcall.prepared_grows.size_le hcall.collection_new hanswer

end Iteration

end Protean
