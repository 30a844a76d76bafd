import Protean.Proofs.Library.Lists
import Protean.Proofs.Machine.Loop

/-!
# Proofs — Library — iteration

`forEach` counts in its scope, the *frame*, from which its condition and its rounds read the callback, the list
and the counter through scopes of their own.

* `Iteration`: what a call of a helper is about: the list and its elements, the callback, and the scope of the call.
* `Heap.InFrame`: a scope in the frame, from which the condition and the rounds read (`reads_callback`, `reads_self`,
  `reads_counter`, `provides`).
* `Machine.condition_evaluates`: the condition compares the counter with the number of elements.
* `Machine.round_evaluates`: a round calls the callback with an element and its index, and counts on.

Both comparing and counting are done with doubles.  They are exact as long as the numbers are below 2^53
(`Number.ofIndex_lt`, `Number.ofIndex_add_one`).
-/

namespace Protean

/-! ### Numbers

Counters are doubles, which are exact in the range of lengths. -/

namespace Machine

variable {m m₁ : Machine} {callee self : Labeled} {args : CallArguments} {f home : ObjectId} {x y : Float}

/-- Two numbers pass the check of a function that asks for two numbers. -/
theorem validate_numbers {which : Builtin}
    (hparameters : which.parameters = [Builtin.positional 0 .number, Builtin.positional 1 .number]) :
    validate [(.name "self", self), (.index 0, .bare (.number x)), (.index 1, .bare (.number y))]
      which.parameters m = (.ok (), m) := by
  rw [hparameters]
  rfl

theorem Invokes.less (hcallee : callee.value = .object f) (hkind : (m.heap.get f).kind = .builtin .less home)
    (hargs : m.entered.Materializes args
      [(.name "self", self), (.index 0, .bare (.number x)), (.index 1, .bare (.number y))] m₁) :
    m.Invokes callee args (.bare (.boolean (x < y))) m₁.left :=
  .builtin hcallee hkind rfl hargs (validate_numbers rfl) (.of_eq fun _ _ => rfl)

theorem Invokes.plus (hcallee : callee.value = .object f) (hkind : (m.heap.get f).kind = .builtin .add home)
    (hargs : m.entered.Materializes args
      [(.name "self", self), (.index 0, .bare (.number x)), (.index 1, .bare (.number y))] m₁) :
    m.Invokes callee args (.bare (.number (x + y))) m₁.left :=
  .builtin hcallee hkind rfl hargs rfl (.of_eq fun _ _ => rfl)

end Machine

/-! ### The frame of an iteration

The scope of a helper with its counter at some value. -/

/-- A call of a helper that goes through a list. -/
structure Iteration where
  global : ObjectId
  listProto : ObjectId
  /-- The scope of the call. -/
  scope : ObjectId
  list : ObjectId
  /-- The list, as it was passed. -/
  self : Labeled
  self_value : self.value = .object list
  callback : Labeled
  elements : List Labeled

namespace Iteration

/-- What the helpers bind in their scope; `A` holds the arguments. -/
def bindings (i : Iteration) (A : ObjectId) : Fields :=
  [(.name "this", .bare (.object i.scope)), (.name "args", .bare (.object A)), (.name "it", i.callback),
    (.name "self", i.self), (.name "callback", i.callback)]

/-- The scope of the call, with more bindings. -/
def frame (i : Iteration) (A : ObjectId) (more : Fields) : Object := ⟨.plain, i.bindings A ++ more, some i.global⟩

/-- The counter of `forEach` before round `k`. -/
def counter (k : Nat) : Fields := [(.name "i", .whole k)]

end Iteration

/-- `B` is the scope of a call without arguments, made in the frame. -/
structure Heap.InFrame (h : Heap) (i : Iteration) (B : ObjectId) (k : Nat) : Prop where
  chained : h.Chained
  frame : ∃ A, h.get i.scope = i.frame A (Iteration.counter k)
  inner : ∃ A, h.get B = ⟨.plain, scopeFields B A [], some i.scope⟩

namespace Heap.InFrame

variable {h h' : Heap} {i : Iteration} {B : ObjectId} {k : Nat}

/-- Other names than its own are read from outside. -/
theorem outer (hf : h.InFrame i B k) {name : String} (hname : name ∉ ["this", "args", "proto"]) :
    h.getField B (.name name) = h.getField i.scope (.name name) := by
  obtain ⟨A, hB⟩ := hf.inner
  simp only [List.mem_cons, List.not_mem_nil, or_false, not_or] at hname
  obtain ⟨hthis, hargs, hproto⟩ := hname
  refine hf.chained.getField_outer hB (fun he => hproto (Key.name.inj he)) ?_
  show Fields.find? _ [(Key.name "this", _), (Key.name "args", _)] = none
  simp [Fields.find?, Ne.symm hthis, Ne.symm hargs]

theorem reads_callback (hf : h.InFrame i B k) : h.getField B (.name "callback") = i.callback := by
  obtain ⟨A, hF⟩ := hf.frame
  rw [hf.outer (by decide)]
  exact hf.chained.getField_found hF (by decide) rfl

/-- The list is read from the frame, as it was passed. -/
theorem reads_self (hf : h.InFrame i B k) : h.getField B (.name "self") = i.self := by
  obtain ⟨A, hF⟩ := hf.frame
  rw [hf.outer (by decide)]
  exact hf.chained.getField_found hF (by decide) rfl

theorem reads_counter (hf : h.InFrame i B k) : h.getField B (.name "i") = .whole k := by
  obtain ⟨A, hF⟩ := hf.frame
  rw [hf.outer (by decide)]
  exact hf.chained.getField_found hF (by decide) rfl

/-- The functions of the library are found from here. -/
theorem provides (hf : h.InFrame i B k) (hs : h.Stocked i.global i.listProto) {b : String × Builtin}
    (hb : b ∈ Library.globals) : h.Provides B b.1 (.builtin b.2 i.global) := by
  obtain ⟨A, hF⟩ := hf.frame
  obtain ⟨A', hB⟩ := hf.inner
  have hframe : ∀ b ∈ Library.globals,
      b.1 ≠ "proto" ∧ (i.frame A (Iteration.counter k)).fields.find? (.name b.1) = none := by
    simp [Library.globals, Iteration.frame, Iteration.bindings, Iteration.counter, Fields.find?]
  have hinner : ∀ b ∈ Library.globals, (scopeFields B A' []).find? (.name b.1) = none := by
    show ∀ b ∈ Library.globals, Fields.find? _ [(Key.name "this", _), (Key.name "args", _)] = none
    simp [Library.globals, Fields.find?]
  obtain ⟨hproto, hfind⟩ := hframe b hb
  exact ((hs.globals b hb).inner hf.chained hF hproto hfind).inner hf.chained hB hproto (hinner b hb)

theorem frame_lt (hf : h.InFrame i B k) : i.scope < h.size := by
  obtain ⟨A, hF⟩ := hf.frame
  exact lt_of_get hF

theorem inner_lt (hf : h.InFrame i B k) : B < h.size := by
  obtain ⟨A, hB⟩ := hf.inner
  exact lt_of_get hB

/-- It depends on two objects. -/
theorem of_get (hf : h.InFrame i B k) (hc : h'.Chained) (hframe : h'.get i.scope = h.get i.scope)
    (hinner : h'.get B = h.get B) : h'.InFrame i B k :=
  ⟨hc, hframe ▸ hf.frame, hinner ▸ hf.inner⟩

/-- New objects do not change what is read. -/
theorem grows (hf : h.InFrame i B k) (hc : h'.Chained) (hg : h.Grows h') : h'.InFrame i B k :=
  hf.of_get hc (hg.get_eq _ hf.frame_lt) (hg.get_eq B hf.inner_lt)

/-- The counter is assigned in the frame. -/
theorem setField_counter (hf : h.InFrame i B k) (v : Labeled) :
    h.setField B (.name "i") v = (.ok (), h.define i.scope "i" v) := by
  obtain ⟨A, hF⟩ := hf.frame
  obtain ⟨A', hB⟩ := hf.inner
  have hown : Key.name "i" ∈ (h.fields i.scope).keys := by
    rw [Heap.fields, hF]
    simp [Iteration.frame, Iteration.bindings, Iteration.counter]
  have hfree : Key.name "i" ∉ (h.fields B).keys := by
    rw [Heap.fields, hB]
    show _ ∉ Fields.keys [(Key.name "this", _), (Key.name "args", _)]
    simp [Fields.keys]
  have howner : h.owner? B (.name "i") = some i.scope :=
    hf.chained.owner?_eq_some_iff.mpr (.above hfree (by rw [Heap.proto, hB]) (.here hown))
  rw [setField, if_neg (by decide), howner]
  rfl

end Heap.InFrame

/-! ### Condition and round

The two blocks that the loop of a helper calls. -/

/-- The value is a function of the language. -/
def Heap.IsFunction (h : Heap) (v : Labeled) : Prop :=
  ∃ id code captured, v.value = .object id ∧ (h.get id).kind = .function code captured

/-- A function stays one, since objects keep their kinds. -/
theorem Heap.IsFunction.extends {h h' : Heap} {v : Labeled} (hv : h.IsFunction v) (hext : h.Extends h') :
    h'.IsFunction v := by
  obtain ⟨id, code, captured, hid, hkind⟩ := hv
  exact ⟨id, code, captured, hid, (hext.kind_eq id (lt_of_function hkind)).trans hkind⟩

/-- The arguments of a callback: an element and its index. -/
def CallArguments.callback (caller : ObjectId) (v : Labeled) (k : Nat) : CallArguments :=
  .withSelf (.bare (.object caller)) [⟨none, .const v⟩, ⟨none, .const (.whole k)⟩] caller

/-- What they evaluate to. -/
def Entries.callback (caller : ObjectId) (v : Labeled) (k : Nat) : Entries :=
  [(.name "self", .bare (.object caller)), (.index 0, v), (.index 1, .whole k)]

/-- No argument of a callback goes by the name `proto`. -/
theorem Entries.proto_not_mem_callback (caller : ObjectId) (v : Labeled) (k : Nat) :
    Key.proto ∉ Fields.keys (callback caller v k) := by
  simp [callback, Fields.keys, Key.proto]

/-- The arguments of a callback are there if the element is. -/
theorem Entries.callback_below {n : Nat} {caller : ObjectId} {v : Labeled} (hcaller : caller < n) (hv : v.Below n)
    (k : Nat) : (callback caller v k).Below n := by
  intro e he
  rcases List.mem_cons.mp he with rfl | he
  · exact hcaller
  rcases List.mem_cons.mp he with rfl | he
  · exact hv
  · cases List.mem_singleton.mp he
    trivial

namespace Machine

variable {p m₁ : Machine} {i : Iteration} {B : ObjectId} {r : Labeled} {k : Nat}

/-- The arguments of a callback are values already. -/
theorem callback_materializes (p : Machine) (caller : ObjectId) (v : Labeled) (k : Nat) :
    p.Materializes (.callback caller v k) (.callback caller v k) p :=
  .withSelf (.positional (.const p v) rfl (.positional (.const p _) rfl (.nil p)))

/-- **The condition** holds as long as there are elements left. -/
theorem condition_evaluates (hf : p.heap.InFrame i B k) (hs : p.heap.Stocked i.global i.listProto)
    (hl : p.heap.IsList i.listProto i.list i.elements) (hk : k < 2 ^ 53) (hn : i.elements.length < 2 ^ 53) :
    p.EvaluatesAll Library.condition B (.bare (.boolean (decide (k < i.elements.length)))) p.charged := by
  obtain ⟨id, hread, hkind⟩ := hf.provides hs (b := ("<", .less)) (by simp [Library.globals])
  have hlength : p.heap.getValueField i.self.value (.name "length") = .ok (.whole i.elements.length) := by
    rw [i.self_value]
    exact congrArg Except.ok (hl.getField_length hf.chained)
  have hargs : p.entered.Materializes
      (.withSelf (.bare (.object B)) [Library.positional (Library.name "i"),
        Library.positional (.field none (Library.name "self") (.name "length"))] B)
      [(.name "self", .bare (.object B)), (.index 0, .whole k), (.index 1, .whole i.elements.length)] p.entered :=
    .withSelf (.positional (.reads hf.reads_counter) rfl
      (.positional (.field (.reads hf.reads_self) hlength) rfl (.nil _)))
  have hless : decide (Number.ofIndex k < Number.ofIndex i.elements.length) = decide (k < i.elements.length) :=
    decide_eq_decide.mpr (Number.ofIndex_lt hk hn)
  have hcall : p.Invokes (.bare (.object id)) _ _ p.entered.left := .less rfl hkind hargs
  rw [hless, left_entered] at hcall
  exact .single (.call (.reads hread) hcall)

/-- `self.get(i)` is the element of the round. -/
theorem element_evaluates (hf : p.heap.InFrame i B k) (hw : p.heap.WellFormed)
    (hs : p.heap.Stocked i.global i.listProto) (hl : p.heap.IsList i.listProto i.list i.elements)
    (hk : k < 2 ^ 53) :
    p.Evaluates (.send none (Library.name "self") (.name "get") [Library.positional (Library.name "i")]) B
      (i.elements.getD k .null) p.charged := by
  obtain ⟨id, hread, hkind⟩ := hs.methods ("get", .get) (by simp [Library.methods])
  have hmethod : p.heap.getValueField i.self.value (.name "get") = .ok (.bare (.object id)) := by
    rw [i.self_value]
    exact congrArg Except.ok ((hl.getField_name hf.chained (by decide) (by decide)).trans hread)
  have hargs : p.entered.Materializes (.withSelf i.self [Library.positional (Library.name "i")] B)
      [(.name "self", i.self), (.index 0, .whole k)] p.entered :=
    .withSelf (.positional (.reads hf.reads_counter) rfl (.nil _))
  have hcall : p.Invokes (.bare (.object id)) _ _ p.charged := .get rfl hkind i.self_value hk hargs
  rw [show p.entered.heap = p.heap from rfl, hl.getField_index hw hs] at hcall
  exact .send (.reads hf.reads_self) hmethod hcall

/-- **A round** calls the callback with the element and its index and counts on. -/
theorem round_evaluates (hp : p.Sound) (hf : p.heap.InFrame i B k) (hs : p.heap.Stocked i.global i.listProto)
    (hl : p.heap.IsList i.listProto i.list i.elements) (hk : k + 1 < 2 ^ 53)
    (hfunction : p.heap.IsFunction i.callback)
    (hcall : p.charged.Invokes i.callback (.callback B (i.elements.getD k .null) k) r m₁)
    (hf₁ : m₁.heap.InFrame i B k) (hs₁ : m₁.heap.Stocked i.global i.listProto) :
    p.EvaluatesAll Library.round B (.whole (k + 1))
      (m₁.charged.withHeap (m₁.heap.define i.scope "i" (.whole (k + 1)))) := by
  obtain ⟨id, code, captured, hid, hkind⟩ := hfunction
  have hcaptured : captured < p.heap.size := by
    have hbelow := (hp.wellFormed.sound id).kind_below
    rwa [hkind] at hbelow
  have hround : p.Evaluates (.call none (Library.name "callback")
      [Library.positional (.send none (Library.name "self") (.name "get") [Library.positional (Library.name "i")]),
        Library.positional (Library.name "i")]) B r m₁ := by
    -- the arguments are evaluated when the scope of the call has been opened, and leave nothing but one call
    have hgrows := Heap.Grows.openScope p.heap captured
    have hopening := hp.opening hcaptured
    have hf' : (p.opening captured).heap.InFrame i B k := hf.grows hopening.wellFormed.chained hgrows
    have hs' := hs.grows hp.wellFormed hopening.wellFormed hgrows
    have hl' := hl.of_get (hl.lt.trans_le hgrows.size_le) (hgrows.get_eq i.list hl.lt)
    have helement := element_evaluates hf' hopening.wellFormed hs' hl' (Nat.lt_of_succ_lt hk)
    have hargs : (p.opening captured).Materializes (.withSelf (.bare (.object B))
        [Library.positional (.send none (Library.name "self") (.name "get") [Library.positional (Library.name "i")]),
          Library.positional (Library.name "i")] B)
        (.callback B (i.elements.getD k .null) k) (p.charged.opening captured) :=
      .withSelf (.positional helement rfl (.positional (.reads hf'.reads_counter) rfl (.nil _)))
    have hheap : p.charged.heap = p.heap := rfl
    exact .call (.reads hf.reads_callback)
      (.of_same_entries hid hkind hheap hargs (callback_materializes _ B _ k) hcall)
  obtain ⟨id', hread, hkind'⟩ := hf₁.provides hs₁ (b := ("+", .add)) (by simp [Library.globals])
  have hargs : m₁.entered.Materializes (.withSelf (.bare (.object B)) [Library.positional (Library.name "i"),
        Library.positional (Library.whole 1)] B)
      [(.name "self", .bare (.object B)), (.index 0, .whole k), (.index 1, .whole 1)] m₁.entered :=
    .withSelf (.positional (.reads hf₁.reads_counter) rfl (.positional (.literal _ _) rfl (.nil _)))
  have hplus : m₁.Invokes (.bare (.object id')) _ _ m₁.entered.left := .plus rfl hkind' hargs
  have hone : Number.ofIndex k + Number.ofIndex 1 = Number.ofIndex (k + 1) := Number.ofIndex_add_one (by omega)
  rw [hone, left_entered] at hplus
  exact .cons hround (.single (.bind (.call (.reads hread) hplus) rfl (hf₁.setField_counter _)))

end Machine

end Protean
