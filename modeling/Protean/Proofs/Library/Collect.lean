import Protean.Proofs.Library.Rounds

/-!
# Proofs — Library — collecting a list

`map` and `filter` bind a new list, and call `forEach` with a function of their own that does one round.  What
holds of an iteration therefore holds twice: of their own frame, and of the frame of the inner iteration
(`Iteration.inner`).  `Iteration.Collecting` is the state between two rounds, and one round of `map` or of `filter`
leads from one such state to the next (`Collecting.map_round`, `Collecting.filter_round`).  `Iteration.Collects.call`
is then the whole call, for any invariant that the rounds carry on.

* `Heap.InRound`: the scope of a round of `map` or `filter`, from which the round reads what it needs.
* `Machine.callback_evaluates`, `Machine.add_evaluates`: the two calls that a round makes.
* `Iteration.answering`, `Iteration.mapping`, `Iteration.filtering`, …: the machine at the stages of a round, each with
  a lemma that it is still collecting there.
* `Iteration.selection`: the elements that the answers select.
-/

namespace Protean

/-- Whether the value is true. -/
def Labeled.isTrue (v : Labeled) : Bool :=
  match v.value with
  | .boolean b => b
  | _ => false

namespace Library

/-- The code of a round of `map` mentions no objects. -/
theorem mapRound_below (n : Nat) : Code.BodyBelow n mapRound := by
  simp [mapRound, Code.BodyBelow, Code.Below, Code.ArgsBelow]
/-- The code of a round of `filter` mentions no objects. -/
theorem filterRound_below (n : Nat) : Code.BodyBelow n filterRound := by
  simp [filterRound, accept, Code.BodyBelow, Code.Below, Code.ArgsBelow]

end Library

/-! ### Scopes of calls

What is bound in the scope of a call, and that a call binds nothing else. -/

namespace Heap

variable {h h' : Heap} {scope argsObject : ObjectId} {entries : Entries}

/-- A call binds `args` to the object with its arguments. -/
theorem find?_scopeFields_args (scope argsObject : ObjectId) (entries : Entries) :
    (scopeFields scope argsObject entries).find? (.name "args") = some (.bare (.object argsObject)) := by
  rw [scopeFields, Fields.find?_write_ne (by decide), Fields.find?_write_ne (by decide)]
  rfl

theorem find?_scopeFields_this (scope argsObject : ObjectId) (entries : Entries) :
    (scopeFields scope argsObject entries).find? (.name "this") = some (.bare (.object scope)) := by
  rw [scopeFields, Fields.find?_write_ne (by decide), Fields.find?_write_ne (by decide),
    Fields.find?_write_ne (by decide)]
  rfl

/-- A call binds four names in its scope. -/
theorem find?_scopeFields {name : String} (hname : name ∉ ["this", "args", "it", "self"]) :
    (scopeFields scope argsObject entries).find? (.name name) = none := by
  simp only [List.mem_cons, List.not_mem_nil, or_false, not_or] at hname
  obtain ⟨hthis, hargs, hit, hself⟩ := hname
  have hne : ∀ {other}, name ≠ other → Key.name name ≠ .name other := fun hn he => hn (Key.name.inj he)
  rw [scopeFields, Fields.find?_write_ne (hne hself), Fields.find?_write_ne (hne hit),
    Fields.find?_write_ne (hne hargs), Fields.find?, if_neg (hne hthis).symm]
  rfl

/-- The prototype of all objects has no elements if lists inherit none. -/
theorem Stocked.objectProto_index {global listProto : ObjectId} (hs : h.Stocked global listProto)
    (hw : h.WellFormed) (n : Nat) : h.getField objectProto (.index n) = .null := by
  have hproto : h.proto listProto = some objectProto := by
    have hlink := hs.link
    rw [getField, if_pos rfl, protoValue] at hlink
    split at hlink
    · next p hp =>
      cases hlink
      exact hp
    · cases hlink
  refine hw.getField_eq_null (Key.index_ne_proto n) ?_
  by_cases hown : Key.index n ∈ (h.fields listProto).keys
  · exact absurd (hs.index_free n) ((hw.getField_ne_null_iff (Key.index_ne_proto n)).mpr ⟨_, .here hown⟩)
  · rw [← hw.chained.getField_link (Key.index_ne_proto n) hown hproto]
    exact hs.index_free n

end Heap

/-! ### The scope of a round

The round of `map` or `filter` is a call of its own, whose scope stands inside of that of the helper. -/

namespace Iteration

/-- The list that `map` and `filter` collect. -/
def result (R : ObjectId) : Fields := [(.name "result", .bare (.object R))]

/-- The names that a round of theirs may bind in its scope. -/
def roundNames : List String := ["this", "args", "it", "self", "entry"]

end Iteration

/-- `S` is the scope of a round of `map` or `filter`: the element `v` and its index `k` are in the object `A`, which
is bound to the name `x`. -/
structure Heap.InRound (h : Heap) (j : Iteration) (R S A : ObjectId) (x : String) (v : Labeled) (k : Nat) :
    Prop where
  chained : h.Chained
  frame : ∃ A', h.get j.scope = j.frame A' (Iteration.result R)
  scope : ∃ fields, h.get S = ⟨.plain, fields, some j.scope⟩ ∧ fields.find? (.name x) = some (.bare (.object A)) ∧
    ∀ name, name ∉ Iteration.roundNames → fields.find? (.name name) = none
  named : x ≠ "proto"
  args : ∃ caller, h.get A = ⟨.plain, Entries.fields (.callback caller v k), some Heap.objectProto⟩

namespace Heap.InRound

variable {h h' : Heap} {j : Iteration} {R S A : ObjectId} {x : String} {v : Labeled} {k : Nat}

/-- Other names than its own are read from outside. -/
theorem outer (hr : h.InRound j R S A x v k) {name : String} (hname : name ∉ Iteration.roundNames)
    (hproto : name ≠ "proto") : h.getField S (.name name) = h.getField j.scope (.name name) := by
  obtain ⟨fields, hS, -, hfree⟩ := hr.scope
  exact hr.chained.getField_outer hS (fun he => hproto (Key.name.inj he)) (hfree name hname)

/-- The callback is read from the scope of the helper, around the scope of the round. -/
theorem reads_callback (hr : h.InRound j R S A x v k) : h.getField S (.name "callback") = j.callback := by
  obtain ⟨A', hM⟩ := hr.frame
  rw [hr.outer (by decide) (by decide)]
  exact hr.chained.getField_found hM (by decide) rfl

theorem reads_result (hr : h.InRound j R S A x v k) : h.getField S (.name "result") = .bare (.object R) := by
  obtain ⟨A', hM⟩ := hr.frame
  rw [hr.outer (by decide) (by decide)]
  exact hr.chained.getField_found hM (by decide) rfl

/-- The arguments of the round are read in its own scope, under the name they are kept by. -/
theorem reads_args (hr : h.InRound j R S A x v k) : h.getField S (.name x) = .bare (.object A) := by
  obtain ⟨fields, hS, hx, -⟩ := hr.scope
  exact hr.chained.getField_found hS (fun he => hr.named (Key.name.inj he)) hx

/-- The element can be read, also if it is null and has left no field. -/
theorem reads_element (hr : h.InRound j R S A x v k) (hw : h.WellFormed)
    (hs : h.Stocked j.global j.listProto) (hv : v.stored = v) : h.getField A (.index 0) = v := by
  obtain ⟨caller, hA⟩ := hr.args
  by_cases hnull : v.value = .null
  · have hfind : (Entries.fields (.callback caller v k)).find? (.index 0) = none := by
      simp [Entries.fields, Entries.callback, Fields.write, Fields.put, Fields.erase, Fields.find?, hnull,
        Value.isNull, Labeled.bare, Labeled.whole]
    rw [hr.chained.getField_outer hA (Key.index_ne_proto 0) hfind, hs.objectProto_index hw, ← hv,
      Labeled.stored_of_null hnull]
  · have hnull' : v.value.isNull = false := Bool.eq_false_iff.mpr fun he => hnull (Value.isNull_iff.mp he)
    refine hr.chained.getField_found hA (Key.index_ne_proto 0) ?_
    simp only [Entries.fields, Entries.callback, List.foldl_cons, List.foldl_nil]
    rw [Fields.find?_write_ne (by decide), Fields.find?_write_self (by simp [Fields.write, Fields.put, Fields.keys,
      Labeled.bare, Value.isNull]), Labeled.field?_of_ne_null hnull]

theorem reads_index (hr : h.InRound j R S A x v k) : h.getField A (.index 1) = .whole k := by
  obtain ⟨caller, hA⟩ := hr.args
  refine hr.chained.getField_found hA (Key.index_ne_proto 1) ?_
  simp only [Entries.fields, Entries.callback, List.foldl_cons, List.foldl_nil]
  exact Fields.find?_put_self ..

theorem lt (hr : h.InRound j R S A x v k) : j.scope < h.size ∧ S < h.size ∧ A < h.size := by
  obtain ⟨A', hM⟩ := hr.frame
  obtain ⟨fields, hS, -⟩ := hr.scope
  obtain ⟨caller, hA⟩ := hr.args
  exact ⟨lt_of_get hM, lt_of_get hS, lt_of_get hA⟩

/-- It depends on three objects. -/
theorem of_get (hr : h.InRound j R S A x v k) (hc : h'.Chained) (hframe : h'.get j.scope = h.get j.scope)
    (hscope : h'.get S = h.get S) (hargs : h'.get A = h.get A) : h'.InRound j R S A x v k :=
  ⟨hc, hframe ▸ hr.frame, hscope ▸ hr.scope, hr.named, hargs ▸ hr.args⟩

/-- New objects do not change the scope of a round. -/
theorem grows (hr : h.InRound j R S A x v k) (hc : h'.Chained) (hg : h.Grows h') : h'.InRound j R S A x v k :=
  hr.of_get hc (hg.get_eq _ hr.lt.1) (hg.get_eq S hr.lt.2.1) (hg.get_eq A hr.lt.2.2)

/-- The functions of the library are found from here. -/
theorem provides (hr : h.InRound j R S A x v k) (hs : h.Stocked j.global j.listProto) {b : String × Builtin}
    (hb : b ∈ Library.globals) : h.Provides S b.1 (.builtin b.2 j.global) := by
  obtain ⟨A', hM⟩ := hr.frame
  obtain ⟨fields, hS, -, hfree⟩ := hr.scope
  have hnames : ∀ b ∈ Library.globals, b.1 ∉ Iteration.roundNames ∧ b.1 ≠ "proto" ∧
      (j.frame A' (Iteration.result R)).fields.find? (.name b.1) = none := by
    simp [Library.globals, Iteration.roundNames, Iteration.frame, Iteration.bindings, Iteration.result, Fields.find?]
  obtain ⟨hround, hproto, hfind⟩ := hnames b hb
  exact ((hs.globals b hb).inner hr.chained hM hproto hfind).inner hr.chained hS hproto (hfree _ hround)

end Heap.InRound

namespace Machine

variable {q q' m₁ : Machine} {j : Iteration} {R S A X : ObjectId} {x : String} {v r w : Labeled} {k : Nat}
  {code : Code} {acc : List Labeled}

/-- `callback(x.0, x.1)` -/
theorem callback_evaluates (hq : q.Sound) (hr : q.heap.InRound j R S A x v k)
    (hs : q.heap.Stocked j.global j.listProto) (hf : q.heap.IsFunction j.callback) (hv : v.stored = v)
    (hcall : q.Invokes j.callback (.callback S v k) r m₁) :
    q.Evaluates (.call none (Library.name "callback")
      [Library.positional (.field none (Library.name x) (.index 0)),
        Library.positional (.field none (Library.name x) (.index 1))]) S r m₁ := by
  obtain ⟨id, code, captured, hid, hkind⟩ := hf
  have hcaptured : captured < q.heap.size := by
    have hbelow := (hq.wellFormed.sound id).kind_below
    rwa [hkind] at hbelow
  -- as for `forEach`, the arguments are evaluated when the scope of the call has been opened
  have hgrows := Heap.Grows.openScope q.heap captured
  have hopening := hq.opening hcaptured
  have hr' : (q.opening captured).heap.InRound j R S A x v k := hr.grows hopening.wellFormed.chained hgrows
  have hs' := hs.grows hq.wellFormed hopening.wellFormed hgrows
  have hfield : ∀ {n u}, (q.opening captured).heap.getField A (.index n) = u →
      (q.opening captured).Evaluates (.field none (Library.name x) (.index n)) S u (q.opening captured) :=
    fun hu => .field (.reads hr'.reads_args) (congrArg Except.ok hu)
  refine .call (.reads hr.reads_callback) (Invokes.of_same_entries hid hkind rfl
    (.withSelf (.positional (hfield (hr'.reads_element hopening.wellFormed hs' hv)) rfl
      (.positional (hfield hr'.reads_index) rfl (.nil _))))
    (callback_materializes _ S v k) hcall)

/-- `result.add(…)` -/
theorem add_evaluates (hread : q.heap.getField X (.name "result") = .bare (.object R)) (hc : q.heap.Chained)
    (hs : q.heap.Stocked j.global j.listProto) (hl : q.heap.IsList j.listProto R acc)
    (hcode : q.entered.Evaluates code X w m₁) (horigin : code.origin = none)
    (hl₁ : m₁.heap.IsList j.listProto R acc) (hc₁ : m₁.heap.Chained) (hlt : acc.length + 1 < 2 ^ 53) :
    q.Evaluates (.send none (Library.name "result") (.name "add") [Library.positional code]) X w
      (m₁.withHeap (m₁.heap.appended R acc.length w)).left := by
  obtain ⟨id, hadd, hkind⟩ := hs.methods ("add", .listAdd) (by simp [Library.methods])
  have hmethod : q.heap.getValueField (.object R) (.name "add") = .ok (.bare (.object id)) :=
    congrArg Except.ok ((hl.getField_name hc (by decide) (by decide)).trans hadd)
  exact .send (.reads hread) hmethod
    (.add rfl hkind (.withSelf (.positional hcode horigin (.nil _))) rfl hl₁ hc₁ (Nat.lt_of_succ_lt hlt))

end Machine

/-! ### Rounds that collect

What is kept from one round to the next while a new list grows. -/

namespace Heap

variable {h : Heap} {global listProto R : ObjectId} {acc : List Labeled}

/-- Appending to a list changes nothing that the helpers rely on. -/
theorem Stocked.appended (hs : h.Stocked global listProto) (hw : h.WellFormed) (hl : h.IsList listProto R acc)
    {v : Labeled} (hv : v.Below h.size) (n : Nat) : (h.appended R n v).Stocked global listProto :=
  (hs.writeIndex hw hl.proto n v).define (hw.writeOwn (Key.index_ne_proto n) hv) (by decide) R _

end Heap

namespace Iteration

/-- The iteration that a helper starts in turn, with a callback that it makes itself: the scope of the call and
the callback are the next two objects. -/
def inner (j : Iteration) (F : ObjectId) : Iteration :=
  { j with scope := F, callback := .bare (.object (F + 1)) }

/-- Between two rounds of the inner iteration: the list `R` has been collected so far. -/
structure Collecting (j : Iteration) (F R : ObjectId) (codes : List Code) (acc : List Labeled) (p : Machine) :
    Prop extends j.Bound (result R) p where
  collected : p.heap.IsList j.listProto R acc
  round : (p.heap.get (F + 1)).kind = .function ⟨[], [], codes⟩ j.scope
  list_ne_result : j.list ≠ R
  scope_ne_inner : j.scope ≠ F

variable {j : Iteration} {F R : ObjectId} {codes : List Code} {acc acc' : List Labeled} {p p' p₁ : Machine} {k : Nat}
  {r : Labeled}

namespace Collecting

/-- New objects do not change what has been collected. -/
theorem grows (hc : j.Collecting F R codes acc p) (hs : p'.Sound) (hg : p.heap.Grows p'.heap) :
    j.Collecting F R codes acc p' where
  toBound := hc.toBound.grows hs hg
  collected := hc.collected.of_get (hc.collected.lt.trans_le hg.size_le) (hg.get_eq R hc.collected.lt)
  round := (congrArg Object.kind (hg.get_eq _ (Heap.lt_of_function hc.round))).trans hc.round
  list_ne_result := hc.list_ne_result
  scope_ne_inner := hc.scope_ne_inner

/-- Up to the call of the round, only scopes have been made. -/
theorem calling (hc : j.Collecting F R codes acc p) (hb : (j.inner F).Between k p) :
    j.Collecting F R codes acc ((j.inner F).calling p) :=
  hc.grows (Bound.calling hb).sound ((j.inner F).calling_grows p)

/-- A round of the inner iteration has made its call, and the iteration counts on. -/
theorem counted (hc : j.Collecting F R codes acc p) (hb : (j.inner F).Between k p)
    (hcall : ((j.inner F).calling p).Invokes (j.inner F).callback
      (.callback ((j.inner F).caller p) (j.elements.getD k .null) k) r p')
    (hkeeps : ((j.inner F).calling p).Keeps p' [F, (j.inner F).caller p, j.list, j.scope])
    (hs : p'.heap.Stocked j.global j.listProto) (hcollected : p'.heap.IsList j.listProto R acc') :
    (j.inner F).Undisturbed p p' ∧ j.Collecting F R codes acc' ((j.inner F).counted k p') := by
  have hcalling := hc.calling hb
  have hinner : (j.inner F).Between k ((j.inner F).calling p) := Bound.calling hb
  -- the list, the scope of the helper and the objects of the round are as they were before the call
  have hlist := hkeeps j.list (by simp)
  have hscope := hkeeps j.scope (by simp)
  obtain ⟨hintact, hext, -⟩ := hinner.invoked hb.caller_lt hcall hlist hs
  have hbound : j.Bound (result R) p' :=
    ⟨⟨hintact.sound, hs, hintact.list, hcalling.callback.extends hext⟩, by rw [hscope]; exact hcalling.frame⟩
  obtain ⟨A, hF⟩ := hinner.frame
  have hF' : p'.heap.get F = (j.inner F).frame A (counter k) := (hkeeps F (by simp)).trans hF
  have hname : "i" ∉ Library.reserved := by decide
  -- all that is left to do is to count up, in the scope of the round
  have hdefine := hbound.toIntact.define (v := .whole (k + 1)) (Heap.lt_of_get hF') hname
    (hintact.list.ne_scope hF') trivial
  refine ⟨⟨fun x hx => hkeeps x (List.mem_append_left [j.scope] hx), hs⟩, ⟨hdefine.of_heap rfl rfl, ?_⟩, ?_, ?_,
    hc.list_ne_result, hc.scope_ne_inner⟩
  · have hget : ((j.inner F).counted k p').heap.get j.scope = p'.heap.get j.scope :=
      counted_get hc.scope_ne_inner
    rw [hget]
    exact hbound.frame
  · have hne : R ≠ (j.inner F).scope := hcollected.ne_scope hF'
    have hget : ((j.inner F).counted k p').heap.get R = p'.heap.get R := counted_get hne
    exact hcollected.of_get (hcollected.lt.trans_le (p'.heap.extends_writeOwn ..).size_le) hget
  · have hkind := hext.trans (p'.heap.extends_writeOwn F (.name "i") (.whole (k + 1)))
    rw [← hcalling.round]
    exact hkind.kind_eq _ (Heap.lt_of_function hcalling.round)

end Collecting

/-- A round has come to its body, in a scope of its own. -/
def answering (j : Iteration) (F k : Nat) (p : Machine) : Machine :=
  ((j.inner F).calling p).inside j.scope (.callback ((j.inner F).caller p) (j.elements.getD k .null) k)

/-- The scope of a round, which is followed by the object with its arguments. -/
def roundScope (j : Iteration) (F : ObjectId) (p : Machine) : ObjectId := ((j.inner F).calling p).heap.size

/-- The scope of the round and the object with its arguments are new. -/
theorem answering_grows (j : Iteration) (F k : Nat) (p : Machine) :
    ((j.inner F).calling p).heap.Grows (j.answering F k p).heap := .enter ..

namespace Collecting

/-- In the body of the round, the same has been collected as before. -/
theorem answering (hc : j.Collecting F R codes acc p) (hb : (j.inner F).Between k p) :
    j.Collecting F R codes acc (j.answering F k p) := by
  have hcalling := hc.calling hb
  have hentries := Entries.callback_below hb.caller_lt (hcalling.element_below k) k
  exact hcalling.grows
    (hcalling.sound.inside hcalling.scope_lt hentries (Entries.proto_not_mem_callback _ _ _)) (.enter ..)

/-- The body of the round runs in a scope that shows it all that it needs. -/
theorem inRound (hc : j.Collecting F R codes acc p) (hb : (j.inner F).Between k p) :
    (j.answering F k p).heap.InRound j R (j.roundScope F p) (j.roundScope F p + 1) "args"
      (j.elements.getD k .null) k where
  chained := (hc.answering hb).sound.wellFormed.chained
  frame := (hc.answering hb).frame
  scope := by
    refine ⟨_, Heap.get_enter_scope .., Heap.find?_scopeFields_args .., fun name hname => ?_⟩
    refine Heap.find?_scopeFields fun hmem => hname ?_
    exact List.mem_append_left ["entry"] hmem
  named := by decide
  args := ⟨_, Heap.get_enter_args ..⟩

/-- The objects of the two iterations are there, and none is the collected list. -/
theorem apart (hc : j.Collecting F R codes acc p) (hb : (j.inner F).Between k p) {x : ObjectId}
    (hx : x ∈ [F, (j.inner F).caller p, j.list, j.scope]) : x ≠ R ∧ x < ((j.inner F).calling p).heap.size := by
  have hcalling := hc.calling hb
  have hinner : (j.inner F).Bound (counter k) ((j.inner F).calling p) := Bound.calling hb
  obtain ⟨A, hF⟩ := hinner.frame
  obtain ⟨A', hB⟩ := (Between.inFrame (Bound.tested hb)).inner
  obtain ⟨A'', hM⟩ := hcalling.frame
  simp only [List.mem_cons, List.not_mem_nil, or_false] at hx
  rcases hx with rfl | rfl | rfl | rfl
  · exact ⟨(hcalling.collected.ne_scope hF).symm, hinner.scope_lt⟩
  · exact ⟨(hcalling.collected.ne_scope hB).symm, hb.caller_lt⟩
  · exact ⟨hc.list_ne_result, hcalling.list.lt⟩
  · exact ⟨(hcalling.collected.ne_scope hM).symm, hcalling.scope_lt⟩

/-- What the body of a round does is what its call does. -/
theorem invokes {m₂ : Machine} (hc : j.Collecting F R codes acc p) (hb : (j.inner F).Between k p)
    (hbody : (j.answering F k p).EvaluatesAll codes (j.roundScope F p) r m₂) :
    ((j.inner F).calling p).Invokes (j.inner F).callback
      (.callback ((j.inner F).caller p) (j.elements.getD k .null) k) r m₂.left :=
  .lambda rfl (hc.calling hb).round rfl (Machine.callback_materializes ..) (Entries.proto_not_mem_callback _ _ _) hbody

end Collecting

/-! ### `map`

A round adds what the callback yields. -/

/-- A round of `map` has come to the call of the callback, on the way to a call of `add`. -/
def mapping (j : Iteration) (F k : Nat) (p : Machine) : Machine := (j.answering F k p).entered

/-- A round of `map` has added the result of the callback. -/
def mapped (R n : Nat) (r : Labeled) (p : Machine) : Machine := (p.withHeap (p.heap.appended R n r)).left.left

/-- Counting the call of `add` changes nothing. -/
theorem Collecting.mapping_bound (hc : j.Collecting F R codes acc p) (hb : (j.inner F).Between k p) :
    j.Bound (result R) (j.mapping F k p) := (hc.answering hb).toBound.of_heap rfl rfl

/-- The scope that the callback is called from is there. -/
theorem Collecting.mapping_scope (hc : j.Collecting F R codes acc p) (hb : (j.inner F).Between k p) :
    j.roundScope F p < (j.mapping F k p).heap.size := (hc.inRound hb).lt.2.1

/-- **A round of `map`** adds what the callback yields. -/
theorem Collecting.map_round (hc : j.Collecting F R Library.mapRound acc p) (hb : (j.inner F).Between k p)
    (hlt : acc.length + 1 < 2 ^ 53)
    (hcall : (j.mapping F k p).Invokes j.callback (.callback (j.roundScope F p) (j.elements.getD k .null) k) r p₁)
    (hkeeps : (j.mapping F k p).Keeps p₁ [F, (j.inner F).caller p, j.list, j.scope, R])
    (hs : p₁.heap.Stocked j.global j.listProto) :
    ((j.inner F).calling p).Invokes (j.inner F).callback
        (.callback ((j.inner F).caller p) (j.elements.getD k .null) k) r (mapped R acc.length r p₁) ∧
      (j.inner F).Undisturbed p (mapped R acc.length r p₁) ∧
      j.Collecting F R Library.mapRound (acc ++ [r.stored])
        ((j.inner F).counted k (mapped R acc.length r p₁)) := by
  have hq := hc.answering hb
  have hround := hc.inRound hb
  have hmapping := hc.mapping_bound hb
  obtain ⟨hintact, hext, hr⟩ := hmapping.invoked (hc.mapping_scope hb) hcall (hkeeps j.list (by simp)) hs
  -- the new list was not touched by the callback, so the result is added behind the others
  have hcollected : p₁.heap.IsList j.listProto R acc :=
    hq.collected.of_get (hq.collected.lt.trans_le hext.size_le) (hkeeps R (by simp))
  have hcallback := Machine.callback_evaluates hmapping.sound hround hmapping.stocked hmapping.callback
    (hq.element_stored k) hcall
  have hbody := Machine.add_evaluates hround.reads_result hround.chained hq.stocked hq.collected hcallback rfl
    hcollected hintact.sound.wellFormed.chained hlt
  have hinvokes := hc.invokes hb (.single hbody)
  refine ⟨hinvokes, hc.counted hb hinvokes (fun x hx => ?_) ?_ ?_⟩
  -- an object that the iteration relies on is neither the new list nor one of those that the round has made
  · obtain ⟨hne, hx'⟩ := hc.apart hb hx
    calc (mapped R acc.length r p₁).heap.get x
      _ = p₁.heap.get x := Heap.get_appended_ne hne ..
      _ = (j.mapping F k p).heap.get x := hkeeps x (List.mem_append_left [R] hx)
      _ = ((j.inner F).calling p).heap.get x := (j.answering_grows F k p).get_eq x hx'
  · exact hs.appended hintact.sound.wellFormed hcollected hr _
  · exact hcollected.appended r

/-! ### `filter`

A round keeps the arguments it is called with, asks the callback, and adds the element if the answer is true. -/

/-- A round of `filter` has kept its arguments under another name. -/
def keeping (j : Iteration) (F k : Nat) (p : Machine) : Machine :=
  (j.answering F k p).withHeap
    ((j.answering F k p).heap.define (j.roundScope F p) "entry" (.bare (.object (j.roundScope F p + 1))))

/-- A round of `filter` has come to the call of the callback, on the way to a call of `if`. -/
def filtering (j : Iteration) (F k : Nat) (p : Machine) : Machine := (j.keeping F k p).entered

/-- The callback has been called in the scope `S` of the round, and the branch has been made. -/
def deciding (S : ObjectId) (p : Machine) : Machine := p.making Library.accept S

/-- The branch has been called, and has added the element. -/
def accepted (S R n : Nat) (v : Labeled) (p : Machine) : Machine :=
  let q := (p.inside S []).entered
  (q.withHeap (q.heap.appended R n v)).left.left

/-- What a round of `filter` leaves. -/
def filtered (S R n : Nat) (v r : Labeled) (p : Machine) : Machine :=
  if r.isTrue then (accepted S R n v (deciding S p)).left.left else (deciding S p).left.left

/-- The elements that the answers select. -/
def selection (vs rs : List Labeled) : List Labeled := ((vs.zip rs).filter fun e => e.2.isTrue).map Prod.fst

@[simp] theorem selection_nil (vs : List Labeled) : selection vs [] = [] := by
  rw [selection, List.zip_nil_right]
  rfl

/-- There are no more elements selected than answers. -/
theorem selection_length_le (vs rs : List Labeled) : (selection vs rs).length ≤ rs.length := by
  rw [selection, List.length_map]
  exact (List.length_filter_le ..).trans (by rw [List.length_zip]; exact Nat.min_le_right ..)

/-- One more answer selects its element or nothing. -/
theorem selection_snoc : ∀ {vs rs : List Labeled}, rs.length < vs.length → ∀ r,
    selection vs (rs ++ [r]) = selection vs rs ++ if r.isTrue then [vs.getD rs.length .null] else []
  | v :: vs, [], _, r => by
      simp only [selection, List.nil_append, List.zip_cons_cons, List.zip_nil_right, List.filter_cons]
      cases r.isTrue <;> rfl
  | v :: vs, r' :: rs, hlt, r => by
      have hlt' : rs.length < vs.length := Nat.lt_of_succ_lt_succ hlt
      have ih := selection_snoc hlt' r
      simp only [selection, List.cons_append, List.zip_cons_cons, List.filter_cons] at ih ⊢
      cases r'.isTrue with
      | false => exact ih
      | true => exact congrArg (v :: ·) ih

namespace Collecting

/-- The first statement of `filter` binds the arguments of the round to `entry`, where a branch that is called
inside of the round still finds them: `args` would be the arguments of the branch. -/
theorem keeping (hc : j.Collecting F R codes acc p) (hb : (j.inner F).Between k p) :
    (j.answering F k p).Evaluates (.store none (Library.name "this") (.name "entry") (Library.name "args"))
        (j.roundScope F p) (.bare (.object (j.roundScope F p + 1))) (j.keeping F k p) ∧
      j.Collecting F R codes acc (j.keeping F k p) ∧
      (j.keeping F k p).heap.InRound j R (j.roundScope F p) (j.roundScope F p + 1) "entry"
        (j.elements.getD k .null) k := by
  -- the only object that is written to is the scope of the round, which is none of the others
  have hq := hc.answering hb
  have hround := hc.inRound hb
  obtain ⟨hM, hS, hA⟩ := hround.lt
  have hget : (j.answering F k p).heap.get (j.roundScope F p) = _ := Heap.get_enter_scope ..
  have hthis : (j.answering F k p).heap.getField (j.roundScope F p) (.name "this") =
      .bare (.object (j.roundScope F p)) :=
    hround.chained.getField_found hget (by decide) (Heap.find?_scopeFields_this ..)
  have hself := Heap.get_writeOwn_self hS (.name "entry") (.bare (.object (j.roundScope F p + 1)))
  rw [hget] at hself
  have hother : ∀ {x}, x ≠ j.roundScope F p → (j.keeping F k p).heap.get x = (j.answering F k p).heap.get x :=
    fun hx => Heap.get_writeOwn_ne hx _ _
  have hscope : j.scope ≠ j.roundScope F p := Nat.ne_of_lt (hc.apart hb (by simp)).2
  have hlist : j.list ≠ j.roundScope F p := Nat.ne_of_lt (hc.apart hb (by simp)).2
  have hresult : R ≠ j.roundScope F p := Nat.ne_of_lt (hc.calling hb).collected.lt
  have hdefine : j.Intact (j.keeping F k p) := hq.toIntact.define hS (by decide) hlist hA
  have hext := (j.answering F k p).heap.extends_writeOwn (j.roundScope F p) (.name "entry")
    (.bare (.object (j.roundScope F p + 1)))
  -- what has been collected is read from objects that are as they were
  refine ⟨.bindThis (.reads hround.reads_args) rfl (by decide) hthis,
    ⟨⟨hdefine, ?_⟩, ?_, ?_, hc.list_ne_result, hc.scope_ne_inner⟩, ⟨hdefine.sound.wellFormed.chained, ?_, ?_, ?_, ?_⟩⟩
  · rw [hother hscope]
    exact hq.frame
  · exact hq.collected.of_get (hq.collected.lt.trans_le hext.size_le) (hother hresult)
  · exact (hext.kind_eq _ (Heap.lt_of_function hq.round)).trans hq.round
  · rw [hother hscope]
    exact hround.frame
  -- a name that is read in the scope of the round is the new one, or was there before
  · refine ⟨_, hself, Fields.find?_put_self .., fun name hname => ?_⟩
    have hne : Key.name name ≠ .name "entry" := fun he => hname (Key.name.inj he ▸ by decide)
    rw [Fields.find?_write_ne hne]
    dsimp only
    exact Heap.find?_scopeFields fun hmem => hname (List.mem_append_left ["entry"] hmem)
  · decide
  · rw [hother (Nat.succ_ne_self _)]
    exact hround.args

/-- Counting the call of `if` changes nothing. -/
theorem filtering_bound (hc : j.Collecting F R codes acc p) (hb : (j.inner F).Between k p) :
    j.Bound (result R) (j.filtering F k p) := (hc.keeping hb).2.1.toBound.of_heap rfl rfl

/-- The scope that the callback is called from is there. -/
theorem filtering_scope (hc : j.Collecting F R codes acc p) (hb : (j.inner F).Between k p) :
    j.roundScope F p < (j.filtering F k p).heap.size := (hc.keeping hb).2.2.lt.2.1

/-- The callback has answered, and the arguments of `if` are evaluated. -/
theorem deciding (hc : j.Collecting F R codes acc p) (hb : (j.inner F).Between k p)
    (hcall : (j.filtering F k p).Invokes j.callback
      (.callback (j.roundScope F p) (j.elements.getD k .null) k) r p₁)
    (hkeeps : (j.filtering F k p).Keeps p₁
      [F, (j.inner F).caller p, j.list, j.scope, R, j.roundScope F p, j.roundScope F p + 1])
    (hs : p₁.heap.Stocked j.global j.listProto) :
    let S := j.roundScope F p
    let d := Iteration.deciding S p₁
    j.Collecting F R codes acc d ∧ d.heap.InRound j R S (S + 1) "entry" (j.elements.getD k .null) k ∧
      ((j.inner F).calling p).Keeps d [F, (j.inner F).caller p, j.list, j.scope] ∧
      ((j.inner F).calling p).heap.size ≤ d.heap.size ∧
      (j.filtering F k p).Materializes (.withSelf (.bare (.object S))
        [Library.positional (.call none (Library.name "callback")
          [Library.positional (.field none (Library.name "entry") (.index 0)),
            Library.positional (.field none (Library.name "entry") (.index 1))]),
          Library.positional (Library.block Library.accept)] S)
        [(.name "self", .bare (.object S)), (.index 0, r), (.index 1, .bare (.object p₁.heap.size))] d := by
  -- the callback keeps the objects of the round, so it goes on in the same scope
  obtain ⟨-, hq, hround⟩ := hc.keeping hb
  have hfiltering := hc.filtering_bound hb
  obtain ⟨hintact, hext, -⟩ := hfiltering.invoked (hc.filtering_scope hb) hcall (hkeeps j.list (by simp)) hs
  have hround₁ : p₁.heap.InRound j R (j.roundScope F p) (j.roundScope F p + 1) "entry"
      (j.elements.getD k .null) k :=
    hround.of_get hintact.sound.wellFormed.chained (hkeeps j.scope (by simp))
      (hkeeps (j.roundScope F p) (by simp)) (hkeeps (j.roundScope F p + 1) (by simp))
  have hcollecting₁ : j.Collecting F R codes acc p₁ :=
    ⟨⟨hintact, hround₁.frame⟩, hq.collected.of_get (hq.collected.lt.trans_le hext.size_le) (hkeeps R (by simp)),
      (hext.kind_eq _ (Heap.lt_of_function hq.round)).trans hq.round, hc.list_ne_result, hc.scope_ne_inner⟩
  -- then the branch is made, which is one more object
  have hgrows := p₁.making_grows Library.accept (j.roundScope F p)
  have haccept : Code.BodyBelow p₁.heap.size Library.accept := by
    simp [Library.accept, Code.BodyBelow, Code.Below, Code.ArgsBelow]
  have hsound := hintact.sound.making hround₁.lt.2.1 haccept
  have hcallback := Machine.callback_evaluates hfiltering.sound hround hfiltering.stocked hfiltering.callback
    (hq.element_stored k) hcall
  have hsize : ((j.inner F).calling p).heap.size ≤ p₁.heap.size := by
    have hkept : (j.filtering F k p).heap.size = (j.answering F k p).heap.size := Heap.size_writeOwn ..
    exact ((j.answering_grows F k p).size_le.trans hkept.ge).trans hext.size_le
  refine ⟨hcollecting₁.grows hsound hgrows, hround₁.grows hsound.wellFormed.chained hgrows, fun x hx => ?_,
    hsize.trans hgrows.size_le,
    .withSelf (.positional hcallback rfl (.positional (.block _ _ _) rfl (.nil _)))⟩
  -- an object that the iteration relies on is none of those that the round has written to
  have hx' := (hc.apart hb hx).2
  calc (Iteration.deciding (j.roundScope F p) p₁).heap.get x
    _ = p₁.heap.get x := hgrows.get_eq x (hx'.trans_le hsize)
    _ = (j.filtering F k p).heap.get x :=
      hkeeps x (List.mem_append_left [R, j.roundScope F p, j.roundScope F p + 1] hx)
    _ = (j.answering F k p).heap.get x := Heap.get_writeOwn_ne (Nat.ne_of_lt hx') _ _
    _ = ((j.inner F).calling p).heap.get x := (j.answering_grows F k p).get_eq x hx'

/-- The branch of `filter` adds the element. -/
theorem accepts {S A e : ObjectId} {v : Labeled} {d : Machine} (hd : j.Collecting F R codes acc d)
    (hr : d.heap.InRound j R S A "entry" v k) (hv : v.stored = v) (hlt : acc.length + 1 < 2 ^ 53)
    (he : (d.heap.get e).kind = .function ⟨[], [], Library.accept⟩ S) (scope : ObjectId) :
    d.Invokes (.bare (.object e)) (.ofValues [] scope) v (accepted S R acc.length v d) := by
  have hsound := hd.sound.inside_nil hr.lt.2.1
  have hgrows := Heap.Grows.enter d.heap S []
  have hd' := hd.grows hsound hgrows
  have hr' : (d.inside S []).heap.InRound j R S A "entry" v k := hr.grows hsound.wellFormed.chained hgrows
  have houter : ∀ name, name ∉ ["this", "args", "it", "self"] → name ≠ "proto" →
      (d.inside S []).heap.getField d.heap.size (.name name) = (d.inside S []).heap.getField S (.name name) :=
    fun name hname hproto => hr'.chained.getField_outer (Heap.get_enter_scope ..)
      (fun he => hproto (Key.name.inj he)) (Heap.find?_scopeFields hname)
  have helement : (d.inside S []).entered.Evaluates (.field none (Library.name "entry") (.index 0)) d.heap.size v
      (d.inside S []).entered :=
    .field (.reads ((houter "entry" (by decide) (by decide)).trans hr'.reads_args))
      (congrArg Except.ok (hr'.reads_element hsound.wellFormed hd'.stocked hv))
  exact .block rfl he (.single (Machine.add_evaluates
    ((houter "result" (by decide) (by decide)).trans hr'.reads_result) hr'.chained hd'.stocked hd'.collected
    helement rfl hd'.collected hr'.chained hlt))

/-- **A round of `filter`** adds the element if the callback says so. -/
theorem filter_round (hc : j.Collecting F R Library.filterRound acc p) (hb : (j.inner F).Between k p)
    (hlt : acc.length + 1 < 2 ^ 53) {b : Bool} (hr : r.value = .boolean b)
    (hcall : (j.filtering F k p).Invokes j.callback
      (.callback (j.roundScope F p) (j.elements.getD k .null) k) r p₁)
    (hkeeps : (j.filtering F k p).Keeps p₁
      [F, (j.inner F).caller p, j.list, j.scope, R, j.roundScope F p, j.roundScope F p + 1])
    (hs : p₁.heap.Stocked j.global j.listProto) :
    let p' := filtered (j.roundScope F p) R acc.length (j.elements.getD k .null) r p₁
    ∃ w, ((j.inner F).calling p).Invokes (j.inner F).callback
        (.callback ((j.inner F).caller p) (j.elements.getD k .null) k) w p' ∧
      (j.inner F).Undisturbed p p' ∧
      j.Collecting F R Library.filterRound (acc ++ if r.isTrue then [j.elements.getD k .null] else [])
        ((j.inner F).counted k p') := by
  obtain ⟨hentry, hq, hround⟩ := hc.keeping hb
  obtain ⟨hd, hround', hkeeps', hsize, hargs⟩ := hc.deciding hb hcall hkeeps hs
  obtain ⟨c, hread, hkind⟩ := hround.provides hq.stocked (b := ("if", .choose)) (by simp [Library.globals])
  -- which branch is taken is what the callback has answered
  have hanswer : r.isTrue = b := by rw [Labeled.isTrue, hr]
  have hbranch := p₁.making_kind Library.accept (j.roundScope F p)
  have hcallable : (Iteration.deciding (j.roundScope F p) p₁).heap.isCallable (.object p₁.heap.size) = true := by
    rw [Heap.isCallable, show ((Iteration.deciding _ p₁).heap.get _).kind = _ from hbranch]
    rfl
  -- if the element is not accepted, the list is as it was
  cases b with
  | false =>
    have hif : (j.keeping F k p).Invokes (.bare (.object c)) _ .null _ :=
      .choose_false rfl hkind hargs hr hcallable
    have hinvokes := hc.invokes hb (.cons hentry (.single (.call (.reads hread) hif)))
    rw [filtered, hanswer, if_neg Bool.false_ne_true, if_neg Bool.false_ne_true, List.append_nil]
    exact ⟨_, hinvokes, hc.counted hb hinvokes hkeeps' hd.stocked hd.collected⟩
  -- otherwise it has been added at the end
  | true =>
    have haccepts := hd.accepts hround' (hc.element_stored k) hlt hbranch
      (Iteration.deciding (j.roundScope F p) p₁).global
    have hif : (j.keeping F k p).Invokes (.bare (.object c)) _ _ _ :=
      .choose_true rfl hkind hargs hr hcallable haccepts
    have hinvokes := hc.invokes hb (.cons hentry (.single (.call (.reads hread) hif)))
    have hinside := hd.sound.inside_nil hround'.lt.2.1
    have hd' := hd.grows hinside (.enter ..)
    rw [filtered, hanswer, if_pos rfl, if_pos rfl]
    refine ⟨_, hinvokes, hc.counted hb hinvokes (fun x hx => ?_) ?_ ?_⟩
    · obtain ⟨hne, hx'⟩ := hc.apart hb hx
      exact ((Heap.get_appended_ne hne ..).trans (Heap.get_enter_of_lt (hx'.trans_le hsize))).trans (hkeeps' x hx)
    · exact hd'.stocked.appended hinside.wellFormed hd'.collected (hd'.element_below k) _
    · have happended := hd'.collected.appended (j.elements.getD k .null)
      rw [hc.element_stored k] at happended
      exact happended

end Collecting

/-! ### The call

The helper makes the new list and the function that does one round, and then iterates with it. -/

/-- `list()` has been called. -/
def listed (j : Iteration) (p : Machine) : Machine :=
  (p.entered.withHeap (p.heap.alloc ⟨.plain, Fields.ofElements [], some j.listProto⟩).2).left

/-- The helper has bound its callback and a new list. -/
def prepared (j : Iteration) (p : Machine) : Machine :=
  let q := j.listed (j.stored p)
  q.withHeap (q.heap.define j.scope "result" (.bare (.object (j.stored p).heap.size)))

/-- The arguments of its call of `forEach`. -/
def innerArguments (j : Iteration) (codes : List Code) : CallArguments :=
  .withSelf j.self [Library.positional (Library.block codes)] j.scope

/-- The arguments of its call of `forEach` are evaluated. -/
def opened (j : Iteration) (codes : List Code) (q : Machine) : Machine := (q.opening j.global).making codes j.scope

/-- Its inner iteration is before the first round. -/
def innerBegun (j : Iteration) (codes : List Code) (q : Machine) : Machine :=
  (j.inner q.heap.size).begun ((j.inner q.heap.size).received (j.opened codes q))

/-- Before its inner iteration, the helper has changed no object but its scope. -/
theorem prepared_get {p : Machine} {x : ObjectId} (hx : x ≠ j.scope) (hlt : x < p.heap.size) :
    (j.prepared p).heap.get x = p.heap.get x := by
  have hlt' : x < (j.stored p).heap.size := (Heap.size_writeOwn ..).symm ▸ hlt
  calc (j.prepared p).heap.get x
    _ = (j.listed (j.stored p)).heap.get x := Heap.get_writeOwn_ne hx _ _
    _ = (j.stored p).heap.get x := Heap.get_alloc_of_lt hlt'
    _ = p.heap.get x := Heap.get_writeOwn_ne hx _ _

/-- The second statement of such a helper binds a new list. -/
theorem Entered.prepares (he : j.Entered p) :
    (j.stored p).Evaluates (.store none (Library.name "this") (.name "result") (.call none (Library.name "list") []))
        j.scope (.bare (.object (j.stored p).heap.size)) (j.prepared p) ∧
      j.Bound (result (j.stored p).heap.size) (j.prepared p) ∧
      (j.prepared p).heap.IsList j.listProto (j.stored p).heap.size [] ∧
      j.list ≠ (j.stored p).heap.size ∧ (j.prepared p).heap.get j.list = p.heap.get j.list := by
  have hbound := he.stores.2
  obtain ⟨f, hread, hkind⟩ := hbound.provides (b := ("list", .list)) (by simp [Library.globals]) fun A => rfl
  have hargs : (j.stored p).entered.Materializes (.withSelf (.bare (.object j.scope)) [] j.scope)
      [(.name "self", .bare (.object j.scope))] (j.stored p).entered := .withSelf (.nil _)
  have hnone : Entries.positionals [(.name "self", .bare (.object j.scope))] = .indexed 0 [] := rfl
  have hlist : (j.stored p).Evaluates (.call none (Library.name "list") []) j.scope
      (.bare (.object (j.stored p).heap.size)) (j.listed (j.stored p)) :=
    .call (.reads hread) (.list rfl hkind hargs hnone hbound.stocked.prototype)
  have hsound := hlist.sound hbound.sound ⟨trivial, trivial⟩ hbound.scope_lt
  have hlisted : j.Bound [] (j.listed (j.stored p)) := hbound.grows hsound.1 (.alloc ..)
  have hprepared : j.Bound (result (j.stored p).heap.size) (j.prepared p) :=
    hlisted.define (by decide) (fun A => by
      simp [Fields.write, Fields.put, bindings, result, Labeled.bare, Value.isNull]) hsound.2.2
  have hne : (j.stored p).heap.size ≠ j.scope := (Nat.ne_of_lt hbound.scope_lt).symm
  refine ⟨.bindThis hlist rfl (by decide) (hlisted.reads (by decide) fun A => rfl), hprepared, ?_,
    Nat.ne_of_lt hbound.list.lt, prepared_get hbound.list_ne he.list.lt⟩
  refine (Heap.isList_ofElements (j.stored p).heap j.listProto []).of_get ?_ (Heap.get_writeOwn_ne hne _ _)
  exact (hsound.2.2 : (j.stored p).heap.size < _).trans_le (Heap.size_writeOwn ..).ge

section
variable {q : Machine} {more : Fields}

/-- The second object that is made for the inner call is the function that does one round. -/
theorem opened_kind (j : Iteration) (codes : List Code) (q : Machine) :
    ((j.opened codes q).heap.get (q.heap.size + 1)).kind = .function ⟨[], [], codes⟩ j.scope := by
  have hkind := (q.opening j.global).making_kind codes j.scope
  rwa [show (q.opening j.global).heap.size = q.heap.size + 1 from Heap.size_openScope ..] at hkind

/-- `forEach` is called with the same list, and with a function that has been made for it. -/
theorem Bound.inner (hb : j.Bound more q) (hcodes : ∀ n, Code.BodyBelow n codes) :
    (j.inner q.heap.size).Call q (j.innerArguments codes) (j.opened codes q) := by
  have hsize : (q.opening j.global).heap.size = q.heap.size + 1 := Heap.size_openScope ..
  have hself : j.self.value.Below q.heap.size := by
    rw [j.self_value]
    exact hb.list.lt
  have hargs : (q.opening j.global).Materializes (j.innerArguments codes)
      [(.name "self", j.self), (.index 0, .bare (.object (q.opening j.global).heap.size))] (j.opened codes q) :=
    .withSelf (.positional (.block _ _ _) rfl (.nil _))
  rw [hsize] at hargs
  exact {
    sound := hb.sound
    list := hb.list
    scope := rfl
    below := ⟨⟨hself, hcodes _, trivial⟩, hb.scope_lt⟩
    arguments := hargs
    grows := Machine.making_grows ..
    callback := ⟨_, _, _, rfl, j.opened_kind codes q⟩ }

/-- The inner iteration starts with new objects. -/
theorem Bound.innerBegun (hb : j.Bound more q) (hcodes : ∀ n, Code.BodyBelow n codes) :
    (j.inner q.heap.size).Between 0 (j.innerBegun codes q) ∧ q.heap.Grows (j.innerBegun codes q).heap := by
  have hinner := hb.inner hcodes
  exact ⟨(hinner.entered hb.stocked).begun, hinner.begun_grows⟩

/-- Before the first round, nothing has been collected. -/
theorem Bound.collecting (hb : j.Bound (result R) q) (hcollected : q.heap.IsList j.listProto R [])
    (hne : j.list ≠ R) (hcodes : ∀ n, Code.BodyBelow n codes) :
    j.Collecting q.heap.size R codes [] (j.innerBegun codes q) := by
  obtain ⟨hbegun, hgrows⟩ := hb.innerBegun hcodes
  have hext := ((j.opened codes q).heap.extends_bindCall _ _).trans
    ((j.inner q.heap.size).begun_extends ((j.inner q.heap.size).received (j.opened codes q)))
  have hkind := j.opened_kind codes q
  exact ⟨hb.grows hbegun.sound hgrows,
    hcollected.of_get (hcollected.lt.trans_le hgrows.size_le) (hgrows.get_eq _ hcollected.lt),
    (hext.kind_eq _ (Heap.lt_of_function hkind)).trans hkind, hne, Nat.ne_of_lt hb.scope_lt⟩

end

/-- Every round carries the invariant on, and collects. -/
def Collects (j : Iteration) (F R : ObjectId) (codes : List Code) (Inv : Nat → List Labeled → Machine → Prop) :
    Prop :=
  ∀ k acc p, k < j.elements.length → (j.inner F).Between k p → j.Collecting F R codes acc p → Inv k acc p →
    ∃ r p' acc', ((j.inner F).calling p).Invokes (j.inner F).callback
        (.callback ((j.inner F).caller p) (j.elements.getD k .null) k) r p' ∧
      (j.inner F).Undisturbed p p' ∧ j.Collecting F R codes acc' ((j.inner F).counted k p') ∧
      Inv (k + 1) acc' ((j.inner F).counted k p')

/-- The last two statements of such a helper: the inner iteration, and what it has collected. -/
theorem Collects.evaluates {q : Machine} {Inv : Nat → List Labeled → Machine → Prop} (hb : j.Bound (result R) q)
    (hcollecting : j.Collecting q.heap.size R codes [] (j.innerBegun codes q))
    (hn : j.elements.length < 2 ^ 53) (hcodes : ∀ n, Code.BodyBelow n codes)
    (hcollects : j.Collects q.heap.size R codes Inv) (hinv : Inv 0 [] (j.innerBegun codes q)) :
    ∃ acc p', Inv j.elements.length acc p' ∧ j.Collecting q.heap.size R codes acc p' ∧
      (j.inner q.heap.size).Between j.elements.length p' ∧ p'.heap.get j.list = q.heap.get j.list ∧
      q.EvaluatesAll
        [.send none (Library.name "self") (.name "forEach") [Library.positional (Library.block codes)],
          Library.name "result"]
        j.scope (.bare (.object R)) ((j.inner q.heap.size).tested p').left.left := by
  have hcarries : (j.inner q.heap.size).Carries
      fun k p => ∃ acc, j.Collecting q.heap.size R codes acc p ∧ Inv k acc p := by
    rintro k p hk hb ⟨acc, hc, hinv⟩
    obtain ⟨r, p', acc', hinvokes, hkeeps, hc', hinv'⟩ := hcollects k acc p hk hb hc hinv
    exact ⟨r, p', hinvokes, hkeeps, acc', hc', hinv'⟩
  obtain ⟨p', ⟨acc, hc, hinv'⟩, hend, hlist, hforEach⟩ :=
    hcarries.call hn (hb.inner hcodes) hb.stocked ⟨[], hcollecting, hinv⟩
  have hself : q.heap.getField j.scope (.name "self") = j.self := hb.reads (by decide) fun A => rfl
  have hmethod : q.heap.getValueField j.self.value (.name "forEach") =
      .ok (q.heap.getField j.list (.name "forEach")) := by
    rw [j.self_value]
    rfl
  have hresult : j.Bound (result R) ((j.inner q.heap.size).tested p') :=
    hc.toBound.grows (Bound.tested hend).sound ((j.inner q.heap.size).tested_grows p')
  have hread : ((j.inner q.heap.size).tested p').left.left.heap.getField j.scope (.name "result") =
      .bare (.object R) := hresult.reads (by decide) fun A => rfl
  exact ⟨acc, p', hinv', hc, hend, hlist, .cons (.send (.reads hself) hmethod hforEach) (.single (.reads hread))⟩

/-- **A call of a helper that collects a list.** -/
theorem Collects.call {m m₁ : Machine} {args : CallArguments} {name : String}
    {Inv : Nat → List Labeled → Machine → Prop} (hcall : j.Call m args m₁)
    (hs : m.heap.Stocked j.global j.listProto) (hn : j.elements.length < 2 ^ 53)
    (hhelper : (name, Library.collectBody codes) ∈ Library.helpers) (hcodes : ∀ n, Code.BodyBelow n codes)
    (hcollects : j.Collects (j.prepared (j.received m₁)).heap.size (j.stored (j.received m₁)).heap.size codes Inv)
    (hinv : Inv 0 [] (j.innerBegun codes (j.prepared (j.received m₁)))) :
    ∃ acc p', Inv j.elements.length acc p' ∧
      j.Collecting (j.prepared (j.received m₁)).heap.size (j.stored (j.received m₁)).heap.size codes acc p' ∧
      (j.inner (j.prepared (j.received m₁)).heap.size).Between j.elements.length p' ∧
      p'.heap.get j.list = m.heap.get j.list ∧
      m.Invokes (m.heap.getField j.list (.name name)) args (.bare (.object (j.stored (j.received m₁)).heap.size))
        ((j.inner (j.prepared (j.received m₁)).heap.size).tested p').left.left.left := by
  have hentered := hcall.entered hs
  obtain ⟨hresult, hprepared, hcollected, hne, hlist⟩ := hentered.prepares
  obtain ⟨acc, p', hinv', hc, hend, hlist', hrest⟩ :=
    hcollects.evaluates hprepared (hprepared.collecting hcollected hne hcodes) hn hcodes hinv
  have hbefore := (hlist'.trans hlist).trans (hcall.received_grows.get_eq _ hcall.list.lt)
  exact ⟨acc, p', hinv', hc, hend, hbefore, hcall.invokes hs hhelper (.cons hentered.stores.1 (.cons hresult hrest))⟩

end Iteration

end Protean
