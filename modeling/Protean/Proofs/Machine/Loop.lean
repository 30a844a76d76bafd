import Protean.Proofs.Machine.Entered

/-!
# Proofs — Machine — loops and conditionals

The rules for builtin functions that call back, in terms of what these calls do: a loop goes on as long as its
condition yields true (`Machine.Loops`), and a conditional calls the branch that is taken.

* `Machine.inside`, `Machine.making`: the machine in the scope of a call, and the one that has made a function there.
* `Machine.Loops`: a relation rather than a number of rounds, with the rules `Machine.Loops.stop` and
  `Machine.Loops.again`.
-/

namespace Protean.Machine

variable {m m₁ m₂ m' : Machine} {condition body last v w callee self : Labeled} {args : CallArguments}
  {f home : ObjectId}

/-! ### Calls without arguments

The conditions, rounds and branches of the library are blocks, which are called without arguments in a scope
of their own. -/

/-- A call with evaluated arguments has come to the body of the function. -/
def inside (m : Machine) (captured : ObjectId) (entries : Entries) : Machine :=
  ⟨m.heap.enter captured entries, m.global, m.steps + 1, m.depth + 1⟩

/-- The machine in the scope of a call is sound. -/
theorem Sound.inside {captured : ObjectId} {entries : Entries} (hm : m.Sound) (hcaptured : captured < m.heap.size)
    (hentries : entries.Below m.heap.size) (hkeys : Key.proto ∉ Fields.keys entries) :
    (m.inside captured entries).Sound := by
  have hlt : m.heap.size < (m.heap.openScope captured).size := by rw [Heap.size_openScope]; exact Nat.lt_succ_self _
  exact (hm.opening hcaptured).bindCall hlt (hentries.mono (Nat.le_of_lt hlt)) hkeys

theorem Sound.inside_nil {captured : ObjectId} (hm : m.Sound) (hcaptured : captured < m.heap.size) :
    (m.inside captured []).Sound :=
  hm.inside hcaptured (fun _ he => absurd he List.not_mem_nil) List.not_mem_nil

/-- A function without parameters that is called without arguments. -/
theorem Invokes.block {captured scope : ObjectId} {decorators : Decorators} {codes : List Code}
    (hcallee : callee.value = .object f)
    (hkind : (m.heap.get f).kind = .function ⟨decorators, [], codes⟩ captured)
    (hbody : (m.inside captured []).EvaluatesAll codes m.heap.size v m') :
    m.Invokes callee (.ofValues [] scope) v m'.left := by
  have hargs : (m.opening captured).Materializes (.ofValues [] scope) [] (m.opening captured) :=
    MaterializesFrom.nil _
  exact Invokes.lambda hcallee hkind rfl hargs List.not_mem_nil hbody

/-- A function without parameters has been made in the scope. -/
def making (m : Machine) (codes : List Code) (scope : ObjectId) : Machine :=
  m.withHeap (m.heap.allocFunction ⟨[], [], codes⟩ scope).2

/-- A block evaluates to a new function around the scope it stands in. -/
theorem Evaluates.block (m : Machine) (codes : List Code) (scope : ObjectId) :
    m.Evaluates (.function none [] [] codes) scope (.bare (.object m.heap.size)) (m.making codes scope) :=
  .function m [] [] codes

/-- To make a function only adds an object. -/
theorem making_grows (m : Machine) (codes : List Code) (scope : ObjectId) :
    m.heap.Grows (m.making codes scope).heap := .alloc ..

/-- The object holds the code of the block and its scope. -/
theorem making_kind (m : Machine) (codes : List Code) (scope : ObjectId) :
    ((m.making codes scope).heap.get m.heap.size).kind = .function ⟨[], [], codes⟩ scope :=
  congrArg Object.kind (Heap.get_alloc_self ..)

/-- The machine with one more function is sound, if its code mentions objects of the machine only. -/
theorem Sound.making {codes : List Code} {scope : ObjectId} (hm : m.Sound) (hscope : scope < m.heap.size)
    (hcodes : Code.BodyBelow m.heap.size codes) : (m.making codes scope).Sound :=
  ⟨hm.consistent.alloc (.allocFunction ⟨[], [], codes⟩ hscope) hcodes,
    hm.global_lt.trans_le (m.making_grows codes scope).size_le⟩

/-! ### Loops

How a loop goes, as a relation between the machine before it and the machine behind it. -/

/-- With budget enough, the loop goes on from here to its end and yields `v`; its last round so far has
yielded `last`. -/
def Loops (m : Machine) (condition body last v : Labeled) (m' : Machine) : Prop :=
  ∃ (limits₀ : Limits) (fuel₀ : Nat), ∀ limits fuel rounds, limits₀.Le limits → fuel₀ ≤ fuel → fuel₀ ≤ rounds →
    Builtin.loopWhile (invoke limits fuel) condition body rounds last m = (.ok v, m')

theorem expectBoolean_eq {b : Bool} (hw : w.value = .boolean b) (who : String) (m : Machine) :
    Builtin.expectBoolean w who m = (.ok b, m) := by
  rw [Builtin.expectBoolean, hw]
  rfl

/-- A loop whose condition yields false ends with the last value of its body. -/
theorem Loops.stop (hagain : m.Invokes condition (.ofValues [] m.global) w m') (hw : w.value = .boolean false) :
    m.Loops condition body last last m' := by
  obtain ⟨limits₀, fuel₀, hagain⟩ := invokes_iff.mp hagain
  refine ⟨limits₀, fuel₀ + 1, fun limits fuel rounds hlimits hfuel hrounds => ?_⟩
  obtain ⟨rounds, rfl⟩ : ∃ n, rounds = n + 1 := ⟨rounds - 1, by omega⟩
  have hcall : Builtin.callWith (invoke limits fuel) condition [] m = (.ok w, m') :=
    hagain limits fuel hlimits (by omega)
  rw [Builtin.loopWhile, Eval.bind_of_ok hcall, Eval.bind_of_ok (expectBoolean_eq hw _ _)]
  rfl

/-- A loop whose condition yields true runs its body and goes on. -/
theorem Loops.again (hagain : m.Invokes condition (.ofValues [] m.global) w m₁) (hw : w.value = .boolean true)
    {last' : Labeled} (hbody : m₁.Invokes body (.ofValues [] m₁.global) last' m₂)
    (hrest : m₂.Loops condition body last' v m') : m.Loops condition body last v m' := by
  obtain ⟨limits₁, fuel₁, hagain⟩ := invokes_iff.mp hagain
  obtain ⟨limits₂, fuel₂, hbody⟩ := invokes_iff.mp hbody
  obtain ⟨limits₃, fuel₃, hrest⟩ := hrest
  refine ⟨(limits₁.max limits₂).max limits₃, fuel₁ + fuel₂ + fuel₃ + 1,
    fun limits fuel rounds hlimits hfuel hrounds => ?_⟩
  obtain ⟨rounds, rfl⟩ : ∃ n, rounds = n + 1 := ⟨rounds - 1, by omega⟩
  have hcalls := (Limits.le_max_left _ _).trans hlimits
  have hcall : Builtin.callWith (invoke limits fuel) condition [] m = (.ok w, m₁) :=
    hagain limits fuel ((Limits.le_max_left _ _).trans hcalls) (by omega)
  have hround : Builtin.callWith (invoke limits fuel) body [] m₁ = (.ok last', m₂) :=
    hbody limits fuel ((Limits.le_max_right _ _).trans hcalls) (by omega)
  rw [Builtin.loopWhile, Eval.bind_of_ok hcall, Eval.bind_of_ok (expectBoolean_eq hw _ _)]
  show (Builtin.callWith (invoke limits fuel) body [] >>= Builtin.loopWhile _ condition body rounds) m₁ = _
  rw [Eval.bind_of_ok hround]
  exact hrest limits fuel rounds ((Limits.le_max_right _ _).trans hlimits) (by omega) (by omega)

/-- What can be called is a function for the descriptor of functions. -/
theorem check_function {h : Heap} {x : Value} (hx : h.isCallable x = true) :
    (Descriptor.primitive .function).check h x = .ok () := by
  rw [Descriptor.check, Primitive.accepts, if_pos hx]

/-- The arguments of a loop pass its checks. -/
theorem validate_loop (hcondition : m.heap.isCallable condition.value = true)
    (hbody : m.heap.isCallable body.value = true) :
    validate [(.name "self", self), (.index 0, condition), (.index 1, body)] Builtin.loop.parameters m =
      (.ok (), m) := by
  refine Eval.bind_eq_ok.mpr ⟨(), m, validateOne_eq_ok.mpr ⟨rfl, check_function hcondition⟩, ?_⟩
  exact Eval.bind_eq_ok.mpr ⟨(), m, validateOne_eq_ok.mpr ⟨rfl, check_function hbody⟩, rfl⟩

/-- **A call of the loop.** -/
theorem Invokes.loop (hcallee : callee.value = .object f) (hkind : (m.heap.get f).kind = .builtin .loop home)
    (hargs : m.entered.Materializes args [(.name "self", self), (.index 0, condition), (.index 1, body)] m₁)
    (hcondition : m₁.heap.isCallable condition.value = true) (hbody : m₁.heap.isCallable body.value = true)
    (hloop : m₁.Loops condition body .null v m') : m.Invokes callee args v m'.left := by
  refine .builtin hcallee hkind rfl hargs (validate_loop hcondition hbody) ?_
  obtain ⟨limits₀, fuel₀, hloop⟩ := hloop
  exact ⟨limits₀, fuel₀, fun limits fuel hlimits hfuel => hloop limits fuel fuel hlimits hfuel hfuel⟩

/-! ### Conditionals

The branch that is taken is called, and the other one is not. -/

/-- The arguments of a conditional with one branch pass its checks. -/
theorem validate_choose {b : Bool} (hw : w.value = .boolean b) (hbody : m.heap.isCallable body.value = true) :
    validate [(.name "self", self), (.index 0, w), (.index 1, body)] Builtin.choose.parameters m =
      (.ok (), m) := by
  have hboolean : (Descriptor.primitive .boolean).check m.heap w.value = .ok () := by
    rw [hw]
    rfl
  refine Eval.bind_eq_ok.mpr ⟨(), m, validateOne_eq_ok.mpr ⟨rfl, hboolean⟩, ?_⟩
  exact Eval.bind_eq_ok.mpr ⟨(), m, validateOne_eq_ok.mpr ⟨rfl, check_function hbody⟩, rfl⟩

/-- A conditional whose condition is true calls its branch. -/
theorem Invokes.choose_true (hcallee : callee.value = .object f)
    (hkind : (m.heap.get f).kind = .builtin .choose home)
    (hargs : m.entered.Materializes args [(.name "self", self), (.index 0, w), (.index 1, body)] m₁)
    (hw : w.value = .boolean true) (hbody : m₁.heap.isCallable body.value = true)
    (hcall : m₁.Invokes body (.ofValues [] m₁.global) v m') : m.Invokes callee args v m'.left := by
  refine .builtin hcallee hkind rfl hargs (validate_choose hw hbody) ?_
  have hbranch : body.value.isNull = false := by
    cases hv : body.value with
    | null => rw [hv] at hbody; cases hbody
    | number _ | string _ | boolean _ | object _ => rfl
  obtain ⟨limits₀, fuel₀, hcall⟩ := invokes_iff.mp hcall
  refine ⟨limits₀, fuel₀, fun limits fuel hlimits hfuel => ?_⟩
  have hcall : Builtin.callWith (invoke limits fuel) body [] m₁ = (.ok v, m') := hcall limits fuel hlimits hfuel
  refine Eval.bind_eq_ok.mpr ⟨true, m₁, expectBoolean_eq hw "if" m₁, ?_⟩
  show (if body.value.isNull then _ else Builtin.callWith (invoke limits fuel) body [] : Eval Labeled) m₁ = _
  rw [if_neg (by rw [hbranch]; exact Bool.false_ne_true), hcall]

/-- A conditional whose condition is false, and that has one branch only, yields null. -/
theorem Invokes.choose_false (hcallee : callee.value = .object f)
    (hkind : (m.heap.get f).kind = .builtin .choose home)
    (hargs : m.entered.Materializes args [(.name "self", self), (.index 0, w), (.index 1, body)] m₁)
    (hw : w.value = .boolean false) (hbody : m₁.heap.isCallable body.value = true) :
    m.Invokes callee args .null m₁.left := by
  exact .builtin hcallee hkind rfl hargs (validate_choose hw hbody)
    (.of_eq fun _ _ => Eval.bind_eq_ok.mpr ⟨false, m₁, expectBoolean_eq hw "if" m₁, rfl⟩)

end Protean.Machine
