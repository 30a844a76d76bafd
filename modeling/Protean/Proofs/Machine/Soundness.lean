import Protean.Proofs.Builtin.Safety
import Protean.Session

/-!
# Proofs — Machine — the heap stays well-formed

A machine starts up with a well-formed heap, and nothing that is done with it afterwards breaks the
heap: evaluation at any fuel is safe (`evaluate_safe`, `invoke_safe`), so starting up is, running
expressions is, and calling values is, whether they end with a value, an error or at a probe.

`Machine.Turns limits m m'` relates a machine to what it has become after any number of turns, each of
which runs expressions or calls a value.  The requests of a session are such turns
(`answer_turns`).

**The heap stays well-formed** (`heap_stays_wellFormed`), and along all turns it only grows, with every
object keeping its kind.

* `step_safe`, `dispatch_safe`: nodes of code, and calls of what a value refers to.
* `evaluate_invoke_safe`: the induction on the fuel.
* `Machine.Sound.run`, `Machine.Sound.call`: the turns of a session.
* `Interpreter.bootstrap_sound`: the start of a machine, with whatever modules.
-/

namespace Protean

/-! ### Nodes and calls

The two functions that evaluation and calls are made of, for an evaluator and an invoker that are safe. -/

section
variable {eval : Evaluator} {invoker : Invoker} {n : Nat} {scope : ObjectId}

/-- A value of the heap is bound to names in a scope of the heap. -/
theorem bindNames_safe {value : Value} : ∀ {names : List String} {i n : Nat}, scope < n →
    Eval.Safe n (bindNames scope value i names) fun _ _ => True
  | [], _, _, _ => .pure fun _ _ => trivial
  | _ :: _, _, _, hs =>
      getValueField_safe.bind fun _ _ hk hv =>
        (setField_safe (Nat.lt_of_lt_of_le hs hk) hv).bind fun _ _ hk' _ =>
          bindNames_safe (Nat.lt_of_lt_of_le hs (hk.trans hk'))

/-- The arguments of a call, with a receiver of the heap. -/
theorem withSelf_below {self : Labeled} {args : List (Argument Code)} (hself : self.Below n)
    (ha : Code.ArgsBelow n args) (hs : scope < n) :
    (CallArguments.withSelf self args scope).Below n :=
  ⟨⟨hself, ha⟩, hs⟩

/-- **One node.** -/
theorem step_safe (he : eval.Safe) (hi : invoker.Safe) {code : Code} (hc : code.Below n)
    (hs : scope < n) : Eval.Safe n (step eval invoker code scope) Labeled.Below := by
  cases code with
  | const v => exact .pure fun _ hk => Value.Below.mono hk hc
  | identifier _ _ => exact getField_safe
  | literal _ value => exact .pure fun _ _ => by cases value <;> trivial
  | bracket _ _ => exact evaluateLabeled_safe he hc hs
  -- what is evaluated first may add objects, so what comes later is below the number of objects by then
  | field _ target _ =>
    have htarget : target.Below n := hc
    exact (he htarget hs).bind fun _ _ _ _ => getValueField_safe
  | call _ _ args =>
    obtain ⟨hc, ha⟩ := hc
    exact (he hc hs).bind fun _ _ hk hcallee =>
      have hs' := Nat.lt_of_lt_of_le hs hk
      hi hcallee (withSelf_below hs' (Code.argsBelow_mono hk _ ha) hs')
  | send _ _ _ args =>
    obtain ⟨hc, ha⟩ := hc
    exact (he hc hs).bind fun _ _ hk hself =>
      getValueField_safe.bind fun _ _ hk' hcallee =>
        hi hcallee (withSelf_below (hself.mono hk') (Code.argsBelow_mono (hk.trans hk') _ ha)
          (Nat.lt_of_lt_of_le hs (hk.trans hk')))
  | bind _ _ value =>
    have hvalue : value.Below n := hc
    exact (evaluateLabeled_safe he hvalue hs).bind fun _ _ hk hv =>
      (setField_safe (Nat.lt_of_lt_of_le hs hk) hv).bind fun _ _ hk' _ =>
        .pure fun _ hk'' => hv.mono (hk'.trans hk'')
  -- the value has been evaluated before the target, and both are still there when it is written
  | store _ _ _ _ =>
    obtain ⟨htarget, hvalue⟩ := hc
    exact (evaluateLabeled_safe he hvalue hs).bind fun _ _ hk hv =>
      (he (Code.below_mono hk _ htarget) (Nat.lt_of_lt_of_le hs hk)).bind fun _ _ hk' ht =>
        (setValueField_safe true ht (hv.mono hk')).bind fun _ _ hk'' _ =>
          .pure fun _ hk₃ => hv.mono (hk'.trans (hk''.trans hk₃))
  | destructure _ _ value =>
    have hvalue : value.Below n := hc
    exact (evaluateLabeled_safe he hvalue hs).bind fun _ _ hk hv =>
      (bindNames_safe (Nat.lt_of_lt_of_le hs hk)).bind fun _ _ hk' _ =>
        .pure fun _ hk'' => hv.mono (hk'.trans hk'')
  -- a new function captures the scope, and keeps code that mentions nothing but objects of the heap
  | function _ decorators parameters body =>
    refine Eval.Safe.bind (V := fun k id => id < k) (.change fun h hcons hn => ?_) fun _ _ _ hid =>
      .pure fun _ hk' => Nat.lt_of_lt_of_le hid hk'
    have hch := Heap.Change.allocFunction ⟨decorators, parameters, body⟩ (Nat.lt_of_lt_of_le hs hn)
    exact ⟨hcons.alloc hch (Code.bodyBelow_mono hn _ hc), hch.toExtends,
      by simp [Heap.allocFunction]⟩
  | builtin _ which =>
    refine Eval.Safe.bind (V := fun k id => id < k) (.change fun h hcons hn => ?_) fun _ _ _ hid =>
      .pure fun _ hk' => Nat.lt_of_lt_of_le hid hk'
    have hch := Heap.Change.allocBuiltin which (Nat.lt_of_lt_of_le hs hn)
    exact ⟨hcons.alloc hch trivial, hch.toExtends, by simp [Heap.allocBuiltin]⟩
  | probeScope _ _ => exact .interrupt _
  | probeField _ target _ =>
    have htarget : target.Below n := hc
    exact (he htarget hs).bind fun _ _ _ _ => .interrupt _

/-- **One call.** -/
theorem dispatch_safe {enter : Eval Unit} (henter : enter.OnlyCounts) (he : eval.Safe)
    (hi : invoker.Safe) (rounds : Nat) {callee : Labeled} {args : CallArguments} (ha : args.Below n) :
    Eval.Safe n (dispatch enter eval invoker rounds callee args) Labeled.Below := by
  unfold dispatch
  split
  · rename_i id _
    refine Eval.Safe.bind (V := fun k kind => kind.Below k ∧ kind.Closed k)
      (.ask fun h hc _ => ⟨(hc.wellFormed.sound id).kind_below, hc.closed id⟩) ?_
    rintro k kind hk ⟨hbelow, hclosed⟩
    cases kind with
    | plain => exact .fail _
    | function _ _ => exact .guarded henter (callFunction_safe he hclosed hbelow (ha.mono hk))
    | builtin which _ => exact .guarded henter (Builtin.apply_safe he hi rounds which (ha.mono hk))
  · exact .fail _

end

/-! ### Evaluation

The induction on the fuel that ties evaluation and calls together. -/

/-- Evaluation and calls are safe however calls are counted. -/
theorem evaluate_invoke_safe {enter : Eval Unit} (henter : enter.OnlyCounts) (fuel : Nat) :
    (evaluateBy enter fuel).Safe ∧ (invokeBy enter fuel).Safe := by
  induction fuel with
  | zero => exact ⟨fun _ _ => .interrupt _, fun _ _ => .interrupt _⟩
  | succ fuel ih =>
    refine ⟨fun hc hs => ?_, fun _ ha => ?_⟩
    · exact .leaving _ (step_safe ih.1 ih.2 hc hs)
    · exact dispatch_safe henter ih.1 ih.2 fuel ha

theorem evaluate_safe (limits : Limits) (fuel : Nat) : (evaluate limits fuel).Safe :=
  (evaluate_invoke_safe (Eval.onlyCounts_enter limits) fuel).1

theorem invoke_safe (limits : Limits) (fuel : Nat) : (invoke limits fuel).Safe :=
  (evaluate_invoke_safe (Eval.onlyCounts_enter limits) fuel).2

/-! ### Starting up

The initial machine is sound, and every module that is loaded leaves a sound one. -/

namespace Machine

variable {m : Machine}

theorem sound_initial : initial.Sound := by
  have hfold : ∀ (names : List (String × ObjectId)) (h : Heap) (global : ObjectId),
      (∀ b ∈ names, b.1 ≠ "proto" ∧ b.2 < h.size) → global < h.size → h.Consistent →
      (names.foldl (fun h b => h.define global b.1 (.bare (.object b.2))) h).Consistent ∧
      (names.foldl (fun h b => h.define global b.1 (.bare (.object b.2))) h).size = h.size := by
    intro names
    induction names with
    | nil => exact fun h _ _ _ hc => ⟨hc, rfl⟩
    | cons b names ih =>
      intro h global hnames hg hc
      obtain ⟨hname, hid⟩ := hnames b List.mem_cons_self
      have hsize : (h.define global b.1 (.bare (.object b.2))).size = h.size := h.size_writeOwn _ _ _
      obtain ⟨hc', hsize'⟩ := ih (h.define global b.1 (.bare (.object b.2))) global
        (fun b' hb' => hsize.symm ▸ hnames b' (List.mem_cons_of_mem _ hb')) (hsize.symm ▸ hg)
        (define_consistent hc hg hname hid)
      exact ⟨hc', hsize'.trans hsize⟩
  have hstart : (Heap.initial.allocPlain none).2.Consistent :=
    Heap.consistent_initial.alloc (.allocPlain fun p hp => by cases hp) trivial
  have hglobal : (Heap.initial.allocPlain none).1 < (Heap.initial.allocPlain none).2.size := by
    decide
  obtain ⟨hc, hsize⟩ := hfold globalNames _ _ (by decide) hglobal hstart
  have hlt := hsize.symm ▸ hglobal
  refine ⟨define_consistent hc hlt (by decide) hlt, ?_⟩
  exact hlt.trans_eq (Heap.size_writeOwn _ _ _ _).symm

/-- Running code that mentions only what is there. -/
theorem Sound.run (limits : Limits) {codes : List Code} (hm : m.Sound) (hc : Code.BodyBelow m.heap.size codes) :
    (m.run limits codes).2.Sound ∧ m.heap.Extends (m.run limits codes).2.heap ∧
      ∀ v, (m.run limits codes).1 = .ok v → v.Below (m.run limits codes).2.heap.size :=
  runAll_safe (evaluate_safe limits _) hc hm.global_lt m hm le_rfl

/-- A call from outside leaves a sound machine. -/
theorem Sound.call (limits : Limits) {callee : Labeled} {args : CallArguments} (hm : m.Sound)
    (hc : callee.Below m.heap.size) (ha : args.Below m.heap.size) :
    (m.call limits callee args).2.Sound ∧ m.heap.Extends (m.call limits callee args).2.heap := by
  obtain ⟨hs, hext, -⟩ := invoke_safe limits _ hc ha m hm le_rfl
  exact ⟨hs, hext⟩

end Machine

namespace Interpreter

/-- Modules are loaded as lowered expressions. -/
theorem lowered_of_ofModules {modules : List Module} {i : Interpreter}
    (hi : ofModules modules = .ok i) :
    ∀ loaded ∈ i.modules, ∃ exprs, loaded.code = Expr.lowerAll { retain := false } exprs := by
  rw [ofModules] at hi
  split at hi
  · cases hi
    intro loaded hmem
    obtain ⟨module, -, rfl⟩ := List.mem_map.mp hmem
    exact ⟨module.exprs, rfl⟩
  · cases hi

theorem load_sound (limits : Limits) : ∀ {loaded : List LoadedModule} {m : Machine}, m.Sound →
    (∀ l ∈ loaded, ∃ exprs, l.code = Expr.lowerAll { retain := false } exprs) →
      (load limits loaded m).2.Sound ∧ m.heap.Extends (load limits loaded m).2.heap
  | [], _, hm, _ => ⟨hm, .refl _⟩
  | l :: rest, m, hm, hl => by
      obtain ⟨exprs, hcode⟩ := hl l List.mem_cons_self
      have hbelow : Code.BodyBelow m.heap.size l.code := hcode ▸ Expr.lowerAll_below _ _ exprs
      obtain ⟨hm₁, hext, -⟩ := hm.run limits hbelow
      rw [load]
      split <;> rename_i heq <;> rw [heq] at hm₁ hext
      · obtain ⟨hm₂, hext'⟩ := load_sound limits hm₁
          fun l' hl' => hl l' (List.mem_cons_of_mem _ hl')
        exact ⟨hm₂, hext.trans hext'⟩
      · exact ⟨hm₁, hext⟩

/-- Whether it succeeds or not, the start of a machine leaves a sound one. -/
theorem bootstrap_sound {modules : List Module} {i : Interpreter} (hi : ofModules modules = .ok i)
    (limits : Limits) : (i.bootstrap limits).2.Sound ∧
      Machine.initial.heap.Extends (i.bootstrap limits).2.heap := by
  obtain ⟨hm, hext⟩ := load_sound limits Machine.sound_initial (lowered_of_ofModules hi)
  rw [bootstrap]
  split <;> rename_i heq <;> rw [heq] at hm hext
  · exact ⟨⟨hm.consistent, hm.global_lt⟩, hext⟩
  · exact ⟨hm, hext⟩

end Interpreter

/-! ### Turns

Any number of runs and calls, one after the other. -/

namespace Machine

/-- One turn of a machine: expressions, lowered with or without origins and probes, are run in the
global scope, or a value is called, both with nothing but objects that are there. -/
inductive Turn (limits : Limits) (m : Machine) : Machine → Prop where
  | eval (l : Lowering) (exprs : List Expr) : Turn limits m (m.run limits (Expr.lowerAll l exprs)).2
  | call {callee : Labeled} {args : CallArguments} (hc : callee.Below m.heap.size)
      (ha : args.Below m.heap.size) : Turn limits m (m.call limits callee args).2

/-- Any number of turns. -/
inductive Turns (limits : Limits) : Machine → Machine → Prop where
  | refl (m : Machine) : Turns limits m m
  | more {m m₁ m' : Machine} (h : Turn limits m m₁) (t : Turns limits m₁ m') : Turns limits m m'

variable {m m' : Machine} {limits : Limits}

/-- One turn keeps the machine sound and extends its heap. -/
theorem Turn.sound (ht : Turn limits m m') (hm : m.Sound) :
    m'.Sound ∧ m.heap.Extends m'.heap := by
  cases ht with
  | eval l exprs =>
    obtain ⟨hm', hext, -⟩ := hm.run limits (Expr.lowerAll_below l _ exprs)
    exact ⟨hm', hext⟩
  | call hc ha => exact hm.call limits hc ha

theorem Turns.sound (ht : Turns limits m m') (hm : m.Sound) :
    m'.Sound ∧ m.heap.Extends m'.heap := by
  induction ht with
  | refl => exact ⟨hm, .refl _⟩
  | more h _ ih =>
    obtain ⟨hm₁, hext⟩ := h.sound hm
    obtain ⟨hm', hext'⟩ := ih hm₁
    exact ⟨hm', hext.trans hext'⟩

end Machine

/-! ### Sessions

What a user does step by step is a sequence of turns. -/

/-- The values of a request are no objects or among the first `n`. -/
def Request.Below (n : Nat) : Request → Prop
  | .eval _ => True
  | .call _ values => ∀ v ∈ values, v.Below n
  | .invoke _ self args => (∀ v, self = some v → v.Below n) ∧ ∀ a ∈ args, a.value.Below n

/-- The arguments of a request mention objects of the machine only. -/
theorem Request.Below.arguments? {n global : Nat} {request : Request} {args : CallArguments}
    (hr : request.Below n) (hg : global < n) (ha : request.arguments? global = some args) :
    args.Below n := by
  have hconst : ∀ {entries : List (Argument Value)}, (∀ a ∈ entries, a.value.Below n) →
      Code.ArgsBelow n (entries.map fun a => ⟨a.name, .const (.bare a.value)⟩) := by
    intro entries he
    induction entries with
    | nil => trivial
    | cons a entries ih =>
      exact ⟨he a List.mem_cons_self, ih fun b hb => he b (List.mem_cons_of_mem _ hb)⟩
  cases request with
  | eval _ => cases ha
  | call _ values =>
    cases ha
    refine ⟨?_, hg⟩
    have hvalues : ∀ v ∈ values, v.Below n := hr
    have he : ∀ a ∈ values.map (fun v => (⟨none, v⟩ : Argument Value)), a.value.Below n := by
      simpa using hvalues
    simpa [CallArguments.ofValues, Function.comp_def] using hconst he
  | invoke _ self entries =>
    cases self with
    | none => cases ha; exact ⟨hconst hr.2, hg⟩
    | some v => cases ha; exact ⟨⟨hr.1 v rfl, hconst hr.2⟩, hg⟩

/-- **A session only takes turns.**  Answering a request is running its text and, if it asks for
more, calling the value. -/
theorem answer_turns {m : Machine} {request : Request} (limits : Limits) (hm : m.Sound)
    (hr : request.Below m.heap.size) : Machine.Turns limits m (m.answer limits request).2 := by
  unfold Machine.answer
  split
  · exact .refl m
  · rename_i exprs _
    have hrun : Machine.Turn limits m _ := .eval { retain := true } exprs
    obtain ⟨hm₁, hext, hv⟩ :=
      hm.run limits (Expr.lowerAll_below { retain := true } m.heap.size exprs)
    split <;> rename_i heq <;> rw [heq] at hrun hm₁ hext hv
    · exact .more hrun (.refl _)
    · rename_i v m₁
      split
      · exact .more hrun (.refl _)
      · rename_i args hargs
        have ha : args.Below m₁.heap.size := by
          have hr' : request.Below m₁.heap.size := by
            cases request with
            | eval _ => trivial
            | call _ _ => exact fun v hv => (hr v hv).mono hext.size_le
            | invoke _ _ _ =>
              exact ⟨fun v hv => (hr.1 v hv).mono hext.size_le,
                fun a ha => (hr.2 a ha).mono hext.size_le⟩
          exact hr'.arguments? hm₁.global_lt hargs
        exact .more hrun (.more (.call (hv v rfl) ha) (.refl _))

/-! ### The whole run

The theorem: from the start of a machine on, whatever is done with it. -/

/-- **The heap stays well-formed.**  A new heap is well-formed, every operation on objects and values
that are there keeps a heap well-formed, and so does everything that a machine does from its start on.
Along all turns of a machine the heap has every object in its place and of its kind. -/
theorem heap_stays_wellFormed :
    Heap.initial.WellFormed ∧
      (∀ h h' : Heap, h.Change h' → h.WellFormed → h'.WellFormed) ∧
        ∀ (modules : List Module) (i : Interpreter) (limits : Limits),
          Interpreter.ofModules modules = .ok i →
            ∀ m : Machine, Machine.Turns limits (i.bootstrap limits).2 m →
              m.heap.WellFormed ∧ Machine.initial.heap.Extends m.heap ∧
                ∀ m' : Machine, Machine.Turns limits m m' →
                  m'.heap.WellFormed ∧ m.heap.Extends m'.heap := by
  refine ⟨Heap.wellFormed_initial, fun _ _ hc hw => hc.wellFormed hw, ?_⟩
  intro modules i limits hi m hm
  obtain ⟨hstart, hext₀⟩ := Interpreter.bootstrap_sound hi limits
  obtain ⟨hsound, hext₁⟩ := hm.sound hstart
  refine ⟨hsound.wellFormed, hext₀.trans hext₁, fun m' hm' => ?_⟩
  obtain ⟨hsound', hext⟩ := hm'.sound hsound
  exact ⟨hsound'.wellFormed, hext⟩

/-- The theorem at a machine that starts up with the booleans and calls a function. -/
theorem heap_stays_wellFormed_booleans :
    let booleans : Module := { Library.booleans with dependencies := [] }
    let i : Interpreter :=
      ⟨[⟨"booleans", Expr.lowerAll { retain := false } Library.booleans.exprs⟩]⟩
    let call := Library.callOf (.function .nowhere [] [] [.identifier .nowhere "true"])
    let start := (i.bootstrap {}).2
    let m := (start.run {} (Expr.lowerAll { retain := true } [Library.define "x" call])).2
    Interpreter.ofModules [booleans] = .ok i ∧ m.heap.WellFormed ∧
      start.heap.Extends m.heap := by
  intro booleans i call start m
  have hi : Interpreter.ofModules [booleans] = .ok i := rfl
  have hturn : Machine.Turns {} start m := .more (.eval _ _) (.refl _)
  obtain ⟨hw, hext⟩ :=
    (heap_stays_wellFormed.2.2 [booleans] i {} hi start (.refl _)).2.2 m hturn
  exact ⟨hi, hw, hext⟩

end Protean
