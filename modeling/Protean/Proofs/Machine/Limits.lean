import Protean.Proofs.Machine.Termination

/-!
# Proofs — Machine — raising the limits

The limits of a run are looked at in one place only, where a call is counted.  Under greater limits
calls are counted in the same way until one of the smaller limits is reached, so by `Agreement` whole
runs are the same unless the run under the smaller limits ends there.

**Raised limits keep runs** (`raised_limits_keep_runs`): a run that did not end at a limit, the start
of its machine included, is the same under all greater limits.

* `Interrupt.Extensible`: the two limits and the want of fuel, behind which greater limits may go on.
* `Eval.enter_agrees`: where calls are counted, greater limits let in all that smaller ones do.
* `Machine.run_raised`, `Interpreter.bootstrap_raised`: runs on a machine, and the start of one.
-/

namespace Protean

/-- The failures that a limit of the run causes. -/
def Failure.isLimit : Failure → Bool
  | .stepLimit _ | .depthLimit _ => true
  | _ => false

/-- The run has ended because a limit was reached. -/
def Interrupt.isLimit : Interrupt → Bool
  | .error e => e.failure.isLimit
  | .completion _ | .starved => false

/-- Neither limit of `a` is greater than that of `b`. -/
structure Limits.Le (a b : Limits) : Prop where
  steps : a.maxSteps ≤ b.maxSteps
  depth : a.maxDepth ≤ b.maxDepth

/-! ### Counting calls

Where calls are counted, the limits are looked at.  What smaller limits let in, greater limits do. -/

/-- The interrupts after which a run under greater limits may go on: a limit, and the want of fuel. -/
def Interrupt.Extensible (i : Interrupt) : Prop := i.isLimit = true ∨ i = .starved

/-- A limit is still reported as such when the error has left more expressions. -/
theorem Interrupt.lasting_extensible : Interrupt.Lasting Interrupt.Extensible where
  starved := .inr rfl
  leaving e origin h := by
    rcases h with h | h
    · left
      cases origin <;> exact h
    · cases h

section
variable {limits limits' : Limits}

/-- Where a call is counted under the smaller limits, it is counted under the greater ones. -/
theorem enter_agrees (hle : limits.Le limits') :
    Eval.Agrees Interrupt.Extensible (Eval.enter limits) (Eval.enter limits') := by
  rintro ⟨heap, global, steps, depth⟩ hm
  have hsteps : ¬ limits.maxSteps < steps + 1 := by
    intro hlt
    rw [Eval.enter, if_pos hlt] at hm
    exact hm _ rfl (.inl rfl)
  have hdepth : ¬ limits.maxDepth ≤ depth := by
    intro hge
    rw [Eval.enter, if_neg hsteps, if_pos hge] at hm
    exact hm _ rfl (.inl rfl)
  have hsteps' : ¬ limits'.maxSteps < steps + 1 := fun hlt => hsteps (hle.steps.trans_lt hlt)
  have hdepth' : ¬ limits'.maxDepth ≤ depth := fun hge => hdepth (hle.depth.trans hge)
  rw [Eval.enter, Eval.enter, if_neg hsteps, if_neg hdepth, if_neg hsteps', if_neg hdepth']

/-- Greater limits call for no less fuel. -/
theorem Machine.fuelFor_le (hle : limits.Le limits') (m : Machine) (height : Nat) :
    m.fuelFor limits height ≤ m.fuelFor limits' height := by
  rw [fuelFor, fuelFor]
  have hcalls : min limits.maxDepth (limits.maxSteps + 1) + 2 ≤
      min limits'.maxDepth (limits'.maxSteps + 1) + 2 := by
    have hsteps := hle.steps
    have hdepth := hle.depth
    omega
  have hmul := Nat.mul_le_mul_right (max height m.heap.height + 4) hcalls
  have hsteps := hle.steps
  omega

/-! ### Whole runs

The fuel of a run depends on its limits, so greater limits also give more of it. -/

/-- A run on a machine is the same under greater limits. -/
theorem Machine.run_raised (hle : limits.Le limits') (m : Machine) (codes : List Code)
    (hrun : ∀ i, (m.run limits codes).1 = .error i → i.isLimit = false) :
    m.run limits' codes = m.run limits codes := by
  refine runAll_agrees (evaluate_agrees Interrupt.lasting_extensible (enter_agrees hle)
    (m.fuelFor_le hle _)) codes m.global m fun i hi hext => ?_
  rcases hext with hlimit | hstarved
  · have hno := hrun i hi
    rw [hlimit] at hno
    cases hno
  · exact m.runAll_ends_of_le limits codes le_rfl m.global (hstarved ▸ hi)

namespace Interpreter

theorem load_raised (hle : limits.Le limits') : ∀ (loaded : List LoadedModule) (m : Machine),
    (∀ i, (load limits loaded m).1 = .error i → i.isLimit = false) →
      load limits' loaded m = load limits loaded m
  | [], _, _ => rfl
  | l :: rest, m, hload => by
      rw [load] at hload ⊢
      -- the module runs alike, since the start-up would end where it does
      have hsame : m.run limits' l.code = m.run limits l.code := by
        refine m.run_raised hle l.code fun i hi => hload i ?_
        rcases hrun : m.run limits l.code with ⟨r, m'⟩
        rw [hrun] at hi
        obtain rfl : r = .error i := hi
        rfl
      rw [load, hsame]
      rcases hrun : m.run limits l.code with ⟨i | v, m'⟩
      · rfl
      · rw [hrun] at hload
        exact load_raised hle rest m' hload

/-- A machine starts up alike under greater limits. -/
theorem bootstrap_raised (hle : limits.Le limits') (i : Interpreter)
    (hboot : ∀ e, (i.bootstrap limits).1 = .error e → e.isLimit = false) :
    i.bootstrap limits' = i.bootstrap limits := by
  have hload : load limits' i.modules .initial = load limits i.modules .initial := by
    refine load_raised hle i.modules .initial fun e he => hboot e ?_
    rw [bootstrap]
    rcases hstart : load limits i.modules .initial with ⟨r, m⟩
    rw [hstart] at he
    obtain rfl : r = .error e := he
    rfl
  rw [bootstrap, hload, bootstrap]

end Interpreter

end

/-- **Raised limits keep runs.**  Whatever modules a machine starts up with and whatever code it runs,
with probes or without: if the run does not end at a limit, neither in the modules nor in the code, it
is the same under all greater limits.  It ends with the same value and its source, the same error and
its trace or at the same probe, on the same heap and with the same number of calls made. -/
theorem raised_limits_keep_runs (i : Interpreter) (codes : List Code) {limits limits' : Limits}
    (hle : limits.Le limits')
    (hrun : ∀ e, (i.run limits codes).1 = .error e → e.isLimit = false) :
    i.run limits' codes = i.run limits codes := by
  have hstart : i.bootstrap limits' = i.bootstrap limits := by
    refine i.bootstrap_raised hle fun e he => hrun e ?_
    rw [Interpreter.run]
    rcases hboot : i.bootstrap limits with ⟨r, m⟩
    rw [hboot] at he
    obtain rfl : r = .error e := he
    rfl
  rw [Interpreter.run, hstart, Interpreter.run]
  rcases hboot : i.bootstrap limits with ⟨e | _, m⟩
  · rfl
  · rw [Interpreter.run, hboot] at hrun
    exact m.run_raised hle codes hrun

/-- The theorem at a run that makes as many calls as it may: two to start up, and one of a function
that passes its argument on. -/
theorem raised_limits_keep_runs_identity :
    let i : Interpreter :=
      ⟨[⟨"booleans", Expr.lowerAll { retain := false } Library.booleans.exprs⟩]⟩
    let identity : Expr := .function .nowhere [] [] [.identifier .nowhere "it"]
    let codes := Expr.lowerAll { retain := true } [.call .nowhere identity
      [⟨none, .identifier .nowhere "true"⟩] []]
    (∃ v, (i.run ⟨2, 1⟩ codes).1 = .ok v ∧ v.value = .boolean true) ∧
      i.run {} codes = i.run ⟨2, 1⟩ codes := by
  intro i identity codes
  have hrun : (i.run ⟨2, 1⟩ codes).1 = .ok ⟨.boolean true, some (.identifier .nowhere "true")⟩ := rfl
  refine ⟨⟨_, hrun, rfl⟩, raised_limits_keep_runs i codes ⟨by decide, by decide⟩ fun e he => ?_⟩
  rw [hrun] at he
  cases he

end Protean
