import Protean.Proofs.Library.Startup
import Protean.Proofs.Machine.Accounting
import Protean.Proofs.Machine.Loop

/-!
# Proofs — Machine — calls counted in a word

A run counts its calls in a word of 64 bits, and the evaluator counts them without bound.  Here the two are
compared, and it is shown how far a run ends when its calls are counted in a word (`Eval.enterWord`).

* `enterWord_eq`: as long as the calls made are within a limit that is below the greatest word, the next one is
  counted alike in both ways, for the count has not come to its end.
* `runAll_word_eq`, `invoke_word_eq`: by the accounts of a run nothing goes on once the limit has been exceeded,
  so whole runs are the same with whatever fuel.
* `Meter.word`: below the greatest word, counting in a word lets no run go on for ever.  This holds of every count
  to start from, also of one that an earlier run has left above the limit, behind which the count starts over.
* `every_run_ends`: so every run ends, from every machine that runs can lead to.
* `greatest_limit_never_ends`: with the greatest word for a limit, no count exceeds it, and a loop whose condition
  stays true goes on for ever.
-/

namespace Protean

variable {limits : Limits}

/-! ### Counting alike

Both ways to count let in the same calls within the limit, and outside of it neither goes on. -/

/-- To count in a word changes the counts and nothing else. -/
theorem Eval.onlyCounts_enterWord (limits : Limits) : (Eval.enterWord limits).OnlyCounts := by
  intro m
  simp only [Eval.enterWord]
  split
  · exact ⟨rfl, rfl⟩
  · split <;> exact ⟨rfl, rfl⟩

/-- Within a limit below the greatest word, the count does not start over. -/
theorem enterWord_eq (hmax : limits.maxSteps < UInt64.size - 1) {m : Machine}
    (hm : m.steps ≤ limits.maxSteps) : Eval.enterWord limits m = Eval.enter limits m := by
  obtain ⟨heap, global, steps, depth⟩ := m
  have hsteps : steps ≤ limits.maxSteps := hm
  have hword : (steps + 1) % UInt64.size = steps + 1 := Nat.mod_eq_of_lt (by omega)
  simp only [Eval.enterWord, Eval.enter, hword]

section
variable {start : Machine} {eval eval' : Evaluator} {inv inv' : Invoker}

/-- A call is counted alike on all machines underway from one within the limit. -/
theorem Eval.Accounts.guarded_word {α : Type} (hmax : limits.maxSteps < UInt64.size - 1)
    (hstart : start.steps ≤ limits.maxSteps) {p q : Eval α} (hp : Accounts limits start p q) :
    Accounts limits start (Eval.guarded (Eval.enter limits) p) (Eval.guarded (Eval.enterWord limits) q) := by
  have hwatched : Accounts limits start (Eval.guarded (Eval.enter limits) p)
      (Eval.watched limits (fun _ => true) q) := guarded (fun _ _ => rfl) hp
  intro m
  obtain ⟨hsettles, hsame⟩ := hwatched m
  refine ⟨hsettles, fun hm => ?_⟩
  rw [← hsame hm, Eval.guarded, Eval.watched, enterWord_eq hmax (hm.within hstart)]
  rfl

/-- Within the limit a call is counted alike in a word and without bound.  Outside of it, nothing goes on. -/
theorem dispatch_word_accounts (hmax : limits.maxSteps < UInt64.size - 1)
    (hstart : start.steps ≤ limits.maxSteps) (he : eval.Accounts limits start eval')
    (hi : inv.Accounts limits start inv') (rounds : Nat) (callee : Labeled) (args : CallArguments) :
    Eval.Accounts limits start (dispatch (Eval.enter limits) eval inv rounds callee args)
      (dispatch (Eval.enterWord limits) eval' inv' rounds callee args) := by
  rcases callee with ⟨_ | _ | _ | _ | id, _⟩
  case object =>
    refine (Eval.Accounts.ask _).bind fun kind => ?_
    cases kind with
    | plain => exact .interrupt rfl
    | function lambda scope => exact .guarded_word hmax hstart (callFunction_accounts he lambda scope args)
    | builtin which scope =>
      exact .guarded_word hmax hstart (Builtin.apply_accounts he hi rounds which scope args)
  all_goals exact .interrupt rfl

/-- Evaluation keeps its accounts, and does the same where calls are counted in a word. -/
theorem evaluate_invoke_word_accounts (hmax : limits.maxSteps < UInt64.size - 1)
    (hstart : start.steps ≤ limits.maxSteps) : ∀ fuel : Nat,
      (evaluate limits fuel).Accounts limits start (evaluateBy (Eval.enterWord limits) fuel) ∧
        (invoke limits fuel).Accounts limits start (invokeBy (Eval.enterWord limits) fuel)
  | 0 => ⟨fun _ _ => .interrupt rfl, fun _ _ => .interrupt rfl⟩
  | fuel + 1 => by
      obtain ⟨he, hi⟩ := evaluate_invoke_word_accounts hmax hstart fuel
      refine ⟨fun code scope => ?_, fun callee args => ?_⟩
      · exact .leaving _ (step_accounts he hi code scope)
      · exact dispatch_word_accounts hmax hstart he hi fuel callee args

end

/-- **Counting without bound is exact** for runs that start within a limit below the greatest word. -/
theorem runAll_word_eq (hmax : limits.maxSteps < UInt64.size - 1) {m : Machine}
    (hm : m.steps ≤ limits.maxSteps) (fuel : Nat) (codes : List Code) (scope : ObjectId) :
    runAll (evaluateBy (Eval.enterWord limits) fuel) codes scope m =
      runAll (evaluate limits fuel) codes scope m :=
  (runAll_accounts (evaluate_invoke_word_accounts hmax hm fuel).1 codes scope m).2 (.refl limits m)

/-- The same for calls. -/
theorem invoke_word_eq (hmax : limits.maxSteps < UInt64.size - 1) {m : Machine}
    (hm : m.steps ≤ limits.maxSteps) (fuel : Nat) (callee : Labeled) (args : CallArguments) :
    invokeBy (Eval.enterWord limits) fuel callee args m = invoke limits fuel callee args m :=
  ((evaluate_invoke_word_accounts hmax hm fuel).2 callee args m).2 (.refl limits m)

/-! ### Ending

Below the greatest word a run ends whatever the count it starts from is: behind the limit no call is let in
until the count has come round. -/

/-- Counting in a word, a call is refused or uses up one of the numbers up to the limit: the number of a call that is
let in is at most the limit, so the next number is greater by one. -/
theorem Eval.enterWord_cases (limits : Limits) (hmax : limits.maxSteps < UInt64.size - 1) (m : Machine) : ∃ steps,
    (∃ e, Eval.enterWord limits m = (.error (.error e), { m with steps := steps })) ∨
      m.depth < limits.maxDepth ∧
        limits.maxSteps + 1 - (steps + 1) % UInt64.size < limits.maxSteps + 1 - (m.steps + 1) % UInt64.size ∧
          Eval.enterWord limits m = (.ok (), { m with steps := steps, depth := m.depth + 1 }) := by
  obtain ⟨heap, global, steps, depth⟩ := m
  refine ⟨(steps + 1) % UInt64.size, ?_⟩
  simp only [Eval.enterWord]
  by_cases hsteps : limits.maxSteps < (steps + 1) % UInt64.size
  · rw [if_pos hsteps]
    exact .inl ⟨_, rfl⟩
  rw [if_neg hsteps]
  by_cases hdepth : limits.maxDepth ≤ depth
  · rw [if_pos hdepth]
    exact .inl ⟨_, rfl⟩
  rw [if_neg hdepth]
  have hnext : ((steps + 1) % UInt64.size + 1) % UInt64.size = (steps + 1) % UInt64.size + 1 :=
    Nat.mod_eq_of_lt (by omega)
  exact .inr ⟨Nat.lt_of_not_le hdepth, by omega, rfl⟩

/-- Counting in a word, up to a limit below the greatest word. -/
def Meter.word (limits : Limits) (hmax : limits.maxSteps < UInt64.size - 1) : Meter where
  enter := Eval.enterWord limits
  maxDepth := limits.maxDepth
  most := limits.maxSteps + 1
  spare steps := limits.maxSteps + 1 - (steps + 1) % UInt64.size
  spare_le _ := Nat.sub_le _ _
  enter_cases := Eval.enterWord_cases limits hmax

/-- The machines that can come about where calls are counted in words: a new one, and what becomes of a machine
when it runs lowered expressions, with or without probes, when it calls a value with nothing but objects that are
there, both under any limits, and when its count is set back. -/
inductive Machine.Reached : Machine → Prop where
  | initial : Reached .initial
  | eval {m : Machine} (h : Reached m) (limits : Limits) (fuel : Nat) (l : Lowering) (exprs : List Expr) :
      Reached (runAll (evaluateBy (Eval.enterWord limits) fuel) (Expr.lowerAll l exprs) m.global m).2
  | call {m : Machine} (h : Reached m) (limits : Limits) (fuel : Nat) {callee : Labeled} {args : CallArguments}
      (hc : callee.Below m.heap.size) (ha : args.Below m.heap.size) :
      Reached (invokeBy (Eval.enterWord limits) fuel callee args m).2
  | reset {m : Machine} (h : Reached m) : Reached { m with steps := 0 }

/-- A machine that runs have led to is sound. -/
theorem Machine.Reached.sound {m : Machine} (h : m.Reached) : m.Sound := by
  induction h with
  | initial => exact sound_initial
  | @eval m _ limits fuel l exprs ih =>
    have hsafe := evaluate_invoke_safe (Eval.onlyCounts_enterWord limits) fuel
    exact (runAll_safe hsafe.1 (Expr.lowerAll_below l m.heap.size exprs) ih.global_lt m ih le_rfl).1
  | @call m _ limits fuel callee args hc ha ih =>
    exact ((evaluate_invoke_safe (Eval.onlyCounts_enterWord limits) fuel).2 hc ha m ih le_rfl).1
  | reset _ ih => exact ⟨ih.consistent, ih.global_lt⟩

namespace Interpreter

/-- Loading modules stays among these machines, since it starts within the limit. -/
theorem load_reached (hmax : limits.maxSteps < UInt64.size - 1) : ∀ {loaded : List LoadedModule} {m : Machine},
    m.Reached → m.steps ≤ limits.maxSteps →
      (∀ l ∈ loaded, ∃ exprs, l.code = Expr.lowerAll { retain := false } exprs) →
        (load limits loaded m).2.Reached
  | [], _, hm, _, _ => hm
  | l :: rest, m, hm, hsteps, hl => by
      obtain ⟨exprs, hcode⟩ := hl l List.mem_cons_self
      have hrun : (m.run limits l.code).2.Reached := by
        rw [Machine.run, hcode, ← runAll_word_eq hmax hsteps]
        exact hm.eval limits _ _ exprs
      have hsettles : Settles limits m (m.run limits l.code).1 (m.run limits l.code).2 :=
        (((accounts_of_every_run limits).1 m _).2.1 l.code m.global).settles
      rw [load]
      rcases heq : m.run limits l.code with ⟨i | v, m₁⟩ <;> rw [heq] at hrun hsettles
      · exact hrun
      · exact load_reached hmax hrun (hsettles.le_of_ok hsteps) fun l' hl' => hl l' (List.mem_cons_of_mem _ hl')

/-- The machine that an interpreter starts up is one that runs lead to. -/
theorem bootstrap_reached (hmax : limits.maxSteps < UInt64.size - 1) {modules : List Module} {i : Interpreter}
    (hi : ofModules modules = .ok i) : (i.bootstrap limits).2.Reached := by
  have hload := load_reached hmax .initial (Nat.zero_le _) (lowered_of_ofModules hi)
  rw [bootstrap]
  rcases heq : load limits i.modules .initial with ⟨e | ⟨⟩, m⟩ <;> rw [heq] at hload
  · exact hload
  · exact hload.reset

end Interpreter

/-- **Every run ends** under a limit of calls below the greatest word.  To start up is over, whatever the modules,
and leads to a machine that can come about.  On every machine that can, running any expressions, with probes or
without, and calling any value finishes where calls are counted in words: there is a fuel with which it is over, and
with any greater fuel the outcome and the machine, its calls counted, are the same.  A run that starts within the
limit is the one where calls are counted without bound, which finishes, too. -/
theorem every_run_ends (limits : Limits) (hmax : limits.maxSteps < UInt64.size - 1) :
    (∀ (modules : List Module) (i : Interpreter), Interpreter.ofModules modules = .ok i →
      Over (i.bootstrap limits).1 ∧ (i.bootstrap limits).2.Reached) ∧
    ∀ m : Machine, m.Reached →
      (∀ (l : Lowering) (exprs : List Expr),
        (m.Finishes fun fuel =>
          runAll (evaluateBy (Eval.enterWord limits) fuel) (Expr.lowerAll l exprs) m.global) ∧
        m.Finishes fun fuel => runAll (evaluate limits fuel) (Expr.lowerAll l exprs) m.global) ∧
      (∀ (callee : Labeled) (args : CallArguments), callee.Below m.heap.size → args.Below m.heap.size →
        (m.Finishes fun fuel => invokeBy (Eval.enterWord limits) fuel callee args) ∧
        m.Finishes fun fuel => invoke limits fuel callee args) ∧
      (m.steps ≤ limits.maxSteps → ∀ fuel,
        (∀ codes scope, runAll (evaluateBy (Eval.enterWord limits) fuel) codes scope m =
          runAll (evaluate limits fuel) codes scope m) ∧
        ∀ callee args, invokeBy (Eval.enterWord limits) fuel callee args m =
          invoke limits fuel callee args m) := by
  refine ⟨fun modules i hi => ⟨i.bootstrap_over limits, Interpreter.bootstrap_reached hmax hi⟩,
    fun m hm => ⟨fun l exprs => ⟨?_, ?_⟩, fun callee args hc ha => ⟨?_, ?_⟩, fun hsteps fuel => ⟨?_, ?_⟩⟩⟩
  · exact (Meter.word limits hmax).runAll_finishes hm.sound l exprs
  · exact (Meter.unbounded limits).runAll_finishes hm.sound l exprs
  · exact (Meter.word limits hmax).invoke_finishes hm.sound hc ha
  · exact (Meter.unbounded limits).invoke_finishes hm.sound hc ha
  · exact runAll_word_eq hmax hsteps fuel
  · exact invoke_word_eq hmax hsteps fuel

/-- The theorem at a function that calls itself without end. -/
theorem every_run_ends_recursion :
    let booleans : Module := { Library.booleans with dependencies := [] }
    let i : Interpreter :=
      ⟨[⟨"booleans", Expr.lowerAll { retain := false } Library.booleans.exprs⟩]⟩
    let again := Library.callOf (.identifier .nowhere "again")
    let m := (i.bootstrap {}).2
    Interpreter.ofModules [booleans] = .ok i ∧ (1000000 < UInt64.size - 1) ∧
      m.Finishes fun fuel => runAll (evaluateBy (Eval.enterWord {}) fuel) (Expr.lowerAll { retain := true }
        [Library.define "again" (.function .nowhere [] [] [again]), again]) m.global := by
  intro booleans i again m
  have hi : Interpreter.ofModules [booleans] = .ok i := rfl
  have hmax : 1000000 < UInt64.size - 1 := by decide
  have hm : m.Reached := ((every_run_ends {} hmax).1 [booleans] i hi).2
  exact ⟨hi, hmax, (((every_run_ends {} hmax).2 m hm).1 _ _).1⟩

/-! ### The greatest limit

No number of a word exceeds the greatest one, so the limit is never reached and the loop goes on. -/

section
variable {m : Machine} {callee : Labeled} {f home : ObjectId}

/-- With the greatest word for a limit, a call is let in whenever there is room for one more. -/
theorem enterWord_greatest (hmax : limits.maxSteps = UInt64.size - 1) (hdepth : m.depth < limits.maxDepth) :
    Eval.enterWord limits m =
      (.ok (), { m with steps := (m.steps + 1) % UInt64.size, depth := m.depth + 1 }) := by
  have hword : (m.steps + 1) % UInt64.size < UInt64.size := Nat.mod_lt _ (by decide)
  obtain ⟨heap, global, steps, depth⟩ := m
  simp only [Eval.enterWord]
  rw [if_neg (by simp only at hword; omega), if_neg (Nat.not_le.mpr hdepth)]

/-- Called without arguments, `==` compares null with null, and nothing but the count of calls changes. -/
theorem callWith_equal (hmax : limits.maxSteps = UInt64.size - 1) (hdepth : m.depth < limits.maxDepth)
    (hcallee : callee.value = .object f) (hkind : (m.heap.get f).kind = .builtin .equal home) (fuel : Nat) :
    Builtin.callWith (invokeBy (Eval.enterWord limits) (fuel + 1)) callee [] m =
      (.ok (.bare (.boolean true)), { m with steps := (m.steps + 1) % UInt64.size }) := by
  rw [Builtin.callWith, invokeBy, dispatch, hcallee]
  simp only [Bind.bind, Eval.bind, Eval.ask, hkind, Eval.guarded, enterWord_greatest hmax hdepth]
  rfl

/-- **A loop around `==` has never an end**: however many rounds it may take, it takes all of them. -/
theorem loopWhile_equal {condition body : Labeled} (hmax : limits.maxSteps = UInt64.size - 1)
    (hcondition : condition.value = .object f) (hbody : body.value = .object f) (fuel : Nat) :
    ∀ (rounds : Nat) (last : Labeled) (m : Machine), m.depth < limits.maxDepth →
      (m.heap.get f).kind = .builtin .equal home →
        (Builtin.loopWhile (invokeBy (Eval.enterWord limits) (fuel + 1)) condition body rounds last m).1 =
          .error .starved
  | 0, _, _, _, _ => rfl
  | rounds + 1, _, m, hdepth, hkind => by
      have hagain := callWith_equal hmax hdepth hcondition hkind fuel
      generalize hm₁ : { m with steps := (m.steps + 1) % UInt64.size } = m₁ at hagain
      have hdepth₁ : m₁.depth < limits.maxDepth := by rw [← hm₁]; exact hdepth
      have hkind₁ : (m₁.heap.get f).kind = .builtin .equal home := by rw [← hm₁]; exact hkind
      rw [Builtin.loopWhile, Eval.bind_of_ok hagain, Eval.bind_of_ok (Machine.expectBoolean_eq rfl _ _)]
      show ((Builtin.callWith _ body [] >>= Builtin.loopWhile _ condition body rounds) m₁).1 = _
      rw [Eval.bind_of_ok (callWith_equal hmax hdepth₁ hbody hkind₁ fuel)]
      exact loopWhile_equal hmax hcondition hbody fuel rounds _ _ hdepth₁ hkind₁

end

/-- `while(==, ==)` as code. -/
def endless (origin o o₁ o₂ : Option Expr) : Code :=
  .call origin (.identifier o "while") [⟨none, .identifier o₁ "=="⟩, ⟨none, .identifier o₂ "=="⟩]

section
variable {m : Machine} {origin o o₁ o₂ : Option Expr}

/-- Inside of the call of `while` the loop goes on for ever. -/
theorem apply_endless {e home : ObjectId} (hmax : limits.maxSteps = UInt64.size - 1)
    (hdepth : m.depth < limits.maxDepth) (hread : m.heap.getField m.global (.name "==") = .bare (.object e))
    (hkind : (m.heap.get e).kind = .builtin .equal home) (self : Labeled) (fuel : Nat) :
    (Builtin.loop.apply (evaluateBy (Eval.enterWord limits) (fuel + 1))
      (invokeBy (Eval.enterWord limits) (fuel + 1)) (fuel + 1) home
      (.withSelf self [⟨none, .identifier o₁ "=="⟩, ⟨none, .identifier o₂ "=="⟩] m.global) m).1 =
        .error .starved := by
  have hcallable : m.heap.isCallable (.object e) = true := by rw [Heap.isCallable, hkind]; rfl
  have hvalue : ∀ o, (Labeled.orSource (.bare (.object e)) o).value = .object e := fun _ => rfl
  have hargs : materialize (evaluateBy (Eval.enterWord limits) (fuel + 1))
      (.withSelf self [⟨none, .identifier o₁ "=="⟩, ⟨none, .identifier o₂ "=="⟩] m.global) m =
        (.ok [(.name "self", self.orSource none), (.index 0, Labeled.orSource (.bare (.object e)) o₁),
          (.index 1, Labeled.orSource (.bare (.object e)) o₂)], m) := by
    rw [← hread]
    rfl
  show ((materialize _ _ >>= fun entries => validate entries Builtin.loop.parameters >>= fun _ => _) m).1 = _
  rw [Eval.bind_of_ok hargs, Eval.bind_of_ok (Machine.validate_loop hcallable hcallable)]
  exact loopWhile_equal hmax (hvalue o₁) (hvalue o₂) fuel _ _ _ hdepth hkind

/-- The loop never ends where the names in it are bound as the library binds them and there is room for two calls,
`while` and the `==` inside of it. -/
theorem evaluate_endless (hmax : limits.maxSteps = UInt64.size - 1) (hdepth : m.depth + 1 < limits.maxDepth)
    (hwhile : m.heap.Provides m.global "while" (.builtin .loop m.global))
    (hequal : m.heap.Provides m.global "==" (.builtin .equal m.global)) (fuel : Nat) :
    (evaluateBy (Eval.enterWord limits) fuel (endless origin o o₁ o₂) m.global m).1 = .error .starved := by
  obtain ⟨w, hw, hwkind⟩ := hwhile
  obtain ⟨e, he, hekind⟩ := hequal
  -- it is enough to look at runs with some fuel to go on, since with less of it nothing else can come out
  by_contra hends
  have hmore := (evaluate_invoke_agrees Interrupt.lasting_starved (.refl (Eval.enterWord limits))
    (Nat.le_add_right fuel 3)).1 (endless origin o o₁ o₂) m.global m fun i hi hs => hends (hs ▸ hi)
  rw [← hmore] at hends
  have hcallee : evaluateBy (Eval.enterWord limits) (fuel + 2) (.identifier o "while") m.global m =
      (.ok (.bare (.object w)), m) := by rw [← hw]; rfl
  have hcall : ∀ args, (invokeBy (Eval.enterWord limits) (fuel + 2) (.bare (.object w)) args m).1 =
      (Builtin.loop.apply (evaluateBy (Eval.enterWord limits) (fuel + 1))
        (invokeBy (Eval.enterWord limits) (fuel + 1)) (fuel + 1) m.global args
        { m with steps := (m.steps + 1) % UInt64.size, depth := m.depth + 1 }).1 := by
    intro args
    rw [invokeBy, dispatch]
    simp only [Bind.bind, Eval.bind, Eval.ask, Labeled.bare, hwkind, Eval.guarded,
      enterWord_greatest hmax (Nat.lt_of_succ_lt hdepth)]
  have hstep : (step (evaluateBy (Eval.enterWord limits) (fuel + 2)) (invokeBy (Eval.enterWord limits) (fuel + 2))
      (endless origin o o₁ o₂) m.global m).1 = .error .starved := by
    simp only [step, endless]
    rw [Eval.bind_of_ok hcallee, hcall]
    have hentered : Machine.depth { m with steps := (m.steps + 1) % UInt64.size, depth := m.depth + 1 } <
        limits.maxDepth := hdepth
    exact apply_endless hmax hentered he hekind _ fuel
  refine hends ?_
  rw [evaluateBy, Eval.leaving]
  generalize step _ _ (endless origin o o₁ o₂) m.global m = r at hstep ⊢
  obtain ⟨_, _⟩ := r
  cases hstep
  rfl

end

/-- What `while(==, ==)` is read as. -/
def endlessExpr : Expr :=
  .call (.placed ⟨0, 13⟩) (.identifier (.placed ⟨0, 5⟩) "while")
    [⟨none, .identifier (.placed ⟨6, 8⟩) "=="⟩, ⟨none, .identifier (.placed ⟨10, 12⟩) "=="⟩] []

/-- **With the greatest limit not every run ends**: on the machine that has started up with the standard library,
the text `while(==, ==)` runs on with whatever fuel. -/
theorem greatest_limit_never_ends :
    let limits : Limits := { maxSteps := UInt64.size - 1 }
    ∃ m : Machine, m.Started ∧ m.Reached ∧ ∃ exprs, Expr.parse .strict "while(==, ==)" = ⟨some exprs, [], []⟩ ∧
      ∀ fuel, (runAll (evaluateBy (Eval.enterWord limits) fuel) (Expr.lowerAll { retain := true } exprs)
        m.global m).1 = .error .starved := by
  intro limits
  obtain ⟨ms, i, m, hms, hi, hboot, hm⟩ := Machine.Started.exists_started
  have hreached : (i.bootstrap {}).2.Reached := Interpreter.bootstrap_reached (by decide) hi
  have hdepth := i.bootstrap_depth {}
  rw [hboot] at hreached hdepth
  have hdepth' : m.depth + 1 < limits.maxDepth := by rw [hdepth]; decide
  have hwhile := hm.stocked.globals ("while", .loop) (by decide)
  refine ⟨m, hm, hreached, [endlessExpr], ?_, fun fuel => ?_⟩
  · exact (Expr.parse_ofList .strict "while(==, ==)".toList).trans rfl
  · have hrun : ∀ origin o o₁ o₂, (runAll (evaluateBy (Eval.enterWord limits) fuel)
        [endless origin o o₁ o₂] m.global m).1 = .error .starved := by
      intro origin o o₁ o₂
      have hstarved : (evaluateBy (Eval.enterWord limits) fuel (endless origin o o₁ o₂) m.global m).1 =
          .error .starved := evaluate_endless rfl hdepth' hwhile hm.equal fuel
      rcases h : evaluateBy (Eval.enterWord limits) fuel (endless origin o o₁ o₂) m.global m with ⟨r, m'⟩
      rw [h] at hstarved
      cases hstarved
      rw [runAll, runFrom, Eval.bind_of_error h]
    exact hrun _ _ _ _

end Protean
