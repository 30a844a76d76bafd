import Protean.Machine.Evaluate

/-!
# Proofs — Machine — agreement of runs

Two evaluations *agree* up to some interrupts (`Eval.Agrees`) when the second does what the first does
unless the first ends in one of these.  Agreement goes through every construct of the evaluator, because
no construct catches an interrupt: what ends in one of them inside ends in one of them outside, too.

So agreement of whole runs follows from agreement at two places only: where fuel runs out, and where a
call is counted (`evaluate_agrees`, `invoke_agrees`).  With the want of fuel as the only such interrupt,
this says that a run which did not run out of fuel is the same with any greater fuel
(`evaluate_fuel_le`, `invoke_fuel_le`).

The lemmas from `evaluateLabeled_agrees` to `step_agrees` follow the functions of the evaluator, one for each that is
given an evaluator or an invoker.  The functions that are not given one agree with themselves (`Eval.Agrees.refl`).
-/

namespace Protean

/-- `q` does what `p` does, unless `p` ends in an interrupt that is `bad`. -/
def Eval.Agrees {α : Type} (bad : Interrupt → Prop) (p q : Eval α) : Prop :=
  ∀ m : Machine, (∀ i, (p m).1 = .error i → ¬ bad i) → q m = p m

/-- Evaluators agree if they do for all code in all scopes. -/
def Evaluator.Agrees (bad : Interrupt → Prop) (eval eval' : Evaluator) : Prop :=
  ∀ (code : Code) (scope : ObjectId), Eval.Agrees bad (eval code scope) (eval' code scope)

/-- Invokers agree if they do for all callees and arguments. -/
def Invoker.Agrees (bad : Interrupt → Prop) (invoke invoke' : Invoker) : Prop :=
  ∀ (callee : Labeled) (args : CallArguments), Eval.Agrees bad (invoke callee args) (invoke' callee args)

/-- Interrupts that stay what they are when an error takes note of an expression, among them the want
of fuel. -/
structure Interrupt.Lasting (bad : Interrupt → Prop) : Prop where
  starved : bad .starved
  leaving : ∀ e origin, bad (.error e) → bad (.error (e.leaving origin))

/-! ### Rules

A rule for every combinator of evaluations. -/

namespace Eval.Agrees

variable {α β : Type} {bad : Interrupt → Prop}

theorem refl (p : Eval α) : Agrees bad p p := fun _ _ => rfl

/-- If the first parts agree and end with a result, the second parts start on the same machine. -/
theorem bind {p q : Eval α} {f g : α → Eval β} (hp : Agrees bad p q)
    (hf : ∀ a, Agrees bad (f a) (g a)) : Agrees bad (p >>= f) (q >>= g) := by
  intro m hm
  change ∀ i, (Eval.bind p f m).1 = .error i → ¬ bad i at hm
  show Eval.bind q g m = Eval.bind p f m
  rcases hpm : p m with ⟨i | a, m'⟩ <;> simp only [Eval.bind, hpm] at hm ⊢
  · rw [hp m (by rw [hpm]; exact fun j hj => by cases hj; exact hm i rfl), hpm]
  · rw [hp m (by rw [hpm]; exact fun i hi => by cases hi), hpm]
    exact hf a m' hm

/-- An evaluation that only runs out of fuel agrees with all others, where the want of fuel does not count. -/
theorem starve (hbad : Interrupt.Lasting bad) (q : Eval α) : Agrees bad Eval.starve q :=
  fun _ hm => absurd hbad.starved (hm _ rfl)

/-- An interrupt that counts as an end still does when it has taken note of an expression. -/
theorem leaving (hbad : Interrupt.Lasting bad) {p q : Eval α} (origin : Option Expr)
    (hp : Agrees bad p q) : Agrees bad (Eval.leaving origin p) (Eval.leaving origin q) := by
  intro m hm
  have hq : q m = p m := hp m fun i hi hb => by
    rcases hpm : p m with ⟨(e | _ | _) | a, m'⟩ <;> simp only [Eval.leaving, hpm] at hm hi
    · cases hi; exact hm _ rfl (hbad.leaving e origin hb)
    · exact hm i hi hb
    · exact hm i hi hb
    · cases hi
  rw [Eval.leaving, hq, Eval.leaving]

/-- Calls agree if they are counted alike and agree inside. -/
theorem guarded {enter enter' : Eval Unit} {p q : Eval α} (he : Agrees bad enter enter')
    (hp : Agrees bad p q) : Agrees bad (Eval.guarded enter p) (Eval.guarded enter' q) := by
  intro m hm
  have henter : enter' m = enter m := he m fun i hi hb => by
    rcases hem : enter m with ⟨i' | _, m'⟩ <;> simp only [Eval.guarded, hem] at hm hi
    · cases hi; exact hm _ rfl hb
    · cases hi
  rw [Eval.guarded, henter, Eval.guarded]
  rcases hem : enter m with ⟨i | _, m'⟩ <;> simp only [Eval.guarded, hem] at hm ⊢
  rw [hp m' hm]

end Eval.Agrees

/-! ### Passing arguments

Each function of the evaluator is built from the combinators and from the evaluator it is given. -/

section
variable {bad : Interrupt → Prop} {eval eval' : Evaluator} {inv inv' : Invoker} {scope : ObjectId}

theorem evaluateLabeled_agrees (he : eval.Agrees bad eval') (code : Code) (scope : ObjectId) :
    Eval.Agrees bad (evaluateLabeled eval code scope) (evaluateLabeled eval' code scope) :=
  (he code scope).bind fun _ => .refl _

theorem runFrom_agrees (he : eval.Agrees bad eval') : ∀ (codes : List Code) (last : Labeled),
    Eval.Agrees bad (runFrom eval scope codes last) (runFrom eval' scope codes last)
  | [], _ => .refl _
  | c :: cs, _ => (he c scope).bind fun v => runFrom_agrees he cs v

theorem runAll_agrees (he : eval.Agrees bad eval') (codes : List Code) (scope : ObjectId) :
    Eval.Agrees bad (runAll eval codes scope) (runAll eval' codes scope) :=
  runFrom_agrees he codes .null

theorem materializeFrom_agrees (he : eval.Agrees bad eval') :
    ∀ (i : Nat) (args : List (Argument Code)),
      Eval.Agrees bad (materializeFrom eval scope i args) (materializeFrom eval' scope i args)
  | _, [] => .refl _
  | i, ⟨some _, code⟩ :: args =>
      (evaluateLabeled_agrees he code scope).bind fun _ =>
        (materializeFrom_agrees he i args).bind fun _ => .refl _
  | i, ⟨none, code⟩ :: args =>
      (evaluateLabeled_agrees he code scope).bind fun _ =>
        (materializeFrom_agrees he (i + 1) args).bind fun _ => .refl _

theorem materialize_agrees (he : eval.Agrees bad eval') (args : CallArguments) :
    Eval.Agrees bad (materialize eval args) (materialize eval' args) :=
  materializeFrom_agrees he 0 args.entries

/-- A single argument, for functions that do not evaluate all of them. -/
theorem evaluatePositional_agrees (he : eval.Agrees bad eval') (args : CallArguments) (i : Nat) :
    Eval.Agrees bad (evaluatePositional eval args i) (evaluatePositional eval' args i) := by
  unfold evaluatePositional
  split
  · exact evaluateLabeled_agrees he _ _
  · exact .refl _

/-- The body of a function is run in a scope of its own. -/
theorem callFunction_agrees (he : eval.Agrees bad eval') (lambda : Lambda) (captured : ObjectId)
    (args : CallArguments) : Eval.Agrees bad (callFunction eval lambda captured args)
      (callFunction eval' lambda captured args) := by
  have hprepare : Eval.Agrees bad (prepareCall eval lambda captured args)
      (prepareCall eval' lambda captured args) :=
    (Eval.Agrees.refl _).bind fun _ => (materialize_agrees he args).bind fun _ => .refl _
  exact hprepare.bind fun scope => runAll_agrees he lambda.body scope

/-! ### Builtin functions

Loops are the only ones that take fuel themselves, for their rounds. -/

namespace Builtin

theorem callWith_agrees (hi : inv.Agrees bad inv') (callee : Labeled) (values : List Labeled) :
    Eval.Agrees bad (callWith inv callee values) (callWith inv' callee values) :=
  fun m hm => hi callee _ m hm

theorem forEachField_agrees (hi : inv.Agrees bad inv') (callback : Labeled) : ∀ fields : Fields,
    Eval.Agrees bad (forEachField inv callback fields) (forEachField inv' callback fields)
  | [] => .refl _
  | _ :: rest =>
      (callWith_agrees hi callback _).bind fun _ => forEachField_agrees hi callback rest

/-- A loop with fewer rounds to make runs out of them first, and this does not count. -/
theorem loopWhile_agrees (hbad : Interrupt.Lasting bad) (hi : inv.Agrees bad inv')
    (condition body : Labeled) : ∀ {rounds rounds' : Nat} (last : Labeled), rounds ≤ rounds' →
      Eval.Agrees bad (loopWhile inv condition body rounds last)
        (loopWhile inv' condition body rounds' last)
  | 0, _, _, _ => .starve hbad _
  | rounds + 1, rounds' + 1, _, hle => by
      refine (callWith_agrees hi condition []).bind fun again =>
        (Eval.Agrees.refl (expectBoolean again "while condition")).bind fun b => ?_
      cases b with
      | true =>
        exact (callWith_agrees hi body []).bind fun v =>
          loopWhile_agrees hbad hi condition body v (Nat.le_of_succ_le_succ hle)
      | false => exact .refl _

theorem chooseBranch_agrees (hi : inv.Agrees bad inv') (args : Entries) :
    Eval.Agrees bad (chooseBranch inv args) (chooseBranch inv' args) := by
  refine (Eval.Agrees.refl _).bind fun taken => ?_
  dsimp only
  generalize (if taken then args.positional 1 else args.positional 2) = branch
  split
  · exact .refl _
  · exact callWith_agrees hi branch []

theorem applyEager_agrees (hbad : Interrupt.Lasting bad) (hi : inv.Agrees bad inv')
    {rounds rounds' : Nat} (hle : rounds ≤ rounds') (scope : ObjectId) (args : Entries)
    (which : Builtin) : Eval.Agrees bad (applyEager inv rounds scope args which)
      (applyEager inv' rounds' scope args which) := by
  cases which with
  | forEach =>
    rw [applyEager, applyEager]
    split
    · exact (Eval.Agrees.refl _).bind fun fields => forEachField_agrees hi _ fields
    · exact .refl _
  | choose => exact chooseBranch_agrees hi args
  | loop => exact loopWhile_agrees hbad hi _ _ .null hle
  | _ => exact .refl _

theorem forced_agrees (he : eval.Agrees bad eval') (parameters : List Parameter)
    (args : CallArguments) (i : Nat) :
    Eval.Agrees bad (forced eval parameters args i) (forced eval' parameters args i) :=
  (evaluatePositional_agrees he args i).bind fun _ => .refl _

/-- The functions that evaluate their arguments on demand. -/
theorem applyLazy_agrees (he : eval.Agrees bad eval') (args : CallArguments) (which : Builtin) :
    Eval.Agrees bad (applyLazy eval args which) (applyLazy eval' args which) := by
  unfold applyLazy
  split
  · exact .refl _
  · exact .refl _
  · refine (forced_agrees he _ args 0).bind fun left => (Eval.Agrees.refl _).bind fun b => ?_
    cases b with
    | true => exact forced_agrees he _ args 1
    | false => exact .refl _
  · refine (forced_agrees he _ args 0).bind fun left => (Eval.Agrees.refl _).bind fun b => ?_
    cases b with
    | true => exact .refl _
    | false => exact forced_agrees he _ args 1
  · refine (forced_agrees he _ args 0).bind fun left => ?_
    split
    · exact forced_agrees he _ args 1
    · exact .refl _
  · exact .refl _

/-- All functions of the machine, the second time with at least as many rounds. -/
theorem apply_agrees (hbad : Interrupt.Lasting bad) (he : eval.Agrees bad eval')
    (hi : inv.Agrees bad inv') {rounds rounds' : Nat} (hle : rounds ≤ rounds') (which : Builtin)
    (scope : ObjectId) (args : CallArguments) :
    Eval.Agrees bad (which.apply eval inv rounds scope args)
      (which.apply eval' inv' rounds' scope args) := by
  unfold apply
  split
  · exact applyLazy_agrees he args which
  · exact (materialize_agrees he args).bind fun entries =>
      (Eval.Agrees.refl _).bind fun _ => applyEager_agrees hbad hi hle scope entries which

end Builtin

/-! ### Nodes and calls

The two functions that evaluation and calls are made of. -/

/-- One node of code, for evaluators and invokers that agree. -/
theorem step_agrees (he : eval.Agrees bad eval') (hi : inv.Agrees bad inv') (code : Code)
    (scope : ObjectId) : Eval.Agrees bad (step eval inv code scope) (step eval' inv' code scope) := by
  cases code with
  | const _ | identifier _ _ | literal _ _ | function _ _ _ _ | builtin _ _ | probeScope _ _ =>
    exact .refl _
  | bracket _ inner => exact evaluateLabeled_agrees he inner scope
  | field _ target _ | probeField _ target _ => exact (he target scope).bind fun _ => .refl _
  | call _ target args => exact (he target scope).bind fun callee => hi callee _
  | send _ target _ args =>
    exact (he target scope).bind fun receiver =>
      (Eval.Agrees.refl _).bind fun callee => hi callee _
  | bind _ _ value | destructure _ _ value =>
    exact (evaluateLabeled_agrees he value scope).bind fun _ => .refl _
  | store _ target _ value =>
    exact (evaluateLabeled_agrees he value scope).bind fun _ =>
      (he target scope).bind fun _ => .refl _

/-- What is called is looked up in the same heap, if calls are counted alike. -/
theorem dispatch_agrees (hbad : Interrupt.Lasting bad) {enter enter' : Eval Unit}
    (henter : Eval.Agrees bad enter enter')
    (he : eval.Agrees bad eval') (hi : inv.Agrees bad inv') {rounds rounds' : Nat}
    (hle : rounds ≤ rounds') (callee : Labeled) (args : CallArguments) :
    Eval.Agrees bad (dispatch enter eval inv rounds callee args)
      (dispatch enter' eval' inv' rounds' callee args) := by
  unfold dispatch
  split
  · refine (Eval.Agrees.refl _).bind fun kind => ?_
    cases kind with
    | plain => exact .refl _
    | function lambda scope => exact .guarded henter (callFunction_agrees he lambda scope args)
    | builtin which scope =>
      exact .guarded henter (Builtin.apply_agrees hbad he hi hle which scope args)
  · exact .refl _

end

/-! ### Evaluation

The induction on the fuel that ties evaluation and calls together. -/

section
variable {bad : Interrupt → Prop} {limits limits' : Limits}

/-- **Whole runs agree** as soon as the counting of calls does, and the second has at least the fuel of
the first. -/
theorem evaluate_invoke_agrees (hbad : Interrupt.Lasting bad) {enter enter' : Eval Unit}
    (henter : Eval.Agrees bad enter enter') : ∀ {fuel fuel' : Nat}, fuel ≤ fuel' →
      (evaluateBy enter fuel).Agrees bad (evaluateBy enter' fuel') ∧
        (invokeBy enter fuel).Agrees bad (invokeBy enter' fuel')
  | 0, _, _ => ⟨fun _ _ => .starve hbad _, fun _ _ => .starve hbad _⟩
  | fuel + 1, fuel' + 1, hle => by
      -- evaluator and caller use each other, but only with less fuel on either side
      obtain ⟨he, hi⟩ := evaluate_invoke_agrees hbad henter (Nat.le_of_succ_le_succ hle)
      refine ⟨fun code scope => ?_, fun callee args => ?_⟩
      · exact .leaving hbad _ (step_agrees he hi code scope)
      · exact dispatch_agrees hbad henter he hi (Nat.le_of_succ_le_succ hle) callee args

/-- Evaluation with more fuel agrees, whatever the limits, if only calls are counted alike. -/
theorem evaluate_agrees (hbad : Interrupt.Lasting bad)
    (henter : Eval.Agrees bad (Eval.enter limits) (Eval.enter limits')) {fuel fuel' : Nat}
    (hle : fuel ≤ fuel') : (evaluate limits fuel).Agrees bad (evaluate limits' fuel') :=
  (evaluate_invoke_agrees hbad henter hle).1

theorem invoke_agrees (hbad : Interrupt.Lasting bad)
    (henter : Eval.Agrees bad (Eval.enter limits) (Eval.enter limits')) {fuel fuel' : Nat}
    (hle : fuel ≤ fuel') : (invoke limits fuel).Agrees bad (invoke limits' fuel') :=
  (evaluate_invoke_agrees hbad henter hle).2

end

/-! ### More fuel

With the want of fuel as the only end that does not count. -/

/-- The want of fuel is not caught on the way out. -/
theorem Interrupt.lasting_starved : Interrupt.Lasting (· = .starved) :=
  ⟨rfl, fun _ _ h => by cases h⟩

/-- Evaluation that does not run out of fuel is the same with any greater fuel. -/
theorem evaluate_fuel_le (limits : Limits) {fuel fuel' : Nat} (hle : fuel ≤ fuel') :
    (evaluate limits fuel).Agrees (· = .starved) (evaluate limits fuel') :=
  evaluate_agrees Interrupt.lasting_starved (.refl _) hle

theorem invoke_fuel_le (limits : Limits) {fuel fuel' : Nat} (hle : fuel ≤ fuel') :
    (invoke limits fuel).Agrees (· = .starved) (invoke limits fuel') :=
  invoke_agrees Interrupt.lasting_starved (.refl _) hle

end Protean
