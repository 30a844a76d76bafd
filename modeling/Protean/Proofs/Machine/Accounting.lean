import Protean.Proofs.Machine.Soundness

/-!
# Proofs — Machine — the accounts of a run

A machine counts the calls it has made and the calls that are under way.  Only calls change the
counts (`Eval.guarded`), and nothing in the evaluator catches an interrupt and goes on, so the counts
that an evaluation leaves can be told from its outcome (`Settles`).

What the counts are *during* an evaluation is said by a watch.  `Eval.watched` makes a call as
`Eval.guarded` does, but shows the machine to a watch as soon as the call has been entered and once
more before it is left, and evaluation with a watch (`evaluateWatched`, `invokeWatched`) is lost where
the watch refuses a machine.  A watch that refuses nothing but machines which are not `Inside` the
bounds makes no difference: there are no such machines.

**The accounts of every run** (`accounts_of_every_run`).

* `Settles`: what the counts before and after an evaluation have to do with its outcome.
* `Eval.Accounts`: the relation of an evaluation to the same one under a watch.  It goes through every construct of the
  evaluator, with one lemma for each of them.
* `dispatch_accounts`: where calls are made, the watch sees nothing but machines inside the bounds.
* `Accounted`, `accounted_of_accounts`: what this says of an evaluation as a whole.
* `Machine.run_depth`, `Interpreter.bootstrap_depth`, …: between the turns of a session no call is under way.
-/

namespace Protean

/-! ### Evaluation with a watch

Evaluation as it is, but for calls, which show the machine to a watch twice. -/

/-- A call as `Eval.guarded` makes it, with a watch on the machine inside of the call. -/
def Eval.watched {α : Type} (limits : Limits) (watch : Machine → Bool) (p : Eval α) : Eval α := fun m =>
  match enter limits m with
  | (.error i, m') => (.error i, m')
  | (.ok (), m') =>
    if watch m' then
      match p m' with
      | (r, m'') => if watch m'' then (r, leave m'') else (.error .starved, m'')
    else (.error .starved, m')

/-- Calls a value as `dispatch` does, with a watch. -/
def dispatchWatched (limits : Limits) (watch : Machine → Bool) (eval : Evaluator) (invoke : Invoker)
    (rounds : Nat) (callee : Labeled) (args : CallArguments) : Eval Labeled :=
  match callee.value with
  | .object id => do
    match ← Eval.ask fun h => (h.get id).kind with
    | .plain => Eval.fail .notCallable
    | .function lambda scope => Eval.watched limits watch (callFunction eval lambda scope args)
    | .builtin which scope => Eval.watched limits watch (which.apply eval invoke rounds scope args)
  | _ => Eval.fail .notCallable

mutual

/-- `evaluate` with a watch on all calls. -/
def evaluateWatched (limits : Limits) (watch : Machine → Bool) : Nat → Evaluator
  | 0, _, _ => Eval.starve
  | fuel + 1, code, scope =>
    Eval.leaving code.origin
      (step (evaluateWatched limits watch fuel) (invokeWatched limits watch fuel) code scope)

/-- `invoke` with a watch on all calls. -/
def invokeWatched (limits : Limits) (watch : Machine → Bool) : Nat → Invoker
  | 0, _, _ => Eval.starve
  | fuel + 1, callee, args =>
    dispatchWatched limits watch (evaluateWatched limits watch fuel) (invokeWatched limits watch fuel)
      fuel callee args

end

/-! ### Accounts

The bounds that the machines of a run stay inside of, and what the outcome says of the counts. -/

/-- The failure of a call that is one too many. -/
def Failure.isStepLimit : Failure → Bool
  | .stepLimit _ => true
  | _ => false

/-- The run ended because it had made all the calls it may. -/
def Interrupt.isStepLimit : Interrupt → Bool
  | .error e => e.failure.isStepLimit
  | .completion _ | .starved => false

/-- The outcome of an evaluation that has made as many calls as it may. -/
def outOfSteps {α : Type} : Except Interrupt α → Bool
  | .error i => i.isStepLimit
  | .ok _ => false

/-- What an evaluation that takes `m` to the outcome `r` and to `m'` has done to the counts: as many
calls are under way as before, the calls made are no fewer, and they exceed the limit, then by one
only, exactly if the limit has ended the evaluation. -/
structure Settles {α : Type} (limits : Limits) (m : Machine) (r : Except Interrupt α) (m' : Machine) :
    Prop where
  depth : m'.depth = m.depth
  steps_le : m.steps ≤ m'.steps
  within : m.steps ≤ limits.maxSteps → m'.steps ≤ limits.maxSteps + 1
  exceeds : m.steps ≤ limits.maxSteps → (m'.steps = limits.maxSteps + 1 ↔ outOfSteps r = true)

/-- The bounds of the counts inside of all calls that are made from `start` on. -/
structure Machine.Inside (limits : Limits) (start m : Machine) : Prop where
  depth_pos : 0 < m.depth
  depth_le : m.depth ≤ max start.depth limits.maxDepth
  steps_le : start.steps ≤ m.steps
  within : start.steps ≤ limits.maxSteps → m.steps ≤ limits.maxSteps + 1

/-- The bounds of the counts where an evaluation that was started on `start` goes on. -/
structure Machine.Underway (limits : Limits) (start m : Machine) : Prop where
  depth_le : m.depth ≤ max start.depth limits.maxDepth
  steps_le : start.steps ≤ m.steps
  within : start.steps ≤ limits.maxSteps → m.steps ≤ limits.maxSteps

/-- At its start, an evaluation is where it started. -/
theorem Machine.Underway.refl (limits : Limits) (m : Machine) : m.Underway limits m :=
  ⟨le_max_left _ _, le_rfl, id⟩

/-- `p` settles its accounts, and `q`, which is `p` with a watch, does the same on all machines
underway from `start`. -/
def Eval.Accounts {α : Type} (limits : Limits) (start : Machine) (p q : Eval α) : Prop :=
  ∀ m : Machine, Settles limits m (p m).1 (p m).2 ∧ (Machine.Underway limits start m → q m = p m)

namespace Settles

variable {α β : Type} {limits : Limits} {m m₁ m₂ : Machine} {r : Except Interrupt β} {a : α}

/-- After a result the limit has not been exceeded. -/
theorem le_of_ok (h : Settles limits m (.ok a : Except Interrupt α) m₁)
    (hm : m.steps ≤ limits.maxSteps) : m₁.steps ≤ limits.maxSteps := by
  have hle := h.within hm
  have hne : m₁.steps ≠ limits.maxSteps + 1 := fun heq => by cases (h.exceeds hm).mp heq
  omega

/-- What an evaluation settles and what the next one settles, taken together. -/
theorem trans (h : Settles limits m (.ok a : Except Interrupt α) m₁) (h' : Settles limits m₁ r m₂) :
    Settles limits m r m₂ :=
  ⟨h'.depth.trans h.depth, h.steps_le.trans h'.steps_le, fun hm => h'.within (h.le_of_ok hm),
    fun hm => h'.exceeds (h.le_of_ok hm)⟩

/-- After a result the evaluation around it is still under way. -/
theorem underway {start : Machine} (h : Settles limits m (.ok a : Except Interrupt α) m₁)
    (hm : Machine.Underway limits start m) : Machine.Underway limits start m₁ :=
  ⟨h.depth.trans_le hm.depth_le, hm.steps_le.trans h.steps_le, fun hs => h.le_of_ok (hm.within hs)⟩

end Settles

/-! ### Rules

A rule for every combinator of evaluations: with and without a watch it does the same and settles alike. -/

namespace Eval.Accounts

variable {α β : Type} {limits : Limits} {start : Machine}

/-- What makes no call. -/
theorem still {p : Eval α} (hdepth : ∀ m, (p m).2.depth = m.depth) (hsteps : ∀ m, (p m).2.steps = m.steps)
    (hr : ∀ m, outOfSteps (p m).1 = false) : Accounts limits start p p := by
  intro m
  refine ⟨⟨hdepth m, (hsteps m).ge, fun hm => ?_, fun hm => ?_⟩, fun _ => rfl⟩
  · rw [hsteps m]
    omega
  · rw [hsteps m, hr m]
    exact ⟨fun heq => by omega, (absurd · Bool.false_ne_true)⟩

theorem pure (a : α) : Accounts limits start (Eval.pure a) (Eval.pure a) :=
  still (fun _ => rfl) (fun _ => rfl) fun _ => rfl

theorem interrupt {i : Interrupt} (hi : outOfSteps (.error i : Except Interrupt α) = false) :
    Accounts limits start (Eval.interrupt i : Eval α) (Eval.interrupt i) :=
  still (fun _ => rfl) (fun _ => rfl) fun _ => hi

theorem misuse (what : Misuse) :
    Accounts limits start (Eval.misuse what : Eval α) (Eval.misuse what) := interrupt rfl

/-- To look at the heap is no call. -/
theorem ask (f : Heap → α) : Accounts limits start (Eval.ask f) (Eval.ask f) :=
  still (fun _ => rfl) (fun _ => rfl) fun _ => rfl

theorem read (f : Heap → Except HeapError α) : Accounts limits start (Eval.read f) (Eval.read f) := by
  refine still (fun m => ?_) (fun m => ?_) (fun m => ?_) <;>
    rcases hf : f m.heap with _ | _ <;> simp only [Eval.read, hf] <;> rfl

/-- Changes of the heap leave the counts alone. -/
theorem change (f : Heap → α × Heap) : Accounts limits start (Eval.change f) (Eval.change f) :=
  still (fun _ => rfl) (fun _ => rfl) fun _ => rfl

theorem write (f : Heap → Except HeapError Unit × Heap) :
    Accounts limits start (Eval.write f) (Eval.write f) := by
  refine still (fun m => ?_) (fun m => ?_) (fun m => ?_) <;>
    rcases hf : f m.heap with ⟨_ | _, _⟩ <;> simp only [Eval.write, hf] <;> rfl

/-- In a sequence the second part starts where the first one has settled.  If the first one fails, the outcome
is its outcome. -/
theorem bind {p q : Eval α} {f g : α → Eval β} (hp : Accounts limits start p q)
    (hf : ∀ a, Accounts limits start (f a) (g a)) : Accounts limits start (p >>= f) (q >>= g) := by
  intro m
  obtain ⟨hsettles, hsame⟩ := hp m
  show Settles limits m (Eval.bind p f m).1 (Eval.bind p f m).2 ∧
    (_ → Eval.bind q g m = Eval.bind p f m)
  rcases hpm : p m with ⟨i | a, m'⟩ <;> simp only [Eval.bind, hpm] at hsettles hsame ⊢
  · refine ⟨⟨hsettles.depth, hsettles.steps_le, hsettles.within, hsettles.exceeds⟩, fun hm => ?_⟩
    rw [hsame hm]
  · obtain ⟨hsettles', hsame'⟩ := hf a m'
    refine ⟨hsettles.trans hsettles', fun hm => ?_⟩
    rw [hsame hm]
    exact hsame' (hsettles.underway hm)

/-- An error that takes note of an expression is about the limit exactly if it was before. -/
theorem leaving {p q : Eval α} (origin : Option Expr) (hp : Accounts limits start p q) :
    Accounts limits start (Eval.leaving origin p) (Eval.leaving origin q) := by
  intro m
  obtain ⟨hsettles, hsame⟩ := hp m
  refine ⟨?_, fun hm => by rw [Eval.leaving, hsame hm, Eval.leaving]⟩
  rcases hpm : p m with ⟨(e | _ | _) | a, m'⟩ <;> simp only [Eval.leaving, hpm] at hsettles ⊢
  · refine ⟨hsettles.depth, hsettles.steps_le, hsettles.within, fun hm => ?_⟩
    cases origin <;> exact hsettles.exceeds hm
  all_goals exact hsettles

/-- **A call settles its accounts** if what happens inside of it does, and a watch on it sees only
machines that are inside of the bounds. -/
theorem guarded {watch : Machine → Bool}
    (hwatch : ∀ m, Machine.Inside limits start m → watch m = true) {p q : Eval α}
    (hp : Accounts limits start p q) :
    Accounts limits start (Eval.guarded (Eval.enter limits) p) (Eval.watched limits watch q) := by
  rintro ⟨heap, global, steps, depth⟩
  rw [Eval.guarded, Eval.watched, Eval.enter]
  by_cases hsteps : limits.maxSteps < steps + 1
  · rw [if_pos hsteps]
    refine ⟨⟨rfl, Nat.le_succ _, fun hm => Nat.succ_le_succ hm, fun hm => ⟨fun _ => rfl, fun _ => ?_⟩⟩,
      fun _ => rfl⟩
    exact Nat.le_antisymm (Nat.succ_le_succ hm) hsteps
  rw [if_neg hsteps]
  by_cases hdepth : limits.maxDepth ≤ depth
  · rw [if_pos hdepth]
    refine ⟨⟨rfl, Nat.le_succ _, fun hm => Nat.succ_le_succ hm, fun _ => ⟨fun heq => ?_, fun hout => ?_⟩⟩,
      fun _ => rfl⟩
    · exact absurd (Nat.lt_of_succ_le heq.ge) hsteps
    · cases hout
  rw [if_neg hdepth]
  -- the call is entered, and its inside is an evaluation of its own
  obtain ⟨hsettles, hsame⟩ := hp ⟨heap, global, steps + 1, depth + 1⟩
  simp only
  rcases hpm : p ⟨heap, global, steps + 1, depth + 1⟩ with ⟨r, m₁⟩
  rw [hpm] at hsettles hsame
  have hinner : steps + 1 ≤ limits.maxSteps := Nat.le_of_not_lt hsteps
  have hroom : depth + 1 ≤ limits.maxDepth := Nat.lt_of_not_le hdepth
  have hdepth₁ : m₁.depth = depth + 1 := hsettles.depth
  have hle₁ : steps + 1 ≤ m₁.steps := hsettles.steps_le
  refine ⟨⟨?_, (Nat.le_succ _).trans hle₁, fun _ => hsettles.within hinner,
    fun _ => hsettles.exceeds hinner⟩, fun hm => ?_⟩
  · show m₁.depth - 1 = depth
    rw [hdepth₁, Nat.add_sub_cancel]
  · have hbelow : steps ≤ steps + 1 := Nat.le_succ _
    have hentered : Machine.Inside limits start ⟨heap, global, steps + 1, depth + 1⟩ :=
      ⟨Nat.succ_pos _, hroom.trans (le_max_right _ _), hm.steps_le.trans hbelow,
        fun _ => hinner.trans (Nat.le_succ _)⟩
    have hleft : Machine.Inside limits start m₁ :=
      ⟨hdepth₁ ▸ Nat.succ_pos _, hdepth₁ ▸ hroom.trans (le_max_right _ _),
        (hm.steps_le.trans hbelow).trans hle₁, fun _ => hsettles.within hinner⟩
    have hq := hsame ⟨hentered.depth_le, hentered.steps_le, fun _ => hinner⟩
    rw [hwatch _ hentered, if_pos rfl, hq]
    simp only
    rw [hwatch _ hleft, if_pos rfl]

end Eval.Accounts

/-! ### Passing arguments

Only calls change the counts, so up to calls the watched evaluation is the same function. -/

/-- The evaluator and its watched counterpart, for all code in all scopes. -/
def Evaluator.Accounts (limits : Limits) (start : Machine) (eval eval' : Evaluator) : Prop :=
  ∀ (code : Code) (scope : ObjectId), Eval.Accounts limits start (eval code scope) (eval' code scope)

/-- The invoker and its watched counterpart, for all callees and arguments. -/
def Invoker.Accounts (limits : Limits) (start : Machine) (inv inv' : Invoker) : Prop :=
  ∀ (callee : Labeled) (args : CallArguments),
    Eval.Accounts limits start (inv callee args) (inv' callee args)

section
variable {limits : Limits} {start : Machine} {eval eval' : Evaluator} {inv inv' : Invoker}
  {scope : ObjectId}

/-- The label of a value is not looked at. -/
theorem evaluateLabeled_accounts (he : eval.Accounts limits start eval') (code : Code)
    (scope : ObjectId) : Eval.Accounts limits start (evaluateLabeled eval code scope)
      (evaluateLabeled eval' code scope) :=
  (he code scope).bind fun _ => .pure _

theorem runFrom_accounts (he : eval.Accounts limits start eval') :
    ∀ (codes : List Code) (last : Labeled), Eval.Accounts limits start (runFrom eval scope codes last)
      (runFrom eval' scope codes last)
  | [], last => .pure last
  | c :: cs, _ => (he c scope).bind fun v => runFrom_accounts he cs v

theorem runAll_accounts (he : eval.Accounts limits start eval') (codes : List Code)
    (scope : ObjectId) :
    Eval.Accounts limits start (runAll eval codes scope) (runAll eval' codes scope) :=
  runFrom_accounts he codes .null

theorem materializeFrom_accounts (he : eval.Accounts limits start eval') :
    ∀ (i : Nat) (args : List (Argument Code)), Eval.Accounts limits start
      (materializeFrom eval scope i args) (materializeFrom eval' scope i args)
  | _, [] => .pure _
  | i, ⟨some _, code⟩ :: args =>
      (evaluateLabeled_accounts he code scope).bind fun _ =>
        (materializeFrom_accounts he i args).bind fun _ => .pure _
  | i, ⟨none, code⟩ :: args =>
      (evaluateLabeled_accounts he code scope).bind fun _ =>
        (materializeFrom_accounts he (i + 1) args).bind fun _ => .pure _

theorem materialize_accounts (he : eval.Accounts limits start eval') (args : CallArguments) :
    Eval.Accounts limits start (materialize eval args) (materialize eval' args) :=
  materializeFrom_accounts he 0 args.entries

/-- A single argument, for functions that do not evaluate all of them. -/
theorem evaluatePositional_accounts (he : eval.Accounts limits start eval') (args : CallArguments)
    (i : Nat) : Eval.Accounts limits start (evaluatePositional eval args i)
      (evaluatePositional eval' args i) := by
  unfold evaluatePositional
  split
  · exact evaluateLabeled_accounts he _ _
  · exact .pure _

theorem validateOne_accounts (parameter : Parameter) (v : Labeled) :
    Eval.Accounts limits start (validateOne parameter v) (validateOne parameter v) := by
  have hmismatch : ∀ mismatch : Mismatch, outOfSteps (.error (.error
      ((RuntimeError.mk (mismatch.failure parameter.key) []).leaving v.source)) :
        Except Interrupt Unit) = false := by
    intro mismatch
    cases v.source <;> rfl
  refine .still (fun m => ?_) (fun m => ?_) (fun m => ?_) <;> rw [validateOne] <;> split <;>
    first | rfl | exact hmismatch _

theorem validate_accounts (entries : Entries) : ∀ parameters : List Parameter,
    Eval.Accounts limits start (validate entries parameters) (validate entries parameters)
  | [] => .pure _
  | p :: ps => (validateOne_accounts p _).bind fun _ => validate_accounts entries ps

theorem setAll_accounts (id : ObjectId) : ∀ fields : Fields,
    Eval.Accounts limits start (setAll id fields) (setAll id fields)
  | [] => .pure _
  | _ :: rest => (Eval.Accounts.write _).bind fun _ => setAll_accounts id rest

/-- Inside of a call that has been counted, the body of a function is run. -/
theorem callFunction_accounts (he : eval.Accounts limits start eval') (lambda : Lambda)
    (captured : ObjectId) (args : CallArguments) :
    Eval.Accounts limits start (callFunction eval lambda captured args)
      (callFunction eval' lambda captured args) := by
  have hcollect : ∀ entries, Eval.Accounts limits start (collectArguments entries)
      (collectArguments entries) := fun entries =>
    (Eval.Accounts.change _).bind fun id => (setAll_accounts id entries).bind fun _ => .pure _
  have hprepare : Eval.Accounts limits start (prepareCall eval lambda captured args)
      (prepareCall eval' lambda captured args) :=
    (Eval.Accounts.change _).bind fun _ => (materialize_accounts he args).bind fun entries =>
      (hcollect entries).bind fun _ => (Eval.Accounts.change _).bind fun _ =>
        (validate_accounts entries _).bind fun _ => .pure _
  exact hprepare.bind fun scope => runAll_accounts he lambda.body scope

/-! ### Builtin functions

The functions that call back do so with the invoker they are given, watched or not. -/

namespace Builtin

theorem callWith_accounts (hi : inv.Accounts limits start inv') (callee : Labeled)
    (values : List Labeled) :
    Eval.Accounts limits start (callWith inv callee values) (callWith inv' callee values) :=
  fun m => hi callee _ m

/-- To ask for a number makes no calls. -/
theorem expectNumber_accounts (v : Labeled) (who : String) :
    Eval.Accounts limits start (expectNumber v who) (expectNumber v who) := by
  rw [expectNumber]
  split
  · exact .pure _
  · exact .misuse _

/-- To ask for a text makes no calls. -/
theorem expectString_accounts (v : Labeled) (who : String) :
    Eval.Accounts limits start (expectString v who) (expectString v who) := by
  rw [expectString]
  split
  · exact .pure _
  · exact .misuse _

/-- To ask for a boolean makes no calls. -/
theorem expectBoolean_accounts (v : Labeled) (who : String) :
    Eval.Accounts limits start (expectBoolean v who) (expectBoolean v who) := by
  rw [expectBoolean]
  split
  · exact .pure _
  · exact .misuse _

/-- To ask for a key makes no calls. -/
theorem expectKey_accounts (v : Labeled) (who : String) :
    Eval.Accounts limits start (expectKey v who) (expectKey v who) := by
  rw [expectKey]
  split
  · exact .pure _
  · split
    · exact .pure _
    · exact .misuse _
  · exact .misuse _

/-- The smallest and the greatest of numbers are found without calls. -/
theorem foldNumbers_accounts (who : String) (pick : Float → Float → Float) :
    ∀ (best : Option Float) (entries : Entries), Eval.Accounts limits start
      (foldNumbers who pick best entries) (foldNumbers who pick best entries)
  | some _, [] => .pure _
  | none, [] => .misuse _
  | some _, _ :: rest | none, _ :: rest =>
      (expectNumber_accounts _ _).bind fun _ => foldNumbers_accounts who pick _ rest

theorem addValues_accounts (left right : Value) :
    Eval.Accounts limits start (addValues left right) (addValues left right) := by
  unfold addValues
  split
  · exact .pure _
  · exact .ask _
  · exact .ask _
  · exact .misuse _

theorem newList_accounts (scope : ObjectId) (args : Entries) :
    Eval.Accounts limits start (newList scope args) (newList scope args) := by
  refine (Eval.Accounts.ask _).bind fun proto => ?_
  split
  · exact (Eval.Accounts.change _).bind fun id => (setAll_accounts id _).bind fun _ =>
      (setAll_accounts id _).bind fun _ => .pure _
  · exact .misuse _

/-- To add to a list makes no calls. -/
theorem appendTo_accounts (args : Entries) :
    Eval.Accounts limits start (appendTo args) (appendTo args) := by
  rw [appendTo]
  split
  · exact (Eval.Accounts.ask _).bind fun _ => (expectNumber_accounts _ _).bind fun _ =>
      (setAll_accounts _ _).bind fun _ => .pure _
  · exact .misuse _

theorem forEachField_accounts (hi : inv.Accounts limits start inv') (callback : Labeled) :
    ∀ fields : Fields, Eval.Accounts limits start (forEachField inv callback fields)
      (forEachField inv' callback fields)
  | [] => .pure _
  | _ :: rest =>
      (callWith_accounts hi callback _).bind fun _ => forEachField_accounts hi callback rest

/-- Each round calls the condition, and the body as long as the condition is true. -/
theorem loopWhile_accounts (hi : inv.Accounts limits start inv') (condition body : Labeled) :
    ∀ (rounds : Nat) (last : Labeled), Eval.Accounts limits start
      (loopWhile inv condition body rounds last) (loopWhile inv' condition body rounds last)
  | 0, _ => .interrupt rfl
  | rounds + 1, last => by
      refine (callWith_accounts hi condition []).bind fun again =>
        (expectBoolean_accounts again _).bind fun b => ?_
      cases b with
      | true =>
        exact (callWith_accounts hi body []).bind fun v =>
          loopWhile_accounts hi condition body rounds v
      | false => exact .pure last

/-- A conditional calls at most one of its branches. -/
theorem chooseBranch_accounts (hi : inv.Accounts limits start inv') (args : Entries) :
    Eval.Accounts limits start (chooseBranch inv args) (chooseBranch inv' args) := by
  refine (expectBoolean_accounts _ _).bind fun taken => ?_
  dsimp only
  generalize (if taken then args.positional 1 else args.positional 2) = branch
  split
  · exact .pure _
  · exact callWith_accounts hi branch []

theorem applyEager_accounts (hi : inv.Accounts limits start inv') (rounds : Nat) (scope : ObjectId)
    (args : Entries) (which : Builtin) : Eval.Accounts limits start
      (applyEager inv rounds scope args which) (applyEager inv' rounds scope args which) := by
  cases which with
  | object =>
    exact (Eval.Accounts.change _).bind fun id => (setAll_accounts id _).bind fun _ =>
      (setAll_accounts id _).bind fun _ => .pure _
  | forEach =>
    rw [applyEager, applyEager]
    split
    · exact (Eval.Accounts.ask _).bind fun fields => forEachField_accounts hi _ fields
    · exact .pure _
  | get => exact (expectKey_accounts _ _).bind fun _ => .read _
  | set =>
    exact (expectKey_accounts _ _).bind fun _ => (Eval.Accounts.write _).bind fun _ => .pure _
  | has => exact (expectKey_accounts _ _).bind fun _ => (Eval.Accounts.read _).bind fun _ => .pure _
  | not => exact (expectBoolean_accounts _ _).bind fun _ => .pure _
  | floor | ceil | round | abs => exact (expectNumber_accounts _ _).bind fun _ => .pure _
  | min | max => exact foldNumbers_accounts _ _ _ _
  | string => exact .ask _
  | stringLength | toUpperCase | toLowerCase =>
    exact (expectString_accounts _ _).bind fun _ => .pure _
  | contains =>
    exact (expectString_accounts _ _).bind fun _ =>
      (expectString_accounts _ _).bind fun _ => .pure _
  | choose => exact chooseBranch_accounts hi args
  | loop => exact loopWhile_accounts hi _ _ rounds .null
  | raise => exact (expectString_accounts _ _).bind fun _ => .interrupt rfl
  | add => exact addValues_accounts _ _
  | subtract | multiply | divide | remainder | less | lessOrEqual | greater | greaterOrEqual =>
    exact (expectNumber_accounts _ _).bind fun _ =>
      (expectNumber_accounts _ _).bind fun _ => .pure _
  | equal | notEqual | constTrue | constFalse | and | or | coalesce => exact .pure _
  | list => exact newList_accounts scope args
  | listAdd => exact appendTo_accounts args

theorem forced_accounts (he : eval.Accounts limits start eval') (parameters : List Parameter)
    (args : CallArguments) (i : Nat) : Eval.Accounts limits start
      (forced eval parameters args i) (forced eval' parameters args i) :=
  (evaluatePositional_accounts he args i).bind fun _ => (validate_accounts _ _).bind fun _ => .pure _

/-- The functions that evaluate their arguments on demand. -/
theorem applyLazy_accounts (he : eval.Accounts limits start eval') (args : CallArguments)
    (which : Builtin) :
    Eval.Accounts limits start (applyLazy eval args which) (applyLazy eval' args which) := by
  unfold applyLazy
  split
  · exact .pure _
  · exact .pure _
  · refine (forced_accounts he _ args 0).bind fun left =>
      (expectBoolean_accounts _ _).bind fun b => ?_
    cases b with
    | true => exact forced_accounts he _ args 1
    | false => exact .pure _
  · refine (forced_accounts he _ args 0).bind fun left =>
      (expectBoolean_accounts _ _).bind fun b => ?_
    cases b with
    | true => exact .pure _
    | false => exact forced_accounts he _ args 1
  · refine (forced_accounts he _ args 0).bind fun left => ?_
    split
    · exact forced_accounts he _ args 1
    · exact .pure _
  · exact .pure _

theorem apply_accounts (he : eval.Accounts limits start eval') (hi : inv.Accounts limits start inv')
    (rounds : Nat) (which : Builtin) (scope : ObjectId) (args : CallArguments) :
    Eval.Accounts limits start (which.apply eval inv rounds scope args)
      (which.apply eval' inv' rounds scope args) := by
  unfold apply
  split
  · exact applyLazy_accounts he args which
  · exact (materialize_accounts he args).bind fun entries =>
      (validate_accounts _ _).bind fun _ => applyEager_accounts hi rounds scope entries which

end Builtin

/-! ### Nodes and calls

Where a call is entered and where it is left, the machine is inside of the bounds. -/

/-- To bind a value to names makes no calls. -/
theorem bindNames_accounts (scope : ObjectId) (value : Value) : ∀ (i : Nat) (names : List String),
    Eval.Accounts limits start (bindNames scope value i names) (bindNames scope value i names)
  | _, [] => .pure _
  | i, _ :: names => (Eval.Accounts.read _).bind fun _ => (Eval.Accounts.write _).bind fun _ =>
      bindNames_accounts scope value (i + 1) names

/-- One node of code, for an evaluator and an invoker that keep accounts. -/
theorem step_accounts (he : eval.Accounts limits start eval') (hi : inv.Accounts limits start inv')
    (code : Code) (scope : ObjectId) :
    Eval.Accounts limits start (step eval inv code scope) (step eval' inv' code scope) := by
  cases code with
  | const _ | literal _ _ => exact .pure _
  | identifier _ _ => exact .ask _
  | bracket _ inner => exact evaluateLabeled_accounts he inner scope
  | field _ target _ => exact (he target scope).bind fun _ => .read _
  | call _ target args => exact (he target scope).bind fun callee => hi callee _
  | send _ target _ args =>
    exact (he target scope).bind fun receiver =>
      (Eval.Accounts.read _).bind fun callee => hi callee _
  | bind _ _ value =>
    exact (evaluateLabeled_accounts he value scope).bind fun _ =>
      (Eval.Accounts.write _).bind fun _ => .pure _
  | store _ target _ value =>
    exact (evaluateLabeled_accounts he value scope).bind fun _ =>
      (he target scope).bind fun _ => (Eval.Accounts.write _).bind fun _ => .pure _
  | destructure _ names value =>
    exact (evaluateLabeled_accounts he value scope).bind fun v =>
      (bindNames_accounts scope v.value 0 names).bind fun _ => .pure _
  | function _ _ _ _ | builtin _ _ => exact (Eval.Accounts.change _).bind fun _ => .pure _
  | probeScope _ _ => exact .interrupt rfl
  | probeField _ target _ => exact (he target scope).bind fun _ => .interrupt rfl

/-- A call that may still be made leads to a machine inside the bounds, so the watch lets it pass, both when it
has been entered and before it is left. -/
theorem dispatch_accounts {watch : Machine → Bool}
    (hwatch : ∀ m, Machine.Inside limits start m → watch m = true)
    (he : eval.Accounts limits start eval') (hi : inv.Accounts limits start inv') (rounds : Nat)
    (callee : Labeled) (args : CallArguments) :
    Eval.Accounts limits start (dispatch (Eval.enter limits) eval inv rounds callee args)
      (dispatchWatched limits watch eval' inv' rounds callee args) := by
  rcases callee with ⟨_ | _ | _ | _ | id, _⟩
  case object =>
    refine (Eval.Accounts.ask _).bind fun kind => ?_
    cases kind with
    | plain => exact .interrupt rfl
    | function lambda scope => exact .guarded hwatch (callFunction_accounts he lambda scope args)
    | builtin which scope =>
      exact .guarded hwatch (Builtin.apply_accounts he hi rounds which scope args)
  all_goals exact .interrupt rfl

/-- Evaluation and calls keep accounts, by induction on the fuel: a watch that lets all machines inside the
bounds pass makes no difference to them. -/
theorem evaluate_invoke_accounts {watch : Machine → Bool}
    (hwatch : ∀ m, Machine.Inside limits start m → watch m = true) : ∀ fuel : Nat,
      (evaluate limits fuel).Accounts limits start (evaluateWatched limits watch fuel) ∧
        (invoke limits fuel).Accounts limits start (invokeWatched limits watch fuel)
  | 0 => ⟨fun _ _ => .interrupt rfl, fun _ _ => .interrupt rfl⟩
  | fuel + 1 => by
      obtain ⟨he, hi⟩ := evaluate_invoke_accounts hwatch fuel
      refine ⟨fun code scope => ?_, fun callee args => ?_⟩
      · exact .leaving _ (step_accounts he hi code scope)
      · exact dispatch_accounts hwatch he hi fuel callee args

end

/-! ### Whole runs

What the accounts say of a machine from its start on, of its runs and its calls. -/

/-- The accounts of the evaluation `p`, which `watched` is with a watch on its calls, from `m` on. -/
structure Accounted (limits : Limits) (m : Machine) (p : Eval Labeled)
    (watched : (Machine → Bool) → Eval Labeled) : Prop where
  settles : Settles limits m (p m).1 (p m).2
  unseen : ∀ watch, (∀ m', Machine.Inside limits m m' → watch m' = true) → watched watch m = p m
  fits : limits.maxSteps < UInt64.size - 1 → m.steps ≤ limits.maxSteps →
    (p m).2.steps < UInt64.size ∧ ∀ m', Machine.Inside limits m m' → m'.steps < UInt64.size

/-- Two watches are enough to say all there is to say about the counts.  One refuses machines outside of the
bounds, the other refuses nothing. -/
theorem accounted_of_accounts {limits : Limits} {m : Machine} {p : Eval Labeled}
    {watched : (Machine → Bool) → Eval Labeled}
    (h : ∀ watch, (∀ m', Machine.Inside limits m m' → watch m' = true) →
      Eval.Accounts limits m p (watched watch)) : Accounted limits m p watched := by
  have hsettles := (h (fun _ => true) (fun _ _ => rfl) m).1
  refine ⟨hsettles, fun watch hwatch => (h watch hwatch m).2 (.refl limits m), fun hmax hm => ⟨?_, ?_⟩⟩
  · have hle := hsettles.within hm
    omega
  · intro m' hin
    have hle := hin.within hm
    omega

/-- No call is under way any more when a text has been run. -/
theorem Machine.run_depth (m : Machine) (limits : Limits) (codes : List Code) :
    (m.run limits codes).2.depth = m.depth := by
  have hwatch : ∀ m', Machine.Inside limits m m' → (fun _ => true) m' = true := fun _ _ => rfl
  exact (runAll_accounts (evaluate_invoke_accounts hwatch _).1 codes m.global m).1.depth

/-- A call from outside is over when it comes back. -/
theorem Machine.call_depth (m : Machine) (limits : Limits) (callee : Labeled) (args : CallArguments) :
    (m.call limits callee args).2.depth = m.depth := by
  have hwatch : ∀ m', Machine.Inside limits m m' → (fun _ => true) m' = true := fun _ _ => rfl
  exact ((evaluate_invoke_accounts hwatch _).2 callee args m).1.depth

theorem Interpreter.load_depth (limits : Limits) : ∀ (loaded : List LoadedModule) (m : Machine),
    (load limits loaded m).2.depth = m.depth
  | [], _ => rfl
  | l :: rest, m => by
      have hrun := m.run_depth limits l.code
      rw [load]
      rcases hm : m.run limits l.code with ⟨i | v, m'⟩ <;> rw [hm] at hrun
      · exact hrun
      · exact (load_depth limits rest m').trans hrun

/-- A machine starts up without calls under way. -/
theorem Interpreter.bootstrap_depth (i : Interpreter) (limits : Limits) :
    (i.bootstrap limits).2.depth = 0 := by
  have hload : (load limits i.modules .initial).2.depth = 0 := load_depth limits i.modules .initial
  rw [bootstrap]
  rcases hm : load limits i.modules .initial with ⟨e | _, m⟩ <;> rw [hm] at hload <;> exact hload

/-- To answer a request leaves no calls under way. -/
theorem Machine.answer_depth (m : Machine) (limits : Limits) (request : Request) :
    (m.answer limits request).2.depth = m.depth := by
  unfold answer
  split
  · rfl
  · rename_i exprs _
    have hrun := m.run_depth limits (Expr.lowerAll { retain := true } exprs)
    split <;> rename_i hm <;> rw [hm] at hrun
    · exact hrun
    · rename_i v m'
      split
      · exact hrun
      · exact (m'.call_depth limits v _).trans hrun

/-- The machine that a session leaves which has answered the requests one after the other. -/
def Machine.afterAll (limits : Limits) : List Request → Machine → Machine
  | [], m => m
  | request :: requests, m => afterAll limits requests (m.answer limits request).2

theorem Machine.afterAll_depth (limits : Limits) : ∀ (requests : List Request) (m : Machine),
    (m.afterAll limits requests).depth = m.depth
  | [], _ => rfl
  | request :: requests, m =>
      (afterAll_depth limits requests _).trans (m.answer_depth limits request)

/-- **The accounts of every run.**  From whatever machine and with whatever outcome, evaluating code,
running a list of it, and calling a value with unevaluated or with evaluated arguments leave as many
calls under way as there were, and never fewer calls made; a run that starts within the limit of calls
exceeds it, then by one only, exactly if the limit ends it.  Inside of all calls that are made on the
way at least one call is under way, so there is one to end, and no more than were at the start or than
the limit allows; and where the limit fits a word of 64 bits with one to spare, so do the calls made.
A session that has answered any requests, with success or without, has no call under way. -/
theorem accounts_of_every_run (limits : Limits) :
    (∀ (m : Machine) (fuel : Nat),
      (∀ code scope, Accounted limits m (evaluate limits fuel code scope)
        fun watch => evaluateWatched limits watch fuel code scope) ∧
      (∀ codes scope, Accounted limits m (runAll (evaluate limits fuel) codes scope)
        fun watch => runAll (evaluateWatched limits watch fuel) codes scope) ∧
      (∀ callee args, Accounted limits m (invoke limits fuel callee args)
        fun watch => invokeWatched limits watch fuel callee args) ∧
      ∀ callee values, Accounted limits m (Builtin.callWith (invoke limits fuel) callee values)
        fun watch => Builtin.callWith (invokeWatched limits watch fuel) callee values) ∧
      ∀ (i : Interpreter) (requests : List Request),
        ((i.bootstrap limits).2.afterAll limits requests).depth = 0 := by
  refine ⟨fun m fuel => ⟨fun code scope => ?_, fun codes scope => ?_, fun callee args => ?_,
    fun callee values => ?_⟩, fun i requests => ?_⟩
  · exact accounted_of_accounts fun watch hw => (evaluate_invoke_accounts hw fuel).1 code scope
  · exact accounted_of_accounts fun watch hw =>
      runAll_accounts (evaluate_invoke_accounts hw fuel).1 codes scope
  · exact accounted_of_accounts fun watch hw => (evaluate_invoke_accounts hw fuel).2 callee args
  · exact accounted_of_accounts fun watch hw =>
      Builtin.callWith_accounts (evaluate_invoke_accounts hw fuel).2 callee values
  · exact (Machine.afterAll_depth limits requests _).trans (i.bootstrap_depth limits)

/-- The theorem at a function that calls itself until the limit of three calls ends it. -/
theorem accounts_of_every_run_recursion :
    let again := Library.callOf (.identifier .nowhere "again")
    let codes := Expr.lowerAll { retain := true }
      [Library.define "again" (.function .nowhere [] [] [again]), again]
    let run := runAll (evaluate ⟨3, 10⟩ 40) codes Machine.initial.global
    outOfSteps (run .initial).1 = true ∧ (run .initial).2.steps = 4 ∧ (run .initial).2.depth = 0 := by
  intro again codes run
  have hout : outOfSteps (run .initial).1 = true := by decide +kernel
  have hrun : Settles ⟨3, 10⟩ .initial (run .initial).1 (run .initial).2 :=
    (((accounts_of_every_run ⟨3, 10⟩).1 .initial 40).2.1 codes Machine.initial.global).settles
  have hstart : Machine.initial.steps ≤ 3 := Nat.zero_le 3
  have hdepth : Machine.initial.depth = 0 := rfl
  exact ⟨hout, (hrun.exceeds hstart).mpr hout, hrun.depth.trans hdepth⟩

end Protean
