import Protean.Proofs.Machine.Loop
import Protean.Proofs.Machine.Termination

/-!
# Proofs — Builtin — operators that skip an operand

`&&`, `||` and `??` are functions like any others: whether they evaluate their second operand is not the
evaluator's business but follows from what they ask of their unevaluated arguments.  Their operands are the
positional arguments, wherever these stand among the receiver and the named ones.  An operand on its own is
evaluated with fuel enough (`CallArguments.operand`); `operand_eq` says that more fuel changes nothing, so operands
and calls can be run with one and the same fuel.

One lemma for each way in which the first operand comes out says what `Builtin.applyLazy` does then.  Put
together, the result of a call is a function of the outcomes of its operands, each started on the machine that
the one before it has left (`Builtin.ShortCircuits`).  If the first operand decides, nothing else of the
arguments occurs in the result, so **whatever stands in the place of the skipped ones makes no difference**
(`lazy_operators_short_circuit`).

* `Builtin.forced_error`, `Builtin.forced_ok`, `Builtin.forced_refused`: an operand fails, is fit, or is no boolean
  where one is asked for.
* `Builtin.applyLazy_error`, `Builtin.applyLazy_decided`, `Builtin.applyLazy_undecided`: what the operator does about
  its first operand.
* `Builtin.call_shortCircuits`: a whole call, as a function of the outcomes of the operands.
* `Builtin.ShortCircuits.mismatchAt_iff`: whose fault it is when the call is refused.
-/

namespace Protean

/-! ### Operands

Which argument is the operand of an operator, and what it is to evaluate it. -/

/-- The positional argument `n` of a call, evaluated on its own with fuel enough; a missing one is null. -/
def CallArguments.operand (args : CallArguments) (limits : Limits) (n : Nat) : Eval Labeled :=
  (args.positional? n).elim (Eval.pure .null) fun code m =>
    evaluateLabeled (evaluate limits (m.fuelFor limits code.height)) code args.scope m

namespace Machine

variable {limits : Limits}

/-- With fuel enough, a call inside of a run is the same as one on its own. -/
theorem invoke_eq_call_of_ended {m : Machine} {fuel : Nat} {callee : Labeled} {args : CallArguments}
    (h : (invoke limits fuel callee args m).1 ≠ .error .starved) :
    invoke limits fuel callee args m = m.call limits callee args := by
  have hmore := invoke_fuel_le limits (Nat.le_max_left fuel (m.fuelFor limits (Code.argsHeight args.entries)))
    callee args m fun i hi hs => h (hs ▸ hi)
  rw [← hmore]
  exact m.invoke_eq_call limits callee args (Nat.le_max_right _ _)

end Machine

/-- Fuel enough for the operand is as good as any more of it. -/
theorem CallArguments.operand_eq (args : CallArguments) (limits : Limits) (n : Nat) (m : Machine) {fuel : Nat}
    (hfuel : m.fuelFor limits ((args.positional? n).elim 0 Code.height) ≤ fuel) :
    evaluatePositional (evaluate limits fuel) args n m = args.operand limits n m := by
  rw [evaluatePositional, operand]
  cases hcode : args.positional? n with
  | none => rfl
  | some code =>
    rw [hcode] at hfuel
    refine evaluateLabeled_agrees (evaluate_fuel_le limits hfuel) code args.scope m fun i hi hs => ?_
    have hends := m.evaluate_ends_of_le limits code le_rfl args.scope
    subst hs
    change (Eval.bind (evaluate limits (m.fuelFor limits code.height) code args.scope) _ m).1 = _ at hi
    rw [Eval.bind] at hi
    rcases hrun : evaluate limits (m.fuelFor limits code.height) code args.scope m with ⟨i | v, m'⟩ <;>
      rw [hrun] at hi hends
    · exact hends hi
    · cases hi

/-- Operands that are the same code in the same scope. -/
theorem CallArguments.operand_congr {args args' : CallArguments} {n : Nat} (hscope : args'.scope = args.scope)
    (hcode : args'.positional? n = args.positional? n) (limits : Limits) :
    args'.operand limits n = args.operand limits n := by
  rw [operand, operand, hcode, hscope]

/-! ### What the operators make of an operand

When the first operand decides, when an operand is refused, and that it is never both. -/

/-- An error that is about the argument under the index `n` as a whole. -/
def Interrupt.MismatchAt (n : Nat) (i : Interrupt) : Prop :=
  ∃ e expected, i = .error e ∧ e.failure = .typeMismatch [.index n] expected

namespace Builtin

/-- The operators that evaluate their second operand only if they need it. -/
def lazyOperators : List Builtin := [.and, .or, .coalesce]

/-- A first operand that settles the result. -/
def DecidedBy : Builtin → Value → Prop
  | .and, v => v = .boolean false
  | .or, v => v = .boolean true
  | .coalesce, v => v ≠ .null
  | _, _ => False

/-- An operand that the operator cannot work with. -/
def Refuses : Builtin → Value → Prop
  | .and, v | .or, v => ∀ b, v ≠ .boolean b
  | _, _ => False

/-- The error that the operand `n` is not a boolean. -/
def refusal (n : Nat) (v : Labeled) : Interrupt :=
  .error ((RuntimeError.mk (.typeMismatch [.index n] "boolean") []).leaving v.source)

/-- A refusal of the operand `n` is a mismatch at its position. -/
theorem refusal_mismatchAt (n : Nat) (v : Labeled) : (refusal n v).MismatchAt n :=
  ⟨_, "boolean", rfl, by cases v with | mk _ source => cases source <;> rfl⟩

/-- A refusal that is a mismatch at one position is a mismatch at no other. -/
theorem eq_of_refusal_mismatchAt {n k : Nat} {v : Labeled} (h : (refusal n v).MismatchAt k) : k = n := by
  obtain ⟨e, expected, he, hfailure⟩ := h
  obtain ⟨e', expected', he', hfailure'⟩ := refusal_mismatchAt n v
  cases he.symm.trans he'
  cases hfailure.symm.trans hfailure'
  rfl

/-- What the operator makes of what its operands come to, each of them evaluated once, and the second one on the
machine that the first one has left.  The machine `m` is the one on which the call is made. -/
structure ShortCircuits (which : Builtin) (operand : Nat → Eval Labeled) (m : Machine)
    (result : Except Interrupt Labeled × Machine) : Prop where
  interrupted : ∀ {i m₁}, operand 0 m.entered = (.error i, m₁) → result = (.error i, m₁.left)
  decided : ∀ {v m₁}, operand 0 m.entered = (.ok v, m₁) → which.DecidedBy v.value → result = (.ok v, m₁.left)
  refused : ∀ {v m₁}, operand 0 m.entered = (.ok v, m₁) → which.Refuses v.value →
    result = (.error (refusal 0 v), m₁.left)
  passed_on : ∀ {v m₁ i m₂}, operand 0 m.entered = (.ok v, m₁) → ¬ which.DecidedBy v.value →
    ¬ which.Refuses v.value → operand 1 m₁ = (.error i, m₂) → result = (.error i, m₂.left)
  taken : ∀ {v m₁ w m₂}, operand 0 m.entered = (.ok v, m₁) → ¬ which.DecidedBy v.value →
    ¬ which.Refuses v.value → operand 1 m₁ = (.ok w, m₂) → ¬ which.Refuses w.value → result = (.ok w, m₂.left)
  refused_second : ∀ {v m₁ w m₂}, operand 0 m.entered = (.ok v, m₁) → ¬ which.DecidedBy v.value →
    ¬ which.Refuses v.value → operand 1 m₁ = (.ok w, m₂) → which.Refuses w.value →
      result = (.error (refusal 1 w), m₂.left)

section
variable {which : Builtin} {eval : Evaluator} {args : CallArguments} {n : Nat} {m m₁ m₂ : Machine} {v w : Labeled}
  {i : Interrupt}

theorem mem_lazyOperators : which ∈ lazyOperators ↔ which = .and ∨ which = .or ∨ which = .coalesce := by
  simp [lazyOperators]

/-- What `&&` and `||` do not refuse is a boolean. -/
theorem exists_of_not_refuses {v : Value} (hwhich : which = .and ∨ which = .or) (h : ¬ which.Refuses v) :
    ∃ b, v = .boolean b := by
  obtain rfl | rfl := hwhich
  all_goals simpa only [Refuses, not_forall, not_not] using h

/-- A value cannot both decide and be refused. -/
theorem not_refuses_of_decidedBy {v : Value} (hwhich : which ∈ lazyOperators) (h : which.DecidedBy v) :
    ¬ which.Refuses v := by
  obtain rfl | rfl | rfl := mem_lazyOperators.mp hwhich
  · exact fun hr => hr false h
  · exact fun hr => hr true h
  · exact id

/-- The declared parameters of the two operators on booleans. -/
theorem parameters_at (hwhich : which = .and ∨ which = .or) (hn : n < 2) :
    which.parameters.filter (fun p => p.key = .index n) = [positional n .boolean] := by
  obtain rfl | rfl : n = 0 ∨ n = 1 := by omega
  all_goals obtain rfl | rfl := hwhich <;> rfl

/-- A boolean passes the check of an operand. -/
theorem validate_boolean {b : Bool} (n : Nat) (hv : v.value = .boolean b) (m : Machine) :
    validate [(.index n, v)] [positional n .boolean] m = (.ok (), m) := by
  have hlookup : Entries.lookup [(.index n, v)] (positional n .boolean).key = v := by
    rw [Entries.lookup, positional, Fields.find?, if_pos rfl, Option.getD_some]
  refine Eval.bind_of_ok (a := ()) ?_
  rw [hlookup, validateOne, hv]
  rfl

/-- Anything else fails it, with the position of the operand. -/
theorem validate_other (n : Nat) (hv : ∀ b, v.value ≠ .boolean b) (m : Machine) :
    validate [(.index n, v)] [positional n .boolean] m = (.error (refusal n v), m) := by
  have hlookup : Entries.lookup [(.index n, v)] (positional n .boolean).key = v := by
    rw [Entries.lookup, positional, Fields.find?, if_pos rfl, Option.getD_some]
  refine Eval.bind_of_error ?_
  rw [hlookup, validateOne]
  cases hvalue : v.value with
  | boolean b => exact absurd hvalue (hv b)
  | _ => rfl

/-! ### Forcing an operand

An operand is evaluated once, and checked against the parameter it is for. -/

theorem forced_error {parameters : List Parameter} (h : evaluatePositional eval args n m = (.error i, m₁)) :
    forced eval parameters args n m = (.error i, m₁) := Eval.bind_of_error h

/-- An operand that is fit is passed on. -/
theorem forced_ok (hwhich : which ∈ lazyOperators) (hn : n < 2)
    (h : evaluatePositional eval args n m = (.ok v, m₁)) (hv : ¬ which.Refuses v.value) :
    forced eval which.parameters args n m = (.ok v, m₁) := by
  rw [forced, Eval.bind_of_ok h]
  refine Eval.bind_of_ok (a := ()) ?_
  have hboolean (hbool : which = .and ∨ which = .or) :
      validate [(.index n, v)] (which.parameters.filter fun p => p.key = .index n) m₁ = (.ok (), m₁) := by
    obtain ⟨b, hb⟩ := exists_of_not_refuses hbool hv
    rw [parameters_at hbool hn]
    exact validate_boolean n hb m₁
  obtain hand | hor | rfl := mem_lazyOperators.mp hwhich
  · exact hboolean (.inl hand)
  · exact hboolean (.inr hor)
  · rfl

/-- An operand that is no boolean is refused where one is asked for. -/
theorem forced_refused (hn : n < 2) (h : evaluatePositional eval args n m = (.ok v, m₁))
    (hv : which.Refuses v.value) : forced eval which.parameters args n m = (.error (refusal n v), m₁) := by
  rw [forced, Eval.bind_of_ok h]
  refine Eval.bind_of_error ?_
  cases which with
  | and =>
    rw [parameters_at (.inl rfl) hn]
    exact validate_other n hv m₁
  | or =>
    rw [parameters_at (.inr rfl) hn]
    exact validate_other n hv m₁
  | _ => exact hv.elim

/-! ### Applying an operator

The five ways in which an operator goes on from its first operand. -/

/-- An operator first forces its first operand. -/
theorem applyLazy_error (hwhich : which ∈ lazyOperators)
    (h : forced eval which.parameters args 0 m = (.error i, m₁)) :
    applyLazy eval args which m = (.error i, m₁) := by
  obtain rfl | rfl | rfl := mem_lazyOperators.mp hwhich
  all_goals exact Eval.bind_of_error h

/-- **If the first operand decides**, it is the result, and the machine is the one it has left. -/
theorem applyLazy_decided (hwhich : which ∈ lazyOperators)
    (h : forced eval which.parameters args 0 m = (.ok v, m₁)) (hv : which.DecidedBy v.value) :
    applyLazy eval args which m = (.ok v, m₁) := by
  obtain rfl | rfl | rfl := mem_lazyOperators.mp hwhich
  · exact (Eval.bind_of_ok h).trans (Eval.bind_of_ok (Machine.expectBoolean_eq hv _ _))
  · exact (Eval.bind_of_ok h).trans (Eval.bind_of_ok (Machine.expectBoolean_eq hv _ _))
  · refine (Eval.bind_of_ok h).trans ?_
    have hnull : v.value.isNull = false := by
      cases hvalue : v.value with
      | null => exact absurd hvalue hv
      | _ => rfl
    rw [hnull]
    rfl

/-- An operator that its first operand leaves undecided forces the second one. -/
theorem applyLazy_undecided (hwhich : which ∈ lazyOperators)
    (h : forced eval which.parameters args 0 m = (.ok v, m₁)) (hv : ¬ which.DecidedBy v.value)
    (hr : ¬ which.Refuses v.value) :
    applyLazy eval args which m = forced eval which.parameters args 1 m₁ := by
  obtain rfl | rfl | rfl := mem_lazyOperators.mp hwhich
  · obtain ⟨b, hb⟩ := exists_of_not_refuses (.inl rfl) hr
    have htrue : v.value = .boolean true := by
      cases b with
      | false => exact absurd hb hv
      | true => exact hb
    exact (Eval.bind_of_ok h).trans (Eval.bind_of_ok (Machine.expectBoolean_eq htrue _ _))
  · obtain ⟨b, hb⟩ := exists_of_not_refuses (.inr rfl) hr
    have hfalse : v.value = .boolean false := by
      cases b with
      | false => exact hb
      | true => exact absurd hb hv
    exact (Eval.bind_of_ok h).trans (Eval.bind_of_ok (Machine.expectBoolean_eq hfalse _ _))
  · refine (Eval.bind_of_ok h).trans ?_
    have hnull : v.value = .null := not_not.mp hv
    rw [hnull]
    rfl

end

/-! ### Calls

From the operator to the call, with room for it under the limits. -/

section
variable {which : Builtin} {m m₁ : Machine} {limits : Limits} {fuel : Nat} {callee : Labeled} {id home : ObjectId}
  {args : CallArguments}

/-- A call of an operator applies it between entering and leaving. -/
theorem invoke_lazy (hwhich : which ∈ lazyOperators) (hid : callee.value = .object id)
    (hkind : (m.heap.get id).kind = .builtin which home) (hroom : Limits.Le ⟨m.steps + 1, m.depth + 1⟩ limits) :
    invoke limits (fuel + 1) callee args m =
      ((applyLazy (evaluate limits fuel) args which m.entered).1,
        (applyLazy (evaluate limits fuel) args which m.entered).2.left) := by
  have hlazy : which.isLazy = true := by
    obtain rfl | rfl | rfl := mem_lazyOperators.mp hwhich
    all_goals rfl
  have hguarded : invoke limits (fuel + 1) callee args m =
      Eval.guarded (Eval.enter limits) (which.apply (evaluate limits fuel) (invoke limits fuel) fuel home args) m := by
    rw [invoke_succ, dispatch, hid]
    show Eval.bind _ _ m = _
    rw [Eval.bind, Eval.ask]
    simp only [hkind]
  rw [hguarded, Eval.guarded_eq hroom, apply, if_pos hlazy]

/-- A call of an operator is decided by the evaluator that all of its operands are evaluated with, if that has
fuel enough for the call and for the operands. -/
theorem call_lazy (hwhich : which ∈ lazyOperators) (hid : callee.value = .object id)
    (hkind : (m.heap.get id).kind = .builtin which home) (hroom : Limits.Le ⟨m.steps + 1, m.depth + 1⟩ limits)
    (m₁ : Machine) : ∃ eval : Evaluator,
      evaluatePositional eval args 0 m.entered = args.operand limits 0 m.entered ∧
      evaluatePositional eval args 1 m₁ = args.operand limits 1 m₁ ∧
      m.call limits callee args =
        ((applyLazy eval args which m.entered).1, (applyLazy eval args which m.entered).2.left) := by
  let fuel := m.fuelFor limits (Code.argsHeight args.entries) +
    m.entered.fuelFor limits ((args.positional? 0).elim 0 Code.height) +
      m₁.fuelFor limits ((args.positional? 1).elim 0 Code.height)
  refine ⟨evaluate limits fuel, args.operand_eq limits 0 m.entered (by omega), args.operand_eq limits 1 m₁ (by omega),
    ?_⟩
  rw [← invoke_lazy hwhich hid hkind hroom]
  exact (m.invoke_eq_call limits callee args (by omega)).symm

/-- **The outcome of a call** from the outcomes of its operands. -/
theorem call_shortCircuits (hwhich : which ∈ lazyOperators) (hid : callee.value = .object id)
    (hkind : (m.heap.get id).kind = .builtin which home) (hroom : Limits.Le ⟨m.steps + 1, m.depth + 1⟩ limits)
    (args : CallArguments) : which.ShortCircuits (args.operand limits) m (m.call limits callee args) := by
  -- a case for each way the operator can end, each with the first operand evaluated once
  refine ⟨?interrupted, ?decided, ?refused, ?passed_on, ?taken, ?refused_second⟩
  case interrupted =>
    intro i m₁ hfirst
    obtain ⟨eval, h₀, -, hcall⟩ := call_lazy hwhich hid hkind hroom m₁
    rw [hcall, applyLazy_error hwhich (forced_error (h₀.trans hfirst))]
  case decided =>
    intro v m₁ hfirst hv
    obtain ⟨eval, h₀, -, hcall⟩ := call_lazy hwhich hid hkind hroom m₁
    have hforced := forced_ok hwhich (by omega) (h₀.trans hfirst) (not_refuses_of_decidedBy hwhich hv)
    rw [hcall, applyLazy_decided hwhich hforced hv]
  case refused =>
    intro v m₁ hfirst hv
    obtain ⟨eval, h₀, -, hcall⟩ := call_lazy hwhich hid hkind hroom m₁
    rw [hcall, applyLazy_error hwhich (forced_refused (by omega) (h₀.trans hfirst) hv)]
  case passed_on =>
    intro v m₁ i m₂ hfirst hv hr hsecond
    obtain ⟨eval, h₀, h₁, hcall⟩ := call_lazy hwhich hid hkind hroom m₁
    have hforced := forced_ok hwhich (by omega) (h₀.trans hfirst) hr
    rw [hcall, applyLazy_undecided hwhich hforced hv hr, forced_error (h₁.trans hsecond)]
  case taken =>
    intro v m₁ w m₂ hfirst hv hr hsecond hw
    obtain ⟨eval, h₀, h₁, hcall⟩ := call_lazy hwhich hid hkind hroom m₁
    have hforced := forced_ok hwhich (by omega) (h₀.trans hfirst) hr
    rw [hcall, applyLazy_undecided hwhich hforced hv hr, forced_ok hwhich (by omega) (h₁.trans hsecond) hw]
  case refused_second =>
    intro v m₁ w m₂ hfirst hv hr hsecond hw
    obtain ⟨eval, h₀, h₁, hcall⟩ := call_lazy hwhich hid hkind hroom m₁
    have hforced := forced_ok hwhich (by omega) (h₀.trans hfirst) hr
    rw [hcall, applyLazy_undecided hwhich hforced hv hr, forced_refused (by omega) (h₁.trans hsecond) hw]

/-- **A mismatch** at 0 or 1, when the operands themselves come to values, is about the operand evaluated there. -/
theorem ShortCircuits.mismatchAt_iff {operand : Nat → Eval Labeled} {result : Except Interrupt Labeled × Machine}
    (h : which.ShortCircuits operand m result) (hwhich : which ∈ lazyOperators) {v : Labeled}
    (hfirst : operand 0 m.entered = (.ok v, m₁))
    (hsecond : ¬ which.DecidedBy v.value → ¬ which.Refuses v.value → ∃ w m₂, operand 1 m₁ = (.ok w, m₂)) (n : Nat) :
    (∃ i, result.1 = .error i ∧ i.MismatchAt n) ↔
      n = 0 ∧ which.Refuses v.value ∨
        n = 1 ∧ ¬ which.DecidedBy v.value ∧ ¬ which.Refuses v.value ∧
          ∃ w m₂, operand 1 m₁ = (.ok w, m₂) ∧ which.Refuses w.value := by
  -- the first operand decides
  by_cases hv : which.DecidedBy v.value
  case pos =>
    have hr := not_refuses_of_decidedBy hwhich hv
    rw [h.decided hfirst hv]
    simp [hv, hr]
  -- the first operand is refused
  by_cases hr : which.Refuses v.value
  case pos =>
    rw [h.refused hfirst hr]
    constructor
    · rintro ⟨i, hi, hmismatch⟩
      cases hi
      exact .inl ⟨eq_of_refusal_mismatchAt hmismatch, hr⟩
    · rintro (⟨rfl, -⟩ | ⟨-, -, hno, -⟩)
      · exact ⟨_, rfl, refusal_mismatchAt 0 v⟩
      · exact absurd hr hno
  -- the second operand is asked for, so it comes to a value
  obtain ⟨w, m₂, hw⟩ := hsecond hv hr
  by_cases hrw : which.Refuses w.value
  case pos =>
    rw [h.refused_second hfirst hv hr hw hrw]
    constructor
    · rintro ⟨i, hi, hmismatch⟩
      cases hi
      exact .inr ⟨eq_of_refusal_mismatchAt hmismatch, hv, hr, w, m₂, hw, hrw⟩
    · rintro (⟨-, hyes⟩ | ⟨rfl, -⟩)
      · exact absurd hyes hr
      · exact ⟨_, rfl, refusal_mismatchAt 1 w⟩
  case neg =>
    rw [h.taken hfirst hv hr hw hrw]
    constructor
    · rintro ⟨i, hi, -⟩
      cases hi
    · rintro (⟨-, hyes⟩ | ⟨-, -, -, w', m₂', hw', hyes⟩)
      · exact absurd hyes hr
      · cases hw.symm.trans hw'
        exact absurd hyes hrw

end

end Builtin

/-- **The lazy operators evaluate only what decides them.**  On any machine and with limits that let the call in:

* the call comes out as its operands do, each evaluated at most once and in order, and the second one only if the
  first neither decides nor is refused nor fails; the heap and the counts are those that the last of them leaves;
* if the operands come to values, the call fails with a mismatch at 0 or 1 exactly if the operand evaluated there
  is refused, for `&&` and `||` because it is not a boolean;
* if the first operand decides, the call is the same with any other arguments besides;
* calls that are made within a program are no different. -/
theorem lazy_operators_short_circuit {which : Builtin} (hwhich : which ∈ Builtin.lazyOperators) {m : Machine}
    {limits : Limits} {callee : Labeled} {id home : ObjectId} (hid : callee.value = .object id)
    (hkind : (m.heap.get id).kind = .builtin which home) (hroom : Limits.Le ⟨m.steps + 1, m.depth + 1⟩ limits)
    (args : CallArguments) :
    which.ShortCircuits (args.operand limits) m (m.call limits callee args) ∧
    (∀ v m₁, args.operand limits 0 m.entered = (.ok v, m₁) →
      (¬ which.DecidedBy v.value → ¬ which.Refuses v.value → ∃ w m₂, args.operand limits 1 m₁ = (.ok w, m₂)) →
      ∀ n, (∃ i, (m.call limits callee args).1 = .error i ∧ i.MismatchAt n) ↔
        n = 0 ∧ which.Refuses v.value ∨
          n = 1 ∧ ¬ which.DecidedBy v.value ∧ ¬ which.Refuses v.value ∧
            ∃ w m₂, args.operand limits 1 m₁ = (.ok w, m₂) ∧ which.Refuses w.value) ∧
    (∀ v m₁, args.operand limits 0 m.entered = (.ok v, m₁) → which.DecidedBy v.value →
      ∀ args' : CallArguments, args'.scope = args.scope → args'.positional? 0 = args.positional? 0 →
        m.call limits callee args' = m.call limits callee args) ∧
    (∀ fuel, (invoke limits fuel callee args m).1 ≠ .error .starved →
      invoke limits fuel callee args m = m.call limits callee args) := by
  have hcircuit := Builtin.call_shortCircuits hwhich hid hkind hroom
  refine ⟨hcircuit args, ?mismatch, ?skipped, fun fuel => Machine.invoke_eq_call_of_ended⟩
  case mismatch =>
    intro v m₁ hfirst hsecond
    exact (hcircuit args).mismatchAt_iff hwhich hfirst hsecond
  case skipped =>
    intro v m₁ hfirst hv args' hscope hcode
    have hfirst' : args'.operand limits 0 m.entered = (.ok v, m₁) := by
      rw [CallArguments.operand_congr hscope hcode]
      exact hfirst
    rw [(hcircuit args).decided hfirst hv, (hcircuit args').decided hfirst' hv]

/-- The theorem at a conjunction whose second operand would fail if it were evaluated. -/
theorem lazy_operators_short_circuit_false :
    let m := Machine.initial.withHeap (Machine.initial.heap.allocBuiltin .and Machine.initial.global).2
    let callee := Labeled.bare (.object Machine.initial.heap.size)
    let left : Argument Code := ⟨none, .const (.bare (.boolean false))⟩
    let right : Argument Code := ⟨none, .call none (.const .null) []⟩
    m.call ⟨1, 1⟩ callee ⟨[left, right], m.global⟩ = (.ok (.bare (.boolean false)), m.charged) ∧
      m.call ⟨1, 1⟩ callee ⟨[left, right], m.global⟩ = m.call ⟨1, 1⟩ callee ⟨[left], m.global⟩ := by
  intro m callee left right
  obtain ⟨hcircuit, -, hskipped, -⟩ := @lazy_operators_short_circuit .and List.mem_cons_self m ⟨1, 1⟩ callee
    Machine.initial.heap.size m.global rfl rfl ⟨le_rfl, le_rfl⟩ ⟨[left], m.global⟩
  have hfirst : CallArguments.operand ⟨[left], m.global⟩ ⟨1, 1⟩ 0 m.entered =
    (.ok (.bare (.boolean false)), m.entered) := rfl
  have hsame := hskipped _ _ hfirst rfl ⟨[left, right], m.global⟩ rfl rfl
  exact ⟨hsame.trans (hcircuit.decided hfirst rfl), hsame⟩

end Protean
