import Protean.Proofs.Machine.Agreement
import Protean.Proofs.Machine.Soundness

/-!
# Proofs — Machine — every run ends

Evaluation takes fuel for its depth and for the rounds of its loops.  Counting calls bounds both, if it
allows only so many of them.  A `Meter` is a way of counting that does, and then

* between two calls that are under way evaluation goes down along the nesting of code, which on a heap
  is bounded by `Heap.height`, and no code that comes onto the heap later is nested deeper;
* a call is under way only if it was counted, so the *room* of a machine, the calls that can still be
  under way at once, gets smaller with every call that is entered;
* every round of a loop makes a call, after which one call less may be made.

`Eval.Ends meter H r p` says that `p` does not run out of fuel on a machine with room for `r` calls
and with code nested at most `H` deep, and that it keeps this up: it leaves the code on the heap no
deeper nested, as many calls under way as before, and after a result no more calls to make.  What goes
on after an error is not asked for, because nothing in the evaluator goes on after one.

The lemmas climb from the rules for evaluations to whole runs:

* `Eval.Ends.guarded_cases`: a call is refused, or has room for one call less inside of it;
* `Builtin.loopWhile_ends_from`: a loop ends before the calls that may still be made;
* `evaluate_invoke_ends`: code nested `k` deep ends with `k` more fuel than a call, and a call with
  enough fuel for the room there is;
* `Meter.runAll_finishes`, `Meter.invoke_finishes`: with enough fuel a run is over, and with any greater
  fuel it is the same;
* `Machine.runAll_eq_run`, `Machine.invoke_eq_call`: the fuel that `Machine.run` and `Machine.call`
  compute is enough.
-/

namespace Protean

/-! ### The nesting of code on the heap

How deeply code is nested on a heap, and which operations keep a bound on it. -/

namespace Heap

variable {h h' : Heap} {H : Nat}

/-- No code on the heap is nested deeper than a bound if that of no object is. -/
theorem height_le_iff : h.height ≤ H ↔ ∀ id, (h.get id).kind.height ≤ H := by
  have hfold : ∀ (os : List Object) (n : Nat),
      os.foldl (fun n o => max n o.kind.height) n ≤ H ↔ n ≤ H ∧ ∀ o ∈ os, o.kind.height ≤ H := by
    intro os
    induction os with
    | nil => simp
    | cons o os ih => intro n; simp [ih, and_assoc]
  rw [height, ← Array.foldl_toList, hfold]
  constructor
  · rintro ⟨-, hall⟩ id
    by_cases hid : id < h.size
    · refine hall _ ?_
      rw [get_eq_getElem hid]
      exact Array.mem_toList_iff.mpr (Array.getElem_mem hid)
    · rw [get_of_size_le (Nat.le_of_not_lt hid)]
      exact Nat.zero_le H
  · refine fun hall => ⟨Nat.zero_le H, fun o ho => ?_⟩
    obtain ⟨id, hid, rfl⟩ := Array.mem_iff_getElem.mp (Array.mem_toList_iff.mp ho)
    exact get_eq_getElem hid ▸ hall id

/-- A new object whose code is within the bound. -/
theorem height_alloc_le {o : Object} (hh : h.height ≤ H) (ho : o.kind.height ≤ H) :
    (h.alloc o).2.height ≤ H := by
  refine height_le_iff.mpr fun id => ?_
  rw [get_alloc]
  split
  · exact ho
  · exact height_le_iff.mp hh id

/-- An operation that allocates nothing. -/
theorem height_update_le (hext : h.Extends h') (hsize : h'.size = h.size) (hh : h.height ≤ H) :
    h'.height ≤ H := by
  refine height_le_iff.mpr fun id => ?_
  by_cases hid : id < h.size
  · rw [hext.kind_eq id hid]
    exact height_le_iff.mp hh id
  · rw [get_of_size_le (hsize ▸ Nat.le_of_not_lt hid)]
    exact Nat.zero_le H

theorem height_define_le {id : ObjectId} {name : String} {v : Labeled} (hh : h.height ≤ H) :
    (h.define id name v).height ≤ H :=
  height_update_le (h.extends_writeOwn id _ v) (h.size_writeOwn id _ v) hh

end Heap

theorem Code.height_pos : ∀ c : Code, 0 < c.height
  | .const _ | .identifier .. | .literal .. | .builtin .. | .probeScope .. => by simp [height]
  | .bracket .. | .field .. | .call .. | .send .. | .bind .. | .store .. | .destructure ..
  | .function .. | .probeField .. => by simp [height]

/-- An argument is nested no deeper than all of them together. -/
theorem Code.height_le_argsHeight {a : Argument Code} :
    ∀ {args : List (Argument Code)}, a ∈ args → a.value.height ≤ Code.argsHeight args
  | ⟨name, c⟩ :: args, hmem => by
      rw [Code.argsHeight]
      rcases List.mem_cons.mp hmem with rfl | hmem
      · exact le_max_left _ _
      · exact (Code.height_le_argsHeight hmem).trans (le_max_right _ _)

/-! ### Counting calls

What is asked for of a way to count calls: a call that is let in leaves fewer calls to be let in.  Counting
without bound up to the limits of a run is such a way. -/

/-- A way of counting calls with which no run can make them forever.  `spare` tells from a count how many
calls may still be made, which are never more than `most`.  A call that `enter` lets in leaves fewer of
them, and is one more under way of at most `maxDepth`; a call that it refuses is an error. -/
structure Meter where
  enter : Eval Unit
  maxDepth : Nat
  most : Nat
  spare : Nat → Nat
  spare_le : ∀ steps, spare steps ≤ most
  enter_cases : ∀ m : Machine, ∃ steps,
    (∃ e, enter m = (.error (.error e), { m with steps := steps })) ∨
      m.depth < maxDepth ∧ spare steps < spare m.steps ∧
        enter m = (.ok (), { m with steps := steps, depth := m.depth + 1 })

/-- Counting without bound, a call is refused or uses up one of the calls that the limits allow. -/
theorem Eval.enter_cases (limits : Limits) (m : Machine) : ∃ steps,
    (∃ e, Eval.enter limits m = (.error (.error e), { m with steps := steps })) ∨
      m.depth < limits.maxDepth ∧ limits.maxSteps - steps < limits.maxSteps - m.steps ∧
        Eval.enter limits m = (.ok (), { m with steps := steps, depth := m.depth + 1 }) := by
  obtain ⟨heap, global, steps, depth⟩ := m
  refine ⟨steps + 1, ?_⟩
  rw [Eval.enter]
  by_cases hsteps : limits.maxSteps < steps + 1
  · rw [if_pos hsteps]
    exact .inl ⟨_, rfl⟩
  rw [if_neg hsteps]
  by_cases hdepth : limits.maxDepth ≤ depth
  · rw [if_pos hdepth]
    exact .inl ⟨_, rfl⟩
  rw [if_neg hdepth]
  exact .inr ⟨Nat.lt_of_not_le hdepth, by simp only; omega, rfl⟩

/-- Counting without bound, up to the limits of a run. -/
def Meter.unbounded (limits : Limits) : Meter where
  enter := Eval.enter limits
  maxDepth := limits.maxDepth
  most := limits.maxSteps
  spare steps := limits.maxSteps - steps
  spare_le _ := Nat.sub_le _ _
  enter_cases := Eval.enter_cases limits

/-- How many more calls can be under way at once. -/
def Machine.room (meter : Meter) (m : Machine) : Nat :=
  min (meter.maxDepth - m.depth) (meter.spare m.steps)

/-! ### Evaluations that end

A rule for every combinator.  The rule for calls is the only one in which the room changes. -/

/-- On every machine with code nested at most `H` deep and with room for at most `r` calls, `p` does
not run out of fuel; the code stays nested at most `H` deep, the calls under way are as many as
before, and after a result no more calls may be made than before it. -/
def Eval.Ends {α : Type} (meter : Meter) (H r : Nat) (p : Eval α) : Prop :=
  ∀ m : Machine, m.heap.height ≤ H → m.room meter ≤ r →
    (p m).1 ≠ .error .starved ∧ (p m).2.heap.height ≤ H ∧ (p m).2.depth = m.depth ∧
      ∀ a, (p m).1 = .ok a → meter.spare (p m).2.steps ≤ meter.spare m.steps

/-- On the same machines a result has cost a call. -/
def Eval.Pays {α : Type} (meter : Meter) (H r : Nat) (p : Eval α) : Prop :=
  ∀ m : Machine, m.heap.height ≤ H → m.room meter ≤ r →
    ∀ a, (p m).1 = .ok a → meter.spare (p m).2.steps < meter.spare m.steps

namespace Eval.Ends

variable {α β : Type} {meter : Meter} {H r : Nat}

/-- Room that was there does not grow while evaluation goes on. -/
theorem room_le {m m' : Machine} (hr : m.room meter ≤ r) (hdepth : m'.depth = m.depth)
    (hspare : meter.spare m'.steps ≤ meter.spare m.steps) : m'.room meter ≤ r := by
  rw [Machine.room] at hr ⊢
  omega

/-- What leaves the machine as it is. -/
theorem still {p : Eval α} (hp : ∀ m, (p m).2 = m) (hs : ∀ m, (p m).1 ≠ .error .starved) :
    Ends meter H r p := by
  intro m hm _
  exact ⟨hs m, by rwa [hp m], by rw [hp m], fun _ _ => by rw [hp m]⟩

theorem pure (a : α) : Ends meter H r (Eval.pure a) :=
  still (fun _ => rfl) fun _ => nofun

theorem interrupt {i : Interrupt} (hi : i ≠ .starved) : Ends meter H r (Eval.interrupt i : Eval α) :=
  still (fun _ => rfl) fun _ h => hi (by cases h; rfl)

theorem fail (f : Failure) : Ends meter H r (Eval.fail (α := α) f) := interrupt (by simp)

theorem misuse (what : Misuse) : Ends meter H r (Eval.misuse (α := α) what) := interrupt (by simp)

/-- To look at the heap takes no fuel. -/
theorem ask (f : Heap → α) : Ends meter H r (Eval.ask f) :=
  still (fun _ => rfl) fun _ => nofun

theorem read (f : Heap → Except HeapError α) : Ends meter H r (Eval.read f) := by
  refine still (fun m => ?_) (fun m hm => ?_) <;>
    rcases hf : f m.heap with _ | _ <;> simp [Eval.read, hf] at *

/-- If the first part ends, the second one starts with room for the same number of calls. -/
theorem bind {p : Eval α} {f : α → Eval β} (hp : Ends meter H r p)
    (hf : ∀ a, Ends meter H r (f a)) : Ends meter H r (p >>= f) := by
  intro m hm hr
  obtain ⟨hs, hh, hdepth, hspare⟩ := hp m hm hr
  show (Eval.bind p f m).1 ≠ _ ∧ (Eval.bind p f m).2.heap.height ≤ H ∧
    (Eval.bind p f m).2.depth = _ ∧
      ∀ b, (Eval.bind p f m).1 = .ok b → meter.spare (Eval.bind p f m).2.steps ≤ _
  rcases hpm : p m with ⟨i | a, m'⟩ <;> simp only [hpm, Eval.bind] at hs hh hdepth hspare ⊢
  · exact ⟨fun h => hs (by cases h; rfl), hh, hdepth, fun _ h => by cases h⟩
  · have hle := hspare a rfl
    obtain ⟨hs', hh', hdepth', hspare'⟩ := hf a m' hh (room_le hr hdepth hle)
    exact ⟨hs', hh', hdepth'.trans hdepth, fun b hb => (hspare' b hb).trans hle⟩

theorem change {f : Heap → α × Heap} (hf : ∀ h : Heap, h.height ≤ H → (f h).2.height ≤ H) :
    Ends meter H r (Eval.change f) :=
  fun m hm _ => ⟨nofun, hf m.heap hm, rfl, fun _ _ => le_rfl⟩

theorem write {f : Heap → Except HeapError Unit × Heap}
    (hf : ∀ h : Heap, h.height ≤ H → (f h).2.height ≤ H) : Ends meter H r (Eval.write f) := by
  intro m hm _
  have hh := hf m.heap hm
  rcases hfm : f m.heap with ⟨_ | _, h'⟩ <;> simp only [hfm] at hh <;> simp only [Eval.write, hfm]
  · exact ⟨by simp, hh, trivial, fun _ _ => le_rfl⟩
  · exact ⟨by simp, hh, trivial, fun _ _ => le_rfl⟩

/-- The note that an error takes needs no fuel. -/
theorem leaving {p : Eval α} (origin : Option Expr) (hp : Ends meter H r p) :
    Ends meter H r (Eval.leaving origin p) := by
  intro m hm hr
  have h := hp m hm hr
  rcases hpm : p m with ⟨(e | _ | _) | a, m'⟩ <;> simp only [Eval.leaving, hpm] at h ⊢
  · exact ⟨by simp, h.2.1, h.2.2.1, fun _ h => by cases h⟩
  all_goals exact h

/-- **A call has room for one call less**, and without room it is not entered at all. -/
theorem guarded_cases {p : Eval α} (hp : ∀ r', r = r' + 1 → Ends meter H r' p) {m : Machine}
    (hm : m.heap.height ≤ H) (hr : m.room meter ≤ r) :
    (∃ e steps, Eval.guarded meter.enter p m = (.error (.error e), { m with steps := steps })) ∨
      (Eval.guarded meter.enter p m).1 ≠ .error .starved ∧
        (Eval.guarded meter.enter p m).2.heap.height ≤ H ∧
          (Eval.guarded meter.enter p m).2.depth = m.depth ∧
            ∀ a, (Eval.guarded meter.enter p m).1 = .ok a →
              meter.spare (Eval.guarded meter.enter p m).2.steps < meter.spare m.steps := by
  obtain ⟨steps, ⟨e, henter⟩ | ⟨hdepth, hspare, henter⟩⟩ := meter.enter_cases m
  · refine .inl ⟨e, steps, ?_⟩
    rw [Eval.guarded, henter]
  refine .inr ?_
  rw [Eval.guarded, henter]
  simp only [Machine.room] at hr
  obtain ⟨r', rfl⟩ : ∃ r', r = r' + 1 := ⟨r - 1, by omega⟩
  obtain ⟨hs, hh, hd, hle⟩ := hp r' rfl { m with steps := steps, depth := m.depth + 1 } hm
    (by simp only [Machine.room]; omega)
  refine ⟨hs, hh, ?_, fun a ha => (hle a ha).trans_lt hspare⟩
  exact (congrArg (· - 1) hd).trans (Nat.add_sub_cancel _ _)

/-- A call ends if it does inside, where there is room for one call less. -/
theorem guarded {p : Eval α} (hp : ∀ r', r = r' + 1 → Ends meter H r' p) :
    Ends meter H r (Eval.guarded meter.enter p) := by
  intro m hm hr
  rcases guarded_cases hp hm hr with ⟨e, steps, he⟩ | ⟨hs, hh, hd, hlt⟩
  · rw [he]
    exact ⟨nofun, hm, rfl, nofun⟩
  · exact ⟨hs, hh, hd, fun a ha => (hlt a ha).le⟩

/-- When it comes to a result, one call less may still be made. -/
theorem guarded_pays {p : Eval α} (hp : ∀ r', r = r' + 1 → Ends meter H r' p) :
    Eval.Pays meter H r (Eval.guarded meter.enter p) := by
  intro m hm hr a ha
  rcases guarded_cases hp hm hr with ⟨e, steps, he⟩ | ⟨-, -, -, hlt⟩
  · rw [he] at ha
    cases ha
  · exact hlt a ha

end Eval.Ends

/-! ### Passing arguments

Arguments, bodies and the writes of a call, for an evaluator that ends on code nested `k` deep. -/

/-- `eval` ends on all code nested at most `k` deep. -/
def Evaluator.Ends (meter : Meter) (H r k : Nat) (eval : Evaluator) : Prop :=
  ∀ (code : Code) (scope : ObjectId), code.height ≤ k → Eval.Ends meter H r (eval code scope)

/-- `inv` ends on all arguments nested at most `k` deep. -/
def Invoker.Ends (meter : Meter) (H r k : Nat) (inv : Invoker) : Prop :=
  ∀ (callee : Labeled) (args : CallArguments), Code.argsHeight args.entries ≤ k →
    Eval.Ends meter H r (inv callee args)

/-- Every call that comes to a result has been counted. -/
def Invoker.Pays (meter : Meter) (H r k : Nat) (inv : Invoker) : Prop :=
  ∀ (callee : Labeled) (args : CallArguments), Code.argsHeight args.entries ≤ k →
    Eval.Pays meter H r (inv callee args)

section
variable {meter : Meter} {H r k : Nat} {eval : Evaluator} {inv : Invoker} {scope : ObjectId}

theorem evaluateLabeled_ends (he : eval.Ends meter H r k) {code : Code} (hc : code.height ≤ k)
    (scope : ObjectId) : Eval.Ends meter H r (evaluateLabeled eval code scope) :=
  (he code scope hc).bind fun _ => .pure _

/-- Expressions are run one after the other, none nested deeper than all of them. -/
theorem runFrom_ends (he : eval.Ends meter H r k) : ∀ {codes : List Code} (last : Labeled),
    Code.bodyHeight codes ≤ k → Eval.Ends meter H r (runFrom eval scope codes last)
  | [], last, _ => .pure last
  | c :: _, _, hc => by
      rw [Code.bodyHeight] at hc
      exact (he c scope ((le_max_left _ _).trans hc)).bind fun v =>
        runFrom_ends he v ((le_max_right _ _).trans hc)

theorem runAll_ends (he : eval.Ends meter H r k) {codes : List Code}
    (hc : Code.bodyHeight codes ≤ k) (scope : ObjectId) :
    Eval.Ends meter H r (runAll eval codes scope) :=
  runFrom_ends he .null hc

theorem materializeFrom_ends (he : eval.Ends meter H r k) :
    ∀ (i : Nat) {args : List (Argument Code)}, Code.argsHeight args ≤ k →
      Eval.Ends meter H r (materializeFrom eval scope i args)
  | _, [], _ => .pure _
  | i, ⟨some _, _⟩ :: _, ha => by
      rw [Code.argsHeight] at ha
      exact (evaluateLabeled_ends he ((le_max_left _ _).trans ha) scope).bind fun _ =>
        (materializeFrom_ends he i ((le_max_right _ _).trans ha)).bind fun _ => .pure _
  | i, ⟨none, _⟩ :: _, ha => by
      rw [Code.argsHeight] at ha
      exact (evaluateLabeled_ends he ((le_max_left _ _).trans ha) scope).bind fun _ =>
        (materializeFrom_ends he (i + 1) ((le_max_right _ _).trans ha)).bind fun _ => .pure _

theorem materialize_ends (he : eval.Ends meter H r k) {args : CallArguments}
    (ha : Code.argsHeight args.entries ≤ k) : Eval.Ends meter H r (materialize eval args) :=
  materializeFrom_ends he 0 ha

/-- A single argument, for functions that do not evaluate all of them. -/
theorem evaluatePositional_ends (he : eval.Ends meter H r k) {args : CallArguments}
    (ha : Code.argsHeight args.entries ≤ k) (i : Nat) :
    Eval.Ends meter H r (evaluatePositional eval args i) := by
  rw [evaluatePositional]
  split
  · rename_i code hc
    obtain ⟨a, hget, rfl⟩ := Option.map_eq_some_iff.mp hc
    have hmem := List.mem_of_mem_filter (List.mem_of_getElem? hget)
    exact evaluateLabeled_ends he ((Code.height_le_argsHeight hmem).trans ha) _
  · exact .pure _

theorem validateOne_ends (parameter : Parameter) (v : Labeled) :
    Eval.Ends meter H r (validateOne parameter v) := by
  refine .still (fun m => ?_) (fun m => ?_) <;> rw [validateOne] <;> split <;>
    first | rfl | nofun

theorem validate_ends (entries : Entries) : ∀ parameters : List Parameter,
    Eval.Ends meter H r (validate entries parameters)
  | [] => .pure _
  | p :: ps => (validateOne_ends p _).bind fun _ => validate_ends entries ps

/-- A write to an object brings no code. -/
theorem setOwn_ends (id : ObjectId) (key : Key) (v : Labeled) :
    Eval.Ends meter H r (Eval.write fun h => h.setOwn id key v) :=
  .write fun h hh => Heap.height_update_le (h.extends_setOwn id key v) (h.size_setOwn id key v) hh

/-- A write to a field brings no code. -/
theorem setField_ends (id : ObjectId) (key : Key) (v : Labeled) :
    Eval.Ends meter H r (Eval.write fun h => h.setField id key v) :=
  .write fun h hh =>
    Heap.height_update_le (h.extends_setField id key v) (h.size_setField id key v) hh

/-- A write to a field of a value brings no code. -/
theorem setValueField_ends (target : Value) (key : Key) (v : Labeled) (own : Bool) :
    Eval.Ends meter H r (Eval.write fun h => h.setValueField target key v own) :=
  .write fun h hh => Heap.height_update_le (h.extends_setValueField target key v own)
    (h.size_setValueField target key v own) hh

theorem allocPlain_ends (proto : Option ObjectId) :
    Eval.Ends meter H r (Eval.change fun h => h.allocPlain proto) :=
  .change fun _ hh => Heap.height_alloc_le hh (Nat.zero_le _)

/-- An object is filled with values, one after the other. -/
theorem setAll_ends (id : ObjectId) : ∀ fields : Fields,
    Eval.Ends meter H r (setAll id fields)
  | [] => .pure _
  | (key, v) :: rest => (setOwn_ends id key v).bind fun _ => setAll_ends id rest

/-- All that a call does before its body is run. -/
theorem prepareCall_ends (he : eval.Ends meter H r k) (lambda : Lambda) (captured : ObjectId)
    {args : CallArguments} (ha : Code.argsHeight args.entries ≤ k) :
    Eval.Ends meter H r (prepareCall eval lambda captured args) := by
  have hopen : Eval.Ends meter H r (openScope captured) :=
    .change fun _ hh => Heap.height_define_le (Heap.height_alloc_le hh (Nat.zero_le _))
  have hcollect : ∀ entries, Eval.Ends meter H r (collectArguments entries) := fun entries =>
    (allocPlain_ends _).bind fun id => (setAll_ends id entries).bind fun _ => .pure _
  have hbind : ∀ scope id entries, Eval.Ends meter H r (bindArguments scope id entries) :=
    fun _ _ _ => .change fun _ hh =>
      Heap.height_define_le (Heap.height_define_le (Heap.height_define_le hh))
  exact hopen.bind fun scope => (materialize_ends he ha).bind fun entries =>
    (hcollect entries).bind fun id => (hbind scope id entries).bind fun _ =>
      (validate_ends entries _).bind fun _ => .pure _

/-- The body and the arguments of a call are within the bound. -/
theorem callFunction_ends (he : eval.Ends meter H r k) {lambda : Lambda} (captured : ObjectId)
    {args : CallArguments} (hb : Code.bodyHeight lambda.body ≤ k)
    (ha : Code.argsHeight args.entries ≤ k) :
    Eval.Ends meter H r (callFunction eval lambda captured args) :=
  (prepareCall_ends he lambda captured ha).bind fun scope => runAll_ends he hb scope

/-! ### Builtin functions

All of them leave the nesting of code as it is.  A loop is the only one that may call back more often than it
has arguments, and its rounds are paid for by the calls they make. -/

namespace Builtin

theorem argsHeight_ofValues (scope : ObjectId) : ∀ values : List Labeled,
    Code.argsHeight (CallArguments.ofValues values scope).entries ≤ 1
  | [] => Nat.zero_le _
  | _ :: values => max_le le_rfl (argsHeight_ofValues scope values)

theorem callWith_ends (hi : inv.Ends meter H r 1) (callee : Labeled) (values : List Labeled) :
    Eval.Ends meter H r (callWith inv callee values) :=
  fun m => hi callee _ (argsHeight_ofValues m.global values) m

/-- A call back that comes to a result has been counted. -/
theorem callWith_pays (hp : inv.Pays meter H r 1) (callee : Labeled) (values : List Labeled) :
    Eval.Pays meter H r (callWith inv callee values) :=
  fun m => hp callee _ (argsHeight_ofValues m.global values) m

/-- To ask for a number takes no fuel. -/
theorem expectNumber_ends (v : Labeled) (who : String) :
    Eval.Ends meter H r (expectNumber v who) := by
  rw [expectNumber]
  split
  · exact .pure _
  · exact .misuse _

/-- To ask for a text takes no fuel. -/
theorem expectString_ends (v : Labeled) (who : String) :
    Eval.Ends meter H r (expectString v who) := by
  rw [expectString]
  split
  · exact .pure _
  · exact .misuse _

/-- To ask for a boolean changes nothing, not even the counts. -/
theorem expectBoolean_still (v : Labeled) (who : String) (m : Machine) :
    (expectBoolean v who m).2 = m ∧ (expectBoolean v who m).1 ≠ .error .starved := by
  rcases v with ⟨_ | _ | _ | _ | _, _⟩ <;> exact ⟨rfl, nofun⟩

/-- To ask for a boolean takes no fuel. -/
theorem expectBoolean_ends (v : Labeled) (who : String) :
    Eval.Ends meter H r (expectBoolean v who) :=
  .still (fun m => (expectBoolean_still v who m).1) fun m => (expectBoolean_still v who m).2

/-- To ask for a key takes no fuel. -/
theorem expectKey_ends (v : Labeled) (who : String) :
    Eval.Ends meter H r (expectKey v who) := by
  rw [expectKey]
  split
  · exact .pure _
  · split
    · exact .pure _
    · exact .misuse _
  · exact .misuse _

/-- The smallest and the greatest of numbers are found without calls. -/
theorem foldNumbers_ends (who : String) (pick : Float → Float → Float) :
    ∀ (best : Option Float) (entries : Entries),
      Eval.Ends meter H r (foldNumbers who pick best entries)
  | some _, [] => .pure _
  | none, [] => .misuse _
  | some _, _ :: rest | none, _ :: rest =>
      (expectNumber_ends _ _).bind fun _ => foldNumbers_ends who pick _ rest

theorem addValues_ends (left right : Value) : Eval.Ends meter H r (addValues left right) := by
  unfold addValues
  split
  · exact .pure _
  · exact .ask _
  · exact .ask _
  · exact .misuse _

theorem newList_ends (scope : ObjectId) (args : Entries) :
    Eval.Ends meter H r (newList scope args) := by
  refine (Eval.Ends.ask _).bind fun proto => ?_
  split
  · exact (allocPlain_ends _).bind fun id => (setAll_ends id _).bind fun _ =>
      (setAll_ends id _).bind fun _ => .pure _
  · exact .misuse _

/-- To add to a list brings no code. -/
theorem appendTo_ends (args : Entries) : Eval.Ends meter H r (appendTo args) := by
  rw [appendTo]
  split
  · exact (Eval.Ends.ask _).bind fun _ => (expectNumber_ends _ _).bind fun _ =>
      (setAll_ends _ _).bind fun _ => .pure _
  · exact .misuse _

/-- One call for each of the fields, of which there are only so many. -/
theorem forEachField_ends (hi : inv.Ends meter H r 1) (callback : Labeled) : ∀ fields : Fields,
    Eval.Ends meter H r (forEachField inv callback fields)
  | [] => .pure _
  | _ :: rest => (callWith_ends hi callback _).bind fun _ => forEachField_ends hi callback rest

/-- Each round of a loop costs a call, so a loop ends before the calls that may still be made. -/
theorem loopWhile_ends_from (hi : inv.Ends meter H r 1)
    (hpays : inv.Pays meter H r 1) (condition body : Labeled) :
    ∀ (rounds : Nat) (last : Labeled) (m : Machine), m.heap.height ≤ H → m.room meter ≤ r →
      meter.spare m.steps < rounds →
        (loopWhile inv condition body rounds last m).1 ≠ .error .starved ∧
          (loopWhile inv condition body rounds last m).2.heap.height ≤ H ∧
            (loopWhile inv condition body rounds last m).2.depth = m.depth ∧
              ∀ a, (loopWhile inv condition body rounds last m).1 = .ok a →
                meter.spare (loopWhile inv condition body rounds last m).2.steps ≤ meter.spare m.steps
  | rounds + 1, last, m, hm, hr, hrounds => by
      obtain ⟨hs₁, hh₁, hd₁, -⟩ := callWith_ends hi condition [] m hm hr
      have hpay₁ := callWith_pays hpays condition [] m hm hr
      rw [loopWhile]
      simp only [Bind.bind, Eval.bind]
      rcases hcond : callWith inv condition [] m with ⟨i | again, m₁⟩ <;>
        simp only [hcond] at hs₁ hh₁ hd₁ hpay₁ ⊢
      · exact ⟨fun h => hs₁ h, hh₁, hd₁, fun _ h => by cases h⟩
      have hlt := hpay₁ again rfl
      have hr₁ := Eval.Ends.room_le hr hd₁ hlt.le
      obtain ⟨hstill, hs₂⟩ := expectBoolean_still again "while condition" m₁
      rcases hbool : expectBoolean again "while condition" m₁ with ⟨i | b, m₂⟩ <;>
        simp only [hbool] at hstill hs₂ ⊢ <;> subst hstill
      · exact ⟨fun h => hs₂ (by cases h; rfl), hh₁, hd₁, fun _ h => by cases h⟩
      cases b with
      | false => exact ⟨by simp [pure, Eval.pure], hh₁, hd₁, fun _ _ => hlt.le⟩
      | true =>
        obtain ⟨hs₃, hh₃, hd₃, hle₃⟩ := callWith_ends hi body [] m₂ hh₁ hr₁
        simp only [↓reduceIte, Eval.bind]
        rcases hbody : callWith inv body [] m₂ with ⟨i | v, m₃⟩ <;>
          simp only [hbody] at hs₃ hh₃ hd₃ hle₃ ⊢
        · exact ⟨fun h => hs₃ h, hh₃, hd₃.trans hd₁, fun _ h => by cases h⟩
        -- the condition has cost a call, so a round less is enough for the rest
        have hle := hle₃ v rfl
        obtain ⟨hs₄, hh₄, hd₄, hle₄⟩ := loopWhile_ends_from hi hpays condition body rounds v m₃ hh₃
          (Eval.Ends.room_le hr₁ hd₃ hle) (by omega)
        exact ⟨hs₄, hh₄, hd₄.trans (hd₃.trans hd₁), fun a ha => (hle₄ a ha).trans (hle.trans hlt.le)⟩

/-- A loop with more rounds than calls can be made ends before its rounds do. -/
theorem loopWhile_ends (hi : inv.Ends meter H r 1)
    (hpays : inv.Pays meter H r 1) (condition body : Labeled)
    {rounds : Nat} (hrounds : meter.most < rounds) (last : Labeled) :
    Eval.Ends meter H r (loopWhile inv condition body rounds last) := fun m hm hr =>
  loopWhile_ends_from hi hpays condition body rounds last m hm hr
    ((meter.spare_le m.steps).trans_lt hrounds)

theorem chooseBranch_ends (hi : inv.Ends meter H r 1) (args : Entries) :
    Eval.Ends meter H r (chooseBranch inv args) := by
  refine (expectBoolean_ends _ _).bind fun taken => ?_
  dsimp only
  generalize (if taken then args.positional 1 else args.positional 2) = branch
  split
  · exact .pure _
  · exact callWith_ends hi branch []

theorem applyEager_ends (hi : inv.Ends meter H r 1)
    (hpays : inv.Pays meter H r 1) {rounds : Nat}
    (hrounds : meter.most < rounds) (scope : ObjectId) (args : Entries) (which : Builtin) :
    Eval.Ends meter H r (applyEager inv rounds scope args which) := by
  cases which with
  | object =>
    exact (allocPlain_ends _).bind fun id => (setAll_ends id _).bind fun _ =>
      (setAll_ends id _).bind fun _ => .pure _
  | forEach =>
    rw [applyEager]
    split
    · exact (Eval.Ends.ask _).bind fun fields => forEachField_ends hi _ fields
    · exact .pure _
  | get => exact (expectKey_ends _ _).bind fun _ => .read _
  | set =>
    exact (expectKey_ends _ _).bind fun _ => (setValueField_ends _ _ _ _).bind fun _ => .pure _
  | has => exact (expectKey_ends _ _).bind fun _ => (Eval.Ends.read _).bind fun _ => .pure _
  | not => exact (expectBoolean_ends _ _).bind fun _ => .pure _
  | floor | ceil | round | abs => exact (expectNumber_ends _ _).bind fun _ => .pure _
  | min | max => exact foldNumbers_ends _ _ _ _
  | string => exact .ask _
  | stringLength | toUpperCase | toLowerCase =>
    exact (expectString_ends _ _).bind fun _ => .pure _
  | contains =>
    exact (expectString_ends _ _).bind fun _ => (expectString_ends _ _).bind fun _ => .pure _
  | choose => exact chooseBranch_ends hi args
  | loop => exact loopWhile_ends hi hpays _ _ hrounds .null
  | raise => exact (expectString_ends _ _).bind fun _ => .fail _
  | add => exact addValues_ends _ _
  | subtract | multiply | divide | remainder | less | lessOrEqual | greater | greaterOrEqual =>
    exact (expectNumber_ends _ _).bind fun _ => (expectNumber_ends _ _).bind fun _ => .pure _
  | equal | notEqual | constTrue | constFalse | and | or | coalesce => exact .pure _
  | list => exact newList_ends scope args
  | listAdd => exact appendTo_ends args

theorem forced_ends (he : eval.Ends meter H r k) (parameters : List Parameter)
    {args : CallArguments} (ha : Code.argsHeight args.entries ≤ k) (i : Nat) :
    Eval.Ends meter H r (forced eval parameters args i) :=
  (evaluatePositional_ends he ha i).bind fun _ => (validate_ends _ _).bind fun _ => .pure _

/-- The functions that evaluate their arguments on demand. -/
theorem applyLazy_ends (he : eval.Ends meter H r k) {args : CallArguments}
    (ha : Code.argsHeight args.entries ≤ k) (which : Builtin) :
    Eval.Ends meter H r (applyLazy eval args which) := by
  unfold applyLazy
  split
  · exact .pure _
  · exact .pure _
  · refine (forced_ends he _ ha 0).bind fun left => (expectBoolean_ends _ _).bind fun b => ?_
    cases b with
    | true => exact forced_ends he _ ha 1
    | false => exact .pure _
  · refine (forced_ends he _ ha 0).bind fun left => (expectBoolean_ends _ _).bind fun b => ?_
    cases b with
    | true => exact .pure _
    | false => exact forced_ends he _ ha 1
  · refine (forced_ends he _ ha 0).bind fun left => ?_
    split
    · exact forced_ends he _ ha 1
    · exact .pure _
  · exact .pure _

theorem apply_ends (he : eval.Ends meter H r k) (hi : inv.Ends meter H r 1)
    (hpays : inv.Pays meter H r 1) {rounds : Nat}
    (hrounds : meter.most < rounds) (which : Builtin) (scope : ObjectId)
    {args : CallArguments} (ha : Code.argsHeight args.entries ≤ k) :
    Eval.Ends meter H r (which.apply eval inv rounds scope args) := by
  rw [apply]
  split
  · exact applyLazy_ends he ha which
  · exact (materialize_ends he ha).bind fun entries => (validate_ends _ _).bind fun _ =>
      applyEager_ends hi hpays hrounds scope entries which

end Builtin

/-! ### Nodes and calls

A node hands on code that is nested one less, and a call hands on code of the heap, in less room. -/

theorem bindNames_ends (scope : ObjectId) (value : Value) : ∀ (i : Nat) (names : List String),
    Eval.Ends meter H r (bindNames scope value i names)
  | _, [] => .pure _
  | i, _ :: names => (Eval.Ends.read _).bind fun _ =>
      (setField_ends _ _ _).bind fun _ => bindNames_ends scope value (i + 1) names

/-- The receiver in front of the arguments is a value. -/
theorem argsHeight_withSelf_le {args : List (Argument Code)} (hH : 0 < H)
    (ha : Code.argsHeight args ≤ H) (self : Labeled) (scope : ObjectId) :
    Code.argsHeight (CallArguments.withSelf self args scope).entries ≤ H :=
  max_le hH ha

/-- **One node** needs an evaluator of its parts only. -/
theorem step_ends (hkH : k + 1 ≤ H) (he : eval.Ends meter H r k) (hi : inv.Ends meter H r H)
    {code : Code} (hc : code.height ≤ k + 1) (scope : ObjectId) :
    Eval.Ends meter H r (step eval inv code scope) := by
  have hH : 0 < H := by omega
  -- the parts of a node are nested one less, so the evaluator that is given has enough fuel for them
  cases code with
  | const _ | literal _ _ => exact .pure _
  | identifier _ _ => exact .ask _
  | bracket _ _ => exact evaluateLabeled_ends he (Nat.le_of_succ_le_succ hc) scope
  | field _ target _ =>
    exact (he target scope (Nat.le_of_succ_le_succ hc)).bind fun _ => .read _
  | call _ target args =>
    obtain ⟨htarget, hargs⟩ := max_le_iff.mp (Nat.le_of_succ_le_succ hc)
    exact (he target scope htarget).bind fun callee =>
      hi callee _ (argsHeight_withSelf_le hH (by omega) _ scope)
  | send _ target _ args =>
    obtain ⟨htarget, hargs⟩ := max_le_iff.mp (Nat.le_of_succ_le_succ hc)
    exact (he target scope htarget).bind fun receiver => (Eval.Ends.read _).bind fun callee =>
      hi callee _ (argsHeight_withSelf_le hH (by omega) _ scope)
  | bind _ _ _ =>
    exact (evaluateLabeled_ends he (Nat.le_of_succ_le_succ hc) scope).bind fun v =>
      (setField_ends scope _ v).bind fun _ => .pure v
  | store _ target _ _ =>
    obtain ⟨htarget, hvalue⟩ := max_le_iff.mp (Nat.le_of_succ_le_succ hc)
    exact (evaluateLabeled_ends he hvalue scope).bind fun v =>
      (he target scope htarget).bind fun t =>
        (setValueField_ends t.value _ v true).bind fun _ => .pure v
  | destructure _ names _ =>
    exact (evaluateLabeled_ends he (Nat.le_of_succ_le_succ hc) scope).bind fun v =>
      (bindNames_ends scope v.value 0 names).bind fun _ => .pure v
  -- the body is nested within the bound, so the heap stays within it
  | function _ decorators parameters body =>
    have hbody : Code.bodyHeight body ≤ H := by
      have := Nat.le_of_succ_le_succ hc
      omega
    exact (Eval.Ends.change fun h hh => Heap.height_alloc_le hh hbody).bind fun id => .pure _
  | builtin _ which =>
    exact (Eval.Ends.change fun h hh => Heap.height_alloc_le hh (Nat.zero_le H)).bind
      fun id => .pure _
  | probeScope _ _ => exact .interrupt (by simp)
  | probeField _ target _ =>
    exact (he target scope (Nat.le_of_succ_le_succ hc)).bind fun _ => .interrupt (by simp)

/-- **One call** has its arguments and its body evaluated with room for one call less. -/
theorem dispatch_cases {rounds : Nat} (hrounds : meter.most < rounds)
    (hinner : ∀ r', r = r' + 1 →
      eval.Ends meter H r' H ∧ inv.Ends meter H r' 1 ∧ inv.Pays meter H r' 1)
    (callee : Labeled) {args : CallArguments} (ha : Code.argsHeight args.entries ≤ H)
    {m : Machine} (hm : m.heap.height ≤ H) :
    dispatch meter.enter eval inv rounds callee args m = Eval.fail .notCallable m ∨
      ∃ p : Eval Labeled, (∀ r', r = r' + 1 → Eval.Ends meter H r' p) ∧
        dispatch meter.enter eval inv rounds callee args m = Eval.guarded meter.enter p m := by
  rcases callee with ⟨_ | _ | _ | _ | id, _⟩
  case object =>
    have hkind := Heap.height_le_iff.mp hm id
    rcases hk : (m.heap.get id).kind with _ | ⟨lambda, scope⟩ | ⟨which, scope⟩
    case plain =>
      refine .inl ?_
      simp only [dispatch, Bind.bind, Eval.bind, Eval.ask, hk]
    case function =>
      rw [hk] at hkind
      refine .inr ⟨callFunction eval lambda scope args, fun r' hr' => ?_, ?_⟩
      · exact callFunction_ends (hinner r' hr').1 scope hkind ha
      · simp only [dispatch, Bind.bind, Eval.bind, Eval.ask, hk]
    case builtin =>
      refine .inr ⟨which.apply eval inv rounds scope args, fun r' hr' => ?_, ?_⟩
      · obtain ⟨he, hi, hp⟩ := hinner r' hr'
        exact Builtin.apply_ends he hi hp hrounds which scope ha
      · simp only [dispatch, Bind.bind, Eval.bind, Eval.ask, hk]
  all_goals exact .inl rfl

end

/-! ### Evaluation

The fuel that a call takes: for each call that can still be under way, as much as the nesting of the code on
the heap, and for the rounds of a loop as much as calls can still be made. -/

/-- A fuel with which a call ends, where code is nested at most `H` deep and there is room for `r`
calls. -/
def callFuel (meter : Meter) (H r : Nat) : Nat := r * (H + 2) + meter.most + 2

/-- Evaluation and calls end with the fuel that the room and the nesting ask for, by induction on the fuel. -/
theorem evaluate_invoke_ends (meter : Meter) {H : Nat} (hH : 0 < H) : ∀ fuel r : Nat,
    (∀ k, k ≤ H → k + callFuel meter H r ≤ fuel →
      (evaluateBy meter.enter fuel).Ends meter H r k) ∧
    (callFuel meter H r ≤ fuel →
      (invokeBy meter.enter fuel).Ends meter H r H ∧ (invokeBy meter.enter fuel).Pays meter H r H)
  | 0, r => by
      refine ⟨fun k _ hfuel => ?_, fun hfuel => ?_⟩ <;> rw [callFuel] at hfuel <;> omega
  | fuel + 1, r => by
      constructor
      · intro k hk hfuel code scope hc
        -- parts of the code are lower by one and are evaluated with one fuel less
        have hpos := code.height_pos
        obtain ⟨k, rfl⟩ : ∃ k', k = k' + 1 := ⟨k - 1, by omega⟩
        obtain ⟨he, hi⟩ := evaluate_invoke_ends meter hH fuel r
        exact .leaving _ (step_ends hk (he k (by omega) (by omega)) (hi (by omega)).1 hc scope)
      · intro hfuel
        -- a call takes up one of the `r` calls, which frees the fuel for code of any height again
        have hrounds : meter.most < fuel := by rw [callFuel] at hfuel; omega
        have hinner : ∀ r', r = r' + 1 → (evaluateBy meter.enter fuel).Ends meter H r' H ∧
            (invokeBy meter.enter fuel).Ends meter H r' 1 ∧
              (invokeBy meter.enter fuel).Pays meter H r' 1 := by
          rintro r' rfl
          have hless : H + callFuel meter H r' ≤ fuel := by
            rw [callFuel, Nat.succ_mul] at hfuel
            rw [callFuel]
            omega
          obtain ⟨he, hi⟩ := evaluate_invoke_ends meter hH fuel r'
          obtain ⟨hends, hpays⟩ := hi (by omega)
          exact ⟨he H le_rfl hless, fun callee args ha => hends callee args (ha.trans hH),
            fun callee args ha => hpays callee args (ha.trans hH)⟩
        refine ⟨fun callee args ha m hm hr => ?_, fun callee args ha m hm hr => ?_⟩ <;>
          rw [invokeBy] <;>
          rcases dispatch_cases hrounds hinner callee ha hm with heq | ⟨p, hp, heq⟩ <;> rw [heq]
        · exact Eval.Ends.fail _ m hm hr
        · exact Eval.Ends.guarded hp m hm hr
        · exact nofun
        · exact Eval.Ends.guarded_pays hp m hm hr

/-! ### Enough fuel

The fuel that a run computes for itself is enough, and more fuel makes no difference. -/

namespace Meter

variable (meter : Meter)

/-- A meter changes the counts and nothing else. -/
theorem onlyCounts : meter.enter.OnlyCounts := by
  intro m
  obtain ⟨steps, ⟨e, henter⟩ | ⟨-, -, henter⟩⟩ := meter.enter_cases m <;> rw [henter] <;>
    exact ⟨rfl, rfl⟩

/-- A fuel with which code of the given height runs to its end on `m`, and so does any greater one. -/
def fuelFor (m : Machine) (height : Nat) : Nat :=
  let H := max 1 (max height m.heap.height)
  H + callFuel meter H (m.room meter)

variable {meter} {m : Machine} {fuel : Nat}

/-- Evaluation of code does not run out of the fuel that is computed for it. -/
theorem evaluate_ne_starved {code : Code} (hfuel : meter.fuelFor m code.height ≤ fuel)
    (scope : ObjectId) : (evaluateBy meter.enter fuel code scope m).1 ≠ .error .starved := by
  have he := (evaluate_invoke_ends meter (le_max_left 1 _) fuel (m.room meter)).1 _ le_rfl hfuel
  exact (he code scope (by omega) m (by omega) le_rfl).1

theorem runAll_ne_starved {codes : List Code} (hfuel : meter.fuelFor m (Code.bodyHeight codes) ≤ fuel)
    (scope : ObjectId) : (runAll (evaluateBy meter.enter fuel) codes scope m).1 ≠ .error .starved := by
  have he := (evaluate_invoke_ends meter (le_max_left 1 _) fuel (m.room meter)).1 _ le_rfl hfuel
  have hcodes : Code.bodyHeight codes ≤ max 1 (max (Code.bodyHeight codes) m.heap.height) := by
    omega
  exact (runAll_ends he hcodes scope m (by omega) le_rfl).1

theorem invoke_ne_starved {args : CallArguments}
    (hfuel : meter.fuelFor m (Code.argsHeight args.entries) ≤ fuel) (callee : Labeled) :
    (invokeBy meter.enter fuel callee args m).1 ≠ .error .starved := by
  have hi := (evaluate_invoke_ends meter (le_max_left 1 _) fuel (m.room meter)).2
    ((Nat.le_add_left _ _).trans hfuel)
  exact (hi.1 callee args (by omega) m (by omega) le_rfl).1

/-- The fuel that a run computes is enough where calls are counted without bound. -/
theorem unbounded_fuelFor_le (m : Machine) (limits : Limits) (height : Nat) :
    (unbounded limits).fuelFor m height ≤ m.fuelFor limits height := by
  simp only [fuelFor, Machine.fuelFor, callFuel]
  generalize max height m.heap.height = H
  have hroom : m.room (unbounded limits) ≤ min limits.maxDepth (limits.maxSteps + 1) := by
    simp only [Machine.room, unbounded]
    omega
  generalize min limits.maxDepth (limits.maxSteps + 1) = calls at hroom ⊢
  have hmul : m.room (unbounded limits) * (max 1 H + 2) ≤ calls * (H + 4) :=
    Nat.mul_le_mul hroom (by omega)
  have hmost : (unbounded limits).most = limits.maxSteps := rfl
  rw [Nat.add_mul]
  omega

end Meter

namespace Machine

variable {m : Machine} {limits : Limits}

/-- Running code with enough fuel. -/
theorem runAll_ends_of_le (m : Machine) (limits : Limits) (codes : List Code) {fuel : Nat}
    (hfuel : m.fuelFor limits (Code.bodyHeight codes) ≤ fuel) (scope : ObjectId) :
    (runAll (evaluate limits fuel) codes scope m).1 ≠ .error .starved :=
  Meter.runAll_ne_starved ((Meter.unbounded_fuelFor_le m limits _).trans hfuel) scope

/-- Calling a value with enough fuel. -/
theorem invoke_ends_of_le (m : Machine) (limits : Limits) (callee : Labeled) (args : CallArguments)
    {fuel : Nat} (hfuel : m.fuelFor limits (Code.argsHeight args.entries) ≤ fuel) :
    (invoke limits fuel callee args m).1 ≠ .error .starved :=
  Meter.invoke_ne_starved ((Meter.unbounded_fuelFor_le m limits _).trans hfuel) callee

/-- **A run does not depend on its fuel**, if it is at least what the run computes. -/
theorem runAll_eq_run (m : Machine) (limits : Limits) (codes : List Code) {fuel : Nat}
    (hfuel : m.fuelFor limits (Code.bodyHeight codes) ≤ fuel) :
    runAll (evaluate limits fuel) codes m.global m = m.run limits codes := by
  refine runAll_agrees (evaluate_fuel_le limits hfuel) codes m.global m fun i hi hs => ?_
  exact runAll_ends_of_le m limits codes le_rfl m.global (hs ▸ hi)

/-- Nor does a call. -/
theorem invoke_eq_call (m : Machine) (limits : Limits) (callee : Labeled) (args : CallArguments)
    {fuel : Nat} (hfuel : m.fuelFor limits (Code.argsHeight args.entries) ≤ fuel) :
    invoke limits fuel callee args m = m.call limits callee args := by
  refine invoke_fuel_le limits hfuel callee args m fun i hi hs => ?_
  exact invoke_ends_of_le m limits callee args le_rfl (hs ▸ hi)

end Machine

/-! ### The whole run

No run of an interpreter is out of fuel when it is over, from its start on. -/

/-- A run is over when it has ended with a value, with an error or at a probe. -/
def Over {α : Type} (outcome : Except Interrupt α) : Prop :=
  (∃ a, outcome = .ok a) ∨ (∃ e, outcome = .error (.error e)) ∨
    ∃ signal, outcome = .error (.completion signal)

/-- A run that has not run out of fuel is over. -/
theorem over_of_ne_starved {α : Type} {outcome : Except Interrupt α}
    (h : outcome ≠ .error .starved) : Over outcome := by
  rcases outcome with (e | signal | _) | a
  · exact .inr (.inl ⟨e, rfl⟩)
  · exact .inr (.inr ⟨signal, rfl⟩)
  · exact absurd rfl h
  · exact .inl ⟨a, rfl⟩

/-- The loading of modules is over with some outcome. -/
theorem Interpreter.load_over (limits : Limits) : ∀ (loaded : List LoadedModule) (m : Machine),
    Over (load limits loaded m).1
  | [], m => .inl ⟨(), rfl⟩
  | l :: rest, m => by
      have hrun := m.runAll_ends_of_le limits l.code le_rfl m.global
      rw [load]
      split
      · exact load_over limits rest _
      · rename_i i m' heq
        refine over_of_ne_starved fun hs => hrun ?_
        exact (congrArg Prod.fst heq).trans (by cases hs; rfl)

theorem Interpreter.bootstrap_over (i : Interpreter) (limits : Limits) :
    Over (i.bootstrap limits).1 := by
  have hload := load_over limits i.modules .initial
  rw [bootstrap]
  split
  · exact .inl ⟨(), rfl⟩
  · rename_i heq
    rwa [heq] at hload

theorem Interpreter.run_over (i : Interpreter) (limits : Limits) (codes : List Code) :
    Over (i.run limits codes).1 := by
  have hstart := i.bootstrap_over limits
  rw [run]
  split
  · rename_i m _
    exact over_of_ne_starved (m.runAll_ends_of_le limits codes le_rfl m.global)
  · rename_i heq
    rw [heq] at hstart
    obtain ⟨_, hok⟩ | ⟨e, he⟩ | ⟨signal, hs⟩ := hstart
    · cases hok
    · cases he
      exact .inr (.inl ⟨e, rfl⟩)
    · cases hs
      exact .inr (.inr ⟨signal, rfl⟩)

/-- The evaluation `p`, which takes fuel, *finishes* on `m`: there is a fuel with which it is over, and
with any greater fuel the outcome and the machine, its calls counted, are the same.  Nor is a search along
prototypes cut short by the bound of a chain: on every machine that it leaves behind, with whatever fuel,
the chains are whole. -/
structure Machine.Finishes (m : Machine) (p : Nat → Eval Labeled) : Prop where
  ends : ∃ (fuel : Nat) (outcome : Except Interrupt Labeled) (m' : Machine), Over outcome ∧
    ∀ fuel', fuel ≤ fuel' → p fuel' m = (outcome, m')
  chains : ∀ fuel id, id < (p fuel m).2.heap.size →
    Heap.Walk (p fuel m).2.heap id (Heap.chain (p fuel m).2.heap id)

/-- What is not out of fuel and agrees with itself at any greater fuel is over. -/
theorem over_of_agrees {p : Nat → Eval Labeled} {m : Machine} {fuel : Nat}
    (hends : (p fuel m).1 ≠ .error .starved)
    (hmore : ∀ fuel', fuel ≤ fuel' → Eval.Agrees (· = .starved) (p fuel) (p fuel')) :
    ∃ (fuel : Nat) (outcome : Except Interrupt Labeled) (m' : Machine), Over outcome ∧
      ∀ fuel', fuel ≤ fuel' → p fuel' m = (outcome, m') :=
  ⟨fuel, (p fuel m).1, (p fuel m).2, over_of_ne_starved hends,
    fun fuel' hle => hmore fuel' hle m fun _ hi hs => hends (hs ▸ hi)⟩

namespace Meter

variable (meter : Meter) {m : Machine}

/-- **Running expressions finishes**, with probes or without, where a meter counts the calls. -/
theorem runAll_finishes (hm : m.Sound) (l : Lowering) (exprs : List Expr) :
    m.Finishes fun fuel => runAll (evaluateBy meter.enter fuel) (Expr.lowerAll l exprs) m.global := by
  refine ⟨over_of_agrees (runAll_ne_starved le_rfl m.global) fun fuel' hle => ?_, fun fuel id hid => ?_⟩
  · exact runAll_agrees (evaluate_invoke_agrees Interrupt.lasting_starved (.refl _) hle).1 _ m.global
  · have hsafe := runAll_safe (evaluate_invoke_safe meter.onlyCounts fuel).1
      (Expr.lowerAll_below l m.heap.size exprs) hm.global_lt m hm le_rfl
    exact hsafe.1.wellFormed.walk_chain hid

/-- **Calling a value finishes** where a meter counts the calls. -/
theorem invoke_finishes (hm : m.Sound) {callee : Labeled} {args : CallArguments}
    (hc : callee.Below m.heap.size) (ha : args.Below m.heap.size) :
    m.Finishes fun fuel => invokeBy meter.enter fuel callee args := by
  refine ⟨over_of_agrees (invoke_ne_starved le_rfl callee) fun fuel' hle => ?_, fun fuel id hid => ?_⟩
  · exact (evaluate_invoke_agrees Interrupt.lasting_starved (.refl _) hle).2 callee args
  · have hsafe := (evaluate_invoke_safe meter.onlyCounts fuel).2 hc ha m hm le_rfl
    exact hsafe.1.wellFormed.walk_chain hid

end Meter

end Protean
