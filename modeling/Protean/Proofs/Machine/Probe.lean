import Protean.Proofs.Code.Probe
import Protean.Proofs.Heap.Recode
import Protean.Proofs.Machine.Soundness
import Protean.Proofs.Machine.Termination

/-!
# Proofs — Machine — a probe only watches

A run with a probe does what the run without it does, until it reaches the probe.  `Eval.Probed P p q` says
so of two evaluations: on a machine whose functions carry probes, `q` either stops at a probe of the program
or follows `p`, with the same answer, the same counts and the same heap but for the probes.  It goes through
every construct; the code on the right is the code on the left with probes in it.

One node has no counterpart: an assignment to a field evaluates its value first, and the probe in its place
evaluates the target alone.  `Probing.stores` keeps such probes out of the comparison.

* `Probing`: a probe at an offset, with what is known of the program that it is put into.
* `Probing.Follows`: how the run with the probe ends, compared with the run without it.
* `Eval.Probed`: the relation of two evaluations, with a rule for every combinator.
* `evaluateLabeled_probed` … `dispatch_probed`: the functions of the evaluator, one lemma for each.
* `part_probed`, `labeled_probed`, `call_probed`: parts of an expression, in whose place a probe may stand.
* `evaluate_invoke_probed`: the induction on the fuel.
-/

namespace Protean

/-! ### Heaps and machines

A machine whose functions carry probes, and how a run on it ends, compared with the run without. -/

/-- Every function on the heap is one of the program or of a library. -/
def Heap.Prepared (P : Probing) (h : Heap) : Prop := h.Functions (Lambda.Prepared P)

/-- The machine with probes in the code of all functions. -/
def Machine.probed (offset : Nat) (m : Machine) : Machine :=
  { m with heap := m.heap.recode (Lambda.probed offset) }

namespace Probing

variable {α : Type}

/-- The run has been stopped at a name of the program that the probe is for. -/
def Stopped (P : Probing) (r : Except Interrupt α × Machine) : Prop :=
  ∃ signal, r.1 = .error (.completion signal) ∧ P.Found signal.node

/-- The run on the right has ended as the run on the left has, and neither of them at a probe. -/
structure Follows (P : Probing) (r r' : Except Interrupt α × Machine) : Prop where
  eq : r' = (r.1, r.2.probed P.offset)
  unstopped : ∀ signal, r.1 ≠ .error (.completion signal)
  prepared : r.2.heap.Prepared P

namespace Follows

variable {P : Probing} {m : Machine}

theorem ok (a : α) (hm : m.heap.Prepared P) : P.Follows (.ok a, m) (.ok a, m.probed P.offset) :=
  ⟨rfl, fun _ h => (by cases h), hm⟩

theorem error (e : RuntimeError) (hm : m.heap.Prepared P) :
    P.Follows ((.error (.error e), m) : Except Interrupt α × Machine)
      (.error (.error e), m.probed P.offset) :=
  ⟨rfl, fun _ h => (by cases h), hm⟩

theorem starved (hm : m.heap.Prepared P) :
    P.Follows ((.error .starved, m) : Except Interrupt α × Machine)
      (.error .starved, m.probed P.offset) :=
  ⟨rfl, fun _ h => (by cases h), hm⟩

end Follows

end Probing

/-! ### Evaluations with a probe

A rule for every combinator.  In a sequence the second part is only compared if the first one has not stopped
at the probe. -/

/-- On a machine whose functions carry probes, `q` stops at a probe of the program or follows `p`. -/
def Eval.Probed (P : Probing) {α : Type} (p q : Eval α) : Prop :=
  ∀ m : Machine, m.heap.Prepared P →
    P.Stopped (q (m.probed P.offset)) ∨ P.Follows (p m) (q (m.probed P.offset))

namespace Eval.Probed

variable {P : Probing} {α β : Type}

theorem pure (a : α) : Probed P (Eval.pure a) (Eval.pure a) :=
  fun _ hm => .inr (.ok a hm)

/-- The want of fuel is the same on both sides. -/
theorem starve : Probed P (Eval.starve : Eval α) Eval.starve :=
  fun _ hm => .inr (.starved hm)

/-- A new error is the same on both sides. -/
theorem fail (failure : Failure) : Probed P (Eval.fail failure : Eval α) (Eval.fail failure) :=
  fun _ hm => .inr (.error _ hm)

/-- A misuse is the same on both sides. -/
theorem misuse (what : Misuse) : Probed P (Eval.misuse what : Eval α) (Eval.misuse what) :=
  fail _

/-- A probe stops whatever stands on the left. -/
theorem probe (p : Eval α) (receiver : Labeled) (scope : ObjectId) {node : Expr}
    (hfound : P.Found node) : Probed P p (Eval.interrupt (.completion ⟨receiver, scope, node⟩)) :=
  fun _ _ => .inl ⟨⟨receiver, scope, node⟩, rfl, hfound⟩

/-- If the probe is not reached in the first part, the second one starts with the same value.  If it is, the
second part does not start at all. -/
theorem bind {p q : Eval α} {k k' : α → Eval β} (hp : Probed P p q)
    (hk : ∀ a, Probed P (k a) (k' a)) : Probed P (p >>= k) (q >>= k') := by
  intro m hm
  change P.Stopped (Eval.bind q k' _) ∨ P.Follows (Eval.bind p k m) (Eval.bind q k' _)
  obtain ⟨signal, hq, hfound⟩ | ⟨hq, hunstopped, hm'⟩ := hp m hm
  · rcases hqm : q (m.probed P.offset) with ⟨i | a, m'⟩ <;> rw [hqm] at hq
    · cases hq
      exact .inl ⟨signal, by rw [Eval.bind, hqm], hfound⟩
    · cases hq
  · rcases hpm : p m with ⟨i | a, m'⟩ <;> rw [hpm] at hq hunstopped hm' <;>
      simp only [Eval.bind, hpm, hq]
    · exact .inr ⟨rfl, fun signal hi => hunstopped signal (by cases hi; rfl), hm'⟩
    · exact hk a m' hm'

/-- A question whose answer does not depend on the code of functions. -/
theorem ask {g : Heap → α} (hg : ∀ (f : Lambda → Lambda) (h : Heap), g (h.recode f) = g h) :
    Probed P (Eval.ask g) (Eval.ask g) := by
  intro m hm
  have hgm : g (m.probed P.offset).heap = g m.heap := hg _ m.heap
  simp only [Eval.ask, hgm]
  exact .inr (.ok _ hm)

theorem read {g : Heap → Except HeapError α}
    (hg : ∀ (f : Lambda → Lambda) (h : Heap), g (h.recode f) = g h) :
    Probed P (Eval.read g) (Eval.read g) := by
  intro m hm
  have hgm : g (m.probed P.offset).heap = g m.heap := hg _ m.heap
  refine .inr ?_
  rcases hread : g m.heap with e | a <;> simp only [Eval.read, hgm, hread]
  · exact .error _ hm
  · exact .ok a hm

/-- A change that brings at most code with probes in it. -/
theorem change {g g' : Heap → α × Heap}
    (hg : ∀ h : Heap, g' (h.recode (Lambda.probed P.offset)) =
      ((g h).1, (g h).2.recode (Lambda.probed P.offset)))
    (hh : ∀ h : Heap, h.Prepared P → (g h).2.Prepared P) :
    Probed P (Eval.change g) (Eval.change g') := by
  rintro ⟨heap, global, steps, depth⟩ hm
  simp only [Eval.change, Machine.probed, hg heap]
  exact .inr (.ok _ (hh heap hm))

/-- A write that does not look at code. -/
theorem write {g : Heap → Except HeapError Unit × Heap}
    (hg : ∀ (f : Lambda → Lambda) (h : Heap), g (h.recode f) = ((g h).1, (g h).2.recode f))
    (hh : ∀ h : Heap, h.Extends (g h).2 ∧ (g h).2.size = h.size) :
    Probed P (Eval.write g) (Eval.write g) := by
  rintro ⟨heap, global, steps, depth⟩ hm
  have hgm := hg (Lambda.probed P.offset) heap
  have hprepared := Heap.Functions.update hm (hh heap).1 (hh heap).2
  refine .inr ?_
  rcases hwrite : g heap with ⟨e | a, heap'⟩ <;> rw [hwrite] at hgm hprepared <;>
    simp only [Eval.write, Machine.probed, hgm, hwrite]
  · exact .error _ hprepared
  · exact .ok a hprepared

/-- Errors take note of the same expression, for a probe keeps the origin of what it stands in for. -/
theorem leaving {p q : Eval α} (origin : Option Expr) (hp : Probed P p q) :
    Probed P (Eval.leaving origin p) (Eval.leaving origin q) := by
  intro m hm
  obtain ⟨signal, hq, hfound⟩ | ⟨hq, hunstopped, hm'⟩ := hp m hm
  · rcases hqm : q (m.probed P.offset) with ⟨r, m'⟩
    rw [hqm] at hq
    cases hq
    exact .inl ⟨signal, by rw [Eval.leaving, hqm], hfound⟩
  · refine .inr ?_
    rcases hpm : p m with ⟨(e | signal | _) | a, m'⟩ <;> rw [hpm] at hq hunstopped hm' <;>
      simp only [Eval.leaving, hpm, hq]
    · exact .error _ hm'
    · exact absurd rfl (hunstopped signal)
    · exact .starved hm'
    · exact .ok a hm'

/-- The counts are the same, so the same calls are let in. -/
theorem enter (limits : Limits) {m : Machine} (hm : m.heap.Prepared P) :
    P.Follows (Eval.enter limits m) (Eval.enter limits (m.probed P.offset)) := by
  rcases m with ⟨heap, global, steps, depth⟩
  simp only [Eval.enter, Machine.probed]
  by_cases hsteps : limits.maxSteps < steps + 1
  · simp only [hsteps, if_true]
    exact .error _ hm
  · by_cases hdepth : limits.maxDepth ≤ depth <;> simp only [hsteps, hdepth, if_true, if_false]
    · exact .error _ hm
    · exact .ok () hm

/-- A call is probed if it is inside. -/
theorem guarded {p q : Eval α} (limits : Limits) (hp : Probed P p q) :
    Probed P (Eval.guarded (Eval.enter limits) p) (Eval.guarded (Eval.enter limits) q) := by
  intro m hm
  obtain ⟨henter, hunstopped, hm'⟩ := enter limits hm
  rcases hem : Eval.enter limits m with ⟨i | _, m'⟩ <;> rw [hem] at henter hunstopped hm' <;>
    simp only [Eval.guarded, hem, henter]
  · exact .inr ⟨rfl, fun signal hi => hunstopped signal (by cases hi; rfl), hm'⟩
  · obtain ⟨signal, hq, hfound⟩ | ⟨hq, hunstopped', hm''⟩ := hp m' hm'
    · exact .inl ⟨signal, hq, hfound⟩
    · exact .inr ⟨by rw [hq]; rfl, hunstopped', hm''⟩

end Eval.Probed

/-! ### Arguments

Arguments are code, so they may hold the probe. -/

namespace CallArguments

/-- The arguments with probes in their code. -/
def probed (offset : Nat) (args : CallArguments) : CallArguments :=
  ⟨args.entries.map (Argument.probed offset), args.scope⟩

/-- All arguments are prepared code. -/
def Prepared (P : Probing) (args : CallArguments) : Prop := ∀ a ∈ args.entries, a.value.Prepared P

/-- Which argument is the n-th positional one does not depend on probes. -/
theorem positional?_probed (offset : Nat) (args : CallArguments) (n : Nat) :
    (args.probed offset).positional? n = (args.positional? n).map (Code.probed offset) := by
  simp only [positional?, probed, List.filter_map, List.getElem?_map, Option.map_map]
  rfl

/-- The receiver is a value and has no place for a probe. -/
theorem probed_withSelf (offset : Nat) (self : Labeled) (args : List (Argument Code))
    (scope : ObjectId) : (withSelf self args scope).probed offset =
      withSelf self (args.map (Argument.probed offset)) scope := rfl

theorem prepared_withSelf {P : Probing} {args : List (Argument Code)}
    (ha : ∀ a ∈ args, a.value.Prepared P) (self : Labeled) (scope : ObjectId) :
    (withSelf self args scope).Prepared P :=
  List.forall_mem_cons.mpr ⟨.const self, ha⟩

/-- Arguments that are values already have no place for a probe. -/
theorem probed_ofValues (offset : Nat) (values : List Labeled) (scope : ObjectId) :
    (ofValues values scope).probed offset = ofValues values scope := by
  simp only [ofValues, probed, List.map_map]
  rfl

theorem prepared_ofValues (P : Probing) (values : List Labeled) (scope : ObjectId) :
    (ofValues values scope).Prepared P :=
  List.forall_mem_map.mpr fun v _ => .const v

end CallArguments

/-- What `eval` does with code with a probe it does with the code, up to the probe. -/
def Evaluator.Probed (P : Probing) (eval : Evaluator) : Prop :=
  ∀ (code : Code) (scope : ObjectId), code.Prepared P →
    Eval.Probed P (eval code scope) (eval (code.probed P.offset) scope)

/-- Calls with arguments that are prepared for the probe. -/
def Invoker.Probed (P : Probing) (inv : Invoker) : Prop :=
  ∀ (callee : Labeled) (args : CallArguments), args.Prepared P →
    Eval.Probed P (inv callee args) (inv callee (args.probed P.offset))

section
variable {P : Probing} {eval : Evaluator} {inv : Invoker} {scope : ObjectId}

theorem evaluateLabeled_probed (he : eval.Probed P) {code : Code} (hc : code.Prepared P)
    (scope : ObjectId) : Eval.Probed P (evaluateLabeled eval code scope)
      (evaluateLabeled eval (code.probed P.offset) scope) := by
  refine (he code scope hc).bind fun v => ?_
  rw [Code.origin_probed]
  exact .pure _

theorem runFrom_probed (he : eval.Probed P) : ∀ {codes : List Code} (last : Labeled),
    (∀ c ∈ codes, c.Prepared P) → Eval.Probed P (runFrom eval scope codes last)
      (runFrom eval scope (codes.map (Code.probed P.offset)) last)
  | [], last, _ => .pure last
  | c :: _, _, hc =>
      (he c scope (hc c List.mem_cons_self)).bind fun v =>
        runFrom_probed he v fun c' hc' => hc c' (List.mem_cons_of_mem _ hc')

theorem runAll_probed (he : eval.Probed P) {codes : List Code} (hc : ∀ c ∈ codes, c.Prepared P)
    (scope : ObjectId) : Eval.Probed P (runAll eval codes scope)
      (runAll eval (codes.map (Code.probed P.offset)) scope) :=
  runFrom_probed he .null hc

theorem materializeFrom_probed (he : eval.Probed P) :
    ∀ (n : Nat) {args : List (Argument Code)}, (∀ a ∈ args, a.value.Prepared P) →
      Eval.Probed P (materializeFrom eval scope n args)
        (materializeFrom eval scope n (args.map (Argument.probed P.offset)))
  | _, [], _ => .pure _
  | n, ⟨some name, code⟩ :: args, ha => by
      obtain ⟨hc, ha⟩ := List.forall_mem_cons.mp ha
      exact (evaluateLabeled_probed he hc scope).bind fun v =>
        (materializeFrom_probed he n ha).bind fun rest => .pure ((.name name, v) :: rest)
  | n, ⟨none, code⟩ :: args, ha => by
      obtain ⟨hc, ha⟩ := List.forall_mem_cons.mp ha
      exact (evaluateLabeled_probed he hc scope).bind fun v =>
        (materializeFrom_probed he (n + 1) ha).bind fun rest => .pure ((.index n, v) :: rest)

theorem materialize_probed (he : eval.Probed P) {args : CallArguments} (ha : args.Prepared P) :
    Eval.Probed P (materialize eval args) (materialize eval (args.probed P.offset)) :=
  materializeFrom_probed he 0 ha

/-- A single argument, for functions that do not evaluate all of them. -/
theorem evaluatePositional_probed (he : eval.Probed P) {args : CallArguments} (ha : args.Prepared P)
    (n : Nat) : Eval.Probed P (evaluatePositional eval args n)
      (evaluatePositional eval (args.probed P.offset) n) := by
  rw [evaluatePositional, evaluatePositional, CallArguments.positional?_probed]
  cases hcode : args.positional? n with
  | none => exact .pure Labeled.null
  | some code =>
    obtain ⟨a, hget, rfl⟩ := Option.map_eq_some_iff.mp hcode
    have hmem := List.mem_of_mem_filter (List.mem_of_getElem? hget)
    exact evaluateLabeled_probed he (ha a hmem) args.scope

/-- Descriptors ask whether a value can be called, but not for its code. -/
theorem validateOne_probed (parameter : Parameter) (v : Labeled) :
    Eval.Probed P (validateOne parameter v) (validateOne parameter v) := by
  intro m hm
  have hcheck : parameter.type.check (m.probed P.offset).heap v.value =
      parameter.type.check m.heap v.value := Descriptor.check_recode _ m.heap parameter.type v.value
  refine .inr ?_
  rw [validateOne, validateOne, hcheck]
  cases parameter.type.check m.heap v.value with
  | ok _ => exact .ok _ hm
  | error mismatch => exact .error _ hm

theorem validate_probed (entries : Entries) : ∀ parameters : List Parameter,
    Eval.Probed P (validate entries parameters) (validate entries parameters)
  | [] => .pure _
  | p :: ps => (validateOne_probed p _).bind fun _ => validate_probed entries ps

/-! ### Writing and allocating

The heap is changed alike, since no operation of it looks at the code of functions. -/

/-- A field of an object does not depend on code. -/
theorem getField_probed (target : ObjectId) (key : Key) :
    Eval.Probed P (Eval.ask fun h => h.getField target key)
      (Eval.ask fun h => h.getField target key) :=
  .ask fun f h => h.getField_recode f target key

/-- A field of a value does not depend on code. -/
theorem getValueField_probed (target : Value) (key : Key) :
    Eval.Probed P (Eval.read fun h => h.getValueField target key)
      (Eval.read fun h => h.getValueField target key) :=
  .read fun f h => h.getValueField_recode f target key

/-- To write to an object does not depend on code. -/
theorem setOwn_probed (target : ObjectId) (key : Key) (v : Labeled) :
    Eval.Probed P (Eval.write fun h => h.setOwn target key v)
      (Eval.write fun h => h.setOwn target key v) :=
  .write (fun f h => h.setOwn_recode f target key v)
    fun h => ⟨h.extends_setOwn target key v, h.size_setOwn target key v⟩

/-- To write to a field does not depend on code. -/
theorem setField_probed (target : ObjectId) (key : Key) (v : Labeled) :
    Eval.Probed P (Eval.write fun h => h.setField target key v)
      (Eval.write fun h => h.setField target key v) :=
  .write (fun f h => h.setField_recode f target key v)
    fun h => ⟨h.extends_setField target key v, h.size_setField target key v⟩

/-- To write to a field of a value does not depend on code. -/
theorem setValueField_probed (target : Value) (key : Key) (v : Labeled) (own : Bool) :
    Eval.Probed P (Eval.write fun h => h.setValueField target key v own)
      (Eval.write fun h => h.setValueField target key v own) :=
  .write (fun f h => h.setValueField_recode f target key v own)
    fun h => ⟨h.extends_setValueField target key v own, h.size_setValueField target key v own⟩

/-- An object is filled with values, one after the other. -/
theorem setAll_probed (target : ObjectId) : ∀ fields : Fields,
    Eval.Probed P (setAll target fields) (setAll target fields)
  | [] => .pure _
  | (key, v) :: rest => (setOwn_probed target key v).bind fun _ => setAll_probed target rest

theorem allocPlain_probed (proto : Option ObjectId) :
    Eval.Probed P (Eval.change fun h => h.allocPlain proto)
      (Eval.change fun h => h.allocPlain proto) :=
  .change (fun h => h.recode_alloc _ { proto := proto }) fun _ hh => hh.allocPlain proto

/-- A new function, on one side with probes in its code. -/
theorem allocFunction_probed {lambda : Lambda} (hlambda : lambda.Prepared P) (scope : ObjectId) :
    Eval.Probed P (Eval.change fun h => h.allocFunction lambda scope)
      (Eval.change fun h => h.allocFunction (lambda.probed P.offset) scope) := by
  refine .change (fun h => h.recode_alloc _ ⟨.function lambda scope, [], _⟩) fun h hh => hh.alloc ?_
  rintro _ _ ⟨⟩
  exact hlambda

theorem allocBuiltin_probed (which : Builtin) (scope : ObjectId) :
    Eval.Probed P (Eval.change fun h => h.allocBuiltin which scope)
      (Eval.change fun h => h.allocBuiltin which scope) := by
  refine .change (fun h => h.recode_alloc _ ⟨.builtin which scope, [], _⟩) fun h hh => hh.alloc ?_
  rintro _ _ ⟨⟩

/-! ### Entering a function

What a call does before its body is run. -/

theorem Heap.Prepared.define {h : Heap} (hh : h.Prepared P) (target : ObjectId) (name : String)
    (v : Labeled) : (h.define target name v).Prepared P :=
  Heap.Functions.update hh (h.extends_writeOwn target _ v) (h.size_writeOwn target _ v)

/-- To bind a name does not depend on code. -/
theorem Heap.define_recode (f : Lambda → Lambda) (h : Heap) (target : ObjectId) (name : String)
    (v : Labeled) : (h.recode f).define target name v = (h.define target name v).recode f :=
  h.writeOwn_recode f target _ v

theorem openScope_probed (captured : ObjectId) :
    Eval.Probed P (openScope captured) (openScope captured) := by
  refine .change (fun h => ?_) fun h hh => ?_
  · have halloc : (h.recode (Lambda.probed P.offset)).allocPlain (some captured) = _ :=
      h.recode_alloc _ { proto := some captured }
    simp only [halloc, Heap.define_recode]
    rfl
  · exact Heap.Prepared.define (Heap.Functions.allocPlain hh _) _ _ _

/-- The object with the arguments of a call. -/
theorem collectArguments_probed (entries : Entries) :
    Eval.Probed P (collectArguments entries) (collectArguments entries) :=
  (allocPlain_probed _).bind fun target => (setAll_probed target entries).bind fun _ => .pure _

/-- The bindings that a call makes in its scope. -/
theorem bindArguments_probed (scope argsObject : ObjectId) (entries : Entries) :
    Eval.Probed P (bindArguments scope argsObject entries)
      (bindArguments scope argsObject entries) := by
  refine .change (fun h => ?_) fun h hh => ((hh.define _ _ _).define _ _ _).define _ _ _
  simp only [Heap.define_recode]

/-- All that a call does before its body is run. -/
theorem prepareCall_probed (he : eval.Probed P) (lambda : Lambda) (captured : ObjectId)
    {args : CallArguments} (ha : args.Prepared P) :
    Eval.Probed P (prepareCall eval lambda captured args)
      (prepareCall eval (lambda.probed P.offset) captured (args.probed P.offset)) :=
  (openScope_probed captured).bind fun scope => (materialize_probed he ha).bind fun entries =>
    (collectArguments_probed entries).bind fun target =>
      (bindArguments_probed scope target entries).bind fun _ =>
        (validate_probed entries lambda.parameters).bind fun _ => .pure scope

/-- A call of a function, and of the same function with probes in its code. -/
theorem callFunction_probed (he : eval.Probed P) {lambda : Lambda} (hlambda : lambda.Prepared P)
    (captured : ObjectId) {args : CallArguments} (ha : args.Prepared P) :
    Eval.Probed P (callFunction eval lambda captured args)
      (callFunction eval (lambda.probed P.offset) captured (args.probed P.offset)) := by
  refine (prepareCall_probed he lambda captured ha).bind fun scope => runAll_probed he ?_ scope
  obtain ⟨l, l', Q, anchor, body, hpair, hliteral, hbody⟩ := hlambda
  cases hliteral with
  | function _ hparts => exact hbody ▸ hpair.prepared_lowerAll hparts

/-! ### Builtin functions

They are given values, and the code of a function only if they call it back. -/

namespace Builtin

theorem callWith_probed (hi : inv.Probed P) (callee : Labeled) (values : List Labeled) :
    Eval.Probed P (callWith inv callee values) (callWith inv callee values) := by
  intro m hm
  have hcall := hi callee _ (CallArguments.prepared_ofValues P values m.global) m hm
  rwa [CallArguments.probed_ofValues] at hcall

/-- To ask for a number does not look at code. -/
theorem expectNumber_probed (v : Labeled) (who : String) :
    Eval.Probed P (expectNumber v who) (expectNumber v who) := by
  rw [expectNumber]
  split
  · exact .pure _
  · exact .misuse _

/-- To ask for a text does not look at code. -/
theorem expectString_probed (v : Labeled) (who : String) :
    Eval.Probed P (expectString v who) (expectString v who) := by
  rw [expectString]
  split
  · exact .pure _
  · exact .misuse _

/-- To ask for a boolean does not look at code. -/
theorem expectBoolean_probed (v : Labeled) (who : String) :
    Eval.Probed P (expectBoolean v who) (expectBoolean v who) := by
  rw [expectBoolean]
  split
  · exact .pure _
  · exact .misuse _

/-- To ask for a key does not look at code. -/
theorem expectKey_probed (v : Labeled) (who : String) :
    Eval.Probed P (expectKey v who) (expectKey v who) := by
  rw [expectKey]
  split
  · exact .pure _
  · split
    · exact .pure _
    · exact .misuse _
  · exact .misuse _

theorem foldNumbers_probed (who : String) (pick : Float → Float → Float) :
    ∀ (best : Option Float) (entries : Entries),
      Eval.Probed P (foldNumbers who pick best entries) (foldNumbers who pick best entries)
  | some _, [] => .pure _
  | none, [] => .misuse _
  | some _, (_, v) :: rest | none, (_, v) :: rest =>
      (expectNumber_probed v who).bind fun _ => foldNumbers_probed who pick _ rest

theorem onReceiver_probed (who : String) (f : Float → Float) (args : Entries) :
    Eval.Probed P (onReceiver who f args) (onReceiver who f args) :=
  (expectNumber_probed _ who).bind fun _ => .pure _

theorem onText_probed (who : String) (f : String → Value) (args : Entries) :
    Eval.Probed P (onText who f args) (onText who f args) :=
  (expectString_probed _ who).bind fun _ => .pure _

theorem onNumbers_probed (who : String) (f : Float → Float → Value) (args : Entries) :
    Eval.Probed P (onNumbers who f args) (onNumbers who f args) :=
  (expectNumber_probed _ who).bind fun _ => (expectNumber_probed _ who).bind fun _ => .pure _

theorem addValues_probed (left right : Value) :
    Eval.Probed P (addValues left right) (addValues left right) := by
  unfold addValues
  split
  · exact .pure _
  · exact .ask fun f h => by rw [Heap.display_recode, Heap.display_recode]
  · exact .ask fun f h => by rw [Heap.display_recode, Heap.display_recode]
  · exact .misuse _

theorem newObject_probed (args : Entries) : Eval.Probed P (newObject args) (newObject args) :=
  (allocPlain_probed _).bind fun target => (setAll_probed target _).bind fun _ =>
    (setAll_probed target _).bind fun _ => .pure _

/-- If one of the calls reaches the probe, the others are not made. -/
theorem forEachField_probed (hi : inv.Probed P) (callback : Labeled) : ∀ fields : Fields,
    Eval.Probed P (forEachField inv callback fields) (forEachField inv callback fields)
  | [] => .pure _
  | (_, _) :: rest => (callWith_probed hi callback _).bind fun _ => forEachField_probed hi callback rest

theorem newList_probed (scope : ObjectId) (args : Entries) :
    Eval.Probed P (newList scope args) (newList scope args) := by
  refine (getField_probed scope _).bind fun proto => ?_
  split
  · exact (allocPlain_probed _).bind fun target => (setAll_probed target _).bind fun _ =>
      (setAll_probed target _).bind fun _ => .pure _
  · exact .misuse _

theorem appendTo_probed (args : Entries) : Eval.Probed P (appendTo args) (appendTo args) := by
  rw [appendTo]
  split
  · exact (getField_probed _ _).bind fun length => (expectNumber_probed length _).bind
      fun _ => (setAll_probed _ _).bind fun _ => .pure _
  · exact .misuse _

/-- Both loops go on for the same number of rounds, or one of them stops at the probe. -/
theorem loopWhile_probed (hi : inv.Probed P) (condition body : Labeled) :
    ∀ (rounds : Nat) (last : Labeled), Eval.Probed P
      (loopWhile inv condition body rounds last) (loopWhile inv condition body rounds last)
  | 0, _ => .starve
  | rounds + 1, last => by
      refine (callWith_probed hi condition []).bind fun again =>
        (expectBoolean_probed again _).bind fun b => ?_
      cases b with
      | true =>
        exact (callWith_probed hi body []).bind fun v =>
          loopWhile_probed hi condition body rounds v
      | false => exact .pure last

theorem chooseBranch_probed (hi : inv.Probed P) (args : Entries) :
    Eval.Probed P (chooseBranch inv args) (chooseBranch inv args) := by
  refine (expectBoolean_probed _ _).bind fun taken => ?_
  generalize (if taken then args.positional 1 else args.positional 2) = branch
  dsimp only
  split
  · exact .pure Labeled.null
  · exact callWith_probed hi branch []

theorem applyEager_probed (hi : inv.Probed P) (rounds : Nat) (scope : ObjectId) (args : Entries)
    (which : Builtin) : Eval.Probed P (applyEager inv rounds scope args which)
      (applyEager inv rounds scope args which) := by
  cases which with
  | object => exact newObject_probed args
  | forEach =>
    rw [applyEager]
    split
    · exact (Eval.Probed.ask fun f h => h.fields_recode f _).bind fun fields =>
        forEachField_probed hi _ fields
    · exact .pure Labeled.null
  | get => exact (expectKey_probed _ _).bind fun key => getValueField_probed _ key
  | set =>
    exact (expectKey_probed _ _).bind fun key =>
      (setValueField_probed _ key _ true).bind fun _ => .pure _
  | has =>
    exact (expectKey_probed _ _).bind fun key => (getValueField_probed _ key).bind fun v => .pure _
  | not => exact (expectBoolean_probed _ _).bind fun b => .pure _
  | floor | ceil | round | abs => exact onReceiver_probed _ _ args
  | min | max => exact foldNumbers_probed _ _ _ _
  | string => exact .ask fun f h => by rw [Heap.display_recode]
  | stringLength | toUpperCase | toLowerCase => exact onText_probed _ _ args
  | contains =>
    exact (expectString_probed _ _).bind fun _ => (expectString_probed _ _).bind fun _ => .pure _
  | choose => exact chooseBranch_probed hi args
  | loop => exact loopWhile_probed hi _ _ rounds .null
  | raise => exact (expectString_probed _ _).bind fun _ => .fail _
  | add => exact addValues_probed _ _
  | subtract | multiply | divide | remainder | less | lessOrEqual | greater | greaterOrEqual =>
    exact onNumbers_probed _ _ args
  | equal | notEqual | constTrue | constFalse | and | or | coalesce => exact .pure _
  | list => exact newList_probed scope args
  | listAdd => exact appendTo_probed args

theorem forced_probed (he : eval.Probed P) (parameters : List Parameter) {args : CallArguments}
    (ha : args.Prepared P) (n : Nat) : Eval.Probed P (forced eval parameters args n)
      (forced eval parameters (args.probed P.offset) n) :=
  (evaluatePositional_probed he ha n).bind fun v => (validate_probed _ _).bind fun _ => .pure v

/-- The functions that evaluate their arguments on demand. -/
theorem applyLazy_probed (he : eval.Probed P) {args : CallArguments} (ha : args.Prepared P)
    (which : Builtin) : Eval.Probed P (applyLazy eval args which)
      (applyLazy eval (args.probed P.offset) which) := by
  unfold applyLazy
  split
  · exact .pure _
  · exact .pure _
  · refine (forced_probed he _ ha 0).bind fun left => (expectBoolean_probed left _).bind fun b => ?_
    cases b with
    | true => exact forced_probed he _ ha 1
    | false => exact .pure left
  · refine (forced_probed he _ ha 0).bind fun left => (expectBoolean_probed left _).bind fun b => ?_
    cases b with
    | true => exact .pure left
    | false => exact forced_probed he _ ha 1
  · refine (forced_probed he _ ha 0).bind fun left => ?_
    split
    · exact forced_probed he _ ha 1
    · exact .pure left
  · exact .pure Labeled.null

theorem apply_probed (he : eval.Probed P) (hi : inv.Probed P) (rounds : Nat) (which : Builtin)
    (scope : ObjectId) {args : CallArguments} (ha : args.Prepared P) :
    Eval.Probed P (which.apply eval inv rounds scope args)
      (which.apply eval inv rounds scope (args.probed P.offset)) := by
  rw [apply, apply]
  split
  · exact applyLazy_probed he ha which
  · exact (materialize_probed he ha).bind fun entries => (validate_probed entries _).bind fun _ =>
      applyEager_probed hi rounds scope entries which

end Builtin

/-! ### Nodes and calls

The only places where the probe can stand.  A node is lowered with the probe in place of one of its parts, or
of itself. -/

theorem bindNames_probed (scope : ObjectId) (value : Value) : ∀ (n : Nat) (names : List String),
    Eval.Probed P (bindNames scope value n names) (bindNames scope value n names)
  | _, [] => .pure _
  | n, name :: names => (getValueField_probed value (.index n)).bind fun v =>
      (setField_probed scope (.name name) v).bind fun _ => bindNames_probed scope value (n + 1) names

section Pair
variable {l l' : Lowering} {Q : Expr → Prop}

/-- A part of an expression may itself be what the probe stands in for. -/
theorem part_probed (he : eval.Probed P) (hpair : P.Pair l l' Q) {e : Expr} (hevery : e.Every Q) :
    Eval.Probed P (eval (e.lower l) scope) (eval (e.lower l') scope) := by
  rw [← hpair.probed_lower]
  exact he _ scope (.lower hpair hevery)

theorem labeled_probed (he : eval.Probed P) (hpair : P.Pair l l' Q) {e : Expr} (hevery : e.Every Q) :
    Eval.Probed P (evaluateLabeled eval (e.lower l) scope)
      (evaluateLabeled eval (e.lower l') scope) := by
  rw [← hpair.probed_lower]
  exact evaluateLabeled_probed he (.lower hpair hevery) scope

/-- A call with arguments and a trailing block, any of which the probe may stand in. -/
theorem call_probed (hi : inv.Probed P) (hpair : P.Pair l l' Q) (callee self : Labeled)
    {args : List (Argument Expr)} {trailing : List Expr} (hargs : ∀ a ∈ args, a.value.Every Q)
    (htrailing : ∀ e ∈ trailing, e.Every Q) : Eval.Probed P
      (inv callee (.withSelf self (Expr.lowerArgs l args ++ Expr.lowerTrailing l trailing) scope))
      (inv callee (.withSelf self (Expr.lowerArgs l' args ++ Expr.lowerTrailing l' trailing) scope)) := by
  rw [← hpair.probed_arguments, ← CallArguments.probed_withSelf]
  exact hi callee _ (CallArguments.prepared_withSelf (hpair.prepared_arguments hargs htrailing) _ _)

end Pair

/-- **One node.**  Where the name of a node gives way to a probe, the target is evaluated as before, if
there is one, and then the probe stops the run. -/
theorem step_probed (he : eval.Probed P) (hi : inv.Probed P) {code : Code} (hc : code.Prepared P)
    (scope : ObjectId) : Eval.Probed P (step eval inv code scope)
      (step eval inv (code.probed P.offset) scope) := by
  cases hc with
  | const v => exact .pure v
  | @lower l l' Q e hpair hevery =>
    rw [hpair.probed_lower]
    cases hevery with
    | @identifier a name h =>
      by_cases hhit : l'.hits a.span = true
      · have hfound := hpair.found h rfl hhit
        simp only [Expr.lower, hhit, if_true]
        exact .probe _ _ scope hfound
      · simp only [Expr.lower, hhit, hpair.hits hhit]
        exact getField_probed scope _
    | literal h =>
      simp only [Expr.lower, step, hpair.origin]
      exact .pure _
    | bracket h hinner =>
      simp only [Expr.lower, step]
      exact labeled_probed he hpair hinner
    | @field a target key span h htarget =>
      by_cases hhit : l'.hits span = true
      · have hfound := hpair.found h rfl hhit
        -- with or without a probe on the left, the target comes first
        cases hhit' : l.hits span <;> simp only [Expr.lower, hhit, hhit', if_true] <;>
          exact (part_probed he hpair htarget).bind fun receiver => .probe _ receiver scope hfound
      · simp only [Expr.lower, hhit, hpair.hits hhit]
        exact (part_probed he hpair htarget).bind fun t => getValueField_probed t.value key
    | call h htarget hargs htrailing =>
      simp only [Expr.lower, step]
      exact (part_probed he hpair htarget).bind fun callee => call_probed hi hpair callee _ hargs htrailing
    | @send a target key span args trailing h htarget hargs htrailing =>
      by_cases hhit : l'.hits span = true
      · have hfound := hpair.found h rfl hhit
        cases hhit' : l.hits span <;> simp only [Expr.lower, hhit, hhit', if_true] <;>
          exact (part_probed he hpair htarget).bind fun receiver => .probe _ receiver scope hfound
      · simp only [Expr.lower, hhit, hpair.hits hhit]
        exact (part_probed he hpair htarget).bind fun receiver =>
          (getValueField_probed receiver.value key).bind fun callee =>
            call_probed hi hpair callee receiver hargs htrailing
    | @bind a name span value h hvalue =>
      by_cases hhit : l'.hits span = true
      · have hfound := hpair.found h rfl hhit
        simp only [Expr.lower, hhit, if_true]
        exact .probe _ _ scope hfound
      · simp only [Expr.lower, hhit, hpair.hits hhit]
        exact (labeled_probed he hpair hvalue).bind fun v =>
          (setField_probed scope (.name name) v).bind fun _ => .pure v
    | @store a target key span value h htarget hvalue =>
      by_cases hhit : l'.hits span = true
      · have hfound := hpair.found h rfl hhit
        -- the probe leaves out the value, so this is a case only where the left has a probe, too
        simp only [Expr.lower, hhit, hpair.stores h hhit, if_true, step]
        exact (part_probed he hpair htarget).bind fun receiver => .probe _ receiver scope hfound
      · simp only [Expr.lower, hhit, hpair.hits hhit]
        exact (labeled_probed he hpair hvalue).bind fun v => (part_probed he hpair htarget).bind fun t =>
          (setValueField_probed t.value key v true).bind fun _ => .pure v
    | @destructure a names value h hvalue =>
      simp only [Expr.lower, step]
      exact (labeled_probed he hpair hvalue).bind fun v =>
        (bindNames_probed scope v.value 0 names).bind fun _ => .pure v
    | @function a decorators parameters body h hbody =>
      simp only [Expr.lower, step, ← hpair.probed_lowerAll, hpair.origin]
      exact (allocFunction_probed ⟨l, l', Q, a, body, hpair, .function h hbody, rfl⟩ scope).bind
        fun target => .pure _
    | @builtin a which h =>
      simp only [Expr.lower, step, hpair.origin]
      exact (allocBuiltin_probed which scope).bind fun target => .pure _

/-- **One call.** -/
theorem dispatch_probed (limits : Limits) (he : eval.Probed P) (hi : inv.Probed P) (rounds : Nat)
    (callee : Labeled) {args : CallArguments} (ha : args.Prepared P) :
    Eval.Probed P (dispatch (Eval.enter limits) eval inv rounds callee args)
      (dispatch (Eval.enter limits) eval inv rounds callee (args.probed P.offset)) := by
  intro m hm
  rcases callee with ⟨_ | _ | _ | _ | target, _⟩
  case object =>
    have hget : ((m.probed P.offset).heap.get target).kind =
        (m.heap.get target).kind.recode (Lambda.probed P.offset) :=
      congrArg Object.kind (m.heap.get_recode _ target)
    simp only [dispatch, Bind.bind, Eval.bind, Eval.ask, hget]
    cases hkind : (m.heap.get target).kind with
    | plain => exact Eval.Probed.fail _ m hm
    | function lambda captured =>
      have hlambda := hm target lambda captured hkind
      exact Eval.Probed.guarded limits (callFunction_probed he hlambda captured ha) m hm
    | builtin which captured =>
      exact Eval.Probed.guarded limits (Builtin.apply_probed he hi rounds which captured ha) m hm
  all_goals exact Eval.Probed.fail _ m hm

end

/-! ### Evaluation

The induction on the fuel that ties evaluation and calls together. -/

/-- Evaluation and calls with a probe follow those without it, by induction on the fuel. -/
theorem evaluate_invoke_probed (P : Probing) (limits : Limits) (fuel : Nat) :
    (evaluate limits fuel).Probed P ∧ (invoke limits fuel).Probed P := by
  induction fuel with
  | zero => exact ⟨fun _ _ _ => .starve, fun _ _ _ => .starve⟩
  | succ fuel ih =>
    obtain ⟨he, hi⟩ := ih
    refine ⟨fun code scope hc => ?_, fun callee args ha => ?_⟩
    -- a probe keeps the origin of the node it stands for, which errors go on to note
    · rw [evaluate_succ, evaluate_succ, Code.origin_probed]
      exact .leaving _ (step_probed he hi hc scope)
    · exact dispatch_probed limits he hi fuel callee ha

/-- **Running code with probes** on a machine with probes stops at a probe or follows the run without. -/
theorem Machine.run_probed {P : Probing} {m : Machine} (hm : m.heap.Prepared P) (limits : Limits)
    {codes : List Code} (hc : ∀ c ∈ codes, c.Prepared P) :
    P.Stopped ((m.probed P.offset).run limits (codes.map (Code.probed P.offset))) ∨
      P.Follows (m.run limits codes)
        ((m.probed P.offset).run limits (codes.map (Code.probed P.offset))) := by
  -- probes change how deep code is nested, so each run has a fuel of its own
  rw [← runAll_eq_run m limits codes (le_max_left _ _),
    ← runAll_eq_run (m.probed P.offset) limits (codes.map (Code.probed P.offset)) (le_max_right _ _)]
  exact runAll_probed (evaluate_invoke_probed P limits _).1 hc m.global m hm

/-! ### Starting up

Libraries are lowered without their origins, so there is nothing in them that a probe could stand for. -/

/-- A probe does not change the code of libraries, which has no place for it. -/
theorem Lambda.Prepared.probed_eq {offset : Nat} {lambda : Lambda}
    (h : lambda.Prepared (.ofLibraries offset)) : lambda.probed offset = lambda := by
  obtain ⟨l, l', Q, anchor, body, hpair, hliteral, hbody⟩ := h
  have hprobed := hpair.probed_lowerAll body
  rw [Lambda.probed, hbody]
  cases hpair with
  | program => exact hliteral.node.elim
  | library => exact (congrArg (Lambda.mk _ _) hprobed).trans (by rw [← hbody])

/-- What is prepared for libraries alone is prepared for every program beside them. -/
theorem Lambda.Prepared.of_library {P : Probing} {lambda : Lambda}
    (h : lambda.Prepared (.ofLibraries P.offset)) : lambda.Prepared P := by
  obtain ⟨l, l', Q, anchor, body, hpair, hliteral, hbody⟩ := h
  cases hpair with
  | program => exact hliteral.node.elim
  | library => exact ⟨_, _, _, anchor, body, .library, hliteral, hbody⟩

/-- There are no functions on the heap at first, so they are all as one likes. -/
theorem Machine.functions_initial (C : Lambda → Prop) : Machine.initial.heap.Functions C := by
  have hdefine : ∀ {h : Heap} (target : ObjectId) (name : String) (v : Labeled),
      h.Functions C → (h.define target name v).Functions C := fun {h} target _ v hh =>
    hh.update (h.extends_writeOwn target _ v) (h.size_writeOwn target _ v)
  have hfold : ∀ (names : List (String × ObjectId)) {h : Heap} (target : ObjectId), h.Functions C →
      (names.foldl (fun h b => h.define target b.1 (.bare (.object b.2))) h).Functions C := by
    intro names
    induction names with
    | nil => exact fun _ hh => hh
    | cons b names ih => exact fun target hh => ih target (hdefine target _ _ hh)
  exact hdefine _ _ _ (hfold _ _ (Heap.Functions.initial.allocPlain none))

namespace Interpreter

/-- Loading modules never meets a probe and leaves nothing but libraries on the heap. -/
theorem load_library (offset : Nat) (limits : Limits) : ∀ {loaded : List LoadedModule} {m : Machine},
    m.heap.Prepared (.ofLibraries offset) →
    (∀ l ∈ loaded, ∃ exprs, l.code = Expr.lowerAll { retain := false } exprs) →
      (∀ signal, (load limits loaded m).1 ≠ .error (.completion signal)) ∧
        (load limits loaded m).2.heap.Prepared (.ofLibraries offset)
  | [], _, hm, _ => ⟨fun _ h => (by cases h), hm⟩
  | l :: rest, m, hm, hl => by
      obtain ⟨exprs, hcode⟩ := hl l List.mem_cons_self
      have hprepared : ∀ c ∈ l.code, c.Prepared (.ofLibraries offset) :=
        hcode ▸ Probing.Pair.library.prepared_lowerAll fun e _ => Expr.every_of_nodes fun _ _ => trivial
      obtain ⟨_, -, hfound⟩ | ⟨-, hunstopped, hm'⟩ := Machine.run_probed hm limits hprepared
      · exact hfound.part.elim
      rw [load]
      split <;> rename_i heq <;> rw [heq] at hunstopped hm'
      · exact load_library offset limits hm' fun l' hl' => hl l' (List.mem_cons_of_mem _ hl')
      · exact ⟨fun signal hs => hunstopped signal (by cases hs; rfl), hm'⟩

/-- Libraries do not end at a probe, and their functions have no place for one. -/
theorem bootstrap_library {modules : List Module} {i : Interpreter} (hi : ofModules modules = .ok i)
    (offset : Nat) (limits : Limits) :
    (∀ signal, (i.bootstrap limits).1 ≠ .error (.completion signal)) ∧
      (i.bootstrap limits).2.heap.Prepared (.ofLibraries offset) := by
  have hload := load_library offset limits (Machine.functions_initial _) (lowered_of_ofModules hi)
  rw [bootstrap]
  split <;> rename_i heq <;> rw [heq] at hload
  · exact ⟨fun _ h => (by cases h), hload.2⟩
  · exact hload

/-- **A whole run** of a program with probes stops at one of them or follows the run without. -/
theorem run_probed {modules : List Module} {i : Interpreter} (hi : ofModules modules = .ok i)
    (P : Probing) (limits : Limits) {codes : List Code} (hc : ∀ c ∈ codes, c.Prepared P) :
    P.Stopped (i.run limits (codes.map (Code.probed P.offset))) ∨
      P.Follows (i.run limits codes) (i.run limits (codes.map (Code.probed P.offset))) := by
  obtain ⟨hunstopped, hlibrary⟩ := bootstrap_library hi P.offset limits
  have hprepared : (i.bootstrap limits).2.heap.Prepared P :=
    fun id lambda scope hkind => Lambda.Prepared.of_library (hlibrary id lambda scope hkind)
  have hsame : (i.bootstrap limits).2.probed P.offset = (i.bootstrap limits).2 :=
    congrArg (fun h => { (i.bootstrap limits).2 with heap := h }) <| Heap.Functions.recode_eq_self
      fun id lambda scope hkind => Lambda.Prepared.probed_eq (hlibrary id lambda scope hkind)
  rw [run, run]
  split <;> rename_i heq <;> rw [heq] at hunstopped hprepared hsame
  · have hrun := Machine.run_probed hprepared limits hc
    rwa [hsame] at hrun
  · refine .inr ⟨?_, fun signal hs => hunstopped signal (by cases hs; rfl), hprepared⟩
    rw [hsame]

end Interpreter

end Protean
