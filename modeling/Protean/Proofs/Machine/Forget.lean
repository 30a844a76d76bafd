import Protean.Proofs.Heap.Forget
import Protean.Proofs.Machine.Termination

/-!
# Proofs — Machine — sources never matter

Labels travel with values through arguments, fields and checks, and errors collect the expressions they
pass through, but no evaluation looks at either.  `Eval.Forgets f p q` says so of an evaluation: on a
machine that has forgotten all sources, `q` does what `p` does on the machine itself, up to forgetting;
`f` is what forgetting means for results.  It goes through every construct, with code that has forgotten
its origins on the right.

Only code that was lowered ever runs, and the code of functions stays the lowering of their literals.

**Sources never matter** (`sources_never_matter`): a program lowered with origins and the same program
lowered without them do the same.

* `RuntimeError.forget`, `Machine.forget`: errors without their stack, machines without labels and origins.
* `Eval.Forgets`: the relation, with a rule for every combinator of evaluations.
* `evaluateLabeled_forgets` … `dispatch_forgets`: the functions of the evaluator and of the library, one lemma for each.
* `evaluate_invoke_forgets`: the induction on the fuel.
* `Interpreter.bootstrap_forget`, `Interpreter.run_forget`: whole machines, from their start on.
-/

namespace Protean

/-- An error without the expressions it has passed through. -/
def RuntimeError.forget (e : RuntimeError) : RuntimeError := ⟨e.failure, []⟩

/-- What an error takes note of is forgotten. -/
@[simp] theorem RuntimeError.forget_leaving (e : RuntimeError) (origin : Option Expr) :
    (e.leaving origin).forget = e.forget := by
  cases origin <;> rfl

/-- The interrupt without the expressions an error has passed through. -/
def Interrupt.forget : Interrupt → Interrupt
  | .error e => .error e.forget
  | .completion signal => .completion ⟨signal.receiver.forget, signal.scope, signal.node⟩
  | .starved => .starved

/-- The outcome without sources, where `f` forgets those of results. -/
def forgetOutcome {α : Type} (f : α → α) : Except Interrupt α → Except Interrupt α
  | .ok a => .ok (f a)
  | .error i => .error i.forget

/-- A machine without labels, and with code that keeps no origins. -/
def Machine.forget (m : Machine) : Machine := ⟨m.heap.forget, m.global, m.steps, m.depth⟩

/-! ### Evaluations that forget

A rule for every combinator.  On the left evaluation goes on as it is, on the right it goes on with what is
left when all labels and origins have been forgotten. -/

/-- On a machine that has forgotten all sources, `q` does what `p` does on the machine itself. -/
def Eval.Forgets {α : Type} (f : α → α) (p q : Eval α) : Prop :=
  ∀ m : Machine, m.heap.Lowered →
    q m.forget = (forgetOutcome f (p m).1, (p m).2.forget) ∧ (p m).2.heap.Lowered

namespace Eval.Forgets

variable {α β : Type} {f : α → α}

/-- A result, and what is left of it. -/
theorem pure (a : α) : Forgets f (Eval.pure a) (Eval.pure (f a)) := fun _ hm => ⟨rfl, hm⟩

/-- An interrupt, and what is left of it. -/
theorem interrupt (i : Interrupt) :
    Forgets f (Eval.interrupt i) (Eval.interrupt i.forget) := fun _ hm => ⟨rfl, hm⟩

theorem fail (failure : Failure) : Forgets f (Eval.fail failure) (Eval.fail failure) :=
  interrupt _

theorem misuse (what : Misuse) : Forgets f (Eval.misuse what) (Eval.misuse what) :=
  interrupt _

/-- The second part is given the value of the first one, without its labels. -/
theorem bind {f' : β → β} {p q : Eval α} {k k' : α → Eval β} (hp : Forgets f p q)
    (hk : ∀ a, Forgets f' (k a) (k' (f a))) : Forgets f' (p >>= k) (q >>= k') := by
  intro m hm
  obtain ⟨hq, hm'⟩ := hp m hm
  show Eval.bind q k' m.forget = (forgetOutcome f' (Eval.bind p k m).1, (Eval.bind p k m).2.forget) ∧
    (Eval.bind p k m).2.heap.Lowered
  rcases hpm : p m with ⟨i | a, m'⟩ <;> simp only [hpm] at hq hm' <;>
    simp only [Eval.bind, hpm, hq, forgetOutcome]
  · exact ⟨trivial, hm'⟩
  · exact hk a m' hm'

/-- A question whose answer does not depend on labels. -/
theorem ask {g : Heap → α} (hg : ∀ h : Heap, g h.forget = f (g h)) :
    Forgets f (Eval.ask g) (Eval.ask g) :=
  fun m hm => ⟨congrArg (fun a => (Except.ok a, m.forget)) (hg m.heap), hm⟩

theorem read {g : Heap → Except HeapError α} (hg : ∀ h : Heap, g h.forget = (g h).map f) :
    Forgets f (Eval.read g) (Eval.read g) := by
  intro m hm
  have hgm : g m.forget.heap = (g m.heap).map f := hg m.heap
  rcases hread : g m.heap with e | a <;> rw [hread] at hgm <;>
    simp only [Eval.read, hgm, hread, Except.map]
  · exact ⟨rfl, hm⟩
  · exact ⟨rfl, hm⟩

/-- A change that does not depend on labels, and leaves lowered code only. -/
theorem change {g g' : Heap → α × Heap}
    (hg : ∀ h : Heap, g' h.forget = (f (g h).1, (g h).2.forget))
    (hl : ∀ h : Heap, h.Lowered → (g h).2.Lowered) :
    Forgets f (Eval.change g) (Eval.change g') := by
  intro m hm
  have hgm : g' m.forget.heap = (f (g m.heap).1, (g m.heap).2.forget) := hg m.heap
  refine ⟨?_, hl m.heap hm⟩
  show ((Except.ok (g' m.forget.heap).1 : Except Interrupt α), (⟨(g' m.forget.heap).2, _, _, _⟩ : Machine)) = _
  rw [hgm]
  rfl

theorem write {g g' : Heap → Except HeapError Unit × Heap}
    (hg : ∀ h : Heap, g' h.forget = ((g h).1, (g h).2.forget))
    (hl : ∀ h : Heap, h.Lowered → (g h).2.Lowered) :
    Forgets id (Eval.write g) (Eval.write g') := by
  rintro ⟨heap, global, steps, depth⟩ hm
  have hgm := hg heap
  have hlm := hl heap hm
  rcases hwrite : g heap with ⟨e | a, heap'⟩ <;> rw [hwrite] at hgm hlm <;>
    simp only [Eval.write, Machine.forget, hgm, hwrite]
  · exact ⟨rfl, hlm⟩
  · exact ⟨rfl, hlm⟩

/-- Code without its origin takes no note, and what the other one notes is forgotten. -/
theorem leaving {p q : Eval α} (origin : Option Expr) (hp : Forgets f p q) :
    Forgets f (Eval.leaving origin p) (Eval.leaving none q) := by
  intro m hm
  obtain ⟨hq, hm'⟩ := hp m hm
  rcases hpm : p m with ⟨(e | signal | _) | a, m'⟩ <;> simp only [hpm] at hq hm' <;>
    simp only [Eval.leaving, hpm, hq, forgetOutcome, Interrupt.forget]
  · exact ⟨by rw [RuntimeError.forget_leaving]; rfl, hm'⟩
  all_goals exact ⟨trivial, hm'⟩

theorem enter (limits : Limits) : Forgets id (Eval.enter limits) (Eval.enter limits) := by
  rintro ⟨heap, global, steps, depth⟩ hm
  change Eval.enter limits ⟨heap.forget, global, steps, depth⟩ = _ ∧ _
  simp only [Eval.enter]
  split
  · exact ⟨rfl, hm⟩
  · split
    · exact ⟨rfl, hm⟩
    · exact ⟨rfl, hm⟩

theorem guarded {p q : Eval α} (limits : Limits) (hp : Forgets f p q) :
    Forgets f (Eval.guarded (Eval.enter limits) p) (Eval.guarded (Eval.enter limits) q) := by
  intro m hm
  obtain ⟨henter, hm'⟩ := enter limits m hm
  rcases hem : Eval.enter limits m with ⟨i | _, m'⟩ <;> simp only [hem] at henter hm' <;>
    simp only [Eval.guarded, hem, henter, forgetOutcome]
  · exact ⟨trivial, hm'⟩
  · obtain ⟨hq, hm''⟩ := hp m' hm'
    simp only [hq]
    exact ⟨rfl, hm''⟩

end Eval.Forgets

/-! ### Arguments

Arguments are evaluated alike, and their entries differ by labels only. -/

namespace Entries

/-- What is looked up among entries does not depend on labels. -/
@[simp] theorem lookup_forget (entries : Entries) (key : Key) :
    lookup (Fields.forget entries) key = (entries.lookup key).forget := by
  rw [lookup, lookup, Fields.find?_forget]
  cases Fields.find? key entries <;> rfl

/-- What is found under a position does not depend on labels. -/
@[simp] theorem positional_forget (entries : Entries) (n : Nat) :
    positional (Fields.forget entries) n = (entries.positional n).forget :=
  lookup_forget entries _

/-- The receiver is looked up by its name, whatever its label. -/
@[simp] theorem self_forget (entries : Entries) :
    self (Fields.forget entries) = entries.self.forget :=
  lookup_forget entries _

/-- Whether an entry is positional is told from its key. -/
@[simp] theorem positionals_forget (entries : Entries) :
    positionals (Fields.forget entries) = Fields.forget entries.positionals := by
  rw [positionals, Fields.forget, List.filter_map]
  rfl

/-- Whether an entry is named is told from its key. -/
@[simp] theorem nameds_forget (entries : Entries) :
    nameds (Fields.forget entries) = Fields.forget entries.nameds := by
  rw [nameds, Fields.forget, List.filter_map]
  rfl

end Entries

namespace CallArguments

/-- The arguments without origins and sources. -/
def forget (args : CallArguments) : CallArguments := ⟨Code.forgetArgs args.entries, args.scope⟩

/-- All arguments are constants or lowered expressions. -/
def Lowered (args : CallArguments) : Prop := ∀ a ∈ args.entries, a.value.Lowered

/-- Which argument is the n-th positional one does not depend on origins. -/
theorem positional?_forget (args : CallArguments) (n : Nat) :
    args.forget.positional? n = (args.positional? n).map Code.forget := by
  simp only [positional?, forget, Code.forgetArgs_eq_map, List.filter_map, List.getElem?_map,
    Option.map_map]
  rfl

/-- The arguments of a call, without origins and labels. -/
theorem forget_withSelf (self : Labeled) (args : List (Argument Code)) (scope : ObjectId) :
    (withSelf self args scope).forget = withSelf self.forget (Code.forgetArgs args) scope := by
  simp only [withSelf, forget, Code.forgetArgs, Code.forget]

/-- The receiver is a constant, and the other arguments are lowered. -/
theorem lowered_withSelf {args : List (Argument Code)} (ha : ∀ a ∈ args, a.value.Lowered)
    (self : Labeled) (scope : ObjectId) : (withSelf self args scope).Lowered :=
  List.forall_mem_cons.mpr ⟨.inl ⟨self, rfl⟩, ha⟩

theorem forget_ofValues (values : List Labeled) (scope : ObjectId) :
    (ofValues values scope).forget = ofValues (values.map Labeled.forget) scope := by
  simp only [ofValues, forget, Code.forgetArgs_eq_map, List.map_map, Function.comp_def, Code.forget]

theorem lowered_ofValues (values : List Labeled) (scope : ObjectId) :
    (ofValues values scope).Lowered := by
  intro a ha
  obtain ⟨v, -, rfl⟩ := List.mem_map.mp ha
  exact .inl ⟨v, rfl⟩

end CallArguments

/-- What `eval` does with code it does with the code that has forgotten its origins. -/
def Evaluator.Forgets (eval : Evaluator) : Prop :=
  ∀ (code : Code) (scope : ObjectId), code.Lowered →
    Eval.Forgets Labeled.forget (eval code scope) (eval code.forget scope)

/-- Calls with arguments whose code was lowered. -/
def Invoker.Forgets (inv : Invoker) : Prop :=
  ∀ (callee : Labeled) (args : CallArguments), args.Lowered →
    Eval.Forgets Labeled.forget (inv callee args) (inv callee.forget args.forget)

section
variable {eval : Evaluator} {inv : Invoker} {scope : ObjectId}

/-- One of the two sets a label, and it is forgotten. -/
theorem evaluateLabeled_forgets (he : eval.Forgets) {code : Code} (hc : code.Lowered)
    (scope : ObjectId) : Eval.Forgets Labeled.forget (evaluateLabeled eval code scope)
      (evaluateLabeled eval code.forget scope) := by
  refine (he code scope hc).bind fun v => ?_
  rw [Code.origin_forget, Labeled.forget_orSource, ← Labeled.orSource_forget v code.origin]
  exact .pure _

theorem runFrom_forgets (he : eval.Forgets) : ∀ {codes : List Code} (last : Labeled),
    (∀ c ∈ codes, c.Lowered) → Eval.Forgets Labeled.forget (runFrom eval scope codes last)
      (runFrom eval scope (Code.forgetAll codes) last.forget)
  | [], last, _ => .pure last
  | c :: _, _, hc =>
      (he c scope (hc c List.mem_cons_self)).bind fun v =>
        runFrom_forgets he v fun c' hc' => hc c' (List.mem_cons_of_mem _ hc')

theorem runAll_forgets (he : eval.Forgets) {codes : List Code} (hc : ∀ c ∈ codes, c.Lowered)
    (scope : ObjectId) : Eval.Forgets Labeled.forget (runAll eval codes scope)
      (runAll eval (Code.forgetAll codes) scope) :=
  runFrom_forgets he .null hc

theorem materializeFrom_forgets (he : eval.Forgets) :
    ∀ (n : Nat) {args : List (Argument Code)}, (∀ a ∈ args, a.value.Lowered) →
      Eval.Forgets Fields.forget (materializeFrom eval scope n args)
        (materializeFrom eval scope n (Code.forgetArgs args))
  | _, [], _ => .pure _
  | n, ⟨some name, code⟩ :: args, ha => by
      obtain ⟨hc, ha⟩ := List.forall_mem_cons.mp ha
      exact (evaluateLabeled_forgets he hc scope).bind fun v =>
        (materializeFrom_forgets he n ha).bind fun rest => .pure ((.name name, v) :: rest)
  | n, ⟨none, code⟩ :: args, ha => by
      obtain ⟨hc, ha⟩ := List.forall_mem_cons.mp ha
      exact (evaluateLabeled_forgets he hc scope).bind fun v =>
        (materializeFrom_forgets he (n + 1) ha).bind fun rest => .pure ((.index n, v) :: rest)

theorem materialize_forgets (he : eval.Forgets) {args : CallArguments} (ha : args.Lowered) :
    Eval.Forgets Fields.forget (materialize eval args) (materialize eval args.forget) :=
  materializeFrom_forgets he 0 ha

/-- A single argument, for functions that do not evaluate all of them. -/
theorem evaluatePositional_forgets (he : eval.Forgets) {args : CallArguments} (ha : args.Lowered)
    (n : Nat) : Eval.Forgets Labeled.forget (evaluatePositional eval args n)
      (evaluatePositional eval args.forget n) := by
  rw [evaluatePositional, evaluatePositional, CallArguments.positional?_forget]
  cases hcode : args.positional? n with
  | none => exact .pure Labeled.null
  | some code =>
    obtain ⟨a, hget, rfl⟩ := Option.map_eq_some_iff.mp hcode
    have hmem := List.mem_of_mem_filter (List.mem_of_getElem? hget)
    exact evaluateLabeled_forgets he (ha a hmem) args.scope

/-- A check that fails points at the source of the argument, which only the trace remembers. -/
theorem validateOne_forgets (parameter : Parameter) (v : Labeled) :
    Eval.Forgets id (validateOne parameter v) (validateOne parameter v.forget) := by
  intro m hm
  have hcheck : parameter.type.check m.forget.heap v.forget.value =
      parameter.type.check m.heap v.value := Descriptor.check_forget m.heap parameter.type v.value
  rw [validateOne, validateOne, hcheck]
  cases parameter.type.check m.heap v.value with
  | ok _ => exact ⟨rfl, hm⟩
  | error mismatch =>
    refine ⟨?_, hm⟩
    simp only [forgetOutcome, Interrupt.forget, RuntimeError.forget_leaving]
    rfl

theorem validate_forgets (entries : Entries) : ∀ parameters : List Parameter,
    Eval.Forgets id (validate entries parameters) (validate (Fields.forget entries) parameters)
  | [] => .pure _
  | p :: ps => by
      rw [validate, validate, Entries.lookup_forget]
      exact (validateOne_forgets p _).bind fun _ => validate_forgets entries ps

/-! ### Writing and allocating

Operations of the heap commute with forgetting. -/

/-- A write to an object writes a label as well. -/
theorem setOwn_forgets (target : ObjectId) (key : Key) (v : Labeled) :
    Eval.Forgets id (Eval.write fun h => h.setOwn target key v)
      (Eval.write fun h => h.setOwn target key v.forget) :=
  .write (fun h => h.setOwn_forget target key v)
    fun h hl => hl.update (h.extends_setOwn target key v) (h.size_setOwn target key v)

theorem setField_forgets (target : ObjectId) (key : Key) (v : Labeled) :
    Eval.Forgets id (Eval.write fun h => h.setField target key v)
      (Eval.write fun h => h.setField target key v.forget) :=
  .write (fun h => h.setField_forget target key v)
    fun h hl => hl.update (h.extends_setField target key v) (h.size_setField target key v)

theorem setValueField_forgets (target : Value) (key : Key) (v : Labeled) (own : Bool) :
    Eval.Forgets id (Eval.write fun h => h.setValueField target key v own)
      (Eval.write fun h => h.setValueField target key v.forget own) :=
  .write (fun h => h.setValueField_forget target key v own) fun h hl =>
    hl.update (h.extends_setValueField target key v own) (h.size_setValueField target key v own)

/-- A field of a value is read with its label. -/
theorem getValueField_forgets (target : Value) (key : Key) :
    Eval.Forgets Labeled.forget (Eval.read fun h => h.getValueField target key)
      (Eval.read fun h => h.getValueField target key) :=
  .read fun h => h.getValueField_forget target key

/-- A field of an object is read with its label. -/
theorem getField_forgets (target : ObjectId) (key : Key) :
    Eval.Forgets Labeled.forget (Eval.ask fun h => h.getField target key)
      (Eval.ask fun h => h.getField target key) :=
  .ask fun h => h.getField_forget target key

theorem allocPlain_forgets (proto : Option ObjectId) :
    Eval.Forgets id (Eval.change fun h => h.allocPlain proto)
      (Eval.change fun h => h.allocPlain proto) :=
  .change (fun h => h.forget_alloc { proto := proto }) fun _ hl => hl.allocPlain proto

/-- A new function keeps the code of its literal, with or without origins. -/
theorem allocFunction_forgets (decorators : Decorators) (parameters : List Parameter)
    (l : Lowering) (body : List Expr) (scope : ObjectId) :
    Eval.Forgets id
      (Eval.change fun h => h.allocFunction ⟨decorators, parameters, Expr.lowerAll l body⟩ scope)
      (Eval.change fun h =>
        h.allocFunction ⟨decorators, parameters, Code.forgetAll (Expr.lowerAll l body)⟩ scope) := by
  refine .change (fun h => h.forget_alloc ⟨.function ⟨_, _, _⟩ scope, [], _⟩) fun h hl => hl.alloc ?_
  rintro _ _ ⟨⟩
  exact ⟨l, body, rfl⟩

theorem allocBuiltin_forgets (which : Builtin) (scope : ObjectId) :
    Eval.Forgets id (Eval.change fun h => h.allocBuiltin which scope)
      (Eval.change fun h => h.allocBuiltin which scope) := by
  refine .change (fun h => h.forget_alloc ⟨.builtin which scope, [], _⟩) fun h hl => hl.alloc ?_
  rintro _ _ ⟨⟩

/-- An object is filled with values, one after the other. -/
theorem setAll_forgets (target : ObjectId) : ∀ fields : Fields,
    Eval.Forgets id (setAll target fields) (setAll target fields.forget)
  | [] => .pure _
  | (key, v) :: rest => (setOwn_forgets target key v).bind fun _ => setAll_forgets target rest

/-! ### Entering a function

What a call does before its body is run. -/

theorem Heap.Lowered.define {h : Heap} (hl : h.Lowered) (target : ObjectId) (name : String)
    (v : Labeled) : (h.define target name v).Lowered :=
  hl.update (h.extends_writeOwn target _ v) (h.size_writeOwn target _ v)

/-- To bind a name does not depend on labels. -/
theorem Heap.define_forget (h : Heap) (target : ObjectId) (name : String) (v : Labeled) :
    h.forget.define target name v.forget = (h.define target name v).forget :=
  h.writeOwn_forget target _ v

/-- A new scope binds `this` without a label. -/
theorem openScope_forgets (captured : ObjectId) :
    Eval.Forgets id (openScope captured) (openScope captured) := by
  refine .change (fun h => ?_) fun h hl => ?_
  · have halloc : h.forget.allocPlain (some captured) = _ := h.forget_alloc { proto := some captured }
    simp only [halloc]
    exact congrArg (Prod.mk _) (Heap.define_forget _ _ _ (.bare _))
  · exact (hl.allocPlain _).define _ _ _

/-- The object with the arguments of a call. -/
theorem collectArguments_forgets (entries : Entries) :
    Eval.Forgets id (collectArguments entries) (collectArguments (Fields.forget entries)) :=
  (allocPlain_forgets _).bind fun target => (setAll_forgets target entries).bind fun _ => .pure _

/-- The bindings that a call makes in its scope. -/
theorem bindArguments_forgets (scope argsObject : ObjectId) (entries : Entries) :
    Eval.Forgets id (bindArguments scope argsObject entries)
      (bindArguments scope argsObject (Fields.forget entries)) := by
  refine .change (fun h => ?_) fun h hl => ((hl.define _ _ _).define _ _ _).define _ _ _
  rw [Entries.positional_forget, Entries.self_forget, ← Labeled.forget_bare]
  simp only [Heap.define_forget]
  rfl

/-- All that a call does before its body is run. -/
theorem prepareCall_forgets (he : eval.Forgets) (lambda : Lambda) (captured : ObjectId)
    {args : CallArguments} (ha : args.Lowered) (body : List Code) :
    Eval.Forgets id (prepareCall eval lambda captured args)
      (prepareCall eval { lambda with body := body } captured args.forget) :=
  (openScope_forgets captured).bind fun scope => (materialize_forgets he ha).bind fun entries =>
    (collectArguments_forgets entries).bind fun target =>
      (bindArguments_forgets scope target entries).bind fun _ =>
        (validate_forgets entries lambda.parameters).bind fun _ => .pure scope

/-- A call of a function, and of the same function without its origins. -/
theorem callFunction_forgets (he : eval.Forgets) {lambda : Lambda} (captured : ObjectId)
    {args : CallArguments} (hb : ∀ c ∈ lambda.body, c.Lowered) (ha : args.Lowered) :
    Eval.Forgets Labeled.forget (callFunction eval lambda captured args)
      (callFunction eval { lambda with body := Code.forgetAll lambda.body } captured args.forget) :=
  (prepareCall_forgets he lambda captured ha _).bind fun scope => runAll_forgets he hb scope

/-! ### Builtin functions

They decide by values, which have no labels inside. -/

namespace Builtin

theorem callWith_forgets (hi : inv.Forgets) (callee : Labeled) (values : List Labeled) :
    Eval.Forgets Labeled.forget (callWith inv callee values)
      (callWith inv callee.forget (values.map Labeled.forget)) := by
  intro m hm
  rw [callWith, callWith, ← CallArguments.forget_ofValues]
  exact hi callee _ (CallArguments.lowered_ofValues values m.global) m hm

/-- To ask for a number does not look at the label. -/
theorem expectNumber_forgets (v : Labeled) (who : String) :
    Eval.Forgets id (expectNumber v who) (expectNumber v.forget who) := by
  rw [expectNumber, expectNumber, Labeled.forget_value]
  split
  · exact .pure _
  · exact .misuse _

/-- To ask for a text does not look at the label. -/
theorem expectString_forgets (v : Labeled) (who : String) :
    Eval.Forgets id (expectString v who) (expectString v.forget who) := by
  rw [expectString, expectString, Labeled.forget_value]
  split
  · exact .pure _
  · exact .misuse _

/-- To ask for a boolean does not look at the label. -/
theorem expectBoolean_forgets (v : Labeled) (who : String) :
    Eval.Forgets id (expectBoolean v who) (expectBoolean v.forget who) := by
  rw [expectBoolean, expectBoolean, Labeled.forget_value]
  split
  · exact .pure _
  · exact .misuse _

/-- To ask for a key does not look at the label. -/
theorem expectKey_forgets (v : Labeled) (who : String) :
    Eval.Forgets id (expectKey v who) (expectKey v.forget who) := by
  rw [expectKey, expectKey, Labeled.forget_value]
  split
  · exact .pure _
  · split
    · exact .pure _
    · exact .misuse _
  · exact .misuse _

theorem foldNumbers_forgets (who : String) (pick : Float → Float → Float) :
    ∀ (best : Option Float) (entries : Entries), Eval.Forgets Labeled.forget
      (foldNumbers who pick best entries) (foldNumbers who pick best (Fields.forget entries))
  | some _, [] => .pure _
  | none, [] => .misuse _
  | some _, (_, v) :: rest | none, (_, v) :: rest =>
      (expectNumber_forgets v who).bind fun _ => foldNumbers_forgets who pick _ rest

theorem onReceiver_forgets (who : String) (f : Float → Float) (args : Entries) :
    Eval.Forgets Labeled.forget (onReceiver who f args) (onReceiver who f (Fields.forget args)) := by
  rw [onReceiver, onReceiver, Entries.self_forget]
  exact (expectNumber_forgets _ who).bind fun _ => .pure _

theorem onText_forgets (who : String) (f : String → Value) (args : Entries) :
    Eval.Forgets Labeled.forget (onText who f args) (onText who f (Fields.forget args)) := by
  rw [onText, onText, Entries.self_forget]
  exact (expectString_forgets _ who).bind fun _ => .pure _

theorem onNumbers_forgets (who : String) (f : Float → Float → Value) (args : Entries) :
    Eval.Forgets Labeled.forget (onNumbers who f args) (onNumbers who f (Fields.forget args)) := by
  rw [onNumbers, onNumbers, Entries.positional_forget, Entries.positional_forget]
  exact (expectNumber_forgets _ who).bind fun _ =>
    (expectNumber_forgets _ who).bind fun _ => .pure _

theorem addValues_forgets (left right : Value) :
    Eval.Forgets Labeled.forget (addValues left right) (addValues left right) := by
  unfold addValues
  split
  · exact .pure _
  · exact .ask fun h => by rw [Heap.display_forget, Heap.display_forget, Labeled.forget_bare]
  · exact .ask fun h => by rw [Heap.display_forget, Heap.display_forget, Labeled.forget_bare]
  · exact .misuse _

theorem newObject_forgets (args : Entries) :
    Eval.Forgets Labeled.forget (newObject args) (newObject (Fields.forget args)) := by
  rw [newObject, newObject, Entries.positionals_forget, Entries.nameds_forget]
  exact (allocPlain_forgets _).bind fun target => (setAll_forgets target _).bind fun _ =>
    (setAll_forgets target _).bind fun _ => .pure _

/-- The callback is called with keys and values. -/
theorem forEachField_forgets (hi : inv.Forgets) (callback : Labeled) : ∀ fields : Fields,
    Eval.Forgets Labeled.forget (forEachField inv callback fields)
      (forEachField inv callback.forget fields.forget)
  | [] => .pure _
  | (key, v) :: rest =>
      (callWith_forgets hi callback [v, .bare (keyValue key)]).bind fun _ =>
        forEachField_forgets hi callback rest

theorem newList_forgets (scope : ObjectId) (args : Entries) :
    Eval.Forgets Labeled.forget (newList scope args) (newList scope (Fields.forget args)) := by
  rw [newList, newList, Entries.positionals_forget]
  refine (getField_forgets scope _).bind fun proto => ?_
  rw [Labeled.forget_value]
  split
  · refine (allocPlain_forgets _).bind fun target => (setAll_forgets target _).bind fun _ => ?_
    rw [show (Fields.forget args.positionals).length = args.positionals.length from List.length_map _]
    exact (setAll_forgets target [(.name "length", .bare _)]).bind fun _ => .pure _
  · exact .misuse _

/-- A list gets one more element, with its label. -/
theorem appendTo_forgets (args : Entries) :
    Eval.Forgets Labeled.forget (appendTo args) (appendTo (Fields.forget args)) := by
  rw [appendTo, appendTo, Entries.self_forget, Entries.positional_forget, Labeled.forget_value]
  split
  · rename_i target _
    exact (getField_forgets target _).bind fun length => (expectNumber_forgets length _).bind
      fun n => (setAll_forgets target [(.index (Number.toIndex n), args.positional 0),
        (.name "length", .bare (.number (n + 1)))]).bind fun _ => .pure _
  · exact .misuse _

/-- Both loops go on for the same number of rounds. -/
theorem loopWhile_forgets (hi : inv.Forgets) (condition body : Labeled) :
    ∀ (rounds : Nat) (last : Labeled), Eval.Forgets Labeled.forget
      (loopWhile inv condition body rounds last)
      (loopWhile inv condition.forget body.forget rounds last.forget)
  | 0, _ => .interrupt .starved
  | rounds + 1, last => by
      refine (callWith_forgets hi condition []).bind fun again =>
        (expectBoolean_forgets again _).bind fun b => ?_
      cases b with
      | true =>
        exact (callWith_forgets hi body []).bind fun v =>
          loopWhile_forgets hi condition body rounds v
      | false => exact .pure last

theorem chooseBranch_forgets (hi : inv.Forgets) (args : Entries) :
    Eval.Forgets Labeled.forget (chooseBranch inv args)
      (chooseBranch inv (Fields.forget args)) := by
  rw [chooseBranch, chooseBranch, Entries.positional_forget]
  refine (expectBoolean_forgets _ _).bind fun taken => ?_
  have hbranch : (if taken then (args.positional 1).forget else (args.positional 2).forget) =
      (if taken then args.positional 1 else args.positional 2).forget := by
    cases taken <;> rfl
  simp only [id, Entries.positional_forget, hbranch, Labeled.forget_value]
  generalize (if taken then args.positional 1 else args.positional 2) = branch
  split
  · exact .pure Labeled.null
  · exact callWith_forgets hi branch []

theorem applyEager_forgets (hi : inv.Forgets) (rounds : Nat) (scope : ObjectId) (args : Entries)
    (which : Builtin) : Eval.Forgets Labeled.forget (applyEager inv rounds scope args which)
      (applyEager inv rounds scope (Fields.forget args) which) := by
  -- what a function looks at are values, so its arguments may forget their labels before
  cases which with
  | object => exact newObject_forgets args
  | forEach =>
    rw [applyEager, applyEager, Entries.self_forget, Entries.positional_forget,
      Labeled.forget_value]
    split
    · exact (Eval.Forgets.ask fun h => h.fields_forget _).bind fun fields =>
        forEachField_forgets hi _ fields
    · exact .pure Labeled.null
  | get =>
    simp only [applyEager, Entries.self_forget, Entries.positional_forget, Labeled.forget_value]
    exact (expectKey_forgets _ _).bind fun key => getValueField_forgets _ key
  | set =>
    simp only [applyEager, Entries.self_forget, Entries.positional_forget, Labeled.forget_value]
    exact (expectKey_forgets _ _).bind fun key =>
      (setValueField_forgets _ key _ true).bind fun _ => .pure _
  | has =>
    simp only [applyEager, Entries.self_forget, Entries.positional_forget, Labeled.forget_value]
    exact (expectKey_forgets _ _).bind fun key =>
      (getValueField_forgets _ key).bind fun v => .pure (Labeled.bare _)
  | not =>
    simp only [applyEager, Entries.positional_forget]
    exact (expectBoolean_forgets _ _).bind fun b => .pure (Labeled.bare _)
  | floor | ceil | round | abs => exact onReceiver_forgets _ _ args
  | min | max =>
    simp only [applyEager, Entries.positionals_forget]
    exact foldNumbers_forgets _ _ _ _
  | string =>
    simp only [applyEager, Entries.positional_forget, Labeled.forget_value]
    exact .ask fun h => by rw [Heap.display_forget, Labeled.forget_bare]
  | stringLength | toUpperCase | toLowerCase => exact onText_forgets _ _ args
  | contains =>
    simp only [applyEager, Entries.self_forget, Entries.positional_forget]
    exact (expectString_forgets _ _).bind fun _ => (expectString_forgets _ _).bind fun _ =>
      .pure (Labeled.bare _)
  | choose => exact chooseBranch_forgets hi args
  | loop =>
    simp only [applyEager, Entries.positional_forget]
    exact loopWhile_forgets hi _ _ rounds .null
  | raise =>
    simp only [applyEager, Entries.positional_forget]
    exact (expectString_forgets _ _).bind fun _ => .fail _
  | add =>
    simp only [applyEager, Entries.positional_forget, Labeled.forget_value]
    exact addValues_forgets _ _
  | subtract | multiply | divide | remainder | less | lessOrEqual | greater | greaterOrEqual =>
    exact onNumbers_forgets _ _ args
  | equal | notEqual =>
    simp only [applyEager, Entries.positional_forget, Labeled.forget_value]
    exact .pure (Labeled.bare _)
  | constTrue | constFalse | and | or | coalesce => exact .pure Labeled.null
  | list => exact newList_forgets scope args
  | listAdd => exact appendTo_forgets args

theorem forced_forgets (he : eval.Forgets) (parameters : List Parameter) {args : CallArguments}
    (ha : args.Lowered) (n : Nat) : Eval.Forgets Labeled.forget (forced eval parameters args n)
      (forced eval parameters args.forget n) :=
  (evaluatePositional_forgets he ha n).bind fun v =>
    (validate_forgets [(.index n, v)] _).bind fun _ => .pure v

/-- The functions that evaluate their arguments on demand. -/
theorem applyLazy_forgets (he : eval.Forgets) {args : CallArguments} (ha : args.Lowered)
    (which : Builtin) : Eval.Forgets Labeled.forget (applyLazy eval args which)
      (applyLazy eval args.forget which) := by
  unfold applyLazy
  split
  · exact .pure (Labeled.bare _)
  · exact .pure (Labeled.bare _)
  · refine (forced_forgets he _ ha 0).bind fun left => (expectBoolean_forgets left _).bind fun b => ?_
    cases b with
    | true => exact forced_forgets he _ ha 1
    | false => exact .pure left
  · refine (forced_forgets he _ ha 0).bind fun left => (expectBoolean_forgets left _).bind fun b => ?_
    cases b with
    | true => exact .pure left
    | false => exact forced_forgets he _ ha 1
  · refine (forced_forgets he _ ha 0).bind fun left => ?_
    rw [Labeled.forget_value]
    split
    · exact forced_forgets he _ ha 1
    · exact .pure left
  · exact .pure Labeled.null

theorem apply_forgets (he : eval.Forgets) (hi : inv.Forgets) (rounds : Nat) (which : Builtin)
    (scope : ObjectId) {args : CallArguments} (ha : args.Lowered) :
    Eval.Forgets Labeled.forget (which.apply eval inv rounds scope args)
      (which.apply eval inv rounds scope args.forget) := by
  rw [apply, apply]
  split
  · exact applyLazy_forgets he ha which
  · exact (materialize_forgets he ha).bind fun entries => (validate_forgets entries _).bind fun _ =>
      applyEager_forgets hi rounds scope entries which

end Builtin

/-! ### Nodes and calls

The two functions that evaluation and calls are made of.  The only node that looks at its origin does so to
label a value. -/

/-- A value without a label is bound to names. -/
theorem bindNames_forgets (scope : ObjectId) (value : Value) : ∀ (n : Nat) (names : List String),
    Eval.Forgets id (bindNames scope value n names) (bindNames scope value n names)
  | _, [] => .pure _
  | n, name :: names => (getValueField_forgets value (.index n)).bind fun v =>
      (setField_forgets scope (.name name) v).bind fun _ => bindNames_forgets scope value (n + 1) names

/-- **One node.**  The parts of a lowered expression are lowered expressions. -/
theorem step_forgets (he : eval.Forgets) (hi : inv.Forgets) {code : Code} (hc : code.Lowered)
    (scope : ObjectId) : Eval.Forgets Labeled.forget (step eval inv code scope)
      (step eval inv code.forget scope) := by
  obtain ⟨v, rfl⟩ | ⟨l, e, rfl⟩ := hc
  · exact .pure v
  have hpart : ∀ e : Expr, Eval.Forgets Labeled.forget (eval (e.lower l) scope)
      (eval (e.lower l).forget scope) := fun e => he _ scope (e.lowered_lower l)
  have hlabeled : ∀ e : Expr, Eval.Forgets Labeled.forget (evaluateLabeled eval (e.lower l) scope)
      (evaluateLabeled eval (e.lower l).forget scope) :=
    fun e => evaluateLabeled_forgets he (e.lowered_lower l) scope
  have hcall : ∀ (callee self : Labeled) (args : List (Argument Expr)) (trailing : List Expr),
      Eval.Forgets Labeled.forget
        (inv callee (.withSelf self (Expr.lowerArgs l args ++ Expr.lowerTrailing l trailing) scope))
        (inv callee.forget (.withSelf self.forget
          (Code.forgetArgs (Expr.lowerArgs l args ++ Expr.lowerTrailing l trailing)) scope)) := by
    intro callee self args trailing
    rw [← CallArguments.forget_withSelf]
    exact hi callee _ (CallArguments.lowered_withSelf (Expr.lowered_lowerArgs l args trailing) _ _)
  -- a probe for the fields of `target` in place of `node`
  have hprobe : ∀ (target node : Expr) (o : Option Expr), Eval.Forgets Labeled.forget
      (step eval inv (.probeField o (target.lower l) node) scope)
      (step eval inv (Code.probeField o (target.lower l) node).forget scope) := by
    intro target node o
    simp only [Code.forget, step]
    exact (hpart target).bind fun receiver => .interrupt (.completion ⟨receiver, scope, node⟩)
  cases e with
  | identifier a name =>
    rw [Expr.lower]
    split
    · exact .interrupt _
    · exact getField_forgets scope _
  | literal a value => exact .pure _
  | bracket a inner =>
    simp only [Expr.lower, Code.forget, step]
    exact hlabeled inner
  | field a target key span =>
    rw [Expr.lower]
    split
    · exact hprobe target _ _
    · simp only [Code.forget, step]
      exact (hpart target).bind fun t => getValueField_forgets t.value key
  | call a target args trailing =>
    simp only [Expr.lower, Code.forget, step]
    exact (hpart target).bind fun callee => hcall callee (.bare (.object scope)) args trailing
  | send a target key span args trailing =>
    rw [Expr.lower]
    split
    · exact hprobe target _ _
    · simp only [Code.forget, step]
      exact (hpart target).bind fun receiver =>
        (getValueField_forgets receiver.value key).bind fun callee =>
          hcall callee receiver args trailing
  | bind a name span value =>
    rw [Expr.lower]
    split
    · exact .interrupt _
    · simp only [Code.forget, step]
      exact (hlabeled value).bind fun v => (setField_forgets scope (.name name) v).bind fun _ =>
        .pure v
  | store a target key span value =>
    rw [Expr.lower]
    split
    · exact hprobe target _ _
    · simp only [Code.forget, step]
      exact (hlabeled value).bind fun v => (hpart target).bind fun t =>
        (setValueField_forgets t.value key v true).bind fun _ => .pure v
  | destructure a names value =>
    simp only [Expr.lower, Code.forget, step]
    exact (hlabeled value).bind fun v => (bindNames_forgets scope v.value 0 names).bind fun _ =>
      .pure v
  | function a decorators parameters body =>
    simp only [Expr.lower, Code.forget, step]
    exact (allocFunction_forgets decorators parameters l body scope).bind fun target => .pure _
  | builtin a which =>
    simp only [Expr.lower, Code.forget, step]
    exact (allocBuiltin_forgets which scope).bind fun target => .pure _

/-- **One call.** -/
theorem dispatch_forgets (limits : Limits) (he : eval.Forgets) (hi : inv.Forgets) (rounds : Nat)
    (callee : Labeled) {args : CallArguments} (ha : args.Lowered) :
    Eval.Forgets Labeled.forget (dispatch (Eval.enter limits) eval inv rounds callee args)
      (dispatch (Eval.enter limits) eval inv rounds callee.forget args.forget) := by
  intro m hm
  rcases callee with ⟨_ | _ | _ | _ | target, _⟩
  case object =>
    have hget : (m.forget.heap.get target).kind = (m.heap.get target).kind.forget :=
      congrArg Object.kind (m.heap.get_forget target)
    simp only [dispatch, Bind.bind, Eval.bind, Eval.ask, Labeled.forget_value, hget]
    cases hkind : (m.heap.get target).kind with
    | plain => exact Eval.Forgets.fail _ m hm
    | function lambda captured =>
      obtain ⟨l, body, hbody⟩ := hm target lambda captured hkind
      have hlowered : ∀ c ∈ lambda.body, c.Lowered := hbody ▸ Expr.lowered_lowerAll l body
      exact Eval.Forgets.guarded limits (callFunction_forgets he captured hlowered ha) m hm
    | builtin which captured =>
      exact Eval.Forgets.guarded limits (Builtin.apply_forgets he hi rounds which captured ha) m hm
  all_goals exact Eval.Forgets.fail _ m hm

end

/-! ### Evaluation

The induction on the fuel that ties evaluation and calls together. -/

/-- Evaluation and calls forget, by induction on the fuel. -/
theorem evaluate_invoke_forgets (limits : Limits) (fuel : Nat) :
    (evaluate limits fuel).Forgets ∧ (invoke limits fuel).Forgets := by
  induction fuel with
  | zero => exact ⟨fun _ _ _ => .interrupt .starved, fun _ _ _ => .interrupt .starved⟩
  | succ fuel ih =>
    obtain ⟨he, hi⟩ := ih
    refine ⟨fun code scope hc => ?_, fun callee args ha => ?_⟩
    -- the origin of code is only where an error is said to come from
    · rw [evaluate_succ, evaluate_succ, Code.origin_forget]
      exact .leaving _ (step_forgets he hi hc scope)
    · exact dispatch_forgets limits he hi fuel callee ha

/-- Code is nested as deeply without its origins. -/
theorem ObjectKind.height_forget (kind : ObjectKind) : kind.forget.height = kind.height := by
  cases kind with
  | function lambda scope => exact Code.bodyHeight_forget lambda.body
  | plain | builtin _ _ => rfl

theorem Heap.height_forget (h : Heap) : h.forget.height = h.height := by
  simp only [height, forget, Array.foldl_map, Object.forget, ObjectKind.height_forget]

namespace Machine

variable {m : Machine}

theorem fuelFor_forget (m : Machine) (limits : Limits) (height : Nat) :
    m.forget.fuelFor limits height = m.fuelFor limits height := by
  rw [fuelFor, fuelFor, forget, Heap.height_forget]

/-- **Running code that has forgotten its origins** is running the code and forgetting. -/
theorem run_forget (hm : m.heap.Lowered) (limits : Limits) {codes : List Code}
    (hc : ∀ c ∈ codes, c.Lowered) :
    m.forget.run limits (Code.forgetAll codes) =
        (forgetOutcome Labeled.forget (m.run limits codes).1, (m.run limits codes).2.forget) ∧
      (m.run limits codes).2.heap.Lowered := by
  rw [run, run, fuelFor_forget, Code.bodyHeight_forget]
  exact runAll_forgets (evaluate_invoke_forgets limits _).1 hc m.global m hm

end Machine

/-! ### Starting up

A machine that starts up has no labels, so it is what is left of itself. -/

namespace Interpreter

/-- Modules have no origins, so that loading them on a machine without sources leaves it without. -/
theorem load_forget (limits : Limits) : ∀ {loaded : List LoadedModule} {m : Machine},
    m.heap.Lowered → m.forget = m →
    (∀ l ∈ loaded, ∃ exprs, l.code = Expr.lowerAll { retain := false } exprs) →
      (load limits loaded m).2.heap.Lowered ∧
        (load limits loaded m).2.forget = (load limits loaded m).2 ∧
          forgetOutcome id (load limits loaded m).1 = (load limits loaded m).1
  | [], _, hm, hforget, _ => ⟨hm, hforget, rfl⟩
  | l :: rest, m, hm, hforget, hl => by
      obtain ⟨exprs, hcode⟩ := hl l List.mem_cons_self
      have hsame : Code.forgetAll l.code = l.code := by rw [hcode, Expr.forget_lowerAll]; rfl
      have hlowered : ∀ c ∈ l.code, c.Lowered := hcode ▸ Expr.lowered_lowerAll _ exprs
      obtain ⟨hrun, hm'⟩ := m.run_forget hm limits hlowered
      rw [hsame, hforget] at hrun
      rw [load]
      split <;> rename_i heq <;> rw [heq] at hrun hm' <;>
        simp only [forgetOutcome, Prod.mk.injEq] at hrun
      · exact load_forget limits hm' hrun.2.symm fun l' hl' => hl l' (List.mem_cons_of_mem _ hl')
      · exact ⟨hm', hrun.2.symm, congrArg Except.error (Except.error.inj hrun.1).symm⟩

/-- The machine that all start up with has only plain objects and bare values. -/
theorem forget_initial : Machine.initial.heap.Lowered ∧ Machine.initial.forget = .initial := by
  have hlowered : Heap.initial.Lowered := fun id lambda scope hkind => by
    rw [Heap.kind_initial] at hkind
    cases hkind
  have hsame : (Heap.initial.allocPlain none).2.forget = (Heap.initial.allocPlain none).2 := by
    simp [Heap.initial, Heap.allocPlain, Heap.alloc, Heap.forget, Object.forget, ObjectKind.forget]
  have hdefine : ∀ {h : Heap} (target : ObjectId) (name : String) (v : ObjectId),
      h.Lowered ∧ h.forget = h → (h.define target name (.bare (.object v))).Lowered ∧
        (h.define target name (.bare (.object v))).forget =
          h.define target name (.bare (.object v)) := by
    rintro h target name v ⟨hl, hforget⟩
    refine ⟨hl.define target name _, ?_⟩
    rw [← Heap.define_forget, hforget, Labeled.forget_bare]
  have hfold : ∀ (names : List (String × ObjectId)) {h : Heap} (target : ObjectId),
      h.Lowered ∧ h.forget = h →
        (names.foldl (fun h b => h.define target b.1 (.bare (.object b.2))) h).Lowered ∧
          (names.foldl (fun h b => h.define target b.1 (.bare (.object b.2))) h).forget =
            names.foldl (fun h b => h.define target b.1 (.bare (.object b.2))) h := by
    intro names
    induction names with
    | nil => exact fun _ hh => hh
    | cons b names ih => exact fun target hh => ih target (hdefine target b.1 b.2 hh)
  obtain ⟨hl, hforget⟩ := hdefine (Heap.initial.allocPlain none).1 "this" _
    (hfold Machine.globalNames (Heap.initial.allocPlain none).1 ⟨hlowered.allocPlain none, hsame⟩)
  exact ⟨hl, congrArg (fun h => Machine.mk h _ 0 0) hforget⟩

/-- A machine that has started up has nothing to forget. -/
theorem bootstrap_forget {modules : List Module} {i : Interpreter} (hi : ofModules modules = .ok i)
    (limits : Limits) : (i.bootstrap limits).2.heap.Lowered ∧
      (i.bootstrap limits).2.forget = (i.bootstrap limits).2 ∧
        forgetOutcome id (i.bootstrap limits).1 = (i.bootstrap limits).1 := by
  obtain ⟨hm, hforget, hout⟩ :=
    load_forget limits forget_initial.1 forget_initial.2 (lowered_of_ofModules hi)
  rw [bootstrap]
  split <;> rename_i heq <;> rw [heq] at hm hforget hout
  · exact ⟨hm, congrArg (fun m : Machine => { m with steps := 0 }) hforget, rfl⟩
  · exact ⟨hm, hforget, hout⟩

/-- Programs on top of a machine that starts up. -/
theorem run_forget {modules : List Module} {i : Interpreter} (hi : ofModules modules = .ok i)
    (limits : Limits) {codes : List Code} (hc : ∀ c ∈ codes, c.Lowered) :
    i.run limits (Code.forgetAll codes) =
        (forgetOutcome Labeled.forget (i.run limits codes).1, (i.run limits codes).2.forget) ∧
      (i.run limits codes).2.heap.Lowered := by
  obtain ⟨hm, hforget, hout⟩ := bootstrap_forget hi limits
  rw [run, run]
  split <;> rename_i heq <;> rw [heq] at hm hforget hout
  · have hrun := Machine.run_forget hm limits hc
    rwa [hforget] at hrun
  · refine ⟨?_, hm⟩
    rw [hforget]
    exact congrArg (fun i => (Except.error i, _)) (Except.error.inj hout).symm

end Interpreter

/-! ### The whole run

Two programs that differ by their origins do the same, on top of the same modules. -/

/-- Outcomes that differ in sources and traces only. -/
inductive SameOutcome : Except Interrupt Labeled → Except Interrupt Labeled → Prop where
  | value {v v' : Labeled} (h : v.value = v'.value) : SameOutcome (.ok v) (.ok v')
  | error {e e' : RuntimeError} (h : e.failure = e'.failure) :
      SameOutcome (.error (.error e)) (.error (.error e'))
  | completion {s s' : Signal} (hvalue : s.receiver.value = s'.receiver.value)
      (hscope : s.scope = s'.scope) (hnode : s.node = s'.node) :
      SameOutcome (.error (.completion s)) (.error (.completion s'))

/-- Kinds that differ in the origins of code only: a function has been lowered from the same literal
with the same cursor. -/
inductive ObjectKind.Twin : ObjectKind → ObjectKind → Prop where
  | plain : Twin .plain .plain
  | builtin (which : Builtin) (scope : ObjectId) : Twin (.builtin which scope) (.builtin which scope)
  | function (decorators : Decorators) (parameters : List Parameter) (l l' : Lowering)
      (body : List Expr) (scope : ObjectId) (hcursor : l.cursor = l'.cursor) :
      Twin (.function ⟨decorators, parameters, Expr.lowerAll l body⟩ scope)
        (.function ⟨decorators, parameters, Expr.lowerAll l' body⟩ scope)

/-- Objects that differ in the sources of their fields and the origins of their code only. -/
structure Object.Twin (o o' : Object) : Prop where
  kind : o.kind.Twin o'.kind
  keys_eq : o.fields.keys = o'.fields.keys
  values_eq : o.fields.map (fun field => field.2.value) = o'.fields.map fun field => field.2.value
  proto_eq : o.proto = o'.proto

/-- An outcome is the same as what is left of it. -/
theorem sameOutcome_forget {outcome : Except Interrupt Labeled} (h : Over outcome) :
    SameOutcome outcome (forgetOutcome Labeled.forget outcome) := by
  obtain ⟨v, rfl⟩ | ⟨e, rfl⟩ | ⟨signal, rfl⟩ := h
  · exact .value rfl
  · exact .error rfl
  · exact .completion rfl rfl rfl

/-- Lowered functions keep their literals, so an object and what is left of it are twins. -/
theorem Heap.Lowered.twin {h : Heap} (hl : h.Lowered) (id : ObjectId) :
    (h.get id).Twin (h.get id).forget := by
  refine ⟨?_, ((h.get id).fields.keys_forget).symm, ?_, rfl⟩
  · rw [Object.forget]
    cases hkind : (h.get id).kind with
    | plain => exact .plain
    | builtin which scope => exact .builtin which scope
    | function lambda scope =>
      obtain ⟨l, body, hbody⟩ := hl id lambda scope hkind
      rcases lambda with ⟨decorators, parameters, code⟩
      obtain rfl : code = _ := hbody
      simp only [ObjectKind.forget, Expr.forget_lowerAll]
      exact .function decorators parameters l l.forget body scope rfl
  · simp [Object.forget, Fields.forget, Function.comp_def]

/-- **Sources never matter.**  Under all limits, expressions lowered with their origins and the same
expressions lowered without them, with a probe or without one, run alike on top of the same modules:
both end with the same value, with the same error or at the same probe; the same number of calls was
made; and the heaps are of one size, with objects that have the same prototype, the same keys in the
same order, the same values, and functions lowered from the same literals. -/
theorem sources_never_matter {modules : List Module} {i : Interpreter}
    (hi : Interpreter.ofModules modules = .ok i) (limits : Limits) (cursor : Option Nat)
    (exprs : List Expr) :
    let kept := i.run limits (Expr.lowerAll { retain := true, cursor := cursor } exprs)
    let dropped := i.run limits (Expr.lowerAll { retain := false, cursor := cursor } exprs)
    SameOutcome kept.1 dropped.1 ∧ kept.2.steps = dropped.2.steps ∧
      kept.2.heap.size = dropped.2.heap.size ∧
        ∀ id, (kept.2.heap.get id).Twin (dropped.2.heap.get id) := by
  intro kept dropped
  obtain ⟨hrun, hl⟩ := Interpreter.run_forget hi limits
    (Expr.lowered_lowerAll { retain := true, cursor := cursor } exprs)
  have hdropped : dropped = (forgetOutcome Labeled.forget kept.1, kept.2.forget) := by
    rw [Expr.forget_lowerAll] at hrun
    exact hrun
  rw [hdropped]
  refine ⟨sameOutcome_forget (i.run_over limits _), rfl, (kept.2.heap.size_forget).symm, fun id => ?_⟩
  have htwin := hl.twin id
  rwa [← Heap.get_forget] at htwin

/-- The theorem at a function that negates what is no boolean. -/
theorem sources_never_matter_failure :
    let booleans : Module := { Library.booleans with dependencies := [] }
    let i : Interpreter :=
      ⟨[⟨"booleans", Expr.lowerAll { retain := false } Library.booleans.exprs⟩]⟩
    let negate : Expr := .function .nowhere [] []
      [.call .nowhere (.identifier .nowhere "!") [⟨none, .identifier .nowhere "it"⟩] []]
    let exprs := [Library.define "negate" negate, Library.callOf (.identifier .nowhere "negate")]
    let kept := i.run {} (Expr.lowerAll { retain := true } exprs)
    let dropped := i.run {} (Expr.lowerAll { retain := false } exprs)
    Interpreter.ofModules [booleans] = .ok i ∧ SameOutcome kept.1 dropped.1 := by
  intro booleans i negate exprs kept dropped
  have hi : Interpreter.ofModules [booleans] = .ok i := rfl
  exact ⟨hi, (sources_never_matter hi {} none exprs).1⟩

end Protean
