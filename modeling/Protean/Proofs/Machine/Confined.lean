import Protean.Machine.Evaluate
import Protean.Proofs.Heap.Region

/-!
# Proofs — Machine — evaluation stays in its region

An evaluation is *confined* to a region (`Eval.Confined`) when it does the same on every two machines that are
alike there: it gives the same answer, leaves the machines alike, and every object outside of the region as it
was.  What it yields is in the region, and so is every expression that an error passed through.

The property has a rule for every combinator of evaluations, a lemma for every function of the evaluator and
holds of evaluation as a whole, for code, arguments and callees of the region (`evaluate_invoke_confined`).

* `Region.sources_leaving`, `Eval.Confined.leaving`: expressions that errors take note of are of the region.
* `evaluateLabeled_confined` … `callFunction_confined`: what passes arguments and runs bodies.
* `Builtin.apply_confined`: the functions of the machine.
* `step_confined`, `dispatch_confined`: nodes of code, and calls of what a value refers to.
-/

namespace Protean

namespace Region

variable {α : Type}

/-- The machines differ in nothing but objects outside of the region. -/
structure Twins (R : Region) (m m' : Machine) : Prop where
  heap : R.Alike m.heap m'.heap
  global : m.global = m'.global
  steps : m.steps = m'.steps
  depth : m.depth = m'.depth

/-- A value is as `V` says, and an error has passed through expressions of the region only. -/
def Admits (R : Region) (V : α → Prop) : Except Interrupt α → Prop
  | .ok a => V a
  | .error (.error e) => ∀ x ∈ e.trace, R.sources x
  | .error (.completion _) | .error .starved => True

/-- What became of two machines in runs that did the same inside of the region and nothing outside of it. -/
structure Same (R : Region) (V : α → Prop) (m m' : Machine) (r r' : Except Interrupt α × Machine) :
    Prop where
  answer : r.1 = r'.1
  admits : R.Admits V r.1
  twins : R.Twins r.2 r'.2
  keeps : R.Keeps m.heap r.2.heap
  keeps' : R.Keeps m'.heap r'.2.heap

variable {R : Region} {V : α → Prop} {m m' : Machine}

/-- An evaluation that changes nothing does the same on both machines, if its answer is of the region. -/
theorem Twins.same (ht : R.Twins m m') {a : Except Interrupt α} (ha : R.Admits V a) :
    R.Same V m m' (a, m) (a, m') := ⟨rfl, ha, ht, .refl R _, .refl R _⟩

/-- An error takes note of one more expression, which is of the region. -/
theorem sources_leaving {e : RuntimeError} {origin : Option Expr} (ho : R.Marks origin)
    (he : ∀ x ∈ e.trace, R.sources x) : ∀ x ∈ (e.leaving origin).trace, R.sources x := by
  cases origin with
  | none => exact he
  | some o => exact List.forall_mem_cons.mpr ⟨ho o rfl, he⟩

end Region

/-- On machines that are alike in the region `p` does the same there and nothing outside of it, and its value
is as `V` says. -/
def Eval.Confined (R : Region) {α : Type} (p : Eval α) (V : α → Prop) : Prop :=
  ∀ m m' : Machine, R.Twins m m' → R.Same V m m' (p m) (p m')

namespace Eval.Confined

variable {R : Region} {α β : Type} {V : α → Prop} {W : β → Prop}

theorem pure {a : α} (ha : V a) : Confined R (Eval.pure a) V :=
  fun _ _ ht => ht.same ha

theorem interrupt {i : Interrupt} (hi : R.Admits V (.error i)) : Confined R (Eval.interrupt i) V :=
  fun _ _ ht => ht.same hi

theorem starve : Confined R Eval.starve V := interrupt trivial

/-- A new error has passed no expression yet. -/
theorem fail (failure : Failure) : Confined R (Eval.fail failure) V :=
  interrupt (List.forall_mem_nil _)

theorem misuse (what : Misuse) : Confined R (Eval.misuse what) V := fail _

/-- The second part starts on machines that are still alike, with a value of the region. -/
theorem bind {p : Eval α} {f : α → Eval β} (hp : Confined R p V)
    (hf : ∀ a, V a → Confined R (f a) W) : Confined R (p >>= f) W := by
  intro m m' ht
  change R.Same W m m' (Eval.bind p f m) (Eval.bind p f m')
  obtain ⟨hanswer, hadmits, htwins, hkeeps, hkeeps'⟩ := hp m m' ht
  rcases hm : p m with ⟨i | a, k⟩ <;> rcases hm' : p m' with ⟨i' | a', k'⟩ <;>
    rw [hm] at hanswer hadmits htwins hkeeps <;> rw [hm'] at hanswer htwins hkeeps' <;>
    cases hanswer <;> simp only [Eval.bind, hm, hm']
  · rcases i with e | signal | _ <;> exact ⟨rfl, hadmits, htwins, hkeeps, hkeeps'⟩
  · obtain ⟨hanswer, hadmits, htwins, hnext, hnext'⟩ := hf a hadmits k k' htwins
    exact ⟨hanswer, hadmits, htwins, hkeeps.trans hnext, hkeeps'.trans hnext'⟩

/-- A question that heaps answer alike if they are alike in the region. -/
theorem ask {f : Heap → α} (hf : ∀ {h h' : Heap}, R.Alike h h' → f h = f h' ∧ V (f h)) :
    Confined R (Eval.ask f) V := by
  intro m m' ht
  obtain ⟨heq, hV⟩ := hf ht.heap
  rw [Eval.ask, Eval.ask, ← heq]
  exact ht.same hV

theorem read {f : Heap → Except HeapError α}
    (hf : ∀ {h h' : Heap}, R.Alike h h' → f h = f h' ∧ ∀ a, f h = .ok a → V a) :
    Confined R (Eval.read f) V := by
  intro m m' ht
  obtain ⟨heq, hV⟩ := hf ht.heap
  rw [Eval.read, Eval.read, ← heq]
  cases hread : f m.heap with
  | ok a => exact ht.same (hV a hread)
  | error e => exact ht.same (List.forall_mem_nil _)

/-- A change that heaps undergo alike if they are alike in the region. -/
theorem change {f : Heap → α × Heap} (hf : ∀ {h h' : Heap}, R.Alike h h' →
      (f h).1 = (f h').1 ∧ V (f h).1 ∧ R.Changed h h' (f h).2 (f h').2) :
    Confined R (Eval.change f) V := by
  rintro ⟨h, global, steps, depth⟩ ⟨h', global', steps', depth'⟩ ht
  obtain ⟨heq, hV, halike, hkeeps, hkeeps'⟩ := hf ht.heap
  exact ⟨congrArg Except.ok heq, hV, ⟨halike, ht.global, ht.steps, ht.depth⟩, hkeeps, hkeeps'⟩

theorem write {f : Heap → Except HeapError Unit × Heap} (hf : ∀ {h h' : Heap}, R.Alike h h' →
      (f h).1 = (f h').1 ∧ R.Changed h h' (f h).2 (f h').2) :
    Confined R (Eval.write f) fun _ => True := by
  rintro ⟨h, global, steps, depth⟩ ⟨h', global', steps', depth'⟩ ht
  obtain ⟨heq, halike, hkeeps, hkeeps'⟩ := hf ht.heap
  rcases hm : f h with ⟨e | a, k⟩ <;> rcases hm' : f h' with ⟨e' | a', k'⟩ <;>
    rw [hm] at heq halike hkeeps <;> rw [hm'] at heq halike hkeeps' <;> cases heq <;>
    simp only [Eval.write, hm, hm']
  · exact ⟨rfl, List.forall_mem_nil _, ⟨halike, ht.global, ht.steps, ht.depth⟩, hkeeps, hkeeps'⟩
  · exact ⟨rfl, trivial, ⟨halike, ht.global, ht.steps, ht.depth⟩, hkeeps, hkeeps'⟩

/-- To take note of an expression of the region. -/
theorem leaving {p : Eval α} {origin : Option Expr} (ho : R.Marks origin) (hp : Confined R p V) :
    Confined R (Eval.leaving origin p) V := by
  intro m m' ht
  obtain ⟨hanswer, hadmits, htwins, hkeeps, hkeeps'⟩ := hp m m' ht
  rcases hm : p m with ⟨a, k⟩
  rcases hm' : p m' with ⟨a', k'⟩
  rw [hm] at hanswer hadmits htwins hkeeps
  rw [hm'] at hanswer htwins hkeeps'
  cases hanswer
  rcases a with (e | signal | _) | a <;> simp only [Eval.leaving, hm, hm']
  · exact ⟨rfl, Region.sources_leaving ho hadmits, htwins, hkeeps, hkeeps'⟩
  all_goals exact ⟨rfl, hadmits, htwins, hkeeps, hkeeps'⟩

/-- The counts are the same on both machines, so they let in the same calls. -/
theorem enter (limits : Limits) : Confined R (Eval.enter limits) fun _ => True := by
  rintro ⟨h, global, steps, depth⟩ ⟨h', global', steps', depth'⟩ ⟨hheap, hglobal, hsteps, hdepth⟩
  cases hglobal
  cases hsteps
  cases hdepth
  simp only [Eval.enter]
  split
  · exact ⟨rfl, List.forall_mem_nil _, ⟨hheap, rfl, rfl, rfl⟩, .refl R _, .refl R _⟩
  · split
    · exact ⟨rfl, List.forall_mem_nil _, ⟨hheap, rfl, rfl, rfl⟩, .refl R _, .refl R _⟩
    · exact ⟨rfl, trivial, ⟨hheap, rfl, rfl, rfl⟩, .refl R _, .refl R _⟩

/-- A call is confined if it is inside. -/
theorem guarded {p : Eval α} (limits : Limits) (hp : Confined R p V) :
    Confined R (Eval.guarded (Eval.enter limits) p) V := by
  intro m m' ht
  obtain ⟨hanswer, hadmits, htwins, hkeeps, hkeeps'⟩ := enter limits m m' ht
  rcases hm : Eval.enter limits m with ⟨i | _, k⟩ <;>
    rcases hm' : Eval.enter limits m' with ⟨i' | _, k'⟩ <;>
    rw [hm] at hanswer hadmits htwins hkeeps <;> rw [hm'] at hanswer htwins hkeeps' <;>
    cases hanswer <;> simp only [Eval.guarded, hm, hm']
  · rcases i with e | signal | _ <;> exact ⟨rfl, hadmits, htwins, hkeeps, hkeeps'⟩
  · obtain ⟨hanswer, hadmits, htwins, hnext, hnext'⟩ := hp k k' htwins
    refine ⟨hanswer, hadmits, ⟨htwins.heap, htwins.global, htwins.steps, ?_⟩, hkeeps.trans hnext,
      hkeeps'.trans hnext'⟩
    exact congrArg (· - 1) htwins.depth

end Eval.Confined

/-! ### Arguments

Arguments are code of the region in a scope of the region, and their entries are values of it. -/

/-- The code is in the region and so is the scope, which constants have no use for. -/
structure Code.InScope (R : Region) (scope : ObjectId) (c : Code) : Prop where
  code : c.In R
  scope : R.objects scope ∨ ∃ v, c = .const v

/-- All evaluated arguments are in the region. -/
def Entries.In (R : Region) (entries : Entries) : Prop := ∀ e ∈ entries, e.2.In R

/-- All arguments are in the region with their scope. -/
def CallArguments.In (R : Region) (args : CallArguments) : Prop :=
  ∀ a ∈ args.entries, a.value.InScope R args.scope

/-- Code of the region evaluates to values of the region, confined to it. -/
def Evaluator.Confined (R : Region) (eval : Evaluator) : Prop :=
  ∀ {code : Code} {scope : ObjectId}, code.InScope R scope →
    Eval.Confined R (eval code scope) (Labeled.In R)

/-- A call of a value of the region with arguments of the region is confined to it. -/
def Invoker.Confined (R : Region) (inv : Invoker) : Prop :=
  ∀ {callee : Labeled} {args : CallArguments}, callee.In R → args.In R →
    Eval.Confined R (inv callee args) (Labeled.In R)

section
variable {R : Region} {eval : Evaluator} {inv : Invoker} {scope id : ObjectId} {key : Key} {v : Labeled}

/-- Arguments of the region are code of the region, in a scope of the region. -/
theorem Code.ArgsIn.inScope {args : List (Argument Code)} (ha : Code.ArgsIn R args)
    (hs : R.objects scope) : ∀ a ∈ args, a.value.InScope R scope :=
  fun a hmem => ⟨Code.argsIn_iff.mp ha a hmem, .inl hs⟩

namespace CallArguments.In

/-- The arguments of a call, with a receiver from the region. -/
theorem withSelf {args : List (Argument Code)} (hv : v.In R) (ha : Code.ArgsIn R args)
    (hs : R.objects scope) : (CallArguments.withSelf v args scope).In R :=
  List.forall_mem_cons.mpr ⟨⟨hv, .inr ⟨v, rfl⟩⟩, ha.inScope hs⟩

/-- Arguments that are values already may belong to any scope. -/
theorem ofValues {values : List Labeled} (hv : ∀ v ∈ values, v.In R) (scope : ObjectId) :
    (CallArguments.ofValues values scope).In R :=
  List.forall_mem_map.mpr fun v hmem => ⟨hv v hmem, .inr ⟨v, rfl⟩⟩

theorem positional? {args : CallArguments} {n : Nat} {code : Code} (ha : args.In R)
    (hc : args.positional? n = some code) : code.InScope R args.scope := by
  obtain ⟨a, hget, rfl⟩ := Option.map_eq_some_iff.mp hc
  exact ha a (List.mem_of_mem_filter (List.mem_of_getElem? hget))

end CallArguments.In

namespace Entries.In

variable {entries : Entries}

theorem cons (hv : v.In R) (he : entries.In R) : Entries.In R ((key, v) :: entries) :=
  List.forall_mem_cons.mpr ⟨hv, he⟩

/-- What is looked up among entries of the region is of the region. -/
theorem lookup (he : entries.In R) (key : Key) : (entries.lookup key).In R := by
  rw [Entries.lookup]
  cases hf : Fields.find? key entries with
  | none => exact .null
  | some v => exact he _ (Fields.mem_of_find? hf)

theorem positionals (he : entries.In R) : entries.positionals.In R :=
  fun e hmem => he e (List.mem_of_mem_filter hmem)

theorem nameds (he : entries.In R) : entries.nameds.In R :=
  fun e hmem => he e (List.mem_of_mem_filter hmem)

end Entries.In

/-- The label that is set is the origin of code of the region. -/
theorem evaluateLabeled_confined (he : eval.Confined R) {code : Code} (hc : code.InScope R scope) :
    Eval.Confined R (evaluateLabeled eval code scope) (Labeled.In R) :=
  (he hc).bind fun _ hv => .pure (hv.orSource hc.code.origin)

theorem runFrom_confined (he : eval.Confined R) (hs : R.objects scope) :
    ∀ {codes : List Code} {last : Labeled}, Code.BodyIn R codes → last.In R →
      Eval.Confined R (runFrom eval scope codes last) (Labeled.In R)
  | [], _, _, hlast => .pure hlast
  | _ :: _, _, ⟨hc, hcs⟩, _ =>
      (he ⟨hc, .inl hs⟩).bind fun _ hv => runFrom_confined he hs hcs hv

theorem runAll_confined (he : eval.Confined R) {codes : List Code} (hc : Code.BodyIn R codes)
    (hs : R.objects scope) : Eval.Confined R (runAll eval codes scope) (Labeled.In R) :=
  runFrom_confined he hs hc .null

/-- Arguments are evaluated in their order, and all their values are of the region. -/
theorem materializeFrom_confined (he : eval.Confined R) :
    ∀ {args : List (Argument Code)} {n : Nat}, (∀ a ∈ args, a.value.InScope R scope) →
      Eval.Confined R (materializeFrom eval scope n args) (Entries.In R)
  | [], _, _ => .pure (List.forall_mem_nil _)
  | ⟨some _, _⟩ :: _, _, ha | ⟨none, _⟩ :: _, _, ha => by
      obtain ⟨hc, ha⟩ := List.forall_mem_cons.mp ha
      exact (evaluateLabeled_confined he hc).bind fun _ hv =>
        (materializeFrom_confined he ha).bind fun _ hrest => .pure (.cons hv hrest)

theorem materialize_confined (he : eval.Confined R) {args : CallArguments} (ha : args.In R) :
    Eval.Confined R (materialize eval args) (Entries.In R) :=
  materializeFrom_confined he ha

/-- A single argument, for functions that do not evaluate all of them. -/
theorem evaluatePositional_confined (he : eval.Confined R) {args : CallArguments} (ha : args.In R)
    (n : Nat) : Eval.Confined R (evaluatePositional eval args n) (Labeled.In R) := by
  rw [evaluatePositional]
  split
  · rename_i code hc
    exact evaluateLabeled_confined he (ha.positional? hc)
  · exact .pure .null

/-- A refused argument is blamed on its own source. -/
theorem validateOne_confined (parameter : Parameter) (hv : v.In R) :
    Eval.Confined R (validateOne parameter v) fun _ => True := by
  intro m m' ht
  rw [validateOne, validateOne, ← Descriptor.check_alike ht.heap parameter.type hv.value]
  cases parameter.type.check m.heap v.value with
  | ok _ => exact ht.same trivial
  | error mismatch =>
    exact ht.same (Region.sources_leaving hv.source (List.forall_mem_nil _))

/-- Parameters are checked against values of the region, by their descriptors. -/
theorem validate_confined {entries : Entries} (he : entries.In R) : ∀ parameters : List Parameter,
    Eval.Confined R (validate entries parameters) fun _ => True
  | [] => .pure trivial
  | p :: ps => (validateOne_confined p (he.lookup p.key)).bind fun _ _ => validate_confined he ps

/-! ### Reading, writing and allocating

The operations of the heap as evaluations, by what `Heap.Region` says of each. -/

/-- What the fields of an object of the region hold is of the region, its prototypes included. -/
theorem getField_confined (hid : R.objects id) (key : Key) :
    Eval.Confined R (Eval.ask fun h => h.getField id key) (Labeled.In R) :=
  .ask fun ha => ⟨ha.getField_eq hid key, ha.getField_in hid key⟩

theorem getValueField_confined {target : Value} (ht : target.In R) (key : Key) :
    Eval.Confined R (Eval.read fun h => h.getValueField target key) (Labeled.In R) :=
  .read fun ha => ⟨ha.getValueField_eq ht key, fun _ hv => ha.getValueField_in ht hv⟩

/-- An object of the region is filled with values of the region. -/
theorem setAll_confined (hid : R.objects id) : ∀ {fields : Fields}, Entries.In R fields →
    Eval.Confined R (setAll id fields) fun _ => True
  | [], _ => .pure trivial
  | (key, _) :: _, hf => by
      obtain ⟨hv, hf⟩ := List.forall_mem_cons.mp hf
      exact (Eval.Confined.write fun ha => ha.setOwn hid key hv).bind fun _ _ =>
        setAll_confined hid hf

/-- A new object has the same number in both heaps, and this number is of the region. -/
theorem alloc_confined {o : Object} (ho : o.In R) :
    Eval.Confined R (Eval.change fun h => h.alloc o) R.objects :=
  .change fun {h _} ha => ⟨ha.size_eq, ha.beyond h.size le_rfl, ha.alloc ho⟩

theorem allocPlain_confined {proto : ObjectId} (hp : R.objects proto) :
    Eval.Confined R (Eval.change fun h => h.allocPlain (some proto)) R.objects :=
  alloc_confined (.fresh trivial hp)

/-! ### Entering a function

What a call does before its body is run. -/

/-- A new scope, around which there is a scope of the region. -/
theorem openScope_confined {captured : ObjectId} (hc : R.objects captured) :
    Eval.Confined R (openScope captured) R.objects := by
  refine .change fun {h h'} ha => ?_
  have hnew : R.objects h.size := ha.beyond h.size le_rfl
  have hopened : Object.In R ⟨.plain, [], some captured⟩ := .fresh trivial hc
  have hthis := (ha.alloc hopened).alike.define hnew "this" (.ofObject hnew)
  have hchanged := (ha.alloc hopened).trans hthis
  refine ⟨ha.size_eq, hnew, ?_⟩
  simp only [Heap.allocPlain, Heap.alloc, ← ha.size_eq] at hchanged ⊢
  exact hchanged

/-- The object with the arguments of a call. -/
theorem collectArguments_confined {entries : Entries} (he : entries.In R) :
    Eval.Confined R (collectArguments entries) R.objects :=
  (allocPlain_confined (R.builtins _ (by decide))).bind fun _ hid =>
    (setAll_confined hid he).bind fun _ _ => .pure hid

/-- The bindings that a call makes in its scope. -/
theorem bindArguments_confined {argsObject : ObjectId} {entries : Entries} (hs : R.objects scope)
    (ha : R.objects argsObject) (he : entries.In R) :
    Eval.Confined R (bindArguments scope argsObject entries) fun _ => True := by
  refine .change fun halike => ⟨rfl, trivial, ?_⟩
  have hargs := halike.define hs "args" (.ofObject ha)
  have hit := hargs.alike.define hs "it" (he.lookup (.index 0))
  exact (hargs.trans hit).trans (hit.alike.define hs "self" (he.lookup (.name "self")))

/-- All that a call does before its body is run. -/
theorem prepareCall_confined (he : eval.Confined R) (lambda : Lambda) {captured : ObjectId}
    {args : CallArguments} (hc : R.objects captured) (ha : args.In R) :
    Eval.Confined R (prepareCall eval lambda captured args) R.objects :=
  (openScope_confined hc).bind fun _ hscope => (materialize_confined he ha).bind fun _ hentries =>
    (collectArguments_confined hentries).bind fun _ hargs =>
      (bindArguments_confined hscope hargs hentries).bind fun _ _ =>
        (validate_confined hentries lambda.parameters).bind fun _ _ => .pure hscope

/-- A call of a function with a body of the region. -/
theorem callFunction_confined (he : eval.Confined R) {lambda : Lambda} {captured : ObjectId}
    {args : CallArguments} (hb : Code.BodyIn R lambda.body) (hc : R.objects captured)
    (ha : args.In R) : Eval.Confined R (callFunction eval lambda captured args) (Labeled.In R) :=
  (prepareCall_confined he lambda hc ha).bind fun _ hscope => runAll_confined he hb hscope

/-! ### Builtin functions

They see nothing but their arguments and what these lead to. -/

namespace Builtin

/-- The arguments are values, so it is no matter whether the global scope is in the region. -/
theorem callWith_confined (hi : inv.Confined R) {callee : Labeled} {values : List Labeled}
    (hc : callee.In R) (hv : ∀ v ∈ values, v.In R) :
    Eval.Confined R (callWith inv callee values) (Labeled.In R) := by
  intro m m' ht
  rw [callWith, callWith, ← ht.global]
  exact hi hc (.ofValues hv m.global) m m' ht

/-- To ask for a number only looks at the value. -/
theorem expectNumber_confined (v : Labeled) (who : String) :
    Eval.Confined R (expectNumber v who) fun _ => True := by
  rw [expectNumber]
  split
  · exact .pure trivial
  · exact .misuse _

/-- To ask for a text only looks at the value. -/
theorem expectString_confined (v : Labeled) (who : String) :
    Eval.Confined R (expectString v who) fun _ => True := by
  rw [expectString]
  split
  · exact .pure trivial
  · exact .misuse _

/-- To ask for a boolean only looks at the value. -/
theorem expectBoolean_confined (v : Labeled) (who : String) :
    Eval.Confined R (expectBoolean v who) fun _ => True := by
  rw [expectBoolean]
  split
  · exact .pure trivial
  · exact .misuse _

/-- To ask for a key only looks at the value. -/
theorem expectKey_confined (v : Labeled) (who : String) :
    Eval.Confined R (expectKey v who) fun _ => True := by
  rw [expectKey]
  split
  · exact .pure trivial
  · split
    · exact .pure trivial
    · exact .misuse _
  · exact .misuse _

/-- The smallest and the greatest of numbers are numbers, which are of every region. -/
theorem foldNumbers_confined (who : String) (pick : Float → Float → Float) :
    ∀ (best : Option Float) (entries : Entries),
      Eval.Confined R (foldNumbers who pick best entries) (Labeled.In R)
  | some _, [] => .pure (.bare trivial)
  | none, [] => .misuse _
  | some _, (_, v) :: rest | none, (_, v) :: rest =>
      (expectNumber_confined v who).bind fun _ _ => foldNumbers_confined who pick _ rest

theorem onReceiver_confined (who : String) (f : Float → Float) (args : Entries) :
    Eval.Confined R (onReceiver who f args) (Labeled.In R) :=
  (expectNumber_confined _ who).bind fun _ _ => .pure (.bare trivial)

theorem onText_confined (who : String) {f : String → Value} (hf : ∀ text, (f text).In R)
    (args : Entries) : Eval.Confined R (onText who f args) (Labeled.In R) :=
  (expectString_confined _ who).bind fun text _ => .pure (.bare (hf text))

theorem onNumbers_confined (who : String) {f : Float → Float → Value} (hf : ∀ x y, (f x y).In R)
    (args : Entries) : Eval.Confined R (onNumbers who f args) (Labeled.In R) :=
  (expectNumber_confined _ who).bind fun x _ => (expectNumber_confined _ who).bind fun y _ =>
    .pure (.bare (hf x y))

theorem addValues_confined {left right : Value} (hl : left.In R) (hr : right.In R) :
    Eval.Confined R (addValues left right) (Labeled.In R) := by
  unfold addValues
  split
  · exact .pure (.bare trivial)
  · exact .ask fun ha => ⟨by rw [ha.display_eq hl, ha.display_eq hr], .bare trivial⟩
  · exact .ask fun ha => ⟨by rw [ha.display_eq hl, ha.display_eq hr], .bare trivial⟩
  · exact .misuse _

/-- A new object with values of the region. -/
theorem newObject_confined {args : Entries} (ha : args.In R) :
    Eval.Confined R (newObject args) (Labeled.In R) :=
  (allocPlain_confined (R.builtins _ (by decide))).bind fun _ hid =>
    (setAll_confined hid ha.positionals).bind fun _ _ =>
      (setAll_confined hid ha.nameds).bind fun _ _ => .pure (.bare hid)

/-- Keys are numbers or texts as values, so they are of every region. -/
theorem keyValue_in (R : Region) (key : Key) : (keyValue key).In R := by
  cases key <;> exact trivial

/-- The callback and the values of the fields are of the region, so each call is confined. -/
theorem forEachField_confined (hi : inv.Confined R) {callback : Labeled} (hc : callback.In R) :
    ∀ {fields : Fields}, Entries.In R fields →
      Eval.Confined R (forEachField inv callback fields) (Labeled.In R)
  | [], _ => .pure .null
  | (key, v) :: _, hf => by
      obtain ⟨hv, hf⟩ := List.forall_mem_cons.mp hf
      have hvalues : ∀ x ∈ [v, .bare (keyValue key)], x.In R :=
        List.forall_mem_cons.mpr ⟨hv, List.forall_mem_singleton.mpr (.bare (keyValue_in R key))⟩
      exact (callWith_confined hi hc hvalues).bind fun _ _ => forEachField_confined hi hc hf

/-- A new list with values of the region. -/
theorem newList_confined (hs : R.objects scope) {args : Entries} (ha : args.In R) :
    Eval.Confined R (newList scope args) (Labeled.In R) := by
  refine (getField_confined hs _).bind fun proto hproto => ?_
  split
  · rename_i p heq
    exact (allocPlain_confined (hproto.object heq)).bind fun _ hid => (setAll_confined hid ha.positionals).bind
      fun _ _ => (setAll_confined hid
        (.cons (.bare (Value.number_in R _)) (List.forall_mem_nil _))).bind
          fun _ _ => .pure (.bare hid)
  · exact .misuse _

/-- A list of the region gets one more element of the region. -/
theorem appendTo_confined {args : Entries} (ha : args.In R) :
    Eval.Confined R (appendTo args) (Labeled.In R) := by
  rw [appendTo]
  split
  · rename_i id heq
    have hid : R.objects id := (ha.lookup (.name "self")).object heq
    have hv : (args.positional 0).In R := ha.lookup (.index 0)
    exact (getField_confined hid _).bind fun length _ => (expectNumber_confined length _).bind
      fun _ _ => (setAll_confined hid
        (.cons hv (.cons (.bare (Value.number_in R _)) (List.forall_mem_nil _)))).bind
          fun _ _ => .pure hv
  · exact .misuse _

/-- Condition and body are of the region, so every round is confined. -/
theorem loopWhile_confined (hi : inv.Confined R) {condition body : Labeled} (hc : condition.In R)
    (hb : body.In R) : ∀ (rounds : Nat) {last : Labeled}, last.In R →
      Eval.Confined R (loopWhile inv condition body rounds last) (Labeled.In R)
  | 0, _, _ => .starve
  | rounds + 1, _, hlast => by
      refine (callWith_confined hi hc (List.forall_mem_nil _)).bind fun again _ =>
        (expectBoolean_confined again _).bind fun b _ => ?_
      cases b with
      | true =>
        exact (callWith_confined hi hb (List.forall_mem_nil _)).bind fun _ hv =>
          loopWhile_confined hi hc hb rounds hv
      | false => exact .pure hlast

/-- The branch that is taken is of the region. -/
theorem chooseBranch_confined (hi : inv.Confined R) {args : Entries} (ha : args.In R) :
    Eval.Confined R (chooseBranch inv args) (Labeled.In R) := by
  refine (expectBoolean_confined _ _).bind fun taken _ => ?_
  have hbranch : (if taken then args.positional 1 else args.positional 2).In R := by
    cases taken with
    | true => exact ha.lookup (.index 1)
    | false => exact ha.lookup (.index 2)
  generalize (if taken then args.positional 1 else args.positional 2) = branch at hbranch ⊢
  dsimp only
  split
  · exact .pure .null
  · exact callWith_confined hi hbranch (List.forall_mem_nil _)

theorem applyEager_confined (hi : inv.Confined R) (rounds : Nat) (hs : R.objects scope)
    {args : Entries} (ha : args.In R) (which : Builtin) :
    Eval.Confined R (applyEager inv rounds scope args which) (Labeled.In R) := by
  have hself : args.self.In R := ha.lookup (.name "self")
  have hpos : ∀ n, (args.positional n).In R := fun n => ha.lookup (.index n)
  -- the receiver, the positional arguments and the fields of either are of the region
  cases which with
  | object => exact newObject_confined ha
  | forEach =>
    rw [applyEager]
    split
    · rename_i id heq
      have hid : R.objects id := hself.object heq
      have hfields : Eval.Confined R (Eval.ask fun h => h.fields id) (Entries.In R) :=
        .ask fun ha => ⟨ha.fields_eq hid, (ha.closed id hid).fields⟩
      exact hfields.bind fun _ hf => forEachField_confined hi (hpos 0) hf
    · exact .pure .null
  | get => exact (expectKey_confined _ _).bind fun key _ => getValueField_confined hself.value key
  | set =>
    exact (expectKey_confined _ _).bind fun key _ =>
      (Eval.Confined.write fun ha => ha.setValueField hself.value key (hpos 1) true).bind
        fun _ _ => .pure (hpos 1)
  | has =>
    exact (expectKey_confined _ _).bind fun key _ => (getValueField_confined hself.value key).bind
      fun _ _ => .pure (.bare trivial)
  | not => exact (expectBoolean_confined _ _).bind fun _ _ => .pure (.bare trivial)
  | floor | ceil | round | abs => exact onReceiver_confined _ _ args
  | min | max => exact foldNumbers_confined _ _ _ _
  | string =>
    rw [applyEager]
    exact .ask fun ha => ⟨by rw [ha.display_eq (hpos 0).value], .bare trivial⟩
  | stringLength => exact onText_confined _ (fun _ => Value.number_in R _) args
  | toUpperCase | toLowerCase => exact onText_confined _ (fun _ => Value.string_in R _) args
  | contains =>
    exact (expectString_confined _ _).bind fun _ _ => (expectString_confined _ _).bind
      fun _ _ => .pure (.bare trivial)
  | choose => exact chooseBranch_confined hi ha
  | loop => exact loopWhile_confined hi (hpos 0) (hpos 1) rounds .null
  | raise => exact (expectString_confined _ _).bind fun _ _ => .fail _
  | add => exact addValues_confined (hpos 0).value (hpos 1).value
  | subtract | multiply | divide | remainder =>
    exact onNumbers_confined _ (fun _ _ => Value.number_in R _) args
  | less | lessOrEqual | greater | greaterOrEqual =>
    exact onNumbers_confined _ (fun _ _ => Value.boolean_in R _) args
  | equal | notEqual => exact .pure (.bare trivial)
  | constTrue | constFalse | and | or | coalesce => exact .pure .null
  | list => exact newList_confined hs ha
  | listAdd => exact appendTo_confined ha

theorem forced_confined (he : eval.Confined R) (parameters : List Parameter) {args : CallArguments}
    (ha : args.In R) (n : Nat) : Eval.Confined R (forced eval parameters args n) (Labeled.In R) :=
  (evaluatePositional_confined he ha n).bind fun _ hv =>
    (validate_confined (.cons hv (List.forall_mem_nil _)) _).bind fun _ _ => .pure hv

/-- The functions that evaluate their arguments on demand. -/
theorem applyLazy_confined (he : eval.Confined R) {args : CallArguments} (ha : args.In R)
    (which : Builtin) : Eval.Confined R (applyLazy eval args which) (Labeled.In R) := by
  unfold applyLazy
  split
  · exact .pure (.bare trivial)
  · exact .pure (.bare trivial)
  · refine (forced_confined he _ ha 0).bind fun left hl => (expectBoolean_confined left _).bind
      fun b _ => ?_
    cases b with
    | true => exact forced_confined he _ ha 1
    | false => exact .pure hl
  · refine (forced_confined he _ ha 0).bind fun left hl => (expectBoolean_confined left _).bind
      fun b _ => ?_
    cases b with
    | true => exact .pure hl
    | false => exact forced_confined he _ ha 1
  · refine (forced_confined he _ ha 0).bind fun left hl => ?_
    split
    · exact forced_confined he _ ha 1
    · exact .pure hl
  · exact .pure .null

theorem apply_confined (he : eval.Confined R) (hi : inv.Confined R) (rounds : Nat) (which : Builtin)
    (hs : R.objects scope) {args : CallArguments} (ha : args.In R) :
    Eval.Confined R (which.apply eval inv rounds scope args) (Labeled.In R) := by
  rw [apply]
  split
  · exact applyLazy_confined he ha which
  · exact (materialize_confined he ha).bind fun _ hentries =>
      (validate_confined hentries _).bind fun _ _ => applyEager_confined hi rounds hs hentries which

end Builtin

/-! ### Nodes and calls

The two functions that evaluation and calls are made of. -/

/-- A value of the region is bound to names in a scope of the region. -/
theorem bindNames_confined (hs : R.objects scope) {value : Value} (hv : value.In R) :
    ∀ (n : Nat) (names : List String),
      Eval.Confined R (bindNames scope value n names) fun _ => True
  | _, [] => .pure trivial
  | n, name :: names => (getValueField_confined hv (.index n)).bind fun _ hfield =>
      (Eval.Confined.write fun ha => ha.setField hs (.name name) hfield).bind
        fun _ _ => bindNames_confined hs hv (n + 1) names

/-- **One node.** -/
theorem step_confined (he : eval.Confined R) (hi : inv.Confined R) {code : Code}
    (hc : code.InScope R scope) : Eval.Confined R (step eval inv code scope) (Labeled.In R) := by
  obtain ⟨hin, hscope⟩ := hc
  -- constants are the only code that may be evaluated in a scope outside of the region
  by_cases hconst : ∃ v, code = .const v
  · obtain ⟨v, rfl⟩ := hconst
    exact .pure hin
  have hs : R.objects scope := hscope.resolve_right hconst
  have hself : (Labeled.bare (.object scope)).In R := .ofObject hs
  have hproto : R.objects Heap.functionProto := R.builtins _ (by decide)
  cases code with
  | const v => exact absurd ⟨v, rfl⟩ hconst
  | identifier _ name => exact getField_confined hs _
  | literal _ value => exact .pure ⟨by cases value <;> exact trivial, hin⟩
  | bracket _ inner => exact evaluateLabeled_confined he ⟨hin.2, .inl hs⟩
  | field _ target key =>
    exact (he ⟨hin.2, .inl hs⟩).bind fun _ ht => getValueField_confined ht.value key
  | call _ target args =>
    obtain ⟨-, htarget, hargs⟩ := hin
    exact (he ⟨htarget, .inl hs⟩).bind fun _ hcallee => hi hcallee (.withSelf hself hargs hs)
  | send _ target key args =>
    obtain ⟨-, htarget, hargs⟩ := hin
    exact (he ⟨htarget, .inl hs⟩).bind fun _ hreceiver =>
      (getValueField_confined hreceiver.value key).bind fun _ hcallee =>
        hi hcallee (.withSelf hreceiver hargs hs)
  | bind _ name value =>
    exact (evaluateLabeled_confined he ⟨hin.2, .inl hs⟩).bind fun _ hv =>
      (Eval.Confined.write fun ha => ha.setField hs (.name name) hv).bind fun _ _ => .pure hv
  | store _ target key value =>
    obtain ⟨-, htarget, hvalue⟩ := hin
    exact (evaluateLabeled_confined he ⟨hvalue, .inl hs⟩).bind fun _ hv =>
      (he ⟨htarget, .inl hs⟩).bind fun _ ht =>
        (Eval.Confined.write fun ha => ha.setValueField ht.value key hv true).bind
          fun _ _ => .pure hv
  | destructure _ names value =>
    exact (evaluateLabeled_confined he ⟨hin.2, .inl hs⟩).bind fun _ hv =>
      (bindNames_confined hs hv.value 0 names).bind fun _ _ => .pure hv
  | function _ decorators parameters body =>
    -- the new object leads to the scope and to the constants of its code, which are of the region
    have hkind : (ObjectKind.function ⟨decorators, parameters, body⟩ scope).In R := ⟨hs, hin.2⟩
    exact (alloc_confined (.fresh hkind hproto)).bind fun _ hid => .pure ⟨hid, hin.1⟩
  | builtin _ which =>
    have hkind : (ObjectKind.builtin which scope).In R := hs
    exact (alloc_confined (.fresh hkind hproto)).bind fun _ hid => .pure ⟨hid, hin⟩
  | probeScope _ node => exact .interrupt trivial
  | probeField _ target node => exact (he ⟨hin.2, .inl hs⟩).bind fun _ _ => .interrupt trivial

/-- **One call.** -/
theorem dispatch_confined (limits : Limits) (he : eval.Confined R) (hi : inv.Confined R)
    (rounds : Nat) {callee : Labeled} {args : CallArguments} (hc : callee.In R) (ha : args.In R) :
    Eval.Confined R (dispatch (Eval.enter limits) eval inv rounds callee args) (Labeled.In R) := by
  rw [dispatch]
  split
  · rename_i id heq
    have hid : R.objects id := hc.object heq
    have hkind : Eval.Confined R (Eval.ask fun h => (h.get id).kind) (ObjectKind.In R) :=
      .ask fun halike => ⟨congrArg Object.kind (halike.get_eq id hid), (halike.closed id hid).kind⟩
    refine hkind.bind fun kind hk => ?_
    cases kind with
    | plain => exact .fail _
    | function lambda captured => exact .guarded limits (callFunction_confined he hk.2 hk.1 ha)
    | builtin which captured =>
      exact .guarded limits (Builtin.apply_confined he hi rounds which hk ha)
  · exact .fail _

end

/-! ### Evaluation

The induction on the fuel that ties evaluation and calls together. -/

/-- **Evaluation is confined** to every region that the code and the scope are in. -/
theorem evaluate_invoke_confined (R : Region) (limits : Limits) (fuel : Nat) :
    (evaluate limits fuel).Confined R ∧ (invoke limits fuel).Confined R := by
  induction fuel with
  | zero => exact ⟨fun _ => .starve, fun _ _ => .starve⟩
  | succ fuel ih =>
    obtain ⟨he, hi⟩ := ih
    refine ⟨fun hc => ?_, fun hc ha => dispatch_confined limits he hi fuel hc ha⟩
    rw [evaluate_succ]
    exact .leaving hc.code.origin (step_confined he hi hc)

end Protean
