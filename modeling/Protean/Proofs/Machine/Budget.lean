import Protean.Proofs.Machine.Entry
import Protean.Proofs.Machine.Limits

/-!
# Proofs — Machine — runs with budget enough

What a run does if it is not cut short.  `Eventually p m a m'` says that the evaluation `p`, which depends on
the limits of the run and on fuel, has the result `a` and leaves the machine `m'` as soon as both are large
enough.  Then there is nothing left to say about limits and fuel: a sequence comes out as its parts do
(`Eventually.bind`), and evaluation follows the nodes of the code, one rule for each (`Evaluates`, `Invokes`).

`Machine.Invokes` says it of calls of a machine, which compute their fuel themselves, so it is enough to be
larger than some limits (`Machine.invokes_iff`).

The rules are used forwards: from what the parts of an expression yield, and the machines they leave, the rule for the
expression computes what it yields itself.  That the code has no origin in some of them is no loss: the functions of the
library are lowered without.
-/

namespace Protean

/-! ### Limits

Limits in their order, and the machine with one call more on its account. -/

namespace Limits

variable {limits limits₁ limits₂ : Limits}

theorem Le.refl (limits : Limits) : limits.Le limits := ⟨le_rfl, le_rfl⟩

theorem Le.trans (h : limits.Le limits₁) (h₁ : limits₁.Le limits₂) : limits.Le limits₂ :=
  ⟨h.steps.trans h₁.steps, h.depth.trans h₁.depth⟩

/-- Limits that are no smaller than either. -/
def max (a b : Limits) : Limits := ⟨Nat.max a.maxSteps b.maxSteps, Nat.max a.maxDepth b.maxDepth⟩

/-- Limits are within the larger of two limits, as the first of them. -/
theorem le_max_left (a b : Limits) : a.Le (a.max b) := ⟨Nat.le_max_left _ _, Nat.le_max_left _ _⟩

/-- Limits are within the larger of two limits, as the second of them. -/
theorem le_max_right (a b : Limits) : b.Le (a.max b) := ⟨Nat.le_max_right _ _, Nat.le_max_right _ _⟩

end Limits

/-! ### Rules for evaluations

A rule for every combinator of evaluations: what the parts come to, the whole comes to. -/

/-- With limits and fuel enough, the evaluation has the result `a` and leaves the machine `m'`. -/
def Eventually {α : Type} (p : Limits → Nat → Eval α) (m : Machine) (a : α) (m' : Machine) : Prop :=
  ∃ (limits₀ : Limits) (fuel₀ : Nat), ∀ limits fuel, limits₀.Le limits → fuel₀ ≤ fuel →
    p limits fuel m = (.ok a, m')

namespace Machine

/-- One more call has been made and is under way. -/
def entered (m : Machine) : Machine := ⟨m.heap, m.global, m.steps + 1, m.depth + 1⟩

/-- The call is over. -/
def left (m : Machine) : Machine := ⟨m.heap, m.global, m.steps, m.depth - 1⟩

/-- One more call has been made and is over. -/
def charged (m : Machine) : Machine := ⟨m.heap, m.global, m.steps + 1, m.depth⟩

/-- A call that does nothing is left with one call more on the account. -/
theorem left_entered (m : Machine) : m.entered.left = m.charged := rfl

/-- The same machine with another heap. -/
def withHeap (m : Machine) (h : Heap) : Machine := ⟨h, m.global, m.steps, m.depth⟩

end Machine

/-- A call that the limits let in. -/
theorem Eval.guarded_eq {α : Type} {limits : Limits} {m : Machine}
    (hroom : Limits.Le ⟨m.steps + 1, m.depth + 1⟩ limits) (p : Eval α) :
    Eval.guarded (Eval.enter limits) p m = ((p m.entered).1, (p m.entered).2.left) := by
  obtain ⟨heap, global, steps, depth⟩ := m
  have henter : Eval.enter limits ⟨heap, global, steps, depth⟩ =
      (.ok (), ⟨heap, global, steps + 1, depth + 1⟩) := by
    rw [Eval.enter, if_neg (Nat.not_lt.mpr hroom.steps), if_neg (Nat.not_le.mpr hroom.depth)]
  simp only [Eval.guarded, henter]
  rfl

namespace Eventually

variable {α β : Type} {p p' : Limits → Nat → Eval α} {m m₁ m' : Machine} {a : α} {b : β}

/-- An evaluation that looks at neither limits nor fuel. -/
theorem of_eq (h : ∀ limits fuel, p limits fuel m = (.ok a, m')) : Eventually p m a m' :=
  ⟨{}, 0, fun limits fuel _ _ => h limits fuel⟩

theorem pure (a : α) (m : Machine) : Eventually (fun _ _ => Eval.pure a) m a m := of_eq fun _ _ => rfl

/-- To look at the heap takes no calls. -/
theorem ask (f : Heap → α) (m : Machine) : Eventually (fun _ _ => Eval.ask f) m (f m.heap) m :=
  of_eq fun _ _ => rfl

theorem read {f : Heap → Except HeapError α} (h : f m.heap = .ok a) :
    Eventually (fun _ _ => Eval.read f) m a m :=
  of_eq fun _ _ => by rw [Eval.read, h]

theorem write {f : Heap → Except HeapError Unit × Heap} {h' : Heap} (h : f m.heap = (.ok (), h')) :
    Eventually (fun _ _ => Eval.write f) m () (m.withHeap h') :=
  of_eq fun _ _ => by
    rw [Eval.write, h]
    rfl

/-- A sequence has the result of its second part, on the machine that the first one leaves. -/
theorem bind {q : Limits → Nat → α → Eval β} (hp : Eventually p m a m₁)
    (hq : Eventually (fun limits fuel => q limits fuel a) m₁ b m') :
    Eventually (fun limits fuel => p limits fuel >>= q limits fuel) m b m' := by
  obtain ⟨limits₁, fuel₁, hp⟩ := hp
  obtain ⟨limits₂, fuel₂, hq⟩ := hq
  refine ⟨limits₁.max limits₂, max fuel₁ fuel₂, fun limits fuel hlimits hfuel => ?_⟩
  exact Eval.bind_eq_ok.mpr ⟨a, m₁,
    hp limits fuel ((Limits.le_max_left _ _).trans hlimits) ((le_max_left _ _).trans hfuel),
    hq limits fuel ((Limits.le_max_right _ _).trans hlimits) ((le_max_right _ _).trans hfuel)⟩

/-- One round of the recursion uses one unit of fuel. -/
theorem of_fuel (hp : Eventually p m a m')
    (h : ∀ limits fuel, p limits fuel m = (.ok a, m') → p' limits (fuel + 1) m = (.ok a, m')) :
    Eventually p' m a m' := by
  obtain ⟨limits₀, fuel₀, hp⟩ := hp
  refine ⟨limits₀, fuel₀ + 1, fun limits fuel hlimits hfuel => ?_⟩
  obtain ⟨fuel, rfl⟩ : ∃ n, fuel = n + 1 := ⟨fuel - 1, by omega⟩
  exact h limits fuel (hp limits fuel hlimits (by omega))

/-- A call that is let in and comes to a result is one call more on the account.  A limit for one call more is
enough to let it in. -/
theorem guarded (hp : Eventually p m.entered a m') :
    Eventually (fun limits fuel => Eval.guarded (Eval.enter limits) (p limits fuel)) m a m'.left := by
  obtain ⟨limits₀, fuel₀, hp⟩ := hp
  refine ⟨limits₀.max ⟨m.steps + 1, m.depth + 1⟩, fuel₀, fun limits fuel hlimits hfuel => ?_⟩
  have hrun : p limits fuel m.entered = (.ok a, m') := hp limits fuel ((Limits.le_max_left _ _).trans hlimits) hfuel
  show Eval.guarded (Eval.enter limits) (p limits fuel) m = _
  rw [Eval.guarded_eq ((Limits.le_max_right _ _).trans hlimits), hrun]

end Eventually

/-! ### Evaluation

What code, bodies, arguments and calls come to, with budget enough, as relations of their own. -/

/-- With budget enough, the code evaluates to `v`. -/
def Machine.Evaluates (m : Machine) (code : Code) (scope : ObjectId) (v : Labeled) (m' : Machine) : Prop :=
  Eventually (fun limits fuel => evaluate limits fuel code scope) m v m'

/-- With budget enough, the code evaluates in order, and the last value is `v`. -/
def Machine.EvaluatesAll (m : Machine) (codes : List Code) (scope : ObjectId) (v : Labeled) (m' : Machine) :
    Prop :=
  Eventually (fun limits fuel => runAll (evaluate limits fuel) codes scope) m v m'

/-- With budget enough, the arguments evaluate to the entries. -/
def Machine.Materializes (m : Machine) (args : CallArguments) (entries : Entries) (m' : Machine) : Prop :=
  Eventually (fun limits fuel => materialize (evaluate limits fuel) args) m entries m'

/-- With limits enough, the call yields `v`. -/
def Machine.Invokes (m : Machine) (callee : Labeled) (args : CallArguments) (v : Labeled) (m' : Machine) :
    Prop :=
  ∃ limits₀ : Limits, ∀ limits, limits₀.Le limits → m.call limits callee args = (.ok v, m')

namespace Machine

variable {m m₁ m₂ m' : Machine} {scope : ObjectId} {v w : Labeled} {origin : Option Expr}
  {callee : Labeled} {args : CallArguments}

/-- A run that was not cut short is the same with any larger budget. -/
theorem eventually_of_call {limits : Limits} (h : m.call limits callee args = (.ok v, m')) :
    Eventually (fun limits fuel => invoke limits fuel callee args) m v m' := by
  refine ⟨limits, m.fuelFor limits (Code.argsHeight args.entries), fun limits' fuel hlimits hfuel => ?_⟩
  show invoke limits' fuel callee args m = _
  rw [invoke_agrees Interrupt.lasting_extensible (enter_agrees hlimits) hfuel callee args m]
  · exact h
  · intro i hi
    rw [show invoke limits _ callee args m = _ from h] at hi
    cases hi

/-- The fuel that a call computes is enough, so calls of the machine are calls with fuel enough. -/
theorem invokes_iff :
    m.Invokes callee args v m' ↔ Eventually (fun limits fuel => invoke limits fuel callee args) m v m' := by
  constructor
  · rintro ⟨limits₀, h⟩
    exact eventually_of_call (h limits₀ (.refl _))
  · rintro ⟨limits₀, fuel₀, h⟩
    refine ⟨limits₀, fun limits hlimits => ?_⟩
    have hfuel : m.fuelFor limits (Code.argsHeight args.entries) ≤ max fuel₀ (m.fuelFor limits _) := le_max_right _ _
    rw [← m.invoke_eq_call limits callee args hfuel]
    exact h limits _ hlimits (le_max_left _ _)

/-- A call has one result. -/
theorem Invokes.unique {v' : Labeled} {m'' : Machine} (h : m.Invokes callee args v m')
    (h' : m.Invokes callee args v' m'') : v = v' ∧ m' = m'' := by
  obtain ⟨limits₁, h⟩ := h
  obtain ⟨limits₂, h'⟩ := h'
  have heq := (h _ (Limits.le_max_left limits₁ limits₂)).symm.trans (h' _ (Limits.le_max_right _ _))
  cases heq
  exact ⟨rfl, rfl⟩

/-! ### Nodes

One rule for each node of code that the library has. -/

/-- To evaluate a node takes one more fuel than the functions it is evaluated with. -/
theorem Evaluates.of_step {code : Code}
    (h : Eventually (fun limits fuel => step (evaluate limits fuel) (invoke limits fuel) code scope) m v m') :
    m.Evaluates code scope v m' := by
  refine h.of_fuel fun limits fuel heq => ?_
  rw [evaluate_succ, Eval.leaving, heq]

/-- Code without an origin leaves the label that a value has. -/
theorem Evaluates.labeled {code : Code} (h : m.Evaluates code scope v m') (horigin : code.origin = none) :
    Eventually (fun limits fuel => evaluateLabeled (evaluate limits fuel) code scope) m v m' := by
  have hsource : v.orSource code.origin = v := by
    rw [horigin, Labeled.orSource]
    split
    · rfl
    · next hnone => rw [← hnone]
  refine h.bind (q := fun _ _ v => Pure.pure (v.orSource code.origin)) ?_
  rw [hsource]
  exact .pure v m'

theorem Evaluates.const (m : Machine) (v : Labeled) : m.Evaluates (.const v) scope v m :=
  .of_step (.pure v m)

/-- A name evaluates to what it means in the scope. -/
theorem Evaluates.identifier (m : Machine) (name : String) :
    m.Evaluates (.identifier origin name) scope (m.heap.getField scope (.name name)) m :=
  .of_step (.of_eq fun _ _ => rfl)

/-- A name is what is read in the scope. -/
theorem Evaluates.reads {name : String} (hread : m.heap.getField scope (.name name) = v) :
    m.Evaluates (.identifier origin name) scope v m := hread ▸ .identifier m name

theorem Evaluates.literal (m : Machine) (value : Literal) :
    m.Evaluates (.literal origin value) scope ⟨value.value, origin⟩ m :=
  .of_step (.pure _ m)

/-- A field is read from what its target evaluates to. -/
theorem Evaluates.field {target : Code} {key : Key} (ht : m.Evaluates target scope w m')
    (hread : m'.heap.getValueField w.value key = .ok v) :
    m.Evaluates (.field origin target key) scope v m' :=
  .of_step (Eventually.bind ht (.read hread))

/-- A function is called with the scope as `self`. -/
theorem Evaluates.call {target : Code} {args : List (Argument Code)} (ht : m.Evaluates target scope callee m₁)
    (hcall : m₁.Invokes callee (.withSelf (.bare (.object scope)) args scope) v m') :
    m.Evaluates (.call origin target args) scope v m' :=
  .of_step (Eventually.bind ht (invokes_iff.mp hcall))

/-- A method is looked up on its receiver and called with it as `self`. -/
theorem Evaluates.send {target : Code} {key : Key} {args : List (Argument Code)}
    (ht : m.Evaluates target scope w m₁) (hread : m₁.heap.getValueField w.value key = .ok callee)
    (hcall : m₁.Invokes callee (.withSelf w args scope) v m') :
    m.Evaluates (.send origin target key args) scope v m' :=
  .of_step (Eventually.bind ht (Eventually.bind (.read hread) (invokes_iff.mp hcall)))

/-- A binding evaluates its value and then binds it in the scope. -/
theorem Evaluates.bind {name : String} {value : Code} {h' : Heap} (hv : m.Evaluates value scope v m₁)
    (horigin : value.origin = none) (hwrite : m₁.heap.setField scope (.name name) v = (.ok (), h')) :
    m.Evaluates (.bind origin name value) scope v (m₁.withHeap h') :=
  .of_step (Eventually.bind (hv.labeled horigin) (Eventually.bind (.write hwrite) (.pure v _)))

/-- An assignment evaluates its value, then its target, and then writes. -/
theorem Evaluates.store {target : Code} {key : Key} {value : Code} {h' : Heap}
    (hv : m.Evaluates value scope v m₁) (horigin : value.origin = none) (ht : m₁.Evaluates target scope w m₂)
    (hwrite : m₂.heap.setValueField w.value key v true = (.ok (), h')) :
    m.Evaluates (.store origin target key value) scope v (m₂.withHeap h') :=
  .of_step (Eventually.bind (hv.labeled horigin) (Eventually.bind ht
    (Eventually.bind (.write hwrite) (.pure v _))))

/-- A function evaluates to a new object that holds its code and its scope. -/
theorem Evaluates.function (m : Machine) (decorators : Decorators) (parameters : List Parameter)
    (body : List Code) :
    m.Evaluates (.function origin decorators parameters body) scope ⟨.object m.heap.size, origin⟩
      (m.withHeap (m.heap.allocFunction ⟨decorators, parameters, body⟩ scope).2) :=
  .of_step (.of_eq fun _ _ => rfl)

/-! ### Sequences of code and arguments

Bodies from their expressions, and entries from arguments. -/

/-- The first of several expressions is run, and the others on the machine it leaves. -/
theorem eventually_runFrom {codes : List Code} {code : Code} {last : Labeled}
    (hc : m.Evaluates code scope w m₁) (hcs : Eventually (fun limits fuel =>
      runFrom (evaluate limits fuel) scope codes w) m₁ v m') :
    Eventually (fun limits fuel => runFrom (evaluate limits fuel) scope (code :: codes) last) m v m' :=
  Eventually.bind hc hcs

/-- A body of one expression yields what the expression does. -/
theorem EvaluatesAll.single {code : Code} (hc : m.Evaluates code scope v m') :
    m.EvaluatesAll [code] scope v m' := eventually_runFrom hc (.pure v m')

/-- The values of all expressions but the last are dropped. -/
theorem EvaluatesAll.cons {code next : Code} {codes : List Code} (hc : m.Evaluates code scope w m₁)
    (hcs : m₁.EvaluatesAll (next :: codes) scope v m') : m.EvaluatesAll (code :: next :: codes) scope v m' :=
  eventually_runFrom hc hcs

section
variable {n : Nat} {code : Code} {entries : Entries} {rest : List (Argument Code)}

/-- Arguments from the position `n` on evaluate to the entries. -/
def MaterializesFrom (m : Machine) (scope : ObjectId) (n : Nat) (args : List (Argument Code))
    (entries : Entries) (m' : Machine) : Prop :=
  Eventually (fun limits fuel => materializeFrom (evaluate limits fuel) scope n args) m entries m'

theorem MaterializesFrom.nil (m : Machine) : m.MaterializesFrom scope n [] [] m := .pure _ m

/-- A positional argument is kept under the next index. -/
theorem MaterializesFrom.positional (hc : m.Evaluates code scope v m₁) (horigin : code.origin = none)
    (hrest : m₁.MaterializesFrom scope (n + 1) rest entries m') :
    m.MaterializesFrom scope n (⟨none, code⟩ :: rest) ((.index n, v) :: entries) m' :=
  Eventually.bind (hc.labeled horigin) (Eventually.bind hrest (.pure _ _))

/-- A named argument is kept under its name and takes no index. -/
theorem MaterializesFrom.named {name : String} (hc : m.Evaluates code scope v m₁) (horigin : code.origin = none)
    (hrest : m₁.MaterializesFrom scope n rest entries m') :
    m.MaterializesFrom scope n (⟨some name, code⟩ :: rest) ((.name name, v) :: entries) m' :=
  Eventually.bind (hc.labeled horigin) (Eventually.bind hrest (.pure _ _))

/-- The receiver of a call is a value already. -/
theorem Materializes.withSelf {self : Labeled} {args : List (Argument Code)}
    (hargs : m.MaterializesFrom scope 0 args entries m') :
    m.Materializes (.withSelf self args scope) ((.name "self", self) :: entries) m' :=
  MaterializesFrom.named (.const m self) rfl hargs

end

/-! ### Calls

Calls of builtin functions: the rules for those that evaluate their arguments first. -/

/-- A call takes one more fuel than what it calls. -/
theorem Invokes.of_dispatch
    (h : Eventually (fun limits fuel =>
      dispatch (Eval.enter limits) (evaluate limits fuel) (invoke limits fuel) fuel callee args) m v m') :
    m.Invokes callee args v m' := by
  refine invokes_iff.mpr (h.of_fuel fun limits fuel heq => ?_)
  rw [invoke_succ, heq]

/-- A call of a builtin function that receives its arguments evaluated. -/
theorem Invokes.builtin {id home : ObjectId} {which : Builtin} {entries : Entries}
    (hid : callee.value = .object id) (hkind : (m.heap.get id).kind = .builtin which home)
    (hlazy : which.isLazy = false) (hargs : m.entered.Materializes args entries m₁)
    (hvalid : validate entries which.parameters m₁ = (.ok (), m₁))
    (h : Eventually (fun limits fuel => which.applyEager (invoke limits fuel) fuel home entries) m₁ v m') :
    m.Invokes callee args v m'.left := by
  refine .of_dispatch ?_
  simp only [dispatch, hid]
  refine Eventually.bind (.ask (fun h => (h.get id).kind) m) ?_
  rw [hkind]
  refine Eventually.guarded ?_
  simp only [Builtin.apply, hlazy]
  have hvalidated : Eventually (fun _ _ => validate entries which.parameters) m₁ () m₁ := .of_eq fun _ _ => hvalid
  exact Eventually.bind hargs (Eventually.bind hvalidated h)

end Machine

end Protean
