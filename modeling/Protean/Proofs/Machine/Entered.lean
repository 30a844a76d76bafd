import Protean.Proofs.Heap.Scope
import Protean.Proofs.Machine.Budget

/-!
# Proofs — Machine — calls of functions, step by step

The exact machine on which the body of a function of the language starts.  A call is let in and opens its scope
(`Machine.opening`), evaluates its arguments, and binds them (`Heap.bindCall`); `Machine.Invokes.lambda` is the
rule for such calls.  The arguments count only by what they evaluate to: a call with evaluated arguments is as
good as one that evaluates them first (`Machine.Invokes.of_same_entries`).

The rule starts from what the arguments evaluate to, which the caller knows, and leaves to its user what the body does.
Every machine on the way is sound if the first one is (`Machine.Sound.opening`, `Machine.Sound.bindCall`).
-/

namespace Protean

/-! ### The stages of a call

Each stage as an equation: what it leaves behind is known exactly, so it can be computed. -/

section
variable {α β γ : Type}

theorem Eval.bind_of_ok {p : Eval α} {f : α → Eval β} {m m₁ : Machine} {a : α} (h : p m = (.ok a, m₁)) :
    (p >>= f) m = f a m₁ := by
  show Eval.bind p f m = _
  rw [Eval.bind, h]

theorem Eval.bind_of_error {p : Eval α} {f : α → Eval β} {m m₁ : Machine} {i : Interrupt}
    (h : p m = (.error i, m₁)) : (p >>= f) m = (.error i, m₁) := by
  show Eval.bind p f m = _
  rw [Eval.bind, h]

theorem Eval.bind_assoc (p : Eval α) (f : α → Eval β) (g : β → Eval γ) :
    (p >>= f) >>= g = p >>= fun a => f a >>= g := by
  funext m
  show Eval.bind (Eval.bind p f) g m = Eval.bind p (fun a => Eval.bind (f a) g) m
  simp only [Eval.bind]
  rcases p m with ⟨i | a, m'⟩ <;> rfl

end

/-- The scope is the next object of the heap. -/
theorem openScope_eq (captured : ObjectId) (m : Machine) :
    openScope captured m =
      (.ok m.heap.size, ⟨m.heap.openScope captured, m.global, m.steps, m.depth⟩) := by
  obtain ⟨heap, global, steps, depth⟩ := m
  have hdefine := heap.writeOwn_alloc { proto := some captured } (.name "this") (.bare (.object heap.size))
  simp only [openScope, Eval.change, Heap.allocPlain, Heap.define, Heap.alloc_fst, hdefine]
  rfl

/-- To fill an object that has just been made is to make it with its fields. -/
theorem setAll_alloc (h : Heap) (global : ObjectId) (steps depth : Nat) : ∀ (entries : Entries) (o : Object),
    Key.proto ∉ Fields.keys entries → setAll h.size entries ⟨(h.alloc o).2, global, steps, depth⟩ =
      (.ok (), ⟨(h.alloc { o with
        fields := entries.foldl (fun fields e => fields.write e.1 e.2) o.fields }).2, global, steps, depth⟩)
  | [], _, _ => rfl
  | (key, v) :: rest, o, hkeys => by
      obtain ⟨hkey, hrest⟩ := not_or.mp (List.mem_cons.not.mp hkeys)
      have hwrite : Eval.write (fun h' => h'.setOwn h.size key v) ⟨(h.alloc o).2, global, steps, depth⟩ =
          (.ok (), ⟨(h.alloc { o with fields := o.fields.write key v }).2, global, steps, depth⟩) := by
        rw [Eval.write, Heap.setOwn, if_neg (Ne.symm hkey), h.writeOwn_alloc]
      exact Eval.bind_eq_ok.mpr ⟨(), _, hwrite, setAll_alloc h global steps depth rest _ hrest⟩

theorem collectArguments_eq {entries : Entries} (hkeys : Key.proto ∉ Fields.keys entries) (m : Machine) :
    collectArguments entries m = (.ok m.heap.size,
      ⟨(m.heap.alloc ⟨.plain, entries.fields, some Heap.objectProto⟩).2, m.global, m.steps, m.depth⟩) := by
  obtain ⟨heap, global, steps, depth⟩ := m
  exact Eval.bind_eq_ok.mpr ⟨heap.size, _, rfl,
    Eval.bind_eq_ok.mpr ⟨(), _, setAll_alloc heap global steps depth entries _ hkeys, rfl⟩⟩

/-- What a call does when its arguments are evaluated. -/
def enterBody (eval : Evaluator) (lambda : Lambda) (scope : ObjectId) (entries : Entries) : Eval Labeled := do
  let argsObject ← collectArguments entries
  bindArguments scope argsObject entries
  validate entries lambda.parameters
  runAll eval lambda.body scope

/-- When the arguments have been evaluated, what is left of the call depends on their values only. -/
theorem callFunction_eq {eval : Evaluator} {lambda : Lambda} {captured : ObjectId} {args : CallArguments}
    {m m₁ : Machine} {entries : Entries}
    (hargs : materialize eval args ⟨m.heap.openScope captured, m.global, m.steps, m.depth⟩ =
      (.ok entries, m₁)) :
    callFunction eval lambda captured args m = enterBody eval lambda m.heap.size entries m₁ := by
  rw [callFunction, prepareCall]
  simp only [Eval.bind_assoc]
  rw [Eval.bind_of_ok (openScope_eq captured m), Eval.bind_of_ok hargs]
  rfl

namespace Machine

variable {m m' m₁ m₂ : Machine} {callee v : Labeled} {args args' : CallArguments} {entries : Entries}
  {code : Lambda} {captured id : ObjectId}

/-- A call of a function has been let in and has its scope. -/
def opening (m : Machine) (captured : ObjectId) : Machine :=
  ⟨m.heap.openScope captured, m.global, m.steps + 1, m.depth + 1⟩

/-- A call with enough budget left. -/
theorem invoke_function (hid : callee.value = .object id) (hkind : (m.heap.get id).kind = .function code captured)
    {limits : Limits} {fuel : Nat} (hroom : Limits.Le ⟨m.steps + 1, m.depth + 1⟩ limits)
    (hargs : materialize (evaluate limits fuel) args (m.opening captured) = (.ok entries, m₁)) :
    invoke limits (fuel + 1) callee args m =
      ((enterBody (evaluate limits fuel) code m.heap.size entries m₁).1,
        Eval.leave (enterBody (evaluate limits fuel) code m.heap.size entries m₁).2) := by
  have hguarded : invoke limits (fuel + 1) callee args m =
      Eval.guarded (Eval.enter limits) (callFunction (evaluate limits fuel) code captured args) m := by
    rw [invoke_succ, dispatch, hid]
    show Eval.bind _ _ m = _
    rw [Eval.bind, Eval.ask]
    simp only [hkind]
  have hcall : callFunction (evaluate limits fuel) code captured args m.entered =
      enterBody (evaluate limits fuel) code m.heap.size entries m₁ := callFunction_eq hargs
  rw [hguarded, Eval.guarded_eq hroom, hcall]
  rfl

/-- **Arguments count by what they evaluate to.** -/
theorem Invokes.of_same_entries (hid : callee.value = .object id)
    (hkind : (m.heap.get id).kind = .function code captured) (hheap : m'.heap = m.heap)
    (hargs : (m.opening captured).Materializes args entries m₁)
    (hargs' : (m'.opening captured).Materializes args' entries m₁) (h : m'.Invokes callee args' v m₂) :
    m.Invokes callee args v m₂ := by
  obtain ⟨limits₁, fuel₁, hargs⟩ := hargs
  obtain ⟨limits₂, fuel₂, hargs'⟩ := hargs'
  obtain ⟨limits₃, fuel₃, h⟩ := invokes_iff.mp h
  let room := Limits.max ⟨m.steps + 1, m.depth + 1⟩ ⟨m'.steps + 1, m'.depth + 1⟩
  refine invokes_iff.mpr ⟨((limits₁.max limits₂).max limits₃).max room, fuel₁ + fuel₂ + fuel₃ + 1,
    fun limits fuel hlimits hfuel => ?_⟩
  obtain ⟨fuel, rfl⟩ : ∃ n, fuel = n + 1 := ⟨fuel - 1, by omega⟩
  have hruns := (Limits.le_max_left _ _).trans hlimits
  have hrooms : room.Le limits := (Limits.le_max_right _ _).trans hlimits
  have hargs := hargs limits fuel
    (((Limits.le_max_left _ _).trans (Limits.le_max_left _ _)).trans hruns) (by omega)
  have hargs' := hargs' limits fuel
    (((Limits.le_max_right _ _).trans (Limits.le_max_left _ _)).trans hruns) (by omega)
  have h : invoke limits (fuel + 1) callee args' m' = (.ok v, m₂) :=
    h limits (fuel + 1) ((Limits.le_max_right _ _).trans hruns) (by omega)
  show invoke limits (fuel + 1) callee args m = _
  rw [invoke_function hid (hheap ▸ hkind) ((Limits.le_max_right _ _).trans hrooms) hargs', hheap] at h
  rw [invoke_function hid hkind ((Limits.le_max_left _ _).trans hrooms) hargs]
  exact h

/-- **A call of a function** that declares no parameters. -/
theorem Invokes.lambda (hid : callee.value = .object id)
    (hkind : (m.heap.get id).kind = .function code captured) (hparameters : code.parameters = [])
    (hargs : (m.opening captured).Materializes args entries m₁) (hkeys : Key.proto ∉ Fields.keys entries)
    (hbody : (m₁.withHeap (m₁.heap.bindCall m.heap.size entries)).EvaluatesAll code.body m.heap.size v m₂) :
    m.Invokes callee args v m₂.left := by
  obtain ⟨limits₁, fuel₁, hargs⟩ := hargs
  obtain ⟨limits₂, fuel₂, hbody⟩ := hbody
  refine invokes_iff.mpr ⟨(limits₁.max limits₂).max ⟨m.steps + 1, m.depth + 1⟩, fuel₁ + fuel₂ + 1,
    fun limits fuel hlimits hfuel => ?_⟩
  obtain ⟨fuel, rfl⟩ : ∃ n, fuel = n + 1 := ⟨fuel - 1, by omega⟩
  have hruns := (Limits.le_max_left _ _).trans hlimits
  have hargs := hargs limits fuel ((Limits.le_max_left _ _).trans hruns) (by omega)
  have hbody := hbody limits fuel ((Limits.le_max_right _ _).trans hruns) (by omega)
  have henter : enterBody (evaluate limits fuel) code m.heap.size entries m₁ = (.ok v, m₂) := by
    refine Eval.bind_eq_ok.mpr ⟨_, _, collectArguments_eq hkeys m₁, ?_⟩
    refine Eval.bind_eq_ok.mpr ⟨(), _, rfl, ?_⟩
    refine Eval.bind_eq_ok.mpr ⟨(), _, by rw [hparameters]; rfl, ?_⟩
    exact hbody
  show invoke limits (fuel + 1) callee args m = _
  rw [invoke_function hid hkind ((Limits.le_max_right _ _).trans hlimits) hargs, henter]
  rfl

/-! ### Sound machines

Calls keep machines sound, and so do the stages of one. -/

/-- What a run with budget enough leaves of a sound machine. -/
theorem Evaluates.sound {scope : ObjectId} {code : Code} (h : m.Evaluates code scope v m') (hm : m.Sound)
    (hcode : code.Below m.heap.size) (hscope : scope < m.heap.size) :
    m'.Sound ∧ m.heap.Extends m'.heap ∧ v.Below m'.heap.size := by
  obtain ⟨limits, fuel, h⟩ := h
  have hrun : evaluate limits fuel code scope m = (.ok v, m') := h limits fuel (.refl _) le_rfl
  obtain ⟨hs, hext, hv⟩ := evaluate_safe limits fuel hcode hscope m hm le_rfl
  rw [hrun] at hs hext hv
  exact ⟨hs, hext, hv v rfl⟩

/-- A call leaves a sound machine and yields a value of it. -/
theorem Invokes.sound (h : m.Invokes callee args v m') (hm : m.Sound) (hcallee : callee.Below m.heap.size)
    (hargs : args.Below m.heap.size) : m'.Sound ∧ m.heap.Extends m'.heap ∧ v.Below m'.heap.size := by
  obtain ⟨limits, fuel, h⟩ := invokes_iff.mp h
  have hrun : invoke limits fuel callee args m = (.ok v, m') := h limits fuel (.refl _) le_rfl
  obtain ⟨hs, hext, hv⟩ := invoke_safe limits fuel hcallee hargs m hm le_rfl
  rw [hrun] at hs hext hv
  exact ⟨hs, hext, hv v rfl⟩

theorem Materializes.sound (h : m.Materializes args entries m') (hm : m.Sound) (hargs : args.Below m.heap.size) :
    m'.Sound ∧ m.heap.Extends m'.heap ∧ entries.Below m'.heap.size := by
  obtain ⟨limits, fuel, h⟩ := h
  have hrun : materialize (evaluate limits fuel) args m = (.ok entries, m') := h limits fuel (.refl _) le_rfl
  obtain ⟨hs, hext, hentries⟩ := materialize_safe (evaluate_safe limits fuel) hargs m hm le_rfl
  rw [hrun] at hs hext hentries
  exact ⟨hs, hext, hentries entries rfl⟩

/-- The new scope of a call is sound. -/
theorem Sound.opening (hm : m.Sound) (hcaptured : captured < m.heap.size) : (m.opening captured).Sound := by
  have hs := (openScope_safe hcaptured m.entered ⟨hm.consistent, hm.global_lt⟩ le_rfl).1
  rwa [openScope_eq] at hs

theorem Sound.bindCall {scope : ObjectId} (hm : m.Sound) (hscope : scope < m.heap.size)
    (hentries : entries.Below m.heap.size) (hkeys : Key.proto ∉ Fields.keys entries) :
    (m.withHeap (m.heap.bindCall scope entries)).Sound := by
  have hs := (collectArguments_safe hentries m hm le_rfl).1
  rw [collectArguments_eq hkeys] at hs
  have hle : m.heap.size ≤ (m.heap.alloc ⟨.plain, entries.fields, some Heap.objectProto⟩).2.size := by
    rw [Heap.size_alloc]
    exact Nat.le_succ _
  have hlt : m.heap.size < (m.heap.alloc ⟨.plain, entries.fields, some Heap.objectProto⟩).2.size := by
    rw [Heap.size_alloc]
    exact Nat.lt_succ_self _
  exact (bindArguments_safe (hscope.trans_le hle) hlt (hentries.mono hle) _ hs le_rfl).1

/-- To bind a name in a scope keeps the machine sound. -/
theorem Sound.define {name : String} (hm : m.Sound) (hid : id < m.heap.size) (hname : name ≠ "proto")
    (hv : v.Below m.heap.size) : (m.withHeap (m.heap.define id name v)).Sound :=
  ⟨define_consistent hm.consistent hid hname hv, (Heap.size_writeOwn ..).symm ▸ hm.global_lt⟩

end Machine

end Protean
