import Protean.Machine.Evaluate
import Protean.Proofs.Code.Closed

/-!
# Proofs — Machine — safety of evaluation

Evaluation keeps the heap consistent, whatever its outcome, and only ever adds objects to it.

`Eval.Safe n p V` says so of an evaluation `p` that mentions only the first `n` objects: started on a
sound machine with at least `n` objects, it leaves a sound machine whose heap extends the one before,
and a result satisfies `V` for the number of objects that are there then.  The rule for sequences
(`Safe.bind`) lets what follows rely on the objects that were added meanwhile.

The evaluator is taken apart the way it is put together: one lemma for each function that passes
arguments, each builtin function and each node, all for an evaluator and an invoker that are safe
themselves, and then one induction on the fuel (`evaluate_safe`, `invoke_safe`).
-/

namespace Protean

/-- The heap is consistent and the global scope is on it. -/
structure Machine.Sound (m : Machine) : Prop where
  consistent : m.heap.Consistent
  global_lt : m.global < m.heap.size

namespace Machine.Sound

variable {m : Machine}

theorem wellFormed (hm : m.Sound) : m.heap.WellFormed := hm.consistent.wellFormed

end Machine.Sound

/-- Evaluation that mentions only the first `n` objects. -/
def Eval.Safe {α : Type} (n : Nat) (p : Eval α) (V : Nat → α → Prop) : Prop :=
  ∀ m : Machine, m.Sound → n ≤ m.heap.size →
    (p m).2.Sound ∧ m.heap.Extends (p m).2.heap ∧
      ∀ a, (p m).1 = .ok a → V (p m).2.heap.size a

/-- Counting a call leaves the heap and the global scope as they are. -/
def Eval.OnlyCounts (enter : Eval Unit) : Prop :=
  ∀ m : Machine, (enter m).2.heap = m.heap ∧ (enter m).2.global = m.global

/-- The value is no object or one of the first `n`. -/
def Labeled.Below (n : Nat) (v : Labeled) : Prop := v.value.Below n

/-- The values of all entries are among the first `n` objects. -/
def Entries.Below (n : Nat) (entries : Entries) : Prop := ∀ e ∈ entries, e.2.Below n

/-- The scope and the constants of the arguments are among the first `n` objects. -/
structure CallArguments.Below (n : Nat) (args : CallArguments) : Prop where
  entries : Code.ArgsBelow n args.entries
  scope_lt : args.scope < n

/-! ### Rules for evaluations

One rule for each combinator.  What an evaluation may mention is bounded by the number of objects at its
start, and what its result mentions by the number at its end. -/

/-- To let in a call changes the counts and nothing else. -/
theorem Eval.onlyCounts_enter (limits : Limits) : (Eval.enter limits).OnlyCounts := by
  intro m
  rw [Eval.enter]
  split
  · exact ⟨rfl, rfl⟩
  · split <;> exact ⟨rfl, rfl⟩

namespace Eval.Safe

variable {α β : Type} {n : Nat} {V : Nat → α → Prop} {W : Nat → β → Prop}

/-- A result that mentions objects which are there. -/
theorem pure {a : α} (ha : ∀ k, n ≤ k → V k a) : Safe n (Eval.pure a) V := by
  intro m hm hn
  refine ⟨hm, .refl _, fun b hb => ?_⟩
  cases hb
  exact ha _ hn

/-- The second part may rely on the objects that the first one has added. -/
theorem bind {p : Eval α} {f : α → Eval β} (hp : Safe n p V)
    (hf : ∀ k a, n ≤ k → V k a → Safe k (f a) W) : Safe n (p >>= f) W := by
  intro m hm hn
  obtain ⟨hm', hext, hV⟩ := hp m hm hn
  show (Eval.bind p f m).2.Sound ∧ m.heap.Extends (Eval.bind p f m).2.heap ∧
    ∀ b, (Eval.bind p f m).1 = .ok b → W (Eval.bind p f m).2.heap.size b
  rcases hpm : p m with ⟨_ | a, m'⟩ <;> simp only [hpm, Eval.bind] at hm' hext hV ⊢
  · exact ⟨hm', hext, fun b hb => by cases hb⟩
  · obtain ⟨hm'', hext', hW⟩ := hf _ a (hn.trans hext.size_le) (hV a rfl) m' hm' le_rfl
    exact ⟨hm'', hext.trans hext', hW⟩

/-- An interrupt leaves the heap as it is. -/
theorem interrupt (i : Interrupt) : Safe n (Eval.interrupt i) V := by
  intro m hm _
  exact ⟨hm, .refl _, fun a ha => by cases ha⟩

theorem fail (f : Failure) : Safe n (Eval.fail f) V := interrupt _

theorem misuse (what : Misuse) : Safe n (Eval.misuse what) V := interrupt _

/-- A question with an answer that is fine on every consistent heap. -/
theorem ask {f : Heap → α} (hf : ∀ h : Heap, h.Consistent → n ≤ h.size → V h.size (f h)) :
    Safe n (Eval.ask f) V := by
  intro m hm hn
  refine ⟨hm, .refl _, fun a ha => ?_⟩
  cases ha
  exact hf m.heap hm.consistent hn

theorem read {f : Heap → Except HeapError α}
    (hf : ∀ h : Heap, h.Consistent → ∀ a, f h = .ok a → V h.size a) : Safe n (Eval.read f) V := by
  intro m hm hn
  rcases hfm : f m.heap with _ | a <;> simp only [Eval.read, hfm]
  · exact ⟨hm, .refl _, fun b hb => by cases hb⟩
  · refine ⟨hm, .refl _, fun b hb => ?_⟩
    cases hb
    exact hf m.heap hm.consistent a hfm

/-- A change that keeps the heap consistent and extends it. -/
theorem change {f : Heap → α × Heap}
    (hf : ∀ h : Heap, h.Consistent → n ≤ h.size →
      (f h).2.Consistent ∧ h.Extends (f h).2 ∧ V (f h).2.size (f h).1) :
    Safe n (Eval.change f) V := by
  intro m hm hn
  obtain ⟨hc, hext, hV⟩ := hf m.heap hm.consistent hn
  refine ⟨⟨hc, Nat.lt_of_lt_of_le hm.global_lt hext.size_le⟩, hext, fun a ha => ?_⟩
  cases ha
  exact hV

theorem write {f : Heap → Except HeapError Unit × Heap}
    (hf : ∀ h : Heap, h.Consistent → n ≤ h.size → (f h).2.Consistent ∧ h.Extends (f h).2) :
    Safe n (Eval.write f) fun _ _ => True := by
  intro m hm hn
  obtain ⟨hc, hext⟩ := hf m.heap hm.consistent hn
  have hglobal := Nat.lt_of_lt_of_le hm.global_lt hext.size_le
  rcases hfm : f m.heap with ⟨_ | _, h'⟩ <;> simp only [hfm] at hc hext hglobal <;>
    simp only [Eval.write, hfm]
  · exact ⟨⟨hc, hglobal⟩, hext, fun _ _ => trivial⟩
  · exact ⟨⟨hc, hglobal⟩, hext, fun _ _ => trivial⟩

/-- The note that an error takes is not on the heap. -/
theorem leaving {p : Eval α} (origin : Option Expr) (hp : Safe n p V) :
    Safe n (Eval.leaving origin p) V := by
  intro m hm hn
  have h := hp m hm hn
  rcases hpm : p m with ⟨(e | _ | _) | a, m'⟩ <;> simp only [Eval.leaving, hpm] at h ⊢
  · exact ⟨h.1, h.2.1, fun a ha => by cases ha⟩
  all_goals exact h

/-- A call is safe if it is inside, for only the counts are changed around it. -/
theorem guarded {enter : Eval Unit} (henter : enter.OnlyCounts) {p : Eval α} (hp : Safe n p V) :
    Safe n (Eval.guarded enter p) V := by
  intro m hm hn
  have hsame := henter m
  rcases hem : enter m with ⟨_ | _, m'⟩ <;>
    simp only [hem, Eval.guarded] at hsame ⊢ <;> obtain ⟨hheap, hglobal⟩ := hsame
  · exact ⟨⟨hheap ▸ hm.consistent, by rw [hheap, hglobal]; exact hm.global_lt⟩,
      hheap ▸ .refl _, fun a ha => by cases ha⟩
  · have hm' : m'.Sound := ⟨hheap ▸ hm.consistent, by rw [hheap, hglobal]; exact hm.global_lt⟩
    obtain ⟨hs, hext, hV⟩ := hp m' hm' (hheap ▸ hn)
    exact ⟨⟨hs.consistent, hs.global_lt⟩, hheap ▸ hext, hV⟩

end Eval.Safe

/-! ### Operations of the heap

Each operation of the heap as an evaluation, by the lemma that it keeps a heap well-formed. -/

section
variable {n : Nat} {id : ObjectId} {key : Key} {v : Labeled}

/-- A value stays one of the heap when objects are added. -/
theorem Labeled.Below.mono {k : Nat} (hn : n ≤ k) (hv : v.Below n) : v.Below k :=
  Value.Below.mono hn hv

theorem Entries.Below.mono {k : Nat} {entries : Entries} (hn : n ≤ k) (he : entries.Below n) :
    entries.Below k := fun e hmem => (he e hmem).mono hn

theorem CallArguments.Below.mono {k : Nat} {args : CallArguments} (hn : n ≤ k)
    (ha : args.Below n) : args.Below k :=
  ⟨Code.argsBelow_mono hn _ ha.entries, Nat.lt_of_lt_of_le ha.scope_lt hn⟩

theorem setOwn_safe (hid : id < n) (hv : v.Below n) :
    Eval.Safe n (Eval.write fun h => h.setOwn id key v) fun _ _ => True :=
  .write fun h hc hn =>
    have hch := Heap.Change.setOwn key (Nat.lt_of_lt_of_le hid hn) (hv.mono hn)
    ⟨hc.update hch (h.size_setOwn id key v), hch.toExtends⟩

/-- A write to a field, wherever the field is. -/
theorem setField_safe (hid : id < n) (hv : v.Below n) :
    Eval.Safe n (Eval.write fun h => h.setField id key v) fun _ _ => True :=
  .write fun h hc hn =>
    have hch := Heap.Change.setField key (Nat.lt_of_lt_of_le hid hn) (hv.mono hn)
    ⟨hc.update hch (h.size_setField id key v), hch.toExtends⟩

/-- A write to a field of a value. -/
theorem setValueField_safe {target : Value} (own : Bool) (ht : target.Below n) (hv : v.Below n) :
    Eval.Safe n (Eval.write fun h => h.setValueField target key v own) fun _ _ => True :=
  .write fun h hc hn =>
    have hch := Heap.Change.setValueField key own (ht.mono hn) (hv.mono hn)
    ⟨hc.update hch (h.size_setValueField target key v own), hch.toExtends⟩

/-- The field of an object holds a value of the heap. -/
theorem getField_safe : Eval.Safe n (Eval.ask fun h => h.getField id key) Labeled.Below :=
  .ask fun _ hc _ => hc.wellFormed.getField_below

theorem getValueField_safe {target : Value} :
    Eval.Safe n (Eval.read fun h => h.getValueField target key) Labeled.Below :=
  .read fun _ hc _ hv => hc.wellFormed.getValueField_below hv

/-- A new object, with a prototype that is there. -/
theorem allocPlain_safe {proto : Option ObjectId} (hp : ∀ p, proto = some p → p < n) :
    Eval.Safe n (Eval.change fun h => h.allocPlain proto) fun k id => id < k :=
  .change fun h hc hn =>
    have hch := Heap.Change.allocPlain fun p hpp => Nat.lt_of_lt_of_le (hp p hpp) hn
    ⟨hc.alloc hch trivial, hch.toExtends, by simp [Heap.allocPlain]⟩

theorem allocObject_safe :
    Eval.Safe n (Eval.change fun h => h.allocPlain (some Heap.objectProto)) fun k id => id < k :=
  .change fun h hc _ =>
    ⟨hc.alloc .allocObject trivial, h.extends_alloc _, by simp [Heap.allocPlain]⟩

/-- A name is bound to a value of the heap, unless the name is kept for the prototype. -/
theorem define_consistent {h : Heap} {name : String} (hc : h.Consistent) (hid : id < h.size)
    (hname : name ≠ "proto") (hv : v.Below h.size) : (h.define id name v).Consistent :=
  hc.update (.define hid hname hv) (h.size_writeOwn id _ v)

end

/-! ### Passing arguments

From single expressions to the call of a function: what is evaluated earlier stays on the heap while what
comes later is evaluated. -/

/-- An evaluator that is safe on all code in all scopes. -/
def Evaluator.Safe (eval : Evaluator) : Prop :=
  ∀ {n : Nat} {code : Code} {scope : ObjectId}, code.Below n → scope < n →
    Eval.Safe n (eval code scope) Labeled.Below

section
variable {eval : Evaluator} {n : Nat} {scope : ObjectId}

/-- A label that is added does not change the value. -/
theorem Labeled.orSource_value (v : Labeled) (origin : Option Expr) :
    (v.orSource origin).value = v.value := by
  rw [orSource]
  split <;> rfl

theorem evaluateLabeled_safe (he : eval.Safe) {code : Code} (hc : code.Below n) (hs : scope < n) :
    Eval.Safe n (evaluateLabeled eval code scope) Labeled.Below := by
  refine (he hc hs).bind fun k v _ hv => .pure fun k' hk' => ?_
  rw [Labeled.Below, Labeled.orSource_value]
  exact hv.mono hk'

/-- Expressions are run one after the other, each on the objects that are there by then. -/
theorem runFrom_safe (he : eval.Safe) : ∀ {codes : List Code} {n : Nat} {last : Labeled},
    Code.BodyBelow n codes → scope < n → last.Below n →
      Eval.Safe n (runFrom eval scope codes last) Labeled.Below
  | [], _, _, _, _, hlast => .pure fun _ hk => hlast.mono hk
  | _ :: _, _, _, ⟨hc, hcs⟩, hs, _ =>
      (he hc hs).bind fun _ _ hk hv =>
        runFrom_safe he (Code.bodyBelow_mono hk _ hcs) (Nat.lt_of_lt_of_le hs hk) hv

theorem runAll_safe (he : eval.Safe) {codes : List Code} (hc : Code.BodyBelow n codes)
    (hs : scope < n) : Eval.Safe n (runAll eval codes scope) Labeled.Below :=
  runFrom_safe he hc hs trivial

/-- Putting an evaluated argument in front of those evaluated after it. -/
theorem consEntry_safe {key : Key} {v : Labeled} {p : Eval Entries} (hv : v.Below n)
    (hp : Eval.Safe n p Entries.Below) :
    Eval.Safe n (p >>= fun rest => pure ((key, v) :: rest)) Entries.Below :=
  hp.bind fun _ _ hk hrest => .pure fun _ hk' e hmem => by
    rcases List.mem_cons.mp hmem with rfl | hmem
    · exact hv.mono (hk.trans hk')
    · exact (hrest e hmem).mono hk'

/-- The values of earlier arguments are still there when later ones have been evaluated. -/
theorem materializeFrom_safe (he : eval.Safe) :
    ∀ {args : List (Argument Code)} {n i : Nat}, Code.ArgsBelow n args → scope < n →
      Eval.Safe n (materializeFrom eval scope i args) Entries.Below
  | [], _, _, _, _ => .pure fun _ _ e hmem => by cases hmem
  | ⟨some _, _⟩ :: _, _, _, ⟨hc, hargs⟩, hs | ⟨none, _⟩ :: _, _, _, ⟨hc, hargs⟩, hs =>
      (evaluateLabeled_safe he hc hs).bind fun _ _ hk hv =>
        consEntry_safe hv
          (materializeFrom_safe he (Code.argsBelow_mono hk _ hargs) (Nat.lt_of_lt_of_le hs hk))

theorem materialize_safe (he : eval.Safe) {args : CallArguments} (ha : args.Below n) :
    Eval.Safe n (materialize eval args) Entries.Below :=
  materializeFrom_safe he ha.entries ha.scope_lt

/-- One of several arguments mentions no more objects than all of them. -/
theorem CallArguments.Below.positional? {args : CallArguments} {i : Nat} {code : Code}
    (ha : args.Below n) (hc : args.positional? i = some code) : code.Below n := by
  obtain ⟨a, hget, rfl⟩ := Option.map_eq_some_iff.mp hc
  exact ha.entries.of_mem (List.mem_of_mem_filter (List.mem_of_getElem? hget))

/-- A single argument, for functions that do not evaluate all of them. -/
theorem evaluatePositional_safe (he : eval.Safe) {args : CallArguments} (i : Nat)
    (ha : args.Below n) : Eval.Safe n (evaluatePositional eval args i) Labeled.Below := by
  rw [evaluatePositional]
  split
  · rename_i code hc
    exact evaluateLabeled_safe he (ha.positional? hc) ha.scope_lt
  · exact .pure fun _ _ => trivial

/-- What is looked up among entries is one of their values, or null. -/
theorem Entries.Below.lookup {entries : Entries} (he : entries.Below n) (key : Key) :
    (entries.lookup key).Below n := by
  rw [Entries.lookup]
  cases hf : Fields.find? key entries with
  | none => trivial
  | some v => exact he _ (Fields.mem_of_find? hf)

theorem validateOne_safe (parameter : Parameter) (v : Labeled) :
    Eval.Safe n (validateOne parameter v) fun _ _ => True := by
  intro m hm _
  rw [validateOne]
  split <;> exact ⟨hm, .refl _, fun _ _ => trivial⟩

theorem validate_safe (entries : Entries) :
    ∀ {parameters : List Parameter} {n : Nat},
      Eval.Safe n (validate entries parameters) fun _ _ => True
  | [], _ => .pure fun _ _ => trivial
  | _ :: _, _ => (validateOne_safe _ _).bind fun _ _ _ _ => validate_safe entries

/-- An object is filled with values of the heap. -/
theorem setAll_safe {id : ObjectId} : ∀ {fields : Fields} {n : Nat}, id < n →
    Entries.Below n fields → Eval.Safe n (setAll id fields) fun _ _ => True
  | [], _, _, _ => .pure fun _ _ => trivial
  | _ :: _, _, hid, hf =>
      (setOwn_safe hid (hf _ List.mem_cons_self)).bind fun _ _ hk _ =>
        setAll_safe (Nat.lt_of_lt_of_le hid hk)
          fun e hmem => (hf e (List.mem_cons_of_mem _ hmem)).mono hk

/-- A new scope, around which there is one of the heap. -/
theorem openScope_safe {captured : ObjectId} (hc : captured < n) :
    Eval.Safe n (openScope captured) fun k id => id < k := by
  refine .change fun h hcons hn => ?_
  have hch : h.Change (h.allocPlain (some captured)).2 :=
    .allocPlain fun p hp => by cases hp; exact Nat.lt_of_lt_of_le hc hn
  have hnew : h.size < (h.allocPlain (some captured)).2.size := by simp [Heap.allocPlain]
  refine ⟨define_consistent (hcons.alloc hch trivial) hnew (by decide) hnew, ?_, ?_⟩
  · exact hch.toExtends.trans (Heap.extends_writeOwn _ _ _ _)
  · exact hnew.trans_eq (Heap.size_writeOwn _ _ _ _).symm

/-- The object with the arguments of a call. -/
theorem collectArguments_safe {entries : Entries} (he : entries.Below n) :
    Eval.Safe n (collectArguments entries) fun k id => id < k :=
  allocObject_safe.bind fun _ _ hk hid =>
    (setAll_safe hid (he.mono hk)).bind fun _ _ hk' _ =>
      .pure fun _ hk'' => Nat.lt_of_lt_of_le hid (hk'.trans hk'')

/-- The bindings that a call makes in its scope. -/
theorem bindArguments_safe {argsObject : ObjectId} {entries : Entries} (hs : scope < n)
    (ha : argsObject < n) (he : entries.Below n) :
    Eval.Safe n (bindArguments scope argsObject entries) fun _ _ => True := by
  refine .change fun h hc hn => ⟨?_, ?_, trivial⟩
  · have hlt := Nat.lt_of_lt_of_le hs hn
    have hlookup := fun key => ((he.mono hn).lookup key)
    refine define_consistent (define_consistent (define_consistent hc hlt (by decide)
      (Nat.lt_of_lt_of_le ha hn)) ?_ (by decide) ?_) ?_ (by decide) ?_ <;>
      simp only [Heap.define, Heap.size_writeOwn]
    · exact hlt
    · exact hlookup _
    · exact hlt
    · exact hlookup _
  · exact ((h.extends_writeOwn _ _ _).trans (Heap.extends_writeOwn _ _ _ _)).trans
      (Heap.extends_writeOwn _ _ _ _)

/-- All that a call does before its body is run. -/
theorem prepareCall_safe (he : eval.Safe) {lambda : Lambda} {captured : ObjectId}
    {args : CallArguments} (hc : captured < n) (ha : args.Below n) :
    Eval.Safe n (prepareCall eval lambda captured args) fun k id => id < k :=
  (openScope_safe hc).bind fun _ _ hk₁ hscope =>
    (materialize_safe he (ha.mono hk₁)).bind fun _ _ hk₂ hentries =>
      (collectArguments_safe hentries).bind fun _ _ hk₃ hargs =>
        (bindArguments_safe (Nat.lt_of_lt_of_le hscope (hk₂.trans hk₃)) hargs
          (hentries.mono hk₃)).bind fun _ _ hk₄ _ =>
          (validate_safe _).bind fun _ _ hk₅ _ => .pure fun _ hk₆ =>
            Nat.lt_of_lt_of_le hscope
              (hk₂.trans (hk₃.trans (hk₄.trans (hk₅.trans hk₆))))

/-- A call of a function with a body of the heap. -/
theorem callFunction_safe (he : eval.Safe) {lambda : Lambda} {captured : ObjectId}
    {args : CallArguments} (hb : Code.BodyBelow n lambda.body) (hc : captured < n)
    (ha : args.Below n) : Eval.Safe n (callFunction eval lambda captured args) Labeled.Below :=
  (prepareCall_safe he hc ha).bind fun _ _ hk hscope =>
    runAll_safe he (Code.bodyBelow_mono hk _ hb) hscope

end

end Protean
