import Protean.Completion
import Protean.Proofs.Heap.Visible
import Protean.Proofs.Machine.Soundness

/-!
# Proofs — Completion — what is offered can be read

The visible keys of a value are those of its chain that can be read, nearest first
(`visible_keys_are_readable`).  Completion offers the names among them for the receiver of the probe that
stopped the run; the heap in which the run stopped is well-formed, so each name that can be read from the
receiver is offered once.
-/

namespace Protean

/-! ### Names

What is offered: the names of a chain, in the order of its keys. -/

namespace Heap

variable {h : Heap}

/-- The names that can be read from a value, each once, and no others.  The link to the prototype is not
offered. -/
structure Offers (h : Heap) (v : Value) (names : List String) : Prop where
  nodup : names.Nodup
  proto_not_mem : "proto" ∉ names
  mem_iff : ∀ name, Key.name name ≠ .proto →
    (name ∈ names ↔ ∃ w, h.getValueField v (.name name) = .ok w ∧ w.value ≠ .null)

/-- Offered are the names that are visible on the value and can be read from it. -/
theorem mem_candidates_name {v : Value} {range : Span} {name : String} :
    name ∈ (h.candidates v range).map Candidate.name ↔
      Key.name name ∈ h.visibleKeys v ∧ ∃ w, h.getValueField v (.name name) = .ok w := by
  rw [candidates, List.mem_map]
  constructor
  · rintro ⟨candidate, hmem, rfl⟩
    obtain ⟨key, hkey, hcandidate⟩ := List.mem_filterMap.mp hmem
    split at hcandidate
    · next name w hread =>
      cases hcandidate
      exact ⟨hkey, w, hread⟩
    · cases hcandidate
  · rintro ⟨hkey, w, hread⟩
    refine ⟨⟨name, h.documentation w.value, range⟩, List.mem_filterMap.mpr ⟨.name name, hkey, ?_⟩, rfl⟩
    rw [hread]

/-- Keys without repetitions give names without repetitions. -/
theorem nodup_candidates_name (h : Heap) (v : Value) (range : Span) :
    ((h.candidates v range).map Candidate.name).Nodup := by
  rw [candidates, List.map_filterMap]
  refine (h.nodup_visibleKeys v).filterMap fun key key' name hname hname' => ?_
  have hkey : key = .name name := by
    split at hname <;> cases hname
    rfl
  have hkey' : key' = .name name := by
    split at hname' <;> cases hname'
    rfl
  rw [hkey, hkey']

/-- On a well-formed heap, each name that can be read from the value is offered, and only once. -/
theorem WellFormed.offers_candidates (hw : h.WellFormed) (v : Value) (range : Span) :
    h.Offers v ((h.candidates v range).map Candidate.name) where
  nodup := h.nodup_candidates_name v range
  proto_not_mem hmem := hw.proto_not_mem_visibleKeys v (mem_candidates_name.mp hmem).1
  mem_iff name hname := by
    rw [mem_candidates_name, hw.mem_visibleKeys_iff hname]
    exact ⟨And.left, fun hread => ⟨hread, hread.imp fun _ => And.left⟩⟩

end Heap

/-! ### Runs

From the runs of completion to the object whose keys are offered. -/

namespace Interpreter

variable {modules : List Module} {i : Interpreter}

/-- A run of lowered expressions leaves a well-formed heap, however it ends. -/
theorem run_wellFormed (hi : ofModules modules = .ok i) (limits : Limits) (l : Lowering) (exprs : List Expr) :
    (i.run limits (Expr.lowerAll l exprs)).2.heap.WellFormed := by
  have hsound := (bootstrap_sound hi limits).1
  rw [run]
  split <;> rename_i heq <;> rw [heq] at hsound
  · exact (hsound.run limits (Expr.lowerAll_below l _ exprs)).1.wellFormed
  · exact hsound.wellFormed

/-- What is on offer are the candidates of the receiver at which the run stopped. -/
theorem candidates_of_complete {limits : Limits} {text : String} {offset : Nat} {cs : List Candidate}
    (h : i.complete limits text offset = some cs) :
    ∃ signal m range, i.probe limits text offset = (.error (.completion signal), m) ∧
      cs = m.heap.candidates signal.receiver.value range := by
  rw [complete] at h
  split at h
  · next signal m heq =>
    cases h
    exact ⟨signal, m, _, heq, rfl⟩
  · cases h

end Interpreter

/-- **The visible keys are exactly the readable ones.**  On a well-formed heap no key is visible twice on a
value, nothing is visible on null, and a key other than that of the prototype link is visible exactly if it
reads as something other than null.  The keys come in levels, one for each object from the value's own object,
or from the prototype of its primitive, up to the root; a level has the keys of its object, in their order,
that no nearer object owns.  Completion therefore offers each name that can be read from the receiver once. -/
theorem visible_keys_are_readable :
    (∀ h : Heap, h.WellFormed → ∀ v : Value,
      (h.visibleKeys v).Nodup ∧ (v = .null → h.visibleKeys v = []) ∧ .proto ∉ h.visibleKeys v ∧
      (∀ key ≠ .proto, key ∈ h.visibleKeys v ↔ ∃ w, h.getValueField v key = .ok w ∧ w.value ≠ .null) ∧
      (∀ id, Heap.base v = some id → ∃ levels : List (ObjectId × List Key),
        h.Walk id (levels.map Prod.fst) ∧ h.visibleKeys v = levels.flatMap Prod.snd ∧
          ∀ level ∈ levels, h.Level id level)) ∧
    ∀ (modules : List Module) (i : Interpreter), Interpreter.ofModules modules = .ok i →
      ∀ (limits : Limits) (text : String) (offset : Nat) (cs : List Candidate),
        i.complete limits text offset = some cs →
        ∃ signal m, i.probe limits text offset = (.error (.completion signal), m) ∧
          m.heap.Offers signal.receiver.value (cs.map Candidate.name) := by
  refine ⟨fun h hw v => ⟨h.nodup_visibleKeys v, ?_, hw.proto_not_mem_visibleKeys v,
    fun key hkey => hw.mem_visibleKeys_iff hkey v, fun id hv => hw.visibleKeys_levels hv⟩, ?_⟩
  · rintro rfl
    rfl
  · intro modules i hi limits text offset cs hcs
    obtain ⟨signal, m, range, hprobe, rfl⟩ := Interpreter.candidates_of_complete hcs
    have hw : m.heap.WellFormed := by
      have hrun := Interpreter.run_wellFormed hi limits { retain := true, cursor := some offset }
        ((Expr.parse .tolerant text).exprs.getD [])
      rwa [← Interpreter.probe, hprobe] at hrun
    exact ⟨signal, m, hprobe, hw.offers_candidates signal.receiver.value range⟩

/-- The theorem at a field that two objects inherit, and at a function that is called with itself: the field
is visible on both objects, and the field of the function can be read where it is offered. -/
theorem visible_keys_are_readable_inherited :
    Heap.siblings.WellFormed ∧ .name "x" ∈ Heap.siblings.visibleKeys (.object 6) ∧
      .name "y" ∉ Heap.siblings.visibleKeys (.object 6) ∧ Interpreter.ofModules [] = .ok ⟨[]⟩ ∧
      ∃ cs signal m, Interpreter.complete ⟨[]⟩ {} "f = \x7b it.le \x7d\nf.a = 1\nf(f)" 11 = some cs ∧
        Interpreter.probe ⟨[]⟩ {} "f = \x7b it.le \x7d\nf.a = 1\nf(f)" 11 =
          (.error (.completion signal), m) ∧
        ∃ w, m.heap.getValueField signal.receiver.value (.name "a") = .ok w ∧ w.value ≠ .null := by
  obtain ⟨hvisible, hoffered⟩ := visible_keys_are_readable
  have hkeys := (hvisible Heap.siblings Heap.wellFormed_siblings (.object 6)).2.2.2.1
  have hnames : ((Interpreter.complete ⟨[]⟩ {} "f = \x7b it.le \x7d\nf.a = 1\nf(f)" 11).map
      fun cs => (cs.map Candidate.name).elem "a") = some true := by
    decide +kernel
  obtain ⟨cs, hcs, hmem⟩ := Option.map_eq_some_iff.mp hnames
  obtain ⟨signal, m, hprobe, hoffers⟩ := hoffered [] ⟨[]⟩ rfl {} _ 11 cs hcs
  refine ⟨Heap.wellFormed_siblings, (hkeys _ (by decide)).mpr ⟨_, rfl, nofun⟩, ?_, rfl, cs, signal, m, hcs,
    hprobe, (hoffers.mem_iff "a" (by decide)).mp (List.elem_iff.mp hmem)⟩
  rw [hkeys _ (by decide)]
  rintro ⟨w, hread, hne⟩
  cases hread
  exact hne rfl

end Protean
