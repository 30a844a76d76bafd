import Mathlib.Data.List.Chain
import Mathlib.Data.List.Duplicate
import Mathlib.Data.List.TakeWhile
import Mathlib.Logic.Relation
import Protean.Proofs.Module.Order

/-!
# Proofs — Module — circles of dependencies

When modules cannot be ordered, what is reported is true.  The path of visits under way has no name
twice, and each name on it requires the one before it (`Trail`), so coming back to a name on the path
closes a circle (`Trail.circle`), and the path is closed before the fuel is used up
(`visit_error`).  The other way round, an order in which every module stands behind its dependencies
leaves no room for a circle (`not_transGen_of_sorted`).

**Ordering fails exactly when it must** (`initialization_order_fails_truly`).

* `Requires`, `Circle`: one module requires another one directly, and a list of names that do so in turn.
* `initializationOrder_error`: what goes wrong after the checks is a circle, and the one that is reported.
-/

namespace Protean.Module

/-- The module named `a` has `b` among its dependencies. -/
def Requires (modules : List Module) (a b : String) : Prop :=
  ∃ m ∈ modules, m.name = a ∧ b ∈ m.dependencies

/-- Names that form a circle: the first comes back as the last, no other comes twice, and each requires
the next. -/
structure Circle (modules : List Module) (circle : List String) : Prop where
  length : 2 ≤ circle.length
  closed : circle.head? = circle.getLast?
  nodup : circle.dropLast.Nodup
  linked : circle.IsChain (Requires modules)

/-- The names of visits under way, innermost first: none stands twice, and each requires the one in
front of it, the innermost the name to be visited next. -/
structure Trail (modules : List Module) (path : List String) (next : String) : Prop where
  subset : ∀ name ∈ path, name ∈ names modules
  nodup : path.Nodup
  linked : (next :: path).IsChain fun a b => Requires modules b a

section
variable {modules order : List Module} {path : List String} {m : Module} {name : String}

namespace Trail

/-- Going down to a prerequisite. -/
theorem push (h : Trail modules path m.name) (hm : m ∈ modules) (hnew : m.name ∉ path)
    (hd : name ∈ m.dependencies) : Trail modules (m.name :: path) name where
  subset := List.forall_mem_cons.mpr ⟨mem_names hm, h.subset⟩
  nodup := List.nodup_cons.mpr ⟨hnew, h.nodup⟩
  linked := .cons_cons ⟨m, hm, rfl, hd⟩ h.linked

/-- The names on a path are names of modules and are different, so there are no more of them than modules. -/
theorem length_le (h : Trail modules path name) : path.length ≤ modules.length := by
  have hle := (List.subperm_of_subset h.nodup h.subset).length_le
  rwa [names, List.length_map] at hle

/-- Coming back to a name on the path closes a circle. -/
theorem circle (h : Trail modules path name) (hmem : name ∈ path) :
    Circle modules (Module.circle path name) := by
  have hsplit := List.takeWhile_append_dropWhile (p := (· != name)) (l := path)
  have hout : name ∉ path.takeWhile (· != name) := fun hin => by
    simpa using List.mem_takeWhile_imp hin
  -- where the path is cut, `name` itself stands
  obtain ⟨older, holder⟩ : ∃ older, path.dropWhile (· != name) = name :: older := by
    cases hdrop : path.dropWhile (· != name) with
    | nil =>
      rw [hdrop, List.append_nil] at hsplit
      rw [hsplit] at hout
      exact absurd hmem hout
    | cons other older =>
      have hhead := List.head?_dropWhile_not (· != name) path
      rw [hdrop] at hhead
      obtain rfl : other = name := by simpa using hhead
      exact ⟨older, rfl⟩
  rw [holder] at hsplit
  have hchain : (name :: path.takeWhile (· != name) ++ [name]).IsChain
      fun a b => Requires modules b a := by
    have hlinked := h.linked
    rw [← hsplit, ← List.cons_append, List.append_cons] at hlinked
    exact hlinked.left_of_append
  refine ⟨by simp [Module.circle], ?_, ?_, ?_⟩
  · rw [Module.circle, List.getLast?_concat]
    rfl
  · rw [Module.circle, List.dropLast_concat, List.nodup_cons, List.mem_reverse, List.nodup_reverse]
    exact ⟨hout, h.nodup.sublist (List.takeWhile_sublist _)⟩
  · rw [← List.isChain_reverse] at hchain
    simpa [Module.circle] using hchain

end Trail

/-! ### Visits that fail

A visit can fail in one way only, by coming back to a name that is on its path. -/

/-- If one of several visits fails, the failure is reported. -/
theorem visitEach_error {f : Module → List Module → Except ModuleError (List Module)}
    {e : ModuleError} : ∀ {ms order : List Module}, visitEach f ms order = .error e →
      ∃ m ∈ ms, ∃ order', f m order' = .error e
  | [], _, h => by cases h
  | m :: ms, order, h => by
      rw [visitEach] at h
      split at h
      · obtain ⟨m', hm', hfail⟩ := visitEach_error h
        exact ⟨m', List.mem_cons_of_mem _ hm', hfail⟩
      · rename_i hfail
        cases h
        exact ⟨m, List.mem_cons_self, order, hfail⟩

/-- **A visit fails only with a circle.**  The path is no longer than the list of modules, so the fuel
never runs out. -/
theorem visit_error {e : ModuleError} : ∀ {fuel : Nat} {path : List String} {m : Module}
    {order : List Module}, m ∈ modules → Trail modules path m.name →
      modules.length < fuel + path.length → visit modules fuel path m order = .error e →
        ∃ circle, e = .cycle circle ∧ Circle modules circle
  | 0, path, m, order, _, htrail, hfuel, _ => by
      have hlength := htrail.length_le
      omega
  | fuel + 1, path, m, order, hm, htrail, hfuel, h => by
      rw [visit] at h
      split at h
      · cases h
      split at h
      · rename_i hpath
        cases h
        exact ⟨_, rfl, htrail.circle (by simpa using hpath)⟩
      rename_i hpath
      split at h
      · cases h
      · rename_i hfail
        cases h
        obtain ⟨m', hm', order', hfail⟩ := visitEach_error hfail
        obtain ⟨hmem, hrequired⟩ := mem_prerequisites hm'
        refine visit_error hmem (htrail.push hm (by simpa using hpath) hrequired) ?_ hfail
        rw [List.length_cons]
        omega

/-- With names that are known and different, the only failure is a circle. -/
theorem initializationOrder_error {e : ModuleError} (hn : (names modules).Nodup)
    (hk : Known modules) (h : initializationOrder modules = .error e) :
    ∃ circle, e = .cycle circle ∧ Circle modules circle := by
  rw [initializationOrder_eq hn hk] at h
  obtain ⟨m, hm, order, hfail⟩ := visitEach_error h
  exact visit_error hm ⟨List.forall_mem_nil _, List.nodup_nil, .singleton _⟩ (Nat.lt_succ_self _) hfail

/-! ### Circles and orders

A circle and a sorted order exclude each other. -/

/-- On a circle, modules require themselves by way of others. -/
theorem Circle.transGen {circle : List String} (h : Circle modules circle) :
    ∃ name, Relation.TransGen (Requires modules) name name := by
  have hstart : ∀ {a b : String} {rest : List String}, (a :: b :: rest).IsChain (Requires modules) →
      ∀ last ∈ (b :: rest).getLast?, Relation.TransGen (Requires modules) a last := by
    intro a b rest
    induction rest generalizing a b with
    | nil =>
      rintro hchain last ⟨⟩
      exact .single (List.isChain_cons_cons.mp hchain).1
    | cons c rest ih =>
      intro hchain last hlast
      rw [List.getLast?_cons_cons] at hlast
      exact .head (List.isChain_cons_cons.mp hchain).1 (ih hchain.tail last hlast)
  obtain ⟨hlength, hclosed, -, hlinked⟩ := h
  rcases circle with _ | ⟨a, _ | ⟨b, rest⟩⟩
  · simp at hlength
  · simp at hlength
  · refine ⟨a, hstart hlinked a ?_⟩
    rw [List.getLast?_cons_cons] at hclosed
    exact hclosed.symm

/-- What a name requires stands before it in a sorted order. -/
theorem idxOf_lt_of_requires (hs : Sorted order) (hperm : order.Perm modules) {a b : String}
    (h : Requires modules a b) : (names order).idxOf b < (names order).idxOf a := by
  obtain ⟨m, hm, rfl, hb⟩ := h
  obtain ⟨before, after, rfl⟩ := List.append_of_mem (hperm.mem_iff.mpr hm)
  have hbefore : b ∈ names before := hs.first before m after rfl b hb
  have hfresh : m.name ∉ names before := by
    have hnodup := hs.nodup
    rw [names_append, names_cons, List.nodup_middle, List.nodup_cons] at hnodup
    exact fun hmem => hnodup.1 (List.mem_append_left _ hmem)
  rw [names_append, names_cons, List.idxOf_append_of_mem hbefore, List.idxOf_append_of_notMem hfresh,
    List.idxOf_cons_self, Nat.add_zero]
  exact List.idxOf_lt_length_of_mem hbefore

/-- In an order where every module stands behind its dependencies, each requirement goes back in the order, so
none comes round to where it started. -/
theorem not_transGen_of_sorted (hs : Sorted order) (hperm : order.Perm modules) (a : String) :
    ¬ Relation.TransGen (Requires modules) a a := by
  have hlt : ∀ {a b : String}, Relation.TransGen (Requires modules) a b →
      (names order).idxOf b < (names order).idxOf a := by
    intro a b h
    induction h with
    | single h => exact idxOf_lt_of_requires hs hperm h
    | tail _ h ih => exact (idxOf_lt_of_requires hs hperm h).trans ih
  exact fun h => Nat.lt_irrefl _ (hlt h)

/-- Modules that pass the first checks are ordered, or there is a circle. -/
theorem initializationOrder_cases (hn : (names modules).Nodup) (hk : Known modules) :
    (∃ order, initializationOrder modules = .ok order ∧
        ¬ ∃ name, Relation.TransGen (Requires modules) name name) ∨
      ∃ circle, initializationOrder modules = .error (.cycle circle) ∧ Circle modules circle := by
  cases h : initializationOrder modules with
  | ok order =>
    obtain ⟨hs, hperm⟩ := initializationOrder_sorted h
    exact .inl ⟨order, rfl, fun ⟨name, hcircle⟩ => not_transGen_of_sorted hs hperm name hcircle⟩
  | error e =>
    obtain ⟨circle, rfl, hcircle⟩ := initializationOrder_error hn hk h
    exact .inr ⟨circle, rfl, hcircle⟩

/-! ### Every failure

All three errors together. -/

/-- What is found twice stands among the names seen before, or twice. -/
theorem duplicateAfter_eq_some : ∀ {modules : List Module} {seen : List String},
    duplicateAfter seen modules = some name →
      (name ∈ seen ∧ name ∈ names modules) ∨ (names modules).Duplicate name
  | [], _, h => by cases h
  | m :: ms, seen, h => by
      rw [duplicateAfter] at h
      split at h
      · rename_i hseen
        cases h
        exact .inl ⟨by simpa using hseen, List.mem_cons_self⟩
      · rcases duplicateAfter_eq_some h with ⟨hmem, hlater⟩ | htwice
        · rcases List.mem_cons.mp hmem with rfl | hmem
          · exact .inr (.cons_mem hlater)
          · exact .inl ⟨hmem, List.mem_cons_of_mem _ hlater⟩
        · exact .inr (.cons_duplicate htwice)

/-- A name is reported as a duplicate exactly if some name is one. -/
theorem duplicate_iff :
    (∃ name, initializationOrder modules = .error (.duplicate name)) ↔ ¬ (names modules).Nodup := by
  constructor
  · rintro ⟨name, h⟩ hn
    rw [initializationOrder, duplicate?_eq_none.mpr hn] at h
    dsimp only at h
    split at h
    · cases h
    · rename_i hunknown
      have hk := unknown?_eq_none.mp hunknown
      rw [← initializationOrder_eq hn hk] at h
      obtain ⟨circle, hcircle, -⟩ := initializationOrder_error hn hk h
      cases hcircle
  · intro hn
    cases hduplicate : duplicate? modules with
    | none => exact absurd (duplicate?_eq_none.mp hduplicate) hn
    | some name => exact ⟨name, by rw [initializationOrder, hduplicate]⟩

theorem duplicate_of_error (h : initializationOrder modules = .error (.duplicate name)) :
    (names modules).Duplicate name := by
  cases hduplicate : duplicate? modules with
  | none => exact absurd (duplicate?_eq_none.mp hduplicate) (duplicate_iff.mp ⟨name, h⟩)
  | some found =>
    rw [initializationOrder, hduplicate] at h
    cases h
    exact (duplicateAfter_eq_some hduplicate).resolve_left fun hseen => List.not_mem_nil hseen.1

/-- Modules without a name twice that have an unknown dependency. -/
theorem initializationOrder_unknown (hn : (names modules).Nodup) (hk : ¬ Known modules) :
    ∃ m d, initializationOrder modules = .error (.unknownDependency m d) ∧
      (∃ x ∈ modules, x.name = m ∧ d ∈ x.dependencies ++ x.runtimeDependencies) ∧
        d ∉ names modules := by
  rw [initializationOrder, duplicate?_eq_none.mpr hn]
  cases hunknown : unknown? modules with
  | none => exact absurd (unknown?_eq_none.mp hunknown) hk
  | some found => exact ⟨found.1, found.2, rfl, unknown?_eq_some hunknown⟩

end

/-- **Ordering fails exactly when it must, and says why.**  A name that is declared twice is reported if
and only if there is one, and what is reported is one.  Otherwise an unknown dependency is reported if and
only if some dependency, of any kind, names no module, and the module that is reported has it.  Otherwise a
circle is reported if and only if the dependencies run in one, and the names that are reported are one;
without one modules are ordered, whatever their runtime dependencies are, and other runtime dependencies
would change nothing. -/
theorem initialization_order_fails_truly (modules : List Module) :
    ((∃ name, initializationOrder modules = .error (.duplicate name)) ↔ ¬ (names modules).Nodup) ∧
    (∀ name, initializationOrder modules = .error (.duplicate name) →
      (names modules).Duplicate name) ∧
    ((names modules).Nodup →
      ((∃ m d, initializationOrder modules = .error (.unknownDependency m d)) ↔ ¬ Known modules) ∧
      ∀ m d, initializationOrder modules = .error (.unknownDependency m d) →
        (∃ x ∈ modules, x.name = m ∧ d ∈ x.dependencies ++ x.runtimeDependencies) ∧
          d ∉ names modules) ∧
    ((names modules).Nodup → Known modules →
      ((∃ circle, initializationOrder modules = .error (.cycle circle)) ↔
        ∃ name, Relation.TransGen (Requires modules) name name) ∧
      (∀ circle, initializationOrder modules = .error (.cycle circle) → Circle modules circle) ∧
      ((¬ ∃ name, Relation.TransGen (Requires modules) name name) →
        ∃ order, initializationOrder modules = .ok order) ∧
      ∀ runtime : Module → List String, (∀ m ∈ modules, ∀ d ∈ runtime m, d ∈ names modules) →
        initializationOrder (modules.map (rewire runtime)) =
          (initializationOrder modules).map (List.map (rewire runtime))) := by
  refine ⟨duplicate_iff, fun _ => duplicate_of_error, fun hn => ?_, fun hn hk => ⟨?_, ?_, ?_, fun runtime hr =>
    initializationOrder_rewire runtime hn hk hr⟩⟩
  -- with all names known, the only failure is a circle
  · by_cases hk : Known modules
    · have hnone : ∀ m d, initializationOrder modules ≠ .error (.unknownDependency m d) := by
        intro m d h
        obtain ⟨circle, hcircle, -⟩ := initializationOrder_error hn hk h
        cases hcircle
      exact ⟨⟨fun ⟨m, d, h⟩ => absurd h (hnone m d), fun h => absurd hk h⟩,
        fun m d h => absurd h (hnone m d)⟩
    -- otherwise the check for unknown names comes before the visits
    · obtain ⟨m, d, hfail, hfound⟩ := initializationOrder_unknown hn hk
      refine ⟨⟨fun _ => hk, fun _ => ⟨m, d, hfail⟩⟩, fun m' d' h => ?_⟩
      rw [hfail] at h
      cases h
      exact hfound
  · rcases initializationOrder_cases hn hk with ⟨order, h, hnone⟩ | ⟨circle, h, hcircle⟩
    · simp [h, hnone]
    · exact ⟨fun _ => hcircle.transGen, fun _ => ⟨circle, h⟩⟩
  · intro circle h
    obtain ⟨circle', heq, hcircle⟩ := initializationOrder_error hn hk h
    cases heq
    exact hcircle
  · intro hnone
    rcases initializationOrder_cases hn hk with ⟨order, h, -⟩ | ⟨circle, -, hcircle⟩
    · exact ⟨order, h⟩
    · exact absurd hcircle.transGen hnone

/-- The theorem at modules two of which need each other and a third that is not to blame. -/
theorem initialization_order_fails_truly_mutual :
    let entry : Module := { name := "entry", dependencies := ["a"] }
    let a : Module := { name := "a", dependencies := ["b"] }
    let b : Module := { name := "b", dependencies := ["a"], runtimeDependencies := ["entry"] }
    let modules := [entry, a, b]
    (names modules).Nodup ∧ Known modules ∧
      initializationOrder modules = .error (.cycle ["a", "b", "a"]) ∧
        Circle modules ["a", "b", "a"] := by
  intro entry a b modules
  have hn : (names modules).Nodup := by decide
  have hk : Known modules := unknown?_eq_none.mp rfl
  have h : initializationOrder modules = .error (.cycle ["a", "b", "a"]) := rfl
  exact ⟨hn, hk, h, ((initialization_order_fails_truly modules).2.2.2 hn hk).2.1 _ h⟩

end Protean.Module
