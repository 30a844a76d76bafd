import Mathlib.Data.List.Nodup
import Mathlib.Data.List.Perm.Basic
import Protean.Module.Order

/-!
# Proofs — Module — the order of modules

Modules are visited depth first, and a module joins the order when all that it needs has joined it.  So
the order is *sorted* at every moment: no name stands in it twice, and every module stands behind its
dependencies.  A visit only adds to the order, and nothing whose name stands on the path of visits under
way (`Visited`).

* `visit_visited` and `visitEach_visited`: what a visit that succeeds does.
* `initializationOrder_of_sorted`: modules that are sorted already stay as they are.
* `initializationOrder_rewire`: runtime dependencies make no difference.

**The order is a stable topological sort** (`initialization_order_sorts`).
-/

namespace Protean.Module

/-! ### Names and dependencies

Modules go by their names, which have to be different for that. -/

/-- The names of modules, in their order. -/
def names (modules : List Module) : List String := modules.map name

@[simp] theorem names_nil : names [] = [] := rfl

/-- The name of the first module is the first name. -/
@[simp] theorem names_cons (m : Module) (modules : List Module) :
    names (m :: modules) = m.name :: names modules := rfl

/-- The names of modules one after the other. -/
@[simp] theorem names_append (ms ms' : List Module) : names (ms ++ ms') = names ms ++ names ms' :=
  List.map_append

/-- The name of a module is one of the names. -/
theorem mem_names {modules : List Module} {m : Module} (hm : m ∈ modules) : m.name ∈ names modules :=
  List.mem_map_of_mem hm

/-- Every dependency, of any kind, names a module. -/
def Known (modules : List Module) : Prop :=
  ∀ m ∈ modules, ∀ d ∈ m.dependencies ++ m.runtimeDependencies, d ∈ names modules

/-- Every module stands behind its dependencies. -/
def DependenciesFirst (order : List Module) : Prop :=
  ∀ before m after, order = before ++ m :: after → ∀ d ∈ m.dependencies, d ∈ names before

/-- No name stands twice, and every module stands behind its dependencies. -/
structure Sorted (order : List Module) : Prop where
  nodup : (names order).Nodup
  first : DependenciesFirst order

section
variable {modules order order' : List Module} {m : Module} {path : List String} {fuel : Nat}

/-- If names are different, a module is known by its name. -/
theorem eq_of_name_eq (hn : (names modules).Nodup) {m' : Module} (hm : m ∈ modules)
    (hm' : m' ∈ modules) (h : m.name = m'.name) : m = m' :=
  List.inj_on_of_nodup_map hn hm hm' h

/-- The module that is found has the name. -/
theorem find?_name {d : String} (h : find? modules d = some m) : m ∈ modules ∧ m.name = d := by
  rw [find?] at h
  exact ⟨List.mem_of_find?_eq_some h, by simpa using List.find?_some h⟩

/-- No module is found exactly if none has the name. -/
theorem find?_eq_none {d : String} : find? modules d = none ↔ d ∉ names modules := by
  simp [find?, names]

/-- What a module needs first are modules it depends on. -/
theorem mem_prerequisites {m' : Module} (h : m' ∈ prerequisites modules m) :
    m' ∈ modules ∧ m'.name ∈ m.dependencies := by
  obtain ⟨d, hd, hfind⟩ := List.mem_filterMap.mp h
  obtain ⟨hm', rfl⟩ := find?_name hfind
  exact ⟨hm', hd⟩

/-- In a list of known modules every dependency is found. -/
theorem exists_prerequisite (hk : Known modules) (hm : m ∈ modules) {d : String}
    (hd : d ∈ m.dependencies) : ∃ m' ∈ prerequisites modules m, m'.name = d := by
  have hknown : d ∈ names modules := hk m hm d (List.mem_append_left _ hd)
  cases hfind : find? modules d with
  | none => exact absurd hknown (find?_eq_none.mp hfind)
  | some m' => exact ⟨m', List.mem_filterMap.mpr ⟨d, hd, hfind⟩, (find?_name hfind).2⟩

/-! ### The first checks

What is known of modules that have passed the checks before any visit. -/

/-- The check for duplicates passes if no name comes twice, or has been seen before. -/
theorem duplicateAfter_eq_none : ∀ {modules : List Module} {seen : List String},
    duplicateAfter seen modules = none ↔ (names modules).Nodup ∧ ∀ d ∈ names modules, d ∉ seen
  | [], _ => by simp [duplicateAfter]
  | m :: ms, seen => by
      by_cases hseen : m.name ∈ seen
      · simp [duplicateAfter, hseen]
      · rw [duplicateAfter, if_neg (by simpa using hseen), duplicateAfter_eq_none, names_cons,
          List.nodup_cons, List.forall_mem_cons]
        constructor
        · rintro ⟨hnodup, hfresh⟩
          refine ⟨⟨fun hmem => hfresh m.name hmem List.mem_cons_self, hnodup⟩, hseen, ?_⟩
          exact fun d hd hd' => hfresh d hd (List.mem_cons_of_mem _ hd')
        · rintro ⟨⟨hm, hnodup⟩, -, hfresh⟩
          refine ⟨hnodup, fun d hd hd' => ?_⟩
          rcases List.mem_cons.mp hd' with rfl | hd'
          · exact hm hd
          · exact hfresh d hd hd'

theorem duplicate?_eq_none : duplicate? modules = none ↔ (names modules).Nodup := by
  simp [duplicate?, duplicateAfter_eq_none]

/-- The check for unknown names passes exactly if all dependencies are modules. -/
theorem unknown?_eq_none : unknown? modules = none ↔ Known modules := by
  simp only [unknown?, List.findSome?_eq_none_iff, Option.map_eq_none_iff, List.find?_eq_none,
    Bool.not_eq_true, Option.isNone_eq_false_iff, Option.isSome_iff_ne_none, ne_eq, find?_eq_none,
    not_not, Known]

/-- What is reported as unknown is a dependency of the module and names no module. -/
theorem unknown?_eq_some {name d : String} (h : unknown? modules = some (name, d)) :
    (∃ m ∈ modules, m.name = name ∧ d ∈ m.dependencies ++ m.runtimeDependencies) ∧
      d ∉ names modules := by
  obtain ⟨m, hm, hfound⟩ := List.exists_of_findSome?_eq_some h
  obtain ⟨d', hd', heq⟩ := Option.map_eq_some_iff.mp hfound
  cases heq
  refine ⟨⟨m, hm, rfl, List.mem_of_find?_eq_some hd'⟩, find?_eq_none.mp ?_⟩
  simpa using List.find?_some hd'

/-- Modules that pass the first checks are visited. -/
theorem initializationOrder_eq (hn : (names modules).Nodup) (hk : Known modules) :
    initializationOrder modules = visitEach (visit modules (modules.length + 1) []) modules [] := by
  rw [initializationOrder, duplicate?_eq_none.mpr hn, unknown?_eq_none.mpr hk]

/-- Modules that have been ordered have passed both checks. -/
theorem checks_of_ok (h : initializationOrder modules = .ok order) :
    (names modules).Nodup ∧ Known modules := by
  rw [initializationOrder] at h
  split at h
  · cases h
  · rename_i hduplicate
    split at h
    · cases h
    · rename_i hunknown
      exact ⟨duplicate?_eq_none.mp hduplicate, unknown?_eq_none.mp hunknown⟩

/-! ### Sorted orders

What every visit keeps, and what it adds. -/

theorem sorted_nil : Sorted [] :=
  ⟨List.nodup_nil, fun before m after h => absurd h (by simp)⟩

/-- A module joins the order behind all that it needs. -/
theorem Sorted.concat (hs : Sorted order) (hm : m.name ∉ names order)
    (hd : ∀ d ∈ m.dependencies, d ∈ names order) : Sorted (order ++ [m]) := by
  refine ⟨?_, fun before m' after h => ?_⟩
  · rw [names_append, List.nodup_append]
    refine ⟨hs.nodup, List.nodup_singleton _, fun d hd d' hd' => ?_⟩
    rintro rfl
    exact hm (List.mem_singleton.mp hd' ▸ hd)
  · -- the module in question is the last one, or stood in the order before
    rcases List.eq_nil_or_concat after with rfl | ⟨after, last, rfl⟩
    · obtain ⟨rfl, hlast⟩ := List.append_inj' h rfl
      cases hlast
      exact hd
    · rw [List.concat_eq_append, ← List.cons_append, ← List.append_assoc] at h
      exact hs.first before m' after (List.append_inj' h rfl).1

/-- What a visit adds to the order: modules whose names stand not on the path. -/
structure Visited (modules : List Module) (path : List String) (order order' : List Module) :
    Prop where
  kept : order <+: order'
  added : ∀ m ∈ order', m ∈ order ∨ m ∈ modules ∧ m.name ∉ path
  sorted : Sorted order'

namespace Visited

/-- A visit may find that there is nothing to do. -/
theorem refl (hs : Sorted order) : Visited modules path order order :=
  ⟨List.prefix_refl _, fun _ hm => .inl hm, hs⟩

theorem trans {order'' : List Module} (h : Visited modules path order order')
    (h' : Visited modules path order' order'') : Visited modules path order order'' where
  kept := h.kept.trans h'.kept
  added := fun m hm => (h'.added m hm).elim (h.added m) .inr
  sorted := h'.sorted

/-- A visit drops no module from the order. -/
theorem mem_names (h : Visited modules path order order') {d : String} (hd : d ∈ names order) :
    d ∈ names order' := by
  obtain ⟨m, hm, rfl⟩ := List.mem_map.mp hd
  exact Module.mem_names (h.kept.subset hm)

end Visited

/-- **Visits one after the other**, each of which does what it should. -/
theorem visitEach_visited {f : Module → List Module → Except ModuleError (List Module)}
    (hf : ∀ m ∈ modules, ∀ order order', Sorted order → f m order = .ok order' →
      Visited modules path order order' ∧ m.name ∈ names order') :
    ∀ {ms order order' : List Module}, (∀ m ∈ ms, m ∈ modules) → Sorted order →
      visitEach f ms order = .ok order' →
        Visited modules path order order' ∧ ∀ m ∈ ms, m.name ∈ names order'
  | [], order, order', _, hs, h => by
      cases h
      exact ⟨.refl hs, nofun⟩
  | m :: ms, order, order', hms, hs, h => by
      obtain ⟨hm, hms⟩ := List.forall_mem_cons.mp hms
      rw [visitEach] at h
      split at h
      · rename_i between hvisit
        obtain ⟨hbetween, hmem⟩ := hf m hm order between hs hvisit
        obtain ⟨hrest, hall⟩ := visitEach_visited hf hms hbetween.sorted h
        exact ⟨hbetween.trans hrest, List.forall_mem_cons.mpr ⟨hrest.mem_names hmem, hall⟩⟩
      · cases h

/-- **One visit.**  While the prerequisites of `m` are visited its name stands on the path, so it is not
added twice. -/
theorem visit_visited (hk : Known modules) :
    ∀ {fuel : Nat} {path : List String} {m : Module}, m ∈ modules → ∀ {order order' : List Module},
      Sorted order → visit modules fuel path m order = .ok order' →
        Visited modules path order order' ∧ m.name ∈ names order'
  | 0, _, _, _, _, _, _, h => by cases h
  | fuel + 1, path, m, hm, order, order', hs, h => by
      rw [visit] at h
      split at h
      · rename_i hdone
        cases h
        exact ⟨.refl hs, by simpa [names] using hdone⟩
      rename_i hdone
      split at h
      · cases h
      rename_i hpath
      split at h
      · rename_i between hprerequisites
        cases h
        obtain ⟨hbetween, hall⟩ := visitEach_visited
          (fun m' hm' order order' hs h => visit_visited hk hm' hs h)
          (fun m' hm' => (mem_prerequisites hm').1) hs hprerequisites
        -- modules added in between are not on the path, on which the name of `m` has been put
        have hfresh : m.name ∉ names between := by
          intro hmem
          obtain ⟨m', hm', hname⟩ := List.mem_map.mp hmem
          rcases hbetween.added m' hm' with hold | ⟨-, hnew⟩
          · exact hdone (List.any_eq_true.mpr ⟨m', hold, by simpa using hname⟩)
          · exact hnew (hname ▸ List.mem_cons_self)
        have hready : ∀ d ∈ m.dependencies, d ∈ names between := by
          intro d hd
          obtain ⟨m', hm', rfl⟩ := exists_prerequisite hk hm hd
          exact hall m' hm'
        refine ⟨⟨hbetween.kept.trans (List.prefix_append _ _), ?_,
          hbetween.sorted.concat hfresh hready⟩, by simp⟩
        rw [List.forall_mem_append, List.forall_mem_singleton]
        refine ⟨fun m' hm' => ?_, .inr ⟨hm, by simpa using hpath⟩⟩
        exact (hbetween.added m' hm').imp_right fun ⟨hmem, hnew⟩ =>
          ⟨hmem, fun hpath => hnew (List.mem_cons_of_mem _ hpath)⟩
      · cases h

/-- The order is sorted and holds what was given. -/
theorem initializationOrder_sorted (h : initializationOrder modules = .ok order) :
    Sorted order ∧ order.Perm modules := by
  obtain ⟨hn, hk⟩ := checks_of_ok h
  rw [initializationOrder_eq hn hk] at h
  obtain ⟨hvisited, hall⟩ := visitEach_visited
    (fun m hm order order' hs h => visit_visited hk hm hs h) (fun _ hm => hm) sorted_nil h
  refine ⟨hvisited.sorted, (List.perm_ext_iff_of_nodup hvisited.sorted.nodup.of_map hn.of_map).mpr ?_⟩
  have hsub : ∀ m ∈ order, m ∈ modules := fun m hm =>
    (hvisited.added m hm).elim nofun And.left
  refine fun m => ⟨hsub m, fun hm => ?_⟩
  obtain ⟨m', hm', hname⟩ := List.mem_map.mp (hall m hm)
  rwa [← eq_of_name_eq hn (hsub m' hm') hm hname]

/-! ### Modules that are sorted already

Visits in a sorted list find all that they need in front. -/

/-- Modules that joined the order are not visited again. -/
theorem visitEach_joined : ∀ {ms : List Module}, (∀ m ∈ ms, m.name ∈ names order) →
    visitEach (visit modules (fuel + 1) path) ms order = .ok order
  | [], _ => rfl
  | m :: ms, h => by
      obtain ⟨hm, hms⟩ := List.forall_mem_cons.mp h
      have hdone : order.any (·.name == m.name) = true := by simpa [names] using hm
      rw [visitEach, visit, if_pos hdone]
      exact visitEach_joined hms

/-- If modules are sorted, every visit adds the module and nothing else. -/
theorem visitEach_sorted : ∀ {ms order : List Module}, Sorted (order ++ ms) →
    visitEach (visit modules (fuel + 2) []) ms order = .ok (order ++ ms)
  | [], order, _ => by rw [visitEach, List.append_nil]
  | m :: ms, order, hs => by
      have hfresh : ¬ order.any (·.name == m.name) = true := by
        have hnodup := hs.nodup
        rw [names_append, names_cons, List.nodup_middle, List.nodup_cons] at hnodup
        intro hdone
        obtain ⟨m', hm', hname⟩ := List.any_eq_true.mp hdone
        refine hnodup.1 (List.mem_append_left _ ?_)
        rw [← eq_of_beq hname]
        exact mem_names hm'
      have hready : ∀ m' ∈ prerequisites modules m, m'.name ∈ names order := fun m' hm' =>
        hs.first order m ms rfl m'.name (mem_prerequisites hm').2
      rw [visitEach, visit, if_neg hfresh, if_neg (by simp), visitEach_joined hready]
      rw [List.append_cons] at hs ⊢
      exact visitEach_sorted hs

/-- Modules that are sorted already stay as they are. -/
theorem initializationOrder_of_sorted (hk : Known modules) (hs : Sorted modules) :
    initializationOrder modules = .ok modules := by
  rw [initializationOrder_eq hs.nodup hk]
  cases modules with
  | nil => rfl
  | cons m ms => exact visitEach_sorted hs

end

/-! ### Runtime dependencies

Only the check for unknown names looks at them. -/

/-- The module with other runtime dependencies. -/
def rewire (runtime : Module → List String) (m : Module) : Module :=
  { m with runtimeDependencies := runtime m }

section
variable (runtime : Module → List String)

/-- Other runtime dependencies do not change the name of a module. -/
@[simp] theorem name_rewire (m : Module) : (m.rewire runtime).name = m.name := rfl

@[simp] theorem names_rewire (modules : List Module) :
    names (modules.map (rewire runtime)) = names modules := by
  simp [names, Function.comp_def]

theorem prerequisites_rewire (modules : List Module) (m : Module) :
    prerequisites (modules.map (rewire runtime)) (m.rewire runtime) =
      (prerequisites modules m).map (rewire runtime) := by
  have hfind : find? (modules.map (rewire runtime)) =
      fun d => (find? modules d).map (rewire runtime) := by
    funext d
    rw [find?, List.find?_map]
    rfl
  rw [prerequisites, prerequisites, hfind, List.map_filterMap]
  rfl

/-- Visits that do not depend on runtime dependencies, one after the other. -/
theorem visitEach_rewire {f g : Module → List Module → Except ModuleError (List Module)}
    (hfg : ∀ m order, g (m.rewire runtime) (order.map (rewire runtime)) =
      (f m order).map (List.map (rewire runtime))) :
    ∀ ms order, visitEach g (ms.map (rewire runtime)) (order.map (rewire runtime)) =
      (visitEach f ms order).map (List.map (rewire runtime))
  | [], _ => rfl
  | m :: ms, order => by
      rw [List.map_cons, visitEach, visitEach, hfg]
      cases f m order with
      | ok between => exact visitEach_rewire hfg ms between
      | error e => rfl

/-- Visits look at hard dependencies only. -/
theorem visit_rewire (modules : List Module) : ∀ (fuel : Nat) (path : List String) (m : Module)
    (order : List Module), visit (modules.map (rewire runtime)) fuel path (m.rewire runtime)
        (order.map (rewire runtime)) =
      (visit modules fuel path m order).map (List.map (rewire runtime))
  | 0, _, _, _ => rfl
  | fuel + 1, path, m, order => by
      have hdone : (order.map (rewire runtime)).any (·.name == m.name) =
          order.any (·.name == m.name) := by rw [List.any_map]; rfl
      rw [visit, visit, name_rewire, hdone, prerequisites_rewire,
        visitEach_rewire runtime (visit_rewire modules fuel (m.name :: path))]
      split
      · rfl
      · split
        · rfl
        · cases visitEach (visit modules fuel (m.name :: path)) (prerequisites modules m) order with
          | ok between => simp [Except.map]
          | error e => rfl

/-- **Runtime dependencies make no difference**, as long as they name modules. -/
theorem initializationOrder_rewire {modules : List Module} (hn : (names modules).Nodup)
    (hk : Known modules) (hr : ∀ m ∈ modules, ∀ d ∈ runtime m, d ∈ names modules) :
    initializationOrder (modules.map (rewire runtime)) =
      (initializationOrder modules).map (List.map (rewire runtime)) := by
  have hk' : Known (modules.map (rewire runtime)) := by
    intro m' hm' d hd
    obtain ⟨m, hm, rfl⟩ := List.mem_map.mp hm'
    rw [names_rewire]
    rcases List.mem_append.mp hd with hd | hd
    · exact hk m hm d (List.mem_append_left _ hd)
    · exact hr m hm d hd
  rw [initializationOrder_eq (by rwa [names_rewire]) hk', initializationOrder_eq hn hk,
    List.length_map]
  exact visitEach_rewire runtime (visit_rewire runtime modules _ []) modules []

end

/-! ### The whole order

From the empty order through all modules. -/

/-- **The order is a stable topological sort.**  Where modules can be ordered, the order holds every
module given exactly once and nothing else; every dependency of a module stands before it; other runtime
dependencies would give the same order; modules that stand behind their dependencies already keep their
order; and so the order is not ordered any further. -/
theorem initialization_order_sorts {modules order : List Module}
    (h : initializationOrder modules = .ok order) :
    order.Perm modules ∧ (names order).Nodup ∧ DependenciesFirst order ∧
      (∀ runtime : Module → List String, (∀ m ∈ modules, ∀ d ∈ runtime m, d ∈ names modules) →
        initializationOrder (modules.map (rewire runtime)) = .ok (order.map (rewire runtime))) ∧
      (DependenciesFirst modules → order = modules) ∧ initializationOrder order = .ok order := by
  obtain ⟨hn, hk⟩ := checks_of_ok h
  obtain ⟨hsorted, hperm⟩ := initializationOrder_sorted h
  refine ⟨hperm, hsorted.nodup, hsorted.first, fun runtime hr => ?_, fun hfirst => ?_, ?_⟩
  · rw [initializationOrder_rewire runtime hn hk hr, h]
    rfl
  · rw [initializationOrder_of_sorted hk ⟨hn, hfirst⟩] at h
    exact (Except.ok.inj h).symm
  · refine initializationOrder_of_sorted (fun m hm d hd => ?_) hsorted
    exact (hperm.map name).mem_iff.mpr (hk m (hperm.mem_iff.mp hm) d hd)

/-- The theorem at a diamond that is given upside down and points back to its top at runtime. -/
theorem initialization_order_sorts_diamond :
    let top : Module := { name := "top", dependencies := ["left", "right"] }
    let left : Module := { name := "left", dependencies := ["base"], runtimeDependencies := ["top"] }
    let right : Module := { name := "right", dependencies := ["base", "left"] }
    let base : Module := { name := "base" }
    initializationOrder [top, right, left, base] = .ok [base, left, right, top] ∧
      DependenciesFirst [base, left, right, top] := by
  intro top left right base
  have h : initializationOrder [top, right, left, base] = .ok [base, left, right, top] := by rfl
  exact ⟨h, (initialization_order_sorts h).2.2.1⟩

end Protean.Module
