import Protean.Interpreter
import Protean.Proofs.Code.Probe
import Protean.Proofs.Expr.Places
import Protean.Proofs.Machine.Confined
import Protean.Proofs.Machine.Soundness
import Protean.Proofs.Machine.Termination
import Protean.Proofs.Parser.Places
import Protean.Proofs.Token.Scan

/-!
# Proofs — Machine — what errors and values point at

Code that keeps its expressions labels values with them, and errors take note of them on their way out; the code
of libraries keeps none.  So the expressions that a run comes across are a region of their own, which takes in
all objects: on top of libraries it is the nodes of the program (`Interpreter.run_sourced`).

An error leaves the top-level expression it occurs in last (`Machine.run_blames`).  Both together say where the
errors of a text point to (`runtime_errors_point_into_the_text`).

* `Heap.Sourced`: all labels and all code of a heap are from a given set of expressions.
* `Machine.run_sourced`, `Interpreter.bootstrap_sourced`: a run adds only the expressions of its own code.
* `Expr.nodes_sited_of_parse`: and those are nodes of a tree whose spans lie within the text.
-/

namespace Protean

/-! ### Code and its nodes

Lowered code keeps the nodes of its tree as origins, so what holds of all nodes of a tree holds of the origins
in its code. -/

/-- Code is in a region when the nodes that it remembers are. -/
theorem Expr.Every.lower_in {R : Region} {l : Lowering} {e : Expr}
    (h : e.Every fun n => R.Marks (l.origin n)) : (e.lower l).In R := by
  induction h with
  | identifier h =>
    rw [lower]
    split <;> exact h
  | literal h | builtin h => exact h
  | bracket h _ ih | destructure h _ ih => exact ⟨h, ih⟩
  | field h _ ih =>
    rw [lower]
    split <;> exact ⟨h, ih⟩
  | call h _ _ _ ih iha iht =>
    refine ⟨h, ih, Code.argsIn_iff.mpr ?_⟩
    rw [lowerArgs_eq_map, lowerTrailing_eq_map, List.forall_mem_append, List.forall_mem_map,
      List.forall_mem_map]
    exact ⟨iha, iht⟩
  | send h _ _ _ ih iha iht =>
    rw [lower]
    split
    · exact ⟨h, ih⟩
    · refine ⟨h, ih, Code.argsIn_iff.mpr ?_⟩
      rw [lowerArgs_eq_map, lowerTrailing_eq_map, List.forall_mem_append, List.forall_mem_map,
        List.forall_mem_map]
      exact ⟨iha, iht⟩
  | bind h _ ih =>
    rw [lower]
    split
    · exact h
    · exact ⟨h, ih⟩
  | store h _ _ iht ihv =>
    rw [lower]
    split
    · exact ⟨h, iht⟩
    · exact ⟨h, iht, ihv⟩
  | function h _ ih =>
    refine ⟨h, Code.bodyIn_iff.mpr ?_⟩
    rw [lowerAll_eq_map, List.forall_mem_map]
    exact ih

/-- Lowered code is of the region if the region has the origins that the lowering keeps. -/
theorem Expr.lowerAll_in {R : Region} {l : Lowering} {es : List Expr}
    (h : ∀ n ∈ nodesAll es, R.Marks (l.origin n)) : Code.BodyIn R (lowerAll l es) := by
  rw [Code.bodyIn_iff, lowerAll_eq_map, List.forall_mem_map]
  exact fun e he => (every_of_nodesAll h e he).lower_in

/-! ### Sources

What labels and origins there are on a heap and in a machine, from the start of the machine on. -/

/-- All objects, and the given expressions. -/
def Region.ofSources (S : Expr → Prop) : Region := ⟨fun _ => True, S, fun _ _ => trivial⟩

/-- All labels and all code on the heap point at the given expressions. -/
def Heap.Sourced (S : Expr → Prop) (h : Heap) : Prop := ∀ id, (h.get id).In (.ofSources S)

section
variable {S : Expr → Prop}

/-- A heap with all its labels from the region is like itself there, which is all that confinement asks of the
machine it starts on. -/
theorem Heap.Sourced.alike {h : Heap} (hh : h.Sourced S) : (Region.ofSources S).Alike h h :=
  ⟨rfl, fun _ _ => trivial, fun _ _ => rfl, fun id _ => hh id⟩

/-- A change within the region adds no labels from elsewhere. -/
theorem Region.Changed.sourced {h k : Heap} (hc : (Region.ofSources S).Changed h h k k) :
    k.Sourced S := fun id => hc.alike.closed id trivial

/-- There are no labels on the heap at first. -/
theorem Heap.sourced_initial : Heap.initial.Sourced S := by
  intro id
  refine ⟨fun _ _ => trivial, ?_, fun field hmem => ?_⟩
  · rw [Heap.kind_initial]
    trivial
  · have hempty : (Heap.initial.get id).fields = [] := by
      rcases id with _ | _ | _ | _ | _ | id <;> rfl
    rw [hempty] at hmem
    cases hmem

theorem Machine.sourced_initial : Machine.initial.heap.Sourced S := by
  have hdefine : ∀ {h : Heap} (target : ObjectId) (name : String) (id : ObjectId), h.Sourced S →
      (h.define target name (.bare (.object id))).Sourced S := fun target name _ hh =>
    (hh.alike.define (show (Region.ofSources S).objects target from trivial) name
      (.ofObject trivial)).sourced
  have hfold : ∀ (names : List (String × ObjectId)) {h : Heap} (target : ObjectId), h.Sourced S →
      (names.foldl (fun h b => h.define target b.1 (.bare (.object b.2))) h).Sourced S := by
    intro names
    induction names with
    | nil => exact fun _ hh => hh
    | cons b names ih => exact fun target hh => ih target (hdefine target _ _ hh)
  have hplain : Object.In (.ofSources S) {} := ⟨nofun, trivial, List.forall_mem_nil _⟩
  exact hdefine _ _ _ (hfold _ _ (Heap.sourced_initial.alike.alloc hplain).sourced)

/-- **Runs stay among the expressions** that the machine and the code point at. -/
theorem Machine.run_sourced {m : Machine} (hm : m.heap.Sourced S) (limits : Limits) {codes : List Code}
    (hc : Code.BodyIn (.ofSources S) codes) :
    (Region.ofSources S).Admits (Labeled.In (.ofSources S)) (m.run limits codes).1 ∧
      (m.run limits codes).2.heap.Sourced S := by
  have hglobal : (Region.ofSources S).objects m.global := trivial
  have hconfined := runAll_confined (evaluate_invoke_confined (.ofSources S) limits
    (m.fuelFor limits (Code.bodyHeight codes))).1 hc hglobal
  obtain ⟨-, hadmits, htwins, -, -⟩ := hconfined m m ⟨hm.alike, rfl, rfl, rfl⟩
  exact ⟨hadmits, fun id => htwins.heap.closed id trivial⟩

namespace Interpreter

/-- Modules are lowered without their origins, so they bring no labels. -/
theorem load_sourced (limits : Limits) : ∀ {loaded : List LoadedModule} {m : Machine},
    m.heap.Sourced S →
    (∀ l ∈ loaded, ∃ exprs, l.code = Expr.lowerAll { retain := false } exprs) →
      (load limits loaded m).2.heap.Sourced S
  | [], _, hm, _ => hm
  | l :: rest, m, hm, hl => by
      obtain ⟨exprs, hcode⟩ := hl l List.mem_cons_self
      have hin : Code.BodyIn (.ofSources S) l.code :=
        hcode ▸ Expr.lowerAll_in fun _ _ => Region.marks_none _
      have hrun := (m.run_sourced hm limits hin).2
      rw [load]
      split <;> rename_i heq <;> rw [heq] at hrun
      · exact load_sourced limits hrun fun l' hl' => hl l' (List.mem_cons_of_mem _ hl')
      · exact hrun

theorem bootstrap_sourced {modules : List Module} {i : Interpreter} (hi : ofModules modules = .ok i)
    (limits : Limits) : (i.bootstrap limits).2.heap.Sourced S := by
  have hload := load_sourced limits Machine.sourced_initial (lowered_of_ofModules hi) (S := S)
  rw [bootstrap]
  split <;> rename_i heq <;> rw [heq] at hload <;> exact hload

end Interpreter

end

/-- A program points at its own nodes. -/
theorem Expr.lowerAll_sourced (tree : List Expr) :
    Code.BodyIn (.ofSources (· ∈ nodesAll tree)) (lowerAll { retain := true } tree) :=
  lowerAll_in fun n hn _ heq => by cases heq; exact hn

/-- **A program on top of libraries** leaves no labels but its own nodes. -/
theorem Interpreter.run_sourced {modules : List Module} {i : Interpreter}
    (hi : ofModules modules = .ok i) (limits : Limits) (tree : List Expr) :
    (i.run limits (Expr.lowerAll { retain := true } tree)).2.heap.Sourced (· ∈ Expr.nodesAll tree) := by
  have hboot := bootstrap_sourced hi limits (S := (· ∈ Expr.nodesAll tree))
  rw [run]
  split <;> rename_i heq <;> rw [heq] at hboot
  · exact (Machine.run_sourced hboot limits (Expr.lowerAll_sourced tree)).2
  · exact hboot

/-! ### Blame

Which top-level expression an error comes from. -/

/-- Two texts one after the other are nested as deeply as the deeper one. -/
theorem Code.bodyHeight_append (cs ds : List Code) :
    bodyHeight (cs ++ ds) = max (bodyHeight cs) (bodyHeight ds) := by
  induction cs with
  | nil => exact (Nat.zero_max _).symm
  | cons c cs ih => rw [List.cons_append, bodyHeight, ih, bodyHeight, Nat.max_assoc]

/-- Code that is nested deeper calls for no less fuel. -/
theorem Machine.fuelFor_mono (m : Machine) (limits : Limits) {height height' : Nat}
    (hle : height ≤ height') : m.fuelFor limits height ≤ m.fuelFor limits height' := by
  rw [fuelFor, fuelFor]
  have hmul := Nat.mul_le_mul_left (min limits.maxDepth (limits.maxSteps + 1) + 2)
    (Nat.add_le_add_right (max_le_max_right m.heap.height hle) 4)
  omega

/-- Where running expressions is interrupted, one of them is the first to be. -/
theorem runFrom_interrupted {eval : Evaluator} {scope : ObjectId} {l : Lowering} {i : Interrupt} :
    ∀ {es : List Expr} {last : Labeled} {m : Machine},
      (runFrom eval scope (Expr.lowerAll l es) last m).1 = .error i →
      ∃ before x after, es = before ++ x :: after ∧
        (runFrom eval scope (Expr.lowerAll l (before ++ [x])) last m).1 = .error i ∧
        ∃ v m₁, runFrom eval scope (Expr.lowerAll l before) last m = (.ok v, m₁) ∧
          (eval (x.lower l) scope m₁).1 = .error i
  | [], _, _, h => by cases h
  | e :: es, last, m, h => by
      rcases he : eval (e.lower l) scope m with ⟨i' | v, m₁⟩ <;>
        simp only [Expr.lowerAll, runFrom, Bind.bind, Eval.bind, he] at h
      · refine ⟨[], e, es, rfl, ?_, last, m, rfl, by rw [he]; exact h⟩
        simp only [List.nil_append, Expr.lowerAll, runFrom, Bind.bind, Eval.bind, he]
        exact h
      · obtain ⟨before, x, after, rfl, hx, w, m₂, hbefore, heval⟩ := runFrom_interrupted h
        refine ⟨e :: before, x, after, rfl, ?_, w, m₂, ?_, heval⟩ <;>
          simp only [List.cons_append, Expr.lowerAll, runFrom, Bind.bind, Eval.bind, he]
        · exact hx
        · exact hbefore

/-- An error leaves the expression that is evaluated last. -/
theorem evaluate_blames {limits : Limits} {fuel : Nat} {x : Expr} {scope : ObjectId} {m : Machine}
    {e : RuntimeError}
    (h : (evaluate limits (fuel + 1) (x.lower { retain := true }) scope m).1 = .error (.error e)) :
    e.stack.getLast? = some x := by
  rw [evaluate_succ, Expr.origin_lower, Eval.leaving] at h
  split at h
  · cases h
    rw [RuntimeError.stack, List.getLast?_reverse]
    rfl
  · rename_i hother
    rcases hstep : step (evaluate limits fuel) (invoke limits fuel) (x.lower { retain := true }) scope m
      with ⟨r, m'⟩
    rw [hstep] at h
    cases h
    exact absurd hstep (hother e m')

namespace Machine

variable {m : Machine} {limits : Limits}

/-- **The error of a run** is that of its first expression that fails, which is the last on the stack. -/
theorem run_blames {es : List Expr} {e : RuntimeError}
    (h : (m.run limits (Expr.lowerAll { retain := true } es)).1 = .error (.error e)) :
    ∃ before x after, es = before ++ x :: after ∧ e.stack.getLast? = some x ∧
      (∃ v, (m.run limits (Expr.lowerAll { retain := true } before)).1 = .ok v) ∧
        (m.run limits (Expr.lowerAll { retain := true } (before ++ [x]))).1 = .error (.error e) := by
  obtain ⟨before, x, after, rfl, hx, v, m₁, hbefore, heval⟩ := runFrom_interrupted h
  obtain ⟨fuel, hfuel⟩ : ∃ fuel, m.fuelFor limits (Code.bodyHeight
      (Expr.lowerAll { retain := true } (before ++ x :: after))) = fuel + 1 := ⟨_, rfl⟩
  -- a part of the program is no higher than all of it, so the fuel for all is enough for the part
  have hpart : ∀ part rest, before ++ x :: after = part ++ rest →
      runAll (evaluate limits (fuel + 1)) (Expr.lowerAll { retain := true } part) m.global m =
        m.run limits (Expr.lowerAll { retain := true } part) := by
    intro part rest heq
    refine m.runAll_eq_run limits _ (hfuel ▸ m.fuelFor_mono limits ?_)
    rw [heq, Expr.lowerAll_eq_map, Expr.lowerAll_eq_map, List.map_append, Code.bodyHeight_append]
    exact le_max_left _ _
  rw [hfuel] at hx hbefore heval
  refine ⟨before, x, after, rfl, evaluate_blames heval, ⟨v, ?_⟩, ?_⟩
  · rw [← hpart before (x :: after) rfl]
    exact congrArg Prod.fst hbefore
  · rw [← hpart (before ++ [x]) after (by simp)]
    exact hx

end Machine

/-- An error all of whose expressions stand in the text has a place. -/
theorem RuntimeError.firstSpan_of_sited {P : Nat → Prop} {e : RuntimeError} (hne : e.stack ≠ [])
    (hsited : ∀ x ∈ e.stack, x.Sited P) : ∃ span, e.firstSpan = some span ∧ span.Sited P := by
  obtain ⟨x, rest, hstack⟩ := List.exists_cons_of_ne_nil hne
  obtain ⟨span, hspan, hplaces⟩ := (hsited x (hstack ▸ List.mem_cons_self)).span
  refine ⟨span, ?_, hplaces⟩
  rw [firstSpan, hstack, List.findSome?_cons, hspan]

/-! ### Programs given as texts

All of it for the nodes of a text. -/

section
variable {text : String} {tree : List Expr}

/-- The nodes of an accepted text have spans within the text, on boundaries of characters. -/
theorem Expr.nodes_sited_of_parse (htree : (parse .strict text).result = .ok tree) :
    ∀ n ∈ nodesAll tree, n.Sited (Text.IsPlace text.toList) := by
  intro n hn
  obtain ⟨e, he, hn⟩ := mem_nodesAll.mp hn
  have hsome : (parse .strict text).exprs = some tree := by
    rw [Parsed.result] at htree
    split at htree
    · cases htree
      assumption
    · cases htree
  have hevery := (sited_of_parse (Token.ofText_sited text) .strict).1 e (by rwa [hsome])
  exact hevery.forall_mem_nodes n hn

namespace Interpreter

variable {i : Interpreter} {limits : Limits}

/-- On a machine that starts up, a program runs as it does on its own. -/
theorem run_of_bootstrap {m : Machine} (hboot : i.bootstrap limits = (.ok (), m)) (codes : List Code) :
    i.run limits codes = m.run limits codes := by
  rw [run, hboot]

/-- If a text fails when it is run, its lowered tree does. -/
theorem run_of_evalText_error (htree : (Expr.parse .strict text).result = .ok tree) {e : RuntimeError}
    (h : i.evalText limits text = .error (.runtime e)) :
    (i.run limits (Expr.lowerAll { retain := true } tree)).1 = .error (.error e) := by
  delta evalText at h
  rw [htree] at h
  dsimp only at h
  split at h <;> rename_i heq <;> cases h
  rw [heq]

end Interpreter

end

/-- **Runtime errors point into the text.**  Let a text be read strictly, and run on top of any libraries under
limits that let these start up.  If it ends in an error, the stack of the error is not empty and holds nodes of
the text only, never of a library; the last of them is the first top-level expression to fail, that is, the
expressions in front of it run to a value and with it to this very error; and the first span of the error is a
range within the text.  And whatever the limits, every value that the program leaves in a field of any object is
labelled with a node of the text, if at all. -/
theorem runtime_errors_point_into_the_text {modules : List Module} {i : Interpreter}
    (hi : Interpreter.ofModules modules = .ok i) {text : String} {tree : List Expr}
    (htree : (Expr.parse .strict text).result = .ok tree) :
    (∀ limits : Limits, (i.bootstrap limits).1 = .ok () →
      ∀ e, i.evalText limits text = .error (.runtime e) →
        e.stack ≠ [] ∧ (∀ x ∈ e.stack, x ∈ Expr.nodesAll tree) ∧
          (∃ before x after, tree = before ++ x :: after ∧ e.stack.getLast? = some x ∧
            (∃ v, (i.run limits (Expr.lowerAll { retain := true } before)).1 = .ok v) ∧
            (i.run limits (Expr.lowerAll { retain := true } (before ++ [x]))).1 =
              .error (.error e)) ∧
          ∃ span, e.firstSpan = some span ∧ span.start ≤ span.stop ∧
            span.stop ≤ text.utf8ByteSize) ∧
      ∀ (limits : Limits) (id : ObjectId),
        ∀ field ∈ (i.run limits (Expr.lowerAll { retain := true } tree)).2.heap.fields id,
          ∀ x, field.2.source = some x → x ∈ Expr.nodesAll tree := by
  refine ⟨fun limits hboot e heval => ?_, fun limits id field hmem => ?_⟩
  -- the machine that has started up has no labels, so all expressions come from the program
  · have hm := Interpreter.bootstrap_sourced hi limits (S := (· ∈ Expr.nodesAll tree))
    have herror := Interpreter.run_of_evalText_error htree heval
    rcases hstart : i.bootstrap limits with ⟨_, m⟩
    rw [hstart] at hboot hm
    cases hboot
    simp only [Interpreter.run_of_bootstrap hstart] at herror ⊢
    have hnodes := (m.run_sourced hm limits (Expr.lowerAll_sourced tree)).1
    rw [herror] at hnodes
    have hstack : ∀ x ∈ e.stack, x ∈ Expr.nodesAll tree := fun x hx => hnodes x (List.mem_reverse.mp hx)
    -- the error leaves the expression it occurs in last, which is a top-level one
    obtain ⟨before, x, after, heq, hlast, hblame⟩ := Machine.run_blames herror
    have hne : e.stack ≠ [] := fun h => by
      rw [h] at hlast
      cases hlast
    -- the spans of nodes are places of the text
    obtain ⟨span, hspan, hplaces⟩ := RuntimeError.firstSpan_of_sited hne
      fun x hx => Expr.nodes_sited_of_parse htree x (hstack x hx)
    have hstop : span.stop ≤ text.utf8ByteSize := by
      rw [Text.utf8ByteSize_eq]
      exact hplaces.stop.le
    exact ⟨hne, hstack, ⟨before, x, after, heq, hlast, hblame⟩, span, hspan, hplaces.start_le, hstop⟩
  · exact ((Interpreter.run_sourced hi limits tree id).fields field hmem).source

/-- The theorem at a function that is called with a boolean and reads a field of null. -/
theorem runtime_errors_point_into_the_text_null :
    let booleans : Module := { Library.booleans with dependencies := [] }
    let i : Interpreter :=
      ⟨[⟨"booleans", Expr.lowerAll { retain := false } Library.booleans.exprs⟩]⟩
    let text := "f = \x7b it.a.b \x7d\nf(true)"
    ∃ tree e, Interpreter.ofModules [booleans] = .ok i ∧
      (Expr.parse .strict text).result = .ok tree ∧ i.evalText {} text = .error (.runtime e) ∧
        e.stack.length = 2 ∧ (∀ x ∈ e.stack, x ∈ Expr.nodesAll tree) ∧
          ∃ span, e.firstSpan = some span ∧ span.stop ≤ text.utf8ByteSize := by
  intro booleans i text
  have hi : Interpreter.ofModules [booleans] = .ok i := rfl
  have hread : (Expr.parse .strict text).result.toBool = true := by decide +kernel
  have hboot : (i.bootstrap {}).1 = .ok () := rfl
  have hfails : (match i.evalText {} text with
      | .error (.runtime e) => e.stack.length
      | .error (.diagnostics _) | .error (.module _) | .ok _ => 0) = 2 := by decide +kernel
  have hok : ∀ r : Except (List Diagnostic) (List Expr), r.toBool = true → ∃ tree, r = .ok tree := by
    rintro (_ | tree) h
    · cases h
    · exact ⟨tree, rfl⟩
  -- the two nodes of the stack are those of `it.a.b` and of the call around it
  obtain ⟨tree, htree⟩ := hok _ hread
  split at hfails
  · rename_i e heval
    obtain ⟨-, hnodes, -, span, hspan, -, hstop⟩ :=
      (runtime_errors_point_into_the_text hi htree).1 {} hboot e heval
    exact ⟨tree, e, hi, htree, heval, hfails, hnodes, span, hspan, hstop⟩
  all_goals cases hfails

end Protean
