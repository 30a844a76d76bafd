import Protean.Proofs.Machine.Probe
import Protean.Proofs.Parser.Places
import Protean.Proofs.Token.Scan

/-!
# Proofs — Completion — probing does not disturb the program

Completion runs the tolerant tree of a text with a probe under the cursor.  The run either stops at a name of
the tree that touches the cursor, and then a range of the text is offered for it, or it is the run without
the probe: `probing_disturbs_nothing`.

The second half has one exception.  A probe in the place of an assignment to a field does not evaluate the
value that is assigned, so a run may get past it in another way than the assignment would.
-/

namespace Protean

/-! ### Runs of a tree

What the run of a tree with a probe is compared with, and where the probe may have stopped it. -/

namespace Interpreter

variable {modules : List Module} {i : Interpreter}

/-- A run of the lowered tree stops at a probe or follows the run without probes. -/
theorem run_lowerAll_probed (hi : ofModules modules = .ok i) (P : Probing) (limits : Limits)
    {tree : List Expr} (htree : ∀ e ∈ tree, e.Every P.part) :
    P.Stopped (i.run limits (Expr.lowerAll (.probing P.offset) tree)) ∨
      P.Follows (i.run limits (Expr.lowerAll P.plain tree))
        (i.run limits (Expr.lowerAll (.probing P.offset) tree)) := by
  have hrun := run_probed hi P limits (Probing.Pair.program.prepared_lowerAll htree)
  rwa [Probing.Pair.program.probed_lowerAll] at hrun

/-- **A probe that stops a run** stands for a name of the tree at the offset. -/
theorem found_of_signal (hi : ofModules modules = .ok i) (limits : Limits) {offset : Nat}
    {part : Expr → Prop} {tree : List Expr} (htree : ∀ e ∈ tree, e.Every part) {signal : Signal}
    (hsignal : (i.run limits (Expr.lowerAll (.probing offset) tree)).1 = .error (.completion signal)) :
    (Probing.itself offset part).Found signal.node := by
  obtain ⟨signal', heq, hfound⟩ | hfollows :=
    run_lowerAll_probed hi (.itself offset part) limits htree
  · cases heq.symm.trans hsignal
    exact hfound
  · exact absurd hsignal (hfollows.unstopped signal)

/-- The names on offer replace the name that the probe stood for. -/
theorem complete_of_signal {limits : Limits} {text : String} {offset : Nat} {signal : Signal}
    {range : Span} (hsignal : (i.probe limits text offset).1 = .error (.completion signal))
    (hrange : signal.node.nameSpan = some range) :
    ∃ candidates, i.complete limits text offset = some candidates ∧
      ∀ c ∈ candidates, c.range = range := by
  rw [complete]
  rcases hprobe : i.probe limits text offset with ⟨outcome, m⟩
  rw [hprobe] at hsignal
  cases hsignal
  refine ⟨_, rfl, fun c hc => ?_⟩
  obtain ⟨key, -, hkey⟩ := List.mem_filterMap.mp hc
  split at hkey
  · cases hkey
    rw [hrange]
    rfl
  · cases hkey

/-- Nothing is on offer unless a probe stops the run. -/
theorem signal_of_complete {limits : Limits} {text : String} {offset : Nat}
    {candidates : List Candidate} (h : i.complete limits text offset = some candidates) :
    ∃ signal, (i.probe limits text offset).1 = .error (.completion signal) := by
  rw [complete] at h
  split at h
  · next signal m heq => exact ⟨signal, congrArg Prod.fst heq⟩
  · cases h

end Interpreter

/-! ### The functions of the two heaps

What has been kept of the functions on a heap with probes. -/

/-- Kinds of one object in a run without a probe and in the run with one.  A function of the tree has been
lowered twice from its literal; all else, functions of libraries included, is the same. -/
inductive ObjectKind.Counterpart (tree : List Expr) (offset : Nat) : ObjectKind → ObjectKind → Prop where
  | same (kind : ObjectKind) : Counterpart tree offset kind kind
  | function {anchor : Anchor} {decorators : Decorators} {parameters : List Parameter}
      {body : List Expr} (scope : ObjectId)
      (hliteral : Expr.function anchor decorators parameters body ∈ Expr.nodesAll tree) :
      Counterpart tree offset
        (.function ⟨decorators, parameters, Expr.lowerAll { retain := true } body⟩ scope)
        (.function ⟨decorators, parameters,
          Expr.lowerAll { retain := true, cursor := some offset } body⟩ scope)

/-- Objects with the same fields and the same prototype that differ in the code of a function at most. -/
structure Object.Counterpart (tree : List Expr) (offset : Nat) (o o' : Object) : Prop where
  kind : o.kind.Counterpart tree offset o'.kind
  fields_eq : o.fields = o'.fields
  proto_eq : o.proto = o'.proto

/-- An object of the run without the probe and the same object of the run with it differ by the probes in their
code at most. -/
theorem Heap.Prepared.counterpart {offset : Nat} {part : Expr → Prop} {hstores} {tree : List Expr}
    (hpart : ∀ {e}, part e → e ∈ Expr.nodesAll tree) {h : Heap}
    (hh : h.Prepared (.unprobed offset part hstores)) (id : ObjectId) :
    (h.get id).Counterpart tree offset ((h.recode (Lambda.probed offset)).get id) := by
  rw [Heap.get_recode]
  refine ⟨?_, rfl, rfl⟩
  rw [Object.recode]
  cases hkind : (h.get id).kind with
  | plain | builtin _ _ => exact .same _
  | function lambda scope =>
    obtain ⟨l, l', Q, anchor, body, hpair, hliteral, hbody⟩ := hh id lambda scope hkind
    have hprobed := hpair.probed_lowerAll body
    rcases lambda with ⟨decorators, parameters, code⟩
    obtain rfl : code = _ := hbody
    rw [ObjectKind.recode, Lambda.probed,
      show (Expr.lowerAll l body).map (Code.probed offset) = _ from hprobed]
    cases hpair with
    | program => exact .function scope (hpart hliteral.node)
    | library => exact .same _

/-! ### The whole run

The theorem for texts, with an example of each half. -/

/-- **Probing does not disturb the program.**  Let the tolerant tree of a text be run under any limits with
a probe at any offset.  If the run stops at a probe, the probe stands for an identifier, a field, a send or
an assignment of the tree; the span of its name contains the offset and lies within the text; and all names
on offer replace this span.  If it does not, and the offset lies in the name of no assignment to a field, the
tree run without a probe ends in the same way, with the same value and source or the same failure and trace;
the same number of calls was made; and the heaps are equal but for the code of functions of the tree, which
has been lowered twice from the same literal. -/
theorem probing_disturbs_nothing {modules : List Module} {i : Interpreter}
    (hi : Interpreter.ofModules modules = .ok i) (limits : Limits) (text : String) (offset : Nat) :
    let tree := (Expr.parse .tolerant text).exprs.getD []
    let probed := i.probe limits text offset
    let plain := i.run limits (Expr.lowerAll { retain := true } tree)
    (∀ signal, probed.1 = .error (.completion signal) →
      signal.node ∈ Expr.nodesAll tree ∧ signal.node.hasName = true ∧
        ∃ range, signal.node.nameSpan = some range ∧ range.contains offset = true ∧
          range.start ≤ range.stop ∧ range.stop ≤ text.utf8ByteSize ∧
            ∃ candidates, i.complete limits text offset = some candidates ∧
              ∀ c ∈ candidates, c.range = range) ∧
      ((∀ signal, probed.1 ≠ .error (.completion signal)) →
        (∀ a target key span value, Expr.store a target key (some span) value ∈ Expr.nodesAll tree →
          span.contains offset = false) →
        plain.1 = probed.1 ∧ plain.2.steps = probed.2.steps ∧ plain.2.depth = probed.2.depth ∧
          plain.2.global = probed.2.global ∧ plain.2.heap.size = probed.2.heap.size ∧
            ∀ id, (plain.2.heap.get id).Counterpart tree offset (probed.2.heap.get id)) := by
  intro tree probed plain
  have hmem : ∀ e ∈ tree, e.Every (· ∈ Expr.nodesAll tree) := Expr.every_of_nodesAll fun _ hn => hn
  refine ⟨fun signal hsignal => ?_, fun hunstopped hstores => ?_⟩
  · -- all nodes of a tree have their places in the text, and so has the one that the probe stood for
    have hsited := (Expr.sited_of_parse (Token.ofText_sited text) .tolerant).1
    have hfound := Interpreter.found_of_signal hi limits
      (fun e he => (hmem e he).and (hsited e he)) hsignal
    obtain ⟨range, hrange, hcontains⟩ := hfound.nameSpan
    obtain ⟨range', hrange', hplaces⟩ := hfound.part.2.nameSpan
    cases hrange.symm.trans hrange'
    have hstop : range.stop ≤ text.utf8ByteSize := by
      rw [Text.utf8ByteSize_eq]
      exact hplaces.stop.le
    exact ⟨hfound.part.1, hfound.hasName, range, hrange, hcontains, hplaces.start_le, hstop,
      Interpreter.complete_of_signal hsignal hrange⟩
  · obtain ⟨signal, hsignal, -⟩ | ⟨heq, -, hprepared⟩ :=
      Interpreter.run_lowerAll_probed hi (.unprobed offset _ hstores) limits hmem
    · exact absurd hsignal (hunstopped signal)
    · have hprobed : probed = (plain.1, plain.2.probed offset) := heq
      rw [hprobed]
      exact ⟨rfl, rfl, rfl, rfl, (Heap.size_recode _ _).symm, hprepared.counterpart id⟩

/-- The theorem at a probe in the body of a function: where the function is called, the run stops at `le`;
where it is not, the run is that of the program. -/
theorem probing_disturbs_nothing_closure :
    let i : Interpreter := ⟨[]⟩
    let called := i.probe {} "f = \x7b it.le \x7d\nf.a = 1\nf(f)" 11
    let uncalled := i.probe {} "f = \x7b it.le \x7d\nf.a = 1" 11
    let tree := (Expr.parse .tolerant "f = \x7b it.le \x7d\nf.a = 1").exprs.getD []
    let plain := i.run {} (Expr.lowerAll { retain := true } tree)
    Interpreter.ofModules [] = .ok i ∧
      (∃ signal, called.1 = .error (.completion signal) ∧ signal.node.nameSpan = some ⟨9, 11⟩ ∧
        signal.node.hasName = true) ∧
      plain.1 = uncalled.1 ∧ plain.2.heap.size = uncalled.2.heap.size := by
  intro i called uncalled tree plain
  have hi : Interpreter.ofModules [] = .ok i := rfl
  refine ⟨hi, ?_, ?_⟩
  -- inside of the call the probe is reached, at the name it stands for
  · have hoffer : ((i.complete {} "f = \x7b it.le \x7d\nf.a = 1\nf(f)" 11).bind List.head?).map
        Candidate.range = some ⟨9, 11⟩ := by
      decide +kernel
    obtain ⟨c, hc, hrange⟩ := Option.map_eq_some_iff.mp hoffer
    obtain ⟨candidates, hcomplete, hhead⟩ := Option.bind_eq_some_iff.mp hc
    obtain ⟨signal, hsignal⟩ := Interpreter.signal_of_complete hcomplete
    obtain ⟨-, hname, range, hspan, -, -, -, candidates', hcomplete', hranges⟩ :=
      (probing_disturbs_nothing hi {} _ 11).1 signal hsignal
    cases hcomplete.symm.trans hcomplete'
    cases (hranges c (List.mem_of_head? hhead)).symm.trans hrange
    exact ⟨signal, hsignal, hspan, hname⟩
  -- without the call nothing reaches it, and the runs are the same
  · have hended : uncalled.1.toBool = true := by
      decide +kernel
    have hunstopped : ∀ signal, uncalled.1 ≠ .error (.completion signal) := by
      intro signal hs
      rw [hs] at hended
      cases hended
    have hassigned : ∀ e ∈ Expr.nodesAll tree, e.isAssignment = true →
        e.nameSpan.any (Span.contains · 11) = false := by
      decide +kernel
    have hplain := (probing_disturbs_nothing hi {} _ 11).2 hunstopped
      fun a target key span value hmem => hassigned _ hmem rfl
    exact ⟨hplain.1, hplain.2.2.2.2.1⟩

end Protean
