import Protean.Proofs.Expr.Places

/-!
# Proofs — Code — code with a probe

A probe takes the place of a node whose name touches the cursor.  Code that remembers its expression can be
lowered from it once more, so `Code.probed` puts probes into code that was lowered without them, and leaves
code that remembers nothing as it is.

What code with probes is compared with is a `Probing`.  Its code is *prepared*: a constant, a program
whose nodes are all known to be parts of the probed one, or a library without origins, in which there
is nothing to probe.  The two lowerings of prepared code are a `Probing.Pair`, and a proof about one node
needs no more than what holds of both kinds of pairs.

* `Code.probed`: code with a probe put in.
* `Probing.Pair.probed_lower`: putting a probe into lowered code is lowering with a probe.
* `Probing.Pair.prepared_lowerAll`, `Probing.Pair.prepared_arguments`: what prepared code is made of is prepared.
* `Probing.Pair.found`: a probe that is there stands for a name of the program at the cursor.
-/

namespace Protean

/-- Lowering with origins and with a probe for the name at `offset`. -/
def Lowering.probing (offset : Nat) : Lowering := { retain := true, cursor := some offset }

/-- The lowering with a probe puts it where the cursor is in the span of a name. -/
@[simp] theorem Lowering.hits_probing {offset : Nat} {span : Option Span} :
    (probing offset).hits span = true ↔ ∃ s, span = some s ∧ s.contains offset = true := by
  cases span <;> simp [hits, probing]

@[simp] theorem Lowering.hits_no_cursor (retain : Bool) (span : Option Span) :
    Lowering.hits { retain := retain } span = false := by
  simp [hits]

namespace Expr

/-- Whether the node is about one name: only such nodes give way to a probe. -/
def hasName : Expr → Bool
  | .identifier .. | .field .. | .send .. | .bind .. | .store .. => true
  | .literal .. | .bracket .. | .call .. | .destructure .. | .function .. | .builtin .. => false

/-- The origin of lowered code is the expression, if the lowering remembers. -/
theorem origin_lower (l : Lowering) (e : Expr) : (e.lower l).origin = l.origin e := by
  cases e with
  | identifier a _ => rw [lower]; split <;> rfl
  | field _ _ _ span | send _ _ _ span _ _ | bind _ _ span _ | store _ _ _ span _ =>
    rw [lower]; split <;> rfl
  | literal | bracket | call | destructure | function | builtin => rw [lower]; rfl

/-- A body is lowered one expression at a time. -/
theorem lowerAll_eq_map (l : Lowering) (es : List Expr) : lowerAll l es = es.map (lower l) := by
  induction es with
  | nil => rfl
  | cons e es ih => rw [lowerAll, ih, List.map_cons]

/-- Arguments are lowered one at a time, and keep their names. -/
theorem lowerArgs_eq_map (l : Lowering) (args : List (Argument Expr)) :
    lowerArgs l args = args.map fun a => ⟨a.name, a.value.lower l⟩ := by
  induction args with
  | nil => rfl
  | cons a args ih => rw [lowerArgs, ih, List.map_cons]

/-- Functions behind the arguments become arguments without a name. -/
theorem lowerTrailing_eq_map (l : Lowering) (es : List Expr) :
    lowerTrailing l es = es.map fun e => ⟨none, e.lower l⟩ := by
  induction es with
  | nil => rfl
  | cons e es ih => rw [lowerTrailing, ih, List.map_cons]

end Expr

/-! ### Putting in probes

A probe takes the place of a node whose name is at the offset. -/

/-- The code with a probe for the name at `offset`, as far as it remembers what it was lowered from. -/
def Code.probed (offset : Nat) (c : Code) : Code :=
  match c.origin with
  | some e => e.lower (.probing offset)
  | none => c

/-- Code with a probe comes from the same expression. -/
@[simp] theorem Code.origin_probed (offset : Nat) (c : Code) : (c.probed offset).origin = c.origin := by
  rw [probed]
  split
  · next e heq => rw [Expr.origin_lower, heq]; rfl
  · rfl

/-- The argument with a probe in its code. -/
def Argument.probed (offset : Nat) (a : Argument Code) : Argument Code := ⟨a.name, a.value.probed offset⟩

/-- The function with probes in its body. -/
def Lambda.probed (offset : Nat) (lambda : Lambda) : Lambda :=
  { lambda with body := lambda.body.map (Code.probed offset) }

/-! ### What a run with a probe is compared with

What is known of the program: where its nodes are, and which lowerings of a part are compared. -/

/-- A lowering `plain` of a program with the nodes `part`, to be compared with the lowering that probes
at `offset`.  It probes no more than that one, and as much where fields are assigned. -/
structure Probing where
  offset : Nat
  plain : Lowering
  part : Expr → Prop
  retain : plain.retain = true
  hits : ∀ {span}, plain.hits span = true → (Lowering.probing offset).hits span = true
  stores : ∀ {a target key span value}, part (.store a target key span value) →
    (Lowering.probing offset).hits span = true → plain.hits span = true

namespace Probing

/-- The run with the probe compared with itself: it stops at names of the program only. -/
def itself (offset : Nat) (part : Expr → Prop) : Probing where
  offset := offset
  plain := .probing offset
  part := part
  retain := rfl
  hits := id
  stores := fun _ => id

/-- The run with the probe compared with the run without, where no field at the offset is assigned. -/
def unprobed (offset : Nat) (part : Expr → Prop)
    (hstores : ∀ a target key span value, part (.store a target key (some span) value) →
      span.contains offset = false) : Probing where
  offset := offset
  plain := { retain := true }
  part := part
  retain := rfl
  hits := by simp
  stores := by
    intro a target key span value hpart hhit
    obtain ⟨span, rfl, hcontains⟩ := Lowering.hits_probing.mp hhit
    rw [hstores a target key span value hpart] at hcontains
    cases hcontains

/-- A comparison of no program at all, only of libraries. -/
def ofLibraries (offset : Nat) : Probing := unprobed offset (fun _ => False) fun _ _ _ _ _ => False.elim

variable {P : Probing} {l l' : Lowering} {Q : Expr → Prop}

/-- A part of the program that is about one name, with the offset in the span of this name. -/
structure Found (P : Probing) (e : Expr) : Prop where
  part : P.part e
  hasName : e.hasName = true
  nameSpan : ∃ span, e.nameSpan = some span ∧ span.contains P.offset = true

/-- Two lowerings that code of one run and code of the other come from, for expressions with nodes in
`Q`. -/
inductive Pair (P : Probing) : Lowering → Lowering → (Expr → Prop) → Prop where
  | program : P.Pair P.plain (.probing P.offset) P.part
  | library : P.Pair { retain := false } { retain := false } fun _ => True

namespace Pair

theorem origin (h : P.Pair l l' Q) (e : Expr) : l.origin e = l'.origin e := by
  cases h with
  | program => rw [Lowering.origin, P.retain]; rfl
  | library => rfl

/-- **To put in the probe is to lower once more**: for the program this is what `Code.probed` does, and in a
library there is nothing to probe. -/
theorem probed_lower (h : P.Pair l l' Q) (e : Expr) : (e.lower l).probed P.offset = e.lower l' := by
  rw [Code.probed, Expr.origin_lower]
  cases h with
  | program => rw [Lowering.origin, P.retain]; rfl
  | library => rfl

/-- Where the lowering with the probe has none, the other has none either. -/
theorem hits (h : P.Pair l l' Q) {span : Option Span} (hl' : ¬ l'.hits span = true) :
    l.hits span = false := by
  cases h with
  | program => exact Bool.eq_false_iff.mpr fun hl => hl' (P.hits hl)
  | library => simp

/-- Where a field is assigned, the two put their probes at the same places. -/
theorem stores (h : P.Pair l l' Q) {a target key span value}
    (hstore : Q (.store a target key span value)) (hl' : l'.hits span = true) :
    l.hits span = true := by
  cases h with
  | program => exact P.stores hstore hl'
  | library => simp at hl'

/-- A probe that is put in stands for a name of the program with the cursor in its span. -/
theorem found (h : P.Pair l l' Q) {e : Expr} (he : Q e) (hname : e.hasName = true)
    (hl' : l'.hits e.nameSpan = true) : P.Found e := by
  cases h with
  | program => exact ⟨he, hname, Lowering.hits_probing.mp hl'⟩
  | library => simp at hl'

end Pair

end Probing

/-! ### Prepared code

Code that has all that a probe at the offset could stand for, so that putting it in is defined. -/

/-- A constant, or what an expression of the program or of a library has been lowered to. -/
inductive Code.Prepared (P : Probing) : Code → Prop where
  | const (v : Labeled) : Prepared P (.const v)
  | lower {l l' Q} {e : Expr} (hpair : P.Pair l l' Q) (he : e.Every Q) : Prepared P (e.lower l)

/-- The body of the function has been lowered from that of a literal. -/
def Lambda.Prepared (P : Probing) (lambda : Lambda) : Prop :=
  ∃ l l' Q anchor body, P.Pair l l' Q ∧
    (Expr.function anchor lambda.decorators lambda.parameters body).Every Q ∧
      lambda.body = Expr.lowerAll l body

namespace Probing.Pair

variable {P : Probing} {l l' : Lowering} {Q : Expr → Prop}

/-- The parts of a body that comes from prepared code are prepared. -/
theorem prepared_lowerAll (h : P.Pair l l' Q) {es : List Expr} (hes : ∀ e ∈ es, e.Every Q) :
    ∀ c ∈ Expr.lowerAll l es, c.Prepared P := by
  rw [Expr.lowerAll_eq_map, List.forall_mem_map]
  exact fun e he => .lower h (hes e he)

/-- A body gets its probes part by part. -/
theorem probed_lowerAll (h : P.Pair l l' Q) (es : List Expr) :
    (Expr.lowerAll l es).map (Code.probed P.offset) = Expr.lowerAll l' es := by
  rw [Expr.lowerAll_eq_map, Expr.lowerAll_eq_map, List.map_map]
  exact List.map_congr_left fun e _ => h.probed_lower e

/-- The arguments of a call that comes from prepared code are prepared. -/
theorem prepared_arguments (h : P.Pair l l' Q) {args : List (Argument Expr)} {trailing : List Expr}
    (hargs : ∀ a ∈ args, a.value.Every Q) (htrailing : ∀ e ∈ trailing, e.Every Q) :
    ∀ a ∈ Expr.lowerArgs l args ++ Expr.lowerTrailing l trailing, a.value.Prepared P := by
  rw [Expr.lowerArgs_eq_map, Expr.lowerTrailing_eq_map, List.forall_mem_append, List.forall_mem_map,
    List.forall_mem_map]
  exact ⟨fun a ha => .lower h (hargs a ha), fun e he => .lower h (htrailing e he)⟩

/-- Arguments get their probes one at a time. -/
theorem probed_arguments (h : P.Pair l l' Q) (args : List (Argument Expr)) (trailing : List Expr) :
    (Expr.lowerArgs l args ++ Expr.lowerTrailing l trailing).map (Argument.probed P.offset) =
      Expr.lowerArgs l' args ++ Expr.lowerTrailing l' trailing := by
  simp only [Expr.lowerArgs_eq_map, Expr.lowerTrailing_eq_map, List.map_append, List.map_map]
  congr 1
  · exact List.map_congr_left fun a _ => congrArg (Argument.mk a.name) (h.probed_lower a.value)
  · exact List.map_congr_left fun e _ => congrArg (Argument.mk none) (h.probed_lower e)

end Probing.Pair

end Protean
