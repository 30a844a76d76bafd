import Protean.Completion
import Protean.Proofs.Expr.Shape
import Protean.Proofs.Source.Places

/-!
# Proofs — Expr — the places of nodes

`Expr.relocate f` moves every offset in the spans of an expression along `f`, and `Expr.Sited P` says of a
node that its span and the span of its name are there and lie between offsets that satisfy `P`.  Both
leave open where offsets come from.  `Expr.nodes` lists all nodes of a tree; what holds of each of them
holds of every node (`Expr.every_of_nodes`).

* `Expr.relocate_id`: moving nothing changes nothing.
* `Expr.Every`, `Expr.every_of_nodes`, `Expr.Every.forall_mem_nodes`: to hold of every node, by structure and by list.
* `Expr.mem_nodesAll`, `Expr.mem_nodesArgs`: the nodes of several trees.
-/

namespace Protean

/-! ### Moving

A tree is moved by moving all of its spans. -/

/-- A node whose span has been moved. -/
def Anchor.relocate (f : Nat → Nat) (a : Anchor) : Anchor := { a with span := a.span.map (·.relocate f) }

namespace Expr

mutual

/-- The expression with all offsets moved along `f`. -/
def relocate (f : Nat → Nat) : Expr → Expr
  | .identifier a name => .identifier (a.relocate f) name
  | .literal a value => .literal (a.relocate f) value
  | .bracket a inner => .bracket (a.relocate f) (inner.relocate f)
  | .field a target key span =>
    .field (a.relocate f) (target.relocate f) key (span.map (·.relocate f))
  | .call a target args trailing =>
    .call (a.relocate f) (target.relocate f) (relocateArgs f args) (relocateAll f trailing)
  | .send a target key span args trailing =>
    .send (a.relocate f) (target.relocate f) key (span.map (·.relocate f)) (relocateArgs f args)
      (relocateAll f trailing)
  | .bind a name span value => .bind (a.relocate f) name (span.map (·.relocate f)) (value.relocate f)
  | .store a target key span value =>
    .store (a.relocate f) (target.relocate f) key (span.map (·.relocate f)) (value.relocate f)
  | .destructure a names value => .destructure (a.relocate f) names (value.relocate f)
  | .function a decorators parameters body =>
    .function (a.relocate f) decorators parameters (relocateAll f body)
  | .builtin a which => .builtin (a.relocate f) which

/-- The trees of a body with their spans moved. -/
def relocateAll (f : Nat → Nat) : List Expr → List Expr
  | [] => []
  | e :: es => e.relocate f :: relocateAll f es

/-- The trees of arguments with their spans moved. -/
def relocateArgs (f : Nat → Nat) : List (Argument Expr) → List (Argument Expr)
  | [] => []
  | ⟨name, e⟩ :: args => ⟨name, e.relocate f⟩ :: relocateArgs f args

end

section
variable (f : Nat → Nat)

/-- The trees of a body are moved one at a time. -/
theorem relocateAll_eq_map (es : List Expr) : relocateAll f es = es.map (relocate f) := by
  induction es with
  | nil => rfl
  | cons e es ih => rw [relocateAll, ih, List.map_cons]

/-- The trees of arguments are moved one at a time, and keep their names. -/
theorem relocateArgs_eq_map (args : List (Argument Expr)) :
    relocateArgs f args = args.map fun a => ⟨a.name, a.value.relocate f⟩ := by
  induction args with
  | nil => rfl
  | cons a args ih => rw [relocateArgs, ih, List.map_cons]

/-- The span of a moved tree is the moved span. -/
@[simp] theorem span_relocate (e : Expr) : (e.relocate f).span = e.span.map (·.relocate f) := by
  cases e <;> rw [relocate] <;> rfl

@[simp] theorem spanOr_relocate (e : Expr) (other : Span) :
    (e.relocate f).spanOr (other.relocate f) = (e.spanOr other).relocate f := by
  rw [spanOr, span_relocate, Option.getD_map, spanOr]

end

mutual

/-- **Moving nothing changes nothing**, by induction on the tree. -/
theorem relocate_id : ∀ e : Expr, e.relocate id = e
  | .identifier .. | .literal .. | .builtin .. => by simp [relocate, Anchor.relocate]
  | .bracket _ e | .destructure _ _ e | .field _ e _ _ | .bind _ _ _ e => by
      simp [relocate, Anchor.relocate, relocate_id e]
  | .call _ e args trailing | .send _ e _ _ args trailing => by
      simp [relocate, Anchor.relocate, relocate_id e, relocateArgs_id args, relocateAll_id trailing]
  | .store _ target _ _ value => by
      simp [relocate, Anchor.relocate, relocate_id target, relocate_id value]
  | .function _ _ _ body => by simp [relocate, Anchor.relocate, relocateAll_id body]

theorem relocateAll_id : ∀ es : List Expr, relocateAll id es = es
  | [] => rfl
  | e :: es => by rw [relocateAll, relocate_id e, relocateAll_id es]

theorem relocateArgs_id : ∀ args : List (Argument Expr), relocateArgs id args = args
  | [] => rfl
  | ⟨_, e⟩ :: args => by rw [relocateArgs, relocate_id e, relocateArgs_id args]

end

/-- The node and its name stand in the text, between offsets that satisfy `P`. -/
structure Sited (P : Nat → Prop) (e : Expr) : Prop where
  span : ∃ span, e.span = some span ∧ span.Sited P
  nameSpan : ∃ span, e.nameSpan = some span ∧ span.Sited P

/-- The span of a tree that has its place, or another one that has, has its place. -/
theorem Sited.spanOr {P : Nat → Prop} {e : Expr} (h : e.Sited P) (other : Span) :
    (e.spanOr other).Sited P := by
  obtain ⟨span, heq, hspan⟩ := h.span
  rwa [Expr.spanOr, heq]

/-! ### All nodes

The nodes of a tree as a list, which is what is said of all of them. -/

mutual

/-- The nodes of a tree, the root first. -/
def nodes : Expr → List Expr
  | e@(.identifier ..) | e@(.literal ..) | e@(.builtin ..) => [e]
  | e@(.bracket _ inner) => e :: inner.nodes
  | e@(.field _ target _ _) => e :: target.nodes
  | e@(.call _ target args trailing) =>
    e :: (target.nodes ++ nodesArgs args ++ nodesAll trailing)
  | e@(.send _ target _ _ args trailing) =>
    e :: (target.nodes ++ nodesArgs args ++ nodesAll trailing)
  | e@(.bind _ _ _ value) => e :: value.nodes
  | e@(.store _ target _ _ value) => e :: (target.nodes ++ value.nodes)
  | e@(.destructure _ _ value) => e :: value.nodes
  | e@(.function _ _ _ body) => e :: nodesAll body

/-- The nodes of all trees of a body. -/
def nodesAll : List Expr → List Expr
  | [] => []
  | e :: es => e.nodes ++ nodesAll es

/-- The nodes of the trees of all arguments. -/
def nodesArgs : List (Argument Expr) → List Expr
  | [] => []
  | ⟨_, e⟩ :: args => e.nodes ++ nodesArgs args

end

section
variable {P : Expr → Prop}

mutual

/-- What holds of all nodes in the list holds of every node of the tree, by induction on the tree. -/
theorem every_of_nodes : ∀ {e : Expr}, (∀ n ∈ e.nodes, P n) → e.Every P
  | .identifier .., h => .identifier (h _ (by simp [nodes]))
  | .literal .., h => .literal (h _ (by simp [nodes]))
  | .builtin .., h => .builtin (h _ (by simp [nodes]))
  | .bracket _ e, h => by
      rw [nodes, List.forall_mem_cons] at h
      exact .bracket h.1 (every_of_nodes h.2)
  | .field _ e _ _, h => by
      rw [nodes, List.forall_mem_cons] at h
      exact .field h.1 (every_of_nodes h.2)
  | .bind _ _ _ e, h => by
      rw [nodes, List.forall_mem_cons] at h
      exact .bind h.1 (every_of_nodes h.2)
  | .destructure _ _ e, h => by
      rw [nodes, List.forall_mem_cons] at h
      exact .destructure h.1 (every_of_nodes h.2)
  | .store _ target _ _ value, h => by
      rw [nodes, List.forall_mem_cons, List.forall_mem_append] at h
      exact .store h.1 (every_of_nodes h.2.1) (every_of_nodes h.2.2)
  | .call _ e args trailing, h => by
      rw [nodes, List.forall_mem_cons, List.forall_mem_append, List.forall_mem_append] at h
      exact .call h.1 (every_of_nodes h.2.1.1) (every_of_nodesArgs h.2.1.2) (every_of_nodesAll h.2.2)
  | .send _ e _ _ args trailing, h => by
      rw [nodes, List.forall_mem_cons, List.forall_mem_append, List.forall_mem_append] at h
      exact .send h.1 (every_of_nodes h.2.1.1) (every_of_nodesArgs h.2.1.2) (every_of_nodesAll h.2.2)
  | .function _ _ _ body, h => by
      rw [nodes, List.forall_mem_cons] at h
      exact .function h.1 (every_of_nodesAll h.2)

theorem every_of_nodesAll : ∀ {es : List Expr}, (∀ n ∈ nodesAll es, P n) → ∀ e ∈ es, e.Every P
  | [], _ => List.forall_mem_nil _
  | e :: es, h => by
      rw [nodesAll, List.forall_mem_append] at h
      exact List.forall_mem_cons.mpr ⟨every_of_nodes h.1, every_of_nodesAll h.2⟩

theorem every_of_nodesArgs : ∀ {args : List (Argument Expr)}, (∀ n ∈ nodesArgs args, P n) →
    ∀ a ∈ args, a.value.Every P
  | [], _ => List.forall_mem_nil _
  | ⟨_, e⟩ :: args, h => by
      rw [nodesArgs, List.forall_mem_append] at h
      exact List.forall_mem_cons.mpr ⟨every_of_nodes h.1, every_of_nodesArgs h.2⟩

end

/-- A node of a body is a node of one of its trees. -/
theorem mem_nodesAll {n : Expr} {es : List Expr} : n ∈ nodesAll es ↔ ∃ e ∈ es, n ∈ e.nodes := by
  induction es with
  | nil => simp [nodesAll]
  | cons e es ih => simp [nodesAll, ih]

/-- A node of arguments is a node of one of their trees. -/
theorem mem_nodesArgs {n : Expr} {args : List (Argument Expr)} :
    n ∈ nodesArgs args ↔ ∃ a ∈ args, n ∈ a.value.nodes := by
  induction args with
  | nil => simp [nodesArgs]
  | cons a args ih => simp [nodesArgs, ih]

/-- What holds of every node of the tree holds of all nodes in the list. -/
theorem Every.forall_mem_nodes {e : Expr} (h : e.Every P) : ∀ n ∈ e.nodes, P n := by
  induction h with
  | identifier h | literal h | builtin h => exact List.forall_mem_singleton.mpr h
  | bracket h _ ih | field h _ ih | bind h _ ih | destructure h _ ih =>
    exact List.forall_mem_cons.mpr ⟨h, ih⟩
  | store h _ _ iht ihv => exact List.forall_mem_cons.mpr ⟨h, List.forall_mem_append.mpr ⟨iht, ihv⟩⟩
  | call h _ _ _ ih iha iht | send h _ _ _ ih iha iht =>
    refine List.forall_mem_cons.mpr ⟨h, List.forall_mem_append.mpr
      ⟨List.forall_mem_append.mpr ⟨ih, fun n hn => ?_⟩, fun n hn => ?_⟩⟩
    · obtain ⟨a, ha, hn⟩ := mem_nodesArgs.mp hn
      exact iha a ha n hn
    · obtain ⟨f, hf, hn⟩ := mem_nodesAll.mp hn
      exact iht f hf n hn
  | function h _ ih =>
    refine List.forall_mem_cons.mpr ⟨h, fun n hn => ?_⟩
    obtain ⟨e, he, hn⟩ := mem_nodesAll.mp hn
    exact ih e he n hn

end

end Expr

end Protean
