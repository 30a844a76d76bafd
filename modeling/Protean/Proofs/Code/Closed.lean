import Protean.Code.Lower
import Protean.Proofs.Heap.WellFormed

/-!
# Proofs — Code — constants

Code holds values only as constants, which calls put in front of or in place of their arguments.
`Code.Below n` says that all constants of a piece of code, bodies of functions included, are among the
first `n` objects.  Lowered expressions have no constants at all (`lower_below`).

A heap is *consistent* when it is well-formed and the code of its functions mentions only objects that
are there.

* `Code.below_mono`: code stays below when the heap grows.
* `Expr.lower_below`: lowering makes no constants.
* `Heap.Consistent.alloc`: the only operation that adds code.
-/

namespace Protean

namespace Code

mutual

/-- Every constant is no object or one of the first `n`. -/
def Below (n : Nat) : Code → Prop
  | .const v => v.value.Below n
  | .identifier .. | .literal .. | .builtin .. | .probeScope .. => True
  | .bracket _ c | .field _ c _ | .bind _ _ c | .destructure _ _ c | .probeField _ c _ => c.Below n
  | .call _ c args | .send _ c _ args => c.Below n ∧ ArgsBelow n args
  | .store _ target _ value => target.Below n ∧ value.Below n
  | .function _ _ _ body => BodyBelow n body

/-- All constants of a body are among the first `n` objects. -/
def BodyBelow (n : Nat) : List Code → Prop
  | [] => True
  | c :: cs => c.Below n ∧ BodyBelow n cs

/-- All constants of arguments are among the first `n` objects. -/
def ArgsBelow (n : Nat) : List (Argument Code) → Prop
  | [] => True
  | ⟨_, c⟩ :: args => c.Below n ∧ ArgsBelow n args

end

mutual

/-- Code that mentions objects of a heap only does so for any larger heap. -/
theorem below_mono {n n' : Nat} (hn : n ≤ n') : ∀ c : Code, c.Below n → c.Below n'
  | .const _, hc => Value.Below.mono hn hc
  | .identifier .., _ | .literal .., _ | .builtin .., _ | .probeScope .., _ => trivial
  | .bracket _ c, hc | .field _ c _, hc | .bind _ _ c, hc | .destructure _ _ c, hc
  | .probeField _ c _, hc => below_mono hn c hc
  | .call _ c args, ⟨hc, hargs⟩ | .send _ c _ args, ⟨hc, hargs⟩ =>
      ⟨below_mono hn c hc, argsBelow_mono hn args hargs⟩
  | .store _ target _ value, ⟨htarget, hvalue⟩ =>
      ⟨below_mono hn target htarget, below_mono hn value hvalue⟩
  | .function _ _ _ body, hbody => bodyBelow_mono hn body hbody

theorem bodyBelow_mono {n n' : Nat} (hn : n ≤ n') :
    ∀ cs : List Code, BodyBelow n cs → BodyBelow n' cs
  | [], _ => trivial
  | c :: cs, ⟨hc, hcs⟩ => ⟨below_mono hn c hc, bodyBelow_mono hn cs hcs⟩

theorem argsBelow_mono {n n' : Nat} (hn : n ≤ n') :
    ∀ args : List (Argument Code), ArgsBelow n args → ArgsBelow n' args
  | [], _ => trivial
  | ⟨_, c⟩ :: args, ⟨hc, hargs⟩ => ⟨below_mono hn c hc, argsBelow_mono hn args hargs⟩

end

theorem ArgsBelow.of_mem {n : Nat} {a : Argument Code} :
    ∀ {args : List (Argument Code)}, ArgsBelow n args → a ∈ args → a.value.Below n
  | _ :: _, ⟨hc, hargs⟩, hmem => by
      rcases List.mem_cons.mp hmem with rfl | hmem
      · exact hc
      · exact hargs.of_mem hmem

/-- Arguments and more arguments are below if both are. -/
theorem argsBelow_append {n : Nat} {args args' : List (Argument Code)} (h : ArgsBelow n args)
    (h' : ArgsBelow n args') : ArgsBelow n (args ++ args') := by
  induction args with
  | nil => exact h'
  | cons a args ih => exact ⟨h.1, ih h.2⟩

end Code

/-! ### Lowered code

The lowering of a tree mentions no objects, with or without origins. -/

namespace Expr

mutual

/-- Lowered expressions have no constants. -/
theorem lower_below (l : Lowering) (n : Nat) : ∀ e : Expr, (e.lower l).Below n
  | .identifier _ _ => by rw [lower]; split <;> trivial
  | .literal _ _ | .builtin _ _ => trivial
  | .bracket _ e | .destructure _ _ e => lower_below l n e
  | .field _ e _ _ => by rw [lower]; split <;> exact lower_below l n e
  | .call _ e args trailing =>
      ⟨lower_below l n e,
        Code.argsBelow_append (lowerArgs_below l n args) (lowerTrailing_below l n trailing)⟩
  | .send _ e _ _ args trailing => by
      rw [lower]
      split
      · exact lower_below l n e
      · exact ⟨lower_below l n e,
          Code.argsBelow_append (lowerArgs_below l n args) (lowerTrailing_below l n trailing)⟩
  | .bind _ _ _ e => by
      rw [lower]
      split
      · trivial
      · exact lower_below l n e
  | .store _ target _ _ value => by
      rw [lower]
      split
      · exact lower_below l n target
      · exact ⟨lower_below l n target, lower_below l n value⟩
  | .function _ _ _ body => lowerAll_below l n body

theorem lowerAll_below (l : Lowering) (n : Nat) :
    ∀ es : List Expr, Code.BodyBelow n (lowerAll l es)
  | [] => trivial
  | e :: es => ⟨lower_below l n e, lowerAll_below l n es⟩

theorem lowerArgs_below (l : Lowering) (n : Nat) :
    ∀ args : List (Argument Expr), Code.ArgsBelow n (lowerArgs l args)
  | [] => trivial
  | ⟨_, e⟩ :: args => ⟨lower_below l n e, lowerArgs_below l n args⟩

theorem lowerTrailing_below (l : Lowering) (n : Nat) :
    ∀ es : List Expr, Code.ArgsBelow n (lowerTrailing l es)
  | [] => trivial
  | e :: es => ⟨lower_below l n e, lowerTrailing_below l n es⟩

end

end Expr

/-! ### Consistent heaps

Well-formed heaps whose functions mention nothing but objects of the heap. -/

/-- The code of a function mentions only the first `n` objects. -/
def ObjectKind.Closed (n : Nat) : ObjectKind → Prop
  | .plain | .builtin _ _ => True
  | .function lambda _ => Code.BodyBelow n lambda.body

/-- What an object needs for a call is there on any larger heap. -/
theorem ObjectKind.Closed.mono {n n' : Nat} (hn : n ≤ n') {k : ObjectKind} (hk : k.Closed n) :
    k.Closed n' := by
  cases k with
  | plain | builtin _ _ => trivial
  | function _ _ => exact Code.bodyBelow_mono hn _ hk

namespace Heap

/-- The heap is well-formed, and its functions mention only objects that are there. -/
structure Consistent (h : Heap) : Prop where
  wellFormed : h.WellFormed
  closed : ∀ id, (h.get id).kind.Closed h.size

theorem consistent_initial : initial.Consistent := by
  refine ⟨wellFormed_initial, fun id => ?_⟩
  rw [kind_initial]
  trivial

namespace Consistent

variable {h h' : Heap}

/-- A new object keeps the heap consistent if what it needs for a call is there. -/
theorem alloc {o : Object} (hc : h.Consistent) (hch : Change h (h.alloc o).2)
    (ho : o.kind.Closed h.size) : (h.alloc o).2.Consistent := by
  refine ⟨hch.wellFormed hc.wellFormed, fun id => ?_⟩
  rw [get_alloc, size_alloc]
  split
  · exact ho.mono (Nat.le_succ _)
  · exact (hc.closed id).mono (Nat.le_succ _)

/-- An operation that allocates nothing. -/
theorem update (hc : h.Consistent) (hch : Change h h') (hsize : h'.size = h.size) :
    h'.Consistent := by
  refine ⟨hch.wellFormed hc.wellFormed, fun id => ?_⟩
  by_cases hid : id < h.size
  · rw [hch.toExtends.kind_eq id hid, hsize]
    exact hc.closed id
  · rw [get_of_size_le (hsize ▸ Nat.le_of_not_lt hid)]
    trivial

end Consistent

end Heap

end Protean
