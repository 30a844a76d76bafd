import Protean.Code.Lower

/-!
# Proofs — Code — forgetting sources

`Labeled.forget` drops the source of a value, and `Code.forget` drops all origins of a piece of code
and the sources of its constants.  Lowering without origins is lowering with them and forgetting
(`Expr.forget_lower`), and forgetting leaves the nesting of code as it is (`Code.height_forget`).

Code is *lowered* when it is a constant or what an expression has been lowered to.  All code that ever
runs is.

* `Labeled.forget_value`, `Labeled.orSource_forget`: a label never changes the value.
* `Code.height_forget`: code that has forgotten is nested as deeply, so that it takes the same fuel.
* `Expr.forget_lower`, `Expr.lowered_lower`: lowering and forgetting, lowering and being lowered.
-/

namespace Protean

namespace Labeled

/-- The value without its source. -/
def forget (v : Labeled) : Labeled := .bare v.value

@[simp] theorem forget_value (v : Labeled) : v.forget.value = v.value := rfl

/-- A value without a source has nothing to forget. -/
@[simp] theorem forget_bare (v : Value) : (bare v).forget = bare v := rfl

/-- A label that is put on is forgotten, too. -/
@[simp] theorem orSource_forget (v : Labeled) (origin : Option Expr) :
    (v.orSource origin).forget = v.forget := by
  rcases v with ⟨_, _ | _⟩ <;> rfl

/-- A value that has forgotten gets no label from code without an origin. -/
@[simp] theorem forget_orSource (v : Labeled) : v.forget.orSource none = v.forget := rfl

end Labeled

/-! ### Code

Forgetting, node by node, for code, bodies and arguments. -/

namespace Code

mutual

/-- The code without origins, and with constants without sources. -/
def forget : Code → Code
  | .const v => .const v.forget
  | .identifier _ name => .identifier none name
  | .literal _ value => .literal none value
  | .bracket _ inner => .bracket none inner.forget
  | .field _ target key => .field none target.forget key
  | .call _ target args => .call none target.forget (forgetArgs args)
  | .send _ target key args => .send none target.forget key (forgetArgs args)
  | .bind _ name value => .bind none name value.forget
  | .store _ target key value => .store none target.forget key value.forget
  | .destructure _ names value => .destructure none names value.forget
  | .function _ decorators parameters body => .function none decorators parameters (forgetAll body)
  | .builtin _ which => .builtin none which
  | .probeScope _ node => .probeScope none node
  | .probeField _ target node => .probeField none target.forget node

/-- All of the code in a body without its origins. -/
def forgetAll : List Code → List Code
  | [] => []
  | c :: cs => c.forget :: forgetAll cs

/-- The code of all arguments without its origins. -/
def forgetArgs : List (Argument Code) → List (Argument Code)
  | [] => []
  | ⟨name, c⟩ :: args => ⟨name, c.forget⟩ :: forgetArgs args

end

@[simp] theorem origin_forget (c : Code) : c.forget.origin = none := by
  cases c <;> simp [forget, origin]

/-- Each argument keeps its name and forgets by itself. -/
theorem forgetArgs_eq_map :
    ∀ args : List (Argument Code), forgetArgs args = args.map fun a => ⟨a.name, a.value.forget⟩
  | [] => rfl
  | a :: args => by rw [forgetArgs, forgetArgs_eq_map args, List.map_cons]

theorem forgetArgs_append (args args' : List (Argument Code)) :
    forgetArgs (args ++ args') = forgetArgs args ++ forgetArgs args' := by
  simp only [forgetArgs_eq_map, List.map_append]

mutual

/-- **Forgetting keeps the height**, by induction on the code. -/
@[simp] theorem height_forget : ∀ c : Code, c.forget.height = c.height
  | .const _ | .identifier .. | .literal .. | .builtin .. | .probeScope .. => by
      simp only [forget, height]
  | .bracket _ c | .field _ c _ | .bind _ _ c | .destructure _ _ c | .probeField _ c _ => by
      simp only [forget, height, height_forget c]
  | .call _ c args | .send _ c _ args => by
      simp only [forget, height, height_forget c, argsHeight_forget args]
  | .store _ target _ value => by
      simp only [forget, height, height_forget target, height_forget value]
  | .function _ _ _ body => by simp only [forget, height, bodyHeight_forget body]

@[simp] theorem bodyHeight_forget : ∀ cs : List Code, bodyHeight (forgetAll cs) = bodyHeight cs
  | [] => rfl
  | c :: cs => by simp only [forgetAll, bodyHeight, height_forget c, bodyHeight_forget cs]

@[simp] theorem argsHeight_forget :
    ∀ args : List (Argument Code), argsHeight (forgetArgs args) = argsHeight args
  | [] => rfl
  | ⟨_, c⟩ :: args => by
      simp only [forgetArgs, argsHeight, height_forget c, argsHeight_forget args]

end

end Code

/-! ### Lowered code

To lower a tree without origins is to lower it and to forget them. -/

/-- The same lowering without origins. -/
def Lowering.forget (l : Lowering) : Lowering := { l with retain := false }

/-- Which names give way to a probe does not depend on what is remembered. -/
@[simp] theorem Lowering.hits_forget (l : Lowering) (span : Option Span) :
    l.forget.hits span = l.hits span := rfl

/-- A lowering that remembers nothing gives no origins. -/
@[simp] theorem Lowering.origin_forget (l : Lowering) (e : Expr) : l.forget.origin e = none := rfl

namespace Expr

mutual

/-- **Lowering without origins** is lowering and forgetting. -/
theorem forget_lower (l : Lowering) : ∀ e : Expr, (e.lower l).forget = e.lower l.forget
  | .identifier a _ => by
      cases hhit : l.hits a.span <;> simp [lower, hhit, Code.forget]
  | .literal _ _ | .builtin _ _ => by simp only [lower, Code.forget, Lowering.origin_forget]
  | .bracket _ e | .destructure _ _ e => by
      simp only [lower, Code.forget, Lowering.origin_forget, forget_lower l e]
  | .field _ e _ span | .bind _ _ span e => by
      cases hhit : l.hits span <;> simp [lower, hhit, Code.forget, forget_lower l e]
  | .call _ e args trailing => by
      simp only [lower, Code.forget, Lowering.origin_forget, Code.forgetArgs_append,
        forget_lower l e, forget_lowerArgs l args, forget_lowerTrailing l trailing]
  | .send _ e _ span args trailing => by
      cases hhit : l.hits span <;> simp [lower, hhit, Code.forget, Code.forgetArgs_append,
        forget_lower l e, forget_lowerArgs l args, forget_lowerTrailing l trailing]
  | .store _ target _ span value => by
      cases hhit : l.hits span <;>
        simp [lower, hhit, Code.forget, forget_lower l target, forget_lower l value]
  | .function _ _ _ body => by
      simp only [lower, Code.forget, Lowering.origin_forget, forget_lowerAll l body]

theorem forget_lowerAll (l : Lowering) :
    ∀ es : List Expr, Code.forgetAll (lowerAll l es) = lowerAll l.forget es
  | [] => rfl
  | e :: es => by simp only [lowerAll, Code.forgetAll, forget_lower l e, forget_lowerAll l es]

theorem forget_lowerArgs (l : Lowering) :
    ∀ args : List (Argument Expr), Code.forgetArgs (lowerArgs l args) = lowerArgs l.forget args
  | [] => rfl
  | ⟨_, e⟩ :: args => by
      simp only [lowerArgs, Code.forgetArgs, forget_lower l e, forget_lowerArgs l args]

/-- Lowering functions behind the arguments commutes with forgetting. -/
theorem forget_lowerTrailing (l : Lowering) :
    ∀ es : List Expr, Code.forgetArgs (lowerTrailing l es) = lowerTrailing l.forget es
  | [] => rfl
  | e :: es => by
      simp only [lowerTrailing, Code.forgetArgs, forget_lower l e, forget_lowerTrailing l es]

end

end Expr

/-- A constant, or what an expression has been lowered to. -/
def Code.Lowered (c : Code) : Prop := (∃ v, c = .const v) ∨ ∃ l e, c = Expr.lower l e

/-- What an expression is lowered to is lowered. -/
theorem Expr.lowered_lower (l : Lowering) (e : Expr) : (e.lower l).Lowered := .inr ⟨l, e, rfl⟩

/-- Each part of a lowered body is lowered. -/
theorem Expr.lowered_lowerAll (l : Lowering) (es : List Expr) :
    ∀ c ∈ lowerAll l es, c.Lowered := by
  induction es with
  | nil => exact nofun
  | cons e es ih => exact List.forall_mem_cons.mpr ⟨e.lowered_lower l, ih⟩

/-- Each argument of a lowered call is lowered. -/
theorem Expr.lowered_lowerArgs (l : Lowering) (args : List (Argument Expr)) (trailing : List Expr) :
    ∀ a ∈ lowerArgs l args ++ lowerTrailing l trailing, a.value.Lowered := by
  have htrailing : ∀ a ∈ lowerTrailing l trailing, a.value.Lowered := by
    induction trailing with
    | nil => exact nofun
    | cons e trailing ih => exact List.forall_mem_cons.mpr ⟨e.lowered_lower l, ih⟩
  induction args with
  | nil => exact htrailing
  | cons a args ih => exact List.forall_mem_cons.mpr ⟨a.value.lowered_lower l, ih⟩

end Protean
