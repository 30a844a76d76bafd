import Protean.Proofs.Machine.Safety

/-!
# Proofs — Builtin — safety of builtin functions

Every builtin function keeps the heap consistent, given an evaluator for its lazy arguments and an
invoker for its callbacks that do (`apply_safe`).  Most of them never touch the heap; those that do
write only what they were given.

The lemmas are about one Lean function each, in the order of their definitions: first the helpers that several
builtins share (`expectNumber_safe`, …, `onNumbers_safe`), then the builtins that have a body of their own
(`newObject_safe`, …, `chooseBranch_safe`), and last the two tables of all builtins (`applyEager_safe`,
`applyLazy_safe`).  A bound `n` on what is mentioned stands for the heap at the call; where a builtin calls back, the
heap may have grown by then, which is why invokers are safe for every bound.
-/

namespace Protean

/-- An invoker that is safe on all callees and arguments. -/
def Invoker.Safe (invoke : Invoker) : Prop :=
  ∀ {n : Nat} {callee : Labeled} {args : CallArguments}, callee.Below n → args.Below n →
    Eval.Safe n (invoke callee args) Labeled.Below

namespace Builtin

variable {eval : Evaluator} {invoke : Invoker} {n : Nat} {scope : ObjectId} {entries : Entries}

/-- Calling back with values that are there is safe, if calling is. -/
theorem callWith_safe (hi : invoke.Safe) {callee : Labeled} {values : List Labeled}
    (hc : callee.Below n) (hv : ∀ v ∈ values, v.Below n) :
    Eval.Safe n (callWith invoke callee values) Labeled.Below := by
  intro m hm hn
  have hargs : ∀ {values : List Labeled}, (∀ v ∈ values, v.Below n) →
      Code.ArgsBelow m.heap.size (CallArguments.ofValues values m.global).entries := by
    intro values hv
    induction values with
    | nil => trivial
    | cons v values ih =>
      exact ⟨(hv v List.mem_cons_self).mono hn, ih fun w hw => hv w (List.mem_cons_of_mem _ hw)⟩
  exact hi (hc.mono hn) ⟨hargs hv, hm.global_lt⟩ m hm le_rfl

/-! ### Arguments of a given kind

To ask for an argument of some kind yields nothing that was not there. -/

/-- To ask for a number does not touch the heap. -/
theorem expectNumber_safe (v : Labeled) (who : String) :
    Eval.Safe n (expectNumber v who) fun _ _ => True := by
  rw [expectNumber]
  split
  · exact .pure fun _ _ => trivial
  · exact .misuse _

/-- To ask for a text does not touch the heap. -/
theorem expectString_safe (v : Labeled) (who : String) :
    Eval.Safe n (expectString v who) fun _ _ => True := by
  rw [expectString]
  split
  · exact .pure fun _ _ => trivial
  · exact .misuse _

/-- To ask for a boolean does not touch the heap. -/
theorem expectBoolean_safe (v : Labeled) (who : String) :
    Eval.Safe n (expectBoolean v who) fun _ _ => True := by
  rw [expectBoolean]
  split
  · exact .pure fun _ _ => trivial
  · exact .misuse _

/-- To ask for a key does not touch the heap. -/
theorem expectKey_safe (v : Labeled) (who : String) :
    Eval.Safe n (expectKey v who) fun _ _ => True := by
  rw [expectKey]
  split
  · exact .pure fun _ _ => trivial
  · split
    · exact .pure fun _ _ => trivial
    · exact .misuse _
  · exact .misuse _

/-- A key is passed on as a text or a number, which are no objects. -/
theorem keyValue_below (key : Key) : (keyValue key).Below n := by
  cases key <;> trivial

/-! ### Functions that leave the heap alone

Functions of numbers, of texts and of booleans. -/

/-- The least and the greatest of the arguments are numbers, by induction on the arguments that are left. -/
theorem foldNumbers_safe (who : String) (pick : Float → Float → Float) :
    ∀ {best : Option Float} {entries : Entries} {n : Nat},
      Eval.Safe n (foldNumbers who pick best entries) Labeled.Below
  | some _, [], _ => .pure fun _ _ => trivial
  | none, [], _ => .misuse _
  | some _, _ :: _, _ | none, _ :: _, _ =>
      (expectNumber_safe _ _).bind fun _ _ _ _ => foldNumbers_safe who pick

/-- A function of the receiver that gives a number gives no object. -/
theorem onReceiver_safe (who : String) (f : Float → Float) :
    Eval.Safe n (onReceiver who f entries) Labeled.Below :=
  (expectNumber_safe _ _).bind fun _ _ _ _ => .pure fun _ _ => trivial

theorem onText_safe (who : String) {f : String → Value} (hf : ∀ s k, (f s).Below k) :
    Eval.Safe n (onText who f entries) Labeled.Below :=
  (expectString_safe _ _).bind fun _ s _ _ => .pure fun k _ => hf s k

theorem onNumbers_safe (who : String) {f : Float → Float → Value} (hf : ∀ x y k, (f x y).Below k) :
    Eval.Safe n (onNumbers who f entries) Labeled.Below :=
  (expectNumber_safe _ _).bind fun _ x _ _ =>
    (expectNumber_safe _ _).bind fun _ y _ _ => .pure fun k _ => hf x y k

/-- A sum is a number or a text. -/
theorem addValues_safe (left right : Value) :
    Eval.Safe n (addValues left right) Labeled.Below := by
  unfold addValues
  split
  · exact .pure fun _ _ => trivial
  · exact .ask fun _ _ _ => trivial
  · exact .ask fun _ _ _ => trivial
  · exact .misuse _

/-! ### Objects and lists

Functions that make objects or write to them. -/

/-- A new object gets fields that are there. -/
theorem newObject_safe (he : entries.Below n) :
    Eval.Safe n (newObject entries) Labeled.Below :=
  allocObject_safe.bind fun _ _ hk hid =>
    (setAll_safe hid fun e hmem => ((he.mono hk) e (List.mem_of_mem_filter hmem))).bind
      fun _ _ hk' _ =>
        (setAll_safe (Nat.lt_of_lt_of_le hid hk') fun e hmem =>
          (he.mono (hk.trans hk')) e (List.mem_of_mem_filter hmem)).bind fun _ _ hk'' _ =>
            .pure fun _ hk₃ => Nat.lt_of_lt_of_le hid (hk'.trans (hk''.trans hk₃))

/-- The calls for all fields are safe, by induction on the fields; each may grow the heap for the next. -/
theorem forEachField_safe (hi : invoke.Safe) {callback : Labeled} :
    ∀ {fields : Fields} {n : Nat}, callback.Below n → Entries.Below n fields →
      Eval.Safe n (forEachField invoke callback fields) Labeled.Below
  | [], _, _, _ => .pure fun _ _ => trivial
  | (key, v) :: _, _, hc, hf => by
      refine (callWith_safe hi hc fun w hw => ?_).bind fun _ _ hk _ =>
        forEachField_safe hi (hc.mono hk) fun e hmem =>
          (hf e (List.mem_cons_of_mem _ hmem)).mono hk
      rcases List.mem_cons.mp hw with rfl | hw
      · exact hf _ List.mem_cons_self
      · rw [List.mem_singleton.mp hw]
        exact keyValue_below key

/-- A new list gets elements that are there. -/
theorem newList_safe (he : entries.Below n) :
    Eval.Safe n (newList scope entries) Labeled.Below := by
  refine getField_safe.bind fun k proto hk hproto => ?_
  rw [Labeled.Below] at hproto
  split
  · rename_i p hp
    rw [hp] at hproto
    refine (allocPlain_safe fun q hq => by cases hq; exact hproto).bind fun k₁ id hk₁ hid => ?_
    have helems : Entries.Below k₁ entries.positionals := fun e hmem =>
      (he.mono (hk.trans hk₁)) e (List.mem_of_mem_filter hmem)
    refine (setAll_safe hid helems).bind fun k₂ _ hk₂ _ => ?_
    refine Eval.Safe.bind (setAll_safe (Nat.lt_of_lt_of_le hid hk₂) fun e hmem => ?_)
      fun k₃ _ hk₃ _ => .pure fun k₄ hk₄ => Nat.lt_of_lt_of_le hid (hk₂.trans (hk₃.trans hk₄))
    rw [List.mem_singleton.mp hmem]
    trivial
  · exact .misuse _

/-- A list gets an element that is there. -/
theorem appendTo_safe (he : entries.Below n) :
    Eval.Safe n (appendTo entries) Labeled.Below := by
  have hself := he.lookup (.name "self")
  rw [appendTo]
  split
  · rename_i id hid
    have hlt : id < n := by
      rw [Labeled.Below, ← Entries.named, ← Entries.self, hid] at hself
      exact hself
    refine getField_safe.bind fun k length hk _ => ?_
    refine (expectNumber_safe _ _).bind fun k₁ _ hk₁ _ => ?_
    have hv := (he.mono (hk.trans hk₁)).lookup (.index 0)
    refine (setAll_safe (Nat.lt_of_lt_of_le hlt (hk.trans hk₁)) fun e hmem => ?_).bind
      fun _ _ hk₂ _ => .pure fun _ hk₃ => hv.mono (hk₂.trans hk₃)
    rcases List.mem_cons.mp hmem with rfl | hmem
    · exact hv
    · rw [List.mem_singleton.mp hmem]
      trivial
  · exact .misuse _

/-! ### Control

Functions that call back. -/

/-- A loop is safe, by induction on the rounds that are left. -/
theorem loopWhile_safe (hi : invoke.Safe) {condition body : Labeled} :
    ∀ {rounds n : Nat} {last : Labeled}, condition.Below n → body.Below n → last.Below n →
      Eval.Safe n (loopWhile invoke condition body rounds last) Labeled.Below
  | 0, _, _, _, _, _ => .interrupt _
  | _ + 1, _, _, hc, hb, hlast => by
      refine (callWith_safe hi hc fun _ hw => by cases hw).bind fun _ _ hk _ => ?_
      refine (expectBoolean_safe _ _).bind fun _ again hk₁ _ => ?_
      have hk₁ := hk.trans hk₁
      cases again with
      | true =>
        exact (callWith_safe hi (hb.mono hk₁) fun _ hw => by cases hw).bind fun _ _ hk₂ hv =>
          loopWhile_safe hi (hc.mono (hk₁.trans hk₂)) (hb.mono (hk₁.trans hk₂)) hv
      | false => exact .pure fun _ hk₂ => hlast.mono (hk₁.trans hk₂)

theorem chooseBranch_safe (hi : invoke.Safe) (he : entries.Below n) :
    Eval.Safe n (chooseBranch invoke entries) Labeled.Below := by
  refine (expectBoolean_safe _ _).bind fun k taken hk _ => ?_
  have hbranch : (if taken then entries.positional 1 else entries.positional 2).Below k := by
    split <;> exact (he.mono hk).lookup _
  generalize (if taken then entries.positional 1 else entries.positional 2) = branch at hbranch ⊢
  dsimp only
  split
  · exact .pure fun _ _ => trivial
  · exact callWith_safe hi hbranch fun _ hw => by cases hw

/-! ### All of them

Both kinds of functions together. -/

/-- Every builtin that gets its arguments evaluated is safe. -/
theorem applyEager_safe (hi : invoke.Safe) (rounds : Nat) (he : entries.Below n)
    (which : Builtin) :
    Eval.Safe n (applyEager invoke rounds scope entries which) Labeled.Below := by
  have hself := he.lookup (.name "self")
  cases which with
  | object => exact newObject_safe he
  | forEach =>
    rw [applyEager]
    split
    -- the fields are those of an object of the heap, so their values are of the heap
    · refine Eval.Safe.bind (V := Entries.Below) (.ask fun h hc _ => ?_) fun k fields hk hf =>
        forEachField_safe hi ((he.mono hk).lookup _) hf
      exact fun e hmem => (hc.wellFormed.sound _).value_below e.1 e.2 hmem
    · exact .pure fun _ _ => trivial
  | get => exact (expectKey_safe _ _).bind fun _ _ _ _ => getValueField_safe
  | set =>
    refine (expectKey_safe _ _).bind fun k _ hk _ => ?_
    -- the value that is returned was there before the write
    have hv := (he.mono hk).lookup (.index 1)
    exact (setValueField_safe true (hself.mono hk) hv).bind fun _ _ hk₁ _ =>
      .pure fun _ hk₂ => hv.mono (hk₁.trans hk₂)
  | has =>
    exact (expectKey_safe _ _).bind fun _ _ _ _ =>
      getValueField_safe.bind fun _ _ _ _ => .pure fun _ _ => trivial
  | not => exact (expectBoolean_safe _ _).bind fun _ _ _ _ => .pure fun _ _ => trivial
  | floor | ceil | round | abs => exact onReceiver_safe _ _
  | min | max => exact foldNumbers_safe _ _
  | string => exact .ask fun _ _ _ => trivial
  | stringLength | toUpperCase | toLowerCase => exact onText_safe _ fun _ _ => trivial
  | contains =>
    exact (expectString_safe _ _).bind fun _ _ _ _ =>
      (expectString_safe _ _).bind fun _ _ _ _ => .pure fun _ _ => trivial
  | choose => exact chooseBranch_safe hi he
  | loop => exact loopWhile_safe hi (he.lookup _) (he.lookup _) trivial
  | raise => exact (expectString_safe _ _).bind fun _ _ _ _ => .fail _
  | add => exact addValues_safe _ _
  | subtract | multiply | divide | remainder | less | lessOrEqual | greater | greaterOrEqual =>
    exact onNumbers_safe _ fun _ _ _ => trivial
  | equal | notEqual | constTrue | constFalse | and | or | coalesce =>
    exact .pure fun _ _ => trivial
  | list => exact newList_safe he
  | listAdd => exact appendTo_safe he

/-- An argument that is evaluated and checked is safe. -/
theorem forced_safe (he : eval.Safe) {args : CallArguments} (parameters : List Parameter)
    (i : Nat) (ha : args.Below n) :
    Eval.Safe n (forced eval parameters args i) Labeled.Below :=
  (evaluatePositional_safe he i ha).bind fun _ _ _ hv =>
    (validate_safe _).bind fun _ _ hk _ => .pure fun _ hk' => hv.mono (hk.trans hk')

/-- Every builtin that gets its arguments unevaluated is safe. -/
theorem applyLazy_safe (he : eval.Safe) {args : CallArguments} (ha : args.Below n)
    (which : Builtin) : Eval.Safe n (applyLazy eval args which) Labeled.Below := by
  unfold applyLazy
  split
  · exact .pure fun _ _ => trivial
  · exact .pure fun _ _ => trivial
  · refine (forced_safe he _ 0 ha).bind fun _ _ hk hleft =>
      (expectBoolean_safe _ _).bind fun _ b hk₁ _ => ?_
    cases b with
    | true => exact forced_safe he _ 1 (ha.mono (hk.trans hk₁))
    | false => exact .pure fun _ hk₂ => hleft.mono (hk₁.trans hk₂)
  · refine (forced_safe he _ 0 ha).bind fun _ _ hk hleft =>
      (expectBoolean_safe _ _).bind fun _ b hk₁ _ => ?_
    cases b with
    | true => exact .pure fun _ hk₂ => hleft.mono (hk₁.trans hk₂)
    | false => exact forced_safe he _ 1 (ha.mono (hk.trans hk₁))
  · refine (forced_safe he _ 0 ha).bind fun _ left hk hleft => ?_
    split
    · exact forced_safe he _ 1 (ha.mono hk)
    · exact .pure fun _ hk₁ => hleft.mono hk₁
  · exact .pure fun _ _ => trivial

/-- **A builtin function keeps the heap consistent.** -/
theorem apply_safe (he : eval.Safe) (hi : invoke.Safe) (rounds : Nat) (which : Builtin)
    {args : CallArguments} (ha : args.Below n) :
    Eval.Safe n (which.apply eval invoke rounds scope args) Labeled.Below := by
  rw [apply]
  split
  · exact applyLazy_safe he ha which
  · exact (materialize_safe he ha).bind fun _ _ _ hentries =>
      (validate_safe _).bind fun _ _ hk _ => applyEager_safe hi rounds (hentries.mono hk) which

end Builtin

end Protean
