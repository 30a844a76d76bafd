import Mathlib.Logic.Relation
import Mathlib.Tactic.IntervalCases
import Protean.Proofs.Heap.Forget
import Protean.Proofs.Machine.Confined
import Protean.Proofs.Machine.Termination

/-!
# Proofs — Machine — objects out of reach

What an evaluation can come across: the builtin prototypes, the scope, the constants of its code, and
whatever these lead to by prototype links, fields, captured scopes and, in functions, constants of their own
code.  Lowered functions have no constants, so there the first three are all.

The objects in reach, with those that are allocated later, are a region (`Heap.reachRegion`), and evaluation is
confined to it.  So objects out of reach neither influence an evaluation nor are touched by it
(`unreachable_objects_are_framed`).

* `Code.Mentions`: the constants of code.
* `Heap.Leads`, `Heap.Reach`: what an object leads to at one step, and what is in reach of code in a scope.
* `Code.bodyIn_of_mentions`, `Heap.Lowered.not_holds`: code is of the region of what it mentions.
* `Machine.withSecret`: an object out of reach, for an example.
-/

namespace Protean

namespace Code

mutual

/-- The object is a constant of the code, bodies of functions included. -/
def Mentions (id : ObjectId) : Code → Prop
  | .const v => v.value = .object id
  | .identifier .. | .literal .. | .builtin .. | .probeScope .. => False
  | .bracket _ c | .field _ c _ | .bind _ _ c | .destructure _ _ c | .probeField _ c _ => c.Mentions id
  | .call _ c args | .send _ c _ args => c.Mentions id ∨ ArgsMention id args
  | .store _ target _ value => target.Mentions id ∨ value.Mentions id
  | .function _ _ _ body => BodyMentions id body

/-- The constants of a body. -/
def BodyMentions (id : ObjectId) : List Code → Prop
  | [] => False
  | c :: cs => c.Mentions id ∨ BodyMentions id cs

/-- The constants of arguments. -/
def ArgsMention (id : ObjectId) : List (Argument Code) → Prop
  | [] => False
  | ⟨_, c⟩ :: args => c.Mentions id ∨ ArgsMention id args

end

mutual

/-- Code of a machine mentions objects of that machine only. -/
theorem Mentions.lt {id n : Nat} : ∀ {c : Code}, c.Mentions id → c.Below n → id < n
  | .const v, hm, hb => by
      have hbelow : v.value.Below n := hb
      rwa [show v.value = .object id from hm] at hbelow
  | .bracket _ c, hm, hb | .field _ c _, hm, hb | .bind _ _ c, hm, hb | .destructure _ _ c, hm, hb
  | .probeField _ c _, hm, hb => Mentions.lt (c := c) hm hb
  | .call _ _ _, .inl hm, ⟨hb, _⟩ | .send _ _ _ _, .inl hm, ⟨hb, _⟩ | .store _ _ _ _, .inl hm, ⟨hb, _⟩
  | .store _ _ _ _, .inr hm, ⟨_, hb⟩ => hm.lt hb
  | .call _ _ _, .inr hm, ⟨_, hb⟩ | .send _ _ _ _, .inr hm, ⟨_, hb⟩ => ArgsMention.lt hm hb
  | .function _ _ _ _, hm, hb => BodyMentions.lt hm hb

/-- The body of a function mentions objects of its machine only. -/
theorem BodyMentions.lt {id n : Nat} : ∀ {cs : List Code}, BodyMentions id cs → BodyBelow n cs → id < n
  | _ :: _, .inl hm, ⟨hb, _⟩ => hm.lt hb
  | _ :: _, .inr hm, ⟨_, hb⟩ => BodyMentions.lt hm hb

/-- The arguments of a call mention objects of its machine only. -/
theorem ArgsMention.lt {id n : Nat} :
    ∀ {args : List (Argument Code)}, ArgsMention id args → ArgsBelow n args → id < n
  | ⟨_, _⟩ :: _, .inl hm, ⟨hb, _⟩ => hm.lt hb
  | ⟨_, _⟩ :: _, .inr hm, ⟨_, hb⟩ => ArgsMention.lt hm hb

end

variable {R : Region}

mutual

/-- Where all expressions are in the region, code is as soon as its constants are. -/
theorem in_of_mentions (hs : ∀ e, R.sources e) :
    ∀ c : Code, (∀ id, c.Mentions id → R.objects id) → c.In R
  | .const ⟨.object id, _⟩, h => ⟨h id rfl, fun e _ => hs e⟩
  | .const ⟨.null, _⟩, _ | .const ⟨.number _, _⟩, _ | .const ⟨.string _, _⟩, _
  | .const ⟨.boolean _, _⟩, _ => ⟨trivial, fun e _ => hs e⟩
  | .identifier .., _ | .literal .., _ | .builtin .., _ | .probeScope .., _ => fun e _ => hs e
  | .bracket _ c, h | .field _ c _, h | .bind _ _ c, h | .destructure _ _ c, h
  | .probeField _ c _, h => ⟨fun e _ => hs e, in_of_mentions hs c h⟩
  | .call _ c args, h | .send _ c _ args, h =>
      ⟨fun e _ => hs e, in_of_mentions hs c fun id hm => h id (.inl hm),
        argsIn_of_mention hs args fun id hm => h id (.inr hm)⟩
  | .store _ target _ value, h =>
      ⟨fun e _ => hs e, in_of_mentions hs target fun id hm => h id (.inl hm),
        in_of_mentions hs value fun id hm => h id (.inr hm)⟩
  | .function _ _ _ body, h => ⟨fun e _ => hs e, bodyIn_of_mentions hs body h⟩

/-- A body is of a region if all that it mentions is. -/
theorem bodyIn_of_mentions (hs : ∀ e, R.sources e) :
    ∀ cs : List Code, (∀ id, BodyMentions id cs → R.objects id) → BodyIn R cs
  | [], _ => trivial
  | c :: cs, h => ⟨in_of_mentions hs c fun id hm => h id (.inl hm),
      bodyIn_of_mentions hs cs fun id hm => h id (.inr hm)⟩

theorem argsIn_of_mention (hs : ∀ e, R.sources e) :
    ∀ args : List (Argument Code), (∀ id, ArgsMention id args → R.objects id) → ArgsIn R args
  | [], _ => trivial
  | ⟨_, c⟩ :: args, h => ⟨in_of_mentions hs c fun id hm => h id (.inl hm),
      argsIn_of_mention hs args fun id hm => h id (.inr hm)⟩

end

end Code

/-! ### Reach

What an object leads to at one step, what is in reach, and that both are closed. -/

namespace Heap

/-- One object leads to another by its prototype link, a stored field or a captured scope. -/
inductive Links (h : Heap) (id : ObjectId) : ObjectId → Prop where
  | proto {next : ObjectId} (hp : h.proto id = some next) : Links h id next
  | field {key : Key} {v : Labeled} {next : ObjectId} (hf : (key, v) ∈ h.fields id)
      (hv : v.value = .object next) : Links h id next
  | function {lambda : Lambda} {scope : ObjectId} (hk : (h.get id).kind = .function lambda scope) :
      Links h id scope
  | builtin {which : Builtin} {scope : ObjectId} (hk : (h.get id).kind = .builtin which scope) :
      Links h id scope

/-- One object is a function with the other as a constant in its code. -/
def Holds (h : Heap) (id next : ObjectId) : Prop :=
  ∃ lambda scope, (h.get id).kind = .function lambda scope ∧ Code.BodyMentions next lambda.body

/-- Reading, calling and running what one object holds can come across the other. -/
def Leads (h : Heap) (id next : ObjectId) : Prop := h.Links id next ∨ h.Holds id next

/-- Where an evaluation starts from: the builtin prototypes, the scope and the constants of the code. -/
def Root (scope : ObjectId) (code : Code) (id : ObjectId) : Prop :=
  id ≤ booleanProto ∨ id = scope ∨ code.Mentions id

/-- The object can be reached from where an evaluation starts. -/
def Reach (leads : ObjectId → ObjectId → Prop) (scope : ObjectId) (code : Code) (id : ObjectId) : Prop :=
  ∃ root, Root scope code root ∧ Relation.ReflTransGen leads root id

variable {h h' : Heap} {leads leads' : ObjectId → ObjectId → Prop} {scope id next : ObjectId} {code : Code}

theorem Reach.root (hr : Root scope code id) : Reach leads scope code id := ⟨id, hr, .refl⟩

/-- What is in reach leads to what is in reach. -/
theorem Reach.step (hid : Reach leads scope code id) (hl : leads id next) :
    Reach leads scope code next := by
  obtain ⟨root, hroot, hsteps⟩ := hid
  exact ⟨root, hroot, hsteps.tail hl⟩

/-- What the roots have and every step keeps, all objects in reach have. -/
theorem Reach.invariant {S : ObjectId → Prop} (hroot : ∀ id, Root scope code id → S id)
    (hstep : ∀ id next, Reach leads scope code id → S id → leads id next → S next)
    (hid : Reach leads scope code id) : S id := by
  obtain ⟨root, hr, hsteps⟩ := hid
  induction hsteps with
  | refl => exact hroot root hr
  | tail hsteps hl ih => exact hstep _ _ ⟨root, hr, hsteps⟩ ih hl

/-- Where an object leads to depends on the object only. -/
theorem leads_of_get_eq (heq : h.get id = h'.get id) (hl : h.Leads id next) : h'.Leads id next := by
  obtain hl | ⟨lambda, captured, hk, hm⟩ := hl
  · refine .inl ?_
    cases hl with
    | proto hp => exact .proto (by rwa [Heap.proto, ← heq])
    | field hf hv => exact .field (by rwa [Heap.fields, ← heq]) hv
    | function hk => exact .function (heq ▸ hk)
    | builtin hk => exact .builtin (heq ▸ hk)
  · exact .inr ⟨lambda, captured, heq ▸ hk, hm⟩

/-- **Reach does not depend on what is out of it.** -/
theorem reach_congr (heq : ∀ id, Reach h.Leads scope code id → h.get id = h'.get id) :
    Reach h'.Leads scope code id ↔ Reach h.Leads scope code id := by
  constructor
  · refine Reach.invariant (fun _ => Reach.root) fun a b _ ha hl => ?_
    exact ha.step (leads_of_get_eq (heq a ha).symm hl)
  · intro hid
    refine (hid.invariant (S := fun id => Reach h.Leads scope code id ∧ Reach h'.Leads scope code id)
      (fun _ hr => ⟨.root hr, .root hr⟩) fun a b _ ha hl => ?_).2
    exact ⟨ha.1.step hl, ha.2.step (leads_of_get_eq (heq a ha.1) hl)⟩

/-- Functions whose code was lowered have no constants. -/
theorem Lowered.not_holds (hl : h.Lowered) : ¬ h.Holds id next := by
  rintro ⟨lambda, captured, hk, hm⟩
  obtain ⟨l, body, hbody⟩ := hl id lambda captured hk
  exact Nat.not_lt_zero _ (hm.lt (hbody ▸ Expr.lowerAll_below l 0 body))

/-- **Among lowered functions** prototype links, fields and captured scopes are all that leads anywhere. -/
theorem Lowered.reach_iff (hl : h.Lowered) :
    Reach h.Leads scope code id ↔ Reach h.Links scope code id := by
  have heq : h.Leads = h.Links := by
    funext a b
    exact propext (or_iff_left hl.not_holds)
  rw [heq]

/-- The objects in reach and those that are not there yet, with all expressions. -/
def reachRegion (h : Heap) (scope : ObjectId) (code : Code) : Region where
  objects id := Reach h.Leads scope code id ∨ h.size ≤ id
  sources _ := True
  builtins _ hid := .inl (.root (.inl hid))

/-- Nothing leads out of reach. -/
theorem reachRegion_closed (hid : (h.reachRegion scope code).objects id) :
    (h.get id).In (h.reachRegion scope code) := by
  obtain hid | hid := hid
  · refine ⟨fun p hp => .inl (hid.step (.inl (.proto hp))), ?_, fun field hf => ⟨?_, fun _ _ => trivial⟩⟩
    · cases hk : (h.get id).kind with
      | plain => trivial
      | function lambda captured =>
        refine ⟨.inl (hid.step (.inl (.function hk))), Code.bodyIn_of_mentions (fun _ => trivial) _ ?_⟩
        exact fun next hm => .inl (hid.step (.inr ⟨lambda, captured, hk, hm⟩))
      | builtin which captured => exact .inl (hid.step (.inl (.builtin hk)))
    · cases hv : field.2.value with
      | object next => exact .inl (hid.step (.inl (.field hf hv)))
      | null | number _ | string _ | boolean _ => trivial
  · rw [get_of_size_le hid]
    exact ⟨nofun, trivial, List.forall_mem_nil _⟩

/-- Heaps of one size that have the same objects in reach are alike there. -/
theorem reachRegion_alike (hsize : h.size = h'.size)
    (heq : ∀ id, Reach h.Leads scope code id → h.get id = h'.get id) :
    (h.reachRegion scope code).Alike h h' := by
  refine ⟨hsize, fun _ hid => .inr hid, fun id hid => ?_, fun _ hid => reachRegion_closed hid⟩
  obtain hid | hid := hid
  · exact heq id hid
  · rw [get_of_size_le hid, get_of_size_le (hsize ▸ hid)]

end Heap

/-! ### Evaluation

Two machines that are alike in reach of some code evaluate it alike. -/

/-- Evaluation with the fuel that a run computes does not run out of it. -/
theorem Machine.evaluate_ends_of_le (m : Machine) (limits : Limits) (code : Code) {fuel : Nat}
    (hfuel : m.fuelFor limits code.height ≤ fuel) (scope : ObjectId) :
    (evaluate limits fuel code scope m).1 ≠ .error .starved :=
  Meter.evaluate_ne_starved ((Meter.unbounded_fuelFor_le m limits _).trans hfuel) scope

/-- **Objects out of reach** neither influence an evaluation nor are touched by it.  Let two machines have the
same counts and global scope, heaps of one size and the same objects in reach of the code and the scope.  Then
evaluation, with fuel enough on either side, is over with the same outcome after the same number of calls; the
heaps that it leaves are of one size and have the same objects, old ones in reach and new ones; and every old
object out of reach is what it was.  What is in reach is the same on both machines, and where all functions have
been lowered from expressions, it is what prototype links, fields and captured scopes lead to. -/
theorem unreachable_objects_are_framed (limits : Limits) {m m' : Machine} {code : Code}
    {scope : ObjectId} (hsize : m.heap.size = m'.heap.size) (hglobal : m.global = m'.global)
    (hsteps : m.steps = m'.steps) (hdepth : m.depth = m'.depth)
    (heq : ∀ id, Heap.Reach m.heap.Leads scope code id → m.heap.get id = m'.heap.get id) :
    (∀ fuel fuel', m.fuelFor limits code.height ≤ fuel → m'.fuelFor limits code.height ≤ fuel' →
      let r := evaluate limits fuel code scope m
      let r' := evaluate limits fuel' code scope m'
      Over r.1 ∧ r.1 = r'.1 ∧ r.2.steps = r'.2.steps ∧ r.2.heap.size = r'.2.heap.size ∧
        (∀ id, Heap.Reach m.heap.Leads scope code id ∨ m.heap.size ≤ id →
          r.2.heap.get id = r'.2.heap.get id) ∧
        ∀ id, id < m.heap.size → ¬ Heap.Reach m.heap.Leads scope code id →
          r.2.heap.get id = m.heap.get id ∧ r'.2.heap.get id = m'.heap.get id) ∧
      (∀ id, Heap.Reach m'.heap.Leads scope code id ↔ Heap.Reach m.heap.Leads scope code id) ∧
      (m.heap.Lowered →
        ∀ id, Heap.Reach m.heap.Leads scope code id ↔ Heap.Reach m.heap.Links scope code id) := by
  refine ⟨fun fuel fuel' hfuel hfuel' => ?_, fun id => Heap.reach_congr heq, fun hl id => hl.reach_iff⟩
  -- both runs are compared at the larger of their fuels, which changes neither
  have hover := m.evaluate_ends_of_le limits code hfuel scope
  have hover' := m'.evaluate_ends_of_le limits code hfuel' scope
  have hmore := evaluate_fuel_le limits (le_max_left fuel fuel') code scope m
    fun i hi hs => hover (hs ▸ hi)
  have hmore' := evaluate_fuel_le limits (le_max_right fuel fuel') code scope m'
    fun i hi hs => hover' (hs ▸ hi)
  have hcode : code.InScope (m.heap.reachRegion scope code) scope :=
    ⟨Code.in_of_mentions (fun _ => trivial) code fun id hm => .inl (.root (.inr (.inr hm))),
      .inl (.inl (.root (.inr (.inl rfl))))⟩
  have htwins : (m.heap.reachRegion scope code).Twins m m' :=
    ⟨Heap.reachRegion_alike hsize heq, hglobal, hsteps, hdepth⟩
  obtain ⟨hanswer, -, hafter, hkeeps, hkeeps'⟩ :=
    (evaluate_invoke_confined _ limits (max fuel fuel')).1 hcode m m' htwins
  rw [hmore, hmore'] at hanswer hafter
  rw [hmore] at hkeeps
  rw [hmore'] at hkeeps'
  refine ⟨over_of_ne_starved hover, hanswer, hafter.steps, hafter.heap.size_eq, hafter.heap.get_eq,
    fun id hlt hid => ?_⟩
  have hout : ¬ (m.heap.reachRegion scope code).objects id :=
    fun h => h.elim hid (Nat.not_le.mpr hlt)
  exact ⟨hkeeps id hout, hkeeps' id hout⟩

/-- A machine with an object out of reach of its global scope, which has a field `x`. -/
def Machine.withSecret (x : String) : Machine :=
  let heap := ((Heap.initial.allocPlain (some Heap.objectProto)).2.allocPlain none).2
  ⟨heap.define 6 "x" (.bare (.string x)), 5, 0, 0⟩

/-- Everything else there is empty and has no link but to the object prototype. -/
theorem Machine.withSecret_get (x : String) {id : ObjectId} (hid : id ≤ 5) :
    (withSecret x).heap.get id = { proto := if id = 0 then none else some Heap.objectProto } := by
  interval_cases id <;> rfl

/-- The object with the secret is out of reach. -/
theorem Machine.withSecret_reach {x : String} {code : Code} (hcode : ∀ id, ¬ code.Mentions id)
    {id : ObjectId} (hid : Heap.Reach (withSecret x).heap.Leads 5 code id) : id ≤ 5 := by
  refine hid.invariant (S := (· ≤ 5)) (fun id hr => ?_) fun a b _ ha hl => ?_
  · obtain hr | rfl | hr := hr
    · exact le_trans hr (by decide)
    · exact le_rfl
    · exact absurd hr (hcode id)
  · have hget := withSecret_get x ha
    obtain hl | ⟨_, _, hk, _⟩ := hl
    · cases hl with
      | proto hp =>
        rw [Heap.proto, hget] at hp
        split at hp <;> cases hp
        decide
      | field hf _ =>
        rw [Heap.fields, hget] at hf
        cases hf
      | function hk | builtin hk =>
        rw [hget] at hk
        cases hk
    · rw [hget] at hk
      cases hk

/-- The theorem at two machines that differ in the secret, where `x` is looked up in the global scope. -/
theorem unreachable_objects_are_framed_secret :
    let code := Code.bind none "y" (.identifier none "x")
    let m := Machine.withSecret "a"
    let m' := Machine.withSecret "b"
    (m.heap.getField 6 (.name "x")).value = .string "a" ∧
      (m'.heap.getField 6 (.name "x")).value = .string "b" ∧
      ∀ fuel fuel', m.fuelFor {} code.height ≤ fuel → m'.fuelFor {} code.height ≤ fuel' →
        (evaluate {} fuel code 5 m).1 = (evaluate {} fuel' code 5 m').1 ∧
          (evaluate {} fuel code 5 m).2.heap.get 6 = m.heap.get 6 ∧
          (evaluate {} fuel' code 5 m').2.heap.get 6 = m'.heap.get 6 := by
  intro code m m'
  have hcode : ∀ id, ¬ code.Mentions id := fun _ hm => hm
  have heq : ∀ id, Heap.Reach m.heap.Leads 5 code id → m.heap.get id = m'.heap.get id := fun id hid =>
    have hle := Machine.withSecret_reach hcode hid
    (Machine.withSecret_get "a" hle).trans (Machine.withSecret_get "b" hle).symm
  have hsize : m.heap.size = m'.heap.size := rfl
  refine ⟨rfl, rfl, fun fuel fuel' hfuel hfuel' => ?_⟩
  obtain ⟨-, hanswer, -, -, -, hkept⟩ :=
    (unreachable_objects_are_framed {} hsize rfl rfl rfl heq).1 fuel fuel' hfuel hfuel'
  have hout : ¬ Heap.Reach m.heap.Leads 5 code 6 :=
    fun hr => absurd (Machine.withSecret_reach hcode hr) (by decide)
  exact ⟨hanswer, hkept 6 (by decide) hout⟩

end Protean
