import Protean.Proofs.Descriptor.Elements

/-!
# Proofs — Descriptor — verdicts and where they come from

`Descriptor.Fits` says which values belong to a descriptor, without an order in which anything is looked at.
The check accepts exactly those (`check_eq_ok_iff`).  A refusal names a position in the descriptor
(`Descriptor.At`) and the value that is found under the same keys (`Heap.follow`), and the part of the
descriptor there refuses the value by itself (`Descriptor.Refuses`); each level puts its own key in front, so
what is said about a part holds of the whole (`Blames.field`, `Blames.element`).

* `check_eq_ok_iff`, `checkAny_iff`, `checkFields_eq_ok_iff`: what is accepted, by induction on the descriptor.
* `Blames.itself`, `Blames.field`, `Blames.element`: how a mismatch of a part becomes one of the whole.
* `blames_of_checkFields`: which field a refusal comes from.
-/

namespace Protean

variable {h : Heap} {id : ObjectId} {v w : Value}

/-! ### Membership

What a value has to be like to fit a descriptor, as an inductive predicate, and that the check decides it. -/

/-- What the primitive descriptors stand for. -/
def Primitive.Admits (h : Heap) : Primitive → Value → Prop
  | .any, _ => True
  | .null, v => v = .null
  | .number, v => ∃ x, v = .number x
  | .string, v => ∃ text, v = .string text
  | .boolean, v => ∃ b, v = .boolean b
  | .function, v => ∃ id, v = .object id ∧ (h.get id).kind ≠ .plain
  | .object, v => ∃ id, v = .object id

/-- The values that belong to a descriptor. -/
inductive Descriptor.Fits (h : Heap) : Descriptor → Value → Prop where
  | primitive {kind : Primitive} {v : Value} (hv : kind.Admits h v) : Fits h (.primitive kind) v
  | or {t : Descriptor} {alternatives : List Descriptor} {v : Value} (hmem : t ∈ alternatives)
      (ht : Fits h t v) : Fits h (.or alternatives) v
  | objectOf {fields : List (Key × Descriptor)} {id : ObjectId}
      (hfields : ∀ key t, (key, t) ∈ fields → Fits h t (h.getField id key).value) :
      Fits h (.objectOf fields) (.object id)
  | listOf {element : Descriptor} {id : ObjectId} {length : Nat} (hplain : (h.get id).kind = .plain)
      (hlength : h.HasLength id length)
      (helements : ∀ i < length, Fits h element (h.getField id (.index i)).value) :
      Fits h (.listOf element) (.object id)

/-- What cannot be called is a plain object. -/
theorem ObjectKind.isCallable_eq_false {kind : ObjectKind} : kind.isCallable = false ↔ kind = .plain := by
  cases kind with
  | plain => exact iff_of_true rfl rfl
  | function _ _ | builtin _ _ => exact iff_of_false nofun nofun

theorem ObjectKind.isCallable_eq_true {kind : ObjectKind} : kind.isCallable = true ↔ kind ≠ .plain := by
  rw [ne_eq, ← isCallable_eq_false, Bool.not_eq_false]

theorem Primitive.accepts_iff {kind : Primitive} : kind.accepts h v = true ↔ kind.Admits h v := by
  cases kind with
  | any => exact iff_of_true (by simp [accepts]) trivial
  | function =>
    cases v with
    | object id =>
      exact ObjectKind.isCallable_eq_true.trans ⟨fun hkind => ⟨id, rfl, hkind⟩, fun ⟨_, he, hkind⟩ => by
        cases he; exact hkind⟩
    | null | number _ | string _ | boolean _ => exact iff_of_false nofun nofun
  | null | number | string | boolean | object => cases v <;> simp [accepts, Admits]

/-- Two lengths of one object are equal. -/
theorem Heap.HasLength.unique {length length' : Nat} (hl : h.HasLength id length)
    (hl' : h.HasLength id length') : length = length' :=
  Option.some_inj.mp ((listLength?_eq_some.mpr hl).symm.trans (listLength?_eq_some.mpr hl'))

namespace Descriptor

mutual

/-- **The check accepts the values that belong to the descriptor.** -/
theorem check_eq_ok_iff (hw : h.WellFormed) :
    ∀ (t : Descriptor) (v : Value), t.check h v = .ok () ↔ t.Fits h v
  | .primitive kind, v => by
      have haccepts : kind.accepts h v = true ↔ Fits h (.primitive kind) v :=
        Primitive.accepts_iff.trans ⟨.primitive, fun | .primitive hv => hv⟩
      rw [check, ← haccepts]
      split
      · next hv => exact iff_of_true rfl hv
      · next hv => exact iff_of_false nofun hv
  | .or alternatives, v => by
      have hany : checkAny h alternatives v = true ↔ Fits h (.or alternatives) v :=
        (checkAny_iff hw alternatives v).trans
          ⟨fun ⟨_, hmem, ht⟩ => .or hmem ht, fun | .or hmem ht => ⟨_, hmem, ht⟩⟩
      rw [check, ← hany]
      split
      · next hv => exact iff_of_true rfl hv
      · next hv => exact iff_of_false nofun hv
  | .objectOf fields, .object id => by
      rw [check, checkFields_eq_ok_iff hw fields id]
      exact ⟨.objectOf, fun | .objectOf hfields => hfields⟩
  | .objectOf _, .null | .objectOf _, .number _ | .objectOf _, .string _ | .objectOf _, .boolean _ =>
      iff_of_false nofun nofun
  | .listOf element, .object id => by
      -- functions are no lists, whatever their fields are
      cases hkind : (h.get id).kind.isCallable with
      | true =>
        rw [check, if_pos hkind]
        refine iff_of_false nofun fun hfits => ?_
        cases hfits with
        | listOf hplain _ _ => exact ObjectKind.isCallable_eq_true.mp hkind hplain
      | false =>
        have hplain := ObjectKind.isCallable_eq_false.mp hkind
        cases hlength : h.listLength? id with
        -- an object without a length of its own is no list either
        | none =>
          rw [check, if_neg (by simp [hkind]), hlength]
          refine iff_of_false nofun fun hfits => ?_
          cases hfits with
          | listOf _ hl _ => cases hlength.symm.trans (Heap.listLength?_eq_some.mpr hl)
        | some length =>
          have hl := Heap.listLength?_eq_some.mp hlength
          -- otherwise the check goes through the elements, and the descriptor is the induction hypothesis for
          -- each
          rw [check_listOf_of_length hw hkind hlength, checkElements_eq_ok]
          constructor
          · intro hall
            exact .listOf hplain hl fun i hi =>
              (check_eq_ok_iff hw element _).mp (hall i i.zero_le (by omega))
          · rintro (_ | _ | _ | @⟨_, _, length', _, hl', helements⟩) i _ hi
            cases hl.unique hl'
            exact (check_eq_ok_iff hw element _).mpr (helements i (by omega))
  | .listOf _, .null | .listOf _, .number _ | .listOf _, .string _ | .listOf _, .boolean _ =>
      iff_of_false nofun nofun

/-- A value passes alternatives exactly if it fits one of them. -/
theorem checkAny_iff (hw : h.WellFormed) :
    ∀ (ts : List Descriptor) (v : Value), checkAny h ts v = true ↔ ∃ t ∈ ts, t.Fits h v
  | [], _ => iff_of_false nofun fun ⟨_, hmem, _⟩ => nomatch hmem
  | t :: ts, v => by
      have hhead : (t.check h v).isOk = true ↔ t.Fits h v := by
        rw [← check_eq_ok_iff hw t v]
        cases t.check h v with
        | ok _ => exact iff_of_true rfl rfl
        | error _ => exact iff_of_false nofun nofun
      rw [checkAny, Bool.or_eq_true, hhead, checkAny_iff hw ts v, List.exists_mem_cons_iff]

/-- An object passes if what is read under each key fits the descriptor of the key. -/
theorem checkFields_eq_ok_iff (hw : h.WellFormed) : ∀ (fields : List (Key × Descriptor)) (id : ObjectId),
    checkFields h fields id = .ok () ↔ ∀ key t, (key, t) ∈ fields → t.Fits h (h.getField id key).value
  | [], _ => iff_of_true rfl fun _ _ hmem => nomatch hmem
  | (key, t) :: fields, id => by
      have hhead := check_eq_ok_iff hw t (h.getField id key).value
      rw [checkFields]
      split
      · next hok =>
        rw [checkFields_eq_ok_iff hw fields id]
        constructor
        · rintro hrest key' t' hmem
          rcases List.mem_cons.mp hmem with heq | hmem
          · cases heq
            exact hhead.mp hok
          · exact hrest key' t' hmem
        · exact fun hall key' t' hmem => hall key' t' (List.mem_cons_of_mem _ hmem)
      · next herror =>
        refine iff_of_false nofun fun hall => ?_
        rw [hhead.mpr (hall key t List.mem_cons_self)] at herror
        cases herror

end

end Descriptor

/-! ### Positions

Where in a value the part is that has been refused, and that it is found there by reading fields. -/

/-- What is read from a value under one key after the other. -/
def Heap.follow (h : Heap) : Value → List Key → Option Value
  | v, [] => some v
  | .object id, key :: keys => h.follow (h.getField id key).value keys
  | _, _ :: _ => none

/-- The parts of a descriptor, under the keys that lead to them. -/
inductive Descriptor.At : Descriptor → List Key → Descriptor → Prop where
  | here (t : Descriptor) : At t [] t
  | field {fields : List (Key × Descriptor)} {key : Key} {t u : Descriptor} {keys : List Key}
      (hmem : (key, t) ∈ fields) (ht : At t keys u) : At (.objectOf fields) (key :: keys) u
  | element {t u : Descriptor} {keys : List Key} (i : Nat) (ht : At t keys u) :
      At (.listOf t) (.index i :: keys) u

/-- A descriptor refuses a value, and no part of the descriptor is to blame.  The keys are those that the
refusal adds: `length` for an object that would be a list but for a valid length, and otherwise none. -/
inductive Descriptor.Refuses (h : Heap) : Descriptor → Value → List Key → Prop where
  | itself {t : Descriptor} {v : Value} (hcheck : t.check h v = .error ⟨t.label, []⟩) : Refuses h t v []
  | length {element : Descriptor} {id : ObjectId} (hplain : (h.get id).kind = .plain)
      (hlength : ∀ length, ¬ h.HasLength id length) :
      Refuses h (.listOf element) (.object id) [.name "length"]

namespace Descriptor

/-- The mismatch has the name of a part of the descriptor, and its path leads to a value that this part
refuses. -/
def Blames (h : Heap) (t : Descriptor) (v : Value) (m : Mismatch) : Prop :=
  ∃ keys u w added, t.At keys u ∧ h.follow v keys = some w ∧ u.label = m.expected ∧
    m.path = keys ++ added ∧ u.Refuses h w added

namespace Blames

variable {t : Descriptor} {m : Mismatch}

/-- A descriptor that refuses the value as a whole is to blame itself. -/
theorem itself (hcheck : t.check h v = .error ⟨t.label, []⟩) : t.Blames h v ⟨t.label, []⟩ :=
  ⟨[], t, v, [], .here t, by simp [Heap.follow], rfl, rfl, .itself hcheck⟩

/-- A mismatch of what is read under a key is a mismatch of the object, with the key in front. -/
theorem field {fields : List (Key × Descriptor)} {key : Key} (hmem : (key, t) ∈ fields)
    (hm : t.Blames h (h.getField id key).value m) :
    Blames h (.objectOf fields) (.object id) (m.under key) := by
  obtain ⟨keys, u, w, added, hat, hfollow, hlabel, hpath, hrefuses⟩ := hm
  exact ⟨key :: keys, u, w, added, .field hmem hat, hfollow, hlabel, congrArg (key :: ·) hpath, hrefuses⟩

/-- A mismatch of an element is a mismatch of the list, with the index in front. -/
theorem element {i : Nat} (hm : t.Blames h (h.getField id (.index i)).value m) :
    Blames h (.listOf t) (.object id) (m.under (.index i)) := by
  obtain ⟨keys, u, w, added, hat, hfollow, hlabel, hpath, hrefuses⟩ := hm
  exact ⟨.index i :: keys, u, w, added, .element i hat, hfollow, hlabel, congrArg (Key.index i :: ·) hpath,
    hrefuses⟩

end Blames

mutual

/-- **A refusal leads to the part that refuses.** -/
theorem blames_of_check (hw : h.WellFormed) :
    ∀ (t : Descriptor) (v : Value) {m : Mismatch}, t.check h v = .error m → t.Blames h v m
  | .primitive kind, v, m, hfail => by
      -- the refused value itself is to blame, unless a part of it is
      have hcheck := hfail
      rw [check] at hfail
      split at hfail <;> cases hfail
      exact .itself hcheck
  | .or alternatives, v, m, hfail => by
      have hcheck := hfail
      rw [check] at hfail
      split at hfail <;> cases hfail
      exact .itself hcheck
  | .objectOf fields, .object id, m, hfail => by
      rw [check] at hfail
      -- a field is to blame for the object, by the path that leads to it
      obtain ⟨key, t, m', hmem, hm, rfl⟩ := blames_of_checkFields hw fields id hfail
      exact hm.field hmem
  | .objectOf _, .null, _, rfl | .objectOf _, .number _, _, rfl | .objectOf _, .string _, _, rfl
  | .objectOf _, .boolean _, _, rfl => .itself rfl
  | .listOf element, .object id, m, hfail => by
      have hcheck := hfail
      rw [check] at hfail
      cases hkind : (h.get id).kind.isCallable with
      | true =>
        rw [if_pos hkind] at hfail
        cases hfail
        exact .itself hcheck
      | false =>
        rw [if_neg (by simp [hkind])] at hfail
        have hplain := ObjectKind.isCallable_eq_false.mp hkind
        -- without a length there is no element to lead to, so the length is to blame
        cases hlength : h.listLength? id with
        | none =>
          rw [hlength] at hfail
          cases hfail
          refine ⟨[], _, _, _, .here _, rfl, rfl, rfl, .length hplain fun length hl => ?_⟩
          cases hlength.symm.trans (Heap.listLength?_eq_some.mpr hl)
        | some length =>
          rw [check_listOf_of_length hw hkind hlength] at hcheck
          -- the first element that is refused is to blame for the list
          obtain ⟨i, m', -, -, helement, rfl⟩ := exists_of_checkElements hcheck
          exact (blames_of_check hw element _ helement).element
  | .listOf _, .null, _, rfl | .listOf _, .number _, _, rfl | .listOf _, .string _, _, rfl
  | .listOf _, .boolean _, _, rfl => .itself rfl

/-- If the fields are refused, one of the descriptors is to blame, under its key. -/
theorem blames_of_checkFields (hw : h.WellFormed) :
    ∀ (fields : List (Key × Descriptor)) (id : ObjectId) {m : Mismatch}, checkFields h fields id = .error m →
      ∃ key t m', (key, t) ∈ fields ∧ t.Blames h (h.getField id key).value m' ∧ m = m'.under key
  | (key, t) :: fields, id, m, hfail => by
      rw [checkFields] at hfail
      split at hfail
      · obtain ⟨key', t', m', hmem, hm, rfl⟩ := blames_of_checkFields hw fields id hfail
        exact ⟨key', t', m', List.mem_cons_of_mem _ hmem, hm, rfl⟩
      · next m' herror =>
        cases hfail
        exact ⟨key, t, m', List.mem_cons_self, blames_of_check hw t _ herror, rfl⟩

end

end Descriptor

/-- **Verdicts and paths are right.**  On a well-formed heap a value passes the check of a descriptor exactly
if it belongs to the descriptor.  If it is refused, the path of the mismatch leads, read from the value key by
key, to a value at which the part of the descriptor under these keys has the name that was expected and refuses
by itself; only where a list was expected of an object without a valid length, the path ends in an additional
`length`. -/
theorem verdicts_and_paths_are_right (hw : h.WellFormed) (t : Descriptor) (v : Value) :
    (t.check h v = .ok () ↔ t.Fits h v) ∧
      ∀ m, t.check h v = .error m → ∃ keys u w added, t.At keys u ∧ h.follow v keys = some w ∧
        u.label = m.expected ∧ m.path = keys ++ added ∧ u.Refuses h w added :=
  ⟨t.check_eq_ok_iff hw v, fun _ => t.blames_of_check hw v⟩

/-- The theorem at a list with a gap: it has a number under 2, and under 1 there is nothing. -/
theorem verdicts_and_paths_are_right_gap :
    let element := Descriptor.or [.primitive .string, .primitive .number]
    let m : Mismatch := ⟨"string | number", [.index 1]⟩
    Heap.sparse.WellFormed ∧
      Descriptor.Fits Heap.sparse (.objectOf [(.index 2, .primitive .number)]) (.object 6) ∧
      Descriptor.check Heap.sparse (.listOf element) (.object 6) = .error m ∧
      ∃ keys u w added, Descriptor.At (.listOf element) keys u ∧ Heap.sparse.follow (.object 6) keys = some w ∧
        u.label = m.expected ∧ m.path = keys ++ added ∧ u.Refuses Heap.sparse w added := by
  intro element m
  have hcheck : Descriptor.check Heap.sparse (.listOf element) (.object 6) = .error m := by
    have hlength : Heap.sparse.listLength? 6 = some 3 := by decide +kernel
    rw [Descriptor.check_listOf_of_length Heap.wellFormed_sparse rfl hlength]
    rfl
  exact ⟨Heap.wellFormed_sparse, (verdicts_and_paths_are_right Heap.wellFormed_sparse _ _).1.mp rfl, hcheck,
    (verdicts_and_paths_are_right Heap.wellFormed_sparse _ _).2 m hcheck⟩

end Protean
