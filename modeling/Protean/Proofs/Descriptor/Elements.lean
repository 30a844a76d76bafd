import Protean.Descriptor.Check
import Protean.Proofs.Heap.Visible

/-!
# Proofs — Descriptor — the elements of a list

A list is checked at the indices that it stores and at the first index below its length that it does not
store.  That is as good as a look at every index below the length, one after the other
(`sparse_check_is_plain`), also where the length is huge: the indices that are not stored all read as null, so
they all pass or all fail, and if they fail, the first of them is where the loop would have stopped.

* `checkElements_eq_firstMismatch`: the loop stops at the first index that fails.
* `firstMismatch_append`, `checkElements_eq_ok`: so it can be cut in two, and it passes if all indices do.
* `WellFormed.mem_storedIndices`: which indices are stored.
-/

namespace Protean

/-! ### Refusals of a list of items

What the first item is that is refused, and by what. -/

section
variable {α : Type} {check : α → Except Mismatch Unit}

/-- The first mismatch of two lists is the one of the first list, if there is any, and else the one of the
second. -/
theorem firstMismatch_append (check : α → Except Mismatch Unit) (l l' : List α) :
    firstMismatch check (l ++ l') =
      match firstMismatch check l with
      | .ok () => firstMismatch check l'
      | .error m => .error m := by
  induction l with
  | nil => rfl
  | cons a l ih =>
    rw [List.cons_append, firstMismatch, firstMismatch]
    split
    · exact ih
    · rfl

/-- Items that pass may be left out. -/
theorem firstMismatch_filter (p : α → Bool) {l : List α} (hpass : ∀ a ∈ l, p a = false → check a = .ok ()) :
    firstMismatch check (l.filter p) = firstMismatch check l := by
  induction l with
  | nil => rfl
  | cons a l ih =>
    have hrest := ih fun b hb => hpass b (List.mem_cons_of_mem _ hb)
    cases ha : p a with
    | true => rw [List.filter_cons_of_pos ha, firstMismatch, firstMismatch, hrest]
    | false =>
      rw [List.filter_cons_of_neg (by simp [ha]), firstMismatch, hpass a List.mem_cons_self ha, hrest]

end

/-! ### The first gap

Where the indices of a list have gaps, the first one is checked in place of all: there null is read. -/

/-- Up to its first gap an ascending list has all numbers, and from there on only larger ones. -/
theorem firstGap_split {n : Nat} {is : List Nat} (hasc : is.Pairwise (· < ·)) (hle : ∀ i ∈ is, n ≤ i) :
    ∃ k rest, firstGap n is = n + k ∧ is = List.range' n k ++ rest ∧ ∀ i ∈ rest, n + k < i := by
  induction is generalizing n with
  | nil => exact ⟨0, [], rfl, rfl, by simp⟩
  | cons i is ih =>
    obtain ⟨hlt, hasc⟩ := List.pairwise_cons.mp hasc
    rw [firstGap]
    split
    · rename_i he
      obtain ⟨k, rest, hgap, his, hrest⟩ := ih hasc fun j hj => he ▸ hlt j hj
      refine ⟨k + 1, rest, hgap.trans (by omega), ?_, fun j hj => by have := hrest j hj; omega⟩
      rw [List.range'_succ, List.cons_append, ← his, he]
    · rename_i hne
      have hi : n < i := Nat.lt_of_le_of_ne (hle i List.mem_cons_self) (Ne.symm hne)
      refine ⟨0, i :: is, rfl, rfl, fun j hj => ?_⟩
      rcases List.mem_cons.mp hj with rfl | hj
      · exact hi
      · exact hi.trans (hlt j hj)

/-- Ascending lists with the same members are equal. -/
theorem eq_of_ascending {l l' : List Nat} (h : l.Pairwise (· < ·)) (h' : l'.Pairwise (· < ·))
    (hmem : ∀ i, i ∈ l ↔ i ∈ l') : l = l' :=
  have hperm := (List.perm_ext_iff_of_nodup (h.imp Nat.ne_of_lt) (h'.imp Nat.ne_of_lt)).mpr hmem
  hperm.eq_of_pairwise (fun _ _ _ _ hab hba => absurd hab (Nat.lt_asymm hba)) h h'

/-- Beyond its first gap, a list of numbers below `length` is a selection from all of them. -/
theorem rest_eq_filter {is rest : List Nat} {gap length : Nat} (hasc : is.Pairwise (· < ·))
    (hlt : ∀ i ∈ is, i < length) (his : is = List.range' 0 gap ++ rest) (hrest : ∀ i ∈ rest, gap < i) :
    rest = (List.range' (gap + 1) (length - (gap + 1))).filter is.elem := by
  refine eq_of_ascending (List.pairwise_append.mp (his ▸ hasc)).2.1 ((List.pairwise_lt_range').filter _)
    fun i => ?_
  rw [List.mem_filter, List.mem_range'_1, List.elem_iff]
  constructor
  · intro hi
    have hmem : i ∈ is := his ▸ List.mem_append_right _ hi
    have := hrest i hi
    have := hlt i hmem
    exact ⟨by omega, hmem⟩
  · rintro ⟨hrange, hi⟩
    rw [his, List.mem_append, List.mem_range'_1] at hi
    exact hi.resolve_left (by omega)

/-- What is looked at: all numbers below `length`, or those up to the first gap and, beyond it, those that are
there. -/
theorem withFirstGap_cases {is : List Nat} {length : Nat} (hasc : is.Pairwise (· < ·))
    (hlt : ∀ i ∈ is, i < length) :
    withFirstGap is length = List.range' 0 length ∨
      ∃ gap < length, gap ∉ is ∧ withFirstGap is length = List.range' 0 gap ++ gap ::
        (List.range' (gap + 1) (length - (gap + 1))).filter is.elem := by
  -- the indices that are stored start with those below the first gap, and leave out the gap
  obtain ⟨gap, rest, hgap, his, hrest⟩ := firstGap_split hasc fun i _ => i.zero_le
  rw [Nat.zero_add] at hgap hrest
  -- a gap within the length is visited in its order, before the stored indices behind it
  by_cases hlength : gap < length
  · refine .inr ⟨gap, hlength, ?_, ?_⟩
    · rw [his, List.mem_append, List.mem_range'_1]
      rintro (hi | hi)
      · omega
      · exact Nat.lt_irrefl _ (hrest gap hi)
    · have htake : is.take gap = List.range' 0 gap := by
        rw [his, List.take_append_of_le_length (by simp), List.take_of_length_le (by simp)]
      have hdrop : is.drop gap = rest := by
        rw [his, List.drop_append_of_le_length (by simp), List.drop_of_length_le (by simp), List.nil_append]
      rw [withFirstGap, hgap, if_pos hlength, htake, hdrop, ← rest_eq_filter hasc hlt his hrest]
  -- without a gap within the length, all indices up to it are stored
  · left
    have hnil : rest = [] := List.eq_nil_iff_forall_not_mem.mpr fun i hi => by
      have := hrest i hi
      have := hlt i (his ▸ List.mem_append_right _ hi)
      omega
    have hle : gap ≤ length := by
      by_contra hlarge
      have := hlt length (his ▸ List.mem_append_left _ (List.mem_range'_1.mpr (by omega)))
      omega
    rw [withFirstGap, hgap, if_neg hlength, his, hnil, List.append_nil, Nat.le_antisymm hle (by omega)]

/-- **The first gap stands for all gaps.**  If the check passes at no missing number or at all of them, it is
enough to look at the numbers that are there and at the first that is missing. -/
theorem firstMismatch_withFirstGap {check : Nat → Except Mismatch Unit} {is : List Nat} {length : Nat}
    (hasc : is.Pairwise (· < ·)) (hlt : ∀ i ∈ is, i < length)
    (hgaps : ∀ i < length, i ∉ is → ∀ j < length, j ∉ is → check i = .ok () → check j = .ok ()) :
    firstMismatch check (withFirstGap is length) = firstMismatch check (List.range' 0 length) := by
  rcases withFirstGap_cases hasc hlt with heq | ⟨gap, hlength, hmissing, heq⟩
  · rw [heq]
  have hloop : List.range' 0 length =
      List.range' 0 gap ++ gap :: List.range' (gap + 1) (length - (gap + 1)) := by
    rw [← List.range'_succ, show length - (gap + 1) + 1 = length - gap by omega]
    simpa [Nat.add_sub_cancel' hlength.le] using
      (List.range'_append_1 (s := 0) (m := gap) (n := length - gap)).symm
  rw [heq, hloop, firstMismatch_append, firstMismatch_append, firstMismatch, firstMismatch]
  -- the loop gets beyond the gap only if the check passes there, and so at all other gaps
  cases hcheck : check gap with
  | error m => rfl
  | ok _ =>
    rw [firstMismatch_filter]
    intro i hi hnot
    have hi' : i < length := by
      have := List.mem_range'_1.mp hi
      omega
    exact hgaps gap hlength hmissing i hi' (fun hmem => by simp [hmem] at hnot) hcheck

/-! ### Stored indices

The indices that a list has stored, in their order. -/

namespace Heap

variable {h : Heap} {id : ObjectId} {length : Nat}

/-- The stored indices below a length are those under which something other than null is read. -/
theorem WellFormed.mem_storedIndices (hw : h.WellFormed) {i : Nat} :
    i ∈ h.storedIndices id length ↔ i < length ∧ (h.getField id (.index i)).value ≠ .null := by
  have hkey : Key.index i ≠ .proto := nofun
  have hvisible := hw.mem_visibleKeys_iff hkey (.object id)
  rw [storedIndices, List.mem_mergeSort, List.mem_filterMap]
  constructor
  · rintro ⟨key, hkey, hindex⟩
    split at hindex
    · split at hindex
      · rename_i hlt
        cases hindex
        obtain ⟨w, hread, hne⟩ := hvisible.mp hkey
        cases hread
        exact ⟨hlt, hne⟩
      · cases hindex
    · cases hindex
  · rintro ⟨hlt, hne⟩
    exact ⟨.index i, hvisible.mpr ⟨_, rfl, hne⟩, if_pos hlt⟩

/-- The stored indices are in strictly ascending order. -/
theorem ascending_storedIndices (h : Heap) (id : ObjectId) (length : Nat) :
    (h.storedIndices id length).Pairwise (· < ·) := by
  have hnodup : (h.storedIndices id length).Nodup := by
    rw [storedIndices, (List.mergeSort_perm _ _).nodup_iff]
    refine (h.nodup_visibleKeys _).filterMap fun key key' i hi hi' => ?_
    have hindex : ∀ {n}, i ∈ (if n < length then some n else none) → Key.index n = .index i := by
      intro n hmem
      split at hmem <;> cases hmem
      rfl
    have hkey : key = .index i := by
      split at hi
      · exact hindex hi
      · cases hi
    have hkey' : key' = .index i := by
      split at hi'
      · exact hindex hi'
      · cases hi'
    rw [hkey, hkey']
  have hsorted : (h.storedIndices id length).Pairwise fun i j => decide (i ≤ j) = true :=
    List.pairwise_mergeSort (by simp; omega) (by simp; omega) _
  refine (hsorted.and hnodup).imp ?_
  rintro i j ⟨hle, hne⟩
  exact Nat.lt_of_le_of_ne (of_decide_eq_true hle) hne

end Heap

/-! ### The loop

Both ways of going through a list come to the same verdict. -/

namespace Descriptor

/-- A look at `count` elements of a list from index `i` on, one after the other, up to the first that does
not fit. -/
def checkElements (h : Heap) (element : Descriptor) (id : ObjectId) : Nat → Nat → Except Mismatch Unit
  | _, 0 => .ok ()
  | i, count + 1 =>
    match element.check h (h.getField id (.index i)).value with
    | .ok () => checkElements h element id (i + 1) count
    | .error m => .error (m.under (.index i))

variable {h : Heap} {element : Descriptor} {id : ObjectId}

/-- The loop over the indices stops at the first of them that fails. -/
theorem checkElements_eq_firstMismatch (h : Heap) (element : Descriptor) (id : ObjectId) (i count : Nat) :
    element.checkElements h id i count =
      firstMismatch
        (fun i =>
          match element.check h (h.getField id (.index i)).value with
          | .ok () => .ok ()
          | .error m => .error (m.under (.index i)))
        (List.range' i count) := by
  induction count generalizing i with
  | zero => rfl
  | succ count ih =>
    rw [checkElements, List.range'_succ, firstMismatch]
    cases element.check h (h.getField id (.index i)).value with
    | ok _ => exact ih (i + 1)
    | error m => rfl

/-- A list that has a length is checked by the loop. -/
theorem check_listOf_of_length (hw : h.WellFormed) (hplain : (h.get id).kind.isCallable = false) {length : Nat}
    (hlength : h.listLength? id = some length) :
    check h (.listOf element) (.object id) = element.checkElements h id 0 length := by
  rw [check, if_neg (by simp [hplain]), hlength, checkElements_eq_firstMismatch]
  refine firstMismatch_withFirstGap (h.ascending_storedIndices id length)
    (fun i hi => (hw.mem_storedIndices.mp hi).1) fun i hi hgap j hj hgap' hpass => ?_
  have hnull : ∀ {n}, n < length → n ∉ h.storedIndices id length → (h.getField id (.index n)).value = .null :=
    fun hn hmissing => by_contra fun hne => hmissing (hw.mem_storedIndices.mpr ⟨hn, hne⟩)
  rw [hnull hi hgap] at hpass
  rw [hnull hj hgap']
  cases hcheck : element.check h .null with
  | ok _ => rfl
  | error m => rw [hcheck] at hpass; cases hpass

/-- The check of elements passes exactly if the descriptor accepts what is read at every index. -/
theorem checkElements_eq_ok {i count : Nat} : element.checkElements h id i count = .ok () ↔
    ∀ j, i ≤ j → j < i + count → element.check h (h.getField id (.index j)).value = .ok () := by
  induction count generalizing i with
  | zero => exact iff_of_true rfl fun j hle hlt => absurd hlt (Nat.not_lt.mpr hle)
  | succ count ih =>
    rw [checkElements]
    cases hcheck : element.check h (h.getField id (.index i)).value with
    | error m =>
      refine iff_of_false nofun fun hall => ?_
      rw [hall i le_rfl (by omega)] at hcheck
      cases hcheck
    | ok _ =>
      rw [ih]
      constructor
      · intro hrest j hle hlt
        rcases Nat.eq_or_lt_of_le hle with rfl | hlt'
        · exact hcheck
        · exact hrest j hlt' (by omega)
      · exact fun hall j hle hlt => hall j (by omega) (by omega)

/-- The loop stops at an element that does not fit. -/
theorem exists_of_checkElements {i count : Nat} {m : Mismatch}
    (hfail : element.checkElements h id i count = .error m) :
    ∃ j m', i ≤ j ∧ j < i + count ∧ element.check h (h.getField id (.index j)).value = .error m' ∧
      m = m'.under (.index j) := by
  induction count generalizing i with
  | zero => cases hfail
  | succ count ih =>
    rw [checkElements] at hfail
    cases hcheck : element.check h (h.getField id (.index i)).value with
    | ok _ =>
      rw [hcheck] at hfail
      obtain ⟨j, m', hle, hlt, hj, hm⟩ := ih hfail
      exact ⟨j, m', by omega, by omega, hj, hm⟩
    | error m' =>
      rw [hcheck] at hfail
      cases hfail
      exact ⟨i, m', le_rfl, by omega, hcheck, rfl⟩

end Descriptor

/-! ### Lengths

How lengths that are no indices are taken. -/

namespace Heap

/-- The object has a valid length: a number along its chain, zero or more and without a fraction. -/
def HasLength (h : Heap) (id : ObjectId) (length : Nat) : Prop :=
  ∃ n, (h.getField id (.name "length")).value = .number n ∧ 0 ≤ n ∧ Number.isWhole n = true ∧
    Number.toIndex n = length

/-- A list has a length if there is a number under that name which is one. -/
theorem listLength?_eq_some {h : Heap} {id : ObjectId} {length : Nat} :
    h.listLength? id = some length ↔ h.HasLength id length := by
  rw [listLength?, HasLength]
  cases (h.getField id (.name "length")).value with
  | number n =>
    simp only [Option.ite_none_right_eq_some, Bool.and_eq_true, decide_eq_true_iff, Option.some_inj, and_assoc]
    constructor
    · exact fun hlength => ⟨n, rfl, hlength⟩
    · rintro ⟨_, hn', hlength⟩
      exact Value.number.inj hn' ▸ hlength
  | _ =>
    refine iff_of_false (Option.some_ne_none length).symm ?_
    rintro ⟨n, hn, -⟩
    cases hn

end Heap

/-- **The check of a sparse list is the plain loop.**  Let an object of a well-formed heap that is no function
have, along its chain, a number in the field `length` that is zero or more and has no fraction.  Then its check
as a list of any elements comes out as a look at the indices from 0 up to that number, in order: it passes if
all of them fit, and otherwise it reports the refusal at the first that does not, under its index. -/
theorem sparse_check_is_plain {h : Heap} (hw : h.WellFormed) {id : ObjectId}
    (hplain : (h.get id).kind = .plain) {n : Float} (hlength : (h.getField id (.name "length")).value = .number n)
    (hn : 0 ≤ n) (hwhole : Number.isWhole n = true) (element : Descriptor) :
    Descriptor.check h (.listOf element) (.object id) =
      element.checkElements h id 0 (Number.toIndex n) :=
  Descriptor.check_listOf_of_length hw (by rw [hplain]; rfl)
    (Heap.listLength?_eq_some.mpr ⟨n, hlength, hn, hwhole, rfl⟩)

namespace Heap

/-- A list of length 3 on an object that has something under the indices 0 and 7. -/
def sparse : Heap :=
  let parent := (initial.allocPlain (some objectProto)).2
  let stored := (parent.define 5 "length" (.bare (.number 3))).writeOwn 5 (.index 0) (.bare (.string "a"))
  let child := ((stored.writeOwn 5 (.index 7) (.bare (.string "b"))).allocPlain (some 5)).2
  child.writeOwn 6 (.index 2) (.bare (.number 1))

/-- The list with an element far behind the others is on a well-formed heap. -/
theorem wellFormed_sparse : sparse.WellFormed := by
  have hparent := Change.allocObject.wellFormed wellFormed_initial
  let parent := (initial.allocPlain (some objectProto)).2
  let measured := parent.define 5 "length" (.bare (.number 3))
  let stored := measured.writeOwn 5 (.index 0) (.bare (.string "a"))
  let filled := stored.writeOwn 5 (.index 7) (.bare (.string "b"))
  have hmeasured : measured.WellFormed := hparent.writeOwn (by decide) trivial
  have hstored : stored.WellFormed := hmeasured.writeOwn nofun trivial
  have hfilled : filled.WellFormed := hstored.writeOwn nofun trivial
  have hproto : ∀ p, some 5 = some p → p < filled.size := fun p hp => by cases hp; decide
  exact ((Change.allocPlain hproto).wellFormed hfilled).writeOwn nofun trivial

end Heap

/-- The theorem at a list with an inherited element, a gap and an own element: the gap is refused. -/
theorem sparse_check_is_plain_gap :
    let element := Descriptor.or [.primitive .string, .primitive .number]
    Heap.sparse.WellFormed ∧ (Heap.sparse.get 6).kind = .plain ∧
      (Heap.sparse.getField 6 (.name "length")).value = .number 3 ∧ (0 : Float) ≤ 3 ∧
      Number.isWhole 3 = true ∧
      Descriptor.check Heap.sparse (.listOf element) (.object 6) =
        element.checkElements Heap.sparse 6 0 (Number.toIndex 3) ∧
      element.checkElements Heap.sparse 6 0 3 = .error ⟨"string | number", [.index 1]⟩ := by
  have hwhole : Number.isWhole 3 = true := by decide +kernel
  have hn : (0 : Float) ≤ 3 := by decide +kernel
  exact ⟨Heap.wellFormed_sparse, rfl, rfl, hn, hwhole,
    sparse_check_is_plain Heap.wellFormed_sparse rfl rfl hn hwhole _, rfl⟩

end Protean
