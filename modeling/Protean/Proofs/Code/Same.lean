import Protean.Code.Basic

/-!
# Proofs — Code — comparing code

Equality of code that has been lowered without origins and whose functions declare nothing, as a Boolean that
can be computed: `Code.same` accepts only equal code (`Code.eq_of_same`).

It is what a machine that has started up is compared with: whether the code of a function on its heap is the one
that is expected is found out by computation.
-/

namespace Protean

deriving instance DecidableEq for Literal

namespace Code

mutual

/-- Whether the two are the same code, without origins, constants and declarations. -/
def same : Code → Code → Bool
  | .identifier o x, c =>
    match c with
    | .identifier none x' => o.isNone && decide (x = x')
    | _ => false
  | .literal o x, c =>
    match c with
    | .literal none x' => o.isNone && decide (x = x')
    | _ => false
  | .field o t k, c =>
    match c with
    | .field none t' k' => o.isNone && t.same t' && decide (k = k')
    | _ => false
  | .call o t args, c =>
    match c with
    | .call none t' args' => o.isNone && t.same t' && argsSame args args'
    | _ => false
  | .send o t k args, c =>
    match c with
    | .send none t' k' args' => o.isNone && t.same t' && decide (k = k') && argsSame args args'
    | _ => false
  | .bind o x v, c =>
    match c with
    | .bind none x' v' => o.isNone && decide (x = x') && v.same v'
    | _ => false
  | .store o t k v, c =>
    match c with
    | .store none t' k' v' => o.isNone && t.same t' && decide (k = k') && v.same v'
    | _ => false
  | .function o ds ps body, c =>
    match c with
    | .function none [] [] body' => o.isNone && ds.isEmpty && ps.isEmpty && bodySame body body'
    | _ => false
  | .const _, _ | .bracket .., _ | .destructure .., _ | .builtin .., _ | .probeScope .., _
  | .probeField .., _ => false

def bodySame : List Code → List Code → Bool
  | [], cs' => cs'.isEmpty
  | c :: cs, cs' =>
    match cs' with
    | c' :: cs' => c.same c' && bodySame cs cs'
    | [] => false

def argsSame : List (Argument Code) → List (Argument Code) → Bool
  | [], args' => args'.isEmpty
  | ⟨name, c⟩ :: args, args' =>
    match args' with
    | ⟨name', c'⟩ :: args' => decide (name = name') && c.same c' && argsSame args args'
    | [] => false

end

mutual

/-- **Code that compares as the same is the same**, by induction on the first. -/
theorem eq_of_same : ∀ {c c' : Code}, c.same c' = true → c = c'
  | .identifier .., c', h | .literal .., c', h => by
      unfold same at h
      split at h <;> simp_all
  -- comparing goes down both codes at once, so equality of the parts is the induction hypothesis
  | .field _ t _, c', h => by
      unfold same at h
      split at h
      · rename_i t' _
        have ht : t.same t' = true → t = t' := eq_of_same
        simp_all
      · cases h
  | .call _ t args, c', h => by
      unfold same at h
      split at h
      · rename_i t' args'
        have ht : t.same t' = true → t = t' := eq_of_same
        have hargs : argsSame args args' = true → args = args' := eq_of_argsSame
        simp_all
      · cases h
  | .send _ t _ args, c', h => by
      unfold same at h
      split at h
      · rename_i t' _ args'
        have ht : t.same t' = true → t = t' := eq_of_same
        have hargs : argsSame args args' = true → args = args' := eq_of_argsSame
        simp_all
      · cases h
  | .bind _ _ v, c', h => by
      unfold same at h
      split at h
      · rename_i v'
        have hv : v.same v' = true → v = v' := eq_of_same
        simp_all
      · cases h
  | .store _ t _ v, c', h => by
      unfold same at h
      split at h
      · rename_i t' _ v'
        have ht : t.same t' = true → t = t' := eq_of_same
        have hv : v.same v' = true → v = v' := eq_of_same
        simp_all
      · cases h
  | .function _ _ _ body, c', h => by
      unfold same at h
      split at h
      · rename_i body'
        have hbody : bodySame body body' = true → body = body' := eq_of_bodySame
        simp_all
      · cases h
  -- the comparison fails for code that compiled trees do not have
  | .const _, _, h | .bracket .., _, h | .destructure .., _, h | .builtin .., _, h | .probeScope .., _, h
  | .probeField .., _, h => by simp [same] at h

theorem eq_of_bodySame : ∀ {cs cs' : List Code}, bodySame cs cs' = true → cs = cs'
  | [], cs', h => (List.isEmpty_iff.mp h).symm
  | c :: cs, [], h => by cases h
  | c :: cs, c' :: cs', h => by
      obtain ⟨hc, hcs⟩ := Bool.and_eq_true_iff.mp h
      rw [eq_of_same hc, eq_of_bodySame hcs]

theorem eq_of_argsSame : ∀ {args args' : List (Argument Code)}, argsSame args args' = true → args = args'
  | [], args', h => (List.isEmpty_iff.mp h).symm
  | ⟨_, _⟩ :: args, [], h => by cases h
  | ⟨name, c⟩ :: args, ⟨name', c'⟩ :: args', h => by
      obtain ⟨hhead, hargs⟩ := Bool.and_eq_true_iff.mp h
      obtain ⟨hname, hc⟩ := Bool.and_eq_true_iff.mp hhead
      rw [of_decide_eq_true hname, eq_of_same hc, eq_of_argsSame hargs]

end

end Code

end Protean
