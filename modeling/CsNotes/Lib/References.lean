import Mathlib.Algebra.Order.BigOperators.Group.Finset

/-!
# Reference counts

Owners hold references, each owner a list of them, and only finitely many owners
hold any. The count of a referent is how often it is held by all of them.
-/
namespace CsNotes.References

variable {O K : Type*} [DecidableEq O] [DecidableEq K]

def Counted (refs : O → List K) (count : K → ℕ) : Prop :=
  ∃ S : Finset O, (∀ o, o ∉ S → refs o = []) ∧ ∀ k, count k = ∑ o ∈ S, (refs o).count k

variable {refs refs' : O → List K} {count count' : K → ℕ} {o : O} {k : K}

namespace Counted

theorem extend (h : Counted refs count) (T : Finset O) :
    ∃ S, T ⊆ S ∧ (∀ o, o ∉ S → refs o = []) ∧ ∀ k, count k = ∑ o ∈ S, (refs o).count k := by
  obtain ⟨S, hout, hsum⟩ := h
  refine ⟨S ∪ T, Finset.subset_union_right, fun o ho => ?_, fun k => ?_⟩
  · exact hout o fun hS => ho (Finset.mem_union_left T hS)
  · rw [hsum k]
    apply Finset.sum_subset Finset.subset_union_left
    intro o _ ho
    rw [hout o ho]
    rfl

/-- The owners in `T` get other references, and the counts change with them. -/
theorem change (h : Counted refs count) (T : Finset O) (hout : ∀ o, o ∉ T → refs' o = refs o)
    (hsum : ∀ k, count' k + ∑ o ∈ T, (refs o).count k =
      count k + ∑ o ∈ T, (refs' o).count k) : Counted refs' count' := by
  obtain ⟨S, hTS, hnil, hcount⟩ := h.extend T
  refine ⟨S, fun o ho => ?_, fun k => ?_⟩
  · rw [hout o fun hT => ho (hTS hT)]
    exact hnil o ho
  · have hrest : ∑ o ∈ S \ T, (refs' o).count k = ∑ o ∈ S \ T, (refs o).count k := by
      apply Finset.sum_congr rfl
      intro o ho
      rw [hout o (Finset.mem_sdiff.mp ho).2]
    have hold := Finset.sum_sdiff (f := fun o => (refs o).count k) hTS
    have hnew := Finset.sum_sdiff (f := fun o => (refs' o).count k) hTS
    have hk := hsum k
    rw [hcount k] at hk
    omega

theorem le (h : Counted refs count) (o : O) (k : K) : (refs o).count k ≤ count k := by
  obtain ⟨S, hS, -, hcount⟩ := h.extend {o}
  rw [hcount k]
  exact Finset.single_le_sum (f := fun o => (refs o).count k) (fun _ _ => Nat.zero_le _)
    (hS (Finset.mem_singleton_self o))

theorem pos (h : Counted refs count) (hk : k ∈ refs o) : 0 < count k :=
  Nat.lt_of_lt_of_le (List.count_pos_iff.mpr hk) (h.le o k)

theorem not_mem (h : Counted refs count) (hk : count k = 0) (o : O) : k ∉ refs o :=
  fun hmem => Nat.ne_of_gt (h.pos hmem) hk

theorem sole (h : Counted refs count) (hk : count k = 1) (ho : k ∈ refs o) {o' : O}
    (hne : o' ≠ o) : k ∉ refs o' := by
  intro ho'
  obtain ⟨S, hS, -, hcount⟩ := h.extend {o', o}
  have hle : ∑ x ∈ {o', o}, (refs x).count k ≤ ∑ x ∈ S, (refs x).count k :=
    Finset.sum_le_sum_of_subset hS
  rw [Finset.sum_pair hne, ← hcount k, hk] at hle
  have hpos := List.count_pos_iff.mpr ho
  have hpos' := List.count_pos_iff.mpr ho'
  omega

end Counted
end CsNotes.References
