import Mathlib.Data.Set.Card

/-!
# A scan over slots never comes to the end

Threads look for a free slot among `N` from the first on, and keep the one they
find. A thread's position is the slot it has or the one it looks at next. A
thread goes on only past a slot which another one has, so as long as at most `N`
threads have a position, at most `N - i` of them are at `i` or beyond.
-/
namespace CsNotes.Scan

variable {T : Type*} {N i j : ℕ} {pos pos' : T → Option ℕ} {t u : T}

/-- The threads at position `i` or beyond. -/
def beyond (pos : T → Option ℕ) (i : ℕ) : Set T := {t | ∃ p, pos t = some p ∧ i ≤ p}

/-- At most `N - i` threads are at `i` or beyond, where `i` is not the first slot. -/
def Packed (N : ℕ) (pos : T → Option ℕ) : Prop :=
  ∀ i, 0 < i → i ≤ N → (beyond pos i).encard ≤ (N - i : ℕ)

theorem Packed.le (h : Packed N pos) (hN : (beyond pos 0).encard ≤ N) (hi : i ≤ N) :
    (beyond pos i).encard ≤ (N - i : ℕ) := by
  cases i with
  | zero => exact hN
  | succ i => exact h (i + 1) (Nat.succ_pos i) hi

/-- Threads may begin at the first slot, stay where they are, or leave. -/
theorem Packed.mono (h : Packed N pos)
    (hp : ∀ t p, pos' t = some p → p = 0 ∨ pos t = some p) : Packed N pos' := by
  intro i hi hiN
  apply le_trans (Set.encard_le_encard _) (h i hi hiN)
  rintro t ⟨p, ht, hip⟩
  exact ⟨p, (hp t p ht).resolve_left (by omega), hip⟩

theorem Packed.lt (h : Packed N pos) (hN : (beyond pos 0).encard ≤ N) (ht : pos t = some j) :
    j < N := by
  by_contra hj
  have hle := h.le hN le_rfl
  rw [Nat.sub_self, Nat.cast_zero, nonpos_iff_eq_zero, Set.encard_eq_zero] at hle
  have hmem : t ∈ beyond pos N := ⟨j, ht, by omega⟩
  rw [hle] at hmem
  exact hmem

variable [DecidableEq T]

theorem beyond_update_of_le (ht : pos t = some j) (hi : i ≤ j) :
    beyond (Function.update pos t (some (j + 1))) i = beyond pos i := by
  ext v
  by_cases hv : v = t
  · subst hv
    simp [beyond, ht, hi, Nat.le_succ_of_le hi]
  · simp [beyond, hv]

theorem beyond_update_of_lt (ht : pos t = some j) (hi : j + 1 < i) :
    beyond (Function.update pos t (some (j + 1))) i = beyond pos i := by
  ext v
  by_cases hv : v = t
  · subst hv
    simp only [beyond, Set.mem_ofPred_eq, Function.update_self, ht, Option.some.injEq]
    constructor <;> rintro ⟨p, rfl, hp⟩ <;> omega
  · simp [beyond, hv]

theorem Packed.advance (h : Packed N pos) (hN : (beyond pos 0).encard ≤ N)
    (ht : pos t = some j) (hu : pos u = some j) (htu : t ≠ u) :
    Packed N (Function.update pos t (some (j + 1))) := by
  intro i hi hiN
  rcases lt_trichotomy i (j + 1) with hlt | rfl | hgt
  · rw [beyond_update_of_le ht (by omega)]
    exact h i hi hiN
  · have hsub : beyond (Function.update pos t (some (j + 1))) (j + 1) ⊆
        insert t (beyond pos (j + 1)) := by
      rintro v ⟨p, hv, hp⟩
      by_cases hvt : v = t
      · exact Or.inl hvt
      · rw [Function.update_of_ne hvt] at hv
        exact Or.inr ⟨p, hv, hp⟩
    have huj : u ∉ insert t (beyond pos (j + 1)) := by
      rintro (rfl | ⟨p, hp, hle⟩)
      · exact htu rfl
      · rw [hu] at hp
        cases hp
        omega
    have hall : insert u (insert t (beyond pos (j + 1))) ⊆ beyond pos j := by
      rintro v (rfl | rfl | ⟨p, hp, hle⟩)
      · exact ⟨j, hu, le_rfl⟩
      · exact ⟨j, ht, le_rfl⟩
      · exact ⟨p, hp, by omega⟩
    have hcard := (Set.encard_le_encard hall).trans (h.le hN (by omega : j ≤ N))
    rw [Set.encard_insert_of_notMem huj] at hcard
    apply (Set.encard_le_encard hsub).trans
    have hj : ((N - j : ℕ) : ℕ∞) = (N - (j + 1) : ℕ) + 1 := by
      rw [← Nat.cast_succ]
      congr 1
      omega
    rw [hj] at hcard
    exact (ENat.add_le_add_iff_right (ENat.natCast_ne_top 1)).mp hcard
  · rw [beyond_update_of_lt ht hgt]
    exact h i hi hiN

end CsNotes.Scan
