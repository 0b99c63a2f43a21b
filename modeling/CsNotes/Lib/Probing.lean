import Mathlib.Data.List.Nodup

/-!
# Looking at places until one is found

A search looks at places in a given order, and ends at the first one at which it
finds what it looks for. An order may come back to a place, or to the place of
the searcher itself. Whether the search does depends on whether it has ended
before.
-/
namespace CsNotes.Probing

variable {P : Type*} (found : P → Prop) [DecidablePred found] {xs ys : List P} {own : P}

/-- The places at which a search in this order looks. -/
def probed : List P → List P
  | [] => []
  | x :: xs => if found x then [x] else x :: probed xs

theorem probed_sublist (xs : List P) : (probed found xs).Sublist xs := by
  induction xs with
  | nil => exact List.Sublist.slnil
  | cons x xs ih =>
      unfold probed
      split
      · exact (List.nil_sublist xs).cons_cons x
      · exact ih.cons_cons x

variable {found}

theorem probed_append_of_found (h : ∃ x ∈ xs, found x) :
    probed found (xs ++ ys) = probed found xs := by
  induction xs with
  | nil => simp at h
  | cons x xs ih =>
      by_cases hx : found x
      · simp only [List.cons_append, probed, if_pos hx]
      · simp only [List.cons_append, probed, if_neg hx]
        rw [ih (by simpa [hx] using h)]

theorem probed_append_of_not (h : ∀ x ∈ xs, ¬ found x) :
    probed found (xs ++ ys) = xs ++ probed found ys := by
  induction xs with
  | nil => rfl
  | cons x xs ih =>
      simp only [List.cons_append, probed, if_neg (h x List.mem_cons_self)]
      rw [ih fun y hy => h y (List.mem_cons_of_mem x hy)]

theorem mem_probed_cons (x : P) (xs : List P) : x ∈ probed found (x :: xs) := by
  unfold probed
  split <;> simp

/-- The order `xs` is good, and after it comes nothing, or a place again. Then no
place is looked at again exactly if nothing comes after `xs` or the search ends
in it. -/
theorem nodup_probed_iff (hxs : (own :: xs).Nodup) (hys : ∀ y ∈ ys.head?, y ∈ own :: xs) :
    (own :: probed found (xs ++ ys)).Nodup ↔ ys = [] ∨ ∃ x ∈ xs, found x := by
  by_cases h : ∃ x ∈ xs, found x
  · rw [probed_append_of_found h]
    refine iff_of_true (hxs.sublist ?_) (.inr h)
    exact (probed_sublist found xs).cons_cons own
  · rw [probed_append_of_not (by simpa using h)]
    cases ys with
    | nil => simpa [probed] using hxs
    | cons y ys =>
        refine iff_of_false (fun hnd => ?_) (by simpa using h)
        rw [← List.cons_append] at hnd
        exact List.disjoint_of_nodup_append hnd (hys y rfl) (mem_probed_cons y ys)

end CsNotes.Probing
