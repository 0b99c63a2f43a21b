import CsNotes.Coroutine.Objects
import CsNotes.Coroutine.Steps

/-!
# Chains of suspended frames

A frame that is suspended above another holds it in `tmp2`, and is what the other
continues with. From any frame a chain leads down to one which holds no other,
and up to one which no other holds. Whatever happens to a chain is no concern of
the frames outside it.
-/
namespace CsNotes.Coroutine
open Interleaving

/-- A frame which is suspended, with its continuation and the frame it holds. -/
inductive Rests (h : Option Hdl) : Option ℕ → Frame → Prop
  | fresh (c : Coro) (x v : ℤ) : Rests h none (.fresh c x v h)
  | blocked (n : ℕ) (value : ℤ → ℤ) (x v : ℤ) (w : ℕ) :
      Rests h none (.blocked (.leaf n value) x v w h)
  | waiting (f : Coro) (x v : ℤ) (j : ℕ) : Rests h (some j) (.waiting f x v j h)
  | done (a : Frame) (v : ℤ) : a.continuation = h → Rests h none (a.finish v)

/-- Frame `i` and those beneath it are suspended. -/
def Suspended (s : State) : Option Hdl → ℕ → List ℕ → Prop
  | h, i, [] => ∃ a, s.frames i = some a ∧ Rests h none a
  | h, i, j :: l => i < j ∧ (∃ a, s.frames i = some a ∧ Rests h (some j) a) ∧
      Suspended s (some (.frame i)) j l

/-- The frames above frame `k`, whose continuation is `h`. The last of them
continues with `root`. -/
def Awaited (s : State) (root : Option Hdl) : List ℕ → Option Hdl → ℕ → Prop
  | [], h, _ => h = root
  | p :: up, h, k => h = some (.frame p) ∧ p < k ∧
      ∃ h', (∃ a, s.frames p = some a ∧ Rests h' (some k) a) ∧ Awaited s root up h' p

def top : ℕ → List ℕ → ℕ
  | k, [] => k
  | _, p :: up => top p up

/-- Only frames of `K` and new ones changed, with their callers, and of these the ones in
`K'` are there. -/
structure Within (K K' : ℕ → Prop) (s s' : State) : Prop where
  allocs : s.allocs ≤ s'.allocs
  inside : ∀ m, K m ∨ s.allocs ≤ m → (s'.frames m ≠ none ↔ K' m)
  outside : ∀ m, ¬ K m → m < s.allocs → s'.frames m = s.frames m
  callers : ∀ m, ¬ K m → m < s.allocs → s'.callers m = s.callers m
  mem : ∀ m, K' m → K m ∨ s.allocs ≤ m

variable {s s' s'' : State} {root h : Option Hdl} {i j k m r : ℕ} {up l : List ℕ} {a : Frame}
variable {K K' K'' E : ℕ → Prop}

theorem Rests.promise {n : Option ℕ} (ha : Rests h n a) : .promise ∈ a.live := by
  cases ha <;> simp [Frame.fresh, Frame.blocked, Frame.waiting, Frame.finish]

theorem Suspended.first (hl : Suspended s h i l) :
    ∃ a n, s.frames i = some a ∧ Rests h n a := by
  cases l with
  | nil =>
      obtain ⟨a, ha, hr⟩ := hl
      exact ⟨a, none, ha, hr⟩
  | cons j l =>
      obtain ⟨-, ⟨a, ha, hr⟩, -⟩ := hl
      exact ⟨a, some j, ha, hr⟩

theorem Suspended.alive (hl : Suspended s h i l) (hm : m ∈ i :: l) : s.frames m ≠ none := by
  induction l generalizing h i with
  | nil =>
      obtain ⟨a, ha, -⟩ := hl
      rw [List.mem_singleton.mp hm, ha]
      exact Option.some_ne_none a
  | cons j l ih =>
      obtain ⟨-, ⟨a, ha, -⟩, hrest⟩ := hl
      rcases List.mem_cons.mp hm with rfl | hm
      · rw [ha]
        exact Option.some_ne_none a
      · exact ih hrest hm

theorem Suspended.lt (hl : Suspended s h i l) (hm : m ∈ l) : i < m := by
  induction l generalizing h i with
  | nil => cases hm
  | cons j l ih =>
      obtain ⟨hij, -, hrest⟩ := hl
      rcases List.mem_cons.mp hm with rfl | hm
      · exact hij
      · exact Nat.lt_trans hij (ih hrest hm)

theorem Suspended.above (hl : Suspended s h j l) (hi : i < j) : ∀ m, m ∈ j :: l → i < m := by
  intro m hm
  rcases List.mem_cons.mp hm with rfl | hm
  · exact hi
  · exact Nat.lt_trans hi (hl.lt hm)

theorem Suspended.congr (hl : Suspended s h i l)
    (hs : ∀ m, m ∈ i :: l → s'.frames m = s.frames m) : Suspended s' h i l := by
  induction l generalizing h i with
  | nil =>
      obtain ⟨a, ha, hr⟩ := hl
      exact ⟨a, (hs i List.mem_cons_self).trans ha, hr⟩
  | cons j l ih =>
      obtain ⟨hij, ⟨a, ha, hr⟩, hrest⟩ := hl
      exact ⟨hij, ⟨a, (hs i List.mem_cons_self).trans ha, hr⟩,
        ih hrest fun m hm => hs m (List.mem_cons_of_mem i hm)⟩

theorem Awaited.alive (hup : Awaited s root up h k) (hm : m ∈ up) : s.frames m ≠ none := by
  induction up generalizing h k with
  | nil => cases hm
  | cons p up ih =>
      obtain ⟨-, -, h', ⟨a, ha, -⟩, hrest⟩ := hup
      rcases List.mem_cons.mp hm with rfl | hm
      · rw [ha]
        exact Option.some_ne_none a
      · exact ih hrest hm

theorem Awaited.lt (hup : Awaited s root up h k) (hm : m ∈ up) : m < k := by
  induction up generalizing h k with
  | nil => cases hm
  | cons p up ih =>
      obtain ⟨-, hpk, h', -, hrest⟩ := hup
      rcases List.mem_cons.mp hm with rfl | hm
      · exact hpk
      · exact Nat.lt_trans (ih hrest hm) hpk

theorem Awaited.congr (hup : Awaited s root up h k)
    (hs : ∀ m, m ∈ up → s'.frames m = s.frames m) : Awaited s' root up h k := by
  induction up generalizing h k with
  | nil => exact hup
  | cons p up ih =>
      obtain ⟨hh, hpk, h', ⟨a, ha, hr⟩, hrest⟩ := hup
      exact ⟨hh, hpk, h', ⟨a, (hs p List.mem_cons_self).trans ha, hr⟩,
        ih hrest fun m hm => hs m (List.mem_cons_of_mem p hm)⟩

/-- What is above a frame and what is beneath it are one chain. -/
theorem Awaited.join (hup : Awaited s root up h k) (hl : Suspended s h k l) :
    ∃ l', Suspended s root (top k up) l' ∧
      ∀ m, m ∈ top k up :: l' ↔ m ∈ up ∨ m ∈ k :: l := by
  induction up generalizing h k l with
  | nil =>
      cases hup
      exact ⟨l, hl, fun m => by simp [top]⟩
  | cons p up ih =>
      obtain ⟨rfl, hpk, h', hp, hrest⟩ := hup
      obtain ⟨l', hl', hmem⟩ := ih (k := p) (l := k :: l) hrest ⟨hpk, hp, hl⟩
      refine ⟨l', hl', fun m => (hmem m).trans ?_⟩
      simp only [List.mem_cons]
      tauto

/-- Every frame of a chain has one part above it and one beneath. -/
theorem Awaited.split (hup : Awaited s root up h i) (hl : Suspended s h i l) (hm : m ∈ i :: l) :
    ∃ up' h' l', Awaited s root up' h' m ∧ Suspended s h' m l' ∧ top m up' = top i up ∧
      ∀ x, x ∈ up' ∨ x ∈ m :: l' ↔ x ∈ up ∨ x ∈ i :: l := by
  induction l generalizing h i up with
  | nil =>
      obtain rfl := List.mem_singleton.mp hm
      exact ⟨up, h, [], hup, hl, rfl, fun x => Iff.rfl⟩
  | cons j l ih =>
      by_cases hmi : m = i
      · subst hmi
        exact ⟨up, h, j :: l, hup, hl, rfl, fun x => Iff.rfl⟩
      · obtain ⟨hij, hi, hrest⟩ := hl
        have hm' : m ∈ j :: l := (List.mem_cons.mp hm).resolve_left hmi
        have hj : Awaited s root (i :: up) (some (.frame i)) j := ⟨rfl, hij, h, hi, hup⟩
        obtain ⟨up', h', l', hup', hl', htop, hmem⟩ := ih hj hrest hm'
        refine ⟨up', h', l', hup', hl', htop, fun x => (hmem x).trans ?_⟩
        simp only [List.mem_cons]
        tauto

theorem Rests.redirect {n : Option ℕ} (ha : Rests h n a) (h' : Option Hdl) :
    Rests h' n { a with continuation := h' } := by
  cases ha with
  | fresh c x v => exact .fresh c x v
  | blocked n value x v w => exact .blocked n value x v w
  | waiting f x v j => exact .waiting f x v j
  | done a v _ => exact .done { a with continuation := h' } v rfl

namespace Within

theorem trans (h : Within K K' s s') (h' : Within K' K'' s' s'') : Within K K'' s s'' := by
  have hnot : ∀ m, (K m ∨ s.allocs ≤ m) → ¬ (K' m ∨ s'.allocs ≤ m) →
      (s''.frames m ≠ none ↔ K'' m) := by
    intro m hm hm'
    rw [not_or, Nat.not_le] at hm'
    rw [h'.outside m hm'.1 hm'.2, h.inside m hm]
    exact iff_of_false hm'.1 fun hk => (h'.mem m hk).elim hm'.1 (Nat.not_le.mpr hm'.2)
  have hnot' : ∀ m, ¬ K m → m < s.allocs → ¬ K' m :=
    fun m hm hlt hk => (h.mem m hk).elim hm (Nat.not_le.mpr hlt)
  refine ⟨Nat.le_trans h.allocs h'.allocs, fun m hm => ?_, fun m hm hlt => ?_,
    fun m hm hlt => ?_, fun m hm => ?_⟩
  · by_cases hm' : K' m ∨ s'.allocs ≤ m
    · exact h'.inside m hm'
    · exact hnot m hm hm'
  · rw [h'.outside m (hnot' m hm hlt) (Nat.lt_of_lt_of_le hlt h.allocs), h.outside m hm hlt]
  · rw [h'.callers m (hnot' m hm hlt) (Nat.lt_of_lt_of_le hlt h.allocs), h.callers m hm hlt]
  · rcases h'.mem m hm with hk | hle
    · exact h.mem m hk
    · exact .inr (Nat.le_trans h.allocs hle)

theorem congr {J J' : ℕ → Prop} (h : Within K K' s s') (hK : ∀ m, J m ↔ K m)
    (hK' : ∀ m, J' m ↔ K' m) : Within J J' s s' := by
  obtain rfl : J = K := funext fun m => propext (hK m)
  obtain rfl : J' = K' := funext fun m => propext (hK' m)
  exact h

theorem add (h : Within K K' s s') (hs : s.Sound) (hE : ∀ m, E m → s.frames m ≠ none ∧ ¬ K m) :
    Within (fun m => E m ∨ K m) (fun m => E m ∨ K' m) s s' := by
  have hsame : ∀ m, E m → s'.frames m = s.frames m := fun m hm =>
    h.outside m (hE m hm).2 (hs.bound m (hE m hm).1)
  refine ⟨h.allocs, fun m hm => ?_, fun m hm hlt => h.outside m (fun hk => hm (.inr hk)) hlt,
    fun m hm hlt => h.callers m (fun hk => hm (.inr hk)) hlt, fun m hm => ?_⟩
  · by_cases hEm : E m
    · rw [hsame m hEm]
      exact iff_of_true (hE m hEm).1 (.inl hEm)
    · rw [h.inside m (hm.imp_left fun hk => hk.resolve_left hEm)]
      simp [hEm]
  · rcases hm with hm | hm
    · exact .inl (.inl hm)
    · exact (h.mem m hm).imp_left .inr

end Within

theorem Becomes.within (hb : Becomes s i a s') (hs : s.Sound) (hi : K i)
    (hK : ∀ m, K m → s.frames m ≠ none) : Within K K s s' := by
  refine ⟨Nat.le_of_eq hb.allocs.symm, fun m hm => ?_, fun m hm _ => ?_,
    fun m _ _ => congrFun hb.callers m, fun m hm => .inl hm⟩
  · by_cases hmi : m = i
    · subst hmi
      rw [hb.frame]
      exact iff_of_true (Option.some_ne_none a) hi
    · rw [hb.other m hmi]
      refine ⟨fun hne => hm.resolve_right fun hle => ?_, hK m⟩
      exact Nat.not_lt.mpr hle (hs.bound m hne)
  · apply hb.other
    rintro rfl
    exact hm hi

theorem Suspended.redirect (hl : Suspended s h i l) (ha : s.frames i = some a) (h' : Option Hdl)
    (hb : Becomes s i { a with continuation := h' } s') : Suspended s' h' i l := by
  cases l with
  | nil =>
      obtain ⟨b, hi, hr⟩ := hl
      cases hi.symm.trans ha
      exact ⟨_, hb.frame, hr.redirect h'⟩
  | cons j l =>
      obtain ⟨hij, ⟨b, hi, hr⟩, hrest⟩ := hl
      cases hi.symm.trans ha
      refine ⟨hij, ⟨_, hb.frame, hr.redirect h'⟩, hrest.congr fun m hm => ?_⟩
      exact hb.other m (Nat.ne_of_gt (hrest.above hij m hm))

end CsNotes.Coroutine
