import Mathlib.Data.List.Count
import Mathlib.Data.List.Induction
import CsNotes.Coroutine.Model

/-!
# The objects in a frame, as they are seen from outside

The events tell of every frame which objects are alive in it. They keep to the
rules of object lifetime as long as nothing is constructed in storage that is in
use, only what is alive is destroyed, and the storage is released once, when
nothing in it is alive any more.

A state is sound if the events kept to the rules and its frames are what they
tell. So the operations on a frame keep a state sound which the model allows,
but for the release: nothing in the model stops it while an object is alive.
-/
namespace CsNotes.Coroutine
open Interleaving

/-- Nothing was constructed in the storage yet, or these objects are alive in it,
or it was released. -/
inductive Life where
  | unborn
  | alive (live : List Obj)
  | released
deriving DecidableEq, Repr

def Life.live : Life → List Obj
  | alive l => l
  | _ => []

/-- The frame whose objects an event is about. -/
def Event.frame? : Event → Option ℕ
  | construct i _ | destroy i _ | release i => some i
  | resume _ | read .. => none

/-- What an event makes of the frame it is about. -/
def Life.next : Life → Event → Option Life
  | .unborn, .construct _ o => some (.alive [o])
  | .alive l, .construct _ o => if l.any o.overlaps then none else some (.alive (l ++ [o]))
  | .alive l, .destroy _ o => if o ∈ l then some (.alive (l.erase o)) else none
  | .alive [], .release _ => some .released
  | _, _ => none

/-- The life of frame `i` after these events, if they keep to the rules. -/
def life (i : ℕ) (log : List Event) : Option Life :=
  (log.filter fun e => e.frame? = some i).foldlM Life.next .unborn

/-- The events keep to the rules in every frame. -/
def Balanced (log : List Event) : Prop := ∀ i, ∃ l, life i log = some l

/-- What the state says of a frame. -/
def State.lifeOf (s : State) (i : ℕ) : Life :=
  match s.frames i with
  | some a => .alive a.live
  | none => if i < s.allocs then .released else .unborn

structure State.Sound (s : State) : Prop where
  life : ∀ i, life i s.log = some (s.lifeOf i)
  bound : ∀ i, s.frames i ≠ none → i < s.allocs

/-- Frame `i` becomes `a`, and the other frames stay. -/
structure Becomes (s : State) (i : ℕ) (a : Frame) (s' : State) : Prop where
  frame : s'.frames i = some a
  other : ∀ k, k ≠ i → s'.frames k = s.frames k
  allocs : s'.allocs = s.allocs
  callers : s'.callers = s.callers
  sound : s.Sound → s'.Sound

variable {s s' s'' : State} {i k : ℕ} {a a' : Frame} {o : Obj} {e : Event} {l : List Obj}
variable {log log' : List Event}

theorem life_append : life i (log ++ log') =
    (life i log).bind fun x => (log'.filter fun e => e.frame? = some i).foldlM Life.next x := by
  unfold life
  rw [List.filter_append, List.foldlM_append]
  rfl

theorem life_other (he : e.frame? ≠ some i) : life i (log ++ [e]) = life i log := by
  simp [life_append, he]

theorem life_next (he : e.frame? = some i) :
    life i (log ++ [e]) = (life i log).bind fun x => x.next e := by
  simp [life_append, he]

theorem Balanced.of_append (h : Balanced (log ++ log')) : Balanced log := by
  intro i
  obtain ⟨l, hl⟩ := h i
  rw [life_append] at hl
  cases hlog : life i log with
  | none => simp [hlog] at hl
  | some l => exact ⟨l, rfl⟩

/-- One event that keeps to the rules constructs what is alive next, and destroys
what was alive. -/
theorem Life.next_counts {x y : Life} (he : e.frame? = some i) (h : y.next e = some x) :
    ([e].count (.release i) + if y = .released then 1 else 0) = (if x = .released then 1 else 0) ∧
    ∀ o, [e].count (.construct i o) + y.live.count o =
      [e].count (.destroy i o) + x.live.count o := by
  cases e with
  | resume h => cases he
  | read h j => cases he
  | construct j o =>
      cases he
      cases y with
      | unborn =>
          cases h
          simp [Life.live, List.count_singleton]
      | alive l =>
          obtain ⟨-, h⟩ := Option.ite_none_left_eq_some.mp h
          cases h
          simp [Life.live, List.count_append, List.count_singleton, Nat.add_comm]
      | released => cases h
  | destroy j o =>
      cases he
      cases y with
      | unborn => cases h
      | alive l =>
          obtain ⟨ho, h⟩ := Option.ite_none_right_eq_some.mp h
          cases h
          refine ⟨by simp, fun o' => ?_⟩
          have hpos := List.count_pos_iff.mpr ho
          by_cases hoo : o' = o
          · subst hoo
            simp only [Life.live, List.count_erase_self, List.count_singleton]
            simp
            omega
          · simp [Life.live, List.count_erase_of_ne hoo, Ne.symm hoo]
      | released => cases h
  | release j =>
      cases he
      cases y with
      | unborn => cases h
      | alive l =>
          cases l with
          | nil =>
              cases h
              simp [Life.live]
          | cons o l => cases h
      | released => cases h

/-- What was constructed and not destroyed is alive, and the storage is released
once at most. -/
theorem counts_of_life {x : Life} (h : life i log = some x) :
    log.count (.release i) = (if x = .released then 1 else 0) ∧
    ∀ o, log.count (.construct i o) = log.count (.destroy i o) + x.live.count o := by
  induction log using List.reverseRecOn generalizing x with
  | nil =>
      cases h
      simp [Life.live]
  | append_singleton log e ih =>
      simp only [List.count_append]
      by_cases he : e.frame? = some i
      · rw [life_next he, Option.bind_eq_some_iff] at h
        obtain ⟨y, hy, hx⟩ := h
        obtain ⟨hr, hc⟩ := ih hy
        obtain ⟨hr', hc'⟩ := Life.next_counts he hx
        refine ⟨by omega, fun o => ?_⟩
        have h₁ := hc o
        have h₂ := hc' o
        omega
      · rw [life_other he] at h
        have hne : ∀ e', e'.frame? = some i → List.count e' [e] = 0 := by
          intro e' he'
          apply List.count_eq_zero.mpr
          intro hmem
          rw [List.mem_singleton.mp hmem] at he'
          exact he he'
        rw [hne _ rfl, Nat.add_zero]
        refine ⟨(ih h).1, fun o => ?_⟩
        rw [hne _ rfl, hne _ rfl, Nat.add_zero, Nat.add_zero]
        exact (ih h).2 o

theorem lifeOf_congr (hf : s'.frames k = s.frames k) (ha : s'.allocs = s.allocs) :
    s'.lifeOf k = s.lifeOf k := by
  unfold State.lifeOf
  rw [hf, ha]

theorem lifeOf_eq (ha : s.frames i = some a) : s.lifeOf i = .alive a.live := by
  unfold State.lifeOf
  rw [ha]

namespace State.Sound

theorem note (h : s.Sound) (he : e.frame? = none) : (s.note e).Sound := by
  constructor
  · intro k
    rw [State.note, life_other (by simp [he])]
    exact h.life k
  · exact h.bound

/-- An event in the life of frame `i`, and the change that goes with it. -/
theorem event (h : s.Sound) (he : e.frame? = some i) (hlog : s'.log = s.log ++ [e])
    (hi : (s.lifeOf i).next e = some (s'.lifeOf i)) (hk : ∀ k, k ≠ i → s'.lifeOf k = s.lifeOf k)
    (hother : ∀ k, k ≠ i → s'.frames k = s.frames k) (hallocs : s.allocs ≤ s'.allocs)
    (hbound : i < s'.allocs) : s'.Sound := by
  constructor
  · intro k
    rw [hlog]
    by_cases hki : k = i
    · subst hki
      rw [life_next he, h.life]
      exact hi
    · rw [life_other (by simp [he, Ne.symm hki]), h.life, hk k hki]
  · intro k hne
    by_cases hki : k = i
    · exact hki ▸ hbound
    · rw [hother k hki] at hne
      exact Nat.lt_of_lt_of_le (h.bound k hne) hallocs

theorem create (h : s.Sound) (ha : s'.frames s.allocs = some a) (hl : a.live = [.promise])
    (hlog : s'.log = s.log ++ [.construct s.allocs .promise])
    (hother : ∀ k, k ≠ s.allocs → s'.frames k = s.frames k) (hallocs : s'.allocs = s.allocs + 1) :
    s'.Sound := by
  have hfree : s.frames s.allocs = none := by
    by_contra hne
    exact Nat.lt_irrefl _ (h.bound _ hne)
  refine h.event rfl hlog ?_ (fun k hk => ?_) hother (by omega) (by omega)
  · rw [lifeOf_eq ha, hl]
    simp [State.lifeOf, hfree, Life.next]
  · have hlt : k < s'.allocs ↔ k < s.allocs := by omega
    unfold State.lifeOf
    simp only [hother k hk, hlt]

theorem release (h : s.Sound) (ha : s.frames i = some a) (hl : a.live = []) :
    ({ s with frames := Function.update s.frames i none }.note (.release i)).Sound := by
  have hlt : i < s.allocs := h.bound i (by simp [ha])
  have hother : ∀ k, k ≠ i → ({ s with frames := Function.update s.frames i none }.note
      (.release i)).frames k = s.frames k := fun k hk => Function.update_of_ne hk _ _
  refine h.event rfl rfl ?_ (fun k hk => lifeOf_congr (hother k hk) rfl) hother (Nat.le_refl _) hlt
  rw [lifeOf_eq ha, hl]
  simp [State.lifeOf, State.note, Life.next, hlt]

end State.Sound

theorem Becomes.trans (h : Becomes s i a s') (h' : Becomes s' i a' s'') : Becomes s i a' s'' :=
  ⟨h'.frame, fun k hk => (h'.other k hk).trans (h.other k hk), h'.allocs.trans h.allocs,
    h'.callers.trans h.callers, fun hs => h'.sound (h.sound hs)⟩

theorem becomes_note (ha : s.frames i = some a) (he : e.frame? = none) :
    Becomes s i a (s.note e) :=
  ⟨ha, fun _ _ => rfl, rfl, rfl, fun hs => hs.note he⟩

theorem becomes_setFrame (ha : s.frames i = some a) (hl : a'.live = a.live) :
    Becomes s i a' (s.setFrame i a') := by
  have hself : (s.setFrame i a').frames i = some a' := Function.update_self i _ _
  have hother : ∀ k, k ≠ i → (s.setFrame i a').frames k = s.frames k :=
    fun k hk => Function.update_of_ne hk _ _
  refine ⟨hself, hother, rfl, rfl, fun hs => ⟨fun k => ?_, fun k hk => ?_⟩⟩
  · by_cases hki : k = i
    · subst hki
      rw [lifeOf_eq hself, hl, ← lifeOf_eq ha]
      exact hs.life k
    · rw [lifeOf_congr (hother k hki) rfl]
      exact hs.life k
  · by_cases hki : k = i
    · exact hs.bound k (by simp [hki, ha])
    · exact hs.bound k (hother k hki ▸ hk)

theorem becomes_event (ha : s.frames i = some a) (he : e.frame? = some i)
    (hl : (Life.alive a.live).next e = some (.alive a'.live)) :
    Becomes s i a' ((s.setFrame i a').note e) := by
  have hself : ((s.setFrame i a').note e).frames i = some a' := Function.update_self i _ _
  have hother : ∀ k, k ≠ i → ((s.setFrame i a').note e).frames k = s.frames k :=
    fun k hk => Function.update_of_ne hk _ _
  refine ⟨hself, hother, rfl, rfl, fun hs => hs.event he rfl ?_
    (fun k hk => lifeOf_congr (hother k hk) rfl) hother (Nat.le_refl _)
    (hs.bound i (by simp [ha]))⟩
  rw [lifeOf_eq ha, lifeOf_eq hself, hl]

namespace State

theorem frame_of (ha : s.frames i = some a) : s.frame i = .ok a := by
  unfold frame
  rw [ha]

theorem get_of (ha : s.frames i = some a) (ho : o ∈ a.live) : s.get i o = .ok a := by
  unfold get
  rw [frame_of ha, Outcome.ok_bind, if_pos ho]

theorem modify_sat {f : Frame → Frame} (ha : s.frames i = some a) (hf : (f a).live = a.live) :
    (s.modify i f).Sat (Becomes s i (f a)) := by
  unfold modify
  rw [frame_of ha, Outcome.ok_bind]
  exact becomes_setFrame ha hf

theorem suspend_sat (p : ℕ) (ha : s.frames i = some a) :
    (s.suspend i p).Sat (Becomes s i { a with suspendPoint := p, suspended := true }) :=
  modify_sat ha rfl

theorem construct_sat {f : Frame → Frame} (ha : s.frames i = some a)
    (ho : a.live.any o.overlaps = false) (hf : ∀ b, (f b).live = b.live) :
    (s.construct i o f).Sat (Becomes s i (f { a with live := a.live ++ [o] })) := by
  unfold construct
  rw [frame_of ha, Outcome.ok_bind, ho]
  refine becomes_event ha rfl ?_
  rw [hf]
  simp [Life.next, ho]

theorem destruct_sat (ha : s.frames i = some a) (ho : o ∈ a.live) :
    (s.destruct i o).Sat (Becomes s i { a with live := a.live.erase o }) := by
  unfold destruct
  rw [get_of ha ho, Outcome.ok_bind]
  exact becomes_event ha rfl (by simp [Life.next, ho])

end State
end CsNotes.Coroutine
