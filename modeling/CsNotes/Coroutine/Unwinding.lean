import CsNotes.Coroutine.Chains
import CsNotes.Coroutine.Ownership

/-!
# What `destroy()` does to one frame of a chain

It ends the temporaries that are alive, then the promise and the frame. In a
frame that waits above another this one is destroyed in between, so one lemma
says what a chain does if it is known of the chain beneath.
-/
namespace CsNotes.Coroutine
open Interleaving Calls

variable {s : State} {i j : ℕ} {a : Frame} {f : Coro} {x v : ℤ} {h : Option Hdl}
variable {l : List ℕ} {ev : List Event} {r : Meaning Call State}

theorem setFrame_self (ha : s.frames i = some a) : s.setFrame i a = s := by
  unfold State.setFrame
  rw [← ha, Function.update_eq_self]

/-- Without the frame `j`. -/
def State.hide (s : State) (j : ℕ) : State := { s with frames := Function.update s.frames j none }

theorem setFrame_hide (ha : s.frames j = some a) : (s.hide j).setFrame j a = s := by
  unfold State.setFrame State.hide
  rw [Function.update_idem, ← ha, Function.update_eq_self]

/-- The end of the promise and of the frame. -/
def endFrame (i : ℕ) (s : State) : Outcome State := do
  let s ← s.destruct i .promise
  .ok ({ s with frames := Function.update s.frames i none }.note (.release i))

theorem endFrame_eq (hp : .promise ∈ a.live) :
    endFrame i (((s.hide i).setFrame i a).notes ev) =
      .ok ((s.hide i).notes (ev ++ [.destroy i .promise, .release i])) := by
  unfold endFrame
  rw [State.destruct_eq hp, Outcome.ok_bind]
  simp [State.note, State.notes, State.setFrame, State.hide]

theorem destroyFrame_eq (hi : s.frames i = some a) :
    destroyFrame r i s = destroyTemporaries r a i s >>= endFrame i := by
  unfold destroyFrame State.frame
  rw [hi]
  rfl

theorem without_singleton : s.without [i] = s.hide i := by
  unfold State.without State.hide
  congr 1
  funext k
  simp [Function.update_apply]

theorem without_hide : (s.without l).hide i = s.without (i :: l) := by
  unfold State.without State.hide
  congr 1
  funext k
  by_cases hk : k = i
  · subst hk
    simp
  · simp [hk]

/-- A frame that holds none ends what was constructed after the promise, if there
is anything. -/
theorem Rests.destroyTemporaries_eq (ha : Rests h none a) :
    destroyTemporaries r a i (((s.hide i).setFrame i a).notes []) =
      .ok (((s.hide i).setFrame i { a with live := [.promise] }).notes
        (a.live.tail.reverse.map (.destroy i))) := by
  cases ha with
  | fresh c x v =>
      rw [destroyTemporaries_fresh]
      exact State.destruct_eq (by simp [Frame.fresh])
  | blocked n value x v w => rfl
  | done a v _ =>
      rw [destroyTemporaries_finish]
      exact State.destruct_eq (by simp [Frame.finish])

theorem destroyFrame_last (hi : s.frames i = some a) (ha : Rests h none a) :
    destroyFrame r i s = .ok ((s.without [i]).notes
      (a.live.tail.reverse.map (.destroy i) ++ [.destroy i .promise, .release i])) := by
  have hs : ((s.hide i).setFrame i a).notes [] = s := by rw [State.notes_nil, setFrame_hide hi]
  have ht := ha.destroyTemporaries_eq (r := r) (s := s) (i := i)
  rw [hs] at ht
  rw [destroyFrame_eq hi, ht, Outcome.ok_bind, without_singleton]
  exact endFrame_eq (by simp)

/-- A frame whose task is destroyed. -/
def Frame.bereft (f : Coro) (x v : ℤ) (j : ℕ) (h : Option Hdl) : Frame :=
  { waiting f x v j h with live := [.promise, .tmp3] }

/-- `destroy()` on a frame that waits is first that of the frame beneath. -/
theorem destroyFrame_waiting (hi : s.frames i = some (.waiting f x v j h)) :
    destroyFrame r i s =
      r (.destroy j) (((s.hide i).setFrame i (.bereft f x v j h)).notes [.destroy i .tmp2]) >>=
        fun s => s.destruct i .tmp3 >>= endFrame i := by
  have hs : ((s.hide i).setFrame i (.waiting f x v j h)).notes [] = s := by
    rw [State.notes_nil, setFrame_hide hi]
  have h₂ : destroyTmp2 r i (((s.hide i).setFrame i (.waiting f x v j h)).notes []) =
      r (.destroy j) (((s.hide i).setFrame i (.bereft f x v j h)).notes [.destroy i .tmp2]) :=
    destroyTmp2_eq (by simp [Frame.waiting]) rfl
  rw [hs] at h₂
  rw [destroyFrame_eq hi]
  change (destroyTmp2 r i s >>= fun s => s.destruct i .tmp3) >>= endFrame i = _
  rw [h₂]
  cases r (.destroy j) _ <;> rfl

theorem destroy_rest (hi : i ∉ l) :
    (State.destruct (((((s.hide i).setFrame i (.bereft f x v j h)).notes
        [.destroy i .tmp2]).without l).notes ev) i .tmp3 >>= endFrame i) =
      .ok ((s.without (i :: l)).notes (.destroy i .tmp2 :: ev ++
        [.destroy i .tmp3, .destroy i .promise, .release i])) := by
  have hout : ((((s.hide i).setFrame i (.bereft f x v j h)).notes
      [.destroy i .tmp2]).without l).notes ev =
      (((s.without l).hide i).setFrame i (.bereft f x v j h)).notes (.destroy i .tmp2 :: ev) := by
    have hframes : (fun k => if k ∈ l then none else
        Function.update (Function.update s.frames i none) i (some (.bereft f x v j h)) k) =
        Function.update (Function.update (s.without l).frames i none) i
          (some (.bereft f x v j h)) := by
      funext k
      by_cases hk : k = i
      · subst hk
        rw [if_neg hi, Function.update_self, Function.update_self]
      · simp only [Function.update_of_ne hk]
        rfl
    change State.mk (fun k => if k ∈ l then none else
        Function.update (Function.update s.frames i none) i (some (.bereft f x v j h)) k)
      s.allocs s.callers s.answers (s.log ++ [.destroy i .tmp2] ++ ev) = _
    rw [hframes, List.append_assoc]
    rfl
  rw [hout, State.destruct_eq (by simp [Frame.bereft]), Outcome.ok_bind,
    endFrame_eq (by simp [Frame.bereft]), without_hide]
  simp

section
variable {B : Meaning Call State → Meaning Call State} {P : List Event → Prop}

/-- A frame that waits, in a program whose calls of `destroy` are these. -/
theorem runs_destroy_waiting (hB : ∀ r i s, B r (.destroy i) s = destroyFrame r i s)
    (hi : s.frames i = some (.waiting f x v j h)) (hnot : i ∉ j :: l)
    (ih : ∀ t : State, (∀ k, k ∈ j :: l → t.frames k = s.frames k) →
      ∃ ev, Runs B (fun r => r (.destroy j) t) ((t.without (j :: l)).notes ev) ∧ P ev) :
    ∃ ev, Runs B (fun r => r (.destroy i) s) ((s.without (i :: j :: l)).notes
      (.destroy i .tmp2 :: ev ++ [.destroy i .tmp3, .destroy i .promise, .release i])) ∧ P ev := by
  obtain ⟨ev, hev, hP⟩ := ih (((s.hide i).setFrame i (.bereft f x v j h)).notes
    [.destroy i .tmp2]) fun k hk => by
      have hki : k ≠ i := fun he => hnot (he ▸ hk)
      exact (Function.update_of_ne hki _ _).trans (Function.update_of_ne hki _ _)
  have hbody : ∀ r, B r (.destroy i) s = _ := fun r => (hB r i s).trans (destroyFrame_waiting hi)
  exact ⟨ev, .call (.congr hbody (.bind hev (.pure fun _ => destroy_rest hnot))), hP⟩

end
end CsNotes.Coroutine
