import CsNotes.Coroutine.Balance
import CsNotes.Coroutine.Unwinding

/-!
# Cancelling a chain

The objects in a frame should end in the reverse of the order in which they were
constructed. So they do where `g` completes: `tmp3`, the awaiter, ends before
`tmp2`, the task it was obtained from. Where `g` is destroyed at its suspend
point, `tmp2` ends first, and with it all frames beneath, while the awaiter that
refers to the first of them is still alive.
-/
namespace CsNotes.Coroutine
open Interleaving Calls

def about (k : ℕ) (ev : List Event) : List Event := ev.filter fun e => e.frame? = some k

/-- In frame `k` the temporaries that were constructed and are alive end in
reverse, then the promise ends and the storage is released. -/
def Unwinds (log ev : List Event) (k : ℕ) : Prop :=
  ∃ temps, life k log = some (.alive (.promise :: temps)) ∧
    about k ev = temps.reverse.map (.destroy k) ++ [.destroy k .promise, .release k]

/-- `g` is suspended at suspend point 1. -/
def Frame.Awaits (a : Frame) : Prop := (∃ f, a.code = .g f) ∧ a.suspendPoint = 1

/-- If frame `k` is `g` at its suspend point, then to resume it reads the result
and ends the temporaries in reverse, and only then does the rest. -/
def Completes (junk : ℕ → ℤ) (s : State) (k : ℕ) : Prop :=
  ∀ a, s.frames k = some a → a.Awaits → ∃ temps j t y,
    life k s.log = some (.alive (.promise :: temps)) ∧ a.tmp2 = some j ∧
    t.log = s.log ++ [.resume (.frame k), .read (.frame k) j] ++ temps.reverse.map (.destroy k) ∧
    ∀ r, body taskReady junk r (.resume (some (.frame k))) s =
      r (.destroy j) t >>= fun s => returnValue k y s >>= finalSuspend taskReady r k

/-- What `destroy()` does in a frame. -/
def State.endOf (s : State) (k : ℕ) : List Event :=
  match s.frames k with
  | none => []
  | some a => (if .tmp2 ∈ a.live then [.tmp2, .tmp3] else a.live.tail.reverse).map (.destroy k) ++
      [.destroy k .promise, .release k]

variable {ready : ℕ → Ready} {junk : ℕ → ℤ} {s t : State} {root h : Option Hdl} {i j k : ℕ}
variable {l : List ℕ} {a : Frame} {n : Option ℕ} {log ev ev' : List Event}

theorem about_append : about k (ev ++ ev') = about k ev ++ about k ev' := List.filter_append ev ev'

theorem about_of_frame (he : ∀ e, e ∈ ev → e.frame? = some i) :
    about k ev = if k = i then ev else [] := by
  unfold about
  by_cases hk : k = i
  · subst hk
    rw [if_pos rfl]
    exact List.filter_eq_self.mpr fun e hm => decide_eq_true (he e hm)
  · rw [if_neg hk]
    apply List.filter_eq_nil_iff.mpr
    intro e hm hke
    have hik : some i = some k := (he e hm).symm.trans (of_decide_eq_true hke)
    exact hk (Option.some.inj hik).symm

theorem endOf_eq (ha : s.frames k = some a) : s.endOf k =
    (if .tmp2 ∈ a.live then [.tmp2, .tmp3] else a.live.tail.reverse).map (.destroy k) ++
      [.destroy k .promise, .release k] := by
  unfold State.endOf
  rw [ha]

theorem Rests.live_eq (ha : Rests h n a) : a.live = .promise :: a.live.tail := by
  cases ha <;> rfl

theorem Rests.awaits_iff (ha : Rests h n a) : a.Awaits ↔ .tmp2 ∈ a.live := by
  unfold Frame.Awaits
  cases ha with
  | fresh c x v => simp [Frame.fresh]
  | blocked n value x v w => simp [Frame.blocked]
  | waiting f x v j => simp [Frame.waiting]
  | done a v _ => simp [Frame.finish]

theorem Rests.unwinds_iff_not_awaits (ha : Rests h n a) (hk : s.frames k = some a)
    (hlog : life k log = some (.alive a.live)) (hev : about k ev = s.endOf k) :
    Unwinds log ev k ↔ ¬ a.Awaits := by
  have hunwinds : Unwinds log ev k ↔ about k ev =
      a.live.tail.reverse.map (.destroy k) ++ [.destroy k .promise, .release k] := by
    unfold Unwinds
    rw [hlog, ha.live_eq]
    constructor
    · rintro ⟨temps, hl, he⟩
      cases hl
      exact he
    · exact fun he => ⟨_, rfl, he⟩
  rw [hunwinds, hev, endOf_eq hk, ha.awaits_iff]
  cases ha with
  | fresh c x v => simp [Frame.fresh]
  | blocked n value x v w => simp [Frame.blocked]
  | waiting f x v j => simp [Frame.waiting]
  | done a v _ => simp [Frame.finish]

/-- `g` completes in the right order, whatever is beneath it. -/
theorem Rests.completes (ha : Rests h (some j) a) (hk : s.frames k = some a) {b : Frame}
    (hj : s.frames j = some b) (hb : .promise ∈ b.live) (hkj : k ≠ j)
    (hlog : life k s.log = some (.alive a.live)) : Completes junk s k := by
  intro d hd _
  cases hk.symm.trans hd
  cases ha with
  | waiting f x v =>
      let w : Frame := { Frame.waiting f x v j h with suspended := false }
      let s₁ : State := (s.setFrame k w).notes [.resume (.frame k)]
      refine ⟨[.tmp2, .tmp3], j, (s.setFrame k (.woken f x v j h)).notes
        [.resume (.frame k), .read (.frame k) j, .destroy k .tmp3, .destroy k .tmp2],
        b.result * b.result, hlog, rfl, by simp [State.notes, State.setFrame], fun r => ?_⟩
      have hs : (s.setFrame k (.waiting f x v j h)).notes [] = s := by
        rw [State.notes_nil, setFrame_self hk]
      have hread : awaiterResume (some j) (.frame k) s₁ = .ok (s₁.note (.read (.frame k) j),
          b.result) := by
        have hj₁ : s₁.frames j = some b := (Function.update_of_ne hkj.symm _ _).trans hj
        unfold awaiterResume
        change State.get s₁ j .promise >>= _ = _
        rw [State.get_of hj₁ hb]
        rfl
      have hbody := @body_resume junk r s k [] (.waiting f x v j h) rfl rfl
      rw [hs] at hbody
      rw [hbody]
      change gResume taskReady junk r f k s₁ = _
      unfold gResume
      rw [State.frame_eq, Outcome.ok_bind]
      change gReturn taskReady r k s₁ = _
      unfold gReturn
      rw [State.get_eq (by simp [w, Frame.waiting]), Outcome.ok_bind]
      change awaiterResume (some j) (.frame k) s₁ >>= _ = _
      rw [hread, Outcome.ok_bind]
      change State.destruct (s₁.note _) k .tmp3 >>= _ = _
      rw [State.note_notes, State.destruct_eq (by simp [w, Frame.waiting]), Outcome.ok_bind,
        destroyTmp2_eq (by simp [w, Frame.waiting]) rfl]
      rfl

/-- A frame of the chain, and what is known of the one it holds. -/
theorem Suspended.rests (hl : Suspended s h i l) (hk : k ∈ i :: l) :
    ∃ a h' n, s.frames k = some a ∧ Rests h' n a ∧
      ∀ j, n = some j → k < j ∧ ∃ b, s.frames j = some b ∧ .promise ∈ b.live := by
  induction l generalizing h i with
  | nil =>
      obtain rfl := List.mem_singleton.mp hk
      obtain ⟨a, ha, hr⟩ := hl
      exact ⟨a, h, none, ha, hr, fun j hj => (Option.some_ne_none j hj.symm).elim⟩
  | cons j l ih =>
      obtain ⟨hij, ⟨a, ha, hr⟩, hrest⟩ := hl
      rcases List.mem_cons.mp hk with rfl | hk
      · refine ⟨a, h, some j, ha, hr, fun j' hj => ?_⟩
        cases hj
        obtain ⟨b, n, hb, hrb⟩ := hrest.first
        exact ⟨hij, b, hb, hrb.promise⟩
      · exact ih hrest hk

theorem Suspended.completes (hl : Suspended s h i l) (hs : s.Sound) (hk : k ∈ i :: l) :
    Completes junk s k := by
  obtain ⟨a, h', n, ha, hr, hn⟩ := hl.rests hk
  cases n with
  | none =>
      intro d hd hawaits
      cases ha.symm.trans hd
      have hm : .tmp2 ∈ a.live := hr.awaits_iff.mp hawaits
      cases hr <;> simp [Frame.fresh, Frame.blocked, Frame.finish] at hm
  | some j =>
      obtain ⟨hkj, b, hb, hpromise⟩ := hn j rfl
      refine hr.completes ha hb hpromise (Nat.ne_of_lt hkj) ?_
      rw [hs.life, lifeOf_eq ha]

theorem Suspended.beneath (hl : Suspended s h i l) : Beneath s i l := by
  induction l generalizing h i with
  | nil =>
      obtain ⟨a, ha, hr⟩ := hl
      refine ⟨a, ha, ?_⟩
      cases hr <;> simp [Frame.fresh, Frame.blocked, Frame.finish]
  | cons j l ih =>
      obtain ⟨-, ⟨a, ha, hr⟩, hrest⟩ := hl
      cases hr with
      | waiting f x v => exact ⟨⟨_, ha, by simp [Frame.waiting], rfl⟩, ih hrest⟩

theorem Beneath.unique {l' : List ℕ} (hl : Beneath s i l) (hl' : Beneath s i l') : l = l' := by
  induction l generalizing i l' with
  | nil =>
      obtain ⟨a, ha, hw⟩ := hl
      cases l' with
      | nil => rfl
      | cons j' l' =>
          obtain ⟨⟨b, hb, hw', -⟩, -⟩ := hl'
          cases ha.symm.trans hb
          exact (hw hw').elim
  | cons j l ih =>
      obtain ⟨⟨a, ha, hw, hj⟩, hrest⟩ := hl
      cases l' with
      | nil =>
          obtain ⟨b, hb, hw'⟩ := hl'
          cases ha.symm.trans hb
          exact (hw' hw).elim
      | cons j' l' =>
          obtain ⟨⟨b, hb, -, hj'⟩, hrest'⟩ := hl'
          cases ha.symm.trans hb
          cases hj.symm.trans hj'
          rw [ih hrest hrest']

/-- In every frame `destroy()` does what it does there, in whatever order it comes
to the frames. -/
theorem Suspended.runs_destroy (hl : Suspended s h i l) :
    ∃ ev, Runs (body ready junk) (fun r => r (.destroy i) s) ((s.without (i :: l)).notes ev) ∧
      ∀ k, about k ev = if k ∈ i :: l then s.endOf k else [] := by
  induction l generalizing s h i with
  | nil =>
      obtain ⟨a, ha, hr⟩ := hl
      refine ⟨_, .call (.pure fun r => destroyFrame_last ha hr), fun k => ?_⟩
      have hown : ∀ e, e ∈ a.live.tail.reverse.map (Event.destroy i) ++
          [Event.destroy i .promise, .release i] → e.frame? = some i := by
        intro e he
        rcases List.mem_append.mp he with he | he
        · obtain ⟨o, -, rfl⟩ := List.mem_map.mp he
          rfl
        · simp only [List.mem_cons, List.not_mem_nil, or_false] at he
          rcases he with rfl | rfl <;> rfl
      rw [about_of_frame hown]
      by_cases hk : k = i
      · subst hk
        cases hr <;> simp [endOf_eq ha, Frame.fresh, Frame.blocked, Frame.finish]
      · simp [hk]
  | cons j l ih =>
      have hnot : i ∉ j :: l := fun hm => Nat.lt_irrefl i (hl.lt hm)
      obtain ⟨hij, ⟨a, ha, hr⟩, hrest⟩ := hl
      cases hr with
      | waiting f x v =>
          obtain ⟨ev, hev, hk⟩ := runs_destroy_waiting (B := body ready junk)
            (P := fun ev => ∀ k, about k ev = if k ∈ j :: l then s.endOf k else [])
            (fun _ _ _ => rfl) ha hnot fun t ht => by
              obtain ⟨ev, hev, hk⟩ := ih (hrest.congr ht)
              refine ⟨ev, hev, fun k => ?_⟩
              rw [hk k]
              by_cases hkl : k ∈ j :: l
              · rw [if_pos hkl, if_pos hkl]
                unfold State.endOf
                rw [ht k hkl]
              · rw [if_neg hkl, if_neg hkl]
          refine ⟨_, hev, fun k => ?_⟩
          rw [about_append, ← List.singleton_append, about_append, hk,
            about_of_frame (i := i) (by simp [Event.frame?]),
            about_of_frame (i := i) (by simp [Event.frame?])]
          by_cases hki : k = i
          · subst hki
            simp [hnot, endOf_eq ha, Frame.waiting]
          · simp [hki]

namespace Session
variable {w w' : Session}

/-- Each frame of a chain that is destroyed unwinds if it is not `g` at its suspend
point. -/
theorem Good.destroys (hw : w.Good) (hi : w.held i = true) :
    ∃ l w' ev, (∃ root, Suspended w.state root i l) ∧
      Runs (body taskReady junk) (fun r => w.perform taskReady junk r (.destroy i)) w' ∧
      w'.state.log = w.state.log ++ ev ∧ ∀ k, k ∈ i :: l → Completes junk w.state k ∧
        ∀ a, w.state.frames k = some a → (Unwinds w.state.log ev k ↔ ¬ a.Awaits) := by
  obtain ⟨hs, down, hc⟩ := hw
  obtain ⟨root, -, hl⟩ := hc.suspended i hi
  obtain ⟨ev, hev, hends⟩ := @Suspended.runs_destroy taskReady junk _ _ _ _ hl
  refine ⟨down i, _, ev, ⟨root, hl⟩, .bind hev (.pure fun _ => rfl), rfl,
    fun k hk => ⟨hl.completes hs hk, fun a ha => ?_⟩⟩
  obtain ⟨b, h, n, hb, hr, -⟩ := hl.rests hk
  cases ha.symm.trans hb
  refine hr.unwinds_iff_not_awaits ha ?_ ((hends k).trans (if_pos hk))
  rw [hs.life, lifeOf_eq ha]

/-- In every run the program can destroy any chain it holds, from the outermost
frame on. In every frame of the chain the objects end in the reverse of the order
they were constructed in, as they do where a frame completes, exactly if the
outermost frame is not `g` at its suspend point. -/
theorem unwinds_iff (hw : Reached taskReady junk w) (hi : w.held i = true) :
    ∃ a l w' ev, w.state.frames i = some a ∧ Beneath w.state i l ∧
      Runs (body taskReady junk) (fun r => w.perform taskReady junk r (.destroy i)) w' ∧
      w'.state.log = w.state.log ++ ev ∧ (∀ k, k ∈ i :: l → Completes junk w.state k) ∧
      ((∀ k, k ∈ i :: l → Unwinds w.state.log ev k) ↔ ¬ a.Awaits) := by
  have hgood : w.Good := good_of_reached (fun _ => rfl) hw
  obtain ⟨l, w', ev, ⟨root, hl⟩, hr, hlog, hk⟩ := @Good.destroys junk i w hgood hi
  obtain ⟨a, n, ha, -⟩ := hl.first
  have hfirst := (hk i List.mem_cons_self).2 a ha
  refine ⟨a, l, w', ev, ha, hl.beneath, hr, hlog, fun k hm => (hk k hm).1,
    fun hall => hfirst.mp (hall i List.mem_cons_self), ?_⟩
  intro hnot k hm
  cases l with
  | nil =>
      cases List.mem_singleton.mp hm
      exact hfirst.mpr hnot
  | cons j l =>
      obtain ⟨-, ⟨b, hb, hrb⟩, -⟩ := hl
      cases ha.symm.trans hb
      cases hrb with
      | waiting f x v => exact (hnot ⟨⟨f, rfl⟩, rfl⟩).elim

section Example

/-- Two of `g` wait above a leaf, and are destroyed. -/
theorem unwinds_iff_sample : ∃ w w' : Session, ∃ ev, Reached taskReady (fun _ => 0) w ∧
    Beneath w.state 0 [1, 2] ∧
    Runs (body taskReady fun _ => 0)
      (fun r => w.perform taskReady (fun _ => 0) r (.destroy 0)) w' ∧
    w'.state.log = w.state.log ++ ev ∧ (∀ k, k ∈ [0, 1, 2] → Completes (fun _ => 0) w.state k) ∧
    ¬ ∀ k, k ∈ [0, 1, 2] → Unwinds w.state.log ev k := by
  have hcall : Reached taskReady (fun _ => 0) _ :=
    .step (n := 0) (a := .call (.g (.g (.leaf 1 id))) 3) .init trivial rfl
  obtain ⟨w, hw, hheld, hchain, a, ha, hawaits⟩ : ∃ w, Reached taskReady (fun _ => 0) w ∧
      w.held 0 = true ∧ Beneath w.state 0 [1, 2] ∧ ∃ a, w.state.frames 0 = some a ∧ a.Awaits :=
    ⟨_, hcall.step (a := .await 0) (n := 3) ⟨rfl, _, rfl, rfl, rfl⟩ rfl, rfl,
      ⟨⟨_, rfl, by decide, rfl⟩, ⟨_, rfl, by decide, rfl⟩, _, rfl, by decide⟩,
      _, rfl, ⟨_, rfl⟩, rfl⟩
  obtain ⟨b, l, w', ev, hb, hl, hr, hlog, hcompletes, hiff⟩ := unwinds_iff hw hheld
  cases hl.unique hchain
  cases ha.symm.trans hb
  exact ⟨w, w', ev, hw, hchain, hr, hlog, hcompletes, fun hall => hiff.mp hall hawaits⟩

/-- `g` awaits a leaf that waits for an event, and is destroyed. -/
theorem tmp2_ends_first : ¬ ∀ w i, Reached taskReady (fun _ => 0) w → w.held i = true →
    ∃ l w' ev, Beneath w.state i l ∧ Runs (body taskReady fun _ => 0)
      (fun r => w.perform taskReady (fun _ => 0) r (.destroy i)) w' ∧
      w'.state.log = w.state.log ++ ev ∧ ∀ k, k ∈ i :: l → Unwinds w.state.log ev k := by
  intro hall
  have hcall : Reached taskReady (fun _ => 0) _ :=
    .step (n := 0) (a := .call (.g (.leaf 1 id)) 3) .init trivial rfl
  have hw := hcall.step (a := .resume 0) (n := 2) ⟨_, rfl, rfl, rfl⟩ rfl
  obtain ⟨l, w', ev, -, hr, hlog, hunwinds⟩ := hall _ 0 hw rfl
  obtain ⟨l', w'', ev', -, hr', hlog', hk⟩ :=
    @Good.destroys (fun _ => 0) 0 _ (good_of_reached (fun _ => rfl) hw) rfl
  cases hr.unique hr'
  cases List.append_cancel_left (hlog.symm.trans hlog')
  refine ((hk 0 List.mem_cons_self).2 _ rfl).mp (hunwinds 0 List.mem_cons_self) ⟨⟨_, rfl⟩, rfl⟩

end Example
end Session
end CsNotes.Coroutine
