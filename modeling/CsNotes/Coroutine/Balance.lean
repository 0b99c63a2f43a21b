import CsNotes.Coroutine.Answers

/-!
# Balanced lifetimes

A program outside has the handles of the coroutines it called. It awaits them,
resumes any frame that is suspended and not done, and destroys what it holds, in
any order, and the awaiters suspend or not as they like. No coroutine comes to
its end while its continuation is null, since that is a call through a null
pointer. Then in no run an object is destroyed that is not alive, or left alive
in storage that is released, exactly if the final awaiter always suspends: where
it does not, the coroutine destroys itself by a suspend point that it has left.
-/
namespace CsNotes.Coroutine
open Interleaving Calls

inductive Act where
  | call (c : Coro) (x : ℤ)
  | await (i : ℕ)
  | resume (i : ℕ)
  | destroy (i : ℕ)

/-- `held i` tells whether the program has the handle of frame `i`. The handles of
other frames are in a `tmp2`. -/
structure Session where
  state : State
  held : ℕ → Bool

namespace Session

def init : Session := ⟨.init, fun _ => false⟩

/-- Frame `i` may be resumed. -/
def Pending (w : Session) (i : ℕ) : Prop :=
  ∃ a, w.state.frames i = some a ∧ a.suspended = true ∧ a.resume = true

def Allowed (w : Session) : Act → Prop
  | .call _ _ => True
  | .await i => w.held i = true ∧ w.Pending i
  | .resume i => w.Pending i
  | .destroy i => w.held i = true

variable (ready : ℕ → Ready) (junk : ℕ → ℤ)

/-- No coroutine comes to its end while nothing awaits it: what a call starts at once
stops before, and what is resumed to its end leads to a caller. -/
def Continued (w : Session) : Act → Prop
  | .call c _ => Starts ready c w.state.allocs (w.state.allocs + 1)
  | .await i => ∀ a, w.state.frames i = some a → a.orphans ready i w.state.allocs = false
  | .resume i => ∀ a, w.state.frames i = some a → a.orphans ready i w.state.allocs = false ∧
      (a.returns ready i w.state.allocs = true → w.state.Leads a.continuation)
  | .destroy _ => True

def perform (r : Meaning Call State) (w : Session) : Act → Outcome Session
  | .call c x => do
      let (s, t) ← ramp ready junk r c x w.state
      .ok ⟨s, fun i => w.held i || t = some i⟩
  | .await i => do
      let s ← coAwait r (some i) w.state
      .ok { w with state := s }
  | .resume i => do
      let s ← r (.resume (some (.frame i))) w.state
      .ok { w with state := s }
  | .destroy i => do
      let s ← r (.destroy i) w.state
      .ok ⟨s, Function.update w.held i false⟩

/-- What the program does, with calls inside up to some depth. -/
def act (n : ℕ) (w : Session) (a : Act) : Outcome Session :=
  w.perform ready junk (call (body ready junk) n) a

inductive Reached : Session → Prop
  | init : Reached init
  | step {w w' : Session} {a : Act} {n : ℕ} : Reached w → w.Allowed a →
      w.act ready junk n a = .ok w' → Reached w'

/-- The frames are chains, each held by the program at its first frame. `down i`
has the frames beneath. -/
structure Chains (w : Session) (down : ℕ → List ℕ) : Prop where
  suspended : ∀ i, w.held i = true →
    ∃ root, Outermost w.state i root ∧ Suspended w.state root i (down i)
  unique : ∀ m, w.state.frames m ≠ none → ∃! i, w.held i = true ∧ m ∈ i :: down i

def Good (w : Session) : Prop := w.state.Sound ∧ ∃ down, w.Chains down

variable {ready junk} {w w' : Session} {down : ℕ → List ℕ} {s : State} {i : ℕ}

theorem Chains.alive (h : w.Chains down) (hi : w.held i = true) {m : ℕ} (hm : m ∈ i :: down i) :
    w.state.frames m ≠ none := by
  obtain ⟨root, -, hl⟩ := h.suspended i hi
  exact hl.alive hm

theorem Chains.update (h : w.Chains down) (hsound : w.state.Sound) (q : ℕ) (l : List ℕ)
    {K K' : ℕ → Prop} {held : ℕ → Bool} (hw : Within K K' w.state s)
    (hK : ∀ m, K m ↔ w.held q = true ∧ m ∈ q :: down q)
    (hheld : ∀ i, i ≠ q → held i = w.held i)
    (hq : held q = true → ∃ root, Outermost s q root ∧ Suspended s root q l)
    (hK' : ∀ m, K' m ↔ held q = true ∧ m ∈ q :: l) :
    (⟨s, held⟩ : Session).Chains (Function.update down q l) := by
  have hother : ∀ i, w.held i = true → i ≠ q → ∀ m, m ∈ i :: down i →
      ¬ K m ∧ m < w.state.allocs := by
    intro i hi hiq m hm
    have hne := h.alive hi hm
    refine ⟨fun hk => hiq ?_, hsound.bound m hne⟩
    exact (h.unique m hne).unique ⟨hi, hm⟩ ((hK m).mp hk)
  constructor
  · intro i hi
    by_cases hiq : i = q
    · subst hiq
      rw [Function.update_self]
      exact hq hi
    · have hi' : w.held i = true := (hheld i hiq).symm.trans hi
      obtain ⟨root, hroot, hl⟩ := h.suspended i hi'
      rw [Function.update_of_ne hiq]
      refine ⟨root, ?_, hl.congr fun m hm => ?_⟩
      · obtain ⟨hnk, hlt⟩ := hother i hi' hiq i List.mem_cons_self
        exact hroot.congr (hw.outside i hnk hlt) (hw.callers i hnk hlt)
      · obtain ⟨hnk, hlt⟩ := hother i hi' hiq m hm
        exact hw.outside m hnk hlt
  · intro m hm
    by_cases hin : K m ∨ w.state.allocs ≤ m
    · obtain ⟨hqh, hml⟩ := (hK' m).mp ((hw.inside m hin).mp hm)
      refine ⟨q, ⟨hqh, by rwa [Function.update_self]⟩, fun i ⟨hi, hmi⟩ => ?_⟩
      by_contra hiq
      rw [Function.update_of_ne hiq] at hmi
      obtain ⟨hnk, hlt⟩ := hother i ((hheld i hiq).symm.trans hi) hiq m hmi
      exact hin.elim hnk (Nat.not_le.mpr hlt)
    · rw [not_or, Nat.not_le] at hin
      have hm' : w.state.frames m ≠ none := by
        rw [← hw.outside m hin.1 hin.2]
        exact hm
      obtain ⟨i, ⟨hi, hmi⟩, hu⟩ := h.unique m hm'
      have hiq : i ≠ q := by
        rintro rfl
        exact hin.1 ((hK m).mpr ⟨hi, hmi⟩)
      refine ⟨i, ⟨(hheld i hiq).trans hi, by rwa [Function.update_of_ne hiq]⟩,
        fun i' ⟨hi', hmi'⟩ => ?_⟩
      have hi'q : i' ≠ q := by
        rintro rfl
        rw [Function.update_self] at hmi'
        exact (hw.mem m ((hK' m).mpr ⟨hi', hmi'⟩)).elim hin.1 (Nat.not_le.mpr hin.2)
      rw [Function.update_of_ne hi'q] at hmi'
      exact hu i' ⟨(hheld i' hi'q).symm.trans hi', hmi'⟩

theorem Good.settled (hsound : w.state.Sound) (h : w.Chains down) (hi : w.held i = true)
    {root : Option Hdl} (hs : Settled root i (· ∈ i :: down i) w.state s) :
    Good { w with state := s } := by
  obtain ⟨hs', hroot, l, hl, hw⟩ := hs
  refine ⟨hs', _, h.update hsound i l hw (fun m => ?_) (fun _ _ => rfl)
    (fun _ => ⟨root, hroot, hl⟩) fun m => ?_⟩
  · simp [hi]
  · simp [hi]

section
variable {r : Meaning Call State}

theorem Chains.call_exactly {c : Coro} {x : ℤ} (hr : Contract ready r) (hs : w.state.Sound)
    (h : w.Chains down) : (w.perform ready junk r (.call c x)).Exactly
      (w.Continued ready (.call c x)) Good := by
  change (ramp ready junk r c x w.state >>= _).Exactly _ Good
  refine ((ramp_exactly _ hr hs).bind fun ⟨s, t⟩ ⟨ht, ⟨hs', hroot, l, hl, hw⟩, _⟩ => ?_).mono
    (and_iff_left trivial).symm fun _ => id
  cases ht
  have hnew : w.held w.state.allocs ≠ true := by
    intro hq
    exact Nat.lt_irrefl _ (hs.bound _ (h.alive hq List.mem_cons_self))
  refine ⟨trivial, hs', _, h.update hs w.state.allocs l hw (fun m => ?_) (fun i hi => ?_)
    (fun _ => ?_) fun m => ?_⟩
  · exact iff_of_false id fun hm => hnew hm.1
  · simp [Ne.symm hi]
  · exact ⟨none, hroot, hl⟩
  · simp

theorem Chains.await_exactly (hr : Contract ready r) (hs : w.state.Sound) (h : w.Chains down)
    (hi : w.held i = true ∧ w.Pending i) : (w.perform ready junk r (.await i)).Exactly
      (w.Continued ready (.await i)) Good := by
  obtain ⟨hheld, a, ha, -, hres⟩ := hi
  let t : State := { w.state with callers := Function.update w.state.callers i true }
  obtain ⟨root, -, hl⟩ := h.suspended i hheld
  have hpromise : .promise ∈ a.live := by
    obtain ⟨b, n, hb, hrb⟩ := hl.first
    cases ha.symm.trans hb
    exact hrb.promise
  have ht : t.Sound := ⟨hs.life, hs.bound⟩
  have hlt : Suspended t root i (down i) := hl.congr fun _ _ => rfl
  change (execAwaitSuspend r (awaiterSuspend (some i) (.caller i)) (.caller i) t >>= _).Exactly _ _
  rw [execAwaitSuspend_of (s := t) ha hpromise]
  have hb : Becomes t i { a with continuation := some (.caller i) } _ := becomes_setFrame ha rfl
  have hw : Within (· ∈ i :: down i) (· ∈ i :: down i) t _ :=
    hb.within ht List.mem_cons_self fun m => hlt.alive
  have hw₀ : Within (· ∈ i :: down i) (· ∈ i :: down i) w.state t :=
    within_of_frames hs rfl rfl (fun m hm => Function.update_of_ne
      (List.ne_of_not_mem_cons hm) _ _) fun m => hl.alive
  have hup : ∀ s, Awaited s (some (.caller i)) [] (some (.caller i)) i := fun _ => rfl
  have hroot : Root t i (some (.caller i)) := .inr ⟨rfl, Function.update_self i _ _⟩
  refine ((hr.resume (hb.sound ht) (hup _) (hlt.redirect ha _ hb) hb.frame hres
    (hroot.congr (congrFun hb.callers _))).bind_ok (Q := Good) fun s' hs' => ?_).mono ?_ fun _ => id
  · refine Good.settled hs h hheld (((hs'.1.congr fun m => ?_).within hw).within hw₀)
    simp
  · refine ⟨fun h => ⟨h a ha, fun _ => Option.some_ne_none _⟩, fun h b hb => ?_⟩
    cases ha.symm.trans hb
    exact h.1

theorem Chains.resume_exactly (hr : Contract ready r) (hs : w.state.Sound) (h : w.Chains down)
    (hi : w.Pending i) : (w.perform ready junk r (.resume i)).Exactly
      (w.Continued ready (.resume i)) Good := by
  obtain ⟨a, ha, -, hres⟩ := hi
  obtain ⟨q, ⟨hq, hm⟩, -⟩ := h.unique i (by simp [ha])
  obtain ⟨root, hroot, hl⟩ := h.suspended q hq
  have hroot' := hroot.awaited hl hm ha hres
  have hup : Awaited w.state root [] root q := rfl
  obtain ⟨up, h', l, hup', hl', htop, hmem⟩ := hup.split hl hm
  have htop' : top i up = q := htop
  subst htop'
  change (r (.resume (some (.frame i))) w.state >>= _).Exactly _ Good
  refine ((hr.resume hs hup' hl' ha hres hroot').bind_ok (Q := Good) fun s' hs' => ?_).mono ?_
    fun _ => id
  · refine Good.settled hs h hq (hs'.1.congr fun m => ?_)
    rw [hmem m]
    simp
  · have hcont : a.continuation = h' := by
      obtain ⟨b, n, hb, hrb⟩ := hl'.first
      cases ha.symm.trans hb
      exact hrb.continuation
    have hlead := hup'.leads_iff hroot'
    rw [← hcont] at hlead
    rw [← hlead]
    refine ⟨fun h => h a ha, fun h b hb => ?_⟩
    cases ha.symm.trans hb
    exact h

theorem Chains.destroy_sat (hr : Contract ready r) (hs : w.state.Sound) (h : w.Chains down)
    (hi : w.held i = true) : (w.perform ready junk r (.destroy i)).Sat Good := by
  obtain ⟨root, -, hl⟩ := h.suspended i hi
  change (r (.destroy i) w.state >>= _).Sat Good
  refine (hr.destroy hs hl).bind fun s' ⟨hs', _, hw⟩ => ?_
  have hgone : Function.update w.held i false i = true ↔ False := by simp
  refine ⟨hs', _, h.update hs i [] hw (fun m => ?_) (fun k hk => Function.update_of_ne hk _ _)
    (fun hk => (hgone.mp hk).elim) fun m => ?_⟩
  · simp [hi]
  · simp

end

theorem good_init : init.Good := by
  refine ⟨⟨fun i => rfl, fun i hi => (hi rfl).elim⟩, fun _ => [], ?_, ?_⟩
  · exact fun i hi => (Bool.false_ne_true hi).elim
  · exact fun m hm => (hm rfl).elim

/-- An object is destroyed as often as it was constructed once its frame is gone,
and the storage is released once. What is allowed is no fault, as long as coroutines that
end are awaited, and otherwise it does not end. -/
structure Safe (ready : ℕ → Ready) (junk : ℕ → ℤ) (w : Session) : Prop where
  balanced : Balanced w.state.log
  pairs : ∀ i, w.state.frames i = none → ∀ o,
    w.state.log.count (.construct i o) = w.state.log.count (.destroy i o)
  released : ∀ i, w.state.log.count (.release i) =
    if i < w.state.allocs ∧ w.state.frames i = none then 1 else 0
  gone : (∀ i, w.held i = false) → ∀ i, w.state.frames i = none
  meets : ∀ a, w.Allowed a → w.Continued ready a → ∀ n, w.act ready junk n a ≠ .fault
  stuck : ∀ a, w.Allowed a → ¬ w.Continued ready a → ∀ n w', w.act ready junk n a ≠ .ok w'

theorem Good.act_exactly (junk : ℕ → ℤ) (hf : ∀ i, (ready i).final = false) (h : w.Good)
    {a : Act} (ha : w.Allowed a) (n : ℕ) :
    (w.act ready junk n a).Exactly (w.Continued ready a) Good := by
  obtain ⟨hs, down, h⟩ := h
  have hr : Contract ready (call (body ready junk) n) := contract hf n
  cases a with
  | call c x => exact h.call_exactly hr hs
  | await i => exact h.await_exactly hr hs ha
  | resume i => exact h.resume_exactly hr hs ha
  | destroy i => exact Outcome.exactly_true.mpr (h.destroy_sat hr hs ha)

theorem good_of_reached (hf : ∀ i, (ready i).final = false) (h : Reached ready junk w) :
    w.Good := by
  induction h with
  | init => exact good_init
  | @step w w' a n _ ha hw ih =>
      have hact := ih.act_exactly junk hf ha n
      rw [hw] at hact
      exact hact.2

theorem Good.safe (hf : ∀ i, (ready i).final = false) (h : w.Good) : w.Safe ready junk := by
  have hact := fun a (ha : w.Allowed a) n => h.act_exactly junk hf ha n
  obtain ⟨hs, down, hc⟩ := h
  constructor
  case balanced => exact fun i => ⟨_, hs.life i⟩
  case pairs =>
    intro i hi o
    rw [(counts_of_life (hs.life i)).2 o]
    unfold State.lifeOf
    rw [hi]
    by_cases hlt : i < w.state.allocs <;> simp [hlt, Life.live]
  case released =>
    intro i
    rw [(counts_of_life (hs.life i)).1]
    unfold State.lifeOf
    cases w.state.frames i with
    | none => by_cases hlt : i < w.state.allocs <;> simp [hlt]
    | some a => simp
  case gone =>
    intro hheld i
    by_contra hi
    obtain ⟨q, ⟨hq, -⟩, -⟩ := hc.unique i hi
    exact Bool.false_ne_true ((hheld q).symm.trans hq)
  case meets => exact fun a ha hcont n => ((hact a ha n).sat hcont).ne_fault
  case stuck =>
    intro a ha hcont n w' hw
    have hok := hact a ha n
    rw [hw] at hok
    exact hcont hok.1

section
variable {l : List Event} {value : ℤ → ℤ} {x v : ℤ} {h : Option Hdl} {b : Bool} {m n : ℕ}

end

/-- After a call, with the new frame and what happened after its construction. -/
def created (w : Session) (a : Frame) (ev : List Event) : Session where
  state := ({ w.state with allocs := w.state.allocs + 1 }.setFrame w.state.allocs a).notes
    ([Event.construct w.state.allocs .promise, .construct w.state.allocs .tmp1] ++ ev)
  held i := w.held i || some w.state.allocs = some i

end Session
end CsNotes.Coroutine
