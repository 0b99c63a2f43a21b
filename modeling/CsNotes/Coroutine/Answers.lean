import CsNotes.Coroutine.Chains

/-!
# Any answers of `await_ready`

The initial awaiter and that of a task may suspend or not, as they like; the
final awaiter suspends. Then a coroutine that comes to its end resumes its
continuation, which is null as long as nothing awaits it. For the calls inside an
activation the lemmas use a contract, which says what a call does to the chain of
its frame, and exactly when it is a fault, and they prove it of the activation
itself.
-/
namespace CsNotes.Coroutine
open Interleaving Calls

namespace Coro

/-- Whether a coroutine that has suspended once comes to its end when it is resumed. -/
def returnsAgain : Coro → Bool
  | leaf k _ => k ≤ 1
  | g _ => true

/-- Whether a coroutine that is entered in frame `i` comes to its end before it waits
for an event, where `n` is the next frame. -/
def returns (ready : ℕ → Ready) : Coro → ℕ → ℕ → Bool
  | leaf k _, _, _ => k = 0
  | g f, i, n =>
      (ready i).task || if (ready n).initial then f.returnsAgain else returns ready f n (n + 1)

/-- Whether on the way some coroutine comes to its end in the call that makes it, so
that nothing awaits it yet. -/
def orphans (ready : ℕ → Ready) : Coro → ℕ → ℕ → Bool
  | leaf _ _, _, _ => false
  | g f, i, n =>
      if (ready n).initial then orphans ready f n (n + 1) || f.returns ready n (n + 1)
      else !(ready i).task && orphans ready f n (n + 1)

end Coro

namespace Frame

/-- Likewise for a frame that is resumed. -/
def returns (ready : ℕ → Ready) (a : Frame) (i n : ℕ) : Bool :=
  if a.suspendPoint = 0 then a.code.returns ready i n
  else match a.code with
    | .leaf .. => a.waits == 0
    | .g _ => true

def orphans (ready : ℕ → Ready) (a : Frame) (i n : ℕ) : Bool :=
  a.suspendPoint = 0 && a.code.orphans ready i n

/-- Suspended for the first time since it was entered. -/
def Stopped (c : Coro) (a : Frame) : Prop :=
  a.code = c ∧ a.suspendPoint = 1 ∧ a.resume = true ∧ a.waits = c.suspensions - 1

/-- Past its initial suspend point. -/
def entered (c : Coro) (x v : ℤ) (h : Option Hdl) : Frame :=
  { fresh c x v h with suspended := false }

end Frame

/-- From continuation to continuation it goes to a caller that is suspended. -/
inductive State.Leads (s : State) : Option Hdl → Prop
  | caller {i : ℕ} : s.callers i = true → s.Leads (some (.caller i))
  | frame {i : ℕ} {a : Frame} : s.frames i = some a → s.Leads a.continuation →
      s.Leads (some (.frame i))

/-- The outermost frame `q` continues with nothing, or with a caller that waits for it. -/
def Root (s : State) (q : ℕ) (root : Option Hdl) : Prop :=
  root = none ∨ root = some (.caller q) ∧ s.callers q = true

/-- Likewise, until it is done. -/
def Outermost (s : State) (q : ℕ) (root : Option Hdl) : Prop :=
  root = none ∨ root = some (.caller q) ∧
    (s.callers q = true ∨ ∃ a, s.frames q = some a ∧ a.resume = false)

/-- What there is of the frames `K` and of new ones is a chain from `q` on. -/
def Settled (root : Option Hdl) (q : ℕ) (K : ℕ → Prop) (s s' : State) : Prop :=
  s'.Sound ∧ Outermost s' q root ∧ ∃ l, Suspended s' root q l ∧ Within K (· ∈ q :: l) s s'

/-- The frames above are not resumed if the one at work does not return. -/
def Stays (returns : Bool) (up : List ℕ) (s s' : State) : Prop :=
  returns = false → ∀ m, m ∈ up → s'.frames m = s.frames m

/-- What calls are known to do. -/
structure Contract (ready : ℕ → Ready) (r : Meaning Call State) : Prop where
  null : ∀ s, (r (.resume none) s).Exactly False fun _ => False
  caller : ∀ {s m a}, s.Sound → s.frames m = some a → .promise ∈ a.live → s.callers m = true →
    (r (.resume (some (.caller m))) s).Sat fun s' =>
      s'.Sound ∧ s'.frames = s.frames ∧ s'.allocs = s.allocs ∧
        ∀ i, i ≠ m → s'.callers i = s.callers i
  run : ∀ {s i c x v}, s.Sound → s.frames i = some (.entered c x v none) →
    (r (.run i) s).Exactly
      (c.orphans ready i s.allocs = false ∧ c.returns ready i s.allocs = false)
      fun s' => Settled none i (· = i) s s' ∧ ∃ a, s'.frames i = some a ∧ a.Stopped c
  resume : ∀ {s root up h k l a}, s.Sound → Awaited s root up h k → Suspended s h k l →
    s.frames k = some a → a.resume = true → Root s (top k up) root →
    (r (.resume (some (.frame k))) s).Exactly
      (a.orphans ready k s.allocs = false ∧ (a.returns ready k s.allocs = true → root ≠ none))
      fun s' => Settled root (top k up) (fun m => m ∈ up ∨ m ∈ k :: l) s s' ∧
        Stays (a.returns ready k s.allocs) up s s'
  destroy : ∀ {s h i l}, s.Sound → Suspended s h i l → (r (.destroy i) s).Sat fun s' =>
    s'.Sound ∧ s'.callers = s.callers ∧ Within (· ∈ i :: l) (fun _ => False) s s'

variable {ready : ℕ → Ready} {junk : ℕ → ℤ} {r : Meaning Call State}
variable {s s' : State} {root h : Option Hdl} {i j k m q : ℕ} {up l : List ℕ} {a b : Frame}
variable {c f : Coro} {x v : ℤ} {K K' : ℕ → Prop}

theorem Root.congr (h : Root s q root) (hc : s'.callers q = s.callers q) : Root s' q root :=
  h.imp_right fun ⟨hroot, hq⟩ => ⟨hroot, hc.trans hq⟩

theorem Root.outermost (h : Root s q root) : Outermost s q root :=
  h.imp_right fun ⟨hroot, hq⟩ => ⟨hroot, .inl hq⟩

theorem Outermost.congr (h : Outermost s q root) (hf : s'.frames q = s.frames q)
    (hc : s'.callers q = s.callers q) : Outermost s' q root := by
  unfold Outermost
  rw [hf, hc]
  exact h

/-- As long as a frame of the chain can go on, the first one is not done. -/
theorem Outermost.awaited (hroot : Outermost s q root) (hl : Suspended s root q l) (hk : k ∈ q :: l)
    (ha : s.frames k = some a) (hres : a.resume = true) : Root s q root := by
  refine hroot.imp_right fun ⟨hq, hcaller⟩ => ⟨hq, hcaller.resolve_right fun ⟨b, hb, hdone⟩ => ?_⟩
  cases l with
  | nil =>
      cases List.mem_singleton.mp hk
      cases ha.symm.trans hb
      exact Bool.false_ne_true (hdone.symm.trans hres)
  | cons j l =>
      obtain ⟨-, ⟨b', hb', hrb⟩, -⟩ := hl
      cases hb.symm.trans hb'
      cases hrb
      exact Bool.false_ne_true hdone.symm

theorem Awaited.top_le (hup : Awaited s root up h k) : top k up ≤ k := by
  induction up generalizing h k with
  | nil => exact Nat.le_refl k
  | cons p up ih =>
      obtain ⟨-, hpk, h', -, hrest⟩ := hup
      exact Nat.le_trans (ih hrest) (Nat.le_of_lt hpk)

theorem Rests.continuation {n : Option ℕ} (ha : Rests h n a) : a.continuation = h := by
  cases ha with
  | done a v hc => exact hc
  | _ => rfl

theorem Awaited.leads_iff (hup : Awaited s root up h k) (hroot : Root s (top k up) root) :
    s.Leads h ↔ root ≠ none := by
  induction up generalizing h k with
  | nil =>
      cases hup
      rcases hroot with rfl | ⟨rfl, hcaller⟩
      · exact iff_of_false (fun h => nomatch h) (fun h => h rfl)
      · exact iff_of_true (.caller hcaller) (Option.some_ne_none _)
  | cons p up ih =>
      obtain ⟨rfl, -, h', ⟨b, hb, hrb⟩, hrest⟩ := hup
      rw [← ih hrest hroot, ← hrb.continuation]
      refine ⟨fun h => ?_, .frame hb⟩
      cases h with
      | frame hb' hlead =>
          cases hb.symm.trans hb'
          exact hlead

theorem Settled.within (hw : Within K K' s s') {s'' : State}
    (h : Settled root q K' s' s'') : Settled root q K s s'' := by
  obtain ⟨hs, hroot, l, hl, hw'⟩ := h
  exact ⟨hs, hroot, l, hl, hw.trans hw'⟩

theorem Settled.congr (h : Settled root q K s s') (hK : ∀ m, K' m ↔ K m) :
    Settled root q K' s s' := by
  obtain rfl : K' = K := funext fun m => propext (hK m)
  exact h

theorem Awaited.alive_or (hup : Awaited s root up h k) (hk : s.frames k ≠ none)
    (hm : m ∈ up ∨ m = k) : s.frames m ≠ none := by
  rcases hm with hm | rfl
  · exact hup.alive hm
  · exact hk

theorem within_of_frames (hs : s.Sound) (hf : s'.frames = s.frames) (hal : s'.allocs = s.allocs)
    (hc : ∀ m, ¬ K m → s'.callers m = s.callers m) (hK : ∀ m, K m → s.frames m ≠ none) :
    Within K K s s' := by
  refine ⟨Nat.le_of_eq hal.symm, fun m hm => ?_, fun m _ _ => congrFun hf m, fun m hm _ => hc m hm,
    fun m hm => .inl hm⟩
  rw [hf]
  refine ⟨fun hne => hm.resolve_right fun hle => ?_, hK m⟩
  exact Nat.not_lt.mpr hle (hs.bound m hne)

/-- The frame at work is suspended, and nothing else is to be done. -/
theorem settled_of_rests (hs : s'.Sound) (hroot : Outermost s' (top k up) root)
    (hup : Awaited s' root up h k) (hk : s'.frames k = some a) (ha : Rests h none a)
    (hw : Within K (fun m => m ∈ up ∨ m = k) s s') : Settled root (top k up) K s s' := by
  obtain ⟨l, hl, hmem⟩ := hup.join (l := []) ⟨a, hk, ha⟩
  refine ⟨hs, hroot, l, hl, hw.congr (fun _ => Iff.rfl) fun m => (hmem m).trans ?_⟩
  simp

theorem settled_of_becomes (hs : s.Sound) (hup : Awaited s root up h k)
    (hroot : Root s (top k up) root) (hk : s.frames k ≠ none) (hb : Becomes s k a s')
    (ha : Rests h none a) : Settled root (top k up) (fun m => m ∈ up ∨ m = k) s s' :=
  settled_of_rests (hb.sound hs) (hroot.congr (congrFun hb.callers _)).outermost
    (hup.congr fun m hm => hb.other m (Nat.ne_of_lt (hup.lt hm))) hb.frame ha
    (hb.within hs (.inr rfl) fun _ hm => hup.alive_or hk hm)

theorem destroyTmp2_sat {h' : Option Hdl} (hr : Contract ready r) (hs : s.Sound)
    (ha : s.frames k = some a) (ho : .tmp2 ∈ a.live) (hj : a.tmp2 = some j) (hkj : k < j)
    (hl : Suspended s h' j l) :
    (destroyTmp2 r k s).Sat fun s' => s'.Sound ∧ s'.callers = s.callers ∧
      s'.frames k = some { a with live := a.live.erase .tmp2 } ∧
      Within (fun m => m = k ∨ m ∈ j :: l) (· = k) s s' := by
  have hne : s.frames k ≠ none := by simp [ha]
  have hdown := hl.above hkj
  unfold destroyTmp2
  rw [State.get_of ha ho, Outcome.ok_bind]
  refine (State.destruct_sat ha ho).bind fun s₁ h₁ => ?_
  have hs₁ := h₁.sound hs
  have hl₁ : Suspended s₁ h' j l := hl.congr fun m hm => h₁.other m (Nat.ne_of_gt (hdown m hm))
  have hout : ∀ m, m = k → s₁.frames m ≠ none ∧ m ∉ j :: l := by
    rintro m rfl
    exact ⟨by simp [h₁.frame], fun hm => Nat.lt_irrefl m (hdown m hm)⟩
  have hdrop : dropTask r a.tmp2 s₁ = r (.destroy j) s₁ := by
    rw [hj]
    rfl
  rw [hdrop]
  refine (hr.destroy hs₁ hl₁).mono fun s₂ h₂ => ?_
  obtain ⟨hs₂, hc₂, hw₂⟩ := h₂
  refine ⟨hs₂, hc₂.trans h₁.callers, ?_, ?_⟩
  · rw [hw₂.outside k (hout k rfl).2 (hs₁.bound k (hout k rfl).1)]
    exact h₁.frame
  · have hw₁ : Within (fun m => m = k ∨ m ∈ j :: l) (fun m => m = k ∨ m ∈ j :: l) s s₁ :=
      h₁.within hs (.inl rfl) fun m hm => hm.elim (fun he => he ▸ hne) hl.alive
    exact hw₁.trans ((hw₂.add hs₁ hout).congr (fun _ => Iff.rfl) fun m => by simp)

/-- The awaited frame remembers its continuation and is resumed. -/
theorem execAwaitSuspend_of (ha : s.frames j = some a) (ho : .promise ∈ a.live) (k : Hdl) :
    execAwaitSuspend r (awaiterSuspend (some j) k) k s =
      r (.resume (some (.frame j))) (s.setFrame j { a with continuation := some k }) := by
  unfold execAwaitSuspend awaiterSuspend State.modify
  change ((State.get s j .promise >>= _) >>= _) = _
  rw [State.get_of ha ho, Outcome.ok_bind, State.frame_of ha]
  rfl

theorem alive_chain (hk : s.frames k ≠ none) (hup : Awaited s root up h k)
    {h' : Option Hdl} (hl : Suspended s h' j l) (hm : m ∈ up ∨ m = k ∨ m ∈ j :: l) :
    s.frames m ≠ none := by
  rcases hm with hm | rfl | hm
  · exact hup.alive hm
  · exact hk
  · exact hl.alive hm

/-- The end of a coroutine goes on with its continuation, if there is one. -/
theorem continue_exactly (hr : Contract ready r) (hs : s.Sound) (hup : Awaited s root up h k)
    (hk : s.frames k = some a) (hdone : a.resume = false) (ha : Rests h none a)
    (hroot : Root s (top k up) root) :
    (r (.resume h) s).Exactly (root ≠ none)
      (Settled root (top k up) (fun m => m ∈ up ∨ m = k) s) := by
  cases up with
  | nil =>
      cases hup
      rcases hroot with rfl | ⟨rfl, hcaller⟩
      · exact (hr.null s).mono (by simp) fun _ h => h.elim
      · refine (Outcome.exactly_true.mpr (hr.caller hs hk ha.promise hcaller)).mono (by simp) ?_
        intro s' ⟨hs', hframes, hallocs, hcallers⟩
        have hk' : s'.frames k = some a := (congrFun hframes k).trans hk
        refine settled_of_rests hs' (.inr ⟨rfl, .inr ⟨a, hk', hdone⟩⟩) rfl hk' ha ?_
        refine within_of_frames hs hframes hallocs (fun m hm => ?_) fun m hm => ?_
        · exact hcallers m fun hmk => hm (.inr hmk)
        · rw [hm.resolve_left List.not_mem_nil, hk]
          exact Option.some_ne_none a
  | cons p up =>
      obtain ⟨rfl, hpk, h', ⟨b, hb, hrb⟩, hrest⟩ := hup
      have hl : Suspended s h' p [k] := ⟨hpk, ⟨b, hb, hrb⟩, a, hk, ha⟩
      cases hrb with
      | waiting f x v =>
          refine (hr.resume hs hrest hl hb rfl hroot).mono ?_ fun s' h => ?_
          · simp [Frame.orphans, Frame.returns, Frame.waiting]
          · refine h.1.congr fun m => ?_
            simp only [List.mem_cons, List.not_mem_nil, or_false]
            tauto

section
variable (hf : ∀ i, (ready i).final = false)
include hf

theorem finalSuspend_exactly (hr : Contract ready r) (hs : s.Sound) (ha : s.frames k = some a)
    (hl : a.live = [.promise]) (hup : Awaited s root up a.continuation k)
    (hroot : Root s (top k up) root) :
    (finalSuspend ready r k s).Exactly (root ≠ none)
      (Settled root (top k up) (fun m => m ∈ up ∨ m = k) s) := by
  unfold finalSuspend
  refine (State.construct_sat ha (by rw [hl]; rfl) fun _ => rfl).exactly fun s₁ h₁ => ?_
  rw [if_neg (by simp [hf k])]
  refine (State.suspend_sat 2 h₁.frame).exactly fun s₂ h₂ => ?_
  refine (State.modify_sat h₂.frame rfl).exactly fun s₃ h₃ => ?_
  have hb : Becomes s k (a.finish a.result) s₃ := by
    have hb := (h₁.trans h₂).trans h₃
    rw [hl] at hb
    exact hb
  have hup' : Awaited s₃ root up a.continuation k :=
    hup.congr fun m hm => hb.other m (Nat.ne_of_lt (hup.lt hm))
  unfold execAwaitSuspend finalSuspendHdl
  rw [State.get_of hb.frame (by simp [Frame.finish]), Outcome.ok_bind, Outcome.ok_bind]
  refine (continue_exactly hr (hb.sound hs) hup' hb.frame rfl (.done a a.result rfl)
    (hroot.congr (congrFun hb.callers _))).mono Iff.rfl fun s' h => ?_
  exact h.within (hb.within hs (.inr rfl) fun m hm => hup.alive_or (by simp [ha]) hm)

theorem leafBody_exactly {n w : ℕ} {value : ℤ → ℤ} (hr : Contract ready r) (hs : s.Sound)
    (ha : s.frames k = some { Frame.blocked (.leaf n value) x v w h with
      suspendPoint := m
      suspended := false })
    (hup : Awaited s root up h k) (hroot : Root s (top k up) root) :
    (leafBody ready r value k s).Exactly (w = 0 → root ≠ none) fun s' =>
      Settled root (top k up) (fun m => m ∈ up ∨ m = k) s s' ∧ Stays (decide (w = 0)) up s s' ∧
        (w ≠ 0 → s'.frames k = some (.blocked (.leaf n value) x v (w - 1) h)) := by
  have hne : s.frames k ≠ none := by simp [ha]
  unfold leafBody
  rw [State.frame_of ha, Outcome.ok_bind]
  cases w with
  | zero =>
      change (returnValue k _ s >>= _).Exactly _ _
      unfold returnValue
      rw [State.get_of ha (by simp [Frame.blocked]), Outcome.ok_bind]
      refine (State.modify_sat ha rfl).exactly fun s₁ h₁ => ?_
      have hup' : Awaited s₁ root up h k :=
        hup.congr fun m hm => h₁.other m (Nat.ne_of_lt (hup.lt hm))
      refine (finalSuspend_exactly hf hr (h₁.sound hs) h₁.frame rfl hup'
        (hroot.congr (congrFun h₁.callers _))).mono (by simp) fun s' h => ⟨?_, ?_, ?_⟩
      · exact h.within (h₁.within hs (.inr rfl) fun m hm => hup.alive_or hne hm)
      · exact fun hw => (of_decide_eq_false hw rfl).elim
      · exact fun hw => (hw rfl).elim
  | succ w =>
      refine (State.modify_sat ha rfl).exactly fun s₁ h₁ => ?_
      refine (Outcome.exactly_true.mpr (State.suspend_sat 1 h₁.frame)).mono (by simp) ?_
      intro s₂ h₂
      have hb := h₁.trans h₂
      exact ⟨settled_of_becomes hs hup hroot hne hb (.blocked n value x v w),
        fun _ m hm => hb.other m (Nat.ne_of_lt (hup.lt hm)), fun _ => hb.frame⟩

/-- `g` goes on above a frame that is suspended, and is done. -/
theorem gReturn_exactly {p : ℕ} {h' : Option Hdl} (hr : Contract ready r) (hs : s.Sound)
    (ha : s.frames k = some { Frame.waiting f x v j h with
      suspendPoint := p
      suspended := false })
    (hup : Awaited s root up h k) (hroot : Root s (top k up) root) (hkj : k < j)
    (hl : Suspended s h' j l) :
    (gReturn ready r k s).Exactly (root ≠ none)
      (Settled root (top k up) (fun m => m ∈ up ∨ m ∈ k :: j :: l) s) := by
  have hne : s.frames k ≠ none := by simp [ha]
  obtain ⟨b, n, hb, hrb⟩ := hl.first
  have hdown : ∀ m, m ∈ j :: l → k < m := hl.above hkj
  unfold gReturn awaiterResume
  rw [State.get_of ha (by simp [Frame.waiting]), Outcome.ok_bind]
  change (State.get s j .promise >>= _ >>= _).Exactly _ _
  rw [State.get_of hb hrb.promise, Outcome.ok_bind, Outcome.ok_bind]
  have h₀ := becomes_note (e := .read (.frame k) j) ha rfl
  refine (State.destruct_sat h₀.frame (by simp [Frame.waiting])).exactly fun s₁ h₁ => ?_
  have hb₁ := h₀.trans h₁
  have hl₁ : Suspended s₁ h' j l :=
    hl.congr fun m hm => hb₁.other m (Nat.ne_of_gt (hdown m hm))
  have hpair : ∀ m, m = k ∨ m ∈ j :: l → s.frames m ≠ none := by
    intro m hm
    exact hm.elim (fun he => he ▸ hne) hl.alive
  refine (destroyTmp2_sat hr (hb₁.sound hs) hb₁.frame (by simp [Frame.waiting]) rfl hkj
    hl₁).exactly fun s₂ h₂ => ?_
  obtain ⟨hs₂, hc₂, ha₂, hw₂⟩ := h₂
  have hw := (hb₁.within hs (K := fun m => m = k ∨ m ∈ j :: l) (.inl rfl) hpair).trans hw₂
  unfold returnValue
  rw [State.get_of ha₂ (by simp [Frame.waiting]), Outcome.ok_bind]
  refine (State.modify_sat ha₂ rfl).exactly fun s₃ h₃ => ?_
  have hout : ∀ m, m ∈ up → s.frames m ≠ none ∧ ¬ (m = k ∨ m ∈ j :: l) := by
    intro m hm
    refine ⟨hup.alive hm, fun h => ?_⟩
    have hmk := hup.lt hm
    rcases h with rfl | h
    · exact Nat.lt_irrefl _ hmk
    · exact Nat.lt_asymm hmk (hdown m h)
  have hup₃ : Awaited s₃ root up h k := by
    refine hup.congr fun m hm => ?_
    rw [h₃.other m (Nat.ne_of_lt (hup.lt hm))]
    exact hw.outside m (hout m hm).2 (hs.bound m (hout m hm).1)
  have hw₃ : Within (· = k) (· = k) s₂ s₃ :=
    h₃.within hs₂ rfl fun m hm => by simp [hm, ha₂]
  have hcallers : s₃.callers = s.callers := h₃.callers.trans (hc₂.trans hb₁.callers)
  refine (finalSuspend_exactly hf hr (h₃.sound hs₂) h₃.frame rfl hup₃
    (hroot.congr (congrFun hcallers _))).mono Iff.rfl fun s' h => ?_
  refine (h.within ((hw.trans hw₃).add hs hout)).congr fun m => ?_
  simp only [List.mem_cons]

end

/-- The frame of a coroutine as its initial awaiter has left it. -/
def Begun (ready : ℕ → Ready) (c : Coro) (k n : ℕ) (s : State) : Prop :=
  ∃ b, s.frames k = some b ∧ b.resume = true ∧
    b.orphans ready k s.allocs = (!(ready k).initial && c.orphans ready k n) ∧
    b.returns ready k s.allocs =
      if (ready k).initial then c.returnsAgain else c.returns ready k n

theorem Frame.Stopped.begun {n : ℕ} (ha : a.Stopped c) (hk : s.frames k = some a)
    (hinit : (ready k).initial = true) : Begun ready c k n s := by
  obtain ⟨hcode, hpoint, hresume, hwaits⟩ := ha
  refine ⟨a, hk, hresume, ?_, ?_⟩
  · simp [Frame.orphans, hpoint, hinit]
  · cases c with
    | leaf w value =>
        simp only [Frame.returns, hpoint, hinit, hcode, hwaits, Coro.returnsAgain,
          Coro.suspensions, if_true, Nat.one_ne_zero, if_false]
        exact Bool.eq_iff_iff.mpr (by simp [Nat.sub_eq_zero_iff_le])
    | g f => simp [Frame.returns, hpoint, hinit, hcode, Coro.returnsAgain]

/-- What has to hold for the initial awaiter to lead to no fault. -/
abbrev Starts (ready : ℕ → Ready) (c : Coro) (k n : ℕ) : Prop :=
  (ready k).initial = true → c.orphans ready k n = false ∧ c.returns ready k n = false

theorem initialAwait_exactly (hr : Contract ready r) (hs : s.Sound)
    (ha : s.frames k = some (.entered c x v none)) :
    (initialAwait ready r k s).Exactly (Starts ready c k s.allocs) fun s' =>
      Settled none k (· = k) s s' ∧ Begun ready c k s.allocs s' := by
  unfold initialAwait
  by_cases hinit : (ready k).initial = true
  · rw [if_pos hinit]
    refine (hr.run hs ha).mono (by simp [Starts, hinit]) fun s' ⟨hs', b, hb, hstop⟩ => ?_
    exact ⟨hs', hstop.begun hb hinit⟩
  · rw [if_neg hinit]
    refine (State.modify_sat ha rfl).exactly fun s₁ h₁ => ?_
    have hup : Awaited s none [] none k := rfl
    refine ⟨fun h => (hinit h).elim, ?_, ?_⟩
    · refine (settled_of_becomes hs hup (.inl rfl) (by simp [ha]) h₁ (.fresh c x v)).congr
        fun m => ?_
      simp
    · refine ⟨_, h₁.frame, rfl, ?_, ?_⟩
      · simp [Frame.orphans, Frame.entered, Frame.fresh, hinit, h₁.allocs]
      · simp [Frame.returns, Frame.entered, Frame.fresh, hinit, h₁.allocs]

/-- A call of a coroutine leads to a new frame that is suspended. -/
theorem ramp_exactly (junk : ℕ → ℤ) (hr : Contract ready r) (hs : s.Sound) :
    (ramp ready junk r c x s).Exactly (Starts ready c s.allocs (s.allocs + 1)) fun p =>
      p.2 = some s.allocs ∧ Settled none s.allocs (fun _ => False) s p.1 ∧
        Begun ready c s.allocs (s.allocs + 1) p.1 := by
  let a : Frame := { code := c, x := x, waits := c.suspensions, result := junk s.allocs }
  let t : State := { s with allocs := s.allocs + 1 }.setFrame s.allocs a
  let a₁ : Frame := { a with live := [.promise] }
  let s₁ : State := (t.setFrame s.allocs a₁).note (.construct s.allocs .promise)
  have ht : t.frames s.allocs = some a := Function.update_self _ _ _
  have hself : s₁.frames s.allocs = some a₁ := Function.update_self _ _ _
  have hother : ∀ k, k ≠ s.allocs → s₁.frames k = s.frames k := fun k hk =>
    (Function.update_of_ne hk _ _).trans (Function.update_of_ne hk _ _)
  have hcon : t.construct s.allocs .promise = .ok s₁ := by
    unfold State.construct
    rw [State.frame_of ht, Outcome.ok_bind]
    rfl
  have hs₁ : s₁.Sound := hs.create hself rfl rfl hother rfl
  have hw₁ : Within (fun _ => False) (· = s.allocs) s s₁ := by
    refine ⟨Nat.le_succ _, fun m hm => ?_, fun m _ hlt => hother m (Nat.ne_of_lt hlt),
      fun _ _ _ => rfl, fun m hm => .inr (Nat.le_of_eq hm.symm)⟩
    by_cases hmi : m = s.allocs
    · subst hmi
      simp [hself]
    · rw [hother m hmi]
      refine iff_of_false (fun hne => ?_) hmi
      exact Nat.not_lt.mpr (hm.resolve_left id) (hs.bound m hne)
  unfold ramp
  change (t.construct s.allocs .promise >>= _).Exactly _ _
  rw [hcon, Outcome.ok_bind]
  refine (State.construct_sat hself rfl fun _ => rfl).exactly fun s₂ h₂ => ?_
  have hw₂ : Within (· = s.allocs) (· = s.allocs) s₁ s₂ :=
    h₂.within hs₁ rfl fun m hm => by simp [hm, hself]
  have hn : s₂.allocs = s.allocs + 1 := h₂.allocs
  have hinit := initialAwait_exactly hr (h₂.sound hs₁) h₂.frame
  rw [hn] at hinit
  refine (hinit.bind fun s₃ h₃ => ?_).mono (and_iff_left trivial).symm fun _ => id
  exact ⟨trivial, rfl, (h₃.1.within hw₂).within hw₁, h₃.2⟩

theorem awaitTask_exactly {p : ℕ} {h' : Option Hdl} (hr : Contract ready r) (hs : s.Sound)
    (ha : s.frames k = some { Frame.waiting f x v j h with
      suspendPoint := p
      suspended := false })
    (hup : Awaited s root up h k) (hroot : Root s (top k up) root) (hkj : k < j)
    (hl : Suspended s h' j l) (hb : s.frames j = some b) (hres : b.resume = true) :
    (do
      let s ← s.suspend k 1
      let a ← s.get k .tmp3
      execAwaitSuspend r (awaiterSuspend a.tmp3 (.frame k)) (.frame k) s).Exactly
      (b.orphans ready j s.allocs = false ∧ (b.returns ready j s.allocs = true → root ≠ none))
      fun s' => Settled root (top k up) (fun m => m ∈ up ∨ m ∈ k :: j :: l) s s' ∧
        Stays (b.returns ready j s.allocs) up s s' ∧
        (b.returns ready j s.allocs = false → s'.frames k = some (Frame.waiting f x v j h)) := by
  have hdown := hl.above hkj
  refine (State.suspend_sat 1 ha).exactly fun s₁ h₁ => ?_
  rw [State.get_of h₁.frame (by simp [Frame.waiting]), Outcome.ok_bind]
  have hs₁ := h₁.sound hs
  have hl₁ : Suspended s₁ h' j l := hl.congr fun m hm => h₁.other m (Nat.ne_of_gt (hdown m hm))
  have hup₁ : Awaited s₁ root up h k :=
    hup.congr fun m hm => h₁.other m (Nat.ne_of_lt (hup.lt hm))
  have hb₁ : s₁.frames j = some b := (h₁.other j (Nat.ne_of_gt hkj)).trans hb
  have hpromise : .promise ∈ b.live := by
    obtain ⟨b', n, hb', hrb⟩ := hl.first
    cases hb.symm.trans hb'
    exact hrb.promise
  change (execAwaitSuspend r (awaiterSuspend (some j) _) _ s₁).Exactly _ _
  rw [execAwaitSuspend_of hb₁ hpromise]
  have h₂ : Becomes s₁ j { b with continuation := some (.frame k) } _ := becomes_setFrame hb₁ rfl
  have hk₂ := (h₂.other k (Nat.ne_of_lt hkj)).trans h₁.frame
  have hup₂ : Awaited (s₁.setFrame j { b with continuation := some (.frame k) }) root (k :: up)
      (some (.frame k)) j := by
    refine ⟨rfl, hkj, h, ⟨_, hk₂, .waiting f x v j⟩, hup₁.congr fun m hm => h₂.other m ?_⟩
    exact Nat.ne_of_lt (Nat.lt_trans (hup.lt hm) hkj)
  have hw₁ : Within (fun m => m ∈ up ∨ m ∈ k :: j :: l) (fun m => m ∈ up ∨ m ∈ k :: j :: l) s s₁ :=
    h₁.within hs (.inr List.mem_cons_self) fun m hm =>
      alive_chain (by simp [ha]) hup hl (by simpa using hm)
  have hw₂ := h₂.within hs₁ (K := fun m => m ∈ up ∨ m ∈ k :: j :: l) (.inr (by simp)) fun m hm =>
    alive_chain (by simp [h₁.frame]) hup₁ hl₁ (by simpa using hm)
  have hallocs := h₂.allocs.trans h₁.allocs
  have hcallers := h₂.callers.trans h₁.callers
  have hresume := hr.resume (h₂.sound hs₁) hup₂ (hl₁.redirect hb₁ _ h₂) h₂.frame hres
    (hroot.congr (congrFun hcallers _))
  rw [hallocs] at hresume
  refine hresume.mono Iff.rfl ?_
  rintro s' ⟨hset, hstays⟩
  refine ⟨?_, fun hret m hm => ?_, fun hret => ?_⟩
  · refine ((hset.congr fun m => ?_).within hw₂).within hw₁
    simp only [List.mem_cons]
    tauto
  · have hmk := hup.lt hm
    rw [hstays hret m (List.mem_cons_of_mem k hm), h₂.other m (Nat.ne_of_lt (Nat.lt_trans hmk hkj)),
      h₁.other m (Nat.ne_of_lt hmk)]
  · exact (hstays hret k List.mem_cons_self).trans hk₂

/-- A frame that has called a coroutine is between those above it and the new ones. -/
theorem around {s₁ s₂ s₄ : State} {a₁ a₄ : Frame} (hs : s.Sound) (ha : s.frames k = some a)
    (hup : Awaited s root up h k) (hroot : Root s (top k up) root) (h₁ : Becomes s k a₁ s₁)
    (hj : s₁.allocs = j) (hl : Suspended s₂ none j l)
    (hw₂ : Within (fun _ => False) (· ∈ j :: l) s₁ s₂) (hs₂ : s₂.Sound)
    (h₄ : Becomes s₂ k a₄ s₄) :
    Awaited s₄ root up h k ∧ Root s₄ (top k up) root ∧ Suspended s₄ none j l ∧
      Within (fun m => m ∈ up ∨ m = k) (fun m => m ∈ up ∨ m ∈ k :: j :: l) s s₄ ∧
      ∀ m, m < k → s₄.frames m = s.frames m := by
  have hs₁ := h₁.sound hs
  have hlt : k < j := hj ▸ hs₁.bound k (by simp [h₁.frame])
  have hold : ∀ m, m ≤ k → s₂.frames m = s₁.frames m ∧ s₂.callers m = s₁.callers m := by
    intro m hm
    have hmj : m < s₁.allocs := hj ▸ Nat.lt_of_le_of_lt hm hlt
    exact ⟨hw₂.outside m id hmj, hw₂.callers m id hmj⟩
  have ha₁ : s₁.frames k ≠ none := by
    rw [h₁.frame]
    exact Option.some_ne_none _
  have hpair : ∀ m, m = k ∨ m ∈ j :: l → s₂.frames m ≠ none := by
    rintro m (rfl | hm)
    · rw [(hold m (Nat.le_refl m)).1]
      exact ha₁
    · exact hl.alive hm
  have hw₁ : Within (· = k) (· = k) s s₁ := by
    refine h₁.within hs rfl ?_
    rintro m rfl
    simp [ha]
  have hw₁₂ : Within (· = k) (fun m => m = k ∨ m ∈ j :: l) s₁ s₂ := by
    refine (hw₂.add hs₁ (E := (· = k)) fun m hm => ⟨?_, id⟩).congr (fun m => by simp)
      fun m => Iff.rfl
    rw [hm]
    exact ha₁
  have hw₄ : Within (· = k) (fun m => m = k ∨ m ∈ j :: l) s s₄ :=
    (hw₁.trans hw₁₂).trans (h₄.within hs₂ (.inl rfl) hpair)
  have hbelow : ∀ m, m < k → s₄.frames m = s.frames m := fun m hm =>
    (h₄.other m (Nat.ne_of_lt hm)).trans
      ((hold m (Nat.le_of_lt hm)).1.trans (h₁.other m (Nat.ne_of_lt hm)))
  refine ⟨hup.congr fun m hm => hbelow m (hup.lt hm), hroot.congr ?_, hl.congr fun m hm => ?_,
    ?_, hbelow⟩
  · exact (congrFun h₄.callers _).trans ((hold _ hup.top_le).2.trans (congrFun h₁.callers _))
  · exact h₄.other m (Nat.ne_of_gt (hl.above hlt m hm))
  · refine (hw₄.add hs fun m hm => ⟨hup.alive hm, Nat.ne_of_lt (hup.lt hm)⟩).congr
      (fun m => Iff.rfl) fun m => ?_
    simp only [List.mem_cons]

section
variable (hf : ∀ i, (ready i).final = false)
include hf

theorem gStart_exactly (hr : Contract ready r) (hs : s.Sound)
    (ha : s.frames k = some (.entered (.g f) x v h)) (hup : Awaited s root up h k)
    (hroot : Root s (top k up) root) :
    (gResume ready junk r f k s).Exactly
      ((Coro.g f).orphans ready k s.allocs = false ∧
        ((Coro.g f).returns ready k s.allocs = true → root ≠ none))
      fun s' => Settled root (top k up) (fun m => m ∈ up ∨ m = k) s s' ∧
        Stays ((Coro.g f).returns ready k s.allocs) up s s' ∧
        ((Coro.g f).returns ready k s.allocs = false →
          ∃ a, s'.frames k = some a ∧ a.Stopped (.g f)) := by
  unfold gResume
  rw [State.frame_of ha, Outcome.ok_bind]
  change (s.destruct k .tmp1 >>= _).Exactly _ _
  refine (State.destruct_sat ha (by simp [Frame.entered, Frame.fresh])).exactly fun s₁ h₁ => ?_
  have hs₁ := h₁.sound hs
  have hlt : k < s₁.allocs := hs₁.bound k (by simp [h₁.frame])
  have hramp := ramp_exactly junk (c := f) (x := x) hr hs₁
  generalize hj : s₁.allocs = j at hramp hlt
  have hn : s.allocs = j := h₁.allocs.symm.trans hj
  rw [hn]
  refine (hramp.bind (d := if (ready k).task then root ≠ none
    else (!(ready j).initial && f.orphans ready j (j + 1)) = false ∧
      ((if (ready j).initial then f.returnsAgain else f.returns ready j (j + 1)) = true →
        root ≠ none)) fun y hy => ?_).mono ?_ fun _ => id
  · obtain ⟨s₂, t⟩ := y
    obtain ⟨ht, ⟨hs₂, -, l, hl, hw₂⟩, b, hb₂, hres, horphans, hreturns⟩ := hy
    cases ht
    change s₂.Sound at hs₂
    change Suspended s₂ none j l at hl
    change Within _ _ s₁ s₂ at hw₂
    change s₂.frames j = some b at hb₂
    have ha₂ : s₂.frames k = _ :=
      (hw₂.outside k id (Nat.lt_of_lt_of_eq hlt hj.symm)).trans h₁.frame
    change (s₂.construct k .tmp2 _ >>= _).Exactly _ _
    refine Outcome.Sat.exactly (State.construct_sat ha₂ rfl fun _ => rfl) fun s₃ h₃ => ?_
    rw [State.get_of h₃.frame (by simp), Outcome.ok_bind]
    refine Outcome.Sat.exactly (State.construct_sat h₃.frame rfl fun _ => rfl) fun s₄ h₄ => ?_
    have hb₄ := h₃.trans h₄
    obtain ⟨hup₄, hroot₄, hl₄, hall, hbelow⟩ := around hs ha hup hroot h₁ hj hl hw₂ hs₂ hb₄
    by_cases hready : (ready k).task = true
    · rw [if_pos hready, if_pos hready]
      refine (gReturn_exactly hf hr (hb₄.sound hs₂) hb₄.frame hup₄ hroot₄ hlt hl₄).mono Iff.rfl
        fun s' h => ⟨h.within hall, ?_, ?_⟩
      · exact fun hret => by simp [Coro.returns, hready] at hret
      · exact fun hret => by simp [Coro.returns, hready] at hret
    · rw [if_neg hready, if_neg hready]
      have hb : s₄.frames j = some b := (hb₄.other j (Nat.ne_of_gt hlt)).trans hb₂
      have hret : (Coro.g f).returns ready k j = b.returns ready j s₄.allocs := by
        rw [hb₄.allocs, hreturns]
        simp [Coro.returns, hready]
      have htask := awaitTask_exactly hr (hb₄.sound hs₂) hb₄.frame hup₄ hroot₄ hlt hl₄ hb hres
      rw [hret, ← horphans, ← hreturns, ← hb₄.allocs]
      refine htask.mono Iff.rfl ?_
      rintro s' ⟨hset, hstays, hk⟩
      refine ⟨hset.within hall, ?_, ?_⟩
      · exact fun h m hm => (hstays h m hm).trans (hbelow m (hup.lt hm))
      · exact fun h => ⟨_, hk h, rfl, rfl, rfl, rfl⟩
  · cases hinit : (ready j).initial <;> cases htask : (ready k).task <;>
      simp [Starts, Coro.orphans, Coro.returns, hinit, htask, and_assoc]

/-- A frame past its initial suspend point executes its body. -/
theorem enter_exactly (junk : ℕ → ℤ) (hr : Contract ready r) (hs : s.Sound)
    (ha : s.frames k = some (.entered c x v h)) (hup : Awaited s root up h k)
    (hroot : Root s (top k up) root) :
    (match c with
      | .leaf _ value => leafResume ready r value k s
      | .g f => gResume ready junk r f k s).Exactly
      (c.orphans ready k s.allocs = false ∧ (c.returns ready k s.allocs = true → root ≠ none))
      fun s' => Settled root (top k up) (fun m => m ∈ up ∨ m = k) s s' ∧
        Stays (c.returns ready k s.allocs) up s s' ∧
        (c.returns ready k s.allocs = false → ∃ a, s'.frames k = some a ∧ a.Stopped c) := by
  cases c with
  | g f => exact gStart_exactly hf hr hs ha hup hroot
  | leaf n value =>
      have hne : s.frames k ≠ none := by simp [ha]
      change (leafResume ready r value k s).Exactly _ _
      unfold leafResume
      rw [State.frame_of ha, Outcome.ok_bind]
      change (s.destruct k .tmp1 >>= _).Exactly _ _
      refine (State.destruct_sat ha (by simp [Frame.entered, Frame.fresh])).exactly
        fun s₁ h₁ => ?_
      have hup₁ : Awaited s₁ root up h k :=
        hup.congr fun m hm => h₁.other m (Nat.ne_of_lt (hup.lt hm))
      refine (leafBody_exactly hf hr (h₁.sound hs) h₁.frame hup₁
        (hroot.congr (congrFun h₁.callers _))).mono ?_ ?_
      · simp [Coro.orphans, Coro.returns, Frame.fresh, Coro.suspensions]
      · rintro s' ⟨hset, hstays, hk⟩
        refine ⟨?_, ?_, ?_⟩
        · exact hset.within (h₁.within hs (.inr rfl) fun m hm => hup.alive_or hne hm)
        · exact fun h m hm => (hstays h m hm).trans (h₁.other m (Nat.ne_of_lt (hup.lt hm)))
        · exact fun h => ⟨_, hk (of_decide_eq_false h), rfl, rfl, rfl, rfl⟩

/-- What `resume()` does to a frame that is suspended and not done. -/
theorem resume_exactly (hr : Contract ready r) (hs : s.Sound) (hup : Awaited s root up h k)
    (hl : Suspended s h k l) (ha : s.frames k = some a) (hres : a.resume = true)
    (hroot : Root s (top k up) root) :
    (body ready junk r (.resume (some (.frame k))) s).Exactly
      (a.orphans ready k s.allocs = false ∧ (a.returns ready k s.allocs = true → root ≠ none))
      fun s' => Settled root (top k up) (fun m => m ∈ up ∨ m ∈ k :: l) s s' ∧
        Stays (a.returns ready k s.allocs) up s s' := by
  have hne : s.frames k ≠ none := by simp [ha]
  have hsusp : a.suspended = true := by
    obtain ⟨b, n, hb, hrb⟩ := hl.first
    cases ha.symm.trans hb
    cases hrb <;> rfl
  have h₀ : Becomes s k a (s.note (.resume (.frame k))) := becomes_note ha rfl
  unfold body runFrame
  change (s.frame k >>= _).Exactly _ _
  rw [State.frame_of ha, Outcome.ok_bind, if_pos hsusp, State.frame_of h₀.frame, Outcome.ok_bind,
    if_pos hres]
  refine (State.modify_sat h₀.frame rfl).exactly fun s₁ h₁ => ?_
  have hb := h₀.trans h₁
  have hs₁ := hb.sound hs
  have hup₁ : Awaited s₁ root up h k :=
    hup.congr fun m hm => hb.other m (Nat.ne_of_lt (hup.lt hm))
  have hroot₁ : Root s₁ (top k up) root := hroot.congr (congrFun hb.callers _)
  have hstay : ∀ m, m ∈ up → s₁.frames m = s.frames m :=
    fun m hm => hb.other m (Nat.ne_of_lt (hup.lt hm))
  have hw : Within (fun m => m ∈ up ∨ m ∈ k :: l) (fun m => m ∈ up ∨ m ∈ k :: l) s s₁ :=
    hb.within hs (.inr List.mem_cons_self) fun m hm => hm.elim hup.alive hl.alive
  cases l with
  | nil =>
      have hone : ∀ m, m ∈ up ∨ m ∈ [k] ↔ m ∈ up ∨ m = k := by simp
      obtain ⟨b, hb', hrb⟩ := hl
      cases ha.symm.trans hb'
      cases hrb with
      | fresh c x v =>
          have henter := enter_exactly hf junk hr hs₁ hb.frame hup₁ hroot₁
          rw [hb.allocs] at henter
          refine henter.mono ?_ ?_
          · simp [Frame.orphans, Frame.returns, Frame.fresh]
          · rintro s' ⟨hset, hstays, -⟩
            refine ⟨(hset.congr hone).within hw, fun h m hm => ?_⟩
            exact (hstays (by simpa [Frame.returns, Frame.fresh] using h) m hm).trans (hstay m hm)
      | blocked n value x v w =>
          change (leafResume ready r value k s₁).Exactly _ _
          unfold leafResume
          rw [State.frame_of hb.frame, Outcome.ok_bind]
          refine (leafBody_exactly hf hr hs₁ hb.frame hup₁ hroot₁).mono ?_ ?_
          · simp [Frame.orphans, Frame.returns, Frame.blocked]
          · rintro s' ⟨hset, hstays, -⟩
            refine ⟨(hset.congr hone).within hw, fun h m hm => ?_⟩
            exact (hstays (by simpa [Frame.returns, Frame.blocked] using h) m hm).trans
              (hstay m hm)
      | done b v _ => exact (Bool.false_ne_true hres).elim
  | cons j l =>
      obtain ⟨hkj, ⟨b, hb', hrb⟩, hrest⟩ := hl
      cases ha.symm.trans hb'
      cases hrb with
      | waiting f x v =>
          change (gResume ready junk r f k s₁).Exactly _ _
          unfold gResume
          rw [State.frame_of hb.frame, Outcome.ok_bind]
          have hrest₁ : Suspended s₁ (some (.frame k)) j l :=
            hrest.congr fun m hm => hb.other m (Nat.ne_of_gt (hrest.above hkj m hm))
          refine (gReturn_exactly hf hr hs₁ hb.frame hup₁ hroot₁ hkj hrest₁).mono ?_
            fun s' hset => ⟨hset.within hw, ?_⟩
          · simp [Frame.orphans, Frame.returns, Frame.waiting]
          · exact fun h => by simp [Frame.returns, Frame.waiting] at h

end

/-- The temporaries are destroyed, and with them the frames beneath. -/
theorem destroyTemporaries_sat (hr : Contract ready r) (hs : s.Sound) (ha : s.frames i = some a)
    (hl : Suspended s h i l) :
    (destroyTemporaries r a i s).Sat fun s' => s'.Sound ∧ s'.callers = s.callers ∧
      (∃ b, s'.frames i = some b ∧ b.live = [.promise]) ∧ Within (· ∈ i :: l) (· = i) s s' := by
  have hself : ∀ m, m ∈ i :: l → s.frames m ≠ none := fun m => hl.alive
  cases l with
  | nil =>
      obtain ⟨b, hb, hrb⟩ := hl
      cases ha.symm.trans hb
      have hone : ∀ {s' b'}, Becomes s i b' s' → b'.live = [.promise] → s'.Sound ∧
          s'.callers = s.callers ∧ (∃ b, s'.frames i = some b ∧ b.live = [.promise]) ∧
            Within (· ∈ [i]) (· = i) s s' := by
        intro s' b' hb' hlive
        refine ⟨hb'.sound hs, hb'.callers, ⟨b', hb'.frame, hlive⟩, ?_⟩
        exact (hb'.within hs (K := (· ∈ [i])) (by simp) hself).congr (fun m => Iff.rfl)
          fun m => by simp
      cases hrb with
      | fresh c x v =>
          rw [destroyTemporaries_fresh]
          exact (State.destruct_sat ha (by simp [Frame.fresh])).mono fun s' h => hone h rfl
      | blocked n value x v w =>
          exact hone ⟨ha, fun _ _ => rfl, rfl, rfl, id⟩ rfl
      | done b v _ =>
          rw [destroyTemporaries_finish]
          exact (State.destruct_sat ha (by simp [Frame.finish])).mono fun s' h => hone h rfl
  | cons j l =>
      obtain ⟨hij, ⟨b, hb, hrb⟩, hrest⟩ := hl
      cases ha.symm.trans hb
      cases hrb with
      | waiting f x v =>
          change (destroyTmp2 r i s >>= fun s => s.destruct i .tmp3).Sat _
          refine (destroyTmp2_sat hr hs ha (by simp [Frame.waiting]) rfl hij hrest).bind
            fun s₁ h₁ => ?_
          obtain ⟨hs₁, hc₁, ha₁, hw₁⟩ := h₁
          refine (State.destruct_sat ha₁ (by simp [Frame.waiting])).mono fun s₂ h₂ => ?_
          refine ⟨h₂.sound hs₁, h₂.callers.trans hc₁, ⟨_, h₂.frame, rfl⟩, ?_⟩
          have hw₂ : Within (· = i) (· = i) s₁ s₂ := h₂.within hs₁ rfl fun m hm => by simp [hm, ha₁]
          exact (hw₁.trans hw₂).congr (fun m => by simp) fun m => Iff.rfl

/-- Destroying a frame that is suspended releases it, and the frames beneath it. -/
theorem destroy_sat (hr : Contract ready r) (hs : s.Sound) (hl : Suspended s h i l) :
    (destroyFrame r i s).Sat fun s' => s'.Sound ∧ s'.callers = s.callers ∧
      Within (· ∈ i :: l) (fun _ => False) s s' := by
  obtain ⟨a, n, ha, -⟩ := hl.first
  unfold destroyFrame
  rw [State.frame_of ha, Outcome.ok_bind]
  refine (destroyTemporaries_sat hr hs ha hl).bind fun s₁ h₁ => ?_
  obtain ⟨hs₁, hc₁, ⟨b, hb, hlive⟩, hw₁⟩ := h₁
  refine (State.destruct_sat hb (by simp [hlive])).bind fun s₂ h₂ => ?_
  have hs₂ := h₂.sound hs₁
  refine ⟨hs₂.release h₂.frame (by simp [hlive]), h₂.callers.trans hc₁, hw₁.trans ?_⟩
  have hw₂ : Within (· = i) (· = i) s₁ s₂ := h₂.within hs₁ rfl fun m hm => by simp [hm, hb]
  refine hw₂.trans ⟨Nat.le_refl _, fun m hm => ?_, fun m hm _ => Function.update_of_ne hm _ _,
    fun _ _ _ => rfl, fun m hm => hm.elim⟩
  simp only [State.note, iff_false, not_not]
  by_cases hmi : m = i
  · rw [hmi]
    exact Function.update_self i _ _
  · rw [Function.update_of_ne hmi]
    by_contra hne
    exact Nat.not_lt.mpr (hm.resolve_left hmi) (hs₂.bound m hne)

theorem caller_sat (hs : s.Sound) (ha : s.frames m = some a) (ho : .promise ∈ a.live)
    (hm : s.callers m = true) :
    (body ready junk r (.resume (some (.caller m))) s).Sat fun s' =>
      s'.Sound ∧ s'.frames = s.frames ∧ s'.allocs = s.allocs ∧
        ∀ i, i ≠ m → s'.callers i = s.callers i := by
  let t : State := { s.note (.resume (.caller m)) with
    callers := Function.update s.callers m false }
  have h := (hs.note (e := .resume (.caller m)) rfl).note (e := .read (.caller m) m) rfl
  change (callerResume m (s.note _)).Sat _
  unfold callerResume
  rw [if_pos (by exact hm)]
  change ((t.get m .promise >>= _) >>= _).Sat _
  rw [State.get_of (s := t) ha ho, Outcome.ok_bind]
  exact ⟨⟨h.life, h.bound⟩, rfl, rfl, fun i hi => Function.update_of_ne hi _ _⟩

theorem contract (hf : ∀ i, (ready i).final = false) (n : ℕ) :
    Contract ready (call (body ready junk) n) := by
  apply call_induction
  case wait =>
    exact ⟨fun _ => trivial, fun _ _ _ _ => trivial, fun _ _ => trivial,
      fun _ _ _ _ _ _ => trivial, fun _ _ => trivial⟩
  case step =>
    intro r hr
    constructor
    case null => exact fun s => id
    case caller => exact fun hs ha ho hm => caller_sat hs ha ho hm
    case run =>
      intro s i c x v hs ha
      change (runFrame ready junk r i s).Exactly _ _
      unfold runFrame
      rw [State.frame_of ha, Outcome.ok_bind]
      change (s.modify i _ >>= _).Exactly _ _
      refine Outcome.Sat.exactly (State.modify_sat ha rfl) fun s₁ h₁ => ?_
      have hself : ∀ m, m = i → s.frames m ≠ none := fun m hm => by simp [hm, ha]
      have hup : Awaited s₁ none [] none i := rfl
      have henter := enter_exactly hf junk hr (h₁.sound hs) h₁.frame hup (.inl rfl)
      rw [h₁.allocs] at henter
      refine henter.condition.mono (by simp [Frame.fresh]) ?_
      rintro s' ⟨hcond, hset, -, hstop⟩
      refine ⟨?_, hstop ?_⟩
      · exact (hset.congr fun m => by simp).within (h₁.within hs (K := (· = i)) rfl hself)
      · exact Bool.eq_false_iff.mpr fun hret => hcond.2 hret rfl
    case resume => exact fun hs hup hl ha hres hroot => resume_exactly hf hr hs hup hl ha hres hroot
    case destroy => exact fun hs hl => destroy_sat hr hs hl

end CsNotes.Coroutine
