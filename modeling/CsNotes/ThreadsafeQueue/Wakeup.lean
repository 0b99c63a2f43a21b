import Mathlib.Data.Finset.Card
import CsNotes.ThreadsafeQueue.Correctness

/-!
# Wake-ups of the two-lock queue

`wait_and_pop` evaluates its predicate under the head mutex, while `push` makes
an element available under the tail mutex and notifies under none. A
notification is lost when it falls between the read of `tail` by the predicate
and the blocking of the thread that has read it. In runs without such
notifications no element is left in the queue while threads sleep: every element
is accounted for by a push which is still to notify, or by a thread which was
woken and is still to look.
-/
namespace CsNotes.ThreadsafeQueue.Wakeup
open Interleaving Storage History

variable {Tid Addr A : Type*}

/-- Blocked in the wait and not notified. -/
def Asleep (c : Config Tid (Shared Tid Addr A) (PC Addr A)) (t : Tid) : Prop :=
  c.pc t = .blocked ∧ t ∈ c.shared.waiters

/-- If every thread is between two calls or asleep, and some are asleep, then the
queue is empty. -/
def NoLostWakeup (c : Config Tid (Shared Tid Addr A) (PC Addr A)) : Prop :=
  (∀ t, c.pc t = .idle ∨ Asleep c t) → (∃ t, Asleep c t) → c.shared.head = some c.shared.tail

/-- A push which has moved `tail` and has not notified yet. -/
def Pending : PC Addr A → Prop
  | .unlockTail | .notifyOne => True
  | _ => False

variable {s s' : Shared Tid Addr A} {pc pc' : PC Addr A} {t u : Tid}

/-- `wait_and_pop` has read `tail` and found it equal to `head`, so it will block. -/
def Doomed (s : Shared Tid Addr A) : PC Addr A → Prop
  | .getTailUnlock .waitAndPop tail | .compare .waitAndPop tail => s.HeadIs tail
  | .block => True
  | _ => False

/-- A thread which has been woken, or need not sleep, and has not taken an element yet. -/
def Awake (s : Shared Tid Addr A) (t : Tid) : PC Addr A → Prop
  | .blocked => t ∉ s.waiters
  | .getTailLock .waitAndPop | .getTail .waitAndPop | .readNext | .moveHead _ _ => True
  | .getTailUnlock .waitAndPop tail | .compare .waitAndPop tail => ¬ s.HeadIs tail
  | _ => False

/-- The step is not a notification which reaches nobody while the queue is not
empty and a thread is about to block. -/
def Heard (c : Config Tid (Shared Tid Addr A) (PC Addr A)) (t : Tid) (_ : Oracle Tid Addr A) :
    Prop :=
  c.pc t = .notifyOne → c.shared.waiters = ∅ → c.shared.head ≠ some c.shared.tail →
    ∀ u, ¬ Doomed c.shared (c.pc u)

structure Ghost (Tid : Type*) where
  pending : Finset Tid
  awake : Finset Tid

/-- Whoever sleeps will be notified, or the elements are for somebody else. -/
def Covered (s : Shared Tid Addr A) (g : Ghost Tid) : Prop :=
  (pushed s.history).length ≤ (popped s.history).length + g.pending.card + g.awake.card

structure Local (s : Shared Tid Addr A) (g : Ghost Tid) (t : Tid) (pc : PC Addr A) : Prop where
  pending : t ∈ g.pending → Pending pc
  awake : t ∈ g.awake → Awake s t pc
  waits : t ∈ s.waiters → pc = .blocked
  covered : t ∈ s.waiters ∨ Doomed s pc → Covered s g

variable {g g' : Ghost Tid}

theorem Doomed.of_head (h : Doomed s' pc) (hh : pc.HoldsHead → s'.head = s.head) :
    Doomed s pc := by
  cases pc with
  | getTailUnlock k tail | compare k tail =>
      cases k with
      | tryPop => exact h.elim
      | waitAndPop => simpa only [Doomed, Shared.HeadIs, hh trivial] using h
  | block => trivial
  | _ => exact h.elim

theorem Awake.of_head (h : Awake s t pc) (hh : pc.HoldsHead → s'.head = s.head)
    (hw : t ∈ s'.waiters → t ∈ s.waiters) : Awake s' t pc := by
  cases pc with
  | getTailUnlock k tail | compare k tail =>
      cases k with
      | tryPop => exact h.elim
      | waitAndPop => simpa only [Awake, Shared.HeadIs, hh trivial] using h
  | blocked => exact fun ht => h (hw ht)
  | getTailLock k | getTail k =>
      cases k with
      | tryPop => exact h.elim
      | waitAndPop => trivial
  | readNext | moveHead _ _ => trivial
  | _ => exact h.elim

/-- Seen from another thread, a step may wake it, and it keeps the accounts. -/
theorem Local.other (h : Local s g u pc) (hh : pc.HoldsHead → s'.head = s.head)
    (hw : u ∈ s'.waiters → u ∈ s.waiters) (hp : u ∈ g'.pending → u ∈ g.pending)
    (ha : u ∈ g'.awake → u ∈ g.awake ∨ u ∈ s.waiters ∧ u ∉ s'.waiters)
    (hc : u ∈ s.waiters ∨ Doomed s pc → Covered s g → Covered s' g') : Local s' g' u pc := by
  refine ⟨fun hu => h.pending (hp hu), fun hu => ?_, fun hu => h.waits (hw hu), fun hu => ?_⟩
  · rcases ha hu with hu | ⟨hu, hu'⟩
    · exact (h.awake hu).of_head hh hw
    · rw [h.waits hu]
      exact hu'
  · have hu' := hu.imp hw fun hd => hd.of_head hh
    exact hc hu' (h.covered hu')

theorem covered_congr (hi : pushed s'.history = pushed s.history)
    (ho : popped s'.history = popped s.history) : Covered s' g ↔ Covered s g := by
  rw [Covered, Covered, hi, ho]

theorem Local.not_mem_waiters (h : Local s g t pc) (hb : pc ≠ .blocked) :
    t ∉ s.waiters :=
  fun ht => hb (h.waits ht)

/-- Steps which concern neither the sleepers nor the number of elements. -/
def Quiet : PC Addr A → Prop
  | .moveTail _ _ | .moveHead _ _ | .getTail _ | .notifyOne | .block | .blocked => False
  | _ => True

variable [DecidableEq Tid] [DecidableEq Addr] {movedFrom : A → A} {o : Oracle Tid Addr A}
variable {c : Config Tid (Shared Tid Addr A) (PC Addr A)} {r : Shared Tid Addr A × PC Addr A}

theorem exec_quiet (h : exec movedFrom t o s pc = .ok r) (hq : Quiet pc) :
    (r.1.head = s.head ∧ r.1.waiters = s.waiters ∧ r.1.history = s.history) ∧
      (Pending pc → Pending r.2) ∧ (Awake s t pc → Awake s t r.2) ∧
      (Doomed s r.2 → Doomed s pc) := by
  cases pc with
  | moveTail _ _ | moveHead _ _ | getTail _ | notifyOne | block | blocked => exact hq.elim
  | idle | newNode _ | lockTail _ _ | lockHead _ =>
      simp only [exec] at h
      split at h <;> cases h <;> exact ⟨⟨rfl, rfl, rfl⟩, False.elim, False.elim, False.elim⟩
  | getTailLock k =>
      simp only [exec] at h
      split at h <;> cases h
      cases k with
      | tryPop => exact ⟨⟨rfl, rfl, rfl⟩, False.elim, False.elim, False.elim⟩
      | waitAndPop => exact ⟨⟨rfl, rfl, rfl⟩, False.elim, fun h => h, False.elim⟩
  | unlockTail =>
      cases h
      exact ⟨⟨rfl, rfl, rfl⟩, fun h => h, False.elim, False.elim⟩
  | getTailUnlock k tail =>
      cases h
      cases k with
      | tryPop => exact ⟨⟨rfl, rfl, rfl⟩, False.elim, False.elim, False.elim⟩
      | waitAndPop => exact ⟨⟨rfl, rfl, rfl⟩, False.elim, fun h => h, fun h => h⟩
  | returnEmpty | unlockHead _ =>
      cases h
      exact ⟨⟨rfl, rfl, rfl⟩, False.elim, False.elim, False.elim⟩
  | emplace _ _ | takeData _ | destroyData _ _ | deleteNode _ _ =>
      obtain ⟨n, -, h⟩ := Memory.access_eq_ok.mp h
      split at h <;> cases h
      exact ⟨⟨rfl, rfl, rfl⟩, False.elim, False.elim, False.elim⟩
  | linkNext _ _ =>
      obtain ⟨n, -, h⟩ := Memory.access_eq_ok.mp h
      cases h
      exact ⟨⟨rfl, rfl, rfl⟩, False.elim, False.elim, False.elim⟩
  | compare k tail =>
      simp only [exec] at h
      split at h
      · rename_i he
        split at h <;> cases h
        · exact ⟨⟨rfl, rfl, rfl⟩, False.elim, False.elim, False.elim⟩
        · exact ⟨⟨rfl, rfl, rfl⟩, False.elim, fun ha => ha he, fun _ => he⟩
      · cases h
        exact ⟨⟨rfl, rfl, rfl⟩, False.elim, fun _ => trivial, False.elim⟩
  | readNext =>
      simp only [exec] at h
      split at h
      · cases h
      · obtain ⟨n, -, h⟩ := Memory.access_eq_ok.mp h
        cases h
        exact ⟨⟨rfl, rfl, rfl⟩, False.elim, fun _ => trivial, False.elim⟩

def Kept (c : Config Tid (Shared Tid Addr A) (PC Addr A)) (t : Tid)
    (r : Shared Tid Addr A × PC Addr A) : Prop :=
  ∃ g', Local r.1 g' t r.2 ∧ ∀ u, u ≠ t → Local r.1 g' u (c.pc u)

theorem keep_quiet (hL : ∀ u, Local c.shared g u (c.pc u)) (hq : Quiet (c.pc t))
    (hr : exec movedFrom t o c.shared (c.pc t) = .ok r) : Kept c t r := by
  obtain ⟨⟨hh, hw, hi⟩, hpending, hawake, hdoomed⟩ := exec_quiet hr hq
  have hb : c.pc t ≠ .blocked := by
    intro hb
    rw [hb] at hq
    exact hq
  have ht := (hL t).not_mem_waiters hb
  have hcov : Covered r.1 g ↔ Covered c.shared g := covered_congr (by rw [hi]) (by rw [hi])
  refine ⟨g, ⟨fun h => hpending ((hL t).pending h),
    fun h => (hawake ((hL t).awake h)).of_head (fun _ => hh) (hw ▸ id),
    fun h => (ht (hw ▸ h)).elim, fun h => ?_⟩,
    fun u hu => (hL u).other (fun _ => hh) (hw ▸ id) id .inl fun _ h => hcov.mpr h⟩
  have hd := (h.resolve_left (hw ▸ ht)).of_head fun _ => hh
  exact hcov.mpr ((hL t).covered (.inr (hdoomed hd)))

theorem keep_notifyOne (hL : ∀ u, Local c.shared g u (c.pc u)) (hpc : c.pc t = .notifyOne)
    (hg : Heard c t o) (hcov : c.shared.head = some c.shared.tail → ∀ g, Covered c.shared g)
    (hr : exec movedFrom t o c.shared (c.pc t) = .ok r) : Kept c t r := by
  have ht := (hL t).not_mem_waiters (by rw [hpc]; simp)
  have hta : t ∉ g.awake := fun h => by
    have := (hL t).awake h
    rw [hpc] at this
    exact this
  have hpos := Finset.pred_card_le_card_erase (s := g.pending) (a := t)
  rw [hpc] at hr
  simp only [exec] at hr
  split at hr
  · rename_i hw
    cases hr
    refine ⟨{ g with pending := g.pending.erase t }, ⟨fun h => by simp at h, fun h => (hta h).elim,
      fun h => (ht h).elim, fun h => (h.resolve_left ht).elim⟩, fun u hu => (hL u).other
      (fun _ => rfl) id Finset.mem_of_mem_erase .inl fun hs _ => ?_⟩
    by_cases he : c.shared.head = some c.shared.tail
    · exact hcov he _
    · rcases hs with hs | hs
      · simp [hw] at hs
      · exact (hg hpc hw he u hs).elim
  · split at hr <;> cases hr
    rename_i hw
    have hwa : o.wake ∉ g.awake := fun h => by
      have := (hL o.wake).awake h
      rw [(hL o.wake).waits hw] at this
      exact this hw
    have hcard := Finset.card_insert_of_notMem hwa
    refine ⟨⟨g.pending.erase t, insert o.wake g.awake⟩, ⟨fun h => by simp at h, fun h => ?_,
      fun h => (ht (Finset.mem_of_mem_erase h)).elim,
      fun h => (h.resolve_left fun h => ht (Finset.mem_of_mem_erase h)).elim⟩, fun u hu =>
      (hL u).other (fun _ => rfl) Finset.mem_of_mem_erase Finset.mem_of_mem_erase (fun h => ?_)
      fun _ h => ?_⟩
    · rcases Finset.mem_insert.mp h with rfl | h
      · exact (ht hw).elim
      · exact (hta h).elim
    · rcases Finset.mem_insert.mp h with rfl | h
      · exact .inr ⟨hw, by simp⟩
      · exact .inl h
    · simp only [Covered] at h ⊢
      omega

theorem keep_moveTail {v : A} {p : Ptr Addr} (hL : ∀ u, Local c.shared g u (c.pc u))
    (hpc : c.pc t = .moveTail v p) (hr : exec movedFrom t o c.shared (c.pc t) = .ok r) :
    Kept c t r := by
  have ht := (hL t).not_mem_waiters (by rw [hpc]; simp)
  have htp : t ∉ g.pending := fun h => by
    have := (hL t).pending h
    rw [hpc] at this
    exact this
  have hcard := Finset.card_insert_of_notMem htp
  rw [hpc] at hr
  cases hr
  refine ⟨{ g with pending := insert t g.pending }, ⟨fun _ => trivial, fun h => ?_,
    fun h => (ht h).elim, fun h => (h.resolve_left ht).elim⟩, fun u hu => (hL u).other
    (fun _ => rfl) id (fun h => (Finset.mem_insert.mp h).resolve_left hu) .inl fun _ h => ?_⟩
  · have := (hL t).awake h
    rw [hpc] at this
    exact this.elim
  · simp only [Covered, pushed_push, popped_push, List.length_append, List.length_singleton] at h ⊢
    omega

theorem keep_moveHead {old : Ptr Addr} {next : Option (Ptr Addr)} {v : A}
    (hL : ∀ u, Local c.shared g u (c.pc u)) (hpc : c.pc t = .moveHead old next)
    (hhead : ∀ u, u ≠ t → ¬ (c.pc u).HoldsHead)
    (hv : (c.shared.mem.read old).bind Node.data = some v)
    (hr : exec movedFrom t o c.shared (c.pc t) = .ok r) : Kept c t r := by
  have ht := (hL t).not_mem_waiters (by rw [hpc]; simp)
  have hpos := Finset.pred_card_le_card_erase (s := g.awake) (a := t)
  rw [hpc] at hr
  cases hr
  refine ⟨{ g with awake := g.awake.erase t }, ⟨fun h => ?_, fun h => by simp at h,
    fun h => (ht h).elim, fun h => (h.resolve_left ht).elim⟩, fun u hu => (hL u).other
    (fun h => (hhead u hu h).elim) id id (fun h => .inl (Finset.mem_of_mem_erase h)) fun _ h => ?_⟩
  · have := (hL t).pending h
    rw [hpc] at this
    exact this.elim
  · simp only [Covered, hv, Option.map_some, Option.toList_some, pushed_pop, popped_pop,
      List.length_append, List.length_singleton] at h ⊢
    omega

/-- A thread which finds the queue empty gives up the element it may have been
woken for: there is none. -/
theorem keep_getTail {k : Removal} (hL : ∀ u, Local c.shared g u (c.pc u))
    (hpc : c.pc t = .getTail k)
    (hcov : c.shared.HeadIs c.shared.tail → ∀ g, Covered c.shared g)
    (hr : exec movedFrom t o c.shared (c.pc t) = .ok r) : Kept c t r := by
  have ht := (hL t).not_mem_waiters (by rw [hpc]; simp)
  have htp : t ∉ g.pending := fun h => by
    have := (hL t).pending h
    rw [hpc] at this
    exact this
  rw [hpc] at hr
  cases hr
  generalize hs : Shared.mk c.shared.mem _ _ _ _ _ _ _ = s'
  have hcov' : ∀ g, Covered s' g ↔ Covered c.shared g := by
    intro g
    refine covered_congr ?_ ?_ <;> rw [← hs] <;> dsimp only <;> split <;> simp
  have hw : s'.waiters = c.shared.waiters := by rw [← hs]
  have hh : s'.head = c.shared.head := by rw [← hs]
  by_cases he : c.shared.HeadIs c.shared.tail
  · exact ⟨{ g with awake := g.awake.erase t }, ⟨fun h => (htp h).elim, fun h => by simp at h,
      fun h => (ht (hw ▸ h)).elim, fun _ => (hcov' _).mpr (hcov he _)⟩, fun u hu => (hL u).other
      (fun _ => hh) (hw ▸ id) id (fun h => .inl (Finset.mem_of_mem_erase h))
      fun _ _ => (hcov' _).mpr (hcov he _)⟩
  · have he' : ¬ s'.HeadIs c.shared.tail := by rwa [Shared.HeadIs, hh]
    refine ⟨g, ⟨fun h => (htp h).elim, fun h => ?_, fun h => (ht (hw ▸ h)).elim, fun h => ?_⟩,
      fun u hu => (hL u).other (fun _ => hh) (hw ▸ id) id .inl fun _ => (hcov' _).mpr⟩
    · have ha := (hL t).awake h
      rw [hpc] at ha
      cases k with
      | tryPop => exact ha.elim
      | waitAndPop => exact he'
    · have hd := h.resolve_left (hw ▸ ht)
      cases k with
      | tryPop => exact hd.elim
      | waitAndPop => exact (he' hd).elim

theorem keep_block (hL : ∀ u, Local c.shared g u (c.pc u)) (hpc : c.pc t = .block)
    (hr : exec movedFrom t o c.shared (c.pc t) = .ok r) : Kept c t r := by
  have hl := hL t
  rw [hpc] at hl hr
  cases hr
  exact ⟨g, ⟨fun h => (hl.pending h).elim, fun h => (hl.awake h).elim, fun _ => rfl,
    fun _ => hl.covered (.inr trivial)⟩, fun u hu => (hL u).other (fun _ => rfl)
    (fun h => (Finset.mem_insert.mp h).resolve_left hu) id .inl fun _ h => h⟩

theorem keep_blocked (hL : ∀ u, Local c.shared g u (c.pc u)) (hpc : c.pc t = .blocked)
    (hr : exec movedFrom t o c.shared (c.pc t) = .ok r) : Kept c t r := by
  have hl := hL t
  rw [hpc] at hl hr
  simp only [exec] at hr
  split at hr
  · rename_i ht
    split at hr <;> cases hr
    exact ⟨g, ⟨fun h => (hl.pending h).elim, fun h => (hl.awake h ht).elim, fun _ => rfl,
      fun h => (h.elim (fun h => by simp at h) False.elim)⟩, fun u hu => (hL u).other (fun _ => rfl)
      Finset.mem_of_mem_erase id .inl fun _ h => h⟩
  · rename_i ht
    split at hr <;> cases hr
    exact ⟨g, ⟨fun h => (hl.pending h).elim, fun _ => trivial, fun h => (ht h).elim,
      fun h => (h.resolve_left ht).elim⟩, fun u hu => (hL u).other (fun _ => rfl) id id .inl
      fun _ h => h⟩

/-- The accounts are kept in runs without lost notifications. -/
theorem outline (movedFrom : A → A) :
    Outline (exec movedFrom) Heard (fun c => ∃ a, c = start a)
      (fun (_ : Shared Tid Addr A) (_ : Ghost Tid) => True) Local where
  start := by
    rintro c ⟨a, rfl⟩
    refine ⟨⟨∅, ∅⟩, trivial, fun t => ⟨fun h => by simp at h, fun h => by simp at h,
      fun h => by simp [start] at h, fun h => by simp [start, Doomed] at h⟩⟩
  step := by
    intro c t o g hc hg _ hL
    obtain ⟨G, hG, hF⟩ := (ThreadsafeQueue.outline movedFrom).holds hc.reach
    have hok := (ThreadsafeQueue.outline movedFrom).step c t o G hc.reach trivial hG hF
    have hcov : c.shared.HeadIs c.shared.tail → ∀ g, Covered c.shared g := by
      intro he g
      have hlen := congrArg List.length hG.run.pushed_eq
      rw [hG.nodes_eq_nil he] at hlen
      simp only [List.map_nil, List.append_nil] at hlen
      simp only [Covered, hlen]
      omega
    suffices h : ∀ r, exec movedFrom t o c.shared (c.pc t) = .ok r → Kept c t r by
      refine Outcome.sat_iff.mpr ⟨hok.ne_fault, fun r hr => ?_⟩
      obtain ⟨g', ht, hu⟩ := h r hr
      exact ⟨g', trivial, ht, hu⟩
    intro r hr
    cases hpc : c.pc t with
    | moveTail v p => exact keep_moveTail hL hpc hr
    | moveHead old next =>
        have hx := (hF t).head
        have hf := (hF t).facts
        rw [hpc] at hx hf
        obtain ⟨⟨v, rest, hnodes⟩, -, -⟩ := hf
        have hseg := hG.seg
        rw [hnodes] at hseg
        obtain ⟨next', ⟨-, n, hn, hd, -⟩, -⟩ := hseg
        have hv : (c.shared.mem.read old).bind Node.data = some v := by
          rw [hn]
          exact hd
        refine keep_moveHead hL hpc (fun u hu hh => ?_) hv hr
        have := (hF u).head.mpr hh
        rw [hx.mpr trivial] at this
        exact hu (Option.some.inj this).symm
    | getTail k => exact keep_getTail hL hpc hcov hr
    | notifyOne =>
        exact keep_notifyOne hL hpc hg (fun he => hcov (by simp [Shared.HeadIs, he])) hr
    | block => exact keep_block hL hpc hr
    | blocked => exact keep_blocked hL hpc hr
    | _ => exact keep_quiet hL (by rw [hpc]; trivial) hr

/-- In a run in which every notification is heard, no wake-up is lost. -/
theorem no_lost_wakeup {c : Config Tid (Shared Tid Addr A) (PC Addr A)}
    (hc : ReachIf (exec movedFrom) Heard (fun c => ∃ a, c = start a) c) : NoLostWakeup c := by
  rintro hrest ⟨t, ht⟩
  obtain ⟨g, -, hL⟩ := (outline movedFrom).holds hc
  obtain ⟨G, hG, -⟩ := (ThreadsafeQueue.outline movedFrom).holds hc.reach
  have hpending : g.pending = ∅ := by
    refine Finset.eq_empty_of_forall_notMem fun u hu => ?_
    have hp := (hL u).pending hu
    rcases hrest u with hi | hb
    · rw [hi] at hp
      exact hp
    · rw [hb.1] at hp
      exact hp
  have hawake : g.awake = ∅ := by
    refine Finset.eq_empty_of_forall_notMem fun u hu => ?_
    have ha := (hL u).awake hu
    rcases hrest u with hi | hb
    · rw [hi] at ha
      exact ha
    · rw [hb.1] at ha
      exact ha hb.2
  have hle := (hL t).covered (.inl ht.2)
  have hlen := congrArg List.length hG.run.pushed_eq
  have hnil : G.nodes = [] := by
    simp only [Covered, hpending, hawake, Finset.card_empty] at hle
    simp only [List.length_append, List.length_map] at hlen
    exact List.eq_nil_of_length_eq_zero (by omega)
  have hseg := hG.seg
  rw [hnil] at hseg
  exact hseg

section Example

abbrev wait : Oracle Bool ℕ ℕ := ⟨.remove .waitAndPop, 0, true, false⟩
abbrev push : Oracle Bool ℕ ℕ := ⟨.push 7, 3, true, false⟩

/-- Thread `true` sleeps until thread `false` has pushed and notifies it. It takes
the element, calls again and sleeps. -/
def notified : List (Bool × Oracle Bool ℕ ℕ) :=
  List.replicate 7 (true, wait) ++ List.replicate 8 (false, push) ++ List.replicate 18 (true, wait)

abbrev Received (c : Config Bool (Shared Bool ℕ ℕ) (PC ℕ ℕ)) (t : Bool) (_ : Oracle Bool ℕ ℕ) :
    Prop :=
  c.pc t = .notifyOne → c.shared.waiters ≠ ∅

theorem no_lost_wakeup_sample : ∃ c : Config Bool (Shared Bool ℕ ℕ) (PC ℕ ℕ),
    (start 0).run (exec id) notified = .ok c ∧ Asleep c true ∧ c.pc false = .idle ∧
      c.shared.returned true = [some 7] ∧ NoLostWakeup c := by
  have hmeets : (start 0).Meets (exec id) Received notified := by decide
  have hrun : ∃ c : Config Bool (Shared Bool ℕ ℕ) (PC ℕ ℕ),
      (start 0).run (exec id) notified = .ok c ∧ Asleep c true ∧ c.pc false = .idle ∧
        c.shared.returned true = [some 7] := ⟨_, rfl, ⟨rfl, by decide⟩, rfl, rfl⟩
  obtain ⟨c, hc, htrue, hfalse, hreturned⟩ := hrun
  have hstart : ReachIf (exec id) Received (fun c => ∃ a, c = start a) (start 0) := .start ⟨0, rfl⟩
  have hheard : ReachIf (exec id) Heard (fun c => ∃ a, c = start a) c :=
    (hstart.run_meets hmeets hc).mono (fun _ => id) fun d t o hd hn hw => (hd hn hw).elim
  exact ⟨c, hc, htrue, hfalse, hreturned, no_lost_wakeup hheard⟩

/-- The whole push of thread `false` falls between the read of `tail` by thread
`true` and its blocking. -/
def unheard : List (Bool × Oracle Bool ℕ ℕ) :=
  List.replicate 5 (true, wait) ++ List.replicate 8 (false, push) ++ List.replicate 2 (true, wait)

theorem loses_wakeup : ¬ ∀ c : Config Bool (Shared Bool ℕ ℕ) (PC ℕ ℕ),
    Reach (exec id) (fun c => ∃ a, c = start a) c → NoLostWakeup c := by
  intro h
  have hrun : ∃ c, Config.run (exec id) unheard (start 0) = .ok c ∧ Asleep c true ∧
      c.pc false = .idle ∧ c.shared.head ≠ some c.shared.tail :=
    ⟨_, rfl, ⟨rfl, by decide⟩, rfl, by decide⟩
  obtain ⟨c, hc, htrue, hfalse, hne⟩ := hrun
  refine hne (h c (ReachIf.run (.start ⟨0, rfl⟩) hc) (fun t => ?_) ⟨true, htrue⟩)
  cases t with
  | true => exact .inr htrue
  | false => exact .inl hfalse

end Example
end CsNotes.ThreadsafeQueue.Wakeup
