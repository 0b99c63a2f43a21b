import CsNotes.Lib.Progress
import CsNotes.ThreadsafeQueue.Wakeup

/-!
# No deadlock between the two mutexes

The head mutex is taken before the tail mutex, and whoever holds the tail mutex
waits for nothing. So as long as no new calls come in, the threads inside a call
bring each other to an end, apart from those which wait for an element and were
not notified.
-/
namespace CsNotes.ThreadsafeQueue
open Interleaving Storage Wakeup

variable {Tid Addr A : Type*}

namespace PC

/-- How many steps a thread is from its return, or from blocking. -/
def distance : PC Addr A → ℕ
  | idle => 0
  | newNode _ => 7
  | lockTail _ _ => 6
  | emplace _ _ => 5
  | linkNext _ _ => 4
  | moveTail _ _ => 3
  | unlockTail => 2
  | notifyOne => 1
  | lockHead _ | blocked => 13
  | getTailLock _ => 12
  | getTail _ => 11
  | getTailUnlock _ _ => 10
  | compare _ _ => 9
  | block => 8
  | readNext => 7
  | moveHead _ _ => 6
  | unlockHead _ => 5
  | takeData _ => 4
  | destroyData _ _ => 3
  | deleteNode _ _ => 2
  | returnEmpty => 1

/-- What a thread has to wait for, apart from memory. -/
def Ready (s : Shared Tid Addr A) (t : Tid) : PC Addr A → Prop
  | lockTail _ _ | getTailLock _ => s.tailMutex = none
  | lockHead _ => s.headMutex = none
  | blocked => t ∉ s.waiters ∧ s.headMutex = none
  | _ => True

end PC

/-- A thread goes on with its call, and does not wake up by itself. -/
def Busy (c : Config Tid (Shared Tid Addr A) (PC Addr A)) (t : Tid) (o : Oracle Tid Addr A) :
    Prop :=
  c.pc t ≠ .idle ∧ o.spurious = false

/-- Both mutexes are free, and every call has returned or waits for an element. -/
def AtRest (c : Config Tid (Shared Tid Addr A) (PC Addr A)) : Prop :=
  (c.shared.headMutex = none ∧ c.shared.tailMutex = none) ∧ ∀ t, c.pc t = .idle ∨ Asleep c t

variable [DecidableEq Tid] [DecidableEq Addr] {movedFrom : A → A}
variable {c : Config Tid (Shared Tid Addr A) (PC Addr A)} {s : Shared Tid Addr A}
variable {pc : PC Addr A} {t u : Tid} {o : Oracle Tid Addr A} {r : Shared Tid Addr A × PC Addr A}

theorem mem_waiters_of_exec (h : exec movedFrom t o s pc = .ok r) (hu : u ∈ r.1.waiters) :
    u ∈ s.waiters ∧ (u = t → pc ≠ .blocked) ∨ u = t ∧ pc = .block ∧ r.2 = .blocked := by
  cases pc with
  | moveTail _ _ | moveHead _ _ | getTail _ =>
      cases h
      exact .inl ⟨hu, fun _ => by simp⟩
  | notifyOne =>
      simp only [exec] at h
      split at h
      · cases h
        exact .inl ⟨hu, fun _ => by simp⟩
      · split at h <;> cases h
        exact .inl ⟨Finset.mem_of_mem_erase hu, fun _ => by simp⟩
  | block =>
      cases h
      rcases Finset.mem_insert.mp hu with rfl | hu
      · exact .inr ⟨rfl, rfl, rfl⟩
      · exact .inl ⟨hu, fun _ => by simp⟩
  | blocked =>
      simp only [exec] at h
      split at h
      · split at h <;> cases h
        exact .inl ⟨Finset.mem_of_mem_erase hu, fun he => (Finset.ne_of_mem_erase hu he).elim⟩
      · rename_i ht
        split at h <;> cases h
        exact .inl ⟨hu, fun he => (ht (he ▸ hu)).elim⟩
  | _ =>
      rw [(exec_quiet h trivial).1.2.1] at hu
      exact .inl ⟨hu, fun _ => by simp⟩

theorem blocked_of_waits (hc : Reach (exec movedFrom) (fun c => ∃ a, c = start a) c)
    (ht : t ∈ c.shared.waiters) : c.pc t = .blocked := by
  induction hc generalizing t with
  | start h =>
      obtain ⟨a, rfl⟩ := h
      simp [start] at ht
  | @step c d u o hc _ hd ih =>
      obtain ⟨r, hx, rfl⟩ := Outcome.map_eq_ok.mp hd
      rcases mem_waiters_of_exec hx ht with ⟨ht, hne⟩ | ⟨rfl, -, hr⟩
      · have htu : t ≠ u := fun h => hne h (h ▸ ih ht)
        simpa only [Function.update_of_ne htu] using ih ht
      · simpa only [Function.update_self] using hr

/-- A step inside a call brings a thread closer, unless it blocks. -/
theorem exec_closer (h : exec movedFrom t o s pc = .ok r) (ho : o.spurious = false)
    (hpc : pc ≠ .idle) (hr : r.2 ≠ .idle) :
    pc = .block ∧ r.1.waiters = insert t s.waiters ∨
      r.1.waiters = s.waiters ∧ r.2.distance < pc.distance := by
  cases pc with
  | idle => exact (hpc rfl).elim
  | notifyOne =>
      simp only [exec] at h
      split at h
      · cases h
        exact (hr rfl).elim
      · split at h <;> cases h
        exact (hr rfl).elim
  | block =>
      cases h
      exact .inl ⟨rfl, rfl⟩
  | blocked =>
      simp only [exec, ho] at h
      split at h
      · cases h
      · split at h <;> cases h
        exact .inr ⟨rfl, by simp [PC.distance]⟩
  | newNode _ | lockTail _ _ | lockHead _ | getTailLock _ =>
      simp only [exec] at h
      split at h <;> cases h
      exact .inr ⟨rfl, by simp [PC.distance]⟩
  | compare k _ =>
      simp only [exec] at h
      split at h
      · split at h <;> cases h <;> exact .inr ⟨rfl, by simp [PC.distance]⟩
      · cases h
        exact .inr ⟨rfl, by simp [PC.distance]⟩
  | readNext =>
      simp only [exec] at h
      split at h
      · cases h
      · obtain ⟨n, -, h⟩ := Memory.access_eq_ok.mp h
        cases h
        exact .inr ⟨rfl, by simp [PC.distance]⟩
  | linkNext _ _ =>
      obtain ⟨n, -, h⟩ := Memory.access_eq_ok.mp h
      cases h
      exact .inr ⟨rfl, by simp [PC.distance]⟩
  | emplace _ _ | takeData _ | destroyData _ _ =>
      obtain ⟨n, -, h⟩ := Memory.access_eq_ok.mp h
      split at h <;> cases h
      exact .inr ⟨rfl, by simp [PC.distance]⟩
  | deleteNode _ _ =>
      obtain ⟨n, -, h⟩ := Memory.access_eq_ok.mp h
      split at h <;> cases h
      exact (hr rfl).elim
  | returnEmpty =>
      cases h
      exact (hr rfl).elim
  | _ =>
      cases h
      exact .inr ⟨rfl, by simp [PC.distance]⟩

theorem ranking [Fintype Tid] (movedFrom : A → A) :
    Ranking (exec movedFrom : Code Tid (Oracle Tid Addr A) (Shared Tid Addr A) (PC Addr A))
      (fun c => ∃ a, c = start a) (fun _ _ o => o.spurious = false) (· = .idle)
      [fun s _ => Fintype.card Tid - s.waiters.card, fun _ => PC.distance] where
  descends := by
    intro c t o r hc ho hpc hx hr
    rcases exec_closer hx ho hpc hr with ⟨hblock, hw⟩ | ⟨hw, hlt⟩
    · have ht : t ∉ c.shared.waiters := by
        intro ht
        have hblocked := blocked_of_waits hc ht
        rw [hblock] at hblocked
        cases hblocked
      have hcard := Finset.card_insert_of_notMem ht
      have hle := Finset.card_le_univ (insert t c.shared.waiters)
      have hlt : Fintype.card Tid - r.1.waiters.card <
          Fintype.card Tid - c.shared.waiters.card := by
        rw [hw]
        omega
      exact ⟨fun u _ => hlt.le, .inl hlt⟩
    · have heq : Fintype.card Tid - r.1.waiters.card =
          Fintype.card Tid - c.shared.waiters.card := by
        rw [hw]
      exact ⟨fun u _ => heq.le, .inr ⟨heq.le, fun u _ => le_rfl, .inl hlt⟩⟩

theorem exists_step (hfree : ∃ a, s.mem.cell a = none) (h : pc.Ready s t) :
    ∃ o : Oracle Tid Addr A, o.spurious = false ∧ exec movedFrom t o s pc ≠ .wait := by
  obtain ⟨a, ha⟩ := hfree
  let o : Oracle Tid Addr A := ⟨.remove .tryPop, a, t, false⟩
  cases pc with
  | notifyOne =>
      rcases s.waiters.eq_empty_or_nonempty with hw | ⟨u, hu⟩
      · exact ⟨o, rfl, by simp [exec, hw]⟩
      · refine ⟨{ o with wake := u }, rfl, ?_⟩
        simp [exec, hu, Finset.ne_empty_of_mem hu]
  | blocked => exact ⟨o, rfl, by simp [exec, h.1, h.2]⟩
  | lockTail _ _ | getTailLock _ | lockHead _ =>
      have h : _ = none := h
      exact ⟨o, rfl, by simp [exec, h]⟩
  | newNode _ => exact ⟨o, rfl, by simp [exec, o, ha]⟩
  | emplace _ _ | takeData _ | destroyData _ _ | deleteNode _ _ =>
      refine ⟨o, rfl, fun hwait => ?_⟩
      simp only [exec, Memory.access] at hwait
      split at hwait
      · cases hwait
      · split at hwait <;> cases hwait
  | linkNext _ _ =>
      refine ⟨o, rfl, fun hwait => ?_⟩
      simp only [exec, Memory.access] at hwait
      split at hwait <;> cases hwait
  | readNext =>
      refine ⟨o, rfl, fun hwait => ?_⟩
      simp only [exec, Memory.access] at hwait
      split at hwait
      · cases hwait
      · split at hwait <;> cases hwait
  | compare k _ =>
      refine ⟨o, rfl, fun hwait => ?_⟩
      simp only [exec] at hwait
      split at hwait
      · cases k <;> cases hwait
      · cases hwait
  | _ => exact ⟨o, rfl, Outcome.ok_ne_wait _⟩

omit [DecidableEq Tid] [DecidableEq Addr] in
theorem PC.ready_of_holdsTail (h : pc.HoldsTail) : pc ≠ .idle ∧ pc.Ready s t := by
  cases pc with
  | emplace _ _ | linkNext _ _ | moveTail _ _ | unlockTail | getTail _ | getTailUnlock _ _ =>
      exact ⟨by simp, trivial⟩
  | _ => exact h.elim

omit [DecidableEq Tid] [DecidableEq Addr] in
theorem PC.ready_of_holdsHead (h : pc.HoldsHead) (hs : s.tailMutex = none) :
    pc ≠ .idle ∧ pc.Ready s t := by
  cases pc with
  | getTailLock _ => exact ⟨by simp, hs⟩
  | getTail _ | getTailUnlock _ _ | compare _ _ | returnEmpty | block | readNext | moveHead _ _
  | unlockHead _ => exact ⟨by simp, trivial⟩
  | _ => exact h.elim

theorem atRest_of_stuck (hc : Reach (exec movedFrom) (fun c => ∃ a, c = start a) c)
    (hfree : ∃ a, c.shared.mem.cell a = none)
    (hstuck : ∀ t o, Busy c t o → c.advance (exec movedFrom) t o = .wait) : AtRest c := by
  obtain ⟨g, -, hL⟩ := (outline movedFrom).holds hc
  have hready : ∀ t, c.pc t ≠ .idle → ¬ (c.pc t).Ready c.shared t := by
    intro t hpc hr
    obtain ⟨o, ho, hx⟩ : ∃ o : Oracle Tid Addr A, o.spurious = false ∧
        exec movedFrom t o c.shared (c.pc t) ≠ .wait := exists_step hfree hr
    have hwait := hstuck t o ⟨hpc, ho⟩
    unfold Config.advance at hwait
    cases h : exec movedFrom t o c.shared (c.pc t) with
    | wait => exact hx h
    | fault | ok r =>
        rw [h] at hwait
        cases hwait
  have htail : c.shared.tailMutex = none := by
    by_contra hne
    obtain ⟨t, ht⟩ := Option.ne_none_iff_exists'.mp hne
    obtain ⟨hpc, hr⟩ := PC.ready_of_holdsTail (s := c.shared) (t := t) ((hL t).tail.mp ht)
    exact hready t hpc hr
  have hhead : c.shared.headMutex = none := by
    by_contra hne
    obtain ⟨t, ht⟩ := Option.ne_none_iff_exists'.mp hne
    obtain ⟨hpc, hr⟩ := PC.ready_of_holdsHead (t := t) ((hL t).head.mp ht) htail
    exact hready t hpc hr
  refine ⟨⟨hhead, htail⟩, fun t => ?_⟩
  by_cases hpc : c.pc t = .idle
  · exact .inl hpc
  have hnot := hready t hpc
  cases hb : c.pc t with
  | blocked =>
      rw [hb] at hnot
      by_contra hno
      exact hnot ⟨fun hw => hno (.inr ⟨hb, hw⟩), hhead⟩
  | idle => exact (hpc hb).elim
  | lockTail _ _ | getTailLock _ =>
      rw [hb] at hnot
      exact (hnot htail).elim
  | lockHead _ =>
      rw [hb] at hnot
      exact (hnot hhead).elim
  | _ =>
      rw [hb] at hnot
      exact (hnot trivial).elim

/-- Without new calls every run ends, and it ends at rest. -/
theorem threadsafe_queue_comes_to_rest [Finite Tid] (movedFrom : A → A) :
    (∀ e : Execution (exec movedFrom : Code Tid (Oracle Tid Addr A) (Shared Tid Addr A)
        (PC Addr A)) Busy, ¬ Reach (exec movedFrom) (fun c => ∃ a, c = start a) (e.config 0)) ∧
      ∀ c : Config Tid (Shared Tid Addr A) (PC Addr A),
        Reach (exec movedFrom) (fun c => ∃ a, c = start a) c →
        (∃ a, c.shared.mem.cell a = none) →
        (∀ t o, Busy c t o → c.advance (exec movedFrom) t o = .wait) → AtRest c := by
  have := Fintype.ofFinite Tid
  constructor
  · exact ((ranking movedFrom).lockFree.mono fun c t o h => h.2).ends fun c t o h => h.1
  · exact fun c hc hfree hstuck => atRest_of_stuck hc hfree hstuck

/-- A run which ends with one thread asleep. -/
theorem threadsafe_queue_comes_to_rest_two :
    (∀ e : Execution (exec id : Code Bool (Oracle Bool ℕ ℕ) (Shared Bool ℕ ℕ) (PC ℕ ℕ)) Busy,
        ¬ Reach (exec id) (fun c => ∃ a, c = start a) (e.config 0)) ∧
      ∃ c : Config Bool (Shared Bool ℕ ℕ) (PC ℕ ℕ), Asleep c true ∧ AtRest c := by
  obtain ⟨hends, hrest⟩ := @threadsafe_queue_comes_to_rest Bool ℕ ℕ _ _ _ id
  have hrun : ∃ c, Config.run (exec id) (List.replicate 7 (true, wait)) (start 0) = .ok c ∧
      Asleep c true ∧ c.pc false = .idle ∧ c.shared.mem.cell 1 = none :=
    ⟨_, rfl, ⟨rfl, by decide⟩, rfl, rfl⟩
  obtain ⟨c, hc, htrue, hfalse, hfree⟩ := hrun
  refine ⟨hends, c, htrue, hrest c (ReachIf.run (.start ⟨0, rfl⟩) hc) ⟨1, hfree⟩ ?_⟩
  rintro t o ⟨hpc, ho⟩
  cases t with
  | false => exact (hpc hfalse).elim
  | true =>
      unfold Config.advance
      rw [htrue.1]
      simp [exec, htrue.2, ho, Outcome.map]

end CsNotes.ThreadsafeQueue
