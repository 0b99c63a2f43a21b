import CsNotes.Lib.Solo
import CsNotes.LockfreeQueue.Correctness

/-!
# Helping makes the queue non-blocking

Wherever the other threads are stopped, a thread running alone returns. What it
loads from `tail` may be full, and then it moves `tail` on itself; the node after
that has never been the tail, so the next attempt on its data succeeds. A node
loaded earlier may be stale, which costs one more iteration.
-/
namespace CsNotes.LockfreeQueue
open Interleaving History

namespace PC
variable {A : Type*}

def isIdle : PC A → Bool
  | idle => true
  | _ => false

/-- An iteration of the loop of push begins. -/
def isLoadTail : PC A → Bool
  | loadTail _ _ => true
  | _ => false

/-- The loop of pop tries to move `head`. -/
def isCasHead : PC A → Bool
  | casHead _ _ => true
  | _ => false

def InPush : PC A → Prop
  | makeData _ | makeTail _ | loadTail _ _ | casData _ _ _ | casNext _ _ _ | casTail _ _ _
  | helpNext _ _ _ | makeDummy _ _ _ | helpTail _ _ _ _ => True
  | _ => False

def InPop : PC A → Prop
  | loadHead | pollTail _ | loadNext _ | casHead _ _ | takeData _ | ret _ => True
  | _ => False

end PC

variable {Tid A : Type*} [DecidableEq Tid] {c : Config Tid (Shared Tid A) (PC A)} {t : Tid}
variable {o : Oracle A} {pc : PC A} {counted : PC A → Bool} {n k x q i m : ℕ}

/-- `t` alone returns within `k` steps, if allocation succeeds, and makes at most
`n` of the counted ones. -/
abbrev Returns (counted : PC A → Bool) (t : Tid) :=
  Stops (exec : Code Tid (Oracle A) (Shared Tid A) (PC A)) PC.isIdle counted
    (fun o => o.throws = false) t

omit [DecidableEq Tid] in
theorem node_ne_wait {B : Type*} {s : Shared Tid A} {f : Node → Outcome B}
    (hf : ∀ n, f n ≠ .wait) : s.node i f ≠ .wait := by
  unfold Shared.node
  split
  · exact Outcome.fault_ne_wait
  · exact hf _

omit [DecidableEq Tid] in
theorem dispose_ne_wait {B : Type*} {s : Shared Tid A} {f : Fate Tid} {h : Shared Tid A → B} :
    (s.dispose x f).map h ≠ .wait := by
  unfold Shared.dispose
  split
  · exact Outcome.ok_ne_wait _
  · exact Outcome.fault_ne_wait

theorem exec_ne_wait (s : Shared Tid A) (pc : PC A) : exec t o s pc ≠ .wait := by
  cases pc with
  | loadTail _ _ | casTail _ _ _ | helpTail _ _ _ _ | loadHead => exact Outcome.ok_ne_wait _
  | idle | makeData _ | pollTail _ | casHead _ _ =>
      simp only [exec]
      split <;> exact Outcome.ok_ne_wait _
  | makeTail _ | makeDummy _ _ _ =>
      simp only [exec]
      split
      · exact dispose_ne_wait
      · exact Outcome.ok_ne_wait _
  | casData _ _ _ | casNext _ _ _ | helpNext _ _ _ =>
      apply node_ne_wait
      intro n
      split <;> exact Outcome.ok_ne_wait _
  | takeData _ => exact node_ne_wait fun n => Outcome.ok_ne_wait _
  | loadNext i =>
      cases i with
      | none => exact Outcome.fault_ne_wait
      | some i => exact node_ne_wait fun n => Outcome.ok_ne_wait _
  | ret r =>
      cases r with
      | none => exact Outcome.ok_ne_wait _
      | some x => exact dispose_ne_wait

theorem returns_of_step (hc : Reach exec (· = start) c) (hpc : c.pc t = pc)
    (h : ∀ o r, o.throws = false → exec t o c.shared pc = .ok r →
      Reach exec (· = start) ⟨r.1, Function.update c.pc t r.2⟩ →
      Returns counted t n k ⟨r.1, Function.update c.pc t r.2⟩) :
    Returns counted t (n + (counted pc).toNat) (k + 1) c := by
  subst hpc
  apply Stops.step
  intro o ho
  have hsafe : c.advance exec t o ≠ .fault := outline.safe hc trivial
  cases hx : exec t o c.shared (c.pc t) with
  | wait => exact (exec_ne_wait _ _ hx).elim
  | fault => simp [Config.advance, hx, Outcome.map] at hsafe
  | ok r =>
      have hd : c.advance exec t o = .ok ⟨r.1, Function.update c.pc t r.2⟩ := by
        unfold Config.advance
        rw [hx]
        rfl
      exact ⟨_, hd, h o r ho hx (hc.next hx)⟩

theorem returns_idle (hpc : c.pc t = .idle) : Returns counted t 0 0 c :=
  Stops.done (by rw [hpc]; rfl)

/-- The data of the node `tail` is at are not set. -/
def Free (s : Shared Tid A) : Prop := ∃ n, s.nodes[s.tail]? = some n ∧ n.data = none

theorem next_free (hc : Reach exec (· = start) c)
    (hl : Linked c.shared.nodes c.shared.tail m) : c.shared.nodes[m]? = some {} := by
  obtain ⟨g, hG, -⟩ := outline.holds hc
  obtain ⟨n, hn, hnext, -⟩ := hG.tail
  obtain ⟨n', hn', -, hm⟩ := hl
  obtain rfl := Option.some.inj (hn.symm.trans hn')
  exact (hnext m hm).2.1

theorem casTail_returns (hc : Reach exec (· = start) c) (hpc : c.pc t = .casTail x i m) :
    Returns PC.isLoadTail t 0 1 c := by
  refine returns_of_step hc hpc fun o r _ h _ => ?_
  cases h
  exact returns_idle (Function.update_self t _ _)

theorem casNext_returns (hc : Reach exec (· = start) c) (hpc : c.pc t = .casNext x q i) :
    Returns PC.isLoadTail t 0 2 c := by
  refine returns_of_step hc hpc fun o r _ h hd => ?_
  obtain ⟨n, -, h⟩ := node_eq_ok.mp h
  split at h <;> cases h <;> exact casTail_returns hd (Function.update_self t _ _)

theorem casData_free (hc : Reach exec (· = start) c) (hpc : c.pc t = .casData x q i)
    (hi : ∃ n, c.shared.nodes[i]? = some n ∧ n.data = none) : Returns PC.isLoadTail t 0 3 c := by
  refine returns_of_step hc hpc fun o r _ h hd => ?_
  obtain ⟨n, hn, hfree⟩ := hi
  obtain ⟨n', hn', h⟩ := node_eq_ok.mp h
  obtain rfl := Option.some.inj (hn.symm.trans hn')
  rw [if_pos hfree] at h
  cases h
  exact casNext_returns hd (Function.update_self t _ _)

theorem loadTail_free (hc : Reach exec (· = start) c) (hpc : c.pc t = .loadTail x q)
    (hf : Free c.shared) : Returns PC.isLoadTail t 1 4 c := by
  refine returns_of_step hc hpc fun o r _ h hd => ?_
  cases h
  exact casData_free hd (Function.update_self t _ _) hf

section Help
/-- `t` returns from the beginning of an iteration, at a free node if it works at the tail
(`fresh`). -/
def ReturnsFrom (A : Type*) (t : Tid) (fresh : Prop) (n k : ℕ) : Prop :=
  ∀ (d : Config Tid (Shared Tid A) (PC A)) x q, Reach exec (· = start) d →
    d.pc t = .loadTail x q → (fresh → Free d.shared) → Returns PC.isLoadTail t n k d

variable {fresh : Prop} (hnext : ReturnsFrom A t fresh n k)
include hnext

theorem helpTail_returns (hc : Reach exec (· = start) c) (hpc : c.pc t = .helpTail x q i m)
    (hi : fresh → i = c.shared.tail) : Returns PC.isLoadTail t n (k + 1) c := by
  refine returns_of_step hc hpc fun o r _ h hd => ?_
  obtain ⟨g, -, hL⟩ := outline.holds hc
  have hf := (hL t).facts
  rw [hpc] at hf
  cases h
  refine hnext _ x q hd (Function.update_self t _ _) fun hfr => ?_
  obtain rfl := hi hfr
  have hm : c.shared.nodes[m]? = some {} := next_free hc hf.1
  rw [if_pos rfl]
  exact ⟨{}, hm, rfl⟩

theorem makeDummy_returns (hc : Reach exec (· = start) c) (hpc : c.pc t = .makeDummy x i m)
    (hi : fresh → i = c.shared.tail) : Returns PC.isLoadTail t n (k + 2) c := by
  refine returns_of_step hc hpc fun o r ho h hd => ?_
  simp only [exec, ho] at h
  cases h
  exact helpTail_returns hnext hd (Function.update_self t _ _) hi

theorem helpNext_returns (hc : Reach exec (· = start) c) (hpc : c.pc t = .helpNext x q i)
    (hi : fresh → i = c.shared.tail) : Returns PC.isLoadTail t n (k + 3) c := by
  refine returns_of_step hc hpc fun o r _ h hd => ?_
  obtain ⟨n', -, h⟩ := node_eq_ok.mp h
  split at h <;> cases h
  · exact makeDummy_returns hnext hd (Function.update_self t _ _) hi
  · exact (helpTail_returns hnext hd (Function.update_self t _ _) hi).mono (Nat.le_refl n)
      (by omega)

theorem casData_returns (hc : Reach exec (· = start) c) (hpc : c.pc t = .casData x q i)
    (hi : fresh → i = c.shared.tail) : Returns PC.isLoadTail t n (k + 4) c := by
  refine returns_of_step hc hpc fun o r _ h hd => ?_
  obtain ⟨n', -, h⟩ := node_eq_ok.mp h
  split at h <;> cases h
  · exact (casNext_returns hd (Function.update_self t _ _)).mono (Nat.zero_le _) (by omega)
  · exact helpNext_returns hnext hd (Function.update_self t _ _) hi

end Help

/-- What is loaded from `tail` is the tail for the rest of the iteration. -/
theorem loadTail_returns (hc : Reach exec (· = start) c) (hpc : c.pc t = .loadTail x q) :
    Returns PC.isLoadTail t 2 9 c := by
  refine returns_of_step hc hpc fun o r _ h hd => ?_
  cases h
  have hfree : ReturnsFrom A t True 1 4 := fun d x q hd hpc hf => loadTail_free hd hpc (hf trivial)
  exact casData_returns hfree hd (Function.update_self t _ _) fun _ => rfl

theorem inPush_returns (hc : Reach exec (· = start) c) (hp : (c.pc t).InPush) :
    Returns PC.isLoadTail t 2 13 c := by
  have hany : ReturnsFrom A t False 2 9 := fun d x q hd hpc _ => loadTail_returns hd hpc
  cases hpc : c.pc t with
  | makeData v =>
      refine Stops.mono (n := 2) (k := 11) ?_ (Nat.le_refl 2) (by omega)
      refine returns_of_step hc hpc fun o r ho h hd => ?_
      simp only [exec, ho] at h
      cases h
      refine returns_of_step hd (Function.update_self t _ _) fun o r ho h hd => ?_
      simp only [exec, ho] at h
      cases h
      exact loadTail_returns hd (Function.update_self t _ _)
  | makeTail x =>
      refine Stops.mono (n := 2) (k := 10) ?_ (Nat.le_refl 2) (by omega)
      refine returns_of_step hc hpc fun o r ho h hd => ?_
      simp only [exec, ho] at h
      cases h
      exact loadTail_returns hd (Function.update_self t _ _)
  | loadTail x q => exact (loadTail_returns hc hpc).mono (Nat.le_refl 2) (by omega)
  | casData x q i => exact casData_returns hany hc hpc False.elim
  | helpNext x q i =>
      exact (helpNext_returns hany hc hpc False.elim).mono (Nat.le_refl 2) (by omega)
  | makeDummy x i m =>
      exact (makeDummy_returns hany hc hpc False.elim).mono (Nat.le_refl 2) (by omega)
  | helpTail x q i m =>
      exact (helpTail_returns hany hc hpc False.elim).mono (Nat.le_refl 2) (by omega)
  | casNext x q i => exact (casNext_returns hc hpc).mono (Nat.zero_le 2) (by omega)
  | casTail x i m => exact (casTail_returns hc hpc).mono (Nat.zero_le 2) (by omega)
  | _ =>
      rw [hpc] at hp
      exact hp.elim

theorem ret_returns {r : Option ℕ} (hc : Reach exec (· = start) c) (hpc : c.pc t = .ret r) :
    Returns PC.isCasHead t 0 1 c := by
  refine returns_of_step hc hpc fun o r' _ h _ => ?_
  cases r with
  | none =>
      cases h
      exact returns_idle (Function.update_self t _ _)
  | some x =>
      obtain ⟨s, -, rfl⟩ := Outcome.map_eq_ok.mp h
      exact returns_idle (Function.update_self t _ _)

theorem takeData_returns (hc : Reach exec (· = start) c) (hpc : c.pc t = .takeData i) :
    Returns PC.isCasHead t 0 2 c := by
  refine returns_of_step hc hpc fun o r _ h hd => ?_
  obtain ⟨n, -, h⟩ := node_eq_ok.mp h
  cases h
  exact ret_returns hd (Function.update_self t _ _)

theorem casHead_fresh {next : Option ℕ} (hc : Reach exec (· = start) c)
    (hpc : c.pc t = .casHead i next) (hi : some i = c.shared.head) :
    Returns PC.isCasHead t 1 3 c := by
  refine returns_of_step hc hpc fun o r _ h hd => ?_
  simp only [exec, if_pos hi.symm] at h
  cases h
  exact takeData_returns hd (Function.update_self t _ _)

/-- `t` returns from an attempt on `head`, with the current one if `fresh`. -/
def ReturnsAt (A : Type*) (t : Tid) (fresh : Prop) (n k : ℕ) : Prop :=
  ∀ (d : Config Tid (Shared Tid A) (PC A)) i next, Reach exec (· = start) d →
    d.pc t = .casHead i next → (fresh → some i = d.shared.head) → Returns PC.isCasHead t n k d

section Attempt
variable {fresh : Prop} {p : Option ℕ} (hnext : ReturnsAt A t fresh n k)
include hnext

theorem loadNext_returns (hc : Reach exec (· = start) c) (hpc : c.pc t = .loadNext p)
    (hp : fresh → p = c.shared.head) : Returns PC.isCasHead t n (k + 1) c := by
  refine returns_of_step hc hpc fun o r _ h hd => ?_
  cases p with
  | none => cases h
  | some i =>
      obtain ⟨n', -, h⟩ := node_eq_ok.mp h
      cases h
      exact hnext _ _ _ hd (Function.update_self t _ _) hp

theorem pollTail_returns (hc : Reach exec (· = start) c) (hpc : c.pc t = .pollTail p)
    (hp : fresh → p = c.shared.head) : Returns PC.isCasHead t n (k + 2) c := by
  refine returns_of_step hc hpc fun o r _ h hd => ?_
  simp only [exec] at h
  split at h <;> cases h
  · exact (ret_returns hd (Function.update_self t _ _)).mono (Nat.zero_le n) (by omega)
  · exact loadNext_returns hnext hd (Function.update_self t _ _) hp

end Attempt

theorem pollTail_fresh {p : Option ℕ} (hc : Reach exec (· = start) c)
    (hpc : c.pc t = .pollTail p) (hp : p = c.shared.head) : Returns PC.isCasHead t 1 5 c := by
  have hfresh : ReturnsAt A t True 1 3 :=
    fun d i next hd hpc hi => casHead_fresh hd hpc (hi trivial)
  exact pollTail_returns hfresh hc hpc fun _ => hp

theorem casHead_returns {next : Option ℕ} (hc : Reach exec (· = start) c)
    (hpc : c.pc t = .casHead i next) : Returns PC.isCasHead t 2 6 c := by
  refine returns_of_step hc hpc fun o r _ h hd => ?_
  simp only [exec] at h
  split at h <;> cases h
  · exact (takeData_returns hd (Function.update_self t _ _)).mono (Nat.zero_le 1) (by omega)
  · exact pollTail_fresh hd (Function.update_self t _ _) rfl

theorem inPop_returns (hc : Reach exec (· = start) c) (hp : (c.pc t).InPop) :
    Returns PC.isCasHead t 2 8 c := by
  have hany : ReturnsAt A t False 2 6 := fun d i next hd hpc _ => casHead_returns hd hpc
  cases hpc : c.pc t with
  | loadHead =>
      refine Stops.mono (n := 1) (k := 6) ?_ (by omega) (by omega)
      refine returns_of_step hc hpc fun o r _ h hd => ?_
      cases h
      exact pollTail_fresh hd (Function.update_self t _ _) rfl
  | pollTail p => exact pollTail_returns hany hc hpc False.elim
  | loadNext p => exact (loadNext_returns hany hc hpc False.elim).mono (Nat.le_refl 2) (by omega)
  | casHead i next => exact (casHead_returns hc hpc).mono (Nat.le_refl 2) (by omega)
  | takeData i => exact (takeData_returns hc hpc).mono (Nat.zero_le 2) (by omega)
  | ret r => exact (ret_returns hc hpc).mono (Nat.zero_le 2) (by omega)
  | _ =>
      rw [hpc] at hp
      exact hp.elim

/-- Whatever the others have done so far, with allocation succeeding a thread in
push which runs alone returns within 13 steps, at most two of which begin another
iteration, and a thread in pop within 8, at most two of which try to move `head`. -/
theorem helping_returns (hc : Reach exec (· = start) c) (t : Tid) (os : List (Oracle A))
    (ho : ∀ o ∈ os, o.throws = false) :
    ((c.pc t).InPush → 13 ≤ os.length → ∃ d n,
      c.alone exec PC.isIdle PC.isLoadTail t os = .ok (d, n) ∧ d.pc t = .idle ∧ n ≤ 2) ∧
    ((c.pc t).InPop → 8 ≤ os.length → ∃ d n,
      c.alone exec PC.isIdle PC.isCasHead t os = .ok (d, n) ∧ d.pc t = .idle ∧ n ≤ 2) := by
  have idle_of : ∀ pc : PC A, pc.isIdle = true → pc = .idle := by
    intro pc hpc
    cases pc <;> first | rfl | cases hpc
  constructor
  · intro hp hl
    obtain ⟨d, n, hd, hidle, hn⟩ := inPush_returns hc hp os hl ho
    exact ⟨d, n, hd, idle_of _ hidle, hn⟩
  · intro hp hl
    obtain ⟨d, n, hd, hidle, hn⟩ := inPop_returns hc hp os hl ho
    exact ⟨d, n, hd, idle_of _ hidle, hn⟩

section Example

/-- Thread 0 stops after it has emplaced its data; thread 1 is about to load `tail`. -/
def stopped : List (ℕ × Oracle ℕ) :=
  List.replicate 5 (0, ⟨.push 7, false⟩) ++ List.replicate 3 (1, ⟨.push 8, false⟩)

theorem helping_returns_stopped : ∃ c d n, Config.run exec stopped start = .ok c ∧
    c.pc 0 = .casNext 0 1 0 ∧ c.alone exec PC.isIdle PC.isLoadTail 1
      (List.replicate 13 ⟨.pop, false⟩) = .ok (d, n) ∧ d.pc 1 = .idle ∧ n ≤ 2 := by
  have hreach : ∃ c, Config.run exec stopped start = .ok c ∧ c.pc 0 = .casNext 0 1 0 ∧
      (c.pc 1).InPush ∧ Reach exec (· = start) c :=
    ⟨_, rfl, rfl, trivial, ReachIf.run (.start rfl) (rfl : Config.run exec stopped start = .ok _)⟩
  obtain ⟨c, hrun, hpc, hpush, hc⟩ := hreach
  have ho : ∀ o ∈ List.replicate 13 (⟨.pop, false⟩ : Oracle ℕ), o.throws = false := by
    intro o ho
    rw [List.eq_of_mem_replicate ho]
  obtain ⟨d, n, hd, hidle, hn⟩ := (helping_returns hc 1 _ ho).1 hpush (by simp)
  exact ⟨c, d, n, hrun, hpc, hd, hidle, hn⟩

end Example
end CsNotes.LockfreeQueue
