import Mathlib.Order.Lattice.Nat
import CsNotes.Lib.Progress
import CsNotes.HazardPointer.Correctness

/-!
# The stacks with hazard pointers are lock free

Their threads compete for the heads of the stacks and for `nodes_to_reclaim`. A
head changes when a call takes effect. The reclaim list changes when a pop takes
it, which each pop does once, and when a node is added, which a thread does at
most once for its own node and for each of those that it took.
-/
namespace CsNotes.HazardPointer
open Interleaving Storage History Segment

variable {N : ℕ} {Stack Tid Addr A : Type*}

/-- A weak exchange fails only if it finds another value. -/
def Strong {C : Type*} (_ : C) (_ : Tid) (o : Oracle Stack Addr A) : Prop := o.spurious = false

/-- Pops which are still to take the reclaim list when they are done with their own node. -/
def After.untaken : After Stack Addr A → ℕ
  | popped _ _ => 1
  | drained _ _ _ => 0

namespace PC

/-- Calls which have not taken effect. -/
def pending : PC Stack Addr A → ℕ
  | newNode _ _ | loadNext _ _ _ | storeNext _ _ _ _ | readExpected _ _ _ | pushCas _ _ _ _
  | loadHead _ | acquire _ _ _ | setHazard _ _ | reload _ _ | readNext _ _ | popCas _ _ _ => 1
  | _ => 0

/-- Pops which have taken effect, and are still to take the reclaim list. -/
def untaken : PC Stack Addr A → ℕ
  | clear _ _ | takeData _ _ | exchange _ _ => 1
  | scan _ j _ | addLoad _ j | addStore _ j _ | addRead _ j | addCas _ j _ | delete _ j => j.untaken
  | _ => 0

/-- Nodes in hand which are to be deleted or added to the list. -/
def unlinked : PC Stack Addr A → ℕ
  | clear _ (some _) | takeData _ _ | scan _ _ _ | addLoad _ _ | addStore _ _ _ | addRead _ _
  | addCas _ _ _ | delete _ _ => 1
  | _ => 0

/-- Nodes which the next step takes from the chain. -/
def picks : PC Stack Addr A → ℕ
  | drain (some _) _ _ => 1
  | _ => 0

end PC

section After
variable {j : After Stack Addr A}

@[simp] theorem pending_pc : j.pc.pending = 0 := by
  cases j <;> rfl

@[simp] theorem untaken_pc : j.pc.untaken = j.untaken := by
  cases j <;> rfl

@[simp] theorem unlinked_pc : j.pc.unlinked = 0 := by
  cases j <;> rfl

end After

/-- How many nodes are met from a pointer to the null pointer. -/
noncomputable def chainLength (m : Memory Addr (Node Addr A)) (h : Option Addr) : ℕ :=
  sInf {n | ∃ l, Chain m h l ∧ l.length = n}

theorem Chain.chainLength_eq {m : Memory Addr (Node Addr A)} {h : Option Addr} {l : List Addr}
    (hl : Chain m h l) : chainLength m h = l.length := by
  have hset : {n | ∃ l, Chain m h l ∧ l.length = n} = {l.length} := by
    ext n
    constructor
    · rintro ⟨l', hl', rfl⟩
      exact congrArg List.length (hl'.unique hl)
    · rintro rfl
      exact ⟨l, hl, rfl⟩
  unfold chainLength
  rw [hset, csInf_singleton]

/-- Nodes which the thread may still add to the list. -/
noncomputable def left (s : Shared N Stack Tid Addr A) (pc : PC Stack Addr A) : ℕ :=
  pc.unlinked + chainLength s.mem (pc.rest.map Ptr.addr)

def next (s : Shared N Stack Tid Addr A) (p : Ptr Addr) : Option (Option Addr) :=
  (s.mem.read p).map Node.next

variable [DecidableEq Addr]

/-- How many steps a thread is from taking effect or from its next change of the list, or
from its return, if nothing changes that it competes for. -/
def distance (s : Shared N Stack Tid Addr A) : PC Stack Addr A → ℕ
  | .idle | .exchange _ _ => 0
  | .newNode _ _ => 5
  | .loadNext _ _ _ => 4
  | .storeNext k _ _ h => if s.head k = h then 3 else 6
  | .readExpected k _ p => if next s p = some (s.head k) then 2 else 5
  | .pushCas k _ _ expected => if s.head k = expected then 1 else 4
  | .loadHead _ => N + 8
  | .acquire _ _ i => N - i + 7
  | .setHazard k old => if s.head k = old then 4 else 6
  | .reload k old => if s.head k = old then 3 else 5
  | .readNext k p => if s.head k = some p.addr then 2 else 6
  | .popCas k p _ => if s.head k = some p.addr then 1 else 5
  | .clear _ _ => N + 7
  | .takeData _ _ | .drain _ _ _ => N + 6
  | .scan _ _ i => N - i + 5
  | .addLoad _ _ => 4
  | .addStore _ _ h => if s.nodesToReclaim = h then 3 else 6
  | .addRead p _ => if next s p = some s.nodesToReclaim then 2 else 5
  | .addCas _ _ expected => if s.nodesToReclaim = expected then 1 else 4
  | .delete _ _ | .clearId => 1
  | .clearPtr => 2

variable {s s' : Shared N Stack Tid Addr A} {pc : PC Stack Addr A} {p : Ptr Addr}
variable {n : Node Addr A}

omit [DecidableEq Addr] in
theorem next_of (hn : s.mem.read p = some n) : next s p = some n.next := by
  unfold next
  rw [hn]
  rfl

theorem next_write (hn : s.mem.read p = some n) (h : Option Addr) :
    next { s with mem := s.mem.write p { n with next := h } } p = some h := by
  unfold next
  rw [Memory.read_write_self hn]
  rfl

/-- What a step brings: its thread takes effect, or takes the list, or is done with a node,
or comes closer. -/
def Closer (s : Shared N Stack Tid Addr A) (pc : PC Stack Addr A)
    (r : Shared N Stack Tid Addr A × PC Stack Addr A) : Prop :=
  r.2.pending < pc.pending ∨ r.2.pending ≤ pc.pending ∧ r.1.head = s.head ∧
    (r.2.untaken < pc.untaken ∨ r.2.untaken ≤ pc.untaken ∧
      (r.2.unlinked < pc.unlinked + pc.picks ∨ r.2.unlinked ≤ pc.unlinked + pc.picks ∧
        r.1.nodesToReclaim = s.nodesToReclaim ∧ distance r.1 r.2 < distance s pc))

theorem Closer.of_distance {r : Shared N Stack Tid Addr A × PC Stack Addr A}
    (hp : r.2.pending = pc.pending) (hh : r.1.head = s.head) (ht : r.2.untaken = pc.untaken)
    (hu : r.2.unlinked = pc.unlinked + pc.picks) (hl : r.1.nodesToReclaim = s.nodesToReclaim)
    (hd : distance r.1 r.2 < distance s pc) : Closer s pc r :=
  .inr ⟨hp.le, hh, .inr ⟨ht.le, .inr ⟨hu.le, hl, hd⟩⟩⟩

variable [DecidableEq Stack] [DecidableEq Tid] {movedFrom : A → A} {t u : Tid}
variable {o : Oracle Stack Addr A} {r : Shared N Stack Tid Addr A × PC Stack Addr A}

theorem exec_closer (h : exec movedFrom t o s pc = .ok r) (ho : o.spurious = false)
    (hpc : pc ≠ .idle) (hr : r.2 ≠ .idle) : Closer s pc r := by
  cases pc with
  | idle => exact (hpc rfl).elim
  | newNode k v =>
      simp only [exec] at h
      split at h <;> cases h
      exact .of_distance rfl rfl rfl rfl rfl (by simp [distance])
  | loadNext k v p =>
      cases h
      exact .of_distance rfl rfl rfl rfl rfl (by simp [distance])
  | storeNext k v p h₀ =>
      obtain ⟨n, hn, h⟩ := Memory.access_eq_ok.mp h
      cases h
      refine .of_distance rfl rfl rfl rfl rfl ?_
      simp only [distance, next_write hn, Option.some.injEq, eq_comm (a := h₀)]
      split <;> omega
  | readExpected k v p =>
      obtain ⟨n, hn, h⟩ := Memory.access_eq_ok.mp h
      cases h
      refine .of_distance rfl rfl rfl rfl rfl ?_
      simp only [distance, next_of hn, Option.some.injEq, eq_comm (a := n.next)]
      split <;> omega
  | pushCas k v p e =>
      simp only [exec] at h
      split at h
      · cases h
        exact (hr rfl).elim
      · rename_i hcas
        cases h
        have hne : s.head k ≠ e := fun he => hcas ⟨he, ho⟩
        exact .of_distance rfl rfl rfl rfl rfl (by simp [distance, hne])
  | loadHead k =>
      simp only [exec] at h
      split at h <;> cases h <;> exact .of_distance rfl rfl rfl rfl rfl (by simp [distance])
  | acquire k old i =>
      simp only [exec] at h
      split at h
      · split at h <;> cases h
        · refine .of_distance rfl rfl rfl rfl rfl ?_
          simp only [distance]
          split <;> omega
        · refine .of_distance rfl rfl rfl rfl rfl ?_
          simp only [distance]
          omega
      · cases h
        exact (hr rfl).elim
  | setHazard k old =>
      obtain ⟨i, -, h⟩ := own_eq_ok h
      cases h
      refine .of_distance rfl rfl rfl rfl rfl ?_
      change (if s.head k = old then 3 else 5) < if s.head k = old then 4 else 6
      split <;> omega
  | reload k old =>
      simp only [exec] at h
      split at h
      · rename_i hold
        obtain ⟨q, hq, h⟩ := follow_eq_ok h
        cases q with
        | none =>
            cases h
            exact .inl Nat.zero_lt_one
        | some p =>
            cases h
            have hp : old = some p.addr := hq.symm
            exact .of_distance rfl rfl rfl rfl rfl (by simp [distance, hold, hp])
      · rename_i hold
        cases h
        exact .of_distance rfl rfl rfl rfl rfl (by simp [distance, hold])
  | readNext k p =>
      obtain ⟨n, -, h⟩ := Memory.access_eq_ok.mp h
      cases h
      refine .of_distance rfl rfl rfl rfl rfl ?_
      simp only [distance]
      split <;> omega
  | popCas k p next =>
      simp only [exec] at h
      split at h
      · cases h
        exact .inl Nat.zero_lt_one
      · rename_i hcas
        cases h
        exact .of_distance rfl rfl rfl rfl rfl (by simp [distance, hcas])
  | clear k q =>
      obtain ⟨i, -, h⟩ := own_eq_ok h
      cases h
      cases q <;> exact .of_distance rfl rfl rfl rfl rfl (by simp [distance])
  | takeData k p =>
      obtain ⟨n, -, h⟩ := Memory.access_eq_ok.mp h
      cases h
      exact .of_distance rfl rfl rfl rfl rfl (by simp [distance])
  | scan p j i =>
      simp only [exec] at h
      split at h
      · split at h <;> cases h
        · exact .of_distance rfl rfl rfl rfl rfl (by simp only [distance]; omega)
        · exact .of_distance rfl rfl rfl rfl rfl (by simp only [distance]; omega)
      · cases h
        exact .of_distance rfl rfl rfl rfl rfl (by simp only [distance]; omega)
  | addLoad p j =>
      cases h
      exact .of_distance rfl rfl rfl rfl rfl (by simp [distance])
  | addStore p j h₀ =>
      obtain ⟨n, hn, h⟩ := Memory.access_eq_ok.mp h
      cases h
      refine .of_distance rfl rfl rfl rfl rfl ?_
      simp only [distance, next_write hn, Option.some.injEq, eq_comm (a := h₀)]
      split <;> omega
  | addRead p j =>
      obtain ⟨n, hn, h⟩ := Memory.access_eq_ok.mp h
      cases h
      refine .of_distance rfl rfl rfl rfl rfl ?_
      simp only [distance, next_of hn, Option.some.injEq, eq_comm (a := n.next)]
      split <;> omega
  | addCas p j e =>
      simp only [exec] at h
      split at h
      · cases h
        exact .inr ⟨pending_pc.le, rfl, .inr ⟨untaken_pc.le, .inl (unlinked_pc.trans_lt one_pos)⟩⟩
      · rename_i hcas
        cases h
        have hne : s.nodesToReclaim ≠ e := fun he => hcas ⟨he, ho⟩
        exact .of_distance rfl rfl rfl rfl rfl (by simp [distance, hne])
  | delete p j =>
      obtain ⟨n, -, h⟩ := Memory.access_eq_ok.mp h
      cases h
      exact .inr ⟨pending_pc.le, rfl, .inr ⟨untaken_pc.le, .inl (unlinked_pc.trans_lt one_pos)⟩⟩
  | exchange k v =>
      simp only [exec] at h
      obtain ⟨q, -, h⟩ := follow_eq_ok h
      cases h
      exact .inr ⟨le_rfl, rfl, .inl Nat.zero_lt_one⟩
  | drain curr k v =>
      cases curr with
      | none =>
          cases h
          exact (hr rfl).elim
      | some p =>
          obtain ⟨n, -, h⟩ := Memory.access_eq_ok.mp h
          obtain ⟨q, -, h⟩ := follow_eq_ok h
          cases h
          exact .of_distance rfl rfl rfl rfl rfl (by simp [distance])
  | clearPtr =>
      obtain ⟨i, -, h⟩ := own_eq_ok h
      cases h
      exact .of_distance rfl rfl rfl rfl rfl (by simp [distance])
  | clearId =>
      obtain ⟨i, -, h⟩ := own_eq_ok h
      cases h
      exact (hr rfl).elim

variable {c d : Config Tid (Shared N Stack Tid Addr A) (PC Stack Addr A)}

/-- A draining loop shortens the chain by one node each round. -/
theorem Drains.chainLength {n : ℕ} (h : Drains movedFrom t c n d)
    (hc : Reach (exec movedFrom) (· = start) c) :
    chainLength d.shared.mem ((d.pc t).rest.map Ptr.addr) + n =
      chainLength c.shared.mem ((c.pc t).rest.map Ptr.addr) := by
  obtain ⟨g, -, hL⟩ := (outline movedFrom).holds hc
  obtain ⟨-, hn, hl⟩ := h.chain hc (hL t).chain
  rw [hl.chainLength_eq, Chain.chainLength_eq (hL t).chain, List.length_drop]
  omega

theorem left_other (hc : Reach (exec movedFrom) (· = start) c) (hu : u ≠ t)
    (h : exec movedFrom t o c.shared (c.pc t) = .ok r) :
    left r.1 (c.pc u) = left c.shared (c.pc u) := by
  have hs := Config.advance_of_ok h
  have hdrains : Drains movedFrom u c 0 _ := .other .zero (fun he => (hu he.symm).elim) hs
  have hlen := hdrains.chainLength hc
  simp only [Function.update_of_ne hu, Nat.add_zero] at hlen
  unfold left
  rw [hlen]

theorem left_self (hc : Reach (exec movedFrom) (· = start) c)
    (h : exec movedFrom t o c.shared (c.pc t) = .ok r) (hx : ∀ k v, c.pc t ≠ .exchange k v) :
    chainLength r.1.mem (r.2.rest.map Ptr.addr) + (c.pc t).picks =
      chainLength c.shared.mem ((c.pc t).rest.map Ptr.addr) := by
  have hs := Config.advance_of_ok h
  have hdrains : Drains movedFrom t c (c.pc t).picks
      ⟨r.1, Function.update c.pc t r.2⟩ := by
    cases hpc : c.pc t with
    | drain curr k v =>
        cases curr with
        | some p => exact .round .zero hpc hs
        | none => exact .other .zero (fun _ k r => ⟨hx k r, by simp [hpc]⟩) hs
    | _ => exact .other .zero (fun _ k r => ⟨hx k r, by simp [hpc]⟩) hs
  have hlen := hdrains.chainLength hc
  simpa only [Function.update_self] using hlen

omit [DecidableEq Stack] [DecidableEq Tid] in
/-- Only the thread which has a node in its hands changes it. -/
theorem Touches.read {m' : Memory Addr (Node Addr A)} {g : Ghost Stack Tid Addr A} {k : Kind}
    (h : Touches N c.shared.mem m' (c.pc t)) (hG : Global c.shared g)
    (hrole : ∀ u a k, g.role a = .own u k ↔ (c.pc u).owned N = some (a, k)) (hu : u ≠ t)
    (hp : (c.pc u).owned N = some (p.addr, k)) : m'.read p = c.shared.mem.read p := by
  have hown : g.role p.addr = .own u k := (hrole u p.addr k).mpr hp
  rcases h with rfl | ⟨a, x, ha, rfl⟩ | ⟨q, k', hq, hm⟩
  · rfl
  · refine Memory.eqOff_alloc.read ?_
    rintro rfl
    rw [(hG.free _).mpr ha] at hown
    cases hown
  · have hne : p.addr ≠ q.addr := by
      intro he
      have hq := (hrole t q.addr k').mpr hq
      rw [← he, hown] at hq
      cases hq
      exact hu rfl
    rcases hm with rfl | ⟨n, rfl⟩
    · exact Memory.eqOff_free.read hne
    · exact Memory.eqOff_write.read hne

theorem distance_other (hc : Reach (exec movedFrom) (· = start) c) (hu : u ≠ t)
    (h : exec movedFrom t o c.shared (c.pc t) = .ok r) (hhead : r.1.head = c.shared.head)
    (hlist : r.1.nodesToReclaim = c.shared.nodesToReclaim) :
    distance r.1 (c.pc u) = distance c.shared (c.pc u) := by
  obtain ⟨g, hG, hL⟩ := (outline movedFrom).holds hc
  have hnext : ∀ p k, (c.pc u).owned N = some (p.addr, k) → next r.1 p = next c.shared p := by
    intro p k hp
    unfold next
    rw [(exec_cases h).1.read hG (fun u => (hL u).owned) hu hp]
  cases hpc : c.pc u with
  | readExpected k v p =>
      simp only [distance, hhead, hnext p .fresh (by rw [hpc]; rfl)]
  | addRead p j =>
      simp only [distance, hlist, hnext p (.popped 0) (by rw [hpc]; rfl)]
  | _ => simp only [distance, hhead, hlist]

theorem ranking (movedFrom : A → A) :
    Ranking (exec movedFrom : Code Tid (Oracle Stack Addr A) (Shared N Stack Tid Addr A)
      (PC Stack Addr A)) (· = start) Strong (· = .idle)
      [fun _ => PC.pending, fun _ => PC.untaken, left, distance] where
  descends := by
    intro c t o r hc ho hpc hx hr
    refine ⟨fun u _ => le_rfl, ?_⟩
    rcases exec_closer hx ho hpc hr with hlt | ⟨hle, hhead, hlt | ⟨hle', hleft⟩⟩
    · exact .inl hlt
    · exact .inr ⟨hle, fun u _ => le_rfl, .inl hlt⟩
    refine .inr ⟨hle, fun u _ => le_rfl, .inr ⟨hle', fun u hu => (left_other hc hu hx).le, ?_⟩⟩
    have hne : ∀ k v, c.pc t ≠ .exchange k v := by
      intro k v he
      rw [he] at hx hle' hleft
      simp only [exec] at hx
      obtain ⟨q, -, hx⟩ := follow_eq_ok hx
      cases hx
      simp [PC.unlinked, PC.picks, distance] at hleft
    have hlen := left_self hc hx hne
    rcases hleft with hlt | ⟨hle'', hlist, hlt⟩
    · refine .inl ?_
      unfold left
      omega
    · refine .inr ⟨?_, fun u hu => (distance_other hc hu hx hhead hlist).le, .inl hlt⟩
      unfold left
      omega

/-- Calls of the stacks with hazard pointers keep returning. -/
theorem hazard_pointer_lock_free [Finite Tid] (movedFrom : A → A) :
    LockFree (exec movedFrom : Code Tid (Oracle Stack Addr A) (Shared N Stack Tid Addr A)
      (PC Stack Addr A)) (· = start) Strong (· = .idle) :=
  (ranking movedFrom).lockFree

theorem hazard_pointer_lock_free_two :
    LockFree (exec id : Code (Fin 2) (Oracle Unit ℕ ℕ) (Shared 2 Unit (Fin 2) ℕ ℕ) (PC Unit ℕ ℕ))
      (· = start) Strong (· = .idle) :=
  hazard_pointer_lock_free id

end CsNotes.HazardPointer
