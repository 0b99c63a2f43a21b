import CsNotes.Lib.Races
import CsNotes.ThreadsafeQueue.Correctness

/-!
# The two locks keep the accesses apart

Nothing in the queue is atomic. `head` goes with the head mutex, `tail` and the
dummy node with the tail mutex, the other nodes of the queue with the head mutex
again, and what is not in the queue belongs to one thread.
-/
namespace CsNotes.ThreadsafeQueue
open Interleaving Storage Races Segment

inductive Field where
  | data
  | next
deriving DecidableEq, Repr

inductive Loc (Addr : Type*) where
  | head
  | tail
  | member (x : Ptr Addr × Field)
deriving DecidableEq, Repr

variable {Tid Addr A : Type*}

/-- What the next step does to `head`, `tail` and the members of nodes. The constructor of a
new node is left out, since nobody else has a pointer to it. -/
def accesses (s : Shared Tid Addr A) : PC Addr A → List (Access (Loc Addr))
  | .emplace _ _ => [.reads .tail, .writes (.member (s.tail, .data))]
  | .linkNext _ _ => [.reads .tail, .writes (.member (s.tail, .next))]
  | .moveTail _ _ => [.writes .tail]
  | .getTail _ => [.reads .tail]
  | .compare _ _ => [.reads .head]
  | .readNext => .reads .head :: s.head.toList.map fun p => .reads (.member (p, .next))
  | .moveHead _ _ => [.writes .head]
  | .takeData old | .destroyData old _ => [.writes (.member (old, .data))]
  | .deleteNode old _ => [.writes (.member (old, .data)), .writes (.member (old, .next))]
  | _ => []

def Node.Agree : Field → Node Addr A → Node Addr A → Prop
  | .data, n, n' => n'.data = n.data
  | .next, n, n' => n'.next = n.next

theorem Node.agree_refl : ∀ (f : Field) (n : Node Addr A), n.Agree f n
  | .data, _ | .next, _ => rfl

/-- What is at a location agrees with what it was. -/
def KeptAt (s s' : Shared Tid Addr A) : Loc Addr → Prop
  | .head => s'.head = s.head
  | .tail => s'.tail = s.tail
  | .member x => Races.Kept Node.Agree s.mem s'.mem x

variable [DecidableEq Tid] [DecidableEq Addr] {movedFrom : A → A}

theorem footprint (movedFrom : A → A) :
    Footprint (exec movedFrom : Code Tid (Oracle Tid Addr A) (Shared Tid Addr A) (PC Addr A))
      accesses KeptAt := by
  intro t o s pc r h x
  have quiet : r.1.mem = s.mem → r.1.head = s.head → r.1.tail = s.tail →
      KeptAt s r.1 x ∨ Changed (accesses s pc) x := by
    intro hm hh ht
    refine .inl ?_
    cases x with
    | head => exact hh
    | tail => exact ht
    | member x =>
        change Races.Kept Node.Agree s.mem r.1.mem x
        exact hm ▸ kept_refl Node.agree_refl s.mem
  have memory : (∀ y, Races.Kept Node.Agree s.mem r.1.mem y ∨
      Changed (accesses s pc) (.member y)) → r.1.head = s.head → r.1.tail = s.tail →
      KeptAt s r.1 x ∨ Changed (accesses s pc) x := by
    intro hm hh ht
    cases x with
    | head => exact .inl hh
    | tail => exact .inl ht
    | member x => exact hm x
  have written : ∀ p n n', s.mem.read p = some n → r.1.mem = s.mem.write p n' →
      (∀ f, n.Agree f n' ∨ Changed (accesses s pc) (.member (p, f))) → r.1.head = s.head →
      r.1.tail = s.tail → KeptAt s r.1 x ∨ Changed (accesses s pc) x := by
    intro p n n' hn hm hf
    refine memory fun y => ?_
    rw [hm]
    exact kept_write (P := fun y => Changed (accesses s pc) (.member y)) Node.agree_refl hn hf
  cases pc with
  | idle =>
      simp only [exec] at h
      split at h <;> cases h <;> exact quiet rfl rfl rfl
  | newNode v =>
      simp only [exec] at h
      split at h <;> cases h
      exact memory (fun y => .inl (kept_alloc Node.agree_refl ‹_›)) rfl rfl
  | lockTail _ _ | lockHead _ | getTailLock _ =>
      simp only [exec] at h
      split at h <;> cases h
      exact quiet rfl rfl rfl
  | emplace v p =>
      obtain ⟨n, hn, h⟩ := Memory.access_eq_ok.mp h
      split at h <;> cases h
      refine written _ n _ hn rfl (fun f => ?_) rfl rfl
      cases f with
      | data => exact .inr ⟨.writes (.member (s.tail, .data)), by simp [accesses], rfl, rfl⟩
      | next => exact .inl rfl
  | linkNext v p =>
      obtain ⟨n, hn, h⟩ := Memory.access_eq_ok.mp h
      cases h
      refine written _ n _ hn rfl (fun f => ?_) rfl rfl
      cases f with
      | data => exact .inl rfl
      | next => exact .inr ⟨.writes (.member (s.tail, .next)), by simp [accesses], rfl, rfl⟩
  | moveTail v p =>
      cases h
      cases x with
      | head => exact .inl rfl
      | tail => exact .inr ⟨_, List.mem_singleton_self _, rfl, rfl⟩
      | member x => exact .inl (kept_refl Node.agree_refl s.mem)
  | unlockTail | getTail _ | getTailUnlock _ _ | returnEmpty | block | unlockHead _ =>
      cases h
      exact quiet rfl rfl rfl
  | notifyOne =>
      simp only [exec] at h
      split at h
      · cases h
        exact quiet rfl rfl rfl
      · split at h <;> cases h
        exact quiet rfl rfl rfl
  | compare k tail =>
      simp only [exec] at h
      split at h
      · split at h <;> cases h <;> exact quiet rfl rfl rfl
      · cases h
        exact quiet rfl rfl rfl
  | blocked =>
      simp only [exec] at h
      split at h <;> split at h <;> cases h <;> exact quiet rfl rfl rfl
  | readNext =>
      simp only [exec] at h
      split at h
      · cases h
      · obtain ⟨n, -, h⟩ := Memory.access_eq_ok.mp h
        cases h
        exact quiet rfl rfl rfl
  | moveHead old next =>
      cases h
      cases x with
      | head => exact .inr ⟨_, List.mem_singleton_self _, rfl, rfl⟩
      | tail => exact .inl rfl
      | member x => exact .inl (kept_refl Node.agree_refl s.mem)
  | takeData old | destroyData old v =>
      obtain ⟨n, hn, h⟩ := Memory.access_eq_ok.mp h
      split at h <;> cases h
      refine written _ n _ hn rfl (fun f => ?_) rfl rfl
      cases f with
      | data => exact .inr ⟨_, List.mem_singleton_self _, rfl, rfl⟩
      | next => exact .inl rfl
  | deleteNode old v =>
      obtain ⟨n, hn, h⟩ := Memory.access_eq_ok.mp h
      split at h <;> cases h
      refine memory (fun y => kept_free (P := fun y => Changed (accesses s (.deleteNode old v))
        (.member y)) Node.agree_refl hn fun f => ?_) rfl rfl
      exact ⟨.writes (.member (old, f)), by cases f <;> simp [accesses], rfl, rfl⟩

/-- What goes with a mutex is open to the thread that holds it. -/
def guardedBy (mutex : Option Tid) : Permission Tid := mutex.elim .readOnly .exclusive

def permission (s : Shared Tid Addr A) (g : Ghost Tid Addr A) : Loc Addr → Permission Tid
  | .head => guardedBy s.headMutex
  | .tail => guardedBy s.tailMutex
  | .member (p, _) =>
      match g.role p.addr with
      | .own t => .exclusive t
      | .queued => guardedBy (if p = s.tail then s.tailMutex else s.headMutex)
      | .free => .readOnly

variable {s : Shared Tid Addr A} {g : Ghost Tid Addr A} {pc : PC Addr A} {t : Tid}
variable {a : Access (Loc Addr)} {p : Ptr Addr} {f : Field}

omit [DecidableEq Tid] in
theorem permission_tail (hG : Global s g) :
    permission s g (.member (s.tail, f)) = guardedBy s.tailMutex := by
  have hr : g.role s.tail.addr = .queued :=
    (hG.queued _).mpr (List.mem_map_of_mem tail_mem_path)
  simp only [permission, hr, if_pos]

omit [DecidableEq Tid] in
theorem permission_node (hG : Global s g) {x : Ptr Addr × A} (hx : x ∈ g.nodes) :
    permission s g (.member (x.1, f)) = guardedBy s.headMutex := by
  have hr : g.role x.1.addr = .queued :=
    (hG.queued _).mpr (List.mem_map_of_mem (mem_path_of_node hx))
  have hne : x.1 ≠ s.tail := fun he => hG.node_ne_tail hx (by rw [he])
  simp only [permission, hr, if_neg hne]

omit [DecidableEq Tid] in
theorem permission_own (hr : g.role p.addr = .own t) :
    permission s g (.member (p, f)) = .exclusive t := by
  simp only [permission, hr]

omit [DecidableEq Tid] [DecidableEq Addr] in
theorem guardedBy_allows {mutex : Option Tid} (h : mutex = some t) :
    (guardedBy mutex).Allows t a := by
  rw [h]
  rfl

theorem Local.allowed (hG : Global s g) (hl : Local s g t pc) (ha : a ∈ accesses s pc) :
    (permission s g a.loc).Allows t a := by
  cases pc with
  | emplace v p | linkNext v p =>
      have ht := hl.tail.mpr trivial
      rcases List.mem_pair.mp ha with rfl | rfl
      · exact guardedBy_allows ht
      · change (permission s g (.member (s.tail, _))).Allows t _
        rw [permission_tail hG]
        exact guardedBy_allows ht
  | moveTail v p | getTail k =>
      cases List.mem_singleton.mp ha
      exact guardedBy_allows (hl.tail.mpr trivial)
  | compare k tail | moveHead old next =>
      cases List.mem_singleton.mp ha
      exact guardedBy_allows (hl.head.mpr trivial)
  | readNext =>
      have hh := hl.head.mpr trivial
      rcases List.mem_cons.mp ha with rfl | ha
      · exact guardedBy_allows hh
      · obtain ⟨p, hp, rfl⟩ := List.mem_map.mp ha
        obtain ⟨x, rest, hnodes⟩ := List.exists_cons_of_ne_nil hl.facts.1
        have hseg := hG.seg
        rw [hnodes] at hseg
        obtain ⟨next, ⟨hx, -⟩, -⟩ := hseg
        obtain rfl : p = x.1 := by simpa [hx, eq_comm] using hp
        change (permission s g (.member (x.1, _))).Allows t _
        rw [permission_node hG (by simp [hnodes])]
        exact guardedBy_allows hh
  | takeData old | destroyData old v =>
      cases List.mem_singleton.mp ha
      change (permission s g (.member (old, _))).Allows t _
      rw [permission_own ((hl.owned _).mpr rfl)]
      rfl
  | deleteNode old v =>
      have hr : g.role old.addr = .own t := (hl.owned _).mpr rfl
      rcases List.mem_pair.mp ha with rfl | rfl
      all_goals
        change (permission s g (.member (old, _))).Allows t _
        rw [permission_own hr]
        rfl
  | _ => cases ha

/-- No data race is reachable. -/
theorem threadsafe_queue_race_free {c : Config Tid (Shared Tid Addr A) (PC Addr A)}
    (hc : Reach (exec movedFrom) (fun c => ∃ a, c = start a) c) : RaceFree accesses c := by
  obtain ⟨g, hG, hL⟩ := (outline movedFrom).holds hc
  exact Permission.raceFree (permission c.shared g) fun t a => (hL t).allowed hG

theorem threadsafe_queue_race_free_sample : ∃ d,
    Config.run (exec id) (sample.take 12) (start 0) = .ok d ∧ RaceFree accesses d :=
  ⟨_, rfl, threadsafe_queue_race_free (ReachIf.run (.start ⟨0, rfl⟩)
    (rfl : Config.run (exec id) (sample.take 12) (start 0) = .ok _))⟩

end CsNotes.ThreadsafeQueue
