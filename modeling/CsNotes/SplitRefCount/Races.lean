import CsNotes.Lib.Races
import CsNotes.SplitRefCount.Correctness

/-!
# The stack with split reference counts has no data races

The internal count is atomic, the other members of a node are not. While a node
has readers its `next` is only read, its value is touched by the thread that
popped it only, and it is deleted when it has none.
-/
namespace CsNotes.SplitRefCount
open Interleaving Storage Races

inductive Field where
  | data
  | next
  | internalCount
deriving DecidableEq, Repr

variable {Tid Addr A : Type*}

/-- What the next step does to the members of nodes. The constructor of a new node is
left out, since nobody else has a pointer to it. -/
def accesses (_ : Shared Tid Addr A) : PC Addr A → List (Access (Ptr Addr × Field))
  | .loadNext _ p | .pushCas _ p => [.writes (p, .next)]
  | .readNext _ p => [.reads (p, .next)]
  | .takeData _ p => [.writes (p, .data)]
  | .addCount _ p _ | .subCount _ p => [.updates (p, .internalCount)]
  | .deleteTaken p _ | .deleteReleased _ p =>
      [.writes (p, .data), .writes (p, .next), .writes (p, .internalCount)]
  | _ => []

def Node.Agree : Field → Node Addr A → Node Addr A → Prop
  | .data, n, n' => n'.data = n.data
  | .next, n, n' => n'.next = n.next
  | .internalCount, n, n' => n'.internalCount = n.internalCount

theorem Node.agree_refl : ∀ (f : Field) (n : Node Addr A), n.Agree f n
  | .data, _ | .next, _ | .internalCount, _ => rfl

variable [DecidableEq Tid] [DecidableEq Addr] {movedFrom : A → A}

theorem footprint (movedFrom : A → A) :
    Footprint (exec movedFrom : Code Tid (Oracle Addr A) (Shared Tid Addr A) (PC Addr A)) accesses
      (fun s s' => Races.Kept Node.Agree s.mem s'.mem) := by
  intro t o s pc r h x
  have quiet : r.1.mem = s.mem →
      Races.Kept Node.Agree s.mem r.1.mem x ∨ Changed (accesses s pc) x :=
    fun he => .inl (he ▸ kept_refl Node.agree_refl s.mem)
  cases pc with
  | idle =>
      simp only [exec] at h
      split at h <;> cases h <;> exact quiet rfl
  | newNode v =>
      simp only [exec] at h
      split at h <;> cases h
      exact .inl (kept_alloc Node.agree_refl ‹_›)
  | loadNext v p =>
      obtain ⟨n, hn, h⟩ := Memory.access_eq_ok.mp h
      cases h
      refine kept_write Node.agree_refl hn fun f => ?_
      cases f with
      | data | internalCount => exact .inl rfl
      | next => exact .inr ⟨_, List.mem_singleton_self _, rfl, rfl⟩
  | pushCas v p =>
      obtain ⟨n, hn, h⟩ := Memory.access_eq_ok.mp h
      split at h <;> cases h
      · exact quiet rfl
      · refine kept_write Node.agree_refl hn fun f => ?_
        cases f with
        | data | internalCount => exact .inl rfl
        | next => exact .inr ⟨_, List.mem_singleton_self _, rfl, rfl⟩
  | takeData old p =>
      obtain ⟨n, hn, h⟩ := Memory.access_eq_ok.mp h
      cases h
      refine kept_write Node.agree_refl hn fun f => ?_
      cases f with
      | data => exact .inr ⟨_, List.mem_singleton_self _, rfl, rfl⟩
      | next | internalCount => exact .inl rfl
  | addCount old p v | subCount old p =>
      obtain ⟨n, hn, h⟩ := Memory.access_eq_ok.mp h
      simp only at h
      split at h <;> cases h
      all_goals
        refine kept_write Node.agree_refl hn fun f => ?_
        cases f with
        | data | next => exact .inl rfl
        | internalCount => exact .inr ⟨_, List.mem_singleton_self _, rfl, rfl⟩
  | deleteTaken p v | deleteReleased old p =>
      obtain ⟨n, hn, h⟩ := Memory.access_eq_ok.mp h
      cases h
      refine kept_free Node.agree_refl hn fun f => ?_
      exact ⟨.writes (p, f), by cases f <;> simp [accesses], rfl, rfl⟩
  | loadHead =>
      cases h
      exact quiet rfl
  | count old =>
      simp only [exec] at h
      split at h
      · split at h
        · cases h
          exact quiet rfl
        · split at h <;> cases h
          exact quiet rfl
      · cases h
        exact quiet rfl
  | readNext old p =>
      obtain ⟨n, -, h⟩ := Memory.access_eq_ok.mp h
      cases h
      exact quiet rfl
  | unlink old p next =>
      simp only [exec] at h
      split at h <;> cases h <;> exact quiet rfl

/-- Who may access the members of a node at this stage, and how. -/
def Role.permission : Role Tid → Field → Permission Tid
  | .own t .fresh, _ | .own t .dying, _ | .own t (.popped _), .data => .exclusive t
  | _, .internalCount => .atomicOnly
  | _, _ => .readOnly

variable {c : Config Tid (Shared Tid Addr A) (PC Addr A)} {g : Ghost Tid Addr A} {t : Tid}

omit [DecidableEq Tid] [DecidableEq Addr] in
/-- A node with readers is not in the hands of a thread that writes its `next`. -/
theorem permission_of_reader (hG : Global c.shared g) {p : Ptr Addr} {n : Node Addr A}
    (hn : c.shared.mem.read p = some n) (ht : t ∈ g.readers p.addr) :
    (g.role p.addr).permission .next = .readOnly ∧
      (g.role p.addr).permission .internalCount = .atomicOnly := by
  have hpos : ((g.readers p.addr).card : ℤ) ≠ 0 := by
    exact_mod_cast (Finset.card_pos.mpr ⟨t, ht⟩).ne'
  have hbalance := hG.balance p n hn
  cases hr : g.role p.addr with
  | free | linked | retired => exact ⟨rfl, rfl⟩
  | own u k =>
      rw [hr] at hbalance
      cases k with
      | fresh => exact (hpos hbalance.1).elim
      | dying => exact (hpos hbalance).elim
      | popped e => exact ⟨rfl, rfl⟩

omit [DecidableEq Addr] in
theorem allowed (hG : Global c.shared g) (hL : ∀ u, Local c.shared g u (c.pc u)) {t : Tid}
    {a : Access (Ptr Addr × Field)} (ha : a ∈ accesses c.shared (c.pc t)) :
    ((g.role a.loc.1.addr).permission a.loc.2).Allows t a := by
  have hl := hL t
  cases hpc : c.pc t with
  | loadNext v p | pushCas v p =>
      rw [hpc] at ha hl
      cases List.mem_singleton.mp ha
      have hr : g.role p.addr = .own t .fresh := (hl.owned _ _).mpr rfl
      change ((g.role p.addr).permission .next).Allows t _
      rw [hr]
      rfl
  | takeData old p =>
      rw [hpc] at ha hl
      cases List.mem_singleton.mp ha
      have hr : g.role p.addr = .own t (.popped old.externalCount) := (hl.owned _ _).mpr rfl
      change ((g.role p.addr).permission .data).Allows t _
      rw [hr]
      rfl
  | addCount old p v =>
      rw [hpc] at ha hl
      cases List.mem_singleton.mp ha
      have hr : g.role p.addr = .own t (.popped old.externalCount) := (hl.owned _ _).mpr rfl
      change ((g.role p.addr).permission .internalCount).Allows t _
      rw [hr]
      rfl
  | deleteTaken p v | deleteReleased old p =>
      rw [hpc] at ha hl
      have hr : g.role p.addr = .own t .dying := (hl.owned _ _).mpr rfl
      have hloc : a.loc.1 = p := by
        simp only [accesses, List.mem_cons, List.not_mem_nil, or_false] at ha
        rcases ha with rfl | rfl | rfl <;> rfl
      rw [hloc, hr]
      rfl
  | readNext old p =>
      rw [hpc] at ha hl
      cases List.mem_singleton.mp ha
      obtain ⟨⟨n, hn⟩, -⟩ := hl.facts
      change ((g.role p.addr).permission .next).Allows t _
      rw [(permission_of_reader hG hn ((hl.counted _).mpr rfl)).1]
      rfl
  | subCount old p =>
      rw [hpc] at ha hl
      cases List.mem_singleton.mp ha
      obtain ⟨⟨n, hn⟩, -⟩ := hl.facts
      change ((g.role p.addr).permission .internalCount).Allows t _
      rw [(permission_of_reader hG hn ((hl.counted _).mpr rfl)).2]
      rfl
  | _ =>
      rw [hpc] at ha
      cases ha

/-- No data race is reachable. -/
theorem split_ref_count_race_free (hc : Reach (exec movedFrom) (· = start) c) :
    RaceFree accesses c := by
  obtain ⟨g, hG, hL⟩ := (outline movedFrom).holds hc
  exact Permission.raceFree (fun x => (g.role x.1.addr).permission x.2) fun t a ha =>
    allowed hG hL ha

/-- Two threads are counted in on the node. -/
theorem split_ref_count_race_free_sample : ∃ d,
    Config.run (exec id) (sample.take 12) start = .ok d ∧ RaceFree accesses d :=
  ⟨_, rfl, split_ref_count_race_free (ReachIf.run (.start rfl)
    (rfl : Config.run (exec id) (sample.take 12) start = .ok _))⟩

end CsNotes.SplitRefCount
