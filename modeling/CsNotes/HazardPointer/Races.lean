import CsNotes.Lib.Races
import CsNotes.HazardPointer.Correctness

/-!
# The data race of the stacks with hazard pointers

The members of a node are not atomic. A hazard pointer keeps a node alive for a
thread which is about to read its `next`, and the thread which has popped the
node meanwhile finds the hazard and writes the same `next` when it adds the node
to the reclaim list. No other accesses are in each other's way.
-/
namespace CsNotes.HazardPointer
open Interleaving Storage Races

inductive Field where
  | data
  | next
deriving DecidableEq, Repr

variable {N : ℕ} {Stack Tid Addr A : Type*}

/-- What the next step does to the members of nodes. The constructor of a new node is
left out, since nobody else has a pointer to it. -/
def accesses (_ : Shared N Stack Tid Addr A) : PC Stack Addr A → List (Access (Ptr Addr × Field))
  | .storeNext _ _ p _ | .addStore p _ _ => [.writes (p, .next)]
  | .readExpected _ _ p | .readNext _ p | .addRead p _ | .drain (some p) _ _ => [.reads (p, .next)]
  | .takeData _ p => [.writes (p, .data)]
  | .delete p _ => [.writes (p, .data), .writes (p, .next)]
  | _ => []

def Node.Agree : Field → Node Addr A → Node Addr A → Prop
  | .data, n, n' => n'.data = n.data
  | .next, n, n' => n'.next = n.next

theorem Node.agree_refl : ∀ (f : Field) (n : Node Addr A), n.Agree f n
  | .data, _ | .next, _ => rfl

variable [DecidableEq Stack] [DecidableEq Tid] [DecidableEq Addr] {movedFrom : A → A}

theorem footprint (movedFrom : A → A) :
    Footprint (exec movedFrom : Code Tid (Oracle Stack Addr A) (Shared N Stack Tid Addr A)
      (PC Stack Addr A)) accesses (fun s s' => Races.Kept Node.Agree s.mem s'.mem) := by
  intro t o s pc r h x
  have quiet : r.1.mem = s.mem →
      Races.Kept Node.Agree s.mem r.1.mem x ∨ Changed (accesses s pc) x :=
    fun he => .inl (he ▸ kept_refl Node.agree_refl s.mem)
  cases pc with
  | idle =>
      simp only [exec] at h
      split at h
      · cases h
        exact quiet rfl
      · cases h
        exact quiet rfl
      · split at h <;> cases h <;> exact quiet rfl
  | newNode k v =>
      simp only [exec] at h
      split at h <;> cases h
      exact .inl (kept_alloc Node.agree_refl ‹_›)
  | loadNext _ _ _ | addLoad _ _ =>
      cases h
      exact quiet rfl
  | storeNext _ _ p _ | addStore p _ _ =>
      obtain ⟨n, hn, h⟩ := Memory.access_eq_ok.mp h
      cases h
      refine kept_write Node.agree_refl hn fun f => ?_
      cases f with
      | data => exact .inl rfl
      | next => exact .inr ⟨_, List.mem_singleton_self _, rfl, rfl⟩
  | takeData _ p =>
      obtain ⟨n, hn, h⟩ := Memory.access_eq_ok.mp h
      cases h
      refine kept_write Node.agree_refl hn fun f => ?_
      cases f with
      | data => exact .inr ⟨_, List.mem_singleton_self _, rfl, rfl⟩
      | next => exact .inl rfl
  | delete p j =>
      obtain ⟨n, hn, h⟩ := Memory.access_eq_ok.mp h
      cases h
      refine kept_free Node.agree_refl hn fun f => ?_
      cases f with
      | data => exact ⟨.writes (p, .data), by simp [accesses], rfl, rfl⟩
      | next => exact ⟨.writes (p, .next), by simp [accesses], rfl, rfl⟩
  | readExpected _ _ _ | readNext _ _ | addRead _ _ =>
      obtain ⟨n, -, h⟩ := Memory.access_eq_ok.mp h
      cases h
      exact quiet rfl
  | pushCas _ _ _ _ | loadHead _ | popCas _ _ _ | addCas _ _ _ =>
      simp only [exec] at h
      split at h <;> cases h <;> exact quiet rfl
  | acquire _ _ _ | scan _ _ _ =>
      simp only [exec] at h
      split at h
      · split at h <;> cases h <;> exact quiet rfl
      · cases h
        exact quiet rfl
  | setHazard _ _ | clearPtr | clearId =>
      obtain ⟨i, -, h⟩ := own_eq_ok h
      cases h
      exact quiet rfl
  | reload k old =>
      simp only [exec] at h
      split at h
      · obtain ⟨q, -, h⟩ := follow_eq_ok h
        cases q <;> cases h <;> exact quiet rfl
      · cases h
        exact quiet rfl
  | clear _ q =>
      obtain ⟨i, -, h⟩ := own_eq_ok h
      cases h
      exact quiet rfl
  | exchange k v =>
      simp only [exec] at h
      obtain ⟨q, -, h⟩ := follow_eq_ok h
      cases h
      exact quiet rfl
  | drain curr k v =>
      cases curr with
      | none =>
          cases h
          exact quiet rfl
      | some p =>
          obtain ⟨n, -, h⟩ := Memory.access_eq_ok.mp h
          obtain ⟨q, -, h⟩ := follow_eq_ok h
          cases h
          exact quiet rfl

variable {s : Shared N Stack Tid Addr A} {pc : PC Stack Addr A} {a : Access (Ptr Addr × Field)}
variable {c : Config Tid (Shared N Stack Tid Addr A) (PC Stack Addr A)}
variable {g : Ghost Stack Tid Addr A} {t u : Tid}

/-- `t` writes the `next` of a node for the reclaim list, and `u` is about to read it. -/
def Clash (t u : Tid) (c : Config Tid (Shared N Stack Tid Addr A) (PC Stack Addr A)) : Prop :=
  ∃ p j h k, c.pc t = .addStore p j h ∧ c.pc u = .readNext k p

omit [DecidableEq Stack] [DecidableEq Tid] [DecidableEq Addr] in
/-- Only the thread which has a node in its hands writes to it. -/
theorem owned_of_write (ha : a ∈ accesses s pc) (hw : a.isWrite = true) :
    ∃ k, pc.owned N = some (a.loc.1.addr, k) := by
  cases pc with
  | storeNext _ _ _ _ | addStore _ _ _ | takeData _ _ =>
      cases List.mem_singleton.mp ha
      exact ⟨_, rfl⟩
  | delete p j =>
      rcases List.mem_pair.mp ha with rfl | rfl <;> exact ⟨_, rfl⟩
  | readExpected _ _ _ | readNext _ _ | addRead _ _ =>
      cases List.mem_singleton.mp ha
      cases hw
  | drain curr _ _ =>
      cases curr with
      | none => cases ha
      | some p =>
          cases List.mem_singleton.mp ha
          cases hw
  | _ => cases ha

omit [DecidableEq Addr] in
theorem readNext_of_owned (hL : ∀ t, Local c.shared g t (c.pc t)) (htu : t ≠ u) {k : Kind}
    (ha : a ∈ accesses c.shared (c.pc u)) (hr : g.role a.loc.1.addr = .own t k) :
    ∃ j p, c.pc u = .readNext j p ∧ a = .reads (p, .next) := by
  have howned : ∀ k', (c.pc u).owned N ≠ some (a.loc.1.addr, k') := by
    intro k' hk
    have hu := ((hL u).owned _ _).mpr hk
    rw [hr] at hu
    cases hu
    exact htu rfl
  cases hpc : c.pc u with
  | readNext j p =>
      rw [hpc] at ha
      exact ⟨j, p, rfl, List.mem_singleton.mp ha⟩
  | drain curr j r =>
      rw [hpc] at ha
      cases curr with
      | none => cases ha
      | some p =>
          cases List.mem_singleton.mp ha
          have hchained := (hL u).role_rest (p := p) (by rw [hpc]; rfl)
          exact nomatch hr.symm.trans hchained
  | storeNext _ _ _ _ | addStore _ _ _ | takeData _ _ | readExpected _ _ _ | addRead _ _ =>
      rw [hpc] at ha howned
      cases List.mem_singleton.mp ha
      exact (howned _ rfl).elim
  | delete p j =>
      rw [hpc] at ha howned
      rcases List.mem_pair.mp ha with rfl | rfl <;> exact (howned _ rfl).elim
  | _ =>
      rw [hpc] at ha
      cases ha

omit [DecidableEq Addr] in
theorem clash_of_conflict (hL : ∀ t, Local c.shared g t (c.pc t)) (htu : t ≠ u)
    {x y : Access (Ptr Addr × Field)} (hx : x ∈ accesses c.shared (c.pc t))
    (hy : y ∈ accesses c.shared (c.pc u)) (hloc : x.loc = y.loc) (hw : x.isWrite = true) :
    Clash t u c := by
  obtain ⟨k, hk⟩ := owned_of_write hx hw
  have hr := ((hL t).owned _ _).mpr hk
  rw [hloc] at hr
  obtain ⟨j, p, hpc, rfl⟩ := readNext_of_owned hL htu hy hr
  have hf := (hL u).facts
  rw [hpc] at hf
  obtain ⟨⟨i, n, -, -, hprot⟩, -⟩ := hf
  have hr : g.role p.addr = .own t k := hr
  rw [hr] at hprot
  cases hpt : c.pc t with
  | addStore q j' h =>
      rw [hpt] at hx
      cases List.mem_singleton.mp hx
      cases hloc
      exact ⟨p, j', h, j, hpt, hpc⟩
  | storeNext _ _ q _ =>
      rw [hpt] at hk
      obtain rfl : Kind.fresh = k := congrArg Prod.snd (Option.some.inj hk)
      exact hprot.elim
  | delete q j' =>
      -- The scan has passed the slot of `u`, and did not find the node there.
      rw [hpt] at hk
      obtain rfl : Kind.popped N = k := congrArg Prod.snd (Option.some.inj hk)
      exact (Nat.not_le_of_lt i.isLt hprot).elim
  | takeData _ q =>
      rw [hpt] at hx
      cases List.mem_singleton.mp hx
      cases hloc
  | readExpected _ _ _ | readNext _ _ | addRead _ _ =>
      rw [hpt] at hx
      cases List.mem_singleton.mp hx
      cases hw
  | drain curr _ _ =>
      rw [hpt] at hx
      cases curr with
      | none => cases hx
      | some q =>
          cases List.mem_singleton.mp hx
          cases hw
  | _ =>
      rw [hpt] at hx
      cases hx

omit [DecidableEq Stack] [DecidableEq Tid] [DecidableEq Addr] in
theorem Clash.race (h : Clash t u c) : Race accesses c t u := by
  obtain ⟨p, j, h, k, ht, hu⟩ := h
  refine ⟨?_, .writes (p, .next), ?_, .reads (p, .next), ?_, rfl, .inl rfl, fun h => ?_⟩
  · rintro rfl
    exact nomatch ht.symm.trans hu
  · rw [ht]
    exact List.mem_singleton_self _
  · rw [hu]
    exact List.mem_singleton_self _
  · cases h.1

/-- Exactly these accesses race. -/
theorem hazard_races (hc : Reach (exec movedFrom) (· = start) c) (t u : Tid) :
    Race accesses c t u ↔ Clash t u c ∨ Clash u t c := by
  obtain ⟨g, -, hL⟩ := (outline movedFrom).holds hc
  constructor
  · rintro ⟨htu, x, hx, y, hy, hloc, hw, -⟩
    rcases hw with hw | hw
    · exact .inl (clash_of_conflict hL htu hx hy hloc hw)
    · exact .inr (clash_of_conflict hL htu.symm hy hx hloc.symm hw)
  · rintro (h | h)
    · exact h.race
    · exact h.race.symm

/-- In the sample run they do. -/
theorem hazard_races_sample : ∃ d : Config ℕ (Shared 2 Unit ℕ ℕ ℕ) (PC Unit ℕ ℕ),
    Config.run (exec id) (sample.take 23) start = .ok d ∧ Race accesses d 0 1 :=
  ⟨_, rfl, (hazard_races (ReachIf.run (.start rfl)
    (rfl : Config.run (exec id) (sample.take 23) start = .ok _)) 0 1).mpr
    (.inl ⟨_, _, _, _, rfl, rfl⟩)⟩

end CsNotes.HazardPointer
