import CsNotes.Lib.Scan
import CsNotes.HazardPointer.Correctness

/-!
# The slots

What the constructor and destructor of `hp_owner` do to the array of hazard
pointers. A constructor that finds a slot taken leaves its owner behind, so with
no more threads than slots it never runs out of them.
-/
namespace CsNotes.HazardPointer
open Interleaving Storage History Scan

variable {N : ℕ} {Stack Tid Addr A : Type*} [DecidableEq Stack] [DecidableEq Tid] [DecidableEq Addr]
variable {movedFrom : A → A} {o : Oracle Stack Addr A} {t : Tid} {pc : PC Stack Addr A}
variable {s : Shared N Stack Tid Addr A} {r : Shared N Stack Tid Addr A × PC Stack Addr A}
variable {c d : Config Tid (Shared N Stack Tid Addr A) (PC Stack Addr A)}

/-- Not in the constructor, and not at the last store of the destructor. -/
def PC.Plain : PC Stack Addr A → Prop
  | acquire _ _ _ | clearId => False
  | _ => True

/-- What a step does to the slots and to the thread's `hp_owner`. -/
inductive SlotStep (s : Shared N Stack Tid Addr A) (t : Tid) (pc : PC Stack Addr A) :
    Shared N Stack Tid Addr A × PC Stack Addr A → Prop
  | plain {r : Shared N Stack Tid Addr A × PC Stack Addr A} : r.1.hazard = s.hazard →
      r.1.slots = s.slots → r.2.Plain → SlotStep s t pc r
  | use {r : Shared N Stack Tid Addr A × PC Stack Addr A} {i : Fin N} (p : Option Addr) :
      s.hazard t = some i → r.1.hazard = s.hazard →
      r.1.slots = Function.update s.slots i { s.slots i with ptr := p } → r.2.Plain →
      SlotStep s t pc r
  | enter {k : Stack} {old : Option Addr} : s.hazard t = none →
      SlotStep s t pc (s, .acquire k old 0)
  | take {k : Stack} {old : Option Addr} {i : Fin N} : pc = .acquire k old i →
      (s.slots i).id = none →
      SlotStep s t pc ({ s.setSlot i { s.slots i with id := some t } with
        hazard := Function.update s.hazard t (some i) }, .setHazard k old)
  | skip {k : Stack} {old : Option Addr} {i : Fin N} : pc = .acquire k old i →
      (s.slots i).id ≠ none → SlotStep s t pc (s, .acquire k old (i + 1))
  | throws {k : Stack} {old : Option Addr} {i : ℕ} : pc = .acquire k old i → N ≤ i →
      SlotStep s t pc (s, .idle)
  | clear {i : Fin N} : s.hazard t = some i →
      SlotStep s t pc (s.setSlot i { s.slots i with ptr := none }, .clearId)
  | leave {i : Fin N} : pc = .clearId → s.hazard t = some i →
      SlotStep s t pc ({ s.setSlot i { s.slots i with id := none } with
        hazard := Function.update s.hazard t none }, .idle)

omit [DecidableEq Stack] [DecidableEq Tid] [DecidableEq Addr] in
theorem After.plain (j : After Stack Addr A) : j.pc.Plain := by
  cases j <;> exact trivial

theorem exec_slots (h : exec movedFrom t o s pc = .ok r) : SlotStep s t pc r := by
  cases pc with
  | idle =>
      simp only [exec] at h
      split at h
      · cases h
        exact .plain rfl rfl trivial
      · cases h
        exact .plain rfl rfl trivial
      · split at h <;> cases h <;> exact .plain rfl rfl trivial
  | newNode _ _ =>
      simp only [exec] at h
      split at h <;> cases h
      exact .plain rfl rfl trivial
  | loadNext _ _ _ | addLoad _ _ =>
      cases h
      exact .plain rfl rfl trivial
  | storeNext _ _ _ _ | takeData _ _ | addStore _ _ _ | readExpected _ _ _ | readNext _ _
  | addRead _ _ =>
      obtain ⟨n, -, h⟩ := Memory.access_eq_ok.mp h
      cases h
      exact .plain rfl rfl trivial
  | pushCas _ _ _ _ | popCas _ _ _ =>
      simp only [exec] at h
      split at h <;> cases h <;> exact .plain rfl rfl trivial
  | loadHead k =>
      simp only [exec] at h
      split at h <;> cases h
      · exact .enter ‹_›
      · exact .plain rfl rfl trivial
  | acquire k old i =>
      simp only [exec] at h
      split at h
      · rename_i hi
        split at h <;> cases h
        · exact .take (i := ⟨i, hi⟩) rfl ‹_›
        · exact .skip (i := ⟨i, hi⟩) rfl ‹_›
      · cases h
        exact .throws rfl (by omega)
  | setHazard k old =>
      obtain ⟨i, hi, h⟩ := own_eq_ok h
      cases h
      exact .use old hi rfl rfl trivial
  | reload k old =>
      simp only [exec] at h
      split at h
      · obtain ⟨q, -, h⟩ := follow_eq_ok h
        cases q <;> cases h <;> exact .plain rfl rfl trivial
      · cases h
        exact .plain rfl rfl trivial
  | clear _ q =>
      obtain ⟨i, hi, h⟩ := own_eq_ok h
      cases h
      cases q <;> exact .use none hi rfl rfl trivial
  | scan _ _ _ =>
      simp only [exec] at h
      split at h
      · split at h <;> cases h <;> exact .plain rfl rfl trivial
      · cases h
        exact .plain rfl rfl trivial
  | addCas p j _ =>
      simp only [exec] at h
      split at h <;> cases h
      · exact .plain rfl rfl j.plain
      · exact .plain rfl rfl trivial
  | delete p j =>
      obtain ⟨n, -, h⟩ := Memory.access_eq_ok.mp h
      cases h
      exact .plain rfl rfl j.plain
  | exchange _ _ =>
      simp only [exec] at h
      obtain ⟨q, -, h⟩ := follow_eq_ok h
      cases h
      exact .plain rfl rfl trivial
  | drain curr _ _ =>
      cases curr with
      | none =>
          cases h
          exact .plain rfl rfl trivial
      | some p =>
          obtain ⟨n, -, h⟩ := Memory.access_eq_ok.mp h
          obtain ⟨q, -, h⟩ := follow_eq_ok h
          cases h
          exact .plain rfl rfl trivial
  | clearPtr =>
      obtain ⟨i, hi, h⟩ := own_eq_ok h
      cases h
      exact .clear hi
  | clearId =>
      obtain ⟨i, hi, h⟩ := own_eq_ok h
      cases h
      exact .leave rfl hi

omit [DecidableEq Stack] [DecidableEq Addr] in
theorem SlotStep.hazard_of_ne (hs : SlotStep s t pc r) {u : Tid} (hu : u ≠ t) :
    r.1.hazard u = s.hazard u := by
  cases hs with
  | plain h _ _ | use _ _ h _ _ => rw [h]
  | take _ _ | leave _ _ => exact Function.update_of_ne hu _ _
  | _ => rfl

/-- A pointer is only in a slot whose owner is not about to give it up. -/
def Clean (c : Config Tid (Shared N Stack Tid Addr A) (PC Stack Addr A)) : Prop :=
  ∀ i, (c.shared.slots i).ptr ≠ none → ∃ t, c.shared.hazard t = some i ∧ c.pc t ≠ .clearId

omit [DecidableEq Stack] [DecidableEq Addr] in
theorem Clean.step {g : Ghost Stack Tid Addr A} (h : Clean c) (hG : Global c.shared g)
    (ha : ∀ k old i, c.pc t = .acquire k old i → c.shared.hazard t = none)
    (hs : SlotStep c.shared t (c.pc t) r) : Clean ⟨r.1, Function.update c.pc t r.2⟩ := by
  have other : ∀ j, (c.shared.slots j).ptr ≠ none →
      (c.shared.hazard t = some j → c.pc t = .clearId) →
      ∃ u, r.1.hazard u = some j ∧ Function.update c.pc t r.2 u ≠ .clearId := by
    intro j hj ht
    obtain ⟨u, hu, hpc⟩ := h j hj
    have hut : u ≠ t := by
      rintro rfl
      exact hpc (ht hu)
    exact ⟨u, (hs.hazard_of_ne hut).trans hu, by rwa [Function.update_of_ne hut]⟩
  have self : ∀ j, r.1.hazard t = some j → r.2.Plain →
      ∃ u, r.1.hazard u = some j ∧ Function.update c.pc t r.2 u ≠ .clearId := by
    intro j hj hp
    refine ⟨t, hj, ?_⟩
    rw [Function.update_self]
    intro he
    rw [he] at hp
    exact hp
  intro j hj
  cases hs with
  | plain hh hsl hp =>
      by_cases ht : c.shared.hazard t = some j
      · exact self j (hh ▸ ht) hp
      · exact other j (hsl ▸ hj) fun h' => (ht h').elim
  | @use _ i p hi hh hsl hp =>
      by_cases hij : j = i
      · subst hij
        exact self j (hh ▸ hi) hp
      · refine other j ?_ fun h' => (hij (Option.some.inj (h'.symm.trans hi))).elim
        simpa only [hsl, Function.update_of_ne hij] using hj
  | enter hn => exact other j hj fun h' => by simp [hn] at h'
  | @take k old i hpc hid =>
      by_cases hij : j = i
      · subst hij
        obtain ⟨u, hu, -⟩ := h j (by simpa [Shared.setSlot] using hj)
        rw [(hG.owner u j).mp hu] at hid
        cases hid
      · refine other j (by simpa [Shared.setSlot, hij] using hj) fun h' => ?_
        rw [ha _ _ _ hpc] at h'
        cases h'
  | skip hpc _ | throws hpc _ =>
      refine other j hj fun h' => ?_
      rw [ha _ _ _ hpc] at h'
      cases h'
  | @clear i hi =>
      by_cases hij : j = i
      · subst hij
        simp [Shared.setSlot] at hj
      · refine other j (by simpa [Shared.setSlot, hij] using hj) fun h' => ?_
        exact (hij (Option.some.inj (h'.symm.trans hi))).elim
  | @leave i hpc hi =>
      refine other j ?_ fun _ => hpc
      by_cases hij : j = i
      · subst hij
        simpa [Shared.setSlot] using hj
      · simpa [Shared.setSlot, hij] using hj

/-- The slot which the constructor looks at next. -/
def PC.looksAt : PC Stack Addr A → Option ℕ
  | acquire _ _ i => some i
  | _ => none

/-- The slot a thread has, or the one its constructor looks at. -/
def PC.position (pc : PC Stack Addr A) : Option (Fin N) → Option ℕ
  | some i => some i
  | none => pc.looksAt

def position (c : Config Tid (Shared N Stack Tid Addr A) (PC Stack Addr A)) (t : Tid) : Option ℕ :=
  (c.pc t).position (c.shared.hazard t)

/-- The threads between the start of the constructor and the end of the destructor. -/
def owners (c : Config Tid (Shared N Stack Tid Addr A) (PC Stack Addr A)) : Set Tid :=
  {t | c.shared.hazard t ≠ none ∨ ∃ k old i, c.pc t = .acquire k old i}

omit [DecidableEq Stack] [DecidableEq Tid] [DecidableEq Addr] in
theorem beyond_position : beyond (position c) 0 = owners c := by
  ext t
  unfold beyond owners position
  rw [Set.mem_ofPred_eq, Set.mem_ofPred_eq]
  cases c.shared.hazard t with
  | some i => simp [PC.position]
  | none => cases c.pc t <;> simp [PC.position, PC.looksAt]

omit [DecidableEq Stack] [DecidableEq Tid] [DecidableEq Addr] in
theorem PC.Plain.looksAt {pc : PC Stack Addr A} (h : pc.Plain) : pc.looksAt = none := by
  cases pc with
  | acquire _ _ _ => exact h.elim
  | _ => rfl

omit [DecidableEq Stack] [DecidableEq Addr] in
theorem packed_step {g : Ghost Stack Tid Addr A} (h : Packed N (position c))
    (hN : (owners c).encard ≤ N) (hG : Global c.shared g)
    (ha : ∀ k old i, c.pc t = .acquire k old i → c.shared.hazard t = none)
    (hs : SlotStep c.shared t (c.pc t) r) :
    Packed N (position ⟨r.1, Function.update c.pc t r.2⟩) := by
  have keeps : ∀ u, u ≠ t → position ⟨r.1, Function.update c.pc t r.2⟩ u = position c u := by
    intro u hu
    simp only [position, hs.hazard_of_ne hu, Function.update_of_ne hu]
  have stays : (∀ p, r.2.position (r.1.hazard t) = some p → p = 0 ∨ position c t = some p) →
      Packed N (position ⟨r.1, Function.update c.pc t r.2⟩) := by
    intro ht
    apply h.mono
    intro u p hu
    by_cases hut : u = t
    · subst hut
      exact ht p (by simpa only [position, Function.update_self] using hu)
    · exact Or.inr ((keeps u hut).symm.trans hu)
  cases hs with
  | plain hh _ hp | use _ _ hh _ hp =>
      apply stays
      intro p hpos
      rw [hh] at hpos
      unfold position
      cases hz : c.shared.hazard t with
      | none => simp [hz, PC.position, hp.looksAt] at hpos
      | some i => exact Or.inr (by simpa [hz, PC.position] using hpos)
  | enter hn =>
      apply stays
      intro p hpos
      rw [hn] at hpos
      exact Or.inl (Option.some.inj hpos).symm
  | @take k old i hpc hid =>
      apply stays
      intro p hpos
      unfold position
      rw [ha _ _ _ hpc, hpc]
      exact Or.inr (by simpa [PC.looksAt, PC.position] using hpos)
  | throws hpc _ =>
      apply stays
      intro p hpos
      rw [ha _ _ _ hpc] at hpos
      cases hpos
  | clear hi =>
      apply stays
      intro p hpos
      unfold position
      exact Or.inr (by simpa [hi, PC.position, Shared.setSlot] using hpos)
  | leave hpc hi =>
      apply stays
      intro p hpos
      simp [PC.position, PC.looksAt] at hpos
  | @skip k old i hpc hid =>
      obtain ⟨u, hu⟩ := Option.ne_none_iff_exists'.mp hid
      have hz := (hG.owner u i).mpr hu
      have ht := ha _ _ _ hpc
      have hut : t ≠ u := by
        rintro rfl
        rw [ht] at hz
        cases hz
      have hpt : position c t = some (i : ℕ) := by
        unfold position
        rw [ht, hpc]
        rfl
      have hpu : position c u = some (i : ℕ) := by
        unfold position
        rw [hz]
        rfl
      have hnext := h.advance (beyond_position ▸ hN) hpt hpu hut
      convert hnext using 1
      funext v
      by_cases hv : v = t
      · subst hv
        simp [position, ht, PC.position, PC.looksAt]
      · rw [keeps v hv, Function.update_of_ne hv]

/-- At every moment at most `N` threads are owners. -/
def Room (c : Config Tid (Shared N Stack Tid Addr A) (PC Stack Addr A)) : Prop :=
  (owners c).encard ≤ N

omit [DecidableEq Addr] in
theorem Local.acquiring {g : Ghost Stack Tid Addr A} {s : Shared N Stack Tid Addr A}
    (h : Local s g t pc) : ∀ k old i, pc = .acquire k old i → s.hazard t = none := by
  intro k old i hpc
  have hf := h.facts
  rw [hpc] at hf
  exact hf.1

theorem clean (hc : Reach (exec movedFrom) (· = start) c) : Clean c := by
  induction hc with
  | start hs =>
      subst hs
      exact fun i hi => (hi rfl).elim
  | @step c d t o hr _ hs ih =>
      obtain ⟨g, hG, hL⟩ := (outline movedFrom).holds hr
      obtain ⟨r, hx, rfl⟩ := Outcome.map_eq_ok.mp hs
      exact ih.step hG (hL t).acquiring (exec_slots hx)

theorem packed (hc : ReachIf (exec movedFrom) (fun c _ _ => Room c) (· = start) c) :
    Packed N (position c) := by
  induction hc with
  | start hs =>
      subst hs
      intro i _ _
      have hnone : beyond (position (start : Config Tid (Shared N Stack Tid Addr A) _)) i = ∅ := by
        ext t
        simp [beyond, position, start, PC.position, PC.looksAt]
      rw [hnone, Set.encard_empty]
      exact zero_le
  | @step c d t o hr hroom hs ih =>
      obtain ⟨g, hG, hL⟩ := (outline movedFrom).holds hr.reach
      obtain ⟨r, hx, rfl⟩ := Outcome.map_eq_ok.mp hs
      exact packed_step ih hroom hG (hL t).acquiring (exec_slots hx)

/-- No two owners have the same slot, a slot without an owner has no pointer, and
with at most `N` owners at every moment no constructor comes to the end of the
slots. -/
theorem slots_suffice (hc : Reach (exec movedFrom) (· = start) c) :
    (∀ t u i, c.shared.hazard t = some i → c.shared.hazard u = some i → t = u) ∧
    (∀ i, (c.shared.slots i).id = none → (c.shared.slots i).ptr = none) ∧
    (ReachIf (exec movedFrom) (fun c _ _ => Room c) (· = start) c → Room c →
      ∀ t k old i, c.pc t = .acquire k old i → i < N) := by
  obtain ⟨g, hG, hL⟩ := (outline movedFrom).holds hc
  refine ⟨fun t u i ht hu => ?_, fun i hid => ?_, fun hr hroom t k old i hpc => ?_⟩
  · have hid := ((hG.owner t i).mp ht).symm.trans ((hG.owner u i).mp hu)
    exact Option.some.inj hid
  · by_contra hptr
    obtain ⟨t, ht, -⟩ := clean hc i hptr
    rw [(hG.owner t i).mp ht] at hid
    cases hid
  · have hpos : position c t = some i := by
      unfold position
      rw [(hL t).acquiring _ _ _ hpc, hpc]
      rfl
    exact (packed hr).lt (beyond_position ▸ hroom) hpos

section Example

/-- Two threads for two slots: thread 1 finds the first slot taken, and then thread
0 exits and frees it. -/
def exits : List (Fin 2 × Oracle Unit ℕ ℕ) :=
  let pop (t : Fin 2) : Fin 2 × Oracle Unit ℕ ℕ := (t, ⟨.pop (), 0, false⟩)
  List.replicate 3 (pop 0) ++ List.replicate 3 (pop 1) ++ List.replicate 5 (pop 0) ++
    List.replicate 3 (0, ⟨.exit, 0, false⟩)

theorem exits_reach : ∃ d : Config (Fin 2) (Shared 2 Unit (Fin 2) ℕ ℕ) (PC Unit ℕ ℕ),
    Config.run (exec id) exits start = .ok d ∧ d.pc 1 = .acquire () none 1 ∧
      (d.shared.slots 0).id = none ∧ Reach (exec id) (· = start) d :=
  ⟨_, rfl, rfl, rfl, ReachIf.run (.start rfl) (rfl : Config.run (exec id) exits start = .ok _)⟩

theorem room_of_two (d : Config (Fin 2) (Shared 2 Unit (Fin 2) ℕ ℕ) (PC Unit ℕ ℕ)) : Room d := by
  apply Set.encard_le_card.trans
  simp

theorem slots_suffice_sample :
    ∃ d : Config (Fin 2) (Shared 2 Unit (Fin 2) ℕ ℕ) (PC Unit ℕ ℕ),
      Config.run (exec id) exits start = .ok d ∧ d.pc 1 = .acquire () none 1 ∧
      (d.shared.slots 0).id = none ∧
      (∀ t u i, d.shared.hazard t = some i → d.shared.hazard u = some i → t = u) ∧
      (∀ i, (d.shared.slots i).id = none → (d.shared.slots i).ptr = none) ∧
      ∀ t k old i, d.pc t = .acquire k old i → i < 2 := by
  obtain ⟨d, hd, hpc, hid, hr⟩ := exits_reach
  obtain ⟨hex, hclean, hlt⟩ := slots_suffice hr
  have hroom : ReachIf (exec id) (fun c _ _ => Room c) (· = start) d :=
    hr.mono (fun _ => id) fun c _ _ _ => room_of_two c
  exact ⟨d, hd, hpc, hid, hex, hclean, hlt hroom (room_of_two d)⟩

end Example
end CsNotes.HazardPointer
