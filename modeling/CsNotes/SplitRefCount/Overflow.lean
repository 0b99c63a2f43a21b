import CsNotes.SplitRefCount.Preservation

/-!
# The counts as `int`

Every attempt to count in adds one to the external count that was read from
`head`, and nothing stops it when this count is the largest `int`. All other
results of arithmetic are in range as long as the external counts are, because
the sums in the proof outline bound the internal counts by them. An external
count grows by one for each thread that counts in, and starts at one.
-/
namespace CsNotes.SplitRefCount
open Interleaving Storage History Segment

variable {Tid Addr A : Type*}

def intMax : ℤ := 2 ^ 31 - 1

/-- In the range of a 32-bit `int`. -/
def InInt (x : ℤ) : Prop := -2 ^ 31 ≤ x ∧ x ≤ intMax

/-- The counts which the next step of a thread computes. -/
def computed (s : Shared Tid Addr A) : PC Addr A → List ℤ
  | .count old => [old.externalCount + 1]
  | .addCount old p _ =>
      let countIncrease := old.externalCount - 2
      countIncrease :: -countIncrease ::
        ((s.mem.read p).map fun n => n.internalCount + countIncrease).toList
  | .subCount _ p => ((s.mem.read p).map fun n => n.internalCount - 1).toList
  | _ => []

def InRange (c : Config Tid (Shared Tid Addr A) (PC Addr A)) (t : Tid) (_ : Oracle Addr A) : Prop :=
  ∀ x ∈ computed c.shared (c.pc t), InInt x

/-- The step does not add one to the largest `int`. -/
def NotFull (c : Config Tid (Shared Tid Addr A) (PC Addr A)) (t : Tid) (_ : Oracle Addr A) : Prop :=
  ∀ old, c.pc t = .count old → old.externalCount ≠ intMax

/-- The counted pointers a thread has read. -/
def PC.pointers : PC Addr A → List (CountedNodePtr Addr)
  | count old | readNext old _ | takeData old _ | addCount old _ _ | subCount old _
  | deleteReleased old _ => [old]
  | unlink old _ next => [old, next]
  | _ => []

def CountedNodePtr.Bounded (b : ℤ) (c : CountedNodePtr Addr) : Prop :=
  1 ≤ c.externalCount ∧ c.externalCount ≤ b

/-- The external count beside every pointer is at most `b`. -/
structure Shared.Bounded (b : ℤ) (s : Shared Tid Addr A) : Prop where
  head : s.head.Bounded b
  next : s.mem.All fun n => n.next.Bounded b
  internal : s.mem.All fun n => n.internalCount ≤ b

def PC.Bounded (b : ℤ) (pc : PC Addr A) : Prop := ∀ c ∈ pc.pointers, c.Bounded b

structure Bounded (b : ℤ) (c : Config Tid (Shared Tid Addr A) (PC Addr A)) : Prop where
  shared : c.shared.Bounded b
  pc : ∀ t, (c.pc t).Bounded b

variable {s : Shared Tid Addr A} {pc : PC Addr A} {b b' : ℤ}

theorem CountedNodePtr.Bounded.mono {p : CountedNodePtr Addr} (h : p.Bounded b) (hb : b ≤ b') :
    p.Bounded b' :=
  ⟨h.1, h.2.trans hb⟩

theorem Shared.Bounded.mono (h : s.Bounded b) (hb : b ≤ b') : s.Bounded b' :=
  ⟨h.head.mono hb, fun p n hn => (h.next p n hn).mono hb,
    fun p n hn => (h.internal p n hn).trans hb⟩

theorem PC.Bounded.mono (h : pc.Bounded b) (hb : b ≤ b') : pc.Bounded b' :=
  fun c hc => (h c hc).mono hb

variable [DecidableEq Tid] [DecidableEq Addr] {movedFrom : A → A}
variable {c d : Config Tid (Shared Tid Addr A) (PC Addr A)} {t : Tid} {o : Oracle Addr A}

/-- Counting in is the one step that makes an external count larger. -/
theorem bounded_exec {r : Shared Tid Addr A × PC Addr A} (hs : s.Bounded b) (hpc : pc.Bounded b)
    (hb : b ≤ b')
    (hcount : ∀ old, pc = .count old → s.head = old → old.externalCount + 1 ≤ b')
    (hadd : ∀ old p v n, pc = .addCount old p v → s.mem.read p = some n → n.internalCount ≤ 0)
    (h : exec movedFrom t o s pc = .ok r) : r.1.Bounded b' ∧ r.2.Bounded b' := by
  replace hs := hs.mono hb
  replace hpc := hpc.mono hb
  have hone : (1 : ℤ) ≤ b' := hs.head.1.trans hs.head.2
  have hnone : ∀ q : PC Addr A, q.pointers = [] → q.Bounded b' := by
    intro q hq c hc
    rw [hq] at hc
    cases hc
  have hsame : ∀ (q : PC Addr A) c, c.Bounded b' → q.pointers = [c] → q.Bounded b' := by
    intro q c hcb hq c' hc
    rw [hq, List.mem_singleton] at hc
    exact hc ▸ hcb
  cases pc with
  | idle =>
      simp only [exec] at h
      split at h <;> cases h <;> exact ⟨hs, hnone _ rfl⟩
  | newNode v =>
      simp only [exec] at h
      split at h <;> cases h
      exact ⟨⟨hs.head, hs.next.alloc ⟨le_rfl, hone⟩, hs.internal.alloc (by simp; omega)⟩,
        hnone _ rfl⟩
  | loadNext v p =>
      obtain ⟨n, hn, h⟩ := Memory.access_eq_ok.mp h
      cases h
      exact ⟨⟨hs.head, hs.next.write hs.head, hs.internal.write (hs.internal p n hn)⟩, hnone _ rfl⟩
  | pushCas v p =>
      obtain ⟨n, hn, h⟩ := Memory.access_eq_ok.mp h
      split at h <;> cases h
      · exact ⟨⟨⟨le_rfl, hone⟩, hs.next, hs.internal⟩, hnone _ rfl⟩
      · exact ⟨⟨hs.head, hs.next.write hs.head, hs.internal.write (hs.internal p n hn)⟩,
          hnone _ rfl⟩
  | loadHead =>
      cases h
      exact ⟨hs, hsame _ _ hs.head rfl⟩
  | count old =>
      have hold : old.Bounded b' := hpc old (by simp [PC.pointers])
      simp only [exec] at h
      split at h
      · rename_i hhead
        have hnew : ({ old with externalCount := old.externalCount + 1 } :
            CountedNodePtr Addr).Bounded b' := by
          have h₁ := hold.1
          exact ⟨by simp; omega, hcount old rfl hhead⟩
        split at h
        · cases h
          exact ⟨⟨hnew, hs.next, hs.internal⟩, hnone _ rfl⟩
        · split at h <;> cases h
          exact ⟨⟨hnew, hs.next, hs.internal⟩, hsame _ _ hnew rfl⟩
      · cases h
        exact ⟨hs, hsame _ _ hs.head rfl⟩
  | readNext old p =>
      obtain ⟨n, hn, h⟩ := Memory.access_eq_ok.mp h
      cases h
      refine ⟨hs, fun c hc => ?_⟩
      rcases List.mem_pair.mp hc with rfl | rfl
      · exact hpc c (by simp [PC.pointers])
      · exact hs.next p n hn
  | unlink old p next =>
      have hnext : next.Bounded b' := hpc next (by simp [PC.pointers])
      simp only [exec] at h
      split at h <;> cases h
      · exact ⟨⟨hnext, hs.next, hs.internal⟩, hsame _ old (hpc old (by simp [PC.pointers])) rfl⟩
      · exact ⟨hs, hsame _ _ hs.head rfl⟩
  | takeData old p =>
      obtain ⟨n, hn, h⟩ := Memory.access_eq_ok.mp h
      cases h
      exact ⟨⟨hs.head, hs.next.write (hs.next p n hn), hs.internal.write (hs.internal p n hn)⟩,
        hsame _ old (hpc old (by simp [PC.pointers])) rfl⟩
  | addCount old p v =>
      obtain ⟨n, hn, h⟩ := Memory.access_eq_ok.mp h
      have hold := (hpc old (by simp [PC.pointers])).2
      have hsum : n.internalCount + (old.externalCount - 2) ≤ b' := by
        have h₀ := hadd old p v n rfl hn
        omega
      simp only at h
      split at h <;> cases h
      · exact ⟨⟨hs.head, hs.next.write (hs.next p n hn), hs.internal.write hsum⟩, hnone _ rfl⟩
      · exact ⟨⟨hs.head, hs.next.write (hs.next p n hn), hs.internal.write hsum⟩, hnone _ rfl⟩
  | deleteTaken p v =>
      obtain ⟨n, hn, h⟩ := Memory.access_eq_ok.mp h
      cases h
      exact ⟨⟨hs.head, hs.next.free, hs.internal.free⟩, hnone _ rfl⟩
  | subCount old p =>
      obtain ⟨n, hn, h⟩ := Memory.access_eq_ok.mp h
      have hsub : n.internalCount - 1 ≤ b' := by
        have h₀ := hs.internal p n hn
        omega
      simp only at h
      split at h <;> cases h
      · exact ⟨⟨hs.head, hs.next.write (hs.next p n hn), hs.internal.write hsub⟩,
          hsame _ old (hpc old (by simp [PC.pointers])) rfl⟩
      · exact ⟨⟨hs.head, hs.next.write (hs.next p n hn), hs.internal.write hsub⟩,
          hsame _ old (hpc old (by simp [PC.pointers])) rfl⟩
  | deleteReleased old p =>
      obtain ⟨n, hn, h⟩ := Memory.access_eq_ok.mp h
      cases h
      exact ⟨⟨hs.head, hs.next.free, hs.internal.free⟩,
        hsame _ old (hpc old (by simp [PC.pointers])) rfl⟩

omit [DecidableEq Addr] in
theorem internal_bounds {g : Ghost Tid Addr A} (hG : Global c.shared g)
    (hL : ∀ u, Local c.shared g u (c.pc u)) (hb : Bounded b c) {p : Ptr Addr} {n : Node Addr A}
    (hn : c.shared.mem.read p = some n) (ht : t ∈ g.readers p.addr) :
    2 - b ≤ n.internalCount := by
  have hpos : (1 : ℤ) ≤ (g.readers p.addr).card := by
    exact_mod_cast Finset.card_pos.mpr ⟨t, ht⟩
  have hone : (1 : ℤ) ≤ b := hb.shared.head.1.trans hb.shared.head.2
  have hbal := hG.balance p n hn
  cases hr : g.role p.addr with
  | free => exact (Memory.cell_ne_none_of_read hn ((hG.free _).mp hr)).elim
  | linked =>
      obtain ⟨x, hx, hxp⟩ := List.mem_map.mp ((hG.linked _).mp hr)
      have hseg : Seg (fun e x next => e.Bounded b ∧ Linked c.shared.mem g.readers e x next)
          (fun e => e.ptr = none) c.shared.head g.stack := by
        refine hG.seg.pointers hb.shared.head ?_
        intro a _ e next ⟨_, q, k, _, hk, _, hnext, _⟩
        exact hnext ▸ hb.shared.next q k hk
      obtain ⟨e, next, he, -, q, k, hq, hk, -, -, hsum, -⟩ := hseg.exists_node hx
      obtain rfl := Memory.ptr_eq_of_read hk hn (hq.trans hxp)
      obtain rfl := Option.some.inj (hk.symm.trans hn)
      rw [hxp] at hsum
      have h₁ := he.2
      omega
  | retired =>
      rw [hr] at hbal
      have h₁ := hbal.2
      omega
  | own u k =>
      have hown := ((hL u).owned p.addr k).mp hr
      rw [hr] at hbal
      cases k with
      | fresh =>
          have h₀ := hbal.1
          omega
      | dying =>
          have h₀ : ((g.readers p.addr).card : ℤ) = 0 := hbal
          omega
      | popped e =>
          have h₁ := hbal.1
          have he : e ≤ b := by
            have hu := hb.pc u
            cases hpc : c.pc u <;> rw [hpc] at hown hu <;> simp [PC.owned] at hown
            all_goals
              obtain ⟨-, rfl⟩ := hown
              exact (hu _ (by simp [PC.pointers])).2
          omega

omit [DecidableEq Addr] in
/-- While the external counts are in range, so are all sums but one. -/
theorem inRange_of_bounded {g : Ghost Tid Addr A} (hG : Global c.shared g)
    (hL : ∀ u, Local c.shared g u (c.pc u)) (hb : Bounded intMax c) (hfull : NotFull c t o) :
    InRange c t o := by
  have hl := hL t
  have hp := hb.pc t
  intro x hx
  unfold InInt
  cases hpc : c.pc t <;> rw [hpc] at hx hl hp <;> simp only [computed, List.not_mem_nil] at hx
  case count old =>
    have hold := hp old (by simp [PC.pointers])
    have hne := hfull old hpc
    unfold CountedNodePtr.Bounded intMax at *
    simp at hx
    omega
  case addCount old p v =>
    have hold := hp old (by simp [PC.pointers])
    obtain ⟨⟨n, hn⟩, -⟩ := hl.facts
    have hbal := hG.balance p n hn
    rw [(hl.owned p.addr _).mpr rfl] at hbal
    obtain ⟨hsum, hle⟩ := hbal
    unfold CountedNodePtr.Bounded intMax at *
    simp [hn] at hx
    omega
  case subCount old p =>
    obtain ⟨⟨n, hn⟩, -⟩ := hl.facts
    have ht : t ∈ g.readers p.addr := (hl.counted _).mpr rfl
    have hlow := internal_bounds hG hL hb hn ht
    have hhigh : n.internalCount ≤ intMax := hb.shared.internal p n hn
    unfold intMax at *
    simp [hn] at hx
    omega

theorem Bounded.advance (hr : Reach (exec movedFrom) (· = start) c) (hb : Bounded b c)
    (hbb : b ≤ b')
    (hcount : ∀ old, c.pc t = .count old → c.shared.head = old → old.externalCount + 1 ≤ b')
    (hd : c.advance (exec movedFrom) t o = .ok d) : Bounded b' d := by
  obtain ⟨g, hG, hL⟩ := (outline movedFrom).holds hr
  obtain ⟨r, hx, rfl⟩ := Outcome.map_eq_ok.mp hd
  have hadd : ∀ old p v n, c.pc t = .addCount old p v → c.shared.mem.read p = some n →
      n.internalCount ≤ 0 := by
    intro old p v n hpc hn
    have hbal := hG.balance p n hn
    rw [((hL t).owned p.addr _).mpr (by rw [hpc]; rfl)] at hbal
    exact hbal.2
  obtain ⟨hs, hpc⟩ := bounded_exec hb.shared (hb.pc t) hbb hcount hadd hx
  refine ⟨hs, fun u => ?_⟩
  by_cases hut : u = t
  · subst hut
    simpa only [Function.update_self] using hpc
  · simpa only [Function.update_of_ne hut] using (hb.pc u).mono hbb

omit [DecidableEq Tid] [DecidableEq Addr] in
theorem bounded_start : Bounded 1 (start : Config Tid (Shared Tid Addr A) (PC Addr A)) := by
  refine ⟨⟨⟨le_rfl, le_rfl⟩, ?_, ?_⟩, fun t c hc => ?_⟩
  · intro p n hn
    cases hn
  · intro p n hn
    cases hn
  · cases hc

theorem bounded_of_reach (hc : ReachIf (exec movedFrom) NotFull (· = start) c) :
    Bounded intMax c := by
  induction hc with
  | start h =>
      subst h
      exact ⟨bounded_start.shared.mono (by decide), fun t => (bounded_start.pc t).mono (by decide)⟩
  | @step c d t o hr hg hd ih =>
      refine ih.advance hr.reach le_rfl (fun old hpc _ => ?_) hd
      have hle := (ih.pc t old (by simp [hpc, PC.pointers])).2
      exact Int.add_one_le_of_lt (lt_of_le_of_ne hle (hg old hpc))

/-- The next step of `t` succeeds in counting in, on a null pointer too. -/
def countsIn (c : Config Tid (Shared Tid Addr A) (PC Addr A)) (t : Tid) : Bool :=
  match c.pc t with
  | .count old => c.shared.head = old
  | _ => false

/-- How often threads count in during a run. -/
def countings (movedFrom : A → A) :
    List (Tid × Oracle Addr A) → Config Tid (Shared Tid Addr A) (PC Addr A) → ℕ
  | [], _ => 0
  | (t, o) :: rest, c =>
      match c.advance (exec movedFrom) t o with
      | .ok d => (if countsIn c t then 1 else 0) + countings movedFrom rest d
      | _ => 0

theorem meets_of_countings {sched : List (Tid × Oracle Addr A)}
    (hr : Reach (exec movedFrom) (· = start) c) (hb : Bounded b c)
    (hfew : b + countings movedFrom sched c < intMax) : c.Meets (exec movedFrom) NotFull sched := by
  induction sched generalizing c b with
  | nil => trivial
  | cons x rest ih =>
      obtain ⟨t, o⟩ := x
      constructor
      · intro old hpc hmax
        have hle := (hb.pc t old (by simp [hpc, PC.pointers])).2
        omega
      · intro d hd
        simp only [countings, hd] at hfew
        refine ih (b := b + if countsIn c t then 1 else 0) (.step hr trivial hd)
          (hb.advance hr (by split <;> omega) (fun old hpc hhead => ?_) hd)
          (by push_cast at hfew; omega)
        have hle := (hb.pc t old (by simp [hpc, PC.pointers])).2
        simp [countsIn, hpc, hhead]
        omega

/-- The counts of a run are in range exactly if no thread adds one to the largest
`int`. Before that can happen, threads must have counted in that often. -/
structure CountsFit (movedFrom : A → A) (sched : List (Tid × Oracle Addr A)) : Prop where
  iff : start.Meets (exec movedFrom) InRange sched ↔ start.Meets (exec movedFrom) NotFull sched
  few : countings movedFrom sched start < 2 ^ 31 - 2 → start.Meets (exec movedFrom) InRange sched

theorem counts_fit (movedFrom : A → A) (sched : List (Tid × Oracle Addr A)) :
    CountsFit movedFrom sched := by
  have hiff : start.Meets (exec movedFrom) InRange sched ↔
      start.Meets (exec movedFrom) NotFull sched := by
    let init : Config Tid (Shared Tid Addr A) (PC Addr A) := start
    have hstart : ReachIf (exec movedFrom) NotFull (· = init) init := .start rfl
    refine meets_congr hstart fun c t o hc => ?_
    obtain ⟨g, hG, hL⟩ := (outline movedFrom).holds hc.reach
    constructor
    · intro h old hpc hmax
      have hin := h (old.externalCount + 1) (by simp [hpc, computed])
      unfold InInt at hin
      omega
    · exact inRange_of_bounded hG hL (bounded_of_reach hc)
  refine ⟨hiff, fun h => hiff.mpr (meets_of_countings (.start rfl) bounded_start ?_)⟩
  unfold intMax
  omega

/-- Thread 0 polls the stack, and then does the rest. -/
def poll (rest : List (ℕ × Oracle ℕ ℕ)) : List (ℕ × Oracle ℕ ℕ) :=
  let pop : ℕ × Oracle ℕ ℕ := (0, ⟨.pop, 0, false⟩)
  pop :: pop :: pop :: rest

/-- A poll leaves the external count of the null pointer larger by one. -/
theorem meets_poll {k : ℤ} {c : Config ℕ (Shared ℕ ℕ ℕ) (PC ℕ ℕ)}
    {rest : List (ℕ × Oracle ℕ ℕ)} (hpc : c.pc 0 = .idle) (hhead : c.shared.head = ⟨k, none⟩)
    (h : c.Meets (exec id) InRange (poll rest)) :
    k + 1 ≤ intMax ∧ ∃ d : Config ℕ (Shared ℕ ℕ ℕ) (PC ℕ ℕ),
      d.pc 0 = .idle ∧ d.shared.head = ⟨k + 1, none⟩ ∧ d.Meets (exec id) InRange rest := by
  let pop : Oracle ℕ ℕ := ⟨.pop, 0, false⟩
  let c₁ : Config ℕ (Shared ℕ ℕ ℕ) (PC ℕ ℕ) := ⟨c.shared, Function.update c.pc 0 .loadHead⟩
  let c₂ : Config ℕ (Shared ℕ ℕ ℕ) (PC ℕ ℕ) :=
    ⟨c.shared, Function.update c₁.pc 0 (.count ⟨k, none⟩)⟩
  let c₃ : Config ℕ (Shared ℕ ℕ ℕ) (PC ℕ ℕ) :=
    ⟨{ c.shared.answer 0 none with
        head := ⟨k + 1, none⟩
        history := c.shared.history ++ [.empty 0] }, Function.update c₂.pc 0 .idle⟩
  have h₁ : c.advance (exec id) 0 pop = .ok c₁ := by
    unfold Config.advance
    rw [hpc]
    rfl
  have h₂ : c₁.advance (exec id) 0 pop = .ok c₂ := by
    unfold Config.advance
    simp [c₁, c₂, exec, Outcome.map, hhead]
  have h₃ : c₂.advance (exec id) 0 pop = .ok c₃ := by
    unfold Config.advance
    simp [c₂, c₃, exec, Outcome.map, hhead]
  obtain ⟨hin, hrest⟩ := (h.2 c₁ h₁).2 c₂ h₂
  have hcomp : k + 1 ∈ computed c₂.shared (c₂.pc 0) := by simp [c₂, computed]
  exact ⟨(hin _ hcomp).2, c₃, by simp [c₃], rfl, hrest c₃ h₃⟩

theorem meets_polls {n : ℕ} {k : ℤ} {c : Config ℕ (Shared ℕ ℕ ℕ) (PC ℕ ℕ)}
    (hpc : c.pc 0 = .idle) (hhead : c.shared.head = ⟨k, none⟩)
    (h : c.Meets (exec id) InRange (poll^[n] [])) (hk : k ≤ intMax) : k + n ≤ intMax := by
  induction n generalizing c k with
  | zero =>
      push_cast
      omega
  | succ n ih =>
      rw [Function.iterate_succ_apply'] at h
      obtain ⟨hk', d, hpc', hhead', hrest⟩ := meets_poll hpc hhead h
      have hle := ih hpc' hhead' hrest hk'
      push_cast
      omega

/-- From an empty stack on, enough polls overflow the count of the null pointer. -/
theorem polls_overflow :
    ¬ ∀ sched : List (ℕ × Oracle ℕ ℕ), start.Meets (exec id) InRange sched := by
  intro h
  have hle := meets_polls (n := 2 ^ 31 - 1) (c := start) (k := 1) rfl rfl (h _) (by decide)
  unfold intMax at hle
  omega

end CsNotes.SplitRefCount
