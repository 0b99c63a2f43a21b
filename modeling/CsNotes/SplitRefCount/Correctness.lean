import CsNotes.SplitRefCount.Preservation

/-!
# Reclamation and linearizability of the split-count stack

Both results are about every state of every run: any number of threads, any
calls, any interleaving, spurious failures and reuse of addresses included.
-/
namespace CsNotes.SplitRefCount
open Interleaving Storage History Segment

variable {Tid Addr A : Type*}

/-- The node at `a` is met when following `next` from a counted pointer. -/
inductive ReachableFrom (m : Memory Addr (Node Addr A)) : CountedNodePtr Addr → Addr → Prop
  | here {c : CountedNodePtr Addr} {p : Ptr Addr} {n : Node Addr A} :
      c.ptr = some p.addr → m.read p = some n → ReachableFrom m c p.addr
  | next {c : CountedNodePtr Addr} {p : Ptr Addr} {n : Node Addr A} {a : Addr} :
      c.ptr = some p.addr → m.read p = some n → ReachableFrom m n.next a → ReachableFrom m c a

/-- The values in the nodes from a counted pointer to the null pointer. -/
def Contents (m : Memory Addr (Node Addr A)) : CountedNodePtr Addr → List A → Prop :=
  Seg (fun c v next => ∃ p n, c.ptr = some p.addr ∧ m.read p = some n ∧ n.data = v ∧ n.next = next)
    fun c => c.ptr = none

theorem ReachableFrom.mem {m : Memory Addr (Node Addr A)} {readers : Addr → Finset Tid}
    {c : CountedNodePtr Addr} {l : List (Addr × A)} {a : Addr} (h : ReachableFrom m c a)
    (hs : Seg (Linked m readers) (fun p => p.ptr = none) c l) : a ∈ l.map Prod.fst := by
  induction h generalizing l with
  | here hc hp =>
      cases l with
      | nil => simp [hc] at hs
      | cons x l =>
          obtain ⟨next, ⟨hx, -⟩, -⟩ := hs
          simp [Option.some.inj (hx.symm.trans hc)]
  | next hc hp _ ih =>
      cases l with
      | nil => simp [hc] at hs
      | cons x l =>
          obtain ⟨next, ⟨hx, q, k, hq, hk, -, hn, -⟩, hl⟩ := hs
          have hqp := Memory.ptr_eq_of_read hk hp (hq.trans (Option.some.inj (hx.symm.trans hc)))
          subst hqp
          obtain rfl := Option.some.inj (hk.symm.trans hp)
          subst hn
          exact List.mem_cons_of_mem _ (ih hl)

theorem reachableFrom_of_mem {m : Memory Addr (Node Addr A)} {readers : Addr → Finset Tid}
    {c : CountedNodePtr Addr} {l : List (Addr × A)} {a : Addr}
    (hs : Seg (Linked m readers) (fun p => p.ptr = none) c l) (ha : a ∈ l.map Prod.fst) :
    ReachableFrom m c a := by
  induction l generalizing c with
  | nil => simp at ha
  | cons x l ih =>
      obtain ⟨next, ⟨hx, q, k, hq, hk, -, hn, -⟩, hl⟩ := hs
      rw [← hq] at hx
      rcases List.mem_cons.mp ha with rfl | ha
      · exact hq ▸ .here hx hk
      · exact .next hx hk (hn ▸ ih hl ha)

theorem contents_of_seg {m : Memory Addr (Node Addr A)} {readers : Addr → Finset Tid}
    {c : CountedNodePtr Addr} {l : List (Addr × A)}
    (hs : Seg (Linked m readers) (fun p => p.ptr = none) c l) :
    Contents m c (l.map Prod.snd) := by
  induction l generalizing c with
  | nil => exact hs
  | cons x l ih =>
      obtain ⟨next, ⟨hx, q, k, hq, hk, hd, hn, -⟩, hl⟩ := hs
      exact ⟨next, ⟨q, k, hq ▸ hx, hk, hd, hn⟩, ih hl⟩

variable [DecidableEq Tid] [DecidableEq Addr] {movedFrom : A → A}
variable {c : Config Tid (Shared Tid Addr A) (PC Addr A)}

/-- Nodes are accessed and deleted only while alive, a deleted node never comes
back, and when nobody is inside a call the live nodes are those of the stack. -/
structure Reclaims (movedFrom : A → A) (c : Config Tid (Shared Tid Addr A) (PC Addr A)) : Prop where
  alive : ∀ t o, c.advance (exec movedFrom) t o ≠ .fault
  deleted : ∀ t o d id, c.advance (exec movedFrom) t o = .ok d →
    c.shared.mem.Deleted id → d.shared.mem.Deleted id
  complete : (∀ t, c.pc t = .idle) →
    ∀ a, c.shared.mem.cell a ≠ none ↔ ReachableFrom c.shared.mem c.shared.head a

theorem deleted_step {s : Shared Tid Addr A} {pc : PC Addr A} {t : Tid} {o : Oracle Addr A}
    {r : Shared Tid Addr A × PC Addr A} {id : ℕ} (h : exec movedFrom t o s pc = .ok r)
    (hd : s.mem.Deleted id) : r.1.mem.Deleted id := by
  cases pc with
  | idle =>
      simp only [exec] at h
      split at h <;> cases h <;> exact hd
  | newNode v =>
      simp only [exec] at h
      split at h <;> cases h
      exact hd.alloc
  | loadNext v p | takeData old p =>
      obtain ⟨n, -, h⟩ := Memory.access_eq_ok.mp h
      cases h
      exact hd.write
  | pushCas v p =>
      obtain ⟨n, -, h⟩ := Memory.access_eq_ok.mp h
      split at h <;> cases h
      · exact hd
      · exact hd.write
  | addCount old p v | subCount old p =>
      obtain ⟨n, -, h⟩ := Memory.access_eq_ok.mp h
      simp only at h
      split at h <;> cases h <;> exact hd.write
  | loadHead =>
      cases h
      exact hd
  | count old =>
      simp only [exec] at h
      split at h
      · split at h
        · cases h
          exact hd
        · split at h <;> cases h
          exact hd
      · cases h
        exact hd
  | readNext old p =>
      obtain ⟨n, -, h⟩ := Memory.access_eq_ok.mp h
      cases h
      exact hd
  | unlink old p next =>
      simp only [exec] at h
      split at h <;> cases h <;> exact hd
  | deleteTaken p v | deleteReleased old p =>
      obtain ⟨n, -, h⟩ := Memory.access_eq_ok.mp h
      cases h
      exact hd.free

theorem count_reclaims (hc : Reach (exec movedFrom) (· = start) c) : Reclaims movedFrom c := by
  obtain ⟨g, hG, hL⟩ := (outline movedFrom).holds hc
  refine ⟨fun t o => (outline movedFrom).safe hc trivial, fun t o d id hd hid => ?_,
    fun hidle a => ?_⟩
  · obtain ⟨r, hr, rfl⟩ := Outcome.map_eq_ok.mp hd
    exact deleted_step hr hid
  · have quiet : ∀ t, (c.pc t).owned = none ∧ (c.pc t).counted = none := by
      intro t
      rw [hidle t]
      exact ⟨rfl, rfl⟩
    constructor
    · intro ha
      refine reachableFrom_of_mem hG.seg ((hG.linked a).mp ?_)
      obtain ⟨p, n, rfl, hn⟩ := Memory.exists_read_of_cell ha
      have hbal := hG.balance p n hn
      have hread : g.readers p.addr = ∅ := by
        refine Finset.eq_empty_of_forall_notMem fun t ht => ?_
        have := ((hL t).counted _).mp ht
        simp [(quiet t).2] at this
      cases hr : g.role p.addr with
      | free => exact (ha ((hG.free _).mp hr)).elim
      | linked => rfl
      | retired =>
          rw [hr, hread] at hbal
          have h₁ : (0 : ℤ) = n.internalCount := by simpa using hbal.1
          have := hbal.2
          omega
      | own t k =>
          have := ((hL t).owned _ _).mp hr
          simp [(quiet t).1] at this
    · intro hr
      have hl := (hG.linked a).mpr (hr.mem hG.seg)
      rw [Ne, ← hG.free a, hl]
      simp

/-- The history records the successful linking and unlinking exchanges, and the
exchanges of a null `head` which end a pop. -/
def Recorded (movedFrom : A → A) (c : Config Tid (Shared Tid Addr A) (PC Addr A)) : Prop :=
  ∀ t o d, c.advance (exec movedFrom) t o = .ok d →
    d.shared.history = c.shared.history ∨
    (∃ p n, c.pc t = .pushCas n.data p ∧ c.shared.mem.read p = some n ∧
      c.shared.head = n.next ∧ d.shared = { c.shared with
        head := { ptr := some p.addr }, history := c.shared.history ++ [.push t n.data] }) ∨
    (∃ p n, c.pc t = .unlink c.shared.head p n.next ∧ c.shared.head.ptr = some p.addr ∧
      c.shared.mem.read p = some n ∧ d.shared = { c.shared with
        head := n.next, history := c.shared.history ++ [.pop t n.data] }) ∨
    (c.pc t = .count c.shared.head ∧ c.shared.head.ptr = none ∧
      d.shared = { c.shared.answer t none with
        head := { c.shared.head with externalCount := c.shared.head.externalCount + 1 }
        history := c.shared.history ++ [.empty t] })

/-- The history is one of a sequential stack, which holds what is linked from
`head`; every pop returns what the history says, and no value is lost. -/
structure Linearizable (movedFrom : A → A) (c : Config Tid (Shared Tid Addr A) (PC Addr A)) :
    Prop where
  history : ∃ l, StackRun c.shared.history l ∧ Contents c.shared.mem c.shared.head l ∧
    (pushed c.shared.history).Perm (popped c.shared.history ++ l)
  recorded : Recorded movedFrom c
  answers : ∀ t, c.shared.returned t <+: answers t c.shared.history
  answered : ∀ t, c.pc t = .idle → c.shared.returned t = History.answers t c.shared.history

theorem recorded (hL : ∀ t, Local c.shared g t (c.pc t)) : Recorded movedFrom c := by
  intro t o d hd
  obtain ⟨r, h, rfl⟩ := Outcome.map_eq_ok.mp hd
  have hf := (hL t).facts
  cases hpc : c.pc t <;> rw [hpc] at h hf
  case idle =>
    simp only [exec] at h
    split at h <;> cases h <;> exact .inl rfl
  case newNode v =>
    simp only [exec] at h
    split at h <;> cases h
    exact .inl rfl
  case loadHead =>
    cases h
    exact .inl rfl
  case pushCas v p =>
    obtain ⟨⟨n, hn, rfl⟩, -⟩ := hf
    simp only [exec, Memory.access_of_read hn] at h
    split at h
    · rename_i hcas
      cases h
      exact .inr (.inl ⟨p, n, rfl, hn, hcas.1, rfl⟩)
    · cases h
      exact .inl rfl
  case count old =>
    simp only [exec] at h
    split at h
    · rename_i hcas
      subst hcas
      split at h
      · rename_i hnull
        cases h
        exact .inr (.inr (.inr ⟨rfl, hnull, rfl⟩))
      · split at h <;> cases h
        exact .inl rfl
    · cases h
      exact .inl rfl
  case unlink old p next =>
    obtain ⟨⟨n, hn, rfl⟩, hold, -⟩ := hf
    simp only [exec, hn] at h
    split at h
    · rename_i hcas
      subst hcas
      cases h
      exact .inr (.inr (.inl ⟨p, n, rfl, hold, hn, rfl⟩))
    · cases h
      exact .inl rfl
  case addCount old p v =>
    obtain ⟨n, -, h⟩ := Memory.access_eq_ok.mp h
    simp only at h
    split at h <;> cases h <;> exact .inl rfl
  case subCount old p =>
    obtain ⟨n, -, h⟩ := Memory.access_eq_ok.mp h
    simp only at h
    split at h <;> cases h <;> exact .inl rfl
  all_goals
    obtain ⟨n, -, h⟩ := Memory.access_eq_ok.mp h
    cases h
    exact .inl rfl

theorem count_linearizable (hc : Reach (exec movedFrom) (· = start) c) :
    Linearizable movedFrom c := by
  obtain ⟨g, hG, hL⟩ := (outline movedFrom).holds hc
  refine ⟨⟨_, hG.run, contents_of_seg hG.seg, hG.run.perm⟩, recorded hL, fun t => ?_,
    fun t ht => ?_⟩
  · have hf := (hL t).facts
    cases hpc : c.pc t <;> rw [hpc] at hf <;> simp only [PC.Facts] at hf
    all_goals first | (obtain ⟨_, _, hf⟩ := hf; rw [hf]) | (obtain ⟨_, hf⟩ := hf; rw [hf]) | rw [hf]
    all_goals simp
  · have hf := (hL t).facts
    rw [ht] at hf
    exact hf.symm

section Example

/-- Thread 0 pushes 7, and pops it while thread 1 is counted in on the node. -/
def sample : List (ℕ × Oracle ℕ ℕ) :=
  let push : Oracle ℕ ℕ := ⟨.push 7, 3, false⟩
  let pop : Oracle ℕ ℕ := ⟨.pop, 3, false⟩
  [(0, push), (0, push), (0, push), (0, push), (1, pop), (1, pop), (0, pop), (0, pop), (1, pop),
    (1, pop), (0, pop), (0, pop), (0, pop), (0, pop), (0, pop), (0, pop)]

theorem count_reclaims_sample :
    ∃ d, Config.run (exec id) sample start = .ok d ∧ Reclaims id d :=
  ⟨_, rfl, count_reclaims
    (ReachIf.run (.start rfl) (rfl : Config.run (exec id) sample start = .ok _))⟩

theorem count_linearizable_sample :
    ∃ d, Config.run (exec id) sample start = .ok d ∧ d.shared.returned 0 = [some 7] ∧
      Linearizable id d :=
  ⟨_, rfl, rfl, count_linearizable
    (ReachIf.run (.start rfl) (rfl : Config.run (exec id) sample start = .ok _))⟩

end Example
end CsNotes.SplitRefCount
