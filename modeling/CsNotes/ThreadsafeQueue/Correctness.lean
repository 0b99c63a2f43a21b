import CsNotes.ThreadsafeQueue.Preservation

/-!
# The two-lock queue is a linearizable FIFO queue

Any number of threads, any calls and any interleaving of the steps, spurious
wake-ups and reuse of addresses included. The destructor is run on a queue that
nobody uses any more.
-/
namespace CsNotes.ThreadsafeQueue
open Interleaving Storage History Segment

variable {Tid Addr A : Type*} [DecidableEq Addr]

/-- The destructor deletes what is on the path and nothing else. -/
theorem destroy_path {m : Memory Addr (Node Addr A)} {head : Option (Ptr Addr)} {tail : Ptr Addr}
    {l : List (Ptr Addr × A)} (hs : Seg (Queued m) (· = some tail) head l)
    (hnd : ((l.map Prod.fst ++ [tail]).map Ptr.addr).Nodup) (ht : m.read tail = some {}) :
    ∃ m', destroy (l.length + 1) head tail m = .ok m' ∧
      ∀ a, m'.cell a = none ↔ m.cell a = none ∨ a ∈ (l.map Prod.fst ++ [tail]).map Ptr.addr := by
  induction l generalizing head m with
  | nil =>
      obtain rfl : head = some tail := hs
      refine ⟨m.free tail, by simp [destroy, Memory.access_of_read ht], fun a => ?_⟩
      by_cases ha : a = tail.addr
      · simp [Memory.cell_free, ha]
      · simp [Memory.cell_free, ha]
  | cons x l ih =>
      obtain ⟨next, ⟨rfl, n, hn, hd, rfl⟩, hrest⟩ := hs
      have hcons : (((x :: l).map Prod.fst ++ [tail]).map Ptr.addr) =
          x.1.addr :: (l.map Prod.fst ++ [tail]).map Ptr.addr := rfl
      rw [hcons, List.nodup_cons] at hnd
      have hoff : ∀ p ∈ l.map Prod.fst ++ [tail], (m.free x.1).read p = m.read p := by
        intro p hp
        refine Memory.eqOff_free.read ?_
        rintro hpx
        exact hnd.1 (hpx ▸ List.mem_map_of_mem hp)
      have hne : x.1.addr ≠ tail.addr := fun he => hnd.1 (by simp [he])
      have hseg : Seg (Queued (m.free x.1)) (· = some tail) n.next l := by
        refine hrest.congr fun y hy c next hq => ?_
        obtain ⟨hc, k, hk, hrest⟩ := hq
        exact ⟨hc, k, by rw [hoff _ (List.mem_append_left _ (List.mem_map_of_mem hy)), hk], hrest⟩
      have hdummy : (m.free x.1).read tail = some {} := by rw [hoff _ (by simp), ht]
      obtain ⟨m', hm', hcell⟩ := ih hseg hnd.2 hdummy
      refine ⟨m', ?_, fun a => ?_⟩
      · rw [List.length_cons, destroy, Memory.access_of_read hn, if_neg hne, hd]
        exact hm'
      · rw [hcell, hcons, List.mem_cons]
        by_cases ha : a = x.1.addr
        · simp [Memory.cell_free, ha]
        · simp [Memory.cell_free, ha]

variable [DecidableEq Tid] {movedFrom : A → A}
variable {c : Config Tid (Shared Tid Addr A) (PC Addr A)}

/-- What the history is: it records the advances of `tail` and of `head`, and
those reads of `tail` by `try_pop` which found it equal to `head`. -/
def Recorded (movedFrom : A → A) (c : Config Tid (Shared Tid Addr A) (PC Addr A)) : Prop :=
  ∀ t o d, c.advance (exec movedFrom) t o = .ok d →
    d.shared.history = c.shared.history ∨
    (∃ v p, c.pc t = .moveTail v p ∧ d.shared.tail = p ∧
      d.shared.history = c.shared.history ++ [.push t v]) ∨
    (∃ v old n, c.pc t = .moveHead old n.next ∧ c.shared.head = some old ∧
      c.shared.mem.read old = some n ∧ n.data = some v ∧ d.shared.head = n.next ∧
      d.shared.history = c.shared.history ++ [.pop t v]) ∨
    (c.pc t = .getTail .tryPop ∧ c.shared.head = some c.shared.tail ∧
      d.shared.history = c.shared.history ++ [.empty t])

/-- The path from `head` to `tail` holds what is in the queue, every node and
value on it or off it is created and destroyed once, and every removal returns
what the history says. -/
structure Fifo (movedFrom : A → A) (c : Config Tid (Shared Tid Addr A) (PC Addr A)) : Prop where
  path : ∃ l, Seg (Queued c.shared.mem) (· = some c.shared.tail) c.shared.head l ∧
    c.shared.tail ∉ l.map Prod.fst ∧ QueueRun c.shared.history (l.map Prod.snd) ∧
    popped c.shared.history ++ l.map Prod.snd = pushed c.shared.history
  dummy : ∃ n, c.shared.mem.read c.shared.tail = some n ∧ ∀ v, n.data = some v →
    ∃ t p, c.shared.tailMutex = some t ∧ (c.pc t = .linkNext v p ∨ c.pc t = .moveTail v p)
  recorded : Recorded movedFrom c
  answers : ∀ t, c.shared.returned t <+: answers t c.shared.history
  answered : ∀ t, c.pc t = .idle → c.shared.returned t = History.answers t c.shared.history
  alive : ∀ t o, c.advance (exec movedFrom) t o ≠ .fault
  deleted : ∀ t o d id, c.advance (exec movedFrom) t o = .ok d →
    c.shared.mem.Deleted id → d.shared.mem.Deleted id
  destructor : (∀ t, c.pc t = .idle) → ∃ fuel m,
    destroy fuel c.shared.head c.shared.tail c.shared.mem = .ok m ∧ ∀ a, m.cell a = none

/-- A step never revives a deleted node, and only three kinds of steps are recorded. -/
theorem exec_cases {s : Shared Tid Addr A} {pc : PC Addr A} {t : Tid} {o : Oracle Tid Addr A}
    {r : Shared Tid Addr A × PC Addr A} (h : exec movedFrom t o s pc = .ok r) :
    (∀ id, s.mem.Deleted id → r.1.mem.Deleted id) ∧
      (r.1.history = s.history ∨ (∃ v p, pc = .moveTail v p) ∨
        (∃ old next, pc = .moveHead old next) ∨ pc = .getTail .tryPop) := by
  cases pc with
  | idle | newNode _ | lockTail _ _ | lockHead _ | getTailLock _ =>
      simp only [exec] at h
      split at h <;> cases h
      all_goals first | exact ⟨fun _ hd => hd, .inl rfl⟩ | exact ⟨fun _ hd => hd.alloc, .inl rfl⟩
  | moveTail v p =>
      cases h
      exact ⟨fun _ hd => hd, .inr (.inl ⟨v, p, rfl⟩)⟩
  | moveHead old next =>
      cases h
      exact ⟨fun _ hd => hd, .inr (.inr (.inl ⟨old, next, rfl⟩))⟩
  | getTail k =>
      cases h
      cases k with
      | tryPop => exact ⟨fun _ hd => hd, .inr (.inr (.inr rfl))⟩
      | waitAndPop => exact ⟨fun _ hd => hd, .inl (by simp)⟩
  | unlockTail | getTailUnlock _ _ | returnEmpty | block | unlockHead _ =>
      cases h
      exact ⟨fun _ hd => hd, .inl rfl⟩
  | emplace _ _ | takeData _ | destroyData _ _ | deleteNode _ _ =>
      obtain ⟨n, -, h⟩ := Memory.access_eq_ok.mp h
      split at h <;> cases h
      first | exact ⟨fun _ hd => hd.write, .inl rfl⟩ | exact ⟨fun _ hd => hd.free, .inl rfl⟩
  | linkNext _ _ =>
      obtain ⟨n, -, h⟩ := Memory.access_eq_ok.mp h
      cases h
      exact ⟨fun _ hd => hd.write, .inl rfl⟩
  | notifyOne =>
      simp only [exec] at h
      split at h
      · cases h
        exact ⟨fun _ hd => hd, .inl rfl⟩
      · split at h <;> cases h
        exact ⟨fun _ hd => hd, .inl rfl⟩
  | compare k _ =>
      simp only [exec] at h
      split at h
      · split at h <;> cases h <;> exact ⟨fun _ hd => hd, .inl rfl⟩
      · cases h
        exact ⟨fun _ hd => hd, .inl rfl⟩
  | blocked =>
      simp only [exec] at h
      split at h <;> split at h <;> cases h <;> exact ⟨fun _ hd => hd, .inl rfl⟩
  | readNext =>
      simp only [exec] at h
      split at h
      · cases h
      · obtain ⟨n, -, h⟩ := Memory.access_eq_ok.mp h
        cases h
        exact ⟨fun _ hd => hd, .inl rfl⟩

variable {g : Ghost Tid Addr A}

theorem recorded (hG : Global c.shared g) (hL : ∀ t, Local c.shared g t (c.pc t)) :
    Recorded movedFrom c := by
  intro t o d hd
  obtain ⟨r, hr, rfl⟩ := Outcome.map_eq_ok.mp hd
  rcases (exec_cases hr).2 with h | ⟨v, p, hpc⟩ | ⟨old, next, hpc⟩ | hpc
  · exact .inl h
  · rw [hpc] at hr
    cases hr
    exact .inr (.inl ⟨v, p, hpc, rfl, rfl⟩)
  · have hf := (hL t).facts
    rw [hpc] at hf hr
    obtain ⟨⟨v, rest, hnodes⟩, ⟨n, hn, rfl⟩, -⟩ := hf
    have hseg := hG.seg
    rw [hnodes] at hseg
    obtain ⟨next, ⟨hh, k, hk, hdata, -⟩, -⟩ := hseg
    obtain rfl := Option.some.inj (hk.symm.trans hn)
    cases hr
    exact .inr (.inr (.inl ⟨v, old, k, hpc, hh, hn, hdata, rfl, by simp [hn, hdata]⟩))
  · rw [hpc] at hr
    cases hr
    by_cases he : c.shared.HeadIs c.shared.tail
    · have hseg := hG.seg
      rw [hG.nodes_eq_nil he] at hseg
      exact .inr (.inr (.inr ⟨hpc, hseg, congrArg (c.shared.history ++ ·) (if_pos ⟨rfl, he⟩)⟩))
    · have hnil := congrArg (c.shared.history ++ ·) (if_neg fun h => he h.2 :
        (if Removal.tryPop = .tryPop ∧ c.shared.HeadIs c.shared.tail then [Event.empty t]
          else []) = [])
      exact .inl (hnil.trans (List.append_nil _))

/-- Only the holder of the tail mutex has a value in the dummy node. -/
theorem dummy_data (hG : Global c.shared g) (hL : ∀ t, Local c.shared g t (c.pc t)) :
    ∃ n, c.shared.mem.read c.shared.tail = some n ∧ ∀ v, n.data = some v →
      ∃ t p, c.shared.tailMutex = some t ∧ (c.pc t = .linkNext v p ∨ c.pc t = .moveTail v p) := by
  obtain ⟨n, hn, hblank⟩ := hG.dummy
  refine ⟨n, hn, fun v hv => ?_⟩
  cases hx : c.shared.tailMutex with
  | none =>
      obtain rfl := hblank hx
      simp at hv
  | some t =>
      have hh := (hL t).tail.mp hx
      have hf := (hL t).facts
      cases hpc : c.pc t <;> rw [hpc] at hf hh
      case linkNext w p =>
        obtain rfl := Option.some.inj (hn.symm.trans hf.1)
        cases hv
        exact ⟨t, p, rfl, .inl hpc⟩
      case moveTail w p =>
        obtain rfl := Option.some.inj (hn.symm.trans hf.1)
        cases hv
        exact ⟨t, p, rfl, .inr hpc⟩
      case emplace | unlockTail | getTail | getTailUnlock =>
        obtain rfl := Option.some.inj (hn.symm.trans hf.1)
        simp at hv
      all_goals exact hh.elim

theorem destroy_idle (hG : Global c.shared g) (hL : ∀ t, Local c.shared g t (c.pc t))
    (hidle : ∀ t, c.pc t = .idle) :
    ∃ fuel m, destroy fuel c.shared.head c.shared.tail c.shared.mem = .ok m ∧
      ∀ a, m.cell a = none := by
  have hx : c.shared.tailMutex = none := by
    rw [Option.eq_none_iff_forall_ne_some]
    intro t ht
    have hh := (hL t).tail.mp ht
    rw [hidle t] at hh
    exact hh
  obtain ⟨n, hn, hblank⟩ := hG.dummy
  obtain rfl := hblank hx
  obtain ⟨m, hm, hcell⟩ := destroy_path hG.seg hG.nodup hn
  refine ⟨_, m, hm, fun a => (hcell a).mpr ?_⟩
  cases hr : g.role a with
  | free => exact .inl ((hG.free a).mp hr)
  | queued => exact .inr ((hG.queued a).mp hr)
  | own t =>
      have ho := ((hL t).owned a).mp hr
      simp [hidle t, PC.owned] at ho

theorem fifo (hc : Reach (exec movedFrom) (fun c => ∃ a, c = start a) c) : Fifo movedFrom c := by
  obtain ⟨g, hG, hL⟩ := (outline movedFrom).holds hc
  refine ⟨⟨g.nodes, hG.seg, fun ht => ?_, hG.run, hG.run.pushed_eq.symm⟩, dummy_data hG hL,
    recorded hG hL, fun t => ?_, fun t ht => ?_, fun t o => (outline movedFrom).safe hc trivial,
    fun t o d id hd hid => ?_, destroy_idle hG hL⟩
  · obtain ⟨x, hx, he⟩ := List.mem_map.mp ht
    exact hG.node_ne_tail hx (by rw [he])
  · have owes : ∃ r, Owes c.shared t r := by
      have hf := (hL t).facts
      cases hpc : c.pc t <;> rw [hpc] at hf <;> simp only [PC.Facts] at hf
      case unlockHead | takeData =>
        obtain ⟨n, v, -, -, ho⟩ := hf
        exact ⟨_, ho⟩
      all_goals first | exact ⟨_, hf⟩ | exact ⟨_, hf.2⟩ | exact ⟨_, hf.2.2⟩
    obtain ⟨r, ho⟩ := owes
    exact ho ▸ List.prefix_append _ _
  · have hf := (hL t).facts
    rw [ht] at hf
    have ho : Owes c.shared t [] := hf
    simpa [Owes] using ho.symm
  · obtain ⟨r, hr, rfl⟩ := Outcome.map_eq_ok.mp hd
    exact (exec_cases hr).1 id hid

section Example

/-- Thread 1 waits for an element which thread 0 then pushes. -/
def sample : List (Bool × Oracle Bool ℕ ℕ) :=
  let push : Bool × Oracle Bool ℕ ℕ := (false, ⟨.push 7, 3, true, false⟩)
  let pop : Bool × Oracle Bool ℕ ℕ := (true, ⟨.remove .waitAndPop, 0, true, false⟩)
  List.replicate 7 pop ++ List.replicate 8 push ++ List.replicate 12 pop

theorem fifo_sample :
    ∃ d, Config.run (exec id) sample (start 0) = .ok d ∧ d.shared.returned true = [some 7] ∧
      Fifo id d :=
  ⟨_, rfl, rfl, fifo (ReachIf.run (.start ⟨0, rfl⟩)
    (rfl : Config.run (exec id) sample (start 0) = .ok _))⟩

end Example
end CsNotes.ThreadsafeQueue
