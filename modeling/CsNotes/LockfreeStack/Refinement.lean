import CsNotes.Lib.Refinement
import CsNotes.LockfreeStack.MemoryLeak
import CsNotes.LockfreeStack.References

/-!
# Shared pointers refine leaking

The stack with shared pointers does what the stack that leaks does, with the
identity of a node as its address: the latter keeps every node for ever, and to
copy and to release shared pointers is nothing there. Nodes that are compared
are alive, so their addresses are the same exactly if the nodes are.
-/
namespace CsNotes.LockfreeStack.SharedPtr
open Interleaving Storage History Segment References Refinement

variable {Tid Addr A : Type*}

/-- Where the thread is in the stack that leaks. -/
def PC.leaky : PC Addr A → MemoryLeak.PC ℕ A
  | idle => .idle
  | newNode v => .newNode v
  | loadNext v p => .loadNext v p.id
  | copyNew v p | pushCas v p => .pushCas v p.id
  | loadHead => .loadHead
  | readNext old => .readNext old.id
  | popCas old next => .popCas old.id (next.map Ptr.id)
  | takeData old => .takeData old.id
  | release _ _ k => k.leaky

/-- Live nodes are the same on both sides, and new ones are new on both. -/
structure Matches (s : Shared Tid Addr A) (s' : MemoryLeak.Shared Tid ℕ A) : Prop where
  head : s'.head = s.head.map Ptr.id
  node : ∀ p n, s.mem.read p = some n → s'.mem p.id = some ⟨n.data, n.next.map Ptr.id⟩
  fresh : ∀ i, s.mem.allocs ≤ i → s'.mem i = none
  history : s'.history = s.history
  returned : s'.returned = s.returned

def Rel (c : Config Tid (Shared Tid Addr A) (PC Addr A))
    (c' : Config Tid (MemoryLeak.Shared Tid ℕ A) (MemoryLeak.PC ℕ A)) : Prop :=
  Matches c.shared c'.shared ∧ ∀ t, c'.pc t = (c.pc t).leaky

variable {s s₁ : Shared Tid Addr A} {s' : MemoryLeak.Shared Tid ℕ A} {ps : List (Ptr Addr)}
variable {k : PC Addr A} {x y : Option (Ptr Addr)} {m : Memory Addr (Node Addr A)}
variable {p : Ptr Addr} {n : Node Addr A}

@[simp] theorem leaky_after : (PC.after ps k).leaky = k.leaky := by
  cases ps <;> rfl

variable [DecidableEq Tid] {t : Tid}

theorem Matches.answer (h : Matches s s') (r : Option A) :
    Matches (s.answer t r) (s'.answer t r) := by
  refine ⟨h.head, h.node, h.fresh, h.history, ?_⟩
  unfold Shared.answer MemoryLeak.Shared.answer
  rw [h.returned]

theorem Matches.test (h : Matches s s') : Matches (s.test t ps).1 (s'.test t).1 ∧
    (s'.test t).2 = (s.test t ps).2.leaky := by
  unfold Shared.test MemoryLeak.Shared.test
  cases hs : s.head with
  | none =>
      have hs' : s'.head = none := by rw [h.head, hs, Option.map_none]
      have ha := h.answer (t := t) none
      rw [hs']
      exact ⟨⟨ha.head, ha.node, ha.fresh, by rw [h.history], ha.returned⟩,
        (leaky_after (k := .idle)).symm⟩
  | some p =>
      have hs' : s'.head = some p.id := by rw [h.head, hs, Option.map_some]
      rw [hs']
      exact ⟨h, (leaky_after (k := .readNext p)).symm⟩

variable [DecidableEq Addr]

omit [DecidableEq Tid] in
theorem Matches.copied (h : Matches s s') (hs : Copied s x s₁) : Matches s₁ s' := by
  refine ⟨?_, fun p n hn => ?_, ?_, ?_, ?_⟩
  · rw [hs.head]
    exact h.head
  · have hc := hs.content p
    rw [hn] at hc
    obtain ⟨n₀, hn₀, he⟩ := Option.map_eq_some_iff.mp hc.symm
    have hdata : n₀.data = n.data := congrArg Prod.fst he
    have hnext : n₀.next = n.next := congrArg Prod.snd he
    rw [← hdata, ← hnext]
    exact h.node p n₀ hn₀
  · rw [hs.allocs]
    exact h.fresh
  · rw [hs.history]
    exact h.history
  · rw [hs.returned]
    exact h.returned

omit [DecidableEq Tid] in
theorem Matches.write (h : Matches s s') (hn : s.mem.read p = some n) (n' : Node Addr A) :
    Matches (s.write p n') (s'.write p.id ⟨n'.data, n'.next.map Ptr.id⟩) := by
  refine ⟨h.head, fun q d hq => ?_, fun i hi => ?_, h.history, h.returned⟩
  · have hq' : (if q = p then some n' else s.mem.read q) = some d :=
      (Memory.read_write hn).symm.trans hq
    by_cases hqp : q = p
    · rw [if_pos hqp] at hq'
      cases hq'
      rw [hqp]
      exact MemoryLeak.Shared.write_self
    · rw [if_neg hqp] at hq'
      have hid : q.id ≠ p.id := fun hid => hqp (Memory.ptr_eq_of_id hq' hn hid)
      exact (MemoryLeak.Shared.write_of_ne hid).trans (h.node q d hq')
  · have hid : i ≠ p.id := by
      rintro rfl
      exact Option.some_ne_none _ ((h.node p n hn).symm.trans (h.fresh _ hi))
    exact (MemoryLeak.Shared.write_of_ne hid).trans (h.fresh i hi)

omit [DecidableEq Tid] in
theorem Matches.recount (h : Matches s s') (hn : s.mem.read p = some n) (i : ℕ) :
    Matches (s.write p { n with useCount := i }) s' := by
  have hw := h.write hn { n with useCount := i }
  have hsame : s'.write p.id ⟨n.data, n.next.map Ptr.id⟩ = s' := by
    unfold MemoryLeak.Shared.write
    rw [← h.node p n hn, Function.update_eq_self]
  rwa [hsame] at hw

omit [DecidableEq Tid] in
theorem Matches.free (h : Matches s s') (hn : s.mem.read p = some n) :
    Matches { s with mem := s.mem.free p } s' := by
  refine ⟨h.head, fun q d hq => ?_, h.fresh, h.history, h.returned⟩
  have hq' : (if q = p then none else s.mem.read q) = some d :=
    (Memory.read_free hn).symm.trans hq
  split at hq'
  · cases hq'
  · exact h.node q d hq'

omit [DecidableEq Tid] in
theorem Matches.alloc (h : Matches s s') {a : Addr} (ha : s.mem.cell a = none) :
    Matches { s with mem := s.mem.alloc a n }
      (s'.write s.mem.allocs ⟨n.data, n.next.map Ptr.id⟩) := by
  refine ⟨h.head, fun q d hq => ?_, fun i hi => ?_, h.history, h.returned⟩
  · have hq' : (if q = s.mem.fresh a then some n else s.mem.read q) = some d :=
      (Memory.read_alloc ha).symm.trans hq
    by_cases hqa : q = s.mem.fresh a
    · rw [if_pos hqa] at hq'
      cases hq'
      rw [hqa]
      exact MemoryLeak.Shared.write_self
    · rw [if_neg hqa] at hq'
      have hid : q.id ≠ s.mem.allocs := fun hid =>
        Option.some_ne_none _ ((h.node q d hq').symm.trans (h.fresh _ hid.ge))
      exact (MemoryLeak.Shared.write_of_ne hid).trans (h.node q d hq')
  · have hi' : s.mem.allocs + 1 ≤ i := hi
    exact (MemoryLeak.Shared.write_of_ne (by omega)).trans (h.fresh i (by omega))

omit [DecidableEq Addr] in
theorem same_iff (hx : ∀ p ∈ x, ∃ n, m.read p = some n) (hy : ∀ p ∈ y, ∃ n, m.read p = some n)
    [DecidableEq Addr] : Same x y ↔ x.map Ptr.id = y.map Ptr.id := by
  unfold Same
  cases x with
  | none => cases y <;> simp
  | some p =>
      cases y with
      | none => simp
      | some q =>
          obtain ⟨n, hn⟩ := hx p rfl
          obtain ⟨d, hd⟩ := hy q rfl
          simp only [Option.map_some, Option.some.injEq]
          constructor
          · intro ha
            rw [Memory.ptr_eq_of_read hn hd ha]
          · intro hid
            rw [Memory.ptr_eq_of_id hn hd hid]

variable {c : Config Tid (Shared Tid Addr A) (PC Addr A)} {movedFrom : A → A} {o : Oracle Addr A}

/-- What a step of `t` to `r` corresponds to. -/
def Simulated (movedFrom : A → A) (t : Tid) (s' : MemoryLeak.Shared Tid ℕ A)
    (k : MemoryLeak.PC ℕ A) (r : Shared Tid Addr A × PC Addr A) : Prop :=
  (Matches r.1 s' ∧ r.2.leaky = k) ∨
    ∃ o r', MemoryLeak.exec movedFrom t o s' k = .ok r' ∧ Matches r.1 r'.1 ∧ r'.2 = r.2.leaky

theorem Matches.relink_sat {v : A} {ps : List (Ptr Addr)} (h : Matches c.shared s') (hc : Owned c)
    (hn : c.shared.mem.read p = some n) : (c.shared.relink v p ps).Sat fun r =>
      Matches r.1 (s'.write p.id ⟨n.data, s'.head⟩) ∧ r.2.leaky = .pushCas v p.id := by
  refine copy_sat hc.alive_head fun s hs => ?_
  obtain ⟨n₁, hn₁, hdata, -⟩ := hs.read hn
  rw [Memory.access_of_read hn₁]
  refine ⟨?_, leaky_after (k := .copyNew v p)⟩
  have hm := (h.copied hs).write hn₁ { n₁ with next := s.head }
  rw [hs.head, ← h.head, hdata] at hm
  rw [hs.head]
  exact hdata ▸ hm

theorem Matches.pushCas_sat {v : A} (h : Matches c.shared s') (hc : Owned c)
    (hpc : c.pc t = .pushCas v p) : (exec movedFrom t o c.shared (.pushCas v p)).Sat
      (Simulated movedFrom t s' (.pushCas v p.id)) := by
  obtain ⟨n, hn⟩ := hc.alive_held (t := t) (p := p) (by simp [hpc, PC.held])
  have hnode := h.node p n hn
  have hleak : ∀ k, s'.access p.id k = k _ := fun k => MemoryLeak.Shared.access_of hnode
  have hiff := same_iff hc.alive_head (hc.alive_next hn)
  rw [← h.head] at hiff
  simp only [exec, Memory.access_of_read hn]
  split
  case isTrue hcas =>
    let r' : MemoryLeak.Shared Tid ℕ A :=
      { s' with head := some p.id, history := s'.history ++ [.push t v] }
    refine .inr ⟨⟨.pop, 0, false⟩, (r', .idle), ?_,
      ⟨rfl, h.node, h.fresh, by rw [← h.history], h.returned⟩, (leaky_after (k := .idle)).symm⟩
    exact (hleak _).trans (if_pos ⟨hiff.mp hcas.1, rfl⟩)
  case isFalse =>
    refine (h.relink_sat hc hn).mono fun r hr => ?_
    exact .inr ⟨⟨.pop, 0, true⟩, _, (hleak _).trans (if_neg (by simp)), hr.1, hr.2.symm⟩

theorem Matches.popCas_sat {old : Ptr Addr} {next : Option (Ptr Addr)}
    (h : Matches c.shared s') (hc : Owned c) (hpc : c.pc t = .popCas old next) :
    (exec movedFrom t o c.shared (.popCas old next)).Sat
      (Simulated movedFrom t s' (.popCas old.id (next.map Ptr.id))) := by
  obtain ⟨n, hn⟩ := hc.alive_held (t := t) (p := old) (by simp [hpc, PC.held])
  have hiff := same_iff (y := some old) hc.alive_head (by simpa using ⟨n, hn⟩)
  rw [← h.head] at hiff
  simp only [exec]
  split
  case isTrue hcas =>
    let r' : MemoryLeak.Shared Tid ℕ A := { s' with
      head := next.map Ptr.id
      history := s'.history ++ [.pop t n.data] }
    refine .inr ⟨⟨.pop, 0, false⟩, (r', .takeData old.id), ?_,
      ⟨rfl, h.node, h.fresh, ?_, h.returned⟩, (leaky_after (k := .takeData old)).symm⟩
    · refine (if_pos ⟨hiff.mp hcas.1, rfl⟩).trans ?_
      rw [h.node old n hn]
      rfl
    · simp [r', hn, h.history]
  case isFalse =>
    refine copy_sat hc.alive_head fun s hs => ?_
    refine .inr ⟨⟨.pop, 0, true⟩, _, ?_, (h.copied hs).test⟩
    exact if_neg (by simp)

theorem Matches.exec_sat (h : Matches c.shared s') (hc : Owned c) :
    (exec movedFrom t o c.shared (c.pc t)).Sat
      (Simulated movedFrom t s' (c.pc t).leaky) := by
  have hheld : ∀ {p}, p ∈ (c.pc t).held → ∃ n, c.shared.mem.read p = some n := hc.alive_held
  have hleak : ∀ {a n k}, s'.mem a = some n → s'.access a k = k n :=
    MemoryLeak.Shared.access_of
  cases hpc : c.pc t <;> rw [hpc] at hheld <;> simp only [exec]
  case idle =>
    split
    · rename_i v hv
      exact .inr ⟨⟨.push v, 0, false⟩, _, rfl, h, rfl⟩
    · exact .inr ⟨⟨.pop, 0, false⟩, _, rfl, h, rfl⟩
  case newNode v =>
    split
    · rename_i ha
      let i := c.shared.mem.allocs
      refine .inr ⟨⟨.pop, i, false⟩, (s'.write i ⟨v, none⟩, .loadNext v i), ?_, h.alloc ha, rfl⟩
      exact if_pos (h.fresh i le_rfl)
    · trivial
  case loadNext v p =>
    obtain ⟨n, hn⟩ := hheld (p := p) (by simp [PC.held])
    refine (h.relink_sat hc hn).mono fun r hr => ?_
    exact .inr ⟨⟨.pop, 0, false⟩, _, hleak (h.node p n hn), hr.1, hr.2.symm⟩
  case copyNew v p =>
    exact copy_sat (fun q hq => Option.some.inj hq ▸ hheld (by simp [PC.held]))
      fun s hs => .inl ⟨h.copied hs, rfl⟩
  case pushCas v p => exact h.pushCas_sat hc hpc
  case loadHead =>
    refine copy_sat hc.alive_head fun s hs => ?_
    exact .inr ⟨⟨.pop, 0, false⟩, _, rfl, (h.copied hs).test⟩
  case readNext old =>
    obtain ⟨n, hn⟩ := hheld (p := old) (by simp [PC.held])
    rw [Memory.access_of_read hn]
    refine copy_sat (hc.alive_next hn) fun s hs => ?_
    exact .inr ⟨⟨.pop, 0, false⟩, _, hleak (h.node old n hn), h.copied hs, rfl⟩
  case popCas old next => exact h.popCas_sat hc hpc
  case takeData old =>
    obtain ⟨n, hn⟩ := hheld (p := old) (by simp [PC.held])
    rw [Memory.access_of_read hn]
    exact .inr ⟨⟨.pop, 0, false⟩, _, hleak (h.node old n hn),
      (h.write hn { n with data := movedFrom n.data }).answer _, rfl⟩
  case release p ps k =>
    obtain ⟨n, hn⟩ := hheld (p := p) (by simp [PC.held])
    rw [Memory.access_of_read hn]
    split
    · exact .inl ⟨h.free hn, leaky_after⟩
    · exact .inl ⟨h.recount hn _, leaky_after⟩

theorem refines (movedFrom : A → A) :
    Refines (exec movedFrom) (· = (start : Config Tid (Shared Tid Addr A) (PC Addr A)))
      (MemoryLeak.exec movedFrom) (· = MemoryLeak.start) Rel where
  start := by
    rintro c rfl
    refine ⟨_, rfl, ⟨rfl, fun p n hn => ?_, fun _ _ => rfl, rfl, rfl⟩, fun t => rfl⟩
    cases hn
  step := by
    intro c c' t o hc _ ⟨hm, hpc⟩
    refine Config.advance_sat ((hm.exec_sat (owned_of_reach hc)).mono fun r hr => ?_)
    rcases hr with ⟨hm', hpc'⟩ | ⟨o', r', hx, hm', hpc'⟩
    · refine .inl ⟨hm', fun u => ?_⟩
      change _ = (Function.update c.pc t r.2 u).leaky
      by_cases hut : u = t
      · subst hut
        rw [hpc u, ← hpc', Function.update_self]
      · rw [hpc u, Function.update_of_ne hut]
    · refine .inr ⟨o', ⟨r'.1, Function.update c'.pc t r'.2⟩, ?_, hm', fun u => ?_⟩
      · unfold Config.advance
        rw [hpc t, hx]
        rfl
      · change Function.update c'.pc t r'.2 u = (Function.update c.pc t r.2 u).leaky
        by_cases hut : u = t
        · subst hut
          rw [Function.update_self, Function.update_self, hpc']
        · rw [Function.update_of_ne hut, Function.update_of_ne hut, hpc u]

/-- The values in the nodes from a pointer to the null pointer. -/
def Contents (m : Memory Addr (Node Addr A)) : Option (Ptr Addr) → List A → Prop :=
  Seg (fun c v next => ∃ p n, c = some p ∧ m.read p = some n ∧ n.data = v ∧ n.next = next)
    (· = none)

/-- The history records the successful exchanges of push and pop and the reads of a
null `head` which end a pop. -/
def Recorded (movedFrom : A → A) (c : Config Tid (Shared Tid Addr A) (PC Addr A)) : Prop :=
  ∀ t o d, c.advance (exec movedFrom) t o = .ok d →
    d.shared.history = c.shared.history ∨
    (∃ v p n, c.pc t = .pushCas v p ∧ c.shared.mem.read p = some n ∧
      Same c.shared.head n.next ∧ d.shared = { c.shared with
        head := some p, history := c.shared.history ++ [.push t v] }) ∨
    (∃ old next n, c.pc t = .popCas old next ∧ Same c.shared.head (some old) ∧
      c.shared.mem.read old = some n ∧ d.shared = { c.shared with
        head := next, history := c.shared.history ++ [.pop t n.data] }) ∨
    (c.shared.head = none ∧ (c.pc t = .loadHead ∨ ∃ old next, c.pc t = .popCas old next) ∧
      d.shared = { c.shared.answer t none with history := c.shared.history ++ [.empty t] })

/-- As for the stack that leaks. A node is deleted when it is not in the stack, and
no thread has a shared pointer to it after that step. -/
structure Linearizable (movedFrom : A → A) (c : Config Tid (Shared Tid Addr A) (PC Addr A)) :
    Prop where
  alive : ∀ t o, c.advance (exec movedFrom) t o ≠ .fault
  history : ∃ l, StackRun c.shared.history l ∧ Contents c.shared.mem c.shared.head l ∧
    (pushed c.shared.history).Perm (popped c.shared.history ++ l)
  recorded : Recorded movedFrom c
  answers : ∀ t, c.shared.returned t <+: answers t c.shared.history
  answered : ∀ t, c.pc t = .idle → c.shared.returned t = History.answers t c.shared.history
  empty : ∀ t o d, c.advance (exec movedFrom) t o = .ok d →
    d.shared.returned t = c.shared.returned t ++ [none] →
    c.shared.head = none ∧ (c.pc t = .loadHead ∨ ∃ old next, c.pc t = .popCas old next)
  deleted : ∀ t o d p, c.advance (exec movedFrom) t o = .ok d →
    c.shared.mem.read p ≠ none → d.shared.mem.read p = none →
    ¬ InStack c.shared.mem c.shared.head p ∧ ∀ u, p ∉ (d.pc u).held

omit [DecidableEq Tid] [DecidableEq Addr] in
theorem Matches.contents (h : Matches s s') {l : List A}
    (hl : MemoryLeak.Contents s'.mem (x.map Ptr.id) l)
    (hx : ∀ p ∈ x, ∃ n, s.mem.read p = some n)
    (hnext : ∀ p n, s.mem.read p = some n → ∀ q ∈ n.next, ∃ d, s.mem.read q = some d) :
    Contents s.mem x l := by
  induction l generalizing x with
  | nil => exact Option.map_eq_none_iff.mp hl
  | cons v l ih =>
      obtain ⟨next, ⟨a, n', ha, hn', rfl, rfl⟩, hl⟩ := hl
      obtain ⟨p, rfl, rfl⟩ := Option.map_eq_some_iff.mp ha
      obtain ⟨n, hn⟩ := hx p rfl
      obtain rfl := Option.some.inj ((h.node p n hn).symm.trans hn')
      exact ⟨n.next, ⟨p, n, rfl, hn, rfl, rfl⟩, ih hl (hnext p n hn)⟩

/-- A step whose thread returns nothing has just read a null `head`. -/
theorem Matches.returns_none (h : Matches c.shared s') (hc : Owned c)
    {r : Shared Tid Addr A × PC Addr A} (hx : exec movedFrom t o c.shared (c.pc t) = .ok r)
    (hr : r.1.returned t = c.shared.returned t ++ [none]) :
    c.shared.head = none ∧ (c.pc t = .loadHead ∨ ∃ old next, c.pc t = .popCas old next) := by
  have hne : r.1.returned ≠ c.shared.returned := by
    intro he
    rw [he] at hr
    simp at hr
  rcases (h.exec_sat hc).of_ok hx with ⟨hm, -⟩ | ⟨o', r', hx', hm, -⟩
  · exact (hne (hm.returned.symm.trans h.returned)).elim
  · rw [← hm.returned, ← h.returned] at hr
    obtain ⟨hhead, hpc⟩ := MemoryLeak.returns_none hx' hr
    rw [h.head, Option.map_eq_none_iff] at hhead
    refine ⟨hhead, ?_⟩
    cases hk : c.pc t <;> rw [hk] at hx hpc <;> simp [PC.leaky] at hpc ⊢
    case release p ps k =>
      obtain ⟨n, -, hx⟩ := Memory.access_eq_ok.mp hx
      split at hx <;> cases hx <;> exact hne rfl

theorem test_history {ps : List (Ptr Addr)} {r : Shared Tid Addr A × PC Addr A}
    (h : (s.copy s.head fun s => .ok (s.test t ps)) = .ok r) :
    r.1.history = s.history ∨ s.head = none ∧
      r.1 = { s.answer t none with history := s.history ++ [.empty t] } := by
  cases hhead : s.head with
  | none =>
      rw [hhead] at h
      cases h
      unfold Shared.test
      rw [hhead]
      exact .inr ⟨rfl, rfl⟩
  | some p =>
      obtain ⟨s', hs, h⟩ := copy_eq_ok h
      cases h
      unfold Shared.test
      rw [hs.head, hhead]
      exact .inl hs.history

omit [DecidableEq Tid] in
theorem relink_history {v : A} {ps : List (Ptr Addr)} {r : Shared Tid Addr A × PC Addr A}
    (h : s.relink v p ps = .ok r) : r.1.history = s.history := by
  obtain ⟨s', n, hs, -, rfl⟩ := relink_eq_ok h
  exact hs.history

theorem recorded (hc : Owned c) : Recorded movedFrom c := by
  intro t o d hd
  obtain ⟨r, h, rfl⟩ := Outcome.map_eq_ok.mp hd
  have hcopy : ∀ {ps}, (c.shared.copy c.shared.head fun s => .ok (s.test t ps)) = .ok r →
      r.1.history = c.shared.history ∨ c.shared.head = none ∧
        r.1 = { c.shared.answer t none with history := c.shared.history ++ [.empty t] } := by
    intro ps h
    cases hhead : c.shared.head with
    | none =>
        rw [hhead] at h
        cases h
        unfold Shared.test
        rw [hhead]
        exact .inr ⟨rfl, rfl⟩
    | some p =>
        obtain ⟨s, hs, h⟩ := copy_eq_ok h
        cases h
        unfold Shared.test
        rw [hs.head, hhead]
        exact .inl hs.history
  have hrelink : ∀ {v p ps}, c.shared.relink v p ps = .ok r →
      r.1.history = c.shared.history := by
    intro v p ps h
    obtain ⟨s, n, hs, -, rfl⟩ := relink_eq_ok h
    exact hs.history
  have hheld : ∀ {p}, p ∈ (c.pc t).held → ∃ n, c.shared.mem.read p = some n := hc.alive_held
  cases hpc : c.pc t <;> rw [hpc] at h hheld
  case idle =>
    simp only [exec] at h
    split at h <;> cases h <;> exact .inl rfl
  case newNode v =>
    simp only [exec] at h
    split at h <;> cases h
    exact .inl rfl
  case loadNext v p => exact .inl (relink_history h)
  case copyNew v p =>
    simp only [exec] at h
    obtain ⟨s, hs, h⟩ := copy_eq_ok h
    cases h
    exact .inl hs.history
  case pushCas v p =>
    obtain ⟨n, hn, h⟩ := Memory.access_eq_ok.mp h
    split at h
    · rename_i hcas
      cases h
      exact .inr (.inl ⟨v, p, n, rfl, hn, hcas.1, rfl⟩)
    · exact .inl (relink_history h)
  case loadHead =>
    rcases test_history h with he | ⟨hhead, he⟩
    · exact .inl he
    · exact .inr (.inr (.inr ⟨hhead, .inl rfl, he⟩))
  case readNext old =>
    obtain ⟨n, -, h⟩ := Memory.access_eq_ok.mp h
    obtain ⟨s, hs, h⟩ := copy_eq_ok h
    cases h
    exact .inl hs.history
  case popCas old next =>
    obtain ⟨n, hn⟩ := hheld (p := old) (by simp [PC.held])
    simp only [exec, hn] at h
    split at h
    · rename_i hcas
      cases h
      exact .inr (.inr (.inl ⟨old, next, n, rfl, hcas.1, hn, rfl⟩))
    · rcases test_history h with he | ⟨hhead, he⟩
      · exact .inl he
      · exact .inr (.inr (.inr ⟨hhead, .inr ⟨old, next, rfl⟩, he⟩))
  case takeData old =>
    obtain ⟨n, -, h⟩ := Memory.access_eq_ok.mp h
    cases h
    exact .inl rfl
  case release p ps k =>
    obtain ⟨n, -, h⟩ := Memory.access_eq_ok.mp h
    split at h <;> cases h <;> exact .inl rfl

theorem linearizable_of_reach (hc : Reach (exec movedFrom) (· = start) c) :
    Linearizable movedFrom c := by
  obtain ⟨c', hc', hm, hpc⟩ := (refines movedFrom).holds hc
  have howned := owned_of_reach hc
  obtain ⟨-, ⟨l, hrun, hl, hperm⟩, -, hans, hidle, -⟩ := MemoryLeak.linearizable_of_reach hc'
  rw [hm.history] at hrun hperm
  rw [hm.head] at hl
  constructor
  case alive => exact (refines movedFrom).safe hc
  case history =>
    exact ⟨l, hrun, hm.contents hl howned.alive_head fun p n hn => howned.alive_next hn, hperm⟩
  case recorded => exact recorded howned
  case answers =>
    intro t
    rw [← hm.returned, ← hm.history]
    exact hans t
  case answered =>
    intro t ht
    rw [← hm.returned, ← hm.history]
    refine hidle t ?_
    rw [hpc t, ht]
    rfl
  case empty =>
    intro t o d hd hr
    obtain ⟨r, hx, rfl⟩ := Outcome.map_eq_ok.mp hd
    exact hm.returns_none howned hx hr
  case deleted =>
    intro t o d p hd hp hgone
    obtain ⟨n, hn⟩ := Option.ne_none_iff_exists'.mp hp
    exact (owned_of_reach (.step hc trivial hd)).deleted hd hn hgone

end CsNotes.LockfreeStack.SharedPtr
