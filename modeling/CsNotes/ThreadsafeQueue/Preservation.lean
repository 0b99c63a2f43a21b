import CsNotes.ThreadsafeQueue.Steps

/-!
# Every step keeps the assertions

One lemma for each kind of step, one for each control point, and from them the
proof outline of the queue.
-/
namespace CsNotes.ThreadsafeQueue
open Interleaving Storage History Segment

variable {Tid Addr A : Type*} [DecidableEq Tid] [DecidableEq Addr]
variable {s' : Shared Tid Addr A} {g : Ghost Tid Addr A} {movedFrom : A → A}
variable {t : Tid} {pc' : PC Addr A} {p : Ptr Addr} {n n' : Node Addr A} {v : A} {k : Removal}
variable {o : Oracle Tid Addr A} {c : Config Tid (Shared Tid Addr A) (PC Addr A)}

def Kept (c : Config Tid (Shared Tid Addr A) (PC Addr A)) (t : Tid)
    (r : Shared Tid Addr A × PC Addr A) : Prop :=
  ∃ g', Global r.1 g' ∧ Local r.1 g' t r.2 ∧ ∀ u, u ≠ t → Local r.1 g' u (c.pc u)

theorem kept_of_same (hG : Global c.shared g) (hL : ∀ u, Local c.shared g u (c.pc u))
    (hm : s'.mem = c.shared.mem) (hh : s'.head = c.shared.head) (ht : s'.tail = c.shared.tail)
    (hd : s'.tailMutex = none →
      c.shared.tailMutex = none ∨ c.shared.mem.read c.shared.tail = some {})
    (hrun : QueueRun s'.history (g.nodes.map Prod.snd))
    (hH : ∀ u, u ≠ t → (s'.headMutex = some u ↔ c.shared.headMutex = some u))
    (hT : ∀ u, u ≠ t → (s'.tailMutex = some u ↔ c.shared.tailMutex = some u))
    (ho : ∀ u, u ≠ t → answers u s'.history = answers u c.shared.history)
    (hr : ∀ u, u ≠ t → s'.returned u = c.shared.returned u)
    (hH' : s'.headMutex = some t ↔ pc'.HoldsHead) (hT' : s'.tailMutex = some t ↔ pc'.HoldsTail)
    (how : pc'.owned = (c.pc t).owned) (hf : pc'.Facts s' g t) : Kept c t (s', pc') :=
  ⟨g, hG.of_same hm hh ht hd hrun, ⟨hH', hT', fun a => how ▸ (hL t).owned a, hf⟩,
    fun u hu => (hL u).frame (.of_same hm hh ht (hH u hu) (hT u hu) (ho u hu) (hr u hu))⟩

theorem kept_of_local (hG : Global c.shared g) (hL : ∀ u, Local c.shared g u (c.pc u))
    (hH : (c.pc t).HoldsHead ↔ pc'.HoldsHead) (hT : (c.pc t).HoldsTail ↔ pc'.HoldsTail)
    (how : pc'.owned = (c.pc t).owned) (hf : pc'.Facts c.shared g t) : Kept c t (c.shared, pc') :=
  kept_of_same hG hL rfl rfl rfl .inl hG.run (fun _ _ => Iff.rfl) (fun _ _ => Iff.rfl)
    (fun _ _ => rfl) (fun _ _ => rfl) ((hL t).head.trans hH) ((hL t).tail.trans hT) how hf

/-- The step changed one node off the path, which was free or its own. -/
theorem kept_of_set (hG : Global c.shared g) (hL : ∀ u, Local c.shared g u (c.pc u)) {a : Addr}
    {r : Role Tid} (hq : g.role a = .free ∨ g.role a = .own t) (hr : r = .free ∨ r = .own t)
    (hf : r = .free ↔ s'.mem.cell a = none) (hm : Memory.EqOff a c.shared.mem s'.mem)
    (hh : s'.head = c.shared.head) (ht : s'.tail = c.shared.tail)
    (hH : s'.headMutex = c.shared.headMutex) (hT : s'.tailMutex = c.shared.tailMutex)
    (hi : s'.history = c.shared.history)
    (hret : ∀ u, u ≠ t → s'.returned u = c.shared.returned u)
    (hH' : (c.pc t).HoldsHead ↔ pc'.HoldsHead) (hT' : (c.pc t).HoldsTail ↔ pc'.HoldsTail)
    (how : ∀ b, b ≠ a → ((c.pc t).owned = some b ↔ pc'.owned = some b))
    (how' : r = .own t ↔ pc'.owned = some a) (hfacts : pc'.Facts s' (g.set a r) t) :
    Kept c t (s', pc') := by
  have hqueued : g.role a ≠ .queued := by
    rcases hq with hq | hq <;> simp [hq]
  have hr' : r ≠ .queued := by
    rcases hr with rfl | rfl <;> simp
  refine ⟨g.set a r, hG.of_set hqueued hr' hf hm hh ht hT hi, ⟨?_, ?_, fun b => ?_, hfacts⟩,
    fun u hu => (hL u).frame (.of_set hG hqueued ?_ ?_ hm hh ht hH hT hi (hret u hu))⟩
  · rw [hH]
    exact (hL t).head.trans hH'
  · rw [hT]
    exact (hL t).tail.trans hT'
  · by_cases hb : b = a
    · subst hb
      simpa only [Ghost.set, Function.update_self] using how'
    · simpa only [Ghost.set, Function.update_of_ne hb] using ((hL t).owned b).trans (how b hb)
  · rcases hq with hq | hq <;> simp [hq, hu.symm]
  · rcases hr with rfl | rfl <;> simp [hu.symm]

theorem keep_idle (hG : Global c.shared g) (hL : ∀ u, Local c.shared g u (c.pc u))
    (hpc : c.pc t = .idle) : (exec movedFrom t o c.shared (c.pc t)).Sat (Kept c t) := by
  have hf := (hL t).facts
  rw [hpc] at hf ⊢
  simp only [exec]
  cases o.call with
  | push v =>
      exact kept_of_local hG hL (by rw [hpc]; rfl) (by rw [hpc]; rfl) (by rw [hpc]; rfl) hf
  | remove k =>
      exact kept_of_local hG hL (by rw [hpc]; rfl) (by rw [hpc]; rfl) (by rw [hpc]; rfl) hf

theorem keep_newNode (hG : Global c.shared g) (hL : ∀ u, Local c.shared g u (c.pc u))
    (hpc : c.pc t = .newNode v) : (exec movedFrom t o c.shared (c.pc t)).Sat (Kept c t) := by
  have hf := (hL t).facts
  rw [hpc] at hf
  simp only [hpc, exec]
  split
  · rename_i ha
    refine kept_of_set hG hL (.inl ((hG.free _).mpr ha)) (.inr rfl) ?_ Memory.eqOff_alloc
      rfl rfl rfl rfl rfl (fun _ _ => rfl) (by rw [hpc]; rfl) (by rw [hpc]; rfl)
      (fun b hb => by simp [hpc, PC.owned, hb.symm]) (by simp [PC.owned]) ⟨?_, hf⟩
    · simp [Memory.cell_alloc]
    · exact Memory.read_alloc_fresh
  · trivial

theorem keep_lockTail (hG : Global c.shared g) (hL : ∀ u, Local c.shared g u (c.pc u))
    (hpc : c.pc t = .lockTail v p) : (exec movedFrom t o c.shared (c.pc t)).Sat (Kept c t) := by
  have hl := hL t
  rw [hpc] at hl
  obtain ⟨n, hn, hblank⟩ := hG.dummy
  simp only [hpc, exec]
  split
  · rename_i hx
    obtain rfl := hblank hx
    refine kept_of_same hG hL rfl rfl rfl (by simp) hG.run (fun _ _ => Iff.rfl)
      (fun u hu => by simp [hx, hu.symm]) (fun _ _ => rfl) (fun _ _ => rfl) hl.head
      (by simp [PC.HoldsTail]) (by rw [hpc]; rfl) ?_
    exact ⟨hn, hl.facts⟩
  · trivial

/-- Writing to the dummy node inside the critical section of the tail mutex. -/
theorem kept_of_write_tail (hG : Global c.shared g) (hL : ∀ u, Local c.shared g u (c.pc u))
    (hpc : (c.pc t).HoldsTail) (hH : (c.pc t).HoldsHead ↔ pc'.HoldsHead) (hT : pc'.HoldsTail)
    (how : pc'.owned = (c.pc t).owned)
    (hf : pc'.Facts { c.shared with mem := c.shared.mem.write c.shared.tail n' } g t) :
    Kept c t ({ c.shared with mem := c.shared.mem.write c.shared.tail n' }, pc') := by
  have hx := (hL t).tail.mpr hpc
  refine ⟨g, hG.write_tail rfl rfl rfl (by simp [hx]) rfl, ⟨(hL t).head.trans hH,
    by simp [hx, hT], fun a => how ▸ (hL t).owned a, hf⟩, fun u hu => (hL u).frame ?_⟩
  exact .write_tail hG rfl rfl rfl rfl rfl (by simp [hx, hu.symm]) rfl rfl

theorem tail_ne_owned (hG : Global c.shared g) (hL : ∀ u, Local c.shared g u (c.pc u))
    (ho : (c.pc t).owned = some p.addr) : p.addr ≠ c.shared.tail.addr := by
  have hr := ((hL t).owned _).mpr ho
  exact (hG.addr_ne_of_mem tail_mem_path (by simp [hr])).symm

theorem keep_emplace (hG : Global c.shared g) (hL : ∀ u, Local c.shared g u (c.pc u))
    (hpc : c.pc t = .emplace v p) : (exec movedFrom t o c.shared (c.pc t)).Sat (Kept c t) := by
  have hf := (hL t).facts
  have hne := tail_ne_owned (p := p) hG hL (by rw [hpc]; rfl)
  rw [hpc] at hf
  obtain ⟨htail, hp, ho⟩ := hf
  simp only [hpc, exec, Memory.access_of_read htail]
  refine kept_of_write_tail hG hL (by rw [hpc]; trivial) (by rw [hpc]; rfl) trivial
    (by rw [hpc]; rfl) ⟨Memory.read_write_self htail, ?_, ho⟩
  rw [← hp]
  exact Memory.eqOff_write.read hne

theorem keep_linkNext (hG : Global c.shared g) (hL : ∀ u, Local c.shared g u (c.pc u))
    (hpc : c.pc t = .linkNext v p) : (exec movedFrom t o c.shared (c.pc t)).Sat (Kept c t) := by
  have hf := (hL t).facts
  have hne := tail_ne_owned (p := p) hG hL (by rw [hpc]; rfl)
  rw [hpc] at hf
  obtain ⟨htail, hp, ho⟩ := hf
  simp only [hpc, exec, Memory.access_of_read htail]
  refine kept_of_write_tail hG hL (by rw [hpc]; trivial) (by rw [hpc]; rfl) trivial
    (by rw [hpc]; rfl) ⟨Memory.read_write_self htail, ?_, ho⟩
  rw [← hp]
  exact Memory.eqOff_write.read hne

theorem keep_moveTail (hG : Global c.shared g) (hL : ∀ u, Local c.shared g u (c.pc u))
    (hpc : c.pc t = .moveTail v p) : (exec movedFrom t o c.shared (c.pc t)).Sat (Kept c t) := by
  have hl := hL t
  rw [hpc] at hl
  obtain ⟨htail, hp, ho⟩ := hl.facts
  have hr : g.role p.addr = .own t := (hl.owned _).mpr rfl
  have hx : c.shared.tailMutex = some t := hl.tail.mpr trivial
  simp only [hpc, exec, Outcome.sat_ok]
  refine ⟨_, hG.push hp hr htail rfl rfl rfl rfl, ⟨hl.head, hl.tail, fun a => ?_, ?_⟩,
    fun u hu => (hL u).frame ?_⟩
  · by_cases ha : a = p.addr
    · subst ha
      simp [Ghost.set, PC.owned]
    · simpa [Ghost.set, Function.update_of_ne ha, PC.owned, Ne.symm ha] using hl.owned a
  · refine ⟨hp, ?_⟩
    simpa [Owes] using ho
  · exact .push (by simp [hr, hu.symm]) rfl rfl rfl rfl (by simp [hx, hu.symm]) answers_push rfl

theorem keep_unlockTail (hG : Global c.shared g) (hL : ∀ u, Local c.shared g u (c.pc u))
    (hpc : c.pc t = .unlockTail) : (exec movedFrom t o c.shared (c.pc t)).Sat (Kept c t) := by
  have hl := hL t
  rw [hpc] at hl
  have hx : c.shared.tailMutex = some t := hl.tail.mpr trivial
  simp only [hpc, exec, Outcome.sat_ok]
  exact kept_of_same hG hL rfl rfl rfl (fun _ => .inr hl.facts.1) hG.run (fun _ _ => Iff.rfl)
    (fun u hu => by simp [hx, hu.symm]) (fun _ _ => rfl) (fun _ _ => rfl) hl.head
    (by simp [PC.HoldsTail]) (by rw [hpc]; rfl) hl.facts.2

theorem keep_notifyOne (hG : Global c.shared g) (hL : ∀ u, Local c.shared g u (c.pc u))
    (hpc : c.pc t = .notifyOne) : (exec movedFrom t o c.shared (c.pc t)).Sat (Kept c t) := by
  have hl := hL t
  rw [hpc] at hl
  simp only [hpc, exec]
  split
  · exact kept_of_local hG hL (by rw [hpc]; rfl) (by rw [hpc]; rfl) (by rw [hpc]; rfl) hl.facts
  · split
    · exact kept_of_same hG hL rfl rfl rfl .inl hG.run (fun _ _ => Iff.rfl) (fun _ _ => Iff.rfl)
        (fun _ _ => rfl) (fun _ _ => rfl) hl.head hl.tail (by rw [hpc]; rfl) hl.facts
    · trivial

theorem keep_lockHead (hG : Global c.shared g) (hL : ∀ u, Local c.shared g u (c.pc u))
    (hpc : c.pc t = .lockHead k) : (exec movedFrom t o c.shared (c.pc t)).Sat (Kept c t) := by
  have hl := hL t
  rw [hpc] at hl
  simp only [hpc, exec]
  split
  · rename_i hx
    exact kept_of_same hG hL rfl rfl rfl .inl hG.run (fun u hu => by simp [hx, hu.symm])
      (fun _ _ => Iff.rfl) (fun _ _ => rfl) (fun _ _ => rfl) (by simp [PC.HoldsHead]) hl.tail
      (by rw [hpc]; rfl) hl.facts
  · trivial

theorem keep_getTailLock (hG : Global c.shared g) (hL : ∀ u, Local c.shared g u (c.pc u))
    (hpc : c.pc t = .getTailLock k) : (exec movedFrom t o c.shared (c.pc t)).Sat (Kept c t) := by
  have hl := hL t
  rw [hpc] at hl
  obtain ⟨n, hn, hblank⟩ := hG.dummy
  simp only [hpc, exec]
  split
  · rename_i hx
    obtain rfl := hblank hx
    exact kept_of_same hG hL rfl rfl rfl (by simp) hG.run (fun _ _ => Iff.rfl)
      (fun u hu => by simp [hx, hu.symm]) (fun _ _ => rfl) (fun _ _ => rfl) hl.head
      (by simp [PC.HoldsTail]) (by rw [hpc]; rfl) ⟨hn, hl.facts⟩
  · trivial

/-- Reading `tail`: it is on the path, and if it is `head` the queue is empty now. -/
theorem keep_getTail (hG : Global c.shared g) (hL : ∀ u, Local c.shared g u (c.pc u))
    (hpc : c.pc t = .getTail k) : (exec movedFrom t o c.shared (c.pc t)).Sat (Kept c t) := by
  have hl := hL t
  rw [hpc] at hl
  have hx : c.shared.tailMutex = some t := hl.tail.mpr trivial
  obtain ⟨htail, ho⟩ := hl.facts
  simp only [hpc, exec, Outcome.sat_ok]
  refine kept_of_same hG hL rfl rfl rfl .inl ?_ (fun _ _ => Iff.rfl) (fun _ _ => Iff.rfl)
    (fun u hu => ?_) (fun _ _ => rfl) hl.head hl.tail (by rw [hpc]; rfl) ⟨htail, tail_mem_path, ?_⟩
  · split
    · rename_i he
      have hrun := hG.run
      rw [hG.nodes_eq_nil he.2] at hrun ⊢
      exact hrun.empty t
    · simpa using hG.run
  · split
    · exact answers_empty_of_ne hu.symm
    · simp
  · unfold Owes at ho ⊢
    split
    · simpa using ho
    · simpa using ho

theorem keep_getTailUnlock {r : Ptr Addr} (hG : Global c.shared g)
    (hL : ∀ u, Local c.shared g u (c.pc u)) (hpc : c.pc t = .getTailUnlock k r) :
    (exec movedFrom t o c.shared (c.pc t)).Sat (Kept c t) := by
  have hl := hL t
  rw [hpc] at hl
  have hx : c.shared.tailMutex = some t := hl.tail.mpr trivial
  obtain ⟨htail, hr, ho⟩ := hl.facts
  simp only [hpc, exec, Outcome.sat_ok]
  exact kept_of_same hG hL rfl rfl rfl (fun _ => .inr htail) hG.run (fun _ _ => Iff.rfl)
    (fun u hu => by simp [hx, hu.symm]) (fun _ _ => rfl) (fun _ _ => rfl) hl.head
    (by simp [PC.HoldsTail]) (by rw [hpc]; rfl) ⟨hr, ho⟩

/-- The comparison is with a pointer which may no longer be `tail`. -/
theorem keep_compare {r : Ptr Addr} (hG : Global c.shared g)
    (hL : ∀ u, Local c.shared g u (c.pc u)) (hpc : c.pc t = .compare k r) :
    (exec movedFrom t o c.shared (c.pc t)).Sat (Kept c t) := by
  have hl := hL t
  rw [hpc] at hl
  obtain ⟨hr, ho⟩ := hl.facts
  simp only [hpc, exec]
  split
  · rename_i he
    cases k with
    | tryPop =>
        rw [if_pos ⟨rfl, he⟩] at ho
        exact kept_of_local hG hL (by rw [hpc]; rfl) (by rw [hpc]; rfl) (by rw [hpc]; rfl) ho
    | waitAndPop =>
        rw [if_neg (by simp)] at ho
        exact kept_of_local hG hL (by rw [hpc]; rfl) (by rw [hpc]; rfl) (by rw [hpc]; rfl) ho
  · rename_i he
    rw [if_neg (fun h => he h.2)] at ho
    exact kept_of_local hG hL (by rw [hpc]; rfl) (by rw [hpc]; rfl) (by rw [hpc]; rfl)
      ⟨hG.nodes_ne_nil hr he, ho⟩

theorem keep_returnEmpty (hG : Global c.shared g) (hL : ∀ u, Local c.shared g u (c.pc u))
    (hpc : c.pc t = .returnEmpty) : (exec movedFrom t o c.shared (c.pc t)).Sat (Kept c t) := by
  have hl := hL t
  rw [hpc] at hl
  have hx : c.shared.headMutex = some t := hl.head.mpr trivial
  have ho : Owes c.shared t [none] := hl.facts
  simp only [hpc, exec, Outcome.sat_ok]
  refine kept_of_same hG hL rfl rfl rfl .inl hG.run (fun u hu => by simp [hx, hu.symm])
    (fun _ _ => Iff.rfl) (fun _ _ => rfl) (fun u hu => Function.update_of_ne hu _ _)
    (by simp [PC.HoldsHead]) hl.tail (by rw [hpc]; rfl) ?_
  simpa [PC.Facts, Owes, Shared.answer] using ho

theorem keep_block (hG : Global c.shared g) (hL : ∀ u, Local c.shared g u (c.pc u))
    (hpc : c.pc t = .block) : (exec movedFrom t o c.shared (c.pc t)).Sat (Kept c t) := by
  have hl := hL t
  rw [hpc] at hl
  have hx : c.shared.headMutex = some t := hl.head.mpr trivial
  simp only [hpc, exec, Outcome.sat_ok]
  exact kept_of_same hG hL rfl rfl rfl .inl hG.run (fun u hu => by simp [hx, hu.symm])
    (fun _ _ => Iff.rfl) (fun _ _ => rfl) (fun _ _ => rfl) (by simp [PC.HoldsHead]) hl.tail
    (by rw [hpc]; rfl) hl.facts

theorem keep_blocked (hG : Global c.shared g) (hL : ∀ u, Local c.shared g u (c.pc u))
    (hpc : c.pc t = .blocked) : (exec movedFrom t o c.shared (c.pc t)).Sat (Kept c t) := by
  have hl := hL t
  rw [hpc] at hl
  simp only [hpc, exec]
  split
  · split
    · exact kept_of_same hG hL rfl rfl rfl .inl hG.run (fun _ _ => Iff.rfl) (fun _ _ => Iff.rfl)
        (fun _ _ => rfl) (fun _ _ => rfl) hl.head hl.tail (by rw [hpc]) hl.facts
    · trivial
  · split
    · rename_i hx
      exact kept_of_same hG hL rfl rfl rfl .inl hG.run (fun u hu => by simp [hx, hu.symm])
        (fun _ _ => Iff.rfl) (fun _ _ => rfl) (fun _ _ => rfl) (by simp [PC.HoldsHead]) hl.tail
        (by rw [hpc]; rfl) hl.facts
    · trivial

theorem keep_readNext (hG : Global c.shared g) (hL : ∀ u, Local c.shared g u (c.pc u))
    (hpc : c.pc t = .readNext) : (exec movedFrom t o c.shared (c.pc t)).Sat (Kept c t) := by
  have hf := (hL t).facts
  rw [hpc] at hf
  obtain ⟨hne, ho⟩ := hf
  obtain ⟨⟨old, v⟩, rest, hnodes⟩ := List.exists_cons_of_ne_nil hne
  have hseg := hG.seg
  rw [hnodes] at hseg
  obtain ⟨next, ⟨hh, n, hn, -, hnext⟩, -⟩ := hseg
  simp only [hpc, exec, hh, Memory.access_of_read hn, Outcome.sat_ok]
  exact kept_of_local hG hL (by rw [hpc]; rfl) (by rw [hpc]; rfl) (by rw [hpc]; rfl)
    ⟨⟨v, rest, hnodes⟩, ⟨n, hn, rfl⟩, ho⟩

theorem keep_moveHead {old : Ptr Addr} {next : Option (Ptr Addr)} (hG : Global c.shared g)
    (hL : ∀ u, Local c.shared g u (c.pc u)) (hpc : c.pc t = .moveHead old next) :
    (exec movedFrom t o c.shared (c.pc t)).Sat (Kept c t) := by
  have hl := hL t
  rw [hpc] at hl
  have hx : c.shared.headMutex = some t := hl.head.mpr trivial
  obtain ⟨⟨v, rest, hnodes⟩, ⟨n, hn, rfl⟩, ho⟩ := hl.facts
  have hmem : (old, v) ∈ g.nodes := by simp [hnodes]
  have hq : g.role old.addr = .queued :=
    (hG.queued _).mpr (List.mem_map_of_mem (mem_path_of_node hmem))
  obtain ⟨hd, hG'⟩ := hG.pop (t := t) (u := t) hnodes hn (rfl : ({ c.shared with
    head := n.next, history := c.shared.history ++ [.pop t v] } : Shared Tid Addr A).mem =
      c.shared.mem) rfl rfl rfl rfl
  simp only [hpc, exec, hn, Option.bind_some, hd, Option.map_some, Option.toList_some,
    Outcome.sat_ok]
  refine ⟨_, hG', ⟨hl.head, hl.tail, fun a => ?_, ?_⟩, fun u hu => (hL u).frame ?_⟩
  · by_cases ha : a = old.addr
    · subst ha
      simp [Ghost.set, PC.owned]
    · simpa [Ghost.set, Function.update_of_ne ha, PC.owned, Ne.symm ha] using hl.owned a
  · exact ⟨n, v, hn, hd, by simpa [Owes] using ho⟩
  · exact .pop hq hu.symm rfl rfl rfl rfl (by simp [hx, hu.symm]) (answers_pop_of_ne hu.symm) rfl

theorem keep_unlockHead {old : Ptr Addr} (hG : Global c.shared g)
    (hL : ∀ u, Local c.shared g u (c.pc u)) (hpc : c.pc t = .unlockHead old) :
    (exec movedFrom t o c.shared (c.pc t)).Sat (Kept c t) := by
  have hl := hL t
  rw [hpc] at hl
  have hx : c.shared.headMutex = some t := hl.head.mpr trivial
  simp only [hpc, exec, Outcome.sat_ok]
  exact kept_of_same hG hL rfl rfl rfl .inl hG.run (fun u hu => by simp [hx, hu.symm])
    (fun _ _ => Iff.rfl) (fun _ _ => rfl) (fun _ _ => rfl) (by simp [PC.HoldsHead]) hl.tail
    (by rw [hpc]; rfl) hl.facts

theorem kept_of_write_owned (hG : Global c.shared g) (hL : ∀ u, Local c.shared g u (c.pc u))
    (hn : c.shared.mem.read p = some n) (ho : (c.pc t).owned = some p.addr)
    (ho' : pc'.owned = some p.addr) (hH : (c.pc t).HoldsHead ↔ pc'.HoldsHead)
    (hT : (c.pc t).HoldsTail ↔ pc'.HoldsTail)
    (hf : ∀ g, pc'.Facts { c.shared with mem := c.shared.mem.write p n' } g t) :
    Kept c t ({ c.shared with mem := c.shared.mem.write p n' }, pc') := by
  have hr : g.role p.addr = .own t := ((hL t).owned _).mpr ho
  refine kept_of_set hG hL (.inr hr) (.inr rfl) ?_ Memory.eqOff_write rfl rfl rfl rfl rfl
    (fun _ _ => rfl) hH hT (fun b hb => by simp [ho, ho']) (by simp [ho']) (hf _)
  simpa [Memory.cell_write_eq_none] using Memory.cell_ne_none_of_read hn

theorem keep_takeData {old : Ptr Addr} (hG : Global c.shared g)
    (hL : ∀ u, Local c.shared g u (c.pc u)) (hpc : c.pc t = .takeData old) :
    (exec movedFrom t o c.shared (c.pc t)).Sat (Kept c t) := by
  have hf := (hL t).facts
  rw [hpc] at hf
  obtain ⟨n, v, hn, hv, ho⟩ := hf
  simp only [hpc, exec, Memory.access_of_read hn, hv, Outcome.sat_ok]
  exact kept_of_write_owned hG hL hn (by rw [hpc]; rfl) rfl (by rw [hpc]; rfl) (by rw [hpc]; rfl)
    fun _ => ⟨⟨_, _, Memory.read_write_self hn, rfl⟩, ho⟩

theorem keep_destroyData {old : Ptr Addr} (hG : Global c.shared g)
    (hL : ∀ u, Local c.shared g u (c.pc u)) (hpc : c.pc t = .destroyData old v) :
    (exec movedFrom t o c.shared (c.pc t)).Sat (Kept c t) := by
  have hf := (hL t).facts
  rw [hpc] at hf
  obtain ⟨⟨n, w, hn, hw⟩, ho⟩ := hf
  simp only [hpc, exec, Memory.access_of_read hn, hw, Outcome.sat_ok]
  exact kept_of_write_owned hG hL hn (by rw [hpc]; rfl) rfl (by rw [hpc]; rfl) (by rw [hpc]; rfl)
    fun _ => ⟨⟨_, Memory.read_write_self hn, rfl⟩, ho⟩

theorem keep_deleteNode {old : Ptr Addr} (hG : Global c.shared g)
    (hL : ∀ u, Local c.shared g u (c.pc u)) (hpc : c.pc t = .deleteNode old v) :
    (exec movedFrom t o c.shared (c.pc t)).Sat (Kept c t) := by
  have hf := (hL t).facts
  have hr : g.role old.addr = .own t := ((hL t).owned _).mpr (by rw [hpc]; rfl)
  rw [hpc] at hf
  obtain ⟨⟨n, hn, hw⟩, ho⟩ := hf
  simp only [hpc, exec, Memory.access_of_read hn, hw, Outcome.sat_ok]
  refine kept_of_set hG hL (.inr hr) (.inl rfl) ?_ Memory.eqOff_free rfl rfl rfl rfl rfl
    (fun u hu => Function.update_of_ne hu _ _) (by rw [hpc]; rfl) (by rw [hpc]; rfl)
    (fun b hb => by simp [hpc, PC.owned, hb.symm]) (by simp [PC.owned]) ?_
  · simp [Memory.cell_free]
  · simpa [PC.Facts, Owes, Shared.answer] using ho

theorem keep (hG : Global c.shared g) (hL : ∀ u, Local c.shared g u (c.pc u)) :
    (exec movedFrom t o c.shared (c.pc t)).Sat (Kept c t) := by
  cases hpc : c.pc t with
  | idle => exact hpc ▸ keep_idle hG hL hpc
  | newNode v => exact hpc ▸ keep_newNode hG hL hpc
  | lockTail v p => exact hpc ▸ keep_lockTail hG hL hpc
  | emplace v p => exact hpc ▸ keep_emplace hG hL hpc
  | linkNext v p => exact hpc ▸ keep_linkNext hG hL hpc
  | moveTail v p => exact hpc ▸ keep_moveTail hG hL hpc
  | unlockTail => exact hpc ▸ keep_unlockTail hG hL hpc
  | notifyOne => exact hpc ▸ keep_notifyOne hG hL hpc
  | lockHead k => exact hpc ▸ keep_lockHead hG hL hpc
  | getTailLock k => exact hpc ▸ keep_getTailLock hG hL hpc
  | getTail k => exact hpc ▸ keep_getTail hG hL hpc
  | getTailUnlock k r => exact hpc ▸ keep_getTailUnlock hG hL hpc
  | compare k r => exact hpc ▸ keep_compare hG hL hpc
  | returnEmpty => exact hpc ▸ keep_returnEmpty hG hL hpc
  | block => exact hpc ▸ keep_block hG hL hpc
  | blocked => exact hpc ▸ keep_blocked hG hL hpc
  | readNext => exact hpc ▸ keep_readNext hG hL hpc
  | moveHead old next => exact hpc ▸ keep_moveHead hG hL hpc
  | unlockHead old => exact hpc ▸ keep_unlockHead hG hL hpc
  | takeData old => exact hpc ▸ keep_takeData hG hL hpc
  | destroyData old v => exact hpc ▸ keep_destroyData hG hL hpc
  | deleteNode old v => exact hpc ▸ keep_deleteNode hG hL hpc

theorem outline (movedFrom : A → A) :
    Outline (exec movedFrom) (fun _ _ _ => True) (fun c => ∃ a, c = start a)
      (Global : Shared Tid Addr A → Ghost Tid Addr A → Prop) Local where
  start := by
    rintro c ⟨a, rfl⟩
    refine ⟨⟨fun b => if b = a then .queued else .free, []⟩, ?_, fun t => ?_⟩
    · refine ⟨fun b => ?_, fun b => ?_, by simp [path], rfl,
        ⟨{}, Memory.read_alloc_fresh, fun _ => rfl⟩, .nil⟩
      · by_cases hb : b = a
        · simp [start, Memory.cell_alloc, hb]
        · simp [start, Memory.cell_alloc, hb]
      · by_cases hb : b = a <;> simp [start, path, hb]
    · refine ⟨by simp [start, PC.HoldsHead], by simp [start, PC.HoldsTail], fun b => ?_, rfl⟩
      by_cases hb : b = a <;> simp [start, PC.owned, hb]
  step c t o g _ _ hG hL := keep hG hL

end CsNotes.ThreadsafeQueue
