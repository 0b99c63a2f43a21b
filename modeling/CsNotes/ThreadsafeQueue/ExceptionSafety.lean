import CsNotes.ThreadsafeQueue.Accounts

/-!
# Exceptions lose nothing as long as elements move without one

A call that `new` throws out of has done nothing yet. One that the move constructor
throws out of has: `push` has a node which nobody will delete, and a removal has
taken its element out of the queue.
-/
namespace CsNotes.ThreadsafeQueue.Exceptions
open Interleaving Storage History Segment

variable {Tid Addr A : Type*} {s s' : Shared Tid Addr A} {g : Ghost Tid Addr A} {t u : Tid}
variable {pc : PC Addr A} {q : ThreadsafeQueue.Shared Tid Addr A} {p : Ptr Addr}

/-- What a thread has done since its call began, and that its new dummy node never
had a value. -/
structure Begun (s : Shared Tid Addr A) (t : Tid) (pc : PC Addr A) : Prop where
  since : ∃ es, s.queue.history = s.begun t ++ es ∧
    (∀ v, pc = .newNode v → ∀ e ∈ es, e.thread ≠ t) ∧ (PC.Unlinked pc → ∃ e ∈ es, e.thread = t)
  new : ∀ p, PC.newDummy pc = some p → p.id ∉ s.destroyed

theorem Begun.of_ne (h : Begun s u pc) (hut : u ≠ t)
    (hh : ∃ es, s'.queue.history = s.queue.history ++ es ∧ ∀ e ∈ es, e.thread = t)
    (hb : s'.begun u = s.begun u)
    (hd : ∀ p, PC.newDummy pc = some p → p.id ∉ s'.destroyed) : Begun s' u pc := by
  obtain ⟨es, hes, hnew, hun⟩ := h.since
  obtain ⟨fs, hfs, hthread⟩ := hh
  refine ⟨⟨es ++ fs, ?_, fun v hpc e he => ?_, fun hpc => ?_⟩, hd⟩
  · rw [hfs, hes, hb, List.append_assoc]
  · rcases List.mem_append.mp he with he | he
    · exact hnew v hpc e he
    · rw [hthread e he]
      exact hut.symm
  · obtain ⟨e, he, heu⟩ := hun hpc
    exact ⟨e, List.mem_append_left fs he, heu⟩

/-- A removal which has taken an element is not as if it had not been called. -/
theorem Begun.not_unaffected (h : Begun s t pc) (hpc : PC.Unlinked pc) :
    ¬ Exit.Unaffected ⟨t, s.begun t, s.queue.history⟩ := by
  obtain ⟨es, hes, -, hun⟩ := h.since
  obtain ⟨e, he, het⟩ := hun hpc
  rintro ⟨fs, hfs, hne⟩
  obtain rfl := List.append_cancel_left (hes.symm.trans hfs)
  exact hne e he het

/-- Where the dummy node has no value, there is one chain only. -/
theorem chain_unique {l l' : List (Ptr Addr × A)}
    (ht : q.mem.read q.tail = some {}) (h : Chain q l) (h' : Chain q l') : l = l' := by
  refine Seg.unique ?_ ?_ h h'
  · rintro p ⟨x, v⟩ ⟨y, w⟩ next next' ⟨hp, n, hn, hd, rfl⟩ ⟨hp', n', hn', hd', rfl⟩
    cases hp.symm.trans hp'
    cases hn.symm.trans hn'
    cases hd.symm.trans hd'
    exact ⟨rfl, rfl⟩
  · rintro p ⟨x, v⟩ next rfl ⟨hp, n, hn, hd, -⟩
    cases hp
    cases hn.symm.trans ht
    cases hd

theorem mem_path_iff : p ∈ path q g ↔ p ∈ g.nodes.map Prod.fst ∨ p = q.tail := by
  rw [path, List.mem_append, List.mem_singleton]

theorem read_path (hG : ThreadsafeQueue.Global q g) (hp : p ∈ path q g) :
    ∃ n, q.mem.read p = some n := by
  rcases mem_path_iff.mp hp with hp | rfl
  · obtain ⟨x, hx, rfl⟩ := List.mem_map.mp hp
    obtain ⟨_, _, -, n, hn, -⟩ := hG.seg.exists_node hx
    exact ⟨n, hn⟩
  · obtain ⟨n, hn, -⟩ := hG.dummy
    exact ⟨n, hn⟩

variable [DecidableEq Tid]

theorem record_queue : (s.record t pc q).queue = q := by
  cases pc <;> rfl

theorem record_begun (hu : u ≠ t) : (s.record t pc q).begun u = s.begun u := by
  cases pc with
  | idle => exact Function.update_of_ne hu _ _
  | _ => rfl

theorem record_begun_of_ne (hpc : pc ≠ .idle) : (s.record t pc q).begun = s.begun := by
  cases pc with
  | idle => exact (hpc rfl).elim
  | _ => rfl

theorem mem_record_destroyed {id : ℕ} (h : id ∈ (s.record t pc q).destroyed) :
    id ∈ s.destroyed ∨ ∃ old v, pc = .destroyData old v ∧ id = old.id := by
  cases pc with
  | destroyData old v =>
      rcases List.mem_append.mp h with h | h
      · exact .inl h
      · exact .inr ⟨old, v, rfl, List.mem_singleton.mp h⟩
  | _ => exact .inl h

variable [DecidableEq Addr] {movedFrom : A → A} {o : Oracle Tid Addr A}
variable {c : Config Tid (Shared Tid Addr A) (PC Addr A)}

def Global (s : Shared Tid Addr A) (g : Ghost Tid Addr A) : Prop :=
  ThreadsafeQueue.Global s.queue g ∧ Books s

def Local (s : Shared Tid Addr A) (g : Ghost Tid Addr A) (t : Tid) (pc : PC Addr A) : Prop :=
  ThreadsafeQueue.Local s.queue g t pc ∧ Begun s t pc

/-- The new dummy node of a thread is alive, and not on the path. -/
theorem read_newDummy {s : ThreadsafeQueue.Shared Tid Addr A} {p : Ptr Addr}
    (h : ThreadsafeQueue.Local s g t pc) (hp : PC.newDummy pc = some p) :
    s.mem.read p = some {} ∧ g.role p.addr = .own t := by
  have hf := h.facts
  have ho := h.owned p.addr
  cases pc with
  | lockTail v p' =>
      cases hp
      exact ⟨hf.1, ho.mpr rfl⟩
  | emplace v p' | linkNext v p' | moveTail v p' =>
      cases hp
      exact ⟨hf.2.1, ho.mpr rfl⟩
  | _ => cases hp

section Step
variable {r : ThreadsafeQueue.Shared Tid Addr A × PC Addr A}
variable (hG : Global c.shared g) (hL : ∀ u, Local c.shared g u (c.pc u))
variable (hr : ThreadsafeQueue.exec movedFrom t o.toOracle c.shared.queue (c.pc t) = .ok r)
include hL

theorem read_destroyData {old : Ptr Addr} {v : A} (hpc : c.pc t = .destroyData old v) :
    (∃ n, c.shared.queue.mem.read old = some n ∧ n.data ≠ none) ∧ g.role old.addr = .own t := by
  have hl := (hL t).1
  rw [hpc] at hl
  obtain ⟨⟨n, w, hn, hw⟩, -⟩ := hl.facts
  refine ⟨⟨n, hn, ?_⟩, (hl.owned _).mpr rfl⟩
  rw [hw]
  exact Option.some_ne_none w

include hr

theorem begun_record_of_ne (hu : u ≠ t) : Begun (c.shared.record t (c.pc t) r.1) u (c.pc u) := by
  refine (hL u).2.of_ne hu ?_ (record_begun hu) fun p hp hid => ?_
  · rw [record_queue]
    exact (exec_traces hr).history
  · rcases mem_record_destroyed hid with hid | ⟨old, v, hpc, hid⟩
    · exact (hL u).2.new p hp hid
    · obtain ⟨⟨n, hn, -⟩, hrole⟩ := read_destroyData hL hpc
      obtain ⟨hp, hrole'⟩ := read_newDummy (hL u).1 hp
      rw [Memory.ptr_eq_of_id hp hn hid, hrole] at hrole'
      cases hrole'
      exact hu rfl

include hG

theorem books_record : Books (c.shared.record t (c.pc t) r.1) := by
  have htr := exec_traces hr
  have hl := (hL t).1
  have hnew := (hL t).2.new
  have htail : r.1.tail.id ∉ c.shared.destroyed := by
    rcases htr.tail with h | ⟨v, h⟩
    · rw [h]
      exact hG.2.tail
    · rw [h] at hnew
      exact hnew _ rfl
  cases hpc : c.pc t with
  | emplace v p =>
      rw [hpc] at hl htr
      refine hG.2.emplace ?_ htr.valued htr.allocs (htr.tail.resolve_right ?_)
      · rw [valued_of_read hl.facts.1]
        exact fun h => h rfl
      · rintro ⟨w, h⟩
        cases h
  | destroyData old v =>
      obtain ⟨⟨n, hn, hd⟩, hrole⟩ := read_destroyData hL hpc
      rw [hpc] at htr
      refine hG.2.destroyData ((valued_of_read hn).mpr hd) htr.valued htr.allocs
        (htr.tail.resolve_right ?_) fun he => ?_
      · rintro ⟨w, h⟩
        cases h
      · obtain ⟨k, hk, -⟩ := hG.1.dummy
        have hqueued := (hG.1.queued _).mpr (List.mem_map_of_mem (f := Ptr.addr) tail_mem_path)
        rw [Memory.ptr_eq_of_id hk hn he, hrole] at hqueued
        cases hqueued
  | _ =>
      rw [hpc] at htr
      exact hG.2.congr rfl rfl rfl htr.valued htr.allocs htail

/-- Taking the first node off the path is in the history at once. -/
theorem moveHead_history {old : Ptr Addr} {next : Option (Ptr Addr)}
    (hpc : c.pc t = .moveHead old next) :
    ∃ v, r.1.history = c.shared.queue.history ++ [.pop t v] := by
  have hl := (hL t).1
  rw [hpc] at hl hr
  obtain ⟨⟨v, rest, hnodes⟩, -, -⟩ := hl.facts
  have hseg := hG.1.seg
  rw [hnodes] at hseg
  obtain ⟨next', ⟨-, n, hn, hd, -⟩, -⟩ := hseg
  cases hr
  exact ⟨v, by simp [hn, hd]⟩

theorem begun_record : Begun (c.shared.record t (c.pc t) r.1) t r.2 := by
  have htr := exec_traces hr
  obtain ⟨⟨es, hes, hnone, hun⟩, hnew⟩ := (hL t).2
  constructor
  case since =>
    rw [record_queue]
    by_cases hidle : c.pc t = .idle
    · refine ⟨[], ?_, fun v _ e he => ?_, fun h => ?_⟩
      · rw [htr.begins hidle, hidle, List.append_nil]
        exact (Function.update_self t c.shared.queue.history c.shared.begun).symm
      · cases he
      · rcases htr.unlinked h with h | ⟨old, next, h⟩
        · rw [hidle] at h
          exact h.elim
        · rw [hidle] at h
          cases h
    · obtain ⟨fs, hfs, hthread⟩ := htr.history
      refine ⟨es ++ fs, ?_, fun v hv => (hidle (htr.newNode v hv)).elim, fun h => ?_⟩
      · rw [hfs, hes, List.append_assoc, record_begun_of_ne hidle]
      · rcases htr.unlinked h with h | ⟨old, next, h⟩
        · obtain ⟨e, he, het⟩ := hun h
          exact ⟨e, List.mem_append_left fs he, het⟩
        · obtain ⟨v, hv⟩ := moveHead_history hG hL hr h
          obtain rfl := List.append_cancel_left (hfs.symm.trans hv)
          exact ⟨_, List.mem_append_right es (List.mem_singleton_self _), rfl⟩
  case new =>
    intro p hp hid
    rcases htr.newDummy p hp with hp | ⟨⟨v, hpc⟩, hid'⟩
    · rcases mem_record_destroyed hid with hid | ⟨old, v, hpc, -⟩
      · exact hnew p hp hid
      · rw [hpc] at hp
        cases hp
    · rcases mem_record_destroyed hid with hid | ⟨old, w, hpc', -⟩
      · exact Nat.ne_of_lt (hG.2.lt _ hid) hid'
      · rw [hpc] at hpc'
        cases hpc'

end Step

/-- A step which meets the guard throws out of a call that has done nothing yet, or
does not throw. -/
theorem exec_quiet (movedFrom : A → A) (hq : Quiet c t o) :
    (∃ v, c.pc t = .newNode v ∧ exec movedFrom t o c.shared (c.pc t) =
      .ok (c.shared.leave t c.shared.queue)) ∨
    exec movedFrom t o c.shared (c.pc t) =
      (ThreadsafeQueue.exec movedFrom t o.toOracle c.shared.queue (c.pc t)).map
        fun r => (c.shared.record t (c.pc t) r.1, r.2) := by
  unfold exec
  by_cases ho : o.throws
  · have hquiet := hq ho
    rw [if_pos ho]
    cases hpc : c.pc t with
    | newNode v => exact .inl ⟨v, rfl, rfl⟩
    | emplace v p | takeData old | deleteNode old v =>
        rw [hpc] at hquiet
        exact (hquiet trivial).elim
    | _ => exact .inr rfl
  · rw [if_neg ho]
    exact .inr rfl

omit [DecidableEq Tid] in
theorem books_start (a : Addr) :
    Books (start a : Config Tid (Shared Tid Addr A) (PC Addr A)).shared := by
  constructor
  case exits => exact fun x hx => absurd hx List.not_mem_nil
  case constructed => exact List.nodup_nil
  case destroyed => exact List.nodup_nil
  case once =>
    intro id
    refine iff_of_false List.not_mem_nil fun h => ?_
    rcases h with h | h
    · cases h
    · obtain ⟨p, n, -, hn, -⟩ := (valued_alloc Memory.cell_empty).mp h
      cases hn
  case apart => exact fun id hid => absurd hid List.not_mem_nil
  case lt => exact fun id hid => absurd hid List.not_mem_nil
  case tail => exact List.not_mem_nil

/-- The call that `new` throws out of was `push`, which has done nothing yet. -/
theorem post_leave {v : A} (hG : Global c.shared g) (hL : ∀ u, Local c.shared g u (c.pc u))
    (hpc : c.pc t = .newNode v) :
    Global (c.shared.leave t c.shared.queue).1 g ∧
      Local (c.shared.leave t c.shared.queue).1 g t .idle ∧
      ∀ u, u ≠ t → Local (c.shared.leave t c.shared.queue).1 g u (c.pc u) := by
  obtain ⟨hl, hb⟩ := hL t
  obtain ⟨es, hes, hnone, -⟩ := hb.since
  rw [hpc] at hl
  have hexit : ∀ x ∈ c.shared.exits ++ [⟨t, c.shared.begun t, c.shared.queue.history⟩],
      x.Unaffected := by
    intro x hx
    rcases List.mem_append.mp hx with hx | hx
    · exact hG.2.exits x hx
    · rw [List.mem_singleton.mp hx]
      exact ⟨es, hes, hnone v hpc⟩
  refine ⟨⟨hG.1, hexit, hG.2.constructed, hG.2.destroyed, hG.2.once, hG.2.apart, hG.2.lt,
    hG.2.tail⟩, ⟨⟨hl.head, hl.tail, hl.owned, hl.facts⟩, ?_⟩, fun u _ => ?_⟩
  · refine ⟨⟨es, hes, ?_, False.elim⟩, ?_⟩
    · intro w h
      cases h
    · intro p h
      cases h
  · exact ⟨(hL u).1, (hL u).2.since, (hL u).2.new⟩

theorem outline (movedFrom : A → A) :
    Outline (exec movedFrom) Quiet (fun c => ∃ a, c = start a)
      (Global : Shared Tid Addr A → Ghost Tid Addr A → Prop) Local where
  start := by
    rintro c ⟨a, rfl⟩
    obtain ⟨g, hG, hL⟩ := (ThreadsafeQueue.outline movedFrom).start
      (ThreadsafeQueue.start a : Config Tid _ _) ⟨a, rfl⟩
    refine ⟨g, ⟨hG, books_start a⟩, fun t => ⟨hL t, ⟨[], rfl, ?_, False.elim⟩, ?_⟩⟩
    · intro v h
      cases h
    · intro p h
      cases h
  step := by
    intro c t o g _ hq hG hL
    rcases exec_quiet movedFrom hq with ⟨v, hpc, hx⟩ | hx
    · rw [hx]
      exact ⟨g, post_leave hG hL hpc⟩
    · have hkeep : (ThreadsafeQueue.exec movedFrom t o.toOracle c.shared.queue (c.pc t)).Sat
          (Kept ⟨c.shared.queue, c.pc⟩ t) :=
        ThreadsafeQueue.keep (c := ⟨c.shared.queue, c.pc⟩) hG.1 fun u => (hL u).1
      rw [hx]
      cases hr : ThreadsafeQueue.exec movedFrom t o.toOracle c.shared.queue (c.pc t) with
      | wait => trivial
      | fault => exact (hkeep.ne_fault hr).elim
      | ok r =>
          obtain ⟨g', hG', ht, hu⟩ := hkeep.of_ok hr
          have hqueue : (c.shared.record t (c.pc t) r.1).queue = r.1 := record_queue
          rw [← hqueue] at hG' ht hu
          refine ⟨g', ⟨hG', books_record hG hL hr⟩, ⟨ht, begun_record hG hL hr⟩, fun u hut => ?_⟩
          exact ⟨hu u hut, begun_record_of_ne hL hr hut⟩

theorem nothingLost (hG : Global c.shared g) (hL : ∀ u, Local c.shared g u (c.pc u)) :
    NothingLost c := by
  constructor
  case elements => exact ⟨g.nodes, hG.1.seg, hG.1.run⟩
  case exits => exact hG.2.exits
  case once =>
    refine ⟨hG.2.constructed, hG.2.destroyed, fun id => ⟨fun hid => ?_, fun ⟨hid, hval⟩ => ?_⟩⟩
    · exact ⟨(hG.2.once id).mpr (.inl hid), hG.2.apart id hid⟩
    · exact ((hG.2.once id).mp hid).resolve_right hval
  case nodes =>
    intro p n hn
    cases hrole : g.role p.addr with
    | free => exact (Memory.cell_ne_none_of_read hn ((hG.1.free _).mp hrole)).elim
    | queued =>
        obtain ⟨p', hp', he⟩ := List.mem_map.mp ((hG.1.queued _).mp hrole)
        obtain ⟨n', hn'⟩ := read_path hG.1 hp'
        rw [Memory.ptr_eq_of_read hn hn' he.symm]
        exact .inl ⟨g.nodes, hG.1.seg, mem_path_iff.mp hp'⟩
    | own t => exact .inr ⟨t, ((hL t).1.owned _).mp hrole⟩
  case mutexes =>
    intro t hpc
    have hl := (hL t).1
    rw [hpc] at hl
    exact ⟨hl.head.mp, hl.tail.mp⟩

theorem advance_throws (ho : o.throws)
    (hx : throwing t c.shared (c.pc t) = some (.ok (c.shared.leave t q))) :
    c.advance (exec movedFrom) t o =
      .ok ⟨(c.shared.leave t q).1, Function.update c.pc t .idle⟩ := by
  unfold Config.advance exec
  rw [if_pos ho, hx]
  rfl

/-- When the move into the dummy node throws, the new node is lost. -/
theorem lost_emplace {v : A} {p : Ptr Addr} (hG : Global c.shared g)
    (hL : ∀ u, Local c.shared g u (c.pc u)) (ho : o.throws) (hpc : c.pc t = .emplace v p) :
    ∃ d, c.advance (exec movedFrom) t o = .ok d ∧ ¬ NothingLost d := by
  have hl := (hL t).1
  rw [hpc] at hl
  obtain ⟨htail, hp, -⟩ := hl.facts
  have hrole := (hl.owned _).mpr rfl
  refine ⟨_, advance_throws (q := { c.shared.queue with tailMutex := none }) ho ?_, fun h => ?_⟩
  · rw [hpc]
    simp only [throwing, Memory.access_of_read htail]
  · rcases h.nodes p {} hp with ⟨l, hl', hmem⟩ | ⟨u, hu⟩
    · obtain rfl := chain_unique htail hG.1.seg hl'
      have hqueued := (hG.1.queued _).mpr
        (List.mem_map_of_mem (f := Ptr.addr) (mem_path_iff.mpr hmem))
      rw [hrole] at hqueued
      cases hqueued
    · have howned : (Function.update c.pc t .idle u).owned = some p.addr := hu
      by_cases hut : u = t
      · subst hut
        rw [Function.update_self] at howned
        cases howned
      · rw [Function.update_of_ne hut] at howned
        have hrole' := ((hL u).1.owned _).mpr howned
        rw [hrole] at hrole'
        cases hrole'
        exact hut rfl

/-- When a removal is left by an exception, its element is lost. -/
theorem lost_removal (hb : Begun c.shared t (c.pc t)) (hun : PC.Unlinked (c.pc t)) (ho : o.throws)
    {m : Memory Addr (Node Addr A)} (hx : throwing t c.shared (c.pc t) =
      some (.ok (c.shared.leave t { c.shared.queue with mem := m }))) :
    ∃ d, c.advance (exec movedFrom) t o = .ok d ∧ ¬ NothingLost d := by
  refine ⟨_, advance_throws ho hx, fun h => hb.not_unaffected hun (h.exits _ ?_)⟩
  exact List.mem_append_right _ (List.mem_singleton_self _)

theorem lost (hG : Global c.shared g) (hL : ∀ u, Local c.shared g u (c.pc u))
    (hq : ¬ Quiet c t o) : ∃ d, c.advance (exec movedFrom) t o = .ok d ∧ ¬ NothingLost d := by
  simp only [Quiet, not_forall, not_not] at hq
  obtain ⟨ho, hmoves⟩ := hq
  have hl := (hL t).1
  have hb := (hL t).2
  cases hpc : c.pc t with
  | emplace v p => exact lost_emplace hG hL ho hpc
  | takeData old =>
      rw [hpc] at hl
      obtain ⟨n, v, hn, hd, -⟩ := hl.facts
      refine lost_removal hb (hpc ▸ trivial) ho (m := c.shared.queue.mem.free old) ?_
      rw [hpc]
      simp only [throwing, Memory.access_of_read hn, hd]
  | deleteNode old v =>
      rw [hpc] at hl
      obtain ⟨⟨n, hn, hd⟩, -⟩ := hl.facts
      refine lost_removal hb (hpc ▸ trivial) ho (m := c.shared.queue.mem.free old) ?_
      rw [hpc]
      simp only [throwing, Memory.access_of_read hn, hd]
  | _ =>
      rw [hpc] at hmoves
      exact hmoves.elim

/-- Nothing is lost throughout exactly if no move constructor throws. -/
theorem nothing_lost_iff_quiet (movedFrom : A → A) (a : Addr)
    (sched : List (Tid × Oracle Tid Addr A)) :
    (start a).Throughout (exec movedFrom) NothingLost sched ↔
      (start a).Meets (exec movedFrom) Quiet sched := by
  have hstart : ReachIf (exec movedFrom) Quiet (fun c => ∃ a, c = start a)
      (start a : Config Tid (Shared Tid Addr A) (PC Addr A)) := .start ⟨a, rfl⟩
  refine throughout_iff_meets (fun c hc => ?_) (fun c t o hc hq => ?_) hstart
  · obtain ⟨g, hG, hL⟩ := (outline movedFrom).holds hc
    exact nothingLost hG hL
  · obtain ⟨g, hG, hL⟩ := (outline movedFrom).holds hc
    exact lost hG hL hq

section Example

/-- A thread pushes 7, and its `try_pop` is left as the element moves out. -/
def losing : List (Bool × Oracle Bool ℕ ℕ) :=
  let push : Bool × Oracle Bool ℕ ℕ := (false, ⟨⟨.push 7, 3, false, false⟩, false⟩)
  let pop (throws : Bool) : Bool × Oracle Bool ℕ ℕ :=
    (false, ⟨⟨.remove .tryPop, 0, false, false⟩, throws⟩)
  List.replicate 8 push ++ List.replicate 9 (pop false) ++ [pop true]

/-- The queue is empty, and nobody has got the element. -/
theorem removal_loses_element :
    (∃ d, Config.run (exec id) losing (start 0) = .ok d ∧
      d.shared.queue.head = some d.shared.queue.tail ∧ d.shared.queue.returned false = [] ∧
      d.shared.constructed = [0] ∧ d.shared.destroyed = []) ∧
    ¬ (start 0).Throughout (exec id) NothingLost losing := by
  refine ⟨⟨_, rfl, rfl, rfl, rfl, rfl⟩, fun h => ?_⟩
  have hlost := h losing List.prefix_rfl _ rfl
  obtain ⟨es, hes, hne⟩ := hlost.exits _ (List.mem_singleton_self _)
  obtain rfl : [Event.pop false 7] = es := List.append_cancel_left hes
  exact hne _ (List.mem_singleton_self _) rfl

end Example
end CsNotes.ThreadsafeQueue.Exceptions
