import CsNotes.ThreadsafeQueue.Exceptions

/-!
# What a step does to nodes, values and the history

The accounts of the values balance: what was constructed was destroyed, or is alive
in a node. A step that does not throw constructs one value, or destroys one, or
leaves them all, and takes effect on the queue for nobody but its own thread.
-/
namespace CsNotes.ThreadsafeQueue.Exceptions
open Interleaving Storage History Segment

variable {Tid Addr A : Type*}

section Valued
variable {m : Memory Addr (Node Addr A)} {p : Ptr Addr} {a : Addr} {n n' : Node Addr A} {id : ℕ}

theorem valued_iff : Valued m id ↔ ∃ a n, m.cell a = some (id, n) ∧ n.data ≠ none := by
  constructor
  · rintro ⟨p, n, rfl, hn, hd⟩
    exact ⟨p.addr, n, Memory.read_eq_some.mp hn, hd⟩
  · rintro ⟨a, n, hn, hd⟩
    exact ⟨⟨a, id⟩, n, rfl, Memory.read_eq_some.mpr hn, hd⟩

theorem valued_of_read (hn : m.read p = some n) : Valued m p.id ↔ n.data ≠ none := by
  constructor
  · rintro ⟨q, k, hq, hk, hd⟩
    obtain rfl := Memory.ptr_eq_of_id hk hn hq
    rwa [← Option.some.inj (hk.symm.trans hn)]
  · exact fun hd => ⟨p, n, rfl, hn, hd⟩

theorem Valued.lt (h : Valued m id) : id < m.allocs := by
  obtain ⟨a, n, hn, -⟩ := valued_iff.mp h
  exact m.id_lt a _ hn

variable [DecidableEq Addr]

theorem valued_alloc (ha : m.cell a = none) : Valued (m.alloc a {}) id ↔ Valued m id := by
  rw [valued_iff, valued_iff, Memory.cell_alloc]
  refine exists_congr fun b => exists_congr fun k => and_congr_left fun hd => ?_
  by_cases hb : b = a
  · subst hb
    rw [Function.update_self, ha]
    refine iff_of_false (fun h => ?_) (Option.some_ne_none _ ·.symm)
    cases h
    exact hd rfl
  · rw [Function.update_of_ne hb]

theorem valued_free (hn : m.read p = some n) (hd : n.data = none) :
    Valued (m.free p) id ↔ Valued m id := by
  rw [valued_iff, valued_iff, Memory.cell_free]
  refine exists_congr fun b => exists_congr fun k => and_congr_left fun hk => ?_
  by_cases hb : b = p.addr
  · subst hb
    rw [Function.update_self, Memory.read_eq_some.mp hn]
    refine iff_of_false (Option.some_ne_none _ ·.symm) fun h => ?_
    cases h
    exact hk hd
  · rw [Function.update_of_ne hb]

theorem valued_write (hn : m.read p = some n) :
    Valued (m.write p n') id ↔ id = p.id ∧ n'.data ≠ none ∨ id ≠ p.id ∧ Valued m id := by
  by_cases hid : id = p.id
  · subst hid
    simp [valued_of_read (Memory.read_write_self hn)]
  · simp only [hid, false_and, ne_eq, not_false_eq_true, true_and, false_or]
    rw [valued_iff, valued_iff, Memory.cell_write]
    refine exists_congr fun b => exists_congr fun k => and_congr_left fun _ => ?_
    by_cases hb : b = p.addr
    · subst hb
      rw [Function.update_self, Memory.read_eq_some.mp hn]
      refine iff_of_false (fun h => ?_) fun h => ?_ <;> cases h <;> exact hid rfl
    · rw [Function.update_of_ne hb]

/-- A write to a node which leaves it its value, or its lack of one. -/
theorem valued_write_same (hn : m.read p = some n) (hd : n'.data = none ↔ n.data = none) :
    Valued (m.write p n') id ↔ Valued m id := by
  rw [valued_write hn]
  by_cases hid : id = p.id
  · subst hid
    simp [valued_of_read hn, hd]
  · simp [hid]

end Valued

/-- The accounts of the values, and of the calls which were left. -/
structure Books (s : Shared Tid Addr A) : Prop where
  exits : ∀ x ∈ s.exits, x.Unaffected
  constructed : s.constructed.Nodup
  destroyed : s.destroyed.Nodup
  once : ∀ id, id ∈ s.constructed ↔ id ∈ s.destroyed ∨ Valued s.queue.mem id
  apart : ∀ id ∈ s.destroyed, ¬ Valued s.queue.mem id
  lt : ∀ id ∈ s.destroyed, id < s.queue.mem.allocs
  tail : s.queue.tail.id ∉ s.destroyed

section Books
variable {s s' : Shared Tid Addr A} {q : ThreadsafeQueue.Shared Tid Addr A}

theorem Books.congr (h : Books s) (hx : s'.exits = s.exits) (hc : s'.constructed = s.constructed)
    (hd : s'.destroyed = s.destroyed)
    (hv : ∀ id, Valued s'.queue.mem id ↔ Valued s.queue.mem id)
    (ha : s.queue.mem.allocs ≤ s'.queue.mem.allocs)
    (ht : s'.queue.tail.id ∉ s.destroyed) : Books s' := by
  constructor
  case exits => exact hx ▸ h.exits
  case constructed => exact hc ▸ h.constructed
  case destroyed => exact hd ▸ h.destroyed
  case once =>
    intro id
    rw [hc, hd, hv]
    exact h.once id
  case apart =>
    intro id hid
    rw [hv]
    exact h.apart id (hd ▸ hid)
  case lt => exact fun id hid => Nat.lt_of_lt_of_le (h.lt id (hd ▸ hid)) ha
  case tail => exact hd ▸ ht

theorem Books.emplace (h : Books s) (hb : ¬ Valued s.queue.mem s.queue.tail.id)
    (hv : ∀ id, Valued q.mem id ↔ id = s.queue.tail.id ∨ Valued s.queue.mem id)
    (ha : s.queue.mem.allocs ≤ q.mem.allocs) (ht : q.tail = s.queue.tail) :
    Books { s with queue := q, constructed := s.constructed ++ [s.queue.tail.id] } := by
  have hnew : s.queue.tail.id ∉ s.constructed := by
    rw [h.once]
    exact fun hid => hid.elim h.tail hb
  constructor
  case exits => exact h.exits
  case constructed => simpa using List.Nodup.concat hnew h.constructed
  case destroyed => exact h.destroyed
  case once =>
    intro id
    change id ∈ s.constructed ++ [s.queue.tail.id] ↔ id ∈ s.destroyed ∨ Valued q.mem id
    rw [List.mem_append, h.once, hv, List.mem_singleton, or_assoc, or_comm (a := Valued _ id)]
  case apart =>
    intro id hid hval
    rcases (hv id).mp hval with rfl | hval
    · exact h.tail hid
    · exact h.apart id hid hval
  case lt => exact fun id hid => Nat.lt_of_lt_of_le (h.lt id hid) ha
  case tail => exact ht ▸ h.tail

theorem Books.destroyData {old : Ptr Addr} (h : Books s) (hold : Valued s.queue.mem old.id)
    (hv : ∀ id, Valued q.mem id ↔ id ≠ old.id ∧ Valued s.queue.mem id)
    (ha : s.queue.mem.allocs ≤ q.mem.allocs) (ht : q.tail = s.queue.tail)
    (hne : s.queue.tail.id ≠ old.id) :
    Books { s with queue := q, destroyed := s.destroyed ++ [old.id] } := by
  have hnew : old.id ∉ s.destroyed := fun hid => h.apart _ hid hold
  constructor
  case exits => exact h.exits
  case constructed => exact h.constructed
  case destroyed => simpa using List.Nodup.concat hnew h.destroyed
  case once =>
    intro id
    change id ∈ s.constructed ↔ id ∈ s.destroyed ++ [old.id] ∨ Valued q.mem id
    rw [List.mem_append, List.mem_singleton, h.once, hv]
    by_cases hid : id = old.id
    · subst hid
      simp [hold]
    · simp [hid]
  case apart =>
    intro id hid hval
    obtain ⟨hne, hval⟩ := (hv id).mp hval
    rcases List.mem_append.mp hid with hid | hid
    · exact h.apart id hid hval
    · exact hne (List.mem_singleton.mp hid)
  case lt =>
    intro id hid
    rcases List.mem_append.mp hid with hid | hid
    · exact Nat.lt_of_lt_of_le (h.lt id hid) ha
    · rw [List.mem_singleton.mp hid]
      exact Nat.lt_of_lt_of_le hold.lt ha
  case tail =>
    change q.tail.id ∉ s.destroyed ++ [old.id]
    rw [ht, List.mem_append, List.mem_singleton]
    exact fun hid => hid.elim h.tail hne

end Books

namespace PC

/-- A removal which has taken an element out of the queue. -/
def Unlinked : PC Addr A → Prop
  | .unlockHead _ | .takeData _ | .destroyData _ _ | .deleteNode _ _ => True
  | _ => False

/-- The new dummy node of a push. -/
def newDummy : PC Addr A → Option (Ptr Addr)
  | .lockTail _ p | .emplace _ p | .linkNext _ p | .moveTail _ p => some p
  | _ => none

end PC

/-- The nodes with a value after a step from `pc`. -/
def valuedAfter (s : ThreadsafeQueue.Shared Tid Addr A) (id : ℕ) : PC Addr A → Prop
  | .emplace _ _ => id = s.tail.id ∨ Valued s.mem id
  | .destroyData old _ => id ≠ old.id ∧ Valued s.mem id
  | _ => Valued s.mem id

structure Traces (t : Tid) (s : ThreadsafeQueue.Shared Tid Addr A) (pc : PC Addr A)
    (r : ThreadsafeQueue.Shared Tid Addr A × PC Addr A) : Prop where
  history : ∃ es, r.1.history = s.history ++ es ∧ ∀ e ∈ es, e.thread = t
  begins : pc = .idle → r.1.history = s.history
  allocs : s.mem.allocs ≤ r.1.mem.allocs
  tail : r.1.tail = s.tail ∨ ∃ v, pc = .moveTail v r.1.tail
  valued : ∀ id, Valued r.1.mem id ↔ valuedAfter s id pc
  newNode : ∀ v, r.2 = .newNode v → pc = .idle
  unlinked : PC.Unlinked r.2 → PC.Unlinked pc ∨ ∃ old next, pc = .moveHead old next
  newDummy : ∀ p, PC.newDummy r.2 = some p →
    PC.newDummy pc = some p ∨ (∃ v, pc = .newNode v) ∧ p.id = s.mem.allocs

section Traces
variable {s : ThreadsafeQueue.Shared Tid Addr A} {pc : PC Addr A} {t : Tid}
variable {r : ThreadsafeQueue.Shared Tid Addr A × PC Addr A}

/-- A step which takes no effect on the queue, at most on a node. -/
theorem Traces.silent (ha : s.mem.allocs ≤ r.1.mem.allocs) (ht : r.1.tail = s.tail)
    (hh : r.1.history = s.history) (hv : ∀ id, Valued r.1.mem id ↔ valuedAfter s id pc)
    (hn : ∀ v, r.2 = .newNode v → pc = .idle) (hu : PC.Unlinked r.2 → PC.Unlinked pc)
    (hd : PC.newDummy r.2 = PC.newDummy pc ∨ PC.newDummy r.2 = none) : Traces t s pc r := by
  constructor
  case history => exact ⟨[], by rw [hh, List.append_nil], by simp⟩
  case begins => exact fun _ => hh
  case allocs => exact ha
  case tail => exact .inl ht
  case valued => exact hv
  case newNode => exact hn
  case unlinked => exact fun h => .inl (hu h)
  case newDummy =>
    intro p hp
    rcases hd with hd | hd
    · exact .inl (hd ▸ hp)
    · rw [hd] at hp
      cases hp

variable [DecidableEq Tid] [DecidableEq Addr] {movedFrom : A → A}
variable {o : ThreadsafeQueue.Oracle Tid Addr A}

theorem exec_traces (h : ThreadsafeQueue.exec movedFrom t o s pc = .ok r) : Traces t s pc r := by
  cases pc with
  | idle =>
      simp only [ThreadsafeQueue.exec] at h
      split at h <;> cases h
      · exact .silent (Nat.le_refl _) rfl rfl (fun _ => Iff.rfl) (fun _ _ => rfl) id (.inr rfl)
      · exact .silent (Nat.le_refl _) rfl rfl (fun _ => Iff.rfl) (fun _ _ => rfl) id (.inr rfl)
  | newNode v =>
      simp only [ThreadsafeQueue.exec] at h
      split at h <;> cases h
      constructor
      case history => exact ⟨[], (List.append_nil _).symm, by simp⟩
      case begins => exact fun _ => rfl
      case allocs => exact Nat.le_succ _
      case tail => exact .inl rfl
      case valued => exact fun id => valued_alloc ‹_›
      case newNode => exact fun v h => by cases h
      case unlinked => exact False.elim
      case newDummy =>
        intro p hp
        cases hp
        exact .inr ⟨⟨v, rfl⟩, rfl⟩
  | lockTail v p | lockHead k | getTailLock k =>
      simp only [ThreadsafeQueue.exec] at h
      split at h <;> cases h
      exact .silent (Nat.le_refl _) rfl rfl (fun _ => Iff.rfl) (fun _ h => by cases h) id
        (.inl rfl)
  | emplace v p =>
      obtain ⟨n, hn, h⟩ := Memory.access_eq_ok.mp h
      split at h <;> cases h
      refine .silent (Nat.le_refl _) rfl rfl (fun id => ?_) (fun _ h => by cases h) id (.inl rfl)
      rw [valued_write hn]
      simp only [valuedAfter]
      by_cases hid : id = s.tail.id <;> simp [hid]
  | linkNext v p =>
      obtain ⟨n, hn, h⟩ := Memory.access_eq_ok.mp h
      cases h
      exact .silent (Nat.le_refl _) rfl rfl (fun id => valued_write_same hn Iff.rfl)
        (fun _ h => by cases h) id (.inl rfl)
  | moveTail v p =>
      cases h
      constructor
      case history => exact ⟨[.push t v], rfl, by simp [Event.thread]⟩
      case begins => exact fun h => by cases h
      case allocs => exact Nat.le_refl _
      case tail => exact .inr ⟨v, rfl⟩
      case valued => exact fun _ => Iff.rfl
      case newNode => exact fun v h => by cases h
      case unlinked => exact False.elim
      case newDummy => exact fun p h => by cases h
  | getTail k =>
      cases h
      constructor
      case history =>
        refine ⟨_, rfl, fun e he => ?_⟩
        split at he
        · rw [List.mem_singleton.mp he]
          rfl
        · cases he
      case begins => exact fun h => by cases h
      case allocs => exact Nat.le_refl _
      case tail => exact .inl rfl
      case valued => exact fun _ => Iff.rfl
      case newNode => exact fun v h => by cases h
      case unlinked => exact False.elim
      case newDummy => exact fun p h => by cases h
  | moveHead old next =>
      cases h
      constructor
      case history =>
        refine ⟨_, rfl, fun e he => ?_⟩
        obtain ⟨v, -, rfl⟩ := Option.map_eq_some_iff.mp (Option.mem_toList.mp he)
        rfl
      case begins => exact fun h => by cases h
      case allocs => exact Nat.le_refl _
      case tail => exact .inl rfl
      case valued => exact fun _ => Iff.rfl
      case newNode => exact fun v h => by cases h
      case unlinked => exact fun _ => .inr ⟨old, next, rfl⟩
      case newDummy => exact fun p h => by cases h
  | unlockTail | getTailUnlock k p | returnEmpty | block | unlockHead old =>
      cases h
      exact .silent (Nat.le_refl _) rfl rfl (fun _ => Iff.rfl) (fun _ h => by cases h) id
        (.inr rfl)
  | notifyOne =>
      simp only [ThreadsafeQueue.exec] at h
      split at h
      · cases h
        exact .silent (Nat.le_refl _) rfl rfl (fun _ => Iff.rfl) (fun _ h => by cases h) id
          (.inr rfl)
      · split at h <;> cases h
        exact .silent (Nat.le_refl _) rfl rfl (fun _ => Iff.rfl) (fun _ h => by cases h) id
          (.inr rfl)
  | compare k p =>
      simp only [ThreadsafeQueue.exec] at h
      split at h
      · split at h <;> cases h
        all_goals
          exact .silent (Nat.le_refl _) rfl rfl (fun _ => Iff.rfl) (fun _ h => by cases h) id
            (.inr rfl)
      · cases h
        exact .silent (Nat.le_refl _) rfl rfl (fun _ => Iff.rfl) (fun _ h => by cases h) id
          (.inr rfl)
  | blocked =>
      simp only [ThreadsafeQueue.exec] at h
      split at h <;> split at h <;> cases h
      all_goals
        exact .silent (Nat.le_refl _) rfl rfl (fun _ => Iff.rfl) (fun _ h => by cases h) id
          (.inr rfl)
  | readNext =>
      simp only [ThreadsafeQueue.exec] at h
      split at h
      · cases h
      · obtain ⟨n, -, h⟩ := Memory.access_eq_ok.mp h
        cases h
        exact .silent (Nat.le_refl _) rfl rfl (fun _ => Iff.rfl) (fun _ h => by cases h) id
          (.inr rfl)
  | takeData old =>
      obtain ⟨n, hn, h⟩ := Memory.access_eq_ok.mp h
      split at h <;> cases h
      rename_i v hd
      refine .silent (Nat.le_refl _) rfl rfl (fun id => valued_write_same hn ?_)
        (fun _ h => by cases h) id (.inr rfl)
      rw [hd]
      exact iff_of_false (Option.some_ne_none _) (Option.some_ne_none _)
  | destroyData old v =>
      obtain ⟨n, hn, h⟩ := Memory.access_eq_ok.mp h
      split at h <;> cases h
      refine .silent (Nat.le_refl _) rfl rfl (fun id => ?_) (fun _ h => by cases h) id (.inr rfl)
      rw [valued_write hn]
      simp [valuedAfter]
  | deleteNode old v =>
      obtain ⟨n, hn, h⟩ := Memory.access_eq_ok.mp h
      split at h <;> cases h
      exact .silent (Nat.le_refl _) rfl rfl (fun id => valued_free hn ‹_›)
        (fun _ h => by cases h) (fun _ => trivial) (.inr rfl)

end Traces

end CsNotes.ThreadsafeQueue.Exceptions
