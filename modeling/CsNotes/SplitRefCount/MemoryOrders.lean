import CsNotes.Lib.OrderedRuns
import CsNotes.SplitRefCount.Races

/-!
# The stack with split reference counts, with its memory orders

A pop that is not the last one to use a node takes itself out of the internal count,
and somebody else deletes the node. What it has read there has to happen before, so
it must release with that operation, and who finds that nobody is left must acquire.
In the source the first is relaxed, and the thread which adds the external count
only releases: its delete races with the reads of `next`.
-/
namespace CsNotes.SplitRefCount
open Interleaving Storage History Races ReleaseAcquire

/-- The orders of `fetch_add` and `fetch_sub` on an internal count. -/
structure Orders where
  add : MemoryOrder
  sub : MemoryOrder
deriving DecidableEq, Repr

/-- The orders that pop has. -/
def Orders.asWritten : Orders := ⟨.release, .relaxed⟩

namespace PC
variable {Addr A : Type*}

def node : PC Addr A → Option (Ptr Addr)
  | loadNext _ p | pushCas _ p | readNext _ p | unlink _ p _ | takeData _ p | addCount _ p _
  | deleteTaken p _ | subCount _ p | deleteReleased _ p => some p
  | idle | newNode _ | loadHead | count _ => none

/-- What the thread may do to its node. All that conflicts with it has to happen before. -/
def needs : PC Addr A → List (Access (Ptr Addr × Field))
  | loadNext _ p | pushCas _ p | deleteTaken p _ | deleteReleased _ p =>
      [.writes (p, .data), .writes (p, .next), .writes (p, .internalCount)]
  | readNext _ p | unlink _ p _ | subCount _ p => [.reads (p, .next), .updates (p, .internalCount)]
  | takeData _ p => [.writes (p, .data), .updates (p, .internalCount)]
  | addCount _ p _ => [.updates (p, .internalCount)]
  | idle | newNode _ | loadHead | count _ => []

theorem node_cases {pc : PC Addr A} {p : Ptr Addr} (h : pc.node = some p) :
    pc.counted = some p.addr ∨ ∃ k, pc.owned = some (p.addr, k) := by
  cases pc with
  | loadNext | pushCas | takeData | addCount | deleteTaken | deleteReleased =>
      cases h
      exact .inr ⟨_, rfl⟩
  | readNext | unlink | subCount =>
      cases h
      exact .inl rfl
  | idle | newNode | loadHead | count => cases h

theorem exists_node {pc : PC Addr A} {a : Addr} {k : Kind} (h : pc.owned = some (a, k)) :
    ∃ p, pc.node = some p ∧ p.addr = a := by
  cases pc with
  | loadNext | pushCas | takeData | addCount | deleteTaken | deleteReleased =>
      cases h
      exact ⟨_, rfl, rfl⟩
  | readNext | unlink | subCount | idle | newNode | loadHead | count => cases h

theorem node_of_needs {pc : PC Addr A} {a : Access (Ptr Addr × Field)} (h : a ∈ pc.needs) :
    pc.node = some a.loc.1 := by
  cases pc with
  | loadNext | pushCas | deleteTaken | deleteReleased | readNext | unlink | subCount | takeData
  | addCount =>
      simp only [needs, List.mem_cons, List.not_mem_nil, or_false] at h
      rcases h with rfl | rfl | rfl <;> rfl
  | idle | newNode | loadHead | count => cases h

theorem Facts.alive {pc : PC Addr A} {m : Memory Addr (Node Addr A)}
    {owed returned : List (Option A)} {p : Ptr Addr} (h : pc.Facts m owed returned)
    (hp : pc.node = some p) : ∃ n, m.read p = some n := by
  cases pc with
  | loadNext | pushCas =>
      cases hp
      obtain ⟨⟨n, hn, -⟩, -⟩ := h
      exact ⟨n, hn⟩
  | unlink =>
      cases hp
      obtain ⟨⟨n, hn, -⟩, -⟩ := h
      exact ⟨n, hn⟩
  | takeData =>
      cases hp
      obtain ⟨n, hn, -⟩ := h
      exact ⟨n, hn⟩
  | readNext | addCount | deleteTaken | subCount | deleteReleased =>
      cases hp
      exact h.1
  | idle | newNode | loadHead | count => cases hp

end PC

namespace Ordered
variable {Tid Addr A : Type*} [DecidableEq Addr]

/-- The constructor of a node counts, since its writes are to be seen by others. -/
def accesses (o : Oracle Addr A) (s : Shared Tid Addr A) :
    PC Addr A → List (Access (Ptr Addr × Field))
  | .newNode _ =>
      if s.mem.cell o.addr = none then
        [.writes (s.mem.fresh o.addr, .data), .writes (s.mem.fresh o.addr, .internalCount)]
      else []
  | pc => SplitRefCount.accesses s pc

/-- `head.load()` in push is sequentially consistent, and as the one such operation on `head`
it acquires. -/
def effect (orders : Orders) : PC Addr A → Effect (Ptr Addr)
  | .loadNext _ _ => .load .acquire
  | .pushCas _ _ => .exchange .release .relaxed
  | .loadHead => .load .relaxed
  | .count _ => .exchange .acquire .relaxed
  | .unlink _ _ _ => .exchange .relaxed .relaxed
  | .addCount _ p _ => .update p orders.add
  | .subCount _ p => .update p orders.sub
  | .deleteReleased _ _ => .fence
  | _ => .plain

def succeeds (o : Oracle Addr A) (s : Shared Tid Addr A) : PC Addr A → Bool
  | .pushCas _ p =>
      match s.mem.read p with
      | none => false
      | some n => s.head = n.next && !o.spurious
  | .count old | .unlink old _ _ => s.head = old
  | _ => false

theorem succeeds_pushCas {o : Oracle Addr A} {s : Shared Tid Addr A} {p : Ptr Addr}
    {n : Node Addr A} (v : A) (hn : s.mem.read p = some n) :
    succeeds o s (.pushCas v p) = (decide (s.head = n.next) && !o.spurious) := by
  simp only [succeeds, hn]

def program [DecidableEq Tid] (movedFrom : A → A) (orders : Orders) :
    Program Tid (Oracle Addr A) (Shared Tid Addr A) (PC Addr A) (CountedNodePtr Addr)
      (Ptr Addr × Field) (Ptr Addr) where
  code := SplitRefCount.exec movedFrom
  value := Shared.head
  withValue s v := { s with head := v }
  accesses := accesses
  effect := effect orders
  succeeds := succeeds

abbrev Knowledge (Tid Addr : Type*) :=
  Causality Tid (CountedNodePtr Addr) (Ptr Addr × Field) (Ptr Addr)

abbrev State (Tid Addr A : Type*) := Shared Tid Addr A × Knowledge Tid Addr

def start : Config Tid (State Tid Addr A) (PC Addr A) :=
  ⟨(SplitRefCount.start.shared, .start), SplitRefCount.start.pc⟩

variable [DecidableEq Tid] {movedFrom : A → A} {orders : Orders} {t u : Tid}
variable {o : Oracle Addr A} {v : CountedNodePtr Addr}

section Counts
variable {c : Config Tid (Shared Tid Addr A) (PC Addr A)} {g : Ghost Tid Addr A}

theorem keep (hG : SplitRefCount.Global c.shared g) (hL : ∀ u, Local c.shared g u (c.pc u)) :
    (SplitRefCount.exec movedFrom t o c.shared (c.pc t)).Sat (Kept c t) := by
  cases hpc : c.pc t with
  | idle => exact hpc ▸ keep_idle hG hL hpc
  | newNode v => exact hpc ▸ keep_newNode hG hL hpc
  | loadNext v p => exact hpc ▸ keep_loadNext hG hL hpc
  | pushCas v p => exact hpc ▸ keep_pushCas hG hL hpc
  | loadHead => exact hpc ▸ keep_loadHead hG hL hpc
  | count old => exact hpc ▸ keep_count hG hL hpc
  | readNext old p => exact hpc ▸ keep_readNext hG hL hpc
  | unlink old p next => exact hpc ▸ keep_unlink hG hL hpc
  | takeData old p => exact hpc ▸ keep_takeData hG hL hpc
  | addCount old p v => exact hpc ▸ keep_addCount hG hL hpc
  | deleteTaken p v => exact hpc ▸ keep_deleteTaken hG hL hpc
  | subCount old p => exact hpc ▸ keep_subCount hG hL hpc
  | deleteReleased old p => exact hpc ▸ keep_deleteReleased hG hL hpc

theorem kept_fresh {p : Ptr Addr} {n : Node Addr A} {x : A}
    (hG : SplitRefCount.Global c.shared g) (hL : ∀ u, Local c.shared g u (c.pc u))
    (ho : (c.pc t).owned = some (p.addr, .fresh)) (hc : (c.pc t).counted = none)
    (hn : c.shared.mem.read p = some n) (hx : n.data = x)
    (howed : answers t c.shared.history = c.shared.returned t) :
    Kept c t ({ c.shared with mem := c.shared.mem.write p { n with next := v } },
      .pushCas x p) := by
  obtain ⟨hr, -⟩ := (hL t).role_owned ho
  have hbal := hG.balance p n hn
  rw [hr] at hbal
  have hempty : g.readers p.addr = ∅ := by
    simpa using hbal.1
  refine kept_of_write hG hL hn ho rfl (by rw [hc]; rfl) rfl (by simp [hempty]) ?_
  exact ⟨⟨_, Memory.read_write_self hn, hx⟩, howed⟩

theorem keep_older {order : MemoryOrder}
    (hv : (program movedFrom orders).Rereads o c.shared (c.pc t) v order)
    (hG : SplitRefCount.Global c.shared g) (hL : ∀ u, Local c.shared g u (c.pc u)) :
    ((program movedFrom orders).older t o c.shared (c.pc t) v).Sat (Kept c t) := by
  have hf := (hL t).facts
  refine Outcome.sat_map.mpr ?_
  change (SplitRefCount.exec movedFrom t o { c.shared with head := v } (c.pc t)).Sat _
  cases hpc : c.pc t with
  | loadNext x p =>
      rw [hpc] at hf
      obtain ⟨⟨n, hn, hx⟩, howed⟩ := hf
      simp only [SplitRefCount.exec, Memory.access_of_read hn, Outcome.sat_ok]
      exact kept_fresh hG hL (by rw [hpc]; rfl) (by rw [hpc]; rfl) hn hx howed
  | pushCas x p =>
      rw [hpc] at hf hv
      obtain ⟨⟨n, hn, hx⟩, howed⟩ := hf
      rcases hv with hv | ⟨-, hv⟩
      · cases hv
      · have hfail : ¬ (v = n.next ∧ o.spurious = false) := by
          simpa using (succeeds_pushCas (s := { c.shared with head := v }) x hn).symm.trans hv
        simp only [SplitRefCount.exec, Memory.access_of_read hn, if_neg hfail, Outcome.sat_ok]
        exact kept_fresh hG hL (by rw [hpc]; rfl) (by rw [hpc]; rfl) hn hx howed
  | loadHead =>
      rw [hpc] at hf
      exact kept_of_same hG hL (by rw [hpc]; rfl) (by rw [hpc]; rfl) hf
  | count old =>
      rw [hpc] at hf hv
      rcases hv with hv | ⟨-, hv⟩
      · cases hv
      · have hne : v ≠ old := of_decide_eq_false hv
        simp only [SplitRefCount.exec, if_neg hne, Outcome.sat_ok]
        exact kept_of_same hG hL (by rw [hpc]; rfl) (by rw [hpc]; rfl) hf
  | unlink old p next =>
      rw [hpc] at hf hv
      obtain ⟨⟨n, hn, -⟩, -, howed⟩ := hf
      rcases hv with hv | ⟨-, hv⟩
      · cases hv
      · have hne : v ≠ old := of_decide_eq_false hv
        simp only [SplitRefCount.exec, if_neg hne, Outcome.sat_ok]
        exact kept_of_same hG hL (by rw [hpc]; rfl) (by rw [hpc]; rfl) ⟨⟨n, hn⟩, howed⟩
  | _ =>
      rw [hpc] at hv
      rcases hv with hv | ⟨⟨_, hv⟩, -⟩ <;> cases hv

theorem counts {c : Config Tid (State Tid Addr A) (PC Addr A)}
    (hc : Reach (program movedFrom orders).exec (· = start) c) :
    ∃ g : Ghost Tid Addr A, SplitRefCount.Global c.shared.1 g ∧
      ∀ t, Local c.shared.1 g t (c.pc t) := by
  refine holds_of_reach (P := program movedFrom orders) (fun c hc => ?_)
    (fun c t o g hG hL => keep hG hL) (fun c t o g v order hv hG hL => keep_older hv hG hL) hc
  subst hc
  exact (outline movedFrom).start _ rfl

end Counts

abbrev Run (Tid Addr A : Type*) := Config Tid (State Tid Addr A) (PC Addr A)

/-- What the thread will know when it makes the next accesses to its node. -/
def knows (m : Knowledge Tid Addr) (t : Tid) : PC Addr A → View
  | .deleteReleased _ _ => m.view t ⊔ m.pending t
  | _ => m.view t

/-- On the list: nobody has the node for themselves, and its counts are not joined. -/
structure Linked (c : Run Tid Addr A) (p : Ptr Addr) : Prop where
  alive : ∃ n, c.shared.1.mem.read p = some n ∧ n.internalCount ≤ 0
  unowned : ∀ u, (c.pc u).node = some p → (c.pc u).owned = none

/-- Linked at some time, and nobody is about to delete the node. -/
structure InUse (c : Run Tid Addr A) (p : Ptr Addr) : Prop where
  alive : ∃ n, c.shared.1.mem.read p = some n
  popped : ∀ u a k, (c.pc u).node = some p → (c.pc u).owned = some (a, k) → ∃ e, k = .popped e

omit [DecidableEq Tid] [DecidableEq Addr] in
theorem Linked.inUse {c : Run Tid Addr A} {p : Ptr Addr} (h : Linked c p) : InUse c p := by
  obtain ⟨n, hn, -⟩ := h.alive
  refine ⟨⟨n, hn⟩, fun u a k hu ho => ?_⟩
  rw [h.unowned u hu] at ho
  cases ho

/-- An access to a node has been released through the internal count, or one of its users
knows of it, or everybody does who gets the node from `head`. -/
def Accounted (c : Run Tid Addr A) (p : Ptr Addr) (i : ℕ) : Prop :=
  i ∈ (c.shared.2.released p).1 ∨ (∃ u, (c.pc u).node = some p ∧ i ∈ (c.shared.2.view u).1) ∨
    Linked c p ∧ i ∈ c.shared.2.current.1 ∧
      ∀ u, (c.pc u).node = some p → i ∈ (c.shared.2.view u).1

/-- What the last store in `head` has released of a node, and what its users know. -/
structure Tended (c : Run Tid Addr A) (p : Ptr Addr) : Prop where
  next : Linked c p → c.shared.2.Covers c.shared.2.current (.reads (p, .next))
  count : Linked c p → c.shared.2.Covers c.shared.2.current (.updates (p, .internalCount))
  data : Linked c p → c.shared.2.Covers c.shared.2.current (.writes (p, .data)) ∧
    ∀ u, (c.pc u).node = some p → c.shared.2.Covers (c.shared.2.view u) (.writes (p, .data))
  accounted : InUse c p → ∀ i x, c.shared.2.log[i]? = some x → x.2.loc.1 = p → Accounted c p i

structure Known (c : Run Tid Addr A) : Prop where
  unused : ∀ x ∈ c.shared.2.log, x.2.loc.1.id < c.shared.1.mem.allocs
  needs : ∀ u, ∀ a ∈ (c.pc u).needs, c.shared.2.Covers (knows c.shared.2 u (c.pc u)) a
  tended : ∀ p, Tended c p

abbrev after (c : Run Tid Addr A) (t : Tid) (r : State Tid Addr A × PC Addr A) :
    Run Tid Addr A := ⟨r.1, Function.update c.pc t r.2⟩

variable {c : Run Tid Addr A} {g : Ghost Tid Addr A} {r : State Tid Addr A × PC Addr A}
variable {p q : Ptr Addr} {l : List (Access (Ptr Addr × Field))} {i : ℕ} {pc' : PC Addr A}

omit [DecidableEq Addr] in
theorem after_of_ne (hu : u ≠ t) : (after c t r).pc u = c.pc u := Function.update_of_ne hu _ _

omit [DecidableEq Addr] in
theorem after_self : (after c t r).pc t = r.2 := Function.update_self ..

section Users
variable (hG : SplitRefCount.Global c.shared.1 g) (hL : ∀ u, Local c.shared.1 g u (c.pc u))
include hL

omit [DecidableEq Addr] in
theorem user_cases (h : (c.pc u).node = some p) :
    u ∈ g.readers p.addr ∨ ∃ k, g.role p.addr = .own u k := by
  rcases PC.node_cases h with h | ⟨k, h⟩
  · exact .inl (((hL u).counted _).mpr h)
  · exact .inr ⟨k, ((hL u).owned _ k).mpr h⟩

include hG

omit [DecidableEq Addr] in
/-- A node that one thread has for itself has no other users. -/
theorem sole_user {n : Node Addr A} {k : Kind} (hn : c.shared.1.mem.read p = some n)
    (hr : g.role p.addr = .own t k) (hk : k = .fresh ∨ k = .dying)
    (hu : (c.pc u).node = some p) : u = t := by
  have hbal := hG.balance p n hn
  have hempty : g.readers p.addr = ∅ := by
    rw [hr] at hbal
    rcases hk with rfl | rfl
    · simpa using hbal.1
    · simpa [Balanced] using hbal
  rcases user_cases hL hu with h | ⟨j, h⟩
  · simp [hempty] at h
  · rw [hr] at h
    cases h
    rfl

omit [DecidableEq Addr] in
theorem Linked.role (h : Linked c p) : g.role p.addr = .linked := by
  obtain ⟨n, hn, hle⟩ := h.alive
  have hbal := hG.balance p n hn
  cases hr : g.role p.addr with
  | free => exact (Memory.cell_ne_none_of_read hn ((hG.free _).mp hr)).elim
  | linked => rfl
  | retired =>
      rw [hr] at hbal
      exact absurd hbal.2 (by omega)
  | own u k =>
      have ho := ((hL u).owned _ k).mp hr
      obtain ⟨q, hq, hqp⟩ := PC.exists_node ho
      obtain ⟨n', hn'⟩ := (hL u).facts.alive hq
      obtain rfl := Memory.ptr_eq_of_read hn' hn hqp
      rw [h.unowned u hq] at ho
      cases ho

omit [DecidableEq Addr] in
theorem linked_of_role {n : Node Addr A} (hn : c.shared.1.mem.read p = some n)
    (hr : g.role p.addr = .linked) : Linked c p := by
  obtain ⟨x, hx, hxp⟩ := List.mem_map.mp ((hG.linked _).mp hr)
  obtain ⟨_, _, -, q, k, hq, hk, -, -, -, hle⟩ := hG.seg.exists_node hx
  obtain rfl := Memory.ptr_eq_of_read hk hn (hq.trans hxp)
  refine ⟨⟨k, hk, hle⟩, fun u hu => ?_⟩
  cases ho : (c.pc u).owned with
  | none => rfl
  | some y =>
      obtain ⟨a, j⟩ := y
      have hrole := ((hL u).owned a j).mpr ho
      obtain ⟨q', hq', rfl⟩ := PC.exists_node ho
      cases hu.symm.trans hq'
      rw [hr] at hrole
      cases hrole

omit [DecidableEq Addr] in
/-- What a thread may do to its node is allowed at the stage the node is in. -/
theorem needs_allowed {a : Access (Ptr Addr × Field)} (ha : a ∈ (c.pc u).needs) :
    ((g.role a.loc.1.addr).permission a.loc.2).Allows u a := by
  have hl := hL u
  cases hpc : c.pc u with
  | loadNext v p | pushCas v p =>
      rw [hpc] at ha hl
      have hr : g.role p.addr = .own u .fresh := (hl.owned _ _).mpr rfl
      have hloc : a.loc.1 = p := by
        simp only [PC.needs, List.mem_cons, List.not_mem_nil, or_false] at ha
        rcases ha with rfl | rfl | rfl <;> rfl
      rw [hloc, hr]
      rfl
  | deleteTaken p v | deleteReleased old p =>
      rw [hpc] at ha hl
      have hr : g.role p.addr = .own u .dying := (hl.owned _ _).mpr rfl
      have hloc : a.loc.1 = p := by
        simp only [PC.needs, List.mem_cons, List.not_mem_nil, or_false] at ha
        rcases ha with rfl | rfl | rfl <;> rfl
      rw [hloc, hr]
      rfl
  | readNext old p | unlink old p next | subCount old p =>
      rw [hpc] at ha hl
      obtain ⟨n, hn⟩ := hl.facts.alive rfl
      obtain ⟨hnext, hcount⟩ :=
        permission_of_reader (c := ⟨c.shared.1, c.pc⟩) hG hn ((hl.counted _).mpr rfl)
      simp only [PC.needs, List.mem_cons, List.not_mem_nil, or_false] at ha
      rcases ha with rfl | rfl
      · change ((g.role p.addr).permission .next).Allows u _
        rw [hnext]
        rfl
      · change ((g.role p.addr).permission .internalCount).Allows u _
        rw [hcount]
        rfl
  | takeData old p | addCount old p v =>
      rw [hpc] at ha hl
      have hr : g.role p.addr = .own u (.popped old.externalCount) := (hl.owned _ _).mpr rfl
      simp only [PC.needs, List.mem_cons, List.not_mem_nil, or_false] at ha
      rcases ha with rfl | rfl
      all_goals
        change ((g.role p.addr).permission _).Allows u _
        rw [hr]
        rfl
  | idle | newNode | loadHead | count =>
      rw [hpc] at ha
      cases ha

end Users

omit [DecidableEq Addr] in
theorem node_after : ((after c t r).pc u).node = some q ↔
    (u = t ∧ r.2.node = some q) ∨ (u ≠ t ∧ (c.pc u).node = some q) := by
  by_cases hu : u = t
  · subst hu
    simp
  · simp [hu]

omit [DecidableEq Addr] in
/-- A node with other users than the acting thread is as it was. -/
theorem Tended.step (h : Tended c q) (e : c.shared.2.Extends t l r.1.2)
    (hcurrent : c.shared.2.current ≤ r.1.2.current)
    (hlinked : Linked (after c t r) q → Linked c q ∧ ∀ b ∈ l, ¬ b.Conflicts (.reads (q, .next)) ∧
      ¬ b.Conflicts (.writes (q, .data)) ∧ ¬ b.Conflicts (.updates (q, .internalCount)))
    (huser : r.2.node = some q →
      (c.pc t).node = some q ∨ c.shared.2.current ≤ r.1.2.view t)
    (hold : InUse (after c t r) q → InUse c q ∧ ∀ i, Accounted c q i → Accounted (after c t r) q i)
    (hnew : InUse (after c t r) q → ∀ b ∈ l, b.loc.1 = q → ∀ i, i ∈ (r.1.2.view t).1 →
      Accounted (after c t r) q i) : Tended (after c t r) q := by
  refine ⟨fun hq => ?_, fun hq => ?_, fun hq => ⟨?_, fun u hu => ?_⟩, fun hq i x hi hx => ?_⟩
  · obtain ⟨hl, hapart⟩ := hlinked hq
    exact ((h.next hl).extends e fun b hb => (hapart b hb).1).mono hcurrent
  · obtain ⟨hl, hapart⟩ := hlinked hq
    exact ((h.count hl).extends e fun b hb => (hapart b hb).2.2).mono hcurrent
  · obtain ⟨hl, hapart⟩ := hlinked hq
    exact ((h.data hl).1.extends e fun b hb => (hapart b hb).2.1).mono hcurrent
  · obtain ⟨hl, hapart⟩ := hlinked hq
    obtain ⟨hdata, husers⟩ := h.data hl
    have hcases : (c.pc u).node = some q ∨ c.shared.2.current ≤ r.1.2.view u := by
      rcases node_after.mp hu with ⟨hut, hnode⟩ | ⟨-, hnode⟩
      · exact hut ▸ huser hnode
      · exact .inl hnode
    rcases hcases with hu | hle
    · exact ((husers u hu).extends e fun b hb => (hapart b hb).2.1).mono (e.view_le u)
    · exact (hdata.extends e fun b hb => (hapart b hb).2.1).mono hle
  · change r.1.2.log[i]? = some x at hi
    have hlt := (List.getElem?_eq_some_iff.mp hi).1
    rw [e.log] at hi
    rcases Nat.lt_or_ge i c.shared.2.log.length with hi' | hi'
    · rw [List.getElem?_append_left hi'] at hi
      obtain ⟨huse, hacc⟩ := hold hq
      exact hacc i (h.accounted huse i x hi hx)
    · rw [List.getElem?_append_right hi'] at hi
      obtain ⟨b, hb, rfl⟩ := List.mem_map.mp (List.mem_of_getElem? hi)
      exact hnew hq b hb hx i (e.own i hi' hlt)

omit [DecidableEq Addr] in
theorem Linked.before (h : Linked (after c t r) q)
    (hread : r.1.1.mem.read q = c.shared.1.mem.read q)
    (hself : (c.pc t).node = some q → (c.pc t).owned = none) : Linked c q := by
  refine ⟨?_, fun u hu => ?_⟩
  · rw [← hread]
    exact h.alive
  · by_cases hut : u = t
    · subst hut
      exact hself hu
    · have := h.unowned u (node_after.mpr (.inr ⟨hut, hu⟩))
      rwa [after_of_ne hut] at this

omit [DecidableEq Addr] in
theorem InUse.before (h : InUse (after c t r) q) (halive : ∃ n, c.shared.1.mem.read q = some n)
    (hself : (c.pc t).node = some q → ∀ a k, (c.pc t).owned = some (a, k) → ∃ e, k = .popped e) :
    InUse c q := by
  refine ⟨halive, fun u a k hu ho => ?_⟩
  by_cases hut : u = t
  · subst hut
    exact hself hu a k ho
  · refine h.popped u a k (node_after.mpr (.inr ⟨hut, hu⟩)) ?_
    rwa [after_of_ne hut]

omit [DecidableEq Addr] in
theorem Tended.apart (h : Tended c q) (e : c.shared.2.Extends t l r.1.2)
    (hl : ∀ b ∈ l, b.loc.1 ≠ q) (hcurrent : c.shared.2.current ≤ r.1.2.current)
    (hreleased : c.shared.2.released q ≤ r.1.2.released q)
    (hread : r.1.1.mem.read q = c.shared.1.mem.read q) (hnode : (c.pc t).node ≠ some q)
    (hnode' : r.2.node ≠ some q) : Tended (after c t r) q := by
  have huser : ∀ u, ((after c t r).pc u).node = some q ↔ (c.pc u).node = some q := by
    intro u
    rw [node_after]
    constructor
    · rintro (⟨-, hu⟩ | ⟨-, hu⟩)
      · exact (hnode' hu).elim
      · exact hu
    · intro hu
      refine .inr ⟨?_, hu⟩
      rintro rfl
      exact hnode hu
  have hlinked : Linked c q → Linked (after c t r) q := by
    intro hq
    refine ⟨?_, fun u hu => ?_⟩
    · change ∃ n, r.1.1.mem.read q = some n ∧ _
      rw [hread]
      exact hq.alive
    · have hut : u ≠ t := by
        rintro rfl
        exact hnode ((huser u).mp hu)
      rw [after_of_ne hut]
      exact hq.unowned u ((huser u).mp hu)
  refine h.step e hcurrent (fun hq => ⟨hq.before hread fun hu => (hnode hu).elim, fun b hb => ?_⟩)
    (fun hu => (hnode' hu).elim) (fun hq => ⟨?_, fun i hi => ?_⟩)
    fun _ b hb hloc => (hl b hb hloc).elim
  · have hloc := hl b hb
    refine ⟨?_, ?_, ?_⟩ <;> exact fun hc => hloc (congrArg Prod.fst hc.1)
  · refine hq.before ?_ fun hu => (hnode hu).elim
    rw [← hread]
    exact hq.alive
  · rcases hi with hi | ⟨u, hu, hi⟩ | ⟨hq, hi, hall⟩
    · exact .inl (hreleased.1 hi)
    · exact .inr (.inl ⟨u, (huser u).mpr hu, (e.view_le u).1 hi⟩)
    · exact .inr (.inr ⟨hlinked hq, hcurrent.1 hi,
        fun u hu => (e.view_le u).1 (hall u ((huser u).mp hu))⟩)

omit [DecidableEq Addr] in
theorem tended_of_own {a : Addr} {k : Kind} (hnode : r.2.node = some p)
    (ho : r.2.owned = some (a, k)) (hk : ∀ e, k ≠ .popped e) : Tended (after c t r) p := by
  have hself : ((after c t r).pc t).node = some p := by rw [after_self, hnode]
  have hnot : ¬ InUse (after c t r) p := by
    intro h
    obtain ⟨e, he⟩ := h.popped t a k hself (by rw [after_self, ho])
    exact hk e he
  exact ⟨fun h => (hnot h.inUse).elim, fun h => (hnot h.inUse).elim, fun h => (hnot h.inUse).elim,
    fun h => (hnot h).elim⟩

omit [DecidableEq Tid] [DecidableEq Addr] in
theorem tended_of_dead (h : c.shared.1.mem.read p = none) : Tended c p := by
  have hnot : ¬ InUse c p := by
    intro h
    obtain ⟨⟨n, hn⟩, -⟩ := h
    cases h.symm.trans hn
  exact ⟨fun h => (hnot h.inUse).elim, fun h => (hnot h.inUse).elim, fun h => (hnot h.inUse).elim,
    fun h => (hnot h).elim⟩

omit [DecidableEq Addr] in
theorem Known.step (hK : Known c) (e : c.shared.2.Extends t l r.1.2)
    (hid : ∀ b ∈ l, b.loc.1.id < r.1.1.mem.allocs)
    (hallocs : c.shared.1.mem.allocs ≤ r.1.1.mem.allocs)
    (hothers : ∀ u, u ≠ t → ∀ a ∈ (c.pc u).needs, ∀ b ∈ l, ¬ b.Conflicts a)
    (hself : ∀ a ∈ r.2.needs, r.1.2.Covers (knows r.1.2 t r.2) a)
    (htended : ∀ q, Tended (after c t r) q) : Known (after c t r) := by
  refine ⟨fun x hx => ?_, fun u a ha => ?_, htended⟩
  · change x ∈ r.1.2.log at hx
    rw [e.log] at hx
    rcases List.mem_append.mp hx with hx | hx
    · exact (hK.unused x hx).trans_le hallocs
    · obtain ⟨b, hb, rfl⟩ := List.mem_map.mp hx
      exact hid b hb
  · by_cases hu : u = t
    · subst hu
      rw [after_self] at ha ⊢
      exact hself a ha
    · rw [after_of_ne hu] at ha ⊢
      have hknows : knows r.1.2 u (c.pc u) = knows c.shared.2 u (c.pc u) := by
        unfold knows
        rw [e.others u hu, e.fences u hu]
      change r.1.2.Covers (knows r.1.2 u (c.pc u)) a
      rw [hknows]
      exact (hK.needs u a ha).extends e fun b hb => hothers u hu a ha b hb

omit [DecidableEq Addr] in
theorem known_of_moved (hK : Known c) (e : c.shared.2.Extends t [] r.1.2)
    (hmem : r.1.1.mem = c.shared.1.mem) (hnode : (c.pc t).node = none) (hnode' : r.2.node = none)
    (hcurrent : c.shared.2.current ≤ r.1.2.current)
    (hreleased : r.1.2.released = c.shared.2.released) : Known (after c t r) := by
  refine hK.step e (List.forall_mem_nil _) (by rw [hmem]) (fun u _ a _ => List.forall_mem_nil _)
    (fun a ha => ?_) fun q => ?_
  · rw [PC.node_of_needs ha] at hnode'
    cases hnode'
  · exact (hK.tended q).apart e (List.forall_mem_nil _) hcurrent (by rw [hreleased]) (by rw [hmem])
      (by simp [hnode]) (by simp [hnode'])

variable (hG : SplitRefCount.Global c.shared.1 g) (hL : ∀ u, Local c.shared.1 g u (c.pc u))
include hL

omit [DecidableEq Addr] in
theorem node_alive (h : (c.pc u).node = some p) : ∃ n, c.shared.1.mem.read p = some n :=
  (hL u).facts.alive h

include hG

omit [DecidableEq Addr] in
theorem needs_apart (hu : u ≠ t) {a b : Access (Ptr Addr × Field)} (ha : a ∈ (c.pc u).needs)
    (hb : b ∈ (c.pc t).needs) : ¬ b.Conflicts a := by
  intro hc
  have hallowed := needs_allowed hG hL hb
  rw [hc.1] at hallowed
  exact Permission.not_conflicts hu.symm hallowed (needs_allowed hG hL ha) hc

omit [DecidableEq Addr] in
theorem known_of_node (hK : Known c) (e : c.shared.2.Extends t l r.1.2)
    (hl : ∀ b ∈ l, b ∈ (c.pc t).needs) (hallocs : r.1.1.mem.allocs = c.shared.1.mem.allocs)
    (hnode : ∀ q, (c.pc t).node = some q → q = p) (hnode' : ∀ q, r.2.node = some q → q = p)
    (hread : ∀ q, q ≠ p → r.1.1.mem.read q = c.shared.1.mem.read q)
    (hcurrent : c.shared.2.current ≤ r.1.2.current)
    (hreleased : ∀ q, q ≠ p → r.1.2.released q = c.shared.2.released q)
    (hself : ∀ a ∈ r.2.needs, r.1.2.Covers (knows r.1.2 t r.2) a)
    (hp : Tended (after c t r) p) : Known (after c t r) := by
  refine hK.step e (fun b hb => ?_) hallocs.ge
    (fun u hu a ha b hb => needs_apart hG hL hu ha (hl b hb)) hself fun q => ?_
  · obtain ⟨n, hn⟩ := node_alive hL (PC.node_of_needs (hl b hb))
    rw [hallocs]
    exact c.shared.1.mem.id_lt _ _ (Memory.read_eq_some.mp hn)
  · by_cases hq : q = p
    · exact hq ▸ hp
    · refine (hK.tended q).apart e (fun b hb hloc => hq ?_) hcurrent (hreleased q hq).ge
        (hread q hq) (fun h => hq (hnode q h)) fun h => hq (hnode' q h)
      exact hnode q (hloc ▸ PC.node_of_needs (hl b hb))

end Ordered
end CsNotes.SplitRefCount
