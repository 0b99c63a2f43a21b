import CsNotes.HazardPointer.Preservation

/-!
# Reclamation and linearizability of the stacks with hazard pointers

Any number of stacks, slots and threads, any calls and thread exits, and any
interleaving of the atomic steps, reuse of addresses included.
-/
namespace CsNotes.HazardPointer
open Interleaving Storage History Segment

variable {N : ℕ} {Stack Tid Addr A : Type*} [DecidableEq Stack] [DecidableEq Tid]

/-- The addresses met from a pointer to the null pointer. -/
def Chain (m : Memory Addr (Node Addr A)) : Option Addr → List Addr → Prop :=
  Seg (Next m) (· = none)

/-- The values in the nodes from a pointer to the null pointer. -/
def Contents (m : Memory Addr (Node Addr A)) : Option Addr → List A → Prop :=
  Seg (fun h v next => ∃ p n, h = some p.addr ∧ m.read p = some n ∧ n.data = v ∧ n.next = next)
    (· = none)

/-- The live object with this identity is met from a pointer. -/
def OnChain (m : Memory Addr (Node Addr A)) (h : Option Addr) (id : ℕ) : Prop :=
  ∃ l p n, Chain m h l ∧ m.read p = some n ∧ p.id = id ∧ p.addr ∈ l

/-- The node a pusher or popper works on. -/
def PC.holds : PC Stack Addr A → Option (Ptr Addr)
  | loadNext _ _ p | storeNext _ _ p _ | readExpected _ _ p | pushCas _ _ p _ | clear _ (some p)
  | takeData _ p | scan p _ _ | addLoad p _ | addStore p _ _ | addRead p _ | addCas p _ _
  | delete p _ => some p
  | _ => none

inductive Place (Stack Tid : Type*) where
  | stack (k : Stack)
  | hands (t : Tid)
  | reclaimList
  | chain (t : Tid)
  | deleted

/-- The node with this identity is at this place. -/
def At (c : Config Tid (Shared N Stack Tid Addr A) (PC Stack Addr A)) (id : ℕ) :
    Place Stack Tid → Prop
  | .stack k => OnChain c.shared.mem (c.shared.head k) id
  | .hands t => ∃ p n, (c.pc t).holds = some p ∧ c.shared.mem.read p = some n ∧ p.id = id
  | .reclaimList => OnChain c.shared.mem c.shared.nodesToReclaim id
  | .chain t => OnChain c.shared.mem ((c.pc t).rest.map Ptr.addr) id
  | .deleted => c.shared.mem.Deleted id

def Role.place : Role Stack Tid → Option (Place Stack Tid)
  | .free => none
  | .linked k => some (.stack k)
  | .listed => some .reclaimList
  | .chained t => some (.chain t)
  | .own t _ => some (.hands t)

omit [DecidableEq Stack] [DecidableEq Tid] in
theorem PC.owned_of_holds {pc : PC Stack Addr A} {p : Ptr Addr} (h : pc.holds = some p) :
    ∃ k, pc.owned N = some (p.addr, k) := by
  cases pc with
  | clear k q =>
      cases q with
      | none => simp [PC.holds] at h
      | some q =>
          obtain rfl := Option.some.inj h
          exact ⟨_, rfl⟩
  | idle | newNode _ _ | loadHead _ | acquire _ _ _ | setHazard _ _ | reload _ _ | readNext _ _
  | popCas _ _ _ | exchange _ _ | drain _ _ _ | clearPtr | clearId => simp [PC.holds] at h
  | _ =>
      obtain rfl := Option.some.inj h
      exact ⟨_, rfl⟩

omit [DecidableEq Stack] [DecidableEq Tid] in
theorem PC.holds_of_owned {pc : PC Stack Addr A} {a : Addr} {k : Kind}
    (h : pc.owned N = some (a, k)) : ∃ p, pc.holds = some p ∧ p.addr = a := by
  cases pc with
  | clear k q =>
      cases q with
      | none => simp [PC.owned] at h
      | some q => exact ⟨q, rfl, congrArg Prod.fst (Option.some.inj h)⟩
  | idle | newNode _ _ | loadHead _ | acquire _ _ _ | setHazard _ _ | reload _ _ | readNext _ _
  | popCas _ _ _ | exchange _ _ | drain _ _ _ | clearPtr | clearId => simp [PC.owned] at h
  | _ => exact ⟨_, rfl, congrArg Prod.fst (Option.some.inj h)⟩

variable {c d : Config Tid (Shared N Stack Tid Addr A) (PC Stack Addr A)}
variable {g : Ghost Stack Tid Addr A} {m : Memory Addr (Node Addr A)} {t u : Tid} {i : ℕ}

omit [DecidableEq Stack] [DecidableEq Tid] in
theorem Chain.unique {h : Option Addr} {l l' : List Addr} (hl : Chain m h l) (hl' : Chain m h l') :
    l = l' := by
  refine Seg.unique (fun p a b n k ha hb => ?_) (fun p a n hp ha => ?_) hl hl'
  · obtain ⟨rfl, q, x, rfl, hx, rfl⟩ := ha
    obtain ⟨he, q', x', rfl, hx', rfl⟩ := hb
    have haddr : q.addr = q'.addr := Option.some.inj he
    obtain rfl := Memory.ptr_eq_of_read hx hx' haddr
    exact ⟨rfl, congrArg Node.next (Option.some.inj (hx.symm.trans hx'))⟩
  · obtain ⟨he, -⟩ := ha
    simp [he] at hp

theorem Local.read_holds {s : Shared N Stack Tid Addr A} {pc : PC Stack Addr A} {p : Ptr Addr}
    (h : Local s g t pc) (hp : pc.holds = some p) : ∃ n, s.mem.read p = some n := by
  have hf := h.facts
  cases pc with
  | loadNext _ _ q | storeNext _ _ q _ | readExpected _ _ q | pushCas _ _ q _ | addCas q _ _ =>
      obtain rfl := Option.some.inj hp
      obtain ⟨⟨n, hn, -⟩, -⟩ := hf
      exact ⟨n, hn⟩
  | clear k q =>
      cases q with
      | none => simp [PC.holds] at hp
      | some q =>
          obtain rfl := Option.some.inj hp
          obtain ⟨n, hn, -⟩ := hf
          exact ⟨n, hn⟩
  | takeData _ q =>
      obtain rfl := Option.some.inj hp
      obtain ⟨n, hn, -⟩ := hf
      exact ⟨n, hn⟩
  | scan q _ _ | addLoad q _ | addStore q _ _ | addRead q _ | delete q _ =>
      obtain rfl := Option.some.inj hp
      exact hf.1
  | idle | newNode _ _ | loadHead _ | acquire _ _ _ | setHazard _ _ | reload _ _ | readNext _ _
  | popCas _ _ _ | exchange _ _ | drain _ _ _ | clearPtr | clearId => simp [PC.holds] at hp

theorem role_of_at (hG : Global c.shared g) (hL : ∀ t, Local c.shared g t (c.pc t))
    {x : Place Stack Tid} (h : At c i x) (hx : x ≠ .deleted) :
    ∃ p n, p.id = i ∧ c.shared.mem.read p = some n ∧ (g.role p.addr).place = some x := by
  cases x with
  | stack k =>
      obtain ⟨l, p, n, hl, hn, hid, hp⟩ := h
      rw [Chain.unique hl (hG.seg_next k), ← hG.linked] at hp
      exact ⟨p, n, hid, hn, by rw [hp]; rfl⟩
  | hands t =>
      obtain ⟨p, n, hp, hn, hid⟩ := h
      obtain ⟨k, hk⟩ := PC.owned_of_holds hp
      exact ⟨p, n, hid, hn, by rw [((hL t).owned _ _).mpr hk]; rfl⟩
  | reclaimList =>
      obtain ⟨l, p, n, hl, hn, hid, hp⟩ := h
      rw [Chain.unique hl hG.reclaim, ← hG.listed] at hp
      exact ⟨p, n, hid, hn, by rw [hp]; rfl⟩
  | chain t =>
      obtain ⟨l, p, n, hl, hn, hid, hp⟩ := h
      rw [Chain.unique hl (hL t).chain, ← (hL t).chained] at hp
      exact ⟨p, n, hid, hn, by rw [hp]; rfl⟩
  | deleted => exact (hx rfl).elim

theorem at_of_role (hG : Global c.shared g) (hL : ∀ t, Local c.shared g t (c.pc t)) {p : Ptr Addr}
    {n : Node Addr A} (hn : c.shared.mem.read p = some n) :
    ∃ x, (g.role p.addr).place = some x ∧ x ≠ .deleted ∧ At c p.id x := by
  cases hr : g.role p.addr with
  | free => exact (Memory.cell_ne_none_of_read hn ((hG.free _).mp hr)).elim
  | linked k => exact ⟨_, rfl, by simp, _, p, n, hG.seg_next k, hn, rfl, (hG.linked k _).mp hr⟩
  | listed => exact ⟨_, rfl, by simp, _, p, n, hG.reclaim, hn, rfl, (hG.listed _).mp hr⟩
  | chained t => exact ⟨_, rfl, by simp, _, p, n, (hL t).chain, hn, rfl, ((hL t).chained _).mp hr⟩
  | own t k =>
      obtain ⟨q, hq, haddr⟩ := PC.holds_of_owned (((hL t).owned _ _).mp hr)
      obtain ⟨n', hn'⟩ := (hL t).read_holds hq
      obtain rfl := Memory.ptr_eq_of_read hn' hn haddr
      exact ⟨_, rfl, by simp, q, n, hq, hn, rfl⟩

theorem exists_unique_place (hG : Global c.shared g) (hL : ∀ t, Local c.shared g t (c.pc t))
    (hid : i < c.shared.mem.allocs) : ∃! x, At c i x := by
  have deleted_of : c.shared.mem.Deleted i → ∀ x, At c i x → x = .deleted := by
    intro hd x hx
    by_contra hne
    obtain ⟨p, n, rfl, hn, -⟩ := role_of_at hG hL hx hne
    exact Memory.not_deleted_of_read hn hd
  rcases Memory.deleted_or_read hid with hd | ⟨p, n, rfl, hn⟩
  · exact ⟨.deleted, hd, deleted_of hd⟩
  · obtain ⟨x, hx, -, hat⟩ := at_of_role hG hL hn
    refine ⟨x, hat, fun y hy => ?_⟩
    have hne : y ≠ .deleted := by
      rintro rfl
      exact Memory.not_deleted_of_read hn hy
    obtain ⟨q, n', hq, hn', hrole⟩ := role_of_at hG hL hy hne
    obtain rfl := Memory.ptr_eq_of_id hn' hn hq
    exact Option.some.inj (hrole.symm.trans hx)

variable [DecidableEq Addr] {movedFrom : A → A}

/-- What a step does to the heap: it changes at most the node in the hands of its
thread, or makes a new one. -/
def Touches (N : ℕ) (m m' : Memory Addr (Node Addr A)) (pc : PC Stack Addr A) : Prop :=
  m' = m ∨ (∃ a x, m.cell a = none ∧ m' = m.alloc a x) ∨
    ∃ p k, pc.owned N = some (p.addr, k) ∧ (m' = m.free p ∨ ∃ n, m' = m.write p n)

/-- Which steps are recorded. -/
def Records (s s' : Shared N Stack Tid Addr A) (t : Tid) (pc : PC Stack Addr A) : Prop :=
  s'.history = s.history ∨
    (∃ k v p, pc = .pushCas k v p (s.head k) ∧ s' = (s.setHead k (some p.addr)).log k [.push t v]) ∨
    (∃ k p next, pc = .popCas k p next ∧ s.head k = some p.addr ∧ s' = (s.setHead k next).log k
      ((s.mem.read p).map fun n => Event.pop t n.data).toList) ∨
    ∃ k, pc = .reload k none ∧ s.head k = none ∧ s' = s.log k [.empty t]

/-- Where the chain of the thread begins after a step. -/
def Advances (s : Shared N Stack Tid Addr A) (pc pc' : PC Stack Addr A) : Prop :=
  pc'.rest = pc.rest ∨ (∃ k r, pc = .exchange k r) ∨
    ∃ p k r n, pc = .drain (some p) k r ∧ s.mem.read p = some n ∧ pc'.rest.map Ptr.addr = n.next

omit [DecidableEq Stack] [DecidableEq Tid] [DecidableEq Addr] in
theorem follow_eq_ok {B : Type*} {s : Shared N Stack Tid Addr A} {h : Option Addr} {b : B}
    {f : Option (Ptr Addr) → Outcome B} (hf : s.follow h f = .ok b) :
    ∃ q : Option (Ptr Addr), q.map Ptr.addr = h ∧ f q = .ok b := by
  cases h with
  | none => exact ⟨none, rfl, hf⟩
  | some a =>
      simp only [Shared.follow] at hf
      split at hf
      · cases hf
      · rename_i p hp
        obtain ⟨rfl, -⟩ := Memory.find_eq_some.mp hp
        exact ⟨some p, rfl, hf⟩

omit [DecidableEq Stack] [DecidableEq Tid] [DecidableEq Addr] in
theorem own_eq_ok {B : Type*} {s : Shared N Stack Tid Addr A} {b : B} {f : Fin N → Outcome B}
    (hf : s.own t f = .ok b) : ∃ i, s.hazard t = some i ∧ f i = .ok b := by
  unfold Shared.own at hf
  split at hf
  · cases hf
  · exact ⟨_, ‹_›, hf⟩

theorem exec_cases {s : Shared N Stack Tid Addr A} {pc : PC Stack Addr A} {o : Oracle Stack Addr A}
    {r : Shared N Stack Tid Addr A × PC Stack Addr A} (h : exec movedFrom t o s pc = .ok r) :
    Touches N s.mem r.1.mem pc ∧ Records s r.1 t pc ∧ Advances s pc r.2 := by
  have quiet : r.1.mem = s.mem → r.1.history = s.history → r.2.rest = pc.rest →
      Touches N s.mem r.1.mem pc ∧ Records s r.1 t pc ∧ Advances s pc r.2 :=
    fun h₁ h₂ h₃ => ⟨.inl h₁, .inl h₂, .inl h₃⟩
  have held : ∀ p k, pc.owned N = some (p.addr, k) →
      (r.1.mem = s.mem.free p ∨ ∃ n, r.1.mem = s.mem.write p n) → r.1.history = s.history →
      r.2.rest = pc.rest → Touches N s.mem r.1.mem pc ∧ Records s r.1 t pc ∧ Advances s pc r.2 :=
    fun p k h₀ h₁ h₂ h₃ => ⟨.inr (.inr ⟨p, k, h₀, h₁⟩), .inl h₂, .inl h₃⟩
  cases pc with
  | idle =>
      simp only [exec] at h
      split at h
      · cases h
        exact quiet rfl rfl rfl
      · cases h
        exact quiet rfl rfl rfl
      · split at h <;> cases h <;> exact quiet rfl rfl rfl
  | newNode k v =>
      simp only [exec] at h
      split at h <;> cases h
      exact ⟨.inr (.inl ⟨_, _, ‹_›, rfl⟩), .inl rfl, .inl rfl⟩
  | loadNext _ _ _ | addLoad _ _ =>
      cases h
      exact quiet rfl rfl rfl
  | storeNext _ _ p _ | takeData _ p | addStore p _ _ =>
      obtain ⟨n, -, h⟩ := Memory.access_eq_ok.mp h
      cases h
      exact held p _ rfl (.inr ⟨_, rfl⟩) rfl rfl
  | readExpected _ _ _ | readNext _ _ | addRead _ _ =>
      obtain ⟨n, -, h⟩ := Memory.access_eq_ok.mp h
      cases h
      exact quiet rfl rfl rfl
  | pushCas k v p e =>
      simp only [exec] at h
      split at h
      · rename_i he
        cases h
        exact ⟨.inl rfl, .inr (.inl ⟨k, v, p, by rw [he.1], rfl⟩), .inl rfl⟩
      · cases h
        exact quiet rfl rfl rfl
  | loadHead _ =>
      simp only [exec] at h
      split at h <;> cases h <;> exact quiet rfl rfl rfl
  | acquire _ _ _ =>
      simp only [exec] at h
      split at h
      · split at h <;> cases h <;> exact quiet rfl rfl rfl
      · cases h
        exact quiet rfl rfl rfl
  | setHazard _ _ | clearPtr | clearId =>
      obtain ⟨i, -, h⟩ := own_eq_ok h
      cases h
      exact quiet rfl rfl rfl
  | reload k old =>
      simp only [exec] at h
      split at h
      · rename_i hold
        obtain ⟨q, hq, h⟩ := follow_eq_ok h
        cases q with
        | none =>
            cases h
            obtain rfl : none = old := hq
            exact ⟨.inl rfl, .inr (.inr (.inr ⟨k, rfl, hold, rfl⟩)), .inl rfl⟩
        | some p =>
            cases h
            exact quiet rfl rfl rfl
      · cases h
        exact quiet rfl rfl rfl
  | popCas k p next =>
      simp only [exec] at h
      split at h
      · cases h
        exact ⟨.inl rfl, .inr (.inr (.inl ⟨k, p, next, rfl, ‹_›, rfl⟩)), .inl rfl⟩
      · cases h
        exact quiet rfl rfl rfl
  | clear _ q =>
      obtain ⟨i, -, h⟩ := own_eq_ok h
      cases h
      cases q <;> exact quiet rfl rfl rfl
  | scan _ _ _ =>
      simp only [exec] at h
      split at h
      · split at h <;> cases h <;> exact quiet rfl rfl rfl
      · cases h
        exact quiet rfl rfl rfl
  | addCas p j _ =>
      simp only [exec] at h
      split at h <;> cases h
      · exact quiet rfl rfl rest_pc
      · exact quiet rfl rfl rfl
  | delete p j =>
      obtain ⟨n, -, h⟩ := Memory.access_eq_ok.mp h
      cases h
      exact held p _ rfl (.inl rfl) rfl rest_pc
  | exchange k v =>
      simp only [exec] at h
      obtain ⟨q, -, h⟩ := follow_eq_ok h
      cases h
      exact ⟨.inl rfl, .inl rfl, .inr (.inl ⟨k, v, rfl⟩)⟩
  | drain curr k v =>
      cases curr with
      | none =>
          cases h
          exact quiet rfl rfl rfl
      | some p =>
          obtain ⟨n, hn, h⟩ := Memory.access_eq_ok.mp h
          obtain ⟨q, hq, h⟩ := follow_eq_ok h
          cases h
          exact ⟨.inl rfl, .inl rfl, .inr (.inr ⟨p, k, v, n, rfl, hn, hq⟩)⟩

omit [DecidableEq Stack] [DecidableEq Tid] in
theorem Touches.deleted {m' : Memory Addr (Node Addr A)} {pc : PC Stack Addr A}
    (h : Touches N m m' pc) (hd : m.Deleted i) : m'.Deleted i := by
  rcases h with rfl | ⟨a, x, -, rfl⟩ | ⟨p, k, -, rfl | ⟨n, rfl⟩⟩
  · exact hd
  · exact hd.alloc
  · exact hd.free
  · exact hd.write

theorem Touches.chain {m' : Memory Addr (Node Addr A)} (h : Touches N c.shared.mem m' (c.pc u))
    (hG : Global c.shared g) (hL : ∀ t, Local c.shared g t (c.pc t)) {l : List Addr}
    {h₀ : Option Addr} (hl : Chain c.shared.mem h₀ l) (hr : ∀ a ∈ l, g.role a = .chained t) :
    Chain m' h₀ l := by
  rcases h with rfl | ⟨a, x, ha, rfl⟩ | ⟨p, k, hk, hm⟩
  · exact hl
  · refine Seg.next_off hl Memory.eqOff_alloc fun hmem => ?_
    have hfree := (hG.free a).mpr ha
    rw [hr a hmem] at hfree
    simp at hfree
  · have hnot : p.addr ∉ l := by
      intro hmem
      have hown := ((hL u).owned _ _).mpr hk
      rw [hr _ hmem] at hown
      simp at hown
    rcases hm with rfl | ⟨n, rfl⟩
    · exact Seg.next_off hl Memory.eqOff_free hnot
    · exact Seg.next_off hl Memory.eqOff_write hnot

/-- A run from `c` to `d` in which `t` takes no new list and begins `n` rounds of
its draining loop. -/
inductive Drains (movedFrom : A → A) (t : Tid)
    (c : Config Tid (Shared N Stack Tid Addr A) (PC Stack Addr A)) :
    ℕ → Config Tid (Shared N Stack Tid Addr A) (PC Stack Addr A) → Prop
  | zero : Drains movedFrom t c 0 c
  | round {n : ℕ} {d e : Config Tid (Shared N Stack Tid Addr A) (PC Stack Addr A)}
      {o : Oracle Stack Addr A} {p : Ptr Addr} {k : Stack} {r : Option A} :
      Drains movedFrom t c n d → d.pc t = .drain (some p) k r →
      d.advance (exec movedFrom) t o = .ok e → Drains movedFrom t c (n + 1) e
  | other {n : ℕ} {d e : Config Tid (Shared N Stack Tid Addr A) (PC Stack Addr A)} {u : Tid}
      {o : Oracle Stack Addr A} : Drains movedFrom t c n d →
      (u = t → ∀ k r, d.pc t ≠ .exchange k r ∧ ∀ p, d.pc t ≠ .drain (some p) k r) →
      d.advance (exec movedFrom) u o = .ok e → Drains movedFrom t c n e

/-- Every round shortens the chain of the thread, and nothing else changes it. -/
theorem Drains.chain {n : ℕ} (h : Drains movedFrom t c n d)
    (hc : Reach (exec movedFrom) (· = start) c) {l : List Addr}
    (hl : Chain c.shared.mem ((c.pc t).rest.map Ptr.addr) l) :
    Reach (exec movedFrom) (· = start) d ∧ n ≤ l.length ∧
      Chain d.shared.mem ((d.pc t).rest.map Ptr.addr) (l.drop n) := by
  induction h with
  | zero => exact ⟨hc, Nat.zero_le _, hl⟩
  | @round n d e o p k r _ hpc hs ih =>
      obtain ⟨hd, hn, hch⟩ := ih
      obtain ⟨g, hG, hL⟩ := (outline movedFrom).holds hd
      have hlist := Chain.unique hch (hL t).chain
      obtain ⟨x, hx, rfl⟩ := Outcome.map_eq_ok.mp hs
      obtain ⟨htouch, -, hadv⟩ := exec_cases hx
      have hnext : ∃ y, d.shared.mem.read p = some y ∧ x.2.rest.map Ptr.addr = y.next := by
        rw [hpc] at hadv hx
        obtain ⟨y, hy, hx⟩ := Memory.access_eq_ok.mp hx
        obtain ⟨q, hq, hx⟩ := follow_eq_ok hx
        cases hx
        exact ⟨y, hy, hq⟩
      obtain ⟨y, hy, hrest⟩ := hnext
      cases hdrop : l.drop n with
      | nil =>
          rw [hdrop, hpc] at hch
          simp [Chain, PC.rest] at hch
      | cons a l' =>
          rw [hdrop, hpc] at hch
          obtain ⟨next, ⟨ha, q, z, hq, hz, rfl⟩, hl'⟩ := hch
          obtain rfl : p.addr = a := Option.some.inj ha
          obtain rfl := Memory.ptr_eq_of_read hz hy hq
          obtain rfl := Option.some.inj (hz.symm.trans hy)
          have hlt : n < l.length := by
            by_contra hge
            rw [List.drop_eq_nil_of_le (by omega)] at hdrop
            simp at hdrop
          refine ⟨.step hd trivial hs, hlt, ?_⟩
          have htail : l.drop (n + 1) = l' := by
            rw [← List.tail_drop, hdrop]
            rfl
          rw [htail]
          simp only [Function.update_self, hrest]
          refine htouch.chain (t := t) hG hL hl' fun b hb => ?_
          rw [(hL t).chained, ← hlist, hdrop]
          exact List.mem_cons_of_mem _ hb
  | @other n d e u o _ hne hs ih =>
      obtain ⟨hd, hn, hch⟩ := ih
      obtain ⟨g, hG, hL⟩ := (outline movedFrom).holds hd
      have hlist := Chain.unique hch (hL t).chain
      obtain ⟨x, hx, rfl⟩ := Outcome.map_eq_ok.mp hs
      obtain ⟨htouch, -, hadv⟩ := exec_cases hx
      have hkept := htouch.chain (t := t) hG hL hch fun a ha => by rwa [(hL t).chained, ← hlist]
      refine ⟨.step hd trivial hs, hn, ?_⟩
      by_cases hu : u = t
      · subst hu
        rcases hadv with hr | ⟨k, r, hpc⟩ | ⟨p, k, r, y, hpc, -⟩
        · simpa only [Function.update_self, hr] using hkept
        · exact ((hne rfl k r).1 hpc).elim
        · exact ((hne rfl k r).2 p hpc).elim
      · simpa only [Function.update_of_ne (Ne.symm hu)] using hkept

/-- Nodes are accessed and deleted only while alive, a deleted node never comes
back, every node is at one place, the lists of nodes to reclaim are finite and
without repetition, and a draining loop makes at most as many rounds as its
chain is long. -/
structure Reclaims (movedFrom : A → A)
    (c : Config Tid (Shared N Stack Tid Addr A) (PC Stack Addr A)) : Prop where
  alive : ∀ t o, c.advance (exec movedFrom) t o ≠ .fault
  deleted : ∀ t o d id, c.advance (exec movedFrom) t o = .ok d →
    c.shared.mem.Deleted id → d.shared.mem.Deleted id
  place : ∀ id, id < c.shared.mem.allocs → ∃! x, At c id x
  reclaimList : ∃ l, Chain c.shared.mem c.shared.nodesToReclaim l ∧ l.Nodup
  chain : ∀ t, ∃ l, Chain c.shared.mem ((c.pc t).rest.map Ptr.addr) l ∧ l.Nodup ∧
    ∀ n d, Drains movedFrom t c n d → n ≤ l.length

theorem hazard_reclaims (hc : Reach (exec movedFrom) (· = start) c) : Reclaims movedFrom c := by
  obtain ⟨g, hG, hL⟩ := (outline movedFrom).holds hc
  refine ⟨fun t o => (outline movedFrom).safe hc trivial, fun t o d id hd hid => ?_,
    fun id => exists_unique_place hG hL, ⟨_, hG.reclaim, hG.nodup_reclaim⟩, fun t =>
    ⟨_, (hL t).chain, (hL t).nodup, fun n d h => (h.chain hc (hL t).chain).2.1⟩⟩
  obtain ⟨r, hr, rfl⟩ := Outcome.map_eq_ok.mp hd
  exact (exec_cases hr).1.deleted hid

/-- What the histories are: they record the successful exchanges of push and pop
and the loads of a null head which end a pop. -/
def Recorded (movedFrom : A → A)
    (c : Config Tid (Shared N Stack Tid Addr A) (PC Stack Addr A)) : Prop :=
  ∀ t o d, c.advance (exec movedFrom) t o = .ok d →
    d.shared.history = c.shared.history ∨
    (∃ k v p, c.pc t = .pushCas k v p (c.shared.head k) ∧
      d.shared = (c.shared.setHead k (some p.addr)).log k [.push t v]) ∨
    (∃ k p n, c.pc t = .popCas k p n.next ∧ c.shared.head k = some p.addr ∧
      c.shared.mem.read p = some n ∧
      d.shared = (c.shared.setHead k n.next).log k [.pop t n.data]) ∨
    ∃ k, c.pc t = .reload k none ∧ c.shared.head k = none ∧
      d.shared = c.shared.log k [.empty t]

omit [DecidableEq Addr] in
/-- The node which is about to be unlinked, with what lies below it. -/
theorem below_top (hG : Global c.shared g) (hL : ∀ t, Local c.shared g t (c.pc t)) {k : Stack}
    {p : Ptr Addr} {next : Option Addr} (hpc : c.pc t = .popCas k p next)
    (htop : c.shared.head k = some p.addr) :
    ∃ n l, c.shared.mem.read p = some n ∧ n.next = next ∧
      Chain c.shared.mem (c.shared.head k) (p.addr :: l) ∧ Chain c.shared.mem next l := by
  have hf := (hL t).facts
  rw [hpc] at hf
  obtain ⟨⟨i, n, -, hn, -, hnext⟩, -⟩ := hf
  obtain ⟨q, n', l, hq, hn', hl, hrest⟩ := hG.top htop
  obtain rfl := Memory.ptr_eq_of_read hn' hn hq
  obtain rfl := Option.some.inj (hn'.symm.trans hn)
  have hr : g.role q.addr = .linked k := (hG.linked k _).mpr (by simp [hl])
  have hbelow : Chain c.shared.mem n'.next (l.map Prod.fst) := hrest.map fun _ _ _ _ hx => hx.next
  exact ⟨n', l.map Prod.fst, hn, hnext k hr, ⟨n'.next, ⟨htop, q, n', rfl, hn, rfl⟩, hbelow⟩,
    hnext k hr ▸ hbelow⟩

theorem recorded (hG : Global c.shared g) (hL : ∀ t, Local c.shared g t (c.pc t)) :
    Recorded movedFrom c := by
  intro t o d hd
  obtain ⟨r, hr, rfl⟩ := Outcome.map_eq_ok.mp hd
  obtain ⟨-, hrec, -⟩ := exec_cases hr
  rcases hrec with h | ⟨k, v, p, hpc, h⟩ | ⟨k, p, next, hpc, htop, h⟩ | ⟨k, hpc, htop, h⟩
  · exact .inl h
  · exact .inr (.inl ⟨k, v, p, hpc, h⟩)
  · obtain ⟨n, l, hn, rfl, -⟩ := below_top hG hL hpc htop
    rw [hn] at h
    exact .inr (.inr (.inl ⟨k, p, n, hpc, htop, hn, h⟩))
  · exact .inr (.inr (.inr ⟨k, hpc, htop, h⟩))

/-- Each history is one of a sequential stack, which holds what is linked from
the head; an unlinking exchange installs the node below the top; every pop
returns what the history says, and no value is lost. -/
structure Linearizable (movedFrom : A → A)
    (c : Config Tid (Shared N Stack Tid Addr A) (PC Stack Addr A)) : Prop where
  history : ∀ k, ∃ l, StackRun (c.shared.history k) l ∧
    Contents c.shared.mem (c.shared.head k) l ∧
    (pushed (c.shared.history k)).Perm (popped (c.shared.history k) ++ l)
  recorded : Recorded movedFrom c
  below : ∀ t k p next, c.pc t = .popCas k p next → c.shared.head k = some p.addr →
    ∃ n l, c.shared.mem.read p = some n ∧ n.next = next ∧
      Chain c.shared.mem (c.shared.head k) (p.addr :: l) ∧ Chain c.shared.mem next l
  answers : ∀ t k, c.shared.returned k t <+: answers t (c.shared.history k)
  answered : ∀ t, c.pc t = .idle →
    ∀ k, c.shared.returned k t = History.answers t (c.shared.history k)

omit [DecidableEq Addr] in
theorem Local.owes {s : Shared N Stack Tid Addr A} {pc : PC Stack Addr A} (h : Local s g t pc) :
    ∃ r, Owes s t r := by
  have hf := h.facts
  cases pc with
  | clear k q =>
      cases q with
      | none => exact ⟨_, hf⟩
      | some q =>
          obtain ⟨n, -, ho⟩ := hf
          exact ⟨_, ho⟩
  | takeData k q =>
      obtain ⟨n, -, ho⟩ := hf
      exact ⟨_, ho⟩
  | scan p j i => exact ⟨_, hf.2.2⟩
  | idle | newNode _ _ | loadHead _ | setHazard _ _ | exchange _ _ | drain _ _ _ | clearPtr
  | clearId => exact ⟨_, hf⟩
  | _ => exact ⟨_, hf.2⟩

theorem hazard_linearizable (hc : Reach (exec movedFrom) (· = start) c) :
    Linearizable movedFrom c := by
  obtain ⟨g, hG, hL⟩ := (outline movedFrom).holds hc
  refine ⟨fun k => ⟨_, hG.run k, (hG.seg k).map fun x _ h next hx => ?_, (hG.run k).perm⟩,
    recorded hG hL, fun t k p next => below_top hG hL, fun t k => ?_, fun t ht k => ?_⟩
  · obtain ⟨hp, q, n, hq, hn, hd, hnext⟩ := hx
    exact ⟨q, n, hq ▸ hp, hn, hd, hnext⟩
  · obtain ⟨r, ho⟩ := (hL t).owes
    exact ho k ▸ List.prefix_append _ _
  · have hf := (hL t).facts
    rw [ht] at hf
    have ho : Owes c.shared t none := hf
    simpa [due] using (ho k).symm

section Example

/-- Thread 0 pushes 7 and pops it. Thread 1 has confirmed its hazard pointer on
the node, so the node goes through the reclaim list. -/
def sample : List (ℕ × Oracle Unit ℕ ℕ) :=
  let push : ℕ × Oracle Unit ℕ ℕ := (0, ⟨.push () 7, 3, false⟩)
  let pop (t : ℕ) : ℕ × Oracle Unit ℕ ℕ := (t, ⟨.pop (), 0, false⟩)
  List.replicate 6 push ++ List.replicate 5 (pop 1) ++ List.replicate 31 (pop 0)

theorem hazard_reclaims_sample : ∃ d : Config ℕ (Shared 2 Unit ℕ ℕ ℕ) (PC Unit ℕ ℕ),
    Config.run (exec id) sample start = .ok d ∧ Reclaims id d :=
  ⟨_, rfl, hazard_reclaims
    (ReachIf.run (.start rfl) (rfl : Config.run (exec id) sample start = .ok _))⟩

theorem hazard_linearizable_sample : ∃ d : Config ℕ (Shared 2 Unit ℕ ℕ ℕ) (PC Unit ℕ ℕ),
    Config.run (exec id) sample start = .ok d ∧ d.shared.returned () 0 = [some 7] ∧
      Linearizable id d :=
  ⟨_, rfl, rfl, hazard_linearizable
    (ReachIf.run (.start rfl) (rfl : Config.run (exec id) sample start = .ok _))⟩

end Example
end CsNotes.HazardPointer
