import CsNotes.Lib.Segment
import CsNotes.HazardPointer.Model

/-!
# Where every node is, and which hazards are in its way

Auxiliary data say for every address where the node there is: on a stack, on the
reclaim list, on the chain of a thread that drains, or in the hands of one
thread. While a popped node is being scanned for, they also say how many slots
have been passed. A thread whose hazard pointer was confirmed has its node
alive: a scan for this node has not passed its slot, and cannot.
-/
namespace CsNotes.HazardPointer
open Interleaving Storage History Segment

/-- `popped i`: no hazard was found in the first `i` slots. -/
inductive Kind where
  | fresh
  | popped (i : ℕ)
deriving DecidableEq

inductive Role (Stack Tid : Type*) where
  | free
  | linked (k : Stack)
  | listed
  | chained (t : Tid)
  | own (t : Tid) (k : Kind)
deriving DecidableEq

structure Ghost (Stack Tid Addr A : Type*) where
  role : Addr → Role Stack Tid
  stack : Stack → List (Addr × A)
  reclaim : List Addr
  chain : Tid → List Addr

namespace Role
variable {Stack Tid : Type*}

/-- A node at this stage is not deleted under a confirmed hazard in slot `i`. -/
def Protected (i : ℕ) : Role Stack Tid → Prop
  | linked _ | listed | chained _ => True
  | own _ (.popped j) => j ≤ i
  | own _ .fresh | free => False

/-- Only `t` changes a node at this stage. -/
def Of (t : Tid) : Role Stack Tid → Prop
  | own u _ | chained u => u = t
  | _ => False

/-- In the hands of one thread, or not there at all. -/
def Loose : Role Stack Tid → Prop
  | free | own _ _ => True
  | _ => False

end Role

namespace After
variable {Stack Addr A : Type*}

def rest : After Stack Addr A → Option (Ptr Addr)
  | popped _ _ => none
  | drained rest _ _ => rest

def result : After Stack Addr A → Stack × Option A
  | popped k v => (k, some v)
  | drained _ k r => (k, r)

end After

namespace PC
variable {Stack Addr A : Type*}

def owned (N : ℕ) : PC Stack Addr A → Option (Addr × Kind)
  | loadNext _ _ p | storeNext _ _ p _ | readExpected _ _ p | pushCas _ _ p _ =>
      some (p.addr, .fresh)
  | clear _ (some p) | takeData _ p | addLoad p _ | addStore p _ _ | addRead p _ | addCas p _ _ =>
      some (p.addr, .popped 0)
  | scan p _ i => some (p.addr, .popped i)
  | delete p _ => some (p.addr, .popped N)
  | _ => none

/-- Where the chain of this thread begins. -/
def rest : PC Stack Addr A → Option (Ptr Addr)
  | scan _ j _ | addLoad _ j | addStore _ j _ | addRead _ j | addCas _ j _ | delete _ j => j.rest
  | drain curr _ _ => curr
  | _ => none

/-- Steps which use the slot of the thread. -/
def Hazardous : PC Stack Addr A → Prop
  | setHazard _ _ | clear _ _ | clearPtr | clearId => True
  | _ => False

end PC

variable {N : ℕ} {Stack Tid Addr A : Type*}

/-- Slot `i` is that of `t` and holds `a`. -/
def Holds (s : Shared N Stack Tid Addr A) (t : Tid) (i : Fin N) (a : Option Addr) : Prop :=
  s.hazard t = some i ∧ (s.slots i).ptr = a

/-- The answer which the history of `k` has for a thread and which it has not returned yet. -/
def due [DecidableEq Stack] (r : Option (Stack × Option A)) (k : Stack) : List (Option A) :=
  match r with
  | none => []
  | some (k', r) => if k' = k then [r] else []

def Owes [DecidableEq Stack] [DecidableEq Tid] (s : Shared N Stack Tid Addr A) (t : Tid)
    (r : Option (Stack × Option A)) : Prop :=
  ∀ k, answers t (s.history k) = s.returned k t ++ due r k

def PC.Facts [DecidableEq Stack] [DecidableEq Tid] (s : Shared N Stack Tid Addr A)
    (g : Ghost Stack Tid Addr A) (t : Tid) : PC Stack Addr A → Prop
  | idle | newNode _ _ | loadHead _ | setHazard _ _ | clearPtr | clearId => Owes s t none
  | acquire _ _ _ => s.hazard t = none ∧ Owes s t none
  | loadNext _ v p | storeNext _ v p _ | readExpected _ v p =>
      (∃ n, s.mem.read p = some n ∧ n.data = v) ∧ Owes s t none
  | pushCas _ v p expected =>
      (∃ n, s.mem.read p = some n ∧ n.data = v ∧ n.next = expected) ∧ Owes s t none
  | reload _ old => (∃ i, Holds s t i old) ∧ Owes s t none
  | readNext _ p =>
      (∃ i n, Holds s t i (some p.addr) ∧ s.mem.read p = some n ∧ (g.role p.addr).Protected i) ∧
        Owes s t none
  | popCas _ p next =>
      (∃ i n, Holds s t i (some p.addr) ∧ s.mem.read p = some n ∧ (g.role p.addr).Protected i ∧
        ∀ k, g.role p.addr = .linked k → n.next = next) ∧ Owes s t none
  | clear k none => Owes s t (some (k, none))
  | clear k (some p) | takeData k p =>
      ∃ n, s.mem.read p = some n ∧ Owes s t (some (k, some n.data))
  | scan p j i => (∃ n, s.mem.read p = some n) ∧ i ≤ N ∧ Owes s t (some j.result)
  | addLoad p j | addStore p j _ | addRead p j | delete p j =>
      (∃ n, s.mem.read p = some n) ∧ Owes s t (some j.result)
  | addCas p j expected =>
      (∃ n, s.mem.read p = some n ∧ n.next = expected) ∧ Owes s t (some j.result)
  | exchange k r | drain _ k r => Owes s t (some (k, r))

/-- A node on a stack or a list, with the address that leads to it. -/
def Next (m : Memory Addr (Node Addr A)) (p : Option Addr) (a : Addr) (next : Option Addr) : Prop :=
  p = some a ∧ ∃ q n, q.addr = a ∧ m.read q = some n ∧ n.next = next

def Linked (m : Memory Addr (Node Addr A)) (p : Option Addr) (x : Addr × A) (next : Option Addr) :
    Prop :=
  p = some x.1 ∧ ∃ q n, q.addr = x.1 ∧ m.read q = some n ∧ n.data = x.2 ∧ n.next = next

structure Global (s : Shared N Stack Tid Addr A) (g : Ghost Stack Tid Addr A) : Prop where
  free : ∀ a, g.role a = .free ↔ s.mem.cell a = none
  linked : ∀ k a, g.role a = .linked k ↔ a ∈ (g.stack k).map Prod.fst
  listed : ∀ a, g.role a = .listed ↔ a ∈ g.reclaim
  nodup : ∀ k, ((g.stack k).map Prod.fst).Nodup
  nodup_reclaim : g.reclaim.Nodup
  seg : ∀ k, Seg (Linked s.mem) (· = none) (s.head k) (g.stack k)
  reclaim : Seg (Next s.mem) (· = none) s.nodesToReclaim g.reclaim
  owner : ∀ t i, s.hazard t = some i ↔ (s.slots i).id = some t
  run : ∀ k, StackRun (s.history k) ((g.stack k).map Prod.snd)

structure Local [DecidableEq Stack] [DecidableEq Tid] (s : Shared N Stack Tid Addr A)
    (g : Ghost Stack Tid Addr A) (t : Tid) (pc : PC Stack Addr A) : Prop where
  owned : ∀ a k, g.role a = .own t k ↔ pc.owned N = some (a, k)
  chained : ∀ a, g.role a = .chained t ↔ a ∈ g.chain t
  nodup : (g.chain t).Nodup
  chain : Seg (Next s.mem) (· = none) (pc.rest.map Ptr.addr) (g.chain t)
  alive : ∀ p, pc.rest = some p → ∃ n, s.mem.read p = some n
  hazard : pc.Hazardous → ∃ i, s.hazard t = some i
  facts : pc.Facts s g t

variable [DecidableEq Stack] [DecidableEq Tid] {s s' : Shared N Stack Tid Addr A}
variable {g g' : Ghost Stack Tid Addr A} {t u : Tid} {pc : PC Stack Addr A}

/-- What another thread must leave alone for `u` to keep its assertion. -/
structure Frame (u : Tid) (s : Shared N Stack Tid Addr A) (g : Ghost Stack Tid Addr A)
    (s' : Shared N Stack Tid Addr A) (g' : Ghost Stack Tid Addr A) : Prop where
  hazard : s'.hazard u = s.hazard u
  slot : ∀ i, s.hazard u = some i → (s'.slots i).ptr = (s.slots i).ptr
  owned : ∀ a k, g'.role a = .own u k ↔ g.role a = .own u k
  chained : ∀ a, g'.role a = .chained u ↔ g.role a = .chained u
  chain : g'.chain u = g.chain u
  reads : ∀ p n, s.mem.read p = some n → (g.role p.addr).Of u → s'.mem.read p = some n
  guards : ∀ p n i, s.mem.read p = some n → Holds s u i (some p.addr) →
    (g.role p.addr).Protected i → ∃ n', s'.mem.read p = some n' ∧ (g'.role p.addr).Protected i ∧
      ∀ k, g'.role p.addr = .linked k → g.role p.addr = .linked k ∧ n'.next = n.next
  owed : ∀ k, answers u (s'.history k) = answers u (s.history k)
  returned : ∀ k, s'.returned k u = s.returned k u

omit [DecidableEq Stack] in
theorem Frame.holds (f : Frame u s g s' g') {i : Fin N} {a : Option Addr} (h : Holds s u i a) :
    Holds s' u i a :=
  ⟨f.hazard.trans h.1, (f.slot i h.1).trans h.2⟩

/-- The address at which a node's chain begins is its thread's. -/
theorem Local.role_rest (h : Local s g t pc) {p : Ptr Addr} (hp : pc.rest = some p) :
    g.role p.addr = .chained t := by
  have hseg := h.chain
  rw [hp] at hseg
  refine (h.chained _).mpr ?_
  cases hc : g.chain t with
  | nil => simp [hc] at hseg
  | cons a l =>
      rw [hc] at hseg
      obtain ⟨next, ⟨ha, -⟩, -⟩ := hseg
      simp [Option.some.inj ha]

theorem Local.frame (h : Local s g u pc) (f : Frame u s g s' g') : Local s' g' u pc := by
  have owes : ∀ r, Owes s u r → Owes s' u r := by
    intro r hr k
    rw [f.owed, f.returned]
    exact hr k
  have own : ∀ q n k, pc.owned N = some (q.addr, k) → s.mem.read q = some n →
      s'.mem.read q = some n := by
    intro q n k hq hn
    refine f.reads q n hn ?_
    rw [(h.owned _ _).mpr hq]
    rfl
  refine ⟨fun a k => (f.owned a k).trans (h.owned a k), fun a => ?_, f.chain ▸ h.nodup, ?_,
    fun p hp => ?_, fun hz => ?_, ?_⟩
  · rw [f.chained, f.chain, h.chained]
  · rw [f.chain]
    refine h.chain.congr fun a ha p n hn => ?_
    obtain ⟨hp, q, k, rfl, hk, hnext⟩ := hn
    refine ⟨hp, q, k, rfl, f.reads q k hk ?_, hnext⟩
    rw [(h.chained _).mpr ha]
    rfl
  · obtain ⟨n, hn⟩ := h.alive p hp
    refine ⟨n, f.reads p n hn ?_⟩
    rw [h.role_rest hp]
    rfl
  · rw [f.hazard]
    exact h.hazard hz
  have hf := h.facts
  cases pc with
  | idle | newNode _ _ | loadHead _ | setHazard _ _ | clearPtr | clearId | exchange _ _
  | drain _ _ _ => exact owes _ hf
  | acquire k old i => exact ⟨f.hazard.trans hf.1, owes _ hf.2⟩
  | loadNext k v p | storeNext k v p h | readExpected k v p =>
      obtain ⟨⟨n, hn, hv⟩, ho⟩ := hf
      exact ⟨⟨n, own p n _ rfl hn, hv⟩, owes _ ho⟩
  | pushCas k v p e =>
      obtain ⟨⟨n, hn, hv⟩, ho⟩ := hf
      exact ⟨⟨n, own p n _ rfl hn, hv⟩, owes _ ho⟩
  | reload k old =>
      obtain ⟨⟨i, hi⟩, ho⟩ := hf
      exact ⟨⟨i, f.holds hi⟩, owes _ ho⟩
  | readNext k p =>
      obtain ⟨⟨i, n, hi, hn, hp⟩, ho⟩ := hf
      obtain ⟨n', hn', hp', -⟩ := f.guards p n i hn hi hp
      exact ⟨⟨i, n', f.holds hi, hn', hp'⟩, owes _ ho⟩
  | popCas k p next =>
      obtain ⟨⟨i, n, hi, hn, hp, hnext⟩, ho⟩ := hf
      obtain ⟨n', hn', hp', hl⟩ := f.guards p n i hn hi hp
      refine ⟨⟨i, n', f.holds hi, hn', hp', fun k hk => ?_⟩, owes _ ho⟩
      obtain ⟨hk', he⟩ := hl k hk
      rw [he, hnext k hk']
  | clear k p =>
      cases p with
      | none => exact owes _ hf
      | some p =>
          obtain ⟨n, hn, ho⟩ := hf
          exact ⟨n, own p n _ rfl hn, owes _ ho⟩
  | takeData k p =>
      obtain ⟨n, hn, ho⟩ := hf
      exact ⟨n, own p n _ rfl hn, owes _ ho⟩
  | scan p j i =>
      obtain ⟨⟨n, hn⟩, hi, ho⟩ := hf
      exact ⟨⟨n, own p n _ rfl hn⟩, hi, owes _ ho⟩
  | addLoad p j | addStore p j e | addRead p j | delete p j =>
      obtain ⟨⟨n, hn⟩, ho⟩ := hf
      exact ⟨⟨n, own p n _ rfl hn⟩, owes _ ho⟩
  | addCas p j e =>
      obtain ⟨⟨n, hn, he⟩, ho⟩ := hf
      exact ⟨⟨n, own p n _ rfl hn, he⟩, owes _ ho⟩

end CsNotes.HazardPointer
