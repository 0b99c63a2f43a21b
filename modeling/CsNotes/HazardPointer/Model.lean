import CsNotes.Lib.History
import CsNotes.Lib.Storage

/-!
# The lock-free stack with hazard pointers

`lockfree_stack_hazard_pointer.cpp`, one step per atomic operation and per
access to a node. Several stacks share the list `nodes_to_reclaim` and the array
of hazard pointers, of which a thread takes one at its first pop and keeps it
until the thread exits. The array is searched slot by slot.

Pointers in memory and in hazard slots are addresses, and a freed address may be
handed out again at once. A pointer which a thread is going to dereference means
the node which lived at the address when the pointer was read: for the head, at
the load which confirmed it after the hazard pointer was set; for a node to be
reclaimed, when the list was taken or its predecessor was left.

`history` and `returned` are observations of each stack which no branch reads:
the successful exchanges of push and pop and the final loads of a null head, and
what each thread's pops have returned.
-/
namespace CsNotes.HazardPointer
open Interleaving Storage History

structure Node (Addr A : Type*) where
  data : A
  next : Option Addr := none
deriving DecidableEq, Repr

/-- `hazard_pointer`; the id is none while the slot has no owner. -/
structure Slot (Tid Addr : Type*) where
  id : Option Tid := none
  ptr : Option Addr := none
deriving DecidableEq, Repr

inductive Call (Stack A : Type*) where
  | push (k : Stack) (v : A)
  | pop (k : Stack)
  | exit
deriving DecidableEq, Repr

/-- The free choices of one step: the next call of an idle thread, the address
the allocator answers, and whether a weak exchange fails spuriously. -/
structure Oracle (Stack Addr A : Type*) where
  call : Call Stack A
  addr : Addr
  spurious : Bool := false

/-- What remains of a pop once a node is deleted or on the reclaim list: all of
`delete_node_with_no_hazards`, or the rest of its chain. -/
inductive After (Stack Addr A : Type*) where
  | popped (k : Stack) (v : A)
  | drained (rest : Option (Ptr Addr)) (k : Stack) (r : Option A)
deriving DecidableEq, Repr

/-- Where a thread is. `k` is the stack, `p` the node it works on, `old` its
`old_head` before the hazard pointer is confirmed and `r` the result of its pop. -/
inductive PC (Stack Addr A : Type*) where
  | idle
  | newNode (k : Stack) (v : A)
  | loadNext (k : Stack) (v : A) (p : Ptr Addr)
  | storeNext (k : Stack) (v : A) (p : Ptr Addr) (h : Option Addr)
  | readExpected (k : Stack) (v : A) (p : Ptr Addr)
  | pushCas (k : Stack) (v : A) (p : Ptr Addr) (expected : Option Addr)
  | loadHead (k : Stack)
  | acquire (k : Stack) (old : Option Addr) (i : ℕ)
  | setHazard (k : Stack) (old : Option Addr)
  | reload (k : Stack) (old : Option Addr)
  | readNext (k : Stack) (p : Ptr Addr)
  | popCas (k : Stack) (p : Ptr Addr) (next : Option Addr)
  | clear (k : Stack) (p : Option (Ptr Addr))
  | takeData (k : Stack) (p : Ptr Addr)
  | scan (p : Ptr Addr) (j : After Stack Addr A) (i : ℕ)
  | addLoad (p : Ptr Addr) (j : After Stack Addr A)
  | addStore (p : Ptr Addr) (j : After Stack Addr A) (h : Option Addr)
  | addRead (p : Ptr Addr) (j : After Stack Addr A)
  | addCas (p : Ptr Addr) (j : After Stack Addr A) (expected : Option Addr)
  | delete (p : Ptr Addr) (j : After Stack Addr A)
  | exchange (k : Stack) (r : Option A)
  | drain (curr : Option (Ptr Addr)) (k : Stack) (r : Option A)
  | clearPtr
  | clearId
deriving DecidableEq, Repr

def After.pc {Stack Addr A : Type*} : After Stack Addr A → PC Stack Addr A
  | popped k v => .exchange k (some v)
  | drained rest k r => .drain rest k r

/-- `hazard` is the slot in the thread's own `hp_owner`. -/
structure Shared (N : ℕ) (Stack Tid Addr A : Type*) where
  head : Stack → Option Addr
  nodesToReclaim : Option Addr
  slots : Fin N → Slot Tid Addr
  hazard : Tid → Option (Fin N)
  mem : Memory Addr (Node Addr A)
  history : Stack → List (Event Tid A)
  returned : Stack → Tid → List (Option A)

namespace Shared
variable {N : ℕ} {Stack Tid Addr A : Type*} [DecidableEq Stack] [DecidableEq Tid]

/-- `e` takes effect on the stack `k`. -/
def log (s : Shared N Stack Tid Addr A) (k : Stack) (e : List (Event Tid A)) :
    Shared N Stack Tid Addr A :=
  { s with history := Function.update s.history k (s.history k ++ e) }

/-- A pop of `t` on the stack `k` returns `r`. -/
def answer (s : Shared N Stack Tid Addr A) (k : Stack) (t : Tid) (r : Option A) :
    Shared N Stack Tid Addr A :=
  { s with
    returned := Function.update s.returned k
      (Function.update (s.returned k) t (s.returned k t ++ [r])) }

def setSlot (s : Shared N Stack Tid Addr A) (i : Fin N) (x : Slot Tid Addr) :
    Shared N Stack Tid Addr A :=
  { s with slots := Function.update s.slots i x }

def setHead (s : Shared N Stack Tid Addr A) (k : Stack) (h : Option Addr) :
    Shared N Stack Tid Addr A :=
  { s with head := Function.update s.head k h }

/-- Continue with the slot of `t`; there is none to dereference before it is acquired. -/
def own {B : Type*} (s : Shared N Stack Tid Addr A) (t : Tid) (f : Fin N → Outcome B) : Outcome B :=
  match s.hazard t with
  | none => .fault
  | some i => f i

/-- Continue with the node an address in memory leads to. -/
def follow {B : Type*} (s : Shared N Stack Tid Addr A) (a : Option Addr)
    (f : Option (Ptr Addr) → Outcome B) : Outcome B :=
  match a with
  | none => f none
  | some a =>
      match s.mem.find a with
      | none => .fault
      | some p => f (some p)

end Shared

variable {N : ℕ} {Stack Tid Addr A : Type*} [DecidableEq Stack] [DecidableEq Tid] [DecidableEq Addr]

/-- `movedFrom` is what the move constructor of the element leaves behind. -/
def exec (movedFrom : A → A) : Code Tid (Oracle Stack Addr A) (Shared N Stack Tid Addr A)
    (PC Stack Addr A) :=
  fun t o s pc => match pc with
  | .idle =>
      match o.call with
      | .push k v => .ok (s, .newNode k v)
      | .pop k => .ok (s, .loadHead k)
      | .exit => if s.hazard t = none then .ok (s, .idle) else .ok (s, .clearPtr)
  | .newNode k v =>
      if s.mem.cell o.addr = none then
        .ok ({ s with mem := s.mem.alloc o.addr { data := v } }, .loadNext k v (s.mem.fresh o.addr))
      else .wait
  | .loadNext k v p => .ok (s, .storeNext k v p (s.head k))
  | .storeNext k v p h => s.mem.access p fun n =>
      .ok ({ s with mem := s.mem.write p { n with next := h } }, .readExpected k v p)
  | .readExpected k v p => s.mem.access p fun n => .ok (s, .pushCas k v p n.next)
  | .pushCas k v p expected =>
      if s.head k = expected ∧ o.spurious = false then
        .ok ((s.setHead k (some p.addr)).log k [.push t v], .idle)
      else .ok (s, .storeNext k v p (s.head k))
  | .loadHead k =>
      if s.hazard t = none then .ok (s, .acquire k (s.head k) 0)
      else .ok (s, .setHazard k (s.head k))
  | .acquire k old i =>
      if h : i < N then
        if (s.slots ⟨i, h⟩).id = none then
          .ok ({ s.setSlot ⟨i, h⟩ { s.slots ⟨i, h⟩ with id := some t } with
            hazard := Function.update s.hazard t (some ⟨i, h⟩) }, .setHazard k old)
        else .ok (s, .acquire k old (i + 1))
      else .ok (s, .idle) -- the constructor of `hp_owner` throws
  | .setHazard k old => s.own t fun i =>
      .ok (s.setSlot i { s.slots i with ptr := old }, .reload k old)
  | .reload k old =>
      if s.head k = old then
        s.follow old fun p => match p with
          | none => .ok (s.log k [.empty t], .clear k none)
          | some p => .ok (s, .readNext k p)
      else .ok (s, .setHazard k (s.head k))
  | .readNext k p => s.mem.access p fun n => .ok (s, .popCas k p n.next)
  | .popCas k p next =>
      if s.head k = some p.addr then
        .ok ((s.setHead k next).log k (((s.mem.read p).map fun n => Event.pop t n.data).toList),
          .clear k (some p))
      else .ok (s, .setHazard k (s.head k))
  | .clear k p => s.own t fun i =>
      .ok (s.setSlot i { s.slots i with ptr := none }, match p with
        | none => .exchange k none
        | some p => .takeData k p)
  | .takeData k p => s.mem.access p fun n =>
      .ok ({ s with mem := s.mem.write p { n with data := movedFrom n.data } },
        .scan p (.popped k n.data) 0)
  -- `outstanding_hazard_pointers_for`, and what follows from its answer
  | .scan p j i =>
      if h : i < N then
        if (s.slots ⟨i, h⟩).ptr = some p.addr then .ok (s, .addLoad p j)
        else .ok (s, .scan p j (i + 1))
      else .ok (s, .delete p j)
  | .addLoad p j => .ok (s, .addStore p j s.nodesToReclaim)
  | .addStore p j h => s.mem.access p fun n =>
      .ok ({ s with mem := s.mem.write p { n with next := h } }, .addRead p j)
  | .addRead p j => s.mem.access p fun n => .ok (s, .addCas p j n.next)
  | .addCas p j expected =>
      if s.nodesToReclaim = expected ∧ o.spurious = false then
        .ok ({ s with nodesToReclaim := some p.addr }, j.pc)
      else .ok (s, .addStore p j s.nodesToReclaim)
  | .delete p j => s.mem.access p fun _ => .ok ({ s with mem := s.mem.free p }, j.pc)
  | .exchange k r => s.follow s.nodesToReclaim fun p =>
      .ok ({ s with nodesToReclaim := none }, .drain p k r)
  | .drain curr k r =>
      match curr with
      | none => .ok (s.answer k t r, .idle)
      | some p => s.mem.access p fun n => s.follow n.next fun q =>
          .ok (s, .scan p (.drained q k r) 0)
  | .clearPtr => s.own t fun i => .ok (s.setSlot i { s.slots i with ptr := none }, .clearId)
  | .clearId => s.own t fun i =>
      .ok ({ s.setSlot i { s.slots i with id := none } with
        hazard := Function.update s.hazard t none }, .idle)

def start : Config Tid (Shared N Stack Tid Addr A) (PC Stack Addr A) :=
  ⟨⟨fun _ => none, none, fun _ => {}, fun _ => none, Memory.empty, fun _ => [], fun _ _ => []⟩,
    fun _ => .idle⟩

end CsNotes.HazardPointer
