import Mathlib.Data.Int.Notation
import CsNotes.Lib.History
import CsNotes.Lib.Storage

/-!
# The lock-free stack with split reference counts

`lockfree_stack_split_ref_count.cpp`, one step per atomic operation and per
access to a node. The external count of a node is kept beside whichever pointer
links it, the internal count in the node. Pointers in memory are addresses, and
an address may be handed out again as soon as its node is deleted. A thread that
counted itself in on `head` means the node which lived there at that moment, and
every later access through that pointer is for that node.

`history` and `returned` are observations: the successful linking and unlinking
operations and the empty polls in their order, and what each thread's pops have
returned. No branch reads them.
-/
namespace CsNotes.SplitRefCount
open Interleaving Storage History

/-- `counted_node_ptr`: the count does not matter while `ptr` is null. -/
structure CountedNodePtr (Addr : Type*) where
  externalCount : ℤ := 1
  ptr : Option Addr := none
deriving DecidableEq, Repr

structure Node (Addr A : Type*) where
  data : A
  next : CountedNodePtr Addr := {}
  internalCount : ℤ := 0
deriving DecidableEq, Repr

inductive Call (A : Type*) where
  | push (v : A)
  | pop
deriving DecidableEq, Repr

/-- The free choices of one step: the next call of an idle thread, the address
the allocator answers, and whether a weak exchange fails spuriously. -/
structure Oracle (Addr A : Type*) where
  call : Call A
  addr : Addr
  spurious : Bool := false

/-- Where a thread is. `old` is its `old_head`, `p` the node it holds on to. -/
inductive PC (Addr A : Type*) where
  | idle
  | newNode (v : A)
  | loadNext (v : A) (p : Ptr Addr)
  | pushCas (v : A) (p : Ptr Addr)
  | loadHead
  | count (old : CountedNodePtr Addr)
  | readNext (old : CountedNodePtr Addr) (p : Ptr Addr)
  | unlink (old : CountedNodePtr Addr) (p : Ptr Addr) (next : CountedNodePtr Addr)
  | takeData (old : CountedNodePtr Addr) (p : Ptr Addr)
  | addCount (old : CountedNodePtr Addr) (p : Ptr Addr) (v : A)
  | deleteTaken (p : Ptr Addr) (v : A)
  | subCount (old : CountedNodePtr Addr) (p : Ptr Addr)
  | deleteReleased (old : CountedNodePtr Addr) (p : Ptr Addr)
deriving DecidableEq, Repr

structure Shared (Tid Addr A : Type*) where
  head : CountedNodePtr Addr
  mem : Memory Addr (Node Addr A)
  history : List (Event Tid A)
  returned : Tid → List (Option A)

variable {Tid Addr A : Type*} [DecidableEq Tid] [DecidableEq Addr]

/-- A pop of `t` returns `r`. -/
def Shared.answer (s : Shared Tid Addr A) (t : Tid) (r : Option A) : Shared Tid Addr A :=
  { s with returned := Function.update s.returned t (s.returned t ++ [r]) }

/-- `movedFrom` is what the move constructor of the element leaves behind. -/
def exec (movedFrom : A → A) : Code Tid (Oracle Addr A) (Shared Tid Addr A) (PC Addr A) :=
  fun t o s pc => match pc with
  | .idle =>
      match o.call with
      | .push v => .ok (s, .newNode v)
      | .pop => .ok (s, .loadHead)
  -- `new node{data, head.load()}`: the allocation comes first
  | .newNode v =>
      if s.mem.cell o.addr = none then
        .ok ({ s with mem := s.mem.alloc o.addr { data := v } }, .loadNext v (s.mem.fresh o.addr))
      else .wait
  | .loadNext v p => s.mem.access p fun n =>
      .ok ({ s with mem := s.mem.write p { n with next := s.head } }, .pushCas v p)
  | .pushCas v p => s.mem.access p fun n =>
      if s.head = n.next ∧ o.spurious = false then
        .ok ({ s with head := { ptr := some p.addr }, history := s.history ++ [.push t v] }, .idle)
      else .ok ({ s with mem := s.mem.write p { n with next := s.head } }, .pushCas v p)
  | .loadHead => .ok (s, .count s.head)
  | .count old =>
      let newCounter := { old with externalCount := old.externalCount + 1 }
      if s.head = old then
        match old.ptr with
        | none =>
            .ok ({ s.answer t none with head := newCounter, history := s.history ++ [.empty t] },
              .idle)
        | some a =>
            match s.mem.find a with
            | none => .fault
            | some p => .ok ({ s with head := newCounter }, .readNext newCounter p)
      else .ok (s, .count s.head)
  | .readNext old p => s.mem.access p fun n => .ok (s, .unlink old p n.next)
  | .unlink old p next =>
      if s.head = old then
        .ok ({ s with
          head := next
          history := s.history ++ ((s.mem.read p).map fun n => Event.pop t n.data).toList },
          .takeData old p)
      else .ok (s, .subCount s.head p)
  | .takeData old p => s.mem.access p fun n =>
      .ok ({ s with mem := s.mem.write p { n with data := movedFrom n.data } },
        .addCount old p n.data)
  | .addCount old p v => s.mem.access p fun n =>
      let countIncrease := old.externalCount - 2
      let m := s.mem.write p { n with internalCount := n.internalCount + countIncrease }
      if n.internalCount = -countIncrease then .ok ({ s with mem := m }, .deleteTaken p v)
      else .ok ({ s.answer t (some v) with mem := m }, .idle)
  | .deleteTaken p v => s.mem.access p fun _ =>
      .ok ({ s.answer t (some v) with mem := s.mem.free p }, .idle)
  | .subCount old p => s.mem.access p fun n =>
      let m := s.mem.write p { n with internalCount := n.internalCount - 1 }
      if n.internalCount = 1 then .ok ({ s with mem := m }, .deleteReleased old p)
      else .ok ({ s with mem := m }, .count old)
  | .deleteReleased old p => s.mem.access p fun _ =>
      .ok ({ s with mem := s.mem.free p }, .count old)

def start : Config Tid (Shared Tid Addr A) (PC Addr A) :=
  ⟨⟨{}, Memory.empty, [], fun _ => []⟩, fun _ => .idle⟩

end CsNotes.SplitRefCount
