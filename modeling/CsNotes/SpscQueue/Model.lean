import CsNotes.Lib.History
import CsNotes.Lib.Storage

/-!
# The wait-free queue of one producer and one consumer

`spsc_queue_unbounded.cpp`, one step per access. `head` belongs to the consumer
and `tail` is written by the producer only. The last node is a dummy without a
value, so a push writes to the dummy node and makes a new one. The destructor is
run by the consumer: it pops until the queue is empty and deletes the dummy node.

A node which holds a value must not be deleted, a value must not be constructed
over another one, and only a constructed value can be moved from or destroyed.
`history`, `returned`, `constructed`, `destroyed` and `deleted` are observations
which no branch reads: the order in which `tail` and `head` were advanced,
together with the reads of `tail` which found the queue empty, what the pops have
returned, the nodes in which a value was constructed and destroyed, and the nodes
which were deleted. All pushes are the producer's and all pops the consumer's, so
the history does not say whose they are.
-/
namespace CsNotes.SpscQueue
open Interleaving Storage History

/-- `data` is a `manual_lifetime<T>`: there may be no value in it. -/
structure Node (Addr A : Type*) where
  data : Option A := none
  next : Option (Ptr Addr) := none
deriving DecidableEq, Repr

inductive Thread where
  | producer
  | consumer
deriving DecidableEq, Repr

inductive Call (A : Type*) where
  | push (v : A)
  | pop
  | destroy
deriving DecidableEq, Repr

/-- Who called `pop`: the consumer, or the destructor. -/
inductive Caller where
  | consumer
  | destructor
deriving DecidableEq, Repr

/-- The free choices of one step: the next call of an idle thread and the address
the allocator answers. -/
structure Oracle (Addr A : Type*) where
  call : Call A
  addr : Addr

/-- Where a thread is. `new` and `old` are `new_tail` and `old_tail` of a push,
`tail` is what a pop has loaded, `old` its `old_head`, and `v` the value moved out
of that node. -/
inductive PC (Addr A : Type*) where
  | idle
  | newNode (v : A)
  | loadOldTail (v : A) (new : Ptr Addr)
  | construct (v : A) (new old : Ptr Addr)
  | linkNext (v : A) (new old : Ptr Addr)
  | storeTail (v : A) (new : Ptr Addr)
  | loadTail (k : Caller)
  | compare (k : Caller) (tail : Ptr Addr)
  | readNext (k : Caller)
  | moveHead (k : Caller) (old : Ptr Addr) (next : Option (Ptr Addr))
  | takeData (k : Caller) (old : Ptr Addr)
  | destroyData (k : Caller) (old : Ptr Addr) (v : A)
  | deleteNode (k : Caller) (old : Ptr Addr) (v : A)
  | deleteHead
  | destroyed
deriving DecidableEq, Repr

structure Shared (Addr A : Type*) where
  mem : Memory Addr (Node Addr A)
  head : Option (Ptr Addr)
  tail : Ptr Addr
  closing : Bool
  history : List (Event Unit A)
  returned : List (Option A)
  constructed : List ℕ
  destroyed : List ℕ
  deleted : List ℕ

variable {Addr A : Type*} [DecidableEq Addr]

/-- `head == p`: pointers compare by address. -/
abbrev Shared.HeadIs (s : Shared Addr A) (p : Ptr Addr) : Prop :=
  s.head.map Ptr.addr = some p.addr

def Shared.answer (s : Shared Addr A) (r : Option A) : Shared Addr A :=
  { s with returned := s.returned ++ [r] }

/-- Delete a node, which must not hold a value. -/
def Shared.delete {B : Type*} (s : Shared Addr A) (p : Ptr Addr)
    (f : Shared Addr A → Outcome B) : Outcome B :=
  s.mem.access p fun n =>
    match n.data with
    | some _ => .fault
    | none => f { s with mem := s.mem.free p, deleted := s.deleted ++ [p.id] }

/-- `movedFrom` is what the move constructor of the element leaves behind. -/
def exec (movedFrom : A → A) : Code Thread (Oracle Addr A) (Shared Addr A) (PC Addr A) :=
  fun t o s pc => match pc with
  | .idle =>
      match t, o.call with
      | .producer, .push v => if s.closing then .wait else .ok (s, .newNode v)
      | .consumer, .pop => .ok (s, .loadTail .consumer)
      | .consumer, .destroy => .ok ({ s with closing := true }, .loadTail .destructor)
      | _, _ => .wait
  | .newNode v =>
      if s.mem.cell o.addr = none then
        .ok ({ s with mem := s.mem.alloc o.addr {} }, .loadOldTail v (s.mem.fresh o.addr))
      else .wait
  | .loadOldTail v new => .ok (s, .construct v new s.tail)
  | .construct v new old => s.mem.access old fun n =>
      match n.data with
      | some _ => .fault
      | none =>
          .ok ({ s with
            mem := s.mem.write old { n with data := some v }
            constructed := s.constructed ++ [old.id] }, .linkNext v new old)
  | .linkNext v new old => s.mem.access old fun n =>
      .ok ({ s with mem := s.mem.write old { n with next := some new } }, .storeTail v new)
  | .storeTail v new =>
      .ok ({ s with tail := new, history := s.history ++ [.push () v] }, .idle)
  | .loadTail k =>
      let empty := if s.HeadIs s.tail then [Event.empty ()] else []
      .ok ({ s with history := s.history ++ empty }, .compare k s.tail)
  | .compare k tail =>
      if s.HeadIs tail then
        match k with
        | .consumer => .ok (s.answer none, .idle)
        | .destructor => .ok (s.answer none, .deleteHead)
      else .ok (s, .readNext k)
  | .readNext k =>
      match s.head with
      | none => .fault
      | some old => s.mem.access old fun n => .ok (s, .moveHead k old n.next)
  | .moveHead k old next =>
      let value := (s.mem.read old).bind Node.data
      .ok ({ s with
        head := next
        history := s.history ++ (value.map (Event.pop ())).toList }, .takeData k old)
  | .takeData k old => s.mem.access old fun n =>
      match n.data with
      | none => .fault
      | some v =>
          .ok ({ s with mem := s.mem.write old { n with data := some (movedFrom v) } },
            .destroyData k old v)
  | .destroyData k old v => s.mem.access old fun n =>
      match n.data with
      | none => .fault
      | some _ =>
          .ok ({ s with
            mem := s.mem.write old { n with data := none }
            destroyed := s.destroyed ++ [old.id] }, .deleteNode k old v)
  | .deleteNode k old v => s.delete old fun s =>
      match k with
      | .consumer => .ok (s.answer (some v), .idle)
      | .destructor => .ok (s.answer (some v), .loadTail .destructor)
  | .deleteHead =>
      match s.head with
      | none => .fault
      | some head => s.delete head fun s => .ok (s, .destroyed)
  | .destroyed => .wait

/-- The queue as constructed, its dummy node at `a`. -/
def start (a : Addr) : Config Thread (Shared Addr A) (PC Addr A) :=
  let dummy := (Memory.empty : Memory Addr (Node Addr A)).fresh a
  ⟨⟨Memory.empty.alloc a {}, some dummy, dummy, false, [], [], [], [], []⟩, fun _ => .idle⟩

/-- The destructor is called while no push is in progress. -/
def Alone (c : Config Thread (Shared Addr A) (PC Addr A)) (t : Thread) (o : Oracle Addr A) :
    Prop :=
  t = .consumer → c.pc t = .idle → o.call = .destroy → c.pc .producer = .idle

end CsNotes.SpscQueue
