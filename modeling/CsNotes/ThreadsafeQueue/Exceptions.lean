import CsNotes.ThreadsafeQueue.Preservation

/-!
# Calls left by an exception

The operations of `threadsafe_queue.cpp` again, where `new` may throw, and the move
constructor of the element at each of its uses: into the dummy node under the tail
mutex, out of the unlinked node, and into the result, where the compiler may also
elide it. Locals are destroyed as the call is left. The new node of `push` is a raw
pointer, and a node which is deleted does not destroy the value in it.

`begun` is the history when a thread's call began, and `exits` are the calls which
were left by an exception. `constructed` and `destroyed` are the nodes in which a
value was, by identity. All of these are observations which no branch reads.
-/
namespace CsNotes.ThreadsafeQueue.Exceptions
open Interleaving Storage History Segment

structure Oracle (Tid Addr A : Type*) extends ThreadsafeQueue.Oracle Tid Addr A where
  throws : Bool := false

/-- A call which was left by an exception, with the histories before and after it. -/
structure Exit (Tid A : Type*) where
  thread : Tid
  before : List (Event Tid A)
  after : List (Event Tid A)

structure Shared (Tid Addr A : Type*) where
  queue : ThreadsafeQueue.Shared Tid Addr A
  begun : Tid → List (Event Tid A)
  exits : List (Exit Tid A)
  constructed : List ℕ
  destroyed : List ℕ

variable {Tid Addr A : Type*}

def Shared.leave (s : Shared Tid Addr A) (t : Tid) (q : ThreadsafeQueue.Shared Tid Addr A) :
    Shared Tid Addr A × PC Addr A :=
  ({ s with queue := q, exits := s.exits ++ [⟨t, s.begun t, q.history⟩] }, .idle)

variable [DecidableEq Tid] [DecidableEq Addr]

/-- Record a step from `pc` which does not throw. -/
def Shared.record (s : Shared Tid Addr A) (t : Tid) (pc : PC Addr A)
    (q : ThreadsafeQueue.Shared Tid Addr A) : Shared Tid Addr A :=
  match pc with
  | .idle => { s with queue := q, begun := Function.update s.begun t s.queue.history }
  | .emplace _ _ => { s with queue := q, constructed := s.constructed ++ [s.queue.tail.id] }
  | .destroyData old _ => { s with queue := q, destroyed := s.destroyed ++ [old.id] }
  | _ => { s with queue := q }

omit [DecidableEq Tid] in
/-- A step that throws, if it can throw. -/
def throwing (t : Tid) (s : Shared Tid Addr A) :
    PC Addr A → Option (Outcome (Shared Tid Addr A × PC Addr A))
  | .newNode _ => some (.ok (s.leave t s.queue))
  | .emplace _ _ => some (s.queue.mem.access s.queue.tail fun n =>
      match n.data with
      | some _ => .fault
      | none => .ok (s.leave t { s.queue with tailMutex := none }))
  | .takeData old => some (s.queue.mem.access old fun n =>
      match n.data with
      | none => .fault
      | some _ => .ok (s.leave t { s.queue with mem := s.queue.mem.free old }))
  | .deleteNode old _ => some (s.queue.mem.access old fun n =>
      match n.data with
      | some _ => .fault
      | none => .ok (s.leave t { s.queue with mem := s.queue.mem.free old }))
  | _ => none

def exec (movedFrom : A → A) : Code Tid (Oracle Tid Addr A) (Shared Tid Addr A) (PC Addr A) :=
  fun t o s pc =>
    match if o.throws then throwing t s pc else none with
    | some r => r
    | none => (ThreadsafeQueue.exec movedFrom t o.toOracle s.queue pc).map
        fun r => (s.record t pc r.1, r.2)

def start (a : Addr) : Config Tid (Shared Tid Addr A) (PC Addr A) :=
  ⟨⟨(ThreadsafeQueue.start a).shared, fun _ => [], [], [], []⟩, fun _ => .idle⟩

/-- The control points at which the move constructor of the element is used. -/
def PC.MovesElement : PC Addr A → Prop
  | .emplace _ _ | .takeData _ | .deleteNode _ _ => True
  | _ => False

/-- The move constructor of the element does not throw. -/
def Quiet (c : Config Tid (Shared Tid Addr A) (PC Addr A)) (t : Tid) (o : Oracle Tid Addr A) :
    Prop :=
  o.throws → ¬ PC.MovesElement (c.pc t)

/-- While the call lasted, only operations of others took effect. -/
def Exit.Unaffected (x : Exit Tid A) : Prop :=
  ∃ es, x.after = x.before ++ es ∧ ∀ e ∈ es, e.thread ≠ x.thread

/-- The node with this identity is alive, and a value is in it. -/
def Valued (m : Memory Addr (Node Addr A)) (id : ℕ) : Prop :=
  ∃ p n, p.id = id ∧ m.read p = some n ∧ n.data ≠ none

/-- The nodes before `tail`, with the values in them. -/
def Chain (s : ThreadsafeQueue.Shared Tid Addr A) (l : List (Ptr Addr × A)) : Prop :=
  Seg (Queued s.mem) (· = some s.tail) s.head l

/-- No call that was left by an exception has changed the elements. Every value
constructed in a node was destroyed once or is alive in it, and every node that is
alive is on the chain from `head` or in the hands of a call that goes on. A thread
outside of calls has no mutex. -/
structure NothingLost (c : Config Tid (Shared Tid Addr A) (PC Addr A)) : Prop where
  elements : ∃ l, Chain c.shared.queue l ∧ QueueRun c.shared.queue.history (l.map Prod.snd)
  exits : ∀ x ∈ c.shared.exits, x.Unaffected
  once : c.shared.constructed.Nodup ∧ c.shared.destroyed.Nodup ∧
    ∀ id, id ∈ c.shared.destroyed ↔ id ∈ c.shared.constructed ∧ ¬ Valued c.shared.queue.mem id
  nodes : ∀ p n, c.shared.queue.mem.read p = some n →
    (∃ l, Chain c.shared.queue l ∧ (p ∈ l.map Prod.fst ∨ p = c.shared.queue.tail)) ∨
    ∃ t, (c.pc t).owned = some p.addr
  mutexes : ∀ t, c.pc t = .idle →
    c.shared.queue.headMutex ≠ some t ∧ c.shared.queue.tailMutex ≠ some t

end CsNotes.ThreadsafeQueue.Exceptions
