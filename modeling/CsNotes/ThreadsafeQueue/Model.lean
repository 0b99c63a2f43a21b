import Mathlib.Data.Finset.Basic
import CsNotes.Lib.History
import CsNotes.Lib.Storage

/-!
# The two-lock queue with a condition variable

`threadsafe_queue.cpp`, one step per lock, unlock and access. Locking the head
mutex comes before reading `tail`, and the value is moved out of the unlinked
node after the head mutex is released. Waiting on the condition variable
releases the mutex and blocks in one step. `notify_one` wakes some blocked thread
if there is one, and a blocked thread may also wake up by itself.

A node which holds a value must not be deleted, a value must not be constructed
over another one, and only a constructed value can be moved from or destroyed.
`history` and `returned` are observations which no branch reads: the order in
which `tail` and `head` were advanced, together with the reads of `tail` which
found the queue empty, and what each thread's removals have returned.
-/
namespace CsNotes.ThreadsafeQueue
open Interleaving Storage History

/-- `data` is a `manual_lifetime<T>`: there may be no value in it. -/
structure Node (Addr A : Type*) where
  data : Option A := none
  next : Option (Ptr Addr) := none
deriving DecidableEq, Repr

inductive Removal where
  | tryPop
  | waitAndPop
deriving DecidableEq, Repr

inductive Call (A : Type*) where
  | push (v : A)
  | remove (k : Removal)
deriving DecidableEq, Repr

/-- The free choices of one step: the next call of an idle thread, the address
the allocator answers, the thread that is notified, and a spurious wake-up. -/
structure Oracle (Tid Addr A : Type*) where
  call : Call A
  addr : Addr
  wake : Tid
  spurious : Bool := false

/-- Where a thread is. `p` is the new dummy node of a push, `tail` what
`get_tail` has read, `old` the unlinked node and `v` the value moved out of it. -/
inductive PC (Addr A : Type*) where
  | idle
  | newNode (v : A)
  | lockTail (v : A) (p : Ptr Addr)
  | emplace (v : A) (p : Ptr Addr)
  | linkNext (v : A) (p : Ptr Addr)
  | moveTail (v : A) (p : Ptr Addr)
  | unlockTail
  | notifyOne
  | lockHead (k : Removal)
  | getTailLock (k : Removal)
  | getTail (k : Removal)
  | getTailUnlock (k : Removal) (tail : Ptr Addr)
  | compare (k : Removal) (tail : Ptr Addr)
  | returnEmpty
  | block
  | blocked
  | readNext
  | moveHead (old : Ptr Addr) (next : Option (Ptr Addr))
  | unlockHead (old : Ptr Addr)
  | takeData (old : Ptr Addr)
  | destroyData (old : Ptr Addr) (v : A)
  | deleteNode (old : Ptr Addr) (v : A)
deriving DecidableEq, Repr

structure Shared (Tid Addr A : Type*) where
  mem : Memory Addr (Node Addr A)
  head : Option (Ptr Addr)
  tail : Ptr Addr
  headMutex : Option Tid
  tailMutex : Option Tid
  waiters : Finset Tid
  history : List (Event Tid A)
  returned : Tid → List (Option A)

variable {Tid Addr A : Type*} [DecidableEq Tid] [DecidableEq Addr]

/-- `head == p`: pointers compare by address. -/
abbrev Shared.HeadIs (s : Shared Tid Addr A) (p : Ptr Addr) : Prop :=
  s.head.map Ptr.addr = some p.addr

/-- A removal of `t` returns `r`. -/
def Shared.answer (s : Shared Tid Addr A) (t : Tid) (r : Option A) : Shared Tid Addr A :=
  { s with returned := Function.update s.returned t (s.returned t ++ [r]) }

/-- `movedFrom` is what the move constructor of the element leaves behind. -/
def exec (movedFrom : A → A) : Code Tid (Oracle Tid Addr A) (Shared Tid Addr A) (PC Addr A) :=
  fun t o s pc => match pc with
  | .idle =>
      match o.call with
      | .push v => .ok (s, .newNode v)
      | .remove k => .ok (s, .lockHead k)
  | .newNode v =>
      if s.mem.cell o.addr = none then
        .ok ({ s with mem := s.mem.alloc o.addr {} }, .lockTail v (s.mem.fresh o.addr))
      else .wait
  | .lockTail v p =>
      if s.tailMutex = none then .ok ({ s with tailMutex := some t }, .emplace v p) else .wait
  | .emplace v p => s.mem.access s.tail fun n =>
      match n.data with
      | some _ => .fault
      | none => .ok ({ s with mem := s.mem.write s.tail { n with data := some v } }, .linkNext v p)
  | .linkNext v p => s.mem.access s.tail fun n =>
      .ok ({ s with mem := s.mem.write s.tail { n with next := some p } }, .moveTail v p)
  | .moveTail v p => .ok ({ s with tail := p, history := s.history ++ [.push t v] }, .unlockTail)
  | .unlockTail => .ok ({ s with tailMutex := none }, .notifyOne)
  | .notifyOne =>
      if s.waiters = ∅ then .ok (s, .idle)
      else if o.wake ∈ s.waiters then .ok ({ s with waiters := s.waiters.erase o.wake }, .idle)
      else .wait
  | .lockHead k =>
      if s.headMutex = none then .ok ({ s with headMutex := some t }, .getTailLock k) else .wait
  | .getTailLock k =>
      if s.tailMutex = none then .ok ({ s with tailMutex := some t }, .getTail k) else .wait
  | .getTail k =>
      let empty := if k = .tryPop ∧ s.HeadIs s.tail then [Event.empty t] else []
      .ok ({ s with history := s.history ++ empty }, .getTailUnlock k s.tail)
  | .getTailUnlock k tail => .ok ({ s with tailMutex := none }, .compare k tail)
  | .compare k tail =>
      if s.HeadIs tail then
        match k with
        | .tryPop => .ok (s, .returnEmpty)
        | .waitAndPop => .ok (s, .block)
      else .ok (s, .readNext)
  | .returnEmpty => .ok ({ s.answer t none with headMutex := none }, .idle)
  | .block => .ok ({ s with headMutex := none, waiters := insert t s.waiters }, .blocked)
  | .blocked =>
      if t ∈ s.waiters then
        if o.spurious then .ok ({ s with waiters := s.waiters.erase t }, .blocked) else .wait
      else if s.headMutex = none then
        .ok ({ s with headMutex := some t }, .getTailLock .waitAndPop)
      else .wait
  | .readNext =>
      match s.head with
      | none => .fault
      | some old => s.mem.access old fun n => .ok (s, .moveHead old n.next)
  | .moveHead old next =>
      let value := (s.mem.read old).bind Node.data
      .ok ({ s with head := next, history := s.history ++ (value.map (Event.pop t)).toList },
        .unlockHead old)
  | .unlockHead old => .ok ({ s with headMutex := none }, .takeData old)
  | .takeData old => s.mem.access old fun n =>
      match n.data with
      | none => .fault
      | some v =>
          .ok ({ s with mem := s.mem.write old { n with data := some (movedFrom v) } },
            .destroyData old v)
  | .destroyData old v => s.mem.access old fun n =>
      match n.data with
      | none => .fault
      | some _ => .ok ({ s with mem := s.mem.write old { n with data := none } }, .deleteNode old v)
  | .deleteNode old v => s.mem.access old fun n =>
      match n.data with
      | some _ => .fault
      | none => .ok ({ s.answer t (some v) with mem := s.mem.free old }, .idle)

/-- The queue as constructed, its dummy node at `a`. -/
def start (a : Addr) : Config Tid (Shared Tid Addr A) (PC Addr A) :=
  let dummy := (Memory.empty : Memory Addr (Node Addr A)).fresh a
  ⟨⟨Memory.empty.alloc a {}, some dummy, dummy, none, none, ∅, [], fun _ => []⟩, fun _ => .idle⟩

/-- The loop of the destructor, and the deletion of the dummy node after it;
`fuel` bounds the number of rounds. -/
def destroy : ℕ → Option (Ptr Addr) → Ptr Addr → Memory Addr (Node Addr A) →
    Outcome (Memory Addr (Node Addr A))
  | _, none, _, _ => .fault
  | 0, some _, _, _ => .wait
  | fuel + 1, some head, tail, m => m.access head fun n =>
      if head.addr = tail.addr then
        match n.data with
        | some _ => .fault
        | none => .ok (m.free head)
      else
        match n.data with
        | none => .fault
        | some _ => destroy fuel n.next tail (m.free head)

end CsNotes.ThreadsafeQueue
