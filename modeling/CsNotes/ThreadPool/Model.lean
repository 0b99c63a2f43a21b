import Mathlib.Algebra.Ring.Nat
import CsNotes.Lib.Interleaving

/-!
# The thread pool with work stealing

`thread_pool.cpp`: one pool after its constructor, the thread that owns it and
its workers. Every operation on a queue is one step, under that queue's lock. A
task is a number; what it does next, and when, is free choice: it may submit
tasks, run pending ones while it waits, and return, so a thread has a stack of
tasks it is inside of.

Once the body of the destructor is done the members are destroyed in reverse
order of declaration: the local queues, the global queue, and then the threads,
each of which is joined. A member that is destroyed is `none`, and to access it
is a fault, as is a subscript out of range.

`started` and `finished` are observations which no branch reads.
-/
namespace CsNotes.ThreadPool
open Interleaving

namespace WorkStealingQueue
variable {T : Type*}

def push (x : T) (q : List T) : List T := x :: q

def tryPop : List T → Option (T × List T)
  | [] => none
  | x :: q => some (x, q)

def trySteal (q : List T) : Option (T × List T) :=
  q.getLast?.map fun x => (x, q.dropLast)

end WorkStealingQueue

/-- The owner constructs, uses and destroys the pool. -/
inductive Thread (N : ℕ) where
  | owner
  | worker (k : Fin N)
deriving DecidableEq, Repr

/-- What the owner or a running task does next. -/
inductive Call where
  | submit
  | runPendingTask
  | finish
  | destroy
deriving DecidableEq, Repr

/-- Where a thread is. `st` are the tasks it is inside of, the innermost first,
`x` is the task being submitted, `i` and `n` the loop variable and bound of
`tryStealTask`, and `k` the thread which the destructor is at. -/
inductive PC where
  | start
  | stopRequested
  | popLocal (st : List ℕ)
  | popGlobal (st : List ℕ)
  | countQueues (st : List ℕ)
  | steal (st : List ℕ) (i n : ℕ)
  | yield (st : List ℕ)
  | run (st : List ℕ)
  | choose (st : List ℕ) (x : ℕ)
  | pushGlobal (st : List ℕ) (x : ℕ)
  | pushLocal (st : List ℕ) (x : ℕ)
  | left
  | own
  | requestStop (k : ℕ)
  | destroyLocalQueues
  | destroyTasks
  | join (k : ℕ)
  | destroyed
deriving DecidableEq, Repr

structure Shared (N : ℕ) where
  tasks : Option (List ℕ)
  localQueues : Option (List (List ℕ))
  index : Thread N → ℕ
  stop : Fin N → Bool
  left : Fin N → Bool
  submitted : ℕ
  started : List ℕ
  finished : List ℕ

variable {N : ℕ}

namespace Shared
variable {B : Type*}

/-- Continue with the contents of one local queue. -/
def localQueue (s : Shared N) (i : ℕ) (f : List ℕ → Outcome B) : Outcome B :=
  match s.localQueues with
  | none => .fault
  | some l =>
      match l[i]? with
      | none => .fault
      | some q => f q

def setLocalQueue (s : Shared N) (i : ℕ) (q : List ℕ) : Shared N :=
  { s with localQueues := s.localQueues.map fun l => l.set i q }

def globalQueue (s : Shared N) (f : List ℕ → Outcome B) : Outcome B :=
  match s.tasks with
  | none => .fault
  | some q => f q

end Shared

/-- Leave `submit` or `runPendingTask`: the caller is the innermost task, or the
loop of a worker, or the owner. -/
def PC.resume (t : Thread N) : List ℕ → PC
  | [] =>
      match t with
      | .owner => own
      | .worker _ => stopRequested
  | x :: st => run (x :: st)

/-- `n = localQueues.size() - 1`, a `size_t` kept in an `unsigned int`. -/
def stealBound (size : ℕ) : ℕ := (size + 2 ^ 64 - 1) % 2 ^ 64 % 2 ^ 32

/-- The subscript `(index + i + 1) % n`. -/
def victim (index i n : ℕ) : ℕ := (index + i + 1) % 2 ^ 32 % n

/-- The head of the loop of `tryStealTask`. -/
def PC.tryStealTask (st : List ℕ) (i n : ℕ) : PC := if i < n then steal st i n else yield st

/-- Begin a task which was taken from a queue. -/
def runTask (s : Shared N) (st : List ℕ) (x : ℕ) : Outcome (Shared N × PC) :=
  .ok ({ s with started := s.started ++ [x] }, .run (x :: st))

/-- The head of the loops over the threads in the destructor. -/
def PC.forThread (N : ℕ) (k : ℕ) (body done : PC) : PC := if k < N then body else done

def exec : Code (Thread N) Call (Shared N) PC :=
  fun t o s pc => match pc with
  | .start =>
      match t with
      | .owner => .wait
      | .worker k => .ok ({ s with index := Function.update s.index t k }, .stopRequested)
  | .stopRequested =>
      match t with
      | .owner => .wait
      | .worker k =>
          if s.stop k then .ok ({ s with left := Function.update s.left k true }, .left)
          else .ok (s, .popLocal [])
  | .left => .wait
  | .popLocal st => s.localQueue (s.index t) fun q =>
      match WorkStealingQueue.tryPop q with
      | some (x, q) => runTask (s.setLocalQueue (s.index t) q) st x
      | none => .ok (s, .popGlobal st)
  | .popGlobal st => s.globalQueue fun q =>
      match q with
      | x :: q => runTask { s with tasks := some q } st x
      | [] => .ok (s, .countQueues st)
  | .countQueues st =>
      match s.localQueues with
      | none => .fault
      | some l => .ok (s, .tryStealTask st 0 (stealBound l.length))
  | .steal st i n => s.localQueue (victim (s.index t) i n) fun q =>
      match WorkStealingQueue.trySteal q with
      | some (x, q) => runTask (s.setLocalQueue (victim (s.index t) i n) q) st x
      | none => .ok (s, .tryStealTask st (i + 1) n)
  | .yield st => .ok (s, .resume t st)
  | .run st =>
      match o, st with
      | .submit, _ => .ok ({ s with submitted := s.submitted + 1 }, .choose st s.submitted)
      | .runPendingTask, _ => .ok (s, .popLocal st)
      | .finish, x :: rest => .ok ({ s with finished := s.finished ++ [x] }, .resume t rest)
      | _, _ => .wait
  | .choose st x => .ok (s, if s.index t = N then .pushGlobal st x else .pushLocal st x)
  | .pushGlobal st x => s.globalQueue fun q =>
      .ok ({ s with tasks := some (q ++ [x]) }, .resume t st)
  | .pushLocal st x => s.localQueue (s.index t) fun q =>
      .ok (s.setLocalQueue (s.index t) (WorkStealingQueue.push x q), .resume t st)
  | .own =>
      match o with
      | .submit => .ok ({ s with submitted := s.submitted + 1 }, .choose [] s.submitted)
      | .destroy => .ok (s, .forThread N 0 (.requestStop 0) .destroyLocalQueues)
      | _ => .wait
  | .requestStop k =>
      let s' : Shared N := { s with stop := fun j => s.stop j || j = k }
      .ok (s', .forThread N (k + 1) (.requestStop (k + 1)) .destroyLocalQueues)
  | .destroyLocalQueues => .ok ({ s with localQueues := none }, .destroyTasks)
  | .destroyTasks => .ok ({ s with tasks := none }, .forThread N 0 (.join 0) .destroyed)
  | .join k =>
      if ∃ j : Fin N, j = k ∧ s.left j then
        .ok (s, .forThread N (k + 1) (.join (k + 1)) .destroyed)
      else .wait
  | .destroyed => .wait

/-- The pool as constructed, and then filled with any tasks. -/
def start (tasks : List ℕ) (queues : Fin N → List ℕ) (submitted : ℕ) :
    Config (Thread N) (Shared N) PC where
  shared :=
    { tasks := some tasks
      localQueues := some (List.ofFn queues)
      index := fun t => match t with
        | .owner => N
        | .worker _ => 0
      stop := fun _ => false
      left := fun _ => false
      submitted := submitted
      started := []
      finished := [] }
  pc := fun t => match t with
    | .owner => .own
    | .worker _ => .start

end CsNotes.ThreadPool
