import CsNotes.ThreadPool.Model

/-!
# Several pools and one index

`thread_pool.cpp` with any number of pools. The thread_local `index` belongs to a
thread, not to a pool: a worker sets it when it starts, and a constructor sets
it at its end, in whichever thread called it. Threads the program started by
other means have the 0 of static storage.

A constructor takes one step for each thread it starts, and the pool can be
called from outside when it is done. No pool is destroyed here, so no worker is
told to stop.

`constructions` is an observation which no branch reads.
-/
namespace CsNotes.ThreadPool.Pools
open Interleaving

/-- A thread of the program, or worker `k` of pool `p`. -/
inductive Thread where
  | program (m : ℕ)
  | worker (p k : ℕ)
deriving DecidableEq, Repr

/-- What a thread of the program or a running task does next. -/
inductive Call where
  | construct (numThreads : UInt32)
  | submit (p : ℕ)
  | runPendingTask (p : ℕ)
  | finish
deriving DecidableEq

/-- Where a thread is. `p` is the pool which it is in a call on, `st` are the
tasks it is inside of, the innermost first, `x` is the task being submitted, and
`i` and `n` are the loop variable and bound of `tryStealTask` or the constructor. -/
inductive PC where
  | start
  | stopRequested
  | popLocal (p : ℕ) (st : List ℕ)
  | popGlobal (p : ℕ) (st : List ℕ)
  | countQueues (p : ℕ) (st : List ℕ)
  | steal (p : ℕ) (st : List ℕ) (i n : ℕ)
  | yield (st : List ℕ)
  | run (st : List ℕ)
  | submit (p : ℕ) (st : List ℕ) (x : ℕ)
  | construct (p : ℕ) (st : List ℕ) (i n : ℕ)
deriving DecidableEq, Repr

/-- `threads` counts the workers which were started so far. -/
structure Pool where
  threads : ℕ
  tasks : List ℕ
  localQueues : List (List ℕ)
  constructed : Bool

structure Shared where
  pools : List Pool
  index : Thread → ℕ
  submitted : ℕ
  constructions : Thread → List ℕ

variable {B : Type*}

/-- Continue with the contents of one local queue. -/
def Pool.localQueue (pool : Pool) (i : ℕ) (f : List ℕ → Outcome B) : Outcome B :=
  match pool.localQueues[i]? with
  | none => .fault
  | some q => f q

def Pool.setLocalQueue (pool : Pool) (i : ℕ) (q : List ℕ) : Pool :=
  { pool with localQueues := pool.localQueues.set i q }

namespace Shared

/-- Continue with a pool that was begun. -/
def pool (s : Shared) (p : ℕ) (f : Pool → Outcome B) : Outcome B :=
  match s.pools[p]? with
  | none => .wait
  | some pool => f pool

/-- Enter a call on a pool, which the program can name once it is constructed. -/
def enter (s : Shared) (p : ℕ) (r : Shared × PC) : Outcome (Shared × PC) :=
  s.pool p fun pool => if pool.constructed then .ok r else .wait

def setPool (s : Shared) (p : ℕ) (pool : Pool) : Shared :=
  { s with pools := s.pools.set p pool }

end Shared

/-- Leave a call: the caller is the innermost task, or the loop of a worker, or
the program. -/
def PC.resume (t : Thread) : List ℕ → PC
  | [] =>
      match t with
      | .program _ => run []
      | .worker _ _ => stopRequested
  | x :: st => run (x :: st)

/-- The head of the loop of `tryStealTask`. -/
def PC.tryStealTask (p : ℕ) (st : List ℕ) (i n : ℕ) : PC :=
  if i < n then steal p st i n else yield st

def exec : Code Thread Call Shared PC :=
  fun t o s pc => match pc with
  | .start =>
      match t with
      | .program _ => .wait
      | .worker p k => s.pool p fun pool =>
          if k < pool.threads then
            .ok ({ s with index := Function.update s.index t k }, .stopRequested)
          else .wait
  | .stopRequested =>
      match t with
      | .program _ => .wait
      | .worker p _ => s.pool p fun _ => .ok (s, .popLocal p [])
  | .popLocal p st => s.pool p fun pool => pool.localQueue (s.index t) fun q =>
      match WorkStealingQueue.tryPop q with
      | some (x, q) => .ok (s.setPool p (pool.setLocalQueue (s.index t) q), .run (x :: st))
      | none => .ok (s, .popGlobal p st)
  | .popGlobal p st => s.pool p fun pool =>
      match pool.tasks with
      | x :: q => .ok (s.setPool p { pool with tasks := q }, .run (x :: st))
      | [] => .ok (s, .countQueues p st)
  | .countQueues p st => s.pool p fun pool =>
      .ok (s, .tryStealTask p st 0 (stealBound pool.localQueues.length))
  | .steal p st i n => s.pool p fun pool => pool.localQueue (victim (s.index t) i n) fun q =>
      match WorkStealingQueue.trySteal q with
      | some (x, q) =>
          .ok (s.setPool p (pool.setLocalQueue (victim (s.index t) i n) q), .run (x :: st))
      | none => .ok (s, .tryStealTask p st (i + 1) n)
  | .yield st => .ok (s, .resume t st)
  | .run st =>
      match o with
      | .construct n =>
          let pool : Pool := ⟨0, [], List.replicate n.toNat [], false⟩
          .ok ({ s with pools := s.pools ++ [pool] }, .construct s.pools.length st 0 n.toNat)
      | .submit p =>
          s.enter p ({ s with submitted := s.submitted + 1 }, .submit p st s.submitted)
      | .runPendingTask p => s.enter p (s, .popLocal p st)
      | .finish =>
          match st with
          | [] => .wait
          | _ :: rest => .ok (s, .resume t rest)
  | .submit p st x => s.pool p fun pool =>
      if s.index t = pool.threads then
        .ok (s.setPool p { pool with tasks := pool.tasks ++ [x] }, .resume t st)
      else
        pool.localQueue (s.index t) fun q =>
          .ok (s.setPool p (pool.setLocalQueue (s.index t) (WorkStealingQueue.push x q)),
            .resume t st)
  | .construct p st i n => s.pool p fun pool =>
      if i < n then
        .ok (s.setPool p { pool with threads := pool.threads + 1 }, .construct p st (i + 1) n)
      else
        let s' := s.setPool p { pool with constructed := true }
        .ok ({ s' with
          index := Function.update s.index t n
          constructions := Function.update s.constructions t (s.constructions t ++ [n]) },
          .resume t st)

/-- Before `main`. -/
def start : Config Thread Shared PC where
  shared := ⟨[], fun _ => 0, 0, fun _ => []⟩
  pc := fun t => match t with
    | .program _ => .run []
    | .worker _ _ => .start

end CsNotes.ThreadPool.Pools
