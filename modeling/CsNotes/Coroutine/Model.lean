import Mathlib.Data.Int.Notation
import Mathlib.Data.Nat.Notation
import Mathlib.Logic.Function.Basic
import CsNotes.Lib.Calls

/-!
# Coroutines after the compiler's transform

`compiler_transform.cpp` with `task.hpp`, `coroutine.hpp` and
`manual_lifetime.hpp`. A coroutine of type `task` is `g`, which awaits one other,
or a leaf, which suspends some number of times until an event outside and then
returns a value. A frame lives at a number; its functions `resume` and `destroy`
are called through it.

What the awaiters answer to `await_ready` is a parameter, as is what an `int`
holds before it is written. To use a frame that is not there or an object that
is not alive is a fault, and so are `resume()` on a handle that is null, done or
not suspended, to construct an object in storage which is in use, and to run
into `std::unreachable()`.

The end of `__exec_await_suspend` is read as it is indented: its last `else` is
the branch for an `await_suspend` that returns a handle.

`suspended` and `log` are observations; only what is a fault depends on them.
-/
namespace CsNotes.Coroutine
open Interleaving Calls

inductive Coro where
  | leaf (suspensions : ℕ) (value : ℤ → ℤ)
  | g (f : Coro)

/-- What a `coroutine_handle` refers to: a frame, or the coroutine of a caller
outside, which awaits the given frame. -/
inductive Hdl where
  | frame (i : ℕ)
  | caller (i : ℕ)
deriving DecidableEq, Repr

/-- The objects in a frame whose lifetime is managed by hand. -/
inductive Obj where
  | promise
  | tmp1
  | tmp2
  | tmp3
  | tmp4
deriving DecidableEq, Repr

/-- Whether the storage is shared: `tmp1`, `scope1` and `tmp4` are a union, and
`scope1` has `tmp2` and `tmp3`. -/
def Obj.overlaps : Obj → Obj → Bool
  | promise, o | o, promise => o = promise
  | tmp2, tmp3 | tmp3, tmp2 => false
  | _, _ => true

/-- What is seen of a run. `read h i` is `await_resume` in `h`, of frame `i`. -/
inductive Event where
  | resume (h : Hdl)
  | read (h : Hdl) (i : ℕ)
  | construct (i : ℕ) (o : Obj)
  | destroy (i : ℕ) (o : Obj)
  | release (i : ℕ)
deriving DecidableEq, Repr

/-- `await_ready` of the awaiters in one frame. -/
structure Ready where
  initial : Bool := false
  task : Bool := false
  final : Bool := false
deriving DecidableEq, Repr

/-- In `task.hpp` all of them suspend. -/
def taskReady : ℕ → Ready := fun _ => {}

/-- `resume` tells whether the pointer is set. `tmp2` is the `hdl_` of that task
and `tmp3` the `hdl_` of that awaiter. `live` lists the objects that are alive,
in the order they were constructed, and `waits` counts the outside events that a
leaf has still to wait for. -/
structure Frame where
  code : Coro
  x : ℤ
  resume : Bool := true
  suspendPoint : ℕ := 0
  suspended : Bool := false
  waits : ℕ
  continuation : Option Hdl := none
  result : ℤ
  tmp2 : Option ℕ := none
  tmp3 : Option ℕ := none
  live : List Obj := []

/-- `callers i` tells whether a caller is suspended which awaits frame `i`, and
`answers` is what callers got from `await_resume`. -/
structure State where
  frames : ℕ → Option Frame
  allocs : ℕ
  callers : ℕ → Bool
  answers : List (ℕ × ℤ)
  log : List Event

def State.init : State := ⟨fun _ => none, 0, fun _ => false, [], []⟩

def Coro.suspensions : Coro → ℕ
  | leaf k _ => k
  | g _ => 0

namespace State

def frame (s : State) (i : ℕ) : Outcome Frame :=
  match s.frames i with
  | none => .fault
  | some a => .ok a

/-- The frame an object is in, provided that the object is alive. -/
def get (s : State) (i : ℕ) (o : Obj) : Outcome Frame := do
  let a ← s.frame i
  if o ∈ a.live then .ok a else .fault

def setFrame (s : State) (i : ℕ) (a : Frame) : State :=
  { s with frames := Function.update s.frames i (some a) }

def note (s : State) (e : Event) : State := { s with log := s.log ++ [e] }

def modify (s : State) (i : ℕ) (f : Frame → Frame) : Outcome State := do
  let a ← s.frame i
  .ok (s.setFrame i (f a))

/-- `construct_from`, where `f` stores the members of the new object. -/
def construct (s : State) (i : ℕ) (o : Obj) (f : Frame → Frame := id) : Outcome State := do
  let a ← s.frame i
  if a.live.any o.overlaps then .fault
  else .ok ((s.setFrame i (f { a with live := a.live ++ [o] })).note (.construct i o))

def destruct (s : State) (i : ℕ) (o : Obj) : Outcome State := do
  let a ← s.get i o
  .ok ((s.setFrame i { a with live := a.live.erase o }).note (.destroy i o))

def suspend (s : State) (i p : ℕ) : Outcome State :=
  s.modify i fun a => { a with suspendPoint := p, suspended := true }

end State

/-- The functions that are called through a handle or a frame. -/
inductive Call where
  | resume (h : Option Hdl)
  | run (i : ℕ)
  | destroy (i : ℕ)
deriving DecidableEq, Repr

/-- What `await_suspend` returned, by its type. -/
inductive Suspension where
  | void
  | bool (suspend : Bool)
  | handle (h : Option Hdl)
deriving DecidableEq, Repr

def execAwaitSuspend (r : Meaning Call State) (awaitSuspend : State → Outcome (State × Suspension))
    (hdl : Hdl) (s : State) : Outcome State := do
  let (s, y) ← awaitSuspend s
  match y with
  | .void => .ok s
  | .bool b => if b then .ok s else r (.resume (some hdl)) s
  | .handle h => r (.resume h) s

/-- `suspend_always::await_suspend`. -/
def suspendAlways (s : State) : Outcome (State × Suspension) := .ok (s, .void)

/-- `task::awaiter::await_suspend`, of an awaiter with this `hdl_`. -/
def awaiterSuspend (hdl : Option ℕ) (h : Hdl) (s : State) : Outcome (State × Suspension) :=
  match hdl with
  | none => .fault
  | some j => do
      let _ ← s.get j .promise
      let s ← s.modify j fun a => { a with continuation := some h }
      .ok (s, .handle (some (.frame j)))

/-- `task::awaiter::await_resume`, in the coroutine `h`. -/
def awaiterResume (hdl : Option ℕ) (h : Hdl) (s : State) : Outcome (State × ℤ) :=
  match hdl with
  | none => .fault
  | some j => do
      let a ← s.get j .promise
      .ok (s.note (.read h j), a.result)

/-- `final_awaiter::await_suspend`. -/
def finalSuspendHdl (i : ℕ) (s : State) : Outcome (State × Suspension) := do
  let a ← s.get i .promise
  .ok (s, .handle a.continuation)

/-- `~task`, of a task with this `hdl_`. -/
def dropTask (r : Meaning Call State) (hdl : Option ℕ) (s : State) : Outcome State :=
  match hdl with
  | none => .ok s
  | some i => r (.destroy i) s

variable (ready : ℕ → Ready) (junk : ℕ → ℤ)

/-- From the initial awaiter on. -/
def initialAwait (r : Meaning Call State) (i : ℕ) (s : State) : Outcome State :=
  if (ready i).initial then r (.run i) s
  else do
    let s ← s.modify i fun a => { a with suspended := true }
    execAwaitSuspend r suspendAlways (.frame i) s

/-- A call of a coroutine, which returns a task with the handle. -/
def ramp (r : Meaning Call State) (c : Coro) (x : ℤ) (s : State) : Outcome (State × Option ℕ) := do
  let i := s.allocs
  let a : Frame := { code := c, x := x, waits := c.suspensions, result := junk i }
  let s ← ({ s with allocs := i + 1 }.setFrame i a).construct i .promise
  let s ← s.construct i .tmp1
  let s ← initialAwait ready r i s
  .ok (s, some i)

def returnValue (i : ℕ) (v : ℤ) (s : State) : Outcome State := do
  let _ ← s.get i .promise
  s.modify i fun a => { a with result := v }

/-- From the label `final_suspend` on. -/
def finalSuspend (r : Meaning Call State) (i : ℕ) (s : State) : Outcome State := do
  let s ← s.construct i .tmp4
  if (ready i).final then r (.destroy i) s
  else do
    let s ← s.suspend i 2
    let s ← s.modify i fun a => { a with resume := false }
    -- The frame may be destroyed in this call, but nothing of it is used afterwards.
    execAwaitSuspend r (finalSuspendHdl i) (.frame i) s

def destroyTmp2 (r : Meaning Call State) (i : ℕ) (s : State) : Outcome State := do
  let a ← s.get i .tmp2
  let s ← s.destruct i .tmp2
  dropTask r a.tmp2 s

/-- From the label `suspend_point_1` on. -/
def gReturn (r : Meaning Call State) (i : ℕ) (s : State) : Outcome State := do
  let a ← s.get i .tmp3
  let (s, fx) ← awaiterResume a.tmp3 (.frame i) s
  let s ← s.destruct i .tmp3
  let s ← destroyTmp2 r i s
  let s ← returnValue i (fx * fx) s
  finalSuspend ready r i s

def gResume (r : Meaning Call State) (f : Coro) (i : ℕ) (s : State) : Outcome State := do
  let a ← s.frame i
  match a.suspendPoint with
  | 0 => do
      let s ← s.destruct i .tmp1
      let (s, t) ← ramp ready junk r f a.x s
      let s ← s.construct i .tmp2 fun a => { a with tmp2 := t }
      let a ← s.get i .tmp2
      let s ← s.construct i .tmp3 fun b => { b with tmp3 := a.tmp2 }
      if (ready i).task then gReturn ready r i s
      else do
        let s ← s.suspend i 1
        let a ← s.get i .tmp3
        execAwaitSuspend r (awaiterSuspend a.tmp3 (.frame i)) (.frame i) s
  | 1 => gReturn ready r i s
  | _ => .fault

/-- The body of a leaf, from its start or from where it waits. -/
def leafBody (r : Meaning Call State) (value : ℤ → ℤ) (i : ℕ) (s : State) : Outcome State := do
  let a ← s.frame i
  match a.waits with
  | 0 => do
      let s ← returnValue i (value a.x) s
      finalSuspend ready r i s
  | w + 1 => do
      let s ← s.modify i fun a => { a with waits := w }
      s.suspend i 1

def leafResume (r : Meaning Call State) (value : ℤ → ℤ) (i : ℕ) (s : State) : Outcome State := do
  let a ← s.frame i
  match a.suspendPoint with
  | 0 => do
      let s ← s.destruct i .tmp1
      leafBody ready r value i s
  | 1 => leafBody ready r value i s
  | _ => .fault

/-- A call through the pointer `resume`. -/
def runFrame (r : Meaning Call State) (i : ℕ) (s : State) : Outcome State := do
  let a ← s.frame i
  if a.resume then do
    let s ← s.modify i fun a => { a with suspended := false }
    match a.code with
    | .leaf _ value => leafResume ready r value i s
    | .g f => gResume ready junk r f i s
  else .fault

/-- The temporaries that are destroyed by suspend point. -/
def destroyTemporaries (r : Meaning Call State) (a : Frame) (i : ℕ) (s : State) : Outcome State :=
  match a.code, a.suspendPoint with
  | _, 0 => s.destruct i .tmp1
  | .g _, 1 => do
      let s ← destroyTmp2 r i s
      s.destruct i .tmp3
  | .leaf .., 1 => .ok s
  | _, 2 => s.destruct i .tmp4
  | _, _ => .fault

/-- A call through the pointer `destroy`. -/
def destroyFrame (r : Meaning Call State) (i : ℕ) (s : State) : Outcome State := do
  let a ← s.frame i
  let s ← destroyTemporaries r a i s
  let s ← s.destruct i .promise
  .ok ({ s with frames := Function.update s.frames i none }.note (.release i))

def callerResume (i : ℕ) (s : State) : Outcome State :=
  if s.callers i then do
    let s := { s with callers := Function.update s.callers i false }
    let (s, v) ← awaiterResume (some i) (.caller i) s
    .ok { s with answers := s.answers ++ [(i, v)] }
  else .fault

def body (r : Meaning Call State) : Meaning Call State
  | .resume none, _ => .fault
  | .resume (some (.caller i)), s => callerResume i (s.note (.resume (.caller i)))
  | .resume (some (.frame i)), s => do
      let a ← s.frame i
      if a.suspended then runFrame ready junk r i (s.note (.resume (.frame i))) else .fault
  | .run i, s => runFrame ready junk r i s
  | .destroy i, s => destroyFrame r i s

/-- A caller outside awaits a task. -/
def coAwait (r : Meaning Call State) (t : Option ℕ) (s : State) : Outcome State :=
  match t with
  | none => .fault
  | some i =>
      let s := { s with callers := Function.update s.callers i true }
      execAwaitSuspend r (awaiterSuspend (some i) (.caller i)) (.caller i) s

/-- A number of events resume a coroutine, one after the other. -/
def outside (r : Meaning Call State) (h : Hdl) : ℕ → State → Outcome State
  | 0, s => .ok s
  | k + 1, s => do
      let s ← r (.resume (some h)) s
      outside r h k s

end CsNotes.Coroutine
