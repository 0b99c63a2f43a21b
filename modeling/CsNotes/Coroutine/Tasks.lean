import CsNotes.Coroutine.Steps

/-!
# Variables of type `task`

A program outside the coroutines calls them, moves the tasks it gets between its
variables, awaits each task at most once, resumes coroutines that wait for an
event, and destroys its variables, in any order. `operator=` is read as one that
returns `*this` at its end.
-/
namespace CsNotes.Coroutine
open Interleaving Calls

/-- `task x` is the `hdl_` of the variable `x` if it is alive; `started` is an
observation. -/
structure World (Var : Type) where
  state : State
  task : Var → Option (Option ℕ)
  started : ℕ → Bool

inductive Op (Var : Type) where
  | call (x : Var) (c : Coro) (v : ℤ)
  | moveConstruct (x y : Var)
  | moveAssign (x y : Var)
  | coAwait (x : Var)
  | event (i : ℕ)
  | drop (x : Var)

namespace World
variable {Var : Type}

def init : World Var := ⟨.init, fun _ => none, fun _ => false⟩

def hdl (w : World Var) (x : Var) : Outcome (Option ℕ) :=
  match w.task x with
  | none => .fault
  | some h => .ok h

/-- What the program may do. Only a coroutine that is suspended, started and not
done has its event, and the innermost one of a chain: it holds no task. -/
def Allowed (w : World Var) : Op Var → Prop
  | .call x _ _ => w.task x = none
  | .moveConstruct x y => w.task x = none ∧ w.task y ≠ none
  | .moveAssign x y => w.task x ≠ none ∧ w.task y ≠ none
  | .coAwait x => ∃ i, w.task x = some (some i) ∧ w.started i = false
  | .event i => ∃ a, w.state.frames i = some a ∧ a.suspended = true ∧ a.suspendPoint = 1 ∧
      .tmp2 ∉ a.live
  | .drop x => w.task x ≠ none

variable [DecidableEq Var]

def setTask (w : World Var) (x : Var) (h : Option (Option ℕ)) : World Var :=
  { w with task := Function.update w.task x h }

def perform (junk : ℕ → ℤ) (r : Meaning Call State) (w : World Var) :
    Op Var → Outcome (World Var)
  | .call x c v => do
      let (s, t) ← ramp taskReady junk r c v w.state
      .ok ({ w with state := s }.setTask x (some t))
  | .moveConstruct x y => do
      let h ← w.hdl y
      .ok ((w.setTask y (some none)).setTask x (some h))
  | .moveAssign x y => do
      let h ← w.hdl x
      let h' ← w.hdl y
      if h = h' then .ok w
      else do
        let s ← dropTask r h w.state
        .ok (({ w with state := s }.setTask y (some none)).setTask x (some h'))
  | .coAwait x => do
      let h ← w.hdl x
      let s ← Coroutine.coAwait r h w.state
      .ok { w with state := s, started := fun i => w.started i || h = some i }
  | .event i => do
      let s ← r (.resume (some (.frame i))) w.state
      .ok { w with state := s }
  | .drop x => do
      let h ← w.hdl x
      let s ← dropTask r h w.state
      .ok ({ w with state := s }.setTask x none)

inductive Reached (junk : ℕ → ℤ) : World Var → Prop
  | init : Reached junk init
  | step {w w' : World Var} {op : Op Var} : Reached junk w → w.Allowed op →
      Runs (body taskReady junk) (fun r => w.perform junk r op) w' → Reached junk w'

end World

/-- What holds a task. -/
inductive Owner (Var : Type) where
  | var (x : Var)
  | tmp2 (i : ℕ)

/-- The `hdl_` of this live task refers to the frame. -/
def Refers {Var : Type} (task : Var → Option (Option ℕ)) (s : State) : Owner Var → ℕ → Prop
  | .var x, i => task x = some (some i)
  | .tmp2 k, i => ∃ a, s.frames k = some a ∧ .tmp2 ∈ a.live ∧ a.tmp2 = some i

/-- The frames beneath a frame, each held by the one before. -/
def Beneath (s : State) : ℕ → List ℕ → Prop
  | i, [] => ∃ a, s.frames i = some a ∧ .tmp2 ∉ a.live
  | i, j :: l => (∃ a, s.frames i = some a ∧ .tmp2 ∈ a.live ∧ a.tmp2 = some j) ∧ Beneath s j l

end CsNotes.Coroutine
