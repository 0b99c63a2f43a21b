import Mathlib.Logic.Equiv.Basic
import CsNotes.Lib.Interleaving

/-!
# Shapes with an erased type

`te.hpp` and `te_sbo.hpp`: an owning `Shape` on the heap, and one with a buffer
of its own for small models. A model is of some type, a shape and a strategy
together, and has a value of it. What a type does when it is copied, moved and
drawn, and how large its model is, are parameters.

A program names Shapes by variables. It can construct, assign, swap and destroy
them; an operation on a variable whose Shape is not there, or is there already,
is no program, and waits.
-/
namespace CsNotes.TypeErasure
open Interleaving

/-- What the types of models do. -/
structure Types (K V R : Type*) where
  size : K → ℕ
  copy : K → V → V
  moved : K → V → V
  movedFrom : K → V → V
  draw : K → V → R

structure Model (K V : Type*) where
  kind : K
  value : V
deriving DecidableEq, Repr

namespace Types
variable {K V R : Type*} (T : Types K V R)

def sizeof (m : Model K V) : ℕ := T.size m.kind
def copyOf (m : Model K V) : Model K V := { m with value := T.copy m.kind m.value }
def movedTo (m : Model K V) : Model K V := { m with value := T.moved m.kind m.value }
def leftOver (m : Model K V) : Model K V := { m with value := T.movedFrom m.kind m.value }
def drawing (m : Model K V) : R := T.draw m.kind m.value

end Types

/-- The Shapes there are: variables, and the parameter of `operator=`. -/
inductive Slot (Var : Type*) where
  | var (v : Var)
  | other
deriving DecidableEq, Repr

/-- What a Shape is made from. -/
inductive Source (Var K V : Type*) where
  | fresh (k : K) (x : V)
  | copy (w : Var)
  | move (w : Var)
deriving DecidableEq, Repr

inductive Op (Var K V : Type*) where
  | construct (v : Var) (src : Source Var K V)
  | assign (v : Var) (src : Source Var K V)
  | swap (v w : Var)
  | destroy (v : Var)
deriving DecidableEq, Repr

variable {Var K V K' V' R : Type*}

def Source.map (f : Model K V → Model K' V') : Source Var K V → Source Var K' V'
  | fresh k x => .fresh (f ⟨k, x⟩).kind (f ⟨k, x⟩).value
  | copy w => .copy w
  | move w => .move w

def Op.map (f : Model K V → Model K' V') : Op Var K V → Op Var K' V'
  | construct v src => .construct v (src.map f)
  | assign v src => .assign v (src.map f)
  | swap v w => .swap v w
  | destroy v => .destroy v

variable [DecidableEq Var]

/-- `std::swap` on two members, of the Shapes `a` and `b`. -/
def exchange {X : Type*} (f : Slot Var → X) (a b : Slot Var) : Slot Var → X := f ∘ Equiv.swap a b

namespace Te

/-- The pointer of a Shape is its model's only owner, so the Shape is its model. -/
abbrev State (Var K V : Type*) := Slot Var → Option (Model K V)

def empty : State Var K V := fun _ => none

/-- Continue with the model of a Shape. -/
def model {B : Type*} (σ : State Var K V) (v : Slot Var) (f : Model K V → Outcome B) : Outcome B :=
  match σ v with
  | none => .wait
  | some m => f m

def construct (T : Types K V R) (σ : State Var K V) (v : Slot Var) :
    Source Var K V → Outcome (State Var K V)
  | .fresh k x => .ok (Function.update σ v (some ⟨k, x⟩))
  | .copy w => model σ (.var w) fun m => .ok (Function.update σ v (some (T.copyOf m)))
  | .move w => model σ (.var w) fun m =>
      .ok (Function.update (Function.update σ (.var w) (some (T.leftOver m))) v
        (some (T.movedTo m)))

def destroy (σ : State Var K V) (v : Slot Var) : Outcome (State Var K V) :=
  model σ v fun _ => .ok (Function.update σ v none)

/-- There is no `swap` in `te.hpp`; what it does here is what `operator=` does
with its parameter. -/
def step (T : Types K V R) : Op Var K V → State Var K V → Outcome (State Var K V)
  | .construct v src, σ =>
      match σ (.var v) with
      | none => construct T σ (.var v) src
      | some _ => .wait
  | .assign v src, σ => model σ (.var v) fun _ =>
      (construct T σ .other src).bind fun σ => destroy (exchange σ (.var v) .other) .other
  | .swap v w, σ => model σ (.var v) fun _ => model σ (.var w) fun _ =>
      .ok (exchange σ (.var v) (.var w))
  | .destroy v, σ => destroy σ (.var v)

def draw (T : Types K V R) (σ : State Var K V) (v : Var) : Outcome R :=
  model σ (.var v) fun m => .ok (T.drawing m)

end Te

inductive Place (Var : Type*) where
  | buf (v : Slot Var)
  | heap (h : ℕ)
deriving DecidableEq, Repr

/-- The buffers, the pointers and the heap. Swapping the bytes of two buffers takes the
models in them along. To use or destroy a model through a pointer to where none is alive is
a fault, and so is to construct in or to give up a buffer while a model is alive in it: that
one is never destroyed. -/
structure Sbo (Var K V : Type*) where
  buf : Slot Var → Option (Model K V)
  pimpl : Slot Var → Option (Place Var)
  heap : ℕ → Option (Model K V)
  allocs : ℕ

namespace Sbo

def empty : Sbo Var K V := ⟨fun _ => none, fun _ => none, fun _ => none, 0⟩

/-- The live model at a place. -/
def model (s : Sbo Var K V) : Place Var → Option (Model K V)
  | .buf v => s.buf v
  | .heap h => s.heap h

def setModel (s : Sbo Var K V) (m : Option (Model K V)) : Place Var → Sbo Var K V
  | .buf v => { s with buf := Function.update s.buf v m }
  | .heap h => { s with heap := Function.update s.heap h m }

/-- Continue with what `pimpl_` of a Shape points to. -/
def deref {B : Type*} (s : Sbo Var K V) (v : Slot Var) (f : Place Var → Model K V → Outcome B) :
    Outcome B :=
  match s.pimpl v with
  | none => .wait
  | some p =>
      match s.model p with
      | none => .fault
      | some m => f p m

/-- Construct a model in the buffer if it fits, else on the heap. -/
def emplace (T : Types K V R) (capacity : ℕ) (s : Sbo Var K V) (v : Slot Var) (m : Model K V) :
    Outcome (Sbo Var K V) :=
  if T.sizeof m ≤ capacity then
    match s.buf v with
    | none => .ok { s with
        buf := Function.update s.buf v (some m)
        pimpl := Function.update s.pimpl v (some (.buf v)) }
    | some _ => .fault
  else
    .ok { s with
      heap := Function.update s.heap s.allocs (some m)
      allocs := s.allocs + 1
      pimpl := Function.update s.pimpl v (some (.heap s.allocs)) }

def construct (T : Types K V R) (capacity : ℕ) (s : Sbo Var K V) (v : Slot Var) :
    Source Var K V → Outcome (Sbo Var K V)
  | .fresh k x => emplace T capacity s v ⟨k, x⟩
  | .copy w => s.deref (.var w) fun _ m => emplace T capacity s v (T.copyOf m)
  | .move w => s.deref (.var w) fun p m =>
      emplace T capacity (s.setModel (some (T.leftOver m)) p) v (T.movedTo m)

def swap (s : Sbo Var K V) (v w : Slot Var) : Sbo Var K V :=
  { s with pimpl := exchange s.pimpl v w, buf := exchange s.buf v w }

/-- The Shape's buffer goes with it. -/
def release (s : Sbo Var K V) (v : Slot Var) : Outcome (Sbo Var K V) :=
  match s.buf v with
  | none => .ok { s with pimpl := Function.update s.pimpl v none }
  | some _ => .fault

def destroy (s : Sbo Var K V) (v : Slot Var) : Outcome (Sbo Var K V) :=
  s.deref v fun p _ => (s.setModel none p).release v

def step (T : Types K V R) (capacity : ℕ) : Op Var K V → Sbo Var K V → Outcome (Sbo Var K V)
  | .construct v src, s =>
      match s.pimpl (.var v) with
      | none => construct T capacity s (.var v) src
      | some _ => .wait
  | .assign v src, s =>
      match s.pimpl (.var v) with
      | none => .wait
      | some _ => (construct T capacity s .other src).bind fun s =>
          destroy (s.swap (.var v) .other) .other
  | .swap v w, s =>
      match s.pimpl (.var v), s.pimpl (.var w) with
      | some _, some _ => .ok (s.swap (.var v) (.var w))
      | _, _ => .wait
  | .destroy v, s => s.destroy (.var v)

def draw (T : Types K V R) (s : Sbo Var K V) (v : Var) : Outcome R :=
  s.deref (.var v) fun _ m => .ok (T.drawing m)

end Sbo
end CsNotes.TypeErasure
