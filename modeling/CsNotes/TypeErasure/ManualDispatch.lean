import CsNotes.TypeErasure.Model

/-!
# Shapes with manual dispatch

`te_md.hpp`: a Shape is five raw pointers, one to its model and four to functions
which cast that pointer to the type of model they were made for. Each function is
known by that type. To call one on what is not a live model of its type is a
fault.

An operation makes one model at most, and its allocation or its constructor may
throw; a constructor that throws has changed nothing.

The two headers differ in what they ask of a type. `te.hpp` initializes members
with braces and draws through const members, and a call on const objects changes
nothing. `te_md.hpp` initializes with parentheses, so by a move, and draws through
members that are not const: a strategy which is callable on const objects may have
another overload for these, which may draw another result and change the model.

`created` and `deleted` are observations which no branch reads: the models in the
order in which they were constructed and deleted.
-/
namespace CsNotes.TypeErasure
open Interleaving

/-- Whether an operation throws: as it allocates, or from the constructor of the
new model. -/
inductive Failure where
  | none
  | allocation
  | model
deriving DecidableEq, Repr

structure Call (Var K V : Type*) where
  op : Op Var K V
  failure : Failure

def Call.map {Var K V K' V' : Type*} (f : Model K V → Model K' V') (o : Call Var K V) :
    Call Var K' V' :=
  ⟨o.op.map f, o.failure⟩

/-- What types do where the headers differ: members made with braces from an rvalue,
and a draw through members that are not const, which gives a result and leaves a
value. -/
structure Overloads (K V R : Type*) extends Types K V R where
  braced : K → V → V
  drawMutable : K → V → R × V

/-- A model of `te.hpp`, made from this one. -/
def Overloads.bracedTo {K V R : Type*} (T : Overloads K V R) (m : Model K V) : Model K V :=
  { m with value := T.braced m.kind m.value }

/-- Types for which all this makes no difference. -/
def Types.plain {K V R : Type*} (T : Types K V R) : Overloads K V R where
  toTypes := T
  braced := T.moved
  drawMutable k x := (T.draw k x, x)

/-- What a program does with Shapes, which it makes from rvalues. -/
inductive Action (Var K V : Type*) where
  | call (o : Call Var K V)
  | draw (v : Var)

/-- The Shapes, and what was drawn of them. -/
structure Canvas (S R : Type*) where
  shapes : S
  drawn : List R

variable {Var K V R B : Type*} [DecidableEq Var]

namespace Te

/-- To make a Shape throws, and then nothing has happened to any Shape. -/
def throwing (σ : State Var K V) : Source Var K V → Outcome (State Var K V)
  | .fresh _ _ => .ok σ
  | .copy w | .move w => model σ (.var w) fun _ => .ok σ

/-- An operation of `te.hpp` which may throw. -/
def call (T : Types K V R) (o : Call Var K V) (σ : State Var K V) : Outcome (State Var K V) :=
  match o.failure, o.op with
  | .none, op => step T op σ
  | _, .construct v src =>
      match σ (.var v) with
      | none => throwing σ src
      | some _ => .wait
  | _, .assign v src => model σ (.var v) fun _ => throwing σ src
  | _, op => step T op σ

/-- A program with the Shapes of `te.hpp`. -/
def act (T : Overloads K V R) :
    Action Var K V → Canvas (State Var K V) R → Outcome (Canvas (State Var K V) R)
  | .call o, c => (call T.toTypes (o.map T.bracedTo) c.shapes).map fun σ => { c with shapes := σ }
  | .draw v, c => (draw T.toTypes c.shapes v).map fun r => { c with drawn := c.drawn ++ [r] }

end Te

/-- The members of the Shapes, and the models on the heap. -/
structure Md (Var K V : Type*) where
  bytes : Slot Var → Option ℕ
  draw : Slot Var → Option K
  clone : Slot Var → Option K
  move : Slot Var → Option K
  del : Slot Var → Option K
  heap : ℕ → Option (Model K V)
  allocs : ℕ
  created : List ℕ
  deleted : List ℕ

namespace Md

def empty : Md Var K V :=
  ⟨fun _ => none, fun _ => none, fun _ => none, fun _ => none, fun _ => none, fun _ => none, 0, [],
    []⟩

/-- Call one of the functions of a Shape on its `bytes_`. -/
def apply [DecidableEq K] (s : Md Var K V) (f : Slot Var → Option K) (v : Slot Var)
    (body : K → ℕ → Model K V → Outcome B) : Outcome B :=
  match s.bytes v with
  | none => .wait
  | some h =>
      match f v, s.heap h with
      | some k, some m => if m.kind = k then body k h m else .fault
      | _, _ => .fault

/-- `new Model(...)`, which answers no pointer if it throws. -/
def new (s : Md Var K V) (m : Model K V) : Failure → Md Var K V × Option ℕ
  | .none => ({ s with
      heap := Function.update s.heap s.allocs (some m)
      allocs := s.allocs + 1
      created := s.created ++ [s.allocs] }, some s.allocs)
  | .allocation => (s, none)
  | .model => ({ s with allocs := s.allocs + 1 }, none)

/-- Initialize the five members. -/
def init (s : Md Var K V) (v : Slot Var) (bytes : Option ℕ) (draw clone move del : Option K) :
    Md Var K V :=
  { s with
    bytes := Function.update s.bytes v bytes
    draw := Function.update s.draw v draw
    clone := Function.update s.clone v clone
    move := Function.update s.move v move
    del := Function.update s.del v del }

/-- The members of a new Shape: its model, and the functions of another Shape. -/
def initFrom (s : Md Var K V) (v w : Slot Var) (h : ℕ) : Md Var K V :=
  s.init v (some h) (s.draw w) (s.clone w) (s.move w) (s.del w)

variable [DecidableEq K]

/-- The constructors, and whether they have come to their end. -/
def construct (T : Types K V R) (e : Failure) (s : Md Var K V) (v : Slot Var) :
    Source Var K V → Outcome (Md Var K V × Bool)
  | .fresh k x =>
      match s.new ⟨k, x⟩ e with
      | (s, some h) => .ok (s.init v (some h) (some k) (some k) (some k) (some k), true)
      | (s, none) => .ok (s, false)
  | .copy w => s.apply s.clone (.var w) fun k _ m =>
      match s.new ⟨k, T.copy k m.value⟩ e with
      | (s, some h) => .ok (s.initFrom v (.var w) h, true)
      | (s, none) => .ok (s, false)
  | .move w => s.apply s.move (.var w) fun k i m =>
      match s.new ⟨k, T.moved k m.value⟩ e with
      | (s, some h) =>
          let s := { s with
            heap := Function.update s.heap i (some ⟨k, T.movedFrom k m.value⟩) }
          .ok (s.initFrom v (.var w) h, true)
      | (s, none) => .ok (s, false)

def swap (s : Md Var K V) (v w : Slot Var) : Md Var K V :=
  { s with
    bytes := exchange s.bytes v w
    draw := exchange s.draw v w
    clone := exchange s.clone v w
    move := exchange s.move v w
    del := exchange s.del v w }

def destroy (s : Md Var K V) (v : Slot Var) : Outcome (Md Var K V) :=
  s.apply s.del v fun _ h _ =>
    let s := { s with heap := Function.update s.heap h none, deleted := s.deleted ++ [h] }
    .ok (s.init v none none none none none)

def step (T : Types K V R) (o : Call Var K V) (s : Md Var K V) : Outcome (Md Var K V) :=
  match o.op with
  | .construct v src =>
      match s.bytes (.var v) with
      | none => (construct T o.failure s (.var v) src).map Prod.fst
      | some _ => .wait
  | .assign v src =>
      match s.bytes (.var v) with
      | none => .wait
      | some _ => (construct T o.failure s .other src).bind fun (s, done) =>
          if done then destroy (s.swap (.var v) .other) .other else .ok s
  | .swap v w =>
      match s.bytes (.var v), s.bytes (.var w) with
      | some _, some _ => .ok (s.swap (.var v) (.var w))
      | _, _ => .wait
  | .destroy v => s.destroy (.var v)

/-- `draw()`, which calls `drawer_` and gives it `shape_`. -/
def drawCall (T : Overloads K V R) (s : Md Var K V) (v : Var) : Outcome (Md Var K V × R) :=
  s.apply s.draw (.var v) fun k h m =>
    let (r, x) := T.drawMutable k m.value
    .ok ({ s with heap := Function.update s.heap h (some ⟨k, x⟩) }, r)

/-- The result of `draw()`, where no type has another overload. -/
def drawn (T : Types K V R) (s : Md Var K V) (v : Var) : Outcome R :=
  (s.drawCall T.plain v).map Prod.snd

/-- A program with these Shapes. -/
def act (T : Overloads K V R) :
    Action Var K V → Canvas (Md Var K V) R → Outcome (Canvas (Md Var K V) R)
  | .call o, c => (step T.toTypes (o.map T.movedTo) c.shapes).map fun s => { c with shapes := s }
  | .draw v, c => (c.shapes.drawCall T v).map fun p => ⟨p.1, c.drawn ++ [p.2]⟩

end Md
end CsNotes.TypeErasure
