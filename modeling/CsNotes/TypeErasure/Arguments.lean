import CsNotes.TypeErasure.ManualDispatch

/-!
# What a Shape keeps of the arguments it is made from

The constructor of `te.hpp` and `te_md.hpp` takes forwarding references, and uses
what is deduced for them as the types of the members of the model: `X` for an
rvalue and `X&` for an lvalue of type `X`. A member of the second kind is bound to
the caller's object. The caller can change its objects, and end their lifetimes.

Shapes and strategies are objects with values of one kind `X`, which know their
types. To read an object after the end of its lifetime is a fault.
-/
namespace CsNotes.TypeErasure
open Interleaving

/-- What is done with the objects that Shapes are made from. -/
structure Values (X R : Type*) where
  copy : X → X
  moved : X → X
  movedFrom : X → X
  /-- `drawer(shape)`, on const objects -/
  draw : X → X → R

/-- An object by its name, an object given up by `std::move`, or a temporary. -/
inductive Argument (Obj X : Type*) where
  | lvalue (a : Obj)
  | xvalue (a : Obj)
  | prvalue (x : X)
deriving DecidableEq, Repr

/-- What `ShapeT` or `DrawStrategy` is: `X` or `X&`. -/
inductive Deduced where
  | object
  | reference
deriving DecidableEq, Repr

/-- A member of a model, of a deduced type. -/
inductive Member (Obj X : Type*) where
  | value (x : X)
  | reference (a : Obj)
deriving DecidableEq, Repr

variable {Var Obj K V X R S : Type*}

/-- Template argument deduction for a parameter `ShapeT&&`. -/
def Argument.deduce : Argument Obj X → Deduced
  | lvalue _ => .reference
  | xvalue _ | prvalue _ => .object

/-- The objects of the caller which are alive. -/
abbrev Objects (Obj X : Type*) := Obj → Option X

/-- What a parameter `ShapeT&&` is bound to. -/
inductive Referent (Obj X : Type*) where
  | object (a : Obj)
  | temporary (x : X)
deriving DecidableEq, Repr

def Argument.referent : Argument Obj X → Referent Obj X
  | lvalue a | xvalue a => .object a
  | prvalue x => .temporary x

variable [DecidableEq Obj]

/-- `shape_(std::forward<ShapeT>(shape))`: a member of type `X&` is bound to the
object, and one of type `X` is made by moving from it. -/
def Referent.init (W : Values X R) (s : Objects Obj X) (type : Deduced) :
    Referent Obj X → Outcome (Member Obj X × Objects Obj X)
  | object a =>
      match s a, type with
      | none, _ => .wait
      | some _, .reference => .ok (.reference a, s)
      | some x, .object =>
          .ok (.value (W.moved x), Function.update s a (some (W.movedFrom x)))
  | temporary x =>
      match type with
      | .reference => .fault
      | .object => .ok (.value (W.moved x), s)

def Argument.initMember (W : Values X R) (s : Objects Obj X) (arg : Argument Obj X) :
    Outcome (Member Obj X × Objects Obj X) :=
  arg.referent.init W s arg.deduce

namespace Member

/-- A reference is copied and moved as a reference. -/
def map (f : X → X) : Member Obj X → Member Obj X
  | value x => value (f x)
  | reference a => reference a

def read (s : Objects Obj X) : Member Obj X → Outcome X
  | value x => .ok x
  | reference a =>
      match s a with
      | none => .fault
      | some x => .ok x

end Member

/-- The models, by the deduced types: `shape_` and `drawer_`. A draw looks at the
objects of the caller. The sizes of models do not matter here. -/
def Values.types (W : Values X R) (Obj : Type*) :
    Types (Deduced × Deduced) (Member Obj X × Member Obj X) (Objects Obj X → Outcome R) where
  size _ := 0
  copy _ m := (m.1.map W.copy, m.2.map W.copy)
  moved _ m := (m.1.map W.moved, m.2.map W.moved)
  movedFrom _ m := (m.1.map W.movedFrom, m.2.map W.movedFrom)
  draw _ m s := (m.2.read s).bind fun drawer => (m.1.read s).bind fun shape =>
    .ok (W.draw drawer shape)

/-- What a Shape is made from, seen by the caller. -/
inductive Origin (Var Obj X : Type*) where
  | arguments (shape drawer : Argument Obj X)
  | copy (w : Var)
  | move (w : Var)
deriving DecidableEq, Repr

/-- What a program does with its objects and with Shapes. -/
inductive Act (Var Obj X : Type*) where
  | declare (a : Obj) (x : X)
  | mutate (a : Obj) (x : X)
  | release (a : Obj)
  | construct (v : Var) (o : Origin Var Obj X)
  | assign (v : Var) (o : Origin Var Obj X)
  | swap (v w : Var)
  | destroy (v : Var)
deriving DecidableEq, Repr

structure World (S Obj X : Type*) where
  shapes : S
  objects : Objects Obj X

/-- How a model is made from two arguments. -/
abbrev Maker (K V Obj X : Type*) :=
  Argument Obj X → Argument Obj X → Objects Obj X → Outcome (K × V × Objects Obj X)

/-- `OwningModel<ShapeT, DrawStrategy>` -/
def Values.owningModel (W : Values X R) :
    Maker (Deduced × Deduced) (Member Obj X × Member Obj X) Obj X :=
  fun shape drawer s => (shape.initMember W s).bind fun (m, s) =>
    (drawer.initMember W s).bind fun (n, s) => .ok ((shape.deduce, drawer.deduce), (m, n), s)

def Origin.source (make : Maker K V Obj X) (s : Objects Obj X) :
    Origin Var Obj X → Outcome (Source Var K V × Objects Obj X)
  | arguments shape drawer =>
      (make shape drawer s).map fun (k, x, s) => (.fresh k x, s)
  | copy w => .ok (.copy w, s)
  | move w => .ok (.move w, s)

/-- One step of a program, with Shapes of some implementation. -/
def World.step (make : Maker K V Obj X) (perform : Op Var K V → S → Outcome S) :
    Act Var Obj X → World S Obj X → Outcome (World S Obj X)
  | .declare a x, w =>
      match w.objects a with
      | none => .ok { w with objects := Function.update w.objects a (some x) }
      | some _ => .wait
  | .mutate a x, w =>
      match w.objects a with
      | none => .wait
      | some _ => .ok { w with objects := Function.update w.objects a (some x) }
  | .release a, w =>
      match w.objects a with
      | none => .wait
      | some _ => .ok { w with objects := Function.update w.objects a none }
  | .construct v o, w => (o.source make w.objects).bind fun (src, s) =>
      (perform (.construct v src) w.shapes).map fun σ => ⟨σ, s⟩
  | .assign v o, w => (o.source make w.objects).bind fun (src, s) =>
      (perform (.assign v src) w.shapes).map fun σ => ⟨σ, s⟩
  | .swap u v, w => (perform (.swap u v) w.shapes).map fun σ => { w with shapes := σ }
  | .destroy v, w => (perform (.destroy v) w.shapes).map fun σ => { w with shapes := σ }

/-- The value of an argument when the Shape is made. -/
def Argument.capture (W : Values X R) (s : Objects Obj X) :
    Argument Obj X → Outcome (X × Objects Obj X)
  | lvalue a =>
      match s a with
      | none => .wait
      | some x => .ok (W.copy x, s)
  | xvalue a =>
      match s a with
      | none => .wait
      | some x => .ok (W.moved x, Function.update s a (some (W.movedFrom x)))
  | prvalue x => .ok (W.moved x, s)

def Values.captured (W : Values X R) : Maker Unit (X × X) Obj X :=
  fun shape drawer s => (shape.capture W s).bind fun (x, s) =>
    (drawer.capture W s).bind fun (y, s) => .ok ((), (x, y), s)

/-- A Shape which has a shape and a strategy, whatever its caller has. -/
def Values.pairs (W : Values X R) : Types Unit (X × X) R where
  size _ := 0
  copy _ p := (W.copy p.1, W.copy p.2)
  moved _ p := (W.moved p.1, W.moved p.2)
  movedFrom _ p := (W.movedFrom p.1, W.movedFrom p.2)
  draw _ p := W.draw p.2 p.1

abbrev TeWorld (Var Obj X : Type*) :=
  World (Te.State Var (Deduced × Deduced) (Member Obj X × Member Obj X)) Obj X

abbrev MdWorld (Var Obj X : Type*) :=
  World (Md Var (Deduced × Deduced) (Member Obj X × Member Obj X)) Obj X

abbrev ValueWorld (Var Obj X : Type*) := World (Te.State Var Unit (X × X)) Obj X

variable [DecidableEq Var]

/-- A program with the Shapes of `te.hpp`. -/
def TeWorld.step (W : Values X R) :
    Act Var Obj X → TeWorld Var Obj X → Outcome (TeWorld Var Obj X) :=
  World.step W.owningModel (Te.step (W.types Obj))

/-- A program with the Shapes of `te_md.hpp`. -/
def MdWorld.step (W : Values X R) :
    Act Var Obj X → MdWorld Var Obj X → Outcome (MdWorld Var Obj X) :=
  World.step W.owningModel fun op => Md.step (W.types Obj) ⟨op, .none⟩

/-- A program with Shapes which are values. -/
def ValueWorld.step (W : Values X R) :
    Act Var Obj X → ValueWorld Var Obj X → Outcome (ValueWorld Var Obj X) :=
  World.step W.captured (Te.step W.pairs)

end CsNotes.TypeErasure
