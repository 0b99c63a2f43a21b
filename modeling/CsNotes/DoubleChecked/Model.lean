import CsNotes.Lib.OrderedRuns

/-!
# Double-checked locking

`Widget::instance` of `memory-model.md`. The first check is made without the mutex,
and a thread which passes it has nothing but its load to learn of the `Widget` by. The
second check is made with the mutex held, which tells the thread of all that was done
under it.
-/
namespace CsNotes.DoubleChecked
open Interleaving Races ReleaseAcquire

/-- The orders of the operations on `ptrInstance`, by their numbers in the source. -/
structure Orders where
  first : MemoryOrder
  second : MemoryOrder
  third : MemoryOrder
deriving DecidableEq, Repr

def Orders.asWritten : Orders := ⟨.acquire, .relaxed, .release⟩

/-- Where a thread is. `p` is its `ptr`, which it uses when it has got it. -/
inductive PC (Addr : Type*) where
  | idle
  | firstLoad
  | lock
  | secondLoad
  | newWidget
  | storeInstance (p : Addr)
  | unlock (p : Addr)
  | use (p : Addr)
deriving DecidableEq, Repr

/-- `widgets` are the objects of type `Widget` that were made. `returned` is an observation. -/
structure Shared (Tid Addr : Type*) where
  ptrInstance : Option Addr
  mutW : Option Tid
  widgets : List Addr
  returned : Tid → List Addr

variable {Tid Addr : Type*} [DecidableEq Tid] [DecidableEq Addr]

/-- A call of `t` returns `p`. -/
def Shared.answer (s : Shared Tid Addr) (t : Tid) (p : Addr) : Shared Tid Addr :=
  { s with returned := Function.update s.returned t (s.returned t ++ [p]) }

/-- The free choice of a step is the address that the allocator answers. -/
def exec : Code Tid Addr (Shared Tid Addr) (PC Addr) :=
  fun t o s pc => match pc with
  | .idle => .ok (s, .firstLoad)
  | .firstLoad =>
      match s.ptrInstance with
      | none => .ok (s, .lock)
      | some p => .ok (s.answer t p, .use p)
  | .lock => if s.mutW = none then .ok ({ s with mutW := some t }, .secondLoad) else .wait
  | .secondLoad =>
      match s.ptrInstance with
      | none => .ok (s, .newWidget)
      | some p => .ok (s, .unlock p)
  | .newWidget =>
      if o ∈ s.widgets then .wait
      else .ok ({ s with widgets := s.widgets ++ [o] }, .storeInstance o)
  | .storeInstance p => .ok ({ s with ptrInstance := some p }, .unlock p)
  | .unlock p => .ok ({ s.answer t p with mutW := none }, .use p)
  | .use _ => .ok (s, .idle)

namespace PC

def pointer : PC Addr → Option Addr
  | storeInstance p | unlock p | use p => some p
  | idle | firstLoad | lock | secondLoad | newWidget => none

def HoldsMutex : PC Addr → Prop
  | secondLoad | newWidget | storeInstance _ | unlock _ => True
  | idle | firstLoad | lock | use _ => False

end PC

/-- The constructor writes the `Widget`, and who has a pointer to it reads it. -/
def accesses (o : Addr) (s : Shared Tid Addr) : PC Addr → List (Access Addr)
  | .newWidget => if o ∈ s.widgets then [] else [.writes o]
  | .use p => [.reads p]
  | _ => []

def effect (orders : Orders) : PC Addr → Effect Unit
  | .firstLoad => .load orders.first
  | .lock => .update () .acquire
  | .secondLoad => .load orders.second
  | .storeInstance _ => .store orders.third
  | .unlock _ => .update () .release
  | _ => .plain

def program (Tid Addr : Type*) [DecidableEq Tid] [DecidableEq Addr] (orders : Orders) :
    Program Tid Addr (Shared Tid Addr) (PC Addr) (Option Addr) Addr Unit where
  code := exec
  value := Shared.ptrInstance
  withValue s v := { s with ptrInstance := v }
  accesses := accesses
  effect := effect orders
  succeeds _ _ _ := false

abbrev State (Tid Addr : Type*) :=
  Shared Tid Addr × Causality Tid (Option Addr) Addr Unit

abbrev Run (Tid Addr : Type*) := Config Tid (State Tid Addr) (PC Addr)

def start : Run Tid Addr := ⟨(⟨none, none, [], fun _ => []⟩, .start), fun _ => .idle⟩

end CsNotes.DoubleChecked
