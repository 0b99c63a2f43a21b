import CsNotes.Lib.History
import CsNotes.Lib.Interleaving

/-!
# The lock-free queue with helping

`mpmc_queue_ref_count.cpp`, one step per atomic operation and per allocation,
any of which may throw. Nodes are owned by shared pointers, so nothing can be
seen of them after they are freed and none comes back while somebody compares
against it: a node is a position in the list of all nodes ever made. So is an
element, of which the queue only handles the pointer; each element carries what
became of it, and handing out or deleting one which is not owned any more is a
fault.

`history` and `returned` are observations which no branch reads: the elements in
the order in which `tail` moved past their nodes and in which `head` did,
together with the loads of `tail` that ended a pop, and what each thread's pops
have returned. An element is recorded as pushed by the thread that moved `tail`,
which may be a helper.
-/
namespace CsNotes.LockfreeQueue
open Interleaving History

structure Node where
  data : Option ℕ := none
  next : Option ℕ := none
deriving DecidableEq, Repr

inductive Fate (Tid : Type*) where
  | owned
  | handed (t : Tid)
  | deleted
deriving DecidableEq, Repr

structure Element (Tid A : Type*) where
  value : A
  fate : Fate Tid := .owned
deriving DecidableEq, Repr

inductive Call (A : Type*) where
  | push (v : A)
  | pop
deriving DecidableEq, Repr

/-- The free choices of one step: the next call of an idle thread, and whether
an allocation throws. -/
structure Oracle (A : Type*) where
  call : Call A
  throws : Bool := false

/-- Where a thread is. `x` is the element of a push, `q` its `new_tail`, `i` its
`old_tail` or the `old_head` of a pop, and `n` what `tail` will be set to. -/
inductive PC (A : Type*) where
  | idle
  | makeData (v : A)
  | makeTail (x : ℕ)
  | loadTail (x q : ℕ)
  | casData (x q i : ℕ)
  | casNext (x q i : ℕ)
  | casTail (x i n : ℕ)
  | helpNext (x q i : ℕ)
  | makeDummy (x i n : ℕ)
  | helpTail (x q i n : ℕ)
  | loadHead
  | pollTail (i : Option ℕ)
  | loadNext (i : Option ℕ)
  | casHead (i : ℕ) (next : Option ℕ)
  | takeData (i : ℕ)
  | ret (r : Option ℕ)
deriving DecidableEq, Repr

structure Shared (Tid A : Type*) where
  head : Option ℕ
  tail : ℕ
  nodes : List Node
  elements : List (Element Tid A)
  history : List (Event Tid ℕ)
  returned : Tid → List (Option ℕ)

namespace Shared
variable {Tid A B : Type*}

/-- Continue with the node; there must be one to dereference. -/
def node (s : Shared Tid A) (i : ℕ) (f : Node → Outcome B) : Outcome B :=
  match s.nodes[i]? with
  | none => .fault
  | some n => f n

def setNode (s : Shared Tid A) (i : ℕ) (n : Node) : Shared Tid A :=
  { s with nodes := s.nodes.set i n }

/-- An owned element is handed out or deleted. -/
def dispose (s : Shared Tid A) (x : ℕ) (f : Fate Tid) : Outcome (Shared Tid A) :=
  match s.elements[x]? with
  | some ⟨v, .owned⟩ => .ok { s with elements := s.elements.set x ⟨v, f⟩ }
  | _ => .fault

def moveTail (s : Shared Tid A) (t : Tid) (i n : ℕ) : Shared Tid A :=
  { s with
    tail := n
    history := s.history ++ (((s.nodes[i]?).bind Node.data).map (Event.push t)).toList }

def moveHead (s : Shared Tid A) (t : Tid) (i : ℕ) (n : Option ℕ) : Shared Tid A :=
  { s with
    head := n
    history := s.history ++ (((s.nodes[i]?).bind Node.data).map (Event.pop t)).toList }

end Shared

variable {Tid A : Type*} [DecidableEq Tid]

def exec : Code Tid (Oracle A) (Shared Tid A) (PC A) :=
  fun t o s pc => match pc with
  | .idle =>
      match o.call with
      | .push v => .ok (s, .makeData v)
      | .pop => .ok (s, .loadHead)
  | .makeData v =>
      if o.throws then .ok (s, .idle)
      else .ok ({ s with elements := s.elements ++ [{ value := v }] }, .makeTail s.elements.length)
  | .makeTail x =>
      if o.throws then (s.dispose x .deleted).map fun s => (s, .idle)
      else .ok ({ s with nodes := s.nodes ++ [{}] }, .loadTail x s.nodes.length)
  | .loadTail x q => .ok (s, .casData x q s.tail)
  | .casData x q i => s.node i fun n =>
      if n.data = none then .ok (s.setNode i { n with data := some x }, .casNext x q i)
      else .ok (s, .helpNext x q i)
  | .casNext x q i => s.node i fun n =>
      match n.next with
      | none => .ok (s.setNode i { n with next := some q }, .casTail x i q)
      | some q => .ok (s, .casTail x i q)
  | .casTail _ i n => .ok (if s.tail = i then s.moveTail t i n else s, .idle)
  | .helpNext x q i => s.node i fun n =>
      match n.next with
      | none => .ok (s.setNode i { n with next := some q }, .makeDummy x i q)
      | some n => .ok (s, .helpTail x q i n)
  | .makeDummy x i n =>
      if o.throws then (s.dispose x .deleted).map fun s => (s, .idle)
      else .ok ({ s with nodes := s.nodes ++ [{}] }, .helpTail x s.nodes.length i n)
  | .helpTail x q i n => .ok (if s.tail = i then s.moveTail t i n else s, .loadTail x q)
  | .loadHead => .ok (s, .pollTail s.head)
  | .pollTail i =>
      if i = some s.tail then .ok ({ s with history := s.history ++ [.empty t] }, .ret none)
      else .ok (s, .loadNext i)
  | .loadNext i =>
      match i with
      | none => .fault
      | some i => s.node i fun n => .ok (s, .casHead i n.next)
  | .casHead i next =>
      if s.head = some i then .ok (s.moveHead t i next, .takeData i)
      else .ok (s, .pollTail s.head)
  | .takeData i => s.node i fun n => .ok (s, .ret n.data)
  | .ret r =>
      let answer (s : Shared Tid A) : Shared Tid A × PC A :=
        ({ s with returned := Function.update s.returned t (s.returned t ++ [r]) }, .idle)
      match r with
      | none => .ok (answer s)
      | some x => (s.dispose x (.handed t)).map answer

def start : Config Tid (Shared Tid A) (PC A) :=
  ⟨⟨some 0, 0, [{}], [], [], fun _ => []⟩, fun _ => .idle⟩

/-- A pop that runs alone up to its return; `fuel` bounds the number of steps. -/
def popAlone (t : Tid) (o : Oracle A) : ℕ → Shared Tid A → PC A →
    Outcome (Shared Tid A × Option ℕ)
  | _, s, .ret r => .ok (s, r)
  | 0, _, _ => .wait
  | fuel + 1, s, pc => (exec t o s pc).bind fun r => popAlone t o fuel r.1 r.2

/-- The destructor pops until it gets null, and deletes what it gets; `fuel`
bounds the number of pops and of steps of each. -/
def destroy (t : Tid) (o : Oracle A) : ℕ → Shared Tid A → Outcome (Shared Tid A)
  | 0, _ => .wait
  | fuel + 1, s => (popAlone t o (fuel + 1) s .loadHead).bind fun r =>
      match r.2 with
      | none => .ok r.1
      | some x => (r.1.dispose x .deleted).bind (destroy t o fuel)

end CsNotes.LockfreeQueue
