import CsNotes.Lib.History
import CsNotes.Lib.Storage

/-!
# Two lock-free stacks that do not reclaim by themselves

`lockfree_stack_memory_leak.cpp` never deletes a node, so that an address is a
node for ever. In `lockfree_stack_ref_count1.cpp` every pointer to a node is a
shared pointer: the node is deleted with the last of them, its address may be
handed out again at once, and a comparison of pointers sees addresses only.

One step per atomic operation, per access to a node, and per change of a use
count by itself. A test of `old_head` belongs to the step that read it. A node is
allocated at any address that is free, and then `head` is loaded into its `next`.
The shared pointers which an operation drops are released one after the other,
and a node which is deleted drops its `next` in turn.

`history` and `returned` are observations: the successful exchanges and the reads
of an empty `head` in their order, and what each thread's pops have returned.
-/
namespace CsNotes.LockfreeStack
open Interleaving Storage History

inductive Call (A : Type*) where
  | push (v : A)
  | pop
deriving DecidableEq, Repr

/-- The free choices of one step: the next call of an idle thread, the address
the allocator answers, and whether a weak exchange fails spuriously. -/
structure Oracle (Addr A : Type*) where
  call : Call A
  addr : Addr
  spurious : Bool := false

namespace MemoryLeak

structure Node (Addr A : Type*) where
  data : A
  next : Option Addr
deriving DecidableEq, Repr

/-- Where a thread is. `p` is its `new_node`, and `old` its `old_head`. -/
inductive PC (Addr A : Type*) where
  | idle
  | newNode (v : A)
  | loadNext (v : A) (p : Addr)
  | pushCas (v : A) (p : Addr)
  | loadHead
  | readNext (old : Addr)
  | popCas (old : Addr) (next : Option Addr)
  | takeData (old : Addr)
deriving DecidableEq, Repr

structure Shared (Tid Addr A : Type*) where
  head : Option Addr
  mem : Addr → Option (Node Addr A)
  history : List (Event Tid A)
  returned : Tid → List (Option A)

variable {Tid Addr A : Type*} [DecidableEq Tid] [DecidableEq Addr]

namespace Shared

/-- A pop of `t` returns `r`. -/
def answer (s : Shared Tid Addr A) (t : Tid) (r : Option A) : Shared Tid Addr A :=
  { s with returned := Function.update s.returned t (s.returned t ++ [r]) }

/-- Continue with the node at `a`. -/
def access (s : Shared Tid Addr A) (a : Addr)
    (k : Node Addr A → Outcome (Shared Tid Addr A × PC Addr A)) :
    Outcome (Shared Tid Addr A × PC Addr A) :=
  match s.mem a with
  | none => .fault
  | some n => k n

def write (s : Shared Tid Addr A) (a : Addr) (n : Node Addr A) : Shared Tid Addr A :=
  { s with mem := Function.update s.mem a (some n) }

omit [DecidableEq Tid] [DecidableEq Addr] in
theorem access_of {s : Shared Tid Addr A} {a : Addr} {n : Node Addr A}
    {k : Node Addr A → Outcome (Shared Tid Addr A × PC Addr A)} (hn : s.mem a = some n) :
    s.access a k = k n := by
  unfold access
  rw [hn]

omit [DecidableEq Tid] in
@[simp] theorem write_self {s : Shared Tid Addr A} {a : Addr} {n : Node Addr A} :
    (s.write a n).mem a = some n := Function.update_self a _ _

omit [DecidableEq Tid] in
@[simp] theorem write_write {s : Shared Tid Addr A} {a : Addr} {n n' : Node Addr A} :
    (s.write a n).write a n' = s.write a n' :=
  congrArg (fun m => { s with mem := m }) (Function.update_idem ..)

omit [DecidableEq Tid] in
theorem write_of_ne {s : Shared Tid Addr A} {a b : Addr} {n : Node Addr A} (hb : b ≠ a) :
    (s.write a n).mem b = s.mem b := Function.update_of_ne hb _ _

/-- The loop of pop ends with a null pointer, or goes on with what `head` was. -/
def test (s : Shared Tid Addr A) (t : Tid) : Shared Tid Addr A × PC Addr A :=
  match s.head with
  | none => ({ s.answer t none with history := s.history ++ [.empty t] }, .idle)
  | some p => (s, .readNext p)

end Shared

/-- `movedFrom` is what the move constructor of the element leaves behind. -/
def exec (movedFrom : A → A) : Code Tid (Oracle Addr A) (Shared Tid Addr A) (PC Addr A) :=
  fun t o s pc => match pc with
  | .idle =>
      match o.call with
      | .push v => .ok (s, .newNode v)
      | .pop => .ok (s, .loadHead)
  | .newNode v =>
      if s.mem o.addr = none then .ok (s.write o.addr ⟨v, none⟩, .loadNext v o.addr) else .wait
  | .loadNext v p => s.access p fun n => .ok (s.write p { n with next := s.head }, .pushCas v p)
  | .pushCas v p => s.access p fun n =>
      if s.head = n.next ∧ o.spurious = false then
        .ok ({ s with head := some p, history := s.history ++ [.push t v] }, .idle)
      else .ok (s.write p { n with next := s.head }, .pushCas v p)
  | .loadHead => .ok (s.test t)
  | .readNext old => s.access old fun n => .ok (s, .popCas old n.next)
  | .popCas old next =>
      if s.head = some old ∧ o.spurious = false then
        .ok ({ s with
          head := next
          history := s.history ++ ((s.mem old).map fun n => Event.pop t n.data).toList },
          .takeData old)
      else .ok (s.test t)
  | .takeData old => s.access old fun n =>
      .ok ((s.write old { n with data := movedFrom n.data }).answer t (some n.data), .idle)

def start : Config Tid (Shared Tid Addr A) (PC Addr A) :=
  ⟨⟨none, fun _ => none, [], fun _ => []⟩, fun _ => .idle⟩

end MemoryLeak

namespace SharedPtr

/-- A node, and the use count in its control block. -/
structure Node (Addr A : Type*) where
  data : A
  next : Option (Ptr Addr)
  useCount : ℕ := 1
deriving DecidableEq, Repr

/-- Where a thread is, and which shared pointers it has: `p` is its `new_node`,
which is copied for the exchange, and `old` its `old_head`, with a copy of its
`next` for the exchange. In `release` the pointers `p` and `ps` are released, and then
the thread goes on at `k`. -/
inductive PC (Addr A : Type*) where
  | idle
  | newNode (v : A)
  | loadNext (v : A) (p : Ptr Addr)
  | copyNew (v : A) (p : Ptr Addr)
  | pushCas (v : A) (p : Ptr Addr)
  | loadHead
  | readNext (old : Ptr Addr)
  | popCas (old : Ptr Addr) (next : Option (Ptr Addr))
  | takeData (old : Ptr Addr)
  | release (p : Ptr Addr) (ps : List (Ptr Addr)) (k : PC Addr A)
deriving Repr

structure Shared (Tid Addr A : Type*) where
  head : Option (Ptr Addr)
  mem : Memory Addr (Node Addr A)
  history : List (Event Tid A)
  returned : Tid → List (Option A)

variable {Tid Addr A : Type*} [DecidableEq Tid] [DecidableEq Addr]

def PC.after : List (Ptr Addr) → PC Addr A → PC Addr A
  | [], k => k
  | p :: ps, k => .release p ps k

namespace Shared

/-- A pop of `t` returns `r`. -/
def answer (s : Shared Tid Addr A) (t : Tid) (r : Option A) : Shared Tid Addr A :=
  { s with returned := Function.update s.returned t (s.returned t ++ [r]) }

def write (s : Shared Tid Addr A) (p : Ptr Addr) (n : Node Addr A) : Shared Tid Addr A :=
  { s with mem := s.mem.write p n }

def copy (s : Shared Tid Addr A) (x : Option (Ptr Addr))
    (k : Shared Tid Addr A → Outcome (Shared Tid Addr A × PC Addr A)) :
    Outcome (Shared Tid Addr A × PC Addr A) :=
  match x with
  | none => k s
  | some p => s.mem.access p fun n => k (s.write p { n with useCount := n.useCount + 1 })

/-- Load `head` into the `next` of the new node, and release what was there, and the
shared pointers `ps`. -/
def relink (s : Shared Tid Addr A) (v : A) (p : Ptr Addr) (ps : List (Ptr Addr)) :
    Outcome (Shared Tid Addr A × PC Addr A) :=
  s.copy s.head fun s => s.mem.access p fun n =>
    .ok (s.write p { n with next := s.head }, .after (n.next.toList ++ ps) (.copyNew v p))

/-- The loop of pop ends with a null pointer, or goes on with what `head` was,
after the shared pointers `ps` are released. -/
def test (s : Shared Tid Addr A) (t : Tid) (ps : List (Ptr Addr)) :
    Shared Tid Addr A × PC Addr A :=
  match s.head with
  | none => ({ s.answer t none with history := s.history ++ [.empty t] }, .after ps .idle)
  | some p => (s, .after ps (.readNext p))

end Shared

/-- Pointers are compared by address. -/
def Same (x y : Option (Ptr Addr)) : Prop := x.map Ptr.addr = y.map Ptr.addr

instance (x y : Option (Ptr Addr)) : Decidable (Same x y) :=
  inferInstanceAs (Decidable (x.map Ptr.addr = y.map Ptr.addr))

/-- `movedFrom` is what the move constructor of the element leaves behind. -/
def exec (movedFrom : A → A) : Code Tid (Oracle Addr A) (Shared Tid Addr A) (PC Addr A) :=
  fun t o s pc => match pc with
  | .idle =>
      match o.call with
      | .push v => .ok (s, .newNode v)
      | .pop => .ok (s, .loadHead)
  | .newNode v =>
      if s.mem.cell o.addr = none then
        .ok ({ s with mem := s.mem.alloc o.addr { data := v, next := none } },
          .loadNext v (s.mem.fresh o.addr))
      else .wait
  | .loadNext v p => s.relink v p []
  | .copyNew v p => s.copy (some p) fun s => .ok (s, .pushCas v p)
  | .pushCas v p => s.mem.access p fun n =>
      if Same s.head n.next ∧ o.spurious = false then
        .ok ({ s with head := some p, history := s.history ++ [.push t v] },
          .after (s.head.toList ++ [p]) .idle)
      else s.relink v p [p]
  | .loadHead => s.copy s.head fun s => .ok (s.test t [])
  | .readNext old => s.mem.access old fun n => s.copy n.next fun s => .ok (s, .popCas old n.next)
  | .popCas old next =>
      if Same s.head (some old) ∧ o.spurious = false then
        .ok ({ s with
          head := next
          history := s.history ++ ((s.mem.read old).map fun n => Event.pop t n.data).toList },
          .after s.head.toList (.takeData old))
      else s.copy s.head fun s => .ok (s.test t (old :: next.toList))
  | .takeData old => s.mem.access old fun n =>
      .ok ((s.write old { n with data := movedFrom n.data }).answer t (some n.data),
        .after [old] .idle)
  | .release p ps k => s.mem.access p fun n =>
      if n.useCount = 1 then
        .ok ({ s with mem := s.mem.free p }, .after (n.next.toList ++ ps) k)
      else .ok (s.write p { n with useCount := n.useCount - 1 }, .after ps k)

def start : Config Tid (Shared Tid Addr A) (PC Addr A) :=
  ⟨⟨none, Memory.empty, [], fun _ => []⟩, fun _ => .idle⟩

end SharedPtr
end CsNotes.LockfreeStack
