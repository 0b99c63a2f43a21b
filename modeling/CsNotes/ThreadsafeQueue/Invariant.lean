import Mathlib.Tactic.Linarith
import CsNotes.Lib.Segment
import CsNotes.ThreadsafeQueue.Model

/-!
# Who holds which end of the queue

Auxiliary data say which nodes are on the path from `head` to `tail`, with the
values in those strictly before `tail`, and who owns the nodes off the path. The
dummy node is blank unless somebody holds the tail mutex. A thread with the head
mutex knows that the front of the path stays, and that what it has read from
`tail` stays on the path, although it need not stay the end of it.
-/
namespace CsNotes.ThreadsafeQueue
open Interleaving Storage History Segment

inductive Role (Tid : Type*) where
  | free
  | queued
  | own (t : Tid)
deriving DecidableEq

/-- `nodes` are those strictly before `tail`. -/
structure Ghost (Tid Addr A : Type*) where
  role : Addr → Role Tid
  nodes : List (Ptr Addr × A)

variable {Tid Addr A : Type*}

namespace PC

/-- The critical section of the head mutex. -/
def HoldsHead : PC Addr A → Prop
  | getTailLock _ | getTail _ | getTailUnlock _ _ | compare _ _ | returnEmpty | block | readNext
  | moveHead _ _ | unlockHead _ => True
  | _ => False

/-- The critical sections of the tail mutex. -/
def HoldsTail : PC Addr A → Prop
  | emplace _ _ | linkNext _ _ | moveTail _ _ | unlockTail | getTail _ | getTailUnlock _ _ => True
  | _ => False

/-- The node off the path which only this thread may touch. -/
def owned : PC Addr A → Option Addr
  | lockTail _ p | emplace _ p | linkNext _ p | moveTail _ p => some p.addr
  | unlockHead old | takeData old | destroyData old _ | deleteNode old _ => some old.addr
  | _ => none

end PC

/-- The nodes from `head` to `tail`. -/
def path (s : Shared Tid Addr A) (g : Ghost Tid Addr A) : List (Ptr Addr) :=
  g.nodes.map Prod.fst ++ [s.tail]

/-- The history has `r` as the next answer to `t`, and `t` has not returned it yet. -/
def Owes [DecidableEq Tid] (s : Shared Tid Addr A) (t : Tid) (r : List (Option A)) : Prop :=
  answers t s.history = s.returned t ++ r

def PC.Facts [DecidableEq Tid] [DecidableEq Addr] (s : Shared Tid Addr A) (g : Ghost Tid Addr A)
    (t : Tid) : PC Addr A → Prop
  | idle | newNode _ | notifyOne | lockHead _ | getTailLock _ | block | blocked =>
      Owes s t []
  | lockTail _ p => s.mem.read p = some {} ∧ Owes s t []
  | emplace _ p => s.mem.read s.tail = some {} ∧ s.mem.read p = some {} ∧ Owes s t []
  | linkNext v p =>
      s.mem.read s.tail = some { data := some v } ∧ s.mem.read p = some {} ∧ Owes s t []
  | moveTail v p =>
      s.mem.read s.tail = some { data := some v, next := some p } ∧ s.mem.read p = some {} ∧
        Owes s t []
  | unlockTail | getTail _ => s.mem.read s.tail = some {} ∧ Owes s t []
  | getTailUnlock k tail =>
      s.mem.read s.tail = some {} ∧ tail ∈ path s g ∧
        Owes s t (if k = .tryPop ∧ s.HeadIs tail then [none] else [])
  | compare k tail =>
      tail ∈ path s g ∧ Owes s t (if k = .tryPop ∧ s.HeadIs tail then [none] else [])
  | returnEmpty => Owes s t [none]
  | readNext => g.nodes ≠ [] ∧ Owes s t []
  | moveHead old next =>
      (∃ v rest, g.nodes = (old, v) :: rest) ∧
        (∃ n, s.mem.read old = some n ∧ n.next = next) ∧ Owes s t []
  | unlockHead old | takeData old =>
      ∃ n v, s.mem.read old = some n ∧ n.data = some v ∧ Owes s t [some v]
  | destroyData old v => (∃ n w, s.mem.read old = some n ∧ n.data = some w) ∧ Owes s t [some v]
  | deleteNode old v => (∃ n, s.mem.read old = some n ∧ n.data = none) ∧ Owes s t [some v]

/-- A node strictly before `tail`, with the pointer that leads to it. -/
def Queued (m : Memory Addr (Node Addr A)) (p : Option (Ptr Addr)) (x : Ptr Addr × A)
    (next : Option (Ptr Addr)) : Prop :=
  p = some x.1 ∧ ∃ n, m.read x.1 = some n ∧ n.data = some x.2 ∧ n.next = next

structure Global (s : Shared Tid Addr A) (g : Ghost Tid Addr A) : Prop where
  free : ∀ a, g.role a = .free ↔ s.mem.cell a = none
  queued : ∀ a, g.role a = .queued ↔ a ∈ (path s g).map Ptr.addr
  nodup : ((path s g).map Ptr.addr).Nodup
  seg : Seg (Queued s.mem) (· = some s.tail) s.head g.nodes
  dummy : ∃ n, s.mem.read s.tail = some n ∧ (s.tailMutex = none → n = {})
  run : QueueRun s.history (g.nodes.map Prod.snd)

structure Local [DecidableEq Tid] [DecidableEq Addr] (s : Shared Tid Addr A) (g : Ghost Tid Addr A)
    (t : Tid) (pc : PC Addr A) : Prop where
  head : s.headMutex = some t ↔ pc.HoldsHead
  tail : s.tailMutex = some t ↔ pc.HoldsTail
  owned : ∀ a, g.role a = .own t ↔ pc.owned = some a
  facts : pc.Facts s g t

variable [DecidableEq Tid] [DecidableEq Addr] {s s' : Shared Tid Addr A} {g g' : Ghost Tid Addr A}
variable {t u : Tid} {pc : PC Addr A} {p : Ptr Addr} {n n' : Node Addr A}

/-- What another thread must leave alone for `u` to keep its assertion. -/
structure Frame (u : Tid) (s : Shared Tid Addr A) (g : Ghost Tid Addr A)
    (s' : Shared Tid Addr A) (g' : Ghost Tid Addr A) : Prop where
  headMutex : s'.headMutex = some u ↔ s.headMutex = some u
  tailMutex : s'.tailMutex = some u ↔ s.tailMutex = some u
  role : ∀ a, g'.role a = .own u ↔ g.role a = .own u
  owns : ∀ p n, s.mem.read p = some n → g.role p.addr = .own u → s'.mem.read p = some n
  tail : s.tailMutex = some u → s'.tail = s.tail ∧ s'.mem.read s.tail = s.mem.read s.tail
  head : s.headMutex = some u → s'.head = s.head
  nodes : s.headMutex = some u → g.nodes <+: g'.nodes
  onPath : s.headMutex = some u → ∀ p ∈ path s g, p ∈ path s' g'
  reads : s.headMutex = some u → ∀ x ∈ g.nodes, s'.mem.read x.1 = s.mem.read x.1
  owed : answers u s'.history = answers u s.history
  returned : s'.returned u = s.returned u

theorem Local.frame (h : Local s g u pc) (f : Frame u s g s' g') : Local s' g' u pc := by
  refine ⟨f.headMutex.trans h.head, f.tailMutex.trans h.tail,
    fun a => (f.role a).trans (h.owned a), ?_⟩
  have hf := h.facts
  have owes : ∀ r, Owes s u r → Owes s' u r := fun r hr => by
    unfold Owes
    rw [f.owed, f.returned]
    exact hr
  have own : ∀ q n, pc.owned = some q.addr → s.mem.read q = some n → s'.mem.read q = some n :=
    fun q n hq hn => f.owns q n hn ((h.owned _).mpr hq)
  have tail : ∀ n, pc.HoldsTail → s.mem.read s.tail = some n → s'.mem.read s'.tail = some n := by
    intro n ht hn
    obtain ⟨h₁, h₂⟩ := f.tail (h.tail.mpr ht)
    rw [h₁, h₂, hn]
  cases pc with
  | idle | newNode _ | notifyOne | lockHead _ | getTailLock _ | block | blocked
  | returnEmpty => exact owes _ hf
  | lockTail v p => exact ⟨own p _ rfl hf.1, owes _ hf.2⟩
  | emplace v p | linkNext v p | moveTail v p =>
      exact ⟨tail _ trivial hf.1, own p _ rfl hf.2.1, owes _ hf.2.2⟩
  | unlockTail | getTail k => exact ⟨tail _ trivial hf.1, owes _ hf.2⟩
  | getTailUnlock k r =>
      have hh := h.head.mpr trivial
      refine ⟨tail _ trivial hf.1, f.onPath hh r hf.2.1, ?_⟩
      simp only [Shared.HeadIs, f.head hh]
      exact owes _ hf.2.2
  | compare k r =>
      have hh := h.head.mpr trivial
      refine ⟨f.onPath hh r hf.1, ?_⟩
      simp only [Shared.HeadIs, f.head hh]
      exact owes _ hf.2
  | readNext =>
      obtain ⟨ext, hext⟩ := f.nodes (h.head.mpr trivial)
      refine ⟨fun hnil => hf.1 ?_, owes _ hf.2⟩
      rw [hnil] at hext
      exact (List.append_eq_nil_iff.mp hext).1
  | moveHead old next =>
      have hh := h.head.mpr trivial
      obtain ⟨⟨v, rest, hv⟩, ⟨n, hn, hnext⟩, ho⟩ := hf
      obtain ⟨ext, hext⟩ := f.nodes hh
      refine ⟨⟨v, rest ++ ext, ?_⟩, ⟨n, ?_, hnext⟩, owes _ ho⟩
      · rw [← hext, hv]
        rfl
      · rw [f.reads hh (old, v) (by simp [hv]), hn]
  | unlockHead old | takeData old =>
      obtain ⟨n, v, hn, hv, ho⟩ := hf
      exact ⟨n, v, own old n rfl hn, hv, owes _ ho⟩
  | destroyData old v =>
      obtain ⟨⟨n, w, hn, hw⟩, ho⟩ := hf
      exact ⟨⟨n, w, own old n rfl hn, hw⟩, owes _ ho⟩
  | deleteNode old v =>
      obtain ⟨⟨n, hn, hw⟩, ho⟩ := hf
      exact ⟨⟨n, own old n rfl hn, hw⟩, owes _ ho⟩

omit [DecidableEq Addr] in
theorem Frame.refl (u : Tid) (s : Shared Tid Addr A) (g : Ghost Tid Addr A) : Frame u s g s g :=
  ⟨Iff.rfl, Iff.rfl, fun _ => Iff.rfl, fun _ _ hn _ => hn, fun _ => ⟨rfl, rfl⟩, fun _ => rfl,
    fun _ => List.prefix_rfl, fun _ _ hp => hp, fun _ _ _ => rfl, rfl, rfl⟩

end CsNotes.ThreadsafeQueue
