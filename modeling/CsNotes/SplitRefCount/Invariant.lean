import Mathlib.Data.Finset.Card
import Mathlib.Tactic.Linarith
import CsNotes.Lib.Segment
import CsNotes.SplitRefCount.Model

/-!
# Who may touch a node, and when its counts add up

Auxiliary data say for every address which stage of its life the node there is
in, which threads counted themselves in on it and not yet out, and which nodes
the stack consists of. While a node is linked, the external count beside the
pointer to it, less one, plus the internal count is the number of its readers,
and the internal count has not risen above zero. Once the popper has added the
external count, the internal count alone is the number of readers.
-/
namespace CsNotes.SplitRefCount
open Interleaving Storage History Segment

/-- Why a node is in the hands of one thread alone: pushed but not linked yet,
unlinked with this external count not yet added, or about to be deleted. -/
inductive Kind where
  | fresh
  | popped (externalCount : ℤ)
  | dying
deriving DecidableEq

/-- `retired`: unlinked, the counts joined, and somebody still reading. -/
inductive Role (Tid : Type*) where
  | free
  | linked
  | retired
  | own (t : Tid) (k : Kind)
deriving DecidableEq

structure Ghost (Tid Addr A : Type*) where
  role : Addr → Role Tid
  readers : Addr → Finset Tid
  stack : List (Addr × A)

namespace PC
variable {Addr A : Type*}

/-- The node on whose counts this thread is booked as a reader. -/
def counted : PC Addr A → Option Addr
  | readNext _ p | unlink _ p _ | subCount _ p => some p.addr
  | _ => none

/-- The node which only this thread may delete or link. -/
def owned : PC Addr A → Option (Addr × Kind)
  | loadNext _ p | pushCas _ p => some (p.addr, .fresh)
  | takeData old p | addCount old p _ => some (p.addr, .popped old.externalCount)
  | deleteTaken p _ | deleteReleased _ p => some (p.addr, .dying)
  | _ => none

/-- What a thread knows about its node, and how far `returned` lags behind the
answers it is already owed by the history. -/
def Facts (m : Memory Addr (Node Addr A)) (owed returned : List (Option A)) : PC Addr A → Prop
  | idle | newNode _ | loadHead | count _ => owed = returned
  | loadNext v p | pushCas v p => (∃ n, m.read p = some n ∧ n.data = v) ∧ owed = returned
  | readNext old p => (∃ n, m.read p = some n) ∧ old.ptr = some p.addr ∧ owed = returned
  | unlink old p next =>
      (∃ n, m.read p = some n ∧ n.next = next) ∧ old.ptr = some p.addr ∧ owed = returned
  | takeData _ p => ∃ n, m.read p = some n ∧ owed = returned ++ [some n.data]
  | addCount _ p v | deleteTaken p v => (∃ n, m.read p = some n) ∧ owed = returned ++ [some v]
  | subCount _ p | deleteReleased _ p => (∃ n, m.read p = some n) ∧ owed = returned

end PC

/-- Readers and internal count of a live node which is not linked. -/
def Balanced {Tid : Type*} (readers internalCount : ℤ) : Role Tid → Prop
  | .free | .linked => True
  | .retired => readers = internalCount ∧ 1 ≤ internalCount
  | .own _ .fresh => readers = 0 ∧ internalCount = 0
  | .own _ (.popped e) => readers = e - 2 + internalCount ∧ internalCount ≤ 0
  | .own _ .dying => readers = 0

variable {Tid Addr A : Type*}

/-- A linked node, with the counted pointer that links it. -/
def Linked (m : Memory Addr (Node Addr A)) (readers : Addr → Finset Tid) (p : CountedNodePtr Addr)
    (x : Addr × A) (next : CountedNodePtr Addr) : Prop :=
  p.ptr = some x.1 ∧ ∃ q n, q.addr = x.1 ∧ m.read q = some n ∧ n.data = x.2 ∧ n.next = next ∧
    ((readers x.1).card : ℤ) = p.externalCount - 1 + n.internalCount ∧ n.internalCount ≤ 0

structure Global (s : Shared Tid Addr A) (g : Ghost Tid Addr A) : Prop where
  free : ∀ a, g.role a = .free ↔ s.mem.cell a = none
  linked : ∀ a, g.role a = .linked ↔ a ∈ g.stack.map Prod.fst
  nodup : (g.stack.map Prod.fst).Nodup
  seg : Seg (Linked s.mem g.readers) (fun p => p.ptr = none) s.head g.stack
  unread : ∀ a, s.mem.cell a = none → g.readers a = ∅
  balance : ∀ p n, s.mem.read p = some n →
    Balanced (g.readers p.addr).card n.internalCount (g.role p.addr)
  run : StackRun s.history (g.stack.map Prod.snd)

structure Local [DecidableEq Tid] (s : Shared Tid Addr A) (g : Ghost Tid Addr A) (t : Tid)
    (pc : PC Addr A) : Prop where
  counted : ∀ a, t ∈ g.readers a ↔ pc.counted = some a
  owned : ∀ a k, g.role a = .own t k ↔ pc.owned = some (a, k)
  facts : pc.Facts s.mem (answers t s.history) (s.returned t)

variable [DecidableEq Tid] [DecidableEq Addr] {s s' : Shared Tid Addr A} {g g' : Ghost Tid Addr A}
variable {t u : Tid} {pc : PC Addr A} {p : Ptr Addr} {n n' : Node Addr A}

/-- What another thread must leave alone for `u` to keep its assertion. -/
structure Frame (u : Tid) (s : Shared Tid Addr A) (g : Ghost Tid Addr A)
    (s' : Shared Tid Addr A) (g' : Ghost Tid Addr A) : Prop where
  readers : ∀ a, u ∈ g'.readers a ↔ u ∈ g.readers a
  role : ∀ a k, g'.role a = .own u k ↔ g.role a = .own u k
  reads : ∀ p n, s.mem.read p = some n → u ∈ g.readers p.addr →
    ∃ n', s'.mem.read p = some n' ∧ n'.next = n.next
  owns : ∀ p n k, s.mem.read p = some n → g.role p.addr = .own u k →
    ∃ n', s'.mem.read p = some n' ∧ n'.data = n.data
  owed : answers u s'.history = answers u s.history
  returned : s'.returned u = s.returned u

omit [DecidableEq Addr] in
theorem Local.frame (h : Local s g u pc) (f : Frame u s g s' g') : Local s' g' u pc := by
  refine ⟨fun a => (f.readers a).trans (h.counted a),
    fun a k => (f.role a k).trans (h.owned a k), ?_⟩
  have hf := h.facts
  rw [f.owed, f.returned]
  have reads : ∀ q n, pc.counted = some q.addr → s.mem.read q = some n →
      ∃ n', s'.mem.read q = some n' ∧ n'.next = n.next :=
    fun q n hq hn => f.reads q n hn ((h.counted _).mpr hq)
  have owns : ∀ q n k, pc.owned = some (q.addr, k) → s.mem.read q = some n →
      ∃ n', s'.mem.read q = some n' ∧ n'.data = n.data :=
    fun q n k hq hn => f.owns q n k hn ((h.owned _ _).mpr hq)
  cases pc with
  | idle | newNode _ | loadHead | count _ => exact hf
  | loadNext v q | pushCas v q =>
      obtain ⟨⟨n, hn, rfl⟩, ho⟩ := hf
      obtain ⟨n', hn', hd⟩ := owns q n _ rfl hn
      exact ⟨⟨n', hn', hd⟩, ho⟩
  | readNext old q =>
      obtain ⟨⟨n, hn⟩, ho⟩ := hf
      obtain ⟨n', hn', -⟩ := reads q n rfl hn
      exact ⟨⟨n', hn'⟩, ho⟩
  | unlink old q next =>
      obtain ⟨⟨n, hn, rfl⟩, ho⟩ := hf
      obtain ⟨n', hn', hx⟩ := reads q n rfl hn
      exact ⟨⟨n', hn', hx⟩, ho⟩
  | takeData old q =>
      obtain ⟨n, hn, ho⟩ := hf
      obtain ⟨n', hn', hd⟩ := owns q n _ rfl hn
      exact ⟨n', hn', hd ▸ ho⟩
  | addCount old q v | deleteTaken q v | deleteReleased old q =>
      obtain ⟨⟨n, hn⟩, ho⟩ := hf
      obtain ⟨n', hn', -⟩ := owns q n _ rfl hn
      exact ⟨⟨n', hn'⟩, ho⟩
  | subCount old q =>
      obtain ⟨⟨n, hn⟩, ho⟩ := hf
      obtain ⟨n', hn', -⟩ := reads q n rfl hn
      exact ⟨⟨n', hn'⟩, ho⟩

end CsNotes.SplitRefCount
