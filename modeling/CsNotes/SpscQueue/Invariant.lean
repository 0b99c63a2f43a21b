import CsNotes.Lib.Segment
import CsNotes.Lib.Window
import CsNotes.SpscQueue.Model

/-!
# Who works on which node

The live nodes are, in the order of their allocation, one which the consumer has
unlinked, those on the path from `head` to `tail`, and one which the producer
has not linked yet. The producer knows what is in the dummy node, and the
consumer that the path only grows, at its far end.
-/
namespace CsNotes.SpscQueue
open Interleaving Storage History Segment

/-- `taken` is the node which the consumer has unlinked, `nodes` are those
strictly before `tail`, with their values, and `made` is the producer's new one.
After the destructor the queue is `dead`. -/
structure Ghost (Addr A : Type*) where
  taken : Option (Ptr Addr)
  nodes : List (Ptr Addr × A)
  made : Option (Ptr Addr)
  dead : Bool

variable {Addr A : Type*}

namespace PC

def made : PC Addr A → Option (Ptr Addr)
  | loadOldTail _ p | construct _ p _ | linkNext _ p _ | storeTail _ p => some p
  | _ => none

def taken : PC Addr A → Option (Ptr Addr)
  | takeData _ old | destroyData _ old _ | deleteNode _ old _ => some old
  | _ => none

/-- A node without its value which is not deleted yet. -/
def emptied : PC Addr A → List ℕ
  | deleteNode _ old _ => [old.id]
  | _ => []

/-- In the destructor. -/
def Closing : PC Addr A → Prop
  | loadTail k | compare k _ | readNext k | moveHead k _ _ | takeData k _ | destroyData k _ _
  | deleteNode k _ _ => k = .destructor
  | deleteHead | destroyed => True
  | _ => False

end PC

/-- The nodes from `head` to `tail`. -/
def path (s : Shared Addr A) (g : Ghost Addr A) : List (Ptr Addr) :=
  g.nodes.map Prod.fst ++ [s.tail]

def blocks (s : Shared Addr A) (g : Ghost Addr A) : List (Ptr Addr) :=
  if g.dead then [] else g.taken.toList ++ (path s g ++ g.made.toList)

/-- A node strictly before `tail`, with the pointer that leads to it. -/
def Queued (m : Memory Addr (Node Addr A)) (p : Option (Ptr Addr)) (x : Ptr Addr × A)
    (next : Option (Ptr Addr)) : Prop :=
  p = some x.1 ∧ ∃ n, m.read x.1 = some n ∧ n.data = some x.2 ∧ n.next = next ∧ next ≠ none

structure Global (s : Shared Addr A) (g : Ghost Addr A) : Prop where
  window : Window s.mem s.deleted.length (blocks s g)
  deleted : s.deleted = List.range s.deleted.length
  seg : g.dead = false → Seg (Queued s.mem) (· = some s.tail) s.head g.nodes
  run : QueueRun s.history (g.nodes.map Prod.snd)
  closing : g.dead = true → s.closing = true

/-- The dummy node is `n`, and `k` values were constructed in it. -/
def Dummy (s : Shared Addr A) (g : Ghost Addr A) (n : Node Addr A) (k : ℕ) : Prop :=
  (g.dead = false → s.mem.read s.tail = some n) ∧ s.constructed = List.range (s.tail.id + k)

/-- What the producer knows. -/
def PC.OfProducer (s : Shared Addr A) (g : Ghost Addr A) : PC Addr A → Prop
  | idle | newNode _ | loadOldTail _ _ => Dummy s g {} 0
  | construct _ _ old => old = s.tail ∧ Dummy s g {} 0
  | linkNext v _ old => old = s.tail ∧ Dummy s g { data := some v } 1
  | storeTail v p => Dummy s g { data := some v, next := some p } 1
  | _ => False

structure Producer (s : Shared Addr A) (g : Ghost Addr A) (pc : PC Addr A) : Prop where
  made : g.made = pc.made
  blank : ∀ p, pc.made = some p → s.mem.read p = some {}
  closing : s.closing = true → pc = .idle
  facts : pc.OfProducer s g

/-- The history has `r` as the next answer of a pop which has not returned it yet. -/
def Owes (s : Shared Addr A) (r : List (Option A)) : Prop :=
  answers () s.history = s.returned ++ r

variable [DecidableEq Addr]

/-- What the consumer knows. -/
def PC.OfConsumer (s : Shared Addr A) (g : Ghost Addr A) : PC Addr A → Prop
  | idle | loadTail _ => Owes s []
  | compare k tail => tail ∈ path s g ∧ (k = .destructor → tail = s.tail) ∧
      Owes s (if s.HeadIs tail then [none] else [])
  | readNext _ => g.nodes ≠ [] ∧ Owes s []
  | moveHead _ old next => (∃ v rest, g.nodes = (old, v) :: rest) ∧
      (∃ n, s.mem.read old = some n ∧ n.next = next) ∧ Owes s []
  | takeData _ old => ∃ n v, s.mem.read old = some n ∧ n.next ≠ none ∧ n.data = some v ∧
      Owes s [some v]
  | destroyData _ old v => (∃ n, s.mem.read old = some n ∧ n.next ≠ none ∧ n.data ≠ none) ∧
      Owes s [some v]
  | deleteNode _ old v => (∃ n, s.mem.read old = some n ∧ n.next ≠ none ∧ n.data = none) ∧
      Owes s [some v]
  | deleteHead => g.nodes = [] ∧ Owes s []
  | destroyed => s.destroyed = List.range s.tail.id ∧ Owes s []
  | _ => False

structure Consumer (s : Shared Addr A) (g : Ghost Addr A) (pc : PC Addr A) : Prop where
  taken : g.taken = pc.taken
  dead : g.dead = true ↔ pc = .destroyed
  closing : s.closing = true ↔ pc.Closing
  destroyed : g.dead = false → s.destroyed = s.deleted ++ pc.emptied
  facts : pc.OfConsumer s g

def Local (s : Shared Addr A) (g : Ghost Addr A) : Thread → PC Addr A → Prop
  | .producer, pc => Producer s g pc
  | .consumer, pc => Consumer s g pc

variable {s s' : Shared Addr A} {g g' : Ghost Addr A} {pc : PC Addr A}

/-- What the consumer must leave alone for the producer to keep its assertion. -/
structure KeepsProducer (s : Shared Addr A) (g : Ghost Addr A) (s' : Shared Addr A)
    (g' : Ghost Addr A) : Prop where
  tail : s'.tail = s.tail
  constructed : s'.constructed = s.constructed
  made : g'.made = g.made
  dead : g'.dead = false → g.dead = false
  reads : ∀ p, p = s.tail ∨ g.made = some p → g'.dead = false → s'.mem.read p = s.mem.read p

/-- What the producer must leave alone for the consumer to keep its assertion. -/
structure KeepsConsumer (s : Shared Addr A) (g : Ghost Addr A) (s' : Shared Addr A)
    (g' : Ghost Addr A) : Prop where
  head : s'.head = s.head
  returned : s'.returned = s.returned
  destroyed : s'.destroyed = s.destroyed
  deleted : s'.deleted = s.deleted
  closing : s'.closing = s.closing
  owed : answers () s'.history = answers () s.history
  taken : g'.taken = g.taken
  dead : g'.dead = g.dead
  nodes : g.nodes <+: g'.nodes
  onPath : ∀ p ∈ path s g, p ∈ path s' g'
  reads : ∀ p, g.taken = some p ∨ p ∈ g.nodes.map Prod.fst → s'.mem.read p = s.mem.read p

omit [DecidableEq Addr] in
theorem Producer.frame (h : Producer s g pc) (f : KeepsProducer s g s' g')
    (hclosing : s'.closing = true → pc = .idle) (halive : pc ≠ .idle → g'.dead = false) :
    Producer s' g' pc := by
  have hdummy : ∀ n k, Dummy s g n k → Dummy s' g' n k := by
    intro n k ⟨hread, hc⟩
    constructor
    · intro hd
      rw [f.tail, f.reads s.tail (.inl rfl) hd]
      exact hread (f.dead hd)
    · rw [f.constructed, f.tail]
      exact hc
  constructor
  case made => exact f.made.trans h.made
  case blank =>
    intro p hp
    have hne : pc ≠ .idle := by
      rintro rfl
      cases hp
    rw [f.reads p (.inr (h.made.trans hp)) (halive hne)]
    exact h.blank p hp
  case closing => exact hclosing
  case facts =>
    have hf := h.facts
    cases pc with
    | idle | newNode v | loadOldTail v p | storeTail v p => exact hdummy _ _ hf
    | construct v p old | linkNext v p old => exact ⟨hf.1.trans f.tail.symm, hdummy _ _ hf.2⟩
    | _ => exact hf

/-- The producer steps only while the queue is not being destroyed. -/
theorem Consumer.frame (h : Consumer s g pc) (f : KeepsConsumer s g s' g')
    (hopen : s.closing = false) : Consumer s' g' pc := by
  have howes : ∀ r, Owes s r → Owes s' r := by
    intro r hr
    unfold Owes
    rw [f.owed, f.returned]
    exact hr
  have hnot : ¬ pc.Closing := by
    rw [← h.closing, hopen]
    exact Bool.false_ne_true
  have htaken : ∀ p, pc.taken = some p → s'.mem.read p = s.mem.read p :=
    fun p hp => f.reads p (.inl (h.taken.trans hp))
  constructor
  case taken => exact f.taken.trans h.taken
  case dead =>
    rw [f.dead]
    exact h.dead
  case closing =>
    rw [f.closing]
    exact h.closing
  case destroyed =>
    rw [f.dead, f.destroyed, f.deleted]
    exact h.destroyed
  case facts =>
    have hf := h.facts
    cases pc with
    | idle | loadTail k => exact howes _ hf
    | compare k tail =>
        refine ⟨f.onPath tail hf.1, fun hk => (hnot hk).elim, ?_⟩
        simp only [Shared.HeadIs, f.head]
        exact howes _ hf.2.2
    | readNext k =>
        obtain ⟨l, hl⟩ := f.nodes
        refine ⟨fun hnil => hf.1 ?_, howes _ hf.2⟩
        rw [hnil] at hl
        exact (List.append_eq_nil_iff.mp hl).1
    | moveHead k old next =>
        obtain ⟨⟨v, rest, hv⟩, ⟨n, hn, hnext⟩, ho⟩ := hf
        obtain ⟨l, hl⟩ := f.nodes
        refine ⟨⟨v, rest ++ l, ?_⟩, ⟨n, ?_, hnext⟩, howes _ ho⟩
        · rw [← hl, hv]
          rfl
        · rw [f.reads old (.inr (by simp [hv])), hn]
    | takeData k old =>
        obtain ⟨n, v, hn, hv⟩ := hf
        exact ⟨n, v, (htaken old rfl).trans hn, hv.1, hv.2.1, howes _ hv.2.2⟩
    | destroyData k old v | deleteNode k old v =>
        obtain ⟨⟨n, hn, hd⟩, ho⟩ := hf
        exact ⟨⟨n, (htaken old rfl).trans hn, hd⟩, howes _ ho⟩
    | deleteHead | destroyed => exact (hnot trivial).elim
    | _ => exact hf

end CsNotes.SpscQueue
