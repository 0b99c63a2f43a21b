import CsNotes.Lib.Segment
import CsNotes.LockfreeQueue.Model

/-!
# What is set on a node, and by when

A node gets its data once and after that its `next` once, both while `tail` is
at it, so nothing is set past `tail` and everything is set before it. Auxiliary
data say which nodes `head` and `tail` have passed, who made each dummy node
that is still to be used, who emplaced the data `tail` is at, and how far each
element has come.
-/
namespace CsNotes.LockfreeQueue
open Interleaving History Segment

/-- `lost`: a dummy node which was not needed. -/
inductive NodeRole (Tid : Type*) where
  | absent
  | fresh (t : Tid)
  | linked
  | lost
deriving DecidableEq

/-- `waiting`: emplaced, and `tail` has not moved past it. -/
inductive Role (Tid : Type*) where
  | absent
  | own (t : Tid)
  | waiting
  | queued
  | popped (t : Tid)
  | handed (t : Tid)
  | deleted
deriving DecidableEq

namespace Role
variable {Tid : Type*}

def fate : Role Tid → Option (Fate Tid)
  | absent => none
  | own _ | waiting | queued | popped _ => some .owned
  | handed t => some (.handed t)
  | deleted => some .deleted

/-- `tail` has moved past the element. -/
def Entered : Role Tid → Prop
  | queued | popped _ | handed _ => True
  | _ => False

/-- In no node of the queue. -/
def Loose : Role Tid → Prop
  | waiting | queued => False
  | _ => True

end Role

/-- `taken` are the nodes before `head`, `queue` those from `head` up to but
excluding `tail`, with their elements. -/
structure Ghost (Tid : Type*) where
  nodeRole : ℕ → NodeRole Tid
  role : ℕ → Role Tid
  taken : List ℕ
  queue : List (ℕ × ℕ)
  pending : Option Tid

def Ghost.passed {Tid : Type*} (g : Ghost Tid) : List ℕ := g.taken ++ g.queue.map Prod.fst

namespace PC
variable {A : Type*}

/-- The element this thread has made and not emplaced yet. -/
def element : PC A → Option ℕ
  | makeTail x | loadTail x _ | casData x _ _ | helpNext x _ _ | makeDummy x _ _
  | helpTail x _ _ _ => some x
  | _ => none

/-- The dummy node this thread has made and not given away. -/
def dummy : PC A → Option ℕ
  | loadTail _ q | casData _ q _ | casNext _ q _ | helpNext _ q _ | helpTail _ q _ _ => some q
  | _ => none

/-- The node whose data this thread has emplaced. -/
def emplaced : PC A → Option ℕ
  | casNext _ _ i | casTail _ i _ => some i
  | _ => none

end PC

/-- Data and `next` of a node may be set once. -/
def Grows (l l' : List Node) : Prop :=
  ∀ (i : ℕ) (n : Node), l[i]? = some n → ∃ n' : Node, l'[i]? = some n' ∧
    (n.data ≠ none → n'.data = n.data) ∧ (n.next ≠ none → n'.next = n.next)

def Full (l : List Node) (i : ℕ) : Prop := ∃ n : Node, l[i]? = some n ∧ n.data ≠ none

def Linked (l : List Node) (i q : ℕ) : Prop :=
  ∃ n : Node, l[i]? = some n ∧ n.data ≠ none ∧ n.next = some q

/-- A node strictly before `tail`, with the pointer that leads to it. -/
def Queued (l : List Node) (p : Option ℕ) (x : ℕ × ℕ) (next : Option ℕ) : Prop :=
  p = some x.1 ∧ next ≠ none ∧ ∃ n, l[x.1]? = some n ∧ n.data = some x.2 ∧ n.next = next

variable {Tid A : Type*}

/-- `tail` is or was at this node. -/
def Known (s : Shared Tid A) (g : Ghost Tid) (i : ℕ) : Prop := i ∈ g.passed ∨ i = s.tail

/-- `head` is or was at this node. -/
def Behind (s : Shared Tid A) (g : Ghost Tid) (i : Option ℕ) : Prop :=
  i = s.head ∨ ∃ j ∈ g.taken, i = some j

def Owes [DecidableEq Tid] (s : Shared Tid A) (t : Tid) (r : List (Option ℕ)) : Prop :=
  answers t s.history = s.returned t ++ r

def PC.Facts [DecidableEq Tid] (s : Shared Tid A) (g : Ghost Tid) (t : Tid) : PC A → Prop
  | idle | makeData _ | makeTail _ | loadTail _ _ | loadHead => Owes s t []
  | casData _ _ i => Known s g i ∧ Owes s t []
  | casNext _ _ i | helpNext _ _ i => Known s g i ∧ Full s.nodes i ∧ Owes s t []
  | casTail _ i n | makeDummy _ i n | helpTail _ _ i n => Linked s.nodes i n ∧ Owes s t []
  | pollTail i => Behind s g i ∧ Owes s t []
  | loadNext i => (∃ j ∈ g.passed, i = some j) ∧ Owes s t []
  | casHead i next =>
      i ∈ g.passed ∧ (∃ n, s.nodes[i]? = some n ∧ n.next = next ∧ next ≠ none) ∧ Owes s t []
  | takeData i =>
      ∃ n x, s.nodes[i]? = some n ∧ n.data = some x ∧ g.role x = .popped t ∧ Owes s t [some x]
  | ret none => Owes s t [none]
  | ret (some x) => g.role x = .popped t ∧ Owes s t [some x]

/-- The element this thread has unlinked and not returned yet. -/
def PC.Returns (s : Shared Tid A) (x : ℕ) : PC A → Prop
  | takeData i => ∃ n, s.nodes[i]? = some n ∧ n.data = some x
  | ret r => r = some x
  | _ => False

/-- The node `tail` is at: what is set on it, and by whom. -/
def TailNode (s : Shared Tid A) (g : Ghost Tid) (n : Node) : Prop :=
  (∀ q, n.next = some q → n.data ≠ none ∧ s.nodes[q]? = some {} ∧ ¬ Known s g q ∧
      g.nodeRole q = .linked) ∧
    (∀ x, g.role x = .waiting ↔ n.data = some x) ∧ (n.data ≠ none → g.pending ≠ none)

structure Global (s : Shared Tid A) (g : Ghost Tid) : Prop where
  seg : Seg (Queued s.nodes) (· = some s.tail) s.head g.queue
  taken : ∀ i ∈ g.taken, ∃ q, Linked s.nodes i q
  nodup : (g.passed ++ [s.tail]).Nodup
  tail : ∃ n, s.nodes[s.tail]? = some n ∧ TailNode s g n
  linked : ∀ i, Known s g i → g.nodeRole i = .linked
  fresh : ∀ i t, g.nodeRole i = .fresh t → s.nodes[i]? = some {}
  absent : ∀ i, s.nodes.length ≤ i → g.nodeRole i = .absent
  fate : ∀ x, (s.elements[x]?).map Element.fate = (g.role x).fate
  queued : ∀ x, g.role x = .queued ↔ x ∈ g.queue.map Prod.snd
  pushed : ∀ x, x ∈ History.pushed s.history ↔ (g.role x).Entered
  nodup_pushed : (History.pushed s.history).Nodup
  run : QueueRun s.history (g.queue.map Prod.snd)

structure Local [DecidableEq Tid] (s : Shared Tid A) (g : Ghost Tid) (t : Tid) (pc : PC A) :
    Prop where
  element : ∀ x, g.role x = .own t ↔ pc.element = some x
  popped : ∀ x, g.role x = .popped t → pc.Returns s x
  dummy : ∀ q, g.nodeRole q = .fresh t ↔ pc.dummy = some q
  pending : g.pending = some t → pc.emplaced = some s.tail
  facts : pc.Facts s g t

variable {s s' : Shared Tid A} {g g' : Ghost Tid} {t u : Tid} {pc : PC A} {l l' : List Node}
variable {i q : ℕ} {n n' : Node}

theorem Grows.refl (l : List Node) : Grows l l := fun _ n hn => ⟨n, hn, fun _ => rfl, fun _ => rfl⟩

theorem grows_append (l l' : List Node) : Grows l (l ++ l') := by
  intro i n hn
  have hi := (List.getElem?_eq_some_iff.mp hn).1
  exact ⟨n, by rw [List.getElem?_append_left hi, hn], fun _ => rfl, fun _ => rfl⟩

theorem grows_set (h : l[i]? = some n) (hd : n.data ≠ none → n'.data = n.data)
    (hq : n.next ≠ none → n'.next = n.next) : Grows l (l.set i n') := by
  intro j k hk
  by_cases hj : i = j
  · subst hj
    obtain rfl := Option.some.inj (h.symm.trans hk)
    have hi := (List.getElem?_eq_some_iff.mp h).1
    exact ⟨n', by rw [List.getElem?_set_self hi], hd, hq⟩
  · exact ⟨k, by rw [List.getElem?_set_ne hj, hk], fun _ => rfl, fun _ => rfl⟩

theorem Full.grows (h : Full l i) (hg : Grows l l') : Full l' i := by
  obtain ⟨n, hn, hd⟩ := h
  obtain ⟨n', hn', hd', -⟩ := hg i n hn
  exact ⟨n', hn', by rwa [hd' hd]⟩

theorem Linked.grows (h : Linked l i q) (hg : Grows l l') : Linked l' i q := by
  obtain ⟨n, hn, hd, hq⟩ := h
  obtain ⟨n', hn', hd', hq'⟩ := hg i n hn
  exact ⟨n', hn', by rwa [hd' hd], by rw [hq' (by simp [hq]), hq]⟩

theorem seg_grows {p e : Option ℕ} {m : List (ℕ × ℕ)} (h : Seg (Queued l) (· = e) p m)
    (hg : Grows l l') : Seg (Queued l') (· = e) p m := by
  refine h.congr fun x _ c next hx => ?_
  obtain ⟨hc, hnext, n, hn, hd, hq⟩ := hx
  obtain ⟨n', hn', hd', hq'⟩ := hg _ n hn
  exact ⟨hc, hnext, n', hn', by rw [hd' (by simp [hd]), hd], by rw [hq' (by rwa [hq]), hq]⟩

theorem Global.linked_passed (h : Global s g) (hi : i ∈ g.passed) : ∃ q, Linked s.nodes i q := by
  rcases List.mem_append.mp hi with hi | hi
  · exact h.taken i hi
  · obtain ⟨x, hx, rfl⟩ := List.mem_map.mp hi
    obtain ⟨p, next, -, hnext, n, hn, hd, hq⟩ := h.seg.exists_node hx
    obtain ⟨q, rfl⟩ := Option.ne_none_iff_exists'.mp hnext
    exact ⟨q, n, hn, by simp [hd], hq⟩

theorem Global.tail_not_passed (h : Global s g) : s.tail ∉ g.passed := by
  have hnd := h.nodup
  rw [List.nodup_append] at hnd
  exact fun hmem => hnd.2.2 _ hmem _ (by simp) rfl

theorem Global.known_node (h : Global s g) (hi : Known s g i) : ∃ n, s.nodes[i]? = some n := by
  rcases hi with hi | rfl
  · obtain ⟨q, n, hn, -⟩ := h.linked_passed hi
    exact ⟨n, hn⟩
  · obtain ⟨n, hn, -⟩ := h.tail
    exact ⟨n, hn⟩

variable [DecidableEq Tid]

/-- What another thread must leave alone for `u` to keep its assertion. -/
structure Frame (u : Tid) (s : Shared Tid A) (g : Ghost Tid) (s' : Shared Tid A) (g' : Ghost Tid) :
    Prop where
  grows : Grows s.nodes s'.nodes
  own : ∀ x, g'.role x = .own u ↔ g.role x = .own u
  popped : ∀ x, g'.role x = .popped u ↔ g.role x = .popped u
  fresh : ∀ q, g'.nodeRole q = .fresh u ↔ g.nodeRole q = .fresh u
  pending : g'.pending = some u → g.pending = some u ∧ s'.tail = s.tail
  passed : ∀ i, i ∈ g.passed → i ∈ g'.passed
  known : Known s' g' s.tail
  behind : ∀ i, Behind s g i → Behind s' g' i
  owed : answers u s'.history = answers u s.history
  returned : s'.returned u = s.returned u

theorem Local.frame (h : Local s g u pc) (f : Frame u s g s' g') : Local s' g' u pc := by
  have owes : ∀ r, Owes s u r → Owes s' u r := by
    intro r hr
    unfold Owes
    rw [f.owed, f.returned]
    exact hr
  have known : ∀ i, Known s g i → Known s' g' i := by
    rintro i (hi | rfl)
    · exact .inl (f.passed i hi)
    · exact f.known
  refine ⟨fun x => (f.own x).trans (h.element x), fun x hx => ?_,
    fun q => (f.fresh q).trans (h.dummy q), fun hp => ?_, ?_⟩
  · have hr := h.popped x ((f.popped x).mp hx)
    cases pc with
    | takeData i =>
        obtain ⟨n, hn, hd⟩ := hr
        obtain ⟨n', hn', hd', -⟩ := f.grows i n hn
        exact ⟨n', hn', by rw [hd' (by simp [hd]), hd]⟩
    | ret r => exact hr
    | _ => exact hr.elim
  · obtain ⟨hp, ht⟩ := f.pending hp
    rw [ht]
    exact h.pending hp
  have hf := h.facts
  cases pc with
  | idle | makeData _ | makeTail _ | loadTail _ _ | loadHead => exact owes _ hf
  | casData x q i => exact ⟨known i hf.1, owes _ hf.2⟩
  | casNext x q i | helpNext x q i => exact ⟨known i hf.1, hf.2.1.grows f.grows, owes _ hf.2.2⟩
  | casTail x i n | makeDummy x i n | helpTail x q i n =>
      exact ⟨hf.1.grows f.grows, owes _ hf.2⟩
  | pollTail i => exact ⟨f.behind i hf.1, owes _ hf.2⟩
  | loadNext i =>
      obtain ⟨⟨j, hj, rfl⟩, ho⟩ := hf
      exact ⟨⟨j, f.passed j hj, rfl⟩, owes _ ho⟩
  | casHead i next =>
      obtain ⟨hi, ⟨n, hn, rfl, hnext⟩, ho⟩ := hf
      obtain ⟨n', hn', -, hq⟩ := f.grows i n hn
      exact ⟨f.passed i hi, ⟨n', hn', hq hnext, hnext⟩, owes _ ho⟩
  | takeData i =>
      obtain ⟨n, x, hn, hx, hr, ho⟩ := hf
      obtain ⟨n', hn', hd, -⟩ := f.grows i n hn
      exact ⟨n', x, hn', by rw [hd (by simp [hx]), hx], (f.popped x).mpr hr, owes _ ho⟩
  | ret r =>
      cases r with
      | none => exact owes _ hf
      | some x => exact ⟨(f.popped x).mpr hf.1, owes _ hf.2⟩

end CsNotes.LockfreeQueue
