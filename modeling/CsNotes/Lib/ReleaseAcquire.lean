import Mathlib.Data.Finset.Lattice.Basic
import Mathlib.Data.Fintype.Basic
import Mathlib.Order.Nat
import CsNotes.Lib.Races

/-!
# Programs with memory orders

In an interleaving every load reads what was stored last. With the memory orders
of the operations taken into account, a load reads any store which the thread
does not yet know to be overwritten, and what another thread did before happens
before what this one does next only if the load acquires what the store has
released. Two accesses of which none happens before the other are a data race,
and a data race is a fault.

A program is given as the interleaving it would be, with the order of each of its
atomic operations. One atomic object is loaded and exchanged. Others are only
exchanged, so that every operation on them reads the one before: reference counts,
and mutexes. Stores come last in the modification order, as they do if the stores of
an object happen one before the other, and each thread keeps to its program.
-/
namespace CsNotes.ReleaseAcquire
open Interleaving Races

/-- `std::memory_order`, except for the order among several atomic objects. -/
inductive MemoryOrder where
  | relaxed
  | acquire
  | release
  | acqRel
deriving DecidableEq, Repr

namespace MemoryOrder

def acquires : MemoryOrder → Bool
  | acquire | acqRel => true
  | relaxed | release => false

def releases : MemoryOrder → Bool
  | release | acqRel => true
  | relaxed | acquire => false

end MemoryOrder

/-- The accesses that happen before something, by their numbers, and as much of the
modification order. -/
abbrev View := Finset ℕ × ℕ

/-- What happens before what. `earlier` are the values that the atomic object had before
this one, each with what its store has released, and `current` is what the last store has
released. `pending` is what a fence of the thread would acquire. -/
structure Causality (Tid V Loc Sync : Type*) where
  log : List (Tid × Access Loc)
  earlier : List (V × View)
  current : View
  released : Sync → View
  view : Tid → View
  pending : Tid → View

variable {Tid O S L V Loc Sync : Type*}

instance [DecidableEq Loc] (x y : Access Loc) : Decidable (x.Conflicts y) :=
  inferInstanceAs (Decidable (_ ∧ _ ∧ _))

namespace Causality

def start : Causality Tid V Loc Sync :=
  ⟨[], [], ⊥, fun _ => ⊥, fun _ => ⊥, fun _ => ⊥⟩

/-- Every access of another thread which conflicts with `a` happens before it. -/
def Ordered (m : Causality Tid V Loc Sync) (t : Tid) (a : Access Loc) : Prop :=
  ∀ i : Fin m.log.length, m.log[i].1 = t ∨ ¬ m.log[i].2.Conflicts a ∨ ↑i ∈ (m.view t).1

/-- All stores of the atomic object, if its value is `now`. -/
def messages (m : Causality Tid V Loc Sync) (now : V) : List (V × View) :=
  m.earlier ++ [(now, m.current)]

variable [DecidableEq Tid]

instance [DecidableEq Loc] (m : Causality Tid V Loc Sync) (t : Tid) (a : Access Loc) :
    Decidable (m.Ordered t a) :=
  inferInstanceAs (Decidable (∀ _ : Fin _, _))

def learn (m : Causality Tid V Loc Sync) (t : Tid) (v : View) : Causality Tid V Loc Sync :=
  { m with view := Function.update m.view t (m.view t ⊔ v) }

def note (m : Causality Tid V Loc Sync) (t : Tid) (a : Access Loc) : Causality Tid V Loc Sync :=
  { m with log := m.log ++ [(t, a)] }.learn t ({m.log.length}, 0)

def perform [DecidableEq Loc] (t : Tid) :
    List (Access Loc) → Causality Tid V Loc Sync → Outcome (Causality Tid V Loc Sync)
  | [], m => .ok m
  | a :: l, m => if m.Ordered t a then perform t l (m.note t a) else .fault

/-- What has been released gets to the thread, at once or with its next fence. -/
def receive (m : Causality Tid V Loc Sync) (t : Tid) (order : MemoryOrder) (w : View) :
    Causality Tid V Loc Sync :=
  { m.learn t (if order.acquires then w else ⊥) with
    pending := Function.update m.pending t (m.pending t ⊔ w) }

/-- Read the store with the number `i`, unless it is known to be overwritten. -/
def load (m : Causality Tid V Loc Sync) (t : Tid) (order : MemoryOrder) (now : V) (i : ℕ) :
    Outcome (V × Causality Tid V Loc Sync) :=
  match (m.messages now)[i]? with
  | none => .wait
  | some (v, w) =>
      if (m.view t).2 ≤ i then .ok (v, (m.receive t order w).learn t (∅, i)) else .wait

/-- Another store, which also passes on `w`. -/
def append (m : Causality Tid V Loc Sync) (t : Tid) (order : MemoryOrder) (now : V) (w : View) :
    Causality Tid V Loc Sync :=
  let m := m.learn t (∅, m.earlier.length + 1)
  { m with
    earlier := m.messages now
    current := w ⊔ if order.releases then m.view t else ⊥ }

def store (m : Causality Tid V Loc Sync) (t : Tid) (order : MemoryOrder) (now : V) :
    Causality Tid V Loc Sync :=
  m.append t order now ⊥

/-- A read-modify-write operation reads the last store and goes on with what that has
released. -/
def exchange (m : Causality Tid V Loc Sync) (t : Tid) (order : MemoryOrder) (now : V) :
    Causality Tid V Loc Sync :=
  (m.receive t order m.current).append t order now m.current

/-- The same on an object of which only the last store can be read. -/
def update [DecidableEq Sync] (m : Causality Tid V Loc Sync) (t : Tid) (x : Sync)
    (order : MemoryOrder) : Causality Tid V Loc Sync :=
  let m := m.receive t order (m.released x)
  let w := if order.releases then m.view t else ⊥
  { m with released := Function.update m.released x (m.released x ⊔ w) }

/-- `std::atomic_thread_fence(std::memory_order_acquire)` -/
def fence (m : Causality Tid V Loc Sync) (t : Tid) : Causality Tid V Loc Sync :=
  m.learn t (m.pending t)

end Causality

/-- The atomic operation of a step, after its other accesses. A fence is before them. -/
inductive Effect (Sync : Type*) where
  | plain
  | load (order : MemoryOrder)
  | store (order : MemoryOrder)
  | exchange (success failure : MemoryOrder)
  | update (x : Sync) (order : MemoryOrder)
  | fence
deriving DecidableEq, Repr

/-- What is known when the accesses of the step begin. -/
def Causality.before [DecidableEq Tid] (m : Causality Tid V Loc Sync) (t : Tid) :
    Effect Sync → Causality Tid V Loc Sync
  | .fence => m.fence t
  | _ => m

/-- A program with the atomic object `value`. `accesses` are those which could race, and
`succeeds` is whether an exchange does. -/
structure Program (Tid O S L V Loc Sync : Type*) where
  code : Code Tid O S L
  value : S → V
  withValue : S → V → S
  accesses : O → S → L → List (Access Loc)
  effect : L → Effect Sync
  succeeds : O → S → L → Bool

namespace Program
variable (P : Program Tid O S L V Loc Sync)

/-- The step of a thread that reads the value `v`, where the object may have another. -/
def older (t : Tid) (o : O) (s : S) (pc : L) (v : V) : Outcome (S × L) :=
  (P.code t o (P.withValue s v) pc).map fun r => (P.withValue r.1 (P.value s), r.2)

variable [DecidableEq Tid] [DecidableEq Loc] [DecidableEq Sync]

/-- What comes after the accesses. One more free choice is the number of the store which is
read. -/
def operate (t : Tid) (o : O × ℕ) (s : S) (pc : L) (m : Causality Tid V Loc Sync) :
    Outcome ((S × Causality Tid V Loc Sync) × L) :=
  let now := P.value s
  let step (m : Causality Tid V Loc Sync) : Outcome ((S × Causality Tid V Loc Sync) × L) :=
    (P.code t o.1 s pc).map fun r => ((r.1, m), r.2)
  let read (p : V × Causality Tid V Loc Sync) : Outcome ((S × Causality Tid V Loc Sync) × L) :=
    (P.older t o.1 s pc p.1).map fun r => ((r.1, p.2), r.2)
  match P.effect pc with
  | .plain | .fence => step m
  | .load order => (m.load t order now o.2).bind read
  | .store order => step (m.store t order now)
  | .exchange success failure =>
      if P.succeeds o.1 s pc ∧ o.2 = m.earlier.length then step (m.exchange t success now)
      else (m.load t failure now o.2).bind fun p =>
        if P.succeeds o.1 (P.withValue s p.1) pc then .wait else read p
  | .update x order => step (m.update t x order)

def exec : Code Tid (O × ℕ) (S × Causality Tid V Loc Sync) L := fun t o s pc =>
  ((s.2.before t (P.effect pc)).perform t (P.accesses o.1 s.1 pc)).bind (P.operate t o s.1 pc)

/-- The step can go on with the value `v` that it loads: an exchange does only if it fails. -/
def Rereads (o : O) (s : S) (pc : L) (v : V) (order : MemoryOrder) : Prop :=
  P.effect pc = .load order ∨
    (∃ success, P.effect pc = .exchange success order) ∧ P.succeeds o (P.withValue s v) pc = false

/-- What a step that is made does after its accesses, by its atomic operation. -/
inductive Operates (t : Tid) (o : O) (s : S) (pc : L) (m : Causality Tid V Loc Sync) :
    (S × Causality Tid V Loc Sync) × L → Prop
  | step {s' : S} {pc' : L} (heff : P.effect pc = .plain ∨ P.effect pc = .fence)
      (hcode : P.code t o s pc = .ok (s', pc')) : Operates t o s pc m ((s', m), pc')
  | load {order : MemoryOrder} {v : V} {w : View} {i : ℕ} {s' : S} {pc' : L}
      (heff : P.Rereads o s pc v order) (hi : (m.messages (P.value s))[i]? = some (v, w))
      (hcode : P.older t o s pc v = .ok (s', pc')) :
      Operates t o s pc m ((s', (m.receive t order w).learn t (∅, i)), pc')
  | store {order : MemoryOrder} {s' : S} {pc' : L} (heff : P.effect pc = .store order)
      (hcode : P.code t o s pc = .ok (s', pc')) :
      Operates t o s pc m ((s', m.store t order (P.value s)), pc')
  | exchange {success failure : MemoryOrder} {s' : S} {pc' : L}
      (heff : P.effect pc = .exchange success failure) (hs : P.succeeds o s pc = true)
      (hcode : P.code t o s pc = .ok (s', pc')) :
      Operates t o s pc m ((s', m.exchange t success (P.value s)), pc')
  | update {x : Sync} {order : MemoryOrder} {s' : S} {pc' : L}
      (heff : P.effect pc = .update x order) (hcode : P.code t o s pc = .ok (s', pc')) :
      Operates t o s pc m ((s', m.update t x order), pc')

end Program

namespace Causality
variable {m m' m'' : Causality Tid V Loc Sync} {t u : Tid} {v w : View} {a b : Access Loc}
variable {l l' : List (Access Loc)} {now : V} {i : ℕ} {order : MemoryOrder}

/-- All accesses which conflict with `a` belong to the view. -/
def Covers (m : Causality Tid V Loc Sync) (v : View) (a : Access Loc) : Prop :=
  ∀ i x, m.log[i]? = some x → x.2.Conflicts a → i ∈ v.1

/-- What a step of `t` with the accesses `l` does to what is known. -/
structure Extends (t : Tid) (l : List (Access Loc)) (m m' : Causality Tid V Loc Sync) : Prop where
  log : m'.log = m.log ++ l.map (Prod.mk t)
  own : ∀ i, m.log.length ≤ i → i < m'.log.length → i ∈ (m'.view t).1
  view : m.view t ≤ m'.view t
  others : ∀ u, u ≠ t → m'.view u = m.view u
  fences : ∀ u, u ≠ t → m'.pending u = m.pending u

theorem Extends.trans (h : Extends t l m m') (h' : Extends t l' m' m'') :
    Extends t (l ++ l') m m'' := by
  refine ⟨?_, fun i hi hlt => ?_, h.view.trans h'.view, fun u hu => ?_, fun u hu => ?_⟩
  · rw [h'.log, h.log, List.map_append, List.append_assoc]
  · rcases Nat.lt_or_ge i m'.log.length with hi' | hi'
    · exact h'.view.1 (h.own i hi hi')
    · exact h'.own i hi' hlt
  · rw [h'.others u hu, h.others u hu]
  · rw [h'.fences u hu, h.fences u hu]

theorem Extends.more (h : Extends t l m m') (h' : Extends t [] m' m'') : Extends t l m m'' := by
  have := h.trans h'
  rwa [List.append_nil] at this

theorem Extends.view_le (h : Extends t l m m') (u : Tid) : m.view u ≤ m'.view u := by
  by_cases hu : u = t
  · subst hu
    exact h.view
  · exact (h.others u hu).ge

theorem Covers.reads {x : Loc} (h : m.Covers v (.writes x)) : m.Covers v (.reads x) :=
  fun i y hy hc => h i y hy ⟨hc.1, .inr rfl, hc.2.2⟩

theorem Covers.updates {x : Loc} (h : m.Covers v (.writes x)) : m.Covers v (.updates x) :=
  fun i y hy hc => h i y hy ⟨hc.1, .inr rfl, by simp [Access.writes]⟩

theorem Covers.mono (h : m.Covers v a) (hv : v ≤ w) : m.Covers w a :=
  fun i x hx hc => hv.1 (h i x hx hc)

theorem Covers.extends (h : m.Covers v a) (e : Extends t l m m')
    (hl : ∀ b ∈ l, ¬ b.Conflicts a) : m'.Covers v a := by
  intro i x hx hc
  rw [e.log] at hx
  rcases Nat.lt_or_ge i m.log.length with hi | hi
  · rw [List.getElem?_append_left hi] at hx
    exact h i x hx hc
  · rw [List.getElem?_append_right hi] at hx
    obtain ⟨b, hb, rfl⟩ := List.mem_map.mp (List.mem_of_getElem? hx)
    exact (hl b hb hc).elim

theorem Covers.own (h : m.Covers (m.view t) a) (e : Extends t l m m') :
    m'.Covers (m'.view t) a := by
  intro i x hx hc
  have hlt : i < m'.log.length := (List.getElem?_eq_some_iff.mp hx).1
  rcases Nat.lt_or_ge i m.log.length with hi | hi
  · rw [e.log, List.getElem?_append_left hi] at hx
    exact e.view.1 (h i x hx hc)
  · exact e.own i hi hlt

theorem ordered_iff : m.Ordered t a ↔
    ∀ i x, m.log[i]? = some x → x.1 = t ∨ ¬ x.2.Conflicts a ∨ i ∈ (m.view t).1 := by
  constructor
  · intro h i x hi
    obtain ⟨hlt, rfl⟩ := List.getElem?_eq_some_iff.mp hi
    exact h ⟨i, hlt⟩
  · exact fun h i => h i _ (List.getElem?_eq_getElem i.2)

theorem not_ordered {x : Tid × Access Loc} (hi : m.log[i]? = some x) (ht : x.1 ≠ t)
    (hc : x.2.Conflicts a) (hv : i ∉ (m.view t).1) : ¬ m.Ordered t a := by
  intro h
  rcases ordered_iff.mp h i x hi with hx | hx | hx
  · exact ht hx
  · exact hx hc
  · exact hv hx

theorem Covers.ordered (h : m.Covers (m.view t) a) : m.Ordered t a := by
  refine ordered_iff.mpr fun i x hi => ?_
  by_cases hc : x.2.Conflicts a
  · exact .inr (.inr (h i x hi hc))
  · exact .inr (.inl hc)

variable [DecidableEq Tid]

/-- All accesses are made. -/
def notes (m : Causality Tid V Loc Sync) (t : Tid) (l : List (Access Loc)) :
    Causality Tid V Loc Sync :=
  l.foldl (fun m a => m.note t a) m

section Notes
variable (m : Causality Tid V Loc Sync) (t : Tid) (l : List (Access Loc))

@[simp] theorem earlier_notes : (m.notes t l).earlier = m.earlier := by
  induction l generalizing m with
  | nil => rfl
  | cons a l ih => exact ih (m.note t a)

@[simp] theorem current_notes : (m.notes t l).current = m.current := by
  induction l generalizing m with
  | nil => rfl
  | cons a l ih => exact ih (m.note t a)

@[simp] theorem released_notes : (m.notes t l).released = m.released := by
  induction l generalizing m with
  | nil => rfl
  | cons a l ih => exact ih (m.note t a)

@[simp] theorem pending_notes : (m.notes t l).pending = m.pending := by
  induction l generalizing m with
  | nil => rfl
  | cons a l ih => exact ih (m.note t a)

@[simp] theorem messages_notes (now : V) : (m.notes t l).messages now = m.messages now := by
  unfold messages
  rw [earlier_notes, current_notes]

end Notes

theorem extends_learn (m : Causality Tid V Loc Sync) (t : Tid) (v : View) :
    Extends t [] m (m.learn t v) := by
  refine ⟨(List.append_nil _).symm, fun i hi hlt => absurd hlt (not_lt.mpr hi), ?_,
    fun u hu => Function.update_of_ne hu _ _, fun u _ => rfl⟩
  change _ ≤ Function.update m.view t _ t
  rw [Function.update_self]
  exact le_sup_left

theorem extends_note (m : Causality Tid V Loc Sync) (t : Tid) (a : Access Loc) :
    Extends t [a] m (m.note t a) := by
  refine ⟨rfl, fun i hi hlt => ?_, ?_, fun u hu => Function.update_of_ne hu _ _, fun u _ => rfl⟩
  · have hlen : (m.note t a).log.length = m.log.length + 1 := List.length_append
    obtain rfl : i = m.log.length := by omega
    simp [note, learn]
  · change _ ≤ Function.update m.view t _ t
    rw [Function.update_self]
    exact le_sup_left

theorem extends_notes (m : Causality Tid V Loc Sync) (t : Tid) (l : List (Access Loc)) :
    Extends t l m (m.notes t l) := by
  induction l generalizing m with
  | nil => exact ⟨(List.append_nil _).symm, fun i hi hlt => absurd hlt (not_lt.mpr hi), le_rfl,
      fun u _ => rfl, fun u _ => rfl⟩
  | cons a l ih => exact (extends_note m t a).trans (ih (m.note t a))

theorem perform_cases [DecidableEq Loc] (m : Causality Tid V Loc Sync) (t : Tid)
    (l : List (Access Loc)) : m.perform t l = .fault ∨ m.perform t l = .ok (m.notes t l) := by
  induction l generalizing m with
  | nil => exact .inr rfl
  | cons a l ih =>
      change (if m.Ordered t a then (m.note t a).perform t l else .fault) = _ ∨
        (if m.Ordered t a then (m.note t a).perform t l else .fault) = _
      split
      · exact ih (m.note t a)
      · exact .inl rfl

theorem perform_of_covers [DecidableEq Loc] (h : ∀ a ∈ l, m.Covers (m.view t) a) :
    m.perform t l = .ok (m.notes t l) := by
  induction l generalizing m with
  | nil => rfl
  | cons a l ih =>
      obtain ⟨ha, hl⟩ := List.forall_mem_cons.mp h
      change (if m.Ordered t a then (m.note t a).perform t l else .fault) = _
      rw [if_pos ha.ordered]
      exact ih fun b hb => (hl b hb).own (extends_note m t a)

/-- What is not ordered before the accesses is not ordered after some of them. -/
theorem perform_race [DecidableEq Loc] (ha : a ∈ l) (hrace : ¬ m.Ordered t a) :
    m.perform t l = .fault := by
  induction l generalizing m with
  | nil => cases ha
  | cons b l ih =>
      change (if m.Ordered t b then (m.note t b).perform t l else .fault) = _
      split
      · rename_i hb
        rcases List.mem_cons.mp ha with rfl | ha
        · exact (hrace hb).elim
        · refine ih ha fun h => hrace (ordered_iff.mpr fun i x hi => ?_)
          have hlt : i < m.log.length := (List.getElem?_eq_some_iff.mp hi).1
          have hi' : (m.note t b).log[i]? = some x := (List.getElem?_append_left hlt).trans hi
          refine (ordered_iff.mp h i x hi').imp_right (Or.imp_right fun hv => ?_)
          simpa [note, learn, hlt.ne] using hv
      · rfl

theorem extends_receive (m : Causality Tid V Loc Sync) (t : Tid) (order : MemoryOrder) (w : View) :
    Extends t [] m (m.receive t order w) := by
  have h := extends_learn m t (if order.acquires then w else ⊥)
  exact ⟨h.log, h.own, h.view, h.others, fun u hu => Function.update_of_ne hu _ _⟩

theorem le_receive (h : order.acquires = true) : w ≤ (m.receive t order w).view t := by
  change w ≤ Function.update m.view t (m.view t ⊔ if order.acquires then w else ⊥) t
  rw [Function.update_self, if_pos h]
  exact le_sup_right

theorem extends_append (m : Causality Tid V Loc Sync) (t : Tid) (order : MemoryOrder) (now : V)
    (w : View) : Extends t [] m (m.append t order now w) := by
  have h := extends_learn m t (∅, m.earlier.length + 1)
  exact ⟨h.log, h.own, h.view, h.others, h.fences⟩

theorem extends_update [DecidableEq Sync] (m : Causality Tid V Loc Sync) (t : Tid) (x : Sync)
    (order : MemoryOrder) : Extends t [] m (m.update t x order) := by
  have h := extends_receive m t order (m.released x)
  exact ⟨h.log, h.own, h.view, h.others, h.fences⟩

end Causality

section Rules
variable {t : Tid} {order success failure : MemoryOrder}

/-- No atomic operation, as far as others can see. -/
structure Silent (t : Tid) (l : List (Access Loc)) (m m' : Causality Tid V Loc Sync) : Prop where
  extends_ : m.Extends t l m'
  earlier : m'.earlier = m.earlier
  current : m'.current = m.current
  released : m'.released = m.released

/-- A load of a value, with what its store has released. -/
structure Loaded (order : MemoryOrder) (w : View) (t : Tid) (l : List (Access Loc))
    (m m' : Causality Tid V Loc Sync) : Prop extends Silent t l m m' where
  acquired : order.acquires = true → w ≤ m'.view t

/-- A store of a new value, in the place of `now`. -/
structure Stored (order : MemoryOrder) (now : V) (w : View) (t : Tid) (l : List (Access Loc))
    (m m' : Causality Tid V Loc Sync) : Prop where
  extends_ : m.Extends t l m'
  earlier : m'.earlier = m.messages now
  current : m'.current = w ⊔ if order.releases then m'.view t else ⊥
  released : m'.released = m.released
  last : m'.earlier.length ≤ (m'.view t).2

/-- A store which has read `now`. -/
structure Exchanged (order : MemoryOrder) (now : V) (t : Tid) (l : List (Access Loc))
    (m m' : Causality Tid V Loc Sync) : Prop extends Stored order now m.current t l m m' where
  acquired : order.acquires = true → m.current ≤ m'.view t

/-- An exchange on another object. -/
structure Updated [DecidableEq Sync] (order : MemoryOrder) (x : Sync) (t : Tid)
    (l : List (Access Loc)) (m m' : Causality Tid V Loc Sync) : Prop where
  extends_ : m.Extends t l m'
  earlier : m'.earlier = m.earlier
  current : m'.current = m.current
  released : m'.released = Function.update m.released x
    (m.released x ⊔ if order.releases then m'.view t else ⊥)
  acquired : order.acquires = true → m.released x ≤ m'.view t
  pending : m.released x ≤ m'.pending t

theorem Silent.messages {l : List (Access Loc)} {m m' : Causality Tid V Loc Sync}
    (h : Silent t l m m') (now : V) : m'.messages now = m.messages now := by
  unfold Causality.messages
  rw [h.earlier, h.current]

theorem Stored.messages {now : V} {w : View} {l : List (Access Loc)}
    {m m' : Causality Tid V Loc Sync} (h : Stored order now w t l m m') (new : V) :
    m'.messages new = m.messages now ++ [(new, m'.current)] :=
  congrArg (· ++ [(new, m'.current)]) h.earlier

namespace Causality
variable [DecidableEq Tid] {m : Causality Tid V Loc Sync} {l : List (Access Loc)} {now : V}
variable {w : View}

theorem silent_notes : Silent t l m (m.notes t l) :=
  ⟨extends_notes m t l, earlier_notes m t l, current_notes m t l, released_notes m t l⟩

theorem loaded_notes (i : ℕ) :
    Loaded order w t l m (((m.notes t l).receive t order w).learn t (∅, i)) := by
  let n : Causality Tid V Loc Sync := (m.notes t l).receive t order w
  have h := ((extends_notes m t l).more (extends_receive _ t order w)).more
    (extends_learn n t (∅, i))
  exact ⟨⟨h, earlier_notes m t l, current_notes m t l, released_notes m t l⟩,
    fun ha => (le_receive ha).trans (extends_learn n t (∅, i)).view⟩

theorem stored_append (n : Causality Tid V Loc Sync) (h : Silent t l m n) :
    Stored order now w t l m (n.append t order now w) := by
  refine ⟨h.extends_.more (extends_append n t order now w), ?_, rfl, h.released, ?_⟩
  · change n.earlier ++ [(now, n.current)] = _
    rw [h.earlier, h.current]
    rfl
  · change (n.messages now).length ≤ (Function.update n.view t _ t).2
    rw [Function.update_self]
    exact List.length_append.le.trans le_sup_right

theorem exchanged_notes : Exchanged order now t l m ((m.notes t l).exchange t order now) := by
  let n : Causality Tid V Loc Sync := (m.notes t l).receive t order (m.notes t l).current
  have hl : Loaded order (m.notes t l).current t l m (n.learn t (∅, 0)) := loaded_notes 0
  have hn := (extends_notes m t l).more (extends_receive _ t order (m.notes t l).current)
  have h : Silent t l m n := ⟨hn, earlier_notes m t l, current_notes m t l, released_notes m t l⟩
  have hs : Stored order now (m.notes t l).current t l m ((m.notes t l).exchange t order now) :=
    stored_append n h
  refine ⟨?_, fun ha => ?_⟩
  · rwa [current_notes] at hs
  · have hle : (m.notes t l).current ≤ n.view t := le_receive ha
    rw [current_notes] at hle
    exact hle.trans (extends_append n t order now _).view

theorem updated_notes [DecidableEq Sync] (x : Sync) :
    Updated order x t l m ((m.notes t l).update t x order) := by
  let n : Causality Tid V Loc Sync := (m.notes t l).receive t order ((m.notes t l).released x)
  refine ⟨(extends_notes m t l).more (extends_update _ t x order), earlier_notes m t l,
    current_notes m t l, ?_, fun ha => ?_, ?_⟩
  · change Function.update n.released x (n.released x ⊔ _) = _
    have hr : n.released = m.released := released_notes m t l
    rw [hr]
    rfl
  · have hle : (m.notes t l).released x ≤ n.view t := le_receive ha
    rwa [released_notes] at hle
  · change _ ≤ Function.update (m.notes t l).pending t _ t
    rw [Function.update_self, released_notes]
    exact le_sup_right

theorem load_sat {i : ℕ} {Q : V × Causality Tid V Loc Sync → Prop}
    (h : ∀ v w m', (m.messages now)[i]? = some (v, w) → (m.view t).2 ≤ i →
      Loaded order w t l m m' → Q (v, m')) :
    ((m.notes t l).load t order now i).Sat Q := by
  unfold load
  rw [messages_notes]
  split
  · trivial
  · rename_i v w hi
    split
    · rename_i hle
      exact h v w _ hi ((extends_notes m t l).view.2.trans hle) (loaded_notes i)
    · trivial

end Causality

variable [DecidableEq Tid] [DecidableEq Loc] [DecidableEq Sync]
variable {P : Program Tid O S L V Loc Sync} {o : O × ℕ} {pc : L}
variable {s : S × Causality Tid V Loc Sync} {Q : (S × Causality Tid V Loc Sync) × L → Prop}

/-- The accesses of the next step do not race. -/
def Program.Covered (P : Program Tid O S L V Loc Sync) (t : Tid) (o : O)
    (s : S × Causality Tid V Loc Sync) (pc : L) : Prop :=
  ∀ a ∈ P.accesses o s.1 pc, s.2.Covers (s.2.view t) a

theorem exec_eq_operate (heff : P.effect pc ≠ .fence) (hcov : P.Covered t o.1 s pc) :
    P.exec t o s pc = P.operate t o s.1 pc (s.2.notes t (P.accesses o.1 s.1 pc)) := by
  have hbefore : s.2.before t (P.effect pc) = s.2 := by
    unfold Causality.before
    split
    · contradiction
    · rfl
  unfold Program.exec
  rw [hbefore, Causality.perform_of_covers hcov]
  rfl

theorem exec_plain (heff : P.effect pc = .plain) (hcov : P.Covered t o.1 s pc)
    (h : ∀ m, Silent t (P.accesses o.1 s.1 pc) s.2 m →
      (P.code t o.1 s.1 pc).Sat fun r => Q ((r.1, m), r.2)) : (P.exec t o s pc).Sat Q := by
  rw [exec_eq_operate (by rw [heff]; simp) hcov]
  simp only [Program.operate, heff]
  exact Outcome.sat_map.mpr (h _ Causality.silent_notes)

theorem exec_load_at (heff : P.effect pc = .load order) (hcov : P.Covered t o.1 s pc)
    (h : ∀ i v w m, (s.2.messages (P.value s.1))[i]? = some (v, w) → (s.2.view t).2 ≤ i →
      Loaded order w t (P.accesses o.1 s.1 pc) s.2 m →
      (P.older t o.1 s.1 pc v).Sat fun r => Q ((r.1, m), r.2)) : (P.exec t o s pc).Sat Q := by
  rw [exec_eq_operate (by rw [heff]; simp) hcov]
  simp only [Program.operate, heff]
  exact Outcome.sat_bind.mpr (Causality.load_sat fun v w m hi hle hm =>
    Outcome.sat_map.mpr (h _ v w m hi hle hm))

theorem exec_load (heff : P.effect pc = .load order) (hcov : P.Covered t o.1 s pc)
    (h : ∀ v w m, (v, w) ∈ s.2.messages (P.value s.1) →
      Loaded order w t (P.accesses o.1 s.1 pc) s.2 m →
      (P.older t o.1 s.1 pc v).Sat fun r => Q ((r.1, m), r.2)) : (P.exec t o s pc).Sat Q :=
  exec_load_at heff hcov fun _ v w m hi _ hm => h v w m (List.mem_of_getElem? hi) hm

theorem exec_store (heff : P.effect pc = .store order) (hcov : P.Covered t o.1 s pc)
    (h : ∀ m, Stored order (P.value s.1) ⊥ t (P.accesses o.1 s.1 pc) s.2 m →
      (P.code t o.1 s.1 pc).Sat fun r => Q ((r.1, m), r.2)) : (P.exec t o s pc).Sat Q := by
  rw [exec_eq_operate (by rw [heff]; simp) hcov]
  simp only [Program.operate, heff]
  exact Outcome.sat_map.mpr (h _ (Causality.stored_append _ Causality.silent_notes))

theorem exec_exchange (heff : P.effect pc = .exchange success failure)
    (hcov : P.Covered t o.1 s pc)
    (hsuccess : ∀ m, P.succeeds o.1 s.1 pc = true →
      Exchanged success (P.value s.1) t (P.accesses o.1 s.1 pc) s.2 m →
      (P.code t o.1 s.1 pc).Sat fun r => Q ((r.1, m), r.2))
    (hfailure : ∀ v w m, (v, w) ∈ s.2.messages (P.value s.1) →
      P.succeeds o.1 (P.withValue s.1 v) pc = false →
      Loaded failure w t (P.accesses o.1 s.1 pc) s.2 m →
      (P.older t o.1 s.1 pc v).Sat fun r => Q ((r.1, m), r.2)) : (P.exec t o s pc).Sat Q := by
  rw [exec_eq_operate (by rw [heff]; simp) hcov]
  simp only [Program.operate, heff]
  split
  · rename_i hs
    exact Outcome.sat_map.mpr (hsuccess _ hs.1 Causality.exchanged_notes)
  · refine Outcome.sat_bind.mpr (Causality.load_sat fun v w m hi _ hm => ?_)
    split
    · trivial
    · rename_i hs
      exact Outcome.sat_map.mpr
        (hfailure v w m (List.mem_of_getElem? hi) (Bool.not_eq_true _ ▸ hs) hm)

theorem exec_update {x : Sync} (heff : P.effect pc = .update x order)
    (hcov : P.Covered t o.1 s pc)
    (h : ∀ m, Updated order x t (P.accesses o.1 s.1 pc) s.2 m →
      (P.code t o.1 s.1 pc).Sat fun r => Q ((r.1, m), r.2)) : (P.exec t o s pc).Sat Q := by
  rw [exec_eq_operate (by rw [heff]; simp) hcov]
  simp only [Program.operate, heff]
  exact Outcome.sat_map.mpr (h _ (Causality.updated_notes x))

theorem exec_fence (heff : P.effect pc = .fence)
    (hcov : ∀ a ∈ P.accesses o.1 s.1 pc, s.2.Covers (s.2.view t ⊔ s.2.pending t) a)
    (h : ∀ m, Silent t (P.accesses o.1 s.1 pc) s.2 m →
      (P.code t o.1 s.1 pc).Sat fun r => Q ((r.1, m), r.2)) : (P.exec t o s pc).Sat Q := by
  have hself : (s.2.fence t).view t = s.2.view t ⊔ s.2.pending t := Function.update_self ..
  have hperform : (s.2.before t (P.effect pc)).perform t (P.accesses o.1 s.1 pc) =
      .ok ((s.2.fence t).notes t (P.accesses o.1 s.1 pc)) := by
    rw [heff]
    change (s.2.fence t).perform t _ = _
    refine Causality.perform_of_covers fun a ha => ?_
    rw [hself]
    exact hcov a ha
  unfold Program.exec
  rw [hperform]
  simp only [Outcome.bind, Program.operate, heff]
  have hn := (Causality.extends_learn s.2 t (s.2.pending t)).trans
    (Causality.extends_notes (s.2.fence t) t (P.accesses o.1 s.1 pc))
  exact Outcome.sat_map.mpr (h _ ⟨hn, Causality.earlier_notes _ t _, Causality.current_notes _ t _,
    Causality.released_notes _ t _⟩)

end Rules

end CsNotes.ReleaseAcquire
