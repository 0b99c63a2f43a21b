import Mathlib.Data.List.Induction
import Mathlib.Data.List.Perm.Basic

/-!
# Histories of containers used by several threads

A history lists the operations in the order in which they took effect. It is
legal for a stack, or for a queue, when replaying it on the sequential container
gives every operation the answer it has in the history.
-/
namespace CsNotes.History

/-- One operation taking effect: by whom, and with which value. -/
inductive Event (Tid A : Type*) where
  | push (t : Tid) (v : A)
  | pop (t : Tid) (v : A)
  | empty (t : Tid)
deriving DecidableEq, Repr

namespace Event
variable {Tid A : Type*}

def thread : Event Tid A → Tid
  | push t _ | pop t _ | empty t => t

def pushed? : Event Tid A → Option A
  | push _ v => some v
  | _ => none

def popped? : Event Tid A → Option A
  | pop _ v => some v
  | _ => none

/-- What the operation answers to thread `t`, if it is a removal by `t`. -/
def answer? [DecidableEq Tid] (t : Tid) : Event Tid A → Option (Option A)
  | push _ _ => none
  | pop u v => if u = t then some (some v) else none
  | empty u => if u = t then some none else none

end Event

variable {Tid A : Type*} {h : List (Event Tid A)} {l : List A} {t : Tid} {v : A}

def pushed (h : List (Event Tid A)) : List A := h.filterMap Event.pushed?
def popped (h : List (Event Tid A)) : List A := h.filterMap Event.popped?

/-- The answers to the removals of one thread, in order. -/
def answers [DecidableEq Tid] (t : Tid) (h : List (Event Tid A)) : List (Option A) :=
  h.filterMap (Event.answer? t)

@[simp] theorem pushed_nil : pushed ([] : List (Event Tid A)) = [] := rfl
@[simp] theorem popped_nil : popped ([] : List (Event Tid A)) = [] := rfl
@[simp] theorem pushed_push : pushed (h ++ [.push t v]) = pushed h ++ [v] := by
  simp [pushed, Event.pushed?]
@[simp] theorem pushed_pop : pushed (h ++ [.pop t v]) = pushed h := by
  simp [pushed, Event.pushed?]
@[simp] theorem pushed_empty : pushed (h ++ [.empty t]) = pushed h := by
  simp [pushed, Event.pushed?]
@[simp] theorem popped_push : popped (h ++ [.push t v]) = popped h := by
  simp [popped, Event.popped?]
@[simp] theorem popped_pop : popped (h ++ [.pop t v]) = popped h ++ [v] := by
  simp [popped, Event.popped?]
@[simp] theorem popped_empty : popped (h ++ [.empty t]) = popped h := by
  simp [popped, Event.popped?]

section Answers
variable [DecidableEq Tid] {u : Tid}

@[simp] theorem answers_nil : answers t ([] : List (Event Tid A)) = [] := rfl
@[simp] theorem answers_push : answers t (h ++ [.push u v]) = answers t h := by
  simp [answers, Event.answer?]
@[simp] theorem answers_pop_self : answers t (h ++ [.pop t v]) = answers t h ++ [some v] := by
  simp [answers, Event.answer?]
@[simp] theorem answers_empty_self : answers t (h ++ [.empty t]) = answers t h ++ [none] := by
  simp [answers, Event.answer?]
theorem answers_pop_of_ne (hu : u ≠ t) : answers t (h ++ [.pop u v]) = answers t h := by
  simp [answers, Event.answer?, hu]
theorem answers_empty_of_ne (hu : u ≠ t) : answers t (h ++ [.empty u]) = answers t h := by
  simp [answers, Event.answer?, hu]

end Answers

/-- The history is one of a sequential stack, which now holds `l`, top first. -/
inductive StackRun : List (Event Tid A) → List A → Prop
  | nil : StackRun [] []
  | push {h : List (Event Tid A)} {l : List A} (t : Tid) (v : A) :
      StackRun h l → StackRun (h ++ [.push t v]) (v :: l)
  | pop {h : List (Event Tid A)} {l : List A} (t : Tid) (v : A) :
      StackRun h (v :: l) → StackRun (h ++ [.pop t v]) l
  | empty {h : List (Event Tid A)} (t : Tid) : StackRun h [] → StackRun (h ++ [.empty t]) []

/-- The history is one of a sequential queue, which now holds `l`, oldest first. -/
inductive QueueRun : List (Event Tid A) → List A → Prop
  | nil : QueueRun [] []
  | push {h : List (Event Tid A)} {l : List A} (t : Tid) (v : A) :
      QueueRun h l → QueueRun (h ++ [.push t v]) (l ++ [v])
  | pop {h : List (Event Tid A)} {l : List A} (t : Tid) (v : A) :
      QueueRun h (v :: l) → QueueRun (h ++ [.pop t v]) l
  | empty {h : List (Event Tid A)} (t : Tid) : QueueRun h [] → QueueRun (h ++ [.empty t]) []

/-- Nothing is lost or invented: what was pushed was popped or is still there. -/
theorem StackRun.perm (r : StackRun h l) : (pushed h).Perm (popped h ++ l) := by
  induction r with
  | nil => simp
  | @push h l t v _ ih =>
      rw [pushed_push, popped_push]
      calc (pushed h ++ [v]).Perm (popped h ++ l ++ [v]) := ih.append_right [v]
        _ = popped h ++ (l ++ [v]) := List.append_assoc ..
        _ |>.Perm (popped h ++ v :: l) := (List.perm_append_singleton v l).append_left _
  | @pop h l t v _ ih => simpa using ih
  | empty t _ ih => simpa using ih

/-- The popped values, then those still there, are the pushed ones in order. -/
theorem QueueRun.pushed_eq (r : QueueRun h l) : pushed h = popped h ++ l := by
  induction r with
  | nil => rfl
  | push t v _ ih => simp [ih]
  | pop t v _ ih => simp [ih]
  | empty t _ ih => simpa using ih

/-- Where only one thread removes, its answers are all that was popped. -/
theorem filterMap_answers [DecidableEq Tid] [Subsingleton Tid] (t : Tid) :
    ∀ h : List (Event Tid A), (answers t h).filterMap id = popped h := by
  intro h
  induction h with
  | nil => rfl
  | cons e h ih =>
      unfold answers popped at ih ⊢
      cases e with
      | push u v => simpa [List.filterMap_cons, Event.answer?, Event.popped?] using ih
      | pop u v =>
          simpa [List.filterMap_cons, Event.answer?, Event.popped?, Subsingleton.elim u t] using ih
      | empty u =>
          simpa [List.filterMap_cons, Event.answer?, Event.popped?, Subsingleton.elim u t] using ih

theorem QueueRun.of_concat {e : Event Tid A} (r : QueueRun (h ++ [e]) l) :
    ∃ l', QueueRun h l' ∧ ∀ t, e = .empty t → l' = [] := by
  generalize hx : h ++ [e] = h' at r
  cases r with
  | nil => simp at hx
  | push t v r =>
      obtain ⟨rfl, rfl⟩ := List.append_inj' hx rfl |>.imp id List.singleton_inj.mp
      exact ⟨_, r, fun _ h => by cases h⟩
  | pop t v r =>
      obtain ⟨rfl, rfl⟩ := List.append_inj' hx rfl |>.imp id List.singleton_inj.mp
      exact ⟨_, r, fun _ h => by cases h⟩
  | empty t r =>
      obtain ⟨rfl, rfl⟩ := List.append_inj' hx rfl |>.imp id List.singleton_inj.mp
      exact ⟨_, r, fun _ _ => rfl⟩

theorem QueueRun.of_append {h₂ : List (Event Tid A)} (r : QueueRun (h ++ h₂) l) :
    ∃ l', QueueRun h l' := by
  induction h₂ using List.reverseRecOn generalizing l with
  | nil => exact ⟨l, by simpa using r⟩
  | append_singleton h₂ e ih =>
      rw [← List.append_assoc] at r
      obtain ⟨l', hr, -⟩ := r.of_concat
      exact ih hr

/-- A removal fails only when all that was pushed before has been popped. -/
theorem QueueRun.pushed_eq_popped {h₂ : List (Event Tid A)}
    (r : QueueRun (h ++ .empty t :: h₂) l) : pushed h = popped h := by
  rw [List.append_cons] at r
  obtain ⟨l', hr⟩ := r.of_append
  obtain ⟨l'', hr, hnil⟩ := hr.of_concat
  rw [hr.pushed_eq, hnil t rfl, List.append_nil]

end CsNotes.History
