import Mathlib.Data.List.Basic
import CsNotes.Lib.Monitor
import CsNotes.ThreadPool.Model

/-!
# The methods of the local queues

`work_stealing_queue` of `thread_pool.cpp`, one step per operation of the
`std::deque` under the mutex. Between `std::move` and `pop_front` or `pop_back`
an element is still in the deque, and what its move constructor left behind. The
pool takes each method as one step, which the mutex makes it.
-/
namespace CsNotes.ThreadPool.WorkStealingQueue
open Interleaving Monitor

variable {T Tid : Type*}

inductive Method (T : Type*) where
  | push (task : T)
  | tryPop
  | trySteal
deriving DecidableEq, Repr

/-- `res` is the optional that is going to be returned. -/
inductive Locals (T : Type*) where
  | pushFront (task : T)
  | frontEmpty
  | moveFront
  | popFront (res : T)
  | backEmpty
  | moveBack
  | popBack (res : T)
deriving DecidableEq, Repr

/-- `push` returns nothing. `movedFrom` is what the move constructor leaves behind. -/
def body (movedFrom : T → T) : Body (Method T) (List T) (Locals T) (Option T) where
  entry
    | .push task => .pushFront task
    | .tryPop => .frontEmpty
    | .trySteal => .backEmpty
  step
    | .pushFront task, q => .ok (task :: q, .inr none)
    | .frontEmpty, q => .ok (q, if q.isEmpty then .inr none else .inl .moveFront)
    | .moveFront, q =>
        match q with
        | [] => .fault
        | x :: q => .ok (movedFrom x :: q, .inl (.popFront x))
    | .popFront res, q =>
        match q with
        | [] => .fault
        | _ :: q => .ok (q, .inr (some res))
    | .backEmpty, q => .ok (q, if q.isEmpty then .inr none else .inl .moveBack)
    | .moveBack, q =>
        match q.getLast? with
        | none => .fault
        | some x => .ok (q.dropLast ++ [movedFrom x], .inl (.popBack x))
    | .popBack res, q =>
        match q with
        | [] => .fault
        | x :: q => .ok ((x :: q).dropLast, .inr (some res))

/-- A method as the pool takes it. -/
def Method.apply : Method T → List T → Option T × List T
  | push task, q => (none, WorkStealingQueue.push task q)
  | tryPop, q =>
      match WorkStealingQueue.tryPop q with
      | none => (none, q)
      | some (x, q) => (some x, q)
  | trySteal, q =>
      match WorkStealingQueue.trySteal q with
      | none => (none, q)
      | some (x, q) => (some x, q)

/-- What the locals say of the queue, which was `q₀` when the method began. -/
def Facts (movedFrom : T → T) (m : Method T) (q₀ : List T) : Locals T → List T → Prop
  | .pushFront task, q => m = .push task ∧ q = q₀
  | .frontEmpty, q => m = .tryPop ∧ q = q₀
  | .moveFront, q => m = .tryPop ∧ q = q₀ ∧ q ≠ []
  | .popFront res, q => m = .tryPop ∧ ∃ rest, q₀ = res :: rest ∧ q = movedFrom res :: rest
  | .backEmpty, q => m = .trySteal ∧ q = q₀
  | .moveBack, q => m = .trySteal ∧ q = q₀ ∧ q ≠ []
  | .popBack res, q => m = .trySteal ∧ ∃ rest, q₀ = rest ++ [res] ∧ q = rest ++ [movedFrom res]

theorem annotated (movedFrom : T → T) :
    Annotated (body movedFrom) (Atomic Method.apply) (Facts movedFrom) where
  entry := by
    intro m q
    cases m <;> exact ⟨rfl, rfl⟩
  step := by
    intro m q₀ l q h
    cases l with
    | pushFront task =>
        obtain ⟨rfl, rfl⟩ := h
        rfl
    | frontEmpty =>
        obtain ⟨rfl, rfl⟩ := h
        cases q with
        | nil => rfl
        | cons x q => exact ⟨rfl, rfl, List.cons_ne_nil x q⟩
    | moveFront =>
        obtain ⟨rfl, rfl, hne⟩ := h
        cases q with
        | nil => exact (hne rfl).elim
        | cons x q => exact ⟨rfl, q, rfl, rfl⟩
    | popFront res =>
        obtain ⟨rfl, rest, rfl, rfl⟩ := h
        rfl
    | backEmpty =>
        obtain ⟨rfl, rfl⟩ := h
        cases q with
        | nil => rfl
        | cons x q => exact ⟨rfl, rfl, List.cons_ne_nil x q⟩
    | moveBack =>
        obtain ⟨rfl, rfl, hne⟩ := h
        obtain ⟨rest, x, rfl⟩ := (List.eq_nil_or_concat' q).resolve_left hne
        simp only [body, List.getLast?_concat, List.dropLast_concat]
        exact ⟨rfl, rest, rfl, rfl⟩
    | popBack res =>
        obtain ⟨rfl, rest, rfl, rfl⟩ := h
        have hpop : (body movedFrom).step (.popBack res) (rest ++ [movedFrom res]) =
            .ok (rest, .inr (some res)) := by
          cases rest with
          | nil => rfl
          | cons x rest =>
              have hdrop : (x :: rest ++ [movedFrom res]).dropLast = x :: rest :=
                List.dropLast_concat
              exact congrArg (fun q => Outcome.ok (q, _)) hdrop
        rw [hpop]
        simp [Atomic, Method.apply, trySteal]

variable {m : Method T} {q : List T}

/-- The task that a call brings. -/
def Method.brings : Method T → List T
  | push task => [task]
  | tryPop | trySteal => []

/-- The tasks that were pushed, and those that were taken. -/
def pushed (h : List (Tid × Method T × Option T)) : List T := h.flatMap fun x => x.2.1.brings

def taken (h : List (Tid × Method T × Option T)) : List T := h.flatMap fun x => x.2.2.toList

theorem apply_perm {r : Option T} {q' : List T} (h : Atomic Method.apply q m r q') :
    (q ++ m.brings).Perm (r.toList ++ q') := by
  cases m with
  | push task =>
      cases h
      exact List.perm_append_singleton task q
  | tryPop =>
      rw [Method.brings, List.append_nil]
      cases q <;> cases h <;> exact List.Perm.refl _
  | trySteal =>
      rw [Method.brings, List.append_nil]
      rcases List.eq_nil_or_concat' q with rfl | ⟨rest, x, rfl⟩
      · cases h
        exact List.Perm.refl _
      · simp only [Atomic, Method.apply, trySteal, List.getLast?_concat, List.dropLast_concat,
          Option.map_some, Prod.mk.injEq] at h
        obtain ⟨rfl, rfl⟩ := h
        exact List.perm_append_singleton x rest

theorem tasks_perm {h : List (Tid × Method T × Option T)}
    (hrun : Sequential (Atomic Method.apply) [] h q) :
    (pushed h).Perm (taken h ++ q) := by
  induction hrun with
  | nil => exact List.Perm.refl _
  | @snoc h t m r d d' _ hspec ih =>
      have hpushed : pushed (h ++ [(t, m, r)]) = pushed h ++ m.brings := by simp [pushed]
      have htaken : taken (h ++ [(t, m, r)]) = taken h ++ r.toList := by simp [taken]
      rw [hpushed, htaken, List.append_assoc]
      refine (ih.append_right m.brings).trans ?_
      rw [List.append_assoc]
      exact (apply_perm hspec).append_left (taken h)

variable [DecidableEq Tid]
variable {c : Config Tid (Monitor.Shared Tid (Method T) (List T) (Option T))
  (Monitor.PC (Method T) (Locals T) (Option T))}

/-- The methods of a queue that any threads use take effect one after the other, as those of
the pool do, and every task pushed is in the queue or was taken, once. -/
theorem work_stealing_queue_atomic (movedFrom : T → T)
    (hc : Reach (Monitor.exec (body movedFrom)) (· = Monitor.start []) c) :
    ∃ q, Sequential (Atomic Method.apply) [] c.shared.history q ∧
      (c.shared.mutex = none → c.shared.data = q) ∧
      (∀ t, answers t c.shared.history = c.shared.returned t ++ (c.pc t).owed) ∧
      (pushed c.shared.history).Perm (taken c.shared.history ++ q) := by
  obtain ⟨q, hrun, hdata, hanswers⟩ := linearizable (annotated movedFrom).meets hc
  exact ⟨q, hrun, hdata, hanswers, tasks_perm hrun⟩

/-- Thread `true` pushes two tasks, and `false` is about to steal the first of them. -/
def sample : List (Bool × Method ℕ) :=
  List.replicate 4 (true, .push 1) ++ List.replicate 4 (true, .push 2) ++
    [(false, .trySteal), (true, .tryPop)] ++ List.replicate 3 (false, .trySteal)

theorem work_stealing_queue_atomic_sample :
    ∃ c q, Config.run (Monitor.exec (body id)) sample (Monitor.start []) = .ok c ∧
      c.pc false = .inside .trySteal (.popBack 1) ∧
      Sequential (Atomic Method.apply) [] c.shared.history q ∧
      (pushed c.shared.history).Perm (taken c.shared.history ++ q) := by
  have hrun : ∃ c, Config.run (Monitor.exec (body id)) sample (Monitor.start []) = .ok c ∧
      c.pc false = .inside .trySteal (.popBack 1) := ⟨_, rfl, rfl⟩
  obtain ⟨c, hc, hpc⟩ := hrun
  obtain ⟨q, hseq, -, -, hperm⟩ := work_stealing_queue_atomic id (ReachIf.run (.start rfl) hc)
  exact ⟨c, q, hc, hpc, hseq, hperm⟩

end CsNotes.ThreadPool.WorkStealingQueue
