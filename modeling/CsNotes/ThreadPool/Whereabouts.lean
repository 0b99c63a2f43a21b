import CsNotes.Lib.Places
import CsNotes.ThreadPool.Destruction

/-!
# Where a task is

While the queues are there, every submitted task is at one place: about to be
pushed, in the global queue, in one local queue, in the hands of one thread, or
finished. A thread that looks for a task elsewhere has found its own queue empty,
and nobody else pushes to it, so whom it steals from is another worker.
-/
namespace CsNotes.ThreadPool
open Interleaving Places

variable {N : ℕ} {s s' : Shared N} {t u : Thread N} {k : Fin N} {o : Call} {pc pc' : PC}
variable {c d : Config (Thread N) (Shared N) PC} {st : List ℕ} {x : ℕ}

/-- A pool as constructed. -/
def Empty (c : Config (Thread N) (Shared N) PC) : Prop := c = start [] (fun _ => []) 0

/-- The queues are not destroyed by this step. -/
def Standing (c : Config (Thread N) (Shared N) PC) (t : Thread N) (_ : Call) : Prop :=
  c.pc t ≠ .destroyLocalQueues

inductive Place (N : ℕ) where
  | submitting (t : Thread N)
  | tasks
  | queue (k : Fin N)
  | hands (t : Thread N)
  | finished
deriving DecidableEq

/-- The tasks a thread is inside of. -/
def PC.stack : PC → List ℕ
  | popLocal st | popGlobal st | countQueues st | steal st _ _ | yield st | run st | choose st _
  | pushGlobal st _ | pushLocal st _ => st
  | _ => []

/-- The task a thread is about to push. -/
def PC.submitting : PC → Option ℕ
  | choose _ x | pushGlobal _ x | pushLocal _ x => some x
  | _ => none

/-- Past its own queue in `runPendingTask`. -/
def PC.Searching : PC → Prop
  | popGlobal _ | countQueues _ | steal _ _ _ => True
  | _ => False

def Shared.queue (s : Shared N) (i : ℕ) : List ℕ := ((s.localQueues.getD [])[i]?).getD []

/-- The tasks at a place, the newest of a local queue first. -/
def contents (c : Config (Thread N) (Shared N) PC) : Place N → List ℕ
  | .submitting t => (c.pc t).submitting.toList
  | .tasks => c.shared.tasks.getD []
  | .queue k => c.shared.queue k
  | .hands t => (c.pc t).stack
  | .finished => c.shared.finished

/-- What a step does to the tasks. -/
inductive Flow (c d : Config (Thread N) (Shared N) PC) (t : Thread N) : Prop
  | same : contents d = contents c → d.shared.submitted = c.shared.submitted →
      d.shared.started = c.shared.started → Flow c d t
  | submit : Adds (contents c) (contents d) c.shared.submitted (.submitting t) →
      d.shared.submitted = c.shared.submitted + 1 → d.shared.started = c.shared.started →
      Flow c d t
  | pushGlobal (x : ℕ) : Moves (contents c) (contents d) x (.submitting t) .tasks →
      d.shared.submitted = c.shared.submitted → d.shared.started = c.shared.started → Flow c d t
  | pushLocal (x : ℕ) (k : Fin N) : Moves (contents c) (contents d) x (.submitting t) (.queue k) →
      t = .worker k → contents d (.queue k) = x :: contents c (.queue k) →
      d.shared.submitted = c.shared.submitted → d.shared.started = c.shared.started → Flow c d t
  | popGlobal (x : ℕ) : Moves (contents c) (contents d) x .tasks (.hands t) →
      d.shared.submitted = c.shared.submitted → d.shared.started = c.shared.started ++ [x] →
      Flow c d t
  | popLocal (x : ℕ) (k : Fin N) : Moves (contents c) (contents d) x (.queue k) (.hands t) →
      t = .worker k → contents c (.queue k) = x :: contents d (.queue k) →
      d.shared.submitted = c.shared.submitted → d.shared.started = c.shared.started ++ [x] →
      Flow c d t
  | steal (x : ℕ) (k : Fin N) : Moves (contents c) (contents d) x (.queue k) (.hands t) →
      (c.pc t).Searching → contents c (.queue k) = contents d (.queue k) ++ [x] →
      d.shared.submitted = c.shared.submitted → d.shared.started = c.shared.started ++ [x] →
      Flow c d t
  | finish (x : ℕ) : Moves (contents c) (contents d) x (.hands t) .finished →
      d.shared.submitted = c.shared.submitted → d.shared.started = c.shared.started → Flow c d t

abbrev after (c : Config (Thread N) (Shared N) PC) (t : Thread N) (r : Shared N × PC) :
    Config (Thread N) (Shared N) PC := ⟨r.1, Function.update c.pc t r.2⟩

theorem hands_after : contents (after c t (s', pc')) (.hands t) = pc'.stack :=
  congrArg PC.stack (Function.update_self t pc' c.pc)

theorem submitting_after :
    contents (after c t (s', pc')) (.submitting t) = pc'.submitting.toList :=
  congrArg (fun pc => (PC.submitting pc).toList) (Function.update_self t pc' c.pc)

theorem contents_after {p : Place N} (submitting : p = .submitting t →
      pc'.submitting = (c.pc t).submitting)
    (tasks : p = .tasks → s'.tasks = c.shared.tasks)
    (queue : ∀ k, p = .queue k → s'.queue k = c.shared.queue k)
    (hands : p = .hands t → pc'.stack = (c.pc t).stack)
    (finished : p = .finished → s'.finished = c.shared.finished) :
    contents (after c t (s', pc')) p = contents c p := by
  have other : ∀ {B : Type} (f : PC → B) u, (u = t → f pc' = f (c.pc t)) →
      f (Function.update c.pc t pc' u) = f (c.pc u) := by
    intro B f u hf
    by_cases hu : u = t
    · subst hu
      rw [Function.update_self, hf rfl]
    · rw [Function.update_of_ne hu]
  cases p with
  | submitting u =>
      exact congrArg Option.toList (other PC.submitting u fun hu => submitting (by rw [hu]))
  | tasks => exact congrArg (Option.getD · []) (tasks rfl)
  | queue k => exact queue k rfl
  | hands u => exact other PC.stack u fun hu => hands (by rw [hu])
  | finished => exact finished rfl

theorem queue_setLocalQueue {l : List (List ℕ)} (hl : s.localQueues = some l) {i j : ℕ}
    (hi : i < l.length) (q : List ℕ) :
    (s.setLocalQueue i q).queue j = if j = i then q else s.queue j := by
  unfold Shared.queue Shared.setLocalQueue
  rw [hl]
  by_cases hj : j = i
  · subst hj
    simp [hi]
  · simp [hj, List.getElem?_set_ne (Ne.symm hj)]

theorem localQueue_eq_ok {B : Type*} {f : List ℕ → Outcome B} {i : ℕ} {b : B} :
    s.localQueue i f = .ok b ↔ ∃ l, s.localQueues = some l ∧ i < l.length ∧
      f (s.queue i) = .ok b := by
  unfold Shared.localQueue Shared.queue
  cases hl : s.localQueues with
  | none => simp
  | some l =>
      cases hq : l[i]? with
      | none =>
          have hlen := List.getElem?_eq_none_iff.mp hq
          simp [Nat.not_lt.mpr hlen]
      | some q =>
          have hlen := (List.getElem?_eq_some_iff.mp hq).1
          simp [hlen]

theorem Flow.quiet (tasks : s'.tasks = c.shared.tasks)
    (queues : s'.localQueues = c.shared.localQueues) (finished : s'.finished = c.shared.finished)
    (submitted : s'.submitted = c.shared.submitted) (started : s'.started = c.shared.started)
    (stack : pc'.stack = (c.pc t).stack) (submitting : pc'.submitting = (c.pc t).submitting) :
    Flow c (after c t (s', pc')) t := by
  refine .same (funext fun p => ?_) submitted started
  refine contents_after (fun _ => submitting) (fun _ => tasks) (fun k _ => ?_) (fun _ => stack)
    fun _ => finished
  unfold Shared.queue
  rw [queues]

theorem stack_resume (t : Thread N) (st : List ℕ) : (PC.resume t st).stack = st := by
  cases st with
  | nil => cases t <;> rfl
  | cons x st => rfl

theorem submitting_resume (t : Thread N) (st : List ℕ) : (PC.resume t st).submitting = none := by
  cases st with
  | nil => cases t <;> rfl
  | cons x st => rfl

theorem stack_tryStealTask (st : List ℕ) (i n : ℕ) : (PC.tryStealTask st i n).stack = st := by
  unfold PC.tryStealTask
  split <;> rfl

theorem submitting_tryStealTask (st : List ℕ) (i n : ℕ) :
    (PC.tryStealTask st i n).submitting = none := by
  unfold PC.tryStealTask
  split <;> rfl

theorem trySteal_eq_some {q q' : List ℕ} (h : WorkStealingQueue.trySteal q = some (x, q')) :
    q = q' ++ [x] := by
  obtain ⟨y, hy, he⟩ := Option.map_eq_some_iff.mp h
  cases he
  exact (List.dropLast_append_getLast? _ hy).symm

theorem moves_take {p : Place N} (hp : p = .tasks ∨ ∃ k, p = .queue k)
    (submitting : (c.pc t).submitting = none) (stack : (c.pc t).stack = st)
    (finished : s'.finished = c.shared.finished)
    (tasks : p ≠ .tasks → s'.tasks = c.shared.tasks)
    (queue : ∀ k, p ≠ .queue k → s'.queue k = c.shared.queue k)
    (source : Extra x (contents (after c t (s', .run (x :: st))) p) (contents c p)) :
    Moves (contents c) (contents (after c t (s', .run (x :: st)))) x p (.hands t) := by
  constructor
  case ne => rcases hp with rfl | ⟨k, rfl⟩ <;> simp
  case source => exact source
  case target =>
    have hc : contents c (.hands t) = st := stack
    rw [hc, hands_after]
    exact extra_cons
  case rest =>
    intro q hqp hq
    exact contents_after (fun _ => submitting.symm) (fun h => tasks fun hp => hqp (h.trans hp.symm))
      (fun k h => queue k fun hp => hqp (h.trans hp.symm)) (fun h => (hq h).elim) fun _ => finished

theorem moves_push {p : Place N} (hp : p = .tasks ∨ ∃ k, p = .queue k)
    (submitting : (c.pc t).submitting = some x) (stack : (c.pc t).stack = st)
    (finished : s'.finished = c.shared.finished)
    (tasks : p ≠ .tasks → s'.tasks = c.shared.tasks)
    (queue : ∀ k, p ≠ .queue k → s'.queue k = c.shared.queue k)
    (target : Extra x (contents c p) (contents (after c t (s', .resume t st)) p)) :
    Moves (contents c) (contents (after c t (s', .resume t st))) x (.submitting t) p := by
  constructor
  case ne => rcases hp with rfl | ⟨k, rfl⟩ <;> simp
  case source =>
    have hc : contents c (.submitting t) = [x] := by simp [contents, submitting]
    rw [hc, submitting_after, submitting_resume]
    exact extra_cons
  case target => exact target
  case rest =>
    intro q hq hqp
    exact contents_after (fun h => (hq h).elim) (fun h => tasks fun hp => hqp (h.trans hp.symm))
      (fun k h => queue k fun hp => hqp (h.trans hp.symm))
      (fun _ => (stack_resume t st).trans stack.symm) fun _ => finished

theorem moves_finish (submitting : (c.pc t).submitting = none) (stack : (c.pc t).stack = x :: st) :
    Moves (contents c)
      (contents (after c t ({ c.shared with finished := c.shared.finished ++ [x] }, .resume t st)))
      x (.hands t) .finished := by
  constructor
  case ne => simp
  case source =>
    have hc : contents c (.hands t) = x :: st := stack
    rw [hc, hands_after, stack_resume]
    exact extra_cons
  case target => exact extra_append
  case rest =>
    intro q hq hqf
    exact contents_after (fun _ => (submitting_resume t st).trans submitting.symm) (fun _ => rfl)
      (fun _ _ => rfl) (fun h => (hq h).elim) fun h => (hqf h).elim

theorem adds_submit {y : ℕ} (hnew : ∀ p, c.shared.submitted ∉ contents c p)
    (submitting : (c.pc t).submitting = none) (stack : (c.pc t).stack = st)
    (hy : y = c.shared.submitted) :
    Adds (contents c)
      (contents (after c t ({ c.shared with submitted := c.shared.submitted + 1 },
        .choose st y))) c.shared.submitted (.submitting t) := by
  subst hy
  constructor
  case new => exact hnew
  case target =>
    have hc : contents c (.submitting t) = [] := by simp [contents, submitting]
    rw [hc, submitting_after]
    exact extra_cons
  case rest =>
    intro q hq
    exact contents_after (fun h => (hq h).elim) (fun _ => rfl) (fun _ _ => rfl)
      (fun _ => stack.symm) fun _ => rfl

theorem moves_takeLocal {l : List (List ℕ)} (hl : c.shared.localQueues = some l) {q : List ℕ}
    (hk : (k : ℕ) < l.length) (submitting : (c.pc t).submitting = none)
    (stack : (c.pc t).stack = st) (hq : Extra x q (c.shared.queue k)) :
    Moves (contents c)
      (contents (after c t ({ c.shared.setLocalQueue k q with
        started := (c.shared.setLocalQueue k q).started ++ [x] }, .run (x :: st))))
      x (.queue k) (.hands t) := by
  refine moves_take (.inr ⟨k, rfl⟩) submitting stack rfl (fun _ => rfl) (fun j hj => ?_) ?_
  · exact (queue_setLocalQueue hl hk q).trans (if_neg fun h => hj (by rw [Fin.ext h]))
  · change Extra x ((c.shared.setLocalQueue k q).queue k) (c.shared.queue k)
    rw [queue_setLocalQueue hl hk, if_pos rfl]
    exact hq

section
variable {r : Shared N × PC}

theorem flow_quiet {pc' : PC} (hr : r = (c.shared, pc')) (hst : pc'.stack = (c.pc t).stack)
    (hsub : pc'.submitting = (c.pc t).submitting) : Flow c (after c t r) t := by
  subst hr
  exact .quiet rfl rfl rfl rfl rfl hst hsub

theorem flow_popLocal (hpc : c.pc (.worker k) = .popLocal st)
    (hk : c.shared.index (.worker k) = k)
    (hx : exec (.worker k) o c.shared (.popLocal st) = .ok r) :
    Flow c (after c (.worker k) r) (.worker k) := by
  obtain ⟨l, hl, hi, hx⟩ := localQueue_eq_ok.mp hx
  rw [hk] at hi hx
  cases hqk : c.shared.queue k with
  | nil =>
      rw [hqk] at hx
      cases hx
      exact flow_quiet rfl (by rw [hpc]; rfl) (by rw [hpc]; rfl)
  | cons x q =>
      rw [hqk] at hx
      cases hx
      have hstack : (c.pc (.worker k)).stack = st := by rw [hpc]; rfl
      have hmoves := moves_takeLocal hl hi (by rw [hpc]; rfl) hstack (hqk ▸ extra_cons)
      exact .popLocal x k hmoves rfl (hqk.trans (congrArg (x :: ·)
        ((queue_setLocalQueue hl hi q).trans (if_pos rfl)).symm)) rfl rfl

theorem flow_popGlobal (hpc : c.pc t = .popGlobal st)
    (hx : exec t o c.shared (.popGlobal st) = .ok r) : Flow c (after c t r) t := by
  simp only [exec, Shared.globalQueue] at hx
  split at hx
  · cases hx
  · rename_i q hqs
    cases q with
    | nil =>
        cases hx
        exact flow_quiet rfl (by rw [hpc]; rfl) (by rw [hpc]; rfl)
    | cons x q =>
        cases hx
        refine .popGlobal x (moves_take (.inl rfl) (by rw [hpc]; rfl) (by rw [hpc]; rfl)
          rfl (fun h => (h rfl).elim) (fun _ _ => rfl) ?_) rfl rfl
        change Extra x q (c.shared.tasks.getD [])
        rw [hqs]
        exact extra_cons

theorem flow_steal {i n : ℕ} (hpc : c.pc t = .steal st i n)
    (hN : ∀ l, c.shared.localQueues = some l → l.length = N)
    (hx : exec t o c.shared (.steal st i n) = .ok r) : Flow c (after c t r) t := by
  obtain ⟨l, hl, hi, hx⟩ := localQueue_eq_ok.mp hx
  let k : Fin N := ⟨victim (c.shared.index t) i n, hN l hl ▸ hi⟩
  cases hqk : WorkStealingQueue.trySteal (c.shared.queue k) with
  | none =>
      rw [hqk] at hx
      cases hx
      refine flow_quiet rfl ?_ ?_ <;> rw [hpc]
      · exact stack_tryStealTask _ _ _
      · exact submitting_tryStealTask _ _ _
  | some y =>
      obtain ⟨x, q⟩ := y
      rw [hqk] at hx
      cases hx
      have hlast := trySteal_eq_some hqk
      have hstack : (c.pc t).stack = st := by rw [hpc]; rfl
      have hmoves := moves_takeLocal (k := k) hl hi (by rw [hpc]; rfl) hstack
        (hlast ▸ extra_append)
      exact .steal x k hmoves (by rw [hpc]; trivial) (hlast.trans (congrArg (· ++ [x])
        ((queue_setLocalQueue hl hi q).trans (if_pos rfl)).symm)) rfl rfl

theorem flow_run (hnew : ∀ p, c.shared.submitted ∉ contents c p) (hpc : c.pc t = .run st)
    (hx : exec t o c.shared (.run st) = .ok r) : Flow c (after c t r) t := by
  cases o with
  | submit =>
      cases hx
      exact .submit (adds_submit hnew (by rw [hpc]; rfl) (by rw [hpc]; rfl) rfl) rfl rfl
  | runPendingTask =>
      cases hx
      exact flow_quiet rfl (by rw [hpc]; rfl) (by rw [hpc]; rfl)
  | finish =>
      cases st with
      | nil => cases hx
      | cons x rest =>
          cases hx
          exact .finish x (moves_finish (by rw [hpc]; rfl) (by rw [hpc]; rfl)) rfl rfl
  | destroy =>
      cases st <;> cases hx

theorem flow_pushGlobal (hpc : c.pc t = .pushGlobal st x)
    (hx : exec t o c.shared (.pushGlobal st x) = .ok r) : Flow c (after c t r) t := by
  simp only [exec, Shared.globalQueue] at hx
  split at hx <;> cases hx
  rename_i q hqs
  refine .pushGlobal x (moves_push (.inl rfl) (by rw [hpc]; rfl) (by rw [hpc]; rfl)
    rfl (fun h => (h rfl).elim) (fun _ _ => rfl) ?_) rfl rfl
  change Extra x (c.shared.tasks.getD []) (q ++ [x])
  rw [hqs]
  exact extra_append

theorem flow_pushLocal (hpc : c.pc (.worker k) = .pushLocal st x)
    (hk : c.shared.index (.worker k) = k)
    (hx : exec (.worker k) o c.shared (.pushLocal st x) = .ok r) :
    Flow c (after c (.worker k) r) (.worker k) := by
  obtain ⟨l, hl, hi, hx⟩ := localQueue_eq_ok.mp hx
  rw [hk] at hi hx
  cases hx
  have hself : contents (after c (.worker k) (c.shared.setLocalQueue k
      (WorkStealingQueue.push x (c.shared.queue k)), .resume (.worker k) st)) (.queue k) =
      x :: c.shared.queue k := (queue_setLocalQueue hl hi _).trans (if_pos rfl)
  refine .pushLocal x k (moves_push (.inr ⟨k, rfl⟩) (by rw [hpc]; rfl) (by rw [hpc]; rfl)
    rfl (fun _ => rfl) (fun j hj => ?_) (hself ▸ extra_cons)) rfl hself rfl rfl
  exact (queue_setLocalQueue hl hi _).trans (if_neg fun h => hj (by rw [Fin.ext h]))

theorem flow (hG : Global c.shared ()) (hL : Local c.shared () t (c.pc t))
    (hq : c.shared.localQueues ≠ none) (hp : Standing c t o)
    (hnew : ∀ p, c.shared.submitted ∉ contents c p)
    (hx : exec t o c.shared (c.pc t) = .ok r) : Flow c (after c t r) t := by
  have hquiet : ∀ pc', r = (c.shared, pc') → pc'.stack = (c.pc t).stack →
      pc'.submitting = (c.pc t).submitting → Flow c (after c t r) t := fun _ => flow_quiet
  cases hpc : c.pc t <;> rw [hpc] at hx hquiet hL
  case start =>
    cases t with
    | owner => cases hx
    | worker k =>
        cases hx
        exact .quiet rfl rfl rfl rfl rfl (by rw [hpc]; rfl) (by rw [hpc]; rfl)
  case stopRequested =>
    cases t with
    | owner => cases hx
    | worker k =>
        simp only [exec] at hx
        split at hx <;> cases hx
        · exact .quiet rfl rfl rfl rfl rfl (by rw [hpc]; rfl) (by rw [hpc]; rfl)
        · exact hquiet _ rfl rfl rfl
  case left => cases hx
  case destroyed => cases hx
  case popLocal st =>
    cases t with
    | owner => exact hL.2.elim
    | worker k => exact flow_popLocal hpc (hL.1.resolve_left (by simp)) hx
  case popGlobal st => exact flow_popGlobal hpc hx
  case countQueues st =>
    simp only [exec] at hx
    split at hx <;> cases hx
    exact hquiet _ rfl (stack_tryStealTask _ _ _) (submitting_tryStealTask _ _ _)
  case steal st i n => exact flow_steal hpc hG.length hx
  case yield st =>
    cases hx
    exact hquiet _ rfl (stack_resume t st) (submitting_resume t st)
  case run st => exact flow_run hnew hpc hx
  case choose st x =>
    cases hx
    refine hquiet _ rfl ?_ ?_ <;> split <;> rfl
  case pushGlobal st x => exact flow_pushGlobal hpc hx
  case pushLocal st x =>
    cases t with
    | owner => exact hL.2.elim
    | worker k => exact flow_pushLocal hpc (hL.1.resolve_left (by simp)) hx
  case own =>
    cases o with
    | submit =>
        cases hx
        exact .submit (adds_submit hnew (by rw [hpc]; rfl) (by rw [hpc]; rfl) rfl) rfl rfl
    | destroy =>
        cases hx
        refine hquiet _ rfl ?_ ?_ <;> unfold PC.forThread <;> split <;> rfl
    | runPendingTask | finish => cases hx
  case requestStop k =>
    cases hx
    refine .quiet rfl rfl rfl rfl rfl ?_ ?_ <;> rw [hpc] <;> unfold PC.forThread <;> split <;> rfl
  case destroyLocalQueues => exact (hp hpc).elim
  case destroyTasks =>
    cases t with
    | owner => exact (hq hL.2).elim
    | worker k => exact hL.2.2.elim
  case join k =>
    cases t with
    | owner => exact (hq hL.2).elim
    | worker k => exact hL.2.2.elim

end

theorem exec_queues {r : Shared N × PC} (hx : exec t o s pc = .ok r)
    (hq : r.1.localQueues ≠ none) : s.localQueues ≠ none ∧ pc ≠ .destroyLocalQueues := by
  cases pc with
  | start =>
      cases t with
      | owner => cases hx
      | worker k =>
          cases hx
          exact ⟨hq, by simp⟩
  | stopRequested =>
      cases t with
      | owner => cases hx
      | worker k =>
          simp only [exec] at hx
          split at hx <;> cases hx <;> exact ⟨hq, by simp⟩
  | left | destroyed => cases hx
  | popLocal st | steal st i n =>
      obtain ⟨l, hl, -⟩ := localQueue_eq_ok.mp hx
      simp [hl]
  | pushLocal st x =>
      obtain ⟨l, hl, -⟩ := localQueue_eq_ok.mp hx
      simp [hl]
  | popGlobal st =>
      simp only [exec, Shared.globalQueue] at hx
      split at hx
      · cases hx
      · split at hx <;> cases hx <;> exact ⟨hq, by simp⟩
  | pushGlobal st x =>
      simp only [exec, Shared.globalQueue] at hx
      split at hx <;> cases hx
      exact ⟨hq, by simp⟩
  | countQueues st =>
      simp only [exec] at hx
      split at hx <;> cases hx
      exact ⟨hq, by simp⟩
  | run st =>
      simp only [exec] at hx
      split at hx <;> cases hx <;> exact ⟨hq, by simp⟩
  | own =>
      simp only [exec] at hx
      split at hx <;> cases hx <;> exact ⟨hq, by simp⟩
  | join k =>
      simp only [exec] at hx
      split at hx <;> cases hx
      exact ⟨hq, by simp⟩
  | yield st | choose st x | requestStop k | destroyTasks =>
      cases hx
      exact ⟨hq, by simp⟩
  | destroyLocalQueues =>
      cases hx
      exact (hq rfl).elim

theorem standing (hc : Reach exec Empty c) (hq : c.shared.localQueues ≠ none) :
    ReachIf exec Standing Empty c := by
  induction hc with
  | start h => exact .start h
  | @step c d t o _ _ hd ih =>
      obtain ⟨r, hx, rfl⟩ := Outcome.map_eq_ok.mp hd
      obtain ⟨hq', hp⟩ := exec_queues hx hq
      exact .step (ih hq') hp hd

/-- The task was started. -/
def Place.Begun : Place N → Prop
  | .hands _ | .finished => True
  | _ => False

structure Kept (c : Config (Thread N) (Shared N) PC) : Prop where
  queues : c.shared.localQueues ≠ none
  apart : Apart (contents c)
  number : ∀ x, (∃ p, x ∈ contents c p) ↔ x < c.shared.submitted
  nodup : c.shared.started.Nodup
  started : ∀ x, x ∈ c.shared.started ↔ ∃ p : Place N, p.Begun ∧ x ∈ contents c p
  empty : ∀ k, (c.pc (.worker k)).Searching → contents c (.queue k) = []
  newest : ∀ k x, (c.pc (.worker k)).submitting = some x → ∀ y ∈ contents c (.queue k), y < x
  sorted : ∀ k, (contents c (.queue k)).Pairwise (· > ·)

/-- Only its worker pushes to a local queue, and from its back others take. -/
theorem Flow.queue (hf : Flow c d t) (hk : t ≠ .worker k) :
    contents d (.queue k) = contents c (.queue k) ∨
      ∃ x, (c.pc t).Searching ∧ contents c (.queue k) = contents d (.queue k) ++ [x] ∧
        d.shared.started = c.shared.started ++ [x] := by
  cases hf with
  | same h _ _ => exact .inl (congrFun h _)
  | submit h _ _ => exact .inl (h.rest _ (by simp))
  | pushGlobal x h _ _ | popGlobal x h _ _ | finish x h _ _ =>
      exact .inl (h.rest _ (by simp) (by simp))
  | pushLocal x j h ht _ _ _ | popLocal x j h ht _ _ _ =>
      have hkj : k ≠ j := by
        rintro rfl
        exact hk ht
      exact .inl (h.rest _ (by simp [hkj]) (by simp [hkj]))
  | steal x j h hs hq _ hst =>
      by_cases hkj : k = j
      · subst hkj
        exact .inr ⟨x, hs, hq, hst⟩
      · exact .inl (h.rest _ (by simp [hkj]) (by simp))

theorem Flow.queue_sublist (hf : Flow c d t) (hk : t ≠ .worker k) :
    (contents d (.queue k)).Sublist (contents c (.queue k)) := by
  rcases hf.queue hk with h | ⟨x, -, h, -⟩
  · rw [h]
  · rw [h]
    exact List.sublist_append_left _ _

theorem Kept.apart_number (h : Kept c) (hf : Flow c d t) :
    Apart (contents d) ∧ ∀ x, (∃ p, x ∈ contents d p) ↔ x < d.shared.submitted := by
  have moved : ∀ {x p q}, Moves (contents c) (contents d) x p q →
      d.shared.submitted = c.shared.submitted →
      Apart (contents d) ∧ ∀ x, (∃ p, x ∈ contents d p) ↔ x < d.shared.submitted := by
    intro x p q hm hs
    refine ⟨hm.apart h.apart, fun y => ?_⟩
    rw [hm.exists_mem h.apart, hs]
    exact h.number y
  cases hf with
  | same hc hs _ => exact ⟨hc ▸ h.apart, by rw [hc, hs]; exact h.number⟩
  | submit ha hs _ =>
      refine ⟨ha.apart h.apart, fun y => ?_⟩
      have hy := h.number y
      rw [hs]
      constructor
      · rintro ⟨p, hp⟩
        rcases ha.mem.mp hp with ⟨rfl, -⟩ | hp
        · exact Nat.lt_succ_self _
        · exact Nat.lt_succ_of_lt (hy.mp ⟨p, hp⟩)
      · intro hlt
        rcases Nat.lt_succ_iff_lt_or_eq.mp hlt with hlt | rfl
        · obtain ⟨p, hp⟩ := hy.mpr hlt
          exact ⟨p, ha.mem.mpr (.inr hp)⟩
        · exact ⟨_, ha.mem.mpr (.inl ⟨rfl, rfl⟩)⟩
  | pushGlobal x hm hs _ | finish x hm hs _ | popGlobal x hm hs _ => exact moved hm hs
  | pushLocal x k hm _ _ hs _ | popLocal x k hm _ _ hs _ | steal x k hm _ _ hs _ =>
      exact moved hm hs

theorem begun_moves {p q : Place N} {y : ℕ} (hm : Moves (contents c) (contents d) x p q)
    (h : Apart (contents c)) : (∃ r : Place N, r.Begun ∧ y ∈ contents d r) ↔
      (y = x ∧ q.Begun) ∨ (y ≠ x ∧ ∃ r : Place N, r.Begun ∧ y ∈ contents c r) := by
  constructor
  · rintro ⟨r, hr, hy⟩
    rcases (hm.mem h).mp hy with ⟨rfl, rfl⟩ | ⟨hne, hy⟩
    · exact .inl ⟨rfl, hr⟩
    · exact .inr ⟨hne, r, hr, hy⟩
  · rintro (⟨rfl, hq⟩ | ⟨hne, r, hr, hy⟩)
    · exact ⟨q, hq, (hm.mem h).mpr (.inl ⟨rfl, rfl⟩)⟩
    · exact ⟨r, hr, (hm.mem h).mpr (.inr ⟨hne, hy⟩)⟩

theorem Kept.started_step (h : Kept c) (hf : Flow c d t) : d.shared.started.Nodup ∧
    ∀ x, x ∈ d.shared.started ↔ ∃ p : Place N, p.Begun ∧ x ∈ contents d p := by
  have waiting : ∀ {x p q}, Moves (contents c) (contents d) x p q → ¬ p.Begun →
      x ∉ c.shared.started := by
    intro x p q hm hp hx
    obtain ⟨r, hr, hxr⟩ := (h.started x).mp hx
    have hxp : x ∈ contents c p := hm.source.mem.mpr (.inl rfl)
    exact hp (h.apart.unique x r p hxr hxp ▸ hr)
  have push : ∀ {x p q}, Moves (contents c) (contents d) x p q → ¬ p.Begun → ¬ q.Begun →
      d.shared.started = c.shared.started → d.shared.started.Nodup ∧
        ∀ x, x ∈ d.shared.started ↔ ∃ p : Place N, p.Begun ∧ x ∈ contents d p := by
    intro x p q hm hp hq hs
    refine ⟨hs ▸ h.nodup, fun y => ?_⟩
    rw [begun_moves hm h.apart, hs, ← h.started]
    constructor
    · intro hy
      refine .inr ⟨?_, hy⟩
      rintro rfl
      exact waiting hm hp hy
    · rintro (⟨-, hb⟩ | ⟨-, hy⟩)
      · exact (hq hb).elim
      · exact hy
  have take : ∀ {x p q}, Moves (contents c) (contents d) x p q → ¬ p.Begun → q.Begun →
      d.shared.started = c.shared.started ++ [x] → d.shared.started.Nodup ∧
        ∀ x, x ∈ d.shared.started ↔ ∃ p : Place N, p.Begun ∧ x ∈ contents d p := by
    intro x p q hm hp hq hs
    have hx := waiting hm hp
    rw [hs]
    refine ⟨List.nodup_append.mpr ⟨h.nodup, List.nodup_singleton x, fun y hy z hz => ?_⟩,
      fun y => ?_⟩
    · rintro rfl
      exact hx (List.mem_singleton.mp hz ▸ hy)
    · rw [begun_moves hm h.apart, ← h.started, List.mem_append, List.mem_singleton]
      constructor
      · rintro (hy | hy)
        · refine .inr ⟨?_, hy⟩
          rintro rfl
          exact hx hy
        · exact .inl ⟨hy, hq⟩
      · rintro (⟨hy, -⟩ | ⟨-, hy⟩)
        · exact .inr hy
        · exact .inl hy
  cases hf with
  | same hc _ hs => exact ⟨hs ▸ h.nodup, by rw [hc, hs]; exact h.started⟩
  | submit ha _ hs =>
      refine ⟨hs ▸ h.nodup, fun y => ?_⟩
      rw [hs, h.started]
      constructor
      · rintro ⟨p, hp, hy⟩
        exact ⟨p, hp, ha.mem.mpr (.inr hy)⟩
      · rintro ⟨p, hp, hy⟩
        rcases ha.mem.mp hy with ⟨-, rfl⟩ | hy
        · exact hp.elim
        · exact ⟨p, hp, hy⟩
  | pushGlobal x hm _ hs => exact push hm id id hs
  | pushLocal x k hm _ _ _ hs => exact push hm id id hs
  | popGlobal x hm _ hs => exact take hm id trivial hs
  | popLocal x k hm _ _ _ hs | steal x k hm _ _ _ hs => exact take hm id trivial hs
  | finish x hm _ hs =>
      have hx : x ∈ c.shared.started :=
        (h.started x).mpr ⟨.hands t, trivial, hm.source.mem.mpr (.inl rfl)⟩
      refine ⟨hs ▸ h.nodup, fun y => ?_⟩
      rw [begun_moves hm h.apart, hs, ← h.started]
      constructor
      · intro hy
        by_cases hyx : y = x
        · exact .inl ⟨hyx, trivial⟩
        · exact .inr ⟨hyx, hy⟩
      · rintro (⟨rfl, -⟩ | ⟨-, hy⟩)
        · exact hx
        · exact hy

theorem not_searching_resume (t : Thread N) (st : List ℕ) : ¬ (PC.resume t st).Searching := by
  cases st with
  | nil => cases t <;> exact id
  | cons x st => exact id

/-- A worker goes on to other queues only from its own, empty one. The task it is
about to push is the last one it has submitted. -/
structure Leads (s : Shared N) (k : Fin N) (pc : PC) (r : Shared N × PC) : Prop where
  searching : r.2.Searching → r.1 = s ∧ (pc.Searching ∨ s.queue k = [])
  submitting : ∀ x, r.2.submitting = some x →
    r.1.localQueues = s.localQueues ∧ (pc.submitting = some x ∨ x = s.submitted)

theorem Leads.neither {r : Shared N × PC} (hs : ¬ r.2.Searching) (hsub : r.2.submitting = none) :
    Leads s k pc r := by
  refine ⟨fun h => (hs h).elim, fun x hx => ?_⟩
  rw [hsub] at hx
  cases hx

theorem Leads.search {pc' : PC} (hp : pc.Searching ∨ s.queue k = [])
    (hsub : pc'.submitting = none) : Leads s k pc (s, pc') := by
  refine ⟨fun _ => ⟨rfl, hp⟩, fun x hx => ?_⟩
  rw [hsub] at hx
  cases hx

theorem Leads.resume {s' : Shared N} (st : List ℕ) :
    Leads s k pc (s', .resume (.worker k) st) :=
  .neither (not_searching_resume (.worker k) st) (submitting_resume (.worker k) st)

theorem exec_leads {r : Shared N × PC} (hL : Local s () (.worker k) pc)
    (hx : exec (.worker k) o s pc = .ok r) : Leads s k pc r := by
  cases pc with
  | start =>
      cases hx
      exact .neither id rfl
  | stopRequested =>
      simp only [exec] at hx
      split at hx <;> cases hx <;> exact .neither id rfl
  | left | destroyed => cases hx
  | popLocal st =>
      have hk : s.index (.worker k) = k := hL.1.resolve_left (by simp)
      obtain ⟨l, hl, hi, hx⟩ := localQueue_eq_ok.mp hx
      rw [hk] at hx
      cases hqk : s.queue k with
      | nil =>
          rw [hqk] at hx
          cases hx
          exact .search (.inr hqk) rfl
      | cons x q =>
          rw [hqk] at hx
          cases hx
          exact .neither id rfl
  | popGlobal st =>
      simp only [exec, Shared.globalQueue] at hx
      split at hx
      · cases hx
      · split at hx <;> cases hx
        · exact .neither id rfl
        · exact .search (.inl trivial) rfl
  | countQueues st =>
      simp only [exec] at hx
      split at hx <;> cases hx
      exact .search (.inl trivial) (submitting_tryStealTask st _ _)
  | steal st i n =>
      obtain ⟨l, hl, hi, hx⟩ := localQueue_eq_ok.mp hx
      split at hx <;> cases hx
      · exact .neither id rfl
      · exact .search (.inl trivial) (submitting_tryStealTask st _ _)
  | yield st =>
      cases hx
      exact .resume st
  | run st =>
      simp only [exec] at hx
      split at hx <;> cases hx
      · exact ⟨False.elim, fun x hx => ⟨rfl, .inr (Option.some.inj hx).symm⟩⟩
      · exact .neither id rfl
      · exact .resume _
  | choose st x =>
      cases hx
      split
      · exact ⟨False.elim, fun y hy => ⟨rfl, .inl hy⟩⟩
      · exact ⟨False.elim, fun y hy => ⟨rfl, .inl hy⟩⟩
  | pushLocal st x =>
      obtain ⟨l, hl, hi, hx⟩ := localQueue_eq_ok.mp hx
      cases hx
      exact .resume st
  | _ => exact hL.2.2.elim

theorem Kept.number_lt (h : Kept c) {p : Place N} (hx : x ∈ contents c p) :
    x < c.shared.submitted :=
  (h.number x).mp ⟨p, hx⟩

theorem Kept.flow {r : Shared N × PC} (h : Kept c) (hG : Global c.shared ())
    (hL : Local c.shared () t (c.pc t)) (hp : Standing c t o)
    (hx : exec t o c.shared (c.pc t) = .ok r) : Flow c (after c t r) t :=
  ThreadPool.flow hG hL h.queues hp (fun _ hmem => Nat.lt_irrefl _ (h.number_lt hmem)) hx

/-- The task which `t` pushes to a local queue is the one it has in hand. -/
theorem submitting_of_moves {q : Place N}
    (hm : Moves (contents c) (contents d) x (.submitting t) q) :
    (c.pc t).submitting = some x :=
  Option.mem_toList.mp (hm.source.mem.mpr (.inl rfl))

theorem Kept.sorted_step (h : Kept c) (hf : Flow c d t) (k : Fin N) :
    (contents d (.queue k)).Pairwise (· > ·) := by
  by_cases hk : t = .worker k
  · subst hk
    cases hf with
    | same hc _ _ => exact hc ▸ h.sorted k
    | submit ha _ _ => exact ha.rest (.queue k) (by simp) ▸ h.sorted k
    | pushGlobal x hm _ _ | popGlobal x hm _ _ | finish x hm _ _ =>
        exact hm.rest (.queue k) (by simp) (by simp) ▸ h.sorted k
    | pushLocal x j hm ht hq _ _ =>
        cases ht
        rw [hq, List.pairwise_cons]
        exact ⟨h.newest k x (submitting_of_moves hm), h.sorted k⟩
    | popLocal x j hm ht hq _ _ =>
        cases ht
        have hs := h.sorted k
        rw [hq, List.pairwise_cons] at hs
        exact hs.2
    | steal x j hm _ hq _ _ =>
        by_cases hkj : k = j
        · subst hkj
          have hs := h.sorted k
          rw [hq] at hs
          exact hs.sublist (List.sublist_append_left _ _)
        · exact hm.rest (.queue k) (by simp [hkj]) (by simp) ▸ h.sorted k
  · exact (h.sorted k).sublist (hf.queue_sublist hk)

theorem Kept.step {r : Shared N × PC} (h : Kept c) (hG : Global c.shared ())
    (hL : Local c.shared () t (c.pc t)) (hp : Standing c t o)
    (hx : exec t o c.shared (c.pc t) = .ok r) (hq : r.1.localQueues ≠ none) :
    Kept (after c t r) := by
  have hf := h.flow hG hL hp hx
  obtain ⟨hapart, hnumber⟩ := h.apart_number hf
  obtain ⟨hnodup, hstarted⟩ := h.started_step hf
  have other : ∀ k, t ≠ .worker k → (after c t r).pc (.worker k) = c.pc (.worker k) :=
    fun k hk => Function.update_of_ne (Ne.symm hk) _ _
  have self : ∀ k, t = .worker k → (after c t r).pc (.worker k) = r.2 := by
    rintro k rfl
    exact Function.update_self _ _ _
  refine ⟨hq, hapart, hnumber, hnodup, hstarted, fun k hs => ?_, fun k x hsub y hy => ?_,
    h.sorted_step hf⟩
  · by_cases hk : t = .worker k
    · subst hk
      rw [self k rfl] at hs
      obtain ⟨hr, hempty⟩ := (exec_leads hL hx).searching hs
      have hsame : contents (after c (.worker k) r) (.queue k) = contents c (.queue k) :=
        congrArg (fun s => Shared.queue s k) hr
      rw [hsame]
      exact hempty.elim (h.empty k) id
    · rw [other k hk] at hs
      exact List.sublist_nil.mp (h.empty k hs ▸ hf.queue_sublist hk)
  · by_cases hk : t = .worker k
    · subst hk
      rw [self k rfl] at hsub
      obtain ⟨hr, hold⟩ := (exec_leads hL hx).submitting x hsub
      have hsame : contents (after c (.worker k) r) (.queue k) = contents c (.queue k) :=
        congrArg (fun l => ((Option.getD l [])[(k : ℕ)]?).getD []) hr
      rw [hsame] at hy
      rcases hold with hold | rfl
      · exact h.newest k x hold y hy
      · exact h.number_lt hy
    · rw [other k hk] at hsub
      exact h.newest k x hsub y ((hf.queue_sublist hk).subset hy)

theorem kept_start : Kept (start [] (fun _ => []) 0 : Config (Thread N) (Shared N) PC) := by
  have hnone : ∀ p,
      contents (start [] (fun _ => []) 0 : Config (Thread N) (Shared N) PC) p = [] := by
    intro p
    cases p with
    | submitting t | hands t => cases t <;> rfl
    | tasks | finished => rfl
    | queue k => simp [contents, Shared.queue, start]
  refine ⟨by simp [start], ⟨fun p => ?_, fun x p q hx => ?_⟩, fun x => ?_, List.nodup_nil,
    fun x => ?_, fun k _ => hnone _, fun k x hx => ?_, fun k => ?_⟩
  · rw [hnone]
    exact List.nodup_nil
  · simp [hnone] at hx
  · constructor
    · rintro ⟨p, hp⟩
      rw [hnone] at hp
      cases hp
    · exact fun hx => (Nat.not_lt_zero x hx).elim
  · constructor
    · intro hx
      cases hx
    · rintro ⟨p, -, hp⟩
      rw [hnone] at hp
      cases hp
  · cases hx
  · rw [hnone]
    exact List.Pairwise.nil

theorem outlined (hc : Reach exec Empty c) (hq : c.shared.localQueues ≠ none) :
    Global c.shared () ∧ ∀ t, Local c.shared () t (c.pc t) := by
  have hquiet : ReachIf exec Quiet Constructed c :=
    (standing hc hq).mono (fun _ h => ⟨_, _, _, h⟩) fun _ _ _ h hd => (h hd).elim
  obtain ⟨_, hG, hL⟩ := outline.holds hquiet
  exact ⟨hG, hL⟩

theorem kept (hc : Reach exec Empty c) (hq : c.shared.localQueues ≠ none) : Kept c := by
  induction hc with
  | start h =>
      subst h
      exact kept_start
  | @step c d t o hr _ hd ih =>
      obtain ⟨r, hx, rfl⟩ := Outcome.map_eq_ok.mp hd
      obtain ⟨hq', hp⟩ := exec_queues hx hq
      obtain ⟨hG, hL⟩ := outlined hr hq'
      exact (ih hq').step hG (hL t) hp hx hq

/-- What is pushed to a local queue or taken from it by a step, and by whom. -/
def TakesInOrder (c d : Config (Thread N) (Shared N) PC) (t : Thread N) (k : Fin N) : Prop :=
  contents d (.queue k) = contents c (.queue k) ∨ ∃ x,
    (t = .worker k ∧ contents d (.queue k) = x :: contents c (.queue k) ∧
      ∀ y ∈ contents c (.queue k), y < x) ∨
    (t = .worker k ∧ contents c (.queue k) = x :: contents d (.queue k) ∧
      (∀ y ∈ contents d (.queue k), y < x) ∧ d.shared.started = c.shared.started ++ [x]) ∨
    (t ≠ .worker k ∧ contents c (.queue k) = contents d (.queue k) ++ [x] ∧
      (∀ y ∈ contents d (.queue k), x < y) ∧ d.shared.started = c.shared.started ++ [x])

theorem Kept.takesInOrder (h : Kept c) (hf : Flow c d t) (k : Fin N) : TakesInOrder c d t k := by
  by_cases hk : t = .worker k
  · subst hk
    cases hf with
    | same hc _ _ => exact .inl (congrFun hc _)
    | submit ha _ _ => exact .inl (ha.rest _ (by simp))
    | pushGlobal x hm _ _ | popGlobal x hm _ _ | finish x hm _ _ =>
        exact .inl (hm.rest _ (by simp) (by simp))
    | pushLocal x j hm ht hq _ _ =>
        cases ht
        exact .inr ⟨x, .inl ⟨rfl, hq, h.newest k x (submitting_of_moves hm)⟩⟩
    | popLocal x j hm ht hq _ hst =>
        cases ht
        have hs := h.sorted k
        rw [hq, List.pairwise_cons] at hs
        exact .inr ⟨x, .inr (.inl ⟨rfl, hq, hs.1, hst⟩)⟩
    | steal x j hm hsearch hq _ _ =>
        by_cases hkj : k = j
        · subst hkj
          rw [h.empty k hsearch] at hq
          simp at hq
        · exact .inl (hm.rest _ (by simp [hkj]) (by simp))
  · rcases hf.queue hk with hc | ⟨x, -, hq, hst⟩
    · exact .inl hc
    · have hs := h.sorted k
      rw [hq, List.pairwise_append] at hs
      exact .inr ⟨x, .inr (.inr ⟨hk, hq, fun y hy => hs.2.2 y hy x List.mem_cons_self, hst⟩)⟩

/-- Every submitted task is at one place, and was started once if it is in the
hands of a thread or finished. A local queue is pushed to by its worker, which
takes the newest task of it, while the others take the oldest. -/
structure Placed (c : Config (Thread N) (Shared N) PC) : Prop where
  place : ∀ x, x < c.shared.submitted → ∃! p, x ∈ contents c p
  only : ∀ x p, x ∈ contents c p → x < c.shared.submitted
  nodup : ∀ p, (contents c p).Nodup
  once : c.shared.started.Nodup
  started : ∀ x, x ∈ c.shared.started ↔ ∃ p : Place N, p.Begun ∧ x ∈ contents c p
  order : ∀ t o d, c.advance exec t o = .ok d → d.shared.localQueues ≠ none →
    ∀ k, TakesInOrder c d t k

theorem tasks_placed (hc : Reach exec Empty c) (hq : c.shared.localQueues ≠ none) : Placed c := by
  have h := kept hc hq
  constructor
  case place =>
    intro x hx
    obtain ⟨p, hp⟩ := (h.number x).mpr hx
    exact ⟨p, hp, fun q hq => h.apart.unique x q p hq hp⟩
  case only => exact fun x p hp => h.number_lt hp
  case nodup => exact h.apart.nodup
  case once => exact h.nodup
  case started => exact h.started
  case order =>
    intro t o d hd hd'
    obtain ⟨r, hx, rfl⟩ := Outcome.map_eq_ok.mp hd
    obtain ⟨-, hp⟩ := exec_queues hx hd'
    obtain ⟨hG, hL⟩ := outlined hc hq
    exact h.takesInOrder (h.flow hG (hL t) hp hx)

section Example

/-- The owner submits a task, worker 0 runs it and submits another, which worker 2
steals. -/
def stolen : List (Thread 3 × Call) :=
  List.replicate 3 (.owner, .submit) ++ List.replicate 4 (.worker 0, .submit) ++
    List.replicate 3 (.worker 0, .submit) ++ List.replicate 7 (.worker 2, .submit)

theorem tasks_placed_stolen : ∃ c, Config.run exec stolen (start [] (fun _ => []) 0) = .ok c ∧
    contents c (.hands (.worker 2)) = [1] ∧ Placed c := by
  refine ⟨_, rfl, ?_, tasks_placed (ReachIf.run (.start rfl)
    (rfl : Config.run exec stolen (start [] (fun _ => []) 0) = .ok _)) ?_⟩
  · rfl
  · exact Option.some_ne_none _

end Example
end CsNotes.ThreadPool
