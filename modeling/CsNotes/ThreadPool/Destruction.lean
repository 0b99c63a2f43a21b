import CsNotes.ThreadPool.Model

/-!
# What the destructor leaves to the workers

The queues are destroyed before the threads are joined, and a stop request is
only looked at between tasks. A worker therefore survives the destruction of the
local queues only if it is between tasks at that moment; if every worker is, no
worker touches a queue any more.
-/
namespace CsNotes.ThreadPool
open Interleaving

variable {N : ℕ} {s s' : Shared N} {t : Thread N} {k : Fin N} {o : Call} {pc : PC}
variable {c : Config (Thread N) (Shared N) PC} {st : List ℕ}

/-- Any pool whose owner has not begun to destroy it. -/
def Constructed (c : Config (Thread N) (Shared N) PC) : Prop :=
  ∃ tasks queues submitted, c = start tasks queues submitted

def PC.UsesLocalQueues : PC → Prop
  | popLocal _ | countQueues _ | steal _ _ _ | pushLocal _ _ => True
  | _ => False

def PC.UsesTasks : PC → Prop
  | popGlobal _ | pushGlobal _ _ => True
  | _ => False

/-- The worker is not about to access a destroyed queue. -/
def Safe (s : Shared N) (pc : PC) : Prop :=
  (pc.UsesLocalQueues → s.localQueues ≠ none) ∧ (pc.UsesTasks → s.tasks ≠ none)

/-- Outside of `runPendingTask` and of every task. -/
def PC.Between : PC → Prop
  | start | stopRequested | yield [] | left => True
  | _ => False

/-- The local queues are destroyed only while all workers are between tasks. -/
def Quiet (c : Config (Thread N) (Shared N) PC) (t : Thread N) (_ : Call) : Prop :=
  c.pc t = .destroyLocalQueues → ∀ k, (c.pc (.worker k)).Between

structure Global (s : Shared N) (_ : Unit) : Prop where
  length : ∀ l, s.localQueues = some l → l.length = N
  stop : s.localQueues = none → ∀ k, s.stop k = true
  order : s.tasks = none → s.localQueues = none

/-- Where a worker can be while the queues are there. -/
def PC.OfWorker : PC → Prop
  | steal _ i n => i < n ∧ n ≤ N - 1
  | run st => st ≠ []
  | pushGlobal _ _ | own | requestStop _ | destroyLocalQueues | destroyTasks | join _
  | destroyed => False
  | _ => True

/-- How far the owner is with the destruction. -/
def PC.OfOwner (s : Shared N) : PC → Prop
  | own | choose [] _ | pushGlobal [] _ => s.localQueues ≠ none
  | requestStop i => s.localQueues ≠ none ∧ ∀ j : Fin N, j < i → s.stop j = true
  | destroyLocalQueues => s.localQueues ≠ none ∧ ∀ k, s.stop k = true
  | destroyTasks | join _ | destroyed => s.localQueues = none
  | _ => False

/-- What each thread knows. -/
def Local (s : Shared N) (_ : Unit) : Thread N → PC → Prop
  | .owner, pc => s.index .owner = N ∧ pc.OfOwner s
  | .worker k, pc => (pc = .start ∨ s.index (.worker k) = k) ∧
      (s.localQueues = none → pc.Between) ∧ pc.OfWorker (N := N)

/-- What a worker changes for the other threads. -/
structure Same (t : Thread N) (s s' : Shared N) : Prop where
  lengths : s'.localQueues.map List.length = s.localQueues.map List.length
  tasks : s'.tasks = none ↔ s.tasks = none
  stop : s'.stop = s.stop
  index : ∀ u, u ≠ t → s'.index u = s.index u

theorem Same.queues (h : Same t s s') : s'.localQueues = none ↔ s.localQueues = none := by
  rw [← Option.map_eq_none_iff, h.lengths, Option.map_eq_none_iff]

theorem Same.refl (t : Thread N) (s : Shared N) : Same t s s :=
  ⟨rfl, Iff.rfl, rfl, fun _ _ => rfl⟩

theorem same_setLocalQueue (t : Thread N) (s : Shared N) (i : ℕ) (q : List ℕ) :
    Same t s (s.setLocalQueue i q) := by
  refine ⟨?_, Iff.rfl, rfl, fun _ _ => rfl⟩
  unfold Shared.setLocalQueue
  rw [Option.map_map]
  congr 1
  funext l
  exact List.length_set

theorem Global.same (h : Global s ()) (hs : Same t s s') : Global s' () := by
  constructor
  case length =>
    intro l hl
    have hm := hs.lengths
    rw [hl, Option.map_some, eq_comm, Option.map_eq_some_iff] at hm
    obtain ⟨l', hl', he⟩ := hm
    rw [← he]
    exact h.length l' hl'
  case stop =>
    rw [hs.stop, hs.queues]
    exact h.stop
  case order =>
    rw [hs.tasks, hs.queues]
    exact h.order

theorem Local.same {u : Thread N} (h : Local s () u pc) (hs : Same t s s') (hu : u ≠ t) :
    Local s' () u pc := by
  cases u with
  | owner =>
      refine ⟨(hs.index _ hu).trans h.1, ?_⟩
      have hf := h.2
      unfold PC.OfOwner at hf ⊢
      rw [Ne, hs.queues, hs.stop]
      exact hf
  | worker k =>
      refine ⟨?_, ?_, h.2.2⟩
      · rw [hs.index _ hu]
        exact h.1
      · rw [hs.queues]
        exact h.2.1

theorem Global.localQueue (h : Global s ()) (hl : s.localQueues ≠ none) {i : ℕ} (hi : i < N) :
    ∃ l q, s.localQueues = some l ∧ l[i]? = some q := by
  obtain ⟨l, hl⟩ := Option.ne_none_iff_exists'.mp hl
  have hlt : i < l.length := by
    rw [h.length l hl]
    exact hi
  exact ⟨l, l[i], hl, List.getElem?_eq_getElem hlt⟩

theorem Global.globalQueue (h : Global s ()) (hl : s.localQueues ≠ none) :
    ∃ q, s.tasks = some q :=
  Option.ne_none_iff_exists'.mp (mt h.order hl)

theorem stealBound_le (hN : 0 < N) : stealBound N ≤ N - 1 := by
  unfold stealBound
  omega

theorem victim_lt {index i n : ℕ} (hi : i < n) (hn : n ≤ N - 1) : victim index i n < N := by
  have := Nat.mod_lt ((index + i + 1) % 2 ^ 32) (Nat.zero_lt_of_lt hi)
  unfold victim
  omega

theorem local_of_live (hi : s.index (.worker k) = k) (hl : s.localQueues ≠ none)
    (hpc : pc.OfWorker (N := N)) : Local s () (.worker k) pc :=
  ⟨.inr hi, fun h => (hl h).elim, hpc⟩

theorem ofWorker_resume (k : Fin N) (st : List ℕ) :
    (PC.resume (.worker k) st).OfWorker (N := N) := by
  cases st with
  | nil => trivial
  | cons x st => exact List.cons_ne_nil x st

theorem ofWorker_tryStealTask {i n : ℕ} (hn : n ≤ N - 1) :
    (PC.tryStealTask st i n).OfWorker (N := N) := by
  unfold PC.tryStealTask
  split
  · rename_i hi
    exact ⟨hi, hn⟩
  · trivial

/-- What a step of the worker `k` has to establish. -/
def KeptBy (k : Fin N) (s : Shared N) (r : Shared N × PC) : Prop :=
  Global r.1 () ∧ Local r.1 () (.worker k) r.2 ∧ Same (.worker k) s r.1

theorem keptBy_of_live (hG : Global s ()) (hs : Same (.worker k) s s')
    (hi : s'.index (.worker k) = k) (hl : s.localQueues ≠ none) (hpc : pc.OfWorker (N := N)) :
    KeptBy k s (s', pc) := by
  refine ⟨hG.same hs, local_of_live hi ?_ hpc, hs⟩
  rwa [Ne, hs.queues]

theorem keptBy_runTask (hG : Global s ()) (hs : Same (.worker k) s s')
    (hi : s'.index (.worker k) = k) (hl : s.localQueues ≠ none) (x : ℕ) :
    (runTask s' st x).Sat (KeptBy k s) :=
  keptBy_of_live hG ⟨hs.lengths, hs.tasks, hs.stop, hs.index⟩ hi hl (List.cons_ne_nil x st)

/-- A worker at an access to a queue finds all of them alive. -/
theorem keep_worker (hG : Global s ()) (hL : Local s () (.worker k) pc) :
    (exec (.worker k) o s pc).Sat (KeptBy k s) := by
  obtain ⟨hstart, hb, hw⟩ := hL
  by_cases hs : pc = .start
  · subst hs
    have hsame : Same (.worker k) s
        { s with index := Function.update s.index (.worker k) k } :=
      ⟨rfl, Iff.rfl, rfl, fun u hu => Function.update_of_ne hu _ _⟩
    exact ⟨hG.same hsame, ⟨.inr (Function.update_self ..), fun _ => trivial, trivial⟩, hsame⟩
  have hi := hstart.resolve_left hs
  have hk : s.index (.worker k) < N := hi ▸ k.isLt
  cases pc with
  | start => exact (hs rfl).elim
  | stopRequested =>
      simp only [exec]
      split
      · have hsame : Same (.worker k) s { s with left := Function.update s.left k true } :=
          ⟨rfl, Iff.rfl, rfl, fun _ _ => rfl⟩
        exact ⟨hG.same hsame, ⟨.inr hi, fun _ => trivial, trivial⟩, hsame⟩
      · rename_i hstop
        exact keptBy_of_live hG (.refl _ _) hi (fun h => hstop (hG.stop h k)) trivial
  | popLocal st =>
      obtain ⟨l, q, hl, hq⟩ := hG.localQueue hb hk
      simp only [exec, Shared.localQueue, hl, hq]
      cases q with
      | nil => exact keptBy_of_live hG (.refl _ _) hi hb trivial
      | cons x q => exact keptBy_runTask hG (same_setLocalQueue _ _ _ _) hi hb x
  | popGlobal st =>
      obtain ⟨q, hq⟩ := hG.globalQueue hb
      simp only [exec, Shared.globalQueue, hq]
      cases q with
      | nil => exact keptBy_of_live hG (.refl _ _) hi hb trivial
      | cons x q =>
          have hsame : Same (.worker k) s { s with tasks := some q } :=
            ⟨rfl, by simp [hq], rfl, fun _ _ => rfl⟩
          exact keptBy_runTask hG hsame hi hb x
  | countQueues st =>
      obtain ⟨l, hl⟩ := Option.ne_none_iff_exists'.mp hb
      simp only [exec, hl, Outcome.sat_ok]
      have hn : stealBound l.length ≤ N - 1 := by
        rw [hG.length l hl]
        exact stealBound_le (Nat.zero_lt_of_lt k.isLt)
      generalize stealBound l.length = n at hn ⊢
      exact keptBy_of_live hG (.refl _ _) hi hb (ofWorker_tryStealTask hn)
  | steal st i n =>
      have hv : victim (s.index (.worker k)) i n < N := victim_lt hw.1 hw.2
      obtain ⟨l, q, hl, hq⟩ := hG.localQueue hb hv
      simp only [exec, Shared.localQueue, hl, hq]
      cases WorkStealingQueue.trySteal q with
      | none => exact keptBy_of_live hG (.refl _ _) hi hb (ofWorker_tryStealTask hw.2)
      | some x => exact keptBy_runTask hG (same_setLocalQueue _ _ _ _) hi hb x.1
  | yield st =>
      cases st with
      | nil => exact ⟨hG, ⟨.inr hi, fun _ => trivial, trivial⟩, .refl _ _⟩
      | cons x st => exact keptBy_of_live hG (.refl _ _) hi hb (ofWorker_resume k _)
  | run st =>
      cases st with
      | nil => exact (hw rfl).elim
      | cons x st =>
          cases o with
          | submit => exact keptBy_of_live hG ⟨rfl, Iff.rfl, rfl, fun _ _ => rfl⟩ hi hb trivial
          | runPendingTask => exact keptBy_of_live hG (.refl _ _) hi hb trivial
          | finish =>
              exact keptBy_of_live hG ⟨rfl, Iff.rfl, rfl, fun _ _ => rfl⟩ hi hb
                (ofWorker_resume k st)
          | destroy => trivial
  | choose st x =>
      have hne : s.index (.worker k) ≠ N := Nat.ne_of_lt hk
      simp only [exec, if_neg hne, Outcome.sat_ok]
      exact keptBy_of_live hG (.refl _ _) hi hb trivial
  | pushLocal st x =>
      obtain ⟨l, q, hl, hq⟩ := hG.localQueue hb hk
      simp only [exec, Shared.localQueue, hl, hq, Outcome.sat_ok]
      exact keptBy_of_live hG (same_setLocalQueue _ _ _ _) hi hb (ofWorker_resume k st)
  | left => trivial
  | pushGlobal _ _ | own | requestStop _ | destroyLocalQueues | destroyTasks | join _
  | destroyed => exact hw.elim

/-- What a step of the owner has to establish. -/
def KeptByOwner (c : Config (Thread N) (Shared N) PC) (r : Shared N × PC) : Prop :=
  Global r.1 () ∧ Local r.1 () .owner r.2 ∧
    ∀ k, Local r.1 () (.worker k) (c.pc (.worker k))

/-- The step of the owner changed nothing that a worker looks at. -/
theorem keptByOwner_of_same (hG : Global c.shared ()) (hL : ∀ u, Local c.shared () u (c.pc u))
    (hs : Same .owner c.shared s') (hi : s'.index .owner = N) (hpc : pc.OfOwner s') :
    KeptByOwner c (s', pc) :=
  ⟨hG.same hs, ⟨hi, hpc⟩, fun k => (hL (.worker k)).same hs (by simp)⟩

theorem keep_owner (hG : Global c.shared ()) (hL : ∀ u, Local c.shared () u (c.pc u))
    (hq : c.pc .owner = .destroyLocalQueues → ∀ k, (c.pc (.worker k)).Between) :
    (exec .owner o c.shared (c.pc .owner)).Sat (KeptByOwner c) := by
  obtain ⟨hi, hf⟩ := hL .owner
  cases hpc : c.pc .owner with
  | own =>
      rw [hpc] at hf
      cases o with
      | submit => exact keptByOwner_of_same hG hL ⟨rfl, Iff.rfl, rfl, fun _ _ => rfl⟩ hi hf
      | destroy =>
          refine keptByOwner_of_same hG hL (.refl _ _) hi ?_
          unfold PC.forThread
          split
          · exact ⟨hf, fun j hj => (Nat.not_lt_zero _ hj).elim⟩
          · exact ⟨hf, fun j => absurd (Nat.zero_lt_of_lt j.isLt) ‹_›⟩
      | runPendingTask | finish => trivial
  | choose st x =>
      rw [hpc] at hf
      cases st with
      | nil =>
          simp only [exec, if_pos hi, Outcome.sat_ok]
          exact keptByOwner_of_same hG hL (.refl _ _) hi hf
      | cons y st => exact hf.elim
  | pushGlobal st x =>
      rw [hpc] at hf
      cases st with
      | nil =>
          obtain ⟨q, hq⟩ := hG.globalQueue hf
          simp only [exec, Shared.globalQueue, hq, Outcome.sat_ok]
          have hsame : Same .owner c.shared { c.shared with tasks := some (q ++ [x]) } :=
            ⟨rfl, by simp [hq], rfl, fun _ _ => rfl⟩
          exact keptByOwner_of_same hG hL hsame hi hf
      | cons y st => exact hf.elim
  | requestStop i =>
      rw [hpc] at hf
      obtain ⟨hl, hstop⟩ := hf
      have hstep : ∀ j : Fin N, j < i + 1 → (c.shared.stop j || decide ((j : ℕ) = i)) = true := by
        intro j hj
        rcases Nat.lt_succ_iff_lt_or_eq.mp hj with hlt | he
        · simp [hstop j hlt]
        · simp [he]
      refine ⟨⟨hG.length, fun h => (hl h).elim, hG.order⟩, ⟨hi, ?_⟩, fun k => hL (.worker k)⟩
      unfold PC.forThread
      split
      · exact ⟨hl, hstep⟩
      · rename_i hN
        exact ⟨hl, fun j => hstep j (by omega)⟩
  | destroyLocalQueues =>
      rw [hpc] at hf
      refine ⟨⟨fun _ h => (Option.some_ne_none _ h.symm).elim, fun _ => hf.2, fun _ => rfl⟩,
        ⟨hi, rfl⟩, fun k => ?_⟩
      obtain ⟨hik, -, hw⟩ := hL (.worker k)
      exact ⟨hik, fun _ => hq hpc k, hw⟩
  | destroyTasks =>
      rw [hpc] at hf
      refine ⟨⟨hG.length, hG.stop, fun _ => hf⟩, ⟨hi, ?_⟩, fun k => hL (.worker k)⟩
      unfold PC.forThread
      split <;> exact hf
  | join i =>
      rw [hpc] at hf
      simp only [exec]
      split
      · refine keptByOwner_of_same hG hL (.refl _ _) hi ?_
        unfold PC.forThread
        split <;> exact hf
      · trivial
  | destroyed => trivial
  | start => trivial
  | stopRequested => trivial
  | left => trivial
  | popLocal _ | popGlobal _ | countQueues _ | steal _ _ _ | yield _ | run _ | pushLocal _ _ =>
      rw [hpc] at hf
      exact hf.elim

theorem outline : Outline exec Quiet (Constructed (N := N)) Global Local where
  start := by
    rintro c ⟨tasks, queues, submitted, rfl⟩
    refine ⟨(), ⟨fun l hl => ?_, nofun, nofun⟩, fun t => ?_⟩
    · obtain rfl := Option.some.inj hl
      exact List.length_ofFn
    · cases t with
      | owner => exact ⟨rfl, by simp [start, PC.OfOwner]⟩
      | worker k => exact ⟨.inl rfl, fun _ => trivial, trivial⟩
  step := by
    intro c t o g _ hq hG hL
    cases t with
    | owner =>
        rw [Outcome.sat_iff]
        obtain ⟨hne, hok⟩ := Outcome.sat_iff.mp (keep_owner hG hL hq (o := o))
        refine ⟨hne, fun r hr => ⟨(), (hok r hr).1, (hok r hr).2.1, fun u hu => ?_⟩⟩
        cases u with
        | owner => exact (hu rfl).elim
        | worker k => exact (hok r hr).2.2 k
    | worker k =>
        rw [Outcome.sat_iff]
        obtain ⟨hne, hok⟩ := Outcome.sat_iff.mp (keep_worker hG (hL (.worker k)) (o := o))
        refine ⟨hne, fun r hr => ⟨(), (hok r hr).1, (hok r hr).2.1, fun u hu => ?_⟩⟩
        exact (hL u).same (hok r hr).2.2 hu

theorem Local.safe (hG : Global s ()) (hL : Local s () (.worker k) pc) : Safe s pc := by
  obtain ⟨-, hb, -⟩ := hL
  constructor
  · intro hu hl
    have hbetween := hb hl
    cases pc <;> first | exact hu | exact hbetween
  · intro hu ht
    have hbetween := hb (hG.order ht)
    cases pc <;> first | exact hu | exact hbetween

/-- A worker that is inside of `runPendingTask` or of a task can go on to the
local queues after they have been destroyed. -/
theorem reaches_queues {init : Config (Thread N) (Shared N) PC → Prop} (hr : Reach exec init c)
    (hl : c.shared.localQueues = none) (ht : ∃ q, c.shared.tasks = some q)
    (hi : c.pc (.worker k) = .start ∨ c.shared.index (.worker k) = k)
    (hw : (c.pc (.worker k)).OfWorker (N := N)) (hb : ¬ (c.pc (.worker k)).Between) :
    ∃ d, Reach exec init d ∧ ¬ Safe d.shared (d.pc (.worker k)) := by
  have hunsafe : ∀ d : Config (Thread N) (Shared N) PC, d.shared.localQueues = none →
      (d.pc (.worker k)).UsesLocalQueues → ¬ Safe d.shared (d.pc (.worker k)) :=
    fun d hd hu hs => hs.1 hu hd
  have hpop : ∀ d : Config (Thread N) (Shared N) PC, Reach exec init d →
      d.shared.localQueues = none → (∃ st, d.pc (.worker k) = .run st) →
      ∃ d, Reach exec init d ∧ ¬ Safe d.shared (d.pc (.worker k)) := by
    rintro d hd hnone ⟨st, hpc⟩
    have hx : exec (.worker k) .runPendingTask d.shared (d.pc (.worker k)) =
        .ok (d.shared, .popLocal st) := by
      rw [hpc]
      cases st <;> rfl
    exact ⟨_, hd.next hx, hunsafe _ hnone (by simp [PC.UsesLocalQueues])⟩
  cases hpc : c.pc (.worker k) with
  | popLocal st => exact ⟨c, hr, hunsafe c hl (by simp [hpc, PC.UsesLocalQueues])⟩
  | countQueues st => exact ⟨c, hr, hunsafe c hl (by simp [hpc, PC.UsesLocalQueues])⟩
  | steal st i n => exact ⟨c, hr, hunsafe c hl (by simp [hpc, PC.UsesLocalQueues])⟩
  | pushLocal st x => exact ⟨c, hr, hunsafe c hl (by simp [hpc, PC.UsesLocalQueues])⟩
  | run st => exact hpop c hr hl ⟨st, hpc⟩
  | popGlobal st =>
      obtain ⟨q, hq⟩ := ht
      cases q with
      | nil =>
          have hx : exec (.worker k) .finish c.shared (c.pc (.worker k)) =
              .ok (c.shared, .countQueues st) := by
            simp [hpc, exec, Shared.globalQueue, hq]
          exact ⟨_, hr.next hx, hunsafe _ hl (by simp [PC.UsesLocalQueues])⟩
      | cons x q =>
          have hx : exec (.worker k) .finish c.shared (c.pc (.worker k)) =
              runTask { c.shared with tasks := some q } st x := by
            simp [hpc, exec, Shared.globalQueue, hq]
          exact hpop _ (hr.next hx) hl ⟨x :: st, by simp⟩
  | yield st =>
      cases st with
      | nil =>
          rw [hpc] at hb
          exact (hb trivial).elim
      | cons x st =>
          have hx : exec (.worker k) .finish c.shared (c.pc (.worker k)) =
              .ok (c.shared, .run (x :: st)) := by
            simp [hpc, exec, PC.resume]
          exact hpop _ (hr.next hx) hl ⟨x :: st, by simp⟩
  | choose st x =>
      have hne : c.shared.index (.worker k) ≠ N := by
        rw [hi.resolve_left (by simp [hpc])]
        exact Nat.ne_of_lt k.isLt
      have hx : exec (.worker k) .finish c.shared (c.pc (.worker k)) =
          .ok (c.shared, .pushLocal st x) := by
        simp [hpc, exec, hne]
      exact ⟨_, hr.next hx, hunsafe _ hl (by simp [PC.UsesLocalQueues])⟩
  | start | stopRequested | left =>
      rw [hpc] at hb
      exact (hb trivial).elim
  | pushGlobal _ _ | own | requestStop _ | destroyLocalQueues | destroyTasks | join _
  | destroyed =>
      rw [hpc] at hw
      exact hw.elim

/-- No worker uses a destroyed queue, and if one is not between tasks when the
local queues are about to be destroyed, the run can go on to such a use. -/
structure Outlived (c : Config (Thread N) (Shared N) PC) : Prop where
  safe : ∀ k, Safe c.shared (c.pc (.worker k))
  alive : ∀ k o, c.advance exec (.worker k) o ≠ .fault
  needed : c.pc .owner = .destroyLocalQueues → (∃ k, ¬ (c.pc (.worker k)).Between) →
    ∃ d k, Reach exec (· = c) d ∧ ¬ Safe d.shared (d.pc (.worker k))

theorem queues_outlive_workers (hc : ReachIf exec Quiet Constructed c) : Outlived c := by
  obtain ⟨_, hG, hL⟩ := outline.holds hc
  refine ⟨fun k => (hL (.worker k)).safe hG, fun k o => outline.safe hc (fun h => ?_), ?_⟩
  · have hw := (hL (.worker k)).2.2
    rw [h] at hw
    exact hw.elim
  · rintro hown ⟨k, hb⟩
    have hf := (hL .owner).2
    rw [hown] at hf
    have hx : exec .owner .finish c.shared (c.pc .owner) =
        .ok ({ c.shared with localQueues := none }, .destroyTasks) := by
      rw [hown]
      rfl
    obtain ⟨hi, -, hw⟩ := hL (.worker k)
    have hpc : Function.update c.pc .owner .destroyTasks (.worker k) = c.pc (.worker k) :=
      Function.update_of_ne (by simp) _ _
    have hself : Reach exec (· = c) c := .start rfl
    obtain ⟨d, hd, hs⟩ := reaches_queues (k := k) (hself.next hx) rfl (hG.globalQueue hf.1)
      (hpc ▸ hi) (hpc ▸ hw) (hpc ▸ hb)
    exact ⟨d, k, hd, hs⟩

section Example

/-- The worker has not begun its loop when the pool is destroyed. -/
theorem queues_outlive_workers_sample : ∃ c : Config (Thread 1) (Shared 1) PC,
    c.shared.localQueues = none ∧ c.pc (.worker 0) = .left ∧ Outlived c := by
  have step : ∀ (c d : Config (Thread 1) (Shared 1) PC) t, c.pc t ≠ .destroyLocalQueues →
      c.advance exec t .destroy = .ok d → ReachIf exec Quiet Constructed c →
      ReachIf exec Quiet Constructed d :=
    fun c d t hp hs h => .step h (fun hd => (hp hd).elim) hs
  have ready : ReachIf exec Quiet (Constructed (N := 1)) _ :=
    step _ _ .owner (by decide) rfl (step _ _ .owner (by decide) rfl
      (.start ⟨[], fun _ => [], 0, rfl⟩))
  refine ⟨_, ?_, ?_, queues_outlive_workers (step _ _ (.worker 0) (by decide) rfl
    (step _ _ (.worker 0) (by decide) rfl
    (.step (t := .owner) (o := .destroy) ready (fun _ _ => trivial) rfl)))⟩
  · rfl
  · rfl

/-- The worker is about to look at its queue when the pool is destroyed. -/
def late : List (Thread 1 × Call) :=
  List.replicate 2 (.worker 0, .finish) ++ List.replicate 3 (.owner, .destroy)

theorem uses_destroyed_queue : ¬ ∀ (N : ℕ) (c : Config (Thread N) (Shared N) PC),
    Reach exec Constructed c → ∀ k, Safe c.shared (c.pc (.worker k)) := by
  intro h
  have hrun : ∃ c, Config.run exec late (start [] (fun _ => []) 0) = .ok c ∧
      (c.pc (.worker 0)).UsesLocalQueues ∧ c.shared.localQueues = none :=
    ⟨_, rfl, trivial, rfl⟩
  obtain ⟨c, hc, hu, hl⟩ := hrun
  exact (h 1 c (ReachIf.run (.start ⟨[], fun _ => [], 0, rfl⟩) hc) 0).1 hu hl

end Example
end CsNotes.ThreadPool
