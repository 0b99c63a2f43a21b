import CsNotes.Lib.Probing
import CsNotes.Lib.Solo
import CsNotes.ThreadPool.Model

/-!
# Where a worker looks for tasks to steal

`tryStealTask` takes `localQueues.size() - 1` for the number of its probes, and for
the modulus of its subscripts too. So no worker looks at the last queue, and each
but the last one comes to its own queue in the end. Subscripts are computed in an
`unsigned int`: with very many workers they wrap, and come back to the first
queues too early.
-/
namespace CsNotes.ThreadPool
open Interleaving Probing

variable {N : ℕ} {c d : Config (Thread N) (Shared N) PC} {k : Fin N} {st : List ℕ}
variable {tasks : List ℕ} {queues : Fin N → List ℕ} {l : List (List ℕ)} {i n : ℕ} {P Q : Prop}

/-- In `runPendingTask`, before a task is found. -/
def PC.Seeking : PC → Prop
  | popLocal _ | popGlobal _ | countQueues _ | steal _ _ _ => True
  | _ => False

/-- The local queue which a worker tries to steal from. -/
def PC.probe (index : ℕ) : PC → Option ℕ
  | steal _ i n => some (victim index i n)
  | _ => none

/-- What worker `k` passes through alone until it has a task or yields. -/
abbrev Search (k : Fin N) (c : Config (Thread N) (Shared N) PC) (path : List PC)
    (d : Config (Thread N) (Shared N) PC) : Prop :=
  Passes exec (fun pc => ¬ pc.Seeking) (.worker k) c path d

/-- It has a task if `P`, else it yields. -/
def Ends (d : Config (Thread N) (Shared N) PC) (k : Fin N) (st : List ℕ) (P : Prop) : Prop :=
  (P ∧ ∃ x, d.pc (.worker k) = .run (x :: st)) ∨ (¬ P ∧ d.pc (.worker k) = .yield st)

theorem Ends.congr (h : Ends d k st P) (hiff : P ↔ Q) : Ends d k st Q := by
  unfold Ends at h ⊢
  rwa [← hiff]

theorem Search.unique {path path' : List PC} {d' : Config (Thread N) (Shared N) PC}
    (h : Search k c path d) (h' : Search k c path' d') : path = path' ∧ d = d' := by
  refine Passes.unique (fun s pc o o' hpc => ?_) h h'
  cases pc with
  | popLocal st | popGlobal st | countQueues st | steal st i n => rfl
  | _ => exact (hpc id).elim

theorem Search.go {s : Shared N} {pc : PC} {path : List PC}
    (hpc : (c.pc (.worker k)).Seeking)
    (hx : exec (.worker k) .finish c.shared (c.pc (.worker k)) = .ok (s, pc))
    (h : Search k ⟨s, Function.update c.pc (.worker k) pc⟩ path d) :
    Search k c (c.pc (.worker k) :: path) d :=
  .next (not_not_intro hpc) hx h

theorem Search.found {s : Shared N} {x : ℕ} (hpc : (c.pc (.worker k)).Seeking)
    (hx : exec (.worker k) .finish c.shared (c.pc (.worker k)) = runTask s st x) :
    ∃ d, Search k c [c.pc (.worker k)] d ∧ ∀ P, P → Ends d k st P := by
  have hrun : Function.update c.pc (.worker k) (PC.run (x :: st)) (.worker k) = .run (x :: st) :=
    Function.update_self ..
  refine ⟨_, .go hpc hx (.done fun h => ?_), fun P hP => .inl ⟨hP, x, hrun⟩⟩
  have hsearching : (PC.run (x :: st)).Seeking := hrun ▸ h
  exact hsearching

def Full (l : List (List ℕ)) (j : ℕ) : Prop := l.getD j [] ≠ []

instance (l : List (List ℕ)) : DecidablePred (Full l) :=
  fun j => inferInstanceAs (Decidable (l.getD j [] ≠ []))

/-- The queues which worker `k` would look at from the `i`-th probe on. -/
def victims (k i n : ℕ) : List ℕ := (List.range' i (n - i)).map fun i => victim k i n

theorem victims_cons (k : ℕ) (h : i < n) :
    victims k i n = victim k i n :: victims k (i + 1) n := by
  unfold victims
  rw [← Nat.succ_pred_eq_of_pos (Nat.sub_pos_of_lt h)]
  exact congrArg (fun m => _ :: List.map _ (List.range' (i + 1) m)) (Nat.sub_succ n i).symm

theorem trySteal_eq_none {q : List ℕ} : WorkStealingQueue.trySteal q = none ↔ q = [] := by
  simp [WorkStealingQueue.trySteal]

theorem search_loop (hpc : c.pc (.worker k) = .tryStealTask st i n)
    (hl : c.shared.localQueues = some l) (hk : c.shared.index (.worker k) = k)
    (hn : n ≤ l.length) :
    ∃ path d, Search k c path d ∧ path.filterMap (PC.probe k) = probed (Full l) (victims k i n) ∧
      Ends d k st (∃ j ∈ victims k i n, Full l j) := by
  induction hm : n - i generalizing i c with
  | zero =>
      have hstop : c.pc (.worker k) = .yield st := by
        rw [hpc, PC.tryStealTask, if_neg (by omega)]
      refine ⟨[], c, .done ?_, ?_, .inr ⟨?_, hstop⟩⟩
      · rw [hstop]
        exact id
      · unfold victims
        rw [hm]
        rfl
      · unfold victims
        rw [hm]
        simp
  | succ m ih =>
      have hi : i < n := by omega
      have hstep : c.pc (.worker k) = .steal st i n := by
        rw [hpc, PC.tryStealTask, if_pos hi]
      have hv : victim k i n < l.length :=
        Nat.lt_of_lt_of_le (Nat.mod_lt _ (Nat.zero_lt_of_lt hi)) hn
      have hq : l[victim k i n]? = some l[victim k i n] := List.getElem?_eq_getElem hv
      have hfull : Full l (victim k i n) ↔ l[victim k i n] ≠ [] := by
        unfold Full
        rw [List.getD_eq_getElem?_getD, hq]
        rfl
      rw [victims_cons k hi]
      cases hx : WorkStealingQueue.trySteal l[victim k i n] with
      | none =>
          have hempty := trySteal_eq_none.mp hx
          have hnext : exec (.worker k) .finish c.shared (c.pc (.worker k)) =
              .ok (c.shared, .tryStealTask st (i + 1) n) := by
            rw [hstep]
            simp only [exec, Shared.localQueue, hk, hl, hq, hx]
          have hnot : ¬ Full l (victim k i n) := fun h => hfull.mp h hempty
          obtain ⟨path, d, hd, hprobe, hend⟩ := ih
            (c := ⟨c.shared, Function.update c.pc (.worker k) (.tryStealTask st (i + 1) n)⟩)
            (Function.update_self ..) hl hk (by omega)
          refine ⟨_, d, .go ?_ hnext hd, ?_, hend.congr ?_⟩
          · rw [hstep]
            trivial
          · rw [hstep, probed, if_neg hnot, ← hprobe]
            rfl
          · simp only [List.exists_mem_cons_iff, hnot, false_or]
      | some r =>
          have hne : l[victim k i n] ≠ [] := by
            intro he
            rw [trySteal_eq_none.mpr he] at hx
            cases hx
          have hnext : exec (.worker k) .finish c.shared (c.pc (.worker k)) =
              runTask (c.shared.setLocalQueue (victim k i n) r.2) st r.1 := by
            rw [hstep]
            simp only [exec, Shared.localQueue, hk, hl, hq, hx]
          obtain ⟨d, hd, hend⟩ := Search.found (hstep ▸ trivial) hnext
          refine ⟨_, d, hd, ?_, hend _ ⟨_, List.mem_cons_self, hfull.mpr hne⟩⟩
          rw [hstep, probed, if_pos (hfull.mpr hne)]
          rfl

/-- Each subscript is one more than the one before, until the sum wraps. -/
theorem victim_eq {k : ℕ} (hk : k ≤ n) (hi : i < n) (hn : n + 1 < 2 ^ 32) :
    victim k i n =
      if k + i + 1 < n then k + i + 1
      else if k + i + 1 < 2 ^ 32 then if k + i + 1 = 2 * n then 0 else k + i + 1 - n
      else k + i + 1 - 2 ^ 32 := by
  unfold victim
  split_ifs with h₁ h₂ h₃
  · have hmod : (k + i + 1) % 2 ^ 32 = k + i + 1 := by omega
    rw [hmod, Nat.mod_eq_of_lt h₁]
  · rw [Nat.mod_eq_of_lt h₂, h₃, Nat.mul_mod_left]
  · rw [Nat.mod_eq_of_lt h₂, Nat.mod_eq_sub_mod (by omega), Nat.mod_eq_of_lt (by omega)]
  · have hmod : (k + i + 1) % 2 ^ 32 = k + i + 1 - 2 ^ 32 := by omega
    rw [hmod, Nat.mod_eq_of_lt (by omega)]

/-- The number of probes before the search comes to its own queue, or to one it
has looked at. -/
def goodProbes (k n : ℕ) : ℕ :=
  if k < n then min (n - 1) (2 ^ 32 - k - 1) else min n (2 ^ 32 - n)

/-- The queue `j` is one of the first to be looked at. -/
def Reached (k n j : ℕ) : Prop := j < n ∧ j ≠ k ∧ (k < j ∨ j + n < 2 ^ 32)

def firstVictims (k n : ℕ) : List ℕ := (List.range (goodProbes k n)).map fun i => victim k i n

section Order
variable {k j : ℕ} (hk : k ≤ n) (hn : n + 1 < 2 ^ 32)
include hk hn

theorem goodProbes_le : goodProbes k n ≤ n := by
  unfold goodProbes
  split <;> omega

theorem lt_goodProbes (hi : i < goodProbes k n) :
    i < n ∧ (k < n ∧ i + 1 < n ∧ k + i + 1 < 2 ^ 32 ∨ k = n ∧ i + n < 2 ^ 32) := by
  unfold goodProbes at hi
  split at hi <;> omega

theorem victims_eq_append : victims k 0 n = firstVictims k n ++ victims k (goodProbes k n) n := by
  unfold victims firstVictims
  rw [← List.map_append, List.range_eq_range', Nat.sub_zero]
  have hle := goodProbes_le hk hn
  have happend := List.range'_append_1 (s := 0) (m := goodProbes k n) (n := n - goodProbes k n)
  rw [Nat.zero_add, Nat.add_sub_cancel' hle] at happend
  rw [happend]

theorem mem_firstVictims : j ∈ firstVictims k n ↔ Reached k n j := by
  unfold firstVictims Reached
  constructor
  · intro hj
    obtain ⟨i, hi, rfl⟩ := List.mem_map.mp hj
    have hlt := lt_goodProbes hk hn (List.mem_range.mp hi)
    rw [victim_eq hk hlt.1 hn]
    split_ifs <;> omega
  · intro hj
    -- The probe which looks at `j`: the last one before the sum wraps, for the
    -- first queue seen from the last worker.
    have hprobe : ∃ i, i < goodProbes k n ∧ i < n ∧ (k + i + 1 = j ∨ k + i + 1 = j + n ∨
        j = 0 ∧ k = n ∧ k + i + 1 = min (2 * n) (2 ^ 32)) := by
      unfold goodProbes
      by_cases hkj : k < j
      · exact ⟨j - k - 1, by split <;> omega, by omega, by omega⟩
      by_cases hlast : j = 0 ∧ k = n
      · exact ⟨min n (2 ^ 32 - n) - 1, by split <;> omega, by omega, by omega⟩
      · exact ⟨j + n - k - 1, by split <;> omega, by omega, by omega⟩
    obtain ⟨i, hi, hin, hj'⟩ := hprobe
    refine List.mem_map.mpr ⟨i, List.mem_range.mpr hi, ?_⟩
    rw [victim_eq hk hin hn]
    split_ifs <;> omega

theorem nodup_firstVictims : (k :: firstVictims k n).Nodup := by
  refine List.nodup_cons.mpr ⟨fun h => ((mem_firstVictims hk hn).mp h).2.1 rfl, ?_⟩
  refine List.Nodup.map_on (fun i hi i' hi' he => ?_) List.nodup_range
  have hlt := lt_goodProbes hk hn (List.mem_range.mp hi)
  have hlt' := lt_goodProbes hk hn (List.mem_range.mp hi')
  rw [victim_eq hk hlt.1 hn, victim_eq hk hlt'.1 hn] at he
  split_ifs at he <;> omega

/-- The next queue is its own, or one which it has looked at. -/
theorem next_victim : ∀ j ∈ (victims k (goodProbes k n) n).head?, j ∈ k :: firstVictims k n := by
  intro j hj
  by_cases hlt : goodProbes k n < n
  · rw [victims_cons k hlt] at hj
    cases hj
    rw [List.mem_cons, mem_firstVictims hk hn, victim_eq hk hlt hn]
    unfold Reached
    unfold goodProbes at hlt ⊢
    split_ifs at hlt ⊢ <;> omega
  · unfold victims at hj
    rw [Nat.sub_eq_zero_of_le (by omega)] at hj
    cases hj

theorem victims_eq_nil : victims k (goodProbes k n) n = [] ↔ k = n ∧ 2 * n ≤ 2 ^ 32 := by
  unfold victims
  rw [List.map_eq_nil_iff, List.range'_eq_nil_iff]
  unfold goodProbes
  split_ifs <;> omega

end Order

/-- What the queues contain, while all other threads stand where they are. -/
structure Contents (c : Config (Thread N) (Shared N) PC) (k : Fin N) (tasks : List ℕ)
    (queues : Fin N → List ℕ) : Prop where
  tasks : c.shared.tasks = some tasks
  localQueues : c.shared.localQueues = some (List.ofFn queues)
  index : c.shared.index (.worker k) = k

/-- Let worker `k` stand at `pc`. -/
def enter (c : Config (Thread N) (Shared N) PC) (k : Fin N) (pc : PC) :
    Config (Thread N) (Shared N) PC := ⟨c.shared, Function.update c.pc (.worker k) pc⟩

theorem Contents.enter (hc : Contents c k tasks queues) (pc : PC) :
    Contents (enter c k pc) k tasks queues := ⟨hc.tasks, hc.localQueues, hc.index⟩

theorem full_ofFn {j : ℕ} : Full (List.ofFn queues) j ↔ ∃ h : j < N, queues ⟨j, h⟩ ≠ [] := by
  unfold Full
  rw [List.getD_eq_getElem?_getD, List.getElem?_ofFn]
  split <;> simp [*]

theorem search_tryStealTask (hc : Contents c k tasks queues) (hN : N < 2 ^ 32)
    (hpc : c.pc (.worker k) = .countQueues st) :
    ∃ path d, Search k c path d ∧
      path.filterMap (PC.probe k) = probed (Full (List.ofFn queues)) (victims k 0 (N - 1)) ∧
      Ends d k st (∃ j ∈ victims k 0 (N - 1), Full (List.ofFn queues) j) := by
  have hbound : stealBound (List.ofFn queues).length = N - 1 := by
    have hpos := Fin.pos k
    rw [List.length_ofFn]
    unfold stealBound
    omega
  have hnext : exec (.worker k) .finish c.shared (c.pc (.worker k)) =
      .ok (c.shared, .tryStealTask st 0 (N - 1)) := by
    rw [hpc, ← hbound]
    simp only [exec, hc.localQueues]
  obtain ⟨path, d, hd, hprobe, hend⟩ := search_loop (l := List.ofFn queues) (n := N - 1)
    (c := ⟨c.shared, Function.update c.pc (.worker k) (.tryStealTask st 0 (N - 1))⟩)
    (Function.update_self ..) hc.localQueues hc.index (by rw [List.length_ofFn]; omega)
  refine ⟨_, d, .go (hpc ▸ trivial) hnext hd, ?_, hend⟩
  rw [hpc, ← hprobe]
  rfl

theorem search_popGlobal (hc : Contents c k tasks queues) (hN : N < 2 ^ 32)
    (hpc : c.pc (.worker k) = .popGlobal st) :
    ∃ path d, Search k c path d ∧ Ends d k st (tasks ≠ [] ∨
      ∃ j ∈ victims k 0 (N - 1), Full (List.ofFn queues) j) := by
  cases htasks : tasks with
  | cons x q =>
      have hnext : exec (.worker k) .finish c.shared (c.pc (.worker k)) =
          runTask { c.shared with tasks := some q } st x := by
        rw [hpc]
        simp only [exec, Shared.globalQueue, hc.tasks, htasks]
      obtain ⟨d, hd, hend⟩ := Search.found (hpc ▸ trivial) hnext
      exact ⟨_, d, hd, hend _ (.inl (List.cons_ne_nil x q))⟩
  | nil =>
      have hnext : exec (.worker k) .finish c.shared (c.pc (.worker k)) =
          .ok (c.shared, .countQueues st) := by
        rw [hpc]
        simp only [exec, Shared.globalQueue, hc.tasks, htasks]
      obtain ⟨path, d, hd, -, hend⟩ := search_tryStealTask (hc.enter (.countQueues st)) hN
        (Function.update_self ..)
      exact ⟨_, d, .go (hpc ▸ trivial) hnext hd, hend.congr (by simp)⟩

theorem search_runPendingTask (hc : Contents c k tasks queues) (hN : N < 2 ^ 32)
    (hpc : c.pc (.worker k) = .popLocal st) :
    ∃ path d, Search k c path d ∧ Ends d k st (queues k ≠ [] ∨ tasks ≠ [] ∨
      ∃ j ∈ victims k 0 (N - 1), Full (List.ofFn queues) j) := by
  have hq : (List.ofFn queues)[(k : ℕ)]? = some (queues k) := by
    simp
  cases hown : queues k with
  | cons x q =>
      have hnext : exec (.worker k) .finish c.shared (c.pc (.worker k)) =
          runTask (c.shared.setLocalQueue k q) st x := by
        rw [hpc]
        simp only [exec, Shared.localQueue, hc.index, hc.localQueues, hq, hown,
          WorkStealingQueue.tryPop]
      obtain ⟨d, hd, hend⟩ := Search.found (hpc ▸ trivial) hnext
      exact ⟨_, d, hd, hend _ (.inl (List.cons_ne_nil x q))⟩
  | nil =>
      have hnext : exec (.worker k) .finish c.shared (c.pc (.worker k)) =
          .ok (c.shared, .popGlobal st) := by
        rw [hpc]
        simp only [exec, Shared.localQueue, hc.index, hc.localQueues, hq, hown,
          WorkStealingQueue.tryPop]
      obtain ⟨path, d, hd, hend⟩ := search_popGlobal (hc.enter (.popGlobal st)) hN
        (Function.update_self ..)
      exact ⟨_, d, .go (hpc ▸ trivial) hnext hd, hend.congr (by simp)⟩

/-- `tryStealTask` finds a task if another local queue has one, and looks at each of
the others once at most and never at its own. So `runPendingTask` finds a task if
there is one. -/
structure FindsWork (c : Config (Thread N) (Shared N) PC) (k : Fin N) (st tasks : List ℕ)
    (queues : Fin N → List ℕ) : Prop where
  tryStealTask : ∃ path d, Search k (enter c k (.countQueues st)) path d ∧
    Ends d k st (∃ j, j ≠ k ∧ queues j ≠ []) ∧
    (path.filterMap (PC.probe k)).Nodup ∧ (k : ℕ) ∉ path.filterMap (PC.probe k)
  runPendingTask : ∃ path d, Search k (enter c k (.popLocal st)) path d ∧
    Ends d k st (tasks ≠ [] ∨ ∃ j, queues j ≠ [])

/-- The worker is the last one, and there are not too many of them, or a queue
which it reaches before anything is looked at again is not empty. -/
def Covered (k : Fin N) (queues : Fin N → List ℕ) : Prop :=
  (k + 1 = N ∧ 2 * (N - 1) ≤ 2 ^ 32) ∨ ∃ j : Fin N, Reached k (N - 1) j ∧ queues j ≠ []

theorem nodup_probed_iff_covered (hN : N < 2 ^ 32) :
    ((k : ℕ) :: probed (Full (List.ofFn queues)) (victims k 0 (N - 1))).Nodup ↔
      Covered k queues := by
  have hk : (k : ℕ) ≤ N - 1 := by omega
  have hn : N - 1 + 1 < 2 ^ 32 := by omega
  rw [victims_eq_append hk hn, nodup_probed_iff (nodup_firstVictims hk hn) (next_victim hk hn),
    victims_eq_nil hk hn]
  unfold Covered
  refine or_congr (by omega) ?_
  constructor
  · intro ⟨j, hj, hfull⟩
    obtain ⟨hlt, hne⟩ := full_ofFn.mp hfull
    exact ⟨⟨j, hlt⟩, (mem_firstVictims hk hn).mp hj, hne⟩
  · intro ⟨j, hj, hne⟩
    exact ⟨j, (mem_firstVictims hk hn).mpr hj, full_ofFn.mpr ⟨j.isLt, hne⟩⟩

theorem exists_victim_iff (hN : N < 2 ^ 32) (h : Covered k queues) :
    (∃ j ∈ victims k 0 (N - 1), Full (List.ofFn queues) j) ↔ ∃ j, j ≠ k ∧ queues j ≠ [] := by
  have hk : (k : ℕ) ≤ N - 1 := by omega
  have hn : N - 1 + 1 < 2 ^ 32 := by omega
  have hmem : ∀ j : Fin N, Reached k (N - 1) j → queues j ≠ [] →
      ∃ j ∈ victims k 0 (N - 1), Full (List.ofFn queues) j := by
    intro j hj hne
    refine ⟨j, ?_, full_ofFn.mpr ⟨j.isLt, hne⟩⟩
    rw [victims_eq_append hk hn]
    exact List.mem_append_left _ ((mem_firstVictims hk hn).mpr hj)
  rcases h with ⟨hlast, hsmall⟩ | ⟨j, hj, hne⟩
  · constructor
    · intro ⟨j, hj, hfull⟩
      rw [victims_eq_append hk hn, (victims_eq_nil hk hn).mpr (by omega), List.append_nil] at hj
      obtain ⟨hlt, hne⟩ := full_ofFn.mp hfull
      have hjk := ((mem_firstVictims hk hn).mp hj).2.1
      exact ⟨⟨j, hlt⟩, fun he => hjk (congrArg Fin.val he), hne⟩
    · intro ⟨j, hjk, hne⟩
      have hval : (j : ℕ) ≠ k := fun he => hjk (Fin.ext he)
      refine hmem j ?_ hne
      unfold Reached
      omega
  · exact iff_of_true (hmem j hj hne) ⟨j, fun he => hj.2.1 (congrArg Fin.val he), hne⟩

theorem FindsWork.covered (h : FindsWork c k st tasks queues) (hc : Contents c k tasks queues)
    (hN : N < 2 ^ 32) : Covered k queues := by
  obtain ⟨path, d, hd, -, hnodup, hown⟩ := h.tryStealTask
  obtain ⟨path', d', hd', hprobe, -⟩ := search_tryStealTask (hc.enter (.countQueues st)) hN
    (Function.update_self ..)
  obtain ⟨rfl, -⟩ := Search.unique hd hd'
  rw [← nodup_probed_iff_covered hN, ← hprobe]
  exact List.nodup_cons.mpr ⟨hown, hnodup⟩

theorem Covered.findsWork (h : Covered k queues) (hc : Contents c k tasks queues)
    (hN : N < 2 ^ 32) (st : List ℕ) : FindsWork c k st tasks queues := by
  have hiff := exists_victim_iff hN h
  constructor
  case tryStealTask =>
    obtain ⟨path, d, hd, hprobe, hend⟩ := search_tryStealTask (hc.enter (.countQueues st)) hN
      (Function.update_self ..)
    rw [← nodup_probed_iff_covered hN, ← hprobe] at h
    obtain ⟨hown, hnodup⟩ := List.nodup_cons.mp h
    exact ⟨path, d, hd, hend.congr hiff, hnodup, hown⟩
  case runPendingTask =>
    obtain ⟨path, d, hd, hend⟩ := search_runPendingTask (hc.enter (.popLocal st)) hN
      (Function.update_self ..)
    refine ⟨path, d, hd, hend.congr ?_⟩
    rw [hiff]
    constructor
    · rintro (h | h | ⟨j, -, h⟩)
      · exact .inr ⟨k, h⟩
      · exact .inl h
      · exact .inr ⟨j, h⟩
    · rintro (h | ⟨j, h⟩)
      · exact .inr (.inl h)
      · by_cases hj : j = k
        · exact .inl (hj ▸ h)
        · exact .inr (.inr ⟨j, hj, h⟩)

/-- A worker finds work wherever it is exactly if the queues are covered. -/
theorem findsWork_iff_covered (hc : Contents c k tasks queues) (hN : N < 2 ^ 32) (st : List ℕ) :
    FindsWork c k st tasks queues ↔ Covered k queues :=
  ⟨fun h => h.covered hc hN, fun h => h.findsWork hc hN st⟩

/-- One task, in the second local queue. -/
def second (N : ℕ) (j : Fin N) : List ℕ := if j.val = 1 then [7] else []

/-- The first of three workers finds it. -/
theorem findsWork_iff_covered_three : FindsWork (start [] (second 3) 8) 0 [] [] (second 3) := by
  refine (findsWork_iff_covered (k := (0 : Fin 3)) ⟨rfl, rfl, rfl⟩ (by decide) []).mpr ?_
  unfold Covered Reached
  decide

/-- The first of two workers looks at its own queue only, and yields. -/
theorem task_in_last_queue_not_found :
    (∃ path d, Search 0 (enter (start [] (second 2) 8) 0 (.popLocal [])) path d ∧
      d.pc (.worker 0) = .yield [] ∧ path.filterMap (PC.probe 0) = [0]) ∧
    ¬ FindsWork (start [] (second 2) 8) 0 [] [] (second 2) := by
  constructor
  · refine ⟨_, _, .go trivial rfl (.go trivial rfl (.go trivial rfl (.go trivial rfl
      (.done id)))), rfl, rfl⟩
  · intro h
    have hcov := h.covered (k := (0 : Fin 2)) ⟨rfl, rfl, rfl⟩ (by decide)
    revert hcov
    unfold Covered Reached
    decide

end CsNotes.ThreadPool
