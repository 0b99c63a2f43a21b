import Mathlib.Data.Set.Card
import CsNotes.Lib.Progress
import CsNotes.LockfreeStack.Correctness

/-!
# Both stacks are lock free

As long as no weak exchange fails spuriously. An exchange then fails only if
`head` was changed since it was read, by an operation that took effect. The
thread needs a few more steps to try again, and another operation to fail again.
-/
namespace CsNotes.LockfreeStack
open Interleaving

variable {Tid Addr A : Type*}

/-- A weak exchange fails only if it finds another value. -/
def Strong {C : Type*} (_ : C) (_ : Tid) (o : Oracle Addr A) : Prop := o.spurious = false

namespace MemoryLeak

variable [DecidableEq Addr]

/-- Calls which have not taken effect. -/
def PC.pending : PC Addr A → ℕ
  | idle | takeData _ => 0
  | _ => 1

/-- How many steps a thread is from taking effect, if no other thread does. -/
def distance (s : Shared Tid Addr A) : PC Addr A → ℕ
  | .idle | .takeData _ => 0
  | .newNode _ => 3
  | .loadNext _ _ => 2
  | .pushCas _ p => if (s.mem p).map Node.next = some s.head then 1 else 2
  | .loadHead => 3
  | .readNext old => if s.head = some old then 2 else 4
  | .popCas old _ => if s.head = some old then 1 else 3

variable [DecidableEq Tid] {movedFrom : A → A} {s : Shared Tid Addr A} {pc : PC Addr A}
variable {t : Tid} {o : Oracle Addr A} {r : Shared Tid Addr A × PC Addr A}

/-- Where the loop of pop goes on, it is as close as it gets. -/
theorem distance_test (h : (s.test t).2 ≠ .idle) :
    (s.test t).1 = s ∧ distance s (s.test t).2 = 2 ∧ (s.test t).2.pending = 1 := by
  unfold Shared.test at h ⊢
  split
  · rename_i hnull
    simp [hnull] at h
  · rename_i p hp
    simp [distance, PC.pending, hp]

/-- A step inside a call takes effect, or brings the thread closer without a change
of `head`. -/
theorem exec_closer (h : exec movedFrom t o s pc = .ok r) (ho : o.spurious = false)
    (hpc : pc ≠ .idle) (hr : r.2 ≠ .idle) : r.2.pending < pc.pending ∨
      r.2.pending ≤ pc.pending ∧ r.1.head = s.head ∧ distance r.1 r.2 < distance s pc := by
  cases pc with
  | idle => exact (hpc rfl).elim
  | newNode v =>
      simp only [exec] at h
      split at h <;> cases h
      exact .inr ⟨le_rfl, rfl, by simp [distance]⟩
  | loadNext v p =>
      simp only [exec, Shared.access] at h
      split at h <;> cases h
      exact .inr ⟨le_rfl, rfl, by simp [distance, Shared.write]⟩
  | pushCas v p =>
      simp only [exec, Shared.access] at h
      split at h
      · cases h
      rename_i n hn
      split at h
      · cases h
        exact (hr rfl).elim
      · rename_i hcas
        cases h
        have hne : s.head ≠ n.next := fun he => hcas ⟨he, ho⟩
        refine .inr ⟨le_rfl, rfl, ?_⟩
        simp [distance, hn, Shared.write, hne.symm]
  | loadHead =>
      cases h
      obtain ⟨hs, hd, hp⟩ := distance_test hr
      rw [hs, hd, hp]
      exact .inr ⟨le_rfl, rfl, by simp [distance]⟩
  | readNext old =>
      simp only [exec, Shared.access] at h
      split at h
      · cases h
      cases h
      refine .inr ⟨le_rfl, rfl, ?_⟩
      simp only [distance]
      split <;> omega
  | popCas old next =>
      simp only [exec] at h
      split at h
      · cases h
        exact .inl Nat.zero_lt_one
      · rename_i hcas
        cases h
        have hne : s.head ≠ some old := fun he => hcas ⟨he, ho⟩
        obtain ⟨hs, hd, hp⟩ := distance_test hr
        rw [hs, hd, hp]
        exact .inr ⟨le_rfl, rfl, by simp [distance, hne]⟩
  | takeData old =>
      simp only [exec, Shared.access] at h
      split at h
      · cases h
      cases h
      exact (hr rfl).elim

/-- Only its own thread writes the `next` of a node, and only until it is linked. -/
theorem exec_next (h : exec movedFrom t o s pc = .ok r) {a : Addr} {n : Node Addr A}
    (hn : s.mem a = some n) (ha : pc.owned ≠ some (a, .fresh)) :
    (r.1.mem a).map Node.next = some n.next := by
  have hsame : r.1.mem a = s.mem a → (r.1.mem a).map Node.next = some n.next := by
    intro he
    rw [he, hn]
    rfl
  have htest : (s.test t).1.mem = s.mem := by
    unfold Shared.test
    split <;> rfl
  cases pc with
  | idle =>
      simp only [exec] at h
      split at h <;> cases h <;> exact hsame rfl
  | newNode v =>
      simp only [exec] at h
      split at h
      · rename_i hfree
        cases h
        have hne : a ≠ o.addr := by
          rintro rfl
          exact Option.some_ne_none n (hn.symm.trans hfree)
        exact hsame (Shared.write_of_ne hne)
      · cases h
  | loadNext v p =>
      have hne : a ≠ p := by
        rintro rfl
        exact ha rfl
      simp only [exec, Shared.access] at h
      split at h <;> cases h
      exact hsame (Shared.write_of_ne hne)
  | pushCas v p =>
      have hne : a ≠ p := by
        rintro rfl
        exact ha rfl
      simp only [exec, Shared.access] at h
      split at h
      · cases h
      split at h <;> cases h
      · exact hsame rfl
      · exact hsame (Shared.write_of_ne hne)
  | loadHead =>
      cases h
      exact hsame (congrFun htest a)
  | readNext old =>
      simp only [exec, Shared.access] at h
      split at h <;> cases h
      exact hsame rfl
  | popCas old next =>
      simp only [exec] at h
      split at h <;> cases h
      · exact hsame rfl
      · exact hsame (congrFun htest a)
  | takeData old =>
      simp only [exec, Shared.access] at h
      split at h
      · cases h
      rename_i k hk
      cases h
      by_cases hne : a = old
      · subst hne
        obtain rfl := Option.some.inj (hk.symm.trans hn)
        simp [Shared.answer, Shared.write]
      · exact hsame (Shared.write_of_ne hne)

variable {c : Config Tid (Shared Tid Addr A) (PC Addr A)}

theorem distance_other (hc : Reach (exec movedFrom) (· = start) c) {u : Tid} (hu : u ≠ t)
    (h : exec movedFrom t o c.shared (c.pc t) = .ok r) (hhead : r.1.head = c.shared.head) :
    distance r.1 (c.pc u) ≤ distance c.shared (c.pc u) := by
  obtain ⟨g, -, hL⟩ := (outline movedFrom).holds hc
  cases hpc : c.pc u with
  | pushCas v p =>
      have hrole : g.role p = .own u .fresh := ((hL u).owned p .fresh).mpr (by rw [hpc]; rfl)
      have hne : (c.pc t).owned ≠ some (p, .fresh) := by
        intro he
        have hown := ((hL t).owned p .fresh).mpr he
        rw [hrole] at hown
        cases hown
        exact hu rfl
      have hf := (hL u).facts
      rw [hpc] at hf
      obtain ⟨⟨n, hn, -⟩, -⟩ := hf
      simp only [distance]
      rw [exec_next h hn hne, hn, hhead]
      rfl
  | idle | newNode _ | loadNext _ _ | loadHead | readNext _ | popCas _ _ | takeData _ =>
      simp only [distance, hhead, le_refl]

theorem ranking (movedFrom : A → A) :
    Ranking (exec movedFrom : Code Tid (Oracle Addr A) (Shared Tid Addr A) (PC Addr A))
      (· = start) Strong (· = .idle) [fun _ => PC.pending, distance] where
  descends := by
    intro c t o r hc ho hpc hx hr
    refine ⟨fun u _ => le_rfl, ?_⟩
    rcases exec_closer hx ho hpc hr with hlt | ⟨hle, hhead, hlt⟩
    · exact .inl hlt
    · exact .inr ⟨hle, fun u hu => distance_other hc hu hx hhead, .inl hlt⟩

/-- Calls of the stack that leaks its nodes keep returning. -/
theorem memory_leak_lock_free [Finite Tid] (movedFrom : A → A) :
    LockFree (exec movedFrom : Code Tid (Oracle Addr A) (Shared Tid Addr A) (PC Addr A))
      (· = start) Strong (· = .idle) :=
  (ranking movedFrom).lockFree

theorem memory_leak_lock_free_two :
    LockFree (exec id : Code (Fin 2) (Oracle ℕ ℕ) (Shared (Fin 2) ℕ ℕ) (PC ℕ ℕ))
      (· = start) Strong (· = .idle) :=
  memory_leak_lock_free id

/-- `t` is going to fail, and `u` can push once more. -/
structure Starving (t u : Tid) (c : Config Tid (Shared Tid Addr A) (PC Addr A)) : Prop where
  loser : ∃ v p n, c.pc t = .pushCas v p ∧ c.shared.mem p = some n ∧ n.next ≠ c.shared.head
  winner : c.pc u = .idle
  head : ∀ a, c.shared.head = some a → c.shared.mem a ≠ none
  finite : {a | c.shared.mem a ≠ none}.Finite

/-- No weak exchange fails spuriously, and `u` only calls `push`. -/
def Pushing (u : Tid) (c : Config Tid (Shared Tid Addr A) (PC Addr A)) (t : Tid)
    (o : Oracle Addr A) : Prop :=
  Strong c t o ∧ (t = u → ∃ v, o.call = .push v)

/-- After a push of `v` by `u` that nothing came in between of. -/
def Shared.pushed (s : Shared Tid Addr A) (u : Tid) (v : A) (a : Addr) : Shared Tid Addr A :=
  { s.write a ⟨v, s.head⟩ with head := some a, history := s.history ++ [.push u v] }

theorem rest_push {P : Config Tid (Shared Tid Addr A) (PC Addr A) → Prop} {t u : Tid}
    {v : A} {a : Addr} (htu : t ≠ u) (hu : c.pc u = .idle) (ha : c.shared.mem a = none)
    (h : ∀ f : Tid → PC Addr A, f t = c.pc t → f u = .idle →
      P ⟨c.shared.pushed u v a, f⟩) :
    Rest (exec movedFrom) (Unfinished (exec movedFrom) (Pushing u) (· = .idle) (· = t)) P
      (c, List.replicate 4 (u, ⟨.push v, a, false⟩)) := by
  have hmake : exec movedFrom u ⟨.push v, a, false⟩ c.shared (.newNode v) =
      .ok (c.shared.write a ⟨v, none⟩, .loadNext v a) := if_pos ha
  have hload : exec movedFrom u ⟨.push v, a, false⟩ (c.shared.write a ⟨v, none⟩)
      (.loadNext v a) = .ok (c.shared.write a ⟨v, c.shared.head⟩, .pushCas v a) := by
    simp only [exec, Shared.access_of Shared.write_self, Shared.write_write]
    rfl
  have hpush : exec movedFrom u ⟨.push v, a, false⟩ (c.shared.write a ⟨v, c.shared.head⟩)
      (.pushCas v a) = .ok (c.shared.pushed u v a, .idle) := by
    simp only [exec, Shared.access_of Shared.write_self]
    exact if_pos ⟨rfl, trivial⟩
  have hut : u = t → ∀ l : PC Addr A, ¬ l = .idle := fun h => (htu h.symm).elim
  have hg : ∀ c, Pushing u c u (⟨.push v, a, false⟩ : Oracle Addr A) := fun c =>
    ⟨rfl, fun _ => ⟨v, rfl⟩⟩
  refine .at hu rfl (hg _) (fun h => hut h _) ?_
  refine .at (Function.update_self ..) hmake (hg _) (fun h => hut h _) ?_
  refine .at (Function.update_self ..) hload (hg _) (fun h => hut h _) ?_
  refine .at (Function.update_self ..) hpush (hg _) (fun h => hut h _) (.done ?_)
  exact h _ (by simp [htu]) (Function.update_self ..)

omit [DecidableEq Tid] in
/-- A thread whose node links to what `head` was fails after a push. -/
theorem starving_pushed {t u : Tid} {v w x : A} {a p : Addr} {f : Tid → PC Addr A}
    (ha : s.mem a = none) (hp : s.mem p = some ⟨x, s.head⟩) (hfin : {a | s.mem a ≠ none}.Finite)
    (hhead : ∀ a, s.head = some a → s.mem a ≠ none) (ht : f t = .pushCas w p)
    (hu : f u = .idle) : Starving t u ⟨s.pushed u v a, f⟩ := by
  have hpa : p ≠ a := by
    rintro rfl
    exact Option.some_ne_none _ (hp.symm.trans ha)
  refine ⟨⟨w, p, _, ht, (Shared.write_of_ne hpa).trans hp, fun he => hhead a he ha⟩, hu,
    fun b hb => ?_, (hfin.insert a).subset fun b hb => ?_⟩
  · cases hb
    have hself : (s.pushed u v a).mem a = some ⟨v, s.head⟩ := Shared.write_self
    exact hself ▸ Option.some_ne_none _
  · by_cases hba : b = a
    · exact .inl hba
    · have hb : (s.write a ⟨v, s.head⟩).mem b ≠ none := hb
      rw [Shared.write_of_ne hba] at hb
      exact .inr hb

theorem Starving.round [Infinite Addr] {t u : Tid} (htu : t ≠ u) (v : A) (h : Starving t u c) :
    ∃ l, l.map Prod.fst = t :: List.replicate 4 u ∧ Rest (exec movedFrom)
      (Unfinished (exec movedFrom) (Pushing u) (· = .idle) (· = t)) (Starving t u) (c, l) := by
  obtain ⟨⟨w, p, n, hpc, hn, hne⟩, hidle, hhead, hfin⟩ := h
  let s : Shared Tid Addr A := c.shared.write p { n with next := c.shared.head }
  have hfail : exec movedFrom t ⟨.pop, p, false⟩ c.shared (.pushCas w p) =
      .ok (s, .pushCas w p) := by
    simp only [exec, Shared.access_of hn]
    exact if_neg fun he => hne he.1.symm
  have hp : s.mem p = some ⟨n.data, s.head⟩ := Shared.write_self
  have hsame : ∀ b, s.mem b = none ↔ c.shared.mem b = none := by
    intro b
    by_cases hb : b = p
    · subst hb
      simp [hn, hp]
    · exact iff_of_eq (congrArg (· = none) (Shared.write_of_ne hb))
  obtain ⟨a, ha⟩ := hfin.exists_notMem
  have ha : s.mem a = none := (hsame a).mpr (not_not.mp ha)
  refine ⟨_, rfl, .at hpc hfail ⟨rfl, fun he => (htu he).elim⟩ (by simp)
    (rest_push (v := v) htu ?_ ha fun f ht hu => ?_)⟩
  · exact (Function.update_of_ne htu.symm _ _).trans hidle
  · refine starving_pushed ha hp ?_ (fun b hb => mt (hsame b).mp (hhead b hb))
      (ht.trans (Function.update_self ..)) hu
    exact hfin.subset fun b hb => mt (hsame b).mpr hb

/-- `t` has loaded a null `head` for its node, and then `u` pushes another. -/
theorem exists_starving [Nontrivial Addr] {t u : Tid} (htu : t ≠ u) (v : A) :
    ∃ c : Config Tid (Shared Tid Addr A) (PC Addr A),
      Reach (exec movedFrom) (· = start) c ∧ Starving t u c := by
  obtain ⟨a, b, hab⟩ := exists_pair_ne Addr
  let s₀ : Shared Tid Addr A := ⟨none, fun _ => none, [], fun _ => []⟩
  let s : Shared Tid Addr A := s₀.write a ⟨v, none⟩
  have hrest : Rest (exec movedFrom) (Unfinished (exec movedFrom) (Pushing u) (· = .idle) (· = t))
      (Starving t u) (start, List.replicate 3 (t, ⟨.push v, a, false⟩) ++
        List.replicate 4 (u, ⟨.push v, b, false⟩)) := by
    have hg : ∀ {c}, Pushing u c t (⟨.push v, a, false⟩ : Oracle Addr A) :=
      ⟨rfl, fun he => (htu he).elim⟩
    have hb : s.mem b = none := Shared.write_of_ne hab.symm
    have hmake : exec movedFrom t ⟨.push v, a, false⟩ s₀ (.newNode v) =
        .ok (s, .loadNext v a) := rfl
    have hload : exec movedFrom t ⟨.push v, a, false⟩ s (.loadNext v a) =
        .ok (s, .pushCas v a) := by
      have hself : s.write a ⟨v, none⟩ = s := Shared.write_write
      refine (Shared.access_of Shared.write_self).trans ?_
      exact congrArg (fun s => Outcome.ok (s, PC.pushCas v a)) hself
    refine .at (x := .idle) rfl rfl hg (by simp) ?_
    refine .at (Function.update_self ..) hmake hg (by simp) ?_
    refine .at (Function.update_self ..) hload hg (by simp) ?_
    refine rest_push htu ?_ hb fun f ht hu => ?_
    · simp [htu.symm, start]
    · refine starving_pushed hb Shared.write_self ?_ ?_ (ht.trans (Function.update_self ..)) hu
      · refine (Set.finite_singleton a).subset fun d hd => ?_
        by_contra hda
        exact hd (Shared.write_of_ne hda)
      · intro d hd
        cases hd
  obtain ⟨c, hrun, -, hc⟩ := hrest
  exact ⟨c, ReachIf.run (.start rfl) hrun, hc⟩

/-- An exchange of `head` fails and is made again, or the push returns. -/
theorem exec_pushCas {w : A} {p : Addr} (h : exec movedFrom t o s (.pushCas w p) = .ok r)
    (hr : r.2 ≠ .idle) : r.2 = .pushCas w p := by
  simp only [exec, Shared.access] at h
  split at h
  · cases h
  · split at h <;> cases h
    · exact (hr rfl).elim
    · rfl

/-- A run in which a push of `t` takes steps for ever and does not return, while one
push of `u` returns after the other. -/
structure Starves (movedFrom : A → A) (t u : Tid)
    (e : Execution (exec movedFrom : Code Tid (Oracle Addr A) (Shared Tid Addr A) (PC Addr A))
      Strong) : Prop where
  reach : Reach (exec movedFrom) (· = start) (e.config 0)
  pushes : ∃ w p, ∀ n, (e.config n).pc t = .pushCas w p
  steps : ∀ n, ∃ m, n ≤ m ∧ e.thread m = t
  calls : ∀ n, e.thread n = u → ∃ v, (e.choice n).call = .push v
  returns : ∀ n, ∃ m, n ≤ m ∧ e.thread m = u ∧ e.Returns (· = .idle) m

/-- No exchange fails spuriously, and yet a push may never return. -/
theorem memory_leak_not_wait_free [Infinite Addr] [Nonempty A] {t u : Tid} (htu : t ≠ u)
    (movedFrom : A → A) :
    (∃ e : Execution (exec movedFrom : Code Tid (Oracle Addr A) _ (PC Addr A)) Strong,
      Starves movedFrom t u e) ∧
    ¬ WaitFree (exec movedFrom : Code Tid (Oracle Addr A) (Shared Tid Addr A) (PC Addr A))
      (· = start) Strong (· = .idle) := by
  have v : A := Classical.choice inferInstance
  obtain ⟨c, hc, hs⟩ := @exists_starving Tid Addr A _ _ movedFrom _ t u htu v
  have hround : ∀ d : Config Tid (Shared Tid Addr A) (PC Addr A), Starving t u d →
      ∃ l, l.map Prod.fst = t :: List.replicate 4 u ∧ Rest (exec movedFrom)
        (Unfinished (exec movedFrom) (Pushing u) (· = .idle) (· = t)) (Starving t u) (d, l) :=
    fun d hd => hd.round htu v
  obtain ⟨e, rfl, hthread, hstarving⟩ := exists_execution (by simp) hround hs
  have hnever : ∀ n, e.thread n = t → ¬ e.Returns (· = .idle) n := fun n hn => e.not_returns hn
  obtain ⟨w, p, n, hpc, -⟩ := hs.loser
  have hpush : ∀ n, (e.config n).pc t = .pushCas w p := by
    intro n
    induction n with
    | zero => exact hpc
    | succ n ih =>
        by_cases hn : e.thread n = t
        · obtain ⟨r, hr, he⟩ := e.exists_exec hn ih
          have hreturn := hnever n hn
          rw [Execution.Returns, hn, he] at hreturn
          exact he.trans (exec_pushCas hr hreturn)
        · exact (e.pc_of_ne (Ne.symm hn)).trans ih
  have hreturns : ∀ n, ∃ m, n ≤ m ∧ e.thread m = u ∧ e.Returns (· = .idle) m := by
    intro n
    have hu : e.thread (n * 5 + 4) = u := hthread n 4 u rfl
    refine ⟨n * 5 + 4, by omega, hu, ?_⟩
    have hidle := (hstarving (n + 1)).winner
    rw [Execution.Returns, hu]
    simpa [Nat.add_mul] using hidle
  have hstarves : Starves movedFrom t u (e.mono fun _ _ _ h => h.1.1) :=
    ⟨hc, ⟨w, p, hpush⟩, e.recurs hthread (by simp), fun n hn => (e.guarded n).1.2 hn, hreturns⟩
  refine ⟨⟨_, hstarves⟩, fun hwait => ?_⟩
  obtain ⟨m, -, hm, hr⟩ := hwait _ hc t hstarves.steps 0
  exact hnever m hm hr

theorem memory_leak_not_wait_free_two :
    (∃ e : Execution (exec id : Code (Fin 2) (Oracle ℕ ℕ) _ (PC ℕ ℕ)) Strong, Starves id 0 1 e) ∧
    ¬ WaitFree (exec id : Code (Fin 2) (Oracle ℕ ℕ) (Shared (Fin 2) ℕ ℕ) (PC ℕ ℕ))
      (· = start) Strong (· = .idle) :=
  memory_leak_not_wait_free Fin.zero_ne_one id

end MemoryLeak

namespace SharedPtr
open Storage

namespace PC

def pending : PC Addr A → ℕ
  | idle | takeData _ => 0
  | release _ _ k => k.pending
  | _ => 1

def unmade : PC Addr A → ℕ
  | newNode _ => 1
  | release _ _ k => k.unmade
  | _ => 0

def made : PC Addr A → Option (Ptr Addr)
  | loadNext _ p | copyNew _ p | pushCas _ p => some p
  | release _ _ k => k.made
  | _ => none

variable {k : PC Addr A} {ps : List (Ptr Addr)}

@[simp] theorem pending_after : (after ps k).pending = k.pending := by
  cases ps <;> rfl

@[simp] theorem unmade_after : (after ps k).unmade = k.unmade := by
  cases ps <;> rfl

end PC

noncomputable def live (s : Shared Tid Addr A) (_ : PC Addr A) : ℕ :=
  {i | ∃ (p : Ptr Addr) (n : Node Addr A), p.id = i ∧ s.mem.read p = some n}.ncard

def next (s : Shared Tid Addr A) (p : Ptr Addr) : Option (Option (Ptr Addr)) :=
  (s.mem.read p).map Node.next

variable [DecidableEq Addr]

/-- The next exchange which links the new node finds what it expects. -/
def Fresh (s : Shared Tid Addr A) (p : Ptr Addr) : Prop :=
  (next s p).map (Option.map Ptr.addr) = some (s.head.map Ptr.addr)

instance (s : Shared Tid Addr A) (p : Ptr Addr) : Decidable (Fresh s p) :=
  inferInstanceAs (Decidable (_ = _))

/-- How many steps a thread is from taking effect, or from its return after that, if
no other thread takes effect and no node is deleted. -/
def distance (s : Shared Tid Addr A) : PC Addr A → ℕ
  | .idle => 0
  | .newNode _ => 0
  | .loadNext _ _ => 4
  | .copyNew _ p => if Fresh s p then 2 else 6
  | .pushCas _ p => if Fresh s p then 1 else 5
  | .loadHead => 3
  | .readNext old => if Same s.head (some old) then 2 else 6
  | .popCas old _ => if Same s.head (some old) then 1 else 5
  | .takeData _ => 2
  | .release _ ps k => ps.length + 1 + distance s k

variable {s s' : Shared Tid Addr A} {pc pc' k : PC Addr A} {ps : List (Ptr Addr)}
variable {p : Ptr Addr} {n n' : Node Addr A} {x : Option (Ptr Addr)}

@[simp] theorem distance_after : distance s (.after ps k) = ps.length + distance s k := by
  cases ps with
  | nil => exact (Nat.zero_add _).symm
  | cons p ps => rfl

omit [DecidableEq Addr] in
theorem fresh_congr (hhead : s'.head = s.head) (hnext : next s' p = next s p) :
    Fresh s' p ↔ Fresh s p := by
  unfold Fresh
  rw [hhead, hnext]

/-- Only `head` and the `next` of its new node matter to a thread. -/
theorem distance_congr (hhead : s'.head = s.head) (hnext : ∀ p ∈ k.made, next s' p = next s p) :
    distance s' k = distance s k := by
  induction k with
  | copyNew v p | pushCas v p =>
      simp only [distance, fresh_congr hhead (hnext p rfl)]
  | release p ps k ih =>
      simp only [distance]
      rw [ih hnext]
  | readNext old | popCas old next =>
      simp only [distance]
      rw [hhead]
  | idle | newNode _ | loadNext _ _ | loadHead | takeData _ => rfl

omit [DecidableEq Addr] in
theorem next_of (hn : s.mem.read p = some n) : next s p = some n.next := by
  unfold next
  rw [hn]
  rfl

theorem next_copied (h : Copied s x s') : next s' p = next s p := by
  have hsnd : ∀ s : Shared Tid Addr A,
      next s p = ((s.mem.read p).map Node.content).map Prod.snd := by
    intro s
    unfold next
    rw [Option.map_map]
    rfl
  rw [hsnd, hsnd, h.content]

theorem next_write (hn : s.mem.read p = some n) (h : s'.mem = s.mem.write p n') (q : Ptr Addr) :
    next s' q = if q = p then some n'.next else next s q := by
  unfold next
  rw [h, Memory.read_write hn]
  split <;> rfl

theorem next_write_same (hn : s.mem.read p = some n) (n' : Node Addr A)
    (h : s'.mem = s.mem.write p n') (hsame : n'.next = n.next) (q : Ptr Addr) :
    next s' q = next s q := by
  rw [next_write hn h]
  split
  · rename_i hq
    rw [hq, next_of hn, hsame]
  · rfl

omit [DecidableEq Addr] in
theorem live_le (h : ∀ p n, s'.mem.read p = some n → ∃ n', s.mem.read p = some n') :
    live s' pc' ≤ live s pc := by
  refine Set.ncard_le_ncard ?_ ((Set.finite_lt_nat s.mem.allocs).subset ?_)
  · rintro i ⟨p, n, hp, hn⟩
    obtain ⟨n', hn'⟩ := h p n hn
    exact ⟨p, n', hp, hn'⟩
  · rintro i ⟨p, n, rfl, hn⟩
    exact s.mem.id_lt _ _ (Memory.read_eq_some.mp hn)

theorem live_free (hn : s.mem.read p = some n) (h : s'.mem = s.mem.free p) :
    live s' pc' < live s pc := by
  have hread : ∀ q d, s'.mem.read q = some d → q ≠ p ∧ s.mem.read q = some d := by
    intro q d hd
    rw [h, Memory.read_free hn] at hd
    split at hd
    · cases hd
    · rename_i hq
      exact ⟨hq, hd⟩
  refine Set.ncard_lt_ncard ?_ ((Set.finite_lt_nat s.mem.allocs).subset ?_)
  · refine (Set.ssubset_iff_of_subset ?_).mpr ⟨p.id, ⟨p, n, rfl, hn⟩, ?_⟩
    · rintro i ⟨q, d, hq, hd⟩
      exact ⟨q, d, hq, (hread q d hd).2⟩
    · rintro ⟨q, d, hq, hd⟩
      obtain ⟨hqp, hd⟩ := hread q d hd
      exact hqp (Memory.ptr_eq_of_id hd hn hq)
  · rintro i ⟨q, d, rfl, hd⟩
    exact s.mem.id_lt _ _ (Memory.read_eq_some.mp hd)

theorem live_copied (h : Copied s x s') : live s' pc' ≤ live s pc := by
  refine live_le fun p n hn => ?_
  have hc := h.content p
  rw [hn] at hc
  obtain ⟨n', hn', -⟩ := Option.map_eq_some_iff.mp hc.symm
  exact ⟨n', hn'⟩

theorem live_write (hn : s.mem.read p = some n) (h : s'.mem = s.mem.write p n') :
    live s' pc' ≤ live s pc := by
  refine live_le fun q d hd => ?_
  rw [h, Memory.read_write hn] at hd
  split at hd
  · rename_i hq
    exact ⟨n, hq ▸ hn⟩
  · exact ⟨d, hd⟩

/-- The thread takes effect, or makes a node, or deletes one, or has less left to do. -/
def Closer (s : Shared Tid Addr A) (pc : PC Addr A) (r : Shared Tid Addr A × PC Addr A) : Prop :=
  r.2.pending < pc.pending ∨ r.2.pending ≤ pc.pending ∧ r.1.head = s.head ∧
    (r.2.unmade < pc.unmade ∨ r.2.unmade ≤ pc.unmade ∧
      (live r.1 r.2 < live s pc ∨ live r.1 r.2 ≤ live s pc ∧
        distance r.1 r.2 < distance s pc))

theorem Closer.of_distance {r : Shared Tid Addr A × PC Addr A} (hp : r.2.pending = pc.pending)
    (hh : r.1.head = s.head) (hu : r.2.unmade = pc.unmade) (hl : live r.1 r.2 ≤ live s pc)
    (hd : distance r.1 r.2 < distance s pc) : Closer s pc r :=
  .inr ⟨hp.le, hh, .inr ⟨hu.le, .inr ⟨hl, hd⟩⟩⟩

variable [DecidableEq Tid] {movedFrom : A → A} {t : Tid} {o : Oracle Addr A}
variable {r : Shared Tid Addr A × PC Addr A}

theorem closer_test (hs : Copied s x s') (hp : pc.pending = 1) (hu : pc.unmade = 0)
    (hd : ps.length + 2 < distance s pc) : Closer s pc (s'.test t ps) := by
  unfold Shared.test
  split
  · refine .inl ?_
    rw [hp, PC.pending_after]
    exact Nat.zero_lt_one
  · rename_i p hhead
    have hsame : Same s'.head (some p) := congrArg _ hhead
    refine .of_distance ?_ hs.head ?_ (live_copied hs) ?_
    · rw [hp, PC.pending_after]
      rfl
    · rw [hu, PC.unmade_after]
      rfl
    · rw [distance_after]
      simp only [distance, if_pos hsame]
      exact hd

omit [DecidableEq Tid] in
theorem closer_relink {v : A} (h : s.relink v p ps = .ok r) (hp : pc.pending = 1)
    (hu : pc.unmade = 0) (hd : ps.length + 3 < distance s pc) : Closer s pc r := by
  obtain ⟨s', n', hs, hn', rfl⟩ := relink_eq_ok h
  have hfresh : Fresh (s'.write p { n' with next := s'.head }) p := by
    unfold Fresh
    rw [next_write hn' rfl, if_pos rfl]
    rfl
  refine .of_distance ?_ hs.head ?_
    (le_trans (b := live s' .idle) (live_write hn' rfl) (live_copied hs)) ?_
  · rw [hp, PC.pending_after]
    rfl
  · rw [hu, PC.unmade_after]
    rfl
  · rw [distance_after]
    simp only [distance, if_pos hfresh]
    refine lt_of_le_of_lt ?_ hd
    cases n'.next <;> simp

theorem exec_closer (h : exec movedFrom t o s pc = .ok r) (ho : o.spurious = false)
    (hpc : pc ≠ .idle) : Closer s pc r := by
  cases pc with
  | idle => exact (hpc rfl).elim
  | newNode v =>
      simp only [exec] at h
      split at h <;> cases h
      exact .inr ⟨le_rfl, rfl, .inl Nat.zero_lt_one⟩
  | loadNext v p => exact closer_relink h rfl rfl (by simp [distance])
  | copyNew v p =>
      simp only [exec] at h
      obtain ⟨s', hs, h⟩ := copy_eq_ok h
      cases h
      refine .of_distance rfl hs.head rfl (live_copied hs) ?_
      simp only [distance, fresh_congr hs.head (next_copied hs)]
      split <;> omega
  | pushCas v p =>
      obtain ⟨n, hn, h⟩ := Memory.access_eq_ok.mp h
      split at h
      · cases h
        refine .inl ?_
        rw [PC.pending_after]
        exact Nat.zero_lt_one
      · rename_i hcas
        have hstale : ¬ Fresh s p := by
          intro hf
          unfold Fresh at hf
          rw [next_of hn] at hf
          exact hcas ⟨(Option.some.inj hf).symm, ho⟩
        exact closer_relink h rfl rfl (by simp [distance, hstale])
  | loadHead =>
      simp only [exec] at h
      obtain ⟨s', hs, h⟩ := copy_eq_ok h
      cases h
      exact closer_test hs rfl rfl (by simp [distance])
  | readNext old =>
      obtain ⟨n, hn, h⟩ := Memory.access_eq_ok.mp h
      obtain ⟨s', hs, h⟩ := copy_eq_ok h
      cases h
      refine .of_distance rfl hs.head rfl (live_copied hs) ?_
      simp only [distance, hs.head]
      split <;> omega
  | popCas old next =>
      simp only [exec] at h
      split at h
      · cases h
        refine .inl ?_
        rw [PC.pending_after]
        exact Nat.zero_lt_one
      · rename_i hcas
        obtain ⟨s', hs, h⟩ := copy_eq_ok h
        cases h
        have hstale : ¬ Same s.head (some old) := fun hsame => hcas ⟨hsame, ho⟩
        refine closer_test hs rfl rfl ?_
        simp only [distance, if_neg hstale]
        cases next <;> simp
  | takeData old =>
      obtain ⟨n, hn, h⟩ := Memory.access_eq_ok.mp h
      cases h
      exact .of_distance rfl rfl rfl (live_write hn rfl) (by simp [distance])
  | release p ps k =>
      obtain ⟨n, hn, h⟩ := Memory.access_eq_ok.mp h
      split at h
      · cases h
        refine .inr ⟨PC.pending_after.le, rfl, .inr ⟨PC.unmade_after.le, .inl ?_⟩⟩
        exact live_free hn rfl
      · cases h
        let n' : Node Addr A := { n with useCount := n.useCount - 1 }
        have hdist : distance (s.write p n') k = distance s k :=
          distance_congr rfl fun q _ => next_write_same hn n' rfl rfl q
        refine .of_distance PC.pending_after rfl PC.unmade_after (live_write hn rfl) ?_
        rw [distance_after, hdist]
        simp only [distance]
        omega

/-- Only its own thread writes the `next` of a node, and only until it is linked. -/
theorem exec_next (h : exec movedFrom t o s pc = .ok r) (hn : s.mem.read p = some n)
    (hr : r.1.mem.read p ≠ none) (hp : p ∉ pc.made) : next r.1 p = next s p := by
  have hrelink : ∀ {v q ps}, s.relink v q ps = .ok r → p ≠ q → SharedPtr.next r.1 p =
      SharedPtr.next s p := by
    intro v q ps h hne
    obtain ⟨s', n₂, hs, hn₂, rfl⟩ := relink_eq_ok h
    rw [next_write hn₂ rfl, if_neg hne, next_copied hs]
  cases pc with
  | idle =>
      simp only [exec] at h
      split at h <;> cases h <;> rfl
  | newNode v =>
      simp only [exec] at h
      split at h <;> cases h
      rename_i ha
      unfold SharedPtr.next
      rw [Memory.eqOff_alloc.read (Memory.addr_ne_of_read hn ha)]
  | loadNext v q =>
      refine hrelink h ?_
      rintro rfl
      exact hp rfl
  | copyNew v q =>
      simp only [exec] at h
      obtain ⟨s', hs, h⟩ := copy_eq_ok h
      cases h
      exact next_copied hs
  | pushCas v q =>
      obtain ⟨n₁, -, h⟩ := Memory.access_eq_ok.mp h
      split at h
      · cases h
        rfl
      · refine hrelink h ?_
        rintro rfl
        exact hp rfl
  | loadHead =>
      simp only [exec] at h
      obtain ⟨s', hs, h⟩ := copy_eq_ok h
      cases h
      unfold SharedPtr.next
      rw [mem_test.1]
      exact next_copied hs
  | readNext q =>
      obtain ⟨n₁, -, h⟩ := Memory.access_eq_ok.mp h
      obtain ⟨s', hs, h⟩ := copy_eq_ok h
      cases h
      exact next_copied hs
  | popCas q x =>
      simp only [exec] at h
      split at h
      · cases h
        rfl
      · obtain ⟨s', hs, h⟩ := copy_eq_ok h
        cases h
        unfold SharedPtr.next
        rw [mem_test.1]
        exact next_copied hs
  | takeData q =>
      obtain ⟨n₁, hn₁, h⟩ := Memory.access_eq_ok.mp h
      cases h
      exact next_write_same hn₁ { n₁ with data := movedFrom n₁.data } rfl rfl p
  | release q ps k =>
      obtain ⟨n₁, hn₁, h⟩ := Memory.access_eq_ok.mp h
      split at h <;> cases h
      · have hfree : (s.mem.free q).read p = s.mem.read p := by
          rw [Memory.read_free hn₁] at hr ⊢
          split at hr
          · exact (hr rfl).elim
          · rename_i hpq
            exact if_neg hpq
        unfold SharedPtr.next
        rw [hfree]
      · exact next_write_same hn₁ { n₁ with useCount := n₁.useCount - 1 } rfl rfl p

variable {c : Config Tid (Shared Tid Addr A) (PC Addr A)} {u : Tid}

omit [DecidableEq Addr] in
theorem made_held (hp : p ∈ pc.made) : p ∈ pc.held := by
  induction pc with
  | loadNext v q | copyNew v q | pushCas v q => simp_all [PC.made, PC.held]
  | release q ps k ih => simp [PC.held, ih hp]
  | idle | newNode _ | loadHead | readNext _ | popCas _ _ | takeData _ => cases hp

omit [DecidableEq Addr] in
theorem leaky_made (hp : p ∈ pc.made) : pc.leaky.owned = some (p.id, .fresh) := by
  induction pc with
  | loadNext v q | copyNew v q | pushCas v q =>
      cases hp
      rfl
  | release q ps k ih => exact ih hp
  | idle | newNode _ | loadHead | readNext _ | popCas _ _ | takeData _ => cases hp

theorem made_ne (hc : Reach (exec movedFrom) (· = start) c) (hu : u ≠ t)
    (hp : p ∈ (c.pc u).made) : p ∉ (c.pc t).made := by
  obtain ⟨c', hc', -, hpc⟩ := (refines movedFrom).holds hc
  obtain ⟨g, -, hL⟩ := (MemoryLeak.outline movedFrom).holds hc'
  intro ht
  have hown : ∀ x, p ∈ (c.pc x).made → g.role p.id = .own x .fresh :=
    fun x hx => ((hL x).owned _ _).mpr (hpc x ▸ leaky_made hx)
  have he := (hown u hp).symm.trans (hown t ht)
  cases he
  exact hu rfl

theorem distance_other (hc : Reach (exec movedFrom) (· = start) c) (hu : u ≠ t)
    (h : exec movedFrom t o c.shared (c.pc t) = .ok r) (hhead : r.1.head = c.shared.head) :
    distance r.1 (c.pc u) = distance c.shared (c.pc u) := by
  refine distance_congr hhead fun p hp => ?_
  obtain ⟨n, hn⟩ := (owned_of_reach hc).alive_held (made_held hp)
  have hown := owned_of_reach (hc.next h)
  have hheld : p ∈ (Function.update c.pc t r.2 u).held := by
    rw [Function.update_of_ne hu]
    exact made_held hp
  obtain ⟨n', hn'⟩ := hown.alive_held hheld
  exact exec_next h hn (hn' ▸ Option.some_ne_none n') (made_ne hc hu hp)

theorem ranking (movedFrom : A → A) :
    Ranking (exec movedFrom : Code Tid (Oracle Addr A) (Shared Tid Addr A) (PC Addr A))
      (· = start) Strong (· = .idle)
      [fun _ => PC.pending, fun _ => PC.unmade, live, distance] where
  descends := by
    intro c t o r hc ho hpc hx _
    refine ⟨fun u _ => le_rfl, ?_⟩
    rcases exec_closer hx ho hpc with hlt | ⟨hle, hhead, hlt | ⟨hle', hlt | ⟨hle'', hlt⟩⟩⟩
    · exact .inl hlt
    · exact .inr ⟨hle, fun u _ => le_rfl, .inl hlt⟩
    · exact .inr ⟨hle, fun u _ => le_rfl, .inr ⟨hle', fun u _ => hlt.le, .inl hlt⟩⟩
    · exact .inr ⟨hle, fun u _ => le_rfl, .inr ⟨hle', fun u _ => hle'', .inr ⟨hle'',
        fun u hu => (distance_other hc hu hx hhead).le, .inl hlt⟩⟩⟩

/-- Calls of the stack with shared pointers keep returning. -/
theorem shared_ptr_lock_free [Finite Tid] (movedFrom : A → A) :
    LockFree (exec movedFrom : Code Tid (Oracle Addr A) (Shared Tid Addr A) (PC Addr A))
      (· = start) Strong (· = .idle) :=
  (ranking movedFrom).lockFree

theorem shared_ptr_lock_free_two :
    LockFree (exec id : Code (Fin 2) (Oracle ℕ ℕ) (Shared (Fin 2) ℕ ℕ) (PC ℕ ℕ))
      (· = start) Strong (· = .idle) :=
  shared_ptr_lock_free id

end SharedPtr
end CsNotes.LockfreeStack
