import Mathlib.Algebra.Order.BigOperators.Group.Finset
import Mathlib.Data.Fintype.EquivFin
import CsNotes.Lib.Interleaving

/-!
# Infinite runs, and who makes progress in them

A thread whose step leaves it idle has returned from its call. A program is lock
free if calls keep returning in every infinite run, and wait free if those of
each thread do which keeps taking steps.

The rule for the former has ranks of decreasing significance, which are summed up
over the threads. A step inside a call brings one of them down, and may raise
less significant ones only. So the interference of an operation that takes effect
is paid for once, by the rank which says who has not taken effect.
-/
namespace CsNotes.Interleaving

variable {Tid O S L : Type*} [DecidableEq Tid]

structure Execution (exec : Code Tid O S L) (guard : Config Tid S L → Tid → O → Prop) where
  config : ℕ → Config Tid S L
  thread : ℕ → Tid
  choice : ℕ → O
  guarded : ∀ n, guard (config n) (thread n) (choice n)
  step : ∀ n, (config n).advance exec (thread n) (choice n) = .ok (config (n + 1))

variable {exec : Code Tid O S L} {guard : Config Tid S L → Tid → O → Prop}
variable {init : Config Tid S L → Prop} {idle : L → Prop}

/-- The thread which makes step `n` has then returned. -/
def Execution.Returns (e : Execution exec guard) (idle : L → Prop) (n : ℕ) : Prop :=
  idle ((e.config (n + 1)).pc (e.thread n))

/-- From any state that can be reached, all steps guarded, calls return again and again. -/
def LockFree (exec : Code Tid O S L) (init : Config Tid S L → Prop)
    (guard : Config Tid S L → Tid → O → Prop) (idle : L → Prop) : Prop :=
  ∀ e : Execution exec guard, Reach exec init (e.config 0) → ∀ n, ∃ m, n ≤ m ∧ e.Returns idle m

/-- So do those of any thread that takes steps again and again. -/
def WaitFree (exec : Code Tid O S L) (init : Config Tid S L → Prop)
    (guard : Config Tid S L → Tid → O → Prop) (idle : L → Prop) : Prop :=
  ∀ e : Execution exec guard, Reach exec init (e.config 0) → ∀ t,
    (∀ n, ∃ m, n ≤ m ∧ e.thread m = t) → ∀ n, ∃ m, n ≤ m ∧ e.thread m = t ∧ e.Returns idle m

theorem Config.advance_of_ok {c : Config Tid S L} {t : Tid} {o : O} {r : S × L}
    (h : exec t o c.shared (c.pc t) = .ok r) :
    c.advance exec t o = .ok ⟨r.1, Function.update c.pc t r.2⟩ :=
  Outcome.map_eq_ok.mpr ⟨r, h, rfl⟩

theorem Execution.reach (e : Execution exec guard) (h : Reach exec init (e.config 0)) (n : ℕ) :
    Reach exec init (e.config n) := by
  induction n with
  | zero => exact h
  | succ n ih => exact .step ih trivial (e.step n)

/-- A step is made by one thread, and the others stay where they are. -/
theorem Execution.exists_exec (e : Execution exec guard) {n : ℕ} {t : Tid} {x : L}
    (ht : e.thread n = t) (hx : (e.config n).pc t = x) :
    ∃ r, exec t (e.choice n) (e.config n).shared x = .ok r ∧ (e.config (n + 1)).pc t = r.2 := by
  subst ht hx
  obtain ⟨r, hr, he⟩ := Outcome.map_eq_ok.mp (e.step n)
  refine ⟨r, hr, ?_⟩
  rw [← he]
  exact Function.update_self ..

theorem Execution.pc_of_ne (e : Execution exec guard) {n : ℕ} {t : Tid} (h : t ≠ e.thread n) :
    (e.config (n + 1)).pc t = (e.config n).pc t := by
  obtain ⟨r, -, he⟩ := Outcome.map_eq_ok.mp (e.step n)
  rw [← he]
  exact Function.update_of_ne h _ _

/-- A step of `t` to `r` brings down one of the ranks, and does not raise any that is
more significant. -/
def Descends (c : Config Tid S L) (t : Tid) (r : S × L) : List (S → L → ℕ) → Prop
  | [] => False
  | rank :: ranks => (∀ u, u ≠ t → rank r.1 (c.pc u) ≤ rank c.shared (c.pc u)) ∧
      (rank r.1 r.2 < rank c.shared (c.pc t) ∨
        rank r.1 r.2 ≤ rank c.shared (c.pc t) ∧ Descends c t r ranks)

/-- Every step inside a call brings a rank down. -/
structure Ranking (exec : Code Tid O S L) (init : Config Tid S L → Prop)
    (guard : Config Tid S L → Tid → O → Prop) (idle : L → Prop) (ranks : List (S → L → ℕ)) :
    Prop where
  descends : ∀ c t o r, Reach exec init c → guard c t o → ¬ idle (c.pc t) →
    exec t o c.shared (c.pc t) = .ok r → ¬ idle r.2 → Descends c t r ranks

def LexLt {C : Type*} : List (C → ℕ) → C → C → Prop
  | [], _, _ => False
  | f :: fs, d, c => f d < f c ∨ f d ≤ f c ∧ LexLt fs d c

theorem lexLt_wf {C : Type*} (fs : List (C → ℕ)) : WellFounded (LexLt fs) := by
  induction fs with
  | nil => exact ⟨fun c => .intro c fun d h => h.elim⟩
  | cons f fs ih =>
      refine Subrelation.wf ?_ (InvImage.wf (fun c => (f c, c)) (wellFounded_lt.prod_lex ih))
      intro d c h
      rcases h with hlt | ⟨hle, h⟩
      · exact .left _ _ hlt
      · rcases hle.lt_or_eq with hlt | heq
        · exact .left _ _ hlt
        · change Prod.Lex _ _ (f d, d) (f c, c)
          rw [heq]
          exact .right _ h

namespace Ranking
variable [Fintype Tid] {ranks : List (S → L → ℕ)} {c d : Config Tid S L} {t : Tid} {r : S × L}

def total (rank : S → L → ℕ) (c : Config Tid S L) : ℕ := ∑ t, rank c.shared (c.pc t)

omit [Fintype Tid] in
theorem total_le {rank : S → L → ℕ}
    (hu : ∀ u, u ≠ t → rank r.1 (c.pc u) ≤ rank c.shared (c.pc u))
    (ht : rank r.1 r.2 ≤ rank c.shared (c.pc t)) (u : Tid) :
    rank r.1 (Function.update c.pc t r.2 u) ≤ rank c.shared (c.pc u) := by
  by_cases hut : u = t
  · subst hut
    simpa only [Function.update_self] using ht
  · simpa only [Function.update_of_ne hut] using hu u hut

theorem lexLt_total (h : Descends c t r ranks) :
    LexLt (ranks.map total) ⟨r.1, Function.update c.pc t r.2⟩ c := by
  induction ranks with
  | nil => exact h
  | cons rank ranks ih =>
      obtain ⟨hu, ht⟩ := h
      rcases ht with hlt | ⟨hle, h⟩
      · refine .inl (Finset.sum_lt_sum (fun u _ => total_le hu hlt.le u) ⟨t, Finset.mem_univ t, ?_⟩)
        simpa only [Function.update_self] using hlt
      · exact .inr ⟨Finset.sum_le_sum fun u _ => total_le hu hle u, ih h⟩

open Classical in
noncomputable def idlers (idle : L → Prop) (c : Config Tid S L) : Finset Tid :=
  Finset.univ.filter fun t => idle (c.pc t)

omit [DecidableEq Tid] in
theorem mem_idlers : t ∈ idlers idle c ↔ idle (c.pc t) := by
  simp only [idlers, Finset.mem_filter_univ]

/-- How many threads are idle, and then the ranks. -/
noncomputable def measures (idle : L → Prop) (ranks : List (S → L → ℕ)) :
    List (Config Tid S L → ℕ) :=
  (fun c => (idlers idle c).card) :: ranks.map total

theorem lexLt_measures (h : Ranking exec init guard idle ranks) {o : O} (hc : Reach exec init c)
    (hg : guard c t o) (hd : c.advance exec t o = .ok d) (hreturn : ¬ idle (d.pc t)) :
    LexLt (measures idle ranks) d c := by
  obtain ⟨r, hx, rfl⟩ := Outcome.map_eq_ok.mp hd
  simp only [Function.update_self] at hreturn
  have herase : idlers idle ⟨r.1, Function.update c.pc t r.2⟩ = (idlers idle c).erase t := by
    ext u
    rw [Finset.mem_erase, mem_idlers, mem_idlers]
    by_cases hut : u = t
    · subst hut
      simp [hreturn]
    · simp [hut]
  have hcard := congrArg Finset.card herase
  by_cases hidle : idle (c.pc t)
  · exact .inl (hcard.trans_lt (Finset.card_erase_lt_of_mem (mem_idlers.mpr hidle)))
  · refine .inr ⟨hcard.trans_le Finset.card_erase_le, ?_⟩
    exact lexLt_total (h.descends c t o r hc hg hidle hx hreturn)

omit [Fintype Tid] in
/-- Finitely many threads with such ranks are lock free. -/
theorem lockFree [Finite Tid] (h : Ranking exec init guard idle ranks) :
    LockFree exec init guard idle := by
  have := Fintype.ofFinite Tid
  intro e he n
  by_contra hno
  have hreturns : ∀ m, n ≤ m → ¬ e.Returns idle m := fun m hm hr => hno ⟨m, hm, hr⟩
  obtain ⟨c, ⟨m, hm, rfl⟩, hmin⟩ := (lexLt_wf (measures idle ranks)).has_min
    {c | ∃ m, n ≤ m ∧ e.config m = c} ⟨_, n, le_rfl, rfl⟩
  refine hmin _ ⟨m + 1, hm.trans m.le_succ, rfl⟩ ?_
  exact h.lexLt_measures (e.reach he m) (e.guarded m) (e.step m) (hreturns m hm)

end Ranking

/-- The same run, of which less is said. -/
def Execution.mono {guard' : Config Tid S L → Tid → O → Prop} (e : Execution exec guard)
    (h : ∀ c t o, guard c t o → guard' c t o) : Execution exec guard' :=
  { e with guarded := fun n => h _ _ _ (e.guarded n) }

namespace LockFree

theorem mono {guard' : Config Tid S L → Tid → O → Prop} (h : LockFree exec init guard idle)
    (hg : ∀ c t o, guard' c t o → guard c t o) : LockFree exec init guard' idle :=
  fun e he n => h (e.mono hg) he n

open Ranking in
/-- Where threads only finish their calls, no run goes on for ever. -/
theorem ends [Finite Tid] (h : LockFree exec init guard idle)
    (hbusy : ∀ c t o, guard c t o → ¬ idle (c.pc t)) (e : Execution exec guard) :
    ¬ Reach exec init (e.config 0) := by
  have := Fintype.ofFinite Tid
  intro he
  have hstays : ∀ n u, idle ((e.config n).pc u) → idle ((e.config (n + 1)).pc u) := by
    intro n u hu
    obtain ⟨r, -, hd⟩ := Outcome.map_eq_ok.mp (e.step n)
    have hut : u ≠ e.thread n := by
      rintro rfl
      exact hbusy _ _ _ (e.guarded n) hu
    rw [← hd]
    simpa only [Function.update_of_ne hut] using hu
  have hgrows : Monotone fun n => (idlers idle (e.config n)).card :=
    monotone_nat_of_le_succ fun n => Finset.card_le_card fun u hu =>
      mem_idlers.mpr (hstays n u (mem_idlers.mp hu))
  have hmore : ∀ m, e.Returns idle m →
      (idlers idle (e.config m)).card < (idlers idle (e.config (m + 1))).card := by
    intro m hr
    refine Finset.card_lt_card ⟨fun u hu => ?_, fun hsub => ?_⟩
    · exact mem_idlers.mpr (hstays m u (mem_idlers.mp hu))
    · exact hbusy _ _ _ (e.guarded m) (mem_idlers.mp (hsub (mem_idlers.mpr hr)))
  have hmany : ∀ k, ∃ n, k ≤ (idlers idle (e.config n)).card := by
    intro k
    induction k with
    | zero => exact ⟨0, Nat.zero_le _⟩
    | succ k ih =>
        obtain ⟨n, hn⟩ := ih
        obtain ⟨m, hm, hr⟩ := h e he n
        exact ⟨m + 1, Nat.succ_le_of_lt ((hn.trans (hgrows hm)).trans_lt (hmore m hr))⟩
  obtain ⟨n, hn⟩ := hmany (Fintype.card Tid + 1)
  exact Nat.not_succ_le_self _ (hn.trans (Finset.card_le_univ _))

end LockFree

variable {P : Config Tid S L → Prop} {c : Config Tid S L} {t : Tid}

/-- What is left of a round, which ends in a state with `P`. -/
def Rest (exec : Code Tid O S L) (guard : Config Tid S L → Tid → O → Prop)
    (P : Config Tid S L → Prop) (x : Config Tid S L × List (Tid × O)) : Prop :=
  ∃ d, x.1.run exec x.2 = .ok d ∧ x.1.Meets exec guard x.2 ∧ P d

theorem Rest.done (hc : P c) : Rest exec guard P (c, []) := ⟨c, rfl, trivial, hc⟩

theorem Rest.step {o : O} {l : List (Tid × O)} {r : S × L}
    (hx : exec t o c.shared (c.pc t) = .ok r) (hg : guard c t o)
    (h : Rest exec guard P (⟨r.1, Function.update c.pc t r.2⟩, l)) :
    Rest exec guard P (c, (t, o) :: l) := by
  obtain ⟨d, hrun, hmeets, hd⟩ := h
  have hadvance := Config.advance_of_ok hx
  refine ⟨d, ?_, ⟨hg, fun d' hd' => ?_⟩, hd⟩
  · change (c.advance exec t o).bind _ = _
    rw [hadvance]
    exact hrun
  · cases hadvance.symm.trans hd'
    exact hmeets

/-- Where every state with `P` begins a round of steps by these threads, there is a
run of such rounds. -/
theorem exists_execution {threads : List Tid} (hne : threads ≠ [])
    (hround : ∀ c, P c → ∃ l, l.map Prod.fst = threads ∧ Rest exec guard P (c, l)) (hc : P c) :
    ∃ e : Execution exec guard, e.config 0 = c ∧
      (∀ n i t, threads[i]? = some t → e.thread (n * threads.length + i) = t) ∧
      ∀ n, P (e.config (n * threads.length)) := by
  have hnonempty : ∀ l : List (Tid × O), l.map Prod.fst = threads → l ≠ [] := by
    intro l hl hnil
    rw [hnil] at hl
    exact hne hl.symm
  have hnext : ∀ x : {x : Config Tid S L × List (Tid × O) // Rest exec guard P x ∧ x.2 ≠ []},
      ∃ y : {x : Config Tid S L × List (Tid × O) // Rest exec guard P x ∧ x.2 ≠ []},
        ∃ z l, x.1.2 = z :: l ∧ guard x.1.1 z.1 z.2 ∧
          x.1.1.advance exec z.1 z.2 = .ok y.1.1 ∧
          (y.1.2 = l ∨ l = [] ∧ P y.1.1 ∧ y.1.2.map Prod.fst = threads) := by
    rintro ⟨⟨c, l⟩, ⟨d, hrun, hmeets, hd⟩, hne⟩
    cases l with
    | nil => exact (hne rfl).elim
    | cons z l =>
        obtain ⟨c', hc', hrun⟩ := Outcome.bind_eq_ok.mp hrun
        obtain ⟨hg, hmeets⟩ := hmeets
        cases l with
        | nil =>
            cases hrun
            obtain ⟨l, hl, hrest⟩ := hround _ hd
            exact ⟨⟨(_, l), hrest, hnonempty l hl⟩, z, [], rfl, hg, hc', .inr ⟨rfl, hd, hl⟩⟩
        | cons z' l =>
            exact ⟨⟨(c', z' :: l), ⟨d, hrun, hmeets c' hc', hd⟩, by simp⟩, z, z' :: l, rfl, hg,
              hc', .inl rfl⟩
  choose next z rest hz hguard hstep hlist using hnext
  obtain ⟨l, hl, hrest⟩ := hround c hc
  let x₀ : {x : Config Tid S L × List (Tid × O) // Rest exec guard P x ∧ x.2 ≠ []} :=
    ⟨(c, l), hrest, hnonempty l hl⟩
  have hsucc : ∀ n, next^[n + 1] x₀ = next (next^[n] x₀) :=
    fun n => Function.iterate_succ_apply' next n x₀
  have hpos : 0 < threads.length := List.length_pos_iff.mpr hne
  -- After `n` steps this much of the round is left.
  have hleft : ∀ n, (next^[n] x₀).1.2.map Prod.fst = threads.drop (n % threads.length) ∧
      (n % threads.length = 0 → P (next^[n] x₀).1.1) := by
    intro n
    induction n with
    | zero =>
        rw [Nat.zero_mod]
        exact ⟨hl, fun _ => hc⟩
    | succ n ih =>
        have hmod := Nat.mod_lt n hpos
        have hdrop := congrArg List.tail ih.1
        have hlength := congrArg List.length ih.1
        rw [hz, List.map_cons, List.tail_cons, List.tail_drop] at hdrop
        rw [hz, List.length_map, List.length_cons, List.length_drop] at hlength
        rw [hsucc]
        rcases hlist (next^[n] x₀) with he | ⟨he, hP, hmap⟩
        · have hrest := (next (next^[n] x₀)).2.2
          rw [he] at hrest
          have hlen := List.length_pos_iff.mpr hrest
          have hsame : (n + 1) % threads.length = n % threads.length + 1 := by
            rw [Nat.add_mod, Nat.mod_eq_of_lt (a := 1) (by omega), Nat.mod_eq_of_lt (by omega)]
          rw [he, hsame]
          exact ⟨hdrop, fun h => (Nat.succ_ne_zero _ h).elim⟩
        · rw [he, List.length_nil] at hlength
          have hzero : (n + 1) % threads.length = 0 := by
            have h : n % threads.length + 1 = threads.length := by omega
            rw [Nat.add_mod_eq_add_mod_right 1 (Nat.mod_mod n threads.length).symm, h, Nat.mod_self]
          rw [hzero]
          exact ⟨hmap, fun _ => hP⟩
  refine ⟨⟨fun n => (next^[n] x₀).1.1, fun n => (z (next^[n] x₀)).1, fun n => (z (next^[n] x₀)).2,
    fun n => hguard _, fun n => ?_⟩, rfl, fun n i t hi => ?_, fun n => ?_⟩
  · rw [hsucc]
    exact hstep _
  · have h := congrArg List.head? (hleft (n * threads.length + i)).1
    rw [hz, Nat.mul_add_mod_self_right, Nat.mod_eq_of_lt (List.getElem?_eq_some_iff.mp hi).1,
      List.head?_drop, hi] at h
    exact Option.some.inj h
  · exact (hleft (n * threads.length)).2 (Nat.mul_mod_left n threads.length)

def Unfinished (exec : Code Tid O S L) (guard : Config Tid S L → Tid → O → Prop) (idle : L → Prop)
    (who : Tid → Prop) (c : Config Tid S L) (t : Tid) (o : O) : Prop :=
  guard c t o ∧ (who t → ∀ d, c.advance exec t o = .ok d → ¬ idle (d.pc t))

variable {who : Tid → Prop}

theorem Rest.at {o : O} {l : List (Tid × O)} {x : L} {r : S × L} (hpc : c.pc t = x)
    (hx : exec t o c.shared x = .ok r) (hg : guard c t o) (hr : who t → ¬ idle r.2)
    (h : Rest exec (Unfinished exec guard idle who) P (⟨r.1, Function.update c.pc t r.2⟩, l)) :
    Rest exec (Unfinished exec guard idle who) P (c, (t, o) :: l) := by
  subst hpc
  refine .step hx ⟨hg, fun ht d hd => ?_⟩ h
  obtain ⟨r', hx', rfl⟩ := Outcome.map_eq_ok.mp hd
  cases hx.symm.trans hx'
  simpa only [Function.update_self] using hr ht

theorem Execution.not_returns (e : Execution exec (Unfinished exec guard idle who)) {n : ℕ}
    (hn : who (e.thread n)) : ¬ e.Returns idle n :=
  (e.guarded n).2 hn _ (e.step n)

/-- A thread that is named in the rounds makes steps again and again. -/
theorem Execution.recurs {threads : List Tid} {e : Execution exec guard}
    (h : ∀ n i t, threads[i]? = some t → e.thread (n * threads.length + i) = t) (ht : t ∈ threads)
    (n : ℕ) : ∃ m, n ≤ m ∧ e.thread m = t := by
  obtain ⟨i, hi, rfl⟩ := List.getElem_of_mem ht
  refine ⟨n * threads.length + i, ?_, h n i _ (List.getElem?_eq_getElem hi)⟩
  exact (Nat.le_mul_of_pos_right n (by omega)).trans (Nat.le_add_right _ _)

end CsNotes.Interleaving
