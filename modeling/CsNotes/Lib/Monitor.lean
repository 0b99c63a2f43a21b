import Mathlib.Algebra.BigOperators.Group.Finset.Piecewise
import CsNotes.Lib.Interleaving

/-!
# Objects whose methods hold a mutex

A method locks the mutex, works on the data in small steps, and unlocks it. If
the body of each method meets its specification where nobody interrupts it, then
the methods of any number of threads take effect one after the other, in the
order in which they hold the mutex.

`history` has the results in that order, and `returned` those that each thread
has got. No step reads them.
-/
namespace CsNotes.Monitor
open Interleaving

/-- A method begins with some locals, and each step leads to other locals or to the result. -/
structure Body (M D L R : Type*) where
  entry : M → L
  step : L → D → Outcome (D × (L ⊕ R))

inductive PC (M L R : Type*) where
  | idle
  | lock (m : M)
  | inside (m : M) (l : L)
  | unlock (m : M) (r : R)
deriving DecidableEq, Repr

structure Shared (Tid M D R : Type*) where
  data : D
  mutex : Option Tid := none
  history : List (Tid × M × R) := []
  returned : Tid → List (M × R) := fun _ => []

variable {Tid M D L R : Type*} [DecidableEq Tid]

/-- An idle thread calls the method that the choice says. -/
def exec (b : Body M D L R) : Code Tid M (Shared Tid M D R) (PC M L R) :=
  fun t o s pc => match pc with
  | .idle => .ok (s, .lock o)
  | .lock m =>
      if s.mutex = none then .ok ({ s with mutex := some t }, .inside m (b.entry m)) else .wait
  | .inside m l => (b.step l s.data).map fun x => match x.2 with
      | .inl l => ({ s with data := x.1 }, .inside m l)
      | .inr r => ({ s with data := x.1, history := s.history ++ [(t, m, r)] }, .unlock m r)
  | .unlock m r =>
      .ok ({ s with
        mutex := none
        returned := Function.update s.returned t (s.returned t ++ [(m, r)]) }, .idle)

def start (d : D) : Config Tid (Shared Tid M D R) (PC M L R) := ⟨{ data := d }, fun _ => .idle⟩

/-- Where the body of `m` can be, if it began with data `d₀` and nobody interrupted it. -/
inductive Leads (b : Body M D L R) (m : M) (d₀ : D) : L → D → Prop
  | entry : Leads b m d₀ (b.entry m) d₀
  | step {l l' : L} {d d' : D} : Leads b m d₀ l d → b.step l d = .ok (d', .inl l') →
      Leads b m d₀ l' d'

/-- No step of a body is a fault, and at its end the specification holds. -/
def Meets (b : Body M D L R) (spec : D → M → R → D → Prop) : Prop :=
  ∀ m d₀ l d, Leads b m d₀ l d →
    (b.step l d).Sat fun x => ∀ r, x.2 = .inr r → spec d₀ m r x.1

/-- What is known at each point of a body: it holds at the beginning, every step keeps it,
and the specification follows at the end. -/
structure Annotated (b : Body M D L R) (spec : D → M → R → D → Prop)
    (facts : M → D → L → D → Prop) : Prop where
  entry : ∀ m d, facts m d (b.entry m) d
  step : ∀ m d₀ l d, facts m d₀ l d → (b.step l d).Sat fun x => match x.2 with
    | .inl l' => facts m d₀ l' x.1
    | .inr r => spec d₀ m r x.1

omit [DecidableEq Tid] in
theorem Annotated.meets {b : Body M D L R} {spec : D → M → R → D → Prop}
    {facts : M → D → L → D → Prop} (h : Annotated b spec facts) : Meets b spec := by
  intro m d₀ l d hl
  have hfacts : facts m d₀ l d := by
    induction hl with
    | entry => exact h.entry m d₀
    | step _ hs ih => exact (h.step _ _ _ _ ih).of_ok hs
  refine (h.step m d₀ l d hfacts).mono fun x hx r hr => ?_
  rw [hr] at hx
  exact hx

/-- Each method is a function. -/
def Atomic (apply : M → D → R × D) (d : D) (m : M) (r : R) (d' : D) : Prop := apply m d = (r, d')

/-- The methods one after the other. -/
inductive Sequential (spec : D → M → R → D → Prop) (d₀ : D) : List (Tid × M × R) → D → Prop
  | nil : Sequential spec d₀ [] d₀
  | snoc {h : List (Tid × M × R)} {t : Tid} {m : M} {r : R} {d d' : D} :
      Sequential spec d₀ h d → spec d m r d' → Sequential spec d₀ (h ++ [(t, m, r)]) d'

/-- What a history has for one thread. -/
def answers (t : Tid) (h : List (Tid × M × R)) : List (M × R) :=
  (h.filter fun x => x.1 = t).map Prod.snd

@[simp] theorem answers_nil (t : Tid) : answers t ([] : List (Tid × M × R)) = [] := rfl

theorem answers_snoc_self (t : Tid) (h : List (Tid × M × R)) (m : M) (r : R) :
    answers t (h ++ [(t, m, r)]) = answers t h ++ [(m, r)] := by
  simp [answers]

theorem answers_snoc_of_ne {t u : Tid} (htu : t ≠ u) (h : List (Tid × M × R)) (m : M) (r : R) :
    answers u (h ++ [(t, m, r)]) = answers u h := by
  simp [answers, htu]

theorem mem_answers {x : Tid × M × R} {h : List (Tid × M × R)} (hx : x ∈ h) :
    x.2 ∈ answers x.1 h :=
  List.mem_map.mpr ⟨x, List.mem_filter.mpr ⟨hx, by simp⟩, rfl⟩

theorem countP_eq_sum [Fintype Tid] (p : M × R → Bool) (h : List (Tid × M × R)) :
    h.countP (fun x => p x.2) = ∑ t, (answers t h).countP p := by
  induction h with
  | nil => simp
  | cons x h ih =>
      have hcons : ∀ t, (answers t (x :: h)).countP p =
          (answers t h).countP p + if x.1 = t then (if p x.2 then 1 else 0) else 0 := by
        intro t
        by_cases hx : x.1 = t
        · simp [answers, hx, List.countP_cons]
        · simp [answers, hx]
      simp only [hcons, Finset.sum_add_distrib, Finset.sum_ite_eq, Finset.mem_univ, if_true,
        List.countP_cons, ih]

namespace PC

def HoldsMutex : PC M L R → Prop
  | inside _ _ | unlock _ _ => True
  | _ => False

/-- The result which is recorded and not returned yet. -/
def owed : PC M L R → List (M × R)
  | unlock m r => [(m, r)]
  | _ => []

end PC

/-- `d` is the data after the methods in the history. -/
structure Global (spec : D → M → R → D → Prop) (d₀ : D) (s : Shared Tid M D R) (d : D) : Prop where
  run : Sequential spec d₀ s.history d
  data : s.mutex = none → s.data = d

/-- The body at work has come this far from there. -/
def PC.Facts (b : Body M D L R) (s : Shared Tid M D R) (d : D) : PC M L R → Prop
  | inside m l => Leads b m d l s.data
  | unlock _ _ => s.data = d
  | _ => True

structure Local (b : Body M D L R) (s : Shared Tid M D R) (d : D) (t : Tid) (pc : PC M L R) :
    Prop where
  mutex : s.mutex = some t ↔ pc.HoldsMutex
  facts : pc.Facts b s d
  answers : answers t s.history = s.returned t ++ pc.owed

variable {b : Body M D L R} {spec : D → M → R → D → Prop} {d₀ d d' : D}
variable {s s' : Shared Tid M D R} {t u : Tid} {pc : PC M L R}

theorem Local.other (h : Local b s d u pc) (hs : s.mutex ≠ some u) (hs' : s'.mutex ≠ some u)
    (ha : Monitor.answers u s'.history = Monitor.answers u s.history)
    (hr : s'.returned u = s.returned u) : Local b s' d' u pc := by
  have hfree : ¬ pc.HoldsMutex := fun hp => hs (h.mutex.mpr hp)
  refine ⟨iff_of_false hs' hfree, ?_, ?_⟩
  · cases pc with
    | idle | lock _ => trivial
    | inside _ _ | unlock _ _ => exact (hfree trivial).elim
  · rw [ha, hr]
    exact h.answers

theorem outline (hb : Meets b spec) (d₀ : D)
    (guard : Config Tid (Shared Tid M D R) (PC M L R) → Tid → M → Prop) :
    Outline (exec b) guard (· = start d₀) (Global spec d₀) (Local b) where
  start := by
    rintro c rfl
    refine ⟨d₀, ⟨.nil, fun _ => rfl⟩, fun t => ⟨?_, trivial, rfl⟩⟩
    simp [start, PC.HoldsMutex]
  step := by
    intro c t o d _ _ hG hL
    have hx := (hL t).mutex
    have hf := (hL t).facts
    have ha := (hL t).answers
    have hother : ∀ u, u ≠ t → c.shared.mutex = some t → c.shared.mutex ≠ some u := by
      intro u hu ht hu'
      exact hu (Option.some.inj (hu'.symm.trans ht))
    have hne : ∀ u, u ≠ t → some t ≠ some u := fun u hu h => hu (Option.some.inj h).symm
    cases hpc : c.pc t with
    | idle =>
        rw [hpc] at hx ha
        exact ⟨d, hG, ⟨hx, trivial, ha⟩, fun u _ => hL u⟩
    | lock m =>
        rw [hpc] at ha
        simp only [exec]
        split
        · rename_i hfree
          refine ⟨d, ⟨hG.run, fun h => (Option.some_ne_none t h).elim⟩,
            ⟨iff_of_true rfl trivial, ?_, ha⟩,
            fun u hu => (hL u).other ?_ (hne u hu) rfl rfl⟩
          · change Leads b m d (b.entry m) c.shared.data
            rw [hG.data hfree]
            exact .entry
          · rw [hfree]
            exact (Option.some_ne_none u).symm
        · trivial
    | inside m l =>
        rw [hpc] at hx hf ha
        have ht := hx.mpr trivial
        have hstep := hb m d l c.shared.data hf
        have hnone : c.shared.mutex ≠ none := by
          rw [ht]
          exact Option.some_ne_none t
        refine Outcome.sat_iff.mpr ⟨fun h => ?_, fun r hr => ?_⟩
        · have hfault := hstep.ne_fault
          simp only [exec] at h
          cases hd : b.step l c.shared.data with
          | fault => exact hfault hd
          | wait | ok x =>
              rw [hd] at h
              cases h
        obtain ⟨⟨d', x⟩, hd, rfl⟩ := Outcome.map_eq_ok.mp hr
        cases x with
        | inl l' =>
            exact ⟨d, ⟨hG.run, fun h => (hnone h).elim⟩, ⟨hx, .step hf hd, ha⟩,
              fun u hu => (hL u).other (hother u hu ht) (hother u hu ht) rfl rfl⟩
        | inr r =>
            have hspec := hstep.of_ok hd r rfl
            refine ⟨d', ⟨.snoc hG.run hspec, fun h => (hnone h).elim⟩, ⟨hx, rfl, ?_⟩,
              fun u hu => (hL u).other (hother u hu ht) (hother u hu ht) ?_ rfl⟩
            · have hnil : PC.owed (.inside m l : PC M L R) = [] := rfl
              rw [hnil, List.append_nil] at ha
              change Monitor.answers t (c.shared.history ++ [(t, m, r)]) = _
              rw [answers_snoc_self, ha]
              rfl
            · exact answers_snoc_of_ne hu.symm _ _ _
    | unlock m r =>
        rw [hpc] at hx hf ha
        have ht := hx.mpr trivial
        refine ⟨d, ⟨hG.run, fun _ => hf⟩, ⟨?_, trivial, ?_⟩, fun u hu => ?_⟩
        · simp [PC.HoldsMutex]
        · simpa [PC.owed] using ha
        · exact (hL u).other (hother u hu ht) (Option.some_ne_none u).symm rfl
            (Function.update_of_ne hu _ _)

variable {guard : Config Tid (Shared Tid M D R) (PC M L R) → Tid → M → Prop}
variable {c : Config Tid (Shared Tid M D R) (PC M L R)}

/-- The methods took effect one after the other, and each thread has got its results. -/
theorem linearizable (hb : Meets b spec) (hc : ReachIf (exec b) guard (· = start d₀) c) :
    ∃ d, Sequential spec d₀ c.shared.history d ∧ (c.shared.mutex = none → c.shared.data = d) ∧
      ∀ t, answers t c.shared.history = c.shared.returned t ++ (c.pc t).owed := by
  obtain ⟨d, hG, hL⟩ := (outline hb d₀ guard).holds hc
  exact ⟨d, hG.run, hG.data, fun t => (hL t).answers⟩

/-- Each thread runs the same program, which says what to call after given results. -/
def Client (next : List (M × R) → Option M) (c : Config Tid (Shared Tid M D R) (PC M L R))
    (t : Tid) (o : M) : Prop :=
  c.pc t = .idle → next (c.shared.returned t) = some o

/-- The results which a thread of that program may have got. -/
inductive Plays (next : List (M × R) → Option M) : List (M × R) → Prop
  | nil : Plays next []
  | snoc {l : List (M × R)} {m : M} {r : R} : Plays next l → next l = some m →
      Plays next (l ++ [(m, r)])

/-- The method which a thread is in. -/
def PC.called : PC M L R → Option M
  | idle => none
  | lock m | inside m _ | unlock m _ => some m

variable {next : List (M × R) → Option M} {m : M} {r : R} {l : L} {d₁ : D}

theorem exec_called {x : Shared Tid M D R × PC M L R} (h : exec b t m s pc = .ok x) :
    (pc = .idle ∧ x.2.called = some m ∧ x.1.returned = s.returned) ∨
      (pc.called ≠ none ∧ x.2.called = pc.called ∧ x.1.returned = s.returned) ∨
      ∃ m r, pc.called = some m ∧ x.2.called = none ∧
        x.1.returned = Function.update s.returned t (s.returned t ++ [(m, r)]) := by
  cases pc with
  | idle =>
      cases h
      exact .inl ⟨rfl, rfl, rfl⟩
  | lock m =>
      simp only [exec] at h
      split at h <;> cases h
      exact .inr (.inl ⟨by simp [PC.called], rfl, rfl⟩)
  | inside m l =>
      obtain ⟨⟨d, y⟩, -, rfl⟩ := Outcome.map_eq_ok.mp h
      cases y with
      | inl l' => exact .inr (.inl ⟨by simp [PC.called], rfl, rfl⟩)
      | inr r => exact .inr (.inl ⟨by simp [PC.called], rfl, rfl⟩)
  | unlock m r =>
      cases h
      exact .inr (.inr ⟨m, r, rfl, rfl, rfl⟩)

theorem Client.plays (hc : ReachIf (exec b) (Client next) (· = start d₀) c) (t : Tid) :
    Plays next (c.shared.returned t) ∧
      ∀ m, (c.pc t).called = some m → next (c.shared.returned t) = some m := by
  induction hc with
  | start h =>
      subst h
      exact ⟨.nil, fun m hm => by cases hm⟩
  | @step c d u o _ hg hd ih =>
      obtain ⟨x, hx, rfl⟩ := Outcome.map_eq_ok.mp hd
      by_cases htu : t = u
      · subst htu
        simp only [Function.update_self]
        rcases exec_called hx with ⟨hidle, hm, hr⟩ | ⟨-, hm, hr⟩ | ⟨m, r, hm, hx, hr⟩
        · rw [hm, hr]
          exact ⟨ih.1, fun m h => Option.some.inj h ▸ hg hidle⟩
        · rw [hm, hr]
          exact ih
        · rw [hx, hr, Function.update_self]
          exact ⟨.snoc ih.1 (ih.2 m hm), fun _ h => by cases h⟩
      · have hr : x.1.returned t = c.shared.returned t := by
          rcases exec_called hx with ⟨-, -, hr⟩ | ⟨-, -, hr⟩ | ⟨m, r, -, -, hr⟩
          · rw [hr]
          · rw [hr]
          · rw [hr, Function.update_of_ne htu]
        simp only [Function.update_of_ne htu, hr]
        exact ih

/-- Between calls. -/
structure Rested (c : Config Tid (Shared Tid M D R) (PC M L R)) : Prop where
  idle : ∀ t, c.pc t = .idle
  mutex : c.shared.mutex = none

/-- Thread `t` alone is inside of a body that began in `c`. -/
structure Inside (c e : Config Tid (Shared Tid M D R) (PC M L R)) (t : Tid) (m : M) (l : L)
    (d : D) :
    Prop where
  self : e.pc t = .inside m l
  idle : ∀ u, u ≠ t → e.pc u = .idle
  data : e.shared.data = d
  returned : e.shared.returned = c.shared.returned

theorem exists_inside (hc : ReachIf (exec b) (Client next) (· = start d₀) c) (hrest : Rested c)
    (hm : next (c.shared.returned t) = some m) (hl : Leads b m c.shared.data l d) :
    ∃ e, ReachIf (exec b) (Client next) (· = start d₀) e ∧ Inside c e t m l d := by
  induction hl with
  | entry =>
      let c₁ : Config Tid (Shared Tid M D R) (PC M L R) :=
        ⟨c.shared, Function.update c.pc t (.lock m)⟩
      have h₁ : c.advance (exec b) t m = .ok c₁ := by
        unfold Config.advance
        rw [hrest.idle t]
        rfl
      have hpc : c₁.pc t = .lock m := Function.update_self ..
      let c₂ : Config Tid (Shared Tid M D R) (PC M L R) :=
        ⟨{ c.shared with mutex := some t }, Function.update c₁.pc t (.inside m (b.entry m))⟩
      have h₂ : c₁.advance (exec b) t m = .ok c₂ := by
        unfold Config.advance
        rw [hpc]
        simp only [exec, c₁, if_pos hrest.mutex]
        rfl
      refine ⟨c₂, .step (.step hc (fun _ => hm) h₁) (fun hidle => ?_) h₂,
        Function.update_self .., fun u hu => ?_, rfl, rfl⟩
      · rw [hpc] at hidle
        cases hidle
      · simp only [c₂, c₁, Function.update_of_ne hu, hrest.idle]
  | @step l l' d d' _ hs ih =>
      obtain ⟨e, he, hin⟩ := ih
      let e' : Config Tid (Shared Tid M D R) (PC M L R) :=
        ⟨{ e.shared with data := d' }, Function.update e.pc t (.inside m l')⟩
      have hstep : e.advance (exec b) t m = .ok e' := by
        unfold Config.advance
        rw [hin.self]
        simp only [exec, hin.data, hs]
        rfl
      refine ⟨e', .step he (fun hidle => ?_) hstep, Function.update_self .., fun u hu => ?_, rfl,
        hin.returned⟩
      · rw [hin.self] at hidle
        cases hidle
      · simp only [e', Function.update_of_ne hu, hin.idle u hu]

theorem exists_call (hc : ReachIf (exec b) (Client next) (· = start d₀) c) (hrest : Rested c)
    (hm : next (c.shared.returned t) = some m) (hl : Leads b m c.shared.data l d)
    (hr : b.step l d = .ok (d₁, .inr r)) :
    ∃ e, ReachIf (exec b) (Client next) (· = start d₀) e ∧ Rested e ∧ e.shared.data = d₁ ∧
      e.shared.returned =
        Function.update c.shared.returned t (c.shared.returned t ++ [(m, r)]) := by
  obtain ⟨e, he, hin⟩ := exists_inside hc hrest hm hl
  let e₁ : Config Tid (Shared Tid M D R) (PC M L R) :=
    ⟨{ e.shared with data := d₁, history := e.shared.history ++ [(t, m, r)] },
      Function.update e.pc t (.unlock m r)⟩
  have h₁ : e.advance (exec b) t m = .ok e₁ := by
    unfold Config.advance
    rw [hin.self]
    simp only [exec, hin.data, hr]
    rfl
  have hpc : e₁.pc t = .unlock m r := Function.update_self ..
  let e₂ : Config Tid (Shared Tid M D R) (PC M L R) :=
    ⟨{ e₁.shared with
      mutex := none
      returned := Function.update e₁.shared.returned t (e₁.shared.returned t ++ [(m, r)]) },
      Function.update e₁.pc t .idle⟩
  have h₂ : e₁.advance (exec b) t m = .ok e₂ := by
    unfold Config.advance
    rw [hpc]
    rfl
  have hbusy : e.pc t ≠ .idle := by
    rw [hin.self]
    exact nofun
  have hbusy₁ : e₁.pc t ≠ .idle := by
    rw [hpc]
    exact nofun
  refine ⟨e₂, .step (.step he (fun h => (hbusy h).elim) h₁) (fun h => (hbusy₁ h).elim) h₂,
    ⟨fun u => ?_, rfl⟩, rfl, ?_⟩
  · by_cases hu : u = t
    · subst hu
      exact Function.update_self ..
    · simp only [e₂, e₁, Function.update_of_ne hu, hin.idle u hu]
  · simp only [e₂, e₁, hin.returned]

end CsNotes.Monitor
