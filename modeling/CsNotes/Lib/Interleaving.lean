import Mathlib.Logic.Function.Basic

/-!
# Threads interleaving over a shared state

A program is one function: what a thread does next, given its control point and
the shared state. A run interleaves single steps of the threads in any order.
Scheduling and every other free choice (an allocator's answer, a spurious
failure, who is woken) is input to the step, so the step itself computes.

The proof rule is that of Owicki and Gries with auxiliary state. A proof outline
has one assertion about the shared state and one about each thread's control
point, both over auxiliary data which no step reads. A step must keep the first,
establish the acting thread's second, and not invalidate anybody else's.
-/
namespace CsNotes.Interleaving

/-- One atomic step either cannot be taken now, or breaks the rules of object
lifetime, or leads to a new state. -/
inductive Outcome (A : Type*) where
  | wait
  | fault
  | ok (a : A)
deriving DecidableEq, Repr

namespace Outcome
variable {A B : Type*}

/-- Not a fault, and any result satisfies the postcondition. -/
def Sat (P : A → Prop) : Outcome A → Prop
  | wait => True
  | fault => False
  | ok a => P a

@[simp] theorem sat_wait (P : A → Prop) : (wait : Outcome A).Sat P := trivial
@[simp] theorem sat_fault (P : A → Prop) : ¬ (fault : Outcome A).Sat P := id
@[simp] theorem sat_ok (P : A → Prop) (a : A) : (ok a).Sat P ↔ P a := Iff.rfl

theorem sat_iff {P : A → Prop} {x : Outcome A} :
    x.Sat P ↔ x ≠ fault ∧ ∀ a, x = ok a → P a := by
  cases x <;> simp

theorem Sat.of_ok {P : A → Prop} {x : Outcome A} {a : A} (h : x.Sat P) (hx : x = ok a) : P a := by
  subst hx
  exact h

theorem Sat.ne_fault {P : A → Prop} {x : Outcome A} (h : x.Sat P) : x ≠ fault := by
  rintro rfl
  exact h

@[simp] theorem ok_ne_wait (a : A) : ok a ≠ wait := by
  intro h
  cases h
@[simp] theorem fault_ne_wait : (fault : Outcome A) ≠ wait := by
  intro h
  cases h

def map (f : A → B) : Outcome A → Outcome B
  | wait => wait
  | fault => fault
  | ok a => ok (f a)

def bind (x : Outcome A) (f : A → Outcome B) : Outcome B :=
  match x with
  | wait => wait
  | fault => fault
  | ok a => f a

instance : Monad Outcome where
  pure := ok
  bind := bind

@[simp] theorem ok_bind.{u} {A B : Type u} (a : A) (f : A → Outcome B) :
    (ok a >>= f) = f a := rfl

/-- One computation after another: what the first is known to lead to is all that
the second may rely on. -/
theorem Sat.bind.{u} {A B : Type u} {P : A → Prop} {Q : B → Prop} {x : Outcome A}
    {f : A → Outcome B} (hx : x.Sat P) (hf : ∀ a, P a → (f a).Sat Q) : (x >>= f).Sat Q := by
  cases x with
  | wait => trivial
  | fault => exact hx.elim
  | ok a => exact hf a hx

theorem Sat.mono {P Q : A → Prop} {x : Outcome A} (hx : x.Sat P) (h : ∀ a, P a → Q a) :
    x.Sat Q := by
  cases x with
  | wait => trivial
  | fault => exact hx.elim
  | ok a => exact h a hx

/-- A fault exactly if the condition fails, and any result satisfies the postcondition. -/
def Exactly (c : Prop) (P : A → Prop) : Outcome A → Prop
  | wait => True
  | fault => ¬ c
  | ok a => c ∧ P a

theorem exactly_true {P : A → Prop} {x : Outcome A} : x.Exactly True P ↔ x.Sat P := by
  cases x <;> simp [Exactly]

theorem Exactly.sat {c : Prop} {P : A → Prop} {x : Outcome A} (h : x.Exactly c P) (hc : c) :
    x.Sat P := by
  cases x with
  | wait => trivial
  | fault => exact h hc
  | ok a => exact h.2

theorem Exactly.condition {c : Prop} {P : A → Prop} {x : Outcome A} (h : x.Exactly c P) :
    x.Exactly c fun a => c ∧ P a := by
  cases x with
  | wait => trivial
  | fault => exact h
  | ok a => exact ⟨h.1, h⟩

theorem Exactly.mono {c d : Prop} {P Q : A → Prop} {x : Outcome A} (h : x.Exactly c P)
    (hcd : d ↔ c) (hPQ : ∀ a, P a → Q a) : x.Exactly d Q := by
  cases x with
  | wait => trivial
  | fault => exact fun hd => h (hcd.mp hd)
  | ok a => exact ⟨hcd.mpr h.1, hPQ a h.2⟩

theorem Exactly.bind.{u} {A B : Type u} {c d : Prop} {P : A → Prop} {Q : B → Prop} {x : Outcome A}
    {f : A → Outcome B} (hx : x.Exactly c P) (hf : ∀ a, P a → (f a).Exactly d Q) :
    (x >>= f).Exactly (c ∧ d) Q := by
  cases x with
  | wait => trivial
  | fault => exact fun hcd => hx hcd.1
  | ok a => exact (hf a hx.2).mono (and_iff_right hx.1) fun _ => id

theorem Exactly.bind_ok.{u} {A B : Type u} {c : Prop} {P : A → Prop} {Q : B → Prop}
    {x : Outcome A} {f : A → B} (hx : x.Exactly c P) (hf : ∀ a, P a → Q (f a)) :
    (x >>= fun a => ok (f a)).Exactly c Q := by
  cases x with
  | wait => trivial
  | fault => exact hx
  | ok a => exact ⟨hx.1, hf a hx.2⟩

theorem Sat.exactly.{u} {A B : Type u} {d : Prop} {P : A → Prop} {Q : B → Prop} {x : Outcome A}
    {f : A → Outcome B} (hx : x.Sat P) (hf : ∀ a, P a → (f a).Exactly d Q) :
    (x >>= f).Exactly d Q :=
  ((exactly_true.mpr hx).bind hf).mono (and_iff_right trivial).symm fun _ => id

theorem sat_map {P : B → Prop} {f : A → B} {x : Outcome A} :
    (x.map f).Sat P ↔ x.Sat fun a => P (f a) := by
  cases x <;> rfl

theorem sat_bind {P : B → Prop} {f : A → Outcome B} {x : Outcome A} :
    (x.bind f).Sat P ↔ x.Sat fun a => (f a).Sat P := by
  cases x <;> rfl

theorem map_eq_ok {f : A → B} {x : Outcome A} {b : B} :
    x.map f = ok b ↔ ∃ a, x = ok a ∧ f a = b := by
  cases x <;> simp [map]

theorem bind_eq_ok {x : Outcome A} {f : A → Outcome B} {b : B} :
    x.bind f = ok b ↔ ∃ a, x = ok a ∧ f a = ok b := by
  cases x <;> simp [bind]

end Outcome

structure Config (Tid S L : Type*) where
  shared : S
  pc : Tid → L

/-- The next step of a thread: its identity, the free choices, the shared state
and its own control point. -/
abbrev Code (Tid O S L : Type*) := Tid → O → S → L → Outcome (S × L)

variable {Tid O S L : Type*} [DecidableEq Tid]

/-- One thread steps, the control points of the others stay. -/
def Config.advance (exec : Code Tid O S L) (c : Config Tid S L) (t : Tid) (o : O) :
    Outcome (Config Tid S L) :=
  (exec t o c.shared (c.pc t)).map fun r => ⟨r.1, Function.update c.pc t r.2⟩

theorem Config.advance_sat {exec : Code Tid O S L} {P : Config Tid S L → Prop}
    {c : Config Tid S L} {t : Tid} {o : O}
    (h : (exec t o c.shared (c.pc t)).Sat fun r => P ⟨r.1, Function.update c.pc t r.2⟩) :
    (c.advance exec t o).Sat P := by
  unfold advance
  cases hx : exec t o c.shared (c.pc t) with
  | wait => trivial
  | fault =>
      rw [hx] at h
      exact h
  | ok r =>
      rw [hx] at h
      exact h

def Config.run (exec : Code Tid O S L) : List (Tid × O) → Config Tid S L → Outcome (Config Tid S L)
  | [], c => .ok c
  | (t, o) :: rest, c => (c.advance exec t o).bind (Config.run exec rest)

/-- States reached by runs all of whose steps meet `guard`. -/
inductive ReachIf (exec : Code Tid O S L) (guard : Config Tid S L → Tid → O → Prop)
    (init : Config Tid S L → Prop) : Config Tid S L → Prop
  | start {c : Config Tid S L} : init c → ReachIf exec guard init c
  | step {c d : Config Tid S L} {t : Tid} {o : O} : ReachIf exec guard init c →
      guard c t o → c.advance exec t o = .ok d → ReachIf exec guard init d

/-- States reached by any run. -/
abbrev Reach (exec : Code Tid O S L) (init : Config Tid S L → Prop) :=
  ReachIf exec (fun _ _ _ => True) init

variable {exec : Code Tid O S L} {guard : Config Tid S L → Tid → O → Prop}
variable {init : Config Tid S L → Prop}

theorem ReachIf.mono {guard' : Config Tid S L → Tid → O → Prop} {init' : Config Tid S L → Prop}
    {c : Config Tid S L} (h : ReachIf exec guard init c) (hi : ∀ c, init c → init' c)
    (hg : ∀ c t o, guard c t o → guard' c t o) : ReachIf exec guard' init' c := by
  induction h with
  | start hc => exact .start (hi _ hc)
  | step _ hs hd ih => exact .step ih (hg _ _ _ hs) hd

theorem ReachIf.reach {c : Config Tid S L} (h : ReachIf exec guard init c) : Reach exec init c :=
  h.mono (fun _ => id) fun _ _ _ _ => trivial

theorem ReachIf.next {c : Config Tid S L} {t : Tid} {o : O} {r : S × L} (h : Reach exec init c)
    (hx : exec t o c.shared (c.pc t) = .ok r) :
    Reach exec init ⟨r.1, Function.update c.pc t r.2⟩ := by
  apply ReachIf.step h trivial
  unfold Config.advance
  rw [hx]
  rfl

theorem ReachIf.runIf {sched : List (Tid × O)} {c d : Config Tid S L}
    (h : ReachIf exec guard init c) (hg : ∀ x ∈ sched, ∀ c, guard c x.1 x.2)
    (hr : c.run exec sched = .ok d) : ReachIf exec guard init d := by
  induction sched generalizing c with
  | nil =>
      cases hr
      exact h
  | cons x rest ih =>
      obtain ⟨e, he, hd⟩ := Outcome.bind_eq_ok.mp hr
      exact ih (.step h (hg x List.mem_cons_self c) he)
        (fun y hy => hg y (List.mem_cons_of_mem x hy)) hd

theorem ReachIf.run {sched : List (Tid × O)} {c d : Config Tid S L} (h : Reach exec init c)
    (hr : c.run exec sched = .ok d) : Reach exec init d :=
  h.runIf (fun _ _ _ => trivial) hr

/-- Every step of the schedule meets the guard in the state before it. -/
def Config.Meets (exec : Code Tid O S L) (guard : Config Tid S L → Tid → O → Prop) :
    List (Tid × O) → Config Tid S L → Prop
  | [], _ => True
  | (t, o) :: rest, c =>
      guard c t o ∧ ∀ d, c.advance exec t o = .ok d → d.Meets exec guard rest

theorem ReachIf.run_meets {sched : List (Tid × O)} {c d : Config Tid S L}
    (h : ReachIf exec guard init c) (hm : c.Meets exec guard sched)
    (hr : c.run exec sched = .ok d) : ReachIf exec guard init d := by
  induction sched generalizing c with
  | nil =>
      cases hr
      exact h
  | cons x rest ih =>
      obtain ⟨t, o⟩ := x
      obtain ⟨e, he, hd⟩ := Outcome.bind_eq_ok.mp hr
      exact ih (.step h hm.1 he) (hm.2 e he) hd

theorem meets_cons_of_ok {c d : Config Tid S L} {t : Tid} {o : O} {rest : List (Tid × O)}
    (hd : c.advance exec t o = .ok d) :
    c.Meets exec guard ((t, o) :: rest) ↔ guard c t o ∧ d.Meets exec guard rest := by
  constructor
  · exact fun ⟨hg, h⟩ => ⟨hg, h d hd⟩
  · intro ⟨hg, h⟩
    refine ⟨hg, fun e he => ?_⟩
    cases hd.symm.trans he
    exact h

theorem meets_cons_of_not_ok {c : Config Tid S L} {t : Tid} {o : O} {rest : List (Tid × O)}
    (h : ∀ d, c.advance exec t o ≠ .ok d) :
    c.Meets exec guard ((t, o) :: rest) ↔ guard c t o :=
  and_iff_left fun d hd => (h d hd).elim

instance Config.decidableMeets [∀ c t o, Decidable (guard c t o)] :
    ∀ (sched : List (Tid × O)) (c : Config Tid S L), Decidable (c.Meets exec guard sched)
  | [], _ => .isTrue trivial
  | (t, o) :: rest, c =>
      match hc : c.advance exec t o with
      | .ok d =>
          have : Decidable (d.Meets exec guard rest) := decidableMeets rest d
          decidable_of_iff _ (meets_cons_of_ok hc).symm
      | .wait | .fault => decidable_of_iff _ (meets_cons_of_not_ok (by simp [hc])).symm

/-- Guards that agree in the states reached are met by the same schedules. -/
theorem meets_congr {guard' : Config Tid S L → Tid → O → Prop} {sched : List (Tid × O)}
    {c : Config Tid S L} (hc : ReachIf exec guard init c)
    (h : ∀ c t o, ReachIf exec guard init c → (guard' c t o ↔ guard c t o)) :
    c.Meets exec guard' sched ↔ c.Meets exec guard sched := by
  induction sched generalizing c with
  | nil => exact Iff.rfl
  | cons x sched ih =>
      obtain ⟨t, o⟩ := x
      constructor
      · intro ⟨hg, hrest⟩
        have hg' := (h c t o hc).mp hg
        exact ⟨hg', fun d hd => (ih (.step hc hg' hd)).mp (hrest d hd)⟩
      · intro ⟨hg, hrest⟩
        exact ⟨(h c t o hc).mpr hg, fun d hd => (ih (.step hc hg hd)).mpr (hrest d hd)⟩

/-- What holds in every state that the schedule passes through. -/
def Config.Throughout (exec : Code Tid O S L) (good : Config Tid S L → Prop)
    (sched : List (Tid × O)) (c : Config Tid S L) : Prop :=
  ∀ p, p <+: sched → ∀ d, c.run exec p = .ok d → good d

theorem throughout_cons {good : Config Tid S L → Prop} {sched : List (Tid × O)}
    {c : Config Tid S L} {t : Tid} {o : O} :
    c.Throughout exec good ((t, o) :: sched) ↔
      good c ∧ ∀ d, c.advance exec t o = .ok d → d.Throughout exec good sched := by
  constructor
  · intro h
    constructor
    · exact h [] List.nil_prefix c rfl
    · intro d hd p hp e he
      refine h ((t, o) :: p) ((List.prefix_cons_inj _).mpr hp) e ?_
      change (c.advance exec t o).bind _ = _
      rw [hd]
      exact he
  · intro ⟨hg, h⟩ p hp d hd
    cases p with
    | nil =>
        cases hd
        exact hg
    | cons x p =>
        obtain ⟨rfl, hp'⟩ := List.cons_prefix_cons.mp hp
        obtain ⟨e, he, hd⟩ := Outcome.bind_eq_ok.mp hd
        exact h e he p hp' d hd

/-- Where good states follow from a guard, and a step against the guard leads to
a state that is not good, a schedule is good throughout if and only if all its
steps meet the guard. -/
theorem throughout_iff_meets {good : Config Tid S L → Prop} {sched : List (Tid × O)}
    {c : Config Tid S L} (hgood : ∀ c, ReachIf exec guard init c → good c)
    (hneeds : ∀ c t o, ReachIf exec guard init c → ¬ guard c t o →
      ∃ d, c.advance exec t o = .ok d ∧ ¬ good d) (hc : ReachIf exec guard init c) :
    c.Throughout exec good sched ↔ c.Meets exec guard sched := by
  induction sched generalizing c with
  | nil =>
      refine iff_of_true (fun p hp d hd => ?_) trivial
      cases List.prefix_nil.mp hp
      cases hd
      exact hgood c hc
  | cons x sched ih =>
      obtain ⟨t, o⟩ := x
      rw [throughout_cons]
      by_cases hg : guard c t o
      · have hnext : ∀ d, c.advance exec t o = .ok d →
            (d.Throughout exec good sched ↔ d.Meets exec guard sched) :=
          fun d hd => ih (.step hc hg hd)
        constructor
        · exact fun h => ⟨hg, fun d hd => (hnext d hd).mp (h.2 d hd)⟩
        · exact fun h => ⟨hgood c hc, fun d hd => (hnext d hd).mpr (h.2 d hd)⟩
      · refine iff_of_false (fun h => ?_) fun h => hg h.1
        obtain ⟨d, hd, hbad⟩ := hneeds c t o hc hg
        exact hbad (h.2 d hd [] List.nil_prefix d rfl)

/-- A proof outline over auxiliary data `G`. The step obligation may use that
the configuration is reachable and all local assertions hold. -/
structure Outline (exec : Code Tid O S L) (guard : Config Tid S L → Tid → O → Prop)
    (init : Config Tid S L → Prop) {G : Type*} (Global : S → G → Prop)
    (Local : S → G → Tid → L → Prop) : Prop where
  start : ∀ c, init c → ∃ g, Global c.shared g ∧ ∀ t, Local c.shared g t (c.pc t)
  step : ∀ c t o g, ReachIf exec guard init c → guard c t o → Global c.shared g →
    (∀ u, Local c.shared g u (c.pc u)) →
    (exec t o c.shared (c.pc t)).Sat fun r => ∃ g', Global r.1 g' ∧ Local r.1 g' t r.2 ∧
      ∀ u, u ≠ t → Local r.1 g' u (c.pc u)

namespace Outline
variable {G : Type*} {Global : S → G → Prop} {Local : S → G → Tid → L → Prop}

/-- The assertions hold in every state of every run. -/
theorem holds (h : Outline exec guard init Global Local) {c : Config Tid S L}
    (hc : ReachIf exec guard init c) :
    ∃ g, Global c.shared g ∧ ∀ t, Local c.shared g t (c.pc t) := by
  induction hc with
  | start hi => exact h.start _ hi
  | @step c d t o hr hg hs ih =>
      obtain ⟨g, hG, hL⟩ := ih
      obtain ⟨r, hx, rfl⟩ := Outcome.map_eq_ok.mp hs
      obtain ⟨g', hG', ht, hu⟩ := (h.step c t o g hr hg hG hL).of_ok hx
      refine ⟨g', hG', fun u => ?_⟩
      by_cases hut : u = t
      · subst hut
        simpa only [Function.update_self] using ht
      · simpa only [Function.update_of_ne hut] using hu u hut

/-- No step of a run faults. -/
theorem safe (h : Outline exec guard init Global Local) {c : Config Tid S L}
    (hc : ReachIf exec guard init c) {t : Tid} {o : O} (hg : guard c t o) :
    c.advance exec t o ≠ .fault := by
  obtain ⟨g, hG, hL⟩ := h.holds hc
  have hs := (h.step c t o g hc hg hG hL).ne_fault
  unfold Config.advance
  cases hx : exec t o c.shared (c.pc t) <;> simp_all [Outcome.map]

end Outline
end CsNotes.Interleaving
