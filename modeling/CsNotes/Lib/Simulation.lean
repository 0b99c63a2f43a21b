import CsNotes.Lib.Interleaving

/-!
# Two implementations of the same operations

A sequence of operations is performed on two kinds of states. The second kind is
the reference: whenever it performs an operation that meets the guard, the first
kind does too, and a relation between the states is kept. The guard is a
condition on the reference state and the operation. Where it also is necessary
for what one wants to know of the states, a sequence is good throughout exactly
when every operation in it meets the guard.
-/
namespace CsNotes.Simulation
open Interleaving

variable {Op S C A : Type*}

def run (step : Op → S → Outcome S) : List Op → S → Outcome S
  | [], s => .ok s
  | op :: ops, s => (step op s).bind (run step ops)

variable {step : Op → S → Outcome S} {guard : S → Op → Prop} {s s' : S} {op : Op} {ops : List Op}

@[simp] theorem run_nil : run step [] s = .ok s := rfl

theorem run_cons (h : step op s = .ok s') : run step (op :: ops) s = run step ops s' := by
  change (step op s).bind (run step ops) = _
  rw [h]
  rfl

/-- What every operation keeps holds at the end. -/
theorem run_invariant {inv : S → Prop} (hs : inv s)
    (hstep : ∀ s op s', inv s → step op s = .ok s' → inv s') (h : run step ops s = .ok s') :
    inv s' := by
  induction ops generalizing s with
  | nil =>
      cases h
      exact hs
  | cons op ops ih =>
      obtain ⟨s₁, h₁, h⟩ := Outcome.bind_eq_ok.mp h
      exact ih (hstep s op s₁ hs h₁) h

/-- Every operation meets the guard in the state before it. -/
def Meets (step : Op → S → Outcome S) (guard : S → Op → Prop) : List Op → S → Prop
  | [], _ => True
  | op :: ops, s => guard s op ∧ ∀ s', step op s = .ok s' → Meets step guard ops s'

theorem meets_cons (h : step op s = .ok s') :
    Meets step guard (op :: ops) s ↔ guard s op ∧ Meets step guard ops s' := by
  constructor
  · exact fun ⟨hg, hm⟩ => ⟨hg, hm s' h⟩
  · intro ⟨hg, hm⟩
    refine ⟨hg, fun t ht => ?_⟩
    rw [h] at ht
    exact Outcome.ok.inj ht ▸ hm

/-- Two guards come to the same where an invariant holds which operations that meet
the second one keep. -/
theorem meets_iff_of_invariant {guard' : S → Op → Prop} {inv : S → Prop} (hs : inv s)
    (hguard : ∀ s op, inv s → (guard s op ↔ guard' s op))
    (hinv : ∀ s op s', inv s → guard' s op → step op s = .ok s' → inv s') :
    Meets step guard ops s ↔ Meets step guard' ops s := by
  induction ops generalizing s with
  | nil => exact Iff.rfl
  | cons op ops ih =>
      constructor
      · intro ⟨hg, hm⟩
        have hg' : guard' s op := (hguard s op hs).mp hg
        exact ⟨hg', fun s' h => (ih (hinv s op s' hs hg' h)).mp (hm s' h)⟩
      · intro ⟨hg', hm⟩
        exact ⟨(hguard s op hs).mpr hg', fun s' h => (ih (hinv s op s' hs hg' h)).mpr (hm s' h)⟩

variable {conc : Op → C → Outcome C} {ref : Op → A → Outcome A} {rel good : C → A → Prop}
variable {guard : A → Op → Prop} {c : C} {a a' : A}

/-- An operation which meets the guard is performed on both sides. -/
def Simulates (conc : Op → C → Outcome C) (ref : Op → A → Outcome A) (rel : C → A → Prop)
    (guard : A → Op → Prop) : Prop :=
  ∀ c a op a', rel c a → guard a op → ref op a = .ok a' → ∃ c', conc op c = .ok c' ∧ rel c' a'

/-- After an operation which does not meet the guard, the states are not good. -/
def Needs (conc : Op → C → Outcome C) (ref : Op → A → Outcome A) (rel good : C → A → Prop)
    (guard : A → Op → Prop) : Prop :=
  ∀ c a op a' c', rel c a → ¬ guard a op → ref op a = .ok a' → conc op c = .ok c' → ¬ good c' a'

theorem Simulates.run (h : Simulates conc ref rel guard) (hr : rel c a)
    (hm : Meets ref guard ops a) (ha : run ref ops a = .ok a') :
    ∃ c', Simulation.run conc ops c = .ok c' ∧ rel c' a' := by
  induction ops generalizing c a with
  | nil =>
      cases ha
      exact ⟨c, rfl, hr⟩
  | cons op ops ih =>
      obtain ⟨a₁, h₁, ha⟩ := Outcome.bind_eq_ok.mp ha
      obtain ⟨hg, hm⟩ := hm
      obtain ⟨c₁, hc₁, hr₁⟩ := h c a op a₁ hr hg h₁
      obtain ⟨c', hc', hr'⟩ := ih hr₁ (hm a₁ h₁) ha
      exact ⟨c', (run_cons hc₁).trans hc', hr'⟩

/-- The operations that are performed on both sides, with good states all along. -/
def GoodRun (conc : Op → C → Outcome C) (ref : Op → A → Outcome A) (good : C → A → Prop)
    (ops : List Op) (c : C) (a : A) : Prop :=
  ∀ p, p <+: ops → ∃ c' a', run conc p c = .ok c' ∧ run ref p a = .ok a' ∧ good c' a'

theorem goodRun_cons {c₁ : C} {a₁ : A} (hc : conc op c = .ok c₁) (ha : ref op a = .ok a₁) :
    GoodRun conc ref good (op :: ops) c a ↔ good c a ∧ GoodRun conc ref good ops c₁ a₁ := by
  constructor
  · intro h
    constructor
    · obtain ⟨c', a', hc', ha', hg⟩ := h [] List.nil_prefix
      cases hc'
      cases ha'
      exact hg
    · intro p hp
      obtain ⟨c', a', hc', ha', hg⟩ := h (op :: p) ((List.prefix_cons_inj op).mpr hp)
      rw [run_cons hc] at hc'
      rw [run_cons ha] at ha'
      exact ⟨c', a', hc', ha', hg⟩
  · intro ⟨hg, h⟩ p hp
    cases p with
    | nil => exact ⟨c, a, rfl, rfl, hg⟩
    | cons q p =>
        obtain ⟨rfl, hp'⟩ := List.cons_prefix_cons.mp hp
        rw [run_cons hc, run_cons ha]
        exact h p hp'

/-- Where the guard is sufficient and necessary for one operation, it is for any
sequence of them. -/
theorem goodRun_iff_meets (hs : Simulates conc ref rel guard) (hgood : ∀ c a, rel c a → good c a)
    (hn : Needs conc ref rel good guard) (hr : rel c a) (ha : run ref ops a = .ok a') :
    GoodRun conc ref good ops c a ↔ Meets ref guard ops a := by
  induction ops generalizing c a with
  | nil =>
      refine iff_of_true (fun p hp => ?_) trivial
      rw [List.prefix_nil.mp hp]
      exact ⟨c, a, rfl, rfl, hgood c a hr⟩
  | cons op ops ih =>
      obtain ⟨a₁, h₁, ha⟩ := Outcome.bind_eq_ok.mp ha
      rw [meets_cons h₁]
      by_cases hg : guard a op
      · obtain ⟨c₁, hc₁, hr₁⟩ := hs c a op a₁ hr hg h₁
        rw [goodRun_cons hc₁ h₁, ih hr₁ ha]
        simp [hg, hgood c a hr]
      · refine iff_of_false (fun h => ?_) fun h => hg h.1
        obtain ⟨c₁, a₂, hc₁, ha₂, hgood⟩ := h [op] (by simp)
        obtain ⟨c₂, hc₁, h'⟩ := Outcome.bind_eq_ok.mp hc₁
        cases h'
        obtain ⟨a₃, ha₂, h'⟩ := Outcome.bind_eq_ok.mp ha₂
        cases h'
        exact hn c a op a₂ c₁ hr hg ha₂ hc₁ hgood

/-- Every operation is performed on both sides or on neither. -/
def Agrees (conc : Op → C → Outcome C) (ref : Op → A → Outcome A) (rel : C → A → Prop) : Prop :=
  ∀ c a op, rel c a →
    (∃ c' a', conc op c = .ok c' ∧ ref op a = .ok a' ∧ rel c' a') ∨
      (conc op c = .wait ∧ ref op a = .wait)

theorem Agrees.run (h : Agrees conc ref rel) (ops : List Op) (hr : rel c a) :
    (∃ c' a', Simulation.run conc ops c = .ok c' ∧ Simulation.run ref ops a = .ok a' ∧
      rel c' a') ∨ (Simulation.run conc ops c = .wait ∧ Simulation.run ref ops a = .wait) := by
  induction ops generalizing c a with
  | nil => exact .inl ⟨c, a, rfl, rfl, hr⟩
  | cons op ops ih =>
      rcases h c a op hr with ⟨c₁, a₁, hc, ha, hr₁⟩ | ⟨hc, ha⟩
      · rw [run_cons hc, run_cons ha]
        exact ih hr₁
      · right
        constructor
        · change (conc op c).bind _ = _
          rw [hc]
          rfl
        · change (ref op a).bind _ = _
          rw [ha]
          rfl

/-- Two implementations which agree have the same good runs. -/
theorem Agrees.goodRun_iff {D : Type*} {conc' : Op → D → Outcome D} {rel' : C → D → Prop}
    {good' : D → A → Prop} {d : D} (h : Agrees conc conc' rel')
    (hgood : ∀ c d a, rel' c d → (good c a ↔ good' d a)) (hr : rel' c d) :
    GoodRun conc ref good ops c a ↔ GoodRun conc' ref good' ops d a := by
  refine forall_congr' fun p => forall_congr' fun _ => ?_
  rcases h.run p hr with ⟨c', d', hc, hd, hr'⟩ | ⟨hc, hd⟩
  · simp only [hc, hd, Outcome.ok.injEq]
    constructor
    · intro ⟨c₁, a₁, he, ha, hg⟩
      exact ⟨d', a₁, rfl, ha, (hgood c' d' a₁ hr').mp (he ▸ hg)⟩
    · intro ⟨d₁, a₁, he, ha, hg⟩
      exact ⟨c', a₁, rfl, ha, (hgood c' d' a₁ hr').mpr (he ▸ hg)⟩
  · simp [hc, hd]

theorem meets_iff_forall {P : Op → Prop} {s s' : S} (h : run step ops s = .ok s') :
    Meets step (fun _ op => P op) ops s ↔ ∀ op ∈ ops, P op := by
  induction ops generalizing s with
  | nil => exact iff_of_true trivial fun op hop => absurd hop List.not_mem_nil
  | cons op ops ih =>
      obtain ⟨s₁, h₁, h⟩ := Outcome.bind_eq_ok.mp h
      rw [meets_cons h₁, ih h, List.forall_mem_cons]

end CsNotes.Simulation
