import CsNotes.Lib.Simulation
import CsNotes.TypeErasure.Model

/-!
# Where the models of the Shapes with a small buffer are

Swapping two Shapes exchanges their pointers and their buffers. A pointer to a
model in a buffer then leads into the buffer of the other Shape, and assignment
destroys that one right after. The storage stays apart, and the Shapes draw what
those on the heap do, exactly as long as only large models are swapped and
assigned.
-/
namespace CsNotes.TypeErasure
open Interleaving Simulation

variable {Var K V R : Type*} {T : Types K V R} {capacity : ℕ} {s s' : Sbo Var K V}
variable {σ σ' : Te.State Var K V} {v w : Slot Var} {m m' : Model K V}

/-- Every Shape has a live model of its own, in its buffer if it fits there and
else in a heap block of its own, and there is no other model. -/
structure Kept (T : Types K V R) (capacity : ℕ) (s : Sbo Var K V) : Prop where
  own : ∀ v p, s.pimpl v = some p → ∃ m, s.model p = some m ∧
    (p = .buf v ∧ T.sizeof m ≤ capacity ∨
      (∃ h, p = .heap h) ∧ capacity < T.sizeof m ∧ ∀ w, s.pimpl w = some p → w = v)
  owned : ∀ p m, s.model p = some m → ∃ v, s.pimpl v = some p

/-- The storage is kept, and what is drawn is what the Shapes on the heap draw. -/
def Good (T : Types K V R) (capacity : ℕ) (s : Sbo Var K V) (σ : Te.State Var K V) : Prop :=
  Kept T capacity s ∧ ∀ v, s.draw T v = Te.draw T σ v

def Large (T : Types K V R) (capacity : ℕ) (x : Option (Model K V)) : Prop :=
  ∃ m, x = some m ∧ capacity < T.sizeof m

def Source.Large (T : Types K V R) (capacity : ℕ) (σ : Te.State Var K V) :
    Source Var K V → Prop
  | fresh k _ => capacity < T.size k
  | copy w | move w => TypeErasure.Large T capacity (σ (.var w))

/-- Only large models are swapped or assigned. -/
def Roomy (T : Types K V R) (capacity : ℕ) (σ : Te.State Var K V) : Op Var K V → Prop
  | .assign v src => Large T capacity (σ (.var v)) ∧ src.Large T capacity σ
  | .swap v w => v = w ∨ Large T capacity (σ (.var v)) ∧ Large T capacity (σ (.var w))
  | _ => True

/-- How one Shape represents its model. -/
inductive At (T : Types K V R) (capacity : ℕ) (s : Sbo Var K V) (v : Slot Var) :
    Option (Model K V) → Prop
  | dead : s.pimpl v = none → s.buf v = none → At T capacity s v none
  | small {m : Model K V} : T.sizeof m ≤ capacity → s.pimpl v = some (.buf v) →
      s.buf v = some m → At T capacity s v (some m)
  | large {m : Model K V} (h : ℕ) : capacity < T.sizeof m → s.pimpl v = some (.heap h) →
      s.heap h = some m → s.buf v = none → At T capacity s v (some m)

structure Refines (T : Types K V R) (capacity : ℕ) (s : Sbo Var K V) (σ : Te.State Var K V) :
    Prop where
  slot : ∀ v, At T capacity s v (σ v)
  heap : ∀ h m, s.heap h = some m → h < s.allocs ∧ ∃ v, s.pimpl v = some (.heap h)
  alone : ∀ v w h, s.pimpl v = some (.heap h) → s.pimpl w = some (.heap h) → v = w

/-- A Shape is not affected by what happens to the storage of another. -/
theorem At.congr {x : Option (Model K V)} (h : At T capacity s v x) (hp : s'.pimpl v = s.pimpl v)
    (hb : s'.buf v = s.buf v)
    (hh : ∀ h, s.pimpl v = some (.heap h) → s'.heap h = s.heap h) : At T capacity s' v x := by
  cases h with
  | dead h₁ h₂ => exact .dead (hp.trans h₁) (hb.trans h₂)
  | small hs h₁ h₂ => exact .small hs (hp.trans h₁) (hb.trans h₂)
  | large h hs h₁ h₂ h₃ => exact .large h hs (hp.trans h₁) ((hh h h₁).trans h₂) (hb.trans h₃)

theorem Refines.at (h : Refines T capacity s σ) (hv : σ v = some m) : At T capacity s v (some m) :=
  hv ▸ h.slot v

theorem Refines.not_alive (h : Refines T capacity s σ) (hv : σ v = none) :
    s.pimpl v = none ∧ s.buf v = none := by
  have ha := h.slot v
  rw [hv] at ha
  cases ha with
  | dead h₁ h₂ => exact ⟨h₁, h₂⟩

theorem Refines.pimpl (h : Refines T capacity s σ) (hv : σ v = some m) :
    ∃ p, s.pimpl v = some p ∧ s.model p = some m := by
  cases h.at hv with
  | small hs h₁ h₂ => exact ⟨_, h₁, h₂⟩
  | large i hs h₁ h₂ h₃ => exact ⟨_, h₁, h₂⟩

theorem Refines.buf_large (h : Refines T capacity s σ) (hv : Large T capacity (σ v)) :
    s.buf v = none := by
  obtain ⟨m, hm, hs⟩ := hv
  cases h.at hm with
  | small hs' _ _ => omega
  | large _ _ _ _ h₃ => exact h₃

theorem Refines.kept (h : Refines T capacity s σ) : Kept T capacity s := by
  constructor
  case own =>
    intro v p hp
    cases hv : σ v with
    | none =>
        rw [(h.not_alive hv).1] at hp
        cases hp
    | some m =>
        cases h.at hv with
        | small hs h₁ h₂ =>
            obtain rfl := Option.some.inj (h₁.symm.trans hp)
            exact ⟨m, h₂, .inl ⟨rfl, hs⟩⟩
        | large i hs h₁ h₂ h₃ =>
            obtain rfl := Option.some.inj (h₁.symm.trans hp)
            exact ⟨m, h₂, .inr ⟨⟨i, rfl⟩, hs, fun w hw => h.alone w v i hw h₁⟩⟩
  case owned =>
    intro p m hp
    cases p with
    | buf v =>
        have hb : s.buf v = some m := hp
        cases hv : σ v with
        | none => simp [(h.not_alive hv).2] at hb
        | some m =>
            cases h.at hv with
            | small hs h₁ h₂ => exact ⟨v, h₁⟩
            | large i hs h₁ h₂ h₃ => simp [h₃] at hb
    | heap i => exact (h.heap i m hp).2

theorem Refines.draw (h : Refines T capacity s σ) (v : Var) : s.draw T v = Te.draw T σ v := by
  unfold Sbo.draw Te.draw Sbo.deref Te.model
  cases hv : σ (.var v) with
  | none => simp only [(h.not_alive hv).1]
  | some m =>
      obtain ⟨p, h₁, h₂⟩ := h.pimpl hv
      simp only [h₁, h₂]

theorem Refines.good (h : Refines T capacity s σ) : Good T capacity s σ := ⟨h.kept, h.draw⟩

theorem Refines.lt_allocs (h : Refines T capacity s σ) {i : ℕ} (hw : s.pimpl w = some (.heap i)) :
    i < s.allocs := by
  cases hσ : σ w with
  | none =>
      rw [(h.not_alive hσ).1] at hw
      cases hw
  | some x =>
      obtain ⟨p, h₁, h₂⟩ := h.pimpl hσ
      obtain rfl := Option.some.inj (h₁.symm.trans hw)
      exact (h.heap i x h₂).1

theorem Te.model_eq_ok {B : Type*} {f : Model K V → Outcome B} {b : B} :
    Te.model σ v f = .ok b ↔ ∃ m, σ v = some m ∧ f m = .ok b := by
  unfold Te.model
  cases σ v <;> simp

theorem Refines.deref {B : Type*} (h : Refines T capacity s σ) (hv : σ v = some m) :
    ∃ p, s.pimpl v = some p ∧ ∀ f : Place Var → Model K V → Outcome B, s.deref v f = f p m := by
  obtain ⟨p, h₁, h₂⟩ := h.pimpl hv
  refine ⟨p, h₁, fun f => ?_⟩
  unfold Sbo.deref
  simp only [h₁, h₂]

theorem large_iff {x y : Option (Model K V)} (h : x.map T.sizeof = y.map T.sizeof) :
    Large T capacity x ↔ Large T capacity y := by
  have key : ∀ z : Option (Model K V),
      Large T capacity z ↔ ∃ n, z.map T.sizeof = some n ∧ capacity < n := by
    intro z
    cases z <;> simp [Large]
  rw [key, key, h]

theorem Refines.buf_small (h : Refines T capacity s σ) (hv : σ v = some m)
    (hs : ¬ Large T capacity (σ v)) : s.pimpl v = some (.buf v) ∧ s.buf v = some m := by
  cases h.at hv with
  | small _ h₁ h₂ => exact ⟨h₁, h₂⟩
  | large _ hl _ _ _ => exact (hs ⟨m, hv, hl⟩).elim

/-- The pointer of one Shape leads into the buffer of another. -/
theorem not_kept (hp : s.pimpl w = some (.buf v)) (hvw : v ≠ w) : ¬ Kept T capacity s := by
  intro h
  obtain ⟨m, -, ⟨he, -⟩ | ⟨⟨i, he⟩, -⟩⟩ := h.own w _ hp
  · exact hvw (Place.buf.inj he)
  · cases he

variable [DecidableEq Var]

theorem Refines.emplace (h : Refines T capacity s σ) (hv : σ v = none) (m : Model K V) :
    ∃ s', s.emplace T capacity v m = .ok s' ∧
      Refines T capacity s' (Function.update σ v (some m)) := by
  obtain ⟨hp, hb⟩ := h.not_alive hv
  have hne : ∀ {w p}, s.pimpl w = some p → w ≠ v := by
    rintro w p hw rfl
    rw [hp] at hw
    cases hw
  unfold Sbo.emplace
  by_cases hs : T.sizeof m ≤ capacity
  · rw [if_pos hs, hb]
    refine ⟨_, rfl, ?_⟩
    constructor
    case slot =>
      apply (Function.forall_update_iff σ fun w x => At T capacity _ w x).mpr
      exact ⟨.small hs (by simp) (by simp), fun w hw => (h.slot w).congr
        (Function.update_of_ne hw _ _) (Function.update_of_ne hw _ _) fun _ _ => rfl⟩
    case heap =>
      intro i x hi
      obtain ⟨hlt, w, hw⟩ := h.heap i x hi
      exact ⟨hlt, w, (Function.update_of_ne (hne hw) _ _).trans hw⟩
    case alone =>
      have hold : ∀ {w i}, Function.update s.pimpl v (some (.buf v)) w = some (.heap i) →
          s.pimpl w = some (.heap i) := by
        intro w i hw
        by_cases he : w = v
        · simp [he] at hw
        · rwa [Function.update_of_ne he] at hw
      exact fun w u i hw hu => h.alone w u i (hold hw) (hold hu)
  · rw [if_neg hs]
    refine ⟨_, rfl, ?_⟩
    constructor
    case slot =>
      apply (Function.forall_update_iff σ fun w x => At T capacity _ w x).mpr
      refine ⟨.large s.allocs (by omega) (by simp) (by simp) hb, fun w hw =>
        (h.slot w).congr (Function.update_of_ne hw _ _) rfl fun i hi => ?_⟩
      exact Function.update_of_ne (Nat.ne_of_lt (h.lt_allocs hi)) _ _
    case heap =>
      apply (Function.forall_update_iff s.heap fun i x => ∀ m, x = some m →
        i < s.allocs + 1 ∧ ∃ w, Function.update s.pimpl v (some (.heap s.allocs)) w =
          some (.heap i)).mpr
      refine ⟨fun _ _ => ⟨Nat.lt_succ_self _, v, by simp⟩, fun i _ x hx => ?_⟩
      obtain ⟨hlt, w, hw⟩ := h.heap i x hx
      exact ⟨Nat.lt_succ_of_lt hlt, w, (Function.update_of_ne (hne hw) _ _).trans hw⟩
    case alone =>
      have hold : ∀ {w i}, Function.update s.pimpl v (some (.heap s.allocs)) w = some (.heap i) →
          w = v ∧ i = s.allocs ∨ s.pimpl w = some (.heap i) := by
        intro w i hw
        by_cases he : w = v
        · subst he
          simp only [Function.update_self, Option.some.injEq, Place.heap.injEq] at hw
          exact .inl ⟨rfl, hw.symm⟩
        · exact .inr (by rwa [Function.update_of_ne he] at hw)
      intro w u i hw hu
      rcases hold hw with ⟨hwv, hi⟩ | hw <;> rcases hold hu with ⟨huv, hi'⟩ | hu
      · rw [hwv, huv]
      · exact (Nat.lt_irrefl _ (hi ▸ h.lt_allocs hu)).elim
      · exact (Nat.lt_irrefl _ (hi' ▸ h.lt_allocs hw)).elim
      · exact h.alone w u i hw hu

/-- The model of a Shape changes into another of its size, or is destroyed. -/
theorem Refines.setModel (h : Refines T capacity s σ) (hv : σ v = some m) {p : Place Var}
    (hp : s.pimpl v = some p) (hs : T.sizeof m' = T.sizeof m) :
    Refines T capacity (s.setModel (some m') p) (Function.update σ v (some m')) := by
  cases h.at hv with
  | small hs₁ h₁ h₂ =>
      obtain rfl := Option.some.inj (h₁.symm.trans hp)
      constructor
      case slot =>
        apply (Function.forall_update_iff σ fun w x => At T capacity _ w x).mpr
        exact ⟨.small (hs ▸ hs₁) h₁ (Function.update_self ..), fun w hw => (h.slot w).congr rfl
          (Function.update_of_ne hw _ _) fun _ _ => rfl⟩
      case heap => exact h.heap
      case alone => exact h.alone
  | large i hs₁ h₁ h₂ h₃ =>
      obtain rfl := Option.some.inj (h₁.symm.trans hp)
      constructor
      case slot =>
        apply (Function.forall_update_iff σ fun w x => At T capacity _ w x).mpr
        refine ⟨.large i (hs ▸ hs₁) h₁ (Function.update_self ..) h₃, fun w hw =>
          (h.slot w).congr rfl rfl fun j hj => ?_⟩
        apply Function.update_of_ne
        rintro rfl
        exact hw (h.alone w v _ hj h₁)
      case heap =>
        apply (Function.forall_update_iff s.heap fun j x => ∀ m, x = some m →
          j < s.allocs ∧ ∃ w, s.pimpl w = some (.heap j)).mpr
        exact ⟨fun _ _ => ⟨h.lt_allocs h₁, v, h₁⟩, fun j _ => h.heap j⟩
      case alone => exact h.alone

theorem Refines.destroy (h : Refines T capacity s σ) (hv : σ v = some m) :
    ∃ s', s.destroy v = .ok s' ∧ Refines T capacity s' (Function.update σ v none) := by
  unfold Sbo.destroy Sbo.deref Sbo.release
  have hold : ∀ {w p}, Function.update s.pimpl v none w = some p → w ≠ v ∧ s.pimpl w = some p := by
    intro w p hw
    by_cases he : w = v
    · simp [he] at hw
    · exact ⟨he, by rwa [Function.update_of_ne he] at hw⟩
  cases h.at hv with
  | small hs h₁ h₂ =>
      have hm : s.model (.buf v) = some m := h₂
      simp only [h₁, hm, Sbo.setModel, Function.update_self]
      refine ⟨_, rfl, ?_⟩
      constructor
      case slot =>
        apply (Function.forall_update_iff σ fun w x => At T capacity _ w x).mpr
        exact ⟨.dead (Function.update_self ..) (Function.update_self ..), fun w hw =>
          (h.slot w).congr (Function.update_of_ne hw _ _) (Function.update_of_ne hw _ _)
            fun _ _ => rfl⟩
      case heap =>
        intro i x hi
        obtain ⟨hlt, w, hw⟩ := h.heap i x hi
        refine ⟨hlt, w, (Function.update_of_ne ?_ _ _).trans hw⟩
        rintro rfl
        rw [h₁] at hw
        cases hw
      case alone => exact fun w u i hw hu => h.alone w u i (hold hw).2 (hold hu).2
  | large i hs h₁ h₂ h₃ =>
      have hm : s.model (.heap i) = some m := h₂
      simp only [h₁, hm, Sbo.setModel, h₃]
      refine ⟨_, rfl, ?_⟩
      constructor
      case slot =>
        apply (Function.forall_update_iff σ fun w x => At T capacity _ w x).mpr
        refine ⟨.dead (Function.update_self ..) h₃, fun w hw => (h.slot w).congr
          (Function.update_of_ne hw _ _) rfl fun j hj => ?_⟩
        apply Function.update_of_ne
        rintro rfl
        exact hw (h.alone w v _ hj h₁)
      case heap =>
        apply (Function.forall_update_iff s.heap fun j x => ∀ m, x = some m →
          j < s.allocs ∧ ∃ w, Function.update s.pimpl v none w = some (.heap j)).mpr
        refine ⟨nofun, fun j hj x hx => ?_⟩
        obtain ⟨hlt, w, hw⟩ := h.heap j x hx
        refine ⟨hlt, w, (Function.update_of_ne ?_ _ _).trans hw⟩
        rintro rfl
        exact hj (Place.heap.inj (Option.some.inj (hw.symm.trans h₁)))
      case alone => exact fun w u i hw hu => h.alone w u i (hold hw).2 (hold hu).2

@[simp] theorem exchange_left {X : Type*} (f : Slot Var → X) (v w : Slot Var) :
    exchange f v w v = f w := by
  simp [exchange]

@[simp] theorem exchange_right {X : Type*} (f : Slot Var → X) (v w : Slot Var) :
    exchange f v w w = f v := by
  simp [exchange]

theorem exchange_of_ne {X : Type*} (f : Slot Var → X) {u : Slot Var} (hv : u ≠ v) (hw : u ≠ w) :
    exchange f v w u = f u := by
  simp [exchange, Equiv.swap_apply_of_ne_of_ne hv hw]

@[simp] theorem exchange_self {X : Type*} (f : Slot Var → X) (v : Slot Var) :
    exchange f v v = f := by
  simp [exchange]

theorem Refines.swap (h : Refines T capacity s σ) (hv : Large T capacity (σ v))
    (hw : Large T capacity (σ w)) : Refines T capacity (s.swap v w) (exchange σ v w) := by
  have hcross : ∀ {a b}, Large T capacity (σ a) → Large T capacity (σ b) →
      (s.swap v w).pimpl b = s.pimpl a → (s.swap v w).buf b = s.buf a →
      At T capacity (s.swap v w) b (σ a) := by
    intro a b ha hb hpa hba
    obtain ⟨m, hm, hs⟩ := ha
    rw [hm]
    cases h.at hm with
    | small hs' _ _ => omega
    | large i _ h₁ h₂ h₃ => exact .large i hs (hpa.trans h₁) h₂ (hba.trans h₃)
  constructor
  case slot =>
    intro u
    by_cases huv : u = v
    · subst huv
      rw [exchange_left]
      exact hcross hw hv (exchange_left ..) (exchange_left ..)
    by_cases huw : u = w
    · subst huw
      rw [exchange_right]
      exact hcross hv hw (exchange_right ..) (exchange_right ..)
    rw [exchange_of_ne σ huv huw]
    exact (h.slot u).congr (exchange_of_ne _ huv huw) (exchange_of_ne _ huv huw) fun _ _ => rfl
  case heap =>
    intro i x hi
    obtain ⟨hlt, u, hu⟩ := h.heap i x hi
    refine ⟨hlt, Equiv.swap v w u, ?_⟩
    simpa [Sbo.swap, exchange] using hu
  case alone =>
    intro a b i ha hb
    exact (Equiv.swap v w).injective (h.alone _ _ i ha hb)

variable {src : Source Var K V}

theorem Refines.construct (h : Refines T capacity s σ) (hv : σ v = none)
    (hs : Te.construct T σ v src = .ok σ') :
    ∃ s', s.construct T capacity v src = .ok s' ∧ Refines T capacity s' σ' := by
  cases src with
  | fresh k x =>
      cases hs
      exact h.emplace hv _
  | copy w =>
      obtain ⟨m, hm, hσ⟩ := Te.model_eq_ok.mp hs
      cases hσ
      obtain ⟨p, -, hd⟩ := h.deref hm
      obtain ⟨s', hs', hr⟩ := h.emplace hv (T.copyOf m)
      exact ⟨s', (hd _).trans hs', hr⟩
  | move w =>
      obtain ⟨m, hm, hσ⟩ := Te.model_eq_ok.mp hs
      cases hσ
      have hne : v ≠ .var w := by
        rintro rfl
        rw [hm] at hv
        cases hv
      obtain ⟨p, hp, hd⟩ := h.deref hm
      have hleft : Refines T capacity (s.setModel (some (T.leftOver m)) p)
          (Function.update σ (.var w) (some (T.leftOver m))) := h.setModel hm hp rfl
      obtain ⟨s', hs', hr⟩ := hleft.emplace ((Function.update_of_ne hne _ _).trans hv) (T.movedTo m)
      exact ⟨s', (hd _).trans hs', hr⟩

/-- A new Shape is as large as what it is made from, and the others keep their sizes. -/
theorem Te.construct_size (hs : Te.construct T σ v src = .ok σ') :
    (∃ m, σ' v = some m) ∧ (∀ n, Large T n (σ' v) ↔ src.Large T n σ) ∧
      ∀ u, u ≠ v → (σ' u).map T.sizeof = (σ u).map T.sizeof := by
  cases src with
  | fresh k x =>
      cases hs
      refine ⟨⟨_, Function.update_self ..⟩, ?_, fun u hu => by rw [Function.update_of_ne hu]⟩
      simp [Large, Source.Large, Types.sizeof]
  | copy w =>
      obtain ⟨m, hm, hσ⟩ := Te.model_eq_ok.mp hs
      cases hσ
      refine ⟨⟨_, Function.update_self ..⟩, fun n => ?_,
        fun u hu => by rw [Function.update_of_ne hu]⟩
      rw [Function.update_self]
      apply large_iff
      rw [hm]
      rfl
  | move w =>
      obtain ⟨m, hm, hσ⟩ := Te.model_eq_ok.mp hs
      cases hσ
      refine ⟨⟨_, Function.update_self ..⟩, fun n => ?_, fun u hu => ?_⟩
      · rw [Function.update_self]
        apply large_iff
        rw [hm]
        rfl
      · rw [Function.update_of_ne hu]
        by_cases huw : u = .var w
        · subst huw
          rw [Function.update_self, hm]
          rfl
        · rw [Function.update_of_ne huw]

/-- Between two operations `operator=` has no parameter. -/
def Rel (T : Types K V R) (capacity : ℕ) (s : Sbo Var K V) (σ : Te.State Var K V) : Prop :=
  Refines T capacity s σ ∧ σ .other = none

theorem simulates : Simulates (Sbo.step T capacity : Op Var K V → _) (Te.step T) (Rel T capacity)
    (Roomy T capacity) := by
  rintro s σ op σ' ⟨h, ho⟩ hg hs
  cases op with
  | construct v src =>
      simp only [Te.step] at hs
      split at hs
      · rename_i hv
        obtain ⟨s', hs', hr⟩ := h.construct hv hs
        have hsize := (Te.construct_size hs).2.2 .other (by simp)
        refine ⟨s', ?_, hr, by simpa [ho] using hsize⟩
        simpa only [Sbo.step, (h.not_alive hv).1] using hs'
      · cases hs
  | assign v src =>
      obtain ⟨m, hm, hs⟩ := Te.model_eq_ok.mp hs
      obtain ⟨σ₁, h₁, hs⟩ := Outcome.bind_eq_ok.mp hs
      obtain ⟨m', hm', hs⟩ := Te.model_eq_ok.mp hs
      cases hs
      obtain ⟨hlv, hls⟩ := hg
      obtain ⟨s₁, hs₁, hr₁⟩ := h.construct ho h₁
      obtain ⟨-, hlarge, hsize⟩ := Te.construct_size h₁
      have hr₂ := hr₁.swap ((large_iff (hsize (.var v) (by simp))).mpr hlv)
        ((hlarge capacity).mpr hls)
      obtain ⟨s', hs', hr'⟩ := hr₂.destroy hm'
      obtain ⟨p, hp, -⟩ := h.pimpl hm
      refine ⟨s', ?_, hr', Function.update_self ..⟩
      simp only [Sbo.step, hp, hs₁, Outcome.bind]
      exact hs'
  | swap v w =>
      obtain ⟨m, hm, hs⟩ := Te.model_eq_ok.mp hs
      obtain ⟨m', hm', hs⟩ := Te.model_eq_ok.mp hs
      cases hs
      obtain ⟨p, hp, -⟩ := h.pimpl hm
      obtain ⟨p', hp', -⟩ := h.pimpl hm'
      refine ⟨s.swap (.var v) (.var w), by simp only [Sbo.step, hp, hp'], ?_, ?_⟩
      · rcases hg with rfl | ⟨hv, hw⟩
        · rw [exchange_self, Sbo.swap, exchange_self, exchange_self]
          exact h
        · exact h.swap hv hw
      · rw [exchange_of_ne σ (by simp) (by simp), ho]
  | destroy v =>
      obtain ⟨m, hm, hs⟩ := Te.model_eq_ok.mp hs
      cases hs
      obtain ⟨s', hs', hr⟩ := h.destroy hm
      exact ⟨s', hs', hr, by rw [Function.update_of_ne (by simp), ho]⟩

theorem Sbo.pimpl_destroy (h : s.destroy v = .ok s') (hw : w ≠ v) : s'.pimpl w = s.pimpl w := by
  unfold Sbo.destroy Sbo.deref at h
  split at h
  · cases h
  · rename_i p hp
    split at h
    · cases h
    · simp only [Sbo.release] at h
      split at h
      · cases h
        exact (Function.update_of_ne hw _ _).trans (by cases p <;> rfl)
      · cases h

/-- The temporary which has got a small model destroys what is left of its own. -/
theorem Refines.destroy_fault (h : Refines T capacity s σ) (hv : σ v = some m)
    (hs : ¬ Large T capacity (σ v)) (hw : σ w = some m') (hvw : v ≠ w) :
    (s.swap v w).destroy w = .fault := by
  obtain ⟨hpv, hbv⟩ := h.buf_small hv hs
  have hp : (s.swap v w).pimpl w = some (.buf v) := (exchange_right ..).trans hpv
  have hm : (s.swap v w).model (.buf v) = s.buf w := exchange_left ..
  unfold Sbo.destroy Sbo.deref
  simp only [hp, hm]
  by_cases hl : Large T capacity (σ w)
  · simp only [h.buf_large hl]
  · have hb : ((s.swap v w).setModel none (.buf v)).buf w = some m := by
      simp only [Sbo.setModel, Function.update_of_ne hvw.symm]
      exact (exchange_right ..).trans hbv
    simp only [(h.buf_small hw hl).2, Sbo.release, hb]

theorem needs : Needs (Sbo.step T capacity : Op Var K V → _) (Te.step T) (Rel T capacity)
    (Good T capacity) (Roomy T capacity) := by
  rintro s σ op σ' s' ⟨h, ho⟩ hg hσ hs ⟨hk, -⟩
  cases op with
  | construct v src => exact hg trivial
  | destroy v => exact hg trivial
  | swap v w =>
      obtain ⟨m, hm, hσ⟩ := Te.model_eq_ok.mp hσ
      obtain ⟨m', hm', hσ⟩ := Te.model_eq_ok.mp hσ
      obtain ⟨p, hp, -⟩ := h.pimpl hm
      obtain ⟨p', hp', -⟩ := h.pimpl hm'
      obtain ⟨hne, hlarge⟩ := not_or.mp hg
      have hne' : Slot.var v ≠ .var w := fun he => hne (Slot.var.inj he)
      simp only [Sbo.step, hp, hp'] at hs
      obtain rfl := Outcome.ok.inj hs
      by_cases hv : Large T capacity (σ (.var v))
      · have hpw := (h.buf_small hm' fun hw => hlarge ⟨hv, hw⟩).1
        have hcross : (s.swap (.var v) (.var w)).pimpl (.var v) = some (.buf (.var w)) :=
          (exchange_left ..).trans hpw
        exact not_kept hcross hne'.symm hk
      · have hpv := (h.buf_small hm hv).1
        have hcross : (s.swap (.var v) (.var w)).pimpl (.var w) = some (.buf (.var v)) :=
          (exchange_right ..).trans hpv
        exact not_kept hcross hne' hk
  | assign v src =>
      obtain ⟨m, hm, hσ⟩ := Te.model_eq_ok.mp hσ
      obtain ⟨σ₁, h₁, hσ⟩ := Outcome.bind_eq_ok.mp hσ
      obtain ⟨p, hp, -⟩ := h.pimpl hm
      obtain ⟨s₁, hs₁, hr₁⟩ := h.construct ho h₁
      obtain ⟨⟨m', hm'⟩, hlarge, hsize⟩ := Te.construct_size h₁
      obtain ⟨m₁, hm₁, -⟩ := Te.model_eq_ok.mp hσ
      rw [exchange_right] at hm₁
      simp only [Sbo.step, hp, hs₁, Outcome.bind] at hs
      have hv : Large T capacity (σ₁ (.var v)) ↔ Large T capacity (σ (.var v)) :=
        large_iff (hsize (.var v) (by simp))
      by_cases hlv : Large T capacity (σ₁ (.var v))
      · have hlo : ¬ Large T capacity (σ₁ .other) :=
          fun hlo => hg ⟨hv.mp hlv, (hlarge capacity).mp hlo⟩
        have hpo := (hr₁.buf_small hm' hlo).1
        refine not_kept (v := .other) (w := .var v) ?_ (by simp) hk
        rw [Sbo.pimpl_destroy hs (by simp)]
        exact (exchange_left ..).trans hpo
      · rw [hr₁.destroy_fault hm₁ hlv hm' (by simp)] at hs
        cases hs

/-- The Shapes keep their storage to themselves, and draw what those on the heap
do, exactly as long as no small model is swapped or assigned. -/
theorem sbo_keeps_storage {ops : List (Op Var K V)}
    (hops : ∃ σ, run (Te.step T) ops Te.empty = .ok σ) :
    GoodRun (Sbo.step T capacity) (Te.step T) (Good T capacity) ops Sbo.empty Te.empty ↔
      Meets (Te.step T) (Roomy T capacity) ops Te.empty := by
  obtain ⟨σ, hσ⟩ := hops
  refine goodRun_iff_meets simulates (fun s σ h => h.1.good) needs ⟨?_, rfl⟩ hσ
  exact ⟨fun v => .dead rfl rfl, nofun, nofun⟩

section Example

/-- Shapes of two sizes, drawn as they are. -/
def squares : Types Bool ℕ ℕ where
  size large := if large then 40 else 16
  copy _ x := x
  moved _ x := x
  movedFrom _ _ := 0
  draw _ x := x

/-- Two Shapes of one size, and one is assigned to the other. -/
def assignment (large : Bool) : List (Op Bool Bool ℕ) :=
  [.construct false (.fresh large 5), .construct true (.fresh large 6), .assign false (.copy true)]

theorem sbo_keeps_storage_sample :
    GoodRun (Sbo.step squares 32) (Te.step squares) (Good squares 32) (assignment true) Sbo.empty
      Te.empty :=
  (sbo_keeps_storage ⟨_, rfl⟩).mpr
    ⟨trivial, fun _ h => by
      cases h
      exact ⟨trivial, fun _ h => by
        cases h
        exact ⟨⟨⟨_, rfl, by decide⟩, ⟨_, rfl, by decide⟩⟩, fun _ _ => trivial⟩⟩⟩

theorem sbo_shares_storage : ¬ ∀ (T : Types Bool ℕ ℕ) (capacity : ℕ) (ops : List (Op Bool Bool ℕ)),
    (∃ σ, run (Te.step T) ops Te.empty = .ok σ) →
      GoodRun (Sbo.step T capacity) (Te.step T) (Good T capacity) ops Sbo.empty Te.empty := by
  intro h
  obtain ⟨s, -, hs, -⟩ := h squares 32 (assignment false) ⟨_, rfl⟩ _ List.prefix_rfl
  have hfault : run (Sbo.step squares 32) (assignment false) Sbo.empty = .fault := rfl
  rw [hfault] at hs
  cases hs

end Example
end CsNotes.TypeErasure
