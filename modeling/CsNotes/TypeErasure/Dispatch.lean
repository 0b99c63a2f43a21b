import CsNotes.Lib.Simulation
import CsNotes.TypeErasure.Mapping
import CsNotes.TypeErasure.SmallBuffer

/-!
# Manual dispatch is virtual dispatch

The five pointers of a Shape always belong together: one leads to a model, which no
other Shape has, and the functions are made for the type of that model. So every
cast is right, and a program does with these Shapes what it does with those that
have virtual functions. What they draw is the same as long as no type tells braces
from parentheses, or const members from others.
-/
namespace CsNotes.TypeErasure
open Interleaving Simulation

variable {Var K V R B : Type*} {T : Types K V R} {s s' : Md Var K V}
variable {σ σ' : Te.State Var K V} {v w : Slot Var} {m : Model K V}

/-- The functions of a Shape are all made for one type. -/
structure Md.Functions (s : Md Var K V) (v : Slot Var) (k : K) : Prop where
  draw : s.draw v = some k
  clone : s.clone v = some k
  move : s.move v = some k
  del : s.del v = some k

/-- How a Shape represents its model. -/
inductive Md.At (s : Md Var K V) (v : Slot Var) : Option (Model K V) → Prop
  | dead : s.bytes v = none → At s v none
  | live {m : Model K V} (h : ℕ) : s.bytes v = some h → s.heap h = some m →
      s.Functions v m.kind → At s v (some m)

structure Md.Represents (s : Md Var K V) (σ : Te.State Var K V) : Prop where
  slot : ∀ v, s.At v (σ v)
  alone : ∀ v w h, s.bytes v = some h → s.bytes w = some h → v = w
  owned : ∀ h m, s.heap h = some m → ∃ v, s.bytes v = some h
  lt : ∀ h ∈ s.created, h < s.allocs
  created : s.created.Nodup
  deleted : s.deleted.Nodup
  once : ∀ h, h ∈ s.created ↔ h ∈ s.deleted ∨ s.heap h ≠ none
  apart : ∀ h ∈ s.deleted, s.heap h = none

theorem Md.At.congr {x : Option (Model K V)} (h : s.At v x) (hb : s'.bytes v = s.bytes v)
    (hh : ∀ h, s.bytes v = some h → s'.heap h = s.heap h) (hdraw : s'.draw v = s.draw v)
    (hclone : s'.clone v = s.clone v) (hmove : s'.move v = s.move v) (hdel : s'.del v = s.del v) :
    s'.At v x := by
  cases h with
  | dead h => exact .dead (hb.trans h)
  | live i h₁ h₂ h₃ =>
      exact .live i (hb.trans h₁) ((hh i h₁).trans h₂) ⟨hdraw.trans h₃.draw,
        hclone.trans h₃.clone, hmove.trans h₃.move, hdel.trans h₃.del⟩

namespace Md.Represents

theorem dead (h : s.Represents σ) (hv : σ v = none) : s.bytes v = none := by
  have ha := h.slot v
  rw [hv] at ha
  cases ha with
  | dead h => exact h

theorem live (h : s.Represents σ) (hv : σ v = some m) :
    ∃ i, s.bytes v = some i ∧ s.heap i = some m ∧ s.Functions v m.kind := by
  have ha := h.slot v
  rw [hv] at ha
  cases ha with
  | live i h₁ h₂ h₃ => exact ⟨i, h₁, h₂, h₃⟩

theorem of_bytes (h : s.Represents σ) {i : ℕ} (hv : s.bytes v = some i) :
    ∃ m, σ v = some m ∧ s.heap i = some m ∧ s.Functions v m.kind := by
  cases hσ : σ v with
  | none =>
      rw [h.dead hσ] at hv
      cases hv
  | some m =>
      obtain ⟨j, hj, hm, hf⟩ := h.live hσ
      cases hj.symm.trans hv
      exact ⟨m, rfl, hm, hf⟩

theorem bytes_eq_none (h : s.Represents σ) : s.bytes v = none ↔ σ v = none := by
  constructor
  · intro hb
    cases hσ : σ v with
    | none => rfl
    | some m =>
        obtain ⟨i, hi, -⟩ := h.live hσ
        rw [hb] at hi
        cases hi
  · exact h.dead

theorem lt_allocs (h : s.Represents σ) {i : ℕ} (hi : s.heap i ≠ none) : i < s.allocs :=
  h.lt i ((h.once i).mpr (.inr hi))

theorem bytes_lt (h : s.Represents σ) {i : ℕ} (hv : s.bytes v = some i) : i < s.allocs := by
  obtain ⟨m, -, hm, -⟩ := h.of_bytes hv
  refine h.lt_allocs ?_
  rw [hm]
  exact Option.some_ne_none m

theorem allocs (h : s.Represents σ) : Represents { s with allocs := s.allocs + 1 } σ :=
  ⟨fun v => (h.slot v).congr rfl (fun _ _ => rfl) rfl rfl rfl rfl, h.alone, h.owned,
    fun i hi => Nat.lt_succ_of_lt (h.lt i hi), h.created, h.deleted, h.once, h.apart⟩

end Md.Represents

theorem Md.apply_eq [DecidableEq K] {f : Slot Var → Option K} {body : K → ℕ → Model K V → Outcome B}
    {i : ℕ} (hb : s.bytes v = some i) (hh : s.heap i = some m) (hf : f v = some m.kind) :
    s.apply f v body = body m.kind i m := by
  unfold Md.apply
  simp only [hb, hf, hh, if_true]

theorem Md.apply_dead [DecidableEq K] {f : Slot Var → Option K}
    {body : K → ℕ → Model K V → Outcome B} (hb : s.bytes v = none) :
    s.apply f v body = .wait := by
  unfold Md.apply
  simp only [hb]

namespace Md.Represents
variable [DecidableEq Var]

/-- A new Shape gets a new model, and the functions for its type. -/
theorem emplace (h : s.Represents σ) (hv : σ v = none) (m : Model K V) :
    Represents ((s.new m .none).1.init v (some s.allocs) (some m.kind) (some m.kind)
      (some m.kind) (some m.kind)) (Function.update σ v (some m)) := by
  have hb := h.dead hv
  have hold : ∀ {w i}, Function.update s.bytes v (some s.allocs) w = some i →
      w = v ∧ i = s.allocs ∨ s.bytes w = some i := by
    intro w i hw
    by_cases he : w = v
    · subst he
      rw [Function.update_self] at hw
      exact .inl ⟨rfl, (Option.some.inj hw).symm⟩
    · rw [Function.update_of_ne he] at hw
      exact .inr hw
  have hnew : s.allocs ∉ s.created := fun hc => Nat.lt_irrefl _ (h.lt _ hc)
  have hheap : s.heap s.allocs = none := by
    by_contra hne
    exact Nat.lt_irrefl _ (h.lt_allocs hne)
  constructor
  case slot =>
    apply (Function.forall_update_iff σ fun w x => Md.At _ w x).mpr
    constructor
    · exact .live s.allocs (Function.update_self ..) (Function.update_self ..)
        ⟨Function.update_self .., Function.update_self .., Function.update_self ..,
          Function.update_self ..⟩
    · intro w hw
      refine (h.slot w).congr (Function.update_of_ne hw _ _) (fun i hi => ?_)
        (Function.update_of_ne hw _ _) (Function.update_of_ne hw _ _)
        (Function.update_of_ne hw _ _) (Function.update_of_ne hw _ _)
      exact Function.update_of_ne (Nat.ne_of_lt (h.bytes_lt hi)) _ _
  case alone =>
    intro w u i hw hu
    rcases hold hw with ⟨hwv, hi⟩ | hw <;> rcases hold hu with ⟨huv, hi'⟩ | hu
    · rw [hwv, huv]
    · exact (Nat.lt_irrefl _ (hi ▸ h.bytes_lt hu)).elim
    · exact (Nat.lt_irrefl _ (hi' ▸ h.bytes_lt hw)).elim
    · exact h.alone w u i hw hu
  case owned =>
    apply (Function.forall_update_iff s.heap fun i x => ∀ m, x = some m →
      ∃ w, Function.update s.bytes v (some s.allocs) w = some i).mpr
    refine ⟨fun _ _ => ⟨v, Function.update_self ..⟩, fun i _ x hx => ?_⟩
    obtain ⟨w, hw⟩ := h.owned i x hx
    refine ⟨w, (Function.update_of_ne ?_ _ _).trans hw⟩
    rintro rfl
    rw [hb] at hw
    cases hw
  case lt =>
    intro i hi
    rcases List.mem_append.mp hi with hi | hi
    · exact Nat.lt_succ_of_lt (h.lt i hi)
    · rw [List.mem_singleton.mp hi]
      exact Nat.lt_succ_self _
  case created =>
    refine List.nodup_append.mpr ⟨h.created, by simp, ?_⟩
    rintro i hi j hj rfl
    exact hnew (List.mem_singleton.mp hj ▸ hi)
  case deleted => exact h.deleted
  case once =>
    intro i
    change i ∈ s.created ++ [s.allocs] ↔
      i ∈ s.deleted ∨ Function.update s.heap s.allocs (some m) i ≠ none
    by_cases hi : i = s.allocs
    · subst hi
      simp
    · rw [Function.update_of_ne hi, ← h.once i]
      simp [hi]
  case apart =>
    intro i hi
    have hne : i ≠ s.allocs := by
      rintro rfl
      exact hnew ((h.once _).mpr (.inl hi))
    exact (Function.update_of_ne hne _ _).trans (h.apart i hi)

theorem setModel (h : s.Represents σ) (hv : σ v = some m) {i : ℕ} (hb : s.bytes v = some i)
    (m' : Model K V) (hk : m'.kind = m.kind) :
    Represents { s with heap := Function.update s.heap i (some m') }
      (Function.update σ v (some m')) := by
  obtain ⟨i', hb', hm, hf⟩ := h.live hv
  cases hb'.symm.trans hb
  have hnone : ∀ j, Function.update s.heap i (some m') j ≠ none ↔ s.heap j ≠ none := by
    intro j
    by_cases hj : j = i
    · subst hj
      simp [hm]
    · rw [Function.update_of_ne hj]
  constructor
  case slot =>
    apply (Function.forall_update_iff σ fun w x => Md.At _ w x).mpr
    constructor
    · exact .live i hb (Function.update_self ..)
        (hk ▸ ⟨hf.draw, hf.clone, hf.move, hf.del⟩)
    · intro w hw
      refine (h.slot w).congr rfl (fun j hj => ?_) rfl rfl rfl rfl
      apply Function.update_of_ne
      rintro rfl
      exact hw (h.alone w v _ hj hb)
  case alone => exact h.alone
  case owned =>
    intro j x hx
    have hx' : Function.update s.heap i (some m') j = some x := hx
    have hne : s.heap j ≠ none := by
      rw [← hnone j, hx']
      exact Option.some_ne_none x
    obtain ⟨y, hy⟩ := Option.ne_none_iff_exists'.mp hne
    exact h.owned j y hy
  case lt => exact h.lt
  case created => exact h.created
  case deleted => exact h.deleted
  case once =>
    exact fun j => (h.once j).trans (or_congr_right (hnone j).symm)
  case apart =>
    intro j hj
    by_contra hne
    exact (hnone j).mp hne (h.apart j hj)

/-- Two Shapes, or a Shape and itself, exchange their members. -/
theorem swap (h : s.Represents σ) (v w : Slot Var) : (s.swap v w).Represents (exchange σ v w) := by
  constructor
  case slot =>
    intro u
    have ha := h.slot (Equiv.swap v w u)
    unfold exchange
    rw [Function.comp_apply]
    cases hσ : σ (Equiv.swap v w u) with
    | none => exact .dead (h.dead hσ)
    | some m =>
        obtain ⟨i, h₁, h₂, h₃⟩ := h.live hσ
        exact .live i h₁ h₂ ⟨h₃.draw, h₃.clone, h₃.move, h₃.del⟩
  case alone =>
    intro a b i ha hb
    exact (Equiv.swap v w).injective (h.alone _ _ i ha hb)
  case owned =>
    intro i m hm
    obtain ⟨u, hu⟩ := h.owned i m hm
    exact ⟨Equiv.swap v w u, by simpa [Md.swap, exchange] using hu⟩
  case lt => exact h.lt
  case created => exact h.created
  case deleted => exact h.deleted
  case once => exact h.once
  case apart => exact h.apart

theorem destroy [DecidableEq K] (h : s.Represents σ) (hv : σ v = some m) :
    ∃ s', s.destroy v = .ok s' ∧ s'.Represents (Function.update σ v none) := by
  obtain ⟨i, hb, hm, hf⟩ := h.live hv
  refine ⟨_, Md.apply_eq hb hm hf.del, ?_⟩
  have hold : ∀ {w j}, Function.update s.bytes v none w = some j → w ≠ v ∧ s.bytes w = some j := by
    intro w j hw
    by_cases he : w = v
    · simp [he] at hw
    · exact ⟨he, by rwa [Function.update_of_ne he] at hw⟩
  have hnot : i ∉ s.deleted := by
    intro hd
    rw [h.apart i hd] at hm
    cases hm
  constructor
  case slot =>
    apply (Function.forall_update_iff σ fun w x => Md.At _ w x).mpr
    constructor
    · exact .dead (Function.update_self ..)
    · intro w hw
      refine (h.slot w).congr (Function.update_of_ne hw _ _) (fun j hj => ?_)
        (Function.update_of_ne hw _ _) (Function.update_of_ne hw _ _)
        (Function.update_of_ne hw _ _) (Function.update_of_ne hw _ _)
      apply Function.update_of_ne
      rintro rfl
      exact hw (h.alone w v _ hj hb)
  case alone => exact fun a b j ha hb => h.alone a b j (hold ha).2 (hold hb).2
  case owned =>
    apply (Function.forall_update_iff s.heap fun j x => ∀ m, x = some m →
      ∃ w, Function.update s.bytes v none w = some j).mpr
    refine ⟨fun _ h => (Option.some_ne_none _ h.symm).elim, fun j hj x hx => ?_⟩
    obtain ⟨w, hw⟩ := h.owned j x hx
    refine ⟨w, (Function.update_of_ne ?_ _ _).trans hw⟩
    rintro rfl
    exact hj (Option.some.inj (hw.symm.trans hb))
  case lt => exact h.lt
  case created => exact h.created
  case deleted =>
    refine List.nodup_append.mpr ⟨h.deleted, by simp, ?_⟩
    rintro j hj k hk rfl
    exact hnot (List.mem_singleton.mp hk ▸ hj)
  case once =>
    intro j
    change j ∈ s.created ↔ j ∈ s.deleted ++ [i] ∨ Function.update s.heap i none j ≠ none
    rw [h.once j]
    by_cases hj : j = i
    · subst hj
      simp [hm]
    · rw [Function.update_of_ne hj]
      simp [hj]
  case apart =>
    intro j hj
    by_cases hji : j = i
    · subst hji
      exact Function.update_self ..
    · have hj' : j ∈ s.deleted ++ [i] := hj
      refine (Function.update_of_ne hji _ _).trans (h.apart j ?_)
      simpa [hji] using hj'

end Md.Represents

/-- Every Shape is as it was. -/
structure Md.Unchanged (s s' : Md Var K V) : Prop where
  bytes : s'.bytes = s.bytes
  draw : s'.draw = s.draw
  clone : s'.clone = s.clone
  move : s'.move = s.move
  del : s'.del = s.del
  heap : s'.heap = s.heap

/-- The Shape that another one is made from is there. -/
def Source.Alive (σ : Te.State Var K V) : Source Var K V → Prop
  | fresh _ _ => True
  | copy w | move w => σ (.var w) ≠ none

theorem Te.model_eq {f : Model K V → Outcome B} (hv : σ v = some m) : Te.model σ v f = f m := by
  unfold Te.model
  rw [hv]

theorem Te.model_dead {f : Model K V → Outcome B} (hv : σ v = none) : Te.model σ v f = .wait := by
  unfold Te.model
  rw [hv]

theorem Md.new_throws {e : Failure} (he : e ≠ .none) (m : Model K V) :
    ∃ s', s.new m e = (s', none) ∧ s.Unchanged s' ∧ (s.Represents σ → s'.Represents σ) := by
  cases e with
  | none => exact (he rfl).elim
  | allocation => exact ⟨s, rfl, ⟨rfl, rfl, rfl, rfl, rfl, rfl⟩, id⟩
  | model => exact ⟨_, rfl, ⟨rfl, rfl, rfl, rfl, rfl, rfl⟩, Md.Represents.allocs⟩

variable [DecidableEq Var] [DecidableEq K] {src : Source Var K V} {e : Failure}

namespace Md.Represents

theorem construct_dead (h : s.Represents σ) (hs : ¬ src.Alive σ) :
    s.construct T e v src = .wait ∧ Te.construct T σ v src = .wait ∧
      Te.throwing σ src = .wait := by
  cases src with
  | fresh k x => exact (hs trivial).elim
  | copy w | move w =>
      have hw : σ (.var w) = none := not_not.mp hs
      exact ⟨Md.apply_dead (h.dead hw), Te.model_dead hw, Te.model_dead hw⟩

theorem construct_throws (h : s.Represents σ) (hs : src.Alive σ) (he : e ≠ .none) :
    ∃ s', s.construct T e v src = .ok (s', false) ∧ Te.throwing σ src = .ok σ ∧
      s'.Represents σ ∧ s.Unchanged s' := by
  cases src with
  | fresh k x =>
      obtain ⟨s', hs', hsame, hr⟩ := Md.new_throws (s := s) (σ := σ) he ⟨k, x⟩
      exact ⟨s', by simp only [Md.construct, hs'], rfl, hr h, hsame⟩
  | copy w =>
      obtain ⟨m, hm⟩ := Option.ne_none_iff_exists'.mp hs
      obtain ⟨i, hb, hh, hf⟩ := h.live hm
      obtain ⟨s', hs', hsame, hr⟩ := Md.new_throws (s := s) (σ := σ) he (T.copyOf m)
      refine ⟨s', (Md.apply_eq hb hh hf.clone).trans ?_, Te.model_eq hm, hr h, hsame⟩
      have hnew : s.new ⟨m.kind, T.copy m.kind m.value⟩ e = (s', none) := hs'
      simp only [hnew]
  | move w =>
      obtain ⟨m, hm⟩ := Option.ne_none_iff_exists'.mp hs
      obtain ⟨i, hb, hh, hf⟩ := h.live hm
      obtain ⟨s', hs', hsame, hr⟩ := Md.new_throws (s := s) (σ := σ) he (T.movedTo m)
      refine ⟨s', (Md.apply_eq hb hh hf.move).trans ?_, Te.model_eq hm, hr h, hsame⟩
      have hnew : s.new ⟨m.kind, T.moved m.kind m.value⟩ e = (s', none) := hs'
      simp only [hnew]

omit [DecidableEq K] in
theorem initFrom {k : K} (h : s.Functions w k) (i : ℕ) :
    s.initFrom v w i = s.init v (some i) (some k) (some k) (some k) (some k) := by
  unfold Md.initFrom
  rw [h.draw, h.clone, h.move, h.del]

theorem construct_ok (h : s.Represents σ) (hv : σ v = none) (hs : src.Alive σ) :
    ∃ s' σ', s.construct T .none v src = .ok (s', true) ∧ Te.construct T σ v src = .ok σ' ∧
      s'.Represents σ' := by
  cases src with
  | fresh k x => exact ⟨_, _, rfl, rfl, h.emplace hv ⟨k, x⟩⟩
  | copy w =>
      obtain ⟨m, hm⟩ := Option.ne_none_iff_exists'.mp hs
      obtain ⟨i, hb, hh, hf⟩ := h.live hm
      refine ⟨_, _, Md.apply_eq hb hh hf.clone, Te.model_eq hm, ?_⟩
      have hf' : (s.new (T.copyOf m) .none).1.Functions (.var w) m.kind :=
        ⟨hf.draw, hf.clone, hf.move, hf.del⟩
      have hinit := initFrom (v := v) hf' s.allocs
      have hr := h.emplace hv (T.copyOf m)
      exact hinit ▸ hr
  | move w =>
      obtain ⟨m, hm⟩ := Option.ne_none_iff_exists'.mp hs
      obtain ⟨i, hb, hh, hf⟩ := h.live hm
      have hne : Slot.var w ≠ v := by
        rintro rfl
        exact hs hv
      refine ⟨_, _, Md.apply_eq hb hh hf.move, Te.model_eq hm, ?_⟩
      have hr := (h.emplace hv (T.movedTo m)).setModel (v := .var w) (m := m) (i := i)
        ((Function.update_of_ne hne _ _).trans hm) ((Function.update_of_ne hne _ _).trans hb)
        (T.leftOver m) rfl
      rw [Function.update_comm hne.symm] at hr
      have hf' : ({ (s.new (T.movedTo m) .none).1 with
          heap := Function.update (s.new (T.movedTo m) .none).1.heap i (some (T.leftOver m)) } :
            Md Var K V).Functions (.var w) m.kind :=
        ⟨hf.draw, hf.clone, hf.move, hf.del⟩
      have hinit := initFrom (v := v) hf' s.allocs
      exact hinit ▸ hr

theorem construct_cases (h : s.Represents σ) (hv : σ v = none) (e : Failure)
    (src : Source Var K V) :
    (s.construct T e v src = .wait ∧ Te.construct T σ v src = .wait ∧
      Te.throwing σ src = .wait) ∨
    (e = .none ∧ ∃ s' σ', s.construct T e v src = .ok (s', true) ∧
      Te.construct T σ v src = .ok σ' ∧ s'.Represents σ') ∨
    (e ≠ .none ∧ ∃ s', s.construct T e v src = .ok (s', false) ∧
      Te.throwing σ src = .ok σ ∧ s'.Represents σ ∧ s.Unchanged s') := by
  by_cases hs : src.Alive σ
  · right
    by_cases he : e = .none
    · subst he
      exact .inl ⟨rfl, h.construct_ok hv hs⟩
    · exact .inr ⟨he, h.construct_throws hs he⟩
  · exact .inl (h.construct_dead hs)

end Md.Represents

omit [DecidableEq K] in
theorem Te.call_throws (he : e ≠ .none) :
    (∀ v src, Te.call T ⟨.construct v src, e⟩ σ =
      match σ (.var v) with
      | none => Te.throwing σ src
      | some _ => .wait) ∧
    (∀ v src, Te.call T ⟨.assign v src, e⟩ σ =
      Te.model σ (.var v) fun _ => Te.throwing σ src) := by
  cases e with
  | none => exact (he rfl).elim
  | allocation | model => exact ⟨fun _ _ => rfl, fun _ _ => rfl⟩

omit [DecidableEq K] in
theorem Te.call_other (v w : Var) : Te.call T ⟨.swap v w, e⟩ σ = Te.step T (.swap v w) σ ∧
    Te.call T ⟨.destroy v, e⟩ σ = Te.step T (.destroy v) σ := by
  cases e <;> exact ⟨rfl, rfl⟩

/-- Between two operations `operator=` has no parameter. -/
def Md.Rel (s : Md Var K V) (σ : Te.State Var K V) : Prop := s.Represents σ ∧ σ .other = none

omit [DecidableEq K] in
/-- A Shape that is there stays there while another one is made. -/
theorem Te.construct_alive {σ' : Te.State Var K V} {u : Slot Var}
    (hs : Te.construct T σ v src = .ok σ') (hu : u ≠ v) : σ' u = none ↔ σ u = none := by
  have hsize := (Te.construct_size hs).2.2 u hu
  rw [← Option.map_eq_none_iff (f := T.sizeof), hsize, Option.map_eq_none_iff]

theorem Md.agrees : Agrees (Md.step T) (Te.call T : Call Var K V → _) Md.Rel := by
  intro s σ o hrel
  obtain ⟨op, e⟩ := o
  obtain ⟨h, ho⟩ := hrel
  cases op with
  | construct v src =>
      cases hv : σ (.var v) with
      | some m =>
          obtain ⟨i, hb, -⟩ := h.live hv
          right
          constructor
          · simp only [Md.step, hb]
          · cases e <;> simp only [Te.call, Te.step, hv]
      | none =>
          simp only [Md.step, h.dead hv]
          rcases h.construct_cases (T := T) hv e src with
            ⟨hs, ht, hf⟩ | ⟨rfl, s', σ', hs, ht, hr⟩ | ⟨he, s', hs, hf, hr, -⟩
          · right
            rw [hs]
            refine ⟨rfl, ?_⟩
            cases e <;> simp only [Te.call, Te.step, hv, ht, hf]
          · left
            refine ⟨s', σ', by rw [hs]; rfl, by simp only [Te.call, Te.step, hv, ht], hr, ?_⟩
            exact (Te.construct_alive ht (by simp)).mpr ho
          · left
            refine ⟨s', σ, by rw [hs]; rfl, ?_, hr, ho⟩
            rw [(Te.call_throws he).1, hv]
            exact hf
  | assign v src =>
      cases hv : σ (.var v) with
      | none =>
          right
          constructor
          · simp only [Md.step, h.dead hv]
          · cases e <;> exact Te.model_dead hv
      | some m =>
          obtain ⟨i, hb, -⟩ := h.live hv
          simp only [Md.step, hb]
          rcases h.construct_cases (T := T) ho e src with
            ⟨hs, ht, hf⟩ | ⟨rfl, s', σ', hs, ht, hr⟩ | ⟨he, s', hs, hf, hr, -⟩
          · right
            rw [hs]
            refine ⟨rfl, ?_⟩
            cases e
            · exact (Te.model_eq hv).trans (by rw [ht]; rfl)
            all_goals exact (Te.model_eq hv).trans hf
          · left
            have halive : σ' (.var v) ≠ none := by
              rw [Ne, Te.construct_alive ht (by simp), hv]
              exact Option.some_ne_none m
            obtain ⟨m', hm'⟩ := Option.ne_none_iff_exists'.mp halive
            have hother : exchange σ' (.var v) .other .other = some m' :=
              (exchange_right ..).trans hm'
            obtain ⟨s'', hd, hr'⟩ := (hr.swap (.var v) .other).destroy hother
            refine ⟨s'', _, ?_, ?_, hr', Function.update_self ..⟩
            · rw [hs]
              exact hd
            · refine (Te.model_eq hv).trans ?_
              rw [ht]
              exact Te.model_eq hother
          · left
            refine ⟨s', σ, by rw [hs]; rfl, ?_, hr, ho⟩
            rw [(Te.call_throws he).2]
            exact (Te.model_eq hv).trans hf
  | swap v w =>
      rw [(Te.call_other v w).1]
      cases hv : σ (.var v) with
      | none => exact .inr ⟨by simp only [Md.step, h.dead hv], Te.model_dead hv⟩
      | some m =>
          obtain ⟨i, hb, -⟩ := h.live hv
          cases hw : σ (.var w) with
          | none =>
              right
              refine ⟨by simp only [Md.step, hb, h.dead hw], ?_⟩
              exact (Te.model_eq hv).trans (Te.model_dead hw)
          | some m' =>
              obtain ⟨j, hb', -⟩ := h.live hw
              left
              refine ⟨_, _, by simp only [Md.step, hb, hb'], ?_, h.swap (.var v) (.var w), ?_⟩
              · exact (Te.model_eq hv).trans (Te.model_eq hw)
              · rw [exchange_of_ne σ (by simp) (by simp), ho]
  | destroy v =>
      rw [(Te.call_other v v).2]
      cases hv : σ (.var v) with
      | none => exact .inr ⟨Md.apply_dead (h.dead hv), Te.model_dead hv⟩
      | some m =>
          obtain ⟨s', hs', hr⟩ := h.destroy hv
          exact .inl ⟨s', _, hs', Te.model_eq hv, hr, by rw [Function.update_of_ne (by simp), ho]⟩

omit [DecidableEq K] in
/-- An operation of `te.hpp` does what it is for, or throws and does nothing. -/
theorem Te.call_cases {o : Call Var K V} {σ' : Te.State Var K V} (h : Te.call T o σ = .ok σ') :
    Te.step T o.op σ = .ok σ' ∨ σ' = σ := by
  obtain ⟨op, e⟩ := o
  have hthrow : ∀ src : Source Var K V, Te.throwing σ src = .ok σ' → σ' = σ := by
    intro src h
    cases src with
    | fresh k x =>
        cases h
        rfl
    | copy w | move w =>
        obtain ⟨m, -, h⟩ := Te.model_eq_ok.mp h
        cases h
        rfl
  by_cases he : e = .none
  · subst he
    exact .inl h
  cases op with
  | construct v src =>
      rw [(Te.call_throws he).1] at h
      split at h
      · exact .inr (hthrow src h)
      · cases h
  | assign v src =>
      rw [(Te.call_throws he).2] at h
      obtain ⟨m, -, h⟩ := Te.model_eq_ok.mp h
      exact .inr (hthrow src h)
  | swap v w => exact .inl ((Te.call_other v w).1 ▸ h)
  | destroy v => exact .inl ((Te.call_other v v).2 ▸ h)

omit [DecidableEq K] in
theorem Te.step_stays {op : Op Var K V} {σ' : Te.State Var K V} {x : Var}
    (h : Te.step T op σ = .ok σ') (hx : σ (.var x) ≠ none) (hop : op ≠ .destroy x) :
    σ' (.var x) ≠ none := by
  cases op with
  | construct v src =>
      simp only [Te.step] at h
      split at h
      · rename_i hv
        have hne : Slot.var x ≠ .var v := by
          intro he
          rw [he] at hx
          exact hx hv
        exact mt (Te.construct_alive h hne).mp hx
      · cases h
  | assign v src =>
      obtain ⟨m, hm, h⟩ := Te.model_eq_ok.mp h
      obtain ⟨σ₁, h₁, h⟩ := Outcome.bind_eq_ok.mp h
      obtain ⟨m', hm', h⟩ := Te.model_eq_ok.mp h
      cases h
      rw [Function.update_of_ne (by simp)]
      by_cases hxv : x = v
      · subst hxv
        obtain ⟨n, hn⟩ := (Te.construct_size h₁).1
        rw [exchange_left, hn]
        exact Option.some_ne_none n
      · rw [exchange_of_ne _ (by simpa using hxv) (by simp)]
        exact mt (Te.construct_alive h₁ (by simp)).mp hx
  | swap v w =>
      obtain ⟨m, hm, h⟩ := Te.model_eq_ok.mp h
      obtain ⟨m', hm', h⟩ := Te.model_eq_ok.mp h
      cases h
      by_cases hxv : x = v
      · subst hxv
        rw [exchange_left, hm']
        exact Option.some_ne_none m'
      by_cases hxw : x = w
      · subst hxw
        rw [exchange_right, hm]
        exact Option.some_ne_none m
      rw [exchange_of_ne _ (by simpa using hxv) (by simpa using hxw)]
      exact hx
  | destroy v =>
      obtain ⟨m, hm, h⟩ := Te.model_eq_ok.mp h
      cases h
      have hxv : Slot.var x ≠ .var v := by
        intro he
        exact hop (congrArg Op.destroy (Slot.var.inj he).symm)
      rwa [Function.update_of_ne hxv]

namespace Md.Represents

omit [DecidableEq Var] in
theorem drawn_eq [DecidableEq Var] (h : s.Represents σ) (x : Var) :
    s.drawn T x = Te.draw T σ x := by
  unfold Md.drawn Md.drawCall
  cases hx : σ (.var x) with
  | none =>
      rw [Md.apply_dead (h.dead hx)]
      exact (Te.model_dead hx).symm
  | some m =>
      obtain ⟨i, hb, hh, hf⟩ := h.live hx
      rw [Md.apply_eq hb hh hf.draw, Te.draw, Te.model_eq hx]
      rfl

theorem throws (h : s.Represents σ) (ho : σ .other = none) {x : Var} {s' : Md Var K V}
    (he : e ≠ .none) (hs : Md.step T ⟨.construct x src, e⟩ s = .ok s' ∨
      Md.step T ⟨.assign x src, e⟩ s = .ok s') : s.Unchanged s' := by
  rcases hs with hs | hs
  · simp only [Md.step] at hs
    split at hs
    · rename_i hx
      rcases h.construct_cases (T := T) (h.bytes_eq_none.mp hx) e src with
        ⟨hc, -⟩ | ⟨hn, -⟩ | ⟨-, s₁, hc, -, -, hsame⟩
      · rw [hc] at hs
        cases hs
      · exact (he hn).elim
      · rw [hc] at hs
        cases hs
        exact hsame
    · cases hs
  · simp only [Md.step] at hs
    split at hs
    · cases hs
    · rcases h.construct_cases (T := T) ho e src with
        ⟨hc, -⟩ | ⟨hn, -⟩ | ⟨-, s₁, hc, -, -, hsame⟩
      · rw [hc] at hs
        cases hs
      · exact (he hn).elim
      · rw [hc] at hs
        cases hs
        exact hsame

end Md.Represents

omit [DecidableEq Var] [DecidableEq K] in
theorem Md.rel_empty : (Md.empty : Md Var K V).Rel Te.empty := by
  refine ⟨⟨fun v => .dead rfl, fun v w h hv => ?_, fun h m hm => ?_, fun h hh => ?_, List.nodup_nil,
    List.nodup_nil, fun h => ?_, fun h hh => ?_⟩, rfl⟩
  · cases hv
  · cases hm
  · cases hh
  · simp [Md.empty]
  · cases hh

/-- The Shapes are there on both sides or on neither, with models of one type. -/
def Alike (σ τ : Te.State Var K V) : Prop := σ.map Model.forget = τ.map Model.forget

omit [DecidableEq Var] [DecidableEq K] in
theorem Alike.slot {τ : Te.State Var K V} (h : Alike σ τ) (v : Slot Var) :
    (σ v).map Model.kind = (τ v).map Model.kind := by
  have hv := congrArg (Option.map Model.kind) (congrFun h v)
  simp only [Te.State.map, Option.map_map] at hv
  exact hv

omit [DecidableEq Var] [DecidableEq K] in
theorem Alike.eq_none {τ : Te.State Var K V} (h : Alike σ τ) : σ v = none ↔ τ v = none := by
  rw [← Option.map_eq_none_iff (f := Model.kind), h.slot, Option.map_eq_none_iff]

omit [DecidableEq K] in
theorem Alike.call {τ : Te.State Var K V} {o o' : Call Var K V} (h : Alike σ τ)
    (ho : o.map Model.forget = o'.map Model.forget) :
    (∃ σ' τ', Te.call T o σ = .ok σ' ∧ Te.call T o' τ = .ok τ' ∧ Alike σ' τ') ∨
      (Te.call T o σ = .wait ∧ Te.call T o' τ = .wait) ∨
      (Te.call T o σ = .fault ∧ Te.call T o' τ = .fault) := by
  have hmap : (Te.call T o σ).map (Te.State.map Model.forget) =
      (Te.call T o' τ).map (Te.State.map Model.forget) := by
    rw [← Te.call_map (forget_respects (T := T)), ← Te.call_map (forget_respects (T := T)), h, ho]
  cases hσ : Te.call T o σ with
  | wait =>
      rw [hσ] at hmap
      cases hτ : Te.call T o' τ with
      | wait => exact .inr (.inl ⟨rfl, rfl⟩)
      | fault | ok τ' =>
          rw [hτ] at hmap
          cases hmap
  | fault =>
      rw [hσ] at hmap
      cases hτ : Te.call T o' τ with
      | fault => exact .inr (.inr ⟨rfl, rfl⟩)
      | wait | ok τ' =>
          rw [hτ] at hmap
          cases hmap
  | ok σ' =>
      rw [hσ] at hmap
      cases hτ : Te.call T o' τ with
      | ok τ' =>
          rw [hτ] at hmap
          exact .inl ⟨σ', τ', rfl, rfl, Outcome.ok.inj hmap⟩
      | wait | fault =>
          rw [hτ] at hmap
          cases hmap

omit [DecidableEq Var] [DecidableEq K] in
theorem Call.map_forget {f g : Model K V → Model K V} (o : Call Var K V)
    (hf : ∀ m, (f m).kind = m.kind) (hg : ∀ m, (g m).kind = m.kind) :
    (o.map f).map Model.forget = (o.map g).map Model.forget := by
  obtain ⟨op, e⟩ := o
  cases op with
  | construct v src | assign v src =>
      cases src with
      | fresh k x => simp [Call.map, Op.map, Source.map, Model.forget, hf, hg]
      | copy w | move w => rfl
  | swap v w | destroy v => rfl

section Programs
variable {T : Overloads K V R}
variable {c c' : Canvas (Md Var K V) R} {d d' : Canvas (Te.State Var K V) R} {a : Action Var K V}

/-- The Shapes of `te_md.hpp` have models of the types that those of `te.hpp` have. -/
def Canvas.Rel (c : Canvas (Md Var K V) R) (d : Canvas (Te.State Var K V) R) : Prop :=
  ∃ τ, c.shapes.Rel τ ∧ Alike τ d.shapes

omit [DecidableEq Var] in
theorem Md.Represents.drawCall [DecidableEq Var] {T : Overloads K V R} (h : s.Represents σ)
    {x : Var} (hx : σ (.var x) = some m) :
    ∃ s', s.drawCall T x = .ok (s', (T.drawMutable m.kind m.value).1) ∧ s'.bytes = s.bytes ∧
      s'.Represents (Function.update σ (.var x)
        (some { m with value := (T.drawMutable m.kind m.value).2 })) := by
  obtain ⟨i, hb, hh, hf⟩ := h.live hx
  exact ⟨_, Md.apply_eq hb hh hf.draw, rfl, h.setModel hx hb _ rfl⟩

theorem Md.act_agrees : Agrees (Md.act T) (Te.act T : Action Var K V → _) Canvas.Rel := by
  intro c d a hrel
  obtain ⟨τ, hr, halike⟩ := hrel
  cases a with
  | call o =>
      have hmap := o.map_forget (f := T.movedTo) (g := T.bracedTo) (fun _ => rfl) fun _ => rfl
      simp only [Md.act, Te.act]
      rcases Md.agrees (T := T.toTypes) c.shapes τ (o.map T.movedTo) hr with
        ⟨s', τ', hs, ht, hr'⟩ | ⟨hs, ht⟩
      · rcases halike.call (T := T.toTypes) hmap with
          ⟨_, σ', ht', hσ, ha⟩ | ⟨hw, -⟩ | ⟨hw, -⟩
        · cases ht.symm.trans ht'
          rw [hs, hσ]
          exact .inl ⟨_, _, rfl, rfl, τ', hr', ha⟩
        · cases ht.symm.trans hw
        · cases ht.symm.trans hw
      · rcases halike.call (T := T.toTypes) hmap with ⟨_, σ', ht', -⟩ | ⟨-, hσ⟩ | ⟨hw, -⟩
        · cases ht.symm.trans ht'
        · rw [hs, hσ]
          exact .inr ⟨rfl, rfl⟩
        · cases ht.symm.trans hw
  | draw x =>
      simp only [Md.act, Te.act]
      cases hx : τ (.var x) with
      | none =>
          right
          rw [Te.draw, Te.model_dead (halike.eq_none.mp hx), Md.drawCall,
            Md.apply_dead (hr.1.dead hx)]
          exact ⟨rfl, rfl⟩
      | some m =>
          obtain ⟨s', hs, -, hr'⟩ := hr.1.drawCall (T := T) hx
          obtain ⟨n, hn⟩ := Option.ne_none_iff_exists'.mp
            (mt halike.eq_none.mpr (by simp [hx]) : d.shapes (.var x) ≠ none)
          rw [hs, Te.draw, Te.model_eq hn]
          refine .inl ⟨_, _, rfl, rfl, _, ⟨hr', ?_⟩, ?_⟩
          · rw [Function.update_of_ne (by simp)]
            exact hr.2
          · refine Eq.trans ?_ halike
            rw [Te.State.map_update]
            refine (Function.update_eq_self_iff ..).mpr ?_
            simp [Te.State.map, hx, Model.forget]

/-- A Shape is made from what braces and parentheses make the same of. -/
def Source.Steady (T : Overloads K V R) : Source Var K V → Prop
  | fresh k x => T.braced k x = T.moved k x
  | copy _ | move _ => True

def Op.Steady (T : Overloads K V R) : Op Var K V → Prop
  | construct _ src | assign _ src => src.Steady T
  | swap _ _ | destroy _ => True

/-- A Shape is drawn through other members as through const ones, which leaves it as it was. -/
def Steady (T : Overloads K V R) (c : Canvas (Te.State Var K V) R) : Action Var K V → Prop
  | .call o => o.op.Steady T
  | .draw x => ∀ m, c.shapes (.var x) = some m →
      T.drawMutable m.kind m.value = (T.draw m.kind m.value, m.value)

/-- The action is performed on both sides. -/
def Performed (T : Overloads K V R) (c : Canvas (Md Var K V) R) (d : Canvas (Te.State Var K V) R)
    (a : Action Var K V) : Prop :=
  (∃ c', Md.act T a c = .ok c') ∧ ∃ d', Te.act T a d = .ok d'

/-- A Shape can be drawn, copied and destroyed, on both sides. -/
structure Usable (T : Overloads K V R) (c : Canvas (Md Var K V) R) (d : Canvas (Te.State Var K V) R)
    (x : Var) : Prop where
  draw : Performed T c d (.draw x)
  copy : ∀ u, c.shapes.bytes (.var u) = none →
    Performed T c d (.call ⟨.construct u (.copy x), .none⟩)
  destroy : Performed T c d (.call ⟨.destroy x, .none⟩)

/-- Whose the models are, and what an action leaves behind. A Shape which is moved
from is there until it is destroyed. -/
structure Canvas.Good (T : Overloads K V R) (c : Canvas (Md Var K V) R)
    (d : Canvas (Te.State Var K V) R) : Prop where
  own : ∀ v h, c.shapes.bytes v = some h → ∃ m, c.shapes.heap h = some m ∧
    c.shapes.Functions v m.kind ∧ ∀ w, c.shapes.bytes w = some h → w = v
  owned : ∀ h m, c.shapes.heap h = some m → ∃ v, c.shapes.bytes v = some h
  once : c.shapes.created.Nodup ∧ c.shapes.deleted.Nodup ∧
    ∀ h, h ∈ c.shapes.deleted ↔ h ∈ c.shapes.created ∧ c.shapes.heap h = none
  alive : ∀ v, c.shapes.bytes v = none ↔ d.shapes v = none
  usable : ∀ x, c.shapes.bytes (.var x) ≠ none → Usable T c d x
  stays : ∀ a c' x, Md.act T a c = .ok c' → c.shapes.bytes (.var x) ≠ none →
    (∀ e, a ≠ .call ⟨.destroy x, e⟩) → c'.shapes.bytes (.var x) ≠ none
  throws : ∀ x src e c', e ≠ .none → Md.act T (.call ⟨.construct x src, e⟩) c = .ok c' ∨
    Md.act T (.call ⟨.assign x src, e⟩) c = .ok c' → c.shapes.Unchanged c'.shapes

/-- What is there on one side is done there, so it is done on both. -/
theorem Canvas.Rel.performed (h : Canvas.Rel c d) (ha : Md.act T a c = .ok c') :
    Performed T c d a := by
  rcases Md.act_agrees (T := T) c d a h with ⟨c₁, d₁, hc, hd, -⟩ | ⟨hw, -⟩
  · exact ⟨⟨c₁, hc⟩, d₁, hd⟩
  · rw [hw] at ha
    cases ha

theorem Canvas.Rel.usable (h : Canvas.Rel c d) {x : Var} (hx : c.shapes.bytes (.var x) ≠ none) :
    Usable T c d x := by
  obtain ⟨τ, ⟨hr, -⟩, -⟩ := id h
  obtain ⟨m, hm⟩ := Option.ne_none_iff_exists'.mp (mt hr.bytes_eq_none.mpr hx)
  constructor
  case draw =>
    obtain ⟨s', hs, -⟩ := hr.drawCall (T := T) hm
    have hact : Md.act T (.draw x) c =
        .ok ⟨s', c.drawn ++ [(T.drawMutable m.kind m.value).1]⟩ := by
      simp only [Md.act, hs]
      rfl
    exact h.performed hact
  case copy =>
    intro u hu
    have halive : (Source.copy x : Source Var K V).Alive τ := by
      change τ (.var x) ≠ none
      rw [hm]
      exact Option.some_ne_none m
    obtain ⟨s', σ', hs, -⟩ := hr.construct_ok (T := T.toTypes) (hr.bytes_eq_none.mp hu) halive
    have hact : Md.act T (.call ⟨.construct u (.copy x), .none⟩) c =
        .ok { c with shapes := s' } := by
      simp only [Md.act, Call.map, Op.map, Source.map, Md.step, hu, hs]
      rfl
    exact h.performed hact
  case destroy =>
    obtain ⟨s', hs, -⟩ := hr.destroy hm
    have hact : Md.act T (.call ⟨.destroy x, .none⟩) c = .ok { c with shapes := s' } := by
      simp only [Md.act, Call.map, Op.map, Md.step, hs]
      rfl
    exact h.performed hact

theorem Canvas.Rel.stays (h : Canvas.Rel c d) {x : Var} (ha : Md.act T a c = .ok c')
    (hx : c.shapes.bytes (.var x) ≠ none) (hne : ∀ e, a ≠ .call ⟨.destroy x, e⟩) :
    c'.shapes.bytes (.var x) ≠ none := by
  obtain ⟨τ, hrel, -⟩ := h
  have hτ := mt hrel.1.bytes_eq_none.mpr hx
  cases a with
  | call o =>
      simp only [Md.act] at ha
      obtain ⟨s', hs, rfl⟩ := Outcome.map_eq_ok.mp ha
      rcases Md.agrees (T := T.toTypes) c.shapes τ (o.map T.movedTo) hrel with
        ⟨s₁, τ₁, hs₁, ht, hr, -⟩ | ⟨hw, -⟩
      · cases hs.symm.trans hs₁
        have hop : (o.map T.movedTo).op ≠ .destroy x := by
          obtain ⟨op, e⟩ := o
          cases op with
          | construct v src | assign v src | swap v w => simp [Call.map, Op.map]
          | destroy v =>
              rintro he
              cases he
              exact hne e rfl
        refine mt hr.bytes_eq_none.mp ?_
        rcases Te.call_cases ht with ht | rfl
        · exact Te.step_stays ht hτ hop
        · exact hτ
      · cases hs.symm.trans hw
  | draw y =>
      simp only [Md.act] at ha
      obtain ⟨p, hp, rfl⟩ := Outcome.map_eq_ok.mp ha
      cases hy : τ (.var y) with
      | none =>
          rw [Md.drawCall, Md.apply_dead (hrel.1.dead hy)] at hp
          cases hp
      | some m =>
          obtain ⟨s', hs, hb, -⟩ := hrel.1.drawCall (T := T) hy
          cases hp.symm.trans hs
          rwa [hb]

theorem Canvas.Rel.good (h : Canvas.Rel c d) : c.Good T d := by
  obtain ⟨τ, ⟨hr, ho⟩, halike⟩ := id h
  constructor
  case own =>
    intro v i hv
    obtain ⟨m, -, hm, hf⟩ := hr.of_bytes hv
    exact ⟨m, hm, hf, fun w hw => hr.alone w v i hw hv⟩
  case owned => exact hr.owned
  case once =>
    refine ⟨hr.created, hr.deleted, fun i => ⟨fun hi => ?_, fun ⟨hi, hnone⟩ => ?_⟩⟩
    · exact ⟨(hr.once i).mpr (.inl hi), hr.apart i hi⟩
    · exact ((hr.once i).mp hi).resolve_right fun hne => hne hnone
  case alive => exact fun v => hr.bytes_eq_none.trans halike.eq_none
  case usable => exact fun x hx => h.usable hx
  case stays => exact fun a c' x ha hx hne => h.stays ha hx hne
  case throws =>
    intro x src e c' he hs
    simp only [Md.act] at hs
    rcases hs with hs | hs
    · obtain ⟨s', hstep, rfl⟩ := Outcome.map_eq_ok.mp hs
      exact hr.throws ho he (.inl hstep)
    · obtain ⟨s', hstep, rfl⟩ := Outcome.map_eq_ok.mp hs
      exact hr.throws ho he (.inr hstep)

end Programs
end CsNotes.TypeErasure
