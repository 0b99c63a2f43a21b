import CsNotes.TypeErasure.Arguments
import CsNotes.TypeErasure.Dispatch

/-!
# Shapes which refer to their caller

A Shape made from rvalues is a value. One made from an lvalue has a reference to it
in its model, and so have its copies, so the caller's object decides what they
draw. The Shapes are values throughout exactly if none is made from an lvalue.
-/
namespace CsNotes.TypeErasure
open Interleaving Simulation

variable {Var Obj K V K' V' X R R' : Type*}

theorem Te.construct_fresh [DecidableEq Var] {T : Types K V R} {σ σ' : Te.State Var K V} {v : Var}
    {k : K} {x : V} (h : Te.step T (.construct v (.fresh k x)) σ = .ok σ' ∨
      Te.step T (.assign v (.fresh k x)) σ = .ok σ') : σ' (.var v) = some ⟨k, x⟩ := by
  rcases h with h | h
  · simp only [Te.step] at h
    split at h
    · cases h
      exact Function.update_self ..
    · cases h
  · obtain ⟨m, -, h⟩ := Te.model_eq_ok.mp h
    obtain ⟨σ₁, h₁, h⟩ := Outcome.bind_eq_ok.mp h
    cases h₁
    obtain ⟨m', -, h⟩ := Te.model_eq_ok.mp h
    cases h
    rw [Function.update_of_ne (by simp), exchange_left]
    exact Function.update_self ..

variable {W : Values X R}

def Argument.Rvalue : Argument Obj X → Prop
  | lvalue _ => False
  | xvalue _ | prvalue _ => True

def Origin.Rvalues : Origin Var Obj X → Prop
  | arguments shape drawer => shape.Rvalue ∧ drawer.Rvalue
  | copy _ | move _ => True

/-- If the act makes a Shape from arguments, both are rvalues. -/
def Act.Rvalues : Act Var Obj X → Prop
  | construct _ o | assign _ o => o.Rvalues
  | declare _ _ | mutate _ _ | release _ | swap _ _ | destroy _ => True

/-- A model with two values. -/
def owning (m : Model Unit (X × X)) : Model (Deduced × Deduced) (Member Obj X × Member Obj X) :=
  ⟨(.object, .object), (.value m.value.1, .value m.value.2)⟩

theorem owning_respects : Respects W.pairs (W.types Obj) owning :=
  ⟨fun _ => rfl, fun _ => rfl, fun _ => rfl⟩

/-- Shapes which are values, in models that own theirs. -/
def ValueWorld.owned (r : ValueWorld Var Obj X) : TeWorld Var Obj X :=
  ⟨r.shapes.map owning, r.objects⟩

def Member.IsValue : Member Obj X → Prop
  | value _ => True
  | reference _ => False

/-- No reference to an object of the caller. -/
def Owns (m : Model (Deduced × Deduced) (Member Obj X × Member Obj X)) : Prop :=
  m.value.1.IsValue ∧ m.value.2.IsValue

/-- The models of all Shapes own what they hold, and each Shape draws the values
it was made from, whatever the objects of the caller are now. -/
structure TeWorld.Independent (W : Values X R) (w : TeWorld Var Obj X) (r : ValueWorld Var Obj X) :
    Prop where
  owns : ∀ v m, w.shapes v = some m → Owns m
  draws : ∀ v, (Te.draw (W.types Obj) w.shapes v).bind (fun f => f w.objects) =
    Te.draw W.pairs r.shapes v

theorem ValueWorld.owned_independent (r : ValueWorld Var Obj X) :
    TeWorld.Independent W r.owned r := by
  constructor
  case owns =>
    intro v m hm
    obtain ⟨n, -, hn⟩ := Option.map_eq_some_iff.mp hm
    rw [← hn]
    exact ⟨trivial, trivial⟩
  case draws =>
    intro v
    simp only [Te.draw, Te.model, ValueWorld.owned, Te.State.map]
    cases r.shapes (.var v) <;> rfl

theorem Argument.deduce_rvalue {arg : Argument Obj X} (h : arg.Rvalue) : arg.deduce = .object := by
  cases arg with
  | lvalue a => exact h.elim
  | xvalue a | prvalue x => rfl

variable [DecidableEq Obj]

theorem Argument.initMember_rvalue {s : Objects Obj X} {arg : Argument Obj X} (h : arg.Rvalue) :
    arg.initMember W s = (arg.capture W s).map fun p => (.value p.1, p.2) := by
  cases arg with
  | lvalue a => exact h.elim
  | xvalue a =>
      change Referent.init W s .object (.object a) = _
      simp only [Referent.init, Argument.capture]
      cases s a <;> rfl
  | prvalue x => rfl

/-- From rvalues the caller's values are taken, and nothing else is kept. -/
theorem Origin.source_rvalues {o : Origin Var Obj X} (h : o.Rvalues) (s : Objects Obj X) :
    o.source W.owningModel s =
      (o.source W.captured s).map fun p => (p.1.map owning, p.2) := by
  cases o with
  | arguments shape drawer =>
      obtain ⟨hshape, hdrawer⟩ := h
      simp only [Origin.source, Values.owningModel, Values.captured,
        Argument.initMember_rvalue hshape, Argument.deduce_rvalue hshape,
        Argument.deduce_rvalue hdrawer]
      cases shape.capture W s with
      | wait | fault => rfl
      | ok p =>
          simp only [Outcome.map, Outcome.bind, Argument.initMember_rvalue hdrawer]
          cases drawer.capture W p.2 <;> rfl
  | copy w | move w => rfl

theorem Argument.initMember_lvalue {s t : Objects Obj X} {arg : Argument Obj X}
    {m : Member Obj X} (h : ¬ arg.Rvalue) (ha : arg.initMember W s = .ok (m, t)) :
    ¬ m.IsValue := by
  cases arg with
  | lvalue a =>
      change Referent.init W s .reference (.object a) = _ at ha
      simp only [Referent.init] at ha
      split at ha
      · cases ha
      · cases ha
        exact id
      · rename_i heq
        cases heq
  | xvalue a | prvalue x => exact (h trivial).elim

theorem Origin.source_lvalue {o : Origin Var Obj X} {s t : Objects Obj X} {src : Source Var _ _}
    (h : ¬ o.Rvalues) (ho : o.source W.owningModel s = .ok (src, t)) :
    ∃ k x, src = .fresh k x ∧ ¬ Owns ⟨k, x⟩ := by
  cases o with
  | arguments shape drawer =>
      obtain ⟨⟨k, x, u⟩, hm, hk⟩ := Outcome.map_eq_ok.mp ho
      obtain ⟨⟨m, s₁⟩, h₁, hm⟩ := Outcome.bind_eq_ok.mp hm
      obtain ⟨⟨n, s₂⟩, h₂, hm⟩ := Outcome.bind_eq_ok.mp hm
      cases hm
      cases hk
      refine ⟨_, _, rfl, fun hown => ?_⟩
      by_cases hs : shape.Rvalue
      · have hd : ¬ drawer.Rvalue := fun hd => h ⟨hs, hd⟩
        exact Argument.initMember_lvalue hd h₂ hown.2
      · exact Argument.initMember_lvalue hs h₁ hown.1
  | copy w | move w => exact (h trivial).elim

theorem Argument.initMember_cases (arg : Argument Obj X) (s : Objects Obj X) :
    (∃ p, arg.initMember W s = .ok p) ∨ arg.initMember W s = .wait := by
  cases arg with
  | lvalue a | xvalue a =>
      simp only [Argument.initMember, Argument.referent, Argument.deduce, Referent.init]
      cases s a with
      | none => exact .inr rfl
      | some x => exact .inl ⟨_, rfl⟩
  | prvalue x => exact .inl ⟨_, rfl⟩

theorem Origin.source_cases (o : Origin Var Obj X) (s : Objects Obj X) :
    (∃ p, o.source W.owningModel s = .ok p) ∨ o.source W.owningModel s = .wait := by
  cases o with
  | arguments shape drawer =>
      simp only [Origin.source, Values.owningModel]
      rcases shape.initMember_cases (W := W) s with ⟨p, hp⟩ | hp
      · rw [hp]
        simp only [Outcome.bind]
        rcases drawer.initMember_cases (W := W) p.2 with ⟨q, hq⟩ | hq
        · rw [hq]
          exact .inl ⟨_, rfl⟩
        · rw [hq]
          exact .inr rfl
      · rw [hp]
        exact .inr rfl
  | copy w | move w => exact .inl ⟨_, rfl⟩

/-- Programs do the same with Shapes of two implementations which agree. -/
theorem World.agrees {S S' : Type*} {rel : S → S' → Prop}
    {perform : Op Var (Deduced × Deduced) (Member Obj X × Member Obj X) → S → Outcome S}
    {perform' : Op Var (Deduced × Deduced) (Member Obj X × Member Obj X) → S' → Outcome S'}
    (h : Agrees perform perform' rel) :
    Agrees (World.step W.owningModel perform) (World.step W.owningModel perform')
      fun w u => rel w.shapes u.shapes ∧ w.objects = u.objects := by
  intro w u act ⟨hr, hobj⟩
  obtain ⟨σ, s⟩ := w
  obtain ⟨τ, t⟩ := u
  cases hobj
  have hop : ∀ op (s : Objects Obj X),
      (∃ c' a', (perform op σ).map (fun σ => (⟨σ, s⟩ : World S Obj X)) = .ok c' ∧
        (perform' op τ).map (fun σ => (⟨σ, s⟩ : World S' Obj X)) = .ok a' ∧
        rel c'.shapes a'.shapes ∧ c'.objects = a'.objects) ∨
      ((perform op σ).map (fun σ => (⟨σ, s⟩ : World S Obj X)) = .wait ∧
        (perform' op τ).map (fun σ => (⟨σ, s⟩ : World S' Obj X)) = .wait) := by
    intro op s
    rcases h σ τ op hr with ⟨σ', τ', hσ, hτ, hr'⟩ | ⟨hσ, hτ⟩
    · rw [hσ, hτ]
      exact .inl ⟨_, _, rfl, rfl, hr', rfl⟩
    · rw [hσ, hτ]
      exact .inr ⟨rfl, rfl⟩
  cases act with
  | declare a x =>
      simp only [World.step]
      cases s a with
      | none => exact .inl ⟨_, _, rfl, rfl, hr, rfl⟩
      | some y => exact .inr ⟨rfl, rfl⟩
  | mutate a x | release a =>
      simp only [World.step]
      cases s a with
      | none => exact .inr ⟨rfl, rfl⟩
      | some y => exact .inl ⟨_, _, rfl, rfl, hr, rfl⟩
  | construct v o =>
      simp only [World.step]
      rcases o.source_cases (W := W) s with ⟨p, hp⟩ | hp
      · rw [hp]
        exact hop (.construct v p.1) p.2
      · rw [hp]
        exact .inr ⟨rfl, rfl⟩
  | assign v o =>
      simp only [World.step]
      rcases o.source_cases (W := W) s with ⟨p, hp⟩ | hp
      · rw [hp]
        exact hop (.assign v p.1) p.2
      · rw [hp]
        exact .inr ⟨rfl, rfl⟩
  | swap v w => exact hop (.swap v w) s
  | destroy v => exact hop (.destroy v) s

variable [DecidableEq Var]

omit [DecidableEq Obj] in
theorem TeWorld.perform_owning (op : Op Var Unit (X × X)) (σ : Te.State Var Unit (X × X))
    (s : Objects Obj X) :
    ((Te.step (W.types Obj) (op.map owning) (σ.map owning)).map fun σ => (⟨σ, s⟩ : World _ _ _)) =
      ((Te.step W.pairs op σ).map fun σ => ⟨σ, s⟩).map ValueWorld.owned := by
  rw [Te.step_map owning_respects]
  cases Te.step W.pairs op σ <;> rfl

theorem TeWorld.make_owning {o : Origin Var Obj X} {r : ValueWorld Var Obj X} (h : o.Rvalues)
    (f : Source Var (Deduced × Deduced) (Member Obj X × Member Obj X) → Op Var _ _)
    (f' : Source Var Unit (X × X) → Op Var Unit (X × X))
    (hf : ∀ src, f (src.map owning) = (f' src).map owning) :
    ((o.source W.owningModel r.objects).bind fun (src, s) =>
      (Te.step (W.types Obj) (f src) r.owned.shapes).map fun σ => (⟨σ, s⟩ : World _ _ _)) =
    ((o.source W.captured r.objects).bind fun (src, s) =>
      (Te.step W.pairs (f' src) r.shapes).map fun σ => ⟨σ, s⟩).map ValueWorld.owned := by
  rw [Origin.source_rvalues h]
  cases o.source W.captured r.objects with
  | wait | fault => rfl
  | ok p =>
      simp only [Outcome.map, Outcome.bind, hf]
      exact TeWorld.perform_owning (f' p.1) r.shapes p.2

/-- The Shapes are values as long as they are made from rvalues. -/
theorem TeWorld.step_rvalues {act : Act Var Obj X} (h : act.Rvalues) (r : ValueWorld Var Obj X) :
    TeWorld.step W act r.owned = (ValueWorld.step W act r).map ValueWorld.owned := by
  cases act with
  | declare a x | mutate a x | release a =>
      simp only [TeWorld.step, ValueWorld.step, World.step, ValueWorld.owned]
      cases r.objects a <;> rfl
  | construct v o => exact TeWorld.make_owning h (Op.construct v) (Op.construct v) fun _ => rfl
  | assign v o => exact TeWorld.make_owning h (Op.assign v) (Op.assign v) fun _ => rfl
  | swap v w => exact TeWorld.perform_owning (Op.swap v w) r.shapes r.objects
  | destroy v => exact TeWorld.perform_owning (Op.destroy v) r.shapes r.objects

theorem TeWorld.needs_rvalues : Needs (TeWorld.step W) (ValueWorld.step W)
    (fun w (r : ValueWorld Var Obj X) => w = r.owned) (TeWorld.Independent W)
    fun _ act => act.Rvalues := by
  intro w r act r' w' hr hact _ hw hgood
  have hfresh : ∀ {v k x},
      Te.step (W.types Obj) (.construct v (.fresh k x)) w.shapes = .ok w'.shapes ∨
        Te.step (W.types Obj) (.assign v (.fresh k x)) w.shapes = .ok w'.shapes →
      Owns ⟨k, x⟩ :=
    fun h => hgood.owns _ _ (Te.construct_fresh h)
  cases act with
  | construct v o =>
      obtain ⟨⟨src, s⟩, ho, hw⟩ := Outcome.bind_eq_ok.mp hw
      obtain ⟨k, x, rfl, hown⟩ := Origin.source_lvalue hact ho
      obtain ⟨σ, hσ, rfl⟩ := Outcome.map_eq_ok.mp hw
      exact hown (hfresh (.inl hσ))
  | assign v o =>
      obtain ⟨⟨src, s⟩, ho, hw⟩ := Outcome.bind_eq_ok.mp hw
      obtain ⟨k, x, rfl, hown⟩ := Origin.source_lvalue hact ho
      obtain ⟨σ, hσ, rfl⟩ := Outcome.map_eq_ok.mp hw
      exact hown (hfresh (.inr hσ))
  | declare a x | mutate a x | release a | swap v u | destroy v => exact hact trivial

theorem TeWorld.simulates_rvalues : Simulates (TeWorld.step W) (ValueWorld.step W)
    (fun w (r : ValueWorld Var Obj X) => w = r.owned) fun _ act => act.Rvalues := by
  intro w r act r' hr hact hr'
  refine ⟨r'.owned, ?_, rfl⟩
  rw [hr, TeWorld.step_rvalues hact, hr']
  rfl

/-- The models on the heap own what they hold, and each Shape draws the values it
was made from. -/
structure MdWorld.Independent (W : Values X R) (w : MdWorld Var Obj X) (r : ValueWorld Var Obj X) :
    Prop where
  owns : ∀ h m, w.shapes.heap h = some m → Owns m
  draws : ∀ v, (Md.drawn (W.types Obj) w.shapes v).bind (fun f => f w.objects) =
    Te.draw W.pairs r.shapes v

omit [DecidableEq Obj] in
theorem MdWorld.independent_iff {s : Md Var (Deduced × Deduced) (Member Obj X × Member Obj X)}
    {σ : Te.State Var (Deduced × Deduced) (Member Obj X × Member Obj X)} (h : s.Rel σ)
    (t : Objects Obj X) (r : ValueWorld Var Obj X) :
    MdWorld.Independent W ⟨s, t⟩ r ↔ TeWorld.Independent W ⟨σ, t⟩ r := by
  have hdraws := h.1.drawn_eq (T := W.types Obj)
  constructor
  · intro hi
    constructor
    · intro v m hm
      obtain ⟨i, -, hi', -⟩ := h.1.live hm
      exact hi.owns i m hi'
    · exact fun v => (hdraws v) ▸ hi.draws v
  · intro hi
    constructor
    · intro i m hm
      obtain ⟨v, hv⟩ := h.1.owned i m hm
      obtain ⟨n, hn, hm', -⟩ := h.1.of_bytes hv
      cases hm.symm.trans hm'
      exact hi.owns v m hn
    · exact fun v => (hdraws v).symm ▸ hi.draws v

theorem MdWorld.agrees : Agrees (MdWorld.step W) (TeWorld.step W)
    fun (w : MdWorld Var Obj X) u => w.shapes.Rel u.shapes ∧ w.objects = u.objects :=
  World.agrees fun s σ op hr => Md.agrees s σ ⟨op, .none⟩ hr

def World.start (σ : S) : World S Obj X := ⟨σ, fun _ => none⟩

/-- The Shapes of a program are values throughout exactly if each is made from
rvalues only. -/
theorem shapes_independent_iff (W : Values X R) {acts : List (Act Var Obj X)}
    (h : ∃ r, run (ValueWorld.step W) acts (.start Te.empty) = .ok r) :
    (GoodRun (TeWorld.step W) (ValueWorld.step W) (TeWorld.Independent W) acts (.start Te.empty)
      (.start Te.empty) ↔ ∀ act ∈ acts, act.Rvalues) ∧
    (GoodRun (MdWorld.step W) (ValueWorld.step W) (MdWorld.Independent W) acts (.start Md.empty)
      (.start Te.empty) ↔ ∀ act ∈ acts, act.Rvalues) := by
  obtain ⟨r, hr⟩ := h
  have hte : GoodRun (TeWorld.step W) (ValueWorld.step W) (TeWorld.Independent W) acts
      (.start Te.empty) (.start Te.empty) ↔ ∀ act ∈ acts, act.Rvalues := by
    refine Iff.trans (goodRun_iff_meets TeWorld.simulates_rvalues (fun w r hw => ?_)
      TeWorld.needs_rvalues rfl hr) (meets_iff_forall hr)
    rw [hw]
    exact r.owned_independent
  refine ⟨hte, Iff.trans ?_ hte⟩
  refine MdWorld.agrees.goodRun_iff (fun w u r hr => ?_) ⟨Md.rel_empty, rfl⟩
  obtain ⟨s, t⟩ := w
  obtain ⟨σ, t'⟩ := u
  obtain ⟨hr, rfl⟩ := hr
  exact MdWorld.independent_iff hr t r

/-- A strategy and a shape are numbers, of which the sum is drawn. -/
def numbers : Values ℕ ℕ := ⟨id, id, fun _ => 0, fun drawer shape => drawer + shape⟩

/-- Makes a Shape from an argument and a temporary, copies it, and changes the
object 0. -/
def program (shape : Argument ℕ ℕ) : List (Act ℕ ℕ ℕ) :=
  [.declare 0 1, .construct 0 (.arguments shape (.prvalue 2)), .construct 1 (.copy 0),
    .mutate 0 3]

theorem shapes_independent_iff_program :
    (GoodRun (TeWorld.step numbers) (ValueWorld.step numbers) (TeWorld.Independent numbers)
      (program (.xvalue 0)) (.start Te.empty) (.start Te.empty) ↔
        ∀ act ∈ program (.xvalue 0), act.Rvalues) ∧
    (GoodRun (MdWorld.step numbers) (ValueWorld.step numbers) (MdWorld.Independent numbers)
      (program (.xvalue 0)) (.start Md.empty) (.start Te.empty) ↔
        ∀ act ∈ program (.xvalue 0), act.Rvalues) :=
  shapes_independent_iff numbers ⟨_, rfl⟩

/-- The copy of a Shape made from an object draws what the object is changed to. -/
theorem shape_of_lvalue_not_independent :
    (∃ w r, run (TeWorld.step numbers) (program (.lvalue 0)) (.start Te.empty) = .ok w ∧
      run (ValueWorld.step numbers) (program (.lvalue 0)) (.start Te.empty) = .ok r ∧
      (Te.draw (numbers.types ℕ) w.shapes 1).bind (fun f => f w.objects) = .ok 5 ∧
      Te.draw numbers.pairs r.shapes 1 = .ok 3) ∧
    ¬ GoodRun (TeWorld.step numbers) (ValueWorld.step numbers) (TeWorld.Independent numbers)
      (program (.lvalue 0)) (.start Te.empty) (.start Te.empty) ∧
    ¬ GoodRun (MdWorld.step numbers) (ValueWorld.step numbers) (MdWorld.Independent numbers)
      (program (.lvalue 0)) (.start Md.empty) (.start Te.empty) := by
  refine ⟨⟨_, _, rfl, rfl, rfl, rfl⟩, fun h => ?_, fun h => ?_⟩
  all_goals
    obtain ⟨w, r, hw, hr, hi⟩ := h _ List.prefix_rfl
    cases hw
    cases hr
    have hdraw := hi.draws 1
    cases hdraw

end CsNotes.TypeErasure
