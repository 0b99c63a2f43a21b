import CsNotes.TypeErasure.References

/-!
# References to shapes

`te_ref.hpp`: a `ShapeConstRef` does not own a model. It has the addresses of a
shape and of a strategy, and a function that knows the types of both, and is
copied, moved, assigned and swapped as these three. Its constructor takes
lvalues only, of objects which are not const here, and it draws them as if they
were const.

A Shape of `te.hpp` or `te_md.hpp` which is made from two lvalues is one in all but
name: a program without rvalues does the same with either. Its members are
references, so it draws the objects as what they are. It draws what the reference
in its place draws if the strategy does not tell const objects from others.
-/
namespace CsNotes.TypeErasure
open Interleaving Simulation

variable {Var Obj X R : Type*}

structure ConstRef (Obj X R : Type*) where
  shape : Obj
  drawer : Obj
  draw : X → X → R

abbrev ConstRefs (Var Obj X R : Type*) := Var → Option (ConstRef Obj X R)

/-- `std::addressof`, of what a parameter `ShapeT&` can be bound to. -/
def Argument.addressof (s : Objects Obj X) : Argument Obj X → Outcome Obj
  | lvalue a =>
      match s a with
      | none => .wait
      | some _ => .ok a
  | xvalue _ | prvalue _ => .wait

/-- The function which is given to `draw_`, and the two addresses. -/
def Values.constRef (W : Values X R) : Maker (X → X → R) (Obj × Obj) Obj X :=
  fun shape drawer s => (shape.addressof s).bind fun a =>
    (drawer.addressof s).bind fun b => .ok (W.draw, (a, b), s)

namespace ConstRefs

def empty : ConstRefs Var Obj X R := fun _ => none

/-- What a `ShapeConstRef` is made from or assigned. -/
def source (σ : ConstRefs Var Obj X R) :
    Source Var (X → X → R) (Obj × Obj) → Outcome (ConstRef Obj X R)
  | .fresh f p => .ok ⟨p.1, p.2, f⟩
  | .copy w | .move w =>
      match σ w with
      | none => .wait
      | some c => .ok c

variable [DecidableEq Var]

def step : Op Var (X → X → R) (Obj × Obj) → ConstRefs Var Obj X R →
    Outcome (ConstRefs Var Obj X R)
  | .construct v src, σ =>
      match σ v with
      | none => (σ.source src).map fun c => Function.update σ v (some c)
      | some _ => .wait
  | .assign v src, σ =>
      match σ v with
      | none => .wait
      | some _ => (σ.source src).map fun c => Function.update σ v (some c)
  | .swap v w, σ =>
      match σ v, σ w with
      | some _, some _ => .ok (σ ∘ Equiv.swap v w)
      | _, _ => .wait
  | .destroy v, σ =>
      match σ v with
      | none => .wait
      | some _ => .ok (Function.update σ v none)

/-- `draw_(shape_, drawer_)` reads the objects where they are. -/
def draw (σ : ConstRefs Var Obj X R) (v : Var) (s : Objects Obj X) : Outcome R :=
  match σ v with
  | none => .wait
  | some c =>
      match s c.drawer, s c.shape with
      | some drawer, some shape => .ok (c.draw drawer shape)
      | _, _ => .fault

end ConstRefs

abbrev RefWorld (Var Obj X R : Type*) := World (ConstRefs Var Obj X R) Obj X

/-- A program with the references of `te_ref.hpp`. -/
def RefWorld.step [DecidableEq Var] [DecidableEq Obj] (W : Values X R) :
    Act Var Obj X → RefWorld Var Obj X R → Outcome (RefWorld Var Obj X R) :=
  World.step W.constRef ConstRefs.step

/-- The call `drawer(shape)` on two objects of the caller which are not const, by
their names. It may be another overload than the one for const objects, and may
change them. -/
abbrev MutableCall (Obj X R : Type*) := Obj → Obj → Objects Obj X → R × Objects Obj X

/-- It gives what the call on const objects gives, and changes none. -/
def MutableCall.Const (call : MutableCall Obj X R) (W : Values X R) : Prop :=
  ∀ b a s y x, s b = some y → s a = some x → call b a s = (W.draw y x, s)

/-- `drawer_(shape_)` in a Shape which is made from lvalues. What its members are
bound to is not const, though they are members of a const model. A Shape with
members of its own is none of these, and waits. -/
def MutableCall.drawing (call : MutableCall Obj X R) (s : Objects Obj X)
    (m : Model (Deduced × Deduced) (Member Obj X × Member Obj X)) : Outcome (R × Objects Obj X) :=
  match m.value.2, m.value.1 with
  | .reference b, .reference a =>
      match s b, s a with
      | some _, some _ => .ok (call b a s)
      | _, _ => .fault
  | _, _ => .wait

/-- `draw()` of `te.hpp`, and the objects after it. -/
def TeWorld.draw (call : MutableCall Obj X R) (w : TeWorld Var Obj X) (v : Var) :
    Outcome (R × Objects Obj X) :=
  Te.model w.shapes (.var v) (call.drawing w.objects)

def MdWorld.draw (call : MutableCall Obj X R) (w : MdWorld Var Obj X) (v : Var) :
    Outcome (R × Objects Obj X) :=
  w.shapes.apply w.shapes.draw (.var v) fun _ _ m => call.drawing w.objects m

namespace ConstRef

def model (c : ConstRef Obj X R) : Model (X → X → R) (Obj × Obj) := ⟨c.draw, (c.shape, c.drawer)⟩

/-- Bytes are copied and moved as they are. -/
def types : Types (X → X → R) (Obj × Obj) Unit where
  size _ := 0
  copy _ p := p
  moved _ p := p
  movedFrom _ p := p
  draw _ _ := ()

/-- The model of a Shape that is made from the same two lvalues. -/
def bound (m : Model (X → X → R) (Obj × Obj)) :
    Model (Deduced × Deduced) (Member Obj X × Member Obj X) :=
  ⟨(.reference, .reference), (.reference m.value.1, .reference m.value.2)⟩

theorem bound_respects {W : Values X R} :
    Respects (types : Types (X → X → R) (Obj × Obj) Unit) (W.types Obj) bound :=
  ⟨fun _ => rfl, fun _ => rfl, fun _ => rfl⟩

end ConstRef

namespace ConstRefs
variable {σ : ConstRefs Var Obj X R}

/-- The references as Shapes which own them. -/
def models (σ : ConstRefs Var Obj X R) : Te.State Var (X → X → R) (Obj × Obj)
  | .var v => (σ v).map ConstRef.model
  | .other => none

variable [DecidableEq Var]

theorem models_update (v : Var) (o : Option (ConstRef Obj X R)) :
    models (Function.update σ v o) = Function.update σ.models (.var v) (o.map ConstRef.model) := by
  funext w
  cases w with
  | other =>
      rw [Function.update_of_ne (by simp)]
      rfl
  | var w =>
      by_cases hw : w = v
      · subst hw
        simp [models]
      · have hne : Slot.var w ≠ .var v := by simpa using hw
        simp [models, Function.update_of_ne hw, Function.update_of_ne hne]

theorem models_swap (v w : Var) :
    models (σ ∘ Equiv.swap v w) = exchange σ.models (.var v) (.var w) := by
  funext u
  cases u with
  | other =>
      rw [exchange_of_ne _ (by simp) (by simp)]
      rfl
  | var u =>
      by_cases hv : u = v
      · subst hv
        simp [models]
      by_cases hw : u = w
      · subst hw
        simp [models]
      rw [exchange_of_ne _ (by simpa using hv) (by simpa using hw)]
      simp [models, Equiv.swap_apply_of_ne_of_ne hv hw]

theorem construct_models (v : Slot Var) (src : Source Var (X → X → R) (Obj × Obj)) :
    Te.construct ConstRef.types σ.models v src =
      (σ.source src).map fun c => Function.update σ.models v (some c.model) := by
  cases src with
  | fresh f p => rfl
  | copy w =>
      simp only [Te.construct, Te.model, source, models]
      cases σ w <;> rfl
  | move w =>
      simp only [Te.construct, Te.model, source]
      cases hw : σ w with
      | none => simp [models, hw, Outcome.map]
      | some c =>
          have hmodel : σ.models (.var w) = some c.model := by simp [models, hw]
          rw [hmodel]
          change Outcome.ok (Function.update (Function.update σ.models (.var w) (some c.model)) v
            (some c.model)) = _
          rw [← hmodel, Function.update_eq_self, hmodel]
          rfl

theorem assign_models (v : Var) (c : ConstRef Obj X R) (hv : σ v ≠ none) :
    Te.destroy (exchange (Function.update σ.models .other (some c.model)) (.var v) .other) .other =
      .ok (models (Function.update σ v (some c))) := by
  obtain ⟨d, hd⟩ := Option.ne_none_iff_exists'.mp hv
  have hv : σ.models (.var v) = some d.model := by simp [models, hd]
  unfold Te.destroy Te.model
  rw [exchange_right, Function.update_of_ne (by simp), hv]
  refine congrArg Outcome.ok (funext fun u => ?_)
  rw [models_update]
  cases u with
  | other =>
      rw [Function.update_self, Function.update_of_ne (by simp)]
      rfl
  | var w =>
      rw [Function.update_of_ne (by simp)]
      by_cases hw : w = v
      · subst hw
        simp
      · have hne : Slot.var w ≠ .var v := by simpa using hw
        rw [exchange_of_ne _ hne (by simp), Function.update_of_ne (by simp),
          Function.update_of_ne hne]

theorem step_models (op : Op Var (X → X → R) (Obj × Obj)) :
    Te.step ConstRef.types op σ.models = (step op σ).map models := by
  cases op with
  | construct v src =>
      have hv : σ.models (.var v) = (σ v).map ConstRef.model := rfl
      simp only [Te.step, step, hv]
      cases σ v with
      | some c => rfl
      | none =>
          change Te.construct _ _ _ _ = _
          rw [construct_models]
          cases σ.source src with
          | wait | fault => rfl
          | ok c => exact congrArg Outcome.ok (models_update v (some c)).symm
  | assign v src =>
      have hv : σ.models (.var v) = (σ v).map ConstRef.model := rfl
      simp only [Te.step, step, Te.model, hv]
      cases h : σ v with
      | none => rfl
      | some d =>
          change (Te.construct _ _ _ _).bind _ = _
          rw [construct_models]
          cases σ.source src with
          | wait | fault => rfl
          | ok c => exact assign_models v c (by simp [h])
  | swap v w =>
      have hv : σ.models (.var v) = (σ v).map ConstRef.model := rfl
      have hw : σ.models (.var w) = (σ w).map ConstRef.model := rfl
      simp only [Te.step, step, Te.model, hv, hw]
      cases σ v with
      | none => rfl
      | some c =>
          cases σ w with
          | none => rfl
          | some d => exact congrArg Outcome.ok (models_swap v w).symm
  | destroy v =>
      have hv : σ.models (.var v) = (σ v).map ConstRef.model := rfl
      simp only [Te.step, step, Te.destroy, Te.model, hv]
      cases σ v with
      | none => rfl
      | some c => exact congrArg Outcome.ok (models_update v none).symm

end ConstRefs

variable {W : Values X R}

/-- Both arguments are lvalues, or there are none. -/
def Origin.Lvalues : Origin Var Obj X → Prop
  | arguments shape drawer => ¬ shape.Rvalue ∧ ¬ drawer.Rvalue
  | copy _ | move _ => True

def Act.Lvalues : Act Var Obj X → Prop
  | construct _ o | assign _ o => o.Lvalues
  | declare _ _ | mutate _ _ | release _ | swap _ _ | destroy _ => True

/-- References, as the models of Shapes made from the same lvalues. -/
def RefWorld.bound (r : RefWorld Var Obj X R) : TeWorld Var Obj X :=
  ⟨r.shapes.models.map ConstRef.bound, r.objects⟩

theorem Argument.addressof_rvalue {s : Objects Obj X} {arg : Argument Obj X} (h : arg.Rvalue) :
    arg.addressof s = .wait := by
  cases arg with
  | lvalue a => exact h.elim
  | xvalue a | prvalue x => rfl

theorem Origin.source_not_lvalues {o : Origin Var Obj X} (h : ¬ o.Lvalues) (s : Objects Obj X) :
    o.source W.constRef s = .wait := by
  cases o with
  | copy w | move w => exact (h trivial).elim
  | arguments shape drawer =>
      have hwait : W.constRef shape drawer s = .wait := by
        unfold Values.constRef
        by_cases hs : shape.Rvalue
        · rw [Argument.addressof_rvalue hs]
          rfl
        · have hd : drawer.Rvalue := by
            by_contra hd
            exact h ⟨hs, hd⟩
          rw [Argument.addressof_rvalue hd]
          cases shape with
          | xvalue a | prvalue x => rfl
          | lvalue a =>
              simp only [Argument.addressof]
              cases s a <;> rfl
      simp only [Origin.source, hwait]
      rfl

variable [DecidableEq Obj]

theorem Argument.initMember_addressof {s : Objects Obj X} {arg : Argument Obj X}
    (h : ¬ arg.Rvalue) :
    arg.initMember W s = (arg.addressof s).map fun a => (.reference a, s) := by
  cases arg with
  | lvalue a =>
      change Referent.init W s .reference (.object a) = _
      simp only [Referent.init, Argument.addressof]
      cases s a <;> rfl
  | xvalue a | prvalue x => exact (h trivial).elim

omit [DecidableEq Obj] in
theorem Argument.deduce_lvalue {arg : Argument Obj X} (h : ¬ arg.Rvalue) :
    arg.deduce = .reference := by
  cases arg with
  | lvalue a => rfl
  | xvalue a | prvalue x => exact (h trivial).elim

theorem Origin.source_lvalues {o : Origin Var Obj X} (h : o.Lvalues) (s : Objects Obj X) :
    o.source W.owningModel s =
      (o.source W.constRef s).map fun p => (p.1.map ConstRef.bound, p.2) := by
  cases o with
  | copy w | move w => rfl
  | arguments shape drawer =>
      obtain ⟨hs, hd⟩ := h
      simp only [Origin.source, Values.owningModel, Values.constRef,
        Argument.initMember_addressof hs, Argument.deduce_lvalue hs, Argument.deduce_lvalue hd]
      cases shape.addressof s with
      | wait | fault => rfl
      | ok a =>
          simp only [Outcome.map, Outcome.bind, Argument.initMember_addressof hd]
          cases drawer.addressof s <;> rfl

variable [DecidableEq Var]

omit [DecidableEq Obj] in
theorem RefWorld.perform_bound (op : Op Var (X → X → R) (Obj × Obj)) (σ : ConstRefs Var Obj X R)
    (s : Objects Obj X) :
    ((Te.step (W.types Obj) (op.map ConstRef.bound) (σ.models.map ConstRef.bound)).map
      fun σ => (⟨σ, s⟩ : World _ _ _)) =
      ((ConstRefs.step op σ).map fun σ => ⟨σ, s⟩).map RefWorld.bound := by
  rw [Te.step_map ConstRef.bound_respects, ConstRefs.step_models]
  cases ConstRefs.step op σ <;> rfl

theorem RefWorld.make_bound {o : Origin Var Obj X} {r : RefWorld Var Obj X R} (h : o.Lvalues)
    (f : Source Var (Deduced × Deduced) (Member Obj X × Member Obj X) → Op Var _ _)
    (f' : Source Var (X → X → R) (Obj × Obj) → Op Var (X → X → R) (Obj × Obj))
    (hf : ∀ src, f (src.map ConstRef.bound) = (f' src).map ConstRef.bound) :
    ((o.source W.owningModel r.objects).bind fun (src, s) =>
      (Te.step (W.types Obj) (f src) r.bound.shapes).map fun σ => (⟨σ, s⟩ : World _ _ _)) =
    ((o.source W.constRef r.objects).bind fun (src, s) =>
      (ConstRefs.step (f' src) r.shapes).map fun σ => ⟨σ, s⟩).map RefWorld.bound := by
  rw [Origin.source_lvalues h]
  cases o.source W.constRef r.objects with
  | wait | fault => rfl
  | ok p =>
      simp only [Outcome.map, Outcome.bind, hf]
      exact RefWorld.perform_bound (f' p.1) r.shapes p.2

theorem RefWorld.step_lvalues {act : Act Var Obj X} (h : act.Lvalues) (r : RefWorld Var Obj X R) :
    TeWorld.step W act r.bound = (RefWorld.step W act r).map RefWorld.bound := by
  cases act with
  | declare a x | mutate a x | release a =>
      simp only [TeWorld.step, RefWorld.step, World.step, RefWorld.bound]
      cases r.objects a <;> rfl
  | construct v o => exact RefWorld.make_bound h (Op.construct v) (Op.construct v) fun _ => rfl
  | assign v o => exact RefWorld.make_bound h (Op.assign v) (Op.assign v) fun _ => rfl
  | swap v w => exact RefWorld.perform_bound (Op.swap v w) r.shapes r.objects
  | destroy v => exact RefWorld.perform_bound (Op.destroy v) r.shapes r.objects

theorem RefWorld.step_not_lvalues {act : Act Var Obj X} (h : ¬ act.Lvalues)
    (r : RefWorld Var Obj X R) : RefWorld.step W act r = .wait := by
  cases act with
  | construct v o | assign v o =>
      simp only [RefWorld.step, World.step, Origin.source_not_lvalues h]
      rfl
  | declare a x | mutate a x | release a | swap v w | destroy v => exact (h trivial).elim

/-- The function of each reference is the one that draws. -/
def ConstRefs.Draws (W : Values X R) (σ : ConstRefs Var Obj X R) : Prop :=
  ∀ v c, σ v = some c → c.draw = W.draw

omit [DecidableEq Obj] [DecidableEq Var] in
theorem Origin.source_draws {o : Origin Var Obj X} {s t : Objects Obj X}
    {src : Source Var (X → X → R) (Obj × Obj)} {σ : ConstRefs Var Obj X R} {c : ConstRef Obj X R}
    (hσ : σ.Draws W) (ho : o.source W.constRef s = .ok (src, t)) (hc : σ.source src = .ok c) :
    c.draw = W.draw := by
  cases o with
  | arguments shape drawer =>
      obtain ⟨p, hp, heq⟩ := Outcome.map_eq_ok.mp ho
      obtain ⟨a, -, hp⟩ := Outcome.bind_eq_ok.mp hp
      obtain ⟨b, -, hp⟩ := Outcome.bind_eq_ok.mp hp
      cases hp
      cases heq
      cases hc
      rfl
  | copy w | move w =>
      cases ho
      simp only [ConstRefs.source] at hc
      split at hc
      · cases hc
      · cases hc
        exact hσ w c (by assumption)

omit [DecidableEq Obj] in
theorem ConstRefs.Draws.update {σ : ConstRefs Var Obj X R} {o : Option (ConstRef Obj X R)}
    (hσ : σ.Draws W) (ho : ∀ c, o = some c → c.draw = W.draw) (v : Var) :
    Draws W (Function.update σ v o) := by
  intro u c hu
  by_cases huv : u = v
  · subst huv
    rw [Function.update_self] at hu
    exact ho c hu
  · rw [Function.update_of_ne huv] at hu
    exact hσ u c hu

theorem RefWorld.step_draws {act : Act Var Obj X} {r r' : RefWorld Var Obj X R}
    (hr : r.shapes.Draws W) (h : RefWorld.step W act r = .ok r') : r'.shapes.Draws W := by
  cases act with
  | declare a x | mutate a x | release a =>
      simp only [RefWorld.step, World.step] at h
      split at h
      all_goals cases h
      exact hr
  | construct v o =>
      obtain ⟨⟨src, s⟩, ho, h⟩ := Outcome.bind_eq_ok.mp h
      obtain ⟨σ, hσ, rfl⟩ := Outcome.map_eq_ok.mp h
      simp only [ConstRefs.step] at hσ
      split at hσ
      · obtain ⟨c, hc, rfl⟩ := Outcome.map_eq_ok.mp hσ
        exact hr.update (fun d hd => Option.some.inj hd ▸ Origin.source_draws hr ho hc) v
      · cases hσ
  | assign v o =>
      obtain ⟨⟨src, s⟩, ho, h⟩ := Outcome.bind_eq_ok.mp h
      obtain ⟨σ, hσ, rfl⟩ := Outcome.map_eq_ok.mp h
      simp only [ConstRefs.step] at hσ
      split at hσ
      · cases hσ
      · obtain ⟨c, hc, rfl⟩ := Outcome.map_eq_ok.mp hσ
        exact hr.update (fun d hd => Option.some.inj hd ▸ Origin.source_draws hr ho hc) v
  | swap v w =>
      obtain ⟨σ, hσ, rfl⟩ := Outcome.map_eq_ok.mp h
      simp only [ConstRefs.step] at hσ
      split at hσ
      · cases hσ
        exact fun u c hu => hr _ c hu
      · cases hσ
  | destroy v =>
      obtain ⟨σ, hσ, rfl⟩ := Outcome.map_eq_ok.mp h
      simp only [ConstRefs.step] at hσ
      split at hσ
      · cases hσ
      · cases hσ
        exact hr.update (fun c hc => by cases hc) v

omit [DecidableEq Obj] [DecidableEq Var] in
theorem RefWorld.draw_bound {call : MutableCall Obj X R} (hcall : call.Const W)
    {r : RefWorld Var Obj X R} (hr : r.shapes.Draws W) (v : Var) :
    r.bound.draw call v = (r.shapes.draw v r.objects).map fun x => (x, r.objects) := by
  simp only [TeWorld.draw, Te.model, RefWorld.bound, Te.State.map, ConstRefs.models, ConstRefs.draw]
  cases h : r.shapes v with
  | none => rfl
  | some c =>
      simp only [Option.map_some, MutableCall.drawing, ConstRef.bound, ConstRef.model]
      cases hb : r.objects c.drawer with
      | none => rfl
      | some y =>
          cases ha : r.objects c.shape with
          | none => rfl
          | some x =>
              refine congrArg Outcome.ok ?_
              rw [hcall c.drawer c.shape r.objects y x hb ha, hr v c h]

omit [DecidableEq Obj] [DecidableEq Var] in
theorem MdWorld.draw_eq {call : MutableCall Obj X R} {u : MdWorld Var Obj X} {w : TeWorld Var Obj X}
    (h : u.shapes.Rel w.shapes) (hobj : u.objects = w.objects) (v : Var) :
    u.draw call v = w.draw call v := by
  unfold MdWorld.draw TeWorld.draw
  cases hv : w.shapes (.var v) with
  | none => exact (Md.apply_dead (h.1.dead hv)).trans (Te.model_dead hv).symm
  | some m =>
      obtain ⟨i, hb, hh, hf⟩ := h.1.live hv
      rw [Md.apply_eq hb hh hf.draw, Te.model_eq hv, hobj]

theorem RefWorld.run_lvalues {acts : List (Act Var Obj X)} (h : ∀ act ∈ acts, act.Lvalues)
    (r : RefWorld Var Obj X R) :
    run (TeWorld.step W) acts r.bound = (run (RefWorld.step W) acts r).map RefWorld.bound := by
  induction acts generalizing r with
  | nil => rfl
  | cons act acts ih =>
      obtain ⟨hact, hacts⟩ := List.forall_mem_cons.mp h
      change (TeWorld.step W act r.bound).bind _ = ((RefWorld.step W act r).bind _).map _
      rw [RefWorld.step_lvalues hact]
      cases RefWorld.step W act r with
      | wait | fault => rfl
      | ok r₁ => exact ih hacts r₁

/-- Programs with references are those in which every Shape is made from lvalues. -/
theorem RefWorld.lvalues_of_run {acts : List (Act Var Obj X)} {r r' : RefWorld Var Obj X R}
    (h : run (RefWorld.step W) acts r = .ok r') : ∀ act ∈ acts, act.Lvalues := by
  induction acts generalizing r with
  | nil => exact fun act hact => absurd hact List.not_mem_nil
  | cons act acts ih =>
      obtain ⟨r₁, h₁, h⟩ := Outcome.bind_eq_ok.mp h
      refine List.forall_mem_cons.mpr ⟨?_, ih h⟩
      by_contra hact
      rw [RefWorld.step_not_lvalues hact] at h₁
      cases h₁

omit [DecidableEq Obj] [DecidableEq Var] in
theorem RefWorld.start_bound :
    RefWorld.bound (.start ConstRefs.empty : RefWorld Var Obj X R) = .start Te.empty := by
  refine congrArg (fun σ => (⟨σ, fun _ => none⟩ : TeWorld Var Obj X)) (funext fun v => ?_)
  cases v <;> rfl

/-- The programs with references are the programs with Shapes which are made from
lvalues, and what they draw is the same, be it a fault. -/
theorem const_refs_agree_with_shapes (W : Values X R) {call : MutableCall Obj X R}
    (hcall : call.Const W) (acts : List (Act Var Obj X)) :
    ((∃ r, run (RefWorld.step W) acts (.start ConstRefs.empty) = .ok r) ↔
      (∃ w, run (TeWorld.step W) acts (.start Te.empty) = .ok w) ∧ ∀ act ∈ acts, act.Lvalues) ∧
    ∀ r, run (RefWorld.step W) acts (.start ConstRefs.empty) = .ok r →
      ∃ w u, run (TeWorld.step W) acts (.start Te.empty) = .ok w ∧
        run (MdWorld.step W) acts (.start Md.empty) = .ok u ∧
        w.objects = r.objects ∧ u.objects = r.objects ∧
        ∀ v, w.draw call v = (r.shapes.draw v r.objects).map (fun x => (x, r.objects)) ∧
          u.draw call v = (r.shapes.draw v r.objects).map (fun x => (x, r.objects)) := by
  have hte : ∀ r, run (RefWorld.step W) acts (.start ConstRefs.empty) = .ok r →
      run (TeWorld.step W) acts (.start Te.empty) = .ok r.bound := by
    intro r hr
    have hrun := RefWorld.run_lvalues (W := W) (RefWorld.lvalues_of_run hr)
      (.start ConstRefs.empty : RefWorld Var Obj X R)
    rw [RefWorld.start_bound, hr] at hrun
    exact hrun
  constructor
  · constructor
    · exact fun ⟨r, hr⟩ => ⟨⟨_, hte r hr⟩, RefWorld.lvalues_of_run hr⟩
    · intro ⟨⟨w, hw⟩, hacts⟩
      rw [← RefWorld.start_bound, RefWorld.run_lvalues hacts] at hw
      obtain ⟨r, hr, -⟩ := Outcome.map_eq_ok.mp hw
      exact ⟨r, hr⟩
  · intro r hr
    let inv (r : RefWorld Var Obj X R) : Prop := r.shapes.Draws W
    have hstart : inv (.start ConstRefs.empty) := by
      intro v c hc
      cases hc
    have hdraws : inv r := run_invariant hstart (fun r act r' h hr' => RefWorld.step_draws h hr') hr
    have hw := hte r hr
    let md : MdWorld Var Obj X := .start Md.empty
    let te : TeWorld Var Obj X := .start Te.empty
    have hempty : md.shapes.Rel te.shapes ∧ md.objects = te.objects := ⟨Md.rel_empty, rfl⟩
    rcases (MdWorld.agrees (W := W)).run acts hempty with
      ⟨u, w, hu, hw', hrel, hobj⟩ | ⟨-, hwait⟩
    · cases hw.symm.trans hw'
      refine ⟨_, u, hw, hu, rfl, hobj, fun v => ?_⟩
      have hdraw := RefWorld.draw_bound hcall hdraws v
      exact ⟨hdraw, (MdWorld.draw_eq hrel hobj v).trans hdraw⟩
    · cases hw.symm.trans hwait

/-- The sum of two numbers is drawn, which are not changed. -/
def sum : MutableCall ℕ ℕ ℕ := fun b a s => ((s b).getD 0 + (s a).getD 0, s)

theorem sum_const : sum.Const numbers := by
  intro b a s y x hb ha
  simp [sum, numbers, hb, ha]

/-- A Shape is made from two objects, of which one is changed then. -/
def borrowed : List (Act ℕ ℕ ℕ) :=
  [.declare 0 1, .declare 1 2, .construct 0 (.arguments (.lvalue 0) (.lvalue 1)), .mutate 0 3]

theorem const_refs_agree_with_shapes_borrowed :
    ∃ w u, run (TeWorld.step numbers) borrowed (.start Te.empty) = .ok w ∧
      run (MdWorld.step numbers) borrowed (.start Md.empty) = .ok u ∧
      w.draw sum 0 = .ok (5, w.objects) ∧ u.draw sum 0 = .ok (5, u.objects) := by
  obtain ⟨w, u, hw, hu, hwo, huo, hdraw⟩ :=
    (const_refs_agree_with_shapes numbers sum_const borrowed).2 _ rfl
  refine ⟨w, u, hw, hu, ?_, ?_⟩
  · rw [hwo]
    exact (hdraw 0).1
  · rw [huo]
    exact (hdraw 0).2

end CsNotes.TypeErasure
