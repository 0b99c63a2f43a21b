import CsNotes.TypeErasure.ManualDispatch
import CsNotes.TypeErasure.SmallBuffer

/-!
# Shapes with other models

What happens to Shapes depends on their models only in that these are copied and
moved. So an operation does the same to Shapes whose models are changed by a map
which respects that, and in particular by the one that forgets their values.
-/
namespace CsNotes.TypeErasure
open Interleaving

variable {Var K V K' V' R R' : Type*}

variable {T : Types K V R} {T' : Types K' V' R'} {f : Model K V → Model K' V'}

/-- A change of models which respects what happens to them. -/
structure Respects (T : Types K V R) (T' : Types K' V' R') (f : Model K V → Model K' V') :
    Prop where
  copy : ∀ m, T'.copyOf (f m) = f (T.copyOf m)
  moved : ∀ m, T'.movedTo (f m) = f (T.movedTo m)
  left : ∀ m, T'.leftOver (f m) = f (T.leftOver m)

def Te.State.map (f : Model K V → Model K' V') (σ : Te.State Var K V) : Te.State Var K' V' :=
  fun v => (σ v).map f

variable {σ : Te.State Var K V} {v : Slot Var}

theorem Te.model_map {B C : Type*} {k : Model K V → Outcome B} {k' : Model K' V' → Outcome C}
    {h : B → C} (hk : ∀ m, k' (f m) = (k m).map h) :
    Te.model (σ.map f) v k' = (Te.model σ v k).map h := by
  unfold Te.model Te.State.map
  cases σ v with
  | none => rfl
  | some m => exact hk m

variable [DecidableEq Var]

theorem Te.State.map_update (o : Option (Model K V)) :
    Te.State.map f (Function.update σ v o) = Function.update (σ.map f) v (o.map f) := by
  funext w
  by_cases hw : w = v
  · subst hw
    simp [Te.State.map]
  · simp [Te.State.map, Function.update_of_ne hw]

theorem Te.construct_map (hf : Respects T T' f) (src : Source Var K V) :
    Te.construct T' (σ.map f) v (src.map f) = (Te.construct T σ v src).map (Te.State.map f) := by
  cases src with
  | fresh k x =>
      refine congrArg Outcome.ok ?_
      rw [Te.State.map_update]
      rfl
  | copy w =>
      refine Te.model_map fun m => congrArg Outcome.ok ?_
      rw [Te.State.map_update, hf.copy]
      rfl
  | move w =>
      refine Te.model_map fun m => congrArg Outcome.ok ?_
      rw [Te.State.map_update, Te.State.map_update, hf.moved, hf.left]
      rfl

theorem Te.destroy_map :
    Te.destroy (σ.map f) v = (Te.destroy σ v).map (Te.State.map f) := by
  refine Te.model_map fun m => congrArg Outcome.ok ?_
  rw [Te.State.map_update]
  rfl

theorem Te.step_map (hf : Respects T T' f) (op : Op Var K V) :
    Te.step T' (op.map f) (σ.map f) = (Te.step T op σ).map (Te.State.map f) := by
  cases op with
  | construct v src =>
      have hv : σ.map f (.var v) = (σ (.var v)).map f := rfl
      simp only [Te.step, Op.map, hv]
      cases σ (.var v) with
      | none => exact Te.construct_map hf src
      | some m => rfl
  | assign v src =>
      refine Te.model_map fun m => ?_
      rw [Te.construct_map hf src]
      cases Te.construct T σ .other src with
      | wait | fault => rfl
      | ok σ' => exact Te.destroy_map
  | swap v w => exact Te.model_map fun m => Te.model_map fun m' => rfl
  | destroy v => exact Te.destroy_map

theorem Te.call_map (hf : Respects T T' f) (o : Call Var K V) :
    Te.call T' (o.map f) (σ.map f) = (Te.call T o σ).map (Te.State.map f) := by
  obtain ⟨op, e⟩ := o
  have hthrow : ∀ src : Source Var K V,
      Te.throwing (σ.map f) (src.map f) = (Te.throwing σ src).map (Te.State.map f) := by
    intro src
    cases src with
    | fresh k x => rfl
    | copy w | move w => exact Te.model_map fun m => rfl
  cases e with
  | none => exact Te.step_map hf op
  | allocation | model =>
      cases op with
      | construct v src =>
          have hv : σ.map f (.var v) = (σ (.var v)).map f := rfl
          simp only [Te.call, Call.map, Op.map, hv]
          cases σ (.var v) with
          | none => exact hthrow src
          | some m => rfl
      | assign v src => exact Te.model_map fun m => hthrow src
      | swap v w => exact Te.step_map hf (.swap v w)
      | destroy v => exact Te.step_map hf (.destroy v)

/-- All that is left of a model is its type. -/
def Model.forget (m : Model K V) : Model K Unit := ⟨m.kind, ()⟩

theorem forget_respects : Respects T ⟨T.size, fun _ _ => (), fun _ _ => (), fun _ _ => (),
    fun _ _ => ()⟩ Model.forget :=
  ⟨fun _ => rfl, fun _ => rfl, fun _ => rfl⟩

end CsNotes.TypeErasure
