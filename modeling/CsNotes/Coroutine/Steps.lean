import CsNotes.Coroutine.Model

/-!
# What one activation does

With the awaiters of `task.hpp` a frame is suspended in one of four ways: before
its body, in `g` above another frame, in a leaf until an event, or done. For each
one lemma says what `resume()` does up to the handle that it resumes in turn,
and one what `destroy()` does. Every state inside an activation is written as one
with the frame at work put in place and with a list of events noted.
-/
namespace CsNotes.Coroutine
open Interleaving Calls

namespace Frame

def fresh (c : Coro) (x v : ℤ) (h : Option Hdl) : Frame where
  code := c
  x := x
  suspended := true
  waits := c.suspensions
  continuation := h
  result := v
  live := [.promise, .tmp1]

/-- `g` suspended at suspend point 1, above frame `j`. -/
def waiting (f : Coro) (x v : ℤ) (j : ℕ) (h : Option Hdl) : Frame where
  code := .g f
  x := x
  suspendPoint := 1
  suspended := true
  waits := 0
  continuation := h
  result := v
  tmp2 := some j
  tmp3 := some j
  live := [.promise, .tmp2, .tmp3]

/-- Past its suspend point, at work again. -/
def woken (f : Coro) (x v : ℤ) (j : ℕ) (h : Option Hdl) : Frame :=
  { waiting f x v j h with suspended := false, live := [.promise] }

/-- A leaf which waits for an event. -/
def blocked (c : Coro) (x v : ℤ) (w : ℕ) (h : Option Hdl) : Frame where
  code := c
  x := x
  suspendPoint := 1
  suspended := true
  waits := w
  continuation := h
  result := v
  live := [.promise]

def finish (a : Frame) (v : ℤ) : Frame :=
  { a with
    suspendPoint := 2
    suspended := true
    resume := false
    result := v
    live := [.promise, .tmp4] }

end Frame

def State.notes (s : State) (l : List Event) : State := { s with log := s.log ++ l }

namespace State
variable {s : State} {i j : ℕ} {a b : Frame} {o : Obj} {l l' : List Event}

theorem notes_notes : (s.notes l).notes l' = s.notes (l ++ l') := by
  unfold notes
  simp

@[simp] theorem allocs_setFrame : (s.setFrame i a).allocs = s.allocs := rfl

@[simp] theorem notes_nil : s.notes [] = s := by
  unfold notes
  rw [List.append_nil]

theorem note_notes (e : Event) : (s.notes l).note e = s.notes (l ++ [e]) := notes_notes

theorem setFrame_setFrame : (s.setFrame i a).setFrame i b = s.setFrame i b := by
  unfold setFrame
  simp

theorem setFrame_comm (h : i ≠ j) :
    (s.setFrame i a).setFrame j b = (s.setFrame j b).setFrame i a := by
  unfold setFrame
  simp [Function.update_comm h]

theorem frame_eq : ((s.setFrame i a).notes l).frame i = .ok a := by
  unfold frame setFrame notes
  simp

theorem get_eq (ho : o ∈ a.live) : ((s.setFrame i a).notes l).get i o = .ok a := by
  unfold get
  rw [frame_eq, Outcome.ok_bind, if_pos ho]

theorem modify_eq (f : Frame → Frame) :
    ((s.setFrame i a).notes l).modify i f = .ok ((s.setFrame i (f a)).notes l) := by
  unfold modify
  rw [frame_eq, Outcome.ok_bind]
  exact congrArg (fun t => Outcome.ok (t.notes l)) setFrame_setFrame

theorem suspend_eq (p : ℕ) :
    ((s.setFrame i a).notes l).suspend i p =
      .ok ((s.setFrame i { a with suspendPoint := p, suspended := true }).notes l) :=
  modify_eq _

theorem note_setFrame (e : Event) :
    (((s.setFrame i a).notes l).setFrame i b).note e = (s.setFrame i b).notes (l ++ [e]) := by
  rw [← notes_notes]
  exact congrArg (fun t => (t.notes l).notes [e]) setFrame_setFrame

theorem construct_eq (f : Frame → Frame) (ho : a.live.any o.overlaps = false) :
    ((s.setFrame i a).notes l).construct i o f =
      .ok ((s.setFrame i (f { a with live := a.live ++ [o] })).notes (l ++ [.construct i o])) := by
  unfold construct
  rw [frame_eq, Outcome.ok_bind, ho, ← note_setFrame (a := a)]
  rfl

theorem destruct_eq (ho : o ∈ a.live) :
    ((s.setFrame i a).notes l).destruct i o =
      .ok ((s.setFrame i { a with live := a.live.erase o }).notes (l ++ [.destroy i o])) := by
  unfold destruct
  rw [get_eq ho, Outcome.ok_bind, note_setFrame]

end State

variable {junk : ℕ → ℤ} {r : Meaning Call State} {s : State} {i j : ℕ} {l : List Event}
variable {c f : Coro} {x v : ℤ} {h : Option Hdl}

theorem not_initial : ¬ (taskReady i).initial := nofun

theorem not_task : ¬ (taskReady i).task := nofun

theorem not_final : ¬ (taskReady i).final := nofun

theorem initialAwait_eq {a : Frame} :
    initialAwait taskReady r i ((s.setFrame i a).notes l) =
      .ok ((s.setFrame i { a with suspended := true }).notes l) := by
  unfold initialAwait
  rw [if_neg not_initial, State.modify_eq]
  rfl

theorem ramp_start {ready : ℕ → Ready} :
    ramp ready junk r c x (s.notes l) = (do
      let t ← initialAwait ready r s.allocs
        (({ s with allocs := s.allocs + 1 }.setFrame s.allocs
          { Frame.fresh c x (junk s.allocs) none with suspended := false }).notes
            (l ++ [Event.construct s.allocs .promise, .construct s.allocs .tmp1]))
      .ok (t, some s.allocs)) := by
  let t : State := { s with allocs := s.allocs + 1 }
  let a : Frame := { code := c, x := x, waits := c.suspensions, result := junk s.allocs }
  unfold ramp
  change ((t.setFrame s.allocs a).notes l).construct s.allocs .promise >>= _ = _
  rw [State.construct_eq _ rfl, Outcome.ok_bind]
  change State.construct _ s.allocs .tmp1 >>= _ = _
  rw [State.construct_eq _ rfl, Outcome.ok_bind, List.append_assoc]
  rfl

theorem ramp_eq :
    ramp taskReady junk r c x (s.notes l) =
      .ok (({ s with allocs := s.allocs + 1 }.setFrame s.allocs
        (.fresh c x (junk s.allocs) none)).notes
          (l ++ [Event.construct s.allocs .promise, .construct s.allocs .tmp1]),
        some s.allocs) := by
  rw [ramp_start, initialAwait_eq, Outcome.ok_bind]
  rfl

theorem finalSuspend_eq {a : Frame} (ha : a.live = [.promise]) :
    finalSuspend taskReady r i ((s.setFrame i a).notes l) =
      r (.resume a.continuation)
        ((s.setFrame i (a.finish a.result)).notes (l ++ [.construct i .tmp4])) := by
  unfold finalSuspend
  rw [State.construct_eq _ (by rw [ha]; rfl), Outcome.ok_bind, if_neg not_final,
    State.suspend_eq, Outcome.ok_bind, State.modify_eq, Outcome.ok_bind]
  unfold execAwaitSuspend finalSuspendHdl
  rw [State.get_eq (by simp [ha]), Outcome.ok_bind, Outcome.ok_bind]
  simp only [id, ha]
  rfl

theorem returnValue_eq {a : Frame} (ha : .promise ∈ a.live) :
    returnValue i v ((s.setFrame i a).notes l) =
      .ok ((s.setFrame i { a with result := v }).notes l) := by
  unfold returnValue
  rw [State.get_eq ha, Outcome.ok_bind, State.modify_eq]

theorem body_resume {a : Frame} (hs : a.suspended) (hr : a.resume) :
    body taskReady junk r (.resume (some (.frame i))) ((s.setFrame i a).notes l) =
      match a.code with
      | .leaf _ value => leafResume taskReady r value i
          ((s.setFrame i { a with suspended := false }).notes (l ++ [.resume (.frame i)]))
      | .g f => gResume taskReady junk r f i
          ((s.setFrame i { a with suspended := false }).notes (l ++ [.resume (.frame i)])) := by
  unfold body runFrame
  change State.frame _ i >>= _ = _
  rw [State.frame_eq, Outcome.ok_bind, if_pos hs, State.note_notes, State.frame_eq,
    Outcome.ok_bind, if_pos hr, State.modify_eq]
  rfl

/-- A leaf without a temporary waits for the next event or returns. -/
theorem leafBody_eq {a : Frame} {value : ℤ → ℤ} (ha : a.live = [.promise]) :
    leafBody taskReady r value i ((s.setFrame i a).notes l) =
      match a.waits with
      | 0 => r (.resume a.continuation)
          ((s.setFrame i (a.finish (value a.x))).notes (l ++ [.construct i .tmp4]))
      | w + 1 => .ok ((s.setFrame i { a with
          waits := w, suspendPoint := 1, suspended := true }).notes l) := by
  unfold leafBody
  rw [State.frame_eq, Outcome.ok_bind]
  cases a.waits with
  | zero =>
      change returnValue i _ _ >>= _ = _
      rw [returnValue_eq (by simp [ha]), Outcome.ok_bind, finalSuspend_eq (by exact ha)]
      rfl
  | succ w =>
      change State.modify _ i _ >>= _ = _
      rw [State.modify_eq, Outcome.ok_bind, State.suspend_eq]

/-- The awaited frame remembers its continuation and is resumed. -/
theorem execAwaitSuspend_eq {a : Frame} {k : Hdl} (ha : .promise ∈ a.live) :
    execAwaitSuspend r (awaiterSuspend (some j) k) k ((s.setFrame j a).notes l) =
      r (.resume (some (.frame j))) ((s.setFrame j { a with continuation := some k }).notes l) := by
  unfold execAwaitSuspend awaiterSuspend
  change (State.get _ j .promise >>= _) >>= _ = _
  rw [State.get_eq ha, Outcome.ok_bind, State.modify_eq]
  rfl

theorem awaiterResume_eq {a : Frame} {k : Hdl} (ha : .promise ∈ a.live) :
    awaiterResume (some j) k ((s.setFrame j a).notes l) =
      .ok ((s.setFrame j a).notes (l ++ [.read k j]), a.result) := by
  unfold awaiterResume
  change State.get _ j .promise >>= _ = _
  rw [State.get_eq ha, Outcome.ok_bind, State.note_notes]

theorem destroyTmp2_eq {a : Frame} (ha : .tmp2 ∈ a.live) (hj : a.tmp2 = some j) :
    destroyTmp2 r i ((s.setFrame i a).notes l) =
      r (.destroy j)
        ((s.setFrame i { a with live := a.live.erase .tmp2 }).notes (l ++ [.destroy i .tmp2])) := by
  unfold destroyTmp2
  rw [State.get_eq ha, Outcome.ok_bind, State.destruct_eq ha, Outcome.ok_bind, hj]
  rfl

theorem resume_leaf {k : ℕ} {value : ℤ → ℤ} :
    body taskReady junk r (.resume (some (.frame i)))
        ((s.setFrame i (.fresh (.leaf k value) x v h)).notes l) =
      match k with
      | 0 => r (.resume h)
          ((s.setFrame i ((Frame.fresh (.leaf k value) x v h).finish (value x))).notes
            (l ++ [.resume (.frame i), .destroy i .tmp1, .construct i .tmp4]))
      | w + 1 => .ok ((s.setFrame i (.blocked (.leaf k value) x v w h)).notes
          (l ++ [.resume (.frame i), .destroy i .tmp1])) := by
  rw [body_resume rfl rfl]
  change leafResume taskReady r value i _ = _
  unfold leafResume
  rw [State.frame_eq, Outcome.ok_bind]
  change State.destruct _ i .tmp1 >>= _ = _
  rw [State.destruct_eq (by simp [Frame.fresh]), Outcome.ok_bind, leafBody_eq (by rfl)]
  cases k with
  | zero => simp [Frame.fresh, Coro.suspensions, Frame.finish]
  | succ w => simp [Frame.fresh, Coro.suspensions, Frame.blocked]

theorem resume_blocked {k w : ℕ} {value : ℤ → ℤ} :
    body taskReady junk r (.resume (some (.frame i)))
        ((s.setFrame i (.blocked (.leaf k value) x v w h)).notes l) =
      match w with
      | 0 => r (.resume h)
          ((s.setFrame i ((Frame.blocked (.leaf k value) x v 0 h).finish (value x))).notes
            (l ++ [.resume (.frame i), .construct i .tmp4]))
      | w + 1 => .ok ((s.setFrame i (.blocked (.leaf k value) x v w h)).notes
          (l ++ [.resume (.frame i)])) := by
  rw [body_resume rfl rfl]
  change leafResume taskReady r value i _ = _
  unfold leafResume
  rw [State.frame_eq, Outcome.ok_bind]
  change leafBody taskReady r value i _ = _
  rw [leafBody_eq (by rfl)]
  cases w with
  | zero => simp [Frame.blocked, Frame.finish]
  | succ w => simp [Frame.blocked]

/-- `g` runs up to its suspend point, and the coroutine it awaits is started. -/
theorem resume_g (hj : s.allocs = j) (hi : i ≠ j) :
    body taskReady junk r (.resume (some (.frame i)))
        ((s.setFrame i (.fresh (.g f) x v h)).notes l) =
      r (.resume (some (.frame j)))
        ((({ s with allocs := j + 1 }.setFrame i (.waiting f x v j h)).setFrame
          j (.fresh f x (junk j) (some (.frame i)))).notes
            (l ++ [Event.resume (.frame i), .destroy i .tmp1, .construct j .promise,
              .construct j .tmp1, .construct i .tmp2, .construct i .tmp3])) := by
  subst hj
  rw [body_resume rfl rfl]
  change gResume taskReady junk r f i _ = _
  unfold gResume
  rw [State.frame_eq, Outcome.ok_bind]
  change State.destruct _ i .tmp1 >>= _ = _
  rw [State.destruct_eq (by simp [Frame.fresh]), Outcome.ok_bind, ramp_eq, Outcome.ok_bind]
  let t : State := { s with allocs := s.allocs + 1 }
  let b : Frame := .fresh f x (junk s.allocs) none
  let a : Frame := { Frame.fresh (.g f) x v h with suspended := false, live := [.promise] }
  change State.construct (((t.setFrame i a).setFrame s.allocs b).notes _) i .tmp2 _ >>= _ = _
  rw [State.setFrame_comm hi, State.construct_eq _ (by rfl), Outcome.ok_bind,
    State.get_eq (by simp [a]), Outcome.ok_bind, State.construct_eq _ (by rfl), Outcome.ok_bind,
    if_neg not_task, State.suspend_eq, Outcome.ok_bind, State.get_eq (by simp [a]), Outcome.ok_bind,
    State.setFrame_comm hi.symm]
  change execAwaitSuspend r (awaiterSuspend (some s.allocs) _) _ _ = _
  rw [execAwaitSuspend_eq (by simp [b, Frame.fresh])]
  simp [a, b, t, Frame.fresh, Frame.waiting, Coro.suspensions]

theorem destroyTemporaries_fresh :
    destroyTemporaries r (.fresh c x v h) i s = s.destruct i .tmp1 := by
  unfold destroyTemporaries Frame.fresh
  cases c <;> rfl

theorem destroyTemporaries_finish {a : Frame} :
    destroyTemporaries r (a.finish v) i s = s.destruct i .tmp4 := by
  unfold destroyTemporaries Frame.finish
  cases a.code <;> rfl

theorem destroy_done {a : Frame} (hi : s.frames i = none) :
    body taskReady junk r (.destroy i) ((s.setFrame i (a.finish v)).notes l) =
      .ok (s.notes (l ++ [.destroy i .tmp4, .destroy i .promise, .release i])) := by
  change destroyFrame r i _ = _
  unfold destroyFrame
  rw [State.frame_eq, Outcome.ok_bind]
  rw [destroyTemporaries_finish, State.destruct_eq (by simp [Frame.finish]), Outcome.ok_bind,
    State.destruct_eq (by simp [Frame.finish]), Outcome.ok_bind]
  simp [State.note, State.notes, State.setFrame, ← hi]

/-- `g` reads the result of the coroutine it awaited, destroys that one, and
goes on with its continuation. -/
theorem resume_waiting {b : Frame} {y : ℤ} (hi : i ≠ j)
    (hr : r (.destroy j) (((s.setFrame i (.woken f x v j h)).setFrame j (b.finish y)).notes
        (l ++ [.resume (.frame i), .read (.frame i) j, .destroy i .tmp3, .destroy i .tmp2])) =
      .ok ((s.setFrame i (.woken f x v j h)).notes
        (l ++ [.resume (.frame i), .read (.frame i) j, .destroy i .tmp3, .destroy i .tmp2,
          .destroy j .tmp4, .destroy j .promise, .release j]))) :
    body taskReady junk r (.resume (some (.frame i)))
        (((s.setFrame i (.waiting f x v j h)).setFrame j (b.finish y)).notes l) =
      r (.resume h) ((s.setFrame i ((Frame.waiting f x v j h).finish (y * y))).notes
        (l ++ [.resume (.frame i), .read (.frame i) j, .destroy i .tmp3, .destroy i .tmp2,
          .destroy j .tmp4, .destroy j .promise, .release j, .construct i .tmp4])) := by
  rw [State.setFrame_comm hi, body_resume rfl rfl]
  change gResume taskReady junk r f i _ = _
  unfold gResume
  rw [State.frame_eq, Outcome.ok_bind]
  change gReturn taskReady r i _ = _
  unfold gReturn
  rw [State.get_eq (by simp [Frame.waiting]), Outcome.ok_bind, ← State.setFrame_comm hi]
  change awaiterResume (some j) _ _ >>= _ = _
  rw [awaiterResume_eq (by simp [Frame.finish]), Outcome.ok_bind, State.setFrame_comm hi]
  change State.destruct _ i .tmp3 >>= _ = _
  rw [State.destruct_eq (by simp [Frame.waiting]), Outcome.ok_bind,
    destroyTmp2_eq (by simp [Frame.waiting]) rfl, ← State.setFrame_comm hi]
  simp only [List.append_assoc, List.cons_append, List.nil_append]
  change r (.destroy j)
    (((s.setFrame i (.woken f x v j h)).setFrame j (b.finish y)).notes _) >>= _ = _
  rw [hr, Outcome.ok_bind, returnValue_eq (by simp [Frame.woken]), Outcome.ok_bind,
    finalSuspend_eq (by rfl)]
  simp [Frame.woken, Frame.waiting, Frame.finish]

theorem runs_waiting {b : Frame} {y : ℤ} {t : State} (hi : i ≠ j) (hj : s.frames j = none)
    (ht : Runs (body taskReady junk) (fun r => r (.resume h)
      ((s.setFrame i ((Frame.waiting f x v j h).finish (y * y))).notes
        (l ++ [.resume (.frame i), .read (.frame i) j, .destroy i .tmp3, .destroy i .tmp2,
          .destroy j .tmp4, .destroy j .promise, .release j, .construct i .tmp4]))) t) :
    Runs (body taskReady junk) (fun r => r (.resume (some (.frame i)))
      (((s.setFrame i (.waiting f x v j h)).setFrame j (b.finish y)).notes l)) t := by
  have hd : Runs (body taskReady junk)
      (fun r => r (.destroy j) (((s.setFrame i (.woken f x v j h)).setFrame j (b.finish y)).notes
        (l ++ [.resume (.frame i), .read (.frame i) j, .destroy i .tmp3, .destroy i .tmp2])))
      ((s.setFrame i (.woken f x v j h)).notes
        (l ++ [.resume (.frame i), .read (.frame i) j, .destroy i .tmp3, .destroy i .tmp2,
          .destroy j .tmp4, .destroy j .promise, .release j])) := by
    apply Runs.call
    apply Runs.pure
    intro r
    rw [destroy_done ((Function.update_of_ne hi.symm _ _).trans hj), List.append_assoc]
    rfl
  exact .call (hd.via (fun r hr => resume_waiting hi hr) ht)

theorem resume_caller {a : Frame} (hs : s.callers i) (ha : .promise ∈ a.live) :
    body taskReady junk r (.resume (some (.caller i))) ((s.setFrame i a).notes l) =
      .ok (({ s with
        callers := Function.update s.callers i false
        answers := s.answers ++ [(i, a.result)] }.setFrame i a).notes
          (l ++ [Event.resume (.caller i), .read (.caller i) i])) := by
  let t : State := { s with callers := Function.update s.callers i false }
  change callerResume i _ = _
  unfold callerResume
  rw [State.note_notes, if_pos (by exact hs)]
  change awaiterResume (some i) (.caller i) ((t.setFrame i a).notes _) >>= _ = _
  rw [awaiterResume_eq ha, Outcome.ok_bind, List.append_assoc]
  rfl

end CsNotes.Coroutine
