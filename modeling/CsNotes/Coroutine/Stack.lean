import CsNotes.Coroutine.Transfer
import CsNotes.Lib.TailCalls

/-!
# The stack under symmetric transfer

`__g_resume` returns as soon as `__exec_await_suspend` does, so the `resume()` in
the latter is in tail position, and the stack frame can be reused. With that a
chain of any length needs two activations: that of the coroutine at work, and
that of `destroy` for the frame whose result it has read. Without it the
coroutines nest inwards one by one.
-/
namespace CsNotes.Coroutine
open Interleaving Calls

variable {junk : ℕ → ℤ} {n k d : ℕ} {c : Coro} {x : ℤ} {value : ℤ → ℤ}

/-- Frame `d` at the start, with those above it suspended. -/
def entered (junk : ℕ → ℤ) (n : ℕ) (c : Coro) (x : ℤ) (d : ℕ) : State :=
  ((below junk n c x (d + 1) d).setFrame d
    (.fresh (chain (n - d) c) x (junk d) (some (above d)))).notes (started d)

theorem resume_entered (hd : d < n) (r : Meaning Call State) :
    body taskReady junk r (.resume (some (.frame d))) (entered junk n c x d) =
      r (.resume (some (.frame (d + 1)))) (entered junk n c x (d + 1)) := by
  unfold entered
  rw [chain_succ_of_lt hd, resume_g (allocs_below _ _) (by omega), below_allocs]
  rfl

theorem awaitCall_eq (r : Meaning Call State) :
    awaitCall junk r (chain n c) x .init =
      r (.resume (some (.frame 0))) (entered junk n c x 0) := by
  have hr : ramp taskReady junk r (chain n c) x .init =
      .ok (({ State.init with allocs := 1 }.setFrame 0 (.fresh (chain n c) x (junk 0) none)).notes
        (started 0), some 0) := ramp_eq (s := .init) (l := [])
  unfold awaitCall
  rw [hr, Outcome.ok_bind]
  exact execAwaitSuspend_eq (s := below junk n c x 1 0) (by simp [Frame.fresh])

theorem callsWithin_entered {t : State} (e : ℕ) (hd : d + e = n)
    (ht : CallsWithin (body taskReady junk) 2 (.resume (some (.frame n))) (entered junk n c x n)
      t) :
    CallsWithin (body taskReady junk) 2 (.resume (some (.frame d))) (entered junk n c x d) t := by
  induction e generalizing d with
  | zero =>
      obtain rfl : d = n := by omega
      exact ht
  | succ e ih => exact .tail (.of_eq (resume_entered (by omega))) (ih (by omega))

theorem callsWithin_destroy_done (junk : ℕ → ℤ) {s : State} {a : Frame} {i : ℕ} {v : ℤ}
    {l : List Event} (hi : s.frames i = none) :
    CallsWithin (body taskReady junk) 1 (.destroy i) ((s.setFrame i (a.finish v)).notes l)
      (s.notes (l ++ [.destroy i .tmp4, .destroy i .promise, .release i])) :=
  .last (.of_eq fun _ => destroy_done hi)

/-- Once frame `d` is done, every frame above it takes its place in turn. -/
theorem callsWithin_above (junk : ℕ → ℤ) (n : ℕ) (c : Coro) (x : ℤ) (d : ℕ) (a : Frame) (y : ℤ)
    (l : List Event) :
    ∃ b, CallsWithin (body taskReady junk) 2 (.resume (some (above d)))
      (((below junk n c x (n + 1) d).setFrame d (a.finish y)).notes l)
      (answered n b (y ^ 2 ^ d) (l ++ returned d)) := by
  induction d generalizing a y l with
  | zero =>
      refine ⟨a, .last (.of_eq fun r => ?_)⟩
      change body taskReady junk r (.resume (some (.caller 0))) _ = _
      have hc : Function.update State.init.callers 0 false = State.init.callers :=
        Function.update_eq_self 0 State.init.callers
      rw [resume_caller rfl (by simp [Frame.finish])]
      simp only [below, Function.update_idem, hc, answered, pow_zero, pow_one]
      rfl
  | succ d ih =>
      have hy : (y * y) ^ 2 ^ d = y ^ 2 ^ (d + 1) := by
        rw [← pow_two, ← pow_mul, pow_succ' 2 d]
      let f : Coro := chain (n - (d + 1)) c
      let h : Option Hdl := some (above d)
      let s : State := below junk n c x (n + 1) d
      let m : List Event := [.resume (.frame d), .read (.frame d) (d + 1), .destroy d .tmp3,
        .destroy d .tmp2]
      obtain ⟨b, hb⟩ := ih (.waiting f x (junk d) (d + 1) h) (y * y)
        (l ++ (collected d ++ [.construct d .tmp4]))
      rw [hy, List.append_assoc, List.append_assoc] at hb
      have hfree : (s.setFrame d (.woken f x (junk d) (d + 1) h)).frames (d + 1) = none :=
        (Function.update_of_ne (by omega) _ _).trans (frames_below (by omega))
      have hdestroy := callsWithin_destroy_done junk (a := a) (v := y) (l := l ++ m) hfree
      rw [List.append_assoc] at hdestroy
      exact ⟨b, .tail (.via hdestroy fun r hr => resume_waiting (by omega) hr) hb⟩

theorem runsWithin_outside {s t : State} {h : Hdl} {v : ℤ} (w : ℕ) (l : List Event)
    (ht : CallsWithin (body taskReady junk) 2 (.resume (some h))
      ((s.setFrame n ((Frame.blocked (.leaf k value) x v 0 (some h)).finish (value x))).notes
        (l ++ List.replicate (w + 1) (.resume (.frame n)) ++ [.construct n .tmp4])) t) :
    RunsWithin (body taskReady junk) 2 (fun r => outside r (.frame n) (w + 1)
      ((s.setFrame n (.blocked (.leaf k value) x v w (some h))).notes l)) t := by
  induction w generalizing l with
  | zero =>
      rw [List.append_assoc] at ht
      exact .bind (.call (.tail (.of_eq fun r => resume_blocked) ht)) (.of_eq fun r => rfl)
  | succ w ih =>
      refine .bind (.call (.last (.of_eq fun r => resume_blocked))) (ih _ ?_)
      rw [List.append_assoc l]
      exact ht

theorem perform_runsWithin (junk : ℕ → ℤ) (n k : ℕ) (value : ℤ → ℤ) (x : ℤ) :
    ∃ b, RunsWithin (body taskReady junk) 2 (fun r => perform junk r n k value x)
      (answered n b (value x ^ 2 ^ n) (started n ++ [.resume (.frame n), .destroy n .tmp1] ++
        List.replicate k (.resume (.frame n)) ++ [.construct n .tmp4] ++ returned n)) := by
  have hstart : ∀ t : State, CallsWithin (body taskReady junk) 2 (.resume (some (.frame n)))
      (entered junk n (.leaf k value) x n) t →
      RunsWithin (body taskReady junk) 2
        (fun r => awaitCall junk r (chain n (.leaf k value)) x .init) t :=
    fun t ht => .congr awaitCall_eq (.call (callsWithin_entered n (Nat.zero_add n) ht))
  unfold entered at hstart
  rw [Nat.sub_self] at hstart
  obtain ⟨b, hb⟩ := callsWithin_above junk n (.leaf k value) x n
    (.blocked (.leaf k value) x (junk n) 0 (some (above n))) (value x)
    (started n ++ [.resume (.frame n), .destroy n .tmp1] ++
      List.replicate k (.resume (.frame n)) ++ [.construct n .tmp4])
  refine ⟨b, ?_⟩
  cases k with
  | zero =>
      refine .bind (hstart _ (.tail (.of_eq fun r => resume_leaf) ?_)) (.of_eq fun r => rfl)
      simp only [List.replicate_zero, List.append_nil, List.append_assoc] at hb ⊢
      exact hb
  | succ k =>
      exact .bind (hstart _ (.last (.of_eq fun r => resume_leaf))) (runsWithin_outside k _ hb)

/-- A chain of any length gives its answer with two activations on the stack, where calls in
tail position take the place of their callers. With ordinary calls it has the same result,
but not until as many activations can nest as there are coroutines to go through. -/
theorem symmetric_transfer_constant_stack (junk : ℕ → ℤ) (n k : ℕ) (value : ℤ → ℤ) (x : ℤ) :
    ∃ s, RunsWithin (body taskReady junk) 2 (fun r => perform junk r n k value x) s ∧
      Runs (body taskReady junk) (fun r => perform junk r n k value x) s ∧
      s.answers = [(0, direct (chain n (.leaf k value)) x)] ∧
      ∀ d, d ≤ n → perform junk (call (body taskReady junk) d) n k value x = .wait := by
  obtain ⟨b, hb⟩ := perform_runsWithin junk n k value x
  refine ⟨_, hb, hb.runs, ?_, fun d hd => ?_⟩
  · rw [direct_chain]
    rfl
  · have hwait : call (body taskReady junk) d (.resume (some (.frame 0)))
        (entered junk n (.leaf k value) x 0) = .wait :=
      call_eq_wait (q := fun i => .resume (some (.frame i))) (fun i hi r => resume_entered hi r)
        (by omega)
    unfold perform
    rw [awaitCall_eq, hwait]
    rfl

end CsNotes.Coroutine
