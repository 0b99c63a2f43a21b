import Mathlib.Algebra.Ring.Int.Defs
import Mathlib.Algebra.Ring.Nat
import Mathlib.Data.List.Basic
import CsNotes.Coroutine.Steps

/-!
# Symmetric transfer

A caller awaits the first of a chain of coroutines, in which every `g` awaits the
next and the last is a leaf. No activation waits for another: each ends with the
`resume()` of the next handle, inwards while the chain is started, and outwards
along the continuations once the leaf returns.

The state at each such point is known. `below` has the frames that are suspended
above the one at work, and the events are those of `started` and `returned`.
-/
namespace CsNotes.Coroutine
open Interleaving Calls

/-- `n` times `g`, around a coroutine. -/
def chain : ℕ → Coro → Coro
  | 0, c => c
  | n + 1, c => .g (chain n c)

def direct : Coro → ℤ → ℤ
  | .leaf _ value, x => value x
  | .g f, x => direct f x * direct f x

/-- A caller outside calls a coroutine and awaits it. -/
def awaitCall (junk : ℕ → ℤ) (r : Meaning Call State) (c : Coro) (x : ℤ) (s : State) :
    Outcome State := do
  let (s, t) ← ramp taskReady junk r c x s
  coAwait r t s

/-- A caller awaits the outermost coroutine, and then the events happen for which
the innermost waits. -/
def perform (junk : ℕ → ℤ) (r : Meaning Call State) (n k : ℕ) (value : ℤ → ℤ) (x : ℤ) :
    Outcome State := do
  let s ← awaitCall junk r (chain n (.leaf k value)) x .init
  outside r (.frame n) k s

/-- The handle that `resume()` is called on, if it is. -/
def Event.resumed : Event → Option Hdl
  | resume h => some h
  | _ => none

/-- The coroutine which awaits a frame of the chain. -/
def above : ℕ → Hdl
  | 0 => .caller 0
  | d + 1 => .frame d

/-- What is seen until the body of frame `d` starts. -/
def started : ℕ → List Event
  | 0 => [.construct 0 .promise, .construct 0 .tmp1]
  | d + 1 => started d ++ [.resume (.frame d), .destroy d .tmp1, .construct (d + 1) .promise,
      .construct (d + 1) .tmp1, .construct d .tmp2, .construct d .tmp3]

/-- Frame `d` is resumed, reads the result of the next frame and destroys it. -/
def collected (d : ℕ) : List Event :=
  [.resume (.frame d), .read (.frame d) (d + 1), .destroy d .tmp3, .destroy d .tmp2,
    .destroy (d + 1) .tmp4, .destroy (d + 1) .promise, .release (d + 1)]

/-- What is seen from the end of frame `d` on. -/
def returned : ℕ → List Event
  | 0 => [.resume (.caller 0), .read (.caller 0) 0]
  | d + 1 => collected d ++ .construct d .tmp4 :: returned d

variable (junk : ℕ → ℤ) (n : ℕ) (c : Coro) (x : ℤ)

/-- Frames `0` to `d - 1` are suspended, each above the next, and `m` frames were
allocated. -/
def below (m : ℕ) : ℕ → State
  | 0 => { State.init with allocs := m, callers := Function.update State.init.callers 0 true }
  | d + 1 => (below m d).setFrame d
      (.waiting (chain (n - (d + 1)) c) x (junk d) (d + 1) (some (above d)))

/-- The answer is there, and frame `0` is done. -/
def answered (a : Frame) (v : ℤ) (l : List Event) : State :=
  ({ State.init with allocs := n + 1, answers := [(0, v)] }.setFrame 0 (a.finish v)).notes l

variable {junk n c x}

theorem chain_succ_of_lt {d : ℕ} (hd : d < n) :
    chain (n - d) c = .g (chain (n - (d + 1)) c) := by
  have hn : n - d = n - (d + 1) + 1 := by omega
  rw [hn]
  rfl

theorem allocs_below (m d : ℕ) : (below junk n c x m d).allocs = m := by
  induction d with
  | zero => rfl
  | succ d ih => exact ih

theorem frames_below {m d i : ℕ} (hi : d ≤ i) : (below junk n c x m d).frames i = none := by
  induction d with
  | zero => rfl
  | succ d ih =>
      exact (Function.update_of_ne (by omega) _ _).trans (ih (by omega))

theorem below_allocs (m m' d : ℕ) :
    { below junk n c x m d with allocs := m' } = below junk n c x m' d := by
  induction d with
  | zero => rfl
  | succ d ih =>
      unfold below
      rw [← ih]
      rfl

/-- Every frame up to the last leads to the start of the last. -/
theorem descend {t : State} (e : ℕ) {d : ℕ} (hd : d + e = n)
    (ht : Runs (body taskReady junk) (fun r => r (.resume (some (.frame n)))
      (((below junk n c x (n + 1) n).setFrame n (.fresh c x (junk n) (some (above n)))).notes
        (started n))) t) :
    Runs (body taskReady junk) (fun r => r (.resume (some (.frame d)))
      (((below junk n c x (d + 1) d).setFrame d
        (.fresh (chain (n - d) c) x (junk d) (some (above d)))).notes (started d))) t := by
  induction e generalizing d with
  | zero =>
      obtain rfl : d = n := by omega
      rw [Nat.sub_self]
      exact ht
  | succ e ih =>
      apply Runs.call
      apply Runs.congr _ (ih (by omega : d + 1 + e = n))
      intro r
      rw [chain_succ_of_lt (by omega), resume_g (allocs_below _ _) (by omega), below_allocs]
      rfl

/-- The call of the outermost coroutine, and the caller's `co_await` of it, lead
there too. -/
theorem start {t : State}
    (ht : Runs (body taskReady junk) (fun r => r (.resume (some (.frame n)))
      (((below junk n c x (n + 1) n).setFrame n (.fresh c x (junk n) (some (above n)))).notes
        (started n))) t) :
    Runs (body taskReady junk) (fun r => awaitCall junk r (chain n c) x .init) t := by
  have hr : ∀ r, ramp taskReady junk r (chain n c) x .init =
      .ok (({ State.init with allocs := 1 }.setFrame 0 (.fresh (chain n c) x (junk 0) none)).notes
        (started 0), some 0) := fun r => ramp_eq (s := .init) (l := [])
  have h₀ := descend n (Nat.zero_add n) ht
  refine .bind (.pure hr) (.congr (fun r => ?_) h₀)
  exact execAwaitSuspend_eq (s := below junk n c x 1 0) (by simp [Frame.fresh])

/-- Once frame `d` is done, every frame above it returns in turn. -/
theorem ascend (d : ℕ) (a : Frame) (y : ℤ) (l : List Event) :
    ∃ b, Runs (body taskReady junk) (fun r => r (.resume (some (above d)))
        (((below junk n c x (n + 1) d).setFrame d (a.finish y)).notes l))
      (answered n b (y ^ 2 ^ d) (l ++ returned d)) := by
  induction d generalizing a y l with
  | zero =>
      refine ⟨a, .call (.pure fun r => ?_)⟩
      change body taskReady junk r (.resume (some (.caller 0))) _ = _
      have hc : Function.update State.init.callers 0 false = State.init.callers :=
        Function.update_eq_self 0 State.init.callers
      rw [resume_caller rfl (by simp [Frame.finish])]
      simp only [below, Function.update_idem, hc, answered, pow_zero, pow_one]
      rfl
  | succ d ih =>
      have hy : (y * y) ^ 2 ^ d = y ^ 2 ^ (d + 1) := by
        rw [← pow_two, ← pow_mul, pow_succ' 2 d]
      let f : Coro := chain (n - (d + 1)) c
      let w : Frame := .waiting f x (junk d) (d + 1) (some (above d))
      obtain ⟨b, hb⟩ := ih w (y * y) (l ++ (collected d ++ [.construct d .tmp4]))
      rw [hy, List.append_assoc, List.append_assoc] at hb
      exact ⟨b, runs_waiting (by omega) (frames_below (by omega)) hb⟩

variable {k : ℕ} {value : ℤ → ℤ}

/-- The events it waits for resume it, and after the last one it is done. -/
theorem runs_outside {s t : State} {h : Hdl} {v : ℤ} (w : ℕ) (l : List Event)
    (ht : Runs (body taskReady junk) (fun r => r (.resume (some h))
      ((s.setFrame n ((Frame.blocked (.leaf k value) x v 0 (some h)).finish (value x))).notes
        (l ++ List.replicate (w + 1) (.resume (.frame n)) ++ [.construct n .tmp4]))) t) :
    Runs (body taskReady junk) (fun r => outside r (.frame n) (w + 1)
      ((s.setFrame n (.blocked (.leaf k value) x v w (some h))).notes l)) t := by
  induction w generalizing l with
  | zero =>
      rw [List.append_assoc] at ht
      exact .bind (.call (.congr (fun r => resume_blocked) ht)) (.pure fun r => rfl)
  | succ w ih =>
      refine .bind (.call (.pure fun r => resume_blocked)) (ih _ ?_)
      rw [List.append_assoc l]
      exact ht

theorem perform_runs (junk : ℕ → ℤ) (n k : ℕ) (value : ℤ → ℤ) (x : ℤ) :
    ∃ b, Runs (body taskReady junk) (fun r => perform junk r n k value x)
      (answered n b (value x ^ 2 ^ n) (started n ++ [.resume (.frame n), .destroy n .tmp1] ++
        List.replicate k (.resume (.frame n)) ++ [.construct n .tmp4] ++ returned n)) := by
  obtain ⟨b, hb⟩ := ascend (n := n) (c := .leaf k value) (x := x) n
    (.blocked (.leaf k value) x (junk n) 0 (some (above n))) (value x)
    (started n ++ [.resume (.frame n), .destroy n .tmp1] ++
      List.replicate k (.resume (.frame n)) ++ [.construct n .tmp4])
  refine ⟨b, ?_⟩
  cases k with
  | zero =>
      refine .bind (start (.call (.congr (fun r => resume_leaf) ?_))) (.pure fun r => rfl)
      simp only [List.replicate_zero, List.append_nil, List.append_assoc] at hb ⊢
      exact hb
  | succ k =>
      exact .bind (start (.call (.pure fun r => resume_leaf))) (runs_outside k _ hb)

theorem direct_chain (n : ℕ) (c : Coro) (x : ℤ) :
    direct (chain n c) x = direct c x ^ 2 ^ n := by
  induction n with
  | zero => exact (pow_one _).symm
  | succ n ih =>
      change direct (chain n c) x * direct (chain n c) x = _
      rw [ih, ← pow_two, ← pow_mul, pow_succ 2 n]

theorem resumed_started (d : ℕ) :
    (started d).filterMap Event.resumed = (List.range d).map Hdl.frame := by
  induction d with
  | zero => rfl
  | succ d ih =>
      rw [started, List.filterMap_append, ih, List.range_succ, List.map_append]
      rfl

theorem resumed_returned (d : ℕ) :
    (returned d).filterMap Event.resumed =
      ((List.range d).map Hdl.frame).reverse ++ [.caller 0] := by
  induction d with
  | zero => rfl
  | succ d ih =>
      have hc : (collected d).filterMap Event.resumed = [.frame d] := rfl
      rw [returned, List.filterMap_append, hc, List.range_succ, List.map_append,
        List.reverse_append]
      exact congrArg (Hdl.frame d :: ·) ih

theorem not_released_started (i d : ℕ) : .release i ∉ started d := by
  induction d with
  | zero => simp [started]
  | succ d ih => simp [started, ih]

theorem collected_returned {i d : ℕ} (hi : i < d) : collected i <:+: returned d := by
  induction d with
  | zero => omega
  | succ d ih =>
      by_cases hd : i = d
      · subst hd
        exact (List.prefix_append _ _).isInfix
      · have hs : returned d <:+ returned (d + 1) :=
          ⟨collected d ++ [.construct d .tmp4], List.append_assoc ..⟩
        exact (ih (by omega)).trans hs.isInfix

theorem count_returned (i d : ℕ) :
    (returned d).count (.release (i + 1)) = if i < d then 1 else 0 := by
  induction d with
  | zero => rfl
  | succ d ih =>
      have hc : (collected d).count (.release (i + 1)) = if i = d then 1 else 0 := by
        by_cases hd : i = d
        · subst hd
          simp [collected]
        · simp [collected, hd, Ne.symm hd]
      rw [returned, List.count_append, hc, List.count_cons_of_ne (by simp), ih]
      by_cases hd : i = d
      · simp [hd]
      · have hlt : i < d + 1 ↔ i < d := by omega
        simp [hd, hlt]

/-- A chain of awaited coroutines computes its direct-style result. Control goes
inwards, is back at the innermost after each event, and returns through every
continuation once to the caller. Each inner frame is destroyed once, by the one
that awaits it, after its result was read. -/
theorem symmetric_transfer (junk : ℕ → ℤ) (n k : ℕ) (value : ℤ → ℤ) (x : ℤ) :
    direct (chain n (.leaf k value)) x = value x ^ 2 ^ n ∧
    ∃ s, Runs (body taskReady junk) (fun r => perform junk r n k value x) s ∧
      s.answers = [(0, value x ^ 2 ^ n)] ∧
      s.log.filterMap Event.resumed =
        (List.range (n + 1)).map Hdl.frame ++ List.replicate k (.frame n) ++
          ((List.range n).map Hdl.frame).reverse ++ [.caller 0] ∧
      (∀ i, i < n → collected i <:+: s.log ∧ s.log.count (.release (i + 1)) = 1) ∧
      s.allocs = n + 1 ∧ (∀ i, i ≠ 0 → s.frames i = none) ∧
      ∃ a, s.frames 0 = some a ∧ a.resume = false ∧ a.result = value x ^ 2 ^ n := by
  refine ⟨direct_chain n _ x, ?_⟩
  obtain ⟨b, hb⟩ := perform_runs junk n k value x
  refine ⟨_, hb, rfl, ?_, fun i hi => ⟨?_, ?_⟩, rfl, fun i hi => ?_, _, rfl, rfl, rfl⟩
  · have h₁ : List.filterMap Event.resumed [.resume (.frame n), .destroy n .tmp1] =
        [.frame n] := rfl
    have h₂ : List.filterMap Event.resumed (List.replicate k (.resume (.frame n))) =
        List.replicate k (.frame n) := List.filterMap_replicate_of_some rfl
    have h₃ : List.filterMap Event.resumed [.construct n .tmp4] = [] := rfl
    change List.filterMap _ (_ ++ _ ++ _ ++ _ ++ _) = _
    rw [List.filterMap_append, List.filterMap_append, List.filterMap_append, List.filterMap_append,
      resumed_started, resumed_returned, h₁, h₂, h₃, List.append_nil, List.range_succ,
      List.map_append, List.append_assoc _ (List.reverse _)]
    rfl
  · exact (collected_returned hi).trans (List.suffix_append _ _).isInfix
  · change List.count _ (_ ++ _ ++ _ ++ _ ++ _) = 1
    simp [List.count_append, count_returned, hi, not_released_started, List.count_eq_zero,
      List.count_replicate]
  · exact Function.update_of_ne hi _ _

end CsNotes.Coroutine
