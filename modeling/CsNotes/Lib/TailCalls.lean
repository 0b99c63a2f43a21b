import CsNotes.Lib.Calls

/-!
# Calls in tail position

An activation whose last act is a call need not wait for it: the new activation
may take its place. A call is in tail position if the activation ends as the
call does, whatever that is. Then a sequence of calls, each the last act of the
one before, counts as one activation, and only the calls made on the way nest.

`CallsWithin` counts like that, `call` counts every call.
-/
namespace CsNotes.Calls
open Interleaving

universe u v
variable {Q : Type u} {S A B : Type v} {body : Meaning Q S → Meaning Q S}

/-- Two computations end the same way whatever calls do, apart from finitely many which
are `known`. -/
def Agree (known : Q → S → S → Prop) (f g : Meaning Q S → Outcome A) : Prop :=
  ∃ l : List (Q × S × S), (∀ x ∈ l, known x.1 x.2.1 x.2.2) ∧
    ∀ r : Meaning Q S, (∀ x ∈ l, r x.1 x.2.1 = .ok x.2.2) → f r = g r

/-- A call as a sequence of activations, each in the place of the one before. -/
inductive Activations (body : Meaning Q S → Meaning Q S) (known : Q → S → S → Prop) :
    Q → S → S → Prop
  | last {q : Q} {s t : S} : Agree known (fun r => body r q s) (fun _ => .ok t) →
      Activations body known q s t
  | tail {q q' : Q} {s s' t : S} : Agree known (fun r => body r q s) (fun r => r q' s') →
      Activations body known q' s' t → Activations body known q s t

/-- The call ends, with no more than so many activations one inside the other. -/
def CallsWithin (body : Meaning Q S → Meaning Q S) : ℕ → Q → S → S → Prop
  | 0 => fun _ _ _ => False
  | d + 1 => Activations body (CallsWithin body d)

/-- So does each call that the computation makes. -/
def RunsWithin (body : Meaning Q S → Meaning Q S) (d : ℕ) (f : Meaning Q S → Outcome A) (a : A) :
    Prop :=
  Agree (CallsWithin body d) f fun _ => .ok a

variable {known : Q → S → S → Prop} {f g : Meaning Q S → Outcome A} {a : A} {d : ℕ}
variable {q q' : Q} {s s' t : S}

namespace Agree

theorem of_eq (h : ∀ r, f r = g r) : Agree known f g :=
  ⟨[], fun _ hx => absurd hx List.not_mem_nil, fun r _ => h r⟩

theorem via (hq : known q s t) (h : ∀ r, r q s = .ok t → f r = g r) : Agree known f g := by
  refine ⟨[(q, s, t)], fun x hx => ?_, fun r hr => h r (hr _ (List.mem_singleton_self _))⟩
  rw [List.mem_singleton.mp hx]
  exact hq

theorem trans {h : Meaning Q S → Outcome A} (hf : Agree known f g) (hg : Agree known g h) :
    Agree known f h := by
  obtain ⟨l, hl, hf⟩ := hf
  obtain ⟨l', hl', hg⟩ := hg
  refine ⟨l ++ l', fun x hx => ?_, fun r hr => ?_⟩
  · exact (List.mem_append.mp hx).elim (hl x) (hl' x)
  · exact (hf r fun x hx => hr x (List.mem_append_left _ hx)).trans
      (hg r fun x hx => hr x (List.mem_append_right _ hx))

theorem bind {k : Meaning Q S → A → Outcome B} (hf : Agree known f g) :
    Agree known (fun r => f r >>= k r) fun r => g r >>= k r := by
  obtain ⟨l, hl, h⟩ := hf
  exact ⟨l, hl, fun r hr => congrArg (· >>= k r) (h r hr)⟩

theorem runs (hknown : ∀ q s t, known q s t → Runs body (fun r => r q s) t)
    (h : Agree known f g) (hg : Runs body g a) : Runs body f a := by
  obtain ⟨l, hl, h⟩ := h
  have hdeep : ∃ N, ∀ n, N ≤ n → ∀ x ∈ l, call body n x.1 x.2.1 = .ok x.2.2 := by
    clear h
    induction l with
    | nil => exact ⟨0, fun n _ x hx => absurd hx List.not_mem_nil⟩
    | cons x l ih =>
        obtain ⟨N, hN⟩ := ih fun y hy => hl y (List.mem_cons_of_mem x hy)
        obtain ⟨M, hM⟩ := hknown _ _ _ (hl x List.mem_cons_self)
        refine ⟨max N M, fun n hn y hy => ?_⟩
        rcases List.mem_cons.mp hy with rfl | hy
        · exact hM n (by omega)
        · exact hN n (by omega) y hy
  obtain ⟨N, hN⟩ := hdeep
  obtain ⟨M, hM⟩ := hg
  refine ⟨max N M, fun n hn => ?_⟩
  rw [h _ (hN n (by omega))]
  exact hM n (by omega)

end Agree

namespace CallsWithin

theorem last (h : RunsWithin body d (fun r => body r q s) t) : CallsWithin body (d + 1) q s t :=
  Activations.last h

theorem tail (h : Agree (CallsWithin body d) (fun r => body r q s) fun r => r q' s')
    (ht : CallsWithin body (d + 1) q' s' t) : CallsWithin body (d + 1) q s t :=
  Activations.tail h ht

theorem runs (h : CallsWithin body d q s t) : Runs body (fun r => r q s) t := by
  induction d generalizing q s t with
  | zero => exact h.elim
  | succ d ih =>
      change Activations body (CallsWithin body d) q s t at h
      induction h with
      | last h => exact .call (h.runs (fun q s t => ih) (.pure fun r => rfl))
      | tail h _ iht => exact .call (h.runs (fun q s t => ih) iht)

end CallsWithin

namespace RunsWithin

theorem runs (h : RunsWithin body d f a) : Runs body f a :=
  Agree.runs (fun _ _ _ => CallsWithin.runs) h (.pure fun _ => rfl)

theorem call (h : CallsWithin body d q s t) : RunsWithin body d (fun r => r q s) t :=
  .via h fun _ => id

theorem congr (hf : ∀ r, f r = g r) (hg : RunsWithin body d g a) : RunsWithin body d f a :=
  (Agree.of_eq hf).trans hg

theorem bind {k : Meaning Q S → A → Outcome B} {b : B} (hf : RunsWithin body d f a)
    (hk : RunsWithin body d (fun r => k r a) b) : RunsWithin body d (fun r => f r >>= k r) b :=
  (Agree.bind hf).trans hk

end RunsWithin

/-- Where each call makes the next, ordinary calls nest as deep as there are calls. -/
theorem call_eq_wait {n : ℕ} {q : ℕ → Q} {s : ℕ → S}
    (h : ∀ i, i < n → ∀ r, body r (q i) (s i) = r (q (i + 1)) (s (i + 1))) {i d : ℕ}
    (hd : i + d ≤ n) : Calls.call body d (q i) (s i) = .wait := by
  induction d generalizing i with
  | zero => rfl
  | succ d ih =>
      change body (Calls.call body d) (q i) (s i) = .wait
      rw [h i (by omega)]
      exact ih (by omega)

end CsNotes.Calls
