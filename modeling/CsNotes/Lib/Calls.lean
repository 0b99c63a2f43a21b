import Mathlib.Data.Nat.Notation
import CsNotes.Lib.Interleaving

/-!
# Functions that call each other through pointers

Which function is called next is data, so a program is one body: what a call
does, given what the calls inside it do. Calls nest to a given depth, and one
that would go deeper waits.

What holds of calls that are too deep, and of a call if it holds of the calls
inside, holds at every depth. `Runs` says that a computation which makes calls
ends, with the same result at every depth that is large enough. Its rules follow
the computation from one call to the next, and no proof counts the depth.
-/
namespace CsNotes.Calls
open Interleaving

universe u v
variable {Q : Type u} {S A B : Type v}

/-- What each call does to the state. -/
abbrev Meaning (Q S : Type*) := Q → S → Outcome S

def call (body : Meaning Q S → Meaning Q S) : ℕ → Meaning Q S
  | 0, _, _ => .wait
  | n + 1, q, s => body (call body n) q s

theorem call_induction {body : Meaning Q S → Meaning Q S} {P : Meaning Q S → Prop}
    (wait : P fun _ _ => .wait) (step : ∀ r, P r → P (body r)) (n : ℕ) : P (call body n) := by
  induction n with
  | zero => exact wait
  | succ n ih => exact step _ ih

/-- The computation ends with `a` whenever calls may nest deep enough. -/
def Runs (body : Meaning Q S → Meaning Q S) (f : Meaning Q S → Outcome A) (a : A) : Prop :=
  ∃ N, ∀ n, N ≤ n → f (call body n) = .ok a

variable {body : Meaning Q S → Meaning Q S} {f g : Meaning Q S → Outcome A} {a : A}

namespace Runs

theorem pure (h : ∀ r, f r = .ok a) : Runs body f a := ⟨0, fun n _ => h (call body n)⟩

theorem of_depth (N : ℕ) (h : ∀ n, f (Calls.call body (n + N)) = .ok a) : Runs body f a := by
  refine ⟨N, fun n hn => ?_⟩
  obtain ⟨m, rfl⟩ := Nat.exists_eq_add_of_le' hn
  exact h m

theorem call {q : Q} {s t : S} (h : Runs body (fun r => body r q s) t) :
    Runs body (fun r => r q s) t := by
  obtain ⟨N, h⟩ := h
  refine ⟨N + 1, fun n hn => ?_⟩
  cases n with
  | zero => omega
  | succ n => exact h n (by omega)

/-- Where one call is known to end, what is left to run is simpler. -/
theorem via {f₁ : Meaning Q S → Outcome B} {b : B} (h₁ : Runs body f₁ b)
    (hf : ∀ r, f₁ r = .ok b → f r = g r) (hg : Runs body g a) : Runs body f a := by
  obtain ⟨N₁, h₁⟩ := h₁
  obtain ⟨N, hg⟩ := hg
  refine ⟨max N₁ N, fun n hn => ?_⟩
  rw [hf _ (h₁ n (by omega))]
  exact hg n (by omega)

theorem congr (hf : ∀ r, f r = g r) (hg : Runs body g a) : Runs body f a := by
  obtain ⟨N, hg⟩ := hg
  exact ⟨N, fun n hn => (hf _).trans (hg n hn)⟩

theorem bind {k : Meaning Q S → A → Outcome B} {b : B} (hf : Runs body f a)
    (hk : Runs body (fun r => k r a) b) : Runs body (fun r => f r >>= k r) b := by
  apply hf.via _ hk
  intro r hr
  rw [hr]
  rfl

theorem unique {b : A} (ha : Runs body f a) (hb : Runs body f b) : a = b := by
  obtain ⟨N, ha⟩ := ha
  obtain ⟨M, hb⟩ := hb
  have h := (ha (N + M) (Nat.le_add_right N M)).symm.trans (hb (N + M) (Nat.le_add_left M N))
  cases h
  rfl

end Runs
end CsNotes.Calls
