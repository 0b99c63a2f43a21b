import Mathlib.Data.Fintype.Card
import CsNotes.Lib.Double
import CsNotes.Lib.Monitor

/-!
# A bank account which several threads withdraw from

`race_condition.cpp`. Both methods of the account hold its mutex, but
`performTransactions` calls one after the other and decides in between. The
balance is a `double`, so what `withdraw` subtracts is rounded.
-/
namespace CsNotes.BankAccount
open Interleaving Monitor

inductive Method where
  | getBalance
  | withdraw (amount : ℚ)
deriving DecidableEq, Repr

inductive Locals where
  | readBalance
  | compare (amount : ℚ)
  | subtract (amount : ℚ)
deriving DecidableEq, Repr

inductive Answer where
  | balance (b : ℚ)
  | done
deriving DecidableEq, Repr

/-- One step per access to the balance. -/
def body : Body Method ℚ Locals Answer where
  entry
    | .getBalance => .readBalance
    | .withdraw amount => .compare amount
  step
    | .readBalance, balance => .ok (balance, .inr (.balance balance))
    | .compare amount, balance =>
        .ok (balance, if balance ≥ amount then .inl (.subtract amount) else .inr .done)
    | .subtract amount, balance => .ok (Double.round (balance - amount), .inr .done)

/-- What a thread calls after the results it has got. The message is printed when
`withdraw` has returned. -/
def performTransactions : List (Method × Answer) → Option Method
  | [] => some .getBalance
  | [(_, .balance b)] => if b > 500 then some (.withdraw 500) else none
  | _ => none

abbrev State (Tid : Type*) := Config Tid (Shared Tid Method ℚ Answer) (PC Method Locals Answer)

variable {Tid : Type*}

/-- Every thread has returned from `performTransactions`. -/
def Finished (c : State Tid) : Prop :=
  ∀ t, c.pc t = .idle ∧ performTransactions (c.shared.returned t) = none

/-- A thread which has printed that it was successful. -/
def Printed (c : State Tid) (t : Tid) : Prop := 2 ≤ (c.shared.returned t).length

instance (c : State Tid) : DecidablePred (Printed c) := fun _ => Nat.decLe _ _

def messages [Fintype Tid] (c : State Tid) : ℕ := (Finset.univ.filter (Printed c)).card

def Method.apply : Method → ℚ → Answer × ℚ
  | getBalance, balance => (.balance balance, balance)
  | withdraw amount, balance =>
      (.done, if balance ≥ amount then Double.round (balance - amount) else balance)

/-- What the locals say of the balance, which was `b₀` when the method began. -/
def Facts (m : Method) (b₀ : ℚ) : Locals → ℚ → Prop
  | .readBalance, b => m = .getBalance ∧ b = b₀
  | .compare amount, b => m = .withdraw amount ∧ b = b₀
  | .subtract amount, b => m = .withdraw amount ∧ b = b₀ ∧ b₀ ≥ amount

theorem annotated : Annotated body (Atomic Method.apply) Facts where
  entry := by
    intro m b
    cases m <;> exact ⟨rfl, rfl⟩
  step := by
    intro m b₀ l b h
    cases l with
    | readBalance =>
        obtain ⟨rfl, rfl⟩ := h
        rfl
    | compare amount =>
        obtain ⟨rfl, rfl⟩ := h
        by_cases hge : b ≥ amount
        · simp only [body, if_pos hge]
          exact ⟨rfl, rfl, hge⟩
        · simp only [body, if_neg hge]
          exact congrArg (Prod.mk Answer.done) (if_neg hge)
    | subtract amount =>
        obtain ⟨rfl, rfl, hge⟩ := h
        exact congrArg (Prod.mk Answer.done) (if_pos hge)

end CsNotes.BankAccount
