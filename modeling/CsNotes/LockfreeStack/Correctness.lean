import CsNotes.LockfreeStack.Refinement

/-!
# Linearizability of the two stacks

For any number of threads, any calls and any interleaving, spurious failures and
reuse of addresses included.
-/
namespace CsNotes.LockfreeStack
open Interleaving

variable {Tid Addr A : Type*} [DecidableEq Tid] [DecidableEq Addr] {movedFrom : A → A}
variable {c : Config Tid (MemoryLeak.Shared Tid Addr A) (MemoryLeak.PC Addr A)}
variable {d : Config Tid (SharedPtr.Shared Tid Addr A) (SharedPtr.PC Addr A)}

theorem stacks_linearizable (hc : Reach (MemoryLeak.exec movedFrom) (· = MemoryLeak.start) c)
    (hd : Reach (SharedPtr.exec movedFrom) (· = SharedPtr.start) d) :
    MemoryLeak.Linearizable movedFrom c ∧ SharedPtr.Linearizable movedFrom d :=
  ⟨MemoryLeak.linearizable_of_reach hc, SharedPtr.linearizable_of_reach hd⟩

section Example

/-- Thread 0 pushes 7 in `n` steps, and pops it while thread 1 has a pointer to the
node. -/
def sample (n : ℕ) : List (ℕ × Oracle ℕ ℕ) :=
  let push : Oracle ℕ ℕ := ⟨.push 7, 3, false⟩
  let pop : Oracle ℕ ℕ := ⟨.pop, 3, false⟩
  List.replicate n (0, push) ++
    [(1, pop), (1, pop), (0, pop), (0, pop), (1, pop), (0, pop), (0, pop), (0, pop), (1, pop),
      (1, pop), (0, pop), (0, pop), (1, pop), (1, pop), (1, pop)]

theorem stacks_linearizable_sample :
    ∃ c d, Config.run (MemoryLeak.exec id) (sample 4) MemoryLeak.start = .ok c ∧
      Config.run (SharedPtr.exec id) (sample 6) SharedPtr.start = .ok d ∧
      c.shared.returned 0 = [some 7, none] ∧ d.shared.returned 0 = [some 7] ∧
      MemoryLeak.Linearizable id c ∧ SharedPtr.Linearizable id d := by
  refine ⟨_, _, rfl, rfl, rfl, rfl, stacks_linearizable ?_ ?_⟩
  · exact ReachIf.run (.start rfl)
      (rfl : Config.run (MemoryLeak.exec id) (sample 4) MemoryLeak.start = .ok _)
  · exact ReachIf.run (.start rfl)
      (rfl : Config.run (SharedPtr.exec id) (sample 6) SharedPtr.start = .ok _)

end Example
end CsNotes.LockfreeStack
