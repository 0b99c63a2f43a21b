import Mathlib.Algebra.BigOperators.Group.List.Basic
import Mathlib.Data.BitVec
import CsNotes.Lib.Simulation
import CsNotes.Allocator.Model

/-!
# Whether the counters tell the truth

`do_allocate` counts the bytes before it asks its parent, and does not take them
back where the parent throws. From then on they are outstanding, though nobody
has them.
-/
namespace CsNotes.Allocator
open Interleaving Simulation

variable {w : ℕ} {Ptr E S : Type*}

namespace Program

/-- The size of all blocks that the program has. -/
def total (s : Program w Ptr S) : ℕ := (s.blocks.map fun b => b.2.toNat).sum

/-- What the counters say, modulo `2 ^ w`. -/
structure Truthful (s : Program w Ptr S) : Prop where
  outstanding : s.resource.bytesOutstanding = BitVec.ofNat w s.total
  balance : s.resource.bytesAllocated - s.resource.bytesDeallocated = s.resource.bytesOutstanding

/-- The call makes the parent throw. -/
def Throws (parent : MemoryResource w Ptr E S) (s : Program w Ptr S) : Call w Ptr → Prop
  | .allocate n a => ∃ e, (parent.allocate n a s.resource.parent).1 = .error e
  | .deallocate .. => False

/-- What should hold after a call. -/
structure Reports (parent : MemoryResource w Ptr E S) (s : Program w Ptr S) (c : Call w Ptr)
    (s' : Program w Ptr S) : Prop where
  truthful : s'.Truthful
  unchanged : s.Throws parent c → s'.resource.bytesDeallocated = s.resource.bytesDeallocated ∧
    s'.resource.bytesAllocated = s.resource.bytesAllocated ∧
    s'.resource.bytesOutstanding = s.resource.bytesOutstanding

end Program
open Program

/-- The number of bytes that are asked for, or returned. -/
def Call.bytes : Call w Ptr → BitVec w
  | allocate n _ => n
  | deallocate _ n _ => n

variable {parent : MemoryResource w Ptr E S} {s s' : Program w Ptr S} {c : Call w Ptr}
variable {n a : BitVec w} {p : Ptr} {e : E}

/-- Blocks that are alive together are disjoint, so their size fits in `size_t`. -/
theorem Program.Truthful.exact (h : s.Truthful) (hs : s.total < 2 ^ w) :
    s.resource.bytesOutstanding.toNat = s.total := by
  rw [h.outstanding, BitVec.toNat_ofNat]
  exact Nat.mod_eq_of_lt hs

theorem truthful_start (s : S) : (start s : Program w Ptr S).Truthful := by
  constructor
  · rfl
  · exact sub_self _

section
variable {r : TestResource w S}

@[simp] theorem doAllocate_bytesAllocated :
    (doAllocate parent n a r).2.bytesAllocated = r.bytesAllocated + n := rfl

@[simp] theorem doAllocate_bytesDeallocated :
    (doAllocate parent n a r).2.bytesDeallocated = r.bytesDeallocated := rfl

@[simp] theorem doAllocate_bytesOutstanding :
    (doAllocate parent n a r).2.bytesOutstanding = r.bytesOutstanding + n := rfl

@[simp] theorem doDeallocate_bytesAllocated :
    (doDeallocate parent p n a r).bytesAllocated = r.bytesAllocated := rfl

@[simp] theorem doDeallocate_bytesDeallocated :
    (doDeallocate parent p n a r).bytesDeallocated = r.bytesDeallocated + n := rfl

@[simp] theorem doDeallocate_bytesOutstanding :
    (doDeallocate parent p n a r).bytesOutstanding = r.bytesOutstanding - n := rfl

/-- Whether the parent throws or not, the counters are changed together. -/
theorem doAllocate_balance (h : r.bytesAllocated - r.bytesDeallocated = r.bytesOutstanding) :
    (doAllocate parent n a r).2.bytesAllocated - (doAllocate parent n a r).2.bytesDeallocated =
      (doAllocate parent n a r).2.bytesOutstanding := by
  simp only [doAllocate_bytesAllocated, doAllocate_bytesDeallocated, doAllocate_bytesOutstanding]
  rw [← h]
  exact add_sub_right_comm _ _ _

theorem doDeallocate_balance (h : r.bytesAllocated - r.bytesDeallocated = r.bytesOutstanding) :
    (doDeallocate parent p n a r).bytesAllocated -
      (doDeallocate parent p n a r).bytesDeallocated =
      (doDeallocate parent p n a r).bytesOutstanding := by
  simp only [doDeallocate_bytesAllocated, doDeallocate_bytesDeallocated,
    doDeallocate_bytesOutstanding]
  rw [← h]
  exact sub_add_eq_sub_sub _ _ _

end

/-- A call of `do_allocate` that returns adds a block and its size. -/
theorem Program.Truthful.returns (hs : s.Truthful) (p : Ptr) :
    (⟨(doAllocate parent n a s.resource).2, (p, n) :: s.blocks⟩ : Program w Ptr S).Truthful := by
  constructor
  · have htotal : (⟨(doAllocate parent n a s.resource).2, (p, n) :: s.blocks⟩ :
        Program w Ptr S).total = n.toNat + s.total := by
      simp [total]
    rw [htotal, BitVec.ofNat_add, BitVec.ofNat_toNat, BitVec.setWidth_eq, ← hs.outstanding]
    exact add_comm _ _
  · exact doAllocate_balance hs.balance

/-- A call of `do_allocate` that throws is counted all the same, so the counters stay
only if it asked for nothing. -/
theorem reports_throws (hs : s.Truthful)
    (h : (parent.allocate n a s.resource.parent).1 = .error e) :
    Reports parent s (.allocate n a) ⟨(doAllocate parent n a s.resource).2, s.blocks⟩ ↔ n = 0 := by
  constructor
  · intro hr
    obtain ⟨-, -, ho⟩ := hr.unchanged ⟨e, h⟩
    exact add_eq_left.mp ho
  · intro hn
    have hzero : ∀ b : BitVec w, b + n = b := fun b => add_eq_left.mpr hn
    exact ⟨⟨(hzero _).trans hs.outstanding, doAllocate_balance hs.balance⟩,
      fun _ => ⟨rfl, hzero _, hzero _⟩⟩

section
variable [DecidableEq Ptr]

theorem perform_returns (h : (parent.allocate n a s.resource.parent).1 = .ok p) :
    perform (testResource parent) (.allocate n a) s =
      .ok ⟨(doAllocate parent n a s.resource).2, (p, n) :: s.blocks⟩ := by
  unfold perform testResource doAllocate
  simp only [TestResource.print]
  rw [h]

theorem perform_throws (h : (parent.allocate n a s.resource.parent).1 = .error e) :
    perform (testResource parent) (.allocate n a) s =
      .ok ⟨(doAllocate parent n a s.resource).2, s.blocks⟩ := by
  unfold perform testResource doAllocate
  simp only [TestResource.print]
  rw [h]

theorem perform_deallocate (h : perform (testResource parent) (.deallocate p n a) s = .ok s') :
    (p, n) ∈ s.blocks ∧
      s' = ⟨doDeallocate parent p n a s.resource, s.blocks.erase (p, n)⟩ := by
  by_cases hm : (p, n) ∈ s.blocks
  · have hs : Outcome.ok _ = Outcome.ok s' := (if_pos hm).symm.trans h
    exact ⟨hm, (Outcome.ok.inj hs).symm⟩
  · cases (if_neg hm).symm.trans h

/-- `do_deallocate` takes one block away and subtracts its size. -/
theorem Program.Truthful.deallocate (hs : s.Truthful) (h : (p, n) ∈ s.blocks) :
    (⟨doDeallocate parent p n a s.resource, s.blocks.erase (p, n)⟩ :
      Program w Ptr S).Truthful := by
  constructor
  · have hperm : (s.blocks.map fun b => b.2.toNat).Perm
        (((p, n) :: s.blocks.erase (p, n)).map fun b => b.2.toNat) := (List.perm_cons_erase h).map _
    have htotal : s.total = n.toNat + (⟨doDeallocate parent p n a s.resource,
        s.blocks.erase (p, n)⟩ : Program w Ptr S).total := hperm.sum_eq
    rw [doDeallocate_bytesOutstanding, hs.outstanding, htotal, BitVec.ofNat_add,
      BitVec.ofNat_toNat, BitVec.setWidth_eq, add_sub_cancel_left]
  · exact doDeallocate_balance hs.balance

theorem reports_iff (hs : s.Truthful) :
    (∀ s', perform (testResource parent) c s = .ok s' → Reports parent s c s') ↔
      (s.Throws parent c → c.bytes = 0) := by
  cases c with
  | allocate n a =>
      cases hp : (parent.allocate n a s.resource.parent).1 with
      | ok p =>
          have hnot : ¬ s.Throws parent (.allocate n a) := by
            intro ⟨e, he⟩
            cases hp.symm.trans he
          rw [perform_returns hp]
          simp only [Outcome.ok.injEq, forall_eq']
          exact iff_of_true ⟨hs.returns p, fun ht => (hnot ht).elim⟩ fun ht => (hnot ht).elim
      | error e =>
          rw [perform_throws hp]
          simp only [Outcome.ok.injEq, forall_eq']
          rw [reports_throws hs hp]
          exact ⟨fun hn _ => hn, fun hn => hn ⟨e, hp⟩⟩
  | deallocate p n a =>
      refine iff_of_true (fun s' h => ?_) fun ht => ht.elim
      obtain ⟨hm, rfl⟩ := perform_deallocate h
      exact ⟨hs.deallocate hm, fun ht => ht.elim⟩

theorem balance_of_run {calls : List (Call w Ptr)} {u : S}
    (h : run (perform (testResource parent)) calls (start u) = .ok s) :
    s.resource.bytesAllocated - s.resource.bytesDeallocated = s.resource.bytesOutstanding := by
  refine @run_invariant _ _ _ _ _ _ (fun s : Program w Ptr S => s.resource.bytesAllocated -
    s.resource.bytesDeallocated = s.resource.bytesOutstanding) (truthful_start u).balance ?_ h
  intro s c s' hs h
  cases c with
  | allocate n a =>
      cases hp : (parent.allocate n a s.resource.parent).1 with
      | ok p =>
          rw [perform_returns hp] at h
          cases h
          exact doAllocate_balance hs
      | error e =>
          rw [perform_throws hp] at h
          cases h
          exact doAllocate_balance hs
  | deallocate p n a =>
      obtain ⟨-, rfl⟩ := perform_deallocate h
      exact doDeallocate_balance hs

/-- In any sequence of calls the counters are right after every call, exactly if the
parent throws only where it is asked for no bytes. -/
theorem reports_always_iff (calls : List (Call w Ptr)) (u : S) :
    Meets (perform (testResource parent))
        (fun s c => ∀ s', perform (testResource parent) c s = .ok s' → Reports parent s c s')
        calls (start u) ↔
      Meets (perform (testResource parent)) (fun s c => s.Throws parent c → c.bytes = 0)
        calls (start u) := by
  refine meets_iff_of_invariant (truthful_start u) (fun s c hs => reports_iff hs) ?_
  intro s c s' hs hc h
  exact ((reports_iff hs).mpr hc s' h).truthful

end

section Example

def nullMemoryResource : MemoryResource w Ptr Unit Unit where
  allocate _ _ s := (.error (), s)
  deallocate _ _ _ s := s

/-- Eight bytes are asked for and not handed out, and are outstanding. -/
theorem throw_is_counted : ¬ ∀ (parent : MemoryResource 64 ℕ Unit Unit)
    (calls : List (Call 64 ℕ)) (u : Unit), Meets (perform (testResource parent))
      (fun s c => ∀ s', perform (testResource parent) c s = .ok s' → Reports parent s c s')
      calls (start u) := by
  intro hall
  obtain ⟨hreports, -⟩ := hall nullMemoryResource [.allocate 8 8] ()
  have hout : (8 : BitVec 64) = 0 := (hreports _ rfl).truthful.outstanding
  cases hout

end Example
end CsNotes.Allocator
