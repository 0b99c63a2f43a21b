import Mathlib.Data.Nat.Notation
import CsNotes.Lib.Interleaving

/-!
# A memory resource that counts bytes

`pmr.cpp`. The parent of a `test_resource` is any `memory_resource`, with a state
of its own. What it answers is a parameter, and its `allocate` may throw. As a
`test_resource` is a `memory_resource` again, they can be chained.

`size_t` has `w` bits. A program allocates, and deallocates blocks that it was
handed and did not return yet, with their sizes. These blocks are an observation.
-/
namespace CsNotes.Allocator
open Interleaving

structure MemoryResource (w : ℕ) (Ptr E S : Type*) where
  allocate (bytes alignment : BitVec w) : S → Except E Ptr × S
  deallocate (p : Ptr) (bytes alignment : BitVec w) : S → S

/-- `parent` is the state of the parent, and `cout` what was written. -/
structure TestResource (w : ℕ) (S : Type*) where
  parent : S
  bytesDeallocated : BitVec w := 0
  bytesAllocated : BitVec w := 0
  bytesOutstanding : BitVec w := 0
  cout : List String := []
deriving DecidableEq, Repr

variable {w : ℕ} {Ptr E S : Type*}

def TestResource.print (r : TestResource w S) (text : String) (n : BitVec w) (rest : String) :
    TestResource w S :=
  { r with cout := r.cout ++ [text ++ toString n.toNat ++ rest] }

def doAllocate (parent : MemoryResource w Ptr E S) (bytes alignment : BitVec w)
    (r : TestResource w S) : Except E Ptr × TestResource w S :=
  let r := { r with bytesAllocated := r.bytesAllocated + bytes }
  let r := { r with bytesOutstanding := r.bytesOutstanding + bytes }
  let r := r.print "allocated " r.bytesAllocated " bytes, "
  let r := r.print "oustanding bytes: " r.bytesOutstanding "\n"
  let (p, s) := parent.allocate bytes alignment r.parent
  (p, { r with parent := s })

def doDeallocate (parent : MemoryResource w Ptr E S) (p : Ptr) (bytes alignment : BitVec w)
    (r : TestResource w S) : TestResource w S :=
  let r := { r with bytesDeallocated := r.bytesDeallocated + bytes }
  let r := { r with bytesOutstanding := r.bytesOutstanding - bytes }
  let r := r.print "deallocated " r.bytesDeallocated " bytes, "
  let r := r.print "oustanding bytes: " r.bytesOutstanding "\n"
  { r with parent := parent.deallocate p bytes alignment r.parent }

def testResource (parent : MemoryResource w Ptr E S) :
    MemoryResource w Ptr E (TestResource w S) :=
  ⟨doAllocate parent, doDeallocate parent⟩

inductive Call (w : ℕ) (Ptr : Type*) where
  | allocate (bytes alignment : BitVec w)
  | deallocate (p : Ptr) (bytes alignment : BitVec w)
deriving DecidableEq, Repr

structure Program (w : ℕ) (Ptr S : Type*) where
  resource : TestResource w S
  blocks : List (Ptr × BitVec w)

namespace Program

def start (s : S) : Program w Ptr S := ⟨{ parent := s }, []⟩

variable [DecidableEq Ptr]

/-- A call of a resource. A block that the program does not have is not returned. -/
def perform (r : MemoryResource w Ptr E (TestResource w S)) :
    Call w Ptr → Program w Ptr S → Outcome (Program w Ptr S)
  | .allocate n a, s =>
      match r.allocate n a s.resource with
      | (.ok p, t) => .ok ⟨t, (p, n) :: s.blocks⟩
      | (.error _, t) => .ok ⟨t, s.blocks⟩
  | .deallocate p n a, s =>
      if (p, n) ∈ s.blocks then .ok ⟨r.deallocate p n a s.resource, s.blocks.erase (p, n)⟩
      else .wait

end Program
end CsNotes.Allocator
