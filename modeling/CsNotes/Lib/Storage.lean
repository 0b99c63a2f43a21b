import Mathlib.Data.Nat.Notation
import CsNotes.Lib.Interleaving

/-!
# A heap whose addresses are reused

An allocator may hand out a freed address again at once. Two objects which lived
at one address one after the other are still different objects, so every
allocation gets a number, its identity. A comparison of pointers in a program
sees addresses only. An access names the object it is meant for, and finds it
only while that very object is alive.
-/
namespace CsNotes.Storage
open Interleaving

/-- An address together with the identity of the object meant. -/
structure Ptr (Addr : Type*) where
  addr : Addr
  id : ℕ
deriving DecidableEq, Repr

/-- Live objects by address. Identities are handed out in order and never twice. -/
structure Memory (Addr Cell : Type*) where
  cell : Addr → Option (ℕ × Cell)
  allocs : ℕ
  id_lt : ∀ a x, cell a = some x → x.1 < allocs
  id_inj : ∀ a b x y, cell a = some x → cell b = some y → x.1 = y.1 → a = b

namespace Memory
variable {Addr Cell : Type*} {m : Memory Addr Cell} {p q : Ptr Addr} {a : Addr} {c d : Cell}

def empty : Memory Addr Cell where
  cell _ := none
  allocs := 0
  id_lt := by simp
  id_inj := by simp

/-- The object meant, if it is alive. -/
def read (m : Memory Addr Cell) (p : Ptr Addr) : Option Cell :=
  (m.cell p.addr).bind fun x => if x.1 = p.id then some x.2 else none

/-- Continue with the object meant; an access to a dead one is a fault. -/
def access {B : Type*} (m : Memory Addr Cell) (p : Ptr Addr) (k : Cell → Outcome B) : Outcome B :=
  match m.read p with
  | none => .fault
  | some c => k c

/-- Whatever object lives at the address. -/
def find (m : Memory Addr Cell) (a : Addr) : Option (Ptr Addr) :=
  (m.cell a).map fun x => ⟨a, x.1⟩

/-- Pointer to the next object, if it is placed at `a`. -/
def fresh (m : Memory Addr Cell) (a : Addr) : Ptr Addr := ⟨a, m.allocs⟩

/-- The object with this identity existed and has been deleted. -/
def Deleted (m : Memory Addr Cell) (id : ℕ) : Prop :=
  id < m.allocs ∧ ∀ a x, m.cell a = some x → x.1 ≠ id

theorem read_eq_some : m.read p = some c ↔ m.cell p.addr = some (p.id, c) := by
  unfold read
  cases h : m.cell p.addr with
  | none => simp
  | some x =>
      obtain ⟨i, y⟩ := x
      simp only [Option.bind_some, Option.ite_none_right_eq_some, Option.some.injEq,
        Prod.mk.injEq]

@[simp] theorem access_of_read {B : Type*} {k : Cell → Outcome B} (h : m.read p = some c) :
    m.access p k = k c := by
  rw [access, h]

theorem access_eq_ok {B : Type*} {k : Cell → Outcome B} {b : B} :
    m.access p k = .ok b ↔ ∃ c, m.read p = some c ∧ k c = .ok b := by
  unfold access
  cases m.read p <;> simp

theorem read_congr {m' : Memory Addr Cell} (h : m'.cell p.addr = m.cell p.addr) :
    m'.read p = m.read p := by
  unfold read
  rw [h]

theorem cell_ne_none_of_read (h : m.read p = some c) : m.cell p.addr ≠ none := by
  rw [read_eq_some.mp h]
  exact Option.some_ne_none _

theorem addr_ne_of_read (h : m.read p = some d) (ha : m.cell a = none) : p.addr ≠ a := by
  rintro rfl
  exact cell_ne_none_of_read h ha

theorem ptr_eq_of_read (hp : m.read p = some c) (hq : m.read q = some d)
    (h : p.addr = q.addr) : p = q := by
  have h₁ := read_eq_some.mp hp
  rw [h, read_eq_some.mp hq] at h₁
  cases p
  cases q
  simp_all

/-- A pointer to another object than the one at its address is dead. -/
theorem read_of_ne (h : m.read p = some d) (hq : q ≠ p) (ha : q.addr = p.addr) :
    m.read q = none := by
  cases hr : m.read q with
  | none => rfl
  | some c => exact (hq (ptr_eq_of_read hr h ha)).elim

theorem ptr_eq_of_id (hp : m.read p = some c) (hq : m.read q = some d) (h : p.id = q.id) :
    p = q := by
  have ha := m.id_inj _ _ _ _ (read_eq_some.mp hp) (read_eq_some.mp hq) h
  cases p
  cases q
  simp_all

theorem not_deleted_of_read (hp : m.read p = some c) : ¬ m.Deleted p.id :=
  fun h => h.2 _ _ (read_eq_some.mp hp) rfl

/-- Every identity handed out belongs to a live or to a deleted object. -/
theorem deleted_or_read {id : ℕ} (h : id < m.allocs) :
    m.Deleted id ∨ ∃ p c, p.id = id ∧ m.read p = some c := by
  by_cases hd : m.Deleted id
  · exact .inl hd
  · have hlive : ∃ a x, m.cell a = some x ∧ x.1 = id := by
      by_contra hno
      exact hd ⟨h, fun a x hx he => hno ⟨a, x, hx, he⟩⟩
    obtain ⟨a, x, hx, rfl⟩ := hlive
    exact .inr ⟨⟨a, x.1⟩, x.2, rfl, read_eq_some.mpr hx⟩

theorem find_eq_some : m.find a = some p ↔ a = p.addr ∧ ∃ c, m.read p = some c := by
  simp only [find, Option.map_eq_some_iff, read_eq_some]
  constructor
  · rintro ⟨x, hx, rfl⟩
    exact ⟨rfl, x.2, hx⟩
  · rintro ⟨rfl, c, hc⟩
    exact ⟨_, hc, rfl⟩

theorem find_of_read (h : m.read p = some c) : m.find p.addr = some p :=
  find_eq_some.mpr ⟨rfl, c, h⟩

theorem exists_read_of_cell (h : m.cell a ≠ none) : ∃ p c, p.addr = a ∧ m.read p = some c := by
  obtain ⟨x, hx⟩ := Option.ne_none_iff_exists'.mp h
  exact ⟨⟨a, x.1⟩, x.2, rfl, read_eq_some.mpr hx⟩

@[simp] theorem fresh_addr : (m.fresh a).addr = a := rfl
@[simp] theorem read_empty : (empty : Memory Addr Cell).read p = none := rfl
@[simp] theorem cell_empty : (empty : Memory Addr Cell).cell a = none := rfl

variable [DecidableEq Addr]

def alloc (m : Memory Addr Cell) (a : Addr) (c : Cell) : Memory Addr Cell where
  cell := Function.update m.cell a (some (m.allocs, c))
  allocs := m.allocs + 1
  id_lt := by
    intro b x hx
    by_cases hb : b = a
    · subst hb
      simp only [Function.update_self, Option.some.injEq] at hx
      simp [← hx]
    · rw [Function.update_of_ne hb] at hx
      exact Nat.lt_succ_of_lt (m.id_lt b x hx)
  id_inj := by
    intro b d x y hx hy hxy
    by_cases hb : b = a <;> by_cases hd : d = a
    · rw [hb, hd]
    · subst hb
      rw [Function.update_of_ne hd] at hy
      simp only [Function.update_self, Option.some.injEq] at hx
      have := m.id_lt d y hy
      simp [← hxy, ← hx] at this
    · subst hd
      rw [Function.update_of_ne hb] at hx
      simp only [Function.update_self, Option.some.injEq] at hy
      have := m.id_lt b x hx
      simp [hxy, ← hy] at this
    · rw [Function.update_of_ne hb] at hx
      rw [Function.update_of_ne hd] at hy
      exact m.id_inj b d x y hx hy hxy

/-- Overwriting the contents keeps the object. -/
def write (m : Memory Addr Cell) (p : Ptr Addr) (c : Cell) : Memory Addr Cell where
  cell := Function.update m.cell p.addr ((m.cell p.addr).map fun x => (x.1, c))
  allocs := m.allocs
  id_lt := by
    intro b x hx
    by_cases hb : b = p.addr
    · subst hb
      simp only [Function.update_self, Option.map_eq_some_iff] at hx
      obtain ⟨y, hy, rfl⟩ := hx
      exact m.id_lt _ y hy
    · rw [Function.update_of_ne hb] at hx
      exact m.id_lt b x hx
  id_inj := by
    have h : ∀ b x, Function.update m.cell p.addr ((m.cell p.addr).map fun x => (x.1, c)) b =
        some x → ∃ y, m.cell b = some y ∧ y.1 = x.1 := by
      intro b x hx
      by_cases hb : b = p.addr
      · subst hb
        simp only [Function.update_self, Option.map_eq_some_iff] at hx
        obtain ⟨y, hy, rfl⟩ := hx
        exact ⟨y, hy, rfl⟩
      · rw [Function.update_of_ne hb] at hx
        exact ⟨x, hx, rfl⟩
    intro b d x y hx hy hxy
    obtain ⟨x', hx', ex⟩ := h b x hx
    obtain ⟨y', hy', ey⟩ := h d y hy
    exact m.id_inj b d x' y' hx' hy' (by rw [ex, ey, hxy])

def free (m : Memory Addr Cell) (p : Ptr Addr) : Memory Addr Cell where
  cell := Function.update m.cell p.addr none
  allocs := m.allocs
  id_lt := by
    intro b x hx
    by_cases hb : b = p.addr
    · subst hb
      simp at hx
    · rw [Function.update_of_ne hb] at hx
      exact m.id_lt b x hx
  id_inj := by
    intro b d x y hx hy
    by_cases hb : b = p.addr
    · subst hb
      simp at hx
    by_cases hd : d = p.addr
    · subst hd
      simp at hy
    rw [Function.update_of_ne hb] at hx
    rw [Function.update_of_ne hd] at hy
    exact m.id_inj b d x y hx hy

theorem cell_alloc : (m.alloc a c).cell = Function.update m.cell a (some (m.allocs, c)) := rfl

theorem cell_write : (m.write p c).cell =
    Function.update m.cell p.addr ((m.cell p.addr).map fun x => (x.1, c)) := rfl

theorem cell_free : (m.free p).cell = Function.update m.cell p.addr none := rfl

/-- The two heaps may differ at `a` only. -/
def EqOff (a : Addr) (m m' : Memory Addr Cell) : Prop := ∀ b, b ≠ a → m'.cell b = m.cell b

omit [DecidableEq Addr] in
theorem EqOff.read {m' : Memory Addr Cell} (h : EqOff a m m') (hp : p.addr ≠ a) :
    m'.read p = m.read p :=
  read_congr (h p.addr hp)

omit [DecidableEq Addr] in
theorem EqOff.refl (a : Addr) (m : Memory Addr Cell) : EqOff a m m := fun _ _ => rfl

theorem eqOff_alloc : EqOff a m (m.alloc a c) := fun _ hb => by
  rw [cell_alloc, Function.update_of_ne hb]

theorem eqOff_write : EqOff p.addr m (m.write p c) := fun _ hb => by
  rw [cell_write, Function.update_of_ne hb]

theorem eqOff_free : EqOff p.addr m (m.free p) := fun _ hb => by
  rw [cell_free, Function.update_of_ne hb]

@[simp] theorem read_alloc_fresh : (m.alloc a c).read (m.fresh a) = some c :=
  read_eq_some.mpr (by simp [cell_alloc, fresh])

theorem read_write_self (h : m.read p = some d) : (m.write p c).read p = some c := by
  rw [read_eq_some] at h ⊢
  simp [cell_write, h]

theorem read_alloc (ha : m.cell a = none) :
    (m.alloc a c).read q = if q = m.fresh a then some c else m.read q := by
  by_cases hq : q.addr = a
  · subst hq
    by_cases hf : q = m.fresh q.addr
    · rw [if_pos hf, hf]
      exact read_alloc_fresh
    · rw [if_neg hf]
      have hr : m.read q = none := by
        unfold read
        rw [ha]
        rfl
      rw [hr]
      exact read_of_ne read_alloc_fresh hf rfl
  · have hf : q ≠ m.fresh a := by
      rintro rfl
      exact hq rfl
    rw [if_neg hf]
    exact eqOff_alloc.read hq

theorem read_write (h : m.read p = some d) :
    (m.write p c).read q = if q = p then some c else m.read q := by
  by_cases hq : q = p
  · rw [if_pos hq, hq]
    exact read_write_self h
  · rw [if_neg hq]
    by_cases ha : q.addr = p.addr
    · rw [read_of_ne h hq ha]
      exact read_of_ne (read_write_self h) hq ha
    · exact eqOff_write.read ha

theorem exists_read_write (h : m.read p = some d) : ∃ d', (m.write q c).read p = some d' := by
  by_cases ha : p.addr = q.addr
  · rw [read_eq_some] at h
    refine ⟨c, ?_⟩
    rw [read_eq_some, cell_write, ← ha, Function.update_self, h]
    rfl
  · exact ⟨d, (eqOff_write.read ha).trans h⟩

theorem read_free (h : m.read p = some d) :
    (m.free p).read q = if q = p then none else m.read q := by
  by_cases ha : q.addr = p.addr
  · have hr : (m.free p).read q = none := by
      unfold read
      rw [cell_free, ha, Function.update_self]
      rfl
    rw [hr]
    by_cases hq : q = p
    · rw [if_pos hq]
    · rw [if_neg hq, read_of_ne h hq ha]
  · have hq : q ≠ p := by
      rintro rfl
      exact ha rfl
    rw [if_neg hq]
    exact eqOff_free.read ha

theorem cell_write_eq_none {b : Addr} : (m.write p c).cell b = none ↔ m.cell b = none := by
  by_cases hb : b = p.addr
  · subst hb
    simp [cell_write]
  · simp [cell_write, Function.update_of_ne hb]

/-- What is deleted is never alive again: identities are not reused. -/
theorem Deleted.alloc {id : ℕ} (h : m.Deleted id) : (m.alloc a c).Deleted id := by
  refine ⟨Nat.lt_succ_of_lt h.1, fun b x hx => ?_⟩
  rw [cell_alloc] at hx
  by_cases hb : b = a
  · subst hb
    simp only [Function.update_self, Option.some.injEq] at hx
    rw [← hx]
    exact (Nat.ne_of_lt h.1).symm
  · rw [Function.update_of_ne hb] at hx
    exact h.2 b x hx

theorem Deleted.write {id : ℕ} (h : m.Deleted id) : (m.write p c).Deleted id := by
  refine ⟨h.1, fun b x hx => ?_⟩
  rw [cell_write] at hx
  by_cases hb : b = p.addr
  · subst hb
    simp only [Function.update_self, Option.map_eq_some_iff] at hx
    obtain ⟨y, hy, rfl⟩ := hx
    exact h.2 _ y hy
  · rw [Function.update_of_ne hb] at hx
    exact h.2 b x hx

theorem Deleted.free {id : ℕ} (h : m.Deleted id) : (m.free p).Deleted id := by
  refine ⟨h.1, fun b x hx => ?_⟩
  rw [cell_free] at hx
  by_cases hb : b = p.addr
  · subst hb
    simp at hx
  · rw [Function.update_of_ne hb] at hx
    exact h.2 b x hx

/-- What holds of every live object. -/
def All (P : Cell → Prop) (m : Memory Addr Cell) : Prop := ∀ p c, m.read p = some c → P c

theorem All.alloc {P : Cell → Prop} (h : m.All P) (hc : P c) : (m.alloc a c).All P := by
  intro q d hd
  by_cases hq : q.addr = a
  · rw [read_eq_some, cell_alloc, hq, Function.update_self] at hd
    exact (Prod.mk.inj (Option.some.inj hd)).2 ▸ hc
  · rw [eqOff_alloc.read hq] at hd
    exact h q d hd

theorem All.write {P : Cell → Prop} (h : m.All P) (hc : P c) : (m.write p c).All P := by
  intro q d hd
  by_cases hq : q.addr = p.addr
  · rw [read_eq_some, cell_write, hq, Function.update_self] at hd
    obtain ⟨x, -, hx⟩ := Option.map_eq_some_iff.mp hd
    exact (Prod.mk.inj hx).2 ▸ hc
  · rw [eqOff_write.read hq] at hd
    exact h q d hd

theorem All.free {P : Cell → Prop} (h : m.All P) : (m.free p).All P := by
  intro q d hd
  by_cases hq : q.addr = p.addr
  · rw [read_eq_some, cell_free, hq, Function.update_self] at hd
    cases hd
  · rw [eqOff_free.read hq] at hd
    exact h q d hd

end Memory
end CsNotes.Storage
