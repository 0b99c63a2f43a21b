import Mathlib.Data.List.Nodup
import CsNotes.Lib.Storage

/-!
# A heap which is used in the order of a queue

Objects are deleted in the order in which they were allocated, so those alive
have consecutive identities. The window lists them, the oldest first.
-/
namespace CsNotes.Storage

variable {Addr Cell : Type*} {m : Memory Addr Cell} {d : ℕ} {l : List (Ptr Addr)}
variable {p q : Ptr Addr} {a : Addr} {c : Cell}

/-- `d` objects were deleted, and `l` are alive. -/
structure Window (m : Memory Addr Cell) (d : ℕ) (l : List (Ptr Addr)) : Prop where
  live : ∀ a, m.cell a = none ↔ a ∉ l.map Ptr.addr
  nodup : (l.map Ptr.addr).Nodup
  ids : l.map Ptr.id = List.range' d l.length
  allocs : m.allocs = d + l.length

namespace Window

theorem empty : Window (Memory.empty : Memory Addr Cell) 0 [] :=
  ⟨fun _ => by simp, List.nodup_nil, rfl, rfl⟩

/-- Distinct objects of the window are at distinct addresses. -/
theorem addr_ne (h : Window m d l) (hp : p ∈ l) (hq : q ∈ l) (hne : p ≠ q) : p.addr ≠ q.addr :=
  fun he => hne (List.inj_on_of_nodup_map h.nodup hp hq he)

theorem nodup_self (h : Window m d l) : l.Nodup := .of_map _ h.nodup

theorem cell_eq_none (h : Window m d []) (a : Addr) : m.cell a = none :=
  (h.live a).mpr (by simp)

/-- The number of an object is its place in the order of all allocations. -/
theorem id_eq (l₁ : List (Ptr Addr)) {l₂ : List (Ptr Addr)} (h : Window m d (l₁ ++ p :: l₂)) :
    p.id = d + l₁.length := by
  have hids := congrArg (fun l => l[l₁.length]?) h.ids
  simp only [List.map_append, List.map_cons, List.length_append, List.length_cons] at hids
  rw [List.getElem?_append_right (by simp), List.getElem?_range' (by omega)] at hids
  simpa using hids

theorem id_succ {l₁ l₂ : List (Ptr Addr)} (h : Window m d (l₁ ++ p :: q :: l₂)) :
    q.id = p.id + 1 := by
  have hp := h.id_eq l₁
  rw [List.append_cons] at h
  have hq := h.id_eq (l₁ ++ [p])
  rw [hq, hp, List.length_append, List.length_singleton, Nat.add_assoc]

theorem id_lt {l₁ l₂ l₃ : List (Ptr Addr)} (h : Window m d (l₁ ++ p :: (l₂ ++ q :: l₃))) :
    p.id < q.id := by
  have hp := h.id_eq l₁
  rw [← List.cons_append, ← List.append_assoc] at h
  have hq := h.id_eq (l₁ ++ p :: l₂)
  rw [hq, hp, List.length_append, List.length_cons]
  omega

variable [DecidableEq Addr]

theorem alloc (h : Window m d l) (ha : m.cell a = none) (c : Cell) :
    Window (m.alloc a c) d (l ++ [m.fresh a]) := by
  constructor
  case live =>
    intro b
    rw [Memory.cell_alloc, List.map_append, List.mem_append]
    by_cases hb : b = a
    · subst hb
      simp
    · rw [Function.update_of_ne hb, h.live b]
      simp [hb]
  case nodup =>
    have hnot := (h.live a).mp ha
    rw [List.map_append, List.nodup_append]
    refine ⟨h.nodup, by simp, fun b hb e he heq => hnot ?_⟩
    have hea : e = a := by simpa using he
    rwa [← hea, ← heq]
  case ids =>
    rw [List.map_append, h.ids, List.length_append, List.range'_append_1.symm]
    simp [Memory.fresh, h.allocs]
  case allocs =>
    change m.allocs + 1 = _
    rw [h.allocs, List.length_append]
    rfl

theorem write (h : Window m d l) (p : Ptr Addr) (c : Cell) : Window (m.write p c) d l := by
  constructor
  case live =>
    intro b
    rw [Memory.cell_write_eq_none]
    exact h.live b
  case nodup => exact h.nodup
  case ids => exact h.ids
  case allocs => exact h.allocs

theorem free (h : Window m d (p :: l)) : Window (m.free p) (d + 1) l := by
  have hnd := h.nodup
  rw [List.map_cons, List.nodup_cons] at hnd
  have hids := h.ids
  rw [List.map_cons, List.length_cons, List.range'_succ, List.cons.injEq] at hids
  constructor
  case live =>
    intro b
    rw [Memory.cell_free]
    by_cases hb : b = p.addr
    · subst hb
      simp [hnd.1]
    · rw [Function.update_of_ne hb, h.live b, List.map_cons, List.mem_cons]
      simp [hb]
  case nodup => exact hnd.2
  case ids => exact hids.2
  case allocs =>
    change m.allocs = _
    rw [h.allocs, List.length_cons]
    omega

theorem read_alloc (h : Window m d l) (ha : m.cell a = none) (hq : q ∈ l) :
    (m.alloc a c).read q = m.read q := by
  refine Memory.eqOff_alloc.read ?_
  rintro rfl
  exact (h.live _).mp ha (List.mem_map_of_mem hq)

theorem read_write (h : Window m d l) (hp : p ∈ l) (hq : q ∈ l) (hne : q ≠ p) :
    (m.write p c).read q = m.read q :=
  Memory.eqOff_write.read (h.addr_ne hq hp hne)

theorem read_free (h : Window m d (p :: l)) (hq : q ∈ l) : (m.free p).read q = m.read q := by
  refine Memory.eqOff_free.read (h.addr_ne (List.mem_cons_of_mem p hq) List.mem_cons_self ?_)
  rintro rfl
  exact (List.nodup_cons.mp h.nodup_self).1 hq

end Window
end CsNotes.Storage
