import CsNotes.Lib.Storage

/-!
# Data races

Two threads race if their next steps access one location, one of them to change
it, and not both by atomic operations. What each step accesses is declared beside
the program; a footprint says that nothing changes which was not declared.

The proof rule assigns a permission to every location, which may change from
state to state: one thread may do anything with it, or all may read it, or all
may use atomic operations.
-/
namespace CsNotes.Races
open Interleaving Storage

structure Access (Loc : Type*) where
  loc : Loc
  isWrite : Bool
  isAtomic : Bool := false
deriving DecidableEq, Repr

variable {Tid O S L Loc : Type*}

namespace Access

def reads (x : Loc) : Access Loc := ⟨x, false, false⟩

def writes (x : Loc) : Access Loc := ⟨x, true, false⟩

def loads (x : Loc) : Access Loc := ⟨x, false, true⟩

/-- An atomic operation that may change the location. -/
def updates (x : Loc) : Access Loc := ⟨x, true, true⟩

def Conflicts (x y : Access Loc) : Prop :=
  x.loc = y.loc ∧ (x.isWrite = true ∨ y.isWrite = true) ∧ ¬ (x.isAtomic = true ∧ y.isAtomic = true)

theorem Conflicts.symm {x y : Access Loc} (h : x.Conflicts y) : y.Conflicts x :=
  ⟨h.1.symm, h.2.1.symm, fun ⟨hy, hx⟩ => h.2.2 ⟨hx, hy⟩⟩

end Access

def Race (accesses : S → L → List (Access Loc)) (c : Config Tid S L) (t u : Tid) : Prop :=
  t ≠ u ∧ ∃ x ∈ accesses c.shared (c.pc t), ∃ y ∈ accesses c.shared (c.pc u), x.Conflicts y

theorem Race.symm {accesses : S → L → List (Access Loc)} {c : Config Tid S L} {t u : Tid}
    (h : Race accesses c t u) : Race accesses c u t := by
  obtain ⟨hne, x, hx, y, hy, hxy⟩ := h
  exact ⟨hne.symm, y, hy, x, hx, hxy.symm⟩

def RaceFree (accesses : S → L → List (Access Loc)) (c : Config Tid S L) : Prop :=
  ∀ t u, ¬ Race accesses c t u

/-- Some of these accesses may change the location. -/
def Changed (l : List (Access Loc)) (x : Loc) : Prop := ∃ a ∈ l, a.loc = x ∧ a.isWrite = true

/-- A step leaves alone what it does not declare to change; `kept` says of two states and
a location that the second state still has there what the first one has. -/
def Footprint (exec : Code Tid O S L) (accesses : S → L → List (Access Loc))
    (kept : S → S → Loc → Prop) : Prop :=
  ∀ t o s l r, exec t o s l = .ok r → ∀ x, kept s r.1 x ∨ Changed (accesses s l) x

section Fields
variable {Addr Cell Field : Type*} {agree : Field → Cell → Cell → Prop}
variable {m : Memory Addr Cell} {p : Ptr Addr} {n : Cell} {x : Ptr Addr × Field}
variable {P : Ptr Addr × Field → Prop}

/-- The object is still alive, and the field agrees with what it was. -/
def Kept (agree : Field → Cell → Cell → Prop) (m m' : Memory Addr Cell) (x : Ptr Addr × Field) :
    Prop :=
  ∀ n, m.read x.1 = some n → ∃ n', m'.read x.1 = some n' ∧ agree x.2 n n'

variable (hrefl : ∀ f n, agree f n n)
include hrefl

theorem kept_refl (m : Memory Addr Cell) : Kept agree m m x := fun n hn => ⟨n, hn, hrefl _ n⟩

variable [DecidableEq Addr]

theorem kept_alloc {a : Addr} {c : Cell} (ha : m.cell a = none) :
    Kept agree m (m.alloc a c) x := by
  intro n hn
  exact ⟨n, (Memory.eqOff_alloc.read (Memory.addr_ne_of_read hn ha)).trans hn, hrefl _ n⟩

theorem kept_write (hn : m.read p = some n) {n' : Cell}
    (h : ∀ f, agree f n n' ∨ P (p, f)) : Kept agree m (m.write p n') x ∨ P x := by
  obtain ⟨q, f⟩ := x
  by_cases hq : q = p
  · subst hq
    refine (h f).imp_left fun hf k hk => ?_
    obtain rfl := Option.some.inj (hn.symm.trans hk)
    exact ⟨n', Memory.read_write_self hn, hf⟩
  · refine .inl fun k hk => ⟨k, ?_, hrefl f k⟩
    rw [Memory.read_write hn, if_neg hq, hk]

theorem kept_free (hn : m.read p = some n) (h : ∀ f, P (p, f)) :
    Kept agree m (m.free p) x ∨ P x := by
  obtain ⟨q, f⟩ := x
  by_cases hq : q = p
  · subst hq
    exact .inr (h f)
  · refine .inl fun k hk => ⟨k, ?_, hrefl f k⟩
    rw [Memory.read_free hn, if_neg hq, hk]

end Fields

inductive Permission (Tid : Type*) where
  | exclusive (t : Tid)
  | readOnly
  | atomicOnly
deriving DecidableEq, Repr

namespace Permission

def Allows (t : Tid) (x : Access Loc) : Permission Tid → Prop
  | exclusive u => t = u
  | readOnly => x.isWrite = false
  | atomicOnly => x.isAtomic = true

theorem allows_congr {Loc' : Type*} {p : Permission Tid} {x : Access Loc} {y : Access Loc'}
    {t : Tid} (hw : x.isWrite = y.isWrite) (ha : x.isAtomic = y.isAtomic) :
    p.Allows t x ↔ p.Allows t y := by
  cases p with
  | exclusive u => exact Iff.rfl
  | readOnly => exact iff_of_eq (congrArg (· = false) hw)
  | atomicOnly => exact iff_of_eq (congrArg (· = true) ha)

theorem not_conflicts {p : Permission Tid} {x y : Access Loc} {t u : Tid} (htu : t ≠ u)
    (hx : p.Allows t x) (hy : p.Allows u y) : ¬ x.Conflicts y := by
  rintro ⟨-, hw, ha⟩
  cases p with
  | exclusive v => exact htu (Eq.trans hx (Eq.symm hy))
  | readOnly =>
      unfold Allows at hx hy
      rw [hx, hy] at hw
      simp at hw
  | atomicOnly => exact ha ⟨hx, hy⟩

/-- If every next access is allowed, no threads race. -/
theorem raceFree {accesses : S → L → List (Access Loc)} {c : Config Tid S L}
    (permission : Loc → Permission Tid)
    (h : ∀ t, ∀ x ∈ accesses c.shared (c.pc t), (permission x.loc).Allows t x) :
    RaceFree accesses c := by
  rintro t u ⟨htu, x, hx, y, hy, hxy⟩
  have hy' := h u y hy
  rw [← hxy.1] at hy'
  exact not_conflicts htu (h t x hx) hy' hxy

end Permission
end CsNotes.Races
