import Mathlib.Data.List.Nodup

/-!
# Tokens at places

Each place has a list of tokens. A step brings a new token to a place or moves
one token from a place to another, wherever in the two lists. So no token is
ever at two places, or twice at one, and none is lost.
-/
namespace CsNotes.Places

variable {P T : Type*} {f g : P → List T} {x y : T} {p q : P} {l m : List T}

/-- `m` is `l` with one more `x`. -/
def Extra (x : T) (l m : List T) : Prop := ∃ a b, l = a ++ b ∧ m = a ++ x :: b

theorem extra_cons : Extra x l (x :: l) := ⟨[], l, rfl, rfl⟩

theorem extra_append : Extra x l (l ++ [x]) := ⟨l, [], (List.append_nil l).symm, rfl⟩

theorem Extra.mem (h : Extra x l m) : y ∈ m ↔ y = x ∨ y ∈ l := by
  obtain ⟨a, b, rfl, rfl⟩ := h
  simp only [List.mem_append, List.mem_cons]
  constructor
  · rintro (h | h | h)
    · exact .inr (.inl h)
    · exact .inl h
    · exact .inr (.inr h)
  · rintro (h | h | h)
    · exact .inr (.inl h)
    · exact .inl h
    · exact .inr (.inr h)

theorem Extra.nodup (h : Extra x l m) : m.Nodup ↔ x ∉ l ∧ l.Nodup := by
  obtain ⟨a, b, rfl, rfl⟩ := h
  rw [List.nodup_middle, List.nodup_cons]

/-- No token is at two places or twice at one. -/
structure Apart (f : P → List T) : Prop where
  nodup : ∀ p, (f p).Nodup
  unique : ∀ x p q, x ∈ f p → x ∈ f q → p = q

/-- `x` comes to `q`. -/
structure Adds (f g : P → List T) (x : T) (q : P) : Prop where
  new : ∀ p, x ∉ f p
  target : Extra x (f q) (g q)
  rest : ∀ r, r ≠ q → g r = f r

/-- `x` moves from `p` to `q`. -/
structure Moves (f g : P → List T) (x : T) (p q : P) : Prop where
  ne : p ≠ q
  source : Extra x (g p) (f p)
  target : Extra x (f q) (g q)
  rest : ∀ r, r ≠ p → r ≠ q → g r = f r

theorem Adds.mem (h : Adds f g x q) {r : P} : y ∈ g r ↔ (y = x ∧ r = q) ∨ y ∈ f r := by
  by_cases hr : r = q
  · subst hr
    rw [h.target.mem]
    simp
  · rw [h.rest r hr]
    simp [hr]

theorem Adds.apart (h : Adds f g x q) (hf : Apart f) : Apart g := by
  constructor
  case nodup =>
    intro r
    by_cases hr : r = q
    · subst hr
      exact h.target.nodup.mpr ⟨h.new r, hf.nodup r⟩
    · rw [h.rest r hr]
      exact hf.nodup r
  case unique =>
    intro y r r' hy hy'
    rw [h.mem] at hy hy'
    rcases hy with ⟨rfl, rfl⟩ | hy
    · rcases hy' with ⟨-, rfl⟩ | hy'
      · rfl
      · exact (h.new r' hy').elim
    · rcases hy' with ⟨rfl, -⟩ | hy'
      · exact (h.new r hy).elim
      · exact hf.unique y r r' hy hy'

/-- The moved token is where it went, and the others are where they were. -/
theorem Moves.mem (h : Moves f g x p q) (hf : Apart f) {r : P} :
    y ∈ g r ↔ (y = x ∧ r = q) ∨ (y ≠ x ∧ y ∈ f r) := by
  have hx : x ∈ f p := h.source.mem.mpr (.inl rfl)
  by_cases hrq : r = q
  · subst hrq
    have hxr : x ∉ f r := fun hx' => h.ne (hf.unique x p r hx hx')
    rw [h.target.mem]
    by_cases hy : y = x
    · simp [hy]
    · simp [hy]
  by_cases hrp : r = p
  · subst hrp
    have hnd := h.source.nodup.mp (hf.nodup r)
    rw [h.source.mem]
    by_cases hy : y = x
    · subst hy
      simp [hnd.1, h.ne]
    · simp [hy]
  · rw [h.rest r hrp hrq]
    by_cases hy : y = x
    · subst hy
      have hyr : y ∉ f r := fun hy' => hrp (hf.unique y r p hy' hx)
      simp [hyr, hrq]
    · simp [hy]

theorem Moves.apart (h : Moves f g x p q) (hf : Apart f) : Apart g := by
  have hx : x ∈ f p := h.source.mem.mpr (.inl rfl)
  constructor
  case nodup =>
    intro r
    by_cases hrq : r = q
    · subst hrq
      exact h.target.nodup.mpr ⟨fun hx' => h.ne (hf.unique x p r hx hx'), hf.nodup r⟩
    by_cases hrp : r = p
    · subst hrp
      exact (h.source.nodup.mp (hf.nodup r)).2
    · rw [h.rest r hrp hrq]
      exact hf.nodup r
  case unique =>
    intro y r r' hy hy'
    rw [h.mem hf] at hy hy'
    rcases hy with ⟨rfl, rfl⟩ | ⟨hne, hy⟩
    · rcases hy' with ⟨-, rfl⟩ | ⟨hne, -⟩
      · rfl
      · exact (hne rfl).elim
    · rcases hy' with ⟨rfl, -⟩ | ⟨-, hy'⟩
      · exact (hne rfl).elim
      · exact hf.unique y r r' hy hy'

theorem Moves.exists_mem (h : Moves f g x p q) (hf : Apart f) :
    (∃ r, y ∈ g r) ↔ ∃ r, y ∈ f r := by
  have hx : x ∈ f p := h.source.mem.mpr (.inl rfl)
  constructor
  · rintro ⟨r, hy⟩
    rcases (h.mem hf).mp hy with ⟨rfl, -⟩ | ⟨-, hy⟩
    · exact ⟨p, hx⟩
    · exact ⟨r, hy⟩
  · rintro ⟨r, hy⟩
    by_cases hyx : y = x
    · exact ⟨q, (h.mem hf).mpr (.inl ⟨hyx, rfl⟩)⟩
    · exact ⟨r, (h.mem hf).mpr (.inr ⟨hyx, hy⟩)⟩

end CsNotes.Places
