import Mathlib.Data.List.Basic

/-!
# Linked segments

A segment is followed from a pointer, node by node, to a pointer which stops it.
What a pointer is, what it means to be the node it refers to, and which pointer
comes next are parameters, so a null-terminated list, a list between two
pointers, and a list with a count beside every pointer are all segments.
-/
namespace CsNotes.Segment

variable {P A : Type*}

/-- From `p` the nodes `l` are met in order, and then a pointer with `stop`. -/
def Seg (node : P → A → P → Prop) (stop : P → Prop) : P → List A → Prop
  | p, [] => stop p
  | p, a :: l => ∃ n, node p a n ∧ Seg node stop n l

variable {node node' : P → A → P → Prop} {stop : P → Prop} {p : P} {a : A} {l : List A}

@[simp] theorem seg_nil : Seg node stop p [] ↔ stop p := Iff.rfl

@[simp] theorem seg_cons : Seg node stop p (a :: l) ↔ ∃ n, node p a n ∧ Seg node stop n l := Iff.rfl

theorem Seg.congr (h : Seg node stop p l)
    (hn : ∀ a ∈ l, ∀ p n, node p a n → node' p a n) : Seg node' stop p l := by
  induction l generalizing p with
  | nil => exact h
  | cons a l ih =>
      obtain ⟨n, ha, hl⟩ := h
      exact ⟨n, hn a (by simp) p n ha, ih hl fun b hb => hn b (by simp [hb])⟩

theorem Seg.map {B : Type*} {f : A → B} {image : P → B → P → Prop} (h : Seg node stop p l)
    (hn : ∀ a ∈ l, ∀ p n, node p a n → image p (f a) n) : Seg image stop p (l.map f) := by
  induction l generalizing p with
  | nil => exact h
  | cons a l ih =>
      obtain ⟨n, ha, hl⟩ := h
      exact ⟨n, hn a (by simp) p n ha, ih hl fun b hb => hn b (by simp [hb])⟩

theorem Seg.snoc {e n : P} (h : Seg node (· = e) p l) (ha : node e a n) :
    Seg node (· = n) p (l ++ [a]) := by
  induction l generalizing p with
  | nil =>
      cases h
      exact ⟨n, ha, rfl⟩
  | cons b l ih =>
      obtain ⟨q, hb, hl⟩ := h
      exact ⟨q, hb, ih hl⟩

theorem Seg.exists_node (h : Seg node stop p l) {b : A} (hb : b ∈ l) : ∃ q n, node q b n := by
  induction l generalizing p with
  | nil => simp at hb
  | cons a l ih =>
      obtain ⟨n, ha, hl⟩ := h
      rcases List.mem_cons.mp hb with rfl | hb
      · exact ⟨p, n, ha⟩
      · exact ih hl hb

/-- What holds of the first pointer and of the next one of every node holds of
each pointer that is followed. -/
theorem Seg.pointers {good : P → Prop} (h : Seg node stop p l) (hp : good p)
    (hn : ∀ a ∈ l, ∀ p n, node p a n → good n) :
    Seg (fun p a n => good p ∧ node p a n) stop p l := by
  induction l generalizing p with
  | nil => exact h
  | cons a l ih =>
      obtain ⟨n, ha, hl⟩ := h
      have hgood := hn a List.mem_cons_self p n ha
      exact ⟨n, ⟨hp, ha⟩, ih hl hgood fun b hb => hn b (List.mem_cons_of_mem a hb)⟩

/-- Where every pointer leads to one node with one next pointer and a stopping
pointer leads to none, the segment from a pointer is unique. -/
theorem Seg.unique (hd : ∀ p a b n k, node p a n → node p b k → a = b ∧ n = k)
    (hs : ∀ p a n, stop p → ¬ node p a n) {l' : List A} (h : Seg node stop p l)
    (h' : Seg node stop p l') : l = l' := by
  induction l generalizing p l' with
  | nil =>
      cases l' with
      | nil => rfl
      | cons b l' =>
          obtain ⟨n, hb, -⟩ := h'
          exact (hs p b n h hb).elim
  | cons a l ih =>
      obtain ⟨n, ha, hl⟩ := h
      cases l' with
      | nil => exact (hs p a n h' ha).elim
      | cons b l' =>
          obtain ⟨k, hb, hl'⟩ := h'
          obtain ⟨rfl, rfl⟩ := hd p a b n k ha hb
          rw [ih hl hl']

end CsNotes.Segment
