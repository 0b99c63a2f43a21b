import CsNotes.Lib.Interleaving

/-!
# Refinement of interleaved programs

A program refines another if every step of it is a step of the other one, or is
not seen there at all. Then every state that it reaches is related to one which
the other program reaches, so that what is known of that one carries over, and no
step of it is a fault.
-/
namespace CsNotes.Refinement
open Interleaving

variable {Tid O S L O' S' L' : Type*} [DecidableEq Tid]

structure Refines (exec : Code Tid O S L) (init : Config Tid S L → Prop)
    (exec' : Code Tid O' S' L') (init' : Config Tid S' L' → Prop)
    (rel : Config Tid S L → Config Tid S' L' → Prop) : Prop where
  start : ∀ c, init c → ∃ c', init' c' ∧ rel c c'
  step : ∀ c c' t o, Reach exec init c → Reach exec' init' c' → rel c c' →
    (c.advance exec t o).Sat fun d =>
      rel d c' ∨ ∃ o' d', c'.advance exec' t o' = .ok d' ∧ rel d d'

variable {exec : Code Tid O S L} {init : Config Tid S L → Prop}
variable {exec' : Code Tid O' S' L'} {init' : Config Tid S' L' → Prop}
variable {rel : Config Tid S L → Config Tid S' L' → Prop} {c : Config Tid S L}

theorem Refines.holds (h : Refines exec init exec' init' rel) (hc : Reach exec init c) :
    ∃ c', Reach exec' init' c' ∧ rel c c' := by
  induction hc with
  | start hi =>
      obtain ⟨c', hi', hrel⟩ := h.start _ hi
      exact ⟨c', .start hi', hrel⟩
  | @step c d t o hc _ hd ih =>
      obtain ⟨c', hc', hrel⟩ := ih
      rcases (h.step c c' t o hc hc' hrel).of_ok hd with hrel' | ⟨o', d', hd', hrel'⟩
      · exact ⟨c', hc', hrel'⟩
      · exact ⟨d', .step hc' trivial hd', hrel'⟩

theorem Refines.safe (h : Refines exec init exec' init' rel) (hc : Reach exec init c) (t : Tid)
    (o : O) : c.advance exec t o ≠ .fault := by
  obtain ⟨c', hc', hrel⟩ := h.holds hc
  exact (h.step c c' t o hc hc' hrel).ne_fault

end CsNotes.Refinement
