import Mathlib.Data.Nat.Notation
import CsNotes.Lib.Interleaving

/-!
# One thread running alone

All other threads are stopped where they are. A bound says how many steps the
thread needs at most until it stops by itself, and how many of those are of a
kind that is counted, whatever free choices among the allowed ones are made. It
is proved backwards, step by step.

Where no choice matters, the thread passes through the same control points in
every such run, and `Passes` lists them.
-/
namespace CsNotes.Interleaving

variable {Tid O S L : Type*} [DecidableEq Tid]

/-- Run `t` alone on these choices until `stop`, and count the steps `counted`. -/
def Config.alone (exec : Code Tid O S L) (stop counted : L → Bool) (t : Tid) :
    List O → Config Tid S L → Outcome (Config Tid S L × ℕ)
  | [], c => if stop (c.pc t) then .ok (c, 0) else .wait
  | o :: os, c =>
      if stop (c.pc t) then .ok (c, 0)
      else (c.advance exec t o).bind fun d =>
        (d.alone exec stop counted t os).map fun r => (r.1, r.2 + (counted (c.pc t)).toNat)

/-- With allowed choices for `k` steps, `t` stops and makes at most `n` counted ones. -/
def Stops (exec : Code Tid O S L) (stop counted : L → Bool) (allowed : O → Prop) (t : Tid)
    (n k : ℕ) (c : Config Tid S L) : Prop :=
  ∀ os : List O, k ≤ os.length → (∀ o ∈ os, allowed o) →
    ∃ d m, c.alone exec stop counted t os = .ok (d, m) ∧ stop (d.pc t) = true ∧ m ≤ n

namespace Stops
variable {exec : Code Tid O S L} {stop counted : L → Bool} {allowed : O → Prop} {t : Tid}
variable {n k n' k' : ℕ} {c : Config Tid S L}

theorem done (h : stop (c.pc t) = true) : Stops exec stop counted allowed t 0 0 c := by
  intro os _ _
  refine ⟨c, 0, ?_, h, Nat.le_refl 0⟩
  cases os <;> simp only [Config.alone, h, if_true]

theorem mono (h : Stops exec stop counted allowed t n k c) (hn : n ≤ n') (hk : k ≤ k') :
    Stops exec stop counted allowed t n' k' c := by
  intro os hos hall
  obtain ⟨d, m, hd, hs, hm⟩ := h os (Nat.le_trans hk hos) hall
  exact ⟨d, m, hd, hs, Nat.le_trans hm hn⟩

theorem step (h : ∀ o, allowed o → ∃ d, c.advance exec t o = .ok d ∧
    Stops exec stop counted allowed t n k d) :
    Stops exec stop counted allowed t (n + (counted (c.pc t)).toNat) (k + 1) c := by
  intro os hos hall
  by_cases hstop : stop (c.pc t) = true
  · exact (done hstop).mono (Nat.zero_le _) (Nat.zero_le _) os hos hall
  cases os with
  | nil => simp at hos
  | cons o os =>
      obtain ⟨d, hd, hrest⟩ := h o (hall o List.mem_cons_self)
      obtain ⟨e, m, he, hs, hm⟩ := hrest os (by simpa using hos)
        fun o' ho' => hall o' (List.mem_cons_of_mem o ho')
      refine ⟨e, m + (counted (c.pc t)).toNat, ?_, hs, by omega⟩
      simp only [Config.alone, hstop, hd, Outcome.bind, he, Outcome.map]
      rfl

theorem of_rank {P : Config Tid S L → Prop} (rank : Config Tid S L → ℕ)
    (h : ∀ c, P c → stop (c.pc t) = true ∨ ∀ o, allowed o →
      ∃ d, c.advance exec t o = .ok d ∧ P d ∧ rank d < rank c) (hc : P c) :
    Stops exec stop (fun _ => false) allowed t 0 (rank c + 1) c := by
  induction hn : rank c using Nat.strongRecOn generalizing c with
  | ind n ih =>
      rcases h c hc with hstop | hstep
      · exact (done hstop).mono (Nat.le_refl 0) (Nat.zero_le _)
      · refine step (n := 0) (k := n) fun o ho => ?_
        obtain ⟨d, hd, hP, hlt⟩ := hstep o ho
        rw [hn] at hlt
        exact ⟨d, hd, (ih (rank d) hlt hP rfl).mono (Nat.le_refl 0) hlt⟩

end Stops

/-- Steps of `t`, as the program computes them. -/
inductive Steps (exec : Code Tid O S L) (t : Tid) : S → L → S → L → Prop
  | refl {s : S} {l : L} : Steps exec t s l s l
  | step {s s' s'' : S} {l l' l'' : L} {o : O} : exec t o s l = .ok (s', l') →
      Steps exec t s' l' s'' l'' → Steps exec t s l s'' l''

theorem ReachIf.steps {exec : Code Tid O S L} {init : Config Tid S L → Prop} {t : Tid}
    {c : Config Tid S L} {s : S} {l l' : L} (hc : Reach exec init c) (hl : c.pc t = l)
    (h : Steps exec t c.shared l s l') : Reach exec init ⟨s, Function.update c.pc t l'⟩ := by
  generalize hs : c.shared = s₀ at h
  induction h generalizing c with
  | refl =>
      rw [← hs, ← hl, Function.update_eq_self]
      exact hc
  | @step s₀ s' _ l l' _ o hx _ ih =>
      rw [← hs, ← hl] at hx
      have hnext := ih (hc.next hx) (Function.update_self ..) rfl
      rwa [Function.update_idem] at hnext

/-- `t` alone passes through these control points until it stops. -/
inductive Passes (exec : Code Tid O S L) (stop : L → Prop) (t : Tid) :
    Config Tid S L → List L → Config Tid S L → Prop
  | done {c : Config Tid S L} : stop (c.pc t) → Passes exec stop t c [] c
  | step {c d e : Config Tid S L} {o : O} {path : List L} : ¬ stop (c.pc t) →
      c.advance exec t o = .ok d → Passes exec stop t d path e →
      Passes exec stop t c (c.pc t :: path) e

namespace Passes
variable {exec : Code Tid O S L} {stop : L → Prop} {t : Tid} {c d e : Config Tid S L}
variable {path path' : List L}

theorem next {o : O} {r : S × L} (hs : ¬ stop (c.pc t))
    (hx : exec t o c.shared (c.pc t) = .ok r)
    (h : Passes exec stop t ⟨r.1, Function.update c.pc t r.2⟩ path e) :
    Passes exec stop t c (c.pc t :: path) e := by
  apply Passes.step hs _ h (o := o)
  unfold Config.advance
  rw [hx]
  rfl

theorem unique (hexec : ∀ s l o o', ¬ stop l → exec t o s l = exec t o' s l)
    (h : Passes exec stop t c path d) (h' : Passes exec stop t c path' e) :
    path = path' ∧ d = e := by
  induction h generalizing path' e with
  | done hs =>
      cases h' with
      | done => exact ⟨rfl, rfl⟩
      | step hns => exact (hns hs).elim
  | @step c d f o path hns hd _ ih =>
      cases h' with
      | done hs => exact (hns hs).elim
      | @step _ d' _ o' path' _ hd' h' =>
          unfold Config.advance at hd hd'
          rw [hexec _ _ o o' hns] at hd
          cases hd.symm.trans hd'
          obtain ⟨rfl, rfl⟩ := ih h'
          exact ⟨rfl, rfl⟩

end Passes
end CsNotes.Interleaving
