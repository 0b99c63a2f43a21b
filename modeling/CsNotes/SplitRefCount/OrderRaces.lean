import CsNotes.SplitRefCount.OrderSteps

/-!
# Runs of the stack with split reference counts that have a race

Two threads count themselves in on the same node, and one of them unlinks it. Either
may be the one to delete it. It must know what the other has done there, which the
other has released with its operation on the internal count at best.
-/
namespace CsNotes.SplitRefCount
open Interleaving Storage History Races ReleaseAcquire

namespace Ordered
variable {Tid Addr A : Type*} [DecidableEq Tid] [DecidableEq Addr]
variable {movedFrom : A → A} {orders : Orders} {t u : Tid} {p : Ptr Addr} {e : ℤ} {k : ℤ}
variable {o : Oracle Addr A} {s : Shared Tid Addr A} {head next old : CountedNodePtr Addr} {x : A}

theorem lawful (movedFrom : A → A) (orders : Orders) :
    (program movedFrom orders : Program Tid (Oracle Addr A) (Shared Tid Addr A) (PC Addr A)
      (CountedNodePtr Addr) (Ptr Addr × Field) (Ptr Addr)).Lawful where
  withValue_value _ := rfl
  loads := by
    intro t o s pc order r hv h
    cases pc with
    | loadNext v p =>
        obtain ⟨n, -, h⟩ := Memory.access_eq_ok.mp h
        cases h
        rfl
    | pushCas v p =>
        obtain ⟨n, hn, h⟩ := Memory.access_eq_ok.mp h
        rcases hv with hv | ⟨-, hv⟩
        · cases hv
        · have hfail : ¬ (s.head = n.next ∧ o.spurious = false) := by
            simpa using (succeeds_pushCas v hn).symm.trans hv
          rw [if_neg hfail] at h
          cases h
          rfl
    | loadHead =>
        cases h
        rfl
    | count old =>
        rcases hv with hv | ⟨-, hv⟩
        · cases hv
        · have hne : s.head ≠ old := of_decide_eq_false hv
          change SplitRefCount.exec movedFrom t o s (.count old) = _ at h
          simp only [SplitRefCount.exec, if_neg hne] at h
          cases h
          rfl
    | unlink old p next =>
        rcases hv with hv | ⟨-, hv⟩
        · cases hv
        · have hne : s.head ≠ old := of_decide_eq_false hv
          change SplitRefCount.exec movedFrom t o s (.unlink old p next) = _ at h
          simp only [SplitRefCount.exec, if_neg hne] at h
          cases h
          rfl
    | _ => rcases hv with hv | ⟨⟨_, hv⟩, -⟩ <;> cases hv

/-- The node `p` is the only one, or the last one that was. -/
structure Single (p : Ptr Addr) (head : CountedNodePtr Addr) (k : ℤ) (s : Shared Tid Addr A) :
    Prop where
  head : s.head = head
  read : ∃ x, s.mem.read p = some ⟨x, {}, k⟩

theorem steps_push (movedFrom : A → A) (t : Tid) (a : Addr) (x : A) : ∃ s : Shared Tid Addr A,
    Steps (SplitRefCount.exec movedFrom) t SplitRefCount.start.shared .idle s .idle ∧
      Single ⟨a, 0⟩ ⟨1, some a⟩ 0 s := by
  let o : Oracle Addr A := ⟨.push x, a, false⟩
  let s₀ : Shared Tid Addr A := SplitRefCount.start.shared
  let m₁ : Memory Addr (Node Addr A) := s₀.mem.alloc a { data := x }
  have h₁ : SplitRefCount.exec movedFrom t o s₀ (.newNode x) =
      .ok ({ s₀ with mem := m₁ }, .loadNext x ⟨a, 0⟩) := rfl
  have hn : m₁.read ⟨a, 0⟩ = some ⟨x, {}, 0⟩ := Memory.read_alloc_fresh
  let m₂ : Memory Addr (Node Addr A) := m₁.write ⟨a, 0⟩ ⟨x, {}, 0⟩
  have h₂ : SplitRefCount.exec movedFrom t o { s₀ with mem := m₁ } (.loadNext x ⟨a, 0⟩) =
      .ok ({ s₀ with mem := m₂ }, .pushCas x ⟨a, 0⟩) := Memory.access_of_read hn
  have hn' : m₂.read ⟨a, 0⟩ = some ⟨x, {}, 0⟩ := Memory.read_write_self hn
  have h₃ : SplitRefCount.exec movedFrom t o { s₀ with mem := m₂ } (.pushCas x ⟨a, 0⟩) =
      .ok ({ s₀ with mem := m₂, head := ⟨1, some a⟩, history := [.push t x] }, .idle) :=
    (Memory.access_of_read hn').trans (if_pos ⟨rfl, rfl⟩)
  exact ⟨_, .step (o := o) rfl (.step h₁ (.step h₂ (.step h₃ .refl))), rfl, x, hn'⟩

theorem steps_count (movedFrom : A → A) (t : Tid) (hs : Single p ⟨e, some p.addr⟩ k s) :
    ∃ s', Steps (SplitRefCount.exec movedFrom) t s .idle s' (.readNext ⟨e + 1, some p.addr⟩ p) ∧
      Single p ⟨e + 1, some p.addr⟩ k s' := by
  obtain ⟨hhead, x, hx⟩ := hs
  let o : Oracle Addr A := ⟨.pop, p.addr, false⟩
  have h₁ : SplitRefCount.exec movedFrom t o s .loadHead = .ok (s, .count ⟨e, some p.addr⟩) := by
    rw [← hhead]
    rfl
  have h₂ : SplitRefCount.exec movedFrom t o s (.count ⟨e, some p.addr⟩) =
      .ok ({ s with head := ⟨e + 1, some p.addr⟩ }, .readNext ⟨e + 1, some p.addr⟩ p) := by
    simp only [SplitRefCount.exec, if_pos hhead, Memory.find_of_read hx]
  exact ⟨_, .step (o := o) rfl (.step h₁ (.step h₂ .refl)), rfl, x, hx⟩

theorem exec_readNext (movedFrom : A → A) (t : Tid) (o : Oracle Addr A)
    (old : CountedNodePtr Addr) (hs : Single p head k s) :
    SplitRefCount.exec movedFrom t o s (.readNext old p) = .ok (s, .unlink old p {}) := by
  obtain ⟨-, x, hx⟩ := hs
  exact Memory.access_of_read hx

theorem exec_unlink (movedFrom : A → A) (t : Tid) (o : Oracle Addr A)
    (next : CountedNodePtr Addr) (hs : Single p head k s) :
    ∃ s', SplitRefCount.exec movedFrom t o s (.unlink head p next) = .ok (s', .takeData head p) ∧
      Single p next k s' := by
  obtain ⟨hhead, x, hx⟩ := hs
  exact ⟨_, if_pos hhead, rfl, x, hx⟩

theorem exec_unlink_fails (movedFrom : A → A) (t : Tid) (o : Oracle Addr A)
    (hs : Single p head k s) (hne : head ≠ old) :
    SplitRefCount.exec movedFrom t o s (.unlink old p next) = .ok (s, .subCount head p) := by
  obtain ⟨rfl, -⟩ := hs
  exact if_neg hne

theorem exec_takeData (movedFrom : A → A) (t : Tid) (o : Oracle Addr A)
    (old : CountedNodePtr Addr) (hs : Single p head k s) :
    ∃ s' x, SplitRefCount.exec movedFrom t o s (.takeData old p) = .ok (s', .addCount old p x) ∧
      Single p head k s' := by
  obtain ⟨hhead, x, hx⟩ := hs
  exact ⟨_, x, Memory.access_of_read hx, hhead, _, Memory.read_write_self hx⟩

theorem exec_addCount (movedFrom : A → A) (t : Tid) (o : Oracle Addr A) (x : A)
    (hs : Single p head k s) (hk : k ≠ -(e - 2)) :
    ∃ s', SplitRefCount.exec movedFrom t o s (.addCount ⟨e, some p.addr⟩ p x) = .ok (s', .idle) ∧
      Single p head (k + (e - 2)) s' := by
  obtain ⟨hhead, y, hy⟩ := hs
  exact ⟨_, (Memory.access_of_read hy).trans (if_neg hk), hhead, y, Memory.read_write_self hy⟩

theorem exec_addCount_last (movedFrom : A → A) (t : Tid) (o : Oracle Addr A) (x : A)
    (hs : Single p head k s) (hk : k = -(e - 2)) :
    ∃ s', SplitRefCount.exec movedFrom t o s (.addCount ⟨e, some p.addr⟩ p x) =
      .ok (s', .deleteTaken p x) := by
  obtain ⟨-, y, hy⟩ := hs
  exact ⟨_, (Memory.access_of_read hy).trans (if_pos hk)⟩

theorem exec_subCount (movedFrom : A → A) (t : Tid) (o : Oracle Addr A)
    (old : CountedNodePtr Addr) (hs : Single p head k s) (hk : k ≠ 1) :
    ∃ s', SplitRefCount.exec movedFrom t o s (.subCount old p) = .ok (s', .count old) ∧
      Single p head (k - 1) s' := by
  obtain ⟨hhead, y, hy⟩ := hs
  exact ⟨_, (Memory.access_of_read hy).trans (if_neg hk), hhead, y, Memory.read_write_self hy⟩

theorem exec_subCount_last (movedFrom : A → A) (t : Tid) (o : Oracle Addr A)
    (old : CountedNodePtr Addr) (hs : Single p head 1 s) :
    ∃ s', SplitRefCount.exec movedFrom t o s (.subCount old p) =
      .ok (s', .deleteReleased old p) := by
  obtain ⟨-, y, hy⟩ := hs
  exact ⟨_, (Memory.access_of_read hy).trans (if_pos rfl)⟩

section Races

/-- `t` is at `l` and `u` at `k` after some run. -/
abbrev Scene (movedFrom : A → A) (orders : Orders) (t u : Tid) :
    Shared Tid Addr A → PC Addr A → PC Addr A → Run Tid Addr A → Prop :=
  Two (program movedFrom orders) (· = start) t u

variable {c : Run Tid Addr A} {s' : Shared Tid Addr A} {l l' k' : PC Addr A}
variable (hsafe : ∀ c : Run Tid Addr A, Reach (program movedFrom orders).exec (· = start) c →
  ∀ t o, c.advance (program movedFrom orders).exec t o ≠ .fault)
variable (htu : t ≠ u)
include hsafe htu

theorem Scene.step (h : Scene movedFrom orders t u s l k' c)
    (hcode : SplitRefCount.exec movedFrom t o s l = .ok (s', l')) :
    ∃ d, Scene movedFrom orders t u s' l' k' d ∧
      Follows (program movedFrom orders) t o s l c.shared.2 d.shared.2 :=
  Two.step (lawful movedFrom orders) (bounded_of_eq rfl) hsafe htu h hcode

theorem Scene.steps (h : Scene movedFrom orders t u s l k' c)
    (hsteps : Steps (SplitRefCount.exec movedFrom) t s l s' l') :
    ∃ d, Scene movedFrom orders t u s' l' k' d :=
  Two.steps (lawful movedFrom orders) (bounded_of_eq rfl) hsafe htu h hsteps

/-- Both threads are counted in on a node, and `t` has unlinked it. -/
theorem exists_unlinked [Nonempty Addr] [Nonempty A] :
    ∃ (c : Run Tid Addr A) (s : Shared Tid Addr A) (p : Ptr Addr),
      Scene movedFrom orders t u s (.takeData ⟨3, some p.addr⟩ p)
        (.readNext ⟨2, some p.addr⟩ p) c ∧ Single p {} 0 s := by
  obtain ⟨a⟩ := ‹Nonempty Addr›
  obtain ⟨x⟩ := ‹Nonempty A›
  let c₀ : Run Tid Addr A := start
  have h₀ : Scene movedFrom orders t u SplitRefCount.start.shared .idle .idle c₀ :=
    ⟨.start rfl, rfl, rfl, rfl⟩
  obtain ⟨s₁, hpush, hs₁⟩ := steps_push movedFrom t a x
  obtain ⟨c₁, h₁⟩ := Scene.steps hsafe htu h₀ hpush
  obtain ⟨s₂, hu, hs₂⟩ := steps_count movedFrom u hs₁
  obtain ⟨c₂, h₂⟩ := Scene.steps hsafe htu.symm h₁.swap hu
  obtain ⟨s₃, ht, hs₃⟩ := steps_count movedFrom t hs₂
  obtain ⟨c₃, h₃⟩ := Scene.steps hsafe htu h₂.swap ht
  let o : Oracle Addr A := ⟨.pop, a, false⟩
  obtain ⟨s₅, hunlink, hs₅⟩ := exec_unlink movedFrom t o {} hs₃
  have hsteps : Steps (SplitRefCount.exec movedFrom) t s₃ (.readNext ⟨3, some a⟩ ⟨a, 0⟩) s₅
      (.takeData ⟨3, some a⟩ ⟨a, 0⟩) :=
    .step (exec_readNext movedFrom t o _ hs₃) (.step hunlink .refl)
  obtain ⟨c₅, h₅⟩ := Scene.steps hsafe htu h₃ hsteps
  exact ⟨c₅, s₅, ⟨a, 0⟩, h₅, hs₅⟩

/-- What `t` moves out of the node it releases with its addition only. -/
theorem add_releases [Nonempty Addr] [Nonempty A] : orders.add.releases = true := by
  by_contra hadd
  have hadd := eq_false_of_ne_true hadd
  obtain ⟨c₀, s₀, p, h₀, hs₀⟩ := exists_unlinked hsafe htu
  let o : Oracle Addr A := ⟨.pop, p.addr, false⟩
  obtain ⟨s₁, x, htake, hs₁⟩ := exec_takeData movedFrom t o ⟨3, some p.addr⟩ hs₀
  obtain ⟨c₁, h₁, f₁⟩ := Scene.step hsafe htu h₀ htake
  let j := c₀.shared.2.log.length
  have hj : c₁.shared.2.log[j]? = some (t, .writes (p, .data)) := f₁.access (k := 0) rfl
  have hsecret : c₁.shared.2.Secret t j :=
    f₁.made rfl le_rfl (List.getElem?_eq_some_iff.mp hj).1
  obtain ⟨s₂, hleave, hs₂⟩ := exec_addCount (e := 3) movedFrom t o x hs₁ (by decide)
  obtain ⟨c₂, h₂, f₂⟩ := Scene.step hsafe htu h₁ hleave
  obtain ⟨c₃, h₃, f₃⟩ := Scene.step hsafe htu.symm h₂.swap
    (exec_readNext movedFrom u o _ hs₂)
  obtain ⟨c₄, h₄, f₄⟩ := Scene.step hsafe htu.symm h₃
    (exec_unlink_fails movedFrom u o hs₂ (by simp))
  obtain ⟨s₅, hsub⟩ := exec_subCount_last movedFrom u o {} hs₂
  obtain ⟨c₅, h₅, f₅⟩ := Scene.step hsafe htu.symm h₄ hsub
  have hu : ∀ {b : Bool}, u = t → b = false := fun hut => absurd hut.symm htu
  have hkept : c₅.shared.2.Secret t j :=
    f₅.secret (f₄.secret (f₃.secret (f₂.secret hsecret fun _ => hadd) hu) hu) hu
  have hj₅ : c₅.shared.2.log[j]? = some (t, .writes (p, .data)) :=
    f₅.kept (f₄.kept (f₃.kept (f₂.kept hj)))
  refine false_of_race (a := .writes (p, .data)) hsafe h₅.reach h₅.first (List.mem_cons_self ..)
    (o := o) (Causality.not_ordered hj₅ htu ?_ ?_)
  · exact ⟨rfl, .inl rfl, by simp [Access.writes]⟩
  · change j ∉ (Function.update c₅.shared.2.view u (c₅.shared.2.view u ⊔ c₅.shared.2.pending u) u).1
    rw [Function.update_self]
    exact Finset.notMem_union.mpr ⟨hkept.view u htu.symm, hkept.pending u htu.symm⟩

/-- What `u` has read in the node it releases with its subtraction only, and `t` acquires it with
its addition only. -/
theorem sub_releases_add_acquires [Nonempty Addr] [Nonempty A] :
    orders.sub.releases = true ∧ orders.add.acquires = true := by
  by_contra hnot
  have hnot : orders.sub.releases = false ∨ orders.add.acquires = false := by
    simpa [imp_iff_not_or] using hnot
  obtain ⟨c₀, s₀, p, h₀, hs₀⟩ := exists_unlinked hsafe htu
  let o : Oracle Addr A := ⟨.pop, p.addr, false⟩
  obtain ⟨c₁, h₁, f₁⟩ := Scene.step hsafe htu.symm h₀.swap
    (exec_readNext movedFrom u o _ hs₀)
  let i := c₀.shared.2.log.length
  have hi : c₁.shared.2.log[i]? = some (u, .reads (p, .next)) := f₁.access (k := 0) rfl
  have hsecret : c₁.shared.2.Secret u i :=
    f₁.made rfl le_rfl (List.getElem?_eq_some_iff.mp hi).1
  obtain ⟨s₂, x, htake, hs₂⟩ := exec_takeData movedFrom t o ⟨3, some p.addr⟩ hs₀
  obtain ⟨c₂, h₂, f₂⟩ := Scene.step hsafe htu h₁.swap htake
  obtain ⟨c₃, h₃, f₃⟩ := Scene.step hsafe htu.symm h₂.swap
    (exec_unlink_fails movedFrom u o hs₂ (by simp))
  obtain ⟨s₄, hleave, hs₄⟩ := exec_subCount movedFrom u o {} hs₂ (by decide)
  obtain ⟨c₄, h₄, f₄⟩ := Scene.step hsafe htu.symm h₃ hleave
  obtain ⟨s₅, hlast⟩ := exec_addCount_last (e := 3) movedFrom t o x hs₄ (by decide)
  obtain ⟨c₅, h₅, f₅⟩ := Scene.step hsafe htu h₄.swap hlast
  have ht : ∀ {b : Bool}, t = u → b = false := fun h => absurd h htu
  have hkept : c₃.shared.2.Secret u i := f₃.secret (f₂.secret hsecret ht) fun _ => rfl
  have hview : c₅.shared.2.Unknown t i := by
    rcases hnot with hsub | hadd
    · exact (f₅.secret (f₄.secret hkept fun _ => hsub) ht).unknown htu
    · exact f₅.unknown (f₄.unknown (hkept.unknown htu) fun h => absurd h.symm htu) fun _ => hadd
  have hi₅ : c₅.shared.2.log[i]? = some (u, .reads (p, .next)) :=
    f₅.kept (f₄.kept (f₃.kept (f₂.kept hi)))
  refine false_of_race (a := .writes (p, .next)) hsafe h₅.reach h₅.first
    (List.mem_cons_of_mem _ (List.mem_cons_self ..)) (o := o)
    (Causality.not_ordered hi₅ htu.symm ⟨rfl, .inr rfl, by simp [Access.reads]⟩ hview.view)

end Races
end Ordered
open Ordered

/-- The stack has no data race under the memory orders exactly if the subtraction releases what
the thread has read in the node, and the addition releases and acquires. -/
theorem split_ref_count_orders {Tid Addr A : Type*} [DecidableEq Tid] [DecidableEq Addr]
    [Nontrivial Tid] [Nonempty Addr] [Nonempty A] (movedFrom : A → A) (orders : Orders) :
    (∀ c : Config Tid (State Tid Addr A) (PC Addr A),
      Reach (program movedFrom orders).exec (· = Ordered.start) c →
        ∀ t o, c.advance (program movedFrom orders).exec t o ≠ .fault) ↔
      orders.add.acquires = true ∧ orders.add.releases = true ∧ orders.sub.releases = true := by
  constructor
  · intro hsafe
    obtain ⟨t, u, htu⟩ := exists_pair_ne Tid
    obtain ⟨hsub, hacquires⟩ := sub_releases_add_acquires hsafe htu
    exact ⟨hacquires, add_releases hsafe htu, hsub⟩
  · intro h c hc t o
    obtain ⟨hacquires, hadd, hsub⟩ := h
    exact safe hacquires hadd hsub hc o

/-- As it is written the stack has a race. -/
theorem split_ref_count_orders_as_written :
    ¬ ∀ c : Config Bool (State Bool ℕ ℕ) (PC ℕ ℕ),
      Reach (program id Orders.asWritten).exec (· = Ordered.start) c →
        ∀ t o, c.advance (program id Orders.asWritten).exec t o ≠ .fault := by
  intro h
  obtain ⟨hacquires, -, -⟩ := (split_ref_count_orders id Orders.asWritten).mp h
  exact absurd hacquires (by decide)

end CsNotes.SplitRefCount
