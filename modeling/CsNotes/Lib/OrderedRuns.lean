import CsNotes.Lib.ReleaseAcquire
import CsNotes.Lib.Solo

/-!
# Runs of programs with memory orders

Nobody knows of an access or a store before there is one, so that every thread may
read the last store, and nobody but the thread that makes an access knows of it
before it is released. The assertions of the interleaving hold of the program too
where steps that read an older value keep them, and the runs of the interleaving
are those in which every load reads the last store.
-/
namespace CsNotes.ReleaseAcquire
open Interleaving Races

variable {Tid O S L V Loc Sync : Type*}

namespace Causality
variable {m m' : Causality Tid V Loc Sync} {t : Tid} {v w : View} {a : Access Loc}
variable {l : List (Access Loc)} {now : V} {i : ℕ} {order : MemoryOrder}

/-- All accesses and all stores. -/
def everything (m : Causality Tid V Loc Sync) : View :=
  (Finset.range m.log.length, m.earlier.length)

structure Bounded (m : Causality Tid V Loc Sync) : Prop where
  view : ∀ t, m.view t ≤ m.everything
  pending : ∀ t, m.pending t ≤ m.everything
  released : ∀ x, m.released x ≤ m.everything
  current : m.current ≤ m.everything
  earlier : ∀ x ∈ m.earlier, x.2 ≤ m.everything

theorem bounded_start : Bounded (start : Causality Tid V Loc Sync) :=
  ⟨fun _ => bot_le, fun _ => bot_le, fun _ => bot_le, bot_le, List.forall_mem_nil _⟩

theorem Bounded.message (h : m.Bounded) {x : V × View} (hx : x ∈ m.messages now) :
    x.2 ≤ m.everything := by
  rcases List.mem_append.mp hx with hx | hx
  · exact h.earlier x hx
  · rw [List.mem_singleton.mp hx]
    exact h.current

theorem Bounded.not_mem (h : m.Bounded) (hi : m.log.length ≤ i) : i ∉ (m.view t).1 :=
  fun hmem => absurd (Finset.mem_range.mp ((h.view t).1 hmem)) (not_lt.mpr hi)

variable [DecidableEq Tid]

theorem Bounded.learn (h : m.Bounded) (hv : v ≤ m.everything) : (m.learn t v).Bounded := by
  refine ⟨fun u => ?_, h.pending, h.released, h.current, h.earlier⟩
  change Function.update m.view t _ u ≤ m.everything
  by_cases hu : u = t
  · subst hu
    rw [Function.update_self]
    exact sup_le (h.view u) hv
  · rw [Function.update_of_ne hu]
    exact h.view u

theorem Bounded.note (h : m.Bounded) (a : Access Loc) : (m.note t a).Bounded := by
  let n : Causality Tid V Loc Sync := { m with log := m.log ++ [(t, a)] }
  have hlen : n.log.length = m.log.length + 1 := List.length_append
  have hle : m.everything ≤ n.everything :=
    ⟨Finset.range_subset_range.mpr (by omega), le_rfl⟩
  have hn : n.Bounded := ⟨fun u => (h.view u).trans hle, fun u => (h.pending u).trans hle,
    fun x => (h.released x).trans hle, h.current.trans hle, fun x hx => (h.earlier x hx).trans hle⟩
  refine hn.learn ⟨Finset.singleton_subset_iff.mpr (Finset.mem_range.mpr ?_), Nat.zero_le _⟩
  omega

theorem Bounded.receive (h : m.Bounded) (hw : w ≤ m.everything) :
    (m.receive t order w).Bounded := by
  have hlearn : (m.learn t (if order.acquires then w else ⊥)).Bounded := by
    refine h.learn ?_
    split
    · exact hw
    · exact bot_le
  refine ⟨hlearn.view, fun u => ?_, h.released, h.current, h.earlier⟩
  change Function.update m.pending t _ u ≤ m.everything
  by_cases hu : u = t
  · subst hu
    rw [Function.update_self]
    exact sup_le (h.pending u) hw
  · rw [Function.update_of_ne hu]
    exact h.pending u

theorem Bounded.load (h : m.Bounded) {x : V} (hi : (m.messages now)[i]? = some (x, w)) :
    ((m.receive t order w).learn t (∅, i)).Bounded := by
  refine (h.receive (h.message (List.mem_of_getElem? hi))).learn ⟨Finset.empty_subset _, ?_⟩
  have hlt : i < (m.messages now).length := (List.getElem?_eq_some_iff.mp hi).1
  have hlen : (m.messages now).length = m.earlier.length + 1 := List.length_append
  change i ≤ m.earlier.length
  omega

theorem Bounded.append (h : m.Bounded) (hw : w ≤ m.everything) :
    (m.append t order now w).Bounded := by
  let n : Causality Tid V Loc Sync := { m with earlier := m.messages now }
  have hlen : (m.messages now).length = m.earlier.length + 1 := List.length_append
  have hle : m.everything ≤ n.everything := ⟨Finset.Subset.refl _, by
    change m.earlier.length ≤ (m.messages now).length
    omega⟩
  have hn : n.Bounded := ⟨fun u => (h.view u).trans hle, fun u => (h.pending u).trans hle,
    fun x => (h.released x).trans hle, h.current.trans hle, fun x hx => (h.message hx).trans hle⟩
  have hv : ((∅, m.earlier.length + 1) : View) ≤ n.everything :=
    ⟨Finset.empty_subset _, hlen.ge⟩
  have hlearn : (n.learn t (∅, m.earlier.length + 1)).Bounded := hn.learn hv
  refine ⟨hlearn.view, fun u => (h.pending u).trans hle, hn.released, ?_, hn.earlier⟩
  refine sup_le (hw.trans hle) ?_
  split
  · exact hlearn.view t
  · exact bot_le

theorem Bounded.exchange (h : m.Bounded) : (m.exchange t order now).Bounded :=
  (h.receive h.current).append h.current

theorem Bounded.update [DecidableEq Sync] (h : m.Bounded) (x : Sync) :
    (m.update t x order).Bounded := by
  let n : Causality Tid V Loc Sync := m.receive t order (m.released x)
  have hn : n.Bounded := h.receive (h.released x)
  refine ⟨hn.view, hn.pending, fun y => ?_, hn.current, hn.earlier⟩
  change Function.update m.released x
    (m.released x ⊔ if order.releases then n.view t else ⊥) y ≤ m.everything
  by_cases hy : y = x
  · subst hy
    rw [Function.update_self]
    refine sup_le (h.released y) ?_
    split
    · exact hn.view t
    · exact bot_le
  · rw [Function.update_of_ne hy]
    exact h.released y

end Causality

namespace Causality
variable [DecidableEq Tid] {m : Causality Tid V Loc Sync} {t : Tid} {now : V} {w : View}
variable {l : List (Access Loc)} {i : ℕ} {order : MemoryOrder}

theorem Bounded.notes (h : m.Bounded) (l : List (Access Loc)) : (m.notes t l).Bounded := by
  induction l generalizing m with
  | nil => exact h
  | cons a l ih => exact ih (h.note a)

theorem Bounded.load_last (h : m.Bounded) :
    (m.notes t l).load t order now m.earlier.length =
      .ok (now, ((m.notes t l).receive t order m.current).learn t (∅, m.earlier.length)) := by
  have hi : ((m.notes t l).messages now)[m.earlier.length]? = some (now, m.current) := by
    rw [messages_notes]
    unfold messages
    rw [List.getElem?_append_right le_rfl, Nat.sub_self]
    rfl
  have hle := ((h.notes (t := t) l).view t).2
  change ((m.notes t l).view t).2 ≤ (m.notes t l).earlier.length at hle
  rw [earlier_notes] at hle
  unfold Causality.load
  rw [hi]
  exact if_pos hle

/-- A load which does not acquire teaches the thread nothing about accesses. -/
theorem events_of_not_acquires (h : order.acquires = false) :
    (((m.receive t order w).learn t (∅, i)).view t).1 = (m.view t).1 := by
  simp [receive, learn, h]

end Causality

section Runs
variable [DecidableEq Tid] [DecidableEq Loc] [DecidableEq Sync]
variable {P : Program Tid O S L V Loc Sync}
variable {init : Config Tid (S × Causality Tid V Loc Sync) L → Prop}
variable {c : Config Tid (S × Causality Tid V Loc Sync) L} {t u : Tid} {o : O × ℕ}
variable {s : S × Causality Tid V Loc Sync} {pc : L} {r : (S × Causality Tid V Loc Sync) × L}

omit [DecidableEq Loc] [DecidableEq Sync] in
theorem Causality.Bounded.before {m : Causality Tid V Loc Sync} (h : m.Bounded) (t : Tid)
    (e : Effect Sync) : (m.before t e).Bounded := by
  unfold Causality.before
  split
  · exact h.learn (h.pending t)
  · exact h

theorem exec_cases (h : P.exec t o s pc = .ok r) :
    P.Operates t o.1 s.1 pc
      ((s.2.before t (P.effect pc)).notes t (P.accesses o.1 s.1 pc)) r := by
  obtain ⟨m, hm, h⟩ := Outcome.bind_eq_ok.mp h
  rcases (s.2.before t (P.effect pc)).perform_cases t (P.accesses o.1 s.1 pc) with hp | hp
  all_goals cases hp.symm.trans hm
  have hload : ∀ {order} {x : Outcome (V × Causality Tid V Loc Sync)} {p}
      {m : Causality Tid V Loc Sync}, x = m.load t order (P.value s.1) o.2 → x = .ok p →
      ∃ w, (m.messages (P.value s.1))[o.2]? = some (p.1, w) ∧
        p.2 = (m.receive t order w).learn t (∅, o.2) := by
    intro order x p m hx hp
    rw [hx] at hp
    unfold Causality.load at hp
    split at hp
    · cases hp
    · rename_i v w hi
      split at hp
      · cases hp
        exact ⟨w, hi, rfl⟩
      · cases hp
  unfold Program.operate at h
  simp only at h
  split at h
  · obtain ⟨q, hq, rfl⟩ := Outcome.map_eq_ok.mp h
    exact .step (.inl ‹_›) hq
  · obtain ⟨q, hq, rfl⟩ := Outcome.map_eq_ok.mp h
    exact .step (.inr ‹_›) hq
  · obtain ⟨p, hp, h⟩ := Outcome.bind_eq_ok.mp h
    obtain ⟨q, hq, rfl⟩ := Outcome.map_eq_ok.mp h
    obtain ⟨w, hi, hm⟩ := hload rfl hp
    rw [hm]
    exact .load (.inl ‹_›) hi hq
  · obtain ⟨q, hq, rfl⟩ := Outcome.map_eq_ok.mp h
    exact .store ‹_› hq
  · split at h
    · rename_i hs
      obtain ⟨q, hq, rfl⟩ := Outcome.map_eq_ok.mp h
      exact .exchange ‹_› hs.1 hq
    · obtain ⟨p, hp, h⟩ := Outcome.bind_eq_ok.mp h
      split at h
      · cases h
      · rename_i hs
        obtain ⟨q, hq, rfl⟩ := Outcome.map_eq_ok.mp h
        obtain ⟨w, hi, hm⟩ := hload rfl hp
        rw [hm]
        exact .load (.inr ⟨⟨_, ‹_›⟩, Bool.not_eq_true _ ▸ hs⟩) hi hq
  · obtain ⟨q, hq, rfl⟩ := Outcome.map_eq_ok.mp h
    exact .update ‹_› hq

theorem exec_extends (h : P.exec t o s pc = .ok r) :
    s.2.Extends t (P.accesses o.1 s.1 pc) r.1.2 := by
  have hbefore : s.2.Extends t [] (s.2.before t (P.effect pc)) := by
    unfold Causality.before
    split
    · exact s.2.extends_learn t _
    · exact ⟨(List.append_nil _).symm, fun i hi hlt => absurd hlt (not_lt.mpr hi), le_rfl,
        fun u _ => rfl, fun u _ => rfl⟩
  have hn := hbefore.trans
    (Causality.extends_notes (s.2.before t (P.effect pc)) t (P.accesses o.1 s.1 pc))
  cases exec_cases h with
  | step => exact hn
  | load => exact (hn.more (Causality.extends_receive _ t _ _)).more (Causality.extends_learn _ t _)
  | store => exact hn.more (Causality.extends_append _ t _ _ _)
  | exchange =>
      exact (hn.more (Causality.extends_receive _ t _ _)).more (Causality.extends_append _ t _ _ _)
  | update => exact hn.more (Causality.extends_update _ t _ _)

theorem exec_bounded (hs : s.2.Bounded) (h : P.exec t o s pc = .ok r) : r.1.2.Bounded := by
  have hb : ((s.2.before t (P.effect pc)).notes t (P.accesses o.1 s.1 pc)).Bounded :=
    (hs.before t _).notes _
  cases exec_cases h with
  | step => exact hb
  | load heff hi => exact hb.load hi
  | store => exact hb.append bot_le
  | exchange => exact hb.exchange
  | update => exact hb.update _

theorem bounded_of_reach (hinit : ∀ c, init c → c.shared.2.Bounded) (hc : Reach P.exec init c) :
    c.shared.2.Bounded := by
  induction hc with
  | start h => exact hinit _ h
  | step _ _ hd ih =>
      obtain ⟨r, hr, rfl⟩ := Outcome.map_eq_ok.mp hd
      exact exec_bounded ih hr

omit [DecidableEq Tid] [DecidableEq Loc] [DecidableEq Sync] in
theorem bounded_of_eq {c₀ : Config Tid (S × Causality Tid V Loc Sync) L}
    (h : c₀.shared.2 = .start) : ∀ c, c = c₀ → c.shared.2.Bounded := by
  intro c hc
  rw [hc, h]
  exact Causality.bounded_start

section Unknown
variable {i : ℕ}

/-- The access `i` has been made, and `u` does not know of it. -/
structure Causality.Unknown (u : Tid) (i : ℕ) (m : Causality Tid V Loc Sync) : Prop where
  lt : i < m.log.length
  view : i ∉ (m.view u).1

/-- Only `t` knows of the access `i`, and has not released it. -/
structure Causality.Secret (t : Tid) (i : ℕ) (m : Causality Tid V Loc Sync) : Prop where
  lt : i < m.log.length
  view : ∀ u, u ≠ t → i ∉ (m.view u).1
  pending : ∀ u, u ≠ t → i ∉ (m.pending u).1
  released : ∀ x, i ∉ (m.released x).1
  current : i ∉ m.current.1
  earlier : ∀ x ∈ m.earlier, i ∉ x.2.1

/-- The step may acquire something. An exchange does not succeed with an older value. -/
def Program.acquires (P : Program Tid O S L V Loc Sync) (o : O) (s : S) (pc : L) : Bool :=
  match P.effect pc with
  | .load order | .update _ order => order.acquires
  | .exchange success failure => (success.acquires && P.succeeds o s pc) || failure.acquires
  | .fence => true
  | .plain | .store _ => false

/-- The step may release something. -/
def Program.releases (P : Program Tid O S L V Loc Sync) (o : O) (s : S) (pc : L) : Bool :=
  match P.effect pc with
  | .store order | .update _ order => order.releases
  | .exchange success _ => success.releases && P.succeeds o s pc
  | .plain | .load _ | .fence => false

namespace Causality
variable {m : Causality Tid V Loc Sync} {v w : View} {a : Access Loc} {l : List (Access Loc)}
variable {now : V} {order : MemoryOrder}

section Secret
omit [DecidableEq Loc] [DecidableEq Sync]

omit [DecidableEq Tid] in
theorem Secret.unknown (h : m.Secret t i) (hu : u ≠ t) : m.Unknown u i := ⟨h.lt, h.view u hu⟩

theorem Unknown.learn (h : m.Unknown u i) (hv : i ∉ v.1) : (m.learn u v).Unknown u i := by
  refine ⟨h.lt, ?_⟩
  change i ∉ (Function.update m.view u _ u).1
  rw [Function.update_self]
  exact Finset.notMem_union.mpr ⟨h.view, hv⟩

theorem Unknown.notes (h : m.Unknown u i) (l : List (Access Loc)) : (m.notes u l).Unknown u i := by
  induction l generalizing m with
  | nil => exact h
  | cons a l ih =>
      let n : Causality Tid V Loc Sync := { m with log := m.log ++ [(u, a)] }
      have hn : n.Unknown u i := ⟨h.lt.trans_le (List.prefix_append _ _).length_le, h.view⟩
      exact ih (hn.learn (Finset.notMem_singleton.mpr h.lt.ne))

theorem Unknown.receive (h : m.Unknown u i) (horder : order.acquires = false) :
    (m.receive u order w).Unknown u i := by
  have hlearn : (m.learn u (if order.acquires then w else ⊥)).Unknown u i := by
    refine h.learn ?_
    rw [horder]
    exact Finset.notMem_empty i
  exact ⟨h.lt, hlearn.view⟩

theorem Secret.learn (h : m.Secret t i) (hv : u ≠ t → i ∉ v.1) : (m.learn u v).Secret t i := by
  refine ⟨h.lt, fun y hy => ?_, h.pending, h.released, h.current, h.earlier⟩
  change i ∉ (Function.update m.view u _ y).1
  by_cases hyu : y = u
  · subst hyu
    rw [Function.update_self]
    exact Finset.notMem_union.mpr ⟨h.view y hy, hv hy⟩
  · rw [Function.update_of_ne hyu]
    exact h.view y hy

theorem Secret.note (h : m.Secret t i) (a : Access Loc) : (m.note u a).Secret t i := by
  let n : Causality Tid V Loc Sync := { m with log := m.log ++ [(u, a)] }
  have hlt : i < n.log.length := h.lt.trans_le (List.prefix_append _ _).length_le
  have hn : n.Secret t i := ⟨hlt, h.view, h.pending, h.released, h.current, h.earlier⟩
  exact hn.learn fun _ => Finset.notMem_singleton.mpr h.lt.ne

theorem Secret.notes (h : m.Secret t i) (l : List (Access Loc)) : (m.notes u l).Secret t i := by
  induction l generalizing m with
  | nil => exact h
  | cons a l ih => exact ih (h.note a)

theorem Secret.receive (h : m.Secret t i) (hw : i ∉ w.1) : (m.receive u order w).Secret t i := by
  have hlearn : (m.learn u (if order.acquires then w else ⊥)).Secret t i := by
    refine h.learn fun _ => ?_
    split
    · exact hw
    · exact Finset.notMem_empty i
  refine ⟨h.lt, hlearn.view, fun y hy => ?_, h.released, h.current, h.earlier⟩
  change i ∉ (Function.update m.pending u _ y).1
  by_cases hyu : y = u
  · subst hyu
    rw [Function.update_self]
    exact Finset.notMem_union.mpr ⟨h.pending y hy, hw⟩
  · rw [Function.update_of_ne hyu]
    exact h.pending y hy

omit [DecidableEq Tid] in
theorem Secret.message (h : m.Secret t i) {x : V × View} (hx : x ∈ m.messages now) :
    i ∉ x.2.1 := by
  rcases List.mem_append.mp hx with hx | hx
  · exact h.earlier x hx
  · rw [List.mem_singleton.mp hx]
    exact h.current

omit [DecidableEq Tid] in
theorem Secret.passed (h : m.Secret t i) (hu : u = t → order.releases = false) (hw : i ∉ w.1) :
    i ∉ (w ⊔ if order.releases then m.view u else ⊥ : View).1 := by
  refine Finset.notMem_union.mpr ⟨hw, ?_⟩
  split
  · rename_i hr
    exact h.view u fun hut => by simp [hu hut] at hr
  · exact Finset.notMem_empty i

theorem Secret.append (h : m.Secret t i) (hu : u = t → order.releases = false) (hw : i ∉ w.1) :
    (m.append u order now w).Secret t i := by
  have hlearn : (m.learn u (∅, m.earlier.length + 1)).Secret t i :=
    h.learn fun _ => Finset.notMem_empty i
  exact ⟨h.lt, hlearn.view, h.pending, h.released, hlearn.passed hu hw, fun x hx => h.message hx⟩

theorem Secret.update [DecidableEq Sync] (h : m.Secret t i) (hu : u = t → order.releases = false)
    (x : Sync) : (m.update u x order).Secret t i := by
  let n : Causality Tid V Loc Sync := m.receive u order (m.released x)
  have hn : n.Secret t i := h.receive (h.released x)
  refine ⟨h.lt, hn.view, hn.pending, fun y => ?_, h.current, h.earlier⟩
  change i ∉ (Function.update n.released x _ y).1
  by_cases hy : y = x
  · subst hy
    rw [Function.update_self]
    exact hn.passed hu (h.released y)
  · rw [Function.update_of_ne hy]
    exact h.released y

theorem Bounded.secret (h : m.Bounded) (hi : m.log.length ≤ i)
    (hlt : i < (m.notes t l).log.length) : (m.notes t l).Secret t i := by
  have hnot : ∀ {v : View}, v ≤ m.everything → i ∉ v.1 :=
    fun hv hmem => absurd (Finset.mem_range.mp (hv.1 hmem)) (not_lt.mpr hi)
  refine ⟨hlt, fun u hu => ?_, fun u _ => ?_, fun x => ?_, ?_, fun x hx => ?_⟩
  · rw [(extends_notes m t l).others u hu]
    exact hnot (h.view u)
  · rw [pending_notes]
    exact hnot (h.pending u)
  · rw [released_notes]
    exact hnot (h.released x)
  · rw [current_notes]
    exact hnot h.current
  · rw [earlier_notes] at hx
    exact hnot (h.earlier x hx)

end Secret
end Causality

omit [DecidableEq Loc] in
/-- A secret is kept by all operations but those with which the thread releases. -/
theorem secret_operates {m : Causality Tid V Loc Sync} {o : O} {s : S} (hs : m.Secret t i)
    (h : P.Operates u o s pc m r) (hu : u = t → P.releases o s pc = false) :
    r.1.2.Secret t i := by
  unfold Program.releases at hu
  cases h with
  | step => exact hs
  | load heff hi =>
      exact (hs.receive (hs.message (List.mem_of_getElem? hi))).learn fun _ => Finset.notMem_empty i
  | store heff =>
      rw [heff] at hu
      exact hs.append hu (Finset.notMem_empty i)
  | exchange heff hsucceeds =>
      simp only [heff, hsucceeds, Bool.and_true] at hu
      exact (hs.receive hs.current).append hu hs.current
  | update heff =>
      rw [heff] at hu
      exact hs.update hu _

theorem secret_exec (hs : s.2.Secret t i) (h : P.exec u o s pc = .ok r)
    (hu : u = t → P.releases o.1 s.1 pc = false) : r.1.2.Secret t i := by
  have hbefore : (s.2.before u (P.effect pc)).Secret t i := by
    unfold Causality.before
    split
    · exact hs.learn (hs.pending u)
    · exact hs
  exact secret_operates (hbefore.notes _) (exec_cases h) hu

/-- The accesses of a step are secrets if it does not release. -/
theorem secret_of_exec (hb : s.2.Bounded) (h : P.exec t o s pc = .ok r)
    (ht : P.releases o.1 s.1 pc = false) (hi : s.2.log.length ≤ i) (hlt : i < r.1.2.log.length) :
    r.1.2.Secret t i := by
  have hlog : (s.2.before t (P.effect pc)).log = s.2.log := by
    unfold Causality.before
    split <;> rfl
  have hlen : ((s.2.before t (P.effect pc)).notes t (P.accesses o.1 s.1 pc)).log.length =
      r.1.2.log.length := by
    rw [(Causality.extends_notes _ t _).log, (exec_extends h).log, hlog]
  exact secret_operates ((hb.before t _).secret (hlog.symm ▸ hi) (hlen.symm ▸ hlt)) (exec_cases h)
    fun _ => ht

/-- A thread does not learn anything by steps that do not acquire, or by those of others. -/
theorem unknown_exec (hs : s.2.Unknown u i) (h : P.exec t o s pc = .ok r)
    (hu : t = u → P.acquires o.1 s.1 pc = false) : r.1.2.Unknown u i := by
  have he := exec_extends h
  have hlt : i < r.1.2.log.length := by
    rw [he.log]
    exact hs.lt.trans_le (List.prefix_append _ _).length_le
  by_cases htu : t = u
  · subst htu
    have hacq := hu rfl
    unfold Program.acquires at hacq
    have hbefore : s.2.before t (P.effect pc) = s.2 := by
      unfold Causality.before
      split
      · rename_i heff
        simp [heff] at hacq
      · rfl
    have hcases := exec_cases h
    rw [hbefore] at hcases
    have hn := hs.notes (P.accesses o.1 s.1 pc)
    refine ⟨hlt, ?_⟩
    cases hcases with
    | step => exact hn.view
    | load heff =>
        rw [Causality.events_of_not_acquires]
        · exact hn.view
        · rcases heff with heff | ⟨⟨success, heff⟩, -⟩
          · simpa only [heff] using hacq
          · simp only [heff, Bool.or_eq_false_iff] at hacq
            exact hacq.2
    | store => exact (hn.learn (Finset.notMem_empty i)).view
    | exchange heff hsucceeds =>
        simp only [heff, hsucceeds, Bool.and_true, Bool.or_eq_false_iff] at hacq
        exact ((hn.receive hacq.1).learn (Finset.notMem_empty i)).view
    | update heff =>
        exact (hn.receive (by simpa only [heff] using hacq)).view
  · refine ⟨hlt, ?_⟩
    rw [he.others u fun h => htu h.symm]
    exact hs.view

end Unknown

section Interleaved
variable {G : Type*} {Global : S → G → Prop} {Local : S → G → Tid → L → Prop}

theorem holds_of_reach
    (hinit : ∀ c, init c → ∃ g, Global c.shared.1 g ∧ ∀ t, Local c.shared.1 g t (c.pc t))
    (hcode : ∀ (c : Config Tid S L) t o g, Global c.shared g → (∀ u, Local c.shared g u (c.pc u)) →
      (P.code t o c.shared (c.pc t)).Sat fun r => ∃ g', Global r.1 g' ∧ Local r.1 g' t r.2 ∧
        ∀ u, u ≠ t → Local r.1 g' u (c.pc u))
    (holder : ∀ (c : Config Tid S L) t o g v order, P.Rereads o c.shared (c.pc t) v order →
      Global c.shared g → (∀ u, Local c.shared g u (c.pc u)) →
      (P.older t o c.shared (c.pc t) v).Sat fun r => ∃ g', Global r.1 g' ∧ Local r.1 g' t r.2 ∧
        ∀ u, u ≠ t → Local r.1 g' u (c.pc u))
    (hc : Reach P.exec init c) :
    ∃ g, Global c.shared.1 g ∧ ∀ t, Local c.shared.1 g t (c.pc t) := by
  induction hc with
  | start h => exact hinit _ h
  | @step c d t o _ _ hd ih =>
      obtain ⟨g, hG, hL⟩ := ih
      obtain ⟨r, hr, rfl⟩ := Outcome.map_eq_ok.mp hd
      have hplain := hcode ⟨c.shared.1, c.pc⟩ t o.1 g hG hL
      have hkept : ∃ g', Global r.1.1 g' ∧ Local r.1.1 g' t r.2 ∧
          ∀ u, u ≠ t → Local r.1.1 g' u (c.pc u) := by
        cases exec_cases hr with
        | step _ h | store _ h | exchange _ _ h | update _ h => exact hplain.of_ok h
        | load heff _ h =>
            exact (holder ⟨c.shared.1, c.pc⟩ t o.1 g _ _ heff hG hL).of_ok h
      obtain ⟨g', hG', ht, hu⟩ := hkept
      refine ⟨g', hG', fun u => ?_⟩
      by_cases hut : u = t
      · subst hut
        simpa only [Function.update_self] using ht
      · simpa only [Function.update_of_ne hut] using hu u hut

/-- What a value is stored in, and that loads do not store. -/
structure Program.Lawful (P : Program Tid O S L V Loc Sync) : Prop where
  withValue_value : ∀ s, P.withValue s (P.value s) = s
  loads : ∀ t o s pc order r, P.Rereads o s pc (P.value s) order → P.code t o s pc = .ok r →
    P.value r.1 = P.value s

variable {o : O}

/-- Reading the last store a thread does what it does in the interleaving, or has a race. -/
theorem exec_last {r : S × L} (hP : P.Lawful) (hb : s.2.Bounded)
    (hcode : P.code t o s.1 pc = .ok r) :
    P.exec t (o, s.2.earlier.length) s pc = .fault ∨
      ∃ m, P.exec t (o, s.2.earlier.length) s pc = .ok ((r.1, m), r.2) := by
  unfold Program.exec
  rcases (s.2.before t (P.effect pc)).perform_cases t (P.accesses o s.1 pc) with hp | hp
  · rw [hp]
    exact .inl rfl
  · refine .inr ?_
    rw [hp]
    have hbefore : (s.2.before t (P.effect pc)).earlier = s.2.earlier := by
      unfold Causality.before
      split <;> rfl
    let m : Causality Tid V Loc Sync := s.2.before t (P.effect pc)
    have hload : ∀ order, (m.notes t (P.accesses o s.1 pc)).load t order (P.value s.1)
        m.earlier.length = .ok (P.value s.1, ((m.notes t (P.accesses o s.1 pc)).receive t order
          m.current).learn t (∅, m.earlier.length)) :=
      fun order => (hb.before t (P.effect pc)).load_last
    simp only [m] at hload
    rw [hbefore] at hload
    have hread : ∀ order, P.Rereads o s.1 pc (P.value s.1) order →
        P.older t o s.1 pc (P.value s.1) = .ok r := by
      intro order h
      unfold Program.older
      rw [hP.withValue_value, hcode]
      change Outcome.ok (P.withValue r.1 (P.value s.1), r.2) = _
      rw [← hP.loads _ _ _ _ _ _ h hcode, hP.withValue_value]
    change ∃ m, P.operate t (o, s.2.earlier.length) s.1 pc _ = _
    unfold Program.operate
    cases heff : P.effect pc with
    | plain | store | update | fence =>
        simp only [hcode]
        exact ⟨_, rfl⟩
    | load order =>
        rw [heff] at hload
        simp only [hload, Outcome.bind, hread order (.inl heff)]
        exact ⟨_, rfl⟩
    | exchange success failure =>
        rw [heff] at hload hbefore
        simp only [Causality.earlier_notes, hbefore, and_true]
        split
        · simp only [hcode]
          exact ⟨_, rfl⟩
        · rename_i hs
          have hs : P.succeeds o (P.withValue s.1 (P.value s.1)) pc = false := by
            rw [hP.withValue_value]
            exact Bool.not_eq_true _ ▸ hs
          simp only [hload, Outcome.bind, hread failure (.inr ⟨⟨success, heff⟩, hs⟩), hs]
          exact ⟨_, rfl⟩

theorem exec_race {a : Access Loc} {k : ℕ} (ha : a ∈ P.accesses o s.1 pc)
    (hrace : ¬ (s.2.before t (P.effect pc)).Ordered t a) : P.exec t (o, k) s pc = .fault := by
  unfold Program.exec
  rw [Causality.perform_race ha hrace]
  rfl

/-- What a step of `t` does to what is known. -/
structure Follows (P : Program Tid O S L V Loc Sync) (t : Tid) (o : O) (s : S) (l : L)
    (m m' : Causality Tid V Loc Sync) : Prop where
  extends_ : m.Extends t (P.accesses o s l) m'
  secret : ∀ {u i}, m.Secret u i → (t = u → P.releases o s l = false) → m'.Secret u i
  unknown : ∀ {u i}, m.Unknown u i → (t = u → P.acquires o s l = false) → m'.Unknown u i
  made : ∀ {i}, P.releases o s l = false → m.log.length ≤ i → i < m'.log.length → m'.Secret t i
  others : ∀ {u i}, u ≠ t → m.log.length ≤ i → i < m'.log.length → m'.Unknown u i

section Follows
omit [DecidableEq Tid] [DecidableEq Loc] [DecidableEq Sync]
variable {s : S} {l : L} {m m' : Causality Tid V Loc Sync}

theorem Follows.kept {i : ℕ} {x : Tid × Access Loc} (h : Follows P t o s l m m')
    (hi : m.log[i]? = some x) : m'.log[i]? = some x := by
  rw [h.extends_.log, List.getElem?_append_left (List.getElem?_eq_some_iff.mp hi).1]
  exact hi

theorem Follows.access {k : ℕ} {a : Access Loc} (h : Follows P t o s l m m')
    (hk : (P.accesses o s l)[k]? = some a) : m'.log[m.log.length + k]? = some (t, a) := by
  rw [h.extends_.log, List.getElem?_append_right (Nat.le_add_right _ _), Nat.add_sub_cancel_left,
    List.getElem?_map, hk]
  rfl

end Follows

variable {l : L} (hP : P.Lawful) (hinit : ∀ c, init c → c.shared.2.Bounded)
variable (hsafe : ∀ c, Reach P.exec init c → ∀ t o, c.advance P.exec t o ≠ .fault)
include hP hinit hsafe

/-- Without races every step of the interleaving can be made. -/
theorem exists_step {r : S × L} (hc : Reach P.exec init c) (hl : c.pc t = l)
    (hcode : P.code t o c.shared.1 l = .ok r) :
    ∃ m, Reach P.exec init ⟨(r.1, m), Function.update c.pc t r.2⟩ ∧
      Follows P t o c.shared.1 l c.shared.2 m := by
  have hb := bounded_of_reach hinit hc
  subst hl
  rcases exec_last hP hb hcode with h | ⟨m, h⟩
  · refine (hsafe c hc t (o, c.shared.2.earlier.length) ?_).elim
    unfold Config.advance
    rw [h]
    rfl
  · exact ⟨m, hc.next h, exec_extends h, fun hs hu => secret_exec hs h hu,
      fun hs hu => unknown_exec hs h hu, fun ht hi hlt => secret_of_exec hb h ht hi hlt,
      fun hu hi hlt => ⟨hlt, fun hmem => hb.not_mem hi ((exec_extends h).others _ hu ▸ hmem)⟩⟩

omit hP hinit in
theorem false_of_race {a : Access Loc} (hc : Reach P.exec init c) (hl : c.pc t = l)
    (ha : a ∈ P.accesses o c.shared.1 l)
    (hrace : ¬ (c.shared.2.before t (P.effect l)).Ordered t a) : False := by
  refine hsafe c hc t (o, 0) ?_
  unfold Config.advance
  rw [hl, exec_race ha hrace]
  rfl

end Interleaved

section Two

/-- A run after which `t` is at `l` and `u` at `k`. -/
structure Two (P : Program Tid O S L V Loc Sync)
    (init : Config Tid (S × Causality Tid V Loc Sync) L → Prop) (t u : Tid) (s : S) (l k : L)
    (c : Config Tid (S × Causality Tid V Loc Sync) L) : Prop where
  reach : Reach P.exec init c
  shared : c.shared.1 = s
  first : c.pc t = l
  second : c.pc u = k

variable {o : O} {s s' : S} {l l' k : L}

theorem Two.swap (h : Two P init t u s l k c) : Two P init u t s k l c :=
  ⟨h.reach, h.shared, h.second, h.first⟩

variable (hP : P.Lawful) (hinit : ∀ c, init c → c.shared.2.Bounded)
variable (hsafe : ∀ c, Reach P.exec init c → ∀ t o, c.advance P.exec t o ≠ .fault)
include hP hinit hsafe

theorem Two.step (htu : t ≠ u) (h : Two P init t u s l k c)
    (hcode : P.code t o s l = .ok (s', l')) :
    ∃ d, Two P init t u s' l' k d ∧ Follows P t o s l c.shared.2 d.shared.2 := by
  obtain ⟨hc, rfl, hl, hk⟩ := h
  obtain ⟨m, hm, hf⟩ := exists_step hP hinit hsafe hc hl hcode
  exact ⟨_, ⟨hm, rfl, Function.update_self .., (Function.update_of_ne htu.symm _ _).trans hk⟩, hf⟩

theorem Two.steps (htu : t ≠ u) (h : Two P init t u s l k c) (hsteps : Steps P.code t s l s' l') :
    ∃ d, Two P init t u s' l' k d := by
  induction hsteps generalizing c with
  | refl => exact ⟨c, h⟩
  | step hx _ ih =>
      obtain ⟨d, hd, -⟩ := Two.step hP hinit hsafe htu h hx
      exact ih hd

end Two

end Runs

end CsNotes.ReleaseAcquire
