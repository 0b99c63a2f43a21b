import CsNotes.LockfreeQueue.Invariant
import Mathlib.Data.List.Nodup

/-!
# What single steps do to the assertions

A step makes or gives up an element or a dummy node, sets one of the two fields
of the node `tail` is at, or moves `tail` or `head` by one node. A thread with a
stale node finds both of its fields set and changes nothing.
-/
namespace CsNotes.LockfreeQueue
open Interleaving History Segment

variable {Tid A : Type*} {s s' : Shared Tid A} {g g' : Ghost Tid} {t u : Tid}
variable {i q x : ℕ} {n n' : Node} {r : Role Tid} {k : NodeRole Tid}

/-- The ghost data after one element got further. -/
def Ghost.setRole (g : Ghost Tid) (x : ℕ) (r : Role Tid) : Ghost Tid :=
  { g with role := Function.update g.role x r }

/-- The ghost data after one node got further. -/
def Ghost.setNode (g : Ghost Tid) (i : ℕ) (k : NodeRole Tid) : Ghost Tid :=
  { g with nodeRole := Function.update g.nodeRole i k }

@[simp] theorem Ghost.passed_setRole : (g.setRole x r).passed = g.passed := rfl
@[simp] theorem Ghost.passed_setNode : (g.setNode i k).passed = g.passed := rfl
@[simp] theorem Ghost.role_setNode : (g.setNode i k).role = g.role := rfl
@[simp] theorem Ghost.nodeRole_setRole : (g.setRole x r).nodeRole = g.nodeRole := rfl

theorem Ghost.nodeRole_setNode : (g.setNode i k).nodeRole = Function.update g.nodeRole i k := rfl

theorem Role.Loose.ne_waiting (h : r.Loose) : r ≠ .waiting := by
  intro hr
  rw [hr] at h
  exact h

theorem Role.Loose.ne_queued (h : r.Loose) : r ≠ .queued := by
  intro hr
  rw [hr] at h
  exact h

theorem dispose_owned {v : A} {f : Fate Tid} (hx : s.elements[x]? = some ⟨v, .owned⟩) :
    s.dispose x f = .ok { s with elements := s.elements.set x ⟨v, f⟩ } := by
  unfold Shared.dispose
  rw [hx]

theorem dispose_eq_ok {f : Fate Tid} : s.dispose x f = .ok s' ↔
    ∃ v, s.elements[x]? = some ⟨v, .owned⟩ ∧
      { s with elements := s.elements.set x ⟨v, f⟩ } = s' := by
  constructor
  · intro h
    unfold Shared.dispose at h
    split at h
    · rename_i v hv
      exact ⟨v, hv, Outcome.ok.inj h⟩
    · cases h
  · rintro ⟨v, hv, rfl⟩
    exact dispose_owned hv

theorem node_eq_ok {B : Type*} {f : Node → Outcome B} {b : B} :
    s.node i f = .ok b ↔ ∃ n, s.nodes[i]? = some n ∧ f n = .ok b := by
  unfold Shared.node
  cases s.nodes[i]? <;> simp

theorem Global.eq_tail (h : Global s g) (hi : Known s g i) (hno : ¬ ∃ q, Linked s.nodes i q) :
    i = s.tail := by
  apply hi.resolve_left
  intro hp
  exact hno (h.linked_passed hp)

/-- A dummy node nobody has used is not where `tail` is or was. -/
theorem Global.not_known (h : Global s g) (hq : g.nodeRole q = .fresh t) : ¬ Known s g q := by
  intro hk
  have hl := h.linked q hk
  rw [hq] at hl
  cases hl

theorem Global.ne_tail (h : Global s g) (hq : g.nodeRole q = .fresh t) : q ≠ s.tail := by
  intro he
  exact h.not_known hq (.inr he)

theorem Global.absent_element (h : Global s g) (hx : s.elements.length ≤ x) :
    g.role x = .absent := by
  have hf := h.fate x
  rw [List.getElem?_eq_none hx] at hf
  cases hr : g.role x <;> rw [hr] at hf <;> simp [Role.fate] at hf ⊢

theorem Global.of_role (h : Global s g) (hn : s'.nodes = s.nodes) (hh : s'.head = s.head)
    (ht : s'.tail = s.tail) (hi : s'.history = s.history) (h₀ : (g.role x).Loose) (h₁ : r.Loose)
    (he : r.Entered ↔ (g.role x).Entered) (hx : (s'.elements[x]?).map Element.fate = r.fate)
    (hne : ∀ y, y ≠ x → s'.elements[y]? = s.elements[y]?) : Global s' (g.setRole x r) := by
  have hw := h₀.ne_waiting
  have hq := h₀.ne_queued
  have hw' := h₁.ne_waiting
  have hq' := h₁.ne_queued
  constructor
  case seg =>
    rw [hn, hh, ht]
    exact h.seg
  case taken =>
    rw [hn]
    exact h.taken
  case nodup =>
    rw [ht]
    exact h.nodup
  case tail =>
    obtain ⟨n, hread, hnext, hwait, hp⟩ := h.tail
    rw [ht, hn]
    refine ⟨n, hread, fun q hq => ?_, ?_, hp⟩
    · unfold Known
      rw [hn, ht]
      exact hnext q hq
    · apply (Function.forall_update_iff g.role fun y k => k = .waiting ↔ n.data = some y).mpr
      exact ⟨iff_of_false hw' (mt (hwait x).mpr hw), fun y _ => hwait y⟩
  case linked =>
    unfold Known
    rw [ht]
    exact h.linked
  case fresh =>
    rw [hn]
    exact h.fresh
  case absent =>
    rw [hn]
    exact h.absent
  case fate =>
    apply (Function.forall_update_iff g.role fun y k =>
      (s'.elements[y]?).map Element.fate = k.fate).mpr
    exact ⟨hx, fun y hy => hne y hy ▸ h.fate y⟩
  case queued =>
    apply (Function.forall_update_iff g.role fun y k => k = .queued ↔ y ∈ _).mpr
    exact ⟨iff_of_false hq' (mt (h.queued x).mpr hq), fun y _ => h.queued y⟩
  case pushed =>
    rw [hi]
    apply (Function.forall_update_iff g.role fun y k => y ∈ _ ↔ k.Entered).mpr
    exact ⟨(h.pushed x).trans he.symm, fun y _ => h.pushed y⟩
  case nodup_pushed =>
    rw [hi]
    exact h.nodup_pushed
  case run =>
    rw [hi]
    exact h.run

theorem Global.of_make (h : Global s g) :
    Global { s with nodes := s.nodes ++ [{}] } (g.setNode s.nodes.length (.fresh t)) := by
  have hg := grows_append s.nodes [{}]
  have hold : ∀ {j : ℕ} {m : Node}, s.nodes[j]? = some m →
      (s.nodes ++ [({} : Node)])[j]? = some m := by
    intro j m hm
    rwa [List.getElem?_append_left (List.getElem?_eq_some_iff.mp hm).1]
  have hlt : ∀ {j : ℕ} {m : Node}, s.nodes[j]? = some m → j ≠ s.nodes.length := by
    intro j m hm
    exact Nat.ne_of_lt (List.getElem?_eq_some_iff.mp hm).1
  obtain ⟨n, hn, hnext, hwait, hp⟩ := h.tail
  constructor
  case seg => exact seg_grows h.seg hg
  case taken =>
    intro i hi
    obtain ⟨q, hq⟩ := h.taken i hi
    exact ⟨q, hq.grows hg⟩
  case nodup => exact h.nodup
  case tail =>
    refine ⟨n, hold hn, fun q hq => ?_, hwait, hp⟩
    obtain ⟨hd, hread, hk, hr⟩ := hnext q hq
    refine ⟨hd, hold hread, hk, ?_⟩
    rwa [Ghost.nodeRole_setNode, Function.update_of_ne (hlt hread)]
  case linked =>
    intro i hi
    obtain ⟨m, hm⟩ := h.known_node hi
    rw [Ghost.nodeRole_setNode, Function.update_of_ne (hlt hm)]
    exact h.linked i hi
  case fresh =>
    intro i v hi
    rw [Ghost.nodeRole_setNode] at hi
    by_cases hl : i = s.nodes.length
    · subst hl
      simp
    · rw [Function.update_of_ne hl] at hi
      exact hold (h.fresh i v hi)
  case absent =>
    intro i hi
    rw [List.length_append, List.length_singleton] at hi
    rw [Ghost.nodeRole_setNode, Function.update_of_ne (by omega)]
    apply h.absent
    omega
  case fate => exact h.fate
  case queued => exact h.queued
  case pushed => exact h.pushed
  case nodup_pushed => exact h.nodup_pushed
  case run => exact h.run

theorem Global.of_drop (h : Global s g) (hq : g.nodeRole q = .fresh t) :
    Global s (g.setNode q .lost) := by
  have hne : ∀ i, Known s g i → i ≠ q := by
    intro i hi he
    exact h.not_known hq (he ▸ hi)
  have hold := h.fresh q t hq
  obtain ⟨n, hn, hnext, hwait, hp⟩ := h.tail
  refine ⟨h.seg, h.taken, h.nodup, ⟨n, hn, fun p hp => ?_, hwait, hp⟩, fun i hi => ?_,
    fun i v hi => ?_, fun i hi => ?_, h.fate, h.queued, h.pushed, h.nodup_pushed, h.run⟩
  · obtain ⟨hd, hread, hk, hr⟩ := hnext p hp
    refine ⟨hd, hread, hk, ?_⟩
    rw [Ghost.nodeRole_setNode, Function.update_of_ne]
    · exact hr
    · rintro rfl
      rw [hq] at hr
      cases hr
  · rw [Ghost.nodeRole_setNode, Function.update_of_ne (hne i hi)]
    exact h.linked i hi
  · rw [Ghost.nodeRole_setNode] at hi
    by_cases hiq : i = q
    · subst hiq
      simp at hi
    · rw [Function.update_of_ne hiq] at hi
      exact h.fresh i v hi
  · rw [Ghost.nodeRole_setNode, Function.update_of_ne]
    · exact h.absent i hi
    · rintro rfl
      rw [List.getElem?_eq_none hi] at hold
      cases hold

theorem Global.of_emplace (h : Global s g) (hn : s.nodes[s.tail]? = some n) (hd : n.data = none)
    (hx : g.role x = .own t) : Global (s.setNode s.tail { n with data := some x })
      { g.setRole x .waiting with pending := some t } := by
  obtain ⟨m, hm, hnext, hwait, hp⟩ := h.tail
  obtain rfl := Option.some.inj (hm.symm.trans hn)
  have hg : Grows s.nodes (s.nodes.set s.tail { m with data := some x }) :=
    grows_set hn (fun hne => (hne hd).elim) fun _ => rfl
  have hlt := (List.getElem?_eq_some_iff.mp hn).1
  have hnone : m.next = none := by
    cases hq : m.next with
    | none => rfl
    | some q => exact ((hnext q hq).1 hd).elim
  constructor
  case seg => exact seg_grows h.seg hg
  case taken =>
    intro i hi
    obtain ⟨q, hq⟩ := h.taken i hi
    exact ⟨q, hq.grows hg⟩
  case nodup => exact h.nodup
  case tail =>
    refine ⟨_, List.getElem?_set_self hlt, fun q hq => ?_, ?_, fun _ => by simp⟩
    · simp [hnone] at hq
    · apply (Function.forall_update_iff g.role fun y k => k = .waiting ↔ some x = some y).mpr
      refine ⟨by simp, fun y hy => iff_of_false ?_ (by simpa using hy.symm)⟩
      rw [hwait, hd]
      simp
  case linked => exact h.linked
  case fresh =>
    intro i v hi
    change (s.nodes.set s.tail _)[i]? = _
    rw [List.getElem?_set_ne (h.ne_tail hi).symm]
    exact h.fresh i v hi
  case absent =>
    intro i hi
    apply h.absent i
    simpa [Shared.setNode] using hi
  case fate =>
    apply (Function.forall_update_iff g.role fun y k =>
      (s.elements[y]?).map Element.fate = k.fate).mpr
    exact ⟨(h.fate x).trans (by rw [hx]; rfl), fun y _ => h.fate y⟩
  case queued =>
    apply (Function.forall_update_iff g.role fun y k => k = .queued ↔ y ∈ _).mpr
    exact ⟨iff_of_false (by simp) (mt (h.queued x).mpr (by simp [hx])), fun y _ => h.queued y⟩
  case pushed =>
    apply (Function.forall_update_iff g.role fun y k => y ∈ _ ↔ k.Entered).mpr
    exact ⟨(h.pushed x).trans (by rw [hx]; rfl), fun y _ => h.pushed y⟩
  case nodup_pushed => exact h.nodup_pushed
  case run => exact h.run

theorem Global.of_link (h : Global s g) (hn : s.nodes[s.tail]? = some n) (hd : n.data ≠ none)
    (hnone : n.next = none) (hq : g.nodeRole q = .fresh t) :
    Global (s.setNode s.tail { n with next := some q }) (g.setNode q .linked) := by
  obtain ⟨m, hm, hnext, hwait, hp⟩ := h.tail
  obtain rfl := Option.some.inj (hm.symm.trans hn)
  have hg : Grows s.nodes (s.nodes.set s.tail { m with next := some q }) :=
    grows_set hn (fun _ => rfl) fun hne => (hne hnone).elim
  have hlt := (List.getElem?_eq_some_iff.mp hn).1
  have hqt := h.ne_tail hq
  constructor
  case seg => exact seg_grows h.seg hg
  case taken =>
    intro i hi
    obtain ⟨p, hp⟩ := h.taken i hi
    exact ⟨p, hp.grows hg⟩
  case nodup => exact h.nodup
  case tail =>
    refine ⟨_, List.getElem?_set_self hlt, fun p hp => ?_, hwait, hp⟩
    obtain rfl := Option.some.inj hp
    refine ⟨hd, ?_, h.not_known hq, by simp [Ghost.nodeRole_setNode]⟩
    change (s.nodes.set s.tail _)[q]? = _
    rw [List.getElem?_set_ne hqt.symm]
    exact h.fresh q t hq
  case linked =>
    intro i hi
    rw [Ghost.nodeRole_setNode]
    by_cases hiq : i = q
    · simp [hiq]
    · rw [Function.update_of_ne hiq]
      exact h.linked i hi
  case fresh =>
    intro i v hi
    rw [Ghost.nodeRole_setNode] at hi
    by_cases hiq : i = q
    · simp [hiq] at hi
    · rw [Function.update_of_ne hiq] at hi
      change (s.nodes.set s.tail _)[i]? = _
      rw [List.getElem?_set_ne (h.ne_tail hi).symm]
      exact h.fresh i v hi
  case absent =>
    intro i hi
    rw [Shared.setNode, List.length_set] at hi
    have hiq : i ≠ q := by
      rintro rfl
      have := h.fresh i t hq
      rw [List.getElem?_eq_none hi] at this
      cases this
    rw [Ghost.nodeRole_setNode, Function.update_of_ne hiq]
    exact h.absent i hi
  case fate => exact h.fate
  case queued => exact h.queued
  case pushed => exact h.pushed
  case nodup_pushed => exact h.nodup_pushed
  case run => exact h.run

/-- `tail` moves past its node, whose element is now in the queue. -/
theorem Global.of_moveTail (h : Global s g) (hn : s.nodes[s.tail]? = some n)
    (hd : n.data = some x) (hq : n.next = some q) : Global (s.moveTail t s.tail q)
      { g.setRole x .queued with queue := g.queue ++ [(s.tail, x)], pending := none } := by
  obtain ⟨m, hm, hnext, hwait, -⟩ := h.tail
  obtain rfl := Option.some.inj (hm.symm.trans hn)
  obtain ⟨-, hread, hk, hr⟩ := hnext q hq
  have hx : g.role x = .waiting := (hwait x).mpr hd
  have hfresh : x ∉ History.pushed s.history := by
    rw [h.pushed, hx]
    exact id
  have hi : (s.moveTail t s.tail q).history = s.history ++ [.push t x] := by
    simp [Shared.moveTail, hn, hd]
  have hpassed : ∀ {j}, Known (s.moveTail t s.tail q)
      { g.setRole x .queued with queue := g.queue ++ [(s.tail, x)], pending := none } j ↔
        Known s g j ∨ j = q := by
    intro j
    simp [Known, Ghost.passed, Ghost.setRole, Shared.moveTail, or_assoc]
  constructor
  case seg => exact h.seg.snoc ⟨rfl, by simp, m, hn, hd, hq⟩
  case taken => exact h.taken
  case nodup =>
    have hnd : (g.passed ++ [s.tail]).Nodup := h.nodup
    have hq' : q ∉ g.passed ++ [s.tail] := by
      intro hmem
      apply hk
      simpa [Known] using hmem
    have := List.Nodup.concat hq' hnd
    simpa [Ghost.passed, Ghost.setRole, Shared.moveTail] using this
  case tail =>
    refine ⟨{}, hread, fun p hp => by simp at hp, ?_, fun hne => (hne rfl).elim⟩
    apply (Function.forall_update_iff g.role fun y k => k = .waiting ↔ none = some y).mpr
    refine ⟨by simp, fun y hy => iff_of_false ?_ (by simp)⟩
    rw [hwait, hd]
    simpa using hy.symm
  case linked =>
    intro j hj
    rcases hpassed.mp hj with hj | rfl
    · exact h.linked j hj
    · exact hr
  case fresh => exact h.fresh
  case absent => exact h.absent
  case fate =>
    apply (Function.forall_update_iff g.role fun y k =>
      (s.elements[y]?).map Element.fate = k.fate).mpr
    exact ⟨(h.fate x).trans (by rw [hx]; rfl), fun y _ => h.fate y⟩
  case queued =>
    rw [List.map_append]
    apply (Function.forall_update_iff g.role fun y k => k = .queued ↔ y ∈ _ ++ [x]).mpr
    exact ⟨by simp, fun y hy => by simpa [hy] using h.queued y⟩
  case pushed =>
    rw [hi, pushed_push]
    apply (Function.forall_update_iff g.role fun y k => y ∈ _ ++ [x] ↔ k.Entered).mpr
    exact ⟨by simp [Role.Entered], fun y hy => by simpa [hy] using h.pushed y⟩
  case nodup_pushed =>
    rw [hi, pushed_push, ← List.concat_eq_append]
    exact List.Nodup.concat hfresh h.nodup_pushed
  case run =>
    rw [hi]
    simpa using h.run.push t x

/-- `head` is a node `tail` has passed only if that is the first one of the queue. -/
theorem Global.head_passed (h : Global s g) (hi : i ∈ g.passed) (hh : s.head = some i) :
    ∃ n x rest, g.queue = (i, x) :: rest ∧ s.nodes[i]? = some n ∧ n.data = some x ∧
      n.next ≠ none ∧ Seg (Queued s.nodes) (· = some s.tail) n.next rest := by
  have hseg := h.seg
  cases hq : g.queue with
  | nil =>
      rw [hq, hh] at hseg
      obtain rfl := Option.some.inj hseg
      exact (h.tail_not_passed hi).elim
  | cons y rest =>
      rw [hq, hh] at hseg
      obtain ⟨next, ⟨hy, hnext, n, hn, hd, rfl⟩, hrest⟩ := hseg
      obtain ⟨j, x⟩ := y
      obtain rfl := Option.some.inj hy
      exact ⟨n, x, rest, rfl, hn, hd, hnext, hrest⟩

theorem Global.of_moveHead {rest : List (ℕ × ℕ)} (h : Global s g) (hg : g.queue = (i, x) :: rest)
    (hn : s.nodes[i]? = some n) (hd : n.data = some x)
    (hseg : Seg (Queued s.nodes) (· = some s.tail) n.next rest) :
    Global (s.moveHead t i n.next)
      { g.setRole x (.popped t) with taken := g.taken ++ [i], queue := rest } := by
  have hpassed : ∀ r : ℕ → Role Tid, ({ g with
      role := r
      taken := g.taken ++ [i]
      queue := rest } : Ghost Tid).passed = g.passed := by
    intro r
    simp [Ghost.passed, hg]
  have hx : g.role x = .queued := (h.queued x).mpr (by simp [hg])
  have hi : (s.moveHead t i n.next).history = s.history ++ [.pop t x] := by
    simp [Shared.moveHead, hn, hd]
  have hnodup : x ∉ rest.map Prod.snd := by
    have hnd := h.nodup_pushed
    rw [h.run.pushed_eq, hg, List.map_cons, List.nodup_append] at hnd
    exact (List.nodup_cons.mp hnd.2.1).1
  obtain ⟨m, hm, hnext, hwait, hp⟩ := h.tail
  constructor
  case seg => exact hseg
  case taken =>
    intro j hj
    apply h.linked_passed
    rw [List.mem_append, List.mem_singleton] at hj
    rcases hj with hj | rfl
    · exact List.mem_append_left _ hj
    · exact List.mem_append_right _ (by simp [hg])
  case nodup =>
    have := h.nodup
    rwa [← hpassed] at this
  case tail =>
    refine ⟨m, hm, fun q hq => ?_, ?_, hp⟩
    · unfold Known
      rw [Ghost.setRole, hpassed]
      exact hnext q hq
    · apply (Function.forall_update_iff g.role fun y k => k = .waiting ↔ m.data = some y).mpr
      exact ⟨iff_of_false (by simp) (mt (hwait x).mpr (by simp [hx])), fun y _ => hwait y⟩
  case linked =>
    unfold Known
    rw [Ghost.setRole, hpassed]
    exact h.linked
  case fresh => exact h.fresh
  case absent => exact h.absent
  case fate =>
    apply (Function.forall_update_iff g.role fun y k =>
      (s.elements[y]?).map Element.fate = k.fate).mpr
    exact ⟨(h.fate x).trans (by rw [hx]; rfl), fun y _ => h.fate y⟩
  case queued =>
    apply (Function.forall_update_iff g.role fun y k => k = .queued ↔ y ∈ rest.map Prod.snd).mpr
    refine ⟨iff_of_false (by simp) hnodup, fun y hy => ?_⟩
    simpa [hg, hy] using h.queued y
  case pushed =>
    rw [hi, pushed_pop]
    apply (Function.forall_update_iff g.role fun y k => y ∈ _ ↔ k.Entered).mpr
    exact ⟨(h.pushed x).trans (by rw [hx]; rfl), fun y _ => h.pushed y⟩
  case nodup_pushed =>
    rw [hi, pushed_pop]
    exact h.nodup_pushed
  case run =>
    rw [hi]
    apply QueueRun.pop
    have := h.run
    rwa [hg] at this

theorem Global.queue_nil (h : Global s g) (hh : s.head = some s.tail) : g.queue = [] := by
  have hseg := h.seg
  cases hq : g.queue with
  | nil => rfl
  | cons y rest =>
      rw [hq, hh] at hseg
      obtain ⟨next, ⟨hy, -⟩, -⟩ := hseg
      apply h.tail_not_passed.elim
      rw [Option.some.inj hy]
      simp [Ghost.passed, hq]

theorem Global.behind_tail (h : Global s g) (hi : Behind s g (some s.tail)) :
    s.head = some s.tail := by
  rcases hi with hi | ⟨j, hj, hi⟩
  · exact hi.symm
  · rw [← Option.some.inj hi] at hj
    exact (h.tail_not_passed (List.mem_append_left _ hj)).elim

theorem Global.behind_passed {i : Option ℕ} (h : Global s g) (hi : Behind s g i)
    (hne : i ≠ some s.tail) : ∃ j ∈ g.passed, i = some j := by
  rcases hi with rfl | ⟨j, hj, rfl⟩
  · have hseg := h.seg
    cases hq : g.queue with
    | nil =>
        rw [hq] at hseg
        exact (hne hseg).elim
    | cons y rest =>
        rw [hq] at hseg
        obtain ⟨next, ⟨hy, -⟩, -⟩ := hseg
        exact ⟨y.1, by simp [Ghost.passed, hq], hy⟩
  · exact ⟨j, List.mem_append_left _ hj, rfl⟩

theorem Global.of_empty (h : Global s g) (hq : g.queue = []) :
    Global { s with history := s.history ++ [.empty t] } g := by
  have hrun := h.run
  rw [hq] at hrun
  refine ⟨h.seg, h.taken, h.nodup, h.tail, h.linked, h.fresh, h.absent, h.fate, h.queued,
    fun x => ?_, ?_, ?_⟩
  · rw [pushed_empty]
    exact h.pushed x
  · rw [pushed_empty]
    exact h.nodup_pushed
  · rw [hq]
    exact hrun.empty t

theorem Global.of_returned (h : Global s g) (f : Tid → List (Option ℕ)) :
    Global { s with returned := f } g :=
  ⟨h.seg, h.taken, h.nodup, h.tail, h.linked, h.fresh, h.absent, h.fate, h.queued, h.pushed,
    h.nodup_pushed, h.run⟩

section Frame
variable [DecidableEq Tid]

theorem Frame.of_ends (hn : Grows s.nodes s'.nodes) (hh : s'.head = s.head) (ht : s'.tail = s.tail)
    (hT : g'.taken = g.taken) (hQ : g'.queue = g.queue)
    (hown : ∀ x, g'.role x = .own u ↔ g.role x = .own u)
    (hpop : ∀ x, g'.role x = .popped u ↔ g.role x = .popped u)
    (hfresh : ∀ q, g'.nodeRole q = .fresh u ↔ g.nodeRole q = .fresh u)
    (hp : g'.pending = some u → g.pending = some u)
    (ho : answers u s'.history = answers u s.history) (hr : s'.returned u = s.returned u) :
    Frame u s g s' g' := by
  have hpassed : g'.passed = g.passed := by
    unfold Ghost.passed
    rw [hT, hQ]
  constructor
  case grows => exact hn
  case own => exact hown
  case popped => exact hpop
  case fresh => exact hfresh
  case pending => exact fun h => ⟨hp h, ht⟩
  case passed =>
    rw [hpassed]
    exact fun i hi => hi
  case known => exact .inr ht.symm
  case behind =>
    unfold Behind
    rw [hT, hh]
    exact fun i hi => hi
  case owed => exact ho
  case returned => exact hr

/-- One element changed hands, between owners other than `u`. -/
theorem Frame.of_role (hn : Grows s.nodes s'.nodes) (hh : s'.head = s.head) (ht : s'.tail = s.tail)
    (h₀ : g.role x ≠ .own u ∧ g.role x ≠ .popped u) (h₁ : r ≠ .own u ∧ r ≠ .popped u)
    (hg : g'.role = Function.update g.role x r) (hk : g'.nodeRole = g.nodeRole)
    (hT : g'.taken = g.taken) (hQ : g'.queue = g.queue)
    (hp : g'.pending = some u → g.pending = some u)
    (ho : answers u s'.history = answers u s.history) (hr : s'.returned u = s.returned u) :
    Frame u s g s' g' := by
  refine Frame.of_ends hn hh ht hT hQ ?_ ?_ (fun q => by rw [hk]) hp ho hr
  · rw [hg]
    apply (Function.forall_update_iff g.role fun y k => k = .own u ↔ g.role y = .own u).mpr
    exact ⟨iff_of_false h₁.1 h₀.1, fun _ _ => Iff.rfl⟩
  · rw [hg]
    apply (Function.forall_update_iff g.role fun y k => k = .popped u ↔ g.role y = .popped u).mpr
    exact ⟨iff_of_false h₁.2 h₀.2, fun _ _ => Iff.rfl⟩

theorem Frame.of_nodeRole (hn : Grows s.nodes s'.nodes) (hh : s'.head = s.head)
    (ht : s'.tail = s.tail) (h₀ : g.nodeRole q ≠ .fresh u) (h₁ : k ≠ .fresh u)
    (hi : s'.history = s.history) (hr : s'.returned = s.returned) :
    Frame u s g s' (g.setNode q k) := by
  refine Frame.of_ends hn hh ht rfl rfl (fun _ => Iff.rfl) (fun _ => Iff.rfl) ?_ id (by rw [hi])
    (by rw [hr])
  apply (Function.forall_update_iff g.nodeRole fun y k =>
    k = .fresh u ↔ g.nodeRole y = .fresh u).mpr
  exact ⟨iff_of_false h₁ h₀, fun _ _ => Iff.rfl⟩

theorem Frame.of_moveTail (hx : g.role x = .waiting) (hn : s.nodes[s.tail]? = some n)
    (hd : n.data = some x) : Frame u s g (s.moveTail t s.tail q)
      { g.setRole x .queued with queue := g.queue ++ [(s.tail, x)], pending := none } := by
  constructor
  case grows => exact .refl _
  case own =>
    apply (Function.forall_update_iff g.role fun y k => k = .own u ↔ g.role y = .own u).mpr
    exact ⟨iff_of_false (by simp) (by simp [hx]), fun _ _ => Iff.rfl⟩
  case popped =>
    apply (Function.forall_update_iff g.role fun y k => k = .popped u ↔ g.role y = .popped u).mpr
    exact ⟨iff_of_false (by simp) (by simp [hx]), fun _ _ => Iff.rfl⟩
  case fresh => exact fun _ => Iff.rfl
  case pending => exact fun h => by cases h
  case passed =>
    intro i hi
    unfold Ghost.passed at hi ⊢
    rw [List.map_append, ← List.append_assoc]
    exact List.mem_append_left _ hi
  case known =>
    apply Or.inl
    simp [Ghost.passed]
  case behind => exact fun i hi => hi
  case owed => simp [Shared.moveTail, hn, hd]
  case returned => rfl

theorem Frame.of_moveHead {rest : List (ℕ × ℕ)} (hx : g.role x = .queued) (htu : t ≠ u)
    (hg : g.queue = (i, x) :: rest) (hh : s.head = some i) (hn : s.nodes[i]? = some n)
    (hd : n.data = some x) {next : Option ℕ} : Frame u s g (s.moveHead t i next)
      { g.setRole x (.popped t) with taken := g.taken ++ [i], queue := rest } := by
  have hpassed : ({ g.setRole x (.popped t) with
      taken := g.taken ++ [i]
      queue := rest } : Ghost Tid).passed = g.passed := by
    simp [Ghost.passed, hg]
  constructor
  case grows => exact .refl _
  case own =>
    apply (Function.forall_update_iff g.role fun y k => k = .own u ↔ g.role y = .own u).mpr
    exact ⟨iff_of_false (by simp) (by simp [hx]), fun _ _ => Iff.rfl⟩
  case popped =>
    apply (Function.forall_update_iff g.role fun y k => k = .popped u ↔ g.role y = .popped u).mpr
    exact ⟨iff_of_false (by simpa using htu) (by simp [hx]), fun _ _ => Iff.rfl⟩
  case fresh => exact fun _ => Iff.rfl
  case pending => exact fun h => ⟨h, rfl⟩
  case passed =>
    rw [hpassed]
    exact fun i hi => hi
  case known => exact .inr rfl
  case behind =>
    intro j hj
    rcases hj with rfl | ⟨j, hj, rfl⟩
    · exact .inr ⟨i, by simp, hh⟩
    · exact .inr ⟨j, List.mem_append_left _ hj, rfl⟩
  case owed =>
    simp only [Shared.moveHead, hn, Option.bind_some, hd, Option.map_some, Option.toList_some]
    exact answers_pop_of_ne htu
  case returned => rfl

end Frame
end CsNotes.LockfreeQueue
