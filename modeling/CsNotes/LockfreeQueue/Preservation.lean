import CsNotes.LockfreeQueue.Steps

/-!
# Every step keeps the assertions

One lemma for each kind of step, one for each control point, and from them the
proof outline of the queue.
-/
namespace CsNotes.LockfreeQueue
open Interleaving History Segment

variable {Tid A : Type*} [DecidableEq Tid] {s s' : Shared Tid A} {g g' : Ghost Tid}
variable {t : Tid} {pc pc' : PC A} {i n q x : ℕ} {r : Role Tid} {k : NodeRole Tid} {v : A}
variable {o : Oracle A} {c : Config Tid (Shared Tid A) (PC A)}

def Kept (c : Config Tid (Shared Tid A) (PC A)) (t : Tid) (r : Shared Tid A × PC A) : Prop :=
  ∃ g', Global r.1 g' ∧ Local r.1 g' t r.2 ∧ ∀ u, u ≠ t → Local r.1 g' u (c.pc u)

/-- The thread still has the same element and the same dummy node. -/
theorem Local.of_same (h : Local s g t pc) (hr : g'.role = g.role)
    (hk : g'.nodeRole = g.nodeRole) (he : pc'.element = pc.element)
    (hret : ∀ y, pc.Returns s y → pc'.Returns s' y) (hd : pc'.dummy = pc.dummy)
    (hp : g'.pending = some t → pc'.emplaced = some s'.tail) (hf : pc'.Facts s' g' t) :
    Local s' g' t pc' := by
  constructor
  case element =>
    rw [hr, he]
    exact h.element
  case popped =>
    rw [hr]
    exact fun y hy => hret y (h.popped y hy)
  case dummy =>
    rw [hk, hd]
    exact h.dummy
  case pending => exact hp
  case facts => exact hf

theorem Local.of_role (h : Local s g t pc) (hg : g'.role = Function.update g.role x r)
    (hk : g'.nodeRole = g.nodeRole) (hx : r = .own t ↔ pc'.element = some x)
    (he : ∀ y, y ≠ x → (pc.element = some y ↔ pc'.element = some y))
    (hr : r = .popped t → pc'.Returns s' x)
    (hret : ∀ y, y ≠ x → pc.Returns s y → pc'.Returns s' y) (hd : pc'.dummy = pc.dummy)
    (hp : g'.pending = some t → pc'.emplaced = some s'.tail) (hf : pc'.Facts s' g' t) :
    Local s' g' t pc' := by
  constructor
  case element =>
    rw [hg]
    apply (Function.forall_update_iff g.role fun y k => k = .own t ↔ pc'.element = some y).mpr
    exact ⟨hx, fun y hy => (h.element y).trans (he y hy)⟩
  case popped =>
    rw [hg]
    apply (Function.forall_update_iff g.role fun y k => k = .popped t → pc'.Returns s' y).mpr
    exact ⟨hr, fun y hy hp => hret y hy (h.popped y hp)⟩
  case dummy =>
    rw [hk, hd]
    exact h.dummy
  case pending => exact hp
  case facts => exact hf

theorem Local.of_nodeRole (h : Local s g t pc) (he : pc'.element = pc.element)
    (hret : ∀ y, pc.Returns s y → pc'.Returns s' y) (hk : k = .fresh t ↔ pc'.dummy = some q)
    (hd : ∀ p, p ≠ q → (pc.dummy = some p ↔ pc'.dummy = some p))
    (hp : g.pending = some t → pc'.emplaced = some s'.tail) (hf : pc'.Facts s' (g.setNode q k) t) :
    Local s' (g.setNode q k) t pc' := by
  constructor
  case element =>
    rw [he]
    exact h.element
  case popped => exact fun y hy => hret y (h.popped y hy)
  case dummy =>
    apply (Function.forall_update_iff g.nodeRole fun p k => k = .fresh t ↔ pc'.dummy = some p).mpr
    exact ⟨hk, fun p hp => (h.dummy p).trans (hd p hp)⟩
  case pending => exact hp
  case facts => exact hf

theorem kept_of_local (hG : Global c.shared g) (hL : ∀ u, Local c.shared g u (c.pc u))
    (he : pc'.element = (c.pc t).element)
    (hret : ∀ y, (c.pc t).Returns c.shared y → pc'.Returns c.shared y)
    (hd : pc'.dummy = (c.pc t).dummy)
    (hp : (c.pc t).emplaced = some c.shared.tail → pc'.emplaced = some c.shared.tail)
    (hf : pc'.Facts c.shared g t) : Kept c t (c.shared, pc') :=
  ⟨g, hG, (hL t).of_same rfl rfl he hret hd (fun h => hp ((hL t).pending h)) hf, fun u _ => hL u⟩

omit [DecidableEq Tid] in
theorem Global.dispose (h : Global s g) (hx : (g.role x).fate = some .owned) (f : Fate Tid) :
    ∃ v, s.elements[x]? = some ⟨v, .owned⟩ ∧
      s.dispose x f = .ok { s with elements := s.elements.set x ⟨v, f⟩ } := by
  have hf := h.fate x
  rw [hx, Option.map_eq_some_iff] at hf
  obtain ⟨⟨v, fate⟩, he, rfl⟩ := hf
  exact ⟨v, he, dispose_owned he⟩

/-- A push was cut short by an allocation, and deletes its element. -/
theorem kept_of_throw (hG : Global c.shared g) (hL : ∀ u, Local c.shared g u (c.pc u))
    (he : (c.pc t).element = some x) (hret : ∀ y, ¬ (c.pc t).Returns c.shared y)
    (hd : (c.pc t).dummy = none) (hp : (c.pc t).emplaced = none) (ho : Owes c.shared t []) :
    ((c.shared.dispose x .deleted).map fun s => (s, PC.idle)).Sat (Kept c t) := by
  have hx : g.role x = .own t := ((hL t).element x).mpr he
  obtain ⟨v, hv, hdis⟩ := hG.dispose (by rw [hx]; rfl) .deleted
  have hlt := (List.getElem?_eq_some_iff.mp hv).1
  rw [hdis]
  change Kept c t (_, _)
  refine ⟨g.setRole x .deleted, ?_, ?_, fun u hu => ?_⟩
  · refine hG.of_role rfl rfl rfl rfl ?_ ?_ ?_ ?_ ?_
    · simp [hx, Role.Loose]
    · trivial
    · simp [hx, Role.Entered]
    · simp [List.getElem?_set_self hlt, Role.fate]
    · exact fun y hy => List.getElem?_set_ne hy.symm
  · refine (hL t).of_role rfl rfl ?_ ?_ ?_ ?_ hd.symm ?_ ho
    · simp [PC.element]
    · intro y hy
      rw [he]
      simp [PC.element, hy.symm]
    · simp
    · exact fun y _ h => (hret y h).elim
    · intro h
      rw [(hL t).pending h] at hp
      cases hp
  · apply (hL u).frame
    exact .of_role (.refl _) rfl rfl (by simp [hx, hu.symm]) (by simp) rfl rfl rfl rfl id rfl rfl

theorem kept_of_make (hG : Global c.shared g) (hL : ∀ u, Local c.shared g u (c.pc u))
    (he : pc'.element = (c.pc t).element) (hret : ∀ y, ¬ (c.pc t).Returns c.shared y)
    (hd : (c.pc t).dummy = none) (hd' : pc'.dummy = some c.shared.nodes.length)
    (hp : (c.pc t).emplaced = none)
    (hf : pc'.Facts { c.shared with nodes := c.shared.nodes ++ [{}] }
      (g.setNode c.shared.nodes.length (.fresh t)) t) :
    Kept c t ({ c.shared with nodes := c.shared.nodes ++ [{}] }, pc') := by
  have habs := hG.absent c.shared.nodes.length (Nat.le_refl _)
  refine ⟨g.setNode c.shared.nodes.length (.fresh t), hG.of_make, ?_, fun u hu => ?_⟩
  · apply (hL t).of_nodeRole he
    · exact fun y h => (hret y h).elim
    · simp [hd']
    · intro p hp
      simp [hd, hd', hp.symm]
    · intro h
      rw [(hL t).pending h] at hp
      cases hp
    · exact hf
  · apply (hL u).frame
    exact .of_nodeRole (grows_append _ _) rfl rfl (by simp [habs]) (by simp [hu.symm]) rfl rfl

theorem kept_of_moveTail (hG : Global c.shared g) (hL : ∀ u, Local c.shared g u (c.pc u))
    (hlink : Linked c.shared.nodes c.shared.tail n) (he : pc'.element = (c.pc t).element)
    (hret : ∀ y, ¬ (c.pc t).Returns c.shared y) (hd : pc'.dummy = (c.pc t).dummy)
    (hf : ∀ g', Owes (c.shared.moveTail t c.shared.tail n) t [] →
      pc'.Facts (c.shared.moveTail t c.shared.tail n) g' t) (ho : Owes c.shared t []) :
    Kept c t (c.shared.moveTail t c.shared.tail n, pc') := by
  obtain ⟨m, hm, hdata, hnext⟩ := hlink
  obtain ⟨x, hx⟩ := Option.ne_none_iff_exists'.mp hdata
  obtain ⟨m', hm', -, hwait, -⟩ := hG.tail
  obtain rfl := Option.some.inj (hm.symm.trans hm')
  have hrole : g.role x = .waiting := (hwait x).mpr hx
  refine ⟨_, hG.of_moveTail hm hx hnext, ?_, fun u _ => (hL u).frame (.of_moveTail hrole hm hx)⟩
  refine (hL t).of_role rfl rfl ?_ (fun y _ => by rw [he]) ?_ ?_ hd ?_ ?_
  · have hnot := mt ((hL t).element x).mpr (by simp [hrole])
    simpa [he] using hnot
  · simp
  · exact fun y _ h => (hret y h).elim
  · simp
  · apply hf
    unfold Owes at ho ⊢
    simpa [Shared.moveTail, hm, hx] using ho

theorem kept_of_link {m : Node} (hG : Global c.shared g) (hL : ∀ u, Local c.shared g u (c.pc u))
    (hi : Known c.shared g i) (hm : c.shared.nodes[i]? = some m) (hfull : m.data ≠ none)
    (hnone : m.next = none) (hq : (c.pc t).dummy = some q)
    (he : pc'.element = (c.pc t).element) (hret : ∀ y, ¬ (c.pc t).Returns c.shared y)
    (hd : pc'.dummy = none) (hp : pc'.emplaced = (c.pc t).emplaced) (ho : Owes c.shared t [])
    (hf : ∀ s' g', Linked s'.nodes i q → Owes s' t [] → pc'.Facts s' g' t) :
    Kept c t (c.shared.setNode i { m with next := some q }, pc') := by
  obtain rfl : i = c.shared.tail := by
    apply hG.eq_tail hi
    rintro ⟨p, m', hm', -, hnext⟩
    rw [hm] at hm'
    obtain rfl := Option.some.inj hm'
    rw [hnone] at hnext
    cases hnext
  have hrole : g.nodeRole q = .fresh t := ((hL t).dummy q).mpr hq
  have hlt := (List.getElem?_eq_some_iff.mp hm).1
  refine ⟨_, hG.of_link hm hfull hnone hrole, ?_, fun u hu => ?_⟩
  · apply (hL t).of_nodeRole he
    · exact fun y h => (hret y h).elim
    · simp [hd]
    · intro p hp
      simp [hd, hq, hp.symm]
    · intro h
      rw [hp]
      exact (hL t).pending h
    · exact hf _ _ ⟨_, List.getElem?_set_self hlt, hfull, rfl⟩ ho
  · apply (hL u).frame
    exact .of_nodeRole (grows_set hm (fun _ => rfl) fun h => (h hnone).elim) rfl rfl
      (by simp [hrole, hu.symm]) (by simp) rfl rfl

theorem keep_idle (hG : Global c.shared g) (hL : ∀ u, Local c.shared g u (c.pc u))
    (hpc : c.pc t = .idle) : (exec t o c.shared (c.pc t)).Sat (Kept c t) := by
  have hf := (hL t).facts
  rw [hpc] at hf ⊢
  simp only [exec]
  cases o.call with
  | push v =>
      exact kept_of_local hG hL (by rw [hpc]; rfl) (by simp [hpc, PC.Returns]) (by rw [hpc]; rfl)
        (by simp [hpc, PC.emplaced]) hf
  | pop =>
      exact kept_of_local hG hL (by rw [hpc]; rfl) (by simp [hpc, PC.Returns]) (by rw [hpc]; rfl)
        (by simp [hpc, PC.emplaced]) hf

theorem keep_makeData (hG : Global c.shared g) (hL : ∀ u, Local c.shared g u (c.pc u))
    (hpc : c.pc t = .makeData v) : (exec t o c.shared (c.pc t)).Sat (Kept c t) := by
  have hl := hL t
  rw [hpc] at hl
  simp only [hpc, exec]
  split
  · exact kept_of_local hG hL (by rw [hpc]; rfl) (by simp [hpc, PC.Returns]) (by rw [hpc]; rfl)
      (by simp [hpc, PC.emplaced]) hl.facts
  · have habs : g.role c.shared.elements.length = .absent := hG.absent_element (Nat.le_refl _)
    refine ⟨g.setRole c.shared.elements.length (.own t), ?_, ?_, fun u hu => ?_⟩
    · refine hG.of_role rfl rfl rfl rfl ?_ trivial ?_ ?_ fun y hy => ?_
      · simp [habs, Role.Loose]
      · simp [habs, Role.Entered]
      · simp [Role.fate]
      · rcases Nat.lt_or_gt_of_ne hy with hlt | hgt
        · exact List.getElem?_append_left hlt
        · rw [List.getElem?_eq_none (by simp; omega), List.getElem?_eq_none (by omega)]
    · refine hl.of_role rfl rfl (by simp [PC.element]) (fun y hy => ?_) (by simp)
        (fun _ _ h => h.elim) rfl hl.pending hl.facts
      simp [PC.element, hy.symm]
    · apply (hL u).frame
      exact .of_role (.refl _) rfl rfl (by simp [habs]) (by simp [hu.symm]) rfl rfl rfl rfl id
        rfl rfl

theorem keep_makeTail (hG : Global c.shared g) (hL : ∀ u, Local c.shared g u (c.pc u))
    (hpc : c.pc t = .makeTail x) : (exec t o c.shared (c.pc t)).Sat (Kept c t) := by
  have hf := (hL t).facts
  rw [hpc] at hf
  simp only [hpc, exec]
  split
  · exact kept_of_throw hG hL (by rw [hpc]; rfl) (by simp [hpc, PC.Returns]) (by rw [hpc]; rfl)
      (by rw [hpc]; rfl) hf
  · exact kept_of_make hG hL (by rw [hpc]; rfl) (by simp [hpc, PC.Returns]) (by rw [hpc]; rfl) rfl
      (by rw [hpc]; rfl) hf

theorem keep_loadTail (hG : Global c.shared g) (hL : ∀ u, Local c.shared g u (c.pc u))
    (hpc : c.pc t = .loadTail x q) : (exec t o c.shared (c.pc t)).Sat (Kept c t) := by
  have hf := (hL t).facts
  rw [hpc] at hf ⊢
  exact kept_of_local hG hL (by rw [hpc]; rfl) (by simp [hpc, PC.Returns]) (by rw [hpc]; rfl)
    (by simp [hpc, PC.emplaced]) ⟨.inr rfl, hf⟩

theorem keep_casData (hG : Global c.shared g) (hL : ∀ u, Local c.shared g u (c.pc u))
    (hpc : c.pc t = .casData x q i) : (exec t o c.shared (c.pc t)).Sat (Kept c t) := by
  have hl := hL t
  rw [hpc] at hl
  obtain ⟨hi, ho⟩ := hl.facts
  obtain ⟨m, hm⟩ := hG.known_node hi
  simp only [hpc, exec, Shared.node, hm]
  split
  · rename_i hd
    obtain rfl : i = c.shared.tail := by
      apply hG.eq_tail hi
      rintro ⟨p, m', hm', hd', -⟩
      rw [hm] at hm'
      obtain rfl := Option.some.inj hm'
      exact hd' hd
    have hx : g.role x = .own t := (hl.element x).mpr rfl
    have hlt := (List.getElem?_eq_some_iff.mp hm).1
    refine ⟨_, hG.of_emplace hm hd hx, ?_, fun u hu => ?_⟩
    · refine hl.of_role rfl rfl (by simp [PC.element]) (fun y hy => ?_) (by simp)
        (fun _ _ h => h.elim) rfl (fun _ => rfl) ⟨.inr rfl, ?_, ho⟩
      · simp [PC.element, hy.symm]
      · exact ⟨_, List.getElem?_set_self hlt, by simp⟩
    · apply (hL u).frame
      exact .of_role (grows_set hm (fun h => (h hd).elim) fun _ => rfl) rfl rfl
        (by simp [hx, hu.symm]) (by simp) rfl rfl rfl rfl (by simp [hu.symm]) rfl rfl
  · rename_i hd
    exact kept_of_local hG hL (by rw [hpc]; rfl) (by simp [hpc, PC.Returns]) (by rw [hpc]; rfl)
      (by simp [hpc, PC.emplaced]) ⟨hi, ⟨m, hm, hd⟩, ho⟩

theorem keep_casNext (hG : Global c.shared g) (hL : ∀ u, Local c.shared g u (c.pc u))
    (hpc : c.pc t = .casNext x q i) : (exec t o c.shared (c.pc t)).Sat (Kept c t) := by
  have hl := hL t
  rw [hpc] at hl
  obtain ⟨hi, ⟨m, hm, hd⟩, ho⟩ := hl.facts
  simp only [hpc, exec, Shared.node, hm]
  split
  · rename_i hnext
    exact kept_of_link hG hL hi hm hd hnext (by rw [hpc]; rfl) (by rw [hpc]; rfl)
      (by simp [hpc, PC.Returns]) rfl (by rw [hpc]; rfl) ho fun _ _ hlink ho => ⟨hlink, ho⟩
  · rename_i p hnext
    have hq : g.nodeRole q = .fresh t := (hl.dummy q).mpr rfl
    refine ⟨_, hG.of_drop hq, ?_, fun u hu => (hL u).frame ?_⟩
    · refine hl.of_nodeRole rfl (fun _ h => h) (by simp [PC.dummy]) (fun p hp => ?_) hl.pending
        ⟨⟨m, hm, hd, hnext⟩, ho⟩
      simp [PC.dummy, hp.symm]
    · exact .of_nodeRole (.refl _) rfl rfl (by simp [hq, hu.symm]) (by simp) rfl rfl

theorem keep_casTail (hG : Global c.shared g) (hL : ∀ u, Local c.shared g u (c.pc u))
    (hpc : c.pc t = .casTail x i n) : (exec t o c.shared (c.pc t)).Sat (Kept c t) := by
  have hf := (hL t).facts
  rw [hpc] at hf
  obtain ⟨hlink, ho⟩ := hf
  simp only [hpc, exec, Outcome.sat_ok]
  split
  · rename_i ht
    subst ht
    exact kept_of_moveTail hG hL hlink (by rw [hpc]; rfl) (by simp [hpc, PC.Returns])
      (by rw [hpc]; rfl) (fun _ ho => ho) ho
  · rename_i ht
    refine kept_of_local hG hL (by rw [hpc]; rfl) (by simp [hpc, PC.Returns]) (by rw [hpc]; rfl)
      (fun h => ?_) ho
    rw [hpc] at h
    exact (ht (Option.some.inj h).symm).elim

theorem keep_helpNext (hG : Global c.shared g) (hL : ∀ u, Local c.shared g u (c.pc u))
    (hpc : c.pc t = .helpNext x q i) : (exec t o c.shared (c.pc t)).Sat (Kept c t) := by
  have hf := (hL t).facts
  rw [hpc] at hf
  obtain ⟨hi, ⟨m, hm, hd⟩, ho⟩ := hf
  simp only [hpc, exec, Shared.node, hm]
  split
  · rename_i hnext
    exact kept_of_link hG hL hi hm hd hnext (by rw [hpc]; rfl) (by rw [hpc]; rfl)
      (by simp [hpc, PC.Returns]) rfl (by rw [hpc]; rfl) ho fun _ _ hlink ho => ⟨hlink, ho⟩
  · rename_i p hnext
    exact kept_of_local hG hL (by rw [hpc]; rfl) (by simp [hpc, PC.Returns]) (by rw [hpc]; rfl)
      (by simp [hpc, PC.emplaced]) ⟨⟨m, hm, hd, hnext⟩, ho⟩

theorem keep_makeDummy (hG : Global c.shared g) (hL : ∀ u, Local c.shared g u (c.pc u))
    (hpc : c.pc t = .makeDummy x i n) : (exec t o c.shared (c.pc t)).Sat (Kept c t) := by
  have hf := (hL t).facts
  rw [hpc] at hf
  obtain ⟨hlink, ho⟩ := hf
  simp only [hpc, exec]
  split
  · exact kept_of_throw hG hL (by rw [hpc]; rfl) (by simp [hpc, PC.Returns]) (by rw [hpc]; rfl)
      (by rw [hpc]; rfl) ho
  · exact kept_of_make hG hL (by rw [hpc]; rfl) (by simp [hpc, PC.Returns]) (by rw [hpc]; rfl) rfl
      (by rw [hpc]; rfl) ⟨hlink.grows (grows_append _ _), ho⟩

theorem keep_helpTail (hG : Global c.shared g) (hL : ∀ u, Local c.shared g u (c.pc u))
    (hpc : c.pc t = .helpTail x q i n) : (exec t o c.shared (c.pc t)).Sat (Kept c t) := by
  have hf := (hL t).facts
  rw [hpc] at hf
  obtain ⟨hlink, ho⟩ := hf
  simp only [hpc, exec, Outcome.sat_ok]
  split
  · rename_i ht
    subst ht
    exact kept_of_moveTail hG hL hlink (by rw [hpc]; rfl) (by simp [hpc, PC.Returns])
      (by rw [hpc]; rfl) (fun _ ho => ho) ho
  · exact kept_of_local hG hL (by rw [hpc]; rfl) (by simp [hpc, PC.Returns]) (by rw [hpc]; rfl)
      (by simp [hpc, PC.emplaced]) ho

theorem keep_loadHead (hG : Global c.shared g) (hL : ∀ u, Local c.shared g u (c.pc u))
    (hpc : c.pc t = .loadHead) : (exec t o c.shared (c.pc t)).Sat (Kept c t) := by
  have hf := (hL t).facts
  rw [hpc] at hf ⊢
  exact kept_of_local hG hL (by rw [hpc]; rfl) (by simp [hpc, PC.Returns]) (by rw [hpc]; rfl)
    (by simp [hpc, PC.emplaced]) ⟨.inl rfl, hf⟩

theorem keep_pollTail {i : Option ℕ} (hG : Global c.shared g)
    (hL : ∀ u, Local c.shared g u (c.pc u)) (hpc : c.pc t = .pollTail i) :
    (exec t o c.shared (c.pc t)).Sat (Kept c t) := by
  have hl := hL t
  rw [hpc] at hl
  obtain ⟨hi, ho⟩ := hl.facts
  simp only [hpc, exec]
  split
  · rename_i ht
    subst ht
    refine ⟨g, hG.of_empty (hG.queue_nil (hG.behind_tail hi)), ?_, fun u hu => (hL u).frame ?_⟩
    · refine hl.of_same rfl rfl rfl (fun _ h => h.elim) rfl hl.pending ?_
      unfold Owes at ho
      change Owes _ _ _
      unfold Owes
      rw [answers_empty_self, ho, List.append_nil]
    · exact .of_ends (.refl _) rfl rfl rfl rfl (fun _ => Iff.rfl) (fun _ => Iff.rfl)
        (fun _ => Iff.rfl) id (answers_empty_of_ne hu.symm) rfl
  · rename_i ht
    exact kept_of_local hG hL (by rw [hpc]; rfl) (by simp [hpc, PC.Returns]) (by rw [hpc]; rfl)
      (by simp [hpc, PC.emplaced]) ⟨hG.behind_passed hi ht, ho⟩

theorem keep_loadNext {i : Option ℕ} (hG : Global c.shared g)
    (hL : ∀ u, Local c.shared g u (c.pc u)) (hpc : c.pc t = .loadNext i) :
    (exec t o c.shared (c.pc t)).Sat (Kept c t) := by
  have hf := (hL t).facts
  rw [hpc] at hf
  obtain ⟨⟨j, hj, rfl⟩, ho⟩ := hf
  obtain ⟨q, m, hm, hd, hq⟩ := hG.linked_passed hj
  simp only [hpc, exec, Shared.node, hm]
  exact kept_of_local hG hL (by rw [hpc]; rfl) (by simp [hpc, PC.Returns]) (by rw [hpc]; rfl)
    (by simp [hpc, PC.emplaced]) ⟨hj, ⟨m, hm, rfl, by simp [hq]⟩, ho⟩

theorem keep_casHead {next : Option ℕ} (hG : Global c.shared g)
    (hL : ∀ u, Local c.shared g u (c.pc u)) (hpc : c.pc t = .casHead i next) :
    (exec t o c.shared (c.pc t)).Sat (Kept c t) := by
  have hl := hL t
  rw [hpc] at hl
  obtain ⟨hi, ⟨m, hm, rfl, hnext⟩, ho⟩ := hl.facts
  simp only [hpc, exec]
  split
  · rename_i hh
    obtain ⟨m', x, rest, hq, hm', hd, -, hseg⟩ := hG.head_passed hi hh
    obtain rfl := Option.some.inj (hm.symm.trans hm')
    have hx : g.role x = .queued := (hG.queued x).mpr (by simp [hq])
    refine ⟨_, hG.of_moveHead hq hm hd hseg, ?_, fun u hu =>
      (hL u).frame (.of_moveHead hx hu.symm hq hh hm hd)⟩
    refine hl.of_role rfl rfl (by simp [PC.element]) (fun _ _ => by rfl) ?_
      (fun _ _ h => h.elim) rfl hl.pending ⟨m, x, hm, hd, ?_, ?_⟩
    · exact fun _ => ⟨m, hm, hd⟩
    · simp [Ghost.setRole]
    · unfold Owes at ho ⊢
      simp only [Shared.moveHead, hm, Option.bind_some, hd, Option.map_some, Option.toList_some]
      rw [answers_pop_self, ho, List.append_nil]
  · exact kept_of_local hG hL (by rw [hpc]; rfl) (by simp [hpc, PC.Returns]) (by rw [hpc]; rfl)
      (by simp [hpc, PC.emplaced]) ⟨.inl rfl, ho⟩

theorem keep_takeData (hG : Global c.shared g) (hL : ∀ u, Local c.shared g u (c.pc u))
    (hpc : c.pc t = .takeData i) : (exec t o c.shared (c.pc t)).Sat (Kept c t) := by
  have hf := (hL t).facts
  rw [hpc] at hf
  obtain ⟨m, x, hm, hd, hx, ho⟩ := hf
  simp only [hpc, exec, Shared.node, hm, hd]
  refine kept_of_local hG hL (by rw [hpc]; rfl) (fun y hy => ?_) (by rw [hpc]; rfl)
    (by simp [hpc, PC.emplaced]) ⟨hx, ho⟩
  rw [hpc] at hy
  obtain ⟨m', hm', hd'⟩ := hy
  rw [hm] at hm'
  obtain rfl := Option.some.inj hm'
  exact hd.symm.trans hd'

theorem keep_ret {r : Option ℕ} (hG : Global c.shared g) (hL : ∀ u, Local c.shared g u (c.pc u))
    (hpc : c.pc t = .ret r) : (exec t o c.shared (c.pc t)).Sat (Kept c t) := by
  have hl := hL t
  rw [hpc] at hl
  have hother : ∀ u l, u ≠ t →
      Function.update c.shared.returned t l u = c.shared.returned u := by
    intro u l hu
    exact Function.update_of_ne hu _ _
  simp only [hpc, exec]
  cases r with
  | none =>
      have ho : Owes c.shared t [none] := hl.facts
      refine ⟨g, hG.of_returned _, ?_, fun u hu => (hL u).frame ?_⟩
      · refine hl.of_same rfl rfl rfl (fun y hy => by cases hy) rfl hl.pending ?_
        change Owes _ _ _
        unfold Owes at ho ⊢
        simpa using ho
      · exact .of_ends (.refl _) rfl rfl rfl rfl (fun _ => Iff.rfl) (fun _ => Iff.rfl)
          (fun _ => Iff.rfl) id rfl (hother u _ hu)
  | some x =>
      obtain ⟨hx, ho⟩ := hl.facts
      obtain ⟨v, hv, hdis⟩ := hG.dispose (by rw [hx]; rfl) (.handed t)
      have hlt := (List.getElem?_eq_some_iff.mp hv).1
      simp only [hdis]
      change Kept c t (_, _)
      refine ⟨g.setRole x (.handed t), ?_, ?_, fun u hu => (hL u).frame ?_⟩
      · refine hG.of_role rfl rfl rfl rfl ?_ trivial ?_ ?_ fun y hy => ?_
        · simp [hx, Role.Loose]
        · simp [hx, Role.Entered]
        · simp [List.getElem?_set_self hlt, Role.fate]
        · exact List.getElem?_set_ne hy.symm
      · refine hl.of_role rfl rfl (by simp [PC.element]) (fun _ _ => Iff.rfl) (by simp)
          (fun y hy h => ?_) rfl hl.pending ?_
        · exact (hy (Option.some.inj h).symm).elim
        · change Owes _ _ _
          unfold Owes at ho ⊢
          simpa using ho
      · exact .of_role (.refl _) rfl rfl (by simp [hx, hu.symm]) (by simp) rfl rfl rfl rfl id rfl
          (hother u _ hu)

theorem outline : Outline exec (fun _ _ _ => True) (· = (start : Config Tid (Shared Tid A) (PC A)))
    Global Local where
  start := by
    rintro c rfl
    refine ⟨⟨fun i => if i = 0 then .linked else .absent, fun _ => .absent, [], [], none⟩, ?_,
      fun t => ?_⟩
    · constructor
      case seg => rfl
      case taken => simp
      case nodup => simp [Ghost.passed]
      case tail => exact ⟨{}, rfl, by simp, by simp, fun h => (h rfl).elim⟩
      case linked =>
        intro i hi
        have hi : i = 0 := by simpa [Known, Ghost.passed, start] using hi
        simp [hi]
      case fresh =>
        intro i t hi
        by_cases h : i = 0 <;> simp [h] at hi
      case absent =>
        intro i hi
        have hi : 1 ≤ i := hi
        simp only [ite_eq_right_iff]
        omega
      case fate => exact fun x => rfl
      case queued => simp
      case pushed => exact fun x => by simp [start, Role.Entered]
      case nodup_pushed => simp [start]
      case run => exact .nil
    · refine ⟨by simp [start, PC.element], by simp, fun q => ?_, by simp, rfl⟩
      by_cases h : q = 0 <;> simp [h, start, PC.dummy]
  step := by
    intro c t o g _ _ hG hL
    change (exec t o c.shared (c.pc t)).Sat (Kept c t)
    cases hpc : c.pc t with
    | idle => exact hpc ▸ keep_idle hG hL hpc
    | makeData v => exact hpc ▸ keep_makeData hG hL hpc
    | makeTail x => exact hpc ▸ keep_makeTail hG hL hpc
    | loadTail x q => exact hpc ▸ keep_loadTail hG hL hpc
    | casData x q i => exact hpc ▸ keep_casData hG hL hpc
    | casNext x q i => exact hpc ▸ keep_casNext hG hL hpc
    | casTail x i n => exact hpc ▸ keep_casTail hG hL hpc
    | helpNext x q i => exact hpc ▸ keep_helpNext hG hL hpc
    | makeDummy x i n => exact hpc ▸ keep_makeDummy hG hL hpc
    | helpTail x q i n => exact hpc ▸ keep_helpTail hG hL hpc
    | loadHead => exact hpc ▸ keep_loadHead hG hL hpc
    | pollTail i => exact hpc ▸ keep_pollTail hG hL hpc
    | loadNext i => exact hpc ▸ keep_loadNext hG hL hpc
    | casHead i next => exact hpc ▸ keep_casHead hG hL hpc
    | takeData i => exact hpc ▸ keep_takeData hG hL hpc
    | ret r => exact hpc ▸ keep_ret hG hL hpc

end CsNotes.LockfreeQueue
