import CsNotes.HazardPointer.Invariant

/-!
# What single steps do to the assertions

A step changes a hazard slot of its own, or it changes the stage of one node and
with it at most one of the lists. The lemmas say what either takes to keep the
global assertion and to be no concern of the other threads. Taking the whole
reclaim list is the only step that moves many nodes at once.
-/
namespace CsNotes.HazardPointer
open Interleaving Storage History Segment

variable {N : ℕ} {Stack Tid Addr A : Type*} {s s' : Shared N Stack Tid Addr A}
variable {g g' : Ghost Stack Tid Addr A} {t u : Tid} {pc pc' : PC Stack Addr A}
variable {m m' : Memory Addr (Node Addr A)} {p : Ptr Addr} {n n' : Node Addr A} {a : Addr}
variable {r : Role Stack Tid} {k : Stack}

theorem Linked.next {x : Addr × A} {h next : Option Addr} (hx : Linked m h x next) :
    Next m h x.1 next := by
  obtain ⟨hp, q, n, hq, hn, -, hnext⟩ := hx
  exact ⟨hp, q, n, hq, hn, hnext⟩

theorem Seg.linked_off {h : Option Addr} {l : List (Addr × A)}
    (hs : Seg (Linked m) (· = none) h l) (hm : Memory.EqOff a m m') (ha : a ∉ l.map Prod.fst) :
    Seg (Linked m') (· = none) h l := by
  refine hs.congr fun x hx c next hn => ?_
  obtain ⟨hc, q, k, hq, hk, hd⟩ := hn
  refine ⟨hc, q, k, hq, ?_, hd⟩
  rw [hm.read ?_, hk]
  rintro rfl
  exact ha (hq ▸ List.mem_map_of_mem hx)

theorem Seg.next_off {h : Option Addr} {l : List Addr} (hs : Seg (Next m) (· = none) h l)
    (hm : Memory.EqOff a m m') (ha : a ∉ l) : Seg (Next m') (· = none) h l := by
  refine hs.congr fun b hb c next hn => ?_
  obtain ⟨hc, q, k, hq, hk, hd⟩ := hn
  refine ⟨hc, q, k, hq, ?_, hd⟩
  rw [hm.read ?_, hk]
  rintro rfl
  exact ha (hq ▸ hb)

theorem follow_sat {B : Type*} {f : Option (Ptr Addr) → Outcome B} {P : B → Prop}
    {h : Option Addr} {l : List Addr} (hs : Seg (Next s.mem) (· = none) h l)
    (hf : ∀ q, q.map Ptr.addr = h → (∀ p, q = some p → ∃ n, s.mem.read p = some n) → (f q).Sat P) :
    (s.follow h f).Sat P := by
  cases l with
  | nil =>
      obtain rfl : h = none := hs
      exact hf none rfl (by simp)
  | cons a l =>
      obtain ⟨next, ⟨rfl, q, n, rfl, hn, -⟩, -⟩ := hs
      simp only [Shared.follow, Memory.find_of_read hn]
      refine hf (some q) rfl fun p hp => ⟨n, ?_⟩
      rw [← Option.some.inj hp, hn]

theorem Global.seg_next (h : Global s g) (k : Stack) :
    Seg (Next s.mem) (· = none) (s.head k) ((g.stack k).map Prod.fst) :=
  (h.seg k).map fun _ _ _ _ hx => hx.next

theorem Global.not_linked (h : Global s g) (ha : ∀ k, g.role a ≠ .linked k) :
    a ∉ (g.stack k).map Prod.fst :=
  fun hm => ha k ((h.linked k a).mpr hm)

theorem Global.not_listed (h : Global s g) (ha : g.role a ≠ .listed) : a ∉ g.reclaim :=
  fun hm => ha ((h.listed a).mpr hm)

theorem Role.Loose.ne_linked (h : r.Loose) : r ≠ .linked k := by
  rintro rfl
  exact h

theorem Role.Loose.ne_listed (h : r.Loose) : r ≠ .listed := by
  rintro rfl
  exact h

theorem Global.top (h : Global s g) (ha : s.head k = some a) :
    ∃ p n l, p.addr = a ∧ s.mem.read p = some n ∧ g.stack k = (a, n.data) :: l ∧
      Seg (Linked s.mem) (· = none) n.next l := by
  have hseg := h.seg k
  cases hl : g.stack k with
  | nil =>
      rw [hl] at hseg
      simp [ha] at hseg
  | cons x l =>
      rw [hl] at hseg
      obtain ⟨next, ⟨hx, q, n, hq, hn, hd, rfl⟩, hrest⟩ := hseg
      have hxa : x.1 = a := Option.some.inj (hx.symm.trans ha)
      exact ⟨q, n, l, hq.trans hxa, hn, by rw [← hxa, hd], hrest⟩

/-- A thread changes its own slot, or takes one without an owner. -/
theorem Global.of_slots (h : Global s g) {slots : Fin N → Slot Tid Addr}
    {hazard : Tid → Option (Fin N)} (ho : ∀ t i, hazard t = some i ↔ (slots i).id = some t) :
    Global { s with slots := slots, hazard := hazard } g :=
  ⟨h.free, h.linked, h.listed, h.nodup, h.nodup_reclaim, h.seg, h.reclaim, ho, h.run⟩

section Lists
variable [DecidableEq Addr]

/-- The ghost data after the stage of one node changed. -/
def Ghost.set (g : Ghost Stack Tid Addr A) (a : Addr) (r : Role Stack Tid) :
    Ghost Stack Tid Addr A :=
  { g with role := Function.update g.role a r }

@[simp] theorem Ghost.stack_set : (g.set a r).stack = g.stack := rfl
@[simp] theorem Ghost.reclaim_set : (g.set a r).reclaim = g.reclaim := rfl

/-- The stage of one node changes, and with it at most the lists it is on. -/
theorem Global.relink (h : Global s g) {stack : Stack → List (Addr × A)} {reclaim : List Addr}
    {chain : Tid → List Addr} (hm : Memory.EqOff a s.mem s'.mem)
    (hf : r = .free ↔ s'.mem.cell a = none)
    (hl : ∀ k b, b ∈ (stack k).map Prod.fst ↔
      if b = a then r = .linked k else b ∈ (g.stack k).map Prod.fst)
    (hr : ∀ b, b ∈ reclaim ↔ if b = a then r = .listed else b ∈ g.reclaim)
    (hnd : ∀ k, ((stack k).map Prod.fst).Nodup) (hnr : reclaim.Nodup)
    (hs : ∀ k, Seg (Linked s'.mem) (· = none) (s'.head k) (stack k))
    (hc : Seg (Next s'.mem) (· = none) s'.nodesToReclaim reclaim)
    (ho : ∀ t i, s'.hazard t = some i ↔ (s'.slots i).id = some t)
    (hrun : ∀ k, StackRun (s'.history k) ((stack k).map Prod.snd)) :
    Global s' ⟨Function.update g.role a r, stack, reclaim, chain⟩ := by
  refine ⟨fun b => ?_, fun k b => ?_, fun b => ?_, hnd, hnr, hs, hc, ho, hrun⟩
  · by_cases hb : b = a
    · subst hb
      simpa only [Function.update_self] using hf
    · simpa only [Function.update_of_ne hb, hm b hb] using h.free b
  · rw [hl k b]
    by_cases hb : b = a
    · subst hb
      simp only [Function.update_self, if_true]
    · simpa only [Function.update_of_ne hb, if_neg hb] using h.linked k b
  · rw [hr b]
    by_cases hb : b = a
    · subst hb
      simp only [Function.update_self, if_true]
    · simpa only [Function.update_of_ne hb, if_neg hb] using h.listed b

theorem Global.of_set (h : Global s g) (h₀ : (g.role a).Loose) (h₁ : r.Loose)
    (hm : Memory.EqOff a s.mem m) (hf : r = .free ↔ m.cell a = none) :
    Global { s with mem := m } (g.set a r) := by
  have hl : ∀ k, a ∉ (g.stack k).map Prod.fst := fun k => h.not_linked fun _ => h₀.ne_linked
  have hr : a ∉ g.reclaim := h.not_listed h₀.ne_listed
  refine h.relink hm hf (fun k b => ?_) (fun b => ?_) h.nodup h.nodup_reclaim
    (fun k => Seg.linked_off (h.seg k) hm (hl k)) (Seg.next_off h.reclaim hm hr) h.owner h.run
  · by_cases hb : b = a
    · subst hb
      simpa only [if_true, h₁.ne_linked, iff_false] using hl k
    · rw [if_neg hb]
  · by_cases hb : b = a
    · subst hb
      simpa only [if_true, h₁.ne_listed, iff_false] using hr
    · rw [if_neg hb]

theorem Global.add (h : Global s g) (hr : g.role p.addr = .own t (.popped 0))
    (hp : s.mem.read p = some n) (hn : n.next = s.nodesToReclaim) :
    Global { s with nodesToReclaim := some p.addr }
      { g.set p.addr .listed with reclaim := p.addr :: g.reclaim } := by
  have hloose : (g.role p.addr).Loose := by simp [hr, Role.Loose]
  have hnot := h.not_listed hloose.ne_listed
  refine h.relink (.refl _ _) ?_ (fun j b => ?_) (fun b => ?_) h.nodup ?_ h.seg ?_ h.owner h.run
  · simpa using Memory.cell_ne_none_of_read hp
  · by_cases hb : b = p.addr
    · subst hb
      simpa using h.not_linked (k := j) fun _ => hloose.ne_linked
    · simp [hb]
  · by_cases hb : b = p.addr <;> simp [hb]
  · exact List.nodup_cons.mpr ⟨hnot, h.nodup_reclaim⟩
  · exact ⟨s.nodesToReclaim, ⟨rfl, p, n, rfl, hp, hn⟩, h.reclaim⟩

/-- A thread takes the next node of its chain into its hands. -/
theorem Global.pick [DecidableEq Tid] (h : Global s g) (hr : g.role p.addr = .chained t)
    (hp : s.mem.read p = some n) {l : List Addr} :
    Global s { g.set p.addr (.own t (.popped 0)) with chain := Function.update g.chain t l } := by
  refine h.relink (.refl _ _) ?_ (fun j b => ?_) (fun b => ?_) h.nodup h.nodup_reclaim h.seg
    h.reclaim h.owner h.run
  · simpa using Memory.cell_ne_none_of_read hp
  · by_cases hb : b = p.addr
    · subst hb
      simpa using h.not_linked (k := j) (by simp [hr])
    · simp [hb]
  · by_cases hb : b = p.addr
    · subst hb
      simpa using h.not_listed (by simp [hr])
    · simp [hb]

variable [DecidableEq Stack]

/-- The exchange of push links its node. -/
theorem Global.push (h : Global s g) {v : A} (hr : g.role p.addr = .own t .fresh)
    (hp : s.mem.read p = some n) (hv : n.data = v) (hn : n.next = s.head k) :
    Global ((s.setHead k (some p.addr)).log k [.push t v])
      { g.set p.addr (.linked k) with
        stack := Function.update g.stack k ((p.addr, v) :: g.stack k) } := by
  have hloose : (g.role p.addr).Loose := by simp [hr, Role.Loose]
  have hnot : ∀ j, p.addr ∉ (g.stack j).map Prod.fst :=
    fun j => h.not_linked fun _ => hloose.ne_linked
  refine h.relink (.refl _ _) ?_ (fun j b => ?_) (fun b => ?_) (fun j => ?_) h.nodup_reclaim
    (fun j => ?_) h.reclaim h.owner fun j => ?_
  · simpa [Shared.log, Shared.setHead] using Memory.cell_ne_none_of_read hp
  · by_cases hj : j = k
    · subst hj
      by_cases hb : b = p.addr <;> simp [hb]
    · by_cases hb : b = p.addr
      · subst hb
        simpa [Function.update_of_ne hj, Ne.symm hj] using hnot j
      · simp [Function.update_of_ne hj, hb]
  · by_cases hb : b = p.addr
    · subst hb
      simpa using h.not_listed hloose.ne_listed
    · simp [hb]
  · by_cases hj : j = k
    · subst hj
      simpa using ⟨by simpa using hnot j, h.nodup j⟩
    · simpa only [Function.update_of_ne hj] using h.nodup j
  · by_cases hj : j = k
    · subst hj
      simp only [Shared.log, Shared.setHead, Function.update_self]
      exact ⟨s.head j, ⟨rfl, p, n, rfl, hp, hv, hn⟩, h.seg j⟩
    · simpa only [Shared.log, Shared.setHead, Function.update_of_ne hj] using h.seg j
  · by_cases hj : j = k
    · subst hj
      simpa [Shared.log, Shared.setHead] using (h.run j).push t v
    · simpa only [Shared.log, Shared.setHead, Function.update_of_ne hj] using h.run j

omit [DecidableEq Addr] in
theorem Global.poll (h : Global s g) (htop : s.head k = none) :
    Global (s.log k [.empty t]) g := by
  refine ⟨h.free, h.linked, h.listed, h.nodup, h.nodup_reclaim, h.seg, h.reclaim, h.owner,
    fun j => ?_⟩
  by_cases hj : j = k
  · subst hj
    have hrun := h.run j
    have hseg := h.seg j
    cases hl : g.stack j with
    | nil =>
        rw [hl] at hrun
        simpa [Shared.log] using hrun.empty t
    | cons x l =>
        rw [hl] at hseg
        obtain ⟨next, ⟨hx, -⟩, -⟩ := hseg
        simp [htop] at hx
  · simpa only [Shared.log, Function.update_of_ne hj] using h.run j

theorem Global.unlink (h : Global s g) (hp : s.mem.read p = some n)
    (htop : s.head k = some p.addr) :
    ∃ l, Global ((s.setHead k n.next).log k [.pop t n.data])
      { g.set p.addr (.own t (.popped 0)) with stack := Function.update g.stack k l } := by
  obtain ⟨q, n', l, hq, hn', hl, hrest⟩ := h.top htop
  obtain rfl := Memory.ptr_eq_of_read hn' hp hq
  obtain rfl := Option.some.inj (hn'.symm.trans hp)
  have hlinked : g.role q.addr = .linked k := (h.linked k _).mpr (by simp [hl])
  have hnd := h.nodup k
  rw [hl, List.map_cons, List.nodup_cons] at hnd
  refine ⟨l, h.relink (.refl _ _) ?_ (fun j b => ?_) (fun b => ?_) (fun j => ?_) h.nodup_reclaim
    (fun j => ?_) h.reclaim h.owner fun j => ?_⟩
  · simpa [Shared.log, Shared.setHead] using Memory.cell_ne_none_of_read hp
  · by_cases hj : j = k
    · subst hj
      by_cases hb : b = q.addr
      · subst hb
        simpa using hnd.1
      · simp [hl, hb]
    · by_cases hb : b = q.addr
      · subst hb
        have hnot : q.addr ∉ (g.stack j).map Prod.fst := by
          rw [← h.linked, hlinked]
          simpa using Ne.symm hj
        simpa [Function.update_of_ne hj] using hnot
      · simp [Function.update_of_ne hj, hb]
  · by_cases hb : b = q.addr
    · subst hb
      simpa using h.not_listed (by simp [hlinked])
    · simp [hb]
  · by_cases hj : j = k
    · subst hj
      simpa using hnd.2
    · simpa only [Function.update_of_ne hj] using h.nodup j
  · by_cases hj : j = k
    · subst hj
      simpa only [Shared.log, Shared.setHead, Function.update_self] using hrest
    · simpa only [Shared.log, Shared.setHead, Function.update_of_ne hj] using h.seg j
  · by_cases hj : j = k
    · subst hj
      have hrun := h.run j
      rw [hl] at hrun
      simpa [Shared.log, Shared.setHead] using hrun.pop t n'.data
    · simpa only [Shared.log, Shared.setHead, Function.update_of_ne hj] using h.run j

end Lists

variable [DecidableEq Tid]

theorem Frame.of_set [DecidableEq Addr] (hrole : g'.role = Function.update g.role a r)
    (hchain : g'.chain u = g.chain u) (h₀ : ¬ (g.role a).Of u) (h₁ : ¬ r.Of u)
    (hm : Memory.EqOff a s.mem s'.mem)
    (hg : ∀ p n i, p.addr = a → s.mem.read p = some n → Holds s u i (some a) →
      (g.role a).Protected i → ∃ n', s'.mem.read p = some n' ∧ r.Protected i ∧
        ∀ k, r = .linked k → g.role a = .linked k ∧ n'.next = n.next)
    (hz : s'.hazard = s.hazard) (hs : s'.slots = s.slots)
    (ho : ∀ k, answers u (s'.history k) = answers u (s.history k))
    (hret : ∀ k, s'.returned k u = s.returned k u) : Frame u s g s' g' := by
  refine ⟨by rw [hz], fun i _ => by rw [hs], fun b k => ?_, fun b => ?_, hchain,
    fun p n hn hu => ?_, fun p n i hn hi hp => ?_, ho, hret⟩
  · by_cases hb : b = a
    · subst hb
      rw [hrole, Function.update_self]
      constructor
      · rintro rfl
        exact (h₁ rfl).elim
      · intro he
        rw [he] at h₀
        exact (h₀ rfl).elim
    · rw [hrole, Function.update_of_ne hb]
  · by_cases hb : b = a
    · subst hb
      rw [hrole, Function.update_self]
      constructor
      · rintro rfl
        exact (h₁ rfl).elim
      · intro he
        rw [he] at h₀
        exact (h₀ rfl).elim
    · rw [hrole, Function.update_of_ne hb]
  · rw [hm.read ?_, hn]
    rintro rfl
    exact h₀ hu
  · by_cases hpa : p.addr = a
    · rw [hrole, hpa, Function.update_self]
      exact hg p n i hpa hn (hpa ▸ hi) (hpa ▸ hp)
    · rw [hrole, Function.update_of_ne hpa]
      exact ⟨n, by rw [hm.read hpa, hn], hp, fun k hk => ⟨hk, rfl⟩⟩

theorem Frame.of_same (hm : s'.mem = s.mem) (hz : s'.hazard u = s.hazard u)
    (hs : ∀ i, s.hazard u = some i → (s'.slots i).ptr = (s.slots i).ptr)
    (ho : ∀ k, answers u (s'.history k) = answers u (s.history k))
    (hret : ∀ k, s'.returned k u = s.returned k u) : Frame u s g s' g :=
  ⟨hz, hs, fun _ _ => Iff.rfl, fun _ => Iff.rfl, rfl, fun _ _ hn _ => by rw [hm, hn],
    fun _ n _ hn _ hp => ⟨n, by rw [hm, hn], hp, fun _ hk => ⟨hk, rfl⟩⟩, ho, hret⟩

variable [DecidableEq Stack]

/-- The ghost data after `t` took the reclaim list. -/
def Ghost.take (g : Ghost Stack Tid Addr A) (t : Tid) : Ghost Stack Tid Addr A where
  role a := if g.role a = .listed then .chained t else g.role a
  stack := g.stack
  reclaim := []
  chain := Function.update g.chain t g.reclaim

@[simp] theorem Ghost.chain_take : (g.take t).chain t = g.reclaim :=
  Function.update_self ..

theorem Ghost.role_take {r : Role Stack Tid} (hr : r ≠ .listed) (hr' : r ≠ .chained t) :
    (g.take t).role a = r ↔ g.role a = r := by
  by_cases ha : g.role a = .listed
  · simp [Ghost.take, ha, hr.symm, hr'.symm]
  · simp [Ghost.take, ha]

theorem Global.take (h : Global s g) : Global { s with nodesToReclaim := none } (g.take t) := by
  refine ⟨fun a => ?_, fun k a => ?_, fun a => ?_, h.nodup, List.nodup_nil, h.seg, rfl, h.owner,
    h.run⟩
  · rw [Ghost.role_take (by simp) (by simp)]
    exact h.free a
  · rw [Ghost.role_take (by simp) (by simp)]
    exact h.linked k a
  · by_cases ha : g.role a = .listed <;> simp [Ghost.take, ha]

theorem Frame.take (hu : u ≠ t) : Frame u s g { s with nodesToReclaim := none } (g.take t) := by
  refine ⟨rfl, fun _ _ => rfl, fun a k => Ghost.role_take (by simp) (by simp),
    fun a => Ghost.role_take (by simp) (by simpa using hu), Function.update_of_ne hu _ _,
    fun _ _ hn _ => hn, fun p n i hn _ hp => ⟨n, hn, ?_, fun k hk => ?_⟩, fun _ => rfl,
    fun _ => rfl⟩
  · by_cases ha : g.role p.addr = .listed
    · simp [Ghost.take, ha, Role.Protected]
    · simpa [Ghost.take, ha] using hp
  · exact ⟨(Ghost.role_take (by simp) (by simp)).mp hk, rfl⟩

theorem answers_log_of_ne {e : List (Event Tid A)} (he : answers u e = []) (j : Stack) :
    answers u ((s.log k e).history j) = answers u (s.history j) := by
  by_cases hj : j = k
  · subst hj
    simpa [Shared.log, answers] using he
  · simp only [Shared.log, Function.update_of_ne hj]

theorem returned_answer_of_ne {v : Option A} (hu : u ≠ t) (j : Stack) :
    (s.answer k t v).returned j u = s.returned j u := by
  by_cases hj : j = k
  · subst hj
    simp [Shared.answer, Function.update_of_ne hu]
  · simp only [Shared.answer, Function.update_of_ne hj]

theorem Owes.log {e : List (Event Tid A)} {v : Option A} (h : Owes s t none)
    (he : answers t e = [v]) : Owes (s.log k e) t (some (k, v)) := by
  intro j
  by_cases hj : j = k
  · subst hj
    have hk := h j
    simp only [due, List.append_nil] at hk
    simpa [Shared.log, due, ← hk, answers] using he
  · simpa [Shared.log, Function.update_of_ne hj, due, Ne.symm hj] using h j

theorem Owes.log_push {v : A} (h : Owes s t none) : Owes (s.log k [.push t v]) t none := by
  intro j
  by_cases hj : j = k
  · subst hj
    simpa [Shared.log, due] using h j
  · simpa [Shared.log, Function.update_of_ne hj, due] using h j

theorem Owes.answer {v : Option A} (h : Owes s t (some (k, v))) :
    Owes (s.answer k t v) t none := by
  intro j
  by_cases hj : j = k
  · subst hj
    simpa [Shared.answer, due] using h j
  · simpa [Shared.answer, Function.update_of_ne hj, due, Ne.symm hj] using h j

end CsNotes.HazardPointer
