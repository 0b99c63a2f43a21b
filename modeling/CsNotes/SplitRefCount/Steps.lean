import CsNotes.SplitRefCount.Invariant

/-!
# What single steps do to the assertions

Almost every step overwrites one node, or only moves `head`. The lemmas say for
each such kind of change what it takes to keep the global assertion, and that it
is no concern of the other threads.
-/
namespace CsNotes.SplitRefCount
open Interleaving Storage History Segment

variable {Tid Addr A : Type*} [DecidableEq Tid] [DecidableEq Addr]
variable {s s' : Shared Tid Addr A} {g g' : Ghost Tid Addr A}
variable {t u : Tid} {pc : PC Addr A} {p q : Ptr Addr} {n n' : Node Addr A}

/-- The ghost data after the stage and the readers of one node changed. -/
def Ghost.set (g : Ghost Tid Addr A) (a : Addr) (r : Role Tid) (R : Finset Tid) :
    Ghost Tid Addr A :=
  { g with role := Function.update g.role a r, readers := Function.update g.readers a R }

omit [DecidableEq Tid] in
theorem Linked.elsewhere {m m' : Memory Addr (Node Addr A)} {readers : Addr → Finset Tid}
    {c next : CountedNodePtr Addr} {x : Addr × A} {a : Addr} (h : Linked m readers c x next)
    (hm : Memory.EqOff a m m') (hx : x.1 ≠ a) (R : Finset Tid) :
    Linked m' (Function.update readers a R) c x next := by
  obtain ⟨hc, q, k, hq, hk, hd, hn, hb⟩ := h
  refine ⟨hc, q, k, hq, ?_, hd, hn, ?_⟩
  · rw [hm.read (hq ▸ hx), hk]
  · rwa [Function.update_of_ne hx]

omit [DecidableEq Tid] in
theorem Global.of_set (h : Global s g) {a : Addr} {r : Role Tid} {R : Finset Tid}
    (hl : g.role a ≠ .linked) (hr : r ≠ .linked) (hf : r = .free ↔ s'.mem.cell a = none)
    (hR : s'.mem.cell a = none → R = ∅)
    (hb : ∀ q k, s'.mem.read q = some k → q.addr = a → Balanced R.card k.internalCount r)
    (hm : Memory.EqOff a s.mem s'.mem) (hh : s'.head = s.head) (hi : s'.history = s.history) :
    Global s' (g.set a r R) := by
  refine ⟨fun b => ?_, fun b => ?_, h.nodup, ?_, fun b hb' => ?_, fun q k hk => ?_, ?_⟩
  · by_cases hba : b = a
    · subst hba
      simpa only [Ghost.set, Function.update_self] using hf
    · simpa only [Ghost.set, Function.update_of_ne hba, hm b hba] using h.free b
  · by_cases hba : b = a
    · subst hba
      simpa only [Ghost.set, Function.update_self, hr, false_iff] using mt (h.linked _).mpr hl
    · simpa only [Ghost.set, Function.update_of_ne hba] using h.linked b
  · rw [hh]
    refine h.seg.congr fun x hx c next hn => hn.elsewhere hm ?_ R
    rintro he
    exact hl ((h.linked _).mpr (he ▸ List.mem_map_of_mem hx))
  · by_cases hba : b = a
    · subst hba
      simpa only [Ghost.set, Function.update_self] using hR hb'
    · rw [hm b hba] at hb'
      simpa only [Ghost.set, Function.update_of_ne hba] using h.unread b hb'
  · by_cases hq : q.addr = a
    · simpa only [Ghost.set, hq, Function.update_self] using hb q k hk hq
    · rw [hm.read hq] at hk
      simpa only [Ghost.set, Function.update_of_ne hq] using h.balance q k hk
  · rw [hi]
    exact h.run

omit [DecidableEq Tid] in
theorem Global.rewrite (h : Global s g) {r : Role Tid} {R : Finset Tid}
    (hp : s.mem.read p = some n) (hl : g.role p.addr ≠ .linked) (hf : r ≠ .free)
    (hr : r ≠ .linked) (hb : Balanced R.card n'.internalCount r) (hh : s'.head = s.head)
    (hm : s'.mem = s.mem.write p n') (hi : s'.history = s.history) :
    Global s' (g.set p.addr r R) := by
  have hcell : s'.mem.cell p.addr ≠ none := by
    rw [hm, Ne, Memory.cell_write_eq_none]
    exact Memory.cell_ne_none_of_read hp
  refine h.of_set hl hr (by simp only [hf, hcell]) (fun hc => (hcell hc).elim)
    (fun q k hk hq => ?_) (hm ▸ Memory.eqOff_write) hh hi
  have hw : s'.mem.read p = some n' := hm ▸ Memory.read_write_self hp
  obtain rfl := Memory.ptr_eq_of_read hk hw hq
  obtain rfl := Option.some.inj (hk.symm.trans hw)
  exact hb

omit [DecidableEq Tid] in
theorem Global.alloc (h : Global s g) {a : Addr} (ha : s.mem.cell a = none)
    (hc : n.internalCount = 0) (hh : s'.head = s.head) (hm : s'.mem = s.mem.alloc a n)
    (hi : s'.history = s.history) : Global s' (g.set a (.own t .fresh) ∅) := by
  have hl : g.role a ≠ .linked := by
    rw [(h.free a).mpr ha]
    simp
  refine h.of_set hl (by simp) (by simp [hm, Memory.cell_alloc]) (fun _ => rfl)
    (fun q k hk hq => ?_) (hm ▸ Memory.eqOff_alloc) hh hi
  have hw : s'.mem.read (s.mem.fresh a) = some n := hm ▸ Memory.read_alloc_fresh
  obtain rfl := Memory.ptr_eq_of_read hk hw hq
  obtain rfl := Option.some.inj (hk.symm.trans hw)
  simp [Balanced, hc]

omit [DecidableEq Tid] in
theorem Global.delete (h : Global s g) (hr : g.role p.addr = .own t .dying)
    (hh : s'.head = s.head) (hm : s'.mem = s.mem.free p) (hi : s'.history = s.history) :
    Global s' (g.set p.addr .free ∅) := by
  have hcell : s'.mem.cell p.addr = none := by
    rw [hm, Memory.cell_free, Function.update_self]
  exact h.of_set (by simp [hr]) (by simp) (by simp [hcell]) (fun _ => rfl)
    (fun q k hk hq => trivial) (hm ▸ Memory.eqOff_free) hh hi

omit [DecidableEq Tid] in
/-- The stack itself changes, and with it the stage of one live node; the heap
stays. -/
theorem Global.relink (h : Global s g) {a : Addr} {r : Role Tid} {R : Finset Tid}
    {stack : List (Addr × A)} (hp : s.mem.read p = some n) (ha : p.addr = a) (hf : r ≠ .free)
    (hl : ∀ b, b ∈ stack.map Prod.fst ↔ if b = a then r = .linked else b ∈ g.stack.map Prod.fst)
    (hnd : (stack.map Prod.fst).Nodup)
    (hs : Seg (Linked s.mem (Function.update g.readers a R)) (fun p => p.ptr = none) s'.head stack)
    (hb : Balanced R.card n.internalCount r) (hm : s'.mem = s.mem)
    (hrun : StackRun s'.history (stack.map Prod.snd)) :
    Global s' { g.set a r R with stack := stack } := by
  subst ha
  have hcell := Memory.cell_ne_none_of_read hp
  refine ⟨fun b => ?_, fun b => ?_, hnd, hm ▸ hs, fun b hb' => ?_, fun q k hk => ?_, hrun⟩
  · rw [hm]
    by_cases hba : b = p.addr
    · subst hba
      simp only [Ghost.set, Function.update_self, hf, hcell]
    · simpa only [Ghost.set, Function.update_of_ne hba] using h.free b
  · rw [hl b]
    by_cases hba : b = p.addr
    · subst hba
      simp only [Ghost.set, Function.update_self, if_true]
    · simpa only [Ghost.set, Function.update_of_ne hba, if_neg hba] using h.linked b
  · rw [hm] at hb'
    have hba : b ≠ p.addr := by
      rintro rfl
      exact hcell hb'
    simpa only [Ghost.set, Function.update_of_ne hba] using h.unread b hb'
  · rw [hm] at hk
    by_cases hq : q.addr = p.addr
    · obtain rfl := Memory.ptr_eq_of_read hk hp hq
      obtain rfl := Option.some.inj (hk.symm.trans hp)
      simpa only [Ghost.set, Function.update_self] using hb
    · simpa only [Ghost.set, Function.update_of_ne hq] using h.balance q k hk

omit [DecidableEq Tid] in
/-- The rest of the stack below or above a node does not notice its counts. -/
theorem Seg.off {a : Addr} {R : Finset Tid} {c : CountedNodePtr Addr} {l : List (Addr × A)}
    {m m' : Memory Addr (Node Addr A)} {readers : Addr → Finset Tid}
    (h : Seg (Linked m readers) (fun p => p.ptr = none) c l) (hm : Memory.EqOff a m m')
    (ha : a ∉ l.map Prod.fst) :
    Seg (Linked m' (Function.update readers a R)) (fun p => p.ptr = none) c l := by
  refine h.congr fun x hx c next hn => hn.elsewhere hm ?_ R
  rintro rfl
  exact ha (List.mem_map_of_mem hx)

omit [DecidableEq Tid] in
/-- The exchange of push links its node. -/
theorem Global.push (h : Global s g) {v : A} (hr : g.role p.addr = .own t .fresh)
    (hp : s.mem.read p = some n) (hv : n.data = v) (hn : n.next = s.head)
    (hh : s'.head = { ptr := some p.addr }) (hm : s'.mem = s.mem)
    (hi : s'.history = s.history ++ [.push u v]) :
    Global s' { g.set p.addr .linked ∅ with stack := (p.addr, v) :: g.stack } := by
  have hnot : p.addr ∉ g.stack.map Prod.fst := by
    rw [← h.linked, hr]
    simp
  have hbal := h.balance p n hp
  rw [hr] at hbal
  obtain ⟨-, hc⟩ := hbal
  refine h.relink hp rfl (by simp) (fun b => ?_) ?_ ?_ trivial hm ?_
  · by_cases hb : b = p.addr <;> simp [hb]
  · simpa using ⟨by simpa using hnot, h.nodup⟩
  · rw [hh]
    refine ⟨s.head, ⟨rfl, p, n, rfl, hp, hv, hn, ?_, hc.le⟩, Seg.off h.seg (.refl _ _) hnot⟩
    simp [hc]
  · rw [hi]
    exact h.run.push u v

theorem Global.count (h : Global s g) (hp : s.mem.read p = some n)
    (htop : s.head.ptr = some p.addr) (ht : t ∉ g.readers p.addr)
    (hh : s'.head = { s.head with externalCount := s.head.externalCount + 1 })
    (hm : s'.mem = s.mem) (hi : s'.history = s.history) :
    Global s' (g.set p.addr .linked (insert t (g.readers p.addr))) := by
  obtain ⟨role, readers, stack⟩ := g
  obtain ⟨_, hl, hnd, hseg, -, -, hrun⟩ := id h
  cases stack with
  | nil => simp [htop] at hseg
  | cons x l =>
      obtain ⟨next, ⟨hx, q, k, hq, hk, hd, hn, hb, hc⟩, hrest⟩ := hseg
      have hxp : x.1 = p.addr := Option.some.inj (hx.symm.trans htop)
      have hnot : p.addr ∉ l.map Prod.fst := by
        have := (List.nodup_cons.mp hnd).1
        rwa [hxp] at this
      refine h.relink hp rfl (by simp) (fun b => ?_) hnd ?_ trivial hm (hi ▸ hrun)
      · by_cases hb : b = p.addr <;> simp [hb, hxp]
      · rw [hh]
        refine ⟨next, ⟨hx, q, k, hq, hk, hd, hn, ?_, hc⟩, Seg.off hrest (.refl _ _) hnot⟩
        simp only [hxp, Function.update_self, Finset.card_insert_of_notMem ht] at hb ⊢
        push_cast
        linarith

omit [DecidableEq Tid] [DecidableEq Addr] in
/-- Polling an empty stack counts too, with nobody to notice. -/
theorem Global.countEmpty (h : Global s g) (htop : s.head.ptr = none) (hh : s'.head.ptr = none)
    (hm : s'.mem = s.mem) (hi : s'.history = s.history ++ [.empty t]) : Global s' g := by
  obtain ⟨role, readers, stack⟩ := g
  obtain ⟨hfree, hl, hnd, hseg, hun, hbal, hrun⟩ := h
  cases stack with
  | nil => exact ⟨hm ▸ hfree, hl, hnd, hh, hm ▸ hun, hm ▸ hbal, hi ▸ hrun.empty t⟩
  | cons x l =>
      obtain ⟨next, ⟨hx, -⟩, -⟩ := hseg
      simp [htop] at hx

/-- The exchange of pop unlinks the top node and takes its external count over. -/
theorem Global.unlink (h : Global s g) (hp : s.mem.read p = some n)
    (htop : s.head.ptr = some p.addr) (ht : t ∈ g.readers p.addr) (hh : s'.head = n.next)
    (hm : s'.mem = s.mem) (hi : s'.history = s.history ++ [.pop t n.data]) :
    ∃ stack, Global s' { g.set p.addr (.own t (.popped s.head.externalCount))
      ((g.readers p.addr).erase t) with stack := stack } := by
  obtain ⟨role, readers, stack⟩ := g
  obtain ⟨_, hl, hnd, hseg, -, -, hrun⟩ := id h
  cases stack with
  | nil => simp [htop] at hseg
  | cons x l =>
      obtain ⟨next, ⟨hx, q, k, hq, hk, hd, hn, hb, hc⟩, hrest⟩ := hseg
      have hxp : x.1 = p.addr := Option.some.inj (hx.symm.trans htop)
      obtain rfl := Memory.ptr_eq_of_read hk hp (hq.trans hxp)
      obtain rfl := Option.some.inj (hk.symm.trans hp)
      have hnot : q.addr ∉ l.map Prod.fst := by
        have := (List.nodup_cons.mp hnd).1
        rwa [hxp] at this
      refine ⟨l, h.relink hp rfl (by simp) (fun b => ?_) (List.nodup_cons.mp hnd).2 ?_ ?_ hm ?_⟩
      · by_cases hb : b = q.addr
        · subst hb
          simpa using hnot
        · simp [hb, hxp]
      · rw [hh, hn]
        exact Seg.off hrest (.refl _ _) hnot
      · refine ⟨?_, hc⟩
        have hpos := Finset.card_pos.mpr ⟨t, ht⟩
        rw [hxp] at hb
        rw [Finset.card_erase_of_mem ht]
        push_cast [hpos]
        linarith
      · rw [hi, hd]
        exact hrun.pop t x.2

theorem Global.leave (h : Global s g) (hp : s.mem.read p = some n)
    (hr : g.role p.addr = .linked) (ht : t ∈ g.readers p.addr) (hh : s'.head = s.head)
    (hm : s'.mem = s.mem.write p { n with internalCount := n.internalCount - 1 })
    (hi : s'.history = s.history) :
    n.internalCount ≤ 0 ∧ Global s' (g.set p.addr .linked ((g.readers p.addr).erase t)) := by
  obtain ⟨x, hx, hxp⟩ := List.mem_map.mp ((h.linked _).mp hr)
  have hcell : s'.mem.cell p.addr ≠ none := by
    rw [hm, Ne, Memory.cell_write_eq_none]
    exact Memory.cell_ne_none_of_read hp
  have hw := Memory.read_write_self (c := { n with internalCount := n.internalCount - 1 }) hp
  have hpos := Finset.card_pos.mpr ⟨t, ht⟩
  refine ⟨?_, fun b => ?_, fun b => ?_, h.nodup, ?_, fun b hb => ?_, fun q k hk => ?_, hi ▸ h.run⟩
  · obtain ⟨c, next, -, q, k, hq, hk, -, -, -, hc⟩ := h.seg.exists_node hx
    obtain rfl := Memory.ptr_eq_of_read hk hp (hq.trans hxp)
    obtain rfl := Option.some.inj (hk.symm.trans hp)
    exact hc
  · by_cases hb : b = p.addr
    · subst hb
      simp [Ghost.set, hcell]
    · simpa only [Ghost.set, Function.update_of_ne hb, hm, Memory.cell_write_eq_none] using h.free b
  · by_cases hb : b = p.addr
    · subst hb
      simpa only [Ghost.set, Function.update_self, true_iff] using (h.linked _).mp hr
    · simpa only [Ghost.set, Function.update_of_ne hb] using h.linked b
  · rw [hh, hm]
    refine h.seg.congr fun y hy c next hn => ?_
    by_cases hyp : y.1 = p.addr
    · obtain ⟨hc, q, k, hq, hk, hd, hnext, hb, hle⟩ := hn
      obtain rfl := Memory.ptr_eq_of_read hk hp (hq.trans hyp)
      obtain rfl := Option.some.inj (hk.symm.trans hp)
      refine ⟨hc, q, _, hq, hw, hd, hnext, ?_, by linarith⟩
      rw [hyp] at hb ⊢
      simp only [Ghost.set, Function.update_self, Finset.card_erase_of_mem ht]
      push_cast [hpos]
      linarith
    · exact hn.elsewhere Memory.eqOff_write hyp _
  · have hne : b ≠ p.addr := by
      rintro rfl
      exact hcell hb
    rw [hm, Memory.cell_write_eq_none] at hb
    simpa only [Ghost.set, Function.update_of_ne hne] using h.unread b hb
  · by_cases hq : q.addr = p.addr
    · simp [Ghost.set, hq, Balanced]
    · rw [hm, Memory.eqOff_write.read hq] at hk
      simpa only [Ghost.set, Function.update_of_ne hq] using h.balance q k hk

/-- A change of one node and of its stage, seen from another thread. -/
theorem Frame.of_set {a : Addr} {r : Role Tid} {R : Finset Tid}
    (hrole : g'.role = Function.update g.role a r)
    (hreaders : g'.readers = Function.update g.readers a R)
    (hR : u ∈ R ↔ u ∈ g.readers a) (ho : ∀ k, g.role a ≠ .own u k) (hr : ∀ k, r ≠ .own u k)
    (hm : Memory.EqOff a s.mem s'.mem)
    (hn : ∀ q k, s.mem.read q = some k → q.addr = a → u ∈ g.readers a →
      ∃ k', s'.mem.read q = some k' ∧ k'.next = k.next)
    (hi : answers u s'.history = answers u s.history)
    (hret : s'.returned u = s.returned u) : Frame u s g s' g' := by
  refine ⟨fun b => ?_, fun b k => ?_, fun q k hk hu => ?_, fun q k j hk hj => ?_, hi, hret⟩
  · by_cases hb : b = a
    · subst hb
      simpa only [hreaders, Function.update_self] using hR
    · simp only [hreaders, Function.update_of_ne hb]
  · by_cases hb : b = a
    · subst hb
      simp only [hrole, Function.update_self, hr, ho]
    · simp only [hrole, Function.update_of_ne hb]
  · by_cases hq : q.addr = a
    · exact hn q k hk hq (hq ▸ hu)
    · exact ⟨k, by rw [hm.read hq, hk], rfl⟩
  · have hq : q.addr ≠ a := by
      intro hq
      exact ho j (hq ▸ hj)
    exact ⟨k, by rw [hm.read hq, hk], rfl⟩

theorem Frame.rewrite {r : Role Tid} {R : Finset Tid} (hp : s.mem.read p = some n)
    (hm : s'.mem = s.mem.write p n') (hR : u ∈ R ↔ u ∈ g.readers p.addr)
    (ho : ∀ k, g.role p.addr ≠ .own u k) (hr : ∀ k, r ≠ .own u k)
    (hn : u ∈ g.readers p.addr → n'.next = n.next) (hi : answers u s'.history = answers u s.history)
    (hret : s'.returned u = s.returned u) : Frame u s g s' (g.set p.addr r R) := by
  refine Frame.of_set rfl rfl hR ho hr (hm ▸ Memory.eqOff_write) (fun q k hk hq hu => ?_) hi hret
  obtain rfl := Memory.ptr_eq_of_read hk hp hq
  obtain rfl := Option.some.inj (hk.symm.trans hp)
  exact ⟨n', by rw [hm, Memory.read_write_self hp], hn hu⟩

theorem Frame.recount {R : Finset Tid} (hp : s.mem.read p = some n)
    (hm : s'.mem = s.mem.write p n') (hR : u ∈ R ↔ u ∈ g.readers p.addr)
    (hn : n'.next = n.next) (hd : n'.data = n.data)
    (hi : answers u s'.history = answers u s.history) (hret : s'.returned u = s.returned u) :
    Frame u s g s' (g.set p.addr (g.role p.addr) R) := by
  have reads : ∀ q k, s.mem.read q = some k →
      ∃ k', s'.mem.read q = some k' ∧ k'.next = k.next ∧ k'.data = k.data := by
    intro q k hk
    rw [hm]
    by_cases hq : q.addr = p.addr
    · obtain rfl := Memory.ptr_eq_of_read hk hp hq
      obtain rfl := Option.some.inj (hk.symm.trans hp)
      exact ⟨n', Memory.read_write_self hp, hn, hd⟩
    · exact ⟨k, by rw [Memory.eqOff_write.read hq, hk], rfl, rfl⟩
  refine ⟨fun b => ?_, fun b k => ?_, fun q k hk _ => ?_, fun q k j hk _ => ?_, hi, hret⟩
  · by_cases hb : b = p.addr
    · subst hb
      simpa only [Ghost.set, Function.update_self] using hR
    · simp only [Ghost.set, Function.update_of_ne hb]
  · simp only [Ghost.set, Function.update_eq_self]
  · obtain ⟨k', hk', hn', -⟩ := reads q k hk
    exact ⟨k', hk', hn'⟩
  · obtain ⟨k', hk', -, hd'⟩ := reads q k hk
    exact ⟨k', hk', hd'⟩

omit [DecidableEq Addr] in
theorem Frame.refl (u : Tid) (s : Shared Tid Addr A) (g : Ghost Tid Addr A) : Frame u s g s g :=
  ⟨fun _ => Iff.rfl, fun _ _ => Iff.rfl, fun _ n hn _ => ⟨n, hn, rfl⟩,
    fun _ n _ hn _ => ⟨n, hn, rfl⟩, rfl, rfl⟩

end CsNotes.SplitRefCount
