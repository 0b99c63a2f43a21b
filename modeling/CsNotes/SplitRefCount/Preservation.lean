import CsNotes.SplitRefCount.Steps

/-!
# Every step keeps the assertions

One lemma for each control point of push and pop, and from them the proof
outline of the whole stack.
-/
namespace CsNotes.SplitRefCount
open Interleaving Storage History Segment

variable {Tid Addr A : Type*} [DecidableEq Tid] [DecidableEq Addr]
variable {s s' : Shared Tid Addr A} {g g' : Ghost Tid Addr A} {movedFrom : A → A}
variable {t u : Tid} {pc pc' : PC Addr A} {p : Ptr Addr} {n : Node Addr A} {o : Oracle Addr A}
variable {c : Config Tid (Shared Tid Addr A) (PC Addr A)}

def Kept (c : Config Tid (Shared Tid Addr A) (PC Addr A)) (t : Tid)
    (r : Shared Tid Addr A × PC Addr A) : Prop :=
  ∃ g', Global r.1 g' ∧ Local r.1 g' t r.2 ∧ ∀ u, u ≠ t → Local r.1 g' u (c.pc u)

omit [DecidableEq Addr] in
theorem kept_of_same (hG : Global c.shared g) (hL : ∀ u, Local c.shared g u (c.pc u))
    (hc : pc'.counted = (c.pc t).counted) (ho : pc'.owned = (c.pc t).owned)
    (hf : pc'.Facts c.shared.mem (answers t c.shared.history) (c.shared.returned t)) :
    Kept c t (c.shared, pc') :=
  ⟨g, hG, ⟨fun a => hc ▸ (hL t).counted a, fun a k => ho ▸ (hL t).owned a k, hf⟩, fun u _ => hL u⟩

theorem Local.of_set (h : Local s g t pc) {a : Addr} {r : Role Tid} {R : Finset Tid}
    (hrole : g'.role = Function.update g.role a r)
    (hreaders : g'.readers = Function.update g.readers a R)
    (hR : t ∈ R ↔ pc'.counted = some a) (hr : ∀ k, r = .own t k ↔ pc'.owned = some (a, k))
    (hc : ∀ b, b ≠ a → (pc.counted = some b ↔ pc'.counted = some b))
    (ho : ∀ b k, b ≠ a → (pc.owned = some (b, k) ↔ pc'.owned = some (b, k)))
    (hf : pc'.Facts s'.mem (answers t s'.history) (s'.returned t)) : Local s' g' t pc' := by
  refine ⟨fun b => ?_, fun b k => ?_, hf⟩
  · by_cases hb : b = a
    · subst hb
      simpa only [hreaders, Function.update_self] using hR
    · simpa only [hreaders, Function.update_of_ne hb] using (h.counted b).trans (hc b hb)
  · by_cases hb : b = a
    · subst hb
      simpa only [hrole, Function.update_self] using hr k
    · simpa only [hrole, Function.update_of_ne hb] using (h.owned b k).trans (ho b k hb)

theorem keep_idle (hG : Global c.shared g) (hL : ∀ u, Local c.shared g u (c.pc u))
    (hpc : c.pc t = .idle) : (exec movedFrom t o c.shared (c.pc t)).Sat (Kept c t) := by
  have hf := (hL t).facts
  rw [hpc] at hf ⊢
  simp only [exec]
  cases o.call with
  | push v => exact kept_of_same hG hL (by rw [hpc]; rfl) (by rw [hpc]; rfl) hf
  | pop => exact kept_of_same hG hL (by rw [hpc]; rfl) (by rw [hpc]; rfl) hf

theorem keep_newNode {v : A} (hG : Global c.shared g) (hL : ∀ u, Local c.shared g u (c.pc u))
    (hpc : c.pc t = .newNode v) : (exec movedFrom t o c.shared (c.pc t)).Sat (Kept c t) := by
  have hl := hL t
  rw [hpc] at hl ⊢
  simp only [exec]
  split
  · rename_i ha
    have hun := hG.unread _ ha
    have hfree := (hG.free _).mpr ha
    refine ⟨g.set o.addr (.own t .fresh) ∅, hG.alloc ha rfl rfl rfl rfl, ?_, fun u hu => ?_⟩
    · refine hl.of_set rfl rfl (by simp [PC.counted]) (by simp [PC.owned, eq_comm])
        (by simp [PC.counted]) (fun b k hb => by simp [PC.owned, hb.symm]) ?_
      exact ⟨⟨_, Memory.read_alloc_fresh, rfl⟩, hl.facts⟩
    · refine (hL u).frame (Frame.of_set rfl rfl (by simp [hun]) (by simp [hfree])
        (by simp [hu.symm]) Memory.eqOff_alloc (fun q k hk hq => ?_) rfl rfl)
      exact (Memory.addr_ne_of_read hk ha hq).elim
  · trivial

omit [DecidableEq Addr] in
/-- The stage of a node in the hands of `t`, and what that rules out for others. -/
theorem Local.role_owned (h : Local s g t pc) {a : Addr} {k : Kind} (ho : pc.owned = some (a, k)) :
    g.role a = .own t k ∧ ∀ u, u ≠ t → ∀ j, g.role a ≠ .own u j := by
  have hr := (h.owned a k).mpr ho
  refine ⟨hr, fun u hu j hj => hu ?_⟩
  rw [hr] at hj
  cases hj
  rfl

/-- Overwriting a node in the hands of the acting thread, which keeps it there. -/
theorem kept_of_write (hG : Global c.shared g) (hL : ∀ u, Local c.shared g u (c.pc u))
    {k : Kind} {n' : Node Addr A} (hp : c.shared.mem.read p = some n)
    (ho : (c.pc t).owned = some (p.addr, k)) (ho' : pc'.owned = some (p.addr, k))
    (hc : pc'.counted = (c.pc t).counted) (hcount : n'.internalCount = n.internalCount)
    (hu : ∀ u, u ∈ g.readers p.addr → n'.next = n.next)
    (hf : pc'.Facts (c.shared.mem.write p n') (answers t c.shared.history) (c.shared.returned t)) :
    Kept c t ({ c.shared with mem := c.shared.mem.write p n' }, pc') := by
  obtain ⟨hr, hne⟩ := (hL t).role_owned ho
  have hbal := hG.balance p n hp
  refine ⟨g.set p.addr (.own t k) (g.readers p.addr), hG.rewrite hp (by simp [hr]) (by simp)
    (by simp) (by rwa [hcount, ← hr]) rfl rfl rfl, ?_, fun u hut => ?_⟩
  · refine (hL t).of_set rfl rfl ?_ (fun j => ?_) (fun b _ => by rw [hc])
      (fun b j _ => by rw [ho, ho']) hf
    · rw [hc]
      exact (hL t).counted _
    · simp [ho']
  · exact (hL u).frame
      (Frame.rewrite hp rfl Iff.rfl (hne u hut) (by simp [hut.symm]) (hu u) rfl rfl)

theorem keep_loadNext {v : A} (hG : Global c.shared g) (hL : ∀ u, Local c.shared g u (c.pc u))
    (hpc : c.pc t = .loadNext v p) : (exec movedFrom t o c.shared (c.pc t)).Sat (Kept c t) := by
  obtain ⟨hr, -⟩ := (hL t).role_owned (a := p.addr) (by rw [hpc]; rfl)
  have hf := (hL t).facts
  rw [hpc] at hf
  obtain ⟨⟨n, hn, hv⟩, howed⟩ := hf
  have hbal := hG.balance p n hn
  rw [hr] at hbal
  have hempty : g.readers p.addr = ∅ := by
    simpa using hbal.1
  simp only [hpc, exec, Memory.access_of_read hn, Outcome.sat_ok]
  refine kept_of_write hG hL hn (by rw [hpc]; rfl) rfl (by rw [hpc]; rfl) rfl (by simp [hempty]) ?_
  exact ⟨⟨_, Memory.read_write_self hn, hv⟩, howed⟩

theorem keep_pushCas {v : A} (hG : Global c.shared g) (hL : ∀ u, Local c.shared g u (c.pc u))
    (hpc : c.pc t = .pushCas v p) : (exec movedFrom t o c.shared (c.pc t)).Sat (Kept c t) := by
  obtain ⟨hr, hne⟩ := (hL t).role_owned (a := p.addr) (by rw [hpc]; rfl)
  have hl := hL t
  rw [hpc] at hl
  obtain ⟨⟨n, hn, hv⟩, howed⟩ := hl.facts
  have hbal := hG.balance p n hn
  rw [hr] at hbal
  have hempty : g.readers p.addr = ∅ := by
    simpa using hbal.1
  simp only [hpc, exec, Memory.access_of_read hn]
  split
  · rename_i hcas
    refine ⟨_, hG.push hr hn hv hcas.1.symm rfl rfl rfl, ?_, fun u hu => ?_⟩
    · refine hl.of_set rfl rfl (by simp [PC.counted]) (by simp [PC.owned]) (by simp [PC.counted])
        (fun b k hb => by simp [PC.owned, hb.symm]) ?_
      simpa [PC.Facts] using howed
    · exact (hL u).frame (Frame.of_set rfl rfl (by simp [hempty]) (hne u hu) (by simp)
        (.refl _ _) (fun q k hk _ _ => ⟨k, hk, rfl⟩) answers_push rfl)
  · refine kept_of_write hG hL hn (by rw [hpc]; rfl) rfl (by rw [hpc]) rfl (by simp [hempty]) ?_
    exact ⟨⟨_, Memory.read_write_self hn, hv⟩, howed⟩

theorem keep_loadHead (hG : Global c.shared g) (hL : ∀ u, Local c.shared g u (c.pc u))
    (hpc : c.pc t = .loadHead) : (exec movedFrom t o c.shared (c.pc t)).Sat (Kept c t) := by
  have hf := (hL t).facts
  rw [hpc] at hf ⊢
  exact kept_of_same hG hL (by rw [hpc]; rfl) (by rw [hpc]; rfl) hf

omit [DecidableEq Tid] [DecidableEq Addr] in
theorem Global.top (h : Global s g) {a : Addr} (ha : s.head.ptr = some a) :
    ∃ p n, p.addr = a ∧ s.mem.read p = some n ∧ g.role a = .linked := by
  obtain ⟨role, readers, stack⟩ := g
  obtain ⟨_, hl, _, hseg, -, -, -⟩ := h
  cases stack with
  | nil => simp [ha] at hseg
  | cons x l =>
      obtain ⟨next, ⟨hx, q, k, hq, hk, -⟩, -⟩ := hseg
      have hxa : x.1 = a := Option.some.inj (hx.symm.trans ha)
      exact ⟨q, k, hq.trans hxa, hk, (hl a).mpr (by simp [hxa])⟩

theorem keep_count {old : CountedNodePtr Addr} (hG : Global c.shared g)
    (hL : ∀ u, Local c.shared g u (c.pc u)) (hpc : c.pc t = .count old) :
    (exec movedFrom t o c.shared (c.pc t)).Sat (Kept c t) := by
  have hl := hL t
  rw [hpc] at hl
  have hf := hl.facts
  simp only [hpc, exec]
  split
  · rename_i hcas
    subst hcas
    split
    · rename_i hnull
      refine ⟨g, hG.countEmpty (t := t) hnull hnull rfl rfl, ⟨hl.counted, hl.owned, ?_⟩,
        fun u hu => (hL u).frame ?_⟩
      · simpa [PC.Facts, Shared.answer] using hf
      · exact ⟨fun _ => Iff.rfl, fun _ _ => Iff.rfl, fun _ k hk _ => ⟨k, hk, rfl⟩,
          fun _ k _ hk _ => ⟨k, hk, rfl⟩, answers_empty_of_ne hu.symm,
          Function.update_of_ne hu _ _⟩
    · rename_i a ha
      obtain ⟨q, k, rfl, hk, hr⟩ := hG.top ha
      have hnot : t ∉ g.readers q.addr := by
        rw [hl.counted]
        exact Option.some_ne_none _ ∘ Eq.symm
      simp only [Memory.find_of_read hk]
      refine ⟨_, hG.count hk ha hnot rfl rfl rfl, ?_, fun u hu => (hL u).frame ?_⟩
      · refine hl.of_set rfl rfl (by simp [PC.counted]) (by simp [PC.owned])
          (fun b hb => by simp [PC.counted, hb.symm]) (by simp [PC.owned]) ?_
        exact ⟨⟨k, hk⟩, ha, hf⟩
      · exact Frame.of_set rfl rfl (by simp [hu]) (by simp [hr]) (by simp) (.refl _ _)
          (fun q k hk _ _ => ⟨k, hk, rfl⟩) rfl rfl
  · exact kept_of_same hG hL (by rw [hpc]; rfl) (by rw [hpc]; rfl) hf

theorem keep_readNext {old : CountedNodePtr Addr} (hG : Global c.shared g)
    (hL : ∀ u, Local c.shared g u (c.pc u)) (hpc : c.pc t = .readNext old p) :
    (exec movedFrom t o c.shared (c.pc t)).Sat (Kept c t) := by
  have hf := (hL t).facts
  rw [hpc] at hf
  obtain ⟨⟨n, hn⟩, hrest⟩ := hf
  simp only [hpc, exec, Memory.access_of_read hn, Outcome.sat_ok]
  exact kept_of_same hG hL (by rw [hpc]; rfl) (by rw [hpc]; rfl) ⟨⟨n, hn, rfl⟩, hrest⟩

omit [DecidableEq Tid] [DecidableEq Addr] in
/-- A reader's node is linked, popped with its count not yet added, or retired. -/
theorem role_of_reader (hG : Global s g) (hn : s.mem.read p = some n)
    (ht : t ∈ g.readers p.addr) : (∃ u e, g.role p.addr = .own u (.popped e)) ∨
      g.role p.addr = .linked ∨ g.role p.addr = .retired := by
  have hpos := Finset.card_pos.mpr ⟨t, ht⟩
  have hbal := hG.balance p n hn
  cases hr : g.role p.addr with
  | free => exact (Memory.cell_ne_none_of_read hn ((hG.free _).mp hr)).elim
  | linked => exact .inr (.inl rfl)
  | retired => exact .inr (.inr rfl)
  | own u k =>
      cases k with
      | popped e => exact .inl ⟨u, e, rfl⟩
      | fresh =>
          rw [hr] at hbal
          have := hbal.1
          omega
      | dying =>
          rw [hr] at hbal
          have : (g.readers p.addr).card = (0 : ℤ) := hbal
          omega

theorem keep_unlink {old next : CountedNodePtr Addr} (hG : Global c.shared g)
    (hL : ∀ u, Local c.shared g u (c.pc u)) (hpc : c.pc t = .unlink old p next) :
    (exec movedFrom t o c.shared (c.pc t)).Sat (Kept c t) := by
  have hl := hL t
  rw [hpc] at hl
  obtain ⟨⟨n, hn, hnext⟩, hold, howed⟩ := hl.facts
  simp only [hpc, exec, hn]
  split
  · rename_i hcas
    subst hcas hnext
    have ht : t ∈ g.readers p.addr := (hl.counted _).mpr rfl
    obtain ⟨q, k, hq, hk, hr⟩ := hG.top hold
    obtain ⟨stack, hG'⟩ := hG.unlink hn hold ht (rfl : ({ c.shared with
      head := n.next, history := c.shared.history ++ [.pop t n.data] } : Shared Tid Addr A).head =
        n.next) rfl rfl
    refine ⟨_, hG', ?_, fun u hu => (hL u).frame ?_⟩
    · refine hl.of_set rfl rfl (by simp [PC.counted]) (by simp [PC.owned, eq_comm])
        (fun b hb => by simp [PC.counted, hb.symm]) (fun b k hb => by simp [PC.owned, hb.symm]) ?_
      exact ⟨n, hn, by simp [howed]⟩
    · exact Frame.of_set rfl rfl (by simp [hu]) (by simp [hr]) (by simp [hu.symm]) (.refl _ _)
        (fun q k hk _ _ => ⟨k, hk, rfl⟩) (by simp [answers_pop_of_ne hu.symm]) rfl
  · exact kept_of_same hG hL (by rw [hpc]; rfl) (by rw [hpc]; rfl) ⟨⟨n, hn⟩, howed⟩

theorem keep_takeData {old : CountedNodePtr Addr} (hG : Global c.shared g)
    (hL : ∀ u, Local c.shared g u (c.pc u)) (hpc : c.pc t = .takeData old p) :
    (exec movedFrom t o c.shared (c.pc t)).Sat (Kept c t) := by
  have hf := (hL t).facts
  rw [hpc] at hf
  obtain ⟨n, hn, howed⟩ := hf
  simp only [hpc, exec, Memory.access_of_read hn, Outcome.sat_ok]
  refine kept_of_write hG hL hn (by rw [hpc]; rfl) rfl (by rw [hpc]; rfl) rfl (fun _ _ => rfl) ?_
  exact ⟨⟨_, Memory.read_write_self hn⟩, howed⟩

theorem keep_addCount {old : CountedNodePtr Addr} {v : A} (hG : Global c.shared g)
    (hL : ∀ u, Local c.shared g u (c.pc u)) (hpc : c.pc t = .addCount old p v) :
    (exec movedFrom t o c.shared (c.pc t)).Sat (Kept c t) := by
  obtain ⟨hr, hne⟩ := (hL t).role_owned (a := p.addr) (by rw [hpc]; rfl)
  have hl := hL t
  rw [hpc] at hl
  obtain ⟨⟨n, hn⟩, howed⟩ := hl.facts
  have hbal := hG.balance p n hn
  rw [hr] at hbal
  obtain ⟨hcard, hle⟩ := hbal
  have hnot : t ∉ g.readers p.addr := by
    rw [hl.counted]
    simp [PC.counted]
  simp only [hpc, exec, Memory.access_of_read hn]
  split
  · rename_i hlast
    have hzero : (g.readers p.addr).card = (0 : ℤ) := by
      omega
    refine ⟨g.set p.addr (.own t .dying) (g.readers p.addr), hG.rewrite hn (by simp [hr])
      (by simp) (by simp) hzero rfl rfl rfl, ?_, fun u hu => (hL u).frame ?_⟩
    · refine hl.of_set rfl rfl (by simp [hnot, PC.counted]) (by simp [PC.owned, eq_comm])
        (by simp [PC.counted]) (fun b k hb => by simp [PC.owned, hb.symm]) ?_
      exact ⟨⟨_, Memory.read_write_self hn⟩, howed⟩
    · exact Frame.rewrite hn rfl Iff.rfl (hne u hu) (by simp [hu.symm]) (fun _ => rfl) rfl rfl
  · rename_i hlast
    have hge : 1 ≤ n.internalCount + (old.externalCount - 2) := by omega
    refine ⟨g.set p.addr .retired (g.readers p.addr), hG.rewrite hn (by simp [hr])
      (by simp) (by simp) ⟨by linarith, hge⟩ rfl rfl rfl, ?_, fun u hu => (hL u).frame ?_⟩
    · refine hl.of_set rfl rfl (by simp [hnot, PC.counted]) (by simp [PC.owned])
        (by simp [PC.counted]) (fun b k hb => by simp [PC.owned, hb.symm]) ?_
      simpa [PC.Facts, Shared.answer] using howed
    · exact Frame.rewrite hn rfl Iff.rfl (hne u hu) (by simp) (fun _ => rfl) rfl
        (Function.update_of_ne hu _ _)

theorem kept_of_free {s' : Shared Tid Addr A} (hG : Global c.shared g)
    (hL : ∀ u, Local c.shared g u (c.pc u)) (hn : c.shared.mem.read p = some n)
    (ho : (c.pc t).owned = some (p.addr, .dying)) (hc : (c.pc t).counted = none)
    (ho' : pc'.owned = none) (hc' : pc'.counted = none) (hh : s'.head = c.shared.head)
    (hm : s'.mem = c.shared.mem.free p) (hi : s'.history = c.shared.history)
    (hret : ∀ u, u ≠ t → s'.returned u = c.shared.returned u)
    (hf : pc'.Facts s'.mem (answers t s'.history) (s'.returned t)) : Kept c t (s', pc') := by
  obtain ⟨hr, hne⟩ := (hL t).role_owned ho
  have hbal := hG.balance p n hn
  rw [hr] at hbal
  have hempty : g.readers p.addr = ∅ := by
    simpa [Balanced] using hbal
  refine ⟨_, hG.delete hr hh hm hi, ?_, fun u hu => (hL u).frame ?_⟩
  · refine (hL t).of_set rfl rfl (by simp [hc']) (by simp [ho']) (by simp [hc, hc'])
      (fun b k hb => by simp [ho, ho', hb.symm]) hf
  · exact Frame.of_set rfl rfl (by simp [hempty]) (hne u hu) (by simp)
      (hm ▸ Memory.eqOff_free) (by simp [hempty]) (by rw [hi]) (hret u hu)

theorem keep_deleteTaken {v : A} (hG : Global c.shared g) (hL : ∀ u, Local c.shared g u (c.pc u))
    (hpc : c.pc t = .deleteTaken p v) : (exec movedFrom t o c.shared (c.pc t)).Sat (Kept c t) := by
  have hf := (hL t).facts
  rw [hpc] at hf
  obtain ⟨⟨n, hn⟩, howed⟩ := hf
  simp only [hpc, exec, Memory.access_of_read hn, Outcome.sat_ok]
  refine kept_of_free hG hL hn (by rw [hpc]; rfl) (by rw [hpc]; rfl) rfl rfl rfl rfl rfl
    (fun u hu => Function.update_of_ne hu _ _) ?_
  simpa [PC.Facts, Shared.answer] using howed

theorem keep_deleteReleased {old : CountedNodePtr Addr} (hG : Global c.shared g)
    (hL : ∀ u, Local c.shared g u (c.pc u)) (hpc : c.pc t = .deleteReleased old p) :
    (exec movedFrom t o c.shared (c.pc t)).Sat (Kept c t) := by
  have hf := (hL t).facts
  rw [hpc] at hf
  obtain ⟨⟨n, hn⟩, howed⟩ := hf
  simp only [hpc, exec, Memory.access_of_read hn, Outcome.sat_ok]
  exact kept_of_free hG hL hn (by rw [hpc]; rfl) (by rw [hpc]; rfl) rfl rfl rfl rfl rfl
    (fun _ _ => rfl) howed

/-- A reader gives its node up. Only the last one, of a node whose counts were
joined, sees an internal count of one. -/
theorem keep_subCount {old : CountedNodePtr Addr} (hG : Global c.shared g)
    (hL : ∀ u, Local c.shared g u (c.pc u)) (hpc : c.pc t = .subCount old p) :
    (exec movedFrom t o c.shared (c.pc t)).Sat (Kept c t) := by
  have hl := hL t
  rw [hpc] at hl
  obtain ⟨⟨n, hn⟩, howed⟩ := hl.facts
  have ht : t ∈ g.readers p.addr := (hl.counted _).mpr rfl
  have hcard : ((g.readers p.addr).erase t).card + 1 = (g.readers p.addr).card :=
    Finset.card_erase_add_one ht
  have hbal := hG.balance p n hn
  have hsame : g.role p.addr = g.role p.addr := rfl
  -- as long as someone else will delete the node, its stage stays
  have stays : ∀ m, m = c.shared.mem.write p { n with internalCount := n.internalCount - 1 } →
      Global { c.shared with mem := m }
        (g.set p.addr (g.role p.addr) ((g.readers p.addr).erase t)) →
      Kept c t ({ c.shared with mem := m }, .count old) := by
    rintro m rfl hG'
    refine ⟨_, hG', ?_, fun u hu => (hL u).frame ?_⟩
    · refine hl.of_set rfl rfl (by simp [PC.counted]) (fun k => ?_)
        (fun b hb => by simp [PC.counted, hb.symm]) (by simp [PC.owned]) howed
      rw [hl.owned]
      simp [PC.owned]
    · exact Frame.recount hn rfl (by simp [hu]) rfl rfl rfl rfl
  simp only [hpc, exec, Memory.access_of_read hn]
  rcases role_of_reader hG hn ht with ⟨u, e, hr⟩ | hr | hr
  · rw [hr] at hbal
    obtain ⟨hsum, hle⟩ := hbal
    rw [if_neg (by omega)]
    refine stays _ rfl (hr ▸ hG.rewrite hn (by simp [hr]) (by simp) (by simp) ⟨?_, ?_⟩ rfl rfl rfl)
    · push_cast [← hcard] at hsum ⊢
      linarith
    · linarith
  · obtain ⟨hle, hG'⟩ := hG.leave hn hr ht (rfl : ({ c.shared with
      mem := c.shared.mem.write p { n with internalCount := n.internalCount - 1 } } :
        Shared Tid Addr A).head = c.shared.head) rfl rfl
    rw [if_neg (by omega)]
    exact stays _ rfl (hr ▸ hG')
  · rw [hr] at hbal
    obtain ⟨hsum, hge⟩ := hbal
    split
    · have hzero : ((g.readers p.addr).erase t).card = (0 : ℤ) := by omega
      refine ⟨g.set p.addr (.own t .dying) ((g.readers p.addr).erase t),
        hG.rewrite hn (by simp [hr]) (by simp) (by simp) hzero rfl rfl rfl, ?_,
        fun u hu => (hL u).frame ?_⟩
      · refine hl.of_set rfl rfl (by simp [PC.counted]) (by simp [PC.owned, eq_comm])
          (fun b hb => by simp [PC.counted, hb.symm]) (fun b k hb => by simp [PC.owned, hb.symm]) ?_
        exact ⟨⟨_, Memory.read_write_self hn⟩, howed⟩
      · exact Frame.rewrite hn rfl (by simp [hu]) (by simp [hr]) (by simp [hu.symm])
          (fun _ => rfl) rfl rfl
    · refine stays _ rfl
        (hr ▸ hG.rewrite hn (by simp [hr]) (by simp) (by simp) ⟨?_, ?_⟩ rfl rfl rfl)
      · show _ = n.internalCount - 1
        omega
      · exact Int.le_sub_one_of_lt (lt_of_le_of_ne hge (Ne.symm ‹_›))

theorem outline (movedFrom : A → A) :
    Outline (exec movedFrom) (fun _ _ _ => True) (· = start)
      (Global : Shared Tid Addr A → Ghost Tid Addr A → Prop) Local where
  start := by
    rintro c rfl
    refine ⟨⟨fun _ => .free, fun _ => ∅, []⟩, ?_, fun t => ?_⟩
    · exact ⟨by simp [start], by simp, by simp, rfl, by simp, by simp [start], .nil⟩
    · exact ⟨by simp [PC.counted, start], by simp [PC.owned, start], rfl⟩
  step := by
    intro c t o g _ _ hG hL
    cases hpc : c.pc t with
    | idle => exact hpc ▸ keep_idle hG hL hpc
    | newNode v => exact hpc ▸ keep_newNode hG hL hpc
    | loadNext v p => exact hpc ▸ keep_loadNext hG hL hpc
    | pushCas v p => exact hpc ▸ keep_pushCas hG hL hpc
    | loadHead => exact hpc ▸ keep_loadHead hG hL hpc
    | count old => exact hpc ▸ keep_count hG hL hpc
    | readNext old p => exact hpc ▸ keep_readNext hG hL hpc
    | unlink old p next => exact hpc ▸ keep_unlink hG hL hpc
    | takeData old p => exact hpc ▸ keep_takeData hG hL hpc
    | addCount old p v => exact hpc ▸ keep_addCount hG hL hpc
    | deleteTaken p v => exact hpc ▸ keep_deleteTaken hG hL hpc
    | subCount old p => exact hpc ▸ keep_subCount hG hL hpc
    | deleteReleased old p => exact hpc ▸ keep_deleteReleased hG hL hpc

end CsNotes.SplitRefCount
