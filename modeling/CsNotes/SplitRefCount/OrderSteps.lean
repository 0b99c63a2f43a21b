import CsNotes.SplitRefCount.MemoryOrders

/-!
# Every step keeps what is known

A thread makes the accesses to its node when all that conflicts with them is known
to it, and accounts for them when it leaves the node: they are released through the
internal count, or through `head` if nobody else uses the node.
-/
namespace CsNotes.SplitRefCount
open Interleaving Storage History Races ReleaseAcquire

namespace Ordered
variable {Tid Addr A : Type*} [DecidableEq Addr] [DecidableEq Tid]
variable {movedFrom : A → A} {orders : Orders} {t u : Tid} {v : CountedNodePtr Addr}
variable {c : Run Tid Addr A} {g : Ghost Tid Addr A} {r : State Tid Addr A × PC Addr A}
variable {p q : Ptr Addr} {l : List (Access (Ptr Addr × Field))} {i : ℕ} {pc' : PC Addr A}
variable (hG : SplitRefCount.Global c.shared.1 g) (hL : ∀ u, Local c.shared.1 g u (c.pc u))
include hG hL

section Steps
variable {x : A} {n : Node Addr A} {old : CountedNodePtr Addr} {o : Oracle Addr A × ℕ}
variable (hK : Known c)
include hK

omit hG hL [DecidableEq Tid] [DecidableEq Addr] in
theorem Known.own (e : c.shared.2.Extends t l r.1.2)
    (hknows : knows c.shared.2 t (c.pc t) = c.shared.2.view t) {a : Access (Ptr Addr × Field)}
    (ha : a ∈ (c.pc t).needs) : r.1.2.Covers (r.1.2.view t) a := by
  have h := hK.needs t a ha
  rw [hknows] at h
  exact h.own e

omit hG hL in
theorem known_idle (hpc : c.pc t = .idle) :
    ((program movedFrom orders).exec t o c.shared (c.pc t)).Sat fun r => Known (after c t r) := by
  have hnode : (c.pc t).node = none := by rw [hpc]; rfl
  rw [hpc]
  refine exec_plain rfl (List.forall_mem_nil _) fun m hm => ?_
  change (SplitRefCount.exec movedFrom t o.1 c.shared.1 .idle).Sat _
  simp only [SplitRefCount.exec]
  cases o.1.call
  all_goals exact known_of_moved hK hm.extends_ rfl hnode rfl hm.current.ge hm.released

omit hG hL in
theorem known_loadHead (hpc : c.pc t = .loadHead) :
    ((program movedFrom orders).exec t o c.shared (c.pc t)).Sat fun r => Known (after c t r) := by
  have hnode : (c.pc t).node = none := by rw [hpc]; rfl
  rw [hpc]
  refine exec_load rfl (List.forall_mem_nil _) fun v w m _ hm => ?_
  exact known_of_moved hK hm.extends_ rfl hnode rfl hm.current.ge hm.released

omit hG in
theorem known_newNode (hpc : c.pc t = .newNode x) :
    ((program movedFrom orders).exec t o c.shared (c.pc t)).Sat fun r => Known (after c t r) := by
  have hnode : (c.pc t).node = none := by rw [hpc]; rfl
  rw [hpc]
  by_cases ha : c.shared.1.mem.cell o.1.addr = none
  · let p : Ptr Addr := c.shared.1.mem.fresh o.1.addr
    have hunused : ∀ v f, c.shared.2.Covers v (.writes (p, f)) := by
      intro v f i y hy hc
      have hlt := hK.unused y (List.mem_of_getElem? hy)
      rw [hc.1] at hlt
      exact (Nat.lt_irrefl _ hlt).elim
    have haccesses : (program movedFrom orders).accesses o.1 c.shared.1 (.newNode x) =
        [.writes (p, .data), .writes (p, .internalCount)] := if_pos ha
    have hloc : ∀ b ∈ [Access.writes (p, Field.data), .writes (p, .internalCount)],
        b.loc.1 = p := by
      simp [Access.writes]
    refine exec_plain rfl (fun b hb => ?_) fun m hm => ?_
    · rw [haccesses] at hb
      rcases List.mem_cons.mp hb with rfl | hb
      · exact hunused _ _
      · exact List.mem_singleton.mp hb ▸ hunused _ _
    · rw [haccesses] at hm
      change (SplitRefCount.exec movedFrom t o.1 c.shared.1 (.newNode x)).Sat _
      simp only [SplitRefCount.exec, if_pos ha, Outcome.sat_ok]
      refine hK.step hm.extends_ (fun b hb => ?_) (Nat.le_succ _) (fun u _ a hu b hb hc => ?_)
        (fun a ha => ?_) fun q => ?_
      · rw [hloc b hb]
        exact Nat.lt_succ_self _
      · obtain ⟨n, hn⟩ := node_alive hL (PC.node_of_needs hu)
        have hlt := c.shared.1.mem.id_lt _ _ (Memory.read_eq_some.mp hn)
        rw [← hc.1, hloc b hb] at hlt
        exact Nat.lt_irrefl _ hlt
      · have hwrites : ∃ f, a = .writes (p, f) := by
          simp only [PC.needs, List.mem_cons, List.not_mem_nil, or_false] at ha
          rcases ha with rfl | rfl | rfl <;> exact ⟨_, rfl⟩
        obtain ⟨f, rfl⟩ := hwrites
        exact (hunused _ f).own hm.extends_
      · by_cases hq : q = p
        · exact hq ▸ tended_of_own rfl rfl (by simp)
        · refine (hK.tended q).apart hm.extends_ (fun b hb h => hq (h.symm.trans (hloc b hb)))
            hm.current.ge (by rw [hm.released]) ?_ (by simp [hnode]) fun h => hq ?_
          · exact (Memory.read_alloc ha).trans (if_neg hq)
          · exact (Option.some.inj h).symm
  · refine exec_plain rfl (fun b hb => ?_) fun m _ => ?_
    · rw [show (program movedFrom orders).accesses o.1 c.shared.1 (.newNode x) = [] from if_neg ha]
        at hb
      cases hb
    · change (SplitRefCount.exec movedFrom t o.1 c.shared.1 (.newNode x)).Sat _
      simp only [SplitRefCount.exec, if_neg ha, Outcome.sat_wait]

theorem known_fresh {m : Knowledge Tid Addr} (hn : c.shared.1.mem.read p = some n)
    (hneeds : (c.pc t).needs = (PC.pushCas x p).needs)
    (hknows : knows c.shared.2 t (c.pc t) = c.shared.2.view t)
    (hm : Silent t [.writes (p, .next)] c.shared.2 m) :
    Known (after c t (({ c.shared.1 with mem := c.shared.1.mem.write p { n with next := v } }, m),
      .pushCas x p)) := by
  have hnode : (c.pc t).node = some p :=
    PC.node_of_needs (a := .writes (p, .next)) (by rw [hneeds]; simp [PC.needs])
  refine known_of_node hG hL (p := p) hK hm.extends_ (fun b hb => ?_) rfl (fun q hq => ?_)
    (fun q hq => ?_) (fun q hq => ?_) hm.current.ge (fun q _ => by rw [hm.released])
    (fun a ha => ?_) (tended_of_own rfl rfl (by simp))
  · rw [List.mem_singleton.mp hb, hneeds]
    simp [PC.needs]
  · cases hnode.symm.trans hq
    rfl
  · cases hq
    rfl
  · exact (Memory.read_write hn).trans (if_neg hq)
  · exact hK.own hm.extends_ hknows (hneeds ▸ ha)

theorem known_loadNext (hpc : c.pc t = .loadNext x p) :
    ((program movedFrom orders).exec t o c.shared (c.pc t)).Sat fun r => Known (after c t r) := by
  obtain ⟨n, hn⟩ := node_alive hL (u := t) (p := p) (by rw [hpc]; rfl)
  have hneeds : (c.pc t).needs = (PC.pushCas x p).needs := by rw [hpc]; rfl
  have hknows : knows c.shared.2 t (c.pc t) = c.shared.2.view t := by rw [hpc]; rfl
  have hcov : ∀ a ∈ (c.pc t).needs, c.shared.2.Covers (c.shared.2.view t) a :=
    fun a ha => hknows ▸ hK.needs t a ha
  rw [hneeds] at hcov
  rw [hpc]
  refine exec_load rfl (List.forall_mem_singleton.mpr (hcov _ (by simp [PC.needs])))
    fun v w m _ hm => Outcome.sat_map.mpr ?_
  change (c.shared.1.mem.access p _).Sat _
  rw [Memory.access_of_read hn]
  exact known_fresh hG hL hK hn hneeds hknows hm.toSilent

omit [DecidableEq Addr] in
/-- The exchange of push releases all that the thread has done to its node. -/
theorem known_linked {m : Knowledge Tid Addr} {h : List (Event Tid A)}
    (hn : c.shared.1.mem.read p = some n) (hpc : c.pc t = .pushCas x p)
    (hm : Exchanged .release c.shared.1.head t [.writes (p, .next)] c.shared.2 m) :
    Known (after c t (({ c.shared.1 with head := { ptr := some p.addr }, history := h }, m),
      .idle)) := by
  obtain ⟨hr, -⟩ := (hL t).role_owned (a := p.addr) (k := .fresh) (by rw [hpc]; rfl)
  have hbal := hG.balance p n hn
  rw [hr] at hbal
  have hcurrent : m.current = c.shared.2.current ⊔ m.view t := hm.current
  have hall : ∀ f, m.Covers m.current (.writes (p, f)) := by
    intro f
    have hown := hK.own (r := ((c.shared.1, m), .idle)) (a := .writes (p, f)) hm.extends_
      (by rw [hpc]; rfl) (by rw [hpc]; cases f <;> simp [PC.needs])
    exact hown.mono (hcurrent ▸ le_sup_right)
  have huser : ∀ u, ¬ ((after c t (({ c.shared.1 with
      head := { ptr := some p.addr }, history := h }, m), .idle)).pc u).node = some p := by
    intro u hu
    rcases node_after.mp hu with ⟨-, hu⟩ | ⟨hut, hu⟩
    · cases hu
    · exact hut (sole_user hG hL hn hr (.inl rfl) hu)
  refine known_of_node hG hL (p := p) hK hm.extends_ (fun b hb => ?_) rfl (fun q hq => ?_)
    (fun q hq => by cases hq) (fun q _ => rfl) (hcurrent ▸ le_sup_left)
    (fun q _ => by rw [hm.released]) (List.forall_mem_nil _)
    ⟨fun _ => (hall .next).reads, fun _ => (hall .internalCount).updates,
      fun _ => ⟨hall .data, fun u hu => (huser u hu).elim⟩, fun _ i y hi hy => ?_⟩
  · rw [List.mem_singleton.mp hb, hpc]
    simp [PC.needs]
  · rw [hpc] at hq
    cases hq
    rfl
  · refine .inr (.inr ⟨⟨⟨n, hn, hbal.2.le⟩, fun u hu => (huser u hu).elim⟩, ?_,
      fun u hu => (huser u hu).elim⟩)
    exact hall y.2.loc.2 i y hi ⟨Prod.ext hy rfl, .inr rfl, by simp [Access.writes]⟩

theorem known_pushCas (hpc : c.pc t = .pushCas x p) :
    ((program movedFrom orders).exec t o c.shared (c.pc t)).Sat fun r => Known (after c t r) := by
  obtain ⟨n, hn⟩ := node_alive hL (u := t) (p := p) (by rw [hpc]; rfl)
  have hneeds : (c.pc t).needs = (PC.pushCas x p).needs := by rw [hpc]
  have hknows : knows c.shared.2 t (c.pc t) = c.shared.2.view t := by rw [hpc]; rfl
  have hcov : ∀ a ∈ (c.pc t).needs, c.shared.2.Covers (c.shared.2.view t) a :=
    fun a ha => hknows ▸ hK.needs t a ha
  have hsucceeds : ∀ v, (program movedFrom orders).succeeds o.1 { c.shared.1 with head := v }
      (.pushCas x p) = (decide (v = n.next) && !o.1.spurious) :=
    fun v => succeeds_pushCas (s := { c.shared.1 with head := v }) x hn
  rw [hneeds] at hcov
  rw [hpc]
  refine exec_exchange rfl (List.forall_mem_singleton.mpr (hcov _ (by simp [PC.needs])))
    (fun m hs hm => ?_) (fun v w m _ hs hm => Outcome.sat_map.mpr ?_)
  · have hs : c.shared.1.head = n.next ∧ o.1.spurious = false := by
      simpa using (hsucceeds c.shared.1.head).symm.trans hs
    change (c.shared.1.mem.access p _).Sat _
    rw [Memory.access_of_read hn, if_pos hs]
    exact known_linked hG hL hK hn hpc hm
  · have hs : ¬ (v = n.next ∧ o.1.spurious = false) := by
      simpa using (hsucceeds v).symm.trans hs
    change (SplitRefCount.exec movedFrom t o.1 { c.shared.1 with head := v } (.pushCas x p)).Sat _
    simp only [SplitRefCount.exec, Memory.access_of_read hn, if_neg hs, Outcome.sat_ok]
    exact known_fresh hG hL hK hn hneeds hknows hm.toSilent

omit hK [DecidableEq Addr] in
/-- A thread uses the node on top of the stack, and learns what has been done to it. -/
theorem known_counted {m : Knowledge Tid Addr} {e : ℤ} {h : CountedNodePtr Addr} (hK : Known c)
    (htop : Linked c p) (hpc : (c.pc t).node = none)
    (hm : Exchanged .acquire c.shared.1.head t [] c.shared.2 m) :
    Known (after c t (({ c.shared.1 with head := h }, m), .readNext ⟨e, some p.addr⟩ p)) := by
  have hcurrent : m.current = c.shared.2.current := hm.current.trans (sup_bot_eq _)
  have hacquired : c.shared.2.current ≤ m.view t := hm.acquired rfl
  have hmem : ∀ {a}, c.shared.2.Covers c.shared.2.current a → m.Covers (m.view t) a :=
    fun h => (h.extends hm.extends_ (List.forall_mem_nil _)).mono hacquired
  refine known_of_node hG hL (p := p) hK hm.extends_ (List.forall_mem_nil _) rfl
    (fun q hq => ?_) (fun q hq => ?_) (fun q _ => rfl) hcurrent.ge (fun q _ => by rw [hm.released])
    (fun a ha => ?_) ?_
  · rw [hpc] at hq
    cases hq
  · cases hq
    rfl
  · have ha : a = .reads (p, .next) ∨ a = .updates (p, .internalCount) := by
      simpa [PC.needs] using ha
    rcases ha with rfl | rfl
    · exact hmem ((hK.tended p).next htop)
    · exact hmem ((hK.tended p).count htop)
  · refine (hK.tended p).step hm.extends_ hcurrent.ge (fun _ => ⟨htop, List.forall_mem_nil _⟩)
      (fun _ => .inr hacquired) (fun _ => ⟨?_, fun i hi => ?_⟩) fun _ => List.forall_mem_nil _
    · exact htop.inUse
    · have hne : ∀ u, (c.pc u).node = some p → u ≠ t := by
        rintro u hu rfl
        cases hpc.symm.trans hu
      rcases hi with hi | ⟨u, hu, hi⟩ | ⟨-, hi, hall⟩
      · exact .inl (hm.released ▸ hi)
      · exact .inr (.inl ⟨u, node_after.mpr (.inr ⟨hne u hu, hu⟩), (hm.extends_.view_le u).1 hi⟩)
      · refine .inr (.inr ⟨⟨htop.alive, fun u hu => ?_⟩, hcurrent.ge.1 hi, fun u hu => ?_⟩)
        · rcases node_after.mp hu with ⟨rfl, -⟩ | ⟨hut, hu⟩
          · exact congrArg PC.owned after_self
          · rw [after_of_ne hut]
            exact htop.unowned u hu
        · rcases node_after.mp hu with ⟨rfl, -⟩ | ⟨-, hu⟩
          · exact hacquired.1 hi
          · exact (hm.extends_.view_le u).1 (hall u hu)

theorem known_count (hpc : c.pc t = .count old) :
    ((program movedFrom orders).exec t o c.shared (c.pc t)).Sat fun r => Known (after c t r) := by
  have hnode : (c.pc t).node = none := by rw [hpc]; rfl
  rw [hpc]
  refine exec_exchange rfl (List.forall_mem_nil _) (fun m hs hm => ?_) fun v w m _ hs hm =>
    Outcome.sat_map.mpr ?_
  · have hs : c.shared.1.head = old := of_decide_eq_true hs
    change (SplitRefCount.exec movedFrom t o.1 c.shared.1 (.count old)).Sat _
    simp only [SplitRefCount.exec, if_pos hs]
    subst hs
    split
    · have hcurrent : m.current = c.shared.2.current := hm.current.trans (sup_bot_eq _)
      exact known_of_moved hK hm.extends_ rfl hnode rfl hcurrent.ge hm.released
    · rename_i a ha
      obtain ⟨p, n, rfl, hn, hr⟩ := hG.top ha
      simp only [Memory.find_of_read hn, ha, Outcome.sat_ok]
      exact known_counted hG hL hK (linked_of_role hG hL hn hr) hnode hm
  · have hne : v ≠ old := of_decide_eq_false hs
    change (SplitRefCount.exec movedFrom t o.1 { c.shared.1 with head := v } (.count old)).Sat _
    simp only [SplitRefCount.exec, if_neg hne, Outcome.sat_ok]
    exact known_of_moved hK hm.extends_ rfl hnode rfl hm.toSilent.current.ge hm.toSilent.released

omit [DecidableEq Addr] in
theorem known_uses {s' : Shared Tid Addr A} {m : Knowledge Tid Addr}
    (hnode : (c.pc t).node = some p) (hnode' : pc'.node = some p)
    (howned : pc'.owned = (c.pc t).owned) (hm : Silent t l c.shared.2 m)
    (hl : ∀ b ∈ l, b ∈ (c.pc t).needs) (hallocs : s'.mem.allocs = c.shared.1.mem.allocs)
    (hread : ∀ q, q ≠ p → s'.mem.read q = c.shared.1.mem.read q)
    (hcount : (s'.mem.read p).map Node.internalCount =
      (c.shared.1.mem.read p).map Node.internalCount)
    (hlinked : Linked c p → ∀ b ∈ l, ¬ b.Conflicts (.reads (p, .next)) ∧
      ¬ b.Conflicts (.writes (p, .data)) ∧ ¬ b.Conflicts (.updates (p, .internalCount)))
    (hself : ∀ a ∈ pc'.needs, m.Covers (knows m t pc') a) :
    Known (after c t ((s', m), pc')) := by
  have huser : ∀ u, ((after c t ((s', m), pc')).pc u).node = some p ↔ (c.pc u).node = some p := by
    intro u
    by_cases hut : u = t
    · subst hut
      rw [after_self, hnode, hnode']
    · rw [after_of_ne hut]
  have howns : ∀ u, ((after c t ((s', m), pc')).pc u).owned = (c.pc u).owned := by
    intro u
    by_cases hut : u = t
    · subst hut
      rw [after_self, howned]
    · rw [after_of_ne hut]
  have halive : (∃ n, s'.mem.read p = some n ∧ n.internalCount ≤ 0) ↔
      ∃ n, c.shared.1.mem.read p = some n ∧ n.internalCount ≤ 0 := by
    have h : ∀ y : Option (Node Addr A), (∃ n, y = some n ∧ n.internalCount ≤ 0) ↔
        ∃ k, y.map Node.internalCount = some k ∧ k ≤ 0 := by
      rintro (_ | n) <;> simp
    rw [h, h, hcount]
  have hlinked' : Linked (after c t ((s', m), pc')) p ↔ Linked c p := by
    constructor
    · exact fun h => ⟨halive.mp h.alive, fun u hu => howns u ▸ h.unowned u ((huser u).mpr hu)⟩
    · exact fun h => ⟨halive.mpr h.alive,
        fun u hu => (howns u).trans (h.unowned u ((huser u).mp hu))⟩
  refine known_of_node hG hL (p := p) hK hm.extends_ hl hallocs (fun q hq => ?_) (fun q hq => ?_)
    hread hm.current.ge (fun q _ => by rw [hm.released]) hself
    ((hK.tended p).step hm.extends_ hm.current.ge (fun h => ?_) (fun _ => .inl hnode)
      (fun h => ⟨?_, fun i hi => ?_⟩) fun _ b _ _ i hi => ?_)
  · exact Option.some.inj (hq.symm.trans hnode)
  · exact Option.some.inj (hq.symm.trans hnode')
  · exact ⟨hlinked'.mp h, hlinked (hlinked'.mp h)⟩
  · refine ⟨node_alive hL hnode, fun u a k hu ho => h.popped u a k ((huser u).mpr hu) ?_⟩
    rw [howns u, ho]
  · rcases hi with hi | ⟨u, hu, hi⟩ | ⟨hq, hi, hall⟩
    · exact .inl (hm.released ▸ hi)
    · exact .inr (.inl ⟨u, (huser u).mpr hu, (hm.extends_.view_le u).1 hi⟩)
    · exact .inr (.inr ⟨hlinked'.mpr hq, hm.current.ge.1 hi,
        fun u hu => (hm.extends_.view_le u).1 (hall u ((huser u).mp hu))⟩)
  · exact .inr (.inl ⟨t, (huser t).mpr hnode, hi⟩)

theorem known_readNext (hpc : c.pc t = .readNext old p) :
    ((program movedFrom orders).exec t o c.shared (c.pc t)).Sat fun r => Known (after c t r) := by
  have hnode : (c.pc t).node = some p := by rw [hpc]; rfl
  have howned : (c.pc t).owned = none := by rw [hpc]; rfl
  have hneeds : (c.pc t).needs = [.reads (p, .next), .updates (p, .internalCount)] := by
    rw [hpc]
    rfl
  have hknows : knows c.shared.2 t (c.pc t) = c.shared.2.view t := by rw [hpc]; rfl
  have hcov : ∀ a ∈ (c.pc t).needs, c.shared.2.Covers (c.shared.2.view t) a :=
    fun a ha => hknows ▸ hK.needs t a ha
  obtain ⟨n, hn⟩ := node_alive hL hnode
  rw [hneeds] at hcov
  rw [hpc]
  refine exec_plain rfl (List.forall_mem_singleton.mpr (hcov _ (by simp))) fun m hm => ?_
  change (c.shared.1.mem.access p _).Sat _
  rw [Memory.access_of_read hn]
  refine known_uses hG hL hK hnode rfl howned.symm hm (fun b hb => ?_) rfl (fun _ _ => rfl) rfl
    (fun _ b hb => ?_) fun a ha => ?_
  · rw [List.mem_singleton.mp hb, hneeds]
    simp
  · rw [List.mem_singleton.mp hb]
    simp [Access.Conflicts, Access.reads, Access.writes, Access.updates]
  · exact hK.own (r := ((c.shared.1, m), PC.unlink old p n.next)) hm.extends_ hknows (hneeds ▸ ha)

theorem known_takeData (hpc : c.pc t = .takeData old p) :
    ((program movedFrom orders).exec t o c.shared (c.pc t)).Sat fun r => Known (after c t r) := by
  have hnode : (c.pc t).node = some p := by rw [hpc]; rfl
  have howned : (c.pc t).owned = some (p.addr, .popped old.externalCount) := by rw [hpc]; rfl
  have hneeds : (c.pc t).needs = [.writes (p, .data), .updates (p, .internalCount)] := by
    rw [hpc]
    rfl
  have hknows : knows c.shared.2 t (c.pc t) = c.shared.2.view t := by rw [hpc]; rfl
  have hcov : ∀ a ∈ (c.pc t).needs, c.shared.2.Covers (c.shared.2.view t) a :=
    fun a ha => hknows ▸ hK.needs t a ha
  obtain ⟨n, hn⟩ := node_alive hL hnode
  rw [hneeds] at hcov
  rw [hpc]
  refine exec_plain rfl (List.forall_mem_singleton.mpr (hcov _ (by simp))) fun m hm => ?_
  change (c.shared.1.mem.access p _).Sat _
  rw [Memory.access_of_read hn]
  refine known_uses hG hL hK hnode rfl howned.symm hm (fun b hb => ?_) rfl
    (fun q hq => (Memory.read_write hn).trans (if_neg hq)) ?_ (fun h => ?_) fun a ha => ?_
  · rw [List.mem_singleton.mp hb, hneeds]
    simp
  · change ((c.shared.1.mem.write p _).read p).map _ = _
    rw [Memory.read_write_self hn, hn]
    rfl
  · rw [h.unowned t hnode] at howned
    cases howned
  · refine hK.own (r := ((c.shared.1, m), PC.takeData old p)) hm.extends_ hknows ?_
    rw [hneeds]
    exact List.mem_cons_of_mem _ ha

omit [DecidableEq Addr] in
/-- The thread that unlinks the node has it for itself until it adds the counts. -/
theorem known_unlinked {s' : Shared Tid Addr A} {m : Knowledge Tid Addr}
    (hlinked : Linked c p)
    (hneeds : (c.pc t).needs = [.reads (p, .next), .updates (p, .internalCount)])
    (hknows : knows c.shared.2 t (c.pc t) = c.shared.2.view t)
    (hmem : s'.mem = c.shared.1.mem)
    (hm : Exchanged .relaxed c.shared.1.head t [] c.shared.2 m) :
    Known (after c t ((s', m), .takeData old p)) := by
  have hnode : (c.pc t).node = some p :=
    PC.node_of_needs (a := .reads (p, .next)) (by rw [hneeds]; simp)
  have hcurrent : m.current = c.shared.2.current := hm.current.trans (sup_bot_eq _)
  have huser : ∀ u, (c.pc u).node = some p →
      ((after c t ((s', m), .takeData old p)).pc u).node = some p := by
    intro u hu
    by_cases hut : u = t
    · subst hut
      rw [after_self]
      rfl
    · rw [after_of_ne hut, hu]
  refine known_of_node hG hL (p := p) hK hm.extends_ (List.forall_mem_nil _) (by rw [hmem])
    (fun q hq => Option.some.inj (hq.symm.trans hnode)) (fun q hq => (Option.some.inj hq).symm)
    (fun q _ => by rw [hmem]) hcurrent.ge (fun q _ => by rw [hm.released]) (fun a ha => ?_)
    ((hK.tended p).step hm.extends_ hcurrent.ge (fun h => ?_) (fun _ => .inl hnode)
      (fun _ => ⟨hlinked.inUse, fun i hi => ?_⟩) fun _ => List.forall_mem_nil _)
  · have ha : a = .writes (p, .data) ∨ a = .updates (p, .internalCount) := by
      simpa [PC.needs] using ha
    rcases ha with rfl | rfl
    · exact (((hK.tended p).data hlinked).2 t hnode).own hm.extends_
    · exact hK.own (r := ((s', m), PC.takeData old p)) hm.extends_ hknows
        (by rw [hneeds]; simp)
  · have hself : ((after c t ((s', m), .takeData old p)).pc t).owned = none :=
      h.unowned t (huser t hnode)
    rw [after_self] at hself
    cases hself
  · rcases hi with hi | ⟨u, hu, hi⟩ | ⟨-, -, hall⟩
    · exact .inl (hm.released ▸ hi)
    · exact .inr (.inl ⟨u, huser u hu, (hm.extends_.view_le u).1 hi⟩)
    · exact .inr (.inl ⟨t, huser t hnode, hm.extends_.view.1 (hall t hnode)⟩)

theorem known_unlink {next : CountedNodePtr Addr} (hpc : c.pc t = .unlink old p next) :
    ((program movedFrom orders).exec t o c.shared (c.pc t)).Sat fun r => Known (after c t r) := by
  have hnode : (c.pc t).node = some p := by rw [hpc]; rfl
  have howned : (c.pc t).owned = none := by rw [hpc]; rfl
  have hneeds : (c.pc t).needs = [.reads (p, .next), .updates (p, .internalCount)] := by
    rw [hpc]
    rfl
  have hknows : knows c.shared.2 t (c.pc t) = c.shared.2.view t := by rw [hpc]; rfl
  have hf := (hL t).facts
  rw [hpc] at hf ⊢
  obtain ⟨⟨n, hn, -⟩, hold, -⟩ := hf
  refine exec_exchange rfl (List.forall_mem_nil _) (fun m hs hm => ?_) fun v w m _ hs hm =>
    Outcome.sat_map.mpr ?_
  · have hs : c.shared.1.head = old := of_decide_eq_true hs
    subst hs
    obtain ⟨q, k, hq, hk, hr⟩ := hG.top hold
    obtain rfl := Memory.ptr_eq_of_read hk hn hq
    change (SplitRefCount.exec movedFrom t o.1 c.shared.1 (.unlink c.shared.1.head q next)).Sat _
    simp only [SplitRefCount.exec, if_true, Outcome.sat_ok]
    exact known_unlinked hG hL hK (linked_of_role hG hL hn hr) hneeds hknows rfl hm
  · have hne : v ≠ old := of_decide_eq_false hs
    change (SplitRefCount.exec movedFrom t o.1 { c.shared.1 with head := v }
      (.unlink old p next)).Sat _
    simp only [SplitRefCount.exec, if_neg hne, Outcome.sat_ok]
    refine known_uses hG hL hK hnode rfl howned.symm hm.toSilent (List.forall_mem_nil _) rfl
      (fun _ _ => rfl) rfl (fun _ => List.forall_mem_nil _) fun a ha => ?_
    exact hK.own (r := ((c.shared.1, m), PC.subCount v p)) hm.extends_ hknows (hneeds ▸ ha)

omit hG hL [DecidableEq Tid] [DecidableEq Addr] in
/-- The last user of a node knows of all accesses to it, what it gets from the internal count
included. -/
theorem covers_last {m : Knowledge Tid Addr} {w : View} {f : Field} (huse : InUse c p)
    (hnot : ¬ Linked c p) (hsole : ∀ u, (c.pc u).node = some p → u = t)
    (e : c.shared.2.Extends t l m) (hview : m.view t ≤ w) (hreleased : c.shared.2.released p ≤ w) :
    m.Covers w (.writes (p, f)) := by
  intro i x hi hc
  have hlt := (List.getElem?_eq_some_iff.mp hi).1
  rcases Nat.lt_or_ge i c.shared.2.log.length with hi' | hi'
  · rw [e.log, List.getElem?_append_left hi'] at hi
    rcases (hK.tended p).accounted huse i x hi (congrArg Prod.fst hc.1) with h | ⟨u, hu, h⟩ | ⟨h, -⟩
    · exact hreleased.1 h
    · obtain rfl := hsole u hu
      exact hview.1 (e.view.1 h)
    · exact (hnot h).elim
  · exact hview.1 (e.own i hi' hlt)

/-- A thread that leaves a node to others releases what it has done there. -/
theorem known_left {s' : Shared Tid Addr A} {m : Knowledge Tid Addr} {order : MemoryOrder} {k : ℤ}
    (hnode : (c.pc t).node = some p) (hnode' : pc'.node = none)
    (hneeds : .updates (p, .internalCount) ∈ (c.pc t).needs)
    (hm : Updated order p t [.updates (p, .internalCount)] c.shared.2 m)
    (horder : order.releases = true) (huse : InUse c p) (hn : c.shared.1.mem.read p = some n)
    (hmem : s'.mem = c.shared.1.mem.write p { n with internalCount := k })
    (hbefore : k ≤ 0 → Linked (after c t ((s', m), pc')) p → Linked c p)
    (hafter : Linked c p → k ≤ 0) : Known (after c t ((s', m), pc')) := by
  have hreleased : m.released p = c.shared.2.released p ⊔ m.view t := by
    rw [hm.released, Function.update_self, if_pos horder]
  have hn' : s'.mem.read p = some { n with internalCount := k } := by
    rw [hmem]
    exact Memory.read_write_self hn
  have hknown : ∀ i, i ∈ (m.view t).1 → Accounted (after c t ((s', m), pc')) p i := by
    intro i hi
    have hle : m.view t ≤ m.released p := hreleased ▸ le_sup_right
    exact .inl (hle.1 hi)
  have huser : ∀ u, ((after c t ((s', m), pc')).pc u).node = some p →
      u ≠ t ∧ (c.pc u).node = some p := by
    intro u hu
    rcases node_after.mp hu with ⟨-, hu⟩ | h
    · cases hnode'.symm.trans hu
    · exact h
  refine known_of_node hG hL (p := p) hK hm.extends_ (fun b hb => ?_) (by rw [hmem]; rfl)
    (fun q hq => Option.some.inj (hq.symm.trans hnode)) (fun q hq => ?_) (fun q hq => ?_)
    hm.current.ge (fun q hq => ?_) (fun a ha => ?_)
    ((hK.tended p).step hm.extends_ hm.current.ge (fun h => ?_) (fun h => ?_)
      (fun _ => ⟨huse, fun i hi => ?_⟩) fun _ _ _ _ => hknown)
  · rw [List.mem_singleton.mp hb]
    exact hneeds
  · cases hnode'.symm.trans hq
  · change s'.mem.read q = _
    rw [hmem, Memory.read_write hn, if_neg hq]
  · change m.released q = _
    rw [hm.released, Function.update_of_ne hq]
  · cases hnode'.symm.trans (PC.node_of_needs ha)
  · obtain ⟨y, hy, hle⟩ := h.alive
    cases hy.symm.trans hn'
    refine ⟨hbefore hle h, List.forall_mem_singleton.mpr ?_⟩
    simp [Access.Conflicts, Access.reads, Access.writes, Access.updates]
  · cases hnode'.symm.trans h
  · rcases hi with hi | ⟨u, hu, hi⟩ | ⟨hq, hi, hall⟩
    · have hle : c.shared.2.released p ≤ m.released p := hreleased ▸ le_sup_left
      exact .inl (hle.1 hi)
    · by_cases hut : u = t
      · subst hut
        exact hknown i (hm.extends_.view.1 hi)
      · exact .inr (.inl ⟨u, node_after.mpr (.inr ⟨hut, hu⟩), (hm.extends_.view_le u).1 hi⟩)
    · refine .inr (.inr ⟨⟨⟨_, hn', hafter hq⟩, fun u hu => ?_⟩, hm.current.ge.1 hi, fun u hu => ?_⟩)
      · rw [after_of_ne (huser u hu).1]
        exact hq.unowned u (huser u hu).2
      · exact (hm.extends_.view_le u).1 (hall u (huser u hu).2)

theorem known_dying {s' : Shared Tid Addr A} {m : Knowledge Tid Addr} {order : MemoryOrder} {k : ℤ}
    (hnode : (c.pc t).node = some p) (hnode' : pc'.node = some p)
    (hown : pc'.owned = some (p.addr, .dying))
    (hneeds : .updates (p, .internalCount) ∈ (c.pc t).needs)
    (hm : Updated order p t [.updates (p, .internalCount)] c.shared.2 m)
    (hn : c.shared.1.mem.read p = some n)
    (hmem : s'.mem = c.shared.1.mem.write p { n with internalCount := k })
    (hself : ∀ a ∈ pc'.needs, m.Covers (knows m t pc') a) :
    Known (after c t ((s', m), pc')) := by
  refine known_of_node hG hL (p := p) hK hm.extends_ (fun b hb => ?_) (by rw [hmem]; rfl)
    (fun q hq => Option.some.inj (hq.symm.trans hnode))
    (fun q hq => Option.some.inj (hq.symm.trans hnode')) (fun q hq => ?_) hm.current.ge
    (fun q hq => ?_) hself (tended_of_own hnode' hown (by simp))
  · rw [List.mem_singleton.mp hb]
    exact hneeds
  · change s'.mem.read q = _
    rw [hmem, Memory.read_write hn, if_neg hq]
  · change m.released q = _
    rw [hm.released, Function.update_of_ne hq]

theorem known_addCount (hacquires : orders.add.acquires = true)
    (hreleases : orders.add.releases = true) (hpc : c.pc t = .addCount old p x) :
    ((program movedFrom orders).exec t o c.shared (c.pc t)).Sat fun r => Known (after c t r) := by
  obtain ⟨hr, -⟩ := (hL t).role_owned (a := p.addr) (k := .popped old.externalCount)
    (by rw [hpc]; rfl)
  have hnode : (c.pc t).node = some p := by rw [hpc]; rfl
  have hneeds : .updates (p, .internalCount) ∈ (c.pc t).needs := by rw [hpc]; simp [PC.needs]
  have hcov := hK.needs t _ hneeds
  obtain ⟨n, hn⟩ := node_alive hL hnode
  obtain ⟨hcard, hle⟩ : ((g.readers p.addr).card : ℤ) = old.externalCount - 2 + n.internalCount ∧
      n.internalCount ≤ 0 := by
    have hbal := hG.balance p n hn
    rwa [hr] at hbal
  have hnot : ¬ Linked c p := by
    intro h
    rw [h.role hG hL] at hr
    cases hr
  have huse : InUse c p := by
    refine ⟨⟨n, hn⟩, fun u a k hu ho => ?_⟩
    obtain ⟨q, hq, hqa⟩ := PC.exists_node ho
    cases hu.symm.trans hq
    subst hqa
    have hrole := ((hL u).owned _ _).mpr ho
    rw [hr] at hrole
    cases hrole
    exact ⟨_, rfl⟩
  rw [hpc] at hcov ⊢
  refine exec_update rfl (List.forall_mem_singleton.mpr hcov) fun m hm => ?_
  change (SplitRefCount.exec movedFrom t o.1 c.shared.1 (.addCount old p x)).Sat _
  simp only [SplitRefCount.exec, Memory.access_of_read hn]
  split
  · rename_i hlast
    have hempty : g.readers p.addr = ∅ := by
      have hzero : (g.readers p.addr).card = (0 : ℤ) := by omega
      simpa using hzero
    have hsole : ∀ u, (c.pc u).node = some p → u = t := by
      intro u hu
      rcases user_cases hL hu with h | ⟨k, h⟩
      · simp [hempty] at h
      · rw [hr] at h
        cases h
        rfl
    refine known_dying hG hL hK hnode rfl rfl hneeds hm hn rfl fun a ha => ?_
    have hall : ∀ f, m.Covers (m.view t) (.writes (p, f)) := fun f =>
      covers_last hK huse hnot hsole hm.extends_ le_rfl (hm.acquired hacquires)
    simp only [PC.needs, List.mem_cons, List.not_mem_nil, or_false] at ha
    rcases ha with rfl | rfl | rfl <;> exact hall _
  · rename_i hlast
    exact known_left hG hL hK hnode rfl hneeds hm hreleases huse hn rfl (fun hle _ => by omega)
      fun h => (hnot h).elim

theorem known_subCount (hreleases : orders.sub.releases = true) (hpc : c.pc t = .subCount old p) :
    ((program movedFrom orders).exec t o c.shared (c.pc t)).Sat fun r => Known (after c t r) := by
  have hnode : (c.pc t).node = some p := by rw [hpc]; rfl
  have howned : (c.pc t).owned = none := by rw [hpc]; rfl
  have hneeds : .updates (p, .internalCount) ∈ (c.pc t).needs := by rw [hpc]; simp [PC.needs]
  have hcov := hK.needs t _ hneeds
  have ht : t ∈ g.readers p.addr := ((hL t).counted _).mpr (by rw [hpc]; rfl)
  obtain ⟨n, hn⟩ := node_alive hL hnode
  have hrole := role_of_reader hG hn ht
  have hbal := hG.balance p n hn
  have huse : InUse c p := by
    refine ⟨⟨n, hn⟩, fun u a k hu ho => ?_⟩
    obtain ⟨q, hq, hqa⟩ := PC.exists_node ho
    cases hu.symm.trans hq
    subst hqa
    have hown := ((hL u).owned _ _).mpr ho
    rcases hrole with ⟨v, e, h⟩ | h | h
    all_goals
      rw [h] at hown
      cases hown
    exact ⟨e, rfl⟩
  rw [hpc] at hcov ⊢
  refine exec_update rfl (List.forall_mem_singleton.mpr hcov) fun m hm => ?_
  change (SplitRefCount.exec movedFrom t o.1 c.shared.1 (.subCount old p)).Sat _
  simp only [SplitRefCount.exec, Memory.access_of_read hn]
  split
  · rename_i hlast
    -- only the last user of a node whose counts are joined finds a one
    have hnot : ¬ Linked c p := by
      intro h
      obtain ⟨⟨k, hk, hle⟩, -⟩ := h
      cases hk.symm.trans hn
      omega
    have hretired : g.role p.addr = .retired := by
      rcases hrole with ⟨v, e, h⟩ | h | h
      · rw [h] at hbal
        exact absurd hbal.2 (by omega)
      · exact (hnot (linked_of_role hG hL hn h)).elim
      · exact h
    have hone : (g.readers p.addr).card = 1 := by
      rw [hretired] at hbal
      have h : ((g.readers p.addr).card : ℤ) = 1 := hbal.1.trans hlast
      exact_mod_cast h
    obtain ⟨y, hy⟩ := Finset.card_eq_one.mp hone
    have hsole : ∀ u, (c.pc u).node = some p → u = t := by
      intro u hu
      rcases user_cases hL hu with h | ⟨k, h⟩
      · rw [hy, Finset.mem_singleton] at h ht
        rw [h, ht]
      · rw [hretired] at h
        cases h
    refine known_dying hG hL hK hnode rfl rfl hneeds hm hn rfl fun a ha => ?_
    have hall : ∀ f, m.Covers (m.view t ⊔ m.pending t) (.writes (p, f)) := fun f =>
      covers_last hK huse hnot hsole hm.extends_ le_sup_left (hm.pending.trans le_sup_right)
    simp only [PC.needs, List.mem_cons, List.not_mem_nil, or_false] at ha
    rcases ha with rfl | rfl | rfl <;> exact hall _
  · rename_i hlast
    refine known_left hG hL hK hnode rfl hneeds hm hreleases huse hn rfl (fun hle h => ?_)
      fun h => ?_
    · refine ⟨⟨n, hn, by omega⟩, fun u hu => ?_⟩
      by_cases hut : u = t
      · subst hut
        exact howned
      · have := h.unowned u (node_after.mpr (.inr ⟨hut, hu⟩))
        rwa [after_of_ne hut] at this
    · obtain ⟨k, hk, hle⟩ := h.alive
      cases hk.symm.trans hn
      omega

theorem known_deleted {s' : Shared Tid Addr A} {m : Knowledge Tid Addr}
    (hnode : (c.pc t).node = some p) (hnode' : pc'.node = none)
    (hl : ∀ b ∈ l, b ∈ (c.pc t).needs) (hm : Silent t l c.shared.2 m)
    (hn : c.shared.1.mem.read p = some n) (hmem : s'.mem = c.shared.1.mem.free p) :
    Known (after c t ((s', m), pc')) := by
  refine known_of_node hG hL (p := p) hK hm.extends_ hl (by rw [hmem]; rfl)
    (fun q hq => Option.some.inj (hq.symm.trans hnode)) (fun q hq => ?_) (fun q hq => ?_)
    hm.current.ge (fun q _ => by rw [hm.released]) (fun a ha => ?_) (tended_of_dead ?_)
  · cases hnode'.symm.trans hq
  · change s'.mem.read q = _
    rw [hmem, Memory.read_free hn, if_neg hq]
  · cases hnode'.symm.trans (PC.node_of_needs ha)
  · change s'.mem.read p = none
    rw [hmem, Memory.read_free hn, if_pos rfl]

theorem known_deleteTaken (hpc : c.pc t = .deleteTaken p x) :
    ((program movedFrom orders).exec t o c.shared (c.pc t)).Sat fun r => Known (after c t r) := by
  have hnode : (c.pc t).node = some p := by rw [hpc]; rfl
  have hcov := hK.needs t
  obtain ⟨n, hn⟩ := node_alive hL hnode
  rw [hpc] at hcov ⊢
  refine exec_plain rfl hcov fun m hm => ?_
  change (c.shared.1.mem.access p _).Sat _
  rw [Memory.access_of_read hn]
  exact known_deleted hG hL hK hnode rfl (fun b hb => hpc ▸ hb) hm hn rfl

theorem known_deleteReleased (hpc : c.pc t = .deleteReleased old p) :
    ((program movedFrom orders).exec t o c.shared (c.pc t)).Sat fun r => Known (after c t r) := by
  have hnode : (c.pc t).node = some p := by rw [hpc]; rfl
  have hcov := hK.needs t
  obtain ⟨n, hn⟩ := node_alive hL hnode
  rw [hpc] at hcov ⊢
  refine exec_fence rfl hcov fun m hm => ?_
  change (c.shared.1.mem.access p _).Sat _
  rw [Memory.access_of_read hn]
  exact known_deleted hG hL hK hnode rfl (fun b hb => hpc ▸ hb) hm hn rfl

end Steps

omit hG hL in
theorem known_step (hacquires : orders.add.acquires = true) (hadd : orders.add.releases = true)
    (hsub : orders.sub.releases = true)
    (hc : Reach (program movedFrom orders).exec (· = start) c) (hK : Known c)
    (o : Oracle Addr A × ℕ) :
    ((program movedFrom orders).exec t o c.shared (c.pc t)).Sat fun r => Known (after c t r) := by
  obtain ⟨g, hG, hL⟩ := counts hc
  cases hpc : c.pc t with
  | idle => exact hpc ▸ known_idle hK hpc
  | newNode v => exact hpc ▸ known_newNode hL hK hpc
  | loadNext v p => exact hpc ▸ known_loadNext hG hL hK hpc
  | pushCas v p => exact hpc ▸ known_pushCas hG hL hK hpc
  | loadHead => exact hpc ▸ known_loadHead hK hpc
  | count old => exact hpc ▸ known_count hG hL hK hpc
  | readNext old p => exact hpc ▸ known_readNext hG hL hK hpc
  | unlink old p next => exact hpc ▸ known_unlink hG hL hK hpc
  | takeData old p => exact hpc ▸ known_takeData hG hL hK hpc
  | addCount old p v => exact hpc ▸ known_addCount hG hL hK hacquires hadd hpc
  | deleteTaken p v => exact hpc ▸ known_deleteTaken hG hL hK hpc
  | subCount old p => exact hpc ▸ known_subCount hG hL hK hsub hpc
  | deleteReleased old p => exact hpc ▸ known_deleteReleased hG hL hK hpc

omit hG hL in
theorem safe (hacquires : orders.add.acquires = true) (hadd : orders.add.releases = true)
    (hsub : orders.sub.releases = true)
    (hc : Reach (program movedFrom orders).exec (· = start) c) (o : Oracle Addr A × ℕ) :
    c.advance (program movedFrom orders).exec t o ≠ .fault := by
  have hK : Known c := by
    induction hc with
    | start h =>
        subst h
        exact ⟨List.forall_mem_nil _, fun u => List.forall_mem_nil _, fun p => tended_of_dead rfl⟩
    | step hc _ hd ih =>
        obtain ⟨r, hr, rfl⟩ := Outcome.map_eq_ok.mp hd
        exact (known_step hacquires hadd hsub hc ih _).of_ok hr
  exact (Config.advance_sat (P := Known) (known_step hacquires hadd hsub hc hK o)).ne_fault

end Ordered
end CsNotes.SplitRefCount
