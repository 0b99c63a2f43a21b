import CsNotes.HazardPointer.Steps

/-!
# Every step keeps the assertions

One lemma for each kind of step, one for each control point, and from them the
proof outline of the stacks.
-/
namespace CsNotes.HazardPointer
open Interleaving Storage History Segment

variable {N : ℕ} {Stack Tid Addr A : Type*} [DecidableEq Stack] [DecidableEq Tid]
variable {s s' : Shared N Stack Tid Addr A} {g g' : Ghost Stack Tid Addr A}
variable {t u : Tid} {pc pc' : PC Stack Addr A} {p : Ptr Addr} {n n' : Node Addr A}
variable {k : Stack} {v : A} {j : After Stack Addr A} {a : Addr} {r : Role Stack Tid}
variable {c : Config Tid (Shared N Stack Tid Addr A) (PC Stack Addr A)}

def Kept (c : Config Tid (Shared N Stack Tid Addr A) (PC Stack Addr A)) (t : Tid)
    (r : Shared N Stack Tid Addr A × PC Stack Addr A) : Prop :=
  ∃ g', Global r.1 g' ∧ Local r.1 g' t r.2 ∧ ∀ u, u ≠ t → Local r.1 g' u (c.pc u)

/-- No node changed, and the thread still holds the same ones. -/
theorem Local.of_same (h : Local s g t pc) (hm : s'.mem = s.mem) (ho : pc'.owned N = pc.owned N)
    (hr : pc'.rest = pc.rest) (hz : pc'.Hazardous → ∃ i, s'.hazard t = some i)
    (hf : pc'.Facts s' g t) : Local s' g t pc' :=
  ⟨fun a k => ho ▸ h.owned a k, h.chained, h.nodup, hm ▸ hr ▸ h.chain, hm ▸ hr ▸ h.alive, hz, hf⟩

theorem kept_of_local (hG : Global c.shared g) (hL : ∀ u, Local c.shared g u (c.pc u))
    (ho : pc'.owned N = (c.pc t).owned N) (hr : pc'.rest = (c.pc t).rest)
    (hz : pc'.Hazardous → ∃ i, c.shared.hazard t = some i) (hf : pc'.Facts c.shared g t) :
    Kept c t (c.shared, pc') :=
  ⟨g, hG, (hL t).of_same rfl ho hr hz hf, fun u _ => hL u⟩

/-- The step changed the slot of its thread, or took or gave it up. -/
theorem kept_of_slot (hG : Global c.shared g) (hL : ∀ u, Local c.shared g u (c.pc u)) {i : Fin N}
    {x : Slot Tid Addr} {hazard : Tid → Option (Fin N)}
    (hi : ∀ u, (c.shared.slots i).id = some u → u = t)
    (hi' : ∀ j, c.shared.hazard t = some j → j = i) (hx : ∀ u, x.id = some u → u = t)
    (hne : ∀ u, u ≠ t → hazard u = c.shared.hazard u)
    (ht : ∀ j, hazard t = some j ↔ j = i ∧ x.id = some t)
    (ho : pc'.owned N = (c.pc t).owned N) (hr : pc'.rest = (c.pc t).rest)
    (hz : pc'.Hazardous → ∃ i, hazard t = some i)
    (hf : pc'.Facts { c.shared with
      slots := Function.update c.shared.slots i x, hazard := hazard } g t) :
    Kept c t ({ c.shared with
      slots := Function.update c.shared.slots i x, hazard := hazard }, pc') := by
  have howner := hG.owner
  refine ⟨g, hG.of_slots fun u j => ?_, (hL t).of_same rfl ho hr hz hf,
    fun u hu => (hL u).frame (.of_same rfl (hne u hu) (fun j hj => ?_) (fun _ => rfl) fun _ => rfl)⟩
  · by_cases hu : u = t
    · subst hu
      rw [ht]
      by_cases hji : j = i
      · subst hji
        simp
      · rw [Function.update_of_ne hji, ← howner]
        exact ⟨fun h => (hji h.1).elim, fun h => (hji (hi' j h)).elim⟩
    · rw [hne u hu, howner]
      by_cases hji : j = i
      · subst hji
        rw [Function.update_self]
        exact ⟨fun h => (hu (hi u h)).elim, fun h => (hu (hx u h)).elim⟩
      · rw [Function.update_of_ne hji]
  · have hji : j ≠ i := by
      rintro rfl
      exact hu (hi u ((howner u _).mp hj))
    exact congrArg Slot.ptr (Function.update_of_ne hji _ _)

theorem kept_of_ptr (hG : Global c.shared g) (hL : ∀ u, Local c.shared g u (c.pc u)) {i : Fin N}
    {old : Option Addr} (hi : c.shared.hazard t = some i)
    (ho : pc'.owned N = (c.pc t).owned N) (hr : pc'.rest = (c.pc t).rest)
    (hf : pc'.Facts (c.shared.setSlot i { c.shared.slots i with ptr := old }) g t) :
    Kept c t (c.shared.setSlot i { c.shared.slots i with ptr := old }, pc') := by
  have hid := (hG.owner t i).mp hi
  have hself : ∀ u, (c.shared.slots i).id = some u → u = t := by
    intro u hu
    rw [hid] at hu
    exact (Option.some.inj hu).symm
  refine kept_of_slot hG hL hself (fun j hj => ?_) hself (fun _ _ => rfl) (fun j => ?_) ho hr
    (fun _ => ⟨i, hi⟩) hf
  · rw [hi] at hj
    exact (Option.some.inj hj).symm
  · simp [hi, hid, eq_comm]

variable [DecidableEq Addr]

/-- One node changed its stage, in the hands of the acting thread. -/
theorem Local.of_set (h : Local s g t pc) (hrole : g'.role = Function.update g.role a r)
    (hchain : g'.chain t = g.chain t) (hm : Memory.EqOff a s.mem s'.mem)
    (h₀ : g.role a ≠ .chained t) (h₁ : r ≠ .chained t) (hrest : pc'.rest = pc.rest)
    (hr : ∀ k, r = .own t k ↔ pc'.owned N = some (a, k))
    (ho : ∀ b k, b ≠ a → (pc.owned N = some (b, k) ↔ pc'.owned N = some (b, k)))
    (hz : pc'.Hazardous → ∃ i, s'.hazard t = some i) (hf : pc'.Facts s' g' t) :
    Local s' g' t pc' := by
  have hnot : a ∉ g.chain t := fun ha => h₀ ((h.chained a).mpr ha)
  refine ⟨fun b k => ?_, fun b => ?_, hchain ▸ h.nodup, ?_, fun p hp => ?_, hz, hf⟩
  · by_cases hb : b = a
    · subst hb
      simpa only [hrole, Function.update_self] using hr k
    · simpa only [hrole, Function.update_of_ne hb] using (h.owned b k).trans (ho b k hb)
  · rw [hchain]
    by_cases hb : b = a
    · subst hb
      simpa only [hrole, Function.update_self, h₁, false_iff] using hnot
    · simpa only [hrole, Function.update_of_ne hb] using h.chained b
  · rw [hrest, hchain]
    exact Seg.next_off h.chain hm hnot
  · rw [hrest] at hp
    obtain ⟨n, hn⟩ := h.alive p hp
    refine ⟨n, ?_⟩
    rw [hm.read ?_, hn]
    rintro rfl
    exact h₀ (h.role_rest hp)

/-- The step changed one node, which was free or in the hands of its thread. -/
theorem kept_of_set (hG : Global c.shared g) (hL : ∀ u, Local c.shared g u (c.pc u))
    {m : Memory Addr (Node Addr A)} (h₀ : g.role a = .free ∨ ∃ k, g.role a = .own t k)
    (h₁ : r = .free ∨ ∃ k, r = .own t k) (hm : Memory.EqOff a c.shared.mem m)
    (hf : r = .free ↔ m.cell a = none)
    (hg : ∀ u i p n, p.addr = a → c.shared.mem.read p = some n → Holds c.shared u i (some a) →
      (g.role a).Protected i → (∃ n', m.read p = some n') ∧ r.Protected i)
    (hrest : pc'.rest = (c.pc t).rest) (hr : ∀ k, r = .own t k ↔ pc'.owned N = some (a, k))
    (ho : ∀ b k, b ≠ a → ((c.pc t).owned N = some (b, k) ↔ pc'.owned N = some (b, k)))
    (hz : ¬ pc'.Hazardous) (hfacts : pc'.Facts { c.shared with mem := m } (g.set a r) t) :
    Kept c t ({ c.shared with mem := m }, pc') := by
  have hl₀ : (g.role a).Loose := by
    rcases h₀ with h | ⟨k, h⟩ <;> simp [h, Role.Loose]
  have hl₁ : r.Loose := by
    rcases h₁ with rfl | ⟨k, rfl⟩ <;> simp [Role.Loose]
  refine ⟨g.set a r, hG.of_set hl₀ hl₁ hm hf, (hL t).of_set rfl rfl hm ?_ ?_ hrest hr ho
    (fun h => (hz h).elim) hfacts, fun u hu => (hL u).frame (.of_set rfl rfl ?_ ?_ hm ?_ rfl rfl
    (fun _ => rfl) fun _ => rfl)⟩
  · rcases h₀ with h | ⟨k, h⟩ <;> simp [h]
  · rcases h₁ with rfl | ⟨k, rfl⟩ <;> simp
  · rcases h₀ with h | ⟨k, h⟩ <;> simp [h, Role.Of, hu.symm]
  · rcases h₁ with rfl | ⟨k, rfl⟩ <;> simp [Role.Of, hu.symm]
  · intro p n i hp hn hi hprot
    obtain ⟨⟨n', hn'⟩, hprot'⟩ := hg u i p n hp hn hi hprot
    exact ⟨n', hn', hprot', fun k hk => (hl₁.ne_linked hk).elim⟩

theorem kept_of_write (hG : Global c.shared g) (hL : ∀ u, Local c.shared g u (c.pc u))
    {k k' : Kind} (hn : c.shared.mem.read p = some n)
    (ho : (c.pc t).owned N = some (p.addr, k)) (ho' : pc'.owned N = some (p.addr, k'))
    (hk : ∀ i, (Role.own t k : Role Stack Tid).Protected i →
      (Role.own t k' : Role Stack Tid).Protected i)
    (hrest : pc'.rest = (c.pc t).rest) (hz : ¬ pc'.Hazardous)
    (hf : pc'.Facts { c.shared with mem := c.shared.mem.write p n' }
      (g.set p.addr (.own t k')) t) :
    Kept c t ({ c.shared with mem := c.shared.mem.write p n' }, pc') := by
  have hr := ((hL t).owned p.addr k).mpr ho
  refine kept_of_set hG hL (.inr ⟨k, hr⟩) (.inr ⟨k', rfl⟩) Memory.eqOff_write ?_
    (fun u i q l hq hl _ hprot => ?_) hrest (fun l => ?_) (fun b l hb => ?_) hz hf
  · simpa [Memory.cell_write_eq_none] using Memory.cell_ne_none_of_read hn
  · obtain rfl := Memory.ptr_eq_of_read hl hn hq
    exact ⟨⟨n', Memory.read_write_self hl⟩, hk i (hr ▸ hprot)⟩
  · simp [ho']
  · simp [ho, ho', hb.symm]

/-- The step only changed how far its thread has scanned for the node in hand. -/
theorem kept_of_scan (hG : Global c.shared g) (hL : ∀ u, Local c.shared g u (c.pc u))
    {k k' : Kind} (hn : c.shared.mem.read p = some n)
    (ho : (c.pc t).owned N = some (p.addr, k)) (ho' : pc'.owned N = some (p.addr, k'))
    (hk : ∀ u i, Holds c.shared u i (some p.addr) → (Role.own t k : Role Stack Tid).Protected i →
      (Role.own t k' : Role Stack Tid).Protected i)
    (hrest : pc'.rest = (c.pc t).rest) (hz : ¬ pc'.Hazardous)
    (hf : pc'.Facts c.shared (g.set p.addr (.own t k')) t) : Kept c t (c.shared, pc') := by
  have hr := ((hL t).owned p.addr k).mpr ho
  refine kept_of_set (m := c.shared.mem) hG hL (.inr ⟨k, hr⟩) (.inr ⟨k', rfl⟩) (.refl _ _) ?_
    (fun u i q l hq hl hi hprot => ⟨⟨l, hl⟩, hk u i hi (hr ▸ hprot)⟩) hrest (fun l => ?_)
    (fun b l hb => ?_) hz hf
  · simpa using Memory.cell_ne_none_of_read hn
  · simp [ho']
  · simp [ho, ho', hb.symm]

variable {movedFrom : A → A} {o : Oracle Stack Addr A}

theorem keep_idle (hG : Global c.shared g) (hL : ∀ u, Local c.shared g u (c.pc u))
    (hpc : c.pc t = .idle) : (exec movedFrom t o c.shared (c.pc t)).Sat (Kept c t) := by
  have hf := (hL t).facts
  rw [hpc] at hf ⊢
  simp only [exec]
  cases o.call with
  | push k v => exact kept_of_local hG hL (by rw [hpc]; rfl) (by rw [hpc]; rfl) False.elim hf
  | pop k => exact kept_of_local hG hL (by rw [hpc]; rfl) (by rw [hpc]; rfl) False.elim hf
  | exit =>
      simp only
      split
      · exact kept_of_local hG hL (by rw [hpc]) (by rw [hpc]) False.elim hf
      · rename_i hz
        exact kept_of_local hG hL (by rw [hpc]; rfl) (by rw [hpc]; rfl)
          (fun _ => Option.ne_none_iff_exists'.mp hz) hf

theorem keep_newNode (hG : Global c.shared g) (hL : ∀ u, Local c.shared g u (c.pc u))
    (hpc : c.pc t = .newNode k v) : (exec movedFrom t o c.shared (c.pc t)).Sat (Kept c t) := by
  have hf := (hL t).facts
  rw [hpc] at hf
  simp only [hpc, exec]
  split
  · rename_i ha
    have hfree := (hG.free _).mpr ha
    refine kept_of_set hG hL (.inl hfree) (.inr ⟨.fresh, rfl⟩) Memory.eqOff_alloc ?_
      (fun u i p n _ _ _ hp => by simp [hfree, Role.Protected] at hp) (by rw [hpc]; rfl)
      (fun k => by simp [PC.owned, eq_comm]) (fun b k hb => by simp [hpc, PC.owned, hb.symm]) id
      ⟨⟨_, Memory.read_alloc_fresh, rfl⟩, hf⟩
    simp [Memory.cell_alloc]
  · trivial

theorem keep_loadNext (hG : Global c.shared g) (hL : ∀ u, Local c.shared g u (c.pc u))
    (hpc : c.pc t = .loadNext k v p) : (exec movedFrom t o c.shared (c.pc t)).Sat (Kept c t) := by
  have hf := (hL t).facts
  rw [hpc] at hf ⊢
  exact kept_of_local hG hL (by rw [hpc]; rfl) (by rw [hpc]; rfl) False.elim hf

theorem keep_storeNext {h : Option Addr} (hG : Global c.shared g)
    (hL : ∀ u, Local c.shared g u (c.pc u)) (hpc : c.pc t = .storeNext k v p h) :
    (exec movedFrom t o c.shared (c.pc t)).Sat (Kept c t) := by
  have hf := (hL t).facts
  rw [hpc] at hf
  obtain ⟨⟨n, hn, hv⟩, ho⟩ := hf
  simp only [hpc, exec, Memory.access_of_read hn, Outcome.sat_ok]
  exact kept_of_write hG hL hn (by rw [hpc]; rfl) rfl (fun _ h => h) (by rw [hpc]; rfl) id
    ⟨⟨_, Memory.read_write_self hn, hv⟩, ho⟩

theorem keep_readExpected (hG : Global c.shared g) (hL : ∀ u, Local c.shared g u (c.pc u))
    (hpc : c.pc t = .readExpected k v p) :
    (exec movedFrom t o c.shared (c.pc t)).Sat (Kept c t) := by
  have hf := (hL t).facts
  rw [hpc] at hf
  obtain ⟨⟨n, hn, hv⟩, ho⟩ := hf
  simp only [hpc, exec, Memory.access_of_read hn, Outcome.sat_ok]
  exact kept_of_local hG hL (by rw [hpc]; rfl) (by rw [hpc]; rfl) False.elim ⟨⟨n, hn, hv, rfl⟩, ho⟩

theorem keep_pushCas {e : Option Addr} (hG : Global c.shared g)
    (hL : ∀ u, Local c.shared g u (c.pc u)) (hpc : c.pc t = .pushCas k v p e) :
    (exec movedFrom t o c.shared (c.pc t)).Sat (Kept c t) := by
  have hl := hL t
  rw [hpc] at hl
  obtain ⟨⟨n, hn, hv, he⟩, ho⟩ := hl.facts
  have hr : g.role p.addr = .own t .fresh := (hl.owned _ _).mpr rfl
  simp only [hpc, exec]
  split
  · rename_i hcas
    refine ⟨_, hG.push hr hn hv (he.trans hcas.1.symm), hl.of_set rfl rfl (.refl _ _) (by simp [hr])
      (by simp) rfl (fun k => by simp [PC.owned]) (fun b k hb => by simp [PC.owned, hb.symm])
      False.elim ho.log_push, fun u hu => (hL u).frame ?_⟩
    refine .of_set rfl rfl (by simp [hr, Role.Of, hu.symm]) (by simp [Role.Of]) (.refl _ _)
      (fun q l i _ _ _ hp => ?_) rfl rfl (answers_log_of_ne rfl) fun _ => rfl
    simp [hr, Role.Protected] at hp
  · exact kept_of_local hG hL (by rw [hpc]; rfl) (by rw [hpc]; rfl) False.elim ⟨⟨n, hn, hv⟩, ho⟩

theorem keep_loadHead (hG : Global c.shared g) (hL : ∀ u, Local c.shared g u (c.pc u))
    (hpc : c.pc t = .loadHead k) : (exec movedFrom t o c.shared (c.pc t)).Sat (Kept c t) := by
  have hf := (hL t).facts
  rw [hpc] at hf
  simp only [hpc, exec]
  split
  · rename_i hz
    exact kept_of_local hG hL (by rw [hpc]; rfl) (by rw [hpc]; rfl) False.elim ⟨hz, hf⟩
  · rename_i hz
    exact kept_of_local hG hL (by rw [hpc]; rfl) (by rw [hpc]; rfl)
      (fun _ => Option.ne_none_iff_exists'.mp hz) hf

theorem keep_acquire {old : Option Addr} {i : ℕ} (hG : Global c.shared g)
    (hL : ∀ u, Local c.shared g u (c.pc u)) (hpc : c.pc t = .acquire k old i) :
    (exec movedFrom t o c.shared (c.pc t)).Sat (Kept c t) := by
  have hf := (hL t).facts
  rw [hpc] at hf
  obtain ⟨hz, ho⟩ := hf
  simp only [hpc, exec]
  split
  · split
    · rename_i hi hid
      exact kept_of_slot hG hL (by simp [hid]) (by simp [hz]) (by simp)
        (fun u hu => Function.update_of_ne hu _ _) (by simp [eq_comm]) (by rw [hpc]; rfl)
        (by rw [hpc]; rfl) (fun _ => ⟨_, Function.update_self _ _ _⟩) ho
    · exact kept_of_local hG hL (by rw [hpc]; rfl) (by rw [hpc]; rfl) False.elim ⟨hz, ho⟩
  · exact kept_of_local hG hL (by rw [hpc]; rfl) (by rw [hpc]; rfl) False.elim ho

theorem keep_setHazard {old : Option Addr} (hG : Global c.shared g)
    (hL : ∀ u, Local c.shared g u (c.pc u)) (hpc : c.pc t = .setHazard k old) :
    (exec movedFrom t o c.shared (c.pc t)).Sat (Kept c t) := by
  have hf := (hL t).facts
  obtain ⟨i, hi⟩ := (hL t).hazard (by rw [hpc]; trivial)
  rw [hpc] at hf
  simp only [hpc, exec, Shared.own, hi, Outcome.sat_ok]
  refine kept_of_ptr hG hL hi (by rw [hpc]; rfl) (by rw [hpc]; rfl) ⟨⟨i, hi, ?_⟩, hf⟩
  simp [Shared.setSlot]

/-- The head is as it was before the hazard pointer was set, so the node is on
the stack while the hazard pointer is there. -/
theorem keep_reload {old : Option Addr} (hG : Global c.shared g)
    (hL : ∀ u, Local c.shared g u (c.pc u)) (hpc : c.pc t = .reload k old) :
    (exec movedFrom t o c.shared (c.pc t)).Sat (Kept c t) := by
  have hf := (hL t).facts
  rw [hpc] at hf
  obtain ⟨⟨i, hi⟩, ho⟩ := hf
  simp only [hpc, exec]
  split
  · rename_i hold
    subst hold
    refine follow_sat (hG.seg_next k) fun q hq hq' => ?_
    cases q with
    | none =>
        refine ⟨g, hG.poll hq.symm, (hL t).of_same rfl (by rw [hpc]; rfl) (by rw [hpc]; rfl)
          (fun _ => ⟨i, hi.1⟩) (ho.log (by simp [answers, Event.answer?])), fun u hu =>
          (hL u).frame (.of_same rfl rfl (fun _ _ => rfl) (answers_log_of_ne ?_) fun _ => rfl)⟩
        simp [answers, Event.answer?, hu.symm]
    | some p =>
        obtain ⟨n, hn⟩ := hq' p rfl
        obtain ⟨q, n', l, hqp, -, hl, -⟩ := hG.top hq.symm
        have hr : g.role p.addr = .linked k := (hG.linked k _).mpr (by simp [hl])
        refine kept_of_local hG hL (by rw [hpc]; rfl) (by rw [hpc]; rfl) False.elim
          ⟨⟨i, n, ?_, hn, by simp [hr, Role.Protected]⟩, ho⟩
        rwa [← hq] at hi
  · exact kept_of_local hG hL (by rw [hpc]; rfl) (by rw [hpc]; rfl) (fun _ => ⟨i, hi.1⟩) ho

theorem keep_readNext (hG : Global c.shared g) (hL : ∀ u, Local c.shared g u (c.pc u))
    (hpc : c.pc t = .readNext k p) : (exec movedFrom t o c.shared (c.pc t)).Sat (Kept c t) := by
  have hf := (hL t).facts
  rw [hpc] at hf
  obtain ⟨⟨i, n, hi, hn, hp⟩, ho⟩ := hf
  simp only [hpc, exec, Memory.access_of_read hn, Outcome.sat_ok]
  exact kept_of_local hG hL (by rw [hpc]; rfl) (by rw [hpc]; rfl) False.elim
    ⟨⟨i, n, hi, hn, hp, fun _ _ => rfl⟩, ho⟩

/-- If the head is still the protected node, the node has been on the stack all
the time, and its `next` is what was read. -/
theorem keep_popCas {next : Option Addr} (hG : Global c.shared g)
    (hL : ∀ u, Local c.shared g u (c.pc u)) (hpc : c.pc t = .popCas k p next) :
    (exec movedFrom t o c.shared (c.pc t)).Sat (Kept c t) := by
  have hl := hL t
  rw [hpc] at hl
  obtain ⟨⟨i, n, hi, hn, hp, hnext⟩, ho⟩ := hl.facts
  simp only [hpc, exec, hn, Option.map_some, Option.toList_some]
  split
  · rename_i htop
    obtain ⟨q, n', l, -, -, hstack, -⟩ := hG.top htop
    have hr : g.role p.addr = .linked k := (hG.linked k _).mpr (by simp [hstack])
    obtain rfl := hnext k hr
    obtain ⟨l, hG'⟩ := hG.unlink (t := t) hn htop
    refine ⟨_, hG', hl.of_set rfl rfl (.refl _ _) (by simp [hr]) (by simp) rfl
      (fun k => by simp [PC.owned, eq_comm]) (fun b k hb => by simp [PC.owned, hb.symm])
      (fun _ => ⟨i, hi.1⟩) ⟨n, hn, ho.log (by simp [answers, Event.answer?])⟩, fun u hu =>
      (hL u).frame (.of_set rfl rfl (by simp [hr, Role.Of]) (by simp [Role.Of, hu.symm]) (.refl _ _)
      (fun q l i _ hl _ _ => ⟨l, hl, by simp [Role.Protected], by simp⟩) rfl rfl
      (answers_log_of_ne ?_) fun _ => rfl)⟩
    simp [answers, Event.answer?, hu.symm]
  · exact kept_of_local hG hL (by rw [hpc]; rfl) (by rw [hpc]; rfl) (fun _ => ⟨i, hi.1⟩) ho

theorem keep_clear {q : Option (Ptr Addr)} (hG : Global c.shared g)
    (hL : ∀ u, Local c.shared g u (c.pc u)) (hpc : c.pc t = .clear k q) :
    (exec movedFrom t o c.shared (c.pc t)).Sat (Kept c t) := by
  have hf := (hL t).facts
  obtain ⟨i, hi⟩ := (hL t).hazard (by rw [hpc]; trivial)
  rw [hpc] at hf
  simp only [hpc, exec, Shared.own, hi, Outcome.sat_ok]
  cases q with
  | none => exact kept_of_ptr hG hL hi (by rw [hpc]; rfl) (by rw [hpc]; rfl) hf
  | some p => exact kept_of_ptr hG hL hi (by rw [hpc]; rfl) (by rw [hpc]; rfl) hf

theorem keep_takeData (hG : Global c.shared g) (hL : ∀ u, Local c.shared g u (c.pc u))
    (hpc : c.pc t = .takeData k p) : (exec movedFrom t o c.shared (c.pc t)).Sat (Kept c t) := by
  have hf := (hL t).facts
  rw [hpc] at hf
  obtain ⟨n, hn, ho⟩ := hf
  simp only [hpc, exec, Memory.access_of_read hn, Outcome.sat_ok]
  exact kept_of_write hG hL hn (by rw [hpc]; rfl) rfl (fun _ h => h) (by rw [hpc]; rfl) id
    ⟨⟨_, Memory.read_write_self hn⟩, Nat.zero_le _, ho⟩

/-- A slot which was passed does not hold the node, and one which holds it is
still ahead. -/
theorem keep_scan {i : ℕ} (hG : Global c.shared g) (hL : ∀ u, Local c.shared g u (c.pc u))
    (hpc : c.pc t = .scan p j i) : (exec movedFrom t o c.shared (c.pc t)).Sat (Kept c t) := by
  have hf := (hL t).facts
  rw [hpc] at hf
  obtain ⟨⟨n, hn⟩, hi, ho⟩ := hf
  simp only [hpc, exec]
  split
  · rename_i hlt
    split
    · exact kept_of_scan hG hL hn (by rw [hpc]; rfl) rfl (fun _ _ _ _ => Nat.zero_le _)
        (by rw [hpc]; rfl) id ⟨⟨n, hn⟩, ho⟩
    · rename_i hslot
      refine kept_of_scan hG hL hn (by rw [hpc]; rfl) rfl (fun u l hl hp => ?_)
        (by rw [hpc]; rfl) id ⟨⟨n, hn⟩, hlt, ho⟩
      refine Nat.lt_of_le_of_ne hp ?_
      rintro rfl
      exact hslot hl.2
  · obtain rfl : i = N := by omega
    exact kept_of_local hG hL (by rw [hpc]; rfl) (by rw [hpc]; rfl) False.elim ⟨⟨n, hn⟩, ho⟩

theorem keep_addLoad (hG : Global c.shared g) (hL : ∀ u, Local c.shared g u (c.pc u))
    (hpc : c.pc t = .addLoad p j) : (exec movedFrom t o c.shared (c.pc t)).Sat (Kept c t) := by
  have hf := (hL t).facts
  rw [hpc] at hf ⊢
  exact kept_of_local hG hL (by rw [hpc]; rfl) (by rw [hpc]; rfl) False.elim hf

theorem keep_addStore {h : Option Addr} (hG : Global c.shared g)
    (hL : ∀ u, Local c.shared g u (c.pc u)) (hpc : c.pc t = .addStore p j h) :
    (exec movedFrom t o c.shared (c.pc t)).Sat (Kept c t) := by
  have hf := (hL t).facts
  rw [hpc] at hf
  obtain ⟨⟨n, hn⟩, ho⟩ := hf
  simp only [hpc, exec, Memory.access_of_read hn, Outcome.sat_ok]
  exact kept_of_write hG hL hn (by rw [hpc]; rfl) rfl (fun _ h => h) (by rw [hpc]; rfl) id
    ⟨⟨_, Memory.read_write_self hn⟩, ho⟩

theorem keep_addRead (hG : Global c.shared g) (hL : ∀ u, Local c.shared g u (c.pc u))
    (hpc : c.pc t = .addRead p j) : (exec movedFrom t o c.shared (c.pc t)).Sat (Kept c t) := by
  have hf := (hL t).facts
  rw [hpc] at hf
  obtain ⟨⟨n, hn⟩, ho⟩ := hf
  simp only [hpc, exec, Memory.access_of_read hn, Outcome.sat_ok]
  exact kept_of_local hG hL (by rw [hpc]; rfl) (by rw [hpc]; rfl) False.elim ⟨⟨n, hn, rfl⟩, ho⟩

omit [DecidableEq Stack] [DecidableEq Tid] [DecidableEq Addr] in
theorem owned_pc : j.pc.owned N = none := by
  cases j <;> rfl

omit [DecidableEq Stack] [DecidableEq Tid] [DecidableEq Addr] in
theorem rest_pc : j.pc.rest = j.rest := by
  cases j <;> rfl

omit [DecidableEq Stack] [DecidableEq Tid] [DecidableEq Addr] in
theorem not_hazardous_pc : ¬ j.pc.Hazardous := by
  cases j <;> exact id

omit [DecidableEq Addr] in
theorem facts_pc (h : Owes s t (some j.result)) : j.pc.Facts s g t := by
  cases j <;> exact h

theorem keep_addCas {e : Option Addr} (hG : Global c.shared g)
    (hL : ∀ u, Local c.shared g u (c.pc u)) (hpc : c.pc t = .addCas p j e) :
    (exec movedFrom t o c.shared (c.pc t)).Sat (Kept c t) := by
  have hl := hL t
  rw [hpc] at hl
  obtain ⟨⟨n, hn, he⟩, ho⟩ := hl.facts
  have hr : g.role p.addr = .own t (.popped 0) := (hl.owned _ _).mpr rfl
  simp only [hpc, exec]
  split
  · rename_i hcas
    exact ⟨_, hG.add hr hn (he.trans hcas.1.symm), hl.of_set rfl rfl (.refl _ _) (by simp [hr])
      (by simp) rest_pc (fun k => by simp [owned_pc])
      (fun b k hb => by rw [owned_pc]; simp [PC.owned, hb.symm])
      (fun h => (not_hazardous_pc h).elim) (facts_pc ho), fun u hu => (hL u).frame (.of_set rfl rfl
      (by simp [hr, Role.Of, hu.symm]) (by simp [Role.Of]) (.refl _ _)
      (fun q l i _ hl _ _ => ⟨l, hl, trivial, by simp⟩) rfl rfl (fun _ => rfl) fun _ => rfl)⟩
  · exact kept_of_local hG hL (by rw [hpc]; rfl) (by rw [hpc]; rfl) False.elim ⟨⟨n, hn⟩, ho⟩

theorem keep_delete (hG : Global c.shared g) (hL : ∀ u, Local c.shared g u (c.pc u))
    (hpc : c.pc t = .delete p j) : (exec movedFrom t o c.shared (c.pc t)).Sat (Kept c t) := by
  have hl := hL t
  rw [hpc] at hl
  obtain ⟨⟨n, hn⟩, ho⟩ := hl.facts
  have hr : g.role p.addr = .own t (.popped N) := (hl.owned _ _).mpr rfl
  simp only [hpc, exec, Memory.access_of_read hn, Outcome.sat_ok]
  refine kept_of_set hG hL (.inr ⟨_, hr⟩) (.inl rfl) Memory.eqOff_free ?_
    (fun u i q l _ _ _ hp => ?_) (by rw [hpc]; exact rest_pc) (fun k => by simp [owned_pc])
    (fun b k hb => by rw [owned_pc, hpc]; simp [PC.owned, hb.symm]) not_hazardous_pc (facts_pc ho)
  · simp [Memory.cell_free]
  · rw [hr] at hp
    exact (Nat.not_le.mpr i.isLt hp).elim

omit [DecidableEq Addr] in
theorem Local.chain_nil (h : Local s g t pc) (hr : pc.rest = none) : g.chain t = [] := by
  have hseg := h.chain
  rw [hr] at hseg
  cases hc : g.chain t with
  | nil => rfl
  | cons a l =>
      rw [hc] at hseg
      obtain ⟨next, ⟨ha, -⟩, -⟩ := hseg
      simp at ha

theorem keep_exchange {r : Option A} (hG : Global c.shared g)
    (hL : ∀ u, Local c.shared g u (c.pc u)) (hpc : c.pc t = .exchange k r) :
    (exec movedFrom t o c.shared (c.pc t)).Sat (Kept c t) := by
  have hl := hL t
  rw [hpc] at hl
  have hnil := hl.chain_nil rfl
  simp only [hpc, exec]
  refine follow_sat hG.reclaim fun q hq hq' => ?_
  refine ⟨g.take t, hG.take, ⟨fun a k => ?_, fun a => ?_, ?_, ?_, hq', False.elim, hl.facts⟩,
    fun u hu => (hL u).frame (.take hu)⟩
  · rw [Ghost.role_take (by simp) (by simp)]
    exact hl.owned a k
  · have hnot : g.role a ≠ .chained t := by
      rw [Ne, hl.chained, hnil]
      simp
    rw [Ghost.chain_take, ← hG.listed]
    by_cases ha : g.role a = .listed <;> simp [Ghost.take, ha, hnot]
  · rw [Ghost.chain_take]
    exact hG.nodup_reclaim
  · rw [Ghost.chain_take]
    exact hq ▸ hG.reclaim

theorem keep_drain {curr : Option (Ptr Addr)} {r : Option A} (hG : Global c.shared g)
    (hL : ∀ u, Local c.shared g u (c.pc u)) (hpc : c.pc t = .drain curr k r) :
    (exec movedFrom t o c.shared (c.pc t)).Sat (Kept c t) := by
  have hl := hL t
  rw [hpc] at hl
  cases curr with
  | none =>
      simp only [hpc, exec, Outcome.sat_ok]
      have ho : Owes c.shared t (some (k, r)) := hl.facts
      exact ⟨g, ⟨hG.free, hG.linked, hG.listed, hG.nodup, hG.nodup_reclaim, hG.seg, hG.reclaim,
        hG.owner, hG.run⟩, hl.of_same rfl rfl rfl False.elim ho.answer, fun u hu =>
        (hL u).frame (.of_same rfl rfl (fun _ _ => rfl) (fun _ => rfl) (returned_answer_of_ne hu))⟩
  | some p =>
      obtain ⟨n, hn⟩ := hl.alive p rfl
      have hr : g.role p.addr = .chained t := hl.role_rest rfl
      have hchain : ∃ l, g.chain t = p.addr :: l ∧ Seg (Next c.shared.mem) (· = none) n.next l := by
        have hseg := hl.chain
        cases hc : g.chain t with
        | nil => simp [hc, PC.rest] at hseg
        | cons a l =>
            rw [hc] at hseg
            obtain ⟨next, ⟨ha, q, n', hq, hn', rfl⟩, hrest⟩ := hseg
            obtain rfl : p.addr = a := Option.some.inj ha
            obtain rfl := Memory.ptr_eq_of_read hn' hn hq
            obtain rfl := Option.some.inj (hn'.symm.trans hn)
            exact ⟨l, rfl, hrest⟩
      obtain ⟨l, hcons, hrest⟩ := hchain
      have hnd := hl.nodup
      rw [hcons, List.nodup_cons] at hnd
      simp only [hpc, exec, Memory.access_of_read hn]
      refine follow_sat hrest fun q hq hq' => ?_
      refine ⟨_, hG.pick (l := l) hr hn, ⟨fun b k => ?_, fun b => ?_, ?_, ?_, hq', False.elim,
        ⟨⟨n, hn⟩, Nat.zero_le _, hl.facts⟩⟩, fun u hu => (hL u).frame (.of_set rfl
        (Function.update_of_ne hu _ _) (by simp [hr, Role.Of, hu.symm]) (by simp [Role.Of, hu.symm])
        (.refl _ _) (fun q l i _ hl _ _ => ⟨l, hl, Nat.zero_le _, by simp⟩) rfl rfl (fun _ => rfl)
        fun _ => rfl)⟩
      · by_cases hb : b = p.addr
        · subst hb
          simp [Ghost.set, PC.owned, eq_comm]
        · simpa [Ghost.set, Function.update_of_ne hb, PC.owned, Ne.symm hb] using hl.owned b k
      · by_cases hb : b = p.addr
        · subst hb
          simpa [Ghost.set] using hnd.1
        · have := hl.chained b
          rw [hcons, List.mem_cons] at this
          simpa [Ghost.set, Function.update_of_ne hb, hb] using this
      · simpa using hnd.2
      · simpa [PC.rest, After.rest, hq] using hrest

theorem keep_clearPtr (hG : Global c.shared g) (hL : ∀ u, Local c.shared g u (c.pc u))
    (hpc : c.pc t = .clearPtr) : (exec movedFrom t o c.shared (c.pc t)).Sat (Kept c t) := by
  have hf := (hL t).facts
  obtain ⟨i, hi⟩ := (hL t).hazard (by rw [hpc]; trivial)
  rw [hpc] at hf
  simp only [hpc, exec, Shared.own, hi, Outcome.sat_ok]
  exact kept_of_ptr hG hL hi (by rw [hpc]; rfl) (by rw [hpc]; rfl) hf

theorem keep_clearId (hG : Global c.shared g) (hL : ∀ u, Local c.shared g u (c.pc u))
    (hpc : c.pc t = .clearId) : (exec movedFrom t o c.shared (c.pc t)).Sat (Kept c t) := by
  have hf := (hL t).facts
  obtain ⟨i, hi⟩ := (hL t).hazard (by rw [hpc]; trivial)
  rw [hpc] at hf
  have hid := (hG.owner t i).mp hi
  simp only [hpc, exec, Shared.own, hi, Outcome.sat_ok]
  exact kept_of_slot hG hL (by simp [hid, eq_comm]) (by simp [hi, eq_comm]) (by simp)
    (fun u hu => Function.update_of_ne hu _ _) (by simp) (by rw [hpc]; rfl) (by rw [hpc]; rfl)
    False.elim hf

theorem outline (movedFrom : A → A) :
    Outline (exec movedFrom) (fun _ _ _ => True) (· = start)
      (Global : Shared N Stack Tid Addr A → Ghost Stack Tid Addr A → Prop) Local where
  start := by
    rintro c rfl
    refine ⟨⟨fun _ => .free, fun _ => [], [], fun _ => []⟩, ?_, fun t => ?_⟩
    · exact ⟨by simp [start], by simp, by simp, by simp, by simp, fun _ => rfl, rfl,
        by simp [start], fun _ => .nil⟩
    · exact ⟨by simp [PC.owned, start], by simp, by simp, rfl, by simp [PC.rest, start], False.elim,
        fun _ => rfl⟩
  step := by
    intro c t o g _ _ hG hL
    cases hpc : c.pc t with
    | idle => exact hpc ▸ keep_idle hG hL hpc
    | newNode k v => exact hpc ▸ keep_newNode hG hL hpc
    | loadNext k v p => exact hpc ▸ keep_loadNext hG hL hpc
    | storeNext k v p h => exact hpc ▸ keep_storeNext hG hL hpc
    | readExpected k v p => exact hpc ▸ keep_readExpected hG hL hpc
    | pushCas k v p e => exact hpc ▸ keep_pushCas hG hL hpc
    | loadHead k => exact hpc ▸ keep_loadHead hG hL hpc
    | acquire k old i => exact hpc ▸ keep_acquire hG hL hpc
    | setHazard k old => exact hpc ▸ keep_setHazard hG hL hpc
    | reload k old => exact hpc ▸ keep_reload hG hL hpc
    | readNext k p => exact hpc ▸ keep_readNext hG hL hpc
    | popCas k p next => exact hpc ▸ keep_popCas hG hL hpc
    | clear k p => exact hpc ▸ keep_clear hG hL hpc
    | takeData k p => exact hpc ▸ keep_takeData hG hL hpc
    | scan p j i => exact hpc ▸ keep_scan hG hL hpc
    | addLoad p j => exact hpc ▸ keep_addLoad hG hL hpc
    | addStore p j h => exact hpc ▸ keep_addStore hG hL hpc
    | addRead p j => exact hpc ▸ keep_addRead hG hL hpc
    | addCas p j e => exact hpc ▸ keep_addCas hG hL hpc
    | delete p j => exact hpc ▸ keep_delete hG hL hpc
    | exchange k r => exact hpc ▸ keep_exchange hG hL hpc
    | drain curr k r => exact hpc ▸ keep_drain hG hL hpc
    | clearPtr => exact hpc ▸ keep_clearPtr hG hL hpc
    | clearId => exact hpc ▸ keep_clearId hG hL hpc

end CsNotes.HazardPointer
