import CsNotes.DoubleChecked.Model

/-!
# Double-checked locking is correct

What a thread has done before it unlocks the mutex is known to those that lock it
later, so that the second check reads the last store in `ptrInstance` whatever its order
is. A thread that passes by the mutex reads the one `Widget` that there is, and knows of
its constructor exactly if its load acquires what the store releases.
-/
namespace CsNotes.DoubleChecked
open Interleaving Races ReleaseAcquire

variable {Tid Addr : Type*} [DecidableEq Tid] [DecidableEq Addr]
variable {orders : Orders} {c : Run Tid Addr} {t u : Tid} {p q : Addr} {o : Addr × ℕ}
variable {s' : Shared Tid Addr} {m : Causality Tid (Option Addr) Addr Unit} {pc' : PC Addr}
variable {l : List (Access Addr)} {v w : View}

/-- Who holds the mutex knows the last store in `ptrInstance`. There is one `Widget` at most,
and who has a pointer to it knows of its constructor. -/
structure Invariant (c : Run Tid Addr) : Prop where
  mutex : ∀ t, (c.pc t).HoldsMutex ↔ c.shared.1.mutW = some t
  locked : ∀ t, c.shared.1.mutW = some t → c.shared.2.earlier.length ≤ (c.shared.2.view t).2 ∧
    ∀ p, c.shared.1.ptrInstance = some p → c.shared.2.Covers (c.shared.2.view t) (.reads p)
  unlocked : c.shared.1.mutW = none →
    c.shared.2.earlier.length ≤ (c.shared.2.released ()).2 ∧
      ∀ p, c.shared.1.ptrInstance = some p → c.shared.2.Covers (c.shared.2.released ()) (.reads p)
  earlier : ∀ x ∈ c.shared.2.earlier, x.1 = none
  published : ∀ p, c.shared.1.ptrInstance = some p →
    c.shared.1.widgets = [p] ∧ c.shared.2.Covers c.shared.2.current (.reads p)
  unpublished : c.shared.1.ptrInstance = none →
    c.shared.1.widgets = [] ∨ ∃ t p, c.pc t = .storeInstance p
  checked : ∀ t, c.pc t = .newWidget → c.shared.1.widgets = []
  storing : ∀ t p, c.pc t = .storeInstance p → c.shared.1.ptrInstance = none
  pointer : ∀ t p, (c.pc t).pointer = some p →
    c.shared.1.widgets = [p] ∧ c.shared.2.Covers (c.shared.2.view t) (.reads p)
  unused : ∀ x ∈ c.shared.2.log, x.2.loc ∈ c.shared.1.widgets
  returned : ∀ t, ∀ p ∈ c.shared.1.returned t, c.shared.1.widgets = [p]

abbrev after (c : Run Tid Addr) (t : Tid) (r : State Tid Addr × PC Addr) : Run Tid Addr :=
  ⟨r.1, Function.update c.pc t r.2⟩

omit [DecidableEq Addr] in
theorem after_cases {r : State Tid Addr × PC Addr} {P : PC Addr → Prop} (u : Tid)
    (h : P ((after c t r).pc u)) : u = t ∧ P r.2 ∨ u ≠ t ∧ P (c.pc u) := by
  by_cases hu : u = t
  · subst hu
    exact .inl ⟨rfl, by simpa only [Function.update_self] using h⟩
  · exact .inr ⟨hu, by simpa only [Function.update_of_ne hu] using h⟩

omit [DecidableEq Tid] [DecidableEq Addr] in
theorem Invariant.sole (h : Invariant c) (ht : (c.pc t).HoldsMutex) (hu : (c.pc u).HoldsMutex) :
    u = t :=
  Option.some.inj (((h.mutex u).mp hu).symm.trans ((h.mutex t).mp ht))

omit [DecidableEq Tid] [DecidableEq Addr] in
/-- Reads of a `Widget` do not change what is to be known to read it. -/
theorem covers_reads (e : c.shared.2.Extends t l m) (hl : ∀ a ∈ l, ∃ q, a = .reads q)
    (h : c.shared.2.Covers v (.reads p)) (hv : v ≤ w) : m.Covers w (.reads p) := by
  refine (h.extends e fun a ha hc => ?_).mono hv
  obtain ⟨q, rfl⟩ := hl a ha
  simp [Access.Conflicts, Access.reads] at hc

omit [DecidableEq Addr] in
theorem Invariant.quiet (h : Invariant c) (hm : Silent t l c.shared.2 m)
    (hl : ∀ a ∈ l, ∃ q, a = .reads q ∧ q ∈ c.shared.1.widgets)
    (hptr : s'.ptrInstance = c.shared.1.ptrInstance) (hmutW : s'.mutW = c.shared.1.mutW)
    (hwidgets : s'.widgets = c.shared.1.widgets)
    (hreturned : ∀ u, ∀ p ∈ s'.returned u, c.shared.1.widgets = [p])
    (hholds : pc'.HoldsMutex ↔ (c.pc t).HoldsMutex)
    (hstored : ∀ p, c.pc t ≠ .storeInstance p) (hstoring : ∀ p, pc' ≠ .storeInstance p)
    (hchecked : pc' = .newWidget → c.shared.1.widgets = [])
    (hpointer : ∀ p, pc'.pointer = some p →
      c.shared.1.widgets = [p] ∧ m.Covers (m.view t) (.reads p)) :
    Invariant (after c t ((s', m), pc')) := by
  have hreads : ∀ a ∈ l, ∃ q, a = .reads q := fun a ha => (hl a ha).imp fun q hq => hq.1
  have hview := hm.extends_.view_le
  have hmutex : ∀ u, ((after c t ((s', m), pc')).pc u).HoldsMutex ↔ (c.pc u).HoldsMutex := by
    intro u
    by_cases hu : u = t
    · subst hu
      simpa only [Function.update_self] using hholds
    · simp only [Function.update_of_ne hu]
  refine ⟨fun u => ?_, fun u hu => ?_, fun hu => ?_, ?_, fun p hp => ?_, fun hp => ?_,
    fun u hu => ?_, fun u p hu => ?_, fun u p hu => ?_, fun x hx => ?_, fun u p hp => ?_⟩
  · rw [hmutex, h.mutex]
    exact hmutW ▸ Iff.rfl
  · obtain ⟨hlast, hknows⟩ := h.locked u (hmutW ▸ hu)
    exact ⟨hm.earlier ▸ hlast.trans (hview u).2, fun p hp =>
      covers_reads hm.extends_ hreads (hknows p (hptr ▸ hp)) (hview u)⟩
  · obtain ⟨hlast, hknows⟩ := h.unlocked (hmutW ▸ hu)
    refine ⟨?_, fun p hp => ?_⟩
    · rw [hm.earlier, hm.released]
      exact hlast
    · exact covers_reads hm.extends_ hreads (hknows p (hptr ▸ hp)) (by rw [hm.released])
  · rw [hm.earlier]
    exact h.earlier
  · obtain ⟨hw, hknows⟩ := h.published p (hptr ▸ hp)
    exact ⟨hwidgets.trans hw, covers_reads hm.extends_ hreads hknows hm.current.ge⟩
  · refine (h.unpublished (hptr ▸ hp)).imp hwidgets.trans fun ⟨u, q, hu⟩ => ⟨u, q, ?_⟩
    have hut : u ≠ t := fun hut => hstored q (hut ▸ hu)
    exact (Function.update_of_ne hut _ _).trans hu
  · rcases after_cases (P := (· = .newWidget)) u hu with ⟨-, hu⟩ | ⟨-, hu⟩
    · exact hwidgets.trans (hchecked hu)
    · exact hwidgets.trans (h.checked u hu)
  · rcases after_cases (P := (· = .storeInstance p)) u hu with ⟨-, hu⟩ | ⟨-, hu⟩
    · exact (hstoring p hu).elim
    · exact hptr.trans (h.storing u p hu)
  · rcases after_cases (P := (·.pointer = some p)) u hu with ⟨rfl, hself⟩ | ⟨-, hu⟩
    · exact (hpointer p hself).imp_left hwidgets.trans
    · obtain ⟨hw, hknows⟩ := h.pointer u p hu
      exact ⟨hwidgets.trans hw, covers_reads hm.extends_ hreads hknows (hview u)⟩
  · have hx : x ∈ m.log := hx
    rw [hm.extends_.log] at hx
    change _ ∈ s'.widgets
    rw [hwidgets]
    rcases List.mem_append.mp hx with hx | hx
    · exact h.unused x hx
    · obtain ⟨a, ha, rfl⟩ := List.mem_map.mp hx
      obtain ⟨q, rfl, hq⟩ := hl a ha
      exact hq
  · exact hwidgets.trans (hreturned u p hp)

section Steps
variable (h : Invariant c)
include h

theorem step_idle (hpc : c.pc t = .idle) :
    ((program Tid Addr orders).exec t o c.shared (c.pc t)).Sat fun r =>
      Invariant (after c t r) := by
  rw [hpc]
  refine exec_plain rfl (List.forall_mem_nil _) fun m hm => ?_
  refine h.quiet hm (List.forall_mem_nil _) rfl rfl rfl h.returned ?_ ?_ ?_ ?_ ?_
  all_goals simp [hpc, PC.HoldsMutex, PC.pointer]

theorem step_use (hpc : c.pc t = .use p) :
    ((program Tid Addr orders).exec t o c.shared (c.pc t)).Sat fun r =>
      Invariant (after c t r) := by
  obtain ⟨hw, hknows⟩ := h.pointer t p (by rw [hpc]; rfl)
  rw [hpc]
  refine exec_plain rfl (List.forall_mem_singleton.mpr hknows) fun m hm => ?_
  refine h.quiet hm ?_ rfl rfl rfl h.returned ?_ ?_ ?_ ?_ ?_
  · exact List.forall_mem_singleton.mpr ⟨p, rfl, by simp [hw]⟩
  all_goals simp [hpc, PC.HoldsMutex, PC.pointer]

omit [DecidableEq Addr] h in
theorem returned_answer (hr : ∀ t, ∀ q ∈ c.shared.1.returned t, c.shared.1.widgets = [q])
    (hw : c.shared.1.widgets = [p]) (u : Tid) :
    ∀ q ∈ (c.shared.1.answer t p).returned u, c.shared.1.widgets = [q] := by
  intro q hq
  change q ∈ Function.update c.shared.1.returned t (c.shared.1.returned t ++ [p]) u at hq
  by_cases hu : u = t
  · subst hu
    rw [Function.update_self] at hq
    rcases List.mem_append.mp hq with hq | hq
    · exact hr u q hq
    · rw [List.mem_singleton.mp hq]
      exact hw
  · rw [Function.update_of_ne hu] at hq
    exact hr u q hq

/-- The first check: a pointer that is not null is the last one stored. -/
theorem step_firstLoad (hfirst : orders.first.acquires = true) (hpc : c.pc t = .firstLoad) :
    ((program Tid Addr orders).exec t o c.shared (c.pc t)).Sat fun r =>
      Invariant (after c t r) := by
  rw [hpc]
  refine exec_load rfl (List.forall_mem_nil _) fun v w m hv hm => Outcome.sat_map.mpr ?_
  cases v with
  | none =>
      refine h.quiet hm.toSilent (List.forall_mem_nil _) rfl rfl rfl h.returned ?_ ?_ ?_ ?_ ?_
      all_goals simp [hpc, PC.HoldsMutex, PC.pointer]
  | some p =>
      rcases List.mem_append.mp hv with hv | hv
      · cases h.earlier _ hv
      · obtain ⟨hp, rfl⟩ := Prod.mk.inj (List.mem_singleton.mp hv)
        obtain ⟨hw, hknows⟩ := h.published p hp.symm
        refine h.quiet hm.toSilent (List.forall_mem_nil _) rfl rfl rfl
          (returned_answer h.returned hw) ?_ ?_ ?_ ?_ fun q hq => ?_
        · simp [hpc, PC.HoldsMutex]
        · simp [hpc]
        · simp
        · simp
        · cases hq
          exact ⟨hw, covers_reads hm.extends_ (List.forall_mem_nil _) hknows (hm.acquired hfirst)⟩

theorem step_secondLoad (hpc : c.pc t = .secondLoad) :
    ((program Tid Addr orders).exec t o c.shared (c.pc t)).Sat fun r =>
      Invariant (after c t r) := by
  have hholds : (c.pc t).HoldsMutex := by
    rw [hpc]
    trivial
  obtain ⟨hlast, hknows⟩ := h.locked t ((h.mutex t).mp hholds)
  rw [hpc]
  refine exec_load_at rfl (List.forall_mem_nil _) fun i v w m hi hle hm => Outcome.sat_map.mpr ?_
  have hv : v = c.shared.1.ptrInstance := by
    unfold Causality.messages at hi
    rw [List.getElem?_append_right (hlast.trans hle)] at hi
    exact (Prod.mk.inj (List.mem_singleton.mp (List.mem_of_getElem? hi))).1
  cases v with
  | none =>
      have hfresh : c.shared.1.widgets = [] := by
        rcases h.unpublished hv.symm with hw | ⟨u, q, hu⟩
        · exact hw
        · have hut : u = t := h.sole hholds (by rw [hu]; trivial)
          rw [hut, hpc] at hu
          cases hu
      refine h.quiet hm.toSilent (List.forall_mem_nil _) rfl rfl rfl h.returned ?_ ?_ ?_ ?_ ?_
      · simp [hpc, PC.HoldsMutex]
      · simp [hpc]
      · simp
      · exact fun _ => hfresh
      · simp [PC.pointer]
  | some p =>
      obtain ⟨hw, -⟩ := h.published p hv.symm
      refine h.quiet hm.toSilent (List.forall_mem_nil _) rfl rfl rfl h.returned ?_ ?_ ?_ ?_
        fun q hq => ?_
      · simp [hpc, PC.HoldsMutex]
      · simp [hpc]
      · simp
      · simp
      · cases hq
        exact ⟨hw, covers_reads hm.extends_ (List.forall_mem_nil _) (hknows p hv.symm)
          hm.extends_.view⟩

theorem step_lock (hpc : c.pc t = .lock) :
    ((program Tid Addr orders).exec t o c.shared (c.pc t)).Sat fun r =>
      Invariant (after c t r) := by
  rw [hpc]
  refine exec_update rfl (List.forall_mem_nil _) fun m hm => ?_
  change (if c.shared.1.mutW = none then Outcome.ok (({ c.shared.1 with mutW := some t } :
    Shared Tid Addr), PC.secondLoad) else .wait).Sat _
  split
  · rename_i hfree
    obtain ⟨hlast, hknows⟩ := h.unlocked hfree
    have hkeep : ∀ {v w p}, c.shared.2.Covers v (.reads p) → v ≤ w → m.Covers w (.reads p) :=
      fun hv hw => covers_reads hm.extends_ (List.forall_mem_nil _) hv hw
    have hnone : ∀ u, ¬ (c.pc u).HoldsMutex := by
      intro u hu
      cases hfree.symm.trans ((h.mutex u).mp hu)
    refine ⟨fun u => ?_, fun u hu => ?_, fun hu => ?_, ?_, fun p hp => ?_, fun hp => ?_,
      fun u hu => ?_, fun u p hu => ?_, fun u p hu => ?_, fun x hx => ?_, h.returned⟩
    · by_cases hu : u = t
      · subst hu
        simp [PC.HoldsMutex]
      · simp only [Function.update_of_ne hu, hnone u, Option.some.injEq, false_iff]
        exact fun htu => hu htu.symm
    · obtain rfl := Option.some.inj hu
      refine ⟨?_, fun p hp => hkeep (hknows p hp) (hm.acquired rfl)⟩
      rw [hm.earlier]
      exact hlast.trans (hm.acquired rfl).2
    · cases hu
    · rw [hm.earlier]
      exact h.earlier
    · exact (h.published p hp).imp_right fun hv => hkeep hv hm.current.ge
    · refine (h.unpublished hp).imp_right fun ⟨u, q, hu⟩ => ?_
      exact (hnone u (by rw [hu]; trivial)).elim
    · rcases after_cases (P := (· = .newWidget)) u hu with ⟨-, hu⟩ | ⟨-, hu⟩
      · cases hu
      · exact h.checked u hu
    · rcases after_cases (P := (· = .storeInstance p)) u hu with ⟨-, hu⟩ | ⟨-, hu⟩
      · cases hu
      · exact h.storing u p hu
    · rcases after_cases (P := (·.pointer = some p)) u hu with ⟨-, hu⟩ | ⟨-, hu⟩
      · cases hu
      · exact (h.pointer u p hu).imp_right fun hv => hkeep hv (hm.extends_.view_le u)
    · have hlog : m.log = c.shared.2.log := hm.extends_.log.trans (List.append_nil _)
      exact h.unused x (hlog ▸ hx)
  · trivial

theorem step_newWidget (hpc : c.pc t = .newWidget) :
    ((program Tid Addr orders).exec t o c.shared (c.pc t)).Sat fun r =>
      Invariant (after c t r) := by
  have hnil := h.checked t hpc
  have hholds : (c.pc t).HoldsMutex := by
    rw [hpc]
    trivial
  have hlog : ∀ x, x ∉ c.shared.2.log := by
    intro x hx
    have hloc := h.unused x hx
    rw [hnil] at hloc
    cases hloc
  have hcov : ∀ {v a}, c.shared.2.Covers v a :=
    fun i x hx _ => (hlog x (List.mem_of_getElem? hx)).elim
  have hpointer : ∀ u p, (c.pc u).pointer ≠ some p := by
    intro u p hu
    cases hnil.symm.trans (h.pointer u p hu).1
  have hptr : c.shared.1.ptrInstance = none := by
    cases hp : c.shared.1.ptrInstance with
    | none => rfl
    | some p => cases hnil.symm.trans (h.published p hp).1
  have haccesses : accesses o.1 c.shared.1 (.newWidget) = [.writes o.1] := by
    unfold accesses
    simp [hnil]
  rw [hpc]
  refine exec_plain rfl (fun a _ => hcov) fun m hm => ?_
  change (if o.1 ∈ c.shared.1.widgets then Outcome.wait else .ok (({ c.shared.1 with
    widgets := c.shared.1.widgets ++ [o.1] } : Shared Tid Addr), PC.storeInstance o.1)).Sat _
  rw [hnil, if_neg List.not_mem_nil]
  have hm : Silent t [.writes o.1] c.shared.2 m := haccesses ▸ hm
  obtain ⟨hlast, -⟩ := h.locked t ((h.mutex t).mp hholds)
  refine ⟨fun u => ?_, fun u hu => ⟨?_, fun p hp => ?_⟩, fun hu => ?_, ?_, fun p hp => ?_,
    fun _ => .inr ⟨t, o.1, Function.update_self ..⟩, fun u hu => ?_, fun u p hu => hptr,
    fun u p hu => ?_, fun x hx => ?_, fun u p hp => ?_⟩
  · by_cases hu : u = t
    · subst hu
      simpa [hpc, PC.HoldsMutex] using h.mutex u
    · simpa only [Function.update_of_ne hu] using h.mutex u
  · rw [hm.earlier]
    exact (h.locked u hu).1.trans (hm.extends_.view_le u).2
  · cases hptr.symm.trans hp
  · cases ((h.mutex t).mp hholds).symm.trans hu
  · rw [hm.earlier]
    exact h.earlier
  · cases hptr.symm.trans hp
  · rcases after_cases (P := (· = .newWidget)) u hu with ⟨-, hu⟩ | ⟨hut, hu⟩
    · cases hu
    · exact (hut (h.sole hholds (by rw [hu]; trivial))).elim
  · rcases after_cases (P := (·.pointer = some p)) u hu with ⟨rfl, hself⟩ | ⟨-, hu⟩
    · cases hself
      have hown : m.Covers (m.view u) (.writes o.1) := Causality.Covers.own hcov hm.extends_
      exact ⟨rfl, hown.reads⟩
    · exact (hpointer u p hu).elim
  · have hx : x ∈ m.log := hx
    rw [hm.extends_.log] at hx
    rcases List.mem_append.mp hx with hx | hx
    · exact (hlog x hx).elim
    · rw [List.mem_singleton.mp hx]
      exact List.mem_singleton_self _
  · cases hnil.symm.trans (h.returned u p hp)

theorem step_storeInstance (hthird : orders.third.releases = true)
    (hpc : c.pc t = .storeInstance p) :
    ((program Tid Addr orders).exec t o c.shared (c.pc t)).Sat fun r =>
      Invariant (after c t r) := by
  have hholds : (c.pc t).HoldsMutex := by
    rw [hpc]
    trivial
  have hmutW := (h.mutex t).mp hholds
  have hptr := h.storing t p hpc
  obtain ⟨hw, hknows⟩ := h.pointer t p (by rw [hpc]; rfl)
  rw [hpc]
  refine exec_store rfl (List.forall_mem_nil _) fun m hm => ?_
  have hkeep : ∀ {v w q}, c.shared.2.Covers v (.reads q) → v ≤ w → m.Covers w (.reads q) :=
    fun hv hw => covers_reads hm.extends_ (List.forall_mem_nil _) hv hw
  have hcurrent : m.current = m.view t := by
    rw [hm.current, if_pos hthird, bot_sup_eq]
  have hknown := hkeep hknows hm.extends_.view
  refine ⟨fun u => ?_, fun u hu => ?_, fun hu => ?_, fun x hx => ?_, fun q hq => ?_,
    fun hq => ?_, fun u hu => ?_, fun u q hu => ?_, fun u q hu => ?_, fun x hx => ?_, h.returned⟩
  · by_cases hu : u = t
    · subst hu
      simpa [hpc, PC.HoldsMutex] using h.mutex u
    · simpa only [Function.update_of_ne hu] using h.mutex u
  · obtain rfl := Option.some.inj (hmutW.symm.trans hu)
    refine ⟨hm.last, fun q hq => ?_⟩
    cases hq
    exact hknown
  · cases hmutW.symm.trans hu
  · have hx : x ∈ m.earlier := hx
    rw [hm.earlier] at hx
    rcases List.mem_append.mp hx with hx | hx
    · exact h.earlier x hx
    · rw [List.mem_singleton.mp hx]
      exact hptr
  · cases hq
    refine ⟨hw, ?_⟩
    change m.Covers m.current _
    rw [hcurrent]
    exact hknown
  · cases hq
  · rcases after_cases (P := (· = .newWidget)) u hu with ⟨-, hu⟩ | ⟨-, hu⟩
    · cases hu
    · cases hw.symm.trans (h.checked u hu)
  · rcases after_cases (P := (· = .storeInstance q)) u hu with ⟨-, hu⟩ | ⟨hut, hu⟩
    · cases hu
    · exact (hut (h.sole hholds (by rw [hu]; trivial))).elim
  · rcases after_cases (P := (·.pointer = some q)) u hu with ⟨rfl, hself⟩ | ⟨-, hu⟩
    · cases hself
      exact ⟨hw, hknown⟩
    · exact (h.pointer u q hu).imp_right fun hv => hkeep hv (hm.extends_.view_le u)
  · have hlog : m.log = c.shared.2.log := hm.extends_.log.trans (List.append_nil _)
    exact h.unused x (hlog ▸ hx)

theorem step_unlock (hpc : c.pc t = .unlock p) :
    ((program Tid Addr orders).exec t o c.shared (c.pc t)).Sat fun r =>
      Invariant (after c t r) := by
  have hholds : (c.pc t).HoldsMutex := by
    rw [hpc]
    trivial
  have hmutW := (h.mutex t).mp hholds
  obtain ⟨hlast, hlocked⟩ := h.locked t hmutW
  obtain ⟨hw, hknows⟩ := h.pointer t p (by rw [hpc]; rfl)
  rw [hpc]
  refine exec_update rfl (List.forall_mem_nil _) fun m hm => ?_
  have hkeep : ∀ {v w q}, c.shared.2.Covers v (.reads q) → v ≤ w → m.Covers w (.reads q) :=
    fun hv hw => covers_reads hm.extends_ (List.forall_mem_nil _) hv hw
  have hreleased : c.shared.2.view t ≤ m.released () := by
    have hreleases : MemoryOrder.release.releases = true := rfl
    rw [hm.released, Function.update_self, if_pos hreleases]
    exact hm.extends_.view.trans le_sup_right
  refine ⟨fun u => ?_, fun u hu => ?_, fun _ => ⟨?_, fun q hq => ?_⟩, ?_, fun q hq => ?_,
    fun hq => ?_, fun u hu => ?_, fun u q hu => ?_, fun u q hu => ?_, fun x hx => ?_,
    returned_answer h.returned hw⟩
  · by_cases hu : u = t
    · subst hu
      simp [PC.HoldsMutex]
    · simp only [Function.update_of_ne hu]
      refine ⟨fun hh => (hu (h.sole hholds hh)).elim, fun hh => ?_⟩
      cases hh
  · cases hu
  · rw [hm.earlier]
    exact hlast.trans hreleased.2
  · exact hkeep (hlocked q hq) hreleased
  · rw [hm.earlier]
    exact h.earlier
  · exact (h.published q hq).imp_right fun hv => hkeep hv hm.current.ge
  · refine (h.unpublished hq).imp_right fun ⟨u, r, hu⟩ => ⟨u, r, ?_⟩
    have hut : u ≠ t := by
      rintro rfl
      cases hpc.symm.trans hu
    exact (Function.update_of_ne hut _ _).trans hu
  · rcases after_cases (P := (· = .newWidget)) u hu with ⟨-, hu⟩ | ⟨-, hu⟩
    · cases hu
    · exact h.checked u hu
  · rcases after_cases (P := (· = .storeInstance q)) u hu with ⟨-, hu⟩ | ⟨-, hu⟩
    · cases hu
    · exact h.storing u q hu
  · rcases after_cases (P := (·.pointer = some q)) u hu with ⟨rfl, hself⟩ | ⟨-, hu⟩
    · cases hself
      exact ⟨hw, hkeep hknows hm.extends_.view⟩
    · exact (h.pointer u q hu).imp_right fun hv => hkeep hv (hm.extends_.view_le u)
  · have hlog : m.log = c.shared.2.log := hm.extends_.log.trans (List.append_nil _)
    exact h.unused x (hlog ▸ hx)

theorem step (hfirst : orders.first.acquires = true) (hthird : orders.third.releases = true) :
    ((program Tid Addr orders).exec t o c.shared (c.pc t)).Sat fun r =>
      Invariant (after c t r) := by
  cases hpc : c.pc t with
  | idle => exact hpc ▸ step_idle h hpc
  | firstLoad => exact hpc ▸ step_firstLoad h hfirst hpc
  | lock => exact hpc ▸ step_lock h hpc
  | secondLoad => exact hpc ▸ step_secondLoad h hpc
  | newWidget => exact hpc ▸ step_newWidget h hpc
  | storeInstance p => exact hpc ▸ step_storeInstance h hthird hpc
  | unlock p => exact hpc ▸ step_unlock h hpc
  | use p => exact hpc ▸ step_use h hpc

end Steps

omit [DecidableEq Tid] [DecidableEq Addr] in
theorem invariant_start : Invariant (start : Run Tid Addr) := by
  constructor
  all_goals simp [start, Causality.start, PC.HoldsMutex, PC.pointer]

theorem invariant (hfirst : orders.first.acquires = true) (hthird : orders.third.releases = true)
    (hc : Reach (program Tid Addr orders).exec (· = start) c) : Invariant c := by
  induction hc with
  | start h =>
      subst h
      exact invariant_start
  | step _ _ hd ih =>
      obtain ⟨r, hr, rfl⟩ := Outcome.map_eq_ok.mp hd
      exact (step ih hfirst hthird).of_ok hr

theorem lawful (orders : Orders) : (program Tid Addr orders).Lawful where
  withValue_value _ := rfl
  loads := by
    intro t o s pc order r hv h
    cases pc with
    | firstLoad | secondLoad =>
        simp only [program, exec] at h
        split at h <;> cases h <;> rfl
    | _ => rcases hv with hv | ⟨⟨_, hv⟩, -⟩ <;> cases hv

section Races
variable {s : Shared Tid Addr} {a : Addr} {pc k : PC Addr}
variable (hsafe : ∀ c : Run Tid Addr, Reach (program Tid Addr orders).exec (· = start) c →
  ∀ t o, c.advance (program Tid Addr orders).exec t o ≠ .fault)
variable (htu : t ≠ u)
include hsafe htu

theorem two_step (h : Two (program Tid Addr orders) (· = start) t u s pc k c)
    (hcode : exec t a s pc = .ok (s', pc')) :
    ∃ d, Two (program Tid Addr orders) (· = start) t u s' pc' k d ∧
      Follows (program Tid Addr orders) t a s pc c.shared.2 d.shared.2 :=
  Two.step (lawful orders) (bounded_of_eq rfl) hsafe htu h hcode

/-- A thread that has not taken the mutex learns of a `Widget` only by its load. -/
theorem first_acquires_third_releases [Nonempty Addr] :
    orders.first.acquires = true ∧ orders.third.releases = true := by
  by_contra hnot
  have hnot : orders.first.acquires = false ∨ orders.third.releases = false := by
    simpa [imp_iff_not_or] using hnot
  obtain ⟨a⟩ := ‹Nonempty Addr›
  let s₀ : Shared Tid Addr := ⟨none, none, [], fun _ => []⟩
  let c₀ : Run Tid Addr := start
  have h₀ : Two (program Tid Addr orders) (· = start) t u s₀ .idle .idle c₀ :=
    ⟨.start rfl, rfl, rfl, rfl⟩
  let s₁ : Shared Tid Addr := { s₀ with mutW := some t }
  have hchecks : Steps exec t s₀ .idle s₁ .newWidget :=
    .step (o := a) rfl (.step (o := a) rfl (.step (o := a) rfl (.step (o := a) rfl .refl)))
  obtain ⟨c₁, h₁⟩ := Two.steps (lawful orders) (bounded_of_eq rfl) hsafe htu h₀ hchecks
  have hnew : exec t a s₁ .newWidget = .ok ({ s₁ with widgets := [a] }, .storeInstance a) := by
    have hnil : a ∉ s₁.widgets := List.not_mem_nil
    unfold exec
    exact if_neg hnil
  obtain ⟨c₂, h₂, f₂⟩ := two_step hsafe htu h₁ hnew
  let i := c₁.shared.2.log.length
  have hi : c₂.shared.2.log[i]? = some (t, .writes a) := f₂.access (k := 0) rfl
  have hsecret : c₂.shared.2.Secret t i :=
    f₂.made rfl le_rfl (List.getElem?_eq_some_iff.mp hi).1
  have hstore : exec t a { s₁ with widgets := [a] } (.storeInstance a) =
      .ok ({ s₁ with widgets := [a], ptrInstance := some a }, .unlock a) := rfl
  obtain ⟨c₃, h₃, f₃⟩ := two_step hsafe htu h₂ hstore
  have hcall : exec u a { s₁ with widgets := [a], ptrInstance := some a } .idle =
      .ok ({ s₁ with widgets := [a], ptrInstance := some a }, .firstLoad) := rfl
  obtain ⟨c₄, h₄, f₄⟩ := two_step hsafe htu.symm h₃.swap hcall
  have hload : ∃ s', exec u a { s₁ with widgets := [a], ptrInstance := some a } .firstLoad =
      .ok (s', .use a) := ⟨_, rfl⟩
  obtain ⟨s', hload⟩ := hload
  obtain ⟨c₅, h₅, f₅⟩ := two_step hsafe htu.symm h₄ hload
  have hu : ∀ {b : Bool}, u = t → b = false := fun hut => absurd hut.symm htu
  have hview : c₅.shared.2.Unknown u i := by
    rcases hnot with hfirst | hthird
    · have ht := f₃.unknown (hsecret.unknown htu.symm) fun htu' => absurd htu' htu
      exact f₅.unknown (f₄.unknown ht fun _ => rfl) fun _ => hfirst
    · exact (f₅.secret (f₄.secret (f₃.secret hsecret fun _ => hthird) hu) hu).unknown htu.symm
  refine false_of_race (a := .reads a) (o := a) hsafe h₅.reach h₅.first
    (List.mem_singleton_self _)
    (Causality.not_ordered (f₅.kept (f₄.kept (f₃.kept hi))) htu ?_ hview.view)
  exact ⟨rfl, .inl rfl, by simp [Access.writes]⟩

end Races

/-- No thread reads a `Widget` in a race with its constructor exactly if the first load acquires
and the store releases. -/
theorem double_checked_orders (Tid Addr : Type*) [DecidableEq Tid] [DecidableEq Addr]
    [Nontrivial Tid] [Nonempty Addr] (orders : Orders) :
    (∀ c : Run Tid Addr, Reach (program Tid Addr orders).exec (· = start) c →
      ∀ t o, c.advance (program Tid Addr orders).exec t o ≠ .fault) ↔
        orders.first.acquires = true ∧ orders.third.releases = true := by
  constructor
  · intro hsafe
    obtain ⟨t, u, htu⟩ := exists_pair_ne Tid
    exact first_acquires_third_releases hsafe htu
  · intro h c hc t o
    have hstep := step (t := t) (o := o) (invariant h.1 h.2 hc) h.1 h.2
    exact (Config.advance_sat (P := Invariant) hstep).ne_fault

/-- Both threads pass the first check, and one of them the second. -/
def sample : List (Bool × ℕ × ℕ) :=
  [(true, 0, 0), (true, 0, 0), (false, 7, 0), (false, 7, 0), (false, 7, 0), (false, 7, 0),
    (false, 7, 0), (false, 7, 0), (false, 7, 0), (true, 0, 0), (true, 0, 1), (true, 0, 0)]

/-- As it is written there is no race, and so none after this. -/
theorem double_checked_orders_as_written : ∃ d,
    Config.run (program Bool ℕ Orders.asWritten).exec sample start = .ok d ∧
      ∀ t o, d.advance (program Bool ℕ Orders.asWritten).exec t o ≠ .fault :=
  ⟨_, rfl, (double_checked_orders Bool ℕ Orders.asWritten).mpr ⟨rfl, rfl⟩ _
    (ReachIf.run (.start rfl)
      (rfl : Config.run (program Bool ℕ Orders.asWritten).exec sample start = .ok _))⟩

/-- There is one `Widget` at most, and all calls return it. -/
theorem double_checked_one_widget (hfirst : orders.first.acquires = true)
    (hthird : orders.third.releases = true)
    (hc : Reach (program Tid Addr orders).exec (· = start) c) :
    c.shared.1.widgets.length ≤ 1 ∧ ∀ t, ∀ p ∈ c.shared.1.returned t, c.shared.1.widgets = [p] := by
  have h := invariant hfirst hthird hc
  refine ⟨?_, h.returned⟩
  cases hp : c.shared.1.ptrInstance with
  | some p => simp [(h.published p hp).1]
  | none =>
      rcases h.unpublished hp with hw | ⟨t, p, ht⟩
      · simp [hw]
      · simp [(h.pointer t p (by rw [ht]; rfl)).1]

theorem double_checked_one_widget_sample : ∃ d,
    Config.run (program Bool ℕ Orders.asWritten).exec sample start = .ok d ∧
      d.shared.1.returned true = [7] ∧ d.shared.1.widgets.length ≤ 1 ∧
        ∀ t, ∀ p ∈ d.shared.1.returned t, d.shared.1.widgets = [p] :=
  ⟨_, rfl, rfl, double_checked_one_widget rfl rfl (ReachIf.run (.start rfl)
    (rfl : Config.run (program Bool ℕ Orders.asWritten).exec sample start = .ok _))⟩

end CsNotes.DoubleChecked
