import CsNotes.Lib.Races
import CsNotes.LockfreeStack.Correctness

/-!
# Neither stack has data races

A node which has been linked is only read, but for its value, which the thread
that popped the node takes. With shared pointers the last owner deletes a node,
when nobody else has a way to it.
-/
namespace CsNotes.LockfreeStack
open Interleaving Storage Races References

variable {Tid Addr A : Type*}

namespace MemoryLeak

inductive Field where
  | data
  | next
deriving DecidableEq, Repr

/-- What the next step does to the members of nodes. What the constructor of a new node does
before its `next` is written is left out, since nobody else has a pointer to it. -/
def accesses (_ : Shared Tid Addr A) : PC Addr A → List (Access (Addr × Field))
  | .loadNext _ p | .pushCas _ p => [.writes (p, .next)]
  | .readNext old => [.reads (old, .next)]
  | .takeData old => [.writes (old, .data)]
  | _ => []

def Node.Agree : Field → Node Addr A → Node Addr A → Prop
  | .data, n, n' => n'.data = n.data
  | .next, n, n' => n'.next = n.next

theorem Node.agree_refl : ∀ (f : Field) (n : Node Addr A), n.Agree f n
  | .data, _ | .next, _ => rfl

/-- The member of the node agrees with what it was. -/
def KeptAt (s s' : Shared Tid Addr A) (x : Addr × Field) : Prop :=
  ∀ n, s.mem x.1 = some n → ∃ n', s'.mem x.1 = some n' ∧ n.Agree x.2 n'

variable [DecidableEq Addr] {s s' : Shared Tid Addr A} {x : Addr × Field} {a : Addr}
variable {n n' : Node Addr A} {l : List (Access (Addr × Field))}

omit [DecidableEq Addr] in
theorem keptAt_of_eq (h : s'.mem = s.mem) : KeptAt s s' x :=
  fun n hn => ⟨n, by rw [h, hn], Node.agree_refl _ n⟩

theorem keptAt_write (hn : s.mem a = some n) (h : ∀ f, n.Agree f n' ∨ Changed l (a, f)) :
    KeptAt s (s.write a n') x ∨ Changed l x := by
  obtain ⟨b, f⟩ := x
  by_cases hb : b = a
  · subst hb
    refine (h f).imp_left fun hf k hk => ?_
    obtain rfl := Option.some.inj (hn.symm.trans hk)
    exact ⟨n', Shared.write_self, hf⟩
  · exact .inl fun k hk => ⟨k, (Shared.write_of_ne hb).trans hk, Node.agree_refl f k⟩

variable [DecidableEq Tid] {movedFrom : A → A}

omit [DecidableEq Addr] in
theorem mem_test (s : Shared Tid Addr A) (t : Tid) : (s.test t).1.mem = s.mem := by
  unfold Shared.test
  split <;> rfl

theorem footprint (movedFrom : A → A) :
    Footprint (exec movedFrom : Code Tid (Oracle Addr A) (Shared Tid Addr A) (PC Addr A)) accesses
      KeptAt := by
  intro t o s pc r h x
  cases pc with
  | idle =>
      simp only [exec] at h
      split at h <;> cases h <;> exact .inl (keptAt_of_eq rfl)
  | newNode v =>
      simp only [exec] at h
      split at h <;> cases h
      rename_i hfree
      refine .inl fun n hn => ⟨n, (Shared.write_of_ne ?_).trans hn, Node.agree_refl _ n⟩
      intro he
      rw [he, hfree] at hn
      cases hn
  | loadNext v p =>
      simp only [exec, Shared.access] at h
      split at h
      · cases h
      rename_i n hn
      cases h
      refine keptAt_write hn fun f => ?_
      cases f with
      | data => exact .inl rfl
      | next => exact .inr ⟨_, List.mem_singleton_self _, rfl, rfl⟩
  | pushCas v p =>
      simp only [exec, Shared.access] at h
      split at h
      · cases h
      rename_i n hn
      split at h <;> cases h
      · exact .inl (keptAt_of_eq rfl)
      · refine keptAt_write hn fun f => ?_
        cases f with
        | data => exact .inl rfl
        | next => exact .inr ⟨_, List.mem_singleton_self _, rfl, rfl⟩
  | loadHead =>
      cases h
      exact .inl (keptAt_of_eq (mem_test s t))
  | readNext old =>
      simp only [exec, Shared.access] at h
      split at h <;> cases h
      exact .inl (keptAt_of_eq rfl)
  | popCas old next =>
      simp only [exec] at h
      split at h <;> cases h
      · exact .inl (keptAt_of_eq rfl)
      · exact .inl (keptAt_of_eq (mem_test s t))
  | takeData old =>
      simp only [exec, Shared.access] at h
      split at h
      · cases h
      rename_i n hn
      cases h
      let n' : Node Addr A := { n with data := movedFrom n.data }
      refine keptAt_write hn fun f => (?_ : n.Agree f n' ∨ Changed _ _)
      cases f with
      | data => exact .inr ⟨_, List.mem_singleton_self _, rfl, rfl⟩
      | next => exact .inl rfl

/-- Who may access the members of a node at this stage, and how. -/
def Role.permission : Role Tid → Field → Permission Tid
  | .own t .fresh, _ | .own t .popped, .data => .exclusive t
  | _, _ => .readOnly

omit [DecidableEq Tid] in
theorem permission_of_published {r : Role Tid} (h : r.Published) :
    r.permission .next = .readOnly := by
  cases r with
  | free => exact h.elim
  | linked | done => rfl
  | own t k =>
      cases k with
      | fresh => exact h.elim
      | popped => rfl

variable {g : Ghost Tid Addr A} {pc : PC Addr A} {t : Tid}

omit [DecidableEq Addr] in
theorem Local.allowed (hl : Local s g t pc) {a : Access (Addr × Field)} (ha : a ∈ accesses s pc) :
    ((g.role a.loc.1).permission a.loc.2).Allows t a := by
  cases pc with
  | loadNext v p | pushCas v p =>
      cases List.mem_singleton.mp ha
      have hr : g.role p = .own t .fresh := (hl.owned _ _).mpr rfl
      change ((g.role p).permission .next).Allows t _
      rw [hr]
      rfl
  | readNext old =>
      cases List.mem_singleton.mp ha
      change ((g.role old).permission .next).Allows t _
      rw [permission_of_published hl.facts.1]
      rfl
  | takeData old =>
      cases List.mem_singleton.mp ha
      have hr : g.role old = .own t .popped := (hl.owned _ _).mpr rfl
      change ((g.role old).permission .data).Allows t _
      rw [hr]
      rfl
  | idle | newNode _ | loadHead | popCas _ _ => cases ha

/-- No data race is reachable in the stack that leaks. -/
theorem memory_leak_race_free {c : Config Tid (Shared Tid Addr A) (PC Addr A)}
    (hc : Reach (exec movedFrom) (· = start) c) : RaceFree accesses c := by
  obtain ⟨g, -, hL⟩ := (outline movedFrom).holds hc
  exact Permission.raceFree (fun x => (g.role x.1).permission x.2) fun t a => (hL t).allowed

theorem memory_leak_race_free_sample : ∃ c,
    Config.run (exec id) ((sample 4).take 9) start = .ok c ∧ RaceFree accesses c :=
  ⟨_, rfl, memory_leak_race_free (ReachIf.run (.start rfl)
    (rfl : Config.run (exec id) ((sample 4).take 9) start = .ok _))⟩

end MemoryLeak

namespace SharedPtr

inductive Field where
  | data
  | next
  | useCount
deriving DecidableEq, Repr

/-- What the next step does to the members of nodes and to their use counts, which are
atomic. What the constructor of a new node does before its `next` is written is left out,
since nobody else has a pointer to it. -/
def accesses (s : Shared Tid Addr A) : PC Addr A → List (Access (Ptr Addr × Field))
  | .loadHead | .popCas _ _ => s.head.toList.map fun p => .updates (p, .useCount)
  | .copyNew _ p => [.updates (p, .useCount)]
  | .loadNext _ p | .pushCas _ p =>
      .writes (p, .next) :: s.head.toList.map fun p => .updates (p, .useCount)
  | .readNext old =>
      .reads (old, .next) :: (nexts s.mem old).map fun p => .updates (p, .useCount)
  | .takeData old => [.writes (old, .data)]
  | .release p _ _ =>
      if uses s.mem p = 1 then
        [.writes (p, .data), .writes (p, .next), .writes (p, .useCount)]
      else [.updates (p, .useCount)]
  | .idle | .newNode _ => []

def Node.Agree : Field → Node Addr A → Node Addr A → Prop
  | .data, n, n' => n'.data = n.data
  | .next, n, n' => n'.next = n.next
  | .useCount, n, n' => n'.useCount = n.useCount

theorem Node.agree_refl : ∀ (f : Field) (n : Node Addr A), n.Agree f n
  | .data, _ | .next, _ | .useCount, _ => rfl

theorem Node.Agree.trans {n n' n'' : Node Addr A} : ∀ {f : Field}, n.Agree f n' →
    n'.Agree f n'' → n.Agree f n''
  | .data, h, h' | .next, h, h' | .useCount, h, h' => Eq.trans h' h

variable [DecidableEq Addr] {s s' : Shared Tid Addr A} {x : Option (Ptr Addr)}
variable {y : Ptr Addr × Field} {l : List (Access (Ptr Addr × Field))} {p : Ptr Addr}

theorem Copied.kept (h : Copied s x s') (hl : ∀ p ∈ x, .updates (p, .useCount) ∈ l) :
    Races.Kept Node.Agree s.mem s'.mem y ∨ Changed l y := by
  obtain ⟨q, f⟩ := y
  have hread : ∀ n, s.mem.read q = some n → ∃ n', s'.mem.read q = some n' ∧ n'.data = n.data ∧
      n'.next = n.next ∧ n'.useCount = n.useCount + x.toList.count q := by
    intro n hn
    obtain ⟨n', hn', hdata, hnext⟩ := h.read hn
    have huses := h.uses q
    rw [uses_of hn', uses_of hn] at huses
    exact ⟨n', hn', hdata, hnext, huses⟩
  cases f with
  | data =>
      refine .inl fun n hn => ?_
      obtain ⟨n', hn', hdata, -⟩ := hread n hn
      exact ⟨n', hn', hdata⟩
  | next =>
      refine .inl fun n hn => ?_
      obtain ⟨n', hn', -, hnext, -⟩ := hread n hn
      exact ⟨n', hn', hnext⟩
  | useCount =>
      by_cases hq : q ∈ x
      · exact .inr ⟨_, hl q hq, rfl, rfl⟩
      · refine .inl fun n hn => ?_
        obtain ⟨n', hn', -, -, huses⟩ := hread n hn
        have hzero : x.toList.count q = 0 :=
          List.count_eq_zero_of_not_mem fun hmem => hq (Option.mem_toList.mp hmem)
        rw [hzero] at huses
        exact ⟨n', hn', huses⟩

variable [DecidableEq Tid] {movedFrom : A → A}

theorem footprint (movedFrom : A → A) :
    Footprint (exec movedFrom : Code Tid (Oracle Addr A) (Shared Tid Addr A) (PC Addr A)) accesses
      (fun s s' => Races.Kept Node.Agree s.mem s'.mem) := by
  intro t o s pc r h y
  have quiet : r.1.mem = s.mem →
      Races.Kept Node.Agree s.mem r.1.mem y ∨ Changed (accesses s pc) y :=
    fun he => .inl (he ▸ kept_refl Node.agree_refl s.mem)
  have hhead : ∀ p ∈ s.head, .updates (p, .useCount) ∈
      s.head.toList.map fun p => Access.updates (p, Field.useCount) :=
    fun p hp => List.mem_map_of_mem (Option.mem_toList.mpr hp)
  have hrelink : ∀ {v p ps}, s.relink v p ps = .ok r →
      accesses s pc = .writes (p, .next) :: s.head.toList.map (fun p => .updates (p, .useCount)) →
      Races.Kept Node.Agree s.mem r.1.mem y ∨ Changed (accesses s pc) y := by
    intro v p ps h ha
    obtain ⟨s', n', hs, hn', rfl⟩ := relink_eq_ok h
    have hcopied : Races.Kept Node.Agree s.mem s'.mem y ∨ Changed (accesses s pc) y :=
      hs.kept fun q hq => ha ▸ List.mem_cons_of_mem _ (hhead q hq)
    have hwritten : Races.Kept Node.Agree s'.mem (s'.mem.write p { n' with next := s'.head }) y ∨
        Changed (accesses s pc) y := by
      refine kept_write Node.agree_refl hn' fun f => ?_
      cases f with
      | data | useCount => exact .inl rfl
      | next => exact .inr ⟨_, ha ▸ List.mem_cons_self, rfl, rfl⟩
    rcases hcopied, hwritten with ⟨hk | hk, hk' | hk'⟩
    · refine .inl fun m hm => ?_
      obtain ⟨m', hm', ha⟩ := hk m hm
      obtain ⟨m'', hm'', ha'⟩ := hk' m' hm'
      exact ⟨m'', hm'', ha.trans ha'⟩
    all_goals exact .inr ‹_›
  cases pc with
  | idle =>
      simp only [exec] at h
      split at h <;> cases h <;> exact quiet rfl
  | newNode v =>
      simp only [exec] at h
      split at h <;> cases h
      exact .inl (kept_alloc Node.agree_refl ‹_›)
  | loadNext v p => exact hrelink h rfl
  | copyNew v p =>
      simp only [exec] at h
      obtain ⟨s', hs, h⟩ := copy_eq_ok h
      cases h
      refine hs.kept fun q hq => ?_
      cases hq
      exact List.mem_singleton_self _
  | pushCas v p =>
      obtain ⟨n, hn, h⟩ := Memory.access_eq_ok.mp h
      split at h
      · cases h
        exact quiet rfl
      · exact hrelink h rfl
  | loadHead =>
      simp only [exec] at h
      obtain ⟨s', hs, h⟩ := copy_eq_ok h
      cases h
      change Races.Kept Node.Agree s.mem _ y ∨ _
      rw [mem_test.1]
      exact hs.kept hhead
  | readNext old =>
      obtain ⟨n, hn, h⟩ := Memory.access_eq_ok.mp h
      obtain ⟨s', hs, h⟩ := copy_eq_ok h
      cases h
      refine hs.kept fun q hq => List.mem_cons_of_mem _ (List.mem_map_of_mem ?_)
      rw [nexts_of hn]
      exact Option.mem_toList.mpr hq
  | popCas old next =>
      simp only [exec] at h
      split at h
      · cases h
        exact quiet rfl
      · obtain ⟨s', hs, h⟩ := copy_eq_ok h
        cases h
        change Races.Kept Node.Agree s.mem _ y ∨ _
        rw [mem_test.1]
        exact hs.kept hhead
  | takeData old =>
      obtain ⟨n, hn, h⟩ := Memory.access_eq_ok.mp h
      cases h
      refine kept_write Node.agree_refl hn fun f => ?_
      cases f with
      | data => exact .inr ⟨_, List.mem_singleton_self _, rfl, rfl⟩
      | next | useCount => exact .inl rfl
  | release p ps k =>
      obtain ⟨n, hn, h⟩ := Memory.access_eq_ok.mp h
      have huses : uses s.mem p = n.useCount := uses_of hn
      split at h
      · rename_i hone
        cases h
        refine kept_free Node.agree_refl hn fun f => ?_
        simp only [accesses, huses, if_pos hone]
        exact ⟨.writes (p, f), by cases f <;> simp, rfl, rfl⟩
      · rename_i hmany
        cases h
        refine kept_write Node.agree_refl hn fun f => ?_
        cases f with
        | data | next => exact .inl rfl
        | useCount =>
            simp only [accesses, huses, if_neg hmany]
            exact .inr ⟨_, List.mem_singleton_self _, rfl, rfl⟩

/-- The next step deletes a node. -/
def Deletes (s : Shared Tid Addr A) (pc : PC Addr A) : Prop :=
  ∃ p ps k, pc = .release p ps k ∧ uses s.mem p = 1

variable {c : Config Tid (Shared Tid Addr A) (PC Addr A)} {t u : Tid}
variable {a b : Access (Ptr Addr × Field)}

omit [DecidableEq Tid] [DecidableEq Addr] in
/-- The thread gets at what it accesses as an owner, or from `head` or another node. -/
theorem owner_of_access (hu : u ≠ t) (ha : a ∈ accesses c.shared (c.pc u)) :
    ∃ o : Owner Tid Addr, o ≠ .thread t ∧ a.loc.1 ∈ refs c o := by
  have hself : a.loc.1 ∈ (c.pc u).held → ∃ o : Owner Tid Addr, o ≠ .thread t ∧ a.loc.1 ∈ refs c o :=
    fun h => ⟨.thread u, fun he => hu (Owner.thread.inj he), h⟩
  have hhead : a ∈ c.shared.head.toList.map (fun p => Access.updates (p, Field.useCount)) →
      ∃ o : Owner Tid Addr, o ≠ .thread t ∧ a.loc.1 ∈ refs c o := by
    intro h
    obtain ⟨p, hp, rfl⟩ := List.mem_map.mp h
    exact ⟨.head, by simp, hp⟩
  cases hpc : c.pc u with
  | loadHead | popCas old next =>
      rw [hpc] at ha
      exact hhead ha
  | copyNew v p | takeData p =>
      rw [hpc] at ha hself
      cases List.mem_singleton.mp ha
      exact hself List.mem_cons_self
  | loadNext v p | pushCas v p =>
      rw [hpc] at ha hself
      rcases List.mem_cons.mp ha with rfl | ha
      · exact hself List.mem_cons_self
      · exact hhead ha
  | readNext old =>
      rw [hpc] at ha hself
      rcases List.mem_cons.mp ha with rfl | ha
      · exact hself List.mem_cons_self
      · obtain ⟨p, hp, rfl⟩ := List.mem_map.mp ha
        exact ⟨.node old, by simp, hp⟩
  | release p ps k =>
      rw [hpc] at ha hself
      have hloc : a.loc.1 = p := by
        simp only [accesses] at ha
        split at ha
        · simp only [List.mem_cons, List.not_mem_nil, or_false] at ha
          rcases ha with rfl | rfl | rfl <;> rfl
        · rw [List.mem_singleton.mp ha]
          rfl
      exact hself (hloc ▸ List.mem_cons_self)
  | idle | newNode _ =>
      rw [hpc] at ha
      cases ha

/-- A node is deleted while no other thread can get at it. -/
theorem Owned.deletes_alone (h : Owned c) (htu : t ≠ u) (hd : Deletes c.shared (c.pc t))
    (ha : a ∈ accesses c.shared (c.pc t)) (hb : b ∈ accesses c.shared (c.pc u)) :
    a.loc ≠ b.loc := by
  obtain ⟨p, ps, k, hpc, hone⟩ := hd
  obtain ⟨o, ho, hmem⟩ := owner_of_access htu.symm hb
  have hheld : p ∈ refs c (.thread t) := by
    change p ∈ (c.pc t).held
    rw [hpc]
    exact List.mem_cons_self
  have hloc : a.loc.1 = p := by
    rw [hpc] at ha
    simp only [accesses, if_pos hone, List.mem_cons, List.not_mem_nil, or_false] at ha
    rcases ha with rfl | rfl | rfl <;> rfl
  intro he
  rw [← he, hloc] at hmem
  exact h.sole hone hheld ho hmem

/-- Who may access the members of a node that is not being deleted, and how. -/
def permission (g : MemoryLeak.Ghost Tid ℕ A) : Ptr Addr × Field → Permission Tid
  | (p, .data) => (g.role p.id).permission .data
  | (p, .next) => (g.role p.id).permission .next
  | (_, .useCount) => .atomicOnly

omit [DecidableEq Addr] in
theorem allowed {g : MemoryLeak.Ghost Tid ℕ A} {s₀ : MemoryLeak.Shared Tid ℕ A} {pc : PC Addr A}
    (hl : MemoryLeak.Local s₀ g t pc.leaky) (hd : ¬ Deletes s pc) (ha : a ∈ accesses s pc) :
    (permission g a.loc).Allows t a := by
  have hcount : ∀ l : List (Ptr Addr), a ∈ l.map (fun p => Access.updates (p, Field.useCount)) →
      (permission g a.loc).Allows t a := by
    intro l h
    obtain ⟨p, -, rfl⟩ := List.mem_map.mp h
    rfl
  cases pc with
  | loadHead | popCas old next => exact hcount _ ha
  | copyNew v p => exact hcount [p] ha
  | loadNext v p | pushCas v p =>
      rcases List.mem_cons.mp ha with rfl | ha
      · exact (Permission.allows_congr rfl rfl).mp (hl.allowed (List.mem_singleton_self _))
      · exact hcount _ ha
  | readNext old =>
      rcases List.mem_cons.mp ha with rfl | ha
      · exact (Permission.allows_congr rfl rfl).mp (hl.allowed (List.mem_singleton_self _))
      · exact hcount _ ha
  | takeData old =>
      cases List.mem_singleton.mp ha
      exact (Permission.allows_congr rfl rfl).mp (hl.allowed (List.mem_singleton_self _))
  | release p ps k =>
      simp only [accesses] at ha
      split at ha
      · exact (hd ⟨p, ps, k, rfl, ‹_›⟩).elim
      · exact hcount [p] ha
  | idle | newNode _ => cases ha

/-- No data race is reachable in the stack with shared pointers. -/
theorem shared_ptr_race_free (hc : Reach (exec movedFrom) (· = start) c) : RaceFree accesses c := by
  have howned := owned_of_reach hc
  obtain ⟨c', hc', -, hpc⟩ := (refines movedFrom).holds hc
  obtain ⟨g, -, hL⟩ := (MemoryLeak.outline movedFrom).holds hc'
  rintro t u ⟨htu, x, hx, y, hy, hxy⟩
  by_cases ht : Deletes c.shared (c.pc t)
  · exact howned.deletes_alone htu ht hx hy hxy.1
  by_cases hu : Deletes c.shared (c.pc u)
  · exact howned.deletes_alone htu.symm hu hy hx hxy.1.symm
  have hallowed := allowed (hpc u ▸ hL u) hu hy
  rw [← hxy.1] at hallowed
  exact Permission.not_conflicts htu (allowed (hpc t ▸ hL t) ht hx) hallowed hxy

theorem shared_ptr_race_free_sample : ∃ c,
    Config.run (exec id) ((sample 6).take 11) start = .ok c ∧ RaceFree accesses c :=
  ⟨_, rfl, shared_ptr_race_free (ReachIf.run (.start rfl)
    (rfl : Config.run (exec id) ((sample 6).take 11) start = .ok _))⟩

end SharedPtr
end CsNotes.LockfreeStack
