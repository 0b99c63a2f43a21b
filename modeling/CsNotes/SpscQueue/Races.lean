import CsNotes.Lib.Races
import CsNotes.SpscQueue.Correctness

/-!
# The two threads keep apart

`tail` is atomic and nothing else is. The nodes before `tail` are the consumer's,
those from there on the producer's, until the destructor runs.
-/
namespace CsNotes.SpscQueue
open Interleaving Storage Races

inductive Field where
  | data
  | next
deriving DecidableEq, Repr

inductive Loc (Addr : Type*) where
  | head
  | tail
  | member (x : Ptr Addr × Field)
deriving DecidableEq, Repr

variable {Addr A : Type*}

/-- What the next step does to `head`, `tail` and the members of nodes. The constructor of a
new node is left out, since nobody else has a pointer to it. -/
def accesses (s : Shared Addr A) : PC Addr A → List (Access (Loc Addr))
  | .loadOldTail _ _ | .loadTail _ => [.loads .tail]
  | .construct _ _ old => [.writes (.member (old, .data))]
  | .linkNext _ _ old => [.writes (.member (old, .next))]
  | .storeTail _ _ => [.updates .tail]
  | .compare _ _ => [.reads .head]
  | .readNext _ => .reads .head :: s.head.toList.map fun p => .reads (.member (p, .next))
  | .moveHead _ _ _ => [.writes .head]
  | .takeData _ old | .destroyData _ old _ => [.writes (.member (old, .data))]
  | .deleteNode _ old _ => [.writes (.member (old, .data)), .writes (.member (old, .next))]
  | .deleteHead => .reads .head :: s.head.toList.flatMap fun p =>
      [.writes (.member (p, .data)), .writes (.member (p, .next))]
  | .idle | .newNode _ | .destroyed => []

def Node.Agree : Field → Node Addr A → Node Addr A → Prop
  | .data, n, n' => n'.data = n.data
  | .next, n, n' => n'.next = n.next

theorem Node.agree_refl : ∀ (f : Field) (n : Node Addr A), n.Agree f n
  | .data, _ | .next, _ => rfl

/-- What is at a location agrees with what it was. -/
def KeptAt (s s' : Shared Addr A) : Loc Addr → Prop
  | .head => s'.head = s.head
  | .tail => s'.tail = s.tail
  | .member x => Races.Kept Node.Agree s.mem s'.mem x

variable [DecidableEq Addr] {movedFrom : A → A}

theorem delete_eq_ok {B : Type*} {s : Shared Addr A} {p : Ptr Addr} {b : B}
    {f : Shared Addr A → Outcome B} (h : s.delete p f = .ok b) : ∃ n, s.mem.read p = some n ∧
      f { s with mem := s.mem.free p, deleted := s.deleted ++ [p.id] } = .ok b := by
  obtain ⟨n, hn, h⟩ := Memory.access_eq_ok.mp h
  split at h
  · cases h
  · exact ⟨n, hn, h⟩

theorem footprint (movedFrom : A → A) :
    Footprint (exec movedFrom : Code Thread (Oracle Addr A) (Shared Addr A) (PC Addr A))
      accesses KeptAt := by
  intro t o s pc r h x
  have memory : (∀ y, Races.Kept Node.Agree s.mem r.1.mem y ∨
      Changed (accesses s pc) (.member y)) → r.1.head = s.head → r.1.tail = s.tail →
      KeptAt s r.1 x ∨ Changed (accesses s pc) x := by
    intro hm hh ht
    cases x with
    | head => exact .inl hh
    | tail => exact .inl ht
    | member x => exact hm x
  have quiet : r.1.mem = s.mem → r.1.head = s.head → r.1.tail = s.tail →
      KeptAt s r.1 x ∨ Changed (accesses s pc) x :=
    fun hm => memory fun y => .inl (hm ▸ kept_refl Node.agree_refl s.mem)
  have written : ∀ p n n', s.mem.read p = some n → r.1.mem = s.mem.write p n' →
      (∀ f, n.Agree f n' ∨ Changed (accesses s pc) (.member (p, f))) → r.1.head = s.head →
      r.1.tail = s.tail → KeptAt s r.1 x ∨ Changed (accesses s pc) x := by
    intro p n n' hn hm hf
    refine memory fun y => ?_
    rw [hm]
    exact kept_write (P := fun y => Changed (accesses s pc) (.member y)) Node.agree_refl hn hf
  have freed : ∀ p n, s.mem.read p = some n → r.1.mem = s.mem.free p →
      (∀ f, Changed (accesses s pc) (.member (p, f))) → r.1.head = s.head →
      r.1.tail = s.tail → KeptAt s r.1 x ∨ Changed (accesses s pc) x := by
    intro p n hn hm hf
    refine memory fun y => ?_
    rw [hm]
    exact kept_free (P := fun y => Changed (accesses s pc) (.member y)) Node.agree_refl hn hf
  cases pc with
  | idle =>
      simp only [exec] at h
      split at h
      · split at h <;> cases h
        exact quiet rfl rfl rfl
      · cases h
        exact quiet rfl rfl rfl
      · cases h
        exact quiet rfl rfl rfl
      · cases h
  | newNode v =>
      simp only [exec] at h
      split at h <;> cases h
      exact memory (fun y => .inl (kept_alloc Node.agree_refl ‹_›)) rfl rfl
  | loadOldTail _ _ | loadTail _ =>
      cases h
      exact quiet rfl rfl rfl
  | construct v new old =>
      obtain ⟨n, hn, h⟩ := Memory.access_eq_ok.mp h
      split at h <;> cases h
      refine written _ n _ hn rfl (fun f => ?_) rfl rfl
      cases f with
      | data => exact .inr ⟨_, List.mem_singleton_self _, rfl, rfl⟩
      | next => exact .inl rfl
  | linkNext v new old =>
      obtain ⟨n, hn, h⟩ := Memory.access_eq_ok.mp h
      cases h
      refine written _ n _ hn rfl (fun f => ?_) rfl rfl
      cases f with
      | data => exact .inl rfl
      | next => exact .inr ⟨_, List.mem_singleton_self _, rfl, rfl⟩
  | storeTail v new =>
      cases h
      cases x with
      | head => exact .inl rfl
      | tail => exact .inr ⟨_, List.mem_singleton_self _, rfl, rfl⟩
      | member x => exact .inl (kept_refl Node.agree_refl s.mem)
  | compare k tail =>
      simp only [exec] at h
      split at h
      · split at h <;> cases h <;> exact quiet rfl rfl rfl
      · cases h
        exact quiet rfl rfl rfl
  | readNext k =>
      simp only [exec] at h
      split at h
      · cases h
      · obtain ⟨n, -, h⟩ := Memory.access_eq_ok.mp h
        cases h
        exact quiet rfl rfl rfl
  | moveHead k old next =>
      cases h
      cases x with
      | head => exact .inr ⟨_, List.mem_singleton_self _, rfl, rfl⟩
      | tail => exact .inl rfl
      | member x => exact .inl (kept_refl Node.agree_refl s.mem)
  | takeData k old | destroyData k old v =>
      obtain ⟨n, hn, h⟩ := Memory.access_eq_ok.mp h
      split at h <;> cases h
      refine written _ n _ hn rfl (fun f => ?_) rfl rfl
      cases f with
      | data => exact .inr ⟨_, List.mem_singleton_self _, rfl, rfl⟩
      | next => exact .inl rfl
  | deleteNode k old v =>
      simp only [exec] at h
      obtain ⟨n, hn, h⟩ := delete_eq_ok h
      have hchanged : ∀ f, Changed (accesses s (.deleteNode k old v)) (.member (old, f)) :=
        fun f => ⟨.writes (.member (old, f)), by cases f <;> simp [accesses], rfl, rfl⟩
      cases k <;> cases h <;> exact freed _ n hn rfl hchanged rfl rfl
  | deleteHead =>
      simp only [exec] at h
      split at h
      · cases h
      · rename_i p hp
        obtain ⟨n, hn, h⟩ := delete_eq_ok h
        cases h
        refine freed _ n hn rfl (fun f => ?_) rfl rfl
        exact ⟨.writes (.member (p, f)), by cases f <;> simp [accesses, hp], rfl, rfl⟩
  | destroyed => cases h

def permission (s : Shared Addr A) : Loc Addr → Permission Thread
  | .head => .exclusive .consumer
  | .tail => .atomicOnly
  | .member (p, _) =>
      .exclusive (if p.id < s.tail.id ∨ s.closing = true then .consumer else .producer)

variable {s : Shared Addr A} {g : Ghost Addr A} {pc : PC Addr A} {a : Access (Loc Addr)}
variable {p : Ptr Addr} {f : Field}

omit [DecidableEq Addr] in
theorem permission_old (h : p.id < s.tail.id ∨ s.closing = true) :
    (permission s (.member (p, f))).Allows .consumer a := by
  simp only [permission, if_pos h]
  rfl

omit [DecidableEq Addr] in
theorem Producer.allowed (h : Producer s g pc) (ha : a ∈ accesses s pc) :
    (permission s a.loc).Allows .producer a := by
  have hdummy : ∀ f, pc ≠ .idle → (permission s (.member (s.tail, f))).Allows .producer a := by
    intro f hpc
    have hopen : ¬ (s.tail.id < s.tail.id ∨ s.closing = true) := by
      rintro (hlt | hclosing)
      · exact Nat.lt_irrefl _ hlt
      · exact hpc (h.closing hclosing)
    simp only [permission, if_neg hopen]
    rfl
  have hf := h.facts
  cases pc with
  | loadOldTail v new | storeTail v new =>
      cases List.mem_singleton.mp ha
      rfl
  | construct v new old =>
      cases List.mem_singleton.mp ha
      obtain ⟨rfl, -⟩ := hf
      exact hdummy .data (by simp)
  | linkNext v new old =>
      cases List.mem_singleton.mp ha
      obtain ⟨rfl, -⟩ := hf
      exact hdummy .next (by simp)
  | idle | newNode _ => cases ha
  | _ => exact hf.elim

theorem Consumer.allowed (hG : Global s g) (h : Consumer s g pc) (ha : a ∈ accesses s pc) :
    (permission s a.loc).Allows .consumer a := by
  have hold : ∀ p f, pc.touched s = some p → (permission s (.member (p, f))).Allows .consumer a :=
    fun p f hp => permission_old (.inl (h.touched hG hp).1)
  have hf := h.facts
  cases pc with
  | loadTail k | compare k tail | moveHead k old next =>
      cases List.mem_singleton.mp ha
      rfl
  | readNext k =>
      rcases List.mem_cons.mp ha with rfl | ha
      · rfl
      · obtain ⟨p, hp, rfl⟩ := List.mem_map.mp ha
        exact hold p _ (Option.mem_toList.mp hp)
  | takeData k old | destroyData k old v =>
      cases List.mem_singleton.mp ha
      exact hold old _ rfl
  | deleteNode k old v =>
      rcases List.mem_pair.mp ha with rfl | rfl <;> exact hold old _ rfl
  | deleteHead =>
      rcases List.mem_cons.mp ha with rfl | ha
      · rfl
      · obtain ⟨p, -, hp⟩ := List.mem_flatMap.mp ha
        have hclosing := h.closing.mpr trivial
        rcases List.mem_pair.mp hp with rfl | rfl <;> exact permission_old (.inr hclosing)
  | idle | destroyed => cases ha
  | _ => exact hf.elim

/-- No data race is reachable, in the destructor neither. -/
theorem spsc_queue_race_free {c : Config Thread (Shared Addr A) (PC Addr A)}
    (hc : ReachIf (exec movedFrom) Alone New c) : RaceFree accesses c := by
  obtain ⟨g, hG, hL⟩ := (outline movedFrom).holds hc
  refine Permission.raceFree (permission c.shared) fun t a ha => ?_
  cases t with
  | producer => exact Producer.allowed (hL .producer) ha
  | consumer => exact Consumer.allowed hG (hL .consumer) ha

theorem spsc_queue_race_free_sample : ∃ c,
    Config.run (exec id) sample (start 0) = .ok c ∧ RaceFree accesses c := by
  have hne : ∀ x ∈ sample, x.2.call ≠ .destroy := by decide
  have hstart : ReachIf (exec id) Alone New (start (A := ℕ) 0) := .start ⟨0, rfl⟩
  have hc := hstart.runIf (fun x hx c _ _ hdestroy => (hne x hx hdestroy).elim)
    (rfl : Config.run (exec id) sample (start 0) = .ok _)
  exact ⟨_, rfl, spsc_queue_race_free hc⟩

end CsNotes.SpscQueue
