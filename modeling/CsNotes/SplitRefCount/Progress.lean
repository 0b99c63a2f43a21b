import CsNotes.Lib.Progress
import CsNotes.SplitRefCount.Overflow

/-!
# The stack with split reference counts is lock free as long as the counts fit

Counting in changes `head`, so two pops can make each other's exchanges fail
without either of them taking effect. They cannot go on for ever only because
each attempt makes the external count of the node at `head` larger. With counts
of any size they could.
-/
namespace CsNotes.SplitRefCount
open Interleaving Storage History

variable {Tid Addr A : Type*}

/-- A weak exchange fails only if it finds another value. -/
def Strong {C : Type*} (_ : C) (_ : Tid) (o : Oracle Addr A) : Prop := o.spurious = false

/-- Calls which have not taken effect. -/
def PC.pending : PC Addr A → ℕ
  | idle | takeData _ _ | addCount _ _ _ | deleteTaken _ _ => 0
  | _ => 1

/-- How often threads can still count in on the node at `head`. -/
def room (s : Shared Tid Addr A) : ℕ := (intMax - s.head.externalCount).toNat

def next (s : Shared Tid Addr A) (p : Ptr Addr) : Option (CountedNodePtr Addr) :=
  (s.mem.read p).map Node.next

variable [DecidableEq Addr]

/-- How many steps a thread is from taking effect or counting in, or from its return, if
`head` stays as it is. -/
def distance (s : Shared Tid Addr A) : PC Addr A → ℕ
  | .idle => 0
  | .newNode _ => 4
  | .loadNext _ _ => 3
  | .pushCas _ p => if next s p = some s.head then 1 else 2
  | .loadHead => 2
  | .count old => if s.head = old then 1 else 2
  | .readNext _ _ => 6
  | .unlink _ _ _ => 5
  | .subCount _ _ => 4
  | .deleteReleased _ _ => 3
  | .takeData _ _ => 3
  | .addCount _ _ _ => 2
  | .deleteTaken _ _ => 1

variable {s s' : Shared Tid Addr A} {pc : PC Addr A} {p : Ptr Addr} {n : Node Addr A}

omit [DecidableEq Addr] in
theorem next_of (hn : s.mem.read p = some n) : next s p = some n.next := by
  unfold next
  rw [hn]
  rfl

theorem distance_pushCas_le (v : A) (p : Ptr Addr) : distance s (.pushCas v p) ≤ 2 := by
  simp only [distance]
  split <;> omega

theorem distance_count_le (old : CountedNodePtr Addr) : distance s (.count old) ≤ 2 := by
  simp only [distance]
  split <;> omega

variable [DecidableEq Tid] {movedFrom : A → A} {t u : Tid} {o : Oracle Addr A}
variable {r : Shared Tid Addr A × PC Addr A}

/-- A step inside a call takes effect, or counts in, or brings its thread closer. -/
theorem exec_closer (h : exec movedFrom t o s pc = .ok r) (ho : o.spurious = false)
    (hpc : pc ≠ .idle) (hr : r.2 ≠ .idle) :
    r.2.pending < pc.pending ∨ r.2.pending ≤ pc.pending ∧
      ((∃ old, pc = .count old ∧ s.head = old ∧
          r.1.head.externalCount = old.externalCount + 1) ∨
        r.1.head = s.head ∧ distance r.1 r.2 < distance s pc) := by
  cases pc with
  | idle => exact (hpc rfl).elim
  | newNode v =>
      simp only [exec] at h
      split at h <;> cases h
      exact .inr ⟨le_rfl, .inr ⟨rfl, by simp [distance]⟩⟩
  | loadNext v p =>
      obtain ⟨n, hn, h⟩ := Memory.access_eq_ok.mp h
      cases h
      exact .inr ⟨le_rfl, .inr ⟨rfl, Nat.lt_succ_of_le (distance_pushCas_le v p)⟩⟩
  | pushCas v p =>
      obtain ⟨n, hn, h⟩ := Memory.access_eq_ok.mp h
      split at h
      · cases h
        exact (hr rfl).elim
      · rename_i hcas
        cases h
        have hstale : next s p ≠ some s.head := by
          rw [next_of hn]
          exact fun he => hcas ⟨(Option.some.inj he).symm, ho⟩
        have hfresh : next { s with mem := s.mem.write p { n with next := s.head } } p =
            some s.head := by
          unfold next
          rw [Memory.read_write_self hn]
          rfl
        refine .inr ⟨le_rfl, .inr ⟨rfl, ?_⟩⟩
        simp only [distance, if_neg hstale, if_pos hfresh]
        exact Nat.one_lt_two
  | loadHead =>
      cases h
      exact .inr ⟨le_rfl, .inr ⟨rfl, by simp [distance]⟩⟩
  | count old =>
      simp only [exec] at h
      split at h
      · rename_i hold
        split at h
        · cases h
          exact (hr rfl).elim
        · split at h <;> cases h
          exact .inr ⟨le_rfl, .inl ⟨old, rfl, hold, rfl⟩⟩
      · rename_i hold
        cases h
        exact .inr ⟨le_rfl, .inr ⟨rfl, by simp [distance, hold]⟩⟩
  | readNext old p =>
      obtain ⟨n, -, h⟩ := Memory.access_eq_ok.mp h
      cases h
      exact .inr ⟨le_rfl, .inr ⟨rfl, Nat.lt_succ_self 5⟩⟩
  | unlink old p next =>
      simp only [exec] at h
      split at h <;> cases h
      · exact .inl Nat.zero_lt_one
      · exact .inr ⟨le_rfl, .inr ⟨rfl, Nat.lt_succ_self 4⟩⟩
  | takeData old p =>
      obtain ⟨n, -, h⟩ := Memory.access_eq_ok.mp h
      cases h
      exact .inr ⟨le_rfl, .inr ⟨rfl, Nat.lt_succ_self 2⟩⟩
  | addCount old p v =>
      obtain ⟨n, -, h⟩ := Memory.access_eq_ok.mp h
      simp only at h
      split at h <;> cases h
      · exact .inr ⟨le_rfl, .inr ⟨rfl, Nat.lt_succ_self 1⟩⟩
      · exact (hr rfl).elim
  | deleteTaken p v =>
      obtain ⟨n, -, h⟩ := Memory.access_eq_ok.mp h
      cases h
      exact (hr rfl).elim
  | subCount old p =>
      obtain ⟨n, -, h⟩ := Memory.access_eq_ok.mp h
      simp only at h
      split at h <;> cases h
      · exact .inr ⟨le_rfl, .inr ⟨rfl, Nat.lt_succ_self 3⟩⟩
      · refine .inr ⟨le_rfl, .inr ⟨rfl, (distance_count_le old).trans_lt ?_⟩⟩
        simp [distance]
  | deleteReleased old p =>
      obtain ⟨n, -, h⟩ := Memory.access_eq_ok.mp h
      cases h
      refine .inr ⟨le_rfl, .inr ⟨rfl, (distance_count_le old).trans_lt ?_⟩⟩
      simp [distance]

/-- What a step does to the heap: it makes a node, or changes one that only its thread may
change, or an internal count. -/
def Touches (m m' : Memory Addr (Node Addr A)) (pc : PC Addr A) : Prop :=
  m' = m ∨ (∃ a x, m.cell a = none ∧ m' = m.alloc a x) ∨
    (∃ p k, pc.owned = some (p.addr, k) ∧ (m' = m.free p ∨ ∃ n, m' = m.write p n)) ∨
    ∃ p n i, m.read p = some n ∧ m' = m.write p { n with internalCount := i }

theorem exec_touches (h : exec movedFrom t o s pc = .ok r) : Touches s.mem r.1.mem pc := by
  cases pc with
  | idle =>
      simp only [exec] at h
      split at h <;> cases h <;> exact .inl rfl
  | newNode v =>
      simp only [exec] at h
      split at h <;> cases h
      exact .inr (.inl ⟨_, _, ‹_›, rfl⟩)
  | loadNext v p | takeData old p =>
      obtain ⟨n, -, h⟩ := Memory.access_eq_ok.mp h
      cases h
      exact .inr (.inr (.inl ⟨p, _, rfl, .inr ⟨_, rfl⟩⟩))
  | pushCas v p =>
      obtain ⟨n, -, h⟩ := Memory.access_eq_ok.mp h
      split at h <;> cases h
      · exact .inl rfl
      · exact .inr (.inr (.inl ⟨p, _, rfl, .inr ⟨_, rfl⟩⟩))
  | addCount old p v =>
      obtain ⟨n, -, h⟩ := Memory.access_eq_ok.mp h
      simp only at h
      split at h <;> cases h <;> exact .inr (.inr (.inl ⟨p, _, rfl, .inr ⟨_, rfl⟩⟩))
  | subCount old p =>
      obtain ⟨n, hn, h⟩ := Memory.access_eq_ok.mp h
      simp only at h
      split at h <;> cases h <;> exact .inr (.inr (.inr ⟨p, n, _, hn, rfl⟩))
  | loadHead =>
      cases h
      exact .inl rfl
  | count old =>
      simp only [exec] at h
      split at h
      · split at h
        · cases h
          exact .inl rfl
        · split at h <;> cases h
          exact .inl rfl
      · cases h
        exact .inl rfl
  | readNext old p =>
      obtain ⟨n, -, h⟩ := Memory.access_eq_ok.mp h
      cases h
      exact .inl rfl
  | unlink old p next =>
      simp only [exec] at h
      split at h <;> cases h <;> exact .inl rfl
  | deleteTaken p v | deleteReleased old p =>
      obtain ⟨n, -, h⟩ := Memory.access_eq_ok.mp h
      cases h
      exact .inr (.inr (.inl ⟨p, _, rfl, .inl rfl⟩))

variable {c : Config Tid (Shared Tid Addr A) (PC Addr A)}

/-- Only its own thread changes the `next` of a node that is not linked yet. -/
theorem exec_next {g : Ghost Tid Addr A} (hG : Global c.shared g)
    (hL : ∀ u, Local c.shared g u (c.pc u)) (h : exec movedFrom t o c.shared (c.pc t) = .ok r)
    (hu : u ≠ t) (hp : g.role p.addr = .own u .fresh) : next r.1 p = next c.shared p := by
  unfold next
  rcases exec_touches h with hm | ⟨a, x, ha, hm⟩ | ⟨q, k, hq, hm⟩ | ⟨q, n, i, hn, hm⟩
  · rw [hm]
  · have hne : p.addr ≠ a := by
      rintro rfl
      rw [(hG.free _).mpr ha] at hp
      cases hp
    rw [hm, Memory.eqOff_alloc.read hne]
  · have hne : p.addr ≠ q.addr := by
      intro he
      have hown := ((hL t).owned _ _).mpr hq
      rw [← he, hp] at hown
      cases hown
      exact hu rfl
    rcases hm with hm | ⟨n, hm⟩
    · rw [hm, Memory.eqOff_free.read hne]
    · rw [hm, Memory.eqOff_write.read hne]
  · rw [hm, Memory.read_write hn]
    split
    · rename_i hpq
      rw [hpq, hn]
      rfl
    · rfl

theorem distance_other (hc : Reach (exec movedFrom) (· = start) c) (hu : u ≠ t)
    (h : exec movedFrom t o c.shared (c.pc t) = .ok r) (hhead : r.1.head = c.shared.head) :
    distance r.1 (c.pc u) = distance c.shared (c.pc u) := by
  obtain ⟨g, hG, hL⟩ := (outline movedFrom).holds hc
  cases hpc : c.pc u with
  | pushCas v p =>
      have hrole : g.role p.addr = .own u .fresh := ((hL u).owned _ _).mpr (by rw [hpc]; rfl)
      simp only [distance, hhead, exec_next hG hL h hu hrole]
  | _ => simp only [distance, hhead]

/-- No exchange fails spuriously, and what the step computes is in the range of `int`. -/
def Fits (c : Config Tid (Shared Tid Addr A) (PC Addr A)) (t : Tid) (o : Oracle Addr A) : Prop :=
  Strong c t o ∧ InRange c t o

omit [DecidableEq Tid] [DecidableEq Addr] in
theorem room_lt {e : ℤ} (he : e + 1 ≤ intMax) (hs : s.head.externalCount = e)
    (hs' : s'.head.externalCount = e + 1) : room s' < room s := by
  unfold room
  omega

theorem ranking (movedFrom : A → A) :
    Ranking (exec movedFrom : Code Tid (Oracle Addr A) (Shared Tid Addr A) (PC Addr A))
      (· = start) Fits (· = .idle) [fun _ => PC.pending, fun s _ => room s, distance] where
  descends := by
    intro c t o r hc ⟨ho, hin⟩ hpc hx hr
    refine ⟨fun u _ => le_rfl, ?_⟩
    rcases exec_closer hx ho hpc hr with hlt | ⟨hle, ⟨old, hcount, hold, hnew⟩ | ⟨hhead, hlt⟩⟩
    · exact .inl hlt
    · have hmax : old.externalCount + 1 ≤ intMax := (hin _ (by simp [hcount, computed])).2
      have hroom : room r.1 < room c.shared := room_lt hmax (by rw [hold]) hnew
      exact .inr ⟨hle, fun u _ => hroom.le, .inl hroom⟩
    · have hroom : room r.1 ≤ room c.shared := by
        unfold room
        rw [hhead]
      exact .inr ⟨hle, fun u _ => hroom, .inr ⟨hroom,
        fun u hu => (distance_other hc hu hx hhead).le, .inl hlt⟩⟩

/-- Calls keep returning while all counts are in range. -/
theorem split_ref_count_lock_free [Finite Tid] (movedFrom : A → A) :
    LockFree (exec movedFrom : Code Tid (Oracle Addr A) (Shared Tid Addr A) (PC Addr A))
      (· = start) Fits (· = .idle) :=
  (ranking movedFrom).lockFree

theorem split_ref_count_lock_free_two :
    LockFree (exec id : Code (Fin 2) (Oracle ℕ ℕ) (Shared (Fin 2) ℕ ℕ) (PC ℕ ℕ))
      (· = start) Fits (· = .idle) :=
  split_ref_count_lock_free id

/-- `e` with one more reader. -/
def CountedNodePtr.counted (e : CountedNodePtr Addr) : CountedNodePtr Addr :=
  { e with externalCount := e.externalCount + 1 }

omit [DecidableEq Addr] in
theorem CountedNodePtr.counted_ne (e : CountedNodePtr Addr) : e.counted ≠ e := by
  intro h
  have he := congrArg CountedNodePtr.externalCount h
  simp [CountedNodePtr.counted] at he

theorem exec_count (hp : s.head.ptr = some p.addr) (hn : s.mem.read p = some n) :
    exec movedFrom t o s (.count s.head) =
      .ok ({ s with head := s.head.counted }, .readNext s.head.counted p) := by
  have hcounted : s.head.counted = ⟨s.head.externalCount + 1, some p.addr⟩ := by
    unfold CountedNodePtr.counted
    rw [hp]
  simp only [exec, if_pos, hp, Memory.find_of_read hn]
  rw [hcounted]

theorem exec_readNext {old : CountedNodePtr Addr} (hn : s.mem.read p = some n) :
    exec movedFrom t o s (.readNext old p) = .ok (s, .unlink old p n.next) :=
  Memory.access_of_read hn

theorem exec_unlink {old next : CountedNodePtr Addr} (h : s.head ≠ old) :
    exec movedFrom t o s (.unlink old p next) = .ok (s, .subCount s.head p) :=
  if_neg h

/-- `n` after a reader counted itself out. -/
def Node.released (n : Node Addr A) : Node Addr A :=
  { n with internalCount := n.internalCount - 1 }

omit [DecidableEq Addr] in
theorem released_le (h : n.internalCount ≤ 0) : n.released.internalCount ≤ 0 :=
  (Int.sub_le_self _ (by decide)).trans h

theorem exec_subCount {old : CountedNodePtr Addr} (hn : s.mem.read p = some n)
    (h : n.internalCount ≤ 0) : exec movedFrom t o s (.subCount old p) =
      .ok ({ s with mem := s.mem.write p n.released }, .count old) := by
  refine (Memory.access_of_read hn).trans (if_neg ?_)
  omega

theorem exists_unlink {old : CountedNodePtr Addr} {r : Shared Tid Addr A × PC Addr A}
    (h : exec movedFrom t o s (.readNext old p) = .ok r) : ∃ next, r.2 = .unlink old p next := by
  obtain ⟨n, -, h⟩ := Memory.access_eq_ok.mp h
  cases h
  exact ⟨n.next, rfl⟩

/-- Only `t` and `u` make steps, and no exchange that is to unlink a node succeeds. -/
def Failing (t u : Tid) (c : Config Tid (Shared Tid Addr A) (PC Addr A)) (x : Tid)
    (o : Oracle Addr A) : Prop :=
  Strong c x o ∧ (x = t ∨ x = u) ∧
    ∀ old p next, c.pc x = .unlink old p next → c.shared.head ≠ old

theorem rest_failing {P : Config Tid (Shared Tid Addr A) (PC Addr A) → Prop} {w : Tid}
    {x : PC Addr A} {r : Shared Tid Addr A × PC Addr A} {l : List (Tid × Oracle Addr A)}
    (hpc : c.pc w = x) (hx : exec movedFrom w o c.shared x = .ok r) (ho : o.spurious = false)
    (hw : w = t ∨ w = u) (hne : ∀ old p next, x = .unlink old p next → c.shared.head ≠ old)
    (hr : r.2 ≠ .idle)
    (h : Rest (exec movedFrom) (Unfinished (exec movedFrom) (Failing t u) (· = .idle) fun _ => True)
      P (⟨r.1, Function.update c.pc w r.2⟩, l)) :
    Rest (exec movedFrom) (Unfinished (exec movedFrom) (Failing t u) (· = .idle) fun _ => True) P
      (c, (w, o) :: l) :=
  .at hpc hx ⟨ho, hw, fun old p next he => hne old p next (hpc.symm.trans he)⟩ (fun _ => hr) h

/-- `t` is about to count in, which makes the exchange of `u` fail. -/
structure Contending (t u : Tid) (c : Config Tid (Shared Tid Addr A) (PC Addr A)) : Prop where
  counts : c.pc t = .count c.shared.head
  unlinks : ∃ p n, c.pc u = .unlink c.shared.head p n.next ∧ c.shared.head.ptr = some p.addr ∧
    c.shared.mem.read p = some n ∧ n.internalCount ≤ 0

/-- `u` fails and counts in again, which makes the exchange of `t` fail. -/
theorem Contending.round (htu : t ≠ u) (h : Contending t u c) :
    ∃ l, l.map Prod.fst = [t, u, u, u, t, t, t, u] ∧ Rest (exec movedFrom)
      (Unfinished (exec movedFrom) (Failing t u) (· = .idle) fun _ => True) (Contending t u)
      (c, l) := by
  obtain ⟨ht, p, n, hu, hp, hn, hle⟩ := h
  let o : Oracle Addr A := ⟨.pop, p.addr, false⟩
  let e₁ : CountedNodePtr Addr := c.shared.head.counted
  let s₁ : Shared Tid Addr A := { c.shared with head := e₁ }
  let s₂ : Shared Tid Addr A := { s₁ with mem := s₁.mem.write p n.released }
  let s₃ : Shared Tid Addr A := { s₂ with head := e₁.counted }
  let s₄ : Shared Tid Addr A := { s₃ with mem := s₃.mem.write p n.released.released }
  have hn₂ : s₂.mem.read p = some n.released := Memory.read_write_self hn
  have hn₄ : s₄.mem.read p = some n.released.released := Memory.read_write_self hn₂
  have hfirst : s₁.head ≠ c.shared.head := c.shared.head.counted_ne
  have hsecond : s₃.head ≠ e₁ := e₁.counted_ne
  refine ⟨[(t, o), (u, o), (u, o), (u, o), (t, o), (t, o), (t, o), (u, o)], rfl, ?_⟩
  refine rest_failing ht (exec_count hp hn) rfl (.inl rfl) (by simp) (by simp) ?_
  refine rest_failing (x := .unlink c.shared.head p n.next) (by simp [htu.symm, hu])
    (exec_unlink hfirst) rfl (.inr rfl) (by rintro _ _ _ ⟨⟩; exact hfirst) (by simp) ?_
  refine rest_failing (Function.update_self ..) (exec_subCount (s := s₁) hn hle) rfl (.inr rfl)
    (by simp) (by simp) ?_
  refine rest_failing (Function.update_self ..) (exec_count (s := s₂) hp hn₂) rfl (.inr rfl)
    (by simp) (by simp) ?_
  refine rest_failing (x := .readNext e₁ p) (by simp [htu]; rfl) (exec_readNext (s := s₃) hn₂) rfl
    (.inl rfl) (by simp) (by simp) ?_
  refine rest_failing (Function.update_self ..) (exec_unlink hsecond) rfl (.inl rfl)
    (by rintro _ _ _ ⟨⟩; exact hsecond) (by simp) ?_
  refine rest_failing (Function.update_self ..) (exec_subCount (s := s₃) hn₂ (released_le hle)) rfl
    (.inl rfl) (by simp) (by simp) ?_
  refine rest_failing (x := .readNext e₁.counted p) (by simp [htu.symm]; rfl)
    (exec_readNext (s := s₄) hn₄) rfl (.inr rfl) (by simp) (by simp)
    (.done ⟨?_, p, n.released.released, ?_, hp, hn₄, ?_⟩)
  · simp [htu]
    rfl
  · simp
    rfl
  · exact released_le (released_le hle)

theorem exists_contending (htu : t ≠ u) (v : A) (a : Addr) :
    ∃ c : Config Tid (Shared Tid Addr A) (PC Addr A),
      Reach (exec movedFrom) (· = start) c ∧ Contending t u c := by
  let push : Oracle Addr A := ⟨.push v, a, false⟩
  let pop : Oracle Addr A := ⟨.pop, a, false⟩
  let p : Ptr Addr := ⟨a, 0⟩
  let s₀ : Shared Tid Addr A := ⟨{}, Memory.empty, [], fun _ => []⟩
  let s₁ : Shared Tid Addr A := { s₀ with mem := s₀.mem.alloc a { data := v } }
  let s₂ : Shared Tid Addr A := { s₁ with mem := s₁.mem.write p { data := v } }
  let s₃ : Shared Tid Addr A := { s₂ with head := { ptr := some a }, history := [.push t v] }
  let s₄ : Shared Tid Addr A := { s₃ with head := s₃.head.counted }
  have hn₁ : s₁.mem.read p = some { data := v } := Memory.read_alloc_fresh
  have hn₂ : s₂.mem.read p = some { data := v } := Memory.read_write_self hn₁
  have hnew : exec movedFrom t push s₀ (.newNode v) = .ok (s₁, .loadNext v p) := rfl
  have hload : exec movedFrom t push s₁ (.loadNext v p) = .ok (s₂, .pushCas v p) :=
    Memory.access_of_read hn₁
  have hcas : exec movedFrom t push s₂ (.pushCas v p) = .ok (s₃, .idle) :=
    (Memory.access_of_read hn₂).trans (if_pos ⟨rfl, rfl⟩)
  have hcount : exec movedFrom u pop s₃ (.count s₃.head) = .ok (s₄, .readNext s₄.head p) :=
    exec_count rfl hn₂
  have hread : exec movedFrom u pop s₄ (.readNext s₄.head p) = .ok (s₄, .unlink s₄.head p {}) :=
    exec_readNext (s := s₄) hn₂
  have hrest : Rest (exec movedFrom) (Unfinished (exec movedFrom) Strong (· = .idle) fun _ => False)
      (Contending t u) (start, List.replicate 4 (t, push) ++ List.replicate 4 (u, pop) ++
        List.replicate 2 (t, pop)) := by
    refine .at (x := .idle) rfl rfl rfl False.elim ?_
    refine .at (Function.update_self ..) hnew rfl False.elim ?_
    refine .at (Function.update_self ..) hload rfl False.elim ?_
    refine .at (Function.update_self ..) hcas rfl False.elim ?_
    refine .at (x := .idle) (by simp [htu.symm, start]) rfl rfl False.elim ?_
    refine .at (Function.update_self ..) rfl rfl False.elim ?_
    refine .at (Function.update_self ..) hcount rfl False.elim ?_
    refine .at (Function.update_self ..) hread rfl False.elim ?_
    refine .at (x := .idle) (by simp [htu]) rfl rfl False.elim ?_
    refine .at (Function.update_self ..) rfl rfl False.elim (.done ⟨?_, p, { data := v }, ?_, rfl,
      hn₂, le_rfl⟩)
    · simp
    · simp [htu.symm]
  obtain ⟨c, hrun, -, hc⟩ := hrest
  exact ⟨c, ReachIf.run (.start rfl) hrun, hc⟩

/-- A run of two pops, each of which counts itself in and makes the exchange of the
other fail, again and again. No call returns. -/
structure Livelock (movedFrom : A → A) (t u : Tid)
    (e : Execution (exec movedFrom : Code Tid (Oracle Addr A) (Shared Tid Addr A) (PC Addr A))
      Strong) : Prop where
  reach : Reach (exec movedFrom) (· = start) (e.config 0)
  threads : ∀ n, e.thread n = t ∨ e.thread n = u
  returns : ∀ n, ¬ e.Returns (· = .idle) n
  fails : ∀ n old p next, (e.config n).pc (e.thread n) = .unlink old p next →
    (e.config n).shared.head ≠ old
  tries : ∀ x, x = t ∨ x = u → ∀ n, ∃ m, n ≤ m ∧ e.thread m = x ∧
    ∃ old p next, (e.config m).pc x = .unlink old p next

/-- If counts were integers of any size, two pops could go on for ever. -/
theorem split_ref_count_not_lock_free [Nonempty Addr] [Nonempty A] (htu : t ≠ u)
    (movedFrom : A → A) :
    (∃ e : Execution (exec movedFrom : Code Tid (Oracle Addr A) _ (PC Addr A)) Strong,
      Livelock movedFrom t u e) ∧
    ¬ LockFree (exec movedFrom : Code Tid (Oracle Addr A) (Shared Tid Addr A) (PC Addr A))
      (· = start) Strong (· = .idle) := by
  have v : A := Classical.choice inferInstance
  have a : Addr := Classical.choice inferInstance
  obtain ⟨c, hc, hcontend⟩ := @exists_contending Tid Addr A _ _ movedFrom t u htu v a
  have hround : ∀ d : Config Tid (Shared Tid Addr A) (PC Addr A), Contending t u d →
      ∃ l, l.map Prod.fst = [t, u, u, u, t, t, t, u] ∧ Rest (exec movedFrom)
        (Unfinished (exec movedFrom) (Failing t u) (· = .idle) fun _ => True) (Contending t u)
        (d, l) := fun d hd => hd.round htu
  obtain ⟨e, rfl, hthread, hround⟩ := exists_execution (by simp) hround hcontend
  have hnever : ∀ n, ¬ e.Returns (· = .idle) n := fun n => e.not_returns trivial
  have hother : ∀ m x y, e.thread m = x → x ≠ y → (e.config (m + 1)).pc y = (e.config m).pc y :=
    fun m x y hm hne => e.pc_of_ne (hm ▸ hne.symm)
  have hu : ∀ n, ∃ old p next, (e.config (n * 8 + 1)).pc u = .unlink old p next := by
    intro n
    obtain ⟨-, p, x, hpc, -⟩ := hround n
    exact ⟨_, p, x.next, (hother _ t u (hthread n 0 t rfl) htu).trans hpc⟩
  have ht : ∀ n, ∃ old p next, (e.config (n * 8 + 5)).pc t = .unlink old p next := by
    intro n
    obtain ⟨hpc, p, x, -, hp, hx, -⟩ := hround n
    obtain ⟨r, hr, hread⟩ := e.exists_exec (hthread n 0 t rfl) hpc
    cases (exec_count hp hx).symm.trans hr
    have hread₄ := (hother _ u t (hthread n 3 u rfl) htu.symm).trans
      ((hother _ u t (hthread n 2 u rfl) htu.symm).trans
        ((hother _ u t (hthread n 1 u rfl) htu.symm).trans hread))
    obtain ⟨r, hr, hnext⟩ := e.exists_exec (hthread n 4 t rfl) hread₄
    obtain ⟨next, he⟩ := exists_unlink hr
    exact ⟨_, p, next, hnext.trans he⟩
  have hlive : Livelock movedFrom t u (e.mono fun _ _ _ h => h.1.1) := by
    refine ⟨hc, fun n => (e.guarded n).1.2.1, hnever, fun n => (e.guarded n).1.2.2, ?_⟩
    rintro x (rfl | rfl) n
    · exact ⟨n * 8 + 5, by omega, hthread n 5 x rfl, ht n⟩
    · exact ⟨n * 8 + 1, by omega, hthread n 1 x rfl, hu n⟩
  refine ⟨⟨_, hlive⟩, fun hfree => ?_⟩
  obtain ⟨m, -, hr⟩ := hfree (e.mono fun _ _ _ h => h.1.1) hc 0
  exact hnever m hr

theorem split_ref_count_not_lock_free_two :
    (∃ e : Execution (exec id : Code (Fin 2) (Oracle ℕ ℕ) _ (PC ℕ ℕ)) Strong, Livelock id 0 1 e) ∧
    ¬ LockFree (exec id : Code (Fin 2) (Oracle ℕ ℕ) (Shared (Fin 2) ℕ ℕ) (PC ℕ ℕ))
      (· = start) Strong (· = .idle) :=
  split_ref_count_not_lock_free Fin.zero_ne_one id

end CsNotes.SplitRefCount
