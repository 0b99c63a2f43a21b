import CsNotes.Lib.References
import CsNotes.LockfreeStack.Model

/-!
# Who owns the nodes of the stack

A node is owned by `head`, by the node whose `next` it is, and by the threads
that have shared pointers to it. Its use count counts them all. So a node that
anybody can get at is alive, and one that is deleted is owned by nobody.
-/
namespace CsNotes.LockfreeStack.SharedPtr
open Interleaving Storage History References

inductive Owner (Tid Addr : Type*) where
  | head
  | node (p : Ptr Addr)
  | thread (t : Tid)
deriving DecidableEq

variable {Tid Addr A : Type*}

/-- The shared pointers a thread has. -/
def PC.held : PC Addr A → List (Ptr Addr)
  | loadNext _ p | copyNew _ p | readNext p | takeData p => [p]
  | pushCas _ p => [p, p]
  | popCas p next => p :: next.toList
  | release p ps k => p :: (ps ++ k.held)
  | _ => []

def nexts (m : Memory Addr (Node Addr A)) (p : Ptr Addr) : List (Ptr Addr) :=
  (m.read p).elim [] fun n => n.next.toList

def uses (m : Memory Addr (Node Addr A)) (p : Ptr Addr) : ℕ := (m.read p).elim 0 Node.useCount

def refs (c : Config Tid (Shared Tid Addr A) (PC Addr A)) : Owner Tid Addr → List (Ptr Addr)
  | .head => c.shared.head.toList
  | .node p => nexts c.shared.mem p
  | .thread t => (c.pc t).held

variable [DecidableEq Tid] [DecidableEq Addr]

/-- Every use count is the number of owners. -/
def Owned (c : Config Tid (Shared Tid Addr A) (PC Addr A)) : Prop :=
  Counted (refs c) (uses c.shared.mem)

variable {s s' : Shared Tid Addr A} {c : Config Tid (Shared Tid Addr A) (PC Addr A)}
variable {m : Memory Addr (Node Addr A)} {p q : Ptr Addr} {n n' : Node Addr A}
variable {x : Option (Ptr Addr)} {t : Tid} {ps : List (Ptr Addr)} {k : PC Addr A}

omit [DecidableEq Addr] in
@[simp] theorem held_after : (PC.after ps k).held = ps ++ k.held := by
  cases ps <;> rfl

omit [DecidableEq Addr] in
theorem exists_of_uses (h : 0 < uses m p) : ∃ n, m.read p = some n := by
  unfold uses at h
  cases hr : m.read p with
  | none => simp [hr] at h
  | some n => exact ⟨n, rfl⟩

theorem Owned.alive (h : Owned c) {o : Owner Tid Addr} (hp : p ∈ refs c o) :
    ∃ n, c.shared.mem.read p = some n :=
  exists_of_uses (h.pos hp)

theorem Owned.alive_head (h : Owned c) : ∀ p ∈ c.shared.head, ∃ n, c.shared.mem.read p = some n :=
  fun _ hp => h.alive (o := .head) (Option.mem_toList.mpr hp)

theorem Owned.alive_held (h : Owned c) (hp : p ∈ (c.pc t).held) :
    ∃ n, c.shared.mem.read p = some n :=
  h.alive (o := .thread t) hp

omit [DecidableEq Addr] in
theorem uses_of (hp : m.read p = some n) : uses m p = n.useCount := by
  unfold uses
  rw [hp]
  rfl

omit [DecidableEq Addr] in
theorem nexts_of (hp : m.read p = some n) : nexts m p = n.next.toList := by
  unfold nexts
  rw [hp]
  rfl

theorem Owned.alive_next (h : Owned c) (hp : c.shared.mem.read p = some n) :
    ∀ q ∈ n.next, ∃ d, c.shared.mem.read q = some d := by
  intro q hq
  refine h.alive (o := .node p) ?_
  change q ∈ nexts c.shared.mem p
  rw [nexts_of hp]
  exact Option.mem_toList.mpr hq

theorem uses_alloc {a : Addr} (ha : m.cell a = none) :
    uses (m.alloc a n) q = if q = m.fresh a then n.useCount else uses m q := by
  unfold uses
  rw [Memory.read_alloc ha]
  split <;> rfl

theorem nexts_alloc {a : Addr} (ha : m.cell a = none) :
    nexts (m.alloc a n) q = if q = m.fresh a then n.next.toList else nexts m q := by
  unfold nexts
  rw [Memory.read_alloc ha]
  split <;> rfl

theorem uses_write (hp : m.read p = some n) :
    uses (m.write p n') q = if q = p then n'.useCount else uses m q := by
  unfold uses
  rw [Memory.read_write hp]
  split <;> rfl

theorem uses_write_same (hp : m.read p = some n) (hn : n'.useCount = n.useCount) :
    uses (m.write p n') q = uses m q := by
  rw [uses_write hp]
  split
  · rename_i hq
    rw [hq, uses_of hp, hn]
  · rfl

theorem nexts_write (hp : m.read p = some n) :
    nexts (m.write p n') q = if q = p then n'.next.toList else nexts m q := by
  unfold nexts
  rw [Memory.read_write hp]
  split <;> rfl

theorem nexts_write_same (hp : m.read p = some n) (hn : n'.next = n.next) :
    nexts (m.write p n') q = nexts m q := by
  rw [nexts_write hp]
  split
  · rename_i hq
    rw [hq, nexts_of hp, hn]
  · rfl

theorem uses_free (hp : m.read p = some n) :
    uses (m.free p) q = if q = p then 0 else uses m q := by
  unfold uses
  rw [Memory.read_free hp]
  split <;> rfl

theorem nexts_free (hp : m.read p = some n) :
    nexts (m.free p) q = if q = p then [] else nexts m q := by
  unfold nexts
  rw [Memory.read_free hp]
  split <;> rfl

omit [DecidableEq Addr] in
/-- The loop of pop goes on with the copy of `head` and what is to be released. -/
theorem held_test : (s.test t ps).2.held = ps ++ s.head.toList := by
  unfold Shared.test
  split <;> rename_i hhead <;> simp [hhead, PC.held]

omit [DecidableEq Addr] in
theorem mem_test : (s.test t ps).1.mem = s.mem ∧ (s.test t ps).1.head = s.head := by
  unfold Shared.test
  split
  · exact ⟨rfl, rfl⟩
  · exact ⟨rfl, rfl⟩

/-- A step of `t` keeps the counts if it does so for the pointers in `head` and in
its own hands, and for the `next` of the nodes in `Q`. -/
theorem Owned.step {r : Shared Tid Addr A × PC Addr A} (h : Owned c) (Q : Finset (Ptr Addr))
    (hnexts : ∀ p, p ∉ Q → nexts r.1.mem p = nexts c.shared.mem p)
    (hsum : ∀ k, uses r.1.mem k + (c.shared.head.toList.count k +
        ((c.pc t).held.count k + ∑ q ∈ Q, (nexts c.shared.mem q).count k)) =
      uses c.shared.mem k + (r.1.head.toList.count k +
        (r.2.held.count k + ∑ q ∈ Q, (nexts r.1.mem q).count k))) :
    Owned (⟨r.1, Function.update c.pc t r.2⟩ : Config Tid _ _) := by
  refine h.change (insert .head (insert (.thread t) (Q.image .node))) (fun o ho => ?_) fun k => ?_
  · simp only [Finset.mem_insert, not_or] at ho
    obtain ⟨hhead, hthread, hnode⟩ := ho
    cases o with
    | head => exact (hhead rfl).elim
    | node p => exact hnexts p fun hp => hnode (Finset.mem_image_of_mem _ hp)
    | thread u =>
        have hut : u ≠ t := fun hu => hthread (congrArg Owner.thread hu)
        exact congrArg PC.held (Function.update_of_ne hut _ _)
  · have hinj : Set.InjOn (Owner.node : Ptr Addr → Owner Tid Addr) Q :=
      fun _ _ _ _ h => Owner.node.inj h
    rw [Finset.sum_insert (by simp), Finset.sum_insert (by simp), Finset.sum_image hinj,
      Finset.sum_insert (by simp), Finset.sum_insert (by simp), Finset.sum_image hinj]
    simpa only [refs, Function.update_self] using hsum k

/-- What a node holds beside its use count. -/
def Node.content (n : Node Addr A) : A × Option (Ptr Addr) := (n.data, n.next)

/-- The shared pointer `x` is copied. -/
structure Copied (s : Shared Tid Addr A) (x : Option (Ptr Addr)) (s' : Shared Tid Addr A) :
    Prop where
  head : s'.head = s.head
  history : s'.history = s.history
  returned : s'.returned = s.returned
  allocs : s'.mem.allocs = s.mem.allocs
  content : ∀ p, (s'.mem.read p).map Node.content = (s.mem.read p).map Node.content
  uses : ∀ k, uses s'.mem k = uses s.mem k + x.toList.count k

omit [DecidableEq Tid] in
theorem Copied.nexts (h : Copied s x s') (p : Ptr Addr) : nexts s'.mem p = nexts s.mem p := by
  have hcontent : ∀ m : Memory Addr (Node Addr A), SharedPtr.nexts m p =
      ((m.read p).map Node.content).elim [] fun n => n.2.toList := by
    intro m
    unfold SharedPtr.nexts
    cases m.read p <;> rfl
  rw [hcontent, hcontent, h.content]

omit [DecidableEq Tid] in
theorem Copied.read (h : Copied s x s') (hn : s.mem.read p = some n) :
    ∃ n', s'.mem.read p = some n' ∧ n'.data = n.data ∧ n'.next = n.next := by
  have hc := h.content p
  rw [hn] at hc
  obtain ⟨n', hn', he⟩ := Option.map_eq_some_iff.mp hc
  exact ⟨n', hn', congrArg Prod.fst he, congrArg Prod.snd he⟩

omit [DecidableEq Tid] in
theorem copied_none : Copied s none s :=
  ⟨rfl, rfl, rfl, rfl, fun _ => rfl, fun _ => rfl⟩

omit [DecidableEq Tid] in
theorem copied_some (hp : s.mem.read p = some n) :
    Copied s (some p) (s.write p { n with useCount := n.useCount + 1 }) := by
  refine ⟨rfl, rfl, rfl, rfl, fun q => ?_, fun k => ?_⟩
  · change ((s.mem.write p _).read q).map _ = _
    rw [Memory.read_write hp]
    split
    · rename_i hq
      rw [hq, hp]
      rfl
    · rfl
  · change uses (s.mem.write p _) k = _
    rw [uses_write hp]
    split
    · rename_i hk
      subst hk
      simp [uses, hp]
    · rename_i hk
      simp [Ne.symm hk]

omit [DecidableEq Tid] in
theorem copy_sat {P : Shared Tid Addr A × PC Addr A → Prop}
    {f : Shared Tid Addr A → Outcome (Shared Tid Addr A × PC Addr A)}
    (hx : ∀ p ∈ x, ∃ n, s.mem.read p = some n) (hf : ∀ s', Copied s x s' → (f s').Sat P) :
    (s.copy x f).Sat P := by
  cases x with
  | none => exact hf s copied_none
  | some p =>
      obtain ⟨n, hn⟩ := hx p rfl
      unfold Shared.copy
      change (s.mem.access p _).Sat P
      rw [Memory.access_of_read hn]
      exact hf _ (copied_some hn)

variable {movedFrom : A → A} {o : Oracle Addr A} {v : A}

/-- The counts after a step of `t` to `r`. -/
def OwnedAfter (c : Config Tid (Shared Tid Addr A) (PC Addr A)) (t : Tid)
    (r : Shared Tid Addr A × PC Addr A) : Prop :=
  Owned (⟨r.1, Function.update c.pc t r.2⟩ : Config Tid _ _)

theorem Owned.moved (h : Owned c) {r : Shared Tid Addr A × PC Addr A}
    (hmem : r.1.mem = c.shared.mem)
    (hcount : ∀ q, c.shared.head.toList.count q + (c.pc t).held.count q =
      r.1.head.toList.count q + r.2.held.count q) : OwnedAfter c t r := by
  refine h.step ∅ (fun p _ => by rw [hmem]) fun q => ?_
  rw [hmem, Finset.sum_empty, Nat.add_zero, Nat.add_zero, hcount]

theorem Owned.copied (h : Owned c) {f : Shared Tid Addr A → Shared Tid Addr A × PC Addr A}
    (hx : ∀ p ∈ x, ∃ n, c.shared.mem.read p = some n)
    (hf : ∀ s, Copied c.shared x s → (f s).1.mem = s.mem ∧ (f s).1.head = s.head ∧
      ∀ q, (f s).2.held.count q = (c.pc t).held.count q + x.toList.count q) :
    (c.shared.copy x fun s => .ok (f s)).Sat (OwnedAfter c t) := by
  refine copy_sat hx fun s hs => ?_
  obtain ⟨hmem, hhead, hheld⟩ := hf s hs
  refine h.step ∅ (fun p _ => by rw [hmem, hs.nexts]) fun q => ?_
  rw [hmem, hhead, hs.uses, hs.head, hheld, Finset.sum_empty, Finset.sum_empty]
  omega

theorem Owned.newNode_sat (h : Owned c) (hpc : c.pc t = .newNode v) :
    (exec movedFrom t o c.shared (.newNode v)).Sat (OwnedAfter c t) := by
  simp only [exec]
  split
  case isFalse => trivial
  case isTrue ha =>
    have hnone : c.shared.mem.read (c.shared.mem.fresh o.addr) = none := by
      unfold Memory.read
      rw [Memory.fresh_addr, ha]
      rfl
    refine h.step {c.shared.mem.fresh o.addr} (fun p hp => ?_) fun k => ?_
    · rw [nexts_alloc ha, if_neg (by simpa using hp)]
    · simp only [uses_alloc ha, nexts_alloc ha, Finset.sum_singleton, if_true, hpc, PC.held]
      by_cases hk : k = c.shared.mem.fresh o.addr
      · subst hk
        simp [uses, nexts, hnone]
        omega
      · simp [hk, Ne.symm hk, nexts, hnone]

theorem Owned.relink_sat (h : Owned c) (hheld : (c.pc t).held = p :: ps)
    (hn : c.shared.mem.read p = some n) : (c.shared.relink v p ps).Sat (OwnedAfter c t) := by
  refine copy_sat h.alive_head fun s hs => ?_
  obtain ⟨n₁, hn₁, -, -⟩ := hs.read hn
  rw [Memory.access_of_read hn₁]
  refine h.step {p} (fun q hq => ?_) fun k => ?_
  · change nexts (s.mem.write p _) q = _
    rw [nexts_write hn₁, if_neg (by simpa using hq), hs.nexts]
  · change uses (s.mem.write p _) k + _ = _ + (s.head.toList.count k +
      (_ + ∑ q ∈ {p}, (nexts (s.mem.write p _) q).count k))
    have huses : uses (s.mem.write p { n₁ with next := s.head }) k = uses s.mem k :=
      uses_write_same hn₁ rfl
    rw [huses, hs.uses, hs.head, Finset.sum_singleton, Finset.sum_singleton, ← hs.nexts p,
      nexts_of hn₁, nexts_write hn₁, if_pos rfl, hheld]
    simp [PC.held, List.count_cons]
    omega

theorem Owned.takeData_sat (h : Owned c) (hpc : c.pc t = .takeData p) :
    (exec movedFrom t o c.shared (.takeData p)).Sat (OwnedAfter c t) := by
  obtain ⟨n, hn⟩ := h.alive_held (t := t) (p := p) (by simp [hpc, PC.held])
  simp only [exec, Memory.access_of_read hn]
  refine h.step ∅ (fun q _ => nexts_write_same hn rfl) fun k => ?_
  have huses : uses (c.shared.mem.write p { n with data := movedFrom n.data }) k =
      uses c.shared.mem k := uses_write_same hn rfl
  change uses (c.shared.mem.write p _) k + _ = _
  rw [huses, hpc]
  rfl

/-- One owner less. The last one leaves the `next` of the node to the thread. -/
theorem Owned.release_sat (h : Owned c) (hpc : c.pc t = .release p ps k) :
    (exec movedFrom t o c.shared (.release p ps k)).Sat (OwnedAfter c t) := by
  obtain ⟨n, hn⟩ := h.alive_held (t := t) (p := p) (by simp [hpc, PC.held])
  have hpos : 0 < uses c.shared.mem p := h.pos (o := .thread t) (by simp [refs, hpc, PC.held])
  rw [uses_of hn] at hpos
  simp only [exec, Memory.access_of_read hn]
  split
  · refine h.step {p} (fun q hq => ?_) fun q => ?_
    · rw [nexts_free hn, if_neg (by simpa using hq)]
    · simp [uses_free hn, nexts_free hn, nexts_of hn, hpc, PC.held, List.count_cons]
      by_cases hq : q = p
      · subst hq
        rw [if_pos rfl, if_pos rfl, uses_of hn]
        omega
      · rw [if_neg hq, if_neg (Ne.symm hq)]
        omega
  · refine h.step ∅ (fun q _ => nexts_write_same hn rfl) fun q => ?_
    change uses (c.shared.mem.write p _) q + _ = _ + (c.shared.head.toList.count q + _)
    rw [uses_write hn, hpc]
    simp [PC.held, List.count_cons]
    by_cases hq : q = p
    · subst hq
      rw [if_pos rfl, if_pos rfl, uses_of hn]
      omega
    · rw [if_neg hq, if_neg (Ne.symm hq)]
      omega

theorem Owned.exec_sat (h : Owned c) :
    (exec movedFrom t o c.shared (c.pc t)).Sat (OwnedAfter c t) := by
  have hheld : ∀ {p}, p ∈ (c.pc t).held → ∃ n, c.shared.mem.read p = some n := h.alive_held
  cases hpc : c.pc t <;> rw [hpc] at hheld
  case idle =>
    simp only [exec]
    split
    · exact h.moved rfl fun q => by simp [hpc, PC.held]
    · exact h.moved rfl fun q => by simp [hpc, PC.held]
  case newNode v => exact h.newNode_sat hpc
  case loadNext v p =>
    obtain ⟨n, hn⟩ := hheld (p := p) (by simp [PC.held])
    exact h.relink_sat (by rw [hpc]; rfl) hn
  case copyNew v p =>
    have hp : ∀ q ∈ some p, ∃ n, c.shared.mem.read q = some n :=
      fun q hq => Option.some.inj hq ▸ hheld (by simp [PC.held])
    simp only [exec]
    refine h.copied hp fun s hs => ⟨rfl, rfl, fun q => ?_⟩
    simp [hpc, PC.held, List.count_cons]
  case pushCas v p =>
    obtain ⟨n, hn⟩ := hheld (p := p) (by simp [PC.held])
    simp only [exec, Memory.access_of_read hn]
    split
    · refine h.moved rfl fun q => ?_
      simp [hpc, PC.held, List.count_cons]
      omega
    · exact h.relink_sat (by rw [hpc]; rfl) hn
  case loadHead =>
    simp only [exec]
    refine h.copied h.alive_head fun s hs => ⟨mem_test.1, mem_test.2, fun q => ?_⟩
    simp [held_test, hpc, PC.held, hs.head]
  case readNext p =>
    obtain ⟨n, hn⟩ := hheld (p := p) (by simp [PC.held])
    simp only [exec, Memory.access_of_read hn]
    refine h.copied (h.alive_next hn) fun s hs => ⟨rfl, rfl, fun q => ?_⟩
    simp [hpc, PC.held, List.count_cons]
    omega
  case popCas p next =>
    simp only [exec]
    split
    · refine h.moved rfl fun q => ?_
      simp [hpc, PC.held, List.count_cons]
      omega
    · refine h.copied h.alive_head fun s hs => ⟨mem_test.1, mem_test.2, fun q => ?_⟩
      simp [held_test, hpc, PC.held, hs.head, List.count_cons]
      omega
  case takeData p => exact h.takeData_sat hpc
  case release p ps k => exact h.release_sat hpc

theorem owned_of_reach (hc : Reach (exec movedFrom) (· = start) c) : Owned c := by
  induction hc with
  | start h =>
      subst h
      refine ⟨∅, fun o _ => ?_, fun _ => rfl⟩
      cases o <;> rfl
  | step _ _ hd ih =>
      obtain ⟨r, hx, rfl⟩ := Outcome.map_eq_ok.mp hd
      exact ih.exec_sat.of_ok hx

/-- A pointer to `p` is met when following `next` from a pointer. -/
inductive InStack (m : Memory Addr (Node Addr A)) : Option (Ptr Addr) → Ptr Addr → Prop
  | here {p : Ptr Addr} : InStack m (some p) p
  | next {p q : Ptr Addr} {n : Node Addr A} :
      m.read p = some n → InStack m n.next q → InStack m (some p) q

omit [DecidableEq Tid] in
theorem copy_eq_ok {f : Shared Tid Addr A → Outcome (Shared Tid Addr A × PC Addr A)}
    {r : Shared Tid Addr A × PC Addr A} (h : s.copy x f = .ok r) :
    ∃ s', Copied s x s' ∧ f s' = .ok r := by
  cases x with
  | none => exact ⟨s, copied_none, h⟩
  | some p =>
      obtain ⟨n, hn, h⟩ := Memory.access_eq_ok.mp h
      exact ⟨_, copied_some hn, h⟩

omit [DecidableEq Tid] in
theorem copy_keeps {f : Shared Tid Addr A → Outcome (Shared Tid Addr A × PC Addr A)}
    {r : Shared Tid Addr A × PC Addr A} (h : s.copy x f = .ok r)
    (hf : ∀ s', f s' = .ok r → r.1.mem = s'.mem) (hn : s.mem.read p = some n) :
    ∃ n', r.1.mem.read p = some n' := by
  obtain ⟨s', hs, h⟩ := copy_eq_ok h
  obtain ⟨n', hn', -⟩ := hs.read hn
  rw [hf s' h]
  exact ⟨n', hn'⟩

omit [DecidableEq Tid] in
theorem relink_eq_ok {r : Shared Tid Addr A × PC Addr A} (h : s.relink v p ps = .ok r) :
    ∃ s' n, Copied s s.head s' ∧ s'.mem.read p = some n ∧
      r = (s'.write p { n with next := s'.head }, .after (n.next.toList ++ ps) (.copyNew v p)) := by
  obtain ⟨s', hs, h⟩ := copy_eq_ok h
  obtain ⟨n, hn, h⟩ := Memory.access_eq_ok.mp h
  cases h
  exact ⟨s', n, hs, hn, rfl⟩

theorem deletes {r : Shared Tid Addr A × PC Addr A} (h : exec movedFrom t o s k = .ok r)
    (hn : s.mem.read p = some n) (hr : r.1.mem.read p = none) :
    r.1 = { s with mem := s.mem.free p } := by
  have hgone : ∀ {P : Prop}, (∃ n', r.1.mem.read p = some n') → P := by
    rintro P ⟨n', hn'⟩
    exact (Option.some_ne_none n' (hn'.symm.trans hr)).elim
  have hsame : ∀ {P : Prop}, r.1.mem = s.mem → P := fun hm => hgone ⟨n, hm ▸ hn⟩
  have hwrite : ∀ {P : Prop} q n', r.1.mem = s.mem.write q n' → P := fun q n' hm =>
    hgone (hm ▸ Memory.exists_read_write hn)
  have hrelink : ∀ {P : Prop} {v q ps}, s.relink v q ps = .ok r → P := by
    intro P v q ps h
    obtain ⟨s', n₂, hs, -, rfl⟩ := relink_eq_ok h
    obtain ⟨n', hn', -⟩ := hs.read hn
    exact hgone (Memory.exists_read_write hn')
  cases k with
  | idle =>
      simp only [exec] at h
      split at h <;> cases h <;> exact hsame rfl
  | newNode v =>
      simp only [exec] at h
      split at h <;> cases h
      rename_i ha
      have hne : p.addr ≠ o.addr := Memory.addr_ne_of_read hn ha
      exact hgone ⟨n, (Memory.eqOff_alloc.read hne).trans hn⟩
  | loadNext v q => exact hrelink h
  | copyNew v q =>
      simp only [exec] at h
      refine hgone (copy_keeps h (fun s' h => ?_) hn)
      cases h
      rfl
  | pushCas v q =>
      obtain ⟨n₁, -, h⟩ := Memory.access_eq_ok.mp h
      split at h
      · cases h
        exact hsame rfl
      · exact hrelink h
  | loadHead =>
      simp only [exec] at h
      refine hgone (copy_keeps h (fun s' h => ?_) hn)
      cases h
      exact mem_test.1
  | readNext q =>
      obtain ⟨n₁, -, h⟩ := Memory.access_eq_ok.mp h
      refine hgone (copy_keeps h (fun s' h => ?_) hn)
      cases h
      rfl
  | popCas q next =>
      simp only [exec] at h
      split at h
      · cases h
        exact hsame rfl
      · refine hgone (copy_keeps h (fun s' h => ?_) hn)
        cases h
        exact mem_test.1
  | takeData q =>
      obtain ⟨n₁, -, h⟩ := Memory.access_eq_ok.mp h
      cases h
      exact hwrite _ _ rfl
  | release q ps k =>
      obtain ⟨n₁, hn₁, h⟩ := Memory.access_eq_ok.mp h
      split at h <;> cases h
      · by_cases hpq : p = q
        · rw [hpq]
        · have hr' : (s.mem.free q).read p = none := hr
          rw [Memory.read_free hn₁, if_neg hpq, hn] at hr'
          cases hr'
      · exact hwrite _ _ rfl

omit [DecidableEq Tid] in
/-- A way from a pointer to `p` does not pass `p` before, so what holds without `p`
rules it out. -/
theorem not_inStack (hn : m.read p = some n) (hnode : ∀ q, p ∉ nexts (m.free p) q)
    (hx : p ∉ x.toList) : ¬ InStack m x p := by
  intro h
  induction h with
  | here => exact hx (by simp)
  | @next q p n' hq _ ih =>
      have hqp : q ≠ p := by
        rintro rfl
        exact hx (by simp)
      have hq' : (m.free p).read q = some n' := by
        rw [Memory.read_free hn, if_neg hqp, hq]
      exact ih hn hnode (nexts_of hq' ▸ hnode q)

/-- Where a node is deleted, it is not in the stack, and no thread has a shared
pointer to it any more. -/
theorem Owned.deleted {d : Config Tid (Shared Tid Addr A) (PC Addr A)} (hd : Owned d)
    (h : c.advance (exec movedFrom) t o = .ok d) (hn : c.shared.mem.read p = some n)
    (hp : d.shared.mem.read p = none) :
    ¬ InStack c.shared.mem c.shared.head p ∧ ∀ u, p ∉ (d.pc u).held := by
  have hzero : uses d.shared.mem p = 0 := by
    unfold uses
    rw [hp]
    rfl
  have hnone := hd.not_mem hzero
  obtain ⟨r, hx, rfl⟩ := Outcome.map_eq_ok.mp h
  have hr := deletes hx hn hp
  constructor
  · refine not_inStack hn (fun q => ?_) ?_
    · have hq := hnone (.node q)
      rwa [hr] at hq
    · have hhead := hnone .head
      rwa [hr] at hhead
  · exact fun u => hnone (.thread u)

end CsNotes.LockfreeStack.SharedPtr
