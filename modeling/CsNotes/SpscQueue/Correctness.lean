import CsNotes.Lib.Solo
import CsNotes.SpscQueue.Preservation

/-!
# The queue is first in, first out

Whatever the two threads have done so far, the pops have returned a prefix of what
was pushed, and no lifetime rule was broken. The destructor comes to an end, for it
deletes a node with every pop.
-/
namespace CsNotes.SpscQueue
open Interleaving Storage History Segment

variable {Addr A : Type*} {s : Shared Addr A} {g : Ghost Addr A} {p : Ptr Addr}
variable {pc : PC Addr A}

/-- The node which the consumer is about to access in a pop. -/
def PC.touched (s : Shared Addr A) : PC Addr A → Option (Ptr Addr)
  | readNext _ => s.head
  | takeData _ old | destroyData _ old _ | deleteNode _ old _ => some old
  | _ => none

def PC.isDestroyed : PC Addr A → Bool
  | destroyed => true
  | _ => false

/-- How far a pop is from its return. -/
def PC.stage : PC Addr A → ℕ
  | loadTail _ => 7
  | compare _ _ => 6
  | readNext _ => 5
  | moveHead _ _ _ => 4
  | takeData _ _ => 3
  | destroyData _ _ _ => 2
  | deleteNode _ _ _ | deleteHead => 1
  | _ => 0

variable [DecidableEq Addr] {c d : Config Thread (Shared Addr A) (PC Addr A)}
variable {movedFrom : A → A}

/-- The consumer's steps to the end of the destructor: eight for every live node. -/
def rank (c : Config Thread (Shared Addr A) (PC Addr A)) : ℕ :=
  8 * (c.shared.mem.allocs - c.shared.deleted.length) + (c.pc .consumer).stage

/-- A queue of one producer and one consumer: what pops return, which nodes are
touched, and that every value and every node is got rid of once. -/
structure Fifo (movedFrom : A → A) (c : Config Thread (Shared Addr A) (PC Addr A)) : Prop where
  values : c.shared.returned.filterMap id <+: pushed c.shared.history
  returned : c.shared.returned <+: answers () c.shared.history
  empty : ∀ h₁ h₂, c.shared.history = h₁ ++ .empty () :: h₂ → popped h₁ = pushed h₁
  safe : ∀ t o, Alone c t o → c.advance (exec movedFrom) t o ≠ .fault
  written : ∀ p, (c.pc .consumer).touched c.shared = some p →
    ∃ n, c.shared.mem.read p = some n ∧ n.next ≠ none ∧ p.id ∈ c.shared.constructed
  constructed : c.shared.constructed.Nodup
  destroyed : c.shared.destroyed <+: c.shared.constructed
  deleted : c.shared.deleted.Nodup
  finished : c.pc .consumer = .destroyed → c.shared.destroyed = c.shared.constructed ∧
    c.shared.deleted = List.range c.shared.mem.allocs ∧ ∀ a, c.shared.mem.cell a = none
  drains : (c.pc .consumer).Closing →
    Stops (exec movedFrom) PC.isDestroyed (fun _ => false) (fun _ => True) .consumer 0
      (rank c + 1) c

omit [DecidableEq Addr] in
theorem Producer.constructed (h : Producer s g pc) :
    ∃ k, s.constructed = List.range (s.tail.id + k) := by
  have hf := h.facts
  cases pc with
  | idle | newNode v | loadOldTail v p => exact ⟨0, hf.2⟩
  | construct v p old => exact ⟨0, hf.2.2⟩
  | linkNext v p old => exact ⟨1, hf.2.2⟩
  | storeTail v p => exact ⟨1, hf.2⟩
  | _ => exact hf.elim

omit [DecidableEq Addr] in
/-- The unlinked node and those on the path are older than the dummy node. -/
theorem Global.id_lt_tail (h : Global s g) (ha : g.dead = false)
    (hp : g.taken = some p ∨ p ∈ g.nodes.map Prod.fst) : p.id < s.tail.id := by
  have hw := h.window
  have hmem : p ∈ g.taken.toList ++ g.nodes.map Prod.fst := by simpa using hp
  obtain ⟨l₁, l₂, hl⟩ := List.append_of_mem hmem
  rw [blocks_alive ha, path, List.append_assoc, ← List.append_assoc, hl, List.append_assoc,
    List.cons_append] at hw
  exact hw.id_lt

theorem Consumer.owes (h : Consumer s g pc) : ∃ r, Owes s r := by
  have hf := h.facts
  cases pc with
  | idle | loadTail k => exact ⟨_, hf⟩
  | compare k tail => exact ⟨_, hf.2.2⟩
  | readNext k | deleteHead | destroyed => exact ⟨_, hf.2⟩
  | moveHead k old next => exact ⟨_, hf.2.2⟩
  | takeData k old =>
      obtain ⟨n, v, -, -, -, ho⟩ := hf
      exact ⟨_, ho⟩
  | destroyData k old v | deleteNode k old v => exact ⟨_, hf.2⟩
  | _ => exact hf.elim

theorem Consumer.touched (hG : Global s g) (h : Consumer s g pc)
    (hp : pc.touched s = some p) :
    p.id < s.tail.id ∧ ∃ n, s.mem.read p = some n ∧ n.next ≠ none := by
  have hne : pc ≠ .destroyed := by
    rintro rfl
    cases hp
  have ha := h.alive hne
  have htaken := h.taken
  have hf := h.facts
  cases pc with
  | readNext k =>
      obtain ⟨⟨old, v⟩, rest, hnodes⟩ := List.exists_cons_of_ne_nil hf.1
      have hseg := hG.seg ha
      rw [hnodes] at hseg
      obtain ⟨next, ⟨hhead, n, hn, -, rfl, hnext⟩, -⟩ := hseg
      cases hhead.symm.trans hp
      exact ⟨hG.id_lt_tail ha (.inr (by simp [hnodes])), n, hn, hnext⟩
  | takeData k old =>
      cases hp
      obtain ⟨n, v, hn, hnext, -⟩ := hf
      exact ⟨hG.id_lt_tail ha (.inl htaken), n, hn, hnext⟩
  | destroyData k old v | deleteNode k old v =>
      cases hp
      obtain ⟨⟨n, hn, hnext, -⟩, -⟩ := hf
      exact ⟨hG.id_lt_tail ha (.inl htaken), n, hn, hnext⟩
  | _ => cases hp

omit [DecidableEq Addr] in
theorem Global.tail_id (h : Global s g) (ha : g.dead = false) :
    s.tail.id = s.deleted.length + (g.taken.toList ++ g.nodes.map Prod.fst).length := by
  have hw := h.window
  rw [blocks_alive ha, path, List.append_assoc, ← List.append_assoc] at hw
  exact hw.id_eq _

/-- Values are destroyed in the order of their construction, those of nodes before
the dummy node. -/
theorem Consumer.destroyed_eq (hG : Global s g) (h : Consumer s g pc) :
    ∃ n, n ≤ s.tail.id ∧ s.destroyed = List.range n := by
  by_cases hpc : pc = .destroyed
  · subst hpc
    exact ⟨_, Nat.le_refl _, h.facts.1⟩
  have ha := h.alive hpc
  have hdest := h.destroyed ha
  have htail := hG.tail_id ha
  have htaken := h.taken
  cases pc with
  | deleteNode k old v =>
      have hw := hG.window
      rw [blocks_alive ha, htaken] at hw
      have hid : old.id = s.deleted.length := hw.id_eq []
      refine ⟨s.deleted.length + 1, ?_, ?_⟩
      · rw [htail, htaken]
        simp [PC.taken]
      · rw [hdest, PC.emptied, hid, List.range_succ, ← hG.deleted]
  | _ => exact ⟨_, by omega, hdest.trans ((List.append_nil _).trans hG.deleted)⟩

/-- The step of the destructor leads to `r`, closer to its end or with a node less. -/
structure Ahead (s : Shared Addr A) (pc : PC Addr A) (r : Shared Addr A × PC Addr A) : Prop where
  closing : r.2.Closing
  allocs : r.1.mem.allocs = s.mem.allocs
  stage : (r.1.deleted = s.deleted ∧ r.2.stage < pc.stage) ∨
    (r.1.deleted.length = s.deleted.length + 1 ∧ r.2.stage < pc.stage + 8)

theorem exec_ahead {o : Oracle Addr A} (h : pc.Closing) (hpc : pc ≠ .destroyed) :
    exec movedFrom .consumer o s pc = .fault ∨
      ∃ r, exec movedFrom .consumer o s pc = .ok r ∧ Ahead s pc r := by
  have near : ∀ {s' : Shared Addr A} {pc' : PC Addr A}, pc'.Closing →
      s'.mem.allocs = s.mem.allocs → s'.deleted = s.deleted → pc'.stage < pc.stage →
      Ahead s pc (s', pc') := fun hc hm hd hs => ⟨hc, hm, .inl ⟨hd, hs⟩⟩
  have visit : ∀ {p : Ptr Addr} {k : Node Addr A → Outcome (Shared Addr A × PC Addr A)},
      (∀ n, k n = .fault ∨ ∃ r, k n = .ok r ∧ Ahead s pc r) →
      s.mem.access p k = .fault ∨ ∃ r, s.mem.access p k = .ok r ∧ Ahead s pc r := by
    intro p k hk
    unfold Memory.access
    cases s.mem.read p with
    | none => exact .inl rfl
    | some n => exact hk n
  cases pc with
  | loadTail k => exact .inr ⟨_, rfl, near h rfl rfl (by simp [PC.stage])⟩
  | compare k tail =>
      cases h
      right
      simp only [exec]
      split
      · exact ⟨_, rfl, near trivial rfl rfl (by simp [PC.stage])⟩
      · exact ⟨_, rfl, near rfl rfl rfl (by simp [PC.stage])⟩
  | readNext k =>
      simp only [exec]
      cases s.head with
      | none => exact .inl rfl
      | some old => exact visit fun n => .inr ⟨_, rfl, near h rfl rfl (by simp [PC.stage])⟩
  | moveHead k old next => exact .inr ⟨_, rfl, near h rfl rfl (by simp [PC.stage])⟩
  | takeData k old =>
      apply visit
      intro n
      cases n.data with
      | none => exact .inl rfl
      | some v => exact .inr ⟨_, rfl, near h rfl rfl (by simp [PC.stage])⟩
  | destroyData k old v =>
      apply visit
      intro n
      cases n.data with
      | none => exact .inl rfl
      | some w => exact .inr ⟨_, rfl, near h rfl rfl (by simp [PC.stage])⟩
  | deleteNode k old v =>
      cases h
      simp only [exec, Shared.delete]
      apply visit
      intro n
      cases n.data with
      | some w => exact .inl rfl
      | none =>
          refine .inr ⟨_, rfl, rfl, rfl, .inr ⟨?_, by simp [PC.stage]⟩⟩
          exact List.length_append
  | deleteHead =>
      simp only [exec, Shared.delete]
      cases s.head with
      | none => exact .inl rfl
      | some head =>
          apply visit
          intro n
          cases n.data with
          | some w => exact .inl rfl
          | none =>
              refine .inr ⟨_, rfl, trivial, rfl, .inr ⟨?_, by simp [PC.stage]⟩⟩
              exact List.length_append
  | destroyed => exact (hpc rfl).elim
  | _ => exact h.elim

theorem rank_lt {o : Oracle Addr A} (hc : ReachIf (exec movedFrom) Alone New c)
    (h : (c.pc .consumer).Closing) (hpc : c.pc .consumer ≠ .destroyed) :
    ∃ d, c.advance (exec movedFrom) .consumer o = .ok d ∧
      (ReachIf (exec movedFrom) Alone New d ∧ (d.pc .consumer).Closing) ∧ rank d < rank c := by
  have halone : Alone c .consumer o := by
    intro _ hidle
    rw [hidle] at h
    exact h.elim
  rcases exec_ahead h hpc with hx | ⟨r, hr, hahead⟩
  · exact ((outline movedFrom).safe hc halone (by unfold Config.advance; rw [hx]; rfl)).elim
  · have hx : c.advance (exec movedFrom) .consumer o =
        .ok ⟨r.1, Function.update c.pc .consumer r.2⟩ := by
      unfold Config.advance
      rw [hr]
      rfl
    have hd := ReachIf.step hc halone hx
    obtain ⟨g, hG, -⟩ := (outline movedFrom).holds hd
    have hallocs := hG.window.allocs
    refine ⟨_, hx, ⟨hd, ?_⟩, ?_⟩
    · simp only [Function.update_self]
      exact hahead.closing
    · have hsame := hahead.allocs
      unfold rank
      simp only [Function.update_self]
      rcases hahead.stage with ⟨hdel, hlt⟩ | ⟨hdel, hlt⟩
      · rw [hdel, hsame]
        omega
      · simp only at hallocs
        omega

theorem drains (hc : ReachIf (exec movedFrom) Alone New c) (h : (c.pc .consumer).Closing) :
    Stops (exec movedFrom) PC.isDestroyed (fun _ => false) (fun _ => True) .consumer 0
      (rank c + 1) c := by
  refine Stops.of_rank (P := fun c => ReachIf (exec movedFrom) Alone New c ∧
    (c.pc .consumer).Closing) rank (fun c ⟨hc, h⟩ => ?_) ⟨hc, h⟩
  by_cases hpc : c.pc .consumer = .destroyed
  · left
    rw [hpc]
    rfl
  · exact .inr fun o _ => rank_lt hc h hpc

theorem wait_free_fifo (hc : ReachIf (exec movedFrom) Alone New c) : Fifo movedFrom c := by
  obtain ⟨g, hG, hL⟩ := (outline movedFrom).holds hc
  have hP : Producer c.shared g (c.pc .producer) := hL .producer
  have hC : Consumer c.shared g (c.pc .consumer) := hL .consumer
  obtain ⟨k, hcons⟩ := hP.constructed
  obtain ⟨n, hn, hdest⟩ := hC.destroyed_eq hG
  obtain ⟨r, ho⟩ := hC.owes
  have hreturned : c.shared.returned <+: answers () c.shared.history :=
    ho ▸ List.prefix_append _ _
  constructor
  case values =>
    rw [hG.run.pushed_eq, ← filterMap_answers ()]
    exact (hreturned.filterMap id).trans (List.prefix_append _ _)
  case returned => exact hreturned
  case empty =>
    intro h₁ h₂ hi
    have hrun := hG.run
    rw [hi] at hrun
    exact hrun.pushed_eq_popped.symm
  case safe => exact fun t o halone => (outline movedFrom).safe hc halone
  case written =>
    intro p hp
    obtain ⟨hlt, n, hn, hnext⟩ := hC.touched hG hp
    refine ⟨n, hn, hnext, ?_⟩
    rw [hcons, List.mem_range]
    omega
  case constructed =>
    rw [hcons]
    exact List.nodup_range
  case destroyed =>
    obtain ⟨j, hj⟩ := Nat.exists_eq_add_of_le (Nat.le_trans hn (Nat.le_add_right _ k))
    rw [hdest, hcons, hj, List.range_add]
    exact List.prefix_append _ _
  case deleted =>
    rw [hG.deleted]
    exact List.nodup_range
  case finished =>
    intro hpc
    have hdead := hC.dead.mpr hpc
    have hidle := hP.closing (hG.closing hdead)
    have hw := hG.window
    have hfacts := hC.facts
    have hdummy := hP.facts
    rw [hpc] at hfacts
    rw [hidle] at hdummy
    have hblocks : blocks c.shared g = [] := if_pos hdead
    rw [hblocks] at hw
    refine ⟨hfacts.1.trans hdummy.2.symm, ?_, hw.cell_eq_none⟩
    rw [hw.allocs]
    exact hG.deleted
  case drains => exact drains hc

section Example

/-- Two pushes overlap with two pops. -/
def sample : List (Thread × Oracle ℕ ℕ) :=
  List.replicate 6 (.producer, ⟨.push 7, 1⟩) ++ List.replicate 4 (.producer, ⟨.push 8, 2⟩) ++
    List.replicate 4 (.consumer, ⟨.pop, 0⟩) ++ List.replicate 2 (.producer, ⟨.push 8, 2⟩) ++
    List.replicate 4 (.consumer, ⟨.pop, 0⟩)

/-- The destructor finds the other value. -/
def finish : List (Thread × Oracle ℕ ℕ) := List.replicate 10 (.consumer, ⟨.pop, 0⟩)

theorem wait_free_fifo_sample : ∃ c d e, Config.run (exec id) sample (start 0) = .ok c ∧
    c.advance (exec id) .consumer ⟨.destroy, 0⟩ = .ok d ∧ d.run (exec id) finish = .ok e ∧
    e.shared.returned = [some 7, some 8, none] ∧ e.pc .consumer = .destroyed ∧ Fifo id e := by
  have hne : ∀ x ∈ sample ++ finish, x.2.call ≠ .destroy := by decide
  have hcall : ∀ x ∈ sample ++ finish, ∀ c, Alone c x.1 x.2 :=
    fun x hx c _ _ hdestroy => (hne x hx hdestroy).elim
  have hstart : ReachIf (exec id) Alone New (start (A := ℕ) 0) := .start ⟨0, rfl⟩
  have hc := hstart.runIf (fun x hx => hcall x (List.mem_append_left _ hx))
    (rfl : Config.run (exec id) sample (start 0) = .ok _)
  have hd := ReachIf.step (t := .consumer) (o := ⟨.destroy, 0⟩) hc (fun _ _ _ => rfl) rfl
  have he := hd.runIf (fun x hx => hcall x (List.mem_append_right _ hx))
    (rfl : Config.run (exec id) finish _ = .ok _)
  exact ⟨_, _, _, rfl, rfl, rfl, rfl, rfl, wait_free_fifo he⟩

end Example
end CsNotes.SpscQueue
