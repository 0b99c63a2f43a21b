import CsNotes.Lib.Progress
import CsNotes.LockfreeQueue.Progress

/-!
# The queue is lock free

Not only from where the others have stopped. A push takes effect when it sets the
data of the node at `tail`, and from then on nobody can do so until `tail` has
moved, which anybody may do. As nothing but the effect of a push sets data, the
node that `tail` moves to is free, and `tail` stays there until the next effect.
-/
namespace CsNotes.LockfreeQueue
open Interleaving History

variable {Tid A : Type*}

/-- Calls which have not taken effect. -/
def PC.uncommitted : PC A → ℕ
  | makeData _ | makeTail _ | loadTail _ _ | casData _ _ _ | helpNext _ _ _ | makeDummy _ _ _
  | helpTail _ _ _ _ | loadHead | pollTail _ | loadNext _ | casHead _ _ => 1
  | _ => 0

def data (s : Shared Tid A) (i : ℕ) : Option (Option ℕ) := (s.nodes[i]?).map Node.data

/-- Whether `tail` has to move before the next push can take effect. -/
def full (s : Shared Tid A) : ℕ := if data s s.tail = some none then 0 else 1

/-- How many steps a thread is from taking effect or moving `tail`, or from its return, if
nobody else does either. -/
def distance (s : Shared Tid A) : PC A → ℕ
  | .idle => 0
  | .makeData _ => 3 * full s + 4
  | .makeTail _ => 3 * full s + 3
  | .loadTail _ _ => 3 * full s + 2
  | .casData _ _ i =>
      if data s i = some none then 1 else if s.tail = i then 4 else 3 * full s + 6
  | .helpNext _ _ i => if s.tail = i then 3 else 3 * full s + 5
  | .makeDummy _ i _ => if s.tail = i then 2 else 3 * full s + 4
  | .helpTail _ _ i _ => if s.tail = i then 1 else 3 * full s + 3
  | .casNext _ _ _ => 2
  | .casTail _ _ _ => 1
  | .loadHead => 4
  | .pollTail i => if s.head = i then 3 else 6
  | .loadNext i => if s.head = i then 2 else 5
  | .casHead i _ => if s.head = some i then 1 else 4
  | .takeData _ => 2
  | .ret _ => 1

variable {s s' : Shared Tid A} {pc : PC A} {n n' : Node} {i : ℕ}

theorem data_of (hn : s.nodes[i]? = some n) : data s i = some n.data := by
  unfold data
  rw [hn]
  rfl

theorem full_of (hn : s.nodes[s.tail]? = some n) (hd : n.data ≠ none) : full s = 1 := by
  unfold full
  rw [data_of hn, if_neg (by simpa using hd)]

/-- `head` and `tail` stay, and so do the data of all nodes. -/
structure Still (s s' : Shared Tid A) : Prop where
  head : s'.head = s.head
  tail : s'.tail = s.tail
  data : ∀ i, LockfreeQueue.data s i ≠ none → LockfreeQueue.data s' i = LockfreeQueue.data s i

theorem Still.refl (s : Shared Tid A) : Still s s := ⟨rfl, rfl, fun _ _ => rfl⟩

theorem still_append {l : List Node} : Still s { s with nodes := s.nodes ++ l } := by
  refine ⟨rfl, rfl, fun i hi => ?_⟩
  unfold LockfreeQueue.data at hi ⊢
  rw [List.getElem?_append_left]
  exact (List.getElem?_eq_some_iff.mp (Option.ne_none_iff_exists'.mp
    (fun h => hi (by rw [h]; rfl))).choose_spec).1

theorem still_setNode (hn : s.nodes[i]? = some n) (hd : n'.data = n.data) :
    Still s (s.setNode i n') := by
  refine ⟨rfl, rfl, fun j _ => ?_⟩
  unfold LockfreeQueue.data
  change ((s.nodes.set i n')[j]?).map Node.data = _
  by_cases hj : i = j
  · subst hj
    rw [List.getElem?_set_self (List.getElem?_eq_some_iff.mp hn).1, hn]
    exact congrArg some hd
  · rw [List.getElem?_set_ne hj]

theorem Still.full (h : Still s s') (ht : LockfreeQueue.data s s.tail ≠ none) :
    full s' = full s := by
  unfold LockfreeQueue.full
  rw [h.tail, h.data _ ht]

variable [DecidableEq Tid] {t u : Tid} {o : Oracle A} {r : Shared Tid A × PC A}
variable {c : Config Tid (Shared Tid A) (PC A)}

theorem tail_data (hc : Reach exec (· = start) c) : data c.shared c.shared.tail ≠ none := by
  obtain ⟨g, hG, -⟩ := outline.holds hc
  obtain ⟨n, hn, -⟩ := hG.tail
  exact data_of hn ▸ Option.some_ne_none _

/-- A step takes effect, or moves `tail` when helping, or brings its thread closer. -/
theorem exec_closer (ht : data s s.tail ≠ none) (h : exec t o s pc = .ok r) (hpc : pc ≠ .idle)
    (hr : r.2 ≠ .idle) : r.2.uncommitted < pc.uncommitted ∨ r.2.uncommitted ≤ pc.uncommitted ∧
      ((∃ x q n, pc = .helpTail x q s.tail n ∧ r.1 = s.moveTail t s.tail n) ∨
        Still s r.1 ∧ distance r.1 r.2 < distance s pc) := by
  cases pc with
  | idle => exact (hpc rfl).elim
  | makeData v =>
      simp only [exec] at h
      split at h <;> cases h
      · exact (hr rfl).elim
      · exact .inr ⟨le_rfl, .inr ⟨⟨rfl, rfl, fun _ _ => rfl⟩, Nat.lt_succ_self _⟩⟩
  | makeTail x =>
      simp only [exec] at h
      split at h
      · obtain ⟨s', -, rfl⟩ := Outcome.map_eq_ok.mp h
        exact (hr rfl).elim
      · cases h
        have hstill : Still s { s with nodes := s.nodes ++ [{}] } := still_append
        refine .inr ⟨le_rfl, .inr ⟨hstill, ?_⟩⟩
        simp only [distance, hstill.full ht]
        omega
  | loadTail x q =>
      cases h
      refine .inr ⟨le_rfl, .inr ⟨.refl s, ?_⟩⟩
      simp only [distance, full, if_pos]
      split <;> omega
  | casData x q i =>
      obtain ⟨n, hn, h⟩ := node_eq_ok.mp h
      split at h <;> cases h
      · exact .inl Nat.zero_lt_one
      · rename_i hd
        refine .inr ⟨le_rfl, .inr ⟨.refl s, ?_⟩⟩
        have hfull : data s i ≠ some none := by
          rw [data_of hn]
          simpa using hd
        simp only [distance, if_neg hfull]
        split <;> omega
  | casNext x q i =>
      obtain ⟨n, hn, h⟩ := node_eq_ok.mp h
      split at h <;> cases h
      · exact .inr ⟨le_rfl, .inr ⟨still_setNode hn rfl, Nat.one_lt_two⟩⟩
      · exact .inr ⟨le_rfl, .inr ⟨.refl s, Nat.one_lt_two⟩⟩
  | casTail x i n =>
      cases h
      exact (hr rfl).elim
  | helpNext x q i =>
      obtain ⟨n, hn, h⟩ := node_eq_ok.mp h
      split at h <;> cases h
      · have hstill : Still s (s.setNode i { n with next := some q }) := still_setNode hn rfl
        refine .inr ⟨le_rfl, .inr ⟨hstill, ?_⟩⟩
        simp only [distance, hstill.full ht, hstill.tail]
        split <;> omega
      · refine .inr ⟨le_rfl, .inr ⟨.refl s, ?_⟩⟩
        simp only [distance]
        split <;> omega
  | makeDummy x i n =>
      simp only [exec] at h
      split at h
      · obtain ⟨s', -, rfl⟩ := Outcome.map_eq_ok.mp h
        exact (hr rfl).elim
      · cases h
        have hstill : Still s { s with nodes := s.nodes ++ [{}] } := still_append
        refine .inr ⟨le_rfl, .inr ⟨hstill, ?_⟩⟩
        simp only [distance, hstill.full ht]
        split <;> omega
  | helpTail x q i n =>
      cases h
      by_cases hi : s.tail = i
      · subst hi
        exact .inr ⟨le_rfl, .inl ⟨x, q, n, rfl, if_pos rfl⟩⟩
      · refine .inr ⟨le_rfl, .inr ?_⟩
        rw [if_neg hi]
        refine ⟨.refl s, ?_⟩
        simp only [distance, if_neg hi]
        omega
  | loadHead =>
      cases h
      exact .inr ⟨le_rfl, .inr ⟨.refl s, by simp [distance]⟩⟩
  | pollTail i =>
      simp only [exec] at h
      split at h <;> cases h
      · exact .inl Nat.zero_lt_one
      · refine .inr ⟨le_rfl, .inr ⟨.refl s, ?_⟩⟩
        simp only [distance]
        split <;> omega
  | loadNext i =>
      cases i with
      | none => cases h
      | some i =>
          obtain ⟨n, -, h⟩ := node_eq_ok.mp h
          cases h
          refine .inr ⟨le_rfl, .inr ⟨.refl s, ?_⟩⟩
          simp only [distance]
          split <;> omega
  | casHead i next =>
      simp only [exec] at h
      split at h <;> cases h
      · exact .inl Nat.zero_lt_one
      · rename_i hi
        exact .inr ⟨le_rfl, .inr ⟨.refl s, by simp [distance, hi]⟩⟩
  | takeData i =>
      obtain ⟨n, -, h⟩ := node_eq_ok.mp h
      cases h
      exact .inr ⟨le_rfl, .inr ⟨.refl s, Nat.one_lt_two⟩⟩
  | ret v =>
      cases v with
      | none =>
          cases h
          exact (hr rfl).elim
      | some x =>
          obtain ⟨s', -, rfl⟩ := Outcome.map_eq_ok.mp h
          exact (hr rfl).elim

/-- A helper moves `tail` from a node with data to one without. -/
theorem full_moveTail {x q n : ℕ} (hc : Reach exec (· = start) c)
    (hpc : c.pc t = .helpTail x q c.shared.tail n) :
    full (c.shared.moveTail t c.shared.tail n) < full c.shared := by
  obtain ⟨g, -, hL⟩ := outline.holds hc
  have hf := (hL t).facts
  rw [hpc] at hf
  have hfree : c.shared.nodes[n]? = some {} := next_free hc hf.1
  obtain ⟨m, hm, hd, -⟩ := hf.1
  have hzero : full (c.shared.moveTail t c.shared.tail n) = 0 :=
    if_pos (data_of (s := c.shared.moveTail t c.shared.tail n) hfree)
  rw [hzero, full_of hm hd]
  exact Nat.zero_lt_one

theorem distance_other (hc : Reach exec (· = start) c) (h : Still c.shared s') :
    distance s' (c.pc u) = distance c.shared (c.pc u) := by
  obtain ⟨g, hG, hL⟩ := outline.holds hc
  cases hpc : c.pc u with
  | casData x q i =>
      have hf := (hL u).facts
      rw [hpc] at hf
      obtain ⟨n, hn⟩ := hG.known_node hf.1
      have hdata := h.data i (data_of hn ▸ Option.some_ne_none _)
      simp only [distance, hdata, h.tail, h.full (tail_data hc)]
  | _ => simp only [distance, h.head, h.tail, h.full (tail_data hc)]

theorem ranking : Ranking (exec : Code Tid (Oracle A) (Shared Tid A) (PC A)) (· = start)
    (fun _ _ _ => True) (· = .idle) [fun _ => PC.uncommitted, fun s _ => full s, distance] where
  descends := by
    intro c t o r hc _ hpc hx hr
    refine ⟨fun u _ => le_rfl, ?_⟩
    rcases exec_closer (tail_data hc) hx hpc hr with hlt | ⟨hle, ⟨x, q, n, hhelp, hs⟩ | ⟨hs, hlt⟩⟩
    · exact .inl hlt
    · have hfull : full r.1 < full c.shared := hs ▸ full_moveTail hc hhelp
      exact .inr ⟨hle, fun u _ => hfull.le, .inl hfull⟩
    · have hfull := (hs.full (tail_data hc)).le
      exact .inr ⟨hle, fun u _ => hfull, .inr ⟨hfull, fun u _ => (distance_other hc hs).le,
        .inl hlt⟩⟩

/-- Calls of the queue keep returning, whichever allocations throw. -/
theorem lockfree_queue_lock_free [Finite Tid] :
    LockFree (exec : Code Tid (Oracle A) (Shared Tid A) (PC A)) (· = start) (fun _ _ _ => True)
      (· = .idle) :=
  ranking.lockFree

theorem lockfree_queue_lock_free_two :
    LockFree (exec : Code (Fin 2) (Oracle ℕ) (Shared (Fin 2) ℕ) (PC ℕ)) (· = start)
      (fun _ _ _ => True) (· = .idle) :=
  lockfree_queue_lock_free

end CsNotes.LockfreeQueue
