import CsNotes.LockfreeQueue.Preservation

/-!
# The lock-free queue is a linearizable FIFO queue

Any number of threads, any calls and any interleaving of the steps, with
allocations that throw. An element stands for the value it was made from, which
never changes. The destructor is run on a queue that nobody uses any more.
-/
namespace CsNotes.LockfreeQueue
open Interleaving History Segment

variable {Tid A : Type*} [DecidableEq Tid] {s : Shared Tid A} {pc : PC A} {t u : Tid} {o : Oracle A}
variable {i x : ℕ} {l : List (ℕ × ℕ)} {n : Node} {r : Shared Tid A × PC A}

theorem popAlone_empty (hh : s.head = some s.tail) (fuel : ℕ) :
    popAlone t o (fuel + 5) s .loadHead =
      .ok ({ s with history := s.history ++ [.empty t] }, none) := by
  simp [popAlone, exec, hh, Outcome.bind]

theorem popAlone_cons (hh : s.head = some i) (hi : i ≠ s.tail) (hn : s.nodes[i]? = some n)
    (fuel : ℕ) : popAlone t o (fuel + 5) s .loadHead = .ok (s.moveHead t i n.next, n.data) := by
  have hn' : (s.moveHead t i n.next).nodes[i]? = some n := hn
  simp [popAlone, exec, hh, hi, Shared.node, hn, hn', Outcome.bind]

/-- The destructor deletes what is in the queue and nothing else. -/
theorem destroy_queue (hs : Seg (Queued s.nodes) (· = some s.tail) s.head l)
    (ht : s.tail ∉ l.map Prod.fst) (hnd : (l.map Prod.snd).Nodup)
    (ho : ∀ x ∈ l.map Prod.snd, ∃ v, s.elements[x]? = some ⟨v, .owned⟩) :
    ∃ s', destroy t o (l.length + 5) s = .ok s' ∧
      ∀ x, s'.elements[x]? = if x ∈ l.map Prod.snd then
        (s.elements[x]?).map fun e => ⟨e.value, .deleted⟩ else s.elements[x]? := by
  induction l generalizing s with
  | nil =>
      refine ⟨{ s with history := s.history ++ [.empty t] }, ?_, fun x => by simp⟩
      rw [List.length_nil, destroy, popAlone_empty hs]
      rfl
  | cons y l ih =>
      obtain ⟨next, ⟨hh, hnext, n, hn, hd, rfl⟩, hrest⟩ := hs
      rw [List.map_cons, List.nodup_cons] at hnd
      rw [List.map_cons, List.mem_cons, not_or] at ht
      obtain ⟨v, hv⟩ := ho y.2 (by simp)
      have hlt := (List.getElem?_eq_some_iff.mp hv).1
      have hset : ∀ x, x ∈ l.map Prod.snd →
          (s.elements.set y.2 ⟨v, .deleted⟩)[x]? = s.elements[x]? := by
        intro x hx
        apply List.getElem?_set_ne
        rintro rfl
        exact hnd.1 hx
      obtain ⟨s', hs', hel⟩ := ih (s := { s.moveHead t y.1 n.next with
        elements := s.elements.set y.2 ⟨v, .deleted⟩ }) hrest ht.2 hnd.2 fun x hx => by
          obtain ⟨w, hw⟩ := ho x (by simp [hx])
          exact ⟨w, (hset x hx).trans hw⟩
      refine ⟨s', ?_, fun x => ?_⟩
      · rw [List.length_cons, Nat.add_right_comm, destroy,
          popAlone_cons hh (Ne.symm ht.1) hn (l.length + 1), Outcome.bind, hd]
        simp only
        rw [dispose_owned (s := s.moveHead t y.1 n.next) hv]
        exact hs'
      · rw [hel x]
        by_cases hx : x = y.2
        · subst hx
          simp [hnd.1, hv, List.getElem?_set_self hlt]
        · by_cases hm : x ∈ l.map Prod.snd
          · rw [if_pos hm, hset x hm, if_pos (by simp [hm])]
          · rw [if_neg hm, List.getElem?_set_ne (Ne.symm hx), if_neg (by simp [hx, hm])]

/-- The node this thread may move `tail` away from, and the next one. -/
def PC.moves : PC A → Option (ℕ × ℕ)
  | casTail _ i n | helpTail _ _ i n => some (i, n)
  | _ => none

/-- Only three kinds of steps move an end of the queue or are recorded. -/
theorem exec_ends (h : exec t o s pc = .ok r) :
    (r.1.head = s.head ∧ r.1.tail = s.tail ∧ r.1.history = s.history) ∨
    (∃ n, pc.moves = some (s.tail, n) ∧ r.1 = s.moveTail t s.tail n) ∨
    (∃ i next, pc = .casHead i next ∧ s.head = some i ∧ r.1 = s.moveHead t i next) ∨
    (pc = .pollTail (some s.tail) ∧ r.1 = { s with history := s.history ++ [.empty t] }) := by
  cases pc with
  | idle =>
      simp only [exec] at h
      split at h <;> cases h <;> exact .inl ⟨rfl, rfl, rfl⟩
  | makeData v =>
      simp only [exec] at h
      split at h <;> cases h <;> exact .inl ⟨rfl, rfl, rfl⟩
  | makeTail x | makeDummy x _ _ =>
      simp only [exec] at h
      split at h
      · obtain ⟨s', hs', rfl⟩ := Outcome.map_eq_ok.mp h
        obtain ⟨v, -, rfl⟩ := dispose_eq_ok.mp hs'
        exact .inl ⟨rfl, rfl, rfl⟩
      · cases h
        exact .inl ⟨rfl, rfl, rfl⟩
  | loadTail _ _ | loadHead =>
      cases h
      exact .inl ⟨rfl, rfl, rfl⟩
  | casData _ _ _ | casNext _ _ _ | helpNext _ _ _ =>
      obtain ⟨n, -, h⟩ := node_eq_ok.mp h
      split at h <;> cases h <;> exact .inl ⟨rfl, rfl, rfl⟩
  | takeData _ =>
      obtain ⟨n, -, h⟩ := node_eq_ok.mp h
      cases h
      exact .inl ⟨rfl, rfl, rfl⟩
  | casTail x i n | helpTail x q i n =>
      cases h
      by_cases ht : s.tail = i
      · subst ht
        exact .inr (.inl ⟨n, rfl, if_pos rfl⟩)
      · exact .inl (by simp [ht])
  | pollTail i =>
      simp only [exec] at h
      split at h
      · rename_i ht
        subst ht
        cases h
        exact .inr (.inr (.inr ⟨rfl, rfl⟩))
      · cases h
        exact .inl ⟨rfl, rfl, rfl⟩
  | loadNext i =>
      cases i with
      | none => cases h
      | some i =>
          obtain ⟨n, -, h⟩ := node_eq_ok.mp h
          cases h
          exact .inl ⟨rfl, rfl, rfl⟩
  | casHead i next =>
      simp only [exec] at h
      split at h
      · rename_i hh
        cases h
        exact .inr (.inr (.inl ⟨i, next, rfl, hh, rfl⟩))
      · cases h
        exact .inl ⟨rfl, rfl, rfl⟩
  | ret r =>
      cases r with
      | none =>
          cases h
          exact .inl ⟨rfl, rfl, rfl⟩
      | some x =>
          obtain ⟨s', hs', rfl⟩ := Outcome.map_eq_ok.mp h
          obtain ⟨v, -, rfl⟩ := dispose_eq_ok.mp hs'
          exact .inl ⟨rfl, rfl, rfl⟩

/-- An element is made, deleted by a push which throws, or handed out by a pop. -/
theorem exec_elements (h : exec t o s pc = .ok r) :
    (r.1.elements = s.elements ∧
      (r.1.returned = s.returned ∨
        r.1.returned = Function.update s.returned t (s.returned t ++ [none]))) ∨
    (∃ v, pc = .makeData v ∧ r.1.elements = s.elements ++ [{ value := v }] ∧
      r.1.returned = s.returned) ∨
    (∃ x v, o.throws ∧ pc.element = some x ∧ s.elements[x]? = some ⟨v, .owned⟩ ∧
      r.1.elements = s.elements.set x ⟨v, .deleted⟩ ∧ r.1.returned = s.returned) ∨
    (∃ x v, pc = .ret (some x) ∧ s.elements[x]? = some ⟨v, .owned⟩ ∧
      r.1.elements = s.elements.set x ⟨v, .handed t⟩ ∧
      r.1.returned = Function.update s.returned t (s.returned t ++ [some x])) := by
  cases pc with
  | idle =>
      simp only [exec] at h
      split at h <;> cases h <;> exact .inl ⟨rfl, .inl rfl⟩
  | makeData v =>
      simp only [exec] at h
      split at h <;> cases h
      · exact .inl ⟨rfl, .inl rfl⟩
      · exact .inr (.inl ⟨v, rfl, rfl, rfl⟩)
  | makeTail x | makeDummy x _ _ =>
      simp only [exec] at h
      split at h
      · rename_i ho
        obtain ⟨s', hs', rfl⟩ := Outcome.map_eq_ok.mp h
        obtain ⟨v, hv, rfl⟩ := dispose_eq_ok.mp hs'
        exact .inr (.inr (.inl ⟨x, v, ho, rfl, hv, rfl, rfl⟩))
      · cases h
        exact .inl ⟨rfl, .inl rfl⟩
  | loadTail _ _ | loadHead =>
      cases h
      exact .inl ⟨rfl, .inl rfl⟩
  | casData _ _ _ | casNext _ _ _ | helpNext _ _ _ =>
      obtain ⟨n, -, h⟩ := node_eq_ok.mp h
      split at h <;> cases h <;> exact .inl ⟨rfl, .inl rfl⟩
  | takeData _ =>
      obtain ⟨n, -, h⟩ := node_eq_ok.mp h
      cases h
      exact .inl ⟨rfl, .inl rfl⟩
  | casTail x i n | helpTail x q i n =>
      cases h
      simp only
      split <;> exact .inl ⟨rfl, .inl rfl⟩
  | pollTail i =>
      simp only [exec] at h
      split at h <;> cases h <;> exact .inl ⟨rfl, .inl rfl⟩
  | loadNext i =>
      cases i with
      | none => cases h
      | some i =>
          obtain ⟨n, -, h⟩ := node_eq_ok.mp h
          cases h
          exact .inl ⟨rfl, .inl rfl⟩
  | casHead i next =>
      simp only [exec] at h
      split at h <;> cases h <;> exact .inl ⟨rfl, .inl rfl⟩
  | ret r =>
      cases r with
      | none =>
          cases h
          exact .inl ⟨rfl, .inr rfl⟩
      | some x =>
          obtain ⟨s', hs', rfl⟩ := Outcome.map_eq_ok.mp h
          obtain ⟨v, hv, rfl⟩ := dispose_eq_ok.mp hs'
          exact .inr (.inr (.inr ⟨x, v, rfl, hv, rfl, rfl⟩))

variable {c : Config Tid (Shared Tid A) (PC A)} {g : Ghost Tid}

/-- What the history is: it records the moves of `tail` past a node, with the
element in that node, those of `head`, and the loads of `tail` by a pop which
found it equal to `head`. -/
def Recorded (c : Config Tid (Shared Tid A) (PC A)) : Prop :=
  ∀ t o d, c.advance exec t o = .ok d →
    (d.shared.head = c.shared.head ∧ d.shared.tail = c.shared.tail ∧
      d.shared.history = c.shared.history) ∨
    (∃ n x, c.shared.nodes[c.shared.tail]? = some n ∧ n.data = some x ∧
      (c.pc t).moves = some (c.shared.tail, d.shared.tail) ∧ n.next = some d.shared.tail ∧
      d.shared.head = c.shared.head ∧ d.shared.history = c.shared.history ++ [.push t x]) ∨
    (∃ i n x, c.pc t = .casHead i n.next ∧ c.shared.head = some i ∧
      c.shared.nodes[i]? = some n ∧ n.data = some x ∧ d.shared.head = n.next ∧ n.next ≠ none ∧
      d.shared.tail = c.shared.tail ∧ d.shared.history = c.shared.history ++ [.pop t x]) ∨
    (c.pc t = .pollTail (some c.shared.tail) ∧ c.shared.head = some c.shared.tail ∧
      d.shared.head = c.shared.head ∧ d.shared.tail = c.shared.tail ∧
      d.shared.history = c.shared.history ++ [.empty t])

theorem Local.linked_moves (h : Local s g t pc) (hm : pc.moves = some (i, x)) :
    Linked s.nodes i x := by
  have hf := h.facts
  cases pc with
  | casTail _ j n | helpTail _ _ j n =>
      cases hm
      exact hf.1
  | _ => cases hm

theorem recorded (hG : Global c.shared g) (hL : ∀ t, Local c.shared g t (c.pc t)) :
    Recorded c := by
  intro t o d hd
  obtain ⟨r, hr, rfl⟩ := Outcome.map_eq_ok.mp hd
  rcases exec_ends hr with h | ⟨q, hm, h⟩ | ⟨i, next, hpc, hh, h⟩ | ⟨hpc, h⟩
  · exact .inl h
  · obtain ⟨n, hn, hd, hq⟩ := (hL t).linked_moves hm
    obtain ⟨x, hx⟩ := Option.ne_none_iff_exists'.mp hd
    refine .inr (.inl ⟨n, x, hn, hx, ?_⟩)
    rw [h]
    exact ⟨hm, hq, rfl, by simp [Shared.moveTail, hn, hx]⟩
  · have hf := (hL t).facts
    rw [hpc] at hf
    obtain ⟨hi, ⟨n, hn, rfl, hnext⟩, -⟩ := hf
    obtain ⟨m, x, rest, -, hm, hx, -⟩ := hG.head_passed hi hh
    obtain rfl := Option.some.inj (hn.symm.trans hm)
    refine .inr (.inr (.inl ⟨i, n, x, hpc, hh, hn, hx, ?_⟩))
    rw [h]
    exact ⟨rfl, hnext, rfl, by simp [Shared.moveHead, hn, hx]⟩
  · have hf := (hL t).facts
    rw [hpc] at hf
    refine .inr (.inr (.inr ⟨hpc, hG.behind_tail hf.1, ?_⟩))
    rw [h]
    exact ⟨rfl, rfl, rfl⟩

/-- Every element is handed to the thread whose pop returned it, to no other. -/
def Handed (s : Shared Tid A) : Prop :=
  ∀ x t, (∃ v, s.elements[x]? = some ⟨v, .handed t⟩) ↔ some x ∈ s.returned t

omit [DecidableEq Tid] in
/-- An element whose fate has not changed, returned by nobody in between. -/
theorem Handed.congr {s' : Shared Tid A} (h : Handed s)
    (hx : ∀ (x : ℕ) t, (∃ v, s'.elements[x]? = some ⟨v, .handed t⟩) ↔
      ∃ v, s.elements[x]? = some ⟨v, .handed t⟩)
    (hr : ∀ x t, some x ∈ s'.returned t ↔ some x ∈ s.returned t) : Handed s' :=
  fun x t => (hx x t).trans ((h x t).trans (hr x t).symm)

theorem handed_step (h : Handed s) (hr : exec t o s pc = .ok r) : Handed r.1 := by
  rcases exec_elements hr with ⟨he, hret⟩ | ⟨v, -, he, hret⟩ | ⟨x, v, -, -, hv, he, hret⟩ |
    ⟨x, v, -, hv, he, hret⟩
  · refine h.congr (fun x u => by rw [he]) fun x u => ?_
    rcases hret with hret | hret
    · rw [hret]
    · rw [hret]
      by_cases hu : u = t
      · simp [hu]
      · rw [Function.update_of_ne hu]
  · refine h.congr (fun x u => ?_) fun x u => by rw [hret]
    rw [he]
    rcases Nat.lt_trichotomy x s.elements.length with hlt | rfl | hgt
    · rw [List.getElem?_append_left hlt]
    · simp
    · rw [List.getElem?_eq_none (by simp; omega), List.getElem?_eq_none (by omega)]
  · refine h.congr (fun y u => ?_) fun x u => by rw [hret]
    rw [he]
    by_cases hy : y = x
    · subst hy
      rw [List.getElem?_set_self (List.getElem?_eq_some_iff.mp hv).1]
      simp [hv]
    · rw [List.getElem?_set_ne (Ne.symm hy)]
  · intro y u
    rw [he, hret]
    by_cases hy : y = x
    · subst hy
      have hold := (h y u).not.mp (by simp [hv])
      rw [List.getElem?_set_self (List.getElem?_eq_some_iff.mp hv).1]
      by_cases hu : u = t
      · simp [hu]
      · rw [Function.update_of_ne hu]
        simp [hold, Ne.symm hu]
    · rw [List.getElem?_set_ne (Ne.symm hy), h y u]
      by_cases hu : u = t
      · simp [hu, hy]
      · rw [Function.update_of_ne hu]

theorem handed (hc : Reach exec (· = start) c) : Handed c.shared := by
  induction hc with
  | start hi =>
      subst hi
      simp [Handed, start]
  | step _ _ hs ih =>
      obtain ⟨r, hr, rfl⟩ := Outcome.map_eq_ok.mp hs
      exact handed_step ih hr

/-- An element stays what it is, and is given away at most once. -/
theorem element_step {e : Element Tid A} (hr : exec t o s pc = .ok r)
    (he : s.elements[x]? = some e) :
    ∃ f, r.1.elements[x]? = some ⟨e.value, f⟩ ∧ (e.fate ≠ .owned → f = e.fate) := by
  have hlt := (List.getElem?_eq_some_iff.mp he).1
  have hset : ∀ y v f, s.elements[y]? = some ⟨v, .owned⟩ →
      ∃ f', (s.elements.set y ⟨v, f⟩)[x]? = some ⟨e.value, f'⟩ ∧
        (e.fate ≠ .owned → f' = e.fate) := by
    intro y v f hv
    by_cases hy : y = x
    · subst hy
      rw [hv] at he
      obtain rfl := Option.some.inj he
      exact ⟨f, List.getElem?_set_self hlt, fun h => (h rfl).elim⟩
    · exact ⟨e.fate, by rw [List.getElem?_set_ne hy, he], fun _ => rfl⟩
  rcases exec_elements hr with ⟨hel, -⟩ | ⟨v, -, hel, -⟩ | ⟨y, v, -, -, hv, hel, -⟩ |
    ⟨y, v, -, hv, hel, -⟩
  · exact ⟨e.fate, by rw [hel, he], fun _ => rfl⟩
  · exact ⟨e.fate, by rw [hel, List.getElem?_append_left hlt, he], fun _ => rfl⟩
  · rw [hel]
    exact hset y v _ hv
  · rw [hel]
    exact hset y v _ hv

/-- Where an element nobody has disposed of yet is: with the push that made it,
with the pop that unlinked it, in the node which some push has still to move
`tail` past, or in the queue. -/
theorem owned_element {v : A} (hG : Global c.shared g) (hL : ∀ t, Local c.shared g t (c.pc t))
    (hx : c.shared.elements[x]? = some ⟨v, .owned⟩) :
    (∃ t, (c.pc t).element = some x) ∨ (∃ t, (c.pc t).Returns c.shared x) ∨
      (∃ t n, c.shared.nodes[c.shared.tail]? = some n ∧ n.data = some x ∧
        (c.pc t).emplaced = some c.shared.tail) ∨ x ∈ g.queue.map Prod.snd := by
  have hf := hG.fate x
  rw [hx] at hf
  cases hr : g.role x with
  | absent | deleted => simp [hr, Role.fate] at hf
  | handed t => simp [hr, Role.fate] at hf
  | own t => exact .inl ⟨t, ((hL t).element x).mp hr⟩
  | popped t => exact .inr (.inl ⟨t, (hL t).popped x hr⟩)
  | queued => exact .inr (.inr (.inr ((hG.queued x).mp hr)))
  | waiting =>
      obtain ⟨n, hn, -, hwait, hp⟩ := hG.tail
      have hd := (hwait x).mp hr
      obtain ⟨t, ht⟩ := Option.ne_none_iff_exists'.mp (hp (by simp [hd]))
      exact .inr (.inr (.inl ⟨t, n, hn, hd, (hL t).pending ht⟩))

/-- When nobody is inside a call, what has not been disposed of is in the queue. -/
theorem destroy_idle (hG : Global c.shared g) (hL : ∀ t, Local c.shared g t (c.pc t))
    (hidle : ∀ t, c.pc t = .idle) (t : Tid) (o : Oracle A) :
    ∃ fuel s', destroy t o fuel c.shared = .ok s' ∧
      ∀ (x : ℕ) e, c.shared.elements[x]? = some e → s'.elements[x]? =
        some ⟨e.value, if e.fate = .owned then .deleted else e.fate⟩ := by
  have hmem : ∀ (x : ℕ) e, c.shared.elements[x]? = some e →
      (x ∈ g.queue.map Prod.snd ↔ e.fate = .owned) := by
    rintro x ⟨v, f⟩ hx
    constructor
    · intro hq
      have hf := hG.fate x
      rw [hx, (hG.queued x).mpr hq] at hf
      exact Option.some.inj hf
    · rintro rfl
      rcases owned_element hG hL hx with ⟨u, h⟩ | ⟨u, h⟩ | ⟨u, n, -, -, h⟩ | h
      · rw [hidle u] at h
        cases h
      · rw [hidle u] at h
        exact h.elim
      · rw [hidle u] at h
        cases h
      · exact h
  have hnd := hG.nodup_pushed
  rw [hG.run.pushed_eq] at hnd
  obtain ⟨s', hs', hel⟩ := destroy_queue (t := t) (o := o) hG.seg
    (fun h => hG.tail_not_passed (List.mem_append_right _ h)) (List.nodup_append.mp hnd).2.1
    fun x hx => by
      obtain ⟨v, hv, -⟩ := hG.dispose (x := x) (by rw [(hG.queued x).mpr hx]; rfl) .deleted
      exact ⟨v, hv⟩
  refine ⟨_, s', hs', fun x e hx => ?_⟩
  rw [hel x]
  by_cases ho : e.fate = .owned
  · rw [if_pos ((hmem x e hx).mpr ho), hx, if_pos ho]
    rfl
  · rw [if_neg (mt (hmem x e hx).mp ho), hx, if_neg ho]

/-- The next step of this push is an allocation. -/
def PC.Allocates : PC A → Prop
  | makeData _ | makeTail _ | makeDummy _ _ _ => True
  | _ => False

/-- A push which throws leaves the queue alone and deletes its element. -/
theorem exec_throws (ha : pc.Allocates) (ho : o.throws = true) (h : exec t o s pc = .ok r) :
    r.2 = .idle ∧ r.1.nodes = s.nodes ∧ r.1.history = s.history ∧
      ∀ x : ℕ, pc.element = some x → ∃ v, r.1.elements[x]? = some ⟨v, .deleted⟩ := by
  cases pc with
  | makeData v =>
      simp only [exec, ho, if_true] at h
      cases h
      exact ⟨rfl, rfl, rfl, fun x hx => by cases hx⟩
  | makeTail y | makeDummy y _ _ =>
      simp only [exec, ho, if_true] at h
      obtain ⟨s', hs', rfl⟩ := Outcome.map_eq_ok.mp h
      obtain ⟨v, hv, rfl⟩ := dispose_eq_ok.mp hs'
      refine ⟨rfl, rfl, rfl, fun x hx => ?_⟩
      cases hx
      exact ⟨v, List.getElem?_set_self (List.getElem?_eq_some_iff.mp hv).1⟩
  | _ => exact ha.elim

/-- The nodes from `head` up to `tail` hold what is in the queue, and no element
is lost, duplicated, given away twice or leaked. -/
structure Fifo (c : Config Tid (Shared Tid A) (PC A)) : Prop where
  queue : ∃ l, Seg (Queued c.shared.nodes) (· = some c.shared.tail) c.shared.head l ∧
    c.shared.tail ∉ l.map Prod.fst ∧ QueueRun c.shared.history (l.map Prod.snd) ∧
    popped c.shared.history ++ l.map Prod.snd = pushed c.shared.history ∧
    ∀ (x : ℕ) v, c.shared.elements[x]? = some ⟨v, .owned⟩ →
      (∃ t, (c.pc t).element = some x) ∨ (∃ t, (c.pc t).Returns c.shared x) ∨
        (∃ t n, c.shared.nodes[c.shared.tail]? = some n ∧ n.data = some x ∧
          (c.pc t).emplaced = some c.shared.tail) ∨ x ∈ l.map Prod.snd
  distinct : (pushed c.shared.history).Nodup
  recorded : Recorded c
  answers : ∀ t, c.shared.returned t <+: answers t c.shared.history
  answered : ∀ t, c.pc t = .idle → c.shared.returned t = History.answers t c.shared.history
  handed : Handed c.shared
  deleted : ∀ (x : ℕ) v, c.shared.elements[x]? = some ⟨v, .deleted⟩ → x ∉ pushed c.shared.history
  once : ∀ t o d (x : ℕ) e, c.advance exec t o = .ok d → c.shared.elements[x]? = some e →
    ∃ f, d.shared.elements[x]? = some ⟨e.value, f⟩ ∧ (e.fate ≠ .owned → f = e.fate)
  thrown : ∀ t o d, (c.pc t).Allocates → o.throws = true → c.advance exec t o = .ok d →
    d.pc t = .idle ∧ d.shared.nodes = c.shared.nodes ∧ d.shared.history = c.shared.history ∧
      ∀ x : ℕ, (c.pc t).element = some x → ∃ v, d.shared.elements[x]? = some ⟨v, .deleted⟩
  alive : ∀ t o, c.advance exec t o ≠ .fault
  destructor : (∀ t, c.pc t = .idle) → ∀ t o, ∃ fuel s', destroy t o fuel c.shared = .ok s' ∧
    ∀ (x : ℕ) e, c.shared.elements[x]? = some e → s'.elements[x]? =
      some ⟨e.value, if e.fate = .owned then .deleted else e.fate⟩

theorem Local.owes (h : Local s g t pc) : ∃ r, Owes s t r := by
  have hf := h.facts
  cases pc with
  | idle | makeData _ | makeTail _ | loadTail _ _ | loadHead => exact ⟨_, hf⟩
  | casNext _ _ _ | helpNext _ _ _ | casHead _ _ => exact ⟨_, hf.2.2⟩
  | takeData i =>
      obtain ⟨n, x, -, -, -, ho⟩ := hf
      exact ⟨_, ho⟩
  | ret r =>
      cases r with
      | none => exact ⟨_, hf⟩
      | some x => exact ⟨_, hf.2⟩
  | _ => exact ⟨_, hf.2⟩

theorem helped_fifo (hc : Reach exec (· = start) c) : Fifo c := by
  obtain ⟨g, hG, hL⟩ := outline.holds hc
  constructor
  case queue =>
    exact ⟨g.queue, hG.seg, fun h => hG.tail_not_passed (List.mem_append_right _ h), hG.run,
      hG.run.pushed_eq.symm, fun x v hx => owned_element hG hL hx⟩
  case distinct => exact hG.nodup_pushed
  case recorded => exact LockfreeQueue.recorded hG hL
  case answers =>
    intro t
    obtain ⟨r, ho⟩ := (hL t).owes
    exact ho ▸ List.prefix_append _ _
  case answered =>
    intro t ht
    have hf := (hL t).facts
    rw [ht] at hf
    have ho : Owes c.shared t [] := hf
    simpa [Owes] using ho.symm
  case handed => exact LockfreeQueue.handed hc
  case deleted =>
    intro x v hx hp
    have hf := hG.fate x
    rw [hG.pushed] at hp
    rw [hx] at hf
    cases hr : g.role x <;> rw [hr] at hf hp
    case deleted => exact hp
    all_goals simp [Role.fate] at hf
  case once =>
    intro t o d x e hd he
    obtain ⟨r, hr, rfl⟩ := Outcome.map_eq_ok.mp hd
    exact element_step hr he
  case thrown =>
    intro t o d ha ho hd
    obtain ⟨r, hr, rfl⟩ := Outcome.map_eq_ok.mp hd
    simpa using exec_throws ha ho hr
  case alive => exact fun t o => outline.safe hc trivial
  case destructor => exact destroy_idle hG hL

section Example

/-- Thread 0 emplaces 7 and stops; thread 1 completes that push with its own dummy
node and then fails to make another one; a third thread pops. -/
def sample : List (ℕ × Oracle ℕ) :=
  let push (t v : ℕ) : ℕ × Oracle ℕ := (t, ⟨.push v, false⟩)
  List.replicate 5 (push 0 7) ++ List.replicate 6 (push 1 8) ++ [(1, ⟨.push 8, true⟩)] ++
    List.replicate 2 (push 0 7) ++ List.replicate 7 (2, ⟨.pop, false⟩)

theorem helped_fifo_sample : ∃ d, Config.run exec sample start = .ok d ∧
    d.shared.returned 2 = [some 0] ∧ Fifo d :=
  ⟨_, rfl, rfl, helped_fifo (ReachIf.run (.start rfl)
    (rfl : Config.run exec sample start = .ok _))⟩

end Example
end CsNotes.LockfreeQueue
