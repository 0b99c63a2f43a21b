import CsNotes.SpscQueue.Invariant

/-!
# Every step keeps the assertions

The producer works on the dummy node and the one it has made, the consumer on
the front of the path and the node it has unlinked. To link a node, or to unlink
one, leaves the list of live nodes as it is.
-/
namespace CsNotes.SpscQueue
open Interleaving Storage History Segment

variable {Addr A : Type*} {s s' : Shared Addr A} {g g' : Ghost Addr A} {p : Ptr Addr}
variable {n : Node Addr A}

theorem blocks_alive (h : g.dead = false) :
    blocks s g = g.taken.toList ++ (path s g ++ g.made.toList) := by
  unfold blocks
  rw [h]
  rfl

theorem mem_blocks (h : g.dead = false) :
    p ∈ blocks s g ↔
      g.taken = some p ∨ p ∈ g.nodes.map Prod.fst ∨ p = s.tail ∨ g.made = some p := by
  rw [blocks_alive h]
  simp [path]

namespace Global

/-- The dummy node, the nodes before it, and those off the path are different. -/
theorem distinct (h : Global s g) (ha : g.dead = false) :
    (∀ p, g.taken = some p ∨ p ∈ g.nodes.map Prod.fst ∨ g.made = some p → p ≠ s.tail) ∧
      (∀ p q, g.taken = some p → q ∈ g.nodes.map Prod.fst ∨ g.made = some q → q ≠ p) := by
  have hnd := h.window.nodup_self
  rw [blocks_alive ha, path, List.nodup_append, List.nodup_append, List.nodup_append] at hnd
  obtain ⟨-, ⟨⟨-, -, hnt⟩, -, hpm⟩, htp⟩ := hnd
  constructor
  · rintro p (hp | hp | hp) rfl
    · exact htp s.tail (by simp [hp]) s.tail (by simp) rfl
    · exact hnt s.tail hp s.tail (by simp) rfl
    · exact hpm s.tail (by simp) s.tail (by simp [hp]) rfl
  · rintro p q hp hq rfl
    refine htp q (by simp [hp]) q ?_ rfl
    simpa [or_assoc] using hq.imp_right .inr

theorem ne_tail (h : Global s g) (ha : g.dead = false)
    (hp : g.taken = some p ∨ p ∈ g.nodes.map Prod.fst ∨ g.made = some p) : p ≠ s.tail :=
  (h.distinct ha).1 p hp

theorem alive (h : Global s g) (hopen : s.closing = false) : g.dead = false := by
  cases hd : g.dead with
  | false => rfl
  | true => rw [h.closing hd] at hopen; cases hopen

theorem nodes_eq_nil [DecidableEq Addr] (h : Global s g) (ha : g.dead = false)
    (he : s.HeadIs s.tail) : g.nodes = [] := by
  cases hn : g.nodes with
  | nil => rfl
  | cons x l =>
      have hseg := h.seg ha
      rw [hn] at hseg
      obtain ⟨next, hq, -⟩ := hseg
      have hmem : x.1 ∈ g.nodes.map Prod.fst := by simp [hn]
      have hne := h.ne_tail ha (.inr (.inl hmem))
      have haddr : x.1.addr = s.tail.addr := by simpa [Shared.HeadIs, hq.1] using he
      exact (h.window.addr_ne ((mem_blocks ha).mpr (.inr (.inl hmem)))
        ((mem_blocks ha).mpr (.inr (.inr (.inl rfl)))) hne haddr).elim

theorem head_eq_tail (h : Global s g) (ha : g.dead = false) (hn : g.nodes = []) :
    s.head = some s.tail := by
  have hseg := h.seg ha
  rw [hn] at hseg
  exact hseg

/-- No end of the path moves, and what is in the nodes before `tail` stays. -/
theorem keep (h : Global s g) (hw : Window s'.mem s'.deleted.length (blocks s' g'))
    (hdel : s'.deleted = List.range s'.deleted.length)
    (hr : ∀ p ∈ g.nodes.map Prod.fst, s'.mem.read p = s.mem.read p) (hnodes : g'.nodes = g.nodes)
    (hdead : g'.dead = g.dead) (hh : s'.head = s.head) (ht : s'.tail = s.tail)
    (hc : s.closing = true → s'.closing = true)
    (hi : QueueRun s'.history (g.nodes.map Prod.snd)) : Global s' g' := by
  constructor
  case window => exact hw
  case deleted => exact hdel
  case seg =>
    intro hd
    rw [hh, hnodes, ht]
    refine (h.seg (hdead ▸ hd)).congr fun x hx p next hq => ?_
    obtain ⟨hp, n, hn, hrest⟩ := hq
    exact ⟨hp, n, (hr _ (List.mem_map_of_mem hx)).trans hn, hrest⟩
  case run =>
    rw [hnodes]
    exact hi
  case closing => exact fun hd => hc (h.closing (hdead ▸ hd))

variable [DecidableEq Addr]

theorem write (h : Global s g) (s' : Shared Addr A) (ha : g.dead = false) (n : Node Addr A)
    (hp : p = s.tail ∨ g.taken = some p) (hm : s'.mem = s.mem.write p n)
    (hdel : s'.deleted = s.deleted) (hh : s'.head = s.head) (ht : s'.tail = s.tail)
    (hc : s'.closing = s.closing) (hi : s'.history = s.history) :
    Global s' g ∧ ∀ q, q ∈ blocks s g → q ≠ p → s'.mem.read q = s.mem.read q := by
  have hpb : p ∈ blocks s g := by
    rw [mem_blocks ha]
    exact hp.elim (fun h => .inr (.inr (.inl h))) .inl
  have hread : ∀ q, q ∈ blocks s g → q ≠ p → s'.mem.read q = s.mem.read q := by
    intro q hq hne
    rw [hm]
    exact h.window.read_write hpb hq hne
  have hblocks : blocks s' g = blocks s g := by
    unfold blocks path
    rw [ht]
  refine ⟨h.keep ?_ ?_ (fun q hq => ?_) rfl rfl hh ht (fun hx => hc.trans hx) ?_, hread⟩
  · rw [hm, hdel, hblocks]
    exact h.window.write p n
  · rw [hdel]
    exact h.deleted
  · refine hread q ((mem_blocks ha).mpr (.inr (.inl hq))) ?_
    rcases hp with rfl | hp
    · exact h.ne_tail ha (.inr (.inl hq))
    · exact (h.distinct ha).2 p q hp (.inl hq)
  · rw [hi]
    exact h.run

theorem free (h : Global s g) (s' : Shared Addr A) (g' : Ghost Addr A)
    (hb : blocks s g = p :: blocks s' g')
    (hm : s'.mem = s.mem.free p) (hdel : s'.deleted = s.deleted ++ [p.id]) :
    Window s'.mem s'.deleted.length (blocks s' g') ∧
      s'.deleted = List.range s'.deleted.length ∧
      ∀ q ∈ blocks s' g', s'.mem.read q = s.mem.read q := by
  have hw := h.window
  rw [hb] at hw
  have hid : p.id = s.deleted.length := hw.id_eq []
  refine ⟨?_, ?_, fun q hq => ?_⟩
  · rw [hm, hdel, List.length_append]
    exact hw.free
  · rw [hdel, List.length_append, hid]
    change _ = List.range (s.deleted.length + 1)
    rw [List.range_succ, ← h.deleted]
  · rw [hm]
    exact hw.read_free hq

end Global

variable {c : Config Thread (Shared Addr A) (PC Addr A)} {r : Shared Addr A × PC Addr A}
variable [DecidableEq Addr]

def Post (c : Config Thread (Shared Addr A) (PC Addr A)) (t : Thread)
    (r : Shared Addr A × PC Addr A) : Prop :=
  ∃ g, Global r.1 g ∧ Local r.1 g t r.2 ∧ ∀ u, u ≠ t → Local r.1 g u (c.pc u)

theorem post_producer (g' : Ghost Addr A) (hC : Consumer c.shared g (c.pc .consumer))
    (hopen : c.shared.closing = false)
    (f : KeepsConsumer c.shared g r.1 g') (hG : Global r.1 g') (hP : Producer r.1 g' r.2) :
    Post c .producer r := by
  refine ⟨g', hG, hP, fun u hu => ?_⟩
  cases u with
  | producer => exact (hu rfl).elim
  | consumer => exact hC.frame f hopen

theorem post_consumer (g' : Ghost Addr A) (hP : Producer c.shared g (c.pc .producer))
    (f : KeepsProducer c.shared g r.1 g')
    (hclosing : r.1.closing = true → c.shared.closing = true ∨ c.pc .producer = .idle)
    (halive : g'.dead = true → c.shared.closing = true) (hG : Global r.1 g')
    (hC : Consumer r.1 g' r.2) : Post c .consumer r := by
  refine ⟨g', hG, hC, fun u hu => ?_⟩
  cases u with
  | consumer => exact (hu rfl).elim
  | producer =>
      refine hP.frame f (fun hc => (hclosing hc).elim hP.closing id) fun hne => ?_
      cases hd : g'.dead with
      | false => rfl
      | true => exact (hne (hP.closing (halive hd))).elim

omit [DecidableEq Addr] in
theorem keepsConsumer_same (hm : s'.mem = s.mem) (hh : s'.head = s.head) (ht : s'.tail = s.tail)
    (hret : s'.returned = s.returned) (hd : s'.destroyed = s.destroyed)
    (hdel : s'.deleted = s.deleted) (hc : s'.closing = s.closing) (hi : s'.history = s.history) :
    KeepsConsumer s g s' g where
  head := hh
  returned := hret
  destroyed := hd
  deleted := hdel
  closing := hc
  owed := by rw [hi]
  taken := rfl
  dead := rfl
  nodes := List.prefix_rfl
  onPath p hp := by
    unfold path
    rw [ht]
    exact hp
  reads p _ := by rw [hm]

theorem step_newNode {v : A} {o : Oracle Addr A} {movedFrom : A → A} (hG : Global c.shared g)
    (hP : Producer c.shared g (.newNode v)) (hC : Consumer c.shared g (c.pc .consumer)) :
    (exec movedFrom .producer o c.shared (.newNode v)).Sat (Post c .producer) := by
  have hopen : c.shared.closing = false := by
    cases hc : c.shared.closing with
    | false => rfl
    | true => cases hP.closing hc
  have ha := hG.alive hopen
  simp only [exec]
  split
  case isFalse => trivial
  case isTrue hfree =>
    have hblocks : blocks { c.shared with mem := c.shared.mem.alloc o.addr {} }
        { g with made := some (c.shared.mem.fresh o.addr) } =
          blocks c.shared g ++ [c.shared.mem.fresh o.addr] := by
      refine (blocks_alive (g := { g with made := some _ }) ha).trans ?_
      rw [blocks_alive ha, hP.made]
      simp [PC.made, path]
    have hread : ∀ q, q ∈ blocks c.shared g →
        (c.shared.mem.alloc o.addr {}).read q = c.shared.mem.read q :=
      fun q hq => hG.window.read_alloc hfree hq
    have hmem : ∀ q, g.taken = some q ∨ q ∈ g.nodes.map Prod.fst ∨ q = c.shared.tail →
        q ∈ blocks c.shared g :=
      fun q hq => (mem_blocks ha).mpr (hq.imp_right fun h => h.imp_right .inl)
    refine post_producer { g with made := some (c.shared.mem.fresh o.addr) } hC hopen ?_ ?_ ?_
    · exact { keepsConsumer_same (s := c.shared) rfl rfl rfl rfl rfl
        rfl rfl rfl with reads := fun q hq => hread q (hmem q (hq.imp_right .inl)) }
    · refine hG.keep ?_ hG.deleted (fun q hq => hread q (hmem q (.inr (.inl hq)))) rfl rfl rfl
        rfl id
        hG.run
      rw [hblocks]
      exact hG.window.alloc hfree {}
    · obtain ⟨hdummy, hcons⟩ := hP.facts
      refine ⟨rfl, fun p hp => ?_, fun hc => ?_, fun _ => ?_, hcons⟩
      · cases hp
        exact Memory.read_alloc_fresh
      · rw [hopen] at hc
        cases hc
      · exact (hread _ (hmem _ (.inr (.inr rfl)))).trans (hdummy ha)

omit [DecidableEq Addr] in
theorem Producer.opened {pc : PC Addr A} (h : Producer s g pc) (hpc : pc ≠ .idle) :
    s.closing = false := by
  cases hc : s.closing with
  | false => rfl
  | true => exact (hpc (h.closing hc)).elim

theorem post_writeTail {pc pc' : PC Addr A} {constructed : List ℕ} (hG : Global c.shared g)
    (hP : Producer c.shared g pc) (hC : Consumer c.shared g (c.pc .consumer)) (hpc : pc ≠ .idle)
    (hmade : pc'.made = pc.made)
    (hf : PC.OfProducer { c.shared with
      mem := c.shared.mem.write c.shared.tail n
      constructed := constructed } g pc') :
    Post c .producer ({ c.shared with
      mem := c.shared.mem.write c.shared.tail n
      constructed := constructed }, pc') := by
  have hopen := hP.opened hpc
  have ha := hG.alive hopen
  obtain ⟨hG', hread⟩ := hG.write { c.shared with
    mem := c.shared.mem.write c.shared.tail n
    constructed := constructed } ha n (.inl rfl) rfl rfl rfl rfl rfl rfl
  have hkeep : ∀ q, g.taken = some q ∨ q ∈ g.nodes.map Prod.fst ∨ g.made = some q →
      (c.shared.mem.write c.shared.tail n).read q = c.shared.mem.read q := by
    intro q hq
    refine hread q ((mem_blocks ha).mpr (hq.imp_right fun h => h.imp_right .inr)) ?_
    exact hG.ne_tail ha hq
  refine post_producer g hC hopen ?_ hG' ?_
  · exact { keepsConsumer_same (s := c.shared) rfl rfl rfl rfl rfl
      rfl rfl rfl with reads := fun q hq => hkeep q (hq.imp_right .inl) }
  · constructor
    case made => exact hP.made.trans hmade.symm
    case blank =>
      intro p hp
      rw [hmade] at hp
      exact (hkeep p (.inr (.inr (hP.made.trans hp)))).trans (hP.blank p hp)
    case closing =>
      intro hc
      cases hopen.symm.trans hc
    case facts => exact hf

theorem step_construct {v : A} {new old : Ptr Addr} {o : Oracle Addr A} {movedFrom : A → A}
    (hG : Global c.shared g) (hP : Producer c.shared g (.construct v new old))
    (hC : Consumer c.shared g (c.pc .consumer)) :
    (exec movedFrom .producer o c.shared (.construct v new old)).Sat (Post c .producer) := by
  have ha := hG.alive (hP.opened (by simp))
  obtain ⟨rfl, hread, hcons⟩ := hP.facts
  simp only [exec, Memory.access_of_read (hread ha)]
  refine post_writeTail hG hP hC (by simp) rfl ⟨rfl, fun _ => ?_, ?_⟩
  · exact Memory.read_write_self (hread ha)
  · exact (congrArg (· ++ [c.shared.tail.id]) hcons).trans List.range_succ.symm

theorem step_linkNext {v : A} {new old : Ptr Addr} {o : Oracle Addr A} {movedFrom : A → A}
    (hG : Global c.shared g) (hP : Producer c.shared g (.linkNext v new old))
    (hC : Consumer c.shared g (c.pc .consumer)) :
    (exec movedFrom .producer o c.shared (.linkNext v new old)).Sat (Post c .producer) := by
  have ha := hG.alive (hP.opened (by simp))
  obtain ⟨rfl, hread, hcons⟩ := hP.facts
  simp only [exec, Memory.access_of_read (hread ha)]
  exact post_writeTail hG hP hC (by simp) rfl
    ⟨fun _ => Memory.read_write_self (hread ha), hcons⟩

theorem step_storeTail {v : A} {new : Ptr Addr} {o : Oracle Addr A} {movedFrom : A → A}
    (hG : Global c.shared g) (hP : Producer c.shared g (.storeTail v new))
    (hC : Consumer c.shared g (c.pc .consumer)) :
    (exec movedFrom .producer o c.shared (.storeTail v new)).Sat (Post c .producer) := by
  have hopen := hP.opened (by simp)
  have ha := hG.alive hopen
  obtain ⟨hread, hcons⟩ := hP.facts
  have hnew := hP.blank new rfl
  have hblocks : blocks { c.shared with
      tail := new
      history := c.shared.history ++ [.push () v] }
        { g with nodes := g.nodes ++ [(c.shared.tail, v)], made := none } =
          blocks c.shared g := by
    refine (blocks_alive (g := { g with nodes := _, made := none }) ha).trans ?_
    rw [blocks_alive ha, hP.made]
    simp [PC.made, path]
  have hid : new.id = c.shared.tail.id + 1 := by
    have hw := hG.window
    rw [blocks_alive ha, hP.made, path, List.append_assoc, ← List.append_assoc] at hw
    exact hw.id_succ
  refine post_producer { g with nodes := g.nodes ++ [(c.shared.tail, v)], made := none } hC hopen
    ?_ ⟨?_, hG.deleted, fun _ => ?_, ?_, hG.closing⟩
    ⟨rfl, fun p hp => ?_, fun hc => ?_, fun _ => hnew, ?_⟩
  · constructor
    case owed => exact answers_push
    case nodes => exact List.prefix_append _ _
    case onPath =>
      intro p hp
      unfold path at hp ⊢
      rw [List.map_append]
      exact List.mem_append_left _ hp
    all_goals first | rfl | exact fun _ _ => rfl
  · rw [hblocks]
    exact hG.window
  · exact (hG.seg ha).snoc ⟨rfl, _, hread ha, rfl, rfl, by simp⟩
  · rw [List.map_append]
    exact hG.run.push () v
  · cases hp
  · cases hopen.symm.trans hc
  · rw [hcons, hid]

theorem step_producer {pc : PC Addr A} {o : Oracle Addr A} {movedFrom : A → A}
    (hG : Global c.shared g) (hP : Producer c.shared g pc)
    (hC : Consumer c.shared g (c.pc .consumer)) :
    (exec movedFrom .producer o c.shared pc).Sat (Post c .producer) := by
  have hkeep : KeepsConsumer c.shared g c.shared g :=
    keepsConsumer_same rfl rfl rfl rfl rfl rfl rfl rfl
  cases pc with
  | idle =>
      cases hcall : o.call with
      | pop | destroy => simp only [exec, hcall, Outcome.sat_wait]
      | push v =>
          cases hopen : c.shared.closing with
          | true => simp [exec, hcall, hopen]
          | false =>
              simp only [exec, hcall, hopen]
              refine post_producer g hC hopen hkeep hG
                ⟨hP.made, fun p hp => ?_, fun hc => ?_, hP.facts⟩
              · cases hp
              · cases hopen.symm.trans hc
  | newNode v => exact step_newNode hG hP hC
  | loadOldTail v new =>
      have hopen := hP.opened (by simp)
      refine post_producer g hC hopen hkeep hG ⟨hP.made, hP.blank, fun hc => ?_, rfl, hP.facts⟩
      cases hopen.symm.trans hc
  | construct v new old => exact step_construct hG hP hC
  | linkNext v new old => exact step_linkNext hG hP hC
  | storeTail v new => exact step_storeTail hG hP hC
  | _ => exact hP.facts.elim

theorem Consumer.alive {pc : PC Addr A} (h : Consumer s g pc) (hpc : pc ≠ .destroyed) :
    g.dead = false := by
  cases hd : g.dead with
  | false => rfl
  | true => exact (hpc (h.dead.mp hd)).elim

/-- The consumer changes neither a node nor an end of the path. -/
theorem post_same {pc pc' : PC Addr A} {b : Bool} {h : List (Event Unit A)}
    {l : List (Option A)} (hG : Global c.shared g) (hP : Producer c.shared g (c.pc .producer))
    (hC : Consumer c.shared g pc) (hpc : pc ≠ .destroyed)
    (hi : QueueRun h (g.nodes.map Prod.snd))
    (hclosing : b = true → c.shared.closing = true ∨ c.pc .producer = .idle)
    (hstays : c.shared.closing = true → b = true) (htaken : pc.taken = pc'.taken)
    (hpc' : pc' ≠ .destroyed) (hclosing' : b = true ↔ pc'.Closing)
    (hgone : pc.emptied = pc'.emptied)
    (hf : pc'.OfConsumer { c.shared with closing := b, history := h, returned := l } g) :
    Post c .consumer ({ c.shared with closing := b, history := h, returned := l }, pc') := by
  have hdead := hC.alive hpc
  refine post_consumer g hP ⟨rfl, rfl, rfl, fun _ => hdead, fun _ _ _ => rfl⟩ hclosing
    (fun hd => ?_) ?_ ?_
  · cases hdead.symm.trans hd
  · exact hG.keep hG.window hG.deleted (fun _ _ => rfl) rfl rfl rfl rfl hstays hi
  · constructor
    case taken => exact hC.taken.trans htaken
    case dead => simp [hdead, hpc']
    case closing => exact hclosing'
    case destroyed => exact fun hd => hgone ▸ hC.destroyed hd
    case facts => exact hf

theorem post_next {pc pc' : PC Addr A} {h : List (Event Unit A)} (hG : Global c.shared g)
    (hP : Producer c.shared g (c.pc .producer)) (hC : Consumer c.shared g pc)
    (hpc : pc ≠ .destroyed) (hi : QueueRun h (g.nodes.map Prod.snd))
    (htaken : pc.taken = pc'.taken) (hpc' : pc' ≠ .destroyed) (hclosing : pc.Closing ↔ pc'.Closing)
    (hgone : pc.emptied = pc'.emptied) (hf : pc'.OfConsumer { c.shared with history := h } g) :
    Post c .consumer ({ c.shared with history := h }, pc') :=
  post_same hG hP hC hpc hi .inl id htaken hpc' (hC.closing.trans hclosing) hgone hf

theorem step_idle {o : Oracle Addr A} {movedFrom : A → A} (hG : Global c.shared g)
    (hP : Producer c.shared g (c.pc .producer)) (hC : Consumer c.shared g .idle)
    (halone : o.call = .destroy → c.pc .producer = .idle) :
    (exec movedFrom .consumer o c.shared .idle).Sat (Post c .consumer) := by
  cases hcall : o.call with
  | push v => simp only [exec, hcall, Outcome.sat_wait]
  | pop =>
      simp only [exec, hcall]
      exact post_next hG hP hC (by simp) hG.run rfl (by simp) (by simp [PC.Closing]) rfl hC.facts
  | destroy =>
      simp only [exec, hcall]
      exact post_same hG hP hC (by simp) hG.run (fun _ => .inr (halone hcall)) (fun _ => rfl) rfl
        (by simp) (by simp [PC.Closing]) rfl hC.facts

theorem step_loadTail {k : Caller} {o : Oracle Addr A} {movedFrom : A → A} (hG : Global c.shared g)
    (hP : Producer c.shared g (c.pc .producer)) (hC : Consumer c.shared g (.loadTail k)) :
    (exec movedFrom .consumer o c.shared (.loadTail k)).Sat (Post c .consumer) := by
  have ha := hC.alive (by simp)
  have ho : Owes c.shared [] := hC.facts
  unfold Owes at ho
  refine post_next hG hP hC (by simp) ?_ rfl (by simp) Iff.rfl rfl ⟨?_, fun _ => rfl, ?_⟩
  · split
    · rename_i he
      have hrun := hG.run
      rw [hG.nodes_eq_nil ha he] at hrun ⊢
      exact hrun.empty ()
    · rw [List.append_nil]
      exact hG.run
  · simp [path]
  · unfold Owes
    split
    · rw [answers_empty_self, ho, List.append_nil]
    · rw [List.append_nil]
      exact ho

theorem step_compare {k : Caller} {tail : Ptr Addr} {o : Oracle Addr A} {movedFrom : A → A}
    (hG : Global c.shared g) (hP : Producer c.shared g (c.pc .producer))
    (hC : Consumer c.shared g (.compare k tail)) :
    (exec movedFrom .consumer o c.shared (.compare k tail)).Sat (Post c .consumer) := by
  have ha := hC.alive (by simp)
  obtain ⟨hmem, htail, ho⟩ := hC.facts
  simp only [exec]
  split
  case isTrue he =>
    rw [if_pos he] at ho
    have howes : ∀ s : Shared Addr A, s.history = c.shared.history →
        s.returned = c.shared.returned ++ [none] → Owes s [] := by
      intro s hi hret
      unfold Owes
      rw [hi, hret, ho, List.append_nil]
    cases k with
    | consumer =>
        exact post_same hG hP hC (by simp) hG.run .inl id rfl (by simp)
          (hC.closing.trans (by simp [PC.Closing])) rfl (howes _ rfl rfl)
    | destructor =>
        obtain rfl := htail rfl
        exact post_same hG hP hC (by simp) hG.run .inl id rfl (by simp)
          (hC.closing.trans (by simp [PC.Closing])) rfl ⟨hG.nodes_eq_nil ha he, howes _ rfl rfl⟩
  case isFalse he =>
    rw [if_neg he] at ho
    refine post_next hG hP hC (by simp) hG.run rfl (by simp) Iff.rfl rfl ⟨fun hnil => ?_, ho⟩
    have hhead := hG.head_eq_tail ha hnil
    have ht : tail = c.shared.tail := by simpa [path, hnil] using hmem
    exact he (by rw [ht, Shared.HeadIs, hhead]; rfl)

theorem step_readNext {k : Caller} {o : Oracle Addr A} {movedFrom : A → A}
    (hG : Global c.shared g) (hP : Producer c.shared g (c.pc .producer))
    (hC : Consumer c.shared g (.readNext k)) :
    (exec movedFrom .consumer o c.shared (.readNext k)).Sat (Post c .consumer) := by
  obtain ⟨hne, ho⟩ := hC.facts
  have hseg := hG.seg (hC.alive (by simp))
  obtain ⟨⟨old, v⟩, rest, hnodes⟩ := List.exists_cons_of_ne_nil hne
  rw [hnodes] at hseg
  obtain ⟨next, ⟨hhead, n, hn, -, -⟩, -⟩ := hseg
  simp only [exec, hhead, Memory.access_of_read hn]
  exact post_next hG hP hC (by simp) hG.run rfl (by simp) Iff.rfl rfl
    ⟨⟨v, rest, hnodes⟩, ⟨n, hn, rfl⟩, ho⟩

theorem step_moveHead {k : Caller} {old : Ptr Addr} {next : Option (Ptr Addr)}
    {o : Oracle Addr A} {movedFrom : A → A} (hG : Global c.shared g)
    (hP : Producer c.shared g (c.pc .producer)) (hC : Consumer c.shared g (.moveHead k old next)) :
    (exec movedFrom .consumer o c.shared (.moveHead k old next)).Sat (Post c .consumer) := by
  have ha := hC.alive (by simp)
  obtain ⟨⟨v, rest, hnodes⟩, ⟨n, hn, rfl⟩, ho⟩ := hC.facts
  have hseg := hG.seg ha
  have hrun := hG.run
  rw [hnodes] at hseg hrun
  obtain ⟨next, ⟨-, n', hn', hdata, rfl, hnext⟩, hrest⟩ := hseg
  cases hn.symm.trans hn'
  have hblocks : blocks { c.shared with
      head := n.next
      history := c.shared.history ++ [.pop () v] }
        { g with taken := some old, nodes := rest } = blocks c.shared g := by
    refine (blocks_alive (g := { g with taken := some old, nodes := rest }) ha).trans ?_
    rw [blocks_alive ha, hC.taken]
    simp [PC.taken, path, hnodes]
  simp only [exec, hn, Option.bind_some, hdata, Option.map_some, Option.toList_some]
  refine post_consumer { g with taken := some old, nodes := rest } hP
    ⟨rfl, rfl, rfl, id, fun _ _ _ => rfl⟩ .inl hG.closing
    ⟨?_, hG.deleted, fun _ => hrest, hrun.pop () v, hG.closing⟩
    ⟨rfl, ?_, hC.closing, hC.destroyed, n, v, hn, hnext, hdata, ?_⟩
  · rw [hblocks]
    exact hG.window
  · simp [ha]
  · have howes : answers () c.shared.history = c.shared.returned ++ [] := ho
    exact answers_pop_self.trans (by rw [howes, List.append_nil])

theorem post_writeTaken {pc pc' : PC Addr A} {old : Ptr Addr} {n' : Node Addr A}
    {destroyed : List ℕ} (hG : Global c.shared g) (hP : Producer c.shared g (c.pc .producer))
    (hC : Consumer c.shared g pc) (hpc : pc.taken = some old) (htaken : pc'.taken = some old)
    (hclosing : pc.Closing ↔ pc'.Closing) (hread : c.shared.mem.read old = some n)
    (hdest : destroyed = c.shared.deleted ++ pc'.emptied)
    (hf : ∀ s, s.mem.read old = some n' → s.history = c.shared.history →
      s.returned = c.shared.returned → pc'.OfConsumer s g) :
    Post c .consumer ({ c.shared with
      mem := c.shared.mem.write old n'
      destroyed := destroyed }, pc') := by
  have ha : g.dead = false := by
    refine hC.alive ?_
    rintro rfl
    cases hpc
  have htk := hC.taken.trans hpc
  obtain ⟨hG', hkeep⟩ := hG.write { c.shared with
    mem := c.shared.mem.write old n'
    destroyed := destroyed } ha n' (.inr htk) rfl rfl rfl rfl rfl rfl
  refine post_consumer g hP ⟨rfl, rfl, rfl, id, fun q hq _ => ?_⟩ .inl hG.closing hG'
    ⟨hC.taken.trans (hpc.trans htaken.symm), ?_, hC.closing.trans hclosing, fun _ => hdest,
      hf _ (Memory.read_write_self hread) rfl rfl⟩
  · refine hkeep q ((mem_blocks ha).mpr (hq.elim (fun h => .inr (.inr (.inl h)))
      fun h => .inr (.inr (.inr h)))) ?_
    rcases hq with rfl | hq
    · exact (hG.ne_tail ha (.inl htk)).symm
    · exact (hG.distinct ha).2 old q htk (.inr hq)
  · rw [ha]
    refine iff_of_false Bool.false_ne_true ?_
    rintro rfl
    cases htaken

theorem step_takeData {k : Caller} {old : Ptr Addr} {o : Oracle Addr A} {movedFrom : A → A}
    (hG : Global c.shared g) (hP : Producer c.shared g (c.pc .producer))
    (hC : Consumer c.shared g (.takeData k old)) :
    (exec movedFrom .consumer o c.shared (.takeData k old)).Sat (Post c .consumer) := by
  have hdest := hC.destroyed (hC.alive (by simp))
  obtain ⟨n, v, hn, hnext, hv, ho⟩ := hC.facts
  simp only [exec, Memory.access_of_read hn, hv]
  refine post_writeTaken hG hP hC rfl rfl Iff.rfl hn hdest fun s hs hi hret => ⟨⟨_, hs, ?_⟩, ?_⟩
  · exact ⟨hnext, Option.some_ne_none _⟩
  · unfold Owes
    rw [hi, hret]
    exact ho

theorem step_destroyData {k : Caller} {old : Ptr Addr} {v : A} {o : Oracle Addr A}
    {movedFrom : A → A} (hG : Global c.shared g) (hP : Producer c.shared g (c.pc .producer))
    (hC : Consumer c.shared g (.destroyData k old v)) :
    (exec movedFrom .consumer o c.shared (.destroyData k old v)).Sat (Post c .consumer) := by
  have hdest := hC.destroyed (hC.alive (by simp))
  obtain ⟨⟨n, hn, hnext, hdata⟩, ho⟩ := hC.facts
  obtain ⟨w, hw⟩ := Option.ne_none_iff_exists'.mp hdata
  simp only [exec, Memory.access_of_read hn, hw]
  refine post_writeTaken hG hP hC rfl rfl Iff.rfl hn ?_ fun s hs hi hret =>
    ⟨⟨_, hs, hnext, rfl⟩, ?_⟩
  · rw [hdest]
    simp [PC.emptied]
  · unfold Owes
    rw [hi, hret]
    exact ho

theorem post_free {k : Caller} {old : Ptr Addr} {v : A} {pc' : PC Addr A}
    (hG : Global c.shared g) (hP : Producer c.shared g (c.pc .producer))
    (hC : Consumer c.shared g (.deleteNode k old v)) (htaken : pc'.taken = none)
    (hgone : pc'.emptied = []) (hpc' : pc' ≠ .destroyed)
    (hclosing : k = .destructor ↔ pc'.Closing)
    (hf : ∀ s : Shared Addr A, Owes s [] → pc'.OfConsumer s { g with taken := none }) :
    Post c .consumer (({ c.shared with
      mem := c.shared.mem.free old
      deleted := c.shared.deleted ++ [old.id] } : Shared Addr A).answer (some v), pc') := by
  have ha := hC.alive (by simp)
  have hdest := hC.destroyed ha
  obtain ⟨-, ho⟩ := hC.facts
  have hblocks : blocks c.shared g = old :: blocks (({ c.shared with
      mem := c.shared.mem.free old
      deleted := c.shared.deleted ++ [old.id] } : Shared Addr A).answer (some v))
        { g with taken := none } := by
    rw [blocks_alive ha, hC.taken]
    exact congrArg (old :: ·) (blocks_alive (g := { g with taken := none }) ha).symm
  obtain ⟨hw, hdel, hread⟩ := hG.free _ _ hblocks rfl rfl
  have hmem : ∀ q, q ∈ g.nodes.map Prod.fst ∨ q = c.shared.tail ∨ g.made = some q →
      (c.shared.mem.free old).read q = c.shared.mem.read q := fun q hq =>
    hread q ((mem_blocks (g := { g with taken := none }) ha).mpr (.inr hq))
  refine post_consumer { g with taken := none } hP
    ⟨rfl, rfl, rfl, id, fun q hq _ => hmem q (.inr hq)⟩ .inl hG.closing
    (hG.keep hw hdel (fun q hq => hmem q (.inl hq)) rfl rfl rfl rfl id hG.run)
    ⟨htaken.symm, ?_, hC.closing.trans hclosing, fun _ => ?_, hf _ ?_⟩
  · simp [ha, hpc']
  · rw [hgone, List.append_nil]
    exact hdest
  · unfold Owes
    rw [List.append_nil]
    exact ho

theorem step_deleteNode {k : Caller} {old : Ptr Addr} {v : A} {o : Oracle Addr A}
    {movedFrom : A → A} (hG : Global c.shared g) (hP : Producer c.shared g (c.pc .producer))
    (hC : Consumer c.shared g (.deleteNode k old v)) :
    (exec movedFrom .consumer o c.shared (.deleteNode k old v)).Sat (Post c .consumer) := by
  obtain ⟨⟨n, hn, -, hdata⟩, -⟩ := hC.facts
  simp only [exec, Shared.delete, Memory.access_of_read hn, hdata]
  cases k with
  | consumer =>
      exact post_free hG hP hC rfl rfl (by simp) (by simp [PC.Closing]) fun _ ho => ho
  | destructor =>
      exact post_free hG hP hC rfl rfl (by simp) (by simp [PC.Closing]) fun _ ho => ho

theorem step_deleteHead {o : Oracle Addr A} {movedFrom : A → A} (hG : Global c.shared g)
    (hP : Producer c.shared g (c.pc .producer)) (hC : Consumer c.shared g .deleteHead) :
    (exec movedFrom .consumer o c.shared .deleteHead).Sat (Post c .consumer) := by
  have ha := hC.alive (by simp)
  have hdest := hC.destroyed ha
  have hclosing : c.shared.closing = true := hC.closing.mpr trivial
  have hidle := hP.closing hclosing
  obtain ⟨hnil, ho⟩ := hC.facts
  have hdummy := hP.facts
  have hmade := hP.made
  rw [hidle] at hdummy hmade
  have hblocks : blocks c.shared g = [c.shared.tail] := by
    rw [blocks_alive ha, hC.taken, hmade]
    simp [PC.taken, PC.made, path, hnil]
  have hid : c.shared.tail.id = c.shared.deleted.length := by
    have hw := hG.window
    rw [hblocks] at hw
    exact hw.id_eq []
  simp only [exec, hG.head_eq_tail ha hnil, Shared.delete,
    Memory.access_of_read (hdummy.1 ha)]
  obtain ⟨hw, hdel, -⟩ := hG.free { c.shared with
    mem := c.shared.mem.free c.shared.tail
    deleted := c.shared.deleted ++ [c.shared.tail.id] } { g with dead := true } hblocks rfl rfl
  refine post_consumer { g with dead := true } hP
    ⟨rfl, rfl, rfl, fun h => ?_, fun _ _ h => ?_⟩ .inl (fun _ => hclosing)
    ⟨hw, hdel, fun h => ?_, hG.run, fun _ => hclosing⟩
    ⟨hC.taken, by simp, iff_of_true hclosing trivial, fun h => ?_, ?_, ho⟩
  · cases h
  · cases h
  · cases h
  · cases h
  · change c.shared.destroyed = List.range c.shared.tail.id
    rw [hdest, hid, ← hG.deleted]
    exact List.append_nil _

theorem step_consumer {pc : PC Addr A} {o : Oracle Addr A} {movedFrom : A → A}
    (hG : Global c.shared g) (hP : Producer c.shared g (c.pc .producer))
    (hC : Consumer c.shared g pc)
    (halone : pc = .idle → o.call = .destroy → c.pc .producer = .idle) :
    (exec movedFrom .consumer o c.shared pc).Sat (Post c .consumer) := by
  cases pc with
  | idle => exact step_idle hG hP hC (halone rfl)
  | loadTail k => exact step_loadTail hG hP hC
  | compare k tail => exact step_compare hG hP hC
  | readNext k => exact step_readNext hG hP hC
  | moveHead k old next => exact step_moveHead hG hP hC
  | takeData k old => exact step_takeData hG hP hC
  | destroyData k old v => exact step_destroyData hG hP hC
  | deleteNode k old v => exact step_deleteNode hG hP hC
  | deleteHead => exact step_deleteHead hG hP hC
  | destroyed => trivial
  | _ => exact hC.facts.elim

/-- A queue somewhere, as constructed. -/
def New (c : Config Thread (Shared Addr A) (PC Addr A)) : Prop := ∃ a, c = start a

theorem outline (movedFrom : A → A) :
    Outline (exec movedFrom) Alone (New : Config Thread (Shared Addr A) (PC Addr A) → Prop)
      Global Local := by
  constructor
  case start =>
    rintro c ⟨a, rfl⟩
    refine ⟨⟨none, [], none, false⟩, ⟨?_, rfl, fun _ => rfl, .nil, fun h => ?_⟩, fun t => ?_⟩
    · exact Window.alloc Window.empty rfl ({} : Node Addr A)
    · cases h
    · have hread : (start (A := A) a).shared.mem.read (start (A := A) a).shared.tail = some {} :=
        Memory.read_alloc_fresh
      cases t with
      | producer =>
          refine ⟨rfl, fun p hp => ?_, fun _ => rfl, fun _ => hread, rfl⟩
          cases hp
      | consumer =>
          refine ⟨rfl, iff_of_false Bool.false_ne_true ?_, iff_of_false Bool.false_ne_true id,
            fun _ => rfl, rfl⟩
          intro h
          cases h
  case step =>
    intro c t o g _ halone hG hL
    cases t with
    | producer => exact step_producer hG (hL .producer) (hL .consumer)
    | consumer => exact step_consumer hG (hL .producer) (hL .consumer) (halone rfl)

end CsNotes.SpscQueue
