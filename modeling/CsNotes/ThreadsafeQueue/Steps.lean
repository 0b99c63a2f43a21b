import CsNotes.ThreadsafeQueue.Invariant

/-!
# What single steps do to the assertions

A step takes or releases a mutex, works on one node which is off the path or is
the dummy, or moves one end of the path. Whoever holds the other mutex is not
disturbed.
-/
namespace CsNotes.ThreadsafeQueue
open Interleaving Storage History Segment

variable {Tid Addr A : Type*} {s s' : Shared Tid Addr A} {g : Ghost Tid Addr A}
variable {t u : Tid} {p : Ptr Addr} {n n' : Node Addr A}

theorem mem_path_of_node {x : Ptr Addr × A} (hx : x ∈ g.nodes) : x.1 ∈ path s g :=
  List.mem_append_left _ (List.mem_map_of_mem hx)

theorem tail_mem_path : s.tail ∈ path s g := by
  simp [path]

theorem Global.addr_ne_of_mem (h : Global s g) {a : Addr} (hp : p ∈ path s g)
    (ha : g.role a ≠ .queued) : p.addr ≠ a := by
  rintro rfl
  exact ha ((h.queued _).mpr (List.mem_map_of_mem hp))

theorem Global.node_ne_tail (h : Global s g) {x : Ptr Addr × A} (hx : x ∈ g.nodes) :
    x.1.addr ≠ s.tail.addr := by
  have hnd := h.nodup
  rw [path, List.map_append, List.nodup_append] at hnd
  exact hnd.2.2 _ (List.mem_map_of_mem (List.mem_map_of_mem hx)) _ (by simp)

/-- If `head` is not some pointer of the path, it is not the dummy node either. -/
theorem Global.nodes_ne_nil (h : Global s g) (hp : p ∈ path s g) (hne : ¬ s.HeadIs p) :
    g.nodes ≠ [] := by
  intro hnil
  have hseg := h.seg
  rw [hnil] at hseg
  have hpt : p = s.tail := by simpa [path, hnil] using hp
  have hhead : s.head = some s.tail := hseg
  exact hne (by simp [Shared.HeadIs, hhead, hpt])

theorem Global.nodes_eq_nil (h : Global s g) (he : s.HeadIs s.tail) : g.nodes = [] := by
  by_contra hne
  obtain ⟨x, l, hx⟩ := List.exists_cons_of_ne_nil hne
  have hseg := h.seg
  rw [hx] at hseg
  obtain ⟨next, hq, -⟩ := hseg
  have hmem : x ∈ g.nodes := by simp [hx]
  refine h.node_ne_tail hmem ?_
  simpa [Shared.HeadIs, hq.1] using he

theorem Global.of_same (h : Global s g) (hm : s'.mem = s.mem) (hh : s'.head = s.head)
    (ht : s'.tail = s.tail)
    (hd : s'.tailMutex = none → s.tailMutex = none ∨ s.mem.read s.tail = some {})
    (hi : QueueRun s'.history (g.nodes.map Prod.snd)) : Global s' g := by
  have hpath : path s' g = path s g := by rw [path, path, ht]
  refine ⟨hm ▸ h.free, hpath ▸ h.queued, hpath ▸ h.nodup, ?_, ?_, hi⟩
  · rw [hm, hh, ht]
    exact h.seg
  · obtain ⟨n, hn, hblank⟩ := h.dummy
    refine ⟨n, by rw [hm, ht, hn], fun hfree => ?_⟩
    rcases hd hfree with hs | hs
    · exact hblank hs
    · exact Option.some.inj (hn.symm.trans hs)

variable [DecidableEq Addr]

/-- The ghost data after the owner of one node changed. -/
def Ghost.set (g : Ghost Tid Addr A) (a : Addr) (r : Role Tid) : Ghost Tid Addr A :=
  { g with role := Function.update g.role a r }

@[simp] theorem Ghost.nodes_set {a : Addr} {r : Role Tid} : (g.set a r).nodes = g.nodes := rfl
@[simp] theorem path_set {a : Addr} {r : Role Tid} : path s (g.set a r) = path s g := rfl

theorem Global.of_set (h : Global s g) {a : Addr} {r : Role Tid} (hq : g.role a ≠ .queued)
    (hr : r ≠ .queued) (hf : r = .free ↔ s'.mem.cell a = none)
    (hm : Memory.EqOff a s.mem s'.mem) (hh : s'.head = s.head) (ht : s'.tail = s.tail)
    (hx : s'.tailMutex = s.tailMutex) (hi : s'.history = s.history) : Global s' (g.set a r) := by
  have hpath : path s' (g.set a r) = path s g := by rw [path_set, path, path, ht]
  have hread : ∀ p ∈ path s g, s'.mem.read p = s.mem.read p :=
    fun p hp => hm.read (h.addr_ne_of_mem hp hq)
  refine ⟨fun b => ?_, fun b => ?_, hpath ▸ h.nodup, ?_, ?_, hi ▸ h.run⟩
  · by_cases hb : b = a
    · subst hb
      simpa only [Ghost.set, Function.update_self] using hf
    · simpa only [Ghost.set, Function.update_of_ne hb, hm b hb] using h.free b
  · rw [hpath]
    by_cases hb : b = a
    · subst hb
      simpa only [Ghost.set, Function.update_self, hr, false_iff] using mt (h.queued b).mpr hq
    · simpa only [Ghost.set, Function.update_of_ne hb] using h.queued b
  · rw [hh, ht]
    refine h.seg.congr fun x hx c next hc => ?_
    obtain ⟨hc, n, hn, hd⟩ := hc
    exact ⟨hc, n, by rw [hread _ (mem_path_of_node hx), hn], hd⟩
  · obtain ⟨n, hn, hb⟩ := h.dummy
    exact ⟨n, by rw [ht, hread _ tail_mem_path, hn], hx ▸ hb⟩

theorem Global.write_tail (h : Global s g) (hm : s'.mem = s.mem.write s.tail n')
    (hh : s'.head = s.head) (ht : s'.tail = s.tail) (hx : s'.tailMutex ≠ none)
    (hi : s'.history = s.history) : Global s' g := by
  have hpath : path s' g = path s g := by rw [path, path, ht]
  obtain ⟨n, hn, -⟩ := h.dummy
  refine ⟨fun a => ?_, hpath ▸ h.queued, hpath ▸ h.nodup, ?_, ?_, hi ▸ h.run⟩
  · rw [hm, Memory.cell_write_eq_none]
    exact h.free a
  · rw [hh, ht, hm]
    refine h.seg.congr fun x hx c next hc => ?_
    obtain ⟨hc, k, hk, hd⟩ := hc
    exact ⟨hc, k, by rw [Memory.eqOff_write.read (h.node_ne_tail hx), hk], hd⟩
  · exact ⟨n', by rw [hm, ht, Memory.read_write_self hn], fun hnone => (hx hnone).elim⟩

/-- Advancing `tail` makes the old dummy node one of the queue. -/
theorem Global.push (h : Global s g) {v : A} (hp : s.mem.read p = some {})
    (hr : g.role p.addr = .own t) (hn : s.mem.read s.tail = some { data := some v, next := some p })
    (hm : s'.mem = s.mem) (hh : s'.head = s.head) (ht : s'.tail = p)
    (hi : s'.history = s.history ++ [.push u v]) :
    Global s' { g.set p.addr .queued with nodes := g.nodes ++ [(s.tail, v)] } := by
  have hpath : path s' { g.set p.addr .queued with nodes := g.nodes ++ [(s.tail, v)] } =
      path s g ++ [p] := by
    simp [path, ht]
  have hnot : p.addr ∉ (path s g).map Ptr.addr := by
    rw [← h.queued, hr]
    simp
  refine ⟨fun b => ?_, fun b => ?_, ?_, ?_, ⟨{}, by rw [hm, ht, hp], fun _ => rfl⟩, ?_⟩
  · rw [hm]
    by_cases hb : b = p.addr
    · subst hb
      simpa [Ghost.set] using Memory.cell_ne_none_of_read hp
    · simpa only [Ghost.set, Function.update_of_ne hb] using h.free b
  · rw [hpath]
    by_cases hb : b = p.addr
    · subst hb
      simp [Ghost.set]
    · simpa [Ghost.set, Function.update_of_ne hb, hb] using h.queued b
  · rw [hpath, List.map_append, List.nodup_append]
    refine ⟨h.nodup, by simp, fun a ha b hb hab => hnot ?_⟩
    have hbp : b = p.addr := by simpa using hb
    rwa [← hbp, ← hab]
  · rw [hh, hm, ht]
    exact h.seg.snoc ⟨rfl, _, hn, rfl, rfl⟩
  · rw [hi, List.map_append]
    exact h.run.push u v

/-- Advancing `head` takes the first node off the path. -/
theorem Global.pop (h : Global s g) {v : A} {rest : List (Ptr Addr × A)}
    (hnodes : g.nodes = (p, v) :: rest) (hp : s.mem.read p = some n) (hm : s'.mem = s.mem)
    (hh : s'.head = n.next) (ht : s'.tail = s.tail) (hx : s'.tailMutex = s.tailMutex)
    (hi : s'.history = s.history ++ [.pop u v]) :
    n.data = some v ∧ Global s' { g.set p.addr (.own t) with nodes := rest } := by
  obtain ⟨role, nodes⟩ := g
  obtain rfl : nodes = (p, v) :: rest := hnodes
  obtain ⟨hfree, hq, hnd, hseg, hdummy, hrun⟩ := h
  obtain ⟨next, ⟨-, k, hk, hd, hnext⟩, hrest⟩ := hseg
  obtain rfl := Option.some.inj (hk.symm.trans hp)
  have hpath : path s' { (Ghost.mk role ((p, v) :: rest)).set p.addr (.own t) with nodes := rest } =
      rest.map Prod.fst ++ [s.tail] := by
    simp [path, ht]
  have hcons : (path s ⟨role, (p, v) :: rest⟩).map Ptr.addr =
      p.addr :: (rest.map Prod.fst ++ [s.tail]).map Ptr.addr := rfl
  rw [hcons, List.nodup_cons] at hnd
  refine ⟨hd, fun b => ?_, fun b => ?_, hpath ▸ hnd.2, ?_, ?_, ?_⟩
  · rw [hm]
    by_cases hb : b = p.addr
    · subst hb
      simpa [Ghost.set] using Memory.cell_ne_none_of_read hp
    · simpa only [Ghost.set, Function.update_of_ne hb] using hfree b
  · rw [hpath]
    by_cases hb : b = p.addr
    · subst hb
      simpa [Ghost.set] using hnd.1
    · have := hq b
      rw [hcons, List.mem_cons] at this
      simpa only [Ghost.set, Function.update_of_ne hb, hb, false_or] using this
  · rw [hh, hm, ht, hnext]
    exact hrest
  · obtain ⟨n, hn, hb⟩ := hdummy
    exact ⟨n, by rw [hm, ht, hn], hx ▸ hb⟩
  · rw [hi]
    exact hrun.pop u v

variable [DecidableEq Tid]

omit [DecidableEq Addr] in
theorem Frame.of_same (hm : s'.mem = s.mem) (hh : s'.head = s.head) (ht : s'.tail = s.tail)
    (hH : s'.headMutex = some u ↔ s.headMutex = some u)
    (hT : s'.tailMutex = some u ↔ s.tailMutex = some u)
    (ho : answers u s'.history = answers u s.history) (hr : s'.returned u = s.returned u) :
    Frame u s g s' g :=
  ⟨hH, hT, fun _ => Iff.rfl, fun _ _ hn _ => by rw [hm, hn], fun _ => ⟨ht, by rw [hm]⟩,
    fun _ => hh, fun _ => List.prefix_rfl, fun _ p hp => by rwa [path, ht], fun _ _ _ => by rw [hm],
    ho, hr⟩

/-- One node off the path changed, which `u` did not own and does not own. -/
theorem Frame.of_set (h : Global s g) {a : Addr} {r : Role Tid} (hq : g.role a ≠ .queued)
    (ho : g.role a ≠ .own u) (hr : r ≠ .own u) (hm : Memory.EqOff a s.mem s'.mem)
    (hh : s'.head = s.head) (ht : s'.tail = s.tail) (hH : s'.headMutex = s.headMutex)
    (hT : s'.tailMutex = s.tailMutex) (hi : s'.history = s.history)
    (hret : s'.returned u = s.returned u) : Frame u s g s' (g.set a r) := by
  refine ⟨by rw [hH], by rw [hT], fun b => ?_, fun p n hn hu => ?_,
    fun _ => ⟨ht, hm.read (h.addr_ne_of_mem tail_mem_path hq)⟩, fun _ => hh,
    fun _ => List.prefix_rfl, fun _ p hp => by rwa [path_set, path, ht],
    fun _ x hx => hm.read (h.addr_ne_of_mem (mem_path_of_node hx) hq), by rw [hi], hret⟩
  · by_cases hb : b = a
    · subst hb
      simp only [Ghost.set, Function.update_self, hr, ho]
    · simp only [Ghost.set, Function.update_of_ne hb]
  · rw [hm.read ?_, hn]
    rintro rfl
    exact ho hu

/-- The dummy node changed, under the tail mutex of another thread. -/
theorem Frame.write_tail (h : Global s g) (hm : s'.mem = s.mem.write s.tail n')
    (hh : s'.head = s.head) (ht : s'.tail = s.tail) (hH : s'.headMutex = s.headMutex)
    (hT : s'.tailMutex = s.tailMutex) (hu : s.tailMutex ≠ some u) (hi : s'.history = s.history)
    (hret : s'.returned = s.returned) : Frame u s g s' g := by
  refine ⟨by rw [hH], by rw [hT], fun _ => Iff.rfl, fun p n hn hp => ?_, fun hx => (hu hx).elim,
    fun _ => hh, fun _ => List.prefix_rfl, fun _ p hp => by rwa [path, ht], fun _ x hx => ?_,
    by rw [hi], by rw [hret]⟩
  · have hq : g.role p.addr ≠ .queued := by simp [hp]
    rw [hm, Memory.eqOff_write.read (h.addr_ne_of_mem tail_mem_path hq).symm, hn]
  · rw [hm, Memory.eqOff_write.read (h.node_ne_tail hx)]

/-- `tail` moved, under the tail mutex of another thread. -/
theorem Frame.push {v : A} (hp : g.role p.addr ≠ .own u) (hm : s'.mem = s.mem)
    (hh : s'.head = s.head) (hH : s'.headMutex = s.headMutex)
    (hT : s'.tailMutex = s.tailMutex) (hu : s.tailMutex ≠ some u)
    (hi : answers u s'.history = answers u s.history) (hret : s'.returned = s.returned) :
    Frame u s g s' { g.set p.addr .queued with nodes := g.nodes ++ [(s.tail, v)] } := by
  refine ⟨by rw [hH], by rw [hT], fun b => ?_, fun q n hn _ => by rw [hm, hn],
    fun hx => (hu hx).elim, fun _ => hh, fun _ => List.prefix_append _ _, fun _ q hq => ?_,
    fun _ x _ => by rw [hm], hi, by rw [hret]⟩
  · by_cases hb : b = p.addr
    · subst hb
      simp [Ghost.set, hp]
    · simp only [Ghost.set, Function.update_of_ne hb]
  · simp only [path, List.map_append, List.mem_append] at hq ⊢
    exact .inl (by simpa using hq)

/-- `head` moved, under the head mutex of another thread. -/
theorem Frame.pop {rest : List (Ptr Addr × A)} (hp : g.role p.addr = .queued) (htu : t ≠ u)
    (hm : s'.mem = s.mem) (ht : s'.tail = s.tail) (hH : s'.headMutex = s.headMutex)
    (hT : s'.tailMutex = s.tailMutex) (hu : s.headMutex ≠ some u)
    (hi : answers u s'.history = answers u s.history) (hret : s'.returned = s.returned) :
    Frame u s g s' { g.set p.addr (.own t) with nodes := rest } := by
  refine ⟨by rw [hH], by rw [hT], fun b => ?_, fun q n hn _ => by rw [hm, hn],
    fun _ => ⟨ht, by rw [hm]⟩, fun hx => (hu hx).elim, fun hx => (hu hx).elim,
    fun hx => (hu hx).elim, fun hx => (hu hx).elim, hi, by rw [hret]⟩
  by_cases hb : b = p.addr
  · subst hb
    simp [Ghost.set, hp, htu]
  · simp only [Ghost.set, Function.update_of_ne hb]

end CsNotes.ThreadsafeQueue
