import CsNotes.Lib.OrderedRuns
import CsNotes.LockfreeStack.Races

/-!
# The stack that leaks, with its memory orders

A pop reads `next` of the node which it has loaded from `head`, and loads `head`
without acquiring anything: the thread that made the node released it, but what it
wrote need not happen before this read. The exchange acquires only later. The
stack is free of data races exactly if the loads before that read acquire too.
-/
namespace CsNotes.LockfreeStack.MemoryLeak
open Interleaving Races ReleaseAcquire Segment

/-- The orders in which pop reads `head` before it reads the node: by its load, and by an
exchange which fails. -/
structure Orders where
  load : MemoryOrder
  failure : MemoryOrder
deriving DecidableEq, Repr

/-- The orders that pop has. -/
def Orders.relaxed : Orders := ⟨.relaxed, .relaxed⟩

namespace Ordered
variable {Tid Addr A : Type*}

/-- The constructor of a node counts, since its writes are to be seen by others. -/
def accesses (o : Oracle Addr A) (s : Shared Tid Addr A) :
    PC Addr A → List (Access (Addr × Field))
  | .newNode _ => if s.mem o.addr = none then [.writes (o.addr, .data)] else []
  | pc => MemoryLeak.accesses s pc

def effect (orders : Orders) : PC Addr A → Effect Empty
  | .loadNext _ _ => .load .relaxed
  | .pushCas _ _ => .exchange .release .relaxed
  | .loadHead => .load orders.load
  | .popCas _ _ => .exchange .acquire orders.failure
  | _ => .plain

def succeeds [DecidableEq Addr] (o : Oracle Addr A) (s : Shared Tid Addr A) : PC Addr A → Bool
  | .pushCas _ p =>
      match s.mem p with
      | none => false
      | some n => s.head = n.next && !o.spurious
  | .popCas old _ => s.head = some old && !o.spurious
  | _ => false

theorem succeeds_pushCas [DecidableEq Addr] {o : Oracle Addr A} {s : Shared Tid Addr A} {p : Addr}
    {n : Node Addr A} (v : A) (hn : s.mem p = some n) :
    succeeds o s (.pushCas v p) = (decide (s.head = n.next) && !o.spurious) := by
  simp only [succeeds, hn]

def program [DecidableEq Tid] [DecidableEq Addr] (movedFrom : A → A) (orders : Orders) :
    Program Tid (Oracle Addr A) (Shared Tid Addr A) (PC Addr A) (Option Addr) (Addr × Field)
      Empty where
  code := MemoryLeak.exec movedFrom
  value := Shared.head
  withValue s v := { s with head := v }
  accesses := accesses
  effect := effect orders
  succeeds := succeeds

abbrev State (Tid Addr A : Type*) :=
  Shared Tid Addr A × Causality Tid (Option Addr) (Addr × Field) Empty

def start : Config Tid (State Tid Addr A) (PC Addr A) :=
  ⟨(MemoryLeak.start.shared, .start), MemoryLeak.start.pc⟩

/-- What a thread may do to the members of a node. -/
inductive Permitted (g : Ghost Tid Addr A) (t : Tid) : Access (Addr × Field) → Prop
  | fresh {a : Addr} {f : Field} : g.role a = .free ∨ g.role a = .own t .fresh →
      Permitted g t (.writes (a, f))
  | read {a : Addr} : (g.role a).Published → Permitted g t (.reads (a, .next))
  | take {a : Addr} : g.role a = .own t .popped → Permitted g t (.writes (a, .data))

def Facts (s : State Tid Addr A) (g : Ghost Tid Addr A) (t : Tid) : PC Addr A → Prop
  | .idle | .newNode _ | .loadHead => True
  | .loadNext _ p | .pushCas _ p =>
    (∃ n, s.1.mem p = some n) ∧ ∀ f, s.2.Covers (s.2.view t) (.writes (p, f))
  | .readNext old => (g.role old).Published ∧ s.2.Covers (s.2.view t) (.reads (old, .next))
  | .popCas old next => (g.role old).Published ∧ ∃ n, s.1.mem old = some n ∧ n.next = next
  | .takeData old => (∃ n, s.1.mem old = some n) ∧ s.2.Covers (s.2.view t) (.writes (old, .data))

/-- What was stored in `head` releases the members of the node that a reader may look at,
and the last store all members of what is linked. -/
structure Global (s : State Tid Addr A) (g : Ghost Tid Addr A) : Prop where
  linking : ∃ h, MemoryLeak.Global { s.1 with history := h } g
  unused : ∀ a f, s.1.mem a = none → s.2.Covers ⊥ (.writes (a, f))
  message : ∀ a w, (some a, w) ∈ s.2.messages s.1.head →
    (g.role a).Published ∧ s.2.Covers w (.reads (a, .next))
  current : ∀ a, g.role a = .linked → s.2.Covers s.2.current (.reads (a, .next)) ∧
    s.2.Covers s.2.current (.writes (a, .data))

structure Local (s : State Tid Addr A) (g : Ghost Tid Addr A) (t : Tid) (pc : PC Addr A) :
    Prop where
  owned : ∀ a k, g.role a = .own t k ↔ pc.owned = some (a, k)
  facts : Facts s g t pc

section Permitted
variable {g : Ghost Tid Addr A} {t u : Tid} {a : Addr} {b : Access (Addr × Field)} {f : Field}

theorem Permitted.next (h : Permitted g t b) (ha : (g.role a).Published) :
    ¬ b.Conflicts (.reads (a, .next)) := by
  rintro ⟨hloc, hw, -⟩
  cases h with
  | fresh hr =>
      cases hloc
      rcases hr with hr | hr
      all_goals
        rw [hr] at ha
        exact ha
  | read => simp [Access.reads] at hw
  | take => cases hloc

theorem Permitted.owned (h : Permitted g t b) (hu : u ≠ t) (ha : g.role a = .own u .fresh) :
    ¬ b.Conflicts (.writes (a, f)) := by
  rintro ⟨hloc, -, -⟩
  cases h with
  | fresh hr =>
      cases hloc
      rcases hr with hr | hr
      all_goals
        rw [hr] at ha
        cases ha
      exact hu rfl
  | read hr =>
      cases hloc
      rw [ha] at hr
      exact hr
  | take hr =>
      cases hloc
      rw [hr] at ha
      cases ha

theorem Permitted.data (h : Permitted g t b)
    (ha : g.role a = .linked ∨ ∃ u, u ≠ t ∧ g.role a = .own u .popped) :
    ¬ b.Conflicts (.writes (a, .data)) := by
  rintro ⟨hloc, -, -⟩
  cases h with
  | fresh hr =>
      cases hloc
      rcases ha with ha | ⟨u, -, ha⟩ <;> rcases hr with hr | hr <;> simp [hr] at ha
  | read => cases hloc
  | take hr =>
      cases hloc
      rcases ha with ha | ⟨u, hu, ha⟩
      · simp [hr] at ha
      · rw [hr] at ha
        cases ha
        exact hu rfl

end Permitted

variable {s s' : State Tid Addr A} {g g' : Ghost Tid Addr A} {t u : Tid} {pc pc' : PC Addr A}
variable {l : List (Access (Addr × Field))} {a : Addr} {v w : View} {r : Role Tid}
variable {order : MemoryOrder}

structure Frame (t : Tid) (l : List (Access (Addr × Field))) (s : State Tid Addr A)
    (g : Ghost Tid Addr A) (s' : State Tid Addr A) (g' : Ghost Tid Addr A) : Prop where
  permitted : ∀ b ∈ l, Permitted g t b
  extends_ : s.2.Extends t l s'.2
  role : ∀ u, u ≠ t → ∀ a k, g'.role a = .own u k ↔ g.role a = .own u k
  published : ∀ a, (g.role a).Published → (g'.role a).Published
  mem : ∀ a n, s.1.mem a = some n →
    ∃ n', s'.1.mem a = some n' ∧ ((g.role a).Published → n'.next = n.next)

namespace Frame

theorem next (f : Frame t l s g s' g') (ha : (g.role a).Published)
    (h : s.2.Covers v (.reads (a, .next))) : s'.2.Covers v (.reads (a, .next)) :=
  h.extends f.extends_ fun b hb => (f.permitted b hb).next ha

theorem data (f : Frame t l s g s' g')
    (ha : g.role a = .linked ∨ ∃ u, u ≠ t ∧ g.role a = .own u .popped)
    (h : s.2.Covers v (.writes (a, .data))) : s'.2.Covers v (.writes (a, .data)) :=
  h.extends f.extends_ fun b hb => (f.permitted b hb).data ha

theorem other (f : Frame t l s g s' g') (hu : u ≠ t) (h : Local s g u pc) : Local s' g' u pc := by
  refine ⟨fun a k => (f.role u hu a k).trans (h.owned a k), ?_⟩
  have hf := h.facts
  have hview : s'.2.view u = s.2.view u := f.extends_.others u hu
  cases pc with
  | idle | newNode _ | loadHead => trivial
  | loadNext v p | pushCas v p =>
      obtain ⟨⟨n, hn⟩, hcov⟩ := hf
      obtain ⟨n', hn', -⟩ := f.mem p n hn
      refine ⟨⟨n', hn'⟩, fun x => ?_⟩
      rw [hview]
      exact (hcov x).extends f.extends_ fun b hb =>
        (f.permitted b hb).owned hu ((h.owned p .fresh).mpr rfl)
  | readNext old =>
      obtain ⟨hp, hcov⟩ := hf
      refine ⟨f.published old hp, ?_⟩
      rw [hview]
      exact f.next hp hcov
  | popCas old next =>
      obtain ⟨hp, n, hn, hnext⟩ := hf
      obtain ⟨n', hn', heq⟩ := f.mem old n hn
      exact ⟨f.published old hp, n', hn', (heq hp).trans hnext⟩
  | takeData old =>
      obtain ⟨⟨n, hn⟩, hcov⟩ := hf
      obtain ⟨n', hn', -⟩ := f.mem old n hn
      refine ⟨⟨n', hn'⟩, ?_⟩
      rw [hview]
      exact f.data (.inr ⟨u, hu, (h.owned old .popped).mpr rfl⟩) hcov

end Frame

/-- What a step has to establish about the nodes that are new to `head`, or to the list. -/
theorem Global.of_frame (hG : Global s g) (f : Frame t l s g s' g')
    (hlinking : ∃ h, MemoryLeak.Global { s'.1 with history := h } g')
    (halloc : ∀ b ∈ l, s'.1.mem b.loc.1 ≠ none)
    (hmessage : ∀ a w, (some a, w) ∈ s'.2.messages s'.1.head →
      (some a, w) ∈ s.2.messages s.1.head ∨
        (g'.role a).Published ∧ s'.2.Covers w (.reads (a, .next)))
    (hcurrent : ∀ a, g'.role a = .linked → g.role a = .linked ∧ s.2.current ≤ s'.2.current ∨
      s'.2.Covers s'.2.current (.reads (a, .next)) ∧
        s'.2.Covers s'.2.current (.writes (a, .data))) : Global s' g' := by
  refine ⟨hlinking, fun a x ha => ?_, fun a w hw => ?_, fun a ha => ?_⟩
  · have hnone : s.1.mem a = none := by
      by_contra hne
      obtain ⟨n, hn⟩ := Option.ne_none_iff_exists'.mp hne
      obtain ⟨n', hn', -⟩ := f.mem a n hn
      rw [hn'] at ha
      cases ha
    refine (hG.unused a x hnone).extends f.extends_ fun b hb hc => halloc b hb ?_
    rw [hc.1]
    exact ha
  · rcases hmessage a w hw with h | h
    · obtain ⟨hp, hcov⟩ := hG.message a w h
      exact ⟨f.published a hp, f.next hp hcov⟩
    · exact h
  · rcases hcurrent a ha with ⟨hl, hle⟩ | h
    · obtain ⟨hnext, hdata⟩ := hG.current a hl
      have hp : (g.role a).Published := by
        rw [hl]
        trivial
      exact ⟨(f.next hp hnext).mono hle, (f.data (.inl hl) hdata).mono hle⟩
    · exact h

variable {c : Config Tid (State Tid Addr A) (PC Addr A)} {o : Oracle Addr A × ℕ}
variable {movedFrom : A → A} {orders : Orders}

def Keeps (c : Config Tid (State Tid Addr A) (PC Addr A)) (t : Tid)
    (r : State Tid Addr A × PC Addr A) : Prop :=
  ∃ g', Global r.1 g' ∧ Local r.1 g' t r.2 ∧ ∀ u, u ≠ t → Local r.1 g' u (c.pc u)

theorem keeps_of_frame (hL : ∀ u, Local c.shared g u (c.pc u)) {r : State Tid Addr A × PC Addr A}
    (f : Frame t l c.shared g r.1 g') (hG : Global r.1 g') (ht : Local r.1 g' t r.2) :
    Keeps c t r :=
  ⟨g', hG, ht, fun u hu => f.other hu (hL u)⟩

theorem linking_congr {s₁ s₂ : Shared Tid Addr A} (hmem : s₂.mem = s₁.mem)
    (hhead : s₂.head = s₁.head) (h : ∃ h, MemoryLeak.Global { s₁ with history := h } g) :
    ∃ h, MemoryLeak.Global { s₂ with history := h } g := by
  obtain ⟨h, hg⟩ := h
  obtain ⟨head, mem, history, returned⟩ := s₂
  cases hmem
  cases hhead
  exact ⟨h, hg.free, hg.linked, hg.nodup, hg.seg, hg.run⟩

theorem keeps_moved (hG : Global c.shared g) (hL : ∀ u, Local c.shared g u (c.pc u))
    {s₁ : Shared Tid Addr A} {m : Causality Tid (Option Addr) (Addr × Field) Empty}
    (hm : Silent t l c.shared.2 m) (hmem : s₁.mem = c.shared.1.mem)
    (hhead : s₁.head = c.shared.1.head) (hl : ∀ b ∈ l, Permitted g t b)
    (halloc : ∀ b ∈ l, c.shared.1.mem b.loc.1 ≠ none) (ho : pc'.owned = (c.pc t).owned)
    (hf : Facts (s₁, m) g t pc') : Keeps c t ((s₁, m), pc') := by
  have f : Frame t l c.shared g (s₁, m) g :=
    ⟨hl, hm.extends_, fun _ _ _ _ => Iff.rfl, fun _ => id,
      fun a n hn => ⟨n, (congrFun hmem a).trans hn, fun _ => rfl⟩⟩
  have hmessages : m.messages s₁.head = c.shared.2.messages c.shared.1.head := by
    rw [hm.messages, hhead]
  refine keeps_of_frame hL f (hG.of_frame f (linking_congr hmem hhead hG.linking) (fun b hb => ?_)
    (fun a w hw => ?_) fun a ha => ?_) ⟨fun a k => ho ▸ (hL t).owned a k, hf⟩
  · exact fun h => halloc b hb ((congrFun hmem _).symm.trans h)
  · exact .inl (hmessages ▸ hw)
  · exact .inl ⟨ha, hm.current.ge⟩

/-- The control point after a load of an older value, and the value as it is. -/
def restored (s : Shared Tid Addr A) (r : Shared Tid Addr A × PC Addr A) :
    Shared Tid Addr A × PC Addr A :=
  ({ r.1 with head := s.head }, r.2)

variable [DecidableEq Tid] [DecidableEq Addr]

theorem keep_idle (hG : Global c.shared g) (hL : ∀ u, Local c.shared g u (c.pc u))
    (hpc : c.pc t = .idle) :
    ((program movedFrom orders).exec t o c.shared (c.pc t)).Sat (Keeps c t) := by
  have ho : (c.pc t).owned = none := by rw [hpc]; rfl
  rw [hpc]
  refine exec_plain rfl (List.forall_mem_nil _) fun m hm => ?_
  change (MemoryLeak.exec movedFrom t o.1 c.shared.1 .idle).Sat _
  simp only [MemoryLeak.exec]
  cases o.1.call
  all_goals
    exact keeps_moved hG hL hm rfl rfl (List.forall_mem_nil _)
      (List.forall_mem_nil _) ho.symm trivial

omit [DecidableEq Addr] in
/-- The pointer that pop has read is null, or to a node of which `next` may be read. -/
theorem keeps_test (hG : Global c.shared g) (hL : ∀ u, Local c.shared g u (c.pc u))
    {v : Option Addr} {m : Causality Tid (Option Addr) (Addr × Field) Empty}
    (hv : (v, w) ∈ c.shared.2.messages c.shared.1.head) (hm : Loaded order w t [] c.shared.2 m)
    (horder : order.acquires = true) (ho : (c.pc t).owned = none) :
    (Outcome.ok (restored c.shared.1
      (({ c.shared.1 with head := v } : Shared Tid Addr A).test t))).Sat fun r =>
        Keeps c t ((r.1, m), r.2) := by
  unfold Shared.test
  cases v with
  | none =>
      exact keeps_moved hG hL hm.toSilent rfl rfl (List.forall_mem_nil _) (List.forall_mem_nil _)
        ho.symm trivial
  | some a =>
      obtain ⟨hp, hcov⟩ := hG.message a w hv
      refine keeps_moved hG hL hm.toSilent rfl rfl (List.forall_mem_nil _) (List.forall_mem_nil _)
        ho.symm ⟨hp, ?_⟩
      exact (hcov.extends hm.extends_ (List.forall_mem_nil _)).mono (hm.acquired horder)

theorem keep_loadHead (horder : orders.load.acquires = true) (hG : Global c.shared g)
    (hL : ∀ u, Local c.shared g u (c.pc u)) (hpc : c.pc t = .loadHead) :
    ((program movedFrom orders).exec t o c.shared (c.pc t)).Sat (Keeps c t) := by
  have ho : (c.pc t).owned = none := by rw [hpc]; rfl
  rw [hpc]
  exact exec_load rfl (List.forall_mem_nil _) fun v w m hv hm => keeps_test hG hL hv hm horder ho

omit [DecidableEq Tid] [DecidableEq Addr] in
theorem Global.alloc (hG : Global s g) (hp : (g.role a).Published) : ∃ n, s.1.mem a = some n := by
  obtain ⟨h, hlinking⟩ := hG.linking
  refine Option.ne_none_iff_exists'.mp fun hn => ?_
  rw [(hlinking.free a).mpr hn] at hp
  exact hp

theorem keep_readNext (hG : Global c.shared g) (hL : ∀ u, Local c.shared g u (c.pc u))
    (hpc : c.pc t = .readNext a) :
    ((program movedFrom orders).exec t o c.shared (c.pc t)).Sat (Keeps c t) := by
  have ho : (c.pc t).owned = none := by rw [hpc]; rfl
  have hf := (hL t).facts
  rw [hpc] at hf ⊢
  obtain ⟨hp, hcov⟩ := hf
  obtain ⟨n, hn⟩ := hG.alloc hp
  refine exec_plain rfl (List.forall_mem_singleton.mpr hcov) fun m hm => ?_
  change (c.shared.1.access a fun n => .ok (c.shared.1, .popCas a n.next)).Sat _
  rw [Shared.access_of hn]
  refine keeps_moved hG hL hm rfl rfl (List.forall_mem_singleton.mpr (.read hp))
    (List.forall_mem_singleton.mpr ?_) ho.symm ⟨hp, n, hn, rfl⟩
  exact Option.ne_none_iff_exists'.mpr ⟨n, hn⟩

omit [DecidableEq Tid] in
/-- The stage of one node changes, which was in the hands of `t` or in no one's. -/
theorem Frame.set {l : List (Access (Addr × Field))} {stack : List (Addr × A)}
    (hl : ∀ b ∈ l, Permitted g t b) (he : s.2.Extends t l s'.2)
    (hold : ∀ u, u ≠ t → ∀ k, g.role a ≠ .own u k) (hnew : ∀ u, u ≠ t → ∀ k, r ≠ .own u k)
    (hpub : (g.role a).Published → r.Published)
    (hmem : ∀ b n, s.1.mem b = some n →
      ∃ n', s'.1.mem b = some n' ∧ ((g.role b).Published → n'.next = n.next)) :
    Frame t l s g s' { g.set a r with stack := stack } := by
  refine ⟨hl, he, fun u hu b k => ?_, fun b hb => ?_, hmem⟩
  all_goals by_cases hba : b = a
  · subst hba
    simp only [Ghost.set, Function.update_self, hold u hu, hnew u hu]
  · simp only [Ghost.set, Function.update_of_ne hba]
  · subst hba
    simpa only [Ghost.set, Function.update_self] using hpub hb
  · simpa only [Ghost.set, Function.update_of_ne hba] using hb

omit [DecidableEq Tid] in
theorem Local.set {stack : List (Addr × A)} (h : Local s g t pc)
    (hr : ∀ k, r = .own t k ↔ pc'.owned = some (a, k))
    (ho : ∀ b k, b ≠ a → (pc.owned = some (b, k) ↔ pc'.owned = some (b, k)))
    (hf : Facts s' { g.set a r with stack := stack } t pc') :
    Local s' { g.set a r with stack := stack } t pc' := by
  refine ⟨fun b k => ?_, hf⟩
  by_cases hb : b = a
  · subst hb
    simpa only [Ghost.set, Function.update_self] using hr k
  · simpa only [Ghost.set, Function.update_of_ne hb] using (h.owned b k).trans (ho b k hb)

omit [DecidableEq Tid] [DecidableEq Addr] in
theorem Local.role_owned (h : Local s g t pc) {k : Kind} (ho : pc.owned = some (a, k)) :
    g.role a = .own t k ∧ ∀ u, u ≠ t → ∀ j, g.role a ≠ .own u j := by
  have hr := (h.owned a k).mpr ho
  refine ⟨hr, fun u hu j hj => hu ?_⟩
  rw [hr] at hj
  cases hj
  rfl

theorem keep_newNode {x : A} (hG : Global c.shared g) (hL : ∀ u, Local c.shared g u (c.pc u))
    (hpc : c.pc t = .newNode x) :
    ((program movedFrom orders).exec t o c.shared (c.pc t)).Sat (Keeps c t) := by
  have hl := hL t
  rw [hpc] at hl ⊢
  by_cases ha : c.shared.1.mem o.1.addr = none
  · let l : List (Access (Addr × Field)) := [.writes (o.1.addr, .data)]
    have haccesses : (program movedFrom orders).accesses o.1 c.shared.1 (.newNode x) = l :=
      if_pos ha
    have hcov : ∀ f, c.shared.2.Covers (c.shared.2.view t) (.writes (o.1.addr, f)) :=
      fun f => (hG.unused _ f ha).mono bot_le
    refine exec_plain rfl (fun b hb => ?_) fun m hm => ?_
    · rw [haccesses] at hb
      exact List.mem_singleton.mp hb ▸ hcov .data
    rw [haccesses] at hm
    change (MemoryLeak.exec movedFrom t o.1 c.shared.1 (.newNode x)).Sat _
    simp only [MemoryLeak.exec, if_pos ha, Outcome.sat_ok]
    obtain ⟨h, hlinking⟩ := hG.linking
    have hfree : g.role o.1.addr = .free := (hlinking.free _).mpr ha
    let s₁ : State Tid Addr A := (c.shared.1.write o.1.addr ⟨x, none⟩, m)
    have f : Frame t l c.shared g s₁ (g.set o.1.addr (.own t .fresh)) := by
      refine Frame.set (List.forall_mem_singleton.mpr (.fresh (.inl hfree))) hm.extends_
        (by simp [hfree]) (fun u hu k => by simp [hu.symm]) (fun hp => ?_)
        fun b n hn => ⟨n, (Shared.write_of_ne ?_).trans hn, fun _ => rfl⟩
      · rw [hfree] at hp
        exact hp.elim
      · rintro rfl
        rw [ha] at hn
        cases hn
    refine keeps_of_frame hL f (hG.of_frame f ⟨h, ?_⟩ ?_ (fun a w hw => .inl ?_)
      fun a hr => ?_) ?_
    · exact hlinking.aside (by simp [hfree]) (by simp) (by simp [Shared.write_self])
        (fun b => Shared.write_of_ne) rfl rfl
    · exact List.forall_mem_singleton.mpr (Option.ne_none_iff_exists'.mpr ⟨_, Shared.write_self⟩)
    · rwa [hm.messages] at hw
    · refine .inl ⟨?_, hm.current.ge⟩
      by_cases hb : a = o.1.addr
      · subst hb
        simp [Ghost.set] at hr
      · simpa [Ghost.set, Function.update_of_ne hb] using hr
    · refine hl.set (by simp [PC.owned, eq_comm]) (fun b k hb => by simp [PC.owned, hb.symm]) ?_
      exact ⟨⟨_, Shared.write_self⟩, fun f => (hcov f).own hm.extends_⟩
  · have haccesses : (program movedFrom orders).accesses o.1 c.shared.1 (.newNode x) = [] :=
      if_neg ha
    refine exec_plain rfl (fun b hb => absurd (haccesses ▸ hb) List.not_mem_nil) fun m hm => ?_
    change (MemoryLeak.exec movedFrom t o.1 c.shared.1 (.newNode x)).Sat _
    simp only [MemoryLeak.exec, if_neg ha]
    trivial

omit [DecidableEq Tid] in
theorem keeps_fresh {x : A} {n : Node Addr A} (hG : Global c.shared g)
    (hL : ∀ u, Local c.shared g u (c.pc u)) {m : Causality Tid (Option Addr) (Addr × Field) Empty}
    (hm : Silent t [.writes (a, .next)] c.shared.2 m) (ho : (c.pc t).owned = some (a, .fresh))
    (hcov : ∀ f, c.shared.2.Covers (c.shared.2.view t) (.writes (a, f))) :
    Keeps c t ((c.shared.1.write a n, m), .pushCas x a) := by
  have hl := hL t
  obtain ⟨hr, hne⟩ := hl.role_owned ho
  obtain ⟨h, hlinking⟩ := hG.linking
  let s₁ : State Tid Addr A := (c.shared.1.write a n, m)
  have f : Frame t [.writes (a, .next)] c.shared g s₁ (g.set a (.own t .fresh)) := by
    refine Frame.set (List.forall_mem_singleton.mpr (.fresh (.inr hr))) hm.extends_
      (fun u hu k => hne u hu k) (fun u hu k => by simp [hu.symm]) (fun hp => ?_) fun b k hk => ?_
    · rw [hr] at hp
      exact hp.elim
    · by_cases hb : b = a
      · subst hb
        refine ⟨n, Shared.write_self, fun hp => ?_⟩
        rw [hr] at hp
        exact hp.elim
      · exact ⟨k, (Shared.write_of_ne hb).trans hk, fun _ => rfl⟩
  refine keeps_of_frame hL f (hG.of_frame f ⟨h, ?_⟩ ?_ (fun a w hw => .inl ?_) fun b hb => ?_) ?_
  · exact hlinking.aside (by simp [hr]) (by simp) (by simp [Shared.write_self])
      (fun b => Shared.write_of_ne) rfl rfl
  · exact List.forall_mem_singleton.mpr (Option.ne_none_iff_exists'.mpr ⟨_, Shared.write_self⟩)
  · rwa [hm.messages] at hw
  · refine .inl ⟨?_, hm.current.ge⟩
    by_cases hba : b = a
    · subst hba
      simp [Ghost.set] at hb
    · simpa [Ghost.set, Function.update_of_ne hba] using hb
  · refine hl.set (by simp [PC.owned, eq_comm]) (fun b k _ => by rw [ho]; rfl) ?_
    exact ⟨⟨_, Shared.write_self⟩, fun f => (hcov f).own hm.extends_⟩

theorem keep_loadNext {x : A} (hG : Global c.shared g) (hL : ∀ u, Local c.shared g u (c.pc u))
    (hpc : c.pc t = .loadNext x a) :
    ((program movedFrom orders).exec t o c.shared (c.pc t)).Sat (Keeps c t) := by
  have ho : (c.pc t).owned = some (a, .fresh) := by rw [hpc]; rfl
  have hf := (hL t).facts
  rw [hpc] at hf ⊢
  obtain ⟨⟨n, hn⟩, hcov⟩ := hf
  refine exec_load rfl (List.forall_mem_singleton.mpr (hcov .next)) fun v w m _ hm => ?_
  have holder : (program movedFrom orders).older t o.1 c.shared.1 (.loadNext x a) v =
      .ok (c.shared.1.write a { n with next := v }, .pushCas x a) := by
    let s₁ : Shared Tid Addr A := { c.shared.1 with head := v }
    have hn' : s₁.mem a = some n := hn
    change (s₁.access a _).map _ = _
    rw [Shared.access_of hn']
    rfl
  rw [holder]
  exact keeps_fresh hG hL hm.toSilent ho hcov

theorem keep_pushCas {x : A} (hG : Global c.shared g) (hL : ∀ u, Local c.shared g u (c.pc u))
    (hpc : c.pc t = .pushCas x a) :
    ((program movedFrom orders).exec t o c.shared (c.pc t)).Sat (Keeps c t) := by
  have hl := hL t
  rw [hpc] at hl
  obtain ⟨hr, hne⟩ := hl.role_owned (k := .fresh) rfl
  obtain ⟨⟨n, hn⟩, hcov⟩ := hl.facts
  rw [hpc]
  refine exec_exchange rfl (List.forall_mem_singleton.mpr (hcov .next)) (fun m hs hm => ?_)
    fun v w m hv hs hm => ?_
  · change (c.shared.1.access a _).Sat _
    rw [Shared.access_of hn]
    have hcas : c.shared.1.head = n.next ∧ o.1.spurious = false := by
      simpa [program, succeeds, hn] using hs
    rw [if_pos hcas]
    obtain ⟨h, hlinking⟩ := hG.linking
    have hnot : a ∉ g.stack.map Prod.fst := by
      rw [← hlinking.linked, hr]
      simp
    have hcurrent : m.current = c.shared.2.current ⊔ m.view t := hm.current
    let s₁ : State Tid Addr A := ({ c.shared.1 with
      head := some a, history := c.shared.1.history ++ [.push t x] }, m)
    let g₁ : Ghost Tid Addr A := { g.set a .linked with stack := (a, n.data) :: g.stack }
    have f : Frame t [.writes (a, .next)] c.shared g s₁ g₁ := by
      refine Frame.set (List.forall_mem_singleton.mpr (.fresh (.inr hr))) hm.extends_
        (fun u hu k => hne u hu k) (by simp) (fun _ => trivial) fun b k hk => ⟨k, hk, fun _ => rfl⟩
    have hknown : ∀ x, s₁.2.Covers s₁.2.current (.writes (a, x)) := fun x =>
      ((hcov x).own hm.extends_).mono (hcurrent ▸ le_sup_right)
    refine keeps_of_frame hL f (hG.of_frame f ⟨h ++ [.push t n.data], ?_⟩ ?_ (fun b w hw => ?_)
      fun b hb => ?_) ?_
    · refine hlinking.set (by simp [hn]) (fun _ _ => rfl) (fun b => ?_)
        (List.nodup_cons.mpr ⟨hnot, hlinking.nodup⟩) ?_ (hlinking.run.push t n.data)
      · by_cases hb : b = a <;> simp [hb]
      · exact ⟨c.shared.1.head, ⟨rfl, n, hn, rfl, hcas.1.symm⟩, hlinking.seg⟩
    · exact List.forall_mem_singleton.mpr (Option.ne_none_iff_exists'.mpr ⟨n, hn⟩)
    · have hmessages : s₁.2.messages s₁.1.head =
          c.shared.2.messages c.shared.1.head ++ [(some a, m.current)] := hm.messages _
      rw [hmessages] at hw
      refine (List.mem_append.mp hw).imp_right fun hw => ?_
      cases List.mem_singleton.mp hw
      exact ⟨by simp [g₁, Ghost.set, Role.Published], (hknown .next).reads⟩
    · by_cases hba : b = a
      · subst hba
        exact .inr ⟨(hknown .next).reads, hknown .data⟩
      · refine .inl ⟨?_, hcurrent ▸ le_sup_left⟩
        simpa [g₁, Ghost.set, Function.update_of_ne hba] using hb
    · refine hl.set (by simp [PC.owned]) (fun b k hb => ?_) trivial
      simp [PC.owned, hb.symm]
  · have hcas : ¬ (v = n.next ∧ o.1.spurious = false) := by
      simpa [program, succeeds, hn] using hs
    have holder : (program movedFrom orders).older t o.1 c.shared.1 (.pushCas x a) v =
        .ok (c.shared.1.write a { n with next := v }, .pushCas x a) := by
      let s₁ : Shared Tid Addr A := { c.shared.1 with head := v }
      have hn' : s₁.mem a = some n := hn
      change (s₁.access a _).map _ = _
      rw [Shared.access_of hn']
      exact congrArg (Outcome.map (restored c.shared.1)) (if_neg hcas)
    rw [holder]
    exact keeps_fresh hG hL hm.toSilent (by rw [hpc]; rfl) hcov

theorem keep_popCas {next : Option Addr} (horder : orders.failure.acquires = true)
    (hG : Global c.shared g) (hL : ∀ u, Local c.shared g u (c.pc u))
    (hpc : c.pc t = .popCas a next) :
    ((program movedFrom orders).exec t o c.shared (c.pc t)).Sat (Keeps c t) := by
  have hl := hL t
  rw [hpc] at hl
  have ho : (c.pc t).owned = none := by rw [hpc]; rfl
  obtain ⟨hp, n, hn, rfl⟩ := hl.facts
  rw [hpc]
  refine exec_exchange rfl (List.forall_mem_nil _) (fun m hs hm => ?_) fun v w m hv hs hm => ?_
  · have hcas : c.shared.1.head = some a ∧ o.1.spurious = false := by
      simpa [program, succeeds] using hs
    change (MemoryLeak.exec movedFrom t o.1 c.shared.1 (.popCas a n.next)).Sat _
    simp only [MemoryLeak.exec, if_pos hcas, Outcome.sat_ok]
    obtain ⟨h, hlinking⟩ := hG.linking
    obtain ⟨stack, hlinking', hr⟩ := hlinking.unlink hcas.1 hn (t := t)
    obtain ⟨hnext, hdata⟩ := hG.current a hr
    have hcurrent : m.current = c.shared.2.current ⊔ ⊥ := hm.current
    rw [sup_bot_eq] at hcurrent
    let s₁ : State Tid Addr A := ({ c.shared.1 with
      head := n.next
      history := c.shared.1.history ++
        ((c.shared.1.mem a).map fun n => History.Event.pop t n.data).toList }, m)
    let g₁ : Ghost Tid Addr A := { g.set a (.own t .popped) with stack := stack }
    have f : Frame t [] c.shared g s₁ g₁ := by
      refine Frame.set (List.forall_mem_nil _) hm.extends_ (by simp [hr])
        (fun u hu k => by simp [hu.symm]) (fun _ => trivial) fun b k hk => ⟨k, hk, fun _ => rfl⟩
    have hlinked : ∀ b, g₁.role b = .linked → g.role b = .linked ∧ b ≠ a := by
      intro b hb
      by_cases hba : b = a
      · subst hba
        simp [g₁, Ghost.set] at hb
      · exact ⟨by simpa [g₁, Ghost.set, Function.update_of_ne hba] using hb, hba⟩
    refine keeps_of_frame hL f (hG.of_frame f ⟨_, hlinking'⟩ (List.forall_mem_nil _)
      (fun b w hw => ?_) fun b hb => .inl ⟨(hlinked b hb).1, hcurrent.ge⟩) ?_
    · have hmessages : s₁.2.messages s₁.1.head =
          c.shared.2.messages c.shared.1.head ++ [(n.next, m.current)] := hm.messages _
      rw [hmessages] at hw
      refine (List.mem_append.mp hw).imp_right fun hw => ?_
      obtain ⟨hb, rfl⟩ := Prod.mk.inj (List.mem_singleton.mp hw)
      obtain ⟨htop, k, hk⟩ := hlinking'.top hb.symm
      obtain ⟨hr', -⟩ := hlinked b htop
      have hp' : (g.role b).Published := by
        rw [hr']
        trivial
      exact ⟨f.published b hp', (f.next hp' (hG.current b hr').1).mono hcurrent.ge⟩
    · refine hl.set (by simp [PC.owned, eq_comm]) (fun b k hb => ?_) ⟨⟨n, hn⟩, ?_⟩
      · simp [PC.owned, hb.symm]
      · exact (hdata.extends hm.extends_ (List.forall_mem_nil _)).mono (hm.acquired rfl)
  · have hcas : ¬ (v = some a ∧ o.1.spurious = false) := by
      simpa [program, succeeds] using hs
    have holder : (program movedFrom orders).older t o.1 c.shared.1 (.popCas a n.next) v =
        .ok (restored c.shared.1 (({ c.shared.1 with head := v } : Shared Tid Addr A).test t)) :=
      congrArg (Outcome.map (restored c.shared.1)) (if_neg hcas)
    rw [holder]
    exact keeps_test hG hL hv hm horder ho

theorem keep_takeData (hG : Global c.shared g) (hL : ∀ u, Local c.shared g u (c.pc u))
    (hpc : c.pc t = .takeData a) :
    ((program movedFrom orders).exec t o c.shared (c.pc t)).Sat (Keeps c t) := by
  have hl := hL t
  rw [hpc] at hl
  obtain ⟨hr, hne⟩ := hl.role_owned (k := .popped) rfl
  obtain ⟨⟨n, hn⟩, hcov⟩ := hl.facts
  rw [hpc]
  refine exec_plain rfl (List.forall_mem_singleton.mpr hcov) fun m hm => ?_
  change (c.shared.1.access a _).Sat _
  rw [Shared.access_of hn]
  obtain ⟨h, hlinking⟩ := hG.linking
  let s₁ : State Tid Addr A :=
    ((c.shared.1.write a { n with data := movedFrom n.data }).answer t (some n.data), m)
  have f : Frame t [.writes (a, .data)] c.shared g s₁ (g.set a .done) := by
    refine Frame.set (List.forall_mem_singleton.mpr (.take hr)) hm.extends_
      (fun u hu k => hne u hu k) (by simp) (fun _ => trivial) fun b k hk => ?_
    by_cases hb : b = a
    · subst hb
      obtain rfl := Option.some.inj (hk.symm.trans hn)
      exact ⟨_, Shared.write_self, fun _ => rfl⟩
    · exact ⟨k, (Shared.write_of_ne hb).trans hk, fun _ => rfl⟩
  refine keeps_of_frame hL f (hG.of_frame f ⟨h, ?_⟩ ?_ (fun b w hw => .inl ?_) fun b hb => ?_) ?_
  · exact hlinking.aside (by simp [hr]) (by simp) (by simp [Shared.answer])
      (fun b hb => Shared.write_of_ne hb) rfl rfl
  · exact List.forall_mem_singleton.mpr (Option.ne_none_iff_exists'.mpr ⟨_, Shared.write_self⟩)
  · rwa [hm.messages] at hw
  · refine .inl ⟨?_, hm.current.ge⟩
    by_cases hba : b = a
    · subst hba
      simp [Ghost.set] at hb
    · simpa [Ghost.set, Function.update_of_ne hba] using hb
  · refine hl.set (by simp [PC.owned]) (fun b k hb => ?_) trivial
    simp [PC.owned, hb.symm]

theorem outline (movedFrom : A → A) (hload : orders.load.acquires = true)
    (hfailure : orders.failure.acquires = true) :
    Outline (program movedFrom orders).exec (fun _ _ _ => True) (· = start)
      (Global : State Tid Addr A → Ghost Tid Addr A → Prop) Local where
  start := by
    rintro c rfl
    refine ⟨⟨fun _ => .free, []⟩, ⟨⟨[], ?_⟩, ?_, ?_, ?_⟩, fun t => ⟨?_, trivial⟩⟩
    · exact ⟨by simp [start, MemoryLeak.start], by simp, by simp, rfl, .nil⟩
    · intro a f _ i x hx
      cases hx
    · intro a w hw
      cases List.mem_singleton.mp hw
    · simp
    · simp [PC.owned, start, MemoryLeak.start]
  step := by
    intro c t o g _ _ hG hL
    cases hpc : c.pc t with
    | idle => exact hpc ▸ keep_idle hG hL hpc
    | newNode v => exact hpc ▸ keep_newNode hG hL hpc
    | loadNext v p => exact hpc ▸ keep_loadNext hG hL hpc
    | pushCas v p => exact hpc ▸ keep_pushCas hG hL hpc
    | loadHead => exact hpc ▸ keep_loadHead hload hG hL hpc
    | readNext old => exact hpc ▸ keep_readNext hG hL hpc
    | popCas old next => exact hpc ▸ keep_popCas hfailure hG hL hpc
    | takeData old => exact hpc ▸ keep_takeData hG hL hpc

section Steps
variable {s : Shared Tid Addr A}

omit [DecidableEq Addr] in
theorem head_test (s : Shared Tid Addr A) (t : Tid) : (s.test t).1.head = s.head := by
  unfold Shared.test
  split <;> rfl

theorem lawful (movedFrom : A → A) (orders : Orders) :
    (program movedFrom orders : Program Tid (Oracle Addr A) (Shared Tid Addr A) (PC Addr A)
      (Option Addr) (Addr × Field) Empty).Lawful where
  withValue_value _ := rfl
  loads := by
    intro t o s pc order r hv h
    cases pc with
    | loadNext v p =>
        change s.access p _ = _ at h
        unfold Shared.access at h
        split at h
        · cases h
        · cases h
          rfl
    | pushCas v p =>
        rcases hv with hv | ⟨-, hv⟩
        · cases hv
        · change s.access p _ = _ at h
          cases hn : s.mem p with
          | none =>
              unfold Shared.access at h
              rw [hn] at h
              cases h
          | some n =>
              have hfail : ¬ (s.head = n.next ∧ o.spurious = false) := by
                simpa using (succeeds_pushCas v hn).symm.trans hv
              rw [Shared.access_of hn, if_neg hfail] at h
              cases h
              rfl
    | loadHead =>
        cases h
        exact head_test s t
    | popCas old next =>
        rcases hv with hv | ⟨-, hv⟩
        · cases hv
        · have hfail : ¬ (s.head = some old ∧ o.spurious = false) := by
            simpa [program, succeeds] using hv
          change MemoryLeak.exec movedFrom t o s (.popCas old next) = _ at h
          simp only [MemoryLeak.exec, if_neg hfail] at h
          cases h
          exact head_test s t
    | _ => rcases hv with hv | ⟨⟨_, hv⟩, -⟩ <;> cases hv

/-- An idle thread makes a node for the value that it pushes. -/
theorem steps_make (movedFrom : A → A) (t : Tid) (x : A) (hfree : s.mem a = none) :
    Steps (MemoryLeak.exec movedFrom) t s .idle (s.write a ⟨x, s.head⟩) (.pushCas x a) := by
  let o : Oracle Addr A := ⟨.push x, a, false⟩
  have hmake : MemoryLeak.exec movedFrom t o s (.newNode x) =
      .ok (s.write a ⟨x, none⟩, .loadNext x a) := if_pos hfree
  have hload : MemoryLeak.exec movedFrom t o (s.write a ⟨x, none⟩) (.loadNext x a) =
      .ok (s.write a ⟨x, s.head⟩, .pushCas x a) := by
    simp only [MemoryLeak.exec, Shared.access_of Shared.write_self, Shared.write_write]
    rfl
  exact .step (o := o) rfl (.step hmake (.step hload .refl))

theorem exec_pushCas (movedFrom : A → A) (t : Tid) (a : Addr) (x : A) :
    ∃ s', MemoryLeak.exec movedFrom t ⟨.push x, a, false⟩ (s.write a ⟨x, s.head⟩) (.pushCas x a) =
      .ok (s', .idle) ∧ s'.head = some a ∧
        s'.mem = Function.update s.mem a (some ⟨x, s.head⟩) :=
  ⟨_, (Shared.access_of Shared.write_self).trans (if_pos ⟨rfl, rfl⟩), rfl, rfl⟩

theorem exec_loadHead (movedFrom : A → A) (t : Tid) (o : Oracle Addr A) (hhead : s.head = some a) :
    MemoryLeak.exec movedFrom t o s .loadHead = .ok (s, .readNext a) := by
  change Outcome.ok (s.test t) = _
  unfold Shared.test
  rw [hhead]

end Steps

section Races
variable {s s' : Shared Tid Addr A} {pc pc' k : PC Addr A} {o : Oracle Addr A} {i : ℕ}

/-- `t` is at one place of the program and `u` at another after some run. -/
abbrev Scene (movedFrom : A → A) (orders : Orders) (t u : Tid) :
    Shared Tid Addr A → PC Addr A → PC Addr A → Config Tid (State Tid Addr A) (PC Addr A) → Prop :=
  Two (program movedFrom orders) (· = start) t u

theorem start_scene (movedFrom : A → A) (orders : Orders) (t u : Tid) :
    Scene movedFrom orders t u MemoryLeak.start.shared .idle .idle
      (start : Config Tid (State Tid Addr A) (PC Addr A)) :=
  ⟨.start rfl, rfl, rfl, rfl⟩

variable (hsafe : ∀ c : Config Tid (State Tid Addr A) (PC Addr A),
  Reach (program movedFrom orders).exec (· = start) c →
    ∀ t o, c.advance (program movedFrom orders).exec t o ≠ .fault)
include hsafe

/-- `u` must not read a node that `t` has made without its knowledge. -/
theorem false_of_readNext (htu : t ≠ u) (h : Scene movedFrom orders u t s (.readNext a) k c)
    (hi : c.shared.2.log[i]? = some (t, .writes (a, .next))) (hu : c.shared.2.Unknown u i) :
    False := by
  have o : Oracle Addr A := ⟨.pop, a, false⟩
  refine false_of_race (o := o) hsafe h.reach h.first (List.mem_singleton_self _)
    (Causality.not_ordered hi htu ?_ hu.view)
  exact ⟨rfl, .inl rfl, by simp [Access.writes]⟩

variable (htu : t ≠ u)
include htu

theorem Scene.step (h : Scene movedFrom orders t u s pc k c)
    (hcode : MemoryLeak.exec movedFrom t o s pc = .ok (s', pc')) :
    ∃ d, Scene movedFrom orders t u s' pc' k d ∧
      Follows (program movedFrom orders) t o s pc c.shared.2 d.shared.2 :=
  Two.step (lawful movedFrom orders) (bounded_of_eq rfl) hsafe htu h hcode

theorem Scene.steps (h : Scene movedFrom orders t u s pc k c)
    (hsteps : Steps (MemoryLeak.exec movedFrom) t s pc s' pc') :
    ∃ d, Scene movedFrom orders t u s' pc' k d :=
  Two.steps (lawful movedFrom orders) (bounded_of_eq rfl) hsafe htu h hsteps

theorem exists_pushed (h : Scene movedFrom orders t u s .idle k c) (hfree : s.mem a = none)
    (x : A) : ∃ (d : Config Tid (State Tid Addr A) (PC Addr A)) (s' : Shared Tid Addr A) (i : ℕ),
      Scene movedFrom orders t u s' .idle k d ∧ s'.head = some a ∧
        s'.mem = Function.update s.mem a (some ⟨x, s.head⟩) ∧
          d.shared.2.log[i]? = some (t, .writes (a, .next)) ∧ d.shared.2.Unknown u i := by
  obtain ⟨c₁, h₁⟩ := Scene.steps hsafe htu h (steps_make movedFrom t x hfree)
  obtain ⟨s', hpush, hhead, hmem⟩ := exec_pushCas (s := s) movedFrom t a x
  obtain ⟨d, hd, f⟩ := Scene.step hsafe htu h₁ hpush
  have hi : d.shared.2.log[c₁.shared.2.log.length]? = some (t, .writes (a, .next)) :=
    f.access (k := 0) rfl
  exact ⟨d, s', _, hd, hhead, hmem, hi,
    f.others htu.symm le_rfl (List.getElem?_eq_some_iff.mp hi).1⟩

theorem load_acquires [Nonempty Addr] [Nonempty A] : orders.load.acquires = true := by
  by_contra hload
  have hload := eq_false_of_ne_true hload
  obtain ⟨a⟩ := ‹Nonempty Addr›
  obtain ⟨x⟩ := ‹Nonempty A›
  obtain ⟨c₁, s₁, i, h₁, hhead, -, hi, hu⟩ :=
    exists_pushed hsafe htu (start_scene movedFrom orders t u) (a := a) rfl x
  let o : Oracle Addr A := ⟨.pop, a, false⟩
  have hpop : MemoryLeak.exec movedFrom u o s₁ .idle = .ok (s₁, .loadHead) := rfl
  obtain ⟨c₂, h₂, f₂⟩ := Scene.step hsafe htu.symm h₁.swap hpop
  obtain ⟨c₃, h₃, f₃⟩ := Scene.step hsafe htu.symm h₂ (exec_loadHead movedFrom u o hhead)
  exact false_of_readNext hsafe htu h₃ (f₃.kept (f₂.kept hi))
    (f₃.unknown (f₂.unknown hu fun _ => rfl) fun _ => hload)

theorem failure_acquires [Nontrivial Addr] [Nonempty A] : orders.failure.acquires = true := by
  by_contra hfailure
  have hfailure := eq_false_of_ne_true hfailure
  obtain ⟨a, b, hab⟩ := exists_pair_ne Addr
  obtain ⟨x⟩ := ‹Nonempty A›
  let o : Oracle Addr A := ⟨.pop, a, false⟩
  obtain ⟨c₁, s₁, -, h₁, hhead₁, hmem₁, -, -⟩ :=
    exists_pushed hsafe htu.symm (start_scene movedFrom orders u t) (a := b) rfl x
  have hb : s₁.mem b = some ⟨x, none⟩ := by
    rw [hmem₁]
    exact Function.update_self ..
  have hread : MemoryLeak.exec movedFrom u o s₁ (.readNext b) = .ok (s₁, .popCas b none) :=
    Shared.access_of hb
  have hsteps : Steps (MemoryLeak.exec movedFrom) u s₁ .idle s₁ (.popCas b none) :=
    .step (o := o) rfl (.step (exec_loadHead movedFrom u o hhead₁) (.step hread .refl))
  obtain ⟨c₂, h₂⟩ := Scene.steps hsafe htu.symm h₁ hsteps
  have hfree : s₁.mem a = none := by
    rw [hmem₁]
    exact Function.update_of_ne hab _ _
  obtain ⟨c₃, s₃, i, h₃, hhead₃, -, hi, hu⟩ := exists_pushed hsafe htu h₂.swap hfree x
  have hcas : MemoryLeak.exec movedFrom u o s₃ (.popCas b none) = .ok (s₃, .readNext a) := by
    simp only [MemoryLeak.exec, hhead₃, Option.some.injEq, hab, false_and, if_false, Shared.test]
  obtain ⟨c₄, h₄, f₄⟩ := Scene.step hsafe htu.symm h₃.swap hcas
  refine false_of_readNext hsafe htu h₄ (f₄.kept hi) (f₄.unknown hu fun _ => ?_)
  simp [Program.acquires, program, effect, succeeds, hhead₃, hab, hfailure]

end Races

end Ordered
open Ordered

/-- The stack that leaks has no data race exactly if both ways in which pop gets a node from
`head` before it reads the node acquire. -/
theorem memory_leak_orders {Tid Addr A : Type*} [DecidableEq Tid] [DecidableEq Addr]
    [Nontrivial Tid] [Nontrivial Addr] [Nonempty A] (movedFrom : A → A) (orders : Orders) :
    (∀ c : Config Tid (State Tid Addr A) (PC Addr A),
      Reach (program movedFrom orders).exec (· = Ordered.start) c →
        ∀ t o, c.advance (program movedFrom orders).exec t o ≠ .fault) ↔
      orders.load.acquires = true ∧ orders.failure.acquires = true := by
  constructor
  · intro hsafe
    obtain ⟨t, u, htu⟩ := exists_pair_ne Tid
    exact ⟨load_acquires hsafe htu, failure_acquires hsafe htu⟩
  · intro ⟨hload, hfailure⟩ c hc t o
    exact (Ordered.outline movedFrom hload hfailure).safe hc trivial

/-- As it is written the stack has a race. -/
theorem memory_leak_orders_relaxed :
    ¬ ∀ c : Config Bool (State Bool ℕ ℕ) (PC ℕ ℕ),
      Reach (program id Orders.relaxed).exec (· = Ordered.start) c →
        ∀ t o, c.advance (program id Orders.relaxed).exec t o ≠ .fault := by
  intro h
  obtain ⟨hload, -⟩ := (memory_leak_orders id Orders.relaxed).mp h
  exact absurd hload (by decide)

end CsNotes.LockfreeStack.MemoryLeak
