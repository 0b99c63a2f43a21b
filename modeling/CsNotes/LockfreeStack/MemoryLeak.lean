import CsNotes.Lib.Segment
import CsNotes.LockfreeStack.Model

/-!
# The stack that leaks its nodes

Auxiliary data say for every address which stage of its life the node there is
in, and which nodes the stack consists of. Only the thread that made a node
writes its `next`, until the node is linked. So whoever has read `next` of a node
which was once in `head` has its successor for ever, and an exchange that finds
the node on top again unlinks just this node.
-/
namespace CsNotes.LockfreeStack.MemoryLeak
open Interleaving History Segment

/-- Why a node is in the hands of one thread alone: made and not linked yet, or
unlinked with its data not yet taken. -/
inductive Kind where
  | fresh
  | popped
deriving DecidableEq

/-- `done`: unlinked and leaked. -/
inductive Role (Tid : Type*) where
  | free
  | linked
  | done
  | own (t : Tid) (k : Kind)
deriving DecidableEq

/-- The node was once linked. -/
def Role.Published {Tid : Type*} : Role Tid → Prop
  | free | own _ .fresh => False
  | linked | done | own _ .popped => True

structure Ghost (Tid Addr A : Type*) where
  role : Addr → Role Tid
  stack : List (Addr × A)

variable {Tid Addr A : Type*}

namespace PC

/-- The node which only this thread may write. -/
def owned : PC Addr A → Option (Addr × Kind)
  | loadNext _ p | pushCas _ p => some (p, .fresh)
  | takeData old => some (old, .popped)
  | _ => none

/-- What a thread knows about its node, and how far `returned` lags behind the
answers it is already owed by the history. -/
def Facts (s : Shared Tid Addr A) (g : Ghost Tid Addr A) (owed returned : List (Option A)) :
    PC Addr A → Prop
  | idle | newNode _ | loadHead => owed = returned
  | loadNext v p | pushCas v p => (∃ n, s.mem p = some n ∧ n.data = v) ∧ owed = returned
  | readNext old => (g.role old).Published ∧ owed = returned
  | popCas old next =>
      (g.role old).Published ∧ (∃ n, s.mem old = some n ∧ n.next = next) ∧ owed = returned
  | takeData old => ∃ n, s.mem old = some n ∧ owed = returned ++ [some n.data]

end PC

/-- A linked node, with the pointer that links it. -/
def Linked (mem : Addr → Option (Node Addr A)) (c : Option Addr) (x : Addr × A)
    (next : Option Addr) : Prop :=
  c = some x.1 ∧ ∃ n, mem x.1 = some n ∧ n.data = x.2 ∧ n.next = next

structure Global (s : Shared Tid Addr A) (g : Ghost Tid Addr A) : Prop where
  free : ∀ a, g.role a = .free ↔ s.mem a = none
  linked : ∀ a, g.role a = .linked ↔ a ∈ g.stack.map Prod.fst
  nodup : (g.stack.map Prod.fst).Nodup
  seg : Seg (Linked s.mem) (· = none) s.head g.stack
  run : StackRun s.history (g.stack.map Prod.snd)

structure Local [DecidableEq Tid] (s : Shared Tid Addr A) (g : Ghost Tid Addr A) (t : Tid)
    (pc : PC Addr A) : Prop where
  owned : ∀ a k, g.role a = .own t k ↔ pc.owned = some (a, k)
  facts : pc.Facts s g (answers t s.history) (s.returned t)

variable [DecidableEq Tid] {s s' : Shared Tid Addr A} {g g' : Ghost Tid Addr A}
variable {t u : Tid} {pc pc' : PC Addr A} {a : Addr} {n : Node Addr A} {r : Role Tid}

/-- What another thread must leave alone for `u` to keep its assertion. -/
structure Frame (u : Tid) (s : Shared Tid Addr A) (g : Ghost Tid Addr A)
    (s' : Shared Tid Addr A) (g' : Ghost Tid Addr A) : Prop where
  role : ∀ a k, g'.role a = .own u k ↔ g.role a = .own u k
  published : ∀ a, (g.role a).Published → (g'.role a).Published ∧
    ∀ n, s.mem a = some n → ∃ n', s'.mem a = some n' ∧ n'.next = n.next
  owns : ∀ a n k, g.role a = .own u k → s.mem a = some n →
    ∃ n', s'.mem a = some n' ∧ n'.data = n.data
  owed : answers u s'.history = answers u s.history
  returned : s'.returned u = s.returned u

theorem Local.frame (h : Local s g u pc) (f : Frame u s g s' g') : Local s' g' u pc := by
  refine ⟨fun a k => (f.role a k).trans (h.owned a k), ?_⟩
  have hf := h.facts
  rw [f.owed, f.returned]
  have owns : ∀ a n k, pc.owned = some (a, k) → s.mem a = some n →
      ∃ n', s'.mem a = some n' ∧ n'.data = n.data :=
    fun a n k ha => f.owns a n k ((h.owned a k).mpr ha)
  cases pc with
  | idle | newNode _ | loadHead => exact hf
  | loadNext v p | pushCas v p =>
      obtain ⟨⟨n, hn, rfl⟩, ho⟩ := hf
      exact ⟨owns p n _ rfl hn, ho⟩
  | readNext old => exact ⟨(f.published old hf.1).1, hf.2⟩
  | popCas old next =>
      obtain ⟨hp, ⟨n, hn, rfl⟩, ho⟩ := hf
      obtain ⟨hp', hn'⟩ := f.published old hp
      exact ⟨hp', hn' n hn, ho⟩
  | takeData old =>
      obtain ⟨n, hn, ho⟩ := hf
      obtain ⟨n', hn', hd⟩ := owns old n _ rfl hn
      exact ⟨n', hn', hd ▸ ho⟩

variable [DecidableEq Addr]

/-- The ghost data after the stage of one node changed. -/
def Ghost.set (g : Ghost Tid Addr A) (a : Addr) (r : Role Tid) : Ghost Tid Addr A :=
  { g with role := Function.update g.role a r }

omit [DecidableEq Tid] [DecidableEq Addr] in
theorem Seg.off {mem mem' : Addr → Option (Node Addr A)} {c : Option Addr} {l : List (Addr × A)}
    (h : Seg (Linked mem) (· = none) c l) (hm : ∀ b, b ≠ a → mem' b = mem b)
    (ha : a ∉ l.map Prod.fst) : Seg (Linked mem') (· = none) c l := by
  refine h.congr fun x hx c next hn => ?_
  obtain ⟨hc, n, hn, hd⟩ := hn
  refine ⟨hc, n, ?_, hd⟩
  rw [hm x.1, hn]
  rintro rfl
  exact ha (List.mem_map_of_mem hx)

omit [DecidableEq Tid] in
theorem Global.set (h : Global s g) {stack : List (Addr × A)} (hf : r = .free ↔ s'.mem a = none)
    (hm : ∀ b, b ≠ a → s'.mem b = s.mem b)
    (hl : ∀ b, b ∈ stack.map Prod.fst ↔ if b = a then r = .linked else b ∈ g.stack.map Prod.fst)
    (hnd : (stack.map Prod.fst).Nodup) (hs : Seg (Linked s'.mem) (· = none) s'.head stack)
    (hrun : StackRun s'.history (stack.map Prod.snd)) :
    Global s' { g.set a r with stack := stack } := by
  refine ⟨fun b => ?_, fun b => ?_, hnd, hs, hrun⟩
  · by_cases hb : b = a
    · subst hb
      simpa only [Ghost.set, Function.update_self] using hf
    · simpa only [Ghost.set, Function.update_of_ne hb, hm b hb] using h.free b
  · rw [hl b]
    by_cases hb : b = a
    · subst hb
      simp only [Ghost.set, Function.update_self, if_true]
    · simpa only [Ghost.set, Function.update_of_ne hb, if_neg hb] using h.linked b

omit [DecidableEq Tid] in
theorem Global.aside (h : Global s g) (hl : g.role a ≠ .linked) (hr : r ≠ .linked)
    (hf : r = .free ↔ s'.mem a = none) (hm : ∀ b, b ≠ a → s'.mem b = s.mem b)
    (hh : s'.head = s.head) (hi : s'.history = s.history) : Global s' (g.set a r) := by
  have hnot : a ∉ g.stack.map Prod.fst := mt (h.linked a).mpr hl
  refine h.set hf hm (fun b => ?_) h.nodup ?_ (hi ▸ h.run)
  · by_cases hb : b = a
    · subst hb
      simp only [if_true, hr, hnot]
    · rw [if_neg hb]
  · rw [hh]
    exact Seg.off h.seg hm hnot

theorem Frame.set {stack : List (Addr × A)} (hm : ∀ b, b ≠ a → s'.mem b = s.mem b)
    (ho : ∀ k, g.role a ≠ .own u k) (hr : ∀ k, r ≠ .own u k)
    (hp : (g.role a).Published → r.Published ∧
      ∀ n, s.mem a = some n → ∃ n', s'.mem a = some n' ∧ n'.next = n.next)
    (hi : answers u s'.history = answers u s.history) (hret : s'.returned u = s.returned u) :
    Frame u s g s' { g.set a r with stack := stack } := by
  refine ⟨fun b k => ?_, fun b hb => ?_, fun b n k hk hn => ?_, hi, hret⟩
  · by_cases hba : b = a
    · subst hba
      simp only [Ghost.set, Function.update_self, hr, ho]
    · simp only [Ghost.set, Function.update_of_ne hba]
  · by_cases hba : b = a
    · subst hba
      simpa only [Ghost.set, Function.update_self] using hp hb
    · simp only [Ghost.set, Function.update_of_ne hba, hm b hba]
      exact ⟨hb, fun n hn => ⟨n, hn, rfl⟩⟩
  · have hba : b ≠ a := by
      rintro rfl
      exact ho k hk
    exact ⟨n, (hm b hba).trans hn, rfl⟩

theorem Local.set {stack : List (Addr × A)} (h : Local s g t pc)
    (hr : ∀ k, r = .own t k ↔ pc'.owned = some (a, k))
    (ho : ∀ b k, b ≠ a → (pc.owned = some (b, k) ↔ pc'.owned = some (b, k)))
    (hf : pc'.Facts s' { g.set a r with stack := stack } (answers t s'.history) (s'.returned t)) :
    Local s' { g.set a r with stack := stack } t pc' := by
  refine ⟨fun b k => ?_, hf⟩
  by_cases hb : b = a
  · subst hb
    simpa only [Ghost.set, Function.update_self] using hr k
  · simpa only [Ghost.set, Function.update_of_ne hb] using (h.owned b k).trans (ho b k hb)

omit [DecidableEq Addr] in
/-- The stage of a node in the hands of `t`, and what that rules out for others. -/
theorem Local.role_owned (h : Local s g t pc) {k : Kind} (ho : pc.owned = some (a, k)) :
    g.role a = .own t k ∧ ∀ u, u ≠ t → ∀ j, g.role a ≠ .own u j := by
  have hr := (h.owned a k).mpr ho
  refine ⟨hr, fun u hu j hj => hu ?_⟩
  rw [hr] at hj
  cases hj
  rfl

variable {movedFrom : A → A} {o : Oracle Addr A} {c : Config Tid (Shared Tid Addr A) (PC Addr A)}

def Kept (c : Config Tid (Shared Tid Addr A) (PC Addr A)) (t : Tid)
    (r : Shared Tid Addr A × PC Addr A) : Prop :=
  ∃ g', Global r.1 g' ∧ Local r.1 g' t r.2 ∧ ∀ u, u ≠ t → Local r.1 g' u (c.pc u)

omit [DecidableEq Addr] in
theorem kept_of_same (hG : Global c.shared g) (hL : ∀ u, Local c.shared g u (c.pc u))
    (ho : pc'.owned = (c.pc t).owned)
    (hf : pc'.Facts c.shared g (answers t c.shared.history) (c.shared.returned t)) :
    Kept c t (c.shared, pc') :=
  ⟨g, hG, ⟨fun a k => ho ▸ (hL t).owned a k, hf⟩, fun u _ => hL u⟩

theorem keep_idle (hG : Global c.shared g) (hL : ∀ u, Local c.shared g u (c.pc u))
    (hpc : c.pc t = .idle) : (exec movedFrom t o c.shared (c.pc t)).Sat (Kept c t) := by
  have hf := (hL t).facts
  rw [hpc] at hf ⊢
  simp only [exec]
  cases o.call with
  | push v => exact kept_of_same hG hL (by rw [hpc]; rfl) hf
  | pop => exact kept_of_same hG hL (by rw [hpc]; rfl) hf

theorem keep_newNode {v : A} (hG : Global c.shared g) (hL : ∀ u, Local c.shared g u (c.pc u))
    (hpc : c.pc t = .newNode v) : (exec movedFrom t o c.shared (c.pc t)).Sat (Kept c t) := by
  have hl := hL t
  rw [hpc] at hl ⊢
  simp only [exec]
  split
  · rename_i ha
    have hfree := (hG.free o.addr).mpr ha
    have hown : ∀ u k, g.role o.addr ≠ .own u k := by simp [hfree]
    refine ⟨g.set o.addr (.own t .fresh), hG.aside (by simp [hfree]) (by simp)
      (by simp [Shared.write_self]) (fun b => Shared.write_of_ne) rfl rfl, ?_, fun u hu => ?_⟩
    · refine hl.set (by simp [PC.owned, eq_comm]) (fun b k hb => by simp [PC.owned, hb.symm]) ?_
      exact ⟨⟨_, Shared.write_self, rfl⟩, hl.facts⟩
    · refine (hL u).frame (Frame.set (fun b => Shared.write_of_ne) (hown u) (by simp [hu.symm])
        (fun hp => ?_) rfl rfl)
      rw [hfree] at hp
      exact hp.elim
  · trivial

theorem kept_of_fresh {v : A} (hG : Global c.shared g) (hL : ∀ u, Local c.shared g u (c.pc u))
    (ho : (c.pc t).owned = some (a, .fresh)) (hv : n.data = v)
    (howed : answers t c.shared.history = c.shared.returned t) :
    Kept c t (c.shared.write a n, .pushCas v a) := by
  obtain ⟨hr, hne⟩ := (hL t).role_owned ho
  refine ⟨g.set a (.own t .fresh), hG.aside (by simp [hr]) (by simp) (by simp [Shared.write_self])
    (fun b => Shared.write_of_ne) rfl rfl, ?_, fun u hu => ?_⟩
  · refine (hL t).set (by simp [PC.owned, eq_comm]) (fun b k _ => by rw [ho]; rfl) ?_
    exact ⟨⟨n, Shared.write_self, hv⟩, howed⟩
  · refine (hL u).frame (Frame.set (fun b => Shared.write_of_ne) (hne u hu) (by simp [hu.symm])
      (fun hp => ?_) rfl rfl)
    rw [hr] at hp
    exact hp.elim

theorem keep_loadNext {v : A} (hG : Global c.shared g) (hL : ∀ u, Local c.shared g u (c.pc u))
    (hpc : c.pc t = .loadNext v a) : (exec movedFrom t o c.shared (c.pc t)).Sat (Kept c t) := by
  have hf := (hL t).facts
  rw [hpc] at hf
  obtain ⟨⟨n, hn, hv⟩, howed⟩ := hf
  simp only [hpc, exec, Shared.access_of hn, Outcome.sat_ok]
  exact kept_of_fresh hG hL (by rw [hpc]; rfl) hv howed

theorem keep_pushCas {v : A} (hG : Global c.shared g) (hL : ∀ u, Local c.shared g u (c.pc u))
    (hpc : c.pc t = .pushCas v a) : (exec movedFrom t o c.shared (c.pc t)).Sat (Kept c t) := by
  have ho : (c.pc t).owned = some (a, .fresh) := by
    rw [hpc]
    rfl
  obtain ⟨hr, hne⟩ := (hL t).role_owned ho
  have hf := (hL t).facts
  rw [hpc] at hf
  obtain ⟨⟨n, hn, hv⟩, howed⟩ := hf
  simp only [hpc, exec, Shared.access_of hn]
  split
  · rename_i hcas
    have hnot : a ∉ g.stack.map Prod.fst := by
      rw [← hG.linked, hr]
      simp
    refine ⟨{ g.set a .linked with stack := (a, v) :: g.stack }, hG.set (by simp [hn])
      (fun _ _ => rfl) (fun b => ?_) (List.nodup_cons.mpr ⟨hnot, hG.nodup⟩) ?_ (hG.run.push t v),
      ?_, fun u hu => ?_⟩
    · by_cases hb : b = a <;> simp [hb]
    · exact ⟨c.shared.head, ⟨rfl, n, hn, hv, hcas.1.symm⟩, hG.seg⟩
    · refine (hL t).set (by simp [PC.owned]) (fun b k hb => ?_) ?_
      · simp [hpc, PC.owned, hb.symm]
      · simpa [PC.Facts] using howed
    · refine (hL u).frame (Frame.set (fun _ _ => rfl) (hne u hu) (by simp) (fun hp => ?_)
        answers_push rfl)
      exact ⟨trivial, fun n hn => ⟨n, hn, rfl⟩⟩
  · exact kept_of_fresh hG hL ho hv howed

omit [DecidableEq Tid] [DecidableEq Addr] in
theorem Global.top (hG : Global s g) (ha : s.head = some a) :
    g.role a = .linked ∧ ∃ n, s.mem a = some n := by
  obtain ⟨role, stack⟩ := g
  obtain ⟨_, hl, _, hseg, -⟩ := hG
  cases stack with
  | nil => exact (Option.some_ne_none a (ha.symm.trans hseg)).elim
  | cons x l =>
      obtain ⟨next, ⟨hx, n, hn, -⟩, -⟩ := hseg
      obtain rfl : x.1 = a := Option.some.inj (hx.symm.trans ha)
      exact ⟨(hl _).mpr (by simp), n, hn⟩

omit [DecidableEq Addr] in
theorem keep_test (hG : Global c.shared g) (hL : ∀ u, Local c.shared g u (c.pc u))
    (ho : (c.pc t).owned = none) (howed : answers t c.shared.history = c.shared.returned t) :
    Kept c t (c.shared.test t) := by
  unfold Shared.test
  split
  · rename_i hnull
    have hstack : g.stack = [] := by
      obtain ⟨role, stack⟩ := g
      have hseg := hG.seg
      cases stack with
      | nil => rfl
      | cons x l =>
          obtain ⟨next, ⟨hx, -⟩, -⟩ := hseg
          exact (Option.some_ne_none x.1 (hx.symm.trans hnull)).elim
    have hrun : StackRun (c.shared.history ++ [.empty t]) (g.stack.map Prod.snd) := by
      rw [hstack]
      have hrun := hG.run
      rw [hstack] at hrun
      exact hrun.empty t
    refine ⟨g, ⟨hG.free, hG.linked, hG.nodup, hG.seg, hrun⟩, ⟨fun b k => ?_, ?_⟩, fun u hu => ?_⟩
    · rw [(hL t).owned b k, ho]
      rfl
    · simpa [PC.Facts, Shared.answer] using howed
    · refine (hL u).frame ⟨fun _ _ => Iff.rfl, fun _ hp => ⟨hp, fun n hn => ⟨n, hn, rfl⟩⟩,
        fun _ n _ _ hn => ⟨n, hn, rfl⟩, answers_empty_of_ne hu.symm, ?_⟩
      exact Function.update_of_ne hu _ _
  · rename_i p hp
    refine kept_of_same hG hL ho.symm ⟨?_, howed⟩
    rw [(hG.top hp).1]
    trivial

theorem keep_loadHead (hG : Global c.shared g) (hL : ∀ u, Local c.shared g u (c.pc u))
    (hpc : c.pc t = .loadHead) : (exec movedFrom t o c.shared (c.pc t)).Sat (Kept c t) := by
  have hf := (hL t).facts
  rw [hpc] at hf ⊢
  exact keep_test hG hL (by rw [hpc]; rfl) hf

theorem keep_readNext (hG : Global c.shared g) (hL : ∀ u, Local c.shared g u (c.pc u))
    (hpc : c.pc t = .readNext a) : (exec movedFrom t o c.shared (c.pc t)).Sat (Kept c t) := by
  have hf := (hL t).facts
  rw [hpc] at hf
  obtain ⟨hp, howed⟩ := hf
  cases hn : c.shared.mem a with
  | none =>
      rw [(hG.free a).mpr hn] at hp
      exact hp.elim
  | some n =>
      simp only [hpc, exec, Shared.access_of hn, Outcome.sat_ok]
      exact kept_of_same hG hL (by rw [hpc]; rfl) ⟨hp, ⟨n, hn, rfl⟩, howed⟩

omit [DecidableEq Tid] in
theorem Global.unlink (hG : Global s g) (ha : s.head = some a) (hn : s.mem a = some n) :
    ∃ stack, Global
      { s with head := n.next, history := s.history ++ (Option.some (Event.pop t n.data)).toList }
      { g.set a (.own t .popped) with stack := stack } ∧ g.role a = .linked := by
  have hr := (hG.top ha).1
  obtain ⟨role, stack⟩ := g
  obtain ⟨_, _, hnd, hseg, hrun⟩ := id hG
  cases stack with
  | nil => exact (Option.some_ne_none a (ha.symm.trans hseg)).elim
  | cons x l =>
      obtain ⟨next, ⟨hx, k, hk, hd, hnext⟩, hrest⟩ := hseg
      obtain rfl : x.1 = a := Option.some.inj (hx.symm.trans ha)
      obtain rfl := Option.some.inj (hk.symm.trans hn)
      obtain ⟨hnot, hnd'⟩ := List.nodup_cons.mp hnd
      refine ⟨l, hG.set (by simp [hn]) (fun _ _ => rfl) (fun b => ?_) hnd' (hnext ▸ hrest) ?_, hr⟩
      · by_cases hb : b = x.1
        · subst hb
          simpa using hnot
        · simp [hb]
      · rw [hd]
        exact hrun.pop t x.2

theorem keep_popCas {next : Option Addr} (hG : Global c.shared g)
    (hL : ∀ u, Local c.shared g u (c.pc u)) (hpc : c.pc t = .popCas a next) :
    (exec movedFrom t o c.shared (c.pc t)).Sat (Kept c t) := by
  have hf := (hL t).facts
  rw [hpc] at hf
  obtain ⟨hp, ⟨n, hn, rfl⟩, howed⟩ := hf
  simp only [hpc, exec, hn]
  split
  · rename_i hcas
    obtain ⟨stack, hG', hr⟩ := hG.unlink hcas.1 hn (t := t)
    refine ⟨_, hG', ?_, fun u hu => ?_⟩
    · refine (hL t).set (by simp [PC.owned, eq_comm]) (fun b k hb => ?_) ?_
      · simp [hpc, PC.owned, hb.symm]
      · exact ⟨n, hn, by simp [howed]⟩
    · exact (hL u).frame (Frame.set (fun _ _ => rfl) (by simp [hr]) (by simp [hu.symm])
        (fun _ => ⟨trivial, fun n hn => ⟨n, hn, rfl⟩⟩) (by simp [answers_pop_of_ne hu.symm]) rfl)
  · exact keep_test hG hL (by rw [hpc]; rfl) howed

theorem keep_takeData (hG : Global c.shared g) (hL : ∀ u, Local c.shared g u (c.pc u))
    (hpc : c.pc t = .takeData a) : (exec movedFrom t o c.shared (c.pc t)).Sat (Kept c t) := by
  obtain ⟨hr, hne⟩ := (hL t).role_owned (a := a) (by rw [hpc]; rfl)
  have hf := (hL t).facts
  rw [hpc] at hf
  obtain ⟨n, hn, howed⟩ := hf
  simp only [hpc, exec, Shared.access_of hn, Outcome.sat_ok]
  refine ⟨g.set a .done, hG.aside (by simp [hr]) (by simp) (by simp [Shared.answer])
    (fun b hb => Shared.write_of_ne hb) rfl rfl, ?_, fun u hu => ?_⟩
  · refine (hL t).set (by simp [PC.owned]) (fun b k hb => ?_) ?_
    · simp [hpc, PC.owned, hb.symm]
    · simpa [PC.Facts, Shared.answer, Shared.write] using howed
  · refine (hL u).frame (Frame.set (fun b hb => Shared.write_of_ne hb) (hne u hu) (by simp)
      (fun _ => ⟨trivial, fun k hk => ?_⟩) rfl (Function.update_of_ne hu _ _))
    obtain rfl := Option.some.inj (hk.symm.trans hn)
    exact ⟨_, Shared.write_self, rfl⟩

theorem outline (movedFrom : A → A) :
    Outline (exec movedFrom) (fun _ _ _ => True) (· = start)
      (Global : Shared Tid Addr A → Ghost Tid Addr A → Prop) Local where
  start := by
    rintro c rfl
    refine ⟨⟨fun _ => .free, []⟩, ?_, fun t => ?_⟩
    · exact ⟨by simp [start], by simp, by simp, rfl, .nil⟩
    · exact ⟨by simp [PC.owned, start], rfl⟩
  step := by
    intro c t o g _ _ hG hL
    cases hpc : c.pc t with
    | idle => exact hpc ▸ keep_idle hG hL hpc
    | newNode v => exact hpc ▸ keep_newNode hG hL hpc
    | loadNext v p => exact hpc ▸ keep_loadNext hG hL hpc
    | pushCas v p => exact hpc ▸ keep_pushCas hG hL hpc
    | loadHead => exact hpc ▸ keep_loadHead hG hL hpc
    | readNext old => exact hpc ▸ keep_readNext hG hL hpc
    | popCas old next => exact hpc ▸ keep_popCas hG hL hpc
    | takeData old => exact hpc ▸ keep_takeData hG hL hpc

/-- The values in the nodes from a pointer to the null pointer. -/
def Contents (mem : Addr → Option (Node Addr A)) : Option Addr → List A → Prop :=
  Seg (fun c v next => ∃ a n, c = some a ∧ mem a = some n ∧ n.data = v ∧ n.next = next) (· = none)

/-- The history records the successful exchanges of push and pop and the reads of a
null `head` which end a pop. -/
def Recorded (movedFrom : A → A) (c : Config Tid (Shared Tid Addr A) (PC Addr A)) : Prop :=
  ∀ t o d, c.advance (exec movedFrom) t o = .ok d →
    d.shared.history = c.shared.history ∨
    (∃ p n, c.pc t = .pushCas n.data p ∧ c.shared.mem p = some n ∧ c.shared.head = n.next ∧
      d.shared = { c.shared with
        head := some p, history := c.shared.history ++ [.push t n.data] }) ∨
    (∃ old n, c.pc t = .popCas old n.next ∧ c.shared.head = some old ∧
      c.shared.mem old = some n ∧
      d.shared = { c.shared with
        head := n.next, history := c.shared.history ++ [.pop t n.data] }) ∨
    (c.shared.head = none ∧ (c.pc t = .loadHead ∨ ∃ old next, c.pc t = .popCas old next) ∧
      d.shared = { c.shared.answer t none with history := c.shared.history ++ [.empty t] })

/-- The history is one of a sequential stack, which holds what is linked from
`head`; every pop returns what the history says, and no value is lost. A pop
without a value ends with a read of `head` that finds it null. -/
structure Linearizable (movedFrom : A → A) (c : Config Tid (Shared Tid Addr A) (PC Addr A)) :
    Prop where
  alive : ∀ t o, c.advance (exec movedFrom) t o ≠ .fault
  history : ∃ l, StackRun c.shared.history l ∧ Contents c.shared.mem c.shared.head l ∧
    (pushed c.shared.history).Perm (popped c.shared.history ++ l)
  recorded : Recorded movedFrom c
  answers : ∀ t, c.shared.returned t <+: answers t c.shared.history
  answered : ∀ t, c.pc t = .idle → c.shared.returned t = History.answers t c.shared.history
  empty : ∀ t o d, c.advance (exec movedFrom) t o = .ok d →
    d.shared.returned t = c.shared.returned t ++ [none] →
    c.shared.head = none ∧ (c.pc t = .loadHead ∨ ∃ old next, c.pc t = .popCas old next)

omit [DecidableEq Tid] [DecidableEq Addr] in
theorem contents_of_seg {mem : Addr → Option (Node Addr A)} {c : Option Addr}
    {l : List (Addr × A)} (h : Seg (Linked mem) (· = none) c l) :
    Contents mem c (l.map Prod.snd) := by
  refine h.map fun x _ c next hn => ?_
  obtain ⟨hc, n, hn⟩ := hn
  exact ⟨x.1, n, hc, hn⟩

/-- A step whose thread returns nothing has just read a null `head`. -/
theorem returns_none {s : Shared Tid Addr A} {r : Shared Tid Addr A × PC Addr A}
    (h : exec movedFrom t o s pc = .ok r) (hr : r.1.returned t = s.returned t ++ [none]) :
    s.head = none ∧ (pc = .loadHead ∨ ∃ old next, pc = .popCas old next) := by
  have hne : r.1.returned ≠ s.returned := by
    intro h
    rw [h] at hr
    simp at hr
  have htest : .ok (s.test t) = Outcome.ok r → s.head = none := by
    intro h
    cases h
    unfold Shared.test at hne
    split at hne
    · assumption
    · exact (hne rfl).elim
  have haccess : ∀ {a k}, s.access a k = .ok r → ∃ n, k n = .ok r := by
    intro a k h
    unfold Shared.access at h
    split at h
    · cases h
    · exact ⟨_, h⟩
  cases pc with
  | idle =>
      simp only [exec] at h
      split at h <;> cases h <;> exact (hne rfl).elim
  | newNode v =>
      simp only [exec] at h
      split at h <;> cases h
      exact (hne rfl).elim
  | loadNext v p =>
      obtain ⟨n, h⟩ := haccess h
      cases h
      exact (hne rfl).elim
  | pushCas v p =>
      obtain ⟨n, h⟩ := haccess h
      split at h <;> cases h <;> exact (hne rfl).elim
  | loadHead => exact ⟨htest h, .inl rfl⟩
  | readNext old =>
      obtain ⟨n, h⟩ := haccess h
      cases h
      exact (hne rfl).elim
  | popCas old next =>
      simp only [exec] at h
      split at h
      · cases h
        exact (hne rfl).elim
      · exact ⟨htest h, .inr ⟨old, next, rfl⟩⟩
  | takeData old =>
      obtain ⟨n, h⟩ := haccess h
      cases h
      simp [Shared.answer, Shared.write] at hr

theorem recorded (hL : ∀ t, Local c.shared g t (c.pc t)) : Recorded movedFrom c := by
  intro t o d hd
  obtain ⟨r, h, rfl⟩ := Outcome.map_eq_ok.mp hd
  have hf := (hL t).facts
  have htest : r = c.shared.test t → r.1.history = c.shared.history ∨ c.shared.head = none ∧
      r.1 = { c.shared.answer t none with history := c.shared.history ++ [.empty t] } := by
    rintro rfl
    unfold Shared.test
    split
    · exact .inr ⟨by assumption, rfl⟩
    · exact .inl rfl
  cases hpc : c.pc t <;> rw [hpc] at h hf
  case idle =>
    simp only [exec] at h
    split at h <;> cases h <;> exact .inl rfl
  case newNode v =>
    simp only [exec] at h
    split at h <;> cases h
    exact .inl rfl
  case loadHead =>
    cases h
    rcases htest rfl with he | ⟨hhead, he⟩
    · exact .inl he
    · exact .inr (.inr (.inr ⟨hhead, .inl rfl, he⟩))
  case loadNext v p =>
    obtain ⟨⟨n, hn, -⟩, -⟩ := hf
    simp only [exec, Shared.access_of hn] at h
    cases h
    exact .inl rfl
  case pushCas v p =>
    obtain ⟨⟨n, hn, rfl⟩, -⟩ := hf
    simp only [exec, Shared.access_of hn] at h
    split at h <;> cases h
    · rename_i hcas
      exact .inr (.inl ⟨p, n, rfl, hn, hcas.1, rfl⟩)
    · exact .inl rfl
  case readNext old =>
    obtain ⟨hp, -⟩ := hf
    simp only [exec, Shared.access] at h
    split at h <;> cases h
    exact .inl rfl
  case popCas old next =>
    obtain ⟨-, ⟨n, hn, rfl⟩, -⟩ := hf
    simp only [exec, hn] at h
    split at h
    · rename_i hcas
      cases h
      exact .inr (.inr (.inl ⟨old, n, rfl, hcas.1, hn, rfl⟩))
    · cases h
      rcases htest rfl with he | ⟨hhead, he⟩
      · exact .inl he
      · exact .inr (.inr (.inr ⟨hhead, .inr ⟨old, n.next, rfl⟩, he⟩))
  case takeData old =>
    obtain ⟨n, hn, -⟩ := hf
    simp only [exec, Shared.access_of hn] at h
    cases h
    exact .inl rfl

omit [DecidableEq Addr] [DecidableEq Tid] in
theorem PC.Facts.returned_owed {owed returned : List (Option A)}
    (h : pc.Facts s g owed returned) : returned <+: owed := by
  cases pc with
  | idle | newNode _ | loadHead => exact h ▸ List.prefix_rfl
  | loadNext v p | pushCas v p | readNext old => exact h.2 ▸ List.prefix_rfl
  | popCas old next => exact h.2.2 ▸ List.prefix_rfl
  | takeData old =>
      obtain ⟨n, -, h⟩ := h
      exact h ▸ List.prefix_append _ _

theorem linearizable_of_reach (hc : Reach (exec movedFrom) (· = start) c) :
    Linearizable movedFrom c := by
  obtain ⟨g, hG, hL⟩ := (outline movedFrom).holds hc
  refine ⟨fun t o => (outline movedFrom).safe hc trivial,
    ⟨_, hG.run, contents_of_seg hG.seg, hG.run.perm⟩, recorded hL, fun t => ?_,
    fun t ht => ?_, fun t o d hd hr => ?_⟩
  · exact (hL t).facts.returned_owed
  · have hf := (hL t).facts
    rw [ht] at hf
    exact hf.symm
  · obtain ⟨r, hx, rfl⟩ := Outcome.map_eq_ok.mp hd
    exact returns_none hx hr

end CsNotes.LockfreeStack.MemoryLeak
