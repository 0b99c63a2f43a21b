import CsNotes.Coroutine.Tasks

/-!
# Who owns a frame

Every frame that is there is held by one task, that of a variable or `tmp2` of
another frame. Between two operations a frame is as one of the lemmas for
activations has it, and a chain that is started has continuations from its
innermost frame up to the caller outside. During an operation one frame is at
work: it was just entered, or it is done and about to resume its continuation.
-/
namespace CsNotes.Coroutine
open Interleaving Calls

/-- The coroutine `h` is suspended and awaits the frame `i`. -/
def Above (s : State) (i : ℕ) : Hdl → Prop
  | .caller m => m = i ∧ s.callers i = true
  | .frame p => ∃ f x v h, s.frames p = some (.waiting f x v i (some h))

/-- How a frame can be; the one at work is `b`. -/
inductive Form (s : State) (b : Option ℕ) (i : ℕ) : Frame → Prop
  | fresh (c : Coro) (x v : ℤ) : Form s b i (.fresh c x v none)
  | entered (c : Coro) (x v : ℤ) {h : Hdl} : b = some i → Above s i h →
      Form s b i (.fresh c x v (some h))
  | blocked (n : ℕ) (value : ℤ → ℤ) (x v : ℤ) (w : ℕ) {h : Hdl} : Above s i h →
      Form s b i (.blocked (.leaf n value) x v w (some h))
  | waiting (f : Coro) (x v : ℤ) {j : ℕ} {h : Hdl} : i < j → Above s i h →
      Form s b i (.waiting f x v j (some h))
  | done (a : Frame) (v : ℤ) : (b = some i → ∃ h, a.continuation = some h ∧ Above s i h) →
      Form s b i (a.finish v)

/-- The frame `k` has the owner `g k` and was released if it is gone. -/
structure At {Var : Type} (T : Var → Option (Option ℕ)) (st : ℕ → Bool) (s : State)
    (b : Option ℕ) (g : ℕ → Option (Owner Var)) (k : ℕ) : Prop where
  form : ∀ a, s.frames k = some a → Form s b k a
  live : g k = none ↔ s.frames k = none
  owner : ∀ o, g k = some o ↔ Refers T s o k
  bound : s.allocs ≤ k → s.frames k = none
  kept : s.frames k ≠ none ∨ s.allocs ≤ k → s.log.count (.release k) = 0
  released : k < s.allocs → s.frames k = none → s.log.count (.release k) = 1
  unstarted : ∀ x a, T x = some (some k) → s.frames k = some a → st k = false →
    ∃ c y v, a = .fresh c y v none

/-- Nothing changes about the frame `k`. -/
structure Same {Var : Type} (T : Var → Option (Option ℕ)) (st : ℕ → Bool) (s : State)
    (b : Option ℕ) (g : ℕ → Option (Owner Var)) (T' : Var → Option (Option ℕ)) (st' : ℕ → Bool)
    (s' : State) (b' : Option ℕ) (g' : ℕ → Option (Owner Var)) (k : ℕ) : Prop where
  frame : s'.frames k = s.frames k
  callers : s'.callers k = s.callers k
  idle : b ≠ some k
  idle' : b' ≠ some k
  task : ∀ x, T' x = some (some k) ↔ T x = some (some k)
  holder : ∀ p a, .tmp2 ∈ a.live → a.tmp2 = some k → (s'.frames p = some a ↔ s.frames p = some a)
  ghost : g' k = g k
  allocs : s'.allocs ≤ k ↔ s.allocs ≤ k
  count : s'.log.count (.release k) = s.log.count (.release k)
  started : st k = true → st' k = true

variable {Var : Type} {T T' : Var → Option (Option ℕ)} {st st' : ℕ → Bool}
variable {s s' : State} {b b' : Option ℕ} {i j k p : ℕ} {a a' : Frame} {ev : List Event}
variable {c f : Coro} {x v y : ℤ} {h : Hdl} {o : Owner Var} {g g' : ℕ → Option (Owner Var)}

/-- Whoever awaits a frame that is not done does so above it. -/
theorem Form.above (hf : Form s b i a) (hc : a.continuation = some h)
    (ha : b = some i ∨ a.suspendPoint = 1) : Above s i h := by
  cases hf with
  | fresh c x v => cases hc
  | entered c x v _ hup | blocked n value x v w hup | waiting f x v _ hup =>
      cases hc
      exact hup
  | done a v hup =>
      rcases ha with ha | ha
      · obtain ⟨h', hc', hup⟩ := hup ha
        cases hc'.symm.trans hc
        exact hup
      · cases ha

theorem Form.holds (hf : Form s b i a) (ha : .tmp2 ∈ a.live) :
    ∃ f x v j h, i < j ∧ a = .waiting f x v j (some h) := by
  cases hf with
  | waiting f x v hj _ => exact ⟨f, x, v, _, _, hj, rfl⟩
  | fresh _ _ _ | entered _ _ _ _ _ => simp [Frame.fresh] at ha
  | blocked _ _ _ _ _ _ => simp [Frame.blocked] at ha
  | done _ _ _ => simp [Frame.finish] at ha

theorem Form.leaf (hf : Form s b i a) (ha : .tmp2 ∉ a.live) (hp : a.suspendPoint = 1) :
    ∃ n value x v w h, a = .blocked (.leaf n value) x v w (some h) := by
  cases hf with
  | blocked n value x v w _ => exact ⟨n, value, x, v, w, _, rfl⟩
  | waiting _ _ _ _ _ => simp [Frame.waiting] at ha
  | fresh _ _ _ | entered _ _ _ _ _ | done _ _ _ => cases hp

/-- Awaiting depends on the frames that hold the awaited one. -/
theorem Above.congr (ha : Above s k h) (callers : s'.callers k = s.callers k)
    (holder : ∀ p a, .tmp2 ∈ a.live → a.tmp2 = some k →
      (s'.frames p = some a ↔ s.frames p = some a)) : Above s' k h := by
  cases h with
  | caller m => exact ⟨ha.1, callers.trans ha.2⟩
  | frame p =>
      obtain ⟨f, x, v, h, hp⟩ := ha
      exact ⟨f, x, v, h, (holder p _ (by simp [Frame.waiting]) rfl).mpr hp⟩

theorem Form.congr (hf : Form s b k a) (hup : ∀ h, Above s k h → Above s' k h) :
    Form s' b k a := by
  cases hf with
  | fresh c x v => exact .fresh c x v
  | entered c x v hk ha => exact .entered c x v hk (hup _ ha)
  | blocked n value x v w ha => exact .blocked n value x v w (hup _ ha)
  | waiting f x v hj ha => exact .waiting f x v hj (hup _ ha)
  | done a v ha =>
      refine .done a v fun hk => ?_
      obtain ⟨h, hc, ha⟩ := ha hk
      exact ⟨h, hc, hup h ha⟩

/-- For a frame nothing is about to happen to, it does not matter which is at work. -/
theorem Form.idle (hf : Form s b k a) (hb : b ≠ some k) (hb' : b' ≠ some k) : Form s b' k a := by
  cases hf with
  | fresh c x v => exact .fresh c x v
  | entered c x v hk _ => exact (hb hk).elim
  | blocked n value x v w ha => exact .blocked n value x v w ha
  | waiting f x v hj ha => exact .waiting f x v hj ha
  | done a v _ => exact .done a v fun hk => (hb' hk).elim

theorem refers_congr (task : ∀ x, T' x = some (some k) ↔ T x = some (some k))
    (holder : ∀ p a, .tmp2 ∈ a.live → a.tmp2 = some k →
      (s'.frames p = some a ↔ s.frames p = some a)) : Refers T' s' o k ↔ Refers T s o k := by
  cases o with
  | var x => exact task x
  | tmp2 p =>
      constructor
      · rintro ⟨a, ha, hl, hk⟩
        exact ⟨a, (holder p a hl hk).mp ha, hl, hk⟩
      · rintro ⟨a, ha, hl, hk⟩
        exact ⟨a, (holder p a hl hk).mpr ha, hl, hk⟩

theorem At.keep (h : At T st s b g k) (hs : Same T st s b g T' st' s' b' g' k) :
    At T' st' s' b' g' k := by
  constructor
  case form =>
    intro a ha
    rw [hs.frame] at ha
    exact ((h.form a ha).idle hs.idle hs.idle').congr fun _ hup => hup.congr hs.callers hs.holder
  case live => rw [hs.ghost, hs.frame, h.live]
  case owner => exact fun o => by rw [hs.ghost, h.owner, refers_congr hs.task hs.holder]
  case bound => rw [hs.allocs, hs.frame]; exact h.bound
  case kept => rw [hs.allocs, hs.frame, hs.count]; exact h.kept
  case released =>
    rw [← Nat.not_le, hs.allocs, Nat.not_le, hs.frame, hs.count]
    exact h.released
  case unstarted =>
    intro x a hx ha hk
    rw [hs.frame] at ha
    refine h.unstarted x a ((hs.task x).mp hx) ha ?_
    by_contra hst
    rw [hs.started (by simpa using hst)] at hk
    cases hk

theorem At.replace (hk : At T st s b g k) (ha : s.frames k = some a) (ha' : s'.frames k = some a')
    (form : Form s' b' k a') (task : ∀ x, T' x = some (some k) ↔ T x = some (some k))
    (holder : ∀ p d, .tmp2 ∈ d.live → d.tmp2 = some k →
      (s'.frames p = some d ↔ s.frames p = some d))
    (ghost : g' k = g k) (allocs : s.allocs ≤ s'.allocs)
    (count : s'.log.count (.release k) = s.log.count (.release k))
    (started : ∀ x, T' x = some (some k) → st' k = true) : At T' st' s' b' g' k := by
  have hsome : s.frames k ≠ none := by simp [ha]
  have hlt : k < s.allocs := by
    by_contra hle
    exact hsome (hk.bound (Nat.not_lt.mp hle))
  constructor
  case form =>
    intro d hd
    cases ha'.symm.trans hd
    exact form
  case live => simp [ghost, hk.live, ha, ha']
  case owner => exact fun o => by rw [ghost, hk.owner, refers_congr task holder]
  case bound => exact fun hle => absurd hle (by omega)
  case kept => exact fun _ => count.trans (hk.kept (.inl hsome))
  case released => simp [ha']
  case unstarted =>
    intro x d hx _ hst
    rw [started x hx] at hst
    cases hst

theorem At.create (hk : At T st s b g k) (hle : s.allocs ≤ k) (ha' : s'.frames k = some a')
    (form : Form s' b' k a') (refers : ∀ o', Refers T' s' o' k ↔ o' = o) (ghost : g' k = some o)
    (allocs : k < s'.allocs) (count : s'.log.count (.release k) = s.log.count (.release k))
    (fresh : ∀ x, T' x = some (some k) → ∃ c y v, a' = .fresh c y v none) :
    At T' st' s' b' g' k := by
  constructor
  case form =>
    intro d hd
    cases ha'.symm.trans hd
    exact form
  case live => simp [ghost, ha']
  case owner =>
    intro o'
    rw [refers, ghost, Option.some.injEq]
    exact eq_comm
  case bound => exact fun hle => absurd hle (by omega)
  case kept => exact fun _ => count.trans (hk.kept (.inr hle))
  case released => simp [ha']
  case unstarted =>
    intro x d hx hd _
    cases ha'.symm.trans hd
    exact fresh x hx

theorem At.remove (hk : At T st s b g k) (ha : s.frames k = some a) (hnone : s'.frames k = none)
    (refers : ∀ o, ¬ Refers T' s' o k) (ghost : g' k = none) (allocs : s.allocs ≤ s'.allocs)
    (count : s'.log.count (.release k) = s.log.count (.release k) + 1) :
    At T' st' s' b' g' k := by
  have hsome : s.frames k ≠ none := by simp [ha]
  have hlt : k < s.allocs := by
    by_contra hle
    exact hsome (hk.bound (Nat.not_lt.mp hle))
  constructor
  case form => simp [hnone]
  case live => simp [ghost, hnone]
  case owner => simp [ghost, refers]
  case bound => exact fun _ => hnone
  case kept =>
    intro h
    rcases h with h | h
    · exact (h hnone).elim
    · omega
  case released => exact fun _ _ => count.trans (by rw [hk.kept (.inl hsome)])
  case unstarted => simp [hnone]

/-- Every frame is well. -/
def Inv (T : Var → Option (Option ℕ)) (st : ℕ → Bool) (s : State) (b : Option ℕ)
    (g : ℕ → Option (Owner Var)) : Prop := ∀ k, At T st s b g k

theorem Inv.free (hI : Inv T st s b g) : s.frames s.allocs = none :=
  (hI s.allocs).bound (Nat.le_refl _)

theorem Inv.not_refers (hI : Inv T st s b g) (hi : s.frames i = none) : ¬ Refers T s o i := by
  rw [← (hI i).owner, (hI i).live.mpr hi]
  exact (Option.some_ne_none o).symm

theorem Inv.lt_allocs (hI : Inv T st s b g) (ha : s.frames i = some a) : i < s.allocs := by
  by_contra hle
  rw [(hI i).bound (Nat.not_lt.mp hle)] at ha
  cases ha

theorem count_notes (hrel : ev.count (.release k) = 0) :
    (s.notes ev).log.count (.release k) = s.log.count (.release k) := by
  unfold State.notes
  rw [List.count_append, hrel, Nat.add_zero]

/-- A frame that holds no task is replaced by another which holds none. -/
theorem Inv.set (hI : Inv T st s b g) (ha : s.frames i = some a) (hw : .tmp2 ∉ a.live)
    (hw' : .tmp2 ∉ a'.live) (hb : ∀ k, b = some k → k = i) (hb' : ∀ k, b' = some k → k = i)
    (hst : ∀ x, T x = some (some i) → st i = true) (hrel : ∀ k, ev.count (.release k) = 0)
    (hf : Form s b' i a') : Inv T st ((s.setFrame i a').notes ev) b' g := by
  have hself : ((s.setFrame i a').notes ev).frames i = some a' := Function.update_self i _ _
  have hlog : ∀ k, ((s.setFrame i a').notes ev).log.count (.release k) =
      s.log.count (.release k) := fun k => count_notes (hrel k)
  have hholder : ∀ p d, .tmp2 ∈ d.live →
      (((s.setFrame i a').notes ev).frames p = some d ↔ s.frames p = some d) := by
    intro p d hd
    by_cases hp : p = i
    · subst hp
      rw [hself, ha]
      constructor <;> intro he <;> cases he
      · exact (hw' hd).elim
      · exact (hw hd).elim
    · exact iff_of_eq (congrArg (· = some d) (Function.update_of_ne hp _ _))
  intro k
  by_cases hk : k = i
  · subst hk
    have hf : Form ((s.setFrame k a').notes ev) b' k a' := hf.congr fun _ hup =>
      hup.congr rfl fun p d hd _ => hholder p d hd
    exact (hI k).replace ha hself hf (fun _ => Iff.rfl) (fun p d hd _ => hholder p d hd) rfl
      (Nat.le_refl _) (hlog k) hst
  · exact (hI k).keep ⟨Function.update_of_ne hk _ _, rfl, fun he => hk (hb k he),
      fun he => hk (hb' k he), fun _ => Iff.rfl, fun p d hd _ => hholder p d hd, rfl, Iff.rfl,
      hlog k, id⟩

/-- The frame at work has been started, if it is the one of a variable. -/
theorem Inv.started (hI : Inv T st s b g) (ha : s.frames i = some a)
    (hne : ∀ c x v, a ≠ .fresh c x v none) : ∀ x, T x = some (some i) → st i = true := by
  intro x hx
  by_contra hst
  obtain ⟨c, y, v, he⟩ := (hI i).unstarted x a hx ha (by simpa using hst)
  exact hne c y v he

theorem Inv.enter (hI : Inv T st s (some i) g) (ev : List Event)
    (ha : s.frames i = some (.fresh (.g f) x v (some h))) (hrel : ∀ k, ev.count (.release k) = 0) :
    Inv T st ((({ s with allocs := s.allocs + 1 }.setFrame i
        (.waiting f x v s.allocs (some h))).setFrame s.allocs
          (.fresh f x y (some (.frame i)))).notes ev) (some s.allocs)
      (Function.update g s.allocs (some (.tmp2 i))) := by
  let j := s.allocs
  let t := (({ s with allocs := j + 1 }.setFrame i (.waiting f x v j (some h))).setFrame j
    (.fresh f x y (some (.frame i)))).notes ev
  have hij : i < j := hI.lt_allocs ha
  have hj : t.frames j = some (.fresh f x y (some (.frame i))) := Function.update_self j _ _
  have hi : t.frames i = some (.waiting f x v j (some h)) :=
    (Function.update_of_ne (by omega) _ _).trans (Function.update_self i _ _)
  have hne : ∀ p, p ≠ i → p ≠ j → t.frames p = s.frames p := fun p hpi hpj =>
    (Function.update_of_ne hpj _ _).trans (Function.update_of_ne hpi _ _)
  have hlog : ∀ k, t.log.count (.release k) = s.log.count (.release k) :=
    fun k => count_notes (hrel k)
  have hholder : ∀ p d k, .tmp2 ∈ d.live → d.tmp2 = some k → k ≠ j →
      (t.frames p = some d ↔ s.frames p = some d) := by
    intro p d k hd hk hkj
    by_cases hpj : p = j
    · subst hpj
      rw [hj, hI.free]
      constructor <;> intro he <;> cases he
      simp [Frame.fresh] at hd
    · by_cases hpi : p = i
      · subst hpi
        rw [hi, ha]
        constructor <;> intro he <;> cases he
        · exact (hkj (Option.some.inj hk).symm).elim
        · simp [Frame.fresh] at hd
      · rw [hne p hpi hpj]
  have hrefers : ∀ o, Refers T t o j ↔ o = .tmp2 i := by
    intro o
    constructor
    · intro ho
      cases o with
      | var z => exact (hI.not_refers (o := .var z) hI.free ho).elim
      | tmp2 p =>
          obtain ⟨d, hd, hl, he⟩ := ho
          by_cases hpi : p = i
          · rw [hpi]
          · have hpj : p ≠ j := by
              rintro rfl
              cases hj.symm.trans hd
              simp [Frame.fresh] at hl
            rw [hne p hpi hpj] at hd
            exact (hI.not_refers (o := .tmp2 p) hI.free ⟨d, hd, hl, he⟩).elim
    · rintro rfl
      exact ⟨_, hi, by simp [Frame.waiting], rfl⟩
  change Inv T st t (some j) _
  intro k
  by_cases hkj : k = j
  · subst hkj
    exact (hI j).create (Nat.le_refl _) hj (.entered f x y rfl ⟨f, x, v, h, hi⟩) hrefers
      (Function.update_self j _ _) (Nat.lt_succ_self j) (hlog j)
      fun z hz => (hI.not_refers (o := .var z) hI.free hz).elim
  by_cases hki : k = i
  · subst hki
    have hup := ((hI k).form _ ha).above rfl (.inl rfl)
    have hup : Above t k h := hup.congr rfl fun p d hd hk => hholder p d k hd hk hkj
    exact (hI k).replace ha hi (.waiting f x v hij hup) (fun _ => Iff.rfl)
      (fun p d hd hk => hholder p d k hd hk hkj) (Function.update_of_ne hkj _ _)
      (Nat.le_succ _) (hlog k) (hI.started ha (by simp [Frame.fresh]))
  · exact (hI k).keep ⟨hne k hki hkj, rfl, fun he => hki (Option.some.inj he).symm,
      fun he => hkj (Option.some.inj he).symm, fun _ => Iff.rfl,
      fun p d hd hk => hholder p d k hd hk hkj, Function.update_of_ne hkj _ _,
      (by change j + 1 ≤ k ↔ j ≤ k; omega), hlog k, id⟩

/-- `g` goes on above a frame that is done, which is released, and is done itself. -/
theorem Inv.collect (hI : Inv T st s (some i) g) (ev : List Event) (hi : s.frames i = some a)
    (hw : .tmp2 ∉ a.live) (hp : s.frames p = some (.waiting f x v i (some h))) (hpi : p ≠ i)
    (hrel : ∀ k, ev.count (.release k) = if k = i then 1 else 0) :
    Inv T st (({ s with frames := Function.update s.frames i none }.setFrame p
        ((Frame.waiting f x v i (some h)).finish y)).notes ev) (some p)
      (Function.update g i none) := by
  let t := ({ s with frames := Function.update s.frames i none }.setFrame p
    ((Frame.waiting f x v i (some h)).finish y)).notes ev
  have ht : t.frames p = some ((Frame.waiting f x v i (some h)).finish y) :=
    Function.update_self p _ _
  have hnone : t.frames i = none :=
    (Function.update_of_ne hpi.symm _ _).trans (Function.update_self i _ _)
  have hne : ∀ q, q ≠ p → q ≠ i → t.frames q = s.frames q := fun q hqp hqi =>
    (Function.update_of_ne hqp _ _).trans (Function.update_of_ne hqi _ _)
  have hlog : ∀ k, k ≠ i → t.log.count (.release k) = s.log.count (.release k) :=
    fun k hk => count_notes ((hrel k).trans (if_neg hk))
  have hholder : ∀ q d k, .tmp2 ∈ d.live → d.tmp2 = some k → k ≠ i →
      (t.frames q = some d ↔ s.frames q = some d) := by
    intro q d k hd hk hki
    by_cases hqi : q = i
    · subst hqi
      rw [hnone, hi]
      constructor <;> intro he <;> cases he
      exact (hw hd).elim
    · by_cases hqp : q = p
      · subst hqp
        rw [ht, hp]
        constructor <;> intro he <;> cases he
        · simp [Frame.finish] at hd
        · exact (hki (Option.some.inj hk).symm).elim
      · rw [hne q hqp hqi]
  have howner : g i = some (.tmp2 p) :=
    ((hI i).owner _).mpr ⟨_, hp, by simp [Frame.waiting], rfl⟩
  change Inv T st t (some p) _
  intro k
  by_cases hki : k = i
  · subst hki
    refine (hI k).remove hi hnone (fun o ho => ?_) (Function.update_self k _ _) (Nat.le_refl _) ?_
    · have hsame : ∀ o, Refers T s o k → o = .tmp2 p := by
        intro o ho
        exact Option.some.inj ((((hI k).owner o).mpr ho).symm.trans howner)
      cases o with
      | var z => cases hsame (.var z) ho
      | tmp2 q =>
          obtain ⟨d, hd, hl, he⟩ := ho
          by_cases hqp : q = p
          · subst hqp
            cases ht.symm.trans hd
            simp [Frame.finish] at hl
          · have hqk : q ≠ k := by
              rintro rfl
              rw [hnone] at hd
              cases hd
            rw [hne q hqp hqk] at hd
            cases hsame (.tmp2 q) ⟨d, hd, hl, he⟩
            exact hqp rfl
    · change (s.log ++ ev).count (.release k) = _
      rw [List.count_append, hrel, if_pos rfl]
  by_cases hkp : k = p
  · subst hkp
    have hup := ((hI k).form _ hp).above rfl (.inr rfl)
    have hup : Above t k h := hup.congr rfl fun q d hd hk => hholder q d k hd hk hki
    exact (hI k).replace hp ht (.done _ y fun _ => ⟨h, rfl, hup⟩) (fun _ => Iff.rfl)
      (fun q d hd hk => hholder q d k hd hk hki) (Function.update_of_ne hki _ _) (Nat.le_refl _)
      (hlog k hki) (hI.started hp (by simp [Frame.fresh, Frame.waiting]))
  · exact (hI k).keep ⟨hne k hkp hki, rfl, fun he => hki (Option.some.inj he).symm,
      fun he => hkp (Option.some.inj he).symm, fun _ => Iff.rfl,
      fun q d hd hk => hholder q d k hd hk hki, Function.update_of_ne hki _ _, Iff.rfl,
      hlog k hki, id⟩

theorem Inv.answer {r : List (ℕ × ℤ)} (hI : Inv T st s (some i) g)
    (hi : s.frames i = some (a.finish v)) (hrel : ∀ k, ev.count (.release k) = 0) :
    Inv T st (({ s with callers := Function.update s.callers i false, answers := r }.setFrame i
      (a.finish v)).notes ev) none g := by
  have hframes : Function.update s.frames i (some (a.finish v)) = s.frames := by
    rw [← hi, Function.update_eq_self]
  have hlog : ∀ k, (s.notes ev).log.count (.release k) = s.log.count (.release k) :=
    fun k => count_notes (hrel k)
  intro k
  by_cases hk : k = i
  · subst hk
    exact (hI k).replace hi (Function.update_self k _ _)
      (.done a v fun he => (Option.some_ne_none k he.symm).elim)
      (fun _ => Iff.rfl) (fun p d _ _ => iff_of_eq (congrArg (· p = some d) hframes)) rfl
      (Nat.le_refl _) (hlog k) (hI.started hi (by simp [Frame.fresh, Frame.finish]))
  · exact (hI k).keep ⟨congrFun hframes k, Function.update_of_ne hk _ _,
      fun he => hk (Option.some.inj he).symm, (Option.some_ne_none k).symm, fun _ => Iff.rfl,
      fun p d _ _ => iff_of_eq (congrArg (· p = some d) hframes), rfl, Iff.rfl, hlog k, id⟩

theorem Inv.await (hI : Inv T st s none g) (hi : s.frames i = some (.fresh c x v none))
    (hst : ∀ k, st k = true → st' k = true) (hi' : st' i = true) :
    Inv T st' ({ s with callers := Function.update s.callers i true }.setFrame i
      (.fresh c x v (some (.caller i)))) (some i) g := by
  let t := { s with callers := Function.update s.callers i true }.setFrame i
    (.fresh c x v (some (.caller i)))
  have hself : t.frames i = some (.fresh c x v (some (.caller i))) := Function.update_self i _ _
  have hholder : ∀ p d, .tmp2 ∈ d.live → (t.frames p = some d ↔ s.frames p = some d) := by
    intro p d hd
    by_cases hp : p = i
    · subst hp
      rw [hself, hi]
      constructor <;> intro he <;> cases he <;> simp [Frame.fresh] at hd
    · exact iff_of_eq (congrArg (· = some d) (Function.update_of_ne hp _ _))
  intro k
  by_cases hk : k = i
  · subst hk
    exact (hI k).replace hi hself (.entered c x v rfl ⟨rfl, Function.update_self k _ _⟩)
      (fun _ => Iff.rfl) (fun p d hd _ => hholder p d hd) rfl (Nat.le_refl _) rfl fun _ _ => hi'
  · exact (hI k).keep ⟨Function.update_of_ne hk _ _, Function.update_of_ne hk _ _,
      (Option.some_ne_none k).symm, fun he => hk (Option.some.inj he).symm, fun _ => Iff.rfl,
      fun p d hd _ => hholder p d hd, rfl, Iff.rfl, rfl, hst k⟩

/-- The state without these frames. -/
def State.without (s : State) (l : List ℕ) : State :=
  { s with frames := fun k => if k ∈ l then none else s.frames k }

theorem Beneath.frame {l : List ℕ} (hl : Beneath s i l) (hk : k ∈ i :: l) :
    ∃ a, s.frames k = some a := by
  induction l generalizing i with
  | nil =>
      obtain rfl := List.mem_singleton.mp hk
      obtain ⟨a, ha, -⟩ := hl
      exact ⟨a, ha⟩
  | cons j l ih =>
      obtain ⟨⟨a, ha, -⟩, hrest⟩ := hl
      rcases List.mem_cons.mp hk with rfl | hk
      · exact ⟨a, ha⟩
      · exact ih hrest hk

theorem Beneath.next {l : List ℕ} (hl : Beneath s i l) (hp : p ∈ i :: l)
    (hk : Refers T s (.tmp2 p) k) : k ∈ l := by
  obtain ⟨d, hd, htmp, he⟩ := hk
  induction l generalizing i with
  | nil =>
      obtain rfl := List.mem_singleton.mp hp
      obtain ⟨a, ha, hno⟩ := hl
      cases ha.symm.trans hd
      exact (hno htmp).elim
  | cons j l ih =>
      obtain ⟨⟨a, ha, -, hj⟩, hrest⟩ := hl
      rcases List.mem_cons.mp hp with rfl | hp
      · cases ha.symm.trans hd
        cases hj.symm.trans he
        exact List.mem_cons_self
      · exact List.mem_cons_of_mem j (ih hrest hp)

theorem Beneath.prev {l : List ℕ} (hl : Beneath s i l) (hk : k ∈ l) :
    ∃ p ∈ i :: l, Refers T s (.tmp2 p) k := by
  induction l generalizing i with
  | nil => cases hk
  | cons j l ih =>
      obtain ⟨⟨a, ha, htmp, hj⟩, hrest⟩ := hl
      rcases List.mem_cons.mp hk with rfl | hk
      · exact ⟨i, List.mem_cons_self, a, ha, htmp, hj⟩
      · obtain ⟨p, hp, hpk⟩ := ih hrest hk
        exact ⟨p, List.mem_cons_of_mem i hp, hpk⟩

section Vars
variable [DecidableEq Var] {z : Var}

theorem Inv.call (hI : Inv T st s none g) (hz : T z = none)
    (hrel : ∀ k, ev.count (.release k) = 0) :
    Inv (Function.update T z (some (some s.allocs))) st
      (({ s with allocs := s.allocs + 1 }.setFrame s.allocs (.fresh c x v none)).notes ev) none
      (Function.update g s.allocs (some (.var z))) := by
  let j := s.allocs
  let T' := Function.update T z (some (some j))
  let t := ({ s with allocs := j + 1 }.setFrame j (.fresh c x v none)).notes ev
  have hj : t.frames j = some (.fresh c x v none) := Function.update_self j _ _
  have hlog : ∀ k, t.log.count (.release k) = s.log.count (.release k) :=
    fun k => count_notes (hrel k)
  have hholder : ∀ p d, .tmp2 ∈ d.live → (t.frames p = some d ↔ s.frames p = some d) := by
    intro p d hd
    by_cases hp : p = j
    · subst hp
      rw [hj, hI.free]
      constructor <;> intro he <;> cases he
      simp [Frame.fresh] at hd
    · exact iff_of_eq (congrArg (· = some d) (Function.update_of_ne hp _ _))
  have hrefers : ∀ o, Refers T' t o j ↔ o = .var z := by
    intro o
    constructor
    · intro ho
      cases o with
      | var z' =>
          by_cases hzz : z' = z
          · rw [hzz]
          · have hT : T z' = some (some j) := (Function.update_of_ne hzz _ _).symm.trans ho
            exact (hI.not_refers (o := .var z') hI.free hT).elim
      | tmp2 p =>
          obtain ⟨d, hd, hl, he⟩ := ho
          have hs : Refers T s (.tmp2 p) j := ⟨d, (hholder p d hl).mp hd, hl, he⟩
          exact (hI.not_refers hI.free hs).elim
    · rintro rfl
      exact Function.update_self z _ _
  change Inv T' st t none _
  intro k
  by_cases hk : k = j
  · subst hk
    exact (hI j).create (Nat.le_refl _) hj (.fresh c x v) hrefers (Function.update_self j _ _)
      (Nat.lt_succ_self j) (hlog j) fun _ _ => ⟨c, x, v, rfl⟩
  · have htask : ∀ z', T' z' = some (some k) ↔ T z' = some (some k) := by
      intro z'
      by_cases hzz : z' = z
      · subst hzz
        simp [T', hz, Ne.symm hk]
      · exact iff_of_eq (congrArg (· = _) (Function.update_of_ne hzz _ _))
    exact (hI k).keep ⟨Function.update_of_ne hk _ _, rfl, (Option.some_ne_none k).symm,
      (Option.some_ne_none k).symm, htask, fun p d hd _ => hholder p d hd,
      Function.update_of_ne hk _ _, (by change j + 1 ≤ k ↔ j ≤ k; omega), hlog k, id⟩

/-- A task moves from one variable to another, which holds none. -/
theorem Inv.move {z' : Var} {r : Option ℕ} (hI : Inv T st s none g) (hr : T z' = some r)
    (hz : ∀ k, T z ≠ some (some k)) (hne : z ≠ z') :
    Inv (Function.update (Function.update T z' (some none)) z (some r)) st s none
      fun k => if r = some k then some (.var z) else g k := by
  let T' := Function.update (Function.update T z' (some none)) z (some r)
  have hTz : T' z = some r := Function.update_self z _ _
  have hTz' : T' z' = some none :=
    (Function.update_of_ne hne.symm _ _).trans (Function.update_self z' _ _)
  have hT : ∀ x, x ≠ z → x ≠ z' → T' x = T x := fun x hx hx' =>
    (Function.update_of_ne hx _ _).trans (Function.update_of_ne hx' _ _)
  change Inv T' st s none _
  intro k
  by_cases hk : r = some k
  · subst hk
    have howner : g k = some (.var z') := ((hI k).owner _).mpr hr
    have hunique : ∀ o, Refers T s o k → o = .var z' := fun o ho =>
      Option.some.inj ((((hI k).owner o).mpr ho).symm.trans howner)
    have hkI := hI k
    refine ⟨hkI.form, ?_, fun o => ?_, hkI.bound, hkI.kept, hkI.released, fun x a _ => ?_⟩
    · rw [if_pos rfl, ← hkI.live, howner]
      simp
    · rw [if_pos rfl]
      constructor
      · intro ho
        cases ho
        exact hTz
      · intro ho
        cases o with
        | var x =>
            by_cases hx : x = z
            · rw [hx]
            · have hx' : x ≠ z' := by
                rintro rfl
                cases hTz'.symm.trans ho
              cases hunique (.var x) ((hT x hx hx').symm.trans ho)
              exact (hx' rfl).elim
        | tmp2 p => cases hunique (.tmp2 p) ho
    · exact hkI.unstarted z' a hr
  · have htask : ∀ x, T' x = some (some k) ↔ T x = some (some k) := by
      intro x
      by_cases hx : x = z
      · subst hx
        rw [hTz]
        exact ⟨fun he => (hk (Option.some.inj he)).elim, fun he => (hz k he).elim⟩
      · by_cases hx' : x = z'
        · subst hx'
          rw [hTz', hr]
          constructor
          · intro he
            cases he
          · exact fun he => (hk (Option.some.inj he)).elim
        · rw [hT x hx hx']
    exact (hI k).keep ⟨rfl, rfl, (Option.some_ne_none k).symm, (Option.some_ne_none k).symm, htask,
      fun _ _ _ _ => Iff.rfl, if_neg hk, Iff.rfl, rfl, id⟩

theorem Inv.forget {r : Option (Option ℕ)} (hI : Inv T st s none g)
    (hz : ∀ k, T z ≠ some (some k)) (hr : ∀ k, r ≠ some (some k)) :
    Inv (Function.update T z r) st s none g := by
  intro k
  have htask : ∀ x, Function.update T z r x = some (some k) ↔ T x = some (some k) := by
    intro x
    by_cases hx : x = z
    · subst hx
      rw [Function.update_self]
      exact ⟨fun he => (hr k he).elim, fun he => (hz k he).elim⟩
    · rw [Function.update_of_ne hx]
  exact (hI k).keep ⟨rfl, rfl, (Option.some_ne_none k).symm, (Option.some_ne_none k).symm, htask,
    fun _ _ _ _ => Iff.rfl, rfl, Iff.rfl, rfl, id⟩

/-- A variable dies, or is set to null, and its frame and those beneath it are
released. -/
theorem Inv.drop {l : List ℕ} {r : Option (Option ℕ)} (hI : Inv T st s none g)
    (hz : T z = some (some i)) (hl : Beneath s i l) (hr : ∀ k, r ≠ some (some k))
    (hrel : ∀ k, ev.count (.release k) = if k ∈ i :: l then 1 else 0) :
    Inv (Function.update T z r) st ((s.without (i :: l)).notes ev) none
      fun k => if k ∈ i :: l then none else g k := by
  let t := (s.without (i :: l)).notes ev
  have hnone : ∀ k, k ∈ i :: l → t.frames k = none := fun k hk => if_pos hk
  have hne : ∀ k, k ∉ i :: l → t.frames k = s.frames k := fun k hk => if_neg hk
  have hT : ∀ k x, Function.update T z r x = some (some k) → x ≠ z ∧ T x = some (some k) := by
    intro k x hx
    by_cases hxz : x = z
    · subst hxz
      rw [Function.update_self] at hx
      exact (hr k hx).elim
    · exact ⟨hxz, (Function.update_of_ne hxz _ _).symm.trans hx⟩
  have hunique : ∀ k o o', Refers T s o k → Refers T s o' k → o = o' := fun k o o' ho ho' =>
    Option.some.inj ((((hI k).owner o).mpr ho).symm.trans (((hI k).owner o').mpr ho'))
  change Inv _ st t none _
  intro k
  by_cases hk : k ∈ i :: l
  · obtain ⟨a, ha⟩ := hl.frame hk
    have howner : ∃ o, Refers T s o k ∧ (o = .var z ∨ ∃ p ∈ i :: l, o = .tmp2 p) := by
      rcases List.mem_cons.mp hk with rfl | hk
      · exact ⟨.var z, hz, .inl rfl⟩
      · obtain ⟨p, hp, hpk⟩ := hl.prev (T := T) hk
        exact ⟨.tmp2 p, hpk, .inr ⟨p, hp, rfl⟩⟩
    obtain ⟨o, ho, hcase⟩ := howner
    refine (hI k).remove ha (hnone k hk) (fun o' ho' => ?_) (if_pos hk) (Nat.le_refl _) ?_
    · cases o' with
      | var x =>
          obtain ⟨hxz, hx⟩ := hT k x ho'
          cases hunique k _ (.var x) ho hx
          rcases hcase with he | ⟨p, -, he⟩
          · exact hxz (Owner.var.inj he)
          · cases he
      | tmp2 q =>
          obtain ⟨d, hd, htmp, he⟩ := ho'
          have hq : q ∉ i :: l := by
            intro hq
            rw [hnone q hq] at hd
            cases hd
          rw [hne q hq] at hd
          cases hunique k _ (.tmp2 q) ho ⟨d, hd, htmp, he⟩
          rcases hcase with he | ⟨p, hp, he⟩
          · cases he
          · exact hq (Owner.tmp2.inj he ▸ hp)
    · change (s.log ++ ev).count (.release k) = _
      rw [List.count_append, hrel, if_pos hk]
  · have htask : ∀ x, Function.update T z r x = some (some k) ↔ T x = some (some k) := by
      intro x
      refine ⟨fun hx => (hT k x hx).2, fun hx => ?_⟩
      have hxz : x ≠ z := by
        rintro rfl
        cases hz.symm.trans hx
        exact hk List.mem_cons_self
      exact (Function.update_of_ne hxz _ _).trans hx
    have hholder : ∀ p d, .tmp2 ∈ d.live → d.tmp2 = some k →
        (t.frames p = some d ↔ s.frames p = some d) := by
      intro p d htmp he
      by_cases hp : p ∈ i :: l
      · rw [hnone p hp]
        constructor <;> intro hd
        · cases hd
        · exact (hk (List.mem_cons_of_mem i (hl.next (T := T) hp ⟨d, hd, htmp, he⟩))).elim
      · rw [hne p hp]
    exact (hI k).keep ⟨hne k hk, rfl, (Option.some_ne_none k).symm, (Option.some_ne_none k).symm,
      htask, hholder, if_neg hk, Iff.rfl, count_notes ((hrel k).trans (if_neg hk)), id⟩

end Vars
end CsNotes.Coroutine
