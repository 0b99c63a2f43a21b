import CsNotes.Coroutine.Unwinding

/-!
# One owner and one release for every frame

Each operation of a program ends, in a state in which every frame has one owner
again. Destroying a task releases its frame with all frames beneath it.
-/
namespace CsNotes.Coroutine
open Interleaving Calls

variable {Var : Type} {T : Var → Option (Option ℕ)} {st : ℕ → Bool} (junk : ℕ → ℤ)
variable {s : State} {i j : ℕ} {a : Frame} {c : Coro} {x v : ℤ} {h : Hdl}
variable {g : ℕ → Option (Owner Var)}

/-- Once a frame is done, every frame above it returns in turn. -/
theorem runs_return (hI : Inv T st s (some i) g) (hi : s.frames i = some (a.finish v))
    (hc : a.continuation = some h) :
    ∃ t g', Runs (body taskReady junk) (fun r => r (.resume (some h)) s) t ∧
      Inv T st t none g' := by
  induction i using Nat.strongRecOn generalizing s g a v h with
  | ind i ih =>
    have hup := ((hI i).form _ hi).above hc (.inl rfl)
    cases h with
    | caller m =>
        obtain ⟨rfl, hcall⟩ := hup
        have hbody : ∀ r, body taskReady junk r (.resume (some (.caller m)))
            ((s.setFrame m (a.finish v)).notes []) = _ :=
          fun r => resume_caller hcall (by simp [Frame.finish])
        rw [State.notes_nil, setFrame_self hi] at hbody
        exact ⟨_, g, .call (.pure hbody), hI.answer hi (by simp)⟩
    | frame p =>
        obtain ⟨f, x, w, h', hp⟩ := hup
        obtain ⟨_, _, _, _, _, hpi, he⟩ := ((hI p).form _ hp).holds (by simp [Frame.waiting])
        cases he
        have hne : p ≠ i := by omega
        have hI' := hI.collect (y := v * v) [.resume (.frame p), .read (.frame p) i,
          .destroy p .tmp3, .destroy p .tmp2, .destroy i .tmp4, .destroy i .promise, .release i,
          .construct p .tmp4] hi (by simp [Frame.finish]) hp hne fun k => by
            by_cases hk : k = i
            · simp [hk]
            · simp [hk, Ne.symm hk]
        obtain ⟨t, g', ht, hIt⟩ := ih p hpi hI' (Function.update_self p _ _) rfl
        have hs : (((s.hide i).setFrame p (.waiting f x w i (some h'))).setFrame i
            (a.finish v)).notes [] = s := by
          rw [State.notes_nil, State.setFrame_comm hne, setFrame_hide hi, setFrame_self hp]
        refine ⟨t, g', ?_, hIt⟩
        rw [← hs]
        exact runs_waiting hne (Function.update_self i _ _) ht

section Leaf
variable {b : Option ℕ} {ev : List Event} {n w : ℕ} {value : ℤ → ℤ}
variable (hI : Inv T st s b g) (hb : ∀ k, b = some k → k = i) (hi : s.frames i = some a)
  (hw : .tmp2 ∉ a.live) (hup : Above s i h) (hst : ∀ z, T z = some (some i) → st i = true)
include hI hb hi hw hup hst

theorem inv_blocked (hrel : ∀ k, ev.count (.release k) = 0) :
    Inv T st ((s.setFrame i (.blocked (.leaf n value) x v w (some h))).notes ev) none g :=
  hI.set hi hw (by simp [Frame.blocked]) hb (fun k hk => (Option.some_ne_none k hk.symm).elim) hst
    hrel (.blocked n value x v w hup)

variable (v ev) in
theorem runs_done (hc : a.continuation = some h) (hrel : ∀ k, ev.count (.release k) = 0) :
    ∃ t g', Runs (body taskReady junk)
        (fun r => r (.resume (some h)) ((s.setFrame i (a.finish v)).notes ev)) t ∧
      Inv T st t none g' := by
  have hI' : Inv T st ((s.setFrame i (a.finish v)).notes ev) (some i) g :=
    hI.set hi hw (by simp [Frame.finish]) hb (fun k hk => (Option.some.inj hk).symm) hst hrel
      (.done a v fun _ => ⟨h, hc, hup⟩)
  exact runs_return junk hI' (Function.update_self i _ _) hc

end Leaf

/-- A coroutine that is entered runs until one waits for an event, or returns. -/
theorem runs_enter (hI : Inv T st s (some i) g) (hi : s.frames i = some (.fresh c x v (some h))) :
    ∃ t g', Runs (body taskReady junk) (fun r => r (.resume (some (.frame i))) s) t ∧
      Inv T st t none g' := by
  have hst := hI.started hi (by simp [Frame.fresh])
  have hup := ((hI i).form _ hi).above rfl (.inl rfl)
  have hb : ∀ k, some i = some k → k = i := fun k hk => (Option.some.inj hk).symm
  induction c generalizing s i g v h with
  | leaf n value =>
      have hs : (s.setFrame i (.fresh (.leaf n value) x v (some h))).notes [] = s := by
        rw [State.notes_nil, setFrame_self hi]
      have hw : .tmp2 ∉ (Frame.fresh (.leaf n value) x v (some h)).live := by simp [Frame.fresh]
      have hbody : ∀ r, body taskReady junk r (.resume (some (.frame i)))
          ((s.setFrame i (.fresh (.leaf n value) x v (some h))).notes []) = _ :=
        fun r => resume_leaf
      rw [hs] at hbody
      cases n with
      | zero =>
          obtain ⟨t, g', ht, hIt⟩ := runs_done junk (value x)
            [.resume (.frame i), .destroy i .tmp1, .construct i .tmp4] hI hb hi hw hup hst
            rfl (by simp)
          exact ⟨t, g', .call (.congr hbody ht), hIt⟩
      | succ n =>
          exact ⟨_, g, .call (.pure hbody), inv_blocked hI hb hi hw hup hst (by simp)⟩
  | g f ih =>
      have hs : (s.setFrame i (.fresh (.g f) x v (some h))).notes [] = s := by
        rw [State.notes_nil, setFrame_self hi]
      have hlt : i < s.allocs := hI.lt_allocs hi
      have hbody : ∀ r, body taskReady junk r (.resume (some (.frame i)))
          ((s.setFrame i (.fresh (.g f) x v (some h))).notes []) = _ :=
        fun r => resume_g rfl (by omega)
      rw [hs] at hbody
      have hI' := hI.enter (y := junk s.allocs) [.resume (.frame i), .destroy i .tmp1,
        .construct s.allocs .promise, .construct s.allocs .tmp1, .construct i .tmp2,
        .construct i .tmp3] hi (by simp)
      have hj := Function.update_self s.allocs
        (some (Frame.fresh f x (junk s.allocs) (some (.frame i))))
        (Function.update s.frames i (some (.waiting f x v s.allocs (some h))))
      obtain ⟨t, g', ht, hIt⟩ := ih hI' hj (hI'.started hj (by simp [Frame.fresh]))
        (((hI' _).form _ hj).above rfl (.inl rfl)) fun k hk => (Option.some.inj hk).symm
      exact ⟨t, g', .call (.congr hbody ht), hIt⟩

theorem runs_event (hI : Inv T st s none g) (hi : s.frames i = some a) (hw : .tmp2 ∉ a.live)
    (hp : a.suspendPoint = 1) :
    ∃ t g', Runs (body taskReady junk) (fun r => r (.resume (some (.frame i))) s) t ∧
      Inv T st t none g' := by
  have hup := fun h (hc : a.continuation = some h) => ((hI i).form _ hi).above hc (.inr hp)
  obtain ⟨n, value, x, v, w, h, rfl⟩ := ((hI i).form a hi).leaf hw hp
  have hb : ∀ k, none = some k → k = i := fun k hk => (Option.some_ne_none k hk.symm).elim
  have hst := hI.started hi (by simp [Frame.fresh, Frame.blocked])
  have hs : (s.setFrame i (.blocked (.leaf n value) x v w (some h))).notes [] = s := by
    rw [State.notes_nil, setFrame_self hi]
  have hbody : ∀ r, body taskReady junk r (.resume (some (.frame i)))
      ((s.setFrame i (.blocked (.leaf n value) x v w (some h))).notes []) = _ :=
    fun r => resume_blocked
  rw [hs] at hbody
  cases w with
  | zero =>
      obtain ⟨t, g', ht, hIt⟩ := runs_done junk (value x) [.resume (.frame i), .construct i .tmp4]
        hI hb hi hw (hup h rfl) hst rfl (by simp)
      exact ⟨t, g', .call (.congr hbody ht), hIt⟩
  | succ w =>
      exact ⟨_, g, .call (.pure hbody), inv_blocked hI hb hi hw (hup h rfl) hst (by simp)⟩

theorem Beneath.congr {s' : State} {l : List ℕ} (hl : Beneath s i l)
    (hs : ∀ k, k ∈ i :: l → s'.frames k = s.frames k) : Beneath s' i l := by
  induction l generalizing i with
  | nil =>
      obtain ⟨a, ha, hw⟩ := hl
      exact ⟨a, (hs i List.mem_cons_self).trans ha, hw⟩
  | cons j l ih =>
      obtain ⟨⟨a, ha, hw⟩, hrest⟩ := hl
      exact ⟨⟨a, (hs i List.mem_cons_self).trans ha, hw⟩,
        ih hrest fun k hk => hs k (List.mem_cons_of_mem i hk)⟩

theorem Beneath.lt {k : ℕ} {l : List ℕ} (hl : Beneath s i l)
    (hF : ∀ k a, s.frames k = some a → k ∈ i :: l → ∃ s' b, Form s' b k a) (hk : k ∈ l) :
    i < k := by
  induction l generalizing i with
  | nil => cases hk
  | cons j l ih =>
      obtain ⟨⟨a, ha, htmp, hj⟩, hrest⟩ := hl
      obtain ⟨_, _, hform⟩ := hF i a ha List.mem_cons_self
      obtain ⟨f, x, v, j', h, hlt, rfl⟩ := hform.holds htmp
      cases hj
      rcases List.mem_cons.mp hk with rfl | hk
      · exact hlt
      · exact Nat.lt_trans hlt
          (ih hrest (fun k a ha hk => hF k a ha (List.mem_cons_of_mem i hk)) hk)

theorem body_destroy {r : Meaning Call State} (hi : s.frames i = some a) :
    body taskReady junk r (.destroy i) s = destroyTemporaries r a i s >>= endFrame i :=
  destroyFrame_eq hi

/-- The temporaries of a frame are destroyed, and its promise is left. -/
def Tidies (s : State) (i : ℕ) (a : Frame) : Prop :=
  ∃ a' ev, .promise ∈ a'.live ∧ (∀ k, ev.count (.release k) = 0) ∧
    ∀ r, destroyTemporaries r a i (((s.hide i).setFrame i a).notes []) =
      .ok (((s.hide i).setFrame i a').notes ev)

theorem Form.rests {s' : State} {b : Option ℕ} (hf : Form s' b i a) (hw : .tmp2 ∉ a.live) :
    ∃ h, Rests h none a := by
  cases hf with
  | fresh c x v => exact ⟨none, .fresh c x v⟩
  | entered c x v _ _ => exact ⟨_, .fresh c x v⟩
  | blocked n value x v w _ => exact ⟨_, .blocked n value x v w⟩
  | waiting f x v _ _ => simp [Frame.waiting] at hw
  | done a v _ => exact ⟨_, .done a v rfl⟩

theorem Form.tidies {s' : State} {b : Option ℕ} (hf : Form s' b i a) (hw : .tmp2 ∉ a.live) :
    Tidies s i a := by
  obtain ⟨h, ha⟩ := hf.rests hw
  refine ⟨_, _, by simp, fun k => ?_, fun r => ha.destroyTemporaries_eq⟩
  apply List.count_eq_zero.mpr
  intro hk
  obtain ⟨o, -, ho⟩ := List.mem_map.mp hk
  cases ho

theorem destroy_last {s' : State} {b : Option ℕ} (hi : s.frames i = some a)
    (hf : Form s' b i a) (hw : .tmp2 ∉ a.live) :
    ∃ ev, (∀ r, body taskReady junk r (.destroy i) s = .ok ((s.hide i).notes ev)) ∧
      ∀ k, ev.count (.release k) = if k = i then 1 else 0 := by
  have hs : ((s.hide i).setFrame i a).notes [] = s := by rw [State.notes_nil, setFrame_hide hi]
  obtain ⟨a', ev, hp, hrel, ht⟩ : Tidies s i a := hf.tidies hw
  refine ⟨ev ++ [.destroy i .promise, .release i], fun r => ?_, fun k => ?_⟩
  · rw [hs] at ht
    rw [body_destroy junk hi, ht, Outcome.ok_bind]
    exact endFrame_eq hp
  · rw [List.count_append, hrel]
    by_cases hk : k = i
    · simp [hk]
    · simp [hk, Ne.symm hk]

/-- `destroy()` on a frame that holds a task is also that of the frame beneath. -/
theorem runs_destroy {l : List ℕ} (hl : Beneath s i l)
    (hF : ∀ k a, s.frames k = some a → k ∈ i :: l → ∃ s' b, Form s' b k a) :
    ∃ ev, Runs (body taskReady junk) (fun r => r (.destroy i) s)
        ((s.without (i :: l)).notes ev) ∧
      ∀ k, ev.count (.release k) = if k ∈ i :: l then 1 else 0 := by
  induction l generalizing s i with
  | nil =>
      obtain ⟨a, ha, hw⟩ := hl
      obtain ⟨_, _, hf⟩ := hF i a ha List.mem_cons_self
      obtain ⟨ev, hd, hrel⟩ := destroy_last junk ha hf hw
      rw [without_singleton]
      exact ⟨ev, .call (.pure hd), by simpa using hrel⟩
  | cons j l ih =>
      have hlt := fun k => hl.lt (k := k) hF
      obtain ⟨⟨a, ha, htmp, hj⟩, hrest⟩ := hl
      obtain ⟨_, _, hf⟩ := hF i a ha List.mem_cons_self
      obtain ⟨f, x, v, _, h, hij, rfl⟩ := hf.holds htmp
      cases hj
      have hnot : i ∉ j :: l := fun hk => Nat.lt_irrefl i (hlt i hk)
      obtain ⟨ev, hev, hrel⟩ := runs_destroy_waiting (B := body taskReady junk)
        (fun _ _ _ => rfl) ha hnot fun t ht => ih (hrest.congr ht)
          fun k a ha hk => hF k a (ht k hk ▸ ha) (List.mem_cons_of_mem i hk)
      refine ⟨_, hev, fun k => ?_⟩
      rw [List.count_append, List.count_cons_of_ne (by simp), hrel]
      by_cases hk : k = i
      · subst hk
        simp [hnot]
      · simp [hk, Ne.symm hk]

theorem Inv.beneath {b : Option ℕ} (hI : Inv T st s b g) (ha : s.frames i = some a) :
    ∃ l, Beneath s i l := by
  obtain ⟨n, hn⟩ : ∃ n, s.allocs ≤ i + n := ⟨s.allocs, Nat.le_add_left _ _⟩
  induction n generalizing i a with
  | zero =>
      have hlt := hI.lt_allocs ha
      omega
  | succ n ih =>
      by_cases hw : .tmp2 ∈ a.live
      · obtain ⟨f, x, v, j, h, hij, rfl⟩ := ((hI i).form a ha).holds hw
        have hj : s.frames j ≠ none := by
          intro hnone
          exact hI.not_refers (o := .tmp2 i) hnone ⟨_, ha, hw, rfl⟩
        obtain ⟨a', ha'⟩ := Option.ne_none_iff_exists'.mp hj
        obtain ⟨l, hl⟩ := ih ha' (by omega)
        exact ⟨j :: l, ⟨_, ha, hw, rfl⟩, hl⟩
      · exact ⟨[], a, ha, hw⟩

theorem Inv.runs_destroy {l : List ℕ} (hI : Inv T st s none g) (hl : Beneath s i l) :
    ∃ ev, Runs (body taskReady junk) (fun r => r (.destroy i) s)
        ((s.without (i :: l)).notes ev) ∧
      ∀ k, ev.count (.release k) = if k ∈ i :: l then 1 else 0 :=
  Coroutine.runs_destroy junk hl fun k a ha _ => ⟨s, none, (hI k).form a ha⟩

namespace World
variable [DecidableEq Var] {w w' : World Var} {x y : Var}

/-- Every frame is well. -/
def Good (w : World Var) : Prop := ∃ g, Inv w.task w.started w.state none g

omit [DecidableEq Var] in
theorem good_init : Good (init : World Var) := by
  refine ⟨fun _ => none, fun k => ?_⟩
  constructor
  case form => exact fun a ha => (Option.some_ne_none a ha.symm).elim
  case live => exact ⟨fun _ => rfl, fun _ => rfl⟩
  case owner =>
    intro o
    refine ⟨fun ho => (Option.some_ne_none o ho.symm).elim, fun ho => ?_⟩
    cases o with
    | var x => cases ho
    | tmp2 p =>
        obtain ⟨a, ha, -⟩ := ho
        cases ha
  case bound => exact fun _ => rfl
  case kept => exact fun _ => rfl
  case released => exact fun hk => (Nat.not_lt_zero k hk).elim
  case unstarted =>
    intro x a hx
    cases hx

omit [DecidableEq Var] in
theorem hdl_eq {h : Option ℕ} (hx : w.task x = some h) : w.hdl x = .ok h := by
  unfold hdl
  rw [hx]

theorem runs_call {c : Coro} {v : ℤ} (hw : w.Good) (hx : w.task x = none) :
    ∃ w', Runs (body taskReady junk) (fun r => w.perform junk r (.call x c v)) w' ∧ w'.Good := by
  obtain ⟨g, hI⟩ := hw
  have hramp : ∀ r, ramp taskReady junk r c v (w.state.notes []) = _ := fun r => ramp_eq
  rw [State.notes_nil] at hramp
  exact ⟨_, .bind (.pure hramp) (.pure fun _ => rfl), _, hI.call hx (by simp)⟩

theorem runs_moveConstruct (hw : w.Good) (hx : w.task x = none) (hy : w.task y ≠ none) :
    ∃ w', Runs (body taskReady junk) (fun r => w.perform junk r (.moveConstruct x y)) w' ∧
      w'.Good := by
  obtain ⟨g, hI⟩ := hw
  obtain ⟨h, hh⟩ := Option.ne_none_iff_exists'.mp hy
  have hne : x ≠ y := by
    rintro rfl
    exact hy hx
  have hbody : ∀ r, w.perform junk r (.moveConstruct x y) = _ :=
    fun r => (congrArg (· >>= _) (hdl_eq hh)).trans rfl
  exact ⟨_, .pure hbody, _, hI.move hh (by simp [hx]) hne⟩

/-- What `~task` and the assignment do to the frame a variable holds. -/
theorem runs_dropTask {h : Option ℕ} {v : Option (Option ℕ)} (hw : w.Good) (hx : w.task x = some h)
    (hv : ∀ k, v ≠ some (some k)) :
    ∃ s, Runs (body taskReady junk) (fun r => dropTask r h w.state) s ∧
      (∃ g, Inv (Function.update w.task x v) w.started s none g) ∧
      ∀ i, h = some i → ∃ l, Beneath w.state i l ∧
        ∀ k, s.frames k = if k ∈ i :: l then none else w.state.frames k := by
  obtain ⟨g, hI⟩ := hw
  cases h with
  | none =>
      refine ⟨w.state, .pure fun r => rfl, ⟨g, hI.forget (fun k hk => ?_) hv⟩, ?_⟩
      · cases hx.symm.trans hk
      · intro i hi
        cases hi
  | some i =>
      have hi : w.state.frames i ≠ none := fun hnone => hI.not_refers (o := .var x) hnone hx
      obtain ⟨a, ha⟩ := Option.ne_none_iff_exists'.mp hi
      obtain ⟨l, hl⟩ := hI.beneath ha
      obtain ⟨ev, hev, hrel⟩ := hI.runs_destroy junk hl
      refine ⟨_, hev, ⟨_, hI.drop hx hl hv hrel⟩, fun j hj => ?_⟩
      cases hj
      exact ⟨l, hl, fun k => rfl⟩

theorem runs_moveAssign (hw : w.Good) (hx : w.task x ≠ none) (hy : w.task y ≠ none) :
    ∃ w', Runs (body taskReady junk) (fun r => w.perform junk r (.moveAssign x y)) w' ∧
      w'.Good := by
  obtain ⟨h, hh⟩ := Option.ne_none_iff_exists'.mp hx
  obtain ⟨h', hh'⟩ := Option.ne_none_iff_exists'.mp hy
  by_cases hsame : h = h'
  · refine ⟨w, .pure fun r => ?_, hw⟩
    change (w.hdl x >>= fun h => w.hdl y >>= fun h' => _) = _
    rw [hdl_eq hh, Outcome.ok_bind, hdl_eq hh', Outcome.ok_bind, if_pos hsame]
  · have hne : y ≠ x := by
      rintro rfl
      exact hsame (Option.some.inj (hh.symm.trans hh'))
    obtain ⟨s, hs, ⟨g, hI⟩, -⟩ := runs_dropTask junk (v := some none) hw hh (by simp)
    have hI' := hI.move (z := x) ((Function.update_of_ne hne _ _).trans hh') (by simp) hne.symm
    rw [Function.update_comm hne.symm, Function.update_idem] at hI'
    have hbody : ∀ r, w.perform junk r (.moveAssign x y) = dropTask r h w.state >>= fun s =>
        .ok (({ w with state := s }.setTask y (some none)).setTask x (some h')) := by
      intro r
      change (w.hdl x >>= fun h => w.hdl y >>= fun h' => _) = _
      rw [hdl_eq hh, Outcome.ok_bind, hdl_eq hh', Outcome.ok_bind, if_neg hsame]
    exact ⟨_, .congr hbody (.bind hs (.pure fun _ => rfl)), _, hI'⟩

theorem runs_coAwait {i : ℕ} (hw : w.Good) (hx : w.task x = some (some i))
    (hst : w.started i = false) :
    ∃ w', Runs (body taskReady junk) (fun r => w.perform junk r (.coAwait x)) w' ∧ w'.Good := by
  obtain ⟨g, hI⟩ := hw
  have hi : w.state.frames i ≠ none := fun hnone => hI.not_refers (o := .var x) hnone hx
  obtain ⟨a, ha⟩ := Option.ne_none_iff_exists'.mp hi
  obtain ⟨c, y, v, rfl⟩ := (hI i).unstarted x a hx ha hst
  let s₀ : State := { w.state with callers := Function.update w.state.callers i true }
  let st' : ℕ → Bool := fun k => w.started k || decide (some i = some k)
  have hst' : ∀ k, w.started k = true → st' k = true := fun k hk => by simp [st', hk]
  have hI' := hI.await ha hst' (by simp [st'])
  obtain ⟨t, g', ht, hIt⟩ := runs_enter junk hI' (Function.update_self i _ _)
  have hbody : ∀ r, w.perform junk r (.coAwait x) = (r (.resume (some (.frame i)))
      (s₀.setFrame i (.fresh c y v (some (.caller i)))) >>= fun s => .ok { w with
        state := s, started := st' }) := by
    intro r
    have hs : (s₀.setFrame i (.fresh c y v none)).notes [] = s₀ := by
      rw [State.notes_nil, setFrame_self (s := s₀) ha]
    have he := execAwaitSuspend_eq (r := r) (s := s₀) (j := i) (l := []) (k := .caller i)
      (a := .fresh c y v none) (by simp [Frame.fresh])
    rw [hs, State.notes_nil] at he
    change (w.hdl x >>= fun h => _) = _
    rw [hdl_eq hx, Outcome.ok_bind]
    exact congrArg (· >>= _) he
  exact ⟨_, .congr hbody (.bind ht (.pure fun _ => rfl)), g', hIt⟩

theorem runs_event {i : ℕ} {a : Frame} (hw : w.Good) (ha : w.state.frames i = some a)
    (hp : a.suspendPoint = 1) (htmp : .tmp2 ∉ a.live) :
    ∃ w', Runs (body taskReady junk) (fun r => w.perform junk r (.event i)) w' ∧ w'.Good := by
  obtain ⟨g, hI⟩ := hw
  obtain ⟨t, g', ht, hIt⟩ := Coroutine.runs_event junk hI ha htmp hp
  exact ⟨_, .bind ht (.pure fun _ => rfl), g', hIt⟩

theorem runs_drop (hw : w.Good) (hx : w.task x ≠ none) :
    ∃ w', Runs (body taskReady junk) (fun r => w.perform junk r (.drop x)) w' ∧ w'.Good ∧
      ∀ i, w.task x = some (some i) → ∃ l, Beneath w.state i l ∧
        ∀ k, w'.state.frames k = if k ∈ i :: l then none else w.state.frames k := by
  obtain ⟨h, hh⟩ := Option.ne_none_iff_exists'.mp hx
  obtain ⟨s, hs, hI, hl⟩ := runs_dropTask junk (v := none) hw hh (by simp)
  have hbody : ∀ r, w.perform junk r (.drop x) = dropTask r h w.state >>= fun s =>
      .ok ({ w with state := s }.setTask x none) := by
    intro r
    change (w.hdl x >>= fun h => _) = _
    rw [hdl_eq hh, Outcome.ok_bind]
  have hg : ({ w with state := s }.setTask x none).Good := hI
  exact ⟨_, .congr hbody (.bind hs (.pure fun _ => rfl)), hg,
    fun i hi => hl i (Option.some.inj (hh.symm.trans hi))⟩

theorem runs_op {op : Op Var} (hw : w.Good) (hop : w.Allowed op) :
    ∃ w', Runs (body taskReady junk) (fun r => w.perform junk r op) w' ∧ w'.Good := by
  cases op with
  | call x c v => exact runs_call junk hw hop
  | moveConstruct x y => exact runs_moveConstruct junk hw hop.1 hop.2
  | moveAssign x y => exact runs_moveAssign junk hw hop.1 hop.2
  | coAwait x =>
      obtain ⟨i, hi, hst⟩ := hop
      exact runs_coAwait junk hw hi hst
  | event i =>
      obtain ⟨a, ha, -, hp, htmp⟩ := hop
      exact runs_event junk hw ha hp htmp
  | drop x =>
      obtain ⟨w', hr, hg, -⟩ := runs_drop junk hw hop
      exact ⟨w', hr, hg⟩

variable {junk} in
theorem good (hw : w.Reached junk) : w.Good := by
  induction hw with
  | init => exact good_init
  | @step w w' op _ hop hr ih =>
      obtain ⟨w₁, hr₁, hg⟩ := runs_op junk ih hop
      exact hr.unique hr₁ ▸ hg

/-- Every frame that is there is held by one live task, and every one that is
gone was released once. What the program may do ends without a fault, and the
end of a task releases its frame and all beneath it. -/
structure Owned (junk : ℕ → ℤ) (w : World Var) : Prop where
  owner : ∀ i, w.state.frames i ≠ none → ∃! o, Refers w.task w.state o i
  refers : ∀ o i, Refers w.task w.state o i → w.state.frames i ≠ none
  released : ∀ i, w.state.log.count (.release i) =
    if i < w.state.allocs ∧ w.state.frames i = none then 1 else 0
  runs : ∀ op, w.Allowed op → ∃ w', Runs (body taskReady junk) (fun r => w.perform junk r op) w'
  drop : ∀ x i, w.task x = some (some i) → ∃ l, Beneath w.state i l ∧
    ∃ w', Runs (body taskReady junk) (fun r => w.perform junk r (.drop x)) w' ∧
      ∀ k, w'.state.frames k = if k ∈ i :: l then none else w.state.frames k
  last : (∀ x, w.task x = none) → ∀ i, w.state.frames i = none

variable {junk} in
theorem tasks_own (hw : w.Reached junk) : Owned junk w := by
  have hw := good hw
  obtain ⟨g, hI⟩ := id hw
  constructor
  case owner =>
    intro i hi
    obtain ⟨o, ho⟩ := Option.ne_none_iff_exists'.mp fun hnone => hi ((hI i).live.mp hnone)
    refine ⟨o, ((hI i).owner o).mp ho, fun o' ho' => ?_⟩
    exact Option.some.inj ((((hI i).owner o').mpr ho').symm.trans ho)
  case refers => exact fun o i ho hnone => hI.not_refers hnone ho
  case released =>
    intro i
    by_cases hi : i < w.state.allocs ∧ w.state.frames i = none
    · rw [if_pos hi]
      exact (hI i).released hi.1 hi.2
    · rw [if_neg hi]
      apply (hI i).kept
      by_cases hlt : i < w.state.allocs
      · exact .inl fun hnone => hi ⟨hlt, hnone⟩
      · exact .inr (Nat.not_lt.mp hlt)
  case runs =>
    intro op hop
    obtain ⟨w', hr, -⟩ := runs_op junk hw hop
    exact ⟨w', hr⟩
  case drop =>
    intro x i hx
    obtain ⟨w', hr, -, hl⟩ := runs_drop junk hw (x := x) (by simp [hx])
    obtain ⟨l, hl, hk⟩ := hl i hx
    exact ⟨l, hl, w', hr, hk⟩
  case last =>
    intro hnone i
    induction i using Nat.strongRecOn with
    | ind i ih =>
      by_contra hi
      obtain ⟨o, ho⟩ := Option.ne_none_iff_exists'.mp fun hg => hi ((hI i).live.mp hg)
      have hrefers := ((hI i).owner o).mp ho
      cases o with
      | var x => cases (hnone x).symm.trans hrefers
      | tmp2 k =>
          obtain ⟨a, ha, htmp, he⟩ := hrefers
          obtain ⟨f, x, v, j, h, hlt, rfl⟩ := ((hI k).form a ha).holds htmp
          cases he
          cases (ih k hlt).symm.trans ha

section Example

/-- A task is started whose coroutine awaits another, which waits for an event, and
then it is dropped. -/
theorem tasks_own_sample : ∃ w w' : World Unit, w.Reached (fun _ => 0) ∧
    w.state.frames 0 ≠ none ∧ w.state.frames 1 ≠ none ∧ Owned (fun _ => 0) w ∧
    Runs (body taskReady fun _ => 0) (fun r => w.perform (fun _ => 0) r (.drop ())) w' ∧
    w'.state.frames 0 = none ∧ w'.state.frames 1 = none ∧ Owned (fun _ => 0) w' := by
  have hfirst : (init : World Unit).Allowed (.call () (.g (.leaf 1 id)) 5) := rfl
  have hcall : ∃ w : World Unit, w.Reached (fun _ => 0) ∧ w.Allowed (.coAwait ()) ∧
      ∃ w₁ : World Unit, Runs (body taskReady fun _ => 0)
        (fun r => w.perform (fun _ => 0) r (.coAwait ())) w₁ ∧
      w₁.task () = some (some 0) ∧ (w₁.state.frames 0).isSome ∧ (w₁.state.frames 1).isSome ∧
      ∃ w₂ : World Unit, Runs (body taskReady fun _ => 0)
        (fun r => w₁.perform (fun _ => 0) r (.drop ())) w₂ ∧
      w₂.state.frames 0 = none ∧ w₂.state.frames 1 = none :=
    ⟨_, .step .init hfirst (.pure fun r => rfl), ⟨0, rfl, rfl⟩, _, .of_depth 5 fun n => rfl, rfl,
      rfl, rfl, _, .of_depth 5 fun n => rfl, rfl, rfl⟩
  obtain ⟨w, hw, hawait, w₁, h₁, htask, hf₀, hf₁, w₂, h₂, hg₀, hg₁⟩ := hcall
  have hw₁ := hw.step hawait h₁
  have hdrop : w₁.Allowed (.drop ()) := by
    change w₁.task () ≠ none
    rw [htask]
    exact Option.some_ne_none _
  exact ⟨w₁, w₂, hw₁, Option.isSome_iff_ne_none.mp hf₀, Option.isSome_iff_ne_none.mp hf₁,
    tasks_own hw₁, h₂, hg₀, hg₁, tasks_own (hw₁.step hdrop h₂)⟩

end Example
end World
end CsNotes.Coroutine
