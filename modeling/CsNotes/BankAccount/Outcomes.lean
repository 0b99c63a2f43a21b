import CsNotes.BankAccount.Model

/-!
# What the account comes to

A thread decides on the balance that it has read, and then `withdraw` decides
again. So the balance never becomes negative, but it depends on the schedule how
many withdrawals there are, and a thread prints that it was successful also where
`withdraw` has refused.
-/
namespace CsNotes.BankAccount
open Interleaving Monitor

variable {Tid : Type*} {b₀ b : ℚ} {h : List (Tid × Method × Answer)}

/-- A balance which is not negative, and so small that 500 is subtracted exactly. -/
structure Exact (b : ℚ) : Prop where
  represented : Double.Represented b
  nonneg : 0 ≤ b
  le : b ≤ 2 ^ 53

theorem Exact.sub (hb : Exact b) (hge : b ≥ 500) : Exact (b - 500) := by
  have hsmall : |b| < 2 ^ (2 + 53) := by
    rw [abs_of_nonneg hb.nonneg]
    exact hb.le.trans_lt (pow_lt_pow_right₀ one_lt_two (by decide))
  obtain ⟨m, hm⟩ := Double.exists_mul_ulp 125 hsmall
  refine ⟨hb.represented.sub (n := m) (by norm_num) hge ?_, sub_nonneg.mpr hge, ?_⟩
  · rw [← hm]
    norm_num
  · have := hb.le
    linarith

theorem Exact.round (hb : Exact b) (hge : b ≥ 500) : Double.round (b - 500) = b - 500 :=
  Double.round_eq (hb.sub hge).represented

theorem exact_thousand : Exact 1000 :=
  ⟨by exact_mod_cast Double.represented_intCast (n := 1000) (by decide), by norm_num, by norm_num⟩

/-- Calls of `withdraw`, whether they were refused or not. -/
def Method.withdraws : Method → Bool
  | getBalance => false
  | withdraw _ => true

def attempts (h : List (Tid × Method × Answer)) : ℕ := h.countP fun x => x.2.1.withdraws

/-- `w` of the calls of `withdraw` were not refused. -/
structure Tally (b₀ : ℚ) (h : List (Tid × Method × Answer)) (b : ℚ) (w : ℕ) : Prop where
  le : w ≤ attempts h
  balance : b = b₀ - 500 * w
  exact : Exact b
  refused : w < attempts h → b < 500
  read : ∀ x ∈ h, x.2.1 = .getBalance → ∃ y, x.2.2 = .balance y ∧ b ≤ y ∧ y ≤ b₀

theorem exists_tally (h₀ : Exact b₀) (hrun : Sequential (Atomic Method.apply) b₀ h b)
    (hm : ∀ x ∈ h, x.2.1 = .getBalance ∨ x.2.1 = .withdraw 500) : ∃ w, Tally b₀ h b w := by
  induction hrun with
  | nil => exact ⟨0, by simp [attempts], by simp, h₀, by simp [attempts], by simp⟩
  | @snoc h t m r b b' _ hspec ih =>
      obtain ⟨w, hw⟩ := ih fun x hx => hm x (List.mem_append_left _ hx)
      rcases hm _ (List.mem_append_right h (List.mem_singleton_self _)) with hm | hm
      · cases hm
        cases hspec
        have hsame : attempts (h ++ [(t, .getBalance, .balance b)]) = attempts h := by
          simp [attempts, Method.withdraws]
        have hle : b ≤ b₀ := by
          rw [hw.balance]
          exact sub_le_self b₀ (by positivity)
        refine ⟨w, hsame ▸ hw.le, hw.balance, hw.exact, hsame ▸ hw.refused, fun x hx hg => ?_⟩
        rcases List.mem_append.mp hx with hx | hx
        · exact hw.read x hx hg
        · rw [List.mem_singleton.mp hx]
          exact ⟨b, rfl, le_rfl, hle⟩
      · cases hm
        obtain ⟨rfl, rfl⟩ := Prod.mk.inj hspec
        have hmore : attempts (h ++ [(t, .withdraw 500, .done)]) = attempts h + 1 := by
          simp [attempts, Method.withdraws]
        have hread : ∀ d : ℚ, d ≤ b → ∀ x ∈ h ++ [(t, .withdraw 500, .done)],
            x.2.1 = .getBalance → ∃ y, x.2.2 = .balance y ∧ d ≤ y ∧ y ≤ b₀ := by
          intro d hd x hx hg
          rcases List.mem_append.mp hx with hx | hx
          · obtain ⟨y, hy, hle, hle'⟩ := hw.read x hx hg
            exact ⟨y, hy, hd.trans hle, hle'⟩
          · rw [List.mem_singleton.mp hx] at hg
            cases hg
        have hbalance := hw.balance
        have hle := hw.le
        by_cases hge : b ≥ 500
        · have hall : w = attempts h := by
            by_contra hne
            exact absurd hge (not_le.mpr (hw.refused (by omega)))
          have hrest : b - 500 = b₀ - 500 * (w + 1 : ℕ) := by
            push_cast
            linarith
          rw [if_pos hge, hw.exact.round hge]
          exact ⟨w + 1, by omega, hrest, hw.exact.sub hge, fun h => by omega,
            hread _ (by linarith)⟩
        · rw [if_neg hge]
          exact ⟨w, by omega, hbalance, hw.exact, fun _ => not_le.mp hge, hread _ le_rfl⟩

theorem plays_cases {l : List (Method × Answer)} (hl : Plays performTransactions l) :
    l = [] ∨ (∃ r, l = [(.getBalance, r)]) ∨
      ∃ b r, 500 < b ∧ l = [(.getBalance, .balance b), (.withdraw 500, r)] := by
  induction hl with
  | nil => exact .inl rfl
  | @snoc l m r _ hm ih =>
      rcases ih with rfl | ⟨r', rfl⟩ | ⟨b, r', -, rfl⟩
      · cases hm
        exact .inr (.inl ⟨r, rfl⟩)
      · cases r' with
        | done => cases hm
        | balance b =>
            simp only [performTransactions] at hm
            split at hm <;> cases hm
            rename_i hb
            exact .inr (.inr ⟨b, r, hb, rfl⟩)
      · cases hm

/-- A thread which has returned has printed its message, or has read a small balance. -/
theorem returned_cases {l : List (Method × Answer)} (hl : Plays performTransactions l)
    (hnext : performTransactions l = none) :
    (∃ r, l = [(.getBalance, r)] ∧ ∀ y, r = .balance y → y ≤ 500) ∨
      ∃ b r, 500 < b ∧ l = [(.getBalance, .balance b), (.withdraw 500, r)] := by
  rcases plays_cases hl with rfl | ⟨r, rfl⟩ | ⟨b, r, hb, rfl⟩
  · cases hnext
  · refine .inl ⟨r, rfl, fun y hy => ?_⟩
    subst hy
    simp only [performTransactions] at hnext
    split at hnext
    · cases hnext
    · rename_i hy
      exact not_lt.mp hy
  · exact .inr ⟨b, r, hb, rfl⟩

variable [DecidableEq Tid] {c : State Tid}

abbrev Runs (b₀ : ℚ) : State Tid → Prop :=
  ReachIf (exec body) (Client performTransactions) (· = start b₀)

theorem exists_tally_of_finished (h₀ : Exact b₀) (hc : Runs b₀ c) (hfin : Finished c) :
    ∃ w, Tally b₀ c.shared.history c.shared.data w ∧
      ∀ t, answers t c.shared.history = c.shared.returned t := by
  obtain ⟨b, hrun, hdata, hanswers⟩ := linearizable annotated.meets hc
  have hall : ∀ t, answers t c.shared.history = c.shared.returned t := by
    intro t
    rw [hanswers t, (hfin t).1]
    exact List.append_nil _
  have hmutex : c.shared.mutex = none := by
    obtain ⟨_, -, hL⟩ := (outline annotated.meets b₀ (Client performTransactions)).holds hc
    by_contra hne
    obtain ⟨t, ht⟩ := Option.ne_none_iff_exists'.mp hne
    have hholds := (hL t).mutex.mp ht
    rw [(hfin t).1] at hholds
    exact hholds
  obtain ⟨w, hw⟩ := exists_tally h₀ hrun fun x hx => by
    have hmem := mem_answers hx
    rw [hall] at hmem
    rcases plays_cases (Client.plays hc x.1).1 with hl | ⟨r, hl⟩ | ⟨b, r, -, hl⟩
    · rw [hl] at hmem
      cases hmem
    · rw [hl] at hmem
      exact .inl (congrArg Prod.fst (List.mem_singleton.mp hmem))
    · rw [hl] at hmem
      rcases List.mem_pair.mp hmem with hx | hx
      · exact .inl (congrArg Prod.fst hx)
      · exact .inr (congrArg Prod.fst hx)
  rw [← hdata hmutex] at hw
  exact ⟨w, hw, hall⟩

/-- A thread prints its message once it has called `withdraw`. -/
theorem attempts_eq_messages [Fintype Tid] (hc : Runs b₀ c) (hfin : Finished c)
    (hall : ∀ t, answers t c.shared.history = c.shared.returned t) :
    attempts c.shared.history = messages c := by
  have hone : ∀ t, (answers t c.shared.history).countP (fun x => x.1.withdraws) =
      if Printed c t then 1 else 0 := by
    intro t
    rw [hall]
    rcases returned_cases (Client.plays hc t).1 (hfin t).2 with ⟨r, hl, -⟩ | ⟨b, r, -, hl⟩
    · simp [Printed, hl, Method.withdraws]
    · simp [Printed, hl, Method.withdraws]
  refine (countP_eq_sum (fun x : Method × Answer => x.1.withdraws) _).trans ?_
  rw [Finset.sum_congr rfl fun t _ => hone t]
  exact (Finset.card_filter _ _).symm

/-- A thread which has printed nothing has read a small balance. -/
theorem le_of_not_printed {w : ℕ} {t : Tid} (hc : Runs b₀ c) (hfin : Finished c)
    (hw : Tally b₀ c.shared.history c.shared.data w)
    (hall : ∀ t, answers t c.shared.history = c.shared.returned t) (ht : ¬ Printed c t) :
    c.shared.data ≤ 500 := by
  rcases returned_cases (Client.plays hc t).1 (hfin t).2 with ⟨r, hl, hsmall⟩ | ⟨b, r, -, hl⟩
  · have hmem : (Method.getBalance, r) ∈ answers t c.shared.history := by
      rw [hall, hl]
      exact List.mem_singleton_self _
    obtain ⟨x, hx, hxr⟩ := List.mem_map.mp hmem
    obtain ⟨y, hy, hle, -⟩ := hw.read x (List.mem_filter.mp hx).1 (congrArg Prod.fst hxr)
    exact hle.trans (hsmall y ((congrArg Prod.snd hxr).symm.trans hy))
  · exact (ht (by simp [Printed, hl])).elim

/-- How a run ends: the balance is not negative, threads go on withdrawing while it is more
than 500, and a message is false only where the balance has become too small. -/
theorem outcome [Fintype Tid] (h₀ : Exact b₀) (hc : Runs b₀ c) (hfin : Finished c) :
    ∃ w, w ≤ messages c ∧ c.shared.data = b₀ - 500 * w ∧ 0 ≤ c.shared.data ∧
      (c.shared.data ≤ 500 ∨ w = Fintype.card Tid) ∧ (w = messages c ∨ c.shared.data < 500) := by
  obtain ⟨w, hw, hall⟩ := exists_tally_of_finished h₀ hc hfin
  have hcount := attempts_eq_messages hc hfin hall
  have hle := hw.le
  rw [hcount] at hle
  have hrefused : w = messages c ∨ c.shared.data < 500 := by
    rcases hle.eq_or_lt with heq | hlt
    · exact .inl heq
    · exact .inr (hw.refused (hcount ▸ hlt))
  refine ⟨w, hle, hw.balance, hw.exact.nonneg, ?_, hrefused⟩
  by_cases hprinted : ∀ t, Printed c t
  · have hcard : messages c = Fintype.card Tid := by
      unfold messages
      rw [Finset.filter_true_of_mem fun t _ => hprinted t]
      rfl
    rcases hrefused with heq | hlt
    · exact .inr (heq.trans hcard)
    · exact .inl hlt.le
  · obtain ⟨t, ht⟩ := not_forall.mp hprinted
    exact .inl (le_of_not_printed hc hfin hw hall ht)

theorem exists_getBalance {t : Tid} (hc : Runs b₀ c) (hrest : Rested c)
    (ht : c.shared.returned t = []) : ∃ e, Runs b₀ e ∧ Rested e ∧ e.shared.data = c.shared.data ∧
      e.shared.returned = Function.update c.shared.returned t
        [(.getBalance, .balance c.shared.data)] := by
  obtain ⟨e, he, hrest, hdata, hr⟩ := exists_call (t := t) hc hrest (congrArg _ ht) .entry rfl
  rw [ht, List.nil_append] at hr
  exact ⟨e, he, hrest, hdata, hr⟩

theorem exists_withdraw {t : Tid} {y : ℚ} (hc : Runs b₀ c) (hrest : Rested c) (hy : 500 < y)
    (ht : c.shared.returned t = [(.getBalance, .balance y)]) :
    ∃ e, Runs b₀ e ∧ Rested e ∧
      e.shared.data =
        (if c.shared.data ≥ 500 then Double.round (c.shared.data - 500) else c.shared.data) ∧
      e.shared.returned = Function.update c.shared.returned t
        [(.getBalance, .balance y), (.withdraw 500, .done)] := by
  have hnext : performTransactions (c.shared.returned t) = some (.withdraw 500) := by
    rw [ht]
    exact if_pos hy
  by_cases hge : c.shared.data ≥ 500
  · have hleads : Leads body (.withdraw 500) c.shared.data (.subtract 500) c.shared.data :=
      .step .entry (congrArg (fun x => Outcome.ok (c.shared.data, x)) (if_pos hge))
    obtain ⟨e, he, hrest, hdata, hr⟩ := exists_call hc hrest hnext hleads rfl
    rw [ht] at hr
    rw [if_pos hge]
    exact ⟨e, he, hrest, hdata, hr⟩
  · obtain ⟨e, he, hrest, hdata, hr⟩ := exists_call hc hrest hnext .entry
      (congrArg (fun x => Outcome.ok (c.shared.data, x)) (if_neg hge))
    rw [ht] at hr
    rw [if_neg hge]
    exact ⟨e, he, hrest, hdata, hr⟩

/-- All of these threads may read the balance before anybody withdraws. -/
theorem exists_all_read (b₀ : ℚ) (ts : Finset Tid) : ∃ c : State Tid, Runs b₀ c ∧ Rested c ∧
    c.shared.data = b₀ ∧ ∀ t, c.shared.returned t =
      if t ∈ ts then [(.getBalance, .balance b₀)] else [] := by
  induction ts using Finset.induction_on with
  | empty => exact ⟨start b₀, .start rfl, ⟨fun _ => rfl, rfl⟩, rfl, fun _ => rfl⟩
  | @insert t ts ht ih =>
      obtain ⟨c, hc, hrest, hdata, hr⟩ := ih
      obtain ⟨e, he, hrest, hdata', hr'⟩ := exists_getBalance hc hrest ((hr t).trans (if_neg ht))
      refine ⟨e, he, hrest, hdata'.trans hdata, fun u => ?_⟩
      rw [hr', hdata]
      by_cases hut : u = t
      · subst hut
        simp
      · simp [hut, hr]

theorem exists_all_printed [Fintype Tid] (hb : 500 < b₀) :
    ∃ c : State Tid, Runs b₀ c ∧ Finished c ∧ ∀ t, Printed c t := by
  have hsome : ∀ ts : Finset Tid, ∃ c : State Tid, Runs b₀ c ∧ Rested c ∧
      ∀ t, c.shared.returned t =
        if t ∈ ts then [(.getBalance, .balance b₀), (.withdraw 500, .done)]
        else [(.getBalance, .balance b₀)] := by
    intro ts
    induction ts using Finset.induction_on with
    | empty =>
        obtain ⟨c, hc, hrest, -, hr⟩ := exists_all_read b₀ (Finset.univ : Finset Tid)
        exact ⟨c, hc, hrest, fun t => (hr t).trans (if_pos (Finset.mem_univ t))⟩
    | @insert t ts ht ih =>
        obtain ⟨c, hc, hrest, hr⟩ := ih
        obtain ⟨e, he, hrest, -, hr'⟩ :=
          exists_withdraw hc hrest hb ((hr t).trans (if_neg ht))
        refine ⟨e, he, hrest, fun u => ?_⟩
        rw [hr']
        by_cases hut : u = t
        · subst hut
          simp
        · simp [hut, hr]
  obtain ⟨c, hc, hrest, hr⟩ := hsome Finset.univ
  have hall : ∀ t, c.shared.returned t =
      [(.getBalance, .balance b₀), (.withdraw 500, .done)] :=
    fun t => (hr t).trans (if_pos (Finset.mem_univ t))
  refine ⟨c, hc, fun t => ⟨hrest.idle t, ?_⟩, fun t => ?_⟩
  · rw [hall]
    rfl
  · simp [Printed, hall]

/-- Every message is true in every run exactly if the account has enough for all threads, or
too little for any. -/
theorem bank_account_messages_true_iff [Fintype Tid] (hrep : Double.Represented b₀)
    (hnonneg : 0 ≤ b₀) (hle : b₀ ≤ 2 ^ 53) :
    (∀ c : State Tid, Runs b₀ c → Finished c → c.shared.data = b₀ - 500 * messages c) ↔
      b₀ ≤ 500 ∨ 500 * (Fintype.card Tid : ℚ) ≤ b₀ := by
  have h₀ : Exact b₀ := ⟨hrep, hnonneg, hle⟩
  constructor
  · intro h
    by_contra hno
    obtain ⟨hb, hcard⟩ := not_or.mp hno
    obtain ⟨c, hc, hfin, hall⟩ : ∃ c : State Tid, Runs b₀ c ∧ Finished c ∧ ∀ t, Printed c t :=
      exists_all_printed (not_le.mp hb)
    have hmessages : messages c = Fintype.card Tid := by
      unfold messages
      rw [Finset.filter_true_of_mem fun t _ => hall t]
      rfl
    obtain ⟨w, -, -, hnonneg, -⟩ := outcome h₀ hc hfin
    have heq := h c hc hfin
    rw [hmessages] at heq
    linarith [not_le.mp hcard]
  · intro h c hc hfin
    obtain ⟨w, hle, heq, hnonneg, -, htrue⟩ := outcome h₀ hc hfin
    have hcard : messages c ≤ Fintype.card Tid := Finset.card_le_univ _
    rcases htrue with hw | hlt
    · rw [heq, hw]
    · rcases h with h | h
      · obtain ⟨w', hw', hall⟩ := exists_tally_of_finished h₀ hc hfin
        have hnone : ∀ t, ¬ Printed c t := by
          intro t ht
          rcases returned_cases (Client.plays hc t).1 (hfin t).2 with
            ⟨r, hl, -⟩ | ⟨y, r, hy, hl⟩
          · simp [Printed, hl] at ht
          · have hmem : (Method.getBalance, Answer.balance y) ∈
                answers t c.shared.history := by
              rw [hall, hl]
              exact List.mem_cons_self
            obtain ⟨x, hx, hxr⟩ := List.mem_map.mp hmem
            obtain ⟨z, hz, -, hle⟩ := hw'.read x (List.mem_filter.mp hx).1 (congrArg Prod.fst hxr)
            have hzy : Answer.balance y = Answer.balance z :=
              (congrArg Prod.snd hxr).symm.trans hz
            cases hzy
            linarith
        have hzero : messages c = 0 :=
          Finset.card_eq_zero.mpr (Finset.filter_false_of_mem fun t _ => hnone t)
        have hw : w = 0 := Nat.le_zero.mp (hzero ▸ hle)
        rw [heq, hzero, hw]
      · have hw : w = messages c := by
          by_contra hne
          have hcount : ((w + 1 : ℕ) : ℚ) ≤ Fintype.card Tid :=
            Nat.cast_le.mpr (by omega)
          push_cast at hcount
          linarith
        rw [heq, hw]

/-- With the balance and the threads of `main`. -/
theorem bank_account_messages_true_iff_main :
    (∀ c : State Bool, Runs 1000 c → Finished c → c.shared.data = 1000 - 500 * messages c) ↔
      (1000 : ℚ) ≤ 500 ∨ 500 * (Fintype.card Bool : ℚ) ≤ 1000 :=
  bank_account_messages_true_iff exact_thousand.represented (by norm_num) (by norm_num)

/-- `main` prints one message and a remaining balance of 500, or two and 0, as the schedule
has it. -/
theorem bank_account_main :
    (∀ c : State Bool, Runs 1000 c → Finished c →
      c.shared.data = 500 ∧ messages c = 1 ∨ c.shared.data = 0 ∧ messages c = 2) ∧
    (∃ c : State Bool, Runs 1000 c ∧ Finished c ∧ c.shared.data = 500) ∧
      ∃ c : State Bool, Runs 1000 c ∧ Finished c ∧ c.shared.data = 0 := by
  have hall : ∀ c : State Bool, Runs 1000 c → Finished c →
      c.shared.data = 500 ∧ messages c = 1 ∨ c.shared.data = 0 ∧ messages c = 2 := by
    intro c hc hfin
    obtain ⟨w, hle, heq, -, hdown, htrue⟩ := outcome exact_thousand hc hfin
    have hcard : messages c ≤ 2 := Finset.card_le_univ _
    have htwo : Fintype.card Bool = 2 := rfl
    have hw : w = 0 ∨ w = 1 ∨ w = 2 := by omega
    rcases hw with rfl | rfl | rfl
    · norm_num [heq, htwo] at hdown
    · norm_num [heq] at htrue ⊢
      exact htrue.symm
    · norm_num [heq]
      omega
  refine ⟨hall, ?_, ?_⟩
  · have hstart : Runs 1000 (start 1000 : State Bool) := .start rfl
    obtain ⟨c₁, h₁, hrest, hdata, hr⟩ :=
      exists_getBalance (t := true) hstart ⟨fun _ => rfl, rfl⟩ rfl
    obtain ⟨c₂, h₂, hrest, hdata₂, hr₂⟩ := exists_withdraw (t := true) h₁ hrest (by decide)
      (hr ▸ Function.update_self ..)
    have hfalse : c₂.shared.returned false = [] := by
      rw [hr₂, hr]
      rfl
    obtain ⟨c₃, h₃, hrest, hdata₃, hr₃⟩ := exists_getBalance h₂ hrest hfalse
    have hfive : c₂.shared.data = 500 := by
      rw [hdata₂, hdata]
      exact (if_pos (by norm_num [start])).trans
        ((exact_thousand.round (by norm_num)).trans (by norm_num))
    refine ⟨c₃, h₃, fun t => ⟨hrest.idle t, ?_⟩, hdata₃.trans hfive⟩
    rw [hr₃, hfive, hr₂, hr]
    cases t <;> rfl
  · obtain ⟨c, hc, hfin, hprinted⟩ : ∃ c : State Bool, Runs 1000 c ∧ Finished c ∧
        ∀ t, Printed c t := exists_all_printed (by norm_num)
    have htwo : messages c = 2 := by
      unfold messages
      rw [Finset.filter_true_of_mem fun t _ => hprinted t]
      rfl
    refine ⟨c, hc, hfin, ?_⟩
    rcases hall c hc hfin with h | h
    · omega
    · exact h.1

end CsNotes.BankAccount
