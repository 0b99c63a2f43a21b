import CsNotes.ThreadPool.Pools

/-!
# Which calls stay within the local queues

The index of a thread is the size of the pool it constructed last, whatever pool
it calls. `submit` sends a thread whose index is the size of the pool to the
global queue, and all others to a local queue. `runPendingTask` makes no such
distinction. So a call is in range depending on the history of constructions
only, and stealing is in range once the call is.
-/
namespace CsNotes.ThreadPool.Pools
open Interleaving

variable {s s' : Shared} {t u : Thread} {o : Call} {pc : PC} {g g' : ℕ → Thread} {p : ℕ}
variable {c : Config Thread Shared PC} {B : Type*}

/-- The index which a thread has from the sizes of the pools it constructed: the
last of them, or else its own number as a worker. -/
def Thread.seat : Thread → List ℕ → ℕ
  | program _, sizes => sizes.getLastD 0
  | worker _ k, sizes => sizes.getLastD k

/-- The number of workers of the pool the thread constructed last, or else its
number as a worker, is not too large for the pool it calls. -/
def Fits (c : Config Thread Shared PC) (t : Thread) (o : Call) : Prop :=
  match c.pc t with
  | .run _ =>
      match o with
      | .submit p => ∀ pool, c.shared.pools[p]? = some pool → pool.constructed →
          t.seat (c.shared.constructions t) ≤ pool.localQueues.length
      | .runPendingTask p => ∀ pool, c.shared.pools[p]? = some pool → pool.constructed →
          t.seat (c.shared.constructions t) < pool.localQueues.length
      | _ => True
  | .stopRequested =>
      match t with
      | .worker p _ => ∀ pool, c.shared.pools[p]? = some pool →
          t.seat (c.shared.constructions t) < pool.localQueues.length
      | .program _ => True
  | _ => True

/-- No thread is about to use a subscript out of range, or computes a bound that
wraps. -/
structure InRange (c : Config Thread Shared PC) : Prop where
  subscript : ∀ t o, c.advance exec t o ≠ .fault
  bound : ∀ t p st pool, c.pc t = .countQueues p st → c.shared.pools[p]? = some pool →
    stealBound pool.localQueues.length + 1 = pool.localQueues.length

/-- What the subscripts depend on in a pool. -/
structure Shape where
  threads : ℕ
  size : ℕ
  constructed : Bool

def Pool.shape (pool : Pool) : Shape := ⟨pool.threads, pool.localQueues.length, pool.constructed⟩

def Shared.shapes (s : Shared) : List Shape := s.pools.map Pool.shape

/-- Started, with the index that its history gives it. -/
def Shared.Seated (s : Shared) (t : Thread) : Prop := s.index t = t.seat (s.constructions t)

structure Global (s : Shared) (_ : ℕ → Thread) : Prop where
  size : ∀ (p : ℕ) (sh : Shape), s.shapes[p]? = some sh → sh.size < 2 ^ 32
  threads : ∀ (p : ℕ) (sh : Shape), s.shapes[p]? = some sh → sh.constructed → sh.threads = sh.size

/-- `g` are the threads which construct, or constructed, the pools. -/
def Local (s : Shared) (g : ℕ → Thread) (t : Thread) : PC → Prop
  | .start => s.constructions t = []
  | .stopRequested | .yield _ | .run _ => s.Seated t
  | .popLocal p _ => s.Seated t ∧ ∃ sh, s.shapes[p]? = some sh ∧ s.index t < sh.size
  | .popGlobal p _ | .countQueues p _ => s.Seated t ∧ ∃ sh, s.shapes[p]? = some sh ∧ 0 < sh.size
  | .steal p _ i n => s.Seated t ∧ i < n ∧ ∃ sh, s.shapes[p]? = some sh ∧ n + 1 = sh.size
  | .submit p _ _ => s.Seated t ∧ ∃ sh, s.shapes[p]? = some sh ∧ sh.constructed ∧
      s.index t ≤ sh.size
  | .construct p _ i n => s.Seated t ∧ g p = t ∧ i ≤ n ∧ s.shapes[p]? = some ⟨i, n, false⟩

theorem stealBound_add_one {n : ℕ} (h : 0 < n) (hn : n < 2 ^ 32) : stealBound n + 1 = n := by
  unfold stealBound
  omega

theorem shapes_eq_some {pool : Pool} (h : s.pools[p]? = some pool) :
    s.shapes[p]? = some pool.shape := by
  unfold Shared.shapes
  rw [List.getElem?_map, h]
  rfl

theorem shapes_length : s.shapes.length = s.pools.length := List.length_map _

theorem shapes_setPool (p : ℕ) (pool : Pool) :
    (s.setPool p pool).shapes = s.shapes.set p pool.shape := List.map_set

theorem shapes_setPool_self {pool pool' : Pool} (h : s.pools[p]? = some pool)
    (hs : pool'.shape = pool.shape) : (s.setPool p pool').shapes = s.shapes := by
  obtain ⟨hp, he⟩ := List.getElem?_eq_some_iff.mp (shapes_eq_some h)
  rw [shapes_setPool, hs, ← he, List.set_getElem_self]

theorem shape_setLocalQueue (pool : Pool) (i : ℕ) (q : List ℕ) :
    (pool.setLocalQueue i q).shape = pool.shape := by
  unfold Pool.setLocalQueue Pool.shape
  rw [List.length_set]

/-- What the steps of `t` leave to the others: they change neither the size of a
pool, nor a pool which is constructed or which another thread constructs. -/
structure Same (t : Thread) (g : ℕ → Thread) (s s' : Shared) : Prop where
  index : ∀ u, u ≠ t → s'.index u = s.index u
  constructions : ∀ u, u ≠ t → s'.constructions u = s.constructions u
  shape : ∀ (p : ℕ) (sh : Shape), s.shapes[p]? = some sh → ∃ sh', s'.shapes[p]? = some sh' ∧
    sh'.size = sh.size ∧ (sh.constructed ∨ g p ≠ t → sh' = sh)

theorem Shared.Seated.same (h : s.Seated u) (hs : Same t g s s') (hu : u ≠ t) : s'.Seated u := by
  unfold Shared.Seated
  rw [hs.index u hu, hs.constructions u hu]
  exact h

theorem Local.same (h : Local s g u pc) (hs : Same t g s s') (hu : u ≠ t)
    (hg : ∀ (p : ℕ) (sh : Shape), s.shapes[p]? = some sh → g' p = g p) : Local s' g' u pc := by
  cases pc with
  | start => exact (hs.constructions u hu).trans h
  | stopRequested | yield st | run st => exact Shared.Seated.same h hs hu
  | popLocal p st =>
      obtain ⟨hseat, sh, hsh, hlt⟩ := h
      obtain ⟨sh', hsh', hsize, -⟩ := hs.shape p sh hsh
      refine ⟨hseat.same hs hu, sh', hsh', ?_⟩
      rw [hs.index u hu, hsize]
      exact hlt
  | popGlobal p st | countQueues p st =>
      obtain ⟨hseat, sh, hsh, hlt⟩ := h
      obtain ⟨sh', hsh', hsize, -⟩ := hs.shape p sh hsh
      exact ⟨hseat.same hs hu, sh', hsh', hsize ▸ hlt⟩
  | steal p st i n =>
      obtain ⟨hseat, hi, sh, hsh, hn⟩ := h
      obtain ⟨sh', hsh', hsize, -⟩ := hs.shape p sh hsh
      exact ⟨hseat.same hs hu, hi, sh', hsh', hn.trans hsize.symm⟩
  | submit p st x =>
      obtain ⟨hseat, sh, hsh, hdone, hle⟩ := h
      obtain ⟨sh', hsh', -, hkeep⟩ := hs.shape p sh hsh
      cases hkeep (.inl hdone)
      refine ⟨hseat.same hs hu, sh, hsh', hdone, ?_⟩
      rw [hs.index u hu]
      exact hle
  | construct p st i n =>
      obtain ⟨hseat, hgp, hi, hsh⟩ := h
      obtain ⟨sh', hsh', -, hkeep⟩ := hs.shape p _ hsh
      have hne : g p ≠ t := by
        rw [hgp]
        exact hu
      cases hkeep (.inr hne)
      exact ⟨hseat.same hs hu, (hg p _ hsh).trans hgp, hi, hsh'⟩

def Post (c : Config Thread Shared PC) (t : Thread) (r : Shared × PC) : Prop :=
  ∃ g, Global r.1 g ∧ Local r.1 g t r.2 ∧ ∀ u, u ≠ t → Local r.1 g u (c.pc u)

theorem post_same {r : Shared × PC} (hG : Global c.shared g)
    (hL : ∀ u, Local c.shared g u (c.pc u)) (hshapes : r.1.shapes = c.shared.shapes)
    (hindex : ∀ u, u ≠ t → r.1.index u = c.shared.index u)
    (hcons : r.1.constructions = c.shared.constructions) (ht : Local r.1 g t r.2) :
    Post c t r := by
  have hsame : Same t g c.shared r.1 := by
    constructor
    case index => exact hindex
    case constructions => exact fun u _ => congrFun hcons u
    case shape => exact fun p sh hsh => ⟨sh, hshapes ▸ hsh, rfl, fun _ => rfl⟩
  refine ⟨g, ⟨?_, ?_⟩, ht, fun u hu => (hL u).same hsame hu fun _ _ _ => rfl⟩
  · rw [hshapes]
    exact hG.size
  · rw [hshapes]
    exact hG.threads

theorem pool_sat {P : B → Prop} {f : Pool → Outcome B}
    (h : ∀ pool, s.pools[p]? = some pool → (f pool).Sat P) : (s.pool p f).Sat P := by
  unfold Shared.pool
  split
  · trivial
  · exact h _ ‹_›

theorem localQueue_sat {P : B → Prop} {f : List ℕ → Outcome B} {pool : Pool} {i : ℕ}
    (hi : i < pool.localQueues.length) (h : ∀ q, (f q).Sat P) : (pool.localQueue i f).Sat P := by
  unfold Pool.localQueue
  rw [List.getElem?_eq_getElem hi]
  exact h _

theorem enter_sat {P : Shared × PC → Prop} {r : Shared × PC}
    (h : ∀ pool, s.pools[p]? = some pool → pool.constructed → P r) : (s.enter p r).Sat P := by
  refine pool_sat fun pool hp => ?_
  split
  · exact h pool hp ‹_›
  · trivial

theorem victim_lt {index i n : ℕ} (hi : i < n) : victim index i n < n :=
  Nat.mod_lt _ (Nat.zero_lt_of_lt hi)

theorem local_resume (h : s.Seated t) (st : List ℕ) : Local s g t (.resume t st) := by
  cases st with
  | nil => cases t <;> exact h
  | cons x st => exact h

theorem local_tryStealTask {sh : Shape} {st : List ℕ} {i n : ℕ} (h : s.Seated t)
    (hsh : s.shapes[p]? = some sh) (hn : n + 1 = sh.size) :
    Local s g t (.tryStealTask p st i n) := by
  unfold PC.tryStealTask
  split
  · exact ⟨h, ‹_›, sh, hsh, hn⟩
  · exact h

/-- A new pool, which nobody knows but the thread that constructs it. -/
theorem post_begin {st : List ℕ} {n : ℕ} (hn : n < 2 ^ 32) (hG : Global c.shared g)
    (hL : ∀ u, Local c.shared g u (c.pc u)) (hseat : c.shared.Seated t) :
    Post c t ({ c.shared with pools := c.shared.pools ++ [⟨0, [], List.replicate n [], false⟩] },
      .construct c.shared.pools.length st 0 n) := by
  have hshapes : ({ c.shared with
      pools := c.shared.pools ++ [⟨0, [], List.replicate n [], false⟩] } : Shared).shapes =
        c.shared.shapes ++ [⟨0, n, false⟩] := by
    unfold Shared.shapes
    rw [List.map_append]
    simp [Pool.shape]
  have hlen : ∀ (p : ℕ) (sh : Shape), c.shared.shapes[p]? = some sh →
      p ≠ c.shared.pools.length := by
    intro p sh hsh
    have := (List.getElem?_eq_some_iff.mp hsh).1
    rw [shapes_length] at this
    exact Nat.ne_of_lt this
  have hnew : ∀ (p : ℕ) (sh : Shape), (c.shared.shapes ++ [⟨0, n, false⟩])[p]? = some sh →
      c.shared.shapes[p]? = some sh ∨ sh = ⟨0, n, false⟩ := by
    intro p sh hsh
    rw [List.getElem?_append] at hsh
    split at hsh
    · exact .inl hsh
    · exact .inr (List.mem_singleton.mp (List.mem_of_getElem? hsh))
  have hsame : Same t g c.shared { c.shared with
      pools := c.shared.pools ++ [⟨0, [], List.replicate n [], false⟩] } := by
    constructor
    case index => exact fun _ _ => rfl
    case constructions => exact fun _ _ => rfl
    case shape =>
      intro p sh hsh
      refine ⟨sh, ?_, rfl, fun _ => rfl⟩
      rw [hshapes]
      exact List.getElem?_append_left (List.getElem?_eq_some_iff.mp hsh).1 |>.trans hsh
  refine ⟨Function.update g c.shared.pools.length t, ⟨?_, ?_⟩, ⟨hseat, ?_, Nat.zero_le n, ?_⟩, ?_⟩
  · intro p sh hsh
    rw [hshapes] at hsh
    obtain h | rfl := hnew p sh hsh
    · exact hG.size p sh h
    · exact hn
  · intro p sh hsh hdone
    rw [hshapes] at hsh
    obtain h | rfl := hnew p sh hsh
    · exact hG.threads p sh h hdone
    · cases hdone
  · exact Function.update_self _ _ _
  · rw [hshapes, ← shapes_length, List.getElem?_concat_length]
  · intro u hu
    exact (hL u).same hsame hu fun p sh hsh => Function.update_of_ne (hlen p sh hsh) _ _

theorem post_construct {sh : Shape} (sh' : Shape) {r : Shared × PC} (hG : Global c.shared g)
    (hL : ∀ u, Local c.shared g u (c.pc u)) (hsh : c.shared.shapes[p]? = some sh)
    (hg : g p = t) (hdone : ¬ sh.constructed) (hsize : sh'.size = sh.size)
    (hthreads : sh'.constructed → sh'.threads = sh'.size)
    (hshapes : r.1.shapes = c.shared.shapes.set p sh')
    (hindex : ∀ u, u ≠ t → r.1.index u = c.shared.index u)
    (hcons : ∀ u, u ≠ t → r.1.constructions u = c.shared.constructions u)
    (ht : Local r.1 g t r.2) : Post c t r := by
  have hold : ∀ (q : ℕ) (a : Shape), r.1.shapes[q]? = some a →
      c.shared.shapes[q]? = some a ∨ a = sh' := by
    intro q a ha
    rw [hshapes] at ha
    by_cases hq : p = q
    · subst hq
      rw [List.getElem?_set_self (List.getElem?_eq_some_iff.mp hsh).1] at ha
      exact .inr (Option.some.inj ha).symm
    · rw [List.getElem?_set_ne hq] at ha
      exact .inl ha
  have hsame : Same t g c.shared r.1 := by
    constructor
    case index => exact hindex
    case constructions => exact hcons
    case shape =>
      intro q a ha
      rw [hshapes]
      by_cases hq : p = q
      · subst hq
        cases hsh.symm.trans ha
        refine ⟨sh', List.getElem?_set_self (List.getElem?_eq_some_iff.mp hsh).1, hsize, ?_⟩
        exact fun h => (h.elim hdone fun h => h hg).elim
      · exact ⟨a, (List.getElem?_set_ne hq).trans ha, rfl, fun _ => rfl⟩
  refine ⟨g, ⟨?_, ?_⟩, ht, fun u hu => (hL u).same hsame hu fun _ _ _ => rfl⟩
  · intro q a ha
    obtain h | rfl := hold q a ha
    · exact hG.size q a h
    · rw [hsize]
      exact hG.size p sh hsh
  · intro q a ha
    obtain h | rfl := hold q a ha
    · exact hG.threads q a h
    · exact hthreads

theorem post_setPool {pool pool' : Pool} {pc' : PC} (hG : Global c.shared g)
    (hL : ∀ u, Local c.shared g u (c.pc u)) (hp : c.shared.pools[p]? = some pool)
    (hs : pool'.shape = pool.shape)
    (ht : Local (c.shared.setPool p pool') g t pc') : Post c t (c.shared.setPool p pool', pc') :=
  post_same hG hL (shapes_setPool_self hp hs) (fun _ _ => rfl) rfl ht

theorem step_popLocal {st : List ℕ} (hG : Global c.shared g)
    (hL : ∀ u, Local c.shared g u (c.pc u)) (ht : Local c.shared g t (.popLocal p st)) :
    (exec t o c.shared (.popLocal p st)).Sat (Post c t) := by
  obtain ⟨hseat, sh, hsh, hlt⟩ := ht
  refine pool_sat fun pool hp => ?_
  cases hsh.symm.trans (shapes_eq_some hp)
  refine localQueue_sat hlt fun q => ?_
  cases q with
  | nil =>
      exact post_same hG hL rfl (fun _ _ => rfl) rfl
        ⟨hseat, _, shapes_eq_some hp, Nat.zero_lt_of_lt hlt⟩
  | cons x q => exact post_setPool hG hL hp (shape_setLocalQueue pool _ q) hseat

theorem step_steal {st : List ℕ} {i n : ℕ} (hG : Global c.shared g)
    (hL : ∀ u, Local c.shared g u (c.pc u)) (ht : Local c.shared g t (.steal p st i n)) :
    (exec t o c.shared (.steal p st i n)).Sat (Post c t) := by
  obtain ⟨hseat, hi, sh, hsh, hn⟩ := ht
  refine pool_sat fun pool hp => ?_
  cases hsh.symm.trans (shapes_eq_some hp)
  have hlt : victim (c.shared.index t) i n < pool.localQueues.length := by
    have hsize : n + 1 = pool.localQueues.length := hn
    have hvictim : victim (c.shared.index t) i n < n := victim_lt hi
    omega
  refine localQueue_sat hlt fun q => ?_
  split
  · exact post_setPool hG hL hp (shape_setLocalQueue pool _ _) hseat
  · exact post_same hG hL rfl (fun _ _ => rfl) rfl (local_tryStealTask hseat hsh hn)

theorem step_submit {st : List ℕ} {x : ℕ} (hG : Global c.shared g)
    (hL : ∀ u, Local c.shared g u (c.pc u)) (ht : Local c.shared g t (.submit p st x)) :
    (exec t o c.shared (.submit p st x)).Sat (Post c t) := by
  obtain ⟨hseat, sh, hsh, hdone, hle⟩ := ht
  refine pool_sat fun pool hp => ?_
  cases hsh.symm.trans (shapes_eq_some hp)
  split
  · refine post_setPool hG hL hp rfl (local_resume ?_ st)
    exact hseat
  · have hlt : c.shared.index t < pool.localQueues.length :=
      Nat.lt_of_le_of_ne hle fun he => ‹¬ _› (he.trans (hG.threads p _ hsh hdone).symm)
    refine localQueue_sat hlt fun q => ?_
    refine post_setPool hG hL hp (shape_setLocalQueue pool _ _) (local_resume ?_ st)
    exact hseat

theorem step_construct {st : List ℕ} {i n : ℕ} (hG : Global c.shared g)
    (hL : ∀ u, Local c.shared g u (c.pc u)) (ht : Local c.shared g t (.construct p st i n)) :
    (exec t o c.shared (.construct p st i n)).Sat (Post c t) := by
  obtain ⟨hseat, hg, hi, hsh⟩ := ht
  have hlt := (List.getElem?_eq_some_iff.mp hsh).1
  refine pool_sat fun pool hp => ?_
  obtain ⟨hthreads, hsize, hdone⟩ :=
    Shape.mk.inj (Option.some.inj ((shapes_eq_some hp).symm.trans hsh))
  split
  · have hshape : ({ pool with threads := pool.threads + 1 } : Pool).shape = ⟨i + 1, n, false⟩ := by
      unfold Pool.shape
      rw [hthreads, hsize, hdone]
    refine post_construct ⟨i + 1, n, false⟩ hG hL hsh hg Bool.false_ne_true rfl
      (fun h => (Bool.false_ne_true h).elim) ?_ (fun _ _ => rfl) (fun _ _ => rfl)
      ⟨hseat, hg, ‹_›, ?_⟩
    · rw [shapes_setPool, hshape]
    · rw [shapes_setPool, hshape, List.getElem?_set_self hlt]
  · have hshape : ({ pool with constructed := true } : Pool).shape = ⟨n, n, true⟩ := by
      unfold Pool.shape
      rw [hthreads, hsize]
      congr
      omega
    refine post_construct ⟨n, n, true⟩ hG hL hsh hg Bool.false_ne_true rfl (fun _ => rfl)
      ?_ (fun u hu => Function.update_of_ne hu _ _) (fun u hu => Function.update_of_ne hu _ _)
      (local_resume ?_ st)
    · exact (shapes_setPool p _).trans (by rw [hshape])
    · unfold Shared.Seated
      simp only [Function.update_self]
      cases t <;> simp [Thread.seat]

theorem fits_sat (hG : Global c.shared g) (hL : ∀ u, Local c.shared g u (c.pc u))
    (hfits : Fits c t o) : (exec t o c.shared (c.pc t)).Sat (Post c t) := by
  have ht := hL t
  cases hpc : c.pc t with
  | start =>
      rw [hpc] at ht
      cases t with
      | program m => trivial
      | worker p k =>
          refine pool_sat fun pool hp => ?_
          split
          · refine post_same hG hL rfl (fun u hu => Function.update_of_ne hu _ _) rfl ?_
            refine (Function.update_self _ _ _).trans ?_
            change k = (c.shared.constructions _).getLastD k
            rw [show c.shared.constructions (.worker p k) = [] from ht]
            rfl
          · trivial
  | stopRequested =>
      rw [hpc] at ht
      cases t with
      | program m => trivial
      | worker p k =>
          unfold Fits at hfits
          rw [hpc] at hfits
          refine pool_sat fun pool hp => ?_
          exact post_same hG hL rfl (fun _ _ => rfl) rfl
            ⟨ht, _, shapes_eq_some hp, Nat.lt_of_le_of_lt (Nat.le_of_eq ht) (hfits pool hp)⟩
  | popLocal p st => exact step_popLocal hG hL (hpc ▸ ht)
  | popGlobal p st =>
      rw [hpc] at ht
      refine pool_sat fun pool hp => ?_
      cases htasks : pool.tasks with
      | nil => exact post_same hG hL rfl (fun _ _ => rfl) rfl ht
      | cons x q =>
          refine post_setPool hG hL hp rfl ?_
          exact ht.1
  | countQueues p st =>
      rw [hpc] at ht
      obtain ⟨hseat, sh, hsh, hpos⟩ := ht
      refine pool_sat fun pool hp => ?_
      cases hsh.symm.trans (shapes_eq_some hp)
      have hbound : stealBound pool.localQueues.length + 1 = pool.shape.size :=
        stealBound_add_one hpos (hG.size p _ hsh)
      generalize stealBound pool.localQueues.length = n at hbound ⊢
      exact post_same hG hL rfl (fun _ _ => rfl) rfl (local_tryStealTask hseat hsh hbound)
  | steal p st i n => exact step_steal hG hL (hpc ▸ ht)
  | yield st =>
      rw [hpc] at ht
      exact post_same hG hL rfl (fun _ _ => rfl) rfl (local_resume ht st)
  | run st =>
      rw [hpc] at ht
      unfold Fits at hfits
      rw [hpc] at hfits
      cases o with
      | construct n => exact post_begin n.toNat_lt hG hL ht
      | submit p =>
          refine enter_sat fun pool hp hdone => ?_
          exact post_same hG hL rfl (fun _ _ => rfl) rfl
            ⟨ht, _, shapes_eq_some hp, hdone, Nat.le_trans (Nat.le_of_eq ht) (hfits pool hp hdone)⟩
      | runPendingTask p =>
          refine enter_sat fun pool hp hdone => ?_
          exact post_same hG hL rfl (fun _ _ => rfl) rfl
            ⟨ht, _, shapes_eq_some hp, Nat.lt_of_le_of_lt (Nat.le_of_eq ht) (hfits pool hp hdone)⟩
      | finish =>
          cases st with
          | nil => trivial
          | cons x st => exact post_same hG hL rfl (fun _ _ => rfl) rfl (local_resume ht st)
  | submit p st x => exact step_submit hG hL (hpc ▸ ht)
  | construct p st i n => exact step_construct hG hL (hpc ▸ ht)

theorem outline : Outline exec Fits (· = start) Global Local := by
  constructor
  case start =>
    rintro c rfl
    refine ⟨fun _ => .program 0, ⟨fun p sh h => ?_, fun p sh h => ?_⟩, fun t => ?_⟩
    · cases h
    · cases h
    · cases t <;> rfl
  case step => exact fun c t o g _ hfits hG hL => fits_sat hG hL hfits

theorem pool_eq {f : Pool → Outcome B} {pool : Pool} (h : s.pools[p]? = some pool) :
    s.pool p f = f pool := by
  unfold Shared.pool
  rw [h]

theorem localQueue_eq_fault {f : List ℕ → Outcome B} {pool : Pool} {i : ℕ}
    (h : pool.localQueues.length ≤ i) : pool.localQueue i f = .fault := by
  unfold Pool.localQueue
  rw [List.getElem?_eq_none h]

theorem not_inRange_popLocal {pool : Pool} {st : List ℕ} (hpc : c.pc t = .popLocal p st)
    (hp : c.shared.pools[p]? = some pool) (hi : pool.localQueues.length ≤ c.shared.index t) :
    ¬ InRange c := by
  intro h
  apply h.subscript t .finish
  unfold Config.advance
  rw [hpc]
  simp only [exec, pool_eq hp, localQueue_eq_fault hi]
  rfl

theorem not_inRange_submit {pool : Pool} {st : List ℕ} {x : ℕ} (hpc : c.pc t = .submit p st x)
    (hp : c.shared.pools[p]? = some pool) (hi : pool.localQueues.length ≤ c.shared.index t)
    (hne : c.shared.index t ≠ pool.threads) : ¬ InRange c := by
  intro h
  apply h.subscript t .finish
  unfold Config.advance
  rw [hpc]
  simp only [exec, pool_eq hp, if_neg hne, localQueue_eq_fault hi]
  rfl

theorem enter_eq_ok {pool : Pool} {r : Shared × PC} (hp : s.pools[p]? = some pool)
    (hdone : pool.constructed) : s.enter p r = .ok r := by
  unfold Shared.enter
  rw [pool_eq hp, if_pos hdone]

/-- A call which does not fit is made, and out of range thereafter. -/
theorem not_inRange_of_not_fits (hG : Global c.shared g) (ht : Local c.shared g t (c.pc t))
    (hfits : ¬ Fits c t o) : ∃ d, c.advance exec t o = .ok d ∧ ¬ InRange d := by
  unfold Fits at hfits
  unfold Config.advance
  cases hpc : c.pc t with
  | run st =>
      rw [hpc] at ht hfits
      have hseat : c.shared.index t = t.seat (c.shared.constructions t) := ht
      cases o with
      | submit p =>
          simp only [not_forall, Nat.not_le] at hfits
          obtain ⟨pool, hp, hdone, hlt⟩ := hfits
          rw [← hseat] at hlt
          have hthreads : pool.threads = pool.localQueues.length :=
            hG.threads p _ (shapes_eq_some hp) hdone
          refine ⟨_, congrArg (Outcome.map _) (enter_eq_ok hp hdone), ?_⟩
          refine not_inRange_submit (Function.update_self t _ _) hp (Nat.le_of_lt hlt) ?_
          rw [hthreads]
          exact Nat.ne_of_gt hlt
      | runPendingTask p =>
          simp only [not_forall, Nat.not_lt] at hfits
          obtain ⟨pool, hp, hdone, hle⟩ := hfits
          rw [← hseat] at hle
          exact ⟨_, congrArg (Outcome.map _) (enter_eq_ok hp hdone),
            not_inRange_popLocal (Function.update_self t _ _) hp hle⟩
      | construct n | finish => exact absurd trivial hfits
  | stopRequested =>
      rw [hpc] at ht hfits
      have hseat : c.shared.index t = t.seat (c.shared.constructions t) := ht
      cases t with
      | program m => exact absurd trivial hfits
      | worker p k =>
          simp only [not_forall, Nat.not_lt] at hfits
          obtain ⟨pool, hp, hle⟩ := hfits
          rw [← hseat] at hle
          exact ⟨_, congrArg (Outcome.map _) (pool_eq hp),
            not_inRange_popLocal (Function.update_self _ _ _) hp hle⟩
  | start | popLocal | popGlobal | countQueues | steal | yield | submit | construct =>
      rw [hpc] at hfits
      exact absurd trivial hfits

theorem inRange (hc : ReachIf exec Fits (· = start) c) : InRange c := by
  obtain ⟨g, hG, hL⟩ := outline.holds hc
  constructor
  case subscript =>
    intro t o
    by_cases hfits : Fits c t o
    · exact outline.safe hc hfits
    · obtain ⟨d, hd, -⟩ := not_inRange_of_not_fits hG (hL t) hfits
      rw [hd]
      intro h
      cases h
  case bound =>
    intro t p st pool hpc hp
    have ht := hL t
    rw [hpc] at ht
    obtain ⟨-, sh, hsh, hpos⟩ := ht
    cases hsh.symm.trans (shapes_eq_some hp)
    exact stealBound_add_one hpos (hG.size p _ hsh)

theorem inRange_iff_fits (sched : List (Thread × Call)) :
    start.Throughout exec InRange sched ↔ start.Meets exec Fits sched := by
  refine throughout_iff_meets (fun _ => inRange) (fun c t o hc hfits => ?_) (.start rfl)
  obtain ⟨g, hG, hL⟩ := outline.holds hc
  exact not_inRange_of_not_fits hG (hL t) hfits

section Example

/-- The program constructs a pool of two workers and then helps with its tasks. -/
def help : List (Thread × Call) :=
  List.replicate 4 (.program 0, .construct 2) ++ [(.program 0, .runPendingTask 0)]

theorem help_out_of_range : ¬ start.Throughout exec InRange help := by
  intro h
  have hin := h help (List.prefix_refl _) _ rfl
  exact absurd hin (not_inRange_popLocal (t := .program 0) rfl rfl (Nat.le_refl 2))

end Example
end CsNotes.ThreadPool.Pools
