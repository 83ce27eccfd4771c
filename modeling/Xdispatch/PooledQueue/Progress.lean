import Xdispatch.PooledQueue.Calls
import Xdispatch.PooledQueue.Served

/-!
# No drain is stuck

A drain of a queue waits for `m_CS`, a thread that holds `m_CS` for its call of `execute`,
and that call for nothing. So the lock is released again by steps of the thread
that holds it, and a worker that is in a drain comes to its end by steps of that drain
and of threads that hold the lock: neither needs another worker, another queue or
a token.
-/

namespace Xdispatch.PooledQueue

open Relation (ReflTransGen)
open Threadpool (Priority threadpool left left_step exists_left)

/-- The step is one of thread `i` of queue `q`, or of a call of `execute` that it has made. -/
def own (s : System) (q i : Nat) : Choice → Prop
  | .queue r (.act j .step) => r = q ∧ j = i
  | .pool (.act k .step) => (q, i, k) ∈ s.calls
  | _ => False

def OwnStep (priority : Nat → Priority) (q i : Nat) (s s' : System) : Prop :=
  ∃ e, own s q i e ∧ s.step priority e = some s'

/-- A step of the thread that holds `m_CS`. -/
def HeldStep (priority : Nat → Priority) (q : Nat) (s s' : System) : Prop :=
  ∃ i p, (s.queues q).threads[i]? = some (.holding p) ∧ OwnStep priority q i s s'

def DrainStep (priority : Nat → Priority) (q d : Nat) (s s' : System) : Prop :=
  HeldStep priority q s s' ∨ OwnStep priority q d s s'

/-! ## What the others see -/

/-- What is the same for the others after steps of thread `i` and its calls. -/
structure Frame (q i : Nat) (s s' : System) : Prop where
  threads : ∀ (j : Nat) t, j ≠ i → (s.queues q).threads[j]? = some t → (s'.queues q).threads[j]? = some t
  pool : ∀ (k : Nat) t, left t = 0 → s.pool.threads[k]? = some t → s'.pool.threads[k]? = some t
  works : ∀ (n : Nat) w, s.works[n]? = some w → s'.works[n]? = some w

section
variable {priority : Nat → Priority} {q i d : Nat} {s s' s'' : System} {p : Priority}

theorem Frame.refl : Frame q i s s := ⟨fun _ _ _ h => h, fun _ _ _ h => h, fun _ _ h => h⟩

theorem Frame.trans (h : Frame q i s s') (h' : Frame q i s' s'') : Frame q i s s'' where
  threads j t hj ht := h'.threads j t hj (h.threads j t hj ht)
  pool k t hk ht := h'.pool k t hk (h.pool k t hk ht)
  works n w hn := h'.works n w (h.works n w hn)

/-- A step of a thread of a queue, and what comes of it. -/
theorem exists_stepQueue (hx : s.inExecute q i = false) (hw : s.waits q i = false) {t : OperationQueue.Thread}
    (ht : (s.queues q).threads[i]? = some t) {r} (ha : OperationQueue.act (s.queues q).shared t .step = some r) :
    ∃ s', s.stepQueue p q (.act i .step) = some s' := by
  have hn := Program.act_next (P := OperationQueue.operationQueue) ht ha
  simp only [System.stepQueue, hx, hw, Bool.or_false, decide_eq_true_eq, reduceCtorEq, if_false, hn, Option.bind_some]
  split
  · exact ⟨_, rfl⟩
  · exact ⟨_, rfl⟩

theorem stepQueue_spec (h : s.stepQueue p q (.act i .step) = some s') : ∃ t u t' new,
    (s.queues q).threads[i]? = some t ∧ OperationQueue.act (s.queues q).shared t .step = some (u, t', new) ∧
      s'.queues q = ⟨u, (s.queues q).threads.set i t' ++ new⟩ ∧ Frame q i s s' := by
  obtain ⟨-, -, -, t, u, t', new, ht, ha, hcase⟩ := stepQueue_cases h
  refine ⟨t, u, t', new, ht, ha, ?_⟩
  have hset : (s.setQueue q ⟨u, (s.queues q).threads.set i t' ++ new⟩).queues q =
      ⟨u, (s.queues q).threads.set i t' ++ new⟩ := Function.update_self ..
  have hothers : ∀ (j : Nat) x, j ≠ i → (s.queues q).threads[j]? = some x →
      ((s.queues q).threads.set i t' ++ new)[j]? = some x :=
    fun j x hj hx => Family.get_step_of_ne hx (Ne.symm hj) _ _
  rcases hcase with ⟨-, rfl⟩ | ⟨-, -, s₁, hs, rfl⟩
  · exact ⟨hset, fun j x hj hx => by rw [hset]; exact hothers j x hj hx, fun _ _ _ h => h, fun _ _ h => h⟩
  · simp only [System.submit, Option.map_eq_some_iff] at hs
    obtain ⟨pool, hp, rfl⟩ := hs
    obtain ⟨v, added, -, rfl⟩ := Program.next_call hp
    refine ⟨hset, fun j x hj hx => ?_, fun k x _ hx => Family.get_append hx _, fun n w hn => Family.get_append hn _⟩
    simp only [hset]
    exact hothers j x hj hx

/-! ## Calls come to an end -/

/-- The steps that the calls of thread `i` have left. -/
def due (s : System) (q i : Nat) : Nat :=
  Family.total (fun c => if c.1 = q ∧ c.2.1 = i then (s.pool.threads[c.2.2]?.map left).getD 0 else 0) s.calls

theorem due_lt (hI : Calling s) {k : Nat} {t t' : Threadpool.Thread} {u : Threadpool.Shared}
    {new : List Threadpool.Thread} (hk : (q, i, k) ∈ s.calls) (ht : s.pool.threads[k]? = some t) (hlt : left t' < left t) :
    due { s with pool := ⟨u, s.pool.threads.set k t' ++ new⟩ } q i < due s q i := by
  have hself : (s.pool.threads.set k t' ++ new)[k]? = some t' := Family.get_step ht t' new
  refine List.sum_lt_sum _ _ (fun c hc => ?_) ⟨_, hk, ?_⟩
  · split
    · obtain ⟨x, hx, -⟩ := hI.calls _ _ _ hc
      by_cases hck : k = c.2.2
      · rw [← hck, hself, ht]
        exact Nat.le_of_lt hlt
      · rw [Family.get_step_of_ne hx hck, hx]
    · exact Nat.le_refl _
  · simp only [and_self, if_true, hself, ht]
    exact hlt

theorem step_pool {k : Nat} {t t' : Threadpool.Thread} {u : Threadpool.Shared} {new : List Threadpool.Thread}
    (hgo : s.goesOn k = true) (ht : s.pool.threads[k]? = some t)
    (ha : Threadpool.act s.pool.shared t .step = some (u, t', new)) :
    s.step priority (.pool (.act k .step)) = some { s with pool := ⟨u, s.pool.threads.set k t' ++ new⟩ } := by
  simp only [System.step, System.stepPool, hgo, if_true]
  rw [Program.act_next (P := threadpool) ht ha]
  rfl

variable (priority) in
/-- The calls that a thread is in return. -/
theorem exists_settled (hI : Calling s) {c : OperationQueue.Critical}
    (ht : (s.queues q).threads[i]? = some (.holding c)) : ∃ s', ReflTransGen (HeldStep priority q) s s' ∧ Calling s' ∧
      s'.queues = s.queues ∧ Frame q i s s' ∧ s'.inExecute q i = false := by
  have := Program.exists_of_rank (r := HeldStep priority q) (a := s)
    (I := fun b => Calling b ∧ b.queues = s.queues ∧ Frame q i s b) (G := fun b => b.inExecute q i = false)
    (due · q i) (fun b ⟨hb, hq, hf⟩ => ?_) ⟨hI, rfl, Frame.refl⟩
  · obtain ⟨s', hr, ⟨hI', hq, hf⟩, hx⟩ := this
    exact ⟨s', hr, hI', hq, hf, hx⟩
  by_cases hx : b.inExecute q i = false
  · exact Or.inl hx
  right
  obtain ⟨k, hk, hne⟩ : ∃ k, (q, i, k) ∈ b.calls ∧ b.pool.threads[k]? ≠ some .returned := by
    rw [inExecute_eq_false] at hx
    push Not at hx
    exact hx
  obtain ⟨t, htk, hcase⟩ := hb.calls q i k hk
  have hl := (hcase.resolve_left fun h => hne (h ▸ htk)).1
  obtain ⟨⟨u, t', new⟩, ha⟩ := exists_left b.pool.shared hl
  obtain ⟨hlt, -⟩ := left_step ha hl
  have hgo : b.goesOn k = true := by
    unfold System.goesOn
    rw [htk]
    split
    · next heq =>
      cases heq
      exact absurd rfl hl
    · rfl
  have hstep : b.step priority (.pool (.act k .step)) = _ := step_pool hgo htk ha
  refine ⟨_, .single ⟨i, c, by rw [hq]; exact ht, .pool (.act k .step), hk, hstep⟩,
    ⟨step_calling hb hstep, hq, hf.trans ⟨fun _ _ _ h => h, ?_,
    fun _ _ h => h⟩⟩, due_lt hb hk htk hlt⟩
  intro j x hj hx
  refine Family.get_step_of_ne hx (fun hkj => ?_) t' new
  subst hkj
  cases htk.symm.trans hx
  exact hl hj

/-! ## The lock is released -/

open OperationQueue in
/-- Statements up to the one that releases `m_CS`. -/
def toRelease : Critical → Nat
  | .unlock | .drainUnlock .. => 1
  | .asyncNotify | .attachSet | .detachReset | .drainEnd | .drainSwap _ => 2
  | .asyncPush _ | .attachManager | .detachNotify | .drainYield | .unwindFree => 3
  | .detachPush | .drainBegin | .drainPop _ | .unwindPop _ => 4
  | .detachEmpty => 5

def threadToRelease : OperationQueue.Thread → Nat
  | .holding c => toRelease c
  | _ => 0

theorem toRelease_drainLoop (jobs : List (Option OperationQueue.Job)) (r : Nat) :
    toRelease (OperationQueue.drainLoop jobs r) < 4 := by
  unfold OperationQueue.drainLoop
  split
  · simp [toRelease]
  · split <;> simp [toRelease]

theorem critical_release {u u' : OperationQueue.Shared} {c : OperationQueue.Critical} {t' : OperationQueue.Thread}
    {new : List OperationQueue.Thread} (h : c.act u = (u', t', new)) :
    threadToRelease t' < toRelease c ∧ (u'.locked = false ∨ ∃ c', t' = .holding c') := by
  suffices threadToRelease (c.act u).2.1 < toRelease c ∧
      ((c.act u).1.locked = false ∨ ∃ c', (c.act u).2.1 = .holding c') by
    rwa [h] at this
  cases c with
  | unlock | drainUnlock => exact ⟨Nat.lt_succ_self 0, Or.inl rfl⟩
  | asyncPush | detachPush =>
    refine ⟨?_, Or.inr ⟨_, rfl⟩⟩
    simp only [OperationQueue.Critical.act]
    split <;> simp [threadToRelease, toRelease]
  | detachEmpty =>
    simp only [OperationQueue.Critical.act]
    split <;> exact ⟨by simp [threadToRelease, toRelease], Or.inr ⟨_, rfl⟩⟩
  | drainBegin | drainPop => exact ⟨toRelease_drainLoop _ _, Or.inr ⟨_, rfl⟩⟩
  | _ => exact ⟨Nat.lt_succ_self _, Or.inr ⟨_, rfl⟩⟩

theorem exists_holding (hI : Calling s) (hl : (s.queues q).shared.locked ≠ false) :
    ∃ (i : Nat) (c : OperationQueue.Critical), (s.queues q).threads[i]? = some (.holding c) := by
  obtain ⟨t, hm, hpos⟩ : ∃ t ∈ (s.queues q).threads, 0 < t.holds := by
    apply Family.exists_of_total_pos
    rw [(hI.queues q).inv.mutex, Bool.eq_true_of_not_eq_false hl]
    exact Nat.one_pos
  obtain ⟨i, hi⟩ := List.mem_iff_getElem?.mp hm
  cases t with
  | holding c => exact ⟨i, c, hi⟩
  | deadlocked => cases (hI.queues q).unwinds _ hm
  | _ => exact absurd hpos (Nat.lt_irrefl 0)

theorem waits_holding (hI : Calling s) {c : OperationQueue.Critical}
    (ht : (s.queues q).threads[i]? = some (.holding c)) : s.waits q i = false := by
  refine waits_eq_false.mpr fun n hn => ?_
  obtain ⟨t, ht', -, hcase⟩ := hI.drains n q i hn
  cases ht.symm.trans ht'
  rcases hcase with h | h | h
  · cases h
  · cases h
  · exact h

variable (priority) in
/-- The thread that holds `m_CS` takes a step as soon as it is in no call. -/
theorem exists_heldStep (hI : Calling s) {c : OperationQueue.Critical}
    (ht : (s.queues q).threads[i]? = some (.holding c)) (hx : s.inExecute q i = false) : ∃ s' u t' new,
      HeldStep priority q s s' ∧ Calling s' ∧ Frame q i s s' ∧ c.act (s.queues q).shared = (u, t', new) ∧
        s'.queues q = ⟨u, (s.queues q).threads.set i t' ++ new⟩ := by
  obtain ⟨s', hs⟩ := exists_stepQueue (p := priority q) hx (waits_holding hI ht) ht rfl
  obtain ⟨t, u, t', new, ht', ha, hq, hf⟩ := stepQueue_spec hs
  cases ht.symm.trans ht'
  exact ⟨s', u, t', new, ⟨i, c, ht, .queue q (.act i .step), ⟨rfl, rfl⟩, hs⟩,
    step_calling hI (e := .queue q (.act i .step)) hs, hf, Option.some.inj ha, hq⟩

variable (priority) in
theorem exists_released (hI : Calling s) {c : OperationQueue.Critical}
    (ht : (s.queues q).threads[i]? = some (.holding c)) : ∃ s', ReflTransGen (HeldStep priority q) s s' ∧ Calling s' ∧
      Frame q i s s' ∧ (s'.queues q).shared.locked = false := by
  have := Program.exists_of_rank (r := HeldStep priority q) (a := s)
    (I := fun b => Calling b ∧ Frame q i s b ∧
      ((b.queues q).shared.locked = false ∨ ∃ c, (b.queues q).threads[i]? = some (.holding c)))
    (G := fun b => (b.queues q).shared.locked = false)
    (fun b => ((b.queues q).threads[i]?.map threadToRelease).getD 0) (fun b ⟨hb, hf, hcase⟩ => ?_)
    ⟨hI, Frame.refl, Or.inr ⟨c, ht⟩⟩
  · obtain ⟨s', hr, ⟨hI', hf, -⟩, hl⟩ := this
    exact ⟨s', hr, hI', hf, hl⟩
  by_cases hl : (b.queues q).shared.locked = false
  · exact Or.inl hl
  obtain ⟨c, hc⟩ := hcase.resolve_left hl
  right
  obtain ⟨b₁, hr, hb₁, hq₁, hf₁, hx⟩ := exists_settled priority hb hc
  have hc₁ : (b₁.queues q).threads[i]? = some (.holding c) := hq₁ ▸ hc
  obtain ⟨b₂, u, t', new, hs, hb₂, hf₂, ha, hq₂⟩ := exists_heldStep priority hb₁ hc₁ hx
  have hself := Family.get_step hc₁ t' new
  obtain ⟨hlt, hcase⟩ := critical_release ha
  refine ⟨b₂, hr.tail hs, ⟨hb₂, hf.trans (hf₁.trans hf₂), ?_⟩, ?_⟩
  · rw [hq₂]
    exact hcase.imp_right fun ⟨c', h⟩ => ⟨c', h ▸ hself⟩
  · simp only [hq₂, hself, hc]
    exact hlt

/-! ## A drain returns -/

open OperationQueue in
/-- Statements that a drain has left, where an operation takes six. -/
def toReturn : Thread → Nat
  | .lock .drainBegin => 6 * kMaxOpsPerDrain + 5
  | .holding .drainBegin => 6 * kMaxOpsPerDrain + 4
  | .holding (.drainSwap r) => 6 * r + 3
  | .holding (.drainUnlock _ r) => 6 * r + 2
  | .drainProcess _ r => 6 * r + 1
  | .drainRunning _ r => 6 * r
  | .lock (.drainPop r) => 6 * r - 1
  | .holding (.drainPop r) => 6 * r - 2
  | .lock (.unwindPop _) => 5
  | .holding (.unwindPop _) => 4
  | .holding .unwindFree | .holding .drainYield => 3
  | .holding .drainEnd => 2
  | .holding .unlock => 1
  | _ => 0

theorem toReturn_drainLoop (jobs : List (Option OperationQueue.Job)) (r : Nat) :
    toReturn (.holding (OperationQueue.drainLoop jobs r)) ≤ 6 * r + 3 := by
  unfold OperationQueue.drainLoop
  split
  · exact Nat.le_refl _
  · split <;> simp [toReturn]

theorem toReturn_step {u u' : OperationQueue.Shared} {t t' : OperationQueue.Thread} {new : List OperationQueue.Thread}
    (h : OperationQueue.Step u t .step u' t' new) (hf : t.Fits u.jobs) (ht : ofDrain t = true) :
    toReturn t' < toReturn t := by
  cases h with
  | @lock p hl =>
    cases p with
    | drainBegin | unwindPop => simp [toReturn]
    | drainPop r =>
      have : 1 ≤ r := hf.1.1
      simp only [toReturn]
      omega
    | drainSwap | drainUnlock | drainYield | unwindFree | drainEnd => cases hf.2
    | _ => cases ht
  | start => exact Nat.lt_succ_self _
  | @skip r | @finish job r =>
    have : 1 ≤ r := hf.1
    simp only [toReturn]
    omega
  | @holding p =>
    cases p with
    | drainBegin =>
      refine Nat.lt_of_le_of_lt (toReturn_drainLoop _ _) ?_
      simp only [toReturn]
      omega
    | drainPop r =>
      have : 1 ≤ r := hf.1
      refine Nat.lt_of_le_of_lt (toReturn_drainLoop _ _) ?_
      simp only [toReturn]
      omega
    | drainSwap | drainUnlock | drainYield | unwindPop | unwindFree | drainEnd | unlock =>
      exact Nat.lt_of_succ_le (by simp [toReturn, OperationQueue.Critical.act])
    | _ => cases ht

theorem exists_act {u : OperationQueue.Shared} {t : OperationQueue.Thread} (ht : t ≠ .returned)
    (hu : t.unwinds = false) (hl : ∀ p, t = .lock p → u.locked = false) : ∃ r, OperationQueue.act u t .step = some r := by
  cases t with
  | lock p => exact ⟨_, if_neg (by rw [hl p rfl]; exact Bool.false_ne_true)⟩
  | drainProcess job => cases job <;> exact ⟨_, rfl⟩
  | deadlocked => cases hu
  | returned => exact absurd rfl ht
  | _ => exact ⟨_, rfl⟩

/-- A worker executes operation `n`, which is drain `d` of queue `q`. -/
structure InDrain (q d n k : Nat) (s : System) : Prop where
  worker : s.pool.threads[k]? = some (.worker (.executing n))
  work : s.works[n]? = some (.drain q d)

theorem Frame.inDrain {n k : Nat} (h : Frame q i s s') (hD : InDrain q d n k s) : InDrain q d n k s' :=
  ⟨h.pool k _ rfl hD.worker, h.works n _ hD.work⟩

theorem InDrain.waits {n k : Nat} (hI : Calling s) (hD : InDrain q d n k s) : s.waits q d = false := by
  refine waits_eq_false.mpr fun m hm => ?_
  cases hI.unique _ _ _ _ hD.work hm
  exact executing_iff.mpr (Family.mem_of_get hD.worker)

variable (priority) in
/-- The drain takes a step when it is in no call, and does not wait for `m_CS`. -/
theorem InDrain.exists_step {n k : Nat} (hI : Calling s) (hD : InDrain q d n k s) {t : OperationQueue.Thread}
    (ht : (s.queues q).threads[d]? = some t) (hret : t ≠ .returned) (hx : s.inExecute q d = false)
    (hl : ∀ p, t = .lock p → (s.queues q).shared.locked = false) : ∃ s' t', OwnStep priority q d s s' ∧ Calling s' ∧
      InDrain q d n k s' ∧ (s'.queues q).threads[d]? = some t' ∧ toReturn t' < toReturn t := by
  have hm := Family.mem_of_get ht
  obtain ⟨r, ha⟩ := exists_act hret ((hI.queues q).unwinds t hm) hl
  obtain ⟨s', hs⟩ := exists_stepQueue (p := priority q) hx (hD.waits hI) ht ha
  obtain ⟨t₀, u, t', new, ht₀, ha, hq, hf⟩ := stepQueue_spec hs
  cases ht.symm.trans ht₀
  have hstep : s.step priority (.queue q (.act d .step)) = some s' := hs
  obtain ⟨t₁, ht₁, ho, -⟩ := hI.drains n q d hD.work
  cases ht.symm.trans ht₁
  refine ⟨s', t', ⟨.queue q (.act d .step), ⟨rfl, rfl⟩, hstep⟩, step_calling hI hstep, hf.inDrain hD, ?_,
    toReturn_step (OperationQueue.act_step ha) ((hI.queues q).inv.fits t hm) ho⟩
  rw [hq]
  exact Family.get_step ht t' new

theorem not_inExecute (hI : Calling s) {t : OperationQueue.Thread} (ht : (s.queues q).threads[i]? = some t)
    (hh : ∀ p, t ≠ .holding p) : s.inExecute q i = false := by
  refine inExecute_eq_false.mpr fun k hk => ?_
  obtain ⟨x, hx, hcase⟩ := hI.calls q i k hk
  rcases hcase with rfl | ⟨_, p, hp⟩
  · exact hx
  · exact absurd (Option.some.inj (ht.symm.trans hp)) (hh p)

theorem heldSteps (h : ReflTransGen (HeldStep priority q) s s') : ReflTransGen (DrainStep priority q d) s s' :=
  Relation.ReflTransGen.mono (fun _ _ => Or.inl) _ _ h

variable (priority) in
/-- The drain takes a step, if need be after others. -/
theorem InDrain.exists_steps {n k : Nat} (hI : Calling s) (hD : InDrain q d n k s) {t : OperationQueue.Thread}
    (ht : (s.queues q).threads[d]? = some t) (hret : t ≠ .returned) : ∃ s' t',
      ReflTransGen (DrainStep priority q d) s s' ∧ Calling s' ∧ InDrain q d n k s' ∧
        (s'.queues q).threads[d]? = some t' ∧ toReturn t' < toReturn t := by
  -- it is enough to come to where the drain is in no call and need not wait
  have key : ∀ s₁, ReflTransGen (DrainStep priority q d) s s₁ → Calling s₁ → InDrain q d n k s₁ →
      (s₁.queues q).threads[d]? = some t → s₁.inExecute q d = false →
      (∀ p, t = .lock p → (s₁.queues q).shared.locked = false) → ∃ s' t',
        ReflTransGen (DrainStep priority q d) s s' ∧ Calling s' ∧ InDrain q d n k s' ∧
          (s'.queues q).threads[d]? = some t' ∧ toReturn t' < toReturn t := by
    intro s₁ hr hI₁ hD₁ ht₁ hx hl
    obtain ⟨s', t', hs, h⟩ := hD₁.exists_step priority hI₁ ht₁ hret hx hl
    exact ⟨s', t', hr.tail (Or.inr hs), h⟩
  cases t with
  | returned => exact absurd rfl hret
  | deadlocked => cases (hI.queues q).unwinds _ (Family.mem_of_get ht)
  | drainProcess | drainRunning =>
    exact key s .refl hI hD ht (not_inExecute hI ht (by simp)) (by simp)
  | holding p =>
    obtain ⟨s₁, hr, hI₁, hq, hf, hx⟩ := exists_settled priority hI ht
    exact key s₁ (heldSteps hr) hI₁ (hf.inDrain hD) (hq ▸ ht) hx (by simp)
  | lock p =>
    by_cases hl : (s.queues q).shared.locked = false
    · exact key s .refl hI hD ht (not_inExecute hI ht (by simp)) fun _ _ => hl
    obtain ⟨i, c, hi⟩ := exists_holding hI hl
    have hdi : d ≠ i := by
      rintro rfl
      cases ht.symm.trans hi
    obtain ⟨s₁, hr, hI₁, hf, hfree⟩ := exists_released priority hI hi
    have ht₁ := hf.threads d _ hdi ht
    exact key s₁ (heldSteps hr) hI₁ (hf.inDrain hD) ht₁ (not_inExecute hI₁ ht₁ (by simp)) fun _ _ => hfree

variable (priority) in
theorem InDrain.exists_returned {n k : Nat} (hI : Calling s) (hD : InDrain q d n k s) : ∃ s',
    ReflTransGen (DrainStep priority q d) s s' ∧ InDrain q d n k s' ∧ (s'.queues q).threads[d]? = some .returned := by
  have := Program.exists_of_rank (r := DrainStep priority q d) (a := s)
    (I := fun b => Calling b ∧ InDrain q d n k b) (G := fun b => (b.queues q).threads[d]? = some .returned)
    (fun b => ((b.queues q).threads[d]?.map toReturn).getD 0) (fun b ⟨hb, hD⟩ => ?_) ⟨hI, hD⟩
  · obtain ⟨s', hr, ⟨-, hD'⟩, hret⟩ := this
    exact ⟨s', hr, hD', hret⟩
  obtain ⟨t, ht, -, -⟩ := hb.drains n q d hD.work
  by_cases hret : t = .returned
  · exact Or.inl (hret ▸ ht)
  · obtain ⟨b', t', hr, hb', hD', ht', hlt⟩ := hD.exists_steps priority hb ht hret
    exact Or.inr ⟨b', hr, ⟨hb', hD'⟩, by simp only [ht, ht']; exact hlt⟩

/-! ## Progress -/

/-- The lock of a queue is released, and a worker that executes a drain goes on. -/
structure Progress (priority : Nat → Priority) (s : System) : Prop where
  released : ∀ q, ∃ s', ReflTransGen (HeldStep priority q) s s' ∧ (s'.queues q).shared.locked = false
  returns : ∀ k n q d, s.pool.threads[k]? = some (.worker (.executing n)) → s.works[n]? = some (.drain q d) →
    ∃ s₁ s₂, ReflTransGen (DrainStep priority q d) s s₁ ∧ (s₁.queues q).threads[d]? = some .returned ∧
      s₁.step priority (.pool (.act k .step)) = some s₂ ∧ s₂.pool.threads[k]? = some (.worker .loop)

end

/-- **No drain is stuck**, in no state that the system can reach. -/
theorem run_progress {maxThreads : Int} {priority : Nat → Priority} {tr : List (Config System Unit × Label Choice)}
    {c : Config System Unit} (h : (system priority).Run (initial maxThreads) tr c) : Progress priority c.shared := by
  have hI := run_calling h
  refine ⟨fun q => ?_, fun k n q d hk hn => ?_⟩
  · by_cases hl : (c.shared.queues q).shared.locked = false
    · exact ⟨_, .refl, hl⟩
    obtain ⟨i, p, hi⟩ := exists_holding hI hl
    obtain ⟨s', hr, -, -, hfree⟩ := exists_released priority hI hi
    exact ⟨s', hr, hfree⟩
  · obtain ⟨s₁, hr, hD, hret⟩ := InDrain.exists_returned priority hI ⟨hk, hn⟩
    have hgo : s₁.goesOn k = true := by
      unfold System.goesOn
      rw [hD.worker]
      simp only [hD.work, hret, decide_true]
    exact ⟨s₁, _, hr, hret, step_pool hgo hD.worker rfl, Family.get_step hD.worker _ _⟩

theorem run_progress_draining : Progress (fun _ => .default) (twoThreads.last (initial 2) draining).shared ∧
    (twoThreads.last (initial 2) draining).shared.pool.threads[1]? = some (.worker (.executing 0)) :=
  ⟨run_progress (Program.run_last (P := system fun _ => .default) (l := draining) (by decide)), by decide⟩

end Xdispatch.PooledQueue
