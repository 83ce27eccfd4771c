import Xdispatch.ManualThread.Invariant

/-!
# What an exception leaves behind

The guards of `drain` clean up after a job that throws, but neither the wakeup
for the jobs behind it is posted, nor is the rest of the batch executed. And the
job is freed before the mutex is released. The queue stays usable if the job is the
only one in the list when it is popped, does not call the queue when it is freed,
and its drain is the last of its batch. Then whoever calls `exec` again gets all that
has been appended executed.
-/

namespace Xdispatch.OperationQueue

/-! ## Drains under way -/

section
variable {s s' : Shared} {t t' : Thread} {e : Choice} {new : List Thread}

/-- Popping the only entry leaves nothing that a drain would have to come for. -/
theorem step_drains_kept (h : Step s t e s' t' new) (hf : t.Fits s.jobs) (hb : t.drains ≤ s.busy)
    (hn : s.notifyOperation = true) (ha : s.isAttached = true)
    (hk : ∀ r, t = .holding (.unwindPop r) → s.jobs.length = 1) :
    t'.drains + Family.total Thread.drains new + s.busy = s'.busy + t.drains := by
  by_cases hu : ∃ r, t = .holding (.unwindPop r)
  · obtain ⟨r, rfl⟩ := hu
    have h1 := hk r rfl
    cases h
    have h2 : s.jobs.tail.length = 0 := by rw [List.length_tail, h1]
    simp [Critical.act, Shared.deferredPop, Thread.drains, Critical.drains, Shared.busy, h1, h2]
  · refine step_drains_eq h hf hb hn fun p hp => ?_
    subst hp
    cases p with
    | asyncPush => exact ha
    | unwindPop r => exact absurd ⟨r, rfl⟩ hu
    | _ => rfl

theorem step_not_deadlocked (h : Step s t e s' t' new) (he : ∀ job, e ≠ .async job) : t' ≠ .deadlocked := by
  cases h with
  | deadlock => exact absurd rfl (he _)
  | @holding p =>
    cases p with
    | detachEmpty =>
      simp only [Critical.act]
      split <;> simp
    | _ => simp [Critical.act]
  | _ => simp

theorem Posts.not_deadlocked (h : Posts new) : ∀ x ∈ new, x ≠ .deadlocked := by
  rcases h with rfl | rfl <;> simp

/-- Who holds the mutex goes on, but for one that waits for it. -/
theorem holds_act (ht : t ≠ .deadlocked) (hh : t.holds = 1) : (act s t .step).isSome = true := by
  cases t with
  | holding p => rfl
  | deadlocked => exact absurd rfl ht
  | _ => cases hh

/-- Bounds the steps that a drain still takes. -/
def Critical.work : Critical → Nat
  | .drainBegin => 13
  | .drainSwap _ => 12
  | .drainUnlock .. => 11
  | .drainPop _ => 7
  | .drainYield => 30
  | .drainEnd => 8
  | .unlock => 7
  | _ => 0

def Thread.work : Thread → Nat
  | .lock p => p.work + 1
  | .holding p => p.work
  | .drainProcess .. => 10
  | .drainRunning .. => 9
  | .deadlocked => 0
  | .returned => 6

theorem drainLoop_work {jobs : List (Option Job)} {r : Nat} (h : r = 0 → jobs = []) : (drainLoop jobs r).work ≤ 12 := by
  unfold drainLoop
  split
  · exact Nat.le_refl _
  · next hr =>
    rw [if_pos (h (by simpa using hr))]
    decide

theorem drainLoop_work_le (jobs : List (Option Job)) (r : Nat) : (drainLoop jobs r).work ≤ 30 := by
  unfold drainLoop
  split
  · exact Nat.le_add_left 12 18
  · split <;> decide

theorem notifyUnsafe_length (s : Shared) : s.notifyUnsafe.length ≤ 1 := by
  unfold Shared.notifyUnsafe
  split <;> decide

/-- A drain whose job does not throw goes on, and lowers the work that is left. -/
theorem drain_step (ht : t.ofDrain = true) (hu : t.unwinds = false) (hr : t ≠ .returned)
    (hl : ∀ p, t = .lock p → s.locked = false) (hf : t.Fits s.jobs) : ∃ s' t' new, act s t .step = some (s', t', new) ∧
      40 * s'.jobs.length + 20 * new.length + t'.work < 40 * s.jobs.length + t.work := by
  cases t with
  | lock p =>
    refine ⟨_, _, _, by rw [act, hl p rfl]; rfl, ?_⟩
    simp only [Thread.work, List.length_nil]
    omega
  | holding p =>
    refine ⟨_, _, _, rfl, ?_⟩
    cases p with
    | drainBegin =>
      have hloop : (drainLoop s.jobs (min s.jobs.length kMaxOpsPerDrain)).work ≤ 12 := by
        refine drainLoop_work fun h => List.length_eq_zero_iff.mp ?_
        unfold kMaxOpsPerDrain at h
        omega
      change 40 * s.jobs.length + 20 * 0 + _ < 40 * s.jobs.length + 13
      change _ + (drainLoop s.jobs (min s.jobs.length kMaxOpsPerDrain)).work < _
      omega
    | drainSwap r =>
      cases hj : s.jobs with
      | nil =>
        have h1 := hf.1
        have h2 := hf.2
        simp only [hj, List.length_nil] at h2
        omega
      | cons job jobs =>
        simp only [swapFront_cons hj, Thread.work, Critical.work, List.length_cons, List.length_nil]
        omega
    | drainPop r =>
      have h1 : 1 ≤ s.jobs.length := Nat.le_trans hf.1 hf.2.1
      have hloop := drainLoop_work_le s.jobs.tail (r - 1)
      change 40 * s.jobs.tail.length + 20 * 0 + (drainLoop s.jobs.tail (r - 1)).work < 40 * s.jobs.length + 7
      rw [List.length_tail]
      omega
    | drainYield =>
      have := notifyUnsafe_length s
      change 40 * s.jobs.length + 20 * s.notifyUnsafe.length + 8 < 40 * s.jobs.length + 30
      omega
    | drainUnlock | drainEnd | unlock =>
      simp [Shared.release, Thread.work, Critical.work]
    | unwindPop | unwindFree => cases hu
    | _ => cases ht
  | deadlocked => cases hu
  | drainProcess job r =>
    cases job with
    | some job => exact ⟨_, _, _, rfl, by simp [Thread.work]⟩
    | none => exact ⟨_, _, _, rfl, by simp [Thread.work, Critical.work]⟩
  | drainRunning job r =>
    obtain ⟨m, hm⟩ := run_eq s job
    exact ⟨_, _, _, rfl, by simp [hm, Thread.work, Critical.work]⟩
  | returned => exact absurd rfl hr

theorem step_appended (h : Step s t e s' t' new) (ht : t.ofDrain = true) : s'.appended = s.appended := by
  cases h with
  | lock | start | skip | throw | deadlock => rfl
  | @finish job =>
    obtain ⟨m, hm⟩ := run_eq s job
    rw [hm]
  | @holding p =>
    cases p with
    | drainSwap =>
      simp only [Critical.act, Shared.swapFront]
      split <;> rfl
    | drainBegin | drainUnlock | drainPop | drainYield | unwindPop | unwindFree | drainEnd | unlock => rfl
    | _ => cases ht

end

end Xdispatch.OperationQueue

namespace Xdispatch.ManualThread

open OperationQueue (operationQueue)

/-! ## Runs that keep the queue usable -/

/-- A job that throws is alone in the list when it is popped, its destructor does not call
`async`, and whatever leaves `run` leaves nothing of its batch. -/
def keepsUsable (c : Config Shared Driver) : Label Choice → Bool
  | .act _ e =>
    match driver c with
    | .running (.drain n) ops thrown =>
      match c.shared.queue.threads[n]? with
      | some (.holding (.unwindPop _)) => c.shared.queue.shared.jobs.length == 1
      | some (.holding .unwindFree) => e == .step
      | some .returned => !thrown || ops.isEmpty
      | _ => true
    | .running (.other _) ops _ => e != .throw || ops.isEmpty
    | _ => true
  | .call _ => true

structure Kept (s : Shared) (d : Driver) : Prop where
  inv : Inv s d
  drains : Family.total OperationQueue.Thread.drains s.queue.threads = s.queue.shared.busy
  not_dropped : s.dropped = []
  not_deadlocked : ∀ t ∈ s.queue.threads, t ≠ .deadlocked

section
variable {s s' : Shared} {d d' : Driver} {e : Choice}

theorem advance_not_deadlocked (hI : Inv s d) {n : Nat} {e : OperationQueue.Choice} (h : s.advance n e = some s')
    (he : ∀ job, e ≠ .async job) (hd : ∀ t ∈ s.queue.threads, t ≠ .deadlocked) :
    ∀ t ∈ s'.queue.threads, t ≠ .deadlocked := by
  obtain ⟨t, σ, t', new, ht, ha, -, rfl⟩ := advance_cases h
  have hstep := OperationQueue.act_step ha
  exact Family.forall_step hd (OperationQueue.step_not_deadlocked hstep he)
    (OperationQueue.step_posts hstep (hI.ofCall_or ht)).2.not_deadlocked

theorem Kept.advance (hK : Kept s d) (hI' : Inv s' d') {n : Nat} {e : OperationQueue.Choice} (h : s.advance n e = some s')
    (he : ∀ job, e ≠ .async job)
    (hu : ∀ r, s.queue.threads[n]? = some (.holding (.unwindPop r)) → s.queue.shared.jobs.length = 1) : Kept s' d' := by
  have hQ := hK.inv.queue
  have hnd := advance_not_deadlocked hK.inv h he hK.not_deadlocked
  obtain ⟨t, σ, t', new, ht, ha, -, rfl⟩ := advance_cases h
  have hm := Family.mem_of_get ht
  have hd : t.drains ≤ s.queue.shared.busy := hK.drains ▸ Family.le_total _ hm
  have hstep := OperationQueue.step_drains_kept (OperationQueue.act_step ha) (hQ.fits t hm) hd hQ.notifyOperation
    hK.inv.attached fun r hr => hu r (hr ▸ ht)
  exact ⟨hI', Family.total_eq_step hK.drains ht (by simp only []; omega), hK.not_dropped, hnd⟩

/-- The destructor of a job that has thrown calls `async`. -/
theorem advance_async {n : Nat} {job : Option Nat} (h : s.advance n (.async job) = some s') :
    s.queue.threads[n]? = some (.holding .unwindFree) := by
  obtain ⟨t, σ, t', new, ht, ha, -⟩ := advance_cases h
  cases OperationQueue.act_step ha
  exact ht

theorem ofCall_not_unwinding {t : OperationQueue.Thread} (h : t.ofCall = true) (r : Nat) : t ≠ .holding (.unwindPop r) := by
  rintro rfl
  cases h

theorem Kept.called (hK : Kept s d) (h : Called s e s') : Kept s' d := by
  have hI' := hK.inv.called h
  cases h with
  | async hq =>
    obtain ⟨σ, new, hc, rfl⟩ := Program.next_call hq
    cases hc
    refine ⟨hI', ?_, hK.not_dropped, Family.forall_append hK.not_deadlocked (by simp)⟩
    simpa [OperationQueue.Thread.drains, OperationQueue.Critical.drains] using hK.drains
  | caller hn hs =>
    exact hK.advance hI' hs (by simp) fun r hr => absurd rfl (ofCall_not_unwinding (hK.inv.callers _ _ hr hn) r)
  | execute | cancel => exact ⟨hI', hK.drains, hK.not_dropped, hK.not_deadlocked⟩

end

theorem next_kept {c c' : Config Shared Driver} (hR : RunInv c) (hK : Kept c.shared (driver c)) {l : Label Choice}
    (hC : keepsUsable c l = true) (h : manualThread.next c l = some c') : Kept c'.shared (driver c') := by
  have hI' := (next_inv hR h).inv
  rcases next_cases hR h with ⟨e, rfl, hs, -⟩ | ⟨e, rfl, hc, ht⟩
  · have hleft : ∀ ops : List Work, ops.isEmpty = true → c.shared.dropped ++ ops = [] := by
      intro ops hops
      rw [hK.not_dropped, List.isEmpty_iff.mp hops]
      rfl
    simp only [keepsUsable] at hC
    generalize driver c = d at hs hC hK
    generalize driver c' = d' at hs hI' ⊢
    generalize c'.shared = s' at hs hI' ⊢
    cases hs with
    | advance _ hs | unwind hs => exact hK.advance hI' hs (by simp) fun r hr => by simpa [hr] using hC
    | deadlock hs =>
      simp only [advance_async hs] at hC
      cases hC
    | throw =>
      simp only [bne_self_eq_false, Bool.false_or] at hC
      exact ⟨hI', hK.drains, hleft _ hC, hK.not_deadlocked⟩
    | leave hr =>
      rw [returned_iff] at hr
      simp only [hr, Bool.not_true, Bool.false_or] at hC
      exact ⟨hI', hK.drains, hleft _ hC, hK.not_deadlocked⟩
    | _ => exact ⟨hI', hK.drains, hK.not_dropped, hK.not_deadlocked⟩
  · rw [driver_congr ht]
    exact hK.called hc

/-! ## After an exception -/

/-- What the driver is running, or will. -/
def Driver.works : Driver → List Work
  | .next ops => ops
  | .running op ops _ => op :: ops
  | _ => []

/-- What holds of the queue when nobody is within `run`. -/
structure Left (s : Shared) : Prop where
  popped : ∀ job ∈ s.queue.shared.jobs, job ≠ none
  inactive : s.queue.shared.activeDrain = false
  released : ∀ n ∈ s.wakeups, ∀ t, s.queue.threads[n]? = some t → t.holds = 0

theorem Inv.outside {s : Shared} (h : Inv s .outside) {n : Nat} {t : OperationQueue.Thread}
    (ht : s.queue.threads[n]? = some t) :
    t = .lock .drainBegin ∨ t.ofCall = true ∧ (n ∈ s.wakeups → t = .returned) := by
  by_cases hn : n ∈ s.wakeups
  · by_cases hp : n ∈ pending s .outside
    · exact Or.inl (Option.some.inj (ht.symm.trans (h.posted n hp)))
    · have hr := h.ended n hn fun hh => hp ((mem_held.mp hh).resolve_left nofun)
      cases ht.symm.trans hr
      exact Or.inr ⟨rfl, fun _ => rfl⟩
  · exact Or.inr ⟨h.callers n t ht hn, fun h => absurd h hn⟩

theorem left_of_inv {s : Shared} (h : Inv s .outside) : Left s := by
  have hzero : ∀ f : OperationQueue.Thread → Nat, f (.lock .drainBegin) = 0 → (∀ t, t.ofCall = true → f t = 0) →
      Family.total f s.queue.threads = 0 := by
    intro f h1 h2
    refine Family.total_eq_zero.mpr fun t ht => ?_
    obtain ⟨n, hn⟩ := List.mem_iff_getElem?.mp ht
    rcases h.outside hn with rfl | ⟨hc, -⟩
    · exact h1
    · exact h2 t hc
  refine ⟨fun job hj hn => ?_, ?_, fun n hn t ht => ?_⟩
  · have h0 := hzero OperationQueue.Thread.emptied rfl fun t ht => by
      cases t with
      | lock p | holding p => cases p <;> first | rfl | cases ht
      | returned => rfl
      | _ => cases ht
    rw [h.emptied, List.count_eq_zero] at h0
    exact h0 (hn ▸ hj)
  · have h0 := hzero OperationQueue.Thread.scoped rfl fun t ht => by
      cases t with
      | lock p | holding p => cases p <;> first | rfl | cases ht
      | returned => rfl
      | _ => cases ht
    obtain ⟨tr, hr⟩ := h.run
    rw [OperationQueue.run_scoped hr] at h0
    cases ha : s.queue.shared.activeDrain with
    | false => rfl
    | true =>
      rw [ha] at h0
      cases h0
  · rcases h.outside ht with rfl | ⟨-, hr⟩
    · rfl
    · rw [hr hn]
      rfl

/-- The calls of `async` have returned. -/
def CallsDone (s : Shared) : Prop :=
  ∀ n t, s.queue.threads[n]? = some t → n ∉ s.wakeups → t = .returned

/-- Jobs start once and in order, and are never left without something that will come for them; nothing
that `run` has taken gets lost, and who holds `m_CS` goes on. An exception leaves the queue as it was
between two drains, and whoever calls `exec` again gets the rest executed if none of it throws. -/
structure Usable (c : Config Shared Driver) : Prop where
  inOrder : OperationQueue.InOrder c.shared.queue
  not_dropped : c.shared.dropped = []
  woken : c.shared.queue.shared.jobs ≠ [] → ∃ n t, c.shared.queue.threads[n]? = some t ∧ t.drains = 1 ∧
    (n ∈ c.shared.wakeups → Work.drain n ∈ c.shared.queuedOps ++ (driver c).works)
  goes_on : ∀ t ∈ c.shared.queue.threads, t.holds = 1 → (OperationQueue.act c.shared.queue.shared t .step).isSome = true
  left : driver c = .outside → Left c.shared
  executes : driver c = .outside → c.shared.cancelled = false → CallsDone c.shared →
    ∃ (es : List Choice) (c' : Config Shared Driver), (∀ e ∈ es, e = .exec ∨ e = .step) ∧
      manualThread.exec c (es.map (.act 0)) = some c' ∧ c'.shared.queue.shared.appended = c.shared.queue.shared.appended ∧
      c'.shared.queue.shared.started = c.shared.queue.shared.appended ∧ c'.shared.queue.shared.jobs = []

theorem woken_of_kept {s : Shared} {d : Driver} (hK : Kept s d) (hj : s.queue.shared.jobs ≠ []) :
    ∃ n t, s.queue.threads[n]? = some t ∧ t.drains = 1 ∧ (n ∈ s.wakeups → Work.drain n ∈ s.queuedOps ++ d.works) := by
  have h1 : Family.total OperationQueue.Thread.drains s.queue.threads = 1 := hK.drains.trans (OperationQueue.busy_of_ne hj)
  obtain ⟨t, ht, hpos⟩ := Family.exists_of_total_pos (f := OperationQueue.Thread.drains) (l := s.queue.threads) (by omega)
  obtain ⟨n, hn⟩ := List.mem_iff_getElem?.mp ht
  have hle := Family.le_total OperationQueue.Thread.drains ht
  refine ⟨n, t, hn, by omega, fun hw => ?_⟩
  have hheld : n ∈ held s d := by
    by_contra hh
    cases hn.symm.trans (hK.inv.ended n hw hh)
    exact absurd hpos (Nat.lt_irrefl 0)
  rcases mem_held.mp hheld with hc | hp
  · cases d with
    | running op ops thrown =>
      cases op with
      | drain m =>
        cases hc
        exact List.mem_append_right _ List.mem_cons_self
      | other id => cases hc
    | _ => cases hc
  · simp only [pending, hK.not_dropped, wakeupsOf_nil, add_zero, Multiset.mem_add, mem_wakeupsOf] at hp
    refine List.mem_append.mpr (hp.imp_right fun hp => ?_)
    cases d with
    | next ops => exact hp
    | running op ops thrown => exact List.mem_cons_of_mem _ hp
    | _ => cases hp

/-! ## `exec` by itself -/

/-- The driver goes on with nobody else, and nothing throws. -/
structure Executing (appended : List OperationQueue.Job) (c : Config Shared Driver) : Prop where
  run : RunInv c
  kept : Kept c.shared (driver c)
  calls : CallsDone c.shared
  not_cancelled : c.shared.cancelled = false
  appended : c.shared.queue.shared.appended = appended
  smooth : ∀ n ops thrown, driver c = .running (.drain n) ops thrown →
    thrown = false ∧ ∀ t, c.shared.queue.threads[n]? = some t → t.unwinds = false
  waiting : ∀ seen, driver c = .waiting seen → c.shared.queuedOps = []

/-- Bounds the steps up to the next time that the driver waits. -/
def Driver.rank (s : Shared) (d : Driver) : Nat :=
  40 * s.queue.shared.jobs.length + 20 * s.queuedOps.length + match d with
    | .outside => 4
    | .test => 3
    | .take => 2
    | .waiting _ => 1
    | .next ops => 16 * ops.length + 4
    | .running (.other _) ops _ => 16 * ops.length + 6
    | .running (.drain n) ops _ => 16 * ops.length + 5 + (s.queue.threads[n]?.map OperationQueue.Thread.work).getD 0

section
variable {s s' : Shared} {d d' : Driver} {c c' : Config Shared Driver} {A : List OperationQueue.Job}

/-- A thread that holds the mutex would be in the drain that is running. -/
theorem unlocked (hI : Inv s d) (hc : CallsDone s)
    (hd : ∀ n t, d.current = some n → s.queue.threads[n]? = some t → t.holds = 0) :
    s.queue.shared.locked = false := by
  have h0 : Family.total OperationQueue.Thread.holds s.queue.threads = 0 := by
    refine Family.total_eq_zero.mpr fun t ht => ?_
    obtain ⟨n, hn⟩ := List.mem_iff_getElem?.mp ht
    by_cases hw : n ∈ s.wakeups
    · by_cases hh : n ∈ held s d
      · rcases mem_held.mp hh with hcur | hp
        · exact hd n t hcur hn
        · cases hn.symm.trans (hI.posted n hp)
          rfl
      · cases hn.symm.trans (hI.ended n hw hh)
        rfl
    · rw [hc n t hn hw]
      rfl
  rw [hI.queue.mutex] at h0
  cases hl : s.queue.shared.locked with
  | false => rfl
  | true =>
    rw [hl] at h0
    cases h0

theorem drain_progress (hK : Kept s d) (hc : CallsDone s) {n : Nat} {ops : List Work}
    (hd : d = .running (.drain n) ops false) {t : OperationQueue.Thread} (ht : s.queue.threads[n]? = some t)
    (hu : t.unwinds = false) : ∃ s' d', d.act s .step = some (s', d') ∧ d'.rank s' < d.rank s := by
  subst hd
  by_cases hr : t = .returned
  · subst hr
    have hret : s.returned n = true := returned_iff.mpr ht
    refine ⟨s, .next ops, by simp [Driver.act, hret], ?_⟩
    simp only [Driver.rank, ht]
    change _ < _ + (16 * ops.length + 5 + 6)
    omega
  · have hret : s.returned n = false := by
      rw [Bool.eq_false_iff]
      intro h
      exact hr (Option.some.inj (ht.symm.trans (returned_iff.mp h)))
    obtain ⟨t₀, ht₀, hod⟩ := hK.inv.current n rfl
    cases ht.symm.trans ht₀
    have hl : ∀ p, t = .lock p → s.queue.shared.locked = false := by
      rintro p rfl
      refine unlocked hK.inv hc fun m x hm hx => ?_
      cases hm
      cases ht.symm.trans hx
      rfl
    obtain ⟨σ, t', new, ha, hlt⟩ := OperationQueue.drain_step hod hu hr hl (hK.inv.queue.fits t (Family.mem_of_get ht))
    have hnext := Program.act_next (P := operationQueue) ht ha
    refine ⟨_, .running (.drain n) ops false, by simp only [Driver.act, hret, Shared.advance, hnext]; rfl, ?_⟩
    have hget := Family.get_step ht t' new
    simp only [Driver.rank, Shared.execute, hget, ht, List.length_append, List.length_map, List.length_range',
      List.length_set,
      Option.map_some, Option.getD_some, Nat.add_sub_cancel_left]
    omega

theorem driver_step (hE : Executing A c) : (∃ seen, driver c = .waiting seen) ∨
    ∃ e s' d', (e = .exec ∨ e = .step) ∧ (driver c).act c.shared e = some (s', d') ∧
        d'.rank s' < (driver c).rank c.shared := by
  have hK := hE.kept
  have hsm := hE.smooth
  generalize driver c = d at hK hsm ⊢
  cases d with
  | waiting seen => exact Or.inl ⟨seen, rfl⟩
  | outside => exact Or.inr ⟨.exec, _, _, Or.inl rfl, rfl, by simp [Driver.rank]⟩
  | test =>
    refine Or.inr ⟨.step, c.shared, .take, Or.inr rfl, by simp [Driver.act, hE.not_cancelled], ?_⟩
    simp [Driver.rank]
  | take =>
    by_cases hq : c.shared.queuedOps = []
    · exact Or.inr ⟨.step, _, _, Or.inr rfl, by rw [Driver.act, if_pos hq], by simp [Driver.rank]⟩
    · have hlen := List.length_pos_iff.mpr hq
      refine Or.inr ⟨.step, _, _, Or.inr rfl, by rw [Driver.act, if_neg hq], ?_⟩
      simp only [Driver.rank, Shared.swap, List.length_nil]
      omega
  | next ops =>
    cases ops with
    | nil => exact Or.inr ⟨.step, _, _, Or.inr rfl, rfl, by simp [Driver.rank]⟩
    | cons op ops =>
      refine Or.inr ⟨.step, _, _, Or.inr rfl, rfl, ?_⟩
      cases op with
      | other id =>
        simp only [Driver.rank, List.length_cons]
        omega
      | drain n =>
        have ht := hK.inv.batch_posted (n := n) List.mem_cons_self
        simp only [Driver.rank, ht, List.length_cons]
        change _ + (16 * ops.length + 5 + 14) < _
        omega
  | running op ops thrown =>
    cases op with
    | other id =>
      refine Or.inr ⟨.step, _, _, Or.inr rfl, rfl, ?_⟩
      simp only [Driver.rank]
      omega
    | drain n =>
      obtain ⟨rfl, hu⟩ := hsm n ops thrown rfl
      obtain ⟨t, ht, -⟩ := hK.inv.current n rfl
      obtain ⟨s', d', ha, hlt⟩ := drain_progress hK hE.calls rfl ht (hu t ht)
      exact Or.inr ⟨.step, s', d', Or.inr rfl, ha, hlt⟩

theorem Executing.keeps (hE : Executing A c) {e : Choice} (he : e = .exec ∨ e = .step) :
    keepsUsable c (.act 0 e) = true := by
  have hsm := hE.smooth
  simp only [keepsUsable]
  generalize driver c = d at hsm
  cases d with
  | running op ops thrown =>
    cases op with
    | other id => rcases he with rfl | rfl <;> rfl
    | drain n =>
      obtain ⟨rfl, hu⟩ := hsm n ops thrown rfl
      simp only []
      split
      · next r ht => cases hu _ ht
      · next ht => cases hu _ ht
      · rfl
      · rfl
  | _ => rfl

theorem CallsDone.advance (hC : CallsDone s) {n : Nat} {e : OperationQueue.Choice} (h : s.advance n e = some s')
    (hn : n ∈ s.wakeups) : CallsDone s' := by
  obtain ⟨t, σ, t', new, ht, -, -, rfl⟩ := advance_cases h
  intro m x hx hm
  replace hm : m ∉ s.wakeups ∧ m ∉ List.range' s.queue.threads.length new.length :=
    not_or.mp fun h => hm (List.mem_append.mpr h)
  rcases Family.get_cases hx with ⟨rfl, rfl⟩ | ⟨-, hx⟩ | ⟨k, rfl, hk⟩
  · exact absurd hn hm.1
  · exact hC m x hx hm.1
  · have := (List.getElem?_eq_some_iff.mp hk).1
    exact absurd (List.mem_range'_1.mpr ⟨by omega, by omega⟩) hm.2

/-- What a step of the drain that is being run leaves alone. -/
theorem advance_current (hI : Inv s d) {n : Nat} (hn : d.current = some n) (h : s.advance n .step = some s') :
    s'.cancelled = s.cancelled ∧ s'.queue.shared.appended = s.queue.shared.appended ∧
      ((∀ t, s.queue.threads[n]? = some t → t.unwinds = false) → ∀ t, s'.queue.threads[n]? = some t → t.unwinds = false) := by
  obtain ⟨t, σ, t', new, ht, ha, -, rfl⟩ := advance_cases h
  obtain ⟨t₀, ht₀, hod⟩ := hI.current n hn
  cases ht.symm.trans ht₀
  have hstep := OperationQueue.act_step ha
  refine ⟨rfl, OperationQueue.step_appended hstep hod, fun hu x hx => ?_⟩
  cases (Family.get_step ht t' new).symm.trans hx
  exact (OperationQueue.step_unwinds hstep (by simp) (hu t ht)).1

theorem Executing.next (hE : Executing A c) {e : Choice} (he : e = .exec ∨ e = .step)
    (h : manualThread.next c (.act 0 e) = some c') : Executing A c' := by
  have hR' := next_inv hE.run h
  have hK' := next_kept hE.run hE.kept (hE.keeps he) h
  obtain ⟨e', he', hs, -⟩ | ⟨e', he', -⟩ := next_cases hE.run h
  case inr => cases he'
  cases he'
  suffices hs' : CallsDone c'.shared ∧ c'.shared.cancelled = false ∧ c'.shared.queue.shared.appended = A ∧
      (∀ n ops thrown, driver c' = .running (.drain n) ops thrown →
        thrown = false ∧ ∀ t, c'.shared.queue.threads[n]? = some t → t.unwinds = false) ∧
      ∀ seen, driver c' = .waiting seen → c'.shared.queuedOps = [] from
    ⟨hR', hK', hs'.1, hs'.2.1, hs'.2.2.1, hs'.2.2.2.1, hs'.2.2.2.2⟩
  obtain ⟨-, hK, hcalls, hcan, happ, hsm, -⟩ := hE
  clear hR' hK' h
  generalize driver c = d at hs hK hsm
  generalize driver c' = d' at hs ⊢
  generalize c'.shared = s' at hs ⊢
  cases hs with
  | @advance n ops thrown _ _ hs =>
    have hn := hK.inv.known n (mem_held.mpr (Or.inl rfl))
    obtain ⟨h1, h2, h3⟩ := advance_current hK.inv rfl hs
    refine ⟨hcalls.advance hs hn, h1.trans hcan, h2.trans happ, fun m ops' thrown' hd => ?_, nofun⟩
    cases hd
    exact (hsm n ops thrown rfl).imp_right h3
  | @begin op ops =>
    refine ⟨hcalls, hcan, happ, fun n ops' thrown' hd => ?_, nofun⟩
    cases hd
    refine ⟨rfl, fun t ht => ?_⟩
    cases ht.symm.trans (hK.inv.batch_posted (n := n) List.mem_cons_self)
    rfl
  | wait hq => exact ⟨hcalls, hcan, happ, nofun, fun _ _ => hq⟩
  | stop => exact ⟨hcalls, rfl, happ, nofun, nofun⟩
  | throw | unwind | deadlock => rcases he with he | he <;> cases he
  | _ => exact ⟨hcalls, hcan, happ, nofun, nofun⟩

theorem all_started (hK : Kept s d) (hj : s.queue.shared.jobs = []) :
    s.queue.shared.started = s.queue.shared.appended := by
  have h0 : Family.total OperationQueue.Thread.drains s.queue.threads = 0 := by
    rw [hK.drains, OperationQueue.Shared.busy, hj]
    rfl
  obtain ⟨pre, hpre, ho⟩ := hK.inv.queue.order
  have hnil : (pre : Multiset OperationQueue.Job) = 0 := by
    rw [← hpre]
    refine List.sum_eq_zero fun x hx => ?_
    obtain ⟨t, ht, rfl⟩ := List.mem_map.mp hx
    rw [OperationQueue.taken_eq_nil (Family.total_eq_zero.mp h0 t ht)]
    rfl
  rw [ho, (Multiset.coe_eq_zero pre).mp hnil, hj]
  simp

theorem executes (hR : RunInv c) (hK : Kept c.shared (driver c)) (hd : driver c = .outside)
    (hcan : c.shared.cancelled = false)
    (hcalls : CallsDone c.shared) : ∃ (es : List Choice) (c' : Config Shared Driver), (∀ e ∈ es, e = .exec ∨ e = .step) ∧
      manualThread.exec c (es.map (.act 0)) = some c' ∧ c'.shared.queue.shared.appended = c.shared.queue.shared.appended ∧
      c'.shared.queue.shared.started = c.shared.queue.shared.appended ∧ c'.shared.queue.shared.jobs = [] := by
  have hE : Executing c.shared.queue.shared.appended c :=
    ⟨hR, hK, hcalls, hcan, rfl, fun n ops thrown h => (nomatch hd.symm.trans h), fun seen h => (nomatch hd.symm.trans h)⟩
  have hstep : ∀ (c₁ : Config Shared Driver) (d : Driver), Executing c.shared.queue.shared.appended c₁ →
      c₁.threads[0]? = some d →
      (∃ seen, d = .waiting seen) ∨ ∃ e s d' new, (e = .exec ∨ e = .step) ∧
      manualThread.act c₁.shared d e = some (s, d', new) ∧
        d'.rank s < d.rank c₁.shared := by
    intro c₁ d hE₁ hd₁
    rw [hE₁.run.threads] at hd₁
    cases hd₁
    rcases driver_step hE₁ with hw | ⟨e, s', d', he, ha, hlt⟩
    · exact Or.inl hw
    · exact Or.inr ⟨e, s', d', [], he, by simp [manualThread, ha], hlt⟩
  obtain ⟨es, c', d', hes, hex, hE', hd', seen, rfl⟩ := Program.exists_alone (P := manualThread) (i := 0)
    (fun e => e = .exec ∨ e = .step) (fun d => ∃ seen, d = Driver.waiting seen) (fun s d => d.rank s)
    (fun c₁ e c₂ he hE₁ hn => hE₁.next he hn) hstep _ c (driver c) (Nat.lt_succ_self _) hE (by rw [hR.threads]; rfl)
  have hw : driver c' = .waiting seen := by
    rw [hE'.run.threads] at hd'
    exact Option.some.inj hd'
  have hjobs : c'.shared.queue.shared.jobs = [] := by
    by_contra hj
    obtain ⟨n, t, ht, h1, hin⟩ := woken_of_kept hE'.kept hj
    by_cases hn : n ∈ c'.shared.wakeups
    · have := hin hn
      rw [hE'.waiting seen hw, hw] at this
      cases this
    · rw [hE'.calls n t ht hn] at h1
      cases h1
  exact ⟨es, c', hes, hex, hE'.appended, (all_started hE'.kept hjobs).trans hE'.appended, hjobs⟩

theorem usable_of_kept (hR : RunInv c) (hK : Kept c.shared (driver c)) : Usable c := by
  obtain ⟨tr, hr⟩ := hR.inv.run
  refine ⟨OperationQueue.run_inOrder hr, hK.not_dropped, woken_of_kept hK,
    fun t ht => OperationQueue.holds_act (hK.not_deadlocked t ht), fun hd => ?_, executes hR hK⟩
  have := hR.inv
  rw [hd] at this
  exact left_of_inv this

/-- The jobs behind the one that has thrown are left without a drain. -/
theorem unwindPop_stuck (hK : Kept s d) {n r : Nat} (hr : s.queue.threads[n]? = some (.holding (.unwindPop r)))
    (hj : s.queue.shared.jobs.length ≠ 1) {e : OperationQueue.Choice} (h : s.advance n e = some s') :
    s'.queue.shared.jobs ≠ [] ∧ Family.total OperationQueue.Thread.drains s'.queue.threads = 0 := by
  have hQ := hK.inv.queue
  obtain ⟨t, σ, t', new, ht, ha, -, rfl⟩ := advance_cases h
  cases hr.symm.trans ht
  have hf : OperationQueue.Emptied s.queue.shared.jobs r := hQ.fits _ (Family.mem_of_get ht)
  have hlen : 1 ≤ s.queue.shared.jobs.length := Nat.le_trans hf.1 hf.2.1
  cases OperationQueue.act_step ha
  constructor
  · rw [← List.length_pos_iff]
    change 0 < s.queue.shared.jobs.tail.length
    rw [List.length_tail]
    omega
  · have hb := hK.drains.trans (OperationQueue.busy_of_ne (List.length_pos_iff.mp hlen))
    exact Family.total_eq_step hb ht rfl

theorem next_unusable {l : Label Choice} (hR : RunInv c) (hK : Kept c.shared (driver c)) (hC : keepsUsable c l ≠ true)
    (h : manualThread.next c l = some c') : ¬ Usable c' := by
  intro hU
  rcases next_cases hR h with ⟨e, rfl, hs, -⟩ | ⟨e, rfl, -⟩
  case inr => exact hC rfl
  have hdrop := hU.not_dropped
  have hwoken := hU.woken
  have hgoes := hU.goes_on
  have hnil : ∀ ops : List Work, c.shared.dropped ++ ops = [] → ops.isEmpty = true := fun ops h =>
    List.isEmpty_iff.mpr (List.append_eq_nil_iff.mp h).2
  simp only [keepsUsable] at hC
  generalize driver c = d at hs hC hK
  generalize driver c' = d' at hs hwoken
  generalize c'.shared = s' at hs hdrop hwoken hgoes
  cases hs with
  | throw => exact hC (by simp [hnil _ hdrop])
  | leave hr => exact hC (by simp [returned_iff.mp hr, hnil _ hdrop])
  | other => exact hC rfl
  | drained hr => exact hC (by simp [returned_iff.mp hr])
  | @advance n ops thrown _ hret hs | @unwind n ops thrown _ hs =>
    by_cases hu : ∃ r, c.shared.queue.threads[n]? = some (.holding (.unwindPop r))
    · obtain ⟨r, hr⟩ := hu
      obtain ⟨hj, h0⟩ := unwindPop_stuck hK hr (fun h1 => hC (by simp [hr, h1])) hs
      obtain ⟨m, t, ht, h1, -⟩ := hwoken hj
      have := Family.le_total OperationQueue.Thread.drains (Family.mem_of_get ht)
      omega
    · obtain ⟨t, σ, t', new, ht, ha, -⟩ := advance_cases hs
      refine hC ?_
      dsimp only
      split
      · next r hr => exact absurd ⟨r, hr⟩ hu
      · next hr =>
        cases ht.symm.trans hr
        cases OperationQueue.act_step ha <;> rfl
      · next hr =>
        cases ht.symm.trans hr
        cases OperationQueue.act_step ha
      · rfl
  | deadlock hs =>
    obtain ⟨t, σ, t', new, ht, ha, -, rfl⟩ := advance_cases hs
    cases OperationQueue.act_step ha
    cases hgoes .deadlocked (Family.mem_of_get (Family.get_step ht _ _)) rfl
  | swap hd => exact hC (by rcases hd with ⟨rfl, -⟩ | ⟨seen, rfl⟩ <;> rfl)
  | _ => exact hC rfl

end

/-- **Exceptions.** The queue is usable in every state of a run exactly if each job that throws is alone in the
list when it is popped, does not call `async` when it is freed, and nothing of its batch is left. -/
theorem run_usable_iff {tr : List (Config Shared Driver × Label Choice)} {c : Config Shared Driver}
    (h : manualThread.Run initial tr c) :
    Program.Along (fun c l => keepsUsable c l = true) tr ↔ (∀ p ∈ tr, Usable p.1) ∧ Usable c := by
  refine h.along_iff (I := fun c => RunInv c ∧ Kept c.shared (driver c))
    ⟨initial_inv, initial_inv.inv, by decide, rfl, by decide⟩ ?_ ?_ ?_
  · exact fun c l c' hI hC hn => ⟨next_inv hI.1 hn, next_kept hI.1 hI.2 hC hn⟩
  · exact fun c hI => usable_of_kept hI.1 hI.2
  · exact fun c l c' hI hC hn => next_unusable hI.1 hI.2 hC hn

/-- The job of one call of `async` throws, and `exec` is called again. -/
def throwAlone : List (Label Choice) :=
  Label.call (Choice.async 0) :: List.replicate 4 (.call (.caller 1)) ++
    Label.act 0 Choice.exec :: List.replicate 8 (.act 0 .step) ++
    Label.act 0 Choice.throw :: List.replicate 6 (.act 0 .step) ++ [Label.act 0 Choice.exec]

theorem run_usable_iff_alone :
    Program.Along (fun c l => keepsUsable c l = true) (manualThread.path initial throwAlone) ↔
      (∀ p ∈ manualThread.path initial throwAlone, Usable p.1) ∧ Usable (manualThread.last initial throwAlone) :=
  run_usable_iff (Program.run_last (by decide))

/-- The first of two jobs throws. -/
def throwFirst : List (Label Choice) :=
  Label.call (Choice.async 0) :: List.replicate 4 (.call (.caller 1)) ++
    Label.call (Choice.async 1) :: List.replicate 3 (.call (.caller 3)) ++
    Label.act 0 Choice.exec :: List.replicate 8 (.act 0 .step) ++
    Label.act 0 Choice.throw :: List.replicate 6 (.act 0 .step)

/-- The job of one call of `async` throws, and calls `async` when it is freed. -/
def throwThenAsync : List (Label Choice) :=
  Label.call (Choice.async 0) :: List.replicate 4 (.call (.caller 1)) ++
    Label.act 0 Choice.exec :: List.replicate 8 (.act 0 .step) ++
    [.act 0 .throw, .act 0 .step, .act 0 .step, .act 0 (.async 1)]

example : .deadlocked ∈ (manualThread.last initial throwThenAsync).shared.queue.threads := by decide

theorem throwFirst_strands : ¬ ∀ tr c, manualThread.Run initial tr c → Usable c := by
  intro hall
  have hU := hall _ _ (Program.run_last (l := throwFirst) (by decide))
  obtain ⟨n, t, ht, h1, -⟩ := hU.woken (by decide)
  have hle := Family.le_total OperationQueue.Thread.drains (Family.mem_of_get ht)
  have h0 : Family.total OperationQueue.Thread.drains (manualThread.last initial throwFirst).shared.queue.threads = 0 := by
    decide
  omega

end Xdispatch.ManualThread
