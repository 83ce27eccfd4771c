import Xdispatch.OperationQueue.Invariant
import Xdispatch.Lib.Serial

/-!
# The operation queue is a serial queue

Read as what it has appended, started and is running, the operation queue takes
the steps of `Serial` and no others, in any run: jobs may throw, and jobs may
be queued before `attach` or after `detach`. That every job is reached takes
more: no job throws, and none is pushed on an empty list while the queue is not
attached. Then the list is never without a drain.
-/

namespace Xdispatch.OperationQueue

/-! ## Refinement -/

def abstraction (c : Config Shared Thread) : Serial Job :=
  ⟨c.shared.appended, c.shared.started, Family.total Thread.running c.threads⟩

/-- Outside of `drainProcess` and `drainRunning` a step at most appends. -/
theorem holding_refines (s : Shared) (p : Critical) :
    (p.act s).1.started = s.started ∧ (∃ job : Option Job, (p.act s).1.appended = s.appended ++ job.toList) ∧
      (p.act s).2.1.running = 0 ∧ ∀ x ∈ (p.act s).2.2, x.running = 0 := by
  have hnew : ∀ x ∈ s.notifyUnsafe, x.running = 0 := by
    intro x hx
    unfold Shared.notifyUnsafe at hx
    split at hx
    · cases List.mem_singleton.mp hx
      rfl
    · cases hx
  cases p with
  | asyncPush job => exact ⟨rfl, ⟨job, rfl⟩, rfl, by simp [Critical.act]⟩
  | detachPush => exact ⟨rfl, ⟨some .detach, rfl⟩, rfl, by simp [Critical.act]⟩
  | asyncNotify | detachNotify | drainYield => exact ⟨rfl, ⟨none, by simp [Critical.act]⟩, rfl, hnew⟩
  | detachEmpty =>
    simp only [Critical.act]
    split <;> exact ⟨rfl, ⟨none, by simp [Shared.request]⟩, rfl, by simp⟩
  | drainSwap r =>
    simp only [Critical.act, Shared.swapFront]
    split <;> exact ⟨rfl, ⟨none, by simp⟩, rfl, by simp⟩
  | _ => exact ⟨rfl, ⟨none, by simp [Critical.act, Shared.request, Shared.release, Shared.deferredPop]⟩, rfl,
      by simp [Critical.act]⟩

theorem Inv.running {c : Config Shared Thread} (h : Inv c) {i : Nat} {t : Thread} (ht : c.threads[i]? = some t)
    (hd : t.drains ≠ 0) : Family.total Thread.running c.threads = t.running :=
  Family.total_eq_of_others Thread.running ht fun _ _ hij hx => running_eq_zero (h.alone ht hd hij hx)

theorem act_refines {c : Config Shared Thread} (hI : Inv c) {i : Nat} {t t' : Thread} {e : Choice} {s' : Shared}
    {new : List Thread} (ht : c.threads[i]? = some t) (ha : act c.shared t e = some (s', t', new)) :
    Relation.ReflTransGen Serial.Step (abstraction c) (abstraction ⟨s', c.threads.set i t' ++ new⟩) := by
  have same : ∀ {s' : Shared} {t' : Thread} {new : List Thread} (job : Option Job),
      s'.started = c.shared.started → s'.appended = c.shared.appended ++ job.toList → t'.running = t.running →
      (∀ x ∈ new, x.running = 0) →
      Relation.ReflTransGen Serial.Step (abstraction c) (abstraction ⟨s', c.threads.set i t' ++ new⟩) := by
    intro s' t' new job hs ha hr hnew
    have h0 : Family.total Thread.running new = 0 := by
      refine List.sum_eq_zero fun y hy => ?_
      obtain ⟨x, hx, rfl⟩ := List.mem_map.mp hy
      exact hnew x hx
    have : abstraction ⟨s', c.threads.set i t' ++ new⟩ =
        ⟨c.shared.appended ++ job.toList, c.shared.started, (abstraction c).running⟩ := by
      simp only [abstraction, hs, ha, Serial.mk.injEq, true_and]
      exact Family.total_eq_step rfl ht (by rw [hr, h0, add_zero])
    rw [this]
    cases job with
    | none => rw [Option.toList_none, List.append_nil]; exact .refl
    | some job => exact .single (.append (abstraction c) job)
  have drained : ∀ {s' : Shared} {t' : Thread}, t.drains ≠ 0 →
      abstraction ⟨s', c.threads.set i t' ++ []⟩ = ⟨s'.appended, s'.started, t'.running⟩ := by
    intro s' t' hd
    simp only [abstraction, Serial.mk.injEq, true_and]
    exact Family.total_eq_step (hI.running ht hd) ht (by rw [Family.total_nil, add_zero, add_comm])
  cases act_step ha with
  | lock hl => exact same none rfl (List.append_nil _).symm rfl (by simp)
  | skip | deadlock => exact same none rfl (List.append_nil _).symm rfl (by simp)
  | @holding p =>
    obtain ⟨hs, ⟨job, ha⟩, hr, hnew⟩ := holding_refines c.shared p
    exact same job hs ha hr hnew
  | @start job r =>
    have hd : (Thread.drainProcess (some job) r).drains ≠ 0 := by simp [Thread.drains]
    obtain ⟨pre, hpre, ho⟩ := hI.order
    cases hI.taken ht hd hpre
    rw [drained hd]
    exact .single (.start (abstraction c) job (hI.running ht hd) ⟨_, ho.symm⟩)
  | @finish job r =>
    obtain ⟨m, hm⟩ := run_eq c.shared job
    rw [drained (by simp [Thread.drains]), hm]
    exact .single (.finish (abstraction c))
  | throw =>
    rw [drained (by simp [Thread.drains])]
    exact .single (.finish (abstraction c))

/-- Every run of the queue is a run of a serial queue. -/
theorem run_refines {tr : List (Config Shared Thread × Label Choice)} {c : Config Shared Thread}
    (h : operationQueue.Run initial tr c) : Serial.Reachable (abstraction c) := by
  have := h.invariant_by (I := fun c => Inv c ∧ Serial.Reachable (abstraction c)) (C := fun _ _ => True)
    ⟨initial_inv, .refl⟩ ?_ ?_ Program.along_true
  · exact this.2
  · intro c e s' new hI _ h
    refine ⟨call_inv hI.1 h, ?_⟩
    have : abstraction ⟨s', c.threads ++ new⟩ = abstraction c := by
      cases e with
      | async job | attach | detach => cases h; simp [abstraction, Thread.running]
      | _ => cases h
    rw [this]
    exact hI.2
  · intro c i e t s' t' new hI _ ht ha
    exact ⟨act_inv hI.1 ht ha, hI.2.trans (act_refines hI.1 ht ha)⟩

/-! ## In order, one at a time -/

/-- At most one job is executing, the jobs have started in the order in which
they were appended, the others are still there, and no assertion has failed. -/
structure InOrder (c : Config Shared Thread) : Prop where
  one : (Family.total Thread.running c.threads).card ≤ 1
  started : c.shared.started <+: c.shared.appended
  kept : ∃ waiting : List Job, c.shared.appended = c.shared.started ++ waiting ∧
    (waiting : Multiset Job) = Family.total (fun t => (t.taken : Multiset Job)) c.threads +
      c.shared.jobs.filterMap id
  not_asserted : c.shared.asserted = false

/-- **In order.** In every run of the queue. -/
theorem run_inOrder {tr : List (Config Shared Thread × Label Choice)} {c : Config Shared Thread}
    (h : operationQueue.Run initial tr c) : InOrder c := by
  have hI := run_inv h
  have hS := run_refines h
  refine ⟨hS.running_le, hS.started_prefix, ?_, hI.not_asserted⟩
  obtain ⟨pre, hpre, ho⟩ := hI.order
  exact ⟨pre ++ c.shared.jobs.filterMap id, by rw [ho, List.append_assoc], by rw [hpre, Multiset.coe_add]⟩

def twoJobs : List (Label Choice) :=
  Label.call Choice.attach :: List.replicate 4 (.act 0 .step) ++
    Label.call (Choice.async (some 0)) :: List.replicate 4 (.act 1 .step) ++
    Label.call (Choice.async (some 1)) :: List.replicate 3 (.act 3 .step) ++
    List.replicate 11 (Label.act 2 Choice.step)

theorem run_inOrder_two : InOrder (operationQueue.last initial twoJobs) ∧
    (operationQueue.last initial twoJobs).shared.started = [.operation 0, .operation 1] :=
  ⟨run_inOrder (Program.run_last (by decide)), by decide⟩

/-! ## Never without a drain -/

/-- The step is not a throw, and pushes a user's job only while the queue is attached. -/
def keepsDraining (c : Config Shared Thread) : Label Choice → Bool
  | .act _ .throw => false
  | .act i _ =>
    match c.threads[i]? with
    | some (.holding (.asyncPush _)) => c.shared.isAttached
    | _ => true
  | .call _ => true

/-- A wakeup in the pool whose drain has not acquired `m_CS`, or a drain that has released it. -/
def Thread.outstanding : Thread → Nat
  | .lock .drainBegin | .lock (.drainPop _) | .lock (.unwindPop _) | .drainProcess .. | .drainRunning .. => 1
  | _ => 0

def Critical.unwinds : Critical → Bool
  | .unwindPop _ | .unwindFree => true
  | _ => false

def Thread.unwinds : Thread → Bool
  | .lock p | .holding p => p.unwinds
  | .deadlocked => true
  | _ => false

structure WakeInv (c : Config Shared Thread) : Prop where
  inv : Inv c
  drains : Family.total Thread.drains c.threads = c.shared.busy
  unwinds : ∀ t ∈ c.threads, t.unwinds = false

theorem step_drains_eq {s s' : Shared} {t t' : Thread} {e : Choice} {new : List Thread}
    (h : Step s t e s' t' new) (hf : t.Fits s.jobs) (hb : t.drains ≤ s.busy) (hn : s.notifyOperation = true)
    (hk : ∀ p, t = .holding p → p.keeps s = true) :
    t'.drains + Family.total Thread.drains new + s.busy = s'.busy + t.drains := by
  cases t with
  | holding p =>
    cases h with
    | holding => exact critical_drains hf hb hn (hk p rfl)
    | deadlock => exact Nat.add_comm _ _
  | deadlocked => cases h
  | _ => exact step_drains_of_not_holding h rfl

theorem notifyUnsafe_unwinds (s : Shared) : ∀ x ∈ s.notifyUnsafe, x.unwinds = false := by
  intro x hx
  unfold Shared.notifyUnsafe at hx
  split at hx
  · cases List.mem_singleton.mp hx
    rfl
  · cases hx

theorem step_unwinds {s s' : Shared} {t t' : Thread} {e : Choice} {new : List Thread}
    (h : Step s t e s' t' new) (he : e ≠ .throw) (ht : t.unwinds = false) :
    t'.unwinds = false ∧ ∀ x ∈ new, x.unwinds = false := by
  cases h with
  | throw => exact absurd rfl he
  | deadlock => cases ht
  | lock => exact ⟨ht, by simp⟩
  | start | skip | finish => exact ⟨rfl, by simp⟩
  | @holding p =>
    cases p with
    | asyncNotify | detachNotify | drainYield => exact ⟨rfl, notifyUnsafe_unwinds s⟩
    | unwindPop | unwindFree => cases ht
    | asyncPush | detachPush =>
      refine ⟨?_, by simp [Critical.act]⟩
      simp only [Critical.act]
      split <;> rfl
    | detachEmpty =>
      simp only [Critical.act]
      split <;> exact ⟨rfl, by simp⟩
    | drainBegin | drainPop =>
      refine ⟨?_, by simp [Critical.act]⟩
      simp only [Critical.act, drainLoop]
      split
      · rfl
      · split <;> rfl
    | _ => exact ⟨rfl, by simp [Critical.act]⟩

theorem act_wakeInv {c : Config Shared Thread} (hW : WakeInv c) {i : Nat} {t t' : Thread} {e : Choice}
    {s' : Shared} {new : List Thread} (hC : keepsDraining c (.act i e) = true) (ht : c.threads[i]? = some t)
    (ha : act c.shared t e = some (s', t', new)) : WakeInv ⟨s', c.threads.set i t' ++ new⟩ := by
  have hI := hW.inv
  have h := act_step ha
  have hm := Family.mem_of_get ht
  have he : e ≠ .throw := by
    rintro rfl
    cases hC
  have hk : ∀ p, t = .holding p → p.keeps c.shared = true := by
    rintro p rfl
    cases p with
    | asyncPush job =>
      cases e with
      | throw => exact absurd rfl he
      | _ => simpa [keepsDraining, ht, Critical.keeps] using hC
    | unwindPop r => exact absurd (hW.unwinds _ hm) (by simp [Thread.unwinds, Critical.unwinds])
    | _ => rfl
  have hd : t.drains ≤ c.shared.busy := hW.drains ▸ Family.le_total _ hm
  have heq := step_drains_eq h (hI.fits t hm) hd hI.notifyOperation hk
  obtain ⟨hu, hnew⟩ := step_unwinds h he (hW.unwinds t hm)
  exact ⟨act_inv hI ht ha, Family.total_eq_step hW.drains ht (by simp only []; omega), Family.forall_step hW.unwinds hu hnew⟩

theorem call_wakeInv {c : Config Shared Thread} (hW : WakeInv c) {e : Choice} {s' : Shared} {new : List Thread}
    (h : call c.shared e = some (s', new)) : WakeInv ⟨s', c.threads ++ new⟩ := by
  refine ⟨call_inv hW.inv h, ?_, ?_⟩
  · cases e with
    | async job | attach | detach => cases h; simpa [Thread.drains, Critical.drains] using hW.drains
    | _ => cases h
  · cases e with
    | async job | attach | detach =>
      cases h
      exact Family.forall_append hW.unwinds (by simp [Thread.unwinds, Critical.unwinds])
    | _ => cases h

theorem run_wakeInv {tr : List (Config Shared Thread × Label Choice)} {c : Config Shared Thread}
    (h : operationQueue.Run initial tr c) (hC : Program.Along (fun c l => keepsDraining c l = true) tr) :
    WakeInv c :=
  h.invariant_by ⟨initial_inv, rfl, by simp [initial]⟩ (fun _ _ _ _ hW _ h => call_wakeInv hW h)
    (fun _ _ _ _ _ _ _ hW hC ht h => act_wakeInv hW hC ht h) hC

theorem Inv.outstanding {c : Config Shared Thread} (h : Inv c) (hl : c.shared.locked = false) :
    Family.total Thread.outstanding c.threads = Family.total Thread.drains c.threads := by
  refine Family.total_congr fun t ht => ?_
  have h0 : t.holds = 0 := by
    have := h.mutex
    rw [hl, Bool.toNat_false, Family.total_eq_zero] at this
    exact this t ht
  have hf := h.fits t ht
  cases t with
  | holding p | deadlocked => cases h0
  | lock p => cases p <;> first | rfl | cases hf.2
  | _ => rfl

/-- **Never without a drain.** While `m_CS` is free, one drain is outstanding if
there are jobs in the list and none if there are not. -/
theorem run_woken {tr : List (Config Shared Thread × Label Choice)} {c : Config Shared Thread}
    (h : operationQueue.Run initial tr c) (hC : Program.Along (fun c l => keepsDraining c l = true) tr)
    (hl : c.shared.locked = false) :
    Family.total Thread.outstanding c.threads = if c.shared.jobs = [] then 0 else 1 := by
  have hW := run_wakeInv h hC
  rw [hW.inv.outstanding hl, hW.drains]
  by_cases hj : c.shared.jobs = []
  · simp [hj, Shared.busy]
  · simp [hj, busy_of_ne hj]

def detachWhileDraining : List (Label Choice) :=
  Label.call Choice.attach :: List.replicate 4 (.act 0 .step) ++
    Label.call (Choice.async (some 0)) :: List.replicate 4 (.act 1 .step) ++
    Label.call (Choice.async (some 1)) :: List.replicate 3 (.act 3 .step) ++
    List.replicate 5 (Label.act 2 Choice.step) ++ Label.call Choice.detach :: List.replicate 5 (.act 4 .step)

theorem run_woken_detach :
    Family.total Thread.outstanding (operationQueue.last initial detachWhileDraining).threads = 1 ∧
    (operationQueue.last initial detachWhileDraining).shared.jobs =
      [none, some (.operation 1), some .detach] := by
  refine ⟨?_, by decide⟩
  rw [run_woken (Program.run_last (l := detachWhileDraining) (by decide)) (by decide) (by decide)]
  exact if_neg (by decide)

end Xdispatch.OperationQueue
