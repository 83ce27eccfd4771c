import Xdispatch.ManualThread.Unwinding

/-!
# Cancelling the manual thread

`run` tests `m_cancelled` before it locks the mutex, and waits without a predicate.
A `cancel` that gets the mutex between the test and a wait notifies nobody.
-/

namespace Xdispatch.OperationQueue

/-- Bounds the steps of a drain, which a throwing job may end early. -/
def Thread.toGo : Thread → Nat
  | .lock (.unwindPop _) => 8
  | .holding (.unwindPop _) => 7
  | .holding .unwindFree => 9
  | t => t.work

section
variable {s s' : Shared} {t t' : Thread} {new : List Thread}

theorem toGo_of_not_unwinds (hu : t.unwinds = false) : t.toGo = t.work := by
  cases t with
  | lock p | holding p =>
    cases p with
    | unwindPop | unwindFree => cases hu
    | _ => rfl
  | _ => rfl

theorem drain_goes (ht : t.ofDrain = true) (hr : t ≠ .returned) (hd : t ≠ .deadlocked)
    (hl : ∀ p, t = .lock p → s.locked = false) (hf : t.Fits s.jobs) : ∃ s' t' new, act s t .step = some (s', t', new) ∧
      40 * s'.jobs.length + t'.toGo < 40 * s.jobs.length + t.toGo := by
  by_cases hu : t.unwinds = true
  · cases t with
    | lock p =>
      cases p with
      | unwindPop r =>
        refine ⟨_, _, _, by rw [act, hl _ rfl]; rfl, ?_⟩
        simp [Thread.toGo]
      | unwindFree => cases hf.2
      | _ => cases hu
    | holding p =>
      cases p with
      | unwindPop r =>
        have hlen : 1 ≤ s.jobs.length := Nat.le_trans hf.1 hf.2.1
        refine ⟨_, _, _, rfl, ?_⟩
        change 40 * s.jobs.tail.length + 9 < 40 * s.jobs.length + 7
        rw [List.length_tail]
        omega
      | unwindFree => exact ⟨_, _, _, rfl, Nat.lt_succ_self _⟩
      | _ => cases hu
    | deadlocked => exact absurd rfl hd
    | _ => cases hu
  · have hu : t.unwinds = false := by simpa using hu
    obtain ⟨s', t', new, ha, hlt⟩ := drain_step ht hu hr hl hf
    refine ⟨s', t', new, ha, ?_⟩
    rw [toGo_of_not_unwinds hu, toGo_of_not_unwinds (step_unwinds (act_step ha) (by simp) hu).1]
    omega

theorem throw_goes (ha : act s t .throw = some (s', t', new)) :
    40 * s'.jobs.length + t'.toGo < 40 * s.jobs.length + t.toGo := by
  cases act_step ha
  simp [Thread.toGo, Thread.work]

end

end Xdispatch.OperationQueue

namespace Xdispatch.ManualThread

open OperationQueue (operationQueue)

/-- `cancel` has returned, and `run` waits for a notification that is yet to come. -/
def Blocked (c : Config Shared Driver) : Prop :=
  c.shared.cancelled = true ∧ driver c = .waiting c.shared.notifications

/-- `run` is about to wait. -/
def toWait (c : Config Shared Driver) : Prop := driver c = .take ∧ c.shared.queuedOps = []

instance (c : Config Shared Driver) : Decidable (toWait c) := inferInstanceAs (Decidable (_ ∧ _))

/-- `cancel` does not come when `run` is about to wait. -/
def cancelsInTime (c : Config Shared Driver) : Label Choice → Bool
  | .call .cancel => !toWait c
  | _ => true

/-- The calls of `async` have returned, those that the destructor of a job makes as well. -/
structure Quiet (s : Shared) : Prop where
  calls : CallsDone s
  not_deadlocked : ∀ t ∈ s.queue.threads, t ≠ .deadlocked

/-- What `cancel` is for: when it has returned, `run` does not block, but comes to its end with what it has taken,
if nothing more is submitted. -/
structure Cancels (c : Config Shared Driver) : Prop where
  not_blocked : ¬ Blocked c
  ends : c.shared.cancelled = true → Quiet c.shared →
    manualThread.Ends 0 (fun e => e = .step ∨ e = .throw) (driver · = .outside) c

/-- Bounds the steps of a `run` that is cancelled. -/
def Driver.toGo (s : Shared) : Driver → Nat
  | .outside => 0
  | .test => 1
  | .take | .waiting _ => 40 * s.queue.shared.jobs.length + 18 * s.queuedOps.length + 3
  | .next ops => 40 * s.queue.shared.jobs.length + 18 * ops.length + 2
  | .running (.other _) ops _ => 40 * s.queue.shared.jobs.length + 18 * ops.length + 3
  | .running (.drain n) ops _ => 40 * s.queue.shared.jobs.length + 18 * ops.length + 3 +
      (s.queue.threads[n]?.map OperationQueue.Thread.toGo).getD 0

section
variable {s s' : Shared} {d d' : Driver} {e : Choice}

/-- `run` has been cancelled in time. -/
structure Ending (s : Shared) (d : Driver) : Prop where
  inv : Inv s d
  within : d ≠ .outside
  quiet : Quiet s
  cancelled : s.cancelled = true
  awake : d ≠ .waiting s.notifications
  not_toWait : ¬ (d = .take ∧ s.queuedOps = [])

theorem current_goes (hE : Ending s d) {n : Nat} (hd : d.current = some n) (hr : s.returned n = false) :
    ∃ t σ t' new, s.queue.threads[n]? = some t ∧ OperationQueue.act s.queue.shared t .step = some (σ, t', new) ∧
      40 * σ.jobs.length + t'.toGo < 40 * s.queue.shared.jobs.length + t.toGo := by
  obtain ⟨t, ht, hod⟩ := hE.inv.current n hd
  have hne : t ≠ .returned := by
    rintro rfl
    rw [returned_iff.mpr ht] at hr
    cases hr
  have hl : ∀ p, t = .lock p → s.queue.shared.locked = false := by
    rintro p rfl
    refine unlocked hE.inv hE.quiet.calls fun m x hm hx => ?_
    cases hd.symm.trans hm
    cases ht.symm.trans hx
    rfl
  obtain ⟨σ, t', new, ha, hlt⟩ := OperationQueue.drain_goes hod hne
    (hE.quiet.not_deadlocked t (Family.mem_of_get ht)) hl (hE.inv.queue.fits t (Family.mem_of_get ht))
  exact ⟨t, σ, t', new, ht, ha, hlt⟩

theorem Quiet.advance (hQ : Quiet s) (hI : Inv s d) {n : Nat} {e : OperationQueue.Choice} (h : s.advance n e = some s')
    (hn : n ∈ s.wakeups) (he : ∀ job, e ≠ .async job) : Quiet s' :=
  ⟨hQ.calls.advance h hn, advance_not_deadlocked hI h he hQ.not_deadlocked⟩

theorem advance_toGo {n : Nat} {ops : List Work} {thrown thrown' : Bool} {e : OperationQueue.Choice}
    (he : e = .step ∧ Ending s (.running (.drain n) ops thrown) ∧ s.returned n = false ∨ e = .throw)
    (h : s.advance n e = some s') :
    Driver.toGo s' (.running (.drain n) ops thrown') < Driver.toGo s (.running (.drain n) ops thrown) := by
  obtain ⟨t, σ, t', new, ht, ha, -, rfl⟩ := advance_cases h
  have hlt : 40 * σ.jobs.length + t'.toGo < 40 * s.queue.shared.jobs.length + t.toGo := by
    rcases he with ⟨rfl, hE, hr⟩ | rfl
    · obtain ⟨x, σ', x', new', hx, ha', hlt⟩ := current_goes hE (n := n) rfl hr
      cases ht.symm.trans hx
      cases ha.symm.trans ha'
      exact hlt
    · exact OperationQueue.throw_goes ha
  have hget := Family.get_step ht t' new
  simp only [Driver.toGo, hget, ht, Option.map_some, Option.getD_some]
  omega

theorem driver_goes (hE : Ending s d) : ∃ s' d', d.act s .step = some (s', d') := by
  cases d with
  | outside => exact absurd rfl hE.within
  | test => exact ⟨_, _, rfl⟩
  | take => exact ⟨_, _, rfl⟩
  | waiting seen =>
    have hne : s.notifications ≠ seen := fun h => hE.awake (by rw [h])
    exact ⟨_, _, if_neg hne⟩
  | next ops => cases ops <;> exact ⟨_, _, rfl⟩
  | running op ops thrown =>
    cases op with
    | other id => exact ⟨_, _, rfl⟩
    | drain n =>
      cases hr : s.returned n with
      | true => exact ⟨_, _, by rw [Driver.act, if_pos hr]⟩
      | false =>
        obtain ⟨t, σ, t', new, ht, ha, -⟩ := current_goes hE (n := n) rfl hr
        have hnext := Program.act_next (P := operationQueue) ht ha
        exact ⟨_, _, by rw [Driver.act, if_neg (by simp [hr]), Shared.advance, hnext]; rfl⟩

/-- A step of the driver ends `run`, or is one of a batch, which is never followed by a wait. -/
theorem step_toGo (hE : Ending s d) (he : e = .step ∨ e = .throw) (h : Step s d e s' d') :
    d' = .outside ∨ d'.toGo s' < d.toGo s ∧ Ending s' d' := by
  have hQ := hE.quiet
  have hc := hE.cancelled
  have hI' := hE.inv.step h
  suffices hs : d' = .outside ∨ d'.toGo s' < d.toGo s ∧ Quiet s' ∧ s'.cancelled = true ∧
      (∀ seen, d' ≠ .waiting seen) ∧ d' ≠ .take by
    by_cases hd : d' = .outside
    · exact Or.inl hd
    · obtain ⟨hlt, hQ', hc', hw, ht⟩ := hs.resolve_left hd
      exact Or.inr ⟨hlt, hI', hd, hQ', hc', hw _, fun h => ht h.1⟩
  cases h with
  | exec => exact absurd rfl hE.within
  | stop | throw | leave => exact Or.inl rfl
  | go hn =>
    rw [hc] at hn
    cases hn
  | wait hq => exact absurd ⟨rfl, hq⟩ hE.not_toWait
  | swap hd =>
    refine Or.inr ⟨?_, ⟨hQ.calls, hQ.not_deadlocked⟩, hc, by simp [Shared.swap], by simp [Shared.swap]⟩
    rcases hd with ⟨rfl, -⟩ | ⟨seen, rfl⟩ <;> simp [Driver.toGo, Shared.swap]
  | loop => exact Or.inr ⟨by simp [Driver.toGo], hQ, hc, by simp, by simp⟩
  | @begin op ops =>
    refine Or.inr ⟨?_, hQ, hc, by simp, by simp⟩
    cases op with
    | other id =>
      simp only [Driver.toGo, List.length_cons]
      omega
    | drain n =>
      have ht := hE.inv.batch_posted (n := n) List.mem_cons_self
      simp only [Driver.toGo, ht, List.length_cons]
      change _ + 3 + 14 < _
      omega
  | other => exact Or.inr ⟨by simp [Driver.toGo], hQ, hc, by simp, by simp⟩
  | drained hr =>
    refine Or.inr ⟨?_, hQ, hc, by simp, by simp⟩
    simp only [Driver.toGo]
    omega
  | @advance n ops thrown _ hr hs =>
    have hn := hE.inv.known n (mem_held.mpr (Or.inl rfl))
    refine Or.inr ⟨advance_toGo (Or.inl ⟨rfl, hE, hr⟩) hs, hQ.advance hE.inv hs hn (by simp), ?_, by simp, by simp⟩
    obtain ⟨t, σ, t', new, -, -, -, rfl⟩ := advance_cases hs
    exact hc
  | @unwind n ops thrown _ hs =>
    have hn := hE.inv.known n (mem_held.mpr (Or.inl rfl))
    refine Or.inr ⟨advance_toGo (Or.inr rfl) hs, hQ.advance hE.inv hs hn (by simp), ?_, by simp, by simp⟩
    obtain ⟨t, σ, t', new, -, -, -, rfl⟩ := advance_cases hs
    exact hc
  | deadlock => rcases he with he | he <;> cases he

end

section
variable {c c' : Config Shared Driver}

/-- What has been cancelled does not wait, and is not about to. -/
structure InTime (c : Config Shared Driver) : Prop where
  not_blocked : ¬ Blocked c
  not_toWait : c.shared.cancelled = true → ¬ toWait c

theorem InTime.cancels (hR : RunInv c) (hT : InTime c) : Cancels c := by
  refine ⟨hT.not_blocked, fun hc hQ => ?_⟩
  by_cases hd : driver c = .outside
  · exact .done hd
  refine Program.ends_of_rank (I := fun c => RunInv c ∧ Ending c.shared (driver c)) (fun c => (driver c).toGo c.shared)
    (fun c hI => ?_) (fun c e c' hI he hn => ?_) _ c (Nat.lt_succ_self _)
    ⟨hR, hR.inv, hd, hQ, hc, fun hw => hT.not_blocked ⟨hc, hw⟩, hT.not_toWait hc⟩
  · obtain ⟨s', d', ha⟩ := driver_goes hI.2
    have ht : c.threads[0]? = some (driver c) := by
      rw [hI.1.threads]
      rfl
    have ha : manualThread.act c.shared (driver c) .step = some (s', d', []) := by simp [manualThread, ha]
    exact Or.inr ⟨.step, _, by simp, Program.act_next ht ha⟩
  · obtain ⟨e', he', hs, -⟩ | ⟨e', he', -⟩ := next_cases hI.1 hn
    case inr => cases he'
    cases he'
    rcases step_toGo hI.2 he hs with ho | ⟨hlt, hE⟩
    · exact Or.inl ho
    · exact Or.inr ⟨⟨next_inv hI.1 hn, hE⟩, hlt⟩

/-- A wait is for a notification that comes after those that have been. -/
def Seen (c : Config Shared Driver) : Prop := ∀ seen, driver c = .waiting seen → seen ≤ c.shared.notifications

theorem Called.notifies {s s' : Shared} {e : Choice} (h : Called s e s') :
    s.notifications ≤ s'.notifications ∧ (s'.cancelled = s.cancelled ∨ s.notifications < s'.notifications) := by
  cases h with
  | async => exact ⟨Nat.le_refl _, Or.inl rfl⟩
  | caller _ hs =>
    obtain ⟨t, σ, t', new, -, -, -, rfl⟩ := advance_cases hs
    exact ⟨Nat.le_add_right _ _, Or.inl rfl⟩
  | execute => exact ⟨Nat.le_add_right _ _, Or.inl rfl⟩
  | cancel => exact ⟨Nat.le_add_right _ _, Or.inr (Nat.lt_succ_self _)⟩

theorem step_waiting {s s' : Shared} {d d' : Driver} {e : Choice} (h : Step s d e s' d') :
    (∀ seen, d' ≠ .waiting seen) ∧ ¬ (d = .take ∧ s.queuedOps = []) ∨
      d = .take ∧ s.queuedOps = [] ∧ e = .step ∧ s' = s ∧ d' = .waiting s.notifications := by
  cases h with
  | wait hq => exact Or.inr ⟨rfl, hq, rfl, rfl, rfl⟩
  | swap hd =>
    refine Or.inl ⟨nofun, fun h => ?_⟩
    rcases hd with ⟨-, hq⟩ | ⟨seen, rfl⟩
    · exact hq h.2
    · cases h.1
  | _ => exact Or.inl ⟨nofun, fun h => nomatch h.1⟩

theorem next_seen {l : Label Choice} (hR : RunInv c) (hS : Seen c) (h : manualThread.next c l = some c') : Seen c' := by
  intro seen hd
  rcases next_cases hR h with ⟨e, rfl, hs, -⟩ | ⟨e, rfl, hc, ht⟩
  · rcases step_waiting hs with ⟨hw, -⟩ | ⟨-, -, -, hs, hd'⟩
    · exact absurd hd (hw seen)
    · rw [hd] at hd'
      cases hd'
      rw [hs]
  · rw [driver_congr ht] at hd
    exact Nat.le_trans (hS seen hd) hc.notifies.1

theorem step_take {s s' : Shared} {e : Choice} {d : Driver} (h : Step s d e s' .take) : s'.cancelled = false := by
  generalize hd : Driver.take = d' at h
  cases h with
  | go hc => exact hc
  | swap => cases hd
  | _ => cases hd

theorem Called.toWait {s s' : Shared} {e : Choice} (h : Called s e s') (hq : s'.queuedOps = []) :
    s.queuedOps = [] ∧ (e = .cancel ∨ s'.cancelled = s.cancelled) := by
  cases h with
  | async => exact ⟨hq, Or.inr rfl⟩
  | caller _ hs =>
    obtain ⟨t, σ, t', new, -, -, -, rfl⟩ := advance_cases hs
    exact ⟨(List.append_eq_nil_iff.mp hq).1, Or.inr rfl⟩
  | execute => exact ⟨(List.append_eq_nil_iff.mp hq).1, Or.inr rfl⟩
  | cancel => exact ⟨hq, Or.inl rfl⟩

theorem next_inTime {l : Label Choice} (hR : RunInv c) (hS : Seen c) (hT : InTime c) (hC : cancelsInTime c l = true)
    (h : manualThread.next c l = some c') : InTime c' := by
  rcases next_cases hR h with ⟨e, rfl, hs, -⟩ | ⟨e, rfl, hc, ht⟩
  · refine ⟨fun hb => ?_, fun hcan htake => ?_⟩
    · rcases step_waiting hs with ⟨hw, -⟩ | ⟨hd, hq, -, hs', -⟩
      · exact hw _ hb.2
      · exact hT.not_toWait (hs' ▸ hb.1) ⟨hd, hq⟩
    · -- the loop goes on when it has found that it is not cancelled
      rw [htake.1] at hs
      rw [step_take hs] at hcan
      cases hcan
  · have hd := driver_congr ht
    obtain ⟨hle, hcase⟩ := hc.notifies
    refine ⟨fun hb => ?_, fun hcan htake => ?_⟩
    · obtain ⟨hcan, hw⟩ := hb
      rw [hd] at hw
      have := hS _ hw
      have heq : c'.shared.notifications = c.shared.notifications := by omega
      rcases hcase with hcan' | hlt
      · exact hT.not_blocked ⟨hcan' ▸ hcan, heq ▸ hw⟩
      · omega
    · obtain ⟨hq, hcase⟩ := hc.toWait htake.2
      have hw : toWait c := ⟨hd ▸ htake.1, hq⟩
      rcases hcase with rfl | hcan'
      · simp [cancelsInTime, hw] at hC
      · exact hT.not_toWait (hcan' ▸ hcan) hw

end

/-- While no `cancel` comes between the test of the loop and a wait, every one ends `run`. -/
theorem run_cancels {tr : List (Config Shared Driver × Label Choice)} {c : Config Shared Driver}
    (h : manualThread.Run initial tr c) (hC : Program.Along (fun c l => cancelsInTime c l = true) tr) : Cancels c := by
  have hI : (RunInv c ∧ Seen c) ∧ InTime c := by
    refine h.invariant (I := fun c => (RunInv c ∧ Seen c) ∧ InTime c) (C := fun c l => cancelsInTime c l = true)
       ⟨⟨initial_inv, nofun⟩, nofun, nofun⟩
      (fun c l c' hI hC hn => ?_) hC
    exact ⟨⟨next_inv hI.1.1 hn, next_seen hI.1.1 hI.1.2 hn⟩, next_inTime hI.1.1 hI.1.2 hI.2 hC hn⟩
  exact hI.2.cancels hI.1.1

/-- `cancel` comes between the test of the loop and the wait. -/
def beforeWait : List (Label Choice) :=
  [.act 0 .exec, .act 0 .step, .call .cancel, .act 0 .step]

theorem beforeWait_blocked : ∃ tr c, manualThread.Run initial tr c ∧ Blocked c :=
  ⟨_, _, Program.run_last (l := beforeWait) (by decide), by decide, by decide⟩

/-- `cancel` comes during the wait. -/
def duringWait : List (Label Choice) :=
  [.act 0 .exec, .act 0 .step, .act 0 .step, .call .cancel, .act 0 .step]

theorem run_cancels_duringWait :
    Cancels (manualThread.last initial duringWait) ∧
      driver (manualThread.last initial duringWait) = .next [] ∧
      (manualThread.last initial duringWait).shared.cancelled = true :=
  ⟨run_cancels (Program.run_last (by decide)) (by decide), by decide, by decide⟩

end Xdispatch.ManualThread
