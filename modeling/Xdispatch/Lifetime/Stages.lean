import Xdispatch.Lifetime.Model
import Xdispatch.OperationQueue.Serial

/-!
# The stages of a detach

While the queue is in use nothing detaches it. After the last use there is one
call of `detach`; it ends with the request to the manager, or with a job that
posts the request. That job is the last of the queue, so that nothing is left
when the request is there except the rest of one drain.
-/

namespace Xdispatch.OperationQueue

/-! ## Active drains -/

/-- Has entered `drain_scope` and not left it. -/
def Critical.scoped : Critical → Nat
  | .drainSwap _ | .drainUnlock .. | .drainPop _ | .drainYield | .unwindPop _ | .unwindFree | .drainEnd => 1
  | _ => 0

def Thread.scoped : Thread → Nat
  | .lock p | .holding p => p.scoped
  | .drainProcess .. | .drainRunning .. | .deadlocked => 1
  | .returned => 0

section
variable {c : Config Shared Thread} {s s' : Shared} {t t' : Thread} {e : Choice} {new : List Thread}

theorem notifyUnsafe_scoped (s : Shared) : Family.total Thread.scoped s.notifyUnsafe = 0 := by
  unfold Shared.notifyUnsafe
  split <;> rfl

theorem drainLoop_scoped (jobs : List (Option Job)) (r : Nat) : (drainLoop jobs r).scoped = 1 := by
  unfold drainLoop
  split
  · rfl
  · split <;> rfl

theorem step_scoped (h : Step s t e s' t' new) (hb : t = .holding .drainBegin → s.activeDrain = false)
    (ht : t.scoped ≤ s.activeDrain.toNat) :
    s'.activeDrain.toNat + t.scoped = s.activeDrain.toNat + t'.scoped + Family.total Thread.scoped new := by
  cases h with
  | lock | start | skip | throw | deadlock => rfl
  | @finish job =>
    obtain ⟨m, hm⟩ := run_eq s job
    rw [hm]
    rfl
  | @holding p =>
    cases p with
    | asyncNotify | detachNotify | drainYield =>
      simp only [Critical.act, notifyUnsafe_scoped]
      rfl
    | asyncPush | detachPush => simp only [Critical.act]; split <;> rfl
    | detachEmpty => simp only [Critical.act]; split <;> rfl
    | drainBegin =>
      simp only [Critical.act, Thread.scoped, drainLoop_scoped, hb rfl]
      rfl
    | drainSwap =>
      simp only [Critical.act, Shared.swapFront]
      split <;> rfl
    | drainPop => simp only [Critical.act, Thread.scoped, drainLoop_scoped]; rfl
    | drainEnd =>
      change 1 ≤ s.activeDrain.toNat at ht
      change 0 + 1 = s.activeDrain.toNat + 0 + 0
      have := Bool.toNat_le s.activeDrain
      omega
    | _ => rfl

/-- `m_active_drain` is set while a drain is within its scope, and there is one at most. -/
theorem run_scoped {tr : List (Config Shared Thread × Label Choice)} (h : operationQueue.Run initial tr c) :
    Family.total Thread.scoped c.threads = c.shared.activeDrain.toNat := by
  have := h.invariant_by (I := fun c => Inv c ∧ Family.total Thread.scoped c.threads = c.shared.activeDrain.toNat)
    (C := fun _ _ => True) ⟨initial_inv, rfl⟩ ?_ ?_ Program.along_true
  · exact this.2
  · intro c e s' new hI _ h
    refine ⟨call_inv hI.1 h, ?_⟩
    cases e with
    | async | attach | detach =>
      cases h
      simpa [Thread.scoped, Critical.scoped] using hI.2
    | _ => cases h
  · intro c i e t s' t' new hI _ ht ha
    have hstep := act_step ha
    refine ⟨act_inv hI.1 ht ha, Family.total_eq_step hI.2 ht
      (step_scoped hstep ?_ (hI.2 ▸ Family.le_total _ (Family.mem_of_get ht)))⟩
    rintro rfl
    apply Bool.eq_false_of_not_eq_true
    intro hd
    have h1 : 0 < Family.total Thread.scoped c.threads := by
      rw [hI.2, hd]
      exact Nat.one_pos
    obtain ⟨u, hu, hpos⟩ := Family.exists_of_total_pos h1
    obtain ⟨j, hj⟩ := List.mem_iff_getElem?.mp hu
    have hij : j ≠ i := by
      rintro rfl
      cases ht.symm.trans hj
      exact absurd hpos (Nat.lt_irrefl 0)
    have hd := hI.1.alone ht (by simp [Thread.drains, Critical.drains]) hij hj
    -- it would be at the end of its scope, with `m_CS`
    have hu : u.holds = 1 := by
      have hf := hI.1.fits u hu
      cases u with
      | lock p => cases p <;> first | exact absurd hpos (Nat.lt_irrefl 0) | exact absurd hd Nat.one_ne_zero | cases hf.2
      | holding p | deadlocked => rfl
      | returned => exact absurd hpos (Nat.lt_irrefl 0)
      | _ => cases hd
    have h2 := Family.le_total_of_ne Thread.holds ht hj (Ne.symm hij)
    rw [hI.1.mutex] at h2
    have h3 := Bool.toNat_le c.shared.locked
    rw [hu] at h2
    change 1 + 1 ≤ _ at h2
    omega

end

/-! ## Stages -/

/-- What a thread is for a detach: `call` is an `async`, `detaching` a `detach` that has not
decided yet, and `carries` has the job in hand that `detach` queues. -/
inductive Kind where
  | call
  | detaching
  | closing
  | carries
  | other
  | attach
  deriving DecidableEq

def Critical.kind : Critical → Kind
  | .asyncPush (some .detach) | .attachManager | .attachSet => .attach
  | .asyncPush _ | .asyncNotify => .call
  | .detachEmpty | .detachPush => .detaching
  | .detachNotify | .detachReset => .closing
  | .drainUnlock (some .detach) _ => .carries
  | _ => .other

def Thread.kind : Thread → Kind
  | .lock p | .holding p => p.kind
  | .drainProcess (some .detach) _ | .drainRunning .detach _ => .carries
  | _ => .other

def Thread.detaching (t : Thread) : Nat := if t.kind = .detaching then 1 else 0

def Critical.ends : Critical → Bool
  | .drainPop r => r == 1
  | .unwindFree | .drainEnd | .unlock | .detachReset => true
  | _ => false

/-- A thread that is left when the request to detach has been posted. -/
def Thread.ends : Thread → Bool
  | .lock (.drainPop r) => r == 1
  | .holding p => p.ends
  | .deadlocked | .returned => true
  | _ => false

structure Open (c : Config Shared Thread) : Prop where
  manager : c.shared.manager = [.attach]
  attached : c.shared.isAttached = true
  jobs : some .detach ∉ c.shared.jobs
  kinds : ∀ t ∈ c.threads, t.kind = .call ∨ t.kind = .other

structure Detaching (c : Config Shared Thread) : Prop where
  manager : c.shared.manager = [.attach]
  jobs : some .detach ∉ c.shared.jobs
  kinds : ∀ t ∈ c.threads, t.kind = .detaching ∨ t.kind = .other
  one : Family.total Thread.detaching c.threads = 1

/-- The last job is the one that detaches, or this is in hand. -/
structure Closing (c : Config Shared Thread) : Prop where
  manager : c.shared.manager = [.attach]
  last : ∀ pre post, c.shared.jobs = pre ++ some .detach :: post → post = []
  kinds : ∀ t ∈ c.threads, t.kind = .closing ∨ t.kind = .carries ∧ c.shared.jobs = [none] ∨ t.kind = .other

structure Closed (c : Config Shared Thread) : Prop where
  manager : c.shared.manager = [.attach, .detach]
  jobs : c.shared.jobs = [] ∨ c.shared.jobs = [none]
  ends : ∀ t ∈ c.threads, t.ends = true

section
variable {c c' : Config Shared Thread} {s s' : Shared} {t t' : Thread} {e : Choice} {new : List Thread} {i : Nat}

theorem notifyUnsafe_kind (s : Shared) : ∀ x ∈ s.notifyUnsafe, x.kind = .other := by
  intro x hx
  unfold Shared.notifyUnsafe at hx
  split at hx
  · cases List.mem_singleton.mp hx
    rfl
  · cases hx

theorem drainLoop_kind (jobs : List (Option Job)) (r : Nat) : (drainLoop jobs r).kind = .other := by
  unfold drainLoop
  split
  · rfl
  · split <;> rfl

theorem step_other (h : Step s t .step s' t' new) (hk : t.kind = .other) :
    s'.manager = s.manager ∧ s'.isAttached = s.isAttached ∧ (∀ x ∈ new, x.kind = .other) ∧
      (s'.jobs = s.jobs ∧ t'.kind = .other ∨ s'.jobs = s.jobs.tail ∧ t'.kind = .other ∧ t.drains = 1 ∨
        ∃ job rest, s.jobs = job :: rest ∧ s'.jobs = none :: rest ∧
          t'.kind = if job = some .detach then .carries else .other) := by
  cases h with
  | lock => exact ⟨rfl, rfl, by simp, Or.inl ⟨rfl, hk⟩⟩
  | skip => exact ⟨rfl, rfl, by simp, Or.inl ⟨rfl, rfl⟩⟩
  | @start job r | @finish job r =>
    cases job with
    | operation x => exact ⟨rfl, rfl, by simp, Or.inl ⟨rfl, rfl⟩⟩
    | detach => cases hk
  | @holding p =>
    cases p with
    | drainSwap r =>
      cases hj : s.jobs with
      | nil =>
        have hs : s.swapFront = ({ s with asserted := true }, none) := by simp [Shared.swapFront, hj]
        simp only [Critical.act, hs]
        exact ⟨trivial, trivial, by simp, Or.inl ⟨hj, rfl⟩⟩
      | cons job rest =>
        simp only [Critical.act, swapFront_cons hj]
        refine ⟨trivial, trivial, by simp, Or.inr (Or.inr ⟨job, rest, rfl, rfl, ?_⟩)⟩
        rcases job with _ | _ | _ <;> rfl
    | drainPop r => exact ⟨rfl, rfl, by simp [Critical.act], Or.inr (Or.inl ⟨rfl, drainLoop_kind _ _, rfl⟩)⟩
    | unwindPop r => exact ⟨rfl, rfl, by simp [Critical.act], Or.inr (Or.inl ⟨rfl, rfl, rfl⟩)⟩
    | drainBegin => exact ⟨rfl, rfl, by simp [Critical.act], Or.inl ⟨rfl, drainLoop_kind _ _⟩⟩
    | drainYield => exact ⟨rfl, rfl, notifyUnsafe_kind s, Or.inl ⟨rfl, rfl⟩⟩
    | drainUnlock job r =>
      refine ⟨rfl, rfl, by simp [Critical.act], Or.inl ⟨rfl, ?_⟩⟩
      rcases job with _ | _ | _
      · rfl
      · rfl
      · cases hk
    | asyncPush job => rcases job with _ | _ | _ <;> cases hk
    | unwindFree | drainEnd | unlock => exact ⟨rfl, rfl, by simp [Critical.act], Or.inl ⟨rfl, rfl⟩⟩
    | _ => cases hk

theorem step_call (h : Step s t e s' t' new) (hk : t.kind ≠ .attach) :
    (t'.kind = .call → t.kind = .call) ∧ ∀ x ∈ new, x.kind ≠ .call := by
  have hnotify : ∀ x ∈ s.notifyUnsafe, x.kind ≠ .call := fun x hx => by simp [notifyUnsafe_kind s x hx]
  have hloop : ∀ jobs r, (drainLoop jobs r).kind ≠ .call := fun jobs r => by simp [drainLoop_kind]
  cases h with
  | lock => exact ⟨id, by simp⟩
  | @start job => rcases job with _ | _ <;> exact ⟨fun h => (by cases h), by simp⟩
  | skip | finish | throw | deadlock => exact ⟨fun h => (by cases h), by simp⟩
  | @holding p =>
    cases p with
    | asyncPush job =>
      rcases job with _ | _ | _
      · exact ⟨fun _ => rfl, by simp [Critical.act]⟩
      · exact ⟨fun _ => rfl, by simp [Critical.act]⟩
      · exact absurd rfl hk
    | asyncNotify | detachNotify | drainYield => exact ⟨fun h => (by cases h), hnotify⟩
    | drainBegin | drainPop => exact ⟨fun h => absurd h (hloop _ _), by simp [Critical.act]⟩
    | detachEmpty | detachPush =>
      simp only [Critical.act]
      split <;> exact ⟨fun h => (by cases h), by simp⟩
    | drainSwap r =>
      refine ⟨fun h => ?_, by simp [Critical.act]⟩
      change (Critical.drainUnlock s.swapFront.2 r).kind = .call at h
      generalize s.swapFront.2 = job at h
      rcases job with _ | _ | _ <;> cases h
    | attachManager | attachSet => exact absurd rfl hk
    | drainUnlock job => rcases job with _ | _ | _ <;> exact ⟨fun h => (by cases h), by simp [Critical.act]⟩
    | _ => exact ⟨fun h => (by cases h), by simp [Critical.act]⟩

theorem step_without (h : Step s t .step s' t' new) (hk : t.kind = .other) (hn : some .detach ∉ s.jobs) :
    s'.manager = s.manager ∧ s'.isAttached = s.isAttached ∧ (∀ x ∈ new, x.kind = .other) ∧
      some .detach ∉ s'.jobs ∧ t'.kind = .other := by
  obtain ⟨hm, ha, hnew, hj⟩ := step_other h hk
  refine ⟨hm, ha, hnew, ?_⟩
  rcases hj with ⟨hj, hk'⟩ | ⟨hj, hk', -⟩ | ⟨job, rest, hjobs, hj, hk'⟩
  · exact ⟨hj ▸ hn, hk'⟩
  · exact ⟨fun hd => hn (List.mem_of_mem_tail (hj ▸ hd)), hk'⟩
  · rw [if_neg fun hd => hn (by rw [hjobs, hd]; exact List.mem_cons_self)] at hk'
    refine ⟨fun hd => hn (hjobs ▸ List.mem_cons_of_mem _ ?_), hk'⟩
    rw [hj] at hd
    simpa using hd

/-! ### In use -/

theorem call_open (hO : Open c) {job : Option Nat} (h : operationQueue.next c (.call (.async job)) = some c') :
    Open c' := by
  obtain ⟨s', new, hc, rfl⟩ := Program.next_call h
  cases hc
  refine ⟨hO.manager, hO.attached, hO.jobs, Family.forall_append hO.kinds ?_⟩
  intro t ht
  cases List.mem_singleton.mp ht
  cases job <;> exact Or.inl rfl

theorem act_open (hO : Open c) (ht : c.threads[i]? = some t) (h : Step c.shared t .step s' t' new) :
    Open ⟨s', c.threads.set i t' ++ new⟩ := by
  rcases hO.kinds t (Family.mem_of_get ht) with hk | hk
  · cases h with
    | lock =>
      exact ⟨hO.manager, hO.attached, hO.jobs, Family.forall_step hO.kinds (Or.inl hk) (by simp)⟩
    | @start job | @finish job => rcases job with _ | _ <;> cases hk
    | skip => cases hk
    | @holding p =>
      cases p with
      | asyncPush job =>
        have hjob : some .detach ≠ job := by
          rintro rfl
          cases hk
        refine ⟨hO.manager, hO.attached, ?_, Family.forall_step hO.kinds ?_ (by simp [Critical.act])⟩
        · simp only [Critical.act, Shared.pushBack, List.mem_append, List.mem_singleton, not_or]
          exact ⟨hO.jobs, hjob⟩
        · simp only [Critical.act]
          split
          · exact Or.inl rfl
          · exact Or.inr rfl
      | asyncNotify =>
        exact ⟨hO.manager, hO.attached, hO.jobs, Family.forall_step hO.kinds (Or.inr rfl) fun x hx =>
          Or.inr (notifyUnsafe_kind _ x hx)⟩
      | drainUnlock job => rcases job with _ | _ | _ <;> cases hk
      | _ => cases hk
  · obtain ⟨hm, ha, hnew, hjobs, hk'⟩ := step_without h hk hO.jobs
    exact ⟨hm.trans hO.manager, ha.trans hO.attached, hjobs, Family.forall_step hO.kinds (Or.inr hk') fun x hx =>
      Or.inr (hnew x hx)⟩

/-- Nobody is within an `async` when the queue is detached. -/
theorem call_detaching (hO : Open c) (hc : ∀ t ∈ c.threads, t.kind ≠ .call)
    (h : operationQueue.next c (.call .detach) = some c') : Detaching c' := by
  obtain ⟨s', new, hn, rfl⟩ := Program.next_call h
  cases hn
  have hk : ∀ t ∈ c.threads, t.kind = .other := fun t ht => (hO.kinds t ht).resolve_left (hc t ht)
  refine ⟨hO.manager, hO.jobs, Family.forall_append (fun t ht => Or.inr (hk t ht)) (by simp [Thread.kind, Critical.kind]), ?_⟩
  rw [Family.total_append, Family.total_eq_zero.mpr fun t ht => by simp [Thread.detaching, hk t ht]]
  rfl

/-! ### Detached -/

theorem ends_of_idle (hf : t.Fits c.shared.jobs) (hd : t.drains = 0)
    (hk : t.kind = .closing ∨ t.kind = .carries ∧ c.shared.jobs = [none] ∨ t.kind = .other) : t.ends = true := by
  have hk' : t.kind ≠ .call ∧ t.kind ≠ .detaching ∧ t.kind ≠ .attach := by
    rcases hk with h | ⟨h, -⟩ | h <;> rw [h] <;> simp
  cases t with
  | lock p =>
    cases p with
    | asyncPush job => rcases job with _ | _ | _ <;> simp [Thread.kind, Critical.kind] at hk'
    | attachManager | detachEmpty => simp [Thread.kind, Critical.kind] at hk'
    | drainBegin | drainPop | unwindPop => exact absurd hd Nat.one_ne_zero
    | _ => cases hf.2
  | holding p =>
    cases p with
    | asyncPush job => rcases job with _ | _ | _ <;> simp [Thread.kind, Critical.kind] at hk'
    | asyncNotify | attachManager | attachSet | detachEmpty | detachPush => simp [Thread.kind, Critical.kind] at hk'
    | detachReset | unwindFree | drainEnd | unlock => rfl
    | _ => exact absurd hd Nat.one_ne_zero
  | deadlocked | returned => rfl
  | _ => exact absurd hd Nat.one_ne_zero

theorem ends_kind (h : t.ends = true) : t.kind = .closing ∨ t.kind = .other := by
  cases t with
  | lock p | holding p =>
    cases p with
    | detachReset => exact Or.inl rfl
    | drainPop | unwindFree | drainEnd | unlock => exact Or.inr rfl
    | _ => cases h
  | deadlocked | returned => exact Or.inr rfl
  | _ => cases h

theorem act_closed (hC : Closed c) (ht : c.threads[i]? = some t) (h : Step c.shared t .step s' t' new) :
    Closed ⟨s', c.threads.set i t' ++ new⟩ := by
  have he := hC.ends t (Family.mem_of_get ht)
  have hjobs : c.shared.jobs.tail = [] := by
    rcases hC.jobs with hj | hj <;> rw [hj] <;> rfl
  cases h with
  | @lock p =>
    refine ⟨hC.manager, hC.jobs, Family.forall_step hC.ends ?_ (by simp)⟩
    cases p with
    | drainPop r => exact he
    | _ => cases he
  | start | skip | finish => cases he
  | @holding p =>
    cases p with
    | drainPop r =>
      have hr : r = 1 := by simpa [Thread.ends, Critical.ends] using he
      subst hr
      refine ⟨hC.manager, Or.inl hjobs, Family.forall_step hC.ends ?_ (by simp [Critical.act])⟩
      simp [Critical.act, drainLoop, hjobs, Thread.ends, Critical.ends]
    | unwindFree | drainEnd | unlock | detachReset =>
      exact ⟨hC.manager, hC.jobs, Family.forall_step hC.ends rfl (by simp [Critical.act])⟩
    | _ => cases he

theorem carries_drains (h : t.kind = .carries) : t.drains ≠ 0 := by
  cases t with
  | lock p | holding p =>
    cases p with
    | drainUnlock => exact Nat.one_ne_zero
    | asyncPush job => rcases job with _ | _ | _ <;> cases h
    | _ => cases h
  | deadlocked | returned => cases h
  | _ => exact Nat.one_ne_zero

theorem others_end (hI : Inv c) (ht : c.threads[i]? = some t) (hk : ∀ t ∈ c.threads, t.kind = .closing ∨
    t.kind = .carries ∧ c.shared.jobs = [none] ∨ t.kind = .other ∨ t.detaching ≠ 0) (ht' : t'.ends = true)
    (hd : ∀ j x, j ≠ i → c.threads[j]? = some x → x.drains = 0 ∧ x.detaching = 0) :
    ∀ x ∈ c.threads.set i t' ++ [], x.ends = true := by
  intro x hx
  rcases Family.step_cases ht hx with rfl | hx | ⟨j, hij, hx⟩
  · exact ht'
  · cases hx
  · have hm := Family.mem_of_get hx
    obtain ⟨h1, h2⟩ := hd j x hij hx
    exact ends_of_idle (hI.fits x hm) h1 ((hk x hm).imp_right fun h => h.imp_right fun h => h.resolve_right (absurd h2))

theorem Closing.stays (hC : Closing c) (hm : s'.manager = c.shared.manager) (hj : s'.jobs = c.shared.jobs)
    (hk : t'.kind = .closing ∨ t'.kind = .carries ∧ s'.jobs = [none] ∨ t'.kind = .other)
    (hnew : ∀ x ∈ new, x.kind = .other) : Closing ⟨s', c.threads.set i t' ++ new⟩ := by
  refine ⟨hm.trans hC.manager, hj ▸ hC.last, Family.forall_step ?_ hk fun x hx => Or.inr (Or.inr (hnew x hx))⟩
  simp only [hj]
  exact hC.kinds

theorem Closing.call_step (hC : Closing c) (hk : t.kind = .closing) (h : Step c.shared t .step s' t' new) :
    Closing ⟨s', c.threads.set i t' ++ new⟩ := by
  cases h with
  | lock => exact hC.stays rfl rfl (Or.inl hk) (by simp)
  | @start job | @finish job => rcases job with _ | _ <;> cases hk
  | skip => cases hk
  | @holding p =>
    cases p with
    | detachNotify => exact hC.stays rfl rfl (Or.inl rfl) (notifyUnsafe_kind _)
    | detachReset => exact hC.stays rfl rfl (Or.inr (Or.inr rfl)) (by simp [Critical.act])
    | asyncPush job => rcases job with _ | _ | _ <;> cases hk
    | drainUnlock job => rcases job with _ | _ | _ <;> cases hk
    | _ => cases hk

theorem Closing.carries_step (hI : Inv c) (hC : Closing c) (ht : c.threads[i]? = some t) (hk : t.kind = .carries)
    (hjobs : c.shared.jobs = [none]) (h : Step c.shared t .step s' t' new) :
    Closing ⟨s', c.threads.set i t' ++ new⟩ ∨ Closed ⟨s', c.threads.set i t' ++ new⟩ := by
  cases h with
  | lock => exact Or.inl (hC.stays rfl rfl (Or.inr (Or.inl ⟨hk, hjobs⟩)) (by simp))
  | @start job =>
    cases job with
    | operation => cases hk
    | detach => exact Or.inl (hC.stays rfl rfl (Or.inr (Or.inl ⟨rfl, hjobs⟩)) (by simp))
  | skip => cases hk
  | @finish job r =>
    cases job with
    | operation => cases hk
    | detach =>
      right
      have hr : r = 1 := by
        have hf := hI.fits _ (Family.mem_of_get ht)
        have h1 := hf.1
        have h2 := hf.2.1
        rw [hjobs] at h2
        exact Nat.le_antisymm h2 h1
      refine ⟨by simp [Shared.run, Shared.request, hC.manager], Or.inr hjobs, ?_⟩
      refine others_end hI ht (fun x hx => ?_) (by simp [hr, Thread.ends]) fun j x hij hx => ⟨?_, ?_⟩
      · exact (hC.kinds x hx).imp_right fun h => h.imp_right Or.inl
      · exact hI.alone ht Nat.one_ne_zero hij hx
      · rcases hC.kinds x (Family.mem_of_get hx) with h | ⟨h, -⟩ | h <;> simp [Thread.detaching, h]
  | @holding p =>
    cases p with
    | drainUnlock job r =>
      rcases job with _ | _ | _
      · cases hk
      · cases hk
      · exact Or.inl (hC.stays rfl rfl (Or.inr (Or.inl ⟨rfl, hjobs⟩)) (by simp [Critical.act]))
    | asyncPush job => rcases job with _ | _ | _ <;> cases hk
    | _ => cases hk

theorem Closing.other_step (hI : Inv c) (hC : Closing c) (ht : c.threads[i]? = some t) (hk : t.kind = .other)
    (h : Step c.shared t .step s' t' new) : Closing ⟨s', c.threads.set i t' ++ new⟩ := by
  obtain ⟨hm, -, hnew, hj⟩ := step_other h hk
  rcases hj with ⟨hj, hk'⟩ | ⟨hj, hk', hd⟩ | ⟨job, rest, hjobs, hj, hk'⟩
  · exact hC.stays hm hj (Or.inr (Or.inr hk')) hnew
  · refine ⟨hm.trans hC.manager, fun pre post hp => ?_, ?_⟩
    · rw [hj] at hp
      cases hl : c.shared.jobs with
      | nil => simp [hl] at hp
      | cons x l =>
        rw [hl, List.tail_cons] at hp
        exact hC.last (x :: pre) post (by rw [hl, hp]; rfl)
    · -- nobody else drains, or has the job in hand
      intro x hx
      rcases Family.step_cases ht hx with rfl | hx | ⟨j, hij, hx⟩
      · exact Or.inr (Or.inr hk')
      · exact Or.inr (Or.inr (hnew x hx))
      · rcases hC.kinds x (Family.mem_of_get hx) with h | ⟨h, -⟩ | h
        · exact Or.inl h
        · exact absurd (hI.alone ht (hd ▸ Nat.one_ne_zero) hij hx) (carries_drains h)
        · exact Or.inr (Or.inr h)
  · refine ⟨hm.trans hC.manager, fun pre post hp => ?_, ?_⟩
    · rw [hj] at hp
      cases pre with
      | nil => cases hp
      | cons x pre =>
        rw [List.cons_append, List.cons.injEq] at hp
        exact hC.last (job :: pre) post (by rw [hjobs, hp.2]; rfl)
    · refine Family.forall_step (fun x hx => ?_) ?_ fun x hx => Or.inr (Or.inr (hnew x hx))
      · refine (hC.kinds x hx).imp_right fun h => h.imp_left fun h => ⟨h.1, ?_⟩
        rw [hjobs, List.cons.injEq] at h
        simp only [hj, h.2.2]
      · split at hk'
        next hd =>
          have hrest : rest = [] := hC.last [] rest (by rw [hjobs, hd]; rfl)
          exact Or.inr (Or.inl ⟨hk', by simp only [hj, hrest]⟩)
        · exact Or.inr (Or.inr hk')

theorem act_closing (hI : Inv c) (hC : Closing c) (ht : c.threads[i]? = some t) (h : Step c.shared t .step s' t' new) :
    Closing ⟨s', c.threads.set i t' ++ new⟩ ∨ Closed ⟨s', c.threads.set i t' ++ new⟩ := by
  rcases hC.kinds t (Family.mem_of_get ht) with hk | ⟨hk, hjobs⟩ | hk
  · exact Or.inl (hC.call_step hk h)
  · exact hC.carries_step hI ht hk hjobs h
  · exact Or.inl (hC.other_step hI ht hk h)

/-- The call of `detach` posts the request itself if there are no jobs, and queues a job for it else. -/
theorem Detaching.call_step (hW : WakeInv c) (hD : Detaching c) (ht : c.threads[i]? = some t) (hk : t.kind = .detaching)
    (h : Step c.shared t .step s' t' new) : Detaching ⟨s', c.threads.set i t' ++ new⟩ ∨
      Closing ⟨s', c.threads.set i t' ++ new⟩ ∨ Closed ⟨s', c.threads.set i t' ++ new⟩ := by
  have htot := Family.total_step Thread.detaching ht t' new
  rw [hD.one] at htot
  have hone : t.detaching = 1 := by simp [Thread.detaching, hk]
  have hothers : ∀ j x, j ≠ i → c.threads[j]? = some x → x.detaching = 0 := by
    intro j x hij hx
    have := Family.le_total_of_ne Thread.detaching ht hx (Ne.symm hij)
    rw [hD.one, hone] at this
    omega
  have hother : ∀ j x, j ≠ i → c.threads[j]? = some x → x.kind = .other := by
    intro j x hij hx
    refine (hD.kinds x (Family.mem_of_get hx)).resolve_left fun h => ?_
    have := hothers j x hij hx
    simp [Thread.detaching, h] at this
  cases h with
  | @lock p =>
    left
    refine ⟨hD.manager, hD.jobs, Family.forall_step hD.kinds (Or.inl hk) (by simp), ?_⟩
    have : (Thread.holding p).detaching = 1 := hone
    rw [hone, this] at htot
    simpa using htot
  | @start job | @finish job => rcases job with _ | _ <;> cases hk
  | skip => cases hk
  | @holding p =>
    cases p with
    | detachEmpty =>
      simp only [Critical.act] at htot ⊢
      split
      next hj =>
        right; right
        refine ⟨by simp [Shared.request, hD.manager], Or.inl hj, others_end hW.inv ht (fun x hx => ?_) rfl
          fun j x hij hx => ⟨?_, hothers j x hij hx⟩⟩
        · rcases hD.kinds x hx with h | h
          · exact Or.inr (Or.inr (Or.inr (by simp [Thread.detaching, h])))
          · exact Or.inr (Or.inr (Or.inl h))
        · have hd := hW.drains
          simp only [Shared.busy, hj] at hd
          exact Family.total_eq_zero.mp hd x (Family.mem_of_get hx)
      next hj =>
        left
        simp only [if_neg hj] at htot
        refine ⟨hD.manager, hD.jobs, Family.forall_step hD.kinds (Or.inl rfl) (by simp), ?_⟩
        exact Nat.add_right_cancel htot
    | detachPush =>
      right; left
      refine ⟨hD.manager, fun pre post hp => ?_, fun x hx => ?_⟩
      · simp only [Critical.act, Shared.pushBack] at hp
        rcases List.eq_nil_or_concat post with rfl | ⟨post', y, rfl⟩
        · rfl
        · refine absurd ?_ hD.jobs
          rw [List.concat_eq_append, ← List.cons_append, ← List.append_assoc] at hp
          rw [List.append_inj_left' hp rfl]
          simp
      · rcases Family.step_cases ht hx with rfl | hx | ⟨j, hij, hx⟩
        · simp only [Critical.act]
          split <;> exact Or.inl rfl
        · cases hx
        · exact Or.inr (Or.inr (hother j x hij hx))
    | asyncPush job => rcases job with _ | _ | _ <;> cases hk
    | drainUnlock job => rcases job with _ | _ | _ <;> cases hk
    | _ => cases hk

theorem act_detaching (hW : WakeInv c) (hD : Detaching c) (ht : c.threads[i]? = some t)
    (h : Step c.shared t .step s' t' new) : Detaching ⟨s', c.threads.set i t' ++ new⟩ ∨
      Closing ⟨s', c.threads.set i t' ++ new⟩ ∨ Closed ⟨s', c.threads.set i t' ++ new⟩ := by
  rcases hD.kinds t (Family.mem_of_get ht) with hk | hk
  · exact hD.call_step hW ht hk h
  · left
    have hzero : ∀ {x : Thread}, x.kind = .other → x.detaching = 0 := fun h => by simp [Thread.detaching, h]
    obtain ⟨hm, -, hnew, hjobs, hk'⟩ := step_without h hk hD.jobs
    refine ⟨hm.trans hD.manager, hjobs, Family.forall_step hD.kinds (Or.inr hk') fun x hx => Or.inr (hnew x hx), ?_⟩
    have htot := Family.total_step Thread.detaching ht t' new
    rw [hD.one, hzero hk, hzero hk', Family.total_eq_zero.mpr fun x hx => hzero (hnew x hx)] at htot
    exact htot

end

end Xdispatch.OperationQueue
