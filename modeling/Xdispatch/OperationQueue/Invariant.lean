import Xdispatch.OperationQueue.Model
import Mathlib.Algebra.Order.Group.Multiset

/-!
# One drain at a time

`drain` gives up the mutex while an operation runs, and the emptied entry at
the head of the list is all that keeps the others away. The invariant counts
what stands for a drain that is under way or will be: a wakeup in the pool, a
drain, and the call that is about to post a wakeup. There is at most one, and
none while `m_jobs` is empty.
-/

namespace Xdispatch.OperationQueue

/-! ## What a thread stands for -/

/-- Is a drain, or will post a wakeup. -/
def Critical.drains : Critical → Nat
  | .asyncNotify | .detachNotify | .drainBegin | .drainSwap _ | .drainUnlock .. | .drainPop _ | .drainYield
  | .unwindPop _ => 1
  | _ => 0

def Thread.drains : Thread → Nat
  | .lock p | .holding p => p.drains
  | .drainProcess .. | .drainRunning .. => 1
  | .deadlocked | .returned => 0

def Thread.holds : Thread → Nat
  | .holding _ | .deadlocked => 1
  | _ => 0

def Thread.running : Thread → Multiset Job
  | .drainRunning job _ => {job}
  | _ => 0

def Critical.taken : Critical → List Job
  | .drainUnlock job _ => job.toList
  | _ => []

def Thread.taken : Thread → List Job
  | .lock p | .holding p => p.taken
  | .drainProcess job _ => job.toList
  | _ => []

def Shared.busy (s : Shared) : Nat := min s.jobs.length 1

/-- A drain has entries left to go, the first of which it has emptied. -/
def Emptied (jobs : List (Option Job)) (remaining : Nat) : Prop :=
  1 ≤ remaining ∧ remaining ≤ jobs.length ∧ jobs.head? = some none

def Critical.Fits (jobs : List (Option Job)) : Critical → Prop
  | .drainSwap r => 1 ≤ r ∧ r ≤ jobs.length
  | .drainUnlock _ r | .drainPop r | .unwindPop r => Emptied jobs r
  | .detachPush => jobs ≠ []
  | _ => True

/-- The statements that a `std::lock_guard` stands before. -/
def Critical.afterLock : Critical → Bool
  | .asyncPush _ | .attachManager | .detachEmpty | .drainBegin | .drainPop _ | .unwindPop _ => true
  | _ => false

def Thread.Fits (jobs : List (Option Job)) : Thread → Prop
  | .lock p => p.Fits jobs ∧ p.afterLock = true
  | .holding p => p.Fits jobs
  | .drainProcess _ r | .drainRunning _ r => Emptied jobs r
  | .deadlocked | .returned => True

structure Inv (c : Config Shared Thread) : Prop where
  mutex : Family.total Thread.holds c.threads = c.shared.locked.toNat
  drains : Family.total Thread.drains c.threads ≤ c.shared.busy
  fits : ∀ t ∈ c.threads, t.Fits c.shared.jobs
  order : ∃ pre : List Job, Family.total (fun t => (t.taken : Multiset Job)) c.threads = pre ∧
    c.shared.appended = c.shared.started ++ pre ++ c.shared.jobs.filterMap id
  not_asserted : c.shared.asserted = false
  notifyOperation : c.shared.notifyOperation = true

theorem initial_inv : Inv initial := by
  refine ⟨rfl, Nat.le_refl _, fun t h => ?_, ⟨[], rfl, rfl⟩, rfl, rfl⟩
  simp [initial] at h

theorem busy_pos {s : Shared} : 0 < s.busy ↔ s.jobs ≠ [] := by
  unfold Shared.busy
  rw [← List.length_pos_iff]
  omega

theorem busy_of_ne {s : Shared} (h : s.jobs ≠ []) : s.busy = 1 := by
  have := busy_pos.mpr h
  unfold Shared.busy at *
  omega

theorem taken_eq_nil {t : Thread} (h : t.drains = 0) : t.taken = [] := by
  cases t with
  | lock p | holding p => cases p <;> first | rfl | cases h
  | deadlocked | returned => rfl
  | _ => cases h

theorem running_eq_zero {t : Thread} (h : t.drains = 0) : t.running = 0 := by
  cases t with
  | drainRunning => cases h
  | _ => rfl

/-! ## What a step does -/

inductive Step (s : Shared) : Thread → Choice → Shared → Thread → List Thread → Prop
  | lock {p} : s.locked = false → Step s (.lock p) .step { s with locked := true } (.holding p) []
  | holding {p} : Step s (.holding p) .step (p.act s).1 (p.act s).2.1 (p.act s).2.2
  | start {job r} : Step s (.drainProcess (some job) r) .step { s with started := s.started ++ [job] }
      (.drainRunning job r) []
  | skip {r} : Step s (.drainProcess none r) .step s (.lock (.drainPop r)) []
  | finish {job r} : Step s (.drainRunning job r) .step (s.run job) (.lock (.drainPop r)) []
  | throw {job r} : Step s (.drainRunning job r) .throw s (.lock (.unwindPop r)) []
  | deadlock {job} : Step s (.holding .unwindFree) (.async job) s .deadlocked []

theorem act_step {s s' : Shared} {t t' : Thread} {e : Choice} {new : List Thread}
    (h : act s t e = some (s', t', new)) : Step s t e s' t' new := by
  unfold act at h
  split at h
  · split at h
    · cases h
    · rename_i hl
      cases h
      exact .lock (by simpa using hl)
  · rename_i p
    have hp : p.act s = (s', t', new) := Option.some.inj h
    have := Step.holding (s := s) (p := p)
    rwa [hp] at this
  · cases h
    exact .deadlock
  · cases h
    exact .start
  · cases h
    exact .skip
  · cases h
    exact .finish
  · cases h
    exact .throw
  · cases h

theorem run_eq (s : Shared) (job : Job) : ∃ m, s.run job = { s with manager := m } := by
  cases job <;> exact ⟨_, rfl⟩

theorem swapFront_cons {s : Shared} {job : Option Job} {jobs : List (Option Job)} (h : s.jobs = job :: jobs) :
    s.swapFront = ({ s with jobs := none :: jobs }, job) := by
  simp [Shared.swapFront, h]

theorem drainLoop_drains (jobs : List (Option Job)) (r : Nat) (h : r ≤ jobs.length) :
    (drainLoop jobs r).drains = min jobs.length 1 := by
  unfold drainLoop
  by_cases hr : r = 0
  · subst hr
    cases jobs <;> simp [Critical.drains]
  · rw [if_pos hr]
    simp only [Critical.drains]
    omega

theorem notifyUnsafe_drains {s : Shared} (h : s.notifyOperation = true) :
    Family.total Thread.drains s.notifyUnsafe = 1 := by
  simp [Shared.notifyUnsafe, h, Thread.drains, Critical.drains]

section
variable {s s' : Shared} {t t' : Thread} {e : Choice} {new : List Thread}

theorem step_mutex (h : Step s t e s' t' new) (hl : t.holds ≤ s.locked.toNat) :
    s'.locked.toNat + t.holds = s.locked.toNat + t'.holds + Family.total Thread.holds new := by
  cases h with
  | lock hf => simp [hf, Thread.holds]
  | start | skip | throw | deadlock => rfl
  | @finish job =>
    obtain ⟨m, hm⟩ := run_eq s job
    rw [hm]
    rfl
  | @holding p =>
    have hn : Family.total Thread.holds s.notifyUnsafe = 0 := by
      unfold Shared.notifyUnsafe
      split <;> rfl
    cases p with
    | asyncNotify | detachNotify | drainYield => simp only [Critical.act, hn]; rfl
    | detachEmpty => simp only [Critical.act]; split <;> rfl
    | drainSwap =>
      simp only [Critical.act, Shared.swapFront]
      split <;> rfl
    | drainUnlock | unlock =>
      simp only [Thread.holds] at hl
      simp only [Critical.act, Shared.release, Thread.holds, Family.total_nil, Bool.toNat_false]
      have := Bool.toNat_le s.locked
      omega
    | _ => rfl

theorem pushBack_busy (s : Shared) (job : Option Job) : (s.pushBack job).busy = 1 := by
  simp [Shared.busy, Shared.pushBack]

end

/-- Every entry of the list is left with something that will drain it. -/
def Critical.keeps (s : Shared) : Critical → Bool
  | .asyncPush _ => s.isAttached
  | .unwindPop _ => false
  | _ => true

section
variable {s : Shared} {p : Critical}

/-- The list becomes busy together with the wakeup for it, and idle with the drain that empties it. -/
theorem critical_drains (hf : p.Fits s.jobs) (hb : p.drains ≤ s.busy) (hn : s.notifyOperation = true)
    (hk : p.keeps s = true) :
    (p.act s).2.1.drains + Family.total Thread.drains (p.act s).2.2 + s.busy = (p.act s).1.busy + p.drains := by
  cases p with
  | asyncPush job =>
    simp only [Critical.act, pushBack_busy]
    simp only [Critical.keeps] at hk
    by_cases hj : s.jobs = []
    · simp [Shared.notifies, Thread.drains, Critical.drains, hj, hk, Shared.busy]
    · simp [Shared.notifies, Thread.drains, Critical.drains, hj, busy_of_ne hj]
  | asyncNotify | detachNotify | drainYield =>
    simp only [Critical.act, notifyUnsafe_drains hn, Thread.drains, Critical.drains]
    omega
  | detachPush =>
    simp only [Critical.Fits] at hf
    simp only [Critical.act, pushBack_busy]
    simp [Shared.notifies, Thread.drains, Critical.drains, hf, busy_of_ne hf]
  | drainBegin =>
    simp only [Critical.act, Thread.drains, drainLoop_drains _ _ (Nat.min_le_left _ _)]
    simp [Critical.drains, Shared.busy, Nat.add_comm] at hb ⊢
    omega
  | drainSwap r =>
    cases hj : s.jobs with
    | nil => exact absurd hj (busy_pos.mp hb)
    | cons job jobs => simp [Critical.act, swapFront_cons hj, Thread.drains, Critical.drains, Shared.busy, hj]
  | drainPop r =>
    have hr : r - 1 ≤ s.jobs.tail.length := by
      have := hf.2.1
      rw [List.length_tail]
      omega
    simp only [Critical.act, Thread.drains, drainLoop_drains _ _ hr]
    simp [Shared.deferredPop, Critical.drains, Shared.busy] at hb ⊢
    omega
  | unwindPop r => cases hk
  | detachEmpty =>
    simp only [Critical.act]
    split <;> simp [Thread.drains, Critical.drains, Shared.busy, Shared.request]
  | drainUnlock job r =>
    simp only [Critical.act, Thread.drains, Critical.drains, Family.total_nil]
    exact Nat.add_comm _ _
  | _ => simp [Critical.act, Thread.drains, Critical.drains, Shared.busy, Shared.request, Shared.release]

theorem critical_drains_le (hf : p.Fits s.jobs) (hb : p.drains ≤ s.busy) (hn : s.notifyOperation = true) :
    (p.act s).2.1.drains + Family.total Thread.drains (p.act s).2.2 + s.busy ≤ (p.act s).1.busy + p.drains := by
  by_cases hk : p.keeps s = true
  · exact Nat.le_of_eq (critical_drains hf hb hn hk)
  · cases p with
    | asyncPush job =>
      simp only [Critical.keeps] at hk
      have : s.busy ≤ 1 := Nat.min_le_right _ _
      simpa [Critical.act, pushBack_busy, Shared.notifies, hk, Thread.drains, Critical.drains] using this
    | unwindPop r =>
      have : s.busy ≤ 1 := Nat.min_le_right _ _
      simp only [Critical.act, Thread.drains, Critical.drains, Family.total_nil]
      omega
    | _ => simp [Critical.keeps] at hk

end

section
variable {s s' : Shared} {t t' : Thread} {e : Choice} {new : List Thread}

theorem step_drains_of_not_holding (h : Step s t e s' t' new) (ht : t.holds = 0) :
    t'.drains + Family.total Thread.drains new + s.busy = s'.busy + t.drains := by
  cases h with
  | holding | deadlock => cases ht
  | lock | start | skip | throw => exact Nat.add_comm _ _
  | @finish job =>
    obtain ⟨m, hm⟩ := run_eq s job
    rw [hm]
    exact Nat.add_comm _ _

theorem step_drains (h : Step s t e s' t' new) (hf : t.Fits s.jobs) (hb : t.drains ≤ s.busy)
    (hn : s.notifyOperation = true) :
    t'.drains + Family.total Thread.drains new + s.busy ≤ s'.busy + t.drains := by
  cases t with
  | holding p =>
    cases h with
    | holding => exact critical_drains_le hf hb hn
    | deadlock => exact Nat.le_of_eq (Nat.add_comm _ _)
  | deadlocked => cases h
  | _ => exact Nat.le_of_eq (step_drains_of_not_holding h rfl)

end

/-! ## The list -/

theorem Emptied.append {jobs : List (Option Job)} {r : Nat} (h : Emptied jobs r) (l : List (Option Job)) :
    Emptied (jobs ++ l) r := by
  obtain ⟨h1, h2, h3⟩ := h
  refine ⟨h1, by rw [List.length_append]; omega, ?_⟩
  rw [List.head?_append, h3]
  rfl

theorem Critical.Fits.append {jobs : List (Option Job)} {p : Critical} (h : p.Fits jobs)
    (l : List (Option Job)) : p.Fits (jobs ++ l) := by
  cases p with
  | drainSwap r => exact ⟨h.1, by rw [List.length_append]; have := h.2; omega⟩
  | drainUnlock | drainPop | unwindPop => exact Emptied.append h l
  | detachPush => exact List.append_ne_nil_of_left_ne_nil h l
  | _ => trivial

theorem Thread.Fits.append {jobs : List (Option Job)} {t : Thread} (h : t.Fits jobs)
    (l : List (Option Job)) : t.Fits (jobs ++ l) := by
  cases t with
  | lock p => exact ⟨h.1.append l, h.2⟩
  | holding p => exact Critical.Fits.append h l
  | drainProcess | drainRunning => exact Emptied.append h l
  | deadlocked | returned => trivial

theorem Thread.Fits.idle {jobs jobs' : List (Option Job)} {t : Thread} (h : t.Fits jobs) (hd : t.drains = 0)
    (hh : t.holds = 0) : t.Fits jobs' := by
  cases t with
  | lock p =>
    refine ⟨?_, h.2⟩
    cases p with
    | detachPush => cases h.2
    | drainSwap | drainUnlock | drainPop | unwindPop => cases hd
    | _ => trivial
  | holding p | deadlocked => cases hh
  | drainProcess | drainRunning => cases hd
  | returned => trivial

theorem drainLoop_fits {jobs : List (Option Job)} {r : Nat} (h : r ≤ jobs.length) :
    (drainLoop jobs r).Fits jobs := by
  unfold drainLoop
  by_cases hr : r = 0
  · rw [if_neg (not_not.mpr hr)]
    split <;> trivial
  · rw [if_pos hr]
    exact ⟨by omega, h⟩

section
variable {s s' : Shared} {t t' : Thread} {e : Choice} {new : List Thread}

theorem step_jobs (h : Step s t e s' t' new) (ht : t.drains = 0 ∨ t.holds = 0) :
    ∃ l, s'.jobs = s.jobs ++ l := by
  cases h with
  | lock | start | skip | throw | deadlock => exact ⟨[], (List.append_nil _).symm⟩
  | @finish job =>
    obtain ⟨m, hm⟩ := run_eq s job
    rw [hm]
    exact ⟨[], (List.append_nil _).symm⟩
  | @holding p =>
    have hd : p.drains = 0 := by
      rcases ht with h | h
      · exact h
      · cases h
    cases p with
    | asyncPush job => exact ⟨[job], rfl⟩
    | detachPush => exact ⟨[some .detach], rfl⟩
    | detachEmpty =>
      refine ⟨[], ?_⟩
      simp only [Critical.act]
      split <;> exact (List.append_nil _).symm
    | attachManager | attachSet | detachReset | unwindFree | drainEnd | unlock => exact ⟨[], (List.append_nil _).symm⟩
    | _ => cases hd

theorem notifyUnsafe_fits (s : Shared) (jobs : List (Option Job)) : ∀ x ∈ s.notifyUnsafe, x.Fits jobs := by
  intro x hx
  unfold Shared.notifyUnsafe at hx
  split at hx
  · cases List.mem_singleton.mp hx
    exact ⟨trivial, rfl⟩
  · cases hx

/-- There is an entry to swap the null operation with. -/
theorem Critical.Fits.swap {jobs : List (Option Job)} {r : Nat} (hf : (Critical.drainSwap r).Fits jobs) :
    ∃ job rest, jobs = job :: rest ∧ r ≤ rest.length + 1 := by
  obtain ⟨h1, h2⟩ := hf
  cases jobs with
  | nil => exact absurd (Nat.le_trans h1 h2) (Nat.not_succ_le_zero 0)
  | cons job rest => exact ⟨job, rest, rfl, h2⟩

theorem step_fits (h : Step s t e s' t' new) (hf : t.Fits s.jobs) :
    t'.Fits s'.jobs ∧ ∀ x ∈ new, x.Fits s'.jobs := by
  cases h with
  | lock => exact ⟨hf.1, by simp⟩
  | start => exact ⟨hf, by simp⟩
  | skip | throw => exact ⟨⟨hf, rfl⟩, by simp⟩
  | deadlock => exact ⟨trivial, by simp⟩
  | @finish job =>
    obtain ⟨m, hm⟩ := run_eq s job
    rw [hm]
    exact ⟨⟨hf, rfl⟩, by simp⟩
  | @holding p =>
    cases p with
    | asyncPush job =>
      refine ⟨?_, by simp [Critical.act]⟩
      simp only [Critical.act]
      split <;> trivial
    | detachPush =>
      refine ⟨?_, by simp [Critical.act]⟩
      simp only [Critical.act]
      split <;> trivial
    | asyncNotify | detachNotify | drainYield => exact ⟨trivial, notifyUnsafe_fits s s.jobs⟩
    | detachEmpty =>
      simp only [Critical.act]
      split
      · exact ⟨trivial, by simp⟩
      · exact ⟨by assumption, by simp⟩
    | drainBegin => exact ⟨drainLoop_fits (Nat.min_le_left _ _), by simp [Critical.act]⟩
    | drainSwap r =>
      refine ⟨?_, by simp [Critical.act]⟩
      obtain ⟨job, jobs, hj, hr⟩ := Critical.Fits.swap hf
      simp only [Critical.act, swapFront_cons hj]
      exact ⟨hf.1, hr, rfl⟩
    | drainPop r =>
      refine ⟨drainLoop_fits ?_, by simp [Critical.act]⟩
      have := hf.2.1
      rw [List.length_tail]
      omega
    | drainUnlock job r => exact ⟨hf, by simp [Critical.act]⟩
    | _ => exact ⟨trivial, by simp [Critical.act]⟩

theorem step_asserted (h : Step s t e s' t' new) (hf : t.Fits s.jobs) :
    s'.asserted = s.asserted ∧ s'.notifyOperation = s.notifyOperation := by
  have pop : ∀ r, Emptied s.jobs r → (s.deferredPop r).asserted = s.asserted := by
    intro r ⟨h1, h2, h3⟩
    have hr : (r == 0) = false := by simp; omega
    have hj : s.jobs.isEmpty = false := by
      rw [List.isEmpty_eq_false_iff, ← List.length_pos_iff]
      omega
    simp [Shared.deferredPop, hr, hj]
  cases h with
  | lock | start | skip | throw | deadlock => exact ⟨rfl, rfl⟩
  | @finish job =>
    obtain ⟨m, hm⟩ := run_eq s job
    rw [hm]
    exact ⟨rfl, rfl⟩
  | @holding p =>
    cases p with
    | drainPop r | unwindPop r => exact ⟨pop r hf, rfl⟩
    | drainSwap r =>
      obtain ⟨job, jobs, hj, -⟩ := Critical.Fits.swap hf
      simp only [Critical.act, swapFront_cons hj]
      exact ⟨trivial, trivial⟩
    | detachEmpty =>
      simp only [Critical.act]
      split <;> exact ⟨rfl, rfl⟩
    | _ => exact ⟨rfl, rfl⟩

/-! ## The order of the jobs -/

theorem notifyUnsafe_taken {x : Thread} (hx : x ∈ s.notifyUnsafe) : x.taken = [] := by
  unfold Shared.notifyUnsafe at hx
  split at hx
  · cases List.mem_singleton.mp hx
    rfl
  · cases hx

theorem pushBack_order {pre : List Job} (ho : s.appended = s.started ++ pre ++ s.jobs.filterMap id) (job : Option Job) :
    (s.pushBack job).appended = (s.pushBack job).started ++ pre ++ (s.pushBack job).jobs.filterMap id := by
  simp only [Shared.pushBack, ho, List.filterMap_append, List.append_assoc]
  cases job <;> rfl

theorem Emptied.tail_jobs {jobs : List (Option Job)} {r : Nat} (h : Emptied jobs r) :
    jobs.tail.filterMap id = jobs.filterMap id := by
  obtain ⟨-, -, h⟩ := h
  cases jobs with
  | nil => rfl
  | cons job jobs =>
    cases h
    rfl

theorem step_order (h : Step s t e s' t' new) (hf : t.Fits s.jobs) {pre : List Job}
    (hpre : t.drains ≠ 0 → t.taken = pre)
    (ho : s.appended = s.started ++ pre ++ s.jobs.filterMap id) :
    ∃ pre' : List Job, s'.appended = s'.started ++ pre' ++ s'.jobs.filterMap id ∧
      (pre' : Multiset Job) + t.taken = (pre : Multiset Job) + t'.taken ∧ ∀ x ∈ new, x.taken = [] := by
  cases h with
  | lock => exact ⟨pre, ho, rfl, by simp⟩
  | @start job r =>
    cases hpre (by simp [Thread.drains])
    refine ⟨[], ?_, by simp [Thread.taken], by simp⟩
    simp [ho, Thread.taken]
  | skip | throw | deadlock => exact ⟨pre, ho, rfl, by simp⟩
  | @finish job =>
    obtain ⟨m, hm⟩ := run_eq s job
    rw [hm]
    exact ⟨pre, ho, rfl, by simp⟩
  | @holding p =>
    cases p with
    | asyncPush job =>
      refine ⟨pre, pushBack_order ho job, ?_, by simp [Critical.act]⟩
      simp only [Critical.act]
      split <;> rfl
    | detachPush =>
      refine ⟨pre, pushBack_order ho _, ?_, by simp [Critical.act]⟩
      simp only [Critical.act]
      split <;> rfl
    | asyncNotify | detachNotify | drainYield => exact ⟨pre, ho, rfl, fun x => notifyUnsafe_taken⟩
    | detachEmpty =>
      simp only [Critical.act]
      split <;> exact ⟨pre, ho, rfl, by simp⟩
    | drainBegin =>
      refine ⟨pre, ho, ?_, by simp [Critical.act]⟩
      simp only [Critical.act, drainLoop]
      split
      · rfl
      · split <;> rfl
    | drainSwap r =>
      cases hpre (by simp [Thread.drains, Critical.drains])
      obtain ⟨job, jobs, hj, -⟩ := Critical.Fits.swap hf
      refine ⟨job.toList, ?_, ?_, by simp [Critical.act]⟩
      · simp only [Critical.act, swapFront_cons hj]
        rw [hj] at ho
        rw [ho]
        cases job <;> simp [Thread.taken, Critical.taken]
      · simp [Critical.act, swapFront_cons hj, Thread.taken, Critical.taken]
    | drainPop r =>
      refine ⟨pre, ?_, ?_, by simp [Critical.act]⟩
      · simp only [Critical.act, Shared.deferredPop, Emptied.tail_jobs hf]
        exact ho
      · simp only [Critical.act, drainLoop]
        split
        · rfl
        · split <;> rfl
    | unwindPop r =>
      refine ⟨pre, ?_, rfl, by simp [Critical.act]⟩
      simp only [Critical.act, Shared.deferredPop, Emptied.tail_jobs hf]
      exact ho
    | _ => exact ⟨pre, ho, rfl, by simp [Critical.act]⟩

end

/-! ## Every state of a run -/

theorem Inv.alone {c : Config Shared Thread} (h : Inv c) {i : Nat} {t : Thread} (ht : c.threads[i]? = some t)
    (hd : t.drains ≠ 0) {j : Nat} {x : Thread} (hij : j ≠ i) (hx : c.threads[j]? = some x) : x.drains = 0 := by
  have h1 := Family.le_total_of_ne Thread.drains ht hx (Ne.symm hij)
  have h2 := h.drains
  have h3 : c.shared.busy ≤ 1 := Nat.min_le_right _ _
  omega

theorem toList_eq_of_coe {o : Option Job} {l : List Job} (h : (l : Multiset Job) = o.toList) : o.toList = l := by
  cases o with
  | none => exact (List.Perm.eq_nil (Multiset.coe_eq_coe.mp h)).symm
  | some j => exact (List.perm_singleton.mp (Multiset.coe_eq_coe.mp h)).symm

theorem taken_toList (t : Thread) : ∃ o : Option Job, t.taken = o.toList := by
  cases t with
  | lock p | holding p =>
    cases p with
    | drainUnlock job => exact ⟨job, rfl⟩
    | _ => exact ⟨none, rfl⟩
  | drainProcess job => exact ⟨job, rfl⟩
  | _ => exact ⟨none, rfl⟩

theorem Inv.taken {c : Config Shared Thread} (h : Inv c) {i : Nat} {t : Thread} (ht : c.threads[i]? = some t)
    (hd : t.drains ≠ 0) {pre : List Job}
    (hpre : Family.total (fun t => (t.taken : Multiset Job)) c.threads = pre) : t.taken = pre := by
  rw [Family.total_eq_of_others (fun t => (t.taken : Multiset Job)) ht] at hpre
  · obtain ⟨o, ho⟩ := taken_toList t
    rw [ho] at hpre ⊢
    exact toList_eq_of_coe hpre.symm
  · intro j x hij hx
    rw [taken_eq_nil (h.alone ht hd hij hx)]
    rfl

theorem act_inv {c : Config Shared Thread} (hI : Inv c) {i : Nat} {t t' : Thread} {e : Choice} {s' : Shared}
    {new : List Thread} (ht : c.threads[i]? = some t) (ha : act c.shared t e = some (s', t', new)) :
    Inv ⟨s', c.threads.set i t' ++ new⟩ := by
  have h := act_step ha
  have hm := Family.mem_of_get ht
  have hf := hI.fits t hm
  obtain ⟨hass, hnot⟩ := step_asserted h hf
  have hl : t.holds ≤ c.shared.locked.toNat := hI.mutex ▸ Family.le_total _ hm
  have hd : t.drains ≤ c.shared.busy := Nat.le_trans (Family.le_total _ hm) hI.drains
  refine ⟨Family.total_eq_step hI.mutex ht (step_mutex h hl), ?_, fun x hx => ?_, ?_, ?_, ?_⟩
  · have h1 := Family.total_step Thread.drains ht t' new
    have h2 := step_drains h hf hd hI.notifyOperation
    have h3 := hI.drains
    show Family.total Thread.drains (c.threads.set i t' ++ new) ≤ s'.busy
    omega
  · obtain ⟨hf', hnew⟩ := step_fits h hf
    rcases Family.step_cases ht hx with rfl | hx | ⟨j, hij, hx⟩
    · exact hf'
    · exact hnew x hx
    · have hfx := hI.fits x (Family.mem_of_get hx)
      by_cases hjobs : t.drains = 0 ∨ t.holds = 0
      · obtain ⟨l, hl⟩ := step_jobs h hjobs
        show x.Fits s'.jobs
        rw [hl]
        exact hfx.append l
      · rw [not_or] at hjobs
        have h1 := Family.le_total_of_ne Thread.holds ht hx (Ne.symm hij)
        have h2 := hI.mutex
        have h3 := Bool.toNat_le c.shared.locked
        exact hfx.idle (hI.alone ht hjobs.1 hij hx) (by omega)
  · obtain ⟨pre, hpre, ho⟩ := hI.order
    obtain ⟨pre', ho', heq, hnew⟩ := step_order h hf (fun hd => hI.taken ht hd hpre) ho
    refine ⟨pre', Family.total_eq_step hpre ht ?_, ho'⟩
    have : Family.total (fun t => (t.taken : Multiset Job)) new = 0 := by
      refine List.sum_eq_zero fun y hy => ?_
      obtain ⟨x, hx, rfl⟩ := List.mem_map.mp hy
      rw [hnew x hx]
      rfl
    rw [this, add_zero]
    exact heq
  · exact hass.trans hI.not_asserted
  · exact hnot.trans hI.notifyOperation

theorem call_inv {c : Config Shared Thread} (hI : Inv c) {e : Choice} {s' : Shared} {new : List Thread}
    (h : call c.shared e = some (s', new)) : Inv ⟨s', c.threads ++ new⟩ := by
  have hnew : s' = c.shared ∧ ∃ p, new = [.lock p] ∧ p.drains = 0 ∧ p.taken = [] ∧ ∀ jobs, (Thread.lock p).Fits jobs := by
    cases e with
    | async job | attach | detach => cases h; exact ⟨rfl, _, rfl, rfl, rfl, fun _ => ⟨trivial, rfl⟩⟩
    | _ => cases h
  obtain ⟨rfl, p, rfl, hd, htk, hf⟩ := hnew
  refine ⟨?_, ?_, Family.forall_append hI.fits (by simpa using hf _), ?_, hI.not_asserted, hI.notifyOperation⟩
  · simpa [Thread.holds] using hI.mutex
  · simpa [Thread.drains, hd] using hI.drains
  · simpa [Thread.taken, htk] using hI.order

theorem run_inv {tr : List (Config Shared Thread × Label Choice)} {c : Config Shared Thread}
    (h : operationQueue.Run initial tr c) : Inv c :=
  h.invariant_by initial_inv (fun _ _ _ _ hI _ h => call_inv hI h)
    (fun _ _ _ _ _ _ _ hI _ ht h => act_inv hI ht h) Program.along_true

end Xdispatch.OperationQueue
