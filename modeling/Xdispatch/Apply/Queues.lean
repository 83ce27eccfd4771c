import Xdispatch.Apply.Agreement
import Xdispatch.OperationQueue.Serial
import Xdispatch.WaitableQueue.Serial
import Xdispatch.WaitableQueue.Waiting

/-!
# `apply` of the three queues

The parallel queue hands its operations to a pool, which runs each once and in
any order; the serial queue is an `operation_queue`, and the waitable queue
helps itself. All three are lawful executors, so that `apply` does the same on
them. The serial and the waitable queue are ordered as well.
-/

namespace Xdispatch.Apply

/-! ## The parallel queue -/

namespace Parallel

structure Shared where
  executed : List Nat
  started : List Nat
  deriving DecidableEq

/-- `execute` is a call of `m_pool->execute`; `queued` and `running` are with the pool. -/
inductive Thread where
  | execute (x : Nat)
  | returned
  | queued (x : Nat)
  | running (x : Nat)
  | finished
  deriving DecidableEq

inductive Choice where
  | async (x : Nat)
  | step
  deriving DecidableEq

def act (s : Shared) : Thread → Choice → Option (Shared × Thread × List Thread)
  | .execute x, .step => some ({ s with executed := s.executed ++ [x] }, .returned, [.queued x])
  | .queued x, .step => some ({ s with started := s.started ++ [x] }, .running x, [])
  | .running _, .step => some (s, .finished, [])
  | _, _ => none

def call (s : Shared) : Choice → Option (Shared × List Thread)
  | .async x => some (s, [.execute x])
  | .step => none

def parallelQueue : Program Shared Thread Choice := ⟨call, act⟩

def Thread.adding : Thread → Option Nat
  | .execute x => some x
  | _ => none

def Thread.runs : Thread → Option Nat
  | .running x => some x
  | _ => none

def Thread.waits : Thread → Multiset Nat
  | .queued x => {x}
  | _ => 0

end Parallel

def parallel : Executor Parallel.Shared Parallel.Thread Parallel.Choice where
  program := Parallel.parallelQueue
  initial := ⟨⟨[], []⟩, []⟩
  async := .async
  wait := none
  others _ := false
  step := .step
  added := (·.executed)
  started := (·.started)
  adding := Parallel.Thread.adding
  running := Parallel.Thread.runs
  waiting _ := false
  returned t := t == .returned

theorem Parallel.run_once {tr : List (Config Parallel.Shared Parallel.Thread × Label Parallel.Choice)}
    {c : Config Parallel.Shared Parallel.Thread} (h : parallelQueue.Run ⟨⟨[], []⟩, []⟩ tr c) :
    (c.shared.started : Multiset Nat) + Family.total Thread.waits c.threads = c.shared.executed := by
  refine h.invariant_by (C := fun _ _ => True) (I := fun c =>
    (c.shared.started : Multiset Nat) + Family.total Thread.waits c.threads = c.shared.executed) rfl ?_ ?_
    Program.along_true
  · intro c e s new hI _ hc
    cases e with
    | async x =>
      cases hc
      simpa [Thread.waits] using hI
    | step => cases hc
  · intro c i e t s t' new hI _ ht ha
    have htot := Family.total_step Thread.waits ht t' new
    cases t <;> cases e <;> cases ha
    case refine_2.execute.step.refl x =>
      simp only [Thread.waits, Family.total_cons, Family.total_nil, add_zero] at htot ⊢
      rw [htot, ← add_assoc, hI, ← Multiset.coe_add]
      rfl
    case refine_2.queued.step.refl x =>
      simp only [Thread.waits, Family.total_nil, add_zero] at htot ⊢
      rw [← hI, ← htot, ← Multiset.coe_add, Multiset.coe_singleton, add_right_comm, add_assoc]
    case refine_2.running.step.refl x =>
      simp only [Thread.waits, Family.total_nil, add_zero] at htot ⊢
      rw [htot, hI]

theorem parallel_lawful : parallel.Lawful where
  empty := ⟨rfl, rfl, by simp [parallel]⟩
  async s x s' new h := by
    cases h
    exact ⟨⟨rfl, rfl⟩, _, rfl, rfl, rfl⟩
  wait e s s' new h := by cases h
  others s e s' new h := by cases h
  act s t e s' t' new h := by
    cases t <;> cases e <;> cases h
    case execute.step.refl x => exact
      ⟨.add x rfl rfl ⟨rfl, rfl⟩ rfl rfl, by simp [Executor.Idle, parallel, Parallel.Thread.adding, Parallel.Thread.runs]⟩
    case queued.step.refl x => exact ⟨.start x ⟨rfl, rfl⟩ rfl rfl rfl rfl, by simp⟩
    case running.step.refl x => exact ⟨.finish x rfl rfl ⟨rfl, rfl⟩ ⟨rfl, rfl⟩, by simp⟩
  returned t h := by
    cases t with
    | returned => exact ⟨rfl, rfl⟩
    | _ => cases h
  once tr c h := Parallel.run_once h ▸ Multiset.le_add_right _ _
  waited tr c i e c' t t' _ _ h := by cases h

/-! ## The serial queue -/

section
open OperationQueue

def jobId : Job → Option Nat
  | .operation x => some x
  | .detach => none

def jobAdding : OperationQueue.Thread → Option Nat
  | .lock (.asyncPush (some job)) | .holding (.asyncPush (some job)) => jobId job
  | _ => none

def jobRunning : OperationQueue.Thread → Option Nat
  | .drainRunning job _ => jobId job
  | _ => none

def serial : Executor OperationQueue.Shared OperationQueue.Thread OperationQueue.Choice where
  program := operationQueue
  initial := OperationQueue.initial
  async x := .async (some x)
  wait := none
  others e := match e with
    | .async (some _) => false
    | _ => true
  step := .step
  added s := s.appended.filterMap jobId
  started s := s.started.filterMap jobId
  adding := jobAdding
  running := jobRunning
  waiting _ := false
  returned t := t == .returned

theorem notifyUnsafe_idle (s : OperationQueue.Shared) : ∀ t ∈ s.notifyUnsafe, serial.Idle t := by
  intro t ht
  unfold Shared.notifyUnsafe at ht
  split at ht
  · cases List.mem_singleton.mp ht
    exact ⟨rfl, rfl⟩
  · cases ht

theorem serial_holding (s : OperationQueue.Shared) (p : Critical) :
    serial.Moves s (.holding p) (p.act s).1 (p.act s).2.1 ∧ ∀ x ∈ (p.act s).2.2, serial.Idle x := by
  have hstep : ∀ {q : Critical} {job : Option Job}, jobAdding (.holding p) = none → jobAdding (.holding q) = none →
      job.bind jobId = none → serial.Moves s (.holding p) (s.pushBack job) (.holding q) := by
    intro q job h1 h2 hj
    refine .other rfl rfl (h2.trans h1.symm) ⟨?_, rfl⟩
    cases job with
    | none => simp [serial, Shared.pushBack]
    | some job => simp [serial, Shared.pushBack, show jobId job = none from hj]
  cases p with
  | asyncPush job =>
    refine ⟨?_, by simp [Critical.act]⟩
    have hnext : jobAdding (.holding (if s.notifies then .asyncNotify else .unlock)) = none := by split <;> rfl
    cases hj : job.bind jobId with
    | none =>
      refine hstep ?_ hnext hj
      cases job with
      | none => rfl
      | some job => exact hj
    | some x =>
      cases job with
      | none => cases hj
      | some job =>
        exact .add x hj rfl ⟨hnext, rfl⟩
          (by simp [serial, Critical.act, Shared.pushBack, show jobId job = some x from hj]) rfl
  | asyncNotify => exact ⟨.other rfl rfl rfl ⟨rfl, rfl⟩, notifyUnsafe_idle s⟩
  | detachNotify => exact ⟨.other rfl rfl rfl ⟨rfl, rfl⟩, notifyUnsafe_idle s⟩
  | drainYield => exact ⟨.other rfl rfl rfl ⟨rfl, rfl⟩, notifyUnsafe_idle s⟩
  | detachEmpty =>
    simp only [Critical.act]
    split <;> exact ⟨.other rfl rfl rfl ⟨rfl, rfl⟩, by simp⟩
  | detachPush =>
    refine ⟨hstep rfl ?_ rfl, by simp [Critical.act]⟩
    split <;> rfl
  | drainBegin =>
    refine ⟨.other rfl rfl ?_ ⟨rfl, rfl⟩, by simp [Critical.act]⟩
    simp only [serial, Critical.act, drainLoop]
    split
    · rfl
    · split <;> rfl
  | drainPop r =>
    refine ⟨.other rfl rfl ?_ ⟨rfl, rfl⟩, by simp [Critical.act]⟩
    simp only [serial, Critical.act, drainLoop]
    split
    · rfl
    · split <;> rfl
  | drainSwap r =>
    refine ⟨.other rfl rfl rfl ?_, by simp [Critical.act]⟩
    simp only [Critical.act, Shared.swapFront]
    split <;> exact ⟨rfl, rfl⟩
  | attachManager | attachSet | detachReset | drainUnlock | unwindPop | unwindFree | drainEnd | unlock =>
    exact ⟨.other rfl rfl rfl ⟨rfl, rfl⟩, by simp [Critical.act]⟩

theorem runningAll_le (l : List OperationQueue.Thread) :
    (serial.runningAll l).card ≤ (Family.total OperationQueue.Thread.running l).card := by
  induction l with
  | nil => exact Nat.le_refl _
  | cons t l ih =>
    simp only [Executor.runningAll, Family.total_cons, Multiset.card_add] at ih ⊢
    refine Nat.add_le_add ?_ ih
    cases t with
    | drainRunning job r => cases job <;> simp [serial, jobRunning, jobId, OperationQueue.Thread.running]
    | _ => exact Nat.zero_le _

theorem serial_ordered : serial.Ordered := by
  intro tr c h
  have ho := run_inOrder h
  exact ⟨ho.started.filterMap jobId, (runningAll_le c.threads).trans ho.one⟩

theorem serial_lawful : serial.Lawful where
  empty := ⟨rfl, rfl, by simp [serial, OperationQueue.initial]⟩
  async s x s' new h := by
    cases h
    exact ⟨⟨rfl, rfl⟩, _, rfl, rfl, rfl⟩
  wait e s s' new h := by cases h
  others s e s' new he h := by
    cases e with
    | async job =>
      cases job with
      | some x => cases he
      | none =>
        cases h
        exact ⟨⟨rfl, rfl⟩, by simp [Executor.Idle, serial, jobAdding, jobRunning]⟩
    | attach | detach =>
      cases h
      exact ⟨⟨rfl, rfl⟩, by simp [Executor.Idle, serial, jobAdding, jobRunning]⟩
    | _ => cases h
  act s t e s' t' new h := by
    cases act_step h with
    | @lock p =>
      refine ⟨.other rfl rfl ?_ ⟨rfl, rfl⟩, by simp⟩
      cases p with
      | asyncPush job => cases job <;> rfl
      | _ => rfl
    | @holding p => exact serial_holding s p
    | @start job r =>
      refine ⟨?_, by simp⟩
      cases job with
      | operation x => exact .start x ⟨rfl, rfl⟩ rfl rfl (by simp [serial, jobId]) rfl
      | detach => exact .other rfl rfl rfl ⟨rfl, by simp [serial, jobId]⟩
    | skip => exact ⟨.other rfl rfl rfl ⟨rfl, rfl⟩, by simp⟩
    | @finish job r =>
      refine ⟨?_, by simp⟩
      cases job with
      | operation x => exact .finish x rfl rfl ⟨rfl, rfl⟩ ⟨rfl, rfl⟩
      | detach => exact .other rfl rfl rfl ⟨rfl, rfl⟩
    | @throw job r =>
      refine ⟨?_, by simp⟩
      cases job with
      | operation x => exact .finish x rfl rfl ⟨rfl, rfl⟩ ⟨rfl, rfl⟩
      | detach => exact .other rfl rfl rfl ⟨rfl, rfl⟩
    | deadlock => exact ⟨.other rfl rfl rfl ⟨rfl, rfl⟩, by simp⟩
  returned t h := by
    cases t with
    | returned => exact ⟨rfl, rfl⟩
    | _ => cases h
  once tr c h := ((serial_ordered tr c h).1.sublist).subperm
  waited tr c i e c' t t' _ _ h := by cases h

end

/-! ## The waitable queue -/

section
open WaitableQueue

def taskAdding : WaitableQueue.Thread → Option Nat
  | .add x => some x
  | _ => none

def taskRunning : WaitableQueue.Thread → Option Nat
  | .executing _ x => some x
  | _ => none

/-- Within `wait_for_all`. -/
def waitsForAll : WaitableQueue.Thread → Bool
  | .wait .all | .waitBlocked .all _ | .resuming .all | .drain (some .all) | .drainBlocked (some .all) _
  | .executing (some .all) _ => true
  | _ => false

def waitable : Executor WaitableQueue.Shared WaitableQueue.Thread WaitableQueue.Choice where
  program := waitableQueue
  initial := WaitableQueue.initial
  async := .async
  wait := some (.wait .all)
  others e := match e with
    | .async _ => false
    | _ => true
  step := .step
  added := (·.added)
  started := (·.started)
  adding := taskAdding
  running := taskRunning
  waiting := waitsForAll
  returned t := t == .returned

variable {s s' : WaitableQueue.Shared} {t t' : WaitableQueue.Thread}

theorem drained_idle (caller : Option Waiter) : waitable.Idle (drained caller) := by
  cases caller <;> exact ⟨rfl, rfl⟩

theorem waitable_moves (h : WaitableQueue.Moves s t s' t') : waitable.Moves s t s' t' := by
  cases h with
  | add x => exact .add x rfl rfl ⟨rfl, rfl⟩ rfl rfl
  | take h =>
    refine .start _ ?_ rfl rfl rfl rfl
    cases h <;> exact ⟨rfl, rfl⟩
  | finish => exact .finish _ rfl rfl (drained_idle _) ⟨rfl, rfl⟩
  | drainEmpty h =>
    have hd := drained_idle
    cases h <;> exact .other rfl (hd _).2 (hd _).1 ⟨rfl, rfl⟩
  | post => exact .other rfl rfl rfl ⟨rfl, rfl⟩
  | drainBlocks h | waitBlocks _ h | starves _ h | returns _ h => cases h <;> exact .other rfl rfl rfl ⟨rfl, rfl⟩

theorem waitsForAll_moves (h : WaitableQueue.Moves s t s' t') (hw : waitsForAll t = true) :
    waitsForAll t' = true ∨ s'.active = false ∧ s'.operations = [] := by
  cases h with
  | add | post => cases hw
  | @drainBlocks caller _ h | @take caller _ _ _ h =>
    left
    cases h <;> rcases caller with _ | _ | _ <;> first | rfl | cases hw
  | @drainEmpty caller _ h =>
    left
    cases h <;> rcases caller with _ | _ | _ <;> first | rfl | cases hw
  | @finish caller =>
    left
    rcases caller with _ | _ | _ <;> first | rfl | cases hw
  | @waitBlocks w _ _ h | @starves w _ _ h =>
    left
    cases h <;> cases w <;> first | rfl | cases hw
  | @returns w _ _ h hdone =>
    right
    cases h <;> cases w <;> first | exact hdone rfl | cases hw

theorem runningAll_eq (l : List WaitableQueue.Thread) :
    waitable.runningAll l = Family.total WaitableQueue.Thread.running l :=
  Family.total_congr fun t _ => by cases t <;> rfl

theorem waitable_ordered : waitable.Ordered := by
  intro tr c h
  have hI := WaitableQueue.run_inv h
  refine ⟨?_, ?_⟩
  · exact ⟨c.shared.operations, hI.history⟩
  · rw [runningAll_eq]
    exact hI.card_le

theorem waitable_lawful : waitable.Lawful where
  empty := ⟨rfl, rfl, by simp [waitable, WaitableQueue.initial]⟩
  async s x s' new h := by
    cases h
    exact ⟨⟨rfl, rfl⟩, _, rfl, rfl, rfl⟩
  wait e s s' new he h := by
    cases he
    cases h
    exact ⟨⟨rfl, rfl⟩, _, rfl, ⟨rfl, rfl⟩, rfl⟩
  others s e s' new he h := by
    cases e with
    | async x => cases he
    | run =>
      simp only [waitable, waitableQueue, WaitableQueue.call] at h
      split at h
      · cases h
      · cases h
        exact ⟨⟨rfl, rfl⟩, by simp [Executor.Idle, waitable, taskAdding, taskRunning]⟩
    | wait w =>
      cases h
      exact ⟨⟨rfl, rfl⟩, by simp [Executor.Idle, waitable, taskAdding, taskRunning]⟩
    | _ => cases h
  act s t e s' t' new h := by
    simp only [waitable, waitableQueue, Option.map_eq_some_iff, Prod.mk.injEq] at h
    obtain ⟨r, hr, rfl, rfl, rfl⟩ := h
    exact ⟨waitable_moves (moves_of_act hr), by simp⟩
  returned t h := by
    cases t with
    | returned => exact ⟨rfl, rfl⟩
    | _ => cases h
  once tr c h := ((waitable_ordered tr c h).1.sublist).subperm
  waited tr c i e c' t t' h ht hw hn ht' := by
    have hI' := WaitableQueue.run_inv (h.snoc hn)
    obtain ⟨t₁, s₁, t₂, new, ht₁, ha, rfl⟩ := Program.next_act hn
    cases ht.symm.trans ht₁
    cases ht'.symm.trans (Family.get_step ht t₂ new)
    simp only [waitable, waitableQueue, Option.map_eq_some_iff, Prod.mk.injEq] at ha
    obtain ⟨r, hr, rfl, rfl, rfl⟩ := ha
    refine (waitsForAll_moves (moves_of_act hr) hw).imp_right fun hdone => ⟨?_, ?_⟩
    · have := hI'.history
      simp only [hdone.2, List.append_nil] at this
      exact this
    · rw [runningAll_eq]
      exact hI'.running_eq_zero hdone.1

end

/-! ## `apply` of all of them -/

section
variable {σ τ ε : Type}

/-- When a call of `apply` has returned, its operation was executed with indices as `P` says. -/
def Returns (E : Executor σ τ ε) (P : List Nat → List Nat → Prop) : Prop :=
  ∀ tr c u, (applying E).Run (initial E) tr c → u ∈ c.threads → u.phase = .returned →
    P (executedOf c u) (List.range u.times)

/-- **`apply`** executes its operation once with each index, on every queue in every run,
and in the order of the indices on those that have one. -/
theorem apply_agrees : Returns parallel List.Perm ∧ Returns serial Eq ∧ Returns waitable Eq :=
  ⟨fun _ _ _ h hu hr => run_perm parallel_lawful h hu hr,
    fun _ _ _ h hu hr => run_range serial_lawful serial_ordered h hu hr,
    fun _ _ _ h hu hr => run_range waitable_lawful waitable_ordered h hu hr⟩

def inner (n : Nat) (l : Label ε) : List (Label (Choice ε)) := List.replicate n (.call (.inner l))

def body (n i : Nat) : List (Label (Choice ε)) := List.replicate n (.call (.body i))

def own (n : Nat) : List (Label (Choice ε)) := List.replicate n (.act 0 .step)

end

/-- The pool takes the second operation first. -/
def parallelTwice : List (Label (Choice Parallel.Choice)) :=
  Label.call (Choice.apply 2) :: own 1 ++ inner 1 (.act 0 Parallel.Choice.step) ++ own 2 ++
    inner 1 (.act 2 Parallel.Choice.step) ++ own 3 ++ inner 1 (.act 3 Parallel.Choice.step) ++ body 2 3 ++
    inner 1 (.act 1 Parallel.Choice.step) ++ body 3 1 ++ own 1

def serialTwice : List (Label (Choice OperationQueue.Choice)) :=
  inner 1 (.call OperationQueue.Choice.attach) ++ inner 4 (.act 0 OperationQueue.Choice.step) ++
    Label.call (Choice.apply 2) :: own 1 ++ inner 4 (.act 1 OperationQueue.Choice.step) ++ own 2 ++
    inner 3 (.act 3 OperationQueue.Choice.step) ++ own 3 ++ inner 5 (.act 2 OperationQueue.Choice.step) ++ body 3 2 ++
    inner 5 (.act 2 OperationQueue.Choice.step) ++ body 4 2 ++ own 1

/-- The wait takes the first operation, and the inner queue the second. -/
def waitableTwice : List (Label (Choice WaitableQueue.Choice)) :=
  Label.call (Choice.apply 2) :: own 1 ++ inner 2 (.act 0 WaitableQueue.Choice.step) ++ own 2 ++
    inner 2 (.act 1 WaitableQueue.Choice.step) ++ own 2 ++ inner 2 (.act 2 WaitableQueue.Choice.step) ++ body 2 2 ++
    inner 1 (.call WaitableQueue.Choice.run) ++ inner 1 (.act 3 WaitableQueue.Choice.step) ++ body 2 3 ++
    inner 1 (.act 2 WaitableQueue.Choice.step) ++ own 1

theorem apply_agrees_twice :
    (executedOf ((applying parallel).last (initial parallel) parallelTwice) ⟨0, 2, .returned⟩).Perm [0, 1] ∧
    executedOf ((applying serial).last (initial serial) serialTwice) ⟨0, 2, .returned⟩ = [0, 1] ∧
    executedOf ((applying waitable).last (initial waitable) waitableTwice) ⟨0, 2, .returned⟩ = [0, 1] :=
  ⟨apply_agrees.1 _ _ _ (Program.run_last (l := parallelTwice) (by decide)) (by decide) rfl,
    apply_agrees.2.1 _ _ _ (Program.run_last (l := serialTwice) (by decide)) (by decide) rfl,
    apply_agrees.2.2 _ _ _ (Program.run_last (l := waitableTwice) (by decide)) (by decide) rfl⟩

end Xdispatch.Apply
