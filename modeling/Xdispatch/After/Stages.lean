import Xdispatch.After.Model

/-!
# The course of an `after`

The timer of an `after` is resumed once, so there is one worker, which dispatches
once. Every state of a run is one of the stages below (`next_config`), and each
step goes on to a later one.
-/

namespace Xdispatch.After

/-- What the worker and then its operation have come to; from `queued` to `completing` the
worker waits, and at the end the operation may outlast it. -/
inductive Progress where
  | sleeping
  | queueing
  | queued
  | execute
  | cancel
  | disabling
  | reset
  | return
  | completing
  | leaving (left : Bool)
  | releasing (left : Bool)
  | done (left : Bool)
  deriving DecidableEq

inductive Stage where
  | construct
  | assign
  | resume
  | resumed (returned : Bool) (p : Progress)
  deriving DecidableEq

namespace Progress

def worker : Progress → Option Progress
  | .sleeping => some .queueing
  | .queueing => some .queued
  | .leaving false => some (.leaving true)
  | .releasing false => some (.releasing true)
  | .done false => some (.done true)
  | _ => none

def operation : Progress → Option Progress
  | .queued => some .execute
  | .execute => some .cancel
  | .cancel => some .disabling
  | .disabling => some .reset
  | .reset => some .return
  | .return => some .completing
  | .completing => some (.leaving false)
  | .leaving left => some (.releasing left)
  | .releasing left => some (.done left)
  | _ => none

def rank : Progress → Nat
  | .sleeping => 12
  | .queueing => 11
  | .queued => 10
  | .execute => 9
  | .cancel => 8
  | .disabling => 7
  | .reset => 6
  | .return => 5
  | .completing => 4
  | .leaving left => if left then 2 else 3
  | .releasing left => if left then 1 else 2
  | .done left => if left then 0 else 1

/-- The operation has been executed. -/
def past : Progress → Bool
  | .sleeping | .queueing | .queued | .execute => false
  | _ => true

def cancelled : Progress → Bool
  | .sleeping | .queueing | .queued | .execute | .cancel => false
  | _ => true

def disabled : Progress → Bool
  | .disabling => false
  | p => p.cancelled

def workerAt (delay : Int) : Progress → Timer.Worker
  | .sleeping => .sleeping delay
  | .queueing => .queueing ⟨some 0, 0⟩ 0
  | .leaving true | .releasing true | .done true => .left
  | _ => .waiting 0 0

def job : Progress → Option (Dispatch.OperationPhase × Body)
  | .sleeping | .queueing => none
  | .queued => some (.queued, .execute)
  | .execute => some (.running, .execute)
  | .cancel => some (.running, .cancel)
  | .disabling => some (.disabling, .reset)
  | .reset => some (.running, .reset)
  | .return => some (.running, .return)
  | .completing => some (.completing true, .return)
  | .leaving _ => some (.leaving, .return)
  | .releasing _ => some (.releasing, .return)
  | .done _ => some (.done, .return)

def cancelable : Progress → Cancelable
  | .sleeping | .queueing | .queued => ⟨.enabled, false⟩
  | .execute | .cancel | .disabling => ⟨.running, false⟩
  | .done _ => ⟨.disabled, true⟩
  | _ => ⟨.disabled, false⟩

def barriers : Progress → List Bool
  | .sleeping | .queueing => []
  | .leaving _ | .releasing _ | .done _ => [true]
  | _ => [false]

def invoked : Progress → Nat
  | .sleeping | .queueing | .queued => 0
  | _ => 1

/-- The handler still has its reference to the timer. -/
def owner (k : Kind) : Progress → Bool
  | .return | .completing | .leaving _ | .releasing _ | .done _ => !k.delayed
  | _ => true

end Progress

namespace Stage

def step : Stage → Nat → Option Stage
  | .construct, 0 => some .assign
  | .assign, 0 => some .resume
  | .resume, 0 => some (.resumed false .sleeping)
  | .resumed false p, 0 => some (.resumed true p)
  | .resumed r p, 1 => p.worker.map (.resumed r)
  | .resumed r p, 2 => p.operation.map (.resumed r)
  | _, _ => none

def rank : Stage → Nat
  | .construct => 16
  | .assign => 15
  | .resume => 14
  | .resumed returned p => p.rank + if returned then 0 else 1

/-- The configuration at a stage. -/
def config (k : Kind) (delay : Int) : Stage → Config Shared Thread
  | .construct => initial
  | .assign => ⟨⟨(Timer.initial 0).shared, true, true, 0⟩, [.call .assign]⟩
  | .resume => ⟨⟨⟨⟨0, 0, some 0, 0⟩, .new⟩, true, true, 0⟩, [.call .resume]⟩
  | .resumed returned p =>
    ⟨⟨⟨⟨if p.cancelled then 0 else 1, 0, some 0, 0⟩, ⟨p.cancelable, p.barriers, p.invoked, p.disabled⟩⟩, true,
        p.owner k, if p.past then 1 else 0⟩,
      .call (if returned then .returned else .release) :: .timer (.worker (p.workerAt delay)) .execute ::
        p.job.toList.map fun j => .timer (.operation ⟨⟨some 0, 0⟩, 0, j.1⟩) j.2⟩

end Stage

/-- A step of the program is one of the stages. -/
theorem next_config (k : Kind) (delay : Int) (st : Stage) (i : Nat) :
    (after k delay).next (st.config k delay) (.act i ()) = (st.step i).map (Stage.config k delay) := by
  match st, i with
  | .construct, 0 | .assign, 0 | .resume, 0 => rfl
  | .construct, i + 1 | .assign, i + 1 | .resume, i + 1 => rfl
  | .resumed returned p, 0 => cases returned <;> cases p <;> rfl
  | .resumed returned p, 1 => cases returned <;> cases p with
    | leaving left | releasing left | done left => cases left <;> rfl
    | _ => rfl
  | .resumed returned p, 2 => cases k <;> cases returned <;> cases p with
    | leaving left | releasing left | done left => cases left <;> rfl
    | _ => rfl
  | .resumed returned p, i + 3 => cases returned <;> cases p <;> rfl

theorem Progress.worker_rank {p p' : Progress} (h : p.worker = some p') : p'.rank < p.rank := by
  cases p with
  | sleeping | queueing =>
    cases h
    decide
  | leaving left | releasing left | done left =>
    cases left <;> cases h
    decide
  | _ => cases h

theorem Progress.operation_rank {p p' : Progress} (h : p.operation = some p') : p'.rank < p.rank := by
  cases p with
  | leaving left | releasing left =>
    cases h
    cases left <;> decide
  | sleeping | queueing | done => cases h
  | _ =>
    cases h
    decide

theorem Stage.step_rank {st st' : Stage} {i : Nat} (h : st.step i = some st') : st'.rank < st.rank := by
  unfold Stage.step at h
  split at h
  case h_5 r p =>
    obtain ⟨p', hp, rfl⟩ := Option.map_eq_some_iff.mp h
    exact Nat.add_lt_add_right (Progress.worker_rank hp) _
  case h_6 r p =>
    obtain ⟨p', hp, rfl⟩ := Option.map_eq_some_iff.mp h
    exact Nat.add_lt_add_right (Progress.operation_rank hp) _
  case h_7 => cases h
  all_goals
    cases h
    simp [Stage.rank, Progress.rank]

theorem run_config {k : Kind} {delay : Int} {tr : List (Config Shared Thread × Label Unit)} {c : Config Shared Thread}
    (h : (after k delay).Run initial tr c) :
    ∃ st : Stage, c = st.config k delay ∧ tr.length + st.rank ≤ 16 := by
  induction h with
  | nil => exact ⟨.construct, rfl, le_rfl⟩
  | @snoc tr c l c' _ hn ih =>
    obtain ⟨st, rfl, hle⟩ := ih
    cases l with
    | call e => cases hn
    | act i e =>
      rw [next_config, Option.map_eq_some_iff] at hn
      obtain ⟨st', hst, rfl⟩ := hn
      have := Stage.step_rank hst
      refine ⟨st', rfl, ?_⟩
      rw [List.length_append, List.length_singleton]
      omega

end Xdispatch.After
