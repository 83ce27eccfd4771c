import Xdispatch.Lib.Serial
import Xdispatch.WaitableQueue.Invariant

/-!
# The waitable queue is serial

Whoever runs an operation, an execution of the inner queue or a thread that
waits, takes the first of the list while nobody else is active. A thread that
helps leaves an execution of the inner queue without an operation, so there are
never fewer of these than operations.
-/

namespace Xdispatch.WaitableQueue

def Thread.running : Thread → Multiset Nat
  | .executing _ op => {op}
  | _ => 0

def executions (c : Config Shared Thread) : Serial Nat :=
  ⟨c.shared.added, c.shared.started, Family.total Thread.running c.threads⟩

theorem card_running (l : List Thread) : (Family.total Thread.running l).card = Family.total Thread.executes l := by
  induction l with
  | nil => rfl
  | cons t l ih =>
    rw [Family.total_cons, Family.total_cons, Multiset.card_add, ih]
    cases t <;> rfl

theorem running_drained (caller : Option Waiter) : (drained caller).running = 0 := by
  cases caller <;> rfl

section
variable {c : Config Shared Thread} {i : Nat} {t t' : Thread} {s' : Shared}

theorem Inv.card_le (hI : Inv c) : (Family.total Thread.running c.threads).card ≤ 1 := by
  rw [card_running, hI.active]
  exact Bool.toNat_le _

theorem Inv.running_eq_zero (hI : Inv c) (ha : c.shared.active = false) : Family.total Thread.running c.threads = 0 := by
  rw [← Multiset.card_eq_zero, card_running, hI.active, ha]
  rfl

theorem act_serial (hI : Inv c) (ht : c.threads[i]? = some t) (h : Moves c.shared t s' t') :
    Relation.ReflTransGen Serial.Step (executions c) (executions ⟨s', c.threads.set i t' ++ []⟩) := by
  have htot := Family.total_step Thread.running ht t' []
  rw [Family.total_nil, add_zero] at htot
  have hstay : t.running = t'.running → Family.total Thread.running (c.threads.set i t' ++ []) =
      Family.total Thread.running c.threads := by
    intro heq
    rw [heq] at htot
    exact add_right_cancel htot
  have key : s'.added = c.shared.added → s'.started = c.shared.started → t.running = t'.running →
      Relation.ReflTransGen Serial.Step (executions c) (executions ⟨s', c.threads.set i t' ++ []⟩) := by
    intro h1 h2 h3
    unfold executions
    simp only [h1, h2, hstay h3]
    exact .refl
  cases h with
  | add op =>
    have := hstay rfl
    refine .single ?_
    unfold executions
    rw [this]
    exact .append _ op
  | @take caller _ op rest hd ha hops =>
    have h0 := hI.running_eq_zero ha
    have hr : t.running = 0 := by cases hd <;> rfl
    rw [h0, hr, add_zero, zero_add] at htot
    refine .single ?_
    unfold executions
    rw [htot]
    refine .start ⟨_, _, _⟩ op h0 ⟨rest, ?_⟩
    have := hI.history
    rw [hops] at this
    simpa using this
  | @finish caller op =>
    have hle := hI.card_le
    have hc := congrArg Multiset.card htot
    rw [running_drained, add_zero, Multiset.card_add] at hc
    have h0 : Family.total Thread.running (c.threads.set i (drained caller) ++ []) = 0 := by
      rw [← Multiset.card_eq_zero]
      simp only [Thread.running, Multiset.card_singleton] at hc
      omega
    refine .single ?_
    unfold executions
    rw [h0]
    exact .finish _
  | drainBlocks hd => exact key rfl rfl (by cases hd <;> rfl)
  | drainEmpty hd =>
    refine key rfl rfl ?_
    rw [running_drained]
    cases hd <;> rfl
  | waitBlocks _ hw | starves _ hw | returns _ hw => exact key rfl rfl (by cases hw <;> rfl)
  | post => exact key rfl rfl rfl

end

theorem call_serial {c : Config Shared Thread} {e : Choice} {s' : Shared} {new : List Thread}
    (h : call c.shared e = some (s', new)) : executions ⟨s', c.threads ++ new⟩ = executions c := by
  cases e with
  | async op | wait w =>
    cases h
    simp [executions, Thread.running]
  | run =>
    unfold call at h
    simp only [] at h
    split at h
    · cases h
    · cases h
      simp [executions, Thread.running]
  | _ => cases h

theorem next_serial {c c' : Config Shared Thread} {l : Label Choice} (hI : Inv c) (h : waitableQueue.next c l = some c') :
    Relation.ReflTransGen Serial.Step (executions c) (executions c') := by
  cases l with
  | call e =>
    obtain ⟨s', new, hc, rfl⟩ := Program.next_call h
    rw [call_serial hc]
  | act i e =>
    obtain ⟨t, s', t', ht, ha, rfl⟩ := next_act_of h
    exact act_serial hI ht (moves_of_act ha)

/-- Operations start one at a time in the order in which they were added, and
those listed are no more than the executions that the inner queue, or an
`async`, owes. -/
structure InOrder (c : Config Shared Thread) : Prop where
  serial : Serial.Reachable (executions c)
  once : c.shared.started ++ c.shared.operations = c.shared.added
  owed : c.shared.operations.length ≤ c.shared.inner + Family.total Thread.owes c.threads

/-- **The waitable queue** runs its operations once, in order and one at a time, over any inner queue. -/
theorem run_serially {tr : List (Config Shared Thread × Label Choice)} {c : Config Shared Thread}
    (h : waitableQueue.Run initial tr c) : InOrder c := by
  have hI := run_inv h
  refine ⟨?_, hI.history, hI.owed⟩
  induction h with
  | nil => exact .refl
  | snoc hr hn ih => exact (ih (run_inv hr)).trans (next_serial (run_inv hr) hn)

theorem run_started {tr : List (Config Shared Thread × Label Choice)} {c : Config Shared Thread}
    (h : waitableQueue.Run initial tr c) (h0 : c.shared.inner + Family.total Thread.owes c.threads = 0) :
    c.shared.started = c.shared.added := by
  have hI := run_inv h
  have howed := hI.owed
  have : c.shared.operations = [] := List.length_eq_zero_iff.mp (by omega)
  rw [← hI.history, this, List.append_nil]

/-- A waiter helps with the first operation, and the inner queue's execution takes the second. -/
def helped : List (Label Choice) :=
  Label.call (Choice.async 0) :: List.replicate 2 (.act 0 .step) ++
    Label.call (Choice.wait .one) :: List.replicate 2 (.act 1 .step) ++
    Label.call (Choice.async 1) :: List.replicate 2 (.act 2 .step) ++
    [Label.call Choice.run, .act 3 .step, .act 1 .step, .act 3 .step]

theorem run_serially_helped : InOrder (waitableQueue.last initial helped) ∧
    (waitableQueue.last initial helped).shared.started = [0, 1] :=
  ⟨run_serially (Program.run_last (l := helped) (by decide)), by decide⟩

end Xdispatch.WaitableQueue
