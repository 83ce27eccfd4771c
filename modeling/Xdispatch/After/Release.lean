import Xdispatch.Lib.Ownership
import Xdispatch.After.Stages

/-!
# What is left of an `after`

The operation is executed once with each kind of queue. When the worker has ended,
a `delayed_operation` has let go of the timer, so that nothing keeps the rest. The
lambda of a waitable queue still owns the timer that owns it.
-/

namespace Xdispatch.After

open Ownership (Counted Held Acyclic)

/-- The operation has been executed and the worker has ended. -/
def Ended (c : Config Shared Thread) : Bool :=
  0 < c.shared.executed && c.threads.any fun t => match t with
    | .timer (.worker .left) _ => true
    | _ => false

/-- No thread can go on. -/
def Finished (k : Kind) (delay : Int) (c : Config Shared Thread) : Prop := ∀ l, (after k delay).next c l = none

/-- The queue may have owners of its own. -/
def root (k : Kind) (c : Config Shared Thread) (x : Object) : Prop :=
  x = .queue ∨ c.threads.any (·.roots k x) = true

/-- Only the queue can be alive. -/
def Released (k : Kind) (captures : Bool) (c : Config Shared Thread) : Prop :=
  ∀ alive, Counted (root k c) (owns captures c · ·) alive → ∀ x, alive x → x = .queue

section
variable {k : Kind} {delay : Int} {captures : Bool} {st : Stage}

/-- The worker has ended, so the handler has returned. -/
def Stage.ended : Stage → Bool
  | .resumed _ (.leaving true) | .resumed _ (.releasing true) | .resumed _ (.done true) => true
  | _ => false

theorem ended_config (k : Kind) (delay : Int) (st : Stage) : Ended (st.config k delay) = st.ended := by
  cases st with
  | resumed returned p => cases p with
    | leaving left | releasing left | done left => cases left <;> rfl
    | _ => rfl
  | _ => rfl

theorem finished_config (h : Finished k delay (st.config k delay)) : st = .resumed true (.done true) := by
  have hn : ∀ i, st.step i = none := fun i => by
    simpa [next_config] using h (.act i ())
  cases st with
  | resumed returned p =>
    cases returned with
    | false => cases hn 0
    | true =>
      have h1 : p.worker = none := by simpa [Stage.step] using hn 1
      have h2 : p.operation = none := by simpa [Stage.step] using hn 2
      cases p with
      | done left =>
        cases left with
        | false => cases h1
        | true => rfl
      | sleeping | queueing => cases h1
      | _ => cases h2
  | _ => cases hn 0

def Object.rank : Object → Nat
  | .job _ => 4
  | .timer => 3
  | .handler => 2
  | .op => 1
  | .queue => 0

theorem ended_handler (he : st.ended = true) : (st.config k delay).shared.handlerTimer = !k.delayed := by
  unfold Stage.ended at he
  split at he
  case h_4 => cases he
  all_goals rfl

theorem ended_queued (he : st.ended = true) (b : Nat) :
    (st.config k delay).threads.any (Thread.isJob b (· = .queued)) = false := by
  unfold Stage.ended at he
  split at he
  case h_4 => cases he
  all_goals simp [Stage.config, Progress.job, Thread.isJob]

/-- Without the timer of the handler the references fall in rank. -/
theorem owns_rank (hk : k.delayed = true) (he : st.ended = true) (x y : Object)
    (h : owns captures (st.config k delay) x y = true) : y.rank < x.rank ∧ x.rank ≤ 4 := by
  unfold owns at h
  split at h
  case h_4 =>
    rw [ended_handler he, hk] at h
    cases h
  case h_6 =>
    rw [ended_queued he] at h
    cases h
  case h_8 => cases h
  all_goals simp [Object.rank]

theorem owns_acyclic (hk : k.delayed = true) (he : st.ended = true) : Acyclic (owns captures (st.config k delay) · ·) :=
  Ownership.acyclic_of_rank Object.rank fun x y h => (owns_rank hk he x y h).1

/-- The timer and the lambda own each other. -/
theorem owns_cycle (hk : k.delayed = false) (he : st.ended = true) :
    Relation.TransGen (owns captures (st.config k delay) · ·) .timer .timer := by
  have hh : owns captures (st.config k delay) .timer .handler = true := by
    cases st with
    | resumed => rfl
    | _ => cases he
  have ht : owns captures (st.config k delay) .handler .timer = true := by
    change (st.config k delay).shared.handlerTimer = true
    rw [ended_handler he, hk]
    rfl
  exact .head hh (.single ht)

/-! ## Once, and released -/

theorem executed_config (k : Kind) (delay : Int) (st : Stage) : (st.config k delay).shared.executed ≤ 1 := by
  cases st with
  | resumed returned p =>
    change (if p.past then 1 else 0) ≤ 1
    split <;> omega
  | _ => exact Nat.zero_le 1

theorem held_queue (he : st.ended = true)
    (hr : ∀ x, (st.config k delay).threads.any (·.roots k x) = false) {x : Object}
    (h : Held (root k (st.config k delay)) (owns captures (st.config k delay) · ·) x) : x = .queue := by
  induction h with
  | root h =>
    apply h.resolve_right
    simp [hr]
  | @owned x y _ ho ih =>
    subst ih
    cases x with
    | job b =>
      change (st.config k delay).threads.any (Thread.isJob b (· = .queued)) = true at ho
      rw [ended_queued he] at ho
      cases ho
    | _ => cases ho

theorem finished_roots (x : Object) :
    (Stage.config k delay (.resumed true (.done true))).threads.any (·.roots k x) = false := by
  cases x <;> simp [Stage.config, Progress.job, Progress.workerAt, Thread.roots]

theorem released_iff : Released k captures (Stage.config k delay (.resumed true (.done true))) ↔ k ≠ .waitable := by
  have hk : k ≠ .waitable ↔ k.delayed = true := by cases k <;> simp [Kind.delayed]
  rw [hk]
  constructor
  · intro h
    apply Bool.eq_true_of_not_eq_false
    intro hk
    have hcyc : Relation.TransGen (owns captures (Stage.config k delay (.resumed true (.done true))) · ·) .timer .timer :=
      owns_cycle hk rfl
    have := h _ (fun x hx => Or.inr ((Ownership.cycle_counted hcyc x hx).resolve_left id)) .timer hcyc
    cases this
  · intro hk alive hc x hx
    have hwf : WellFounded (owns captures (Stage.config k delay (.resumed true (.done true))) · ·) :=
      Ownership.wellFounded_of_rank Object.rank 4 fun x y h => owns_rank hk rfl x y h
    exact held_queue rfl finished_roots (hc.held hwf hx)

/-- **Release.** With each kind of queue a run comes to an end, where the operation has been
executed once. From when the worker has ended the references have no cycle, and at the end
only the queue is alive, exactly if the queue is not a waitable one. -/
theorem after_released_iff {tr : List (Config Shared Thread × Label Unit)} {c : Config Shared Thread}
    (h : (after k delay).Run initial tr c) :
    (c.shared.executed ≤ 1 ∧ tr.length ≤ 16 ∧ (Finished k delay c → c.shared.executed = 1 ∧ Ended c = true)) ∧
      (Ended c = true → (Acyclic (owns captures c · ·) ↔ k ≠ .waitable)) ∧
        (Finished k delay c → (Released k captures c ↔ k ≠ .waitable)) := by
  obtain ⟨st, rfl, hlen⟩ := run_config h
  refine ⟨⟨executed_config k delay st, by omega, fun hf => ?_⟩, fun he => ?_, fun hf => ?_⟩
  · rw [finished_config hf]
    exact ⟨rfl, rfl⟩
  · rw [ended_config] at he
    constructor
    · rintro hA rfl
      exact hA _ (owns_cycle rfl he)
    · intro hk
      have hd : k.delayed = true := by cases k <;> simp_all [Kind.delayed]
      exact owns_acyclic hd he
  · rw [finished_config hf]
    exact released_iff

end

/-- All threads in turn, to the end. -/
def course : List (Label Unit) :=
  List.replicate 3 (Label.act 0 ()) ++ List.replicate 2 (Label.act 1 ()) ++ List.replicate 7 (Label.act 2 ()) ++
    [Label.act 1 ()]

theorem after_released_iff_serial :
    Acyclic (owns true ((after .serial 500).last initial course) · ·) :=
  ((after_released_iff (Program.run_last (by decide))).2.1 (by decide)).mpr (by decide)

theorem after_waitable_cycle : ¬ ∀ k delay captures tr c, (after k delay).Run initial tr c → Ended c = true →
    Acyclic (owns captures c · ·) := by
  intro hall
  have := hall .waitable 500 false _ _ (Program.run_last (l := course) (by decide)) (by decide) .timer
  exact this (.head (show owns _ _ _ .handler = true by decide) (.single (by decide)))

end Xdispatch.After
