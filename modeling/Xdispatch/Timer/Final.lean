import Xdispatch.Timer.Loops

/-!
# What is final about `cancel`

`cancel` stops a timer in two ways: the workers find `m_running` at zero, and
the operations find the cancelable disabled. The second is for good. The first
is not: zero is also what a suspended timer has, and a later `resume` counts on
from there.
-/

namespace Xdispatch.Timer

open Dispatch (weigh next_moves)

/-- The workers started so far. -/
def workers (c : Config Shared Thread) : Nat := weigh (fun _ => 1) c

/-- The operations queued so far. -/
def queued (c : Config Shared Thread) : Nat := c.shared.dispatch.barriers.length

def Worker.inLoop (w : Worker) : Nat := if w = .left then 0 else 1

/-- A `cancel` has returned, and the workers have left their loop. -/
def Cancelled (c : Config Shared Thread) : Prop :=
  c.shared.dispatch.cancelled = true ∧ weigh Worker.inLoop c = 0

/-- Since `c`, no worker was started, nothing was queued and no handler was invoked. -/
def Quiet (c d : Config Shared Thread) : Prop :=
  workers d = workers c ∧ queued d = queued c ∧ d.shared.dispatch.invoked = c.shared.dispatch.invoked

section
variable {c c' d : Config Shared Thread} {l : Label Choice}

theorem next_workers (h : timer.next c l = some c') : workers c' = workers c + if starts c l then 1 else 0 := by
  cases next_moves h with
  | method m hl _ hf =>
    have hd := hf fun _ => 1
    rcases method_weigh (c := c) hl fun _ => 1 with ⟨hs, delay, hw⟩ | ⟨hs, hw⟩
    · rw [if_pos hs, workers, hd]
      exact congrArg (workers c + ·) hw
    · change _ = _ + Family.total _ (method c.shared.members m).2 at hd
      rw [hw] at hd
      simp [hs, workers, hd]
  | cancel hl _ hf | step hl _ _ hf =>
    simp [starts_other (c := c) (l := l) (by simp [hl]), workers, hf]
  | worker w w' k inv hl hm hw _ hf =>
    simpa [starts_other (c := c) (l := l) (by simp [hl]), workers] using hf fun _ => 1

theorem next_idle (hw : weigh Worker.inLoop c = 0) (hs : starts c l = false) (h : timer.next c l = some c') :
    weigh Worker.inLoop c' = 0 ∧ queued c' = queued c := by
  cases next_moves h with
  | method m hl hc hf =>
    rcases method_weigh (c := c) hl Worker.inLoop with ⟨hs', -⟩ | ⟨-, hnew⟩
    · rw [hs] at hs'
      cases hs'
    · have hd := hf Worker.inLoop
      change _ = _ + Family.total _ (method c.shared.members m).2 at hd
      rw [hnew, hw] at hd
      exact ⟨hd, by rw [queued, hc]; rfl⟩
  | cancel _ hc hf => exact ⟨(hf _).trans hw, by rw [queued, hc]; rfl⟩
  | worker w w' k inv _ hm hw' _ _ =>
    have h0 : w.inLoop = 0 := Family.total_eq_zero.mp hw _ hm
    cases (by simpa [Worker.inLoop] using h0 : w = .left)
    cases hw'
  | step _ _ hb hf => exact ⟨(hf _).trans hw, hb⟩

/-- **Finality of `cancel`.** From a reachable state in which a `cancel` has returned
and the workers have left their loop, a run is quiet throughout exactly when no
`resume` of it finds `m_running` at zero. -/
theorem cancel_final_iff {queue : Nat} {tr₀ tr : List (Config Shared Thread × Label Choice)}
    (h₀ : timer.Run (initial queue) tr₀ c) (hc : Cancelled c) (h : timer.Run c tr d) :
    Program.Along (fun c l => starts c l = false) tr ↔ (∀ p ∈ tr, Quiet c p.1) ∧ Quiet c d := by
  have hd := Dispatch.run_disabled h₀ (Or.inl hc.1)
  refine h.along_iff (I := fun d => Quiet c d ∧ weigh Worker.inLoop d = 0 ∧
      d.shared.dispatch.cancelable.active = .disabled) ⟨⟨rfl, rfl, rfl⟩, hc.2, hd⟩
    (fun d l d' hI hC hn => ?_) (fun d hI => hI.1) fun d l d' hI hC hn hq => ?_
  · obtain ⟨⟨h1, h2, h3⟩, hw, hd⟩ := hI
    obtain ⟨hw', hq'⟩ := next_idle hw hC hn
    obtain ⟨hd', hi'⟩ := Dispatch.next_invoked hd hn
    have h1' := next_workers hn
    rw [if_neg (by simpa using hC)] at h1'
    exact ⟨⟨h1'.trans h1, hq'.trans h2, hi'.trans h3⟩, hw', hd'⟩
  · have hw := next_workers hn
    rw [if_pos (by simpa using hC), hI.1.1, hq.1] at hw
    omega

end

/-- A cancelled timer whose worker has left its loop. -/
def cancelled : List (Label Choice) :=
  periodic ++ (.call .cancel :: steps 2 1 : List (Label Choice)) ++ works 0 1

theorem cancel_final_suspended : Quiet (timer.last (initial 0) cancelled) (timer.last
    (timer.last (initial 0) cancelled) [.call (.method .suspend), .call (.method (.resume 0))]) :=
  ((cancel_final_iff (Program.run_last (by decide)) ⟨by decide, by decide⟩ (Program.run_last (by decide))).mp
    (by decide)).2

/-- A `resume` of the cancelled timer starts a worker, which queues an operation. -/
theorem cancel_not_final : ¬ ∀ tr₀ c tr d, timer.Run (initial 0) tr₀ c → Cancelled c → timer.Run c tr d →
    workers d = workers c ∧ queued d = queued c := by
  intro hall
  have := hall _ _ _ _ (Program.run_last (l := cancelled) (by decide)) ⟨by decide, by decide⟩
    (Program.run_last (l := .call (.method (.resume 0)) :: works 3 2) (by decide))
  exact absurd this (by decide)

end Xdispatch.Timer
