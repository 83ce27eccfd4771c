import Xdispatch.SocketNotifier.Dropped
import Xdispatch.Timer.Dropped

/-!
# Timers and notifiers whose users are gone

The destructors are written to stop a worker, but they run when no worker is left
that they could stop.
-/

namespace Xdispatch.Dispatch

section
variable {μ κ : Type}

def calls (ms : List μ) : List (Label (Use μ κ)) := ms.map fun m => .call (.of (.method m))

def works (i : Nat) (ks : List κ) : List (Label (Use μ κ)) := ks.map fun k => .act i (.of (.worker k))

def steps (i n : Nat) : List (Label (Use μ κ)) := List.replicate n (.act i (.of .step))

end

/-- **The last user.** When the last user reference of a resumed periodic timer is dropped,
that stops it exactly if all its workers are on their last iteration then, and no two of them
have still to queue an invocation. A resumed notifier has a worker with its cookie, which goes
on in any case. -/
theorem lastUser_stops_iff (queue : Nat) :
    (∀ tr c c', Timer.impl.counted.Run (held (Timer.initial queue)) tr c →
      Timer.Periodic c.shared.shared.members → c.shared.users = 1 → Timer.loop.Supplied c →
      Timer.impl.counted.next c (.call .drop) = some c' → (Timer.impl.Stops c' ↔ Timer.loop.Finishes c)) ∧
    ∀ tr c c', SocketNotifier.impl.counted.Run (SocketNotifier.posixHeld queue) tr c →
      SocketNotifier.Resumed c.shared.shared.members → c.shared.users = 1 → SocketNotifier.loop.Supplied c →
      SocketNotifier.impl.counted.next c (.call .drop) = some c' → ¬ SocketNotifier.impl.Stops c' := by
  constructor
  · intro tr c c' h hres hu hS hn
    exact Timer.loop.drop_stops_iff (Loop.run_inv h) hS hres hu hn
  · intro tr c c' h hres hu hS hn
    rw [SocketNotifier.loop.drop_stops_iff (Loop.run_inv h) hS hres hu hn]
    exact (SocketNotifier.run_carried h).not_finishes hres

/-- The notifier was suspended while its worker was in `select`, and resumed. -/
def reselected : List (Label (Use SocketNotifier.Method SocketNotifier.Reported)) :=
  calls [SocketNotifier.Method.handler 0, .resume] ++ works 0 [SocketNotifier.Reported.step] ++
    calls [SocketNotifier.Method.suspend, .resume]

/-- A timer that was single shot when its worker copied the interval, and a notifier with a worker
whose cookie has changed, and one whose has not. -/
theorem lastUser_stops_iff_lastIteration :
    Timer.impl.Stops ⟨⟨⟨⟨1, 10, some 0, 0⟩, .new⟩, 0, 1⟩, [.worker (.queueing ⟨some 0, 0⟩ 0)]⟩ ∧
    ¬ SocketNotifier.impl.Stops (SocketNotifier.impl.counted.last (SocketNotifier.posixHeld 0)
      (reselected ++ [.call .drop])) := by
  constructor
  · refine ((lastUser_stops_iff 0).1 _ ⟨⟨⟨⟨1, 10, some 0, 0⟩, .new⟩, 1, 2⟩, [.worker (.queueing ⟨some 0, 0⟩ 0)]⟩ _
      (Program.run_exec (show Program.exec _ _ (calls [Timer.Method.handler 0, .resume 0] ++ works 0 [()] ++
        calls [Timer.Method.interval 10]) = _ by decide))
      ⟨by decide, by decide⟩ rfl ⟨by decide, by decide⟩ rfl).mpr ⟨fun w hw => ?_, by decide⟩
    cases List.mem_singleton.mp hw
    rfl
  · exact (lastUser_stops_iff 0).2 _ (SocketNotifier.impl.counted.last (SocketNotifier.posixHeld 0) reselected) _
      (Program.run_last (by decide)) (by decide) (by decide) ⟨by decide, by decide⟩ (by decide)

/-- The worker of either queues two invocations after the last user is gone. -/
theorem lastUser_not_stops :
    (¬ ∀ tr c c' tr' d, Timer.impl.counted.Run (held (Timer.initial 0)) tr c →
      Timer.Periodic c.shared.shared.members → c.shared.users = 1 →
      Timer.impl.counted.next c (.call .drop) = some c' → Timer.impl.counted.Run c' tr' d →
      d.shared.shared.dispatch.barriers.length ≤ c'.shared.shared.dispatch.barriers.length + 1) ∧
    ¬ ∀ tr c c' tr' d, SocketNotifier.impl.counted.Run (SocketNotifier.posixHeld 0) tr c →
      SocketNotifier.Resumed c.shared.shared.members → c.shared.users = 1 →
      SocketNotifier.impl.counted.next c (.call .drop) = some c' → SocketNotifier.impl.counted.Run c' tr' d →
      d.shared.shared.dispatch.barriers.length ≤ c'.shared.shared.dispatch.barriers.length + 1 := by
  constructor
  · intro hall
    have := hall _ _ _ _ _ (Program.run_last (l := calls [.handler 0, .interval 10, .resume 0]) (by decide))
      ⟨by decide, by decide⟩ (by decide) rfl
      (Program.run_last (l := works 0 [(), ()] ++ steps 1 4 ++ works 0 [(), (), ()]) (by decide))
    exact absurd this (by decide)
  · intro hall
    have := hall _ _ _ _ _ (Program.run_last (l := calls [.handler 0, .resume]) (by decide))
      (by decide) (by decide) rfl
      (Program.run_last (l := works 0 [SocketNotifier.Reported.step, .selected .ready, .step, .step] ++ steps 1 4 ++
        works 0 [SocketNotifier.Reported.step, .selected .ready, .step, .step]) (by decide))
    exact absurd this (by decide)

end Xdispatch.Dispatch
