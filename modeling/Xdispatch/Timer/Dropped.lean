import Xdispatch.Dispatch.Dropped
import Xdispatch.Timer.Model

/-!
# Timers without users

`~timer_impl` resets `m_running`, which is what the loop of the worker looks at. But
the worker has a reference to the timer while it loops.
-/

namespace Xdispatch.Timer

def impl : Dispatch.Impl Members Worker Method Unit where
  toOwner := owner
  destroy s := { s with running := 0 }
  ended w := w = .left

namespace Worker

def invocation : Worker → Option Dispatch.Invocation
  | .queueing inv _ => some inv
  | _ => none

def awaits : Worker → Option Nat
  | .waiting b _ => some b
  | _ => none

/-- It leaves the loop whatever `m_running` is, as a single shot. -/
def finishes : Worker → Bool
  | .sleeping _ => false
  | .queueing _ interval | .waiting _ interval => interval ≤ 0
  | .left => true

/-- The steps until it queues its next invocation. -/
def rank : Worker → Nat
  | .waiting _ _ => 3
  | .sleeping _ => 2
  | .queueing _ _ => 1
  | .left => 0

def remaining : Worker → Nat
  | .queueing _ _ => 2
  | .waiting _ _ => 1
  | .sleeping _ | .left => 0

end Worker

/-- Resumed, and periodic. -/
def Periodic (s : Members) : Prop := 0 < s.running ∧ 0 < s.interval

theorem method_handler (s : Members) (m : Method) (h : s.handler.isSome = true) :
    (method s m).1.handler.isSome = true := by
  cases m <;> first | exact h | rfl

theorem method_new (s : Members) (m : Method) : ∀ w ∈ (method s m).2, w.invocation = none ∧ w.awaits = none := by
  cases m with
  | resume delay =>
    intro w hw
    simp only [method] at hw
    split at hw
    · cases List.mem_singleton.mp hw
      exact ⟨rfl, rfl⟩
    · cases hw
  | _ => simp [method]

section
variable {s : Members} {d : Dispatch.State} {w w' : Worker} {inv : Option Dispatch.Invocation}

theorem worker_turns (h : worker s d w = some (w', inv)) : inv = w.invocation ∧
    (∀ i, w'.invocation = some i → i.handler = s.handler) ∧
      ∀ b, w'.awaits = some b → b < (d.async inv).1.barriers.length := by
  cases w with
  | sleeping time =>
    cases h
    refine ⟨rfl, ?_, ?_⟩ <;> split <;> simp [Worker.invocation, Worker.awaits]
  | queueing i interval =>
    cases h
    simp [Worker.invocation, Worker.awaits, Dispatch.State.async]
  | waiting b interval =>
    simp only [worker] at h
    split at h <;> cases h
    refine ⟨rfl, ?_, ?_⟩ <;> split <;> simp [Worker.invocation, Worker.awaits]
  | left => cases h

theorem worker_finishes (hf : w.finishes = true) (h : worker s d w = some (w', inv)) :
    w'.finishes = true ∧ w'.invocation = none ∧ w'.remaining < w.remaining := by
  cases w with
  | sleeping | left => cases hf <;> cases h
  | queueing i interval =>
    cases h
    exact ⟨hf, rfl, Nat.one_lt_two⟩
  | waiting b interval =>
    have hle : ¬ 0 < interval := by simpa [Worker.finishes] using hf
    simp only [worker, hle, ite_false] at h
    split at h <;> cases h
    exact ⟨rfl, rfl, Nat.one_pos⟩

theorem worker_goes (he : w ≠ .left) (hc : ∀ b, w.awaits = some b → d.completed b = true) :
    ∃ w' inv, worker s d w = some (w', inv) ∧ (Periodic s → ¬ w.finishes = true →
      ¬ w'.finishes = true ∧ (inv.isSome = true ∨ w'.rank < w.rank)) := by
  cases w with
  | sleeping time =>
    refine ⟨_, _, rfl, fun hp _ => ?_⟩
    have hrun : 0 < s.running := hp.1
    have hint : 0 < s.interval := hp.2
    simp [hrun, hint, Worker.finishes, Worker.rank]
  | queueing i interval => exact ⟨_, _, rfl, fun _ hf => ⟨hf, Or.inl rfl⟩⟩
  | waiting b interval =>
    simp only [worker, hc b rfl, ite_true]
    refine ⟨_, _, rfl, fun _ hf => ?_⟩
    have hpos : 0 < interval := by simpa [Worker.finishes] using hf
    simp [hpos, Worker.finishes, Worker.rank]
  | left => exact absurd rfl he

end

def loop : Dispatch.Loop impl where
  handler s := s.handler
  invocation := Worker.invocation
  awaits := Worker.awaits
  resumed := Periodic
  finishes _ w := w.finishes = true
  rank := Worker.rank
  remaining := Worker.remaining
  method_handler := method_handler
  cancel_handler _ := rfl
  destroy_handler _ := rfl
  method_new := method_new
  worker_turns h := worker_turns h
  ended_finishes {w} h := by
    cases (by simpa [impl] using h : w = .left)
    exact ⟨rfl, fun _ => rfl⟩
  worker_finishes hf h := worker_finishes hf h
  goes {s d w} he hc := by
    obtain ⟨w', inv, h⟩ := worker_goes (s := s) (by simpa [impl] using he) hc
    exact ⟨(), w', inv, h⟩

end Xdispatch.Timer
