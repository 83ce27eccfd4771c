import Xdispatch.Dispatch.Steps
import Xdispatch.Timer.Model

/-!
# How many loops a timer has

A worker sees a suspension only when it wakes up and reads `m_running`, which a
`resume` may have restored by then. So a `resume` that takes `m_running` to one
while a worker of an earlier one has not noticed yet leaves two of them.
-/

namespace Xdispatch.Timer

open Dispatch (weigh next_moves)

/-- A worker that may come to `queue->async` (again). A single shot that waits for
its operation is about to leave. -/
def Worker.dispatches : Worker → Nat
  | .sleeping _ | .queueing _ _ => 1
  | .waiting _ interval => if 0 < interval then 1 else 0
  | .left => 0

def dispatchers (c : Config Shared Thread) : Nat := weigh Worker.dispatches c

/-- A `resume` that hands a worker to the pool. -/
def starts (c : Config Shared Thread) (l : Label Choice) : Bool :=
  match l.choice with
  | .method (.resume _) => c.shared.members.running = 0
  | _ => false

section
variable {c c' : Config Shared Thread} {l : Label Choice}

theorem method_workers (s : Members) (m : Method) :
    (∃ delay, m = .resume delay ∧ s.running = 0 ∧ (method s m).2 = [.sleeping delay]) ∨
      (∀ delay, m = .resume delay → s.running ≠ 0) ∧ (method s m).2 = [] := by
  cases m with
  | resume delay =>
    by_cases h0 : s.running = 0
    · exact Or.inl ⟨delay, rfl, h0, if_pos (by omega)⟩
    · exact Or.inr ⟨fun _ _ => h0, if_neg (by omega)⟩
  | _ => exact Or.inr ⟨by simp, rfl⟩

theorem starts_method {m : Method} (hl : l.choice = .method m) :
    starts c l = true ↔ (∃ delay, m = .resume delay) ∧ c.shared.members.running = 0 := by
  unfold starts
  rw [hl]
  cases m <;> simp

theorem method_weigh {m : Method} (hl : l.choice = .method m) (f : Worker → Nat) :
    starts c l = true ∧ (∃ delay, Family.total f (method c.shared.members m).2 = f (.sleeping delay)) ∨
      starts c l = false ∧ (method c.shared.members m).2 = [] := by
  rcases method_workers c.shared.members m with ⟨delay, rfl, h0, hw⟩ | ⟨hne, hw⟩
  · exact Or.inl ⟨(starts_method hl).mpr ⟨⟨delay, rfl⟩, h0⟩, delay, by simp [hw]⟩
  · refine Or.inr ⟨Bool.eq_false_iff.mpr fun hs => ?_, hw⟩
    obtain ⟨⟨delay, hm⟩, h0⟩ := (starts_method hl).mp hs
    exact hne delay hm h0

theorem starts_other (h : ∀ m, l.choice ≠ .method m) : starts c l = false := by
  unfold starts
  split
  next hl => exact absurd hl (h _)
  · rfl

theorem worker_dispatches {s : Members} {d : Dispatch.State} {w w' : Worker} {inv : Option Dispatch.Invocation}
    (h : worker s d w = some (w', inv)) : w'.dispatches ≤ w.dispatches := by
  cases w with
  | sleeping time =>
    cases h
    split <;> simp [Worker.dispatches]
  | queueing invocation interval =>
    cases h
    simp only [Worker.dispatches]
    split <;> omega
  | waiting barrier interval =>
    simp only [worker] at h
    split at h <;> cases h
    by_cases hi : 0 < interval <;> simp [hi, Worker.dispatches]
  | left => cases h

theorem next_dispatchers (h : timer.next c l = some c') :
    if starts c l then dispatchers c' = dispatchers c + 1 else dispatchers c' ≤ dispatchers c := by
  cases next_moves h with
  | method m hl _ hf =>
    have hd := hf Worker.dispatches
    rcases method_weigh (c := c) hl Worker.dispatches with ⟨hs, delay, hw⟩ | ⟨hs, hw⟩
    · rw [if_pos hs, dispatchers, hd]
      exact congrArg (dispatchers c + ·) hw
    · change _ = _ + Family.total _ (method c.shared.members m).2 at hd
      rw [hw] at hd
      simp [hs, dispatchers, hd]
  | cancel hl _ hf =>
    simp [starts_other (c := c) (l := l) (by simp [hl]), dispatchers, hf]
  | worker w w' k inv hl hm hw _ hf =>
    have hle := worker_dispatches hw
    have hd := hf Worker.dispatches
    rw [starts_other (by simp [hl])]
    simp only [Bool.false_eq_true, ite_false, dispatchers]
    omega
  | step hl _ _ hf =>
    simp [starts_other (c := c) (l := l) (by simp [hl]), dispatchers, hf]

/-- **One loop.** At most one worker of the timer can still dispatch the handler
throughout a run exactly when every `resume` that takes `m_running` to one comes
after the earlier workers have noticed that they were suspended. -/
theorem one_dispatcher_iff {queue : Nat} {tr : List (Config Shared Thread × Label Choice)}
    (h : timer.Run (initial queue) tr c) :
    Program.Along (fun c l => starts c l = true → dispatchers c = 0) tr ↔
      (∀ p ∈ tr, dispatchers p.1 ≤ 1) ∧ dispatchers c ≤ 1 := by
  have h0 : dispatchers (initial queue) ≤ 1 := Nat.zero_le 1
  refine h.along_iff (I := fun c => dispatchers c ≤ 1) h0 (fun c l c' hI hC hn => ?_) (fun c hI => hI)
    fun c l c' _ hC hn => ?_
  · have := next_dispatchers hn
    split at this
    next hs => rw [this, hC hs]
    next hs => exact this.trans hI
  · obtain ⟨hs, hd⟩ := Classical.not_imp.mp hC
    have := next_dispatchers hn
    rw [if_pos hs] at this
    omega

end

/-! ## A suspension that nobody notices -/

def steps (i n : Nat) : List (Label Choice) := List.replicate n (.act i .step)

def works (i n : Nat) : List (Label Choice) := List.replicate n (.act i (.worker ()))

/-- A periodic timer up to the return of its first handler call, with the worker asleep. -/
def periodic : List (Label Choice) :=
  (.call (.method (.handler 0)) :: .call (.method (.interval 10)) :: .call (.method (.resume 0)) ::
    works 0 2 : List (Label Choice)) ++ steps 1 4 ++ works 0 1

/-- The worker wakes up and leaves between the two calls. -/
theorem one_dispatcher_noticed : dispatchers (timer.last (initial 0)
    (periodic ++ (.call (.method .suspend) :: works 0 1 : List (Label Choice)) ++
      ([.call (.method (.resume 0))] : List (Label Choice)))) ≤ 1 :=
  ((one_dispatcher_iff (Program.run_last (by decide))).mp (by decide)).2

/-- A `suspend` comes after its `resume`, and nobody cancels the timer. -/
def balanced (c : Config Shared Thread) (l : Label Choice) : Bool :=
  match l.choice with
  | .method .suspend => 0 < c.shared.members.running
  | .cancel => false
  | _ => true

theorem two_dispatchers : ¬ ∀ tr c, timer.Run (initial 0) tr c →
    Program.Along (fun c l => balanced c l = true) tr → dispatchers c ≤ 1 := by
  intro hall
  have := hall _ _ (Program.run_last
    (l := periodic ++ ([.call (.method .suspend), .call (.method (.resume 0))] : List (Label Choice)))
    (by decide)) (by decide)
  exact absurd this (by decide)

end Xdispatch.Timer
