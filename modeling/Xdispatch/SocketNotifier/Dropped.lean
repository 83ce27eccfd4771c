import Xdispatch.Dispatch.Dropped
import Xdispatch.SocketNotifier.Posix

/-!
# Notifiers without users

`~socket_notifier_impl` suspends, which moves the cookie on when the counter gets to
zero by that. As with timers, it is the worker which has the last reference. On a
POSIX system nothing but a new cookie takes a worker out of its loop, and while the
notifier is resumed there is always one that has the current cookie.
-/

namespace Xdispatch.SocketNotifier

/-! ## Workers on a POSIX system -/

/-- The result of `select` is not `EBADF`, so the branch for it is not taken. -/
def Worker.posix (w : Worker) : Prop := w.phase ≠ .selected ebadf ∧ w.phase ≠ .invalid

instance (w : Worker) : Decidable w.posix := inferInstanceAs (Decidable (_ ∧ _))

abbrev PosixWorker := { w : Worker // w.posix }

section
variable {s : Members} {d : Dispatch.State} {w w' : Worker} {inv : Option Dispatch.Invocation}

theorem loop_posix (s : Members) (w : Worker) : (w.loop s).posix := by
  by_cases he : w.cookie = s.cookie <;> simp [Worker.loop, Worker.posix, he]

theorem result_ne (report : Select) : report.result ≠ ebadf := by
  cases report <;> simp [Select.result, ebadf]

theorem worker_posix (hw : w.posix) {k : Reported} (h : worker s d w k.outcome = some (w', inv)) : w'.posix := by
  cases k with
  | selected report =>
    refine ⟨fun hp => ?_, by rw [worker_selected h]; simp⟩
    rw [worker_selected h] at hp
    exact result_ne report (WorkerPhase.selected.inj hp)
  | step =>
    have hturn := worker_turns h
    cases hturn with
    | compare => exact loop_posix s w
    | ready | dispatch => exact ⟨nofun, nofun⟩
    | select res hp => simp [Reported.outcome, worker, hp] at h
    | invalid res hp he =>
      have hne : ¬ ebadf = res := fun he => hw.1 (he ▸ hp)
      simp only [Reported.outcome, worker, hp, he, ne_eq, not_true_eq_false, if_neg hne, ite_false] at h
      split at h
      · cases h
      · exact absurd (congrArg (fun r => r.1.phase) (Option.some.inj h)) (by simp [Worker.loop, he])

theorem method_posix (s : Members) (m : Method) : ∀ w ∈ (method s m).2, w.posix := by
  intro w hw
  rcases method_cases s m with ⟨-, -, -, he⟩ | ⟨he, -⟩
  · rw [he] at hw
    split at hw
    · cases List.mem_singleton.mp hw
      exact ⟨nofun, nofun⟩
    · cases hw
  · rw [he] at hw
    cases hw

end

def posixMethod (s : Members) (m : Method) : Members × List PosixWorker :=
  ((method s m).1, (method s m).2.pmap Subtype.mk (method_posix s m))

def posixWorker (s : Members) (d : Dispatch.State) (w : PosixWorker) (k : Reported) :
    Option (PosixWorker × Option Dispatch.Invocation) :=
  (worker s d w k.outcome).pmap (fun r h => (⟨r.1, h⟩, r.2)) fun _ h => worker_posix w.2 h

/-- It takes the steps of a worker. -/
theorem posixWorker_eq {s : Members} {d : Dispatch.State} {w w' : PosixWorker} {k : Reported}
    {inv : Option Dispatch.Invocation} :
    posixWorker s d w k = some (w', inv) ↔ worker s d w k.outcome = some (w'.1, inv) := by
  unfold posixWorker
  rw [Option.pmap_eq_some_iff]
  constructor
  · rintro ⟨⟨v, inv'⟩, h, hv, he⟩
    cases he
    exact hv
  · intro h
    exact ⟨_, worker_posix w.2 h, h, rfl⟩

def impl : Dispatch.Impl Members PosixWorker Method Reported where
  method := posixMethod
  cancel := cancel
  worker := posixWorker
  destroy := suspend
  ended w := w.1.phase = .left

def posixHeld (queue : Nat) : Config (Dispatch.Counted Members) (Dispatch.Thread PosixWorker) :=
  Dispatch.held ⟨(initial queue).shared, []⟩

/-! ## The loop of a worker -/

namespace Worker

def invocation (w : Worker) : Option Dispatch.Invocation :=
  match w.phase with
  | .queueing inv => some inv
  | _ => none

def awaits (w : Worker) : Option Nat :=
  match w.phase with
  | .waiting b => some b
  | _ => none

/-- Its cookie is an old one, or it has left the loop. -/
def finishes (s : Members) (w : Worker) : Bool := w.cookie ≠ s.cookie ∨ w.phase = .left

/-- The steps until it queues its next invocation; after a time-out it comes to `select` again. -/
def rank (w : Worker) : Nat :=
  match w.phase with
  | .starting | .waiting _ => 5
  | .selected res => if 0 < res then 2 else 4
  | .selecting => 3
  | .queueing _ => 1
  | .left | .invalid => 0

end Worker

/-- Its worker is meant to go on. -/
abbrev Resumed (s : Members) : Prop := 0 < s.counter

theorem method_handler (s : Members) (m : Method) (h : s.handler.isSome = true) :
    (method s m).1.handler.isSome = true := by
  cases m with
  | resume =>
    simp only [method, resume]
    split <;> exact h
  | suspend =>
    simp only [method, suspend]
    split <;> exact h
  | handler => rfl
  | targetQueue => exact h

theorem method_new (s : Members) (m : Method) : ∀ w ∈ (method s m).2, w.invocation = none ∧ w.awaits = none := by
  intro w hw
  rcases method_cases s m with ⟨-, -, -, he⟩ | ⟨he, -⟩
  · rw [he] at hw
    split at hw
    · cases List.mem_singleton.mp hw
      exact ⟨rfl, rfl⟩
    · cases hw
  · rw [he] at hw
    cases hw

section
variable {s : Members} {d : Dispatch.State} {w w' : Worker} {inv : Option Dispatch.Invocation} {k : Outcome}

theorem loop_invocation (s : Members) (w : Worker) : (w.loop s).invocation = none ∧ (w.loop s).awaits = none := by
  by_cases he : w.cookie = s.cookie <;> simp [Worker.loop, Worker.invocation, Worker.awaits, he]

theorem worker_invocation (h : worker s d w k = some (w', inv)) : inv = w.invocation ∧
    (∀ i, w'.invocation = some i → i.handler = s.handler) ∧
      ∀ b, w'.awaits = some b → b < (d.async inv).1.barriers.length := by
  have hloop := loop_invocation s w
  unfold worker at h
  split at h
  · split at h
    next hp =>
      cases h
      simp [Worker.invocation, Worker.awaits, hp]
    · cases h
  · split at h
    next hp =>
      cases h
      have hinv : w.invocation = none := by simp [Worker.invocation, hp]
      simp [hloop, hinv]
    next res hp =>
      split at h
      · cases h
        simp [Worker.invocation, Worker.awaits, hp]
      split at h
      · cases h
        simp [Worker.invocation, Worker.awaits, hp]
      split at h <;> cases h
      · simp [Worker.invocation, Worker.awaits, hp]
      · have hinv : w.invocation = none := by simp [Worker.invocation, hp]
        simp [hloop, hinv]
    next i hp =>
      cases h
      simp [Worker.invocation, Worker.awaits, hp, Dispatch.State.async]
    next b hp =>
      split at h <;> cases h
      have hinv : w.invocation = none := by simp [Worker.invocation, hp]
      simp [hloop, hinv]
    all_goals cases h

theorem worker_finishes (hf : w.finishes s = true) (h : worker s d w k = some (w', inv)) :
    w'.finishes s = true ∧ w'.invocation = none ∧ w'.phase.remaining < w.phase.remaining := by
  by_cases he : w.cookie = s.cookie
  · have hp : w.phase = .left := by simpa [Worker.finishes, he] using hf
    cases k <;> simp [worker, hp] at h
  · have hturn := worker_turns h
    refine ⟨by simp [Worker.finishes, hturn.cookie, he], ?_, hturn.remaining he⟩
    cases hturn with
    | compare => exact (loop_invocation s w).1
    | select | dispatch => rfl
    | invalid _ _ hc | ready _ _ _ hc => exact absurd hc he

theorem worker_goes (hw : w.posix) (he : w.phase ≠ .left) (hc : ∀ b, w.awaits = some b → d.completed b = true) :
    ∃ (k : Reported) (w' : Worker) (inv : Option Dispatch.Invocation), worker s d w k.outcome = some (w', inv) ∧
      (¬ w.finishes s = true →
      ¬ w'.finishes s = true ∧ (inv.isSome = true ∨ w'.rank < w.rank)) := by
  -- the condition of the loop holds for a worker that does not finish
  have hloop : 3 < w.rank → ¬ w.finishes s = true →
      ¬ (w.loop s).finishes s = true ∧ ((none : Option Dispatch.Invocation).isSome = true ∨ (w.loop s).rank < w.rank) := by
    intro hr hf
    have hcookie : w.cookie = s.cookie := by
      by_contra hne
      simp [Worker.finishes, hne] at hf
    have hsel : w.loop s = { w with phase := .selecting } := by simp [Worker.loop, hcookie]
    rw [hsel]
    exact ⟨by simp [Worker.finishes, hcookie], Or.inr hr⟩
  cases hp : w.phase with
  | starting => exact ⟨.step, w.loop s, none, by simp [Reported.outcome, worker, hp], hloop (by simp [Worker.rank, hp])⟩
  | selecting =>
    refine ⟨.selected .ready, { w with phase := .selected 1 }, none, by simp [Reported.outcome, Select.result, worker, hp],
      fun hf => ⟨?_, Or.inr ?_⟩⟩
    · simpa [Worker.finishes, hp] using hf
    · simp [Worker.rank, hp]
  | selected res =>
    by_cases hcookie : w.cookie = s.cookie
    · have hres : ¬ ebadf = res := fun he => hw.1 (he ▸ hp)
      by_cases hpos : 0 < res
      · refine ⟨.step, { w with phase := .queueing ⟨s.handler, s.queue⟩ }, none,
          by simp [Reported.outcome, worker, hp, hcookie, hres, hpos], fun _ =>
            ⟨by simp [Worker.finishes, hcookie], Or.inr ?_⟩⟩
        simp [Worker.rank, hp, hpos]
      · exact ⟨.step, w.loop s, none, by simp [Reported.outcome, worker, hp, hcookie, hres, hpos],
          hloop (by simp [Worker.rank, hp, hpos])⟩
    · refine ⟨.step, { w with phase := .left }, none, by simp [Reported.outcome, worker, hp, hcookie], fun hf => ?_⟩
      simp [Worker.finishes, hcookie] at hf
  | queueing i =>
    refine ⟨.step, { w with phase := .waiting d.barriers.length, late := w.late + if w.cookie = s.cookie then 0 else 1 },
      some i, by simp [Reported.outcome, worker, hp], fun hf => ⟨?_, Or.inl rfl⟩⟩
    simpa [Worker.finishes, hp] using hf
  | waiting b =>
    have hb : d.completed b = true := hc b (by simp [Worker.awaits, hp])
    exact ⟨.step, w.loop s, none, by simp [Reported.outcome, worker, hp, hb], hloop (by simp [Worker.rank, hp])⟩
  | left => exact absurd hp he
  | invalid => exact absurd hp hw.2

end

def loop : Dispatch.Loop impl where
  handler s := s.handler
  invocation w := w.1.invocation
  awaits w := w.1.awaits
  resumed := Resumed
  finishes s w := w.1.finishes s = true
  rank w := w.1.rank
  remaining w := w.1.phase.remaining
  method_handler := method_handler
  cancel_handler _ := rfl
  destroy_handler s := by
    simp only [impl, suspend]
    split <;> rfl
  method_new s m w hw := by
    obtain ⟨v, hv, rfl⟩ := List.mem_pmap.mp hw
    exact method_new s m v hv
  worker_turns h := by
    obtain ⟨hinv, hh, hb⟩ := worker_invocation (posixWorker_eq.mp h)
    exact ⟨hinv, hh, hb⟩
  ended_finishes {w} h := by
    have hp : w.1.phase = .left := by simpa [impl] using h
    exact ⟨by simp [Worker.invocation, hp], fun s => by simp [Worker.finishes, hp]⟩
  worker_finishes hf h := worker_finishes hf (posixWorker_eq.mp h)
  goes {s d w} he hc := by
    obtain ⟨k, w', inv, h, hgo⟩ := worker_goes (s := s) w.2 (by simpa [impl] using he) hc
    exact ⟨k, ⟨w', worker_posix w.2 h⟩, inv, posixWorker_eq.mpr h, fun _ => hgo⟩

/-! ## A resumed notifier -/

open Dispatch (weigh)

/-- The workers with the cookie that are in their loop. -/
def looping (cookie : Int) (w : PosixWorker) : Nat := if w.1.cookie = cookie ∧ w.1.phase ≠ .left then 1 else 0

section
variable {c c' : Config (Dispatch.Shared Members) (Dispatch.Thread PosixWorker)} {l : Label (Dispatch.Choice Method Reported)}

/-- While the notifier is resumed, a worker with its cookie is in the loop. -/
def Carried (c : Config (Dispatch.Shared Members) (Dispatch.Thread PosixWorker)) : Prop :=
  Resumed c.shared.members → 0 < weigh (looping c.shared.members.cookie) c

theorem looping_step {s : Members} {d : Dispatch.State} {w w' : PosixWorker} {k : Reported}
    {inv : Option Dispatch.Invocation} (h : posixWorker s d w k = some (w', inv)) :
    looping s.cookie w ≤ looping s.cookie w' := by
  have hturn := worker_turns (posixWorker_eq.mp h)
  by_cases he : w.1.cookie = s.cookie ∧ w.1.phase ≠ .left
  · have hp : w'.1.phase ≠ .left := by
      generalize w'.1 = v at hturn
      cases hturn with
      | compare => simp [Worker.loop, he.1]
      | select | invalid | ready | dispatch => simp
    rw [looping, looping, if_pos he, if_pos ⟨hturn.cookie.trans he.1, hp⟩]
  · rw [looping, if_neg he]
    exact Nat.zero_le _

theorem next_carried (hI : Carried c) (h : impl.toOwner.program.next c l = some c') : Carried c' := by
  intro hres
  cases Dispatch.next_moves h with
  | method m _ hc hf =>
    have hmem : c'.shared.members = (method c.shared.members m).1 := congrArg _ hc
    rw [hmem] at hres ⊢
    rw [hf]
    rcases method_cases c.shared.members m with ⟨h0, hn, hk, hw⟩ | ⟨-, ⟨hn, hk⟩ | ⟨hpos, hn, hk⟩⟩
    · rw [hk]
      by_cases hz : c.shared.members.counter = 0
      · -- a new worker has the current cookie
        have hnew : ⟨c.shared.members.cookie, 0, .starting⟩ ∈ (method c.shared.members m).2 := by
          rw [hw, if_pos hz]
          exact List.mem_singleton_self _
        refine Nat.add_pos_right _ (Nat.lt_of_lt_of_le ?_ (Family.le_total _ (List.mem_pmap.mpr ⟨_, hnew, rfl⟩)))
        simp [looping]
      · exact Nat.add_pos_left (hI (by unfold Resumed; omega)) _
    · rw [hk]
      exact Nat.add_pos_left (hI (by unfold Resumed at hres ⊢; omega)) _
    · have h1 : c.shared.members.counter ≠ 1 := by
        unfold Resumed at hres
        omega
      rw [hk, if_neg h1]
      exact Nat.add_pos_left (hI hpos) _
  | cancel _ hc hf =>
    rw [hc] at hres
    exact absurd hres (show ¬ (0 : Int) < -1 by decide)
  | worker w w' k inv _ _ hw hc hf =>
    rw [hc] at hres ⊢
    have := hf (looping c.shared.members.cookie)
    have := looping_step hw
    have := hI hres
    change 0 < weigh (looping c.shared.members.cookie) c'
    omega
  | step _ hm _ hf =>
    rw [hm] at hres ⊢
    rw [hf]
    exact hI hres

end

section
variable {c c' : Config (Dispatch.Counted Members) (Dispatch.Thread PosixWorker)} {l : Label (Dispatch.Use Method Reported)}

theorem suspend_resumed {s : Members} (h : Resumed (suspend s)) : Resumed s ∧ (suspend s).cookie = s.cookie := by
  unfold suspend at h ⊢
  split at h
  next hpos =>
    have hlt : 0 < s.counter - 1 := h
    exact ⟨hpos, by rw [if_pos hpos, if_neg (Int.ne_of_gt hlt)]⟩
  next hpos => exact absurd h hpos

theorem counted_carried (hA : Dispatch.Accounted impl c) (hI : Carried (Dispatch.base c))
    (h : impl.counted.next c l = some c') : Carried (Dispatch.base c') := by
  have hcount : ∀ {s : Dispatch.Counted Members} {n : Nat} {ts : List (Dispatch.Thread PosixWorker)},
      Carried ⟨s.shared, ts⟩ → Carried ⟨(impl.count s n).shared, ts⟩ := by
    intro s n ts hI hres
    rcases Dispatch.count_members (I := impl) s n with he | ⟨-, he⟩
    · simp only [he] at hres ⊢
      exact hI hres
    · simp only [he] at hres ⊢
      obtain ⟨hres, hk⟩ := suspend_resumed hres
      change 0 < weigh (looping (suspend s.shared.members).cookie) _
      rw [hk]
      exact hI hres
  cases Dispatch.next_counts hA h with
  | of l d n _ _ hn hc =>
    subst hc
    exact hcount (next_carried hI hn)
  | copy _ _ hc | drop _ _ hc =>
    subst hc
    exact hcount hI

theorem run_carried {queue : Nat} {tr : List (Config (Dispatch.Counted Members) (Dispatch.Thread PosixWorker) × _)}
    (h : impl.counted.Run (posixHeld queue) tr c) : Carried (Dispatch.base c) := by
  have hA : Dispatch.Accounted impl (posixHeld queue) := rfl
  have h0 : Carried (Dispatch.base (posixHeld queue)) := fun hres => absurd hres (Int.lt_irrefl 0)
  refine (h.invariant (I := fun c => Dispatch.Accounted impl c ∧ Carried (Dispatch.base c)) (C := fun _ _ => True)
    ⟨hA, h0⟩ (fun c l c' hI _ hn => ?_) Program.along_true).2
  exact ⟨Dispatch.next_accounted hI.1 hn, counted_carried hI.1 hI.2 hn⟩

theorem Carried.not_finishes (hI : Carried (Dispatch.base c)) (hres : Resumed c.shared.shared.members) :
    ¬ loop.Finishes c := by
  intro hf
  have hz : weigh (looping c.shared.shared.members.cookie) (Dispatch.base c) = 0 := by
    refine Dispatch.weigh_eq_zero.mpr fun w hw => if_neg fun h => ?_
    have := hf.1 w hw
    simp [loop, Worker.finishes, h.1, h.2] at this
  exact Nat.ne_of_gt (hI hres) hz

end

end Xdispatch.SocketNotifier
