import Xdispatch.Lib.Record
import Xdispatch.SocketNotifier.Generations

/-!
# `select` on an invalid socket

On a POSIX system the result of `select` is -1 when it fails, and the error is in
`errno`. A worker compares the result with `EBADF`, which it never is, so that the
only thing that takes it out of its loop is a new cookie. As `select` fails at
once, the loop does not even wait until then.
-/

namespace Xdispatch.SocketNotifier

inductive Select where
  | ready
  | timedOut
  | failed (errno : Int)
  deriving DecidableEq

def Select.result : Select → Int
  | .ready => 1
  | .timedOut => 0
  | .failed _ => -1

inductive Reported where
  | step
  | selected (report : Select)
  deriving DecidableEq

def Reported.outcome : Reported → Outcome
  | .step => .step
  | .selected report => .selected report.result

/-- What the notifier sees of a choice. -/
def choice : Dispatch.Choice Method Reported → Choice
  | .method m => .method m
  | .cancel => .cancel
  | .worker k => .worker k.outcome
  | .step => .step

/-- What `select` has reported to a thread last. -/
def report (e : Dispatch.Choice Method Reported) (last : Option Select) : Option Select :=
  match e with
  | .worker (.selected report) => some report
  | _ => last

abbrev PosixThread := Thread × Option Select

abbrev PosixChoice := Dispatch.Choice Method Reported

def posix : Program Shared PosixThread PosixChoice := socketNotifier.recorded choice (fun _ _ e _ => report e) none

def posixInitial (queue : Nat) : Config Shared PosixThread := ⟨(initial queue).shared, []⟩

/-- A worker to which `select` has reported that the socket is invalid has ended, or is about to leave the loop:
it comes back from that `select` and is not in another one. -/
def leaves : PosixThread → Bool
  | (.worker w, some (.failed errno)) => errno ≠ ebadf || w.phase = .selected (-1) || w.phase = .left || w.phase = .invalid
  | _ => true

def Leaves (c : Config Shared PosixThread) : Prop := ∀ t ∈ c.threads, leaves t = true

instance (c : Config Shared PosixThread) : Decidable (Leaves c) := inferInstanceAs (Decidable (∀ t ∈ c.threads, _))

/-- When the worker has locked `m_CS` again after such a `select`, it finds a new cookie: the notifier was
suspended or cancelled. -/
def Superseded (c : Config Shared PosixThread) (l : Label PosixChoice) : Prop :=
  ∀ i w, l = .act i (.worker .step) → c.threads[i]? = some (.worker w, some (.failed ebadf)) →
    w.phase = .selected (-1) → w.cookie ≠ c.shared.members.cookie

section
variable {c c' : Config Shared PosixThread} {l : Label PosixChoice} {w w' : Worker} {s : Members} {d : Dispatch.State}
  {k : Outcome} {inv : Option Dispatch.Invocation} {r : Option Select}

theorem leaves_failed : leaves (.worker w, some (.failed ebadf)) = true ↔
    w.phase = .selected (-1) ∨ w.phase = .left ∨ w.phase = .invalid := by
  simp [leaves, or_assoc]

theorem leaves_of_ne {t : Thread} (h : r ≠ some (.failed ebadf)) : leaves (t, r) = true := by
  cases t with
  | worker w =>
    cases r with
    | none => rfl
    | some o =>
      cases o with
      | failed errno =>
        have hne : errno ≠ ebadf := fun he => h (by rw [he])
        simp [leaves, hne]
      | _ => rfl
  | _ => rfl

theorem worker_failed (hp : w.phase = .selected (-1)) (h : worker s d w k = some (w', inv)) :
    k = .step ∧ w'.phase = if w.cookie = s.cookie then .selecting else .left := by
  cases k with
  | selected res => simp [worker, hp] at h
  | step =>
    have he : ¬ ebadf = -1 := by decide
    simp only [worker, hp, if_neg he, show ¬ (0 : Int) < -1 by decide, ite_false] at h
    split at h
    next hne =>
      cases h
      exact ⟨rfl, (if_neg hne).symm⟩
    · cases h
      exact ⟨rfl, rfl⟩

theorem worker_ended (hp : w.phase = .left ∨ w.phase = .invalid) : worker s d w k = none := by
  cases k <;> rcases hp with hp | hp <;> simp [worker, hp]

theorem worker_selected {res : Int} (h : worker s d w (.selected res) = some (w', inv)) : w'.phase = .selected res := by
  simp only [worker] at h
  split at h <;> cases h
  rfl

theorem worker_leaves {k : Reported} (hl : leaves (.worker w, r) = true)
    (hs : k = .step → r = some (.failed ebadf) → w.phase = .selected (-1) → w.cookie ≠ s.cookie)
    (h : worker s d w k.outcome = some (w', inv)) : leaves (.worker w', report (.worker k) r) = true := by
  cases k with
  | selected o =>
    cases o with
    | failed errno => simp [leaves, report, worker_selected h, Select.result]
    | _ => rfl
  | step =>
    simp only [report]
    by_cases hr : r = some (.failed ebadf)
    · subst hr
      rw [leaves_failed] at hl ⊢
      rcases hl with hp | hp
      · have hne := hs rfl rfl hp
        have := (worker_failed hp h).2
        rw [if_neg hne] at this
        exact Or.inr (Or.inl this)
      · rw [worker_ended hp] at h
        cases h
    · exact leaves_of_ne hr

theorem leaves_new {t : PosixThread} {new : List Thread} (ht : t ∈ new.map (·, none)) : leaves t = true := by
  obtain ⟨u, -, rfl⟩ := List.mem_map.mp ht
  exact leaves_of_ne (by simp)

theorem next_leaves (hL : Leaves c) (hS : Superseded c l) (h : posix.next c l = some c') : Leaves c' := by
  cases l with
  | call e =>
    obtain ⟨s, new, hc, rfl⟩ := Program.next_call h
    obtain ⟨new', -, rfl⟩ := Program.recorded_call hc
    exact fun t ht => (List.mem_append.mp ht).elim (hL t) leaves_new
  | act i e =>
    obtain ⟨⟨t, r⟩, s, t', new, ht, ha, rfl⟩ := Program.next_act h
    obtain ⟨u, new', hP, rfl, rfl⟩ := Program.recorded_act ha
    have hstep := Dispatch.act_step hP
    refine Family.forall_step hL ?_ fun t ht => leaves_new ht
    have hl := hL _ (Family.mem_of_get ht)
    cases e with
    | worker k =>
      cases hstep with
      | worker hw =>
        exact worker_leaves hl (fun hk hr hp => hS i _ (by rw [hk]) (ht.trans (congrArg (fun r => some (_, r)) hr)) hp) hw
    | method m =>
      cases hstep with
      | method => rfl
    | cancel =>
      cases hstep with
      | cancel => rfl
    | step =>
      cases hstep with
      | operation => rfl
      | cancelling => rfl

theorem next_not_leaves (hS : ¬ Superseded c l) (h : posix.next c l = some c') : ¬ Leaves c' := by
  unfold Superseded at hS
  push Not at hS
  obtain ⟨i, w, rfl, ht, hp, hc⟩ := hS
  obtain ⟨⟨t, r⟩, s, t', new, ht', ha, rfl⟩ := Program.next_act h
  cases Option.some.inj (ht'.symm.trans ht)
  obtain ⟨u, new', hP, rfl, rfl⟩ := Program.recorded_act ha
  have hact : owner.act c.shared (.worker w) (.worker .step) = some (s, u, new') := hP
  cases Dispatch.act_step hact with
  | @worker _ w' _ inv hw =>
    have hworker : worker c.shared.members c.shared.dispatch w .step = some (w', inv) := hw
    have hp' := (worker_failed hp hworker).2
    rw [if_pos hc] at hp'
    intro hL
    have hl : leaves (.worker w', some (.failed ebadf)) = true := hL _ (Family.mem_step_self ht' _ _)
    rw [leaves_failed, hp'] at hl
    simp at hl

/-- It is a run of the notifier, whatever `select` reports. -/
theorem posix_run {queue : Nat} {tr : List (Config Shared PosixThread × Label PosixChoice)}
    (h : posix.Run (posixInitial queue) tr c) :
    socketNotifier.Run (initial queue) (Program.abstracted Program.forget (fun _ l => some (l.map choice)) tr)
      (Program.forget c) :=
  Program.recorded_refines.run h

/-- **Closed sockets.** A worker that learns from `select` that its socket is closed leaves, in the
runs in which it has been superseded by then, and in no others. -/
theorem run_leaves_iff {queue : Nat} {tr : List (Config Shared PosixThread × Label PosixChoice)}
    (h : posix.Run (posixInitial queue) tr c) :
    Program.Along Superseded tr ↔ (∀ p ∈ tr, Leaves p.1) ∧ Leaves c :=
  h.along_iff (I := Leaves) (fun t ht => by cases ht) (fun c l c' hI hS hn => next_leaves hI hS hn) (fun _ hI => hI)
    fun c l c' _ hS hn => next_not_leaves hS hn

end

/-! ## The busy loop -/

/-- A `resume`, and its worker gets to `select`. -/
def resumed : List (Label PosixChoice) := [.call (.method .resume), .act 0 (.worker .step)]

/-- The socket is invalid, and the worker looks at its cookie again. -/
def turn : List (Label PosixChoice) := [.act 0 (.worker (.selected (.failed ebadf))), .act 0 (.worker .step)]

theorem ebadf_not_leaves : ∃ tr c, posix.Run (posixInitial 0) tr c ∧ ¬ Leaves c :=
  ⟨_, _, Program.run_last (l := resumed ++ turn) (by decide), by decide⟩

def suspended : List (Label PosixChoice) := resumed ++ Label.call (.method .suspend) :: turn

theorem run_leaves_iff_suspended :
    Program.Along Superseded (posix.path (posixInitial 0) suspended) ↔
      (∀ p ∈ posix.path (posixInitial 0) suspended, Leaves p.1) ∧ Leaves (posix.last (posixInitial 0) suspended) :=
  run_leaves_iff (Program.run_last (by decide))

/-- How often `select` has reported an invalid socket. -/
def invalidReports (tr : List (Config Shared PosixThread × Label PosixChoice)) : Nat :=
  tr.countP fun p => p.2 = .act 0 (.worker (.selected (.failed ebadf)))

/-- With nobody to suspend or cancel the notifier, there is no end to it. -/
theorem exists_spinning : ∀ n, ∃ tr, invalidReports tr = n ∧
    ∃ r, posix.Run (posixInitial 0) tr ⟨⟨⟨none, 0, 1, 0⟩, .new⟩, [(.worker ⟨0, 0, .selecting⟩, r)]⟩
  | 0 => ⟨_, rfl, none, Program.run_exec (l := resumed) rfl⟩
  | n + 1 => by
    obtain ⟨tr, hn, r, h⟩ := exists_spinning n
    refine ⟨_, ?_, some (.failed ebadf), h.extend (l := turn) rfl⟩
    unfold invalidReports at hn ⊢
    rw [List.countP_append, hn]
    rfl

end Xdispatch.SocketNotifier
