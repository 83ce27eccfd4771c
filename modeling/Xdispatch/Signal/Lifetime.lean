import Xdispatch.Signal.Model

/-!
# The lifetime of a signal and of its handlers

A signal is destroyed while connections to it exist. What is left of a handler
then is up to its `handler_ptr`s: the list of the signal holds one, the closure of
an invocation until the queue destroys it, which is after the call, and a
`disconnect` that has got past `m_id.lock()` until it returns. A connection has a
weak one, and a plain pointer to the signal. The calls are those of the signal
itself, on stacks as before.
-/

namespace Xdispatch.Signal.Lifetime

variable {α : Type}

inductive Life where
  | alive
  | destroying
  | destroyed
  deriving DecidableEq

/-- `refs h` counts the `handler_ptr`s to `h` that calls in progress hold. -/
structure Shared (α : Type) where
  signal : Signal.Shared α
  refs : HandlerId → Nat
  life : Life

/-- A call in progress. `lockId` is in `connection::disconnect` before `m_id.lock()`;
from there it goes on to lock `m_CS`, which is that of a destroyed signal in
`dangling`. The others are the destructor: before it has locked `m_CS`, at the head
of its loop with the handlers `rest` to go, and in the `m_barrier.wait` of a handler. -/
inductive Frame (α : Type) where
  | call (frame : Signal.Frame α)
  | lockId (handler : HandlerId)
  | dangling (handler : HandlerId)
  | destroyLock
  | destroyNext (rest : List HandlerId)
  | destroyWait (handler : HandlerId) (rest : List HandlerId)
  deriving DecidableEq

abbrev Thread (α : Type) := List (Frame α)

inductive Choice (α : Type) where
  | call (choice : Signal.Choice α)
  | destroy
  deriving DecidableEq

/-- The frame is of a call that uses `m_CS` or `m_handlers`. An invocation only has
its handler, and so has a `disconnect` that has come to `disable`. -/
def accesses : Signal.Frame α → Bool
  | .invoke .. | .disconnectEnd _ | .disable _ none | .disableWait _ none => false
  | _ => true

/-- The `handler_ptr`s to `h` that the frame holds. A synchronous invocation uses
that of the list, the others that of their closure. -/
@[grind] def pointers (h : HandlerId) : Signal.Frame α → Nat
  | .invoke inv _ => if inv.handler = h ∧ inv.handler.mode ≠ .synchronousUpdate then 1 else 0
  | .disconnectLock k | .disconnectErase k | .disconnectEnd k | .disable k none | .disableWait k none =>
    if k = h then 1 else 0
  | _ => 0

namespace Frame

@[grind] def pointers (h : HandlerId) : Frame α → Nat
  | .call f => Lifetime.pointers h f
  | .dangling k => if k = h then 1 else 0
  | _ => 0

def inScope (h : HandlerId) : Frame α → Bool
  | .call f => f.inScope h
  | _ => false

def calls : Frame α → Bool
  | .call f => f.calls
  | _ => false

end Frame

namespace Shared

/-- `m_id.lock()` returns the handler. -/
def held (s : Shared α) (h : HandlerId) : Bool :=
  h ∈ s.signal.handlers || s.signal.queued.any (·.handler = h) || 0 < s.refs h

/-- The frames `into` take the place of `out`. -/
def exchange (s : Shared α) (out into : List (Frame α)) : Shared α :=
  { s with refs := fun h => s.refs h - (out.map (Frame.pointers h)).sum + (into.map (Frame.pointers h)).sum }

def destroyed (s : Shared α) : Shared α :=
  { s with signal := { s.signal with locked := false, handlers := [] }, life := .destroyed }

end Shared

/-- The `disable` of `h` goes on to `m_barrier.wait`. -/
def waitsFor (s : Signal.Shared α) (current : HandlerId → Bool) (h : HandlerId) : Bool :=
  !current h && (s.heap h).cancelable.active = .running

/-- One step of the innermost call, and what stands in its place then. What a call
from before does with a destroyed signal is undefined: it takes no step. -/
def Frame.act (s : Shared α) (current : HandlerId → Bool) : Frame α → Option (Shared α × List (Frame α))
  | .call f =>
    if s.life = .destroyed ∧ accesses f then none
    else (f.act s.signal current).map fun r => ({ s with signal := r.1 }, r.2.map .call)
  | .lockId h =>
    if !s.held h then some (s, [])
    else if s.life = .destroyed then some (s, [.dangling h])
    else some (s, [.call (.disconnectLock h)])
  | .dangling _ => none
  | .destroyLock =>
    if s.signal.locked then none
    else some ({ s with signal := { s.signal with locked := true } }, [.destroyNext s.signal.handlers])
  | .destroyNext [] => some (s.destroyed, [])
  | .destroyNext (h :: rest) =>
    some ({ s with signal := s.signal.modify h (.disable false) },
      [if waitsFor s.signal current h then .destroyWait h rest else .destroyNext rest])
  | .destroyWait h rest => if (s.signal.heap h).cancelable.barrier then some (s, [.destroyNext rest]) else none

/-- What a thread starts a call with. A connection outlives its signal. -/
def Choice.start (s : Shared α) : Choice α → Option (Shared α × Frame α)
  | .call (.disconnect h) => if h.serial < s.signal.size then some (s, .lockId h) else none
  | .call e => if s.life = .destroyed then none else (e.frame s.signal).map fun f => (s, .call f)
  | .destroy => if s.life = .alive then some ({ s with life := .destroying }, .destroyLock) else none

def current (t : Thread α) (h : HandlerId) : Bool := t.any (Frame.inScope h)

def act (s : Shared α) : Thread α → Choice α → Option (Shared α × Thread α × List (Thread α))
  | f :: stack, .call .step =>
    (f.act s (current (f :: stack))).map fun r => (r.1.exchange [f] r.2, r.2 ++ stack, [])
  | f :: stack, e => if f.calls then (e.start s).map fun r => (r.1, r.2 :: f :: stack, []) else none
  | [], _ => none

def call (s : Shared α) : Choice α → Option (Shared α × List (Thread α))
  | .call (.run k) => s.signal.queued[k]?.map fun inv =>
      let s' := { s with signal := { s.signal with queued := s.signal.queued.eraseIdx k } }
      (s'.exchange [] [.call (.invoke inv .enter)], [[.call (.invoke inv .enter)]])
  | e => (e.start s).map fun r => (r.1, [[r.2]])

def lifetime : Program (Shared α) (Thread α) (Choice α) := ⟨call, act⟩

def initial : Config (Shared α) (Thread α) :=
  ⟨⟨Signal.initial.shared, fun _ => 0, .alive⟩, []⟩

/-! ## What a step can do -/

section
variable {c c' : Config (Shared α) (Thread α)} {l : Label (Choice α)} {s s' : Shared α}

/-- The first frame of a call. -/
inductive Begins : Frame α → Prop
  | emitLock (args) : Begins (.call (.emitLock args))
  | connectLock (mode) : Begins (.call (.connectLock mode))
  | skipLock : Begins (.call .skipLock)
  | lockId (h) : Begins (.lockId h)
  | destroyLock : Begins .destroyLock

theorem start_begins {e : Choice α} {g : Frame α} (hs : e.start s = some (s', g)) :
    s'.signal = s.signal ∧ s'.refs = s.refs ∧ (s'.life = .destroyed ↔ s.life = .destroyed) ∧ Begins g := by
  unfold Choice.start at hs
  split at hs
  case h_1 h =>
    split at hs <;> cases hs
    exact ⟨rfl, rfl, Iff.rfl, .lockId h⟩
  case h_2 e hd =>
    split at hs
    · cases hs
    simp only [Option.map_eq_some_iff, Prod.mk.injEq] at hs
    obtain ⟨f, hf, rfl, rfl⟩ := hs
    refine ⟨rfl, rfl, Iff.rfl, ?_⟩
    cases e with
    | emit args =>
      cases hf
      exact .emitLock args
    | connect mode =>
      cases hf
      exact .connectLock mode
    | disconnect h => exact absurd rfl (hd h)
    | skipAll =>
      cases hf
      exact .skipLock
    | run k | step => cases hf
  case h_3 =>
    split at hs
    next ha =>
      cases hs
      exact ⟨rfl, rfl, by simp [ha], .destroyLock⟩
    · cases hs

/-- What a step can be: a call from outside, an invocation that a queue starts, a call
that a handler makes, or a step of the innermost call of a thread. -/
inductive Steps (c : Config (Shared α) (Thread α)) : Label (Choice α) → Config (Shared α) (Thread α) → Prop
  | start (e s g) : e.start c.shared = some (s, g) → Steps c (.call e) ⟨s, c.threads ++ [[g]]⟩
  | run (k inv) : c.shared.signal.queued[k]? = some inv →
    Steps c (.call (.call (.run k)))
      ⟨{ c.shared with signal := { c.shared.signal with queued := c.shared.signal.queued.eraseIdx k } }.exchange []
        [.call (.invoke inv .enter)], c.threads ++ [[.call (.invoke inv .enter)]]⟩
  | nest (i e f stack s g) : e ≠ .call .step → c.threads[i]? = some (f :: stack) → f.calls = true →
    e.start c.shared = some (s, g) → Steps c (.act i e) ⟨s, c.threads.set i (g :: f :: stack)⟩
  | act (i f stack s fs) : c.threads[i]? = some (f :: stack) →
    f.act c.shared (current (f :: stack)) = some (s, fs) →
    Steps c (.act i (.call .step)) ⟨s.exchange [f] fs, c.threads.set i (fs ++ stack)⟩

theorem next_steps (hn : lifetime.next c l = some c') : Steps c l c' := by
  cases l with
  | call e =>
    obtain ⟨s, new, hc, rfl⟩ := Program.next_call hn
    change call c.shared e = some (s, new) at hc
    unfold call at hc
    split at hc <;> simp only [Option.map_eq_some_iff, Prod.mk.injEq] at hc
    case h_1 k =>
      obtain ⟨inv, hk, rfl, rfl⟩ := hc
      exact .run k inv hk
    case h_2 =>
      obtain ⟨⟨s', g⟩, hs, rfl, rfl⟩ := hc
      exact .start e _ g hs
  | act i e =>
    obtain ⟨t, s, t', new, ht, ha, rfl⟩ := Program.next_act hn
    cases t with
    | nil => cases ha
    | cons f stack =>
      by_cases he : e = .call .step
      · subst he
        simp only [lifetime, act, Option.map_eq_some_iff, Prod.mk.injEq] at ha
        obtain ⟨⟨s', fs⟩, ha, rfl, rfl, rfl⟩ := ha
        rw [List.append_nil]
        exact .act i f stack s' fs ht ha
      · change act c.shared (f :: stack) e = _ at ha
        simp only [act] at ha
        by_cases hf : f.calls = true
        · simp only [if_pos hf, Option.map_eq_some_iff, Prod.mk.injEq] at ha
          obtain ⟨⟨s', g⟩, hg, rfl, rfl, rfl⟩ := ha
          rw [List.append_nil]
          exact .nest i e f stack s' g he ht hf hg
        · rw [if_neg hf] at ha
          cases ha

end

end Xdispatch.Signal.Lifetime
