import Xdispatch.Lib.Threads

/-!
# Executors

A queue of numbered operations, as its users see it: a thread of it may be about
to add an operation, may be running one, and may be waiting for all of them. The
histories `added` and `started` grow in the steps that say so. `Lawful` is what a
queue promises whatever it is built from, and `Ordered` what a serial one adds.
-/

structure Executor (σ τ ε : Type) where
  program : Program σ τ ε
  initial : Config σ τ
  async : Nat → ε
  wait : Option ε
  others : ε → Bool
  step : ε
  added : σ → List Nat
  started : σ → List Nat
  adding : τ → Option Nat
  running : τ → Option Nat
  waiting : τ → Bool
  returned : τ → Bool

namespace Executor

variable {σ τ ε : Type} (E : Executor σ τ ε)

def runningAll (l : List τ) : Multiset Nat := Family.total (fun t => ((E.running t).toList : Multiset Nat)) l

/-- The step leaves the histories alone. -/
def Keeps (s s' : σ) : Prop := E.added s' = E.added s ∧ E.started s' = E.started s

/-- A thread that neither adds nor runs an operation. -/
def Idle (t : τ) : Prop := E.adding t = none ∧ E.running t = none

/-- What a step of a thread is for the users of the queue. -/
inductive Moves (s : σ) (t : τ) (s' : σ) (t' : τ) : Prop
  | add (x : Nat) : E.adding t = some x → E.running t = none → E.Idle t' →
      E.added s' = E.added s ++ [x] → E.started s' = E.started s → Moves s t s' t'
  | start (x : Nat) : E.Idle t → E.adding t' = none → E.running t' = some x →
      E.started s' = E.started s ++ [x] → E.added s' = E.added s → Moves s t s' t'
  | finish (x : Nat) : E.running t = some x → E.adding t = none → E.Idle t' → E.Keeps s s' → Moves s t s' t'
  | other : E.running t = none → E.running t' = none → E.adding t' = E.adding t → E.Keeps s s' → Moves s t s' t'

structure Lawful : Prop where
  empty : E.added E.initial.shared = [] ∧ E.started E.initial.shared = [] ∧ ∀ t ∈ E.initial.threads, E.Idle t
  async : ∀ s x s' new, E.program.call s (E.async x) = some (s', new) →
    E.Keeps s s' ∧ ∃ t, new = [t] ∧ E.adding t = some x ∧ E.running t = none
  wait : ∀ e s s' new, E.wait = some e → E.program.call s e = some (s', new) →
    E.Keeps s s' ∧ ∃ t, new = [t] ∧ E.Idle t ∧ E.waiting t = true
  others : ∀ s e s' new, E.others e = true → E.program.call s e = some (s', new) →
    E.Keeps s s' ∧ ∀ t ∈ new, E.Idle t
  act : ∀ s t e s' t' new, E.program.act s t e = some (s', t', new) →
    E.Moves s t s' t' ∧ ∀ x ∈ new, E.Idle x
  returned : ∀ t, E.returned t = true → E.adding t = none ∧ E.waiting t = false
  once : ∀ tr c, E.program.Run E.initial tr c → (E.started c.shared : Multiset Nat) ≤ E.added c.shared
  waited : ∀ tr c i e c' t t', E.program.Run E.initial tr c → c.threads[i]? = some t → E.waiting t = true →
    E.program.next c (.act i e) = some c' → c'.threads[i]? = some t' → E.waiting t' = true ∨
      E.started c'.shared = E.added c'.shared ∧ E.runningAll c'.threads = 0

def Ordered : Prop := ∀ tr c, E.program.Run E.initial tr c →
  E.started c.shared <+: E.added c.shared ∧ (E.runningAll c.threads).card ≤ 1

end Executor
