import Xdispatch.Lib.Remove

/-!
# Scoped connections

A connection has a weak reference to its handler and a plain pointer to the
signal that it was made by. A `scoped_connection` is one that disconnects when it
is destroyed or assigned over. Of the signals, which stay alive, only the lists of
handlers matter here. `σ` are the signals, `η` the handlers.
-/

namespace Xdispatch.ScopedConnection

/-- `m_id` and `m_parent`. -/
structure Connection (σ η : Type) where
  id : Option η
  parent : Option σ
  valid : id.isSome = true → parent.isSome = true

/-- `m_handlers` of each signal, the handlers that somebody else has a `handler_ptr` to, such as a queued
invocation, and those that were disabled. `calls` is history: the calls of `signal_p::disconnect`, with the
`m_id` that they were passed. -/
structure Signals (σ η : Type) where
  handlers : σ → List η
  referenced : η → Bool
  disabled : List η
  calls : List (σ × Option η)

variable {σ η : Type} [DecidableEq σ] [DecidableEq η]

namespace Connection

omit [DecidableEq σ] [DecidableEq η]

@[ext] theorem ext {c d : Connection σ η} (hi : c.id = d.id) (hp : c.parent = d.parent) : c = d := by
  cases c
  cases d
  cases hi
  cases hp
  rfl

def empty : Connection σ η := ⟨none, none, nofun⟩

/-- `m_id.reset ()` -/
def resetId (c : Connection σ η) : Connection σ η := { c with id := none, valid := nofun }

/-- `m_id.reset ()`, and `m_parent` is set to null. -/
def reset (c : Connection σ η) : Connection σ η := { c.resetId with parent := none, valid := nofun }

@[simp] theorem reset_eq (c : Connection σ η) : c.reset = empty := rfl

end Connection

namespace Signals

/-- `m_id.lock ()` -/
def lock (w : Signals σ η) (s : σ) (c : Connection σ η) : Option η :=
  c.id.filter fun h => h ∈ w.handlers s || w.referenced h

def erase (w : Signals σ η) (s : σ) (h : η) : Signals σ η :=
  { w with handlers := fun t => if t = s then (w.handlers t).filter (· ≠ h) else w.handlers t }

/-- `signal_p::disconnect` -/
def disconnect (w : Signals σ η) (s : σ) (c : Connection σ η) : Signals σ η × Connection σ η × Bool :=
  let w' := { w with calls := w.calls ++ [(s, c.id)] }
  match w.lock s c with
  | some h => ({ w'.erase s h with disabled := w.disabled ++ [h] }, c.resetId, true)
  | none => (w', c.resetId, false)

end Signals

namespace Connection

/-- `connection::disconnect` -/
def disconnect (w : Signals σ η) (c : Connection σ η) : Signals σ η × Connection σ η × Bool :=
  match c.parent with
  | some s =>
    match w.disconnect s c with
    | (w', c', r) => (w', c'.reset, r)
  | none => (w, c.reset, false)

def isConnectedTo (c : Connection σ η) (s : σ) : Bool := c.parent = some s

/-- The destructor of a `scoped_connection`. -/
def destroy (w : Signals σ η) (c : Connection σ η) : Signals σ η := (c.disconnect w).1

/-- The move assignment of a `scoped_connection` to one with the fields `c`: the signals, what it is then,
and what is left of `other`. -/
def moveAssign (w : Signals σ η) (c other : Connection σ η) : Signals σ η × Connection σ η × Connection σ η :=
  ((c.disconnect w).1, other, other.reset)

end Connection

theorem destroy_empty (w : Signals σ η) : Connection.empty.destroy w = w := rfl

theorem disconnect_calls (w : Signals σ η) (s : σ) (c : Connection σ η) :
    (w.disconnect s c).1.calls = w.calls ++ [(s, c.id)] := by
  unfold Signals.disconnect
  cases w.lock s c <;> rfl

theorem mem_disconnect (w : Signals σ η) (s t : σ) (c : Connection σ η) (h : η) :
    h ∈ (w.disconnect s c).1.handlers t ↔ h ∈ w.handlers t ∧ ¬ (t = s ∧ some h = c.id) := by
  unfold Signals.disconnect Signals.lock
  cases hi : c.id with
  | none => simp
  | some k =>
    by_cases hk : (k ∈ w.handlers s || w.referenced k) = true
    · rw [Option.filter_some, if_pos (by simpa using hk)]
      by_cases ht : t = s <;> simp [Signals.erase, ht]
    · rw [Option.filter_some, if_neg (by simpa using hk)]
      have hnot : k ∉ w.handlers s := fun h => hk (by simp [h])
      refine ⟨fun hm => ⟨hm, ?_⟩, fun hm => hm.1⟩
      rintro ⟨rfl, heq⟩
      cases heq
      exact hnot hm

theorem destroy_calls (w : Signals σ η) (c : Connection σ η) :
    (c.destroy w).calls = w.calls ++ c.parent.toList.map (·, c.id) := by
  unfold Connection.destroy Connection.disconnect
  cases hp : c.parent with
  | none => simp
  | some s => exact disconnect_calls w s c

/-! ## Objects -/

/-- The `scoped_connection`s that exist, by their names. `taken` is history: what `take` has returned. -/
structure State (σ η ι : Type) where
  signals : Signals σ η
  objects : ι → Option (Connection σ η)
  taken : List (Connection σ η)

inductive Op (σ η ι : Type) where
  | construct (x : ι) (c : Connection σ η)
  | constructEmpty (x : ι)
  | moveConstruct (x other : ι)
  | assign (x : ι) (c : Connection σ η)
  | moveAssign (x other : ι)
  | take (x : ι)
  | destroy (x : ι)

namespace State

variable {ι : Type} [DecidableEq ι]

def set (st : State σ η ι) (x : ι) (c : Option (Connection σ η)) : State σ η ι :=
  { st with objects := fun y => if y = x then c else st.objects y }

/-- There is no object in the place of one that is constructed. -/
def apply (st : State σ η ι) : Op σ η ι → Option (State σ η ι)
  | .construct x c => if st.objects x = none then some (st.set x (some c)) else none
  | .constructEmpty x => if st.objects x = none then some (st.set x (some .empty)) else none
  | .moveConstruct x other =>
    match st.objects x, st.objects other with
    | none, some c => some ((st.set x (some c)).set other (some c.reset))
    | _, _ => none
  | .assign x c => (st.objects x).map fun a => { st.set x (some c) with signals := (a.disconnect st.signals).1 }
  | .moveAssign x other =>
    match st.objects x, st.objects other with
    | some a, some c =>
      match a.moveAssign st.signals c with
      | (w, a', c') => some { (st.set x (some a')).set other (some c') with signals := w }
    | _, _ => none
  | .take x => (st.objects x).map fun a => { st.set x (some a.reset) with taken := st.taken ++ [a] }
  | .destroy x => (st.objects x).map fun a => { st.set x none with signals := a.destroy st.signals }

def run (st : State σ η ι) (ops : List (Op σ η ι)) : Option (State σ η ι) := ops.foldlM apply st

def initial (w : Signals σ η) : State σ η ι := ⟨{ w with calls := [] }, fun _ => none, []⟩

end State

end Xdispatch.ScopedConnection
