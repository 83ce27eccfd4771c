import Xdispatch.Group.Model
import Xdispatch.Signal.Order

/-!
# Signals with a tracking group

With a group an emit does not pass its invocations to the queues itself:
`group_impl::async` counts each of them first, and the `consuming_operation`
around it takes it off the count at its end. It has the closure of the invocation
destroyed behind that, not before as here, but nothing here uses the handler that
the closure holds. The group may be used by others at the same time. None of this
is a step of the signal (`tracking_refines`), and the emit holds `m_CS` over it,
so all observers agree on the order of emits with a group as they do without.
-/

namespace Xdispatch.Signal.Tracking

variable {α : Type}

/-- `m_group` with the calls on it in progress, if the signal has one. `operations`
are the group's operations of the queued invocations, and `tracked` are all of its
operations that are those of invocations. -/
structure Shared (α : Type) where
  signal : Signal.Shared α
  group : Option (Config Group.Shared Group.Thread)
  operations : List (Option Nat)
  tracked : List Nat

/-- `async` is an emit in `m_group->async` for the `handler`, and `consuming` the
`consuming_operation` around an invocation; `op` is the group's operation. -/
inductive Frame (α : Type) where
  | call (frame : Signal.Frame α)
  | async (handler : HandlerId) (rest : List HandlerId) (args : α) (pending : Int) (op : Nat)
  | consuming (op : Nat)
  deriving DecidableEq

abbrev Thread (α : Type) := List (Frame α)

/-- `group`: others use the group. -/
inductive Choice (α : Type) where
  | call (choice : Signal.Choice α)
  | group (l : Label Group.Choice)
  deriving DecidableEq

/-- An emit queues an invocation of the handler. -/
def queues (h : HandlerId) (pending : Int) : Bool :=
  h.mode ≠ .synchronousUpdate ∧ (h.mode = .singleUpdates ∨ pending < 1)

namespace Shared

def phase (s : Shared α) (op : Nat) : Option Group.OperationPhase :=
  s.group.bind fun g => g.threads[op]?.bind fun
    | .operation _ ph => some ph
    | .wait _ => none

/-- The group's operation comes to `q->async` next. -/
def posts (s : Shared α) (op : Nat) : Bool :=
  match s.phase op with
  | some (.post _) => true
  | _ => false

/-- A step of the group's operation. -/
def count (s : Shared α) (op : Nat) : Option (Shared α) :=
  s.group.bind fun g => (Group.group.next g (.act op .step)).map fun g => { s with group := some g }

/-- A step of the signal; `queued` is the operation of the invocation that it queues. -/
def step (s : Shared α) (current : HandlerId → Bool) (f : Signal.Frame α) (queued : List (Option Nat)) :
    Option (Shared α × List (Frame α)) :=
  (f.act s.signal current).map fun r =>
    ({ s with signal := r.1, operations := s.operations ++ queued }, r.2.map .call)

end Shared

def Frame.inScope (h : HandlerId) : Frame α → Bool
  | .call f => f.inScope h
  | .async .. | .consuming _ => false

def Frame.act (s : Shared α) (current : HandlerId → Bool) : Frame α → Option (Shared α × List (Frame α))
  | .call (.emitBranch h rest args pending) =>
    if queues h pending then
      match s.group with
      | some g => (Group.group.next g (.call .async)).map fun g' =>
          ({ s with group := some g', tracked := s.tracked ++ [g.threads.length] },
            [.async h rest args pending g.threads.length])
      | none => s.step current (.emitBranch h rest args pending) [none]
    else s.step current (.emitBranch h rest args pending) []
  | .call f => s.step current f []
  | .async h rest args pending op =>
    if s.posts op then (s.count op).bind fun s => s.step current (.emitBranch h rest args pending) [some op]
    else (s.count op).map fun s => (s, [.async h rest args pending op])
  -- the invocation has returned to the `consuming_operation`
  | .consuming op => (s.count op).map fun s => (s, if s.phase op = some .done then [] else [.consuming op])

def act (s : Shared α) : Thread α → Choice α → Option (Shared α × Thread α × List (Thread α))
  | f :: stack, .call .step =>
    (f.act s fun h => (f :: stack).any (Frame.inScope h)).map fun r => (r.1, r.2 ++ stack, [])
  | .call f :: stack, .call e =>
    if f.calls then (e.frame s.signal).map fun g => (s, .call g :: .call f :: stack, []) else none
  | _, _ => none

/-- A queue starts an invocation, in the `consuming_operation` that `op` says. -/
def Shared.start (s : Shared α) (ts : List (Signal.Thread α)) : Option Nat → Option (Shared α × List (Thread α))
  | none => some (s, ts.map (List.map .call))
  | some op => (s.count op).map fun s => (s, ts.map fun t => t.map .call ++ [.consuming op])

/-- The operations of invocations take the steps of their own threads only. -/
def others (s : Shared α) : Label Group.Choice → Bool
  | .call _ => true
  | .act op _ => op ∉ s.tracked

def call (s : Shared α) : Choice α → Option (Shared α × List (Thread α))
  | .call (.run k) => (Signal.call s.signal (.run k)).bind fun r => s.operations[k]?.bind fun op =>
      { s with signal := r.1, operations := s.operations.eraseIdx k }.start r.2 op
  | .call e => (Signal.call s.signal e).map fun r => ({ s with signal := r.1 }, r.2.map (List.map .call))
  | .group l => if others s l then s.group.bind fun g =>
      (Group.group.next g l).map fun g => ({ s with group := some g }, []) else none

def tracking : Program (Shared α) (Thread α) (Choice α) := ⟨call, act⟩

/-- `m_group` may be in use already. -/
def initial (group : Option (Config Group.Shared Group.Thread)) : Config (Shared α) (Thread α) :=
  ⟨⟨Signal.initial.shared, group, [], []⟩, []⟩

/-! ## The signal alone -/

/-- An emit in `m_group->async` is yet to queue the invocation. -/
def Frame.erase : Frame α → List (Signal.Frame α)
  | .call f => [f]
  | .async h rest args pending _ => [.emitBranch h rest args pending]
  | .consuming _ => []

def erase (c : Config (Shared α) (Thread α)) : Config (Signal.Shared α) (Signal.Thread α) :=
  ⟨c.shared.signal, c.threads.map (List.flatMap Frame.erase)⟩

/-- The step is one of the signal. -/
def Frame.steps (s : Shared α) : Frame α → Bool
  | .call (.emitBranch h _ _ pending) => !(queues h pending && s.group.isSome)
  | .call _ => true
  | .async _ _ _ _ op => s.posts op
  | .consuming _ => false

def label (c : Config (Shared α) (Thread α)) : Label (Choice α) → Option (Label (Signal.Choice α))
  | .call (.call e) => some (.call e)
  | .act i (.call .step) =>
    match c.threads[i]? with
    | some (f :: _) => if f.steps c.shared then some (.act i .step) else none
    | _ => none
  | .act i (.call e) => some (.act i e)
  | .call (.group _) | .act _ (.group _) => none

section
variable {s s' : Shared α} {c c' : Config (Shared α) (Thread α)} {l : Label (Choice α)} {f : Frame α}
  {current : HandlerId → Bool}

theorem count_signal {op : Nat} (h : s.count op = some s') :
    s'.signal = s.signal ∧ s'.operations = s.operations ∧ s'.tracked = s.tracked := by
  simp only [Shared.count, Option.bind_eq_some_iff, Option.map_eq_some_iff] at h
  obtain ⟨g, -, g', -, rfl⟩ := h
  exact ⟨rfl, rfl, rfl⟩

theorem inScope_erase (f : Frame α) (h : HandlerId) : f.erase.any (Signal.Frame.inScope h) = f.inScope h := by
  cases f with
  | call f => simp [Frame.erase, Frame.inScope]
  | async | consuming => rfl

theorem current_erase (t : Thread α) (h : HandlerId) :
    (t.flatMap Frame.erase).any (Signal.Frame.inScope h) = t.any (Frame.inScope h) := by
  induction t with
  | nil => rfl
  | cons f t ih => rw [List.flatMap_cons, List.any_append, List.any_cons, inScope_erase, ih]

theorem erase_call (fs : List (Signal.Frame α)) : (fs.map Frame.call).flatMap Frame.erase = fs := by
  induction fs with
  | nil => rfl
  | cons f fs ih => rw [List.map_cons, List.flatMap_cons, ih, Frame.erase, List.singleton_append]

theorem step_erase {g : Signal.Frame α} {queued : List (Option Nat)} {fs : List (Frame α)}
    (ha : s.step current g queued = some (s', fs)) :
    g.act s.signal current = some (s'.signal, fs.flatMap Frame.erase) := by
  simp only [Shared.step, Option.map_eq_some_iff, Prod.mk.injEq] at ha
  obtain ⟨⟨t, gs⟩, ha, rfl, rfl⟩ := ha
  rw [ha, erase_call]

theorem act_erase {fs : List (Frame α)} (ha : f.act s current = some (s', fs)) :
    (f.steps s = true ∧ ∃ g, f.erase = [g] ∧ g.act s.signal current = some (s'.signal, fs.flatMap Frame.erase)) ∨
      f.steps s = false ∧ s'.signal = s.signal ∧ fs.flatMap Frame.erase = f.erase := by
  cases f with
  | call g =>
    cases g with
    | emitBranch h rest args pending =>
      simp only [Frame.act] at ha
      split at ha
      next hq =>
        split at ha
        next d hd =>
          simp only [Option.map_eq_some_iff, Prod.mk.injEq] at ha
          obtain ⟨d', -, rfl, rfl⟩ := ha
          exact Or.inr ⟨by simp [Frame.steps, hq, hd], rfl, rfl⟩
        next hd => exact Or.inl ⟨by simp [Frame.steps, hd], _, rfl, step_erase ha⟩
      next hq => exact Or.inl ⟨by simp [Frame.steps, hq], _, rfl, step_erase ha⟩
    | _ => exact Or.inl ⟨rfl, _, rfl, step_erase ha⟩
  | async h rest args pending op =>
    simp only [Frame.act] at ha
    split at ha
    next hp =>
      obtain ⟨t, hc, ha⟩ := Option.bind_eq_some_iff.mp ha
      have := step_erase ha
      rw [(count_signal hc).1] at this
      exact Or.inl ⟨hp, _, rfl, this⟩
    next hp =>
      simp only [Option.map_eq_some_iff, Prod.mk.injEq] at ha
      obtain ⟨t, hc, rfl, rfl⟩ := ha
      exact Or.inr ⟨Bool.eq_false_iff.mpr hp, (count_signal hc).1, rfl⟩
  | consuming op =>
    simp only [Frame.act, Option.map_eq_some_iff, Prod.mk.injEq] at ha
    obtain ⟨t, hc, rfl, rfl⟩ := ha
    refine Or.inr ⟨rfl, (count_signal hc).1, ?_⟩
    split <;> rfl

theorem map_call_erase (ts : List (Signal.Thread α)) :
    (ts.map (List.map Frame.call)).map (List.flatMap Frame.erase) = ts := by
  induction ts with
  | nil => rfl
  | cons t ts ih => rw [List.map_cons, List.map_cons, ih, erase_call]

theorem start_erase {ts : List (Signal.Thread α)} {op : Option Nat} {new : List (Thread α)}
    (hs : s.start ts op = some (s', new)) : s'.signal = s.signal ∧ new.map (List.flatMap Frame.erase) = ts := by
  cases op with
  | none =>
    cases hs
    exact ⟨rfl, map_call_erase ts⟩
  | some op =>
    simp only [Shared.start, Option.map_eq_some_iff, Prod.mk.injEq] at hs
    obtain ⟨u, hu, rfl, rfl⟩ := hs
    refine ⟨(count_signal hu).1, ?_⟩
    conv_rhs => rw [← map_call_erase ts]
    simp [Frame.erase]

theorem call_erase {e : Signal.Choice α} {new : List (Thread α)} (hc : call s (.call e) = some (s', new)) :
    Signal.call s.signal e = some (s'.signal, new.map (List.flatMap Frame.erase)) := by
  cases e with
  | run k =>
    simp only [call, Option.bind_eq_some_iff] at hc
    obtain ⟨⟨t, ts⟩, ht, op, -, hc⟩ := hc
    obtain ⟨h1, h2⟩ := start_erase hc
    rw [ht, h1, h2]
  | _ =>
    simp only [call, Option.map_eq_some_iff, Prod.mk.injEq] at hc
    obtain ⟨⟨t, ts⟩, ht, rfl, rfl⟩ := hc
    rw [ht, map_call_erase]

theorem call_group {l : Label Group.Choice} {new : List (Thread α)} (hc : call s (.group l) = some (s', new)) :
    s'.signal = s.signal ∧ new = [] := by
  simp only [call] at hc
  split at hc
  · simp only [Option.bind_eq_some_iff, Option.map_eq_some_iff, Prod.mk.injEq] at hc
    obtain ⟨g, -, g', -, rfl, rfl⟩ := hc
    exact ⟨rfl, rfl⟩
  · cases hc

theorem erase_act {i : Nat} {t t' : Thread α} (s : Shared α) (ht : c.threads[i]? = some t)
    (h : t'.flatMap Frame.erase = t.flatMap Frame.erase) (hs : s.signal = c.shared.signal) :
    erase ⟨s, c.threads.set i t' ++ []⟩ = erase c := by
  simp only [erase, List.append_nil, hs, Family.map_set_self ht h]

theorem act_calls {s : Signal.Shared α} {f g : Signal.Frame α} {stack : Signal.Thread α} {e : Signal.Choice α}
    (hf : f.calls = true) (hg : e.frame s = some g) : Signal.act s (f :: stack) e = some (s, g :: f :: stack, []) := by
  cases e with
  | step => cases hg
  | _ => simp [Signal.act, hf, hg]

theorem thread_erase {i : Nat} {g : List (Signal.Frame α)} {stack : Thread α} (ht : c.threads[i]? = some (f :: stack))
    (hg : f.erase = g) : (erase c).threads[i]? = some (g ++ stack.flatMap Frame.erase) := by
  rw [erase, List.getElem?_map, ht, Option.map_some, List.flatMap_cons, hg]

theorem step_refines {i : Nat} {stack : Thread α} {fs : List (Frame α)} (ht : c.threads[i]? = some (f :: stack))
    (ha : f.act c.shared (fun h => (f :: stack).any (Frame.inScope h)) = some (s', fs)) :
    signal.Follows (erase c) (erase ⟨s', c.threads.set i (fs ++ stack) ++ []⟩) (label c (.act i (.call .step))) := by
  have hcur : (fun h => ((f :: stack).flatMap Frame.erase).any (Signal.Frame.inScope h)) =
      fun h => (f :: stack).any (Frame.inScope h) := funext (current_erase (f :: stack))
  rcases act_erase ha with ⟨hs, g, hg, ha⟩ | ⟨hs, hsig, hf⟩
  · simp only [label, ht, hs, if_true]
    have hact : Signal.act (erase c).shared (g :: stack.flatMap Frame.erase) .step =
        some (s'.signal, fs.flatMap Frame.erase ++ stack.flatMap Frame.erase, []) := by
      rw [List.flatMap_cons, hg, List.singleton_append] at hcur
      change (g.act c.shared.signal _).map _ = _
      rw [hcur, ha]
      rfl
    refine (Program.act_next (thread_erase ht hg) hact).trans ?_
    simp only [erase, List.append_nil, List.map_set, List.flatMap_append]
  · simp only [label, ht, hs]
    exact erase_act s' ht (by rw [List.flatMap_append, List.flatMap_cons, hf]) hsig

theorem calls_refines {i : Nat} {f g : Signal.Frame α} {stack : Thread α} {e : Signal.Choice α}
    (ht : c.threads[i]? = some (.call f :: stack)) (hf : f.calls = true) (hg : e.frame c.shared.signal = some g) :
    signal.Follows (erase c) (erase ⟨c.shared, c.threads.set i (.call g :: .call f :: stack) ++ []⟩)
      (label c (.act i (.call e))) := by
  have hlabel : label c (.act i (.call e)) = some (.act i e) := by
    cases e with
    | step => cases hg
    | _ => rfl
  rw [hlabel]
  refine (Program.act_next (thread_erase ht rfl) (act_calls hf hg)).trans ?_
  simp only [erase, List.append_nil, List.map_set]
  rfl

/-- The signal takes its own steps, whatever its group does. -/
theorem tracking_refines : Program.Refines tracking (signal (α := α)) erase label := by
  intro c l c' hn
  cases l with
  | call e =>
    obtain ⟨s, new, hc, rfl⟩ := Program.next_call hn
    cases e with
    | call e =>
      change (Signal.call c.shared.signal e).map _ = _
      rw [call_erase hc, Option.map_some]
      simp only [erase, List.map_append]
    | group l =>
      obtain ⟨hs, rfl⟩ := call_group hc
      change erase _ = erase c
      simp only [erase, hs, List.append_nil]
  | act i e =>
    obtain ⟨t, s, t', new, ht, ha, rfl⟩ := Program.next_act hn
    change act c.shared t e = some (s, t', new) at ha
    unfold act at ha
    split at ha
    case h_1 f stack =>
      simp only [Option.map_eq_some_iff, Prod.mk.injEq] at ha
      obtain ⟨⟨s', fs⟩, ha, rfl, rfl, rfl⟩ := ha
      exact step_refines ht ha
    case h_2 f stack e _ =>
      split at ha
      next hcalls =>
        simp only [Option.map_eq_some_iff, Prod.mk.injEq] at ha
        obtain ⟨g, hg, rfl, rfl, rfl⟩ := ha
        exact calls_refines ht hcalls hg
      next => cases ha
    case h_3 => cases ha

end

/-! ## The order of emits -/

/-- The arguments of an emit that locks `m_CS` with this step. -/
def emits : Config (Shared α) (Thread α) × Label (Choice α) → List α
  | (c, .act i (.call .step)) =>
    match c.threads[i]? with
    | some (.call f :: _) => f.emits
    | _ => []
  | _ => []

section
variable {Q : Type} [DecidableEq Q] (queueOf : HandlerId → Q) (q : Q)

/-- Queue `q` is serial. That it also waits for the rest of a `consuming_operation` is not needed. -/
def startsInTurn (c : Config (Shared α) (Thread α)) : Label (Choice α) → Bool
  | .call (.call (.run k)) => Signal.startsInTurn queueOf q (erase c) (.call (.run k))
  | _ => true

end

section
variable {c : Config (Shared α) (Thread α)} {l : Label (Choice α)} {Q : Type} [DecidableEq Q] {queueOf : HandlerId → Q}
  {q : Q}

theorem label_act {i : Nat} {e : Choice α} {l' : Label (Signal.Choice α)} (hl : label c (.act i e) = some l') :
    ∃ e', l' = .act i e' := by
  cases e with
  | call e =>
    cases e with
    | step =>
      simp only [label] at hl
      split at hl
      · split at hl
        · exact ⟨_, (Option.some.inj hl).symm⟩
        · cases hl
      · cases hl
    | _ => exact ⟨_, (Option.some.inj hl).symm⟩
  | group l => cases hl

theorem startsInTurn_erase {l' : Label (Signal.Choice α)} (hl : label c l = some l')
    (hC : startsInTurn queueOf q c l = true) : Signal.startsInTurn queueOf q (erase c) l' = true := by
  cases l with
  | call e =>
    cases e with
    | call e =>
      cases hl
      cases e with
      | run k => exact hC
      | _ => rfl
    | group l => cases hl
  | act i e =>
    obtain ⟨e', rfl⟩ := label_act hl
    rfl

theorem emits_erase (c : Config (Shared α) (Thread α)) (l : Label (Choice α)) :
    ((label c l).map fun l' => Signal.emits (erase c, l')).getD [] = emits (c, l) := by
  cases l with
  | call e => cases e <;> rfl
  | act i e =>
    cases e with
    | group l => rfl
    | call e =>
      cases e with
      | step =>
        simp only [label, emits]
        cases ht : c.threads[i]? with
        | none => rfl
        | some t =>
          cases t with
          | nil => rfl
          | cons f stack =>
            cases hs : f.steps c.shared with
            | false =>
              -- only an emit that goes to its group, and it has locked `m_CS` before
              cases f with
              | call g =>
                cases g with
                | emitBranch => simp [hs, Signal.Frame.emits]
                | _ => cases hs
              | _ => simp [hs]
            | true =>
              cases f with
              | call g => simp [hs, Signal.emits, thread_erase ht rfl, Frame.erase]
              | async => simp [hs, Signal.emits, thread_erase ht rfl, Frame.erase, Signal.Frame.emits]
              | consuming => cases hs
      | _ => rfl

theorem flatMap_emits (tr : List (Config (Shared α) (Thread α) × Label (Choice α))) :
    (Program.abstracted erase label tr).flatMap Signal.emits = tr.flatMap emits := by
  induction tr with
  | nil => rfl
  | cons p tr ih =>
    have := emits_erase p.1 p.2
    rw [List.flatMap_cons, ← ih, ← this, Program.abstracted, List.filterMap_cons]
    cases label p.1 p.2 <;> rfl

/-- **All observers agree on the order of emits**: two handlers with single updates on
serial queues, while they are connected and not disabled, whether the signal has a
group or not. -/
theorem run_observed {group : Option (Config Group.Shared Group.Thread)} {c₀ : Config (Shared α) (Thread α)}
    {tr₀ tr : List (Config (Shared α) (Thread α) × Label (Choice α))} {h k : HandlerId} (queueOf : HandlerId → Q)
    (h₀ : tracking.Run (initial group) tr₀ c₀) (hr : tracking.Run c₀ tr c) (hh : h.mode = .singleUpdates)
    (hk : k.mode = .singleUpdates)
    (hC : Program.Along (fun c l => startsInTurn queueOf (queueOf h) c l = true ∧
      startsInTurn queueOf (queueOf k) c l = true) (tr₀ ++ tr))
    (hconn : ∀ p ∈ tr, h ∈ p.1.shared.signal.handlers ∧ k ∈ p.1.shared.signal.handlers)
    (hen : (c.shared.signal.heap h).cancelable.active ≠ .disabled ∧
      (c.shared.signal.heap k).cancelable.active ≠ .disabled) :
    InOrder (tr.flatMap emits) (c₀.shared.signal.heap h) (c.shared.signal.heap h) ∧
      InOrder (tr.flatMap emits) (c₀.shared.signal.heap k) (c.shared.signal.heap k) := by
  rw [← flatMap_emits]
  refine run_emitOrder queueOf (tracking_refines.run h₀) (tracking_refines.run hr) hh hk ?_ ?_ hen
  · intro p hp
    rw [Program.abstracted, Program.abstracted, ← List.filterMap_append] at hp
    obtain ⟨q, hq, hl, hp⟩ := Program.mem_abstracted.mp hp
    rw [hp]
    exact ⟨startsInTurn_erase hl (hC q hq).1, startsInTurn_erase hl (hC q hq).2⟩
  · intro p hp
    obtain ⟨q, hq, -, hp⟩ := Program.mem_abstracted.mp hp
    rw [hp]
    exact hconn q hq

def steps (i n : Nat) : List (Label (Choice Nat)) := List.replicate n (.act i (.call .step))

def connectTwo : List (Label (Choice Nat)) :=
  .call (.call (.connect .singleUpdates)) :: .call (.call (.connect .singleUpdates)) :: steps 0 2 ++ steps 1 2

/-- Two emits contend for the mutex, each with a group to go through, another thread
waits for the group, and the queues are at different places. -/
def emitTwo : List (Label (Choice Nat)) :=
  Label.call (Choice.call (.emit 1)) :: .call (.call (.emit 2)) :: steps 3 7 ++
    Label.call (Choice.group (.call (.wait 10))) :: steps 3 5 ++ steps 2 12 ++
    Label.call (Choice.call (.run 1)) :: steps 4 6 ++ Label.call (Choice.call (.run 2)) :: steps 5 2 ++
    Label.call (Choice.call (.run 0)) :: steps 6 1

def connected : Config (Shared Nat) (Thread Nat) := tracking.last (initial (some (Group.initial 0))) connectTwo

theorem run_observed_two :
    (InOrder ((tracking.path connected emitTwo).flatMap emits) (connected.shared.signal.heap ⟨.singleUpdates, 0⟩)
        ((tracking.last connected emitTwo).shared.signal.heap ⟨.singleUpdates, 0⟩) ∧
      InOrder ((tracking.path connected emitTwo).flatMap emits) (connected.shared.signal.heap ⟨.singleUpdates, 1⟩)
        ((tracking.last connected emitTwo).shared.signal.heap ⟨.singleUpdates, 1⟩)) ∧
      (tracking.path connected emitTwo).flatMap emits = [2, 1] :=
  ⟨run_observed HandlerId.serial (Program.run_last (l := connectTwo) (by decide))
    (Program.run_last (l := emitTwo) (by decide)) rfl rfl (by decide) (by decide) (by decide), by decide⟩

end

end Xdispatch.Signal.Tracking
