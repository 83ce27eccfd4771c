import Xdispatch.Signal.Invariant

/-!
# Updates that reach their handler

The cancelable of a handler refuses an invocation that starts while another one
is running. The function is then not called, and `m_pending` stays raised. As
long as no invocation of a handler starts so, none is refused until the handler
is disabled: every emit is executed, and `m_pending` counts what waits.
-/

namespace Xdispatch.Signal

variable {α : Type}

/-- The frame does not start an invocation of `h` while another one is running. -/
@[grind] def startsAlone (h : HandlerId) (s : Shared α) : Frame α → Bool
  | .invoke inv .enter => inv.handler ≠ h || (s.heap h).cancelable.active ≠ .running
  | _ => true

/-- Nothing that was emitted is still on its way to `h`. -/
def Settled (h : HandlerId) (c : Config (Shared α) (Thread α)) : Prop := ∀ f ∈ pool c, f.carries h = 0

/-- No emit has raised `m_pending` of `h` and not decided what to do. -/
def Decided (h : HandlerId) (c : Config (Shared α) (Thread α)) : Prop := ∀ f ∈ pool c, f.branches h = 0

/-- The invocations of `h` that have not called the function. -/
def waits (h : HandlerId) (c : Config (Shared α) (Thread α)) : Nat := weigh (Frame.waits h) (pool c)

section
variable {s s' : Shared α} {f : Frame α} {fs : List (Frame α)} {h : HandlerId}

theorem moves_refused (hm : Moves s f s' fs) (ha : (s.heap h).cancelable.active ≠ .disabled) :
    (s'.heap h).refused = [] ↔ startsAlone h s f = true ∧ (s.heap h).refused = [] := by
  cases hm with
  | refuse inv hr =>
    by_cases hk : inv.handler = h
    · subst hk
      have hrun : (s.heap inv.handler).cancelable.active = .running := by
        cases hact : (s.heap inv.handler).cancelable.active <;> simp_all [Shared.admits, Cancelable.admits]
      simp [startsAlone, hrun, Handler.refuse]
    · simp [startsAlone, hk]
  | enter inv hr =>
    have : startsAlone h s (.invoke inv .enter) = true := by
      by_cases hk : inv.handler = h <;> simp_all [startsAlone, Shared.admits, Cancelable.admits]
    rw [this]
    grind
  | _ => grind

end

section
variable {tr : List (Config (Shared α) (Thread α) × Label (Choice α))} {c : Config (Shared α) (Thread α)} {h : HandlerId}

/-- Until a handler is disabled, its cancelable refuses none of its invocations
exactly when each of them starts alone. -/
theorem run_refused (hr : signal.Run initial tr c) (ha : (c.shared.heap h).cancelable.active ≠ .disabled) :
    Program.Along (fun c l => stepping (startsAlone h) c l = true) tr ↔ (c.shared.heap h).refused = [] := by
  induction hr with
  | nil => exact ⟨fun _ => rfl, fun _ p hp => absurd hp (List.not_mem_nil)⟩
  | @snoc tr c l c' hr hn ih =>
    rw [Program.along_snoc]
    rcases next_pool hn with ⟨hl, ⟨q, hs⟩, -⟩ | ⟨hl, hs, -⟩ | ⟨f, fs, F, hst, -, hm, -⟩
    · rw [hs] at ha ⊢
      exact (and_iff_left (stepping_of_ne hl)).trans (ih ha)
    · rw [hs] at ha ⊢
      exact (and_iff_left (stepping_of_ne hl)).trans (ih ha)
    · have ha' := moves_enabled hm ha
      rw [moves_refused hm ha', ← ih ha', hst, and_comm]

/-- **Single updates.** As long as a connection with `single_updates` is neither
disconnected nor skipped: when nothing is on its way to the handler any more,
its function was called once for each emit, with the arguments of the emit,
exactly when each invocation of it started alone. -/
theorem singleUpdates_executed (hr : signal.Run initial tr c) (hm : h.mode = .singleUpdates)
    (ha : (c.shared.heap h).cancelable.active ≠ .disabled) (hs : Settled h c) :
    Program.Along (fun c l => stepping (startsAlone h) c l = true) tr ↔
      (c.shared.heap h).executed.Perm (c.shared.heap h).emitted := by
  have hc := (run_inv hr).carried h (by simp [hm])
  unfold Carried at hc
  rw [weigh_eq_zero.mpr hs, zero_add] at hc
  rw [run_refused hr ha, ← Multiset.coe_eq_coe, hc]
  constructor
  · intro hn
    rw [hn, Multiset.coe_nil, add_zero]
  · intro he
    have : (↑(c.shared.heap h).refused : Multiset α) = 0 := left_eq_add.mp he
    simpa using this

def steps (i n : Nat) : List (Label (Choice α)) := List.replicate n (.act i .step)

def emitSerially : List (Label (Choice Nat)) :=
  [Label.call (Choice.connect .singleUpdates)] ++ steps 0 2 ++ [Label.call (Choice.emit 1)] ++ steps 1 4 ++
    [Label.call (Choice.emit 2)] ++ steps 2 4 ++ [Label.call (Choice.run 0)] ++ steps 3 3 ++
    [Label.call (Choice.run 0)] ++ steps 4 3

theorem singleUpdates_executed_serially :
    ((signal.last initial emitSerially).shared.heap ⟨.singleUpdates, 0⟩).executed.Perm [1, 2] :=
  (singleUpdates_executed (h := ⟨.singleUpdates, 0⟩) (Program.run_last (l := emitSerially) (by decide)) rfl (by decide)
    (by unfold Settled; decide)).mp (by decide)

/-- Two emits, and a parallel queue starts the second invocation while the first runs. -/
def emitOverlapping : List (Label (Choice Nat)) :=
  [Label.call (Choice.connect .singleUpdates)] ++ steps 0 2 ++ [Label.call (Choice.emit 1)] ++ steps 1 4 ++
    [Label.call (Choice.emit 2)] ++ steps 2 4 ++ [Label.call (Choice.run 0)] ++ steps 3 2 ++
    [Label.call (Choice.run 0)] ++ steps 4 1 ++ steps 3 1

theorem singleUpdates_missed : ¬ ∀ (tr : List (Config (Shared Nat) (Thread Nat) × Label (Choice Nat)))
    (c : Config (Shared Nat) (Thread Nat)) (h : HandlerId), signal.Run initial tr c → h.mode = .singleUpdates →
      (c.shared.heap h).cancelable.active ≠ .disabled → Settled h c →
      (c.shared.heap h).executed.Perm (c.shared.heap h).emitted := by
  intro hall
  have := hall _ _ ⟨.singleUpdates, 0⟩ (Program.run_last (l := emitOverlapping) (by decide)) rfl (by decide)
    (by unfold Settled; decide)
  exact absurd this (by decide)

/-- An emit that finds no invocation of `h` waiting queues one, whatever other
threads do before its next step. -/
def QueuesWhenIdle (h : HandlerId) (c : Config (Shared α) (Thread α)) : Prop :=
  ∀ i rest args stack, c.threads[i]? = some (.emitNext (h :: rest) args :: stack) → waits h c = 0 →
    ∃ p c', signal.next c (.act i .step) = some c' ∧ c'.threads[i]? = some (.emitBranch h rest args p :: stack) ∧
      ∀ s, act s (.emitBranch h rest args p :: stack) .step =
        some (s.queue (s.invocation h args), .emitNext rest args :: stack, [])

/-- **Pending count.** As long as a handler is not disabled: `m_pending` counts
its invocations that wait, and with `batch_updates` an emit that finds none
queues one, exactly when each invocation of the handler started alone. -/
theorem pending_counts (hr : signal.Run initial tr c) (ha : (c.shared.heap h).cancelable.active ≠ .disabled)
    (hd : Decided h c) : Program.Along (fun c l => stepping (startsAlone h) c l = true) tr ↔
      (c.shared.heap h).pending = waits h c ∧ (h.mode = .batchUpdates → QueuesWhenIdle h c) := by
  have hc := (run_inv hr).counted h
  unfold Counted at hc
  rw [weigh_eq_zero.mpr hd] at hc
  rw [run_refused hr ha]
  constructor
  · intro hn
    rw [hn] at hc
    have hp : (c.shared.heap h).pending = waits h c := by simpa [waits] using hc
    refine ⟨hp, fun hm i rest args stack hi hw => ?_⟩
    refine ⟨_, _, Program.act_next hi rfl, Family.get_step hi _ _, fun s => ?_⟩
    have hq : (c.shared.heap h).pending < 1 := by omega
    simp [act, Frame.act, hm, hq]
  · rintro ⟨hp, -⟩
    rw [hp] at hc
    refine List.eq_nil_of_length_eq_zero ?_
    unfold waits at hc
    omega

def emitBatch : List (Label (Choice Nat)) :=
  [Label.call (Choice.connect .batchUpdates)] ++ steps 0 2 ++ [Label.call (Choice.emit 1)] ++ steps 1 4

theorem pending_counts_batch : ((signal.last initial emitBatch).shared.heap ⟨.batchUpdates, 0⟩).pending =
    waits ⟨.batchUpdates, 0⟩ (signal.last initial emitBatch) :=
  ((pending_counts (h := ⟨.batchUpdates, 0⟩) (Program.run_last (l := emitBatch) (by decide)) (by decide)
    (by unfold Decided; decide)).mp (by decide)).1

/-- The invocation of the second emit starts while the first one runs and is
refused; the third emit counts on it. -/
def emitBatchOverlapping : List (Label (Choice Nat)) :=
  emitBatch ++ [Label.call (Choice.run 0)] ++ steps 2 2 ++ [Label.call (Choice.emit 2)] ++ steps 3 4 ++
    [Label.call (Choice.run 0)] ++ steps 4 1 ++ steps 2 1 ++ [Label.call (Choice.emit 3)] ++ steps 5 4

theorem pending_stalls : ¬ ∀ (tr : List (Config (Shared Nat) (Thread Nat) × Label (Choice Nat)))
    (c : Config (Shared Nat) (Thread Nat)) (h : HandlerId), signal.Run initial tr c →
      (c.shared.heap h).cancelable.active ≠ .disabled → Decided h c →
      (c.shared.heap h).pending = waits h c ∧ (h.mode = .batchUpdates → QueuesWhenIdle h c) := by
  intro hall
  have := hall _ _ ⟨.batchUpdates, 0⟩ (Program.run_last (l := emitBatchOverlapping) (by decide)) (by decide)
    (by unfold Decided; decide)
  exact absurd this.1 (by decide)

end

end Xdispatch.Signal
