import Xdispatch.Threadpool.Steps

/-!
# Operations behind busy workers

`schedule` leaves an operation to an idle worker without knowing whether that
worker is already meant for another one: a burst of calls may all count on the
same worker, which takes one token and is busy. What has to hold is that each
token has a worker that still looks for one, or a call that has still to
decide, or that as many workers as allowed are alive. Every step keeps this but
the step of `schedule` that counts on an idle worker.
-/

namespace Xdispatch.Threadpool

/-! ## Counting -/

def Worker.live : Worker → Nat
  | .exiting | .exited => 0
  | _ => 1

/-- Will try to take a token, and leave only if there is none. -/
def Worker.takes : Worker → Nat
  | .loop | .tryAcquire | .spinAcquire | .idle | .waiting | .expired | .expiredActive | .recover => 1
  | _ => 0

/-- Has a token and no operation yet. -/
def Worker.holds : Worker → Nat
  | .woken | .recovered | .search _ | .dequeue _ => 1
  | _ => 0

/-- Is alive and not counted in `m_active_threads`. -/
def Worker.uncounted : Worker → Nat
  | .recover | .recovered => 1
  | _ => 0

def Thread.live : Thread → Nat
  | .worker w => w.live
  | _ => 0

def Thread.takes : Thread → Nat
  | .worker w => w.takes
  | _ => 0

/-- Stands for a token: a worker that holds it, an `execute` that will release it. -/
def Thread.holds : Thread → Nat
  | .worker w => w.holds
  | .release => 1
  | _ => 0

def Thread.uncounted : Thread → Nat
  | .worker w => w.uncounted
  | .countActive => 1
  | _ => 0

/-- A call that may still start a worker, and that does not take more workers
to be active than the `live` ones. -/
def Thread.decides (live : Nat) : Thread → Nat
  | .loadActive | .spawn => 1
  | .loadIdle active | .loadMax active => if active ≤ live then 1 else 0
  | _ => 0

def Thread.destroys : Thread → Bool
  | .cancel | .loadCount | .releaseAll _ => true
  | _ => false

def live (c : Config Shared Thread) : Nat := Family.total Thread.live c.threads

def takers (c : Config Shared Thread) : Nat := Family.total Thread.takes c.threads

def deciding (c : Config Shared Thread) : Nat := Family.total (Thread.decides (live c)) c.threads

/-- Each token has a taker or one of `n` calls, or the workers reach the limit with these calls. -/
def Enough (c : Config Shared Thread) (n : Nat) : Prop :=
  c.shared.tokens ≤ takers c + n ∨ c.shared.maxThreads ≤ live c + n

instance (c : Config Shared Thread) (n : Nat) : Decidable (Enough c n) :=
  inferInstanceAs (Decidable (_ ∨ _))

/-- The step does not destroy the pool, and if it counts on an idle worker, there
is enough without this call. -/
def countsOnTakers (c : Config Shared Thread) : Label Choice → Bool
  | .call .destroy => false
  | .act i _ =>
    match c.threads[i]? with
    | some (.loadIdle active) =>
      c.shared.idleThreads ≤ 0 || Enough c (deciding c - (Thread.loadIdle active).decides (live c))
    | _ => true
  | _ => true

structure Inv (c : Config Shared Thread) : Prop where
  not_cancelled : c.shared.cancelled = false
  not_destroyed : ∀ t ∈ c.threads, t.destroys = false
  operations : c.shared.operations.length ≤ c.shared.tokens + Family.total Thread.holds c.threads
  active : c.shared.activeThreads + Family.total Thread.uncounted c.threads = live c
  enough : Enough c (deciding c)

theorem initial_inv (maxThreads : Int) : Inv (initial maxThreads) := by
  refine ⟨rfl, by simp [initial], Nat.zero_le _, rfl, Or.inl (Nat.zero_le _)⟩

theorem decides_mono {n m : Nat} (h : n ≤ m) (t : Thread) : t.decides n ≤ t.decides m := by
  cases t with
  | loadIdle a | loadMax a =>
    simp only [Thread.decides]
    split
    · rw [if_pos (by omega)]
    · exact Nat.zero_le _
  | _ => exact Nat.le_refl _

/-! ## Steps of a worker -/

section
variable {s s' : Shared} {w w' : Worker}

/-- What a step of a worker does to the counters, with `m_cancelled` unset. -/
structure WorkerStep (s s' : Shared) (w w' : Worker) : Prop where
  cancelled : s'.cancelled = s.cancelled
  maxThreads : s'.maxThreads = s.maxThreads
  operations : s'.operations.length + s.tokens + w.holds ≤ s.operations.length + s'.tokens + w'.holds
  active : s'.activeThreads + w'.uncounted + w.live = s.activeThreads + w.uncounted + w'.live
  tokens : s'.tokens = 0 ∨ s'.tokens + w.takes ≤ s.tokens + w'.takes ∧ w'.live = w.live

theorem workerStep_of_counters (hc : s'.cancelled = s.cancelled) (hm : s'.maxThreads = s.maxThreads)
    (ho : s'.operations = s.operations) (ht : s'.tokens = s.tokens) (hh : w.holds ≤ w'.holds)
    (ha : s'.activeThreads + w'.uncounted + w.live = s.activeThreads + w.uncounted + w'.live)
    (htk : w.takes ≤ w'.takes) (hl : w'.live = w.live) : WorkerStep s s' w w' :=
  ⟨hc, hm, by rw [ho, ht]; omega, ha, Or.inr ⟨by omega, hl⟩⟩

theorem workerStep_of_token (h0 : 0 < s.tokens) (hh : w.holds = 0) (hh' : w'.holds = 1) (ht : w.takes = 1)
    (hu : w'.uncounted = w.uncounted) (hl : w'.live = w.live) :
    WorkerStep s { s with tokens := s.tokens - 1 } w w' := by
  refine ⟨rfl, rfl, ?_, by rw [hu, hl], Or.inr ⟨?_, hl⟩⟩
  · simp only [hh, hh']
    omega
  · simp only [ht]
    omega

theorem workerStep_of_dequeue {label k bucket : Nat} {op : Option Nat} (hk : s.operations[k]? = some (bucket, op))
    (hh : w'.holds = op.elim 1 fun _ => 0) (hu : w'.uncounted = 0) (ht : w'.takes = 0) (hl : w'.live = 1) :
    WorkerStep s { s with operations := s.operations.eraseIdx k } (.dequeue label) w' := by
  have hlt := (List.getElem?_eq_some_iff.mp hk).1
  have hlen := List.length_eraseIdx_of_lt hlt
  refine ⟨rfl, rfl, ?_, by rw [hu, hl]; rfl, Or.inr ⟨by rw [ht]; rfl, hl⟩⟩
  have : (Worker.dequeue label).holds = 1 := rfl
  simp only [hlen]
  cases op with
  | none =>
    change w'.holds = 1 at hh
    omega
  | some op =>
    change w'.holds = 0 at hh
    omega

theorem worker_step (hc : s.cancelled = false) (h : Moves s w s' w') : WorkerStep s s' w w' := by
  cases h with
  | loop | giveUp | idle | woken | expired | found | missed | exit =>
    exact workerStep_of_counters rfl rfl rfl rfl (Nat.le_refl _) rfl (Nat.le_refl _) rfl
  | leave h | asserts h =>
    rw [hc] at h
    cases h
  | take ht h0 => cases ht <;> exact workerStep_of_token h0 rfl rfl rfl rfl rfl
  | miss hm h0 =>
    cases hm with
    | tryAcquire | waiting => exact workerStep_of_counters rfl rfl rfl rfl (Nat.le_refl _) rfl (Nat.le_refl _) rfl
    | recover => exact ⟨rfl, rfl, by simp [Worker.holds], by simp [Worker.uncounted, Worker.live], Or.inl h0⟩
  | expiredActive | recovered =>
    exact workerStep_of_counters rfl rfl rfl rfl (Nat.le_refl _) (by simp [Worker.uncounted, Worker.live])
      (Nat.le_refl _) rfl
  | null hk => exact workerStep_of_dequeue hk rfl rfl rfl rfl
  | dequeue hk => exact workerStep_of_dequeue hk rfl rfl rfl rfl
  | executed => exact workerStep_of_counters rfl rfl rfl rfl (Nat.le_refl _) rfl (by simp [Worker.takes]) rfl

end

/-! ## Steps of the pool -/

section
variable {c : Config Shared Thread} {i : Nat} {t t' : Thread} {s' : Shared} {new : List Thread} {e : Choice}

theorem total_step_eq (f : Thread → Nat) (ht : c.threads[i]? = some t) (t' : Thread) (new : List Thread) :
    Family.total f (c.threads.set i t' ++ new) + f t = Family.total f c.threads + f t' + Family.total f new :=
  Family.total_step f ht t' new

theorem deciding_step (ht : c.threads[i]? = some t) (s' : Shared) (t' : Thread) (new : List Thread)
    (hL : live c ≤ live ⟨s', c.threads.set i t' ++ new⟩) :
    deciding c + t'.decides (live ⟨s', c.threads.set i t' ++ new⟩) ≤
      deciding ⟨s', c.threads.set i t' ++ new⟩ + t.decides (live ⟨s', c.threads.set i t' ++ new⟩) := by
  have h1 := total_step_eq (Thread.decides (live ⟨s', c.threads.set i t' ++ new⟩)) ht t' new
  have h2 : deciding c ≤ Family.total (Thread.decides (live ⟨s', c.threads.set i t' ++ new⟩)) c.threads :=
    Family.total_le_total fun x _ => decides_mono hL x
  have h3 : deciding ⟨s', c.threads.set i t' ++ new⟩ =
      Family.total (Thread.decides (live ⟨s', c.threads.set i t' ++ new⟩)) (c.threads.set i t' ++ new) := rfl
  omega

theorem Inv.active_le (hI : Inv c) : c.shared.activeThreads ≤ live c := by
  have := hI.active
  omega

theorem act_worker {w w' : Worker} (hI : Inv c) (ht : c.threads[i]? = some (.worker w))
    (h : Moves c.shared w s' w') : Inv ⟨s', c.threads.set i (.worker w') ++ []⟩ := by
  have hs := worker_step hI.not_cancelled h
  have hholds := total_step_eq Thread.holds ht (.worker w') []
  have huncounted := total_step_eq Thread.uncounted ht (.worker w') []
  have hlive := total_step_eq Thread.live ht (.worker w') []
  have htakes := total_step_eq Thread.takes ht (.worker w') []
  simp only [Thread.holds, Thread.uncounted, Thread.live, Thread.takes, Family.total_nil, Nat.add_zero] at *
  have hops := hI.operations
  have hact := hI.active
  have hops' := hs.operations
  have hact' := hs.active
  refine ⟨hs.cancelled.trans hI.not_cancelled, Family.forall_step hI.not_destroyed rfl (by simp), ?_, ?_, ?_⟩
  · simp only []
    omega
  · simp only [live] at hact ⊢
    omega
  · rcases hs.tokens with h0 | ⟨htok, hl⟩
    · exact Or.inl (by simp [h0])
    · have hL : live ⟨s', c.threads.set i (.worker w') ++ []⟩ = live c := by
        unfold live
        simp only []
        omega
      have hD := deciding_step ht s' (.worker w') [] (Nat.le_of_eq hL.symm)
      simp only [Thread.decides, Nat.add_zero] at hD
      rcases hI.enough with h' | h'
      · left
        unfold takers at *
        simp only []
        omega
      · right
        rw [hL, hs.maxThreads]
        omega

theorem Inv.call_step (hI : Inv c) (ht : c.threads[i]? = some t) (hlive : t.live = 0 ∧ t'.live = 0)
    (htakes : t.takes = 0 ∧ t'.takes = 0) (hd : t'.destroys = false) (hc : s'.cancelled = c.shared.cancelled)
    (hops : s'.operations.length + c.shared.tokens + t.holds ≤
      c.shared.operations.length + s'.tokens + t'.holds)
    (hact : s'.activeThreads + t'.uncounted = c.shared.activeThreads + t.uncounted)
    (henough : ∀ n, deciding c + t'.decides (live c) ≤ n + t.decides (live c) →
      s'.tokens ≤ takers c + n ∨ s'.maxThreads ≤ live c + n) :
    Inv ⟨s', c.threads.set i t' ++ []⟩ := by
  have hholds := total_step_eq Thread.holds ht t' []
  have huncounted := total_step_eq Thread.uncounted ht t' []
  have hl := total_step_eq Thread.live ht t' []
  have htk := total_step_eq Thread.takes ht t' []
  have hops' := hI.operations
  have hact' := hI.active
  rw [Family.total_nil, Nat.add_zero] at hholds huncounted hl htk
  have hL : live ⟨s', c.threads.set i t' ++ []⟩ = live c := by
    unfold live
    simp only []
    omega
  have hT : takers ⟨s', c.threads.set i t' ++ []⟩ = takers c := by
    unfold takers
    simp only []
    omega
  have hD := deciding_step ht s' t' [] (Nat.le_of_eq hL.symm)
  rw [hL] at hD
  refine ⟨hc.trans hI.not_cancelled, Family.forall_step hI.not_destroyed hd (by simp), ?_, ?_, ?_⟩
  · simp only []
    omega
  · rw [hL]
    simp only []
    omega
  · unfold Enough
    rw [hL, hT]
    exact henough _ hD

theorem act_spawn (hI : Inv c) (ht : c.threads[i]? = some .spawn) :
    Inv ⟨c.shared, c.threads.set i .countActive ++ [.worker .loop]⟩ := by
  have hholds := total_step_eq Thread.holds ht .countActive [.worker .loop]
  have huncounted := total_step_eq Thread.uncounted ht .countActive [.worker .loop]
  have hl := total_step_eq Thread.live ht .countActive [.worker .loop]
  have htk := total_step_eq Thread.takes ht .countActive [.worker .loop]
  simp only [Thread.holds, Worker.holds, Thread.uncounted, Worker.uncounted, Thread.live, Worker.live, Thread.takes,
    Worker.takes, Family.total_cons, Family.total_nil, Nat.add_zero] at hholds huncounted hl htk
  have hops := hI.operations
  have hact := hI.active
  have hL : live ⟨c.shared, c.threads.set i .countActive ++ [.worker .loop]⟩ = live c + 1 := by
    unfold live
    simp only []
    omega
  have hT : takers ⟨c.shared, c.threads.set i .countActive ++ [.worker .loop]⟩ = takers c + 1 := by
    unfold takers
    simp only []
    omega
  have hD := deciding_step ht c.shared .countActive [.worker .loop] (by omega)
  simp only [Thread.decides, Nat.add_zero] at hD
  refine ⟨hI.not_cancelled, Family.forall_step hI.not_destroyed rfl (by simp [Thread.destroys]), ?_, ?_, ?_⟩
  · simp only []
    omega
  · rw [hL]
    simp only []
    omega
  · unfold Enough
    rw [hL, hT]
    rcases hI.enough with h | h
    · left
      simp only []
      omega
    · right
      simp only []
      omega

theorem act_inv (hI : Inv c) (hC : countsOnTakers c (.act i e) = true) (ht : c.threads[i]? = some t)
    (ha : act c.shared t e = some (s', t', new)) : Inv ⟨s', c.threads.set i t' ++ new⟩ := by
  have henough := hI.enough
  have hactive := hI.active_le
  unfold Enough at henough
  cases act_step ha with
  | worker h => exact act_worker hI ht h
  | enqueue =>
    refine hI.call_step ht ⟨rfl, rfl⟩ ⟨rfl, rfl⟩ rfl rfl ?_ rfl fun n hn => ?_
    · simp only [Thread.holds, List.length_append, List.length_singleton]
      omega
    · simp only [Thread.decides] at hn
      simp only []
      omega
  | release =>
    refine hI.call_step ht ⟨rfl, rfl⟩ ⟨rfl, rfl⟩ rfl rfl ?_ rfl fun n hn => ?_
    · simp only [Thread.holds]
      omega
    · simp only [Thread.decides] at hn
      simp only []
      omega
  | blocked =>
    refine hI.call_step ht ⟨rfl, rfl⟩ ⟨rfl, rfl⟩ rfl rfl (Nat.le_refl _) rfl fun n hn => ?_
    simp only [Thread.decides] at hn
    simp only []
    omega
  | unblocked =>
    refine hI.call_step ht ⟨rfl, rfl⟩ ⟨rfl, rfl⟩ rfl rfl (Nat.le_refl _) rfl fun n hn => ?_
    simp only [Thread.decides] at hn
    simp only []
    omega
  | loadActive =>
    refine hI.call_step ht ⟨rfl, rfl⟩ ⟨rfl, rfl⟩ rfl rfl (Nat.le_refl _) rfl fun n hn => ?_
    simp only [Thread.decides, if_pos hactive] at hn
    omega
  | @loadIdle active =>
    simp only [countsOnTakers, ht, Bool.or_eq_true, decide_eq_true_eq] at hC
    by_cases hidle : 0 < c.shared.idleThreads
    · have hE := hC.resolve_left (by omega)
      unfold Enough at hE
      rw [if_pos hidle]
      refine hI.call_step ht ⟨rfl, rfl⟩ ⟨rfl, rfl⟩ rfl rfl (Nat.le_refl _) rfl fun n hn => ?_
      simp only [Thread.decides] at hn hE
      simp only [Shared.assert]
      omega
    · rw [if_neg hidle]
      refine hI.call_step ht ⟨rfl, rfl⟩ ⟨rfl, rfl⟩ rfl rfl (Nat.le_refl _) rfl fun n hn => ?_
      simp only [Thread.decides] at hn
      simp only [Shared.assert]
      omega
  | @loadMax active =>
    by_cases hlt : active < c.shared.maxThreads
    · rw [if_pos hlt]
      refine hI.call_step ht ⟨rfl, rfl⟩ ⟨rfl, rfl⟩ rfl rfl (Nat.le_refl _) rfl fun n hn => ?_
      simp only [Thread.decides] at hn
      split at hn <;> omega
    · rw [if_neg hlt]
      refine hI.call_step ht ⟨rfl, rfl⟩ ⟨rfl, rfl⟩ rfl rfl (Nat.le_refl _) rfl fun n hn => ?_
      simp only [Thread.decides] at hn
      split at hn <;> omega
  | spawn => exact act_spawn hI ht
  | countActive =>
    refine hI.call_step ht ⟨rfl, rfl⟩ ⟨rfl, rfl⟩ rfl rfl (Nat.le_refl _) ?_ fun n hn => ?_
    · simp [Thread.uncounted]
    · simp only [Thread.decides] at hn
      simp only []
      omega
  | cancel | loadCount | releaseAll => cases hI.not_destroyed _ (Family.mem_of_get ht)

end

theorem call_inv {c : Config Shared Thread} (hI : Inv c) {e : Choice} {s' : Shared} {new : List Thread}
    (hC : countsOnTakers c (.call e) = true) (h : call c.shared e = some (s', new)) :
    Inv ⟨s', c.threads ++ new⟩ := by
  have key : ∀ t : Thread, t.live = 0 → t.takes = 0 → t.holds = 0 → t.uncounted = 0 → t.destroys = false →
      (∀ n, t.decides n = 0) → Inv ⟨c.shared, c.threads ++ [t]⟩ := by
    intro t hl ht hh hu hd hn
    have hL : live ⟨c.shared, c.threads ++ [t]⟩ = live c := by simp [live, hl]
    refine ⟨hI.not_cancelled, Family.forall_append hI.not_destroyed (by simpa using hd), ?_, ?_, ?_⟩
    · simpa [hh] using hI.operations
    · simpa [hL, hu] using hI.active
    · simpa [Enough, deciding, hL, hn, takers, ht] using hI.enough
  cases e with
  | execute op priority | blocked | unblocked =>
    cases h
    exact key _ rfl rfl rfl rfl rfl fun _ => rfl
  | destroy => cases hC
  | _ => cases h

theorem run_inv {maxThreads : Int} {tr : List (Config Shared Thread × Label Choice)} {c : Config Shared Thread}
    (h : threadpool.Run (initial maxThreads) tr c)
    (hC : Program.Along (fun c l => countsOnTakers c l = true) tr) : Inv c :=
  h.invariant_by (initial_inv maxThreads) (fun _ _ _ _ hI hC h => call_inv hI hC h)
    (fun _ _ _ _ _ _ _ hI hC ht h => act_inv hI hC ht h) hC

/-! ## Nothing waits behind busy workers -/

/-- No call is in progress, and every worker that is alive is executing an
operation, or blocked in `wait_acquire` with no token. -/
def Settled (c : Config Shared Thread) : Prop :=
  ∀ t ∈ c.threads, t = .returned ∨ t = .worker .exited ∨ (∃ op, t = .worker (.executing op)) ∨
    (t = .worker .waiting ∧ c.shared.tokens = 0)

/-- In a settled pool, operations are left in the buckets only if the workers have reached the limit. -/
def NotStranded (c : Config Shared Thread) : Prop :=
  Settled c → c.shared.operations ≠ [] → c.shared.maxThreads ≤ live c

/-- **Nothing is stranded**, in runs in which a call counts on an idle worker
only while the workers that look for a token, and the other calls, are enough. -/
theorem run_not_stranded {maxThreads : Int} {tr : List (Config Shared Thread × Label Choice)}
    {c : Config Shared Thread} (h : threadpool.Run (initial maxThreads) tr c)
    (hC : Program.Along (fun c l => countsOnTakers c l = true) tr) : NotStranded c := by
  intro hS hops
  have hI := run_inv h hC
  have hholds : Family.total Thread.holds c.threads = 0 := by
    rw [Family.total_eq_zero]
    intro t ht
    rcases hS t ht with rfl | rfl | ⟨op, rfl⟩ | ⟨rfl, -⟩ <;> rfl
  have hD : deciding c = 0 := by
    unfold deciding
    rw [Family.total_eq_zero]
    intro t ht
    rcases hS t ht with rfl | rfl | ⟨op, rfl⟩ | ⟨rfl, -⟩ <;> rfl
  have htok : 0 < c.shared.tokens := by
    have h1 := hI.operations
    have h2 := List.length_pos_iff.mpr hops
    omega
  have hT : takers c = 0 := by
    unfold takers
    rw [Family.total_eq_zero]
    intro t ht
    rcases hS t ht with rfl | rfl | ⟨op, rfl⟩ | ⟨rfl, h0⟩
    · rfl
    · rfl
    · rfl
    · omega
  have := hI.enough
  unfold Enough at this
  rw [hT, hD] at this
  omega

def oneBusy : List (Label Choice) :=
  Label.call (Choice.execute (some 0) .utility) :: List.replicate 7 (.act 0 .step) ++
    List.replicate 7 (Label.act 1 Choice.step) ++ [Label.act 1 (Choice.dequeue 0)]

def oneWaiting : List (Label Choice) :=
  oneBusy ++ Label.call (Choice.execute (some 1) .utility) :: List.replicate 5 (.act 2 .step)

theorem run_not_stranded_waiting : NotStranded (threadpool.last (initial 1) oneWaiting) ∧
    (threadpool.last (initial 1) oneWaiting).shared.operations = [(2, some 1)] :=
  ⟨run_not_stranded (Program.run_last (by decide)) (by decide), by decide⟩

/-- The worker has become idle, and two calls count on it. -/
def burst : List (Label Choice) :=
  oneBusy ++ List.replicate 3 (Label.act 1 Choice.step) ++ [Label.act 1 Choice.giveUp, .act 1 .step] ++
    Label.call (Choice.execute (some 1) .utility) :: List.replicate 4 (.act 2 .step) ++
    Label.call (Choice.execute (some 2) .utility) :: List.replicate 4 (.act 3 .step) ++
    List.replicate 7 (Label.act 1 Choice.step) ++ [Label.act 1 (Choice.dequeue 0)]

theorem burst_strands : ¬ ∀ maxThreads tr c, 1 ≤ maxThreads → threadpool.Run (initial maxThreads) tr c →
    Program.Along (fun _ l => l ≠ .call .destroy) tr → NotStranded c := by
  intro hall
  have hN := hall 2 _ _ (by decide) (Program.run_last (l := burst) (by decide)) (by decide)
  have hthreads : (threadpool.last (initial 2) burst).threads =
      [.returned, .worker (.executing 1), .returned, .returned] := by decide
  have hops : (threadpool.last (initial 2) burst).shared.operations = [(2, some 2)] := by decide
  have := hN (fun t ht => ?_) (by rw [hops]; simp)
  · rw [live, hthreads] at this
    exact absurd this (by decide)
  · rw [hthreads] at ht
    simp only [List.mem_cons, List.not_mem_nil, or_false] at ht
    rcases ht with rfl | rfl | rfl | rfl
    · exact Or.inl rfl
    · exact Or.inr (Or.inr (Or.inl ⟨1, rfl⟩))
    · exact Or.inl rfl
    · exact Or.inl rfl

end Xdispatch.Threadpool
