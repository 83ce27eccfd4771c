import Xdispatch.Threadpool.Expiry

/-!
# Destroying the pool

`~threadpool` sets `m_cancelled` and releases as many tokens as threads are
active. A worker that sees `m_cancelled` with a token in hand stops its search
without an operation and asserts that it has one, and a release of no tokens is
asserted against as well. So all goes well only when no worker has a token or
can get one, and some are active all the same: they are executing. Their operations
may be in a `block_scope`, which tells the pool by a raw pointer when it ends.
-/

namespace Xdispatch.Threadpool

/-- Tries to take a token whether the pool is cancelled or not. -/
def Worker.acquires : Worker → Bool
  | .tryAcquire | .spinAcquire | .idle | .waiting | .expired | .expiredActive | .recover => true
  | _ => false

def Thread.acquires : Thread → Bool
  | .worker w => w.acquires
  | _ => false

/-- Is the destructor, which has not returned. -/
def Thread.destructor (t : Thread) : Nat := t.destroys.toNat

/-- `m_cancelled` is set while no worker has a token or can get one, some are
active when their number is loaded, and none can get one of the tokens released.
A `block_scope` ends before the destructor does. -/
def leavesBusy (c : Config Shared Thread) : Label Choice → Bool
  | .act i _ =>
    match c.threads[i]? with
    | some .cancel =>
      c.threads.all (fun t => t.holds = 0) && (c.shared.tokens = 0 || c.threads.all (fun t => !t.acquires))
    | some .loadCount => 0 < c.shared.activeThreads
    | some (.releaseAll _) => c.threads.all (fun t => !t.acquires) && Thread.unblocked ∉ c.threads
    | _ => true
  | .call .unblocked => 0 < Family.total Thread.destructor c.threads
  | .call _ => true

/-- What there is while the pool is destroyed: nobody calls it but an operation that
leaves a `block_scope`. -/
def whileDestroyed : Label Choice → Bool
  | .act _ _ | .call .unblocked => true
  | _ => false

/-- No assertion has failed, nor fails in the release to come; no call is in progress on
the pool that has been destroyed; and once the pool is cancelled each worker leaves `run`
by itself, and no assertion fails on its way. -/
structure Orderly (c : Config Shared Thread) : Prop where
  not_asserted : c.shared.asserted = false
  released : ∀ count, Thread.releaseAll count ∈ c.threads → 0 < count
  alive : Thread.unblocked ∈ c.threads → 0 < Family.total Thread.destructor c.threads
  leaves : c.shared.cancelled = true → ∀ (i : Nat) (w : Worker), c.threads[i]? = some (.worker w) →
    ∃ (es : List Choice) (c' : Config Shared Thread), threadpool.exec c (es.map (.act i)) = some c' ∧
      c'.threads[i]? = some (.worker .exited)
  asserts : c.shared.cancelled = true → ∀ (i : Nat) (w : Worker), c.threads[i]? = some (.worker w) →
    ∀ (es : List Choice) (c' : Config Shared Thread), threadpool.exec c (es.map (.act i)) = some c' →
      c'.shared.asserted = false

/-- A thread of a pool that is being destroyed. -/
def Thread.closes : Thread → Bool
  | .worker _ | .unblocked | .cancel | .loadCount | .releaseAll _ | .returned => true
  | _ => false

structure Closing (c : Config Shared Thread) : Prop where
  not_asserted : c.shared.asserted = false
  closes : ∀ t ∈ c.threads, t.closes = true
  released : ∀ count, Thread.releaseAll count ∈ c.threads → 0 < count ∧ c.shared.cancelled = true
  loads : Thread.loadCount ∈ c.threads → c.shared.cancelled = true
  holds : c.shared.cancelled = true → ∀ t ∈ c.threads, t.holds = 0
  tokens : c.shared.cancelled = true → c.shared.tokens = 0 ∨ ∀ t ∈ c.threads, t.acquires = false
  one : Family.total Thread.destructor c.threads ≤ 1
  alive : Thread.unblocked ∈ c.threads → 0 < Family.total Thread.destructor c.threads

section
variable {c : Config Shared Thread} {i : Nat} {w w' : Worker} {t t' : Thread} {s s' : Shared} {new : List Thread}
  {e : Choice}

/-- After the cancellation a worker only takes a token where there is one. -/
theorem Moves.closing (h : Moves s w s' w') (hc : s.cancelled = true) (hh : w.holds = 0)
    (ht : s.tokens = 0 ∨ w.acquires = false) :
    s'.asserted = s.asserted ∧ s'.tokens = s.tokens ∧ w'.holds = 0 ∧ (w.acquires = false → w'.acquires = false) := by
  cases h with
  | take h h0 =>
    rcases ht with ht | ht
    · omega
    · cases h <;> cases ht
  | miss h => cases h <;> exact ⟨rfl, rfl, rfl, fun h => by cases h⟩
  | loop h =>
    rw [hc] at h
    cases h
  | woken | recovered | found | asserts | missed | null | dequeue => cases hh
  | idle | giveUp | expired | expiredActive => exact ⟨rfl, rfl, rfl, fun h => by cases h⟩
  | leave | executed | exit => exact ⟨rfl, rfl, rfl, fun _ => rfl⟩

/-- The destructor and the calls are where they were. -/
theorem Closing.destructor (hI : Closing c) (ht : c.threads[i]? = some t) (t' : Thread)
    (hd : t'.destructor = t.destructor) (hu : t' ≠ .unblocked) :
    Family.total Thread.destructor (c.threads.set i t' ++ []) ≤ 1 ∧
      (Thread.unblocked ∈ c.threads.set i t' ++ [] → 0 < Family.total Thread.destructor (c.threads.set i t' ++ [])) := by
  have htot := Family.total_step Thread.destructor ht t' []
  rw [hd, Family.total_nil, Nat.add_zero, Nat.add_right_cancel_iff] at htot
  rw [htot]
  exact ⟨hI.one, fun hx => hI.alive (Family.mem_of_step hx (Ne.symm hu))⟩

theorem worker_closing (hI : Closing c) (ht : c.threads[i]? = some (.worker w))
    (hm : Moves c.shared w s' w') : Closing ⟨s', c.threads.set i (.worker w') ++ []⟩ := by
  have hcan := hm.cancelled_eq
  have hmem := Family.mem_of_get ht
  obtain ⟨hone, halive⟩ := hI.destructor ht (.worker w') rfl (by simp)
  by_cases hc : c.shared.cancelled = true
  · have hstep := hm.closing hc (hI.holds hc _ hmem) ((hI.tokens hc).imp_right fun h => h _ hmem)
    refine ⟨hstep.1.trans hI.not_asserted, Family.forall_step hI.closes rfl (by simp), ?_, ?_, ?_, ?_, hone, halive⟩
    · intro count hx
      exact ⟨(hI.released count (Family.mem_of_step hx (by simp))).1, hcan.trans hc⟩
    · exact fun _ => hcan.trans hc
    · exact fun _ => Family.forall_step (hI.holds hc) hstep.2.2.1 (by simp)
    · intro _
      rcases hI.tokens hc with h0 | h0
      · exact Or.inl (hstep.2.1.trans h0)
      · exact Or.inr (Family.forall_step h0 (hstep.2.2.2 (h0 _ hmem)) (by simp))
  · have hc0 : c.shared.cancelled = false := by simpa using hc
    have hc' : ¬ s'.cancelled = true := by rw [hcan, hc0]; decide
    refine ⟨(hm.asserted_eq hc0).trans hI.not_asserted, Family.forall_step hI.closes rfl (by simp), ?_, ?_, ?_, ?_,
      hone, halive⟩
    · intro count hx
      exact absurd (hI.released count (Family.mem_of_step hx (by simp))).2 hc
    · intro hx
      exact absurd (hI.loads (Family.mem_of_step hx (by simp))) hc
    · exact fun h => absurd h hc'
    · exact fun h => absurd h hc'

theorem act_closing (hI : Closing c) (hC : leavesBusy c (.act i e) = true) (ht : c.threads[i]? = some t)
    (h : act c.shared t e = some (s', t', new)) : Closing ⟨s', c.threads.set i t' ++ new⟩ := by
  have hmem := Family.mem_of_get ht
  have hclose := hI.closes _ hmem
  simp only [leavesBusy, ht] at hC
  cases t with
  | worker w =>
    obtain ⟨w', hw, rfl, rfl⟩ := act_of_worker h
    exact worker_closing hI ht (moves_of_act hw)
  | cancel =>
    cases e with
    | step =>
      cases h
      simp only [Bool.and_eq_true, Bool.or_eq_true, List.all_eq_true, decide_eq_true_eq, Bool.not_eq_true'] at hC
      obtain ⟨hone, halive⟩ := hI.destructor ht .loadCount rfl (by simp)
      refine ⟨hI.not_asserted, Family.forall_step hI.closes rfl (by simp), ?_, fun _ => rfl, ?_, ?_, hone, halive⟩
      · exact fun count hx => ⟨(hI.released count (Family.mem_of_step hx (by simp))).1, rfl⟩
      · exact fun _ => Family.forall_step hC.1 rfl (by simp)
      · exact fun _ => hC.2.imp_right fun h0 => Family.forall_step h0 rfl (by simp)
    | _ => cases h
  | loadCount =>
    cases e with
    | step =>
      cases h
      simp only [decide_eq_true_eq] at hC
      have hc := hI.loads hmem
      obtain ⟨hone, halive⟩ := hI.destructor ht (.releaseAll c.shared.activeThreads) rfl (by simp)
      refine ⟨hI.not_asserted, Family.forall_step hI.closes rfl (by simp), ?_, fun _ => hc, ?_, ?_, hone, halive⟩
      · intro count hx
        rw [List.append_nil] at hx
        rcases List.mem_or_eq_of_mem_set hx with hx | hx
        · exact hI.released count hx
        · cases hx
          exact ⟨hC, hc⟩
      · exact fun _ => Family.forall_step (hI.holds hc) rfl (by simp)
      · exact fun _ => (hI.tokens hc).imp_right fun h0 => Family.forall_step h0 rfl (by simp)
    | _ => cases h
  | releaseAll count =>
    cases e with
    | step =>
      cases h
      simp only [Bool.and_eq_true, List.all_eq_true, Bool.not_eq_true', decide_eq_true_eq] at hC
      obtain ⟨hC, hcalls⟩ := hC
      obtain ⟨hpos, hc⟩ := hI.released count hmem
      have htot := Family.total_step Thread.destructor ht .returned []
      rw [Family.total_nil] at htot
      refine ⟨by simp [Shared.assert, hI.not_asserted, hpos], Family.forall_step hI.closes rfl (by simp), ?_,
        fun _ => hc, ?_, ?_, Nat.le_trans (Nat.le_of_add_right_le (Nat.le_of_eq htot)) hI.one, fun hx => ?_⟩
      · exact fun n hx => hI.released n (Family.mem_of_step hx (by simp))
      · exact fun _ => Family.forall_step (hI.holds hc) rfl (by simp)
      · exact fun _ => Or.inr (Family.forall_step hC rfl (by simp))
      · exact absurd (Family.mem_of_step hx (by simp)) hcalls
    | _ => cases h
  | unblocked =>
    cases e with
    | step =>
      cases h
      obtain ⟨hone, halive⟩ := hI.destructor ht .returned rfl (by simp)
      exact ⟨hI.not_asserted, Family.forall_step hI.closes rfl (by simp),
        fun count hx => hI.released count (Family.mem_of_step hx (by simp)),
        fun hx => hI.loads (Family.mem_of_step hx (by simp)),
        fun hc => Family.forall_step (hI.holds hc) rfl (by simp),
        fun hc => (hI.tokens hc).imp_right fun h0 => Family.forall_step h0 rfl (by simp), hone, halive⟩
    | _ => cases h
  | returned => cases e <;> cases h
  | _ => cases hclose

theorem call_closing (hI : Closing c) (hC : leavesBusy c (.call .unblocked) = true) :
    Closing ⟨c.shared, c.threads ++ [.unblocked]⟩ := by
  have hback : ∀ {x : Thread}, x ≠ .unblocked → x ∈ c.threads ++ [.unblocked] → x ∈ c.threads := by
    intro x hne hx
    exact (List.mem_append.mp hx).resolve_right fun h => hne (List.mem_singleton.mp h)
  have htot : Family.total Thread.destructor (c.threads ++ [.unblocked]) = Family.total Thread.destructor c.threads :=
    Family.total_append ..
  simp only [leavesBusy, decide_eq_true_eq] at hC
  refine ⟨hI.not_asserted, Family.forall_append hI.closes (by simp [Thread.closes]),
    fun count hx => hI.released count (hback (by simp) hx), fun hx => hI.loads (hback (by simp) hx),
    fun hc => Family.forall_append (hI.holds hc) (by simp [Thread.holds]),
    fun hc => (hI.tokens hc).imp_right fun h0 => Family.forall_append h0 (by simp [Thread.acquires]), ?_, fun _ => ?_⟩
  · simpa only [htot] using hI.one
  · simpa only [htot] using hC

/-! ## Leaving -/

/-- Steps to the end of `run`, for a worker that gets no token. -/
def Worker.rank : Worker → Nat
  | .tryAcquire => 9
  | .spinAcquire => 8
  | .idle => 7
  | .waiting => 6
  | .expired => 5
  | .expiredActive => 4
  | .executing _ => 3
  | .recover | .loop => 2
  | .exiting => 1
  | _ => 0

def Thread.rank : Thread → Nat
  | .worker w => w.rank
  | _ => 0

theorem closing_alone (hI : Closing c) (ht : c.threads[i]? = some (.worker w)) : ∀ (es : List Choice)
    (c' : Config Shared Thread), threadpool.exec c (es.map (.act i)) = some c' → c'.shared.asserted = false := by
  intro es
  induction es generalizing c w with
  | nil =>
    intro c' hex
    cases hex
    exact hI.not_asserted
  | cons e es ih =>
    intro c' hex
    simp only [List.map_cons, Program.exec, Option.bind_eq_some_iff] at hex
    obtain ⟨d, hd, hex⟩ := hex
    obtain ⟨t, s', t', new, ht', ha, rfl⟩ := Program.next_act hd
    cases ht.symm.trans ht'
    obtain ⟨w', hw, rfl, rfl⟩ := act_of_worker ha
    exact ih (worker_closing hI ht (moves_of_act hw)) (Family.get_step ht _ []) c' hex

theorem leaving_step (i : Nat) (c : Config Shared Thread) (t : Thread)
    (h : Closing c ∧ c.shared.cancelled = true ∧ ∃ w, c.threads[i]? = some (.worker w)) (ht : c.threads[i]? = some t) :
    t = .worker .exited ∨ ∃ e s' t' new, threadpool.act c.shared t e = some (s', t', new) ∧
      (t' = .worker .exited ∨ t'.rank < t.rank ∧ Closing ⟨s', c.threads.set i t' ++ new⟩ ∧ s'.cancelled = true ∧
        ∃ w, (c.threads.set i t' ++ new)[i]? = some (.worker w)) := by
  obtain ⟨hI, hc, w, ht'⟩ := h
  cases ht'.symm.trans ht
  have hmem := Family.mem_of_get ht
  have key : ∀ (e : Choice) (s' : Shared) (w' : Worker), w.act c.shared e = some (s', w') → w'.rank < w.rank →
      ∃ e s' t' new, threadpool.act c.shared (.worker w) e = some (s', t', new) ∧
        (t' = .worker .exited ∨ t'.rank < (Thread.worker w).rank ∧ Closing ⟨s', c.threads.set i t' ++ new⟩ ∧
          s'.cancelled = true ∧ ∃ w, (c.threads.set i t' ++ new)[i]? = some (.worker w)) := by
    intro e s' w' ha hr
    refine ⟨e, s', .worker w', [], by simp [threadpool, act, ha],
      Or.inr ⟨hr, worker_closing hI ht (moves_of_act ha), ?_, w', ?_⟩⟩
    · exact (moves_of_act ha).cancelled_eq.trans hc
    · exact Family.get_step ht _ []
  have hmiss : ∀ v v', w.acquires = true → c.shared.tryAcquire v v' = (c.shared, v') := by
    intro v v' hw
    have h0 : c.shared.tokens = 0 := by
      rcases hI.tokens hc with h0 | h0
      · exact h0
      · have := h0 _ hmem
        rw [Thread.acquires, hw] at this
        cases this
    simp [Shared.tryAcquire, Shared.acquire, h0]
  cases w with
  | exited => exact Or.inl rfl
  | exiting => exact Or.inr ⟨.step, _, _, _, rfl, Or.inl rfl⟩
  | loop => exact Or.inr (key .step c.shared .exiting (by simp [Worker.act, hc]) (by decide))
  | tryAcquire => exact Or.inr (key .step _ .spinAcquire (congrArg some (hmiss _ _ rfl)) (by decide))
  | spinAcquire => exact Or.inr (key .giveUp _ _ rfl (by decide))
  | idle => exact Or.inr (key .step _ _ rfl (by decide))
  | waiting => exact Or.inr (key .timeout _ .expired (congrArg some (hmiss _ _ rfl)) (by decide))
  | expired => exact Or.inr (key .step _ _ rfl (by decide))
  | expiredActive => exact Or.inr (key .step _ _ rfl (by decide))
  | recover => exact Or.inr (key .step _ .exiting (congrArg some (hmiss _ _ rfl)) (by decide))
  | executing op => exact Or.inr (key .step _ .loop rfl (Nat.lt_succ_self _))
  | woken | recovered | search | dequeue => cases hI.holds hc _ hmem

theorem Closing.orderly (hI : Closing c) : Orderly c := by
  refine ⟨hI.not_asserted, fun count hm => (hI.released count hm).1, hI.alive, ?_, ?_⟩
  · intro hc i w ht
    obtain ⟨es, c', t', hex, ht', rfl⟩ := Program.exists_steps (fun _ t => t = .worker .exited) (fun _ t => t.rank)
      (leaving_step i) _ c _ (Nat.lt_succ_self _) ⟨hI, hc, w, ht⟩ ht
    exact ⟨es, c', hex, ht'⟩
  · intro _ i w ht
    exact closing_alone hI ht

/-! ## Failing -/

/-- Has a token, or takes one. -/
def Doomed (s : Shared) (w : Worker) : Prop := w.holds = 1 ∨ w.acquires = true ∧ 0 < s.tokens

/-- Steps to the assertion, for a worker with a token to get. -/
def Worker.doom : Worker → Nat
  | .expired => 5
  | .idle | .expiredActive => 4
  | .waiting | .recover => 3
  | .tryAcquire | .spinAcquire | .woken | .recovered | .dequeue _ => 2
  | .search _ => 1
  | _ => 0

def Thread.doom : Thread → Nat
  | .worker w => w.doom
  | _ => 0

theorem doomed_step (i : Nat) (c : Config Shared Thread) (t : Thread)
    (h : c.shared.cancelled = true ∧ ∃ w, c.threads[i]? = some (.worker w) ∧ Doomed c.shared w)
    (ht : c.threads[i]? = some t) : c.shared.asserted = true ∨
      ∃ e s' t' new, threadpool.act c.shared t e = some (s', t', new) ∧
        (s'.asserted = true ∨ t'.doom < t.doom ∧ s'.cancelled = true ∧
          ∃ w, (c.threads.set i t' ++ new)[i]? = some (.worker w) ∧ Doomed s' w) := by
  obtain ⟨hc, w, ht', hd⟩ := h
  cases ht'.symm.trans ht
  right
  have key : ∀ (s' : Shared) (w' : Worker), w.act c.shared .step = some (s', w') → w'.doom < w.doom → Doomed s' w' →
      ∃ e s' t' new, threadpool.act c.shared (.worker w) e = some (s', t', new) ∧
        (s'.asserted = true ∨ t'.doom < (Thread.worker w).doom ∧ s'.cancelled = true ∧
          ∃ w, (c.threads.set i t' ++ new)[i]? = some (.worker w) ∧ Doomed s' w) := by
    intro s' w' ha hr hd'
    refine ⟨.step, s', .worker w', [], by simp [threadpool, act, ha], Or.inr ⟨hr, ?_, w', ?_, hd'⟩⟩
    · exact (moves_of_act ha).cancelled_eq.trans hc
    · exact Family.get_step ht _ []
  have htok : w.acquires = true → w.holds = 0 → 0 < c.shared.tokens := by
    intro _ hh
    rcases hd with h | h
    · omega
    · exact h.2
  have htake : ∀ v v', 0 < c.shared.tokens →
      c.shared.tryAcquire v v' = ({ c.shared with tokens := c.shared.tokens - 1 }, v) := by
    intro v v' h0
    simp [Shared.tryAcquire, Shared.acquire, Nat.pos_iff_ne_zero.mp h0]
  cases w with
  | search label =>
    refine ⟨.step, c.shared.assert false, .worker .loop, [], ?_, Or.inl ?_⟩
    · simp [threadpool, act, Worker.act, hc]
    · simp [Shared.assert]
  | woken | recovered | dequeue => exact key _ _ rfl (by simp [Worker.doom]) (Or.inl rfl)
  | tryAcquire =>
    exact key _ (.search 0) (congrArg some (htake _ _ (htok rfl rfl))) (by decide) (Or.inl rfl)
  | spinAcquire =>
    refine key { c.shared with tokens := c.shared.tokens - 1 } (.search 0) ?_ (by decide) (Or.inl rfl)
    simp [Worker.act, Shared.acquire, Nat.pos_iff_ne_zero.mp (htok rfl rfl)]
  | idle => exact key _ _ rfl (by decide) (Or.inr ⟨rfl, htok rfl rfl⟩)
  | waiting =>
    refine key { c.shared with tokens := c.shared.tokens - 1 } .woken ?_ (by decide) (Or.inl rfl)
    simp [Worker.act, Shared.acquire, Nat.pos_iff_ne_zero.mp (htok rfl rfl)]
  | expired => exact key _ _ rfl (by decide) (Or.inr ⟨rfl, htok rfl rfl⟩)
  | expiredActive => exact key _ _ rfl (by decide) (Or.inr ⟨rfl, htok rfl rfl⟩)
  | recover => exact key _ .recovered (congrArg some (htake _ _ (htok rfl rfl))) (by decide) (Or.inl rfl)
  | loop | executing | exiting | exited =>
    rcases hd with h | h
    · cases h
    · cases h.1

theorem not_orderly_of_doomed (hc : c.shared.cancelled = true) (ht : Thread.worker w ∈ c.threads)
    (hd : Doomed c.shared w) : ¬ Orderly c := by
  intro hO
  obtain ⟨i, hi⟩ := List.mem_iff_getElem?.mp ht
  obtain ⟨es, c', t', hex, -, hf⟩ := Program.exists_steps (fun s _ => s.asserted = true) (fun _ t => t.doom)
    (doomed_step i) _ c _ (Nat.lt_succ_self _) ⟨hc, w, hi, hd⟩ hi
  have := hO.asserts hc i w hi es c' hex
  rw [hf] at this
  cases this

theorem exists_acquires {l : List Thread} (h : ¬ l.all (fun t => !t.acquires) = true) :
    ∃ w, Thread.worker w ∈ l ∧ w.acquires = true := by
  rw [List.all_eq_true] at h
  refine Classical.byContradiction fun hn => h fun t ht => ?_
  cases t with
  | worker w =>
    by_cases ha : w.acquires = true
    · exact absurd ⟨w, ht, ha⟩ hn
    · simpa [Thread.acquires] using ha
  | _ => rfl

theorem exists_holds (hI : Closing c) (h : ¬ c.threads.all (fun t => t.holds = 0) = true) :
    ∃ w, Thread.worker w ∈ c.threads ∧ w.holds = 1 := by
  rw [List.all_eq_true] at h
  refine Classical.byContradiction fun hn => h fun t ht => ?_
  cases t with
  | worker w =>
    have hne : w.holds ≠ 1 := fun hh => hn ⟨w, ht, hh⟩
    rw [decide_eq_true_eq]
    cases w with
    | woken | recovered | search | dequeue => exact absurd rfl hne
    | _ => rfl
  | release => cases hI.closes _ ht
  | _ => rfl

theorem exists_doomed (hI : Closing c) (h : ¬ (c.threads.all (fun t => t.holds = 0) &&
    (c.shared.tokens = 0 || c.threads.all (fun t => !t.acquires))) = true) :
    ∃ w, Thread.worker w ∈ c.threads ∧ Doomed c.shared w := by
  by_cases hh : c.threads.all (fun t => t.holds = 0) = true
  · rw [hh, Bool.true_and, Bool.or_eq_true, not_or, decide_eq_true_eq] at h
    obtain ⟨w, hm, ha⟩ := exists_acquires h.2
    exact ⟨w, hm, Or.inr ⟨ha, Nat.pos_of_ne_zero h.1⟩⟩
  · obtain ⟨w, hm, hw⟩ := exists_holds hI hh
    exact ⟨w, hm, Or.inl hw⟩

theorem act_not_orderly (hI : Closing c) (hC : ¬ leavesBusy c (.act i e) = true) (ht : c.threads[i]? = some t)
    (h : act c.shared t e = some (s', t', new)) : ¬ Orderly ⟨s', c.threads.set i t' ++ new⟩ := by
  have hmem := Family.mem_of_get ht
  simp only [leavesBusy, ht] at hC
  -- a worker stays where it is when the destructor takes a step
  have hstay : ∀ w, Thread.worker w ∈ c.threads → (∀ w', t ≠ .worker w') →
      Thread.worker w ∈ c.threads.set i t' ++ new := by
    intro w hm hne
    exact Family.mem_step_of_ne ht hm (Ne.symm (hne w)) _ _
  cases t with
  | cancel =>
    cases e with
    | step =>
      cases h
      obtain ⟨w, hm, hd⟩ := exists_doomed hI hC
      exact not_orderly_of_doomed (c := ⟨{ c.shared with cancelled := true }, _⟩) rfl (hstay w hm (by simp)) hd
    | _ => cases h
  | loadCount =>
    cases e with
    | step =>
      cases h
      intro hO
      refine hC ?_
      rw [decide_eq_true_eq]
      exact hO.released _ (Family.mem_step_self ht _ _)
    | _ => cases h
  | releaseAll count =>
    cases e with
    | step =>
      cases h
      obtain ⟨hpos, hc⟩ := hI.released count hmem
      by_cases hu : Thread.unblocked ∈ c.threads
      · -- the pool is gone, and the call is in progress
        have htot := Family.total_step Thread.destructor ht .returned []
        have hone := hI.one
        have hd : Family.total Thread.destructor (c.threads.set i .returned ++ []) = 0 := by
          simp only [Thread.destructor, Thread.destroys, Bool.toNat_true, Bool.toNat_false, Family.total_nil] at htot
          omega
        intro hO
        have := hO.alive (Family.mem_step_of_ne ht hu (by simp) _ _)
        rw [hd] at this
        exact absurd this (Nat.lt_irrefl 0)
      have hacq : ¬ c.threads.all (fun t => !t.acquires) = true := fun h => hC (by simp [h, hu])
      obtain ⟨w, hm, ha⟩ := exists_acquires hacq
      refine not_orderly_of_doomed (c := ⟨_, _⟩) hc (hstay w hm (by simp)) (Or.inr ⟨ha, ?_⟩)
      change 0 < c.shared.tokens + count.toNat
      omega
    | _ => cases h
  | _ => exact absurd rfl hC

theorem call_not_orderly (hC : ¬ leavesBusy c (.call .unblocked) = true) :
    ¬ Orderly ⟨c.shared, c.threads ++ [.unblocked]⟩ := by
  intro hO
  have halive := hO.alive (List.mem_append_right _ (List.mem_singleton_self _))
  have htot : Family.total Thread.destructor (c.threads ++ [.unblocked]) = Family.total Thread.destructor c.threads :=
    Family.total_append ..
  simp only [htot] at halive
  exact hC (decide_eq_true halive)

end

/-- The pool with its destructor about to run. -/
def destroying (c : Config Shared Thread) : Config Shared Thread := ⟨c.shared, c.threads ++ [.cancel]⟩

theorem destroying_closing {c : Config Shared Thread} (hQ : Quiet c) (hc : c.shared.cancelled = false)
    (ha : c.shared.asserted = false) : Closing (destroying c) := by
  have hmem : ∀ t, t ∈ c.threads ++ [Thread.cancel] → (∃ w, t = .worker w) ∨ t = .returned ∨ t = .cancel := by
    intro t ht
    rcases List.mem_append.mp ht with ht | ht
    · exact (hQ t ht).imp_right Or.inl
    · exact Or.inr (Or.inr (List.mem_singleton.mp ht))
  have hzero : Family.total Thread.destructor c.threads = 0 := by
    refine Family.total_eq_zero.mpr fun t ht => ?_
    rcases hQ t ht with ⟨w, rfl⟩ | rfl <;> rfl
  have hone : Family.total Thread.destructor (destroying c).threads = 1 := by
    rw [destroying, Family.total_append, hzero]
    rfl
  refine ⟨ha, ?_, ?_, ?_, ?_, ?_, Nat.le_of_eq hone, fun _ => Nat.le_of_eq hone.symm⟩
  · intro t ht
    rcases hmem t ht with ⟨w, rfl⟩ | rfl | rfl <;> rfl
  · intro count ht
    rcases hmem _ ht with ⟨w, h⟩ | h | h <;> cases h
  · intro ht
    rcases hmem _ ht with ⟨w, h⟩ | h | h <;> cases h
  · intro h
    rw [destroying, hc] at h
    cases h
  · intro h
    rw [destroying, hc] at h
    cases h

/-- **Destroying the pool** is orderly in the runs in which all workers that are left are busy
when it happens, and out of every `block_scope` when it has happened, and in no others. -/
theorem run_orderly_iff {maxThreads : Int} {tr₀ tr : List (Config Shared Thread × Label Choice)}
    {c₀ c : Config Shared Thread} (h0 : threadpool.Run (initial maxThreads) tr₀ c₀)
    (hD : Program.Along (fun _ l => l ≠ .call .destroy) tr₀) (hQ : Quiet c₀) (ha : c₀.shared.asserted = false)
    (h : threadpool.Run (destroying c₀) tr c) (hA : Program.Along (fun _ l => whileDestroyed l = true) tr) :
    Program.Along (fun c l => leavesBusy c l = true) tr ↔ (∀ p ∈ tr, Orderly p.1) ∧ Orderly c := by
  have hI : Counted c₀ := by
    refine h0.invariant (initial_counted maxThreads) ?_ hD
    intro c l c' hI hl hn
    exact next_counted hI hl hn
  refine h.along_iff_of (destroying_closing hQ hI.not_cancelled ha) ?_ (fun _ hI => hI.orderly) ?_ hA
  · intro c l c' hI hA hC hn
    cases l with
    | call e =>
      cases e with
      | unblocked =>
        cases hn
        exact call_closing hI hC
      | _ => cases hA
    | act i e =>
      obtain ⟨t, s', t', new, ht, ha, rfl⟩ := Program.next_act hn
      exact act_closing hI hC ht ha
  · intro c l c' hI hA hC hn
    cases l with
    | call e =>
      cases e with
      | unblocked =>
        cases hn
        exact call_not_orderly hC
      | _ => cases hA
    | act i e =>
      obtain ⟨t, s', t', new, ht, ha, rfl⟩ := Program.next_act hn
      exact act_not_orderly hI hC ht ha

/-- The operation that is executed leaves a `block_scope` in between. -/
def shutdown : List (Label Choice) :=
  [Label.act 2 .step, .call .unblocked, .act 3 .step] ++ List.replicate 2 (.act 2 .step) ++ List.replicate 3 (.act 1 .step)

theorem run_orderly_iff_busy : Orderly
    (threadpool.last (destroying (threadpool.last (initial 1) oneBusy)) shutdown) := by
  refine ((run_orderly_iff (Program.run_last (l := oneBusy) (by decide)) (by decide) ?_ (by decide)
    (Program.run_last (l := shutdown) (by decide)) (by decide)).mp (by decide)).2
  intro t ht
  have hthreads : (threadpool.last (initial 1) oneBusy).threads = [.returned, .worker (.executing 0)] := by decide
  rw [hthreads] at ht
  simp only [List.mem_cons, List.not_mem_nil, or_false] at ht
  rcases ht with rfl | rfl
  · exact Or.inr rfl
  · exact Or.inl ⟨_, rfl⟩

/-- No worker was ever started. -/
theorem shutdown_asserts : ¬ ∀ maxThreads tr₀ c₀, threadpool.Run (initial maxThreads) tr₀ c₀ →
    Program.Along (fun _ l => l ≠ .call .destroy) tr₀ → Quiet c₀ → c₀.shared.asserted = false →
    ∀ tr c, threadpool.Run (destroying c₀) tr c → Program.Along (fun _ l => whileDestroyed l = true) tr →
    c.shared.asserted = false := by
  intro hall
  have := hall 4 _ _ Program.Run.nil (by simp [Program.Along]) (by simp [Quiet, initial]) rfl _ _
    (Program.run_last (l := List.replicate 3 (.act 0 .step)) (by decide)) (by decide)
  exact absurd this (by decide)

end Xdispatch.Threadpool
