import Xdispatch.Threadpool.Counters

/-!
# Tokens and operations

`execute` puts an operation into a bucket before it releases a token, and a
worker takes a token before it looks for an operation. So while the pool is not
cancelled the operations in the buckets are the tokens of the semaphore, the
tokens that workers hold, and the ones that calls have still to release.
-/

namespace Xdispatch.Threadpool

/-! ## Operations along a run -/

def queued (s : Shared) : Multiset Nat := (s.operations.filterMap Prod.snd : List Nat)

def Thread.enqueuing : Thread → Multiset Nat
  | .enqueue _ (some op) => {op}
  | _ => 0

/-- The operation that a step passes to `execute`. -/
def submitted : Config Shared Thread × Label Choice → Multiset Nat
  | (_, .call (.execute (some op) _)) => {op}
  | _ => 0

/-- The operation that a worker begins to run with a step. -/
def begun : Config Shared Thread × Label Choice → Multiset Nat
  | (c, .act i e) =>
    match (threadpool.next c (.act i e)).bind (·.threads[i]?) with
    | some (.worker (.executing op)) => {op}
    | _ => 0
  | _ => 0

def Thread.begins : Thread → Multiset Nat
  | .worker (.executing op) => {op}
  | _ => 0

section
variable {c : Config Shared Thread} {i : Nat} {w w' : Worker} {t t' : Thread} {s s' : Shared} {new : List Thread}
  {e : Choice}

theorem begun_act (ht : c.threads[i]? = some t) (h : act c.shared t e = some (s', t', new)) :
    begun (c, .act i e) = t'.begins := by
  have hn := Program.act_next (P := threadpool) ht h
  have hg := Family.get_step ht t' new
  unfold begun
  simp only [hn, Option.bind_some, hg]
  cases t' with
  | worker w => cases w <;> rfl
  | _ => rfl

theorem queued_erase {s : Shared} {k bucket : Nat} {op : Option Nat} (h : s.operations[k]? = some (bucket, op)) :
    queued s = queued { s with operations := s.operations.eraseIdx k } + (op.toList : Multiset Nat) := by
  obtain ⟨hlt, hget⟩ := List.getElem?_eq_some_iff.mp h
  have hp := (List.getElem_cons_eraseIdx_perm hlt).filterMap Prod.snd
  rw [hget] at hp
  unfold queued
  rw [← Multiset.coe_eq_coe.mpr hp]
  cases op with
  | none => simp
  | some op =>
    rw [Option.toList_some, Multiset.coe_singleton, add_comm]
    rfl

theorem Moves.queued_eq (h : Moves s w s' w') :
    queued s + (Thread.worker w).enqueuing = queued s' + (Thread.worker w').begins := by
  cases h with
  | null hk => simpa [Thread.enqueuing, Thread.begins] using queued_erase hk
  | dequeue hk => simpa [Thread.enqueuing, Thread.begins] using queued_erase hk
  | take h | miss h => cases h <;> rfl
  | _ => rfl

theorem act_queued (h : act s t e = some (s', t', new)) :
    queued s + t.enqueuing = queued s' + t'.begins + t'.enqueuing + Family.total Thread.enqueuing new := by
  cases act_step h with
  | worker hm => simpa [Thread.enqueuing] using hm.queued_eq
  | @enqueue bucket op =>
    cases op with
    | none => simp [queued, Thread.enqueuing, Thread.begins, List.filterMap_append]
    | some op =>
      simp only [queued, Thread.enqueuing, Thread.begins, List.filterMap_append, Family.total_nil, add_zero,
        ← Multiset.coe_add]
      rfl
  | loadIdle | loadMax => split <;> simp [queued, Thread.enqueuing, Thread.begins, Shared.assert]
  | _ => simp [queued, Thread.enqueuing, Thread.begins, Shared.assert]

end

theorem next_queued {c c' : Config Shared Thread} {l : Label Choice} (h : threadpool.next c l = some c') :
    submitted (c, l) + (queued c.shared + Family.total Thread.enqueuing c.threads) =
      begun (c, l) + (queued c'.shared + Family.total Thread.enqueuing c'.threads) := by
  cases l with
  | call e =>
    obtain ⟨s', new, hc, rfl⟩ := Program.next_call h
    cases e with
    | execute op priority =>
      cases hc
      cases op with
      | none => simp [submitted, begun, Thread.enqueuing]
      | some op =>
        simp only [submitted, begun, Family.total_append, Family.total_cons, Family.total_nil, Thread.enqueuing]
        abel
    | blocked | unblocked | destroy =>
      cases hc
      simp [submitted, begun, Thread.enqueuing]
    | _ => cases hc
  | act i e =>
    obtain ⟨t, s', t', new, ht, ha, rfl⟩ := Program.next_act h
    have hq := act_queued ha
    have htot := Family.total_step Thread.enqueuing ht t' new
    rw [begun_act ht ha]
    refine add_right_cancel (b := t.enqueuing) ?_
    simp only [submitted, zero_add]
    calc queued c.shared + Family.total Thread.enqueuing c.threads + t.enqueuing
        = (queued c.shared + t.enqueuing) + Family.total Thread.enqueuing c.threads := by abel
      _ = queued s' + t'.begins + (Family.total Thread.enqueuing c.threads + t'.enqueuing +
            Family.total Thread.enqueuing new) := by rw [hq]; abel
      _ = t'.begins + (queued s' + Family.total Thread.enqueuing (c.threads.set i t' ++ new)) + t.enqueuing := by
          rw [← htot]; abel

/-! ## Tokens -/

/-- A thread of a pool that is not cancelled, and was passed no null operation. -/
def Thread.fits : Thread → Bool
  | .worker (.search label) | .worker (.dequeue label) => label < bucketCount
  | .enqueue bucket op => bucket < bucketCount && op.isSome
  | .loadCount | .releaseAll _ => false
  | _ => true

structure Tokens (c : Config Shared Thread) : Prop where
  operations : c.shared.operations.length = c.shared.tokens + Family.total Thread.holds c.threads
  entries : ∀ p ∈ c.shared.operations, p.1 < bucketCount ∧ p.2.isSome = true
  fits : ∀ t ∈ c.threads, t.fits = true

section
variable {c : Config Shared Thread} {i : Nat} {w w' : Worker} {t t' : Thread} {s s' : Shared} {new : List Thread}
  {e : Choice}

theorem entry_some {k bucket : Nat} (hE : ∀ p ∈ s.operations, p.1 < bucketCount ∧ p.2.isSome = true)
    (hk : s.operations[k]? = some (bucket, none)) : False := by
  have := (hE _ (List.mem_of_getElem? hk)).2
  simp at this

theorem Moves.tokens_eq (h : Moves s w s' w') (hc : s.cancelled = false)
    (hE : ∀ p ∈ s.operations, p.1 < bucketCount ∧ p.2.isSome = true) :
    s'.operations.length + s.tokens + w.holds = s.operations.length + s'.tokens + w'.holds := by
  cases h with
  | take h h0 =>
    cases h <;>
    · simp only [Worker.holds]
      omega
  | miss h => cases h <;> rfl
  | asserts h =>
    rw [hc] at h
    cases h
  | null hk => exact (entry_some hE hk).elim
  | dequeue hk =>
    have hlt := (List.getElem?_eq_some_iff.mp hk).1
    simp only [Worker.holds, List.length_eraseIdx_of_lt hlt]
    omega
  | _ => rfl

theorem Moves.operations_subset (h : Moves s w s' w') {p : Nat × Option Nat} (hp : p ∈ s'.operations) :
    p ∈ s.operations := by
  cases h with
  | null | dequeue => exact List.mem_of_mem_eraseIdx hp
  | _ => exact hp

theorem Moves.fits (h : Moves s w s' w') (hw : (Thread.worker w).fits = true) : (Thread.worker w').fits = true := by
  have hb : ∀ label, nextBucket label < bucketCount ∨ ¬ label < bucketCount := by
    intro label
    unfold nextBucket bucketCount
    split <;> omega
  cases h with
  | missed | null =>
    simp only [Thread.fits, decide_eq_true_eq] at hw ⊢
    exact (hb _).resolve_right (not_not.mpr hw)
  | found => exact hw
  | take h | miss h => cases h <;> rfl
  | _ => rfl

theorem act_tokens (hI : Tokens c) (hc : c.shared.cancelled = false) (ht : c.threads[i]? = some t)
    (h : act c.shared t e = some (s', t', new)) (hc' : s'.cancelled = false) :
    Tokens ⟨s', c.threads.set i t' ++ new⟩ := by
  have hf := hI.fits _ (Family.mem_of_get ht)
  have hholds := total_step_eq Thread.holds ht t' new
  have hops := hI.operations
  have key : s'.operations.length + c.shared.tokens + t.holds =
        c.shared.operations.length + s'.tokens + t'.holds + Family.total Thread.holds new →
      (∀ p ∈ s'.operations, p.1 < bucketCount ∧ p.2.isSome = true) → t'.fits = true →
      (∀ x ∈ new, x.fits = true) → Tokens ⟨s', c.threads.set i t' ++ new⟩ := by
    intro hlen hE hf' hn
    refine ⟨?_, hE, Family.forall_step hI.fits hf' hn⟩
    simp only []
    omega
  cases act_step h with
  | worker hm =>
    exact key (hm.tokens_eq hc hI.entries) (fun p hp => hI.entries p (hm.operations_subset hp)) (hm.fits hf) (by simp)
  | enqueue =>
    simp only [Thread.fits, Bool.and_eq_true, decide_eq_true_eq] at hf
    refine key ?_ ?_ rfl (by simp)
    · simp only [Thread.holds, List.length_append, List.length_singleton, Family.total_nil]
      omega
    · intro p hp
      rcases List.mem_append.mp hp with hp | hp
      · exact hI.entries p hp
      · cases List.mem_singleton.mp hp
        exact hf
  | release =>
    refine key ?_ hI.entries rfl (by simp)
    simp only [Thread.holds, Family.total_nil]
    omega
  | loadIdle | loadMax =>
    refine key ?_ hI.entries ?_ (by simp)
    · split <;> rfl
    · split <;> rfl
  | spawn => exact key rfl hI.entries rfl (by simp [Thread.fits])
  | cancel => cases hc'
  | loadCount | releaseAll => cases hf
  | _ => exact key rfl hI.entries rfl (by simp)

theorem act_cancelled (h : act s t e = some (s', t', new)) (hc : s.cancelled = true) : s'.cancelled = true := by
  cases act_step h with
  | worker hm => exact hm.cancelled_eq.trans hc
  | cancel => rfl
  | _ => exact hc

end

def executesNull : Label Choice → Bool
  | .call (.execute none _) => true
  | _ => false

theorem next_tokens {c c' : Config Shared Thread} {l : Label Choice} (hI : c.shared.cancelled = false → Tokens c)
    (hl : executesNull l = false) (h : threadpool.next c l = some c') :
    c'.shared.cancelled = false → Tokens c' := by
  intro hc'
  cases l with
  | call e =>
    obtain ⟨s', new, hc, rfl⟩ := Program.next_call h
    have key : ∀ t : Thread, t.holds = 0 → t.fits = true → c.shared.cancelled = false →
        Tokens ⟨c.shared, c.threads ++ [t]⟩ := by
      intro t hh hf h0
      refine ⟨?_, (hI h0).entries, Family.forall_append (hI h0).fits (by simpa using hf)⟩
      simpa [hh] using (hI h0).operations
    cases e with
    | execute op priority =>
      cases hc
      cases op with
      | none => cases hl
      | some op => exact key _ rfl (by cases priority <;> rfl) hc'
    | blocked | unblocked | destroy =>
      cases hc
      exact key _ rfl rfl hc'
    | _ => cases hc
  | act i e =>
    obtain ⟨t, s', t', new, ht, ha, rfl⟩ := Program.next_act h
    have hc : c.shared.cancelled = false := by
      by_cases hc : c.shared.cancelled = true
      · have := act_cancelled ha hc
        rw [hc'] at this
        cases this
      · simpa using hc
    exact act_tokens (hI hc) hc ht ha hc'

/-! ## The search -/

/-- Steps of a worker that holds a token before it looks into bucket `b`. -/
def Worker.distance (b : Nat) : Worker → Nat
  | .woken | .recovered => 2 * bucketCount + 1
  | .search label => 2 * ((b + bucketCount - label) % bucketCount) + 1
  | .dequeue label => 2 * ((b + bucketCount - label) % bucketCount)
  | _ => 0

theorem distance_next {b label : Nat} (hb : b < bucketCount) (hl : label < bucketCount) (hne : b ≠ label) :
    (Worker.search (nextBucket label)).distance b < (Worker.dequeue label).distance b := by
  unfold Worker.distance nextBucket bucketCount at *
  simp only []
  split <;> omega

/-- A worker with a token, where entry `k` is operation `op` in bucket `b`. -/
def Searching (b k op i : Nat) (c : Config Shared Thread) : Prop :=
  c.shared.cancelled = false ∧ c.shared.operations[k]? = some (b, some op) ∧
    ∃ w, c.threads[i]? = some (.worker w) ∧ w.holds = 1 ∧ (Thread.worker w).fits = true

def Thread.distance (b : Nat) : Thread → Nat
  | .worker w => w.distance b
  | _ => 0

theorem searching_step {b k op i : Nat} (hb : b < bucketCount) (c : Config Shared Thread) (t : Thread)
    (h : Searching b k op i c) (ht : c.threads[i]? = some t) : t = .worker (.executing op) ∨
      ∃ e s' t' new, threadpool.act c.shared t e = some (s', t', new) ∧
        (t' = .worker (.executing op) ∨ t'.distance b < t.distance b ∧
          Searching b k op i ⟨s', c.threads.set i t' ++ new⟩) := by
  obtain ⟨hc, hk, w, ht', hh, hf⟩ := h
  cases ht'.symm.trans ht
  right
  have key : ∀ (s' : Shared) (w' : Worker), w.act c.shared .step = some (s', w') → w'.distance b < w.distance b →
      w'.holds = 1 → (Thread.worker w').fits = true → s'.cancelled = false →
      s'.operations = c.shared.operations → ∃ e s' t' new, threadpool.act c.shared (.worker w) e = some (s', t', new) ∧
        (t' = .worker (.executing op) ∨ t'.distance b < (Thread.worker w).distance b ∧
          Searching b k op i ⟨s', c.threads.set i t' ++ new⟩) := by
    intro s' w' ha hd hh' hf' hc' hops
    refine ⟨.step, s', .worker w', [], ?_, Or.inr ⟨hd, hc', by simpa only [hops] using hk, w', ?_, hh', hf'⟩⟩
    · simp [threadpool, act, ha]
    · exact Family.get_step ht (.worker w') []
  cases w with
  | woken | recovered =>
    refine key _ (.search 0) rfl ?_ rfl rfl hc rfl
    have := Nat.mod_lt (b + bucketCount - 0) (show 0 < bucketCount by decide)
    simp only [Worker.distance]
    omega
  | search label =>
    have ha : (Worker.search label).act c.shared .step = some (c.shared, .dequeue label) := by
      simp [Worker.act, hc]
    exact key _ _ ha (Nat.lt_succ_self _) rfl hf hc rfl
  | dequeue label =>
    by_cases hbl : b = label
    · subst hbl
      refine ⟨.dequeue k, { c.shared with operations := c.shared.operations.eraseIdx k }, .worker (.executing op), [],
        ?_, Or.inl rfl⟩
      simp [threadpool, act, Worker.act, hk]
    · have hf' := Moves.fits (.missed (s := c.shared)) hf
      exact key _ _ rfl (distance_next hb (by simpa [Thread.fits] using hf) hbl) rfl hf' hc rfl
  | _ => cases hh

theorem exists_dequeue {b k op i : Nat} {c : Config Shared Thread} (hb : b < bucketCount) (h : Searching b k op i c) :
    ∃ (es : List Choice) (c' : Config Shared Thread), threadpool.exec c (es.map (.act i)) = some c' ∧
      c'.threads[i]? = some (.worker (.executing op)) := by
  obtain ⟨-, -, w, ht, -⟩ := id h
  obtain ⟨es, c', t', hex, ht', rfl⟩ := Program.exists_steps (fun _ t => t = .worker (.executing op))
    (fun _ t => t.distance b) (searching_step hb) _ c _ (Nat.lt_succ_self _) h ht
  exact ⟨es, c', hex, ht'⟩

/-- What holds of a pool that is not cancelled after the steps `tr`. -/
structure Accounted (tr : List (Config Shared Thread × Label Choice)) (c : Config Shared Thread) : Prop where
  tokens : c.shared.operations.length = c.shared.tokens + Family.total Thread.holds c.threads
  finds : ∀ (i : Nat) (w : Worker), c.threads[i]? = some (.worker w) → w.holds = 1 →
    ∃ (es : List Choice) (c' : Config Shared Thread) (op : Nat), threadpool.exec c (es.map (.act i)) = some c' ∧
      c'.threads[i]? = some (.worker (.executing op))
  asserts : ∀ (i : Nat) (w : Worker) (e : Choice) (c' : Config Shared Thread), c.threads[i]? = some (.worker w) →
    threadpool.next c (.act i e) = some c' → c'.shared.asserted = c.shared.asserted
  operations : Family.total submitted tr =
    Family.total begun tr + (queued c.shared + Family.total Thread.enqueuing c.threads)

theorem run_operations {maxThreads : Int} {tr : List (Config Shared Thread × Label Choice)}
    {c : Config Shared Thread} (h : threadpool.Run (initial maxThreads) tr c) : Family.total submitted tr =
      Family.total begun tr + (queued c.shared + Family.total Thread.enqueuing c.threads) := by
  induction h with
  | nil => rfl
  | snoc _ hn ih =>
    simp only [Family.total_append, Family.total_cons, Family.total_nil, add_zero]
    rw [ih, add_right_comm, add_assoc, add_assoc, next_queued hn]

/-- **Tokens and operations** agree in every state in which the pool is not
cancelled, if no null operation was passed. -/
theorem run_accounted {maxThreads : Int} {tr : List (Config Shared Thread × Label Choice)}
    {c : Config Shared Thread} (h : threadpool.Run (initial maxThreads) tr c)
    (hN : Program.Along (fun _ l => executesNull l = false) tr) (hc : c.shared.cancelled = false) :
    Accounted tr c := by
  have hI : c.shared.cancelled = false → Tokens c := by
    refine h.invariant (I := fun c => c.shared.cancelled = false → Tokens c) ?_ ?_ hN
    · intro _
      exact ⟨rfl, by simp [initial], by simp [initial]⟩
    · intro c l c' hI hl hn
      exact next_tokens hI hl hn
  have hT := hI hc
  refine ⟨hT.operations, ?_, ?_, run_operations h⟩
  · intro i w ht hh
    have hm := Family.mem_of_get ht
    have hpos : 0 < c.shared.operations.length := by
      have := Family.le_total Thread.holds hm
      have := hT.operations
      simp only [Thread.holds] at *
      omega
    obtain ⟨⟨b, op⟩, hk⟩ : ∃ p, c.shared.operations[0]? = some p := ⟨_, List.getElem?_eq_getElem hpos⟩
    obtain ⟨hb, hop⟩ := hT.entries _ (List.mem_of_getElem? hk)
    obtain ⟨op, rfl⟩ := Option.isSome_iff_exists.mp hop
    obtain ⟨es, c', hex, hget⟩ := exists_dequeue hb ⟨hc, hk, w, ht, hh, hT.fits _ hm⟩
    exact ⟨es, c', op, hex, hget⟩
  · intro i w e c' ht hn
    obtain ⟨t, s', t', new, ht', ha, rfl⟩ := Program.next_act hn
    cases ht.symm.trans ht'
    obtain ⟨w', hw, rfl, rfl⟩ := act_of_worker ha
    exact (moves_of_act hw).asserted_eq hc

theorem run_accounted_burst : Accounted (threadpool.path (initial 2) burst) (threadpool.last (initial 2) burst) ∧
    (threadpool.last (initial 2) burst).shared.tokens = 1 :=
  ⟨run_accounted (Program.run_last (l := burst) (by decide)) (by decide) (by decide), by decide⟩

end Xdispatch.Threadpool
