import Xdispatch.PooledQueue.Calls

/-!
# Queues on a pool are served

A queue gives its drains to the pool and forgets them, and the pool knows nothing
of queues. Together they do not lose a job: while there are jobs in the list of a
queue, the pool has one operation for it that no worker is done with, and when the
pool has come to rest, every queue has started what was appended to it, in order.
-/

namespace Xdispatch.PooledQueue

open Threadpool (threadpool places)
open OperationQueue (operationQueue InOrder)

/-! ## The pool at rest -/

/-- Waits for a token or has come to its end. -/
def resting : Threadpool.Thread → Bool
  | .returned | .worker .waiting | .worker .exited => true
  | _ => false

/-- No thread of the pool has anything to do. -/
def atRest (c : Config Threadpool.Shared Threadpool.Thread) : Bool :=
  c.shared.tokens = 0 && !c.shared.cancelled && c.threads.all resting

theorem places_atRest {maxThreads : Int}
    {tr : List (Config Threadpool.Shared Threadpool.Thread × Label Threadpool.Choice)}
    {c : Config Threadpool.Shared Threadpool.Thread} (h : threadpool.Run (Threadpool.initial maxThreads) tr c)
    (hN : Program.Along (fun _ l => Threadpool.executesNull l = false) tr) (hc : atRest c = true) : places c = 0 := by
  simp only [atRest, Bool.and_eq_true, decide_eq_true_eq, Bool.not_eq_true', List.all_eq_true] at hc
  obtain ⟨⟨ht, hcancelled⟩, hall⟩ := hc
  have hT := (Threadpool.run_accounted h hN hcancelled).tokens
  have hzero : ∀ {M : Type} [AddCommMonoid M] (f : Threadpool.Thread → M), (∀ t, resting t = true → f t = 0) →
      Family.total f c.threads = 0 := by
    intro M _ f hf
    refine List.sum_eq_zero fun y hy => ?_
    obtain ⟨t, hm, rfl⟩ := List.mem_map.mp hy
    exact hf t (hall t hm)
  have hholds : Family.total Threadpool.Thread.holds c.threads = 0 := by
    refine hzero _ fun t ht => ?_
    cases t with
    | worker w => cases w <;> first | rfl | cases ht
    | returned => rfl
    | _ => cases ht
  have hops : c.shared.operations = [] := by
    apply List.length_eq_zero_iff.mp
    rw [hT, ht, hholds]
  have hq : Threadpool.queued c.shared = 0 := by
    unfold Threadpool.queued
    rw [hops]
    rfl
  have he : Family.total Threadpool.Thread.enqueuing c.threads = 0 := by
    refine hzero _ fun t ht => ?_
    cases t with
    | enqueue => cases ht
    | _ => rfl
  have hb : Family.total Threadpool.Thread.begins c.threads = 0 := by
    refine hzero _ fun t ht => ?_
    cases t with
    | worker w => cases w <;> first | rfl | cases ht
    | _ => rfl
  unfold places
  rw [hq, he, hb]
  rfl

/-! ## Served -/

/-- Operation `n` of the pool is the one drain of queue `q` that has yet to go through its jobs. -/
structure Drains (s : System) (q n : Nat) : Prop where
  placed : n ∈ places s.pool
  outstanding : ∃ d t, s.works[n]? = some (.drain q d) ∧ (s.queues q).threads[d]? = some t ∧ t.outstanding = 1
  one : ∀ (m d : Nat) t, s.works[m]? = some (.drain q d) → (s.queues q).threads[d]? = some t → t.outstanding ≠ 0 → m = n

/-- What holds of queue `q`. -/
structure Served (s : System) (q : Nat) : Prop where
  order : InOrder (s.queues q)
  drained : (s.queues q).shared.locked = false → (s.queues q).shared.jobs ≠ [] → ∃ n, Drains s q n
  done : (s.queues q).shared.locked = false →
    (∀ n d, s.works[n]? = some (.drain q d) → n ∉ places s.pool) → (s.queues q).shared.jobs = [] ∧
      (s.queues q).shared.started = (s.queues q).shared.appended
  rest : atRest s.pool = true → (s.queues q).shared.locked = false → (s.queues q).shared.jobs = [] ∧
    (s.queues q).shared.started = (s.queues q).shared.appended

section
variable {maxThreads : Int} {s : System} {q : Nat}

theorem Inv.drained (hI : Inv maxThreads s) (hU : Calling s) (hl : (s.queues q).shared.locked = false)
    (hj : (s.queues q).shared.jobs ≠ []) : ∃ n, Drains s q n := by
  obtain ⟨tr, hr, hC⟩ := hI.queues q
  have hone := OperationQueue.run_woken hr hC hl
  rw [if_neg hj] at hone
  obtain ⟨t, hm, ht⟩ : ∃ t ∈ (s.queues q).threads, t.outstanding ≠ 0 := by
    by_contra hall
    push Not at hall
    have := (Family.total_eq_zero (f := OperationQueue.Thread.outstanding)).mpr hall
    omega
  obtain ⟨d, hd⟩ := List.mem_iff_getElem?.mp hm
  obtain ⟨n, hn⟩ := List.mem_iff_getElem?.mp (hI.drains q d t hd (inDrain_of_outstanding ht))
  have hle := Family.le_total OperationQueue.Thread.outstanding hm
  refine ⟨n, (hI.served n q d hn).resolve_right fun hret => ?_, ⟨d, t, hn, hd, by omega⟩, fun m d' t' hm hd' ht' => ?_⟩
  · cases hd.symm.trans hret
    exact ht rfl
  · by_cases hne : d' = d
    · subst hne
      exact hU.unique m n q d' hm hn
    · have := Family.le_total_of_ne OperationQueue.Thread.outstanding hd' hd hne
      omega

theorem started_eq {c : Config OperationQueue.Shared OperationQueue.Thread} (hO : InOrder c)
    (hW : OperationQueue.WakeInv c) (hj : c.shared.jobs = []) : c.shared.started = c.shared.appended := by
  obtain ⟨waiting, happ, hw⟩ := hO.kept
  have hd := hW.drains
  unfold OperationQueue.Shared.busy at hd
  rw [hj, List.length_nil, Nat.zero_min, Family.total_eq_zero] at hd
  have ht : Family.total (fun t => (t.taken : Multiset OperationQueue.Job)) c.threads = 0 := by
    refine List.sum_eq_zero fun y hy => ?_
    obtain ⟨t, hm, rfl⟩ := List.mem_map.mp hy
    simp only [OperationQueue.taken_eq_nil (hd t hm), Multiset.coe_nil]
  rw [ht, hj, zero_add, List.filterMap_nil, Multiset.coe_nil, Multiset.coe_eq_zero] at hw
  rw [happ, hw, List.append_nil]

theorem Inv.done (hI : Inv maxThreads s) (hU : Calling s) (hl : (s.queues q).shared.locked = false)
    (hnone : ∀ n d, s.works[n]? = some (.drain q d) → n ∉ places s.pool) : (s.queues q).shared.jobs = [] ∧
      (s.queues q).shared.started = (s.queues q).shared.appended := by
  obtain ⟨tr, hr, hC⟩ := hI.queues q
  have hj : (s.queues q).shared.jobs = [] := by
    by_contra hj
    obtain ⟨n, hD⟩ := hI.drained hU hl hj
    obtain ⟨d, t, hn, -⟩ := hD.outstanding
    exact hnone n d hn hD.placed
  exact ⟨hj, started_eq (OperationQueue.run_inOrder hr) (OperationQueue.run_wakeInv hr hC) hj⟩

end

/-- **Queues on a pool are served**, in every run of the system. -/
theorem run_served {maxThreads : Int} {priority : Nat → Threadpool.Priority}
    {tr : List (Config System Unit × Label Choice)} {c : Config System Unit}
    (h : (system priority).Run (initial maxThreads) tr c) (hC : Program.Along (fun c l => pushesAttached c l = true) tr)
    (q : Nat) : Served c.shared q := by
  have hI := run_inv h hC
  have hU := run_calling h
  obtain ⟨tr', hr, -⟩ := hI.queues q
  refine ⟨OperationQueue.run_inOrder hr, hI.drained hU, hI.done hU, fun hrest hl => hI.done hU hl fun n d _ hn => ?_⟩
  obtain ⟨tr₁, hr₁, hN⟩ := hI.pool
  rw [places_atRest hr₁ hN hrest] at hn
  exact Multiset.notMem_zero n hn

/-- An operation is passed to queue 0, and a worker is in the drain that runs it. -/
def draining : List (Label Choice) :=
  .call (.queue 0 (.call .attach)) :: List.replicate 4 (.call (.queue 0 (.act 0 .step))) ++
    .call (.queue 0 (.call (.async (some 7)))) :: List.replicate 3 (.call (.queue 0 (.act 1 .step))) ++
    List.replicate 7 (.call (.pool (.act 0 .step))) ++ .call (.queue 0 (.act 1 .step)) ::
    List.replicate 7 (.call (.pool (.act 1 .step))) ++ .call (.pool (.act 1 (.dequeue 0))) ::
    List.replicate 5 (.call (.queue 0 (.act 2 .step)))

def twoThreads : Program System Unit Choice := system fun _ => .default

theorem run_served_draining : Served (twoThreads.last (initial 2) draining).shared 0 ∧
    ((twoThreads.last (initial 2) draining).shared.queues 0).shared.jobs = [none] ∧
    ((twoThreads.last (initial 2) draining).shared.queues 0).shared.started = [.operation 7] :=
  ⟨run_served (Program.run_last (P := system fun _ => .default) (l := draining) (by decide)) (by decide) 0, by decide,
    by decide⟩

end Xdispatch.PooledQueue
