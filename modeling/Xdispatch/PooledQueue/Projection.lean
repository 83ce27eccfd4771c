import Xdispatch.PooledQueue.Model
import Xdispatch.OperationQueue.Serial
import Xdispatch.Threadpool.Places

/-!
# Drains in the pool

Seen from the pool, a run of the system is a run of the pool, and seen from one of the
queues it is a run of that queue. What ties the two together: an operation that
the pool has been passed is in one place there until a worker is done with it,
and a thread of a queue that is somewhere in `drain` is an operation of the pool.
-/

namespace Xdispatch.PooledQueue

open Threadpool (Priority threadpool executesNull places places_act places_execute places_call)
open OperationQueue (operationQueue keepsDraining InOrder)

/-! ## Threads of a queue -/

section
open OperationQueue

def inDrain : Thread → Bool
  | .lock p | .holding p =>
    match p with
    | .drainBegin | .drainSwap _ | .drainUnlock .. | .drainPop _ | .drainYield | .unwindPop _ | .unwindFree
    | .drainEnd => true
    | _ => false
  | .drainProcess .. | .drainRunning .. | .deadlocked => true
  | .returned => false

variable {s s' : Shared} {t t' : Thread} {e : OperationQueue.Choice} {new : List Thread}

theorem inDrain_drainLoop (jobs : List (Option Job)) (r : Nat) : inDrain (.holding (drainLoop jobs r)) = true := by
  unfold drainLoop
  split
  · rfl
  · split <;> rfl

/-- A thread that is in `drain` has been there from its first step on, and it is what is passed to the
pool. -/
theorem step_inDrain (h : OperationQueue.Step s t e s' t' new) :
    (inDrain t' = true → inDrain t = true) ∧ (new = [] ∨ new = [.lock .drainBegin]) := by
  have hnotify : s.notifyUnsafe = [] ∨ s.notifyUnsafe = [.lock .drainBegin] := by
    unfold Shared.notifyUnsafe
    split
    · exact Or.inr rfl
    · exact Or.inl rfl
  cases h with
  | lock => exact ⟨fun h => h, Or.inl rfl⟩
  | start | skip | finish | throw | deadlock => exact ⟨fun _ => rfl, Or.inl rfl⟩
  | @holding p =>
    cases p with
    | asyncPush | detachPush =>
      refine ⟨fun h => ?_, Or.inl rfl⟩
      simp only [Critical.act] at h
      split at h <;> cases h
    | detachEmpty =>
      simp only [Critical.act]
      split <;> exact ⟨fun h => (by cases h), Or.inl rfl⟩
    | asyncNotify | detachNotify => exact ⟨fun h => (by cases h), hnotify⟩
    | drainYield => exact ⟨fun _ => rfl, hnotify⟩
    | attachManager | attachSet | detachReset | unlock => exact ⟨fun h => (by cases h), Or.inl rfl⟩
    | _ => exact ⟨fun _ => rfl, Or.inl rfl⟩

/-- A thread that starts another one goes on with `m_CS`. -/
theorem step_holding (h : OperationQueue.Step s t e s' t' new) (hn : new ≠ []) : ∃ p, t' = .holding p := by
  cases h with
  | @holding p =>
    cases p with
    | detachEmpty =>
      simp only [Critical.act] at hn
      split at hn <;> exact absurd rfl hn
    | asyncNotify | detachNotify | drainYield => exact ⟨_, rfl⟩
    | _ => exact absurd rfl hn
  | _ => exact absurd rfl hn

theorem inDrain_of_outstanding (h : t.outstanding ≠ 0) : inDrain t = true := by
  cases t with
  | lock p => cases p <;> first | rfl | exact absurd rfl h
  | holding | deadlocked | returned => exact absurd rfl h
  | _ => rfl

theorem call_inDrain (h : OperationQueue.call s e = some (s', new)) : ∀ u ∈ new, inDrain u = false := by
  cases e with
  | async | attach | detach =>
    cases h
    simp [inDrain]
  | _ => cases h

end

/-- What a step of thread `i` of queue `q` is. -/
theorem stepQueue_cases {s s' : System} {p : Priority} {q i : Nat} {e : OperationQueue.Choice}
    (h : s.stepQueue p q (.act i e) = some s') :
    e ≠ .throw ∧ s.inExecute q i = false ∧ s.waits q i = false ∧ ∃ t u t' new,
      (s.queues q).threads[i]? = some t ∧ OperationQueue.act (s.queues q).shared t e = some (u, t', new) ∧
      (new = [] ∧ s' = s.setQueue q ⟨u, (s.queues q).threads.set i t' ++ new⟩ ∨
        new = [.lock .drainBegin] ∧ (∃ c, t' = .holding c) ∧ ∃ s₁,
          (s.setQueue q ⟨u, (s.queues q).threads.set i t' ++ new⟩).submit (.drain q (s.queues q).threads.length) p =
            some s₁ ∧ s' = { s₁ with calls := s₁.calls ++ [(q, i, s.pool.threads.length)] }) := by
  simp only [System.stepQueue] at h
  split at h
  · cases h
  next hcond =>
  simp only [Bool.or_eq_true, decide_eq_true_eq, not_or, Bool.not_eq_true] at hcond
  obtain ⟨⟨he, hx⟩, hw⟩ := hcond
  obtain ⟨c, hn, h⟩ := Option.bind_eq_some_iff.mp h
  obtain ⟨t, u, t', new, ht, ha, rfl⟩ := Program.next_act hn
  have hstep := OperationQueue.act_step ha
  refine ⟨he, hx, hw, t, u, t', new, ht, ha, ?_⟩
  rcases (step_inDrain hstep).2 with rfl | rfl
  · rw [if_pos (by simp)] at h
    exact Or.inl ⟨rfl, (Option.some.inj h).symm⟩
  · rw [if_neg (by simp), Option.map_eq_some_iff] at h
    obtain ⟨s₁, hs, rfl⟩ := h
    exact Or.inr ⟨rfl, step_holding hstep (by simp), s₁, hs, rfl⟩

/-! ## The invariant -/

/-- No job is pushed on a queue that is not attached. -/
def pushesAttached (c : Config System Unit) : Label Choice → Bool
  | .call (.queue q l) => keepsDraining (c.shared.queues q) l
  | _ => true

structure Inv (maxThreads : Int) (s : System) : Prop where
  pool : ∃ tr, threadpool.Run (Threadpool.initial maxThreads) tr s.pool ∧
    Program.Along (fun _ l => executesNull l = false) tr
  queues : ∀ q, ∃ tr, operationQueue.Run OperationQueue.initial tr (s.queues q) ∧
    Program.Along (fun c l => keepsDraining c l = true) tr
  once : (places s.pool).Nodup
  known : ∀ n ∈ places s.pool, n < s.works.length
  drains : ∀ (q d : Nat) (t : OperationQueue.Thread), (s.queues q).threads[d]? = some t → inDrain t = true →
    Work.drain q d ∈ s.works
  served : ∀ n q d, s.works[n]? = some (.drain q d) → n ∈ places s.pool ∨ (s.queues q).threads[d]? = some .returned

section
variable {maxThreads : Int} {s s' : System} {p : Priority} {q : Nat}

/-- A step of the pool after which it has the operations it had, except those that have returned. -/
theorem Inv.pool_step (hI : Inv maxThreads s) {l : Label Threadpool.Choice}
    {pool : Config Threadpool.Shared Threadpool.Thread}
    (hn : threadpool.next s.pool l = some pool) (hl : executesNull l = false) (hle : places pool ≤ places s.pool)
    (hserved : ∀ n q d, s.works[n]? = some (.drain q d) → n ∈ places s.pool → n ∈ places pool ∨
      (s.queues q).threads[d]? = some .returned) : Inv maxThreads { s with pool := pool } where
  pool := by
    obtain ⟨tr, hr, hC⟩ := hI.pool
    exact ⟨_, hr.snoc hn, Program.along_snoc.mpr ⟨hC, hl⟩⟩
  queues := hI.queues
  once := Multiset.nodup_of_le hle hI.once
  known n hm := hI.known n (Multiset.mem_of_le hle hm)
  drains := hI.drains
  served n q d hw := (hI.served n q d hw).elim (hserved n q d hw) Or.inr

theorem Inv.stepPool (hI : Inv maxThreads s) {l : Label Threadpool.Choice} (h : s.stepPool l = some s') :
    Inv maxThreads s' := by
  cases l with
  | call e =>
    have key : (∀ op priority, e ≠ .execute op priority) → (threadpool.next s.pool (.call e)).map
        (fun pool => { s with pool := pool }) = some s' → Inv maxThreads s' := by
      intro he h
      simp only [Option.map_eq_some_iff] at h
      obtain ⟨pool, hn, rfl⟩ := h
      have hp := places_call hn he
      refine hI.pool_step hn ?_ (le_of_eq hp) fun n q d _ hm => Or.inl (hp ▸ hm)
      cases e with
      | execute op priority => exact absurd rfl (he op priority)
      | _ => rfl
    cases e with
    | execute => cases h
    | _ => exact key (by simp) h
  | act k e =>
    simp only [System.stepPool] at h
    split at h
    · next hgo =>
      simp only [Option.map_eq_some_iff] at h
      obtain ⟨pool, hn, rfl⟩ := h
      obtain ⟨t, u, t', new, ht, ha, rfl⟩ := Program.next_act hn
      have hp := places_act ht ha
      refine hI.pool_step hn rfl (hp ▸ Multiset.le_add_right _ _) fun n q d hw hm => ?_
      rw [← hp, Multiset.mem_add] at hm
      refine hm.imp_right fun hb => ?_
      -- the worker was in the operation, and its drain has returned
      unfold System.goesOn at hgo
      rw [ht] at hgo
      cases t with
      | worker w =>
        cases w with
        | executing op =>
          cases Multiset.mem_singleton.mp hb
          simpa [hw] using hgo
        | _ => cases hb
      | _ => cases hb
    · cases h

theorem Inv.submit (hI : Inv maxThreads s) {pool : Config Threadpool.Shared Threadpool.Thread} (work : Work)
    (hn : threadpool.next s.pool (.call (.execute (some s.works.length) p)) = some pool) :
    Inv maxThreads { s with pool := pool, works := s.works ++ [work] } := by
  have hp := places_execute hn
  refine ⟨?_, hI.queues, ?_, fun n hm => ?_, fun q d t hd ht => List.mem_append_left _ (hI.drains q d t hd ht),
    fun n q d hw => ?_⟩
  · obtain ⟨tr, hr, hC⟩ := hI.pool
    exact ⟨_, hr.snoc hn, Program.along_snoc.mpr ⟨hC, rfl⟩⟩
  · simp only [hp]
    refine Multiset.nodup_add.mpr ⟨hI.once, Multiset.nodup_singleton _, ?_⟩
    rw [Multiset.disjoint_singleton]
    intro hm
    exact Nat.lt_irrefl _ (hI.known _ hm)
  · simp only [hp, Multiset.mem_add, Multiset.mem_singleton] at hm
    simp only [List.length_append, List.length_singleton]
    rcases hm with hm | rfl
    · have := hI.known n hm
      omega
    · omega
  · simp only [hp, Multiset.mem_add, Multiset.mem_singleton]
    rw [List.getElem?_append] at hw
    split at hw
    · exact (hI.served n q d hw).imp_left Or.inl
    · rw [List.getElem?_singleton] at hw
      have := (Option.ite_none_right_eq_some.mp hw).1
      exact Or.inl (Or.inr (by omega))

theorem Inv.setQueue (hI : Inv maxThreads s) {l : Label OperationQueue.Choice}
    {c : Config OperationQueue.Shared OperationQueue.Thread} (hn : operationQueue.next (s.queues q) l = some c)
    (hk : keepsDraining (s.queues q) l = true)
    (hdrains : ∀ (d : Nat) t, c.threads[d]? = some t → inDrain t = true → Work.drain q d ∈ s.works)
    (hreturned : ∀ d : Nat, (s.queues q).threads[d]? = some OperationQueue.Thread.returned →
      c.threads[d]? = some OperationQueue.Thread.returned) :
    Inv maxThreads (s.setQueue q c) := by
  refine ⟨hI.pool, fun r => ?_, hI.once, hI.known, fun r d t hd ht => ?_, fun n r d hw => ?_⟩
  · by_cases hr : r = q
    · subst hr
      obtain ⟨tr, hrun, hC⟩ := hI.queues r
      simp only [System.setQueue, Function.update_self]
      exact ⟨_, hrun.snoc hn, Program.along_snoc.mpr ⟨hC, hk⟩⟩
    · simp only [System.setQueue, Function.update_of_ne hr]
      exact hI.queues r
  · by_cases hr : r = q
    · subst hr
      simp only [System.setQueue, Function.update_self] at hd
      exact hdrains d t hd ht
    · simp only [System.setQueue, Function.update_of_ne hr] at hd
      exact hI.drains r d t hd ht
  · refine (hI.served n r d hw).imp_right fun hret => ?_
    by_cases hr : r = q
    · subst hr
      simp only [System.setQueue, Function.update_self]
      exact hreturned d hret
    · simp only [System.setQueue, Function.update_of_ne hr]
      exact hret

theorem Inv.stepQueue (hI : Inv maxThreads s) {l : Label OperationQueue.Choice} (hk : keepsDraining (s.queues q) l = true)
    (h : s.stepQueue p q l = some s') : Inv maxThreads s' := by
  cases l with
  | call e =>
    simp only [System.stepQueue, Option.map_eq_some_iff] at h
    obtain ⟨c, hn, rfl⟩ := h
    obtain ⟨u, new, hc, rfl⟩ := Program.next_call hn
    have hnew := call_inDrain hc
    refine hI.setQueue hn hk (fun d t hd ht => ?_) fun d hd => Family.get_append hd new
    rcases Nat.lt_or_ge d (s.queues q).threads.length with hlt | hge
    · rw [List.getElem?_append_left hlt] at hd
      exact hI.drains q d t hd ht
    · rw [List.getElem?_append_right hge] at hd
      rw [hnew t (List.mem_of_getElem? hd)] at ht
      cases ht
  | act i e =>
    obtain ⟨-, -, -, t, u, t', new, hi, ha, hcase⟩ := stepQueue_cases h
    have hstep := OperationQueue.act_step ha
    have hn := Program.act_next (P := operationQueue) hi ha
    have hreturned : ∀ d : Nat, (s.queues q).threads[d]? = some OperationQueue.Thread.returned →
        ((s.queues q).threads.set i t' ++ new)[d]? = some OperationQueue.Thread.returned := by
      intro d hd
      by_cases hdi : i = d
      · subst hdi
        cases hi.symm.trans hd
        cases hstep
      · exact Family.get_step_of_ne hd hdi _ _
    have hold : ∀ (d : Nat) t₁, d < (s.queues q).threads.length → ((s.queues q).threads.set i t' ++ new)[d]? = some t₁ →
        inDrain t₁ = true → Work.drain q d ∈ s.works := by
      intro d t₁ hlt hd ht₁
      rcases Family.get_cases hd with ⟨rfl, rfl⟩ | ⟨_, hd⟩ | ⟨k, hk, _⟩
      · exact hI.drains q d t hi ((step_inDrain hstep).1 ht₁)
      · exact hI.drains q d t₁ hd ht₁
      · omega
    have hlen : ∀ (d : Nat) t₁, ((s.queues q).threads.set i t' ++ new)[d]? = some t₁ →
        d < (s.queues q).threads.length + new.length := by
      intro d t₁ hd
      have := (List.getElem?_eq_some_iff.mp hd).1
      simpa using this
    rcases hcase with ⟨rfl, rfl⟩ | ⟨rfl, -, s₁, hs, rfl⟩
    · exact hI.setQueue hn hk (fun d t₁ hd ht₁ => hold d t₁ (hlen d t₁ hd) hd ht₁) hreturned
    · simp only [System.submit, Option.map_eq_some_iff] at hs
      obtain ⟨pool, hp, rfl⟩ := hs
      have hI' := hI.submit (.drain q (s.queues q).threads.length) hp
      have := hI'.setQueue hn hk (fun d t₁ hd ht₁ => ?_) hreturned
      · exact ⟨this.pool, this.queues, this.once, this.known, this.drains, this.served⟩
      · have hd' := hlen d t₁ hd
        rcases Nat.lt_or_ge d (s.queues q).threads.length with hlt | hge
        · exact List.mem_append_left _ (hold d t₁ hlt hd ht₁)
        · simp only [List.length_singleton] at hd'
          have : d = (s.queues q).threads.length := by omega
          rw [this]
          exact List.mem_append_right _ (List.mem_singleton_self _)

theorem initial_inv : Inv maxThreads (initial maxThreads).shared where
  pool := ⟨[], .nil, by simp [Program.Along]⟩
  queues _ := ⟨[], .nil, by simp [Program.Along]⟩
  once := by simp [initial, places, Threadpool.initial, Threadpool.queued]
  known := by simp [initial, places, Threadpool.initial, Threadpool.queued]
  drains := by simp [initial, OperationQueue.initial]
  served := by simp [initial]

theorem run_inv {priority : Nat → Priority} {tr : List (Config System Unit × Label Choice)} {c : Config System Unit}
    (h : (system priority).Run (initial maxThreads) tr c) (hC : Program.Along (fun c l => pushesAttached c l = true) tr) :
    Inv maxThreads c.shared := by
  refine h.invariant_by (C := fun c l => pushesAttached c l = true) (I := fun c => Inv maxThreads c.shared) initial_inv
    ?_ ?_ hC
  · intro c e s' new hI hk hc
    simp only [system, Option.map_eq_some_iff, Prod.mk.injEq] at hc
    obtain ⟨s₁, hs, rfl, -⟩ := hc
    cases e with
    | pool l => exact hI.stepPool hs
    | queue q l => exact hI.stepQueue hk hs
    | execute p =>
      simp only [System.step, System.submit, Option.map_eq_some_iff] at hs
      obtain ⟨pool, hp, rfl⟩ := hs
      exact hI.submit .other hp
  · intro c i e t s' t' new _ _ _ ha
    cases ha

end

end Xdispatch.PooledQueue
