import Xdispatch.PooledQueue.Projection

/-!
# Who waits for whom

A thread of a queue that is in a call of `execute` holds `m_CS` there, and a drain
that has begun is executed by a worker until it has returned. So a thread of a queue
waits for a thread of the pool only while it holds `m_CS`, and then for one that
waits for nothing.
-/

namespace Xdispatch.PooledQueue

open Threadpool (Priority threadpool left left_step act_returned)
open OperationQueue (operationQueue)

/-! ## Drains -/

/-- In `drain`, or past its end. -/
def ofDrain : OperationQueue.Thread → Bool
  | .holding .unlock | .returned => true
  | t => inDrain t

section
open OperationQueue
variable {s s' : Shared} {t t' : Thread} {e : OperationQueue.Choice} {new : List Thread}

theorem ofDrain_of_inDrain (h : inDrain t = true) : ofDrain t = true := by
  unfold ofDrain
  split <;> first | rfl | exact h

theorem ofDrain_step (h : OperationQueue.Step s t e s' t' new) (ht : ofDrain t = true) : ofDrain t' = true := by
  cases h with
  | @lock p =>
    cases p <;> first | rfl | exact ht
  | start | skip | finish | throw | deadlock => rfl
  | @holding p =>
    cases p with
    | drainBegin | drainPop => exact ofDrain_of_inDrain (inDrain_drainLoop _ _)
    | asyncPush | asyncNotify | attachManager | attachSet | detachEmpty | detachPush | detachNotify | detachReset =>
      cases ht
    | _ => rfl

/-- A queue of which no job has thrown. -/
structure Smooth (c : Config Shared Thread) : Prop where
  inv : OperationQueue.Inv c
  unwinds : ∀ t ∈ c.threads, t.unwinds = false

theorem Smooth.call {c : Config Shared Thread} (hS : Smooth c) (h : OperationQueue.call c.shared e = some (s', new)) :
    Smooth ⟨s', c.threads ++ new⟩ := by
  refine ⟨call_inv hS.inv h, Family.forall_append hS.unwinds ?_⟩
  cases e with
  | async | attach | detach =>
    cases h
    simp [Thread.unwinds, Critical.unwinds]
  | _ => cases h

theorem Smooth.act {c : Config Shared Thread} (hS : Smooth c) {i : Nat} (ht : c.threads[i]? = some t)
    (ha : OperationQueue.act c.shared t e = some (s', t', new)) (he : e ≠ .throw) :
    Smooth ⟨s', c.threads.set i t' ++ new⟩ := by
  obtain ⟨hu, hnew⟩ := step_unwinds (act_step ha) he (hS.unwinds t (Family.mem_of_get ht))
  exact ⟨act_inv hS.inv ht ha, Family.forall_step hS.unwinds hu hnew⟩

end

/-! ## The invariant -/

structure Calling (s : System) : Prop where
  queues : ∀ q, Smooth (s.queues q)
  calls : ∀ q i k, (q, i, k) ∈ s.calls → ∃ t, s.pool.threads[k]? = some t ∧
    (t = .returned ∨ left t ≠ 0 ∧ ∃ p, (s.queues q).threads[i]? = some (.holding p))
  drains : ∀ (n q d : Nat), s.works[n]? = some (.drain q d) → ∃ t, (s.queues q).threads[d]? = some t ∧ ofDrain t = true ∧
    (t = .lock .drainBegin ∨ t = .returned ∨ s.executing n = true)
  unique : ∀ (n m q d : Nat), s.works[n]? = some (.drain q d) → s.works[m]? = some (.drain q d) → n = m

section
variable {s s' : System} {p : Priority} {q i : Nat}

theorem inExecute_eq_false : s.inExecute q i = false ↔
    ∀ k, (q, i, k) ∈ s.calls → s.pool.threads[k]? = some .returned := by
  simp only [System.inExecute, List.any_eq_false, Bool.and_eq_true, decide_eq_true_eq, not_and, not_not, Prod.forall]
  constructor
  · intro h k hk
    exact h q i k hk ⟨rfl, rfl⟩
  · rintro h _ _ k hk ⟨rfl, rfl⟩
    exact h k hk

theorem waits_eq_false : s.waits q i = false ↔ ∀ n : Nat, s.works[n]? = some (.drain q i) → s.executing n = true := by
  simp only [System.waits, List.any_eq_false, List.mem_range, Bool.and_eq_true, decide_eq_true_eq, Bool.not_eq_true',
    not_and, Bool.not_eq_false]
  exact ⟨fun h n hn => h n (List.getElem?_eq_some_iff.mp hn).1 hn, fun h n _ hn => h n hn⟩

theorem executing_iff {n : Nat} : s.executing n = true ↔
    Threadpool.Thread.worker (.executing n) ∈ s.pool.threads := decide_eq_true_iff

/-- The pool takes a step of which the calls and the drains take no notice. -/
theorem Calling.pool_step (hI : Calling s) {pool : Config Threadpool.Shared Threadpool.Thread}
    (hcalls : ∀ (k : Nat) t, s.pool.threads[k]? = some t → t = .returned ∨ left t ≠ 0 → ∃ t', pool.threads[k]? = some t' ∧
      (t' = .returned ∨ t ≠ .returned ∧ left t' ≠ 0))
    (hdrains : ∀ (n q d : Nat), s.works[n]? = some (.drain q d) → s.executing n = true →
      (s.queues q).threads[d]? = some .returned ∨ Threadpool.Thread.worker (.executing n) ∈ pool.threads) :
    Calling { s with pool := pool } := by
  refine ⟨hI.queues, fun q i k hm => ?_, fun n q d hn => ?_, hI.unique⟩
  · obtain ⟨t, ht, hcase⟩ := hI.calls q i k hm
    obtain ⟨t', ht', h⟩ := hcalls k t ht (hcase.imp_right And.left)
    refine ⟨t', ht', h.imp_right fun h => ⟨h.2, ?_⟩⟩
    exact (hcase.resolve_left h.1).2
  · obtain ⟨t, ht, ho, hcase⟩ := hI.drains n q d hn
    refine ⟨t, ht, ho, ?_⟩
    rcases hcase with h | h | h
    · exact Or.inl h
    · exact Or.inr (Or.inl h)
    · refine Or.inr ((hdrains n q d hn h).imp (fun hr => ?_) executing_iff.mpr)
      exact Option.some.inj (ht.symm.trans hr)

theorem Calling.stepPool (hI : Calling s) {l : Label Threadpool.Choice} (h : s.stepPool l = some s') : Calling s' := by
  cases l with
  | call e =>
    have key : (threadpool.next s.pool (.call e)).map (fun pool => { s with pool := pool }) = some s' → Calling s' := by
      intro h
      simp only [Option.map_eq_some_iff] at h
      obtain ⟨pool, hn, rfl⟩ := h
      obtain ⟨u, new, -, rfl⟩ := Program.next_call hn
      refine hI.pool_step (fun k t ht hcase => ⟨t, Family.get_append ht _, ?_⟩) fun n q d _ he => Or.inr ?_
      · by_cases hr : t = .returned
        · exact Or.inl hr
        · exact Or.inr ⟨hr, hcase.resolve_left hr⟩
      · exact List.mem_append_left _ (executing_iff.mp he)
    cases e with
    | execute => cases h
    | _ => exact key h
  | act k e =>
    simp only [System.stepPool] at h
    split at h
    · next hgo =>
      simp only [Option.map_eq_some_iff] at h
      obtain ⟨pool, hn, rfl⟩ := h
      obtain ⟨t, u, t', new, ht, ha, rfl⟩ := Program.next_act hn
      refine hI.pool_step (fun j x hx hcase => ?_) fun n q d hw he => ?_
      · by_cases hkj : k = j
        · subst hkj
          cases ht.symm.trans hx
          have hne := act_returned ha
          obtain ⟨-, hl⟩ := left_step ha (hcase.resolve_left hne)
          exact ⟨t', Family.get_step ht t' new, hl.imp_right fun hl => ⟨hne, hl⟩⟩
        · refine ⟨x, Family.get_step_of_ne hx hkj t' new, ?_⟩
          by_cases hr : x = .returned
          · exact Or.inl hr
          · exact Or.inr ⟨hr, hcase.resolve_left hr⟩
      · by_cases hte : t = .worker (.executing n)
        · -- the worker that executes it goes on, for the drain has returned
          subst hte
          unfold System.goesOn at hgo
          rw [ht] at hgo
          left
          simpa [hw] using hgo
        · right
          exact Family.mem_step_of_ne ht (executing_iff.mp he) (Ne.symm hte) t' new
    · cases h

theorem Calling.submit (hI : Calling s) {work : Work} (h : s.submit work p = some s')
    (hdrain : ∀ q d, work = .drain q d → (s.queues q).threads[d]? = some (.lock .drainBegin))
    (hfresh : ∀ (q d n : Nat), work = .drain q d → s.works[n]? ≠ some (.drain q d)) : Calling s' := by
  simp only [System.submit, Option.map_eq_some_iff] at h
  obtain ⟨pool, hp, rfl⟩ := h
  obtain ⟨u, new, hc, rfl⟩ := Program.next_call hp
  have hold : ∀ (n q d : Nat), (s.works ++ [work])[n]? = some (.drain q d) →
      s.works[n]? = some (.drain q d) ∨ n = s.works.length ∧ work = .drain q d := by
    intro n q d hn
    rw [List.getElem?_append] at hn
    split at hn
    · exact Or.inl hn
    · rw [List.getElem?_singleton] at hn
      obtain ⟨h0, hw⟩ := Option.ite_none_right_eq_some.mp hn
      exact Or.inr ⟨by omega, Option.some.inj hw⟩
  refine ⟨hI.queues, fun q i k hm => ?_, fun n q d hn => ?_, fun n m q d hn hm => ?_⟩
  · obtain ⟨t, ht, h⟩ := hI.calls q i k hm
    exact ⟨t, Family.get_append ht _, h⟩
  · rcases hold n q d hn with hn | ⟨-, hw⟩
    · obtain ⟨t, ht, ho, h⟩ := hI.drains n q d hn
      refine ⟨t, ht, ho, h.imp_right (Or.imp_right fun h => ?_)⟩
      exact executing_iff.mpr (List.mem_append_left _ (executing_iff.mp h))
    · exact ⟨_, hdrain q d hw, rfl, Or.inl rfl⟩
  · rcases hold n q d hn with hn | ⟨rfl, hw⟩
    · rcases hold m q d hm with hm | ⟨-, hw⟩
      · exact hI.unique n m q d hn hm
      · exact absurd hn (hfresh q d n hw)
    · rcases hold m q d hm with hm | ⟨rfl, -⟩
      · exact absurd hm (hfresh q d m hw)
      · rfl

/-- The queue takes a step after which its threads are where they were, except for one that is in no
call and is executed, if it is a drain. -/
theorem Calling.setQueue (hI : Calling s) {c : Config OperationQueue.Shared OperationQueue.Thread}
    (hc : Smooth c) (hx : s.inExecute q i = false) (hw : s.waits q i = false)
    (hother : ∀ (j : Nat) t, j ≠ i → (s.queues q).threads[j]? = some t → c.threads[j]? = some t)
    (hself : ∀ t, (s.queues q).threads[i]? = some t → ofDrain t = true → ∃ t', c.threads[i]? = some t' ∧ ofDrain t' = true) :
    Calling (s.setQueue q c) := by
  refine ⟨fun r => ?_, fun r j k hm => ?_, fun n r d hn => ?_, hI.unique⟩
  · by_cases hr : r = q
    · subst hr
      simp only [System.setQueue, Function.update_self]
      exact hc
    · simp only [System.setQueue, Function.update_of_ne hr]
      exact hI.queues r
  · obtain ⟨t, ht, hcase⟩ := hI.calls r j k hm
    refine ⟨t, ht, ?_⟩
    by_cases hr : r = q
    · subst hr
      by_cases hj : j = i
      · subst hj
        cases ht.symm.trans (inExecute_eq_false.mp hx k hm)
        exact Or.inl rfl
      · refine hcase.imp_right fun h => ?_
        obtain ⟨hl, p, hp⟩ := h
        refine ⟨hl, p, ?_⟩
        simp only [System.setQueue, Function.update_self]
        exact hother j _ hj hp
    · simp only [System.setQueue, Function.update_of_ne hr]
      exact hcase
  · obtain ⟨t, ht, ho, hcase⟩ := hI.drains n r d hn
    by_cases hr : r = q
    · subst hr
      simp only [System.setQueue, Function.update_self]
      by_cases hd : d = i
      · subst hd
        obtain ⟨t', ht', ho'⟩ := hself t ht ho
        exact ⟨t', ht', ho', Or.inr (Or.inr (waits_eq_false.mp hw n hn))⟩
      · exact ⟨t, hother d t hd ht, ho, hcase⟩
    · simp only [System.setQueue, Function.update_of_ne hr]
      exact ⟨t, ht, ho, hcase⟩

theorem Calling.stepQueue (hI : Calling s) {l : Label OperationQueue.Choice} (h : s.stepQueue p q l = some s') :
    Calling s' := by
  cases l with
  | call e =>
    simp only [System.stepQueue, Option.map_eq_some_iff] at h
    obtain ⟨c, hn, rfl⟩ := h
    obtain ⟨u, new, hc, rfl⟩ := Program.next_call hn
    -- no thread has this number yet
    have hnone : ∀ t, (s.queues q).threads[(s.queues q).threads.length]? ≠ some t := by simp
    refine hI.setQueue (i := (s.queues q).threads.length) ((hI.queues q).call hc) ?_ ?_
      (fun j t _ ht => Family.get_append ht new) fun t ht => absurd ht (hnone t)
    · refine inExecute_eq_false.mpr fun k hk => ?_
      obtain ⟨t, ht, hcase⟩ := hI.calls q _ k hk
      rcases hcase with rfl | ⟨_, c, hc⟩
      · exact ht
      · exact absurd hc (hnone _)
    · refine waits_eq_false.mpr fun n hn => ?_
      obtain ⟨t, ht, -⟩ := hI.drains n q _ hn
      exact absurd ht (hnone t)
  | act i e =>
    obtain ⟨he, hx, hw, t, u, t', new, ht, ha, hcase⟩ := stepQueue_cases h
    have hset : Calling (s.setQueue q ⟨u, (s.queues q).threads.set i t' ++ new⟩) := by
      refine hI.setQueue ((hI.queues q).act ht ha he) hx hw
        (fun j x hj hx => Family.get_step_of_ne hx (Ne.symm hj) _ _) fun x hx ho => ?_
      cases ht.symm.trans hx
      exact ⟨t', Family.get_step ht _ _, ofDrain_step (OperationQueue.act_step ha) ho⟩
    rcases hcase with ⟨-, rfl⟩ | ⟨rfl, ⟨c, rfl⟩, s₁, hs, rfl⟩
    · exact hset
    have hsub := hset.submit hs ?_ ?_
    · simp only [System.submit, Option.map_eq_some_iff] at hs
      obtain ⟨pool, hp, rfl⟩ := hs
      obtain ⟨v, added, hc, rfl⟩ := Program.next_call hp
      cases hc
      refine ⟨hsub.queues, fun r j k hm => ?_, hsub.drains, hsub.unique⟩
      rcases List.mem_append.mp hm with hm | hm
      · exact hsub.calls r j k hm
      · cases List.mem_singleton.mp hm
        refine ⟨_, List.getElem?_concat_length, Or.inr ⟨by simp [left], c, ?_⟩⟩
        simp only [System.setQueue, Function.update_self]
        exact Family.get_step ht _ _
    · rintro _ _ ⟨rfl, rfl⟩
      simp only [System.setQueue, Function.update_self]
      rw [List.getElem?_append_right (by simp), List.length_set, Nat.sub_self]
      rfl
    · rintro _ _ n ⟨rfl, rfl⟩ hn
      obtain ⟨t, ht, -⟩ := hI.drains n _ _ hn
      simp at ht

theorem initial_calling {maxThreads : Int} : Calling (initial maxThreads).shared where
  queues _ := ⟨OperationQueue.initial_inv, by simp [initial, OperationQueue.initial]⟩
  calls := by simp [initial]
  drains := by simp [initial]
  unique := by simp [initial]

theorem step_calling {priority : Nat → Priority} (hI : Calling s) {e : Choice} (h : s.step priority e = some s') :
    Calling s' := by
  cases e with
  | pool l => exact hI.stepPool h
  | queue q l => exact hI.stepQueue h
  | execute p => exact hI.submit h (by simp) (by simp)

theorem run_calling {priority : Nat → Priority} {maxThreads : Int} {tr : List (Config System Unit × Label Choice)}
    {c : Config System Unit} (h : (system priority).Run (initial maxThreads) tr c) : Calling c.shared := by
  refine h.invariant_by (C := fun _ _ => True) (I := fun c => Calling c.shared) initial_calling ?_ ?_ Program.along_true
  · intro c e s' new hI _ hc
    simp only [system, Option.map_eq_some_iff, Prod.mk.injEq] at hc
    obtain ⟨s₁, hs, rfl, -⟩ := hc
    exact step_calling hI hs
  · intro c i e t s' t' new _ _ _ ha
    cases ha

end

end Xdispatch.PooledQueue
