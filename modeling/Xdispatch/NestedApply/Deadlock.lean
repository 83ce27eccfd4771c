import Xdispatch.Lib.Deadlock
import Xdispatch.NestedApply.Invariant

/-!
# Nested `apply` does not get stuck

A worker that waits within `apply` leaves its place to another one, so that there
is always one for the operations in the buckets, and what an operation waits for
is younger than it. So not all of them wait, however deeply they are nested, and
one worker at first is enough.
-/

namespace Xdispatch.NestedApply

open Threadpool (threadpool places)

/-! ## Waiting for each other -/

/-- Operation `m` is one that the barrier of `n` has still to wait for. -/
def Waits (s : System) (n m : Nat) : Prop :=
  ∃ op x k, s.ops[n]? = some op ∧ op.phase.awaits = some k ∧ s.ops[m]? = some x ∧ x.parent = some k ∧
    x.phase.pending = true

theorem Counts.not_deadlocked {s : System} (hC : Counts s) : ¬ Deadlocked (Waits s) := by
  refine Deadlocked.not_of_order (r := (· < ·)) Nat.lt_wfRel.wf (fun n i => i = s.ops.length - n) (fun n _ _ => ⟨_, rfl⟩) ?_
  intro n m i j hW hi hj
  obtain ⟨op, x, k, hn, hk, hm, hx, -⟩ := hW
  have hlt := (hC.older n op k hn (own_of_awaits hk)).2 m x hm hx
  have := (List.getElem?_eq_some_iff.mp hm).1
  omega

/-! ## Nobody can go on -/

/-- A step of a thread or of an operation that is there, other than a time-out. -/
def internal : Choice → Bool
  | .pool (.act _ .timeout) => false
  | .pool (.act _ _) | .op _ _ => true
  | _ => false

def Stuck (s : System) : Prop := ∀ e, internal e = true → s.step e = none

section
variable {maxThreads : Int} {s : System} {n k : Nat} {op : Op} {t : Threadpool.Thread}

theorem Stuck.act (hS : Stuck s) (hk : s.pool.threads[k]? = some t) (hgo : s.goesOn k = true) (e : Threadpool.Choice)
    (he : e ≠ .timeout) : Threadpool.act s.pool.shared t e = none := by
  have h := hS (.pool (.act k e)) (by cases e <;> first | rfl | exact absurd rfl he)
  simp only [System.step, System.stepPool, hgo, if_true, Option.map_eq_none_iff, Program.next, hk, Option.bind_some] at h
  exact h

theorem Stuck.returned (hS : Stuck s) (hk : s.pool.threads[k]? = some t) (ht : inCall t = true) : t = .returned := by
  have hgo : s.goesOn k = true := by
    unfold System.goesOn
    rw [hk]
    cases t with
    | worker => cases ht
    | _ => rfl
  have h := hS.act hk hgo .step (by simp)
  cases t with
  | worker => cases ht
  | returned => rfl
  | _ => cases h

/-- Where a worker is that cannot go on. -/
theorem Stuck.worker (hS : Stuck s) {w : Threadpool.Worker} (hk : s.pool.threads[k]? = some (.worker w)) :
    w = .exited ∨ (w = .waiting ∧ s.pool.shared.tokens = 0) ∨ ∃ n, w = .executing n ∧
      (s.ops[n]?.map (·.phase)) ≠ some .finished := by
  by_cases hx : ∃ n, w = .executing n
  · obtain ⟨n, rfl⟩ := hx
    refine Or.inr (Or.inr ⟨n, rfl, fun hf => ?_⟩)
    have hgo : s.goesOn k = true := by
      unfold System.goesOn
      rw [hk]
      simpa using hf
    cases hS.act hk hgo .step (by simp)
  · have hgo : s.goesOn k = true := by
      unfold System.goesOn
      rw [hk]
      cases w with
      | executing n => exact absurd ⟨n, rfl⟩ hx
      | _ => rfl
    have h := hS.act hk hgo .step (by simp)
    cases w with
    | exited => exact Or.inl rfl
    | waiting =>
      refine Or.inr (Or.inl ⟨rfl, ?_⟩)
      by_contra h0
      simp [Threadpool.act, Threadpool.Worker.act, Threadpool.Shared.acquire, h0] at h
    | executing n => exact absurd ⟨n, rfl⟩ hx
    | spinAcquire => cases hS.act hk hgo .giveUp (by simp)
    | _ => cases h

theorem Stuck.settled (hS : Stuck s) : Threadpool.Settled s.pool := by
  intro t ht
  obtain ⟨k, hk⟩ := List.mem_iff_getElem?.mp ht
  cases t with
  | worker w =>
    rcases hS.worker hk with rfl | ⟨rfl, h0⟩ | ⟨n, rfl, -⟩
    · exact Or.inr (Or.inl rfl)
    · exact Or.inr (Or.inr (Or.inr ⟨rfl, h0⟩))
    · exact Or.inr (Or.inr (Or.inl ⟨n, rfl⟩))
  | _ => exact Or.inl (hS.returned hk rfl)

/-- An operation that cannot go on waits for its barrier. -/
theorem Stuck.barrier (hI : Inv maxThreads s) (hS : Stuck s) (hn : s.ops[n]? = some op)
    (hrun : op.inPool = true → s.executing n = true) (hne : op.phase ≠ .finished) :
    ∃ k, op.phase = .barrier k ∧ s.completed k = false := by
  have hm := Family.mem_of_get hn
  have hstep : ∀ e, s.stepOp n op op.phase e = none := by
    intro e
    have h := hS (.op n e) rfl
    have hx : ¬ (op.inPool && !s.executing n) = true := by
      simp only [Bool.and_eq_true, Bool.not_eq_true', not_and, Bool.not_eq_false]
      exact hrun
    simp only [System.step, hn, Option.bind_some, if_neg hx] at h
    exact h
  have hcaller : ∀ caller, op.phase.caller = some caller → s.returned caller = true := by
    intro caller hc
    obtain ⟨t, ht, hin⟩ := hI.placed.callers op hm caller hc
    simp only [System.returned, ht, hS.returned ht hin, decide_true]
  generalize hp : op.phase = p at *
  cases p with
  | body => cases hstep .finish
  | loop k i times =>
    by_cases hi : i < times
    · have h := hstep (.async .default)
      simp only [System.stepOp, if_pos hi] at h
      cases h
    · have h := hstep .step
      simp only [System.stepOp, if_neg hi] at h
      cases h
  | async k i times caller =>
    have h := hstep .step
    simp only [System.stepOp, hcaller caller rfl, if_true] at h
    cases h
  | check k =>
    have h := hstep .step
    simp only [System.stepOp] at h
    split at h
    · cases h
    · split at h <;> cases h
  | block k caller =>
    have h := hstep .step
    simp only [System.stepOp, hcaller caller rfl, if_true] at h
    cases h
  | barrier k =>
    refine ⟨k, rfl, ?_⟩
    by_contra hc
    rw [Bool.not_eq_false] at hc
    have h := hstep .step
    simp only [System.stepOp, hc, Bool.not_true, Bool.false_eq_true, if_false] at h
    split at h <;> cases h
  | unblock caller =>
    have h := hstep .step
    simp only [System.stepOp, hcaller caller rfl, if_true] at h
    cases h
  | consume | complete =>
    obtain ⟨k, hk⟩ := Option.isSome_iff_exists.mp (hI.counts.consumers op hm (by simp [hp]))
    have h := hstep .step
    simp only [System.stepOp, hk] at h
    cases h
  | finished => exact absurd rfl hne

/-! ## The workers -/

/-- A worker that cannot go on is in an operation that is within its `block_scope`. -/
theorem Stuck.scoped (hI : Inv maxThreads s) (hS : Stuck s) (hx : s.executing n = true) :
    ∃ op, s.ops[n]? = some op ∧ op.scoped = 1 := by
  simp only [System.executing, decide_eq_true_eq] at hx
  have hm : n ∈ places s.pool := by
    unfold places
    refine Multiset.mem_add.mpr (Or.inr ?_)
    exact Family.mem_total.mpr ⟨_, hx, Multiset.mem_singleton_self n⟩
  obtain ⟨op, hn, hin⟩ := hI.placed.known n hm
  obtain ⟨k, hk⟩ := List.mem_iff_getElem?.mp hx
  have hne : op.phase ≠ .finished := by
    intro hf
    rcases hS.worker hk with h | ⟨h, -⟩ | ⟨m, h, h'⟩
    · cases h
    · cases h
    · cases h
      exact h' (by simp [hn, hf])
  obtain ⟨j, hj, -⟩ := hS.barrier hI hn (fun _ => by simpa [System.executing] using hx) hne
  exact ⟨op, hn, by simp [Op.scoped, hj, hin]⟩

/-- No more workers are in operations than there are operations in a `block_scope`. -/
theorem Stuck.live_le (hI : Inv maxThreads s) (hS : Stuck s) (h0 : 0 < s.pool.shared.tokens) :
    Threadpool.live s.pool ≤ Family.total Op.scoped s.ops := by
  have hlive : Threadpool.live s.pool = (Family.total Threadpool.Thread.begins s.pool.threads).card := by
    have key : ∀ l : List Threadpool.Thread, (∀ t ∈ l, t.live = t.begins.card) →
        Family.total Threadpool.Thread.live l = (Family.total Threadpool.Thread.begins l).card := by
      intro l
      induction l with
      | nil => exact fun _ => rfl
      | cons t l ih =>
        intro h
        rw [Family.total_cons, Family.total_cons, Multiset.card_add, h t List.mem_cons_self,
          ih fun x hx => h x (List.mem_cons_of_mem _ hx)]
    refine key _ fun t ht => ?_
    rcases hS.settled t ht with rfl | rfl | ⟨n, rfl⟩ | ⟨rfl, h⟩
    · rfl
    · rfl
    · rfl
    · omega
  have hle : Family.total Threadpool.Thread.begins s.pool.threads ≤ places s.pool := Multiset.le_add_left _ _
  rw [hlive]
  refine Family.card_le_total _ (Multiset.nodup_of_le hle hI.placed.once) fun n hn => ?_
  obtain ⟨t, ht, hn⟩ := Family.mem_total.mp hn
  rcases hS.settled t ht with rfl | rfl | ⟨m, rfl⟩ | ⟨rfl, -⟩
  · cases hn
  · cases hn
  · cases Multiset.mem_singleton.mp hn
    obtain ⟨op, hop, h1⟩ := hS.scoped hI (by simpa [System.executing] using ht)
    exact ⟨op, hop, by omega⟩
  · cases hn

theorem Stuck.operations (h1 : 1 ≤ maxThreads) (hI : Inv maxThreads s) (hS : Stuck s) :
    s.pool.shared.operations = [] := by
  by_contra hops
  obtain ⟨tr, hr, hC⟩ := hI.placed.pool
  have hmax := Threadpool.run_not_stranded hr hC hS.settled hops
  have htok : 0 < s.pool.shared.tokens := by
    have h := (Threadpool.run_inv hr hC).operations
    have hholds : Family.total Threadpool.Thread.holds s.pool.threads = 0 := by
      rw [Family.total_eq_zero]
      intro t ht
      rcases hS.settled t ht with rfl | rfl | ⟨op, rfl⟩ | ⟨rfl, -⟩ <;> rfl
    have := List.length_pos_iff.mpr hops
    omega
  have hle := hS.live_le hI htok
  have hraises : Family.total raises s.pool.threads = 0 := by
    refine List.sum_eq_zero fun y hy => ?_
    obtain ⟨t, hm, rfl⟩ := List.mem_map.mp hy
    rcases hS.settled t hm with rfl | rfl | ⟨op, rfl⟩ | ⟨rfl, -⟩ <;> rfl
  have hA := hI.allows
  unfold Allows at hA
  omega

/-! ## The system -/

/-- Who cannot go on waits for an operation that cannot go on either. -/
theorem Stuck.finished (h1 : 1 ≤ maxThreads) (hI : Inv maxThreads s) (hS : Stuck s) (hm : op ∈ s.ops) :
    op.phase = .finished := by
  by_contra hne
  have hbarrier : ∀ (n : Nat) x, s.ops[n]? = some x → x.phase ≠ .finished →
      ∃ k, x.phase = .barrier k ∧ s.completed k = false := by
    intro n x hn hne
    refine hS.barrier hI hn (fun hin => ?_) hne
    -- it is in no bucket and in no call
    have hp := hI.placed.placed n x hn hin hne
    unfold places Threadpool.queued at hp
    rw [hS.operations h1 hI, List.filterMap_nil, Multiset.coe_nil, zero_add, Multiset.mem_add] at hp
    obtain ⟨t, ht, hn⟩ | ⟨t, ht, hn⟩ := hp.imp Family.mem_total.mp Family.mem_total.mp
    · rcases hS.settled t ht with rfl | rfl | ⟨m, rfl⟩ | ⟨rfl, -⟩ <;> cases hn
    · rcases hS.settled t ht with rfl | rfl | ⟨m, rfl⟩ | ⟨rfl, -⟩
      · cases hn
      · cases hn
      · cases Multiset.mem_singleton.mp hn
        simpa [System.executing] using ht
      · cases hn
  obtain ⟨n, hn⟩ := List.mem_iff_getElem?.mp hm
  refine hI.counts.not_deadlocked ⟨{n | ∃ x, s.ops[n]? = some x ∧ x.phase ≠ .finished}, ⟨n, op, hn, hne⟩, ?_⟩
  rintro n ⟨x, hn, hne⟩
  obtain ⟨k, hk, hc⟩ := hbarrier n x hn hne
  have hx := Family.mem_of_get hn
  have hawaits : x.phase.awaits = some k := by rw [hk]; rfl
  have hpos : 0 < s.resources k := by
    rcases hI.counts.awaited x hx k hawaits with h | h | ⟨y, hy, -, hyp⟩
    · cases hc.symm.trans h
    · exact h
    · obtain ⟨m, hm⟩ := List.mem_iff_getElem?.mp hy
      obtain ⟨j, hj, -⟩ := hbarrier m y hm (by simp [hyp])
      cases hyp.symm.trans hj
  rw [hI.counts.resources k (hI.counts.own_lt hx (own_of_awaits hawaits))] at hpos
  obtain ⟨y, hy, hpos⟩ := Family.exists_of_total_pos hpos
  obtain ⟨m, hm⟩ := List.mem_iff_getElem?.mp hy
  have hy' : y.phase ≠ .finished := by
    intro hf
    simp [Op.owes, hf, Phase.pending, Phase.left] at hpos
  obtain ⟨j, hj, -⟩ := hbarrier m y hm hy'
  refine ⟨m, ⟨y, hm, hy'⟩, x, y, k, hn, hawaits, hm, ?_, by rw [hj]; rfl⟩
  by_contra hpar
  simp [Op.owes, hj, hpar, Phase.left] at hpos

/-- `apply` returns, and all that it has posted has been executed. -/
theorem OpStep.returns {s' : System} {op' : Op} (h : OpStep s n op s') (hC : Counts s) (hn : s.ops[n]? = some op)
    (hk : op.phase.own = some k) (hn' : s'.ops[n]? = some op') (hk' : op'.phase.own = none) {x : Op} (hx : x ∈ s.ops)
    (hpar : x.parent = some k) : x.phase.pending = false := by
  have hzero : s.resources k = 0 := by
    have hat : ∀ p : Phase, (s.setPhase n op p).ops[n]? = some op' → op'.phase = p := by
      intro p h
      cases (Family.get_set_self hn _).symm.trans h
      rfl
    cases h with
    | moves h =>
      have hp := hat _ hn'
      rw [hp] at hk'
      cases h with
      | finish h | consume h | unblocked h =>
        rw [h] at hk
        cases hk
      | skip h h0 =>
        rw [h] at hk
        cases hk
        exact h0
      | wakes h hc =>
        rw [h] at hk
        cases hk
        exact hC.zero k (Or.inl hc)
      | _ => cases hk'
    | unblock h hc =>
      rw [h] at hk
      cases hk
      exact hC.zero k (Or.inl hc)
    | apply _ h | consume h | complete h =>
      rw [h] at hk
      cases hk
    | block =>
      rw [hat _ hn'] at hk'
      cases hk'
    | async =>
      have hlt := (List.getElem?_eq_some_iff.mp hn).1
      simp only [] at hn'
      rw [List.getElem?_append_left (by simpa [System.setPhase] using hlt)] at hn'
      rw [hat _ hn'] at hk'
      cases hk'
  have ht := hC.resources k (hC.own_lt (Family.mem_of_get hn) hk)
  have := (Family.total_eq_zero.mp (ht.symm.trans hzero)) x hx
  by_contra hp
  rw [Bool.not_eq_false] at hp
  simp [Op.owes, hpar, hp] at this

/-- What holds of a state of the system: `goes` and `returns` are about the next step. -/
structure Nested (s : System) : Prop where
  goes : (∃ op ∈ s.ops, op.phase ≠ .finished) → ∃ e s', internal e = true ∧ s.step e = some s'
  returns : ∀ (n : Nat) e s' op op' k, s.step (.op n e) = some s' → s.ops[n]? = some op → op.phase.own = some k →
    s'.ops[n]? = some op' → op'.phase.own = none → ∀ x ∈ s.ops, x.parent = some k → x.phase.pending = false
  asserts : ∀ op ∈ s.ops, ∀ k, op.phase = .consume → op.parent = some k → 0 < s.resources k

/-- **Nested `apply` does not get stuck**, whatever the depth, if the pool may have one worker. -/
theorem run_nested {tr : List (Config System Unit × Label Choice)} {c : Config System Unit} (h1 : 1 ≤ maxThreads)
    (h : system.Run (initial maxThreads) tr c) (hC : Program.Along (fun c l => enoughTakers c l = true) tr) :
    Nested c.shared := by
  have hI := run_inv h hC
  refine ⟨fun hop => ?_, fun n e s' op op' k hs hn hk hn' hk' x hx hpar => ?_, fun op hm k hp hk => ?_⟩
  · obtain ⟨op, hm, hne⟩ := hop
    by_contra hgo
    push Not at hgo
    have hS : Stuck c.shared := by
      intro e he
      by_contra hsome
      obtain ⟨s', hs⟩ := Option.ne_none_iff_exists'.mp hsome
      exact hgo e s' he hs
    exact hne (hS.finished h1 hI hm)
  · obtain ⟨op₁, hn₁, -, hs⟩ := op_step hs
    cases hn.symm.trans hn₁
    exact hs.returns hI.counts hn hk hn' hk' hx hpar
  · obtain ⟨n, hn⟩ := List.mem_iff_getElem?.mp hm
    exact resources_pos hI.counts hn hp hk

end

/-- Thread `k` of the pool takes `n` steps. -/
def steps (k n : Nat) : List (Label Choice) := List.replicate n (.call (.pool (.act k .step)))

/-- Operation `n` applies one iteration, which call `k` of the pool posts, and waits within call `k + 1`. -/
def applies (n k : Nat) : List (Label Choice) :=
  .call (.op n (.apply 1)) :: .call (.op n (.async .default)) :: steps k 5 ++
    List.replicate 3 (Label.call (.op n .step)) ++ steps (k + 1) 6 ++ [.call (.op n .step)]

/-- An operation applies one that applies one itself, on a pool of one thread. -/
def nested : List (Label Choice) :=
  .call (.execute .default) :: steps 0 7 ++ steps 1 7 ++ .call (.pool (.act 1 (.dequeue 0))) :: applies 0 2 ++
    steps 4 7 ++ .call (.pool (.act 4 (.dequeue 0))) :: applies 1 5

theorem run_nested_nested : Nested (system.last (initial 1) nested).shared ∧
    (system.last (initial 1) nested).shared.ops.map (·.phase) = [.barrier 0, .barrier 1, .body] :=
  ⟨run_nested (by decide) (Program.run_last (l := nested) (by decide)) (by decide), by decide⟩

end Xdispatch.NestedApply
