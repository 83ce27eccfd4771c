import Xdispatch.NestedApply.Consumables
import Xdispatch.Threadpool.Places

/-!
# Operations and their workers

Seen from the pool, a run of the system is a run of the pool that destroys nothing and
passes no null operation. An operation that has not finished is in its one place
there, and with a worker from its first statement on. The pool allows one worker more
for each operation that is within its `block_scope`.
-/

namespace Xdispatch.NestedApply

open Threadpool (threadpool places countsOnTakers executesNull)

/-! ## What a statement does -/

/-- Statements that have to do with neither the pool nor the consumables. -/
inductive Moves (s : System) (op : Op) : Phase → Prop
  | finish : op.phase = .body → op.parent = none → Moves s op .finished
  | consume : op.phase = .body → op.parent.isSome = true → Moves s op .consume
  | posted {k i times caller} : op.phase = .async k i times caller → s.returned caller = true →
      Moves s op (.loop k (i + 1) times)
  | all {k i times} : op.phase = .loop k i times → ¬ i < times → Moves s op (.check k)
  | skip {k} : op.phase = .check k → s.resources k = 0 → Moves s op .body
  | waits {k} : op.phase = .check k → s.resources k ≠ 0 → op.inPool = false → Moves s op (.barrier k)
  | blocked {k caller} : op.phase = .block k caller → s.returned caller = true → Moves s op (.barrier k)
  | wakes {k} : op.phase = .barrier k → s.completed k = true → op.inPool = false → Moves s op .body
  | unblocked {caller} : op.phase = .unblock caller → s.returned caller = true → Moves s op .body

/-- Everything a statement of an operation can do. -/
inductive OpStep (s : System) (n : Nat) (op : Op) : System → Prop
  | moves {p} : Moves s op p → OpStep s n op (s.setPhase n op p)
  | apply (times : Nat) : op.phase = .body → OpStep s n op
      { s.setPhase n op (.loop s.consumables.length 0 times) with consumables := s.consumables ++ [⟨times, false⟩] }
  | async {k i times priority pool} : op.phase = .loop k i times → i < times →
      threadpool.next s.pool (.call (.execute (some s.ops.length) priority)) = some pool → OpStep s n op
        { s.setPhase n op (.async k i times s.pool.threads.length) with
          ops := (s.setPhase n op (.async k i times s.pool.threads.length)).ops ++ [⟨true, some k, .body⟩]
          pool := pool }
  | block {k pool} : op.phase = .check k → s.resources k ≠ 0 → op.inPool = true →
      threadpool.next s.pool (.call .blocked) = some pool → OpStep s n op
        { s.setPhase n op (.block k s.pool.threads.length) with pool := pool }
  | unblock {k pool} : op.phase = .barrier k → s.completed k = true → op.inPool = true →
      threadpool.next s.pool (.call .unblocked) = some pool → OpStep s n op
        { s.setPhase n op (.unblock s.pool.threads.length) with pool := pool }
  | consume {k} : op.phase = .consume → op.parent = some k → OpStep s n op
      ((s.setPhase n op (if s.resources k = 1 then .complete else .finished)).modify k
        fun c => { c with resources := c.resources - 1 })
  | complete {k} : op.phase = .complete → op.parent = some k → OpStep s n op
      ((s.setPhase n op .finished).modify k fun c => { c with completed := true })

section
variable {s s' : System} {n : Nat} {op : Op} {p : Phase} {e : Statement}

theorem callPool_some {next : Nat → System} {e : Threadpool.Choice} (h : s.callPool e next = some s') :
    ∃ pool, threadpool.next s.pool (.call e) = some pool ∧ s' = { next s.pool.threads.length with pool := pool } := by
  simp only [System.callPool, Option.map_eq_some_iff] at h
  obtain ⟨pool, hp, rfl⟩ := h
  exact ⟨pool, hp, rfl⟩

theorem stepOp_step (h : s.stepOp n op op.phase e = some s') : OpStep s n op s' := by
  generalize hp : op.phase = p at h
  unfold System.stepOp at h
  split at h
  · cases h
    exact .apply _ hp
  · cases h
    split
    next hpar => exact .moves (.consume hp hpar)
    next hpar => exact .moves (.finish hp (by simpa using hpar))
  · split at h
    next hi =>
      obtain ⟨pool, hpool, rfl⟩ := callPool_some h
      exact .async hp hi hpool
    · cases h
  · split at h <;> cases h
    next hi => exact .moves (.all hp hi)
  · split at h <;> cases h
    next hr => exact .moves (.posted hp hr)
  · split at h
    next hr =>
      cases h
      exact .moves (.skip hp hr)
    next hr =>
      split at h
      next hin =>
        obtain ⟨pool, hpool, rfl⟩ := callPool_some h
        exact .block hp hr hin hpool
      next hin =>
        cases h
        exact .moves (.waits hp hr (by simpa using hin))
  · split at h <;> cases h
    next hr => exact .moves (.blocked hp hr)
  · split at h
    · cases h
    next hc =>
      split at h
      next hin =>
        obtain ⟨pool, hpool, rfl⟩ := callPool_some h
        exact .unblock hp (by simpa using hc) hin hpool
      next hin =>
        cases h
        exact .moves (.wakes hp (by simpa using hc) (by simpa using hin))
  · split at h <;> cases h
    next hr => exact .moves (.unblocked hp hr)
  · simp only [Option.map_eq_some_iff] at h
    obtain ⟨k, hk, rfl⟩ := h
    exact .consume hp hk
  · simp only [Option.map_eq_some_iff] at h
    obtain ⟨k, hk, rfl⟩ := h
    exact .complete hp hk
  · cases h

/-! ## Consumables -/

theorem Moves.owes (h : Moves s op p) (k : Nat) : ({ op with phase := p } : Op).owes k = op.owes k := by
  unfold Op.owes
  cases h with
  | finish hp hpar => simp [hp, hpar, Phase.left]
  | @all k' i times hp hi =>
    have h0 : times - i = 0 := by omega
    simp [hp, h0, Phase.pending, Phase.left]
  | posted hp | skip hp | waits hp | blocked hp | wakes hp | unblocked hp | consume hp =>
    simp only [hp, Phase.pending, Phase.left]

theorem Moves.own (h : Moves s op p) {k : Nat} (hk : p.own = some k) : op.phase.own = some k := by
  cases h with
  | posted hp | all hp | waits hp | blocked hp => exact hp ▸ hk
  | _ => cases hk

theorem Moves.awaits (h : Moves s op p) {k : Nat} (hk : p.awaits = some k) :
    op.phase.awaits = some k ∨ 0 < s.resources k := by
  cases h with
  | waits hp hr =>
    cases hk
    exact Or.inr (Nat.pos_of_ne_zero hr)
  | blocked hp => exact Or.inl (hp ▸ hk)
  | _ => cases hk

theorem Moves.ne_complete (h : Moves s op p) : op.phase ≠ .complete ∧ p ≠ .complete := by
  cases h with
  | finish hp | consume hp | posted hp | all hp | skip hp | waits hp | blocked hp | wakes hp | unblocked hp => simp [hp]

theorem Moves.consumes (h : Moves s op p) (hp : p = .consume) : op.parent.isSome = true := by
  cases h with
  | consume _ hpar => exact hpar
  | _ => cases hp

theorem Moves.counts (h : Moves s op p) (hC : Counts s) (hn : s.ops[n]? = some op) : Counts (s.setPhase n op p) :=
  hC.neutral hn h.owes (fun _ => h.own) (fun _ => h.awaits) h.ne_complete.1 h.ne_complete.2 h.consumes

/-- Whatever the pool is. -/
theorem Counts.withPool (hC : Counts s) (pool : Config Threadpool.Shared Threadpool.Thread) :
    Counts { s with pool := pool } :=
  ⟨hC.resources, hC.awaited, hC.older, hC.parents, hC.consumers, hC.zero⟩

theorem OpStep.counts (h : OpStep s n op s') (hC : Counts s) (hn : s.ops[n]? = some op) : Counts s' := by
  have hm := Family.mem_of_get hn
  cases h with
  | moves h => exact h.counts hC hn
  | apply times hp =>
    refine hC.apply (s.setPhase n op (.loop s.consumables.length 0 times)).ops (fun m x hx => ?_)
      (fun m x k hx hk => ?_) (fun x hx hx' => ?_) fun k => ?_
    · rcases get_setPhase hx with ⟨-, rfl⟩ | ⟨-, hx⟩
      · exact Or.inl rfl
      · exact Or.inr hx
    · rcases get_setPhase hx with ⟨rfl, rfl⟩ | ⟨-, hx⟩
      · exact ⟨op, hn, hk⟩
      · exact ⟨x, hx, hk⟩
    · have := Family.mem_step_of_ne hn hx (fun he => by rw [he, hp] at hx'; cases hx')
        { op with phase := .loop s.consumables.length 0 times } []
      rwa [List.append_nil] at this
    · have ht := total_setPhase (p := .loop s.consumables.length 0 times) hn k
      have h0 : op.owes k = if op.parent = some k then 1 else 0 := by simp [Op.owes, hp, Phase.pending, Phase.left]
      have h1 : ({ op with phase := .loop s.consumables.length 0 times } : Op).owes k =
          (if op.parent = some k then 1 else 0) + (Phase.loop s.consumables.length 0 times).left k := by
        simp [Op.owes, Phase.pending]
      omega
  | @async k i times priority pool hp hi hpool =>
    have hk := hC.own_lt hm (k := k) (by rw [hp]; rfl)
    refine (hC.post (s.setPhase n op (.async k i times s.pool.threads.length)).ops (some k)
      (fun j hj => Option.some.inj hj ▸ hk) (fun m y hy => ?_) (fun m x hx => ?_) fun j => ?_).withPool pool
    · rcases get_setPhase hy with ⟨rfl, rfl⟩ | ⟨-, hy⟩
      · exact ⟨op, hn, rfl, by rw [hp]; rfl, Or.inr ⟨rfl, by simp [hp], by simp, by simp⟩⟩
      · exact ⟨y, hy, rfl, rfl, Or.inl rfl⟩
    · by_cases hmn : n = m
      · subst hmn
        cases hn.symm.trans hx
        exact ⟨_, Family.get_set_self hn _, rfl, by rw [hp]; rfl, Or.inr ⟨rfl, by simp [hp], by simp, by simp⟩⟩
      · exact ⟨x, by rw [← hx]; exact List.getElem?_set_ne hmn, rfl, rfl, Or.inl rfl⟩
    · have ht := total_setPhase (p := .async k i times s.pool.threads.length) hn j
      have h0 : op.owes j = (if op.parent = some j then 1 else 0) + if k = j then times - i else 0 := by
        simp [Op.owes, hp, Phase.pending, Phase.left]
      have h1 : ({ op with phase := .async k i times s.pool.threads.length } : Op).owes j =
          (if op.parent = some j then 1 else 0) + if k = j then times - (i + 1) else 0 := by
        simp [Op.owes, Phase.pending, Phase.left]
      simp only [Option.some.injEq]
      by_cases hkj : k = j
      · simp only [if_pos hkj] at *
        omega
      · simp only [if_neg hkj] at *
        omega
  | @block k pool hp hr hin hpool =>
    refine (hC.neutral hn (fun j => ?_) (fun j hj => ?_) (fun j hj => ?_) ?_ ?_ ?_).withPool pool
    · simp [Op.owes, hp, Phase.pending, Phase.left]
    · rw [hp]
      exact hj
    · cases hj
      exact Or.inr (Nat.pos_of_ne_zero hr)
    · simp [hp]
    · simp
    · simp
  | @unblock k pool hp hc hin hpool =>
    refine (hC.neutral hn (fun j => ?_) (fun j hj => ?_) (fun j hj => ?_) ?_ ?_ ?_).withPool pool
    · simp [Op.owes, hp, Phase.pending, Phase.left]
    · cases hj
    · cases hj
    · simp [hp]
    · simp
    · simp
  | consume hp hk => exact hC.consume hn hp hk
  | complete hp hk => exact hC.complete hn hp hk

theorem Counts.execute (hC : Counts s) : Counts { s with ops := s.ops ++ [⟨true, none, .body⟩] } :=
  hC.post s.ops none (by simp) (fun m y hy => ⟨y, hy, rfl, rfl, Or.inl rfl⟩) (fun m x hx => ⟨x, hx, rfl, rfl, Or.inl rfl⟩)
    fun k => by simp

theorem Counts.outside (hC : Counts s) (times : Nat) : Counts { s with
    ops := s.ops ++ [⟨false, none, .loop s.consumables.length 0 times⟩]
    consumables := s.consumables ++ [⟨times, false⟩] } := by
  have hcases : ∀ (m : Nat) x, (s.ops ++ [⟨false, none, .loop s.consumables.length 0 times⟩])[m]? = some x →
      s.ops[m]? = some x ∨ x = ⟨false, none, .loop s.consumables.length 0 times⟩ := by
    intro m x hx
    rw [List.getElem?_append] at hx
    split at hx
    · exact Or.inl hx
    · rw [List.getElem?_singleton] at hx
      exact Or.inr (Option.some.inj (Option.ite_none_right_eq_some.mp hx).2).symm
  refine hC.apply _ (fun m x hx => ?_) (fun m x k hx hk => ?_) (fun x hx _ => List.mem_append_left _ hx) fun k => ?_
  · rcases hcases m x hx with hx | rfl
    · exact Or.inr hx
    · exact Or.inl rfl
  · rcases hcases m x hx with hx | rfl
    · exact ⟨x, hx, hk⟩
    · cases hk
  · simp [Op.owes]

end

/-! ## Threads of the pool -/

section
open Threadpool
variable {s s' : Shared} {t t' : Thread} {new : List Thread} {e : Threadpool.Choice}

def inCall : Thread → Bool
  | .worker _ => false
  | _ => true

/-- What a call will do to `m_max_threads`. -/
def raises : Thread → Int
  | .blocked => 1
  | .unblocked => -1
  | _ => 0

/-- The same for a call that begins. -/
def raised : Threadpool.Choice → Int
  | .blocked => 1
  | .unblocked => -1
  | _ => 0

theorem act_inCall (h : act s t e = some (s', t', new)) (ht : inCall t = true) : inCall t' = true := by
  cases act_step h with
  | worker => cases ht
  | loadIdle | loadMax => split <;> rfl
  | _ => rfl

theorem act_raises (h : act s t e = some (s', t', new)) :
    s'.maxThreads + (raises t' + Family.total raises new) = s.maxThreads + raises t := by
  cases act_step h with
  | worker hm => cases hm <;> rfl
  | blocked | unblocked =>
    simp only [raises, Family.total_nil]
    omega
  | loadIdle | loadMax => split <;> rfl
  | _ => rfl

end

/-! ## The invariant -/

/-- The call of the pool that the operation is within. -/
def Phase.caller : Phase → Option Nat
  | .async _ _ _ caller | .block _ caller | .unblock caller => some caller
  | _ => none

/-- An operation of the pool that is within its `block_scope`. -/
def Op.scoped (op : Op) : Nat :=
  match op.phase with
  | .block .. | .barrier _ => if op.inPool then 1 else 0
  | _ => 0

/-- How the operations and the pool fit together. -/
structure Placed (maxThreads : Int) (s : System) : Prop where
  pool : ∃ tr, threadpool.Run (Threadpool.initial maxThreads) tr s.pool ∧
    Program.Along (fun c l => countsOnTakers c l = true) tr
  once : (places s.pool).Nodup
  known : ∀ n ∈ places s.pool, ∃ op, s.ops[n]? = some op ∧ op.inPool = true
  placed : ∀ (n : Nat) op, s.ops[n]? = some op → op.inPool = true → op.phase ≠ .finished → n ∈ places s.pool
  running : ∀ (n : Nat) op, s.ops[n]? = some op → op.inPool = true → op.phase ≠ .body → op.phase ≠ .finished →
    s.executing n = true
  callers : ∀ op ∈ s.ops, ∀ caller, op.phase.caller = some caller →
    ∃ t, s.pool.threads[caller]? = some t ∧ inCall t = true

/-- The pool allows as many workers as at first and one more for each operation in its `block_scope`. -/
def Allows (maxThreads : Int) (s : System) : Prop :=
  s.pool.shared.maxThreads + Family.total raises s.pool.threads = maxThreads + Family.total Op.scoped s.ops

structure Inv (maxThreads : Int) (s : System) : Prop where
  counts : Counts s
  placed : Placed maxThreads s
  allows : Allows maxThreads s

section
variable {maxThreads : Int} {s s' : System} {n : Nat} {op : Op} {p : Phase} {e : Statement}

theorem initial_inv : Inv maxThreads (initial maxThreads).shared := by
  refine ⟨initial_counts, ⟨⟨[], .nil, by simp [Program.Along]⟩, ?_, ?_, ?_, ?_, ?_⟩, ?_⟩
  all_goals simp [initial, Threadpool.initial, places, Threadpool.queued, Allows]

/-! ## Steps of the pool -/

/-- A worker goes on from its operation when that has finished. -/
theorem finished_of_goesOn {k : Nat} (hgo : s.goesOn k = true) (hk : s.pool.threads[k]? = some (.worker (.executing n)))
    (hn : s.ops[n]? = some op) : op.phase = .finished := by
  unfold System.goesOn at hgo
  rw [hk] at hgo
  simpa [hn] using hgo

theorem Placed.act (hP : Placed maxThreads s) {k : Nat} {e : Threadpool.Choice}
    (hC : countsOnTakers s.pool (.act k e) = true) (hgo : s.goesOn k = true)
    {pool : Config Threadpool.Shared Threadpool.Thread} (h : threadpool.next s.pool (.act k e) = some pool) :
    Placed maxThreads { s with pool := pool } := by
  obtain ⟨t, u, t', new, ht, ha, rfl⟩ := Program.next_act h
  have hp := Threadpool.places_act ht ha
  have hle : places ⟨u, s.pool.threads.set k t' ++ new⟩ ≤ places s.pool := hp ▸ Multiset.le_add_right _ _
  refine ⟨?_, Multiset.nodup_of_le hle hP.once, fun n hm => hP.known n (Multiset.mem_of_le hle hm),
    fun n op hn hin hne => ?_, fun n op hn hin hb hne => ?_, fun op hm caller hc => ?_⟩
  · obtain ⟨tr, hr, htr⟩ := hP.pool
    exact ⟨_, hr.snoc h, Program.along_snoc.mpr ⟨htr, hC⟩⟩
  · have hm := hP.placed n op hn hin hne
    rw [← hp, Multiset.mem_add] at hm
    refine hm.resolve_right fun hb => hne ?_
    -- the worker was in the operation, which has finished
    cases t with
    | worker w =>
      cases w with
      | executing m =>
        cases Multiset.mem_singleton.mp hb
        exact finished_of_goesOn hgo ht hn
      | _ => cases hb
    | _ => cases hb
  · have hm := hP.running n op hn hin hb hne
    simp only [System.executing, decide_eq_true_eq] at hm ⊢
    refine Family.mem_step_of_ne ht hm (fun he => hne ?_) t' new
    exact finished_of_goesOn hgo (he ▸ ht) hn
  · obtain ⟨t₁, h₁, hin⟩ := hP.callers op hm caller hc
    by_cases hk : caller = k
    · subst hk
      cases ht.symm.trans h₁
      exact ⟨t', Family.get_step ht t' new, act_inCall ha hin⟩
    · exact ⟨t₁, Family.get_step_of_ne h₁ (Ne.symm hk) t' new, hin⟩

theorem Placed.call (hP : Placed maxThreads s) {e : Threadpool.Choice} (he : e = .blocked ∨ e = .unblocked)
    {pool : Config Threadpool.Shared Threadpool.Thread} (h : threadpool.next s.pool (.call e) = some pool) :
    Placed maxThreads { s with pool := pool } := by
  have hp := Threadpool.places_call h (by rcases he with rfl | rfl <;> simp)
  have hC : countsOnTakers s.pool (.call e) = true := by rcases he with rfl | rfl <;> rfl
  obtain ⟨u, new, -, rfl⟩ := Program.next_call h
  refine ⟨?_, hp ▸ hP.once, fun n hm => hP.known n (hp ▸ hm), fun n op hn hin hne => hp ▸ hP.placed n op hn hin hne,
    fun n op hn hin hb hne => ?_, fun op hm caller hc => ?_⟩
  · obtain ⟨tr, hr, htr⟩ := hP.pool
    exact ⟨_, hr.snoc h, Program.along_snoc.mpr ⟨htr, hC⟩⟩
  · have hm := hP.running n op hn hin hb hne
    simp only [System.executing, decide_eq_true_eq] at hm ⊢
    exact List.mem_append_left _ hm
  · obtain ⟨t, ht, hin⟩ := hP.callers op hm caller hc
    exact ⟨t, Family.get_append ht new, hin⟩

theorem get_snoc {l : List Op} {x y : Op} {m : Nat} (h : (l ++ [x])[m]? = some y) :
    l[m]? = some y ∨ m = l.length ∧ y = x := by
  rw [List.getElem?_append] at h
  split at h
  · exact Or.inl h
  · rw [List.getElem?_singleton] at h
    obtain ⟨h0, h⟩ := Option.ite_none_right_eq_some.mp h
    exact Or.inr ⟨by omega, (Option.some.inj h).symm⟩

/-- The next operation is passed to the pool. -/
theorem Placed.submit (hP : Placed maxThreads s) (parent : Option Nat) {priority : Threadpool.Priority}
    {pool : Config Threadpool.Shared Threadpool.Thread}
    (h : threadpool.next s.pool (.call (.execute (some s.ops.length) priority)) = some pool) :
    Placed maxThreads { s with pool := pool, ops := s.ops ++ [⟨true, parent, .body⟩] } := by
  have hp := Threadpool.places_execute h
  obtain ⟨u, new, -, rfl⟩ := Program.next_call h
  refine ⟨?_, ?_, fun n hm => ?_, fun n op hn hin hne => ?_, fun n op hn hin hb hne => ?_, fun op hm caller hc => ?_⟩
  · obtain ⟨tr, hr, htr⟩ := hP.pool
    exact ⟨_, hr.snoc h, Program.along_snoc.mpr ⟨htr, rfl⟩⟩
  · simp only [hp]
    refine Multiset.nodup_add.mpr ⟨hP.once, Multiset.nodup_singleton _, ?_⟩
    rw [Multiset.disjoint_singleton]
    intro hm
    obtain ⟨op, hop, -⟩ := hP.known _ hm
    exact Nat.lt_irrefl _ (List.getElem?_eq_some_iff.mp hop).1
  · simp only [hp, Multiset.mem_add, Multiset.mem_singleton] at hm
    rcases hm with hm | rfl
    · obtain ⟨op, hop, hin⟩ := hP.known n hm
      exact ⟨op, Family.get_append hop _, hin⟩
    · exact ⟨_, List.getElem?_concat_length, rfl⟩
  · simp only [hp, Multiset.mem_add, Multiset.mem_singleton]
    exact (get_snoc hn).imp (fun hn => hP.placed n op hn hin hne) And.left
  · rcases get_snoc hn with hn | ⟨-, rfl⟩
    · have hm := hP.running n op hn hin hb hne
      simp only [System.executing, decide_eq_true_eq] at hm ⊢
      exact List.mem_append_left _ hm
    · exact absurd rfl hb
  · rcases List.mem_append.mp hm with hm | hm
    · obtain ⟨t, ht, hin⟩ := hP.callers op hm caller hc
      exact ⟨t, Family.get_append ht new, hin⟩
    · cases List.mem_singleton.mp hm
      cases hc

/-! ## Steps of the operations -/

/-- An operation goes on, with a worker if it is one of the pool. -/
theorem Placed.set (hP : Placed maxThreads s) (hn : s.ops[n]? = some op) (hrun : op.inPool = true → s.executing n = true)
    (hlive : op.phase ≠ .finished) (consumables : List Apply.Consumable)
    (hcaller : ∀ caller, p.caller = some caller → ∃ t, s.pool.threads[caller]? = some t ∧ inCall t = true) :
    Placed maxThreads { s.setPhase n op p with consumables := consumables } := by
  refine ⟨hP.pool, hP.once, fun m hm => ?_, fun m x hx hin hne => ?_, fun m x hx hin hb hne => ?_, fun x hx c hc => ?_⟩
  · obtain ⟨x, hx, hin⟩ := hP.known m hm
    by_cases hmn : n = m
    · subst hmn
      cases hn.symm.trans hx
      exact ⟨_, Family.get_set_self hn _, hin⟩
    · exact ⟨x, (List.getElem?_set_ne hmn).trans hx, hin⟩
  · rcases get_setPhase hx with ⟨rfl, rfl⟩ | ⟨-, hx⟩
    · exact hP.placed m op hn hin hlive
    · exact hP.placed m x hx hin hne
  · rcases get_setPhase hx with ⟨rfl, rfl⟩ | ⟨-, hx⟩
    · exact hrun hin
    · exact hP.running m x hx hin hb hne
  · rcases mem_setPhase hx with rfl | hx
    · exact hcaller c hc
    · exact hP.callers x hx c hc

theorem Placed.push (hP : Placed maxThreads s) {x : Op} (hx : x.inPool = false) (hc : x.phase.caller = none)
    (consumables : List Apply.Consumable) :
    Placed maxThreads { s with ops := s.ops ++ [x], consumables := consumables } := by
  refine ⟨hP.pool, hP.once, fun m hm => ?_, fun m y hy hin hne => ?_, fun m y hy hin hb hne => ?_, fun y hy c hyc => ?_⟩
  · obtain ⟨y, hy, hin⟩ := hP.known m hm
    exact ⟨y, Family.get_append hy _, hin⟩
  · rcases get_snoc hy with hy | ⟨-, rfl⟩
    · exact hP.placed m y hy hin hne
    · cases hx.symm.trans hin
  · rcases get_snoc hy with hy | ⟨-, rfl⟩
    · exact hP.running m y hy hin hb hne
    · cases hx.symm.trans hin
  · rcases List.mem_append.mp hy with hy | hy
    · exact hP.callers y hy c hyc
    · cases List.mem_singleton.mp hy
      cases hc.symm.trans hyc

theorem Moves.quiet (h : Moves s op p) : op.phase ≠ .finished ∧ p.caller = none ∧
    ({ op with phase := p } : Op).scoped = op.scoped := by
  unfold Op.scoped
  cases h with
  | finish hp | consume hp | posted hp | all hp | skip hp | blocked hp | unblocked hp => simp [hp, Phase.caller]
  | waits hp _ hin | wakes hp _ hin => simp [hp, hin, Phase.caller]

/-- The thread of a call that the pool has just been passed. -/
theorem get_called {c c' : Config Threadpool.Shared Threadpool.Thread} {e : Threadpool.Choice}
    (h : threadpool.next c (.call e) = some c') :
    ∃ t, c'.threads = c.threads ++ [t] ∧ c'.shared = c.shared ∧ inCall t = true ∧ raises t = raised e := by
  obtain ⟨u, new, hc, rfl⟩ := Program.next_call h
  cases e with
  | execute | blocked | unblocked | destroy =>
    cases hc
    exact ⟨_, rfl, rfl, rfl, rfl⟩
  | _ => cases hc

theorem OpStep.placed (h : OpStep s n op s') (hP : Placed maxThreads s) (hn : s.ops[n]? = some op)
    (hrun : op.inPool = true → s.executing n = true) : Placed maxThreads s' := by
  have hlt := (List.getElem?_eq_some_iff.mp hn).1
  have hcalled : ∀ {e : Threadpool.Choice} {pool : Config Threadpool.Shared Threadpool.Thread},
      threadpool.next s.pool (.call e) = some pool →
      (∀ c, some s.pool.threads.length = some c → ∃ t, pool.threads[c]? = some t ∧ inCall t = true) ∧
      (s.executing n = true → ({ s with pool := pool } : System).executing n = true) := by
    intro e pool h
    obtain ⟨t, ht, -, hin, -⟩ := get_called h
    refine ⟨fun c hc => ⟨t, ?_, hin⟩, fun hx => ?_⟩
    · rw [ht, ← Option.some.inj hc]
      exact List.getElem?_concat_length
    · simp only [System.executing, decide_eq_true_eq, ht] at hx ⊢
      exact List.mem_append_left _ hx
  cases h with
  | moves h =>
    obtain ⟨hne, hc, -⟩ := h.quiet
    exact hP.set hn hrun hne _ fun c hc' => by cases hc.symm.trans hc'
  | apply times hp => exact hP.set hn hrun (by simp [hp]) _ fun c hc => by cases hc
  | consume hp => exact hP.set hn hrun (by simp [hp]) _ fun c hc => by split at hc <;> cases hc
  | complete hp => exact hP.set hn hrun (by simp [hp]) _ fun c hc => by cases hc
  | block hp _ _ hpool | unblock hp _ _ hpool =>
    obtain ⟨hc, hx⟩ := hcalled hpool
    exact (hP.call (by simp) hpool).set hn (fun hin => hx (hrun hin)) (by simp [hp]) _ hc
  | @async k i times priority pool hp _ hpool =>
    obtain ⟨hc, hx⟩ := hcalled hpool
    have := (hP.submit (some k) hpool).set (p := .async k i times s.pool.threads.length)
      (Family.get_append hn _) (fun hin => hx (hrun hin)) (by simp [hp]) s.consumables hc
    simp only [System.setPhase, List.set_append_left _ _ hlt] at this
    exact this

/-! ## The limit of the pool -/

theorem scoped_setPhase (hn : s.ops[n]? = some op) (p : Phase) :
    Family.total Op.scoped (s.setPhase n op p).ops + op.scoped =
      Family.total Op.scoped s.ops + ({ op with phase := p } : Op).scoped :=
  Family.total_set Op.scoped hn _

theorem Allows.act (hA : Allows maxThreads s) {k : Nat} {e : Threadpool.Choice}
    {pool : Config Threadpool.Shared Threadpool.Thread} (h : threadpool.next s.pool (.act k e) = some pool) :
    Allows maxThreads { s with pool := pool } := by
  obtain ⟨t, u, t', new, ht, ha, rfl⟩ := Program.next_act h
  have hr := act_raises ha
  have ht := Family.total_step raises ht t' new
  unfold Allows at *
  simp only []
  omega

/-- A call of the pool, made by an operation that comes into its `block_scope` with it or leaves it. -/
theorem Allows.call (hA : Allows maxThreads s) (hn : s.ops[n]? = some op) {e : Threadpool.Choice}
    {pool : Config Threadpool.Shared Threadpool.Thread} (h : threadpool.next s.pool (.call e) = some pool)
    (hs : (({ op with phase := p } : Op).scoped : Int) = op.scoped + raised e) :
    Allows maxThreads { s.setPhase n op p with pool := pool } := by
  obtain ⟨t, ht, hsh, -, hr⟩ := get_called h
  have hset := scoped_setPhase hn p
  unfold Allows at *
  simp only [ht, hsh, Family.total_append, Family.total_cons, Family.total_nil, add_zero]
  omega

theorem Allows.push (hA : Allows maxThreads s) {x : Op} (hx : x.scoped = 0) :
    Allows maxThreads { s with ops := s.ops ++ [x] } := by
  unfold Allows at *
  simpa [hx] using hA

theorem Allows.set (hA : Allows maxThreads s) (hn : s.ops[n]? = some op)
    (hs : ({ op with phase := p } : Op).scoped = op.scoped) (consumables : List Apply.Consumable) :
    Allows maxThreads { s.setPhase n op p with consumables := consumables } := by
  have hset := scoped_setPhase hn p
  unfold Allows at *
  simp only []
  change s.pool.shared.maxThreads + Family.total raises s.pool.threads = _
  omega

theorem OpStep.allows (h : OpStep s n op s') (hA : Allows maxThreads s) (hn : s.ops[n]? = some op) :
    Allows maxThreads s' := by
  have hlt := (List.getElem?_eq_some_iff.mp hn).1
  cases h with
  | moves h => exact hA.set hn h.quiet.2.2 _
  | apply times hp => exact hA.set hn (by simp [Op.scoped, hp]) _
  | consume hp =>
    refine hA.set hn ?_ _
    split <;> simp [Op.scoped, hp]
  | complete hp => exact hA.set hn (by simp [Op.scoped, hp]) _
  | block hp _ hin hpool | unblock hp _ hin hpool => exact hA.call hn hpool (by simp [Op.scoped, raised, hp, hin])
  | @async k i times _ _ hp _ hpool =>
    have := hA.call (p := .async k i times s.pool.threads.length) hn hpool (by simp [Op.scoped, raised, hp])
    exact this.push rfl

/-! ## The system -/

end

/-- The pool has a worker for each of its operations, as far as it is up to `schedule`. -/
def enoughTakers (c : Config System Unit) : Label Choice → Bool
  | .call (.pool l) => Threadpool.countsOnTakers c.shared.pool l
  | _ => true

section
variable {maxThreads : Int} {s s' : System}

theorem Inv.stepPool (hI : Inv maxThreads s) {l : Label Threadpool.Choice}
    (hC : Threadpool.countsOnTakers s.pool l = true) (h : s.stepPool l = some s') : Inv maxThreads s' := by
  cases l with
  | call e => cases h
  | act k e =>
    simp only [System.stepPool] at h
    split at h
    next hgo =>
      simp only [Option.map_eq_some_iff] at h
      obtain ⟨pool, hn, rfl⟩ := h
      exact ⟨hI.counts.withPool pool, hI.placed.act hC hgo hn, hI.allows.act hn⟩
    · cases h

theorem Inv.execute (hI : Inv maxThreads s) {priority : Threadpool.Priority}
    (h : s.submit none priority (fun _ => s) = some s') : Inv maxThreads s' := by
  obtain ⟨pool, hn, rfl⟩ := callPool_some h
  refine ⟨hI.counts.execute.withPool pool, hI.placed.submit none hn, ?_⟩
  obtain ⟨t, ht, hsh, -, hr⟩ := get_called hn
  have hA := hI.allows
  unfold Allows at *
  simpa [ht, hsh, hr, raised, Op.scoped] using hA

theorem Inv.apply (hI : Inv maxThreads s) (times : Nat) : Inv maxThreads { s with
    ops := s.ops ++ [⟨false, none, .loop s.consumables.length 0 times⟩]
    consumables := s.consumables ++ [⟨times, false⟩] } := by
  refine ⟨hI.counts.outside times, hI.placed.push rfl rfl _, ?_⟩
  exact hI.allows.push rfl

theorem op_step {n : Nat} {e : Statement} (h : s.step (.op n e) = some s') :
    ∃ op, s.ops[n]? = some op ∧ (op.inPool = true → s.executing n = true) ∧ OpStep s n op s' := by
  obtain ⟨op, hn, h⟩ := Option.bind_eq_some_iff.mp h
  split at h
  · cases h
  next hx => exact ⟨op, hn, by simpa using hx, stepOp_step h⟩

theorem Inv.step (hI : Inv maxThreads s) {e : Choice} (hC : enoughTakers ⟨s, []⟩ (.call e) = true)
    (h : s.step e = some s') : Inv maxThreads s' := by
  cases e with
  | pool l => exact hI.stepPool hC h
  | execute priority => exact hI.execute h
  | apply times =>
    cases h
    exact hI.apply times
  | op n e =>
    obtain ⟨op, hn, hrun, h⟩ := op_step h
    exact ⟨h.counts hI.counts hn, h.placed hI.placed hn hrun, h.allows hI.allows hn⟩

theorem run_inv {tr : List (Config System Unit × Label Choice)} {c : Config System Unit}
    (h : system.Run (initial maxThreads) tr c) (hC : Program.Along (fun c l => enoughTakers c l = true) tr) :
    Inv maxThreads c.shared := by
  refine h.invariant_by (C := fun c l => enoughTakers c l = true) (I := fun c => Inv maxThreads c.shared) initial_inv
    ?_ ?_ hC
  · intro c e s' new hI hk hc
    simp only [system, Option.map_eq_some_iff, Prod.mk.injEq] at hc
    obtain ⟨s₁, hs, rfl, -⟩ := hc
    exact hI.step hk hs
  · intro c i e t s' t' new _ _ _ ha
    cases ha

end

end Xdispatch.NestedApply
