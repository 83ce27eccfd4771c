import Xdispatch.Lib.Batches
import Xdispatch.ManualThread.Invariant

/-!
# The order of the operations

`run` swaps `m_queued_ops` into its batch and goes through the batch before it
looks at anything else. So operations start in the order in which `execute` has
appended them, whenever `cancel` comes; here `run` resets `m_cancelled` in a step
of its own after it has left the loop. Only an exception loses operations, the
rest of its batch.
-/

namespace Xdispatch.ManualThread

open OperationQueue (operationQueue)

/-- The thread that calls `exec`, which `reset`s `m_cancelled` when `run` has left its loop. -/
inductive Runner where
  | of (d : Driver)
  | reset
  deriving DecidableEq

def Runner.act (s : Shared) : Runner → Choice → Option (Shared × Runner)
  | .of .test, .step => some (s, if s.cancelled then .reset else .of .take)
  | .reset, .step => some ({ s with cancelled := false }, .of .outside)
  | .of d, e => (d.act s e).map fun r => (r.1, .of r.2)
  | .reset, _ => none

def stepwise : Program Shared Runner Choice where
  call s e := (call s e).map fun r => (r.1, r.2.map .of)
  act s r e := (r.act s e).map fun p => (p.1, p.2, [])

def start : Config Shared Runner := ⟨initial.shared, [.of .outside]⟩

/-! ## The runs of the manual thread -/

def stepped (c : Config Shared Driver) : Config Shared Runner := ⟨c.shared, c.threads.map .of⟩

theorem Runner.act_of {s s' : Shared} {d d' : Driver} {e : Choice} (h : d.act s e = some (s', d')) :
    (Runner.of d).act s e = some (s', .of d') ∨
      (Runner.of d).act s e = some (s, .reset) ∧ Runner.reset.act s .step = some (s', .of d') := by
  cases d with
  | test =>
    cases e with
    | step =>
      simp only [Driver.act, Option.some.injEq] at h
      by_cases hc : s.cancelled = true
      · rw [if_pos hc] at h
        cases h
        exact Or.inr ⟨by rw [Runner.act, if_pos hc], rfl⟩
      · rw [if_neg hc] at h
        cases h
        exact Or.inl (by rw [Runner.act, if_neg hc])
    | _ => cases h
  | _ => exact Or.inl (by simp [Runner.act, h])

theorem next_stepped {c c' : Config Shared Driver} {l : Label Choice} (h : manualThread.next c l = some c') :
    ∃ tr, stepwise.Run (stepped c) tr (stepped c') := by
  cases l with
  | call e =>
    obtain ⟨s, new, hc, rfl⟩ := Program.next_call h
    have hc' : call c.shared e = some (s, new) := hc
    have hn : stepwise.next (stepped c) (.call e) = some (stepped ⟨s, c.threads ++ new⟩) := by
      simp [Program.next, stepwise, stepped, hc']
    exact ⟨_, Program.Run.nil.snoc hn⟩
  | act i e =>
    obtain ⟨d, s, d', new, hd, ha, rfl⟩ := Program.next_act h
    simp only [manualThread, Option.map_eq_some_iff, Prod.mk.injEq] at ha
    obtain ⟨⟨s₁, d₁⟩, ha, rfl, rfl, rfl⟩ := ha
    have hr : (stepped c).threads[i]? = some (.of d) := by simp [stepped, hd]
    have hend : stepped ⟨s₁, c.threads.set i d₁ ++ []⟩ = ⟨s₁, (stepped c).threads.set i (.of d₁) ++ []⟩ := by
      simp [stepped, List.map_set]
    have hact : ∀ {r : Runner} {s s' : Shared} {r' : Runner} {e : Choice}, r.act s e = some (s', r') →
        stepwise.act s r e = some (s', r', []) := fun h => by simp [stepwise, h]
    rw [hend]
    rcases Runner.act_of ha with ha | ⟨ha, hreset⟩
    · exact ⟨_, Program.Run.nil.snoc (Program.act_next hr (hact ha))⟩
    · have hnext := Program.act_next (P := stepwise) (c := stepped c) hr (hact ha)
      have hr' := Family.get_step hr Runner.reset []
      have hnext' := Program.act_next (P := stepwise) (c := ⟨c.shared, _⟩) hr' (hact hreset)
      have hset : ((stepped c).threads.set i .reset ++ []).set i (.of d₁) ++ [] =
          (stepped c).threads.set i (.of d₁) ++ [] := by simp
      rw [hset] at hnext'
      exact ⟨_, (Program.Run.nil.snoc hnext).snoc hnext'⟩

/-- The runs of the manual thread are among those in which `m_cancelled` is reset in a step of its own. -/
theorem run_stepped {tr : List (Config Shared Driver × Label Choice)} {c : Config Shared Driver}
    (h : manualThread.Run initial tr c) : ∃ tr', stepwise.Run start tr' (stepped c) := by
  induction h with
  | nil => exact ⟨[], .nil⟩
  | snoc _ hn ih =>
    obtain ⟨tr', hr⟩ := ih
    obtain ⟨tr'', hr'⟩ := next_stepped hn
    exact ⟨_, hr.append hr'⟩

/-! ## What has been appended and started -/

/-- The wakeups that a step of thread `n` of the queue hands to `execute`. -/
def posted (s : Shared) (n : Nat) (e : OperationQueue.Choice) : List Work :=
  match operationQueue.next s.queue (.act n e) with
  | some q => (List.range' s.queue.threads.length (q.threads.length - s.queue.threads.length)).map .drain
  | none => []

/-- What a call of somebody else hands to `execute`. -/
def Choice.appends (s : Shared) : Choice → List Work
  | .execute id => [.other id]
  | .caller n => posted s n .step
  | _ => []

/-- What an operation that `run` is executing hands to `execute`. -/
def Runner.appends (s : Shared) : Runner → Choice → List Work
  | .of (.running (.drain n) _ _), .step => posted s n .step
  | .of (.running (.drain n) _ _), .throw => posted s n .throw
  | .of (.running (.drain n) _ _), .async id => posted s n (.async (some id))
  | _, _ => []

/-- The operation that `run` takes from its batch. -/
def Runner.starts : Runner → Choice → List Work
  | .of (.next (op :: _)), .step => [op]
  | _, _ => []

def appends : Config Shared Runner × Label Choice → List Work
  | (c, .call e) => e.appends c.shared
  | (c, .act i e) => (c.threads[i]?.map (Runner.appends c.shared · e)).getD []

def starts : Config Shared Runner × Label Choice → List Work
  | (_, .call _) => []
  | (c, .act i e) => (c.threads[i]?.map (Runner.starts · e)).getD []

def appended (tr : List (Config Shared Runner × Label Choice)) : List Work := tr.flatMap appends

def started (tr : List (Config Shared Runner × Label Choice)) : List Work := tr.flatMap starts

/-- The rest of the batch. -/
def Runner.activeOps : Runner → List Work
  | .of d => d.activeOps
  | .reset => []

def activeOps (c : Config Shared Runner) : List Work := c.threads.flatMap Runner.activeOps

def batches (tr : List (Config Shared Runner × Label Choice)) (c : Config Shared Runner) : Batches Work :=
  ⟨appended tr, c.shared.queuedOps, activeOps c, started tr, c.shared.dropped⟩

/-! ## Steps -/

inductive Runner.Moves (s : Shared) : Runner → Choice → Shared → Runner → Prop
  | of {d e s' d'} : Step s d e s' d' → Moves s (.of d) e s' (.of d')
  | leave : s.cancelled = true → Moves s (.of .test) .step s .reset
  | reset : Moves s .reset .step { s with cancelled := false } (.of .outside)

section
variable {s s' : Shared} {d d' : Driver} {r r' : Runner} {e : Choice}

theorem Runner.moves (h : r.act s e = some (s', r')) : r.Moves s e s' r' := by
  have other : ∀ d : Driver, (d.act s e).map (fun r => (r.1, Runner.of r.2)) = some (s', r') →
      (Runner.of d).Moves s e s' r' := by
    intro d h
    simp only [Option.map_eq_some_iff, Prod.mk.injEq] at h
    obtain ⟨⟨s₁, d'⟩, ha, rfl, rfl⟩ := h
    exact .of (act_step ha)
  cases r with
  | reset =>
    cases e <;> cases h
    exact .reset
  | of d =>
    cases d with
    | test =>
      cases e with
      | step =>
        cases h
        by_cases hc : s.cancelled = true
        · rw [if_pos hc]
          exact .leave hc
        · rw [if_neg hc]
          exact .of (.go (by simpa using hc))
      | _ => exact other _ h
    | _ => exact other _ h

theorem advance_posted {n : Nat} {e : OperationQueue.Choice} (h : s.advance n e = some s') :
    s'.queuedOps = s.queuedOps ++ posted s n e ∧ s'.dropped = s.dropped := by
  simp only [Shared.advance, Option.map_eq_some_iff] at h
  obtain ⟨q, hq, rfl⟩ := h
  simp [posted, hq, Shared.execute]

theorem posted_of_returned {n : Nat} {e : OperationQueue.Choice} (h : s.returned n = true) : posted s n e = [] := by
  have hn : operationQueue.next s.queue (.act n e) = none := by
    have ha : operationQueue.act s.queue.shared .returned e = none := rfl
    simp [Program.next, returned_iff.mp h, ha]
  simp [posted, hn]

theorem Called.appends (h : Called s e s') : s'.queuedOps = s.queuedOps ++ e.appends s ∧ s'.dropped = s.dropped := by
  cases h with
  | async | cancel => exact ⟨(List.append_nil _).symm, rfl⟩
  | caller _ hs => exact advance_posted hs
  | execute => exact ⟨rfl, rfl⟩

def Runner.batches (s : Shared) (r : Runner) (appended started : List Work) : Batches Work :=
  ⟨appended, s.queuedOps, r.activeOps, started, s.dropped⟩

variable {appended started : List Work}

theorem advance_batches {n : Nat} {ops : List Work} {thrown thrown' : Bool} {k : OperationQueue.Choice}
    (h : s.advance n k = some s') :
    Batches.Step (Runner.batches s (.of (.running (.drain n) ops thrown)) appended started)
      (Runner.batches s' (.of (.running (.drain n) ops thrown')) (appended ++ posted s n k) started) := by
  obtain ⟨hq, hd⟩ := advance_posted h
  unfold Runner.batches
  rw [hq, hd]
  exact .append _ (posted s n k)

theorem Runner.Moves.batches (h : r.Moves s e s' r') : Relation.ReflTransGen Batches.Step (r.batches s appended started)
    (r'.batches s' (appended ++ r.appends s e) (started ++ r.starts e)) := by
  have quiet : r.appends s e = [] → r.starts e = [] →
      Relation.ReflTransGen Batches.Step (r.batches s appended started) (r'.batches s' appended started) →
      Relation.ReflTransGen Batches.Step (r.batches s appended started)
        (r'.batches s' (appended ++ r.appends s e) (started ++ r.starts e)) := by
    intro he hs h
    rwa [he, hs, List.append_nil, List.append_nil]
  cases h with
  | leave | reset => exact quiet rfl rfl .refl
  | of h =>
    cases h with
    | exec | stop | go | wait | loop | other => exact quiet rfl rfl .refl
    | drained hr => exact quiet (posted_of_returned hr) rfl .refl
    | swap hd => rcases hd with ⟨rfl, -⟩ | ⟨seen, rfl⟩ <;> exact quiet rfl rfl (.single (.take _ rfl))
    | @begin op ops =>
      have he : (Runner.of (.next (op :: ops))).appends s .step = [] := rfl
      rw [he, List.append_nil]
      exact .single (.start _ op ops rfl)
    | throw => exact quiet rfl rfl (.single (.drop _))
    | leave hr => exact quiet (posted_of_returned hr) rfl (.single (.drop _))
    | @advance n ops thrown _ _ hs =>
      have hst : (Runner.of (.running (.drain n) ops thrown)).starts .step = [] := rfl
      rw [hst, List.append_nil]
      exact .single (advance_batches hs)
    | @unwind n ops thrown _ hs =>
      have hst : (Runner.of (.running (.drain n) ops thrown)).starts .throw = [] := rfl
      rw [hst, List.append_nil]
      exact .single (advance_batches hs)
    | @deadlock n ops thrown id _ hs =>
      have hst : (Runner.of (.running (.drain n) ops thrown)).starts (.async id) = [] := rfl
      rw [hst, List.append_nil]
      exact .single (advance_batches hs)

end

/-! ## Runs -/

section
variable {tr : List (Config Shared Runner × Label Choice)} {c c' : Config Shared Runner} {l : Label Choice} {r : Runner}

theorem act_moves {s s' : Shared} {r' : Runner} {new : List Runner} {e : Choice}
    (h : stepwise.act s r e = some (s', r', new)) : r.Moves s e s' r' ∧ new = [] := by
  simp only [stepwise, Option.map_eq_some_iff, Prod.mk.injEq] at h
  obtain ⟨⟨s₁, r₁⟩, ha, rfl, rfl, rfl⟩ := h
  exact ⟨Runner.moves ha, rfl⟩

theorem stepwise_called {s s' : Shared} {new : List Runner} {e : Choice} (h : stepwise.call s e = some (s', new)) :
    Called s e s' ∧ new = [] := by
  simp only [stepwise, Option.map_eq_some_iff, Prod.mk.injEq] at h
  obtain ⟨⟨s₁, new₁⟩, hc, rfl, rfl⟩ := h
  obtain ⟨hcalled, rfl⟩ := call_called hc
  exact ⟨hcalled, rfl⟩

/-- There is one thread that calls `exec`, and it takes every step that is not a call. -/
theorem next_moves (ht : c.threads = [r]) (h : stepwise.next c l = some c') :
    (∃ e r', l = .act 0 e ∧ r.Moves c.shared e c'.shared r' ∧ c'.threads = [r']) ∨
      ∃ e, l = .call e ∧ Called c.shared e c'.shared ∧ c'.threads = [r] := by
  rcases Program.next_single ht h with ⟨e, r', new, rfl, ha, ht'⟩ | ⟨e, new, rfl, hc, ht'⟩
  · obtain ⟨hm, rfl⟩ := act_moves ha
    exact Or.inl ⟨e, r', rfl, hm, ht'⟩
  · obtain ⟨hcalled, rfl⟩ := stepwise_called hc
    exact Or.inr ⟨e, rfl, hcalled, ht'⟩

theorem next_batches (ht : c.threads = [r]) (h : stepwise.next c l = some c') :
    Relation.ReflTransGen Batches.Step (batches tr c) (batches (tr ++ [(c, l)]) c') := by
  have ha : appended (tr ++ [(c, l)]) = appended tr ++ appends (c, l) := by simp [appended]
  have hs : started (tr ++ [(c, l)]) = started tr ++ starts (c, l) := by simp [started]
  have hops : ∀ {c : Config Shared Runner} {r : Runner}, c.threads = [r] → activeOps c = r.activeOps := by
    intro c r ht
    simp [activeOps, ht]
  unfold batches
  rw [ha, hs, hops ht]
  rcases next_moves ht h with ⟨e, r', rfl, hm, ht'⟩ | ⟨e, rfl, hc, ht'⟩
  · have he : appends (c, .act 0 e) = r.appends c.shared e := by simp [appends, ht]
    have hst : starts (c, .act 0 e) = r.starts e := by simp [starts, ht]
    rw [he, hst, hops ht']
    exact hm.batches
  · obtain ⟨hq, hd⟩ := hc.appends
    rw [hops ht', hq, hd, show starts (c, .call e) = [] from rfl, List.append_nil]
    exact .single (.append _ (e.appends c.shared))

theorem run_threads (h : stepwise.Run start tr c) : ∃ r, c.threads = [r] := by
  induction h with
  | nil => exact ⟨_, rfl⟩
  | snoc _ hn ih =>
    obtain ⟨r, ht⟩ := ih
    rcases next_moves ht hn with ⟨e, r', -, -, ht'⟩ | ⟨e, -, -, ht'⟩
    · exact ⟨r', ht'⟩
    · exact ⟨r, ht'⟩

/-- Every run takes its operations in batches, exceptions included. -/
theorem run_batches (h : stepwise.Run start tr c) : Batches.Reachable (batches tr c) := by
  induction h with
  | nil => exact .refl
  | snoc hr hn ih =>
    obtain ⟨r, ht⟩ := run_threads hr
    exact ih.trans (next_batches ht hn)

/-- An exception drops the rest of its batch. Everything else that is gone has been started, in order. -/
theorem run_taken (h : stepwise.Run start tr c) : ∃ gone, appended tr = gone ++ activeOps c ++ c.shared.queuedOps ∧
    (started tr).Sublist gone ∧ gone.Perm (started tr ++ c.shared.dropped) := by
  obtain ⟨gone, hkept, horder, honce⟩ := (run_batches h).taken
  exact ⟨gone, hkept, horder, honce⟩

/-! ## Without exceptions -/

def throws : Label Choice → Bool
  | .act _ .throw => true
  | _ => false

/-- An exception is leaving the operation. -/
def Runner.thrown : Runner → Bool
  | .of (.running _ _ thrown) => thrown
  | _ => false

structure Smooth (c : Config Shared Runner) : Prop where
  not_dropped : c.shared.dropped = []
  not_thrown : ∀ r ∈ c.threads, r.thrown = false

theorem Runner.Moves.smooth {s s' : Shared} {r' : Runner} {e : Choice} (h : r.Moves s e s' r') (he : e ≠ .throw)
    (hr : r.thrown = false) : s'.dropped = s.dropped ∧ r'.thrown = false := by
  cases h with
  | leave | reset => exact ⟨rfl, rfl⟩
  | of h =>
    cases h with
    | throw | unwind => exact absurd rfl he
    | leave => cases hr
    | advance _ hs | deadlock hs => exact ⟨(advance_posted hs).2, hr⟩
    | _ => exact ⟨rfl, rfl⟩

theorem next_smooth (ht : c.threads = [r]) (hS : Smooth c) (hl : throws l = false) (h : stepwise.next c l = some c') :
    Smooth c' := by
  have hr : r.thrown = false := hS.not_thrown r (by simp [ht])
  rcases next_moves ht h with ⟨e, r', rfl, hm, ht'⟩ | ⟨e, rfl, hc, ht'⟩
  · have he : e ≠ .throw := by
      rintro rfl
      cases hl
    obtain ⟨hd, hr'⟩ := hm.smooth he hr
    exact ⟨hd.trans hS.not_dropped, by simpa [ht'] using hr'⟩
  · exact ⟨hc.appends.2.trans hS.not_dropped, by simpa [ht'] using hr⟩

theorem run_smooth (h : stepwise.Run start tr c) (hT : Program.Along (fun _ l => throws l = false) tr) : Smooth c := by
  induction h with
  | nil => exact ⟨rfl, by simp [start, Runner.thrown]⟩
  | snoc hr hn ih =>
    obtain ⟨hT, hl⟩ := Program.along_snoc.mp hT
    obtain ⟨r, ht⟩ := run_threads hr
    exact next_smooth ht (ih hT) hl hn

/-- Operations start in the order in which they were appended, each once, and the others are still in
`m_queued_ops` or in the batch. -/
structure Fifo (tr : List (Config Shared Runner × Label Choice)) (c : Config Shared Runner) : Prop where
  order : started tr <+: appended tr
  once : ∀ op, (started tr).count op ≤ (appended tr).count op
  kept : appended tr = started tr ++ activeOps c ++ c.shared.queuedOps

/-- **First in, first out.** In every run in which no operation throws, with calls of `execute` and `cancel` at
any time, and `exec` called again after a return. -/
theorem run_fifo (h : stepwise.Run start tr c) (hT : Program.Along (fun _ l => throws l = false) tr) : Fifo tr c := by
  have hB := run_batches h
  have hd := (run_smooth h hT).not_dropped
  have horder := hB.started_prefix hd
  exact ⟨horder, fun op => horder.sublist.count_le op, hB.kept hd⟩

end

/-- An operation is executed from within another one. `cancel` comes during the batch, and again before
`m_cancelled` is reset; the next `exec` takes what has come in between. -/
def twice : List (Label Choice) :=
  Label.call (.execute 0) :: Label.act 0 .exec :: List.replicate 3 (.act 0 .step) ++
    [Label.call (.execute 1), .call .cancel] ++ List.replicate 3 (.act 0 .step) ++
    [Label.call (.execute 2), .call .cancel, .act 0 .step, .act 0 .exec] ++ List.replicate 3 (.act 0 .step)

theorem run_fifo_twice : Fifo (stepwise.path start twice) (stepwise.last start twice) ∧
    started (stepwise.path start twice) = [.other 0, .other 1] ∧
    activeOps (stepwise.last start twice) = [.other 2] :=
  ⟨run_fifo (Program.run_last (by decide)) (by decide), by decide, by decide⟩

end Xdispatch.ManualThread
