import Xdispatch.Threadpool.Model

/-!
# Steps of the pool

What a step of a worker or of a call can do, each with a name of its own.
-/

namespace Xdispatch.Threadpool

/-! ## Moves of a worker -/

def nextBucket (label : Nat) : Nat := if label + 1 = bucketCount then 0 else label + 1

inductive Takes : Worker → Worker → Prop
  | tryAcquire : Takes .tryAcquire (.search 0)
  | spinAcquire : Takes .spinAcquire (.search 0)
  | waiting : Takes .waiting .woken
  | recover : Takes .recover .recovered

inductive Misses : Worker → Worker → Prop
  | tryAcquire : Misses .tryAcquire .spinAcquire
  | waiting : Misses .waiting .expired
  | recover : Misses .recover .exiting

/-- Everything a step of a worker can do. -/
inductive Moves (s : Shared) : Worker → Shared → Worker → Prop
  | loop : s.cancelled = false → Moves s .loop s .tryAcquire
  | leave : s.cancelled = true → Moves s .loop s .exiting
  | take {w w'} : Takes w w' → 0 < s.tokens → Moves s w { s with tokens := s.tokens - 1 } w'
  | miss {w w'} : Misses w w' → s.tokens = 0 → Moves s w s w'
  | giveUp : Moves s .spinAcquire s .idle
  | idle : Moves s .idle { s with idleThreads := s.idleThreads + 1 } .waiting
  | woken : Moves s .woken { s with idleThreads := s.idleThreads - 1 } (.search 0)
  | expired : Moves s .expired { s with idleThreads := s.idleThreads - 1 } .expiredActive
  | expiredActive : Moves s .expiredActive { s with activeThreads := s.activeThreads - 1 } .recover
  | recovered : Moves s .recovered { s with activeThreads := s.activeThreads + 1 } (.search 0)
  | found {label} : s.cancelled = false → Moves s (.search label) s (.dequeue label)
  | asserts {label} : s.cancelled = true → Moves s (.search label) (s.assert false) .loop
  | missed {label} : Moves s (.dequeue label) s (.search (nextBucket label))
  | null {label k} : s.operations[k]? = some (label, none) →
      Moves s (.dequeue label) { s with operations := s.operations.eraseIdx k } (.search (nextBucket label))
  | dequeue {label op k} : s.operations[k]? = some (label, some op) →
      Moves s (.dequeue label) { s with operations := s.operations.eraseIdx k } (.executing op)
  | executed {op} : Moves s (.executing op) s .loop
  | exit : Moves s .exiting s .exited

section
variable {s s' : Shared} {w w' : Worker} {e : Choice}

theorem acquire_some {v : Worker} (h : s.acquire v = some (s', w')) :
    0 < s.tokens ∧ s' = { s with tokens := s.tokens - 1 } ∧ w' = v := by
  unfold Shared.acquire at h
  split at h
  · cases h
  · cases h
    exact ⟨by omega, rfl, rfl⟩

theorem tryAcquire_cases (s : Shared) (v v' : Worker) :
    0 < s.tokens ∧ s.tryAcquire v v' = ({ s with tokens := s.tokens - 1 }, v) ∨
      s.tokens = 0 ∧ s.tryAcquire v v' = (s, v') := by
  unfold Shared.tryAcquire Shared.acquire
  split
  · exact Or.inr ⟨by assumption, rfl⟩
  · exact Or.inl ⟨by omega, rfl⟩

theorem moves_of_acquire {v : Worker} (h : s.acquire v = some (s', w')) (ht : Takes w v) : Moves s w s' w' := by
  obtain ⟨h0, rfl, rfl⟩ := acquire_some h
  exact .take ht h0

theorem moves_of_tryAcquire {v v' : Worker} (h : some (s.tryAcquire v v') = some (s', w')) (ht : Takes w v)
    (hm : Misses w v') : Moves s w s' w' := by
  rcases tryAcquire_cases s v v' with ⟨h0, heq⟩ | ⟨h0, heq⟩
  · rw [heq] at h
    cases h
    exact .take ht h0
  · rw [heq] at h
    cases h
    exact .miss hm h0

theorem moves_of_dequeue {label k : Nat} (h : (Worker.dequeue label).act s (.dequeue k) = some (s', w')) :
    Moves s (.dequeue label) s' w' := by
  simp only [Worker.act] at h
  split at h
  next bucket op hk =>
    split at h
    next => cases h
    next hb =>
      rw [not_not] at hb
      subst hb
      cases h
      cases op with
      | none => exact .null hk
      | some op => exact .dequeue hk
  next => cases h

theorem moves_of_act (h : w.act s e = some (s', w')) : Moves s w s' w' := by
  cases w with
  | loop =>
    cases e <;> cases h
    by_cases hc : s.cancelled = true
    · rw [if_pos hc]
      exact .leave hc
    · rw [if_neg hc]
      exact .loop (by simpa using hc)
  | tryAcquire =>
    cases e with
    | step => exact moves_of_tryAcquire h .tryAcquire .tryAcquire
    | _ => cases h
  | spinAcquire =>
    cases e with
    | step => exact moves_of_acquire h .spinAcquire
    | giveUp =>
      cases h
      exact .giveUp
    | _ => cases h
  | idle =>
    cases e <;> cases h
    exact .idle
  | waiting =>
    cases e with
    | step => exact moves_of_acquire h .waiting
    | timeout => exact moves_of_tryAcquire h .waiting .waiting
    | _ => cases h
  | woken =>
    cases e <;> cases h
    exact .woken
  | expired =>
    cases e <;> cases h
    exact .expired
  | expiredActive =>
    cases e <;> cases h
    exact .expiredActive
  | recover =>
    cases e with
    | step => exact moves_of_tryAcquire h .recover .recover
    | _ => cases h
  | recovered =>
    cases e <;> cases h
    exact .recovered
  | search label =>
    cases e with
    | step =>
      simp only [Worker.act] at h
      split at h
      next hc =>
        cases h
        exact .asserts hc
      next hc =>
        cases h
        exact .found (by simpa using hc)
    | _ => cases h
  | dequeue label =>
    cases e with
    | step =>
      cases h
      exact .missed
    | dequeue k => exact moves_of_dequeue h
    | _ => cases h
  | executing op =>
    cases e <;> cases h
    exact .executed
  | exiting =>
    cases e <;> cases h
    exact .exit
  | exited => cases e <;> cases h

end

/-! ## Steps of a thread -/

/-- Everything a step of a thread can do. -/
inductive Step (s : Shared) : Thread → Shared → Thread → List Thread → Prop
  | worker {w s' w'} : Moves s w s' w' → Step s (.worker w) s' (.worker w') []
  | enqueue {bucket op} : Step s (.enqueue bucket op) { s with operations := s.operations ++ [(bucket, op)] } .release []
  | release : Step s .release { s with tokens := s.tokens + 1 } .loadActive []
  | blocked : Step s .blocked { s with maxThreads := s.maxThreads + 1 } .loadActive []
  | unblocked : Step s .unblocked { s with maxThreads := s.maxThreads - 1 } .returned []
  | loadActive : Step s .loadActive s (.loadIdle s.activeThreads) []
  | loadIdle {active} : Step s (.loadIdle active)
      (s.assert (0 ≤ s.idleThreads && 0 ≤ active && s.idleThreads ≤ active))
      (if 0 < s.idleThreads then .returned else .loadMax active) []
  | loadMax {active} : Step s (.loadMax active) s (if active < s.maxThreads then .spawn else .returned) []
  | spawn : Step s .spawn s .countActive [.worker .loop]
  | countActive : Step s .countActive { s with activeThreads := s.activeThreads + 1 } .returned []
  | cancel : Step s .cancel { s with cancelled := true } .loadCount []
  | loadCount : Step s .loadCount s (.releaseAll s.activeThreads) []
  | releaseAll {count} : Step s (.releaseAll count)
      (({ s with tokens := s.tokens + count.toNat }).assert (0 < count)) .returned []

section
variable {s s' : Shared} {w : Worker} {t t' : Thread} {new : List Thread} {e : Choice}

theorem act_of_worker (h : act s (.worker w) e = some (s', t', new)) :
    ∃ w', w.act s e = some (s', w') ∧ t' = .worker w' ∧ new = [] := by
  simp only [act, Option.map_eq_some_iff, Prod.mk.injEq] at h
  obtain ⟨⟨s₁, w'⟩, h, rfl, rfl, rfl⟩ := h
  exact ⟨w', h, rfl, rfl⟩

theorem act_step (h : act s t e = some (s', t', new)) : Step s t s' t' new := by
  cases t with
  | worker w =>
    obtain ⟨w', hw, rfl, rfl⟩ := act_of_worker h
    exact .worker (moves_of_act hw)
  | enqueue bucket op =>
    cases e <;> cases h
    exact .enqueue
  | release =>
    cases e <;> cases h
    exact .release
  | blocked =>
    cases e <;> cases h
    exact .blocked
  | unblocked =>
    cases e <;> cases h
    exact .unblocked
  | loadActive =>
    cases e <;> cases h
    exact .loadActive
  | loadIdle active =>
    cases e <;> cases h
    exact .loadIdle
  | loadMax active =>
    cases e <;> cases h
    exact .loadMax
  | spawn =>
    cases e <;> cases h
    exact .spawn
  | countActive =>
    cases e <;> cases h
    exact .countActive
  | cancel =>
    cases e <;> cases h
    exact .cancel
  | loadCount =>
    cases e <;> cases h
    exact .loadCount
  | releaseAll count =>
    cases e <;> cases h
    exact .releaseAll
  | returned => cases e <;> cases h

end

end Xdispatch.Threadpool
