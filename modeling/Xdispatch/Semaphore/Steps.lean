import Xdispatch.Semaphore.Model

/-!
# What a call on a semaphore can do

A step of `try_acquire` takes a token, or tests the value that it has read: both
the load and a failed compare-exchange read the counter as it is. The steps of
the other calls are those of a `try_acquire`, or one access to `m_waiters`, the
mutex or the condition variable.
-/

namespace Xdispatch.Semaphore

inductive Try.Step (s : Shared) (p : Try) : Shared → Bool ⊕ Try → Prop
  | takes : p = .exchange s.count → Step s p { s with count := s.count - 1 } (.inl true)
  | tests : Step s p (s.test s.count).1 (s.test s.count).2

inductive SpinPhase.Step (s : Shared) (spins : Int) : SpinPhase → Shared → SpinPhase → Prop
  | tries {s' : Shared} {p : Try} {r : Bool ⊕ Try} (i : Int) : p.Step s s' r →
      Step s spins (.try i p) s' (r.elim (fun r => if r then .returned true else .relax i) (.try i))
  | relaxes (i : Int) : Step s spins (.relax i) s (if s.count = 0 ∧ i < spins then .relax (i + 1) else .loop spins (i + 1))

inductive WaitPhase.Step (s : Shared) : WaitPhase → Shared → WaitPhase → Prop
  | first {s' : Shared} {p : Try} {r : Bool ⊕ Try} : p.Step s s' r →
      Step s (.first p) s' (r.elim (fun r => if r then .returned true else .lock) .first)
  | locks : s.locked = false → Step s .lock { s with locked := true } (.second .load)
  | second {s' : Shared} {p : Try} {r : Bool ⊕ Try} : p.Step s s' r →
      Step s (.second p) s' (r.elim (fun r => if r then .unlock true else .enter) .second)
  | enters : Step s .enter { s with waiters := s.waiters + 1 } (.predicate .load false false)
  | predicate {s' : Shared} {p : Try} {r : Bool ⊕ Try} (notified late : Bool) : p.Step s s' r →
      Step s (.predicate p notified late) s'
        (r.elim (fun r => if r then .leave true else if late then .leave false else .block) (.predicate · notified late))
  | blocks : Step s .block
      { s with locked := false, waitSet := s.waitSet ++ [s.tickets], tickets := s.tickets + 1 } (.blocked s.tickets)
  | wakes (k : Nat) (late : Bool) : Step s (.blocked k) (s.wake k late).1 (s.wake k late).2
  | relocks (notified late : Bool) : s.locked = false →
      Step s (.relock notified late) { s with locked := true } (.predicate .load notified late)
  | leaves (r : Bool) : Step s (.leave r) { s with waiters := s.waiters - 1 } (.unlock r)
  | unlocks (r : Bool) : Step s (.unlock r) { s with locked := false } (.returned r)

inductive ReleasePhase.Step (s : Shared) (count : Int) : ReleasePhase → Shared → ReleasePhase → Prop
  | adds : Step s count .add { s with count := s.count + count } .loadWaiters
  | finds : s.waiters ≠ 0 → Step s count .loadWaiters s .lock
  | skips : s.waiters = 0 → Step s count .loadWaiters s .returned
  | locks : s.locked = false → Step s count .lock { s with locked := true } .notify
  | picks (k : Nat) : count = 1 → k ∈ s.waitSet → Step s count .notify { s with waitSet := s.waitSet.erase k } .unlock
  | nobody : s.waitSet = [] → Step s count .notify s .unlock
  | all : count ≠ 1 → Step s count .notify { s with waitSet := [] } .unlock
  | unlocks : Step s count .unlock { s with locked := false } .returned

inductive Thread.Step (s : Shared) : Thread → Shared → Thread → Prop
  | tries {s' : Shared} {p : Try} {r : Bool ⊕ Try} : p.Step s s' r →
      Step s (.tryAcquire p) s' (r.elim .tried .tryAcquire)
  | spins {s' : Shared} {p p' : SpinPhase} (spins : Int) : p.Step s spins s' p' → Step s (.spin spins p) s' (.spin spins p')
  | waits {s' : Shared} {p p' : WaitPhase} : p.Step s s' p' → Step s (.wait p) s' (.wait p')
  | releases {s' : Shared} {p p' : ReleasePhase} (count : Int) : p.Step s count s' p' →
      Step s (.release count p) s' (.release count p')

section
variable {s s' : Shared} {e : Choice}

theorem Try.act_step {p : Try} {r : Bool ⊕ Try} (h : p.act s e = some (s', r)) : p.Step s s' r := by
  unfold Try.act at h
  split at h
  · cases h
    exact .tests
  next old =>
    split at h
    next ho =>
      subst ho
      cases h
      exact .takes rfl
    · cases h
      exact .tests
  · split at h
    · cases h
      exact .tests
    · cases h
  · cases h

theorem Try.within_step {π : Type} {p : Try} {inside : Try → π} {after : Bool → π} {x : π}
    (h : p.within s e inside after = some (s', x)) : ∃ r, p.Step s s' r ∧ x = r.elim after inside := by
  simp only [Try.within, Option.map_eq_some_iff, Prod.mk.injEq] at h
  obtain ⟨⟨s₁, r⟩, h, rfl, rfl⟩ := h
  exact ⟨r, Try.act_step h, rfl⟩

theorem SpinPhase.act_step {spins : Int} {p p' : SpinPhase} (h : p.act s spins e = some (s', p')) :
    p.Step s spins s' p' := by
  unfold SpinPhase.act at h
  split at h
  next i p =>
    obtain ⟨r, hr, rfl⟩ := Try.within_step h
    exact .tries i hr
  next i =>
    cases h
    exact .relaxes i
  · cases h

theorem WaitPhase.act_step {p p' : WaitPhase} (h : p.act s e = some (s', p')) : p.Step s s' p' := by
  unfold WaitPhase.act at h
  split at h
  · obtain ⟨r, hr, rfl⟩ := Try.within_step h
    exact .first hr
  · split at h <;> cases h
    next hl => exact .locks (by simpa using hl)
  · obtain ⟨r, hr, rfl⟩ := Try.within_step h
    exact .second hr
  · cases h
    exact .enters
  next notified late =>
    obtain ⟨r, hr, rfl⟩ := Try.within_step h
    exact .predicate notified late hr
  · cases h
    exact .blocks
  next k =>
    split at h <;> cases h
    exact .wakes k false
  next k =>
    cases h
    exact .wakes k false
  next k =>
    cases h
    exact .wakes k true
  next notified late =>
    split at h <;> cases h
    next hl => exact .relocks notified late (by simpa using hl)
  next r =>
    cases h
    exact .leaves r
  next r =>
    cases h
    exact .unlocks r
  · cases h

theorem ReleasePhase.act_step {count : Int} {p p' : ReleasePhase} (h : p.act s count e = some (s', p')) :
    p.Step s count s' p' := by
  unfold ReleasePhase.act at h
  split at h
  · cases h
    exact .adds
  · split at h <;> cases h
    next hw => exact .finds hw
    next hw => exact .skips (Classical.not_not.mp hw)
  · split at h <;> cases h
    next hl => exact .locks (by simpa using hl)
  next k =>
    split at h <;> cases h
    next hk => exact .picks k hk.1 hk.2
  · split at h
    · split at h <;> cases h
      next hw => exact .nobody hw
    next hc =>
      cases h
      exact .all hc
  · cases h
    exact .unlocks
  · cases h

theorem act_step {t t' : Thread} {new : List Thread} (h : semaphore.act s t e = some (s', t', new)) :
    new = [] ∧ t.Step s s' t' := by
  simp only [semaphore, Option.map_eq_some_iff, Prod.mk.injEq] at h
  obtain ⟨⟨s₁, t₁⟩, h, rfl, rfl, rfl⟩ := h
  refine ⟨rfl, ?_⟩
  unfold Thread.act at h
  split at h
  · obtain ⟨r, hr, rfl⟩ := Try.within_step h
    exact .tries hr
  · cases h
  next spins p =>
    simp only [Option.map_eq_some_iff, Prod.mk.injEq] at h
    obtain ⟨⟨s₂, p'⟩, h, rfl, rfl⟩ := h
    exact .spins spins (SpinPhase.act_step h)
  · simp only [Option.map_eq_some_iff, Prod.mk.injEq] at h
    obtain ⟨⟨s₂, p'⟩, h, rfl, rfl⟩ := h
    exact .waits (WaitPhase.act_step h)
  next count p =>
    simp only [Option.map_eq_some_iff, Prod.mk.injEq] at h
    obtain ⟨⟨s₂, p'⟩, h, rfl, rfl⟩ := h
    exact .releases count (ReleasePhase.act_step h)

theorem machine_act {t t' : Thread} {new : List Thread}
    (h : machine.act s t e = some (s', t', new)) :
    ∃ s₁, semaphore.act s t e = some (s₁, t', new) ∧ s' = { s₁ with count := toInt32 s₁.count } := by
  simp only [machine, Option.map_eq_some_iff, Prod.mk.injEq] at h
  obtain ⟨⟨s₁, u, new'⟩, h, rfl, rfl, rfl⟩ := h
  exact ⟨s₁, h, rfl⟩

/-- Where a thread that has just been started is. -/
def Thread.starting : Thread → Prop
  | .tryAcquire _ | .spin _ _ | .wait (.first _) | .release _ .add => True
  | _ => False

theorem call_starting {new : List Thread} (h : semaphore.call s e = some (s', new)) :
    (∃ a, s' = { s with asserted := a }) ∧ ∀ t ∈ new, t.starting := by
  simp only [semaphore, call] at h
  split at h
  · cases h
    exact ⟨⟨_, rfl⟩, by simp [Thread.starting]⟩
  · cases h
    exact ⟨⟨_, rfl⟩, by simp [Thread.starting]⟩
  · cases h
    exact ⟨⟨_, rfl⟩, by simp [Thread.starting]⟩
  · split at h <;> cases h
    · exact ⟨⟨_, rfl⟩, by simp [Thread.starting]⟩
    · exact ⟨⟨true, rfl⟩, by simp⟩
  · cases h

end

end Xdispatch.Semaphore
