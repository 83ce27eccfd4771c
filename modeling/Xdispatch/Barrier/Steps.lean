import Xdispatch.Barrier.Model

/-!
# What a call on a barrier can do

The steps of a `wait` by what they find, and what a step of any call does to
`m_owner`: it is set once, by the first `complete` or to the waiter of a `wait`.
-/

namespace Xdispatch.Barrier

/-- The steps of a `wait`; `tests` is the predicate under the mutex of the waiter `k`. -/
inductive WaitStep (s : Shared) (w : Wait) : Choice → Shared → Wait → Prop
  | passes : (w.phase = .load ∨ w.phase = .exchange) → s.owner = .completed →
      WaitStep s w .step (w.return s true).1 (w.return s true).2
  | loads : w.phase = .load → s.owner ≠ .completed → WaitStep s w .step s { w with phase := .allocate }
  | allocates : w.phase = .allocate →
      WaitStep s w .step s.allocate { w with candidate := some s.size, phase := .exchange }
  | installs (k : Nat) : w.phase = .exchange → s.owner = .noOwner → w.candidate = some k →
      WaitStep s w .step { s with owner := .waiter k } { w with candidate := none, phase := .enter k }
  | finds (k : Nat) : w.phase = .exchange → s.owner = .waiter k → WaitStep s w .step s { w with phase := .enter k }
  | fails : w.phase = .exchange → s.owner = .noOwner → WaitStep s w .spurious s { w with phase := .null }
  | tests (k : Nat) (d : Option Int) : (w.phase = .enter k ∧ d = w.deadline s ∨ w.phase = .woken k d) →
      WaitStep s w .step (w.test s k d).1 (w.test s k d).2
  | wakes (k seen : Nat) (d : Option Int) (e : Choice) : w.phase = .blocked k seen d →
      (e = .spurious ∨ seen < (s.heap k).notifications) → WaitStep s w e s { w with phase := .woken k d }
  | expires (k seen : Nat) (d : Int) : w.phase = .blocked k seen (some d) → d ≤ s.now →
      WaitStep s w .timeout s { w with phase := .timedOut k }
  | gives_up (k : Nat) : w.phase = .timedOut k →
      WaitStep s w .step (w.return s (s.heap k).done).1 (w.return s (s.heap k).done).2

/-- The steps of any call. -/
inductive Step (s : Shared) : Thread → Choice → Shared → Thread → Prop
  | wait {w w' : Wait} {e : Choice} {s' : Shared} : WaitStep s w e s' w' → Step s (.wait w) e s' (.wait w')
  | completes : s.owner = .noOwner →
      Step s .completeExchange .step ({ s with owner := .completed }).completes .completeReturned
  | completed : s.owner = .completed → Step s .completeExchange .step s.completes .completeReturned
  | finds (k : Nat) : s.owner = .waiter k → Step s .completeExchange .step s (.completeWaiter k)
  | fails : s.owner = .noOwner → Step s .completeExchange .spurious s.completes .completeReturned
  | signals (k : Nat) : Step s (.completeWaiter k) .step (s.modify k .complete).completes .completeReturned
  | answers (r : Bool) : (s.owner = .noOwner ∧ r = false ∨ s.owner = .completed ∧ r = true) →
      Step s .wasCompleted .step (s.answer r) (.wasCompletedReturned r)
  | asks (k : Nat) : s.owner = .waiter k → Step s .wasCompleted .step s (.wasCompletedWaiter k)
  | told (k : Nat) : Step s (.wasCompletedWaiter k) .step (s.answer (s.heap k).done)
      (.wasCompletedReturned (s.heap k).done)

section
variable {s s' : Shared} {w w' : Wait} {t t' : Thread} {e : Choice} {new : List Thread} {k : Nat}

theorem wait_step (h : w.act s e = some (s', w')) : WaitStep s w e s' w' := by
  unfold Wait.act at h
  split at h
  next hp =>
    split at h <;> cases h
    next ho => exact .passes (Or.inl hp) ho
    next ho => exact .loads hp ho
  next hp =>
    cases h
    exact .allocates hp
  next hp =>
    split at h <;> cases h
    next k ho hc => exact .installs k hp ho hc
    next ho => exact .passes (Or.inr hp) ho
    next k ho => exact .finds k hp ho
  next hp =>
    split at h <;> cases h
    next ho => exact .fails hp ho
  next k hp =>
    have h : ((w.test s k (w.deadline s)).1, (w.test s k (w.deadline s)).2) = (s', w') := Option.some.inj h
    cases h
    exact .tests k _ (Or.inl ⟨hp, rfl⟩)
  next k seen d hp =>
    split at h <;> cases h
    next hn => exact .wakes k seen d _ hp (Or.inr hn)
  next k seen d hp =>
    cases h
    exact .wakes k seen d _ hp (Or.inl rfl)
  next k seen d hp =>
    split at h <;> cases h
    next hd => exact .expires k seen d hp hd
  next k d hp =>
    have h : ((w.test s k d).1, (w.test s k d).2) = (s', w') := Option.some.inj h
    cases h
    exact .tests k d (Or.inr hp)
  next k hp =>
    cases h
    exact .gives_up k hp
  · cases h

theorem act_step (h : act s t e = some (s', t', new)) : new = [] ∧ Step s t e s' t' := by
  unfold act at h
  split at h
  · simp only [Option.map_eq_some_iff, Prod.mk.injEq] at h
    obtain ⟨⟨s₁, w'⟩, h, rfl, rfl, rfl⟩ := h
    exact ⟨rfl, .wait (wait_step h)⟩
  · split at h <;> cases h
    next ho => exact ⟨rfl, .completes ho⟩
    next ho => exact ⟨rfl, .completed ho⟩
    next k ho => exact ⟨rfl, .finds k ho⟩
  · split at h <;> cases h
    next ho => exact ⟨rfl, .fails ho⟩
  · cases h
    exact ⟨rfl, .signals _⟩
  · split at h <;> cases h
    next ho => exact ⟨rfl, .answers false (Or.inl ⟨ho, rfl⟩)⟩
    next ho => exact ⟨rfl, .answers true (Or.inr ⟨ho, rfl⟩)⟩
    next k ho => exact ⟨rfl, .asks k ho⟩
  · cases h
    exact ⟨rfl, .told _⟩
  · cases h

theorem return_owner (w : Wait) (r : Bool) : (w.return s r).1.owner = s.owner := by
  cases hc : w.candidate <;> simp [Wait.return, hc, Shared.free, Shared.answer, Shared.modify]

theorem test_owner (w : Wait) (k : Nat) (d : Option Int) : (w.test s k d).1.owner = s.owner := by
  unfold Wait.test
  split
  · exact return_owner w true
  · rfl

/-- A step of thread `t` that sets `m_owner`. -/
inductive Sets (s : Shared) : Thread → Choice → Owner → Prop
  | installs (w : Wait) (k : Nat) : w.phase = .exchange → w.candidate = some k → Sets s (.wait w) .step (.waiter k)
  | completes : Sets s .completeExchange .step .completed

theorem Step.owner (h : Step s t e s' t') : s'.owner = s.owner ∨ s.owner = .noOwner ∧ Sets s t e s'.owner := by
  cases h with
  | wait h =>
    cases h with
    | installs k hp ho hc => exact Or.inr ⟨ho, .installs _ k hp hc⟩
    | passes => exact Or.inl (return_owner _ true)
    | tests k d => exact Or.inl (test_owner _ k d)
    | gives_up k => exact Or.inl (return_owner _ _)
    | _ => exact Or.inl rfl
  | completes ho => exact Or.inr ⟨ho, .completes⟩
  | _ => exact Or.inl rfl

/-- The wait is past its compare-exchange. -/
def WaitPhase.past : WaitPhase → Bool
  | .load | .allocate | .exchange => false
  | _ => true

theorem WaitStep.past (h : WaitStep s w e s' w') (hp : w.phase.past = true ∨ w.phase = .exchange) :
    w'.phase.past = true := by
  cases h with
  | loads h | allocates h =>
    rw [h] at hp
    rcases hp with hp | hp <;> cases hp
  | tests k d =>
    unfold Wait.test
    split <;> rfl
  | _ => rfl

theorem WaitStep.not_null (h : WaitStep s w e s' w') : w.phase ≠ .null := by
  intro hn
  cases h with
  | passes hp | tests k d hp => rcases hp with hp | hp <;> simp_all
  | _ => simp_all

theorem Step.past (h : Step s (.wait w) e s' t') (hp : w.phase.past = true ∨ w.phase = .exchange) :
    ∃ w', t' = .wait w' ∧ w'.phase.past = true := by
  cases h with
  | wait h => exact ⟨_, rfl, h.past hp⟩

end

end Xdispatch.Barrier
