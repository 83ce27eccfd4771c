import Xdispatch.Lib.Event
import Xdispatch.Barrier.Completion

/-!
# The barrier as an event

With compare-exchanges that fail for a reason only, the barrier is a one-shot
event: each call takes effect in its last step, and the barrier is fired with the
first `complete` that marks it or signals the waiter in `m_owner`.
-/

namespace Xdispatch.Barrier

open Event (event)

/-! ## The event -/

def signalled (s : Shared) : Bool :=
  match s.owner with
  | .noOwner => false
  | .completed => true
  | .waiter k => (s.heap k).done

def Thread.event : Thread → Event.Thread
  | .wait ⟨_, _, .returned r⟩ | .wasCompletedReturned r => .answered r
  | .wait w => .wait (w.timeout ≠ waitForever)
  | .completeExchange | .completeWaiter _ => .complete
  | .completeReturned => .completed
  | .wasCompleted | .wasCompletedWaiter _ => .test

def abstract (c : Config Shared Thread) : Config Bool Event.Thread :=
  ⟨signalled c.shared, c.threads.map Thread.event⟩

/-- The step of the event that a step of the barrier is: a call, or the end of a call. -/
def label (c : Config Shared Thread) : Label Choice → Option (Label Event.Choice)
  | .call (.wait t) => some (.call (.wait (t ≠ waitForever)))
  | .call .complete => some (.call .complete)
  | .call .wasCompleted => some (.call .test)
  | .call _ => none
  | .act i e =>
    match c.threads[i]?, (barrier.next c (.act i e)).bind (·.threads[i]?) with
    | some t, some t' => (Event.ends t.event t'.event).map (.act i)
    | _, _ => none

/-! ## The claim -/

/-- The call that is thread `i` returns `r` with the step. -/
def Answers (p : Config Shared Thread × Label Choice) (i : Nat) (r : Bool) : Prop :=
  ∃ e c' t t', p.2 = .act i e ∧ barrier.next p.1 p.2 = some c' ∧ p.1.threads[i]? = some t ∧
    c'.threads[i]? = some t' ∧ t'.event = .answered r

/-- The step is one of a call of `complete`. -/
def Completes (p : Config Shared Thread × Label Choice) : Prop :=
  ∃ i e t, p.2 = .act i e ∧ p.1.threads[i]? = some t ∧ t.event = .complete

/-- Thread `i` has allocated the waiter `k`. -/
def Allocates (p : Config Shared Thread × Label Choice) (i k : Nat) : Prop :=
  p.2 = .act i .step ∧ p.1.shared.size = k ∧ ∃ w, p.1.threads[i]? = some (.wait w) ∧ w.phase = .allocate

def Wait.hasReturned (w : Wait) : Bool :=
  match w.phase with
  | .returned _ => true
  | _ => false

structure Linearizable (tr : List (Config Shared Thread × Label Choice)) (c : Config Shared Thread) : Prop where
  refines : event.Run Event.initial (Program.abstracted abstract label tr) (abstract c)
  answers : ∀ p ∈ tr, ∀ i r, Answers p i r → r = signalled p.1.shared
  limited : ∀ p ∈ tr, ∀ i w, p.1.threads[i]? = some (.wait w) → Answers p i false →
    w.timeout ≠ waitForever ∧ ∃ k, w.phase = .timedOut k
  point : (∀ p ∈ tr, signalled p.1.shared = false) ∧ signalled c.shared = false ∨
    ∃ before p after, tr = before ++ p :: after ∧ (∀ q ∈ before, signalled q.1.shared = false) ∧
      signalled p.1.shared = false ∧ (∀ q ∈ after, signalled q.1.shared = true) ∧ signalled c.shared = true ∧
      Completes p ∧ ∀ t ∈ p.1.threads, t ≠ .completeReturned
  owner : ∀ p ∈ tr, p.1.shared.owner ≠ .noOwner → c.shared.owner = p.1.shared.owner
  waiters : ∀ k, k < c.shared.size → ∃ i w, (∃ p ∈ tr, Allocates p i k) ∧ c.threads[i]? = some (.wait w) ∧
    ((c.shared.heap k).freed = true ↔ c.shared.owner ≠ .waiter k ∧ w.hasReturned = true)

/-! ## What a step does to the event -/

/-- The deadline is that of a wait that has one. -/
def Wait.Limited (w : Wait) : Prop :=
  match w.phase with
  | .blocked _ _ (some _) | .woken _ (some _) | .timedOut _ => w.timeout ≠ waitForever
  | _ => True

section
variable {s s' : Shared} {w w' : Wait} {t t' : Thread} {e : Choice} {k : Nat}

theorem signalled_iff : signalled s = true ↔ Signalled s := by
  unfold signalled Signalled
  split
  next h => simp [h]
  next h => simp [h]
  next k h => simp [h]

theorem signalled_eq (ho : s'.owner = s.owner) (hd : ∀ k, s.owner = .waiter k → (s'.heap k).done = (s.heap k).done) :
    signalled s' = signalled s := by
  unfold signalled
  rw [ho]
  cases h : s.owner with
  | waiter k => exact hd k h
  | _ => rfl

theorem signalled_return (w : Wait) (r : Bool) : signalled (w.return s r).1 = signalled s := by
  refine signalled_eq (return_owner w r) fun k _ => ?_
  cases hc : w.candidate with
  | none => simp [Wait.return, hc, Shared.free, Shared.answer]
  | some c =>
    have := (modify_free s c k).1
    simpa [Wait.return, hc, Shared.free, Shared.answer] using this

theorem signalled_allocate (hO : Ok s) : signalled s.allocate = signalled s := by
  refine signalled_eq rfl fun k hk => ?_
  have hne : k ≠ s.size := (hO.owner_lt k hk).ne
  simp [Shared.allocate, Function.update_of_ne hne]

theorem event_wait (h : w.hasReturned = false) : (Thread.wait w).event = .wait (w.timeout ≠ waitForever) := by
  obtain ⟨timeout, candidate, phase⟩ := w
  cases phase with
  | returned r => cases h
  | _ => rfl

theorem event_return (w : Wait) (r : Bool) : (Thread.wait (w.return s r).2).event = .answered r := rfl

theorem WaitStep.not_returned (h : WaitStep s w e s' w') : w.hasReturned = false := by
  unfold Wait.hasReturned
  cases h with
  | passes hp | tests k d hp => rcases hp with hp | hp <;> simp_all
  | _ => simp_all

/-- A step is none of the event, or it is the one that ends the call. -/
def Follows (s : Shared) (t : Thread) (s' : Shared) (t' : Thread) : Prop :=
  Event.ends t.event t'.event = none ∧ t'.event = t.event ∧ signalled s' = signalled s ∨
    ∃ choice, Event.ends t.event t'.event = some choice ∧
      Event.act (signalled s) t.event choice = some (signalled s', t'.event, [])

theorem follows_on (hw : w.hasReturned = false) (hw' : w'.hasReturned = false) (ht : w'.timeout = w.timeout)
    (hs : signalled s' = signalled s) : Follows s (.wait w) s' (.wait w') := by
  refine Or.inl ⟨?_, ?_, hs⟩
  · rw [event_wait hw, event_wait hw']
    rfl
  · rw [event_wait hw, event_wait hw', ht]

theorem follows_return (hw : w.hasReturned = false) {r : Bool} (hr : r = signalled s)
    (hl : r = false → w.timeout ≠ waitForever) : Follows s (.wait w) (w.return s r).1 (.wait (w.return s r).2) := by
  right
  rw [event_wait hw, event_return, signalled_return, ← hr]
  cases r with
  | true => exact ⟨_, rfl, rfl⟩
  | false =>
    refine ⟨_, rfl, ?_⟩
    simp [Event.act, hl rfl]

theorem wait_follows (h : WaitStep s w e s' w') (hO : Ok s) (hf : w.Fits s) (hl : w.Limited)
    (hd : ∀ k, (s.heap k).done = true → s.owner = .waiter k) (hC : e = .spurious → w.phase ≠ .exchange) :
    Follows s (.wait w) s' (.wait w') := by
  have hw := h.not_returned
  cases h with
  | passes hp ho => exact follows_return hw (by simp [signalled, ho]) nofun
  | loads | finds | wakes | expires => exact follows_on hw rfl rfl rfl
  | allocates => exact follows_on hw rfl rfl (signalled_allocate hO)
  | installs k hp ho hc =>
    refine follows_on hw rfl rfl ?_
    -- the waiter is nobody's yet, so nobody has signalled it
    have : (s.heap k).done ≠ true := fun h => by simpa [ho] using hd k h
    simpa [signalled, ho] using this
  | fails hp => exact absurd hp (hC rfl)
  | tests k d hp =>
    have ho : s.owner = .waiter k := by
      unfold Wait.Fits at hf
      rcases hp with ⟨hp, -⟩ | hp <;> simpa only [hp] using hf
    unfold Wait.test
    split
    next hdone => exact follows_return hw (by simp [signalled, ho, hdone]) nofun
    · exact follows_on hw rfl rfl rfl
  | gives_up k hp =>
    have ho : s.owner = .waiter k := by simpa only [Wait.Fits, hp] using hf
    have hl : w.timeout ≠ waitForever := by simpa only [Wait.Limited, hp] using hl
    exact follows_return hw (by simp [signalled, ho]) fun _ => hl

theorem step_follows (h : Step s t e s' t') (hO : Ok s) (hf : t.Fits s) (hl : ∀ w, t = .wait w → w.Limited)
    (hd : ∀ k, (s.heap k).done = true → s.owner = .waiter k)
    (hC : ∀ w, t = .wait w → e = .spurious → w.phase ≠ .exchange) (hC' : ¬ (t = .completeExchange ∧ e = .spurious)) :
    Follows s t s' t' := by
  cases h with
  | wait h => exact wait_follows h hO hf (hl _ rfl) hd (hC _ rfl)
  | completes ho => exact Or.inr ⟨_, rfl, rfl⟩
  | completed ho => exact Or.inr ⟨_, rfl, by simp [Event.act, signalled, Shared.completes, ho, Thread.event]⟩
  | finds k ho | asks k ho => exact Or.inl ⟨rfl, rfl, rfl⟩
  | fails => exact absurd ⟨rfl, rfl⟩ hC'
  | signals k =>
    refine Or.inr ⟨_, rfl, ?_⟩
    have ho : s.owner = .waiter k := hf
    simp [Event.act, signalled, Shared.completes, Shared.modify, ho, Waiter.complete, Thread.event]
  | answers r hr =>
    refine Or.inr ⟨_, rfl, ?_⟩
    rcases hr with ⟨ho, rfl⟩ | ⟨ho, rfl⟩ <;> simp [Event.act, signalled, Shared.answer, ho, Thread.event]
  | told k =>
    refine Or.inr ⟨_, rfl, ?_⟩
    have ho : s.owner = .waiter k := hf
    simp [Event.act, signalled, Shared.answer, ho, Thread.event]

/-! ## The invariant of the event -/

theorem return_heap (w : Wait) (r : Bool) (k : Nat) : ((w.return s r).1.heap k).done = (s.heap k).done := by
  cases hc : w.candidate with
  | none => simp [Wait.return, hc, Shared.free, Shared.answer]
  | some c => simpa [Wait.return, hc, Shared.free, Shared.answer] using (modify_free s c k).1

theorem WaitStep.done (h : WaitStep s w e s' w')
    (hd : ∀ k, (s.heap k).done = true → s.owner = .waiter k) :
    ∀ k, (s'.heap k).done = true → s'.owner = .waiter k := by
  have returns : ∀ r k, ((w.return s r).1.heap k).done = true → (w.return s r).1.owner = .waiter k := by
    intro r k h
    rw [return_heap] at h
    rw [return_owner]
    exact hd k h
  cases h with
  | passes | gives_up => exact returns _
  | allocates =>
    intro k h
    by_cases hk : k = s.size
    · subst hk
      simp [Shared.allocate, Waiter.new] at h
    · exact hd k (by simpa [Shared.allocate, Function.update_of_ne hk] using h)
  | installs k hp ho =>
    intro j h
    have := hd j h
    rw [ho] at this
    cases this
  | tests k d =>
    unfold Wait.test
    split
    · exact returns true
    · exact hd
  | _ => exact hd

theorem WaitStep.limited (h : WaitStep s w e s' w') (hl : w.Limited) : w'.Limited := by
  cases h with
  | tests k d hp =>
    unfold Wait.test
    split
    · trivial
    · cases d with
      | none => trivial
      | some d =>
        rcases hp with ⟨-, hd⟩ | hp
        · intro hf
          simp only [Wait.deadline] at hd
          rw [if_pos (show w.timeout = waitForever from hf)] at hd
          cases hd
        · simpa [Wait.Limited, hp] using hl
  | wakes k seen d e hp =>
    cases d with
    | none => trivial
    | some d => simpa [Wait.Limited, hp] using hl
  | expires k seen d hp => simpa [Wait.Limited, hp] using hl
  | _ => trivial

theorem Step.done (h : Step s t e s' t') (hf : t.Fits s)
    (hd : ∀ k, (s.heap k).done = true → s.owner = .waiter k) :
    ∀ k, (s'.heap k).done = true → s'.owner = .waiter k := by
  cases h with
  | wait h => exact h.done hd
  | completes ho =>
    intro k h
    have := hd k h
    rw [ho] at this
    cases this
  | signals k =>
    intro j h
    have ho : s.owner = .waiter k := hf
    by_cases hj : j = k
    · subst hj
      exact ho
    · exact hd j (by simpa [Shared.completes, Shared.modify, Function.update_of_ne hj] using h)
  | _ => exact hd

theorem Step.keeps_completed (h : Step s t e s' t') : (s.completed = true → s'.completed = true) ∧
    (t' = .completeReturned → s'.completed = true) := by
  have returns : ∀ (w : Wait) r, s.completed = true → (w.return s r).1.completed = true := fun w r h =>
    (return_history s w r).1.trans h
  cases h with
  | wait h =>
    refine ⟨?_, nofun⟩
    cases h with
    | passes | gives_up => exact returns _ _
    | tests k d =>
      unfold Wait.test
      split
      · exact returns _ true
      · exact id
    | _ => exact id
  | completes | completed | fails | signals => exact ⟨fun _ => rfl, fun _ => rfl⟩
  | _ => exact ⟨id, nofun⟩

end

structure EventInv (c : Config Shared Thread) : Prop where
  inv : Inv c
  done : ∀ k, (c.shared.heap k).done = true → c.shared.owner = .waiter k
  limited : ∀ t ∈ c.threads, ∀ w, t = .wait w → w.Limited
  returned : ∀ t ∈ c.threads, t = .completeReturned → c.shared.completed = true

section
variable {now : Nat} {tr : List (Config Shared Thread × Label Choice)} {c c' : Config Shared Thread}
  {l : Label Choice} {i k : Nat} {e : Choice} {s' : Shared} {t t' : Thread}

theorem initial_eventInv (now : Nat) : EventInv (initial now) :=
  ⟨initial_inv now, by simp [initial, Waiter.new], by simp [initial], by simp [initial]⟩

theorem call_eventInv (hI : EventInv c) (h : barrier.next c (.call e) = some c') :
    EventInv c' ∧ event.Follows (abstract c) (abstract c') (label c (.call e)) := by
  obtain ⟨s, new, hc, rfl⟩ := Program.next_call h
  refine ⟨⟨call_inv hI.inv hc, ?_, ?_, ?_⟩, ?_⟩ <;> cases e with
    | wait | complete | wasCompleted | tick =>
      cases hc
      first
        | exact hI.done
        | exact Family.forall_append hI.limited (by simp [Wait.Limited])
        | exact Family.forall_append hI.returned (by simp)
        | simp [Program.Follows, label, abstract, Program.next, event, Event.call, Thread.event, signalled]
    | _ => cases hc

theorem strongly_wait (hC : exchangesStrongly c (.act i e) = true) (ht : c.threads[i]? = some t) :
    (∀ w, t = .wait w → e = .spurious → w.phase ≠ .exchange) ∧ ¬ (t = .completeExchange ∧ e = .spurious) := by
  refine ⟨?_, ?_⟩
  · rintro w rfl rfl
    simpa [exchangesStrongly, ht] using hC
  · rintro ⟨rfl, rfl⟩
    simp [exchangesStrongly, ht] at hC

theorem follows_act (ht : c.threads[i]? = some t) (hn : barrier.next c (.act i e) = some ⟨s', c.threads.set i t' ++ []⟩)
    (hF : Follows c.shared t s' t') :
    event.Follows (abstract c) (abstract ⟨s', c.threads.set i t' ++ []⟩) (label c (.act i e)) := by
  have hlabel : label c (.act i e) = (Event.ends t.event t'.event).map (.act i) := by
    simp only [label, hn, Option.bind_some, Family.get_step ht, ht]
  have hget : (abstract c).threads[i]? = some t.event := by simp [abstract, ht]
  rw [hlabel]
  rcases hF with ⟨hend, hev, hs⟩ | ⟨choice, hend, hact⟩
  · rw [hend]
    change abstract _ = abstract c
    simp only [abstract, hs, List.append_nil, Family.map_set_self ht hev]
  · rw [hend]
    refine (Program.act_next hget hact).trans ?_
    simp [abstract, List.map_set]

theorem act_eventInv (hI : EventInv c) (hC : exchangesStrongly c (.act i e) = true)
    (h : barrier.next c (.act i e) = some c') :
    EventInv c' ∧ event.Follows (abstract c) (abstract c') (label c (.act i e)) := by
  obtain ⟨t, s, t', new, ht, ha, rfl⟩ := Program.next_act h
  obtain ⟨rfl, hs⟩ := act_step ha
  have hm := Family.mem_of_get ht
  have hO := hI.inv.ok
  have hf := hI.inv.fits t hm
  obtain ⟨hw, hc⟩ := strongly_wait hC ht
  obtain ⟨hkeep, hret⟩ := hs.keeps_completed
  refine ⟨⟨act_inv hI.inv hC ht ha, hs.done hf hI.done, ?_, ?_⟩, ?_⟩
  · refine Family.forall_step hI.limited ?_ (by simp)
    rintro w rfl
    cases hs with
    | wait h => exact h.limited (hI.limited _ hm _ rfl)
  · exact Family.forall_step (fun x hx h => hkeep (hI.returned x hx h)) hret (by simp)
  · exact follows_act ht h (step_follows hs hO hf (hI.limited t hm) hI.done hw hc)

theorem run_event (h : barrier.Run (initial now) tr c)
    (hC : Program.Along (fun c l => exchangesStrongly c l = true) tr) :
    EventInv c ∧ event.Run Event.initial (Program.abstracted abstract label tr) (abstract c) := by
  change EventInv c ∧ event.Run (abstract (initial now)) _ _
  refine h.simulated (initial_eventInv now) (fun c l c' hI hC hn => ?_) hC
  cases l with
  | call e => exact call_eventInv hI hn
  | act i e => exact act_eventInv hI hC hn

/-! ## The waiters -/

def Wait.Tidy (w : Wait) : Prop :=
  match w.phase with
  | .load | .allocate | .returned _ => w.candidate = none
  | _ => True

/-- What has become of the waiter `k`, which the wait `w` has allocated: it is in
`m_owner`, or still the candidate, or the wait has returned and freed it. -/
def Fate (s : Shared) (w : Wait) (k : Nat) : Prop :=
  (s.heap k).freed = false ∧ s.owner = .waiter k ∧ w.candidate ≠ some k ∨
    (s.heap k).freed = false ∧ s.owner ≠ .waiter k ∧ w.candidate = some k ∨
    (s.heap k).freed = true ∧ s.owner ≠ .waiter k ∧ w.hasReturned = true

structure Waiters (tr : List (Config Shared Thread × Label Choice)) (c : Config Shared Thread) : Prop where
  lt : ∀ p ∈ tr, ∀ i k, Allocates p i k → k < c.shared.size
  unique : ∀ p ∈ tr, ∀ q ∈ tr, ∀ i j k, Allocates p i k → Allocates q j k → i = j
  candidate : ∀ i w k, c.threads[i]? = some (.wait w) → w.candidate = some k → ∃ p ∈ tr, Allocates p i k
  tidy : ∀ t ∈ c.threads, ∀ w, t = .wait w → w.Tidy
  fate : ∀ k, k < c.shared.size → ∃ i w, (∃ p ∈ tr, Allocates p i k) ∧ c.threads[i]? = some (.wait w) ∧ Fate c.shared w k

theorem freed_return (s : Shared) (w : Wait) (r : Bool) (k : Nat) :
    ((w.return s r).1.heap k).freed = ((s.heap k).freed || decide (w.candidate = some k)) := by
  cases hc : w.candidate with
  | none => simp [Wait.return, hc, Shared.free, Shared.answer]
  | some c =>
    by_cases hk : k = c
    · subst hk
      simp [Wait.return, hc, Shared.free, Shared.answer, Shared.modify, Waiter.free]
    · simp [Wait.return, hc, Shared.free, Shared.answer, Shared.modify, Function.update_of_ne hk, Ne.symm hk]

section
variable {s : Shared} {w w' : Wait}

theorem WaitStep.tidy (h : WaitStep s w e s' w') (ht : w.Tidy) : w'.Tidy := by
  cases h with
  | loads hp => simpa [Wait.Tidy, hp] using ht
  | tests k d =>
    unfold Wait.test
    split
    · rfl
    · trivial
  | passes | gives_up => rfl
  | _ => trivial

theorem Step.keeps_waiter (h : Step s t e s' t') (hk : k < s.size) (hne : ∀ w, t = .wait w → w.candidate ≠ some k) :
    (s'.heap k).freed = (s.heap k).freed ∧ (s'.owner = .waiter k ↔ s.owner = .waiter k) := by
  have returns : ∀ (w : Wait) r, w.candidate ≠ some k →
      ((w.return s r).1.heap k).freed = (s.heap k).freed ∧ ((w.return s r).1.owner = .waiter k ↔ s.owner = .waiter k) := by
    intro w r h
    rw [freed_return, return_owner]
    simp [h]
  cases h with
  | @wait w _ _ _ h =>
    have hne := hne w rfl
    cases h with
    | passes | gives_up => exact returns w _ hne
    | allocates =>
      have hk : k ≠ s.size := hk.ne
      simp [Shared.allocate, Function.update_of_ne hk]
    | installs j hp ho hc =>
      have hj : j ≠ k := by
        rintro rfl
        exact hne hc
      simp [ho, hj]
    | tests j d =>
      unfold Wait.test
      split
      · exact returns w true hne
      · exact ⟨rfl, Iff.rfl⟩
    | _ => exact ⟨rfl, Iff.rfl⟩
  | completes ho => simp [Shared.completes, ho]
  | signals j =>
    by_cases hj : k = j
    · subst hj
      simp [Shared.completes, Shared.modify, Waiter.complete]
    · simp [Shared.completes, Shared.modify, Function.update_of_ne hj]
  | _ => exact ⟨rfl, Iff.rfl⟩

theorem Fate.keeps (hF : Fate s w k) (hf : (s'.heap k).freed = (s.heap k).freed)
    (ho : s'.owner = .waiter k ↔ s.owner = .waiter k) (hc : w'.candidate = some k ↔ w.candidate = some k)
    (hr : w.hasReturned = true → w'.hasReturned = true) : Fate s' w' k := by
  unfold Fate at *
  rw [hf, ho, Ne, Ne, ho, hc]
  exact hF.imp_right fun h => h.imp_right fun h => ⟨h.1, h.2.1, hr h.2.2⟩

theorem Fate.return (hF : Fate s w k) (hw : w.hasReturned = false) (r : Bool) :
    Fate (w.return s r).1 (w.return s r).2 k := by
  unfold Fate at *
  rw [freed_return, return_owner]
  rcases hF with ⟨hf, ho, hc⟩ | ⟨hf, ho, hc⟩ | ⟨-, -, hr⟩
  · exact Or.inl ⟨by simp [hf, hc], ho, by simp [Wait.return]⟩
  · exact Or.inr (Or.inr ⟨by simp [hc], ho, rfl⟩)
  · rw [hw] at hr
    cases hr

theorem WaitStep.fate (h : WaitStep s w e s' w') (ht : w.Tidy) (hk : k < s.size) (hF : Fate s w k) : Fate s' w' k := by
  have hw := h.not_returned
  cases h with
  | passes | gives_up => exact hF.return hw _
  | allocates hp =>
    have hne : k ≠ s.size := hk.ne
    have hc : w.candidate = none := by simpa only [Wait.Tidy, hp] using ht
    refine hF.keeps (by simp [Shared.allocate, Function.update_of_ne hne]) Iff.rfl ?_ (by simp [hw])
    simp [hc, Ne.symm hne]
  | installs j hp ho hc =>
    rcases hF with ⟨-, h, -⟩ | ⟨hf, -, h⟩ | ⟨-, -, h⟩
    · rw [ho] at h
      cases h
    · cases hc.symm.trans h
      exact Or.inl ⟨hf, rfl, by simp⟩
    · rw [hw] at h
      cases h
  | tests j d =>
    unfold Wait.test
    split
    · exact hF.return hw true
    · exact hF.keeps rfl Iff.rfl Iff.rfl (by simp [hw])
  | _ => exact hF.keeps rfl Iff.rfl Iff.rfl (by simp [hw])

theorem return_size (w : Wait) (r : Bool) : (w.return s r).1.size = s.size := by
  cases hc : w.candidate <;> simp [Wait.return, hc, Shared.free, Shared.answer, Shared.modify]

theorem Step.allocates (h : Step s t e s' t') : s'.size = s.size ∧ (∀ w, t = .wait w → w.phase ≠ .allocate) ∨
    ∃ w, t = .wait w ∧ w.phase = .allocate ∧ e = .step ∧ s' = s.allocate ∧
      t' = .wait { w with candidate := some s.size, phase := .exchange } := by
  cases h with
  | @wait w _ _ _ h =>
    have keeps : ∀ {n}, n = s.size → w.phase ≠ .allocate →
        n = s.size ∧ ∀ w', Thread.wait w = .wait w' → w'.phase ≠ .allocate := by
      intro n hn hp
      refine ⟨hn, ?_⟩
      rintro w' ⟨⟩
      exact hp
    cases h with
    | allocates hp => exact Or.inr ⟨w, rfl, hp, rfl, rfl, rfl⟩
    | passes hp =>
      refine Or.inl (keeps (return_size w true) ?_)
      rcases hp with hp | hp <;> simp [hp]
    | gives_up k hp => exact Or.inl (keeps (return_size w _) (by simp [hp]))
    | tests k d hp =>
      have hp : w.phase ≠ .allocate := by rcases hp with ⟨hp, -⟩ | hp <;> simp [hp]
      unfold Wait.test
      split
      · exact Or.inl (keeps (return_size w true) hp)
      · exact Or.inl (keeps rfl hp)
    | loads hp | installs k hp | finds k hp | fails hp | wakes k _ _ _ hp | expires k _ _ hp =>
      exact Or.inl (keeps rfl (by simp [hp]))
  | _ => exact Or.inl ⟨rfl, nofun⟩

theorem Step.candidate (h : Step s t e s' (.wait w')) (hc : w'.candidate = some k) :
    ∃ w, t = .wait w ∧ (w.candidate = some k ∨ w.phase = .allocate ∧ e = .step ∧ s.size = k) := by
  cases h with
  | @wait w _ _ _ h =>
    refine ⟨w, rfl, ?_⟩
    cases h with
    | allocates hp => exact Or.inr ⟨hp, rfl, Option.some.inj hc⟩
    | passes | gives_up => cases hc
    | installs => cases hc
    | tests k d =>
      unfold Wait.test at hc
      split at hc
      · cases hc
      · exact Or.inl hc
    | _ => exact Or.inl hc

end

theorem Waiters.call (hW : Waiters tr c) (h : barrier.next c (.call e) = some c') :
    Waiters (tr ++ [(c, .call e)]) c' := by
  obtain ⟨s, new, hc, rfl⟩ := Program.next_call h
  have hsame : s.heap = c.shared.heap ∧ s.owner = c.shared.owner ∧ s.size = c.shared.size ∧
      ∀ t ∈ new, ∀ w, t = .wait w → w.candidate = none ∧ w.Tidy := by
    cases e with
    | wait | complete | wasCompleted | tick =>
      cases hc
      simp [Wait.Tidy]
    | _ => cases hc
  obtain ⟨hheap, howner, hsize, hnew⟩ := hsame
  have old : ∀ {p i k}, p ∈ tr ++ [(c, .call e)] → Allocates p i k → p ∈ tr := by
    intro p i k hp hA
    rcases List.mem_append.mp hp with hp | hp
    · exact hp
    · cases List.mem_singleton.mp hp
      cases hA.1
  refine ⟨fun p hp i k hA => ?_, fun p hp q hq i j k hA hB => ?_, fun i w k hw hk => ?_, ?_, fun k hk => ?_⟩
  · exact hsize ▸ hW.lt p (old hp hA) i k hA
  · exact hW.unique p (old hp hA) q (old hq hB) i j k hA hB
  · change (c.threads ++ new)[i]? = _ at hw
    rw [List.getElem?_append] at hw
    split at hw
    · obtain ⟨p, hp, hA⟩ := hW.candidate i w k hw hk
      exact ⟨p, List.mem_append_left _ hp, hA⟩
    · have := (hnew _ (Family.mem_of_get hw) w rfl).1
      rw [hk] at this
      cases this
  · exact Family.forall_append hW.tidy fun t ht w hw => (hnew t ht w hw).2
  · obtain ⟨i, w, ⟨p, hp, hA⟩, hw, hF⟩ := hW.fate k (hsize ▸ hk)
    refine ⟨i, w, ⟨p, List.mem_append_left _ hp, hA⟩, Family.get_append hw _, ?_⟩
    exact hF.keeps (by simp only [hheap]) (by simp only [howner]) Iff.rfl id

theorem Waiters.act (hW : Waiters tr c) (hO : Ok c.shared) (ht : c.threads[i]? = some t)
    (hs : Step c.shared t e s' t') : Waiters (tr ++ [(c, .act i e)]) ⟨s', c.threads.set i t' ++ []⟩ := by
  have hsize : c.shared.size ≤ s'.size := by
    rcases hs.allocates with ⟨h, -⟩ | ⟨w, -, -, -, rfl, -⟩
    · exact h.ge
    · exact Nat.le_succ _
  -- an allocation is one of before, or the one of this step
  have cases_alloc : ∀ {p j k}, p ∈ tr ++ [(c, .act i e)] → Allocates p j k →
      p ∈ tr ∧ k < c.shared.size ∨ j = i ∧ k = c.shared.size ∧ k < s'.size := by
    intro p j k hp hA
    rcases List.mem_append.mp hp with hp | hp
    · exact Or.inl ⟨hp, hW.lt p hp j k hA⟩
    · cases List.mem_singleton.mp hp
      obtain ⟨hl, hk, w, hw, hph⟩ := hA
      cases hl
      cases ht.symm.trans hw
      rcases hs.allocates with ⟨-, h⟩ | ⟨w', -, -, -, rfl, -⟩
      · exact absurd hph (h w rfl)
      · exact Or.inr ⟨rfl, hk.symm, hk ▸ Nat.lt_succ_self _⟩
  refine ⟨fun p hp j k hA => ?_, fun p hp q hq j j' k hA hB => ?_, fun j w k hw hk => ?_, ?_, fun k hk => ?_⟩
  · rcases cases_alloc hp hA with ⟨-, h⟩ | ⟨-, -, h⟩
    · exact h.trans_le hsize
    · exact h
  · rcases cases_alloc hp hA with ⟨hp', h⟩ | ⟨rfl, h, -⟩ <;> rcases cases_alloc hq hB with ⟨hq', h'⟩ | ⟨rfl, h', -⟩
    · exact hW.unique p hp' q hq' j j' k hA hB
    · omega
    · omega
    · rfl
  · rcases Family.get_cases hw with ⟨rfl, rfl⟩ | ⟨-, hw⟩ | ⟨n, -, hw⟩
    · obtain ⟨w₀, rfl, h | ⟨hp, rfl, h⟩⟩ := hs.candidate hk
      · obtain ⟨p, hp, hA⟩ := hW.candidate j w₀ k ht h
        exact ⟨p, List.mem_append_left _ hp, hA⟩
      · exact ⟨_, List.mem_append_right _ (List.mem_singleton_self _), rfl, h, w₀, ht, hp⟩
    · obtain ⟨p, hp, hA⟩ := hW.candidate j w k hw hk
      exact ⟨p, List.mem_append_left _ hp, hA⟩
    · cases hw
  · refine Family.forall_step hW.tidy ?_ (by simp)
    rintro w rfl
    cases hs with
    | wait h => exact h.tidy (hW.tidy _ (Family.mem_of_get ht) _ rfl)
  · by_cases hlt : k < c.shared.size
    · obtain ⟨j, w, ⟨p, hp, hA⟩, hw, hF⟩ := hW.fate k hlt
      by_cases hij : i = j
      · subst hij
        cases ht.symm.trans hw
        cases hs with
        | wait h => exact ⟨i, _, ⟨p, List.mem_append_left _ hp, hA⟩, Family.get_step ht _ _,
            h.fate (hW.tidy _ (Family.mem_of_get ht) _ rfl) hlt hF⟩
      · refine ⟨j, w, ⟨p, List.mem_append_left _ hp, hA⟩, Family.get_step_of_ne hw hij _ _, ?_⟩
        obtain ⟨hf, ho⟩ := hs.keeps_waiter hlt fun w' hw' hc => by
          subst hw'
          obtain ⟨q, hq, hB⟩ := hW.candidate i w' k ht hc
          exact hij (hW.unique q hq p hp i j k hB hA)
        exact hF.keeps hf ho Iff.rfl id
    · rcases hs.allocates with ⟨h, -⟩ | ⟨w, rfl, hp, rfl, rfl, rfl⟩
      · exact absurd (h ▸ hk) hlt
      · have hk : k = c.shared.size := by
          have : k < c.shared.size + 1 := hk
          omega
        subst hk
        refine ⟨i, _, ⟨_, List.mem_append_right _ (List.mem_singleton_self _), rfl, rfl, w, ht, hp⟩,
          Family.get_step ht _ _, Or.inr (Or.inl ⟨by simp [Shared.allocate, Waiter.new], fun h => ?_, rfl⟩)⟩
        exact Nat.lt_irrefl _ (hO.owner_lt _ h)

theorem run_waiters (h : barrier.Run (initial now) tr c)
    (hC : Program.Along (fun c l => exchangesStrongly c l = true) tr) : Waiters tr c := by
  induction h with
  | nil => exact ⟨by simp, by simp, by simp [initial], by simp [initial], by simp [initial]⟩
  | @snoc tr c l c' hr hn ih =>
    obtain ⟨hA, -⟩ := Program.along_snoc.mp hC
    cases l with
    | call e => exact (ih hA).call hn
    | act i e =>
      obtain ⟨t, s, t', new, ht, ha, rfl⟩ := Program.next_act hn
      obtain ⟨rfl, hs⟩ := act_step ha
      exact (ih hA).act (run_inv hr hA).ok ht hs

/-! ## Linearizability -/

theorem Answers.steps {p : Config Shared Thread × Label Choice} {r : Bool} (h : Answers p i r) :
    ∃ e t s' t', p.2 = .act i e ∧ p.1.threads[i]? = some t ∧ Step p.1.shared t e s' t' ∧ t'.event = .answered r := by
  obtain ⟨e, c', t, t', hl, hn, ht, ht', hr⟩ := h
  rw [hl] at hn
  obtain ⟨u, s', u', new, hu, ha, rfl⟩ := Program.next_act hn
  obtain ⟨rfl, hs⟩ := act_step ha
  cases ht.symm.trans hu
  cases ht'.symm.trans (Family.get_step ht _ _)
  exact ⟨e, t, s', _, hl, ht, hs, hr⟩

theorem answers_signalled {p : Config Shared Thread × Label Choice} {r : Bool} (hI : EventInv p.1)
    (hC : exchangesStrongly p.1 p.2 = true) (h : Answers p i r) : r = signalled p.1.shared := by
  obtain ⟨e, t, s', t', hl, ht, hs, hr⟩ := h.steps
  rw [hl] at hC
  have hm := Family.mem_of_get ht
  obtain ⟨hw, hc⟩ := strongly_wait hC ht
  rcases step_follows hs hI.inv.ok (hI.inv.fits t hm) (hI.limited t hm) hI.done hw hc with ⟨hend, -, -⟩ | ⟨choice, -, hact⟩
  · have := Event.ends_answered t.event r
    rw [← hr, hend] at this
    cases this
  · rw [hr] at hact
    exact Event.act_answered hact

theorem answers_limited {p : Config Shared Thread × Label Choice} {w : Wait} (hI : EventInv p.1)
    (ht : p.1.threads[i]? = some (.wait w)) (h : Answers p i false) :
    w.timeout ≠ waitForever ∧ ∃ k, w.phase = .timedOut k := by
  obtain ⟨e, t, s', t', -, ht', hs, hr⟩ := h.steps
  cases ht.symm.trans ht'
  have hl := hI.limited _ (Family.mem_of_get ht) w rfl
  cases hs with
  | wait hs =>
    cases hs with
    | gives_up k hp => exact ⟨by simpa only [Wait.Limited, hp] using hl, k, hp⟩
    | passes => cases hr
    | tests k d =>
      unfold Wait.test at hr
      split at hr <;> cases hr
    | _ => cases hr

theorem next_owner (hn : barrier.next c l = some c') (ho : c.shared.owner ≠ .noOwner) :
    c'.shared.owner = c.shared.owner := by
  cases l with
  | call e =>
    obtain ⟨s, new, hc, rfl⟩ := Program.next_call hn
    cases e with
    | wait | complete | wasCompleted | tick =>
      cases hc
      rfl
    | _ => cases hc
  | act i e =>
    obtain ⟨t, s, t', new, -, ha, rfl⟩ := Program.next_act hn
    rcases (act_step ha).2.owner with h | ⟨h, -⟩
    · exact h
    · exact absurd h ho

theorem run_owner (h : barrier.Run (initial now) tr c) :
    ∀ p ∈ tr, p.1.shared.owner ≠ .noOwner → c.shared.owner = p.1.shared.owner := by
  induction h with
  | nil => simp
  | @snoc tr c l c' _ hn ih =>
    intro p hp ho
    rcases List.mem_append.mp hp with hp | hp
    · have hc := ih p hp ho
      exact (next_owner hn (hc ▸ ho)).trans hc
    · cases List.mem_singleton.mp hp
      exact next_owner hn ho

theorem label_act {e : Event.Choice} (hl : label c l = some (.act i e)) : ∃ e', l = .act i e' := by
  cases l with
  | call e' => cases e' <;> cases hl
  | act j e' =>
    simp only [label] at hl
    split at hl
    · obtain ⟨a, -, h⟩ := Option.map_eq_some_iff.mp hl
      cases h
      exact ⟨e', rfl⟩
    · cases hl

/-- **Linearizability.** With compare-exchanges that fail for a reason only, the barrier is a one-shot event. -/
theorem run_linearizable (h : barrier.Run (initial now) tr c)
    (hC : Program.Along (fun c l => exchangesStrongly c l = true) tr) : Linearizable tr c := by
  have hat : ∀ p ∈ tr, EventInv p.1 := by
    intro p hp
    obtain ⟨before, -, hr, -, hpre⟩ := h.before hp
    exact (run_event hr fun q hq => hC q (hpre.subset (List.mem_append_left _ hq))).1
  have hfollows : ∀ p ∈ tr, ∀ c', barrier.next p.1 p.2 = some c' →
      event.Follows (abstract p.1) (abstract c') (label p.1 p.2) := by
    rintro ⟨d, l⟩ hp c' hn
    cases l with
    | call e => exact (call_eventInv (hat _ hp) hn).2
    | act i e => exact (act_eventInv (hat _ hp) (hC _ hp) hn).2
  refine ⟨(run_event h hC).2, fun p hp i r hr => answers_signalled (hat p hp) (hC p hp) hr,
    fun p hp i w ht hr => answers_limited (hat p hp) ht hr, ?_, run_owner h, fun k hk => ?_⟩
  · rcases h.point (Q := fun c => signalled c.shared = true) (by simp [initial, signalled])
      fun p hp c' hn => (Event.follows_fired (hfollows p hp c' hn)).1 with
      ⟨hall, hc⟩ | ⟨before, p, c', after, rfl, hn, hb, hp, hc', ha, hc⟩
    · exact Or.inl ⟨fun p hp => by simpa using hall p hp, by simpa using hc⟩
    have hmem : p ∈ before ++ p :: after := by simp
    obtain ⟨i, e, hl, ht⟩ := (Event.follows_fired (hfollows p hmem c' hn)).2 (by simpa [abstract] using hp) hc'
    obtain ⟨e', hl⟩ := label_act hl
    obtain ⟨t, ht, hev⟩ := Option.map_eq_some_iff.mp ((List.getElem?_map ..).symm.trans ht)
    refine Or.inr ⟨before, p, after, rfl, fun q hq => by simpa using hb q hq, by simpa using hp, ha, hc,
      ⟨i, e', t, hl, ht, hev⟩, fun u hu hret => hp ?_⟩
    -- a `complete` that has returned has signalled the barrier
    exact signalled_iff.mpr ((hat p hmem).inv.completed ((hat p hmem).returned u hu hret))
  · obtain ⟨i, w, hA, hw, hF⟩ := (run_waiters h hC).fate k hk
    have htidy := (run_waiters h hC).tidy _ (Family.mem_of_get hw) w rfl
    refine ⟨i, w, hA, hw, ?_⟩
    rcases hF with ⟨hf, ho, -⟩ | ⟨hf, ho, hc⟩ | ⟨hf, ho, hr⟩
    · simp [hf, ho]
    · simp only [hf, Bool.false_eq_true, false_iff, not_and]
      intro _ hr
      unfold Wait.hasReturned at hr
      split at hr
      next r hp =>
        simp only [Wait.Tidy, hp, hc] at htidy
        cases htidy
      · cases hr
    · exact ⟨fun _ => ⟨ho, hr⟩, fun _ => hf⟩

end

/-- A wait times out, then the barrier is completed, and a second wait finds it so. -/
def waitAgain : List (Label Choice) :=
  Label.call (Choice.wait 0) :: List.replicate 4 (.act 0 .step) ++
    [Label.act 0 Choice.timeout, .act 0 .step, .call .complete] ++ List.replicate 2 (Label.act 1 Choice.step) ++
    Label.call (Choice.wait waitForever) :: List.replicate 4 (.act 2 .step)

theorem run_linearizable_again : Linearizable (barrier.path (initial 0) waitAgain) (barrier.last (initial 0) waitAgain) ∧
    (barrier.last (initial 0) waitAgain).threads[0]? = some (.wait ⟨0, none, .returned false⟩) ∧
    (barrier.last (initial 0) waitAgain).threads[2]? = some (.wait ⟨waitForever, none, .returned true⟩) :=
  ⟨run_linearizable (Program.run_last (by decide)) (by decide), by decide, by decide⟩

end Xdispatch.Barrier
