import Xdispatch.WaitableQueue.Invariant

/-!
# An operation of a waitable queue that throws

`drain_one` sets `m_active` before the operation and unsets it after. An exception
of the operation leaves between the two, with `m_CS` unlocked, through
`drain_one` and whoever called that, and nothing on this path unsets the flag.
From then on nobody gets past it: whatever is listed, or added later, is never
executed.
-/

namespace Xdispatch.WaitableQueue

/-- The choices of the queue, or that the operation which a thread executes throws. -/
inductive Throwing where
  | of (e : Choice)
  | throws
  deriving DecidableEq

/-- Where the exception leaves a call: neither `drain_one` nor `wait_for_one` or `wait_for_all`,
whose lock is released, do anything on its way. -/
def Thread.unwind : Thread → Option Thread
  | .executing _ _ => some .returned
  | _ => none

def Thread.actThrowing (s : Shared) (t : Thread) : Throwing → Option (Shared × Thread)
  | .of e => t.act s e
  | .throws => t.unwind.map (s, ·)

def callThrowing (s : Shared) : Throwing → Option (Shared × List Thread)
  | .of e => call s e
  | .throws => none

def throwing : Program Shared Thread Throwing :=
  ⟨callThrowing, fun s t e => (t.actThrowing s e).map fun r => (r.1, r.2, [])⟩

/-- The flag is set, and no thread is left that would unset it. -/
structure Wedged (c : Config Shared Thread) : Prop where
  active : c.shared.active = true
  idle : ∀ t ∈ c.threads, t.executes = 0
  history : c.shared.started ++ c.shared.operations = c.shared.added

/-- What one step leaves as it is while the queue is wedged. -/
structure Kept (s s' : Shared) : Prop where
  active : s'.active = s.active
  started : s'.started = s.started
  notifications : s'.notifications = s.notifications

section
variable {c c' : Config Shared Thread} {s s' : Shared} {t t' : Thread} {i : Nat} {e : Choice}

theorem Kept.trans {s'' : Shared} (h : Kept s s') (h' : Kept s' s'') : Kept s s'' :=
  ⟨h'.active.trans h.active, h'.started.trans h.started, h'.notifications.trans h.notifications⟩

theorem unwind_eq (h : t.unwind = some t') : t.executes = 1 ∧ t' = .returned := by
  unfold Thread.unwind at h
  split at h <;> cases h
  exact ⟨rfl, rfl⟩

theorem Moves.kept (h : Moves s t s' t') (ha : s.active = true) (ht : t.executes = 0) :
    Kept s s' ∧ t'.executes = 0 := by
  cases h with
  | take _ hn | drainEmpty _ hn =>
    rw [ha] at hn
    cases hn
  | finish => cases ht
  | _ => exact ⟨⟨rfl, rfl, rfl⟩, rfl⟩

theorem throwing_call {f : Throwing} {new : List Thread} (h : throwing.call s f = some (s', new)) :
    ∃ e, f = .of e ∧ call s e = some (s', new) := by
  cases f with
  | of e => exact ⟨e, rfl, h⟩
  | throws => cases h

theorem throwing_act {f : Throwing} {new : List Thread} (h : throwing.act s t f = some (s', t', new)) :
    new = [] ∧ ((∃ e, f = .of e ∧ t.act s e = some (s', t')) ∨ f = .throws ∧ s' = s ∧ t.unwind = some t') := by
  simp only [throwing, Option.map_eq_some_iff, Prod.mk.injEq] at h
  obtain ⟨⟨s₁, t₁⟩, h, rfl, rfl, rfl⟩ := h
  refine ⟨rfl, ?_⟩
  cases f with
  | of e => exact Or.inl ⟨e, rfl, h⟩
  | throws =>
    simp only [Thread.actThrowing, Option.map_eq_some_iff, Prod.mk.injEq] at h
    obtain ⟨t₂, h, rfl, rfl⟩ := h
    exact Or.inr ⟨rfl, rfl, h⟩

/-- Whatever is done, the queue stays wedged and nothing is executed or notified. -/
theorem Wedged.next {l : Label Throwing} (hW : Wedged c) (h : throwing.next c l = some c') :
    Wedged c' ∧ Kept c.shared c'.shared := by
  cases l with
  | call f =>
    obtain ⟨s', new, hc, rfl⟩ := Program.next_call h
    obtain ⟨e, rfl, hc⟩ := throwing_call hc
    obtain ⟨⟨n, rfl⟩, hnew⟩ := call_shared hc
    exact ⟨⟨hW.active, Family.forall_append hW.idle hnew, hW.history⟩, rfl, rfl, rfl⟩
  | act i f =>
    obtain ⟨t, s', t', new, ht, ha, rfl⟩ := Program.next_act h
    have hidle := hW.idle t (Family.mem_of_get ht)
    obtain ⟨rfl, ⟨e, rfl, hm⟩ | ⟨rfl, rfl, hu⟩⟩ := throwing_act ha
    · have hm := moves_of_act hm
      obtain ⟨hk, ht'⟩ := hm.kept hW.active hidle
      exact ⟨⟨hk.active.trans hW.active, Family.forall_step hW.idle ht' (by simp), hm.history hW.history⟩, hk⟩
    · rw [(unwind_eq hu).1] at hidle
      cases hidle

theorem Wedged.run {tr : List (Config Shared Thread × Label Throwing)} (hW : Wedged c) (h : throwing.Run c tr c') :
    Wedged c' ∧ Kept c.shared c'.shared := by
  induction h with
  | nil => exact ⟨hW, rfl, rfl, rfl⟩
  | snoc _ hn ih =>
    obtain ⟨hW', hk⟩ := ih.1.next hn
    exact ⟨hW', ih.2.trans hk⟩

theorem Inv.throws (hI : Inv c) (h : throwing.next c (.act i .throws) = some c') :
    Wedged c' ∧ c'.shared = c.shared := by
  obtain ⟨t, s', t', new, ht, ha, rfl⟩ := Program.next_act h
  obtain ⟨rfl, ⟨e, he, -⟩ | ⟨-, rfl, hu⟩⟩ := throwing_act ha
  · cases he
  obtain ⟨hexec, rfl⟩ := unwind_eq hu
  have ha : c.shared.active = true := by
    cases t with
    | executing caller op => exact active_of_executes (hI.executes_le ht)
    | _ => cases hexec
  have htot := Family.total_step Thread.executes ht .returned []
  rw [hI.active, ha, hexec] at htot
  refine ⟨⟨ha, Family.total_eq_zero.mp ?_, hI.history⟩, rfl⟩
  simpa [Thread.executes] using htot

/-- Up to the first exception the queue is as it should be, and after it wedged. -/
theorem next_inv_or {l : Label Throwing} (hI : Inv c ∨ Wedged c) (h : throwing.next c l = some c') :
    Inv c' ∨ Wedged c' := by
  rcases hI with hI | hW
  · cases l with
    | call f =>
      obtain ⟨s', new, hc, rfl⟩ := Program.next_call h
      obtain ⟨e, rfl, hc⟩ := throwing_call hc
      exact Or.inl (call_inv hI hc)
    | act i f =>
      cases f with
      | of e =>
        obtain ⟨t, s', t', new, ht, ha, rfl⟩ := Program.next_act h
        obtain ⟨rfl, ⟨e', he, hm⟩ | ⟨hf, -, -⟩⟩ := throwing_act ha
        · exact Or.inl (act_inv hI ht (moves_of_act hm))
        · cases hf
      | throws => exact Or.inr (hI.throws h).1
  · exact Or.inr (hW.next h).1

theorem throwing_inv {tr : List (Config Shared Thread × Label Throwing)} (h : throwing.Run initial tr c) :
    Inv c ∨ Wedged c :=
  h.invariant (I := fun c => Inv c ∨ Wedged c) (Or.inl initial_inv) (fun _ _ _ hI _ hn => next_inv_or hI hn)
    Program.along_true

end

/-! ## After an exception -/

/-- What a queue has to be like for an exception not to have broken it: nobody is active, those that wait
are notified, the rest is listed in order, and whatever is added up to some later state is executed. -/
structure Recovers (c : Config Shared Thread) : Prop where
  inactive : c.shared.active = false
  notified : ∀ t ∈ c.threads, ∀ n, t.blockedAt = some n → n < c.shared.notifications
  listed : c.shared.started ++ c.shared.operations = c.shared.added
  executes : ∀ tr d, throwing.Run c tr d → ∃ tr' d', throwing.Run d tr' d' ∧ d'.shared.added = d.shared.added ∧
    d'.shared.started = d.shared.added

/-- What it is like: only the list is as it should be. `before` is the state in which the operation threw. -/
structure Broken (before c : Config Shared Thread) : Prop where
  listed : c.shared.started ++ c.shared.operations = c.shared.added
  active : ∀ tr d, throwing.Run c tr d → d.shared.active = true
  executes : ∀ tr d, throwing.Run c tr d → d.shared.started = before.shared.started
  notified : ∀ tr d, throwing.Run c tr d → d.shared.notifications = before.shared.notifications

/-- An operation that throws breaks the queue for good, whichever thread it is executed on. -/
theorem run_throws_broken {tr : List (Config Shared Thread × Label Throwing)} {c c' : Config Shared Thread} {i : Nat}
    (h : throwing.Run initial tr c) (hn : throwing.next c (.act i .throws) = some c') : ¬ Recovers c' ∧ Broken c c' := by
  have hW : Wedged c' ∧ c'.shared = c.shared := by
    rcases throwing_inv h with hI | hW
    · exact hI.throws hn
    · -- a wedged queue has no operation under way that could throw
      obtain ⟨t, s', t', new, ht, ha, rfl⟩ := Program.next_act hn
      obtain ⟨-, ⟨e, he, -⟩ | ⟨-, -, hu⟩⟩ := throwing_act ha
      · cases he
      · have := hW.idle t (Family.mem_of_get ht)
        rw [(unwind_eq hu).1] at this
        cases this
  obtain ⟨hW, hs⟩ := hW
  refine ⟨fun hr => ?_, hW.history, fun tr d hd => ?_, fun tr d hd => ?_, fun tr d hd => ?_⟩
  · have := hr.inactive
    rw [hW.active] at this
    cases this
  · exact (hW.run hd).1.active
  · rw [(hW.run hd).2.started, hs]
  · rw [(hW.run hd).2.notifications, hs]

/-- A thread that waits for all executes the first of two operations, while another waits for it. -/
def executesFirst : List (Label Throwing) :=
  Label.call (Throwing.of (.async 0)) :: List.replicate 2 (.act 0 (.of .step)) ++
    Label.call (Throwing.of (.async 1)) :: List.replicate 2 (.act 1 (.of .step)) ++
    Label.call (Throwing.of (.wait .all)) :: List.replicate 2 (.act 2 (.of .step)) ++
    [Label.call (Throwing.of (.wait .one)), .act 3 (.of .step)]

theorem run_throws_broken_first :
    (throwing.last initial executesFirst).threads =
        [.returned, .returned, .executing (some .all) 0, .waitBlocked .one 0] ∧
      ¬ Recovers (throwing.last initial (executesFirst ++ [.act 2 .throws])) ∧
      Broken (throwing.last initial executesFirst) (throwing.last initial (executesFirst ++ [.act 2 .throws])) :=
  ⟨by decide, run_throws_broken (i := 2) (Program.run_last (l := executesFirst) (by decide)) (by decide)⟩

/-- The one that waits is not woken, and the operation behind stays listed. -/
theorem throws_not_recovers :
    ¬ ∀ (tr : List (Config Shared Thread × Label Throwing)) (c c' : Config Shared Thread) (i : Nat),
      throwing.Run initial tr c → throwing.next c (.act i .throws) = some c' → Recovers c' := fun h =>
  absurd (h _ _ (throwing.last initial (executesFirst ++ [.act 2 .throws])) 2
    (Program.run_last (l := executesFirst) (by decide)) (by decide)).inactive (by decide)

end Xdispatch.WaitableQueue
