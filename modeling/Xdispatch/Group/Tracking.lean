import Xdispatch.Group.Timeouts

/-!
# No operation is lost from tracking

An operation is counted where its `async` has found `m_consumable`, which may be
several swaps back by then. Each swap links the consumable it replaces, so that a
wait still comes to it. Once every operation has consumed, nothing is counted
anywhere, and a wait passes all consumables without their barriers.
-/

namespace Xdispatch.Group

/-- `add_resource` has been executed, and `m_resources.fetch_sub` has not. -/
def OperationPhase.counted : OperationPhase → Bool
  | .post _ | .queued _ | .running _ | .consume _ | .fetchSub _ => true
  | _ => false

/-- All operations that have been added have consumed. -/
def Consumed (c : Config Shared Thread) : Prop :=
  ∀ id ph, Thread.operation id ph ∈ c.threads → ph.counted = false

/-- The step is not an `add_resource`. -/
def addsNothing (c : Config Shared Thread) : Label Choice → Bool
  | .act i _ =>
    match c.threads[i]? with
    | some (.operation _ (.addResource _)) => false
    | _ => true
  | .call _ => true

/-- The wait has not come to a barrier, nor has it timed out. -/
def WaitPhase.clear : WaitPhase → Bool
  | .barrierWait .. | .blocked .. | .returned false => false
  | _ => true

/-- Every operation that has been added and has not consumed is counted on one consumable, in the chain of
`m_consumable`; the counters of the chain are the numbers of these operations, and it does not lead back. When all
have consumed, a wait does not block while nothing is added, and returns true by its own steps. -/
structure Tracked (c : Config Shared Thread) : Prop where
  counted : ∀ id ph, Thread.operation id ph ∈ c.threads → ph.counted = true →
    ∃ k, Chain c.shared.heap c.shared.consumable k ∧ ∀ k', ph.countedOn k' = if k = k' then 1 else 0
  resources : ∀ k, Chain c.shared.heap c.shared.consumable k →
    (c.shared.heap k).resources = Family.total (Thread.countedOn k) c.threads
  acyclic : ∀ k p, Chain c.shared.heap c.shared.consumable k → (c.shared.heap k).preceeding = some p →
    ¬ Chain c.shared.heap p k
  passes : Consumed c → ∀ i t, Called c i t → ∀ tr c', group.Run c tr c' →
    Program.Along (fun c l => addsNothing c l = true) tr → ∃ w, c'.threads[i]? = some (.wait w) ∧ w.phase.clear = true
  returns : Consumed c → ∀ i t, Called c i t → ∃ (es : List Choice) (c' : Config Shared Thread), (∀ e ∈ es, e = .step) ∧
    group.exec c (es.map (.act i)) = some c' ∧ ∃ w, c'.threads[i]? = some (.wait w) ∧ w.phase = .returned true

section
variable {c c' : Config Shared Thread} {s s' : Shared} {i : Nat} {t : Int} {w : Wait} {e : Choice}

theorem countedOn_of_not_counted {ph : OperationPhase} (h : ph.counted = false) (k : Nat) : ph.countedOn k = 0 := by
  cases ph with
  | load | addResource | complete | done => rfl
  | _ => cases h

theorem Consumed.resources (hC : Consumed c) (hI : Inv c) (k : Nat) : (c.shared.heap k).resources = 0 := by
  rw [hI.resources k, Family.total_eq_zero]
  intro t ht
  cases t with
  | operation id ph => exact countedOn_of_not_counted (hC id ph ht) k
  | wait w => rfl

theorem operation_not_counted {id : Nat} {ph ph' : OperationPhase} (h : ph.act s id = some (s', ph'))
    (hp : ph.counted = false) (ha : ∀ k, ph ≠ .addResource k) : ph'.counted = false := by
  cases ph with
  | load =>
    cases h
    rfl
  | addResource k => exact absurd rfl (ha k)
  | complete k =>
    cases h
    rfl
  | done => cases h
  | _ => cases hp

theorem clear_satisfied (stack : List Nat) : (satisfied stack).clear = true := by
  cases stack <;> rfl

theorem wait_clear {ph : WaitPhase} (h : w.act s e = some (s', ph)) (h0 : ∀ k, (s.heap k).resources = 0)
    (hw : w.phase.clear = true) : ph.clear = true := by
  cases wait_cases h with
  | drained c stack | completed c stack | wakes c stack => exact clear_satisfied stack
  | counts c _ _ hr => exact absurd (h0 c) hr
  | blocks c stack hp _ | expires c stack _ hp _ _ =>
    rw [hp] at hw
    cases hw
  | _ => rfl

/-- A wait on its way past the consumables. -/
structure Passing (i : Nat) (c : Config Shared Thread) : Prop where
  inv : Inv c
  consumed : Consumed c
  thread : ∃ w, c.threads[i]? = some (.wait w) ∧ w.notification = none ∧ w.phase ≠ .submitted ∧ w.phase.clear = true

theorem passing_of_called (hI : Inv c) (hC : Consumed c) (h : Called c i t) : Passing i c :=
  h.elim fun _ hi => ⟨hI, hC, _, hi, rfl, nofun, rfl⟩

theorem Passing.call {new : List Thread} (hP : Passing i c) (h : call c.shared e = some (s', new)) :
    Passing i ⟨s', c.threads ++ new⟩ := by
  obtain ⟨w, hi, hw⟩ := hP.thread
  refine ⟨call_inv hP.inv h, fun id ph hm => ?_, w, Family.get_append hi new, hw⟩
  rcases List.mem_append.mp hm with hm' | hm'
  · exact hP.consumed id ph hm'
  · cases e with
    | async =>
      cases h
      cases List.mem_singleton.mp hm'
      rfl
    | wait | notify | tick =>
      cases h
      simp at hm'
    | _ => cases h

theorem Passing.act {j : Nat} {u u' : Thread} {new : List Thread} (hP : Passing i c)
    (hA : addsNothing c (.act j e) = true) (hj : c.threads[j]? = some u) (h : act c.shared u e = some (s', u', new)) :
    Passing i ⟨s', c.threads.set j u' ++ new⟩ := by
  obtain ⟨w, hi, hn, hs, hw⟩ := hP.thread
  have hI := act_inv hP.inv hj h
  obtain ⟨rfl, ⟨id, ph, ph', rfl, rfl, ho⟩ | ⟨w₁, ph, rfl, rfl, hact⟩⟩ := act_cases h
  · have hij : j ≠ i := by
      rintro rfl
      cases hi.symm.trans hj
    refine ⟨hI, fun id₁ ph₁ hm => ?_, w, Family.get_step_of_ne hi hij _ _, hn, hs, hw⟩
    rcases Family.step_cases hj hm with hm | hm | ⟨m, -, hm⟩
    · cases hm
      refine operation_not_counted ho (hP.consumed id ph (Family.mem_of_get hj)) fun k hk => ?_
      subst hk
      simp [addsNothing, hj] at hA
    · cases hm
    · exact hP.consumed id₁ ph₁ (Family.mem_of_get hm)
  · refine ⟨hI, fun id₁ ph₁ hm => ?_, ?_⟩
    · rcases Family.step_cases hj hm with hm | hm | ⟨m, -, hm⟩
      · cases hm
      · cases hm
      · exact hP.consumed id₁ ph₁ (Family.mem_of_get hm)
    · by_cases hij : j = i
      · subst hij
        cases hi.symm.trans hj
        exact ⟨_, Family.get_step hj _ _, hn, (wait_sameWork hn hact).2, wait_clear hact (hP.consumed.resources hP.inv) hw⟩
      · exact ⟨w, Family.get_step_of_ne hi hij _ _, hn, hs, hw⟩

theorem run_passing {tr : List (Config Shared Thread × Label Choice)} (hP : Passing i c) (h : group.Run c tr c')
    (hA : Program.Along (fun c l => addsNothing c l = true) tr) : Passing i c' :=
  h.invariant_by hP (fun _ _ _ _ hP _ h => hP.call h) (fun _ _ _ _ _ _ _ hP hA hj h => hP.act hA hj h) hA

theorem returns_alone (hP : Passing i c) : ∃ (es : List Choice) (c' : Config Shared Thread), (∀ e ∈ es, e = .step) ∧
    group.exec c (es.map (.act i)) = some c' ∧ ∃ w, c'.threads[i]? = some (.wait w) ∧ w.phase = .returned true := by
  have hkeep : ∀ c e c', e = Choice.step → Passing i c → group.next c (.act i e) = some c' → Passing i c' := by
    rintro c e c' rfl hP h
    obtain ⟨u, s', u', new, hj, ha, rfl⟩ := Program.next_act h
    refine hP.act ?_ hj ha
    obtain ⟨w, hi, -⟩ := hP.thread
    simp [addsNothing, hi]
  have hstep : ∀ c t, Passing i c → c.threads[i]? = some t → (∃ w, t = .wait w ∧ w.phase = .returned true) ∨
      ∃ e s t' new, e = .step ∧ group.act c.shared t e = some (s, t', new) ∧ t'.rank s < t.rank c.shared := by
    intro c t hP ht
    obtain ⟨w, hi, -, hs, hw⟩ := hP.thread
    cases ht.symm.trans hi
    by_cases hr : w.phase = .returned true
    · exact Or.inl ⟨w, rfl, hr⟩
    · have hm : w.phase.moving = true := by
        cases hp : w.phase with
        | blocked k stack d =>
          rw [hp] at hw
          cases hw
        | returned r =>
          cases r with
          | true => exact absurd hp hr
          | false =>
            rw [hp] at hw
            cases hw
        | submitted => exact absurd hp hs
        | _ => rfl
      obtain ⟨s', ph, hact, hlt⟩ := wait_step hP.inv hm
      exact Or.inr ⟨.step, s', .wait { w with phase := ph }, [], rfl, by simp [group, act, hact], hlt⟩
  obtain ⟨w, hi, -⟩ := hP.thread
  obtain ⟨es, c', t', hes, hex, -, ht', w', rfl, hr⟩ := Program.exists_alone (P := group) (· = Choice.step)
    (fun t => ∃ w, t = Thread.wait w ∧ w.phase = .returned true) Thread.rank hkeep hstep _ c _ (Nat.lt_succ_self _) hP hi
  exact ⟨es, c', hes, hex, w', ht', hr⟩

end

/-- **Tracking.** In every state of every run. -/
theorem run_tracked {now : Nat} {tr : List (Config Shared Thread × Label Choice)} {c : Config Shared Thread}
    (h : group.Run (initial now) tr c) : Tracked c := by
  have hI := run_inv h
  refine ⟨fun id ph hm hp => ?_, fun k _ => hI.resources k, fun k p _ hk hc => ?_, fun hC i t hi tr c' hr hA => ?_,
    fun hC i t hi => returns_alone (passing_of_called hI hC hi)⟩
  · have hlink := hI.linked id ph hm
    cases ph with
    | post k | queued k | running k | consume k | fetchSub k => exact ⟨k, hlink k rfl, fun _ => rfl⟩
    | _ => cases hp
  · have := hc.le hI.preceeding_lt
    have := hI.preceeding_lt k p hk
    omega
  · obtain ⟨w, hi, -, -, hw⟩ := (run_passing (passing_of_called hI hC hi) hr hA).thread
    exact ⟨w, hi, hw⟩

/-- An operation that has been added between two waits, the first of which has timed out. -/
def addBetween : List (Label Choice) :=
  Label.call Choice.async :: List.replicate 3 (.act 0 .step) ++
    Label.call (Choice.wait 0) :: List.replicate 5 (.act 1 .step) ++
    Label.act 1 Choice.timeout :: .call .async :: List.replicate 3 (.act 2 .step) ++
    Label.call (Choice.wait 0) :: List.replicate 2 (.act 3 .step)

theorem run_tracked_between : Tracked (group.last (initial 0) addBetween) ∧
    (group.last (initial 0) addBetween).shared.consumable = 2 ∧
    (List.range 3).map (fun k => ((group.last (initial 0) addBetween).shared.heap k).resources) = [1, 1, 0] :=
  ⟨run_tracked (Program.run_last (by decide)), by decide, by decide⟩

end Xdispatch.Group
