import Xdispatch.Group.Invariant

/-!
# What a wait of a group guarantees

A consumable is drained once its counter has been taken back to zero: its
one-shot barrier is completed, or about to be. Adding an operation to a drained
consumable counts it where no barrier guards it any more, and a wait returns
while it is still outstanding. When every operation is added to a consumable
that is not drained, a wait that returns true has seen every operation owed to
it finish: `Pending` is what it still has to visit, and an owed operation has
finished or sits on a pending consumable.
-/

namespace Xdispatch.Group

/-! ## Drained consumables -/

def Thread.completes (k : Nat) : Thread → Bool
  | .operation _ (.complete c) => c == k
  | _ => false

/-- The barrier of `k` has been completed, or `m_resources.fetch_sub` has
returned one and the completion is next. -/
def drained (c : Config Shared Thread) (k : Nat) : Bool :=
  (c.shared.heap k).barrier || c.threads.any (Thread.completes k)

/-- The step is not an `add_resource` on a drained consumable. -/
def addsUndrained (c : Config Shared Thread) : Label Choice → Bool
  | .act i _ =>
    match c.threads[i]? with
    | some (.operation _ (.addResource k)) => !drained c k
    | _ => true
  | .call _ => true

theorem drained_iff {c : Config Shared Thread} {k : Nat} :
    drained c k = true ↔ (c.shared.heap k).barrier = true ∨ ∃ id, Thread.operation id (.complete k) ∈ c.threads := by
  simp only [drained, Bool.or_eq_true, List.any_eq_true]
  refine or_congr_right ⟨?_, ?_⟩
  · rintro ⟨t, ht, hk⟩
    cases t with
    | wait w => simp [Thread.completes] at hk
    | operation id ph =>
      cases ph with
      | complete c => simp only [Thread.completes, beq_iff_eq] at hk; subst hk; exact ⟨id, ht⟩
      | _ => simp [Thread.completes] at hk
  · rintro ⟨id, h⟩
    exact ⟨_, h, by simp [Thread.completes]⟩

/-- Nothing is counted on a drained consumable. -/
def Sealed (c : Config Shared Thread) : Prop :=
  ∀ k, drained c k = true → (c.shared.heap k).resources = 0

theorem operation_barrier {s s' : Shared} {id : Nat} {ph ph' : OperationPhase}
    (h : ph.act s id = some (s', ph')) {k : Nat} (hb : (s'.heap k).barrier = true) :
    (s.heap k).barrier = true ∨ ph = .complete k := by
  rcases operation_heap h k with he | ⟨-, he⟩ | ⟨-, he⟩ | ⟨hc, -⟩
  · exact Or.inl (he ▸ hb)
  · rw [he] at hb
    exact Or.inl hb
  · rw [he] at hb
    exact Or.inl hb
  · exact Or.inr hc

theorem operation_drained {c : Config Shared Thread} {i id : Nat} {ph ph' : OperationPhase} {s' : Shared}
    (ht : c.threads[i]? = some (.operation id ph)) (h : ph.act c.shared id = some (s', ph')) {k : Nat}
    (hd : drained ⟨s', c.threads.set i (.operation id ph') ++ []⟩ k = true) :
    drained c k = true ∨ (ph = .fetchSub k ∧ (c.shared.heap k).resources = 1) := by
  rw [drained_iff] at hd
  rcases hd with hb | ⟨id', hm⟩
  · rcases operation_barrier h hb with hb | rfl
    · exact Or.inl (drained_iff.mpr (Or.inl hb))
    · exact Or.inl (drained_iff.mpr (Or.inr ⟨id, Family.mem_of_get ht⟩))
  · simp only [List.append_nil] at hm
    rcases List.mem_or_eq_of_mem_set hm with hm | hm
    · exact Or.inl (drained_iff.mpr (Or.inr ⟨id', hm⟩))
    · cases hm
      cases ph with
      | done => simp [OperationPhase.act] at h
      | fetchSub k' =>
        simp only [OperationPhase.act, Option.some.injEq, Prod.mk.injEq] at h
        obtain ⟨-, h⟩ := h
        split at h
        · rename_i h1
          cases h
          exact Or.inr ⟨rfl, h1⟩
        · cases h
      | _ => simp [OperationPhase.act] at h

theorem operation_sealed {c : Config Shared Thread} (hI : Inv c) (hS : Sealed c) {i id : Nat}
    {ph ph' : OperationPhase} {s' : Shared} {e : Choice} (ht : c.threads[i]? = some (.operation id ph))
    (hC : addsUndrained c (.act i e) = true) (h : ph.act c.shared id = some (s', ph')) :
    Sealed ⟨s', c.threads.set i (.operation id ph') ++ []⟩ := by
  intro k hd
  have hle := hI.countedOn_le (Family.mem_of_get ht)
  have hres := operation_resources h hle k
  rcases operation_drained ht h hd with hdk | ⟨rfl, h1⟩
  · have h0 := hS k hdk
    have hle := hle k
    rw [Thread.countedOn, h0] at hle
    have hph' : ph'.countedOn k = 0 := by
      cases ph with
      | addResource k' =>
        simp only [OperationPhase.act, Option.some.injEq, Prod.mk.injEq] at h
        obtain ⟨-, rfl⟩ := h
        simp only [addsUndrained, ht, Bool.not_eq_true'] at hC
        have hne : k' ≠ k := fun e => by rw [e, hdk] at hC; cases hC
        simp [OperationPhase.countedOn, hne]
      | done => simp [OperationPhase.act] at h
      | fetchSub k' =>
        cases h
        exact fetched_countedOn k' k
      | _ =>
        simp only [OperationPhase.act, Option.some.injEq, Prod.mk.injEq] at h
        obtain ⟨-, rfl⟩ := h
        first
          | rfl
          | exact Nat.le_zero.mp hle
    show (s'.heap k).resources = 0
    omega
  · have hph' : ph'.countedOn k = 0 := by
      cases h
      exact fetched_countedOn k k
    have hph : (OperationPhase.fetchSub k).countedOn k = 1 := by simp [OperationPhase.countedOn]
    show (s'.heap k).resources = 0
    omega

/-! ## What a wait still has to visit -/

def Pending (s : Shared) : WaitPhase → Nat → Prop
  | .pooled, k | .load, k | .swap _, k => Chain s.heap s.consumable k
  | .descend c stack, k => Chain s.heap c k ∨ k ∈ stack
  | .check c stack, k | .barrierWait c stack, k | .blocked c stack _, k => k = c ∨ k ∈ stack
  | .returned r, _ => r = false
  | .submitted, _ => True

/-- An owed operation has finished, or is counted where the wait has yet to look. -/
def Owed (s : Shared) (w : Wait) : Prop :=
  ∀ p ∈ w.owed, p ∈ s.added ∧ (p.1 ∈ s.executed ∨ Pending s w.phase p.2)

theorem Pending.mono {s s' : Shared} (hg : Grows s s') {ph : WaitPhase} {k : Nat} (h : Pending s ph k) :
    Pending s' ph k := by
  cases ph with
  | pooled | load | swap _ => exact hg.head k h
  | descend c stack => exact h.imp_left fun h => h.mono hg.preceeding
  | _ => exact h

theorem Owed.mono {s s' : Shared} (hg : Grows s s') (ha : ∀ p ∈ s.added, p ∈ s'.added) {w : Wait}
    (h : Owed s w) : Owed s' w :=
  fun p hp => ⟨ha p (h p hp).1, (h p hp).2.imp (hg.executed _) (Pending.mono hg)⟩

theorem pending_satisfied {s : Shared} {stack : List Nat} {k : Nat} (h : k ∈ stack) :
    Pending s (satisfied stack) k := by
  cases stack with
  | nil => cases h
  | cons c stack => exact List.mem_cons.mp h

/-- The consumable `k` leaves the pending ones only when nothing is counted on it, or
its barrier has been completed. -/
theorem wait_visits {c : Config Shared Thread} (hI : Inv c) {w : Wait} {e : Choice} {s' : Shared}
    {ph : WaitPhase} (h : w.act c.shared e = some (s', ph)) {k : Nat} (hk : Pending c.shared w.phase k) :
    Pending s' ph k ∨ (c.shared.heap k).resources = 0 ∨ (c.shared.heap k).barrier = true := by
  have done : ∀ {c' : Nat} {stack : List Nat},
      (c.shared.heap c').resources = 0 ∨ (c.shared.heap c').barrier = true → k = c' ∨ k ∈ stack →
      Pending c.shared (satisfied stack) k ∨ (c.shared.heap k).resources = 0 ∨ (c.shared.heap k).barrier = true := by
    intro c' stack h0 hk
    rcases hk with rfl | hk
    · exact Or.inr h0
    · exact Or.inl (pending_satisfied hk)
  cases wait_cases h with
  | taken hp | loads hp | reloads _ _ hp _ | counts _ _ hp _ | blocks _ _ hp _ =>
    rw [hp] at hk
    exact Or.inl hk
  | exchanges hp =>
    rw [hp] at hk
    exact Or.inl (Or.inl (Chain.mono (grows_swap hI.fresh).preceeding hk))
  | descends c' p stack hp hprec _ =>
    rw [hp] at hk
    rcases hk with hk | hk
    · rcases hk.some_cases hprec with rfl | hk
      · exact Or.inl (Or.inr (List.mem_cons_self ..))
      · exact Or.inl (Or.inl hk)
    · exact Or.inl (Or.inr (List.mem_cons_of_mem _ hk))
  | arrives c' stack hp hlast =>
    rw [hp] at hk
    -- a consumable precedes only later ones, so that this one is the last
    have hnone : (c.shared.heap c').preceeding = none := Option.eq_none_iff_forall_ne_some.mpr fun p hp =>
      absurd (hlast p hp) (hI.preceeding_lt _ _ hp).ne
    exact Or.inl (hk.imp_left (Chain.none_eq hnone))
  | drained c' stack hp h0 =>
    rw [hp] at hk
    exact done (Or.inl h0) hk
  | completed c' stack hp hb | wakes c' stack _ hp hb =>
    rw [hp] at hk
    exact done (Or.inr hb) hk
  | expires => exact Or.inl rfl
  | submits => exact Or.inl trivial

theorem wait_pending {c : Config Shared Thread} (hI : Inv c) (hS : Sealed c) {w : Wait} {e : Choice} {s' : Shared}
    {ph : WaitPhase} (h : w.act c.shared e = some (s', ph)) {k : Nat} (hk : Pending c.shared w.phase k) :
    Pending s' ph k ∨ (c.shared.heap k).resources = 0 := by
  rcases wait_visits hI h hk with hk | h0 | hb
  · exact Or.inl hk
  · exact Or.inr h0
  · exact Or.inr (hS k (drained_iff.mpr (Or.inl hb)))

/-! ## Runs that add to undrained consumables -/

structure WaitInv (c : Config Shared Thread) : Prop where
  inv : Inv c
  sealed : Sealed c
  owed : ∀ w, Thread.wait w ∈ c.threads → Owed c.shared w

theorem initial_waitInv (now : Nat) : WaitInv (initial now) := by
  refine ⟨initial_inv now, fun k h => ?_, fun w h => ?_⟩
  · simp [drained, initial] at h
  · simp [initial] at h

theorem call_waitInv {c : Config Shared Thread} (hW : WaitInv c) {e : Choice} {s' : Shared}
    {new : List Thread} (h : call c.shared e = some (s', new)) : WaitInv ⟨s', c.threads ++ new⟩ := by
  have hI := call_inv hW.inv h
  have hg := call_grows h
  have hnew : s'.heap = c.shared.heap ∧ s'.added = c.shared.added ∧
      (∀ k, new.any (Thread.completes k) = false) ∧ ∀ w, Thread.wait w ∈ new → Owed s' w := by
    have howed : ∀ (n : Option Nat) (t : Int) (ph : WaitPhase) (s : Shared),
        (ph = .load ∨ ph = .pooled) → s.heap = c.shared.heap → s.consumable = c.shared.consumable →
        s.added = c.shared.added → Owed s ⟨n, t, c.shared.added, ph⟩ := by
      rintro n t ph s hph hh hc ha p hp
      refine ⟨ha ▸ hp, Or.inr ?_⟩
      rcases hph with rfl | rfl <;> simpa only [Pending, hh, hc] using (hW.inv.added p hp).1
    cases e with
    | async =>
      cases h
      exact ⟨rfl, rfl, fun k => rfl, fun w hw => by simp at hw⟩
    | wait t =>
      cases h
      refine ⟨rfl, rfl, fun k => rfl, fun w hw => ?_⟩
      cases List.mem_singleton.mp hw
      exact howed _ _ _ _ (Or.inl rfl) rfl rfl rfl
    | notify =>
      cases h
      refine ⟨rfl, rfl, fun k => rfl, fun w hw => ?_⟩
      cases List.mem_singleton.mp hw
      exact howed _ _ _ _ (Or.inr rfl) rfl rfl rfl
    | tick n =>
      cases h
      exact ⟨rfl, rfl, fun k => rfl, fun w hw => by simp at hw⟩
    | _ => simp [call] at h
  obtain ⟨hheap, hadd, hcompl, hw⟩ := hnew
  refine ⟨hI, fun k hd => ?_, fun w hm => ?_⟩
  · simp only [drained, hheap, List.any_append, hcompl, Bool.or_false] at hd
    show (s'.heap k).resources = 0
    rw [hheap]
    exact hW.sealed k hd
  · rcases List.mem_append.mp hm with hm | hm
    · exact (hW.owed w hm).mono hg fun p hp => by rw [hadd]; exact hp
    · exact hw w hm

theorem wait_sealed {c : Config Shared Thread} (hS : Sealed c) {i : Nat} {w : Wait} {e : Choice}
    {s' : Shared} {ph : WaitPhase} (h : w.act c.shared e = some (s', ph)) :
    Sealed ⟨s', c.threads.set i (.wait { w with phase := ph }) ++ []⟩ := by
  intro k hd
  have hheap : s'.heap k = c.shared.heap k ∨ s'.heap k = ⟨some c.shared.consumable, 0, false⟩ := by
    rcases wait_shared h with ⟨rfl, -⟩ | ⟨-, rfl, -⟩ | ⟨n, r, -, -, -, rfl⟩
    · exact Or.inl rfl
    · by_cases hk : k = c.shared.size
      · subst hk; exact Or.inr (by simp [Shared.swap])
      · exact Or.inl (by simp [Shared.swap, Function.update_of_ne hk])
    · exact Or.inl rfl
  rcases hheap with hheap | hheap
  · show (s'.heap k).resources = 0
    rw [hheap]
    refine hS k (drained_iff.mpr ?_)
    rcases drained_iff.mp hd with hb | ⟨id, hm⟩
    · exact Or.inl (hheap ▸ hb)
    · exact Or.inr ⟨id, Family.mem_of_step hm (by simp)⟩
  · show (s'.heap k).resources = 0
    rw [hheap]

theorem wait_owed {c : Config Shared Thread} (hW : WaitInv c) {w : Wait} {e : Choice} {s' : Shared}
    {ph : WaitPhase} (hm : Thread.wait w ∈ c.threads) (h : w.act c.shared e = some (s', ph)) :
    Owed s' { w with phase := ph } := by
  intro p hp
  obtain ⟨ha, ho⟩ := hW.owed w hm p hp
  have hg := wait_grows hW.inv h
  have hadd : s'.added = c.shared.added := by
    rcases wait_shared h with ⟨rfl, -⟩ | ⟨-, rfl, -⟩ | ⟨n, r, -, -, -, rfl⟩ <;> rfl
  refine ⟨hadd ▸ ha, ?_⟩
  rcases ho with ho | ho
  · exact Or.inl (hg.executed _ ho)
  · rcases wait_pending hW.inv hW.sealed h ho with ho | h0
    · exact Or.inr ho
    · exact Or.inl (hg.executed _ (hW.inv.executed_of_zero ha h0))

theorem act_waitInv {c : Config Shared Thread} (hW : WaitInv c) {i : Nat} {t t' : Thread} {e : Choice}
    {s' : Shared} {new : List Thread} (hC : addsUndrained c (.act i e) = true) (ht : c.threads[i]? = some t)
    (ha : act c.shared t e = some (s', t', new)) : WaitInv ⟨s', c.threads.set i t' ++ new⟩ := by
  have hI := act_inv hW.inv ht ha
  obtain ⟨rfl, ⟨id, ph, ph', rfl, rfl, h⟩ | ⟨w, ph, rfl, rfl, h⟩⟩ := act_cases ha
  · have hadd : ∀ p ∈ c.shared.added, p ∈ s'.added := by
      intro p hp
      cases ph with
      | done => simp [OperationPhase.act] at h
      | _ => cases h; simp [hp, Shared.modify]
    refine ⟨hI, operation_sealed hW.inv hW.sealed ht hC h, fun w hm => ?_⟩
    exact (hW.owed w (Family.mem_of_step hm (by simp))).mono (operation_grows h) hadd
  · refine ⟨hI, wait_sealed hW.sealed h, fun w' hm => ?_⟩
    simp only [List.append_nil] at hm
    rcases List.mem_or_eq_of_mem_set hm with hm | hm
    · refine (hW.owed w' hm).mono (wait_grows hW.inv h) fun p hp => ?_
      rcases wait_shared h with ⟨rfl, -⟩ | ⟨-, rfl, -⟩ | ⟨n, r, -, -, -, rfl⟩ <;> exact hp
    · cases hm
      exact wait_owed hW (Family.mem_of_get ht) h

theorem run_waitInv {now : Nat} {tr : List (Config Shared Thread × Label Choice)} {c : Config Shared Thread}
    (h : group.Run (initial now) tr c) (hC : Program.Along (fun c l => addsUndrained c l = true) tr) :
    WaitInv c :=
  h.invariant_by (initial_waitInv now) (fun _ _ _ _ hW _ h => call_waitInv hW h)
    (fun _ _ _ _ _ _ _ hW hC ht h => act_waitInv hW hC ht h) hC

/-! ## `wait` -/

/-- Every wait that has returned true has seen the operations owed to it finish. -/
def WaitsExecuted (c : Config Shared Thread) : Prop :=
  ∀ w, Thread.wait w ∈ c.threads → w.notification = none → w.phase = .returned true →
    ∀ p ∈ w.owed, p.1 ∈ c.shared.executed

/-- **A wait that returns true.** In a run that adds no operation to a drained
consumable, the operations added before the wait have all finished. -/
theorem wait_executed {now : Nat} {tr : List (Config Shared Thread × Label Choice)} {c : Config Shared Thread}
    (h : group.Run (initial now) tr c) (hC : Program.Along (fun c l => addsUndrained c l = true) tr) :
    WaitsExecuted c := by
  intro w hm _ hp p ho
  rcases ((run_waitInv h hC).owed w hm p ho).2 with he | hk
  · exact he
  · rw [hp] at hk
    cases hk

def runOne (i : Nat) : List (Label Choice) := .call .async :: List.replicate 8 (.act i .step)

def waitAfterOne : List (Label Choice) :=
  runOne 0 ++ Label.call (Choice.wait waitForever) :: List.replicate 4 (.act 1 .step)

theorem wait_executed_one : WaitsExecuted (group.last (initial 0) waitAfterOne) ∧
    (group.last (initial 0) waitAfterOne).threads[1]? =
      some (.wait ⟨none, waitForever, [(0, 0)], .returned true⟩) :=
  ⟨wait_executed (Program.run_last (by decide)) (by decide), by decide⟩

/-- The first operation has consumed its resource before the second is added
to the same consumable; the wait finds the barrier of the first and returns. -/
def lateAdd : List (Label Choice) :=
  runOne 0 ++ Label.call Choice.async :: List.replicate 3 (.act 1 .step) ++
    Label.call (Choice.wait waitForever) :: List.replicate 5 (.act 2 .step)

theorem late_add_returns_early :
    ¬ ∀ now tr c, group.Run (initial now) tr c → WaitsExecuted c := by
  intro hall
  have hw : (group.last (initial 0) lateAdd).threads[2]? =
      some (.wait ⟨none, waitForever, [(0, 0), (1, 0)], .returned true⟩) := by decide
  have he : (group.last (initial 0) lateAdd).shared.executed = [0] := by decide
  have := hall 0 _ _ (Program.run_last (by decide)) _ (Family.mem_of_get hw) rfl rfl (1, 0) (by simp)
  rw [he] at this
  simp at this

end Xdispatch.Group
