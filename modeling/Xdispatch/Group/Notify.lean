import Xdispatch.Group.Waiting

/-!
# Notifications

`group_impl::notify` hands an operation to the pool that waits on the group
with `milliseconds::max ()`, drops the result and submits the notification. On
the clock of the condition variable this time-out is in the past
(`waitForDeadline_max`), so the wait gives up wherever it would have to block.
A notification is therefore submitted exactly once, whatever the order of the
steps; it is submitted after the operations owed to it when it never reaches a
barrier that is still open.
-/

namespace Xdispatch.Group

/-! ## Exactly once -/

def Thread.submittedAs (n : Nat) : Thread → Nat
  | .wait ⟨some m, _, _, .submitted⟩ => if m = n then 1 else 0
  | _ => 0

def Thread.notifies (n : Nat) : Thread → Nat
  | .wait w => if w.notification = some n then 1 else 0
  | .operation _ _ => 0

structure NotifyInv (c : Config Shared Thread) : Prop where
  submitted : ∀ n, c.shared.submitted.count n = Family.total (Thread.submittedAs n) c.threads
  unique : ∀ n, Family.total (Thread.notifies n) c.threads = if n < c.shared.notifications then 1 else 0
  blocked : ∀ w n, Thread.wait w ∈ c.threads → w.notification = some n → w.timeout = millisecondsMax ∧
    ∀ k stack d, w.phase = .blocked k stack d → ∃ t, d = some t ∧ t ≤ c.shared.now

theorem initial_notifyInv (now : Nat) : NotifyInv (initial now) :=
  ⟨fun _ => rfl, fun _ => rfl, fun w n h => by simp [initial] at h⟩

theorem submittedAs_of_ne {w : Wait} (h : w.phase ≠ .submitted) (n : Nat) : (Thread.wait w).submittedAs n = 0 := by
  obtain ⟨m, t, o, ph⟩ := w
  cases m <;> cases ph <;> first | rfl | exact absurd rfl h

theorem submittedAs_submitted {w : Wait} {m : Nat} (hn : w.notification = some m) (n : Nat) :
    (Thread.wait { w with phase := .submitted }).submittedAs n = if m = n then 1 else 0 := by
  obtain ⟨m', t, o, ph⟩ := w
  cases hn
  rfl

theorem call_notifyInv {c : Config Shared Thread} (hN : NotifyInv c) {e : Choice} {s' : Shared}
    {new : List Thread} (h : call c.shared e = some (s', new)) : NotifyInv ⟨s', c.threads ++ new⟩ := by
  have key : ∀ {s' : Shared} {new : List Thread}, s'.submitted = c.shared.submitted → c.shared.now ≤ s'.now →
      (∀ n, Family.total (Thread.submittedAs n) new = 0) →
      (∀ n, (if n < s'.notifications then 1 else 0) =
        (if n < c.shared.notifications then 1 else 0) + Family.total (Thread.notifies n) new) →
      (∀ w n, Thread.wait w ∈ new → w.notification = some n → w.timeout = millisecondsMax ∧ w.phase = .pooled) →
      NotifyInv ⟨s', c.threads ++ new⟩ := by
    intro s' new hs hnow h0 hu hb
    refine ⟨fun n => ?_, fun n => ?_, fun w n hm hn => ?_⟩
    · rw [Family.total_append, h0, Nat.add_zero]
      show s'.submitted.count n = _
      rw [hs]
      exact hN.submitted n
    · rw [Family.total_append, hN.unique]
      exact (hu n).symm
    · rcases List.mem_append.mp hm with hm | hm
      · obtain ⟨ht, hd⟩ := hN.blocked w n hm hn
        refine ⟨ht, fun k stack d hp => ?_⟩
        obtain ⟨t, rfl, hle⟩ := hd k stack d hp
        exact ⟨t, rfl, Int.le_trans hle hnow⟩
      · obtain ⟨ht, hp⟩ := hb w n hm hn
        exact ⟨ht, fun k stack d hp' => by rw [hp] at hp'; cases hp'⟩
  cases e with
  | async =>
    cases h
    exact key rfl (Int.le_refl _) (fun n => rfl) (fun n => rfl) fun w n hm => by simp at hm
  | wait t =>
    cases h
    refine key rfl (Int.le_refl _) (fun n => rfl) (fun n => rfl) fun w n hm hn => ?_
    cases List.mem_singleton.mp hm
    cases hn
  | notify =>
    cases h
    refine key rfl (Int.le_refl _) (fun n => rfl) (fun n => ?_) fun w n hm hn => ?_
    · simp only [Family.total_cons, Family.total_nil, Thread.notifies, Option.some.injEq]
      rcases Nat.lt_trichotomy n c.shared.notifications with hlt | rfl | hgt
      · have : ¬ c.shared.notifications = n := by omega
        simp [hlt, this, show n < c.shared.notifications + 1 by omega]
      · simp
      · have : ¬ c.shared.notifications = n := by omega
        simp [this, show ¬ n < c.shared.notifications by omega, show ¬ n < c.shared.notifications + 1 by omega]
    · cases List.mem_singleton.mp hm
      exact ⟨rfl, rfl⟩
  | tick k =>
    cases h
    refine key rfl ?_ (fun n => rfl) (fun n => rfl) fun w n hm => by simp at hm
    exact Int.le_add_of_nonneg_right (Int.natCast_nonneg _)
  | _ => simp [call] at h

theorem blocked_deadline {s s' : Shared} {w : Wait} {e : Choice} {k : Nat} {stack : List Nat} {d : Option Int}
    (h : w.act s e = some (s', .blocked k stack d)) : s' = s ∧ (s.heap k).barrier = false ∧
      d = if w.timeout = waitForever then none else some (waitForDeadline s.now w.timeout) := by
  have hsat : ∀ st, satisfied st ≠ .blocked k stack d := by
    intro st; cases st <;> simp [satisfied]
  generalize hph : WaitPhase.blocked k stack d = ph at h hsat
  cases wait_cases h with
  | blocks _ _ _ hb =>
    cases hph
    exact ⟨rfl, hb, rfl⟩
  | drained | completed | wakes => exact absurd rfl (hsat _)
  | _ => cases hph

theorem wait_blocked {s s' : Shared} {w : Wait} {e : Choice} (h0 : 0 ≤ s.now) (ht : w.timeout = millisecondsMax)
    {k : Nat} {stack : List Nat} {d : Option Int} (h : w.act s e = some (s', .blocked k stack d)) :
    ∃ t, d = some t ∧ t ≤ s'.now := by
  obtain ⟨rfl, -, rfl⟩ := blocked_deadline h
  rw [if_neg (by rw [ht]; decide), ht]
  exact ⟨_, rfl, waitForDeadline_max h0⟩

theorem call_now {s s' : Shared} {e : Choice} {new : List Thread} (h : call s e = some (s', new)) : s.now ≤ s'.now := by
  cases e with
  | tick n =>
    cases h
    exact Int.le_add_of_nonneg_right (Int.natCast_nonneg n)
  | async | wait _ | notify =>
    cases h
    exact Int.le_refl _
  | _ => simp [call] at h

theorem act_now {s s' : Shared} {t t' : Thread} {e : Choice} {new : List Thread}
    (ha : act s t e = some (s', t', new)) : s'.now = s.now ∧ s'.notifications = s.notifications := by
  obtain ⟨-, ⟨id, ph, ph', rfl, rfl, h⟩ | ⟨w, ph, rfl, rfl, h⟩⟩ := act_cases ha
  · cases ph with
    | done => simp [OperationPhase.act] at h
    | _ => cases h; exact ⟨rfl, rfl⟩
  · rcases wait_shared h with ⟨rfl, -⟩ | ⟨-, rfl, -⟩ | ⟨n, r, -, -, -, rfl⟩ <;> exact ⟨rfl, rfl⟩

theorem wait_not_submitted {s s' : Shared} {w : Wait} {e : Choice} {ph : WaitPhase}
    (h : w.act s e = some (s', ph)) : w.phase ≠ .submitted := by
  intro hp
  simp [Wait.act, hp] at h

theorem act_submitted {s s' : Shared} {t t' : Thread} {e : Choice} {new : List Thread}
    (ha : act s t e = some (s', t', new)) (n : Nat) :
    s'.submitted.count n + t.submittedAs n = s.submitted.count n + t'.submittedAs n := by
  obtain ⟨-, ⟨id, ph, ph', rfl, rfl, h⟩ | ⟨w, ph, rfl, rfl, h⟩⟩ := act_cases ha
  · cases ph with
    | done => simp [OperationPhase.act] at h
    | _ => cases h; rfl
  · rw [submittedAs_of_ne (wait_not_submitted h)]
    rcases wait_shared h with ⟨rfl, hp⟩ | ⟨-, rfl, rfl⟩ | ⟨m, r, hm, -, rfl, rfl⟩
    · rw [submittedAs_of_ne hp]
    · rw [submittedAs_of_ne (by simp)]
      rfl
    · rw [submittedAs_submitted hm]
      by_cases he : m = n
      · simp [he]
      · simp [he]

theorem act_notifies {s s' : Shared} {t t' : Thread} {e : Choice} {new : List Thread}
    (ha : act s t e = some (s', t', new)) (n : Nat) : t'.notifies n = t.notifies n := by
  obtain ⟨-, ⟨id, ph, ph', rfl, rfl, h⟩ | ⟨w, ph, rfl, rfl, h⟩⟩ := act_cases ha <;> rfl

theorem act_notifyInv {c : Config Shared Thread} (hI : Inv c) (hN : NotifyInv c) {i : Nat} {t t' : Thread}
    {e : Choice} {s' : Shared} {new : List Thread} (ht : c.threads[i]? = some t)
    (ha : act c.shared t e = some (s', t', new)) : NotifyInv ⟨s', c.threads.set i t' ++ new⟩ := by
  obtain ⟨hnow, hnum⟩ := act_now ha
  have hnew := (act_cases ha).1
  subst hnew
  refine ⟨fun n => ?_, fun n => ?_, fun w n hm hn => ?_⟩
  · have h1 := Family.total_step (Thread.submittedAs n) ht t' []
    have h2 := act_submitted ha n
    have h3 := hN.submitted n
    rw [Family.total_nil, Nat.add_zero] at h1
    show s'.submitted.count n = Family.total _ (c.threads.set i t' ++ [])
    omega
  · have h1 := Family.total_step (Thread.notifies n) ht t' []
    rw [Family.total_nil, Nat.add_zero, act_notifies ha n] at h1
    rw [Nat.add_right_cancel h1, hN.unique n, hnum]
  · rw [List.append_nil] at hm
    rcases List.mem_or_eq_of_mem_set hm with hm | rfl
    · obtain ⟨hto, hd⟩ := hN.blocked w n hm hn
      exact ⟨hto, fun k stack d hp => hnow ▸ hd k stack d hp⟩
    · obtain ⟨-, ⟨_, _, _, _, he, _⟩ | ⟨w', ph, rfl, he, h⟩⟩ := act_cases ha
      · cases he
      · cases he
        have hto := (hN.blocked w' n (Family.mem_of_get ht) hn).1
        refine ⟨hto, fun k stack d hp => ?_⟩
        cases hp
        exact wait_blocked hI.now_nonneg hto h

theorem run_notifyInv {now : Nat} {tr : List (Config Shared Thread × Label Choice)} {c : Config Shared Thread}
    (h : group.Run (initial now) tr c) : Inv c ∧ NotifyInv c :=
  h.invariant_by (I := fun c => Inv c ∧ NotifyInv c) ⟨initial_inv now, initial_notifyInv now⟩
    (fun _ _ _ _ hI _ h => ⟨call_inv hI.1 h, call_notifyInv hI.2 h⟩)
    (fun _ _ _ _ _ _ _ hI _ ht h => ⟨act_inv hI.1 ht h, act_notifyInv hI.1 hI.2 ht h⟩) Program.along_true

theorem NotifyInv.count_le {c : Config Shared Thread} (h : NotifyInv c) (n : Nat) :
    c.shared.submitted.count n ≤ 1 := by
  have hle : Family.total (Thread.submittedAs n) c.threads ≤ Family.total (Thread.notifies n) c.threads := by
    refine Family.total_le_total fun t _ => ?_
    unfold Thread.submittedAs
    split
    · simp [Thread.notifies]
    · exact Nat.zero_le _
  have hu := h.unique n
  rw [h.submitted n]
  split at hu <;> omega

theorem NotifyInv.phase_submitted {c : Config Shared Thread} (h : NotifyInv c) {w : Wait} {n : Nat}
    (hm : Thread.wait w ∈ c.threads) (hn : w.notification = some n) (hs : n ∈ c.shared.submitted) :
    w.phase = .submitted := by
  have hpos : 0 < Family.total (Thread.submittedAs n) c.threads := by
    rw [← h.submitted n]
    exact List.count_pos_iff.mpr hs
  obtain ⟨t, ht, hpos⟩ := Family.exists_of_total_pos hpos
  have hle : Family.total (Thread.notifies n) c.threads ≤ 1 := by
    rw [h.unique n]
    split <;> omega
  unfold Thread.submittedAs at hpos
  split at hpos
  · rename_i m t' o
    by_cases hmn : m = n
    · subst hmn
      have := Family.eq_of_total_le_one hle hm ht (by simp [Thread.notifies, hn]) (by simp [Thread.notifies])
      cases this
      rfl
    · simp [hmn] at hpos
  · omega

/-! ## Not before the operations -/

/-- The step is not the time-out of a notification. -/
def keepsWaiting (c : Config Shared Thread) : Label Choice → Bool
  | .act i .timeout =>
    match c.threads[i]? with
    | some (.wait w) => w.notification.isNone
    | _ => true
  | _ => true

def notifiesInOrder (c : Config Shared Thread) (l : Label Choice) : Bool := addsUndrained c l && keepsWaiting c l

/-- The barrier a wait stands at has been or will be completed by an operation. -/
def Guarded (c : Config Shared Thread) (k : Nat) : Prop :=
  (c.shared.heap k).resources ≠ 0 ∨ drained c k = true

def Wait.standsAt (w : Wait) : Option Nat :=
  match w.phase with
  | .barrierWait k _ | .blocked k _ _ => some k
  | _ => none

structure OrderInv (c : Config Shared Thread) : Prop where
  wait : WaitInv c
  guarded : ∀ w, Thread.wait w ∈ c.threads → ∀ k, w.standsAt = some k → Guarded c k
  notifications : ∀ w, Thread.wait w ∈ c.threads → w.notification ≠ none → w.phase ≠ .returned false ∧
    (w.phase = .submitted → ∀ p ∈ w.owed, p.1 ∈ c.shared.executed)

theorem initial_orderInv (now : Nat) : OrderInv (initial now) := by
  refine ⟨initial_waitInv now, fun w h => ?_, fun w h => ?_⟩ <;> simp [initial] at h

theorem operation_resources_zero {s s' : Shared} {id : Nat} {ph ph' : OperationPhase}
    (h : ph.act s id = some (s', ph')) {k : Nat} (h0 : (s'.heap k).resources = 0) :
    (s.heap k).resources = 0 ∨ ph = .fetchSub k ∧ ph' = .complete k := by
  rcases operation_heap h k with he | ⟨-, he⟩ | ⟨rfl, he⟩ | ⟨-, he⟩
  · exact Or.inl (he ▸ h0)
  · simp [he, Consumable.addResource] at h0
  · simp only [he, Consumable.consumeResource] at h0
    by_cases h1 : (s.heap k).resources = 1
    · cases h
      exact Or.inr ⟨rfl, by rw [if_pos h1]⟩
    · exact Or.inl (by omega)
  · rw [he] at h0
    exact Or.inl h0

theorem operation_barrier_mono {s s' : Shared} {id : Nat} {ph ph' : OperationPhase}
    (h : ph.act s id = some (s', ph')) {k : Nat} (hb : (s.heap k).barrier = true) :
    (s'.heap k).barrier = true := by
  rcases operation_heap h k with he | ⟨-, he⟩ | ⟨-, he⟩ | ⟨-, he⟩ <;> rw [he]
  · exact hb
  · exact hb
  · exact hb
  · rfl

theorem operation_guarded {c : Config Shared Thread} {i id : Nat} {ph ph' : OperationPhase} {s' : Shared}
    (ht : c.threads[i]? = some (.operation id ph)) (h : ph.act c.shared id = some (s', ph')) {k : Nat}
    (hg : Guarded c k) : Guarded ⟨s', c.threads.set i (.operation id ph') ++ []⟩ k := by
  rcases hg with hr | hd
  · by_cases h0 : (s'.heap k).resources = 0
    · rcases operation_resources_zero h h0 with h0 | ⟨rfl, rfl⟩
      · exact absurd h0 hr
      · exact Or.inr (drained_iff.mpr (Or.inr ⟨id, Family.mem_step_self ht _ _⟩))
    · exact Or.inl h0
  · right
    rw [drained_iff] at hd ⊢
    rcases hd with hb | ⟨id', hm⟩
    · exact Or.inl (operation_barrier_mono h hb)
    · by_cases he : Thread.operation id' (.complete k) = .operation id ph
      · cases he
        cases h
        exact Or.inl (by simp [Consumable.complete])
      · exact Or.inr ⟨id', Family.mem_step_of_ne ht hm he _ _⟩

theorem wait_heap {c : Config Shared Thread} (hI : Inv c) {w : Wait} {e : Choice} {s' : Shared}
    {ph : WaitPhase} (h : w.act c.shared e = some (s', ph)) (k : Nat) :
    (s'.heap k).resources = (c.shared.heap k).resources ∧ (s'.heap k).barrier = (c.shared.heap k).barrier := by
  rcases wait_shared h with ⟨rfl, -⟩ | ⟨-, rfl, -⟩ | ⟨n, r, -, -, -, rfl⟩
  · exact ⟨rfl, rfl⟩
  · by_cases hk : k = c.shared.size
    · subst hk; simp [Shared.swap, hI.fresh _ (Nat.le_refl _)]
    · simp [Shared.swap, Function.update_of_ne hk]
  · exact ⟨rfl, rfl⟩

theorem wait_guarded {c : Config Shared Thread} (hI : Inv c) {i : Nat} {w : Wait} {e : Choice} {s' : Shared}
    {ph : WaitPhase} (ht : c.threads[i]? = some (.wait w)) (h : w.act c.shared e = some (s', ph)) {k : Nat}
    (hg : Guarded c k) : Guarded ⟨s', c.threads.set i (.wait { w with phase := ph }) ++ []⟩ k := by
  obtain ⟨hr, hb⟩ := wait_heap hI h k
  unfold Guarded at hg ⊢
  rw [drained_iff] at hg ⊢
  simp only [hr, hb]
  exact hg.imp_right (Or.imp_right fun ⟨id, hm⟩ => ⟨id, Family.mem_step_of_ne ht hm (by simp) _ _⟩)

theorem standsAt_satisfied (w : Wait) (stack : List Nat) : { w with phase := satisfied stack }.standsAt = none := by
  cases stack <;> rfl

theorem wait_standsAt {s s' : Shared} {w : Wait} {e : Choice} {ph : WaitPhase} (h : w.act s e = some (s', ph))
    {k : Nat} (hk : { w with phase := ph }.standsAt = some k) :
    w.standsAt = some k ∨ (s.heap k).resources ≠ 0 := by
  cases wait_cases h with
  | counts c stack hp hr =>
    cases hk
    exact Or.inr hr
  | blocks c stack hp _ =>
    cases hk
    exact Or.inl (by simp [Wait.standsAt, hp])
  | drained | completed | wakes =>
    rw [standsAt_satisfied] at hk
    cases hk
  | _ => cases hk

theorem returned_false {s s' : Shared} {w : Wait} {e : Choice} (h : w.act s e = some (s', .returned false)) :
    e = .timeout ∧ ∃ k stack d, w.phase = .blocked k stack (some d) ∧ d ≤ s.now := by
  have hsat : ∀ st, satisfied st ≠ .returned false := by
    intro st; cases st <;> simp [satisfied]
  generalize hph : WaitPhase.returned false = ph at h hsat
  cases wait_cases h with
  | expires c stack d hp hd _ => exact ⟨rfl, c, stack, d, hp, hd⟩
  | drained | completed | wakes => exact absurd rfl (hsat _)
  | _ => cases hph

theorem call_orderInv {c : Config Shared Thread} (hO : OrderInv c) {e : Choice} {s' : Shared}
    {new : List Thread} (h : call c.shared e = some (s', new)) : OrderInv ⟨s', c.threads ++ new⟩ := by
  have hW := call_waitInv hO.wait h
  have hnew : s'.heap = c.shared.heap ∧ s'.executed = c.shared.executed ∧
      ∀ w, Thread.wait w ∈ new → w.phase = .load ∨ w.phase = .pooled := by
    cases e with
    | async | tick _ => cases h; exact ⟨rfl, rfl, fun w hw => by simp at hw⟩
    | wait _ | notify =>
      cases h
      refine ⟨rfl, rfl, fun w hw => ?_⟩
      cases List.mem_singleton.mp hw
      simp
    | _ => simp [call] at h
  obtain ⟨hheap, hexec, hw⟩ := hnew
  refine ⟨hW, fun w hm k hk => ?_, fun w hm hn => ?_⟩
  · rcases List.mem_append.mp hm with hm | hm
    · rcases hO.guarded w hm k hk with hr | hd
      · exact Or.inl (by rw [hheap]; exact hr)
      · refine Or.inr (drained_iff.mpr ?_)
        rw [hheap]
        exact (drained_iff.mp hd).imp_right (Exists.imp fun _ hm => List.mem_append_left _ hm)
    · rcases hw w hm with hp | hp <;> simp [Wait.standsAt, hp] at hk
  · rcases List.mem_append.mp hm with hm | hm
    · rw [hexec]; exact hO.notifications w hm hn
    · rcases hw w hm with hp | hp <;> simp [hp]

theorem wait_notifications {c : Config Shared Thread} (hO : OrderInv c) {w : Wait} {e : Choice} {s' : Shared}
    {ph : WaitPhase} (hm : Thread.wait w ∈ c.threads) (hn : w.notification ≠ none) (he : e ≠ .timeout)
    (h : w.act c.shared e = some (s', ph)) :
    ph ≠ .returned false ∧ (ph = .submitted → ∀ p ∈ w.owed, p.1 ∈ s'.executed) := by
  refine ⟨fun hp => he (returned_false (hp ▸ h)).1, fun hp p ho => ?_⟩
  rcases wait_shared h with ⟨-, hp'⟩ | ⟨-, -, hp'⟩ | ⟨n, r, -, hr, -, rfl⟩
  · exact absurd hp hp'
  · rw [hp] at hp'; cases hp'
  · rcases (hO.wait.owed w hm p ho).2 with he | hk
    · exact he
    · rw [hr] at hk
      cases hk
      exact absurd hr (hO.notifications w hm hn).1

theorem act_orderInv {c : Config Shared Thread} (hO : OrderInv c) {i : Nat} {t t' : Thread} {e : Choice}
    {s' : Shared} {new : List Thread} (hC : notifiesInOrder c (.act i e) = true) (ht : c.threads[i]? = some t)
    (ha : act c.shared t e = some (s', t', new)) : OrderInv ⟨s', c.threads.set i t' ++ new⟩ := by
  obtain ⟨hC, hT⟩ := Bool.and_eq_true_iff.mp hC
  have hW := act_waitInv hO.wait hC ht ha
  have hI := hO.wait.inv
  obtain ⟨rfl, ⟨id, ph, ph', rfl, rfl, h⟩ | ⟨w, ph, rfl, rfl, h⟩⟩ := act_cases ha
  · have old : ∀ w, Thread.wait w ∈ c.threads.set i (.operation id ph') ++ [] → Thread.wait w ∈ c.threads :=
      fun w hm => Family.mem_of_step hm (by simp)
    refine ⟨hW, fun w hm k hk => operation_guarded ht h (hO.guarded w (old w hm) k hk), fun w hm hn => ?_⟩
    obtain ⟨h1, h2⟩ := hO.notifications w (old w hm) hn
    exact ⟨h1, fun hp p ho => (operation_grows h).executed _ (h2 hp p ho)⟩
  · have hmem := Family.mem_of_get ht
    refine ⟨hW, fun w' hm k hk => ?_, fun w' hm hn => ?_⟩
    · rw [List.append_nil] at hm
      apply wait_guarded hI ht h
      rcases List.mem_or_eq_of_mem_set hm with hm | hm
      · exact hO.guarded w' hm k hk
      · cases hm
        rcases wait_standsAt h hk with hk | hr
        · exact hO.guarded w hmem k hk
        · exact Or.inl hr
    · rw [List.append_nil] at hm
      rcases List.mem_or_eq_of_mem_set hm with hm | hm
      · obtain ⟨h1, h2⟩ := hO.notifications w' hm hn
        exact ⟨h1, fun hp p ho => (wait_grows hI h).executed _ (h2 hp p ho)⟩
      · cases hm
        have hn' : w.notification ≠ none := hn
        have he : e ≠ .timeout := by
          rintro rfl
          simp only [keepsWaiting, ht, Option.isNone_iff_eq_none] at hT
          exact hn' hT
        have := wait_notifications hO hmem hn' he h
        exact this

theorem run_orderInv {now : Nat} {tr : List (Config Shared Thread × Label Choice)} {c : Config Shared Thread}
    (h : group.Run (initial now) tr c) (hC : Program.Along (fun c l => notifiesInOrder c l = true) tr) :
    OrderInv c :=
  h.invariant_by (initial_orderInv now) (fun _ _ _ _ hO _ h => call_orderInv hO h)
    (fun _ _ _ _ _ _ _ hO hC ht h => act_orderInv hO hC ht h) hC

/-! ## A notification by itself -/

/-- The wait has yet to go through `k`; before its exchange, through all that there is. -/
def Ahead (s : Shared) : WaitPhase → Nat → Prop
  | .returned _, _ | .submitted, _ => False
  | ph, k => Pending s ph k

/-- The operations on the consumables that the wait has ahead have consumed their resources, and what they complete is
completed. -/
def OperationsDone (c : Config Shared Thread) (w : Wait) : Prop :=
  ∀ k, Ahead c.shared w.phase k → ∀ id ph, Thread.operation id ph ∈ c.threads → ph.countedOn k = 0 ∧ ph ≠ .complete k

/-- Bounds the steps a wait takes by itself. -/
def WaitPhase.rank (s : Shared) : WaitPhase → Nat
  | .pooled => 4 * s.consumable + 8
  | .load => 4 * s.consumable + 7
  | .swap old => if old = s.consumable then 4 * s.consumable + 6 else 4 * s.consumable + 8
  | .descend c stack => 3 * stack.length + 4 * c + 5
  | .check _ stack => 3 * stack.length + 4
  | .barrierWait _ stack => 3 * stack.length + 3
  | .blocked _ stack _ => 3 * stack.length + 2
  | .returned _ => 1
  | .submitted => 0

theorem rank_satisfied (s : Shared) (stack : List Nat) : (satisfied stack).rank s < 3 * stack.length + 2 := by
  cases stack with
  | nil => simp [satisfied, WaitPhase.rank]
  | cons c stack => simp only [satisfied, WaitPhase.rank, List.length_cons]; omega

theorem done_resources {c : Config Shared Thread} (hI : Inv c) {w : Wait} (hD : OperationsDone c w) {k : Nat}
    (hk : Ahead c.shared w.phase k) : (c.shared.heap k).resources = 0 := by
  rw [hI.resources k, Family.total_eq_zero]
  intro t ht
  cases t with
  | operation id ph => exact (hD k hk id ph ht).1
  | wait w => rfl

theorem done_barrier {c : Config Shared Thread} (hI : Inv c) {w : Wait} (hD : OperationsDone c w) {k : Nat}
    (hk : Ahead c.shared w.phase k) (hg : Guarded c k) : (c.shared.heap k).barrier = true := by
  rcases hg with hr | hd
  · exact absurd (done_resources hI hD hk) hr
  · rcases drained_iff.mp hd with hb | ⟨id, hm⟩
    · exact hb
    · exact absurd rfl (hD k hk id _ hm).2

theorem Chain.before {heap heap' : Nat → Consumable} (hlt : ∀ k p, (heap k).preceeding = some p → p < k) {n : Nat}
    (hh : ∀ k, k < n → heap' k = heap k) {j k : Nat} (h : Chain heap' j k) : j < n → Chain heap j k := by
  induction h with
  | refl => exact fun _ => .refl _
  | step hp _ ih =>
    intro hj
    rw [hh _ hj] at hp
    exact .step hp (ih (Nat.lt_trans (hlt _ _ hp) hj))

theorem satisfied_ahead {s : Shared} {j k : Nat} {stack : List Nat} (h : Ahead s (satisfied stack) k) :
    k = j ∨ k ∈ stack := by
  cases stack with
  | nil => exact h.elim
  | cons i stack => exact Or.inr (List.mem_cons.mpr h)

/-- A wait has never more ahead than before. -/
theorem wait_ahead {c : Config Shared Thread} (hI : Inv c) {w : Wait} {e : Choice} {s' : Shared} {ph : WaitPhase}
    (h : w.act c.shared e = some (s', ph)) {k : Nat} (hk : Ahead s' ph k) : Ahead c.shared w.phase k := by
  cases wait_cases h with
  | taken hp | loads hp =>
    rw [hp]
    exact hk
  | exchanges hp =>
    rw [hp]
    refine Chain.before hI.preceeding_lt (fun j hj => ?_) (hk.resolve_right List.not_mem_nil) hI.head_lt
    exact Function.update_of_ne (Nat.ne_of_lt hj) _ _
  | reloads old e hp =>
    rw [hp]
    exact hk
  | descends j p stack hp hprec =>
    rw [hp]
    rcases hk with hk | hk
    · exact Or.inl (.step hprec hk)
    · rcases List.mem_cons.mp hk with rfl | hk
      · exact Or.inl (.refl _)
      · exact Or.inr hk
  | arrives j stack hp =>
    rw [hp]
    exact hk.imp_left fun (he : k = j) => he ▸ .refl _
  | counts j stack hp | blocks j stack hp =>
    rw [hp]
    exact hk
  | drained j stack hp | completed j stack hp | wakes j stack d hp =>
    rw [hp]
    exact satisfied_ahead hk
  | expires | submits => exact hk.elim

/-- The wait is neither blocked nor over. -/
def WaitPhase.moving : WaitPhase → Bool
  | .blocked .. | .returned _ | .submitted => false
  | _ => true

theorem wait_step {c : Config Shared Thread} (hI : Inv c) {w : Wait} (hm : w.phase.moving = true) :
    ∃ s' ph, w.act c.shared .step = some (s', ph) ∧ ph.rank s' < w.phase.rank c.shared := by
  unfold Wait.act
  cases hph : w.phase with
  | pooled => exact ⟨_, _, rfl, by simp only [WaitPhase.rank]; omega⟩
  | load => exact ⟨_, _, rfl, by simp [WaitPhase.rank]⟩
  | swap old =>
    by_cases he : c.shared.consumable = old
    · subst he
      refine ⟨_, _, if_pos rfl, ?_⟩
      simp only [WaitPhase.rank, ite_true, List.length_nil]
      omega
    · refine ⟨_, _, if_neg he, ?_⟩
      simp only [WaitPhase.rank, if_neg (Ne.symm he)]
      omega
  | descend k stack =>
    simp only []
    cases hprec : (c.shared.heap k).preceeding with
    | none => exact ⟨_, _, rfl, by simp only [WaitPhase.rank]; omega⟩
    | some p =>
      have hlt := hI.preceeding_lt k p hprec
      refine ⟨_, _, if_neg (by omega), ?_⟩
      simp only [WaitPhase.rank, List.length_cons]
      omega
  | check k stack =>
    by_cases h0 : (c.shared.heap k).resources = 0
    · refine ⟨_, _, if_pos h0, Nat.lt_trans (rank_satisfied c.shared stack) ?_⟩
      simp only [WaitPhase.rank]
      omega
    · exact ⟨_, _, if_neg h0, by simp [WaitPhase.rank]⟩
  | barrierWait k stack =>
    by_cases hk : (c.shared.heap k).barrier = true
    · refine ⟨_, _, if_pos hk, Nat.lt_trans (rank_satisfied c.shared stack) ?_⟩
      simp only [WaitPhase.rank]
      omega
    · exact ⟨_, _, if_neg hk, by simp [WaitPhase.rank]⟩
  | blocked k stack d | returned r | submitted =>
    rw [hph] at hm
    cases hm

theorem notification_step {c : Config Shared Thread} (hO : OrderInv c) {w : Wait} (hD : OperationsDone c w)
    {n : Nat} (hm : Thread.wait w ∈ c.threads) (hn : w.notification = some n) (hp : w.phase ≠ .submitted) :
    ∃ s' ph, w.act c.shared .step = some (s', ph) ∧ ph.rank s' < w.phase.rank c.shared := by
  have hI := hO.wait.inv
  have hg := hO.guarded w hm
  cases hph : w.phase with
  | blocked k stack d =>
    unfold Wait.act
    simp only [hph]
    have hk : Ahead c.shared w.phase k := by
      rw [hph]
      exact Or.inl rfl
    refine ⟨_, _, if_pos (done_barrier hI hD hk (hg k (by simp [Wait.standsAt, hph]))), ?_⟩
    exact rank_satisfied c.shared stack
  | returned r =>
    unfold Wait.act
    simp only [hph, hn]
    exact ⟨_, _, rfl, by simp [WaitPhase.rank]⟩
  | submitted => exact absurd hph hp
  | _ =>
    rw [← hph]
    exact wait_step hI (by rw [hph]; rfl)

structure Alone (i : Nat) (w : Wait) (c : Config Shared Thread) : Prop where
  order : OrderInv c
  notify : NotifyInv c
  thread : ∃ ph, c.threads[i]? = some (.wait { w with phase := ph }) ∧ OperationsDone c { w with phase := ph }

theorem alone_step {i : Nat} {w : Wait} {c c' : Config Shared Thread}
    (hA : Alone i w c) (h : group.next c (.act i .step) = some c') : Alone i w c' := by
  obtain ⟨ph, ht, hD⟩ := hA.thread
  obtain ⟨t, s', t', new, ht', ha, rfl⟩ := Program.next_act h
  have hC : notifiesInOrder c (.act i .step) = true := by
    simp [notifiesInOrder, addsUndrained, keepsWaiting, ht]
  refine ⟨act_orderInv hA.order hC ht' ha, act_notifyInv hA.order.wait.inv hA.notify ht' ha, ?_⟩
  rw [ht] at ht'
  cases ht'
  replace ha : act c.shared (.wait { w with phase := ph }) .step = some (s', t', new) := ha
  obtain ⟨rfl, ⟨_, _, _, he, _⟩ | ⟨w', ph', he, rfl, hw⟩⟩ := act_cases ha
  · cases he
  cases he
  refine ⟨ph', ?_, fun k hk id op hm => ?_⟩
  · rw [List.append_nil]
    exact List.getElem?_set_self (List.getElem?_eq_some_iff.mp ht).1
  · exact hD k (wait_ahead hA.order.wait.inv hw hk) id op (Family.mem_of_step hm (by simp))

def Thread.isSubmitted : Thread → Prop
  | .wait w => w.phase = .submitted
  | .operation _ _ => False

def Thread.rank (s : Shared) : Thread → Nat
  | .wait w => w.phase.rank s
  | .operation _ _ => 0

theorem notification_alone {c : Config Shared Thread} (hO : OrderInv c) (hN : NotifyInv c)
    {i n : Nat} {w : Wait} (hD : OperationsDone c w) (ht : c.threads[i]? = some (.wait w))
    (hn : w.notification = some n) :
    ∃ (es : List Choice) (c' : Config Shared Thread), (∀ e ∈ es, e = .step) ∧ group.exec c (es.map (.act i)) = some c' ∧
      c'.shared.submitted.count n = 1 := by
  have hkeep : ∀ c e c', e = Choice.step → Alone i w c → group.next c (.act i e) = some c' → Alone i w c' := by
    rintro c e c' rfl hA h
    exact alone_step hA h
  have hstep : ∀ c t, Alone i w c → c.threads[i]? = some t → t.isSubmitted ∨
      ∃ e s t' new, e = .step ∧ group.act c.shared t e = some (s, t', new) ∧
        Thread.rank s t' < Thread.rank c.shared t := by
    intro c t hA ht
    obtain ⟨ph, ht', hD⟩ := hA.thread
    rw [ht] at ht'
    cases ht'
    by_cases hp : ph = .submitted
    · exact Or.inl hp
    · obtain ⟨s', ph', h, hr⟩ := notification_step hA.order hD (Family.mem_of_get ht) hn hp
      exact Or.inr ⟨.step, s', .wait { w with phase := ph' }, [], rfl, by simp [group, act, h], hr⟩
  obtain ⟨es, c', t', hes, hex, hA, ht', hp⟩ := Program.exists_alone (· = Choice.step)
    Thread.isSubmitted Thread.rank hkeep hstep _ c _ (Nat.lt_succ_self _) ⟨hO, hN, w.phase, ht, hD⟩ ht
  refine ⟨es, c', hes, hex, ?_⟩
  obtain ⟨ph, ht, -⟩ := hA.thread
  rw [ht'] at ht
  cases ht
  have hpos : 0 < c'.shared.submitted.count n := by
    rw [hA.notify.submitted n]
    have := Family.le_total (Thread.submittedAs n) (Family.mem_of_get ht')
    replace hp : ph = .submitted := hp
    subst hp
    rw [submittedAs_submitted hn, if_pos rfl] at this
    exact this
  have := hA.notify.count_le n
  omega

/-! ## `notify` -/

/-- A notification is submitted at most once, after the operations owed to it, and
its own steps submit it when the operations are done that its wait has ahead: none
of those that are added after its exchange of `m_consumable`. -/
structure Notified (c : Config Shared Thread) : Prop where
  once : ∀ n, c.shared.submitted.count n ≤ 1
  after : ∀ w n, Thread.wait w ∈ c.threads → w.notification = some n → n ∈ c.shared.submitted →
    ∀ p ∈ w.owed, p.1 ∈ c.shared.executed
  submits : ∀ i w n, c.threads[i]? = some (.wait w) → w.notification = some n → OperationsDone c w →
    ∃ (es : List Choice) (c' : Config Shared Thread), (∀ e ∈ es, e = .step) ∧ group.exec c (es.map (.act i)) = some c' ∧
      c'.shared.submitted.count n = 1

/-- **Notifications.** In a run in which no operation is added to a drained
consumable and no notification's wait takes its time-out, every notification is
submitted exactly once, after the operations added before it. -/
theorem notify_submits {now : Nat} {tr : List (Config Shared Thread × Label Choice)} {c : Config Shared Thread}
    (h : group.Run (initial now) tr c) (hC : Program.Along (fun c l => notifiesInOrder c l = true) tr) :
    Notified c := by
  have hO := run_orderInv h hC
  have hN := (run_notifyInv h).2
  refine ⟨hN.count_le, fun w n hm hn hs => ?_, fun i w n ht hn hD => notification_alone hO hN hD ht hn⟩
  exact (hO.notifications w hm (by simp [hn])).2 (hN.phase_submitted hm hn hs)

def notifyAfterOne : List (Label Choice) :=
  Label.call Choice.async :: List.replicate 3 (.act 0 .step) ++ Label.call Choice.notify ::
    List.replicate 5 (.act 0 .step) ++ List.replicate 6 (Label.act 1 Choice.step)

theorem notify_submits_one : Notified (group.last (initial 0) notifyAfterOne) ∧
    (group.last (initial 0) notifyAfterOne).shared.submitted = [0] :=
  ⟨notify_submits (Program.run_last (by decide)) (by decide), by decide⟩

/-- The notification comes to the barrier of an operation that has not run. -/
def notifyBeforeOne : List (Label Choice) :=
  Label.call Choice.async :: List.replicate 3 (.act 0 .step) ++ Label.call Choice.notify ::
    List.replicate 6 (.act 1 .step) ++ [Label.act 1 Choice.timeout, .act 1 .step]

theorem notify_submits_early : ¬ ∀ now tr c, group.Run (initial now) tr c → Notified c := by
  intro hall
  have hN := hall 0 _ _ (Program.run_last (l := notifyBeforeOne) (by decide))
  have hw : (group.last (initial 0) notifyBeforeOne).threads[1]? =
      some (.wait ⟨some 0, millisecondsMax, [(0, 0)], .submitted⟩) := by decide
  have hs : (group.last (initial 0) notifyBeforeOne).shared.submitted = [0] := by decide
  have he : (group.last (initial 0) notifyBeforeOne).shared.executed = [] := by decide
  have := hN.after _ 0 (Family.mem_of_get hw) rfl (by rw [hs]; simp) (0, 0) (by simp)
  rw [he] at this
  cases this

end Xdispatch.Group
