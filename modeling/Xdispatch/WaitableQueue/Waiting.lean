import Xdispatch.WaitableQueue.Invariant

/-!
# Waiting without the inner queue

A thread that waits either finds an operation completed, or waits for one that
a thread is executing, or executes the next one itself. With no operation added
this comes to an end: each operation is executed once, and a thread that waits
wakes once for each that another thread has executed.
-/

namespace Xdispatch.WaitableQueue

def Thread.waits : Thread → Bool
  | .wait _ | .waitBlocked _ _ | .resuming _ | .drain (some _) | .drainBlocked (some _) _ | .executing (some _) _
  | .returned => true
  | _ => false

/-- Operations that have not completed. -/
def remaining (s : Shared) : Nat := s.operations.length + s.active.toNat

/-- Steps a waiter takes before it finds one more operation completed. -/
def Thread.stage (s : Shared) : Thread → Nat
  | .waitBlocked _ seen | .drainBlocked _ seen => if seen < s.notifications then 7 else 1
  | .drain _ => if remaining s = 0 then 6 else 4
  | .wait _ | .resuming _ => 5
  | .executing _ _ => 3
  | _ => 0

def potential (s : Shared) (t : Thread) : Nat := 8 * remaining s + t.stage s

/-- The blocked thread has been notified, or somebody is active. -/
def Seen (s : Shared) (t : Thread) : Prop :=
  ∀ n, t.blockedAt = some n → n ≤ s.notifications ∧ (n = s.notifications → s.active = true)

section
variable {s s' : Shared} {t t' x : Thread}

theorem remaining_eq_zero : remaining s = 0 ↔ s.operations = [] ∧ s.active = false := by
  unfold remaining
  cases s.active <;> simp

theorem stage_congr (hr : remaining s' = remaining s) (hn : s'.notifications = s.notifications) :
    x.stage s' = x.stage s := by
  cases x <;> simp only [Thread.stage, hr, hn]

theorem potential_congr (ho : s'.operations = s.operations) (ha : s'.active = s.active)
    (hn : s'.notifications = s.notifications) : potential s' x = potential s x := by
  have hr : remaining s' = remaining s := by rw [remaining, remaining, ho, ha]
  rw [potential, potential, stage_congr hr hn, hr]

theorem stage_le (s s' : Shared) (x : Thread) : x.stage s' ≤ x.stage s + 6 := by
  cases x with
  | waitBlocked | drainBlocked =>
    simp only [Thread.stage]
    split <;> split <;> omega
  | drain =>
    simp only [Thread.stage]
    split <;> split <;> omega
  | _ => exact Nat.le_add_right _ _

theorem stage_notified (ha : s.active = false) (hx : Seen s x) (hr : remaining s' = remaining s)
    (hn : s'.notifications = s.notifications + 1) : x.stage s' = x.stage s := by
  have hlt : ∀ n, x.blockedAt = some n → n < s.notifications := by
    intro n hb
    obtain ⟨h1, h2⟩ := hx n hb
    refine Nat.lt_of_le_of_ne h1 fun heq => ?_
    rw [h2 heq] at ha
    cases ha
  cases x with
  | waitBlocked w seen | drainBlocked w seen =>
    have := hlt seen rfl
    simp only [Thread.stage, hn]
    rw [if_pos (by omega), if_pos this]
  | _ => simp only [Thread.stage, hr]

/-- Other threads do not set a waiter back, unless they add an operation. -/
theorem Moves.potential_le (h : Moves s t s' t') (ht : t.executes ≤ s.active.toNat) (hadd : ∀ op, t ≠ .add op)
    (hx : Seen s x) : potential s' x ≤ potential s x := by
  cases h with
  | add op => exact absurd rfl (hadd op)
  | drainEmpty _ ha hops =>
    have hr : remaining { s with active := false, notifications := s.notifications + 1 } = remaining s := by
      simp [remaining, ha]
    rw [potential, potential, stage_notified ha hx hr rfl, hr]
  | @take caller _ op rest _ ha hops =>
    have hr : remaining { s with active := true, operations := rest, started := s.started ++ [op] } = remaining s := by
      simp [remaining, ha, hops]
    rw [potential, potential, stage_congr hr rfl, hr]
  | finish =>
    have ha := active_of_executes ht
    have hr : remaining s = s.operations.length + 1 := by simp [remaining, ha]
    have hs := stage_le s
      { s with completed := s.completed + 1, active := false, notifications := s.notifications + 1 } x
    rw [potential, potential, hr]
    simp only [remaining, Bool.toNat_false]
    omega
  | _ => exact Nat.le_of_eq (potential_congr rfl rfl rfl)

theorem Moves.potential_lt (h : Moves s t s' t') (ht : t.executes ≤ s.active.toNat) (hw : t.waits = true)
    (hb : ∀ n, t.blockedAt = some n → n < s.notifications) : potential s' t' < potential s t := by
  have hstage : ∀ w, Waits w t → 5 ≤ t.stage s := by
    intro w hw
    cases hw with
    | blocked seen =>
      simp only [Thread.stage]
      rw [if_pos (hb seen rfl)]
      decide
    | _ => exact Nat.le_refl _
  have hdrain : ∀ caller, Drains caller t → (if remaining s = 0 then 6 else 4) ≤ t.stage s := by
    intro caller hd
    cases hd with
    | drain => exact Nat.le_refl _
    | blocked seen =>
      simp only [Thread.stage]
      rw [if_pos (hb seen rfl)]
      split <;> decide
  unfold potential
  cases h with
  | add | post => cases hw
  | @drainBlocks caller _ hd ha =>
    have hold := hdrain _ hd
    have hnew : (Thread.drainBlocked caller s.notifications).stage s = 1 := if_neg (Nat.lt_irrefl _)
    rw [if_neg (by rw [remaining_eq_zero, ha]; simp)] at hold
    omega
  | @drainEmpty caller _ hd ha hops =>
    have hold := hdrain _ hd
    have hr : remaining { s with active := false, notifications := s.notifications + 1 } = remaining s := by
      simp [remaining, ha]
    have hnew : (drained caller).stage { s with active := false, notifications := s.notifications + 1 } ≤ 5 := by
      cases caller <;> simp [drained, Thread.stage]
    rw [if_pos (remaining_eq_zero.mpr ⟨hops, ha⟩)] at hold
    omega
  | @take caller _ op rest hd ha hops =>
    have hold := hdrain _ hd
    have hr : remaining { s with active := true, operations := rest, started := s.started ++ [op] } = remaining s := by
      simp [remaining, ha, hops]
    have hnew : (Thread.executing caller op).stage
        { s with active := true, operations := rest, started := s.started ++ [op] } = 3 := rfl
    rw [if_neg (by rw [remaining_eq_zero, hops]; simp)] at hold
    omega
  | @finish caller op =>
    have ha := active_of_executes ht
    have hr : remaining s = s.operations.length + 1 := by simp [remaining, ha]
    have hnew : (drained caller).stage
        { s with completed := s.completed + 1, active := false, notifications := s.notifications + 1 } ≤ 5 := by
      cases caller <;> simp [drained, Thread.stage]
    rw [hr]
    simp only [remaining, Bool.toNat_false]
    omega
  | @waitBlocks w _ n hd ha =>
    have hold := hstage _ hd
    have hr : remaining { s with completed := n } = remaining s := rfl
    have hnew : (Thread.waitBlocked w s.notifications).stage { s with completed := n } = 1 := if_neg (Nat.lt_irrefl _)
    omega
  | @starves w _ n hd ha hops =>
    have hold := hstage _ hd
    have hr : remaining { s with completed := n } = remaining s := rfl
    have hnew : (Thread.drain (some w)).stage { s with completed := n } = 4 :=
      if_neg fun h => hops (remaining_eq_zero.mp h).1
    omega
  | @returns w _ n hd =>
    have hold := hstage _ hd
    have hr : remaining { s with completed := n } = remaining s := rfl
    have hnew : Thread.returned.stage { s with completed := n } = 0 := rfl
    omega

theorem Moves.waits (h : Moves s t s' t') (hw : t.waits = true) : t'.waits = true := by
  cases h with
  | add | post => cases hw
  | @drainBlocks caller _ hd | @take caller _ op rest hd => cases hd <;> cases caller <;> first | rfl | cases hw
  | @drainEmpty caller | @finish caller => cases caller <;> rfl
  | _ => rfl

theorem Moves.returned (h : Moves s t s' t') (hw : Waits .all t) (hr : t' = .returned) :
    s'.active = false ∧ s'.operations = [] := by
  cases h with
  | @returns w _ n hw' hdone =>
    have : w = .all := by cases hw <;> cases hw' <;> rfl
    exact hdone this
  | add | post | finish => cases hw
  | drainEmpty hd => cases hw <;> cases hd
  | _ => cases hr

theorem exists_step (hw : t.waits = true) (hne : t ≠ .returned) (hb : ∀ n, t.blockedAt = some n → n < s.notifications) :
    ∃ r, t.act s .step = some r := by
  cases t with
  | drainBlocked caller seen | waitBlocked w seen => exact ⟨_, if_pos (hb seen rfl)⟩
  | returned => exact absurd rfl hne
  | add | post => cases hw
  | _ => exact ⟨_, rfl⟩

theorem notified_of_step {r : Shared × Thread} (h : t.act s .step = some r) {n : Nat} (hb : t.blockedAt = some n) :
    n < s.notifications := by
  cases t with
  | drainBlocked caller seen | waitBlocked w seen =>
    cases hb
    by_cases hlt : n < s.notifications
    · exact hlt
    · simp [Thread.act, hlt] at h
  | _ => cases hb

/-- A spurious wakeup finds somebody active, or is what a notification would have been. -/
theorem spurious_potential_le {e : Choice} (h : t.act s e = some (s', t')) (he : e ≠ .step) (hw : t.waits = true)
    (ht : t.executes ≤ s.active.toNat) (hx : Seen s t) : potential s' t' ≤ potential s t := by
  by_cases hb : ∀ n, t.blockedAt = some n → n < s.notifications
  · exact Nat.le_of_lt ((moves_of_act h).potential_lt ht hw hb)
  have ha : ∀ n, t.blockedAt = some n → ¬ n < s.notifications → s.active = true := by
    intro n hn hlt
    obtain ⟨h1, h2⟩ := hx n hn
    exact h2 (Nat.le_antisymm h1 (Nat.le_of_not_lt hlt))
  cases t with
  | drainBlocked caller seen =>
    have hlt : ¬ seen < s.notifications := fun hlt => hb fun n hn => by cases hn; exact hlt
    have ha := ha seen rfl hlt
    cases e with
    | spurious =>
      simp only [Thread.act, drainOne, ha, if_true] at h
      cases h
      simp only [potential, Thread.stage, Nat.lt_irrefl, if_neg hlt, if_false]
      exact Nat.le_refl _
    | step => exact absurd rfl he
    | _ => cases h
  | waitBlocked w seen =>
    have hlt : ¬ seen < s.notifications := fun hlt => hb fun n hn => by cases hn; exact hlt
    have ha := ha seen rfl hlt
    cases e with
    | spurious =>
      simp only [Thread.act, wake, ha, if_true] at h
      cases h
      simp only [potential, Thread.stage, Nat.lt_irrefl, if_neg hlt, if_false]
      exact Nat.le_refl _
    | step => exact absurd rfl he
    | _ => cases h
  | _ => exact absurd (fun n hn => by cases hn) hb

end

/-! ## Along a run -/

/-- Adds an operation, or begins to. -/
def adds (c : Config Shared Thread) : Label Choice → Bool
  | .call (.async _) => true
  | .act i _ =>
    match c.threads[i]? with
    | some (.add _) => true
    | _ => false
  | _ => false

theorem Inv.seen' {c : Config Shared Thread} (hI : Inv c) {i : Nat} {t : Thread} (ht : c.threads[i]? = some t) :
    Seen c.shared t :=
  hI.seen t (Family.mem_of_get ht)

theorem next_potential {c c' : Config Shared Thread} {l : Label Choice} (hI : Inv c) (hl : adds c l = false)
    (hn : waitableQueue.next c l = some c') {i : Nat} {t : Thread} (ht : c.threads[i]? = some t)
    (hw : t.waits = true) : ∃ t', c'.threads[i]? = some t' ∧ t'.waits = true ∧
      potential c'.shared t' + (if l = .act i .step then 1 else 0) ≤ potential c.shared t := by
  cases l with
  | call e =>
    obtain ⟨s', new, hc, rfl⟩ := Program.next_call hn
    refine ⟨t, ?_, hw, ?_⟩
    · rw [List.getElem?_append_left (List.getElem?_eq_some_iff.mp ht).1]
      exact ht
    · have hp : potential s' t = potential c.shared t := by
        cases e with
        | async op => cases hl
        | wait w =>
          cases hc
          rfl
        | run =>
          change (if c.shared.inner = 0 then none else _) = _ at hc
          split at hc
          · cases hc
          · cases hc
            exact potential_congr rfl rfl rfl
        | _ => cases hc
      simp [hp]
  | act j e =>
    obtain ⟨u, s₁, u₁, hu, ha, rfl⟩ := next_act_of hn
    have hm := moves_of_act ha
    have hexec := hI.executes_le hu
    by_cases hij : j = i
    · subst hij
      cases ht.symm.trans hu
      refine ⟨u₁, Family.get_step ht u₁ [], hm.waits hw, ?_⟩
      by_cases he : e = .step
      · subst he
        rw [if_pos rfl]
        exact hm.potential_lt hexec hw fun n hb => notified_of_step ha hb
      · rw [if_neg (by simpa using he), Nat.add_zero]
        exact spurious_potential_le ha he hw hexec (hI.seen' ht)
    · refine ⟨t, ?_, hw, ?_⟩
      · rw [List.append_nil, List.getElem?_set_ne hij]
        exact ht
      · rw [if_neg (by simp [hij]), Nat.add_zero]
        refine hm.potential_le hexec ?_ (hI.seen' ht)
        rintro op rfl
        simp [adds, hu] at hl

/-- The waiter takes no more steps than its potential, whatever the others do. -/
theorem run_potential {c₀ c : Config Shared Thread} {tr : List (Config Shared Thread × Label Choice)}
    (h : waitableQueue.Run c₀ tr c) (hI : Inv c₀) (hA : Program.Along (fun c l => adds c l = false) tr) {i : Nat}
    {t₀ : Thread} (ht : c₀.threads[i]? = some t₀) (hw : t₀.waits = true) :
    ∃ t, c.threads[i]? = some t ∧ t.waits = true ∧
      potential c.shared t + tr.countP (fun p => p.2 = .act i .step) ≤ potential c₀.shared t₀ := by
  induction h with
  | nil => exact ⟨t₀, ht, hw, Nat.le_refl _⟩
  | @snoc tr c l c' hr hn ih =>
    obtain ⟨hA, hl⟩ := Program.along_snoc.mp hA
    obtain ⟨t, ht', hw', hle⟩ := ih hA
    have hI' : Inv c := hr.invariant hI (fun _ _ _ hI _ hn => next_inv hI hn) Program.along_true
    obtain ⟨t', ht'', hw'', hle'⟩ := next_potential hI' hl hn ht' hw'
    refine ⟨t', ht'', hw'', ?_⟩
    rw [List.countP_append]
    by_cases hown : l = .act i .step
    · rw [if_pos hown] at hle'
      simp only [hown, List.countP_cons, List.countP_nil, decide_true, if_true]
      omega
    · rw [if_neg hown] at hle'
      simp only [hown, List.countP_cons, List.countP_nil, decide_false, Bool.false_eq_true, if_false]
      omega

/-- No thread but `i` is executing an operation. -/
def Free (i : Nat) (c : Config Shared Thread) : Prop :=
  ∀ (j : Nat) (t : Thread), j ≠ i → c.threads[j]? = some t → t.executes = 0

theorem Free.not_active {c : Config Shared Thread} {i : Nat} {t : Thread} (hF : Free i c) (hI : Inv c)
    (ht : c.threads[i]? = some t) (he : t.executes = 0) : c.shared.active = false := by
  have htot := Family.total_eq_of_others Thread.executes ht fun j x hj hx => hF j x hj hx
  have hact := hI.active
  rw [htot, he] at hact
  cases ha : c.shared.active with
  | false => rfl
  | true =>
    rw [ha] at hact
    cases hact

theorem Free.notified {c : Config Shared Thread} {i : Nat} {t : Thread} (hF : Free i c) (hI : Inv c)
    (ht : c.threads[i]? = some t) : ∀ n, t.blockedAt = some n → n < c.shared.notifications := by
  intro n hn
  obtain ⟨h1, h2⟩ := hI.seen' ht n hn
  refine Nat.lt_of_le_of_ne h1 fun heq => ?_
  have he : t.executes = 0 := by
    cases t with
    | executing => cases hn
    | _ => rfl
  have ha := hF.not_active hI ht he
  rw [h2 heq] at ha
  cases ha

theorem waiter_step (i : Nat) (c : Config Shared Thread) (t : Thread)
    (h : Inv c ∧ Free i c ∧ ∀ t, c.threads[i]? = some t → t.waits = true) (ht : c.threads[i]? = some t) :
    t = .returned ∨ ∃ e s' t' new, waitableQueue.act c.shared t e = some (s', t', new) ∧
      (t' = .returned ∨ potential s' t' < potential c.shared t ∧ Inv ⟨s', c.threads.set i t' ++ new⟩ ∧
        Free i ⟨s', c.threads.set i t' ++ new⟩ ∧
        ∀ u, (c.threads.set i t' ++ new)[i]? = some u → u.waits = true) := by
  obtain ⟨hI, hF, hw⟩ := h
  by_cases hr : t = .returned
  · exact Or.inl hr
  right
  have hb := hF.notified hI ht
  obtain ⟨⟨s', t'⟩, ha⟩ := exists_step (hw t ht) hr hb
  have hm := moves_of_act ha
  refine ⟨.step, s', t', [], by simp [waitableQueue, ha], Or.inr ⟨?_, act_inv hI ht hm, ?_, ?_⟩⟩
  · exact hm.potential_lt (hI.executes_le ht) (hw t ht) hb
  · intro j x hj hx
    simp only [List.append_nil, List.getElem?_set_ne (Ne.symm hj)] at hx
    exact hF j x hj hx
  · intro u hu
    rw [Family.get_step ht t' []] at hu
    cases hu
    exact hm.waits (hw t ht)

/-- What a thread that waits can rely on, whatever the inner queue does. It is
blocked only while some thread executes an operation or while it has been
notified; its steps, but for spurious wakeups, are bounded in any run in which no
operation is added; while no other thread executes it can go on until it returns,
and by itself it does; and `wait_for_all` returns when nothing is listed or active. -/
structure Independent (c : Config Shared Thread) : Prop where
  blocked : ∀ t ∈ c.threads, t.blockedAt = some c.shared.notifications → ∃ caller op, .executing caller op ∈ c.threads
  finite : ∀ (i : Nat) (t : Thread), c.threads[i]? = some t → t.waits = true → ∀ tr c', waitableQueue.Run c tr c' →
    Program.Along (fun c l => adds c l = false) tr →
    tr.countP (fun p => p.2 = .act i .step) ≤ potential c.shared t
  goesOn : ∀ (i : Nat) (t : Thread), c.threads[i]? = some t → t.waits = true → Free i c → t ≠ .returned →
    ∃ c', waitableQueue.next c (.act i .step) = some c'
  returns : ∀ (i : Nat) (t : Thread), c.threads[i]? = some t → t.waits = true → Free i c →
    ∃ (es : List Choice) (c' : Config Shared Thread), waitableQueue.exec c (es.map (.act i)) = some c' ∧
      c'.threads[i]? = some .returned
  all : ∀ (i : Nat) (t : Thread) (e : Choice) (c' : Config Shared Thread), c.threads[i]? = some t → Waits .all t →
    waitableQueue.next c (.act i e) = some c' → c'.threads[i]? = some .returned →
    c'.shared.active = false ∧ c'.shared.operations = []

theorem Inv.independent {c : Config Shared Thread} (hI : Inv c) : Independent c := by
  refine ⟨?_, ?_, ?_, ?_, ?_⟩
  · intro t ht hb
    have ha := (hI.seen t ht _ hb).2 rfl
    have hpos : 0 < Family.total Thread.executes c.threads := by
      rw [hI.active, ha]
      decide
    obtain ⟨x, hx, hpos⟩ := Family.exists_of_total_pos hpos
    cases x with
    | executing caller op => exact ⟨caller, op, hx⟩
    | _ => cases hpos
  · intro i t ht hw tr c' hr hA
    obtain ⟨t', -, -, hle⟩ := run_potential hr hI hA ht hw
    omega
  · intro i t ht hw hF hne
    obtain ⟨⟨s', t'⟩, ha⟩ := exists_step hw hne (hF.notified hI ht)
    exact ⟨_, Program.act_next ht (show waitableQueue.act c.shared t .step = some (s', t', []) by
      simp [waitableQueue, ha])⟩
  · intro i t ht hw hF
    obtain ⟨es, c', t', hex, ht', rfl⟩ := Program.exists_steps (fun _ t => t = .returned) potential (waiter_step i) _ c _
      (Nat.lt_succ_self _) ⟨hI, hF, fun u hu => by rw [ht] at hu; cases hu; exact hw⟩ ht
    exact ⟨es, c', hex, ht'⟩
  · intro i t e c' ht hw hn hr
    obtain ⟨u, s', t', hu, ha, rfl⟩ := next_act_of hn
    cases ht.symm.trans hu
    rw [Family.get_step ht t' []] at hr
    exact (moves_of_act ha).returned hw (Option.some.inj hr)

/-- **Waiting** on the waitable queue does not depend on the inner queue. -/
theorem run_independent {tr : List (Config Shared Thread × Label Choice)} {c : Config Shared Thread}
    (h : waitableQueue.Run initial tr c) : Independent c :=
  (run_inv h).independent

/-- The inner queue runs nothing: one thread waits for the operation that the other executes. -/
def helping : List (Label Choice) :=
  Label.call (Choice.async 0) :: List.replicate 2 (.act 0 .step) ++
    Label.call (Choice.wait .all) :: List.replicate 2 (.act 1 .step) ++
    [Label.call (Choice.wait .one), .act 2 .step]

theorem run_independent_helping : Independent (waitableQueue.last initial helping) ∧
    (waitableQueue.last initial helping).threads = [.returned, .executing (some .all) 0, .waitBlocked .one 0] :=
  ⟨run_independent (Program.run_last (l := helping) (by decide)), by decide⟩

end Xdispatch.WaitableQueue
