import Xdispatch.WaitableQueue.Invariant

/-!
# Which completions a waitable queue counts as waited for

`m_completed` counts the operations that have completed and that no
`wait_for_one` has taken. `wait_for_all` takes some while it has something to
wait for, and leaves the others: those that the inner queue executed before it
came, or while it was blocked. A later `wait_for_one` returns for one of these
and not for the operation it was to wait for.
-/

namespace Xdispatch.WaitableQueue

section
variable {s s' : Shared} {t t' : Thread} {w : Waiter} {r : Shared × Outcome} {e : Choice}

/-! ## What the waits take -/

theorem waitForOne_le (s : Shared) : s.waitForOne.1.completed ≤ s.completed := by
  unfold Shared.waitForOne
  split
  · exact Nat.sub_le _ _
  split
  · exact Nat.le_refl _
  split <;> exact Nat.le_refl _

theorem waitForAll_le : ∀ (n : Nat) (s : Shared), (s.waitForAll n).1.completed ≤ s.completed
  | 0, s => by
    unfold Shared.waitForAll
    split
    · exact waitForOne_le s
    · exact Nat.le_refl _
  | n + 1, s => by
    unfold Shared.waitForAll
    split
    · split
      · exact Nat.le_trans (waitForAll_le n _) (waitForOne_le s)
      · exact waitForOne_le s
    · exact Nat.le_refl _

theorem enter_le (s : Shared) (w : Waiter) : (w.enter s).1.completed ≤ s.completed := by
  cases w with
  | one => exact waitForOne_le s
  | all => exact waitForAll_le _ s

theorem resume_le (s : Shared) (w : Waiter) : (w.resume s).1.completed ≤ s.completed := by
  cases w with
  | one => exact waitForOne_le s
  | all =>
    unfold Waiter.resume
    simp only []
    split
    · exact Nat.le_trans (waitForAll_le _ _) (waitForOne_le s)
    · exact waitForOne_le s

theorem act_pass (h : t.act s e = some (s', t')) (hw : Waits w t) :
    s' = s ∧ t' = .waitBlocked w s.notifications ∨ t = .wait w ∧ (s', t') = w.after (w.enter s) ∨
      t ≠ .wait w ∧ (s', t') = w.after (w.resume s) := by
  have hwake : wake s w = (s', t') → s' = s ∧ t' = .waitBlocked w s.notifications ∨ (s', t') = w.after (w.resume s) := by
    intro h
    unfold wake at h
    split at h
    · cases h
      exact Or.inl ⟨rfl, rfl⟩
    · exact Or.inr h.symm
  cases hw with
  | wait =>
    cases e <;> first | cases h; done | exact Or.inr (Or.inl ⟨rfl, (Option.some.inj h).symm⟩)
  | resuming =>
    cases e <;> first | cases h; done | exact Or.inr (Or.inr ⟨by simp, (Option.some.inj h).symm⟩)
  | blocked seen =>
    have hact : wake s w = (s', t') := by
      cases e with
      | step =>
        simp only [Thread.act] at h
        split at h
        · exact Option.some.inj h
        · cases h
      | spurious => exact Option.some.inj h
      | _ => cases h
    exact (hwake hact).imp_right fun h => Or.inr ⟨by simp, h⟩

theorem act_completed_le (h : t.act s e = some (s', t')) (ht : t.executes = 0) : s'.completed ≤ s.completed := by
  have hwaits : ∀ w, Waits w t → s'.completed ≤ s.completed := by
    intro w hw
    rcases act_pass h hw with ⟨rfl, -⟩ | ⟨-, hr⟩ | ⟨-, hr⟩
    · exact Nat.le_refl _
    · exact (Prod.mk.inj hr).1 ▸ enter_le s w
    · exact (Prod.mk.inj hr).1 ▸ resume_le s w
  cases moves_of_act h with
  | waitBlocks _ hw | starves _ hw | returns _ hw => exact hwaits _ hw
  | finish => cases ht
  | _ => exact Nat.le_refl _

theorem after_returned (h : (s', Thread.returned) = w.after r) : r.1 = s' ∧ r.2 = .returned := by
  unfold Waiter.after at h
  obtain ⟨h1, h2⟩ := Prod.mk.inj h
  refine ⟨h1.symm, ?_⟩
  split at h2
  · assumption
  · cases h2
  · cases h2

theorem one_returns (h : t.act s e = some (s', .returned)) (hw : Waits .one t) :
    s.completed ≠ 0 ∨ s.active = false ∧ s.operations = [] := by
  have key : s.waitForOne.2 = .returned → s.completed ≠ 0 ∨ s.active = false ∧ s.operations = [] := by
    intro hr
    unfold Shared.waitForOne at hr
    split at hr
    · exact Or.inl ‹_›
    split at hr
    · cases hr
    split at hr
    · exact Or.inr ⟨by simp_all, ‹_›⟩
    · cases hr
  rcases act_pass h hw with ⟨-, hb⟩ | ⟨-, hr⟩ | ⟨-, hr⟩
  · cases hb
  · exact key (after_returned hr).2
  · exact key (after_returned hr).2

/-- What the loop of `wait_for_one` takes before the last test of `wait_for_all`: it was not entered
if nothing was active or listed when that began. -/
def Thread.takesLast : Thread → Nat
  | .wait _ => 0
  | _ => 1

theorem waitForAll_idle (hb : s.busy = false) : ∀ n, s.waitForAll n = (s, .returned)
  | 0 => by simp [Shared.waitForAll, hb]
  | n + 1 => by simp [Shared.waitForAll, hb]

theorem resume_idle (hb : s.busy = false) :
    Waiter.all.resume s = ({ s with completed := s.completed - 1 }, .returned) := by
  obtain ⟨ha, hops⟩ := busy_eq_false.mp hb
  have hone : s.waitForOne = ({ s with completed := s.completed - 1 }, .returned) := by
    unfold Shared.waitForOne
    split
    · rfl
    next h0 =>
      cases s
      simp_all
  have hb' : ({ s with completed := s.completed - 1 } : Shared).busy = false := hb
  unfold Waiter.resume
  simp only [hone, if_true]
  exact waitForAll_idle hb' _

theorem all_returns (h : t.act s e = some (s', .returned)) (hw : Waits .all t) :
    s.busy = false ∧ s' = { s with completed := s.completed - t.takesLast } := by
  have hb : s.busy = false := by
    refine busy_eq_false.mpr ?_
    have hm := moves_of_act h
    generalize hr : Thread.returned = t' at hm
    cases hm with
    | returns _ hw' hdone => exact hdone (by cases hw <;> cases hw' <;> rfl)
    | post | finish => cases hw
    | drainEmpty hd => cases hw <;> cases hd
    | _ => cases hr
  refine ⟨hb, ?_⟩
  rcases act_pass h hw with ⟨-, hr⟩ | ⟨rfl, hr⟩ | ⟨hne, hr⟩
  · cases hr
  · exact (after_returned hr).1.symm.trans (congrArg Prod.fst (waitForAll_idle hb _))
  · have ht : t.takesLast = 1 := by
      cases hw with
      | wait => exact absurd rfl hne
      | _ => rfl
    rw [ht, ← (after_returned hr).1, resume_idle hb]

end

/-! ## The operation that is being executed -/

/-- It is the last that has started. -/
def LastStarted (c : Config Shared Thread) : Prop :=
  ∀ caller op, .executing caller op ∈ c.threads → c.shared.started.getLast? = some op

section
variable {c c' : Config Shared Thread} {i : Nat} {t t' : Thread} {s' : Shared}

theorem Inv.not_executing (hI : Inv c) (ha : c.shared.active = false) (ht : t ∈ c.threads) : t.executes = 0 := by
  have htot := hI.active
  rw [ha] at htot
  exact Family.total_eq_zero.mp htot t ht

theorem act_lastStarted (hI : Inv c) (hL : LastStarted c) (h : Moves c.shared t s' t') :
    LastStarted ⟨s', c.threads.set i t' ++ []⟩ := by
  have key : s'.started = c.shared.started → (∀ caller op, t' ≠ .executing caller op) →
      LastStarted ⟨s', c.threads.set i t' ++ []⟩ := by
    intro hs hne caller op hm
    rw [List.append_nil] at hm
    change s'.started.getLast? = some op
    rw [hs]
    rcases List.mem_or_eq_of_mem_set hm with hm | rfl
    · exact hL caller op hm
    · exact absurd rfl (hne caller op)
  cases h with
  | @take caller _ op rest _ ha _ =>
    intro caller' op' hm
    rw [List.append_nil] at hm
    rcases List.mem_or_eq_of_mem_set hm with hm | hm
    · cases hI.not_executing ha hm
    · cases hm
      exact List.getLast?_concat
  | @drainEmpty caller | @finish caller => exact key rfl (by cases caller <;> simp [drained])
  | _ => exact key rfl (by simp)

theorem next_lastStarted {l : Label Choice} (hI : Inv c) (hL : LastStarted c) (h : waitableQueue.next c l = some c') :
    LastStarted c' := by
  cases l with
  | call e =>
    obtain ⟨s', new, hc, rfl⟩ := Program.next_call h
    obtain ⟨⟨n, rfl⟩, hnew⟩ := call_shared hc
    intro caller op hm
    rcases List.mem_append.mp hm with hm | hm
    · exact hL caller op hm
    · cases hnew _ hm
  | act i e =>
    obtain ⟨t, s₁, t₁, ht, ha, rfl⟩ := next_act_of h
    exact act_lastStarted hI hL (moves_of_act ha)

end

theorem run_lastStarted {tr : List (Config Shared Thread × Label Choice)} {c : Config Shared Thread}
    (h : waitableQueue.Run initial tr c) : LastStarted c :=
  (h.invariant (I := fun c => Inv c ∧ LastStarted c) (C := fun _ _ => True)
    ⟨initial_inv, fun _ _ hm => absurd hm (List.not_mem_nil)⟩
    (fun _ _ _ hI _ hn => ⟨next_inv hI.1 hn, next_lastStarted hI.1 hI.2 hn⟩) Program.along_true).2

/-! ## After a wait for all -/

/-- The step completes an operation that is not among the first `n` that were added: operations start in
the order in which they were added. -/
def completesLater (n : Nat) (c : Config Shared Thread) : Label Choice → Bool
  | .act i .step =>
    match c.threads[i]? with
    | some (.executing _ op) => c.shared.started.getLast? = some op ∧ n < c.shared.started.length
    | _ => false
  | _ => false

/-- Everything that has completed counts as waited for: if a thread then adds an operation and, when that has
returned, waits for one, the wait returns only after an operation that was added later has completed. -/
def Accounted (c : Config Shared Thread) : Prop :=
  ∀ (op : Nat) (tr₁ tr₂ tr₃ : List (Config Shared Thread × Label Choice)) (c₁ c₁' c₂ c₂' c₃ : Config Shared Thread),
    waitableQueue.Run c tr₁ c₁ → waitableQueue.next c₁ (.call (.async op)) = some c₁' →
    waitableQueue.Run c₁' tr₂ c₂ → c₂.threads[c₁.threads.length]? = some .returned →
    waitableQueue.next c₂ (.call (.wait .one)) = some c₂' →
    waitableQueue.Run c₂' tr₃ c₃ → c₃.threads[c₂.threads.length]? = some .returned →
    ∃ p ∈ tr₁ ++ tr₂ ++ tr₃, completesLater c.shared.added.length p.1 p.2 = true

/-- No operation but the first `n` that were added has completed, and nothing that has may be waited for. -/
structure Waited (n : Nat) (c : Config Shared Thread) : Prop where
  completed : c.shared.completed = 0
  started : c.shared.started.length = n + c.shared.active.toNat

section
variable {c c' : Config Shared Thread} {n i : Nat} {t t' : Thread} {s' : Shared} {e : Choice} {l : Label Choice}

theorem Moves.started_active (h : Moves c.shared t s' t') (hw : c.shared.started.length = n + c.shared.active.toNat)
    (ht : t.executes = 0) : s'.started.length = n + s'.active.toNat := by
  cases h with
  | take _ ha _ =>
    rw [ha] at hw
    change c.shared.started.length = n at hw
    simp [hw]
  | drainEmpty _ ha _ =>
    rw [ha] at hw
    exact hw
  | finish => cases ht
  | _ => exact hw

theorem Waited.next (hI : Inv c) (hL : LastStarted c) (hw : Waited n c) (h : waitableQueue.next c l = some c')
    (hl : completesLater n c l = false) : Waited n c' := by
  cases l with
  | call e =>
    obtain ⟨s', new, hc, rfl⟩ := Program.next_call h
    obtain ⟨⟨n, rfl⟩, -⟩ := call_shared hc
    exact ⟨hw.completed, hw.started⟩
  | act i e =>
    obtain ⟨t, s₁, t₁, ht, ha, rfl⟩ := next_act_of h
    have hexec : t.executes = 0 := by
      cases t with
      | executing caller op =>
        have hlast := hL caller op (Family.mem_of_get ht)
        have hact := active_of_executes (hI.executes_le ht)
        have hs := hw.started
        rw [hact] at hs
        cases e with
        | step =>
          simp only [completesLater, ht, hlast, hs, Bool.toNat_true, Nat.lt_succ_self, and_self, decide_true] at hl
          cases hl
        | _ => cases ha
      | _ => rfl
    have hc := act_completed_le ha hexec
    have := hw.completed
    exact ⟨by change s₁.completed = 0; omega, (moves_of_act ha).started_active hw.started hexec⟩

theorem Waited.run {c₀ : Config Shared Thread} {tr : List (Config Shared Thread × Label Choice)} (hI : Inv c₀)
    (hL : LastStarted c₀) (hw : Waited n c₀) (h : waitableQueue.Run c₀ tr c)
    (hl : ∀ p ∈ tr, completesLater n p.1 p.2 = false) : Inv c ∧ LastStarted c ∧ Waited n c :=
  h.invariant (I := fun c => Inv c ∧ LastStarted c ∧ Waited n c) (C := fun c l => completesLater n c l = false)
    ⟨hI, hL, hw⟩ (fun _ _ _ hI hl hn => ⟨next_inv hI.1 hn, next_lastStarted hI.1 hI.2.1 hn, hI.2.2.next hI.1 hI.2.1 hn hl⟩)
    hl

theorem Waited.not_returned (hI : Inv c) (hw : Waited n c) (hadd : n < c.shared.added.length)
    (h : t.act c.shared e = some (s', .returned)) : ¬ Waits .one t := by
  intro hone
  rcases one_returns h hone with h0 | ⟨ha, hops⟩
  · exact h0 hw.completed
  · have hs := hw.started
    have hh := hI.history
    rw [hops, List.append_nil] at hh
    rw [ha, hh] at hs
    exact Nat.lt_irrefl _ (hs ▸ hadd)

end

/-! ## The calls that follow -/

/-- The wait that a thread is in, also while it executes an operation. -/
def Thread.waiter : Thread → Option Waiter
  | .wait w | .waitBlocked w _ | .resuming w | .drain (some w) | .drainBlocked (some w) _ | .executing (some w) _ => some w
  | _ => none

section
variable {c c' : Config Shared Thread} {n i : Nat} {t t' : Thread} {s s' : Shared} {e : Choice} {l : Label Choice}
    {w : Waiter}

theorem Moves.waiter (h : Moves s t s' t') (hw : t.waiter = some w) : t'.waiter = some w ∨ t' = .returned ∧ Waits w t := by
  cases h with
  | add | post => cases hw
  | @drainBlocks caller _ hd | @take caller _ op rest hd =>
    cases caller <;> cases hd <;> first | cases hw; done | exact Or.inl hw
  | @drainEmpty caller _ hd => cases caller <;> cases hd <;> first | cases hw; done | exact Or.inl hw
  | @finish caller op => cases caller <;> first | cases hw; done | exact Or.inl hw
  | waitBlocks _ hw' | starves _ hw' => cases hw' <;> exact Or.inl hw
  | returns _ hw' => cases hw' <;> cases hw <;> exact Or.inr ⟨rfl, by constructor⟩

/-- The call of `async` has added its operation, unless it is still about to. -/
def Adds (n k : Nat) (c : Config Shared Thread) : Prop :=
  (∃ op, c.threads[k]? = some (.add op)) ∨ n < c.shared.added.length

theorem Moves.added_le (h : Moves s t s' t') : s.added.length ≤ s'.added.length := by
  cases h with
  | add op => simp
  | _ => exact Nat.le_refl _

theorem next_added_le (h : waitableQueue.next c l = some c') : c.shared.added.length ≤ c'.shared.added.length := by
  cases l with
  | call e =>
    obtain ⟨s', new, hc, rfl⟩ := Program.next_call h
    obtain ⟨⟨n, rfl⟩, -⟩ := call_shared hc
    exact Nat.le_refl _
  | act i e =>
    obtain ⟨t, s', t', -, ha, rfl⟩ := next_act_of h
    exact (moves_of_act ha).added_le

theorem Adds.next {k : Nat} (hI : Inv c) (hw : Waited n c) (ha : Adds n k c) (h : waitableQueue.next c l = some c') :
    Adds n k c' := by
  rcases ha with ⟨op, hk⟩ | hlt
  · cases l with
    | call e =>
      obtain ⟨s', new, hc, rfl⟩ := Program.next_call h
      exact Or.inl ⟨op, Family.get_append hk new⟩
    | act i e =>
      obtain ⟨t, s', t', ht, ha, rfl⟩ := next_act_of h
      by_cases hik : i = k
      · subst hik
        cases hk.symm.trans ht
        cases e <;> cases ha
        have hle : c.shared.started.length ≤ c.shared.added.length := by
          rw [← hI.history, List.length_append]
          exact Nat.le_add_right _ _
        have := hw.started
        right
        simp only [List.length_append, List.length_singleton]
        omega
      · exact Or.inl ⟨op, Family.get_step_of_ne hk hik t' []⟩
  · exact Or.inr (Nat.lt_of_lt_of_le hlt (next_added_le h))

theorem Waited.next_waiter {k : Nat} (hI : Inv c) (hw : Waited n c) (hadd : n < c.shared.added.length)
    (ht : ∃ t, c.threads[k]? = some t ∧ t.waiter = some .one) (h : waitableQueue.next c l = some c') :
    ∃ t, c'.threads[k]? = some t ∧ t.waiter = some .one := by
  obtain ⟨t, ht, hwt⟩ := ht
  cases l with
  | call e =>
    obtain ⟨s', new, hc, rfl⟩ := Program.next_call h
    exact ⟨t, Family.get_append ht new, hwt⟩
  | act i e =>
    obtain ⟨u, s', u', hu, ha, rfl⟩ := next_act_of h
    by_cases hik : i = k
    · subst hik
      cases ht.symm.trans hu
      refine ⟨u', Family.get_step ht u' [], ((moves_of_act ha).waiter hwt).resolve_right ?_⟩
      rintro ⟨rfl, hone⟩
      exact hw.not_returned hI hadd ha hone
    · exact ⟨t, Family.get_step_of_ne ht hik u' [], hwt⟩

theorem Waited.accounted (hI : Inv c) (hL : LastStarted c) (hw : Waited c.shared.added.length c) : Accounted c := by
  intro op tr₁ tr₂ tr₃ c₁ c₁' c₂ c₂' c₃ h₁ hasync h₂ hadded hwait h₃ hreturned
  refine Classical.byContradiction fun hnone => ?_
  have hnot : ∀ p ∈ tr₁ ++ tr₂ ++ tr₃, completesLater c.shared.added.length p.1 p.2 = false := fun p hp =>
    Bool.eq_false_iff.mpr fun h => hnone ⟨p, hp, h⟩
  simp only [List.mem_append] at hnot
  obtain ⟨hI₁, hL₁, hw₁⟩ := hw.run hI hL h₁ fun p hp => hnot p (Or.inl (Or.inl hp))
  -- up to the end of the `async`
  obtain ⟨s', new, hc, rfl⟩ := Program.next_call hasync
  cases hc
  have hstart : Adds c.shared.added.length c₁.threads.length ⟨c₁.shared, c₁.threads ++ [.add op]⟩ :=
    Or.inl ⟨op, List.getElem?_concat_length⟩
  obtain ⟨⟨hI₂, hL₂, hw₂⟩, hadds⟩ := h₂.invariant
    (I := fun d => (Inv d ∧ LastStarted d ∧ Waited c.shared.added.length d) ∧ Adds c.shared.added.length c₁.threads.length d)
    (C := fun d l => completesLater c.shared.added.length d l = false)
    ⟨⟨next_inv hI₁ hasync, next_lastStarted hI₁ hL₁ hasync, hw₁.next hI₁ hL₁ hasync rfl⟩, hstart⟩
    (fun d l d' hd hl hn => ⟨⟨next_inv hd.1.1 hn, next_lastStarted hd.1.1 hd.1.2.1 hn, hd.1.2.2.next hd.1.1 hd.1.2.1 hn hl⟩,
      hd.2.next hd.1.1 hd.1.2.2 hn⟩) fun p hp => hnot p (Or.inl (Or.inr hp))
  have hadd : c.shared.added.length < c₂.shared.added.length := by
    refine hadds.resolve_left fun ⟨op', ht⟩ => ?_
    cases ht.symm.trans hadded
  -- up to the end of the `wait_for_one`
  obtain ⟨s', new, hc, rfl⟩ := Program.next_call hwait
  cases hc
  obtain ⟨-, -, t, ht, hone⟩ := h₃.invariant
    (I := fun d => (Inv d ∧ LastStarted d ∧ Waited c.shared.added.length d) ∧ c.shared.added.length < d.shared.added.length ∧
      ∃ t, d.threads[c₂.threads.length]? = some t ∧ t.waiter = some .one)
    (C := fun d l => completesLater c.shared.added.length d l = false)
    ⟨⟨next_inv hI₂ hwait, next_lastStarted hI₂ hL₂ hwait, hw₂.next hI₂ hL₂ hwait rfl⟩, hadd,
      .wait .one, List.getElem?_concat_length, rfl⟩
    (fun d l d' hd hl hn => ⟨⟨next_inv hd.1.1 hn, next_lastStarted hd.1.1 hd.1.2.1 hn, hd.1.2.2.next hd.1.1 hd.1.2.1 hn hl⟩,
      Nat.lt_of_lt_of_le hd.2.1 (next_added_le hn), hd.1.2.2.next_waiter hd.1.1 hd.2.1 hd.2.2 hn⟩)
    fun p hp => hnot p (Or.inr hp)
  cases ht.symm.trans hreturned
  cases hone

theorem wait_one_takes (h : s.completed ≠ 0) :
    waitableQueue.act s (.wait .one) .step = some ({ s with completed := s.completed - 1 }, .returned, []) := by
  simp [waitableQueue, Thread.act, Waiter.after, Waiter.enter, Shared.waitForOne, h]

theorem not_accounted (h : c.shared.completed ≠ 0) : ¬ Accounted c := by
  intro ha
  obtain ⟨s, ts⟩ := c
  have hadd : waitableQueue.act s (.add 0) .step =
      some ({ s with operations := s.operations ++ [0], added := s.added ++ [0] }, .post, []) := rfl
  have hpost : waitableQueue.act { s with operations := s.operations ++ [0], added := s.added ++ [0] } .post .step =
      some ({ s with operations := s.operations ++ [0], added := s.added ++ [0], inner := s.inner + 1 }, .returned, []) := rfl
  obtain ⟨p, hp, hl⟩ := ha 0 [] _ _ _ _ _ _ _ .nil rfl
    ((Program.Run.nil.snoc (Program.next_last hadd)).snoc (Program.next_last hpost)) List.getElem?_concat_length rfl
    (Program.Run.nil.snoc (Program.next_last (wait_one_takes h))) List.getElem?_concat_length
  simp only [List.nil_append, List.cons_append, List.mem_cons, List.not_mem_nil, or_false] at hp
  rcases hp with rfl | rfl | rfl <;> simp [completesLater] at hl

/-- After `wait_for_all` has returned, every completion counts as waited for if and only if no more than
the loop of its last `wait_for_one`, if it got there, would take was left when it came to its last test. -/
theorem run_accounted_iff {tr : List (Config Shared Thread × Label Choice)} (h : waitableQueue.Run initial tr c)
    (ht : c.threads[i]? = some t) (hall : Waits .all t) (hn : waitableQueue.next c (.act i e) = some c')
    (hr : c'.threads[i]? = some .returned) : Accounted c' ↔ c.shared.completed ≤ t.takesLast := by
  have hI := run_inv h
  have hL := run_lastStarted h
  have hI' := next_inv hI hn
  have hL' := next_lastStarted hI hL hn
  obtain ⟨u, s', u', hu, ha, rfl⟩ := next_act_of hn
  cases ht.symm.trans hu
  cases hr.symm.trans (Family.get_step ht u' [])
  obtain ⟨hb, rfl⟩ := all_returns ha hall
  obtain ⟨hact, hops⟩ := busy_eq_false.mp hb
  constructor
  · intro hacc
    refine Nat.le_of_not_lt fun hlt => not_accounted ?_ hacc
    change c.shared.completed - t.takesLast ≠ 0
    omega
  · intro hle
    refine Waited.accounted hI' hL' ⟨Nat.sub_eq_zero_of_le hle, ?_⟩
    have hh := hI.history
    rw [hops, List.append_nil] at hh
    change c.shared.started.length = c.shared.added.length + c.shared.active.toNat
    rw [hh, hact]
    rfl

end

/-- The inner queue has executed the operation when a thread begins to wait for all. -/
def executedBefore : List (Label Choice) :=
  Label.call (Choice.async 0) :: List.replicate 2 (.act 0 .step) ++
    Label.call Choice.run :: List.replicate 2 (.act 1 .step) ++ [Label.call (Choice.wait .all)]

theorem run_accounted_iff_before :
    Accounted (waitableQueue.last initial (executedBefore ++ [.act 2 .step])) ↔
      (waitableQueue.last initial executedBefore).shared.completed ≤ Thread.takesLast (.wait .all) :=
  run_accounted_iff (i := 2) (e := .step) (Program.run_last (l := executedBefore) (by decide)) (by decide) .wait (by decide)
    (by decide)

/-- A `wait_for_one` then returns for that operation, and not for one that is added in between. -/
theorem all_not_accounted : ¬ ∀ (tr : List (Config Shared Thread × Label Choice)) (c c' : Config Shared Thread) (i : Nat)
    (t : Thread) (e : Choice), waitableQueue.Run initial tr c → c.threads[i]? = some t → Waits .all t →
      waitableQueue.next c (.act i e) = some c' → c'.threads[i]? = some .returned → Accounted c' := fun h =>
  not_accounted (by decide) (h _ _ (waitableQueue.last initial (executedBefore ++ [.act 2 .step])) 2 (.wait .all) .step
    (Program.run_last (l := executedBefore) (by decide)) (by decide) .wait (by decide) (by decide))

end Xdispatch.WaitableQueue
