import Xdispatch.Group.Invariant

/-!
# How long the chain of consumables gets

Every `wait` that exchanges `m_consumable` links one more consumable in front,
and `m_preceeding` is never reset, so none is released as long as the group
exists. The recursion of `wait_for_consumed`, and that of the destructors, is as
deep as the chain is long.
-/

namespace Xdispatch.Group

open Family

/-- `n` consumables are linked from `c` on. -/
inductive ChainLength (heap : Nat → Consumable) : Nat → Nat → Prop
  | last {c : Nat} : (heap c).preceeding = none → ChainLength heap c 1
  | link {c p n : Nat} : (heap c).preceeding = some p → ChainLength heap p n → ChainLength heap c (n + 1)

/-- Past the loop that exchanges `m_consumable`. -/
def WaitPhase.exchanged : WaitPhase → Nat
  | .pooled | .load | .swap _ => 0
  | _ => 1

/-- The call of `wait`, or the wait of a notification, has exchanged `m_consumable`. -/
def Thread.exchanged : Thread → Nat
  | .wait w => w.phase.exchanged
  | .operation .. => 0

/-- A wait has returned true, and no operation is outstanding. -/
structure Settled (c : Config Shared Thread) : Prop where
  returned : ∃ t owed, Thread.wait ⟨none, t, owed, .returned true⟩ ∈ c.threads
  done : ∀ id ph, Thread.operation id ph ∈ c.threads → ph = .done

section
variable {c c' : Config Shared Thread} {s s' : Shared} {heap heap' : Nat → Consumable} {k n m : Nat} {w : Wait} {e : Choice}
  {ph : WaitPhase}

theorem ChainLength.unique (h : ChainLength heap k n) (h' : ChainLength heap k m) : n = m := by
  induction h generalizing m with
  | last hn =>
    cases h' with
    | last => rfl
    | link hp => cases hn.symm.trans hp
  | link hp _ ih =>
    cases h' with
    | last hn => cases hn.symm.trans hp
    | link hp' h' =>
      cases hp.symm.trans hp'
      rw [ih h']

theorem ChainLength.congr (hlt : ∀ k p, (heap k).preceeding = some p → p < k)
    (heq : ∀ j ≤ k, (heap' j).preceeding = (heap j).preceeding) (h : ChainLength heap k n) : ChainLength heap' k n := by
  induction h with
  | last hn => exact .last ((heq _ (Nat.le_refl _)).trans hn)
  | link hp _ ih =>
    have := hlt _ _ hp
    exact .link ((heq _ (Nat.le_refl _)).trans hp) (ih fun j hj => heq j (by omega))

theorem exchanged_satisfied : ∀ stack : List Nat, (satisfied stack).exchanged = 1
  | [] => rfl
  | _ :: _ => rfl

/-- A step of a wait leaves the loop by the exchange that succeeds, and only then. -/
theorem wait_exchanged (h : w.act s e = some (s', ph)) : ph.exchanged = w.phase.exchanged ∨
    w.phase = .swap s.consumable ∧ s' = s.swap s.consumable ∧ ph = .descend s.consumable [] := by
  cases wait_cases h with
  | exchanges hp => exact Or.inr ⟨hp, rfl, rfl⟩
  | drained c stack hp _ | completed c stack hp _ | wakes c stack _ hp _ =>
    exact Or.inl (by rw [hp, exchanged_satisfied]; rfl)
  | taken hp | loads hp | reloads _ _ hp _ | descends _ _ _ hp _ _ | arrives _ _ hp _ | counts _ _ hp _
  | blocks _ _ hp _ | expires _ _ _ hp _ _ | submits _ _ hp _ =>
    exact Or.inl (by rw [hp]; rfl)

theorem ChainLength.step (hI : Inv c) (hs : s'.consumable = c.shared.consumable)
    (hp : ∀ k, (s'.heap k).preceeding = (c.shared.heap k).preceeding) (h : ChainLength c.shared.heap c.shared.consumable n) :
    ChainLength s'.heap s'.consumable n := by
  rw [hs]
  exact h.congr hI.preceeding_lt fun k _ => hp k

theorem ChainLength.behind (hI : Inv c) (h : ChainLength c.shared.heap c.shared.consumable n) :
    ChainLength (c.shared.swap c.shared.consumable).heap c.shared.consumable n := by
  have hlt := hI.head_lt
  refine h.congr hI.preceeding_lt fun j hj => ?_
  simp only [Shared.swap]
  rw [Function.update_of_ne (by omega)]

theorem ChainLength.swap (hI : Inv c) (h : ChainLength c.shared.heap c.shared.consumable n) :
    ChainLength (c.shared.swap c.shared.consumable).heap (c.shared.swap c.shared.consumable).consumable (n + 1) :=
  .link (by simp [Shared.swap]) (h.behind hI)

/-- The chain has one consumable for each wait that has exchanged `m_consumable`, and the first. -/
theorem run_chainLength {now : Nat} {tr : List (Config Shared Thread × Label Choice)}
    (h : group.Run (initial now) tr c) :
    ChainLength c.shared.heap c.shared.consumable (total Thread.exchanged c.threads + 1) := by
  refine (h.invariant_by
    (I := fun c => Inv c ∧ ChainLength c.shared.heap c.shared.consumable (total Thread.exchanged c.threads + 1))
    (C := fun _ _ => True) ⟨initial_inv now, .last rfl⟩ ?_ ?_ Program.along_true).2
  · intro c e s new hI _ hc
    refine ⟨call_inv hI.1 hc, ?_⟩
    have hnew : total Thread.exchanged new = 0 ∧ s.heap = c.shared.heap ∧ s.consumable = c.shared.consumable := by
      cases e with
      | async | wait | notify | tick =>
        cases hc
        exact ⟨rfl, rfl, rfl⟩
      | _ => cases hc
    rw [total_append, hnew.1, hnew.2.1, hnew.2.2]
    exact hI.2
  · intro c i e t s t' new hI _ ht ha
    refine ⟨act_inv hI.1 ht ha, ?_⟩
    obtain ⟨rfl, ⟨id, ph, ph', rfl, rfl, h⟩ | ⟨w, ph, rfl, rfl, h⟩⟩ := act_cases ha
    · obtain ⟨-, hs, -, hp, -⟩ := operation_fresh h fun k hk => hI.1.consumable_lt (mem_of_get ht) hk
      have htot := total_set Thread.exchanged ht (.operation id ph')
      rw [List.append_nil, Nat.add_right_cancel htot]
      exact hI.2.step hI.1 hs hp
    · have htot := total_set Thread.exchanged ht (.wait { w with phase := ph })
      change _ + w.phase.exchanged = _ + ph.exchanged at htot
      rw [List.append_nil]
      rcases wait_shared h with ⟨rfl, -⟩ | ⟨hw, rfl, rfl⟩ | ⟨n, r, -, hw, rfl, rfl⟩
      · rcases wait_exchanged h with hex | ⟨hw, hs, rfl⟩
        · rw [hex] at htot
          rw [Nat.add_right_cancel htot]
          exact hI.2
        · exact absurd (congrArg Shared.size hs) (Nat.succ_ne_self _).symm
      · rw [hw] at htot
        rw [show total Thread.exchanged (c.threads.set i _) = total Thread.exchanged c.threads + 1 from htot]
        exact hI.2.swap hI.1
      · rw [hw] at htot
        rw [Nat.add_right_cancel htot]
        exact hI.2.step hI.1 rfl fun _ => rfl

end

/-- For any way to use a group, given by the histories that it allows: there is a bound on the chain after a wait
has returned true and with no operation outstanding, if and only if there is one on the waits that have been made. -/
theorem chain_bounded_iff (now : Nat) (uses : List (Config Shared Thread × Label Choice) → Prop) :
    (∃ bound, ∀ tr c n, uses tr → group.Run (initial now) tr c → Settled c →
      ChainLength c.shared.heap c.shared.consumable n → n ≤ bound) ↔
    ∃ waits, ∀ tr c, uses tr → group.Run (initial now) tr c → Settled c → total Thread.exchanged c.threads ≤ waits := by
  constructor
  · rintro ⟨bound, hb⟩
    exact ⟨bound, fun tr c hu h hs => Nat.le_of_succ_le (hb tr c _ hu h hs (run_chainLength h))⟩
  · rintro ⟨waits, hw⟩
    refine ⟨waits + 1, fun tr c n hu h hs hn => ?_⟩
    rw [hn.unique (run_chainLength h)]
    exact Nat.succ_le_succ (hw tr c hu h hs)

/-! ## Waiting again and again -/

section
variable {c₀ : Config Shared Thread} {s s' : Shared} {ts : List Thread} {w : Wait} {k n : Nat}
  {tr : List (Config Shared Thread × Label Choice)}

theorem last_wait (w : Wait) (ph ph' : WaitPhase) (h : group.Run c₀ tr ⟨s, ts ++ [.wait { w with phase := ph }]⟩)
    (ha : Wait.act s { w with phase := ph } .step = some (s', ph')) :
    ∃ tr', group.Run c₀ tr' ⟨s', ts ++ [.wait { w with phase := ph' }]⟩ :=
  h.last_step (e := .step) (by simp [group, act, ha])

/-- A wait by itself goes down the chain and comes back, if nothing on it is counted. -/
theorem descend_returns (h0 : ∀ k, (s.heap k).resources = 0) (hlt : ∀ k p, (s.heap k).preceeding = some p → p < k)
    (hk : ChainLength s.heap k n) : ∀ (stack : List Nat) (tr : List (Config Shared Thread × Label Choice)),
    group.Run c₀ tr ⟨s, ts ++ [.wait { w with phase := .descend k stack }]⟩ →
      ∃ tr', group.Run c₀ tr' ⟨s, ts ++ [.wait { w with phase := satisfied stack }]⟩ := by
  have hcheck : ∀ k stack tr, group.Run c₀ tr ⟨s, ts ++ [.wait { w with phase := .check k stack }]⟩ →
      ∃ tr', group.Run c₀ tr' ⟨s, ts ++ [.wait { w with phase := satisfied stack }]⟩ :=
    fun k stack tr h => last_wait w _ _ h (by simp [Wait.act, h0 k])
  induction hk with
  | @last k hn =>
    intro stack tr h
    have ha : Wait.act s { w with phase := .descend k stack } .step = some (s, .check k stack) := by
      simp [Wait.act, hn]
    obtain ⟨tr', h'⟩ := last_wait w _ _ h ha
    exact hcheck _ _ _ h'
  | @link k p n hp _ ih =>
    intro stack tr h
    have hne : p ≠ k := Nat.ne_of_lt (hlt k p hp)
    have ha : Wait.act s { w with phase := .descend k stack } .step = some (s, .descend p (k :: stack)) := by
      simp [Wait.act, hp, hne]
    obtain ⟨tr', h'⟩ := last_wait w _ _ h ha
    obtain ⟨tr'', h''⟩ := ih (k :: stack) tr' h'
    exact hcheck _ _ _ h''

/-- The group has not been used but for `n` waits, which have all returned. -/
structure Waited (n : Nat) (c : Config Shared Thread) : Prop where
  resources : ∀ k, (c.shared.heap k).resources = 0
  added : c.shared.added = []
  threads : c.threads = List.replicate n (.wait ⟨none, waitForever, [], .returned true⟩)

theorem exists_waited (now : Nat) : ∀ n, ∃ tr c, group.Run (initial now) tr c ∧ Waited n c
  | 0 => ⟨[], _, .nil, fun _ => rfl, rfl, rfl⟩
  | n + 1 => by
    obtain ⟨tr, ⟨s, ts⟩, h, hres, hadd, hts⟩ := exists_waited now n
    have hI := run_inv h
    have hcall : group.next ⟨s, ts⟩ (.call (.wait waitForever)) = some ⟨s, ts ++ [.wait ⟨none, waitForever, [], .load⟩]⟩ := by
      simp [Program.next, group, call, show s.added = [] from hadd]
    obtain ⟨tr₁, h₁⟩ := last_wait ⟨none, waitForever, [], .load⟩ .load (.swap s.consumable) (h.snoc hcall) rfl
    have hswap : Wait.act s ⟨none, waitForever, [], .swap s.consumable⟩ .step =
        some (s.swap s.consumable, .descend s.consumable []) := by
      simp [Wait.act]
    obtain ⟨tr₂, h₂⟩ := last_wait ⟨none, waitForever, [], .load⟩ _ _ h₁ hswap
    have h0 : ∀ k, ((s.swap s.consumable).heap k).resources = 0 := by
      intro k
      simp only [Shared.swap]
      by_cases hk : k = s.size
      · rw [hk, Function.update_self]
      · rw [Function.update_of_ne hk]
        exact hres k
    obtain ⟨tr₃, h₃⟩ := descend_returns h0 (run_inv h₂).preceeding_lt ((run_chainLength h).behind hI) [] tr₂ h₂
    refine ⟨tr₃, _, h₃, h0, hadd, ?_⟩
    rw [List.replicate_succ', ← hts]
    rfl

theorem Waited.exchanged {c : Config Shared Thread} (h : Waited n c) : total Thread.exchanged c.threads = n := by
  rw [h.threads]
  simp [total, Thread.exchanged, WaitPhase.exchanged]

theorem Waited.settled {c : Config Shared Thread} (h : Waited (n + 1) c) : Settled c := by
  refine ⟨⟨waitForever, [], ?_⟩, fun id ph hm => ?_⟩
  · rw [h.threads]
    exact List.mem_cons_self ..
  · rw [h.threads] at hm
    cases List.eq_of_mem_replicate hm

/-- Waiting in a loop on a group without operations makes the chain longer than any bound. -/
theorem chain_not_bounded : ¬ ∃ bound, ∀ tr c n, group.Run (initial 0) tr c → Settled c →
    ChainLength c.shared.heap c.shared.consumable n → n ≤ bound := by
  rintro ⟨bound, hb⟩
  obtain ⟨tr, c, h, hw⟩ := exists_waited 0 (bound + 1)
  have := hb tr c _ h hw.settled (run_chainLength h)
  rw [hw.exchanged] at this
  omega

end

end Xdispatch.Group
