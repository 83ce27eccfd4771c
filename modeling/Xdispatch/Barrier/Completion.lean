import Xdispatch.Barrier.Steps

/-!
# A completion is not lost

A barrier is signalled when `m_owner` is the completed marker or a waiter that
is done, and stays so. While no compare-exchange fails spuriously, a `complete`
returns from a signalled barrier only, and what waits then waits at the waiter
in `m_owner`.
-/

namespace Xdispatch.Barrier

def Signalled (s : Shared) : Prop := s.owner = .completed ∨ ∃ k, s.owner = .waiter k ∧ (s.heap k).done = true

/-- The step is not a compare-exchange that fails spuriously. -/
def exchangesStrongly (c : Config Shared Thread) : Label Choice → Bool
  | .act i .spurious =>
    match c.threads[i]? with
    | some (.wait w) => w.phase ≠ .exchange
    | some .completeExchange => false
    | _ => true
  | _ => true

/-! ## Shared state -/

structure Ok (s : Shared) : Prop where
  done : ∀ k, (s.heap k).done = true ↔ 0 < (s.heap k).notifications
  owner_lt : ∀ k, s.owner = .waiter k → k < s.size

/-- What no step undoes. -/
structure Grows (s s' : Shared) : Prop where
  owner : s.owner ≠ .noOwner → s'.owner = s.owner
  done : ∀ k, k < s.size → (s.heap k).done = true → (s'.heap k).done = true
  size : s.size ≤ s'.size

theorem Grows.signalled {s s' : Shared} (hg : Grows s s') (hO : Ok s) (h : Signalled s) : Signalled s' := by
  rcases h with h | ⟨k, h, hd⟩
  · exact Or.inl (by rw [hg.owner (by simp [h]), h])
  · exact Or.inr ⟨k, by rw [hg.owner (by simp [h]), h], hg.done k (hO.owner_lt k h) hd⟩

theorem Signalled.owner_ne {s : Shared} (h : Signalled s) : s.owner ≠ .noOwner := by
  rcases h with h | ⟨k, h, -⟩ <;> simp [h]

theorem Signalled.done {s : Shared} (h : Signalled s) {k : Nat} (hk : s.owner = .waiter k) :
    (s.heap k).done = true := by
  rcases h with h | ⟨k', h, hd⟩
  · rw [hk] at h; cases h
  · rw [hk] at h; cases h; exact hd

theorem keeps {s s' : Shared} (hO : Ok s) (ho : s'.owner = s.owner) (hs : s'.size = s.size)
    (hh : ∀ k, (s'.heap k).done = (s.heap k).done ∧ (s'.heap k).notifications = (s.heap k).notifications) :
    Ok s' ∧ Grows s s' := by
  refine ⟨⟨fun k => ?_, fun k h => ?_⟩, ⟨fun _ => ho, fun k _ h => ?_, Nat.le_of_eq hs.symm⟩⟩
  · rw [(hh k).1, (hh k).2]; exact hO.done k
  · rw [hs]; exact hO.owner_lt k (ho ▸ h)
  · rw [(hh k).1]; exact h

theorem keeps_refl {s : Shared} (hO : Ok s) : Ok s ∧ Grows s s := keeps hO rfl rfl fun _ => ⟨rfl, rfl⟩

theorem modify_free (s : Shared) (w k : Nat) :
    ((s.modify w .free).heap k).done = (s.heap k).done ∧
      ((s.modify w .free).heap k).notifications = (s.heap k).notifications := by
  by_cases h : k = w
  · subst h; simp [Shared.modify, Waiter.free]
  · simp [Shared.modify, Function.update_of_ne h]

theorem return_keeps {s : Shared} (hO : Ok s) (w : Wait) (r : Bool) :
    Ok (w.return s r).1 ∧ Grows s (w.return s r).1 := by
  cases hc : w.candidate with
  | none =>
    have : (w.return s r).1 = s.answer r := by rw [Wait.return, hc]; rfl
    rw [this]
    exact keeps hO rfl rfl fun _ => ⟨rfl, rfl⟩
  | some c =>
    have : (w.return s r).1 = (s.modify c .free).answer r := by rw [Wait.return, hc]; rfl
    rw [this]
    exact keeps hO rfl rfl (modify_free s c)

theorem return_history (s : Shared) (w : Wait) (r : Bool) :
    (w.return s r).1.completed = s.completed ∧ (w.return s r).1.missed = (s.missed || s.completed && !r) := by
  cases hc : w.candidate <;> simp [Wait.return, hc, Shared.free, Shared.answer, Shared.modify]

theorem allocate_keeps {s : Shared} (hO : Ok s) : Ok s.allocate ∧ Grows s s.allocate := by
  refine ⟨⟨fun k => ?_, fun k h => ?_⟩, ⟨fun _ => rfl, fun k hk h => ?_, Nat.le_succ _⟩⟩
  · by_cases hk : k = s.size
    · subst hk; simp [Shared.allocate, Waiter.new]
    · simpa [Shared.allocate, Function.update_of_ne hk] using hO.done k
  · have := hO.owner_lt k h
    simp only [Shared.allocate]
    omega
  · have hne : k ≠ s.size := by omega
    simpa [Shared.allocate, Function.update_of_ne hne] using h

theorem install_keeps {s : Shared} (hO : Ok s) (ho : s.owner = .noOwner) {o : Owner}
    (hlt : ∀ k, o = .waiter k → k < s.size) : Ok { s with owner := o } ∧ Grows s { s with owner := o } :=
  ⟨⟨hO.done, hlt⟩, ⟨fun h => absurd ho h, fun _ _ h => h, Nat.le_refl _⟩⟩

theorem complete_keeps {s : Shared} (hO : Ok s) (w : Nat) :
    Ok (s.modify w .complete) ∧ Grows s (s.modify w .complete) := by
  refine ⟨⟨fun k => ?_, hO.owner_lt⟩, ⟨fun _ => rfl, fun k _ h => ?_, Nat.le_refl _⟩⟩
  · by_cases hk : k = w
    · subst hk; simp [Shared.modify, Waiter.complete]
    · simpa [Shared.modify, Function.update_of_ne hk] using hO.done k
  · by_cases hk : k = w
    · subst hk; simp [Shared.modify, Waiter.complete]
    · simpa [Shared.modify, Function.update_of_ne hk] using h

/-! ## Threads -/

def Wait.Fits (s : Shared) (w : Wait) : Prop :=
  match w.phase with
  | .exchange => ∃ k, w.candidate = some k ∧ k < s.size
  | .enter k | .woken k _ | .timedOut k => s.owner = .waiter k
  | .blocked k seen _ => s.owner = .waiter k ∧ seen = 0
  | .null => False
  | _ => True

def Thread.Fits (s : Shared) : Thread → Prop
  | .wait w => w.Fits s
  | .completeWaiter k | .wasCompletedWaiter k => s.owner = .waiter k
  | _ => True

theorem Wait.Fits.mono {s s' : Shared} {w : Wait} (hg : Grows s s') (h : w.Fits s) : w.Fits s' := by
  have owner : ∀ k, s.owner = .waiter k → s'.owner = .waiter k := fun k hk => by rw [hg.owner (by simp [hk]), hk]
  unfold Wait.Fits at *
  split at h
  · obtain ⟨k, hk, hlt⟩ := h
    exact ⟨k, hk, Nat.lt_of_lt_of_le hlt hg.size⟩
  · exact owner _ h
  · exact owner _ h
  · exact owner _ h
  · exact ⟨owner _ h.1, h.2⟩
  · exact h
  · trivial

theorem Thread.Fits.mono {s s' : Shared} {t : Thread} (hg : Grows s s') (h : t.Fits s) : t.Fits s' := by
  cases t with
  | wait w => exact Wait.Fits.mono hg h
  | completeWaiter k | wasCompletedWaiter k =>
    replace h : s.owner = .waiter k := h
    show s'.owner = .waiter k
    rw [hg.owner (by simp [h]), h]
  | _ => trivial

theorem Wait.Fits.owner {s : Shared} {w : Wait} {k : Nat} {d : Option Int} (hf : w.Fits s)
    (hp : w.phase = .enter k ∧ d = w.deadline s ∨ w.phase = .woken k d) : s.owner = .waiter k := by
  unfold Wait.Fits at hf
  rcases hp with ⟨hp, -⟩ | hp
  · simpa only [hp] using hf
  · simpa only [hp] using hf

/-- What a step of a thread does, when a `complete` that has returned has signalled the barrier. -/
structure StepOk (s s' : Shared) (t' : Thread) : Prop where
  ok : Ok s'
  grows : Grows s s'
  fits : t'.Fits s'
  completed : s'.completed = true → s.completed = true ∨ Signalled s'
  missed : s'.missed = s.missed

theorem return_ok {s : Shared} (hO : Ok s) (w : Wait) {r : Bool} (hr : s.completed = true → r = true) :
    StepOk s (w.return s r).1 (.wait (w.return s r).2) := by
  obtain ⟨hO', hg⟩ := return_keeps hO w r
  obtain ⟨hc, hm⟩ := return_history s w r
  refine ⟨hO', hg, trivial, fun h => Or.inl (hc ▸ h), ?_⟩
  rw [hm]
  cases hs : s.completed with
  | false => simp
  | true => simp [hr hs]

theorem test_ok {s : Shared} (hO : Ok s) (w : Wait) {k : Nat} (hk : s.owner = .waiter k) (d : Option Int) :
    StepOk s (w.test s k d).1 (.wait (w.test s k d).2) := by
  unfold Wait.test
  split
  · exact return_ok hO w fun _ => rfl
  · rename_i hd
    have h0 : (s.heap k).notifications = 0 := by
      have := (hO.done k).not.mp hd
      omega
    exact ⟨hO, (keeps_refl hO).2, ⟨hk, h0⟩, Or.inl, rfl⟩

theorem wait_ok {s s' : Shared} {w w' : Wait} {e : Choice} (hO : Ok s) (hf : w.Fits s)
    (he : e = .spurious → w.phase ≠ .exchange) (hsig : s.completed = true → Signalled s)
    (h : WaitStep s w e s' w') : StepOk s s' (.wait w') := by
  have same : ∀ w' : Wait, w'.Fits s → StepOk s s (.wait w') :=
    fun w' hf' => ⟨hO, (keeps_refl hO).2, hf', Or.inl, rfl⟩
  have hf' := hf
  unfold Wait.Fits at hf
  cases h with
  | passes => exact return_ok hO w fun _ => rfl
  | loads => exact same _ trivial
  | allocates =>
    obtain ⟨hO', hg⟩ := allocate_keeps hO
    exact ⟨hO', hg, ⟨s.size, rfl, Nat.lt_succ_self _⟩, Or.inl, rfl⟩
  | installs k hp ho hc =>
    simp only [hp] at hf
    obtain ⟨j, hj, hlt⟩ := hf
    cases hc.symm.trans hj
    obtain ⟨hO', hg⟩ := install_keeps hO ho (o := .waiter k) (by rintro _ ⟨rfl⟩; exact hlt)
    exact ⟨hO', hg, rfl, Or.inl, rfl⟩
  | finds k _ ho => exact same _ ho
  | fails hp => exact absurd hp (he rfl)
  | tests k d hp =>
    exact test_ok hO w (hf'.owner hp) d
  | wakes k seen d e hp =>
    simp only [hp] at hf
    exact same _ hf.1
  | expires k seen d hp =>
    simp only [hp] at hf
    exact same _ hf.1
  | gives_up k hp =>
    simp only [hp] at hf
    exact return_ok hO w fun hs => (hsig hs).done hf

theorem act_ok {s s' : Shared} {t t' : Thread} {e : Choice} (hO : Ok s) (hf : t.Fits s)
    (hw : ∀ w, t = .wait w → e = .spurious → w.phase ≠ .exchange)
    (hc : ¬ (t = .completeExchange ∧ e = .spurious)) (hsig : s.completed = true → Signalled s)
    (h : Step s t e s' t') : StepOk s s' t' := by
  have answer : ∀ {r : Bool} {t' : Thread}, (s.completed = true → r = true) → t'.Fits s →
      StepOk s (s.answer r) t' := by
    intro r t' hr hf'
    refine ⟨⟨hO.done, hO.owner_lt⟩, ⟨fun _ => rfl, fun _ _ h => h, Nat.le_refl _⟩, ?_, Or.inl, ?_⟩
    · exact hf'.mono ⟨fun _ => rfl, fun _ _ h => h, Nat.le_refl _⟩
    · cases hs : s.completed with
      | false => simp [Shared.answer, hs]
      | true => simp [Shared.answer, hs, hr hs]
  cases h with
  | wait h => exact wait_ok hO hf (hw _ rfl) hsig h
  | completes ho =>
    obtain ⟨hO', hg⟩ := install_keeps hO ho (o := .completed) (by simp)
    exact ⟨⟨hO'.done, hO'.owner_lt⟩, ⟨hg.owner, hg.done, hg.size⟩, trivial, fun _ => Or.inr (Or.inl rfl), rfl⟩
  | completed ho =>
    exact ⟨⟨hO.done, hO.owner_lt⟩, ⟨fun _ => rfl, fun _ _ h => h, Nat.le_refl _⟩, trivial,
      fun _ => Or.inr (Or.inl ho), rfl⟩
  | finds k ho => exact ⟨hO, (keeps_refl hO).2, ho, Or.inl, rfl⟩
  | fails => exact absurd ⟨rfl, rfl⟩ hc
  | signals k =>
    obtain ⟨hO', hg⟩ := complete_keeps hO k
    refine ⟨⟨hO'.done, hO'.owner_lt⟩, ⟨hg.owner, hg.done, hg.size⟩, trivial, fun _ => Or.inr (Or.inr ⟨k, hf, ?_⟩), rfl⟩
    simp [Shared.completes, Shared.modify, Waiter.complete]
  | answers r hr =>
    refine answer (fun hs => ?_) trivial
    rcases hr with ⟨ho, -⟩ | ⟨-, hr⟩
    · exact absurd ho (hsig hs).owner_ne
    · exact hr
  | asks k ho => exact ⟨hO, (keeps_refl hO).2, ho, Or.inl, rfl⟩
  | told k => exact answer (fun hs => (hsig hs).done hf) trivial

/-! ## Every state of a run -/

structure Inv (c : Config Shared Thread) : Prop where
  ok : Ok c.shared
  fits : ∀ t ∈ c.threads, t.Fits c.shared
  completed : c.shared.completed = true → Signalled c.shared
  not_missed : c.shared.missed = false

theorem initial_inv (now : Nat) : Inv (initial now) := by
  refine ⟨⟨fun k => by simp [initial, Waiter.new], fun k h => by simp [initial] at h⟩, fun t h => ?_, nofun, rfl⟩
  simp [initial] at h

theorem call_inv {c : Config Shared Thread} (hI : Inv c) {e : Choice} {s' : Shared} {new : List Thread}
    (h : call c.shared e = some (s', new)) : Inv ⟨s', c.threads ++ new⟩ := by
  cases e with
  | wait _ | complete | wasCompleted =>
    cases h
    exact ⟨hI.ok, Family.forall_append hI.fits (by simp [Thread.Fits, Wait.Fits]), hI.completed, hI.not_missed⟩
  | tick n =>
    cases h
    have hg : Grows c.shared { c.shared with now := c.shared.now + n } :=
      ⟨fun _ => rfl, fun _ _ h => h, Nat.le_refl _⟩
    refine ⟨⟨hI.ok.done, hI.ok.owner_lt⟩, Family.forall_append (fun t ht => (hI.fits t ht).mono hg) (by simp),
      hI.completed, hI.not_missed⟩
  | _ => cases h

theorem act_inv {c : Config Shared Thread} (hI : Inv c) {i : Nat} {t t' : Thread} {e : Choice} {s' : Shared}
    {new : List Thread} (hC : exchangesStrongly c (.act i e) = true) (ht : c.threads[i]? = some t)
    (ha : act c.shared t e = some (s', t', new)) : Inv ⟨s', c.threads.set i t' ++ new⟩ := by
  have hw : ∀ w, t = .wait w → e = .spurious → w.phase ≠ .exchange := by
    rintro w rfl rfl
    simpa [exchangesStrongly, ht] using hC
  have hc : ¬ (t = .completeExchange ∧ e = .spurious) := by
    rintro ⟨rfl, rfl⟩
    simp [exchangesStrongly, ht] at hC
  obtain ⟨rfl, hs⟩ := act_step ha
  have hok := act_ok hI.ok (hI.fits t (Family.mem_of_get ht)) hw hc hI.completed hs
  refine ⟨hok.ok, ?_, fun h => ?_, hok.missed.trans hI.not_missed⟩
  · exact Family.forall_step (fun x hx => (hI.fits x hx).mono hok.grows) hok.fits (by simp)
  · rcases hok.completed h with h | h
    · exact hok.grows.signalled hI.ok (hI.completed h)
    · exact h

theorem run_inv {now : Nat} {tr : List (Config Shared Thread × Label Choice)} {c : Config Shared Thread}
    (h : barrier.Run (initial now) tr c) (hC : Program.Along (fun c l => exchangesStrongly c l = true) tr) :
    Inv c :=
  h.invariant_by (initial_inv now) (fun _ _ _ _ hI _ h => call_inv hI h)
    (fun _ _ _ _ _ _ _ hI hC ht h => act_inv hI hC ht h) hC

/-! ## Waits end -/

/-- Bounds the steps a wait still takes once the barrier is signalled. -/
def WaitPhase.rank : WaitPhase → Nat
  | .load => 6
  | .allocate => 5
  | .exchange => 4
  | .enter _ => 3
  | .blocked .. => 2
  | .woken .. | .timedOut _ => 1
  | .null | .returned _ => 0

/-- The wait can go on, and every step it takes brings it closer to its return. -/
def Ends (s : Shared) (w : Wait) : Prop :=
  (w.act s .step).isSome ∧ ∀ e s' w', w.act s e = some (s', w') → w'.phase.rank < w.phase.rank

theorem test_returns {s : Shared} {w : Wait} {k : Nat} (hd : (s.heap k).done = true) (d : Option Int) :
    w.test s k d = w.return s true := by
  rw [Wait.test, if_pos hd]

theorem wait_goes {s : Shared} {w : Wait} (hO : Ok s) (hf : w.Fits s) (hsig : Signalled s)
    (hr : ∀ r, w.phase ≠ .returned r) : (w.act s .step).isSome := by
  unfold Wait.Fits at hf
  cases hp : w.phase with
  | load =>
    simp only [Wait.act, hp]
    split <;> rfl
  | exchange =>
    cases ho : s.owner with
    | noOwner => exact absurd ho hsig.owner_ne
    | _ => simp [Wait.act, hp, ho]
  | blocked k seen d =>
    simp only [hp] at hf
    have hn := (hO.done k).mp (hsig.done hf.1)
    simp [Wait.act, hp, hf.2, hn]
  | null => simp only [hp] at hf
  | returned r => exact absurd hp (hr r)
  | _ => simp [Wait.act, hp]

theorem wait_rank {s s' : Shared} {w w' : Wait} {e : Choice} (hf : w.Fits s) (hsig : Signalled s)
    (h : WaitStep s w e s' w') : w'.phase.rank < w.phase.rank := by
  cases h with
  | passes hp => rcases hp with hp | hp <;> simp [hp, WaitPhase.rank, Wait.return]
  | loads hp | allocates hp | installs _ hp | finds _ hp => simp [hp, WaitPhase.rank]
  | fails _ ho => exact absurd ho hsig.owner_ne
  | tests k d hp =>
    rw [test_returns (hsig.done (hf.owner hp))]
    rcases hp with ⟨hp, -⟩ | hp <;> simp [hp, WaitPhase.rank, Wait.return]
  | wakes _ _ _ _ hp | expires _ _ _ hp => simp [hp, WaitPhase.rank]
  | gives_up _ hp => simp [hp, WaitPhase.rank, Wait.return]

theorem wait_ends {s : Shared} {w : Wait} (hO : Ok s) (hf : w.Fits s) (hsig : Signalled s)
    (hr : ∀ r, w.phase ≠ .returned r) : Ends s w :=
  ⟨wait_goes hO hf hsig hr, fun _ _ _ h => wait_rank hf hsig (wait_step h)⟩

/-! ## `complete` -/

/-- No `wait` or `was_completed` has returned false after a `complete` had
returned, and after one every wait in progress ends. -/
structure Kept (c : Config Shared Thread) : Prop where
  not_missed : c.shared.missed = false
  ends : c.shared.completed = true → ∀ w, .wait w ∈ c.threads → (∀ r, w.phase ≠ .returned r) → Ends c.shared w

/-- **Completions are kept**, in runs in which no compare-exchange fails spuriously. -/
theorem completion_kept {now : Nat} {tr : List (Config Shared Thread × Label Choice)} {c : Config Shared Thread}
    (h : barrier.Run (initial now) tr c)
    (hC : Program.Along (fun c l => exchangesStrongly c l = true) tr) : Kept c := by
  have hI := run_inv h hC
  exact ⟨hI.not_missed, fun hc w hm hr => wait_ends hI.ok (hI.fits _ hm) (hI.completed hc) hr⟩

def completeBlocked : List (Label Choice) :=
  Label.call (Choice.wait waitForever) :: List.replicate 4 (.act 0 .step) ++
    [Label.call Choice.complete, .act 1 .step, .act 1 .step]

theorem completion_kept_blocked : Kept (barrier.last (initial 0) completeBlocked) ∧
    (barrier.last (initial 0) completeBlocked).threads[0]? =
      some (.wait ⟨waitForever, none, .blocked 0 0 none⟩) :=
  ⟨completion_kept (Program.run_last (by decide)) (by decide), by decide⟩

/-- The compare-exchange of `complete` fails although nobody is waiting. -/
def completeSpurious : List (Label Choice) :=
  [.call .complete, .act 0 .spurious, .call .wasCompleted, .act 1 .step]

theorem completion_lost : ¬ ∀ now tr c, barrier.Run (initial now) tr c → Kept c := by
  intro hall
  have := (hall 0 _ _ (Program.run_last (l := completeSpurious) (by decide))).not_missed
  exact absurd this (by decide)

end Xdispatch.Barrier
