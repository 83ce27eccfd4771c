import Xdispatch.Barrier.Steps

/-!
# The waiter that a `wait` finds

When the compare-exchange of a `wait` fails and the barrier is not completed, the
call goes on with what it has read. That is the waiter of another `wait`, unless
the compare-exchange failed for no reason: then it is null.
-/

namespace Xdispatch.Barrier

abbrev Trace := List (Config Shared Thread × Label Choice)

/-- The step is not a compare-exchange of a `wait` that fails spuriously. -/
def waitsStrongly (c : Config Shared Thread) : Label Choice → Bool
  | .act i .spurious =>
    match c.threads[i]? with
    | some (.wait w) => w.phase ≠ .exchange
    | _ => true
  | _ => true

/-- Thread `i` is a `wait` before its compare-exchange. -/
def Exchanges (c : Config Shared Thread) (i : Nat) : Prop :=
  ∃ w, c.threads[i]? = some (.wait w) ∧ w.phase = .exchange

/-- The compare-exchange of thread `j` has installed its waiter `k`. -/
def Installs (p : Config Shared Thread × Label Choice) (j k : Nat) : Prop :=
  p.2 = .act j .step ∧ p.1.shared.owner = .noOwner ∧
    ∃ w, p.1.threads[j]? = some (.wait w) ∧ w.phase = .exchange ∧ w.candidate = some k

/-- Where the compare-exchange of a `wait` fails, and it reads no completed marker, it
reads a waiter that another `wait` has installed; no `wait` goes through a null pointer. -/
structure ReadsWaiters (tr : Trace) (c : Config Shared Thread) : Prop where
  installed : ∀ before p i e, before ++ [p] <+: tr → p.2 = .act i e → Exchanges p.1 i →
    (e = .spurious ∨ p.1.shared.owner ≠ .noOwner) → p.1.shared.owner ≠ .completed →
    ∃ k, p.1.shared.owner = .waiter k ∧ ∃ q ∈ before, ∃ j, j ≠ i ∧ Installs q j k
  not_null : ∀ w, .wait w ∈ c.threads → w.phase ≠ .null

/-! ## Who has installed a waiter -/

structure Installed (tr : Trace) (c : Config Shared Thread) : Prop where
  owner : ∀ k, c.shared.owner = .waiter k → ∃ p ∈ tr, ∃ j, Installs p j k
  past : ∀ p ∈ tr, ∀ j k, Installs p j k → ∃ w, c.threads[j]? = some (.wait w) ∧ w.phase.past = true

section
variable {now : Nat} {tr : Trace} {c c' : Config Shared Thread} {l : Label Choice} {i : Nat} {e : Choice}
  {s' : Shared} {t t' : Thread}

theorem Installed.call (hI : Installed tr c) (h : barrier.next c (.call e) = some c') :
    Installed (tr ++ [(c, .call e)]) c' := by
  obtain ⟨s, new, hc, rfl⟩ := Program.next_call h
  have howner : s.owner = c.shared.owner := by
    cases e with
    | wait | complete | wasCompleted | tick =>
      cases hc
      rfl
    | _ => cases hc
  refine ⟨fun k hk => ?_, fun p hp j k hi => ?_⟩
  · obtain ⟨p, hp, h⟩ := hI.owner k (howner ▸ hk)
    exact ⟨p, List.mem_append_left _ hp, h⟩
  · rcases List.mem_append.mp hp with hp | hp
    · obtain ⟨w, hw, hpast⟩ := hI.past p hp j k hi
      exact ⟨w, Family.get_append hw _, hpast⟩
    · cases List.mem_singleton.mp hp
      cases hi.1

theorem after {w : Wait} (hp : w.phase.past = true ∨ w.phase = .exchange) (ht : c.threads[i]? = some (.wait w))
    (hs : Step c.shared (.wait w) e s' t') :
    ∃ w', (c.threads.set i t' ++ [])[i]? = some (.wait w') ∧ w'.phase.past = true := by
  obtain ⟨w', rfl, hpast⟩ := hs.past hp
  exact ⟨w', Family.get_step ht _ _, hpast⟩

theorem Installed.act (hI : Installed tr c) (ht : c.threads[i]? = some t) (hs : Step c.shared t e s' t') :
    Installed (tr ++ [(c, .act i e)]) ⟨s', c.threads.set i t' ++ []⟩ := by
  refine ⟨fun k hk => ?_, fun p hp j k hi => ?_⟩
  · rcases hs.owner with ho | ⟨hno, ho⟩
    · obtain ⟨p, hp, h⟩ := hI.owner k (ho ▸ hk)
      exact ⟨p, List.mem_append_left _ hp, h⟩
    · change s'.owner = .waiter k at hk
      rw [hk] at ho
      cases ho with
      | installs w k hp hc => exact ⟨_, List.mem_append_right _ (List.mem_singleton_self _), i, rfl, hno, w, ht, hp, hc⟩
  · rcases List.mem_append.mp hp with hp | hp
    · obtain ⟨w, hw, hpast⟩ := hI.past p hp j k hi
      by_cases hij : i = j
      · subst hij
        cases ht.symm.trans hw
        exact after (Or.inl hpast) ht hs
      · exact ⟨w, Family.get_step_of_ne hw hij _ _, hpast⟩
    · -- the step that installs goes on to `waiter::wait`
      cases List.mem_singleton.mp hp
      obtain ⟨hl, -, w, hw, hph, -⟩ := hi
      cases hl
      cases ht.symm.trans hw
      exact after (Or.inr hph) ht hs

theorem run_installed (h : barrier.Run (initial now) tr c) : Installed tr c := by
  induction h with
  | nil => exact ⟨by simp [initial], by simp⟩
  | @snoc tr c l c' _ hn ih =>
    cases l with
    | call e => exact ih.call hn
    | act i e =>
      obtain ⟨t, s, t', new, ht, ha, rfl⟩ := Program.next_act hn
      obtain ⟨rfl, hs⟩ := act_step ha
      exact ih.act ht hs

/-! ## What a compare-exchange reads -/

/-- A failed compare-exchange that is no spurious one reads the waiter of another `wait`. -/
theorem Installed.reads (hI : Installed tr c) (hi : Exchanges c i) (hne : c.shared.owner ≠ .noOwner)
    (hc : c.shared.owner ≠ .completed) :
    ∃ k, c.shared.owner = .waiter k ∧ ∃ q ∈ tr, ∃ j, j ≠ i ∧ Installs q j k := by
  cases ho : c.shared.owner with
  | noOwner => exact absurd ho hne
  | completed => exact absurd ho hc
  | waiter k =>
    obtain ⟨p, hp, j, hj⟩ := hI.owner k ho
    refine ⟨k, rfl, p, hp, j, ?_, hj⟩
    rintro rfl
    -- a thread that has installed a waiter is past its compare-exchange
    obtain ⟨w, hw, hpast⟩ := hI.past p hp j k hj
    obtain ⟨w', hw', hph⟩ := hi
    cases hw.symm.trans hw'
    rw [hph] at hpast
    cases hpast

theorem ReadsWaiters.of_prefix {tr' : Trace} (h : ReadsWaiters tr c) (hp : tr' <+: tr)
    (hn : ∀ w, .wait w ∈ c'.threads → w.phase ≠ .null) : ReadsWaiters tr' c' :=
  ⟨fun before p i e hb => h.installed before p i e (hb.trans hp), hn⟩

theorem Step.null {w' : Wait} (hs : Step c.shared t e s' (.wait w')) (hn : w'.phase = .null) :
    ∃ w, t = .wait w ∧ w.phase = .exchange ∧ e = .spurious ∧ c.shared.owner = .noOwner := by
  cases hs with
  | wait h =>
    cases h with
    | fails hp ho => exact ⟨_, rfl, hp, rfl, ho⟩
    | tests k d =>
      unfold Wait.test at hn
      split at hn <;> cases hn
    | _ => cases hn

theorem act_reads (hI : Installed tr c) (hR : ReadsWaiters tr c) (ht : c.threads[i]? = some t)
    (hs : Step c.shared t e s' t') (hC : waitsStrongly c (.act i e) = true) :
    ReadsWaiters (tr ++ [(c, .act i e)]) ⟨s', c.threads.set i t' ++ []⟩ := by
  have strong : ∀ w, t = .wait w → w.phase = .exchange → e ≠ .spurious := by
    rintro w rfl hp rfl
    simp [waitsStrongly, ht, hp] at hC
  refine ⟨fun before p j e' hb hl hj hf hc => ?_, fun w hw hn => ?_⟩
  · rcases List.prefix_concat_iff.mp hb with hb | hb
    · obtain ⟨rfl, rfl⟩ : before = tr ∧ p = (c, .act i e) := by simpa using hb
      cases hl
      refine hI.reads hj ?_ hc
      rcases hf with rfl | hf
      · obtain ⟨w, hw, hp⟩ := hj
        cases ht.symm.trans hw
        exact absurd rfl (strong w rfl hp)
      · exact hf
    · exact hR.installed before p j e' hb hl hj hf hc
  · rw [List.append_nil] at hw
    rcases List.mem_or_eq_of_mem_set hw with hw | rfl
    · exact hR.not_null w hw hn
    · obtain ⟨w', rfl, hp, he, -⟩ := hs.null hn
      exact strong w' rfl hp he

theorem call_reads (hR : ReadsWaiters tr c) (h : barrier.next c (.call e) = some c') :
    ReadsWaiters (tr ++ [(c, .call e)]) c' := by
  obtain ⟨s, new, hc, rfl⟩ := Program.next_call h
  refine ⟨fun before p j e' hb hl hj hf hcomp => ?_, fun w hw => ?_⟩
  · rcases List.prefix_concat_iff.mp hb with hb | hb
    · obtain ⟨rfl, rfl⟩ : before = tr ∧ p = (c, .call e) := by simpa using hb
      cases hl
    · exact hR.installed before p j e' hb hl hj hf hcomp
  · rcases List.mem_append.mp hw with hw | hnew
    · exact hR.not_null w hw
    · cases e with
      | wait t =>
        cases hc
        cases List.mem_singleton.mp hnew
        simp
      | complete | wasCompleted | tick =>
        cases hc
        simp at hnew
      | _ => cases hc

theorem not_reads (ht : c.threads[i]? = some t) (hs : Step c.shared t e s' t') (hC : ¬ waitsStrongly c (.act i e) = true)
    {d : Config Shared Thread} : ¬ ReadsWaiters (tr ++ [(c, .act i e)]) d := by
  intro hR
  cases e with
  | spurious =>
    cases hs with
    | wait h =>
      simp only [waitsStrongly, ht, decide_eq_true_eq, not_not] at hC
      cases h with
      | fails hp ho =>
        obtain ⟨k, hk, -⟩ := hR.installed tr _ i .spurious List.prefix_rfl rfl ⟨_, ht, hp⟩ (Or.inl rfl)
          (by rw [ho]; simp)
        rw [ho] at hk
        cases hk
      | wakes k seen d e hp =>
        rw [hC] at hp
        cases hp
    | fails => simp [waitsStrongly, ht] at hC
  | _ => exact hC rfl

/-- **The waiter of a failed compare-exchange.** A `wait` never goes through a null pointer, and what its failed
compare-exchange reads is the waiter of another `wait`, exactly in the runs in which no compare-exchange of a `wait`
fails spuriously. -/
theorem run_readsWaiters_iff (h : barrier.Run (initial now) tr c) :
    Program.Along (fun c l => waitsStrongly c l = true) tr ↔ ReadsWaiters tr c := by
  induction h with
  | nil => exact ⟨fun _ => ⟨by simp, by simp [initial]⟩, fun _ => by simp [Program.Along]⟩
  | @snoc tr c l c' hr hn ih =>
    rw [Program.along_snoc]
    cases l with
    | call e =>
      refine ⟨fun h => call_reads (ih.mp h.1) hn, fun h => ⟨ih.mpr (h.of_prefix (List.prefix_append _ _) ?_), rfl⟩⟩
      obtain ⟨s, new, -, rfl⟩ := Program.next_call hn
      exact fun w hw => h.not_null w (List.mem_append_left _ hw)
    | act i e =>
      obtain ⟨t, s, t', new, ht, ha, rfl⟩ := Program.next_act hn
      obtain ⟨rfl, hs⟩ := act_step ha
      refine ⟨fun h => act_reads (run_installed hr) (ih.mp h.1) ht hs h.2, fun h => ?_⟩
      have hC : waitsStrongly c (.act i e) = true := by
        by_contra hC
        exact not_reads ht hs hC h
      refine ⟨ih.mpr (h.of_prefix (List.prefix_append _ _) fun w hw hnull => ?_), hC⟩
      have hne : Thread.wait w ≠ t := by
        rintro rfl
        cases hs with
        | wait hs => exact hs.not_null hnull
      exact h.not_null w (Family.mem_step_of_ne ht hw hne _ _) hnull

end

/-- The second `wait` has found the waiter of the first and waits at it. -/
def waitTwice : List (Label Choice) :=
  Label.call (Choice.wait waitForever) :: List.replicate 3 (.act 0 .step) ++
    Label.call (Choice.wait 5) :: List.replicate 4 (.act 1 .step)

theorem run_readsWaiters_iff_twice :
    ReadsWaiters (barrier.path (initial 0) waitTwice) (barrier.last (initial 0) waitTwice) ∧
      (barrier.last (initial 0) waitTwice).threads[1]? = some (.wait ⟨5, some 1, .blocked 0 0 (some 5000000)⟩) :=
  ⟨(run_readsWaiters_iff (Program.run_last (by decide))).mp (by decide), by decide⟩

/-- The compare-exchange fails although nobody is waiting, and the call goes through null. -/
def waitSpurious : List (Label Choice) := [.call (.wait waitForever), .act 0 .step, .act 0 .step, .act 0 .spurious]

theorem waitSpurious_null : ¬ ∀ now tr c, barrier.Run (initial now) tr c → ReadsWaiters tr c := by
  intro hall
  have hR := hall 0 _ _ (Program.run_last (l := waitSpurious) (by decide))
  exact hR.not_null ⟨waitForever, some 0, .null⟩ (by decide) rfl

end Xdispatch.Barrier
