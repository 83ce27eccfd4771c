import Xdispatch.Threadpool.Counters

/-!
# The assertions of `schedule`

`schedule` loads `m_active_threads` and then `m_idle_threads`, and asserts that
no more workers are idle than active. A worker runs before its creator has
counted it as active, and becomes idle at any time between the two loads. So
the assertions hold for as long as each worker that becomes idle, or leaves,
leaves the idle count at or below the active count, and below what the calls
have loaded of it.
-/

namespace Xdispatch.Threadpool

/-- The assertions of `schedule` on the values it has loaded. -/
def Passes (active idle : Int) : Prop := 0 ≤ idle ∧ 0 ≤ active ∧ idle ≤ active

/-- No assertion has failed, and none fails in a call that loads now what it has not loaded yet. -/
structure Sound (c : Config Shared Thread) : Prop where
  not_asserted : c.shared.asserted = false
  passes : Passes c.shared.activeThreads c.shared.idleThreads
  loaded : ∀ active, Thread.loadIdle active ∈ c.threads → Passes active c.shared.idleThreads

/-- A call that has loaded `active` has loaded more than `idle`. -/
def Thread.loadedMore (idle : Int) : Thread → Bool
  | .loadIdle active => idle < active
  | _ => true

/-- If a worker adds itself to the idle threads, they were fewer than the active
ones, and than what any call has loaded of them; if it takes itself off the
active threads, fewer were idle. -/
def fewerIdle (c : Config Shared Thread) : Label Choice → Bool
  | .act i _ =>
    match c.threads[i]? with
    | some (.worker .idle) =>
      c.shared.idleThreads < c.shared.activeThreads && c.threads.all (Thread.loadedMore c.shared.idleThreads)
    | some (.worker .expiredActive) => c.shared.idleThreads < c.shared.activeThreads
    | _ => true
  | _ => true

section
variable {c : Config Shared Thread} {i : Nat} {w w' : Worker} {t t' : Thread} {s' : Shared} {new : List Thread}
  {e : Choice}

theorem loadedMore_of_mem {idle active : Int} {l : List Thread} (h : l.all (Thread.loadedMore idle) = true)
    (hm : Thread.loadIdle active ∈ l) : idle < active := by
  simpa [Thread.loadedMore] using List.all_eq_true.mp h _ hm

theorem Sound.worker (hS : Sound c) (ha : s'.asserted = c.shared.asserted) (h0 : 0 ≤ s'.idleThreads)
    (hi : s'.idleThreads ≤ c.shared.idleThreads) (hle : s'.idleThreads ≤ s'.activeThreads) :
    Sound ⟨s', c.threads.set i (.worker w') ++ []⟩ := by
  refine ⟨ha.trans hS.not_asserted, ⟨h0, by simp only []; omega, hle⟩, ?_⟩
  intro active hm
  obtain ⟨-, h1, h2⟩ := hS.loaded active (Family.mem_of_step hm (by simp))
  exact ⟨h0, h1, by simp only []; omega⟩

theorem worker_sound (hI : Counted c) (hS : Sound c) (hC : fewerIdle c (.act i e) = true)
    (ht : c.threads[i]? = some (.worker w)) (h : w.act c.shared e = some (s', w')) :
    Sound ⟨s', c.threads.set i (.worker w') ++ []⟩ := by
  have hI' := act_counted hI ht (show act c.shared (.worker w) e = some (s', .worker w', []) by simp [act, h])
  have h0 : 0 ≤ s'.idleThreads := by
    have := hI'.idle
    simp only [] at this
    omega
  have hm := moves_of_act h
  have ha := hm.asserted_eq hI.not_cancelled
  obtain ⟨h1, h2, h3⟩ := hS.passes
  simp only [fewerIdle, ht] at hC
  cases hm with
  | idle =>
    simp only [Bool.and_eq_true, decide_eq_true_eq] at hC
    refine ⟨hS.not_asserted, ⟨h0, h2, by simp only []; omega⟩, ?_⟩
    intro active hm
    have hlt := loadedMore_of_mem hC.2 (Family.mem_of_step hm (by simp))
    exact ⟨h0, by omega, by simp only []; omega⟩
  | expiredActive =>
    simp only [decide_eq_true_eq] at hC
    exact hS.worker ha h0 (Int.le_refl _) (by simp only []; omega)
  | woken | expired | recovered => exact hS.worker ha h0 (by simp) (by simp only []; omega)
  | _ => exact hS.worker ha h0 (Int.le_refl _) h3

theorem call_sound (hS : Sound c) (ht : c.threads[i]? = some t) (hw : ∀ w, t ≠ .worker w) (hd : t.destroys = false)
    (h : act c.shared t e = some (s', t', new)) : Sound ⟨s', c.threads.set i t' ++ new⟩ := by
  obtain ⟨h1, h2, h3⟩ := hS.passes
  have key : ∀ (s₁ : Shared) (t₁ : Thread) (new₁ : List Thread), s₁.asserted = false →
      s₁.idleThreads = c.shared.idleThreads → c.shared.activeThreads ≤ s₁.activeThreads →
      (∀ active, t₁ = .loadIdle active → Passes active c.shared.idleThreads) →
      (∀ active, Thread.loadIdle active ∉ new₁) → Sound ⟨s₁, c.threads.set i t₁ ++ new₁⟩ := by
    intro s₁ t₁ new₁ ha hi hle hl hn
    refine ⟨ha, ⟨by simp only []; omega, by simp only []; omega, by simp only []; omega⟩, ?_⟩
    intro active hm
    simp only [hi]
    rcases List.mem_append.mp hm with hm | hm
    · rcases List.mem_or_eq_of_mem_set hm with hm | hm
      · exact hS.loaded active hm
      · exact hl active hm.symm
    · exact absurd hm (hn active)
  cases act_step h with
  | worker => exact absurd rfl (hw _)
  | enqueue | release | blocked | unblocked =>
    exact key _ _ _ hS.not_asserted rfl (Int.le_refl _) (by simp) (by simp)
  | loadActive =>
    refine key _ _ _ hS.not_asserted rfl (Int.le_refl _) ?_ (by simp)
    intro active heq
    cases heq
    exact hS.passes
  | @loadIdle active =>
    have hp := hS.loaded active (Family.mem_of_get ht)
    have ha : (c.shared.assert (0 ≤ c.shared.idleThreads && 0 ≤ active && c.shared.idleThreads ≤ active)).asserted =
        false := by
      simp [Shared.assert, hS.not_asserted, hp.1, hp.2.1, hp.2.2]
    split
    · exact key _ _ _ ha rfl (Int.le_refl _) (by simp) (by simp)
    · exact key _ _ _ ha rfl (Int.le_refl _) (by simp) (by simp)
  | loadMax =>
    split
    · exact key _ _ _ hS.not_asserted rfl (Int.le_refl _) (by simp) (by simp)
    · exact key _ _ _ hS.not_asserted rfl (Int.le_refl _) (by simp) (by simp)
  | spawn => exact key _ _ _ hS.not_asserted rfl (Int.le_refl _) (by simp) (by simp)
  | countActive => exact key _ _ _ hS.not_asserted rfl (by simp) (by simp) (by simp)
  | cancel | loadCount | releaseAll => cases hd

theorem not_sound (ht : c.threads[i]? = some t) (hC : ¬ fewerIdle c (.act i e) = true)
    (h : act c.shared t e = some (s', t', new)) : ¬ Sound ⟨s', c.threads.set i t' ++ new⟩ := by
  intro hS
  obtain ⟨-, -, h3⟩ := hS.passes
  simp only [fewerIdle, ht] at hC
  split at hC
  next heq =>
    cases heq
    cases e with
    | step =>
      cases h
      simp only [] at h3
      have hall : ¬ c.threads.all (Thread.loadedMore c.shared.idleThreads) = true := by
        intro hall
        refine hC ?_
        rw [hall, Bool.and_true, decide_eq_true_eq]
        omega
      rw [List.all_eq_true] at hall
      apply hall
      intro x hx
      cases x with
      | loadIdle active =>
        have := (hS.loaded active (Family.mem_step_of_ne ht hx (by simp) _ _)).2.2
        simp only [] at this
        simp only [Thread.loadedMore, decide_eq_true_eq]
        omega
      | _ => rfl
    | _ => cases h
  next heq =>
    cases heq
    cases e with
    | step =>
      cases h
      simp only [] at h3
      simp only [decide_eq_true_eq] at hC
      omega
    | _ => cases h
  next => exact hC rfl

end

theorem loadIdle_asserts {c : Config Shared Thread} {i : Nat} {active : Int}
    (hi : c.threads[i]? = some (.loadIdle active)) (hf : ¬ Passes active c.shared.idleThreads) :
    ∃ c', threadpool.next c (.act i .step) = some c' ∧ c'.shared.asserted = true := by
  refine ⟨_, Program.act_next (P := threadpool) hi rfl, ?_⟩
  unfold Passes at hf
  simp only [Shared.assert, Bool.or_eq_true, Bool.not_eq_true', Bool.and_eq_false_iff, decide_eq_false_iff_not]
  tauto

theorem asserts_of_not_sound {c : Config Shared Thread} (ha : c.shared.asserted = false) (h : ¬ Sound c) :
    ∃ tr c', threadpool.Run c tr c' ∧ Program.Along (fun _ l => l ≠ .call .destroy) tr ∧
      c'.shared.asserted = true := by
  by_cases hp : Passes c.shared.activeThreads c.shared.idleThreads
  · have hl : ∃ active, Thread.loadIdle active ∈ c.threads ∧ ¬ Passes active c.shared.idleThreads := by
      refine Classical.byContradiction fun hn => h ⟨ha, hp, ?_⟩
      intro active hm
      exact Classical.byContradiction fun hf => hn ⟨active, hm, hf⟩
    obtain ⟨active, hm, hf⟩ := hl
    obtain ⟨i, hi⟩ := List.mem_iff_getElem?.mp hm
    obtain ⟨c', hn, hc⟩ := loadIdle_asserts hi hf
    exact ⟨_, c', Program.Run.nil.snoc hn, by simp [Program.Along], hc⟩
  · have h1 : threadpool.next c (.call .blocked) = some ⟨c.shared, c.threads ++ [.blocked]⟩ := rfl
    have g1 : (c.threads ++ [Thread.blocked])[c.threads.length]? = some .blocked := by simp
    have h2 := Program.act_next (P := threadpool) (c := ⟨c.shared, c.threads ++ [.blocked]⟩) (e := .step) g1 rfl
    have g2 := Family.get_step g1 .loadActive []
    have h3 := Program.act_next (P := threadpool) (e := .step)
      (c := ⟨{ c.shared with maxThreads := c.shared.maxThreads + 1 }, _⟩) g2 rfl
    have g3 := Family.get_step g2 (.loadIdle c.shared.activeThreads) []
    obtain ⟨c', hn, hc⟩ := loadIdle_asserts
      (c := ⟨{ c.shared with maxThreads := c.shared.maxThreads + 1 }, _⟩) g3 hp
    exact ⟨_, c', (((Program.Run.nil.snoc h1).snoc h2).snoc h3).snoc hn, by simp [Program.Along], hc⟩

theorem next_sound {c c' : Config Shared Thread} {l : Label Choice} (hI : Counted c) (hS : Sound c)
    (hD : l ≠ .call .destroy) (hC : fewerIdle c l = true) (h : threadpool.next c l = some c') : Sound c' := by
  cases l with
  | call e =>
    obtain ⟨s', new, hc, rfl⟩ := Program.next_call h
    have key : ∀ t : Thread, (∀ active, t ≠ .loadIdle active) → Sound ⟨c.shared, c.threads ++ [t]⟩ := by
      intro t ht
      refine ⟨hS.not_asserted, hS.passes, ?_⟩
      intro active hm
      rcases List.mem_append.mp hm with hm | hm
      · exact hS.loaded active hm
      · exact absurd (List.mem_singleton.mp hm).symm (ht active)
    cases e with
    | execute op priority | blocked | unblocked =>
      cases hc
      exact key _ (by simp)
    | destroy => exact absurd rfl hD
    | _ => cases hc
  | act i e =>
    obtain ⟨t, s', t', new, ht, ha, rfl⟩ := Program.next_act h
    by_cases hw : ∃ w, t = .worker w
    · obtain ⟨w, rfl⟩ := hw
      obtain ⟨w', hw, rfl, rfl⟩ := act_of_worker ha
      exact worker_sound hI hS hC ht hw
    · exact call_sound hS ht (fun w hw' => hw ⟨w, hw'⟩) (hI.not_destroyed _ (Family.mem_of_get ht)) ha

/-- **The assertions of `schedule`** do not fail in the runs in which the idle
threads stay below the active ones, and in no others. -/
theorem run_sound_iff {maxThreads : Int} {tr : List (Config Shared Thread × Label Choice)}
    {c : Config Shared Thread} (h : threadpool.Run (initial maxThreads) tr c)
    (hD : Program.Along (fun _ l => l ≠ .call .destroy) tr) :
    Program.Along (fun c l => fewerIdle c l = true) tr ↔ (∀ p ∈ tr, Sound p.1) ∧ Sound c := by
  refine h.along_iff_of (I := fun c => Counted c ∧ Sound c) ⟨initial_counted maxThreads, ?_⟩ ?_ (fun _ hI => hI.2)
    ?_ hD
  · exact ⟨rfl, ⟨Int.le_refl 0, Int.le_refl 0, Int.le_refl 0⟩, by simp [initial]⟩
  · intro c l c' hI hD hC hn
    exact ⟨next_counted hI.1 hD hn, next_sound hI.1 hI.2 hD hC hn⟩
  · intro c l c' _ _ hC hn
    cases l with
    | call e => exact absurd rfl hC
    | act i e =>
      obtain ⟨t, s', t', new, ht, ha, rfl⟩ := Program.next_act hn
      exact not_sound ht hC ha

theorem run_sound_iff_waiting : (∀ p ∈ threadpool.path (initial 2) oneWaiting, Sound p.1) ∧
    Sound (threadpool.last (initial 2) oneWaiting) :=
  (run_sound_iff (Program.run_last (l := oneWaiting) (by decide)) (by decide)).mp (by decide)

/-- The worker is idle before the call that has started it counts it. -/
def idleUncounted : List (Label Choice) :=
  Label.call (Choice.execute (some 0) .utility) :: List.replicate 6 (.act 0 .step) ++
    List.replicate 7 (Label.act 1 Choice.step) ++ Label.act 1 (Choice.dequeue 0) :: List.replicate 3 (.act 1 .step) ++
    [Label.act 1 Choice.giveUp, .act 1 .step] ++
    Label.call (Choice.execute (some 1) .utility) :: List.replicate 4 (.act 2 .step)

theorem idleUncounted_asserts : ¬ ∀ maxThreads tr c, threadpool.Run (initial maxThreads) tr c →
    Program.Along (fun _ l => l ≠ .call .destroy) tr → c.shared.asserted = false := by
  intro hall
  have := hall 2 _ _ (Program.run_last (l := idleUncounted) (by decide)) (by decide)
  exact absurd this (by decide)

end Xdispatch.Threadpool
