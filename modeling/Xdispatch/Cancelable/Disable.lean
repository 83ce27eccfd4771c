import Xdispatch.Cancelable.Model

/-!
# What `disable` promises

`disable` waits for the scope that its own exchange has found running. A later
`disable` finds the cancelable disabled and returns at once, even if that scope
is still active. Apart from these calls, `disable` returns to a thread outside
of the scopes only when there is no scope, and then there never is one again.
-/

namespace Xdispatch.Cancel

def scopes (c : Config Shared Thread) : Nat := Family.total Thread.scopes c.threads

/-- Once `disable` has returned to a thread in no scope, no scope is active. -/
def Disabled (c : Config Shared Thread) : Prop := c.shared.returned = true → scopes c = 0

/-- The step is not a `disable`, from outside of the scopes, of a cancelable
that is disabled already and still has an active scope. -/
def disablesEnded (c : Config Shared Thread) : Label Choice → Bool
  | .act i .disable =>
    match c.threads[i]? with
    | some t => t.current || c.shared.cancelable.active ≠ .disabled || scopes c == 0
    | none => true
  | _ => true

/-! ## The invariant -/

def Thread.Fits (t : Thread) : Prop :=
  match t.phase with
  | .idle => t.scopes = 0 ∧ t.current = false ∨ t.scopes = 1 ∧ t.current = true
  | .leaving => t.scopes = 1 ∧ t.current = false
  | .completing | .waiting => t.scopes = 0 ∧ t.current = false

def ended (c : Config Shared Thread) : Prop := c.shared.cancelable.active = .disabled ∧ scopes c = 0

structure Inv (c : Config Shared Thread) : Prop where
  fits : ∀ t ∈ c.threads, t.Fits
  one : scopes c ≤ 1
  running : c.shared.cancelable.active = .running → scopes c = 1
  enabled : c.shared.cancelable.active = .enabled → scopes c = 0
  completing : ∀ t ∈ c.threads, t.phase = .completing → ended c
  barrier : c.shared.cancelable.barrier = true → ended c
  returned : c.shared.returned = true → ended c

theorem initial_inv : Inv initial := by
  refine ⟨?_, ?_, ?_, ?_, ?_, ?_, ?_⟩ <;> simp [initial, scopes, Cancelable.new]

section
variable {c : Config Shared Thread} {i : Nat} {t t' : Thread} {s' : Shared}

theorem scopes_step (ht : c.threads[i]? = some t) (s' : Shared) (t' : Thread) :
    scopes ⟨s', c.threads.set i t' ++ []⟩ + t.scopes = scopes c + t'.scopes := by
  have := Family.total_step Thread.scopes ht t' []
  rwa [Family.total_nil, Nat.add_zero] at this

theorem scopes_le (ht : c.threads[i]? = some t) : t.scopes ≤ scopes c :=
  Family.le_total Thread.scopes (Family.mem_of_get ht)

theorem Inv.step (hI : Inv c) (ht : c.threads[i]? = some t) (hf : t'.Fits)
    (hs : scopes c + t'.scopes ≤ t.scopes + 1)
    (hr : s'.cancelable.active = .running → scopes c + t'.scopes = t.scopes + 1)
    (he : s'.cancelable.active = .enabled → scopes c + t'.scopes = t.scopes)
    (hc : t'.phase = .completing → s'.cancelable.active = .disabled ∧ scopes c + t'.scopes = t.scopes)
    (hb : s'.cancelable.barrier = true → s'.cancelable.active = .disabled ∧ scopes c + t'.scopes = t.scopes)
    (hret : s'.returned = true → s'.cancelable.active = .disabled ∧ scopes c + t'.scopes = t.scopes)
    (hended : ended c → s'.cancelable.active = .disabled ∧ t'.scopes ≤ t.scopes) :
    Inv ⟨s', c.threads.set i t' ++ []⟩ := by
  have h := scopes_step ht s' t'
  refine ⟨Family.forall_step hI.fits hf (by simp), by omega, fun h' => ?_, fun h' => ?_, ?_, fun h' => ?_, fun h' => ?_⟩
  · have := hr h'
    omega
  · have := he h'
    omega
  · refine Family.forall_step (fun x hx hp => ?_) (fun hp => ?_) (by simp)
    · obtain ⟨ha, hle⟩ := hended (hI.completing x hx hp)
      have := (hI.completing x hx hp).2
      exact ⟨ha, by omega⟩
    · obtain ⟨ha, hle⟩ := hc hp
      exact ⟨ha, by omega⟩
  · obtain ⟨ha, hle⟩ := hb h'
    exact ⟨ha, by omega⟩
  · obtain ⟨ha, hle⟩ := hret h'
    exact ⟨ha, by omega⟩

theorem Inv.opened (hI : Inv c) (ht : c.threads[i]? = some t) (hopen : c.shared.cancelable.active ≠ .disabled)
    (hf : t'.Fits) (hs : scopes c + t'.scopes ≤ t.scopes + 1)
    (hr : s'.cancelable.active = .running → scopes c + t'.scopes = t.scopes + 1)
    (he : s'.cancelable.active = .enabled → scopes c + t'.scopes = t.scopes) (hc : t'.phase ≠ .completing)
    (hb : s'.cancelable.barrier = c.shared.cancelable.barrier) (hret : s'.returned = c.shared.returned) :
    Inv ⟨s', c.threads.set i t' ++ []⟩ := by
  refine hI.step ht hf hs hr he (fun h => absurd h hc) (fun h => ?_) (fun h => ?_) fun h => absurd h.1 hopen
  · exact absurd (hI.barrier (hb ▸ h)).1 hopen
  · exact absurd (hI.returned (hret ▸ h)).1 hopen

theorem Inv.keep (hI : Inv c) (ht : c.threads[i]? = some t) (hf : t'.Fits) (hs : t'.scopes = t.scopes)
    (ha : s'.cancelable.active = c.shared.cancelable.active) (hc : t'.phase = .completing → ended c)
    (hb : s'.cancelable.barrier = true → ended c) (hret : s'.returned = true → ended c) :
    Inv ⟨s', c.threads.set i t' ++ []⟩ := by
  have hend : ended c → s'.cancelable.active = .disabled ∧ scopes c + t'.scopes = t.scopes := fun h =>
    ⟨ha.trans h.1, by rw [h.2, hs, Nat.zero_add]⟩
  refine hI.step ht hf ?_ ?_ ?_ (fun h => hend (hc h)) (fun h => hend (hb h)) (fun h => hend (hret h))
    fun h => ⟨ha.trans h.1, hs.le⟩
  · have := hI.one
    omega
  · intro h
    have := hI.running (ha.symm.trans h)
    omega
  · intro h
    have := hI.enabled (ha.symm.trans h)
    omega

theorem Inv.disable (hI : Inv c) (ht : c.threads[i]? = some t) (hf : t'.Fits) (hs : t'.scopes = t.scopes)
    (ha : s'.cancelable = c.shared.cancelable.disable) (hc : t'.phase ≠ .completing)
    (hret : s'.returned = true → scopes c = 0) : Inv ⟨s', c.threads.set i t' ++ []⟩ := by
  have hact : s'.cancelable.active = .disabled := by
    rw [ha]
    rfl
  refine hI.step ht hf ?_ ?_ ?_ (fun h => absurd h hc) ?_ ?_ fun _ => ⟨hact, hs.le⟩
  · have := hI.one
    omega
  · intro h
    rw [hact] at h
    cases h
  · intro h
    rw [hact] at h
    cases h
  · intro h
    rw [ha] at h
    exact ⟨hact, by rw [(hI.barrier h).2, hs, Nat.zero_add]⟩
  · intro h
    exact ⟨hact, by rw [hret h, hs, Nat.zero_add]⟩

theorem enter_inv (hI : Inv c) (ht : c.threads[i]? = some t) (hp : t.phase = .idle) {new : List Thread}
    (ha : act c.shared t .enter = some (s', t', new)) : Inv ⟨s', c.threads.set i t' ++ new⟩ := by
  have hf := hI.fits t (Family.mem_of_get ht)
  simp only [act, hp, Cancelable.enter] at ha
  by_cases had : c.shared.cancelable.admits = true
  · rw [if_pos had, if_pos had] at ha
    cases ha
    have hact : c.shared.cancelable.active = .enabled := by simpa [Cancelable.admits] using had
    have h0 := hI.enabled hact
    have hle := scopes_le ht
    refine hI.opened ht (by simp [hact]) ?_ ?_ ?_ ?_ (by simp) rfl rfl
    · simp [Thread.Fits, show t.scopes = 0 by omega]
    · simp only []
      omega
    · intro _
      simp only []
      omega
    · intro h
      cases h
  · rw [if_neg had, if_neg had] at ha
    cases ha
    exact hI.keep ht hf rfl rfl (hI.completing t (Family.mem_of_get ht)) hI.barrier hI.returned

theorem disable_inv (hI : Inv c) (hC : disablesEnded c (.act i .disable) = true) (ht : c.threads[i]? = some t)
    (hp : t.phase = .idle) {new : List Thread} (ha : act c.shared t .disable = some (s', t', new)) :
    Inv ⟨s', c.threads.set i t' ++ new⟩ := by
  have hf := hI.fits t (Family.mem_of_get ht)
  have hc : t.phase ≠ .completing := by simp [hp]
  have hfits := hf
  simp only [Thread.Fits, hp] at hf
  simp only [act, hp] at ha
  by_cases hcur : t.current = true
  · rw [if_pos hcur] at ha
    cases ha
    have hs : t.scopes = 1 := by simpa [hcur] using hf
    refine hI.disable ht hfits rfl rfl hc fun h => (hI.returned ?_).2
    simpa [Shared.disabled, hs] using h
  have hs : t.scopes = 0 ∧ t.current = false := by simpa [hcur] using hf
  rw [if_neg hcur] at ha
  by_cases hact : c.shared.cancelable.active = .running
  · rw [if_pos hact] at ha
    cases ha
    refine hI.disable ht ?_ rfl rfl (by simp) fun h => (hI.returned h).2
    simpa [Thread.Fits] using hs
  · rw [if_neg hact] at ha
    cases ha
    refine hI.disable ht hfits rfl rfl hc fun _ => ?_
    -- nobody was running: the exchange has found `enabled`, or the condition gives it
    cases hx : c.shared.cancelable.active with
    | enabled => exact hI.enabled hx
    | running => exact absurd hx hact
    | disabled => simpa [disablesEnded, ht, hx, hcur] using hC

theorem leaving_inv (hI : Inv c) (ht : c.threads[i]? = some t) (hp : t.phase = .leaving) :
    Inv ⟨{ c.shared with cancelable := c.shared.cancelable.leave }, c.threads.set i
      { t with scopes := t.scopes - 1, phase := if c.shared.cancelable.leaves then .idle else .completing } ++ []⟩ := by
  have hf := hI.fits t (Family.mem_of_get ht)
  have hle := scopes_le ht
  have h1 := hI.one
  simp only [Thread.Fits, hp] at hf
  obtain ⟨hs, hcur⟩ := hf
  cases hact : c.shared.cancelable.active with
  | enabled =>
    have := hI.enabled hact
    omega
  | running =>
    simp only [Cancelable.leaves, Cancelable.leave, hact]
    refine hI.opened ht (by simp [hact]) (by simp [Thread.Fits, hs, hcur]) ?_ ?_ ?_ (by simp) rfl rfl
    · simp only []
      omega
    · intro h
      cases h
    · intro _
      simp only []
      omega
  | disabled =>
    have hend : scopes c + (t.scopes - 1) = t.scopes := by omega
    simp only [Cancelable.leaves, Cancelable.leave, hact]
    refine hI.step ht (by simp [Thread.Fits, hs, hcur]) ?_ ?_ ?_ ?_ ?_ ?_ ?_
    · simp only []
      omega
    · intro h
      cases hact.symm.trans h
    · intro h
      cases hact.symm.trans h
    · intro _
      exact ⟨hact, hend⟩
    · intro _
      exact ⟨hact, hend⟩
    · intro _
      exact ⟨hact, hend⟩
    · intro h
      have := h.2
      omega

theorem act_inv {e : Choice} {new : List Thread} (hI : Inv c) (hC : disablesEnded c (.act i e) = true)
    (ht : c.threads[i]? = some t) (ha : act c.shared t e = some (s', t', new)) :
    Inv ⟨s', c.threads.set i t' ++ new⟩ := by
  have hf := hI.fits t (Family.mem_of_get ht)
  unfold Thread.Fits at hf
  cases hp : t.phase with
  | idle =>
    cases e with
    | enter => exact enter_inv hI ht hp ha
    | leave =>
      simp only [hp] at hf
      simp only [act, hp] at ha
      by_cases h0 : t.scopes = 0
      · rw [if_pos h0] at ha
        cases ha
      · rw [if_neg h0] at ha
        cases ha
        have hs : t.scopes = 1 := by omega
        exact hI.keep ht ⟨hs, rfl⟩ rfl rfl (by simp) hI.barrier hI.returned
    | disable => exact disable_inv hI hC ht hp ha
    | _ => simp [act, hp] at ha
  | leaving =>
    cases e with
    | step =>
      simp only [act, hp] at ha
      cases ha
      exact leaving_inv hI ht hp
    | _ => simp [act, hp] at ha
  | completing =>
    simp only [hp] at hf
    cases e with
    | step =>
      simp only [act, hp] at ha
      cases ha
      exact hI.keep ht (Or.inl hf) rfl rfl (by simp) (fun _ => hI.completing t (Family.mem_of_get ht) hp) hI.returned
    | _ => simp [act, hp] at ha
  | waiting =>
    simp only [hp] at hf
    cases e with
    | step =>
      simp only [act, hp] at ha
      by_cases hb : c.shared.cancelable.barrier = true
      · rw [if_pos hb] at ha
        cases ha
        exact hI.keep ht (Or.inl hf) rfl rfl (by simp) hI.barrier fun _ => hI.barrier hb
      · rw [if_neg hb] at ha
        cases ha
    | _ => simp [act, hp] at ha

theorem act_early {e : Choice} {new : List Thread} (hI : Inv c) (hC : ¬ disablesEnded c (.act i e) = true)
    (ht : c.threads[i]? = some t) (ha : act c.shared t e = some (s', t', new)) :
    ¬ Disabled ⟨s', c.threads.set i t' ++ new⟩ := by
  cases e with
  | disable =>
    have hf := hI.fits t (Family.mem_of_get ht)
    simp only [disablesEnded, ht, Bool.or_eq_true, decide_eq_true_eq, beq_iff_eq, not_or, not_not,
      Bool.not_eq_true] at hC
    obtain ⟨⟨hcur, hact⟩, hs⟩ := hC
    cases hp : t.phase with
    | idle =>
      simp only [Thread.Fits, hp, hcur] at hf
      have hz : t.scopes = 0 := by simpa using hf
      simp only [act, hp, hcur, hact, Bool.false_eq_true, reduceCtorEq, ite_false, Option.some.injEq,
        Prod.mk.injEq] at ha
      obtain ⟨rfl, rfl, rfl⟩ := ha
      intro hD
      have h0 := hD (by simp [Shared.disabled, hz])
      have hstep := scopes_step ht (({ c.shared with cancelable := c.shared.cancelable.disable }).disabled t) t
      exact hs (by rw [h0] at hstep; omega)
    | _ => simp [act, hp] at ha
  | _ => simp [disablesEnded] at hC

end

theorem call_inv {c : Config Shared Thread} (hI : Inv c) {e : Choice} {s' : Shared} {new : List Thread}
    (h : call c.shared e = some (s', new)) : Inv ⟨s', c.threads ++ new⟩ := by
  cases e with
  | thread =>
    cases h
    have hs : scopes ⟨c.shared, c.threads ++ [⟨0, false, .idle⟩]⟩ = scopes c := by simp [scopes]
    refine ⟨Family.forall_append hI.fits (by simp [Thread.Fits]), ?_, ?_, ?_,
      Family.forall_append ?_ (by simp), ?_, ?_⟩
    · rw [hs]; exact hI.one
    · rw [hs]; exact hI.running
    · rw [hs]; exact hI.enabled
    all_goals
      unfold ended
      rw [hs]
    · exact hI.completing
    · exact hI.barrier
    · exact hI.returned
  | _ => cases h

/-- **Cancellation barrier.** `disable` keeps its promise in every state of a
run exactly when no step of the run is a `disable`, from outside of the scopes,
of a cancelable that is disabled already and still has an active scope. -/
theorem disable_waits {tr : List (Config Shared Thread × Label Choice)} {c : Config Shared Thread}
    (h : cancelable.Run initial tr c) :
    Program.Along (fun c l => disablesEnded c l = true) tr ↔ (∀ p ∈ tr, Disabled p.1) ∧ Disabled c := by
  refine h.along_iff (I := Inv) initial_inv (fun c l c' hI hC hn => ?_) (fun c hI hr => (hI.returned hr).2)
    (fun c l c' hI hC hn => ?_)
  · cases l with
    | call e =>
      obtain ⟨s, new, hc, rfl⟩ := Program.next_call hn
      exact call_inv hI hc
    | act i e =>
      obtain ⟨t, s, t', new, ht, ha, rfl⟩ := Program.next_act hn
      exact act_inv hI hC ht ha
  · cases l with
    | call e => exact absurd rfl hC
    | act i e =>
      obtain ⟨t, s, t', new, ht, ha, rfl⟩ := Program.next_act hn
      exact act_early hI hC ht ha

def disableTwice : List (Label Choice) :=
  [.call .thread, .call .thread, .call .thread, .act 0 .enter, .act 1 .disable, .act 0 .leave, .act 0 .step,
    .act 0 .step, .act 1 .step, .act 2 .disable]

theorem disable_waits_twice : Disabled (cancelable.last initial disableTwice) ∧
    (cancelable.last initial disableTwice).shared.returned = true :=
  ⟨((disable_waits (Program.run_last (by decide))).mp (by decide)).2, by decide⟩

/-- The second `disable` comes while the scope is active and finds `disabled`. -/
def disableEarly : List (Label Choice) :=
  [.call .thread, .call .thread, .call .thread, .act 0 .enter, .act 1 .disable, .act 2 .disable]

theorem disable_returns_early : ¬ ∀ tr c, cancelable.Run initial tr c → Disabled c := by
  intro hall
  have := hall _ _ (Program.run_last (l := disableEarly) (by decide))
  exact absurd (this (by decide)) (by decide)

end Xdispatch.Cancel
