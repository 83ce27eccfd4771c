import Xdispatch.Cancelable.Disable

/-!
# The states of a cancelable

There is one scope at a time, and none any more once a `disable` has taken effect.
A `disable` that waits has found a scope running; the cancelable stays disabled
from then on, so it is this scope whose `leave` completes the barrier.
-/

namespace Xdispatch.Cancel

/-! ## What a step can do -/

inductive Step (s : Shared) (t : Thread) : Choice → Shared → Thread → Prop
  | enters : t.phase = .idle → s.cancelable.active = .enabled →
      Step s t .enter { s with cancelable := { s.cancelable with active := .running } }
        { t with scopes := t.scopes + 1, current := true }
  | refused : t.phase = .idle → s.cancelable.active ≠ .enabled → Step s t .enter s t
  | leaves : t.phase = .idle → t.scopes ≠ 0 → Step s t .leave s { t with current := false, phase := .leaving }
  | disables : t.phase = .idle → (t.current = true ∨ s.cancelable.active ≠ .running) →
      Step s t .disable ({ s with cancelable := s.cancelable.disable }.disabled t) t
  | waits : t.phase = .idle → t.current = false → s.cancelable.active = .running →
      Step s t .disable { s with cancelable := s.cancelable.disable } { t with phase := .waiting }
  | left : t.phase = .leaving → s.cancelable.active = .running →
      Step s t .step { s with cancelable := { s.cancelable with active := .enabled } }
        { t with scopes := t.scopes - 1, phase := .idle }
  | leftLate : t.phase = .leaving → s.cancelable.active ≠ .running →
      Step s t .step s { t with scopes := t.scopes - 1, phase := .completing }
  | completes : t.phase = .completing →
      Step s t .step { s with cancelable := s.cancelable.complete } { t with phase := .idle }
  | released : t.phase = .waiting → s.cancelable.barrier = true →
      Step s t .step (s.disabled t) { t with phase := .idle }

section
variable {s s' : Shared} {t t' : Thread} {e : Choice} {new : List Thread}

theorem act_step (h : act s t e = some (s', t', new)) : new = [] ∧ Step s t e s' t' := by
  unfold act at h
  split at h
  next hp =>
    cases h
    by_cases ha : s.cancelable.active = .enabled
    · simp only [Cancelable.enter, Cancelable.admits, ha, decide_true, if_true]
      exact ⟨trivial, .enters hp ha⟩
    · simp only [Cancelable.enter, Cancelable.admits, ha, decide_false, Bool.false_eq_true, if_false]
      exact ⟨trivial, .refused hp ha⟩
  next hp =>
    split at h <;> cases h
    next h0 => exact ⟨rfl, .leaves hp h0⟩
  next hp =>
    simp only at h
    split at h
    next hc =>
      cases h
      exact ⟨rfl, .disables hp (Or.inl hc)⟩
    next hc =>
      split at h <;> cases h
      next ha => exact ⟨rfl, .waits hp (by simpa using hc) ha⟩
      next ha => exact ⟨rfl, .disables hp (Or.inr ha)⟩
  next hp =>
    cases h
    by_cases ha : s.cancelable.active = .running
    · simp only [Cancelable.leave, Cancelable.leaves, ha, decide_true, if_true]
      exact ⟨trivial, .left hp ha⟩
    · simp only [Cancelable.leave, Cancelable.leaves, ha, decide_false, Bool.false_eq_true, if_false]
      exact ⟨trivial, .leftLate hp ha⟩
  next hp =>
    cases h
    exact ⟨rfl, .completes hp⟩
  next hp =>
    split at h <;> cases h
    next hb => exact ⟨rfl, .released hp hb⟩
  · cases h

end

/-! ## The claim -/

/-- The exchange of thread `i` has found thread `j` in its scope. -/
def Observes (p : Config Shared Thread × Label Choice) (i j : Nat) : Prop :=
  p.2 = .act i .disable ∧ p.1.shared.cancelable.active = .running ∧ ∃ u, p.1.threads[j]? = some u ∧ u.scopes = 1

/-- The thread is past the `leave` of its scope, and past the barrier if that comes to it. -/
def Thread.hasLeft (t : Thread) : Prop := t.scopes = 0 ∧ t.phase ≠ .completing

/-- One scope at a time; once disabled, no `enter` does anything; and a `disable` that waits
is released by the `leave` of the scope that its exchange has found. -/
structure Sound (tr : List (Config Shared Thread × Label Choice)) (c : Config Shared Thread) : Prop where
  one : scopes c ≤ 1
  closed : ∀ p ∈ tr, (p.1.shared.cancelable.active = .disabled ∨ ∃ i, p.2 = .act i .disable) →
    c.shared.cancelable.active = .disabled
  refuses : c.shared.cancelable.active = .disabled → ∀ i c', cancelable.next c (.act i .enter) = some c' → c' = c
  waits : ∀ i t, c.threads[i]? = some t → t.phase = .waiting → ∃ p ∈ tr, ∃ j u, j ≠ i ∧ Observes p i j ∧
    c.threads[j]? = some u ∧ (c.shared.cancelable.barrier = true ↔ u.hasLeft)

/-! ## The invariant -/

def completing (t : Thread) : Nat := if t.phase = .completing then 1 else 0

/-- While the cancelable is not disabled, nobody completes the barrier or waits for it;
then at most one scope is active, about to complete the barrier, or has completed it. -/
structure Machine (c : Config Shared Thread) : Prop where
  fits : ∀ t ∈ c.threads, t.Fits
  opened : c.shared.cancelable.active ≠ .disabled →
    scopes c = (if c.shared.cancelable.active = .running then 1 else 0) ∧ c.shared.cancelable.barrier = false ∧
      ∀ t ∈ c.threads, t.phase ≠ .completing ∧ t.phase ≠ .waiting
  disabled : c.shared.cancelable.active = .disabled →
    scopes c + Family.total completing c.threads + c.shared.cancelable.barrier.toNat ≤ 1

structure Released (tr : List (Config Shared Thread × Label Choice)) (c : Config Shared Thread) : Prop where
  closed : ∀ p ∈ tr, (p.1.shared.cancelable.active = .disabled ∨ ∃ i, p.2 = .act i .disable) →
    c.shared.cancelable.active = .disabled
  waits : ∀ i t, c.threads[i]? = some t → t.phase = .waiting → ∃ p ∈ tr, ∃ j u, j ≠ i ∧ Observes p i j ∧
    c.threads[j]? = some u ∧ (c.shared.cancelable.barrier = true ↔ u.hasLeft)

section
variable {c c' : Config Shared Thread} {i : Nat} {t t' : Thread} {s' : Shared} {e : Choice}
  {tr : List (Config Shared Thread × Label Choice)}

theorem Machine.one (hM : Machine c) : scopes c ≤ 1 := by
  by_cases h : c.shared.cancelable.active = .disabled
  · have := hM.disabled h
    omega
  · have := (hM.opened h).1
    split at this <;> omega

theorem completing_eq_zero (h : ∀ t ∈ c.threads, t.phase ≠ .completing ∧ t.phase ≠ .waiting) :
    Family.total completing c.threads = 0 :=
  Family.total_eq_zero.mpr fun t ht => if_neg (h t ht).1

theorem Machine.open_step (hM : Machine c) (ht : c.threads[i]? = some t) (hs : s'.cancelable.active ≠ .disabled)
    (ha : c.shared.cancelable.active ≠ .disabled) (hb : s'.cancelable.barrier = c.shared.cancelable.barrier)
    (hf : t'.Fits) (hp : t'.phase ≠ .completing ∧ t'.phase ≠ .waiting)
    (hsc : t'.scopes + (if c.shared.cancelable.active = .running then 1 else 0) =
      t.scopes + if s'.cancelable.active = .running then 1 else 0) : Machine ⟨s', c.threads.set i t' ++ []⟩ := by
  obtain ⟨h1, h2, h3⟩ := hM.opened ha
  refine ⟨Family.forall_step hM.fits hf (by simp), fun _ => ⟨?_, hb.trans h2, Family.forall_step h3 hp (by simp)⟩,
    fun h => absurd h hs⟩
  have := scopes_step ht s' t'
  rw [h1] at this
  change scopes _ = if s'.cancelable.active = .running then 1 else 0
  omega

theorem Machine.closed_step (hM : Machine c) (ht : c.threads[i]? = some t) (hs : s'.cancelable.active = .disabled)
    (hf : t'.Fits)
    (hsc : t'.scopes + completing t' + s'.cancelable.barrier.toNat ≤
      t.scopes + completing t + c.shared.cancelable.barrier.toNat) : Machine ⟨s', c.threads.set i t' ++ []⟩ := by
  refine ⟨Family.forall_step hM.fits hf (by simp), fun h => absurd hs h, fun _ => ?_⟩
  have h1 := scopes_step ht s' t'
  have h2 := Family.total_step completing ht t' []
  rw [Family.total_nil, Nat.add_zero] at h2
  have h3 : scopes c + Family.total completing c.threads + c.shared.cancelable.barrier.toNat ≤ 1 := by
    by_cases h : c.shared.cancelable.active = .disabled
    · exact hM.disabled h
    · obtain ⟨h1, h2, h3⟩ := hM.opened h
      rw [completing_eq_zero h3, h2, Bool.toNat_false]
      split at h1 <;> omega
  change scopes _ + Family.total completing (c.threads.set i t' ++ []) + s'.cancelable.barrier.toNat ≤ 1
  omega

theorem Machine.same_step (hM : Machine c) (ht : c.threads[i]? = some t) (hs : s'.cancelable = c.shared.cancelable)
    (hf : t'.Fits) (hp : t'.phase ≠ .completing ∧ t'.phase ≠ .waiting) (hsc : t'.scopes = t.scopes) :
    Machine ⟨s', c.threads.set i t' ++ []⟩ := by
  by_cases ha : c.shared.cancelable.active = .disabled
  · exact hM.closed_step ht (by rw [hs, ha]) hf (by simp [completing, hp.1, hsc, hs])
  · exact hM.open_step ht (by rwa [hs]) ha (by rw [hs]) hf hp (by rw [hsc, hs])

theorem Machine.step (hM : Machine c) (ht : c.threads[i]? = some t) (hs : Step c.shared t e s' t') :
    Machine ⟨s', c.threads.set i t' ++ []⟩ := by
  have hm := Family.mem_of_get ht
  have hf := hM.fits t hm
  have hfits := hf
  have hle := scopes_le ht
  unfold Thread.Fits at hf
  cases hs with
  | enters hp ha =>
    have hopen : c.shared.cancelable.active ≠ .disabled := by simp [ha]
    have h0 : t.scopes = 0 := by
      have := (hM.opened hopen).1
      rw [ha] at this
      simp only [reduceCtorEq, if_false] at this
      omega
    exact hM.open_step ht (by simp) hopen rfl (by simp [Thread.Fits, hp, h0]) (by simp [hp]) (by simp [ha])
  | refused hp => exact hM.same_step ht rfl hfits (by simp [hp]) rfl
  | leaves hp h0 =>
    simp only [hp] at hf
    have hs : t.scopes = 1 := by omega
    exact hM.same_step ht rfl (by simp [Thread.Fits, hs]) (by simp) rfl
  | disables hp => exact hM.closed_step ht rfl hfits le_rfl
  | waits hp hcur =>
    have hs : t.scopes = 0 := by simpa [hp, hcur] using hf
    exact hM.closed_step ht rfl (by simp [Thread.Fits, hs, hcur])
      (by simp [completing, Cancelable.disable])
  | left hp ha =>
    simp only [hp] at hf
    exact hM.open_step ht (by simp) (by simp [ha]) rfl (by simp [Thread.Fits, hf]) (by simp) (by simp [ha, hf.1])
  | leftLate hp ha =>
    simp only [hp] at hf
    have hd : c.shared.cancelable.active = .disabled := by
      by_contra hd
      have := (hM.opened hd).1
      rw [if_neg ha] at this
      omega
    exact hM.closed_step ht hd (by simp [Thread.Fits, hf]) (by simp [completing, hf.1, hp])
  | completes hp =>
    simp only [hp] at hf
    have hd : c.shared.cancelable.active = .disabled := by
      by_contra hd
      exact ((hM.opened hd).2.2 t hm).1 hp
    exact hM.closed_step ht hd (by simp [Thread.Fits, hf]) (by simp [completing, hp, Cancelable.complete])
  | released hp =>
    simp only [hp] at hf
    exact hM.same_step ht rfl (by simp [Thread.Fits, hf]) (by simp) rfl

theorem Machine.call (hM : Machine c) {new : List Thread} (h : call c.shared e = some (s', new)) :
    Machine ⟨s', c.threads ++ new⟩ := by
  cases e with
  | thread =>
    cases h
    have hs : scopes ⟨c.shared, c.threads ++ [⟨0, false, .idle⟩]⟩ = scopes c := by simp [scopes]
    have hc : Family.total completing (c.threads ++ [⟨0, false, .idle⟩]) = Family.total completing c.threads := by
      simp [completing]
    refine ⟨Family.forall_append hM.fits (by simp [Thread.Fits]), fun ha => ?_, fun ha => ?_⟩
    · obtain ⟨h1, h2, h3⟩ := hM.opened ha
      exact ⟨hs.trans h1, h2, Family.forall_append h3 (by simp)⟩
    · rw [hs, hc]
      exact hM.disabled ha
  | _ => cases h

theorem run_machine (h : cancelable.Run initial tr c) : Machine c := by
  refine h.invariant_by ?_ (fun _ _ _ _ hM _ hc => hM.call hc) (fun c i e t s t' new hM _ ht ha => ?_)
    Program.along_true
  · exact ⟨by simp [initial], fun _ => by simp [initial, scopes, Cancelable.new], by simp [initial, Cancelable.new]⟩
  · obtain ⟨rfl, hs⟩ := act_step ha
    exact hM.step ht hs

/-! ## The scope that a `disable` has found -/

theorem Step.disabled (hs : Step c.shared t e s' t')
    (h : c.shared.cancelable.active = .disabled ∨ e = .disable) : s'.cancelable.active = .disabled := by
  cases hs with
  | enters hp ha | left hp ha => simp [ha] at h
  | disables | waits => rfl
  | refused | leaves | leftLate | completes | released => simpa [Shared.disabled, Cancelable.complete] using h

theorem Step.barrier (hs : Step c.shared t e s' t') : s'.cancelable.barrier = c.shared.cancelable.barrier ∨
    t.phase = .completing ∧ e = .step ∧ s'.cancelable.barrier = true ∧ t' = { t with phase := .idle } := by
  cases hs with
  | completes hp => exact Or.inr ⟨hp, rfl, rfl, rfl⟩
  | _ => exact Or.inl rfl

theorem Step.hasLeft (hs : Step c.shared t e s' t') (hf : t.Fits) (hd : c.shared.cancelable.active = .disabled)
    (hl : c.shared.cancelable.barrier = true ↔ t.hasLeft) : s'.cancelable.barrier = true ↔ t'.hasLeft := by
  unfold Thread.hasLeft Thread.Fits at *
  cases hs with
  | enters hp ha | waits hp _ ha | left hp ha => simp [hd] at ha
  | refused | disables => exact hl
  | leaves hp h0 =>
    rw [hl]
    simp [h0]
  | leftLate hp =>
    simp only [hp] at hf
    rw [hl]
    simp [hf.1]
  | completes hp =>
    simp only [hp] at hf
    simp [Cancelable.complete, hf.1]
  | released hp hb =>
    simp only [hp] at hf
    simp [Shared.disabled, hb, hf.1]

/-- While thread `j` has not left, nobody else completes the barrier; once it has, it does not enter again. -/
theorem Machine.hasLeft_step (hM : Machine c) (ht : c.threads[i]? = some t) (hs : Step c.shared t e s' t')
    (hd : c.shared.cancelable.active = .disabled) {j : Nat} {u : Thread} (hu : c.threads[j]? = some u)
    (hl : c.shared.cancelable.barrier = true ↔ u.hasLeft) :
    ∃ u', (c.threads.set i t' ++ [])[j]? = some u' ∧ (s'.cancelable.barrier = true ↔ u'.hasLeft) := by
  by_cases hij : i = j
  · subst hij
    cases ht.symm.trans hu
    exact ⟨t', Family.get_step ht _ _, hs.hasLeft (hM.fits t (Family.mem_of_get ht)) hd hl⟩
  · refine ⟨u, Family.get_step_of_ne hu hij _ _, ?_⟩
    rcases hs.barrier with hb | ⟨hp, -, -, -⟩
    · rw [hb, hl]
    · -- then nobody is in a scope or completes, so thread `j` had left and the barrier was completed
      have hdis := hM.disabled hd
      have h1 := Family.le_total_of_ne completing ht hu hij
      have h2 := scopes_le hu
      simp only [completing, hp, if_true] at h1 hdis
      have hleft : u.hasLeft := by
        refine ⟨by omega, fun hu => ?_⟩
        rw [if_pos hu] at h1
        omega
      rw [hl.mpr hleft, Bool.toNat_true] at hdis
      omega

theorem Released.step (hR : Released tr c) (hM : Machine c) (ht : c.threads[i]? = some t)
    (hs : Step c.shared t e s' t') : Released (tr ++ [(c, .act i e)]) ⟨s', c.threads.set i t' ++ []⟩ := by
  refine ⟨fun p hp h => ?_, fun j u hu hw => ?_⟩
  · rcases List.mem_append.mp hp with hp | hp
    · exact hs.disabled (Or.inl (hR.closed p hp h))
    · cases List.mem_singleton.mp hp
      refine hs.disabled (h.imp_right ?_)
      rintro ⟨j, hj⟩
      cases hj
      rfl
  · -- a thread that waited before, or the one that begins to
    have old : ∀ t, c.threads[j]? = some t → t.phase = .waiting → ∃ p ∈ tr ++ [(c, .act i e)], ∃ k v, k ≠ j ∧
        Observes p j k ∧ (c.threads.set i t' ++ [])[k]? = some v ∧ (s'.cancelable.barrier = true ↔ v.hasLeft) := by
      intro t₀ ht₀ hw₀
      obtain ⟨p, hp, k, v, hne, hobs, hv, hl⟩ := hR.waits j t₀ ht₀ hw₀
      have hd : c.shared.cancelable.active = .disabled := hR.closed p hp (Or.inr ⟨j, hobs.1⟩)
      obtain ⟨v', hv', hl'⟩ := hM.hasLeft_step ht hs hd hv hl
      exact ⟨p, List.mem_append_left _ hp, k, v', hne, hobs, hv', hl'⟩
    rcases Family.get_cases hu with ⟨rfl, rfl⟩ | ⟨-, hu⟩ | ⟨n, -, hu⟩
    · have hf := hM.fits t (Family.mem_of_get ht)
      cases hs with
      | waits hp hcur ha =>
        have h1 := (hM.opened (by simp [ha])).1
        rw [if_pos ha] at h1
        obtain ⟨v, hv, hpos⟩ := Family.exists_of_total_pos (f := Thread.scopes) (l := c.threads)
          (by unfold scopes at h1; omega)
        obtain ⟨k, hk⟩ := List.mem_iff_getElem?.mp hv
        have h2 := scopes_le hk
        have hne : k ≠ j := by
          rintro rfl
          cases ht.symm.trans hk
          simp [Thread.Fits, hp, hcur] at hf
          omega
        refine ⟨_, List.mem_append_right _ (List.mem_singleton_self _), k, v, hne, ⟨rfl, ha, v, hk, by omega⟩,
          Family.get_step_of_ne hk (Ne.symm hne) _ _, ?_⟩
        have hb := (hM.opened (by simp [ha])).2.1
        simp only [Cancelable.disable, hb, Bool.false_eq_true, false_iff]
        exact fun hl => by
          have := hl.1
          omega
      | refused hp | disables hp => exact absurd hw (by simp [hp])
      | enters hp => exact absurd hw (by simp [hp])
      | _ => cases hw
    · exact old u hu hw
    · cases hu

theorem run_released (h : cancelable.Run initial tr c) : Released tr c := by
  induction h with
  | nil => exact ⟨by simp, by simp [initial]⟩
  | @snoc tr c l c' hr hn ih =>
    cases l with
    | call e =>
      obtain ⟨s, new, hc, rfl⟩ := Program.next_call hn
      cases e with
      | thread =>
        cases hc
        refine ⟨fun p hp h => ?_, fun i t ht hw => ?_⟩
        · rcases List.mem_append.mp hp with hp | hp
          · exact ih.closed p hp h
          · cases List.mem_singleton.mp hp
            simpa using h
        · change (c.threads ++ [⟨0, false, .idle⟩])[i]? = some t at ht
          rw [List.getElem?_append] at ht
          split at ht
          · obtain ⟨p, hp, j, u, hne, hobs, hu, hl⟩ := ih.waits i t ht hw
            exact ⟨p, List.mem_append_left _ hp, j, u, hne, hobs, Family.get_append hu _, hl⟩
          · obtain rfl := List.mem_singleton.mp (Family.mem_of_get ht)
            cases hw
      | _ => cases hc
    | act i e =>
      obtain ⟨t, s, t', new, ht, ha, rfl⟩ := Program.next_act hn
      obtain ⟨rfl, hs⟩ := act_step ha
      exact ih.step (run_machine hr) ht hs

theorem refuses (hd : c.shared.cancelable.active = .disabled) (hn : cancelable.next c (.act i .enter) = some c') :
    c' = c := by
  obtain ⟨t, s, t', new, ht, ha, rfl⟩ := Program.next_act hn
  obtain ⟨rfl, hs⟩ := act_step ha
  cases hs with
  | enters hp h =>
    rw [hd] at h
    cases h
  | refused =>
    obtain ⟨hi, rfl⟩ := List.getElem?_eq_some_iff.mp ht
    rw [List.append_nil, List.set_getElem_self]

/-- **States of a cancelable.** At most one scope is active, a `disable` is for good, and a `disable` that waits is
released by the `leave` of the scope that it has found, and by no other. -/
theorem run_states (h : cancelable.Run initial tr c) : Sound tr c :=
  ⟨(run_machine h).one, (run_released h).closed, fun hd _ _ hn => refuses hd hn, (run_released h).waits⟩

end

/-- A `disable` waits for the scope, from inside of which the cancelable is disabled as well. -/
def disableInside : List (Label Choice) :=
  [.call .thread, .call .thread, .act 0 .enter, .act 1 .disable, .act 0 .disable, .act 0 .leave, .act 0 .step]

theorem run_states_inside :
    Sound (cancelable.path initial disableInside) (cancelable.last initial disableInside) ∧
      (cancelable.last initial disableInside).threads = [⟨0, false, .completing⟩, ⟨0, false, .waiting⟩] :=
  ⟨run_states (Program.run_last (by decide)), by decide⟩

end Xdispatch.Cancel
