import Xdispatch.Signal.Updates

/-!
# What `skip_all` leaves of a handler

`skip_all` disables the handlers and leaves them connected. An invocation that
was queued before is not admitted any more, but neither is one of a later emit.
Apart from the emits that find such a handler, every emit is executed unless a
`skip_all` comes after it.
-/

namespace Xdispatch.Signal

variable {α : Type} {s s' : Shared α} {F : Multiset (Frame α)} {f : Frame α} {fs : List (Frame α)} {h : HandlerId}

/-! ## Queued invocations -/

structure Skipping (s : Shared α) (F : Multiset (Frame α)) : Prop where
  known : ∀ inv, .invoke inv .enter ∈ F → inv.skips ≤ (s.heap inv.handler).skips
  current : ∀ inv, .invoke inv .enter ∈ F →
    inv.skips = (s.heap inv.handler).skips ∨ (s.heap inv.handler).cancelable.active = .disabled
  disconnected : ∀ h, .disable h none ∈ F → h ∉ s.handlers
  stale : s.stale = false

theorem skipping_start (hI : Skipping s F) (hs : Starts s f) : Skipping s (f ::ₘ F) := by
  have hi : ∀ inv, f ≠ .invoke inv .enter := by
    rcases hs.cases with ⟨_, rfl⟩ | ⟨_, rfl⟩ | ⟨_, -, rfl⟩ | rfl <;> simp
  have hd : ∀ h, f ≠ .disable h none := by
    rcases hs.cases with ⟨_, rfl⟩ | ⟨_, rfl⟩ | ⟨_, -, rfl⟩ | rfl <;> simp
  refine ⟨fun inv hm => ?_, fun inv hm => ?_, fun h hm => ?_, hI.stale⟩
  · exact hI.known inv ((Multiset.mem_cons.mp hm).resolve_left (hi inv).symm)
  · exact hI.current inv ((Multiset.mem_cons.mp hm).resolve_left (hi inv).symm)
  · exact hI.disconnected h ((Multiset.mem_cons.mp hm).resolve_left (hd h).symm)

theorem moves_skips (hm : Moves s f s' fs) : (s.heap h).skips ≤ (s'.heap h).skips := by
  cases hm <;> grind

theorem moves_skipped (hm : Moves s f s' fs) :
    (s'.heap h).skips = (s.heap h).skips ∨ (s'.heap h).cancelable.active = .disabled := by
  cases hm <;> grind

theorem moves_invoke (hm : Moves s f s' fs) {inv : Invocation α} (hi : .invoke inv .enter ∈ fs) :
    inv.skips = (s'.heap inv.handler).skips := by
  cases hm with
  | leave inv' phase hp => cases leave_ending inv' hp _ hi
  | disable k skip g hg => cases disable_ending hg _ hi
  | disableWait k skip => cases disabled_ending k skip _ hi
  | _ => simp at hi <;> grind

/-- Only a `disconnect` calls `disable` without the mutex, and it has erased the handler. -/
theorem moves_disconnected (hm : Moves s f s' fs) (hd : .disable h none ∈ fs) : h ∉ s'.handlers := by
  cases hm with
  | disconnectErase k => simp_all
  | leave inv phase hp => cases leave_ending inv hp _ hd
  | disable k skip g hg => cases disable_ending hg _ hd
  | disableWait k skip => cases disabled_ending k skip _ hd
  | _ => simp at hd

theorem moves_connected (hM : Made s (f ::ₘ F)) (hm : Moves s f s' fs) {g : Frame α} (hg : g ∈ F) (hu : h ∈ g.handlers)
    (hs : h ∉ s.handlers) : h ∉ s'.handlers := by
  rcases moves_handlers hm with hl | ⟨mode, hl, -⟩
  · exact fun hn => hs (hl.subset hn)
  · rw [hl, List.mem_append, List.mem_singleton]
    rintro (hn | rfl)
    · exact hs hn
    · exact Nat.lt_irrefl _ (hM.used g (Multiset.mem_cons_of_mem hg) _ hu)

theorem moves_stale (hI : Skipping s (f ::ₘ F)) (hm : Moves s f s' fs) : s'.stale = false := by
  have hs := hI.stale
  cases hm with
  | enter inv ha =>
    have := hI.current inv (Multiset.mem_cons_self _ F)
    simp_all [Shared.enter, Shared.admits, Cancelable.admits]
  | _ => exact hs

theorem skipping_move (hM : Made s (f ::ₘ F)) (hI : Skipping s (f ::ₘ F)) (hm : Moves s f s' fs) :
    Skipping s' (↑fs + F) := by
  refine ⟨fun inv hi => ?_, fun inv hi => ?_, fun h hi => ?_, moves_stale hI hm⟩
  · rcases Multiset.mem_add.mp hi with hi | hi
    · exact Nat.le_of_eq (moves_invoke hm (Multiset.mem_coe.mp hi))
    · exact Nat.le_trans (hI.known inv (Multiset.mem_cons_of_mem hi)) (moves_skips hm)
  · rcases Multiset.mem_add.mp hi with hi | hi
    · exact Or.inl (moves_invoke hm (Multiset.mem_coe.mp hi))
    · rcases hI.current inv (Multiset.mem_cons_of_mem hi) with hc | hc
      · rw [hc]
        exact (moves_skipped hm).imp_left Eq.symm
      · exact Or.inr (moves_disabled hm hc)
  · rcases Multiset.mem_add.mp hi with hi | hi
    · exact moves_disconnected hm (Multiset.mem_coe.mp hi)
    · exact moves_connected hM hm hi (List.mem_cons_self ..) (hI.disconnected h (Multiset.mem_cons_of_mem hi))

/-! ## Emits that find no skipped handler -/

/-- The frame does not start an emit while a connected handler is disabled, nor an
invocation of a connected handler while another one is running. -/
@[grind] def emitsEnabled (s : Shared α) : Frame α → Bool
  | .emitLock _ => s.handlers.all fun h => (s.heap h).cancelable.active ≠ .disabled
  | .invoke inv .enter => inv.handler ∉ s.handlers || (s.heap inv.handler).cancelable.active ≠ .running
  | _ => true

/-- The frame has nothing for `h` that no `skip_all` has come after. -/
@[grind] def Frame.Behind (h : HandlerId) (skips : Nat) : Frame α → Prop
  | .emitNext rest _ => h ∉ rest
  | .emitBranch k rest _ _ => h ∉ k :: rest
  | .invoke inv .enter => inv.handler = h → inv.skips < skips
  | _ => True

structure Delivering (h : HandlerId) (s : Shared α) (F : Multiset (Frame α)) : Prop where
  refused : h ∈ s.handlers → (s.heap h).refused ≠ [] → (s.heap h).cancelable.active = .disabled
  behind : h ∈ s.handlers → (s.heap h).cancelable.active = .disabled → ∀ f ∈ F, f.Behind h (s.heap h).skips
  lost : h ∈ s.handlers → (s.heap h).lost = false
  enabled : h ∈ s.handlers → (s.heap h).owed = true → (s.heap h).cancelable.active ≠ .disabled
  carried : h ∈ s.handlers → (s.heap h).owed = true → weigh (Frame.carries h) F ≠ 0
  pending : h.mode = .batchUpdates → h ∈ s.handlers → (s.heap h).owed = true →
    ∀ rest args p, .emitBranch h rest args p ∈ F → 1 ≤ p → 0 < weigh (Frame.waits h) F

/-- With the condition, only a disabled handler refuses an invocation. -/
theorem refuses_disabled {inv : Invocation α} (hh : inv.handler ∈ s.handlers)
    (hD : emitsEnabled s (.invoke inv .enter) = true) (ha : s.admits inv.handler = false) :
    (s.heap inv.handler).cancelable.active = .disabled := by
  cases hact : (s.heap inv.handler).cancelable.active <;> simp_all [emitsEnabled, Shared.admits, Cancelable.admits]

theorem push_new {mode : NotificationMode} (hM : Made s F) (hh : h ∈ s.handlers ++ [⟨mode, s.size⟩]) :
    h ∈ s.handlers ∨ s.heap h = .new := by
  rcases List.mem_append.mp hh with hh | hh
  · exact Or.inl hh
  · rw [List.mem_singleton.mp hh]
    exact Or.inr (hM.fresh _ (Nat.le_refl _))

theorem refused_move (hM : Made s (f ::ₘ F)) (hI : Delivering h s (f ::ₘ F)) (hD : emitsEnabled s f = true)
    (hm : Moves s f s' fs) (hh : h ∈ s'.handlers) (hr : (s'.heap h).refused ≠ []) :
    (s'.heap h).cancelable.active = .disabled := by
  have h0 := hI.refused
  cases hm with
  | refuse inv ha =>
    by_cases hk : inv.handler = h
    · subst hk
      have hs : inv.handler ∈ s.handlers := hh
      simpa [Handler.refuse] using refuses_disabled hs hD ha
    · simp_all
  | connectPush mode =>
    rcases push_new hM hh with hh | hn
    · exact h0 hh hr
    · exact absurd hr (by simp [show s.heap h = .new from hn, Handler.new])
  | _ => grind

theorem lost_move (hM : Made s (f ::ₘ F)) (hI : Delivering h s (f ::ₘ F)) (hD : emitsEnabled s f = true)
    (hm : Moves s f s' fs) (hh : h ∈ s'.handlers) : (s'.heap h).lost = false := by
  have hl := hI.lost
  cases hm with
  | refuse inv ha =>
    by_cases hk : inv.handler = h
    · subst hk
      have hlt := hI.behind hh (refuses_disabled hh hD ha) _ (Multiset.mem_cons_self _ F) rfl
      have hne : inv.skips ≠ (s.heap inv.handler).skips := Nat.ne_of_lt hlt
      simpa [Handler.refuse, hne] using hl hh
    · simp_all
  | connectPush mode =>
    rcases push_new hM hh with hh | hn
    · exact hl hh
    · exact congrArg Handler.lost hn
  | _ => grind

theorem enabled_move (hM : Made s (f ::ₘ F)) (hS : Skipping s (f ::ₘ F)) (hI : Delivering h s (f ::ₘ F))
    (hD : emitsEnabled s f = true) (hm : Moves s f s' fs) (hh : h ∈ s'.handlers) (ho : (s'.heap h).owed = true) :
    (s'.heap h).cancelable.active ≠ .disabled := by
  have hen := hI.enabled
  cases hm with
  | disable k skip f hf =>
    by_cases hk : k = h
    · subst hk
      cases skip with
      | none => exact absurd hh (hS.disconnected k (Multiset.mem_cons_self _ F))
      | some rest => simp [Handler.disable] at ho
    · simp_all
  | connectPush mode =>
    rcases push_new hM hh with hh | hn
    · exact hen hh ho
    · exact absurd ho (by simp [show s.heap h = .new from hn, Handler.new])
  | emitLock args hl =>
    have hact : (s.heap h).cancelable.active ≠ .disabled := by
      simp only [emitsEnabled, List.all_eq_true, decide_eq_true_eq] at hD
      exact hD h hh
    have hs : h ∈ s.handlers := hh
    simpa [hs, Handler.emit] using hact
  | _ => grind

theorem behind_ending {n : Nat} : ∀ g : Frame α, g.ending = true → g.Behind h n
  | .invoke _ .completing, _ | .invoke _ .dropping, _ | .disconnectEnd _, _ | .disableWait .., _ | .skipNext _, _ =>
    trivial

theorem behind_mono {g : Frame α} {m n : Nat} (hn : m ≤ n) (hg : g.Behind h m) : g.Behind h n := by
  cases g with
  | invoke inv phase =>
    cases phase with
    | enter => exact fun e => Nat.lt_of_lt_of_le (hg e) hn
    | _ => trivial
  | _ => exact hg

/-- What is disabled by the step is connected only if `skip_all` disables it. -/
theorem moves_disables (hM : Made s (f ::ₘ F)) (hS : Skipping s (f ::ₘ F)) (hm : Moves s f s' fs)
    (hh : h ∈ s'.handlers) (hd : (s'.heap h).cancelable.active = .disabled) :
    h ∈ s.handlers ∧ (s.heap h).cancelable.active = .disabled ∨
      f.holds = 1 ∧ (s'.heap h).skips = (s.heap h).skips + 1 := by
  cases hm with
  | disable k skip f hf =>
    by_cases hk : k = h
    · subst hk
      cases skip with
      | none => exact absurd hh (hS.disconnected k (Multiset.mem_cons_self _ F))
      | some rest => exact Or.inr ⟨rfl, by simp [Handler.disable]⟩
    · left
      simp_all
  | connectPush mode =>
    rcases push_new hM hh with hh | hn
    · exact Or.inl ⟨hh, hd⟩
    · exact absurd hd (by simp [show s.heap h = .new from hn, Handler.new, Cancelable.new])
  | disconnectErase k => exact Or.inl ⟨List.mem_of_mem_filter hh, hd⟩
  | _ => left; grind

theorem behind_new (hI : Delivering h s (f ::ₘ F)) (hD : emitsEnabled s f = true) (hm : Moves s f s' fs)
    (hh : h ∈ s'.handlers) (hd : (s'.heap h).cancelable.active = .disabled) : ∀ g ∈ fs, g.Behind h (s'.heap h).skips := by
  have hb := fun hh hd => hI.behind hh hd f (Multiset.mem_cons_self f F)
  cases hm with
  | emitLock args hl =>
    have hs : h ∈ s.handlers := hh
    simp only [emitsEnabled, List.all_eq_true, decide_eq_true_eq] at hD
    exact absurd (by simpa [hs, Handler.emit] using hd) (hD h hh)
  | increment k rest args =>
    have hn : h ∉ k :: rest := hb hh (by grind)
    simpa [Frame.Behind] using hn
  | invoke k rest args p q hp =>
    have hn : h ∉ k :: rest := hb hh hd
    have hk : k ≠ h := fun e => hn (e ▸ List.mem_cons_self ..)
    simp_all [Frame.Behind, Shared.invocation]
  | decrement k rest args p hm hp =>
    have hn : h ∉ k :: rest := hb hh (by grind)
    simp_all [Frame.Behind]
  | leave inv phase hp => exact fun g hg => behind_ending g (leave_ending inv hp g hg)
  | disable k skip f hf => exact fun g hg => behind_ending g (disable_ending hf g hg)
  | disableWait k skip => exact fun g hg => behind_ending g (disabled_ending k skip g hg)
  | _ => simp [Frame.Behind]

theorem behind_move (hB : Inv s (f ::ₘ F)) (hS : Skipping s (f ::ₘ F)) (hI : Delivering h s (f ::ₘ F))
    (hD : emitsEnabled s f = true) (hm : Moves s f s' fs) (hh : h ∈ s'.handlers)
    (hd : (s'.heap h).cancelable.active = .disabled) : ∀ g ∈ ↑fs + F, g.Behind h (s'.heap h).skips := by
  intro g hg
  rcases Multiset.mem_add.mp hg with hg | hg
  · exact behind_new hI hD hm hh hd g (Multiset.mem_coe.mp hg)
  rcases moves_disables hB.made hS hm hh hd with ⟨hh', hd'⟩ | ⟨hf, hn⟩
  · exact behind_mono (moves_skips hm) (hI.behind hh' hd' g (Multiset.mem_cons_of_mem hg))
  -- `skip_all` holds the mutex, so no emit is under way
  · have h0 := hB.alone hf g hg
    rw [hn]
    cases g with
    | emitNext rest args | emitBranch k rest args p => cases h0
    | invoke inv phase =>
      cases phase with
      | enter =>
        rintro rfl
        exact Nat.lt_succ_of_le (hS.known inv (Multiset.mem_cons_of_mem hg))
      | _ => trivial
    | _ => trivial

/-! ## Emits that are owed -/

theorem moves_owed (hm : Moves s f s' fs) (ho : (s'.heap h).owed = true) (hf : f.holds = 0) (hl : s.locked = true) :
    (s.heap h).owed = true := by
  cases hm <;> grind

theorem waits_carries (hw : weigh (Frame.waits h) F ≠ 0) : weigh (Frame.carries h) F ≠ 0 := by
  intro h0
  refine hw (weigh_eq_zero.mpr fun g hg => ?_)
  have hc := weigh_eq_zero.mp h0 g hg
  cases g with
  | invoke inv phase => cases phase <;> by_cases hk : inv.handler = h <;> simp_all [Frame.carries, Frame.waits]
  | _ => rfl

theorem owed_carried (hI : Delivering h s (f ::ₘ F)) (hD : emitsEnabled s f = true) (hm : Moves s f s' fs)
    (hh : h ∈ s.handlers) (ho : (s'.heap h).owed = true) :
    weigh (Frame.carries h) (↑fs + F : Multiset (Frame α)) ≠ 0 := by
  have hc := hI.carried hh
  have hen := hI.enabled hh
  rw [weigh_cons] at hc
  cases hm with
  | emitLock args hl =>
    obtain ⟨n, hn⟩ := Nat.exists_eq_succ_of_ne_zero (Nat.ne_of_gt (List.count_pos_iff.mpr hh))
    simp [Frame.carries, hn]
  | increment k rest args =>
    by_cases hk : k = h <;> simp_all [Frame.carries, Handler.increment]
  | invoke k rest args p q hp =>
    by_cases hk : k = h <;> simp_all [Frame.carries, Shared.invocation]
  | decrement k rest args p hb hp =>
    by_cases hk : k = h
    · subst hk
      have hw := hI.pending hb hh (by simpa [Handler.decrement] using ho) rest args p (Multiset.mem_cons_self _ F) hp
      have : weigh (Frame.waits k) F ≠ 0 := by
        simp only [weigh_cons, Frame.waits] at hw
        omega
      simp [waits_carries this]
    · simp_all [Frame.carries]
  | refuse inv ha =>
    by_cases hk : inv.handler = h
    · subst hk
      exact absurd (refuses_disabled hh hD ha) (hen (by simpa [Handler.refuse] using ho))
    · simp_all [Frame.carries]
  | execute inv =>
    by_cases hk : inv.handler = h <;> simp_all [Frame.carries, Handler.execute]
  | leave inv phase hp =>
    rw [weigh_ending carries_ending (leave_ending inv hp)]
    by_cases hk : inv.handler = h <;> simp_all [Frame.carries, Handler.leave]
  | disable k skip f hf =>
    rw [weigh_ending carries_ending (disable_ending hf)]
    by_cases hk : k = h <;> simp_all [Frame.carries, Handler.disable]
  | disableWait k skip =>
    rw [weigh_ending carries_ending (disabled_ending k skip)]
    simp_all [Frame.carries]
  | enter inv ha | complete inv =>
    by_cases hk : inv.handler = h <;> simp_all [Frame.carries, Handler.enter, Handler.complete]
  | _ => simp_all [Frame.carries, Shared.unlock]

/-- An emit that leaves an update to a pending invocation has read how many wait. -/
theorem increment_waits (hB : Inv s (f ::ₘ F)) (hI : Delivering h s (f ::ₘ F)) (hf : f.holds = 1)
    (hw : f.waits h = 0) (hbr : f.branches h = 0) (hh : h ∈ s.handlers) (ho : (s.heap h).owed = true) :
    (s.heap h).pending = weigh (Frame.waits h) F := by
  have hr : (s.heap h).refused = [] :=
    Classical.byContradiction fun hn => hI.enabled hh ho (hI.refused hh hn)
  have hb : weigh (Frame.branches h) F = 0 := by
    refine weigh_eq_zero.mpr fun g hg => ?_
    have := hB.alone hf g hg
    cases g <;> simp_all [Frame.holds, Frame.branches]
  have hc := hB.counted h
  unfold Counted at hc
  rw [weigh_cons, weigh_cons, hb, hr, hw, hbr] at hc
  simpa using hc

theorem pending_move (hB : Inv s (f ::ₘ F)) (hI : Delivering h s (f ::ₘ F)) (hD : emitsEnabled s f = true)
    (hm : Moves s f s' fs) (hb : h.mode = .batchUpdates) (hh : h ∈ s'.handlers) (ho : (s'.heap h).owed = true)
    {rest : List HandlerId} {args : α} {p : Int} (hp : 1 ≤ p)
    (hg : .emitBranch h rest args p ∈ (↑fs + F : Multiset (Frame α))) :
    0 < weigh (Frame.waits h) (↑fs + F : Multiset (Frame α)) := by
  rcases Multiset.mem_add.mp hg with hg | hg
  · replace hg := Multiset.mem_coe.mp hg
    cases hm with
    | increment k rest' args' =>
      obtain ⟨rfl, rfl, rfl, rfl⟩ := by simpa using hg
      have := increment_waits hB hI rfl rfl rfl hh (by simpa [Handler.increment] using ho)
      simp only [weigh_coe_cons, Multiset.coe_nil, zero_add, Frame.waits]
      omega
    | leave inv phase hp => cases leave_ending inv hp _ hg
    | disable k skip f hf => cases disable_ending hf _ hg
    | disableWait k skip => cases disabled_ending k skip _ hg
    | _ => simp at hg
  -- the emit holds the mutex, so the step is one of an invocation or of a `disconnect`
  · obtain ⟨hf, hl⟩ := hB.held hg rfl
    have hs : h ∈ s.handlers := by
      cases hm <;> grind
    have hw := hI.pending hb hs (moves_owed hm ho hf hl) rest args p (Multiset.mem_cons_of_mem hg) hp
    have hen := hI.enabled hs (moves_owed hm ho hf hl)
    rw [weigh_cons] at hw
    cases hm with
    | refuse inv ha =>
      by_cases hk : inv.handler = h
      · subst hk
        exact absurd (refuses_disabled hs hD ha) hen
      · simp_all [Frame.waits]
    | execute inv =>
      by_cases hk : inv.handler = h <;> simp_all [Frame.waits, Handler.execute]
    | leave inv phase hp =>
      rw [weigh_ending waits_ending (leave_ending inv hp)]
      simpa [Frame.waits] using hw
    | disable k skip f hd =>
      rw [weigh_ending waits_ending (disable_ending hd)]
      simpa [Frame.waits] using hw
    | disableWait k skip =>
      rw [weigh_ending waits_ending (disabled_ending k skip)]
      simpa [Frame.waits] using hw
    | _ => simp_all [Frame.waits, Frame.holds]

theorem owed_connected (hM : Made s (f ::ₘ F)) (hm : Moves s f s' fs) (hh : h ∈ s'.handlers)
    (ho : (s'.heap h).owed = true) : h ∈ s.handlers := by
  cases hm with
  | connectPush mode =>
    rcases push_new hM hh with hh | hn
    · exact hh
    · exact absurd ho (by simp [show s.heap h = .new from hn, Handler.new])
  | disconnectErase k => exact List.mem_of_mem_filter hh
  | _ => exact hh

theorem delivering_move (hB : Inv s (f ::ₘ F)) (hS : Skipping s (f ::ₘ F)) (hI : Delivering h s (f ::ₘ F))
    (hD : emitsEnabled s f = true) (hm : Moves s f s' fs) : Delivering h s' (↑fs + F) where
  refused := refused_move hB.made hI hD hm
  behind := behind_move hB hS hI hD hm
  lost := lost_move hB.made hI hD hm
  enabled := enabled_move hB.made hS hI hD hm
  carried hh ho := owed_carried hI hD hm (owed_connected hB.made hm hh ho) ho
  pending hb hh ho _ _ _ hg hp := pending_move hB hI hD hm hb hh ho hp hg

theorem delivering_start (hI : Delivering h s F) (hs : Starts s f) : Delivering h s (f ::ₘ F) := by
  have hf : f.carries h = 0 ∧ f.waits h = 0 ∧ f.Behind h (s.heap h).skips ∧
      ∀ rest args p, f ≠ .emitBranch h rest args p := by
    rcases hs.cases with ⟨_, rfl⟩ | ⟨_, rfl⟩ | ⟨_, -, rfl⟩ | rfl <;>
      simp [Frame.carries, Frame.waits, Frame.Behind]
  obtain ⟨hc, hw, hb, hn⟩ := hf
  refine ⟨hI.refused, fun hh hd => Multiset.forall_mem_cons.mpr ⟨hb, hI.behind hh hd⟩, hI.lost, hI.enabled,
    fun hh ho => ?_, fun hm hh ho rest args p hg hp => ?_⟩
  · rw [weigh_cons, hc, zero_add]
    exact hI.carried hh ho
  · rw [weigh_cons, hw, Nat.zero_add]
    exact hI.pending hm hh ho rest args p ((Multiset.mem_cons.mp hg).resolve_left (hn _ _ _).symm) hp

/-! ## Runs -/

structure SkipInv (s : Shared α) (F : Multiset (Frame α)) : Prop where
  inv : Inv s F
  skipping : Skipping s F
  delivering : ∀ h, Delivering h s F

theorem initial_skipInv : SkipInv (initial (α := α)).shared 0 := by
  refine ⟨initial_inv, ⟨by simp, by simp, by simp, rfl⟩, fun h => ⟨?_, ?_, ?_, ?_, ?_, ?_⟩⟩ <;> simp [initial, Handler.new]

theorem SkipInv.queue (hI : SkipInv s F) (q : List (Invocation α)) : SkipInv { s with queued := q } F :=
  ⟨hI.inv.queue q, ⟨hI.skipping.known, hI.skipping.current, hI.skipping.disconnected, hI.skipping.stale⟩, fun h =>
    have hd := hI.delivering h
    ⟨hd.refused, hd.behind, hd.lost, hd.enabled, hd.carried, hd.pending⟩⟩

/-- No invocation that was queued before a `skip_all` is admitted, and while the
handler is connected no other one is refused. An emit after it leads to an
execution; unless the handler batches updates, it executes each emit or was
refused its invocation. -/
structure SkipsQueued (c : Config (Shared α) (Thread α)) : Prop where
  stale : c.shared.stale = false
  lost : ∀ h ∈ c.shared.handlers, (c.shared.heap h).lost = false
  owed : ∀ h ∈ c.shared.handlers, Settled h c → (c.shared.heap h).owed = false
  executed : ∀ h ∈ c.shared.handlers, h.mode ≠ .batchUpdates → Settled h c →
    ((c.shared.heap h).executed ++ (c.shared.heap h).refused).Perm (c.shared.heap h).emitted

/-- **Skipping.** While no emit takes the mutex with a connected handler that is
disabled, and no invocation of a connected handler starts while another is running:
`skip_all` refuses what was queued before it and nothing else, and every other
emit is executed by the handlers that stay connected. -/
theorem skipAll_delivers {tr : List (Config (Shared α) (Thread α) × Label (Choice α))}
    {c : Config (Shared α) (Thread α)} (hr : signal.Run initial tr c)
    (hD : Program.Along (fun c l => stepping emitsEnabled c l = true) tr) : SkipsQueued c := by
  have hI : SkipInv c.shared (pool c) := by
    refine run_pool initial_skipInv (fun _ _ q hI => hI.queue q) (fun s F f hI hs => ?_) (fun s F f s' fs hI hD hm => ?_)
      hr hD
    · exact ⟨hI.inv.start hs, skipping_start hI.skipping hs, fun h => delivering_start (hI.delivering h) hs⟩
    · exact ⟨hI.inv.move hm, skipping_move hI.inv.made hI.skipping hm,
        fun h => delivering_move hI.inv hI.skipping (hI.delivering h) hD hm⟩
  refine ⟨hI.skipping.stale, fun h hh => (hI.delivering h).lost hh, fun h hh hs => ?_, fun h _ hb hs => ?_⟩
  · refine Bool.eq_false_iff.mpr fun ho => ?_
    exact (hI.delivering h).carried hh ho (weigh_eq_zero.mpr hs)
  · have hc := hI.inv.carried h hb
    unfold Carried at hc
    rw [weigh_eq_zero.mpr hs, zero_add] at hc
    rw [← Multiset.coe_eq_coe, hc, Multiset.coe_add]

/-- A handler is skipped with an invocation queued; then it is disconnected, and
an emit finds another one. -/
def skipThenConnect : List (Label (Choice Nat)) :=
  [Label.call (Choice.connect .singleUpdates)] ++ steps 0 2 ++ [Label.call (Choice.emit 1)] ++ steps 1 4 ++
    [Label.call Choice.skipAll] ++ steps 2 4 ++ [Label.call (Choice.run 0)] ++ steps 3 1 ++
    [Label.call (Choice.disconnect ⟨.singleUpdates, 0⟩)] ++ steps 4 3 ++
    [Label.call (Choice.connect .batchUpdates)] ++ steps 5 2 ++ [Label.call (Choice.emit 2)] ++ steps 6 4 ++
    [Label.call (Choice.run 0)] ++ steps 7 3

theorem skipAll_delivers_connected : SkipsQueued (signal.last initial skipThenConnect) ∧
    ((signal.last initial skipThenConnect).shared.heap ⟨.batchUpdates, 1⟩).executed = [2] :=
  ⟨skipAll_delivers (Program.run_last (l := skipThenConnect) (by decide)) (by decide), by decide⟩

/-- The signal is emitted after `skip_all`: the handler is still connected and disabled. -/
def skipThenEmit : List (Label (Choice Nat)) :=
  [Label.call (Choice.connect .singleUpdates)] ++ steps 0 2 ++ [Label.call Choice.skipAll] ++ steps 1 4 ++
    [Label.call (Choice.emit 1)] ++ steps 2 4 ++ [Label.call (Choice.run 0)] ++ steps 3 1

theorem skipAll_silences : ¬ ∀ (tr : List (Config (Shared Nat) (Thread Nat) × Label (Choice Nat)))
    (c : Config (Shared Nat) (Thread Nat)), signal.Run initial tr c → SkipsQueued c := by
  intro hall
  have := (hall _ _ (Program.run_last (l := skipThenEmit) (by decide))).owed ⟨.singleUpdates, 0⟩ (by decide)
    (by unfold Settled; decide)
  exact absurd this (by decide)

end Xdispatch.Signal
