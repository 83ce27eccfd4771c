import Xdispatch.Signal.Updates

/-!
# The order of emits

An emit holds `m_CS` until it has queued an invocation for each handler, so any
two handlers that are connected have their invocations queued in the order in
which the emits have locked `m_CS`. A serial queue starts them in that order and
one at a time, so none of them finds the cancelable of its handler running.
-/

namespace Xdispatch.Signal

variable {α : Type}

/-! ## Serial queues -/

section
variable {Q : Type} [DecidableEq Q] (queueOf : HandlerId → Q) (q : Q)

/-- An invocation that queue `q` has started, and that has not ended but for its closure. -/
def Frame.occupies : Frame α → Bool
  | .invoke _ .dropping => false
  | .invoke inv _ => inv.handler.mode ≠ .synchronousUpdate && queueOf inv.handler = q
  | _ => false

/-- Queue `q` is serial: it starts the first of its invocations, and no other one is in progress. -/
def startsInTurn (c : Config (Shared α) (Thread α)) : Label (Choice α) → Bool
  | .call (.run k) =>
    match c.shared.queued[k]? with
    | some inv => queueOf inv.handler ≠ q || (c.shared.queued.take k).all (fun inv' => queueOf inv'.handler ≠ q) &&
        c.threads.all fun t => t.all fun f => !f.occupies queueOf q
    | none => true
  | _ => true

end

/-! ## Weights -/

/-- An invocation of `h` that a queue has started, and that has not ended but for its closure. -/
@[grind] def Frame.invokes (h : HandlerId) : Frame α → Nat
  | .invoke _ .dropping => 0
  | .invoke inv _ => if inv.handler = h then 1 else 0
  | _ => 0

/-- The arguments of an invocation of `h` that has not called the function. -/
@[grind] def Frame.enters (h : HandlerId) : Frame α → Multiset α
  | .invoke inv .enter | .invoke inv .admitted => if inv.handler = h then {inv.args} else 0
  | _ => 0

/-- The arguments of an emit that has yet to queue an invocation of `h`. -/
@[grind] def Frame.loops (h : HandlerId) : Frame α → Multiset α
  | .emitNext rest args => Multiset.replicate (rest.count h) args
  | .emitBranch k rest args _ => Multiset.replicate ((k :: rest).count h) args
  | _ => 0

def queuedArgs (h : HandlerId) (q : List (Invocation α)) : List α := (q.filter (·.handler = h)).map (·.args)

/-- What was emitted to `h` is executed, entering, queued and in the loop of an emit, in this order. -/
structure Ordered (h : HandlerId) (s : Shared α) (F : Multiset (Frame α)) : Prop where
  one : weigh (Frame.invokes h) F ≤ 1
  running : (s.heap h).cancelable.active = .running → 0 < weigh (Frame.scoped h) F
  refused : (s.heap h).refused = []
  args : ∃ e l : List α, ↑e = weigh (Frame.enters h) F ∧ ↑l = weigh (Frame.loops h) F ∧
    (s.heap h).emitted = (s.heap h).executed ++ e ++ queuedArgs h s.queued ++ l

section
variable {s s' : Shared α} {F F' : Multiset (Frame α)} {f : Frame α} {fs : List (Frame α)} {h : HandlerId}

@[simp] theorem modify_queued (s : Shared α) (h : HandlerId) (g : Handler α → Handler α) :
    (s.modify h g).queued = s.queued := rfl

theorem Ordered.same (hI : Ordered h s F) (he : (s'.heap h).emitted = (s.heap h).emitted)
    (hx : (s'.heap h).executed = (s.heap h).executed) (hr : (s'.heap h).refused = (s.heap h).refused)
    (hq : queuedArgs h s'.queued = queuedArgs h s.queued)
    (wi : weigh (Frame.invokes h) F' ≤ weigh (Frame.invokes h) F)
    (we : weigh (Frame.enters h) F' = weigh (Frame.enters h) F)
    (wl : weigh (Frame.loops h) F' = weigh (Frame.loops h) F)
    (hrun : (s'.heap h).cancelable.active = .running → 0 < weigh (Frame.scoped h) F') : Ordered h s' F' := by
  refine ⟨Nat.le_trans wi hI.one, hrun, hr.trans hI.refused, ?_⟩
  obtain ⟨e, l, h1, h2, h3⟩ := hI.args
  exact ⟨e, l, h1.trans we.symm, h2.trans wl.symm, by rw [he, hx, hq, h3]⟩

theorem Ordered.elsewhere (hI : Ordered h s F) (hh : s'.heap h = s.heap h)
    (hq : queuedArgs h s'.queued = queuedArgs h s.queued)
    (wi : weigh (Frame.invokes h) F' ≤ weigh (Frame.invokes h) F)
    (we : weigh (Frame.enters h) F' = weigh (Frame.enters h) F)
    (wl : weigh (Frame.loops h) F' = weigh (Frame.loops h) F)
    (ws : weigh (Frame.scoped h) F' = weigh (Frame.scoped h) F) : Ordered h s' F' := by
  refine hI.same ?_ ?_ ?_ hq wi we wl ?_
  · rw [hh]
  · rw [hh]
  · rw [hh]
  · rw [hh, ws]
    exact hI.running

theorem invokes_le_one (f : Frame α) : f.invokes h ≤ 1 := by
  cases f with
  | invoke inv p =>
    by_cases heq : inv.handler = h <;> cases p <;> simp [Frame.invokes, heq]
  | _ => exact Nat.zero_le _

theorem scoped_le_invokes (f : Frame α) : f.scoped h ≤ f.invokes h := by
  cases f with
  | invoke inv p => cases p <;> simp [Frame.invokes, Frame.scoped]
  | _ => exact Nat.le_refl _

theorem enters_of_invokes (f : Frame α) (h0 : f.invokes h = 0) : f.enters h = 0 := by
  cases f with
  | invoke inv p =>
    by_cases heq : inv.handler = h
    · cases p <;> simp_all [Frame.invokes, Frame.enters]
    · cases p <;> simp [Frame.enters, heq]
  | _ => rfl

/-- With one invocation of `h` in progress no other frame has anything of it. -/
theorem Ordered.others (hI : Ordered h s (f ::ₘ F)) (hf : f.invokes h = 1) :
    weigh (Frame.invokes h) F = 0 ∧ weigh (Frame.scoped h) F = 0 ∧ weigh (Frame.enters h) F = 0 := by
  have h1 := hI.one
  rw [weigh_cons, hf] at h1
  have h0 : weigh (Frame.invokes h) F = 0 := by omega
  refine ⟨h0, ?_, ?_⟩
  · rw [weigh_eq_zero] at h0 ⊢
    intro g hg
    have := scoped_le_invokes (h := h) g
    rw [h0 g hg] at this
    omega
  · exact weigh_eq_zero.mpr fun g hg => enters_of_invokes g (weigh_eq_zero.mp h0 g hg)

theorem enters_ending : ∀ g : Frame α, g.ending = true → g.enters h = 0
  | .invoke _ .completing, _ | .invoke _ .dropping, _ | .disconnectEnd _, _ | .disableWait .., _ | .skipNext _, _ => rfl

theorem loops_ending : ∀ g : Frame α, g.ending = true → g.loops h = 0
  | .invoke _ .completing, _ | .invoke _ .dropping, _ | .disconnectEnd _, _ | .disableWait .., _ | .skipNext _, _ => rfl

theorem Ordered.ending (hI : Ordered h s (f ::ₘ F)) (hfs : ∀ g ∈ fs, g.ending = true) (hh : s'.heap h = s.heap h)
    (hq : s'.queued = s.queued) (we : f.enters h = 0) (wl : f.loops h = 0) (ws : f.scoped h = 0)
    (wi : weigh (Frame.invokes h) ((fs : Multiset (Frame α)) + F) ≤ weigh (Frame.invokes h) (f ::ₘ F)) :
    Ordered h s' (↑fs + F) := by
  refine hI.elsewhere hh (by rw [hq]) wi ?_ ?_ ?_
  · rw [weigh_ending enters_ending hfs, weigh_cons, we, zero_add]
  · rw [weigh_ending loops_ending hfs, weigh_cons, wl, zero_add]
  · rw [weigh_ending scoped_ending hfs, weigh_cons, ws, Nat.zero_add]

theorem loops_of_holds (f : Frame α) (h0 : f.holds = 0) : f.loops h = 0 := by
  cases f with
  | emitNext | emitBranch => cases h0
  | _ => rfl

theorem ordered_start (hI : Ordered h s F) (hs : Starts s f) : Ordered h s (f ::ₘ F) := by
  have : f.invokes h = 0 ∧ f.scoped h = 0 ∧ f.enters h = 0 ∧ f.loops h = 0 := by
    rcases hs.cases with ⟨_, rfl⟩ | ⟨_, rfl⟩ | ⟨_, -, rfl⟩ | rfl <;> exact ⟨rfl, rfl, rfl, rfl⟩
  refine hI.same rfl rfl rfl rfl ?_ ?_ ?_ ?_
  · rw [weigh_cons, this.1, Nat.zero_add]
  · rw [weigh_cons, this.2.2.1, zero_add]
  · rw [weigh_cons, this.2.2.2, zero_add]
  · intro ha
    rw [weigh_cons, this.2.1, Nat.zero_add]
    exact hI.running ha

theorem replicate_eq {l : List α} {n : Nat} {a : α} (h : (l : Multiset α) = Multiset.replicate n a) :
    l = List.replicate n a := by
  rw [← Multiset.coe_replicate, Multiset.coe_eq_coe] at h
  exact List.perm_replicate.mp h

theorem ordered_run {inv : Invocation α} {k : Nat} (hI : Ordered h s F) (hk : s.queued[k]? = some inv)
    (hturn : inv.handler = h → (∀ inv' ∈ s.queued.take k, inv'.handler ≠ h) ∧ weigh (Frame.invokes h) F = 0) :
    Ordered h { s with queued := s.queued.eraseIdx k } (.invoke inv .enter ::ₘ F) := by
  have hq : s.queued = s.queued.take k ++ inv :: s.queued.drop (k + 1) := by
    obtain ⟨hlt, hget⟩ := List.getElem?_eq_some_iff.mp hk
    rw [← hget, List.getElem_cons_drop, List.take_append_drop]
  obtain ⟨e, l, h1, h2, h3⟩ := hI.args
  by_cases hh : inv.handler = h
  · obtain ⟨hbefore, hnone⟩ := hturn hh
    have he : weigh (Frame.enters h) F = 0 :=
      weigh_eq_zero.mpr fun g hg => enters_of_invokes g (weigh_eq_zero.mp hnone g hg)
    rw [he, Multiset.coe_eq_zero] at h1
    subst h1
    refine ⟨?_, ?_, hI.refused, [inv.args], l, ?_, ?_, ?_⟩
    · rw [weigh_cons, hnone, Nat.add_zero]
      exact invokes_le_one _
    · intro ha
      rw [weigh_cons]
      have := hI.running ha
      omega
    · rw [weigh_cons, he]
      simp [Frame.enters, hh]
    · rw [weigh_cons, h2]
      exact (zero_add _).symm
    · have htake : (s.queued.take k).filter (fun i => decide (i.handler = h)) = [] := by
        rw [List.filter_eq_nil_iff]
        intro i hi
        simpa using hbefore i hi
      rw [h3]
      unfold queuedArgs
      simp only [List.append_nil]
      rw [List.eraseIdx_eq_take_drop_succ, List.filter_append, htake]
      conv_lhs => rw [hq, List.filter_append, htake, List.nil_append, List.filter_cons_of_pos (by simpa using hh)]
      simp
  · refine ⟨?_, ?_, hI.refused, e, l, ?_, ?_, ?_⟩
    · rw [weigh_cons]
      simpa [Frame.invokes, hh] using hI.one
    · intro ha
      rw [weigh_cons]
      have := hI.running ha
      omega
    · rw [weigh_cons, h1]
      simp [Frame.enters, hh]
    · rw [weigh_cons, h2]
      exact (zero_add _).symm
    · have : queuedArgs h (s.queued.eraseIdx k) = queuedArgs h s.queued := by
        unfold queuedArgs
        rw [List.eraseIdx_eq_take_drop_succ]
        conv_rhs => rw [hq, List.filter_append, List.filter_cons_of_neg (by simpa using hh)]
        rw [List.filter_append]
      simp only [this]
      exact h3

theorem leave_active_ne (c : Cancelable) : c.leave.active ≠ .running := by
  unfold Cancelable.leave
  split
  · simp
  next hr => simpa [Cancelable.leaves] using hr

theorem ordered_other {inv : Invocation α} {p : InvokePhase} (hI : Ordered h s (.invoke inv p ::ₘ F))
    (hm : Moves s (.invoke inv p) s' fs) (hk : inv.handler ≠ h) : Ordered h s' (↑fs + F) := by
  have h0 : (∀ q, (Frame.invoke inv q).invokes h = 0) ∧ (∀ q, (Frame.invoke inv q).enters h = 0) ∧
      ∀ q, (Frame.invoke inv q).scoped h = 0 := by
    refine ⟨fun q => ?_, fun q => ?_, fun q => ?_⟩
    · cases q <;> simp [Frame.invokes, hk]
    · cases q <;> simp [Frame.enters, hk]
    · cases q <;> simp [Frame.scoped, hk]
  cases hm with
  | leave _ phase hp =>
    refine hI.ending (leave_ending inv hp) ?_ rfl (h0.2.1 _) rfl (h0.2.2 _) ?_
    · simp [hk]
    · simp [h0.1]
  | _ =>
    refine hI.elsewhere ?_ rfl ?_ ?_ ?_ ?_
    · simp [hk]
    · simp [h0.1]
    · simp [h0.2.1]
    · simp [Frame.loops]
    · simp [h0.2.2]

/-- An emit that locks `m_CS` is the last of those that have come to `h`. -/
theorem ordered_emitLock {args : α} (hI : Ordered h s (.emitLock args ::ₘ F)) (hnd : s.handlers.Nodup)
    (hloops : weigh (Frame.loops h) (.emitLock args ::ₘ F) = 0) :
    Ordered h (s.emit args) (↑[Frame.emitNext s.handlers args] + F) := by
  by_cases hh : h ∈ s.handlers
  · obtain ⟨e, l, h1, h2, h3⟩ := hI.args
    rw [hloops, Multiset.coe_eq_zero] at h2
    subst h2
    rw [weigh_cons] at h1 hloops
    simp only [Frame.enters, zero_add] at h1
    simp only [Frame.loops, zero_add] at hloops
    refine ⟨?_, ?_, by simpa [hh, Handler.emit] using hI.refused, e, [args], ?_, ?_, ?_⟩
    · simpa [Frame.invokes] using hI.one
    · simpa [Frame.scoped, hh, Handler.emit] using hI.running
    · simpa [Frame.enters] using h1
    · simp [Frame.loops, hloops, List.count_eq_one_of_mem hnd hh]
    · simp only [emit_heap, if_pos hh, Handler.emit, h3, List.append_nil]
      rfl
  · refine hI.elsewhere ?_ rfl ?_ ?_ ?_ ?_
    · simp [hh]
    · simp [Frame.invokes]
    · simp [Frame.enters]
    · simp [Frame.loops, List.count_eq_zero_of_not_mem hh]
    · simp [Frame.scoped]

theorem ordered_execute {inv : Invocation α} (hI : Ordered inv.handler s (.invoke inv .admitted ::ₘ F)) :
    Ordered inv.handler (s.modify inv.handler (.execute inv.args)) (↑[Frame.invoke inv .running] + F) := by
  have hothers := hI.others (by simp [Frame.invokes])
  obtain ⟨e, l, h1, h2, h3⟩ := hI.args
  simp only [weigh_cons, hothers.2.2, Frame.enters, if_true, add_zero, Multiset.coe_eq_singleton] at h1
  rw [weigh_cons] at h2
  subst h1
  refine ⟨?_, ?_, by simpa [Handler.execute] using hI.refused, [], l, ?_, ?_, ?_⟩
  · simpa [Frame.invokes] using hI.one
  · intro _
    rw [weigh_coe_cons]
    simp only [Frame.scoped, if_true]
    omega
  · simp [Frame.enters, hothers.2.2]
  · simpa [Frame.loops] using h2
  · simp [Handler.execute, h3]

/-- The cancelable does not refuse the only invocation in progress. -/
theorem Ordered.admits {inv : Invocation α} (hI : Ordered inv.handler s (.invoke inv .enter ::ₘ F))
    (hen : (s.heap inv.handler).cancelable.active ≠ .disabled) : s.admits inv.handler = true := by
  have hothers := hI.others (by simp [Frame.invokes])
  have hrun := hI.running
  rw [weigh_cons, hothers.2.1] at hrun
  cases hact : (s.heap inv.handler).cancelable.active with
  | disabled => exact absurd hact hen
  | running => exact absurd (hrun hact) (Nat.lt_irrefl 0)
  | enabled => simp [Shared.admits, Cancelable.admits, hact]

theorem ordered_leave {inv : Invocation α} {phase : InvokePhase}
    (hI : Ordered inv.handler s (.invoke inv .running ::ₘ F)) (hp : phase = .dropping ∨ phase = .completing) :
    Ordered inv.handler (s.modify inv.handler .leave) (↑[Frame.invoke inv phase] + F) := by
  refine hI.same ?_ ?_ ?_ rfl ?_ ?_ ?_ ?_
  · simp [Handler.leave]
  · simp [Handler.leave]
  · simp [Handler.leave]
  · rcases hp with rfl | rfl <;> simp [Frame.invokes]
  · rw [weigh_ending enters_ending (leave_ending inv hp)]
    simp [Frame.enters]
  · rw [weigh_ending loops_ending (leave_ending inv hp)]
    simp [Frame.loops]
  · intro hrun
    simp only [modify_heap, if_true] at hrun
    exact absurd hrun (leave_active_ne _)

theorem ordered_move (hI : Ordered h s (f ::ₘ F)) (hm : Moves s f s' fs)
    (hb : ∀ k rest args p, f ≠ .emitBranch k rest args p) (hen : (s'.heap h).cancelable.active ≠ .disabled)
    (hnd : s.handlers.Nodup)
    (hlock : s.locked = false → weigh (Frame.loops h) (f ::ₘ F) = 0) : Ordered h s' (↑fs + F) := by
  by_cases hother : ∃ inv p, f = .invoke inv p ∧ inv.handler ≠ h
  · obtain ⟨inv, p, rfl, hk⟩ := hother
    exact ordered_other hI hm hk
  have hself : ∀ inv p, f = .invoke inv p → inv.handler = h := fun inv p hf =>
    Classical.byContradiction fun hk => hother ⟨inv, p, hf, hk⟩
  cases hm with
  | emitLock args hl => exact ordered_emitLock hI hnd (hlock hl)
  | increment k rest args =>
    have hk : ∀ (x : Handler α), (Handler.increment x).emitted = x.emitted ∧ (Handler.increment x).executed = x.executed ∧
        (Handler.increment x).refused = x.refused ∧ (Handler.increment x).cancelable = x.cancelable :=
      fun _ => ⟨rfl, rfl, rfl, rfl⟩
    refine hI.same ?_ ?_ ?_ rfl ?_ ?_ ?_ ?_
    · by_cases hkh : k = h <;> simp [hkh, hk]
    · by_cases hkh : k = h <;> simp [hkh, hk]
    · by_cases hkh : k = h <;> simp [hkh, hk]
    · simp [Frame.invokes]
    · simp [Frame.enters]
    · simp [Frame.loops]
    · by_cases hkh : k = h <;> simpa [Frame.scoped, hkh, hk] using hI.running
  | invoke k rest args p q hp => exact absurd rfl (hb k rest args p)
  | decrement k rest args p hb' hp => exact absurd rfl (hb k rest args p)
  | enter inv ha =>
    obtain rfl := hself _ _ rfl
    refine hI.same ?_ ?_ ?_ rfl ?_ ?_ ?_ ?_
    · simp [Handler.enter]
    · simp [Handler.enter]
    · simp [Handler.enter]
    · simp [Frame.invokes]
    · simp [Frame.enters]
    · simp [Frame.loops]
    · intro _
      rw [weigh_coe_cons]
      simp only [Frame.scoped, if_true]
      omega
  | refuse inv hr =>
    obtain rfl := hself _ _ rfl
    have := hI.admits (by simpa [Handler.refuse] using hen)
    rw [hr] at this
    cases this
  | execute inv =>
    obtain rfl := hself _ _ rfl
    exact ordered_execute hI
  | leave inv phase hp =>
    obtain rfl := hself _ _ rfl
    exact ordered_leave hI hp
  | complete inv =>
    obtain rfl := hself _ _ rfl
    refine hI.same ?_ ?_ ?_ rfl ?_ ?_ ?_ ?_
    · simp [Handler.complete]
    · simp [Handler.complete]
    · simp [Handler.complete]
    · simp [Frame.invokes]
    · simp [Frame.enters]
    · simp [Frame.loops]
    · simpa [Frame.scoped, Handler.complete, Cancelable.complete] using hI.running
  | disable k skip g hg =>
    have hk : k ≠ h := by
      rintro rfl
      simp [Handler.disable, Cancelable.disable] at hen
    have hle : weigh (Frame.invokes h) (g ::ₘ F) ≤ weigh (Frame.invokes h) (.disable k skip ::ₘ F) := by
      rcases hg with rfl | rfl <;> cases skip <;> simp [Frame.invokes, Frame.disabled]
    exact hI.ending (disable_ending hg) (by simp [hk]) rfl rfl rfl rfl hle
  | disableWait k skip =>
    have hle : weigh (Frame.invokes h) (.disabled k skip ::ₘ F) ≤ weigh (Frame.invokes h) (.disableWait k skip ::ₘ F) := by
      cases skip <;> simp [Frame.invokes, Frame.disabled]
    exact hI.ending (disabled_ending k skip) rfl rfl rfl rfl rfl hle
  | _ =>
    refine hI.elsewhere rfl rfl ?_ ?_ ?_ ?_
    · simp [Frame.invokes]
    · simp [Frame.enters]
    · simp [Frame.loops]
    · simp [Frame.scoped]

theorem ordered_branch {k : HandlerId} {rest : List HandlerId} {args : α} {p : Int} {current : HandlerId → Bool}
    (hs : h.mode = .singleUpdates) (hI : Ordered h s (.emitBranch k rest args p ::ₘ F))
    (ha : (Frame.emitBranch k rest args p).act s current = some (s', fs)) (hF : weigh (Frame.loops h) F = 0) :
    Ordered h s' (↑fs + F) := by
  have hold := hI.running
  rw [weigh_cons] at hold
  simp only [Frame.act] at ha
  by_cases hk : k = h
  · subst hk
    rw [if_neg (by simp [hs]), if_pos (Or.inl hs)] at ha
    cases ha
    obtain ⟨e, l, h1, h2, h3⟩ := hI.args
    simp only [weigh_cons, Frame.loops, hF, add_zero, List.count_cons_self] at h2
    rw [weigh_cons] at h1
    have hl := replicate_eq h2
    subst hl
    refine ⟨?_, ?_, hI.refused, e, List.replicate (rest.count k) args, ?_, ?_, ?_⟩
    · simpa [Frame.invokes] using hI.one
    · simpa [Frame.scoped, Shared.queue] using hI.running
    · simpa [Frame.enters] using h1
    · simp [Frame.loops, hF, ← Multiset.coe_replicate]
    · rw [List.replicate_succ] at h3
      simpa [Shared.queue, queuedArgs, Shared.invocation] using h3
  · split at ha
    · cases ha
      refine hI.elsewhere rfl rfl ?_ ?_ ?_ ?_
      · simp [Frame.invokes, Shared.invocation, hk]
      · simp [Frame.enters, Shared.invocation, hk]
      · simp [Frame.loops, hk]
      · simp [Frame.scoped]
    split at ha
    · cases ha
      refine hI.elsewhere rfl ?_ ?_ ?_ ?_ ?_
      · simp [queuedArgs, Shared.queue, Shared.invocation, hk]
      · simp [Frame.invokes]
      · simp [Frame.enters]
      · simp [Frame.loops, hk]
      · simp [Frame.scoped]
    · cases ha
      refine hI.elsewhere ?_ rfl ?_ ?_ ?_ ?_
      · simp [hk]
      · simp [Frame.invokes]
      · simp [Frame.enters]
      · simp [Frame.loops, hk]
      · simp [Frame.scoped]

end

/-! ## Runs -/

theorem mem_frames {l : List (Thread α)} {f : Frame α} (hf : f ∈ Family.frames l) : ∃ t ∈ l, f ∈ t := by
  induction l with
  | nil => exact absurd hf (Multiset.notMem_zero f)
  | cons t l ih =>
    rw [Family.frames, Family.total_cons, Multiset.mem_add] at hf
    rcases hf with hf | hf
    · exact ⟨t, List.mem_cons_self .., hf⟩
    · obtain ⟨u, hu, hf⟩ := ih hf
      exact ⟨u, List.mem_cons_of_mem _ hu, hf⟩

theorem act_queued {s s' : Shared α} {f : Frame α} {fs : List (Frame α)} {current : HandlerId → Bool}
    (ha : f.act s current = some (s', fs)) (hb : ∀ k rest args p, f ≠ .emitBranch k rest args p) :
    s'.queued = s.queued := by
  cases f with
  | emitBranch k rest args p => exact absurd rfl (hb k rest args p)
  | emitLock | connectLock | disconnectLock | skipLock =>
    obtain ⟨-, rfl, -⟩ := lock_eq ha
    rfl
  | emitNext rest | skipNext rest => cases rest <;> cases ha <;> rfl
  | invoke inv p =>
    cases p with
    | enter =>
      simp only [Frame.act] at ha
      split at ha <;> cases ha <;> rfl
    | _ =>
      cases ha
      rfl
  | disableWait =>
    simp only [Frame.act] at ha
    split at ha <;> cases ha
    rfl
  | connectPush | disconnectErase | disconnectEnd | disable =>
    cases ha
    rfl

def Frame.emits : Frame α → List α
  | .emitLock args => [args]
  | _ => []

/-- The arguments of an emit that locks `m_CS` with this step. -/
def emits : Config (Shared α) (Thread α) × Label (Choice α) → List α
  | (c, .act i .step) =>
    match c.threads[i]? with
    | some (f :: _) => f.emits
    | _ => []
  | _ => []

section
variable {c c' : Config (Shared α) (Thread α)} {l : Label (Choice α)} {h : HandlerId}
  {Q : Type} [DecidableEq Q] {queueOf : HandlerId → Q}

theorem turn_alone (hs : h.mode = .singleUpdates) {k : Nat} {inv : Invocation α} (hk : c.shared.queued[k]? = some inv)
    (hC : startsInTurn queueOf (queueOf h) c (.call (.run k)) = true) (hh : inv.handler = h) :
    (∀ inv' ∈ c.shared.queued.take k, inv'.handler ≠ h) ∧ weigh (Frame.invokes h) (Family.frames c.threads) = 0 := by
  simp only [startsInTurn, hk, hh, ne_eq, not_true_eq_false, decide_false, Bool.false_or, Bool.and_eq_true,
    List.all_eq_true, decide_eq_true_eq, Bool.not_eq_true'] at hC
  refine ⟨fun inv' hm heq => hC.1 inv' hm (by rw [heq]), ?_⟩
  rw [weigh_eq_zero]
  intro f hf
  obtain ⟨t, ht, hf⟩ := mem_frames hf
  have := hC.2 t ht f hf
  cases f with
  | invoke inv' p =>
    by_cases heq : inv'.handler = h
    · rw [← heq] at hs this ⊢
      cases p with
      | dropping => rfl
      | _ => simp [Frame.occupies, hs] at this
    · cases p <;> simp [Frame.invokes, heq]
  | _ => rfl

theorem next_ordered (hs : h.mode = .singleUpdates) (hP : Inv c.shared (pool c))
    (hI : (c.shared.heap h).cancelable.active ≠ .disabled → Ordered h c.shared (Family.frames c.threads))
    (hC : startsInTurn queueOf (queueOf h) c l = true) (hn : signal.next c l = some c') :
    (c'.shared.heap h).cancelable.active ≠ .disabled → Ordered h c'.shared (Family.frames c'.threads) := by
  intro hen
  rcases next_frames hn with ⟨k, inv, rfl, hk, hs', hf⟩ | ⟨-, -, hs', f, hst, hf⟩ |
    ⟨i, f, stack, fs, F, current, rfl, ht, ha, hF, hf⟩
  · rw [hs'] at hen ⊢
    rw [hf]
    exact ordered_run (hI hen) hk (turn_alone hs hk hC)
  · rw [hs'] at hen ⊢
    rw [hf]
    exact ordered_start (hI hen) ⟨_, hst⟩
  · have hpool : pool c = f ::ₘ (waiting c.shared.queued + F) := by simp [pool, hF]
    rw [hpool] at hP
    obtain ⟨gs, hm, hq⟩ := act_moves ha
    have hI := hI (moves_enabled hm hen)
    rw [hF] at hI
    rw [hf]
    by_cases hb : ∃ k rest args p, f = .emitBranch k rest args p
    · obtain ⟨k, rest, args, p, rfl⟩ := hb
      refine ordered_branch hs hI ha (weigh_eq_zero.mpr fun g hg => loops_of_holds g ?_)
      exact hP.alone rfl g (Multiset.mem_add.mpr (Or.inr hg))
    · have hb' : ∀ k rest args p, f ≠ .emitBranch k rest args p := fun k rest args p heq => hb ⟨k, rest, args, p, heq⟩
      rw [act_queued ha hb'] at hq
      rw [add_left_cancel hq]
      refine ordered_move hI hm hb' hen hP.made.nodup fun hl => ?_
      have hlocked := hP.locked
      unfold Locked at hlocked
      rw [hl, Bool.toNat_false] at hlocked
      refine weigh_eq_zero.mpr fun g hg => loops_of_holds g (weigh_eq_zero.mp hlocked g ?_)
      rcases Multiset.mem_cons.mp hg with rfl | hg
      · exact Multiset.mem_cons_self ..
      · exact Multiset.mem_cons_of_mem (Multiset.mem_add.mpr (Or.inr hg))

theorem run_ordered {tr : List (Config (Shared α) (Thread α) × Label (Choice α))} (hr : signal.Run initial tr c)
    (hs : h.mode = .singleUpdates) (hC : Program.Along (fun c l => startsInTurn queueOf (queueOf h) c l = true) tr)
    (hen : (c.shared.heap h).cancelable.active ≠ .disabled) : Ordered h c.shared (Family.frames c.threads) := by
  induction hr with
  | nil =>
    refine ⟨Nat.zero_le _, ?_, rfl, [], [], rfl, rfl, rfl⟩
    intro ha
    cases ha
  | @snoc tr c l c' hr hn ih =>
    obtain ⟨hC, hl⟩ := Program.along_snoc.mp hC
    exact next_ordered hs (run_inv hr) (ih hC) hl hn hen

theorem moves_emitted {s s' : Shared α} {f : Frame α} {fs : List (Frame α)} (hm : Moves s f s' fs) (hh : h ∈ s.handlers) :
    (s'.heap h).emitted = (s.heap h).emitted ++ f.emits := by
  cases hm with
  | emitLock args hl => simp [hh, Handler.emit, Frame.emits]
  | _ => grind [Frame.emits]

/-- While `h` is connected it is passed the emits in the order in which they lock `m_CS`. -/
theorem next_emitted (hh : h ∈ c.shared.handlers) (hn : signal.next c l = some c') :
    (c'.shared.heap h).emitted = (c.shared.heap h).emitted ++ emits (c, l) := by
  rcases next_frames hn with ⟨k, inv, rfl, hk, hs', hf⟩ | ⟨hl, -, hs', f, hst, hf⟩ |
    ⟨i, f, stack, fs, F, current, rfl, ht, ha, hF, hf⟩
  · rw [hs']
    exact (List.append_nil _).symm
  · rw [hs']
    have : emits (c, l) = [] := by
      cases l with
      | call e => rfl
      | act i e =>
        cases e with
        | step => exact absurd rfl (hl i)
        | _ => rfl
    rw [this, List.append_nil]
  · obtain ⟨gs, hm, hq⟩ := act_moves ha
    simp only [emits, ht]
    exact moves_emitted hm hh

theorem run_emitted {c₀ : Config (Shared α) (Thread α)} {tr : List (Config (Shared α) (Thread α) × Label (Choice α))}
    (hr : signal.Run c₀ tr c) (hh : ∀ p ∈ tr, h ∈ p.1.shared.handlers) :
    (c.shared.heap h).emitted = (c₀.shared.heap h).emitted ++ tr.flatMap emits := by
  induction hr with
  | nil => exact (List.append_nil _).symm
  | @snoc tr c l c' hr hn ih =>
    rw [next_emitted (hh (c, l) (by simp)) hn, ih fun p hp => hh p (List.mem_append_left _ hp)]
    simp

/-- What a handler is executed with, from one state to a later one with the emits
`E` in between, is a prefix of what was emitted; nothing of it is refused. -/
structure InOrder (E : List α) (before after : Handler α) : Prop where
  emitted : after.emitted = before.emitted ++ E
  executed : after.executed <+: after.emitted
  period : after.executed.drop before.emitted.length <+: E
  refused : after.refused = []

theorem Ordered.inOrder {s : Shared α} {F : Multiset (Frame α)} {E : List α} {before : Handler α} (hI : Ordered h s F)
    (he : (s.heap h).emitted = before.emitted ++ E) : InOrder E before (s.heap h) := by
  obtain ⟨e, l, -, -, hargs⟩ := hI.args
  have hpre : (s.heap h).executed <+: (s.heap h).emitted := by
    rw [hargs, List.append_assoc, List.append_assoc]
    exact List.prefix_append _ _
  refine ⟨he, hpre, ?_, hI.refused⟩
  obtain ⟨rest, hrest⟩ := hpre
  have hd := congrArg (List.drop before.emitted.length) hrest
  rw [he, List.drop_left, List.drop_append] at hd
  exact ⟨_, hd⟩

/-- Two handlers with single updates on serial queues agree on the order of emits,
while they are connected and not disabled. -/
theorem run_emitOrder {c₀ : Config (Shared α) (Thread α)} {tr₀ tr : List (Config (Shared α) (Thread α) × Label (Choice α))}
    {k : HandlerId} (queueOf : HandlerId → Q) (h₀ : signal.Run initial tr₀ c₀) (hr : signal.Run c₀ tr c)
    (hh : h.mode = .singleUpdates) (hk : k.mode = .singleUpdates)
    (hC : Program.Along (fun c l => startsInTurn queueOf (queueOf h) c l = true ∧
      startsInTurn queueOf (queueOf k) c l = true) (tr₀ ++ tr))
    (hconn : ∀ p ∈ tr, h ∈ p.1.shared.handlers ∧ k ∈ p.1.shared.handlers)
    (hen : (c.shared.heap h).cancelable.active ≠ .disabled ∧ (c.shared.heap k).cancelable.active ≠ .disabled) :
    InOrder (tr.flatMap emits) (c₀.shared.heap h) (c.shared.heap h) ∧
      InOrder (tr.flatMap emits) (c₀.shared.heap k) (c.shared.heap k) := by
  have hrun := h₀.append hr
  constructor
  · exact (run_ordered hrun hh (fun p hp => (hC p hp).1) hen.1).inOrder (run_emitted hr fun p hp => (hconn p hp).1)
  · exact (run_ordered hrun hk (fun p hp => (hC p hp).2) hen.2).inOrder (run_emitted hr fun p hp => (hconn p hp).2)

end

end Xdispatch.Signal
