import Mathlib.Algebra.BigOperators.Group.Multiset.Basic
import Xdispatch.Signal.Invariant
import Xdispatch.SignalBarrier.Model

/-!
# What is under way in a signal barrier

The constructor and the function of the handler are calls on the signal at some
of their phases. Seen from the signal, the frames of the barrier are frames of
its own (`under`), so its invariants hold here too (`next_pool`).
-/

namespace Xdispatch.SignalBarrier

open Signal (HandlerId Invocation Starts Moves weigh waiting act_moves waiting_eraseIdx)

variable {α : Type}

namespace Frame

/-- The frames of the signal that the frame stands for. A call of the function is in
progress up to its end. -/
def signals : Frame α → List (Signal.Frame α)
  | .call f => [f]
  | .construct .connectLock => [.connectLock .singleUpdates]
  | .construct .connectPush => [.connectPush .singleUpdates]
  | .construct _ | .wait => []
  | .function inv (.disconnectLock h) => [.disconnectLock h, .invoke inv .running]
  | .function inv (.disconnectErase h) => [.disconnectErase h, .invoke inv .running]
  | .function inv (.disable h) => [.disable h none, .invoke inv .running]
  | .function inv (.disconnectEnd h) => [.disconnectEnd h, .invoke inv .running]
  | .function inv _ => [.invoke inv .running]

end Frame

def under (F : Multiset (Frame α)) : Multiset (Signal.Frame α) :=
  (F.map fun f => (f.signals : Multiset (Signal.Frame α))).sum

def pool (s : Shared α) (F : Multiset (Frame α)) : Multiset (Signal.Frame α) := waiting s.signal.queued + under F

section
variable {s s' : Shared α} {F : Multiset (Frame α)} {f : Frame α} {fs : List (Frame α)} {cur : HandlerId → Bool}
  {c c' : Config (Shared α) (Thread α)} {l : Label (Choice α)} {h : HandlerId}

@[simp] theorem under_zero : under (0 : Multiset (Frame α)) = 0 := rfl

@[simp] theorem under_cons (f : Frame α) (F : Multiset (Frame α)) : under (f ::ₘ F) = f.signals + under F := by
  simp [under]

@[simp] theorem under_add (F G : Multiset (Frame α)) : under (F + G) = under F + under G := by
  unfold under
  rw [Multiset.map_add, Multiset.sum_add]

@[simp] theorem under_coe_cons (f : Frame α) (fs : List (Frame α)) :
    under (↑(f :: fs) : Multiset (Frame α)) = f.signals + under (fs : Multiset (Frame α)) := by
  rw [← Multiset.cons_coe, under_cons]

@[simp] theorem under_coe_nil : under (([] : List (Frame α)) : Multiset (Frame α)) = 0 := rfl

theorem frame_signals (s : Shared α) (g : Signal.Frame α) : (s.frame g).signals = [g] := by
  unfold Shared.frame
  split
  · split <;> rfl
  · rfl

theorem under_frames (s : Shared α) (gs : List (Signal.Frame α)) :
    under ((gs.map s.frame : List (Frame α)) : Multiset (Frame α)) = gs := by
  induction gs with
  | nil => rfl
  | cons g gs ih =>
    rw [List.map_cons, under_coe_cons, ih, frame_signals, Multiset.coe_add]
    rfl

/-! ## What a step can do -/

/-- A thread may start `f`. -/
inductive Begins (s : Shared α) : Frame α → Prop
  | call (f : Signal.Frame α) : Starts s.signal f → Begins s (.call f)
  | wait : .values ∈ s.constructed → Begins s .wait

theorem start_begins {e : Choice α} (hs : e.start s = some f) : Begins s f := by
  unfold Choice.start at hs
  split at hs
  · split at hs
    · cases hs
    · simp only [Option.map_eq_some_iff] at hs
      obtain ⟨g, hg, rfl⟩ := hs
      exact .call g ⟨_, hg⟩
  · simp only [Option.map_eq_some_iff] at hs
    obtain ⟨g, hg, rfl⟩ := hs
    exact .call g ⟨_, hg⟩
  · split at hs
    next hv =>
      cases hs
      exact .wait hv
    · cases hs
  · cases hs

/-- A queue hands over an invocation, a call starts, a `wait` times out, or the
innermost call of a thread moves. -/
theorem next_frames (hn : signalBarrier.next c l = some c') :
    (∃ k inv, c.shared.signal.queued[k]? = some inv ∧
      c'.shared = { c.shared with signal := { c.shared.signal with queued := c.shared.signal.queued.eraseIdx k } } ∧
      Family.frames c'.threads = .call (.invoke inv .enter) ::ₘ Family.frames c.threads) ∨
    (∃ f, Begins c.shared f ∧ c'.shared = c.shared ∧ Family.frames c'.threads = f ::ₘ Family.frames c.threads) ∨
    (c'.shared = c.shared ∧ Family.frames c.threads = .wait ::ₘ Family.frames c'.threads) ∨
    ∃ i f stack fs F current, l = .act i (.call .step) ∧ c.threads[i]? = some (f :: stack) ∧
      f.act c.shared current = some (c'.shared, fs) ∧ Family.frames c.threads = f ::ₘ F ∧
      Family.frames c'.threads = ↑fs + F := by
  cases l with
  | call e =>
    obtain ⟨s, new, hc, rfl⟩ := Program.next_call hn
    change call c.shared e = some (s, new) at hc
    unfold call at hc
    split at hc <;> simp only [Option.map_eq_some_iff, Prod.mk.injEq] at hc
    · obtain ⟨inv, hk, rfl, rfl⟩ := hc
      refine Or.inl ⟨_, inv, hk, rfl, ?_⟩
      rw [Family.frames_append, Multiset.coe_singleton, add_comm, Multiset.singleton_add]
    · obtain ⟨f, hs, rfl, rfl⟩ := hc
      refine Or.inr (Or.inl ⟨f, start_begins hs, rfl, ?_⟩)
      rw [Family.frames_append, Multiset.coe_singleton, add_comm, Multiset.singleton_add]
  | act i e =>
    obtain ⟨t, s, t', new, ht, ha, rfl⟩ := Program.next_act hn
    change act c.shared t e = some (s, t', new) at ha
    unfold act at ha
    split at ha
    case h_1 f stack =>
      simp only [Option.map_eq_some_iff, Prod.mk.injEq] at ha
      obtain ⟨⟨s', fs⟩, ha, rfl, rfl, rfl⟩ := ha
      obtain ⟨F, hF, hset⟩ := Family.frames_step ht
      refine Or.inr (Or.inr (Or.inr ⟨i, f, stack, fs, F, _, rfl, ht, ha, hF, ?_⟩))
      rw [List.append_nil, hset]
    case h_2 stack =>
      cases ha
      obtain ⟨F, hF, hset⟩ := Family.frames_step ht
      refine Or.inr (Or.inr (Or.inl ⟨rfl, ?_⟩))
      have := hset []
      rw [List.nil_append, Multiset.coe_nil, zero_add] at this
      rw [List.append_nil, this, hF]
    case h_3 f stack _ _ =>
      split at ha
      · simp only [Option.map_eq_some_iff, Prod.mk.injEq] at ha
        obtain ⟨g, hs, rfl, rfl, rfl⟩ := ha
        obtain ⟨F, hF, hset⟩ := Family.frames_step ht
        refine Or.inr (Or.inl ⟨g, start_begins hs, rfl, ?_⟩)
        have := hset [g, f]
        simp only [List.cons_append, List.nil_append] at this
        rw [List.append_nil, this, hF, ← Multiset.cons_coe, Multiset.cons_add, Multiset.coe_singleton,
          Multiset.singleton_add]
      · cases ha
    case h_4 => cases ha

theorem step_eq {rest : Frame α} {g : Signal.Frame α} (ha : s.step cur g rest = some (s', fs)) :
    ∃ r, g.act s.signal cur = some r ∧ s' = { s with signal := r.1 } ∧ fs = [rest] := by
  simp only [Shared.step, Option.map_eq_some_iff, Prod.mk.injEq] at ha
  obtain ⟨r, hr, rfl, rfl⟩ := ha
  exact ⟨r, hr, rfl, rfl⟩

/-! ## What the signal sees of it -/

/-- The three kinds of step of a signal: its queues change, a call starts, a frame moves. -/
def SignalStep (s : Signal.Shared α) (P : Multiset (Signal.Frame α)) (s' : Signal.Shared α)
    (P' : Multiset (Signal.Frame α)) : Prop :=
  (∃ q, s' = { s with queued := q }) ∧ P' = P ∨ s' = s ∧ (∃ f, Starts s f ∧ P' = f ::ₘ P) ∨
    ∃ f fs Q, P = f ::ₘ Q ∧ Moves s f s' fs ∧ P' = ↑fs + Q

theorem SignalStep.same {P : Multiset (Signal.Frame α)} (s : Signal.Shared α) : SignalStep s P s P :=
  Or.inl ⟨⟨s.queued, rfl⟩, rfl⟩

theorem SignalStep.frame {s s' : Signal.Shared α} {g : Signal.Frame α} {gs : List (Signal.Frame α)}
    (ha : g.act s cur = some (s', gs)) (Q : Multiset (Signal.Frame α)) :
    SignalStep s (waiting s.queued + (g ::ₘ Q)) s' (waiting s'.queued + (↑gs + Q)) := by
  obtain ⟨hs, hm, hq⟩ := act_moves ha
  refine Or.inr (Or.inr ⟨g, hs, waiting s.queued + Q, ?_, hm, ?_⟩)
  · rw [Multiset.add_cons]
  · rw [← add_assoc, hq]
    abel

theorem begin_signalStep {g : Signal.Frame α} {rest : Frame α} (hg : Starts s.signal g)
    (hs : s'.signal = s.signal) (hrest : rest.signals = g :: f.signals) (F : Multiset (Frame α)) :
    SignalStep s.signal (pool s (f ::ₘ F)) s'.signal (pool s' (↑[rest] + F)) := by
  refine Or.inr (Or.inl ⟨hs, g, hg, ?_⟩)
  simp only [pool, hs, under_cons, under_add, under_coe_nil, hrest, zero_add, ← Multiset.cons_coe,
    Multiset.cons_add, Multiset.add_cons]

theorem step_signalStep (gs hs : List (Signal.Frame α)) {g : Signal.Frame α} {rest : Frame α}
    (ha : s.step cur g rest = some (s', fs)) (hr : ∀ t ks, g.act s.signal cur = some (t, ks) → ks = gs)
    (hf : f.signals = g :: hs) (hrest : rest.signals = gs ++ hs) (F : Multiset (Frame α)) :
    SignalStep s.signal (pool s (f ::ₘ F)) s'.signal (pool s' (↑fs + F)) := by
  obtain ⟨⟨t, ks⟩, hg, rfl, rfl⟩ := step_eq ha
  obtain rfl := hr t ks hg
  have := SignalStep.frame hg (hs + under F)
  simp only [pool, under_cons, under_add, under_coe_cons, under_coe_nil, hf, hrest]
  convert this using 2
  · rw [← Multiset.cons_coe, Multiset.cons_add]
  · rw [add_zero, ← Multiset.coe_add]
    abel

theorem act_signalStep (ha : f.act s cur = some (s', fs)) (hc : ∀ h, s.connection = some h → h.serial < s.signal.size)
    (F : Multiset (Frame α)) : SignalStep s.signal (pool s (f ::ₘ F)) s'.signal (pool s' (↑fs + F)) := by
  cases f with
  | call f =>
    simp only [Frame.act, Option.map_eq_some_iff, Prod.mk.injEq] at ha
    obtain ⟨⟨t, gs⟩, ha, rfl, rfl⟩ := ha
    have := SignalStep.frame ha (under F)
    simp only [pool, under_cons, under_add, under_frames, Frame.signals, Multiset.coe_singleton,
      Multiset.singleton_add]
    exact this
  | construct phase =>
    cases phase with
    | connectLock =>
      refine step_signalStep [.connectPush .singleUpdates] [] ha (fun t ks hg => ?_) rfl rfl F
      exact (Signal.lock_eq hg).2.2
    | connectPush =>
      refine step_signalStep [] [] ha (fun t ks hg => ?_) rfl rfl F
      cases hg
      rfl
    | barrier =>
      cases ha
      exact begin_signalStep ⟨.connect .singleUpdates, rfl⟩ rfl rfl F
    | signal | connectReturn | connection | values =>
      cases ha
      refine Or.inl ⟨⟨s.signal.queued, rfl⟩, ?_⟩
      simp [pool, Frame.signals, Shared.construct]
  | function inv phase =>
    cases phase with
    | disconnect =>
      cases ha
      cases hcon : s.connection with
      | none =>
        refine Or.inl ⟨⟨s.signal.queued, rfl⟩, ?_⟩
        simp [pool, Frame.signals, Shared.use]
      | some h =>
        refine begin_signalStep (g := .disconnectLock h) ⟨.disconnect h, ?_⟩ rfl rfl F
        simp [Signal.Choice.frame, hc h hcon]
    | disconnectLock h =>
      refine step_signalStep [.disconnectErase h] [.invoke inv .running] ha (fun t ks hg => ?_) rfl rfl F
      exact (Signal.lock_eq hg).2.2
    | disconnectErase h =>
      refine step_signalStep [.disable h none] [.invoke inv .running] ha (fun t ks hg => ?_) rfl rfl F
      cases hg
      rfl
    | disable h =>
      obtain ⟨⟨t, ks⟩, hg, rfl, rfl⟩ := step_eq ha
      cases hg
      have hm := Moves.disable (s := s.signal) h none (.disconnectEnd h) (Or.inr rfl)
      refine Or.inr (Or.inr ⟨_, _, waiting s.signal.queued + (.invoke inv .running ::ₘ under F), ?_, hm, ?_⟩)
      · simp only [pool, under_cons, Frame.signals, ← Multiset.cons_coe, Multiset.cons_add, Multiset.add_cons,
          Multiset.coe_nil, zero_add]
      · simp only [pool, under_cons, Frame.signals, ← Multiset.cons_coe, Multiset.cons_add, Multiset.add_cons,
          Multiset.coe_nil, zero_add, Signal.Shared.modify]
        exact Multiset.cons_swap ..
    | disconnectEnd h =>
      refine step_signalStep [] [.invoke inv .running] ha (fun t ks hg => ?_) rfl rfl F
      cases hg
      rfl
    | set | reset | complete =>
      cases ha
      refine Or.inl ⟨⟨s.signal.queued, rfl⟩, ?_⟩
      simp [pool, Frame.signals, Shared.use]
  | wait =>
    simp only [Frame.act] at ha
    split at ha <;> cases ha
    refine Or.inl ⟨⟨s.signal.queued, rfl⟩, ?_⟩
    simp [pool, Frame.signals]

theorem next_signalStep (hc : ∀ h, c.shared.connection = some h → h.serial < c.shared.signal.size)
    (hn : signalBarrier.next c l = some c') :
    SignalStep c.shared.signal (pool c.shared (Family.frames c.threads)) c'.shared.signal
      (pool c'.shared (Family.frames c'.threads)) := by
  rcases next_frames hn with ⟨k, inv, hk, hs, hf⟩ | ⟨f, hb, hs, hf⟩ | ⟨hs, hf⟩ | ⟨i, f, stack, fs, F, _, -, -, ha, hF, hf⟩
  · refine Or.inl ⟨⟨_, by rw [hs]⟩, ?_⟩
    simp only [pool, hs, hf, waiting_eraseIdx hk, under_cons, Frame.signals, Multiset.coe_singleton,
      Multiset.singleton_add, Multiset.cons_add, Multiset.add_cons]
  · rw [hs, hf]
    cases hb with
    | call g hg =>
      refine Or.inr (Or.inl ⟨rfl, g, hg, ?_⟩)
      simp only [pool, under_cons, Frame.signals, Multiset.coe_singleton, Multiset.singleton_add, Multiset.add_cons]
    | wait =>
      refine Or.inl ⟨⟨c.shared.signal.queued, rfl⟩, ?_⟩
      simp [pool, Frame.signals]
  · rw [hs, hf]
    refine Or.inl ⟨⟨c.shared.signal.queued, rfl⟩, ?_⟩
    simp [pool, Frame.signals]
  · rw [hF, hf]
    exact act_signalStep ha hc F

section
variable {s s' : Signal.Shared α} {P P' : Multiset (Signal.Frame α)}

theorem SignalStep.inv (h : SignalStep s P s' P') (hI : Signal.Inv s P) : Signal.Inv s' P' := by
  rcases h with ⟨⟨q, rfl⟩, rfl⟩ | ⟨rfl, f, hf, rfl⟩ | ⟨f, fs, Q, rfl, hm, rfl⟩
  · exact hI.queue q
  · exact hI.start hf
  · exact hI.move hm

theorem SignalStep.scoped (h : SignalStep s P s' P') {k : HandlerId} (hI : Signal.Scoped k s P) :
    Signal.Scoped k s' P' := by
  rcases h with ⟨⟨q, rfl⟩, rfl⟩ | ⟨rfl, f, hf, rfl⟩ | ⟨f, fs, Q, rfl, hm, rfl⟩
  · exact ⟨hI.one, hI.enabled⟩
  · exact Signal.scoped_start hI hf
  · exact Signal.scoped_move hI hm

end

end

end Xdispatch.SignalBarrier
