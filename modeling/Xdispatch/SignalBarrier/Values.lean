import Xdispatch.SignalBarrier.Invariant

/-!
# The values of a signal barrier

A queue may call the function of the handler before the constructor has come to
the members that the function uses. Where it comes to `m_values` after that, the
function is called once, and has disconnected its handler when it completes the
barrier, so the values are those of one emit for good.
-/

namespace Xdispatch.SignalBarrier

open Signal (HandlerId Invocation Moves weigh)

variable {α : Type}

/-- The function comes to its first statement when the last member has been constructed. -/
def setsConstructed (c : Config (Shared α) (Thread α)) : Label (Choice α) → Bool
  | .act i (.call .step) =>
    match c.threads[i]? with
    | some (.function _ .set :: _) => .values ∈ c.shared.constructed
    | _ => true
  | _ => true

/-- The arguments that the function of the handler has been called with. -/
def executed (s : Shared α) : List α :=
  match s.handler with
  | some h => (s.signal.heap h).executed
  | none => []

/-- The function has used constructed members only, and what `values` returns once
`wait` has returned true is, from then on, what one emit carried. -/
structure Kept (s : Shared α) : Prop where
  constructed : s.misused = false
  values : ∀ v, s.answer = some v → s.values = .ok v ∧ ∃ h a, s.handler = some h ∧ v = some a ∧
    (s.signal.heap h).executed = [a] ∧ a ∈ (s.signal.heap h).emitted

/-! ## The constructor -/

/-- The members that are constructed at the phase. -/
def ConstructPhase.members : ConstructPhase → List Member
  | .signal => []
  | .barrier => [.signal]
  | .connectLock | .connectPush | .connectReturn | .connection => [.signal, .barrier]
  | .values => [.signal, .barrier, .connection]

def ConstructPhase.registered : ConstructPhase → Bool
  | .signal | .barrier | .connectLock | .connectPush => false
  | .connectReturn | .connection | .values => true

def Frame.constructs : Frame α → Nat
  | .construct _ => 1
  | _ => 0

structure Built (s : Shared α) (F : Multiset (Frame α)) : Prop where
  one : (F.map Frame.constructs).sum ≤ 1
  phase : ∀ p, .construct p ∈ F → s.constructed = p.members ∧ s.handler.isSome = p.registered
  all : .values ∈ s.constructed → s.constructed = [.signal, .barrier, .connection, .values]

/-! ## The function -/

def disabled (s : Shared α) (h : HandlerId) : Prop := (s.signal.heap h).cancelable.active = .disabled

/-- What is in force at a phase of the function, which is that of `h`. -/
def FunctionPhase.Fits (s : Shared α) (h : HandlerId) : FunctionPhase → Prop
  | .set => False
  | .disconnect => s.connection = some h
  | .disconnectLock k | .disconnectErase k | .disable k => k = h
  | .disconnectEnd _ | .reset | .complete => disabled s h

/-- Before the call of the function, in the call before `m_values` is set and after
that, and after the call. -/
inductive Stage (s : Shared α) (F : Multiset (Frame α)) : Prop
  | waiting : executed s = [] → (∀ inv p, Frame.function inv p ∉ F) → s.completed = false → s.answer = none →
    (.connection ∈ s.constructed → s.connection = s.handler) → Stage s F
  | calling (inv : Invocation α) : executed s = [inv.args] → .function inv .set ∈ F → s.completed = false →
    s.answer = none → (.connection ∈ s.constructed → s.connection = s.handler) → Stage s F
  | called (inv : Invocation α) (p : FunctionPhase) : executed s = [inv.args] → .function inv p ∈ F →
    p.Fits s inv.handler → .values ∈ s.constructed → s.stored = some inv.args → s.completed = false →
    s.answer = none → Stage s F
  | done (h : HandlerId) (a : α) : s.handler = some h → executed s = [a] → disabled s h →
    (∀ inv p, Frame.function inv p ∉ F) → (∀ inv, inv.handler = h → Frame.call (.invoke inv .admitted) ∉ F) →
    .values ∈ s.constructed → s.stored = some a → s.completed = true →
    s.answer = none ∨ s.answer = some (some a) → Stage s F

structure Local (s : Shared α) (F : Multiset (Frame α)) : Prop where
  built : Built s F
  made : ∀ h, s.handler = some h → h.serial < s.signal.size ∧ h.mode = .singleUpdates
  connection : ∀ h, s.connection = some h → s.handler = some h
  function : ∀ inv p, .function inv p ∈ F → s.handler = some inv.handler
  stage : Stage s F
  used : s.misused = false

structure Inv (s : Shared α) (F : Multiset (Frame α)) : Prop extends Local s F where
  signal : Signal.Inv s.signal (pool s F)
  scope : ∀ h, Signal.Scoped h s.signal (pool s F)

section
variable {s s' : Shared α} {F R : Multiset (Frame α)} {f : Frame α} {fs : List (Frame α)} {cur : HandlerId → Bool}
  {h : HandlerId}

/-! ## Steps of the signal -/

/-- What a step of a frame of the signal puts in place other than invocations that
are yet to enter, one of `Moves` does too. -/
theorem mem_of_act {s t : Signal.Shared α} {f g : Signal.Frame α} {gs : List (Signal.Frame α)}
    (ha : f.act s cur = some (t, gs)) (hg : g ∈ gs) (hne : ∀ inv, g ≠ .invoke inv .enter) :
    ∃ ks, Moves s f t ks ∧ g ∈ ks := by
  obtain ⟨ks, hm, hq⟩ := Signal.act_moves ha
  refine ⟨ks, hm, ?_⟩
  have hmem : g ∈ Signal.waiting s.queued + (ks : Multiset (Signal.Frame α)) := by
    rw [← hq]
    exact Multiset.mem_add.mpr (Or.inr (Multiset.mem_coe.mpr hg))
  rcases Multiset.mem_add.mp hmem with hw | hk
  · obtain ⟨inv, -, rfl⟩ := List.mem_map.mp (Multiset.mem_coe.mp hw)
    exact absurd rfl (hne inv)
  · exact Multiset.mem_coe.mp hk

theorem moves_admitted {s t : Signal.Shared α} {f : Signal.Frame α} {gs : List (Signal.Frame α)}
    (hm : Moves s f t gs) {inv : Invocation α} (hg : .invoke inv .admitted ∈ gs) :
    (s.heap inv.handler).cancelable.active = .enabled := by
  cases hm with
  | enter inv' ha =>
    cases List.mem_singleton.mp hg
    simpa [Signal.Shared.admits, Cancelable.admits] using ha
  | leave inv' phase hp => cases Signal.leave_ending inv' hp _ hg
  | disable k skip g hd => cases Signal.disable_ending hd _ hg
  | disableWait k skip => cases Signal.disabled_ending k skip _ hg
  | _ => simp at hg

theorem moves_running {s t : Signal.Shared α} {f : Signal.Frame α} {gs : List (Signal.Frame α)}
    (hm : Moves s f t gs) {inv : Invocation α} (hg : .invoke inv .running ∈ gs) : f = .invoke inv .admitted := by
  cases hm with
  | execute inv' =>
    cases List.mem_singleton.mp hg
    rfl
  | leave inv' phase hp => cases Signal.leave_ending inv' hp _ hg
  | disable k skip g hd => cases Signal.disable_ending hd _ hg
  | disableWait k skip => cases Signal.disabled_ending k skip _ hg
  | _ => simp at hg

theorem moves_executed {s t : Signal.Shared α} {f : Signal.Frame α} {gs : List (Signal.Frame α)}
    (hm : Moves s f t gs) (hf : ∀ inv, f = .invoke inv .admitted → inv.handler ≠ h) :
    (t.heap h).executed = (s.heap h).executed := by
  cases hm with
  | execute inv => simp [hf inv rfl]
  | _ => grind

/-! ## One call at a time -/

/-- The frame is in the scope of `h`. -/
def scopes (h : HandlerId) (f : Frame α) : Nat := (f.signals.map (Signal.Frame.scoped h)).sum

theorem scopes_function (inv : Invocation α) (p : FunctionPhase) : scopes inv.handler (.function inv p) = 1 := by
  cases p <;> simp [scopes, Frame.signals, Signal.Frame.scoped]

theorem scopes_admitted (inv : Invocation α) : scopes inv.handler (.call (.invoke inv .admitted)) = 1 := by
  simp [scopes, Frame.signals, Signal.Frame.scoped]

theorem alone (hS : Signal.Scoped h s.signal (pool s (f ::ₘ R))) (hf : scopes h f = 1) {g : Frame α} (hg : g ∈ R) :
    scopes h g = 0 := by
  obtain ⟨R, rfl⟩ := Multiset.exists_cons_of_mem hg
  have hone := hS.one
  have hw : ∀ (w : Signal.Frame α → Nat) (P Q : Multiset (Signal.Frame α)), weigh w (P + Q) = weigh w P + weigh w Q := by
    simp [weigh]
  have hl : ∀ l : List (Signal.Frame α), weigh (Signal.Frame.scoped h) (l : Multiset (Signal.Frame α)) =
      (l.map (Signal.Frame.scoped h)).sum := by
    simp [weigh]
  simp only [pool, under_cons, hw, hl] at hone
  unfold scopes at *
  omega

theorem not_function (hS : Signal.Scoped h s.signal (pool s (f ::ₘ R))) (hf : scopes h f = 1) (inv : Invocation α)
    (p : FunctionPhase) (hi : inv.handler = h) : .function inv p ∉ R := by
  subst hi
  intro hg
  have := alone hS hf hg
  rw [scopes_function] at this
  cases this

theorem not_admitted (hS : Signal.Scoped h s.signal (pool s (f ::ₘ R))) (hf : scopes h f = 1) (inv : Invocation α)
    (hi : inv.handler = h) : .call (.invoke inv .admitted) ∉ R := by
  subst hi
  intro hg
  have := alone hS hf hg
  rw [scopes_admitted] at this
  cases this

/-! ## Stages -/

theorem FunctionPhase.Fits.signal {t : Signal.Shared α} {p : FunctionPhase} (hp : p.Fits s h)
    (hd : disabled s h → disabled { s with signal := t } h) : p.Fits { s with signal := t } h := by
  cases p with
  | disconnectEnd | reset | complete => exact hd hp
  | _ => exact hp

theorem Stage.signal {t : Signal.Shared α} (hS : Stage s F) (hx : executed { s with signal := t } = executed s)
    (hd : ∀ h, disabled s h → disabled { s with signal := t } h) {F' : Multiset (Frame α)}
    (hf : ∀ inv p, Frame.function inv p ∈ F' ↔ .function inv p ∈ F)
    (ha : ∀ inv, Frame.call (.invoke inv .admitted) ∈ F' → .call (.invoke inv .admitted) ∈ F ∨ ¬ disabled s inv.handler) :
    Stage { s with signal := t } F' := by
  cases hS with
  | waiting hxs hfs hc han hcon =>
    exact .waiting (hx.trans hxs) (fun inv p hm => hfs inv p ((hf inv p).mp hm)) hc han hcon
  | calling inv hxs hm hc han hcon => exact .calling inv (hx.trans hxs) ((hf inv .set).mpr hm) hc han hcon
  | called inv p hxs hm hp hv hst hc han =>
    exact .called inv p (hx.trans hxs) ((hf inv p).mpr hm) (hp.signal (hd _)) hv hst hc han
  | done h a hh hxs hdis hfs hadm hv hst hc han =>
    refine .done h a hh (hx.trans hxs) (hd h hdis) (fun inv p hm => hfs inv p ((hf inv p).mp hm)) (fun inv hi hm => ?_)
      hv hst hc han
    rcases ha inv hm with hm | hn
    · exact hadm inv hi hm
    · subst hi
      exact hn hdis

theorem Built.same (hB : Built s F) {F' : Multiset (Frame α)} (hc : s'.constructed = s.constructed)
    (hh : s'.handler = s.handler) (hw : (F'.map Frame.constructs).sum = (F.map Frame.constructs).sum)
    (hm : ∀ p, Frame.construct p ∈ F' → .construct p ∈ F) : Built s' F' := by
  refine ⟨by rw [hw]; exact hB.one, fun p hp => ?_, ?_⟩
  · rw [hc, hh]
    exact hB.phase p (hm p hp)
  · rw [hc]
    exact hB.all

theorem Local.signal (hL : Local s F) {t : Signal.Shared α} {F' : Multiset (Frame α)}
    (hx : executed { s with signal := t } = executed s) (hd : ∀ h, disabled s h → disabled { s with signal := t } h)
    (hsize : s.signal.size ≤ t.size) (hf : ∀ inv p, Frame.function inv p ∈ F' ↔ .function inv p ∈ F)
    (ha : ∀ inv, Frame.call (.invoke inv .admitted) ∈ F' → .call (.invoke inv .admitted) ∈ F ∨ ¬ disabled s inv.handler)
    (hw : (F'.map Frame.constructs).sum = (F.map Frame.constructs).sum)
    (hm : ∀ p, Frame.construct p ∈ F' → .construct p ∈ F) : Local { s with signal := t } F' := by
  refine ⟨hL.built.same rfl rfl hw hm, fun h hh => ?_, hL.connection, fun inv p hp => ?_, hL.stage.signal hx hd hf ha,
    hL.used⟩
  · exact ⟨Nat.lt_of_lt_of_le (hL.made h hh).1 hsize, (hL.made h hh).2⟩
  · exact hL.function inv p ((hf inv p).mp hp)

/-! ## Steps of a frame of the signal -/

theorem frame_function {g : Signal.Frame α} {inv : Invocation α} {p : FunctionPhase} (hf : s.frame g = .function inv p) :
    g = .invoke inv .running ∧ s.handler = some inv.handler := by
  unfold Shared.frame at hf
  split at hf
  · split at hf
    next hh =>
      cases hf
      exact ⟨rfl, hh⟩
    · cases hf
  · cases hf

theorem frame_call {g k : Signal.Frame α} (hf : s.frame g = .call k) : g = k := by
  unfold Shared.frame at hf
  split at hf
  · split at hf <;> cases hf
    rfl
  · cases hf
    rfl

theorem frame_construct {g : Signal.Frame α} {p : ConstructPhase} : s.frame g ≠ .construct p := by
  intro hf
  unfold Shared.frame at hf
  split at hf
  · split at hf <;> cases hf
  · cases hf

theorem frame_constructs (s : Shared α) (gs : List (Signal.Frame α)) :
    (((gs.map s.frame : List (Frame α)) : Multiset (Frame α)).map Frame.constructs).sum = 0 := by
  induction gs with
  | nil => rfl
  | cons g gs ih =>
    rw [List.map_cons, ← Multiset.cons_coe, Multiset.map_cons, Multiset.sum_cons, ih, Nat.add_zero]
    cases hg : s.frame g with
    | construct p => exact absurd hg frame_construct
    | _ => rfl

theorem executed_eq {t : Signal.Shared α} (h : ∀ k, s.handler = some k → (t.heap k).executed = (s.signal.heap k).executed) :
    executed { s with signal := t } = executed s := by
  unfold executed
  cases hh : s.handler with
  | none => rfl
  | some k => exact h k hh

theorem call_local {g : Signal.Frame α} {t : Signal.Shared α} {gs : List (Signal.Frame α)}
    (hL : Local s (.call g ::ₘ R)) (ha : g.act s.signal cur = some (t, gs))
    (hne : ∀ inv, g = .invoke inv .admitted → s.handler ≠ some inv.handler) :
    Local { s with signal := t } (↑(gs.map s.frame) + R) := by
  obtain ⟨ks, hm, -⟩ := Signal.act_moves ha
  refine hL.signal (executed_eq fun k hk => moves_executed hm fun inv hg hi => hne inv hg (hi ▸ hk))
    (fun h hd => Signal.moves_disabled hm hd) (Signal.moves_size hm) (fun inv p => ?_) (fun inv hmem => ?_) ?_
    fun p hmem => ?_
  · constructor
    · intro hmem
      rcases Multiset.mem_add.mp hmem with hmem | hmem
      · obtain ⟨k, hk, hf⟩ := List.mem_map.mp (Multiset.mem_coe.mp hmem)
        obtain ⟨rfl, hh⟩ := frame_function hf
        obtain ⟨ks, hm, hk⟩ := mem_of_act ha hk (by simp)
        exact absurd hh (hne inv (moves_running hm hk))
      · exact Multiset.mem_cons_of_mem hmem
    · intro hmem
      rcases Multiset.mem_cons.mp hmem with hmem | hmem
      · cases hmem
      · exact Multiset.mem_add.mpr (Or.inr hmem)
  · rcases Multiset.mem_add.mp hmem with hmem | hmem
    · right
      obtain ⟨k, hk, hf⟩ := List.mem_map.mp (Multiset.mem_coe.mp hmem)
      obtain rfl := frame_call hf
      obtain ⟨ks, hm, hk⟩ := mem_of_act ha hk (by simp)
      intro hd
      have := (moves_admitted hm hk).symm.trans hd
      cases this
    · exact Or.inl (Multiset.mem_cons_of_mem hmem)
  · rw [Multiset.map_add, Multiset.sum_add, frame_constructs, Multiset.map_cons, Multiset.sum_cons]
    rfl
  · rcases Multiset.mem_add.mp hmem with hmem | hmem
    · obtain ⟨k, -, hf⟩ := List.mem_map.mp (Multiset.mem_coe.mp hmem)
      exact absurd hf frame_construct
    · exact Multiset.mem_cons_of_mem hmem

theorem executed_some (hh : s.handler = some h) : executed s = (s.signal.heap h).executed := by
  unfold executed
  rw [hh]

theorem Built.put (hB : Built s (f ::ₘ R)) {g : Frame α} (hf : f.constructs = 0) (hg : g.constructs = 0)
    (hc : s'.constructed = s.constructed) (hh : s'.handler = s.handler) : Built s' (g ::ₘ R) := by
  refine hB.same hc hh ?_ fun p hp => ?_
  · rw [Multiset.map_cons, Multiset.sum_cons, Multiset.map_cons, Multiset.sum_cons, hf, hg]
  · rcases Multiset.mem_cons.mp hp with rfl | hp
    · cases hg
    · exact Multiset.mem_cons_of_mem hp

theorem execute_local {inv : Invocation α} (hI : Inv s (.call (.invoke inv .admitted) ::ₘ R))
    (hh : s.handler = some inv.handler) :
    Local { s with signal := s.signal.modify inv.handler (.execute inv.args) } (.function inv .set ::ₘ R) := by
  have hscope := hI.scope inv.handler
  have hnone : ∀ inv' p, Frame.function inv' p ∉ Frame.call (.invoke inv .admitted) ::ₘ R := by
    intro inv' p hm
    have heq := hI.function inv' p hm
    rw [hh] at heq
    rcases Multiset.mem_cons.mp hm with hm | hm
    · cases hm
    · exact not_function hscope (scopes_admitted inv) inv' p (Option.some.inj heq).symm hm
  refine ⟨hI.built.put rfl rfl rfl rfl, hI.made, hI.connection, fun inv' p hm => ?_, ?_, hI.used⟩
  · rcases Multiset.mem_cons.mp hm with hm | hm
    · cases hm
      exact hh
    · exact absurd (Multiset.mem_cons_of_mem hm) (hnone inv' p)
  · cases hI.stage with
    | waiting hx hf hc han hcon =>
      refine .calling inv ?_ (Multiset.mem_cons_self ..) hc han hcon
      rw [executed_some hh] at hx
      refine (executed_some (h := inv.handler) ?_).trans ?_
      · exact hh
      · simp [Signal.Handler.execute, hx]
    | calling inv' hx hm => exact absurd hm (hnone inv' .set)
    | called inv' p hx hm => exact absurd hm (hnone inv' p)
    | done h a hh' hx hd hf hadm =>
      rw [hh] at hh'
      exact absurd (Multiset.mem_cons_self ..) (hadm inv (Option.some.inj hh'))

/-! ## Steps of the constructor -/

/-- Before the function uses a member. -/
inductive Early (s : Shared α) (F : Multiset (Frame α)) : Prop
  | waiting : executed s = [] → (∀ inv p, Frame.function inv p ∉ F) → Early s F
  | calling (inv : Invocation α) : executed s = [inv.args] → .function inv .set ∈ F → Early s F

theorem Stage.early (hS : Stage s F) (hv : .values ∉ s.constructed) :
    Early s F ∧ s.completed = false ∧ s.answer = none ∧ (.connection ∈ s.constructed → s.connection = s.handler) := by
  cases hS with
  | waiting hx hf hc han hcon => exact ⟨.waiting hx hf, hc, han, hcon⟩
  | calling inv hx hm hc han hcon => exact ⟨.calling inv hx hm, hc, han, hcon⟩
  | called inv p hx hm hp hv' => exact absurd hv' hv
  | done h a hh hx hd hf hadm hv' => exact absurd hv' hv

theorem Early.stage (hE : Early s F) {F' : Multiset (Frame α)} (hx : executed s' = executed s)
    (hf : ∀ inv p, Frame.function inv p ∈ F' ↔ .function inv p ∈ F) (hc : s'.completed = false) (ha : s'.answer = none)
    (hcon : .connection ∈ s'.constructed → s'.connection = s'.handler) : Stage s' F' := by
  cases hE with
  | waiting hxs hfs => exact .waiting (hx.trans hxs) (fun inv p hm => hfs inv p ((hf inv p).mp hm)) hc ha hcon
  | calling inv hxs hm => exact .calling inv (hx.trans hxs) ((hf inv .set).mpr hm) hc ha hcon

theorem Built.construct {p q : ConstructPhase} (hB : Built s (.construct p ::ₘ R)) (hc : s'.constructed = q.members)
    (hh : s'.handler.isSome = q.registered) : Built s' (.construct q ::ₘ R) := by
  have hone := hB.one
  rw [Multiset.map_cons, Multiset.sum_cons] at hone
  have hR : ∀ r, Frame.construct r ∉ R := by
    intro r hr
    obtain ⟨R, rfl⟩ := Multiset.exists_cons_of_mem hr
    rw [Multiset.map_cons, Multiset.sum_cons] at hone
    simp only [Frame.constructs] at hone
    omega
  refine ⟨?_, fun r hr => ?_, fun hv => ?_⟩
  · rw [Multiset.map_cons, Multiset.sum_cons]
    exact hone
  · rcases Multiset.mem_cons.mp hr with hr | hr
    · cases hr
      exact ⟨hc, hh⟩
    · exact absurd hr (hR r)
  · rw [hc] at hv
    cases q <;> simp [ConstructPhase.members] at hv

theorem Built.last (hB : Built s (.construct .values ::ₘ R)) (hc : s'.constructed = s.constructed ++ [.values]) :
    Built s' R := by
  have hone := hB.one
  rw [Multiset.map_cons, Multiset.sum_cons] at hone
  obtain ⟨hcs, -⟩ := hB.phase .values (Multiset.mem_cons_self ..)
  refine ⟨Nat.le_trans (Nat.le_add_left ..) hone, fun r hr => ?_, fun _ => ?_⟩
  · obtain ⟨R, rfl⟩ := Multiset.exists_cons_of_mem hr
    rw [Multiset.map_cons, Multiset.sum_cons] at hone
    simp only [Frame.constructs] at hone
    omega
  · rw [hc, hcs]
    rfl

/-- A phase of the constructor that registers no handler, with what it has constructed by then. -/
theorem Local.construct {p q : ConstructPhase} (hL : Local s (.construct p ::ₘ R)) (hc : s'.constructed = q.members)
    (hr : p.registered = q.registered) (hx : executed s' = executed s) (hh : s'.handler = s.handler)
    (hsize : s'.signal.size = s.signal.size) (hcon : s'.connection = s.connection ∨ s'.connection = s.handler)
    (hcon' : .connection ∈ q.members → .connection ∈ p.members ∧ s'.connection = s.connection ∨
      s'.connection = s.handler)
    (hcomp : s'.completed = s.completed) (han : s'.answer = s.answer) (hm : s'.misused = s.misused) :
    Local s' (.construct q ::ₘ R) := by
  obtain ⟨hcs, hreg⟩ := hL.built.phase p (Multiset.mem_cons_self ..)
  have hv : .values ∉ s.constructed := by
    rw [hcs]
    cases p <;> simp [ConstructPhase.members]
  obtain ⟨hE, hcf, haf, hcn⟩ := hL.stage.early hv
  have hf : ∀ inv r, Frame.function inv r ∈ Frame.construct q ::ₘ R ↔ .function inv r ∈ Frame.construct p ::ₘ R := by
    simp
  refine ⟨hL.built.construct hc ?_, ?_, fun h h' => ?_, fun inv r hmem => ?_, ?_, hm.trans hL.used⟩
  · rw [hh, hreg, hr]
  · rw [hh, hsize]
    exact hL.made
  · rw [hh]
    rcases hcon with hcon | hcon
    · exact hL.connection h (hcon.symm.trans h')
    · exact hcon.symm.trans h'
  · rw [hh]
    exact hL.function inv r ((hf inv r).mp hmem)
  · refine hE.stage hx hf (hcomp.trans hcf) (han.trans haf) fun hmem => ?_
    rw [hc] at hmem
    rw [hh]
    rcases hcon' hmem with ⟨hp, heq⟩ | heq
    · exact heq.trans (hcn (hcs ▸ hp))
    · exact heq

theorem construct_local {p : ConstructPhase} (hI : Inv s (.construct p ::ₘ R))
    (ha : Frame.act s cur (.construct p) = some (s', fs)) : Local s' (↑fs + R) := by
  have hL := hI.toLocal
  obtain ⟨hcs, hreg⟩ := hI.built.phase p (Multiset.mem_cons_self ..)
  cases p with
  | signal | barrier =>
    cases ha
    refine hL.construct ?_ rfl rfl rfl rfl (Or.inl rfl) (by simp [ConstructPhase.members]) rfl rfl rfl
    simp [Shared.construct, hcs, ConstructPhase.members]
  | connectLock =>
    obtain ⟨⟨t, ks⟩, hg, rfl, rfl⟩ := step_eq ha
    obtain ⟨-, rfl, -⟩ := Signal.lock_eq hg
    exact hL.construct hcs rfl (executed_eq fun _ _ => rfl) rfl rfl (Or.inl rfl) (by simp [ConstructPhase.members]) rfl
      rfl rfl
  | connectPush =>
    obtain ⟨⟨t, ks⟩, hg, rfl, rfl⟩ := step_eq ha
    cases hg
    -- the handler is new, so its function has not been called
    have hnone : s.handler = none := by simpa [ConstructPhase.registered] using hreg
    have hcon : s.connection = none := by
      cases hc : s.connection with
      | none => rfl
      | some h =>
        have := hI.connection h hc
        rw [hnone] at this
        cases this
    have hf : ∀ inv r, Frame.function inv r ∉ Frame.construct .connectPush ::ₘ R := by
      intro inv r hm
      have := hI.function inv r hm
      rw [hnone] at this
      cases this
    obtain ⟨-, hcf, haf, -⟩ := hI.stage.early (by simp [hcs, ConstructPhase.members])
    have hf' : ∀ inv r, Frame.function inv r ∉ Frame.construct .connectReturn ::ₘ R := by
      simpa using hf
    refine ⟨hI.built.construct hcs rfl, fun h hh => ?_, fun h hh => ?_, fun inv r hm => absurd hm (hf' inv r), ?_, hI.used⟩
    · cases hh
      exact ⟨Nat.lt_succ_self _, rfl⟩
    · rw [hcon] at hh
      cases hh
    · refine .waiting ?_ hf' hcf haf (by simp [hcs, ConstructPhase.members])
      have hfresh := hI.signal.made.fresh ⟨.singleUpdates, s.signal.size⟩ (Nat.le_refl _)
      simp [executed, hfresh, Signal.Handler.new]
  | connectReturn =>
    cases ha
    exact hL.construct hcs rfl rfl rfl rfl (Or.inl rfl) (by simp [ConstructPhase.members]) rfl rfl rfl
  | connection =>
    cases ha
    refine hL.construct ?_ rfl rfl rfl rfl (Or.inr rfl) (fun _ => Or.inr rfl) rfl rfl rfl
    simp [Shared.construct, hcs, ConstructPhase.members]
  | values =>
    cases ha
    obtain ⟨hE, hcf, haf, hcn⟩ := hI.stage.early (by simp [hcs, ConstructPhase.members])
    have hf : ∀ inv r, Frame.function inv r ∈ R ↔ .function inv r ∈ Frame.construct .values ::ₘ R := by
      simp
    rw [Multiset.coe_nil, zero_add]
    refine ⟨hI.built.last rfl, hI.made, hI.connection, fun inv r hm => hI.function inv r ((hf inv r).mp hm), ?_, hI.used⟩
    refine hE.stage rfl hf hcf haf fun _ => ?_
    exact hcn (by simp [hcs, ConstructPhase.members])

/-! ## Steps of the function -/

theorem Inv.no_function {inv : Invocation α} {p : FunctionPhase} (hI : Inv s (.function inv p ::ₘ R))
    (inv' : Invocation α) (q : FunctionPhase) : .function inv' q ∉ R := by
  intro hm
  have hh := hI.function inv p (Multiset.mem_cons_self ..)
  have hh' := hI.function inv' q (Multiset.mem_cons_of_mem hm)
  rw [hh] at hh'
  exact not_function (hI.scope inv.handler) (scopes_function inv p) inv' q (Option.some.inj hh').symm hm

theorem Inv.calling {inv : Invocation α} {p : FunctionPhase} (hI : Inv s (.function inv p ::ₘ R)) :
    executed s = [inv.args] ∧ s.completed = false ∧ s.answer = none ∧
      (p = .set ∧ (.connection ∈ s.constructed → s.connection = s.handler) ∨
        p.Fits s inv.handler ∧ .values ∈ s.constructed ∧ s.stored = some inv.args) := by
  have hmem : ∀ inv' q, Frame.function inv' q ∈ Frame.function inv p ::ₘ R → inv' = inv ∧ q = p := by
    intro inv' q hm
    rcases Multiset.mem_cons.mp hm with hm | hm
    · cases hm
      exact ⟨rfl, rfl⟩
    · exact absurd hm (hI.no_function inv' q)
  cases hI.stage with
  | waiting hx hf => exact absurd (Multiset.mem_cons_self ..) (hf inv p)
  | calling inv' hx hm hc ha hcon =>
    obtain ⟨rfl, rfl⟩ := hmem inv' .set hm
    exact ⟨hx, hc, ha, Or.inl ⟨rfl, hcon⟩⟩
  | called inv' q hx hm hp hv hs hc ha =>
    obtain ⟨rfl, rfl⟩ := hmem inv' q hm
    exact ⟨hx, hc, ha, Or.inr ⟨hp, hv, hs⟩⟩
  | done h a hh hx hd hf => exact absurd (Multiset.mem_cons_self ..) (hf inv p)

theorem Inv.goes {inv : Invocation α} {p q : FunctionPhase} (hI : Inv s (.function inv p ::ₘ R))
    (hc : s'.constructed = s.constructed) (hh : s'.handler = s.handler) (hsize : s.signal.size ≤ s'.signal.size)
    (hcon : ∀ h, s'.connection = some h → s.handler = some h) (hx : executed s' = executed s)
    (hfit : q.Fits s' inv.handler) (hv : .values ∈ s.constructed) (hs : s'.stored = some inv.args)
    (hcomp : s'.completed = s.completed) (han : s'.answer = s.answer) (hm : s'.misused = false) :
    Local s' (.function inv q ::ₘ R) := by
  obtain ⟨hxs, hcf, haf, -⟩ := hI.calling
  refine ⟨hI.built.put rfl rfl hc hh, fun h h' => ?_, fun h h' => hh ▸ hcon h h', fun inv' r hmem => ?_, ?_, hm⟩
  · rw [hh] at h'
    exact ⟨Nat.lt_of_lt_of_le (hI.made h h').1 hsize, (hI.made h h').2⟩
  · rw [hh]
    rcases Multiset.mem_cons.mp hmem with hmem | hmem
    · cases hmem
      exact hI.function inv p (Multiset.mem_cons_self ..)
    · exact hI.function inv' r (Multiset.mem_cons_of_mem hmem)
  · exact .called inv q (hx.trans hxs) (Multiset.mem_cons_self ..) hfit (hc ▸ hv) hs (hcomp.trans hcf) (han.trans haf)

theorem use_misused {m : Member} (hu : s.misused = false) (hm : m ∈ s.constructed) : (s.use m).misused = false := by
  simp [Shared.use, hu, hm]

theorem function_local {inv : Invocation α} {p : FunctionPhase} (hI : Inv s (.function inv p ::ₘ R))
    (hC : p = .set → .values ∈ s.constructed) (ha : Frame.act s cur (.function inv p) = some (s', fs)) :
    Local s' (↑fs + R) := by
  have hh := hI.function inv p (Multiset.mem_cons_self ..)
  obtain ⟨hx, hcf, haf, hst⟩ := hI.calling
  have hall : .values ∈ s.constructed → ∀ m, m ∈ s.constructed := by
    intro hv m
    rw [hI.built.all hv]
    cases m <;> decide
  cases p with
  | set =>
    cases ha
    have hv := hC rfl
    rcases hst with ⟨-, hcon⟩ | ⟨hf, -⟩
    · refine hI.goes rfl rfl (Nat.le_refl _) hI.connection rfl ?_ hv rfl rfl rfl (use_misused hI.used hv)
      exact (hcon (hall hv _)).trans hh
    · exact hf.elim
  | disconnect =>
    cases ha
    obtain ⟨hp, -⟩ | ⟨hp, hv, hs⟩ := hst
    · cases hp
    · have hcon : s.connection = some inv.handler := hp
      rw [hcon]
      exact hI.goes rfl rfl (Nat.le_refl _) hI.connection rfl rfl hv hs rfl rfl (use_misused hI.used (hall hv _))
  | disconnectLock k =>
    obtain ⟨⟨t, ks⟩, hg, rfl, rfl⟩ := step_eq ha
    obtain ⟨-, rfl, -⟩ := Signal.lock_eq hg
    obtain ⟨hp, -⟩ | ⟨hp, hv, hs⟩ := hst
    · cases hp
    · exact hI.goes rfl rfl (Nat.le_refl _) hI.connection (executed_eq fun _ _ => rfl) hp hv hs rfl rfl hI.used
  | disconnectErase k =>
    obtain ⟨⟨t, ks⟩, hg, rfl, rfl⟩ := step_eq ha
    cases hg
    obtain ⟨hp, -⟩ | ⟨hp, hv, hs⟩ := hst
    · cases hp
    · exact hI.goes rfl rfl (Nat.le_refl _) hI.connection (executed_eq fun _ _ => rfl) hp hv hs rfl rfl hI.used
  | disable k =>
    obtain ⟨⟨t, ks⟩, hg, rfl, rfl⟩ := step_eq ha
    cases hg
    obtain ⟨hp, -⟩ | ⟨hp, hv, hs⟩ := hst
    · cases hp
    · obtain rfl : k = inv.handler := hp
      refine hI.goes rfl rfl (Nat.le_refl _) hI.connection (executed_eq fun j _ => ?_) ?_ hv hs rfl rfl hI.used
      · simp only [Signal.modify_heap]
        split <;> rfl
      · simp [FunctionPhase.Fits, disabled, Signal.Handler.disable, Cancelable.disable]
  | disconnectEnd k =>
    obtain ⟨⟨t, ks⟩, hg, rfl, rfl⟩ := step_eq ha
    cases hg
    obtain ⟨hp, -⟩ | ⟨hp, hv, hs⟩ := hst
    · cases hp
    · exact hI.goes rfl rfl (Nat.le_refl _) hI.connection rfl hp hv hs rfl rfl hI.used
  | reset =>
    cases ha
    obtain ⟨hp, -⟩ | ⟨hp, hv, hs⟩ := hst
    · cases hp
    · exact hI.goes rfl rfl (Nat.le_refl _) (by simp) rfl hp hv hs rfl rfl hI.used
  | complete =>
    cases ha
    obtain ⟨hp, -⟩ | ⟨hp, hv, hs⟩ := hst
    · cases hp
    · have hnone : ∀ inv' q, Frame.function inv' q ∉ Frame.call (.invoke inv .running) ::ₘ R := by
        simpa using hI.no_function
      refine ⟨hI.built.put rfl rfl rfl rfl, hI.made, hI.connection, fun inv' q hm => absurd hm (hnone inv' q), ?_,
        use_misused hI.used (hall hv _)⟩
      refine .done inv.handler inv.args hh hx hp hnone (fun inv' hi hm => ?_) hv hs rfl (Or.inl haf)
      rcases Multiset.mem_cons.mp hm with hm | hm
      · cases hm
      · exact not_admitted (hI.scope inv.handler) (scopes_function inv .complete) inv' hi hm

/-! ## Runs -/

theorem starts_ne {t : Signal.Shared α} {g : Signal.Frame α} (hs : Signal.Starts t g) (inv : Invocation α)
    (p : Signal.InvokePhase) : g ≠ .invoke inv p := by
  rcases hs.cases with ⟨_, rfl⟩ | ⟨_, rfl⟩ | ⟨_, -, rfl⟩ | rfl <;> simp

theorem wait_local (hL : Local s (.wait ::ₘ R)) (ha : Frame.act s cur .wait = some (s', fs)) : Local s' (↑fs + R) := by
  have hf : ∀ inv p, Frame.function inv p ∈ R ↔ .function inv p ∈ Frame.wait ::ₘ R := by
    simp
  simp only [Frame.act] at ha
  split at ha
  next hcomp =>
    cases ha
    rw [Multiset.coe_nil, zero_add]
    refine ⟨hL.built.same rfl rfl ?_ fun p => Multiset.mem_cons_of_mem, hL.made, hL.connection,
      fun inv p hm => hL.function inv p ((hf inv p).mp hm), ?_, hL.used⟩
    · simp [Frame.constructs]
    cases hL.stage with
    | waiting _ _ hc | calling _ _ _ hc | called _ _ _ _ _ _ _ hc =>
      rw [hc] at hcomp
      cases hcomp
    | done h a hh hx hd hfs hadm hv hs hc han =>
      refine .done h a hh hx hd (fun inv p hm => hfs inv p ((hf inv p).mp hm))
        (fun inv hi hm => hadm inv hi (Multiset.mem_cons_of_mem hm)) hv hs hc (Or.inr ?_)
      rcases han with han | han <;> simp [han, hs]
  · cases ha

theorem act_local (hI : Inv s (f ::ₘ R)) (hC : ∀ inv, f = .function inv .set → .values ∈ s.constructed)
    (ha : f.act s cur = some (s', fs)) : Local s' (↑fs + R) := by
  cases f with
  | call g =>
    simp only [Frame.act, Option.map_eq_some_iff, Prod.mk.injEq] at ha
    obtain ⟨⟨t, gs⟩, ha, rfl, rfl⟩ := ha
    by_cases hg : ∃ inv, g = .invoke inv .admitted ∧ s.handler = some inv.handler
    · obtain ⟨inv, rfl, hh⟩ := hg
      cases ha
      have := execute_local hI hh
      simp only [List.map_cons, List.map_nil, Shared.frame, if_pos hh, Multiset.coe_singleton,
        Multiset.singleton_add]
      exact this
    · exact call_local hI.toLocal ha fun inv hg' hh => hg ⟨inv, hg', hh⟩
  | construct p => exact construct_local hI ha
  | function inv p => exact function_local hI (fun hp => hC inv (by rw [hp])) ha
  | wait => exact wait_local hI.toLocal ha

theorem next_inv {c c' : Config (Shared α) (Thread α)} {l : Label (Choice α)}
    (hI : Inv c.shared (Family.frames c.threads)) (hC : setsConstructed c l = true)
    (hn : signalBarrier.next c l = some c') : Inv c'.shared (Family.frames c'.threads) := by
  have hstep := next_signalStep (fun h hc => (hI.made h (hI.connection h hc)).1) hn
  refine ⟨?_, hstep.inv hI.signal, fun h => hstep.scoped (hI.scope h)⟩
  rcases next_frames hn with ⟨k, inv, hk, hs, hf⟩ | ⟨f, hb, hs, hf⟩ | ⟨hs, hf⟩ | ⟨i, f, stack, fs, F, _, rfl, ht, ha, hF, hf⟩
  · rw [hs, hf]
    exact hI.toLocal.signal (executed_eq fun _ _ => rfl) (fun _ => id) (Nat.le_refl _) (by simp)
      (fun inv' hm => Or.inl (by simpa using hm)) (by simp [Frame.constructs]) (by simp)
  · rw [hs, hf]
    obtain ⟨hfun, hadm, hcon⟩ : (∀ inv p, f ≠ .function inv p) ∧ (∀ inv, f ≠ .call (.invoke inv .admitted)) ∧
        ∀ p, f ≠ .construct p := by
      cases hb with
      | call g hg =>
        refine ⟨by simp, fun inv heq => ?_, by simp⟩
        cases heq
        exact starts_ne hg inv .admitted rfl
      | wait => simp
    refine hI.toLocal.signal (t := c.shared.signal) rfl (fun _ => id) (Nat.le_refl _) (fun inv p => ?_)
      (fun inv hm => Or.inl ((Multiset.mem_cons.mp hm).resolve_left (hadm inv).symm)) ?_
      fun p hm => (Multiset.mem_cons.mp hm).resolve_left (hcon p).symm
    · rw [Multiset.mem_cons, or_iff_right (hfun inv p).symm]
    · rw [Multiset.map_cons, Multiset.sum_cons]
      cases f with
      | construct p => exact absurd rfl (hcon p)
      | _ => exact Nat.zero_add _
  · rw [hs]
    rw [hf] at hI
    exact hI.toLocal.signal (t := c.shared.signal) rfl (fun _ => id) (Nat.le_refl _) (by simp)
      (fun inv hm => Or.inl (Multiset.mem_cons_of_mem hm)) (by simp [Frame.constructs])
      fun p => Multiset.mem_cons_of_mem
  · rw [hF] at hI
    rw [hf]
    refine act_local hI (fun inv hf => ?_) ha
    subst hf
    simpa [setsConstructed, ht] using hC

theorem Inv.kept (hI : Inv s F) : Kept s := by
  refine ⟨hI.used, fun v hv => ?_⟩
  cases hI.stage with
  | waiting _ _ _ han | calling _ _ _ _ han | called _ _ _ _ _ _ _ _ han =>
    rw [han] at hv
    cases hv
  | done h a hh hx hd hf hadm hcon hs hc han =>
    rcases han with han | han
    · rw [han] at hv
      cases hv
    · rw [han] at hv
      cases hv
      rw [executed_some hh] at hx
      refine ⟨by simp [Shared.values, hc, hs], h, a, hh, rfl, hx, ?_⟩
      have hcar := hI.signal.carried h (by simp [(hI.made h hh).2])
      have ha : a ∈ ((s.signal.heap h).emitted : Multiset α) := by
        rw [hcar, hx]
        simp
      exact Multiset.mem_coe.mp ha

theorem initial_pool :
    pool (α := α) initial.shared (Family.frames initial.threads) = 0 := by
  simp [pool, initial, Signal.initial, Signal.waiting, under, Family.frames, Frame.signals]

theorem initial_frames : Family.frames (initial (α := α)).threads = {.construct .signal} := by
  simp [Family.frames, initial]

theorem initial_inv : Inv (α := α) initial.shared (Family.frames initial.threads) := by
  refine ⟨?_, ?_, fun h => ?_⟩
  · rw [initial_frames]
    refine ⟨⟨by simp [Frame.constructs], fun p hp => ?_, by simp [initial]⟩, by simp [initial], by simp [initial],
      by simp, ?_, rfl⟩
    · cases Multiset.mem_singleton.mp hp
      exact ⟨rfl, rfl⟩
    · exact .waiting rfl (by simp) rfl rfl (by simp [initial])
  · rw [initial_pool]
    exact Signal.initial_inv
  · rw [initial_pool]
    exact ⟨Nat.zero_le _, fun _ => rfl⟩

theorem not_setsConstructed {c : Config (Shared α) (Thread α)} {l : Label (Choice α)} (hC : ¬ setsConstructed c l = true) :
    ∃ i inv stack, l = .act i (.call .step) ∧ c.threads[i]? = some (.function inv .set :: stack) ∧
      .values ∉ c.shared.constructed := by
  unfold setsConstructed at hC
  split at hC
  next i =>
    split at hC
    next inv stack ht => exact ⟨i, inv, stack, rfl, ht, by simpa using hC⟩
    · exact absurd rfl hC
  · exact absurd rfl hC

theorem not_kept {c c' : Config (Shared α) (Thread α)} {l : Label (Choice α)} (hC : ¬ setsConstructed c l = true)
    (hn : signalBarrier.next c l = some c') : ¬ Kept c'.shared := by
  intro hk
  obtain ⟨i, inv, stack, rfl, ht, hv⟩ := not_setsConstructed hC
  obtain ⟨t, s, t', new, ht', ha, rfl⟩ := Program.next_act hn
  rw [ht] at ht'
  cases ht'
  cases ha
  have hu := hk.constructed
  simp [Shared.use, hv] at hu

/-- **Signal barriers.** The function uses constructed members only, and the values are
those of one emit, in the runs in which it comes to them after the constructor, and in
no others. -/
theorem run_kept_iff {tr : List (Config (Shared α) (Thread α) × Label (Choice α))} {c : Config (Shared α) (Thread α)}
    (h : signalBarrier.Run initial tr c) :
    Program.Along (fun c l => setsConstructed c l = true) tr ↔ (∀ p ∈ tr, Kept p.1.shared) ∧ Kept c.shared := by
  refine h.along_iff (I := fun c => Inv c.shared (Family.frames c.threads)) initial_inv
    (fun c l c' hI hC hn => next_inv hI hC hn) (fun _ hI => hI.kept) fun c l c' _ hC hn => not_kept hC hn

end

/-- An emit finds the handler while the constructor is in `connect`. -/
def emitEarly : List (Label (Choice Nat)) :=
  List.replicate 4 (Label.act 0 (Choice.call .step)) ++
    Label.call (Choice.call (.emit 24)) :: List.replicate 4 (.act 1 (.call .step)) ++
    [Label.call (Choice.call (.run 0))]

/-- The queue starts the invocation, and the constructor ends before the function comes to
`m_values`; a second emit comes after the `wait`. -/
def emitTwice : List (Label (Choice Nat)) :=
  emitEarly ++ List.replicate 2 (Label.act 2 (Choice.call .step)) ++
    List.replicate 3 (Label.act 0 (Choice.call .step)) ++
    Label.call Choice.wait :: List.replicate 11 (.act 2 (.call .step)) ++
    Label.act 3 (Choice.call .step) :: .call (.call (.emit 80)) :: List.replicate 2 (.act 4 (.call .step))

theorem run_kept_iff_twice : ((∀ p ∈ signalBarrier.path initial emitTwice, Kept p.1.shared) ∧
    Kept (signalBarrier.last initial emitTwice).shared) ∧
    (signalBarrier.last initial emitTwice).shared.values = .ok (some 24) :=
  ⟨(run_kept_iff (Program.run_last (l := emitTwice) (by decide))).mp (by decide), rfl⟩

/-- The function runs before the constructor has come to `m_connection`, which then wipes the values. -/
def emitWiped : List (Label (Choice Nat)) :=
  emitEarly ++ List.replicate 6 (Label.act 2 (Choice.call .step)) ++
    List.replicate 3 (Label.act 0 (Choice.call .step)) ++ [Label.call Choice.wait, .act 3 (.call .step)]

theorem emitWiped_misuses : ¬ ∀ (tr : List (Config (Shared Nat) (Thread Nat) × Label (Choice Nat)))
    (c : Config (Shared Nat) (Thread Nat)), signalBarrier.Run initial tr c → Kept c.shared := by
  intro hall
  have := hall _ _ (Program.run_last (l := emitWiped) (by decide))
  exact absurd this.constructed (by decide)

example : (signalBarrier.last initial emitWiped).shared.answer = some none := rfl

end Xdispatch.SignalBarrier
