import Xdispatch.Signal.Lifetime

/-!
# Connections to a destroyed signal

A `disconnect` that comes after the destructor locks `m_CS` again if `m_id` gives
it the handler. The list of the signal is empty by then, so it does where a call
in progress or a queued invocation has kept the handler.
-/

namespace Xdispatch.Signal.Lifetime

variable {α : Type}

/-- Nothing that is queued or in progress has a `handler_ptr` to `h`. -/
def released (c : Config (Shared α) (Thread α)) (h : HandlerId) : Bool :=
  c.shared.signal.queued.all (fun inv => inv.handler ≠ h) &&
    c.threads.all fun t => t.all fun f => Frame.pointers h f = 0

/-- A `disconnect` of a connection to a destroyed signal comes when its handler has been released. -/
def disconnectsReleased (c : Config (Shared α) (Thread α)) : Label (Choice α) → Bool
  | .act i (.call .step) =>
    match c.threads[i]? with
    | some (.lockId h :: _) => c.shared.life ≠ .destroyed || released c h
    | _ => true
  | _ => true

def Frame.guarded : Frame α → Bool
  | .dangling _ => false
  | _ => true

/-- No `disconnect` has got past `m_id.lock()` after the destructor. -/
def Guarded (c : Config (Shared α) (Thread α)) : Prop := ∀ t ∈ c.threads, ∀ f ∈ t, Frame.guarded f = true

instance (c : Config (Shared α) (Thread α)) : Decidable (Guarded c) :=
  inferInstanceAs (Decidable (∀ t ∈ c.threads, ∀ f ∈ t, Frame.guarded f = true))

/-- The `handler_ptr`s of the calls in progress are counted, and a destroyed signal has none. -/
structure Counted (c : Config (Shared α) (Thread α)) : Prop where
  refs : ∀ h, c.shared.refs h = Family.total (Family.total (Frame.pointers h)) c.threads
  empty : c.shared.life = .destroyed → c.shared.signal.handlers = []

section
variable {c c' : Config (Shared α) (Thread α)} {l : Label (Choice α)} {s s' : Shared α} {f g : Frame α}
  {fs : List (Frame α)} {cur : HandlerId → Bool} {h : HandlerId}

theorem Begins.pointers (hb : Begins g) : g.pointers h = 0 := by
  cases hb <;> rfl

theorem Begins.guarded (hb : Begins g) : g.guarded = true := by
  cases hb <;> rfl

theorem act_handlers {s s' : Signal.Shared α} {f : Signal.Frame α} {fs : List (Signal.Frame α)}
    (ha : f.act s cur = some (s', fs)) (hf : accesses f = false) : s'.handlers = s.handlers := by
  cases f with
  | invoke inv phase =>
    cases phase with
    | enter =>
      simp only [Signal.Frame.act] at ha
      split at ha <;> cases ha <;> rfl
    | _ =>
      cases ha
      rfl
  | disconnectEnd k | disable k skip =>
    cases ha
    rfl
  | disableWait k skip =>
    simp only [Signal.Frame.act] at ha
    split at ha <;> cases ha
    rfl
  | _ => cases hf

theorem act_refs (ha : f.act s cur = some (s', fs)) : s'.refs = s.refs := by
  cases f with
  | call f =>
    simp only [Frame.act] at ha
    split at ha
    · cases ha
    simp only [Option.map_eq_some_iff, Prod.mk.injEq] at ha
    obtain ⟨r, -, rfl, -⟩ := ha
    rfl
  | lockId k =>
    simp only [Frame.act] at ha
    split at ha
    · cases ha
      rfl
    · split at ha <;> cases ha <;> rfl
  | dangling k => cases ha
  | destroyLock | destroyWait k rest =>
    simp only [Frame.act] at ha
    split at ha <;> cases ha
    rfl
  | destroyNext rest => cases rest <;> cases ha <;> rfl

theorem act_empty (hI : s.life = .destroyed → s.signal.handlers = []) (ha : f.act s cur = some (s', fs))
    (hd : s'.life = .destroyed) : s'.signal.handlers = [] := by
  cases f with
  | call f =>
    simp only [Frame.act] at ha
    split at ha
    · cases ha
    next hn =>
      simp only [Option.map_eq_some_iff, Prod.mk.injEq] at ha
      obtain ⟨r, ha, rfl, -⟩ := ha
      have hlive : s.life = .destroyed := hd
      rw [act_handlers ha (by simpa [hlive] using hn)]
      exact hI hlive
  | lockId k =>
    simp only [Frame.act] at ha
    split at ha
    · cases ha
      exact hI hd
    · split at ha <;> cases ha <;> exact hI hd
  | dangling k => cases ha
  | destroyLock | destroyWait k rest =>
    simp only [Frame.act] at ha
    split at ha <;> cases ha
    exact hI hd
  | destroyNext rest =>
    cases rest with
    | nil =>
      cases ha
      rfl
    | cons k rest =>
      cases ha
      exact hI hd

theorem counted_steps (hI : Counted c) (hs : Steps c l c') : Counted c' := by
  cases hs with
  | start e s g hs =>
    obtain ⟨hsig, hrefs, hlife, hb⟩ := start_begins hs
    refine ⟨fun h => ?_, ?_⟩
    · simp only [hrefs, Family.total_append, Family.total_cons, Family.total_nil, hb.pointers, hI.refs h, add_zero]
    · rw [hsig, hlife]
      exact hI.empty
  | run k inv hk =>
    refine ⟨fun h => ?_, hI.empty⟩
    simp only [Shared.exchange, Family.total_append, Family.total_cons, Family.total_nil, hI.refs h]
    rfl
  | nest i e f stack s g he ht hf hs =>
    obtain ⟨hsig, hrefs, hlife, hb⟩ := start_begins hs
    refine ⟨fun h => ?_, ?_⟩
    · have := Family.total_set (Family.total (Frame.pointers h)) ht (g :: f :: stack)
      simp only [Family.total_cons, hb.pointers] at this
      simp only [hrefs, hI.refs h]
      omega
    · rw [hsig, hlife]
      exact hI.empty
  | act i f stack s fs ht ha =>
    have hempty : s.life = .destroyed → s.signal.handlers = [] := act_empty hI.empty ha
    refine ⟨fun h => ?_, hempty⟩
    have hset := Family.total_set (Family.total (Frame.pointers h)) ht (fs ++ stack)
    have hle := Family.le_total (Family.total (Frame.pointers h)) (Family.mem_of_get ht)
    simp only [Family.total_cons, Family.total_append] at hset hle
    have hrefs : (s.exchange [f] fs).refs h = s.refs h - Frame.pointers h f + Family.total (Frame.pointers h) fs := rfl
    rw [hrefs, act_refs ha, hI.refs h]
    simp only []
    omega

theorem Counted.held_iff (hI : Counted c) (hd : c.shared.life = .destroyed) :
    c.shared.held h = true ↔ released c h = false := by
  have hrefs : c.shared.refs h = 0 ↔ ∀ t ∈ c.threads, ∀ f ∈ t, Frame.pointers h f = 0 := by
    rw [hI.refs h, Family.total_eq_zero]
    exact forall₂_congr fun t _ => Family.total_eq_zero
  simp only [Shared.held, hI.empty hd, released, List.not_mem_nil, decide_false, Bool.false_or, Bool.or_eq_true,
    List.any_eq_true, decide_eq_true_eq, Bool.and_eq_false_iff, List.all_eq_false, Nat.pos_iff_ne_zero, ne_eq]
  rw [hrefs]
  simp

theorem act_guarded (ha : f.act s cur = some (s', fs))
    (hf : ∀ h, f = .lockId h → s.life = .destroyed → s.held h = false) : ∀ g ∈ fs, g.guarded = true := by
  cases f with
  | call f =>
    simp only [Frame.act] at ha
    split at ha
    · cases ha
    simp only [Option.map_eq_some_iff, Prod.mk.injEq] at ha
    obtain ⟨r, -, -, rfl⟩ := ha
    intro g hg
    obtain ⟨k, -, rfl⟩ := List.mem_map.mp hg
    rfl
  | lockId k =>
    simp only [Frame.act] at ha
    split at ha
    · cases ha
      simp
    next hk =>
      by_cases hd : s.life = .destroyed
      · rw [hf k rfl hd] at hk
        exact absurd rfl hk
      · rw [if_neg hd] at ha
        cases ha
        simp [Frame.guarded]
  | dangling k => cases ha
  | destroyLock | destroyWait k rest =>
    simp only [Frame.act] at ha
    split at ha <;> cases ha
    simp [Frame.guarded]
  | destroyNext rest =>
    cases rest with
    | nil =>
      cases ha
      simp
    | cons k rest =>
      cases ha
      split <;> simp [Frame.guarded]

theorem guarded_steps (hI : Counted c) (hG : Guarded c) (hC : disconnectsReleased c l = true) (hs : Steps c l c') :
    Guarded c' := by
  cases hs with
  | start e s g hs =>
    obtain ⟨-, -, -, hb⟩ := start_begins hs
    exact Family.forall_append hG (by simpa using hb.guarded)
  | run k inv hk => exact Family.forall_append hG (by simp [Frame.guarded])
  | nest i e f stack s g he ht hf hs =>
    obtain ⟨-, -, -, hb⟩ := start_begins hs
    have hstack := hG _ (Family.mem_of_get ht)
    refine fun t hm => ?_
    rcases List.mem_or_eq_of_mem_set hm with hm | rfl
    · exact hG t hm
    · intro x hx
      rcases List.mem_cons.mp hx with rfl | hx
      · exact hb.guarded
      · exact hstack x hx
  | act i f stack s fs ht ha =>
    have hstack := hG _ (Family.mem_of_get ht)
    have hfs : ∀ g ∈ fs, g.guarded = true := by
      refine act_guarded ha fun h hf hd => ?_
      subst hf
      have hr : released c h = true := by simpa [disconnectsReleased, ht, hd] using hC
      rw [← Bool.not_eq_true, hI.held_iff hd, hr]
      decide
    refine fun t hm => ?_
    rcases List.mem_or_eq_of_mem_set hm with hm | rfl
    · exact hG t hm
    · intro x hx
      rcases List.mem_append.mp hx with hx | hx
      · exact hfs x hx
      · exact hstack x (List.mem_cons_of_mem f hx)

theorem not_guarded (hI : Counted c) (hC : ¬ disconnectsReleased c l = true) (hs : Steps c l c') : ¬ Guarded c' := by
  cases hs with
  | start | run => exact absurd rfl hC
  | nest i e f stack s g he ht hf hs =>
    refine absurd ?_ hC
    cases e with
    | destroy => rfl
    | call e =>
      cases e with
      | step => exact absurd rfl he
      | _ => rfl
  | act i f stack s fs ht ha =>
    simp only [disconnectsReleased, ht] at hC
    split at hC
    next h rest heq =>
      cases heq
      simp only [Bool.or_eq_true, decide_eq_true_eq, not_or, not_not, Bool.not_eq_true, ne_eq] at hC
      have hheld := (hI.held_iff hC.1).mpr hC.2
      simp only [Frame.act, hheld, hC.1, Bool.not_true, Bool.false_eq_true, if_false, if_true] at ha
      cases ha
      intro hG
      have hm : Frame.dangling h :: stack ∈ c.threads.set i ([.dangling h] ++ stack) :=
        List.mem_set (List.getElem?_eq_some_iff.mp ht).1 _
      exact Bool.false_ne_true (hG _ hm _ (List.mem_cons_self ..))
    · exact absurd rfl hC

theorem initial_counted : Counted (initial : Config (Shared α) (Thread α)) := ⟨fun _ => rfl, fun _ => rfl⟩

/-- **Dangling connections.** A `disconnect` after the destructor leaves the signal
alone in the runs in which its handler has been released by then, and in no others. -/
theorem run_guarded_iff {tr : List (Config (Shared α) (Thread α) × Label (Choice α))}
    {c : Config (Shared α) (Thread α)} (h : lifetime.Run initial tr c) :
    Program.Along (fun c l => disconnectsReleased c l = true) tr ↔ (∀ p ∈ tr, Guarded p.1) ∧ Guarded c := by
  refine h.along_iff (I := fun c => Counted c ∧ Guarded c) ⟨initial_counted, by simp [Guarded, initial]⟩ ?_
    (fun _ hI => hI.2) ?_
  · intro c l c' hI hC hn
    exact ⟨counted_steps hI.1 (next_steps hn), guarded_steps hI.1 hI.2 hC (next_steps hn)⟩
  · intro c l c' hI hC hn
    exact not_guarded hI.1 hC (next_steps hn)

end

/-- One handler, one emit to it, and the destructor. -/
def destroyQueued : List (Label (Choice Nat)) :=
  Label.call (Choice.call (.connect .singleUpdates)) :: List.replicate 2 (.act 0 (.call .step)) ++
    Label.call (Choice.call (.emit 1)) :: List.replicate 4 (.act 1 (.call .step)) ++
    Label.call Choice.destroy :: List.replicate 3 (.act 2 (.call .step))

/-- The invocation is started, and refused, and its closure destroyed before the `disconnect`. -/
def disconnectRefused : List (Label (Choice Nat)) :=
  destroyQueued ++ [Label.call (Choice.call (.run 0)), .act 3 (.call .step), .act 3 (.call .step),
    .call (.call (.disconnect ⟨.singleUpdates, 0⟩)), .act 4 (.call .step)]

theorem run_guarded_iff_refused : (∀ p ∈ lifetime.path initial disconnectRefused, Guarded p.1) ∧
    Guarded (lifetime.last initial disconnectRefused) :=
  (run_guarded_iff (Program.run_last (l := disconnectRefused) (by decide))).mp (by decide)

/-- The `disconnect` comes while the invocation is queued. -/
def disconnectQueued : List (Label (Choice Nat)) :=
  destroyQueued ++ [Label.call (Choice.call (.disconnect ⟨.singleUpdates, 0⟩)), .act 3 (.call .step)]

theorem disconnectQueued_dangles : ¬ ∀ (tr : List (Config (Shared Nat) (Thread Nat) × Label (Choice Nat)))
    (c : Config (Shared Nat) (Thread Nat)), lifetime.Run initial tr c → Guarded c := by
  intro hall
  have := hall _ _ (Program.run_last (l := disconnectQueued) (by decide))
  exact absurd this (by decide)

end Xdispatch.Signal.Lifetime
