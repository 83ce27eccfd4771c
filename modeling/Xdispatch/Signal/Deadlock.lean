import Xdispatch.Lib.Deadlock
import Xdispatch.Signal.Invariant
import Xdispatch.Signal.Lifetime

/-!
# Waiting in a signal

A thread waits for the one that holds `m_CS`, or in `m_barrier.wait` for the one
that is in the scope of the handler. `skip_all` and the destructor do the second
while they hold `m_CS`, and an emit holds it while it makes a synchronous call.
-/

namespace Xdispatch.Signal.Lifetime

variable {α : Type}

namespace Frame

def locks : Frame α → Bool
  | .call (.emitLock _) | .call (.connectLock _) | .call (.disconnectLock _) | .call .skipLock | .destroyLock => true
  | _ => false

def holds : Frame α → Bool
  | .call f => f.holds = 1
  | .destroyNext _ | .destroyWait .. => true
  | _ => false

/-- In the `m_barrier.wait` of a handler. -/
def awaits : Frame α → Option HandlerId
  | .call (.disableWait h _) | .destroyWait h _ => some h
  | _ => none

/-- Before the `disable` of a handler. -/
def disables : Frame α → Option HandlerId
  | .call (.disable h _) | .destroyNext (h :: _) => some h
  | _ => none

def idle (f : Frame α) : Bool := !f.locks && f.awaits.isNone

end Frame

def barrier (s : Shared α) (h : HandlerId) : Bool := (s.signal.heap h).cancelable.barrier

/-- Who waits for whom: the innermost call of a thread wants `m_CS` or waits for a
barrier that has not been completed, any of them may hold `m_CS` or be in a scope. -/
def graph (c : Config (Shared α) (Thread α)) : Waiting Nat where
  locks i := ∃ t, c.threads[i]? = some t ∧ t.head?.any Frame.locks = true
  holds i := ∃ t, c.threads[i]? = some t ∧ t.any Frame.holds = true
  awaits i j := ∃ t u h, c.threads[i]? = some t ∧ t.head?.bind Frame.awaits = some h ∧ barrier c.shared h = false ∧
    c.threads[j]? = some u ∧ current u h = true

/-- The step leaves the thread before `m_CS.lock()`. -/
def comesToLock (s : Shared α) : Thread α → Choice α → Bool
  | .lockId h :: _, .call .step => s.held h && s.life ≠ .destroyed
  | _, .call (.emit _) | _, .call (.connect _) | _, .call .skipAll | _, .destroy => true
  | _, _ => false

/-- The step leaves the thread in the `m_barrier.wait` of a handler. -/
def comesToWait (s : Shared α) (t : Thread α) : Choice α → Option HandlerId
  | .call .step => (t.head?.bind Frame.disables).filter fun h => waitsFor s.signal (current t) h && !barrier s h
  | _ => none

/-- A handler takes `m_CS` when no thread that holds it waits for the handler's own, and a
`disable` waits for a call that does not in turn wait for the thread of the `disable`. -/
def callsFreely (c : Config (Shared α) (Thread α)) : Label (Choice α) → Prop
  | .act i e => ∀ t, c.threads[i]? = some t → (comesToLock c.shared t e = true → (graph c).MayLock i) ∧
      ∀ h j u, comesToWait c.shared t e = some h → c.threads[j]? = some u → current u h = true → (graph c).MayAwait i j
  | .call _ => True

/-- No set of threads wait for each other. -/
def DeadlockFree (c : Config (Shared α) (Thread α)) : Prop := ¬ Deadlocked (graph c).waitsFor

/-- The calls below the innermost one of a thread do not wait. -/
def Resting (c : Config (Shared α) (Thread α)) : Prop := ∀ t ∈ c.threads, ∀ f ∈ t.tail, Frame.idle f = true

section
variable {c c' : Config (Shared α) (Thread α)} {l : Label (Choice α)} {s s' : Shared α} {f g : Frame α}
  {fs stack : List (Frame α)} {cur : HandlerId → Bool} {h : HandlerId} {i j k : Nat} {t t' : Thread α}

/-! ## What a call comes to -/

theorem moves_barrier {s s' : Signal.Shared α} {f : Signal.Frame α} {fs : List (Signal.Frame α)}
    (hm : Moves s f s' fs) (hb : (s'.heap h).cancelable.barrier = false) : (s.heap h).cancelable.barrier = false := by
  cases hm with
  | increment k | decrement k | disable k =>
    by_cases hk : k = h <;> simp_all [Handler.increment, Handler.decrement, Handler.disable, Cancelable.disable]
  | enter inv | refuse inv | execute inv | leave inv | complete inv =>
    by_cases hk : inv.handler = h <;> simp_all [Handler.enter, Handler.refuse, Handler.execute, Handler.leave,
      Handler.complete, Cancelable.enter, Cancelable.leave, Cancelable.complete]
    all_goals
      split at hb <;> simp_all
  | emitLock =>
    by_cases hk : h ∈ s.handlers <;> simp_all [Handler.emit]
  | _ => simpa [Shared.unlock] using hb

/-- What a step of the innermost call comes to: nothing that waits, `m_CS`, or a barrier. -/
inductive Comes (s : Shared α) (cur : HandlerId → Bool) : Frame α → Shared α → List (Frame α) → Prop
  | idle (f : Frame α) (s' : Shared α) (fs : List (Frame α)) : (∀ g ∈ fs, g.idle = true) →
    (∀ h, f = .lockId h → s.held h = true → s.life = .destroyed) →
    (∀ h, f.disables = some h → waitsFor s.signal cur h = false) → Comes s cur f s' fs
  | lock (h : HandlerId) : s.held h = true → s.life ≠ .destroyed →
    Comes s cur (.lockId h) s [.call (.disconnectLock h)]
  | wait (f : Frame α) (s' : Shared α) (g : Frame α) (h : HandlerId) : f.disables = some h →
    waitsFor s.signal cur h = true → g.awaits = some h → g.locks = false → g.holds = f.holds →
    (∀ k, g.inScope k = false) → (∀ k, barrier s' k = barrier s k) → Comes s cur f s' [g]

theorem Comes.of_idle (hall : ∀ g ∈ fs, g.idle = true) (hd : f.disables = none) (hl : ∀ h, f ≠ .lockId h) :
    Comes s cur f s' fs := by
  refine .idle f s' fs hall (fun h hf => absurd hf (hl h)) fun h hf => ?_
  rw [hd] at hf
  cases hf

theorem barrier_disable (s : Signal.Shared α) (k h : HandlerId) (b : Bool) :
    ((s.modify k (.disable b)).heap h).cancelable.barrier = (s.heap h).cancelable.barrier := by
  rw [modify_heap]
  split <;> rfl

theorem idle_disabled (h : HandlerId) (skip : Option (List HandlerId)) :
    ∀ g ∈ [(Signal.Frame.disabled h skip : Signal.Frame α)], Frame.idle (.call g) = true := by
  cases skip <;> simp [Signal.Frame.disabled, Frame.idle, Frame.locks, Frame.awaits]

theorem call_comes {f : Signal.Frame α} {r : Signal.Shared α × List (Signal.Frame α)}
    (ha : f.act s.signal cur = some r) : Comes s cur (.call f) { s with signal := r.1 } (r.2.map .call) := by
  obtain ⟨s', fs⟩ := r
  have hall : (∀ g ∈ fs, Frame.idle (.call g) = true) → ∀ g ∈ fs.map Frame.call, g.idle = true := by
    intro hall g hg
    obtain ⟨k, hk, rfl⟩ := List.mem_map.mp hg
    exact hall k hk
  have key : (∀ g ∈ fs, Frame.idle (.call g) = true) → Frame.disables (.call f) = none →
      Comes s cur (.call f) { s with signal := s' } (fs.map .call) :=
    fun h hd => .of_idle (hall h) hd (by simp)
  cases f with
  | disable h skip =>
    cases ha
    by_cases hw : waitsFor s.signal cur h = true
    · simp only [waitsFor] at hw
      simp only [hw, if_true, List.map_cons, List.map_nil]
      refine .wait _ _ _ h rfl hw rfl rfl ?_ (fun _ => rfl) fun k => barrier_disable ..
      cases skip <;> rfl
    · have hw' : ∀ k, some h = some k → waitsFor s.signal cur k = false := by
        rintro k ⟨⟩
        simpa using hw
      simp only [waitsFor] at hw
      rw [if_neg hw] at hall ⊢
      exact .idle _ _ _ (hall (idle_disabled h skip)) (by simp) hw'
  | disableWait h skip =>
    simp only [Signal.Frame.act] at ha
    split at ha <;> cases ha
    exact key (idle_disabled h skip) rfl
  | emitLock args | connectLock mode | disconnectLock h | skipLock =>
    obtain ⟨-, -, rfl⟩ := lock_eq ha
    exact key (by simp [Frame.idle, Frame.locks, Frame.awaits]) rfl
  | emitNext rest args | skipNext rest =>
    cases rest <;> cases ha <;> exact key (by simp [Frame.idle, Frame.locks, Frame.awaits]) rfl
  | emitBranch h rest args pending =>
    simp only [Signal.Frame.act] at ha
    split at ha
    · cases ha
      exact key (by simp [Frame.idle, Frame.locks, Frame.awaits]) rfl
    · split at ha <;> cases ha <;> exact key (by simp [Frame.idle, Frame.locks, Frame.awaits]) rfl
  | invoke inv phase =>
    cases phase with
    | enter =>
      simp only [Signal.Frame.act] at ha
      split at ha <;> cases ha <;> exact key (by simp [Frame.idle, Frame.locks, Frame.awaits]) rfl
    | running =>
      cases ha
      refine key ?_ rfl
      split <;> simp [Frame.idle, Frame.locks, Frame.awaits]
    | _ =>
      cases ha
      exact key (by simp [Frame.idle, Frame.locks, Frame.awaits]) rfl
  | connectPush mode | disconnectErase h | disconnectEnd h =>
    cases ha
    exact key (by simp [Frame.idle, Frame.locks, Frame.awaits]) rfl

theorem act_comes (ha : f.act s cur = some (s', fs)) : Comes s cur f s' fs := by
  cases f with
  | call f =>
    simp only [Frame.act] at ha
    split at ha
    · cases ha
    simp only [Option.map_eq_some_iff, Prod.mk.injEq] at ha
    obtain ⟨r, ha, rfl, rfl⟩ := ha
    exact call_comes ha
  | lockId h =>
    simp only [Frame.act] at ha
    split at ha
    next hh =>
      cases ha
      refine .idle _ _ _ (by simp) ?_ (by simp [Frame.disables])
      rintro k ⟨⟩ hk
      rw [hk] at hh
      cases hh
    next hh =>
      split at ha <;> cases ha
      next hd =>
        refine .idle _ _ _ ?_ (fun _ _ _ => hd) (by simp [Frame.disables])
        simp [Frame.idle, Frame.locks, Frame.awaits]
      next hd => exact .lock h (by simpa using hh) hd
  | dangling h => cases ha
  | destroyLock | destroyWait h rest =>
    simp only [Frame.act] at ha
    split at ha <;> cases ha
    exact .of_idle (by simp [Frame.idle, Frame.locks, Frame.awaits]) rfl (by simp)
  | destroyNext rest =>
    cases rest with
    | nil =>
      cases ha
      exact .of_idle (by simp) rfl (by simp)
    | cons h rest =>
      cases ha
      by_cases hw : waitsFor s.signal cur h = true
      · rw [if_pos hw]
        exact .wait _ _ _ h rfl hw rfl rfl rfl (fun _ => rfl) fun k => barrier_disable ..
      · rw [if_neg hw]
        refine .idle _ _ _ (by simp [Frame.idle, Frame.locks, Frame.awaits]) (by simp) ?_
        rintro k ⟨⟩
        simpa using hw

theorem act_barrier (ha : f.act s cur = some (s', fs)) (hb : barrier s' h = false) : barrier s h = false := by
  cases f with
  | call f =>
    simp only [Frame.act] at ha
    split at ha
    · cases ha
    simp only [Option.map_eq_some_iff, Prod.mk.injEq] at ha
    obtain ⟨r, ha, rfl, -⟩ := ha
    obtain ⟨gs, hm, -⟩ := act_moves ha
    exact moves_barrier hm hb
  | lockId k =>
    simp only [Frame.act] at ha
    split at ha
    · cases ha
      exact hb
    · split at ha <;> cases ha <;> exact hb
  | dangling k => cases ha
  | destroyLock | destroyWait k rest =>
    simp only [Frame.act] at ha
    split at ha <;> cases ha
    exact hb
  | destroyNext rest =>
    cases rest with
    | nil =>
      cases ha
      exact hb
    | cons k rest =>
      cases ha
      exact (barrier_disable ..).symm.trans hb

/-! ## What a step does to the waiting -/

/-- `t'` is waited for by those that wait for `t`. -/
def Fewer (t' t : Thread α) : Prop :=
  (t'.any Frame.holds = true → t.any Frame.holds = true) ∧ ∀ h, current t' h = true → current t h = true

/-- The step is one of thread `i`. -/
structure Kept (i : Nat) (c c' : Config (Shared α) (Thread α)) : Prop where
  others : ∀ j, j ≠ i → c'.threads[j]? = c.threads[j]?
  barrier : ∀ h, barrier c'.shared h = false → barrier c.shared h = false

theorem Kept.waitsFor (hk : Kept i c c') (hj : j ≠ i)
    (hu : ∀ u', c'.threads[k]? = some u' → ∃ u, c.threads[k]? = some u ∧ Fewer u' u)
    (hw : (graph c').waitsFor j k) : (graph c).waitsFor j k := by
  rcases hw with ⟨⟨t, ht, hl⟩, u', hu', hh⟩ | ⟨t, u', h, ht, hl, hb, hu', hc⟩
  · rw [hk.others j hj] at ht
    obtain ⟨u, hu, hf⟩ := hu u' hu'
    exact Or.inl ⟨⟨t, ht, hl⟩, u, hu, hf.1 hh⟩
  · rw [hk.others j hj] at ht
    obtain ⟨u, hu, hf⟩ := hu u' hu'
    exact Or.inr ⟨t, u, h, ht, hl, hk.barrier h hb, hu, hf.2 h hc⟩

theorem Kept.fewer (hk : Kept i c c') (hki : k ≠ i) :
    ∀ u', c'.threads[k]? = some u' → ∃ u, c.threads[k]? = some u ∧ Fewer u' u := by
  intro u' hu'
  rw [hk.others k hki] at hu'
  exact ⟨u', hu', id, fun _ => id⟩

theorem Kept.fewer_self (hk : Kept i c c') (ht : c.threads[i]? = some t) (ht' : c'.threads[i]? = some t')
    (hf : Fewer t' t) : ∀ u', c'.threads[k]? = some u' → ∃ u, c.threads[k]? = some u ∧ Fewer u' u := by
  by_cases hki : k = i
  · subst hki
    intro u' hu'
    rw [ht'] at hu'
    cases hu'
    exact ⟨t, ht, hf⟩
  · exact hk.fewer hki

theorem Kept.deadlockFree (hk : Kept i c c') (hd : DeadlockFree c)
    (hi : (∀ j, ¬ (graph c').waitsFor i j) ∨ ∀ j, ¬ (graph c').waitsFor j i) : DeadlockFree c' :=
  fun h => hd (h.erase hi fun _ _ hj hki => hk.waitsFor hj (hk.fewer hki))

theorem not_waitsFor (ht : c.threads[i]? = some t) (hl : t.head?.any Frame.locks = false)
    (hw : ∀ h, t.head?.bind Frame.awaits = some h → barrier c.shared h = true) : ¬ (graph c).waitsFor i j := by
  rintro (⟨⟨u, hu, h⟩, -⟩ | ⟨u, -, h, hu, ha, hb, -⟩)
  · rw [ht] at hu
    cases hu
    rw [hl] at h
    cases h
  · rw [ht] at hu
    cases hu
    rw [hw h ha] at hb
    cases hb

theorem idle_head (h : ∀ f ∈ t, f.idle = true) : t.head?.any Frame.locks = false ∧ t.head?.bind Frame.awaits = none := by
  cases t with
  | nil => exact ⟨rfl, rfl⟩
  | cons f stack =>
    have := h f (List.mem_cons_self ..)
    simp only [Frame.idle, Bool.and_eq_true, Bool.not_eq_true', Option.isNone_iff_eq_none] at this
    exact ⟨this.1, this.2⟩

/-! ## Steps -/

theorem Begins.free (hb : Begins g) : g.holds = false ∧ g.awaits = none ∧ ∀ h, g.inScope h = false := by
  cases hb <;> exact ⟨rfl, rfl, fun _ => rfl⟩

theorem start_locks {e : Choice α} (hs : e.start s = some (s', g)) (t : Thread α) : comesToLock s t e = g.locks := by
  cases e with
  | destroy =>
    simp only [Choice.start] at hs
    split at hs <;> cases hs
    simp [comesToLock, Frame.locks]
  | call e =>
    cases e with
    | disconnect h =>
      simp only [Choice.start] at hs
      split at hs <;> cases hs
      simp [comesToLock, Frame.locks]
    | run k | step =>
      simp only [Choice.start, Signal.Choice.frame] at hs
      split at hs <;> cases hs
    | _ =>
      simp only [Choice.start, Signal.Choice.frame] at hs
      split at hs <;> cases hs
      simp [comesToLock, Frame.locks]

theorem comesToWait_of_ne {e : Choice α} (he : e ≠ .call .step) : comesToWait s t e = none := by
  cases e with
  | destroy => rfl
  | call e =>
    cases e with
    | step => exact absurd rfl he
    | _ => rfl

theorem calls_idle (hf : f.calls = true) : f.idle = true ∧ f.awaits = none := by
  cases f with
  | call f =>
    cases f with
    | invoke inv phase => exact ⟨rfl, rfl⟩
    | _ => cases hf
  | _ => cases hf

theorem resting_steps (hR : Resting c) (hs : Steps c l c') : Resting c' := by
  cases hs with
  | start e s g hs => exact Family.forall_append hR (by simp)
  | run k inv hk => exact Family.forall_append hR (by simp)
  | nest i e f stack s g he ht hf hs =>
    intro t hm
    rcases List.mem_or_eq_of_mem_set hm with hm | rfl
    · exact hR t hm
    · intro x hx
      rcases List.mem_cons.mp hx with rfl | hx
      · exact (calls_idle hf).1
      · exact hR _ (Family.mem_of_get ht) x hx
  | act i f stack s fs ht ha =>
    have hstack : ∀ x ∈ stack, x.idle = true := hR _ (Family.mem_of_get ht)
    intro t hm
    rcases List.mem_or_eq_of_mem_set hm with hm | rfl
    · exact hR t hm
    · cases act_comes ha with
      | idle _ _ _ hfs =>
        intro x hx
        rcases List.mem_append.mp (List.mem_of_mem_tail hx) with hx | hx
        · exact hfs x hx
        · exact hstack x hx
      | lock h | wait _ _ g h => exact hstack

theorem new_deadlockFree (hd : DeadlockFree c) (hb : ∀ h, barrier s h = barrier c.shared h) (hg : g.holds = false)
    (hsc : ∀ h, g.inScope h = false) : DeadlockFree ⟨s, c.threads ++ [[g]]⟩ := by
  have hk : Kept c.threads.length c ⟨s, c.threads ++ [[g]]⟩ := by
    refine ⟨fun j hj => ?_, fun h hh => (hb h).symm.trans hh⟩
    rcases Nat.lt_or_gt_of_ne hj with hlt | hgt
    · exact List.getElem?_append_left hlt
    · rw [List.getElem?_eq_none (by simp; omega), List.getElem?_eq_none (by omega)]
  have hn : (c.threads ++ [[g]])[c.threads.length]? = some [g] := by simp
  refine hk.deadlockFree hd (Or.inr fun j hw => ?_)
  rcases hw with ⟨-, u, hu, hh⟩ | ⟨-, u, h, -, -, -, hu, hh⟩
  · rw [hn] at hu
    cases hu
    simp [hg] at hh
  · rw [hn] at hu
    cases hu
    simp [current, hsc] at hh

theorem kept_set (ht : c.threads[i]? = some t) (hb : ∀ h, barrier s h = false → barrier c.shared h = false) (t' : Thread α) :
    Kept i c ⟨s, c.threads.set i t'⟩ ∧ (c.threads.set i t')[i]? = some t' := by
  refine ⟨⟨fun j hj => List.getElem?_set_ne (Ne.symm hj), hb⟩, ?_⟩
  exact List.getElem?_set_self (List.getElem?_eq_some_iff.mp ht).1

theorem Kept.lock (hk : Kept i c c') (hd : DeadlockFree c) (ht : c.threads[i]? = some t)
    (ht' : c'.threads[i]? = some (g :: stack)) (hf : Fewer (g :: stack) t) (hg : g.awaits = none)
    (hm : (graph c).MayLock i) : DeadlockFree c' := by
  refine fun h => hd (Waiting.deadlocked_lock (fun j k hj => hk.waitsFor hj (hk.fewer_self ht ht' hf)) ?_ hm h)
  intro j hij
  rcases hij with ⟨-, u', hu', hh⟩ | ⟨u, -, h, hu, ha, -⟩
  · obtain ⟨u, hu, hf⟩ := hk.fewer_self ht ht' hf u' hu'
    exact ⟨u, hu, hf.1 hh⟩
  · rw [ht'] at hu
    cases hu
    rw [List.head?_cons, Option.bind_some, hg] at ha
    cases ha

theorem Kept.await (hk : Kept i c c') (hd : DeadlockFree c) (ht : c.threads[i]? = some t)
    (ht' : c'.threads[i]? = some (g :: stack)) (hf : Fewer (g :: stack) t) (hl : g.locks = false)
    (hg : g.awaits = some h)
    (hm : ∀ j u, c.threads[j]? = some u → current u h = true → (graph c).MayAwait i j) : DeadlockFree c' := by
  refine fun hc => hd (Waiting.deadlocked_await (fun j k hj => hk.waitsFor hj (hk.fewer_self ht ht' hf)) ?_ hc)
  intro j hij
  rcases hij with ⟨⟨u, hu, hlu⟩, -⟩ | ⟨u, u', k, hu, ha, -, hu', hc⟩
  · rw [ht'] at hu
    cases hu
    rw [List.head?_cons, Option.any_some, hl] at hlu
    cases hlu
  · rw [ht'] at hu
    cases hu
    rw [List.head?_cons, Option.bind_some, hg] at ha
    cases ha
    obtain ⟨u, hu, hf⟩ := hk.fewer_self ht ht' hf u' hu'
    exact hm j u hu (hf.2 h hc)

theorem deadlockFree_steps (hR : Resting c) (hd : DeadlockFree c) (hC : callsFreely c l) (hs : Steps c l c') :
    DeadlockFree c' := by
  cases hs with
  | start e s g hs =>
    obtain ⟨hsig, -, -, hb⟩ := start_begins hs
    obtain ⟨hg, -, hsc⟩ := hb.free
    exact new_deadlockFree hd (fun h => by rw [barrier, hsig, barrier]) hg hsc
  | run k inv hk => exact new_deadlockFree hd (fun _ => rfl) rfl fun _ => rfl
  | nest i e f stack s g he ht hf hs =>
    obtain ⟨hsig, -, -, hb⟩ := start_begins hs
    obtain ⟨hg, hw, hsc⟩ := hb.free
    obtain ⟨hk, ht'⟩ := kept_set ht (s := s) (fun h hh => by rwa [barrier, hsig] at hh) (g :: f :: stack)
    by_cases hl : g.locks = true
    · have hfew : Fewer (g :: f :: stack) (f :: stack) := ⟨by simp [hg], by simp [current, hsc]⟩
      exact hk.lock hd ht ht' hfew hw ((hC _ ht).1 (by rw [start_locks hs, hl]))
    · exact hk.deadlockFree hd (Or.inl fun j => not_waitsFor ht' (by simpa using hl) (by simp [hw]))
  | act i f stack s fs ht ha =>
    obtain ⟨hk, ht'⟩ := kept_set ht (s := s.exchange [f] fs) (fun h hh => act_barrier ha hh) (fs ++ stack)
    have hstack : ∀ x ∈ stack, x.idle = true := hR _ (Family.mem_of_get ht)
    cases act_comes ha with
    | idle _ _ _ hfs =>
      obtain ⟨hl, hw⟩ := idle_head (t := fs ++ stack) fun x hx => by
        rcases List.mem_append.mp hx with hx | hx
        · exact hfs x hx
        · exact hstack x hx
      exact hk.deadlockFree hd (Or.inl fun j => not_waitsFor ht' hl fun h hh => by rw [hw] at hh; cases hh)
    | lock h hh hlife =>
      have hfew : Fewer (.call (.disconnectLock h) :: stack) (.lockId h :: stack) :=
        ⟨by simp [Frame.holds, Signal.Frame.holds], by simp [current, Frame.inScope, Signal.Frame.inScope]⟩
      exact hk.lock hd ht ht' hfew rfl ((hC _ ht).1 (by simp [comesToLock, hh, hlife]))
    | wait _ _ g h hdis hw haw hl hh hsc hbar =>
      have hfew : Fewer (g :: stack) (f :: stack) := by
        refine ⟨by simp only [List.any_cons, hh]; exact id, fun k hc => ?_⟩
        simp only [current, List.any_cons, hsc, Bool.false_or] at hc ⊢
        rw [hc, Bool.or_true]
      by_cases hb : barrier c.shared h = true
      · refine hk.deadlockFree hd (Or.inl fun j => not_waitsFor ht' (by simpa using hl) fun k hk => ?_)
        rw [List.singleton_append, List.head?_cons, Option.bind_some, haw] at hk
        cases hk
        exact (hbar h).trans hb
      · refine hk.await hd ht ht' hfew hl haw fun j u hu hc => (hC _ ht).2 h j u ?_ hu hc
        simp [comesToWait, hdis, hw, hb]

/-! ## Steps that close a circle -/

theorem Kept.more (hk : Kept i c c') (ht : c.threads[i]? = some t) (ht' : c'.threads[i]? = some t')
    (hf : Fewer t t') : ∀ (k : Nat) (u : Thread α), c.threads[k]? = some u → ∃ u', c'.threads[k]? = some u' ∧ Fewer u u' := by
  intro k u hu
  by_cases hki : k = i
  · subst hki
    rw [ht] at hu
    cases hu
    exact ⟨t', ht', hf⟩
  · exact ⟨u, (hk.others k hki).trans hu, id, fun _ => id⟩

theorem graph_le (hk : Kept i c c') (hb : ∀ h, barrier c'.shared h = barrier c.shared h)
    (ht : c.threads[i]? = some (f :: stack)) (ht' : c'.threads[i]? = some t) (hf : Fewer (f :: stack) t)
    (hl : f.locks = false) (hw : f.awaits = none) :
    (∀ j k, (graph c).awaits j k → (graph c').awaits j k) ∧ (∀ j, (graph c).holds j → (graph c').holds j) ∧
      ∀ j, (graph c).locks j → (graph c').locks j := by
  have hmore := hk.more ht ht' hf
  refine ⟨?_, ?_, ?_⟩
  · rintro j k ⟨u, v, h, hu, ha, hbar, hv, hc⟩
    have hj : j ≠ i := by
      rintro rfl
      rw [ht] at hu
      cases hu
      rw [List.head?_cons, Option.bind_some, hw] at ha
      cases ha
    obtain ⟨v', hv', hfv⟩ := hmore k v hv
    exact ⟨u, v', h, (hk.others j hj).trans hu, ha, (hb h).trans hbar, hv', hfv.2 h hc⟩
  · rintro j ⟨u, hu, hh⟩
    obtain ⟨u', hu', hfu⟩ := hmore j u hu
    exact ⟨u', hu', hfu.1 hh⟩
  · rintro j ⟨u, hu, hlu⟩
    have hj : j ≠ i := by
      rintro rfl
      rw [ht] at hu
      cases hu
      rw [List.head?_cons, Option.any_some, hl] at hlu
      cases hlu
    exact ⟨u, (hk.others j hj).trans hu, hlu⟩

theorem not_callsFreely {e : Choice α} (ht : c.threads[i]? = some t) (hC : ¬ callsFreely c (.act i e)) :
    (comesToLock c.shared t e = true ∧ ¬ (graph c).MayLock i) ∨
    ∃ h j u, comesToWait c.shared t e = some h ∧ c.threads[j]? = some u ∧ current u h = true ∧
      ¬ (graph c).MayAwait i j := by
  refine Classical.byContradiction fun hn => hC ?_
  rw [not_or] at hn
  intro t' ht'
  rw [ht] at ht'
  cases ht'
  refine ⟨fun hl => Classical.byContradiction fun hm => hn.1 ⟨hl, hm⟩, fun h j u hw hu hc => ?_⟩
  exact Classical.byContradiction fun hm => hn.2 ⟨h, j, u, hw, hu, hc, hm⟩

theorem disables_idle (hf : f.disables = some h) : f.locks = false ∧ f.awaits = none ∧ ∀ k, f ≠ .lockId k := by
  cases f with
  | call f =>
    cases f with
    | disable k skip => exact ⟨rfl, rfl, by simp⟩
    | _ => cases hf
  | destroyNext rest => exact ⟨rfl, rfl, by simp⟩
  | _ => cases hf

theorem not_deadlockFree (hC : ¬ callsFreely c l) (hs : Steps c l c') : ¬ DeadlockFree c' := by
  intro hd
  cases hs with
  | start | run => exact hC trivial
  | nest i e f stack s g he ht hf hs =>
    obtain ⟨hsig, -, -, hb⟩ := start_begins hs
    have hbar : ∀ h, barrier s h = barrier c.shared h := fun h => by rw [barrier, hsig, barrier]
    obtain ⟨hk, ht'⟩ := kept_set ht (fun h hh => (hbar h).symm.trans hh) (g :: f :: stack)
    obtain ⟨hidle, haw⟩ := calls_idle hf
    have hl : f.locks = false := by simpa [Frame.idle, haw] using hidle
    have hfew : Fewer (f :: stack) (g :: f :: stack) := by
      refine ⟨fun hh => ?_, fun h hc => ?_⟩
      · rw [List.any_cons, hh, Bool.or_true]
      · change (f :: stack).any _ = true at hc
        change (g :: f :: stack).any _ = true
        rw [List.any_cons, hc, Bool.or_true]
    obtain ⟨ha, hh, -⟩ := graph_le hk hbar ht ht' hfew hl haw
    rcases not_callsFreely ht hC with ⟨hcl, hm⟩ | ⟨h, j, u, hw, -⟩
    · rw [start_locks hs] at hcl
      exact hd (Waiting.deadlocked_of_not_mayLock ha hh ⟨_, ht', hcl⟩ hm)
    · rw [comesToWait_of_ne he] at hw
      cases hw
  | act i f stack s fs ht ha =>
    obtain ⟨hk, ht'⟩ := kept_set ht (s := s.exchange [f] fs) (fun h hh => act_barrier ha hh) (fs ++ stack)
    cases act_comes ha with
    | idle _ _ _ hfs hlock hwait =>
      rcases not_callsFreely ht hC with ⟨hcl, -⟩ | ⟨h, j, u, hw, -⟩
      · cases f with
        | lockId h =>
          simp only [comesToLock, Bool.and_eq_true, decide_eq_true_eq] at hcl
          exact hcl.2 (hlock h rfl hcl.1)
        | _ => cases hcl
      · simp only [comesToWait, List.head?_cons, Option.bind_some, Option.filter_eq_some_iff, Bool.and_eq_true] at hw
        rw [hwait h hw.1] at hw
        exact Bool.false_ne_true hw.2.1
    | lock h hh hlife =>
      have hfew : Fewer (.lockId h :: stack) (.call (.disconnectLock h) :: stack) :=
        ⟨by simp [Frame.holds, Signal.Frame.holds], by simp [current, Frame.inScope, Signal.Frame.inScope]⟩
      obtain ⟨ha, hh, -⟩ := graph_le hk (fun _ => rfl) ht ht' hfew rfl rfl
      rcases not_callsFreely ht hC with ⟨-, hm⟩ | ⟨k, j, u, hw, -⟩
      · exact hd (Waiting.deadlocked_of_not_mayLock ha hh ⟨_, ht', rfl⟩ hm)
      · cases hw
    | wait _ _ g h hdis hw haw hl hh hsc hbar =>
      obtain ⟨hfl, hfa, hne⟩ := disables_idle hdis
      have hfsc : ∀ k, f.inScope k = false := by
        intro k
        cases f with
        | call f =>
          cases f with
          | disable => rfl
          | _ => cases hdis
        | _ => rfl
      have hfew : Fewer (f :: stack) (g :: stack) := by
        refine ⟨by simp only [List.any_cons, hh]; exact id, fun k hc => ?_⟩
        simp only [current, List.any_cons, hfsc, Bool.false_or] at hc ⊢
        rw [hc, Bool.or_true]
      obtain ⟨ha, hh, hll⟩ := graph_le hk hbar ht ht' hfew hfl hfa
      rcases not_callsFreely ht hC with ⟨hcl, -⟩ | ⟨k, j, u, hw, hu, hc, hm⟩
      · cases f with
        | lockId k => exact hne k rfl
        | _ => cases hcl
      · simp only [comesToWait, List.head?_cons, Option.bind_some, hdis, Option.filter_eq_some_iff, Bool.and_eq_true,
          Bool.not_eq_true'] at hw
        obtain ⟨hhk, -, hb⟩ := hw
        cases hhk
        obtain ⟨u', hu', hfu⟩ := hk.more ht ht' hfew j u hu
        have hij : (graph ⟨s.exchange [f] [g], c.threads.set i ([g] ++ stack)⟩).awaits i j :=
          ⟨_, u', h, ht', haw, (hbar h).trans hb, hu', hfu.2 h hc⟩
        exact hd (Waiting.deadlocked_of_not_mayAwait ha hh hll hij hm)

theorem initial_deadlockFree : Resting (initial : Config (Shared α) (Thread α)) ∧
    DeadlockFree (initial : Config (Shared α) (Thread α)) := by
  refine ⟨by simp [Resting, initial], ?_⟩
  rintro ⟨S, ⟨i, hi⟩, hS⟩
  obtain ⟨j, -, ⟨⟨t, ht, -⟩, -⟩ | ⟨t, u, h, ht, -⟩⟩ := hS i hi
  · cases ht
  · cases ht

end

/-- Nobody holds `m_CS` when a handler takes it, and no `disable` waits. -/
def uncontended (c : Config (Shared α) (Thread α)) : Label (Choice α) → Bool
  | .act i e => c.threads[i]?.all fun t =>
      (!comesToLock c.shared t e || c.threads.all fun u => !u.any Frame.holds) && (comesToWait c.shared t e).isNone
  | .call _ => true

theorem uncontended_callsFreely {c : Config (Shared α) (Thread α)} {l : Label (Choice α)}
    (hu : uncontended c l = true) : callsFreely c l := by
  cases l with
  | call e => trivial
  | act i e =>
    intro t ht
    simp only [uncontended, ht, Option.all_some, Bool.and_eq_true, Bool.or_eq_true, Bool.not_eq_true',
      List.all_eq_true, Option.isNone_iff_eq_none] at hu
    refine ⟨fun hl m hm _ => ?_, fun h j u hw => ?_⟩
    · obtain ⟨u, hu', hh⟩ := hm
      rcases hu.1 with hn | hn
      · exact Bool.false_ne_true (hn.symm.trans hl)
      · exact Bool.false_ne_true ((hn u (List.mem_of_getElem? hu')).symm.trans hh)
    · rw [hu.2] at hw
      cases hw

/-- A handler with one emit to it, up to the call of its function. -/
def calling (mode : NotificationMode) (i : Nat) (started : List (Label (Choice Nat))) : List (Label (Choice Nat)) :=
  Label.call (Choice.call (.connect mode)) :: List.replicate 2 (.act 0 (.call .step)) ++
    Label.call (Choice.call (.emit 1)) :: started ++ List.replicate 2 (Label.act i (Choice.call .step))

/-- On its queue, the function disconnects its own handler. -/
def disconnectItself : List (Label (Choice Nat)) :=
  calling .singleUpdates 2 (List.replicate 4 (Label.act 1 (Choice.call .step)) ++
    [Label.call (Choice.call (.run 0))]) ++
    Label.act 2 (Choice.call (.disconnect ⟨.singleUpdates, 0⟩)) :: List.replicate 6 (.act 2 (.call .step))

/-- In a synchronous call, it waits for the `m_CS` that its own emit holds. -/
def disconnectSynchronous : List (Label (Choice Nat)) :=
  calling .synchronousUpdate 1 (List.replicate 3 (.act 1 (.call .step))) ++
    [Label.act 1 (Choice.call (.disconnect ⟨.synchronousUpdate, 0⟩)), .act 1 (.call .step)]

end Xdispatch.Signal.Lifetime
