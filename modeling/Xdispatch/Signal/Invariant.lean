import Xdispatch.Signal.Model
import Mathlib.Algebra.Order.BigOperators.Group.Multiset
import Mathlib.Data.Multiset.OrderedMonoid

/-!
# What is under way in a signal

A signal does not care which thread a frame is on, nor whether an invocation is
still in its queue or on a thread that has yet to enter its scope: the frames of
all threads and the queued invocations are one pool, and every step of the
program takes one frame from the pool for those that follow it (`next_pool`).
The invariants weigh the frames of the pool.
-/

namespace Xdispatch.Signal

variable {α : Type}

def waiting (q : List (Invocation α)) : Multiset (Frame α) := ↑(q.map (Frame.invoke · .enter))

def pool (c : Config (Shared α) (Thread α)) : Multiset (Frame α) :=
  waiting c.shared.queued + Family.frames c.threads

/-- A thread may start `f`. -/
def Starts (s : Shared α) (f : Frame α) : Prop := ∃ e : Choice α, e.frame s = some f

/-- A call starts before it locks `m_CS`. -/
theorem Starts.cases {s : Shared α} {f : Frame α} (hs : Starts s f) : (∃ args, f = .emitLock args) ∨
    (∃ mode, f = .connectLock mode) ∨ (∃ h, h.serial < s.size ∧ f = .disconnectLock h) ∨ f = .skipLock := by
  obtain ⟨e, he⟩ := hs
  cases e with
  | emit args => exact Or.inl ⟨args, (Option.some.inj he).symm⟩
  | connect mode => exact Or.inr (Or.inl ⟨mode, (Option.some.inj he).symm⟩)
  | disconnect h =>
    simp only [Choice.frame] at he
    split at he
    next hlt => exact Or.inr (Or.inr (Or.inl ⟨h, hlt, (Option.some.inj he).symm⟩))
    · cases he
  | skipAll => exact Or.inr (Or.inr (Or.inr (Option.some.inj he).symm))
  | run k | step => cases he

/-- What a frame can do to the signal, and which frames follow it. An invocation
that an emit makes itself and one that it queues are both yet to enter. -/
inductive Moves (s : Shared α) : Frame α → Shared α → List (Frame α) → Prop
  | emitLock (args) : s.locked = false → Moves s (.emitLock args) (s.emit args) [.emitNext s.handlers args]
  | emitEnd (args) : Moves s (.emitNext [] args) s.unlock []
  | increment (h rest args) :
    Moves s (.emitNext (h :: rest) args) (s.modify h .increment) [.emitBranch h rest args (s.heap h).pending]
  | invoke (h rest args p q) : h.mode ≠ .batchUpdates ∨ p < 1 →
    Moves s (.emitBranch h rest args p) { s with queued := q }
      [.invoke (s.invocation h args) .enter, .emitNext rest args]
  | decrement (h rest args p) : h.mode = .batchUpdates → 1 ≤ p →
    Moves s (.emitBranch h rest args p) (s.modify h .decrement) [.emitNext rest args]
  | enter (inv) : s.admits inv.handler = true → Moves s (.invoke inv .enter) (s.enter inv) [.invoke inv .admitted]
  | refuse (inv) : s.admits inv.handler = false →
    Moves s (.invoke inv .enter) (s.modify inv.handler (.refuse inv.args inv.skips)) [.invoke inv .dropping]
  | execute (inv) : Moves s (.invoke inv .admitted) (s.modify inv.handler (.execute inv.args)) [.invoke inv .running]
  | leave (inv phase) : phase = .dropping ∨ phase = .completing →
    Moves s (.invoke inv .running) (s.modify inv.handler .leave) [.invoke inv phase]
  | complete (inv) :
    Moves s (.invoke inv .completing) (s.modify inv.handler .complete) [.invoke inv .dropping]
  | drop (inv) : Moves s (.invoke inv .dropping) s []
  | connectLock (mode) : s.locked = false →
    Moves s (.connectLock mode) { s with locked := true } [.connectPush mode]
  | connectPush (mode) : Moves s (.connectPush mode)
      { s with locked := false, handlers := s.handlers ++ [⟨mode, s.size⟩], size := s.size + 1 } []
  | disconnectLock (h) : s.locked = false →
    Moves s (.disconnectLock h) { s with locked := true } [.disconnectErase h]
  | disconnectErase (h) : Moves s (.disconnectErase h)
      { s with locked := false, handlers := s.handlers.filter (· ≠ h) } [.disable h none]
  | skipLock : s.locked = false → Moves s .skipLock { s with locked := true } [.skipNext s.handlers]
  | skipEnd : Moves s (.skipNext []) s.unlock []
  | skipNext (h rest) : Moves s (.skipNext (h :: rest)) s [.disable h (some rest)]
  | disconnectEnd (h) : Moves s (.disconnectEnd h) s []
  | disable (h skip g) : g = .disableWait h skip ∨ g = .disabled h skip →
    Moves s (.disable h skip) (s.modify h (.disable skip.isSome)) [g]
  | disableWait (h skip) : Moves s (.disableWait h skip) s [.disabled h skip]

theorem lock_eq {s s' t : Shared α} {fs gs : List (Frame α)}
    (h : (if s.locked then none else some (t, gs)) = some (s', fs)) : s.locked = false ∧ s' = t ∧ fs = gs := by
  by_cases hl : s.locked = true
  · rw [if_pos hl] at h
    cases h
  · rw [if_neg hl] at h
    cases h
    exact ⟨by simpa using hl, rfl, rfl⟩

theorem act_moves {s s' : Shared α} {f : Frame α} {fs : List (Frame α)} {current : HandlerId → Bool}
    (ha : f.act s current = some (s', fs)) :
    ∃ gs, Moves s f s' gs ∧ waiting s'.queued + (fs : Multiset (Frame α)) = waiting s.queued + gs := by
  cases f with
  | emitLock args =>
    obtain ⟨hl, rfl, rfl⟩ := lock_eq ha
    exact ⟨_, .emitLock args hl, rfl⟩
  | emitNext rest args =>
    cases rest <;> cases ha
    · exact ⟨_, .emitEnd args, rfl⟩
    · exact ⟨_, .increment _ _ args, rfl⟩
  | emitBranch h rest args p =>
    simp only [Frame.act] at ha
    by_cases hs : h.mode = .synchronousUpdate
    · rw [if_pos hs] at ha
      cases ha
      exact ⟨_, .invoke h rest args p s.queued (Or.inl (by simp [hs])), rfl⟩
    · rw [if_neg hs] at ha
      by_cases hq : h.mode = .singleUpdates ∨ p < 1
      · rw [if_pos hq] at ha
        cases ha
        refine ⟨_, .invoke h rest args p _ (hq.imp_left fun hm => by simp [hm]), ?_⟩
        simp [waiting, Shared.queue, ← Multiset.coe_add, ← Multiset.cons_coe, add_assoc]
      · rw [if_neg hq] at ha
        cases ha
        refine ⟨_, .decrement h rest args p ?_ (by omega), rfl⟩
        cases hm : h.mode <;> simp_all
  | invoke inv phase =>
    cases phase with
    | enter =>
      simp only [Frame.act] at ha
      by_cases had : s.admits inv.handler = true
      · rw [if_pos had] at ha
        cases ha
        exact ⟨_, .enter inv had, rfl⟩
      · rw [if_neg had] at ha
        cases ha
        exact ⟨_, .refuse inv (by simpa using had), rfl⟩
    | admitted =>
      cases ha
      exact ⟨_, .execute inv, rfl⟩
    | running =>
      cases ha
      exact ⟨_, .leave inv _ (by split <;> simp), rfl⟩
    | completing =>
      cases ha
      exact ⟨_, .complete inv, rfl⟩
    | dropping =>
      cases ha
      exact ⟨_, .drop inv, rfl⟩
  | connectLock mode =>
    obtain ⟨hl, rfl, rfl⟩ := lock_eq ha
    exact ⟨_, .connectLock mode hl, rfl⟩
  | connectPush mode =>
    cases ha
    exact ⟨_, .connectPush mode, rfl⟩
  | disconnectLock h =>
    obtain ⟨hl, rfl, rfl⟩ := lock_eq ha
    exact ⟨_, .disconnectLock h hl, rfl⟩
  | disconnectErase h =>
    cases ha
    exact ⟨_, .disconnectErase h, rfl⟩
  | disconnectEnd h =>
    cases ha
    exact ⟨_, .disconnectEnd h, rfl⟩
  | skipLock =>
    obtain ⟨hl, rfl, rfl⟩ := lock_eq ha
    exact ⟨_, .skipLock hl, rfl⟩
  | skipNext rest =>
    cases rest <;> cases ha
    · exact ⟨_, .skipEnd, rfl⟩
    · exact ⟨_, .skipNext _ _, rfl⟩
  | disable h skip =>
    cases ha
    exact ⟨_, .disable h skip _ (by split <;> simp), rfl⟩
  | disableWait h skip =>
    simp only [Frame.act] at ha
    split at ha <;> cases ha
    exact ⟨_, .disableWait h skip, rfl⟩

/-- A condition on the frame that moves, and on the state it moves in. -/
def stepping (D : Shared α → Frame α → Bool) (c : Config (Shared α) (Thread α)) : Label (Choice α) → Bool
  | .act i .step =>
    match c.threads[i]? with
    | some (f :: _) => D c.shared f
    | _ => true
  | _ => true

theorem stepping_of_ne {D : Shared α → Frame α → Bool} {c : Config (Shared α) (Thread α)} {l : Label (Choice α)}
    (hl : ∀ i, l ≠ .act i .step) : stepping D c l = true := by
  cases l with
  | call e => rfl
  | act i e =>
    cases e with
    | step => exact absurd rfl (hl i)
    | _ => rfl

theorem stepping_true (c : Config (Shared α) (Thread α)) (l : Label (Choice α)) :
    stepping (fun _ _ => true) c l = true := by
  unfold stepping
  split
  · split <;> rfl
  · rfl

theorem waiting_eraseIdx {q : List (Invocation α)} {k : Nat} {inv : Invocation α} (h : q[k]? = some inv) :
    waiting q = .invoke inv .enter ::ₘ waiting (q.eraseIdx k) := by
  induction q generalizing k with
  | nil => cases h
  | cons a q ih =>
    cases k with
    | zero =>
      cases h
      rfl
    | succ k =>
      have := ih (k := k) (by simpa using h)
      unfold waiting at *
      rw [List.eraseIdx_cons_succ, List.map_cons, List.map_cons, ← Multiset.cons_coe, ← Multiset.cons_coe, this,
        Multiset.cons_swap]

theorem act_starts {s s' : Shared α} {f : Frame α} {stack t' : Thread α} {e : Choice α} {new : List (Thread α)}
    (he : e ≠ .step) (ha : act s (f :: stack) e = some (s', t', new)) :
    ∃ g, e.frame s = some g ∧ (s, g :: f :: stack, []) = (s', t', new) := by
  by_cases hc : f.calls = true
  · cases e <;> simp_all [act]
  · cases e <;> simp_all [act]

theorem next_starts {c c' : Config (Shared α) (Thread α)} {l : Label (Choice α)} (hn : signal.next c l = some c')
    (hs : ∀ i, l ≠ .act i .step) (hr : ∀ k, l ≠ .call (.run k)) : c'.shared = c.shared ∧
    ∃ f, l.choice.frame c.shared = some f ∧ Family.frames c'.threads = f ::ₘ Family.frames c.threads := by
  cases l with
  | call e =>
    obtain ⟨s, new, hc, rfl⟩ := Program.next_call hn
    obtain ⟨f, he', hc⟩ : ∃ f, e.frame c.shared = some f ∧ (c.shared, [[f]]) = (s, new) := by
      cases e with
      | run k => exact absurd rfl (hr k)
      | _ => simpa [signal, call] using hc
    cases hc
    refine ⟨rfl, f, he', ?_⟩
    simp only [Family.frames_append, Multiset.coe_singleton, ← Multiset.singleton_add]
    abel
  | act i e =>
    obtain ⟨t, s, t', new, ht, ha, rfl⟩ := Program.next_act hn
    cases t with
    | nil => cases ha
    | cons f stack =>
      obtain ⟨F, hF, hset⟩ := Family.frames_step ht
      obtain ⟨g, hg, he⟩ := act_starts (fun he => hs i (by rw [he])) ha
      cases he
      refine ⟨rfl, g, hg, ?_⟩
      have := hset [g, f]
      simp only [List.cons_append, List.nil_append] at this
      simp only [List.append_nil, this, hF, ← Multiset.cons_coe, Multiset.coe_nil, ← Multiset.singleton_add]
      abel

/-- The three kinds of step: a queue hands over an invocation, a thread starts a
call, and the innermost call of a thread moves. -/
theorem next_frames {c c' : Config (Shared α) (Thread α)} {l : Label (Choice α)} (hn : signal.next c l = some c') :
    (∃ k inv, l = .call (.run k) ∧ c.shared.queued[k]? = some inv ∧
      c'.shared = { c.shared with queued := c.shared.queued.eraseIdx k } ∧
      Family.frames c'.threads = .invoke inv .enter ::ₘ Family.frames c.threads) ∨
    ((∀ i, l ≠ .act i .step) ∧ (∀ k, l ≠ .call (.run k)) ∧ c'.shared = c.shared ∧
      ∃ f, l.choice.frame c.shared = some f ∧ Family.frames c'.threads = f ::ₘ Family.frames c.threads) ∨
    ∃ i f stack fs F current, l = .act i .step ∧ c.threads[i]? = some (f :: stack) ∧
      f.act c.shared current = some (c'.shared, fs) ∧ Family.frames c.threads = f ::ₘ F ∧
      Family.frames c'.threads = ↑fs + F := by
  by_cases hr : ∃ k, l = .call (.run k)
  · obtain ⟨k, rfl⟩ := hr
    obtain ⟨s, new, hc, rfl⟩ := Program.next_call hn
    simp only [signal, call, Option.map_eq_some_iff] at hc
    obtain ⟨inv, hk, hc⟩ := hc
    cases hc
    refine Or.inl ⟨k, inv, rfl, hk, rfl, ?_⟩
    simp only [Family.frames_append, Multiset.coe_singleton, ← Multiset.singleton_add]
    abel
  by_cases hs : ∃ i, l = .act i .step
  · obtain ⟨i, rfl⟩ := hs
    obtain ⟨t, s, t', new, ht, ha, rfl⟩ := Program.next_act hn
    cases t with
    | nil => cases ha
    | cons f stack =>
      obtain ⟨F, hF, hset⟩ := Family.frames_step ht
      simp only [signal, act, Option.map_eq_some_iff] at ha
      obtain ⟨⟨s', fs⟩, ha, hr⟩ := ha
      cases hr
      refine Or.inr (Or.inr ⟨i, f, stack, fs, F, _, rfl, ht, ha, hF, ?_⟩)
      rw [List.append_nil, hset]
  · have hs' : ∀ i, l ≠ .act i .step := fun i hl => hs ⟨i, hl⟩
    have hr' : ∀ k, l ≠ .call (.run k) := fun k hl => hr ⟨k, hl⟩
    obtain ⟨hsh, f, hf, hF⟩ := next_starts hn hs' hr'
    exact Or.inr (Or.inl ⟨hs', hr', hsh, f, hf, hF⟩)

theorem next_pool {c c' : Config (Shared α) (Thread α)} {l : Label (Choice α)} (hn : signal.next c l = some c') :
    (∀ i, l ≠ .act i .step) ∧ (∃ q, c'.shared = { c.shared with queued := q }) ∧ pool c' = pool c ∨
    (∀ i, l ≠ .act i .step) ∧ c'.shared = c.shared ∧ (∃ f, l.choice.frame c.shared = some f ∧ pool c' = f ::ₘ pool c) ∨
    ∃ f fs F, (∀ D, stepping D c l = D c.shared f) ∧ pool c = f ::ₘ F ∧ Moves c.shared f c'.shared fs ∧
      pool c' = ↑fs + F := by
  rcases next_frames hn with ⟨k, inv, rfl, hk, hs, hf⟩ | ⟨hl, -, hs, f, hst, hf⟩ |
    ⟨i, f, stack, fs, F, _, rfl, ht, ha, hF, hf⟩
  · refine Or.inl ⟨by simp, ⟨_, hs⟩, ?_⟩
    simp only [pool, hs, hf, waiting_eraseIdx hk, ← Multiset.singleton_add]
    abel
  · refine Or.inr (Or.inl ⟨hl, hs, f, hst, ?_⟩)
    simp only [pool, hs, hf, ← Multiset.singleton_add]
    abel
  · obtain ⟨gs, hm, hq⟩ := act_moves ha
    refine Or.inr (Or.inr ⟨f, gs, waiting c.shared.queued + F, fun D => by simp [stepping, ht], ?_, hm, ?_⟩)
    · simp [pool, hF]
    · simp only [pool, hf]
      rw [← add_assoc, hq]
      abel

/-- The invariant rule over the pool: a queue that changes, a call that starts, a frame that moves. -/
theorem run_pool {I : Shared α → Multiset (Frame α) → Prop} {D : Shared α → Frame α → Bool}
    (h0 : I (initial (α := α)).shared 0) (hqueue : ∀ s F q, I s F → I { s with queued := q } F)
    (hstart : ∀ s F f, I s F → Starts s f → I s (f ::ₘ F))
    (hmove : ∀ s F f s' fs, I s (f ::ₘ F) → D s f = true → Moves s f s' fs → I s' (↑fs + F))
    {tr : List (Config (Shared α) (Thread α) × Label (Choice α))} {c : Config (Shared α) (Thread α)}
    (h : signal.Run initial tr c) (hD : Program.Along (fun c l => stepping D c l = true) tr) :
    I c.shared (pool c) := by
  refine h.invariant (I := fun c => I c.shared (pool c)) h0 (fun c l c' hI hC hn => ?_) hD
  rcases next_pool hn with ⟨-, ⟨q, hs⟩, hp⟩ | ⟨-, hs, f, hf, hp⟩ | ⟨f, fs, F, hst, hF, hm, hp⟩
  · rw [hs, hp]
    exact hqueue _ _ _ hI
  · rw [hs, hp]
    exact hstart _ _ _ hI ⟨_, hf⟩
  · rw [hp]
    rw [hF] at hI
    exact hmove _ _ _ _ _ hI (by rwa [hst] at hC) hm

section
variable {s s' : Shared α} {F : Multiset (Frame α)} {f : Frame α} {fs : List (Frame α)} {h k : HandlerId}

@[simp, grind =] theorem modify_locked (s : Shared α) (h : HandlerId) (g : Handler α → Handler α) :
    (s.modify h g).locked = s.locked := rfl

@[simp, grind =] theorem modify_handlers (s : Shared α) (h : HandlerId) (g : Handler α → Handler α) :
    (s.modify h g).handlers = s.handlers := rfl

@[simp, grind =] theorem modify_size (s : Shared α) (h : HandlerId) (g : Handler α → Handler α) :
    (s.modify h g).size = s.size := rfl

@[simp, grind =] theorem modify_heap (s : Shared α) (k h : HandlerId) (g : Handler α → Handler α) :
    (s.modify k g).heap h = if k = h then g (s.heap h) else s.heap h := by
  by_cases hk : k = h
  · subst hk
    simp [Shared.modify]
  · simp [Shared.modify, hk, Function.update_of_ne (Ne.symm hk)]

@[simp, grind =] theorem emit_heap (s : Shared α) (args : α) (h : HandlerId) :
    (s.emit args).heap h = if h ∈ s.handlers then (s.heap h).emit args else s.heap h := rfl

@[simp, grind =] theorem enter_heap (s : Shared α) (inv : Invocation α) (h : HandlerId) :
    (s.enter inv).heap h = if inv.handler = h then (s.heap h).enter else s.heap h := modify_heap ..

/-! ## The mutex -/

/-- The call that the frame is of holds `m_CS`. -/
@[grind] def Frame.holds : Frame α → Nat
  | .emitNext .. | .emitBranch .. | .connectPush _ | .disconnectErase _ | .skipNext _ => 1
  | .disable _ (some _) | .disableWait _ (some _) => 1
  | _ => 0

def weigh {M : Type} [AddCommMonoid M] (w : Frame α → M) (F : Multiset (Frame α)) : M := (F.map w).sum

section
variable {M : Type} [AddCommMonoid M] (w : Frame α → M)

@[simp] theorem weigh_zero : weigh w 0 = 0 := rfl

@[simp] theorem weigh_cons (f : Frame α) (F : Multiset (Frame α)) : weigh w (f ::ₘ F) = w f + weigh w F := by
  simp [weigh]

@[simp] theorem weigh_coe_cons (f : Frame α) (fs : List (Frame α)) (F : Multiset (Frame α)) :
    weigh w (↑(f :: fs) + F) = w f + weigh w (↑fs + F) := by
  rw [← Multiset.cons_coe, Multiset.cons_add, weigh_cons]

end

theorem weigh_eq_zero {M : Type} [AddCommMonoid M] [PartialOrder M] [IsOrderedAddMonoid M] [CanonicallyOrderedAdd M]
    {w : Frame α → M} {F : Multiset (Frame α)} : weigh w F = 0 ↔ ∀ f ∈ F, w f = 0 := by
  unfold weigh
  rw [Multiset.sum_eq_zero_iff]
  simp

/-- What `leave` and `disable` go on with; it has nothing for any handler. -/
def Frame.ending : Frame α → Bool
  | .invoke _ .completing | .invoke _ .dropping | .disconnectEnd _ | .disableWait .. | .skipNext _ => true
  | _ => false

theorem leave_ending (inv : Invocation α) {phase : InvokePhase} (hp : phase = .dropping ∨ phase = .completing) :
    ∀ g ∈ [Frame.invoke inv phase], g.ending = true := by
  rcases hp with rfl | rfl <;> simp [Frame.ending]

theorem disabled_ending (h : HandlerId) (skip : Option (List HandlerId)) :
    ∀ g ∈ [(Frame.disabled h skip : Frame α)], g.ending = true := by
  cases skip <;> simp [Frame.disabled, Frame.ending]

theorem disable_ending {skip : Option (List HandlerId)} (hf : f = .disableWait h skip ∨ f = .disabled h skip) :
    ∀ g ∈ [f], g.ending = true := by
  rcases hf with rfl | rfl
  · simp [Frame.ending]
  · exact disabled_ending h skip

theorem weigh_ending {M : Type} [AddCommMonoid M] {w : Frame α → M} (hw : ∀ g, g.ending = true → w g = 0)
    (hfs : ∀ g ∈ fs, g.ending = true) (F : Multiset (Frame α)) : weigh w (↑fs + F) = weigh w F := by
  induction fs with
  | nil => rw [Multiset.coe_nil, zero_add]
  | cons g fs ih =>
    rw [weigh_coe_cons, hw g (hfs g (List.mem_cons_self ..)), zero_add]
    exact ih fun g hg => hfs g (List.mem_cons_of_mem _ hg)

def Locked (s : Shared α) (F : Multiset (Frame α)) : Prop := weigh Frame.holds F = s.locked.toNat

theorem locked_start (hI : Locked s F) (hs : Starts s f) : Locked s (f ::ₘ F) := by
  have : f.holds = 0 := by
    rcases hs.cases with ⟨_, rfl⟩ | ⟨_, rfl⟩ | ⟨_, -, rfl⟩ | rfl <;> rfl
  unfold Locked at *
  rw [weigh_cons, this, Nat.zero_add, hI]

theorem locked_move (hI : Locked s (f ::ₘ F)) (hm : Moves s f s' fs) : Locked s' (↑fs + F) := by
  unfold Locked at *
  rw [weigh_cons] at hI
  cases hm with
  | disable h skip g hg =>
    rcases hg with rfl | rfl <;> cases skip <;> simpa [Frame.holds, Frame.disabled] using hI
  | disableWait h skip => cases skip <;> simpa [Frame.holds, Frame.disabled] using hI
  | leave inv phase hp => rcases hp with rfl | rfl <;> simpa [Frame.holds] using hI
  | emitLock args hl | connectLock mode hl | disconnectLock h hl | skipLock hl =>
    simp_all [Frame.holds, Shared.emit]
  | emitEnd args | connectPush mode | disconnectErase h | skipEnd =>
    have := Bool.toNat_le s.locked
    simp_all [Frame.holds, Shared.unlock]
    omega
  | _ => simpa [Frame.holds, Shared.enter] using hI

/-! ## Handlers are made before they are used -/

@[grind] def Frame.handlers : Frame α → List HandlerId
  | .emitNext rest _ | .skipNext rest => rest
  | .emitBranch h rest _ _ => h :: rest
  | .invoke inv _ => [inv.handler]
  | .disconnectLock h | .disconnectErase h | .disconnectEnd h => [h]
  | .disable h skip | .disableWait h skip => h :: skip.getD []
  | _ => []

structure Made (s : Shared α) (F : Multiset (Frame α)) : Prop where
  nodup : s.handlers.Nodup
  listed : ∀ h ∈ s.handlers, h.serial < s.size
  used : ∀ f ∈ F, ∀ h ∈ f.handlers, h.serial < s.size
  fresh : ∀ h : HandlerId, s.size ≤ h.serial → s.heap h = .new

theorem moves_used (hm : Moves s f s' fs) : ∀ g ∈ fs, ∀ h ∈ g.handlers, h ∈ f.handlers ∨ h ∈ s.handlers := by
  cases hm with
  | disable h skip g hg => rcases hg with rfl | rfl <;> cases skip <;> simp [Frame.handlers, Frame.disabled] <;> grind
  | disableWait h skip =>
    cases skip <;> simp [Frame.handlers, Frame.disabled]
    grind
  | leave inv phase hp => simp [Frame.handlers]
  | _ => simp [Frame.handlers, Shared.invocation] <;> grind

theorem moves_size (hm : Moves s f s' fs) : s.size ≤ s'.size := by
  cases hm <;> simp [Shared.emit, Shared.unlock, Shared.enter]

theorem moves_heap (hm : Moves s f s' fs) (hf : h ∉ f.handlers) (hs : h ∉ s.handlers) : s'.heap h = s.heap h := by
  cases hm <;> simp_all [Frame.handlers, Shared.emit, Shared.unlock, Shared.enter] <;> grind

theorem moves_handlers (hm : Moves s f s' fs) : List.Sublist s'.handlers s.handlers ∨
    ∃ mode, s'.handlers = s.handlers ++ [⟨mode, s.size⟩] ∧ s'.size = s.size + 1 := by
  cases hm with
  | connectPush mode => exact Or.inr ⟨mode, rfl, rfl⟩
  | disconnectErase h => exact Or.inl List.filter_sublist
  | _ => exact Or.inl (List.Sublist.refl _)

theorem made_start (hI : Made s F) (hs : Starts s f) : Made s (f ::ₘ F) := by
  refine ⟨hI.nodup, hI.listed, fun g hg => ?_, hI.fresh⟩
  rcases Multiset.mem_cons.mp hg with rfl | hg
  · rcases hs.cases with ⟨_, rfl⟩ | ⟨_, rfl⟩ | ⟨k, hk, rfl⟩ | rfl <;> simp [Frame.handlers]
    exact hk
  · exact hI.used g hg

theorem made_move (hI : Made s (f ::ₘ F)) (hm : Moves s f s' fs) : Made s' (↑fs + F) := by
  have hsize := moves_size hm
  have hf : ∀ h, h ∈ f.handlers ∨ h ∈ s.handlers → h.serial < s.size :=
    fun h => Or.rec (hI.used f (Multiset.mem_cons_self f F) h) (hI.listed h)
  refine ⟨?_, fun h hh => ?_, fun g hg h hh => ?_, fun h hh => ?_⟩
  · rcases moves_handlers hm with hs | ⟨mode, hs, -⟩
    · exact hI.nodup.sublist hs
    · rw [hs]
      refine List.Nodup.append hI.nodup (List.nodup_singleton _) ?_
      intro h hh hn
      have := hI.listed h hh
      rw [List.mem_singleton.mp hn] at this
      exact Nat.lt_irrefl _ this
  · rcases moves_handlers hm with hs | ⟨mode, hs, hn⟩
    · exact Nat.lt_of_lt_of_le (hI.listed h (hs.subset hh)) hsize
    · rw [hs, List.mem_append, List.mem_singleton] at hh
      rw [hn]
      rcases hh with hh | rfl
      · exact Nat.lt_succ_of_lt (hI.listed h hh)
      · exact Nat.lt_succ_self _
  · rcases Multiset.mem_add.mp hg with hg | hg
    · exact Nat.lt_of_lt_of_le (hf h (moves_used hm g (Multiset.mem_coe.mp hg) h hh)) hsize
    · exact Nat.lt_of_lt_of_le (hI.used g (Multiset.mem_cons_of_mem hg) h hh) hsize
  · have hlt : s.size ≤ h.serial := Nat.le_trans hsize hh
    rw [moves_heap hm, hI.fresh h hlt]
    · exact fun hm => absurd (hf h (Or.inl hm)) (Nat.not_lt.mpr hlt)
    · exact fun hm => absurd (hf h (Or.inr hm)) (Nat.not_lt.mpr hlt)

/-! ## Pending invocations -/

/-- The emit has raised `m_pending` of `h` and has not decided what to do. -/
@[grind] def Frame.branches (h : HandlerId) : Frame α → Nat
  | .emitBranch k .. => if k = h then 1 else 0
  | _ => 0

/-- An invocation of `h` that has not called the function. -/
@[grind] def Frame.waits (h : HandlerId) : Frame α → Nat
  | .invoke inv .enter | .invoke inv .admitted => if inv.handler = h then 1 else 0
  | _ => 0

theorem branches_ending : ∀ g : Frame α, g.ending = true → g.branches h = 0
  | .invoke _ .completing, _ | .invoke _ .dropping, _ | .disconnectEnd _, _ | .disableWait .., _ | .skipNext _, _ => rfl

theorem waits_ending : ∀ g : Frame α, g.ending = true → g.waits h = 0
  | .invoke _ .completing, _ | .invoke _ .dropping, _ | .disconnectEnd _, _ | .disableWait .., _ | .skipNext _, _ => rfl

/-- `m_pending` is raised for an emit that decides, for an invocation that
waits, and for good for one that was refused. -/
def Counted (h : HandlerId) (s : Shared α) (F : Multiset (Frame α)) : Prop :=
  (s.heap h).pending = weigh (Frame.branches h) F + weigh (Frame.waits h) F + (s.heap h).refused.length

theorem counted_start (hI : Counted h s F) (hs : Starts s f) : Counted h s (f ::ₘ F) := by
  have : f.branches h = 0 ∧ f.waits h = 0 := by
    rcases hs.cases with ⟨_, rfl⟩ | ⟨_, rfl⟩ | ⟨_, -, rfl⟩ | rfl <;> exact ⟨rfl, rfl⟩
  unfold Counted at *
  rw [weigh_cons, weigh_cons, this.1, this.2, hI, Nat.zero_add, Nat.zero_add]

theorem counted_move (hI : Counted h s (f ::ₘ F)) (hm : Moves s f s' fs) : Counted h s' (↑fs + F) := by
  unfold Counted at *
  rw [weigh_cons, weigh_cons] at hI
  cases hm with
  | emitLock args hl =>
    by_cases hh : h ∈ s.handlers <;> simpa [Frame.branches, Frame.waits, Handler.emit, hh] using hI
  | increment k rest args =>
    by_cases hk : k = h
    · simp [Frame.branches, Frame.waits, Handler.increment, hk] at hI ⊢
      omega
    · simpa [Frame.branches, Frame.waits, hk] using hI
  | invoke k rest args p q hp =>
    by_cases hk : k = h
    · simp [Frame.branches, Frame.waits, Shared.invocation, hk] at hI ⊢
      omega
    · simpa [Frame.branches, Frame.waits, Shared.invocation, hk] using hI
  | decrement k rest args p hb hp =>
    by_cases hk : k = h
    · simp [Frame.branches, Frame.waits, Handler.decrement, hk] at hI ⊢
      omega
    · simpa [Frame.branches, Frame.waits, hk] using hI
  | enter inv ha =>
    by_cases hk : inv.handler = h <;> simpa [Frame.branches, Frame.waits, Handler.enter, hk] using hI
  | refuse inv hr =>
    -- `m_pending` stays as it is, and counts the refused invocation from now on
    by_cases hk : inv.handler = h
    · simp [Frame.branches, Frame.waits, Handler.refuse, hk] at hI ⊢
      omega
    · simpa [Frame.branches, Frame.waits, hk] using hI
  | execute inv =>
    by_cases hk : inv.handler = h
    · simp [Frame.branches, Frame.waits, Handler.execute, hk] at hI ⊢
      omega
    · simpa [Frame.branches, Frame.waits, hk] using hI
  | leave inv phase hp =>
    rw [weigh_ending branches_ending (leave_ending inv hp), weigh_ending waits_ending (leave_ending inv hp)]
    by_cases hk : inv.handler = h <;> simpa [Frame.branches, Frame.waits, Handler.leave, hk] using hI
  | complete inv =>
    by_cases hk : inv.handler = h <;> simpa [Frame.branches, Frame.waits, Handler.complete, hk] using hI
  | disable k skip g hg =>
    rw [weigh_ending branches_ending (disable_ending hg), weigh_ending waits_ending (disable_ending hg)]
    by_cases hk : k = h <;> simpa [Frame.branches, Frame.waits, Handler.disable, hk] using hI
  | disableWait k skip =>
    rw [weigh_ending branches_ending (disabled_ending k skip), weigh_ending waits_ending (disabled_ending k skip)]
    simpa [Frame.branches, Frame.waits] using hI
  | _ => simpa [Frame.branches, Frame.waits, Shared.unlock] using hI

/-! ## What an emit carries to its handlers -/

/-- The arguments that the frame still has for `h`. -/
@[grind] def Frame.carries (h : HandlerId) : Frame α → Multiset α
  | .emitNext rest args => Multiset.replicate (rest.count h) args
  | .emitBranch k rest args _ => Multiset.replicate ((k :: rest).count h) args
  | .invoke inv .enter | .invoke inv .admitted => if inv.handler = h then {inv.args} else 0
  | _ => 0

theorem carries_ending : ∀ g : Frame α, g.ending = true → g.carries h = 0
  | .invoke _ .completing, _ | .invoke _ .dropping, _ | .disconnectEnd _, _ | .disableWait .., _ | .skipNext _, _ => rfl

/-- Every emit that found `h` connected is under way, was executed or was refused. -/
def Carried (h : HandlerId) (s : Shared α) (F : Multiset (Frame α)) : Prop :=
  (↑(s.heap h).emitted : Multiset α) = weigh (Frame.carries h) F + ↑(s.heap h).executed + ↑(s.heap h).refused

theorem carried_start (hI : Carried h s F) (hs : Starts s f) : Carried h s (f ::ₘ F) := by
  have : f.carries h = 0 := by
    rcases hs.cases with ⟨_, rfl⟩ | ⟨_, rfl⟩ | ⟨_, -, rfl⟩ | rfl <;> rfl
  unfold Carried at *
  rw [weigh_cons, this, zero_add, hI]

theorem carried_move (hb : h.mode ≠ .batchUpdates) (hM : s.handlers.Nodup) (hI : Carried h s (f ::ₘ F))
    (hm : Moves s f s' fs) : Carried h s' (↑fs + F) := by
  unfold Carried at *
  rw [weigh_cons] at hI
  cases hm with
  | emitLock args hl =>
    by_cases hh : h ∈ s.handlers
    · simp only [Frame.carries, zero_add] at hI
      simp only [weigh_coe_cons, Multiset.coe_nil, zero_add, Frame.carries, List.count_eq_one_of_mem hM hh,
        Multiset.replicate_one, Shared.emit, if_pos hh, Handler.emit]
      rw [← Multiset.coe_add, hI, Multiset.coe_singleton]
      abel
    · simpa [Frame.carries, Shared.emit, hh, List.count_eq_zero_of_not_mem hh] using hI
  | increment k rest args =>
    by_cases hk : k = h <;> simp_all [Frame.carries, Handler.increment]
  | invoke k rest args p q hp =>
    by_cases hk : k = h
    · subst hk
      simp only [Frame.carries, List.count_cons_self, Multiset.replicate_succ, ← Multiset.singleton_add] at hI
      simp only [weigh_coe_cons, Multiset.coe_nil, zero_add, Frame.carries, Shared.invocation, if_true, hI]
      abel
    · simp_all [Frame.carries, Shared.invocation]
  | decrement k rest args p hp =>
    have hk : k ≠ h := fun e => hb (e ▸ hp)
    simp_all [Frame.carries]
  | refuse inv hr =>
    by_cases hk : inv.handler = h
    · simp only [Frame.carries, if_pos hk] at hI
      simp only [weigh_coe_cons, Multiset.coe_nil, zero_add, modify_heap, if_pos hk, Handler.refuse, Frame.carries]
      rw [← Multiset.coe_add, hI, Multiset.coe_singleton]
      abel
    · simpa [Frame.carries, hk] using hI
  | execute inv =>
    by_cases hk : inv.handler = h
    · simp only [Frame.carries, if_pos hk] at hI
      simp only [weigh_coe_cons, Multiset.coe_nil, zero_add, modify_heap, if_pos hk, Handler.execute, Frame.carries]
      rw [← Multiset.coe_add, hI, Multiset.coe_singleton]
      abel
    · simpa [Frame.carries, hk] using hI
  | disable k skip g hg =>
    rw [weigh_ending carries_ending (disable_ending hg)]
    by_cases hk : k = h <;> simpa [Frame.carries, Handler.disable, hk] using hI
  | disableWait k skip =>
    rw [weigh_ending carries_ending (disabled_ending k skip)]
    simpa [Frame.carries] using hI
  | leave inv phase hp =>
    rw [weigh_ending carries_ending (leave_ending inv hp)]
    by_cases hk : inv.handler = h <;> simpa [Frame.carries, Handler.leave, hk] using hI
  | enter inv ha | complete inv =>
    by_cases hk : inv.handler = h <;> simp_all [Frame.carries, Shared.enter, Handler.enter, Handler.complete]
  | _ => simpa [Frame.carries, Shared.unlock] using hI

/-! ## One scope at a time -/

theorem moves_enabled (hm : Moves s f s' fs) (ha : (s'.heap h).cancelable.active ≠ .disabled) :
    (s.heap h).cancelable.active ≠ .disabled := by
  cases hm <;> grind

theorem moves_disabled (hm : Moves s f s' fs) (hd : (s.heap h).cancelable.active = .disabled) :
    (s'.heap h).cancelable.active = .disabled :=
  Classical.byContradiction fun hn => moves_enabled hm hn hd

@[grind] def Frame.scoped (h : HandlerId) : Frame α → Nat
  | .invoke inv .admitted | .invoke inv .running => if inv.handler = h then 1 else 0
  | _ => 0

theorem scoped_ending : ∀ g : Frame α, g.ending = true → g.scoped h = 0
  | .invoke _ .completing, _ | .invoke _ .dropping, _ | .disconnectEnd _, _ | .disableWait .., _ | .skipNext _, _ => rfl

/-- One call is in the scope of `h` at a time, and none while `h` admits one. -/
structure Scoped (h : HandlerId) (s : Shared α) (F : Multiset (Frame α)) : Prop where
  one : weigh (Frame.scoped h) F ≤ 1
  enabled : (s.heap h).cancelable.active = .enabled → weigh (Frame.scoped h) F = 0

theorem scoped_start (hI : Scoped h s F) (hs : Starts s f) : Scoped h s (f ::ₘ F) := by
  have h0 : f.scoped h = 0 := by
    rcases hs.cases with ⟨_, rfl⟩ | ⟨_, rfl⟩ | ⟨_, -, rfl⟩ | rfl <;> rfl
  refine ⟨?_, fun ha => ?_⟩
  · rw [weigh_cons, h0, Nat.zero_add]
    exact hI.one
  · rw [weigh_cons, h0, Nat.zero_add]
    exact hI.enabled ha

theorem Scoped.le (hI : Scoped h s F) {F' : Multiset (Frame α)} (hw : weigh (Frame.scoped h) F' ≤ weigh (Frame.scoped h) F)
    (ha : (s'.heap h).cancelable.active = .enabled → (s.heap h).cancelable.active = .enabled) : Scoped h s' F' := by
  refine ⟨Nat.le_trans hw hI.one, fun he => ?_⟩
  have := hI.enabled (ha he)
  omega

theorem scoped_move (hI : Scoped h s (f ::ₘ F)) (hm : Moves s f s' fs) : Scoped h s' (↑fs + F) := by
  cases hm with
  | enter inv ha =>
    by_cases hk : inv.handler = h
    · subst hk
      have hact : (s.heap inv.handler).cancelable.active = .enabled := by
        simpa [Shared.admits, Cancelable.admits] using ha
      have h0 := hI.enabled hact
      rw [weigh_cons] at h0
      refine ⟨?_, fun he => ?_⟩
      · rw [weigh_coe_cons, Multiset.coe_nil, zero_add]
        simp only [Frame.scoped, if_true]
        omega
      · simp [Handler.enter, Cancelable.enter, Cancelable.admits, hact] at he
    · refine hI.le ?_ fun he => ?_
      · simp [Frame.scoped, hk]
      · simpa [hk] using he
  | leave inv phase hp =>
    have hle := weigh_ending (scoped_ending (h := h)) (leave_ending inv hp) F
    by_cases hk : inv.handler = h
    · subst hk
      have h1 := hI.one
      rw [weigh_cons] at h1
      simp only [Frame.scoped, if_true] at h1
      refine ⟨by rw [hle]; omega, fun _ => by rw [hle]; omega⟩
    · refine hI.le ?_ fun he => ?_
      · rw [hle, weigh_cons]
        omega
      · simpa [hk] using he
  | disable k skip g hg =>
    refine hI.le ?_ fun he => ?_
    · rw [weigh_ending scoped_ending (disable_ending hg), weigh_cons]
      omega
    · by_cases hk : k = h
      · simp [hk, Handler.disable, Cancelable.disable] at he
      · simpa [hk] using he
  | disableWait k skip =>
    refine hI.le ?_ id
    rw [weigh_ending scoped_ending (disabled_ending k skip), weigh_cons]
    omega
  | refuse inv hr | execute inv | complete inv =>
    refine hI.le ?_ fun he => ?_
    · simp [Frame.scoped]
    · by_cases hk : inv.handler = h <;>
        simpa [hk, Handler.refuse, Handler.execute, Handler.complete, Cancelable.complete] using he
  | increment k | decrement k =>
    refine hI.le ?_ fun he => ?_
    · simp [Frame.scoped]
    · by_cases hk : k = h <;> simpa [hk, Handler.increment, Handler.decrement] using he
  | emitLock args hl =>
    refine hI.le ?_ fun he => ?_
    · simp [Frame.scoped]
    · by_cases hh : h ∈ s.handlers <;> simpa [hh, Handler.emit] using he
  | invoke k rest args p q hp => exact hI.le (by simp [Frame.scoped, Shared.invocation]) id
  | _ => exact hI.le (by simp [Frame.scoped]) id

/-! ## Runs -/

structure Inv (s : Shared α) (F : Multiset (Frame α)) : Prop where
  locked : Locked s F
  made : Made s F
  counted : ∀ h, Counted h s F
  carried : ∀ h, h.mode ≠ .batchUpdates → Carried h s F

theorem initial_inv : Inv (initial (α := α)).shared 0 := by
  refine ⟨rfl, ⟨List.nodup_nil, by simp [initial], by simp, fun _ _ => rfl⟩, fun h => ?_, fun h _ => ?_⟩
  · simp [Counted, initial, Handler.new]
  · simp [Carried, initial, Handler.new]

theorem Inv.queue (hI : Inv s F) (q : List (Invocation α)) : Inv { s with queued := q } F :=
  ⟨hI.locked, ⟨hI.made.nodup, hI.made.listed, hI.made.used, hI.made.fresh⟩, hI.counted, hI.carried⟩

theorem Inv.start (hI : Inv s F) (hs : Starts s f) : Inv s (f ::ₘ F) :=
  ⟨locked_start hI.locked hs, made_start hI.made hs, fun h => counted_start (hI.counted h) hs,
    fun h hb => carried_start (hI.carried h hb) hs⟩

theorem Inv.move (hI : Inv s (f ::ₘ F)) (hm : Moves s f s' fs) : Inv s' (↑fs + F) :=
  ⟨locked_move hI.locked hm, made_move hI.made hm, fun h => counted_move (hI.counted h) hm,
    fun h hb => carried_move hb hI.made.nodup (hI.carried h hb) hm⟩

theorem run_inv {tr : List (Config (Shared α) (Thread α) × Label (Choice α))} {c : Config (Shared α) (Thread α)}
    (h : signal.Run initial tr c) : Inv c.shared (pool c) :=
  run_pool initial_inv (fun _ _ q hI => hI.queue q) (fun _ _ _ hI hs => hI.start hs)
    (fun _ _ _ _ _ hI _ hm => hI.move hm) h fun p _ => stepping_true p.1 p.2

theorem Inv.alone (hI : Inv s (f ::ₘ F)) (hf : f.holds = 1) : ∀ g ∈ F, g.holds = 0 := by
  have h := hI.locked
  have := Bool.toNat_le s.locked
  unfold Locked at h
  rw [weigh_cons, hf] at h
  exact weigh_eq_zero.mp (by omega)

theorem Inv.held (hI : Inv s (f ::ₘ F)) {g : Frame α} (hg : g ∈ F) (h1 : g.holds = 1) :
    f.holds = 0 ∧ s.locked = true := by
  have h := hI.locked
  have hF : weigh Frame.holds F ≠ 0 := by
    intro h0
    have := weigh_eq_zero.mp h0 g hg
    omega
  have := Bool.toNat_le s.locked
  unfold Locked at h
  rw [weigh_cons] at h
  refine ⟨by omega, ?_⟩
  cases hl : s.locked with
  | true => rfl
  | false =>
    rw [hl, Bool.toNat_false] at h
    omega

end

end Xdispatch.Signal
