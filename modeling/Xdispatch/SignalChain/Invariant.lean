import Xdispatch.SignalChain.Model
import Xdispatch.Signal.Invariant

/-!
# What is under way in a graph of signals

The calls of all threads on one signal, with its queued invocations, are a pool of
frames as in `Signal.Invariant`, which takes the steps that a signal by itself takes
(`next_pool`); a link adds the calls of emits to it.
-/

namespace Xdispatch.SignalChain

open Signal (Frame HandlerId Invocation Moves weigh)

variable {ν α : Type}

/-! ## A signal that keeps its connections -/

def emitting : Frame α → Bool
  | .emitLock _ | .emitNext .. | .emitBranch .. | .invoke .. => true
  | _ => false

/-- Nothing connects or disconnects, and a handler is enabled unless a call is in its scope. -/
structure Node (G : Graph ν) (n : ν) (s : Signal.Shared α) (F : Multiset (Frame α)) : Prop where
  locked : Signal.Locked s F
  handlers : s.handlers = G.handlers n
  emits : ∀ f ∈ F, emitting f = true
  used : ∀ f ∈ F, ∀ h ∈ f.handlers, h ∈ G.handlers n
  sole : ∀ h, Signal.Scoped h s F
  enabled : ∀ h, weigh (Frame.scoped h) F = 0 → (s.heap h).cancelable.active = .enabled
  notDisabled : ∀ h, (s.heap h).cancelable.active ≠ .disabled

theorem node_initial (G : Graph ν) (n : ν) : Node (α := α) G n (connected (G.connections n)) 0 :=
  ⟨rfl, rfl, by simp, by simp, fun _ => ⟨by simp, fun _ => rfl⟩, fun _ _ => rfl, fun _ h => by cases h⟩

section
variable {G : Graph ν} {n : ν} {s s' : Signal.Shared α} {f : Frame α} {fs : List (Frame α)} {F : Multiset (Frame α)}
  {h : HandlerId}

theorem moves_emitting (hm : Moves s f s' fs) (hf : emitting f = true) :
    (∀ g ∈ fs, emitting g = true) ∧ s'.handlers = s.handlers ∧
      ∀ h, (s.heap h).cancelable.active ≠ .disabled → (s'.heap h).cancelable.active ≠ .disabled := by
  cases hm with
  | enter inv ha =>
    refine ⟨by simp [emitting], rfl, fun h hh => ?_⟩
    grind
  | emitLock args | emitEnd args | increment k rest args | invoke k rest args p q | decrement k rest args p
  | refuse inv | execute inv | leave inv | complete inv =>
    refine ⟨by simp [emitting], rfl, fun h hh => ?_⟩
    grind
  | drop inv => exact ⟨by simp, rfl, fun _ => id⟩
  | _ => cases hf

namespace Node

theorem queue (hI : Node G n s F) (q : List (Invocation α)) : Node G n { s with queued := q } F :=
  ⟨hI.locked, hI.handlers, hI.emits, hI.used, fun h => ⟨(hI.sole h).one, (hI.sole h).enabled⟩, hI.enabled,
    hI.notDisabled⟩

theorem start (hI : Node G n s F) (args : α) : Node G n s (.emitLock args ::ₘ F) := by
  have hs : Signal.Starts s (.emitLock args) := ⟨.emit args, rfl⟩
  refine ⟨Signal.locked_start hI.locked hs, hI.handlers, fun g hg => ?_, fun g hg => ?_,
    fun h => Signal.scoped_start (hI.sole h) hs, fun h h0 => ?_, hI.notDisabled⟩
  · rcases Multiset.mem_cons.mp hg with rfl | hg
    · rfl
    · exact hI.emits g hg
  · rcases Multiset.mem_cons.mp hg with rfl | hg
    · simp [Frame.handlers]
    · exact hI.used g hg
  · apply hI.enabled h
    rw [Signal.weigh_cons] at h0
    exact (Nat.add_eq_zero_iff.mp h0).2

theorem enabled_move (hI : Node G n s (f ::ₘ F)) (hm : Moves s f s' fs)
    (h0 : weigh (Frame.scoped h) ((fs : Multiset (Frame α)) + F) = 0) : (s'.heap h).cancelable.active = .enabled := by
  have hen := hI.enabled h
  have hdis := hI.notDisabled h
  have hsc := (hI.sole h).enabled
  rw [Signal.weigh_cons] at hen hsc
  cases hm with
  | leave inv phase hp =>
    rw [Signal.weigh_ending Signal.scoped_ending (Signal.leave_ending inv hp)] at h0
    by_cases hk : inv.handler = h
    · have hrun : (s.heap h).cancelable.active = .running := by
        cases hact : (s.heap h).cancelable.active with
        | disabled => exact absurd hact hdis
        | running => rfl
        | enabled =>
          have := hsc hact
          simp [Frame.scoped, hk] at this
      simp [hk, Signal.Handler.leave, Cancelable.leave, Cancelable.leaves, hrun]
    · have := hen (by simp [Frame.scoped, hk, h0])
      simpa [hk] using this
  | enter inv ha =>
    by_cases hk : inv.handler = h
    · simp [Frame.scoped, hk] at h0
    · have := hen (by simpa [Frame.scoped, hk] using h0)
      simpa [hk] using this
  | execute inv =>
    have := hen (by simpa [Frame.scoped] using h0)
    by_cases hk : inv.handler = h <;> simpa [hk, Signal.Handler.execute] using this
  | refuse inv hr =>
    have := hen (by simpa [Frame.scoped] using h0)
    by_cases hk : inv.handler = h <;> simpa [hk, Signal.Handler.refuse] using this
  | complete inv =>
    have := hen (by simpa [Frame.scoped] using h0)
    by_cases hk : inv.handler = h <;> simpa [hk, Signal.Handler.complete, Cancelable.complete] using this
  | increment k rest args | decrement k rest args p =>
    have := hen (by simpa [Frame.scoped] using h0)
    by_cases hk : k = h <;> simpa [hk, Signal.Handler.increment, Signal.Handler.decrement] using this
  | emitLock args hl =>
    have := hen (by simpa [Frame.scoped] using h0)
    by_cases hk : h ∈ s.handlers <;> simpa [hk, Signal.Handler.emit] using this
  | invoke k rest args p q hp => exact hen (by simpa [Frame.scoped, Signal.Shared.invocation] using h0)
  | emitEnd args | drop inv => exact hen (by simpa [Frame.scoped] using h0)
  | _ => exact absurd (hI.emits _ (Multiset.mem_cons_self ..)) (by simp [emitting])

theorem move (hI : Node G n s (f ::ₘ F)) (hm : Moves s f s' fs) : Node G n s' (↑fs + F) := by
  obtain ⟨hfs, hh, hd⟩ := moves_emitting hm (hI.emits f (Multiset.mem_cons_self ..))
  refine ⟨Signal.locked_move hI.locked hm, hh.trans hI.handlers, fun g hg => ?_, fun g hg h hgh => ?_,
    fun h => Signal.scoped_move (hI.sole h) hm, fun h h0 => hI.enabled_move hm h0,
    fun h => hd h (hI.notDisabled h)⟩
  · rcases Multiset.mem_add.mp hg with hg | hg
    · exact hfs g (Multiset.mem_coe.mp hg)
    · exact hI.emits g (Multiset.mem_cons_of_mem hg)
  · rcases Multiset.mem_add.mp hg with hg | hg
    · rcases Signal.moves_used hm g (Multiset.mem_coe.mp hg) h hgh with hf | hs
      · exact hI.used f (Multiset.mem_cons_self ..) h hf
      · rwa [← hI.handlers]
    · exact hI.used g (Multiset.mem_cons_of_mem hg) h hgh

end Node

end

/-! ## The pools -/

variable [DecidableEq ν]

def framesAt (n : ν) (stack : List (ν × Frame α)) : Multiset (Frame α) :=
  Family.total (fun p => if p.1 = n then {p.2} else 0) stack

def pool (c : Config (ν → Signal.Shared α) (Thread ν α)) (n : ν) : Multiset (Frame α) :=
  Signal.waiting (c.shared n).queued + Family.total (fun t => framesAt n t.stack) c.threads

section
variable {G : Graph ν} {c c' : Config (ν → Signal.Shared α) (Thread ν α)} {l : Label (Choice ν α)} {n m : ν}
  {f : Frame α} {stack : List (ν × Frame α)}

@[simp] theorem framesAt_nil : framesAt n ([] : List (ν × Frame α)) = 0 := rfl

theorem framesAt_cons : framesAt n ((m, f) :: stack) = (if m = n then {f} else 0) + framesAt n stack :=
  Family.total_cons ..

theorem framesAt_append (fs : List (ν × Frame α)) : framesAt n (fs ++ stack) = framesAt n fs + framesAt n stack :=
  Family.total_append ..

theorem framesAt_map (fs : List (Frame α)) :
    framesAt n (fs.map (m, ·)) = if m = n then (fs : Multiset (Frame α)) else 0 := by
  induction fs with
  | nil => simp
  | cons f fs ih =>
    rw [List.map_cons, framesAt_cons, ih]
    by_cases h : m = n <;> simp [h]

theorem framesAt_calls (G : Graph ν) (m : ν) (f : Frame α) :
    framesAt n (G.calls m f) = 0 ∨ ∃ args, framesAt n (G.calls m f) = {.emitLock args} := by
  unfold Graph.calls
  split
  next inv =>
    cases G.target m inv.handler with
    | none => exact Or.inl rfl
    | some k =>
      by_cases h : k = n <;> simp [framesAt, h]
  next => exact Or.inl rfl

theorem mem_framesAt : f ∈ framesAt n stack ↔ (n, f) ∈ stack := by
  unfold framesAt
  rw [Family.mem_total]
  constructor
  · rintro ⟨⟨m, g⟩, hm, hf⟩
    by_cases h : m = n
    · subst h
      simp only [if_true, Multiset.mem_singleton] at hf
      rwa [hf]
    · simp [h] at hf
  · intro h
    exact ⟨(n, f), h, by simp⟩

theorem act_frames {s s' : ν → Signal.Shared α} {t t' : Thread ν α} {new : List (Thread ν α)} {e : Choice ν α}
    (ha : act G s t e = some (s', t', new)) :
    ∃ m f stack s₁ fs, e = .step ∧ t.stack = (m, f) :: stack ∧ f.act (s m) (t.current m) = some (s₁, fs) ∧
      s' = Function.update s m s₁ ∧ new = [] ∧
      t' = { t with
        stack := G.calls m f ++ fs.map (m, ·) ++ stack
        queued := t.queued ++ (s₁.queued.drop (s m).queued.length).map (m, ·) } := by
  cases e with
  | step =>
    simp only [act] at ha
    split at ha
    next m f stack ht =>
      simp only [Option.map_eq_some_iff, Prod.mk.injEq] at ha
      obtain ⟨⟨s₁, fs⟩, ha, rfl, rfl, rfl⟩ := ha
      exact ⟨m, f, stack, s₁, fs, rfl, ht, ha, rfl, rfl, rfl⟩
    next => cases ha
  | _ => cases ha

theorem call_frames {s s' : ν → Signal.Shared α} {new : List (Thread ν α)} {e : Choice ν α}
    (hc : call s e = some (s', new)) :
    (∃ m args, s' = s ∧ new = [⟨some (m, args), [(m, .emitLock args)], []⟩]) ∨
      ∃ m k inv, (s m).queued[k]? = some inv ∧
        s' = Function.update s m { s m with queued := (s m).queued.eraseIdx k } ∧
        new = [⟨none, [(m, .invoke inv .enter)], []⟩] := by
  cases e with
  | emit m args =>
    simp only [call, Signal.call, Signal.Choice.frame, Option.map_some, Function.update_eq_self] at hc
    cases hc
    exact Or.inl ⟨m, args, rfl, rfl⟩
  | run m k =>
    simp only [call, Signal.call, Option.map_map, Option.map_eq_some_iff] at hc
    obtain ⟨inv, hk, hc⟩ := hc
    cases hc
    exact Or.inr ⟨m, k, inv, hk, rfl, rfl⟩
  | step => cases hc

/-- What a step does to the pool of a signal: nothing but to its queue, the call of
an emit, or a step of the signal, with such a call perhaps. -/
theorem next_pool (hn : (chain G).next c l = some c') (n : ν) :
    (∃ q, c'.shared n = { c.shared n with queued := q }) ∧ pool c' n = pool c n ∨
    c'.shared n = c.shared n ∧ (∃ args, pool c' n = .emitLock args ::ₘ pool c n) ∨
    ∃ (f : Frame α) (fs : List (Frame α)) (F : Multiset (Frame α)), pool c n = f ::ₘ F ∧
      Moves (c.shared n) f (c'.shared n) fs ∧
      (pool c' n = ↑fs + F ∨ ∃ args, pool c' n = .emitLock args ::ₘ ((fs : Multiset (Frame α)) + F)) := by
  cases l with
  | call e =>
    obtain ⟨s, new, hc, rfl⟩ := Program.next_call hn
    rcases call_frames hc with ⟨m, args, rfl, rfl⟩ | ⟨m, k, inv, hk, rfl, rfl⟩
    · by_cases h : m = n
      · refine Or.inr (Or.inl ⟨rfl, args, ?_⟩)
        simp only [pool, Family.total_append, Family.total_cons, Family.total_nil, framesAt_cons, framesAt_nil, if_pos h,
          ← Multiset.singleton_add]
        abel
      · exact Or.inl ⟨⟨_, rfl⟩, by simp [pool, framesAt_cons, h]⟩
    · refine Or.inl ?_
      by_cases h : m = n
      · subst h
        refine ⟨⟨_, Function.update_self ..⟩, ?_⟩
        simp only [pool, Function.update_self, Signal.waiting_eraseIdx hk, Family.total_append, Family.total_cons,
          Family.total_nil, framesAt_cons, framesAt_nil, if_true, ← Multiset.singleton_add]
        abel
      · refine ⟨⟨_, Function.update_of_ne (Ne.symm h) ..⟩, ?_⟩
        simp [pool, framesAt_cons, h, Function.update_of_ne (Ne.symm h)]
  | act i e =>
    obtain ⟨t, s, t', new, ht, ha, rfl⟩ := Program.next_act hn
    obtain ⟨m, f, stack, s₁, fs, rfl, hst, hf, rfl, rfl, rfl⟩ := act_frames ha
    obtain ⟨R, hR, hset⟩ := Family.total_split (fun t : Thread ν α => framesAt n t.stack) ht
    rw [hst] at hR
    have hset := hset { t with
      stack := G.calls m f ++ fs.map (m, ·) ++ stack
      queued := t.queued ++ (s₁.queued.drop (c.shared m).queued.length).map (m, ·) }
    simp only [framesAt_append, framesAt_cons, framesAt_map] at hR hset
    by_cases h : m = n
    · subst h
      obtain ⟨gs, hm, hq⟩ := Signal.act_moves hf
      simp only [if_true] at hR hset
      refine Or.inr (Or.inr ⟨f, gs, Signal.waiting (c.shared m).queued + (framesAt m stack + R), ?_, ?_, ?_⟩)
      · rw [pool, hR, ← Multiset.singleton_add]
        abel
      · simpa using hm
      · have hpool : Signal.waiting s₁.queued + (framesAt m (G.calls m f) + fs + framesAt m stack + R) =
            framesAt m (G.calls m f) + (↑gs + (Signal.waiting (c.shared m).queued + (framesAt m stack + R))) := by
          calc _ = Signal.waiting s₁.queued + fs + (framesAt m (G.calls m f) + framesAt m stack + R) := by abel
            _ = _ := by
              rw [hq]
              abel
        simp only [pool, List.append_nil, Function.update_self, hset, hpool]
        rcases framesAt_calls (n := m) G m f with h0 | ⟨args, h1⟩
        · exact Or.inl (by rw [h0, zero_add])
        · exact Or.inr ⟨args, by rw [h1, Multiset.singleton_add]⟩
    · simp only [h, if_false, zero_add, add_zero] at hR hset
      have hs : Function.update c.shared m s₁ n = c.shared n := Function.update_of_ne (Ne.symm h) ..
      rcases framesAt_calls (n := n) G m f with h0 | ⟨args, h1⟩
      · refine Or.inl ⟨⟨_, hs⟩, ?_⟩
        rw [h0, zero_add, ← hR] at hset
        simp only [pool, hs, List.append_nil, hset]
      · refine Or.inr (Or.inl ⟨hs, args, ?_⟩)
        rw [h1, add_assoc, ← hR] at hset
        simp only [pool, hs, List.append_nil, hset, ← Multiset.singleton_add]
        abel

theorem next_node (hI : ∀ n, Node G n (c.shared n) (pool c n)) (hn : (chain G).next c l = some c') (n : ν) :
    Node G n (c'.shared n) (pool c' n) := by
  rcases next_pool hn n with ⟨⟨q, hs⟩, hp⟩ | ⟨hs, args, hp⟩ | ⟨f, fs, F, hF, hm, hp⟩
  · rw [hs, hp]
    exact (hI n).queue q
  · rw [hs, hp]
    exact (hI n).start args
  · have hI := hI n
    rw [hF] at hI
    rcases hp with hp | ⟨args, hp⟩
    · rw [hp]
      exact hI.move hm
    · rw [hp]
      exact (hI.move hm).start args

end

end Xdispatch.SignalChain
