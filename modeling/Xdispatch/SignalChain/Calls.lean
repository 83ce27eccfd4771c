import Xdispatch.Lib.Deadlock
import Xdispatch.SignalChain.Invariant

/-!
# The calls of a thread that emits

A thread is in an emit of one signal because a link of another one has called it,
whose emit holds the mutex meanwhile. So a thread takes the mutexes along a path of
the graph, and a link is only called by the thread that holds the mutex of its signal.
-/

namespace Xdispatch.SignalChain

open Signal (Frame HandlerId Invocation weigh)
open Relation (TransGen)

variable {ν α : Type}

/-- The calls below one on the signal `n`. -/
inductive Below (G : Graph ν) (args : α) : ν → List (ν × Frame α) → Prop
  | nil (n : ν) : Below G args n []
  | link {n m : ν} {inv : Invocation α} {rest : List HandlerId} {stack : List (ν × Frame α)} :
    inv.handler.mode = .synchronousUpdate → inv.args = args → G.target m inv.handler = some n → Below G args m stack →
      Below G args n ((m, .invoke inv .running) :: (m, .emitNext rest args) :: stack)

/-- The calls of an emit with `args`. -/
inductive Emitting (G : Graph ν) (args : α) : List (ν × Frame α) → Prop
  | returned : Emitting G args []
  | emitLock {n : ν} {stack : List (ν × Frame α)} : Below G args n stack → Emitting G args ((n, .emitLock args) :: stack)
  | emitNext {n : ν} {rest : List HandlerId} {stack : List (ν × Frame α)} : Below G args n stack →
    Emitting G args ((n, .emitNext rest args) :: stack)
  | emitBranch {n : ν} {h : HandlerId} {rest : List HandlerId} {p : Int} {stack : List (ν × Frame α)} :
    Below G args n stack → Emitting G args ((n, .emitBranch h rest args p) :: stack)
  | invoke {n : ν} {inv : Invocation α} {phase : Signal.InvokePhase} {rest : List HandlerId} {stack : List (ν × Frame α)} :
    inv.handler.mode = .synchronousUpdate → inv.args = args → Below G args n stack →
      Emitting G args ((n, .invoke inv phase) :: (n, .emitNext rest args) :: stack)

/-- The step of an emit: what stands in the place of its innermost call then, and
what it has queued. -/
inductive Advances (G : Graph ν) (args : α) (n : ν) (s : Signal.Shared α) :
    Frame α → List (ν × Frame α) → List (Frame α) → List (Invocation α) → Prop
  | emitLock {stack} : Below G args n stack → Advances G args n s (.emitLock args) stack [.emitNext s.handlers args] []
  | emitEnd {stack} : Below G args n stack → Advances G args n s (.emitNext [] args) stack [] []
  | increment {h rest stack} : Below G args n stack →
    Advances G args n s (.emitNext (h :: rest) args) stack [.emitBranch h rest args (s.heap h).pending] []
  | link {h rest p stack} : h.mode = .synchronousUpdate → Below G args n stack →
    Advances G args n s (.emitBranch h rest args p) stack
      [.invoke (s.invocation h args) .enter, .emitNext rest args] []
  | queue {h rest p stack} : h.mode ≠ .synchronousUpdate → Below G args n stack →
    Advances G args n s (.emitBranch h rest args p) stack [.emitNext rest args] [s.invocation h args]
  | leaveOut {h rest p stack} : h.mode = .batchUpdates → Below G args n stack →
    Advances G args n s (.emitBranch h rest args p) stack [.emitNext rest args] []
  | enter {inv rest stack} : inv.handler.mode = .synchronousUpdate → inv.args = args → Below G args n stack →
    Advances G args n s (.invoke inv .enter) ((n, .emitNext rest args) :: stack) [.invoke inv .admitted] []
  | refuse {inv rest stack} : s.admits inv.handler = false → inv.handler.mode = .synchronousUpdate → inv.args = args →
    Below G args n stack →
      Advances G args n s (.invoke inv .enter) ((n, .emitNext rest args) :: stack) [.invoke inv .dropping] []
  | execute {inv rest stack} : inv.handler.mode = .synchronousUpdate → inv.args = args → Below G args n stack →
    Advances G args n s (.invoke inv .admitted) ((n, .emitNext rest args) :: stack) [.invoke inv .running] []
  | leave {inv phase rest stack} : phase = .dropping ∨ phase = .completing →
    inv.handler.mode = .synchronousUpdate → inv.args = args → Below G args n stack →
      Advances G args n s (.invoke inv .running) ((n, .emitNext rest args) :: stack) [.invoke inv phase] []
  | complete {inv rest stack} : inv.handler.mode = .synchronousUpdate → inv.args = args → Below G args n stack →
    Advances G args n s (.invoke inv .completing) ((n, .emitNext rest args) :: stack) [.invoke inv .dropping] []
  | drop {inv rest stack} : Below G args n stack →
    Advances G args n s (.invoke inv .dropping) ((n, .emitNext rest args) :: stack) [] []

section
variable {G : Graph ν} {args : α} {n m : ν} {s s' : Signal.Shared α} {f g : Frame α} {fs : List (Frame α)}
  {stack : List (ν × Frame α)} {current : HandlerId → Bool} {queued : List (Invocation α)} {h : HandlerId}

theorem emitting_advances (he : Emitting G args ((n, f) :: stack)) (ha : f.act s current = some (s', fs)) :
    Advances G args n s f stack fs (s'.queued.drop s.queued.length) := by
  cases he with
  | emitLock hb =>
    obtain ⟨-, rfl, rfl⟩ := Signal.lock_eq ha
    simpa [Signal.Shared.emit] using Advances.emitLock hb
  | @emitNext _ rest _ hb =>
    cases rest <;> cases ha
    · simpa [Signal.Shared.unlock] using Advances.emitEnd hb
    · simpa [Signal.Shared.modify] using Advances.increment hb
  | @emitBranch _ h rest p _ hb =>
    simp only [Frame.act] at ha
    by_cases hs : h.mode = .synchronousUpdate
    · rw [if_pos hs] at ha
      cases ha
      simpa using Advances.link hs hb
    · rw [if_neg hs] at ha
      by_cases hq : h.mode = .singleUpdates ∨ p < 1
      · rw [if_pos hq] at ha
        cases ha
        simpa [Signal.Shared.queue] using Advances.queue hs hb
      · rw [if_neg hq] at ha
        cases ha
        have hbatch : h.mode = .batchUpdates := by cases hm : h.mode <;> simp_all
        simpa [Signal.Shared.modify] using Advances.leaveOut hbatch hb
  | @invoke _ inv phase rest _ hs hargs hb =>
    cases phase with
    | enter =>
      simp only [Frame.act] at ha
      by_cases had : s.admits inv.handler = true
      · rw [if_pos had] at ha
        cases ha
        simpa [Signal.Shared.enter, Signal.Shared.modify] using Advances.enter hs hargs hb
      · rw [if_neg had] at ha
        cases ha
        simpa [Signal.Shared.modify] using Advances.refuse (by simpa using had) hs hargs hb
    | admitted =>
      cases ha
      simpa [Signal.Shared.modify] using Advances.execute hs hargs hb
    | running =>
      cases ha
      simpa [Signal.Shared.modify] using Advances.leave (by split <;> simp) hs hargs hb
    | completing =>
      cases ha
      simpa [Signal.Shared.modify] using Advances.complete hs hargs hb
    | dropping =>
      cases ha
      simpa using Advances.drop hb

theorem Below.emitting (hb : Below G args n stack) : Emitting G args stack := by
  cases hb with
  | nil => exact .returned
  | link hs hargs ht hb => exact .invoke hs hargs hb

theorem Advances.emitting (ha : Advances G args n s f stack fs queued) :
    Emitting G args (G.calls n f ++ fs.map (n, ·) ++ stack) := by
  cases ha with
  | emitLock hb => exact .emitNext hb
  | emitEnd hb => exact hb.emitting
  | increment hb => exact .emitBranch hb
  | link hs hb => exact .invoke hs rfl hb
  | queue hs hb => exact .emitNext hb
  | leaveOut hm hb => exact .emitNext hb
  | enter hs hargs hb => exact .invoke hs hargs hb
  | refuse had hs hargs hb => exact .invoke hs hargs hb
  | @execute inv rest stack hs hargs hb =>
    simp only [Graph.calls]
    cases ht : G.target n inv.handler with
    | none => exact .invoke hs hargs hb
    | some m =>
      subst hargs
      exact .emitLock (.link hs rfl ht hb)
  | leave hp hs hargs hb => exact .invoke hs hargs hb
  | complete hs hargs hb => exact .invoke hs hargs hb
  | drop hb => exact .emitNext hb

theorem Advances.args_eq (ha : Advances G args n s f stack fs queued) : ∀ inv ∈ queued, inv.args = args := by
  cases ha with
  | queue hs hb =>
    intro inv hinv
    rw [List.mem_singleton.mp hinv]
    rfl
  | _ => simp

/-! ## The graph -/

theorem target_edge (ht : G.target n h = some m) : G.links.Edge n m := by
  obtain ⟨k, hk, hkm⟩ := Option.bind_eq_some_iff.mp ht
  exact List.mem_filterMap.mpr ⟨k, List.mem_of_getElem? hk, hkm⟩

theorem mem_handlers : h ∈ G.handlers n ↔ ∃ k, (G.connections n)[h.serial]? = some k ∧ h.mode = k.mode := by
  unfold Graph.handlers
  rw [List.mem_mapIdx]
  constructor
  · rintro ⟨i, hi, rfl⟩
    exact ⟨_, List.getElem?_eq_getElem hi, rfl⟩
  · rintro ⟨k, hk, hmode⟩
    obtain ⟨hi, rfl⟩ := List.getElem?_eq_some_iff.mp hk
    refine ⟨h.serial, hi, ?_⟩
    rw [← hmode]

/-- Only a link emits. -/
theorem target_eq_none (hh : h ∈ G.handlers n) (hs : h.mode ≠ .synchronousUpdate) : G.target n h = none := by
  obtain ⟨k, hk, hmode⟩ := mem_handlers.mp hh
  rw [hmode] at hs
  unfold Graph.target
  rw [hk]
  cases k with
  | link m => exact absurd rfl hs
  | batchUpdates | singleUpdates => rfl

/-- The mutexes that a call is made under are those of signals before its own. -/
theorem Below.edge (hb : Below G args m stack) (hf : (n, f) ∈ stack) (h1 : f.holds = 1) : TransGen G.links.Edge n m := by
  induction hb with
  | nil => cases hf
  | link hs hargs ht hb ih =>
    rcases List.mem_cons.mp hf with hf | hf
    · cases hf
      cases h1
    rcases List.mem_cons.mp hf with hf | hf
    · cases hf
      exact .single (target_edge ht)
    · exact (ih hf).tail (target_edge ht)

end

/-! ## Links and mutexes -/

/-- The call of a link. -/
def links : Frame α → Nat
  | .invoke inv _ => if inv.handler.mode = .synchronousUpdate then 1 else 0
  | _ => 0

variable [DecidableEq ν]

section
variable {G : Graph ν} {args : α} {n m : ν} {f : Frame α} {stack : List (ν × Frame α)} {w : Frame α → Nat}

theorem weigh_add (F F' : Multiset (Frame α)) : weigh w (F + F') = weigh w F + weigh w F' := by simp [weigh]

theorem weigh_framesAt :
    weigh w (framesAt n ((m, f) :: stack)) = (if m = n then w f else 0) + weigh w (framesAt n stack) := by
  rw [framesAt_cons, weigh_add]
  by_cases h : m = n <;> simp [h, weigh]

theorem weigh_total {τ : Type} (F : τ → Multiset (Frame α)) (l : List τ) :
    weigh w (Family.total F l) = Family.total (fun t => weigh w (F t)) l := by
  induction l with
  | nil => rfl
  | cons t l ih => rw [Family.total_cons, Family.total_cons, weigh_add, ih]

theorem Below.links_le (hb : Below G args m stack) :
    weigh links (framesAt n stack) ≤ weigh Frame.holds (framesAt n stack) := by
  induction hb with
  | nil => exact Nat.le_refl _
  | @link _ m inv rest stack hs hargs ht hb ih =>
    simp only [weigh_framesAt, links, if_pos hs, Frame.holds]
    split <;> omega

/-- The call of a link is made under the mutex of its signal. -/
theorem Emitting.links_le (he : Emitting G args stack) :
    weigh links (framesAt n stack) ≤ weigh Frame.holds (framesAt n stack) := by
  cases he with
  | returned => exact Nat.le_refl _
  | emitLock hb | emitNext hb | emitBranch hb =>
    have := hb.links_le (n := n)
    simp only [weigh_framesAt, links, Frame.holds]
    split <;> omega
  | invoke hs hargs hb =>
    have := hb.links_le (n := n)
    simp only [weigh_framesAt, links, if_pos hs, Frame.holds]
    split <;> omega

end

/-! ## Every thread -/

/-- A thread emits, or runs an invocation from a queue. -/
def Calls (G : Graph ν) (t : Thread ν α) : Prop :=
  match t.emit with
  | some (_, args) => Emitting G args t.stack ∧ ∀ q ∈ t.queued, q.2.args = args
  | none => (t.stack = [] ∨ ∃ n inv phase, t.stack = [(n, .invoke inv phase)] ∧ inv.handler.mode ≠ .synchronousUpdate) ∧
      t.queued = []

structure Inv (G : Graph ν) (c : Config (ν → Signal.Shared α) (Thread ν α)) : Prop where
  node : ∀ n, Node G n (c.shared n) (pool c n)
  queued : ∀ n, ∀ inv ∈ (c.shared n).queued, inv.handler.mode ≠ .synchronousUpdate
  calls : ∀ t ∈ c.threads, Calls G t

section
variable {G : Graph ν} {c c' : Config (ν → Signal.Shared α) (Thread ν α)} {l : Label (Choice ν α)} {n : ν}
  {s s' : Signal.Shared α} {f : Frame α} {fs : List (Frame α)} {inv : Invocation α} {phase : Signal.InvokePhase}
  {stack : List (ν × Frame α)} {current : HandlerId → Bool} {t u : Thread ν α} {i j : Nat}

theorem mem_pool (ht : t ∈ c.threads) (hf : (n, f) ∈ t.stack) : f ∈ pool c n :=
  Multiset.mem_add.mpr (Or.inr (Family.mem_total.mpr ⟨t, ht, mem_framesAt.mpr hf⟩))

omit [DecidableEq ν] in
theorem invoke_act (ha : (Frame.invoke inv phase).act s current = some (s', fs)) :
    (fs = [] ∨ ∃ phase, fs = [.invoke inv phase]) ∧ s'.queued = s.queued := by
  cases phase with
  | enter =>
    simp only [Frame.act] at ha
    split at ha <;> cases ha <;> exact ⟨Or.inr ⟨_, rfl⟩, rfl⟩
  | admitted | running | completing =>
    cases ha
    exact ⟨Or.inr ⟨_, rfl⟩, rfl⟩
  | dropping =>
    cases ha
    exact ⟨Or.inl rfl, rfl⟩

theorem act_queued (hf : emitting f = true) (ha : f.act s current = some (s', fs)) :
    ∀ inv ∈ s'.queued, inv ∈ s.queued ∨ inv.handler.mode ≠ .synchronousUpdate := by
  intro inv hinv
  cases f with
  | emitLock args =>
    obtain ⟨-, rfl, -⟩ := Signal.lock_eq ha
    exact Or.inl hinv
  | emitNext rest args =>
    cases rest <;> cases ha <;> exact Or.inl hinv
  | emitBranch h rest args p =>
    simp only [Frame.act] at ha
    by_cases hs : h.mode = .synchronousUpdate
    · rw [if_pos hs] at ha
      cases ha
      exact Or.inl hinv
    · rw [if_neg hs] at ha
      split at ha <;> cases ha
      · rcases List.mem_append.mp hinv with hinv | hinv
        · exact Or.inl hinv
        · rw [List.mem_singleton.mp hinv]
          exact Or.inr hs
      · exact Or.inl hinv
  | invoke k phase =>
    rw [(invoke_act ha).2] at hinv
    exact Or.inl hinv
  | _ => cases hf

theorem Inv.calls_step (hI : Inv G c) (ht : t ∈ c.threads) (hst : t.stack = (n, f) :: stack)
    (ha : f.act (c.shared n) current = some (s', fs)) :
    Calls G { t with
      stack := G.calls n f ++ fs.map (n, ·) ++ stack
      queued := t.queued ++ (s'.queued.drop (c.shared n).queued.length).map (n, ·) } := by
  have hc := hI.calls t ht
  unfold Calls at hc ⊢
  cases hemit : t.emit with
  | some e =>
    obtain ⟨s, args⟩ := e
    simp only [hemit] at hc ⊢
    obtain ⟨he, hq⟩ := hc
    rw [hst] at he
    have hadv := emitting_advances he ha
    refine ⟨hadv.emitting, fun q hqm => ?_⟩
    rcases List.mem_append.mp hqm with hqm | hqm
    · exact hq q hqm
    · obtain ⟨inv, hinv, rfl⟩ := List.mem_map.mp hqm
      exact hadv.args_eq inv hinv
  | none =>
    simp only [hemit] at hc ⊢
    obtain ⟨hstack, hq⟩ := hc
    rcases hstack with h0 | ⟨m, inv, phase, h1, hs⟩
    · rw [h0] at hst
      cases hst
    · rw [h1] at hst
      cases hst
      have hmem : Frame.invoke inv phase ∈ pool c n := mem_pool ht (by rw [h1]; exact List.mem_singleton_self _)
      have htarget := target_eq_none ((hI.node n).used _ hmem inv.handler (List.mem_singleton_self _)) hs
      have hcalls : G.calls n (.invoke inv phase) = [] := by
        unfold Graph.calls
        split
        next heq =>
          cases heq
          rw [htarget]
          rfl
        next => rfl
      obtain ⟨hfs, hqueued⟩ := invoke_act ha
      rw [hcalls, hqueued, List.drop_length, hq]
      refine ⟨?_, rfl⟩
      rcases hfs with rfl | ⟨phase, rfl⟩
      · exact Or.inl rfl
      · exact Or.inr ⟨n, inv, phase, rfl, hs⟩

theorem Inv.queued_next (hI : Inv G c) (hn : (chain G).next c l = some c') :
    ∀ n, ∀ inv ∈ (c'.shared n).queued, inv.handler.mode ≠ .synchronousUpdate := by
  intro n inv hinv
  cases l with
  | call e =>
    obtain ⟨s, new, hc, rfl⟩ := Program.next_call hn
    rcases call_frames hc with ⟨m, args, rfl, rfl⟩ | ⟨m, k, inv', hk, rfl, rfl⟩
    · exact hI.queued n inv hinv
    · apply hI.queued n inv
      dsimp only at hinv
      by_cases h : n = m
      · subst h
        rw [Function.update_self] at hinv
        exact List.mem_of_mem_eraseIdx hinv
      · rwa [Function.update_of_ne h] at hinv
  | act i e =>
    obtain ⟨t, s, t', new, ht, ha, rfl⟩ := Program.next_act hn
    obtain ⟨m, f, stack, s₁, fs, rfl, hst, hf, rfl, rfl, rfl⟩ := act_frames ha
    dsimp only at hinv
    by_cases h : n = m
    · subst h
      rw [Function.update_self] at hinv
      have hmem : f ∈ pool c n := mem_pool (Family.mem_of_get ht) (by rw [hst]; exact List.mem_cons_self ..)
      rcases act_queued ((hI.node n).emits f hmem) hf inv hinv with hinv | hs
      · exact hI.queued n inv hinv
      · exact hs
    · rw [Function.update_of_ne h] at hinv
      exact hI.queued n inv hinv

theorem Inv.calls_next (hI : Inv G c) (hn : (chain G).next c l = some c') : ∀ t ∈ c'.threads, Calls G t := by
  cases l with
  | call e =>
    obtain ⟨s, new, hc, rfl⟩ := Program.next_call hn
    apply Family.forall_append hI.calls
    intro t ht
    rcases call_frames hc with ⟨m, args, rfl, rfl⟩ | ⟨m, k, inv, hk, rfl, rfl⟩
    · rw [List.mem_singleton.mp ht]
      exact ⟨.emitLock (.nil m), by simp⟩
    · rw [List.mem_singleton.mp ht]
      exact ⟨Or.inr ⟨m, inv, .enter, rfl, hI.queued m inv (List.mem_of_getElem? hk)⟩, rfl⟩
  | act i e =>
    obtain ⟨t, s, t', new, ht, ha, rfl⟩ := Program.next_act hn
    obtain ⟨m, f, stack, s₁, fs, rfl, hst, hf, rfl, rfl, rfl⟩ := act_frames ha
    exact Family.forall_step hI.calls (hI.calls_step (Family.mem_of_get ht) hst hf) (by simp)

theorem next_inv (hI : Inv G c) (hn : (chain G).next c l = some c') : Inv G c' :=
  ⟨next_node hI.node hn, hI.queued_next hn, hI.calls_next hn⟩

theorem initial_inv (G : Graph ν) : Inv (α := α) G (initial G) :=
  ⟨fun n => node_initial G n, by simp [initial, connected], by simp [initial]⟩

theorem run_inv {tr : List (Config (ν → Signal.Shared α) (Thread ν α) × Label (Choice ν α))}
    (h : (chain G).Run (initial G) tr c) : Inv G c :=
  h.invariant (C := fun _ _ => True) (initial_inv G) (fun _ _ _ hI _ hn => next_inv hI hn) Program.along_true

end

end Xdispatch.SignalChain
