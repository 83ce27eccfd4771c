import Xdispatch.Dispatch.References

/-!
# Dropping the last user reference

What the members say to a worker does not change any more when the users are gone,
since only they call methods, and the destructor has to wait for the worker. So a
worker that goes on then goes on for good. The others queue what they have copied, and end.
-/

namespace Xdispatch.Dispatch

/-! ## An operation by itself -/

section
variable {s s' : State} {o o' : Operation}

/-- The steps it has left until it completes its barrier, and more. -/
def Operation.rank (o : Operation) : Nat :=
  match o.phase with
  | .queued | .disabling => 3
  | .running => 2
  | .completing _ => 1
  | .leaving | .releasing | .done => 0

theorem Operation.step_same (h : o.step s = some (s', o')) : o'.invocation = o.invocation ∧ o'.barrier = o.barrier := by
  cases proceeds h <;> exact ⟨rfl, rfl⟩

theorem Operation.step_pending (s : State) (hp : o.pending = true) (hh : o.invocation.handler.isSome = true) :
    ∃ s' o', o.step s = some (s', o') ∧ o'.rank < o.rank := by
  cases hph : o.phase with
  | queued =>
    simp only [Operation.step, hph]
    split <;> exact ⟨_, _, rfl, by simp [Operation.rank, hph]⟩
  | running =>
    simp only [Operation.step, hph, Operation.calls, hh, decide_true, Bool.and_self, ite_true]
    exact ⟨_, _, rfl, by simp [Operation.rank, hph]⟩
  | disabling =>
    simp only [Operation.step, hph]
    exact ⟨_, _, rfl, by simp [Operation.rank, hph]⟩
  | completing entered =>
    simp only [Operation.step, hph]
    refine ⟨_, _, rfl, ?_⟩
    cases entered <;> simp [Operation.rank, hph]
  | leaving | releasing | done => simp [Operation.pending, hph] at hp

end

/-! ## What a class has to keep to -/

/-- A worker has a copy of the handler when it is about to queue an `invocation`, and `awaits`
the barrier of its operation afterwards. In an object that is `resumed`, one that does not
finish goes on; `rank` falls until it queues the next invocation. One that `finishes` has
`remaining` steps left. -/
structure Loop {σ ω μ κ : Type} (I : Impl σ ω μ κ) where
  handler : σ → Option Nat
  invocation : ω → Option Invocation
  awaits : ω → Option Nat
  resumed : σ → Prop
  finishes : σ → ω → Prop
  rank : ω → Nat
  remaining : ω → Nat
  method_handler : ∀ s m, (handler s).isSome = true → (handler (I.method s m).1).isSome = true
  cancel_handler : ∀ s, handler (I.cancel s) = handler s
  destroy_handler : ∀ s, handler (I.destroy s) = handler s
  method_new : ∀ s m, ∀ w ∈ (I.method s m).2, invocation w = none ∧ awaits w = none
  worker_turns : ∀ {s d w k w' inv}, I.worker s d w k = some (w', inv) → inv = invocation w ∧
    (∀ i, invocation w' = some i → i.handler = handler s) ∧ ∀ b, awaits w' = some b → b < (d.async inv).1.barriers.length
  ended_finishes : ∀ {w}, I.ended w = true → invocation w = none ∧ ∀ s, finishes s w
  worker_finishes : ∀ {s d w k w' inv}, finishes s w → I.worker s d w k = some (w', inv) →
    finishes s w' ∧ invocation w' = none ∧ remaining w' < remaining w
  goes : ∀ {s d w}, I.ended w = false → (∀ b, awaits w = some b → d.completed b = true) →
    ∃ k w' inv, I.worker s d w k = some (w', inv) ∧
      (resumed s → ¬ finishes s w → ¬ finishes s w' ∧ (inv.isSome = true ∨ rank w' < rank w))

section
variable {σ ω μ κ : Type} {I : Impl σ ω μ κ} {c c' d : Config (Counted σ) (Thread ω)} {l : Label (Use μ κ)}

/-- From here on at most one invocation is queued, and the workers can always end. -/
def Impl.Stops (I : Impl σ ω μ κ) (c : Config (Counted σ) (Thread ω)) : Prop :=
  ∀ tr d, I.counted.Run c tr d →
    d.shared.shared.dispatch.barriers.length ≤ c.shared.shared.dispatch.barriers.length + 1 ∧
      ∃ tr' e, I.counted.Run d tr' e ∧ ∀ w, .worker w ∈ e.threads → I.ended w = true

/-- `d` comes from `c` by steps of operations. -/
structure Kept (c d : Config (Counted σ) (Thread ω)) : Prop where
  users : d.shared.users = c.shared.users
  references : d.shared.references = c.shared.references
  members : d.shared.shared.members = c.shared.shared.members
  barriers : d.shared.shared.dispatch.barriers.length = c.shared.shared.dispatch.barriers.length
  workers : ∀ (i : Nat) (w : ω), c.threads[i]? = some (.worker w) → d.threads[i]? = some (.worker w)
  weigh : ∀ f, weigh f (base d) = weigh f (base c)

theorem Kept.refl (c : Config (Counted σ) (Thread ω)) : Kept c c :=
  ⟨rfl, rfl, rfl, rfl, fun _ _ => id, fun _ => rfl⟩

theorem operation_act {s : Counted σ} {o o' : Operation} {e : State} (h : o.step s.shared.dispatch = some (e, o')) :
    I.act s (.operation o) (.of .step) =
      some ({ s with shared := { s.shared with dispatch := e } }, .operation o', []) := by
  have hact : I.toOwner.act s.shared (.operation o) .step = some ({ s.shared with dispatch := e }, .operation o', []) := by
    simp [Owner.act, h]
  simp [Impl.act, Choice.borrows, hact, Thread.weigh, Impl.count]

theorem Kept.step {j : Nat} {o o' : Operation} {e : State} (hK : Kept c d) (ht : d.threads[j]? = some (.operation o))
    (h : o.step d.shared.shared.dispatch = some (e, o')) :
    Kept c ⟨{ d.shared with shared := { d.shared.shared with dispatch := e } },
      d.threads.set j (.operation o') ++ []⟩ where
  users := hK.users
  references := hK.references
  members := hK.members
  barriers := (Operation.step_length h).trans hK.barriers
  workers i w hw := by
    have hne : j ≠ i := by
      rintro rfl
      rw [hK.workers _ w hw] at ht
      cases ht
    exact Family.get_step_of_ne (hK.workers i w hw) hne _ _
  weigh f := by
    have hstep := weigh_step (c := base d) f ht ⟨d.shared.shared.members, e⟩ (.operation o') []
    exact hstep.trans (hK.weigh f)

end

/-! ## What holds of all runs -/

section
variable {σ ω μ κ : Type} {I : Impl σ ω μ κ} (L : Loop I) {c c' : Config (Counted σ) (Thread ω)} {l : Label (Use μ κ)}

/-- It has a handler, if it is going to need one. -/
def Loop.supplied : Thread ω → Bool
  | .worker w => (L.invocation w).all fun inv => inv.handler.isSome
  | .operation o => o.invocation.handler.isSome
  | .cancel _ => true

structure Loop.Supplied (c : Config (Counted σ) (Thread ω)) : Prop where
  handler : (L.handler c.shared.shared.members).isSome = true
  threads : ∀ t ∈ c.threads, L.supplied t = true

structure Loop.Inv (c : Config (Counted σ) (Thread ω)) : Prop where
  accounted : Accounted I c
  linked : Linked (base c)
  awaited : ∀ w, .worker w ∈ c.threads → ∀ b, L.awaits w = some b → b < c.shared.shared.dispatch.barriers.length

theorem Moves.barriers {O : Owner σ ω μ κ} {c c' : Config (Shared σ) (Thread ω)} {l : Label (Choice μ κ)}
    (h : Moves O c l c') : c.shared.dispatch.barriers.length ≤ c'.shared.dispatch.barriers.length := by
  cases h with
  | method _ _ hc | cancel _ hc => exact hc ▸ le_rfl
  | worker _ _ _ inv _ _ _ hc =>
    rw [hc]
    cases inv <;> simp [State.async]
  | step _ _ hb => exact hb.ge

variable {L}

theorem Loop.Inv.next (hI : L.Inv c) (h : I.counted.next c l = some c') : L.Inv c' := by
  refine ⟨next_accounted hI.accounted h, ?_, ?_⟩
  · cases next_counts hI.accounted h with
    | of l d n _ _ hn hc =>
      subst hc
      simpa [Linked, base] using next_linked hI.linked hn
    | copy _ _ hc | drop _ _ hc =>
      subst hc
      simpa [Linked, base] using hI.linked
  · cases next_counts hI.accounted h with
    | of l d n _ _ hn hc =>
      subst hc
      have hle := (next_moves hn).barriers
      simp only [count_dispatch]
      apply next_forall (P := fun w => ∀ b, L.awaits w = some b → b < d.shared.dispatch.barriers.length) hn
      · intro w hw b hb
        exact (hI.awaited w hw b hb).trans_le hle
      · intro m _ w hw b hb
        rw [(L.method_new _ m w hw).2] at hb
        cases hb
      · intro w w' k inv _ hw hc
        rw [hc]
        exact (L.worker_turns hw).2.2
    | copy _ _ hc | drop _ _ hc =>
      subst hc
      simpa using hI.awaited

/-- Handlers are only replaced, and copied from the members. -/
theorem Loop.step_supplied {s s' : Shared σ} {t t' : Thread ω} {e : Choice μ κ} {new : List (Thread ω)}
    (h : Step I.toOwner s t e s' t' new) (hs : (L.handler s.members).isSome = true) (ht : L.supplied t = true) :
    (L.handler s'.members).isSome = true ∧ ∀ x ∈ t' :: new, L.supplied x = true := by
  cases h with
  | @worker w w' k inv hw =>
    obtain ⟨rfl, hinv, -⟩ := L.worker_turns hw
    refine ⟨hs, List.forall_mem_cons.mpr ⟨?_, fun x hx => ?_⟩⟩
    · cases hi : L.invocation w' with
      | none => simp [Loop.supplied, hi]
      | some i => simpa [Loop.supplied, hi, hinv i hi] using hs
    · obtain ⟨o, ho, rfl⟩ := List.mem_map.mp hx
      cases hi : L.invocation w with
      | none =>
        rw [hi] at ho
        cases ho
      | some i =>
        rw [hi] at ho
        cases List.mem_singleton.mp ho
        simpa [Loop.supplied, hi] using ht
  | @operation o o' _ ho =>
    refine ⟨hs, List.forall_mem_cons.mpr ⟨?_, by simp⟩⟩
    change o'.invocation.handler.isSome = true
    rw [(Operation.step_same ho).1]
    exact ht
  | cancelling => exact ⟨hs, List.forall_mem_cons.mpr ⟨rfl, by simp⟩⟩
  | method m =>
    refine ⟨L.method_handler _ m hs, List.forall_mem_cons.mpr ⟨ht, fun x hx => ?_⟩⟩
    obtain ⟨w, hw, rfl⟩ := List.mem_map.mp hx
    simp [Loop.supplied, L.method_new _ m w hw]
  | cancel => exact ⟨(L.cancel_handler _).symm ▸ hs, List.forall_mem_cons.mpr ⟨ht, by simp⟩⟩

theorem Loop.call_supplied {s s' : Shared σ} {e : Choice μ κ} {new : List (Thread ω)}
    (h : I.toOwner.call s e = some (s', new)) (hs : (L.handler s.members).isSome = true) :
    (L.handler s'.members).isSome = true ∧ ∀ x ∈ new, L.supplied x = true := by
  rcases call_cases h with ⟨m, -, rfl, rfl⟩ | ⟨-, rfl, rfl⟩
  · refine ⟨L.method_handler _ m hs, fun x hx => ?_⟩
    obtain ⟨w, hw, rfl⟩ := List.mem_map.mp hx
    simp [Loop.supplied, L.method_new _ m w hw]
  · exact ⟨(L.cancel_handler _).symm ▸ hs, by simp [Loop.supplied]⟩

theorem Loop.Supplied.next (hS : L.Supplied c) (hA : Accounted I c) (h : I.counted.next c l = some c') :
    L.Supplied c' := by
  have count : ∀ (s : Counted σ) n, (L.handler s.shared.members).isSome = true →
      (L.handler (I.count s n).shared.members).isSome = true := by
    intro s n hs
    rcases count_members (I := I) s n with he | ⟨-, he⟩
    · rwa [he]
    · rwa [he, L.destroy_handler]
  cases next_counts hA h with
  | of l d n _ _ hn hc =>
    subst hc
    cases l with
    | call e =>
      obtain ⟨s, new, hc, rfl⟩ := Program.next_call hn
      obtain ⟨hs, hnew⟩ := L.call_supplied hc hS.handler
      exact ⟨count _ _ hs, Family.forall_append hS.threads hnew⟩
    | act i e =>
      obtain ⟨t, s, t', new, ht, ha, rfl⟩ := Program.next_act hn
      obtain ⟨hs, hnew⟩ := L.step_supplied (act_step ha) hS.handler (hS.threads t (Family.mem_of_get ht))
      obtain ⟨ht', hnew⟩ := List.forall_mem_cons.mp hnew
      exact ⟨count _ _ hs, Family.forall_step hS.threads ht' hnew⟩
  | copy _ _ hc | drop _ _ hc =>
    subst hc
    exact ⟨count _ _ hS.handler, hS.threads⟩

theorem Loop.Inv.run {tr : List (Config (Counted σ) (Thread ω) × Label (Use μ κ))} (hI : L.Inv c)
    (h : I.counted.Run c tr c') : L.Inv c' :=
  h.invariant (C := fun _ _ => True) hI (fun _ _ _ hI _ hn => hI.next hn) Program.along_true

theorem Loop.Supplied.run {tr : List (Config (Counted σ) (Thread ω) × Label (Use μ κ))} (hS : L.Supplied c)
    (hI : L.Inv c) (h : I.counted.Run c tr c') : L.Supplied c' :=
  (h.invariant (I := fun c => L.Inv c ∧ L.Supplied c) (C := fun _ _ => True) ⟨hI, hS⟩
    (fun _ _ _ hc _ hn => ⟨hc.1.next hn, hc.2.next hc.1.accounted hn⟩) Program.along_true).2

theorem Loop.run_inv {s₀ : σ} {tr : List (Config (Counted σ) (Thread ω) × Label (Use μ κ))}
    (h : I.counted.Run (held ⟨⟨s₀, .new⟩, []⟩) tr c) : L.Inv c := by
  have h0 : L.Inv (held ⟨⟨s₀, .new⟩, []⟩) := ⟨rfl, fun b hb => absurd hb (Nat.not_lt_zero b), by simp [held]⟩
  exact h0.run h

end

/-! ## A worker by itself -/

section
variable {σ ω μ κ : Type} {I : Impl σ ω μ κ} {L : Loop I} {c d : Config (Counted σ) (Thread ω)}

def Thread.rank : Thread ω → Nat
  | .operation o => o.rank
  | _ => 0

theorem Loop.ready {b : Nat} (hI : L.Inv c) (hS : L.Supplied c) (hb : b < c.shared.shared.dispatch.barriers.length) :
    ∃ tr d, I.counted.Run c tr d ∧ Kept c d ∧ d.shared.shared.dispatch.completed b = true := by
  rcases hI.linked b hb with hc | ⟨o, ho, rfl, hp⟩
  · exact ⟨[], c, .nil, .refl c, hc⟩
  obtain ⟨j, hj⟩ := List.mem_iff_getElem?.mp ho
  have hh := hS.threads _ ho
  let Way : Config (Counted σ) (Thread ω) → Prop := fun d => Kept c d ∧ ∃ o', d.threads[j]? = some (.operation o') ∧
    o'.barrier = o.barrier ∧ o'.invocation.handler.isSome = true ∧
    (d.shared.shared.dispatch.completed o.barrier = true ∨ o'.pending = true)
  have hway : ∀ d u d', u = .of .step → Way d → I.counted.next d (.act j u) = some d' → Way d' := by
    rintro d u d' rfl ⟨hK, o', ht, hbar, hh', hc⟩ hn
    obtain ⟨t, s, t', new, ht', ha, rfl⟩ := Program.next_act hn
    cases Option.some.inj (ht.symm.trans ht')
    cases hs : o'.step d.shared.shared.dispatch with
    | none => simp [Impl.counted, Impl.act, Owner.act, hs] at ha
    | some r =>
      obtain ⟨e, o''⟩ := r
      cases (operation_act hs).symm.trans ha
      obtain ⟨hinv, hbar'⟩ := Operation.step_same hs
      refine ⟨hK.step ht hs, o'', Family.get_step ht _ _, hbar'.trans hbar, hinv ▸ hh', ?_⟩
      have hlt : o.barrier < d.shared.shared.dispatch.barriers.length := hK.barriers.symm ▸ hb
      obtain ⟨hkeep, hmove⟩ := Operation.step_linked hs o.barrier hlt
      rcases hc with hc | hc
      · exact Or.inl (hkeep hc)
      · exact (hmove hbar hc).imp_right fun h => h.2
  obtain ⟨us, d, t', -, hex, ⟨hK, o', ht', -, -, hc⟩, hlast, hg⟩ := Program.exists_alone (P := I.counted) (i := j)
    (I := Way) (fun u => u = .of .step) (fun t => ∀ o, t = .operation o → o.pending = false) (fun _ => Thread.rank)
    hway (fun d t hW ht => by
      obtain ⟨-, o', ht', -, hh', -⟩ := hW
      cases Option.some.inj (ht.symm.trans ht')
      by_cases hp' : o'.pending = true
      · obtain ⟨e, o'', hs, hr⟩ := Operation.step_pending d.shared.shared.dispatch hp' hh'
        exact Or.inr ⟨_, _, _, _, rfl, operation_act hs, hr⟩
      · refine Or.inl fun o₁ h₁ => ?_
        cases h₁
        simpa using hp')
    _ c (.operation o) (Nat.lt_succ_self _) ⟨.refl c, o, hj, rfl, hh, Or.inr hp⟩ hj
  cases Option.some.inj (ht'.symm.trans hlast)
  exact ⟨_, d, Program.run_exec hex, hK, hc.resolve_right (by simp [hg o' rfl])⟩

/-- What it queues. -/
def Loop.last (L : Loop I) (w : ω) : Nat := if (L.invocation w).isSome then 1 else 0

/-- Worker `i` has gone from `w` to `w'`. -/
structure Loop.Turned (L : Loop I) (c : Config (Counted σ) (Thread ω)) (i : Nat) (w w' : ω)
    (d : Config (Counted σ) (Thread ω)) : Prop where
  thread : d.threads[i]? = some (.worker w')
  weigh : ∀ f, weigh f (base d) + f w = weigh f (base c) + f w'
  barriers : d.shared.shared.dispatch.barriers.length = c.shared.shared.dispatch.barriers.length + L.last w
  members : I.ended w = false → I.ended w' = false → d.shared.shared.members = c.shared.shared.members

theorem Loop.turned {i : Nat} {w w' : ω} {k : κ} {inv : Option Invocation} (hK : Kept c d)
    (ht : c.threads[i]? = some (.worker w))
    (hw : I.worker d.shared.shared.members d.shared.shared.dispatch w k = some (w', inv)) :
    ∃ e, I.counted.next d (.act i (.of (.worker k))) = some e ∧ L.Turned c i w w' e := by
  have ht := hK.workers i w ht
  obtain ⟨rfl, -⟩ := L.worker_turns hw
  have hact : I.toOwner.act d.shared.shared (.worker w) (.worker k) = some
      ({ d.shared.shared with dispatch := (d.shared.shared.dispatch.async (L.invocation w)).1 }, .worker w',
        (d.shared.shared.dispatch.async (L.invocation w)).2.map .operation) := by
    simp [Owner.act, hw]
  have hact' : I.act d.shared (.worker w) (.of (.worker k)) = some
      (I.count { d.shared with shared :=
          { d.shared.shared with dispatch := (d.shared.shared.dispatch.async (L.invocation w)).1 } }
        (d.shared.references + I.owns w' - I.owns w), .worker w',
        (d.shared.shared.dispatch.async (L.invocation w)).2.map .operation) := by
    simp [Impl.act, Choice.borrows, hact, Thread.weigh, weigh_operations]
  refine ⟨_, Program.act_next ht hact', Family.get_step ht _ _, fun f => ?_, ?_, fun hw hw' => ?_⟩
  · have hstep := weigh_step (c := base d) f ht d.shared.shared (.worker w')
      ((d.shared.shared.dispatch.async (L.invocation w)).2.map .operation)
    rw [weigh_operations, hK.weigh f] at hstep
    exact hstep
  · rw [count_dispatch, ← hK.barriers]
    cases hi : L.invocation w <;> simp [State.async, Loop.last, hi]
  · simp only [Impl.owns, hw, hw', Bool.false_eq_true, ite_false, Nat.add_sub_cancel]
    rw [count_self rfl]
    exact hK.members

theorem Loop.advance {i : Nat} {w : ω} (hI : L.Inv c) (hS : L.Supplied c) (ht : c.threads[i]? = some (.worker w))
    (he : I.ended w = false) : ∃ tr d w', I.counted.Run c tr d ∧ L.Turned c i w w' d ∧
      (L.finishes c.shared.shared.members w → L.remaining w' < L.remaining w) ∧
      (L.resumed c.shared.shared.members → ¬ L.finishes c.shared.shared.members w →
        ¬ L.finishes c.shared.shared.members w' ∧ (L.last w = 1 ∨ L.rank w' < L.rank w)) := by
  obtain ⟨tr, d, hr, hK, hc⟩ : ∃ tr d, I.counted.Run c tr d ∧ Kept c d ∧
      ∀ b, L.awaits w = some b → d.shared.shared.dispatch.completed b = true := by
    cases hb : L.awaits w with
    | none => exact ⟨[], c, .nil, .refl c, by simp⟩
    | some b =>
      obtain ⟨tr, d, hr, hK, hc⟩ := L.ready hI hS (hI.awaited w (Family.mem_of_get ht) b hb)
      exact ⟨tr, d, hr, hK, fun b' hb' => Option.some.inj hb' ▸ hc⟩
  obtain ⟨k, w', inv, hw, hgo⟩ := L.goes (s := d.shared.shared.members) he hc
  obtain ⟨e, hn, hT⟩ := L.turned hK ht hw
  rw [hK.members] at hw hgo
  refine ⟨_, e, w', hr.snoc hn, hT, fun hf => (L.worker_finishes hf hw).2.2, fun hres hf => ?_⟩
  obtain ⟨hf', hq⟩ := hgo hres hf
  refine ⟨hf', hq.imp_left fun hq => ?_⟩
  rw [(L.worker_turns hw).1] at hq
  exact if_pos hq

end

/-! ## A worker that goes on -/

section
variable {σ ω μ κ : Type} {I : Impl σ ω μ κ} {L : Loop I} {c c' d : Config (Counted σ) (Thread ω)}

theorem Loop.not_ended {s : σ} {w : ω} (h : ¬ L.finishes s w) : I.ended w = false := by
  by_contra he
  exact h ((L.ended_finishes (by simpa using he)).2 s)

/-- Worker `i` of a resumed object goes on. -/
structure Loop.Looping (L : Loop I) (i : Nat) (c : Config (Counted σ) (Thread ω)) : Prop where
  inv : L.Inv c
  supplied : L.Supplied c
  resumed : L.resumed c.shared.shared.members
  worker : ∃ w, c.threads[i]? = some (.worker w) ∧ ¬ L.finishes c.shared.shared.members w

theorem Loop.Looping.queues {i : Nat} (h : L.Looping i c) : ∃ tr d, I.counted.Run c tr d ∧ L.Looping i d ∧
    d.shared.shared.dispatch.barriers.length = c.shared.shared.dispatch.barriers.length + 1 := by
  obtain ⟨hI, hS, hres, w, ht, hf⟩ := h
  induction hk : L.rank w using Nat.strong_induction_on generalizing c w with
  | _ k ih =>
    obtain ⟨tr, d, w', hr, hT, -, hgo⟩ := L.advance hI hS ht (L.not_ended hf)
    obtain ⟨hf', hq⟩ := hgo hres hf
    have hmem := hT.members (L.not_ended hf) (L.not_ended hf')
    have hId := hI.run hr
    have hSd := hS.run hI hr
    rw [← hmem] at hres hf'
    by_cases hlast : L.last w = 1
    · exact ⟨tr, d, hr, ⟨hId, hSd, hres, w', hT.thread, hf'⟩, hlast ▸ hT.barriers⟩
    · have h0 : L.last w = 0 := by
        unfold Loop.last at hlast ⊢
        split <;> simp_all
      obtain ⟨tr', e, hr', hL, hlen⟩ := ih _ (hk ▸ hq.resolve_left hlast) hId hSd hres w' hT.thread hf' rfl
      refine ⟨_, e, hr.append hr', hL, ?_⟩
      rw [hlen, hT.barriers, h0, Nat.add_zero]

theorem Loop.Looping.not_stops {i : Nat} (h : L.Looping i c) : ¬ I.Stops c := by
  intro hs
  obtain ⟨tr, d, hr, hd, hlen⟩ := h.queues
  obtain ⟨tr', e, hr', -, hlen'⟩ := hd.queues
  have := (hs _ e (hr.append hr')).1
  omega

/-! ## Workers that finish -/

/-- Without users, `n` is what was queued in the end. -/
structure Loop.Finishing (L : Loop I) (n : Nat) (c : Config (Counted σ) (Thread ω)) : Prop where
  users : c.shared.users = 0
  finishes : ∀ w, .worker w ∈ c.threads → L.finishes c.shared.shared.members w
  queued : c.shared.shared.dispatch.barriers.length + weigh L.last (base c) = n

/-- With the last reference all workers have ended, so the destructor finds none that could notice. -/
theorem Loop.finishes_count {s : Counted σ} {n : Nat} {ts : List (Thread ω)}
    (hA : Accounted I ⟨I.count s n, ts⟩) (hf : ∀ w, .worker w ∈ ts → L.finishes s.shared.members w) :
    ∀ w, .worker w ∈ ts → L.finishes (I.count s n).shared.members w := by
  intro w hw
  rcases count_members (I := I) s n with he | ⟨rfl, -⟩
  · exact he ▸ hf w hw
  · have h0 : weigh I.owns (base ⟨I.count s 0, ts⟩) = 0 := (Nat.add_eq_zero_iff.mp hA.symm).2
    have hw0 : I.owns w = 0 := weigh_eq_zero.mp h0 w hw
    have he : I.ended w = true := by simpa [Impl.owns] using hw0
    exact (L.ended_finishes he).2 _

theorem Loop.Finishing.next {n : Nat} {l : Label (Use μ κ)} (hI : L.Inv c) (hF : L.Finishing n c)
    (h : I.counted.next c l = some c') : L.Finishing n c' := by
  have hA := next_accounted hI.accounted h
  cases next_counts hI.accounted h with
  | copy _ hu | drop _ hu => exact absurd hF.users hu
  | of l d m _ hb hn hc =>
    subst hc
    have borrowed : l.choice.borrows = false := Bool.eq_false_iff.mpr fun h => hb h hF.users
    have hfin : ∀ w, .worker w ∈ d.threads → L.finishes c.shared.shared.members w := by
      apply next_forall hn hF.finishes
      · intro m hl
        simp [hl, Choice.borrows] at borrowed
      · intro w w' k inv hm hw _
        exact (L.worker_finishes (hF.finishes w hm) hw).1
    obtain ⟨hmem, hlen⟩ : d.shared.members = c.shared.shared.members ∧
        d.shared.dispatch.barriers.length + weigh L.last d = n := by
      rw [← hF.queued]
      cases next_moves hn with
      | method m hl | cancel hl => simp [hl, Choice.borrows] at borrowed
      | worker w w' k inv hl hm hw hc hf =>
        obtain ⟨rfl, -⟩ := L.worker_turns hw
        have h0 : L.last w' = 0 := if_neg (by simp [(L.worker_finishes (hF.finishes w hm) hw).2.1])
        have hlen : d.shared.dispatch.barriers.length = c.shared.shared.dispatch.barriers.length + L.last w := by
          rw [hc]
          cases hi : L.invocation w <;> simp [State.async, Loop.last, hi, base]
        have hweigh := hf L.last
        exact ⟨by rw [hc]; rfl, by omega⟩
      | step _ hm hb hf => exact ⟨hm, by rw [hf, hb]; rfl⟩
    refine ⟨hF.users, L.finishes_count hA fun w hw => ?_, ?_⟩
    · exact hmem ▸ hfin w hw
    · rw [count_dispatch]
      exact hlen

theorem Loop.Finishing.run {n : Nat} {tr : List (Config (Counted σ) (Thread ω) × Label (Use μ κ))} (hI : L.Inv c)
    (hF : L.Finishing n c) (h : I.counted.Run c tr c') : L.Finishing n c' :=
  (h.invariant (I := fun c => L.Inv c ∧ L.Finishing n c) (C := fun _ _ => True) ⟨hI, hF⟩
    (fun _ _ _ hc _ hn => ⟨hc.1.next hn, hc.2.next hc.1 hn⟩) Program.along_true).2

theorem Loop.Finishing.ends {n : Nat} (hI : L.Inv c) (hS : L.Supplied c) (hF : L.Finishing n c) :
    ∃ tr d, I.counted.Run c tr d ∧ ∀ w, .worker w ∈ d.threads → I.ended w = true := by
  induction hk : weigh L.remaining (base c) using Nat.strong_induction_on generalizing c with
  | _ k ih =>
    by_cases hall : ∀ w, .worker w ∈ c.threads → I.ended w = true
    · exact ⟨[], c, .nil, hall⟩
    · obtain ⟨w, hw⟩ := not_forall.mp hall
      obtain ⟨hw, he⟩ := Classical.not_imp.mp hw
      obtain ⟨i, ht⟩ := List.mem_iff_getElem?.mp hw
      obtain ⟨tr, d, w', hr, hT, hrem, -⟩ := L.advance hI hS ht (by simpa using he)
      have hlt := hrem (hF.finishes w hw)
      have hweigh := hT.weigh L.remaining
      obtain ⟨tr', e, hr', hend⟩ := ih _ (by omega) (hI.run hr) (hS.run hI hr) (hF.run hI hr) rfl
      exact ⟨_, e, hr.append hr', hend⟩

theorem Loop.Finishing.stops_iff {n : Nat} (hI : L.Inv c) (hS : L.Supplied c) (hF : L.Finishing n c) :
    I.Stops c ↔ weigh L.last (base c) ≤ 1 := by
  have hq := hF.queued
  constructor
  · intro hs
    obtain ⟨tr, d, hr, hend⟩ := hF.ends hI hS
    have h0 : weigh L.last (base d) = 0 := weigh_eq_zero.mpr fun w hw =>
      if_neg (by simp [(L.ended_finishes (hend w hw)).1])
    have hqd := (hF.run hI hr).queued
    have := (hs tr d hr).1
    omega
  · intro hle tr d hr
    have hqd := (hF.run hI hr).queued
    exact ⟨by omega, (hF.run hI hr).ends (hI.run hr) (hS.run hI hr)⟩

/-! ## The last user -/

/-- The workers are on their last iteration, and one at most has still to queue its invocation. -/
def Loop.Finishes (L : Loop I) (c : Config (Counted σ) (Thread ω)) : Prop :=
  (∀ w, .worker w ∈ c.threads → L.finishes c.shared.shared.members w) ∧ weigh L.last (base c) ≤ 1

/-- Dropping the last user reference stops the workers exactly when they were about to stop anyway. -/
theorem Loop.drop_stops_iff (hI : L.Inv c) (hS : L.Supplied c) (hres : L.resumed c.shared.shared.members)
    (hu : c.shared.users = 1) (h : I.counted.next c (.call .drop) = some c') : I.Stops c' ↔ L.Finishes c := by
  have hI' := hI.next h
  have hS' := hS.next hI.accounted h
  have hc' : c' = ⟨I.count { c.shared with users := c.shared.users - 1 } (c.shared.references - 1), c.threads⟩ := by
    cases next_counts hI.accounted h with
    | of _ _ _ hl | copy hl => cases hl
    | drop _ _ hc => exact hc
  have hweigh : weigh L.last (base c') = weigh L.last (base c) := by rw [hc']; rfl
  by_cases hall : ∀ w, .worker w ∈ c.threads → L.finishes c.shared.shared.members w
  · have hF : L.Finishing _ c' := ⟨by simp [hc', hu], by
      subst hc'
      exact L.finishes_count hI'.accounted hall, rfl⟩
    rw [hF.stops_iff hI' hS', hweigh, Loop.Finishes, and_iff_right hall]
  · refine iff_of_false ?_ fun hf => hall hf.1
    obtain ⟨w, hw⟩ := not_forall.mp hall
    obtain ⟨hw, hf⟩ := Classical.not_imp.mp hw
    obtain ⟨i, ht⟩ := List.mem_iff_getElem?.mp hw
    have hmem : c'.shared.shared.members = c.shared.shared.members := by
      rw [hc']
      rcases count_members (I := I) { c.shared with users := c.shared.users - 1 } (c.shared.references - 1)
        with he | ⟨h0, -⟩
      · exact he
      · -- the reference of the worker is left
        have hA := hI.accounted
        have hle : Thread.weigh I.owns (.worker w) ≤ weigh I.owns (base c) := Family.le_total _ hw
        simp only [Accounted, Thread.weigh, Impl.owns, L.not_ended hf, Bool.false_eq_true, ite_false] at hA hle
        omega
    rw [← hmem] at hres hf
    exact Loop.Looping.not_stops (i := i) ⟨hI', hS', hres, w, by rw [hc']; exact ht, hf⟩

end

end Xdispatch.Dispatch
