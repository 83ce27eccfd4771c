import Xdispatch.Dispatch.Model

/-!
# What the owner of a handler can do

Every step is one of a worker, of an operation, of a `cancel`, or the call of a
method. Once a `cancel` has got past its exchange on the cancelable, that is
disabled for good and no handler is invoked any more, whatever the owner does.
-/

namespace Xdispatch.Dispatch

/-! ## Operations and cancels -/

/-- Everything a step of an operation can do. -/
inductive Operation.Proceeds (s : State) (o : Operation) : State → Operation → Prop
  | enter : o.phase = .queued → s.cancelable.admits = true →
      Proceeds s o { s with cancelable := s.cancelable.enter, invoked := s.invoked + 1 } { o with phase := .running }
  | skip : o.phase = .queued → s.cancelable.admits = false → Proceeds s o s { o with phase := .completing false }
  | finish : o.calls = true → Proceeds s o s { o with phase := .completing true }
  | disable : o.phase = .disabling →
      Proceeds s o { s with cancelable := s.cancelable.disable, cancelled := true } { o with phase := .running }
  | complete (entered) : o.phase = .completing entered →
      Proceeds s o { s with barriers := s.barriers.set o.barrier true }
        { o with phase := if entered then .leaving else .done }
  | leave : o.phase = .leaving → Proceeds s o { s with cancelable := s.cancelable.leave }
      { o with phase := if s.cancelable.leaves then .done else .releasing }
  | release : o.phase = .releasing →
      Proceeds s o { s with cancelable := s.cancelable.complete } { o with phase := .done }

inductive CancelPhase.Proceeds (s : State) : CancelPhase → State → CancelPhase → Prop
  | store : s.cancelable.active = .running →
      Proceeds s .disabling { s with cancelable := s.cancelable.disable } .waiting
  | disable : s.cancelable.active ≠ .running →
      Proceeds s .disabling { s with cancelable := s.cancelable.disable, cancelled := true } .returned
  | wake : s.cancelable.barrier = true → Proceeds s .waiting { s with cancelled := true } .returned

section
variable {s s' : State} {o o' : Operation} {p p' : CancelPhase}

theorem Operation.proceeds (h : o.step s = some (s', o')) : o.Proceeds s s' o' := by
  cases hp : o.phase with
  | queued =>
    simp only [Operation.step, hp] at h
    split at h <;> cases h
    next ha => exact .enter hp ha
    next ha => exact .skip hp (by simpa using ha)
  | running =>
    simp only [Operation.step, hp] at h
    split at h <;> cases h
    next hc => exact .finish hc
  | disabling =>
    simp only [Operation.step, hp] at h
    cases h
    exact .disable hp
  | completing entered =>
    simp only [Operation.step, hp] at h
    cases h
    exact .complete entered hp
  | leaving =>
    simp only [Operation.step, hp] at h
    cases h
    exact .leave hp
  | releasing =>
    simp only [Operation.step, hp] at h
    cases h
    exact .release hp
  | done =>
    simp only [Operation.step, hp] at h
    cases h

theorem CancelPhase.proceeds (h : p.step s = some (s', p')) : p.Proceeds s s' p' := by
  cases p with
  | disabling =>
    simp only [CancelPhase.step] at h
    split at h <;> cases h
    next ha => exact .store ha
    next ha => exact .disable ha
  | waiting =>
    simp only [CancelPhase.step] at h
    split at h <;> cases h
    next hb => exact .wake hb
  | returned => cases h

/-! ## Disabled cancelables -/

theorem leave_disabled {c : Cancelable} (h : c.active = .disabled) : c.leave = c := by
  simp [Cancelable.leave, Cancelable.leaves, h]

theorem Operation.step_disabled (h : o.step s = some (s', o')) (hd : s.cancelable.active = .disabled) :
    s'.cancelable.active = .disabled ∧ s'.invoked = s.invoked := by
  cases proceeds h with
  | enter _ ha => simp [Cancelable.admits, hd] at ha
  | disable => exact ⟨rfl, rfl⟩
  | leave => exact ⟨(congrArg Cancelable.active (leave_disabled hd)).trans hd, rfl⟩
  | _ => exact ⟨hd, rfl⟩

theorem CancelPhase.step_disabled (h : p.step s = some (s', p')) (hd : s.cancelable.active = .disabled) :
    s'.cancelable.active = .disabled ∧ s'.invoked = s.invoked := by
  cases proceeds h with
  | store | disable => exact ⟨rfl, rfl⟩
  | wake => exact ⟨hd, rfl⟩

theorem Operation.step_cancelled (h : o.step s = some (s', o')) :
    s'.cancelled = s.cancelled ∨ s'.cancelable.active = .disabled := by
  cases proceeds h with
  | disable => exact Or.inr rfl
  | _ => exact Or.inl rfl

theorem CancelPhase.step_cancelled (h : p.step s = some (s', p')) : p = .waiting ∨ s'.cancelable.active = .disabled := by
  cases proceeds h with
  | store | disable => exact Or.inr rfl
  | wake => exact Or.inl rfl

theorem Operation.step_length (h : o.step s = some (s', o')) : s'.barriers.length = s.barriers.length := by
  cases proceeds h with
  | complete => exact List.length_set
  | _ => rfl

theorem CancelPhase.step_barriers (h : p.step s = some (s', p')) : s'.barriers = s.barriers := by
  cases proceeds h <;> rfl

theorem async_eq (s : State) (inv : Option Invocation) :
    (s.async inv).1 = { s with barriers := (s.async inv).1.barriers } := by
  cases inv <;> rfl

end

/-! ## The steps of an owner -/

section
variable {σ ω μ κ : Type} {O : Owner σ ω μ κ} {s s' : Shared σ} {t t' : Thread ω} {e : Choice μ κ}
  {new : List (Thread ω)} {c c' : Config (Shared σ) (Thread ω)} {l : Label (Choice μ κ)}

inductive Step (O : Owner σ ω μ κ) (s : Shared σ) :
    Thread ω → Choice μ κ → Shared σ → Thread ω → List (Thread ω) → Prop
  | worker {w w' k inv} : O.worker s.members s.dispatch w k = some (w', inv) →
      Step O s (.worker w) (.worker k) { s with dispatch := (s.dispatch.async inv).1 } (.worker w')
        ((s.dispatch.async inv).2.map .operation)
  | operation {o o' d} : o.step s.dispatch = some (d, o') →
      Step O s (.operation o) .step { s with dispatch := d } (.operation o') []
  | cancelling {p p' d} : p.step s.dispatch = some (d, p') →
      Step O s (.cancel p) .step { s with dispatch := d } (.cancel p') []
  | method {o} (m : μ) : o.calls = true →
      Step O s (.operation o) (.method m) { s with members := (O.method s.members m).1 } (.operation o)
        ((O.method s.members m).2.map .worker)
  | cancel {o} : o.calls = true → Step O s (.operation o) .cancel { s with members := O.cancel s.members }
      (.operation { o with phase := .disabling }) []

theorem act_step (h : O.act s t e = some (s', t', new)) : Step O s t e s' t' new := by
  cases t with
  | worker w =>
    cases e with
    | worker k =>
      simp only [Owner.act, Option.map_eq_some_iff, Prod.mk.injEq] at h
      obtain ⟨⟨_, _⟩, h, rfl, rfl, rfl⟩ := h
      exact .worker h
    | _ => cases h
  | operation o =>
    cases e with
    | step =>
      simp only [Owner.act, Option.map_eq_some_iff, Prod.mk.injEq] at h
      obtain ⟨⟨_, _⟩, h, rfl, rfl, rfl⟩ := h
      exact .operation h
    | method m =>
      simp only [Owner.act] at h
      split at h <;> cases h
      next hc => exact .method m hc
    | cancel =>
      simp only [Owner.act] at h
      split at h <;> cases h
      next hc => exact .cancel hc
    | worker k => cases h
  | cancel p =>
    cases e with
    | step =>
      simp only [Owner.act, Option.map_eq_some_iff, Prod.mk.injEq] at h
      obtain ⟨⟨_, _⟩, h, rfl, rfl, rfl⟩ := h
      exact .cancelling h
    | _ => cases h

theorem call_cases (h : O.call s e = some (s', new)) :
    (∃ m, e = .method m ∧ s' = { s with members := (O.method s.members m).1 } ∧
      new = (O.method s.members m).2.map .worker) ∨
    e = .cancel ∧ s' = { s with members := O.cancel s.members } ∧ new = [.cancel .disabling] := by
  unfold Owner.call at h
  split at h <;> cases h
  · exact Or.inl ⟨_, rfl, rfl, rfl⟩
  · exact Or.inr ⟨rfl, rfl, rfl⟩

/-! ## Counting workers -/

def Thread.weigh (f : ω → Nat) : Thread ω → Nat
  | .worker w => f w
  | _ => 0

def weigh (f : ω → Nat) (c : Config (Shared σ) (Thread ω)) : Nat := Family.total (Thread.weigh f) c.threads

theorem weigh_workers (f : ω → Nat) (ws : List ω) :
    Family.total (Thread.weigh f) (ws.map Thread.worker) = Family.total f ws := by
  induction ws with
  | nil => rfl
  | cons w ws ih => simp [ih, Thread.weigh]

theorem weigh_operations (f : ω → Nat) (os : List Operation) :
    Family.total (Thread.weigh f) (os.map Thread.operation) = 0 := by
  induction os with
  | nil => rfl
  | cons o os ih => simp [ih, Thread.weigh]

theorem weigh_step {i : Nat} (f : ω → Nat) (ht : c.threads[i]? = some t) (s' : Shared σ) (t' : Thread ω)
    (new : List (Thread ω)) : weigh f ⟨s', c.threads.set i t' ++ new⟩ + t.weigh f =
      weigh f c + t'.weigh f + Family.total (Thread.weigh f) new :=
  Family.total_step (Thread.weigh f) ht t' new

/-- A step calls a method, starts a `cancel`, moves one worker, or leaves workers and members as they are. -/
inductive Moves (O : Owner σ ω μ κ) (c : Config (Shared σ) (Thread ω)) (l : Label (Choice μ κ))
    (c' : Config (Shared σ) (Thread ω)) : Prop
  | method (m : μ) : l.choice = .method m →
      c'.shared = { c.shared with members := (O.method c.shared.members m).1 } →
      (∀ f, weigh f c' = weigh f c + Family.total f (O.method c.shared.members m).2) → Moves O c l c'
  | cancel : l.choice = .cancel → c'.shared = { c.shared with members := O.cancel c.shared.members } →
      (∀ f, weigh f c' = weigh f c) → Moves O c l c'
  | worker (w w' : ω) (k : κ) (inv : Option Invocation) : l.choice = .worker k → .worker w ∈ c.threads →
      O.worker c.shared.members c.shared.dispatch w k = some (w', inv) →
      c'.shared = { c.shared with dispatch := (c.shared.dispatch.async inv).1 } →
      (∀ f, weigh f c' + f w = weigh f c + f w') → Moves O c l c'
  | step : l.choice = .step → c'.shared.members = c.shared.members →
      c'.shared.dispatch.barriers.length = c.shared.dispatch.barriers.length →
      (∀ f, weigh f c' = weigh f c) → Moves O c l c'

theorem next_moves (h : O.program.next c l = some c') : Moves O c l c' := by
  cases l with
  | call e =>
    obtain ⟨s, new, hc, rfl⟩ := Program.next_call h
    rcases call_cases hc with ⟨m, rfl, rfl, rfl⟩ | ⟨rfl, rfl, rfl⟩
    · refine .method m rfl rfl fun f => ?_
      rw [weigh, Family.total_append, weigh_workers]
      rfl
    · refine .cancel rfl rfl fun f => ?_
      rw [weigh, Family.total_append]
      rfl
  | act i e =>
    obtain ⟨t, s, t', new, ht, ha, rfl⟩ := Program.next_act h
    cases act_step ha with
    | @worker w w' k inv hw =>
      refine .worker w w' k inv rfl (Family.mem_of_get ht) hw rfl fun f => ?_
      have := weigh_step f ht ⟨c.shared.members, (c.shared.dispatch.async inv).1⟩ (.worker w')
        ((c.shared.dispatch.async inv).2.map .operation)
      rwa [weigh_operations] at this
    | operation ho => exact .step rfl rfl (Operation.step_length ho) fun f => weigh_step f ht _ _ _
    | cancelling hp =>
      exact .step rfl rfl (congrArg List.length (CancelPhase.step_barriers hp)) fun f => weigh_step f ht _ _ _
    | @method o m =>
      refine .method m rfl rfl fun f => ?_
      have := weigh_step f ht ⟨(O.method c.shared.members m).1, c.shared.dispatch⟩ (.operation o)
        ((O.method c.shared.members m).2.map .worker)
      rwa [weigh_workers] at this
    | cancel => exact .cancel rfl rfl fun f => weigh_step f ht _ _ _

theorem weigh_add (f g : ω → Nat) (c : Config (Shared σ) (Thread ω)) :
    weigh (fun w => f w + g w) c = weigh f c + weigh g c := by
  unfold weigh
  rw [← Family.total_add]
  apply Family.total_congr
  intro t _
  cases t <;> rfl

theorem weigh_congr {f g : ω → Nat} (h : ∀ w, .worker w ∈ c.threads → f w = g w) : weigh f c = weigh g c := by
  apply Family.total_congr
  intro t ht
  cases t with
  | worker w => exact h w ht
  | operation | cancel => rfl

theorem weigh_eq_zero {f : ω → Nat} : weigh f c = 0 ↔ ∀ w, .worker w ∈ c.threads → f w = 0 := by
  rw [weigh, Family.total_eq_zero]
  constructor
  · intro h w hw
    exact h _ hw
  · intro h t ht
    cases t with
    | worker w => exact h w ht
    | operation | cancel => rfl

theorem next_forall {P : ω → Prop} (h : O.program.next c l = some c') (hP : ∀ w, .worker w ∈ c.threads → P w)
    (hnew : ∀ m, l.choice = .method m → ∀ w ∈ (O.method c.shared.members m).2, P w)
    (hstep : ∀ w w' k inv, .worker w ∈ c.threads → O.worker c.shared.members c.shared.dispatch w k = some (w', inv) →
      c'.shared = { c.shared with dispatch := (c.shared.dispatch.async inv).1 } → P w') :
    ∀ w, .worker w ∈ c'.threads → P w := by
  classical
  let f : ω → Nat := fun w => if P w then 0 else 1
  have hf : ∀ {w}, f w = 0 ↔ P w := by
    intro w
    by_cases hw : P w <;> simp [f, hw]
  have h0 : weigh f c = 0 := weigh_eq_zero.mpr fun w hw => hf.mpr (hP w hw)
  suffices hc' : weigh f c' = 0 from fun w hw => hf.mp (weigh_eq_zero.mp hc' w hw)
  cases next_moves h with
  | method m hl _ hw =>
    rw [hw f, h0, Family.total_eq_zero.mpr fun w hw => hf.mpr (hnew m hl w hw)]
  | cancel _ _ hw => rw [hw f, h0]
  | worker w w' k inv _ hm hw hc hf' =>
    have := hf' f
    rw [h0, hf.mpr (hP w hm), hf.mpr (hstep w w' k inv hm hw hc)] at this
    exact this
  | step _ _ _ hw => rw [hw f, h0]

/-! ## After `cancel` -/

/-- A `cancel` has got past its exchange on the cancelable. -/
def Past (c : Config (Shared σ) (Thread ω)) : Prop :=
  c.shared.dispatch.cancelled = true ∨ .cancel .waiting ∈ c.threads

def Disabled (c : Config (Shared σ) (Thread ω)) : Prop := Past c → c.shared.dispatch.cancelable.active = .disabled

theorem step_disabled (h : Step O s t e s' t' new) (hd : s.dispatch.cancelable.active = .disabled) :
    s'.dispatch.cancelable.active = .disabled ∧ s'.dispatch.invoked = s.dispatch.invoked := by
  cases h with
  | worker =>
    simp only []
    rw [async_eq]
    exact ⟨hd, rfl⟩
  | operation ho => exact Operation.step_disabled ho hd
  | cancelling hp => exact CancelPhase.step_disabled hp hd
  | method | cancel => exact ⟨hd, rfl⟩

theorem next_invoked (hd : c.shared.dispatch.cancelable.active = .disabled) (h : O.program.next c l = some c') :
    c'.shared.dispatch.cancelable.active = .disabled ∧
      c'.shared.dispatch.invoked = c.shared.dispatch.invoked := by
  cases l with
  | call e =>
    obtain ⟨s, new, hc, rfl⟩ := Program.next_call h
    rcases call_cases hc with ⟨m, -, rfl, rfl⟩ | ⟨-, rfl, rfl⟩ <;> exact ⟨hd, rfl⟩
  | act i e =>
    obtain ⟨t, s, t', new, -, ha, rfl⟩ := Program.next_act h
    exact step_disabled (act_step ha) hd

theorem step_past (h : Step O s t e s' t' new) (hp : s'.dispatch.cancelled = true ∨ .cancel .waiting ∈ t' :: new) :
    s.dispatch.cancelled = true ∨ t = .cancel .waiting ∨ s'.dispatch.cancelable.active = .disabled := by
  cases h with
  | worker =>
    simp only [] at hp
    rw [async_eq] at hp
    exact Or.inl (hp.resolve_right (by simp))
  | operation ho =>
    rcases Operation.step_cancelled ho with he | hd
    · exact Or.inl (he ▸ hp.resolve_right (by simp))
    · exact Or.inr (Or.inr hd)
  | cancelling hw =>
    rcases CancelPhase.step_cancelled hw with rfl | hd
    · exact Or.inr (Or.inl rfl)
    · exact Or.inr (Or.inr hd)
  | method | cancel => exact Or.inl (hp.resolve_right (by simp))

theorem next_disabled (hI : Disabled c) (h : O.program.next c l = some c') : Disabled c' := by
  intro hp
  cases l with
  | call e =>
    obtain ⟨s, new, hc, rfl⟩ := Program.next_call h
    rcases call_cases hc with ⟨m, -, rfl, rfl⟩ | ⟨-, rfl, rfl⟩
    · exact hI (hp.imp_right fun hx => (List.mem_append.mp hx).resolve_right (by simp))
    · exact hI (hp.imp_right fun hx => (List.mem_append.mp hx).resolve_right (by simp))
  | act i e =>
    obtain ⟨t, s, t', new, ht, ha, rfl⟩ := Program.next_act h
    have hs := act_step ha
    by_cases hc : Past c
    · exact (step_disabled hs (hI hc)).1
    · have hp' : s.dispatch.cancelled = true ∨ .cancel .waiting ∈ t' :: new := hp.imp_right fun hx => by
        rcases Family.step_cases ht hx with rfl | hx | ⟨j, -, hj⟩
        · exact List.mem_cons_self
        · exact List.mem_cons_of_mem _ hx
        · exact absurd (Or.inr (Family.mem_of_get hj)) hc
      rcases step_past hs hp' with he | rfl | hd
      · exact absurd (Or.inl he) hc
      · exact absurd (Or.inr (Family.mem_of_get ht)) hc
      · exact hd

theorem run_disabled {s₀ : σ} {tr : List (Config (Shared σ) (Thread ω) × Label (Choice μ κ))}
    (h : O.program.Run ⟨⟨s₀, .new⟩, []⟩ tr c) : Disabled c := by
  have h0 : Disabled (⟨⟨s₀, .new⟩, []⟩ : Config (Shared σ) (Thread ω)) := by
    rintro (hp | hp) <;> cases hp
  exact h.invariant (C := fun _ _ => True) h0 (fun _ _ _ hI _ hn => next_disabled hI hn) Program.along_true

/-! ## Barriers and their operations -/

/-- It has not completed its barrier yet. -/
def Operation.pending (o : Operation) : Bool :=
  match o.phase with
  | .queued | .running | .disabling | .completing _ => true
  | .leaving | .releasing | .done => false

def Linked (c : Config (Shared σ) (Thread ω)) : Prop :=
  ∀ b < c.shared.dispatch.barriers.length, c.shared.dispatch.completed b = true ∨
    ∃ o, .operation o ∈ c.threads ∧ o.barrier = b ∧ o.pending = true

theorem Operation.step_linked {d d' : State} {o o' : Operation} (h : o.step d = some (d', o')) (b : Nat)
    (hb : b < d.barriers.length) : (d.completed b = true → d'.completed b = true) ∧
      (o.barrier = b → o.pending = true → d'.completed b = true ∨ o'.barrier = b ∧ o'.pending = true) := by
  cases proceeds h with
  | enter | skip | finish | disable => exact ⟨id, fun hb _ => Or.inr ⟨hb, rfl⟩⟩
  | complete entered hp =>
    have hset : b = o.barrier ∨ b ≠ o.barrier := Classical.em _
    refine ⟨fun hc => ?_, fun hob _ => Or.inl ?_⟩
    · rcases hset with rfl | hne
      · simp [State.completed, hb]
      · simpa [State.completed, List.getElem?_set_ne hne.symm] using hc
    · simp [State.completed, hob, hb]
  | leave hp | release hp => exact ⟨id, fun _ hpend => by simp [Operation.pending, hp] at hpend⟩

theorem async_linked {s : State} {inv : Option Invocation} {b : Nat} (hb : b < (s.async inv).1.barriers.length) :
    b < s.barriers.length ∧ (s.async inv).1.completed b = s.completed b ∨
      ∃ o ∈ (s.async inv).2, o.barrier = b ∧ o.pending = true := by
  cases inv with
  | none => exact Or.inl ⟨hb, rfl⟩
  | some inv =>
    have hlen : b < s.barriers.length + 1 := by simpa [State.async] using hb
    rcases Nat.lt_succ_iff_lt_or_eq.mp hlen with hlt | rfl
    · exact Or.inl ⟨hlt, by simp [State.async, State.completed, List.getElem?_append_left hlt]⟩
    · exact Or.inr ⟨⟨inv, s.barriers.length, .queued⟩, by simp [State.async], rfl, rfl⟩

theorem next_linked (hI : Linked c) (h : O.program.next c l = some c') : Linked c' := by
  intro b hb
  cases l with
  | call e =>
    obtain ⟨s, new, hc, rfl⟩ := Program.next_call h
    rcases call_cases hc with ⟨m, -, rfl, rfl⟩ | ⟨-, rfl, rfl⟩
    all_goals
      rcases hI b hb with hc | ⟨o, ho, hob, hp⟩
      · exact Or.inl hc
      · exact Or.inr ⟨o, List.mem_append_left _ ho, hob, hp⟩
  | act i e =>
    obtain ⟨t, s, t', new, ht, ha, rfl⟩ := Program.next_act h
    -- the operation of `b` is not the thread that moves, or it is and moves on
    have other : ∀ o, .operation o ∈ c.threads → .operation o ≠ t → ∀ t' new,
        .operation o ∈ c.threads.set i t' ++ new := fun o ho hne t' new => Family.mem_step_of_ne ht ho hne t' new
    cases act_step ha with
    | @worker w w' k inv hw =>
      rcases async_linked hb with ⟨hlt, he⟩ | ⟨o, ho, hob, hp⟩
      · rcases hI b hlt with hc | ⟨o, ho, hob, hp⟩
        · exact Or.inl (he.trans hc)
        · exact Or.inr ⟨o, other o ho (by simp) _ _, hob, hp⟩
      · exact Or.inr ⟨o, List.mem_append_right _ (List.mem_map.mpr ⟨o, ho, rfl⟩), hob, hp⟩
    | @operation o o' d ho =>
      rw [Operation.step_length ho] at hb
      obtain ⟨hkeep, hmove⟩ := Operation.step_linked ho b hb
      rcases hI b hb with hc | ⟨o₁, ho₁, hob, hp⟩
      · exact Or.inl (hkeep hc)
      · by_cases he : o₁ = o
        · subst he
          rcases hmove hob hp with hc | ⟨hob', hp'⟩
          · exact Or.inl hc
          · exact Or.inr ⟨o', Family.mem_step_self ht _ _, hob', hp'⟩
        · exact Or.inr ⟨o₁, other o₁ ho₁ (fun h => he (by injection h)) _ _, hob, hp⟩
    | cancelling hp =>
      have hbar := CancelPhase.step_barriers hp
      rw [hbar] at hb
      rcases hI b hb with hc | ⟨o, ho, hob, hpend⟩
      · exact Or.inl (by rwa [State.completed, hbar])
      · exact Or.inr ⟨o, other o ho (by simp) _ _, hob, hpend⟩
    | @method o m =>
      rcases hI b hb with hc | ⟨o₁, ho₁, hob, hp⟩
      · exact Or.inl hc
      · by_cases he : o₁ = o
        · subst he
          exact Or.inr ⟨o₁, Family.mem_step_self ht _ _, hob, hp⟩
        · exact Or.inr ⟨o₁, other o₁ ho₁ (fun h => he (by injection h)) _ _, hob, hp⟩
    | @cancel o =>
      rcases hI b hb with hc | ⟨o₁, ho₁, hob, hp⟩
      · exact Or.inl hc
      · by_cases he : o₁ = o
        · subst he
          exact Or.inr ⟨_, Family.mem_step_self ht _ _, hob, rfl⟩
        · exact Or.inr ⟨o₁, other o₁ ho₁ (fun h => he (by injection h)) _ _, hob, hp⟩

theorem run_linked {s₀ : σ} {tr : List (Config (Shared σ) (Thread ω) × Label (Choice μ κ))}
    (h : O.program.Run ⟨⟨s₀, .new⟩, []⟩ tr c) : Linked c := by
  have h0 : Linked (⟨⟨s₀, .new⟩, []⟩ : Config (Shared σ) (Thread ω)) := fun b hb => absurd hb (Nat.not_lt_zero b)
  exact h.invariant (C := fun _ _ => True) h0 (fun _ _ _ hI _ hn => next_linked hI hn) Program.along_true

end

end Xdispatch.Dispatch
