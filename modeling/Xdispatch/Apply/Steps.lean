import Xdispatch.Apply.Invariant

/-!
# The steps of an `apply`

For each kind of step: what it does to the queue with its operations, and what
one call of `apply` sees of it. The calls of `apply` fit the state throughout.
-/

namespace Xdispatch.Apply

section
variable {σ τ ε : Type} {E : Executor σ τ ε} {s s' : Shared σ τ} {q q' : Config σ (τ × Body)} {e : ε} {a i x : Nat}
  {t t' : τ} {b b' : Body} {new : List τ} {σ' : σ}

@[simp] theorem idles_fst (l : List τ) : (idles l).map Prod.fst = l := by
  unfold idles
  rw [List.map_map]
  exact List.map_id' l

theorem total_idles {M : Type} [AddCommMonoid M] (f : τ × Body → M) (l : List τ) :
    Family.total f (idles l) = Family.total (fun t => f (t, .idle)) l := by
  simp [Family.total, idles, Function.comp_def]

theorem forall_idles {P : τ × Body → Prop} {l : List τ} (h : ∀ t ∈ l, P (t, .idle)) : ∀ p ∈ idles l, P p := by
  intro p hp
  obtain ⟨t, ht, rfl⟩ := List.mem_map.mp hp
  exact h t ht

theorem total_zero {M : Type} [AddCommMonoid M] (l : List τ) : Family.total (fun _ => (0 : M)) l = 0 := by
  simp [Family.total]

/-! ## Calls of the queue -/

theorem lifted_call (h : (lifted E).next q (.call e) = some q') : ∃ σ' new,
    E.program.call q.shared e = some (σ', new) ∧ q' = ⟨σ', q.threads ++ idles new⟩ ∧
      E.program.next (erase q) (.call e) = some (erase q') := by
  obtain ⟨σ', new, hc, rfl⟩ := Program.next_call h
  simp only [lifted, Option.map_eq_some_iff, Prod.mk.injEq] at hc
  obtain ⟨⟨σ₁, ws⟩, hc, rfl, rfl⟩ := hc
  exact ⟨σ₁, ws, hc, rfl, by simp [Program.next, erase, hc]⟩

theorem lifted_act (h : (lifted E).next q (.act i e) = some q') : ∃ t b σ' t' new,
    q.threads[i]? = some (t, b) ∧ E.running t = none ∧ E.program.act q.shared t e = some (σ', t', new) ∧
      q' = ⟨σ', q.threads.set i (t', if (E.running t').isSome then .execute else .idle) ++ idles new⟩ ∧
        E.program.next (erase q) (.act i e) = some (erase q') := by
  obtain ⟨⟨t, b⟩, σ', ⟨t', b'⟩, ws, ht, ha, rfl⟩ := Program.next_act h
  simp only [lifted] at ha
  split at ha
  · cases ha
  next hr =>
    simp only [Option.map_eq_some_iff, Prod.mk.injEq] at ha
    obtain ⟨⟨σ₁, t₁, new⟩, ha, rfl, ⟨rfl, rfl⟩, rfl⟩ := ha
    refine ⟨t, b, σ₁, t₁, new, ht, by simpa using hr, ha, rfl, ?_⟩
    simp [Program.next, erase, ht, ha, List.map_set]

theorem QueueInv.append (hQ : QueueInv E s) (hk : E.Keeps s.queue.shared σ')
    (hnew : ∀ t ∈ new, E.running t = none ∧ ∀ x, E.adding t = some x → x < s.ops.length)
    (hrun : ∃ tr, E.program.Run E.initial tr (erase ⟨σ', s.queue.threads ++ idles new⟩)) :
    QueueInv E { s with queue := ⟨σ', s.queue.threads ++ idles new⟩ } := by
  refine ⟨hrun, ?_, Family.forall_append hQ.adding (forall_idles fun t ht => (hnew t ht).2),
    Family.forall_append hQ.running (forall_idles fun t ht x hx => ?_),
    Family.forall_append hQ.idle (forall_idles fun t _ _ => rfl), ?_⟩
  · simp only [hk.1]
    exact hQ.added
  · rw [(hnew t ht).1] at hx
    cases hx
  · simp only [hk.2, pending, Family.total_append, total_idles, pend, reduceCtorEq, ite_false, Multiset.coe_nil,
      total_zero, add_zero]
    exact hQ.executed

def addsOf (E : Executor σ τ ε) (ops : List (Option (Nat × Nat))) (a : Nat) (l : List τ) : Multiset Nat :=
  Family.total (fun t => (indices ops a (E.adding t).toList : Multiset Nat)) l

theorem view_append (hk : E.Keeps s.queue.shared σ') (new : List τ) :
    view E { s with queue := ⟨σ', s.queue.threads ++ idles new⟩ } a =
      { view E s a with adds := (view E s a).adds + addsOf E s.ops a new } := by
  simp only [view, addsOf, hk.1, Family.total_append, total_idles, comes, reduceCtorEq, ite_false, total_zero, add_zero]
  rfl

/-! ## Steps of a thread of the queue -/

/-- Thread `i` of the queue goes from `t` to `t'`, with the operation that it runs. -/
def Shared.move (s : Shared σ τ) (i : Nat) (σ' : σ) (t' : τ) (b' : Body) (new : List τ) : Shared σ τ :=
  { s with queue := ⟨σ', s.queue.threads.set i (t', b') ++ idles new⟩ }

theorem addsOf_idle (ops : List (Option (Nat × Nat))) (hnew : ∀ t ∈ new, E.Idle t) : addsOf E ops a new = 0 := by
  unfold addsOf
  rw [Family.total_congr (g := fun _ => 0) fun t ht => by rw [(hnew t ht).1]; rfl]
  exact total_zero new

/-- What a thread adds, or is about to add, is all that a move changes for an `apply`. -/
theorem view_move (σ' : σ) (t' : τ) (a : Nat) (ht : s.queue.threads[i]? = some (t, b)) (hb : b = .idle ∨ b = .return)
    (hb' : b' = .idle ∨ b' = .execute) (hnew : ∀ x ∈ new, E.Idle x) :
    ∃ adds, view E (s.move i σ' t' b' new) a =
        { view E s a with added := indices s.ops a (E.added σ'), adds := adds } ∧
      adds + indices s.ops a (E.adding t).toList = (view E s a).adds + indices s.ops a (E.adding t').toList := by
  have hcomes : ∀ b₀, b₀ = .consume ∨ b₀ = .complete →
      Family.total (comes E s.ops a b₀) (s.queue.threads.set i (t', b') ++ idles new) =
        Family.total (comes E s.ops a b₀) s.queue.threads := by
    intro b₀ h₀
    apply Family.total_eq_step rfl ht
    have h1 : comes E s.ops a b₀ (t, b) = 0 := if_neg (by rcases hb with rfl | rfl <;> rcases h₀ with rfl | rfl <;> simp)
    have h2 : comes E s.ops a b₀ (t', b') = 0 := if_neg (by rcases hb' with rfl | rfl <;> rcases h₀ with rfl | rfl <;> simp)
    have h3 : Family.total (comes E s.ops a b₀) (idles new) = 0 := by
      rw [total_idles]
      exact Family.total_eq_zero.mpr fun x _ => if_neg (by rcases h₀ with rfl | rfl <;> simp)
    rw [h1, h2, h3]
  have hadds := Family.total_step (fun p : τ × Body => (indices s.ops a (E.adding p.1).toList : Multiset Nat)) ht (t', b')
    (idles new)
  rw [total_idles] at hadds
  have h0 := addsOf_idle (a := a) s.ops hnew
  simp only [addsOf] at h0
  rw [h0, add_zero] at hadds
  refine ⟨_, ?_, hadds⟩
  simp only [view, Shared.move, hcomes .consume (Or.inl rfl), hcomes .complete (Or.inr rfl)]
  rfl

/-- What a move of thread `i` is to those that look at the threads of the queue. -/
theorem get_move (ht : s.queue.threads[i]? = some (t, b)) {n : Nat} {p : τ × Body}
    (hp : s.queue.threads[n]? = some p) (σ' : σ) (t' : τ) (b' : Body) (new : List τ) : n = i ∧ p = (t, b) ∧
        (s.move i σ' t' b' new).queue.threads[n]? = some (t', b') ∨
      n ≠ i ∧ (s.move i σ' t' b' new).queue.threads[n]? = some p := by
  by_cases hn : n = i
  · subst hn
    exact Or.inl ⟨rfl, Option.some.inj (hp.symm.trans ht), Family.get_step ht _ _⟩
  · exact Or.inr ⟨hn, Family.get_step_of_ne hp (Ne.symm hn) _ _⟩

theorem AddsAt.move {n k : Nat} (h : AddsAt E s a n k) (ht : s.queue.threads[i]? = some (t, b))
    (hkeep : ∀ x, E.adding t = some x → indexOf s.ops a x = some k → E.adding t' = some x) :
    AddsAt E (s.move i σ' t' b' new) a n k := by
  obtain ⟨p, x, hp, hx, hk⟩ := h
  rcases get_move ht hp σ' t' b' new with ⟨rfl, rfl, hp'⟩ | ⟨-, hp'⟩
  · exact ⟨_, x, hp', hkeep x hx hk, hk⟩
  · exact ⟨p, x, hp', hx, hk⟩

theorem Phase.Posted.add {ph : Phase} {times k : Nat} {adds : Multiset Nat} (hp : ph.Posted E s a times)
    (hadds : (view E s a).adds = {k} + adds) (hv : view E s' a =
      { view E s a with added := (view E s a).added ++ [k], adds := adds }) : ph.Posted E s' a times := by
  have hne : (view E s a).adds ≠ 0 := by simp [hadds]
  cases ph with
  | async j n =>
    rcases hp with ⟨hj, ⟨-, h0⟩ | ⟨hadded, h1, -⟩⟩
    · exact absurd h0 hne
    · rw [hadds] at h1
      have h0 : adds = 0 := by
        have := congrArg Multiset.card h1
        simpa using this
      have hk : k = j := by simpa [h0] using h1
      refine ⟨hj, Or.inl ⟨?_, ?_⟩⟩
      · rw [hv, List.range_succ, hk]
        exact congrArg (· ++ [j]) hadded
      · rw [hv]
        exact h0
  | loop j => exact absurd hp.2.2 hne
  | check | barrier | waitAll | returned => exact absurd hp.2 hne

theorem Phase.Posted.keep {ph : Phase} {times : Nat} (hp : ph.Posted E s a times)
    (hadded : (view E s' a).added = (view E s a).added) (hadds : (view E s' a).adds = (view E s a).adds)
    (hat : ∀ n k, AddsAt E s a n k → AddsAt E s' a n k) : ph.Posted E s' a times := by
  cases ph with
  | async j n =>
    simp only [Phase.Posted, hadded, hadds] at hp ⊢
    exact ⟨hp.1, hp.2.imp_right fun h => ⟨h.1, h.2.1, hat n j h.2.2⟩⟩
  | loop j =>
    simp only [Phase.Posted, hadded, hadds] at hp ⊢
    exact hp
  | check | barrier | waitAll | returned =>
    simp only [Phase.Posted, hadded, hadds] at hp ⊢
    exact hp

/-- The thread adds the operation that it was about to add, or goes on being about to. -/
def Adds (E : Executor σ τ ε) (σ₀ : σ) (t : τ) (σ' : σ) (t' : τ) : Prop :=
  (∃ y, E.adding t = some y ∧ E.adding t' = none ∧ E.added σ' = E.added σ₀ ++ [y]) ∨
    E.adding t' = E.adding t ∧ E.added σ' = E.added σ₀

theorem Phase.Posted.move {ph : Phase} {times : Nat} (hp : ph.Posted E s a times)
    (ht : s.queue.threads[i]? = some (t, b)) (hb : b = .idle ∨ b = .return) (hb' : b' = .idle ∨ b' = .execute)
    (hnew : ∀ x ∈ new, E.Idle x) (hadd : Adds E s.queue.shared t σ' t') :
    ph.Posted E (s.move i σ' t' b' new) a times := by
  obtain ⟨adds, hv, hadds⟩ := view_move σ' t' a ht hb hb' hnew
  rcases hadd with ⟨y, hy, hn, hadded⟩ | ⟨hsame, hadded⟩
  · rw [hadded] at hv
    rw [hy, hn] at hadds
    cases hk : indexOf s.ops a y with
    | none =>
      have h1 : (view E s a).adds = adds := by simpa [indices, hk] using hadds.symm
      refine hp.keep (by rw [hv]; simp [view, indices, hk]) (by rw [hv, h1]) fun n k h => h.move ht fun x hx hkx => ?_
      cases hy.symm.trans hx
      rw [hk] at hkx
      cases hkx
    | some k =>
      refine Phase.Posted.add hp (?_ : _ = {k} + adds) ?_
      · have : adds + {k} = (view E s a).adds := by simpa [indices, hk] using hadds
        rw [← this, add_comm]
      · rw [hv]
        simp [view, indices, hk]
  · rw [hsame] at hadds
    have h1 := add_right_cancel hadds
    refine hp.keep (by rw [hv, hadded]; rfl) (by rw [hv, h1]) fun n k h => h.move ht fun x hx _ => ?_
    rwa [hsame]

theorem Moves.adds (h : E.Moves s.queue.shared t σ' t') : Adds E s.queue.shared t σ' t' := by
  cases h with
  | add y hy _ hn hadded => exact Or.inl ⟨y, hy, hn.1, hadded⟩
  | start x hi hn _ _ hadded => exact Or.inr ⟨hn.trans hi.1.symm, hadded⟩
  | finish x _ hn hi hk => exact Or.inr ⟨hi.1.trans hn.symm, hk.1⟩
  | other _ _ hsame hk => exact Or.inr ⟨hsame, hk.1⟩

/-- The thread runs nothing and comes to the start of what it runs then, or returns from an operation. -/
def Passes (E : Executor σ τ ε) (t : τ) (b : Body) (t' : τ) (b' : Body) : Prop :=
  E.running t = none ∧ b = .idle ∧ b' = (if (E.running t').isSome then .execute else .idle) ∨
    E.running t ≠ none ∧ b = .return ∧ b' = .idle

theorem Passes.body (h : Passes E t b t' b') : (b = .idle ∨ b = .return) ∧ (b' = .idle ∨ b' = .execute) := by
  rcases h with ⟨-, rfl, rfl⟩ | ⟨-, rfl, rfl⟩
  · refine ⟨Or.inl rfl, ?_⟩
    split
    · exact Or.inr rfl
    · exact Or.inl rfl
  · exact ⟨Or.inr rfl, Or.inl rfl⟩

theorem QueueInv.move (hE : E.Lawful) (hQ : QueueInv E s) (ht : s.queue.threads[i]? = some (t, b))
    (hm : E.Moves s.queue.shared t σ' t') (hp : Passes E t b t' b') (hnew : ∀ x ∈ new, E.Idle x)
    (hrun : ∃ tr, E.program.Run E.initial tr (erase (s.move i σ' t' b' new).queue)) :
    QueueInv E (s.move i σ' t' b' new) := by
  have hmem := Family.mem_of_get ht
  have hadded : ∀ x ∈ E.added σ', x < s.ops.length := by
    intro x hx
    rcases Moves.adds hm with ⟨y, hy, -, he⟩ | ⟨-, he⟩
    · rw [he] at hx
      rcases List.mem_append.mp hx with hx | hx
      · exact hQ.added x hx
      · cases List.mem_singleton.mp hx
        exact hQ.adding _ hmem _ hy
    · exact hQ.added x (he ▸ hx)
  have hstarted : ∀ x ∈ E.started σ', x < s.ops.length := by
    obtain ⟨tr, hr⟩ := hrun
    intro x hx
    exact hadded x (Multiset.mem_coe.mp (Multiset.mem_of_le (hE.once tr _ hr) (Multiset.mem_coe.mpr hx)))
  have hidle : ∀ x ∈ new, E.running x = none ∧ ∀ y, E.adding x = some y → y < s.ops.length := fun x hx =>
    ⟨(hnew x hx).2, fun y hy => by rw [(hnew x hx).1] at hy; cases hy⟩
  have hpend := Family.total_step (fun p : τ × Body => (pend E p : Multiset Nat)) ht (t', b') (idles new)
  rw [total_idles] at hpend
  simp only [pend, reduceCtorEq, ite_false, Multiset.coe_nil, total_zero, add_zero] at hpend
  have hb : b ≠ .execute := by rcases hp.body.1 with rfl | rfl <;> simp
  rw [if_neg hb, Multiset.coe_nil, add_zero] at hpend
  refine ⟨hrun, hadded, ?_, ?_, ?_, ?_⟩
  · refine Family.forall_step hQ.adding (fun y hy => ?_) (forall_idles fun x hx => (hidle x hx).2)
    rcases Moves.adds hm with ⟨_, -, hn, -⟩ | ⟨hsame, -⟩
    · rw [hn] at hy
      cases hy
    · exact hQ.adding _ hmem y (hsame ▸ hy)
  · refine Family.forall_step hQ.running (fun y hy => ?_) (forall_idles fun x hx y hy => ?_)
    · cases hm with
      | start x hi _ hr hs _ =>
        rcases hp with ⟨-, -, rfl⟩ | ⟨hne, -⟩
        · cases hr.symm.trans hy
          exact ⟨hstarted _ (by rw [hs]; simp), by simp [hr]⟩
        · exact absurd hi.2 hne
      | add _ _ _ hi => cases hi.2.symm.trans hy
      | finish _ _ _ hi => cases hi.2.symm.trans hy
      | other _ hn => cases hn.symm.trans hy
    · rw [(hidle x hx).1] at hy
      cases hy
  · refine Family.forall_step hQ.idle (fun hn => ?_) (forall_idles fun x hx _ => rfl)
    rcases hp with ⟨-, -, rfl⟩ | ⟨-, -, rfl⟩
    · exact if_neg (by simp [show E.running t' = none from hn])
    · rfl
  · simp only [Shared.move, pending, pend]
    rw [hpend]
    have hkeep : E.running t' = none → E.started σ' = E.started s.queue.shared →
        (E.started σ' : Multiset Nat) = s.executed + (Family.total (fun p : τ × Body => (pend E p : Multiset Nat))
          s.queue.threads + ↑(if b' = .execute then (E.running t').toList else [])) := by
      intro hn hs
      rw [hs, hn]
      simpa [pending] using hQ.executed
    cases hm with
    | start x hi _ hr hs _ =>
      rcases hp with ⟨-, -, rfl⟩ | ⟨hne, -⟩
      · have he := hQ.executed
        simp only [pending] at he
        rw [hs, hr, ← Multiset.coe_add, he, add_assoc]
        rfl
      · exact absurd hi.2 hne
    | add _ _ _ hi _ hs => exact hkeep hi.2 hs
    | finish _ _ _ hi hk => exact hkeep hi.2 hk.2
    | other _ hn _ hk => exact hkeep hn hk.2

theorem pending_le (l : List (τ × Body)) : pending E l ≤ E.runningAll (l.map Prod.fst) := by
  induction l with
  | nil => exact le_rfl
  | cons p l ih =>
    simp only [pending, Executor.runningAll, List.map_cons, Family.total_cons] at ih ⊢
    refine add_le_add ?_ ih
    unfold pend
    split
    · exact le_rfl
    · exact Multiset.zero_le _

/-- All that was added has been executed when nothing else is started or running. -/
theorem QueueInv.settled (hQ : QueueInv E s) (hs : E.started s.queue.shared = E.added s.queue.shared)
    (h0 : E.runningAll (erase s.queue).threads = 0) : (view E s a).executed.length = (view E s a).added.length := by
  have hp : pending E s.queue.threads = 0 := Multiset.le_zero.mp (h0 ▸ pending_le s.queue.threads)
  have he := hQ.executed
  rw [hp, add_zero, hs] at he
  exact ((Multiset.coe_eq_coe.mp he).symm.filterMap (indexOf s.ops a)).length_eq

theorem Phase.Waited.mono {ph : Phase} {times : Nat} (h : ph.Waited E s a times)
    (hx : (view E s a).executed.length ≤ (view E s' a).executed.length)
    (hr : (view E s' a).resources ≤ (view E s a).resources)
    (hw : ∀ n, ph = .waitAll n → WaitsAt E s n → WaitsAt E s' n ∨ times ≤ (view E s' a).executed.length) :
    ph.Waited E s' a times := by
  cases ph with
  | waitAll n => exact ⟨h.1, h.2.elim (hw n rfl) fun h => Or.inr (h.trans hx)⟩
  | returned =>
    simp only [Phase.Waited] at h ⊢
    by_cases hn : E.wait = none
    · rw [if_pos hn] at h ⊢
      exact Nat.le_zero.mp (hr.trans h.le)
    · rw [if_neg hn] at h ⊢
      exact h.trans hx
  | _ => exact h

/-- A wait goes on, or has found everything executed. -/
def Waits (E : Executor σ τ ε) (t t' : τ) (s' : Shared σ τ) : Prop := E.waiting t = true → E.waiting t' = true ∨
  E.started s'.queue.shared = E.added s'.queue.shared ∧ E.runningAll (erase s'.queue).threads = 0

theorem Thread.Fits.move {u : Thread} (hf : u.Fits E s) (ht : s.queue.threads[i]? = some (t, b))
    (hm : E.Moves s.queue.shared t σ' t') (hp : Passes E t b t' b') (hnew : ∀ x ∈ new, E.Idle x)
    (hQ : QueueInv E (s.move i σ' t' b' new)) (hw : Waits E t t' (s.move i σ' t' b' new)) :
    u.Fits E (s.move i σ' t' b' new) := by
  obtain ⟨hb, hb'⟩ := hp.body
  obtain ⟨adds, hv, -⟩ := view_move σ' t' u.id ht hb hb' hnew
  have hposted := hf.posted.move ht hb hb' hnew (Moves.adds hm)
  refine ⟨hposted, hf.waited.mono (by rw [hv]) (by rw [hv]) fun n hph hwait => ?_, fun hn => ?_, ?_⟩
  · obtain ⟨p, hpn, hpw⟩ := hwait
    rcases get_move ht hpn σ' t' b' new with ⟨rfl, rfl, hp'⟩ | ⟨-, hp'⟩
    · rcases hw hpw with hw' | ⟨hs, h0⟩
      · exact Or.inl ⟨_, hp', hw'⟩
      · refine Or.inr ?_
        rw [hQ.settled hs h0]
        rw [hph] at hposted
        rw [hposted.1, List.length_range]
    · exact Or.inl ⟨p, hp', hpw⟩
  · rw [hv]
    exact hf.consumed hn
  · rw [hv]
    exact hf.completed

/-! ## Statements of the operations -/

theorem indexOf_apply (s : Shared σ τ) (a x : Nat) :
    indexOf s.ops a x = (s.apply x).bind fun p => if p.1 = a then some p.2 else none := rfl

theorem QueueInv.setBody (hQ : QueueInv E s) (ht : s.queue.threads[i]? = some (t, b)) (hx : E.running t = some x)
    (hb' : b' ≠ .idle) (hq : s'.queue = s.queue) (hops : s'.ops = s.ops)
    (he : (s'.executed : Multiset Nat) + ↑(if b' = .execute then [x] else []) =
      s.executed + ↑(if b = .execute then [x] else [])) : QueueInv E (s'.setBody i t b') := by
  have hmem := Family.mem_of_get ht
  have hset : ∀ {P : τ × Body → Prop}, (∀ p ∈ s.queue.threads, P p) → P (t, b') →
      ∀ p ∈ s.queue.threads.set i (t, b'), P p := fun h h' p hp =>
    (List.mem_or_eq_of_mem_set hp).elim (h p) fun hp => hp ▸ h'
  have herase : erase (s'.setBody i t b').queue = erase s.queue := by
    simp only [Shared.setBody, erase, hq, Family.map_set_self (f := Prod.fst) (b := (t, b')) ht rfl]
  have hpend := Family.total_set (fun p : τ × Body => (pend E p : Multiset Nat)) ht (t, b')
  have hp : ∀ b, pend E (t, b) = if b = .execute then [x] else [] := fun b => by simp [pend, hx]
  rw [hp, hp] at hpend
  simp only [Shared.setBody, hq, hops] at herase ⊢
  refine ⟨herase ▸ hQ.run, hQ.added, hset hQ.adding fun y hy => hQ.adding _ hmem y hy, hset hQ.running fun y hy =>
    ⟨(hQ.running _ hmem y hy).1, hb'⟩, hset hQ.idle fun hn => ?_, ?_⟩
  · exact absurd (hx.symm.trans hn) (by simp)
  · refine add_right_cancel (b := ((if b = .execute then [x] else [] : List Nat) : Multiset Nat)) ?_
    have h := hQ.executed
    simp only [pending] at h ⊢
    rw [h, add_assoc (s'.executed : Multiset Nat), hpend, add_left_comm, he]
    abel

theorem comes_running (ops : List (Option (Nat × Nat))) (hx : E.running t = some x) (b₀ : Body) :
    comes E ops a b₀ (t, b) = if b = b₀ then (indices ops a [x]).length else 0 := by
  simp [comes, hx]

/-- The step of an operation shows in what it has come to. -/
theorem view_setBody (a : Nat) (b' : Body) (ht : s.queue.threads[i]? = some (t, b)) (hx : E.running t = some x) :
    ∃ consuming completing, view E (s.setBody i t b') a =
        { view E s a with consuming := consuming, completing := completing } ∧
      consuming + (if b = .consume then (indices s.ops a [x]).length else 0) =
        (view E s a).consuming + (if b' = .consume then (indices s.ops a [x]).length else 0) ∧
      completing + (if b = .complete then (indices s.ops a [x]).length else 0) =
        (view E s a).completing + (if b' = .complete then (indices s.ops a [x]).length else 0) := by
  have hcomes : ∀ b₀, Family.total (comes E s.ops a b₀) (s.queue.threads.set i (t, b')) +
      (if b = b₀ then (indices s.ops a [x]).length else 0) = Family.total (comes E s.ops a b₀) s.queue.threads +
        (if b' = b₀ then (indices s.ops a [x]).length else 0) := fun b₀ => by
    have := Family.total_set (comes E s.ops a b₀) ht (t, b')
    rwa [comes_running s.ops hx, comes_running s.ops hx] at this
  have hadds := Family.total_set (fun p : τ × Body => (indices s.ops a (E.adding p.1).toList : Multiset Nat)) ht (t, b')
  refine ⟨_, _, ?_, hcomes .consume, hcomes .complete⟩
  simp only [view, Shared.setBody, add_right_cancel hadds]
  rfl

theorem get_setBody (ht : s.queue.threads[i]? = some (t, b)) {n : Nat} {p : τ × Body}
    (hp : s.queue.threads[n]? = some p) (b' : Body) : ∃ p', (s.setBody i t b').queue.threads[n]? = some p' ∧ p'.1 = p.1 := by
  by_cases hn : n = i
  · subst hn
    cases hp.symm.trans ht
    exact ⟨(t, b'), List.getElem?_set_self (List.getElem?_eq_some_iff.mp ht).1, rfl⟩
  · exact ⟨p, (List.getElem?_set_ne (Ne.symm hn)).trans hp, rfl⟩

theorem Thread.Fits.setBody {u : Thread} (hf : u.Fits E s) (ht : s.queue.threads[i]? = some (t, b)) (hq : s'.queue = s.queue)
    (hops : s'.ops = s.ops) (hadded : (view E (s'.setBody i t b') u.id).added = (view E s u.id).added)
    (hadds : (view E (s'.setBody i t b') u.id).adds = (view E s u.id).adds)
    (hexec : (view E s u.id).executed.length ≤ (view E (s'.setBody i t b') u.id).executed.length)
    (hres : (view E (s'.setBody i t b') u.id).resources ≤ (view E s u.id).resources)
    (hconsumed : E.wait = none → (view E (s'.setBody i t b') u.id).resources +
      (view E (s'.setBody i t b') u.id).executed.length = u.times + (view E (s'.setBody i t b') u.id).consuming)
    (hcompleted : (view E (s'.setBody i t b') u.id).completed = true ∨ 0 < (view E (s'.setBody i t b') u.id).completing →
      (view E (s'.setBody i t b') u.id).resources = 0) : u.Fits E (s'.setBody i t b') := by
  rw [← hq] at ht
  refine ⟨hf.posted.keep hadded hadds fun n k h => ?_, hf.waited.mono hexec hres fun n _ h => Or.inl ?_, hconsumed,
    hcompleted⟩
  · obtain ⟨p, x, hp, hx, hk⟩ := h
    obtain ⟨p', hp', he⟩ := get_setBody ht (hq ▸ hp) b'
    exact ⟨p', x, hp', he ▸ hx, by simpa [Shared.setBody, hops] using hk⟩
  · obtain ⟨p, hp, hw⟩ := h
    obtain ⟨p', hp', he⟩ := get_setBody ht (hq ▸ hp) b'
    exact ⟨p', hp', he ▸ hw⟩

theorem Thread.Fits.executed_le {u : Thread} (hE : E.Lawful) (hQ : QueueInv E s) (hf : u.Fits E s) :
    (view E s u.id).executed.length ≤ u.times := by
  have hle := Multiset.card_le_card (hQ.executed_le hE u.id)
  simp only [Multiset.coe_card] at hle
  have hp := hf.posted
  cases hph : u.phase with
  | loop j =>
    rw [hph] at hp
    rw [hp.2.1, List.length_range] at hle
    exact hle.trans hp.1
  | async j n =>
    rw [hph] at hp
    rcases hp.2 with ⟨h, -⟩ | ⟨h, -⟩ <;> rw [h, List.length_range] at hle <;> have := hp.1 <;> omega
  | check | barrier | waitAll | returned =>
    rw [hph] at hp
    rw [hp.1, List.length_range] at hle
    exact hle

theorem indices_single (ops : List (Option (Nat × Nat))) (a x : Nat) :
    (indices ops a [x]).length = if (indexOf ops a x).isSome then 1 else 0 := by
  cases h : indexOf ops a x <;> simp [indices, h]

theorem execute_fits {u : Thread} (hf : u.Fits E s) (ht : s.queue.threads[i]? = some (t, .execute))
    (hx : E.running t = some x) : u.Fits E ({ s with executed := s.executed ++ [x] }.setBody i t
      (if (s.apply x).isSome && E.wait.isNone then .consume else .return)) := by
  set s' : Shared σ τ := { s with executed := s.executed ++ [x] } with hs'
  set b' : Body := if (s.apply x).isSome && E.wait.isNone then .consume else .return with hb'
  obtain ⟨cons, compl, hv, hcons, hcompl⟩ := view_setBody (s := s') u.id b' ht hx
  have hexec : (view E s' u.id).executed.length =
      (view E s u.id).executed.length + (indices s.ops u.id [x]).length := by
    simp [view, hs', indices]
  have hnc : b' ≠ .complete := by
    rw [hb']
    split <;> simp
  simp only [reduceCtorEq, ite_false, add_zero, if_neg hnc] at hcons hcompl
  have hcompl : compl = (view E s u.id).completing := hcompl
  have hcons : cons = (view E s u.id).consuming + if b' = .consume then (indices s.ops u.id [x]).length else 0 := hcons
  refine hf.setBody ht rfl rfl (by rw [hv]; rfl) (by rw [hv]; rfl) (by rw [hv, hexec]; omega) (by rw [hv]; rfl)
    (fun hn => ?_) ?_
  · rw [hv]
    change (view E s u.id).resources + (view E s' u.id).executed.length = u.times + cons
    have hc := hf.consumed hn
    -- without a consumable the operation is none of the call's
    have hz : b' ≠ .consume → (indices s.ops u.id [x]).length = 0 := by
      intro hne
      rw [indices_single, indexOf_apply]
      cases ha : s.apply x with
      | none => rfl
      | some p => simp [hb', ha, hn] at hne
    rw [hexec, hcons]
    split
    · omega
    next hne =>
      have := hz hne
      omega
  · rw [hv]
    change (view E s u.id).completed = true ∨ 0 < compl → (view E s u.id).resources = 0
    rw [hcompl]
    exact hf.completed

theorem resources_modify (s : Shared σ τ) (a a' : Nat) (f : Consumable → Consumable) :
    ({ s with consumables := s.consumables.modify a' f } : Shared σ τ).resources a =
      if a' = a then (s.consumables[a]?.map fun k => (f k).resources).getD 0 else s.resources a := by
  simp only [Shared.resources, List.getElem?_modify]
  split <;> cases s.consumables[a]? <;> rfl

theorem completed_modify (s : Shared σ τ) (a a' : Nat) (f : Consumable → Consumable) :
    ({ s with consumables := s.consumables.modify a' f } : Shared σ τ).completed a =
      if a' = a then (s.consumables[a]?.map fun k => (f k).completed).getD false else s.completed a := by
  simp only [Shared.completed, List.getElem?_modify]
  split <;> cases s.consumables[a]? <;> rfl

theorem consume_fits {u : Thread} (hE : E.Lawful) (hQ : QueueInv E s) (hf : u.Fits E s)
    (ht : s.queue.threads[i]? = some (t, .consume)) (hx : E.running t = some x) {p : Nat × Nat} (hp : s.apply x = some p) :
    u.Fits E ({ s with consumables := s.consumables.modify p.1 fun k => { k with resources := k.resources - 1 } }.setBody i t
      (if s.resources p.1 = 1 then .complete else .return)) := by
  set s' : Shared σ τ :=
    { s with consumables := s.consumables.modify p.1 fun k => { k with resources := k.resources - 1 } } with hs'
  set b' : Body := if s.resources p.1 = 1 then .complete else .return with hb'
  obtain ⟨cons, compl, hv, hcons, hcompl⟩ := view_setBody (s := s') u.id b' ht hx
  have hmine : (indices s.ops u.id [x]).length = if p.1 = u.id then 1 else 0 := by
    rw [indices_single, indexOf_apply, hp]
    by_cases h : p.1 = u.id <;> simp [h]
  have hres : (view E s' u.id).resources = (view E s u.id).resources - if p.1 = u.id then 1 else 0 := by
    change s'.resources u.id = s.resources u.id - _
    rw [hs', resources_modify]
    split
    next h =>
      rw [Shared.resources]
      cases s.consumables[u.id]? <;> rfl
    · rfl
  have hcom : (view E s' u.id).completed = (view E s u.id).completed := by
    change s'.completed u.id = s.completed u.id
    rw [hs', completed_modify]
    split
    · rw [Shared.completed]
    · rfl
  have hnc : b' ≠ .consume := by
    rw [hb']
    split <;> simp
  simp only [reduceCtorEq, ite_true, ite_false, add_zero, if_neg hnc] at hcons hcompl
  have hcons : cons + (if p.1 = u.id then 1 else 0) = (view E s u.id).consuming := hmine ▸ hcons
  have hcompl : compl = (view E s u.id).completing + if b' = .complete then (if p.1 = u.id then 1 else 0) else 0 :=
    hmine ▸ hcompl
  have hle := hf.executed_le hE hQ
  refine hf.setBody ht rfl rfl (by rw [hv]; rfl) (by rw [hv]; rfl) (by rw [hv]; rfl) (by rw [hv, hres]; omega)
    (fun hn => ?_) ?_
  · rw [hv]
    change (view E s' u.id).resources + (view E s u.id).executed.length = u.times + cons
    have hc := hf.consumed hn
    rw [hres]
    by_cases hid : p.1 = u.id
    · rw [if_pos hid] at hcons ⊢
      omega
    · rw [if_neg hid] at hcons ⊢
      omega
  · rw [hv]
    change (view E s' u.id).completed = true ∨ 0 < compl → (view E s' u.id).resources = 0
    rw [hres, hcom, hcompl]
    rintro (h | h)
    · rw [hf.completed (Or.inl h), Nat.zero_sub]
    · by_cases h0 : 0 < (view E s u.id).completing
      · rw [hf.completed (Or.inr h0), Nat.zero_sub]
      · -- this is the operation that takes the last resource
        split at h
        next hb =>
          split at h
          next hid =>
            have h1 : s.resources p.1 = 1 := by
              by_contra hne
              rw [hb', if_neg hne] at hb
              cases hb
            rw [if_pos hid]
            change s.resources u.id - 1 = 0
            rw [← hid, h1]
          · omega
        · omega

theorem complete_fits {u : Thread} (hf : u.Fits E s)
    (ht : s.queue.threads[i]? = some (t, .complete)) (hx : E.running t = some x) {p : Nat × Nat} (hp : s.apply x = some p) :
    u.Fits E ({ s with consumables := s.consumables.modify p.1 fun k => { k with completed := true } }.setBody i t
      .return) := by
  set s' : Shared σ τ :=
    { s with consumables := s.consumables.modify p.1 fun k => { k with completed := true } } with hs'
  obtain ⟨cons, compl, hv, hcons, hcompl⟩ := view_setBody (s := s') u.id .return ht hx
  have hmine : (indices s.ops u.id [x]).length = if p.1 = u.id then 1 else 0 := by
    rw [indices_single, indexOf_apply, hp]
    by_cases h : p.1 = u.id <;> simp [h]
  have hres : (view E s' u.id).resources = (view E s u.id).resources := by
    change s'.resources u.id = s.resources u.id
    rw [hs', resources_modify]
    split
    · rw [Shared.resources]
    · rfl
  simp only [reduceCtorEq, ite_true, ite_false, add_zero] at hcons hcompl
  have hcons : cons = (view E s u.id).consuming := hcons
  have hcompl : compl + (if p.1 = u.id then 1 else 0) = (view E s u.id).completing := hmine ▸ hcompl
  refine hf.setBody ht rfl rfl (by rw [hv]; rfl) (by rw [hv]; rfl) (by rw [hv]; rfl) (by rw [hv, hres])
    (fun hn => ?_) ?_
  · rw [hv, hcons, hres]
    exact hf.consumed hn
  · rw [hv, hres]
    change s'.completed u.id = true ∨ 0 < compl → _
    rw [hs', completed_modify]
    by_cases hid : p.1 = u.id
    · rw [if_pos hid] at hcompl
      exact fun _ => hf.completed (Or.inr (by omega))
    · rw [if_neg hid, add_zero] at hcompl
      rw [if_neg hid, hcompl]
      exact hf.completed

end

end Xdispatch.Apply
