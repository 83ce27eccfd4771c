import Xdispatch.NestedApply.Model

/-!
# What a consumable counts

The resources of a consumable are the operations posted for it that have not been
consumed yet and those that its `apply` has still to post. An operation waits for
operations that are younger than itself, and while it does there is one left, or
one that is about to complete the barrier, or the barrier is completed.
-/

namespace Xdispatch.NestedApply

open Apply (Consumable)

/-! ## Phases -/

/-- The consumable of the `apply` that the operation is in. -/
def Phase.own : Phase → Option Nat
  | .loop k .. | .async k .. | .check k | .block k _ | .barrier k => some k
  | _ => none

/-- The consumable whose barrier it waits for, or is about to. -/
def Phase.awaits : Phase → Option Nat
  | .block k _ | .barrier k => some k
  | _ => none

/-- The operations that it has still to post for the consumable `k`. -/
def Phase.left (k : Nat) : Phase → Nat
  | .loop k' i times => if k' = k then times - i else 0
  | .async k' i times _ => if k' = k then times - (i + 1) else 0
  | _ => 0

/-- Has not been consumed. -/
def Phase.pending : Phase → Bool
  | .complete | .finished => false
  | _ => true

def Op.owes (k : Nat) (op : Op) : Nat := (if op.parent = some k ∧ op.phase.pending = true then 1 else 0) + op.phase.left k

theorem left_of_own {p : Phase} {k : Nat} (h : p.own ≠ some k) : p.left k = 0 := by
  cases p with
  | loop k' | async k' =>
    refine if_neg fun hk => h ?_
    rw [← hk]
    rfl
  | _ => rfl

theorem own_of_awaits {p : Phase} {k : Nat} (h : p.awaits = some k) : p.own = some k := by
  cases p with
  | block | barrier => exact h
  | _ => cases h

structure Counts (s : System) : Prop where
  resources : ∀ k, k < s.consumables.length → s.resources k = Family.total (Op.owes k) s.ops
  awaited : ∀ op ∈ s.ops, ∀ k, op.phase.awaits = some k → s.completed k = true ∨ 0 < s.resources k ∨
    ∃ x ∈ s.ops, x.parent = some k ∧ x.phase = .complete
  older : ∀ (n : Nat) op k, s.ops[n]? = some op → op.phase.own = some k → k < s.consumables.length ∧
    ∀ (m : Nat) x, s.ops[m]? = some x → x.parent = some k → n < m
  parents : ∀ op ∈ s.ops, ∀ k, op.parent = some k → k < s.consumables.length
  consumers : ∀ op ∈ s.ops, op.phase = .consume ∨ op.phase = .complete → op.parent.isSome = true
  zero : ∀ k, (s.completed k = true ∨ ∃ x ∈ s.ops, x.parent = some k ∧ x.phase = .complete) → s.resources k = 0

theorem initial_counts {maxThreads : Int} : Counts (initial maxThreads).shared := by
  constructor <;> simp [initial, System.completed]

section
variable {s : System} {n k : Nat} {op : Op} {p : Phase}

/-- Nobody has to do with a consumable that is not there. -/
theorem Counts.fresh (hC : Counts s) : Family.total (Op.owes s.consumables.length) s.ops = 0 := by
  refine Family.total_eq_zero.mpr fun op hm => ?_
  obtain ⟨n, hn⟩ := List.mem_iff_getElem?.mp hm
  have hp : op.parent ≠ some s.consumables.length := fun h => Nat.lt_irrefl _ (hC.parents op hm _ h)
  have ho : op.phase.own ≠ some s.consumables.length := fun h => Nat.lt_irrefl _ (hC.older n op _ hn h).1
  unfold Op.owes
  rw [left_of_own ho, if_neg fun h => hp h.1]

theorem Counts.own_lt (hC : Counts s) {x : Op} (hx : x ∈ s.ops) (hk : x.phase.own = some k) :
    k < s.consumables.length := by
  obtain ⟨n, hn⟩ := List.mem_iff_getElem?.mp hx
  exact (hC.older n x k hn hk).1

theorem mem_setPhase {x : Op} (hx : x ∈ (s.setPhase n op p).ops) :
    x = { op with phase := p } ∨ x ∈ s.ops :=
  (List.mem_or_eq_of_mem_set hx).symm

theorem get_setPhase {m : Nat} {x : Op} (hx : (s.setPhase n op p).ops[m]? = some x) :
    m = n ∧ x = { op with phase := p } ∨ m ≠ n ∧ s.ops[m]? = some x := by
  have hx' : (s.ops.set n { op with phase := p } ++ [])[m]? = some x := by rwa [List.append_nil]
  rcases Family.get_cases hx' with h | h | ⟨_, _, h⟩
  · exact Or.inl h
  · exact Or.inr h
  · simp at h

/-- Where operation `n` goes does not matter to `older`, if it comes to no other consumable. -/
theorem Counts.older_setPhase (hC : Counts s) (hn : s.ops[n]? = some op)
    (hown : ∀ k, p.own = some k → op.phase.own = some k) (m : Nat) (x : Op) (k : Nat)
    (hm : (s.setPhase n op p).ops[m]? = some x) (hk : x.phase.own = some k) : k < s.consumables.length ∧
      ∀ (j : Nat) y, (s.setPhase n op p).ops[j]? = some y → y.parent = some k → m < j := by
  have key : ∀ (x : Op), s.ops[m]? = some x → x.phase.own = some k → k < s.consumables.length ∧
      ∀ (j : Nat) y, (s.setPhase n op p).ops[j]? = some y → y.parent = some k → m < j := by
    intro x hm hk
    obtain ⟨hlt, hold⟩ := hC.older m x k hm hk
    refine ⟨hlt, fun j y hj hy => ?_⟩
    rcases get_setPhase hj with ⟨rfl, rfl⟩ | ⟨-, hj⟩
    · exact hold j op hn hy
    · exact hold j y hj hy
  rcases get_setPhase hm with ⟨rfl, rfl⟩ | ⟨-, hm⟩
  · exact key op hn (hown k hk)
  · exact key x hm hk

theorem total_setPhase (hn : s.ops[n]? = some op) (k : Nat) :
    Family.total (Op.owes k) (s.setPhase n op p).ops + op.owes k =
      Family.total (Op.owes k) s.ops + ({ op with phase := p } : Op).owes k :=
  Family.total_set (Op.owes k) hn _

/-- A statement that has nothing to do with what a consumable counts. -/
theorem Counts.neutral (hC : Counts s) (hn : s.ops[n]? = some op)
    (howes : ∀ k, ({ op with phase := p } : Op).owes k = op.owes k) (hown : ∀ k, p.own = some k → op.phase.own = some k)
    (hawaits : ∀ k, p.awaits = some k → op.phase.awaits = some k ∨ 0 < s.resources k) (hne : op.phase ≠ .complete)
    (hp : p ≠ .complete) (hconsume : p = .consume → op.parent.isSome = true) : Counts (s.setPhase n op p) := by
  have hlt := (List.getElem?_eq_some_iff.mp hn).1
  have hkeep : ∀ k, (s.completed k = true ∨ 0 < s.resources k ∨ ∃ x ∈ s.ops, x.parent = some k ∧ x.phase = .complete) →
      s.completed k = true ∨ 0 < s.resources k ∨ ∃ x ∈ (s.setPhase n op p).ops, x.parent = some k ∧ x.phase = .complete := by
    intro k h
    refine h.imp_right (Or.imp_right fun hx => ?_)
    obtain ⟨x, hm, hpar, hphase⟩ := hx
    refine ⟨x, ?_, hpar, hphase⟩
    have := Family.mem_step_of_ne hn hm (fun he => hne (he ▸ hphase)) { op with phase := p } []
    rwa [List.append_nil] at this
  refine ⟨fun k hk => ?_, fun x hx k hk => ?_, hC.older_setPhase hn hown, fun x hx k hk => ?_, fun x hx h => ?_,
    fun k h => hC.zero k (h.imp_right fun h => ?_)⟩
  · have := total_setPhase (p := p) hn k
    rw [howes] at this
    exact (hC.resources k hk).trans (add_right_cancel this).symm
  · rcases mem_setPhase hx with rfl | hx
    · rcases hawaits k hk with h | h
      · exact hkeep k (hC.awaited op (Family.mem_of_get hn) k h)
      · exact Or.inr (Or.inl h)
    · exact hkeep k (hC.awaited x hx k hk)
  · rcases mem_setPhase hx with rfl | hx
    · exact hC.parents op (Family.mem_of_get hn) k hk
    · exact hC.parents x hx k hk
  · rcases mem_setPhase hx with rfl | hx
    · exact h.elim hconsume fun h => absurd h hp
    · exact hC.consumers x hx h
  · obtain ⟨x, hx, hpar, hphase⟩ := h
    rcases mem_setPhase hx with rfl | hx
    · exact absurd hphase hp
    · exact ⟨x, hx, hpar, hphase⟩

/-! ## New consumables and operations -/

theorem resources_append {ops : List Op} {c : Consumable} (hk : k < s.consumables.length) :
    ({ s with ops := ops, consumables := s.consumables ++ [c] } : System).resources k = s.resources k := by
  unfold System.resources
  simp only [List.getElem?_append_left hk]

theorem completed_append {ops : List Op} {c : Consumable} (hk : k < s.consumables.length) :
    ({ s with ops := ops, consumables := s.consumables ++ [c] } : System).completed k = s.completed k := by
  unfold System.completed
  simp only [List.getElem?_append_left hk]

/-- An `apply` begins, in an operation or in another thread. -/
theorem Counts.apply (hC : Counts s) (ops : List Op) {times : Nat}
    (hphase : ∀ (m : Nat) x, ops[m]? = some x → x.phase = .loop s.consumables.length 0 times ∨ s.ops[m]? = some x)
    (hparent : ∀ (m : Nat) x k, ops[m]? = some x → x.parent = some k → ∃ y, s.ops[m]? = some y ∧ y.parent = some k)
    (hcomplete : ∀ x ∈ s.ops, x.phase = .complete → x ∈ ops)
    (htotal : ∀ k, Family.total (Op.owes k) ops =
      Family.total (Op.owes k) s.ops + (Phase.loop s.consumables.length 0 times).left k) :
    Counts { s with ops := ops, consumables := s.consumables ++ [⟨times, false⟩] } := by
  have hmem : ∀ x ∈ ops, x.phase = .loop s.consumables.length 0 times ∨ x ∈ s.ops := by
    intro x hx
    obtain ⟨m, hm⟩ := List.mem_iff_getElem?.mp hx
    exact (hphase m x hm).imp_right List.mem_of_getElem?
  have hlen : (s.consumables ++ [(⟨times, false⟩ : Consumable)]).length = s.consumables.length + 1 := by simp
  refine ⟨fun k hk => ?_, fun x hx k hk => ?_, fun m x k hm hk => ?_, fun x hx k hk => ?_, fun x hx h => ?_,
    fun k h => ?_⟩
  · rw [htotal]
    by_cases hlt : k < s.consumables.length
    · rw [resources_append hlt, hC.resources k hlt, left_of_own, add_zero]
      intro h
      exact absurd (Option.some.inj h) (Nat.ne_of_gt hlt)
    · have : k = s.consumables.length := by
        simp only [hlen] at hk
        omega
      subst this
      rw [hC.fresh]
      simp [System.resources, Phase.left]
  · rcases hmem x hx with h | hx
    · rw [h] at hk
      cases hk
    · have hlt := hC.own_lt hx (own_of_awaits hk)
      rw [completed_append hlt, resources_append hlt]
      refine (hC.awaited x hx k hk).imp_right (Or.imp_right fun h => ?_)
      obtain ⟨y, hy, hpar, hy'⟩ := h
      exact ⟨y, hcomplete y hy hy', hpar, hy'⟩
  · simp only [hlen]
    rcases hphase m x hm with h | hm
    · rw [h] at hk
      cases hk
      refine ⟨Nat.lt_succ_self _, fun j y hj hy => ?_⟩
      obtain ⟨z, hz, hzp⟩ := hparent j y _ hj hy
      exact absurd (hC.parents z (Family.mem_of_get hz) _ hzp) (Nat.lt_irrefl _)
    · obtain ⟨hlt, hold⟩ := hC.older m x k hm hk
      refine ⟨Nat.lt_succ_of_lt hlt, fun j y hj hy => ?_⟩
      obtain ⟨z, hz, hzp⟩ := hparent j y _ hj hy
      exact hold j z hz hzp
  · obtain ⟨m, hm⟩ := List.mem_iff_getElem?.mp hx
    obtain ⟨y, hy, hyp⟩ := hparent m x k hm hk
    simp only [hlen]
    exact Nat.lt_succ_of_lt (hC.parents y (Family.mem_of_get hy) k hyp)
  · rcases hmem x hx with h' | hx
    · rw [h'] at h
      simp at h
    · exact hC.consumers x hx h
  · have hold : (∃ x ∈ ops, x.parent = some k ∧ x.phase = .complete) →
        ∃ x ∈ s.ops, x.parent = some k ∧ x.phase = .complete := by
      intro h
      obtain ⟨x, hx, hpar, hx'⟩ := h
      rcases hmem x hx with h' | hx
      · rw [h'] at hx'
        cases hx'
      · exact ⟨x, hx, hpar, hx'⟩
    by_cases hlt : k < s.consumables.length
    · rw [completed_append hlt] at h
      rw [resources_append hlt]
      exact hC.zero k (h.imp_right hold)
    · rcases h with h | h
      · rcases Nat.lt_or_eq_of_le (Nat.le_of_not_lt hlt) with hk | rfl
        · have hnone : (s.consumables ++ [(⟨times, false⟩ : Consumable)])[k]? = none :=
            List.getElem?_eq_none (by omega)
          simp [System.completed, hnone] at h
        · simp [System.completed] at h
      · obtain ⟨x, hx, hpar, -⟩ := hold h
        exact absurd (hC.parents x hx k hpar) hlt

/-- What posts an operation goes on from `x` to `y`. -/
structure Posts (x y : Op) : Prop where
  parent : y.parent = x.parent
  own : y.phase.own = x.phase.own
  quiet : x = y ∨ y.phase.awaits = none ∧ x.phase ≠ .complete ∧ y.phase ≠ .consume ∧ y.phase ≠ .complete

/-- An operation is posted: what it is counted as, it was counted as before with the one that posts it. -/
theorem Counts.post (hC : Counts s) (ops : List Op) (parent : Option Nat)
    (hlt : ∀ k, parent = some k → k < s.consumables.length)
    (hback : ∀ (m : Nat) y, ops[m]? = some y → ∃ x, s.ops[m]? = some x ∧ Posts x y)
    (hforth : ∀ (m : Nat) x, s.ops[m]? = some x → ∃ y, ops[m]? = some y ∧ Posts x y)
    (htotal : ∀ k, Family.total (Op.owes k) ops + (if parent = some k then 1 else 0) = Family.total (Op.owes k) s.ops) :
    Counts { s with ops := ops ++ [⟨true, parent, .body⟩] } := by
  have hcases : ∀ (m : Nat) y, (ops ++ [⟨true, parent, .body⟩])[m]? = some y →
      (∃ x, s.ops[m]? = some x ∧ Posts x y) ∨ ops.length ≤ m ∧ y = ⟨true, parent, .body⟩ := by
    intro m y hm
    rw [List.getElem?_append] at hm
    split at hm
    · exact Or.inl (hback m y hm)
    · rw [List.getElem?_singleton] at hm
      exact Or.inr ⟨by omega, (Option.some.inj (Option.ite_none_right_eq_some.mp hm).2).symm⟩
  refine ⟨fun k hk => ?_, fun y hy k hk => ?_, fun m y k hm hk => ?_, fun y hy k hk => ?_, fun y hy h => ?_,
    fun k h => hC.zero k (h.imp_right fun h => ?_)⟩
  · have hchild : (⟨true, parent, .body⟩ : Op).owes k = if parent = some k then 1 else 0 := by
      simp [Op.owes, Phase.pending, Phase.left]
    rw [Family.total_append, Family.total_cons, Family.total_nil, add_zero, hchild, htotal]
    exact hC.resources k hk
  · obtain ⟨m, hm⟩ := List.mem_iff_getElem?.mp hy
    rcases hcases m y hm with ⟨x, hx, hP⟩ | ⟨-, rfl⟩
    · rcases hP.quiet with rfl | ⟨hq, -⟩
      · refine (hC.awaited x (Family.mem_of_get hx) k hk).imp_right (Or.imp_right fun h => ?_)
        obtain ⟨z, hz, hpar, hphase⟩ := h
        obtain ⟨j, hj⟩ := List.mem_iff_getElem?.mp hz
        obtain ⟨w, hw, hPw⟩ := hforth j z hj
        rcases hPw.quiet with rfl | ⟨-, hne, -⟩
        · exact ⟨z, List.mem_append_left _ (Family.mem_of_get hw), hpar, hphase⟩
        · exact absurd hphase hne
      · rw [hq] at hk
        cases hk
    · cases hk
  · rcases hcases m y hm with ⟨x, hx, hP⟩ | ⟨-, rfl⟩
    · obtain ⟨hlt', hold⟩ := hC.older m x k hx (hP.own ▸ hk)
      refine ⟨hlt', fun j z hj hz => ?_⟩
      rcases hcases j z hj with ⟨w, hw, hPw⟩ | ⟨hge, -⟩
      · exact hold j w hw (hPw.parent ▸ hz)
      · obtain ⟨v, hv, -⟩ := hforth m x hx
        have := (List.getElem?_eq_some_iff.mp hv).1
        omega
    · cases hk
  · obtain ⟨m, hm⟩ := List.mem_iff_getElem?.mp hy
    rcases hcases m y hm with ⟨x, hx, hP⟩ | ⟨-, rfl⟩
    · exact hC.parents x (Family.mem_of_get hx) k (hP.parent ▸ hk)
    · exact hlt k hk
  · obtain ⟨m, hm⟩ := List.mem_iff_getElem?.mp hy
    rcases hcases m y hm with ⟨x, hx, hP⟩ | ⟨-, rfl⟩
    · rcases hP.quiet with rfl | ⟨-, -, h1, h2⟩
      · exact hC.consumers x (Family.mem_of_get hx) h
      · exact absurd h (by simp [h1, h2])
    · simp at h
  · obtain ⟨y, hy, hpar, hphase⟩ := h
    obtain ⟨m, hm⟩ := List.mem_iff_getElem?.mp hy
    rcases hcases m y hm with ⟨x, hx, hP⟩ | ⟨-, rfl⟩
    · rcases hP.quiet with rfl | ⟨-, -, -, hne⟩
      · exact ⟨x, Family.mem_of_get hx, hpar, hphase⟩
      · exact absurd hphase hne
    · cases hphase

/-! ## `consume_resource` -/

theorem get_modify (f : Consumable → Consumable) (j : Nat) :
    (s.modify k f).consumables[j]? = if j = k then s.consumables[k]?.map f else s.consumables[j]? := by
  simp only [System.modify, List.getElem?_modify]
  by_cases hj : j = k
  · subst hj
    simp
  · simp [hj, Ne.symm hj]

theorem consume_resources (j : Nat) : (s.modify k fun c => { c with resources := c.resources - 1 }).resources j =
    if j = k then s.resources k - 1 else s.resources j := by
  unfold System.resources
  rw [get_modify]
  split
  · cases s.consumables[k]? <;> rfl
  · rfl

theorem consume_completed (j : Nat) : (s.modify k fun c => { c with resources := c.resources - 1 }).completed j =
    s.completed j := by
  unfold System.completed
  rw [get_modify]
  split
  next hj =>
    subst hj
    cases s.consumables[j]? <;> rfl
  · rfl

theorem complete_resources (j : Nat) : (s.modify k fun c => { c with completed := true }).resources j = s.resources j := by
  unfold System.resources
  rw [get_modify]
  split
  next hj =>
    subst hj
    cases s.consumables[j]? <;> rfl
  · rfl

theorem complete_completed (hk : k < s.consumables.length) (j : Nat) :
    (s.modify k fun c => { c with completed := true }).completed j = (decide (j = k) || s.completed j) := by
  unfold System.completed
  rw [get_modify]
  by_cases hj : j = k
  · subst hj
    simp [List.getElem?_eq_getElem hk]
  · simp [hj]

theorem resources_pos (hC : Counts s) (hn : s.ops[n]? = some op) (hphase : op.phase = .consume) (hk : op.parent = some k) :
    0 < s.resources k := by
  rw [hC.resources k (hC.parents op (Family.mem_of_get hn) k hk)]
  refine Nat.lt_of_lt_of_le ?_ (Family.le_total (Op.owes k) (Family.mem_of_get hn))
  simp [Op.owes, hk, hphase, Phase.pending]

theorem modify_length (f : Consumable → Consumable) : (s.modify k f).consumables.length = s.consumables.length :=
  List.length_modify ..

/-- `consume_resource` up to the barrier. -/
theorem Counts.consume (hC : Counts s) (hn : s.ops[n]? = some op) (hphase : op.phase = .consume)
    (hk : op.parent = some k) :
    Counts ((s.setPhase n op (if s.resources k = 1 then .complete else .finished)).modify k
      fun c => { c with resources := c.resources - 1 }) := by
  have hm := Family.mem_of_get hn
  have hpos := resources_pos hC hn hphase hk
  generalize hp : (if s.resources k = 1 then Phase.complete else Phase.finished) = p
  have hp' : p = .complete ∨ p = .finished := by
    rw [← hp]
    split
    · exact Or.inl rfl
    · exact Or.inr rfl
  have howes : ∀ j, ({ op with phase := p } : Op).owes j = 0 ∧ op.owes j = if j = k then 1 else 0 := by
    intro j
    constructor
    · rcases hp' with rfl | rfl <;> simp [Op.owes, Phase.pending, Phase.left]
    · simp [Op.owes, hphase, hk, Phase.pending, Phase.left, eq_comm]
  refine ⟨fun j hj => ?_, fun x hx j hj => ?_, ?_, fun x hx j hj => ?_, fun x hx h => ?_, fun j h => ?_⟩
  · rw [modify_length] at hj
    have ht := total_setPhase (p := p) hn j
    have hr := hC.resources j hj
    obtain ⟨h0, h1⟩ := howes j
    rw [consume_resources]
    change (if j = k then s.resources k - 1 else s.resources j) = Family.total (Op.owes j) (s.setPhase n op p).ops
    split
    next hjk =>
      subst hjk
      rw [if_pos rfl] at h1
      omega
    next hjk =>
      rw [if_neg hjk] at h1
      omega
  · have hx' : x ∈ s.ops := by
      rcases mem_setPhase hx with rfl | hx
      · rcases hp' with rfl | rfl <;> cases hj
      · exact hx
    rw [consume_completed, consume_resources]
    change s.completed j = true ∨ 0 < (if j = k then s.resources k - 1 else s.resources j) ∨
      ∃ y ∈ (s.setPhase n op p).ops, y.parent = some j ∧ y.phase = .complete
    rcases hC.awaited x hx' j hj with h | h | ⟨y, hy, hpar, hyp⟩
    · exact Or.inl h
    · by_cases hjk : j = k
      · subst hjk
        by_cases h1 : s.resources j = 1
        · rw [if_pos h1] at hp
          exact Or.inr (Or.inr ⟨_, List.mem_set (List.getElem?_eq_some_iff.mp hn).1 _, hk, hp.symm⟩)
        · rw [if_pos rfl]
          exact Or.inr (Or.inl (by omega))
      · rw [if_neg hjk]
        exact Or.inr (Or.inl h)
    · refine Or.inr (Or.inr ⟨y, ?_, hpar, hyp⟩)
      have := Family.mem_step_of_ne hn hy (fun he => by rw [he, hphase] at hyp; cases hyp) { op with phase := p } []
      rwa [List.append_nil] at this
  · intro m x j hm' hj
    rw [modify_length]
    refine hC.older_setPhase hn (fun j hj => ?_) m x j hm' hj
    rcases hp' with rfl | rfl <;> cases hj
  · rw [modify_length]
    rcases mem_setPhase hx with rfl | hx
    · exact hC.parents op hm j hj
    · exact hC.parents x hx j hj
  · rcases mem_setPhase hx with rfl | hx
    · exact hk ▸ rfl
    · exact hC.consumers x hx h
  · rw [consume_completed] at h
    rw [consume_resources]
    change (if j = k then s.resources k - 1 else s.resources j) = 0
    rcases h with h | ⟨x, hx, hpar, hx'⟩
    · have h0 := hC.zero j (Or.inl h)
      split
      next hjk =>
        subst hjk
        omega
      · exact h0
    · rcases mem_setPhase hx with rfl | hx
      · cases hk.symm.trans hpar
        rw [if_pos rfl]
        change p = .complete at hx'
        rw [hx'] at hp
        split at hp
        next h1 => omega
        · cases hp
      · have h0 := hC.zero j (Or.inr ⟨x, hx, hpar, hx'⟩)
        split
        next hjk =>
          subst hjk
          omega
        · exact h0

theorem Counts.complete (hC : Counts s) (hn : s.ops[n]? = some op) (hphase : op.phase = .complete)
    (hk : op.parent = some k) :
    Counts ((s.setPhase n op .finished).modify k fun c => { c with completed := true }) := by
  have hm := Family.mem_of_get hn
  have hlt := hC.parents op hm k hk
  refine ⟨fun j hj => ?_, fun x hx j hj => ?_, ?_, fun x hx j hj => ?_, fun x hx h => ?_, fun j h => ?_⟩
  · rw [modify_length] at hj
    have ht := total_setPhase (p := .finished) hn j
    rw [complete_resources]
    change s.resources j = Family.total (Op.owes j) (s.setPhase n op .finished).ops
    rw [hC.resources j hj]
    have h0 : ({ op with phase := .finished } : Op).owes j = op.owes j := by simp [Op.owes, hphase, Phase.pending, Phase.left]
    omega
  · have hx' : x ∈ s.ops := by
      rcases mem_setPhase hx with rfl | hx
      · cases hj
      · exact hx
    rw [complete_completed (s := s.setPhase n op .finished) hlt, complete_resources]
    change (decide (j = k) || s.completed j) = true ∨ 0 < s.resources j ∨
      ∃ y ∈ (s.setPhase n op .finished).ops, y.parent = some j ∧ y.phase = .complete
    rcases hC.awaited x hx' j hj with h | h | ⟨y, hy, hpar, hyp⟩
    · exact Or.inl (by simp [h])
    · exact Or.inr (Or.inl h)
    · by_cases hjk : j = k
      · exact Or.inl (by simp [hjk])
      · refine Or.inr (Or.inr ⟨y, ?_, hpar, hyp⟩)
        have hne : y ≠ op := fun he => hjk (Option.some.inj ((he ▸ hpar).symm.trans hk))
        have := Family.mem_step_of_ne hn hy hne { op with phase := .finished } []
        rwa [List.append_nil] at this
  · intro m x j hm' hj
    rw [modify_length]
    exact hC.older_setPhase hn (fun j hj => by cases hj) m x j hm' hj
  · rw [modify_length]
    rcases mem_setPhase hx with rfl | hx
    · exact hC.parents op hm j hj
    · exact hC.parents x hx j hj
  · rcases mem_setPhase hx with rfl | hx
    · exact hk ▸ rfl
    · exact hC.consumers x hx h
  · rw [complete_completed (s := s.setPhase n op .finished) hlt] at h
    rw [complete_resources]
    by_cases hjk : j = k
    · exact hjk ▸ hC.zero k (Or.inr ⟨op, hm, hk, hphase⟩)
    · refine hC.zero j ?_
      rcases h with h | ⟨x, hx, hpar, hx'⟩
      · simp only [hjk, decide_false, Bool.false_or] at h
        exact Or.inl h
      · rcases mem_setPhase hx with rfl | hx
        · cases hx'
        · exact Or.inr ⟨x, hx, hpar, hx'⟩

end

end Xdispatch.NestedApply
