import Xdispatch.Dispatch.Steps

/-!
# Who owns the owner

Timers and notifiers are held by `shared_ptr`, and the operation of a worker holds
one of these as its `this_ptr`, from the `resume` that made it until the worker has
returned. The destructor runs when the last reference is gone, which is no matter of
the users alone.
-/

namespace Xdispatch.Dispatch

/-- `destroy` is the destructor of the class; the operation of a worker that has `ended` is gone. -/
structure Impl (σ ω μ κ : Type) extends Owner σ ω μ κ where
  destroy : σ → σ
  ended : ω → Bool

/-- `users` are the references that are held outside of the operations of the workers. -/
structure Counted (σ : Type) where
  shared : Shared σ
  users : Nat
  references : Nat
  deriving DecidableEq

/-- A step of before, or a user that copies or drops a reference. -/
inductive Use (μ κ : Type) where
  | of (e : Choice μ κ)
  | copy
  | drop
  deriving DecidableEq

/-- The caller needs a reference of its own. -/
def Choice.borrows {μ κ : Type} : Choice μ κ → Bool
  | .method _ | .cancel => true
  | .worker _ | .step => false

section
variable {σ ω μ κ : Type} (I : Impl σ ω μ κ)

def Impl.owns (w : ω) : Nat := if I.ended w then 0 else 1

/-- The references become `n`; the destructor runs with the last of them. -/
def Impl.count (s : Counted σ) (n : Nat) : Counted σ :=
  { s with
    references := n
    shared := if n = 0 ∧ s.references ≠ 0 then { s.shared with members := I.destroy s.shared.members } else s.shared }

def Impl.act (s : Counted σ) (t : Thread ω) : Use μ κ → Option (Counted σ × Thread ω × List (Thread ω))
  | .of e =>
    if e.borrows ∧ s.users = 0 then none
    else (I.toOwner.act s.shared t e).map fun r =>
      (I.count { s with shared := r.1 }
        (s.references + Family.total (Thread.weigh I.owns) (r.2.1 :: r.2.2) - t.weigh I.owns), r.2)
  | .copy | .drop => none

def Impl.call (s : Counted σ) (u : Use μ κ) : Option (Counted σ × List (Thread ω)) :=
  if s.users = 0 then none
  else match u with
    | .of e => (I.toOwner.call s.shared e).map fun r =>
        (I.count { s with shared := r.1 } (s.references + Family.total (Thread.weigh I.owns) r.2), r.2)
    | .copy => some (I.count { s with users := s.users + 1 } (s.references + 1), [])
    | .drop => some (I.count { s with users := s.users - 1 } (s.references - 1), [])

def Impl.counted : Program (Counted σ) (Thread ω) (Use μ κ) := ⟨I.call, I.act⟩

end

/-- Without the references. -/
def base {σ ω : Type} (c : Config (Counted σ) (Thread ω)) : Config (Shared σ) (Thread ω) := ⟨c.shared.shared, c.threads⟩

/-- A new object has the reference of its creator. -/
def held {σ ω : Type} (c : Config (Shared σ) (Thread ω)) : Config (Counted σ) (Thread ω) := ⟨⟨c.shared, 1, 1⟩, c.threads⟩

section
variable {σ ω μ κ : Type} {I : Impl σ ω μ κ} {c c' : Config (Counted σ) (Thread ω)} {l : Label (Use μ κ)}

@[simp] theorem count_users (s : Counted σ) (n : Nat) : (I.count s n).users = s.users := rfl

@[simp] theorem count_references (s : Counted σ) (n : Nat) : (I.count s n).references = n := rfl

@[simp] theorem count_dispatch (s : Counted σ) (n : Nat) : (I.count s n).shared.dispatch = s.shared.dispatch := by
  unfold Impl.count
  split <;> rfl

theorem count_members (s : Counted σ) (n : Nat) :
    (I.count s n).shared.members = s.shared.members ∨
      n = 0 ∧ (I.count s n).shared.members = I.destroy s.shared.members := by
  unfold Impl.count
  split
  next h => exact Or.inr ⟨h.1, rfl⟩
  · exact Or.inl rfl

theorem count_self {s : Counted σ} {n : Nat} (h : n = s.references) : I.count s n = s := by
  subst h
  simp [Impl.count]

/-- Each reference is one of a user or of a worker in progress. -/
def Accounted (I : Impl σ ω μ κ) (c : Config (Counted σ) (Thread ω)) : Prop :=
  c.shared.references = c.shared.users + weigh I.owns (base c)

/-- A step is one of the owner, after which the workers have their references, or a user's. -/
inductive Counts (I : Impl σ ω μ κ) (c : Config (Counted σ) (Thread ω)) (u : Use μ κ)
    (c' : Config (Counted σ) (Thread ω)) : Prop
  | of (l : Label (Choice μ κ)) (d : Config (Shared σ) (Thread ω)) (n : Nat) : u = .of l.choice →
      (l.choice.borrows = true → c.shared.users ≠ 0) → I.toOwner.program.next (base c) l = some d →
      c' = ⟨I.count { c.shared with shared := d.shared } n, d.threads⟩ →
      n + weigh I.owns (base c) = c.shared.references + weigh I.owns d → Counts I c u c'
  | copy : u = .copy → c.shared.users ≠ 0 →
      c' = ⟨I.count { c.shared with users := c.shared.users + 1 } (c.shared.references + 1), c.threads⟩ → Counts I c u c'
  | drop : u = .drop → c.shared.users ≠ 0 →
      c' = ⟨I.count { c.shared with users := c.shared.users - 1 } (c.shared.references - 1), c.threads⟩ → Counts I c u c'

theorem call_counts {u : Use μ κ} (h : I.counted.next c (.call u) = some c') : Counts I c u c' := by
  obtain ⟨s, new, hc, rfl⟩ := Program.next_call h
  change I.call c.shared u = _ at hc
  unfold Impl.call at hc
  split at hc
  · cases hc
  next hu =>
    split at hc
    next e =>
      simp only [Option.map_eq_some_iff, Prod.mk.injEq] at hc
      obtain ⟨⟨s, new⟩, hc, rfl, rfl⟩ := hc
      have hn : I.toOwner.program.next (base c) (.call e) = some ⟨s, c.threads ++ new⟩ := by
        simp [Program.next, Owner.program, base, hc]
      refine .of (.call e) _ _ rfl (fun _ => hu) hn rfl ?_
      rw [weigh, weigh, Family.total_append]
      simp only [base]
      omega
    · cases hc
      exact .copy rfl hu (by rw [List.append_nil])
    · cases hc
      exact .drop rfl hu (by rw [List.append_nil])

theorem act_counts {i : Nat} {u : Use μ κ} (hA : Accounted I c) (h : I.counted.next c (.act i u) = some c') :
    Counts I c u c' := by
  obtain ⟨t, s, t', new, ht, ha, rfl⟩ := Program.next_act h
  change I.act c.shared t u = _ at ha
  unfold Impl.act at ha
  split at ha
  next e =>
    split at ha
    · cases ha
    next hu =>
      simp only [Option.map_eq_some_iff, Prod.mk.injEq] at ha
      obtain ⟨⟨s, t', new⟩, ha, rfl, rfl, rfl⟩ := ha
      refine .of (.act i e) _ _ rfl (fun hb h0 => hu ⟨hb, h0⟩) (Program.act_next ht ha) rfl ?_
      have hstep := weigh_step (c := base c) I.owns ht s t' new
      have hle : t.weigh I.owns ≤ weigh I.owns (base c) := Family.le_total _ (Family.mem_of_get ht)
      rw [Accounted] at hA
      change _ + _ = _ + weigh I.owns ⟨s, (base c).threads.set i t' ++ new⟩
      simp only [Family.total_cons]
      omega
  · cases ha
  · cases ha

theorem next_counts (hA : Accounted I c) (h : I.counted.next c l = some c') : Counts I c l.choice c' := by
  cases l with
  | call u => exact call_counts h
  | act i u => exact act_counts hA h

theorem next_accounted (hA : Accounted I c) (h : I.counted.next c l = some c') : Accounted I c' := by
  have hA' := hA
  unfold Accounted at hA' ⊢
  cases next_counts hA h with
  | of l d n _ _ _ hc hn =>
    subst hc
    change n = c.shared.users + weigh I.owns d
    omega
  | copy _ _ hc =>
    subst hc
    change c.shared.references + 1 = c.shared.users + 1 + weigh I.owns (base c)
    omega
  | drop _ _ hc =>
    subst hc
    change c.shared.references - 1 = c.shared.users - 1 + weigh I.owns (base c)
    omega

end

end Xdispatch.Dispatch
