import Mathlib.Data.List.Nodup
import Mathlib.Logic.Function.Basic
import Xdispatch.ScopedConnection.Model

/-!
# Who owns a connection

What a `scoped_connection` is for: an object owns the connection that it was given,
until it is moved on, released, or ended with the object. The two fields of the
objects carry just this.
-/

namespace Xdispatch.ScopedConnection

variable {σ η ι : Type}

namespace Op

/-- The connection that is handed to an object. -/
def hands : Op σ η ι → Option η
  | .construct _ c | .assign _ c => c.id
  | _ => none

/-- The object that is destroyed or assigned over. -/
def loses : Op σ η ι → Option ι
  | .destroy x | .assign x _ | .moveAssign x _ => some x
  | _ => none

def releases : Op σ η ι → Option ι
  | .take x => some x
  | _ => none

end Op

variable [DecidableEq η] [DecidableEq ι]

/-- `managed` are the connections that were handed to an object and have not been released since, `ended` those that
were disconnected, and `released` what was released. -/
structure Owners (η ι : Type) where
  owns : ι → Option η
  managed : η → Bool
  ended : List η
  released : List (Option η)

namespace Owners

/-- What each object owns after an operation. -/
def after (o : Owners η ι) : Op σ η ι → ι → Option η
  | .construct x c | .assign x c => Function.update o.owns x c.id
  | .constructEmpty x | .take x | .destroy x => Function.update o.owns x none
  | .moveConstruct x other | .moveAssign x other => Function.update (Function.update o.owns x (o.owns other)) other none

/-- A connection ends when the object that owns it is destroyed or assigned over. -/
def apply (o : Owners η ι) (op : Op σ η ι) : Owners η ι where
  owns := o.after op
  managed h := op.hands = some h || o.managed h && op.releases.bind o.owns ≠ some h
  ended := o.ended ++ (op.loses.bind o.owns).toList
  released := o.released ++ (op.releases.map o.owns).toList

def initial : Owners η ι := ⟨fun _ => none, fun _ => false, [], []⟩

def run (o : Owners η ι) (ops : List (Op σ η ι)) : Owners η ι := ops.foldl apply o

/-- A connection is handed to an object when no object has been handed it since it was last released. -/
def HandedOnce (o : Owners η ι) : List (Op σ η ι) → Prop
  | [] => True
  | op :: ops => (∀ h, op.hands = some h → o.managed h = false) ∧ (o.apply op).HandedOnce ops

end Owners

/-- The ids that `signal_p::disconnect` was called for. -/
def disconnected (w : Signals σ η) : List η := w.calls.filterMap (·.2)

/-- Nobody else owns what an object owns, nor has it ended, and what has ended has not been released. -/
structure Sole (o : Owners η ι) : Prop where
  once : o.ended.Nodup
  unowned : ∀ h ∈ o.ended, ∀ x, o.owns x ≠ some h
  unique : ∀ x y h, o.owns x = some h → o.owns y = some h → x = y
  managed : ∀ x h, o.owns x = some h → o.managed h = true
  ended : ∀ h ∈ o.ended, o.managed h = true

omit [DecidableEq η] [DecidableEq ι] in
theorem initial_sole : Sole (Owners.initial : Owners η ι) :=
  ⟨List.nodup_nil, nofun, nofun, nofun, nofun⟩

section
variable {o : Owners η ι} {op : Op σ η ι} {x y : ι} {h : η}

omit [DecidableEq η] in
/-- What an object owns was handed to it, or owned before by one that neither loses nor releases it. -/
theorem after_cases (ha : o.after op x = some h) :
    op.hands = some h ∨ ∃ y, o.owns y = some h ∧ op.loses ≠ some y ∧ op.releases ≠ some y := by
  cases op <;> simp only [Owners.after, Function.update_apply, Op.hands, Op.releases, Op.loses] at * <;> grind

omit [DecidableEq η] in
theorem after_unique (hS : Sole o) (hh : ∀ h, op.hands = some h → o.managed h = false) (hx : o.after op x = some h)
    (hy : o.after op y = some h) : x = y := by
  have hu := hS.unique
  have hm := hS.managed
  cases op <;> simp only [Owners.after, Function.update_apply, Op.hands] at * <;> grind

omit [DecidableEq η] [DecidableEq ι] in
theorem bind_owns {z : Option ι} (hz : z.bind o.owns = some h) : ∃ y, z = some y ∧ o.owns y = some h :=
  Option.bind_eq_some_iff.mp hz

theorem apply_sole (hS : Sole o) (hh : ∀ h, op.hands = some h → o.managed h = false) : Sole (o.apply op) := by
  have hlost : ∀ h, op.loses.bind o.owns = some h → o.managed h = true := by
    intro h hl
    obtain ⟨y, -, hy⟩ := bind_owns hl
    exact hS.managed y h hy
  constructor
  · refine List.Nodup.append hS.once ?_ ?_
    · cases op.loses.bind o.owns <;> simp
    · intro h hin hl
      obtain ⟨y, -, hy⟩ := bind_owns (Option.mem_toList.mp hl)
      exact hS.unowned h hin y hy
  · intro h hin x hx
    rcases List.mem_append.mp hin with hin | hl
    · rcases after_cases hx with hhand | ⟨y, hy, -⟩
      · exact absurd (hS.ended h hin) (by simp [hh h hhand])
      · exact hS.unowned h hin y hy
    · obtain ⟨z, hz, hoz⟩ := bind_owns (Option.mem_toList.mp hl)
      rcases after_cases hx with hhand | ⟨y, hy, hne, -⟩
      · exact absurd (hS.managed z h hoz) (by simp [hh h hhand])
      · exact hne (hz.trans (congrArg some (hS.unique z y h hoz hy)))
  · exact fun x y h hx hy => after_unique hS hh hx hy
  · intro x h hx
    simp only [Owners.apply, Bool.or_eq_true, Bool.and_eq_true, decide_eq_true_eq]
    rcases after_cases hx with hhand | ⟨y, hy, -, hne⟩
    · exact Or.inl hhand
    · refine Or.inr ⟨hS.managed y h hy, fun hr => ?_⟩
      obtain ⟨z, hz, hoz⟩ := bind_owns hr
      exact hne (hz.trans (congrArg some (hS.unique z y h hoz hy)))
  · intro h hin
    simp only [Owners.apply, Bool.or_eq_true, Bool.and_eq_true, decide_eq_true_eq]
    rcases List.mem_append.mp hin with hin | hl
    · refine Or.inr ⟨hS.ended h hin, fun hr => ?_⟩
      obtain ⟨z, -, hoz⟩ := bind_owns hr
      exact hS.unowned h hin z hoz
    · have hl := Option.mem_toList.mp hl
      refine Or.inr ⟨hlost h hl, ?_⟩
      cases op <;> simp_all [Op.releases, Op.loses]

end

variable [DecidableEq σ]

section
variable {w v : Signals σ η} {o : Owners η ι} {op : Op σ η ι} {st st' : State σ η ι} {ops : List (Op σ η ι)}

omit [DecidableEq ι]

theorem destroy_disconnected (v : Signals σ η) (c : Connection σ η) :
    disconnected (c.destroy v) = disconnected v ++ c.id.toList := by
  unfold disconnected
  rw [destroy_calls, List.filterMap_append]
  congr 1
  cases hi : c.id with
  | none => cases c.parent <;> rfl
  | some h =>
    obtain ⟨s, hs⟩ := Option.isSome_iff_exists.mp (c.valid (by rw [hi]; rfl))
    rw [hs]
    rfl

/-- The signals have the handlers that they had, but for those that were disconnected. -/
def Connected (w v : Signals σ η) : Prop := ∀ s h, h ∈ v.handlers s ↔ h ∈ w.handlers s ∧ (s, some h) ∉ v.calls

theorem destroy_connected (hv : Connected w v) (c : Connection σ η) : Connected w (c.destroy v) := by
  intro s h
  have hcalls : (s, some h) ∉ (c.destroy v).calls ↔ (s, some h) ∉ v.calls ∧ ¬ (c.parent = some s ∧ c.id = some h) := by
    rw [destroy_calls]
    cases c.parent <;> simp [eq_comm]
  rw [hcalls, ← and_assoc, ← hv s h]
  unfold Connection.destroy Connection.disconnect
  cases hp : c.parent with
  | none => simp
  | some t => simpa [eq_comm] using mem_disconnect v t s c h

end

/-- What an object has is what it owns, and the connections that were disconnected are those that ended. -/
structure Follows (w : Signals σ η) (o : Owners η ι) (st : State σ η ι) : Prop where
  owns : ∀ x, (st.objects x).bind (·.id) = o.owns x
  ended : disconnected st.signals = o.ended
  taken : st.taken.map (·.id) = o.released
  connected : Connected w st.signals

section
variable {w : Signals σ η} {o : Owners η ι} {op : Op σ η ι} {st st' : State σ η ι} {ops : List (Op σ η ι)}

omit [DecidableEq σ] [DecidableEq η] in
theorem set_owns {f : ι → Option η} (hF : ∀ x, (st.objects x).bind (·.id) = f x) (x : ι) (c : Option (Connection σ η)) :
    ∀ y, ((st.set x c).objects y).bind (·.id) = Function.update f x (c.bind (·.id)) y := by
  intro y
  unfold State.set
  by_cases hy : y = x
  · subst hy
    simp
  · simpa [hy] using hF y

/-- What the object `x` has is disconnected if the operation is one that ends it. -/
theorem Follows.step (hF : Follows w o st) (howns : ∀ x, (st'.objects x).bind (·.id) = o.after op x)
    (htaken : st'.taken.map (·.id) = st.taken.map (·.id) ++ (op.releases.map o.owns).toList)
    (hsignals : op.loses = none ∧ st'.signals = st.signals ∨
      ∃ x a, op.loses = some x ∧ st.objects x = some a ∧ st'.signals = a.destroy st.signals) :
          Follows w (o.apply op) st' := by
  refine ⟨howns, ?_, by rw [htaken, hF.taken]; rfl, ?_⟩
  · change disconnected st'.signals = o.ended ++ (op.loses.bind o.owns).toList
    rcases hsignals with ⟨hl, hs⟩ | ⟨x, a, hl, ha, hs⟩
    · rw [hs, hl, hF.ended]
      simp
    · have hx : o.owns x = a.id := by rw [← hF.owns x, ha]; rfl
      rw [hs, hl, destroy_disconnected, hF.ended, Option.bind_some, hx]
  · rcases hsignals with ⟨-, hs⟩ | ⟨x, a, -, -, hs⟩
    · rw [hs]
      exact hF.connected
    · rw [hs]
      exact destroy_connected hF.connected a

theorem apply_follows (hF : Follows w o st) (h : st.apply op = some st') : Follows w (o.apply op) st' := by
  have howns := hF.owns
  cases op with
  | construct x c | constructEmpty x =>
    simp only [State.apply] at h
    split at h <;> cases h
    exact hF.step (set_owns howns x _) (by simp [Op.releases, State.set]) (Or.inl ⟨rfl, rfl⟩)
  | moveConstruct x other =>
    simp only [State.apply] at h
    split at h <;> cases h
    next c hx hc =>
      have hid : c.id = o.owns other := by rw [← howns other, hc]; rfl
      refine hF.step ?_ (by simp [Op.releases, State.set]) (Or.inl ⟨rfl, rfl⟩)
      simp only [Owners.after, ← hid]
      exact set_owns (set_owns howns x (some c)) other (some c.reset)
  | moveAssign x other =>
    simp only [State.apply] at h
    split at h <;> cases h
    next a c hx hc =>
      have hid : c.id = o.owns other := by rw [← howns other, hc]; rfl
      refine hF.step ?_ (by simp [Op.releases, State.set]) (Or.inr ⟨x, a, rfl, hx, rfl⟩)
      simp only [Owners.after, ← hid]
      exact set_owns (set_owns howns x (some c)) other (some c.reset)
  | assign x c =>
    obtain ⟨a, ha, rfl⟩ := Option.map_eq_some_iff.mp h
    exact hF.step (set_owns howns x _) (by simp [Op.releases, State.set]) (Or.inr ⟨x, a, rfl, ha, rfl⟩)
  | take x =>
    obtain ⟨a, ha, rfl⟩ := Option.map_eq_some_iff.mp h
    have hid : a.id = o.owns x := by rw [← howns x, ha]; rfl
    exact hF.step (set_owns howns x _) (by simp [Op.releases, hid]) (Or.inl ⟨rfl, rfl⟩)
  | destroy x =>
    obtain ⟨a, ha, rfl⟩ := Option.map_eq_some_iff.mp h
    exact hF.step (set_owns howns x _) (by simp [Op.releases, State.set]) (Or.inr ⟨x, a, rfl, ha, rfl⟩)

omit [DecidableEq σ] [DecidableEq η] [DecidableEq ι] in
theorem initial_follows (w : Signals σ η) : Follows w (Owners.initial : Owners η ι) (State.initial w) :=
  ⟨fun _ => rfl, rfl, rfl, by simp [Connected, State.initial]⟩

theorem run_follows (hF : Follows w o st) (h : st.run ops = some st') : Follows w (o.run ops) st' := by
  induction ops generalizing o st with
  | nil =>
    cases h
    exact hF
  | cons op ops ih =>
    simp only [State.run, List.foldlM_cons, Option.bind_eq_bind, Option.bind_eq_some_iff] at h
    obtain ⟨st₁, h₁, h⟩ := h
    exact ih (apply_follows hF h₁) h

end

omit [DecidableEq σ] in
theorem run_sole {o : Owners η ι} {ops : List (Op σ η ι)} (hS : Sole o) (hh : o.HandedOnce ops) : Sole (o.run ops) := by
  induction ops generalizing o with
  | nil => exact hS
  | cons op ops ih => exact ih (apply_sole hS hh.1) hh.2

/-- **Unique owners.** -/
theorem run_owned {w : Signals σ η} {ops : List (Op σ η ι)} {st : State σ η ι} (h : (State.initial w).run ops = some st)
    (hh : Owners.initial.HandedOnce ops) :
    Follows w (Owners.initial.run ops) st ∧ Sole (Owners.initial.run ops : Owners η ι) :=
  ⟨run_follows (initial_follows w) h, run_sole initial_sole hh⟩

/-- Two signals with a handler each. -/
def signals : Signals Nat Nat := ⟨fun s => [s], fun _ => false, [], []⟩

def connection (s : Nat) : Connection Nat Nat := ⟨some s, some s, fun _ => rfl⟩

/-- The first connection is moved on, released and handed out again; the second ends when its object is assigned over. -/
def movedOn : List (Op Nat Nat Nat) :=
  [.construct 0 (connection 0), .moveConstruct 1 0, .construct 2 (connection 1), .moveAssign 2 1, .destroy 0, .take 2,
    .assign 2 (connection 0), .destroy 2, .destroy 1]

theorem run_owned_movedOn : ∃ st, (State.initial signals).run movedOn = some st ∧ disconnected st.signals = [1, 0] ∧
    Follows signals (Owners.initial.run movedOn) st ∧ Sole (Owners.initial.run movedOn : Owners Nat Nat) := by
  refine ⟨_, rfl, rfl, run_owned rfl ?_⟩
  refine ⟨?_, ?_, ?_, ?_, ?_, ?_, ?_, ?_, ?_, trivial⟩ <;> intro h hh <;> cases hh <;> rfl

end Xdispatch.ScopedConnection
