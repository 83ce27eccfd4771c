import Xdispatch.Lib.Threads

/-!
# The operation queue manager

`attach` and `detach` post an operation to the manager's thread, which takes them
in order: the first appends an entry to `m_queues`, and the second removes every
entry of the queue. So one `detach` takes back all that was attached, and the
manager holds what it should only if nothing is attached twice when it is detached.
-/

namespace Xdispatch.OperationQueueManager

variable {α : Type}

inductive Request (α : Type) where
  | attach (q : α)
  | detach (q : α)
  deriving DecidableEq

/-- `pending` are the operations that the thread has not come to; `processed` is history. -/
structure Shared (α : Type) where
  pending : List (Request α)
  queues : List α
  processed : List (Request α)
  deriving DecidableEq

inductive Choice (α : Type) where
  | request (r : Request α)
  | step
  deriving DecidableEq

/-- The manager's thread. -/
inductive Thread where
  | manager
  deriving DecidableEq

variable [DecidableEq α]

/-- The loop of `detach` from an iterator on. -/
def eraseAll (q : α) : List α → List α
  | [] => []
  | p :: rest => if p = q then eraseAll q rest else p :: eraseAll q rest

def Request.process (queues : List α) : Request α → List α
  | .attach q => queues ++ [q]
  | .detach q => eraseAll q queues

def act (s : Shared α) : Thread → Choice α → Option (Shared α × Thread × List Thread)
  | .manager, .step =>
    match s.pending with
    | [] => none
    | r :: rest => some (⟨rest, r.process s.queues, s.processed ++ [r]⟩, .manager, [])
  | _, _ => none

def call (s : Shared α) : Choice α → Option (Shared α × List Thread)
  | .request r => some ({ s with pending := s.pending ++ [r] }, [])
  | .step => none

def operationQueueManager : Program (Shared α) Thread (Choice α) := ⟨call, act⟩

def initial : Config (Shared α) Thread := ⟨⟨[], [], []⟩, [.manager]⟩

namespace Shared

def attaches (s : Shared α) (q : α) : Nat := s.processed.count (.attach q)

def detaches (s : Shared α) (q : α) : Nat := s.processed.count (.detach q)

/-- The manager holds what has been attached more often than detached, and nothing that has been as often. -/
def Balanced (s : Shared α) : Prop :=
  ∀ q, (s.detaches q < s.attaches q → q ∈ s.queues) ∧ (s.detaches q = s.attaches q → q ∉ s.queues)

end Shared

/-- The request that a step processes. -/
def processes (c : Config (Shared α) Thread) : Label (Choice α) → Option (Request α)
  | .act _ .step => c.shared.pending.head?
  | _ => none

/-- A `detach` comes after an `attach` that it is to take back. -/
def matched (c : Config (Shared α) Thread) (l : Label (Choice α)) : Prop :=
  ∀ q, processes c l = some (.detach q) → c.shared.detaches q < c.shared.attaches q

/-- A `detach` comes while the queue is attached once. -/
def attachedOnce (c : Config (Shared α) Thread) (l : Label (Choice α)) : Prop :=
  ∀ q, processes c l = some (.detach q) → c.shared.attaches q = c.shared.detaches q + 1

instance decidableDetach (r : Option (Request α)) (P : α → Prop) [DecidablePred P] :
    Decidable (∀ q, r = some (.detach q) → P q) :=
  match r with
  | some (.detach q) => decidable_of_iff (P q) ⟨fun h p hp => by cases hp; exact h, fun h => h q rfl⟩
  | some (.attach q) => isTrue (by simp)
  | none => isTrue (by simp)

instance (c : Config (Shared α) Thread) (l : Label (Choice α)) : Decidable (matched c l) :=
  inferInstanceAs (Decidable (∀ _, _ → _))

instance (c : Config (Shared α) Thread) (l : Label (Choice α)) : Decidable (attachedOnce c l) :=
  inferInstanceAs (Decidable (∀ _, _ → _))

/-- There is an entry for each `attach` that has not been taken back. -/
def Counted (s : Shared α) : Prop := ∀ q, s.queues.count q + s.detaches q = s.attaches q

section
variable {c c' : Config (Shared α) Thread} {l : Label (Choice α)} {s s' : Shared α} {q p : α}

theorem count_eraseAll (q p : α) : ∀ l : List α, (eraseAll q l).count p = if p = q then 0 else l.count p
  | [] => by simp [eraseAll]
  | x :: l => by
    have ih := count_eraseAll q p l
    unfold eraseAll
    split
    next hx =>
      subst hx
      rw [ih]
      split
      · rfl
      next hp => rw [List.count_cons_of_ne (Ne.symm hp)]
    next hx =>
      rw [List.count_cons, List.count_cons, ih]
      split
      next hp =>
        subst hp
        simp [hx]
      · rfl

/-- Either a request is posted, or the thread processes the first. -/
theorem next_cases (hn : operationQueueManager.next c l = some c') :
    (∃ r, l = .call (.request r)) ∧ c'.shared.queues = c.shared.queues ∧ c'.shared.processed = c.shared.processed ∨
    ∃ i r, l = .act i .step ∧ c.shared.pending.head? = some r ∧ c'.shared.queues = r.process c.shared.queues ∧
      c'.shared.processed = c.shared.processed ++ [r] := by
  cases l with
  | call e =>
    obtain ⟨s, new, hc, rfl⟩ := Program.next_call hn
    cases e with
    | request r =>
      cases hc
      exact Or.inl ⟨⟨r, rfl⟩, rfl, rfl⟩
    | step => cases hc
  | act i e =>
    obtain ⟨t, s, t', new, ht, ha, rfl⟩ := Program.next_act hn
    simp only [operationQueueManager, act] at ha
    split at ha
    · split at ha <;> cases ha
      next r rest hp => exact Or.inr ⟨i, r, rfl, by rw [hp]; rfl, rfl, rfl⟩
    · cases ha

theorem attaches_snoc {r : Request α} (h : s'.processed = s.processed ++ [r]) (q : α) :
    s'.attaches q = s.attaches q + if r = .attach q then 1 else 0 := by
  simp only [Shared.attaches, h, List.count_append, List.count_singleton, beq_iff_eq]

theorem detaches_snoc {r : Request α} (h : s'.processed = s.processed ++ [r]) (q : α) :
    s'.detaches q = s.detaches q + if r = .detach q then 1 else 0 := by
  simp only [Shared.detaches, h, List.count_append, List.count_singleton, beq_iff_eq]

theorem Counted.balanced (h : Counted s) : s.Balanced := by
  intro q
  have hq := h q
  refine ⟨fun hlt => List.count_pos_iff.mp (by omega), fun heq hm => ?_⟩
  have := List.count_pos_iff.mpr hm
  omega

theorem counted_next (hI : Counted c.shared) (hC : attachedOnce c l) (hn : operationQueueManager.next c l = some c') :
    Counted c'.shared := by
  intro p
  have hp := hI p
  rcases next_cases hn with ⟨-, hqueues, hproc⟩ | ⟨i, r, rfl, hhead, hqueues, hproc⟩
  · simpa only [hqueues, hproc, Shared.attaches, Shared.detaches] using hp
  rw [hqueues, attaches_snoc hproc, detaches_snoc hproc]
  cases r with
  | attach q =>
    simp only [Request.process, List.count_append, List.count_singleton, beq_iff_eq, Request.attach.injEq, reduceCtorEq,
      if_false]
    omega
  | detach q =>
    have honce := hC q hhead
    simp only [Request.process, count_eraseAll, Request.detach.injEq, reduceCtorEq, if_false]
    by_cases hpq : p = q
    · subst hpq
      simp only [if_true]
      omega
    · rw [if_neg hpq, if_neg (Ne.symm hpq)]
      exact hp

theorem not_balanced (hD : matched c l) (hC : ¬ attachedOnce c l) (hn : operationQueueManager.next c l = some c') :
    ¬ c'.shared.Balanced := by
  intro hb
  rcases next_cases hn with ⟨⟨r, rfl⟩, -, -⟩ | ⟨i, r, rfl, hhead, hqueues, hproc⟩
  · exact hC (by simp [attachedOnce, processes])
  refine hC fun q hq => ?_
  cases hhead.symm.trans hq
  have hlt := hD q hhead
  have hatt := attaches_snoc hproc q
  have hdet := detaches_snoc hproc q
  simp only [reduceCtorEq, if_false] at hatt
  simp only [if_true] at hdet
  refine Classical.byContradiction fun hne => ?_
  have hm := (hb q).1 (by omega)
  have hcount := count_eraseAll q q c.shared.queues
  rw [if_pos rfl] at hcount
  rw [hqueues] at hm
  exact absurd (List.count_pos_iff.mpr hm) (by simp only [Request.process, hcount]; omega)

/-- The hold of the manager is balanced exactly in the runs in which nothing that is attached more
than once is detached. -/
theorem run_balanced_iff {tr : List (Config (Shared α) Thread × Label (Choice α))}
    (h : operationQueueManager.Run initial tr c) (hD : Program.Along matched tr) :
    Program.Along attachedOnce tr ↔ (∀ p ∈ tr, p.1.shared.Balanced) ∧ c.shared.Balanced := by
  refine h.along_iff_of (I := fun c => Counted c.shared) ?_ (fun c l c' hI _ hC hn => counted_next hI hC hn)
    (fun c hI => hI.balanced) (fun c l c' _ hD hC hn => not_balanced hD hC hn) hD
  intro q
  rfl

end

/-- Two queues are attached and detached, one of them again after that. -/
def attachedInTurn : List (Label (Choice Nat)) :=
  [.attach 0, .attach 1, .detach 0, .attach 0, .detach 1, .detach 0].flatMap fun r => [.call (.request r), .act 0 .step]

theorem run_balanced_iff_inTurn : (∀ p ∈ operationQueueManager.path initial attachedInTurn, p.1.shared.Balanced) ∧
    (operationQueueManager.last initial attachedInTurn).shared.Balanced :=
  (run_balanced_iff (Program.run_last (by decide)) (by decide)).mp (by decide)

/-- A pool is attached for two queues, of which one is destroyed. -/
def sharedPool : List (Label (Choice Nat)) :=
  [.attach 0, .attach 0, .detach 0].flatMap fun r => [.call (.request r), .act 0 .step]

theorem sharedPool_not_balanced : ¬ ∀ (tr : List (Config (Shared Nat) Thread × Label (Choice Nat)))
    (c : Config (Shared Nat) Thread), operationQueueManager.Run initial tr c → Program.Along matched tr →
      c.shared.Balanced := by
  intro hall
  have hheld := (hall _ _ (Program.run_last (l := sharedPool) (by decide)) (by decide) 0).1
  exact absurd (hheld (by decide)) (by decide)

end Xdispatch.OperationQueueManager
