import Xdispatch.Threadpool.Model

/-!
# References to native objects

The wrappers of the libdispatch backend retain the native object that they are
constructed with, and release it when they are destroyed; a socket notifier makes
its own. `dispatch_*_create` returns one reference that its caller owns. The
outside world holds references to the queues of libdispatch and to the objects of
callers. What libdispatch holds for itself, such as a source its target queue, it
takes and gives back in pairs; it is not counted.
-/

namespace Xdispatch.Libdispatch

open Threadpool (Priority)

/-- Where a native object is from. -/
inductive Origin where
  | mainQueue
  | globalQueue
  | caller
  | serialQueue
  | timer
  | socketNotifier
  deriving DecidableEq

/-- `outside` is how many of the `references` the outside world holds. -/
structure Native where
  origin : Origin
  references : Nat
  outside : Nat
  deriving DecidableEq

structure Shared where
  natives : List Native
  deriving DecidableEq

/-- The wrappers, by their `m_native`. -/
inductive Wrapper where
  | queueImpl (native : Nat)
  | groupImpl (native : Nat)
  | timerImpl (native : Nat)
  | socketNotifierImpl (native : Option Nat)
  | destroyed
  deriving DecidableEq

/-- `own` is the creation of an object by somebody else, who may then `retain` and `release` it. Creating the source
of a notifier may fail. -/
inductive Choice where
  | createMainQueue
  | createSerialQueue (priority : Priority)
  | createParallelQueue (priority : Priority)
  | createTimer
  | createSocketNotifier (fails : Bool)
  | createQueue (native : Nat)
  | createGroup (native : Nat)
  | own
  | retain (native : Nat)
  | release (native : Nat)
  | destroy
  deriving DecidableEq

namespace Native

def isOwned (n : Native) : Bool := n.origin = .caller && 0 < n.outside

def retain (n : Native) : Native := { n with references := n.references + 1 }

def release (n : Native) : Native := { n with references := n.references - 1 }

end Native

namespace Shared

def retain (s : Shared) (i : Nat) : Shared := ⟨s.natives.modify i .retain⟩

def release (s : Shared) (i : Nat) : Shared := ⟨s.natives.modify i .release⟩

/-- `dispatch_queue_create`, `dispatch_source_create` -/
def create (s : Shared) (origin : Origin) : Shared × Nat := (⟨s.natives ++ [⟨origin, 1, 0⟩]⟩, s.natives.length)

end Shared

/-- `object_scope_T` -/
structure ObjectScope where
  object : Option Nat

namespace ObjectScope

def take (o : ObjectScope) : Option Nat × ObjectScope := (o.object, ⟨none⟩)

def destroy (o : ObjectScope) (s : Shared) : Shared :=
  match o.object with
  | some i => s.release i
  | none => s

end ObjectScope

/-! ## Constructors and destructors -/

/-- The constructors of `queue_impl`, `group_impl` and `timer_impl`, which assert that there is an object. -/
def construct (s : Shared) (wrap : Nat → Wrapper) (native : Option Nat) : Option (Shared × Wrapper) :=
  native.map fun i => (s.retain i, wrap i)

def socketNotifierImpl (s : Shared) (fails : Bool) : Shared × Wrapper :=
  if fails then (s, .socketNotifierImpl none)
  else
    match s.create .socketNotifier with
    | (s, i) => (s, .socketNotifierImpl (some i))

def Wrapper.destroy (s : Shared) : Wrapper → Option (Shared × Wrapper)
  | .queueImpl i | .groupImpl i | .timerImpl i => some (s.release i, .destroyed)
  | .socketNotifierImpl native =>
    match native with
    | some i => some (s.release i, .destroyed)
    | none => some (s, .destroyed)
  | .destroyed => none

/-! ## The backend -/

/-- A native object that is made, guarded by a scope and taken from it. -/
def createScoped (s : Shared) (origin : Origin) (wrap : Nat → Wrapper) : Option (Shared × Wrapper) :=
  match s.create origin with
  | (s, i) =>
    match (ObjectScope.mk (some i)).take with
    | (native, scope) => (construct s wrap native).map fun r => (scope.destroy r.1, r.2)

/-- The global queues follow the main queue. -/
def globalQueue : Priority → Nat
  | .userInteractive | .userInitiated => 1
  | .utility => 2
  | .default => 3
  | .background => 4

def backend (s : Shared) : Choice → Option (Shared × List Wrapper)
  | .createMainQueue => (construct s .queueImpl (some 0)).map fun r => (r.1, [r.2])
  | .createSerialQueue _ => (createScoped s .serialQueue .queueImpl).map fun r => (r.1, [r.2])
  | .createParallelQueue p => (construct s .queueImpl (some (globalQueue p))).map fun r => (r.1, [r.2])
  | .createTimer => (createScoped s .timer .timerImpl).map fun r => (r.1, [r.2])
  | .createSocketNotifier fails => some ((socketNotifierImpl s fails).1, [(socketNotifierImpl s fails).2])
  | .createQueue i =>
    if s.natives[i]?.any (·.isOwned) then (construct s .queueImpl (some i)).map fun r => (r.1, [r.2]) else none
  | .createGroup i =>
    if s.natives[i]?.any (·.isOwned) then (construct s .groupImpl (some i)).map fun r => (r.1, [r.2]) else none
  | .own => some (⟨s.natives ++ [⟨.caller, 1, 1⟩]⟩, [])
  | .retain i =>
    if s.natives[i]?.any (·.isOwned) then
      some (⟨s.natives.modify i fun n => { n.retain with outside := n.outside + 1 }⟩, [])
    else none
  | .release i =>
    if s.natives[i]?.any (·.isOwned) then
      some (⟨s.natives.modify i fun n => { n.release with outside := n.outside - 1 }⟩, [])
    else none
  | .destroy => none

def libdispatch : Program Shared Wrapper Choice where
  call := backend
  act s w e :=
    match e with
    | .destroy => (w.destroy s).map fun r => (r.1, r.2, [])
    | _ => none

/-- The main queue and the global queues, with the references that `refs` says are held to them. -/
def initial (refs : Nat → Nat) : Config Shared Wrapper :=
  ⟨⟨(List.range 5).map fun i => ⟨if i = 0 then .mainQueue else .globalQueue, refs i, refs i⟩⟩, []⟩

/-! ## The balance -/

def Wrapper.native : Wrapper → Option Nat
  | .queueImpl i | .groupImpl i | .timerImpl i => some i
  | .socketNotifierImpl native => native
  | .destroyed => none

def Wrapper.refers (i : Nat) (w : Wrapper) : Nat := if w.native = some i then 1 else 0

/-- What `take` and the constructor leave behind. -/
def Native.leak (n : Native) : Nat :=
  match n.origin with
  | .serialQueue | .timer => 1
  | _ => 0

def Native.isCreated (n : Native) : Bool :=
  match n.origin with
  | .serialQueue | .timer | .socketNotifier => true
  | _ => false

structure Balanced (s : Shared) (ws : List Wrapper) : Prop where
  references : ∀ i n, s.natives[i]? = some n → n.references = n.outside + Family.total (Wrapper.refers i) ws + n.leak
  created : ∀ n ∈ s.natives, n.isCreated = true → n.outside = 0
  valid : ∀ w ∈ ws, ∀ i, w.native = some i → i < s.natives.length
  globals : 5 ≤ s.natives.length

variable {s s' : Shared} {ws new : List Wrapper} {w : Wrapper} {i : Nat}

theorem modify_cases {natives : List Native} {f : Native → Native} {j : Nat} {n : Native}
    (h : (natives.modify i f)[j]? = some n) :
    (j = i ∧ ∃ m, natives[i]? = some m ∧ n = f m) ∨ (j ≠ i ∧ natives[j]? = some n) := by
  by_cases hij : i = j
  · subst hij
    rw [List.getElem?_modify_eq] at h
    obtain ⟨m, hm, rfl⟩ := Option.map_eq_some_iff.mp h
    exact Or.inl ⟨rfl, m, hm, rfl⟩
  · rw [List.getElem?_modify_ne _ _ hij] at h
    exact Or.inr ⟨Ne.symm hij, h⟩

theorem total_refers_eq_zero (h : ∀ w ∈ ws, w.native ≠ some i) : Family.total (Wrapper.refers i) ws = 0 := by
  apply Family.total_eq_zero.mpr
  intro w hw
  exact if_neg (h w hw)

namespace Balanced

theorem modify {ws' : List Wrapper} {f : Native → Native} (hI : Balanced s ws)
    (hf : ∀ n, s.natives[i]? = some n → (f n).origin = n.origin ∧ (n.isCreated = true → (f n).outside = n.outside) ∧
      (n.references = n.outside + Family.total (Wrapper.refers i) ws + n.leak →
        (f n).references = (f n).outside + Family.total (Wrapper.refers i) ws' + n.leak))
    (hws : ∀ j, j ≠ i → Family.total (Wrapper.refers j) ws' = Family.total (Wrapper.refers j) ws)
    (hvalid : ∀ w ∈ ws', ∀ j, w.native = some j → j < s.natives.length) : Balanced ⟨s.natives.modify i f⟩ ws' := by
  refine ⟨fun j n hn => ?_, fun n hn hc => ?_, fun w hw j hj => ?_, ?_⟩
  · rcases modify_cases hn with ⟨rfl, m, hm, rfl⟩ | ⟨hij, hn⟩
    · obtain ⟨ho, -, hr⟩ := hf m hm
      have hleak : (f m).leak = m.leak := by
        unfold Native.leak
        rw [ho]
      rw [hleak]
      exact hr (hI.references j m hm)
    · rw [hws j hij]
      exact hI.references j n hn
  · obtain ⟨j, hj⟩ := List.mem_iff_getElem?.mp hn
    rcases modify_cases hj with ⟨-, m, hm, rfl⟩ | ⟨-, hn⟩
    · obtain ⟨ho, hout, -⟩ := hf m hm
      have hcm : m.isCreated = true := by
        unfold Native.isCreated at hc ⊢
        rwa [ho] at hc
      rw [hout hcm]
      exact hI.created m (List.mem_of_getElem? hm) hcm
    · exact hI.created n (List.mem_of_getElem? hn) hc
  · have := hvalid w hw j hj
    simpa using this
  · have := hI.globals
    simpa using this

theorem retain (hI : Balanced s ws) (hw : w.native = some i) (hi : i < s.natives.length) :
    Balanced (s.retain i) (ws ++ [w]) := by
  apply hI.modify
  · intro n _
    refine ⟨rfl, fun _ => rfl, fun hr => ?_⟩
    have hone : w.refers i = 1 := if_pos hw
    simp only [Native.retain, Family.total_append, Family.total_cons, Family.total_nil]
    omega
  · intro j hj
    have hzero : w.refers j = 0 := if_neg fun h => hj (Option.some.inj (h.symm.trans hw))
    simp [hzero]
  · intro x hx j hj
    rcases List.mem_append.mp hx with hx | hx
    · exact hI.valid x hx j hj
    · cases List.mem_singleton.mp hx
      cases hw.symm.trans hj
      exact hi

theorem release {k : Nat} {w' : Wrapper} (hI : Balanced s ws) (hk : ws[k]? = some w) (hw : w.native = some i)
    (hw' : w'.native = none) : Balanced (s.release i) (ws.set k w') := by
  have hzero : ∀ j, w'.refers j = 0 := fun j => if_neg (by simp [hw'])
  apply hI.modify
  · intro n _
    refine ⟨rfl, fun _ => rfl, fun hr => ?_⟩
    have hone : w.refers i = 1 := if_pos hw
    have hset := Family.total_set (Wrapper.refers i) hk w'
    rw [hzero, hone] at hset
    simp only [Native.release]
    omega
  · intro j hj
    have hset := Family.total_set (Wrapper.refers j) hk w'
    rw [hzero, show w.refers j = 0 from if_neg fun h => hj (Option.some.inj (h.symm.trans hw))] at hset
    omega
  · intro x hx j hj
    rcases List.mem_or_eq_of_mem_set hx with hx | rfl
    · exact hI.valid x hx j hj
    · simp [hw'] at hj

theorem append_none (hI : Balanced s ws) (hw : w.native = none) : Balanced s (ws ++ [w]) := by
  refine ⟨fun j n hn => ?_, hI.created, fun x hx j hj => ?_, hI.globals⟩
  · have hzero : w.refers j = 0 := if_neg (by simp [hw])
    rw [Family.total_append, Family.total_cons, Family.total_nil, hzero]
    exact hI.references j n hn
  · rcases List.mem_append.mp hx with hx | hx
    · exact hI.valid x hx j hj
    · cases List.mem_singleton.mp hx
      simp [hw] at hj

theorem set_none {k : Nat} {w' : Wrapper} (hI : Balanced s ws) (hk : ws[k]? = some w) (hw : w.native = none)
    (hw' : w'.native = none) : Balanced s (ws.set k w') := by
  refine ⟨fun j n hn => ?_, hI.created, fun x hx j hj => ?_, hI.globals⟩
  · have hset := Family.total_set (Wrapper.refers j) hk w'
    rw [show w.refers j = 0 from if_neg (by simp [hw]), show w'.refers j = 0 from if_neg (by simp [hw'])] at hset
    have := hI.references j n hn
    omega
  · rcases List.mem_or_eq_of_mem_set hx with hx | rfl
    · exact hI.valid x hx j hj
    · simp [hw'] at hj

theorem modify_outside {f : Native → Nat × Nat} (hI : Balanced s ws) (hown : s.natives[i]?.any (·.isOwned) = true)
    (hf : ∀ n, 0 < n.outside → ∀ k, n.references = n.outside + k → (f n).1 = (f n).2 + k) :
    Balanced ⟨s.natives.modify i fun n => ⟨n.origin, (f n).1, (f n).2⟩⟩ ws := by
  apply hI.modify
  · intro n hn
    rw [hn] at hown
    have hown : n.isOwned = true := hown
    simp only [Native.isOwned, Bool.and_eq_true, decide_eq_true_eq] at hown
    refine ⟨rfl, fun hc => ?_, fun hr => ?_⟩
    · simp [Native.isCreated, hown.1] at hc
    · rw [Nat.add_assoc] at hr ⊢
      exact hf n hown.2 _ hr
  · intro j _
    rfl
  · exact hI.valid

theorem create {n : Native} (hI : Balanced s ws) (hnew : ∀ w ∈ new, w.native = some s.natives.length)
    (hr : n.references = n.outside + new.length + n.leak) (hc : n.isCreated = true → n.outside = 0) :
    Balanced ⟨s.natives ++ [n]⟩ (ws ++ new) := by
  have hlast : Family.total (Wrapper.refers s.natives.length) new = new.length := by
    unfold Family.total
    rw [List.map_congr_left fun w hw => show w.refers s.natives.length = 1 from if_pos (hnew w hw)]
    simp
  have hold : ∀ j, j ≠ s.natives.length → Family.total (Wrapper.refers j) new = 0 := by
    intro j hj
    apply total_refers_eq_zero
    intro w hw h
    exact hj (Option.some.inj (h.symm.trans (hnew w hw)))
  refine ⟨fun j m hm => ?_, fun m hm hc' => ?_, fun w hw j hj => ?_, ?_⟩
  · rw [Family.total_append]
    by_cases hj : j = s.natives.length
    · subst hj
      rw [List.getElem?_concat_length, Option.some.injEq] at hm
      subst hm
      have hws : Family.total (Wrapper.refers s.natives.length) ws = 0 := by
        apply total_refers_eq_zero
        intro w hw h
        exact absurd (hI.valid w hw _ h) (Nat.lt_irrefl _)
      omega
    · have hlt : j < s.natives.length := by
        have := (List.getElem?_eq_some_iff.mp hm).1
        rw [List.length_append, List.length_singleton] at this
        omega
      rw [List.getElem?_append_left hlt] at hm
      rw [hold j hj]
      exact hI.references j m hm
  · rcases List.mem_append.mp hm with hm | hm
    · exact hI.created m hm hc'
    · cases List.mem_singleton.mp hm
      exact hc hc'
  · rw [List.length_append, List.length_singleton]
    rcases List.mem_append.mp hw with hw | hw
    · have := hI.valid w hw j hj
      omega
    · cases (hnew w hw).symm.trans hj
      exact Nat.lt_succ_self _
  · have := hI.globals
    rw [List.length_append, List.length_singleton]
    omega

end Balanced

theorem isOwned_lt (h : s.natives[i]?.any (·.isOwned) = true) : i < s.natives.length := by
  by_contra hge
  rw [List.getElem?_eq_none (Nat.le_of_not_lt hge)] at h
  cases h

theorem globalQueue_lt (p : Priority) : globalQueue p < 5 := by cases p <;> decide

theorem modify_concat (f : Native → Native) (n : Native) :
    ∀ natives : List Native, (natives ++ [n]).modify natives.length f = natives ++ [f n]
  | [] => rfl
  | m :: natives => by
    rw [List.cons_append, List.length_cons, List.modify_succ_cons, modify_concat f n natives, List.cons_append]

/-- The reference that `take` passes on is not released, and the constructor adds its own. -/
theorem createScoped_eq (s : Shared) (origin : Origin) (wrap : Nat → Wrapper) :
    createScoped s origin wrap = some (⟨s.natives ++ [⟨origin, 2, 0⟩]⟩, wrap s.natives.length) := by
  simp only [createScoped, Shared.create, ObjectScope.take, ObjectScope.destroy, construct, Shared.retain,
    Option.map_some, modify_concat]
  rfl

theorem backend_balanced {e : Choice} (hI : Balanced s ws) (h : backend s e = some (s', new)) :
    Balanced s' (ws ++ new) := by
  cases e with
  | createMainQueue =>
    cases h
    exact hI.retain rfl (Nat.lt_of_lt_of_le (by decide) hI.globals)
  | createParallelQueue p =>
    cases h
    exact hI.retain rfl (Nat.lt_of_lt_of_le (globalQueue_lt p) hI.globals)
  | createSerialQueue p =>
    rw [backend, createScoped_eq] at h
    cases h
    exact hI.create (by simp [Wrapper.native]) rfl fun _ => rfl
  | createTimer =>
    rw [backend, createScoped_eq] at h
    cases h
    exact hI.create (by simp [Wrapper.native]) rfl fun _ => rfl
  | createSocketNotifier fails =>
    cases h
    cases fails with
    | true => exact hI.append_none rfl
    | false =>
      exact hI.create (n := ⟨.socketNotifier, 1, 0⟩) (by simp [socketNotifierImpl, Shared.create, Wrapper.native]) rfl
        fun _ => rfl
  | createQueue i =>
    rw [backend, Option.ite_none_right_eq_some] at h
    obtain ⟨hown, h⟩ := h
    cases h
    exact hI.retain rfl (isOwned_lt hown)
  | createGroup i =>
    rw [backend, Option.ite_none_right_eq_some] at h
    obtain ⟨hown, h⟩ := h
    cases h
    exact hI.retain rfl (isOwned_lt hown)
  | own =>
    cases h
    have hnew : ∀ w ∈ ([] : List Wrapper), w.native = some s.natives.length := by simp
    exact hI.create hnew rfl fun hc => by cases hc
  | retain i =>
    rw [backend, Option.ite_none_right_eq_some] at h
    obtain ⟨hown, h⟩ := h
    cases h
    rw [List.append_nil]
    refine hI.modify_outside (f := fun n => (n.references + 1, n.outside + 1)) hown fun n _ k hr => ?_
    change n.references + 1 = n.outside + 1 + k
    omega
  | release i =>
    rw [backend, Option.ite_none_right_eq_some] at h
    obtain ⟨hown, h⟩ := h
    cases h
    rw [List.append_nil]
    refine hI.modify_outside (f := fun n => (n.references - 1, n.outside - 1)) hown fun n hpos k hr => ?_
    change n.references - 1 = n.outside - 1 + k
    omega
  | destroy => cases h

theorem destroy_balanced {k : Nat} {w' : Wrapper} (hI : Balanced s ws) (hk : ws[k]? = some w)
    (h : w.destroy s = some (s', w')) : Balanced s' (ws.set k w') := by
  cases w with
  | queueImpl i =>
    cases h
    exact hI.release hk rfl rfl
  | groupImpl i =>
    cases h
    exact hI.release hk rfl rfl
  | timerImpl i =>
    cases h
    exact hI.release hk rfl rfl
  | socketNotifierImpl native =>
    cases native with
    | some i =>
      cases h
      exact hI.release hk rfl rfl
    | none =>
      cases h
      exact hI.set_none hk rfl rfl
  | destroyed => cases h

theorem initial_balanced (refs : Nat → Nat) : Balanced (initial refs).shared (initial refs).threads := by
  refine ⟨fun i n hn => ?_, fun n hn hc => ?_, by simp [initial], by simp [initial]⟩
  · simp only [initial, List.getElem?_map, Option.map_eq_some_iff] at hn
    obtain ⟨j, -, rfl⟩ := hn
    change refs j = refs j + 0 + Native.leak _
    unfold Native.leak
    split <;> grind
  · simp only [initial, List.mem_map] at hn
    obtain ⟨j, -, rfl⟩ := hn
    unfold Native.isCreated at hc
    split at hc <;> grind

theorem run_balanced {refs : Nat → Nat} {tr : List (Config Shared Wrapper × Label Choice)} {c : Config Shared Wrapper}
    (h : libdispatch.Run (initial refs) tr c) : Balanced c.shared c.threads := by
  refine h.invariant_by (C := fun _ _ => True) (I := fun c => Balanced c.shared c.threads) (initial_balanced refs)
    (fun c e s new hI _ hc => backend_balanced hI hc) (fun c k e w s w' new hI _ hk ha => ?_) Program.along_true
  unfold libdispatch at ha
  simp only [] at ha
  split at ha
  · simp only [Option.map_eq_some_iff, Prod.mk.injEq] at ha
    obtain ⟨⟨s₁, w₁⟩, hd, rfl, rfl, rfl⟩ := ha
    rw [List.append_nil]
    exact destroy_balanced hI hk hd
  · cases ha

/-- An object that no wrapper refers to any longer has the references of the outside world left, and none of those if
the backend made it, unless `take` passed a reference on that nobody releases. -/
theorem run_references_iff {refs : Nat → Nat} {tr : List (Config Shared Wrapper × Label Choice)} {c : Config Shared Wrapper}
    (h : libdispatch.Run (initial refs) tr c) {i : Nat} {n : Native} (hn : c.shared.natives[i]? = some n)
    (hgone : ∀ w ∈ c.threads, w.native ≠ some i) :
    (n.isCreated = true → n.outside = 0) ∧
      (n.references = n.outside ↔ n.origin ≠ .serialQueue ∧ n.origin ≠ .timer) := by
  have hI := run_balanced h
  refine ⟨hI.created n (List.mem_of_getElem? hn), ?_⟩
  have hr := hI.references i n hn
  rw [total_refers_eq_zero hgone, Nat.add_zero] at hr
  cases hor : n.origin <;> simp [hr, Native.leak, hor]

/-- A serial queue that is destroyed leaves its native queue with a reference. -/
theorem serialQueue_not_balanced : ∃ tr c n, libdispatch.Run (initial fun _ => 1) tr c ∧ c.shared.natives[5]? = some n ∧
    (∀ w ∈ c.threads, w.native ≠ some 5) ∧ n.isCreated = true ∧ n.references = 1 ∧ n.outside = 0 :=
  ⟨_, _, ⟨.serialQueue, 1, 0⟩,
    Program.run_last (l := [.call (.createSerialQueue .default), .act 0 .destroy]) (by decide), by decide, by decide,
    by decide, by decide, by decide⟩

/-- Two wrappers of an object of a caller, who lets go of it before they do. -/
def borrowed : List (Label Choice) :=
  [.call .own, .call (.createQueue 5), .call (.createQueue 5), .call (.release 5), .call .createMainQueue,
    .call (.createSocketNotifier false), .act 0 .destroy, .act 3 .destroy, .act 1 .destroy]

theorem run_references_iff_borrowed :
    ∃ n, (libdispatch.last (initial fun _ => 1) borrowed).shared.natives[5]? = some n ∧ n.origin = .caller ∧
      (n.isCreated = true → n.outside = 0) ∧
      (n.references = n.outside ↔ n.origin ≠ .serialQueue ∧ n.origin ≠ .timer) :=
  have hrun : libdispatch.Run (initial fun _ => 1) _ _ := Program.run_last (l := borrowed) (by decide)
  ⟨⟨.caller, 0, 0⟩, by decide, rfl, run_references_iff (i := 5) hrun (by decide) (by decide)⟩

end Xdispatch.Libdispatch
