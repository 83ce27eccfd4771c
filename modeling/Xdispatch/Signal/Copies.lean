import Xdispatch.Signal.Lifetime
import Xdispatch.Signal.Skip

/-!
# Copies of a connection

The copies of a connection have a weak reference to its handler each. A
`disconnect` succeeds if `m_id.lock()` still gets the handler, which the list of
the signal, the closure of every invocation from the emit until it is destroyed,
and every other `disconnect` that has succeeded and not returned keep alive. The
signal is alive throughout.
-/

namespace Xdispatch.Signal.Copies

variable {α : Type}

/-- The frame is of a `disconnect` of `h` that has got the handler. -/
@[grind] def disconnects (h : HandlerId) : Frame α → Nat
  | .disconnectLock k | .disconnectErase k | .disconnectEnd k | .disable k none | .disableWait k none =>
    if k = h then 1 else 0
  | _ => 0

def inProgress (h : HandlerId) (c : Config (Signal.Shared α) (Thread α)) : Nat := weigh (disconnects h) (pool c)

/-- What is queued or in progress and has a `handler_ptr` to `h`. -/
def owners (h : HandlerId) (c : Config (Signal.Shared α) (Thread α)) : Nat := weigh (Lifetime.pointers h) (pool c)

/-- `m_id` has not expired. -/
def held (h : HandlerId) (c : Config (Signal.Shared α) (Thread α)) : Bool := h ∈ c.shared.handlers || 0 < owners h c

/-- `unused` are the copies on which `disconnect` has not been called; the calls on the others have
`succeeded`, which returns true, or `failed`. -/
structure Shared (α : Type) where
  signal : Config (Signal.Shared α) (Thread α)
  unused : Nat
  succeeded : Nat
  failed : Nat
  returned : Nat

namespace Shared

/-- A step of the signal. When `connect` has made the handler, there are `n` copies of the connection. -/
def after (h : HandlerId) (n : Nat) (s : Shared α) (c : Config (Signal.Shared α) (Thread α)) : Shared α :=
  { s with
    signal := c
    unused := if h ∉ s.signal.shared.handlers ∧ h ∈ c.shared.handlers then n else s.unused
    returned := s.returned + (inProgress h s.signal - inProgress h c) }

/-- `disconnect` is called on a copy that it has not been called on. -/
def disconnect (h : HandlerId) (s : Shared α) (l : Label (Choice α)) : Option (Shared α) :=
  if s.unused = 0 then none
  else if held h s.signal then
    (Signal.signal.next s.signal l).map fun c => { s with signal := c, unused := s.unused - 1, succeeded := s.succeeded + 1 }
  else some { s with unused := s.unused - 1, failed := s.failed + 1 }

end Shared

/-- The step is a call of `disconnect` on a copy of the connection to `h`. -/
def calls (h : HandlerId) (l : Label (Choice α)) : Bool :=
  match l.choice with
  | .disconnect k => k = h
  | _ => false

/-- The steps of the signal; those that call `disconnect` for `h` use up a copy. -/
def copies (h : HandlerId) (n : Nat) : Program (Shared α) Empty (Label (Choice α)) where
  call s l := (if calls h l then s.disconnect h l else (signal.next s.signal l).map (s.after h n)).map (·, [])
  act _ _ _ := none

def initial : Config (Shared α) Empty := ⟨⟨Signal.initial, 0, 0, 0, 0⟩, []⟩

/-- One of the calls has succeeded if there was any. If it has returned, the copies that are left are not connected. -/
structure Exact (h : HandlerId) (s : Shared α) : Prop where
  once : 0 < s.succeeded + s.failed → s.succeeded = 1
  disconnected : 0 < s.returned → s.unused = 0 ∨ held h s.signal = false

/-- A successful `disconnect` of `h` returns. -/
def returns (h : HandlerId) (s : Shared α) (l : Label (Choice α)) : Bool :=
  (signal.next s.signal l).any fun c => inProgress h c < inProgress h s.signal

/-- A `disconnect` is called when no other one that has got the handler is in progress, and when it returns, the
handler is all its own, or no copy is left. -/
def sole (h : HandlerId) (c : Config (Shared α) Empty) : Label (Label (Choice α)) → Bool
  | .call l =>
    if calls h l then inProgress h c.shared.signal = 0
    else !returns h c.shared l || c.shared.unused = 0 || owners h c.shared.signal = 1
  | .act _ _ => true

/-! ## Emits and erased handlers -/

section
variable {s s' : Signal.Shared α} {F : Multiset (Frame α)} {f : Frame α} {fs : List (Frame α)} {h : HandlerId}

/-- The handlers that an emit has still to do with. -/
@[grind] def walks : Frame α → List HandlerId
  | .emitNext rest _ => rest
  | .emitBranch k rest _ _ => k :: rest
  | _ => []

@[grind] def erased (h : HandlerId) : Frame α → Bool
  | .disconnectEnd k | .disable k none | .disableWait k none => k = h
  | _ => false

structure Walking (s : Signal.Shared α) (F : Multiset (Frame α)) : Prop where
  listed : ∀ f ∈ F, ∀ k ∈ walks f, k ∈ s.handlers
  erased : ∀ f ∈ F, ∀ h, erased h f = true → h ∉ s.handlers

theorem walking_start (hW : Walking s F) (hs : Starts s f) : Walking s (f ::ₘ F) := by
  have hf : walks f = [] ∧ ∀ h, erased h f = false := by
    rcases hs.cases with ⟨_, rfl⟩ | ⟨_, rfl⟩ | ⟨_, -, rfl⟩ | rfl <;> exact ⟨rfl, fun _ => rfl⟩
  refine ⟨fun g hg k hk => ?_, fun g hg k hk => ?_⟩
  · rcases Multiset.mem_cons.mp hg with rfl | hg
    · rw [hf.1] at hk
      cases hk
    · exact hW.listed g hg k hk
  · rcases Multiset.mem_cons.mp hg with rfl | hg
    · rw [hf.2] at hk
      cases hk
    · exact hW.erased g hg k hk

theorem walks_of_holds (hf : f.holds = 0) : walks f = [] := by
  cases f <;> first | rfl | cases hf

theorem erased_handlers {g : Frame α} (hg : erased h g = true) : h ∈ g.handlers := by
  unfold erased at hg
  split at hg <;> simp_all [Frame.handlers]

theorem moves_walks (hm : Moves s f s' fs) : ∀ g ∈ fs, ∀ k ∈ walks g, k ∈ walks f ∨ k ∈ s.handlers := by
  cases hm with
  | disable h skip g hg => rcases hg with rfl | rfl <;> cases skip <;> simp [walks, Frame.disabled]
  | disableWait h skip => cases skip <;> simp [walks, Frame.disabled]
  | _ => simp [walks] <;> grind

theorem moves_erased (hm : Moves s f s' fs) {g : Frame α} (hg : g ∈ fs) (he : erased h g = true) :
    h ∉ s'.handlers ∨ erased h f = true := by
  cases hm with
  | disconnectErase k =>
    left
    simp_all [erased]
  | disable k skip g' hd => rcases hd with rfl | rfl <;> cases skip <;> simp_all [erased, Frame.disabled]
  | disableWait k skip => cases skip <;> simp_all [erased, Frame.disabled]
  | _ => simp_all [erased] <;> grind

theorem erased_handlers_eq (hm : Moves s f s' fs) (he : erased h f = true) : s'.handlers = s.handlers := by
  cases hm <;> first | rfl | cases he

theorem walking_move (hI : Inv s (f ::ₘ F)) (hW : Walking s (f ::ₘ F)) (hm : Moves s f s' fs) :
    Walking s' (↑fs + F) := by
  -- only the holder of the mutex erases handlers, and then no emit is under way
  have hkeep : ∀ g, g ∈ fs ∨ g ∈ F → ∀ k ∈ walks g, k ∈ s.handlers → k ∈ s'.handlers := by
    intro g hg k hk hks
    cases hm with
    | disconnectErase h =>
      rcases hg with hg | hg
      · cases List.mem_singleton.mp hg
        cases hk
      · rw [walks_of_holds (hI.alone rfl g hg)] at hk
        cases hk
    | connectPush mode => exact List.mem_append_left _ hks
    | _ => exact hks
  refine ⟨fun g hg k hk => ?_, fun g hg h he => ?_⟩
  · rcases Multiset.mem_add.mp hg with hg | hg
    · refine hkeep g (Or.inl hg) k hk ?_
      exact (moves_walks hm g hg k hk).elim (hW.listed f (Multiset.mem_cons_self f F) k) id
    · exact hkeep g (Or.inr hg) k hk (hW.listed g (Multiset.mem_cons_of_mem hg) k hk)
  · rcases Multiset.mem_add.mp hg with hg | hg
    · rcases moves_erased hm hg he with hn | he
      · exact hn
      · rw [erased_handlers_eq hm he]
        exact hW.erased f (Multiset.mem_cons_self f F) h he
    · exact moves_connected hI.made hm hg (erased_handlers he) (hW.erased g (Multiset.mem_cons_of_mem hg) h he)

/-! ## Disconnects that return -/

theorem disconnects_le_pointers (f : Frame α) : disconnects h f ≤ Lifetime.pointers h f := by
  cases f with
  | disable k skip | disableWait k skip => cases skip <;> simp [disconnects, Lifetime.pointers]
  | _ => simp [disconnects, Lifetime.pointers]

theorem erased_weights (he : erased h f = true) : disconnects h f = 1 ∧ Lifetime.pointers h f = 1 := by
  unfold erased at he
  split at he
  · simpa [disconnects, Lifetime.pointers] using he
  · simpa [disconnects, Lifetime.pointers] using he
  · simpa [disconnects, Lifetime.pointers] using he
  · cases he

theorem starts_weights (hs : Starts s f) (hf : f ≠ .disconnectLock h) :
    disconnects h f = 0 ∧ Lifetime.pointers h f = 0 := by
  rcases hs.cases with ⟨_, rfl⟩ | ⟨_, rfl⟩ | ⟨k, -, rfl⟩ | rfl
  · exact ⟨rfl, rfl⟩
  · exact ⟨rfl, rfl⟩
  · have : k ≠ h := fun hk => hf (by rw [hk])
    simp [disconnects, Lifetime.pointers, this]
  · exact ⟨rfl, rfl⟩

theorem moves_disconnects (hm : Moves s f s' fs) (F : Multiset (Frame α)) :
    weigh (disconnects h) ((fs : Multiset (Frame α)) + F) = weigh (disconnects h) (f ::ₘ F) ∨
      erased h f = true ∧ fs = [] := by
  cases hm with
  | disconnectEnd k =>
    by_cases hk : k = h
    · exact Or.inr ⟨by simp [erased, hk], rfl⟩
    · simp [disconnects, hk]
  | disable k skip g hg => rcases hg with rfl | rfl <;> cases skip <;> simp [disconnects, Frame.disabled]
  | disableWait k skip => cases skip <;> simp [disconnects, Frame.disabled]
  | _ => simp [disconnects]

/-- Only a `disconnect` of `h` takes it off the list. -/
theorem moves_keep (hm : Moves s f s' fs) (h0 : disconnects h f = 0) (hh : h ∈ s.handlers) : h ∈ s'.handlers := by
  cases hm with
  | disconnectErase k =>
    have hk : h ≠ k := by
      rintro rfl
      simp [disconnects] at h0
    exact List.mem_filter.mpr ⟨hh, by simpa using hk⟩
  | connectPush mode => exact List.mem_append_left _ hh
  | _ => exact hh

theorem moves_pointers (hW : Walking s (f ::ₘ F)) (hm : Moves s f s' fs) (hh : h ∉ s.handlers)
    (h0 : weigh (Lifetime.pointers h) (f ::ₘ F) = 0) :
    weigh (Lifetime.pointers h) ((fs : Multiset (Frame α)) + F) = 0 := by
  have hl := hW.listed f (Multiset.mem_cons_self f F)
  rw [weigh_cons] at h0
  cases hm with
  | invoke k rest args p q hp =>
    have hk : k ≠ h := fun e => hh (e ▸ hl k (List.mem_cons_self ..))
    simpa [Lifetime.pointers, Shared.invocation, hk] using h0
  | disable k skip g hg =>
    rcases hg with rfl | rfl <;> cases skip <;> simp_all [Lifetime.pointers, Frame.disabled]
  | disableWait k skip => cases skip <;> simp_all [Lifetime.pointers, Frame.disabled]
  | _ => simp_all [Lifetime.pointers]

end

/-! ## Steps -/

section
variable {c c' : Config (Signal.Shared α) (Thread α)} {l : Label (Choice α)} {h : HandlerId}

structure Sound (c : Config (Signal.Shared α) (Thread α)) : Prop where
  inv : Inv c.shared (pool c)
  walking : Walking c.shared (pool c)

theorem sound_next (hS : Sound c) (hn : signal.next c l = some c') : Sound c' := by
  have hI := hS.inv
  have hW := hS.walking
  rcases next_pool hn with ⟨-, ⟨q, hs⟩, hp⟩ | ⟨-, hs, f, hf, hp⟩ | ⟨f, fs, F, -, hF, hm, hp⟩
  · refine ⟨?_, ?_⟩
    · rw [hs, hp]
      exact hI.queue q
    · rw [hs, hp]
      exact ⟨hW.listed, hW.erased⟩
  · refine ⟨?_, ?_⟩
    · rw [hs, hp]
      exact hI.start ⟨_, hf⟩
    · rw [hs, hp]
      exact walking_start hW ⟨_, hf⟩
  · rw [hF] at hI hW
    refine ⟨?_, ?_⟩
    · rw [hp]
      exact hI.move hm
    · rw [hp]
      exact walking_move hI hW hm

theorem frame_ne (hl : calls h l = false) {s : Signal.Shared α} {f : Frame α} (hf : l.choice.frame s = some f) :
    f ≠ .disconnectLock h := by
  rintro rfl
  unfold calls at hl
  cases hc : l.choice with
  | disconnect k =>
    rw [hc] at hf hl
    simp only [Choice.frame] at hf
    split at hf <;> simp_all
  | _ =>
    rw [hc] at hf
    cases hf

theorem next_disconnect (hl : calls h l = true) (hn : signal.next c l = some c') :
    c'.shared = c.shared ∧ pool c' = .disconnectLock h ::ₘ pool c := by
  unfold calls at hl
  cases hc : l.choice with
  | disconnect k =>
    rw [hc] at hl
    obtain rfl : k = h := by simpa using hl
    have hs : ∀ i, l ≠ .act i .step := by
      rintro i rfl
      cases hc
    have hr : ∀ k, l ≠ .call (.run k) := by
      rintro k rfl
      cases hc
    obtain ⟨hsh, f, hf, hF⟩ := next_starts hn hs hr
    rw [hc, Choice.frame] at hf
    split at hf <;> cases hf
    exact ⟨hsh, by rw [pool, pool, hsh, hF, Multiset.add_cons]⟩
  | _ =>
    rw [hc] at hl
    cases hl

theorem next_inProgress (hS : Sound c) (hl : calls h l = false) (hn : signal.next c l = some c') :
    inProgress h c' = inProgress h c ∨
      inProgress h c' + 1 = inProgress h c ∧ owners h c' + 1 = owners h c ∧ h ∉ c'.shared.handlers := by
  unfold inProgress owners
  rcases next_pool hn with ⟨-, -, hp⟩ | ⟨-, -, f, hf, hp⟩ | ⟨f, fs, F, -, hF, hm, hp⟩
  · rw [hp]
    exact Or.inl rfl
  · rw [hp, weigh_cons, (starts_weights ⟨_, hf⟩ (frame_ne hl hf)).1, Nat.zero_add]
    exact Or.inl rfl
  · rcases moves_disconnects (h := h) hm F with heq | ⟨he, rfl⟩
    · rw [hp, hF]
      exact Or.inl heq
    · have hw := erased_weights he
      have hh := hS.walking.erased f (hF ▸ Multiset.mem_cons_self f F) h he
      rw [hp, hF, weigh_cons, weigh_cons, hw.1, hw.2, Multiset.coe_nil, Multiset.zero_add, erased_handlers_eq hm he]
      exact Or.inr ⟨Nat.add_comm .., Nat.add_comm .., hh⟩

theorem next_handlers (hlt : h.serial < c.shared.size) (hn : signal.next c l = some c')
    (hh : h ∉ c.shared.handlers) : h ∉ c'.shared.handlers := by
  rcases next_pool hn with ⟨-, ⟨q, hs⟩, hp⟩ | ⟨-, hs, f, hf, hp⟩ | ⟨f, fs, F, -, hF, hm, hp⟩
  · rw [hs]
    exact hh
  · rw [hs]
    exact hh
  · rcases moves_handlers hm with hl | ⟨mode, hl, -⟩
    · exact fun hn => hh (hl.subset hn)
    · rw [hl, List.mem_append, List.mem_singleton]
      rintro (hn | rfl)
      · exact hh hn
      · exact Nat.lt_irrefl _ hlt

theorem next_size (hn : signal.next c l = some c') : c.shared.size ≤ c'.shared.size := by
  rcases next_pool hn with ⟨-, ⟨q, hs⟩, hp⟩ | ⟨-, hs, f, hf, hp⟩ | ⟨f, fs, F, -, hF, hm, hp⟩
  · rw [hs]
  · rw [hs]
  · exact moves_size hm

theorem next_expired (hS : Sound c) (hlt : h.serial < c.shared.size) (hl : calls h l = false)
    (hn : signal.next c l = some c') (hh : held h c = false) : held h c' = false := by
  simp only [held, Bool.or_eq_false_iff, decide_eq_false_iff_not, Nat.not_lt, Nat.le_zero] at hh ⊢
  obtain ⟨hh, h0⟩ := hh
  refine ⟨next_handlers hlt hn hh, ?_⟩
  unfold owners at h0 ⊢
  rcases next_pool hn with ⟨-, -, hp⟩ | ⟨-, -, f, hf, hp⟩ | ⟨f, fs, F, -, hF, hm, hp⟩
  · rw [hp]
    exact h0
  · rw [hp, weigh_cons, (starts_weights ⟨_, hf⟩ (frame_ne hl hf)).2, h0]
  · have hW := hS.walking
    rw [hF] at h0 hW
    rw [hp]
    exact moves_pointers hW hm hh h0

theorem next_connected (h0 : inProgress h c = 0) (hn : signal.next c l = some c') (hh : h ∈ c.shared.handlers) :
    h ∈ c'.shared.handlers := by
  rcases next_pool hn with ⟨-, ⟨q, hs⟩, hp⟩ | ⟨-, hs, f, hf, hp⟩ | ⟨f, fs, F, -, hF, hm, hp⟩
  · rw [hs]
    exact hh
  · rw [hs]
    exact hh
  · unfold inProgress at h0
    rw [hF, weigh_cons] at h0
    exact moves_keep hm (Nat.eq_zero_of_add_eq_zero_right h0) hh

end

/-! ## The calls on the copies -/

section
variable {h : HandlerId} {n : Nat} {c c' : Config (Shared α) Empty} {l : Label (Label (Choice α))}

/-- Where a step of the copies comes from. -/
inductive Steps (h : HandlerId) (n : Nat) (s : Shared α) (l : Label (Choice α)) : Shared α → Prop
  | disconnected (c : Config (Signal.Shared α) (Thread α)) : calls h l = true → s.unused ≠ 0 →
    held h s.signal = true → signal.next s.signal l = some c →
    Steps h n s l { s with signal := c, unused := s.unused - 1, succeeded := s.succeeded + 1 }
  | expired : calls h l = true → s.unused ≠ 0 → held h s.signal = false →
    Steps h n s l { s with unused := s.unused - 1, failed := s.failed + 1 }
  | other (c : Config (Signal.Shared α) (Thread α)) : calls h l = false → signal.next s.signal l = some c →
    Steps h n s l (s.after h n c)

theorem next_steps (hn : (copies h n).next c l = some c') :
    ∃ k, l = .call k ∧ Steps h n c.shared k c'.shared := by
  cases l with
  | act i e =>
    obtain ⟨t, -⟩ := Program.next_act hn
    exact t.elim
  | call k =>
    refine ⟨k, rfl, ?_⟩
    obtain ⟨s', new, hc, rfl⟩ := Program.next_call hn
    simp only [copies, Option.map_eq_some_iff, Prod.mk.injEq] at hc
    obtain ⟨s, hc, rfl, -⟩ := hc
    by_cases hk : calls h k = true
    · rw [if_pos hk, Shared.disconnect] at hc
      by_cases hu : c.shared.unused = 0
      · rw [if_pos hu] at hc
        cases hc
      rw [if_neg hu] at hc
      by_cases hh : held h c.shared.signal = true
      · rw [if_pos hh, Option.map_eq_some_iff] at hc
        obtain ⟨d, hd, rfl⟩ := hc
        exact .disconnected d hk hu hh hd
      · rw [if_neg hh] at hc
        cases hc
        exact .expired hk hu (by simpa using hh)
    · rw [if_neg hk, Option.map_eq_some_iff] at hc
      obtain ⟨d, hd, rfl⟩ := hc
      exact .other d (by simpa using hk) hd

/-- The invariant of the runs whose steps are all `sole`. -/
structure Counted (h : HandlerId) (s : Shared α) : Prop where
  sound : Sound s.signal
  balance : s.succeeded = s.returned + inProgress h s.signal
  made : 0 < s.unused + s.succeeded + s.failed → h.serial < s.signal.shared.size
  connected : 0 < s.unused → s.succeeded = 0 → h ∈ s.signal.shared.handlers
  failed : 0 < s.failed → 0 < s.succeeded
  exact : Exact h s

theorem initial_counted (h : HandlerId) : Counted h (initial (α := α)).shared :=
  ⟨⟨initial_inv, fun _ hf => absurd hf (Multiset.notMem_zero _), fun _ hf => absurd hf (Multiset.notMem_zero _)⟩,
    rfl, by simp [initial], by simp [initial], by simp [initial], by simp [initial], by simp [initial]⟩

theorem held_of_connected {c : Config (Signal.Shared α) (Thread α)} (hh : h ∈ c.shared.handlers) : held h c = true := by
  simp [held, hh]

theorem held_of_owned {c : Config (Signal.Shared α) (Thread α)} (hh : 0 < owners h c) : held h c = true := by
  simp [held, hh]

theorem inProgress_le_owners (c : Config (Signal.Shared α) (Thread α)) : inProgress h c ≤ owners h c :=
  Multiset.sum_map_le_sum_map _ _ fun f _ => disconnects_le_pointers f

theorem after_unused {s : Shared α} {d : Config (Signal.Shared α) (Thread α)} {k : Label (Choice α)}
    (hlt : h.serial < s.signal.shared.size) (hn : signal.next s.signal k = some d) :
    (s.after h n d).unused = s.unused := by
  refine if_neg ?_
  rintro ⟨hh, hd⟩
  exact next_handlers hlt hn hh hd

section
variable {s : Shared α} {d : Config (Signal.Shared α) (Thread α)} {k : Label (Choice α)}

theorem Counted.disconnected (hI : Counted h s) (hk : calls h k = true) (hu : s.unused ≠ 0)
    (hh : held h s.signal = true) (h0 : inProgress h s.signal = 0) (hd : signal.next s.signal k = some d) :
    Counted h { s with signal := d, unused := s.unused - 1, succeeded := s.succeeded + 1 } := by
  have hbal := hI.balance
  have hret : s.returned = 0 := by
    refine Nat.eq_zero_of_not_pos fun hpos => ?_
    rcases hI.exact.disconnected hpos with h | h
    · exact hu h
    · rw [h] at hh
      cases hh
  obtain ⟨hsh, hpool⟩ := next_disconnect hk hd
  have hone : inProgress h d = 1 := by
    unfold inProgress at h0 ⊢
    rw [hpool, weigh_cons, h0]
    simp [disconnects]
  refine ⟨sound_next hI.sound hd, ?_, fun _ => ?_, fun _ h => ?_, fun _ => Nat.succ_pos _, fun _ => ?_, fun h => ?_⟩
  · simp only [hone]
    omega
  · rw [hsh]
    exact hI.made (by omega)
  · cases h
  · simp only [hbal, hret, h0]
  · exact absurd hret (Nat.ne_of_gt h)

theorem Counted.expired (hI : Counted h s) (hu : s.unused ≠ 0) (hh : held h s.signal = false) :
    Counted h { s with unused := s.unused - 1, failed := s.failed + 1 } := by
  have hpos : 0 < s.succeeded := by
    refine Nat.pos_of_ne_zero fun h => ?_
    rw [held_of_connected (hI.connected (Nat.pos_of_ne_zero hu) h)] at hh
    cases hh
  refine ⟨hI.sound, hI.balance, fun _ => hI.made (by omega), fun _ h => absurd h (Nat.ne_of_gt hpos), fun _ => hpos,
    fun _ => ?_, fun _ => Or.inr hh⟩
  exact hI.exact.once (by omega)

theorem Counted.kept (hI : Counted h s) (hlt : h.serial < s.signal.shared.size) (hk : calls h k = false)
    (hd : signal.next s.signal k = some d) (heq : inProgress h d = inProgress h s.signal) :
    Counted h (s.after h n d) := by
  have hbal := hI.balance
  have hunused := after_unused (n := n) hlt hd
  have hret : (s.after h n d).returned = s.returned := by simp [Shared.after, heq]
  refine ⟨sound_next hI.sound hd, by rw [hret]; simpa [Shared.after, heq] using hbal,
    fun _ => Nat.lt_of_lt_of_le hlt (next_size hd), fun hu hz => ?_, hI.failed, hI.exact.once, fun hpos => ?_⟩
  · rw [hunused] at hu
    change s.succeeded = 0 at hz
    have h0 : inProgress h s.signal = 0 := by omega
    exact next_connected h0 hd (hI.connected hu hz)
  · rw [hret] at hpos
    rw [hunused]
    exact (hI.exact.disconnected hpos).imp_right fun hh => next_expired hI.sound hlt hk hd hh

theorem Counted.returned (hI : Counted h s) (hlt : h.serial < s.signal.shared.size)
    (hd : signal.next s.signal k = some d) (hprog : inProgress h d + 1 = inProgress h s.signal)
    (howners : owners h d + 1 = owners h s.signal) (hnot : h ∉ d.shared.handlers)
    (hC : s.unused = 0 ∨ owners h s.signal = 1) : Counted h (s.after h n d) := by
  have hbal := hI.balance
  have hret : (s.after h n d).returned = s.returned + 1 := by
    simp only [Shared.after]
    omega
  have hsucc : 0 < s.succeeded := by omega
  refine ⟨sound_next hI.sound hd, ?_, fun _ => Nat.lt_of_lt_of_le hlt (next_size hd),
    fun _ h => absurd h (Nat.ne_of_gt hsucc), fun _ => hsucc, hI.exact.once, fun _ => ?_⟩
  · rw [hret]
    change s.succeeded = _ + inProgress h d
    omega
  · rw [after_unused hlt hd]
    refine hC.imp_right fun hone => ?_
    have h0 : owners h d = 0 := by omega
    simp [Shared.after, held, hnot, h0]

/-- Before the handler has been made, only its own `connect` changes anything. -/
theorem Counted.unmade (hI : Counted h s) (hlt : ¬ h.serial < s.signal.shared.size) (hk : calls h k = false)
    (hd : signal.next s.signal k = some d) : Counted h (s.after h n d) := by
  have hbal := hI.balance
  have hS' := sound_next hI.sound hd
  have hzero : s.unused + s.succeeded + s.failed = 0 := Nat.eq_zero_of_not_pos fun hpos => hlt (hI.made hpos)
  have h0 : inProgress h s.signal = 0 := by omega
  have h0' : inProgress h d = 0 := by
    rcases next_inProgress hI.sound hk hd with heq | ⟨heq, -⟩ <;> omega
  have hret : (s.after h n d).returned = 0 := by
    simp only [Shared.after]
    omega
  have hsucc : (s.after h n d).succeeded = 0 := by
    change s.succeeded = 0
    omega
  have hfail : (s.after h n d).failed = 0 := by
    change s.failed = 0
    omega
  have hhand : 0 < (s.after h n d).unused → h ∈ d.shared.handlers := by
    intro hu
    by_cases hc : h ∉ s.signal.shared.handlers ∧ h ∈ d.shared.handlers
    · exact hc.2
    · simp only [Shared.after, if_neg hc] at hu
      omega
  refine ⟨hS', ?_, fun hu => ?_, fun hu _ => hhand hu, fun h => ?_, fun h => ?_, fun h => ?_⟩
  · rw [hsucc, hret, Nat.zero_add]
    exact h0'.symm
  · exact hS'.inv.made.listed h (hhand (by omega))
  all_goals omega

end

theorem counted_step {s' : Shared α} {k : Label (Choice α)} (hI : Counted h c.shared) (hC : sole h c (.call k) = true)
    (hs : Steps h n c.shared k s') : Counted h s' := by
  cases hs with
  | disconnected d hk hu hh hd => exact hI.disconnected hk hu hh (by simpa [sole, hk] using hC) hd
  | expired hk hu hh => exact hI.expired hu hh
  | other d hk hd =>
    by_cases hlt : h.serial < c.shared.signal.shared.size
    · rcases next_inProgress hI.sound hk hd with heq | ⟨hprog, howners, hnot⟩
      · exact hI.kept hlt hk hd heq
      · have hret : returns h c.shared k = true := by
          simp only [returns, hd, Option.any_some, decide_eq_true_eq]
          omega
        have hC : c.shared.unused = 0 ∨ owners h c.shared.signal = 1 := by simpa [sole, hk, hret] using hC
        exact hI.returned hlt hd hprog howners hnot hC
    · exact hI.unmade hlt hk hd

theorem counted_bad {s' : Shared α} {k : Label (Choice α)} (hI : Counted h c.shared) (hC : ¬ sole h c (.call k) = true)
    (hs : Steps h n c.shared k s') : ¬ Exact h s' := by
  have hS := hI.sound
  have hbal := hI.balance
  have hle := inProgress_le_owners (h := h) c.shared.signal
  intro hE
  cases hs with
  | disconnected d hk hu hh hd =>
    have h0 : inProgress h c.shared.signal ≠ 0 := by simpa [sole, hk] using hC
    have := hE.once (by simp only; omega)
    simp only at this
    omega
  | expired hk hu hh =>
    have h0 : inProgress h c.shared.signal ≠ 0 := by simpa [sole, hk] using hC
    rw [held_of_owned (by omega)] at hh
    cases hh
  | other d hk hd =>
    simp only [sole, hk, Bool.false_eq_true, if_false, Bool.or_eq_true, Bool.not_eq_true', decide_eq_true_eq, not_or,
      Bool.not_eq_false] at hC
    obtain ⟨⟨hret, hu⟩, hown⟩ := hC
    simp only [returns, hd, Option.any_some, decide_eq_true_eq] at hret
    have hlt := hI.made (by omega)
    rcases next_inProgress hS hk hd with heq | ⟨hprog, howners, hnot⟩
    · omega
    · rcases hE.disconnected (by simp only [Shared.after]; omega) with h0 | h0
      · rw [after_unused hlt hd] at h0
        exact hu h0
      · have : held h d = false := h0
        rw [held_of_owned (by omega)] at this
        cases this

end

/-- **Copies.** One `disconnect` succeeds, and no copy is connected after it, in the
runs in which each of the calls is the `sole` one, and in no others. -/
theorem run_exact_iff {n : Nat} {h : HandlerId} {tr : List (Config (Shared α) Empty × Label (Label (Choice α)))}
    {c : Config (Shared α) Empty} (hr : (copies h n).Run initial tr c) :
    Program.Along (fun c l => sole h c l = true) tr ↔ (∀ p ∈ tr, Exact h p.1.shared) ∧ Exact h c.shared := by
  refine hr.along_iff (I := fun c => Counted h c.shared) (initial_counted h)
    (fun c l c' hI hC hn => ?_) (fun c hI => hI.exact) (fun c l c' hI hC hn => ?_)
  · obtain ⟨k, rfl, hs⟩ := next_steps hn
    exact counted_step hI hC hs
  · obtain ⟨k, rfl, hs⟩ := next_steps hn
    exact counted_bad hI hC hs

def handler : HandlerId := ⟨.singleUpdates, 0⟩

/-- An invocation is queued when the handler is disconnected through the first of two copies, and then through the other. -/
def whileQueued : List (Label (Label (Choice Nat))) :=
  (Label.call (Choice.connect .singleUpdates) :: List.replicate 2 (Label.act 0 Choice.step) ++
    Label.call (Choice.emit 1) :: List.replicate 4 (Label.act 1 Choice.step) ++
    Label.call (Choice.disconnect handler) :: List.replicate 4 (Label.act 2 Choice.step) ++
    [Label.call (Choice.disconnect handler)]).map Label.call

theorem whileQueued_not_exact : ∃ tr, ∃ c : Config (Shared Nat) Empty,
    (copies handler 2).Run initial tr c ∧ ¬ Exact handler c.shared := by
  refine ⟨_, _, Program.run_last (l := whileQueued) (by decide), fun hE => ?_⟩
  exact absurd (hE.once (by decide)) (by decide)

/-- The invocation has run, and its closure been destroyed, when the first copy is disconnected. -/
def afterInvocation : List (Label (Label (Choice Nat))) :=
  (Label.call (Choice.connect .singleUpdates) :: List.replicate 2 (Label.act 0 Choice.step) ++
    Label.call (Choice.emit 1) :: List.replicate 4 (Label.act 1 Choice.step) ++
    Label.call (Choice.run 0) :: List.replicate 4 (Label.act 2 Choice.step) ++
    Label.call (Choice.disconnect handler) :: List.replicate 4 (Label.act 3 Choice.step) ++
    [Label.call (Choice.disconnect handler)]).map Label.call

theorem run_exact_iff_afterInvocation :
    Program.Along (fun c l => sole handler c l = true) ((copies handler 2).path initial afterInvocation) ↔
      (∀ p ∈ (copies handler 2).path initial afterInvocation, Exact handler p.1.shared) ∧
        Exact handler ((copies handler 2).last initial afterInvocation).shared :=
  run_exact_iff (Program.run_last (by decide))

end Xdispatch.Signal.Copies
