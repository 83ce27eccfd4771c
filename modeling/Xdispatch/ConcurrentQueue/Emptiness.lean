import Xdispatch.ConcurrentQueue.Delivery

/-!
# An empty queue

Calls of `try_dequeue` can get into each other's way: one that has counted itself
and has still to decide makes the others see fewer elements than there are. A
call that no other one overlaps reports an empty queue only if all that had been
published when it began had been taken.
-/

namespace Xdispatch.ConcurrentQueue

variable {α : Type}

/-- What every state keeps; `l` is the list of the producers. -/
structure Kept (c : Config (Shared α) (Thread α)) (l : List Nat) : Prop where
  calls : Calls c
  listed : Listed c l
  balanced : ∀ p, Balanced c p
  published : ∀ p, 0 < (c.shared.producers p).tailIndex → p ∈ l

section
variable {c : Config (Shared α) (Thread α)} {l : List Nat} {s' : Shared α} {i p : Nat} {t t' : Thread α}

theorem mem_publishing (hL : Listed c l) (ht : t ∈ c.threads) (hp : t.publishing p = 1) : p ∈ l := by
  have hf := hL.fits t ht
  cases t with
  | dequeue => cases hp
  | enqueue id a ph =>
    cases ph with
    | publish q =>
      simp only [Thread.publishing] at hp
      split at hp
      · next h => exact h ▸ hf.1
      · cases hp
    | _ => cases hp

theorem Attempt.act_tail (s : Shared α) (q : Nat) (b : Attempt) (p : Nat) :
    ((b.act s q).1.producers p).tailIndex = (s.producers p).tailIndex :=
  b.act_same Producer.tailIndex (fun _ _ _ _ => rfl) s q p

theorem Kept.act (hK : Kept c l) (hi : c.threads[i]? = some t) (hm : Moves c.shared t s' t') :
    ∃ l', l <:+ l' ∧ Kept ⟨s', c.threads.set i t' ++ []⟩ l' := by
  have ht := Family.mem_of_get hi
  obtain ⟨l', hl, hL'⟩ := hK.listed.act hK.calls hi hm
  refine ⟨l', hl, hK.calls.act hi hm, hL', fun p => (hK.balanced p).act hi ?_ (hm.at p), fun p hp => hl.subset ?_⟩
  · rintro rfl u hu
    exact hK.listed.free hu
  · cases hm.at p with
    | quiet hs =>
      refine hK.published p ?_
      rcases hs with hs | ⟨next, hs⟩ <;> simpa only [hs] using hp
    | attempt _ _ hs =>
      refine hK.published p ?_
      simpa only [hs, Attempt.act_tail] using hp
    | create hs =>
      simp only [hs, Producer.new] at hp
      omega
    | construct hs =>
      refine hK.published p ?_
      simpa only [hs] using hp
    | publish _ _ _ hpub => exact mem_publishing hK.listed ht hpub

theorem Kept.call (hK : Kept c l) {e : Choice α} {new : List (Thread α)}
    (h : ConcurrentQueue.call c.shared e = some (s', new)) : Kept ⟨s', c.threads ++ new⟩ l := by
  refine ⟨hK.calls.call h, hK.listed.call h, fun p => (hK.balanced p).call h, fun p hp => hK.published p ?_⟩
  simpa only [(call_kept h).1] using hp

theorem run_kept {tr : List (Config (Shared α) (Thread α) × Label (Choice α))}
    (h : (concurrentQueue α).Run initial tr c) : ∃ l, Kept c l := by
  refine h.invariant_by (C := fun _ _ => True) (I := fun c => ∃ l, Kept c l) ?_ ?_ ?_ Program.along_true
  · exact ⟨[], calls_initial, listed_initial, fun _ => balanced_initial, fun p hp => by simp [initial, Producer.new] at hp⟩
  · rintro c e s new ⟨l, hK⟩ - hc
    exact ⟨l, hK.call hc⟩
  · rintro c i e t s t' new ⟨l, hK⟩ - ht ha
    obtain ⟨hm, rfl⟩ := act_moves ha
    obtain ⟨l', _, hK'⟩ := hK.act ht hm
    exact ⟨l', hK'⟩

end

/-! ## What a call by itself has seen -/

/-- `first` is what had been published at each producer when the call began. -/
def Drained (first : Nat → Nat) (s : Shared α) (p : Nat) : Prop := first p ≤ (s.producers p).headIndex

def Attempt.Sees (first : Nat → Nat) (s : Shared α) (p : Nat) : Attempt → Prop
  | .loadTail | .claim | .move _ => True
  | .loadOvercommit tail => first p ≤ tail ∧ tail ≤ (s.producers p).tailIndex
  | .loadOptimistic tail k =>
    (first p ≤ tail ∧ tail ≤ (s.producers p).tailIndex) ∧ k = (s.producers p).dequeueOvercommit
  | .increment k => k = (s.producers p).dequeueOvercommit ∧ (s.producers p).headIndex < (s.producers p).tailIndex
  | .reloadTail k count => count - k < (s.producers p).tailIndex
  | .overcommit => False

/-- What is not drained is among those from `ptr` on. -/
def Covers (first : Nat → Nat) (s : Shared α) (l : List Nat) (ptr : Option Nat) : Prop :=
  ∃ m, Linked (fun p => (s.producers p).next) ptr m ∧ m ⊆ l ∧ ∀ q, Drained first s q ∨ q ∈ m

def Scores.Sees (first : Nat → Nat) (s : Shared α) (l : List Nat) (ptr : Option Nat) (sc : Scores) : Prop :=
  (sc.nonEmptyCount = 0 → Covers first s l ptr) ∧ (sc.best = none → sc.bestSize = 0 ∧ sc.nonEmptyCount = 0)

def DequeuePhase.Sees (first : Nat → Nat) (s : Shared α) (l : List Nat) : DequeuePhase α → Prop
  | .loadList | .returned (some _) => True
  | .sizeTail p sc => sc.Sees first s l (some p)
  | .sizeHead p sc tail => first p ≤ tail ∧ sc.Sees first s l (some p)
  | .tryBest p b => b.Sees first s p
  | .loadAgain best => Drained first s best
  | .visit best ptr => Drained first s best ∧ Covers first s l ptr
  | .tryOther best p b => (Drained first s best ∧ Covers first s l (some p)) ∧ b.Sees first s p
  | .returned none => ∀ q, Drained first s q

section
variable {c : Config (Shared α) (Thread α)} {l l' : List Nat} {s s' : Shared α} {first head : Nat → Nat} {i p : Nat}
  {ptr : Option Nat} {t t' : Thread α} {b b' : Attempt} {sc : Scores}

/-- The list keeps its links, and what is drained stays so. -/
structure Later (first : Nat → Nat) (s : Shared α) (l : List Nat) (s' : Shared α) : Prop where
  next : ∀ p ∈ l, (s'.producers p).next = (s.producers p).next
  drained : ∀ p, Drained first s p → Drained first s' p

theorem Covers.later (h : Covers first s l ptr) (hs : Later first s l s') (hl : l ⊆ l') : Covers first s' l' ptr := by
  obtain ⟨m, hm, hml, hd⟩ := h
  exact ⟨m, hm.congr fun p hp => hs.next p (hml hp), List.Subset.trans hml hl, fun q => (hd q).imp (hs.drained q) fun h => h⟩

theorem Attempt.act_head (s : Shared α) (q : Nat) (b : Attempt) (p : Nat) :
    (s.producers p).headIndex ≤ ((b.act s q).1.producers p).headIndex := by
  cases b with
  | claim =>
    simp only [Attempt.act, Shared.modify, Function.update_apply]
    split
    · next h =>
      subst h
      exact Nat.le_succ _
    · exact Nat.le_refl _
  | increment | overcommit =>
    refine Nat.le_of_eq (Eq.symm ?_)
    simp only [Attempt.act]
    apply modify_same Producer.headIndex
    rfl
  | _ => exact Nat.le_refl _

theorem Attempt.act_later (first : Nat → Nat) (l : List Nat) (s : Shared α) (q : Nat) (b : Attempt) :
    Later first s l (b.act s q).1 :=
  ⟨fun p _ => b.act_next s q p, fun p h => h.trans (b.act_head s q p)⟩

/-- A call whose attempt weighs nothing, alone at its producer, finds the counters in balance. -/
def InBalance (s : Shared α) (p : Nat) (b : Attempt) : Prop :=
  b.undecided + b.claiming + b.failing = 0 →
    (s.producers p).dequeueOptimisticCount = (s.producers p).headIndex + (s.producers p).dequeueOvercommit

theorem Attempt.sees_next (hb : b.Sees first s p) (hfirst : first p ≤ (s.producers p).tailIndex)
    (hbal : InBalance s p b) (h : (b.act s p).2 = .inl b') : b'.Sees first (b.act s p).1 p := by
  cases b with
  | loadTail =>
    cases h
    exact ⟨hfirst, Nat.le_refl _⟩
  | loadOvercommit =>
    cases h
    exact ⟨hb, rfl⟩
  | loadOptimistic tail k =>
    have hbal := hbal rfl
    simp only [Attempt.act] at h
    split at h
    · next hlt =>
      cases h
      obtain ⟨⟨_, htail⟩, rfl⟩ := hb
      refine ⟨rfl, ?_⟩
      simp only [Attempt.act]
      omega
    · cases h
  | increment k =>
    have hbal := hbal rfl
    cases h
    obtain ⟨rfl, hlt⟩ := hb
    simp only [Attempt.Sees, Attempt.act, Shared.modify, Function.update_self]
    omega
  | reloadTail k count =>
    simp only [Attempt.act, if_pos (show count - k < (s.producers p).tailIndex from hb)] at h
    cases h
    trivial
  | claim =>
    cases h
    trivial
  | overcommit => exact hb.elim
  | move => cases h

theorem Attempt.sees_failed (hb : b.Sees first s p) (hbal : InBalance s p b) (h : (b.act s p).2 = .inr none) :
    Drained first (b.act s p).1 p := by
  cases b with
  | loadOptimistic tail k =>
    have hbal := hbal rfl
    simp only [Attempt.act] at h
    split at h
    · cases h
    · next hge =>
      obtain ⟨⟨hfirst, _⟩, rfl⟩ := hb
      simp only [Drained, Attempt.act]
      omega
  | overcommit => exact hb.elim
  | _ => cases h

theorem Covers.next (h : Covers first s l (some p)) (hd : Drained first s p) : Covers first s l (s.producers p).next := by
  obtain ⟨m, hm, hml, hq⟩ := h
  obtain ⟨m', rfl, hm'⟩ := Linked.linked_some.mp hm
  refine ⟨m', hm', List.Subset.trans (List.subset_cons_self p m') hml, fun q => ?_⟩
  rcases hq q with h | h
  · exact Or.inl h
  · rcases List.mem_cons.mp h with rfl | h
    · exact Or.inl hd
    · exact Or.inr h

theorem Covers.drained (h : Covers first s l none) (q : Nat) : Drained first s q := by
  obtain ⟨m, hm, _, hq⟩ := h
  rw [Linked.linked_none.mp hm] at hq
  exact (hq q).resolve_right (by simp)

theorem Scores.sees_chosen (h : sc.Sees first s l none) : (sc.chosen : DequeuePhase α).Sees first s l := by
  unfold Scores.chosen
  cases hbest : sc.best with
  | none => exact (h.1 (h.2 hbest).2).drained
  | some p =>
    rcases Nat.eq_zero_or_pos sc.nonEmptyCount with h0 | hpos
    · simp only [if_neg (show ¬ 0 < sc.nonEmptyCount by omega)]
      exact (h.1 h0).drained
    · simp only [if_pos hpos]
      trivial

theorem Scores.sees_loop (h : sc.Sees first s l ptr) : (sc.loop ptr : DequeuePhase α).Sees first s l := by
  cases ptr with
  | none => exact sees_chosen h
  | some p =>
    by_cases h3 : sc.nonEmptyCount < 3
    · simp only [Scores.loop, if_pos h3]
      exact h
    · simp only [Scores.loop, if_neg h3]
      exact sees_chosen ⟨fun h0 => by omega, h.2⟩

theorem Scores.sees_add {tail : Nat} (h : sc.Sees first s l (some p)) (hfirst : first p ≤ tail) :
    (sc.add p (Producer.sizeApprox (s.producers p).headIndex tail)).Sees first s l (s.producers p).next := by
  by_cases hlt : (s.producers p).headIndex < tail
  · rw [Producer.sizeApprox, if_pos hlt, Scores.add, if_pos (by omega)]
    refine ⟨fun h0 => absurd h0 (Nat.succ_ne_zero _), fun hbest => ?_⟩
    simp only [] at hbest
    split at hbest
    · cases hbest
    · have := (h.2 hbest).1
      omega
  · have hd : Drained first s p := hfirst.trans (Nat.le_of_not_lt hlt)
    rw [Producer.sizeApprox, if_neg hlt, Scores.add, if_neg (Nat.lt_irrefl 0)]
    exact ⟨fun h0 => (h.1 h0).next hd, h.2⟩

/-- A step of the call itself. -/
theorem DequeuePhase.Moves.sees {ph ph' : DequeuePhase α} (hK : Kept c l) (h : ph.Moves c.shared s' ph')
    (hs : ph.Sees first c.shared l) (hfirst : ∀ p, first p ≤ (c.shared.producers p).tailIndex)
    (hbal : ∀ p b, ph.on p = some b → InBalance c.shared p b) : ph'.Sees first s' l := by
  have hall : Covers first c.shared l c.shared.producerListTail := by
    refine ⟨l, hK.listed.linked, List.Subset.refl l, fun q => ?_⟩
    rcases Nat.eq_zero_or_pos (first q) with h0 | hpos
    · exact Or.inl ((Nat.le_of_eq h0).trans (Nat.zero_le _))
    · exact Or.inr (hK.published q (hpos.trans_le (hfirst q)))
  cases h with
  | loadList => exact Scores.sees_loop ⟨fun _ => hall, fun _ => ⟨rfl, rfl⟩⟩
  | sizeTail => exact ⟨hfirst _, hs⟩
  | sizeHead => exact Scores.sees_loop (Scores.sees_add hs.2 hs.1)
  | tryBest hb => exact Attempt.sees_next hs (hfirst _) (hbal _ _ (if_pos rfl)) hb
  | bestFailed hb => exact Attempt.sees_failed hs (hbal _ _ (if_pos rfl)) hb
  | bestTaken | otherTaken => trivial
  | loadAgain => exact ⟨hs, hall⟩
  | exhausted => exact hs.2.drained
  | skip => exact ⟨hs.1, hs.2.next hs.1⟩
  | visit => exact ⟨hs, trivial⟩
  | @tryOther best p b b' hb =>
    have hl := b.act_later first l c.shared p
    exact ⟨⟨hl.drained _ hs.1.1, hs.1.2.later hl (List.Subset.refl l)⟩,
      Attempt.sees_next hs.2 (hfirst _) (hbal _ _ (if_pos rfl)) hb⟩
  | @otherFailed best p b hb =>
    have hl := b.act_later first l c.shared p
    have hd := Attempt.sees_failed hs.2 (hbal _ _ (if_pos rfl)) hb
    refine ⟨hl.drained _ hs.1.1, ?_⟩
    rw [← b.act_next c.shared p p]
    exact (hs.1.2.later hl (List.Subset.refl l)).next hd

/-! ## Steps of the other threads -/

theorem EnqueuePhase.Moves.next_eq {id : Nat} {a : α} {ph ph' : EnqueuePhase} (hL : Listed c l)
    (hi : c.threads[i]? = some (.enqueue id a ph)) (h : ph.Moves c.shared id a s' ph') (hp : p ∈ l) :
    (s'.producers p).next = (c.shared.producers p).next := by
  cases h with
  | create =>
    have hne : p ≠ c.shared.size := Nat.ne_of_lt (hL.made p hp)
    simp only [Shared.create, Function.update_of_ne hne]
  | @link q prev =>
    have hq := (hL.pushed (p := q) (Family.mem_of_get hi) (by simp [Thread.pushing])).2
    have hne : p ≠ q := fun heq => hq (heq ▸ hp)
    simp only [Shared.modify, Function.update_of_ne hne]
  | @construct q | @publish q =>
    simp only [Shared.modify, Function.update_apply]
    split
    · next h => rw [h]
    · rfl
  | _ => rfl

theorem EnqueuePhase.Moves.counters {id : Nat} {a : α} {ph ph' : EnqueuePhase} (h : ph.Moves s id a s' ph')
    (hp : p ≠ s.size) : (s.producers p).tailIndex ≤ (s'.producers p).tailIndex ∧
      (s'.producers p).headIndex = (s.producers p).headIndex ∧
      (s'.producers p).dequeueOvercommit = (s.producers p).dequeueOvercommit := by
  cases (ConcurrentQueue.Moves.enqueue h).at p with
  | quiet hs => rcases hs with hs | ⟨next, hs⟩ <;> simp [hs]
  | attempt hb => cases hb
  | create _ heq => exact absurd heq hp
  | construct hs => simp [hs]
  | publish hs => simp [hs]

theorem EnqueuePhase.Moves.head_eq {id : Nat} {a : α} {ph ph' : EnqueuePhase} (h : ph.Moves s id a s' ph')
    (h0 : (s.producers s.size).headIndex = 0) (p : Nat) : (s'.producers p).headIndex = (s.producers p).headIndex := by
  by_cases hp : p = s.size
  · cases (ConcurrentQueue.Moves.enqueue h).at p with
    | quiet hs => rcases hs with hs | ⟨next, hs⟩ <;> rw [hs]
    | attempt hb => cases hb
    | create hs =>
      rw [hs, hp, h0]
      rfl
    | construct hs | publish hs => rw [hs]
  · exact (h.counters hp).2.1

theorem Kept.fresh (hK : Kept c l) : (c.shared.producers c.shared.size).tailIndex = 0 := by
  refine (Nat.eq_zero_or_pos _).resolve_right fun hpos => ?_
  exact Nat.lt_irrefl _ (hK.listed.made _ (hK.published _ hpos))

theorem Attempt.Sees.later (h : b.Sees first s p) (htail : (s.producers p).tailIndex ≤ (s'.producers p).tailIndex)
    (hhead : (s'.producers p).headIndex = (s.producers p).headIndex)
    (hover : (s'.producers p).dequeueOvercommit = (s.producers p).dequeueOvercommit) : b.Sees first s' p := by
  cases b with
  | loadOvercommit => exact ⟨h.1, h.2.trans htail⟩
  | loadOptimistic => exact ⟨⟨h.1.1, h.1.2.trans htail⟩, h.2.trans hover.symm⟩
  | increment => exact ⟨h.1.trans hover.symm, hhead.symm ▸ h.2.trans_le htail⟩
  | reloadTail => exact Nat.lt_of_lt_of_le h htail
  | _ => exact h

theorem DequeuePhase.Sees.later {ph : DequeuePhase α} (h : ph.Sees first s l) (hf : ph.Fits l) (hs : Later first s l s')
    (hl : l ⊆ l') (hc : ∀ p ∈ l, (s.producers p).tailIndex ≤ (s'.producers p).tailIndex ∧
      (s'.producers p).headIndex = (s.producers p).headIndex ∧
      (s'.producers p).dequeueOvercommit = (s.producers p).dequeueOvercommit) : ph.Sees first s' l' := by
  have att : ∀ {p : Nat} {b : Attempt}, p ∈ l → b.Sees first s p → b.Sees first s' p := fun hp hb =>
    hb.later (hc _ hp).1 (hc _ hp).2.1 (hc _ hp).2.2
  cases ph with
  | loadList => trivial
  | sizeTail => exact ⟨fun h0 => (h.1 h0).later hs hl, h.2⟩
  | sizeHead => exact ⟨h.1, fun h0 => (h.2.1 h0).later hs hl, h.2.2⟩
  | tryBest => exact att hf h
  | loadAgain => exact hs.drained _ h
  | visit => exact ⟨hs.drained _ h.1, h.2.later hs hl⟩
  | tryOther => exact ⟨⟨hs.drained _ h.1.1, h.1.2.later hs hl⟩, att hf h.2⟩
  | returned r =>
    cases r with
    | none => exact fun q => hs.drained q (h q)
    | some => trivial

/-! ## The run of the call -/

/-- The call has an index, or nothing has been taken since the state with the heads `head`. -/
def DequeuePhase.Took (head : Nat → Nat) (s : Shared α) (ph : DequeuePhase α) : Prop :=
  (∃ p k, ph.on p = some (.move k)) ∨ ∀ p, (s.producers p).headIndex = head p

/-- Thread `i` is in a call of `try_dequeue`, and no other thread is in one. -/
structure Alone (first head : Nat → Nat) (i : Nat) (c : Config (Shared α) (Thread α)) (l : List Nat) : Prop where
  kept : Kept c l
  others : ∀ j ph, j ≠ i → c.threads[j]? = some (.dequeue ph) → ∃ r, ph = .returned r
  sees : ∃ ph, c.threads[i]? = some (.dequeue ph) ∧ ph.Sees first c.shared l ∧ ph.Took head c.shared
  first_le : ∀ p, first p ≤ (c.shared.producers p).tailIndex

theorem Alone.inBalance (hA : Alone first head i c l) {ph : DequeuePhase α} (hi : c.threads[i]? = some (.dequeue ph))
    (hb : ph.on p = some b) : InBalance c.shared p b := by
  intro h0
  have hw : ∀ f : Attempt → Nat, (∀ j, f (.move j) = 0) → calls f p c = f b := by
    intro f hf
    unfold calls
    rw [Family.total_eq_of_others _ hi ?_, weight_some (t := Thread.dequeue ph) hb]
    intro j u hji hj
    cases u with
    | enqueue => rfl
    | dequeue ph' =>
      obtain ⟨r, rfl⟩ := hA.others j ph' hji hj
      cases r with
      | none => rfl
      | some r =>
        simp only [Thread.weight, Thread.on, DequeuePhase.on]
        split
        · exact hf _
        · rfl
  have h1 := hw Attempt.undecided fun _ => rfl
  have h2 := hw Attempt.claiming fun _ => rfl
  have h3 := hw Attempt.failing fun _ => rfl
  have := (hA.kept.balanced p).count
  omega

theorem DequeuePhase.Moves.tail {ph ph' : DequeuePhase α} (h : ph.Moves s s' ph') (p : Nat) :
    (s'.producers p).tailIndex = (s.producers p).tailIndex := by
  cases h <;> first | rfl | exact Attempt.act_tail ..

theorem DequeuePhase.Moves.took {ph ph' : DequeuePhase α} (h : ph.Moves s s' ph') (ht : ph.Took head s) :
    ph'.Took head s' := by
  have quiet : s' = s → (∀ p k, ph.on p ≠ some (.move k)) → ph'.Took head s' := by
    rintro rfl hn
    exact ht.elim (fun ⟨p, k, h⟩ => absurd h (hn p k)) Or.inr
  have attempt : ∀ {q : Nat} {b : Attempt}, (∀ p, ph.on p = if q = p then some b else none) →
      (ph'.on q = b.after s q) → s' = (b.act s q).1 → ph'.Took head s' := by
    rintro q b hon hon' rfl
    by_cases hmove : (∃ k, b.after s q = some (.move k))
    · obtain ⟨k, hk⟩ := hmove
      exact Or.inl ⟨q, k, hon'.trans hk⟩
    · have hh : ∀ p, (s.producers p).headIndex = head p := by
        refine ht.resolve_left ?_
        rintro ⟨p, k, hp⟩
        rw [hon] at hp
        obtain ⟨_, hb⟩ := Option.ite_none_right_eq_some.mp hp
        cases hb
        exact hmove ⟨k, rfl⟩
      refine Or.inr fun p => (Eq.trans ?_ (hh p))
      cases b with
      | claim => exact absurd ⟨_, rfl⟩ hmove
      | increment | overcommit =>
        simp only [Attempt.act]
        apply modify_same Producer.headIndex
        rfl
      | _ => rfl
  cases h with
  | tryBest hb | tryOther hb | bestFailed hb | otherFailed hb | bestTaken hb | otherTaken hb =>
    exact attempt (fun _ => rfl) (by simp [DequeuePhase.on, Attempt.after, hb]) rfl
  | _ => exact quiet rfl fun _ _ h => by cases h

theorem Alone.act (hA : Alone first head i c l) {j : Nat} (hj : c.threads[j]? = some t) (hm : Moves c.shared t s' t') :
    ∃ l', Alone first head i ⟨s', c.threads.set j t' ++ []⟩ l' := by
  obtain ⟨l', hl, hK'⟩ := hA.kept.act hj hm
  obtain ⟨ph, hi, hsees, htook⟩ := hA.sees
  have others : (∀ ph', t' = .dequeue ph' → j = i ∨ ∃ r, ph' = .returned r) → ∀ k ph', k ≠ i →
      (c.threads.set j t' ++ [])[k]? = some (.dequeue ph') → ∃ r, ph' = .returned r := by
    intro ht' k ph' hki hk
    rcases Family.get_cases hk with ⟨rfl, heq⟩ | ⟨_, hk⟩ | ⟨_, _, hk⟩
    · exact (ht' ph' heq.symm).resolve_left hki
    · exact hA.others k ph' hki hk
    · cases hk
  by_cases hji : j = i
  · subst hji
    cases hi.symm.trans hj
    cases hm with
    | @dequeue _ ph' _ h =>
      have hf := h.fits hA.kept.listed (hA.kept.listed.fits _ (Family.mem_of_get hi))
      have h' := h.sees hA.kept hsees hA.first_le fun p b hb => hA.inBalance hi hb
      refine ⟨l', hK', others fun _ _ => Or.inl rfl, ⟨ph', Family.get_step hi _ _, ?_, h.took htook⟩, fun p => ?_⟩
      · exact h'.later hf ⟨fun _ _ => rfl, fun _ hd => hd⟩ hl.subset fun _ _ => ⟨Nat.le_refl _, rfl, rfl⟩
      · simp only [h.tail]
        exact hA.first_le p
  · cases hm with
    | dequeue h =>
      obtain ⟨r, rfl⟩ := hA.others j _ hji hj
      cases h
    | @enqueue id a _ _ _ h =>
      have hcount := fun p hp => h.counters (p := p) hp
      have hfirst : first c.shared.size = 0 := Nat.le_zero.mp (hA.kept.fresh ▸ hA.first_le _)
      have hne : ∀ p ∈ l, p ≠ c.shared.size := fun p hp => Nat.ne_of_lt (hA.kept.listed.made p hp)
      have hlater : Later first c.shared l s' := by
        refine ⟨fun p hp => h.next_eq hA.kept.listed hj hp, fun p hd => ?_⟩
        by_cases hp : p = c.shared.size
        · rw [Drained, hp, hfirst]
          exact Nat.zero_le _
        · rw [Drained, (hcount p hp).2.1]
          exact hd
      refine ⟨l', hK', others (by simp), ⟨ph, Family.get_step_of_ne hi hji _ _, ?_, ?_⟩, fun p => ?_⟩
      · exact hsees.later (hA.kept.listed.fits _ (Family.mem_of_get hi)) hlater hl.subset fun p hp => hcount p (hne p hp)
      · have h0 := (hA.kept.balanced c.shared.size).head_le
        rw [hA.kept.fresh] at h0
        exact htook.imp_right fun hh p => (h.head_eq (by omega) p).trans (hh p)
      · by_cases hp : p = c.shared.size
        · rw [hp, hfirst]
          exact Nat.zero_le _
        · exact (hA.first_le p).trans (hcount p hp).1

theorem Alone.call (hA : Alone first head i c l) {e : Choice α} {new : List (Thread α)} (he : e ≠ .dequeue)
    (h : ConcurrentQueue.call c.shared e = some (s', new)) : Alone first head i ⟨s', c.threads ++ new⟩ l := by
  have hK' := hA.kept.call h
  obtain ⟨ph, hi, hsees, htook⟩ := hA.sees
  cases e with
  | enqueue id a =>
    simp only [ConcurrentQueue.call, Option.ite_none_left_eq_some] at h
    obtain ⟨-, h⟩ := h
    cases h
    refine ⟨hK', fun j ph' hji hj => ?_, ⟨ph, Family.get_append hi _, ?_, htook⟩, hA.first_le⟩
    · rcases Nat.lt_or_ge j c.threads.length with hlt | hge
      · rw [List.getElem?_append_left hlt] at hj
        exact hA.others j ph' hji hj
      · rw [List.getElem?_append_right hge, List.getElem?_singleton] at hj
        cases (Option.ite_none_right_eq_some.mp hj).2
    · exact hsees.later (hA.kept.listed.fits _ (Family.mem_of_get hi)) ⟨fun _ _ => rfl, fun _ hd => hd⟩
        (List.Subset.refl l) fun _ _ => ⟨Nat.le_refl _, rfl, rfl⟩
  | dequeue => exact absurd rfl he
  | step | spurious => cases h

/-- A call of `try_dequeue` that has not returned. -/
def Thread.dequeuing : Thread α → Bool
  | .dequeue (.returned _) | .enqueue .. => false
  | .dequeue _ => true

def startsDequeue : Label (Choice α) → Bool
  | .call .dequeue => true
  | _ => false

theorem alone_called {c₁ : Config (Shared α) (Thread α)} (hK : Kept c l) (hidle : ∀ t ∈ c.threads, t.dequeuing = false)
    (hc : (concurrentQueue α).next c (.call .dequeue) = some c₁) :
    Alone (fun p => (c.shared.producers p).tailIndex) (fun p => (c.shared.producers p).headIndex) c.threads.length c₁ l := by
  obtain ⟨s, new, hcall, rfl⟩ := Program.next_call hc
  have hK' := hK.call (e := .dequeue) hcall
  cases hcall
  refine ⟨hK', fun j ph hj hjt => ?_, ⟨.loadList, List.getElem?_concat_length, trivial, Or.inr fun _ => rfl⟩,
    fun _ => Nat.le_refl _⟩
  rcases Nat.lt_or_ge j c.threads.length with hlt | hge
  · rw [List.getElem?_append_left hlt] at hjt
    have := hidle _ (List.mem_of_getElem? hjt)
    cases ph with
    | returned r => exact ⟨r, rfl⟩
    | _ => cases this
  · rw [List.getElem?_append_right hge, List.getElem?_singleton] at hjt
    have := (Option.ite_none_right_eq_some.mp hjt).1
    omega

/-- A call of `try_dequeue` that no other one overlaps reports an empty queue only if every element
that had been published when it began had been taken. -/
theorem run_empty {c₁ c' : Config (Shared α) (Thread α)} {tr tr' : List (Config (Shared α) (Thread α) × Label (Choice α))}
    (h : (concurrentQueue α).Run initial tr c) (hidle : ∀ t ∈ c.threads, t.dequeuing = false)
    (hc : (concurrentQueue α).next c (.call .dequeue) = some c₁) (h' : (concurrentQueue α).Run c₁ tr' c')
    (hno : ∀ q ∈ tr', startsDequeue q.2 = false)
    (hr : c'.threads[c.threads.length]? = some (.dequeue (.returned none))) (p : Nat) :
    (c.shared.producers p).headIndex = (c.shared.producers p).tailIndex := by
  obtain ⟨l, hK⟩ := run_kept h
  have hend : ∃ l, Alone (fun p => (c.shared.producers p).tailIndex) (fun p => (c.shared.producers p).headIndex)
      c.threads.length c' l := by
    refine h'.invariant_by (C := fun _ k => startsDequeue k = false) (I := fun c' => ∃ l, Alone _ _ _ c' l)
      ⟨l, alone_called hK hidle hc⟩ ?_ ?_ hno
    · rintro d e s new ⟨l, hA⟩ hd hcall
      refine ⟨l, hA.call ?_ hcall⟩
      rintro rfl
      cases hd
    · rintro d i e t s t' new ⟨l, hA⟩ - ht ha
      obtain ⟨hm, rfl⟩ := act_moves ha
      exact hA.act ht hm
  obtain ⟨l', hA⟩ := hend
  obtain ⟨ph, hph, hsees, htook⟩ := hA.sees
  cases hr.symm.trans hph
  have hhead : (c'.shared.producers p).headIndex = (c.shared.producers p).headIndex := by
    refine htook.resolve_left ?_ p
    rintro ⟨q, k, hq⟩
    cases hq
  have hdrained : (c.shared.producers p).tailIndex ≤ (c'.shared.producers p).headIndex := hsees p
  have := (hK.balanced p).head_le
  omega

theorem run_empty_taken : (taken.shared.producers 0).headIndex = (taken.shared.producers 0).tailIndex := by
  have hrun : (concurrentQueue Nat).Run initial _ taken := Program.run_last rfl
  have hagain : (concurrentQueue Nat).Run ⟨taken.shared, taken.threads ++ [.dequeue .loadList]⟩ _ _ :=
    Program.run_last (l := List.replicate 3 (.act 2 .step)) rfl
  exact run_empty hrun (by decide) rfl hagain (by decide) rfl 0

end

end Xdispatch.ConcurrentQueue
