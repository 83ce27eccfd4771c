import Xdispatch.FreeList.Nodes

/-!
# Nodes of one owner

Whatever `add` and `try_get` do to each other, a node is handed out to one caller
at a time, and none is lost.
-/

namespace Xdispatch.FreeList

section
variable {c : Config Shared Thread} {l : List Nat} {flag : Nat → Nat} {s' : Shared} {n : Nat} {u : Thread}

theorem total_call (f : Share → Nat) (n : Nat) :
    total f n ⟨s', c.threads ++ [u]⟩ = total f n c + f (u.share n) := by
  simp [total]

theorem Kept.call (hK : Kept c l flag) {e : Choice} {new : List Thread} (h : FreeList.call c.shared e = some (s', new)) :
    Kept ⟨s', c.threads ++ new⟩ l flag := by
  cases e with
  | step => cases h
  | tryGet =>
    cases h
    refine ⟨hK.linked, fun n => ?_, Family.forall_append hK.fits (by simp [Thread.Fits]), hK.asserted⟩
    simp only [node, total_call, (at_of_none rfl : Thread.loadHead.At n ⟨0, 0, 0⟩).share, Nat.add_zero]
    exact hK.nodes n
  | add m =>
    simp only [FreeList.call, Option.ite_none_right_eq_some] at h
    obtain ⟨howned, h⟩ := h
    cases h
    refine ⟨hK.linked, fun n => ?_,
      Family.forall_append (fun t ht => (hK.fits t ht).congr rfl) (by simp [Thread.Fits]), hK.asserted⟩
    have hat : (Thread.add m).At m ⟨0, 1, 0⟩ := at_of_holds rfl
    by_cases hn : n = m
    · subst hn
      obtain ⟨h1, h2, h3, h4, h5⟩ := hK.nodes n
      simp only [node, total_call, hat.share, Function.update_self, Bool.toNat_false, Nat.add_zero]
      simp only [node, howned, Bool.toNat_true] at *
      constructor <;> simp only [] <;> omega
    · simp only [node, total_call, hat.others n hn, Function.update_of_ne hn, Nat.add_zero]
      exact hK.nodes n

theorem kept_initial : Kept initial [] fun _ => 0 :=
  ⟨rfl, fun n => by constructor <;> simp [node, initial, total], by simp [initial], rfl⟩

theorem run_kept {tr : List (Config Shared Thread × Label Choice)} (h : freeList.Run initial tr c)
    (hfew : Program.Along (fun c _ => inProgress c < 0x3fffffff) tr) : ∃ l flag, Kept c l flag := by
  refine h.invariant_by (C := fun c _ => inProgress c < 0x3fffffff) (I := fun c => ∃ l flag, Kept c l flag)
    ⟨[], _, kept_initial⟩ ?_ ?_ hfew
  · rintro c e s new ⟨l, flag, hK⟩ - hc
    exact ⟨l, flag, hK.call hc⟩
  · rintro c i e t s t' new ⟨l, flag, hK⟩ hfew ht ha
    exact hK.act hfew ht ha

theorem act_new {t t' : Thread} {e : Choice} {new : List Thread} {s : Shared} (h : act s t e = some (s', t', new)) :
    new = [] := by
  unfold act at h
  split at h
  case h_5 | h_7 => split at h <;> cases h <;> rfl
  all_goals
    cases h
    try rfl

theorem pending_le (t : Thread) : t.pending ≤ 1 := by
  cases t <;> simp [Thread.pending]

theorem next_inProgress {c' : Config Shared Thread} {e : Label Choice} (h : freeList.next c e = some c') :
    inProgress c' ≤ inProgress c + 1 := by
  unfold inProgress
  cases e with
  | call e =>
    obtain ⟨s, new, hc, rfl⟩ := Program.next_call h
    have hnew : ∃ u, new = [u] := by
      cases e with
      | step => cases hc
      | tryGet =>
        cases hc
        exact ⟨_, rfl⟩
      | add n =>
        simp only [freeList, FreeList.call, Option.ite_none_right_eq_some] at hc
        obtain ⟨-, hc⟩ := hc
        cases hc
        exact ⟨_, rfl⟩
    obtain ⟨u, rfl⟩ := hnew
    rw [Family.total_append, Family.total_cons, Family.total_nil]
    exact Nat.add_le_add_left (pending_le u) _
  | act i e =>
    obtain ⟨t, s, t', new, ht, ha, rfl⟩ := Program.next_act h
    have hstep := Family.total_step Thread.pending ht t' new
    have := pending_le t'
    rw [act_new ha] at hstep ⊢
    simp only [Family.total_nil] at hstep ⊢
    omega

theorem run_inProgress {tr : List (Config Shared Thread × Label Choice)} (h : freeList.Run initial tr c)
    (hfew : Program.Along (fun c _ => inProgress c < 0x3fffffff) tr) : inProgress c ≤ 0x3fffffff := by
  cases h with
  | nil => exact Nat.zero_le _
  | @snoc tr c₁ l _ hr hn =>
    have hlast : inProgress c₁ < 0x3fffffff := (Program.along_snoc.mp hfew).2
    have := next_inProgress hn
    omega

/-- `l` is the list: it ends, and it visits no node twice. -/
structure Exclusive (c : Config Shared Thread) (l : List Nat) : Prop where
  linked : Linked c.shared.freeListNext c.shared.freeListHead l
  nodup : l.Nodup
  apart : ∀ n ∈ l, c.shared.owned n = false
  /-- What a call is about to return is with no caller, not on the list, and not returned by another one. -/
  once : ∀ i n : Nat, c.threads[i]? = some (Thread.release n) → c.shared.owned n = false ∧ n ∉ l ∧
    ∀ j : Nat, c.threads[j]? = some (Thread.release n) → j = i
  asserted : c.shared.asserted = false
  /-- Without calls in progress every node is with a caller or on the list. -/
  kept : inProgress c = 0 → ∀ n, (n ∈ l ↔ c.shared.owned n = false) ∧ c.shared.freeListRefs n = if n ∈ l then 1 else 0
  /-- The counters are words, and no call takes away more than there is. -/
  words : ∀ n, c.shared.freeListRefs n < 2 ^ 32 ∧ ∀ t ∈ c.threads, (t.share n).counted ≤ c.shared.freeListRefs n

theorem Kept.place (hK : Kept c l flag) (n : Nat) :
    (c.shared.owned n).toNat + (if n ∈ l then 1 else 0) + total Share.carried n c ≤ 1 := by
  have := (hK.nodes n).place
  simp only [node] at this
  omega

theorem Kept.quiescent (hK : Kept c l flag) (h0 : inProgress c = 0) (n : Nat) :
    (n ∈ l ↔ c.shared.owned n = false) ∧ c.shared.freeListRefs n = if n ∈ l then 1 else 0 := by
  have hpending := Family.total_eq_zero.mp h0
  have hnone : ∀ f : Share → Nat, f ⟨0, 0, 0⟩ = 0 → total f n c = 0 := by
    intro f hf
    refine Family.total_eq_zero.mpr fun t ht => ?_
    have ht := hpending t ht
    cases t with
    | added | got => exact hf
    | _ => cases ht
  obtain ⟨h1, h2, h3, h4, h5⟩ := hK.nodes n
  simp only [node, hnone Share.counted rfl, hnone Share.carried rfl, hnone Share.readied rfl, shouldBeOnFreelist] at *
  have hflag : flag n = 0 := by
    have : flag n ≠ 1 := fun h => Nat.lt_irrefl 0 (h5 h trivial)
    omega
  rw [hflag] at h1 h2
  cases ho : c.shared.owned n <;> simp only [ho, Bool.toNat_false, Bool.toNat_true] at h2 <;> split at h2 <;> simp_all

theorem Kept.words (hK : Kept c l flag) (hfew : inProgress c ≤ 0x3fffffff) (n : Nat) :
    c.shared.freeListRefs n < 2 ^ 32 ∧ ∀ t ∈ c.threads, (t.share n).counted ≤ c.shared.freeListRefs n := by
  have href := (hK.nodes n).refs
  have hplace := (hK.nodes n).place
  have hle := counted_le (c := c) n
  simp only [node, shouldBeOnFreelist] at href hplace
  refine ⟨?_, fun t ht => ?_⟩
  · omega
  · have := Family.le_total (fun t => (t.share n).counted) ht
    unfold total at href
    omega

/-- In every run with fewer than 2^30 - 1 calls at a time. -/
theorem run_exclusive {tr : List (Config Shared Thread × Label Choice)} (h : freeList.Run initial tr c)
    (hfew : Program.Along (fun c _ => inProgress c < 0x3fffffff) tr) : ∃ l, Exclusive c l := by
  obtain ⟨l, flag, hK⟩ := run_kept h hfew
  refine ⟨l, hK.linked, hK.linked.nodup, fun n hn => ?_, fun i n hi => ?_, hK.asserted, hK.quiescent,
    hK.words (run_inProgress h hfew)⟩
  · have := hK.place n
    rw [if_pos hn] at this
    cases ho : c.shared.owned n with
    | false => rfl
    | true =>
      rw [ho, Bool.toNat_true] at this
      omega
  · have hat : (Thread.release n).At n ⟨2, 1, 0⟩ := at_of_holds rfl
    have hp := hK.place n
    have hc := Family.le_total (fun t => (t.share n).carried) (Family.mem_of_get hi)
    simp only [hat.share] at hc
    unfold total at hp
    refine ⟨?_, fun hn => ?_, fun j hj => Classical.byContradiction fun hji => ?_⟩
    · cases ho : c.shared.owned n with
      | false => rfl
      | true =>
        rw [ho, Bool.toNat_true] at hp
        omega
    · rw [if_pos hn] at hp
      omega
    · have h2 := Family.le_total_of_ne (fun t => (t.share n).carried) hj hi hji
      simp only [hat.share] at h2
      omega

/-- A node is added and handed out again. -/
def addAndGet : List (Label Choice) :=
  .call (.add 0) :: List.replicate 5 (.act 0 .step) ++ .call .tryGet :: List.replicate 7 (.act 1 .step)

theorem run_exclusive_addAndGet : (∃ l, Exclusive (freeList.last initial addAndGet) l) ∧
    (freeList.last initial addAndGet).threads[1]? = some (.got (some 0)) :=
  ⟨run_exclusive (Program.run_last rfl) (by decide), rfl⟩

end

end Xdispatch.FreeList
