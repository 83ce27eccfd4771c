import Xdispatch.FreeList.Model
import Xdispatch.Lib.Linked

/-!
# Nodes of the free list

A node is with a caller, on the list, carried by one call on its way there or
back, or flagged. Its counter is the references of the calls and of the list. A
flagged node is kept by the calls that refer to it, until the last of them readies it
for the list: nobody can refer to it again before its counter is set.
-/

namespace Xdispatch.FreeList

/-- What a call has to do with a node. -/
structure Share where
  counted : Nat
  carried : Nat
  readied : Nat

def Thread.holds : Thread → Option (Nat × Share)
  | .add n => some (n, ⟨0, 1, 0⟩)
  | .adding n .loadHead _ | .adding n (.storeNext _) _ | .adding n (.storeRefs _) _ => some (n, ⟨0, 0, 1⟩)
  | .adding n (.exchange _) _ | .adding n (.giveBack _) _ => some (n, ⟨1, 1, 0⟩)
  | .loadNext n | .exchange n _ | .putBack n _ => some (n, ⟨1, 0, 0⟩)
  -- the reference of the list too, until it is taken away
  | .assertRefs n | .release n => some (n, ⟨2, 1, 0⟩)
  | _ => none

def Thread.share (n : Nat) (t : Thread) : Share :=
  match t.holds with
  | some (m, x) => if m = n then x else ⟨0, 0, 0⟩
  | none => ⟨0, 0, 0⟩

def total (f : Share → Nat) (n : Nat) (c : Config Shared Thread) : Nat := Family.total (fun t => f (t.share n)) c.threads

structure Node where
  refs : Nat
  owned : Nat
  listed : Nat
  flag : Nat
  share : Share

structure Node.Ok (x : Node) : Prop where
  refs : x.refs = x.share.counted + x.listed + shouldBeOnFreelist * x.flag
  place : x.owned + x.listed + x.share.carried + x.flag = 1
  readied : x.share.readied ≤ x.flag
  alone : 0 < x.share.readied → x.share.counted = 0
  kept : x.flag = 1 → x.share.readied = 0 → 0 < x.share.counted

def node (c : Config Shared Thread) (l : List Nat) (flag : Nat → Nat) (n : Nat) : Node :=
  ⟨c.shared.freeListRefs n, (c.shared.owned n).toNat, if n ∈ l then 1 else 0, flag n,
    ⟨total Share.counted n c, total Share.carried n c, total Share.readied n c⟩⟩

/-- What a call has read is still so. -/
def Thread.Fits (s : Shared) : Thread → Prop
  | .adding n (.storeRefs head) _ | .adding n (.exchange head) _ => s.freeListNext n = head
  | .acquire _ refs => refs % shouldBeOnFreelist ≠ 0
  | .exchange n next => s.freeListNext n = next
  | _ => True

/-- `l` is the list from `freeListHead` on, and `flag` says which nodes are flagged. -/
structure Kept (c : Config Shared Thread) (l : List Nat) (flag : Nat → Nat) : Prop where
  linked : Linked c.shared.freeListNext c.shared.freeListHead l
  nodes : ∀ n, (node c l flag n).Ok
  fits : ∀ t ∈ c.threads, t.Fits c.shared
  asserted : c.shared.asserted = false

section
variable {c : Config Shared Thread} {l l' : List Nat} {flag flag' : Nat → Nat} {s' : Shared} {i m n : Nat} {t t' : Thread}
  {x x' : Share}

/-- A call that has to do with `m`, and with no other node. -/
structure Thread.At (m : Nat) (x : Share) (t : Thread) : Prop where
  share : t.share m = x
  others : ∀ n, n ≠ m → t.share n = ⟨0, 0, 0⟩

theorem at_of_holds (h : t.holds = some (m, x)) : t.At m x := by
  constructor
  · rw [Thread.share, h]
    exact if_pos rfl
  · intro n hn
    rw [Thread.share, h]
    exact if_neg (Ne.symm hn)

theorem at_of_none (h : t.holds = none) : t.At m ⟨0, 0, 0⟩ := by
  constructor
  · rw [Thread.share, h]
  · intro n _
    rw [Thread.share, h]

/-- The shares at `m` after a step of a call from `x` to `x'`. -/
structure Shift (y x y' x' : Share) : Prop where
  counted : y'.counted + x.counted = y.counted + x'.counted
  carried : y'.carried + x.carried = y.carried + x'.carried
  readied : y'.readied + x.readied = y.readied + x'.readied

theorem Shift.eq {y y' : Share} (h : Shift y x y' x) : y' = y := by
  obtain ⟨h1, h2, h3⟩ := h
  cases y
  cases y'
  simp only [Nat.add_right_cancel_iff] at h1 h2 h3
  rw [h1, h2, h3]

theorem Kept.step (hK : Kept c l flag) (hi : c.threads[i]? = some t) (ht : t.At m x) (ht' : t'.At m x')
    (hrefs : ∀ n, n ≠ m → s'.freeListRefs n = c.shared.freeListRefs n)
    (howned : ∀ n, n ≠ m → s'.owned n = c.shared.owned n) (hl : ∀ n, n ≠ m → (n ∈ l' ↔ n ∈ l))
    (hflag : ∀ n, n ≠ m → flag' n = flag n)
    (hm : ∀ y, Shift (node c l flag m).share x y x' →
      Node.Ok ⟨s'.freeListRefs m, (s'.owned m).toNat, if m ∈ l' then 1 else 0, flag' m, y⟩)
    (hlinked : Linked s'.freeListNext s'.freeListHead l') (hfits : t'.Fits s')
    (hothers : ∀ j u, j ≠ i → c.threads[j]? = some u → u.Fits s') (hasserted : s'.asserted = false) :
    Kept ⟨s', c.threads.set i t' ++ []⟩ l' flag' := by
  have hset (f : Share → Nat) (n : Nat) := Family.total_set (fun t => f (t.share n)) hi t'
  refine ⟨hlinked, fun n => ?_, fun u hu => ?_, hasserted⟩
  · by_cases hn : n = m
    · subst hn
      refine hm _ ⟨?_, ?_, ?_⟩ <;> simp only [total, List.append_nil]
      · simpa only [ht.share, ht'.share, node, total] using hset Share.counted n
      · simpa only [ht.share, ht'.share, node, total] using hset Share.carried n
      · simpa only [ht.share, ht'.share, node, total] using hset Share.readied n
    · have htotal : ∀ f : Share → Nat, total f n ⟨s', c.threads.set i t' ++ []⟩ = total f n c := by
        intro f
        have h := hset f n
        rw [ht.others n hn, ht'.others n hn] at h
        rw [total, List.append_nil]
        exact Nat.add_right_cancel h
      have := hK.nodes n
      simpa only [node, htotal, hrefs n hn, howned n hn, hl n hn, hflag n hn] using this
  · rcases Family.step_cases hi hu with rfl | hu | ⟨j, hj, hu⟩
    · exact hfits
    · cases hu
    · exact hothers j u hj hu

theorem Thread.Fits.congr {s : Shared} (h : t.Fits s) (hn : s'.freeListNext = s.freeListNext) : t.Fits s' := by
  unfold Thread.Fits at *
  rwa [hn]

/-- A step that changes no node. -/
theorem Kept.quiet (hK : Kept c l flag) (hi : c.threads[i]? = some t) (ht : t.At m x) (ht' : t'.At m x)
    (hfits : t'.Fits c.shared) : Kept ⟨c.shared, c.threads.set i t' ++ []⟩ l flag := by
  refine hK.step hi ht ht' (fun _ _ => rfl) (fun _ _ => rfl) (fun _ _ => Iff.rfl) (fun _ _ => rfl) (fun y hy => ?_)
    hK.linked hfits (fun j u _ hu => hK.fits u (Family.mem_of_get hu)) hK.asserted
  rw [hy.eq]
  exact hK.nodes m

/-- A step that changes the counter of one node. -/
theorem Kept.setRefs (hK : Kept c l flag) (hi : c.threads[i]? = some t) {refs : Nat} (k : Nat) (ht : t.At m x)
    (ht' : t'.At m x') (hfits : t'.Fits c.shared) (hm : ∀ y, Shift (node c l flag m).share x y x' →
      Node.Ok ⟨refs, (c.shared.owned m).toNat, if m ∈ l then 1 else 0, k, y⟩) :
    Kept ⟨c.shared.setRefs m refs, c.threads.set i t' ++ []⟩ l (Function.update flag m k) := by
  refine hK.step hi ht ht' (fun n hn => Function.update_of_ne hn ..) (fun _ _ => rfl) (fun _ _ => Iff.rfl)
    (fun n hn => Function.update_of_ne hn ..) (fun y hy => ?_) hK.linked (hfits.congr rfl)
    (fun j u _ hu => (hK.fits u (Family.mem_of_get hu)).congr rfl) hK.asserted
  simp only [Shared.setRefs, Function.update_self]
  exact hm y hy

theorem holds_loop (h : Option Nat) : (loop h).holds = none := by
  cases h <;> rfl

theorem holds_resume (rest : Option (Option Nat)) : (resume rest).holds = none := by
  cases rest with
  | none => rfl
  | some h => exact holds_loop h

theorem fits_loop {s : Shared} (h : Option Nat) : (loop h).Fits s := by
  cases h <;> trivial

theorem fits_resume {s : Shared} (rest : Option (Option Nat)) : (resume rest).Fits s := by
  cases rest with
  | none => trivial
  | some h => exact fits_loop h

/-- The calls that have not returned. -/
def Thread.pending : Thread → Nat
  | .added | .got _ => 0
  | _ => 1

def inProgress (c : Config Shared Thread) : Nat := Family.total Thread.pending c.threads

theorem counted_le (n : Nat) : total Share.counted n c ≤ 2 * inProgress c := by
  have h : total Share.counted n c ≤ Family.total (fun t => t.pending + t.pending) c.threads := by
    refine Family.total_le_total fun t _ => ?_
    cases t with
    | adding m a => cases a <;> simp only [Thread.share, Thread.holds, Thread.pending] <;> split <;> simp
    | add | loadNext | exchange | assertRefs | release | putBack =>
      simp only [Thread.share, Thread.holds, Thread.pending]
      split <;> simp
    | _ => exact Nat.zero_le _
  rw [Family.total_add] at h
  unfold inProgress
  omega

theorem Kept.add (hK : Kept c l flag) (hi : c.threads[i]? = some (.add n)) :
    ∃ flag', Kept ⟨c.shared.setRefs n (c.shared.freeListRefs n + shouldBeOnFreelist),
      c.threads.set i (if c.shared.freeListRefs n = 0 then .adding n .loadHead none else .added) ++ []⟩ l flag' := by
  obtain ⟨h1, h2, h3, h4, h5⟩ := hK.nodes n
  split
  · refine ⟨_, hK.setRefs hi 1 (at_of_holds rfl) (at_of_holds rfl) trivial fun y ⟨e1, e2, e3⟩ => ?_⟩
    constructor <;> simp only [node, shouldBeOnFreelist] at * <;> omega
  · refine ⟨_, hK.setRefs hi 1 (at_of_holds rfl) (at_of_none rfl) trivial fun y ⟨e1, e2, e3⟩ => ?_⟩
    constructor <;> simp only [node, shouldBeOnFreelist] at * <;> omega

/-- The other calls do not refer to a node that somebody readies. -/
theorem Kept.nobody (hK : Kept c l flag) (hi : c.threads[i]? = some t) (ht : t.At m ⟨0, 0, 1⟩) {j : Nat} {u : Thread}
    (hj : c.threads[j]? = some u) (hji : j ≠ i) : (u.share m).counted = 0 ∧ (u.share m).readied = 0 := by
  obtain ⟨_, h2, h3, h4, _⟩ := hK.nodes m
  have hr := Family.le_total_of_ne (fun t => (t.share m).readied) hj hi hji
  have hc := Family.le_total (fun t => (t.share m).counted) (Family.mem_of_get hj)
  simp only [ht.share] at hr
  simp only [node, total] at *
  omega

theorem Thread.Fits.congr_ne {s : Shared} (h : t.Fits s) (hn : ∀ n, n ≠ m → s'.freeListNext n = s.freeListNext n)
    (hc : (t.share m).counted = 0) (hr : (t.share m).readied = 0) : t.Fits s' := by
  have hne : ∀ n x, t.holds = some (n, x) → x.counted + x.readied ≠ 0 → n ≠ m := by
    rintro n x hx hpos rfl
    rw [Thread.share, hx] at hc hr
    simp only [if_pos] at hc hr
    omega
  cases t with
  | adding n a =>
    cases a with
    | storeRefs | exchange => exact (hn n (hne n _ rfl (by simp))).trans h
    | _ => trivial
  | exchange n => exact (hn n (hne n _ rfl (by simp))).trans h
  | acquire => exact h
  | _ => trivial

/-- A node that a call carries or readies is not on the list. -/
theorem Kept.not_mem (hK : Kept c l flag) (hi : c.threads[i]? = some t) (ht : t.At m x) (hx : 0 < x.carried + x.readied) :
    m ∉ l := by
  obtain ⟨_, h2, h3, _, _⟩ := hK.nodes m
  have hr := Family.le_total (fun t => (t.share m).readied) (Family.mem_of_get hi)
  have hc := Family.le_total (fun t => (t.share m).carried) (Family.mem_of_get hi)
  simp only [ht.share] at hr hc
  simp only [node, total] at *
  intro hl
  simp only [if_pos hl] at h2
  omega

theorem Kept.storeNext (hK : Kept c l flag) {head : Option Nat} {rest : Option (Option Nat)}
    (hi : c.threads[i]? = some (.adding n (.storeNext head) rest)) :
    Kept ⟨{ c.shared with freeListNext := Function.update c.shared.freeListNext n head },
      c.threads.set i (.adding n (.storeRefs head) rest) ++ []⟩ l flag := by
  have hat : (Thread.adding n (.storeNext head) rest).At n ⟨0, 0, 1⟩ := at_of_holds rfl
  have hat' : (Thread.adding n (.storeRefs head) rest).At n ⟨0, 0, 1⟩ := at_of_holds rfl
  have hn : ∀ m, m ≠ n → Function.update c.shared.freeListNext n head m = c.shared.freeListNext m := fun m hm =>
    Function.update_of_ne hm ..
  refine hK.step hi hat hat' (fun _ _ => rfl) (fun _ _ => rfl) (fun _ _ => Iff.rfl) (fun _ _ => rfl) (fun y hy => ?_)
    (hK.linked.congr fun p hp => hn p fun heq => hK.not_mem hi hat (by simp) (heq ▸ hp)) (Function.update_self ..)
    (fun j u hji hu => ?_) hK.asserted
  · rw [hy.eq]
    exact hK.nodes n
  · obtain ⟨hc, hr⟩ := hK.nobody hi hat hu hji
    exact (hK.fits u (Family.mem_of_get hu)).congr_ne hn hc hr

theorem Kept.storeRefs (hK : Kept c l flag) {head : Option Nat} {rest : Option (Option Nat)}
    (hi : c.threads[i]? = some (.adding n (.storeRefs head) rest)) :
    ∃ flag', Kept ⟨c.shared.setRefs n 1, c.threads.set i (.adding n (.exchange head) rest) ++ []⟩ l flag' := by
  obtain ⟨h1, h2, h3, h4, h5⟩ := hK.nodes n
  have hf := hK.fits _ (Family.mem_of_get hi)
  refine ⟨_, hK.setRefs hi 0 (at_of_holds rfl) (at_of_holds rfl) hf fun y ⟨e1, e2, e3⟩ => ?_⟩
  constructor <;> simp only [node, shouldBeOnFreelist] at * <;> omega

theorem Kept.push (hK : Kept c l flag) {head : Option Nat} {rest : Option (Option Nat)}
    (hi : c.threads[i]? = some (.adding n (.exchange head) rest)) (hhead : c.shared.freeListHead = head) :
    Kept ⟨{ c.shared with freeListHead := some n }, c.threads.set i (resume rest) ++ []⟩ (n :: l) flag := by
  have hat : (Thread.adding n (.exchange head) rest).At n ⟨1, 1, 0⟩ := at_of_holds rfl
  have hnl := hK.not_mem hi hat (by simp)
  have hnext : c.shared.freeListNext n = head := hK.fits _ (Family.mem_of_get hi)
  refine hK.step hi hat (at_of_none (holds_resume rest)) (fun _ _ => rfl) (fun _ _ => rfl) (fun m hm => ?_) (fun _ _ => rfl)
    (fun y ⟨e1, e2, e3⟩ => ?_) ⟨rfl, ?_⟩ (fits_resume rest)
    (fun j u _ hu => (hK.fits u (Family.mem_of_get hu)).congr rfl) hK.asserted
  · rw [List.mem_cons]
    exact or_iff_right hm
  · obtain ⟨h1, h2, h3, h4, h5⟩ := hK.nodes n
    constructor <;> simp only [node, if_neg hnl, if_pos (List.mem_cons_self ..), shouldBeOnFreelist] at * <;> omega
  · rw [hnext, ← hhead]
    exact hK.linked

theorem Kept.giveBack (hK : Kept c l flag) {head : Option Nat} {rest : Option (Option Nat)}
    (hi : c.threads[i]? = some (.adding n (.giveBack head) rest)) :
    ∃ flag', Kept ⟨c.shared.setRefs n (c.shared.freeListRefs n + (shouldBeOnFreelist - 1)),
      c.threads.set i
        (if c.shared.freeListRefs n = 1 then .adding n (.storeNext head) rest else resume rest) ++ []⟩ l flag' := by
  obtain ⟨h1, h2, h3, h4, h5⟩ := hK.nodes n
  split
  · refine ⟨_, hK.setRefs hi 1 (at_of_holds rfl) (at_of_holds rfl) trivial fun y ⟨e1, e2, e3⟩ => ?_⟩
    constructor <;> simp only [node, shouldBeOnFreelist] at * <;> omega
  · refine ⟨_, hK.setRefs hi 1 (at_of_holds rfl) (at_of_none (holds_resume rest)) (fits_resume rest) fun y ⟨e1, e2, e3⟩ => ?_⟩
    constructor <;> simp only [node, shouldBeOnFreelist] at * <;> omega

theorem Kept.acquire (hK : Kept c l flag) {refs : Nat} (hi : c.threads[i]? = some (.acquire n refs))
    (hrefs : c.shared.freeListRefs n = refs) :
    ∃ flag', Kept ⟨c.shared.setRefs n (refs + 1), c.threads.set i (.loadNext n) ++ []⟩ l flag' := by
  obtain ⟨h1, h2, h3, h4, h5⟩ := hK.nodes n
  have hmask : refs % shouldBeOnFreelist ≠ 0 := hK.fits _ (Family.mem_of_get hi)
  refine ⟨_, hK.setRefs hi (flag n) (at_of_none rfl) (at_of_holds rfl) trivial fun y ⟨e1, e2, e3⟩ => ?_⟩
  constructor <;> simp only [node, shouldBeOnFreelist] at * <;> omega

/-- The head is taken off the list: its next node has been the same since the call refers to it. -/
theorem Kept.pop (hK : Kept c l flag) {next : Option Nat} (hi : c.threads[i]? = some (.exchange n next))
    (hhead : c.shared.freeListHead = some n) :
    ∃ l', Kept ⟨{ c.shared with freeListHead := next }, c.threads.set i (.assertRefs n) ++ []⟩ l' flag := by
  have hlinked := hK.linked
  rw [hhead, Linked.linked_some] at hlinked
  obtain ⟨l', rfl, hl'⟩ := hlinked
  have hnl : n ∉ l' := (List.nodup_cons.mp hK.linked.nodup).1
  have hnext : c.shared.freeListNext n = next := hK.fits _ (Family.mem_of_get hi)
  refine ⟨l', hK.step hi (at_of_holds rfl) (at_of_holds rfl) (fun _ _ => rfl) (fun _ _ => rfl) (fun m hm => ?_)
    (fun _ _ => rfl) (fun y ⟨e1, e2, e3⟩ => ?_) (hnext ▸ hl') trivial
    (fun j u _ hu => (hK.fits u (Family.mem_of_get hu)).congr rfl) hK.asserted⟩
  · rw [List.mem_cons]
    exact (or_iff_right hm).symm
  · obtain ⟨h1, h2, h3, h4, h5⟩ := hK.nodes n
    constructor <;> simp only [node, if_neg hnl, if_pos (List.mem_cons_self ..), shouldBeOnFreelist] at * <;> omega

theorem Kept.release (hK : Kept c l flag) (hi : c.threads[i]? = some (.release n)) :
    Kept ⟨{ c.shared.setRefs n (c.shared.freeListRefs n - 2) with owned := Function.update c.shared.owned n true },
      c.threads.set i (.got (some n)) ++ []⟩ l flag := by
  have hat : (Thread.release n).At n ⟨2, 1, 0⟩ := at_of_holds rfl
  refine hK.step hi hat (at_of_none rfl) (fun m hm => Function.update_of_ne hm ..) (fun m hm => Function.update_of_ne hm ..)
    (fun _ _ => Iff.rfl) (fun _ _ => rfl) (fun y ⟨e1, e2, e3⟩ => ?_) hK.linked trivial
    (fun j u _ hu => (hK.fits u (Family.mem_of_get hu)).congr rfl) hK.asserted
  obtain ⟨h1, h2, h3, h4, h5⟩ := hK.nodes n
  constructor <;> simp only [node, Shared.setRefs, Function.update_self, Bool.toNat_true, shouldBeOnFreelist] at * <;> omega

theorem Kept.putBack (hK : Kept c l flag) {head : Option Nat} (hi : c.threads[i]? = some (.putBack n head))
    (hfew : total Share.counted n c + 1 < shouldBeOnFreelist) :
    ∃ flag', Kept ⟨c.shared.setRefs n (c.shared.freeListRefs n - 1), c.threads.set i
      (if c.shared.freeListRefs n = shouldBeOnFreelist + 1 then .adding n .loadHead (some head) else loop head)
        ++ []⟩ l flag' := by
  obtain ⟨h1, h2, h3, h4, h5⟩ := hK.nodes n
  split
  · refine ⟨_, hK.setRefs hi (flag n) (at_of_holds rfl) (at_of_holds rfl) trivial fun y ⟨e1, e2, e3⟩ => ?_⟩
    constructor <;> simp only [node, shouldBeOnFreelist] at * <;> omega
  · refine ⟨_, hK.setRefs hi (flag n) (at_of_holds rfl) (at_of_none (holds_loop head)) (fits_loop head)
      fun y ⟨e1, e2, e3⟩ => ?_⟩
    constructor <;> simp only [node, shouldBeOnFreelist] at * <;> omega

theorem Kept.adding (hK : Kept c l flag) {a : Adding} {rest : Option (Option Nat)}
    (hi : c.threads[i]? = some (.adding n a rest)) :
    ∃ l' flag', Kept ⟨(a.act c.shared n rest).1, c.threads.set i (a.act c.shared n rest).2 ++ []⟩ l' flag' := by
  cases a with
  | loadHead => exact ⟨l, flag, hK.quiet hi (at_of_holds rfl) (at_of_holds rfl) trivial⟩
  | storeNext => exact ⟨l, flag, hK.storeNext hi⟩
  | storeRefs =>
    obtain ⟨flag', hK'⟩ := hK.storeRefs hi
    exact ⟨l, flag', hK'⟩
  | exchange =>
    simp only [Adding.act]
    split
    · exact ⟨n :: l, flag, hK.push hi ‹_›⟩
    · exact ⟨l, flag, hK.quiet hi (at_of_holds rfl) (at_of_holds rfl) trivial⟩
  | giveBack =>
    obtain ⟨flag', hK'⟩ := hK.giveBack hi
    exact ⟨l, flag', hK'⟩

theorem Kept.assertRefs (hK : Kept c l flag) (hi : c.threads[i]? = some (.assertRefs n))
    (hfew : total Share.counted n c + 1 < shouldBeOnFreelist) : c.shared.freeListRefs n / shouldBeOnFreelist % 2 = 0 := by
  obtain ⟨h1, h2, h3, h4, h5⟩ := hK.nodes n
  have hc := Family.le_total (fun t => (t.share n).carried) (Family.mem_of_get hi)
  simp only [(at_of_holds rfl : (Thread.assertRefs n).At n ⟨2, 1, 0⟩).share] at hc
  simp only [node, total, shouldBeOnFreelist] at *
  omega

theorem Kept.act (hK : Kept c l flag) (hfew : inProgress c < 0x3fffffff) {e : Choice} {new : List Thread}
    (hi : c.threads[i]? = some t) (h : FreeList.act c.shared t e = some (s', t', new)) :
    ∃ l' flag', Kept ⟨s', c.threads.set i t' ++ new⟩ l' flag' := by
  have hfew : ∀ n, total Share.counted n c + 1 < shouldBeOnFreelist := fun n => by
    have := counted_le (c := c) n
    simp only [shouldBeOnFreelist]
    omega
  cases e with
  | add | tryGet => cases t <;> cases h
  | step =>
    cases t with
    | added | got => cases h
    | add n =>
      cases h
      obtain ⟨flag', hK'⟩ := hK.add hi
      exact ⟨l, flag', hK'⟩
    | adding n a rest =>
      cases h
      exact hK.adding hi
    | loadHead =>
      cases h
      exact ⟨l, flag, hK.quiet (m := 0) hi (at_of_none rfl) (at_of_none (holds_loop _)) (fits_loop _)⟩
    | loadRefs n =>
      simp only [FreeList.act, Option.some.injEq, Prod.mk.injEq] at h
      obtain ⟨rfl, rfl, rfl⟩ := h
      split
      · exact ⟨l, flag, hK.quiet (m := 0) hi (at_of_none rfl) (at_of_none rfl) trivial⟩
      · exact ⟨l, flag, hK.quiet (m := 0) hi (at_of_none rfl) (at_of_none rfl) ‹_›⟩
    | acquire n refs =>
      simp only [FreeList.act, Option.some.injEq] at h
      split at h
      · cases h
        obtain ⟨flag', hK'⟩ := hK.acquire hi ‹_›
        exact ⟨l, flag', hK'⟩
      · cases h
        exact ⟨l, flag, hK.quiet (m := 0) hi (at_of_none rfl) (at_of_none rfl) trivial⟩
    | loadNext n =>
      cases h
      exact ⟨l, flag, hK.quiet hi (at_of_holds rfl) (at_of_holds rfl) rfl⟩
    | exchange n next =>
      simp only [FreeList.act, Option.some.injEq] at h
      split at h
      · cases h
        obtain ⟨l', hK'⟩ := hK.pop hi ‹_›
        exact ⟨l', flag, hK'⟩
      · cases h
        exact ⟨l, flag, hK.quiet hi (at_of_holds rfl) (at_of_holds rfl) trivial⟩
    | assertRefs n =>
      simp only [FreeList.act, Option.some.injEq, Prod.mk.injEq] at h
      obtain ⟨rfl, rfl, rfl⟩ := h
      simp only [hK.assertRefs hi (hfew n), ne_eq, not_true_eq_false, decide_false, Bool.or_false]
      exact ⟨l, flag, hK.quiet hi (at_of_holds rfl) (at_of_holds rfl) trivial⟩
    | release n =>
      cases h
      exact ⟨l, flag, hK.release hi⟩
    | putBack n head =>
      cases h
      obtain ⟨flag', hK'⟩ := hK.putBack hi (hfew n)
      exact ⟨l, flag', hK'⟩

end

end Xdispatch.FreeList
