import Mathlib.Data.List.Forall2
import SdoCore.Lsq.StoreQueue

/-! The invariant of the two queues (`Inv`): the load queue is a list of sequence numbers, the store
queue a list of stores, and `storeWBIdx` is a position in it. Here are the functions that insert,
complete and send; a store that completes may take others off the head with it
(`Inv.complete`), and the loop of `writebackStores` is followed to its end (`Inv.writebackLoop`). -/

namespace SdoCore

open Lib
open List
open Option (bind_eq_some_iff map_eq_some_iff)
open StoreSender (unsent_other unsent_pending unsent_retry)

open QueuedStore (toWB)

/-! ## The invariant -/

/-- The unit, seen as the loads `L`, the stores `K` and the position `w` of `storeWBIdx`. -/
structure Lsq.Inv (c : QueueConfig) (s : Lsq) (L : List Nat) (K : List QueuedStore) (w : Nat) :
    Prop where
  loads : ∃ ls : List LqEntry, s.loadQueue.Holds (ls.map some) ∧ ls.map (·.seqNum) = L
  stores : Views s.storeQueue K
  small : s.storeQueue.size ≤ 256
  wb : w ≤ K.length
  wbIdx : s.storeWBIdx = s.storeQueue.index w
  loadOrder : L.Pairwise (· < ·)
  storeOrder : (K.map (·.seqNum)).Pairwise (· < ·)
  loadLast : ∀ x ∈ L, x ≤ s.lastInst
  storeLast : ∀ x ∈ K.map (·.seqNum), x ≤ s.lastInst
  canWB : ∀ k e, K[k]? = some e → k < w → e.canWB = true
  fresh : ∀ k e, K[k]? = some e → w ≤ k → e.completed = false
  count : s.storesToWB = toWB K
  sending : Sending c s.storeQueue K w s.senders s.retryPkt s.pendingPkt
  blocked : s.isStoreBlocked = s.retryPkt.isSome
  pending : s.hasPendingPkt = s.pendingPkt.isSome

/-! ## Changing one load of the queue -/

/-- A load is changed, in the queue or outside. -/
theorem holds_modifyLoad {P : LqEntry → LqEntry → Prop} {r : Lib.Ring (Option LqEntry)}
    {ls : List LqEntry}
    (hl : r.Holds (ls.map some)) (i : Nat) {f : Option LqEntry → Option LqEntry}
    (hf : ∀ l, r.slot i = some l → ∃ l', f (some l) = some l' ∧ P l l')
    (hP : ∀ k (hk : k < ls.length), r.index k ≠ i → P ls[k] ls[k]) :
    ∃ ls', (r.modify i f).Holds (ls'.map some) ∧ List.Forall₂ P ls ls' := by
  by_cases hin : ∃ k, k < ls.length ∧ r.index k = i
  · obtain ⟨k, hk, rfl⟩ := hin
    have hslot := hl.slot k (by simpa using hk)
    rw [getElem_map] at hslot
    obtain ⟨l', hl', hp⟩ := hf _ hslot
    have hm := hl.modify (k := k) (by simpa using hk) f
    have hset : (ls.map some).modify k f = (ls.set k l').map some := by
      refine ext_getElem (by simp) fun j hj hj' => ?_
      simp only [getElem_modify, getElem_map, getElem_set]
      split
      · next he =>
        subst he
        exact hl'
      · rfl
    refine ⟨ls.set k l', hset ▸ hm, forall₂_iff_get.mpr ⟨by simp, fun j hj hj' => ?_⟩⟩
    simp only [get_eq_getElem, getElem_set]
    split
    · next he =>
      subst he
      exact hp
    · next hne =>
      refine hP j hj (hl.index_ne ?_ ?_ (Ne.symm hne))
      · rw [length_map]
        exact hj.le
      · rw [length_map]
        exact hk.le
  · refine ⟨ls, hl.modify_outside (fun k hk he => hin ⟨k, by simpa using hk, he⟩) f, ?_⟩
    exact forall₂_iff_get.mpr ⟨rfl, fun k hk _ => hP k hk fun he => hin ⟨k, hk, he⟩⟩

theorem map_seqNum_eq {ls ls' : List LqEntry}
    (h : List.Forall₂ (fun l l' => l'.seqNum = l.seqNum) ls ls') :
    ls'.map (·.seqNum) = ls.map (·.seqNum) := by
  induction h with
  | nil => rfl
  | cons hl _ ih => rw [map_cons, map_cons, hl, ih]

namespace Lsq

/-- What the invariant does not speak of is set aside. -/
def core (s : Lsq) : Lsq :=
  { s with
    stalled := false
    stallingStoreIsn := 0
    stallingLoadIdx := 0
    usedStorePorts := 0
    storeInFlight := false
    memDepViolator := none
    squashed := fun _ => false
    answers := []
    successes := [] }

/-- The unit with these packets kept and these senders. -/
def kept (s : Lsq) (wbIdx : Nat) (S : List StoreSender) (retry pending : Option StorePkt) : Lsq :=
  { s with
    storeWBIdx := wbIdx
    senders := S
    retryPkt := retry
    isStoreBlocked := retry.isSome
    pendingPkt := pending
    hasPendingPkt := pending.isSome }

/-- The load queue stays and the store queue is rolled on. -/
structure WroteBack (s s' : Lsq) : Prop where
  loadQueue : s'.loadQueue = s.loadQueue
  storeQueue : ∃ d, Rolled s.storeQueue s'.storeQueue d

namespace Inv

variable {c : QueueConfig} {s s' : Lsq} {L : List Nat} {K : List QueuedStore} {w w' p : Nat}
  {e : QueuedStore}

theorem congr (h : Inv c s L K w) (hc : s'.core = s.core) : Inv c s' L K w := by
  have hcore : Inv c s'.core L K w := hc ▸ { h with }
  exact { hcore with }

theorem core_unstall (s : Lsq) (n : Nat) : (s.unstall n).core = s.core := by
  rw [Lsq.unstall]
  split <;> rfl

/-- What `completeStore` does, but for the load that waits and the store in flight. -/
theorem core_completeStore {i : Nat} (hs : s.completeStore c i = some s') :
    ∃ r₁ r', r₁ = s.storeQueue.modify i (fun e => { e with completed := true }) ∧
      r' = (if i = r₁.head then advanceHead r₁.size r₁ else r₁) ∧
      s'.core = { s with storeQueue := r', storesToWB := s.storesToWB - 1 }.core := by
  refine ⟨_, _, rfl, rfl, ?_⟩
  simp only [Lsq.completeStore] at hs
  split at hs
  · cases hs
  · cases hs
    exact core_unstall _ _

section
variable (h : Inv c s L K w)
include h

theorem wroteBack_same (hl : s'.loadQueue = s.loadQueue)
    (hq : s'.storeQueue = s.storeQueue) : WroteBack s s' := by
  have hcount : 0 ≤ s.storeQueue.count := by
    rw [h.stores.count]
    omega
  refine ⟨hl, 0, ?_⟩
  rw [hq]
  exact ⟨rfl, rfl, by simp, (Lib.Ring.index_zero h.stores.head_lt).symm, fun _ => rfl, hcount,
    by simp⟩

theorem wroteBack_trans {s₁ : Lsq} (h₁ : WroteBack s s₁) (h₂ : WroteBack s₁ s') :
    WroteBack s s' := by
  obtain ⟨d₁, hd₁⟩ := h₁.storeQueue
  obtain ⟨d₂, hd₂⟩ := h₂.storeQueue
  have hroom := h.stores.room
  refine ⟨h₂.loadQueue.trans h₁.loadQueue, d₂ + d₁, hd₁.trans hd₂ h.stores.head_lt ?_⟩
  rw [h.stores.count]
  omega

theorem storeOrder' : K.Pairwise (·.seqNum < ·.seqNum) :=
  pairwise_map.mp h.storeOrder

/-! ### Insertion and loads -/

theorem insertLoad {x : Nat} (hlast : s.lastInst < x)
    (hfree : 0 < s.numFreeLoadEntries) (hs : s.insertLoad x = some s') :
    Inv c s' (L ++ [x]) K w := by
  simp only [Lsq.insertLoad] at hs
  split at hs
  · cases hs
  · cases hs
    obtain ⟨ls, hl, rfl⟩ := h.loads
    let ld : LqEntry :=
      { seqNum := x
        lqIdx := s.loadQueue.tail
        sqIdx := if s.stores = 0 then none else some s.storeQueue.tail }
    refine { h with
      loads := ⟨ls ++ [ld], ?_, by rw [map_append]; rfl⟩
      loadOrder := ?_
      loadLast := fun y hy => ?_
      storeLast := fun y hy => (h.storeLast y hy).trans hlast.le }
    · have hroom : (ls.map some).length + 1 < s.loadQueue.size := by
        have := hl.count
        simp only [numFreeLoadEntries, Lsq.loads] at hfree
        omega
      rw [map_append]
      exact hl.push hroom _
    · refine pairwise_append.mpr ⟨h.loadOrder, pairwise_singleton _ _, fun y hy z hz => ?_⟩
      rw [mem_singleton.mp hz]
      exact (h.loadLast y hy).trans_lt hlast
    · rcases mem_append.mp hy with hy | hy
      · exact (h.loadLast y hy).trans hlast.le
      · exact (mem_singleton.mp hy).le

theorem insertStore {x : Nat} {sc pf : Bool} (hlast : s.lastInst < x)
    (hfree : 0 < s.numFreeStoreEntries) (hs : s.insertStore x sc pf = some s') :
    Inv c s' L (K ++ [⟨x, false, false⟩]) w := by
  simp only [Lsq.insertStore] at hs
  split at hs
  · cases hs
  · cases hs
    have hroom : K.length + 1 < s.storeQueue.size := by
      have := h.stores.count
      simp only [numFreeStoreEntries, Lsq.stores] at hfree
      omega
    have hget (k : Nat) (e : QueuedStore) (he : (K ++ [⟨x, false, false⟩])[k]? = some e) :
        K[k]? = some e ∨ k = K.length ∧ e = ⟨x, false, false⟩ := by
      rcases lt_trichotomy k K.length with hk | rfl | hk
      · left
        rwa [getElem?_append_left hk] at he
      · right
        simpa [eq_comm] using he
      · rw [List.getElem?_eq_none (by simp; omega)] at he
        cases he
    refine ⟨h.loads, h.stores.push hroom rfl, h.small, ?_, h.wbIdx, h.loadOrder, ?_,
      fun y hy => (h.loadLast y hy).trans hlast.le, fun y hy => ?_, fun k e he hk => ?_,
      fun k e he hk => ?_, ?_, h.sending.remap fun t ht p e he _ hcan hcomp => ?_, h.blocked,
      h.pending⟩
    · have := h.wb
      simp
      omega
    · rw [map_append]
      refine pairwise_append.mpr ⟨h.storeOrder, pairwise_singleton _ _, fun y hy z hz => ?_⟩
      rw [mem_singleton.mp hz]
      exact (h.storeLast y hy).trans_lt hlast
    · rw [map_append] at hy
      rcases mem_append.mp hy with hy | hy
      · exact (h.storeLast y hy).trans hlast.le
      · exact (mem_singleton.mp hy).le
    · rcases hget k e he with he | ⟨rfl, -⟩
      · exact h.canWB k e he hk
      · exact absurd hk (Nat.not_lt.mpr h.wb)
    · rcases hget k e he with he | ⟨-, rfl⟩
      · exact h.fresh k e he hk
      · rfl
    · show s.storesToWB = _
      rw [h.count]
      simp [toWB, countP_append]
    · obtain ⟨hp, -⟩ := List.getElem?_eq_some_iff.mp he
      exact ⟨p, e, by rw [getElem?_append_left hp]; exact he, rfl, hcan, hcomp, rfl, id, id⟩

/-- A load is changed, in the queue or outside, in anything but its number. -/
theorem modifyLoad (i : Nat) {f : Option LqEntry → Option LqEntry}
    (hf : ∀ l, s.loadQueue.slot i = some l → ∃ l', f (some l) = some l' ∧ l'.seqNum = l.seqNum) :
    Inv c { s with loadQueue := s.loadQueue.modify i f } L K w := by
  refine { h with loads := ?_ }
  obtain ⟨ls, hl, rfl⟩ := h.loads
  obtain ⟨ls', hl', hrel⟩ := holds_modifyLoad (P := fun l l' => l'.seqNum = l.seqNum) hl i hf
    fun _ _ _ => rfl
  exact ⟨ls', hl', map_seqNum_eq hrel⟩

theorem setLoad (i : Nat) {f : LqEntry → LqEntry}
    (hf : ∀ l, (f l).seqNum = l.seqNum) : Inv c (s.setLoad i f) L K w :=
  h.modifyLoad i fun l _ => ⟨f l, rfl, hf l⟩

/-! ### Commit and completion -/

/-- A store becomes able to write back. -/
theorem allow (he : K[p]? = some e) (hcan : e.canWB = false) : Inv c { s with
      storeQueue := s.storeQueue.modify (s.storeQueue.index p) fun e => { e with canWB := true }
      storesToWB := s.storesToWB + 1 } L (K.modify p QueuedStore.allow) w := by
  obtain ⟨hp, -⟩ := List.getElem?_eq_some_iff.mp he
  have hwp : w ≤ p := by
    by_contra hlt
    rw [h.canWB p e he (by omega)] at hcan
    cases hcan
  have hcomp := h.fresh p e he hwp
  have hget (k : Nat) (x : QueuedStore) (hx : (K.modify p QueuedStore.allow)[k]? = some x) :
      ∃ y, K[k]? = some y ∧ x.seqNum = y.seqNum ∧ x.completed = y.completed ∧
        (y.canWB = true → x.canWB = true) := by
    rw [getElem?_modify] at hx
    obtain ⟨y, hy, rfl⟩ := map_eq_some_iff.mp hx
    refine ⟨y, hy, ?_⟩
    split
    · exact ⟨rfl, rfl, fun _ => rfl⟩
    · exact ⟨rfl, rfl, id⟩
  have hmap : (K.modify p QueuedStore.allow).map (·.seqNum) = K.map (·.seqNum) :=
    map_modify fun _ => rfl
  have hv := h.stores.modify (f := fun e => { e with canWB := true }) (g := QueuedStore.allow) hp
    (fun _ => rfl) fun _ => rfl
  refine ⟨h.loads, hv, h.small,
    by rw [length_modify]; exact h.wb, h.wbIdx, h.loadOrder, hmap ▸ h.storeOrder, h.loadLast,
    hmap ▸ h.storeLast, fun k x hx hk => ?_, fun k x hx hk => ?_, ?_,
    h.sending.remap fun t ht k y hy _ hycan hycomp => ?_, h.blocked, h.pending⟩
  · obtain ⟨y, hy, -, -, hyc⟩ := hget k x hx
    exact hyc (h.canWB k y hy hk)
  · obtain ⟨y, hy, -, hyc, -⟩ := hget k x hx
    exact hyc.trans (h.fresh k y hy hk)
  · have hone := toWB_modify (g := QueuedStore.allow) he
    simp only [toWB, QueuedStore.allow, countP_cons, countP_nil, hcan, hcomp] at hone
    show s.storesToWB + 1 = _
    rw [h.count]
    simp only [toWB] at hone ⊢
    simp at hone
    omega
  · refine ⟨k, if p = k then y.allow else y, ?_, ?_, ?_, ?_, rfl, id, id⟩
    · rw [getElem?_modify, hy]
      rfl
    all_goals split <;> first | rfl | assumption

/-- A store is changed in what does not show. -/
theorem modifyStore (hp : p < K.length) {f : SQEntry → SQEntry}
    (hf : ∀ x, (f x).view = x.view) (hi : ∀ x, (f x).hasInst = x.hasInst) :
    Inv c { s with storeQueue := s.storeQueue.modify (s.storeQueue.index p) f } L K w :=
  { h with
    stores := h.stores.modify_hidden hp hf hi
    sending := h.sending.remap fun _ _ k y hy _ hcan hcomp =>
      ⟨k, y, hy, rfl, hcan, hcomp, rfl, id, id⟩ }

/-- What a store that completes does to its queue, if what is taken off stands before
`storeWBIdx`. -/
theorem rolled_complete {d : Nat} (hdw : d ≤ w) {r₁ r' : Lib.Ring SQEntry}
    (h₁ : r₁ = s.storeQueue.modify (s.storeQueue.index p) fun e => { e with completed := true })
    (hr : r' = if s.storeQueue.index p = r₁.head then advanceHead r₁.size r₁ else r₁)
    {K' : List QueuedStore} (hv : Views r' K') (hlen : K'.length = K.length - d)
    (hidx : ∀ k, k + d < s.storeQueue.size → r'.index k = s.storeQueue.index (k + d)) :
    Rolled s.storeQueue r' d := by
  have hframe : r'.size = r₁.size ∧ r'.tail = r₁.tail ∧ r'.slot = r₁.slot := by
    rw [hr]
    split
    · exact advanceHead_frame _ _
    · exact ⟨rfl, rfl, rfl⟩
  obtain ⟨hsize, htail, hslot⟩ := hframe
  have hmark := Rolled.of_modify h.stores.head_lt (by rw [h.stores.count]; omega)
    (s.storeQueue.index p)
    (f := fun e => { e with completed := true }) fun _ => rfl
  rw [← h₁] at hmark
  have hwb := h.wb
  have hcount := h.stores.count
  refine ⟨hsize.trans hmark.size, htail.trans hmark.tail, ?_, ?_, fun i => ?_, by omega,
    fun k hk => ?_⟩
  · rw [hv.count, hcount]
    omega
  · have h0 := hidx 0 (by have := h.stores.room; omega)
    rwa [Lib.Ring.index_zero hv.head_lt, Nat.zero_add] at h0
  · rw [hslot]
    exact hmark.slot i
  have hk' : k < K.length := by omega
  have hcan := h.canWB k _ (getElem?_eq_getElem hk') (by omega)
  rw [← (h.stores.slot hk').1] at hcan
  exact hcan

/-- A store completes that stands before `storeWBIdx` and has no packets any more. -/
theorem complete (he : K[p]? = some e) (hpw : p < w) (hcomp : e.completed = false)
    (hsend : ∀ t ∈ s.senders, t.inst ≠ e.seqNum) {r₁ r' : Lib.Ring SQEntry}
    (h₁ : r₁ = s.storeQueue.modify (s.storeQueue.index p) fun e => { e with completed := true })
    (hr : r' = if s.storeQueue.index p = r₁.head then advanceHead r₁.size r₁ else r₁)
    (hcore : s'.core = { s with storeQueue := r', storesToWB := s.storesToWB - 1 }.core) :
    ∃ K' w', Inv c s' L K' w' ∧ K'.length + w = K.length + w' ∧ WroteBack s s' := by
  obtain ⟨hp, -⟩ := List.getElem?_eq_some_iff.mp he
  have hcan := h.canWB p e he hpw
  obtain ⟨d, hd, hv, hsize, hidx, htake⟩ := h.stores.complete hp h₁ hr (fun _ => rfl) (fun _ => rfl)
  -- the stores that are taken off are completed, and so they stand before `storeWBIdx`
  have hget (k : Nat) (x : QueuedStore) (hx : K[k]? = some x) (hne : k ≠ p) :
      (K.modify p QueuedStore.complete)[k]? = some x := by
    rw [getElem?_modify, hx]
    simp [hne.symm]
  have hkept (k : Nat) (x : QueuedStore) (hx : K[k]? = some x) (hne : k ≠ p)
      (hxc : x.completed = false) : d ≤ k := by
    by_contra hlt
    have hm : x ∈ (K.modify p QueuedStore.complete).take d := by
      refine mem_of_getElem? (i := k) ?_
      rw [List.getElem?_take, if_pos (by omega)]
      exact hget k x hx hne
    rw [htake x hm] at hxc
    cases hxc
  have hdw : d ≤ w := by
    by_contra hlt
    have hw : w < K.length := by omega
    have hat : K[w]? = some K[w] := getElem?_eq_getElem hw
    exact hlt (hkept w _ hat (by omega) (h.fresh w _ hat le_rfl))
  have hback (k : Nat) (x : QueuedStore)
    (hx : ((K.modify p QueuedStore.complete).drop d)[k]? = some x) :
      ∃ y, K[k + d]? = some y ∧ x.canWB = y.canWB ∧ (k + d ≠ p → x = y) := by
    rw [getElem?_drop, getElem?_modify, Nat.add_comm d k] at hx
    obtain ⟨y, hy, rfl⟩ := map_eq_some_iff.mp hx
    refine ⟨y, hy, ?_, fun hne => if_neg hne.symm⟩
    split <;> rfl
  have hmap : ((K.modify p QueuedStore.complete).drop d).map
    (·.seqNum) = (K.map (·.seqNum)).drop d := by
    rw [map_drop, map_modify (g := QueuedStore.complete) fun _ => rfl]
  have hwb := h.wb
  have hroom := h.stores.room
  refine ⟨(K.modify p QueuedStore.complete).drop d, w - d,
    congr (s := { s with storeQueue := r', storesToWB := s.storesToWB - 1 }) ?_ hcore, ?_,
    (congrArg Lsq.loadQueue hcore :), d, ?_⟩
  rotate_left
  · rw [length_drop, length_modify]
    omega
  · rw [show s'.storeQueue = r' from (congrArg Lsq.storeQueue hcore :)]
    exact h.rolled_complete hdw h₁ hr hv (by rw [length_drop, length_modify]) hidx
  refine ⟨h.loads, hv, hsize.trans_le h.small, ?_, ?_, h.loadOrder, ?_, h.loadLast, fun x hx => ?_,
    fun k x hx hk => ?_, fun k x hx hk => ?_, ?_,
    h.sending.remap fun t ht q y hy hyt hycan hycomp => ?_, h.blocked, h.pending⟩
  · rw [length_drop, length_modify]
    omega
  · show s.storeWBIdx = _
    rw [hidx _ (by omega), Nat.sub_add_cancel hdw]
    exact h.wbIdx
  · rw [hmap]
    exact h.storeOrder.sublist (drop_sublist d _)
  · rw [hmap] at hx
    exact h.storeLast x (mem_of_mem_drop hx)
  · obtain ⟨y, hy, hc, -⟩ := hback k x hx
    exact hc.trans (h.canWB _ y hy (by omega))
  · obtain ⟨y, hy, -, heq⟩ := hback k x hx
    rw [heq (by omega)]
    exact h.fresh _ y hy (by omega)
  · have hone := toWB_modify (g := QueuedStore.complete) he
    simp only [toWB, QueuedStore.complete, countP_cons, countP_nil, hcan, hcomp,
      Bool.not_true, Bool.and_false, Bool.false_eq_true, Bool.not_false, Bool.and_true, if_true,
      if_false, Nat.add_zero, Nat.zero_add] at hone
    show s.storesToWB - 1 = _
    rw [h.count, toWB_drop htake]
    simp only [toWB] at hone ⊢
    omega
  · have hne : q ≠ p := by
      rintro rfl
      rw [he] at hy
      cases hy
      exact hsend t ht hyt.symm
    have hdq := hkept q y hy hne hycomp
    obtain ⟨hq, -⟩ := List.getElem?_eq_some_iff.mp hy
    refine ⟨q - d, y, ?_, rfl, hycan, hycomp, ?_, by omega, by omega⟩
    · rw [getElem?_drop, Nat.add_sub_cancel' hdq]
      exact hget q y hy hne
    · rw [hidx _ (by omega), Nat.sub_add_cancel hdq]

/-! ### Packets -/

/-- Something happens to the packets; `storeWBIdx` stays or passes one store. -/
theorem withPackets {S : List StoreSender} {retry pending : Option StorePkt}
    (hw : w' = w ∨ w' = w + 1 ∧ ∃ e, K[w]? = some e ∧ e.canWB)
    (hS : Sending c s.storeQueue K w' S retry pending)
    (hcore : s'.core = (s.kept (s.storeQueue.index w') S retry pending).core) :
    Inv c s' L K w' := by
  have hwb : w' ≤ K.length := by
    rcases hw with rfl | ⟨rfl, e, he, -⟩
    · exact h.wb
    · exact (List.getElem?_eq_some_iff.mp he).1
  refine congr (s := s.kept (s.storeQueue.index w') S retry pending)
    { h with
      wb := hwb
      wbIdx := rfl
      canWB := fun k x hx hk => ?_
      fresh := fun k x hx hk => h.fresh k x hx (by omega)
      sending := hS
      blocked := rfl
      pending := rfl } hcore
  rcases hw with rfl | ⟨rfl, e, he, hcan⟩
  · exact h.canWB k x hx hk
  rcases Nat.lt_succ_iff_lt_or_eq.mp hk with hk | rfl
  · exact h.canWB k x hx hk
  rw [he] at hx
  cases hx
  exact hcan

theorem kept_self (i : Nat) :
    s.kept i s.senders s.retryPkt s.pendingPkt = { s with storeWBIdx := i } := by
  rw [kept, ← h.blocked, ← h.pending]

theorem retry_none (hb : s.isStoreBlocked = false) : s.retryPkt = none := by
  have := h.blocked
  rw [hb] at this
  exact Option.isNone_iff_eq_none.mp (by simpa using this.symm)

theorem next_wbIdx (hw : w < K.length) :
    s.storeQueue.next s.storeWBIdx = s.storeQueue.index (w + 1) := by
  rw [h.wbIdx]
  exact Lib.Ring.next_index (hw.trans h.stores.room) h.stores.head_lt

/-- `incrWBIdx` past a store that needs no packet. -/
theorem incrWBIdx (he : K[w]? = some e) (hcan : e.canWB)
    (hr : s.retryPkt = none) (hp : s.pendingPkt = none) : Inv c s.incrWBIdx L K (w + 1) := by
  have hS := h.sending
  rw [hr, hp] at hS
  refine h.withPackets (.inr ⟨rfl, e, he, hcan⟩) hS.advance ?_
  rw [← h.next_wbIdx (List.getElem?_eq_some_iff.mp he).1, ← hr]
  nth_rewrite 2 [hr]
  rw [← hp, h.kept_self]
  rfl

end

theorem core_storePostSend (s : Lsq) :
    (s.storePostSend c).core = { s with storeWBIdx := s.storeQueue.next s.storeWBIdx }.core := by
  rw [Lsq.storePostSend, Lsq.unstall]
  split <;> rfl

variable {pkt : StorePkt} {t : StoreSender}

/-- What `sendStore` does: the memory system gets the packet, or it is kept for a retry. -/
theorem core_sendStore {r : Lsq × Bool} (hs : s.sendStore pkt = some r) :
    r.2 ∧
      r.1.core = (s.core.setSender pkt.inst fun t => { t with inMemory := t.inMemory + 1 }).core ∨
    r.2 = false ∧ s.retryPkt = none ∧
      r.1.core = { s.core with isStoreBlocked := true, retryPkt := some pkt }.core := by
  simp only [Lsq.sendStore] at hs
  split at hs
  · cases hs
    exact .inl ⟨rfl, rfl⟩
  split at hs
  · cases hs
  rename_i hr
  cases hs
  exact .inr ⟨rfl, by simpa using hr, rfl⟩

/-- `sendLast` moves on if the packet is taken. -/
theorem core_sendLast (hs : s.sendLast c pkt = some s') :
    s'.core = { s.core.setSender pkt.inst (fun t => { t with inMemory := t.inMemory + 1 }) with
      storeWBIdx := s.core.storeQueue.next s.core.storeWBIdx }.core ∨
    s.retryPkt = none ∧
      s'.core = { s.core with isStoreBlocked := true, retryPkt := some pkt }.core := by
  rw [Lsq.sendLast, map_eq_some_iff] at hs
  obtain ⟨⟨s₁, taken⟩, hs₁, rfl⟩ := hs
  rcases core_sendStore hs₁ with ⟨rfl, hc⟩ | ⟨rfl, hr, hc⟩
  · left
    have hpost := core_storePostSend (c := c) s₁
    rw [show ({ s₁ with storeWBIdx := s₁.storeQueue.next s₁.storeWBIdx } : Lsq).core =
      { s₁.core with storeWBIdx := s₁.core.storeQueue.next s₁.core.storeWBIdx } from rfl,
      hc] at hpost
    exact hpost
  · exact .inr ⟨hr, hc⟩

theorem sendStore_frame {r : Lsq × Bool} (hs : s.sendStore pkt = some r) :
    r.1.loadQueue = s.loadQueue ∧ r.1.storeQueue = s.storeQueue := by
  rcases core_sendStore hs with ⟨-, hc⟩ | ⟨-, -, hc⟩ <;>
    exact ⟨(congrArg Lsq.loadQueue hc :), (congrArg Lsq.storeQueue hc :)⟩

theorem sendLast_frame (hs : s.sendLast c pkt = some s') :
    s'.loadQueue = s.loadQueue ∧ s'.storeQueue = s.storeQueue := by
  rcases core_sendLast hs with hc | ⟨-, hc⟩ <;>
    exact ⟨(congrArg Lsq.loadQueue hc :), (congrArg Lsq.storeQueue hc :)⟩

theorem sendPackets_frame {x : SQEntry} (hs : s.sendPackets c x = some s') :
    s'.loadQueue = s.loadQueue ∧ s'.storeQueue = s.storeQueue := by
  simp only [Lsq.sendPackets] at hs
  split at hs
  · have hlast := sendLast_frame hs
    exact hlast
  obtain ⟨r, hr, hs⟩ := bind_eq_some_iff.mp hs
  have hframe := sendStore_frame hr
  split at hs
  · cases hs
    exact hframe
  split at hs
  · have hlast := sendLast_frame hs
    exact ⟨hlast.1.trans hframe.1, hlast.2.trans hframe.2⟩
  · split at hs <;> cases hs
    exact hframe

/-- A new sender is the only one that changes. -/
theorem setSender_kept {i k : Nat} (hS : ∀ t ∈ s.senders, t.inst ≠ k) (ht : t.inst = k)
    (f : StoreSender → StoreSender) :
    (s.kept i (t :: s.senders) none none).setSender k f = s.kept i
    (f t :: s.senders) none none := by
  have hmap : ((t :: s.senders).map fun t => if t.inst = k then f t else t) = f t :: s.senders := by
    rw [map_cons, if_pos ht]
    congr 1
    exact (map_congr_left fun t ht => if_neg (hS t ht)).trans (map_id' _)
  rw [← hmap]
  rfl

theorem idle (h : Inv c s L K w) (hr : s.retryPkt = none) (hp : s.pendingPkt = none) :
    s.isStoreBlocked = false ∧ s.hasPendingPkt = false ∧
      Sending c s.storeQueue K w s.senders none none := by
  refine ⟨by rw [h.blocked, hr]; rfl, by rw [h.pending, hp]; rfl, ?_⟩
  have hS := h.sending
  rwa [hr, hp] at hS

/-- A step of the write-back loop goes past a store, or it is the last one. -/
def Passed (c : QueueConfig) (s : Lsq) (K : List QueuedStore) (w : Nat) (K' : List QueuedStore)
    (w' : Nat) : Prop :=
  K'.length + (w + 1) = K.length + w' ∧ s.pendingPkt = none ∨
    (s.mayWriteBack c && !s.isStoreBlocked) = false

/-- The store at `storeWBIdx` gets a sender. -/
theorem newSender (h : Inv c s L K w) (he : K[w]? = some e) (hcan : e.canWB)
    (hS : Sending c s.storeQueue K w s.senders none none) (retry pending : Option StorePkt)
    (hcore : s'.core = (s.kept (s.storeQueue.index w') (t :: s.senders) retry pending).core)
    (hnew : Sending.New c s.storeQueue w e t retry pending)
    (hw : w' = if t.unsent retry pending = 0 then w + 1 else w) : Inv c s' L K w' := by
  refine h.withPackets ?_ (hS.cons he (fun t' ht' => hS.fresh he h.storeOrder' ht') hcan
    (h.fresh w e he le_rfl) hnew hw) hcore
  rw [hw]
  split
  · exact .inr ⟨rfl, e, he, hcan⟩
  · exact .inl rfl

theorem Passed.of_blocked (hb : s.isStoreBlocked) {K' : List QueuedStore} :
    Passed c s K w K' w' := by
  right
  rw [hb, Bool.not_true, Bool.and_false]

section
variable (h : Inv c s L K w) (he : K[w]? = some e) (hcan : e.canWB)
include h he hcan

/-- The last packet of a store is sent; its sender is `t`. -/
theorem lastPacket (hS : Sending c s.storeQueue K w s.senders none none) {s₁ : Lsq} {second : Bool}
    (hs : s₁.sendLast c ⟨e.seqNum, second⟩ = some s')
    (hcore : s₁.core = (s.kept s.storeWBIdx (t :: s.senders) none none).core)
    (hinst : t.inst = e.seqNum) (hidx : t.idx = s.storeQueue.index w)
    (hpackets : t.outstanding = t.inMemory + 1) (hpkt : t.pktToSend = false)
    (hwhole : c.hasUnalignedMemAcc = false → t.outstanding = 1) :
    ∃ w', Inv c s' L K w' ∧ Passed c s' K w K w' := by
  obtain ⟨hw, -⟩ := List.getElem?_eq_some_iff.mp he
  rcases core_sendLast hs with hc | ⟨-, hc⟩
  · rw [hcore] at hc
    refine ⟨w + 1, h.newSender (t := { t with inMemory := t.inMemory + 1 }) he hcan hS none none ?_
      ⟨hinst, hidx, by simp, by simp, by simp, hpackets, by simp only; omega, hwhole⟩ rfl,
      .inl ⟨by omega, (congrArg Lsq.pendingPkt hc :)⟩⟩
    rw [hc, ← h.next_wbIdx hw, ← setSender_kept (fun t ht => hS.fresh he h.storeOrder' ht) hinst
      fun t => { t with inMemory := t.inMemory + 1 }]
    rfl
  · rw [hcore] at hc
    have hunsent : t.unsent (some ⟨e.seqNum, second⟩) none = 1 := by
      rw [unsent_retry hinst.symm, hpkt]
      rfl
    refine ⟨w, h.newSender he hcan hS
      (some ⟨e.seqNum, second⟩) none ?_ ⟨hinst, hidx, by simp, by simp,
      by simp, by rw [hunsent, hpackets], by omega, hwhole⟩ (by rw [hunsent]; rfl),
      .of_blocked (s := s') (congrArg Lsq.isStoreBlocked hc :)⟩
    rw [hc, ← h.wbIdx]
    rfl

theorem sendPackets
    (hr : s.retryPkt = none) (hp : s.pendingPkt = none) {x : SQEntry} (hx : x.seqNum = e.seqNum)
    (hs : s.sendPackets c x = some s') : ∃ w', Inv c s' L K w' ∧ Passed c s' K w K w' := by
  obtain ⟨hb, hpend, hS⟩ := h.idle hr hp
  obtain ⟨hw, -⟩ := List.getElem?_eq_some_iff.mp he
  have hidx : s.storeWBIdx % 2 ^ 8 = s.storeQueue.index w := by
    have hlt := Lib.Ring.index_lt h.stores.head_lt (hw.trans h.stores.room)
    rw [h.wbIdx]
    exact Nat.mod_eq_of_lt (hlt.trans_le h.small)
  have hfresh : ∀ t ∈ s.senders, t.inst ≠ e.seqNum := fun t ht => hS.fresh he h.storeOrder' ht
  have hkept (S : List StoreSender) :
      { s with senders := S }.core = (s.kept s.storeWBIdx S none none).core := by
    rw [hr, hb, hp, hpend]
    rfl
  simp only [Lsq.sendPackets, hidx, hx] at hs
  split at hs
  · -- one packet
    next hsplit =>
    rw [Bool.not_eq_true'] at hsplit
    rw [hsplit] at hs
    exact h.lastPacket he hcan hS hs (hkept _) rfl rfl rfl rfl fun _ => rfl
  · -- two packets
    next hsplit =>
    rw [Bool.not_eq_true', Bool.not_eq_false] at hsplit
    have hun := (Bool.and_eq_true_iff.mp hsplit).1
    have hwhole (t : StoreSender) : c.hasUnalignedMemAcc = false → t.outstanding = 1 := by
      rw [hun]
      nofun
    rw [hsplit] at hs
    obtain ⟨⟨s₁, taken⟩, hs₁, hs⟩ := bind_eq_some_iff.mp hs
    have hsend := core_sendStore hs₁
    rw [hkept] at hsend
    rcases hsend with ⟨rfl, hc⟩ | ⟨rfl, -, hc⟩
    · let t : StoreSender := ⟨e.seqNum, s.storeQueue.index w, true, 2, false, 1⟩
      have hcore : s₁.core = (s.kept s.storeWBIdx (t :: s.senders) none none).core := by
        have hset := setSender_kept (i := s.storeWBIdx) (t := { t with inMemory := 0 }) hfresh rfl
          fun t => { t with inMemory := t.inMemory + 1 }
        exact hc.trans (congrArg core hset :)
      simp only [Bool.not_true, Bool.false_eq_true, if_false] at hs
      split at hs
      · exact h.lastPacket (t := t) he hcan hS hs hcore rfl rfl rfl rfl (hwhole _)
      rename_i hports
      -- no port is left for the second one
      split at hs
      · cases hs
      · cases hs
        have hunsent : t.unsent none (some ⟨e.seqNum, true⟩) = 1 := unsent_pending rfl
        refine ⟨w, h.newSender (t := t) he hcan hS none
          (some ⟨e.seqNum, true⟩) ?_ ⟨rfl, rfl, by simp,
          by simp, by simp [hun], by rw [hunsent], Nat.two_pos, hwhole _⟩ (by rw [hunsent]; rfl),
          .inr ?_⟩
        · rw [← h.wbIdx]
          exact (congrArg (fun s : Lsq =>
            { s with pendingPkt := some ⟨e.seqNum, true⟩, hasPendingPkt := true }) hcore :)
        · simp [mayWriteBack, hports]
    · cases hs
      let t : StoreSender := ⟨e.seqNum, s.storeQueue.index w, true, 2, true, 0⟩
      have hunsent : t.unsent (some ⟨e.seqNum, false⟩) none = 2 := unsent_retry rfl
      refine ⟨w, h.newSender (t := t) he hcan hS
        (some ⟨e.seqNum, false⟩) none ?_ ⟨rfl, rfl, by simp,
        by simp, by simp, by rw [hunsent], Nat.two_pos, hwhole _⟩ (by rw [hunsent]; rfl),
        .of_blocked ?_⟩
      · have hset := setSender_kept (i := s.storeWBIdx) (t := { t with pktToSend := false })
          hfresh rfl fun t => { t with pktToSend := true }
        rw [← h.wbIdx]
        refine (congrArg
          (fun s => (s.setSender e.seqNum fun t => { t with pktToSend := true }).core)
          hc :).trans ?_
        exact (congrArg (fun s : Lsq =>
          { s with isStoreBlocked := true, retryPkt := some ⟨e.seqNum, false⟩ }.core) hset :)
      · exact (congrArg Lsq.isStoreBlocked hc :)

/-! ### Writing back -/

theorem completeAtOnce
    (hr : s.retryPkt = none) (hp : s.pendingPkt = none) (hs : s.completeAtOnce c = some s') :
    ∃ K' w', Inv c s' L K' w' ∧ Passed c s' K w K' w' ∧ WroteBack s s' := by
  obtain ⟨-, -, hS⟩ := h.idle hr hp
  rw [Lsq.completeAtOnce, map_eq_some_iff] at hs
  obtain ⟨s₁, hs₁, rfl⟩ := hs
  obtain ⟨r₁, r', h₁, hr', hc⟩ := core_completeStore hs₁
  -- it makes no difference whether a store is passed before or after it completes
  have hcore : s₁.incrWBIdx.core =
      { s.incrWBIdx with storeQueue := r', storesToWB := s.incrWBIdx.storesToWB - 1 }.core := by
    have hsize : r'.size = s.storeQueue.size := by
      rw [hr', h₁]
      split
      · exact (advanceHead_frame _ _).1
      · rfl
    refine (congrArg (fun s => s.incrWBIdx) hc :).trans ?_
    simp only [Lsq.incrWBIdx, core, Lib.Ring.next, hsize]
  rw [h.wbIdx] at h₁ hr'
  obtain ⟨K', w', h', hlen, hwrote⟩ := (h.incrWBIdx he hcan hr hp).complete he (Nat.lt_succ_self w)
    (h.fresh w e he le_rfl) (fun t ht => hS.fresh he h.storeOrder' ht) h₁ hr' hcore
  exact ⟨K', w', h', .inl ⟨hlen, (congrArg Lsq.pendingPkt hcore).trans hp⟩, hwrote.loadQueue,
    hwrote.storeQueue⟩

end

theorem core_lockedWrite (s : Lsq) (x : SQEntry) : (s.lockedWrite x).1.core = s.core := by
  rw [lockedWrite]
  split <;> rfl

theorem of_mayWriteBack (h : Inv c s L K w) (hm : s.mayWriteBack c) :
    ∃ e, K[w]? = some e ∧ e.canWB ∧ (s.storeQueue.slot s.storeWBIdx).view = e := by
  simp only [mayWriteBack, Bool.and_eq_true, bne_iff_ne, ne_eq] at hm
  obtain ⟨⟨⟨⟨⟨-, htail⟩, -⟩, hcan⟩, -⟩, -⟩ := hm
  have hw : w < K.length := by
    rw [h.wbIdx, h.stores.index_eq_tail h.wb] at htail
    have := h.wb
    omega
  have hslot := (h.stores.slot hw).1
  rw [← h.wbIdx] at hslot
  refine ⟨K[w], getElem?_eq_getElem hw, ?_, hslot⟩
  rw [← hslot]
  exact hcan

theorem writebackStore (h : Inv c s L K w) (he : K[w]? = some e) (hcan : e.canWB)
    (hslot : (s.storeQueue.slot s.storeWBIdx).view = e) (hr : s.retryPkt = none)
    (hp : s.pendingPkt = none) (hs : s.writebackStore c = some s') :
    ∃ K' w', Inv c s' L K' w' ∧ Passed c s' K w K' w' ∧ WroteBack s s' := by
  simp only [Lsq.writebackStore] at hs
  split at hs
  · exact h.completeAtOnce he hcan hr hp hs
  split at hs
  · cases hs
    exact ⟨K, w + 1, (h.incrWBIdx he hcan hr hp).congr rfl, .inl ⟨by omega, hp⟩,
      h.wroteBack_same rfl rfl⟩
  · obtain ⟨req, -, hs⟩ := bind_eq_some_iff.mp hs
    split at hs
    · cases hs
    obtain ⟨hw, -⟩ := List.getElem?_eq_some_iff.mp he
    have hm := h.modifyStore (f := fun e => { e with committed := true }) hw (fun _ => rfl)
      fun _ => rfl
    rw [← h.wbIdx] at hm
    generalize hl : Lsq.lockedWrite _ _ = l at hs
    have hc := hl ▸ core_lockedWrite _ _
    have h₁ : Inv c l.1 L K w := hm.congr (hc.trans rfl)
    have hr₁ : l.1.retryPkt = none := (congrArg Lsq.retryPkt hc :).trans hr
    have hp₁ : l.1.pendingPkt = none := (congrArg Lsq.pendingPkt hc :).trans hp
    have hwrote : WroteBack s l.1 := by
      refine ⟨(congrArg Lsq.loadQueue hc :), 0, ?_⟩
      rw [show l.1.storeQueue = _ from (congrArg Lsq.storeQueue hc :)]
      exact Rolled.of_modify (f := fun e => { e with committed := true }) h.stores.head_lt
        (by rw [h.stores.count]; omega) _ fun _ => rfl
    split at hs
    · obtain ⟨K', w', h', hpass, hw'⟩ := h₁.completeAtOnce he hcan hr₁ hp₁ hs
      exact ⟨K', w', h', hpass, h.wroteBack_trans hwrote hw'⟩
    split at hs
    · split at hs
      · cases hs
      · obtain ⟨K', w', h', hpass, hw'⟩ := h₁.completeAtOnce he hcan hr₁ hp₁ hs
        exact ⟨K', w', h', hpass, h.wroteBack_trans hwrote hw'⟩
    · obtain ⟨w', h', hpass⟩ :=
        h₁.sendPackets he hcan hr₁ hp₁ (congrArg QueuedStore.seqNum hslot) hs
      obtain ⟨hl', hq'⟩ := sendPackets_frame hs
      exact ⟨K, w', h', hpass, h.wroteBack_trans hwrote (h₁.wroteBack_same hl' hq')⟩

theorem writebackLoop_stop {n : Nat} (hstop : (s.mayWriteBack c && !s.isStoreBlocked) = false) :
    Lsq.writebackLoop c n s = some s := by
  cases n with
  | zero => rfl
  | succ n => rw [Lsq.writebackLoop, hstop]; rfl

/-- The loop of `writebackStores` runs to its end. -/
theorem writebackLoop {n : Nat} (h : Inv c s L K w) (hp : s.pendingPkt = none)
    (hn : K.length - w < n)
    (hs : Lsq.writebackLoop c n s = some s') :
    (∃ K' w', Inv c s' L K' w') ∧ (s'.mayWriteBack c && !s'.isStoreBlocked) = false ∧
      WroteBack s s' := by
  induction n generalizing s K w with
  | zero => omega
  | succ n ih =>
    rw [Lsq.writebackLoop] at hs
    split at hs
    · next hgo =>
      rw [Bool.and_eq_true, Bool.not_eq_true'] at hgo
      obtain ⟨s₁, hs₁, hs⟩ := bind_eq_some_iff.mp hs
      obtain ⟨e, he, hcan, hslot⟩ := h.of_mayWriteBack hgo.1
      obtain ⟨K', w', h', hpass, hwrote⟩ :=
        h.writebackStore he hcan hslot (h.retry_none hgo.2) hp hs₁
      obtain ⟨hw, -⟩ := List.getElem?_eq_some_iff.mp he
      rcases hpass with ⟨hlen, hp'⟩ | hstop
      · obtain ⟨hinv, hstop, hwrote'⟩ := ih h' hp' (by omega) hs
        exact ⟨hinv, hstop, h.wroteBack_trans hwrote hwrote'⟩
      rw [writebackLoop_stop hstop] at hs
      cases hs
      exact ⟨⟨K', w', h'⟩, hstop, hwrote⟩
    · next hstop =>
      cases hs
      exact ⟨⟨K, w, h⟩, by simpa using hstop, h.wroteBack_same rfl rfl⟩

/-- A packet that was kept is sent; what is kept then, if anything, is of the same store. -/
theorem resend (h : Inv c s L K w) (hpkt : s.retryPkt = some pkt ∨ s.pendingPkt = some pkt)
    {f : StoreSender → StoreSender}
    (hf : ∀ t, (f t).inst = t.inst ∧ (f t).idx = t.idx ∧ (f t).outstanding = t.outstanding)
    (retry : Option StorePkt) (hretry : ∀ pkt', retry = some pkt' → pkt'.inst = pkt.inst)
    (hcount : ∀ t ∈ s.senders, t.inst = pkt.inst →
      (c.hasUnalignedMemAcc = false → t.outstanding = 1) →
      t.outstanding = t.inMemory + t.unsent s.retryPkt s.pendingPkt →
      t.outstanding = (f t).inMemory + (f t).unsent retry none)
    (hw : w' = if retry.isSome then w else w + 1)
    (hcore : s'.core = (s.kept (s.storeQueue.index w')
      (s.senders.map fun t => if t.inst = pkt.inst then f t else t) retry none).core) :
    Inv c s' L K w' := by
  have hS := h.sending
  refine h.withPackets ?_ (hS.change (k := pkt.inst) (fun t => ⟨(hf t).1, (hf t).2.1⟩) (by simp)
    (fun t ht hk => ?_) (fun t ht hk => ?_) (fun pkt' hp => ?_) (by simp)) hcore
  · rw [hw]
    split
    · exact .inl rfl
    obtain ⟨t, ht, hinst⟩ := hS.origin pkt hpkt
    obtain ⟨p, e, htr⟩ := hS.sender t ht
    obtain rfl := htr.sending (hS.unsent_pos hpkt hinst)
    exact .inr ⟨rfl, e, htr.at_, htr.canWB⟩
  · obtain ⟨p, e, htr⟩ := hS.sender t ht
    have hft : (f t).inst = pkt.inst := (hf t).1.trans hk
    rw [(hf t).2.2]
    refine ⟨hcount t ht hk htr.whole htr.packets, htr.some, htr.whole, fun hz => ?_, fun hz => ?_⟩
    · cases retry with
      | none => exact .inr hw
      | some pkt' =>
        rw [unsent_retry ((hretry pkt' rfl).trans hft.symm)] at hz
        split at hz <;> omega
    · cases retry with
      | none => exact absurd rfl hz
      | some pkt' => exact ⟨hS.unsent_pos hpkt hk, hw⟩
  · have hz : t.unsent s.retryPkt s.pendingPkt = 0 :=
      unsent_other fun pkt' hp hi => hk (hi.symm.trans (hS.same_pkt hpkt hp ▸ rfl))
    refine ⟨?_, ?_⟩
    · rw [hz]
      exact unsent_other fun pkt' hp hi =>
        hk (hi.symm.trans (hretry pkt' (hp.resolve_right (by simp))))
    · rw [hw]
      split
      · exact .inl rfl
      · exact .inr ⟨hz, rfl⟩
  · obtain ⟨t, ht, hinst⟩ := hS.origin pkt hpkt
    exact ⟨t, ht, hinst.trans (hretry pkt' (hp.resolve_right (by simp))).symm⟩

theorem writebackPendingStore (h : Inv c s L K w) (hs : s.writebackPendingStore c = some s') :
    ∃ w', Inv c s' L K w' ∧ s'.pendingPkt = none ∧ WroteBack s s' := by
  rw [Lsq.writebackPendingStore] at hs
  split at hs
  · obtain ⟨pkt, hpkt, hs⟩ := bind_eq_some_iff.mp hs
    obtain ⟨s₁, hs₁, rfl⟩ := map_eq_some_iff.mp hs
    have hframe := sendLast_frame hs₁
    have hr := h.sending.retry_none hpkt
    have hunsent (t : StoreSender) (ht : t.inst = pkt.inst) :
        t.unsent s.retryPkt s.pendingPkt = 1 := by
      rw [hr, hpkt, unsent_pending ht.symm]
    rcases core_sendLast hs₁ with hc | ⟨-, hc⟩
    · obtain ⟨t, ht, hinst⟩ := h.sending.origin pkt (.inr hpkt)
      obtain ⟨p, e, htr⟩ := h.sending.sender t ht
      obtain rfl := htr.sending (h.sending.unsent_pos (.inr hpkt) hinst)
      have hw := (List.getElem?_eq_some_iff.mp htr.at_).1
      refine ⟨p + 1, h.resend (f := fun t => { t with inMemory := t.inMemory + 1 }) (.inr hpkt)
        (fun _ => ⟨rfl, rfl, rfl⟩) none (by simp) (fun t ht hk _ hn => ?_) rfl ?_, rfl,
        h.wroteBack_same hframe.1 hframe.2⟩
      · rw [hunsent t hk] at hn
        exact hn
      have hb : s.isStoreBlocked = false := by rw [h.blocked, hr]; rfl
      rw [← h.next_wbIdx hw]
      refine (congrArg (fun s : Lsq => { s with pendingPkt := none, hasPendingPkt := false }.core)
        hc :).trans ?_
      simp only [core, setSender, kept, hr, hb, Option.isSome_none]
    · refine ⟨w, h.resend (f := id) (.inr hpkt) (fun _ => ⟨rfl, rfl, rfl⟩) (some pkt) (by simp)
        (fun t ht hk _ hn => ?_) rfl ?_, rfl, h.wroteBack_same hframe.1 hframe.2⟩
      · rw [hunsent t hk] at hn
        rw [id, unsent_retry hk.symm, (h.sending.half pkt hpkt).1]
        simpa using hn
      · rw [← h.wbIdx]
        simp only [id, ite_self, map_id']
        exact (congrArg
          (fun s : Lsq => { s with pendingPkt := none, hasPendingPkt := false }.core) hc :)
  · next hno =>
    cases hs
    refine ⟨w, h, ?_, h.wroteBack_same rfl rfl⟩
    have hp := h.pending
    rw [Bool.not_eq_true] at hno
    rw [hno] at hp
    simpa using hp.symm

theorem writebackStores (h : Inv c s L K w) (hs : s.writebackStores c = some s') :
    (∃ K' w', Inv c s' L K' w') ∧ WroteBack s s' := by
  obtain ⟨s₁, hs₁, hs⟩ := bind_eq_some_iff.mp hs
  obtain ⟨s₂, hs₂, hs⟩ := bind_eq_some_iff.mp hs
  obtain ⟨w₁, h₁, hp₁, hwrote₁⟩ :
    ∃ w', Inv c s₁ L K w' ∧ s₁.pendingPkt = none ∧ WroteBack s s₁ := by
    split at hs₁
    · exact h.writebackPendingStore hs₁
    rename_i hun
    cases hs₁
    refine ⟨w, h, Option.eq_none_iff_forall_ne_some.mpr fun pkt hpkt => ?_,
      h.wroteBack_same rfl rfl⟩
    exact hun (h.sending.half pkt hpkt).2
  have hroom := h₁.stores.room
  obtain ⟨⟨K', w', h'⟩, -, hwrote₂⟩ := h₁.writebackLoop hp₁ (by omega) hs₂
  have hwrote := h.wroteBack_trans hwrote₁ hwrote₂
  split at hs
  · cases hs
  · cases hs
    exact ⟨⟨K', w', h'.congr rfl⟩, hwrote.loadQueue, hwrote.storeQueue⟩

end Inv

end Lsq

end SdoCore
