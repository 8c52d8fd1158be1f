import SdoCore.Lsq.QueueInv

/-! The load queue and the store queue stay well formed. The remaining functions keep the invariant,
so every step does.

* `queues_well_formed`: the counters, the order and the position of `storeWBIdx`, in every state of
  every run in which no store conditional executes that can write back already;
* `storesToWB_overcounts`: executing one twice counts it twice. -/

namespace SdoCore

open List
open Lib
open Bool (and_eq_true not_eq_true')
open Option (bind_eq_some_iff isSome_none map_eq_some_iff)

open QueuedStore (toWB)

namespace Lsq

namespace Inv

variable {c : QueueConfig} {s s' : Lsq} {L : List Nat} {K : List QueuedStore} {w w' p : Nat}
  {e : QueuedStore}

/-! ## Retries and responses -/

variable {k n i squashedNum : Nat}

theorem map_map_sender {S : List StoreSender} {f g : StoreSender → StoreSender}
    (hf : ∀ t, (f t).inst = t.inst) :
    ((S.map fun t => if t.inst = k then f t else t).map fun t => if t.inst = k then g t else t) =
      S.map fun t => if t.inst = k then g (f t) else t := by
  rw [map_map]
  refine map_congr_left fun t _ => ?_
  by_cases hk : t.inst = k
  · simp [hk, hf]
  · simp [hk]

/-- The sender of a store is the only one. -/
theorem find_sender (h : Inv c s L K w) {t : StoreSender}
    (ht : s.senders.find? (·.inst = k) = some t) :
    t ∈ s.senders ∧ t.inst = k ∧ ∀ t' ∈ s.senders, t'.inst = k → t' = t := by
  have hmem := mem_of_find?_eq_some ht
  have hinst : t.inst = k := by simpa using find?_some ht
  exact ⟨hmem, hinst, fun t' ht' hk => h.sending.eq_of_inst ht' hmem (hk.trans hinst.symm)⟩

theorem recvRetry_frame (hs : s.recvRetry c = some s') :
    s'.loadQueue = s.loadQueue ∧ s'.storeQueue = s.storeQueue := by
  rw [Lsq.recvRetry] at hs
  split at hs
  · cases hs
    exact ⟨rfl, rfl⟩
  obtain ⟨pkt, -, hs⟩ := bind_eq_some_iff.mp hs
  obtain ⟨t, -, hs⟩ := bind_eq_some_iff.mp hs
  simp only at hs
  split at hs
  · cases hs
    exact ⟨rfl, rfl⟩
  split at hs
  · cases hs
    exact ⟨(congrArg Lsq.loadQueue (core_storePostSend _) :),
      (congrArg Lsq.storeQueue (core_storePostSend _) :)⟩
  · have hlast := sendLast_frame hs
    exact hlast

theorem recvRetry (h : Inv c s L K w) (hs : s.recvRetry c = some s') : ∃ w', Inv c s' L K w' := by
  rw [Lsq.recvRetry] at hs
  split at hs
  · cases hs
    exact ⟨w, h⟩
  obtain ⟨pkt, hpkt, hs⟩ := bind_eq_some_iff.mp hs
  obtain ⟨t, hfind, hs⟩ := bind_eq_some_iff.mp hs
  obtain ⟨htmem, htinst, honly⟩ := h.find_sender hfind
  have hp : s.pendingPkt = none := h.sending.one (by rw [hpkt]; rfl)
  have hpend : s.hasPendingPkt = false := by rw [h.pending, hp]; rfl
  have hunsent (t : StoreSender) (ht : t.inst = pkt.inst) :
      t.unsent s.retryPkt s.pendingPkt = if t.pktToSend && !pkt.second then 2 else 1 := by
    rw [hpkt, StoreSender.unsent_retry ht.symm]
  obtain ⟨p, e, htr⟩ := h.sending.sender t htmem
  obtain rfl := htr.sending (h.sending.unsent_pos (.inl hpkt) htinst)
  have hw := (List.getElem?_eq_some_iff.mp htr.at_).1
  simp only at hs
  split at hs
  · cases hs
    exact ⟨p, h.congr rfl⟩
  split at hs
  · -- it was the last packet
    next hlast =>
    cases hs
    refine ⟨p + 1, h.resend
      (f := fun t => { t with inMemory := t.inMemory + 1, pktToSend := false })
      (.inl hpkt) (fun _ => ⟨rfl, rfl, rfl⟩) none (by simp) (fun t' ht' hk hwhole hn => ?_) rfl ?_⟩
    · rw [hunsent t' hk] at hn
      obtain rfl := honly t' ht' hk
      split at hn
      · next htwo =>
        simp only [and_eq_true, not_eq_true'] at htwo
        simp only [htwo, Bool.or_false, Bool.not_true, not_eq_true'] at hlast
        have := hwhole hlast
        omega
      · exact hn
    · refine (congrArg (fun s : Lsq => { s with retryPkt := none, isStoreBlocked := false }.core)
        (core_storePostSend _) :).trans ?_
      rw [← h.next_wbIdx hw]
      simp only [core, setSender, kept, hp, hpend, isSome_none]
      rw [map_map_sender fun _ => by rfl]
  · -- the second packet follows
    next hlast =>
    simp only [Bool.or_eq_true, not_eq_true', not_or, Bool.not_eq_true,
      Bool.not_eq_false] at hlast
    obtain ⟨⟨-, hpkts⟩, hsecond⟩ := hlast
    have hcount (t' : StoreSender) (ht' : t' ∈ s.senders) (hk : t'.inst = pkt.inst)
        (hn : t'.outstanding = t'.inMemory + t'.unsent s.retryPkt s.pendingPkt) :
        t'.outstanding = t'.inMemory + 2 := by
      rw [hunsent t' hk] at hn
      obtain rfl := honly t' ht' hk
      rwa [hpkts, hsecond] at hn
    rcases core_sendLast hs with hc | ⟨-, hc⟩
    · refine ⟨p + 1, h.resend (f := fun t => { t with inMemory := t.inMemory + 1 + 1 }) (.inl hpkt)
        (fun _ => ⟨rfl, rfl, rfl⟩) none (by simp)
        (fun t' ht' hk _ hn => hcount t' ht' hk hn) rfl ?_⟩
      rw [hc, ← h.next_wbIdx hw]
      simp only [core, setSender, kept, hp, hpend, isSome_none]
      rw [map_map_sender fun _ => by rfl]
    · refine ⟨p, h.resend (f := fun t => { t with inMemory := t.inMemory + 1 }) (.inl hpkt)
        (fun _ => ⟨rfl, rfl, rfl⟩) (some ⟨pkt.inst, true⟩) (by simp)
        (fun t' ht' hk _ hn => ?_) rfl ?_⟩
      · rw [hcount t' ht' hk hn, StoreSender.unsent_retry (by exact hk.symm)]
        simp
      · rw [hc, ← h.wbIdx]
        simp only [core, setSender, kept, hp, hpend, isSome_none, Option.isSome_some]

theorem storeResponse (h : Inv c s L K w)
    (hmem : s.senders.any (fun t => t.inst == k && decide (0 < t.inMemory)))
    (hs : s.storeResponse c k = some s') : (∃ K' w', Inv c s' L K' w') ∧ WroteBack s s' := by
  rw [Lsq.storeResponse] at hs
  obtain ⟨t, hfind, hs⟩ := bind_eq_some_iff.mp hs
  obtain ⟨ht, hinst, honly⟩ := h.find_sender hfind
  have hmem : 0 < t.inMemory := by
    obtain ⟨t', ht', hk⟩ := any_eq_true.mp hmem
    simp only [and_eq_true, beq_iff_eq, decide_eq_true_eq] at hk
    rw [← honly t' ht' hk.1]
    exact hk.2
  obtain ⟨p, e, htr⟩ := h.sending.sender t ht
  have hpackets := htr.packets
  split at hs
  · -- the other half is still out
    next htwo =>
    simp only [and_eq_true, bne_iff_ne, ne_eq] at htwo
    cases hs
    refine ⟨⟨K, w, h.withPackets (.inl rfl) (h.sending.change (k := k)
      (f := fun t => { t with outstanding := t.outstanding - 1, inMemory := t.inMemory - 1 })
      (fun _ => ⟨rfl, rfl⟩) h.sending.one (fun t' ht' hk => ?_) (fun t' ht' hk => ⟨rfl, .inl rfl⟩)
      h.sending.origin fun _ hp => hp) ?_⟩, h.wroteBack_same rfl rfl⟩
    · obtain rfl := honly t' ht' hk
      have hsame : StoreSender.unsent { t' with
          outstanding := t'.outstanding - 1
          inMemory := t'.inMemory - 1 } s.retryPkt s.pendingPkt =
            t'.unsent s.retryPkt s.pendingPkt := by
        cases s.retryPkt <;> cases s.pendingPkt <;> rfl
      have hsome := htr.some
      rw [hsame, htwo.1]
      refine ⟨?_, ?_, nofun, fun hz => .inl ⟨hz, rfl⟩, fun hz => ⟨hz, rfl⟩⟩
      · show t'.outstanding - 1 = t'.inMemory - 1 + _
        omega
      · show 0 < t'.outstanding - 1
        omega
    · rw [← h.wbIdx, kept, ← h.blocked, ← h.pending]
      rfl
  · -- the store is done
    next hone =>
    have hout : t.outstanding = 1 := by
      by_contra hne
      refine hone ?_
      cases hun : c.hasUnalignedMemAcc with
      | true => simpa using hne
      | false => exact absurd (htr.whole hun) hne
    have hz : t.unsent s.retryPkt s.pendingPkt = 0 := by omega
    have hkeep (pkt : StorePkt) (hk : s.retryPkt = some pkt ∨ s.pendingPkt = some pkt) :
        pkt.inst ≠ k :=
      fun hi => h.sending.unsent_pos hk (hinst.trans hi.symm) hz
    have h₁ : Inv c { s with senders := s.senders.filter (·.inst ≠ k) } L K w := by
      refine h.withPackets (.inl rfl) (h.sending.remove hkeep) ?_
      rw [← h.wbIdx, kept, ← h.blocked, ← h.pending]
    simp only at hs
    split at hs
    · cases hs
      exact ⟨⟨K, w, h₁⟩, h.wroteBack_same rfl rfl⟩
    rw [htr.idx] at hs
    obtain ⟨r₁, r', hr₁, hr', hc⟩ := core_completeStore hs
    have hgone (t' : StoreSender) (ht' : t' ∈ s.senders.filter (·.inst ≠ k)) :
        t'.inst ≠ e.seqNum := by
      rw [htr.inst, hinst]
      simpa using (mem_filter.mp ht').2
    obtain ⟨K', w', h', -, hwrote⟩ :=
      h₁.complete htr.at_ (htr.sent hz) htr.uncompleted hgone hr₁ hr' hc
    exact ⟨⟨K', w', h'⟩, hwrote.loadQueue, hwrote.storeQueue⟩

/-! ## Loads, execution and commit -/

/-- What commit and squash take out of the load queue. -/
theorem withLoads (h : Inv c s L K w) {r : Lib.Ring (Option LqEntry)} {L' : List Nat}
    (hsub : L'.Sublist L)
    (hr : ∃ ls : List LqEntry, r.Holds (ls.map some) ∧ ls.map (·.seqNum) = L')
    (hcore : s'.core = { s with loadQueue := r }.core) : Inv c s' L' K w :=
  congr (s := { s with loadQueue := r })
    { h with
      loads := hr
      loadOrder := h.loadOrder.sublist hsub
      loadLast := fun x hx => h.loadLast x (hsub.subset hx) } hcore

theorem commitLoads {youngest : Nat} {r r' : Lib.Ring (Option LqEntry)} {ls : List LqEntry}
    (hl : r.Holds (ls.map some)) (hs : Lsq.commitLoads youngest n r = some r') :
    ∃ d, d ≤ ls.length ∧ r'.Holds ((ls.drop d).map some) ∧ (∀ l ∈ ls.take d, l.seqNum ≤ youngest) ∧
      ∀ k, k + d < r.size → r'.index k = r.index (k + d) := by
  induction n generalizing r ls with
  | zero =>
    cases hs
    exact ⟨0, Nat.zero_le _, hl, by simp, fun _ _ => rfl⟩
  | succ n ih =>
    rw [Lsq.commitLoads] at hs
    split at hs
    · cases hs
      exact ⟨0, Nat.zero_le _, hl, by simp, fun _ _ => rfl⟩
    rename_i hne
    obtain ⟨ld, hld, hs⟩ := bind_eq_some_iff.mp hs
    split at hs
    · next hle =>
      cases ls with
      | nil => exact absurd hl.count hne
      | cons l ls =>
        have hhead := hl.slot 0 (by simp)
        rw [Lib.Ring.index_zero hl.head, hld] at hhead
        cases hhead
        obtain ⟨d, hlen, hd, hle', hidx⟩ := ih (hl.modify_popHead fun _ => none) hs
        refine ⟨d + 1, by simpa using hlen, hd, fun l' hl' => ?_, fun k hk => ?_⟩
        · rcases mem_cons.mp hl' with rfl | hl'
          · exact hle
          · exact hle' l' hl'
        · have hpop : (r.modify r.head fun _ => none).popHead.index (k + d) = r.index (k + d + 1) :=
            Lib.Ring.index_popHead (r := r.modify r.head fun _ => none) hl.head hk
          rw [hidx k (by show k + d < r.size; omega), hpop, Nat.add_assoc]
    · cases hs
      exact ⟨0, Nat.zero_le _, hl, by simp, fun _ _ => rfl⟩

theorem commitStores {youngest : Nat} {ps : List Nat} (h : Inv c s L K w)
    (hps : ∀ p ∈ ps, p < K.length)
    (hs : s.commitStores youngest (ps.map s.storeQueue.index) = some s') :
    ∃ K', Inv c s' L K' w := by
  induction ps generalizing s K with
  | nil =>
    cases hs
    exact ⟨K, h⟩
  | cons p ps ih =>
    have hp : p < K.length := hps p mem_cons_self
    have hps' : ∀ q ∈ ps, q < K.length := fun q hq => hps q (mem_cons_of_mem p hq)
    rw [map_cons, Lsq.commitStores] at hs
    split at hs
    · cases hs
    split at hs
    · exact ih h hps' hs
    rename_i hcan
    split at hs
    · cases hs
      exact ⟨K, h⟩
    have hslot := (h.stores.slot hp).1
    refine ih (h.allow (getElem?_eq_getElem hp) ?_) (by simpa using hps') hs
    rw [← hslot]
    exact Bool.eq_false_iff.mpr hcan

theorem checkViolations {isLoad : Bool} {addr size : Nat} {is : List Nat} {b : Bool}
    (h : Inv c s L K w)
    (hs : s.checkViolations c isLoad addr size is = some (s', b)) : Inv c s' L K w := by
  induction is generalizing s with
  | nil =>
    cases hs
    exact h
  | cons i is ih =>
    obtain ⟨ld, hld, hs⟩ := bind_eq_some_iff.mp hs
    split at hs
    · exact ih h hs
    split at hs
    · split at hs
      · split at hs
        · cases hs
          exact h.congr rfl
        · exact ih (h.modifyLoad i fun l _ =>
            ⟨{ l with possibleLoadViolation := true }, rfl, rfl⟩) hs
      · split at hs
        · cases hs
          exact h
        · cases hs
          exact h.congr rfl
    · exact ih h hs

/-- A slot of the store queue is a position. -/
theorem position (h : Inv c s L K w) (hi : s.isStore i) :
    ∃ p, p < K.length ∧ i = s.storeQueue.index p := by
  simp only [isStore, and_eq_true, decide_eq_true_eq, Lsq.stores, h.stores.count] at hi
  exact ⟨_, by omega, (Lib.Ring.index_distance h.stores.head_lt hi.1).1.symm⟩

theorem executeStore {acc : StoreAccess} {b : Bool} (h : Inv c s L K w) (hi : s.isStore i)
    (hsc : (s.storeQueue.slot i).isStoreConditional → (s.storeQueue.slot i).canWB = false)
    (hs : s.executeStore c i acc = some (s', b)) : ∃ K', Inv c s' L K' w := by
  obtain ⟨p, hp, rfl⟩ := h.position hi
  cases acc with
  | access req split data =>
    simp only [Lsq.executeStore] at hs
    split at hs
    · cases hs
    have h₁ := h.modifyStore (f := fun e => writeMem c e req split data) hp
      (fun _ => rfl) fun _ => rfl
    split at hs
    · cases hs
      exact ⟨K, h₁⟩
    rw [allowSC] at hs
    split at hs
    · next hcond =>
      have hslot := (h.stores.slot hp).1
      have hself : (s.storeQueue.modify
        (s.storeQueue.index p) fun e => writeMem c e req split data).slot
          (s.storeQueue.index p) = writeMem c
          (s.storeQueue.slot (s.storeQueue.index p)) req split data :=
        Function.update_self ..
      rw [hself] at hcond
      refine ⟨_, (h₁.allow (p := p) (getElem?_eq_getElem hp) ?_).checkViolations hs⟩
      rw [← hslot]
      exact hsc hcond
    · exact ⟨K, h₁.checkViolations hs⟩
  | delayed | predicatedOff | fault =>
    simp only [Lsq.executeStore] at hs
    split at hs <;> cases hs
    exact ⟨K, h⟩

theorem core_stall {st : Nat} (hs : s.stall i st n = some s') : s'.core = s.core := by
  simp only [Lsq.stall] at hs
  split at hs
  · cases hs
    rfl
  · obtain ⟨l, -, hs⟩ := bind_eq_some_iff.mp hs
    split at hs <;> cases hs <;> rfl

theorem core_read {ld : LqEntry} {req : MemReq} {accepted : Bool} {r : Lsq × ReadResult}
    (hs : s.read i ld req accepted = some r) : r.1.core = s.core := by
  simp only [Lsq.read] at hs
  split at hs
  · cases hs
    rfl
  split at hs
  · cases hs
    rfl
  obtain ⟨found, -, hs⟩ := bind_eq_some_iff.mp hs
  cases found with
  | nothing | full =>
    cases hs
    rfl
  | overlap st =>
    obtain ⟨s₁, hs₁, rfl⟩ := map_eq_some_iff.mp hs
    exact core_stall hs₁

theorem executeLoad {req : MemReq} {accepted : Bool} {r : ReadResult} (h : Inv c s L K w)
    (hs : s.executeLoad c i req accepted = some (s', r)) : Inv c s' L K w := by
  obtain ⟨ld, hld, hs⟩ := bind_eq_some_iff.mp hs
  split at hs
  · cases hs
  obtain ⟨⟨s₁, r₁⟩, hs₁, hs⟩ := bind_eq_some_iff.mp hs
  have hc := core_read hs₁
  have hslot : s₁.loadQueue.slot i = some ld := by
    rw [show s₁.loadQueue = s.loadQueue from (congrArg Lsq.loadQueue hc :)]
    exact hld
  have h₂ := (h.congr hc).modifyLoad i (f := fun _ => some { ld with
    effAddr := req.vaddr
    effSize := req.size
    effAddrValid := true
    strictlyOrdered := req.strictlyOrdered
    obtained := r₁.obtained }) fun l hl => ⟨_, rfl, by rw [hslot] at hl; cases hl; rfl⟩
  simp only at hs
  split at hs
  · obtain ⟨⟨s₃, b⟩, hs₃, heq⟩ := map_eq_some_iff.mp hs
    cases heq
    exact h₂.checkViolations hs₃
  · cases hs
    exact h₂

/-! ## Squash -/

/-- The last store goes, which cannot write back. -/
theorem dropStore (h : Inv c s L (K ++ [e]) w) (hcan : e.canWB = false) (n : Nat) :
    Inv c (s.dropStore (s.storeQueue.prev s.storeQueue.tail) n) L K w := by
  have hget (k : Nat) (hk : k < K.length) : (K ++ [e])[k]? = K[k]? := getElem?_append_left hk
  have hlast (x : QueuedStore) (hx : (K ++ [e])[K.length]? = some x) : x = e := by
    simpa [eq_comm] using hx
  have hwb : w ≤ K.length := by
    by_contra hlt
    have := h.canWB K.length e (by simp) (by omega)
    rw [hcan] at this
    cases this
  have hsub : (K.map (·.seqNum)).Sublist ((K ++ [e]).map (·.seqNum)) :=
    (sublist_append_left K [e]).map _
  refine ⟨h.loads, h.stores.popTail clearEntry, h.small, hwb, h.wbIdx, h.loadOrder,
    h.storeOrder.sublist hsub, h.loadLast, fun x hx => h.storeLast x (hsub.subset hx),
    fun k x hx hk => h.canWB k x (by rw [hget k (by omega)]; exact hx) hk, fun k x hx hk => ?_, ?_,
    h.sending.remap fun t ht p y hy _ hycan hycomp => ?_, h.blocked, h.pending⟩
  · obtain ⟨hk', -⟩ := List.getElem?_eq_some_iff.mp hx
    exact h.fresh k x (by rw [hget k hk']; exact hx) hk
  · show s.storesToWB = _
    rw [h.count]
    simp [toWB, countP_append, hcan]
  · obtain ⟨hp, -⟩ := List.getElem?_eq_some_iff.mp hy
    rw [length_append, length_singleton] at hp
    have hne : p ≠ K.length := by
      rintro rfl
      rw [hlast y hy, hcan] at hycan
      cases hycan
    exact ⟨p, y, by rw [← hget p (by omega)]; exact hy, rfl, hycan, hycomp, rfl, id, id⟩

theorem spared_dropStore (h : Inv c s L (K ++ [e]) w) (hcan : e.canWB = false) (n : Nat) :
    Spared s.storeQueue (s.dropStore (s.storeQueue.prev s.storeQueue.tail) n).storeQueue := by
  have hidx : s.storeQueue.prev s.storeQueue.tail = s.storeQueue.index K.length := by
    obtain ⟨q, hq, hK, -⟩ := h.stores.holds
    obtain ⟨q, l, rfl, rfl, hl⟩ := map_eq_append_iff.mp hK
    obtain ⟨x, rfl, -⟩ := map_eq_singleton_iff.mp hl
    rw [hq.prev_tail, length_map]
  have hcount := h.stores.count
  have hroom := h.stores.room
  rw [length_append, length_singleton] at hcount hroom
  refine ⟨rfl, rfl, fun k hk hkcan => ?_⟩
  have hne : k ≠ K.length := by
    rintro rfl
    have hview := (h.stores.slot (p := K.length) (by simp)).1
    rw [getElem_concat_length rfl] at hview
    rw [← hview] at hcan
    exact Bool.false_ne_true (hcan.symm.trans hkcan)
  refine ⟨?_, ?_⟩
  · show (k : Int) < s.storeQueue.count - 1
    omega
  show Function.update s.storeQueue.slot _ _ (s.storeQueue.index k) = _
  refine Function.update_of_ne (fun he => hne ?_) _ _
  rw [hidx] at he
  exact Lib.Ring.index_injective (by omega) (by omega) he

theorem squashStores (h : Inv c s L K w) (hs : Lsq.squashStores squashedNum n s = some s') :
    (∃ K', Inv c s' L K' w) ∧ Spared s.storeQueue s'.storeQueue := by
  induction n generalizing s K with
  | zero =>
    cases hs
    exact ⟨⟨K, h⟩, .refl _⟩
  | succ n ih =>
    rw [Lsq.squashStores] at hs
    split at hs
    · cases hs
      exact ⟨⟨K, h⟩, .refl _⟩
    rename_i hne
    split at hs
    · cases hs
    split at hs
    · next hgo =>
      split at hs
      · cases hs
      rw [and_eq_true, not_eq_true'] at hgo
      rcases eq_nil_or_concat' K with rfl | ⟨K, e, rfl⟩
      · exact absurd h.stores.count hne
      have hcan : e.canWB = false := by
        rw [← h.stores.prev_tail.1]
        exact hgo.2
      obtain ⟨hinv, hsp⟩ := ih (h.dropStore hcan _) hs
      exact ⟨hinv, (h.spared_dropStore hcan _).trans hsp⟩
    · cases hs
      exact ⟨⟨K, h⟩, .refl _⟩

theorem core_dropLoad (s : Lsq) (i n : Nat) :
    (s.dropLoad i n).core =
      { s with loadQueue := (s.loadQueue.modify i fun _ => none).popTail }.core := by
  simp only [Lsq.dropLoad]
  split <;> rfl

theorem squashLoads (h : Inv c s L K w) (hs : Lsq.squashLoads squashedNum n s = some s') :
    ∃ L', Inv c s' L' K w ∧ s'.storeQueue = s.storeQueue := by
  induction n generalizing s L with
  | zero =>
    cases hs
    exact ⟨L, h, rfl⟩
  | succ n ih =>
    rw [Lsq.squashLoads] at hs
    split at hs
    · cases hs
      exact ⟨L, h, rfl⟩
    rename_i hne
    obtain ⟨ld, hld, hs⟩ := bind_eq_some_iff.mp hs
    split at hs
    · obtain ⟨ls, hl, rfl⟩ := h.loads
      rcases eq_nil_or_concat' ls with rfl | ⟨ls, l, rfl⟩
      · exact absurd hl.count hne
      rw [map_append, map_singleton] at hl
      have hc := core_dropLoad s (s.loadQueue.prev s.loadQueue.tail) ld.seqNum
      obtain ⟨L', h', hq⟩ := ih (h.withLoads (by simp) ⟨ls, hl.modify_popTail _, rfl⟩ hc) hs
      exact ⟨L', h', hq.trans (congrArg Lsq.storeQueue hc :)⟩
    · cases hs
      exact ⟨L, h, rfl⟩

theorem squash (h : Inv c s L K w) (hs : s.squash squashedNum = some s') :
    (∃ L' K', Inv c s' L' K' w) ∧ Spared s.storeQueue s'.storeQueue := by
  obtain ⟨s₁, hs₁, hs⟩ := bind_eq_some_iff.mp hs
  obtain ⟨L', h₁, hq⟩ := h.squashLoads hs₁
  have h₂ : Inv c { s₁ with memDepViolator := s₁.memDepViolator.filter (· ≤ squashedNum) } L' K w :=
    h₁.congr rfl
  obtain ⟨⟨K', h'⟩, hsp⟩ := h₂.squashStores hs
  exact ⟨⟨L', K', h'⟩, hq ▸ hsp⟩

end Inv

/-! ## Runs -/

/-- A store conditional that executes cannot write back yet. -/
def executesOnce (s : Lsq) : LsqEvent → Bool
  | .executeStore idx _ =>
    !((s.storeQueue.slot idx).isStoreConditional && (s.storeQueue.slot idx).canWB)
  | _ => true

theorem inv_start {c : QueueConfig} {s : Lsq} (h : (queueMachine c).start s) : Inv c s [] [] 0 := by
  obtain ⟨LQEntries, SQEntries, hlq, -, hsq, hsq', rfl⟩ :
    ∃ LQEntries SQEntries : Nat, 0 < LQEntries ∧ LQEntries ≤ 256 ∧ 0 < SQEntries ∧ SQEntries ≤ 256 ∧
      s = { loadQueue := { size := LQEntries, slot := fun _ => none }
            storeQueue := { size := SQEntries, slot := fun _ => {} } } := h
  have hempty {α : Type} (n : Nat) (f : Nat → α) (hn : 0 < n) :
      (Lib.Ring.mk n f 0 0 0).Holds [] :=
    ⟨hn, hn, by simp [Lib.Ring.index, hn], rfl, by simp⟩
  refine ⟨⟨[], hempty _ _ hlq, rfl⟩, ⟨[], hempty _ _ hsq, rfl, by simp⟩, hsq', le_rfl, ?_,
    List.Pairwise.nil,
    List.Pairwise.nil, by simp, by simp, by simp, by simp, rfl,
      ⟨by simp, by simp, by simp, by simp, by simp⟩,
    rfl, rfl⟩
  simp [Lib.Ring.index, hsq]

theorem inv_step {c : QueueConfig} {s s' : Lsq} {e : LsqEvent} {L : List Nat} {K : List QueuedStore}
    {w : Nat} (h : Inv c s L K w) (he : s.executesOnce e) (hs : s.step c e = some s') :
    ∃ L' K' w', Inv c s' L' K' w' := by
  rw [Lsq.step] at hs
  split at hs
  · next hall =>
    cases e with
    | insertLoad x =>
      simp only [allowed, and_eq_true, decide_eq_true_eq] at hall
      exact ⟨_, _, _, h.insertLoad hall.1 hall.2 hs⟩
    | insertStore x =>
      simp only [allowed, and_eq_true, decide_eq_true_eq] at hall
      exact ⟨_, _, _, h.insertStore hall.1 hall.2 hs⟩
    | executeLoad i req accepted =>
      obtain ⟨⟨s₁, r⟩, hs₁, rfl⟩ := map_eq_some_iff.mp hs
      exact ⟨_, _, _, h.executeLoad hs₁⟩
    | executeStore i acc =>
      obtain ⟨⟨s₁, b⟩, hs₁, rfl⟩ := map_eq_some_iff.mp hs
      simp only [executesOnce, not_eq_true', Bool.and_eq_false_iff] at he
      obtain ⟨K', h'⟩ := h.executeStore hall
        (fun hsc => he.resolve_left (by rw [hsc]; exact Bool.noConfusion)) hs₁
      exact ⟨_, _, _, h'⟩
    | getMemDepViolator | setSquashed =>
      cases hs
      exact ⟨_, _, _, h.congr rfl⟩
    | setFenceDelay i b =>
      cases hs
      exact ⟨_, _, _, h.setLoad i fun _ => rfl⟩
    | setAtCommit i | setExecuted i | hitExternalSnoop i =>
      cases hs
      exact ⟨_, _, _, h.setLoad i fun _ => rfl⟩
    | commitLoads y =>
      obtain ⟨r, hr, rfl⟩ := map_eq_some_iff.mp hs
      obtain ⟨ls, hl, rfl⟩ := h.loads
      obtain ⟨d, -, hd, -⟩ := Inv.commitLoads hl hr
      exact ⟨_, _, _, h.withLoads ((drop_sublist d ls).map _) ⟨_, hd, rfl⟩ rfl⟩
    | commitStores y =>
      have hs : s.commitStores y
        (s.storeQueue.indices s.storeQueue.size s.storeQueue.head) = some s' := hs
      rw [h.stores.indices] at hs
      obtain ⟨K', h'⟩ := h.commitStores (by simp) hs
      exact ⟨_, _, _, h'⟩
    | writebackStores answers successes =>
      have h₁ : Inv c { s with answers, successes } L K w := h.congr rfl
      obtain ⟨⟨K', w', h'⟩, -⟩ := h₁.writebackStores hs
      exact ⟨_, _, _, h'⟩
    | storeResponse inst =>
      obtain ⟨⟨K', w', h'⟩, -⟩ := h.storeResponse hall hs
      exact ⟨_, _, _, h'⟩
    | recvRetry answers =>
      have h₁ : Inv c { s with answers } L K w := h.congr rfl
      obtain ⟨w', h'⟩ := h₁.recvRetry hs
      exact ⟨_, _, _, h'⟩
    | squash n =>
      obtain ⟨⟨L', K', h'⟩, -⟩ := h.squash hs
      exact ⟨_, _, _, h'⟩
  · cases hs

/-- What the slots, the indices and the counters say. -/
structure WellFormed (s : Lsq) : Prop where
  loads : s.loads = s.loadQueue.distance s.loadQueue.tail
  stores : s.stores = s.storeQueue.distance s.storeQueue.tail
  load : ∀ k : Nat, (k : Int) < s.loads → (s.loadQueue.slot (s.loadQueue.index k)).isSome = true
  store : ∀ k : Nat, (k : Int) < s.stores →
    (s.storeQueue.slot (s.storeQueue.index k)).hasInst = true
  loadOrder : ∀ j k : Nat, j < k → (k : Int) < s.loads →
    ∀ a ∈ s.loadQueue.slot (s.loadQueue.index j), ∀ b ∈ s.loadQueue.slot (s.loadQueue.index k),
      a.seqNum < b.seqNum
  storeOrder : ∀ j k : Nat, j < k → (k : Int) < s.stores →
    (s.storeQueue.slot (s.storeQueue.index j)).seqNum <
    (s.storeQueue.slot (s.storeQueue.index k)).seqNum
  wb : (s.storeQueue.distance s.storeWBIdx : Int) ≤ s.stores ∧ s.storeWBIdx < s.storeQueue.size
  canWB : ∀ k < s.storeQueue.distance s.storeWBIdx,
    (s.storeQueue.slot (s.storeQueue.index k)).canWB = true
  storesToWB : s.storesToWB = (List.range s.stores.toNat).countP fun k =>
    (s.storeQueue.slot (s.storeQueue.index k)).canWB &&
    !(s.storeQueue.slot (s.storeQueue.index k)).completed

theorem Inv.wellFormed {c : QueueConfig} {s : Lsq} {L : List Nat} {K : List QueuedStore} {w : Nat}
    (h : Inv c s L K w) : s.WellFormed := by
  obtain ⟨ls, hl, rfl⟩ := h.loads
  have hcount : s.loads = ls.length := by
    rw [Lsq.loads, hl.count, length_map]
  have hstores : s.stores = K.length := h.stores.count
  have hw : s.storeQueue.distance s.storeWBIdx = w := by
    rw [h.wbIdx]
    exact Lib.Ring.distance_index h.stores.head_lt (h.wb.trans_lt h.stores.room)
  have hload (k : Nat) (hk : (k : Int) < s.loads) :
      ∃ hk : k < ls.length, s.loadQueue.slot (s.loadQueue.index k) = some ls[k] := by
    have hk : k < ls.length := by omega
    refine ⟨hk, (hl.slot k (by simpa using hk)).trans (getElem_map ..)⟩
  have hstore (k : Nat) (hk : (k : Int) < s.stores) :
      ∃ hk : k < K.length, (s.storeQueue.slot (s.storeQueue.index k)).view = K[k] ∧
        (s.storeQueue.slot (s.storeQueue.index k)).hasInst = true := by
    have hk : k < K.length := by omega
    exact ⟨hk, h.stores.slot hk⟩
  refine ⟨?_, ?_, fun k hk => ?_, fun k hk => ?_, fun j k hjk hk a ha b hb => ?_,
    fun j k hjk hk => ?_,
    ⟨?_, ?_⟩, fun k hk => ?_, ?_⟩
  · rw [hl.distance_tail, hcount, length_map]
  · rw [h.stores.tail, Lib.Ring.distance_index h.stores.head_lt h.stores.room, hstores]
  · obtain ⟨hk, hslot⟩ := hload k hk
    rw [hslot]
    rfl
  · exact (hstore k hk).2.2
  · obtain ⟨hj', hslotj⟩ := hload j (by omega)
    obtain ⟨hk', hslotk⟩ := hload k hk
    rw [hslotj] at ha
    rw [hslotk] at hb
    cases ha
    cases hb
    exact pairwise_iff_getElem.mp (pairwise_map.mp h.loadOrder) j k hj' hk' hjk
  · obtain ⟨hj', hviewj, -⟩ := hstore j (by omega)
    obtain ⟨hk', hviewk, -⟩ := hstore k hk
    have hlt := pairwise_iff_getElem.mp h.storeOrder' j k hj' hk' hjk
    rw [← hviewj, ← hviewk] at hlt
    exact hlt
  · rw [hw, hstores]
    have := h.wb
    omega
  · rw [h.wbIdx]
    exact Lib.Ring.index_lt h.stores.head_lt (h.wb.trans_lt h.stores.room)
  · rw [hw] at hk
    have hwb := h.wb
    obtain ⟨hk', hview, -⟩ := hstore k (by omega)
    have hcan := h.canWB k _ (getElem?_eq_getElem hk') hk
    rw [← hview] at hcan
    exact hcan
  · rw [h.count, hstores, Int.toNat_natCast, toWB]
    have hK : K = (List.range K.length).map fun k =>
      (s.storeQueue.slot (s.storeQueue.index k)).view := by
      refine ext_getElem (by simp) fun k hk _ => ?_
      rw [getElem_map, getElem_range]
      exact (h.stores.slot hk).1.symm
    conv_lhs => rw [hK, countP_map]
    rfl

end Lsq

theorem queues_well_formed (c : QueueConfig) {s : Lsq}
    (h : (queueMachine c).ReachWhen (fun s e => s.executesOnce e = true) s) :
    s.WellFormed ∧ ∀ n s', (queueMachine c).step s (.squash n) = some s' →
      Spared s.storeQueue s'.storeQueue := by
  obtain ⟨L, K, w, hinv⟩ : ∃ L K w, Lsq.Inv c s L K w :=
    h.invariant (I := fun s => ∃ L K w, Lsq.Inv c s L K w) (fun s hs => ⟨_, _, _, Lsq.inv_start hs⟩)
      fun s e s' ⟨_, _, _, hi⟩ he hs => Lsq.inv_step hi he hs
  exact ⟨hinv.wellFormed, fun n s' hs => (hinv.squash hs).2⟩

/-- A thread with four entries in each queue. -/
def fourEntries : Lsq where
  loadQueue := { size := 4, slot := fun _ => none }
  storeQueue := { size := 4, slot := fun _ => {} }

theorem fourEntries_start (c : QueueConfig) : (queueMachine c).start fourEntries :=
  ⟨4, 4, by decide, by decide, by decide, by decide, rfl⟩

/-- A store conditional has been sent when the store and the load behind it are squashed. -/
def sentAndSquashed : List LsqEvent :=
  [.insertStore 1 true false,
    .executeStore 0 (.access ⟨64, 8, false, false, false, true, false, false⟩ false []),
    .insertStore 2 false false, .insertLoad 3, .commitStores 1, .writebackStores [] [], .squash 1]

theorem queues_well_formed_squashed :
    ∃ s, (queueMachine {}).ReachWhen (fun s e => s.executesOnce e = true) s ∧ s.storesToWB = 1 ∧
      s.storeWBIdx = 1 ∧ s.stores = 1 ∧ s.WellFormed := by
  have hr : (queueMachine {}).ReachWhen (fun s e => s.executesOnce e = true)
      (((queueMachine {}).run fourEntries sentAndSquashed).getD fourEntries) :=
    .run (.start (s := fourEntries) (fourEntries_start {})) sentAndSquashed (by decide +kernel)
      (Machine.run_getD (by decide +kernel))
  exact ⟨_, hr, by decide +kernel, by decide +kernel, by decide +kernel,
    (queues_well_formed {} hr).1⟩

/-- A store conditional that executes twice is counted twice. -/
theorem storesToWB_overcounts :
    ∃ s, (queueMachine {}).Reach s ∧ s.stores = 1 ∧ s.storesToWB = 2 := by
  let acc : Lsq.StoreAccess := .access ⟨64, 8, false, false, false, true, false, false⟩ false []
  let twice : List LsqEvent := [.insertStore 1 true false, .executeStore 0 acc, .executeStore 0 acc]
  have hr : (queueMachine {}).Reach (((queueMachine {}).run fourEntries twice).getD fourEntries) :=
    Machine.reach_run (fourEntries_start {}) (Machine.run_getD (by decide +kernel))
  exact ⟨_, hr, by decide +kernel, by decide +kernel⟩

end SdoCore
