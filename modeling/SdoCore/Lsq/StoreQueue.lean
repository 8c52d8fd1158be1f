import SdoCore.Lsq.Queues

/-! What matters of the store queue: the buffer holds a list of stores with the two flags of the
write-back (`Views`), and some of them have packets on their way to memory (`Sending`). A store that
is being sent is the one at `storeWBIdx`; one that the cache is going to answer stands before it and
is not completed. -/

namespace SdoCore

open List
open Lib

/-- What matters of a store in its queue. -/
structure QueuedStore where
  seqNum : Nat
  canWB : Bool
  completed : Bool
  deriving DecidableEq

def SQEntry.view (e : SQEntry) : QueuedStore := ⟨e.seqNum, e.canWB, e.completed⟩

namespace QueuedStore

def allow (e : QueuedStore) : QueuedStore := { e with canWB := true }

def complete (e : QueuedStore) : QueuedStore := { e with completed := true }

/-- The stores `storesToWB` counts. -/
def toWB (K : List QueuedStore) : Nat := K.countP fun e => e.canWB && !e.completed

end QueuedStore

open QueuedStore (toWB)

/-! ## The view of the store queue -/

/-- The buffer holds stores with these views. -/
structure Views (r : Lib.Ring SQEntry) (K : List QueuedStore) : Prop where
  holds : ∃ q, r.Holds q ∧ q.map SQEntry.view = K ∧ ∀ e ∈ q, e.hasInst = true

namespace Views

variable {r : Lib.Ring SQEntry} {K : List QueuedStore} {x : QueuedStore} {p : Nat}

section
variable (h : Views r K)
include h

theorem head_lt : r.head < r.size := by
  obtain ⟨q, hq, -⟩ := h.holds
  exact hq.head

theorem room : K.length < r.size := by
  obtain ⟨q, hq, rfl, -⟩ := h.holds
  simpa using hq.room

theorem count : r.count = K.length := by
  obtain ⟨q, hq, rfl, -⟩ := h.holds
  simpa using hq.count

theorem tail : r.tail = r.index K.length := by
  obtain ⟨q, hq, rfl, -⟩ := h.holds
  simpa using hq.tail

theorem slot (hp : p < K.length) :
    (r.slot (r.index p)).view = K[p] ∧ (r.slot (r.index p)).hasInst := by
  obtain ⟨q, hq, rfl, hinst⟩ := h.holds
  have hp : p < q.length := by simpa using hp
  rw [hq.slot p hp]
  exact ⟨by simp, hinst _ (getElem_mem hp)⟩

theorem index_eq_tail (hp : p ≤ K.length) : r.index p = r.tail ↔ p = K.length := by
  obtain ⟨q, hq, rfl, -⟩ := h.holds
  simpa using hq.index_eq_tail (by simpa using hp)

theorem push (hroom : K.length + 1 < r.size) {e : SQEntry} (he : e.hasInst) :
    Views (r.push e) (K ++ [e.view]) := by
  obtain ⟨q, hq, rfl, hinst⟩ := h.holds
  refine ⟨q ++ [e], hq.push (by simpa using hroom) e, by simp, fun e' he' => ?_⟩
  rcases mem_append.mp he' with h | h
  · exact hinst e' h
  · rw [mem_singleton.mp h]
    exact he

theorem modify (hp : p < K.length) {f : SQEntry → SQEntry}
    {g : QueuedStore → QueuedStore} (hf : ∀ e, (f e).view = g e.view)
    (hi : ∀ e, (f e).hasInst = e.hasInst) : Views (r.modify (r.index p) f) (K.modify p g) := by
  obtain ⟨q, hq, rfl, hinst⟩ := h.holds
  have hp : p < q.length := by simpa using hp
  refine ⟨q.modify p f, hq.modify hp f, ?_, fun e he => ?_⟩
  · refine ext_getElem (by simp) fun k hk hk' => ?_
    simp only [getElem_map, getElem_modify]
    split
    · exact hf _
    · rfl
  · obtain ⟨k, hk, rfl⟩ := mem_iff_getElem.mp he
    rw [getElem_modify]
    split
    · rw [hi]
      exact hinst _ (getElem_mem _)
    · exact hinst _ (getElem_mem _)

/-- An entry is changed in what does not show. -/
theorem modify_hidden (hp : p < K.length) {f : SQEntry → SQEntry}
    (hf : ∀ e, (f e).view = e.view) (hi : ∀ e, (f e).hasInst = e.hasInst) :
    Views (r.modify (r.index p) f) K := by
  have hm := h.modify (g := id) hp hf hi
  rwa [modify_id] at hm

end

theorem popHead (h : Views r (x :: K)) : Views r.popHead K := by
  obtain ⟨q, hq, hK, hinst⟩ := h.holds
  obtain ⟨e, q, rfl, -, rfl⟩ := map_eq_cons_iff.mp hK
  exact ⟨q, hq.popHead, rfl, fun e' he' => hinst e' (mem_cons_of_mem _ he')⟩

theorem popTail (h : Views r (K ++ [x])) (f : SQEntry → SQEntry) :
    Views (r.modify (r.prev r.tail) f).popTail K := by
  obtain ⟨q, hq, hK, hinst⟩ := h.holds
  obtain ⟨q, l, rfl, rfl, hl⟩ := map_eq_append_iff.mp hK
  obtain ⟨e, rfl, -⟩ := map_eq_singleton_iff.mp hl
  exact ⟨q, hq.modify_popTail f, rfl, fun e' he' => hinst e' (mem_append_left _ he')⟩

theorem prev_tail (h : Views r (K ++ [x])) :
    (r.slot (r.prev r.tail)).view = x ∧ (r.slot (r.prev r.tail)).hasInst := by
  obtain ⟨q, hq, hK, hinst⟩ := h.holds
  obtain ⟨q, l, rfl, rfl, hl⟩ := map_eq_append_iff.mp hK
  obtain ⟨e, rfl, rfl⟩ := map_eq_singleton_iff.mp hl
  rw [hq.slot_prev_tail]
  exact ⟨rfl, hinst e (by simp)⟩

/-- The loop from head to tail goes through the positions. -/
theorem indices (h : Views r K) :
    r.indices r.size r.head = (List.range K.length).map r.index := by
  obtain ⟨q, hq, rfl, -⟩ := h.holds
  have hloop := hq.indices_eq (k := 0) (n := r.size) (Nat.zero_le _) (by have := hq.room; omega)
  rwa [Lib.Ring.index_zero hq.head, Nat.sub_zero, ← range_eq_range',
    ← length_map SQEntry.view] at hloop

/-- `completeStore` takes the head and the completed stores behind it off the queue. -/
theorem advanceHead {n : Nat} (h : Views r (x :: K)) (hn : K.length < n) :
    ∃ d, 0 < d ∧ d ≤ K.length + 1 ∧ Views (Lsq.advanceHead n r) ((x :: K).drop d) ∧
      (Lsq.advanceHead n r).size = r.size ∧
      (∀ k, k + d < r.size → (Lsq.advanceHead n r).index k = r.index (k + d)) ∧
      ∀ e ∈ K.take (d - 1), e.completed := by
  induction n generalizing r x K with
  | zero => omega
  | succ n ih =>
    have hpop := h.popHead
    have hidx (k : Nat) (hk : k + 1 < r.size) : r.popHead.index k = r.index (k + 1) :=
      Lib.Ring.index_popHead h.head_lt hk
    rw [Lsq.advanceHead]
    split
    · next hc =>
      simp only [Bool.and_eq_true, bne_iff_ne, ne_eq] at hc
      obtain ⟨hcomp, hne⟩ := hc
      cases K with
      | nil =>
        refine absurd ?_ hne
        rw [hpop.tail, length_nil, Lib.Ring.index_zero hpop.head_lt]
      | cons y K =>
        have hy : y.completed = true := by
          have hs := (hpop.slot (p := 0) (by simp)).1
          rw [Lib.Ring.index_zero hpop.head_lt] at hs
          rw [getElem_cons_zero] at hs
          rw [← hs]
          exact hcomp
        obtain ⟨d, hd0, hd, hv, hsize, hix, htake⟩ := ih hpop (by simpa using hn)
        refine ⟨d + 1, by omega, by rw [length_cons]; omega, by simpa using hv, hsize,
          fun k hk => ?_, fun e he => ?_⟩
        · rw [hix k (by show k + d < r.size; omega), hidx _ (by omega)]
          rfl
        obtain ⟨m, rfl⟩ : ∃ m, d = m + 1 := ⟨d - 1, by omega⟩
        rw [Nat.add_sub_cancel, take_succ_cons, mem_cons] at he
        rcases he with rfl | he
        · exact hy
        · exact htake e (by simpa using he)
    · exact ⟨1, by omega, by omega, by simpa using hpop, rfl, hidx, by simp⟩

/-- A store completes: if it is the head, it is taken off with the completed stores behind it. -/
theorem complete (h : Views r K) (hp : p < K.length) {f : SQEntry → SQEntry}
    {r₁ r' : Lib.Ring SQEntry}
    (h₁ : r₁ = r.modify (r.index p) f)
    (hr : r' = if r.index p = r₁.head then Lsq.advanceHead r₁.size r₁ else r₁)
    (hf : ∀ e, (f e).view = e.view.complete) (hi : ∀ e, (f e).hasInst = e.hasInst) :
    ∃ d, d ≤ K.length ∧ Views r' ((K.modify p QueuedStore.complete).drop d) ∧ r'.size = r.size ∧
      (∀ k, k + d < r.size → r'.index k = r.index (k + d)) ∧
      ∀ e ∈ (K.modify p QueuedStore.complete).take d, e.completed := by
  have hv : Views r₁ (K.modify p QueuedStore.complete) := h₁ ▸ h.modify hp hf hi
  have hsize : r₁.size = r.size := by rw [h₁]; rfl
  have hidx (k : Nat) : r₁.index k = r.index k := by rw [h₁]; rfl
  by_cases hhead : r.index p = r₁.head
  · have hp0 : p = 0 := by
      rw [← Lib.Ring.index_zero hv.head_lt, hidx] at hhead
      exact Lib.Ring.index_injective (hp.trans h.room) (by have := h.room; omega) hhead
    subst hp0
    rw [if_pos hhead] at hr
    subst hr
    cases K with
    | nil => cases hp
    | cons x K =>
      rw [modify_zero_cons] at hv ⊢
      have hn : K.length < r₁.size := by
        have := hv.room
        rw [length_cons] at this
        omega
      obtain ⟨d, hd0, hd, hv', hsize', hix, htake⟩ := hv.advanceHead hn
      refine ⟨d, hd, hv', hsize'.trans hsize, fun k hk => ?_, fun e he => ?_⟩
      · rw [hix k (hsize ▸ hk), hidx]
      obtain ⟨m, rfl⟩ : ∃ m, d = m + 1 := ⟨d - 1, by omega⟩
      rcases mem_cons.mp he with rfl | he
      · rfl
      · exact htake e he
  · rw [if_neg hhead] at hr
    subst hr
    exact ⟨0, Nat.zero_le _, hv, hsize, fun k _ => hidx k, by simp⟩

end Views

/-! ## What the write-back does to the queue -/

/-- The loop of `completeStore` moves the head only. -/
theorem Lsq.advanceHead_frame (n : Nat) (r : Lib.Ring SQEntry) :
    (advanceHead n r).size = r.size ∧ (advanceHead n r).tail = r.tail ∧
    (advanceHead n r).slot = r.slot := by
  induction n generalizing r with
  | zero => exact ⟨rfl, rfl, rfl⟩
  | succ n ih =>
    rw [advanceHead]
    split
    · exact ih r.popHead
    · exact ⟨rfl, rfl, rfl⟩

/-- An entry without the two marks that the write-back makes. -/
def SQEntry.plain (e : SQEntry) : SQEntry := { e with committed := false, completed := false }

/-- Nothing changes but those marks, and the head moves over stores that can write back. -/
structure Rolled (r r' : Lib.Ring SQEntry) (d : Nat) : Prop where
  size : r'.size = r.size
  tail : r'.tail = r.tail
  count : r'.count = r.count - d
  head : r'.head = r.index d
  slot : ∀ i, (r'.slot i).plain = (r.slot i).plain
  bound : (d : Int) ≤ r.count
  gone : ∀ k < d, (r.slot (r.index k)).canWB = true

namespace Rolled

variable {r r' r'' : Lib.Ring SQEntry} {d d' : Nat}

theorem index (h : Rolled r r' d) (hr : r.head < r.size) {k : Nat} (hk : k + d < r.size) :
    r'.index k = r.index (k + d) := by
  have hh := h.head
  unfold Lib.Ring.index at hh ⊢
  rw [h.size]
  split at hh <;> split <;> split <;> omega

theorem canWB (h : Rolled r r' d) (i : Nat) : (r'.slot i).canWB = (r.slot i).canWB :=
  (congrArg SQEntry.canWB (h.slot i) :)

theorem of_modify (hr : r.head < r.size) (hc : 0 ≤ r.count) (i : Nat) {f : SQEntry → SQEntry}
    (hf : ∀ e, (f e).plain = e.plain) : Rolled r (r.modify i f) 0 := by
  refine ⟨rfl, rfl, by simp [Lib.Ring.modify], (Lib.Ring.index_zero hr).symm, fun j => ?_, hc,
    by simp⟩
  by_cases hj : j = i
  · subst hj
    rw [Lib.Ring.modify_slot_self, hf]
  · rw [Lib.Ring.modify_slot_of_ne hj]

theorem trans (h : Rolled r r' d) (h' : Rolled r' r'' d') (hr : r.head < r.size)
    (hc : r.count < r.size) : Rolled r r'' (d' + d) := by
  have hbound := h.bound
  have hbound' := h'.bound
  have hcount := h.count
  refine ⟨h'.size.trans h.size, h'.tail.trans h.tail, by rw [h'.count, h.count]; omega, ?_,
    fun i => (h'.slot i).trans (h.slot i), by omega, fun k hk => ?_⟩
  · rw [h'.head, h.index hr (by omega)]
  by_cases hkd : k < d
  · exact h.gone k hkd
  · have hg := h'.gone (k - d) (by omega)
    rwa [h.index hr (by omega), h.canWB, Nat.sub_add_cancel (by omega)] at hg

end Rolled

/-! ## Stores on their way to memory -/

/-- How many packets of a store have still to be sent, given the packets that are kept. -/
def StoreSender.unsent (t : StoreSender) : Option StorePkt → Option StorePkt → Nat
  | some pkt, _ => if pkt.inst = t.inst then if t.pktToSend && !pkt.second then 2 else 1 else 0
  | none, some pkt => if pkt.inst = t.inst then 1 else 0
  | none, none => 0

/-- The store of the sender `t` stands at position `p`: at `storeWBIdx` as long as a packet is left
to send, and before it afterwards. -/
structure Tracked (c : QueueConfig) (r : Lib.Ring SQEntry) (K : List QueuedStore) (w : Nat)
    (t : StoreSender) (unsent p : Nat) (e : QueuedStore) : Prop where
  at_ : K[p]? = some e
  inst : e.seqNum = t.inst
  canWB : e.canWB = true
  uncompleted : e.completed = false
  idx : t.idx = r.index p
  packets : t.outstanding = t.inMemory + unsent
  some : 0 < t.outstanding
  whole : c.hasUnalignedMemAcc = false → t.outstanding = 1
  sent : unsent = 0 → p < w
  sending : unsent ≠ 0 → p = w

/-- The stores that have a sender, with the packets kept for a retry and for a free port. -/
structure Sending (c : QueueConfig) (r : Lib.Ring SQEntry) (K : List QueuedStore) (w : Nat)
    (S : List StoreSender) (retry pending : Option StorePkt) : Prop where
  nodup : (S.map (·.inst)).Nodup
  one : retry.isSome = true → pending = none
  sender : ∀ t ∈ S, ∃ p e, Tracked c r K w t (t.unsent retry pending) p e
  origin : ∀ pkt, retry = some pkt ∨ pending = some pkt → ∃ t ∈ S, t.inst = pkt.inst
  half : ∀ pkt, pending = some pkt → pkt.second = true ∧ c.hasUnalignedMemAcc = true

namespace StoreSender

variable {t : StoreSender} {pkt : StorePkt} {retry pending : Option StorePkt}

theorem unsent_retry (h : pkt.inst = t.inst) :
    t.unsent (some pkt) pending = if t.pktToSend && !pkt.second then 2 else 1 := by
  simp [unsent, h]

theorem unsent_pending (h : pkt.inst = t.inst) : t.unsent none (some pkt) = 1 := by
  simp [unsent, h]

theorem unsent_other (hr : ∀ pkt, retry = some pkt ∨ pending = some pkt → pkt.inst ≠ t.inst) :
    t.unsent retry pending = 0 := by
  cases retry with
  | some pkt => simp [unsent, hr pkt (.inl rfl)]
  | none =>
    cases pending with
    | some pkt => simp [unsent, hr pkt (.inr rfl)]
    | none => rfl

end StoreSender

namespace Sending

variable {c : QueueConfig} {r r' : Lib.Ring SQEntry} {K K' : List QueuedStore} {w w' : Nat}
  {S : List StoreSender} {retry pending : Option StorePkt} {t : StoreSender}

section
variable (h : Sending c r K w S retry pending)
include h

theorem eq_of_inst {t t' : StoreSender} (ht : t ∈ S)
    (ht' : t' ∈ S) (hi : t.inst = t'.inst) : t = t' :=
  inj_on_of_nodup_map h.nodup ht ht' hi

/-- One packet is kept at most. -/
theorem retry_none {pkt : StorePkt} (hp : pending = some pkt) : retry = none := by
  by_contra hne
  rw [h.one (Option.isSome_iff_ne_none.mpr hne)] at hp
  cases hp

theorem same_pkt {pkt pkt' : StorePkt}
    (hk : retry = some pkt ∨ pending = some pkt) (hk' : retry = some pkt' ∨ pending = some pkt') :
    pkt' = pkt := by
  rcases hk with hr | hp
  · have hp : pending = none := h.one (by rw [hr]; rfl)
    rw [hr, hp] at hk'
    rcases hk' with hk' | hk' <;> cases hk'
    rfl
  · rw [h.retry_none hp, hp] at hk'
    rcases hk' with hk' | hk' <;> cases hk'
    rfl

/-- The store of a packet that is kept is still being sent. -/
theorem unsent_pos {pkt : StorePkt}
    (hk : retry = some pkt ∨ pending = some pkt) (ht : t.inst = pkt.inst) :
    t.unsent retry pending ≠ 0 := by
  rcases hk with hr | hp
  · rw [hr, StoreSender.unsent_retry ht.symm]
    split <;> omega
  · rw [h.retry_none hp, hp, StoreSender.unsent_pending ht.symm]
    omega

/-- The queue changes around the stores that have a sender. -/
theorem remap
    (hK : ∀ t ∈ S, ∀ p e, K[p]? = some e → e.seqNum = t.inst → e.canWB → e.completed = false →
      ∃ p' e', K'[p']? = some e' ∧ e'.seqNum = e.seqNum ∧ e'.canWB ∧ e'.completed = false ∧
        r'.index p' = r.index p ∧ (p < w → p' < w') ∧ (p = w → p' = w')) :
    Sending c r' K' w' S retry pending := by
  refine { h with sender := fun t ht => ?_ }
  obtain ⟨p, e, ht'⟩ := h.sender t ht
  obtain ⟨p', e', hat, hseq, hcan, hcomp, hidx, hlt, heq⟩ :=
    hK t ht p e ht'.at_ ht'.inst ht'.canWB ht'.uncompleted
  exact ⟨p', e', hat, hseq.trans ht'.inst, hcan, hcomp, ht'.idx.trans hidx.symm, ht'.packets,
    ht'.some,
    ht'.whole, fun hz => hlt (ht'.sent hz), fun hz => heq (ht'.sending hz)⟩

end

/-- If no packet is kept, the store at `storeWBIdx` has no sender yet: one of the same store would
have nothing left to send, so its store would not be here. -/
theorem fresh (h : Sending c r K w S none none) {e : QueuedStore} (he : K[w]? = some e)
    (hord : K.Pairwise (·.seqNum < ·.seqNum)) (ht : t ∈ S) : t.inst ≠ e.seqNum := by
  intro hi
  obtain ⟨p, e', htr⟩ := h.sender t ht
  have hlt : e'.seqNum < e.seqNum := by
    obtain ⟨hp', rfl⟩ := List.getElem?_eq_some_iff.mp htr.at_
    obtain ⟨hw', rfl⟩ := List.getElem?_eq_some_iff.mp he
    exact pairwise_iff_getElem.mp hord p w hp' hw' (htr.sent rfl)
  rw [htr.inst, hi] at hlt
  exact Nat.lt_irrefl _ hlt

/-- A sender for the store `e`, which stands at `storeWBIdx`; the packets that are kept are its
own. -/
structure New (c : QueueConfig) (r : Lib.Ring SQEntry) (w : Nat) (e : QueuedStore)
    (t : StoreSender) (retry pending : Option StorePkt) : Prop where
  inst : t.inst = e.seqNum
  idx : t.idx = r.index w
  pkt : ∀ pkt, retry = some pkt ∨ pending = some pkt → pkt.inst = e.seqNum
  one : retry.isSome → pending = none
  half : ∀ pkt, pending = some pkt → pkt.second ∧ c.hasUnalignedMemAcc
  packets : t.outstanding = t.inMemory + t.unsent retry pending
  some : 0 < t.outstanding
  whole : c.hasUnalignedMemAcc = false → t.outstanding = 1

theorem cons (h : Sending c r K w S none none) {e : QueuedStore} (he : K[w]? = some e)
    (hfresh : ∀ t' ∈ S, t'.inst ≠ e.seqNum) (hcan : e.canWB) (hcomp : e.completed = false)
    (hnew : New c r w e t retry pending)
    (hw : w' = if t.unsent retry pending = 0 then w + 1 else w) :
    Sending c r K w' (t :: S) retry pending := by
  refine ⟨?_, hnew.one, fun t' ht' => ?_,
    fun pkt hp => ⟨t, mem_cons_self, hnew.inst.trans (hnew.pkt pkt hp).symm⟩, hnew.half⟩
  · rw [map_cons, nodup_cons]
    refine ⟨fun hm => ?_, h.nodup⟩
    obtain ⟨t', ht', hi⟩ := mem_map.mp hm
    exact hfresh t' ht' (hi.trans hnew.inst)
  · rcases mem_cons.mp ht' with rfl | ht'
    · refine ⟨w, e, he, hnew.inst.symm, hcan, hcomp, hnew.idx, hnew.packets, hnew.some, hnew.whole,
        fun hz => ?_, fun hz => ?_⟩
      · rw [hw, if_pos hz]
        omega
      · rw [hw, if_neg hz]
    · obtain ⟨p, e', htr⟩ := h.sender t' ht'
      have hz : t'.unsent retry pending = 0 :=
        StoreSender.unsent_other fun pkt hp hi => hfresh t' ht' (hi.symm.trans (hnew.pkt pkt hp))
      have hp := htr.sent rfl
      refine ⟨p, e', { htr with
        packets := ?_, sent := fun _ => ?_, sending := fun hne => absurd hz hne }⟩
      · rw [hz]
        exact htr.packets
      · rw [hw]
        split <;> omega

/-- `storeWBIdx` passes a store that needs no packet. -/
theorem advance (h : Sending c r K w S none none) : Sending c r K (w + 1) S none none := by
  refine { h with sender := fun t ht => ?_ }
  obtain ⟨p, e, htr⟩ := h.sender t ht
  exact ⟨p, e, { htr with
    sent := fun hz => (htr.sent hz).trans (Nat.lt_succ_self w), sending :=
      fun hne => absurd rfl hne }⟩

/-- Something happens to the packets of one sender. Those that are kept, before and after, are its
own if the store is still being sent or has just been sent. -/
theorem change (h : Sending c r K w S retry pending) {k : Nat} {f : StoreSender → StoreSender}
    {retry' pending' : Option StorePkt} (hf : ∀ t, (f t).inst = t.inst ∧ (f t).idx = t.idx)
    (hone : retry'.isSome → pending' = none)
    (hself : ∀ t ∈ S, t.inst = k →
      (f t).outstanding = (f t).inMemory + (f t).unsent retry' pending' ∧ 0 < (f t).outstanding ∧
      (c.hasUnalignedMemAcc = false → (f t).outstanding = 1) ∧
      ((f t).unsent retry' pending' = 0 → t.unsent retry pending = 0 ∧ w' = w ∨ w' = w + 1) ∧
      ((f t).unsent retry' pending' ≠ 0 → t.unsent retry pending ≠ 0 ∧ w' = w))
    (hother : ∀ t ∈ S, t.inst ≠ k → t.unsent retry' pending' = t.unsent retry pending ∧
      (w' = w ∨ t.unsent retry pending = 0 ∧ w' = w + 1))
    (horigin : ∀ pkt, retry' = some pkt ∨ pending' = some pkt → ∃ t ∈ S, t.inst = pkt.inst)
    (hhalf : ∀ pkt, pending' = some pkt → pending = some pkt) :
    Sending c r K w' (S.map fun t => if t.inst = k then f t else t) retry' pending' := by
  have hinst (t : StoreSender) : (if t.inst = k then f t else t).inst = t.inst := by
    split
    · exact (hf t).1
    · rfl
  refine ⟨?_, hone, fun t' ht' => ?_, fun pkt hp => ?_, fun pkt hp => h.half pkt (hhalf pkt hp)⟩
  · rw [map_map]
    rw [show ((·.inst) ∘ fun t => if t.inst = k then f t else t) =
      StoreSender.inst from funext hinst]
    exact h.nodup
  · obtain ⟨t, ht, rfl⟩ := mem_map.mp ht'
    obtain ⟨p, e, htr⟩ := h.sender t ht
    refine ⟨p, e, ?_⟩
    by_cases hk : t.inst = k
    · obtain ⟨h1, h2, h3, h4, h5⟩ := hself t ht hk
      rw [if_pos hk]
      refine ⟨htr.at_, htr.inst.trans (hf t).1.symm, htr.canWB, htr.uncompleted,
        (hf t).2.trans htr.idx, h1, h2, h3, fun hz => ?_, fun hz => ?_⟩
      · rcases h4 hz with ⟨hz', rfl⟩ | rfl
        · exact htr.sent hz'
        by_cases hz' : t.unsent retry pending = 0
        · exact (htr.sent hz').trans (Nat.lt_succ_self w)
        · rw [htr.sending hz']
          exact Nat.lt_succ_self w
      · obtain ⟨hz', rfl⟩ := h5 hz
        exact htr.sending hz'
    · obtain ⟨h1, h2⟩ := hother t ht hk
      rw [if_neg hk, h1]
      refine { htr with sent := fun hz => ?_, sending := fun hz => ?_ }
      · have hp := htr.sent hz
        rcases h2 with rfl | ⟨-, rfl⟩
        · exact hp
        · omega
      · rcases h2 with rfl | ⟨hz', -⟩
        · exact htr.sending hz
        · exact absurd hz' hz
  · obtain ⟨t, ht, hi⟩ := horigin pkt hp
    exact ⟨_, mem_map_of_mem ht, (hinst t).trans hi⟩

/-- A sender goes away that has nothing left to send. -/
theorem remove (h : Sending c r K w S retry pending) {k : Nat}
    (hk : ∀ pkt, retry = some pkt ∨ pending = some pkt → pkt.inst ≠ k) :
    Sending c r K w (S.filter (·.inst ≠ k)) retry pending := by
  refine ⟨h.nodup.sublist (filter_sublist.map _), h.one,
    fun t ht => h.sender t (mem_filter.mp ht).1, fun pkt hp => ?_, h.half⟩
  obtain ⟨t, ht, hi⟩ := h.origin pkt hp
  exact ⟨t, mem_filter.mpr ⟨ht, by simpa [hi] using hk pkt hp⟩, hi⟩

end Sending

/-! ## Changing one store of the list -/

section
variable {K : List QueuedStore} {p : Nat} {e : QueuedStore} {g : QueuedStore → QueuedStore}

/-- What a change does not touch stays. -/
theorem map_modify {α β : Type} {l : List α} {f : α → β} {g : α → α} (hg : ∀ x, f (g x) = f x) :
    (l.modify p g).map f = l.map f := by
  refine ext_getElem (by simp) fun k hk hk' => ?_
  simp only [getElem_map, getElem_modify]
  split
  · exact hg _
  · rfl

theorem toWB_modify (he : K[p]? = some e) :
    toWB (K.modify p g) + toWB [e] = toWB K + toWB [g e] := by
  induction K generalizing p with
  | nil => cases he
  | cons x K ih =>
    cases p with
    | zero =>
      cases he
      simp only [modify_zero_cons, toWB, countP_cons, countP_nil]
      omega
    | succ p =>
      have hi := ih (p := p) he
      simp only [modify_succ_cons, toWB, countP_cons, countP_nil] at hi ⊢
      omega

/-- Completed stores do not count. -/
theorem toWB_drop {d : Nat} (h : ∀ e ∈ K.take d, e.completed) : toWB (K.drop d) = toWB K := by
  have hzero : toWB (K.take d) = 0 := countP_eq_zero.mpr fun e he => by simp [h e he]
  have happ : toWB (K.take d ++ K.drop d) = toWB (K.take d) + toWB (K.drop d) := countP_append
  rw [take_append_drop, hzero] at happ
  omega

end

/-- Of the stores, those that can write back stay as they are. -/
structure Spared (r r' : Lib.Ring SQEntry) : Prop where
  head : r'.head = r.head
  size : r'.size = r.size
  spared : ∀ k : Nat, (k : Int) < r.count → (r.slot (r.index k)).canWB = true →
    (k : Int) < r'.count ∧ r'.slot (r'.index k) = r.slot (r.index k)

theorem Spared.refl (r : Lib.Ring SQEntry) : Spared r r := ⟨rfl, rfl, fun _ hk _ => ⟨hk, rfl⟩⟩

theorem Spared.trans {r₁ r₂ r₃ : Lib.Ring SQEntry} (h : Spared r₁ r₂) (h' : Spared r₂ r₃) :
    Spared r₁ r₃ := by
  refine ⟨h'.head.trans h.head, h'.size.trans h.size, fun k hk hcan => ?_⟩
  obtain ⟨hk₂, hslot⟩ := h.spared k hk hcan
  obtain ⟨hk₃, hslot'⟩ := h'.spared k hk₂ (by rw [hslot]; exact hcan)
  exact ⟨hk₃, hslot'.trans hslot⟩

end SdoCore
