import SdoCore.Lsq.InOrder

/-! Loads and stores of one thread are ordered soundly.

A load that executes sees exactly the older stores that have not been sent (`olderStores_eq`), and a
store that executes sees the younger loads, so whichever of the two comes second finds the other.

* `loads_stores_ordered`: a load that gets a value passes no older store of the same bytes that
  will not find it, and what is forwarded are the bytes of the youngest older store;
* `forwards_foreign_bytes`: a load whose last byte is the last of the address space is forwarded
  bytes of a store that has none of them;
* `stores_sent_in_order`: stores go to memory in order, after the older loads. -/

namespace SdoCore

open Lib
open Bool (and_eq_true not_eq_true' or_eq_true)
open List
open Option (bind_eq_some_iff map_eq_some_iff)

/-- The load that executes, with its address and what `read` has found. -/
def LqEntry.executes (l : LqEntry) (req : MemReq) (o : Option Obtained) : LqEntry :=
  { l with
    effAddr := req.vaddr
    effSize := req.size
    effAddrValid := true
    strictlyOrdered := req.strictlyOrdered
    obtained := o }

namespace Lsq

variable {c : QueueConfig} {s s' : Lsq} {ls ls' : List LqEntry} {q q' : List SQEntry}

/-! ## Execution keeps the order -/

theorem Ordered.congr (h : Ordered s ls q) (hl : s'.loadQueue = s.loadQueue)
    (hq : s'.storeQueue = s.storeQueue) : Ordered s' ls q :=
  ⟨hl ▸ h.loads, hq ▸ h.stores, hq ▸ h.sqIdx, hl ▸ h.lqIdx, h.commits, h.front, h.apart, h.sent,
    h.written⟩

variable {i w : Nat} {l l' : LqEntry} {b accepted : Bool} {req : MemReq} {r : ReadResult}
  {e : LsqEvent}

theorem Ordered.loadPosition (h : Ordered s ls q) (hi : s.isLoad i) :
    ∃ k, ∃ hk : k < ls.length, i = s.loadQueue.index k ∧
      s.loadQueue.slot (s.loadQueue.index k) = some ls[k] := by
  simp only [isLoad, and_eq_true, decide_eq_true_eq, Lsq.loads, h.loads.count, length_map] at hi
  have hk : s.loadQueue.distance i < ls.length := by omega
  refine ⟨_, hk, (Lib.Ring.index_distance h.loads.head hi.1).1.symm, ?_⟩
  rw [h.loads.slot _ (by simpa using hk), getElem_map]

theorem Ordered.storePosition (h : Ordered s ls q) (hi : s.isStore i) :
    ∃ p, ∃ hp : p < q.length, i = s.storeQueue.index p ∧
      s.storeQueue.slot (s.storeQueue.index p) = q[p] := by
  simp only [isStore, and_eq_true, decide_eq_true_eq, Lsq.stores, h.stores.count] at hi
  have hp : s.storeQueue.distance i < q.length := by omega
  exact ⟨_, hp, (Lib.Ring.index_distance h.stores.head hi.1).1.symm, h.stores.slot _ hp⟩

/-- Nothing but the mark of a possible violation changes. -/
def Marked (l l' : LqEntry) : Prop := ∃ b, l' = { l with possibleLoadViolation := b }

theorem Marked.refl (l : LqEntry) : Marked l l := ⟨l.possibleLoadViolation, rfl⟩

theorem Marked.trans {l'' : LqEntry} (h : Marked l l') (h' : Marked l' l'') : Marked l l'' := by
  obtain ⟨b, rfl⟩ := h
  obtain ⟨b', rfl⟩ := h'
  exact ⟨b', rfl⟩

theorem Marked.kept (h : Marked l l') : l.Kept l' := by
  obtain ⟨b, rfl⟩ := h
  exact ⟨rfl, rfl, id, fun ho => ⟨ho, rfl, rfl, rfl⟩⟩

theorem checkViolations_marks {isLoad : Bool} {addr size : Nat} {is : List Nat}
    (hl : s.loadQueue.Holds (ls.map some))
    (hs : s.checkViolations c isLoad addr size is = some (s', b)) :
    (∃ ls', s'.loadQueue.Holds (ls'.map some) ∧ List.Forall₂ Marked ls ls') ∧
      s'.loadQueue.index = s.loadQueue.index ∧ s'.storeQueue = s.storeQueue := by
  have hsame (ls : List LqEntry) : List.Forall₂ Marked ls ls := forall₂_same.mpr fun l _ => .refl l
  induction is generalizing s ls with
  | nil =>
    cases hs
    exact ⟨⟨ls, hl, hsame ls⟩, rfl, rfl⟩
  | cons i is ih =>
    obtain ⟨ld, hld, hs⟩ := bind_eq_some_iff.mp hs
    split at hs
    · exact ih hl hs
    split at hs
    · split at hs
      · split at hs
        · cases hs
          exact ⟨⟨ls, hl, hsame ls⟩, rfl, rfl⟩
        obtain ⟨ls₁, hl₁, hrel₁⟩ := holds_modifyLoad (P := Marked)
          (f := fun l => l.map fun l => { l with possibleLoadViolation := true }) hl i
          (fun l _ => ⟨_, rfl, true, rfl⟩) fun _ _ _ => .refl _
        obtain ⟨⟨ls', hl', hrel⟩, hidx, hq⟩ := ih hl₁ hs
        exact ⟨⟨ls', hl', forall₂_trans hrel₁ hrel fun _ _ _ => .trans⟩, hidx, hq⟩
      · split at hs
        · cases hs
          exact ⟨⟨ls, hl, hsame ls⟩, rfl, rfl⟩
        · cases hs
          exact ⟨⟨ls, hl, hsame ls⟩, rfl, rfl⟩
    · exact ih hl hs

/-- What `executeLoad` does: the load in slot `i` gets its address and what `read` has found, and
then others may be marked. -/
theorem executeLoad_cases (hs : s.executeLoad c i req accepted = some (s', r)) :
    ∃ ld s₁ s₂, s.loadQueue.slot i = some ld ∧ ld.fenceDelay = false ∧
      s.read i (ld.executes req ld.obtained) req accepted = some (s₁, r) ∧ s₁.core = s.core ∧
      s₂ = { s₁ with
        loadQueue := s₁.loadQueue.modify i fun _ => some (ld.executes req r.obtained) } ∧
      (s' = s₂ ∨ ∃ is b, s₂.checkViolations c true req.vaddr req.size is = some (s', b)) := by
  obtain ⟨ld, hld, hs⟩ := bind_eq_some_iff.mp hs
  split at hs
  · cases hs
  rename_i hno
  obtain ⟨⟨s₁, r₁⟩, hs₁, hs⟩ := bind_eq_some_iff.mp hs
  have hf : ld.fenceDelay = false := by
    rw [or_eq_true, not_or] at hno
    exact Bool.eq_false_iff.mpr hno.1
  have hc := Inv.core_read hs₁
  simp only at hs
  split at hs
  · obtain ⟨⟨s₃, b⟩, hs₃, heq⟩ := map_eq_some_iff.mp hs
    cases heq
    exact ⟨ld, s₁, _, hld, hf, hs₁, hc, rfl, .inr ⟨_, b, hs₃⟩⟩
  · cases hs
    exact ⟨ld, s₁, _, hld, hf, hs₁, hc, rfl, .inl rfl⟩

/-- The load that executes is in the queue afterwards, with its address and what it has. -/
theorem Ordered.executeLoad (h : Ordered s ls q) (hls : (ls.map (·.seqNum)).Pairwise (· < ·))
    (hi : s.isLoad i)
    (hin : (s.loadQueue.slot i).all (fun l => !l.done))
    (hs : s.executeLoad c i req accepted = some (s', r)) :
    ∃ ls', Ordered s' ls' q ∧ Tracks ls ls' ∧ ls'.map (·.seqNum) = ls.map (·.seqNum) ∧
      ∀ ld ∈ s.loadQueue.slot i, ∀ l ∈ ls', l.seqNum = ld.seqNum →
        Marked (ld.executes req r.obtained) l := by
  obtain ⟨ld, s₁, s₂, hld, hfence, -, hc, hs₂, hmark⟩ := executeLoad_cases hs
  rw [hld, Option.all_some, not_eq_true'] at hin
  have hl₁ : s₁.loadQueue = s.loadQueue := (congrArg Lsq.loadQueue hc :)
  have hq₁ : s₁.storeQueue = s.storeQueue := (congrArg Lsq.storeQueue hc :)
  have hkept : ld.Kept (ld.executes req r.obtained) := by
    refine ⟨rfl, rfl, fun hd => ?_, fun ho => ?_⟩
    · rw [hin] at hd
      cases hd
    · rw [LqEntry.done, Bool.or_eq_false_iff, ho] at hin
      cases hin.2
  obtain ⟨k, hk, rfl, hat⟩ := h.loadPosition hi
  have hself : ls[k] = ld := by
    rw [hat] at hld
    exact Option.some.inj hld
  have hother (j : Nat) (hj : j < ls.length) (hne : s.loadQueue.index j ≠ s.loadQueue.index k) :
      ls[j].seqNum ≠ ld.seqNum := by
    intro heq
    refine hne (congrArg _ ?_)
    rw [← hself] at heq
    have hsame := inj_on_of_nodup_map hls.nodup (getElem_mem hj) (getElem_mem hk) heq
    exact hls.nodup.of_map.getElem_inj_iff.mp hsame
  obtain ⟨ls₁, hls₁, hrel₁⟩ := holds_modifyLoad
    (P := fun l l' => l.Kept l' ∧ l'.Sent ∧
      (l.seqNum = ld.seqNum → l' = ld.executes req r.obtained))
    (f := fun _ => some (ld.executes req r.obtained)) h.loads (s.loadQueue.index k)
    (fun l hl => ⟨_, rfl, by rw [hld] at hl; cases hl; exact hkept, fun _ => ⟨rfl, hfence⟩,
      fun _ => rfl⟩)
    fun j hj hne => ⟨.refl _, h.sent _ (getElem_mem hj), fun heq => absurd heq (hother j hj hne)⟩
  have hs₂l : s₂.loadQueue = s.loadQueue.modify (s.loadQueue.index k) fun _ =>
      some (ld.executes req r.obtained) := by
    rw [hs₂, ← hl₁]
  have hs₂q : s₂.storeQueue = s.storeQueue := by
    rw [hs₂]
    exact hq₁
  rw [← hs₂l] at hls₁
  obtain ⟨⟨ls', hls', hrel'⟩, hidx, hq⟩ : (∃ ls', s'.loadQueue.Holds (ls'.map some) ∧
      List.Forall₂ Marked ls₁ ls') ∧ s'.loadQueue.index = s₂.loadQueue.index ∧
      s'.storeQueue = s₂.storeQueue := by
    rcases hmark with rfl | ⟨is, b, hs'⟩
    · exact ⟨⟨ls₁, hls₁, forall₂_same.mpr fun l _ => .refl l⟩, rfl, rfl⟩
    · exact checkViolations_marks hls₁ hs'
  have hrel : List.Forall₂ (fun l l' => l.Kept l' ∧ l'.Sent ∧
      (l.seqNum = ld.seqNum → Marked (ld.executes req r.obtained) l')) ls ls' := by
    refine forall₂_trans hrel₁ hrel' fun l l₁ l' h₁ h' => ?_
    obtain ⟨hk₁, hsent₁, hex⟩ := h₁
    refine ⟨hk₁.trans h'.kept, ?_, fun heq => ?_⟩
    · obtain ⟨b, rfl⟩ := h'
      exact hsent₁
    · rw [← hex heq]
      exact h'
  refine ⟨ls', h.changeLoads (hrel.imp fun _ _ hr => ⟨hr.1, hr.2.1⟩) hls' ?_ (hq.trans hs₂q),
    .of_forall₂ (hrel.imp fun _ _ hr => ⟨hr.1, hr.2.1⟩), map_seqNum_eq
      (hrel.imp fun _ _ hr => hr.1.seqNum),
    fun ld' hld' l hl heq => ?_⟩
  · rw [hidx, hs₂l]
    rfl
  rw [hld] at hld'
  cases hld'
  obtain ⟨l₀, -, hk₀, -, hex⟩ := forall₂_mem_right hrel hl
  exact hex (hk₀.seqNum.symm.trans heq)

theorem written_writeMem {e : SQEntry} (he : e.Written) {split : Bool} {data : Bytes}
    (hsized : (StoreAccess.access req split data).wellSized)
    (hfits : req.size ≤ 16 ∨ req.storeNoData) (hend : req.vaddr + req.size < 2 ^ 64) :
    (writeMem c e req split data).Written := by
  have hmod : req.size % 2 ^ 8 ≤ req.size := Nat.mod_le _ _
  refine ⟨?_, fun hz => ?_, fun _ => ?_⟩
  · have hlen := he.fits
    show 16 ≤ List.length (if !req.cacheBlockZero && !req.cacheMaintenance then _ else e.data)
    split
    · next hcopy =>
      simp only [and_eq_true, not_eq_true'] at hcopy
      simp only [StoreAccess.wellSized, hcopy, Bool.or_false, Bool.false_or, beq_iff_eq] at hsized
      rw [length_append, length_take, length_drop]
      show 16 ≤ min req.size data.length + (e.data.length - req.size)
      omega
    · exact hlen
  · have hz : req.storeNoData = false := hz
    show req.size % 2 ^ 8 ≤ 16
    rcases hfits with hle | hno
    · omega
    · rw [hz] at hno
      cases hno
  · show req.vaddr + req.size % 2 ^ 8 < 2 ^ 64
    omega

theorem checkViolations_frame {addr size : Nat} {is : List Nat}
    (hs : s.checkViolations c false addr size is = some (s', b)) :
    s'.loadQueue = s.loadQueue ∧ s'.storeQueue = s.storeQueue := by
  induction is with
  | nil =>
    cases hs
    exact ⟨rfl, rfl⟩
  | cons i is ih =>
    obtain ⟨ld, -, hs⟩ := bind_eq_some_iff.mp hs
    split at hs
    · exact ih hs
    split at hs
    · rw [if_neg Bool.false_ne_true] at hs
      split at hs <;> cases hs <;> exact ⟨rfl, rfl⟩
    · exact ih hs

theorem Ordered.executeStore (h : Ordered s ls q) {acc : StoreAccess} (hi : s.isStore i)
    (hin : s.inOrder (.executeStore i acc))
    (hwrap : noWrap (.executeStore i acc)) (hs : s.executeStore c i acc = some (s', b)) :
    ∃ q', Ordered s' ls q' := by
  obtain ⟨p, hp, rfl, hslot⟩ := h.storePosition hi
  have hat : q[p]? = some q[p] := getElem?_eq_getElem hp
  simp only [inOrder, hslot, and_eq_true, not_eq_true'] at hin
  obtain ⟨⟨⟨-, hcan⟩, hsized⟩, hsc⟩ := hin
  cases acc with
  | access req split data =>
    simp only [noWrap, decide_eq_true_eq] at hwrap
    simp only [Lsq.executeStore] at hs
    split at hs
    · cases hs
    rename_i hok
    simp only [or_eq_true, not_eq_true', decide_eq_true_eq, not_or, Bool.not_eq_false] at hok
    have hw := written_writeMem (c := c) (h.written _ (getElem_mem hp)) hsized hok.2 hwrap
    have h₁ : Ordered { s with
        storeQueue := s.storeQueue.modify
          (s.storeQueue.index p) fun e => writeMem c e req split data }
        ls (q.modify p fun e => writeMem c e req split data) :=
      h.changeStore hat rfl rfl (fun _ => rfl) rfl id .inl hw
    split at hs
    · cases hs
      exact ⟨_, h₁⟩
    obtain ⟨hl', hq'⟩ := checkViolations_frame hs
    rw [allowSC] at hl' hq'
    split at hl'
    · next hcond =>
      rw [if_pos hcond] at hq'
      have hsc' : q[p].isStoreConditional = true := by
        simp only [Lib.Ring.modify_slot_self, hslot] at hcond
        exact hcond
      simp only [hsc', Bool.not_true, Bool.false_or, and_eq_true, all_eq_true,
        or_eq_true, decide_eq_true_eq, loadList_eq h.loads, storeList_eq h.stores] at hsc
      have hat' : (q.modify p fun e => writeMem c e req split data)[p]? =
          some (writeMem c q[p] req split data) := by
        rw [getElem?_modify, hat]
        simp
      refine ⟨_, h₁.changeStore (f := fun e => { e with canWB := true }) hat' hq' hl' (fun _ => rfl)
        rfl (fun _ => rfl) (fun _ => .inr ⟨fun l hl hlt => ?_, fun e he hlt => ?_⟩)
        { hw with }⟩
      · exact (hsc.1 l hl).resolve_left (by have hlt : l.seqNum < q[p].seqNum := hlt; omega)
      obtain ⟨k, hk⟩ := mem_iff_getElem?.mp he
      rw [getElem?_modify] at hk
      obtain ⟨e', he', rfl⟩ := map_eq_some_iff.mp hk
      have hlt : e'.seqNum < q[p].seqNum := by
        split at hlt <;> exact hlt
      have hcan' := (hsc.2 e' (mem_of_getElem? he')).resolve_left (by omega)
      split <;> exact hcan'
    · next hcond =>
      rw [if_neg hcond] at hq'
      exact ⟨_, h₁.congr hl' hq'⟩
  | delayed | predicatedOff | fault =>
    simp only [Lsq.executeStore] at hs
    split at hs <;> cases hs
    exact ⟨q, h⟩

/-! ## Runs -/

theorem ordered_start (h : (queueMachine c).start s) : Ordered s [] [] := by
  obtain ⟨⟨ls, hl, hls⟩, ⟨q, hq, hqs, -⟩, -⟩ := inv_start h
  obtain rfl : ls = [] := map_eq_nil_iff.mp hls
  obtain rfl : q = [] := map_eq_nil_iff.mp hqs
  exact ⟨hl, hq, by simp, by simp, by simp, by simp, by simp, by simp, by simp⟩

theorem Inv.lists {L : List Nat} {K : List QueuedStore} (hi : Inv c s L K w) (h : Ordered s ls q) :
    L = ls.map (·.seqNum) ∧ K = q.map SQEntry.view := by
  obtain ⟨ls', hl', rfl⟩ := hi.loads
  obtain ⟨q', hq', rfl, -⟩ := hi.stores.holds
  have hls := map_injective_iff.mpr (fun _ _ => Option.some.inj) (h.loads.unique hl')
  exact ⟨congrArg _ hls, congrArg _ (h.stores.unique hq')⟩

theorem Ordered.setLoad (h : Ordered s ls q) (i : Nat) {f : LqEntry → LqEntry}
    (hf : ∀ l, s.loadQueue.slot i = some l → l.Kept (f l) ∧ (l.Sent → (f l).Sent)) :
    ∃ ls', Ordered (s.setLoad i f) ls' q ∧ Tracks ls ls' := by
  obtain ⟨ls', hl', hrel⟩ := holds_modifyLoad (P := fun l l' => l.Kept l' ∧ (l.Sent → l'.Sent))
    (f := fun l => l.map f) h.loads i (fun l hl => ⟨f l, rfl, hf l hl⟩) fun _ _ _ => ⟨.refl _, id⟩
  have hrel : List.Forall₂ (fun l l' => l.Kept l' ∧ l'.Sent) ls ls' :=
    ((forall₂_and_left ..).mpr ⟨h.sent, hrel⟩).imp fun l l' hr => ⟨hr.2.1, hr.2.2 hr.1⟩
  exact ⟨ls', h.changeLoads hrel hl' rfl rfl, .of_forall₂ hrel⟩

theorem Ordered.step {L : List Nat} {K : List QueuedStore} (hi : Inv c s L K w) (h : Ordered s ls q)
    (hin : s.inOrder e) (hwrap : noWrap e)
    (hs : s.step c e = some s') : ∃ ls' q', Ordered s' ls' q' ∧ Tracks ls ls' := by
  obtain ⟨rfl, rfl⟩ := hi.lists h
  have hls := hi.loadOrder
  have hqs : (q.map (·.seqNum)).Pairwise (· < ·) := by
    have := hi.storeOrder
    rwa [map_map] at this
  have hyoung (x : Nat) (hx : s.lastInst < x) :
      (∀ l ∈ ls, l.seqNum < x) ∧ ∀ e ∈ q, e.seqNum < x := by
    refine ⟨fun l hl => (hi.loadLast _ (mem_map_of_mem hl)).trans_lt hx, fun e he => ?_⟩
    refine (hi.storeLast e.seqNum ?_).trans_lt hx
    rw [map_map]
    exact mem_map_of_mem (f := SQEntry.seqNum) he
  have hsame : Tracks ls ls := .of_subset fun _ h => h
  rw [Lsq.step] at hs
  split at hs
  · next hall =>
    cases e with
    | insertLoad x =>
      simp only [allowed, and_eq_true, decide_eq_true_eq] at hall
      obtain ⟨hx, hx'⟩ := hyoung x hall.1
      obtain ⟨ls', h', htr⟩ := h.insertLoad hx hx' hall.2 hs
      exact ⟨ls', q, h', htr⟩
    | insertStore x sc pf =>
      simp only [allowed, and_eq_true, decide_eq_true_eq] at hall
      obtain ⟨hx, hx'⟩ := hyoung x hall.1
      obtain ⟨q', h'⟩ := h.insertStore hx hx' hall.2 hs
      exact ⟨ls, q', h', hsame⟩
    | executeLoad i req accepted =>
      obtain ⟨⟨s₁, r⟩, hs₁, rfl⟩ := map_eq_some_iff.mp hs
      obtain ⟨ls', h', htr, -⟩ := h.executeLoad hls hall hin hs₁
      exact ⟨ls', q, h', htr⟩
    | executeStore i acc =>
      obtain ⟨⟨s₁, b⟩, hs₁, rfl⟩ := map_eq_some_iff.mp hs
      obtain ⟨q', h'⟩ := h.executeStore hall hin hwrap hs₁
      exact ⟨ls, q', h', hsame⟩
    | getMemDepViolator | setSquashed =>
      cases hs
      exact ⟨ls, q, h.congr rfl rfl, hsame⟩
    | setFenceDelay i b =>
      cases hs
      -- a load with a value is only ever freed of its fence
      obtain ⟨ls', h', htr⟩ := h.setLoad i (f := fun l => { l with fenceDelay := b }) fun l hl => by
        refine ⟨⟨rfl, rfl, id, fun ho => ⟨ho, rfl, rfl, rfl⟩⟩, fun hsent ho => ⟨(hsent ho).1, ?_⟩⟩
        have ho : l.obtained.isSome = true := ho
        simp only [inOrder, hl, Option.all_some, or_eq_true, not_eq_true'] at hin
        rcases hin with hb | hnone
        · exact hb
        · rw [Option.isNone_iff_eq_none.mp hnone] at ho
          cases ho
      exact ⟨ls', q, h', htr⟩
    | setExecuted i =>
      cases hs
      obtain ⟨ls', h', htr⟩ := h.setLoad i (f := fun l => { l with executed := true }) fun l _ =>
        ⟨⟨rfl, rfl, fun _ => rfl, fun ho => ⟨ho, rfl, rfl, rfl⟩⟩, id⟩
      exact ⟨ls', q, h', htr⟩
    | setAtCommit i =>
      cases hs
      obtain ⟨ls', h', htr⟩ := h.setLoad i (f := fun l => { l with atCommit := true }) fun l _ =>
        ⟨⟨rfl, rfl, id, fun ho => ⟨ho, rfl, rfl, rfl⟩⟩, id⟩
      exact ⟨ls', q, h', htr⟩
    | hitExternalSnoop i =>
      cases hs
      obtain ⟨ls', h', htr⟩ := h.setLoad i (f := fun l => { l with hitExternalSnoop := true })
        fun l _ => ⟨⟨rfl, rfl, id, fun ho => ⟨ho, rfl, rfl, rfl⟩⟩, id⟩
      exact ⟨ls', q, h', htr⟩
    | commitLoads y =>
      obtain ⟨r, hr, rfl⟩ := map_eq_some_iff.mp hs
      simp only [inOrder, storeList_eq h.stores, all_eq_true, or_eq_true,
        decide_eq_true_eq] at hin
      obtain ⟨ls', h', htr⟩ := h.commitLoads hin hr
      exact ⟨ls', q, h', htr⟩
    | commitStores y =>
      simp only [inOrder, loadList_eq h.loads, all_eq_true, or_eq_true,
        decide_eq_true_eq] at hin
      have hs : s.commitStores y
        (s.storeQueue.indices s.storeQueue.size s.storeQueue.head) = some s' := hs
      rw [hi.stores.indices, range_eq_range', length_map] at hs
      obtain ⟨q', h'⟩ := h.commitStores hqs (by simp) (by simp) hin hs
      exact ⟨ls, q', h', hsame⟩
    | writebackStores answers successes =>
      have hi₁ : Inv c { s with answers, successes } _ _ w := hi.congr rfl
      obtain ⟨⟨K', w', hi'⟩, hwrote⟩ := hi₁.writebackStores hs
      obtain ⟨q', hq', -⟩ := hi'.stores.holds
      have h₁ : Ordered { s with answers, successes } ls q := h.congr rfl rfl
      exact ⟨ls, q', h₁.wroteBack hwrote hq', hsame⟩
    | storeResponse inst =>
      obtain ⟨⟨K', w', hi'⟩, hwrote⟩ := hi.storeResponse hall hs
      obtain ⟨q', hq', -⟩ := hi'.stores.holds
      exact ⟨ls, q', h.wroteBack hwrote hq', hsame⟩
    | recvRetry answers =>
      obtain ⟨hl', hq'⟩ := Inv.recvRetry_frame hs
      exact ⟨ls, q, h.congr hl' hq', hsame⟩
    | squash n => exact h.squash hls hqs hs
  · cases hs

/-- What every state of a run has. -/
structure Sound (c : QueueConfig) (s : Lsq) (ls : List LqEntry) (q : List SQEntry) (w : Nat) :
    Prop where
  inv : Inv c s (ls.map (·.seqNum)) (q.map SQEntry.view) w
  ordered : Ordered s ls q

theorem executesOnce_of_inOrder (h : s.inOrder e) : s.executesOnce e := by
  cases e with
  | executeStore i acc =>
    simp only [inOrder, and_eq_true, not_eq_true'] at h
    simp [executesOnce, h.1.1.2]
  | _ => rfl

theorem Sound.step (h : Sound c s ls q w) (hwrap : noWrap e)
    (hs : (inOrderMachine c).step s e = some s') :
    ∃ ls' q' w', Sound c s' ls' q' w' ∧ Tracks ls ls' := by
  simp only [inOrderMachine] at hs
  split at hs
  · next hin =>
    obtain ⟨ls', q', h', htr⟩ := h.ordered.step h.inv hin hwrap hs
    obtain ⟨L', K', w', hi'⟩ := inv_step h.inv (executesOnce_of_inOrder hin) hs
    obtain ⟨rfl, rfl⟩ := hi'.lists h'
    exact ⟨ls', q', w', ⟨hi', h'⟩, htr⟩
  · cases hs

theorem sound_reach (h : (inOrderMachine c).ReachWhen (fun _ e => noWrap e) s) :
    ∃ ls q w, Sound c s ls q w := by
  refine h.invariant (I := fun s => ∃ ls q w, Sound c s ls q w) (fun s hs => ?_)
    fun s e s' ⟨ls, q, w, hi⟩ he hs => ?_
  · exact ⟨[], [], 0, inv_start (c := c) hs, ordered_start (c := c) hs⟩
  · obtain ⟨ls', q', w', h', -⟩ := hi.step he hs
    exact ⟨ls', q', w', h'⟩

/-! ## The load executes -/

namespace Sound

variable {w : Nat}

theorem storeOrder (h : Sound c s ls q w) : (q.map (·.seqNum)).Pairwise (· < ·) := by
  have := h.inv.storeOrder
  rwa [map_map] at this

theorem wb_le (h : Sound c s ls q w) : w ≤ q.length := by
  have := h.inv.wb
  rwa [length_map] at this

theorem distance_wb (h : Sound c s ls q w) : s.storeQueue.distance s.storeWBIdx = w := by
  rw [h.inv.wbIdx]
  exact Lib.Ring.distance_index h.ordered.stores.head (h.wb_le.trans_lt h.ordered.stores.room)

variable {l : LqEntry} {j : Nat} {e : SQEntry}

section
variable (h : Sound c s ls q w)
include h

theorem position (hj : q[j]? = some e) :
    j < older (q.map (·.seqNum)) l.seqNum ↔ e.seqNum < l.seqNum := by
  refine lt_older_iff h.storeOrder ?_
  rw [getElem?_map, hj]
  rfl

/-- What has been sent is older than a load that is not done. -/
theorem wb_le_older (hl : l ∈ ls) (hd : l.done = false) :
    w ≤ older (q.map (·.seqNum)) l.seqNum := by
  by_contra hlt
  rw [Nat.not_le] at hlt
  have hm := hlt.trans_le h.wb_le
  have hat := getElem?_eq_getElem hm
  have hmem := getElem_mem hm
  have hcan : q[older (q.map (·.seqNum)) l.seqNum].canWB = true :=
    h.inv.canWB _ _ (by rw [getElem?_map, hat]; rfl) hlt
  rcases Nat.lt_or_gt_of_ne (h.ordered.apart l hl _ hmem) with hyounger | hold
  · rw [h.ordered.commits _ hmem hcan l hl hyounger] at hd
    cases hd
  · exact Nat.lt_irrefl _ ((h.position hat).mpr hold)

/-- A load that executes looks at the older stores that have not been sent, the youngest first. -/
theorem olderStores_eq (hl : l ∈ ls) (hd : l.done = false) :
    s.olderStores l = (List.range' w (older (q.map (·.seqNum)) l.seqNum - w)).reverse.map
      s.storeQueue.index := by
  have hle := h.wb_le_older hl hd
  rcases h.ordered.sqIdx l hl hd with ⟨hnone, hz⟩ | hsome
  · rw [hz] at hle ⊢
    simp [olderStores, hnone]
  have hm : older (q.map (·.seqNum)) l.seqNum ≤ q.length := by
    have := older_le_length (L := q.map (·.seqNum)) (n := l.seqNum)
    rwa [length_map] at this
  have hroom := h.ordered.stores.room
  simp only [olderStores, hsome, h.inv.wbIdx]
  exact h.ordered.stores.indicesDown_eq hle hm (by omega)

theorem slot (hj : q[j]? = some e) : s.storeQueue.slot (s.storeQueue.index j) = e := by
  obtain ⟨hlt, rfl⟩ := List.getElem?_eq_some_iff.mp hj
  exact h.ordered.stores.slot j hlt

theorem mem_olderStores (hl : l ∈ ls) (hd : l.done = false) (hj : q[j]? = some e) (hw : w ≤ j)
    (hlt : e.seqNum < l.seqNum) :
    s.storeQueue.index j ∈ s.olderStores l := by
  rw [h.olderStores_eq hl hd]
  refine mem_map_of_mem (mem_reverse.mpr (mem_range'_1.mpr ⟨hw, ?_⟩))
  have := (h.position (l := l) hj).mpr hlt
  omega

/-- The store that a load is forwarded from, and that the stores between the two do not hit. -/
theorem forwardedFrom (hl : l ∈ ls) (hd : l.done = false) {req : MemReq} {i : Nat} {data : Bytes}
    (hs : searchStores req s.storeQueue.slot (s.olderStores l) = some (.full i data)) :
    ∃ p e, q[p]? = some e ∧ w ≤ p ∧ e.seqNum < l.seqNum ∧ s.storeQueue.slot i = e ∧ e.searched ∧
      (limits req e).lower ∧ (limits req e).upper ∧ data = forwardData req e ∧
      ∀ j e', q[j]? = some e' → e'.seqNum < l.seqNum → p < j → e'.searched →
        hits req e' = false := by
  obtain ⟨before, after, hsplit, hbefore, hsearch, hlow, hup, hdata⟩ := searchStores_full hs
  rw [h.olderStores_eq hl hd] at hsplit
  obtain ⟨ps, ps', hps, rfl, hrest⟩ := map_eq_append_iff.mp hsplit
  obtain ⟨p, ps', rfl, rfl, rfl⟩ := map_eq_cons_iff.mp hrest
  have hdown : (ps ++ p :: ps').Pairwise (fun a b => b < a) := by
    rw [← hps, pairwise_reverse]
    exact pairwise_lt_range'
  have hmem (k : Nat) : k ∈ ps ++ p :: ps' ↔ w ≤ k ∧ k < older (q.map (·.seqNum)) l.seqNum := by
    have := h.wb_le_older hl hd
    rw [← hps, mem_reverse, mem_range'_1]
    omega
  obtain ⟨hwp, hpm⟩ := (hmem p).mp (mem_append_right _ mem_cons_self)
  have hm := older_le_length (L := q.map (·.seqNum)) (n := l.seqNum)
  rw [length_map] at hm
  have hat := getElem?_eq_getElem (hpm.trans_le hm)
  rw [h.slot hat] at hsearch hlow hup hdata
  refine ⟨p, _, hat, hwp, (h.position hat).mp hpm, h.slot hat, hsearch, hlow, hup, hdata,
    fun j e' hj hlt hpj hs' => ?_⟩
  have hjin : j ∈ ps ++ p :: ps' := (hmem j).mpr ⟨by omega, (h.position hj).mpr hlt⟩
  rcases mem_append.mp hjin with hj' | hj'
  · have := hbefore _ (mem_map_of_mem hj')
    rw [h.slot hj] at this
    exact this hs'
  · rcases mem_cons.mp hj' with rfl | hj'
    · omega
    · have := (pairwise_cons.mp (pairwise_append.mp hdown).2.1).1 j hj'
      omega

end

end Sound

/-! ## The store executes -/

/-- While the load `x` is in its queue, with the bytes of `req`, the store `n` finds it when it
executes and shares a byte with it: there is a violation, by that load or by an older one. -/
def FoundLater (c : QueueConfig) (s : Lsq) (n x : Nat) (req : MemReq) : Prop :=
  ∀ t, (inOrderMachine c).StepsWhile (fun _ e => noWrap e = true)
    (fun t => ∃ l ∈ t.loadList, l.seqNum = x) s t →
    ∀ i req' split data, t.isStore i = true → (t.storeQueue.slot i).seqNum = n →
      t.inOrder (.executeStore i (.access req' split data)) = true →
      noWrap (.executeStore i (.access req' split data)) = true →
      t.squashed n = false → req'.size ≤ 16 ∨ req'.storeNoData = true → req'.size % 2 ^ 8 ≠ 0 →
      overlap req'.vaddr req'.size req.vaddr req.size = true →
      ∃ u v, t.executeStore c i (.access req' split data) = some (u, true) ∧
        u.memDepViolator = some v ∧ v ≤ x

/-- The load has a value for the bytes of `req`. -/
structure HasValue (l : LqEntry) (req : MemReq) : Prop where
  obtained : l.obtained.isSome = true
  effAddr : l.effAddr = req.vaddr
  effSize : l.effSize = req.size
  plain : l.strictlyOrdered = false

theorem HasValue.kept (h : HasValue l req) (hk : l.Kept l') :
    HasValue l' req := by
  obtain ⟨ho, ha, hn, hs⟩ := hk.obtained h.obtained
  exact ⟨ho, ha.trans h.effAddr, hn.trans h.effSize, hs.trans h.plain⟩

theorem memDepViolator_allowSC (s : Lsq) (i : Nat) :
    (s.allowSC i).memDepViolator = s.memDepViolator ∧ (s.allowSC i).loadQueue = s.loadQueue := by
  rw [allowSC]
  split <;> exact ⟨rfl, rfl⟩

namespace Sound

variable {w : Nat}

theorem load (h : Sound c s ls q w) (k : Nat) (hk : k < ls.length) :
    s.loadQueue.slot (s.loadQueue.index k) = some ls[k] := by
  rw [h.ordered.loads.slot k (by simpa using hk), getElem_map]

/-- The loads that a store looks at, up to a load that is younger. -/
theorem youngerLoads (h : Sound c s ls q w) {e : SQEntry} (he : e ∈ q) (hcan : e.canWB = false)
    {k : Nat}
    (hk : k < ls.length) (hyoung : e.seqNum < ls[k].seqNum) :
    ∃ before after, s.loadQueue.indices s.loadQueue.size e.lqIdx =
        before ++ s.loadQueue.index k :: after ∧
      ∀ i ∈ before, ∃ j, j < k ∧ i = s.loadQueue.index j := by
  have hm : older (ls.map (·.seqNum)) e.seqNum ≤ k := by
    have hkat : (ls.map (·.seqNum))[k]? = some ls[k].seqNum := by
      rw [getElem?_map, getElem?_eq_getElem hk]
      rfl
    have := mt (lt_older_iff (n := e.seqNum) h.inv.loadOrder hkat).mp (by omega)
    omega
  have hlq := h.ordered.lqIdx e he hcan
  generalize older (ls.map (·.seqNum)) e.seqNum = m at hlq hm
  have hlen : (ls.map some).length = ls.length := length_map ..
  have hroom := h.ordered.loads.room
  have hall := h.ordered.loads.indices_eq (k := m) (n := s.loadQueue.size) (by omega) (by omega)
  have hlast : ls.length - m = (k - m) + (ls.length - (k + 1) + 1) := by omega
  have hkm : m + (k - m) = k := by omega
  rw [← hlq, hlen, hlast, ← List.range'_append_1, hkm, List.range'_succ, map_append,
    map_cons] at hall
  refine ⟨_, _, hall, fun i hi => ?_⟩
  obtain ⟨j, hj, rfl⟩ := mem_map.mp hi
  have := mem_range'_1.mp hj
  exact ⟨j, by omega, rfl⟩

/-- A store that executes stops at a younger load with a value for one of its bytes, or before. -/
theorem executeStore (h : Sound c s ls q w) {i : Nat} {req req' : MemReq} {split : Bool}
    {data : Bytes} (hi : s.isStore i)
    (hin : s.inOrder (.executeStore i (.access req' split data)))
    (hwrap : noWrap (.executeStore i (.access req' split data)))
    (hsq : s.squashed (s.storeQueue.slot i).seqNum = false)
    (hfits : req'.size ≤ 16 ∨ req'.storeNoData) (hsize : req'.size % 2 ^ 8 ≠ 0)
    {l : LqEntry} (hl : l ∈ ls) (hyoung : (s.storeQueue.slot i).seqNum < l.seqNum)
    (hv : HasValue l req)
    (hpos : 0 < req.size) (hend : req.vaddr + req.size < 2 ^ 64)
    (ho : overlap req'.vaddr req'.size req.vaddr req.size) :
    ∃ u v, s.executeStore c i (.access req' split data) = some (u, true) ∧
      u.memDepViolator = some v ∧ v ≤ l.seqNum := by
  obtain ⟨p, hp, rfl, hslot⟩ := h.ordered.storePosition hi
  obtain ⟨k, hk, rfl⟩ := getElem_of_mem hl
  simp only [inOrder, and_eq_true, not_eq_true', Option.isNone_iff_eq_none] at hin
  obtain ⟨⟨⟨hnone, hcan⟩, -⟩, -⟩ := hin
  simp only [noWrap, decide_eq_true_eq] at hwrap
  rw [hslot] at hcan hyoung hsq
  have hchecked : ls[k].checked = true := by
    obtain ⟨hvalid, hfence⟩ := h.ordered.sent _ hl hv.obtained
    simp [LqEntry.checked, hvalid, hfence, hv.plain]
  have hsame : sameBlock c.depCheckShift req'.vaddr req'.size ls[k].effAddr ls[k].effSize =
    true := by
    rw [hv.effAddr, hv.effSize]
    exact sameBlock_of_overlap hwrap hend (by omega) hpos ho
  obtain ⟨before, after, hindices, hbefore⟩ := h.youngerLoads (getElem_mem hp) hcan hk hyoung
  let s₁ : Lsq := { s with
    storeQueue := s.storeQueue.modify (s.storeQueue.index p) fun e => writeMem c e req' split data }
  obtain ⟨hviol, hlqs⟩ := memDepViolator_allowSC s₁ (s.storeQueue.index p)
  have hloads (j : Nat) (hj : j < ls.length) :
      (s₁.allowSC (s.storeQueue.index p)).loadQueue.slot (s.loadQueue.index j) = some ls[j] := by
    rw [hlqs]
    exact h.load j hj
  obtain ⟨j, hj, l', hl', hcheck⟩ := checkViolations_first (c := c) after
    (hviol.trans hnone) (fun i hi => by
      obtain ⟨j, hj, rfl⟩ := hbefore i hi
      rw [hloads j (hj.trans hk)]
      rfl)
    (hloads k hk) hchecked hsame
  refine ⟨{ s₁.allowSC (s.storeQueue.index p) with memDepViolator := some l'.seqNum }, l'.seqNum,
    ?_, rfl, ?_⟩
  · have hstores : s.stores ≠ 0 := by
      rw [Lsq.stores, h.ordered.stores.count]
      omega
    have hno : ¬(s.stores = 0 || s.squashed (s.storeQueue.slot (s.storeQueue.index p)).seqNum ||
        !(decide (req'.size ≤ 16) || req'.storeNoData)) = true := by
      rw [hslot, hsq]
      rcases hfits with hf | hf <;> simp [hstores, hf]
    have hnz : ¬(s₁.storeQueue.slot (s.storeQueue.index p)).size = 0 := by
      rw [Lib.Ring.modify_slot_self]
      exact hsize
    simp only [Lsq.executeStore]
    rw [if_neg hno, if_neg hnz, hslot]
    rw [← hindices] at hcheck
    exact hcheck
  · obtain ⟨j', hj', rfl⟩ : ∃ j', j' ≤ k ∧ j = s.loadQueue.index j' := by
      rcases mem_append.mp hj with hj | hj
      · obtain ⟨j', hlt, rfl⟩ := hbefore j hj
        exact ⟨j', hlt.le, rfl⟩
      · exact ⟨k, le_rfl, mem_singleton.mp hj⟩
    rw [hloads j' (hj'.trans_lt hk)] at hl'
    cases hl'
    rcases Nat.lt_or_eq_of_le hj' with hlt | rfl
    · have := pairwise_iff_getElem.mp (pairwise_map.mp h.inv.loadOrder) j' k (hlt.trans hk) hk hlt
      exact this.le
    · exact le_rfl

end Sound

/-- A load that has a value is found by the stores that execute after it. -/
theorem foundLater (h : (inOrderMachine c).ReachWhen (fun _ e => noWrap e) s) {n x : Nat}
    (hnx : n < x) (hpos : 0 < req.size) (hend : req.vaddr + req.size < 2 ^ 64)
    (hx : ∃ l ∈ s.loadList, l.seqNum = x) (hv : ∀ l ∈ s.loadList, l.seqNum = x → HasValue l req) :
    FoundLater c s n x req := by
  intro t ht i req' split data hi hn hin hwrap hsq hfits hsize ho
  have hreach := h.steps ht
  obtain ⟨⟨l, hl, rfl⟩, hv⟩ := ht.invariant h hx
    (I := fun t => ∀ l ∈ t.loadList, l.seqNum = x → HasValue l req) hv
    fun t e u ht hxt _ hi hC hs l' hl' hx' => by
      obtain ⟨ls, q, w, hsound⟩ := sound_reach ht
      obtain ⟨ls', q', w', hsound', htr⟩ := hsound.step hC hs
      rw [loadList_eq hsound.ordered.loads] at hxt hi
      rw [loadList_eq hsound'.ordered.loads] at hl'
      rcases htr l' hl' with ⟨l, hl, hk⟩ | hyoung
      · exact (hi l hl (hk.seqNum.symm.trans hx')).kept hk
      obtain ⟨l, hl, hlx⟩ := hxt
      have := hyoung l hl
      omega
  obtain ⟨ls, q, w, hsound⟩ := sound_reach hreach
  rw [loadList_eq hsound.ordered.loads] at hl hv
  subst hn
  exact hsound.executeStore hi hin hwrap hsq hfits hsize hl hnx (hv l hl rfl) hpos hend ho

/-- A load that gets a value is forwarded, or nothing stands in its way. -/
theorem read_cases {idx : Nat} {ld : LqEntry} (hs : s.read idx ld req accepted = some (s', r))
    (hplain : req.strictlyOrdered = false ∧ req.mmappedIpr = false) (hr : r.obtained.isSome) :
    (∃ i data, searchStores req s.storeQueue.slot (s.olderStores ld) = some (.full i data) ∧
      r = .forwarded (s.storeQueue.slot i).seqNum data) ∨
    searchStores req s.storeQueue.slot (s.olderStores ld) = some .nothing ∧ r = .sent := by
  simp only [read, hplain, Bool.false_and, Bool.false_eq_true, if_false] at hs
  obtain ⟨found, hfound, hs⟩ := bind_eq_some_iff.mp hs
  cases found with
  | full i data =>
    cases hs
    exact .inl ⟨i, data, hfound, rfl⟩
  | overlap i =>
    obtain ⟨s₁, -, heq⟩ := map_eq_some_iff.mp hs
    cases heq
    cases hr
  | nothing =>
    cases hs
    cases accepted with
    | true => exact .inr ⟨hfound, rfl⟩
    | false => cases hr

namespace Sound

variable {w : Nat} {req : MemReq} {ld : LqEntry}

theorem hits (h : Sound c s ls q w) {j : Nat} {e : SQEntry} (hj : q[j]? = some e)
    (hwrap : req.vaddr + req.size < 2 ^ 64) (hs : e.searched)
    (ho : overlap e.effAddr e.size req.vaddr req.size) : Lsq.hits req e := by
  have hw := h.ordered.written e (mem_of_getElem? hj)
  exact hits_of_overlap hwrap (hw.ends (SQEntry.size_ne_zero hs)) ho

/-- What is forwarded comes from the youngest older store with a byte of the load. -/
theorem forwarded_youngest (h : Sound c s ls q w) (hl : ld ∈ ls) (hd : ld.done = false)
    (hwrap : req.vaddr + req.size < 2 ^ 64) (hpos : 0 < req.size) {i : Nat} {data : Bytes}
    (hs : searchStores req s.storeQueue.slot (s.olderStores ld) = some (.full i data)) :
    ∃ e ∈ q, s.storeQueue.slot i = e ∧ e.seqNum < ld.seqNum ∧ e.searched ∧
      overlap e.effAddr e.size req.vaddr req.size ∧
      (∀ e' ∈ q, e'.seqNum < ld.seqNum → e'.searched →
        overlap e'.effAddr e'.size req.vaddr req.size → e'.seqNum ≤ e.seqNum) ∧
      data = (List.range req.size).map fun b => e.byte (req.vaddr + b) := by
  obtain ⟨p, e, hp, -, hlt, hslot, hsearch, hlow, hup, hdata, hbetween⟩ := h.forwardedFrom hl hd hs
  have hmem := mem_of_getElem? hp
  have hw := h.ordered.written e hmem
  obtain ⟨hlow, hup, ho⟩ :=
    overlap_of_full hwrap (hw.ends (SQEntry.size_ne_zero hsearch)) hpos hlow hup
  refine ⟨e, hmem, hslot, hlt, hsearch, ho, fun e' he' hlt' hs' ho' => ?_, ?_⟩
  · by_contra hyoung
    obtain ⟨j, hj⟩ := mem_iff_getElem?.mp he'
    have hpj := lt_of_seqNum_lt h.storeOrder hp hj (by omega)
    have hno := hbetween j e' hj hlt' hpj hs'
    rw [h.hits hj hwrap hs' ho'] at hno
    cases hno
  · rw [hdata]
    refine forwardData_eq hlow hup fun hz => ?_
    have := hw.size hz
    have := hw.fits
    omega

/-- A load that goes to the cache has a byte of no older store that is still to be sent. -/
theorem sent_no_overlap (h : Sound c s ls q w) (hl : ld ∈ ls) (hd : ld.done = false)
    (hwrap : req.vaddr + req.size < 2 ^ 64)
    (hs : searchStores req s.storeQueue.slot (s.olderStores ld) = some .nothing) {j : Nat}
    {e : SQEntry}
    (hj : q[j]? = some e) (hw : w ≤ j) (hlt : e.seqNum < ld.seqNum) (hsearch : e.searched) :
    overlap e.effAddr e.size req.vaddr req.size = false := by
  by_contra ho
  have hno := searchStores_nothing hs (h.mem_olderStores hl hd hj hw hlt) (by rwa [h.slot hj])
  rw [h.slot hj, h.hits hj hwrap hsearch (by simpa using ho)] at hno
  cases hno

end Sound

end Lsq

open Lsq

theorem loads_stores_ordered (c : QueueConfig) {s s' : Lsq} {idx : Nat} {req : MemReq}
    {accepted : Bool}
    {r : ReadResult} {ld : LqEntry}
    (h : (inOrderMachine c).ReachWhen (fun _ e => noWrap e = true) s)
    (hstep : (inOrderMachine c).step s (.executeLoad idx req accepted) = some s')
    (hwrap : noWrap (.executeLoad idx req accepted) = true)
    (hs : s.executeLoad c idx req accepted = some (s', r)) (hld : s.loadQueue.slot idx = some ld)
    (hplain : req.strictlyOrdered = false ∧ req.mmappedIpr = false) (hpos : 0 < req.size)
    (hobtained : r.obtained.isSome = true) :
    (∀ j e, s.storeList[j]? = some e → e.seqNum < ld.seqNum →
      j < s.storeQueue.distance s.storeWBIdx ∨
      e.size ≠ 0 ∧ (e.searched = true → overlap e.effAddr e.size req.vaddr req.size = true →
        ∃ store data, r = .forwarded store data ∧ e.seqNum ≤ store ∧ store < ld.seqNum) ∨
      e.size = 0 ∧ FoundLater c s' e.seqNum ld.seqNum req) ∧
    ∀ store data, r = .forwarded store data →
      ∃ e ∈ s.storeList, e.seqNum = store ∧ store < ld.seqNum ∧ e.searched = true ∧
        overlap e.effAddr e.size req.vaddr req.size = true ∧
        (∀ e' ∈ s.storeList, e'.seqNum < ld.seqNum → e'.searched = true →
          overlap e'.effAddr e'.size req.vaddr req.size = true → e'.seqNum ≤ store) ∧
        data = (List.range req.size).map fun b => e.byte (req.vaddr + b) := by
  obtain ⟨ls, q, w, hsound⟩ := sound_reach h
  have hreach' : (inOrderMachine c).ReachWhen (fun _ e => noWrap e = true) s' := .step h hwrap hstep
  obtain ⟨hidx, hin⟩ : s.isLoad idx = true ∧
    (s.loadQueue.slot idx).all (fun l => !l.done) = true := by
    simp only [inOrderMachine, Lsq.step] at hstep
    split at hstep
    · next hin =>
      split at hstep
      · next hall => exact ⟨hall, hin⟩
      · cases hstep
    · cases hstep
  simp only [noWrap, decide_eq_true_eq] at hwrap
  have hd : ld.done = false := by simpa [hld] using hin
  have hl : ld ∈ ls := by
    obtain ⟨k, hk, rfl, hslot⟩ := hsound.ordered.loadPosition hidx
    obtain rfl : ls[k] = ld := Option.some.inj (hslot.symm.trans hld)
    exact getElem_mem hk
  obtain ⟨ld', s₁, s₂, hld', -, hread, -⟩ := executeLoad_cases hs
  obtain rfl : ld = ld' := Option.some.inj (hld.symm.trans hld')
  have hfound := read_cases hread hplain hobtained
  rw [storeList_eq hsound.ordered.stores, hsound.distance_wb]
  refine ⟨fun j e hj hlt => ?_, fun store data hr => ?_⟩
  · rcases Nat.lt_or_ge j w with hjw | hjw
    · exact .inl hjw
    right
    rcases eq_or_ne e.size 0 with hz | hz
    · right
      refine ⟨hz, ?_⟩
      obtain ⟨ls', h', -, hmap, hmarked⟩ :=
        hsound.ordered.executeLoad hsound.inv.loadOrder hidx hin hs
      refine foundLater hreach' hlt hpos hwrap ?_ ?_
      · rw [loadList_eq h'.loads]
        exact mem_map.mp (hmap ▸ mem_map_of_mem hl)
      rw [loadList_eq h'.loads]
      intro l hl heq
      obtain ⟨b, rfl⟩ := hmarked ld hld l hl heq
      exact ⟨hobtained, rfl, rfl, hplain.1⟩
    · left
      refine ⟨hz, fun hsearch ho => ?_⟩
      rcases hfound with ⟨i, data, hfull, rfl⟩ | ⟨hnothing, -⟩
      · obtain ⟨e₀, -, hslot, hlt₀, -, -, hyoungest, -⟩ :=
          hsound.forwarded_youngest hl hd hwrap hpos hfull
        rw [hslot]
        exact ⟨_, _, rfl, hyoungest e (mem_of_getElem? hj) hlt hsearch ho, hlt₀⟩
      · rw [hsound.sent_no_overlap hl hd hwrap hnothing hj hjw hlt hsearch] at ho
        cases ho
  · rcases hfound with ⟨i, data', hfull, rfl⟩ | ⟨-, rfl⟩
    · cases hr
      obtain ⟨e, he, hslot, hrest⟩ := hsound.forwarded_youngest hl hd hwrap hpos hfull
      rw [hslot]
      exact ⟨e, he, rfl, hrest⟩
    · cases hr

/-- Two stores and a load; the older store has executed. -/
def storeThenLoad (store : MemReq) : List LsqEvent :=
  [.insertStore 1 false false, .insertStore 2 false false, .insertLoad 3,
    .executeStore 0 (.access store false (List.range store.size |>.map (UInt8.ofNat <| · + 1)))]

theorem loads_stores_ordered_forwarded :
    ∃ s s' : Lsq, (inOrderMachine {}).ReachWhen (fun _ e => noWrap e = true) s ∧
      s.executeLoad {} 0 { vaddr := 68, size := 4 } true = some (s', .forwarded 1 [5, 6, 7, 8]) ∧
      FoundLater {} s' 2 3 { vaddr := 68, size := 4 } := by
  let events := storeThenLoad { vaddr := 64, size := 8 }
  let s := ((inOrderMachine {}).run fourEntries events).getD fourEntries
  have h : (inOrderMachine {}).ReachWhen (fun _ e => noWrap e = true) s :=
    .run (.start (s := fourEntries) (fourEntries_start {})) events (by decide +kernel)
      (Machine.run_getD (by decide +kernel))
  let req : MemReq := { vaddr := 68, size := 4 }
  let p := (s.executeLoad {} 0 req true).getD (s, .stalled)
  have hs : s.executeLoad {} 0 req true = some (p.1, .forwarded 1 [5, 6, 7, 8]) := by
    have hr : p.2 = .forwarded 1 [5, 6, 7, 8] := by decide +kernel
    rw [← hr]
    exact Machine.eq_some_getD (d := (s, .stalled)) (by decide +kernel)
  have hstep : (inOrderMachine {}).step s (.executeLoad 0 req true) = some p.1 := by
    have hin : s.inOrder (.executeLoad 0 req true) = true := by decide +kernel
    have hall : s.allowed (.executeLoad 0 req true) = true := by decide +kernel
    simp only [inOrderMachine, Lsq.step, hin, hall, if_true, handle, hs, Option.map_some]
  let ld : LqEntry := { seqNum := 3, lqIdx := 0, sqIdx := some 2 }
  have hld : s.loadQueue.slot 0 = some ld := by decide +kernel
  have hboth := (loads_stores_ordered {} h hstep (by decide) hs hld ⟨rfl, rfl⟩ (by decide) rfl).1
  let e : SQEntry := { hasInst := true, seqNum := 2 }
  rcases hboth 1 e (by decide +kernel) (by decide) with hsent | ⟨hz, -⟩ | ⟨-, hfound⟩
  · exact absurd hsent (by decide +kernel)
  · exact absurd rfl hz
  · exact ⟨s, p.1, h, hs, hfound⟩

/-- The address space ends where the load does, and where it ends is computed as 0: it is forwarded
from a store of four bytes that has none of its bytes. -/
theorem forwards_foreign_bytes :
    ∃ (s : Lsq) (req : MemReq) (data : Bytes), (inOrderMachine {}).Reach s ∧
      req.vaddr + req.size = 2 ^ 64 ∧
      ((inOrderMachine {}).step s (.executeLoad 0 req true)).isSome = true ∧
      (s.executeLoad {} 0 req true).map (·.2) = some (.forwarded 1 data) ∧
      ∀ e ∈ s.storeList, e.effAddr + e.size < 2 ^ 64 ∧
        overlap e.effAddr e.size req.vaddr req.size = false := by
  let events := storeThenLoad { vaddr := 2 ^ 64 - 16, size := 4 }
  have h : (inOrderMachine {}).Reach
    (((inOrderMachine {}).run fourEntries events).getD fourEntries) :=
    Machine.reach_run (fourEntries_start {}) (Machine.run_getD (by decide +kernel))
  exact ⟨_, { vaddr := 2 ^ 64 - 8, size := 8 }, List.replicate 8 0, h, by decide, by decide +kernel,
    by decide +kernel, by decide +kernel⟩

/-- A store that has a packet on its way to memory can write back and so can the stores before it,
and the loads before it are done, as they were when `commitStores` was called for it (`inOrder`). It
is in the queue, the one at `storeWBIdx` or before it, until the last packet is answered, and no
store is sent twice. -/
theorem stores_sent_in_order (c : QueueConfig) {s : Lsq}
    (h : (inOrderMachine c).ReachWhen (fun _ e => noWrap e = true) s) :
    (s.senders.map (·.inst)).Nodup ∧ ∀ t ∈ s.senders,
      (∃ p e, s.storeList[p]? = some e ∧ e.seqNum = t.inst ∧ e.canWB = true ∧ e.completed = false ∧
        p ≤ s.storeQueue.distance s.storeWBIdx) ∧
      (∀ e ∈ s.storeList, e.seqNum < t.inst → e.canWB = true) ∧
      ∀ l ∈ s.loadList, l.seqNum < t.inst → l.done = true := by
  obtain ⟨ls, q, w, hs⟩ := Lsq.sound_reach h
  rw [Lsq.storeList_eq hs.ordered.stores, Lsq.loadList_eq hs.ordered.loads, hs.distance_wb]
  refine ⟨hs.inv.sending.nodup, fun t ht => ?_⟩
  obtain ⟨p, v, hv⟩ := hs.inv.sending.sender t ht
  have hview := hv.at_
  rw [getElem?_map] at hview
  obtain ⟨e, hat, rfl⟩ := Option.map_eq_some_iff.mp hview
  have hmem : e ∈ q := mem_of_getElem? hat
  have hinst : e.seqNum = t.inst := hv.inst
  refine ⟨⟨p, e, hat, hinst, hv.canWB, hv.uncompleted, ?_⟩, fun e' he' hlt => ?_,
    fun l hl hlt => ?_⟩
  · by_cases hu : t.unsent s.retryPkt s.pendingPkt = 0
    · exact (hv.sent hu).le
    · exact (hv.sending hu).le
  · exact hs.ordered.front e hmem hv.canWB e' he' (hinst ▸ hlt)
  · exact hs.ordered.commits e hmem hv.canWB l hl (hinst ▸ hlt)

/-- Without TSO both stores are on their way; the load between them is done. -/
def storesAround : List LsqEvent :=
  [.insertStore 1 false false, .insertLoad 2, .insertStore 3 false false,
    .executeStore 0 (.access { vaddr := 64, size := 1 } false [1]),
    .executeStore 1 (.access { vaddr := 80, size := 1 } false [2]),
    .executeLoad 0 { vaddr := 96, size := 1 } true, .commitStores 3, .writebackStores [] []]

theorem stores_sent_in_order_second : ∃ s : Lsq, ∃ t ∈ s.senders,
    (∃ e ∈ s.storeList, e.seqNum < t.inst ∧ e.canWB = true) ∧
      ∃ l ∈ s.loadList, l.seqNum < t.inst ∧ l.done = true := by
  let c : QueueConfig := { needsTSO := false }
  let s := ((inOrderMachine c).run fourEntries storesAround).getD fourEntries
  have h := stores_sent_in_order c (s := s)
    (.run (.start (s := fourEntries) (fourEntries_start c)) storesAround (by decide +kernel)
      (Machine.run_getD (by decide +kernel)))
  have hbefore : ∃ t ∈ s.senders, (∃ e ∈ s.storeList, e.seqNum < t.inst) ∧
      ∃ l ∈ s.loadList, l.seqNum < t.inst := by decide +kernel
  obtain ⟨t, ht, ⟨e, he, hlt⟩, l, hl, hlt'⟩ := hbefore
  obtain ⟨-, hstores, hloads⟩ := h.2 t ht
  exact ⟨s, t, ht, ⟨e, he, hlt, hstores e he hlt⟩, l, hl, hlt', hloads l hl hlt'⟩

end SdoCore
