import SdoCore.Ruby.Sequencer

/-! The Sequencer neither loses nor duplicates a request: every packet that was issued is held
in one place until it is handed back, once. The packets a port hands over name no request to
merge with (`aliased_reqIdx` is -1), so the loop of `insertSpecldRequest` that would lose some is
not entered. -/

namespace SdoCore.Ruby

open Lib
open List
open Sequencer (empty)

namespace Sequencer

/-! ## Where a packet is -/

/-- How often the packet `p` stands in an entry: as its request or among the dependents. -/
def weight (p : Nat) (r : SequencerRequest) : Nat :=
  ((r.pkt :: r.dependentRequests).map Packet.id).count p

/-- How often `p` is held in the tables. -/
def inTables (s : Sequencer) (p : Nat) : Nat :=
  s.writeRequestTable.total (weight p) + s.readRequestTable.total (weight p) +
    s.specldRequestTable.total (weight p)

/-- How often `p` waits for its data from the speculation buffer. -/
def inQueue (s : Sequencer) (p : Nat) : Nat := (s.specRequestQueue.map Packet.id).count p

/-- How often `p` was handed back for good. -/
def handedBack (s : Sequencer) (p : Nat) : Nat :=
  ((s.responses.filter Packet.isFinalPacket).map Packet.id).count p

def timesIssued (s : Sequencer) (p : Nat) : Nat := (s.issued.map Packet.id).count p

structure Inv (c : SequencerConfig) (s : Sequencer) : Prop where
  count : s.outstandingCount =
    s.writeRequestTable.size + s.readRequestTable.size + s.specldRequestTable.size
  disjoint : ∀ line ∈ s.writeRequestTable.keys, line ∉ s.readRequestTable.keys
  unique : (s.issued.map Packet.id).Nodup
  held : ∀ p, s.inTables p + s.inQueue p + s.handedBack p = s.timesIssued p
  write : ∀ e ∈ s.writeRequestTable.entries,
    e.2.dependentRequests = [] ∧ e.2.pkt.isFinalPacket = true
  read : ∀ e ∈ s.readRequestTable.entries,
    (∀ d ∈ e.2.pkt :: e.2.dependentRequests, d.isFinalPacket = true) ∧
      (e.2.dependentRequests = [] ∨ c.mldom = true ∧ e.2.type = .LD)
  specld : ∀ e ∈ s.specldRequestTable.entries, e.2.dependentRequests = []
  queue : ∀ q ∈ s.specRequestQueue, q.isFinalPacket = true ∧
    ∃ p ∈ s.issued, p.id = q.id ∧ p.onlyAccessSpecBuf = true

theorem empty_inv (c : SequencerConfig) : Inv c empty := by
  refine ⟨rfl, ?_, .nil, fun _ => rfl, ?_, ?_, ?_, ?_⟩
  all_goals
    intro x hx
    simp [empty, Table.empty, Table.keys] at hx

/-! ## What a request does -/

/-- What the insertion of a request can do. -/
inductive Inserted (c : SequencerConfig) (s : Sequencer) (pkt : Packet) (type : RubyRequestType) :
    Sequencer → RequestStatus → Prop
  | refused : Inserted c s pkt type s .Aliased
  | write {line : Nat} (h : line ∉ s.writeRequestTable.keys) :
    line ∉ s.readRequestTable.keys →
    Inserted c s pkt type { s with
      writeRequestTable := s.writeRequestTable.insert line ⟨pkt, type, []⟩ h
      outstandingCount := s.outstandingCount + 1 } .Ready
  | read {line : Nat} (h : line ∉ s.readRequestTable.keys) :
    line ∉ s.writeRequestTable.keys →
    Inserted c s pkt type { s with
      readRequestTable := s.readRequestTable.insert line ⟨pkt, type, []⟩ h
      outstandingCount := s.outstandingCount + 1 } .Ready
  | specld {key : Nat × Int} (h : key ∉ s.specldRequestTable.keys) :
    Inserted c s pkt type { s with
      specldRequestTable := s.specldRequestTable.insert key ⟨pkt, type, []⟩ h
      outstandingCount := s.outstandingCount + 1 } .Ready
  | mergedRead {line : Nat} {r : SequencerRequest} :
    s.readRequestTable.lookup line = some r → r.type = .LD → c.mldom = true →
    Inserted c s pkt type
      { s with readRequestTable := s.readRequestTable.modify line (addDependent pkt) } .Merged

section Insert

variable {c : SequencerConfig} {s t : Sequencer} {pkt : Packet} {type : RubyRequestType}
  {front : Nat} {st : RequestStatus}

theorem insertRequest_inserted (h : insertRequest c s pkt type = some (t, st)) :
    Inserted c s pkt type t st := by
  unfold insertRequest at h
  dsimp only at h
  split at h
  · cases h
    exact .refused
  split at h
  · -- a store
    split at h
    · cases h
      exact .refused
    rename_i hread
    split at h
    · cases h
      exact .refused
    · cases h
      exact .write _ hread
  · -- a load
    split at h
    · cases h
      exact .refused
    rename_i hwrite
    split at h
    · split at h
      · split at h
        · rename_i hm
          split at h
          · rename_i r hr
            split at h
            · rename_i hld
              cases h
              exact .mergedRead hr hld hm
            · cases h
              exact .refused
          · cases h
        · cases h
      · cases h
        exact .refused
    · cases h
      exact .read _ hwrite

theorem insertSpecldRequest_inserted (ha : pkt.aliasedReqIdx = -1)
    (h : insertSpecldRequest c s pkt type front = some (t, st)) : Inserted c s pkt type t st := by
  unfold insertSpecldRequest at h
  dsimp only at h
  split at h
  case isFalse => cases h
  split at h
  · cases h
    exact .refused
  split at h
  case isFalse => cases h
  split at h
  · cases h
    exact .refused
  split at h
  · cases h
    exact .refused
  rw [if_neg (by omega)] at h
  cases h
  exact .specld _

/-- The request ends with the status of the insertion, or it is sent on. -/
theorem enterTable_inserted {sec : RubyRequestType} (ha : pkt.aliasedReqIdx = -1)
    (h : s.enterTable c pkt type sec front = some (t, st)) :
    ∃ s1 st1, Inserted c s pkt type s1 st1 ∧ ∃ q, t = { s1 with mandatoryQ := q } ∧
      (st = .Issued ↔ st1 ≠ .Aliased) := by
  have hins : ∀ {s1 st1}, (if (c.mldom && pkt.isSpecLd) = true then
      insertSpecldRequest c s pkt type front else insertRequest c s pkt type) = some (s1, st1) →
      Inserted c s pkt type s1 st1 := by
    intro s1 st1 h1
    split at h1
    · exact insertSpecldRequest_inserted ha h1
    · exact insertRequest_inserted h1
  unfold enterTable at h
  dsimp only at h
  split at h
  · cases h
  · rename_i s1 h1
    cases h
    exact ⟨_, _, hins h1, _, rfl, by simp⟩
  · rename_i s1 h1
    cases h
    exact ⟨_, _, hins h1, _, rfl, by simp⟩
  · rename_i r hmerged hready h1
    cases h
    have hi := hins h1
    refine ⟨_, _, hi, _, rfl, ?_⟩
    cases hi
    case refused => simp
    all_goals
      first
      | exact absurd rfl (hmerged _)
      | exact absurd rfl (hready _)

end Insert

/-- What `makeRequest` can do: refuse, answer from the speculation buffer, or go on to the
tables. Only the buffer is touched before that. -/
inductive Made (c : SequencerConfig) (s : Sequencer) (pkt : Packet) :
    Sequencer → RequestStatus → Prop
  | refused {b : Int → Bool → SBB} {st : RequestStatus} :
    st ≠ .Issued → Made c s pkt { s with specBuf := b } st
  | queued {b : Int → Bool → SBB} {q : Packet} :
    q.id = pkt.id → q.isFinalPacket = pkt.isFinalPacket → q.confirmPkt = pkt.confirmPkt →
    pkt.onlyAccessSpecBuf = true → Made c s pkt
      { s with specBuf := b, specRequestQueue := s.specRequestQueue ++ [q] } .Issued
  | entered {b : Int → Bool → SBB} {type sec : RubyRequestType} {s1 : Sequencer}
    {st1 st : RequestStatus} {q : List (Nat × RubyRequestType)} :
    requestType c pkt = some (type, sec) →
    Inserted c { s with specBuf := b } pkt type s1 st1 → (st = .Issued ↔ st1 ≠ .Aliased) →
    Made c s pkt { s1 with mandatoryQ := q } st

section Make

variable {c : SequencerConfig} {s t : Sequencer} {pkt : Packet} {front : Nat} {st : RequestStatus}
  {res : Sum (Sequencer × RequestStatus) Sequencer}

theorem contentionSpecBuf_made (h : s.contentionSpecBuf c pkt = some res) :
    match res with
    | .inl r => Made c s pkt r.1 r.2
    | .inr s1 => ∃ b, s1 = { s with specBuf := b } := by
  unfold contentionSpecBuf at h
  split at h
  case isFalse =>
    cases h
    exact ⟨s.specBuf, rfl⟩
  dsimp only at h
  have hbuf : ∃ b, (if pkt.isSpec = true then s.setSBB pkt.reqIdx pkt.isFirst
      { s.specBuf pkt.reqIdx pkt.isFirst with
        reqAddress := pkt.addr, reqSize := pkt.size, dataHit := false }
      else s) = { s with specBuf := b } := by
    split
    · exact ⟨_, rfl⟩
    · exact ⟨s.specBuf, rfl⟩
  obtain ⟨b, hb⟩ := hbuf
  rw [hb] at h
  split at h
  · rename_i honly
    split at h
    · cases h
    split at h
    · cases h
      exact .queued rfl rfl rfl honly
    · cases h
      exact .refused (by simp)
  · cases h
    exact ⟨b, rfl⟩

theorem invisiSpecBuf_made (h : s.invisiSpecBuf c pkt = some res) :
    match res with
    | .inl r => Made c s pkt r.1 r.2
    | .inr s1 => ∃ b, s1 = { s with specBuf := b } := by
  unfold invisiSpecBuf at h
  dsimp only at h
  split at h
  · cases h
    exact ⟨s.specBuf, rfl⟩
  split at h
  · split at h
    · rename_i honly
      split at h
      · cases h
      · cases h
        exact .queued rfl rfl rfl honly
    · cases h
      exact ⟨_, rfl⟩
  split at h
  · split at h
    · cases h
      exact ⟨s.specBuf, rfl⟩
    · cases h
  · cases h
    exact ⟨s.specBuf, rfl⟩

theorem makeRequest_made (ha : pkt.aliasedReqIdx = -1)
    (h : s.makeRequest c pkt front = some (t, st)) : Made c s pkt t st := by
  unfold makeRequest at h
  split at h
  · cases h
    exact .refused (b := s.specBuf) (by decide)
  split at h
  · cases h
  · rename_i hbuf
    cases h
    exact contentionSpecBuf_made hbuf
  · rename_i s1 hbuf
    obtain ⟨b, rfl⟩ : ∃ b, s1 = { s with specBuf := b } := contentionSpecBuf_made hbuf
    split at h
    · cases h
    rename_i type sec htype
    split at h
    · cases h
    · rename_i hbuf2
      cases h
      have hm := invisiSpecBuf_made hbuf2
      cases hm with
      | refused hst => exact .refused hst
      | queued hid hfin hconf honly => exact .queued hid hfin hconf honly
      | entered hty hins hst => exact .entered hty hins hst
    · rename_i s2 hbuf2
      obtain ⟨b2, rfl⟩ : ∃ b2, s2 = { { s with specBuf := b } with specBuf := b2 } :=
        invisiSpecBuf_made hbuf2
      obtain ⟨s3, st1, hins, q, rfl, hst⟩ := enterTable_inserted ha h
      exact .entered htype hins hst

end Make

/-! ## Requests keep the invariant -/

section Frame

variable {c : SequencerConfig} {s t : Sequencer} {pkt : Packet}

/-- The invariant does not read the speculation buffer, the queue to the controller, the locked
lines and the history of lookups. -/
theorem Inv.frame (h : Inv c s) (hw : t.writeRequestTable = s.writeRequestTable)
    (hr : t.readRequestTable = s.readRequestTable)
    (hsp : t.specldRequestTable = s.specldRequestTable)
    (hn : t.outstandingCount = s.outstandingCount) (hq : t.specRequestQueue = s.specRequestQueue)
    (hi : t.issued = s.issued) (hres : t.responses = s.responses) : Inv c t where
  count := by rw [hw, hr, hsp, hn]; exact h.count
  disjoint := by rw [hw, hr]; exact h.disjoint
  unique := by rw [hi]; exact h.unique
  held p := by
    have hp := h.held p
    simp only [inTables, inQueue, handedBack, timesIssued] at hp ⊢
    rw [hw, hr, hsp, hq, hi, hres]
    exact hp
  write := by rw [hw]; exact h.write
  read := by rw [hr]; exact h.read
  specld := by rw [hsp]; exact h.specld
  queue := by rw [hq, hi]; exact h.queue

theorem weight_addDependent (p : Nat) (r : SequencerRequest) :
    weight p (addDependent pkt r) = weight p r + [pkt.id].count p := by
  simp only [weight, addDependent, map_cons, map_append, map_nil]
  rw [← cons_append, count_append]

theorem timesIssued_append (p : Nat) :
    timesIssued { s with issued := s.issued ++ [pkt] } p = s.timesIssued p + [pkt.id].count p := by
  simp only [timesIssued, map_append, map_cons, map_nil, count_append]

/-- An issued packet that `t` holds once more than `s`. -/
theorem Inv.issue (h : Inv c s) (hfresh : pkt.id ∉ s.issued.map Packet.id)
    (hcount : t.outstandingCount =
      t.writeRequestTable.size + t.readRequestTable.size + t.specldRequestTable.size)
    (hdisj : ∀ line ∈ t.writeRequestTable.keys, line ∉ t.readRequestTable.keys)
    (hheld : ∀ p, t.inTables p + t.inQueue p = s.inTables p + s.inQueue p + [pkt.id].count p)
    (hwrite : ∀ e ∈ t.writeRequestTable.entries,
      e.2.dependentRequests = [] ∧ e.2.pkt.isFinalPacket)
    (hread : ∀ e ∈ t.readRequestTable.entries,
      (∀ d ∈ e.2.pkt :: e.2.dependentRequests, d.isFinalPacket) ∧
        (e.2.dependentRequests = [] ∨ c.mldom ∧ e.2.type = .LD))
    (hspecld : ∀ e ∈ t.specldRequestTable.entries, e.2.dependentRequests = [])
    (hqueue : ∀ q ∈ t.specRequestQueue, q ∈ s.specRequestQueue ∨
      q.isFinalPacket ∧ q.id = pkt.id ∧ pkt.onlyAccessSpecBuf)
    (hissued : t.issued = s.issued) (hres : t.responses = s.responses) :
    Inv c { t with issued := t.issued ++ [pkt] } where
  count := hcount
  disjoint := hdisj
  unique := by
    show ((t.issued ++ [pkt]).map Packet.id).Nodup
    rw [hissued, map_append, nodup_append']
    refine ⟨h.unique, nodup_singleton _, ?_⟩
    rw [disjoint_right]
    intro a ha
    rw [mem_singleton.mp ha]
    exact hfresh
  held p := by
    have hp := h.held p
    have ht := hheld p
    have hb : handedBack { t with issued := t.issued ++ [pkt] } p = s.handedBack p := by
      simp only [handedBack, hres]
    have hi : timesIssued { t with issued := t.issued ++ [pkt] } p =
        s.timesIssued p + [pkt.id].count p := by
      rw [timesIssued_append, timesIssued, hissued, ← timesIssued]
    show t.inTables p + t.inQueue p + _ = _
    rw [hb, hi]
    omega
  write := hwrite
  read := hread
  specld := hspecld
  queue q hq := by
    rcases hqueue q hq with hq | ⟨hfin, hid, honly⟩
    · obtain ⟨hfin, p, hp, hid, honly⟩ := h.queue q hq
      exact ⟨hfin, p, by rw [hissued]; exact mem_append_left _ hp, hid, honly⟩
    · exact ⟨hfin, pkt, mem_append_right _ (mem_singleton_self _), hid.symm, honly⟩

end Frame

section Requests

variable {c : SequencerConfig} {s t : Sequencer} {pkt : Packet} {type : RubyRequestType}
  {front : Nat} {st : RequestStatus}

theorem forall_addDependent {P : Packet → Prop} {r : SequencerRequest}
    (h : ∀ d ∈ r.pkt :: r.dependentRequests, P d) (hp : P pkt) :
    ∀ d ∈ (addDependent pkt r).pkt :: (addDependent pkt r).dependentRequests, P d := by
  intro d hd
  simp only [addDependent, mem_cons, mem_append, mem_nil_iff, or_false] at hd
  rcases hd with rfl | hd | rfl
  · exact h _ mem_cons_self
  · exact h d (mem_cons_of_mem _ hd)
  · exact hp

theorem inserted_inv (h : Inv c s) (hfresh : pkt.id ∉ s.issued.map Packet.id)
    (hfin : pkt.isFinalPacket)
    (hins : Inserted c s pkt type t st) (hst : st ≠ .Aliased) :
    Inv c { t with issued := t.issued ++ [pkt] } := by
  cases hins with
  | refused => exact absurd rfl hst
  | @write line hw hr =>
    refine h.issue hfresh ?_ ?_ ?_ ?_ h.read h.specld (fun q hq => .inl hq) rfl rfl
    · have hc := h.count
      simp only [Table.size_insert]
      omega
    · intro k hk
      rcases (Table.mem_keys_insert hw).mp hk with hk | rfl
      · exact h.disjoint k hk
      · exact hr
    · intro p
      simp only [inTables, inQueue, Table.total_insert, weight, map_cons, map_nil]
      omega
    · intro e he
      rcases (Table.mem_insert hw).mp he with he | rfl
      · exact h.write e he
      · exact ⟨rfl, hfin⟩
  | @read line hr hw =>
    refine h.issue hfresh ?_ ?_ ?_ h.write ?_ h.specld (fun q hq => .inl hq) rfl rfl
    · have hc := h.count
      simp only [Table.size_insert]
      omega
    · intro k hk hk'
      rcases (Table.mem_keys_insert hr).mp hk' with hk' | rfl
      · exact h.disjoint k hk hk'
      · exact hw hk
    · intro p
      simp only [inTables, inQueue, Table.total_insert, weight, map_cons, map_nil]
      omega
    · intro e he
      rcases (Table.mem_insert hr).mp he with he | rfl
      · exact h.read e he
      · exact ⟨by simpa using hfin, .inl rfl⟩
  | @specld key hk =>
    refine h.issue hfresh ?_ h.disjoint ?_ h.write h.read ?_ (fun q hq => .inl hq) rfl rfl
    · have hc := h.count
      simp only [Table.size_insert]
      omega
    · intro p
      simp only [inTables, inQueue, Table.total_insert, weight, map_cons, map_nil]
      omega
    · intro e he
      rcases (Table.mem_insert hk).mp he with he | rfl
      · exact h.specld e he
      · rfl
  | @mergedRead line r hlook hld hm =>
    refine h.issue hfresh ?_ ?_ ?_ h.write ?_ h.specld (fun q hq => .inl hq) rfl rfl
    · rw [Table.size_modify]
      exact h.count
    · rw [Table.keys_modify]
      exact h.disjoint
    · intro p
      have hp := Table.total_modify (f := addDependent pkt) (weight p) hlook
      rw [weight_addDependent] at hp
      simp only [inTables, inQueue]
      omega
    · intro e he
      rcases Table.mem_modify he with ⟨he, -⟩ | ⟨v, hv, rfl⟩
      · exact h.read e he
      obtain rfl : v = r := Option.some.inj ((Table.lookup_of_mem hv).symm.trans hlook)
      exact ⟨forall_addDependent (h.read _ hv).1 hfin, .inr ⟨hm, hld⟩⟩

theorem logIssued_of_ne (h : st ≠ .Issued) : logIssued pkt (t, st) = t := by
  cases st <;> first | rfl | exact absurd rfl h

theorem made_inv (h : Inv c s) (hfresh : pkt.id ∉ s.issued.map Packet.id) (hfin : pkt.isFinalPacket)
    (hm : Made c s pkt t st) : Inv c (logIssued pkt (t, st)) := by
  cases hm with
  | refused hst =>
    rw [logIssued_of_ne hst]
    exact h.frame rfl rfl rfl rfl rfl rfl rfl
  | @queued b q hid hqfin _ honly =>
    refine h.issue (t := { s with specBuf := b, specRequestQueue := s.specRequestQueue ++ [q] })
      hfresh h.count h.disjoint ?_ h.write h.read h.specld ?_ rfl rfl
    · intro p
      simp only [inTables, inQueue, map_append, map_cons, map_nil,
        count_append, hid]
      omega
    · intro d hd
      rcases mem_append.mp hd with hd | hd
      · exact .inl hd
      · rw [mem_singleton.mp hd]
        exact .inr ⟨hqfin.trans hfin, hid, honly⟩
  | @entered b type sec s1 st1 _ q _ hins hst =>
    have hb : Inv c { s with specBuf := b } := h.frame rfl rfl rfl rfl rfl rfl rfl
    by_cases hal : st1 = .Aliased
    · have hni : st ≠ .Issued := fun hi => hst.mp hi hal
      rw [logIssued_of_ne hni]
      subst hal
      cases hins with
      | refused => exact hb.frame rfl rfl rfl rfl rfl rfl rfl
    · obtain rfl : st = .Issued := hst.mpr hal
      have hi : Inv c { s1 with issued := s1.issued ++ [pkt] } :=
        inserted_inv hb hfresh hfin hins hal
      exact hi.frame rfl rfl rfl rfl rfl rfl rfl

theorem fresh_spec (h : pkt.fresh) :
    pkt.aliasedReqIdx = -1 ∧ pkt.isFinalPacket ∧ pkt.confirmPkt = none := by
  simp only [Packet.fresh, Bool.and_eq_true, beq_iff_eq] at h
  exact ⟨h.1.1.1.1.1.1.1.1.1, h.1.1.1.2, h.2⟩

/-- The packet a port hands over is new. -/
theorem allows_spec (h : s.allows (.makeRequest pkt front)) :
    pkt.fresh ∧ pkt.id ∉ s.issued.map Packet.id := by
  simp only [allows, Bool.and_eq_true, all_eq_true, decide_eq_true_eq] at h
  refine ⟨h.1, fun hmem => ?_⟩
  obtain ⟨p, hp, hid⟩ := mem_map.mp hmem
  exact h.2 p hp hid

theorem makeRequest_inv (h : Inv c s) (ha : s.allows (.makeRequest pkt front))
    {r : Sequencer × RequestStatus} (hr : s.makeRequest c pkt front = some r) :
    Inv c (logIssued pkt r) := by
  obtain ⟨hf, hnew⟩ := allows_spec ha
  obtain ⟨hal, hfin, -⟩ := fresh_spec hf
  exact made_inv h hnew hfin (makeRequest_made hal hr)

end Requests

/-! ## Callbacks keep the invariant -/

theorem foldl_respond (s : Sequencer) (ds : List Packet) :
    ds.foldl respond s = { s with responses := s.responses ++ ds } := by
  induction ds generalizing s with
  | nil => simp
  | cons d ds ih => simp [ih, respond, append_assoc]

/-- `q` is `p` with other data or hit flags. -/
structure Kin (p q : Packet) : Prop where
  id : q.id = p.id
  isFinalPacket : q.isFinalPacket = p.isFinalPacket
  confirmPkt : q.confirmPkt = p.confirmPkt

theorem hitPacket_kin (c : SequencerConfig) (type : RubyRequestType) (pkt : Packet)
    (data : DataBlock) : Kin pkt (hitPacket c type pkt data) := by
  unfold hitPacket
  repeat' split
  all_goals exact ⟨rfl, rfl, rfl⟩

theorem setHitAt_kin (pkt : Packet) (h : HitAt) : Kin pkt (setHitAt pkt h) := by
  unfold setHitAt
  repeat' split
  all_goals exact ⟨rfl, rfl, rfl⟩

theorem updateSBB_specBuf (c : SequencerConfig) (s : Sequencer) (idx : Int) (pkt : Packet)
    (data : DataBlock) (line : Nat) (hit : Bool) :
    ∃ b, s.updateSBB c idx pkt data line hit = { s with specBuf := b } := by
  unfold updateSBB
  dsimp only
  split
  · exact ⟨_, rfl⟩
  · exact ⟨s.specBuf, rfl⟩

variable {c : SequencerConfig} {s : Sequencer} {data : DataBlock} {ds' : List Packet}

theorem readPacket_spec {t : Sequencer} {pkt pkt' : Packet} {line : Nat} {h : HitAt}
    (hr : s.readPacket c pkt line data h = some (t, pkt')) :
    (∃ b, t = { s with specBuf := b }) ∧ Kin pkt pkt' := by
  have hset := setHitAt_kin pkt h
  unfold readPacket at hr
  split at hr
  · split at hr
    · cases hr
    · cases hr
      refine ⟨?_, ?_⟩
      · split
        · exact ⟨s.specBuf, rfl⟩
        · exact updateSBB_specBuf ..
      · split
        · exact hset
        · exact { hset with }
  split at hr
  · split at hr
    · cases hr
      exact ⟨⟨s.specBuf, rfl⟩, hset.id, hset.isFinalPacket, hset.confirmPkt⟩
    · cases hr
  · cases hr
    exact ⟨⟨s.specBuf, rfl⟩, hset⟩

theorem readDependent_kin {d d' : Packet} (h : readDependent c d data = some d')
    (hd : d.isFinalPacket) :
    Kin d d' := by
  unfold readDependent at h
  split at h
  · cases h
    exact ⟨rfl, rfl, rfl⟩
  split at h
  · cases h
    exact ⟨rfl, hd.symm, rfl⟩
  · cases h

theorem mapM_readDependent_kin (ds : List Packet) (h : ds.mapM (readDependent c · data) = some ds')
    (hd : ∀ d ∈ ds, d.isFinalPacket) : List.Forall₂ Kin ds ds' := by
  induction ds generalizing ds' with
  | nil =>
    simp only [mapM_nil, Option.pure_def, Option.some.injEq] at h
    subst h
    exact .nil
  | cons d ds ih =>
    simp only [mapM_cons, Option.bind_eq_bind, Option.bind_eq_some_iff, Option.pure_def,
      Option.some.injEq] at h
    obtain ⟨d', hd', rest, hrest, rfl⟩ := h
    exact .cons (readDependent_kin hd' (hd d mem_cons_self))
      (ih hrest fun e he => hd e (mem_cons_of_mem _ he))

theorem kin_map_id {ds : List Packet} (h : List.Forall₂ Kin ds ds') :
    ds'.map Packet.id = ds.map Packet.id := by
  induction h with
  | nil => rfl
  | cons hk _ ih => rw [map_cons, map_cons, hk.id, ih]

/-- Every packet of the second list has its counterpart in the first. -/
theorem kin_mem {ds : List Packet} (h : List.Forall₂ Kin ds ds') {d' : Packet} (hd : d' ∈ ds') :
    ∃ d ∈ ds, Kin d d' := by
  induction h with
  | nil => exact absurd hd not_mem_nil
  | cons hk _ ih =>
    rcases mem_cons.mp hd with rfl | hd
    · exact ⟨_, mem_cons_self, hk⟩
    · obtain ⟨d, hmem, hkin⟩ := ih hd
      exact ⟨d, mem_cons_of_mem _ hmem, hkin⟩

section Callbacks

variable {c : SequencerConfig} {s t : Sequencer} {line : Nat} {data : DataBlock}

/-- The packets `ds` are handed back, and the tables and the queue hold them no longer. -/
theorem Inv.handBack (h : Inv c s) (ds : List Packet) (hds : ∀ d ∈ ds, d.isFinalPacket)
    (hres : t.responses = s.responses ++ ds) (hissued : t.issued = s.issued)
    (hheld : ∀ p, t.inTables p + t.inQueue p + (ds.map Packet.id).count p =
      s.inTables p + s.inQueue p)
    (hcount : t.outstandingCount =
      t.writeRequestTable.size + t.readRequestTable.size + t.specldRequestTable.size)
    (hdisj : ∀ line ∈ t.writeRequestTable.keys, line ∉ t.readRequestTable.keys)
    (hwrite : ∀ e ∈ t.writeRequestTable.entries, e ∈ s.writeRequestTable.entries)
    (hread : ∀ e ∈ t.readRequestTable.entries, e ∈ s.readRequestTable.entries)
    (hspecld : ∀ e ∈ t.specldRequestTable.entries, e ∈ s.specldRequestTable.entries)
    (hqueue : ∀ q ∈ t.specRequestQueue, q ∈ s.specRequestQueue) : Inv c t where
  count := hcount
  disjoint := hdisj
  unique := by rw [hissued]; exact h.unique
  held p := by
    have hf : ds.filter Packet.isFinalPacket = ds := filter_eq_self.mpr hds
    have hb : t.handedBack p = s.handedBack p + (ds.map Packet.id).count p := by
      simp only [handedBack, hres, filter_append, hf, map_append, count_append]
    have hi : t.timesIssued p = s.timesIssued p := by simp only [timesIssued, hissued]
    have hp := h.held p
    have ht := hheld p
    omega
  write e he := h.write e (hwrite e he)
  read e he := h.read e (hread e he)
  specld e he := h.specld e (hspecld e he)
  queue q hq := by
    rw [hissued]
    exact h.queue q (hqueue q hq)

theorem lockLine_blocked (s : Sequencer) (type : RubyRequestType) (line : Nat) :
    ∃ b, s.lockLine type line = { s with blocked := b } := by
  unfold lockLine
  split
  · exact ⟨_, rfl⟩
  · exact ⟨_, rfl⟩
  · exact ⟨s.blocked, rfl⟩

theorem writeCallback_cases (ht : s.writeCallback c line data = some t) :
    ∃ r q b, s.writeRequestTable.lookup line = some r ∧ Kin r.pkt q ∧ t = { s with
      writeRequestTable := s.writeRequestTable.erase line
      outstandingCount := s.outstandingCount - 1
      blocked := b
      responses := s.responses ++ [q] } := by
  unfold writeCallback at ht
  split at ht
  · cases ht
  rename_i r hlook
  dsimp only at ht
  obtain ⟨b, hb⟩ := lockLine_blocked
    { s with writeRequestTable := s.writeRequestTable.erase line }.markRemoved r.type line
  rw [hb] at ht
  cases ht
  exact ⟨r, _, b, hlook, hitPacket_kin .., rfl⟩

theorem writeCallback_inv (h : Inv c s) (ht : s.writeCallback c line data = some t) : Inv c t := by
  obtain ⟨r, q, b, hlook, hq, rfl⟩ := writeCallback_cases ht
  obtain ⟨hdeps, hfin⟩ : r.dependentRequests = [] ∧ r.pkt.isFinalPacket = true :=
    h.write _ (Table.mem_of_lookup hlook)
  refine h.handBack [q] ?_ rfl rfl (fun p => ?_) ?_
    (fun k hk => h.disjoint k (Table.mem_keys_erase.mp hk).1)
    (fun e he => (Table.mem_erase.mp he).1) (fun e he => he) (fun e he => he) fun q hq => hq
  · intro d hd
    rw [mem_singleton.mp hd, hq.isFinalPacket]
    exact hfin
  · have hw : weight p r = [r.pkt.id].count p := by
      simp only [weight, hdeps, map_cons, map_nil]
    have hte := Table.total_erase (weight p) hlook
    simp only [inTables, inQueue, map_cons, map_nil, hq.id]
    omega
  · have hc := h.count
    have hsz := Table.size_erase hlook
    dsimp only
    omega

/-- The dependents are answered before the request, if there are any. -/
theorem readCallback_cases {hits : HitAt} (ht : s.readCallback c line data hits = some t)
    (hread : ∀ e ∈ s.readRequestTable.entries,
      (∀ d ∈ e.2.pkt :: e.2.dependentRequests, d.isFinalPacket) ∧
        (e.2.dependentRequests = [] ∨ c.mldom ∧ e.2.type = .LD)) :
    ∃ r ds q b, s.readRequestTable.lookup line = some r ∧
      List.Forall₂ Kin r.dependentRequests ds ∧ Kin r.pkt q ∧ t = { s with
        readRequestTable := s.readRequestTable.erase line
        outstandingCount := s.outstandingCount - 1
        specBuf := b
        responses := s.responses ++ (ds ++ [q]) } := by
  unfold readCallback at ht
  split at ht
  · cases ht
  rename_i r hlook
  dsimp only at ht
  split at ht
  · cases ht
  rename_i s2 pkt hpkt
  obtain ⟨⟨b, rfl⟩, hkin⟩ := readPacket_spec hpkt
  split at ht
  · cases ht
  rename_i ds hds
  rw [foldl_respond] at ht
  cases ht
  obtain ⟨hfin, htype⟩ : (∀ d ∈ r.pkt :: r.dependentRequests, d.isFinalPacket = true) ∧
      (r.dependentRequests = [] ∨ c.mldom = true ∧ r.type = .LD) :=
    hread _ (Table.mem_of_lookup hlook)
  have hans : List.Forall₂ Kin r.dependentRequests ds := by
    split at hds
    · exact mapM_readDependent_kin _ hds fun d hd => hfin d (mem_cons_of_mem _ hd)
    rename_i hno
    cases hds
    rcases htype with hnil | ⟨hm, hld⟩
    · rw [hnil]
      exact .nil
    · simp [hm, hld] at hno
  have hq := hitPacket_kin c r.type pkt data
  refine ⟨r, ds, hitPacket c r.type pkt data, b, hlook, hans,
    ⟨hq.id.trans hkin.id, hq.isFinalPacket.trans hkin.isFinalPacket,
      hq.confirmPkt.trans hkin.confirmPkt⟩, ?_⟩
  simp only [respond, markRemoved, append_assoc]

theorem readCallback_inv {hits : HitAt} (h : Inv c s)
    (ht : s.readCallback c line data hits = some t) : Inv c t := by
  obtain ⟨r, ds, q, b, hlook, hds, hq, rfl⟩ := readCallback_cases ht h.read
  have hfin : ∀ d ∈ r.pkt :: r.dependentRequests, d.isFinalPacket = true :=
    (h.read _ (Table.mem_of_lookup hlook)).1
  refine h.handBack (ds ++ [q]) ?_ rfl rfl (fun p => ?_) ?_
    (fun k hk hk' => h.disjoint k hk (Table.mem_keys_erase.mp hk').1)
    (fun e he => he) (fun e he => (Table.mem_erase.mp he).1) (fun e he => he) fun q hq => hq
  · intro d hd
    rcases mem_append.mp hd with hd | hd
    · obtain ⟨d0, hd0, hkin⟩ := kin_mem hds hd
      rw [hkin.isFinalPacket]
      exact hfin d0 (mem_cons_of_mem _ hd0)
    · rw [mem_singleton.mp hd, hq.isFinalPacket]
      exact hfin _ mem_cons_self
  · have hte := Table.total_erase (weight p) hlook
    have hw : weight p r = (ds.map Packet.id).count p + [r.pkt.id].count p := by
      rw [kin_map_id hds, weight, map_cons, ← count_append]
      exact (perm_append_singleton _ _).symm.count_eq p
    simp only [inTables, inQueue, map_append, map_cons, map_nil, count_append,
      hq.id]
    omega
  · have hc := h.count
    have hsz := Table.size_erase hlook
    dsimp only
    omega

theorem specBufHitCallback_inv (h : Inv c s) (ht : s.specBufHitCallback = some t) : Inv c t := by
  unfold specBufHitCallback at ht
  split at ht
  · cases ht
  rename_i pkt rest hq
  cases ht
  have hmem : ∀ q, q ∈ pkt :: rest → q ∈ s.specRequestQueue := fun q hm => hq ▸ hm
  refine h.handBack [pkt] ?_ rfl rfl (fun p => ?_) h.count h.disjoint (fun e he => he)
    (fun e he => he) (fun e he => he) fun q hm => hmem q (mem_cons_of_mem _ hm)
  · intro d hd
    rw [mem_singleton.mp hd]
    exact (h.queue pkt (hmem pkt mem_cons_self)).1
  · simp only [inTables, inQueue, respond, hq, map_cons, map_nil]
    have hc : ([pkt.id] ++ rest.map Packet.id).count p =
        [pkt.id].count p + (rest.map Packet.id).count p := count_append
    rw [singleton_append] at hc
    omega

/-- What a callback of an oblivious load can do: it is the last one and the request leaves the
table, or the request stays with what the packet and its dependents have become. -/
inductive Looked (c : SequencerConfig) (s : Sequencer) (l : Level) (line : Nat) (idx : Int)
    (hit : Bool) (data : DataBlock) : Sequencer → Prop
  | last {r : SequencerRequest} {b : Int → Bool → SBB} :
    s.specldRequestTable.lookup (line, idx) = some r → lastLookup r.type l hit = some true →
    Looked c s l line idx hit data { s with
      specBuf := b
      lookups := s.lookups ++ [⟨r.pkt.id, l, hit, data⟩]
      specldRequestTable := s.specldRequestTable.erase (line, idx)
      outstandingCount := s.outstandingCount - 1
      responses := s.responses ++ (answeredDependents c r l hit data ++
        [(hitCallbackObliv c (markHit r.pkt l hit) l hit data true).2]) }
  | more {r : SequencerRequest} {b : Int → Bool → SBB} :
    s.specldRequestTable.lookup (line, idx) = some r → lastLookup r.type l hit = some false →
    Looked c s l line idx hit data { s with
      specBuf := b
      lookups := s.lookups ++ [⟨r.pkt.id, l, hit, data⟩]
      specldRequestTable := s.specldRequestTable.modify (line, idx) fun _ =>
        ⟨(hitCallbackObliv c (markHit r.pkt l hit) l hit data false).1, r.type,
          dependentsAfter c r l hit data⟩
      responses := s.responses ++ [(hitCallbackObliv c (markHit r.pkt l hit) l hit data false).2] }

theorem readCallbackObliv_looked {l : Level} {idx : Int} {hit : Bool}
    (ht : s.readCallbackObliv c l line idx hit data = some t) :
    Looked c s l line idx hit data t := by
  unfold readCallbackObliv at ht
  split at ht
  · cases ht
  rename_i r hlook
  split at ht
  · cases ht
  rename_i last hlast
  have hbuf : ∃ b, (if c.oblSContention = true then s.updateSBB c r.pkt.reqIdx r.pkt data line hit
      else s) = { s with specBuf := b } := by
    split
    · exact updateSBB_specBuf ..
    · exact ⟨s.specBuf, rfl⟩
  obtain ⟨b, hb⟩ := hbuf
  dsimp only at ht
  rw [hb, foldl_respond] at ht
  cases last with
  | true =>
    cases ht
    have hl : Looked c s l line idx hit data _ := .last (b := b) hlook hlast
    simpa only [respond, markRemoved, append_assoc] using hl
  | false =>
    cases ht
    exact .more hlook hlast

@[simp] theorem markHit_id (pkt : Packet) (l : Level) (hit : Bool) :
    (markHit pkt l hit).id = pkt.id := by
  unfold markHit
  split
  · cases l <;> rfl
  · rfl

@[simp] theorem hitCallbackObliv_kept_id (pkt : Packet) (l : Level) (hit last : Bool) :
    (hitCallbackObliv c pkt l hit data last).1.id = pkt.id := by
  simp only [hitCallbackObliv]
  split <;> rfl

theorem dependentsAfter_nil {r : SequencerRequest} {l : Level} {hit : Bool}
    (hr : r.dependentRequests = []) : dependentsAfter c r l hit data = [] := by
  simp [dependentsAfter, hr]

theorem answeredDependents_nil {r : SequencerRequest} {l : Level} {hit : Bool}
    (hr : r.dependentRequests = []) : answeredDependents c r l hit data = [] := by
  simp [answeredDependents, dependentsAfter_nil hr]

theorem readCallbackObliv_inv {l : Level} {idx : Int} {hit : Bool} (h : Inv c s)
    (ht : s.readCallbackObliv c l line idx hit data = some t) : Inv c t := by
  cases readCallbackObliv_looked ht with
  | @last r b hlook hlast =>
    have hr : r.dependentRequests = [] := h.specld _ (Table.mem_of_lookup hlook)
    rw [answeredDependents_nil hr, nil_append]
    refine h.handBack _ ?_ rfl rfl (fun p => ?_) ?_ h.disjoint (fun e he => he) (fun e he => he)
      (fun e he => (Table.mem_erase.mp he).1) fun q hq => hq
    · intro d hd
      rw [mem_singleton.mp hd]
      rfl
    · have hte := Table.total_erase (weight p) hlook
      have hw : weight p r = [r.pkt.id].count p := by
        simp only [weight, hr, map_cons, map_nil]
      have hid : (hitCallbackObliv c (markHit r.pkt l hit) l hit data true).2.id = r.pkt.id :=
        markHit_id r.pkt l hit
      simp only [inTables, inQueue, map_cons, map_nil, hid]
      omega
    · have hc := h.count
      have hsz := Table.size_erase hlook
      dsimp only
      omega
  | @more r b hlook hlast =>
    have hr : r.dependentRequests = [] := h.specld _ (Table.mem_of_lookup hlook)
    refine { h with count := ?_, held := fun p => ?_, specld := ?_ }
    · rw [Table.size_modify]
      exact h.count
    · -- a packet that is not final does not count, and the entry holds the same packets
      have hm := Table.total_modify (f := fun _ => SequencerRequest.mk
        (hitCallbackObliv c (markHit r.pkt l hit) l hit data false).1 r.type
        (dependentsAfter c r l hit data)) (weight p) hlook
      have hw : weight p ⟨(hitCallbackObliv c (markHit r.pkt l hit) l hit data false).1, r.type,
          dependentsAfter c r l hit data⟩ = weight p r := by
        simp only [weight, map_cons, hitCallbackObliv_kept_id, markHit_id, dependentsAfter_nil hr,
          hr]
      have hb : ∀ ps : List Packet, (ps ++ [(hitCallbackObliv c (markHit r.pkt l hit) l hit data
          false).2]).filter Packet.isFinalPacket = ps.filter Packet.isFinalPacket := by
        intro ps
        rw [filter_append, filter_cons_of_neg (by simp [hitCallbackObliv]),
          filter_nil, append_nil]
      have hp := h.held p
      simp only [inTables, inQueue, handedBack, timesIssued, hb] at hp ⊢
      omega
    · intro e he
      rcases Table.mem_modify he with ⟨he, -⟩ | ⟨v, hv, rfl⟩
      · exact h.specld e he
      exact dependentsAfter_nil hr

end Callbacks

/-! ## Runs -/

theorem step_inv {t : Sequencer} {e : SequencerOp} (h : Inv c s) (ht : s.step c e = some t) :
    Inv c t := by
  unfold step at ht
  split at ht
  case isFalse => cases ht
  rename_i ha
  cases e with
  | makeRequest pkt front =>
    obtain ⟨r, hr, rfl⟩ := Option.map_eq_some_iff.mp ht
    exact makeRequest_inv h ha hr
  | writeCallback line data => exact writeCallback_inv h ht
  | readCallback line data hits => exact readCallback_inv h ht
  | oblivFromL0 line idx hit data => exact readCallbackObliv_inv h ht
  | oblivFromL1 line idx hit data => exact readCallbackObliv_inv h ht
  | oblivFromMem line idx hit data => exact readCallbackObliv_inv h ht
  | specBufHitCallback => exact specBufHitCallback_inv h ht

theorem inv_of_reach (h : (sequencerMachine c).Reach s) : Inv c s :=
  Machine.ReachWhen.invariant (I := Inv c) (fun s hs => by cases hs; exact empty_inv c)
    (fun _ _ _ hi _ hs => step_inv hi hs) h

end Sequencer

open Sequencer

def sdoSequencer : SequencerConfig where
  mldom := true
  oblSContention := false
  maxOutstandingRequests := 16
  blockSizeBits := 6

/-- A packet as the CPU makes it. -/
def newPacket (id : Nat) (cmd : MemCmd) (addr : Nat) (reqIdx : Int) : Packet where
  id := id
  cmd := cmd
  addr := addr
  size := 4
  isLockedRMW := false
  isInstFetch := false
  storeCheck := false
  reqIdx := reqIdx
  srcIdx := -1
  isFirst := true
  isSplit := false
  onlyAccessSpecBuf := false
  aliasedReqIdx := -1
  isSBHit := false
  isL0Hit := false
  isL1Hit := false
  isMemHit := false
  fromLevel := none
  isFinalPacket := true
  copyData := false
  carryData := false
  confirmPkt := none
  data := [0, 0, 0, 0]

end SdoCore.Ruby
