import SdoCore.Ruby.Conservation

/-! What the CPU gets for an oblivious load. The callbacks come in the order of the levels; each
sends one packet for the request, a copy until the last one. The hit flags grow, the data come
once, with the first level that hits, and the last packet has the whole result. -/

namespace SdoCore.Ruby

open Lib
open List
open Table (mem_erase mem_insert mem_modify)

namespace Sequencer

/-- The callbacks for the packet `p` so far. -/
def lookupsOf (s : Sequencer) (p : Nat) : List Lookup := s.lookups.filter fun k => decide (k.id = p)

/-- The packets sent for the request of the packet `p` so far. -/
def sentFor (s : Sequencer) (p : Nat) : List Packet :=
  s.responses.filter fun q => decide (q.confirmPkt = some p)

def hitIn (ls : List Lookup) (l : Level) : Bool := ls.any fun k => k.level == l && k.hit

def anyHit (ls : List Lookup) : Bool := ls.any Lookup.hit

def nextLookup (s : Sequencer) (l : Level) (line : Nat) (idx : Int) : Bool :=
  match s.specldRequestTable.lookup (line, idx) with
  | some r => decide ((s.lookupsOf r.pkt.id).length = l.toNat)
  | none => true

/-- The callbacks of a request come in the order L0, L1, memory. -/
def inOrder (s : Sequencer) : SequencerOp → Bool
  | .oblivFromL0 line idx _ _ => s.nextLookup .L0 line idx
  | .oblivFromL1 line idx _ _ => s.nextLookup .L1 line idx
  | .oblivFromMem line idx _ _ => s.nextLookup .Mem line idx
  | _ => true

/-! ## One request -/

/-- What is in the packet after the callbacks `ls`: the data of the first level that hit. -/
def dataAfter (c : SequencerConfig) (pkt : Packet) (ls : List Lookup) : List UInt8 :=
  match ls.find? Lookup.hit with
  | some k => pkt.bytes c k.data
  | none => pkt.data

/-- The original packet after the callbacks `ls`. -/
def after (c : SequencerConfig) (pkt : Packet) (ls : List Lookup) : Packet :=
  { pkt with
    isL0Hit := hitIn ls .L0
    isL1Hit := hitIn ls .L1
    isMemHit := hitIn ls .Mem
    copyData := anyHit ls
    data := dataAfter c pkt ls }

/-- The packet sent by callback number `i`. -/
structure Reply (c : SequencerConfig) (pkt : Packet) (ls : List Lookup) (i : Nat) (q : Packet) :
    Prop where
  l0 : q.isL0Hit = hitIn (ls.take (i + 1)) .L0
  l1 : q.isL1Hit = hitIn (ls.take (i + 1)) .L1
  mem : q.isMemHit = hitIn (ls.take (i + 1)) .Mem
  carry : q.carryData = true → ∃ k, ls[i]? = some k ∧ k.hit = true ∧
    anyHit (ls.take i) = false ∧ q.data = pkt.bytes c k.data

/-- The packets sent for the callbacks `ls`, one for each. -/
structure Replies (c : SequencerConfig) (pkt : Packet) (ls : List Lookup) (ps : List Packet) :
    Prop where
  levels : ls.map Lookup.level = [Level.L0, .L1, .Mem].take ls.length
  length : ps.length = ls.length
  reply : ∀ i q, ps[i]? = some q → Reply c pkt ls i q
  carried : (ps.filter Packet.carryData).length = if anyHit ls then 1 else 0

/-- A request that waits for more callbacks. -/
structure Waiting (c : SequencerConfig) (pkt : Packet) (ls : List Lookup) (kept : Packet)
    (ps : List Packet) : Prop extends Replies c pkt ls ps where
  kept : kept = after c pkt ls
  copies : ∀ q ∈ ps, q.isFinalPacket = false

/-- A request that got its last callback. -/
structure Delivered (c : SequencerConfig) (pkt : Packet) (ls : List Lookup) (ps : List Packet) :
    Prop extends Replies c pkt ls ps where
  final : ∀ i q, ps[i]? = some q → (q.isFinalPacket = true ↔ i + 1 = ps.length)

section Request

variable {c : SequencerConfig} {pkt kept : Packet} {ls : List Lookup} {ps : List Packet}

theorem hitIn_append (ls : List Lookup) (k : Lookup) (l : Level) :
    hitIn (ls ++ [k]) l = (hitIn ls l || (k.level == l && k.hit)) := by
  simp [hitIn]

theorem anyHit_append (ls : List Lookup) (k : Lookup) :
    anyHit (ls ++ [k]) = (anyHit ls || k.hit) := by
  simp [anyHit]

theorem dataAfter_append (c : SequencerConfig) (pkt : Packet) (ls : List Lookup) (k : Lookup) :
    dataAfter c pkt (ls ++ [k]) =
      if k.hit && !anyHit ls then pkt.bytes c k.data else dataAfter c pkt ls := by
  unfold dataAfter anyHit
  rw [find?_append]
  cases hf : ls.find? Lookup.hit with
  | some k' =>
    have hany : ls.any Lookup.hit = true :=
      any_eq_true.mpr ⟨k', mem_of_find?_eq_some hf, find?_some hf⟩
    simp [hany]
  | none =>
    have hany : ls.any Lookup.hit = false := by
      simpa [find?_eq_none] using hf
    cases hk : k.hit <;> simp [hany, hk]

theorem after_nil (hf : pkt.fresh) : after c pkt [] = pkt := by
  simp only [Packet.fresh, Bool.and_eq_true, Bool.not_eq_true'] at hf
  obtain ⟨⟨⟨⟨⟨⟨⟨⟨-, h0⟩, h1⟩, hm⟩, -⟩, -⟩, hc⟩, -⟩, -⟩ := hf
  cases pkt
  simp_all [after, hitIn, anyHit, dataAfter]

theorem hitCallbackObliv_kept (k : Lookup) (last : Bool) :
    (hitCallbackObliv c (markHit (after c pkt ls) k.level k.hit) k.level k.hit k.data last).1 =
      after c pkt (ls ++ [k]) := by
  obtain ⟨id, level, hit, data⟩ := k
  have hd := dataAfter_append c pkt ls ⟨id, level, hit, data⟩
  cases hit <;> cases hany : anyHit ls <;> cases level <;>
    simp [hitCallbackObliv, markHit, after, hitIn_append, anyHit_append, hd, hany,
      Packet.markSDOHitLevel, Packet.read, Packet.bytes]

/-- The packet sent by one more callback: it has the flags of the original one, and the data
if this is the first hit. -/
theorem hitCallbackObliv_sent (hf : pkt.fresh) (k : Lookup) (last : Bool) (q : Packet)
    (hq : q = (hitCallbackObliv c (markHit (after c pkt ls) k.level k.hit) k.level k.hit k.data
      last).2) :
    (∀ l, (match l with | .L0 => q.isL0Hit | .L1 => q.isL1Hit | .Mem => q.isMemHit) =
      hitIn (ls ++ [k]) l) ∧
    q.carryData = (k.hit && !anyHit ls) ∧ q.data = dataAfter c pkt (ls ++ [k]) ∧
    q.isFinalPacket = last ∧ q.confirmPkt = some pkt.id := by
  have hcarry : pkt.carryData = false := by
    simp only [Packet.fresh, Bool.and_eq_true, Bool.not_eq_true'] at hf
    exact hf.1.2
  have hkept : (hitCallbackObliv c (markHit (after c pkt ls) k.level k.hit) k.level k.hit k.data
      last).1.data = dataAfter c pkt (ls ++ [k]) :=
        congrArg Packet.data (hitCallbackObliv_kept k last)
  subst hq
  obtain ⟨id, level, hit, data⟩ := k
  refine ⟨fun l => ?_, ?_, hkept, rfl, ?_⟩
  · rw [hitIn_append]
    cases hit <;> cases level <;> cases l <;>
      simp [hitCallbackObliv, markHit, after, Packet.markSDOHitLevel]
  · cases hit <;> cases level <;>
      simp [hitCallbackObliv, markHit, after, Packet.markSDOHitLevel, hcarry]
  · simp only [hitCallbackObliv, markHit_id]
    rfl

theorem levels_append {k : Lookup} (h : ls.map Lookup.level = [Level.L0, .L1, .Mem].take ls.length)
    (hk : ls.length = k.level.toNat) :
    (ls ++ [k]).map Lookup.level = [Level.L0, .L1, .Mem].take (ls ++ [k]).length := by
  rw [map_append, h, length_append, length_singleton, hk, map_cons,
    map_nil]
  cases k.level <;> rfl

section
variable (h : Waiting c pkt ls kept ps) (hf : pkt.fresh)
include h hf

theorem Waiting.append {k : Lookup} (hk : ls.length = k.level.toNat) (last : Bool) :
    Replies c pkt (ls ++ [k]) (ps ++
      [(hitCallbackObliv c (markHit kept k.level k.hit) k.level k.hit k.data last).2]) := by
  rw [h.kept]
  generalize hq : (hitCallbackObliv c (markHit (after c pkt ls) k.level k.hit) k.level k.hit k.data
    last).2 = q
  obtain ⟨hflags, hcarry, hdata, -, -⟩ := hitCallbackObliv_sent hf k last q hq.symm
  refine ⟨levels_append h.levels hk, ?_, fun i q' hi => ?_, ?_⟩
  · rw [length_append, length_append, h.length, length_singleton,
      length_singleton]
  · by_cases hlt : i < ps.length
    · -- the earlier packets
      rw [getElem?_append_left hlt] at hi
      obtain ⟨h0, h1, hm, hc⟩ := h.reply i q' hi
      rw [h.length] at hlt
      have htake : (ls ++ [k]).take (i + 1) = ls.take (i + 1) :=
        take_append_of_le_length hlt
      have htake' : (ls ++ [k]).take i = ls.take i :=
        take_append_of_le_length (Nat.le_of_lt hlt)
      refine ⟨by rw [htake]; exact h0, by rw [htake]; exact h1, by rw [htake]; exact hm, ?_⟩
      rw [htake', getElem?_append_left hlt]
      exact hc
    · -- the packet of this callback
      have hlen : i = ls.length := by
        have hb := (List.getElem?_eq_some_iff.mp hi).1
        rw [length_append, length_singleton] at hb
        have hl := h.length
        omega
      subst hlen
      rw [getElem?_append_right (by omega), h.length, Nat.sub_self] at hi
      cases hi
      have hall : (ls ++ [k]).take (ls.length + 1) = ls ++ [k] := by
        rw [take_of_length_le]
        simp
      refine ⟨by rw [hall]; exact hflags .L0, by rw [hall]; exact hflags .L1,
        by rw [hall]; exact hflags .Mem, fun hc => ?_⟩
      rw [hcarry, Bool.and_eq_true, Bool.not_eq_true'] at hc
      refine ⟨k, by simp, hc.1, by simpa using hc.2, ?_⟩
      rw [hdata, dataAfter_append, hc.1, hc.2]
      rfl
  · rw [filter_append, length_append, h.carried, anyHit_append]
    cases hhit : k.hit <;> cases hany : anyHit ls <;> simp [hcarry, hhit, hany]

/-- Not the last callback: the request goes on waiting. -/
theorem Waiting.more {k : Lookup} (hk : ls.length = k.level.toNat) : Waiting c pkt (ls ++ [k])
      (hitCallbackObliv c (markHit kept k.level k.hit) k.level k.hit k.data false).1
      (ps ++ [(hitCallbackObliv c (markHit kept k.level k.hit) k.level k.hit k.data false).2]) where
  toReplies := h.append hf hk false
  kept := by
    rw [h.kept]
    exact hitCallbackObliv_kept k false
  copies q hq := by
    rcases mem_append.mp hq with hq | hq
    · exact h.copies q hq
    · rw [mem_singleton.mp hq]
      rfl

theorem Waiting.last {k : Lookup} (hk : ls.length = k.level.toNat) : Delivered c pkt (ls ++ [k])
      (ps ++ [(hitCallbackObliv c (markHit kept k.level k.hit) k.level k.hit k.data true).2]) where
  toReplies := h.append hf hk true
  final i q hi := by
    rw [length_append, length_singleton]
    by_cases hlt : i < ps.length
    · rw [getElem?_append_left hlt] at hi
      rw [h.copies q (mem_of_getElem? hi)]
      constructor
      · intro hfalse
        cases hfalse
      · omega
    · have hb := (List.getElem?_eq_some_iff.mp hi).1
      rw [length_append, length_singleton] at hb
      have hlen : i = ps.length := by omega
      subst hlen
      rw [getElem?_append_right (Nat.le_refl _), Nat.sub_self] at hi
      cases hi
      exact ⟨fun _ => rfl, fun _ => rfl⟩

end

theorem waiting_nil (hf : pkt.fresh) : Waiting c pkt [] pkt [] where
  levels := rfl
  length := rfl
  reply i q hi := by simp at hi
  carried := rfl
  kept := (after_nil hf).symm
  copies q hq := absurd hq not_mem_nil

end Request

/-! ## All requests -/

/-- `waiting` and `done` are the two stages of an oblivious load, with its callbacks and the
packets sent for it so far. The other clauses keep the requests apart. -/
structure Track (c : SequencerConfig) (s : Sequencer) : Prop where
  unique : (s.issued.map Packet.id).Nodup
  fresh : ∀ p ∈ s.issued, p.fresh = true
  lookups : ∀ k ∈ s.lookups, k.id ∈ s.issued.map Packet.id
  sent : ∀ q ∈ s.responses, ∀ p, q.confirmPkt = some p → p ∈ s.issued.map Packet.id
  write : ∀ e ∈ s.writeRequestTable.entries, e.2.pkt.confirmPkt = none
  read : ∀ e ∈ s.readRequestTable.entries,
    (∀ d ∈ e.2.pkt :: e.2.dependentRequests, d.isFinalPacket = true ∧ d.confirmPkt = none) ∧
      (e.2.dependentRequests = [] ∨ c.mldom = true ∧ e.2.type = .LD)
  deps : ∀ e ∈ s.specldRequestTable.entries, e.2.dependentRequests = []
  queue : ∀ q ∈ s.specRequestQueue, q.confirmPkt = none
  apart : ∀ e ∈ s.specldRequestTable.entries, ∀ e' ∈ s.specldRequestTable.entries,
    e.2.pkt.id = e'.2.pkt.id → e.1 = e'.1
  waiting : ∀ e ∈ s.specldRequestTable.entries, ∃ pkt ∈ s.issued, pkt.id = e.2.pkt.id ∧
    Waiting c pkt (s.lookupsOf pkt.id) e.2.pkt (s.sentFor pkt.id)
  done : ∀ pkt ∈ s.issued, (∀ e ∈ s.specldRequestTable.entries, e.2.pkt.id ≠ pkt.id) →
    s.lookupsOf pkt.id ≠ [] → Delivered c pkt (s.lookupsOf pkt.id) (s.sentFor pkt.id)

theorem empty_track (c : SequencerConfig) : Track c empty := by
  refine ⟨.nil, ?_, ?_, ?_, ?_, ?_, ?_, ?_, ?_, ?_, ?_⟩
  all_goals
    intro x hx
    simp [empty, Table.empty] at hx

section Steps

variable {c : SequencerConfig} {s t : Sequencer} {pkt : Packet}

variable {ds : List Packet} {e : (Nat × Int) × SequencerRequest} {line : Nat} {data : DataBlock}
  {r : SequencerRequest} {l : Level} {idx : Int} {hit : Bool}

/-- Packets that were not sent for an oblivious load. -/
theorem filter_confirmPkt_none (h : ∀ d ∈ ds, d.confirmPkt = none) (p : Nat) :
    ds.filter (fun q => decide (q.confirmPkt = some p)) = [] := by
  rw [filter_eq_nil_iff]
  intro d hd
  rw [h d hd]
  simp

theorem sentFor_append (hres : t.responses = s.responses ++ ds) (h : ∀ d ∈ ds, d.confirmPkt = none)
    (p : Nat) : t.sentFor p = s.sentFor p := by
  rw [sentFor, hres, filter_append, filter_confirmPkt_none h, append_nil, sentFor]

/-- Callbacks that concern no oblivious load. -/
theorem Track.answer (h : Track c s) (ds : List Packet) (hds : ∀ d ∈ ds, d.confirmPkt = none)
    (hres : t.responses = s.responses ++ ds) (hi : t.issued = s.issued)
    (hl : t.lookups = s.lookups) (hsp : t.specldRequestTable = s.specldRequestTable)
    (hwrite : ∀ e ∈ t.writeRequestTable.entries, e ∈ s.writeRequestTable.entries)
    (hread : ∀ e ∈ t.readRequestTable.entries, e ∈ s.readRequestTable.entries)
    (hqueue : ∀ q ∈ t.specRequestQueue, q ∈ s.specRequestQueue) : Track c t where
  unique := by rw [hi]; exact h.unique
  fresh := by rw [hi]; exact h.fresh
  lookups := by rw [hi, hl]; exact h.lookups
  sent q hq p hp := by
    rw [hi]
    rw [hres] at hq
    rcases mem_append.mp hq with hq | hq
    · exact h.sent q hq p hp
    · rw [hds q hq] at hp
      cases hp
  write e he := h.write e (hwrite e he)
  read e he := h.read e (hread e he)
  deps := by rw [hsp]; exact h.deps
  queue q hq := h.queue q (hqueue q hq)
  apart := by rw [hsp]; exact h.apart
  waiting e he := by
    rw [hsp] at he
    obtain ⟨pkt, hp, hid, hw⟩ := h.waiting e he
    refine ⟨pkt, by rw [hi]; exact hp, hid, ?_⟩
    rw [sentFor_append hres hds, lookupsOf, hl]
    exact hw
  done pkt hp hno hne := by
    rw [hi] at hp
    rw [hsp] at hno
    rw [lookupsOf, hl] at hne ⊢
    rw [sentFor_append hres hds]
    exact h.done pkt hp hno hne

/-- What a request may do to the table of oblivious loads. -/
inductive SpecldStep (s : Sequencer) (pkt : Packet) : Table (Nat × Int) SequencerRequest → Prop
  | same : SpecldStep s pkt s.specldRequestTable
  | insert {key : Nat × Int} {type : RubyRequestType} (h : key ∉ s.specldRequestTable.keys) :
    SpecldStep s pkt (s.specldRequestTable.insert key ⟨pkt, type, []⟩ h)

/-- An entry afterwards is one of before or the packet's own. -/
theorem SpecldStep.entry {tbl : Table (Nat × Int) SequencerRequest} (h : SpecldStep s pkt tbl)
    (he : e ∈ tbl.entries) :
    e ∈ s.specldRequestTable.entries ∨ (e.2.pkt = pkt ∧ e.2.dependentRequests = [] ∧
      ∀ e' ∈ tbl.entries, e' ∈ s.specldRequestTable.entries ∨ e'.1 = e.1) := by
  cases h with
  | same => exact .inl he
  | @insert key type hk =>
    rcases (mem_insert hk).mp he with he | rfl
    · exact .inl he
    refine .inr ⟨rfl, rfl, fun e' he' => ?_⟩
    rcases (mem_insert hk).mp he' with he' | rfl
    · exact .inl he'
    · exact .inr rfl

theorem SpecldStep.keeps {tbl : Table (Nat × Int) SequencerRequest} (h : SpecldStep s pkt tbl)
    (he : e ∈ s.specldRequestTable.entries) : e ∈ tbl.entries := by
  cases h with
  | same => exact he
  | insert hk => exact (mem_insert hk).mpr (.inl he)

section
variable (h : Track c s)
include h

section
variable (hnew : pkt.id ∉ s.issued.map Packet.id)
include hnew

theorem Track.lookupsOf_new : s.lookupsOf pkt.id = [] := by
  rw [lookupsOf, filter_eq_nil_iff]
  intro k hk hid
  exact hnew (of_decide_eq_true hid ▸ h.lookups k hk)

theorem Track.sentFor_new : s.sentFor pkt.id = [] := by
  rw [sentFor, filter_eq_nil_iff]
  intro q hq hid
  exact hnew (h.sent q hq _ (of_decide_eq_true hid))

theorem Track.issue (hf : pkt.fresh)
    (hsp : SpecldStep s pkt t.specldRequestTable) (hwrite : ∀ e ∈ t.writeRequestTable.entries,
      e ∈ s.writeRequestTable.entries ∨ e.2.pkt = pkt)
    (hread : ∀ e ∈ t.readRequestTable.entries,
      (∀ d ∈ e.2.pkt :: e.2.dependentRequests, d.isFinalPacket ∧ d.confirmPkt = none) ∧
        (e.2.dependentRequests = [] ∨ c.mldom ∧ e.2.type = .LD))
    (hqueue : ∀ q ∈ t.specRequestQueue, q ∈ s.specRequestQueue ∨ q.confirmPkt = none)
    (hi : t.issued = s.issued) (hl : t.lookups = s.lookups) (hres : t.responses = s.responses) :
    Track c { t with issued := t.issued ++ [pkt] } := by
  have hids : ∀ p, p ∈ s.issued.map Packet.id → p ∈ (t.issued ++ [pkt]).map Packet.id := by
    intro p hp
    rw [hi, map_append]
    exact mem_append_left _ hp
  have hlook : ∀ p, lookupsOf { t with issued := t.issued ++ [pkt] } p = s.lookupsOf p := by
    intro p
    simp only [lookupsOf, hl]
  have hsent : ∀ p, sentFor { t with issued := t.issued ++ [pkt] } p = s.sentFor p := by
    intro p
    simp only [sentFor, hres]
  have hknown : ∀ e ∈ s.specldRequestTable.entries, e.2.pkt.id ≠ pkt.id := by
    intro e he heq
    obtain ⟨p, hp, hid, -⟩ := h.waiting e he
    exact hnew (heq ▸ hid ▸ mem_map_of_mem hp)
  refine ⟨?_, ?_, ?_, ?_, ?_, hread, ?_, ?_, ?_, ?_, ?_⟩
  · show ((t.issued ++ [pkt]).map Packet.id).Nodup
    rw [hi, map_append, nodup_append']
    refine ⟨h.unique, nodup_singleton _, ?_⟩
    rw [disjoint_right]
    intro a ha
    rw [mem_singleton.mp ha]
    exact hnew
  · intro p hp
    rw [show ({ t with issued := t.issued ++ [pkt] } : Sequencer).issued = s.issued ++ [pkt] by
      rw [← hi]] at hp
    rcases mem_append.mp hp with hp | hp
    · exact h.fresh p hp
    · rw [mem_singleton.mp hp]
      exact hf
  · intro k hk
    exact hids _ (h.lookups k (hl ▸ hk))
  · intro q hq p hp
    exact hids _ (h.sent q (hres ▸ hq) p hp)
  · intro e he
    rcases hwrite e he with he | he
    · exact h.write e he
    · rw [he]
      exact (fresh_spec hf).2.2
  · intro e he
    exact (hsp.entry he).elim (h.deps e) fun hnew => hnew.2.1
  · intro q hq
    exact (hqueue q hq).elim (h.queue q) id
  · intro e he e' he' hid
    rcases hsp.entry he with he | ⟨hpkt, -, huniq⟩
    · rcases hsp.entry he' with he' | ⟨hpkt', -, -⟩
      · exact h.apart e he e' he' hid
      · exact absurd (by rw [hid, hpkt']) (hknown e he)
    · rcases huniq e' he' with he' | heq
      · exact absurd (by rw [← hid, hpkt]) (hknown e' he')
      · exact heq.symm
  · intro e he
    rcases hsp.entry he with he | ⟨hpkt, -, -⟩
    · obtain ⟨p, hp, hid, hw⟩ := h.waiting e he
      refine ⟨p, ?_, hid, ?_⟩
      · show p ∈ t.issued ++ [pkt]
        rw [hi]
        exact mem_append_left _ hp
      · rw [hlook, hsent]
        exact hw
    · refine ⟨pkt, mem_append_right _ (mem_singleton_self _), by rw [hpkt], ?_⟩
      rw [hlook, hsent, hpkt, h.lookupsOf_new hnew, h.sentFor_new hnew]
      exact waiting_nil hf
  · intro p hp hno hne
    rw [hlook] at hne ⊢
    rw [hsent]
    have hp : p ∈ s.issued ++ [pkt] := by rw [← hi]; exact hp
    rcases mem_append.mp hp with hp | hp
    · exact h.done p hp (fun e he => hno e (hsp.keeps he)) hne
    · rw [mem_singleton.mp hp, h.lookupsOf_new hnew] at hne
      exact absurd rfl hne

end

/-- The tracking does not read the speculation buffer, the queue to the controller, the locked
lines and the count. -/
theorem Track.frame (hw : t.writeRequestTable = s.writeRequestTable)
    (hr : t.readRequestTable = s.readRequestTable)
    (hsp : t.specldRequestTable = s.specldRequestTable)
    (hq : t.specRequestQueue = s.specRequestQueue) (hi : t.issued = s.issued)
    (hl : t.lookups = s.lookups) (hres : t.responses = s.responses) : Track c t :=
  h.answer [] (fun _ hd => absurd hd not_mem_nil) (by rw [hres, append_nil]) hi hl hsp
    (fun _ he => hw ▸ he) (fun _ he => hr ▸ he) fun _ hm => hq ▸ hm

theorem inserted_track {type : RubyRequestType} {st : RequestStatus}
    (hnew : pkt.id ∉ s.issued.map Packet.id) (hf : pkt.fresh)
    (hins : Inserted c s pkt type t st) (hst : st ≠ .Aliased) :
    Track c { t with issued := t.issued ++ [pkt] } := by
  obtain ⟨-, hfin, hconf⟩ := fresh_spec hf
  have hsame : ∀ q ∈ s.specRequestQueue, q ∈ s.specRequestQueue ∨ q.confirmPkt = none :=
    fun q hq => .inl hq
  cases hins with
  | refused => exact absurd rfl hst
  | @write line hw hr =>
    refine h.issue hnew hf .same (fun e he => ?_) h.read hsame rfl rfl rfl
    rcases (mem_insert hw).mp he with he | rfl
    · exact .inl he
    · exact .inr rfl
  | @read line hr hw =>
    refine h.issue hnew hf .same (fun e he => .inl he) (fun e he => ?_) hsame rfl rfl rfl
    rcases (mem_insert hr).mp he with he | rfl
    · exact h.read e he
    · exact ⟨by simpa using ⟨hfin, hconf⟩, .inl rfl⟩
  | specld hk => exact h.issue hnew hf (.insert hk) (fun e he => .inl he) h.read hsame rfl rfl rfl
  | @mergedRead line r hlook hld hm =>
    refine h.issue hnew hf .same (fun e he => .inl he) (fun e he => ?_) hsame rfl rfl rfl
    rcases mem_modify he with ⟨he, -⟩ | ⟨v, hv, rfl⟩
    · exact h.read e he
    obtain rfl : v = r := Option.some.inj ((Table.lookup_of_mem hv).symm.trans hlook)
    exact ⟨forall_addDependent (h.read _ hv).1 ⟨hfin, hconf⟩, .inr ⟨hm, hld⟩⟩

theorem made_track {st : RequestStatus}
    (hnew : pkt.id ∉ s.issued.map Packet.id) (hf : pkt.fresh) (hm : Made c s pkt t st) :
    Track c (logIssued pkt (t, st)) := by
  cases hm with
  | refused hst =>
    rw [logIssued_of_ne hst]
    exact h.frame rfl rfl rfl rfl rfl rfl rfl
  | @queued b q _ _ hq _ =>
    refine h.issue (t := { s with specBuf := b, specRequestQueue := s.specRequestQueue ++ [q] })
      hnew hf .same (fun e he => .inl he) h.read (fun d hd => ?_) rfl rfl rfl
    rcases mem_append.mp hd with hd | hd
    · exact .inl hd
    · rw [mem_singleton.mp hd]
      exact .inr (hq.trans (fresh_spec hf).2.2)
  | @entered b type sec s1 st1 _ q _ hins hst =>
    have hb : Track c { s with specBuf := b } := h.frame rfl rfl rfl rfl rfl rfl rfl
    by_cases hal : st1 = .Aliased
    · rw [logIssued_of_ne fun hi => hst.mp hi hal]
      subst hal
      cases hins with
      | refused => exact hb.frame rfl rfl rfl rfl rfl rfl rfl
    · obtain rfl : st = .Issued := hst.mpr hal
      have hi : Track c { s1 with issued := s1.issued ++ [pkt] } :=
        inserted_track hb hnew hf hins hal
      exact hi.frame rfl rfl rfl rfl rfl rfl rfl

theorem writeCallback_track (ht : s.writeCallback c line data = some t) : Track c t := by
  obtain ⟨r, q, b, hlook, hq, rfl⟩ := writeCallback_cases ht
  refine h.answer [q] (fun d hd => ?_) rfl rfl rfl rfl (fun e he => (mem_erase.mp he).1)
    (fun e he => he) fun q hq => hq
  rw [mem_singleton.mp hd, hq.confirmPkt]
  exact h.write _ (Table.mem_of_lookup hlook)

theorem readCallback_track {hits : HitAt}
    (ht : s.readCallback c line data hits = some t) : Track c t := by
  obtain ⟨r, ds, q, b, hlook, hds, hq, rfl⟩ := readCallback_cases ht
    fun e he => ⟨fun d hd => ((h.read e he).1 d hd).1, (h.read e he).2⟩
  have hconf : ∀ d ∈ r.pkt :: r.dependentRequests, d.confirmPkt = none :=
    fun d hd => ((h.read _ (Table.mem_of_lookup hlook)).1 d hd).2
  refine h.answer (ds ++ [q]) (fun d hd => ?_) rfl rfl rfl rfl (fun e he => he)
    (fun e he => (mem_erase.mp he).1) fun q hq => hq
  rcases mem_append.mp hd with hd | hd
  · obtain ⟨d0, hd0, hkin⟩ := kin_mem hds hd
    rw [hkin.confirmPkt]
    exact hconf d0 (mem_cons_of_mem _ hd0)
  · rw [mem_singleton.mp hd, hq.confirmPkt]
    exact hconf _ mem_cons_self

theorem specBufHitCallback_track (ht : s.specBufHitCallback = some t) : Track c t := by
  unfold specBufHitCallback at ht
  split at ht
  · cases ht
  rename_i pkt rest hq
  cases ht
  have hmem : ∀ q, q ∈ pkt :: rest → q ∈ s.specRequestQueue := fun q hm => hq ▸ hm
  refine h.answer [pkt] (fun d hd => ?_) rfl rfl rfl rfl (fun e he => he) (fun e he => he)
    fun q hm => hmem q (mem_cons_of_mem _ hm)
  rw [mem_singleton.mp hd]
  exact h.queue pkt (hmem pkt mem_cons_self)

end

theorem lookupsOf_append {k : Lookup} (hl : t.lookups = s.lookups ++ [k]) (p : Nat) :
    t.lookupsOf p = s.lookupsOf p ++ if k.id = p then [k] else [] := by
  rw [lookupsOf, hl, filter_append, ← lookupsOf]
  by_cases hp : k.id = p <;> simp [hp]

theorem sentFor_append_one (ds : List Packet) {q : Packet} {id : Nat}
    (hres : t.responses = s.responses ++ (ds ++ [q])) (hds : ∀ d ∈ ds, d.confirmPkt = none)
    (hq : q.confirmPkt = some id) (p : Nat) :
    t.sentFor p = s.sentFor p ++ if id = p then [q] else [] := by
  rw [sentFor, hres, filter_append, filter_append, filter_confirmPkt_none hds,
    nil_append, ← sentFor]
  by_cases hp : id = p <;> simp [hp, hq]

theorem sent_append {q : Packet} {id : Nat} (h : Track c s) (hid : id ∈ s.issued.map Packet.id)
    (hds : ∀ d ∈ ds, d.confirmPkt = none) (hq : q.confirmPkt = some id) :
    ∀ q' ∈ s.responses ++ (ds ++ [q]), ∀ p, q'.confirmPkt = some p →
      p ∈ s.issued.map Packet.id := by
  intro q' hq' p hp
  rcases mem_append.mp hq' with hq' | hq'
  · exact h.sent q' hq' p hp
  rcases mem_append.mp hq' with hq' | hq'
  · rw [hds q' hq'] at hp
    cases hp
  rw [mem_singleton.mp hq', hq] at hp
  cases hp
  exact hid

theorem lookups_append {k : Lookup} (h : Track c s) (hid : k.id ∈ s.issued.map Packet.id) :
    ∀ k' ∈ s.lookups ++ [k], k'.id ∈ s.issued.map Packet.id := by
  intro k' hk'
  rcases mem_append.mp hk' with hk' | hk'
  · exact h.lookups k' hk'
  · rw [mem_singleton.mp hk']
    exact hid

/-- The request that a callback is for, with its packet as it was issued. -/
theorem Track.current (h : Track c s) (hord : s.nextLookup l line idx)
    (hlook : s.specldRequestTable.lookup (line, idx) = some r) :
    ∃ pkt ∈ s.issued, pkt.id = r.pkt.id ∧ (s.lookupsOf pkt.id).length = l.toNat ∧
      Waiting c pkt (s.lookupsOf pkt.id) r.pkt (s.sentFor pkt.id) := by
  obtain ⟨pkt, hpkt, hid, hw⟩ := h.waiting _ (Table.mem_of_lookup hlook)
  refine ⟨pkt, hpkt, hid, ?_, hw⟩
  rw [hid]
  simpa [nextLookup, hlook] using hord

theorem eq_of_lookup {key : Nat × Int} (he : e ∈ s.specldRequestTable.entries) (hkey : e.1 = key)
    (hlook : s.specldRequestTable.lookup key = some r) : e.2 = r := by
  refine Option.some.inj ?_
  rw [← Table.lookup_of_mem (k := e.1) he, hkey, hlook]

section
variable (h : Track c s) (hord : s.nextLookup l line idx)
  (hlook : s.specldRequestTable.lookup (line, idx) = some r)
include h hord hlook

/-- The last callback of one request: the other requests see none of it. -/
theorem last_track {b : Int → Bool → SBB} : Track c { s with
      specBuf := b
      lookups := s.lookups ++ [⟨r.pkt.id, l, hit, data⟩]
      specldRequestTable := s.specldRequestTable.erase (line, idx)
      outstandingCount := s.outstandingCount - 1
      responses := s.responses ++ (answeredDependents c r l hit data ++
        [(hitCallbackObliv c (markHit r.pkt l hit) l hit data true).2]) } := by
  have hmem := Table.mem_of_lookup hlook
  obtain ⟨pkt, hpkt, hid, hlen, hw⟩ := h.current hord hlook
  have hissued : r.pkt.id ∈ s.issued.map Packet.id := hid ▸ mem_map_of_mem hpkt
  have hds : ∀ d ∈ ([] : List Packet), d.confirmPkt = none :=
    fun _ hd => absurd hd not_mem_nil
  rw [answeredDependents_nil (h.deps _ hmem)]
  have hq : (hitCallbackObliv c (markHit r.pkt l hit) l hit data true).2.confirmPkt =
      some r.pkt.id := congrArg some (markHit_id r.pkt l hit)
  refine ⟨h.unique, h.fresh, lookups_append h hissued, sent_append h hissued hds hq, h.write,
    h.read, ?_, h.queue, ?_, ?_, ?_⟩
  · intro e he
    exact h.deps e (mem_erase.mp he).1
  · intro e he e' he'
    exact h.apart e (mem_erase.mp he).1 e' (mem_erase.mp he').1
  · intro e he
    obtain ⟨he, hne⟩ := mem_erase.mp he
    have hother : r.pkt.id ≠ e.2.pkt.id := fun heq => hne (h.apart e he _ hmem heq.symm)
    obtain ⟨p, hp, hpid, hwp⟩ := h.waiting e he
    refine ⟨p, hp, hpid, ?_⟩
    rw [← hpid] at hother
    rw [lookupsOf_append rfl, sentFor_append_one [] rfl hds hq]
    simp only [if_neg hother, append_nil]
    exact hwp
  · intro p hp hno hne
    rw [lookupsOf_append rfl] at hne ⊢
    rw [sentFor_append_one [] rfl hds hq]
    by_cases heq : r.pkt.id = p.id
    · obtain rfl : p = pkt := inj_on_of_nodup_map h.unique hp hpkt (heq.symm.trans hid.symm)
      simp only [if_pos heq]
      exact hw.last (h.fresh _ hp) (k := ⟨r.pkt.id, l, hit, data⟩) hlen
    · simp only [if_neg heq, append_nil] at hne ⊢
      refine h.done p hp (fun e he hep => ?_) hne
      by_cases hkey : e.1 = (line, idx)
      · exact heq (eq_of_lookup he hkey hlook ▸ hep)
      · exact hno e (mem_erase.mpr ⟨he, hkey⟩) hep

/-- Another callback of a request that goes on waiting. -/
theorem more_track {b : Int → Bool → SBB} : Track c { s with
      specBuf := b
      lookups := s.lookups ++ [⟨r.pkt.id, l, hit, data⟩]
      specldRequestTable := s.specldRequestTable.modify (line, idx) fun _ =>
        ⟨(hitCallbackObliv c (markHit r.pkt l hit) l hit data false).1, r.type,
          dependentsAfter c r l hit data⟩
      responses := s.responses ++
        [(hitCallbackObliv c (markHit r.pkt l hit) l hit data false).2] } := by
  have hmem := Table.mem_of_lookup hlook
  obtain ⟨pkt, hpkt, hid, hlen, hw⟩ := h.current hord hlook
  have hissued : r.pkt.id ∈ s.issued.map Packet.id := hid ▸ mem_map_of_mem hpkt
  have hds : ∀ d ∈ ([] : List Packet), d.confirmPkt = none :=
    fun _ hd => absurd hd not_mem_nil
  have hq : (hitCallbackObliv c (markHit r.pkt l hit) l hit data false).2.confirmPkt =
      some r.pkt.id := congrArg some (markHit_id r.pkt l hit)
  have hkept : (hitCallbackObliv c (markHit r.pkt l hit) l hit data false).1.id = r.pkt.id := by
    rw [hitCallbackObliv_kept_id, markHit_id]
  refine ⟨h.unique, h.fresh, lookups_append h hissued, sent_append h hissued hds hq, h.write,
    h.read, ?_, h.queue, ?_, ?_, ?_⟩
  · intro e he
    rcases mem_modify he with ⟨he, -⟩ | ⟨v, hv, rfl⟩
    · exact h.deps e he
    · exact dependentsAfter_nil (h.deps _ hmem)
  · intro e he e' he' heq
    rcases mem_modify he with ⟨he, -⟩ | ⟨v, hv, rfl⟩
    · rcases mem_modify he' with ⟨he', -⟩ | ⟨v', hv', rfl⟩
      · exact h.apart e he e' he' heq
      · exact h.apart e he ((line, idx), r) hmem (heq.trans hkept)
    · rcases mem_modify he' with ⟨he', -⟩ | ⟨v', hv', rfl⟩
      · exact h.apart ((line, idx), r) hmem e' he' (hkept.symm.trans heq)
      · rfl
  · intro e he
    rcases mem_modify he with ⟨he, hne⟩ | ⟨v, hv, rfl⟩
    · have hother : r.pkt.id ≠ e.2.pkt.id := fun heq => hne (h.apart e he _ hmem heq.symm)
      obtain ⟨p, hp, hpid, hwp⟩ := h.waiting e he
      refine ⟨p, hp, hpid, ?_⟩
      rw [← hpid] at hother
      rw [lookupsOf_append rfl, sentFor_append_one [] rfl hds hq]
      simp only [if_neg hother, append_nil]
      exact hwp
    · refine ⟨pkt, hpkt, hid.trans hkept.symm, ?_⟩
      rw [lookupsOf_append rfl, sentFor_append_one [] rfl hds hq]
      simp only [if_pos hid.symm]
      exact hw.more (h.fresh _ hpkt) (k := ⟨r.pkt.id, l, hit, data⟩) hlen
  · intro p hp hno hne
    have hkeep : r.pkt.id ≠ p.id := by
      intro heq
      refine hno _ (mem_map_of_mem hmem) ?_
      rw [if_pos rfl]
      exact hkept.trans heq
    rw [lookupsOf_append rfl] at hne ⊢
    rw [sentFor_append_one [] rfl hds hq]
    simp only [if_neg hkeep, append_nil] at hne ⊢
    refine h.done p hp (fun e he hep => ?_) hne
    refine hno _ (mem_map_of_mem he) ?_
    split
    · rename_i hkey
      exact absurd (eq_of_lookup he hkey hlook ▸ hep) hkeep
    · exact hep

end

theorem looked_track (h : Track c s) (hord : s.nextLookup l line idx)
    (ht : Looked c s l line idx hit data t) : Track c t := by
  cases ht with
  | last hlook _ => exact last_track h hord hlook
  | more hlook _ => exact more_track h hord hlook

end Steps

theorem step_track {c : SequencerConfig} {s t : Sequencer} {e : SequencerOp} (h : Track c s)
    (hC : s.inOrder e) (ht : s.step c e = some t) : Track c t := by
  unfold step at ht
  split at ht
  case isFalse => cases ht
  rename_i ha
  cases e with
  | makeRequest pkt front =>
    obtain ⟨r, hr, rfl⟩ := Option.map_eq_some_iff.mp ht
    obtain ⟨hf, hnew⟩ := allows_spec ha
    exact made_track h hnew hf (makeRequest_made (fresh_spec hf).1 hr)
  | writeCallback line data => exact writeCallback_track h ht
  | readCallback line data hits => exact readCallback_track h ht
  | oblivFromL0 line idx hit data => exact looked_track h hC (readCallbackObliv_looked ht)
  | oblivFromL1 line idx hit data => exact looked_track h hC (readCallbackObliv_looked ht)
  | oblivFromMem line idx hit data => exact looked_track h hC (readCallbackObliv_looked ht)
  | specBufHitCallback => exact specBufHitCallback_track h ht

theorem track_of_reach {c : SequencerConfig} {s : Sequencer}
    (h : (sequencerMachine c).ReachWhen (fun s e => s.inOrder e) s) : Track c s :=
  Machine.ReachWhen.invariant (I := Track c) (fun s hs => by cases hs; exact empty_track c)
    (fun _ _ _ hi hC hs => step_track hi hC hs) h

end Sequencer

open Sequencer

/-- For every oblivious load that got its callbacks, in every run in which each request's
callbacks come level by level: one packet for each level; the hit flags only grow; just the last
packet is final; one packet carries data if some level hit, none otherwise; it is the packet of
the first level that hit, with that level's bytes; and the last packet has the hits of all
levels. -/
theorem obl_delivers_once {c : SequencerConfig} {s : Sequencer} {pkt : Packet}
    (h : (sequencerMachine c).ReachWhen (fun s e => s.inOrder e = true) s) (hp : pkt ∈ s.issued)
    (hdone : ∀ e ∈ s.specldRequestTable.entries, e.2.pkt.id ≠ pkt.id)
    (hls : s.lookupsOf pkt.id ≠ []) :
    let ls := s.lookupsOf pkt.id
    let ps := s.sentFor pkt.id
    (ls.map Lookup.level = [Level.L0, .L1, .Mem].take ls.length ∧ ps.length = ls.length) ∧
    (∀ (i j : Nat) (p q : Packet), i ≤ j → ps[i]? = some p → ps[j]? = some q →
      (p.isL0Hit = true → q.isL0Hit = true) ∧ (p.isL1Hit = true → q.isL1Hit = true) ∧
      (p.isMemHit = true → q.isMemHit = true)) ∧
    (∀ (i : Nat) (p : Packet), ps[i]? = some p → (p.isFinalPacket = true ↔ i + 1 = ps.length)) ∧
    ((ps.filter Packet.carryData).length = if anyHit ls then 1 else 0) ∧
    (∀ (i : Nat) (p : Packet), ps[i]? = some p → p.carryData = true →
      ∃ k, ls[i]? = some k ∧ k.hit = true ∧ anyHit (ls.take i) = false ∧
        p.data = pkt.bytes c k.data) ∧
    (∀ p : Packet, ps.getLast? = some p →
      p.isL0Hit = hitIn ls .L0 ∧ p.isL1Hit = hitIn ls .L1 ∧ p.isMemHit = hitIn ls .Mem) := by
  have hd := (track_of_reach h).done pkt hp hdone hls
  have hmono : ∀ {i j : Nat} {l : Level}, i ≤ j →
      hitIn ((s.lookupsOf pkt.id).take (i + 1)) l = true →
      hitIn ((s.lookupsOf pkt.id).take (j + 1)) l = true := by
    intro i j l hij hhit
    obtain ⟨k, hk, hkl⟩ := any_eq_true.mp hhit
    exact any_eq_true.mpr ⟨k, (take_prefix_take_left (by omega)).subset hk, hkl⟩
  refine ⟨⟨hd.levels, hd.length⟩, fun i j p q hij hpi hqj => ?_, hd.final, hd.carried,
    fun i p hpi => (hd.reply i p hpi).carry, fun p hlast => ?_⟩
  · have hi := hd.reply i p hpi
    have hj := hd.reply j q hqj
    refine ⟨fun hit => ?_, fun hit => ?_, fun hit => ?_⟩
    · rw [hj.l0]
      exact hmono hij (hi.l0 ▸ hit)
    · rw [hj.l1]
      exact hmono hij (hi.l1 ▸ hit)
    · rw [hj.mem]
      exact hmono hij (hi.mem ▸ hit)
  · rw [List.getLast?_eq_getElem?] at hlast
    have hr := hd.reply _ p hlast
    have hpos : 0 < (s.lookupsOf pkt.id).length := length_pos_iff.mpr hls
    have hall : (s.lookupsOf pkt.id).take ((s.sentFor pkt.id).length - 1 + 1) =
        s.lookupsOf pkt.id := by
      rw [hd.length, Nat.sub_add_cancel hpos, take_length]
    rw [hr.l0, hr.l1, hr.mem, hall]
    exact ⟨rfl, rfl, rfl⟩

/-- An oblivious load of all levels that misses in the first one, with a second load between
its callbacks. -/
def memRun : List SequencerOp :=
  [.makeRequest (newPacket 1 .readSpecMemReq 68 1) 0, .oblivFromL0 64 2 false (fun _ => 0),
    .makeRequest (newPacket 2 .readSpecPerfectReq 128 2) 0,
    .oblivFromL1 64 2 true (fun i => i.toUInt8), .oblivFromL0 128 4 true (fun _ => 9),
    .oblivFromMem 64 2 true (fun _ => 1)]

def afterMemRun : Sequencer :=
  ((sequencerMachine sdoSequencer).run Sequencer.empty memRun).getD Sequencer.empty

/-- Three packets for the first load; the second one has the data. -/
theorem obl_delivers_once_memRun :
    ((afterMemRun.sentFor 1).map (fun p => [p.isL0Hit, p.isL1Hit, p.isMemHit, p.isFinalPacket,
      p.carryData]) = [[false, false, false, false, false], [false, true, false, false, true],
        [false, true, true, true, false]] ∧
      (afterMemRun.sentFor 1).map Packet.data = [[0, 0, 0, 0], [4, 5, 6, 7], [4, 5, 6, 7]]) ∧
    ((afterMemRun.sentFor 1).filter Packet.carryData).length =
      if anyHit (afterMemRun.lookupsOf 1) then 1 else 0 := by
  have hrun : (sequencerMachine sdoSequencer).run Sequencer.empty memRun = some afterMemRun :=
    Machine.run_getD (by decide +kernel)
  have hreach : (sequencerMachine sdoSequencer).ReachWhen (fun s e => s.inOrder e = true)
      afterMemRun := .run (.start rfl) memRun (by decide +kernel) hrun
  have hdone : ∀ e ∈ afterMemRun.specldRequestTable.entries,
      e.2.pkt.id ≠ (newPacket 1 .readSpecMemReq 68 1).id := by decide +kernel
  have hp : newPacket 1 .readSpecMemReq 68 1 ∈ afterMemRun.issued := by decide +kernel
  have hls : 0 < (afterMemRun.lookupsOf 1).length := by decide +kernel
  have hd := obl_delivers_once hreach hp hdone (length_pos_iff.mp hls)
  exact ⟨by decide +kernel, hd.2.2.2.1⟩

end SdoCore.Ruby
