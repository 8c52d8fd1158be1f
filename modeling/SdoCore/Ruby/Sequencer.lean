import SdoCore.Lib.Machine
import SdoCore.Lib.Table

/-! The Sequencer (`Sequencer.cc`): between the ports of one core and its L1 controller. A
request waits in one of three tables (stores, loads, oblivious loads) or in the list of
dependents of an entry, until the controller calls back.

The modes are those of the repository: with MLDOM oblivious loads have a table of their own
and an expose or a validation joins a load of its line; without it speculative loads are
InvisiSpec's and fill a buffer; `oblSContention` brings that buffer back under MLDOM. -/

namespace SdoCore.Ruby

open Lib

inductive MemCmd
  | readReq | writeReq | swapReq | flushReq | loadLockedReq | storeCondReq
  | readSpecReq | validateReq | exposeReq
  | readSpecL0Req | readSpecL1Req | readSpecMemReq | readSpecPerfectReq | readSpecPerfectUnsafeReq
  | other
deriving DecidableEq

inductive RubyRequestType
  | LD | IFETCH | ST | ATOMIC | RMW_Read | Load_Linked | Store_Conditional
  | Locked_RMW_Read | Locked_RMW_Write | FLUSH | EXPOSE | SPEC_LD
  | SPEC_LD_L0 | SPEC_LD_L1 | SPEC_LD_Mem | SPEC_LD_Perfect | SPEC_LD_PerfectUnsafe
deriving DecidableEq

inductive RequestStatus
  | Ready | BufferFull | Aliased | Merged | Issued
deriving DecidableEq

/-- The bytes of a cache line. -/
abbrev DataBlock := Nat → UInt8

structure SequencerConfig where
  mldom : Bool
  oblSContention : Bool
  maxOutstandingRequests : Nat
  blockSizeBits : Nat

namespace SequencerConfig

def makeLineAddress (c : SequencerConfig) (a : Nat) : Nat :=
  a / 2 ^ c.blockSizeBits * 2 ^ c.blockSizeBits

def getOffset (c : SequencerConfig) (a : Nat) : Nat := a % 2 ^ c.blockSizeBits

end SequencerConfig

/-- A packet, with the flags of its request that `makeRequest` reads. `id` is the pointer. The
CPU's loads hold static data, which a copy of the packet shares. -/
structure Packet where
  id : Nat
  cmd : MemCmd
  addr : Nat
  size : Nat
  (isLockedRMW isInstFetch storeCheck : Bool)
  reqIdx : Int
  srcIdx : Int
  (isFirst isSplit onlyAccessSpecBuf : Bool)
  aliasedReqIdx : Int
  (isSBHit isL0Hit isL1Hit isMemHit : Bool)
  fromLevel : Option Nat
  (isFinalPacket copyData carryData : Bool)
  confirmPkt : Option Nat
  data : List UInt8
deriving DecidableEq

namespace Packet

/-- The fields that the constructor sets and nothing else has touched. -/
def fresh (p : Packet) : Bool :=
  p.aliasedReqIdx == -1 && !p.isSBHit && !p.isL0Hit && !p.isL1Hit && !p.isMemHit &&
    p.fromLevel == none && p.isFinalPacket && !p.copyData && !p.carryData && p.confirmPkt == none

def isSpecLd (p : Packet) : Bool :=
  match p.cmd with
  | .readSpecL0Req | .readSpecL1Req | .readSpecMemReq | .readSpecPerfectReq
  | .readSpecPerfectUnsafeReq => true
  | _ => false

def isSpec (p : Packet) : Bool := p.cmd == .readSpecReq || p.isSpecLd

def isExpose (p : Packet) : Bool := p.cmd == .exposeReq

def isValidate (p : Packet) : Bool := p.cmd == .validateReq

def isFlush (p : Packet) : Bool := p.cmd == .flushReq

def isWrite (p : Packet) : Bool :=
  match p.cmd with
  | .writeReq | .swapReq | .storeCondReq => true
  | _ => false

def isRead (p : Packet) : Bool :=
  match p.cmd with
  | .writeReq | .storeCondReq | .flushReq | .other => false
  | _ => true

end Packet

/-- The levels an oblivious load looks up, in the order of its callbacks. -/
inductive Level
  | L0 | L1 | Mem
deriving DecidableEq

namespace Level

def toNat : Level → Nat
  | L0 => 0
  | L1 => 1
  | Mem => 2

/-- The level as the CPU numbers it. -/
def visibleSDOLevel : Level → Nat
  | L0 => 0
  | L1 => 1
  | Mem => 3

end Level

namespace Packet

def markSDOHitLevel (p : Packet) : Level → Packet
  | .L0 => { p with isL0Hit := true }
  | .L1 => { p with isL1Hit := true }
  | .Mem => { p with isMemHit := true }

def packetSDOHitLevelOr (p : Packet) (l : Level) : Nat :=
  if p.isSBHit || p.isL0Hit then 0
  else if p.isL1Hit then 1
  else if p.isMemHit then 3
  else l.visibleSDOLevel

/-- The bytes of the block that the packet asks for. -/
def bytes (c : SequencerConfig) (p : Packet) (data : DataBlock) : List UInt8 :=
  (List.range p.size).map fun i => data (c.getOffset p.addr + i)

def read (c : SequencerConfig) (p : Packet) (data : DataBlock) : Packet :=
  { p with data := p.bytes c data }

end Packet

structure SequencerRequest where
  pkt : Packet
  type : RubyRequestType
  dependentRequests : List Packet
deriving DecidableEq

/-- A block of InvisiSpec's buffer. -/
structure SBB where
  reqAddress : Nat
  reqSize : Nat
  data : DataBlock
  dataHit : Bool

/-- One callback for an oblivious load, kept as history. -/
structure Lookup where
  id : Nat
  level : Level
  hit : Bool
  data : DataBlock

/-- `blocked` are the lines locked by a Locked_RMW_Read. `issued`, `responses` (the calls of
`ruby_hit_callback`) and `lookups` are history. -/
structure Sequencer where
  writeRequestTable : Table Nat SequencerRequest
  readRequestTable : Table Nat SequencerRequest
  specldRequestTable : Table (Nat × Int) SequencerRequest
  outstandingCount : Nat
  specBuf : Int → Bool → SBB
  specRequestQueue : List Packet
  blocked : List Nat
  mandatoryQ : List (Nat × RubyRequestType)
  issued : List Packet
  responses : List Packet
  lookups : List Lookup

namespace Sequencer

def empty : Sequencer where
  writeRequestTable := .empty
  readRequestTable := .empty
  specldRequestTable := .empty
  outstandingCount := 0
  specBuf _ _ := ⟨0, 0, fun _ => 0, false⟩
  specRequestQueue := []
  blocked := []
  mandatoryQ := []
  issued := []
  responses := []
  lookups := []

/-! ## Requests -/

def isStore : RubyRequestType → Bool
  | .ST | .RMW_Read | .Load_Linked | .Store_Conditional | .Locked_RMW_Read | .Locked_RMW_Write
  | .FLUSH => true
  | _ => false

/-- The two types of a request: the one the Sequencer keeps and the one it sends. `none` is a
failed assertion or a panic. -/
def requestType (c : SequencerConfig) (pkt : Packet) : Option (RubyRequestType × RubyRequestType) :=
  if pkt.isSpec then
    if !c.mldom then
      if pkt.cmd == .readSpecReq && (pkt.isSplit || pkt.isFirst) then some (.SPEC_LD, .SPEC_LD)
      else none
    else
      match pkt.cmd with
      | .readSpecL0Req => some (.SPEC_LD_L0, .SPEC_LD_L0)
      | .readSpecL1Req => some (.SPEC_LD_L1, .SPEC_LD_L1)
      | .readSpecMemReq => some (.SPEC_LD_Mem, .SPEC_LD_Mem)
      | .readSpecPerfectReq => some (.SPEC_LD_Perfect, .SPEC_LD_Perfect)
      | .readSpecPerfectUnsafeReq => some (.SPEC_LD_PerfectUnsafe, .SPEC_LD_PerfectUnsafe)
      | _ => none
  else if pkt.isExpose || pkt.isValidate then
    if pkt.isSplit || pkt.isFirst then
      if c.mldom then some (.LD, .LD) else some (.EXPOSE, .EXPOSE)
    else none
  else if pkt.cmd == .storeCondReq then some (.Store_Conditional, .ATOMIC)
  else if pkt.cmd == .loadLockedReq then some (.Load_Linked, .ATOMIC)
  else if pkt.isLockedRMW then
    if pkt.isWrite then some (.Locked_RMW_Write, .ST)
    else if pkt.isRead then some (.Locked_RMW_Read, .ST)
    else none
  else if pkt.isWrite then some (.ST, .ST)
  else if pkt.isRead then
    if pkt.isInstFetch then some (.IFETCH, .IFETCH)
    else if pkt.storeCheck then some (.RMW_Read, .ST)
    else some (.LD, .LD)
  else if pkt.isFlush then some (.FLUSH, .FLUSH)
  else none

def addDependent (pkt : Packet) (r : SequencerRequest) : SequencerRequest :=
  { r with dependentRequests := r.dependentRequests ++ [pkt] }

/-- A request goes into the table of its kind unless the line is locked or has a request that
it must wait for. An expose or a validation joins a load. -/
def insertRequest (c : SequencerConfig) (s : Sequencer) (pkt : Packet) (type : RubyRequestType) :
    Option (Sequencer × RequestStatus) :=
  let line := c.makeLineAddress pkt.addr
  let request : SequencerRequest := ⟨pkt, type, []⟩
  if line ∈ s.blocked ∧ type ≠ .Locked_RMW_Write then some (s, .Aliased)
  else if isStore type then
    if line ∈ s.readRequestTable.keys then some (s, .Aliased)
    else if h : line ∈ s.writeRequestTable.keys then some (s, .Aliased)
    else
      some ({ s with
        writeRequestTable := s.writeRequestTable.insert line request h
        outstandingCount := s.outstandingCount + 1 }, .Ready)
  else if line ∈ s.writeRequestTable.keys then some (s, .Aliased)
  else if h : line ∈ s.readRequestTable.keys then
    if pkt.isExpose || pkt.isValidate then
      if c.mldom then
        match s.readRequestTable.lookup line with
        | some r =>
          if r.type = .LD then
            some ({ s with
              readRequestTable := s.readRequestTable.modify line (addDependent pkt) }, .Merged)
          else some (s, .Aliased)
        | none => none
      else none
    else some (s, .Aliased)
  else
    some ({ s with
      readRequestTable := s.readRequestTable.insert line request h
      outstandingCount := s.outstandingCount + 1 }, .Ready)

def ldIdx (pkt : Packet) : Int :=
  if pkt.reqIdx = -1 then -1 else pkt.reqIdx * 2 + if pkt.isFirst then 0 else 1

def isSpecLdType : RubyRequestType → Bool
  | .SPEC_LD_L0 | .SPEC_LD_L1 | .SPEC_LD_Mem | .SPEC_LD_Perfect | .SPEC_LD_PerfectUnsafe => true
  | _ => false

/-- The entry that the iteration over the hash table meets first; `front` is the order's choice. -/
def firstSpecld (s : Sequencer) (front : Nat) : Option ((Nat × Int) × SequencerRequest) :=
  s.specldRequestTable.entries[front % s.specldRequestTable.size]?

/-- A request that names another one to merge with looks at the first entry of the table only:
the loop returns in its first turn, whether or not the entry is the one named. -/
def insertSpecldRequest (c : SequencerConfig) (s : Sequencer) (pkt : Packet)
    (type : RubyRequestType) (front : Nat) : Option (Sequencer × RequestStatus) :=
  let line := c.makeLineAddress pkt.addr
  let key := (line, ldIdx pkt)
  if c.mldom then
    if line ∈ s.blocked ∧ type ≠ .Locked_RMW_Write then some (s, .Aliased)
    else if isSpecLdType type then
      if c.oblSContention && s.specldRequestTable.keys.any (fun k => decide (k.1 = line)) then
        some (s, .Aliased)
      else if h : key ∈ s.specldRequestTable.keys then some (s, .Aliased)
      else
        let inserted := { s with
          specldRequestTable := s.specldRequestTable.insert key ⟨pkt, type, []⟩ h
          outstandingCount := s.outstandingCount + 1 }
        if 0 < pkt.aliasedReqIdx then
          if type = .SPEC_LD_L0 then
            match s.firstSpecld front with
            | some (k, _) =>
              if k.2 = pkt.aliasedReqIdx * 2 then
                some ({ s with
                  specldRequestTable := s.specldRequestTable.modify k (addDependent pkt) }, .Merged)
              else some (s, .Merged)
            | none => some (inserted, .Ready)
          else none
        else some (inserted, .Ready)
    else none
  else none

def setSBB (s : Sequencer) (idx : Int) (first : Bool) (b : SBB) : Sequencer :=
  { s with specBuf := fun i f => if i = idx ∧ f = first then b else s.specBuf i f }

/-- The block of the buffer entry `idx` that has the line. -/
def findSBB (c : SequencerConfig) (s : Sequencer) (idx : Int) (addr : Nat) : Option SBB :=
  let line := c.makeLineAddress addr
  if line = c.makeLineAddress (s.specBuf idx true).reqAddress then some (s.specBuf idx true)
  else if line = c.makeLineAddress (s.specBuf idx false).reqAddress then some (s.specBuf idx false)
  else none

/-- A request that takes its data from the buffer is answered from a queue of its own. -/
def pushSpecRequest (c : SequencerConfig) (s : Sequencer) (pkt : Packet) (b : SBB) : Sequencer :=
  { s with specRequestQueue := s.specRequestQueue ++ [pkt.read c b.data] }

/-- The buffer under `oblSContention`: `inl` if `makeRequest` ends here. -/
def contentionSpecBuf (c : SequencerConfig) (s : Sequencer) (pkt : Packet) :
    Option (Sum (Sequencer × RequestStatus) Sequencer) :=
  if c.oblSContention then
    let sbb := s.specBuf pkt.reqIdx pkt.isFirst
    let s1 :=
      if pkt.isSpec then
        s.setSBB pkt.reqIdx pkt.isFirst
          { sbb with reqAddress := pkt.addr, reqSize := pkt.size, dataHit := false }
      else s
    if pkt.onlyAccessSpecBuf then
      match s1.findSBB c pkt.srcIdx pkt.addr with
      | none => none
      | some b =>
        if b.dataHit then
          let own := s1.specBuf pkt.reqIdx pkt.isFirst
          let s2 := s1.setSBB pkt.reqIdx pkt.isFirst { own with data := b.data, dataHit := true }
          some (.inl (s2.pushSpecRequest c { pkt with isSBHit := true } b, .Issued))
        else some (.inl (s1, .Aliased))
    else some (.inr s1)
  else some (.inr s)

/-- InvisiSpec's buffer: a speculative load takes its block, an expose or a validation must
find its own. -/
def invisiSpecBuf (c : SequencerConfig) (s : Sequencer) (pkt : Packet) :
    Option (Sum (Sequencer × RequestStatus) Sequencer) :=
  let idx := pkt.reqIdx % 256
  let sbb := s.specBuf idx pkt.isFirst
  if c.mldom then some (.inr s)
  else if pkt.isSpec then
    let s1 := s.setSBB idx pkt.isFirst { sbb with reqAddress := pkt.addr, reqSize := pkt.size }
    if pkt.onlyAccessSpecBuf then
      match s1.findSBB c pkt.srcIdx pkt.addr with
      | none => none
      | some b =>
        let own := s1.specBuf idx pkt.isFirst
        let s2 := s1.setSBB idx pkt.isFirst { own with data := b.data }
        some (.inl (s2.pushSpecRequest c pkt b, .Issued))
    else some (.inr s1)
  else if pkt.isExpose || pkt.isValidate then
    if sbb.reqAddress = pkt.addr ∧ sbb.reqSize = pkt.size then some (.inr s) else none
  else some (.inr s)

def issueRequest (s : Sequencer) (pkt : Packet) (secondary : RubyRequestType) : Sequencer :=
  { s with mandatoryQ := s.mandatoryQ ++ [(pkt.id, secondary)] }

/-- The tables' part of `makeRequest`. -/
def enterTable (c : SequencerConfig) (s : Sequencer) (pkt : Packet)
    (primary secondary : RubyRequestType) (front : Nat) : Option (Sequencer × RequestStatus) :=
  let inserted :=
    if c.mldom && pkt.isSpecLd then insertSpecldRequest c s pkt primary front
    else insertRequest c s pkt primary
  match inserted with
  | none => none
  | some (s1, .Merged) => some (s1, .Issued)
  | some (s1, .Ready) => some (s1.issueRequest pkt secondary, .Issued)
  | some r => some r

def makeRequest (c : SequencerConfig) (s : Sequencer) (pkt : Packet) (front : Nat) :
    Option (Sequencer × RequestStatus) :=
  if c.maxOutstandingRequests ≤ s.outstandingCount then some (s, .BufferFull)
  else
    match s.contentionSpecBuf c pkt with
    | none => none
    | some (.inl r) => some r
    | some (.inr s1) =>
      match requestType c pkt with
      | none => none
      | some (primary, secondary) =>
        match s1.invisiSpecBuf c pkt with
        | none => none
        | some (.inl r) => some r
        | some (.inr s2) => s2.enterTable c pkt primary secondary front

/-! ## Callbacks -/

def respond (s : Sequencer) (pkt : Packet) : Sequencer :=
  { s with responses := s.responses ++ [pkt] }

def markRemoved (s : Sequencer) : Sequencer :=
  { s with outstandingCount := s.outstandingCount - 1 }

/-- What `hitCallback` leaves in the packet. -/
def hitPacket (c : SequencerConfig) (type : RubyRequestType) (pkt : Packet) (data : DataBlock) :
    Packet :=
  if pkt.isExpose || pkt.isValidate then (if c.mldom then pkt.read c data else pkt)
  else if pkt.isFlush then pkt
  else
    match type with
    | .LD | .SPEC_LD | .IFETCH | .RMW_Read | .Locked_RMW_Read | .Load_Linked => pkt.read c data
    | _ => if pkt.cmd == .swapReq then pkt.read c data else pkt

/-- A line is locked from the Locked_RMW_Read on and unlocked by the Locked_RMW_Write. -/
def lockLine (s : Sequencer) (type : RubyRequestType) (line : Nat) : Sequencer :=
  match type with
  | .Locked_RMW_Read => { s with blocked := line :: s.blocked }
  | .Locked_RMW_Write => { s with blocked := s.blocked.filter (· ≠ line) }
  | _ => s

def writeCallback (c : SequencerConfig) (s : Sequencer) (line : Nat) (data : DataBlock) :
    Option Sequencer :=
  match s.writeRequestTable.lookup line with
  | none => none
  | some r =>
    let s1 := { s with writeRequestTable := s.writeRequestTable.erase line }.markRemoved
    some ((s1.lockLine r.type line).respond (hitPacket c r.type r.pkt data))

def updateSBB (c : SequencerConfig) (s : Sequencer) (idx : Int) (pkt : Packet) (data : DataBlock)
    (line : Nat) (hit : Bool) : Sequencer :=
  let sbb := s.specBuf idx pkt.isFirst
  if hit ∧ c.makeLineAddress sbb.reqAddress = line then
    s.setSBB idx pkt.isFirst { sbb with data := data, dataHit := true }
  else s

/-- Where the controller says the line was found. -/
structure HitAt where
  (external l0 l1 mem : Bool)

def setHitAt (pkt : Packet) (h : HitAt) : Packet :=
  if h.l0 then { pkt with isL0Hit := true, fromLevel := some 0 }
  else if h.l1 then { pkt with isL1Hit := true, fromLevel := some 1 }
  else if h.mem then { pkt with isMemHit := true, fromLevel := some 3 }
  else pkt

/-- An InvisiSpec validation is answered with one byte: whether the buffer has the data. -/
def compareSBB (c : SequencerConfig) (s : Sequencer) (pkt : Packet) (data : DataBlock) : Packet :=
  let sbb := s.specBuf (pkt.reqIdx % 256) pkt.isFirst
  let same := if pkt.bytes c sbb.data = pkt.bytes c data then 1 else 0
  { pkt with data := pkt.data.set 0 same }

/-- The packet's part of `readCallback`. -/
def readPacket (c : SequencerConfig) (s : Sequencer) (pkt : Packet) (line : Nat) (data : DataBlock)
    (h : HitAt) : Option (Sequencer × Packet) :=
  let found := setHitAt pkt h
  if pkt.isSpec then
    if pkt.onlyAccessSpecBuf then none
    else
      let s1 := if c.mldom then s else s.updateSBB c pkt.reqIdx pkt data line true
      some (s1, if h.external then found else { found with isL0Hit := true })
  else if pkt.isValidate && !c.mldom then
    if c.makeLineAddress (s.specBuf (pkt.reqIdx % 256) pkt.isFirst).reqAddress = line then
      some (s, s.compareSBB c found data)
    else none
  else some (s, found)

def readDependent (c : SequencerConfig) (pkt : Packet) (data : DataBlock) : Option Packet :=
  if pkt.isExpose || pkt.isValidate then some (pkt.read c data)
  else if pkt.isSpec then
    some ({ pkt.markSDOHitLevel .L0 with
      fromLevel := some (pkt.packetSDOHitLevelOr .L0), isFinalPacket := true }.read c data)
  else none

def readCallback (c : SequencerConfig) (s : Sequencer) (line : Nat) (data : DataBlock) (h : HitAt) :
    Option Sequencer :=
  match s.readRequestTable.lookup line with
  | none => none
  | some r =>
    let s1 := { s with readRequestTable := s.readRequestTable.erase line }.markRemoved
    match s1.readPacket c r.pkt line data h with
    | none => none
    | some (s2, pkt) =>
      let dependents :=
        if c.mldom && r.type == .LD then r.dependentRequests.mapM (readDependent c · data)
        else some []
      match dependents with
      | none => none
      | some ds => some ((ds.foldl respond s2).respond (hitPacket c r.type pkt data))

/-- Whether the callback of this level is the request's last one; `none` is a failed assertion. -/
def lastLookup (type : RubyRequestType) (l : Level) (hit : Bool) : Option Bool :=
  match type, l with
  | .SPEC_LD_L0, .L0 => some true
  | .SPEC_LD_L0, _ => none
  | .SPEC_LD_L1, .L0 => some false
  | .SPEC_LD_L1, .L1 => some true
  | .SPEC_LD_L1, .Mem => none
  | .SPEC_LD_Mem, .Mem => some true
  | .SPEC_LD_Mem, _ => some false
  | .SPEC_LD_Perfect, l => some (hit || l == .Mem)
  | .SPEC_LD_PerfectUnsafe, l => some (hit || l == .Mem)
  | _, _ => none

/-- The original packet and the one sent to the CPU. The first level that hits copies its data;
before the last callback the packet sent is a copy, with the data shared and without the flag
of a first half, which is not among `COPY_FLAGS`. -/
def hitCallbackObliv (c : SequencerConfig) (pkt : Packet) (l : Level) (hit : Bool)
    (data : DataBlock) (last : Bool) : Packet × Packet :=
  let first := hit && !pkt.copyData
  let kept := if first then { pkt.read c data with copyData := true } else pkt
  let sent := { pkt with
    isFirst := last && pkt.isFirst
    fromLevel := some l.visibleSDOLevel
    isFinalPacket := last
    confirmPkt := some pkt.id
    copyData := if last then kept.copyData else pkt.copyData
    carryData := pkt.carryData || first
    data := kept.data }
  (kept, sent)

/-- A packet that was merged into the request: it gets the data if it is on the line. -/
def writeDependent (c : SequencerConfig) (pkt : Packet) (l : Level) (hit : Bool) (data : DataBlock)
    (d : Packet) : Packet :=
  if hit ∧ c.makeLineAddress pkt.addr = c.makeLineAddress d.addr then
    (d.markSDOHitLevel l).read c data
  else d

/-- The last callback answers the merged packets as well. -/
def finishDependent (l : Level) (d : Packet) : Packet :=
  { d with fromLevel := some (d.packetSDOHitLevelOr l), isFinalPacket := true }

/-- The requests of the Perfect predictor have no code for merged packets. -/
def servesDependents : RubyRequestType → Bool
  | .SPEC_LD_L0 | .SPEC_LD_L1 | .SPEC_LD_Mem => true
  | _ => false

def dependentsAfter (c : SequencerConfig) (r : SequencerRequest) (l : Level) (hit : Bool)
    (data : DataBlock) : List Packet :=
  if servesDependents r.type then r.dependentRequests.map (writeDependent c r.pkt l hit data)
  else r.dependentRequests

def answeredDependents (c : SequencerConfig) (r : SequencerRequest) (l : Level) (hit : Bool)
    (data : DataBlock) : List Packet :=
  if servesDependents r.type then (dependentsAfter c r l hit data).map (finishDependent l) else []

def markHit (pkt : Packet) (l : Level) (hit : Bool) : Packet :=
  if hit then pkt.markSDOHitLevel l else pkt

def readCallbackObliv (c : SequencerConfig) (s : Sequencer) (l : Level) (line : Nat) (idx : Int)
    (hit : Bool) (data : DataBlock) : Option Sequencer :=
  match s.specldRequestTable.lookup (line, idx) with
  | none => none
  | some r =>
    match lastLookup r.type l hit with
    | none => none
    | some last =>
      let s1 := if c.oblSContention then s.updateSBB c r.pkt.reqIdx r.pkt data line hit else s
      let lookup : Lookup := ⟨r.pkt.id, l, hit, data⟩
      let s2 := { s1 with lookups := s1.lookups ++ [lookup] }
      let (kept, sent) := hitCallbackObliv c (markHit r.pkt l hit) l hit data last
      if last then
        let s3 := { s2 with
          specldRequestTable := s2.specldRequestTable.erase (line, idx) }.markRemoved
        some (((answeredDependents c r l hit data).foldl respond s3).respond sent)
      else
        let r' : SequencerRequest := ⟨kept, r.type, dependentsAfter c r l hit data⟩
        some ({ s2 with
          specldRequestTable := s2.specldRequestTable.modify (line, idx) fun _ => r' }.respond sent)

def readCallbackOblivFromL0 (c : SequencerConfig) (s : Sequencer) := readCallbackObliv c s .L0

def readCallbackOblivFromL1 (c : SequencerConfig) (s : Sequencer) := readCallbackObliv c s .L1

def readCallbackOblivFromMem (c : SequencerConfig) (s : Sequencer) := readCallbackObliv c s .Mem

/-- One turn of the loop that answers from the buffer's queue. -/
def specBufHitCallback (s : Sequencer) : Option Sequencer :=
  match s.specRequestQueue with
  | [] => none
  | pkt :: rest => some ({ s with specRequestQueue := rest }.respond pkt)

end Sequencer

inductive SequencerOp
  | makeRequest (pkt : Packet) (front : Nat)
  | writeCallback (line : Nat) (data : DataBlock)
  | readCallback (line : Nat) (data : DataBlock) (h : Sequencer.HitAt)
  | oblivFromL0 (line : Nat) (idx : Int) (hit : Bool) (data : DataBlock)
  | oblivFromL1 (line : Nat) (idx : Int) (hit : Bool) (data : DataBlock)
  | oblivFromMem (line : Nat) (idx : Int) (hit : Bool) (data : DataBlock)
  | specBufHitCallback

namespace Sequencer

/-- The port hands over a packet again only if it was refused. -/
def allows (s : Sequencer) : SequencerOp → Bool
  | .makeRequest pkt _ => pkt.fresh && s.issued.all fun p => decide (p.id ≠ pkt.id)
  | _ => true

def logIssued (pkt : Packet) : Sequencer × RequestStatus → Sequencer
  | (s, .Issued) => { s with issued := s.issued ++ [pkt] }
  | (s, _) => s

def handle (c : SequencerConfig) (s : Sequencer) : SequencerOp → Option Sequencer
  | .makeRequest pkt front => (s.makeRequest c pkt front).map (logIssued pkt)
  | .writeCallback line data => s.writeCallback c line data
  | .readCallback line data h => s.readCallback c line data h
  | .oblivFromL0 line idx hit data => s.readCallbackOblivFromL0 c line idx hit data
  | .oblivFromL1 line idx hit data => s.readCallbackOblivFromL1 c line idx hit data
  | .oblivFromMem line idx hit data => s.readCallbackOblivFromMem c line idx hit data
  | .specBufHitCallback => s.specBufHitCallback

def step (c : SequencerConfig) (s : Sequencer) (e : SequencerOp) : Option Sequencer :=
  if s.allows e then s.handle c e else none

end Sequencer

def sequencerMachine (c : SequencerConfig) : Machine Sequencer SequencerOp where
  start s := s = Sequencer.empty
  step := Sequencer.step c

end SdoCore.Ruby
