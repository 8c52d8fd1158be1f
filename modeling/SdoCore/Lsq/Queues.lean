import Mathlib.Algebra.Ring.Nat
import SdoCore.Lib.Machine
import SdoCore.Lib.Ring
import SdoCore.Lsq.Issue

/-! The load queue and the store queue of a thread (`LSQUnit`, `lsq_unit.hh` and
`lsq_unit_impl.hh`) as circular buffers: the entries, what moves the indices, and how the two
queues look at each other, a load at the older stores when it executes (`read`) and a store at the
younger loads (`checkViolations`).

What the TLB, the cache and the predicate of an instruction say is part of an event. `none` is a
failed assertion, a panic or a null pointer. -/

namespace SdoCore

open Lib

/-! ## Entries -/

/-- What the queues look at in a request. -/
structure MemReq where
  vaddr : Nat
  size : Nat
  (strictlyOrdered mmappedIpr cacheMaintenance llsc storeNoData cacheBlockZero : Bool := false)
  deriving DecidableEq

/-- Where a load got its bytes: from the cache, from a memory-mapped register or from a store. -/
inductive Obtained
  | sent | ipr | forwarded (store : Nat) (data : Bytes)
  deriving DecidableEq

/-- A load in its queue. `sqIdx` is -1 (`none`) if it found no store in the store queue;
`executed`: it goes to commit without a value; `obtained` is history. -/
structure LqEntry where
  seqNum : Nat
  lqIdx : Nat
  sqIdx : Option Nat
  effAddr : Nat := 0
  effSize : Nat := 0
  (effAddrValid strictlyOrdered fenceDelay atCommit hitExternalSnoop : Bool := false)
  (possibleLoadViolation executed : Bool := false)
  obtained : Option Obtained := none
  deriving DecidableEq

/-- An entry of the store queue with what it needs of its instruction; `hasInst`: `inst` is not
NULL. -/
structure SQEntry where
  hasInst : Bool := false
  seqNum : Nat := 0
  isStoreConditional : Bool := false
  isDataPrefetch : Bool := false
  (lqIdx effAddr effSize : Nat := 0)
  effAddrValid : Bool := false
  strictlyOrdered : Bool := false
  data : Bytes := List.replicate 16 0
  req : Option MemReq := none
  size : Nat := 0
  (isSplit canWB committed completed isAllZeros : Bool := false)
  deriving DecidableEq

/-- A packet of a store: the store, and whether it is the second half. -/
structure StorePkt where
  inst : Nat
  second : Bool
  deriving DecidableEq

/-- The `LSQSenderState` of a store; the packet that `pktToSend` speaks of is the second one.
`inMemory`, the packets the memory system has, is history. -/
structure StoreSender where
  inst : Nat
  idx : Nat
  isSplit : Bool := false
  outstanding : Nat := 1
  pktToSend : Bool := false
  inMemory : Nat := 0
  deriving DecidableEq

structure QueueConfig where
  needsTSO : Bool := true
  hasUnalignedMemAcc : Bool := true
  cacheStorePorts : Nat := 200
  depCheckShift : Nat := 4
  checkLoads : Bool := true

/-- `answers` and `successes` are what the cache and `handleLockedWrite` are going to say during
the call; `squashed` are the instructions marked so, and `lastInst` is history: the last
instruction that was inserted. -/
structure Lsq where
  loadQueue : Lib.Ring (Option LqEntry)
  storeQueue : Lib.Ring SQEntry
  storeWBIdx : Nat := 0
  storesToWB : Int := 0
  usedStorePorts : Nat := 0
  stalled : Bool := false
  stallingStoreIsn : Nat := 0
  stallingLoadIdx : Nat := 0
  retryPkt : Option StorePkt := none
  isStoreBlocked : Bool := false
  pendingPkt : Option StorePkt := none
  hasPendingPkt : Bool := false
  storeInFlight : Bool := false
  memDepViolator : Option Nat := none
  senders : List StoreSender := []
  squashed : Nat → Bool := fun _ => false
  answers : List Bool := []
  successes : List Bool := []
  lastInst : Nat := 0

namespace Lsq

def loads (s : Lsq) : Int := s.loadQueue.count

def stores (s : Lsq) : Int := s.storeQueue.count

def numFreeLoadEntries (s : Lsq) : Int := s.loadQueue.size - s.loads - 1

def numFreeStoreEntries (s : Lsq) : Int := s.storeQueue.size - s.stores - 1

/-! ## Insertion -/

def insertLoad (s : Lsq) (seqNum : Nat) : Option Lsq :=
  if (s.loadQueue.tail + 1) % s.loadQueue.size = s.loadQueue.head then none
  else some
    { s with
      loadQueue := s.loadQueue.push (some
        { seqNum
          lqIdx := s.loadQueue.tail
          sqIdx := if s.stores = 0 then none else some s.storeQueue.tail })
      lastInst := seqNum }

def insertStore (s : Lsq) (seqNum : Nat) (isStoreConditional isDataPrefetch : Bool) : Option Lsq :=
  if (s.storeQueue.tail + 1) % s.storeQueue.size = s.storeQueue.head then none
  else some
    { s with
      storeQueue := s.storeQueue.push
        { hasInst := true, seqNum, isStoreConditional, isDataPrefetch, lqIdx := s.loadQueue.tail }
      lastInst := seqNum }

/-! ## Memory order -/

/-- The last byte of an access, in 64-bit arithmetic. -/
def lastAddr (addr size : Nat) : Nat := (addr + size + (2 ^ 64 - 1)) % 2 ^ 64

/-- Two accesses share a block of `2 ^ shift` bytes. -/
def sameBlock (shift a n b m : Nat) : Bool :=
  decide (b >>> shift ≤ lastAddr a n >>> shift) && decide (a >>> shift ≤ lastAddr b m >>> shift)

/-- `checkViolations` of an access of `effSize` bytes at `effAddr`, over the indices the loop goes
through; the flag says that a fault is returned. -/
def checkViolations (c : QueueConfig) (isLoad : Bool) (effAddr effSize : Nat) (s : Lsq) :
    List Nat → Option (Lsq × Bool)
  | [] => some (s, false)
  | i :: is => (s.loadQueue.slot i).bind fun ld =>
    if !ld.effAddrValid || ld.strictlyOrdered || ld.fenceDelay then
      s.checkViolations c isLoad effAddr effSize is
    else if sameBlock c.depCheckShift effAddr effSize ld.effAddr ld.effSize then
      if isLoad then
        if ld.hitExternalSnoop && s.memDepViolator.all (ld.seqNum < ·) then
          some ({ s with memDepViolator := some ld.seqNum }, true)
        else
          let mark (l : Option LqEntry) := l.map fun l => { l with possibleLoadViolation := true }
          { s with loadQueue := s.loadQueue.modify i mark }.checkViolations
            c isLoad effAddr effSize is
      else if s.memDepViolator.any (· < ld.seqNum) then some (s, false)
      else some ({ s with memDepViolator := some ld.seqNum }, true)
    else s.checkViolations c isLoad effAddr effSize is

/-- `write`; the size is kept in eight bits. -/
def write (c : QueueConfig) (e : SQEntry) (req : MemReq) (split : Bool) (data : Bytes) : SQEntry :=
  { e with
    req := some req
    size := req.size % 2 ^ 8
    isAllZeros := req.storeNoData
    isSplit := e.isSplit || (c.hasUnalignedMemAcc && split)
    data := if !req.cacheBlockZero && !req.cacheMaintenance then
        data.take req.size ++ e.data.drop req.size
      else e.data }

/-- How `initiateAcc` of a store ends: the translation is delayed, the predicate is false, there is
a fault, or `writeMem` gets to `write`. -/
inductive StoreAccess
  | delayed | predicatedOff | fault
  | access (req : MemReq) (split : Bool) (data : Bytes)
  deriving DecidableEq

/-- The instruction's address and then `write`. -/
def writeMem (c : QueueConfig) (e : SQEntry) (req : MemReq) (split : Bool) (data : Bytes) :
    SQEntry :=
  write c { e with
    effAddr := req.vaddr
    effSize := req.size
    effAddrValid := true
    strictlyOrdered := req.strictlyOrdered } req split data

/-- A store conditional is able to write back as soon as it has executed. -/
def allowSC (s : Lsq) (idx : Nat) : Lsq :=
  if (s.storeQueue.slot idx).isStoreConditional then
    { s with
      storeQueue := s.storeQueue.modify idx fun e => { e with canWB := true }
      storesToWB := s.storesToWB + 1 }
  else s

/-- `executeStore` of the store in slot `idx`, whose `lqIdx` is where the younger loads begin. -/
def executeStore (c : QueueConfig) (s : Lsq) (idx : Nat) : StoreAccess → Option (Lsq × Bool)
  | .access req split data =>
    let e := s.storeQueue.slot idx
    if s.stores = 0 || s.squashed e.seqNum || !(decide (req.size ≤ 16) || req.storeNoData) then none
    else
      let s := { s with storeQueue := s.storeQueue.modify idx fun e => writeMem c e req split data }
      if (s.storeQueue.slot idx).size = 0 then some (s, false)
      else
        (s.allowSC idx).checkViolations c false req.vaddr req.size
          (s.loadQueue.indices s.loadQueue.size e.lqIdx)
  | _ => if s.stores = 0 || s.squashed (s.storeQueue.slot idx).seqNum then none else some (s, false)

/-! ## Loads -/

/-- What the search of `read` through the older stores finds. -/
inductive StoreSearch
  | nothing | full (store : Nat) (data : Bytes) | overlap (store : Nat)
  deriving DecidableEq

/-- The four comparisons of `read`, in 64-bit arithmetic: the store has the lower end of the load,
its upper end, and the load begins below the store's end, ends above its beginning. -/
structure Limits where
  (lower upper lowerPart upperPart : Bool)

def limits (req : MemReq) (e : SQEntry) : Limits where
  lower := e.effAddr ≤ req.vaddr
  upper := (req.vaddr + req.size) % 2 ^ 64 ≤ (e.effAddr + e.size) % 2 ^ 64
  lowerPart := req.vaddr < (e.effAddr + e.size) % 2 ^ 64
  upperPart := e.effAddr < (req.vaddr + req.size) % 2 ^ 64

/-- The store has part of the load, or the load is linked and the store has any of it. -/
def Limits.partly (l : Limits) (llsc : Bool) : Bool :=
  if llsc then (l.lower || l.upperPart) && (l.upper || l.lowerPart)
  else (l.lower && l.lowerPart) || (l.upper && l.upperPart) || (l.lowerPart && l.upperPart)

/-- The bytes a store forwards. -/
def forwardData (req : MemReq) (e : SQEntry) : Bytes :=
  if e.isAllZeros then List.replicate req.size 0
  else (e.data.drop (req.vaddr - e.effAddr)).take req.size

/-- The loop of `read` over the slots of the older stores, the youngest first. -/
def searchStores (req : MemReq) (slot : Nat → SQEntry) : List Nat → Option StoreSearch
  | [] => some .nothing
  | i :: is =>
    let e := slot i
    if !e.hasInst then none
    else if e.size = 0 || e.strictlyOrdered || e.req.any (·.cacheMaintenance) then
      searchStores req slot is
    else if !e.effAddrValid then none
    else
      let l := limits req e
      if l.lower && l.upper && !req.llsc then some (.full i (forwardData req e))
      else if l.partly req.llsc then if e.completed then none else some (.overlap i)
      else searchStores req slot is

/-- The slots the loop goes through, from the tail of the store queue as the load found it down to
the first store that has not been sent. -/
def olderStores (s : Lsq) (ld : LqEntry) : List Nat :=
  match ld.sqIdx with
  | none => []
  | some i => s.storeQueue.indicesDown s.storeWBIdx s.storeQueue.size i

inductive ReadResult
  | strictOrder | ipr | forwarded (store : Nat) (data : Bytes) | stalled | sent | refused
  deriving DecidableEq

/-- The load waits for the store, unless an older load waits already. -/
def stall (s : Lsq) (idx store : Nat) (seqNum : Nat) : Option Lsq :=
  let take : Lsq :=
    { s with
      stalled := true
      stallingStoreIsn := (s.storeQueue.slot store).seqNum
      stallingLoadIdx := idx }
  if !s.stalled then some take
  else (s.loadQueue.slot s.stallingLoadIdx).bind fun l =>
    if seqNum < l.seqNum then some take else some s

/-- `read` of the load in slot `idx`; `accepted` says whether the cache takes it. -/
def read (s : Lsq) (idx : Nat) (ld : LqEntry) (req : MemReq) (accepted : Bool) :
    Option (Lsq × ReadResult) :=
  if req.strictlyOrdered && !(idx == s.loadQueue.head && ld.atCommit) then some (s, .strictOrder)
  else if req.mmappedIpr then some (s, .ipr)
  else (searchStores req s.storeQueue.slot (s.olderStores ld)).bind fun
    | .full i data => some (s, .forwarded (s.storeQueue.slot i).seqNum data)
    | .overlap i => (s.stall idx i ld.seqNum).map (·, .stalled)
    | .nothing => some (s, if accepted then .sent else .refused)

/-- What the load has then. -/
def ReadResult.obtained : ReadResult → Option Obtained
  | .ipr => some .ipr
  | .forwarded store data => some (.forwarded store data)
  | .sent => some .sent
  | _ => none

/-- `executeLoad`, with a translation that is complete: the address, `read`, and the search for
younger loads that have been hit by an external snoop. -/
def executeLoad (c : QueueConfig) (s : Lsq) (idx : Nat) (req : MemReq) (accepted : Bool) :
    Option (Lsq × ReadResult) :=
  (s.loadQueue.slot idx).bind fun ld =>
    if ld.fenceDelay || s.squashed ld.seqNum then none
    else
      let ld := { ld with
        effAddr := req.vaddr
        effSize := req.size
        effAddrValid := true
        strictlyOrdered := req.strictlyOrdered }
      (s.read idx ld req accepted).bind fun (s, r) =>
        let ld := { ld with obtained := r.obtained }
        let s := { s with loadQueue := s.loadQueue.modify idx fun _ => some ld }
        if c.checkLoads && r != .strictOrder then
          (s.checkViolations c true req.vaddr req.size
            (s.loadQueue.indices s.loadQueue.size (s.loadQueue.next idx))).map fun t => (t.1, r)
        else some (s, r)

/-! ## Commit -/

/-- `commitLoads`, with the loads that are left as fuel. -/
def commitLoads (youngest : Nat) :
    Nat → Lib.Ring (Option LqEntry) → Option (Lib.Ring (Option LqEntry))
  | 0, r => some r
  | n + 1, r =>
    if r.count = 0 then some r
    else (r.slot r.head).bind fun ld =>
      if ld.seqNum ≤ youngest then
        commitLoads youngest n (r.modify r.head fun _ => none).popHead
      else some r

/-- The loop of `commitStores` over the slots from head to tail. -/
def commitStores (youngest : Nat) (s : Lsq) : List Nat → Option Lsq
  | [] => some s
  | i :: is =>
    let e := s.storeQueue.slot i
    if !e.hasInst then none
    else if e.canWB then commitStores youngest s is
    else if youngest < e.seqNum then some s
    else commitStores youngest
      { s with
        storeQueue := s.storeQueue.modify i fun e => { e with canWB := true }
        storesToWB := s.storesToWB + 1 } is

/-! ## Writing back -/

def incrWBIdx (s : Lsq) : Lsq := { s with storeWBIdx := s.storeQueue.next s.storeWBIdx }

/-- A load that waited for the store may be tried again. -/
def unstall (s : Lsq) (seqNum : Nat) : Lsq :=
  if s.stalled && s.stallingStoreIsn == seqNum then
    { s with stalled := false, stallingStoreIsn := 0 }
  else s

def storePostSend (c : QueueConfig) (s : Lsq) : Lsq :=
  let s := s.unstall (s.storeQueue.slot s.storeWBIdx).seqNum
  { s with storeInFlight := s.storeInFlight || c.needsTSO }.incrWBIdx

/-- The loop of `completeStore` that takes completed stores off the head. -/
def advanceHead : Nat → Lib.Ring SQEntry → Lib.Ring SQEntry
  | 0, r => r
  | n + 1, r =>
    let r := r.popHead
    if (r.slot r.head).completed && r.head != r.tail then advanceHead n r else r

def completeStore (c : QueueConfig) (s : Lsq) (idx : Nat) : Option Lsq :=
  let e := s.storeQueue.slot idx
  if !e.hasInst then none
  else
    let q := s.storeQueue.modify idx fun e => { e with completed := true }
    let s :=
      { s with
        storeQueue := if idx = q.head then advanceHead q.size q else q
        storesToWB := s.storesToWB - 1 }.unstall e.seqNum
    some { s with storeInFlight := s.storeInFlight && !c.needsTSO }

def setSender (s : Lsq) (inst : Nat) (f : StoreSender → StoreSender) : Lsq :=
  { s with senders := s.senders.map fun t => if t.inst = inst then f t else t }

/-- `sendStore`: a packet that the cache refuses is kept for `recvRetry`. -/
def sendStore (s : Lsq) (pkt : StorePkt) : Option (Lsq × Bool) :=
  let accepted := s.answers.headD true
  let s := { s with answers := s.answers.tail }
  if accepted then some (s.setSender pkt.inst fun t => { t with inMemory := t.inMemory + 1 }, true)
  else if s.retryPkt.isSome then none
  else some ({ s with isStoreBlocked := true, retryPkt := some pkt }, false)

/-- The last packet of the store at `storeWBIdx` is sent. -/
def sendLast (c : QueueConfig) (s : Lsq) (pkt : StorePkt) : Option Lsq :=
  (s.sendStore pkt).map fun r => if r.2 then r.1.storePostSend c else r.1

def writebackPendingStore (c : QueueConfig) (s : Lsq) : Option Lsq :=
  if s.hasPendingPkt then s.pendingPkt.bind fun pkt =>
    (s.sendLast c pkt).map fun s => { s with pendingPkt := none, hasPendingPkt := false }
  else some s

/-- The packets of a store are made and sent. -/
def sendPackets (c : QueueConfig) (s : Lsq) (e : SQEntry) : Option Lsq :=
  let split := c.hasUnalignedMemAcc && e.isSplit
  let sender : StoreSender :=
    { inst := e.seqNum
      idx := s.storeWBIdx % 2 ^ 8
      isSplit := split
      outstanding := if split then 2 else 1 }
  let s := { s with senders := sender :: s.senders }
  if !split then s.sendLast c ⟨e.seqNum, false⟩
  else (s.sendStore ⟨e.seqNum, false⟩).bind fun r =>
    if !r.2 then some (r.1.setSender e.seqNum fun t => { t with pktToSend := true })
    else if r.1.usedStorePorts < c.cacheStorePorts then
      { r.1 with usedStorePorts := r.1.usedStorePorts + 1 }.sendLast c ⟨e.seqNum, true⟩
    else if r.1.pendingPkt.isSome then none
    else some { r.1 with pendingPkt := some ⟨e.seqNum, true⟩, hasPendingPkt := true }

/-- The store is complete without a packet. -/
def completeAtOnce (c : QueueConfig) (s : Lsq) : Option Lsq :=
  (s.completeStore c s.storeWBIdx).map incrWBIdx

/-- `handleLockedWrite` is asked about a store conditional only. -/
def lockedWrite (s : Lsq) (e : SQEntry) : Lsq × Bool :=
  if e.isStoreConditional then ({ s with successes := s.successes.tail }, s.successes.headD true)
  else (s, true)

/-- The body of the loop of `writebackStores`. -/
def writebackStore (c : QueueConfig) (s : Lsq) : Option Lsq :=
  let e := s.storeQueue.slot s.storeWBIdx
  if e.size = 0 then s.completeAtOnce c
  else
    let s := { s with usedStorePorts := s.usedStorePorts + 1 }
    if e.isDataPrefetch then some s.incrWBIdx
    else e.req.bind fun req =>
      if e.committed || (e.isStoreConditional && e.isSplit) then none
      else
        let s := { s with
          storeQueue := s.storeQueue.modify s.storeWBIdx fun e => { e with committed := true } }
        let (s, success) := s.lockedWrite e
        if !success then s.completeAtOnce c
        else if req.mmappedIpr then if e.isStoreConditional then none else s.completeAtOnce c
        else s.sendPackets c e

def mayWriteBack (c : QueueConfig) (s : Lsq) : Bool :=
  decide (0 < s.storesToWB) && s.storeWBIdx != s.storeQueue.tail &&
    (s.storeQueue.slot s.storeWBIdx).hasInst && (s.storeQueue.slot s.storeWBIdx).canWB &&
    (!c.needsTSO || !s.storeInFlight) && decide (s.usedStorePorts < c.cacheStorePorts)

def writebackLoop (c : QueueConfig) : Nat → Lsq → Option Lsq
  | 0, s => some s
  | n + 1, s =>
    if s.mayWriteBack c && !s.isStoreBlocked then (s.writebackStore c).bind (writebackLoop c n)
    else some s

def writebackStores (c : QueueConfig) (s : Lsq) : Option Lsq :=
  (if c.hasUnalignedMemAcc then s.writebackPendingStore c else some s).bind fun s =>
    (writebackLoop c (s.storeQueue.size + 1) s).bind fun s =>
      if s.stores < 0 || s.storesToWB < 0 then none else some { s with usedStorePorts := 0 }

/-- `recvRetry`: the packet that was refused is offered again. -/
def recvRetry (c : QueueConfig) (s : Lsq) : Option Lsq :=
  if !s.isStoreBlocked then some s
  else s.retryPkt.bind fun pkt => (s.senders.find? (·.inst = pkt.inst)).bind fun t =>
    let accepted := s.answers.headD true
    let s := { s with answers := s.answers.tail }
    if !accepted then some s
    else
      let s := s.setSender pkt.inst fun t => { t with inMemory := t.inMemory + 1 }
      if !c.hasUnalignedMemAcc || !t.pktToSend || pkt.second then
        let s := s.setSender pkt.inst fun t => { t with pktToSend := false }
        some { s.storePostSend c with retryPkt := none, isStoreBlocked := false }
      else { s with retryPkt := none, isStoreBlocked := false }.sendLast c ⟨pkt.inst, true⟩

/-- `completeDataAccess` for a response to a store: a split store waits for the other half. -/
def storeResponse (c : QueueConfig) (s : Lsq) (inst : Nat) : Option Lsq :=
  (s.senders.find? (·.inst = inst)).bind fun t =>
    if c.hasUnalignedMemAcc && t.outstanding != 1 then
      some (s.setSender inst fun t =>
        { t with outstanding := t.outstanding - 1, inMemory := t.inMemory - 1 })
    else
      let s := { s with senders := s.senders.filter (·.inst ≠ inst) }
      if s.squashed inst then some s else s.completeStore c t.idx

/-! ## Squash -/

def markSquashed (s : Lsq) (seqNum : Nat) : Lsq :=
  { s with squashed := Function.update s.squashed seqNum true }

/-- The last load, in slot `i`, is taken out. -/
def dropLoad (s : Lsq) (i seqNum : Nat) : Lsq :=
  let s := if s.stalled && i == s.stallingLoadIdx then
      { s with stalled := false, stallingStoreIsn := 0, stallingLoadIdx := 0 }
    else s
  { s with loadQueue := (s.loadQueue.modify i fun _ => none).popTail }.markSquashed seqNum

/-- The loop of `squash` over the loads from the tail, with the loads that are left as fuel. -/
def squashLoads (squashedNum : Nat) : Nat → Lsq → Option Lsq
  | 0, s => some s
  | n + 1, s =>
    let i := s.loadQueue.prev s.loadQueue.tail
    if s.loads = 0 then some s
    else (s.loadQueue.slot i).bind fun ld =>
      if squashedNum < ld.seqNum then squashLoads squashedNum n (s.dropLoad i ld.seqNum) else some s

def clearEntry (e : SQEntry) : SQEntry := { e with hasInst := false, canWB := false, req := none }

/-- The last store, in slot `i`, is taken out. -/
def dropStore (s : Lsq) (i seqNum : Nat) : Lsq :=
  { s with storeQueue := (s.storeQueue.modify i clearEntry).popTail }.markSquashed seqNum

/-- The same over the stores; one that can write back ends the loop. -/
def squashStores (squashedNum : Nat) : Nat → Lsq → Option Lsq
  | 0, s => some s
  | n + 1, s =>
    let i := s.storeQueue.prev s.storeQueue.tail
    let e := s.storeQueue.slot i
    if s.stores = 0 then some s
    else if !e.hasInst then none
    else if squashedNum < e.seqNum && !e.canWB then
      -- panic("Is stalled should have been cleared by stalling load!")
      if s.stalled && e.seqNum == s.stallingStoreIsn then none
      else squashStores squashedNum n (s.dropStore i e.seqNum)
    else some s

def squash (s : Lsq) (squashedNum : Nat) : Option Lsq :=
  (squashLoads squashedNum s.loads.toNat s).bind fun s =>
    squashStores squashedNum s.stores.toNat
      { s with memDepViolator := s.memDepViolator.filter (· ≤ squashedNum) }

end Lsq

/-! ## The machine -/

inductive LsqEvent
  | insertLoad (seqNum : Nat)
  | insertStore (seqNum : Nat) (isStoreConditional isDataPrefetch : Bool)
  | executeLoad (idx : Nat) (req : MemReq) (accepted : Bool)
  | executeStore (idx : Nat) (acc : Lsq.StoreAccess)
  | getMemDepViolator
  | setFenceDelay (idx : Nat) (fenceDelay : Bool)
  | setAtCommit (idx : Nat)
  | setExecuted (idx : Nat)
  | hitExternalSnoop (idx : Nat)
  | setSquashed (seqNum : Nat)
  | commitLoads (youngest : Nat)
  | commitStores (youngest : Nat)
  | writebackStores (answers successes : List Bool)
  | storeResponse (inst : Nat)
  | recvRetry (answers : List Bool)
  | squash (squashedNum : Nat)
  deriving DecidableEq

namespace Lsq

def setLoad (s : Lsq) (idx : Nat) (f : LqEntry → LqEntry) : Lsq :=
  { s with loadQueue := s.loadQueue.modify idx (·.map f) }

def isLoad (s : Lsq) (idx : Nat) : Bool :=
  decide (idx < s.loadQueue.size) && decide ((s.loadQueue.distance idx : Int) < s.loads)

def isStore (s : Lsq) (idx : Nat) : Bool :=
  decide (idx < s.storeQueue.size) && decide ((s.storeQueue.distance idx : Int) < s.stores)

/-- What the rest of the pipeline does: instructions come in order and find a free entry, what
executes is in its queue, and the cache answers packets it has. -/
def allowed (s : Lsq) : LsqEvent → Bool
  | .insertLoad seqNum => decide (s.lastInst < seqNum) && decide (0 < s.numFreeLoadEntries)
  | .insertStore seqNum _ _ => decide (s.lastInst < seqNum) && decide (0 < s.numFreeStoreEntries)
  | .executeLoad idx _ _ | .setFenceDelay idx _ | .setAtCommit idx | .setExecuted idx
  | .hitExternalSnoop idx => s.isLoad idx
  | .executeStore idx _ => s.isStore idx
  | .storeResponse inst => s.senders.any fun t => t.inst == inst && decide (0 < t.inMemory)
  | _ => true

def handle (c : QueueConfig) (s : Lsq) : LsqEvent → Option Lsq
  | .insertLoad seqNum => s.insertLoad seqNum
  | .insertStore seqNum isStoreConditional isDataPrefetch =>
    s.insertStore seqNum isStoreConditional isDataPrefetch
  | .executeLoad idx req accepted => (s.executeLoad c idx req accepted).map (·.1)
  | .executeStore idx acc => (s.executeStore c idx acc).map (·.1)
  | .getMemDepViolator => some { s with memDepViolator := none }
  | .setFenceDelay idx fenceDelay => some (s.setLoad idx fun l => { l with fenceDelay })
  | .setAtCommit idx => some (s.setLoad idx fun l => { l with atCommit := true })
  | .setExecuted idx => some (s.setLoad idx fun l => { l with executed := true })
  | .hitExternalSnoop idx => some (s.setLoad idx fun l => { l with hitExternalSnoop := true })
  | .setSquashed seqNum => some (s.markSquashed seqNum)
  | .commitLoads youngest =>
    (commitLoads youngest s.loads.toNat s.loadQueue).map fun r => { s with loadQueue := r }
  | .commitStores youngest =>
    s.commitStores youngest (s.storeQueue.indices s.storeQueue.size s.storeQueue.head)
  | .writebackStores answers successes => { s with answers, successes }.writebackStores c
  | .storeResponse inst => s.storeResponse c inst
  | .recvRetry answers => { s with answers }.recvRetry c
  | .squash squashedNum => s.squash squashedNum

def step (c : QueueConfig) (s : Lsq) (e : LsqEvent) : Option Lsq :=
  if s.allowed e then s.handle c e else none

end Lsq

/-- The queues are empty; an index of the store queue fits into the eight bits of
`LSQSenderState::idx`. -/
def queueMachine (c : QueueConfig) : Machine Lsq LsqEvent where
  start s := ∃ LQEntries SQEntries : Nat, 0 < LQEntries ∧ LQEntries ≤ 256 ∧ 0 < SQEntries ∧
    SQEntries ≤ 256 ∧ s =
      { loadQueue := { size := LQEntries, slot := fun _ => none }
        storeQueue := { size := SQEntries, slot := fun _ => {} } }
  step := Lsq.step c

end SdoCore
