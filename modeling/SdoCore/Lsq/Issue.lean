import SdoCore.Lsq.Load

/-! How a load gets to the memory system (`BaseDynInst::initiateMemRead`, `LSQUnit::read`,
`LSQUnit::executeLoad`), what becomes of an ordinary read, of a load that got its data in the
queue and of one that is found in the way of an invalidation.

What the rest of the system contributes to a call, the answers of the TLB, of the store queue,
of the location predictor and of the cache, is an argument. -/

namespace SdoCore

/-- The answer of the data TLB. A walk delays it; `missLow` and `missHigh` are `specTLBMiss` of
the request, or of the two halves of a split one. -/
structure Translation where
  (delayed fault missLow missHigh strictlyOrdered mmappedIpr : Bool := false)
  lineLow : Nat := 0
  lineHigh : Nat := 0
  deriving DecidableEq

/-- What the older stores hold of the load's bytes. -/
inductive Forwarding
  | nothing | full (data : Bytes) | overlap
  deriving DecidableEq

/-- What `read` finds: the stores, a memory-mapped register, whether the loop predictor makes
the load wait for an older one, whether the line is predicted in memory, and whether the cache
takes each packet. -/
structure ReadInput where
  forwarding : Forwarding := .nothing
  ipr : Bytes := []
  probed : Bool := false
  predDram : Bool := false
  fst : Bool := true
  snd : Bool := true
  deriving DecidableEq

/-- Whether the request to the TLB carries the SPEC flag. -/
def reqSpec (c : LsqConfig) (ready : Bool) : Bool :=
  (c.tlbDefense == 2 || c.tlbDefense == 3) && !ready

/-- `specTLBMiss` is set on a request with the flag only, and only if it may proceed. -/
def specTLBMiss (c : LsqConfig) (ready miss : Bool) : Bool := c.tlbDefense == 3 && !ready && miss

namespace LoadInst

/-! ## Issue -/

/-- The oblivious request is accepted. -/
def oblSent (c : LsqConfig) (prevLoadsExecuted missed : Bool) (l : LoadInst) : LoadInst :=
  { l with
    mldomState := .A
    obl := { l.obl with
      sent := true
      missed := missed
      low := ⟨true, {}⟩
      high := ⟨l.acc.isSplit, {}⟩ }
    second := { l.second with
      needPostFetch := true
      needExposeOnly := l.second.needExposeOnly ||
        if c.needsTSO && !l.acc.isDataPrefetch then prevLoadsExecuted else true
      needDeletePostReq := true }
    sends := l.sends ++ if l.acc.isSplit then [.oblS, .oblS] else [.oblS] }

/-- An ordinary read is accepted. -/
def readSent (l : LoadInst) : LoadInst :=
  { l with
    second := { l.second with needPostFetch := false, exposeCompleted := true }
    readLow := true
    readHigh := l.acc.isSplit
    sends := l.sends ++ if l.acc.isSplit then [.read, .read] else [.read] }

/-- The first half of a split request is accepted and the second one refused. -/
def halfSent (spec : Bool) (l : LoadInst) : LoadInst :=
  if spec then { l with staleObl := true, sends := l.sends ++ [.oblS] }
  else { l with staleRead := true, sends := l.sends ++ [.read] }

/-- The load is offered to the cache; a load that is refused, like one that has to wait for an
older load or until it is ready, is executed again later. -/
def send (c : LsqConfig) (ready prevLoadsExecuted missed : Bool) (rd : ReadInput) (l : LoadInst) :
    Option LoadInst :=
  let sendSpecRead := c.isInvisibleSpec && !ready
  if sendSpecRead && (l.acc.strictlyOrdered || l.wb.specCompleted) then none
  else if sendSpecRead && c.enableMLDOM && (rd.probed || (rd.predDram && c.delayOnDramPred)) then
    some l
  else if !rd.fst then some l
  else if l.acc.isSplit && !rd.snd then some (l.halfSent sendSpecRead)
  else if sendSpecRead then
    if c.enableMLDOM then some (l.oblSent c prevLoadsExecuted missed) else none
  else some l.readSent

/-- The load has its data, and a `WritebackEvent` is scheduled. -/
def scheduleWriteback (src : Source) (data : Bytes) (l : LoadInst) : LoadInst :=
  { l with
    data.memLow := data
    wbEvent := some src
    ifLdStFwd := l.ifLdStFwd || src == .forward }

/-- `LSQUnit::read`. A strictly ordered load waits for the head of the queue and for commit. -/
def read (c : LsqConfig) (ready isHead prevLoadsExecuted missed : Bool) (tr : Translation)
    (rd : ReadInput) (l : LoadInst) : Option LoadInst :=
  if l.acc.strictlyOrdered && !(isHead && l.acc.atCommit) then
    some { l with fault := some .strictOrder }
  else if tr.mmappedIpr then some (l.scheduleWriteback .ipr rd.ipr)
  else match rd.forwarding with
    | .full data => some (l.scheduleWriteback .forward data)
    | .overlap => some l
    | .nothing => l.send c ready prevLoadsExecuted missed rd

/-- The translation has an answer, at once or after a walk. -/
def finishTranslation (fault strictlyOrdered : Bool) (lineLow lineHigh : Nat) (walked : Bool)
    (l : LoadInst) : LoadInst :=
  { l with
    fault := if fault then some .translation else none
    acc := { l.acc with
      strictlyOrdered := strictlyOrdered
      lineLow := if fault then l.acc.lineLow else lineLow
      lineHigh := if !fault && l.acc.isSplit then lineHigh else l.acc.lineHigh
      walking := false
      walked := walked } }

/-- The test of `specTLBMiss`: of a split request the halves are marked, not the request. -/
def checkTLBMiss (c : LsqConfig) (ready : Bool) (tr : Translation) (l : LoadInst) : LoadInst :=
  { l with
    obl.tlbHit := l.obl.tlbHit && !specTLBMiss c ready (!l.acc.isSplit && tr.missLow)
    acc.effAddrValid := true }

/-- A translation the request of the load is sent with missed in the TLB. -/
def translationMissed (c : LsqConfig) (ready : Bool) (tr : Translation) (l : LoadInst) : Bool :=
  specTLBMiss c ready (tr.missLow || (l.acc.isSplit && tr.missHigh))

/-- The load may not even be translated. -/
def waitsForExpose (c : LsqConfig) (ready : Bool) (l : LoadInst) : Bool :=
  !ready && (c.tlbDefense == 1 || l.acc.ordered)

def walk (l : LoadInst) : LoadInst := { l with fault := none, acc.walking := true }

/-- `initiateMemRead`; the flag says that the load is deferred. The request that is translated
is a new one every time. A translation that is delayed again after its walk has ended would go
on without a physical address. -/
def initiateMemRead (c : LsqConfig) (ready isHead prevLoadsExecuted : Bool) (tr : Translation)
    (rd : ReadInput) (l : LoadInst) : Option (LoadInst × Bool) :=
  if l.waitsForExpose c ready then some (l, true)
  else if tr.delayed then if l.acc.walked then none else some (l.walk, true)
  else
    let l := l.finishTranslation tr.fault tr.strictlyOrdered tr.lineLow tr.lineHigh false
    if tr.fault then
      if c.tlbDefense == 2 && !ready then some (l, true)
      else some ({ l with wb.executed := true }, false)
    else
      ((l.checkTLBMiss c ready tr).read c ready isHead prevLoadsExecuted
        (l.translationMissed c ready tr) tr rd).map (·, false)

/-- A load with a fault goes to commit without its data, executed unless it is to be strictly
ordered; a prefetch does not fault. -/
def faultToCommit (l : LoadInst) : LoadInst :=
  let k := if l.fault.isSome then
      { l with
        wb.executed := l.wb.executed || !l.acc.strictlyOrdered || l.acc.atCommit
        wb.sentToCommit := true }
    else l
  if l.acc.isDataPrefetch || l.acc.isInstPrefetch then { k with fault := none } else k

/-- `executeLoad`, and what the execution stage does after it. -/
def executeLoad (c : LsqConfig) (ready isHead prevLoadsExecuted : Bool) (tr : Translation)
    (rd : ReadInput) (l : LoadInst) : Option LoadInst :=
  (l.initiateMemRead c ready isHead prevLoadsExecuted tr rd).map fun r =>
    if r.2 then r.1 else r.1.faultToCommit

/-! ## Ordinary reads and write-back events -/

/-- One half of an ordinary read is in. -/
def readArrived (h : Half) (p : RespPkt) (l : LoadInst) : LoadInst :=
  { l with
    train.regLdHitLevel := hitLevel l.acc.isSplit l.train.regLdHitLevel p.hits
    data := l.data.setMem h p.data
    readLow := l.readLow && h != .low
    readHigh := l.readHigh && h != .high }

/-- `completeDataAccess` for a response to an ordinary read. -/
def completeRead (c : LsqConfig) (h : Half) (p : RespPkt) (l : LoadInst) : Option LoadInst :=
  let l := l.readArrived h p
  if l.readLow || l.readHigh || l.squashed then some l
  else (l.writeback c .read).map fun l => l.updateLocationPredictor c .nonSpec

/-- A response to the first half of a request whose second half was refused: only the level and
the bytes are kept. -/
def completeStaleRead (obl : Bool) (p : OblPkt) (l : LoadInst) : LoadInst :=
  { l with
    train.regLdHitLevel :=
      if l.second.needPostFetch then l.train.regLdHitLevel
      else hitLevel l.acc.isSplit l.train.regLdHitLevel p.hits
    data.memLow := if p.carryData then p.data else l.data.memLow
    staleObl := l.staleObl && !(obl && p.isFinalPacket)
    staleRead := l.staleRead && obl }

/-- `WritebackEvent::process`. -/
def processWriteback (c : LsqConfig) (l : LoadInst) : Option LoadInst :=
  l.wbEvent.bind fun src =>
    let l := { l with wbEvent := none }
    if l.squashed then some l else l.writeback c src

/-! ## Invalidations -/

def onLine (line : Nat) (l : LoadInst) : Bool := l.acc.lineLow == line || l.acc.lineHigh == line

/-- `force_squash` after a load that is hit. -/
def forceSquash (c : LsqConfig) (isExternalEviction force : Bool) (l : LoadInst) : Bool :=
  if c.needsTSO then !(c.isInvisibleSpec && (l.second.needExposeOnly || !isExternalEviction))
  else force

def hitBySnoop (reExec : Bool) (l : LoadInst) : LoadInst :=
  if reExec then { l with fault := some .reExec } else { l with acc.hitExternalSnoop := true }

/-- The body of the loop of `checkSnoop`, with `force_squash`. -/
def checkSnoop (c : LsqConfig) (line : Nat) (isExternalEviction fenceDelay force : Bool)
    (l : LoadInst) : LoadInst × Bool :=
  if !l.acc.effAddrValid || l.acc.strictlyOrdered || fenceDelay then (l, force)
  else if l.onLine line || force then
    let force := l.forceSquash c isExternalEviction force
    (l.hitBySnoop (l.acc.possibleLoadViolation || force), force)
  else (l, force)

/-! ## Commit -/

def isLoadSafeToCommit (l : LoadInst) : Bool :=
  if !l.squashed && l.fault.isNone then
    if l.second.needPostFetch && l.second.needExposeOnly && !l.second.exposeSent then false
    else if l.second.needPostFetch && !l.second.needExposeOnly && !l.second.exposeCompleted then
      false
    else true
  else true

end LoadInst

end SdoCore
