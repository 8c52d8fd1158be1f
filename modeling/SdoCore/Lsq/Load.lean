import SdoCore.Rob

/-! One load in the load/store queue (`lsq_unit_impl.hh`, `lsq_unit.hh`): the flags of
`BaseDynInst` that the queue works on, the packets under way for the load, and what the
handlers do to it: the response state machine of `completeDataAccess`, the part of
`exposeLoads` for one load, `completeValidate`, `writeback` and `updateLocationPredictor`.

`none` is a failed assertion or one of the branches "unknown MLDOM state transition". Whether
the load is `readyToExpose` is decided elsewhere and is an argument. -/

namespace SdoCore

inductive PredType
  | noPred | staticLevel | perfect (safe : Bool) | random | greedy | hysteresis | localHistory
  | loop | tournament2Way | tournament3Way
  deriving DecidableEq

/-- The configuration the queue reads. The constructor of the CPU stops on a configuration
without the three properties. -/
structure LsqConfig extends Config where
  needsTSO : Bool := true
  exposeOnly : Bool := false
  disable2ndld : Bool := false
  predType : PredType := .greedy
  tlbDefense : Nat := 3
  delayOnDramPred : Bool := false
  enableOblSContention : Bool := false
  mldom_scheme : enableMLDOM = true → loadInExec = true ∧ isInvisibleSpec = true := by decide
  one_second : exposeOnly = true → disable2ndld = false := by decide
  contention_perfect : enableOblSContention = true → predType = .perfect false := by decide

/-- The perfect predictor in its unsafe variant. -/
def LsqConfig.perfectUnsafe (c : LsqConfig) : Bool := c.predType == .perfect false

/-- The states in the order of the source: `A` the oblivious request is sent, `B` (`b`) its
last (early) response has come, `C` the load was found safe, `D` the response to the second
access has come. -/
inductive MldomState
  | A | AB | ABC | ABCD | AC | ACB | ACBD | ACD | ACDB
  | Ab | AbC | AbCB | AbCBD | AbCD | AbCDB | ACb | ACbD | ACbDB
  | toBeSquash
  deriving DecidableEq

abbrev Bytes := List UInt8

/-- The levels at which an oblivious request was answered: the buffer of earlier oblivious
loads, the private cache, the shared cache, memory. -/
structure Hits where
  (sb l0 l1 mem : Bool := false)
  deriving DecidableEq

namespace Hits

def any (h : Hits) : Bool := h.sb || h.l0 || h.l1 || h.mem

/-- The flags of a later packet: none is taken back. -/
def le (h k : Hits) : Bool :=
  (!h.sb || k.sb) && (!h.l0 || k.l0) && (!h.l1 || k.l1) && (!h.mem || k.mem)

/-- The flags of a load that is not split: the nearest level counts. -/
def nearest (h : Hits) : Hits where
  sb := h.sb
  l0 := !h.sb && h.l0
  l1 := !h.sb && !(!h.sb && h.l0) && h.l1
  mem := !h.sb && !(!h.sb && h.l0) && !(!h.sb && !(!h.sb && h.l0) && h.l1) && h.mem

/-- The flags of a split load: the nearest level at which both halves were found. -/
def merge (f s : Hits) : Hits :=
  let sb := f.sb && s.sb
  let l0 := !sb && (f.sb || f.l0) && (s.sb || s.l0)
  let l1 := !sb && !l0 && (f.sb || f.l0 || f.l1) && (s.sb || s.l0 || s.l1)
  let mem := !sb && !l0 && !l1 && (f.sb || f.l0 || f.l1 || f.mem) && (s.sb || s.l0 || s.l1 || s.mem)
  ⟨sb, l0, l1, mem⟩

/-- `isL0_Hit`, `isL1_Hit`, `isMem_Hit` as a level. -/
def level (h : Hits) : Option Nat :=
  if h.l0 then some 0 else if h.l1 then some 1 else if h.mem then some 3 else none

@[simp] theorem nearest_any (h : Hits) : h.nearest.any = h.any := by
  obtain ⟨sb, l0, l1, mem⟩ := h
  cases sb <;> cases l0 <;> cases l1 <;> cases mem <;> rfl

@[simp] theorem merge_any (f s : Hits) : (merge f s).any = (f.any && s.any) := by
  obtain ⟨sb, l0, l1, mem⟩ := f
  obtain ⟨sb', l0', l1', mem'⟩ := s
  cases sb <;> cases l0 <;> cases l1 <;> cases mem <;>
    cases sb' <;> cases l0' <;> cases l1' <;> cases mem' <;> rfl

theorem le_any {h k : Hits} (hle : h.le k) (hany : h.any) : k.any := by
  obtain ⟨sb, l0, l1, mem⟩ := h
  obtain ⟨sb', l0', l1', mem'⟩ := k
  simp only [le, any, Bool.and_eq_true, Bool.or_eq_true, Bool.not_eq_true'] at *
  grind

end Hits

/-- The two halves of a split access; an access that is not split has a low half only. -/
inductive Half
  | low | high
  deriving DecidableEq

/-- A response to an oblivious request. -/
structure OblPkt where
  hits : Hits
  isFinalPacket : Bool
  carryData : Bool
  data : Bytes := []
  deriving DecidableEq

/-- A response to an expose, a validate or an ordinary read. -/
structure RespPkt where
  hits : Hits := {}
  data : Bytes := []
  deriving DecidableEq

/-- One half of an oblivious request under way, with the flags of its last packet. -/
structure Flight where
  outstanding : Bool := false
  hits : Hits := {}
  deriving DecidableEq

/-- An expose or validate under way. -/
structure Post where
  (isValidate low high : Bool)
  deriving DecidableEq

def Post.close (q : Post) : Half → Post
  | .low => { q with low := false }
  | .high => { q with high := false }

def Post.awaits (q : Post) : Half → Bool
  | .low => q.low
  | .high => q.high

inductive LoadFault
  | reExec | translation | strictOrder
  deriving DecidableEq

inductive CacheLevel
  | L1 | L2 | DRAM
  deriving DecidableEq

/-- Where the bytes of a write-back come from. -/
inductive Source
  | read | forward | ipr | oblS | validate
  deriving DecidableEq

inductive SendKind
  | oblS | read | expose | validate
  deriving DecidableEq

structure Written where
  source : Source
  low : Bytes
  high : Bytes
  deriving DecidableEq

/-- The access and what translation made of it. `ordered`: its flags ask for an access that is
atomic, uncacheable, linked or strictly ordered; `walking`: a page walk is under way; `walked`:
the walk has ended (`translationCompleted`). -/
structure Access where
  (isSplit isDataPrefetch isInstPrefetch ordered : Bool := false)
  lineLow : Nat := 0
  lineHigh : Nat := 0
  (effAddrValid strictlyOrdered atCommit walking walked possibleLoadViolation : Bool := false)
  (hitExternalSnoop : Bool := false)
  deriving DecidableEq

/-- The oblivious request (`oblS_*`). `tlbHit` is `obls_TLB_Hit`; `fstHalfHit` and `sndHalfHit` are
the flags filed under the two halves of a split load. `low` and `high` are what memory has
answered to each half; `missed` and `late` are history: a translation used for the request missed
in the TLB; a hit of the first half was filed under the second one after that had missed. -/
structure OblS where
  sent : Bool := false
  tlbHit : Bool := true
  missed : Bool := false
  late : Bool := false
  low : Flight := {}
  high : Flight := {}
  fstHalfHit : Hits := {}
  sndHalfHit : Hits := {}
  fstHalfComplete : Bool := false
  sndHalfComplete : Bool := false
  hits : Hits := {}
  (complete pktDelayedWB valPredOnMiss : Bool := false)
  deriving DecidableEq

/-- The history of the request after a packet of one half. -/
def OblS.record (o : OblS) (isSplit : Bool) (h : Half) (p : OblPkt) : OblS :=
  match h with
  | .low => { o with
      low := ⟨!p.isFinalPacket, p.hits⟩
      late := o.late ||
        (isSplit && !p.isFinalPacket && p.hits.any && !o.high.outstanding && !o.high.hits.any) }
  | .high => { o with high := ⟨!p.isFinalPacket, p.hits⟩ }

/-- `pkt->isFirst()`. An intermediate packet is a copy, and `FIRST_IN_SPLIT` is not copied. -/
def OblPkt.isFirst (p : OblPkt) (h : Half) : Bool := h == Half.low && p.isFinalPacket

/-- The flags of the load from those of the packet, or from those filed under the two halves. -/
def OblS.merge (o : OblS) (isSplit : Bool) (h : Half) (p : OblPkt) : OblS :=
  if isSplit then
    let o := if p.isFirst h then
        { o with fstHalfHit := p.hits, fstHalfComplete := o.fstHalfComplete || p.isFinalPacket }
      else { o with sndHalfHit := p.hits, sndHalfComplete := o.sndHalfComplete || p.isFinalPacket }
    { o with
      hits := .merge o.fstHalfHit o.sndHalfHit
      complete := o.fstHalfComplete && o.sndHalfComplete }
  else { o with hits := p.hits.nearest, complete := o.complete || p.isFinalPacket }

/-- The second access. The pairs `needSingleExpose`/`needDoubleExpose` and
`needSingleValidate`/`needDoubleValidate` are one flag each, since a load is split or not for
good; `staleResponses` counts the first halves under way whose second half was refused. -/
structure Second where
  (needPostFetch needExposeOnly needDeletePostReq needExpose needValidate : Bool := false)
  post : Option Post := none
  staleResponses : Nat := 0
  exposeSent : Bool := false
  exposeCompleted : Bool := false
  deriving DecidableEq

/-- The write-back; `calls` (of `writeback`) and `result` are history. -/
structure WriteBack where
  (doneWB doneWBByOblS executed specCompleted sentToCommit : Bool := false)
  calls : Nat := 0
  result : Option Written := none
  deriving DecidableEq

/-- The buffers of the two accesses. -/
structure Data where
  memLow : Bytes := []
  memHigh : Bytes := []
  vldLow : Bytes := []
  vldHigh : Bytes := []
  deriving DecidableEq

def Data.setMem (d : Data) (h : Half) (b : Bytes) : Data :=
  match h with
  | .low => { d with memLow := b }
  | .high => { d with memHigh := b }

def Data.written (d : Data) (src : Source) : Written :=
  match src with
  | .validate => ⟨src, d.vldLow, d.vldHigh⟩
  | _ => ⟨src, d.memLow, d.memHigh⟩

/-- What the location predictor is told; `updates` is history. -/
structure Training where
  regLdHitLevel : Option Nat := none
  expValHitLevel : Option Nat := none
  doneLocPredUpdate : Bool := false
  updates : List CacheLevel := []
  deriving DecidableEq

/-- The defaults are those of `initVars`. `readLow` and `readHigh`: the halves of an ordinary
read are under way; `staleObl` and `staleRead`: so is the first half of an oblivious request or
of an ordinary read whose second half was refused; `wbEvent`: a `WritebackEvent` is scheduled;
`sends` is history. -/
structure LoadInst where
  acc : Access := {}
  fault : Option LoadFault := none
  mldomState : MldomState := .A
  obl : OblS := {}
  second : Second := {}
  wb : WriteBack := {}
  data : Data := {}
  train : Training := {}
  (readLow readHigh staleObl staleRead ifLdStFwd : Bool := false)
  wbEvent : Option Source := none
  (canCommit committed squashed : Bool := false)
  sends : List SendKind := []
  deriving DecidableEq

namespace LoadInst

/-! ## Write-back and the location predictor -/

/-- `writeback`, of a load that is not squashed. Only the first call copies the data, and
only if there is no fault, which can then only be `ReExec`. -/
def writeback (c : LsqConfig) (l : LoadInst) (src : Source) : Option LoadInst :=
  if l.wb.executed && l.second.exposeCompleted && l.fault.isNone then none
  else if !l.wb.executed && l.fault.any (· != .reExec) then none
  else
    let l := { l with
      wb.result := if !l.wb.executed && l.fault.isNone then some (l.data.written src)
        else l.wb.result
      wb.executed := true
      wb.calls := l.wb.calls + 1
      wb.sentToCommit := true }
    if !c.isInvisibleSpec then
      if src == .oblS || src == .validate then none else some l
    else if l.fault.isSome then
      some { l with second.exposeCompleted := true, second.exposeSent := true }
    else some { l with wb.specCompleted := l.wb.specCompleted || src == .oblS }

/-- The level named by a number, Cache_L3 being folded onto the shared cache; the private
cache stands for data that was not found at any level. -/
def levelOf : Option Nat → CacheLevel
  | some 1 => .L2
  | some 2 => .L2
  | some 3 => .DRAM
  | _ => .L1

inductive UpdateType
  | nonSpec | spec | validate | forwarded
  deriving DecidableEq

/-- The level a call of `locationPredictor->update` is given, if there is one. -/
def updateLevel (l : LoadInst) : UpdateType → Option CacheLevel
  | .nonSpec => some (levelOf l.train.regLdHitLevel)
  | .spec =>
    if l.obl.hits.l0 then some .L1
    else if l.obl.hits.l1 then some .L2
    else if l.obl.hits.mem then some .DRAM
    else none
  | .validate => some (levelOf l.train.expValHitLevel)
  | .forwarded => some .L1

/-- `updateLocationPredictor`, of a load that is not squashed. -/
def updateLocationPredictor (c : LsqConfig) (l : LoadInst) (type : UpdateType) : LoadInst :=
  if !c.enableMLDOM || l.train.doneLocPredUpdate then l
  else match l.updateLevel type with
    | some level =>
      { l with train.doneLocPredUpdate := true, train.updates := l.train.updates ++ [level] }
    | none => l

/-! ## The response state machine -/

def goto (l : LoadInst) (st : MldomState) : LoadInst := { l with mldomState := st }

def wroteBack (l : LoadInst) (byOblS : Bool) : LoadInst :=
  { l with wb.doneWB := true, wb.doneWBByOblS := byOblS }

/-- A miss at all levels is written back as a prediction of the value. -/
def predictOnMiss (l : LoadInst) : LoadInst :=
  { l with obl.valPredOnMiss := l.obl.valPredOnMiss || !l.obl.hits.any }

/-- `earlyHit` and `confirm` are responses to the oblivious request, the other two to the
second access. -/
inductive Event
  | earlyHit | confirm | validate | expose
  deriving DecidableEq

/-- An access under way that is not under the perfect predictor's unsafe variant has been
found safe and its validation has not come back, unless the load has a fault. -/
def awaitsPost (c : LsqConfig) (ready : Bool) (l : LoadInst) : Bool :=
  l.fault.isSome || c.perfectUnsafe || (ready && !l.second.exposeCompleted)

/-- The chain of conditions of `completeDataAccess`: the assertions of a case stand in front
of what it does. -/
def transition (c : LsqConfig) (ready : Bool) (l : LoadInst) (e : Event) : Option LoadInst :=
  let hit := l.obl.hits.any
  let byOblS := l.wb.doneWB && l.wb.doneWBByOblS
  match l.mldomState, e with
  | .A, .confirm =>
    if (l.fault.isSome || (!l.second.exposeSent && !l.second.exposeCompleted)) && l.obl.complete &&
        !l.wb.doneWB && !(hit && l.obl.valPredOnMiss) then
      ((l.goto .AB).writeback c .oblS).map fun l => (l.wroteBack true).predictOnMiss
    else none
  | .ABC, .validate | .ABC, .expose =>
    if l.obl.complete && byOblS then
      some (if hit then l.goto .ABCD else (l.goto .ABCD).updateLocationPredictor c .validate)
    else none
  | .AC, .confirm =>
    if awaitsPost c ready l && l.obl.complete then
      if hit then
        if l.wb.doneWB then none
        else ((l.goto .ACB).writeback c .oblS).map fun l =>
          (l.wroteBack true).updateLocationPredictor c .spec
      else some (l.goto .ACB)
    else none
  -- only if nothing is ever validated
  | .AC, .expose | .ACB, .expose => if c.perfectUnsafe then some l else none
  | .ACB, .validate =>
    if l.obl.complete then
      if hit then if byOblS then some (l.goto .ACBD) else none
      else ((l.goto .ACBD).writeback c .validate).map fun l =>
        (l.wroteBack false).updateLocationPredictor c .validate
    else none
  | .AC, .validate =>
    if !l.obl.complete && !l.wb.doneWB then
      ((l.goto .ACD).writeback c .validate).map fun l =>
        (l.wroteBack false).updateLocationPredictor c .validate
    else none
  | .ACD, .earlyHit =>
    if l.second.exposeCompleted && l.wb.doneWB && !l.wb.doneWBByOblS then some l else none
  | .ACD, .confirm =>
    if l.second.exposeCompleted && l.wb.doneWB && !l.wb.doneWBByOblS then some (l.goto .ACDB)
    else none
  | .A, .earlyHit =>
    if hit then some { l.goto .Ab with obl.pktDelayedWB := true } else none
  | .Ab, .confirm =>
    if hit && l.obl.pktDelayedWB && !l.wb.doneWB then
      ((l.goto .AB).writeback c .oblS).map fun l => l.wroteBack true
    else none
  | .AbC, .confirm => if hit && l.obl.complete && byOblS then some (l.goto .AbCB) else none
  | .AbCB, .validate | .AbCB, .expose =>
    if hit && l.obl.complete && byOblS then some (l.goto .AbCBD) else none
  | .AbC, .validate | .AbC, .expose => if hit && byOblS then some (l.goto .AbCD) else none
  | .AbCD, .confirm =>
    if hit && l.obl.complete && l.second.exposeCompleted then some (l.goto .AbCDB) else none
  | .AC, .earlyHit =>
    if awaitsPost c ready l && !l.obl.complete && hit && !l.wb.doneWB then
      ((l.goto .ACb).writeback c .oblS).map fun l =>
        (l.wroteBack true).updateLocationPredictor c .spec
    else none
  | .ACb, .confirm => some (l.goto .ACB)
  | .ACb, .validate => if hit && !l.obl.complete && byOblS then some (l.goto .ACbD) else none
  | .ACbD, .confirm =>
    if hit && l.obl.complete && l.second.exposeCompleted then some (l.goto .ACbDB) else none
  | .toBeSquash, _ => if l.obl.tlbHit then none else some l
  | _, _ => none

/-! ## Responses to the oblivious request -/

def flight (l : LoadInst) : Half → Flight
  | .low => l.obl.low
  | .high => l.obl.high

/-- A packet of one half is in; the first one with a hit brings the data. -/
def receive (l : LoadInst) (h : Half) (p : OblPkt) : LoadInst :=
  { l with
    obl := l.obl.record l.acc.isSplit h p
    data := if p.hits.any && !(l.flight h).hits.any then l.data.setMem h p.data else l.data }

/-- The hit flags of the load after a packet of one half. -/
def mergeHits (c : LsqConfig) (l : LoadInst) (h : Half) (p : OblPkt) : Option LoadInst :=
  let l := l.receive h p
  let l := { l with obl := l.obl.merge l.acc.isSplit h p }
  if !l.second.needPostFetch then none
  else if l.acc.isSplit && l.obl.hits.sb && !c.enableOblSContention then none
  else some l

/-- What the state machine makes of a packet whose flags are merged. -/
def oblEvent (l : LoadInst) (p : OblPkt) : Option Event :=
  if p.isFinalPacket then
    -- the other half of a split request is awaited first
    if l.obl.low.outstanding || l.obl.high.outstanding then none
    else if l.obl.complete then some .confirm
    else none
  else if l.obl.hits.any && p.carryData then some .earlyHit
  else none

/-- What the memory system may answer to one half: intermediate packets and then one final
packet, whose flags only grow; only the first packet with a hit carries the data. -/
def mayReceive (c : LsqConfig) (l : LoadInst) (h : Half) (p : OblPkt) : Bool :=
  (l.flight h).outstanding && (l.flight h).hits.le p.hits &&
    (!p.carryData || (p.hits.any && !(l.flight h).hits.any)) &&
    (!p.hits.sb || c.enableOblSContention)

/-- `completeDataAccess` for a response to the oblivious request. -/
def completeOblS (c : LsqConfig) (ready : Bool) (l : LoadInst) (h : Half) (p : OblPkt) :
    Option LoadInst :=
  (l.mergeHits c h p).bind fun l =>
    match l.oblEvent p with
    | none => some l
    | some e => if l.squashed then some l else l.transition c ready e

/-! ## Responses to the second access -/

/-- A failed comparison marks the load for re-execution. -/
def completeValidate (l : LoadInst) : LoadInst :=
  if l.second.exposeCompleted then l
  else
    let fail := l.wb.doneWB && l.wb.doneWBByOblS &&
      (l.data.vldLow != l.data.memLow || l.data.vldHigh != l.data.memHigh)
    { l with fault := if fail then some .reExec else l.fault, second.exposeCompleted := true }

def maxLevel : Option Nat → Option Nat → Option Nat
  | some a, some b => some (max a b)
  | a, none => a
  | none, b => b

/-- The level of a response; over the halves of a split access the farther one counts. -/
def hitLevel (split : Bool) (old : Option Nat) (h : Hits) : Option Nat :=
  match h.level with
  | none => old
  | some n => if split then maxLevel old (some n) else some n

/-- `completeDataAccess` for a response to an expose or a validate. -/
def completePost (c : LsqConfig) (ready : Bool) (l : LoadInst) (q : Post) (h : Half) (p : RespPkt) :
    Option LoadInst :=
  let q := q.close h
  let l := { l with
    train.expValHitLevel := hitLevel l.acc.isSplit l.train.expValHitLevel p.hits
    data.vldLow := if h == Half.low then p.data else l.data.vldLow
    data.vldHigh := if h == Half.high then p.data else l.data.vldHigh }
  if l.second.needDeletePostReq then none
  else if q.low || q.high then some { l with second.post := some q }
  else
    let l := { l with second.post := none }
    if l.squashed then some l
    else (l.transition c ready (if q.isValidate then .validate else .expose)).map completeValidate

/-- The response to the first half of a split access whose second half was refused. -/
def completeStale (l : LoadInst) (p : RespPkt) : LoadInst :=
  { l with
    train.expValHitLevel :=
      if l.second.needPostFetch then hitLevel l.acc.isSplit l.train.expValHitLevel p.hits
      else l.train.expValHitLevel
    second.staleResponses := l.second.staleResponses - 1 }

/-! ## The pass over the loads that are safe -/

/-- How the loop of `exposeLoads` goes on: with the next load, not at all, or not at all and
the load is to be squashed (`oblsMissInst`). -/
inductive Flow
  | next | stop | miss
  deriving DecidableEq

def wantExpose (l : LoadInst) : LoadInst := { l with second.needExpose := true }

def wantValidate (l : LoadInst) : LoadInst := { l with second.needValidate := true }

/-- The perfect predictor's unsafe variant replaces every validation. -/
def exposeAlways (c : LsqConfig) (l : LoadInst) : LoadInst :=
  if c.perfectUnsafe then { l with second.needExpose := true, second.needValidate := false } else l

def postKind (l : LoadInst) : SendKind := if l.second.needExpose then .expose else .validate

/-- The packets are accepted; an expose counts as completed at once. -/
def postSent (l : LoadInst) : LoadInst :=
  { l with
    second := { l.second with
      needExpose := false
      needValidate := false
      needDeletePostReq := false
      exposeCompleted := l.second.exposeCompleted || l.second.needExpose
      exposeSent := true
      post := some ⟨l.second.needValidate, true, l.acc.isSplit⟩ }
    sends := l.sends ++ if l.acc.isSplit then [l.postKind, l.postKind] else [l.postKind] }

/-- The packets are made and offered to the cache, which takes or refuses each. -/
def sendPost (c : LsqConfig) (l : LoadInst) (fst snd : Bool) : Option LoadInst :=
  let l := l.exposeAlways c
  if l.second.needExpose == l.second.needValidate then none
  else if !fst then some l
  else if l.acc.isSplit && !snd then
    some { l with
      second.staleResponses := l.second.staleResponses + 1
      sends := l.sends ++ [l.postKind] }
  else some l.postSent

/-- Expose or validate a load whose oblivious request hit. -/
def chooseSecond (c : LsqConfig) (l : LoadInst) (fst snd : Bool) : Option (LoadInst × Flow) :=
  if c.exposeOnly then (l.wantExpose.sendPost c fst snd).map (·, .next)
  else if c.disable2ndld then
    some ({ l with second := { l.second with
      needDeletePostReq := true, exposeSent := true, exposeCompleted := true } }, .stop)
  else if l.obl.hits.l0 || l.second.needExposeOnly then
    (l.wantExpose.sendPost c fst snd).map (·, .next)
  else (l.wantValidate.sendPost c fst snd).map (·, .next)

def squashLoad (l : LoadInst) : LoadInst :=
  { l.goto .toBeSquash with wb.doneWB := false, wb.doneWBByOblS := false }

/-- A load that needs its second access and is safe. -/
def exposeSafe (c : LsqConfig) (l : LoadInst) (fst snd : Bool) : Option (LoadInst × Flow) :=
  if l.committed || !c.enableMLDOM then none
  else if !l.obl.tlbHit then
    if c.tlbDefense == 3 then some (l.squashLoad, .miss) else none
  else match l.mldomState with
    | .AB =>
      if !l.obl.complete then none
      else if !l.obl.hits.any then if l.obl.valPredOnMiss then some (l.squashLoad, .miss) else none
      else ((l.goto .ABC).updateLocationPredictor c .spec).chooseSecond c fst snd
    | .A => ((l.goto .AC).wantValidate.sendPost c fst snd).map (·, .next)
    | .Ab =>
      if !l.obl.pktDelayedWB || !l.obl.hits.any then none
      else
        (if l.wb.doneWB then some (l.goto .AbC) else (l.goto .AbC).writeback c .oblS).bind fun l =>
          ((l.wroteBack true).updateLocationPredictor c .spec).chooseSecond c fst snd
    | st =>
      if l.second.needExpose || l.second.needValidate then (l.sendPost c fst snd).map (·, .next)
      else if st = .toBeSquash then some (l, .stop)
      else none

/-- A load that got its data from a store updates the predictor here. -/
def trainForwarded (c : LsqConfig) (ready : Bool) (l : LoadInst) : LoadInst :=
  if l.wb.executed && l.ifLdStFwd && ready then l.updateLocationPredictor c .forwarded else l

/-- A load with a fault does not wait for a second access. -/
def skipSecond (l : LoadInst) : LoadInst :=
  { l with
    second.exposeSent := true
    second.exposeCompleted := true
    wb.sentToCommit := l.wb.sentToCommit || l.wb.executed }

/-- The body of the loop of `exposeLoads`, for a load other than `oblsMissInst`. -/
def exposeLoad (c : LsqConfig) (ready : Bool) (l : LoadInst) (fst snd : Bool) :
    Option (LoadInst × Flow) :=
  if l.squashed then some (l, .next)
  else
    let l := l.trainForwarded c ready
    if !l.second.needPostFetch || l.second.exposeSent then some (l, .next)
    else if l.fault.isSome then some (l.skipSecond, .next)
    else if !ready then some (l, .next)
    else l.exposeSafe c fst snd

end LoadInst

end SdoCore
