import SdoCore.Pipeline.Iew
import SdoCore.RobRun

/-! The commit stage of one thread (`commit_impl.hh`): the squashes it starts itself, the
squash signal of IEW and the delayed squashes of the reorder buffer, insertion, commitment
from the head, and the marking of completed instructions. -/

namespace SdoCore

inductive CommitStatus
  | Running | Idle | ROBSquashing | TrapPending | FetchTrapPending | SquashAfterPending
  deriving DecidableEq

/-- What IEW and fetch see of commit one cycle later. -/
structure CommitInfo where
  squash : Bool := false
  robSquashing : Bool := false
  doneSeqNum : Nat := 0
  mispredictInst : Option Nat := none
  branchTaken : Bool := false
  squashInst : Option Nat := none
  pc : PCState := {}
  deriving DecidableEq

/-- How far the squash an instruction asked for has come. -/
inductive Debt
  | paid | owed | serving
  deriving DecidableEq

/-- History, which no modelled function reads: for which instructions a squash at or
before them has been started since they executed, which squashes are still owed, and
what each delayed squash was for. -/
structure History where
  squashSeen : Nat → Bool
  debt : Nat → Debt
  pendingFor : Nat → List SquashCause

structure Core where
  rob : Rob
  status : CommitStatus
  (youngestSeqNum lastCommitedSeqNum globalSeqNum : Nat)
  pc : PCState
  (trapSquash tcSquash trapInFlight : Bool)
  squashAfterInst : Option Nat
  fromIEW : IewStruct
  toIEW : CommitInfo
  memDepViolator : Option Nat
  oblsMissInst : Option Nat
  /-- what IEW was given while commit, waiting for a trap, inserted nothing -/
  notInROB : List Nat
  hist : History

/-- What the rest of the machine decides for the commit stage in one cycle. -/
structure CommitIn where
  (trapEvent tcEvent interrupt hasStoresToWB : Bool := false)
  renamed : List (Nat × DynInst) := []
  /-- draining, or an interrupt just enabled -/
  squashAfter : Nat → Bool := fun _ => false
  /-- a PC event moved the program counter -/
  stopAfter : Nat → Bool := fun _ => false

namespace Core

/-! ## Starting a squash -/

/-- Squash what is younger than `n`, for the instruction `x` if there is one. -/
def startSquash (c : Config) (s : Core) (n : Nat) (x : Option Nat) (info : CommitInfo) :
    Option Core :=
  (s.rob.squash c n).map fun r =>
    { s with
      rob := r
      status := .ROBSquashing
      toIEW := { info with squash := true, robSquashing := true, doneSeqNum := n }
      hist := { s.hist with
        squashSeen := fun y => decide (n ≤ y) || s.hist.squashSeen y
        debt := fun y => if x = some y ∧ s.hist.debt y = .owed then .serving else s.hist.debt y } }

/-- The bound of a squash of everything. -/
def allBound (s : Core) : Nat :=
  match s.rob.instList with
  | [] => s.lastCommitedSeqNum
  | h :: _ => h - 1

def squashAll (c : Config) (s : Core) (squashInst : Option Nat) : Option Core :=
  startSquash c { s with youngestSeqNum := s.lastCommitedSeqNum } s.allBound none
    { squashInst := squashInst, pc := s.pc }

def squashFromTrap (c : Config) (s : Core) : Option Core :=
  (s.squashAll c none).map fun s => { s with trapInFlight := false, trapSquash := false }

def squashFromTC (c : Config) (s : Core) : Option Core :=
  if s.trapInFlight then none
  else (s.squashAll c none).map fun s => { s with tcSquash := false }

def squashFromSquashAfter (c : Config) (s : Core) : Option Core :=
  (s.squashAll c s.squashAfterInst).map fun s => { s with squashAfterInst := none }

/-- The squashes commit starts itself. -/
def ownSquash (c : Config) (s : Core) : Option Core :=
  if s.trapSquash then if s.tcSquash then none else s.squashFromTrap c
  else if s.tcSquash then if s.status = .TrapPending then none else s.squashFromTC c
  else if s.status = .SquashAfterPending then s.squashFromSquashAfter c
  else some s

def findInst (s : Core) (n : Nat) : Option Nat := s.rob.instList.find? (· == n)

def handleSquashSignalFromIEW (c : Config) (s : Core) (sig : IewSquash) : Option Core :=
  let n := if sig.includeSquashInst then sig.squashedSeqNum - 1 else sig.squashedSeqNum
  let uncond := sig.mispredictInst.any fun x => (s.rob.insts x).staticInst.isUncondCtrl
  (startSquash c { s with youngestSeqNum := n } n (some sig.instCausingSquash)
    { mispredictInst := sig.mispredictInst, branchTaken := sig.branchTaken || uncond, pc := sig.pc
      }).map fun t => { t with toIEW := { t.toIEW with squashInst := t.findInst n } }

def handleSquashSignalFromROB (c : Config) (s : Core) (x : Nat) : Option Core :=
  let i := s.rob.insts x
  if !i.staticInst.isControl && !i.staticInst.isLoad then none
  else
    let n := if i.staticInst.isLoad then x - 1 else x
    let info : CommitInfo :=
      if i.staticInst.isControl then
        { mispredictInst := some x
          branchTaken := i.status.pc.branching || i.staticInst.isUncondCtrl
          pc := i.staticInst.advancePC i.status.pc }
      else { pc := i.status.pc }
    (startSquash c { s with youngestSeqNum := n } n (some x) info).map fun t =>
      { t with toIEW := { t.toIEW with squashInst := t.findInst n } }

/-! ## The lazy scheme -/

/-- What commit does about squashes that were asked for. -/
inductive SquashChoice
  | nothing
  | delay (sig : IewSquash)
  | fromIEW (sig : IewSquash)
  | fromROB (x : Nat)
  deriving DecidableEq

/-- The signal is for an instruction of the buffer and no trap is waited for. -/
def takesSignal (s : Core) (n : Nat) : Bool :=
  decide (s.status ≠ .TrapPending) && decide (n ≤ s.youngestSeqNum)

def resolvedChoice (s : Core) : SquashChoice :=
  match s.rob.getResolvedPendingSquashInst with
  | some x => if s.takesSignal x then .fromROB x else .nothing
  | none => .nothing

/-- With STT a squash waits until the arguments of its instruction are untainted; a new
signal goes before a delayed one. -/
def squashChoice (c : Config) (s : Core) : SquashChoice :=
  match s.fromIEW.squash with
  | some sig =>
    if s.takesSignal sig.squashedSeqNum then
      if c.stt && c.impChannel && (s.rob.insts sig.instCausingSquash).isArgsTainted then .delay sig
      else .fromIEW sig
    else if c.stt then s.resolvedChoice else .nothing
  | none => if c.stt then s.resolvedChoice else .nothing

def setPending (s : Core) (x : Nat) (b : Bool) : Core :=
  { s with rob := s.rob.modify x fun i =>
      { i with status := { i.status with hasPendingSquash := b } } }

def applyChoice (c : Config) (s : Core) : SquashChoice → Option Core
  | .nothing => some s
  | .delay sig =>
    let s := s.setPending sig.instCausingSquash true
    some { s with hist := { s.hist with
      pendingFor := Function.update s.hist.pendingFor sig.instCausingSquash
        (sig.cause :: s.hist.pendingFor sig.instCausingSquash) } }
  | .fromIEW sig => s.handleSquashSignalFromIEW c sig
  | .fromROB x => (s.setPending x false).handleSquashSignalFromROB c x

/-! ## Insertion -/

/-- Rename hands over a new instruction: nothing has happened to it yet. Fetch predicted the
next PC of one that does not write it, unless it is the no-op of a fault. -/
def fresh (inst : DynInst) : Bool :=
  !inst.committed && inst.srcs.all (·.argProducer.isNone) &&
    inst.status == { pc := inst.status.pc, fault := inst.status.fault } &&
    !inst.robUpdateVisibleState && !inst.prevInstsCompleted && !inst.prevBrsResolved &&
    !inst.prevInstsCommitted && !inst.prevBrsCommitted && !inst.isUnsquashable &&
    !inst.isAddrTainted && !inst.isArgsTainted && !inst.isDestTainted && !inst.taintPropDone &&
    if inst.status.fault then inst.isFetchFault && inst.predPC == inst.status.pc
    else inst.staticInst.isControl || !inst.mispredicted

/-- An instruction that is not inserted goes to IEW nevertheless, unless it is squashed. -/
def leaveOut (s : Core) (x : Nat) (inst : DynInst) : Core :=
  if inst.squashed then { s with globalSeqNum := x }
  else { s with
    rob := { s.rob with insts := fun y => if y = x then inst else s.rob.insts y }
    notInROB := s.notInROB ++ [x]
    globalSeqNum := x }

def getInsts (c : Config) (s : Core) : List (Nat × DynInst) → Option Core
  | [] => some s
  | (x, inst) :: rest =>
    if s.globalSeqNum < x ∧ fresh inst = true then
      if !inst.squashed && s.status != .ROBSquashing && s.status != .TrapPending then
        (s.rob.insertInst c x inst).bind fun r =>
          getInsts c { s with rob := r, youngestSeqNum := x, globalSeqNum := x } rest
      else getInsts c (s.leaveOut x inst) rest
    else none

/-! ## Commitment -/

/-- `getCommittingThread` finds the thread. -/
def canCommitInsts (s : Core) : Bool :=
  s.status = .Running || s.status = .Idle || s.status = .FetchTrapPending

def trap (s : Core) : Core := { s with status := .TrapPending, trapInFlight := true }

/-- Whether the head retired. -/
def commitHead (c : Config) (i : CommitIn) (s : Core) (h n : Nat) : Option (Core × Bool) :=
  let inst := s.rob.insts h
  let static := inst.staticInst
  if !inst.status.executed then
    if static.isNonSpeculative || static.isStoreConditional || static.isMemBarrier ||
        static.isWriteBarrier || (static.isLoad && inst.status.strictlyOrdered) then
      if 0 < n || i.hasStoresToWB then some (s, false)
      else
        -- IEW is asked to execute it; until then it must not commit
        some ({ s with rob := s.rob.modify h fun j =>
          { j with status := { j.status with canCommit := false } } }, false)
    else none
  else if inst.status.fault then
    if i.hasStoresToWB || 0 < n then some (s, false) else some (s.trap, false)
  else if c.enableMLDOM && static.isLoad && !inst.status.readyToExpose then some (s, false)
  else if c.enableMLDOM && static.isLoad && !inst.status.doneLocPredUpdate then none
  else s.rob.retireHead.map fun r => ({ s with rob := r }, true)

/-- After the head `h` has retired. -/
def afterCommit (i : CommitIn) (s : Core) (h : Nat) (inst : DynInst) : Core :=
  let s := { s with
    pc := inst.staticInst.advancePC inst.status.pc
    lastCommitedSeqNum := h
    toIEW := { s.toIEW with doneSeqNum := h } }
  if inst.staticInst.isSquashAfter || i.squashAfter h then
    { s with status := .SquashAfterPending, squashAfterInst := some h }
  else s

/-- The loop of `commitInsts`; every turn but the last retires the head. -/
def commitLoop (c : Config) (i : CommitIn) (s : Core) (n : Nat) : Nat → Option Core
  | 0 => some s
  | fuel + 1 =>
    if n < c.commitWidth then
      let s := if i.interrupt && s.rob.instList.isEmpty then s.trap else s
      match s.rob.instList with
      | [] => some s
      | h :: _ =>
        if !s.canCommitInsts || !s.rob.isHeadReady then some s
        else if (s.rob.insts h).squashed then
          s.rob.retireHead.bind fun r => commitLoop c i { s with rob := r } n fuel
        else
          let inst := s.rob.insts h
          (commitHead c i { s with pc := inst.status.pc } h n).bind fun (t, success) =>
            if success then
              let t := t.afterCommit i h inst
              if i.stopAfter h then some t else commitLoop c i t (n + 1) fuel
            else some t
    else some s

def commitInsts (c : Config) (s : Core) (i : CommitIn) : Option Core :=
  commitLoop c i s 0 (s.rob.instList.length + 1)

/-! ## The stage -/

def markCompleted (s : Core) : List Nat → Core
  | [] => s
  | x :: xs =>
    markCompleted (if (s.rob.insts x).squashed then s
      else { s with rob := s.rob.modify x fun i =>
        { i with status := { i.status with canCommit := true } } }) xs

def markCompletedInsts (c : Config) (s : Core) : Core :=
  let s := s.markCompleted s.fromIEW.insts
  { s with rob := s.rob.endCycle c }

/-- The start of `tick`: go on with a squash. -/
def continueSquash (c : Config) (s : Core) : Option Core :=
  if s.status = .ROBSquashing then
    if s.rob.doneSquashing then some { s with status := .Running }
    else (s.rob.doSquash c).map fun r =>
      { s with rob := r, toIEW := { s.toIEW with robSquashing := true } }
  else some s

/-- The events that reach commit between two cycles. -/
def commitEvents (s : Core) (i : CommitIn) : Option Core :=
  if (i.trapEvent && !s.trapInFlight) || (i.tcEvent && s.trapInFlight) then none
  else some { s with
    trapSquash := s.trapSquash || i.trapEvent, tcSquash := s.tcSquash || i.tcEvent }

/-- Up to the choice about the squashes that were asked for. -/
def beforeChoice (c : Config) (s : Core) (i : CommitIn) : Option Core :=
  (s.commitEvents i).bind fun s =>
    ({ s with toIEW := {} }.continueSquash c).bind fun s => s.ownSquash c

def afterChoice (c : Config) (s : Core) (i : CommitIn) : Option Core :=
  (if s.status = .ROBSquashing then some s
    else (s.getInsts c (i.renamed.take c.renameWidth)).bind fun s => s.commitInsts c i).map fun s =>
    s.markCompletedInsts c

def commitTick (c : Config) (s : Core) (i : CommitIn) : Option Core :=
  (s.beforeChoice c i).bind fun s =>
    (s.applyChoice c (s.squashChoice c)).bind fun s => s.afterChoice c i

end Core

end SdoCore
