import Mathlib.Logic.Function.Basic
import SdoCore.Inst
import SdoCore.Lib.Sweep
import SdoCore.Lib.Machine

/-! One thread's reorder buffer (`rob_impl.hh`): insertion, which links every
source to its producer, retirement, which unlinks, squashing at most
`squashWidth` instructions per cycle from the tail, the visibility walk and the
taint pass. Assertions of the source make the operation `none`. -/

namespace SdoCore

open Function (update)

/-- The configuration of the core the modelled stages read. -/
structure Config where
  (stt impChannel isFuturistic loadInExec isInvisibleSpec : Bool)
  squashWidth : Nat
  numEntries : Nat
  enableMLDOM : Bool := true
  renameWidth : Nat := 8
  commitWidth : Nat := 8
  checkLoads : Bool := true
  depCheckShift : Nat := 4
  moreTransTypes : Nat := 0
  deriving DecidableEq

/-- `insts` holds every instruction ever created, so that a pointer to a retired
one can still be followed; `squashIt = none` is `instList.end()`. -/
structure Rob where
  insts : Nat → DynInst
  instList : List Nat
  squashIt : Option Nat
  squashedSeqNum : Nat
  doneSquashing : Bool

namespace Rob

/-- Change one instruction in place. -/
def modify (r : Rob) (x : Nat) (f : DynInst → DynInst) : Rob :=
  { r with insts := update r.insts x (f (r.insts x)) }

/-! ## Insertion -/

/-- The inner loops of `insertInst` for one older instruction and one source. The
test on the index is meant to leave out the zero register. -/
def linkSrc (p : Nat) (prevInst : DynInst) (s : SrcReg) : SrcReg :=
  if s.srcRegIdx.regIdx = 16 then s
  else if prevInst.writesPhys s.renamedSrcRegIdx then { s with argProducer := some p }
  else s

/-- Later matches overwrite earlier ones. -/
def linkSrcs (r : Rob) (srcs : List SrcReg) : List SrcReg :=
  r.instList.foldl (fun srcs p => srcs.map (linkSrc p (r.insts p))) srcs

def insertInst (c : Config) (r : Rob) (x : Nat) (inst : DynInst) : Option Rob :=
  if r.instList.length ≠ c.numEntries then
    some { r with
      insts := update r.insts x { inst with srcs := r.linkSrcs inst.srcs, inROB := true }
      instList := r.instList ++ [x] }
  else none

/-! ## Retirement -/

def clearArgProducer (h : Nat) (i : DynInst) : DynInst :=
  { i with srcs := i.srcs.map fun s =>
      if s.argProducer = some h then { s with argProducer := none } else s }

def clearArgProducers (i : DynInst) : DynInst :=
  { i with srcs := i.srcs.map fun s => { s with argProducer := none } }

/-- The unlinking loop starts one past the new head: the head keeps its link. -/
def retireHead (r : Rob) : Option Rob :=
  match r.instList with
  | [] => none
  | h :: rest =>
    if (r.insts h).readyToCommit then
      let insts := update r.insts h { r.insts h with inROB := false, committed := true }
      let insts := Lib.sweep (fun m y => clearArgProducer h (m y)) insts rest.tail
      let insts := update insts h (clearArgProducers (insts h))
      some { r with insts := insts, instList := rest }
    else none

def isHeadReady (r : Rob) : Bool :=
  match r.instList with
  | [] => false
  | h :: _ => (r.insts h).readyToCommit && (r.insts h).isLoadSafeToCommit

/-! ## Squashing -/

/-- Marked squashed, and ready to commit so that it can drain out. -/
def squashInst (i : DynInst) : DynInst :=
  { i with
    squashed := true
    status := { i.status with hasPendingSquash := false, canCommit := true } }

/-- The instruction before `k` in the list. -/
def prevOf (k : Nat) : List Nat → Option Nat
  | a :: b :: l => if b = k then some a else prevOf k (b :: l)
  | _ => none

def finishSquash (r : Rob) : Rob := { r with squashIt := none, doneSquashing := true }

/-- The loop of `doSquash`, and the test after it; `n` is the number of
instructions it may still squash this cycle. -/
def doSquashLoop (r : Rob) : Nat → Rob
  | 0 =>
    match r.squashIt with
    | some k => if k ≤ r.squashedSeqNum then r.finishSquash else r
    | none => r
  | n + 1 =>
    match r.squashIt with
    | some k =>
      if r.squashedSeqNum < k then
        let r := r.modify k squashInst
        if r.instList.head? = some k then r.finishSquash
        else doSquashLoop { r with squashIt := prevOf k r.instList } n
      else r.finishSquash
    | none => r

def doSquash (c : Config) (r : Rob) : Option Rob :=
  match r.squashIt with
  | none => none
  | some k =>
    if k < r.squashedSeqNum then some r.finishSquash
    else some (r.doSquashLoop c.squashWidth)

/-- Squash everything younger than `n`. -/
def squash (c : Config) (r : Rob) (n : Nat) : Option Rob :=
  match r.instList.getLast? with
  | none => some r
  | some t =>
    doSquash c { r with doneSquashing := false, squashedSeqNum := n, squashIt := some t }

/-- Younger than the bound of the squash in progress. -/
def doomed (r : Rob) (x : Nat) : Bool := !r.doneSquashing && decide (r.squashedSeqNum < x)

/-- Squashed, or about to be. -/
def gone (r : Rob) (x : Nat) : Bool := (r.insts x).squashed || r.doomed x

/-! ## Visibility -/

/-- What `updateVisibleState` carries from the head towards the tail. -/
structure Prev where
  (instsComplete brsResolved instsCommitted brsCommitted : Bool)
  deriving DecidableEq

/-- The sticky flags, set from the state of the older instructions. -/
def setPrevFlags (p : Prev) (i : DynInst) : DynInst :=
  { i with
    prevInstsCompleted := i.prevInstsCompleted || p.instsComplete
    prevBrsResolved := i.prevBrsResolved || p.brsResolved
    prevInstsCommitted := i.prevInstsCommitted || p.instsCommitted
    prevBrsCommitted := i.prevBrsCommitted || p.brsCommitted }

/-- The visibility point: the older branches are resolved, or under the
futuristic threat model all older instructions are complete. -/
def atVisibilityPoint (c : Config) (i : DynInst) : Bool :=
  if !c.loadInExec || c.isInvisibleSpec then
    (c.isFuturistic && i.prevInstsCompleted) || (!c.isFuturistic && i.prevBrsResolved)
  else true

/-- What an instruction lets the younger ones see. -/
def Prev.after (p : Prev) (i : DynInst) : Prev where
  instsComplete :=
    p.instsComplete
      && !(i.staticInst.isNonSpeculative || i.staticInst.isStoreConditional
        || i.staticInst.isMemBarrier || i.staticInst.isWriteBarrier
        || (i.staticInst.isLoad && i.status.strictlyOrdered))
      && !(!(i.readyToCommit && i.isLoadSafeToCommit) || i.status.fault || i.squashed)
  brsResolved :=
    p.brsResolved
      && !(i.staticInst.isControl && (!i.readyToCommit || i.status.fault || i.squashed))
  instsCommitted := false
  brsCommitted := p.brsCommitted && !i.staticInst.isControl

def markVisible (c : Config) (p : Prev) (i : DynInst) : DynInst :=
  let i := setPrevFlags p { i with robUpdateVisibleState := true }
  { i with isUnsquashable := atVisibilityPoint c i }

def visibleWalk (c : Config) (p : Prev) (m : Nat → DynInst) :
    List Nat → Nat → DynInst
  | [] => m
  | x :: xs =>
    if !p.instsComplete && !p.brsResolved then
      update m x { m x with robUpdateVisibleState := true }
    else
      visibleWalk c (p.after (m x)) (update m x (markVisible c p (m x))) xs

def updateVisibleState (c : Config) (r : Rob) : Rob :=
  { r with insts := visibleWalk c ⟨true, true, true, true⟩ r.insts r.instList }

/-! ## Taint -/

/-- A link whose target is tainted and still uncommitted. -/
def taintedLink (m : Nat → DynInst) (s : SrcReg) : Bool :=
  match s.argProducer with
  | some p => (m p).isDestTainted && !(m p).committed
  | none => false

def explicitFlow (m : Nat → DynInst) (i : DynInst) : Bool := i.srcs.any (taintedLink m)

/-- The first source of a store is its data. -/
def addressFlow (m : Nat → DynInst) (i : DynInst) : Bool :=
  if i.staticInst.isMemRef then
    if i.staticInst.isStore then i.srcs.tail.any (taintedLink m) else i.srcs.any (taintedLink m)
  else false

def taintInst (m : Nat → DynInst) (x : Nat) : DynInst :=
  let i := { m x with
    hasExplicitFlow := explicitFlow m (m x)
    isAddrTainted := addressFlow m (m x)
    isArgsTainted := explicitFlow m (m x)
    taintPropDone := true
    isDestTainted := explicitFlow m (m x) }
  if i.isAccess && !i.isUnsquashable then { i with isDestTainted := true } else i

def computeTaint (r : Rob) : Rob := { r with insts := Lib.sweep taintInst r.insts r.instList }

/-- The oldest instruction whose delayed squash may now be performed. -/
def getResolvedPendingSquashInst (r : Rob) : Option Nat :=
  r.instList.find? fun x =>
    (r.insts x).status.hasPendingSquash && !(r.insts x).isArgsTainted && !(r.insts x).squashed

end Rob

end SdoCore
