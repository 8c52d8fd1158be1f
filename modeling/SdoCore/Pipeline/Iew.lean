import Mathlib.Algebra.Ring.Nat
import SdoCore.Rob

/-! The IEW stage as far as it raises squashes (`iew_impl.hh`): dispatch, what a squash
from commit does to the queues, the search for memory-order violations of the load/store
queue, and `executeInsts`, which of all causes of a cycle forwards one to commit.

Which instructions execute, and how their execution ends, is the choice of the units
around the stage and comes in as an argument; `none` is a failed assertion or a choice
those units cannot make. -/

namespace SdoCore

/-- Why a squash is asked for; for a violation, the access that found it. -/
inductive SquashCause
  | mispredict
  | memOrder (access : Nat)
  | oblsMiss
  deriving DecidableEq

/-- The squash fields of `IEWStruct`. Only `cause` is not in the source. -/
structure IewSquash where
  squashedSeqNum : Nat
  pc : PCState
  mispredictInst : Option Nat
  instCausingSquash : Nat
  branchTaken : Bool
  includeSquashInst : Bool
  cause : SquashCause
  deriving DecidableEq

/-- What commit sees of IEW one cycle later. -/
structure IewStruct where
  insts : List Nat := []
  squash : Option IewSquash := none
  deriving DecidableEq

/-- The stage during one cycle. `raised` and `trained` are its history: every cause it met,
and the pairs it passed to the memory dependence unit. -/
structure Iew where
  rob : Rob
  memDepViolator : Option Nat
  oblsMissInst : Option Nat
  fetchRedirect : Bool := false
  squash : Option IewSquash := none
  raised : List (Nat × SquashCause) := []
  trained : List (Nat × Nat) := []

namespace Iew

def setStatus (s : Iew) (x : Nat) (f : Status → Status) : Iew :=
  { s with rob := s.rob.modify x fun i => { i with status := f i.status } }

/-! ## Squash requests -/

def squashDueToBranch (s : Iew) (x : Nat) : Iew :=
  let i := s.rob.insts x
  if s.squash.all (x < ·.squashedSeqNum) then
    { s with squash := some {
        squashedSeqNum := x
        pc := i.staticInst.advancePC i.status.pc
        mispredictInst := some x
        instCausingSquash := x
        branchTaken := i.status.pc.branching
        includeSquashInst := false
        cause := .mispredict } }
  else s

/-- The body `squashDueToMemOrder` and `squashDueToOblsMiss` share: the load itself is
squashed too, so it also takes over from a branch of the same number. -/
def squashLoad (s : Iew) (x : Nat) (cause : SquashCause) : Iew :=
  if s.squash.all (x ≤ ·.squashedSeqNum) then
    { s with squash := some {
        squashedSeqNum := x
        pc := (s.rob.insts x).status.pc
        mispredictInst := none
        instCausingSquash := x
        branchTaken := s.squash.any (·.branchTaken)
        includeSquashInst := true
        cause := cause } }
  else s

def squashDueToMemOrder (s : Iew) (x access : Nat) : Iew := s.squashLoad x (.memOrder access)

def squashDueToOblsMiss (s : Iew) (x : Nat) : Iew := s.squashLoad x .oblsMiss

/-! ## Memory order -/

/-- The last byte of an access, in 64-bit arithmetic. -/
def lastByte (a : Status) : Nat := (a.effAddr + a.effSize + (2 ^ 64 - 1)) % 2 ^ 64

/-- The accesses share a block of `2 ^ depCheckShift` bytes. -/
def overlaps (c : Config) (a b : Status) : Bool :=
  decide (b.effAddr >>> c.depCheckShift ≤ lastByte a >>> c.depCheckShift) &&
    decide (a.effAddr >>> c.depCheckShift ≤ lastByte b >>> c.depCheckShift)

/-- The loads behind `x` in the load queue. -/
def loadsAfter (r : Rob) (x : Nat) : List Nat :=
  r.instList.filter fun y => x < y && (r.insts y).staticInst.isLoad && (r.insts y).status.inLSQ

/-- Whether a violation was found. A store reports the oldest load that overlaps it, a
load only one that has been hit by an external snoop. -/
def checkViolations (c : Config) (x : Nat) (s : Iew) : List Nat → Iew × Bool
  | [] => (s, false)
  | l :: ls =>
    let inst := s.rob.insts x
    let ld := (s.rob.insts l).status
    if !ld.effAddrValid || ld.strictlyOrdered || ld.fenceDelay then checkViolations c x s ls
    else if overlaps c inst.status ld then
      if inst.staticInst.isLoad then
        if ld.hitExternalSnoop && s.memDepViolator.all (l < ·) then
          ({ s with memDepViolator := some l }, true)
        else
          checkViolations c x (s.setStatus l fun st => { st with possibleLoadViolation := true }) ls
      else if s.memDepViolator.any (· < l) then (s, false)
      else ({ s with memDepViolator := some l }, true)
    else checkViolations c x s ls

/-! ## Execution -/

/-- How the execution of an instruction ends: a memory reference is put off, or gives a
fault or is predicated off, or has its address; anything else has its next PC. One that
comes with a fault is not executed and keeps it. -/
inductive ExecResult
  | deferred
  | failed (executed fault : Bool)
  | access (effAddr effSize : Nat)
  | computed (pc : PCState) (fault : Bool)
  deriving DecidableEq

structure Exec where
  inst : Nat
  result : ExecResult
  deriving DecidableEq

/-- The load does not count as mispredicted before it has its value. -/
def foundMispredicted (i : DynInst) : Bool :=
  i.mispredicted && !(!i.status.executed && i.staticInst.isLoad)

def raise (s : Iew) (x : Nat) (cause : SquashCause) : Iew :=
  { s with raised := s.raised ++ [(x, cause)] }

/-- What `executeInsts` does after the execution of `x`. -/
def checkSquash (s : Iew) (x : Nat) : Option Iew :=
  let i := s.rob.insts x
  let s := if foundMispredicted i then s.raise x .mispredict else s
  if !s.fetchRedirect || s.squash.all (x < ·.squashedSeqNum) then
    if foundMispredicted i then some ({ s with fetchRedirect := true }.squashDueToBranch x)
    else match s.memDepViolator, s.oblsMissInst with
      | some v, _ =>
        if i.staticInst.isMemRef then
          let s := s.raise v (.memOrder x)
          some ({ s with
            fetchRedirect := true
            memDepViolator := none
            trained := s.trained ++ [(x, v)] }.squashDueToMemOrder v x)
        else none
      | none, some o =>
        let s := s.raise o .oblsMiss
        some ({ s with fetchRedirect := true, oblsMissInst := none }.squashDueToOblsMiss o)
      | none, none => some s
  else match s.memDepViolator with
    -- an older squash is under way: the violation is dropped
    | some v =>
      if i.staticInst.isMemRef then
        let s := s.raise v (.memOrder x)
        some { s with memDepViolator := none }
      else none
    | none => some s

def executeLoad (c : Config) (s : Iew) (x effAddr effSize : Nat) : Iew :=
  let s := s.setStatus x fun st =>
    { st with effAddr := effAddr, effSize := effSize, effAddrValid := true }
  if c.checkLoads then (checkViolations c x s (loadsAfter s.rob x)).1 else s

/-- A store conditional marks itself as executed later, unless it found a violation. -/
def executeStore (c : Config) (s : Iew) (x effAddr effSize : Nat) : Iew :=
  let s := s.setStatus x fun st =>
    { st with effAddr := effAddr, effSize := effSize, effAddrValid := true }
  let (s, violation) := checkViolations c x s (loadsAfter s.rob x)
  if violation || !(s.rob.insts x).staticInst.isStoreConditional then
    s.setStatus x fun st => { st with executed := true }
  else s

def executeInst (c : Config) (s : Iew) (e : Exec) : Option Iew :=
  let i := s.rob.insts e.inst
  if i.squashed then
    some (s.setStatus e.inst fun st => { st with executed := true, canCommit := true })
  else match e.result with
    | .deferred => if i.staticInst.isMemRef then some s else none
    | .failed ex fault =>
      if i.staticInst.isMemRef then
        (s.setStatus e.inst fun st => { st with executed := ex, fault := fault }).checkSquash e.inst
      else none
    | .access a n =>
      if i.staticInst.isLoad then (s.executeLoad c e.inst a n).checkSquash e.inst
      else if i.staticInst.isStore then (s.executeStore c e.inst a n).checkSquash e.inst
      else none
    | .computed pc fault =>
      if i.staticInst.isMemRef then none
      else
        let pc := if i.staticInst.isControl then pc else i.status.pc
        (s.setStatus e.inst fun st =>
          { st with executed := true, fault := st.fault || fault, pc := pc }).checkSquash e.inst

/-- The instruction queue issues an instruction that is dispatched and has not executed;
it is not ready to commit yet, unless it is being squashed. -/
def issued (r : Rob) (x : Nat) : Bool :=
  let i := r.insts x
  decide (x ∈ r.instList) && i.status.dispatched && !i.status.executed &&
    (!i.status.canCommit || r.gone x)

def executeAll (c : Config) (s : Iew) : List Exec → Option Iew
  | [] => some s
  | e :: es =>
    if issued s.rob e.inst then (s.executeInst c e).bind fun s => executeAll c s es else none

/-- The loop after the instructions: a miss that no older squash covers. -/
def takeOblsMiss (s : Iew) : Iew :=
  match s.oblsMissInst with
  | none => s
  | some o =>
    let s := { s.raise o .oblsMiss with oblsMissInst := none }
    if s.squash.all (o < ·.squashedSeqNum) then
      { s with fetchRedirect := true }.squashDueToOblsMiss o
    else s

/-- `exposeLoads` finds the missing load among those it has still to expose. -/
def missable (r : Rob) (o : Nat) : Bool :=
  let i := r.insts o
  decide (o ∈ r.instList) && i.staticInst.isLoad && i.status.inLSQ && !i.squashed &&
    i.status.needPostFetch && !i.status.exposeSent && !i.status.exposeCompleted &&
    !i.status.fault && i.status.readyToExpose

def exposeLoads (s : Iew) : Option Nat → Option Iew
  | none => some s
  | some o =>
    if missable s.rob o then
      some (if s.oblsMissInst.all (o < ·) then { s with oblsMissInst := some o } else s)
    else none

def executeInsts (c : Config) (s : Iew) (miss : Option Nat) (es : List Exec) : Option Iew :=
  ({ s with fetchRedirect := false }.exposeLoads miss).bind fun s =>
    (s.executeAll c es).map takeOblsMiss

/-! ## Dispatch and squashes from commit -/

/-- Instructions that must not execute speculatively are ready to commit at once, so that
commit can ask for their execution. -/
def dispatchStatus (i : StaticInst) (s : Status) : Status :=
  let s := { s with dispatched := true }
  if i.isLoad then { s with inLSQ := true, canCommit := s.canCommit || i.isNonSpeculative }
  else if i.isStore then
    { s with inLSQ := true, canCommit := s.canCommit || i.isStoreConditional || i.isNonSpeculative }
  else if i.isMemBarrier || i.isWriteBarrier then { s with canCommit := true }
  else if i.isNop then { s with executed := true, canCommit := true }
  else { s with canCommit := s.canCommit || i.isNonSpeculative }

/-- What a squash in progress will take was thrown away before dispatch. -/
def dispatchInst (s : Iew) (x : Nat) : Option Iew :=
  let i := s.rob.insts x
  if x ∉ s.rob.instList ∨ i.status.dispatched ∨ s.rob.doomed x then none
  else if i.squashed then some s
  else some (s.setStatus x (dispatchStatus i.staticInst))

def dispatchInsts (s : Iew) : List Nat → Option Iew
  | [] => some s
  | x :: xs => (s.dispatchInst x).bind fun s => dispatchInsts s xs

/-- The queues squash what is younger than `n`: what is in the load/store queue leaves it
and is marked, what waits in the instruction queue (`iq`) is marked and may drain. -/
def squashInQueues (n : Nat) (iq : List Nat) (x : Nat) (i : DynInst) : DynInst :=
  if n < x then
    { i with
      squashed := i.squashed || i.status.inLSQ || iq.contains x
      status := { i.status with inLSQ := false, canCommit := i.status.canCommit || iq.contains x } }
  else i

def squashQueues (s : Iew) (n : Nat) (iq : List Nat) : Iew :=
  { s with
    rob := { s.rob with insts := fun x =>
      if x ∈ s.rob.instList then squashInQueues n iq x (s.rob.insts x) else s.rob.insts x }
    memDepViolator := s.memDepViolator.filter (· ≤ n)
    oblsMissInst := s.oblsMissInst.filter (· ≤ n) }

/-- What the load/store queue and memory may change about an instruction. -/
def lsqAllows (i : DynInst) (st : Status) : Bool :=
  i.staticInst.isMemRef && st.canCommit == i.status.canCommit && st.pc == i.status.pc &&
    st.hasPendingSquash == i.status.hasPendingSquash && st.dispatched == i.status.dispatched &&
    st.inLSQ == i.status.inLSQ

def lsqUpdates (s : Iew) : List (Nat × Status) → Option Iew
  | [] => some s
  | (x, st) :: us =>
    if lsqAllows (s.rob.insts x) st then lsqUpdates (s.setStatus x fun _ => st) us else none

end Iew

end SdoCore
