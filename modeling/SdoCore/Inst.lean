import Mathlib.Data.List.Basic

/-! Dynamic instructions as the reorder buffer and the stages around it see
them (`base_dyn_inst.hh`, `reg_class.hh`): registers, the flags of the decoded
instruction, and the status, visibility and taint flags of one in-flight copy.
An instruction is named by its sequence number; a pointer to it is that number. -/

namespace SdoCore

inductive RegClass
  | intRegClass | floatRegClass | vecRegClass | vecElemClass | ccRegClass | miscRegClass
  deriving DecidableEq

/-- An architectural register. -/
structure RegId where
  regClass : RegClass
  regIdx : Nat
  deriving DecidableEq

/-- The number of general purpose registers of x86 (`NUM_INTREGS`). -/
def numIntRegs : Nat := 16

/-- `X86ISA::ZeroReg`: the micro-architectural register t0, the first one after
the general purpose registers. -/
def zeroReg : Nat := numIntRegs

/-- `RegId::isZeroReg`. -/
def RegId.isZeroReg (r : RegId) : Bool := r.regClass == .intRegClass && r.regIdx == zeroReg

def numMMXRegs : Nat := 8

/-- `FLOATREG_XMM_BASE`: the sixteen-byte registers follow the MMX ones, two
indices each. -/
def floatRegXmmBase : Nat := numMMXRegs

/-- `FLOATREG_XMM4_LOW`. -/
def floatRegXmm4Low : Nat := floatRegXmmBase + 2 * 4

/-- A source operand: the register in the instruction, the flattened register
rename looked up, the physical register it was given, and the link to the
producer that the reorder buffer sets (`argProducer`). -/
structure SrcReg where
  srcRegIdx : RegId
  flat : RegId
  renamedSrcRegIdx : Nat
  argProducer : Option Nat
  deriving DecidableEq

structure DestReg where
  flat : RegId
  renamedDestRegIdx : Nat
  deriving DecidableEq

/-- `X86ISA::PCState`. -/
structure PCState where
  (pc npc upc nupc size : Nat := 0)
  deriving DecidableEq

namespace PCState

/-- The size of `MachInst`. -/
def machInstSize : Nat := 8

def advance (p : PCState) : PCState :=
  { p with pc := p.npc, npc := p.npc + machInstSize, size := 0 }

def uAdvance (p : PCState) : PCState := { p with upc := p.nupc, nupc := p.nupc + 1 }

def uEnd (p : PCState) : PCState := { p.advance with upc := 0, nupc := 1 }

def branching (p : PCState) : Bool := p.npc != p.pc + p.size || p.nupc != p.upc + 1

/-- `operator ==`, which leaves the size out. -/
def same (p q : PCState) : Bool :=
  p.pc == q.pc && p.npc == q.npc && p.upc == q.upc && p.nupc == q.nupc

end PCState

/-- The flags of the decoded instruction. A memory reference is a load or a
store: `address_flow` stops the simulation on any other. Only the micro-ops that
write the PC, `wrip` and `br`, are control instructions: they have no memory
operand, and the decoder gives them none of the flags that keep an instruction
from executing speculatively. -/
structure StaticInst where
  (isLoad isStore isControl isMemRef isNonSpeculative isStoreConditional : Bool := false)
  (isMemBarrier isWriteBarrier isNop isUncondCtrl isMicroop isLastMicroop : Bool := false)
  (isSquashAfter : Bool := false)
  memRef_kind : isMemRef = true → isLoad = true ∨ isStore = true := by decide
  load_memRef : isLoad = true → isMemRef = true := by decide
  store_memRef : isStore = true → isMemRef = true := by decide
  control_kind : isControl = true → isMemRef = false ∧ isNonSpeculative = false ∧
    isStoreConditional = false ∧ isMemBarrier = false ∧ isWriteBarrier = false ∧
    isNop = false := by decide
  deriving DecidableEq

def plainInst : StaticInst := {}
def branchInst : StaticInst := { isControl := true }

namespace StaticInst

variable {i : StaticInst}

theorem not_isLoad (h : i.isMemRef = false) : i.isLoad = false :=
  Bool.eq_false_iff.mpr (mt i.load_memRef (Bool.eq_false_iff.mp h))

theorem not_isStore (h : i.isMemRef = false) : i.isStore = false :=
  Bool.eq_false_iff.mpr (mt i.store_memRef (Bool.eq_false_iff.mp h))

theorem not_isControl (h : i.isMemRef) : i.isControl = false :=
  Bool.eq_false_iff.mpr fun hc => absurd h (Bool.eq_false_iff.mp (i.control_kind hc).1)

end StaticInst

/-- `advancePC` of an instruction and of a micro-op. -/
def StaticInst.advancePC (i : StaticInst) (p : PCState) : PCState :=
  if i.isMicroop then if i.isLastMicroop then p.uEnd else p.uAdvance else p.advance

/-- What the execution and memory stages record about an instruction and the
reorder buffer only reads, apart from draining a squashed one. -/
structure Status where
  (canCommit executed fault hasPendingSquash strictlyOrdered needPostFetch : Bool := false)
  (needExposeOnly exposeSent exposeCompleted : Bool := false)
  pc : PCState := {}
  (dispatched inLSQ effAddrValid : Bool := false)
  effAddr : Nat := 0
  effSize : Nat := 0
  (fenceDelay hitExternalSnoop possibleLoadViolation readyToExpose : Bool := false)
  (doneLocPredUpdate : Bool := false)
  deriving DecidableEq

structure DynInst where
  staticInst : StaticInst
  srcs : List SrcReg
  dests : List DestReg
  predPC : PCState := {}
  status : Status := {}
  (squashed committed inROB robUpdateVisibleState prevInstsCompleted : Bool := false)
  (prevBrsResolved prevInstsCommitted prevBrsCommitted isUnsquashable : Bool := false)
  (hasExplicitFlow isAddrTainted isArgsTainted isDestTainted taintPropDone : Bool := false)
  deriving DecidableEq

namespace DynInst

/-- Instructions that are roots of taint. -/
def isAccess (i : DynInst) : Bool := i.staticInst.isLoad

/-- A pending squash keeps an instruction from committing until it is squashed. -/
def readyToCommit (i : DynInst) : Bool :=
  i.status.canCommit && (!i.status.hasPendingSquash || (i.status.hasPendingSquash && i.squashed))

def isLoadSafeToCommit (i : DynInst) : Bool :=
  if i.staticInst.isLoad && !i.squashed && !i.status.fault then
    if i.status.needPostFetch && i.status.needExposeOnly && !i.status.exposeSent then false
    else if i.status.needPostFetch && !i.status.needExposeOnly && !i.status.exposeCompleted then
      false
    else true
  else true

/-- The next PC is not the predicted one. -/
def mispredicted (i : DynInst) : Bool := !(i.staticInst.advancePC i.status.pc).same i.predPC

/-- The no-op that carries a fault of the instruction translation to commit: no flag and
no operand. -/
def isFetchFault (i : DynInst) : Bool := i.staticInst == {} && i.srcs.isEmpty

/-- What can be mispredicted: an instruction that writes the PC, and the no-op, whose next PC
fetch predicts to be its own. -/
def redirects (i : DynInst) : Bool := i.staticInst.isControl || i.isFetchFault

theorem redirects_of_isControl {i : DynInst} (h : i.staticInst.isControl) : i.redirects := by
  rw [redirects, h, Bool.true_or]

theorem redirects_memRef {i : DynInst} (h : i.redirects) : i.staticInst.isMemRef = false := by
  rcases Bool.or_eq_true _ _ ▸ h with hc | hf
  · exact (i.staticInst.control_kind hc).1
  · simp only [isFetchFault, Bool.and_eq_true, beq_iff_eq] at hf
    rw [hf.1]

/-- The instruction has `reg` among its destinations. -/
def writes (i : DynInst) (reg : RegId) : Bool := i.dests.any fun d => d.flat == reg

/-- The instruction was given the physical register `p` for a destination. -/
def writesPhys (i : DynInst) (p : Nat) : Bool := i.dests.any fun d => d.renamedDestRegIdx == p

end DynInst

end SdoCore
