import Mathlib.Algebra.Ring.Nat
import Mathlib.Logic.Function.Basic
import Mathlib.Tactic.SplitIfs
import SdoCore.Lib.Machine

/-! The branch predictor of one thread, `cpu/pred/bpred_unit.cc`, with the tournament predictor
of `cpu/pred/tournament.cc` for the directions. A prediction writes the global history and, for
a conditional branch, one local history; a record of what was there goes to the front of
`predHist`, and a squash takes the records off again and puts back what they hold.

Results:
* `unwind_globalHistory`, `unwind_localHistory`: what taking off the records of a sequence of
  predictions gives back.
* `squash_erases_iff`: the local histories come back exactly if no jump that misses in the branch
  target buffer clears the last bit of a local history before a conditional branch saves it. -/

namespace SdoCore.Pred

open List
open Lib
open Function (update)

/-! ## Return address stack -/

structure ReturnAddrStack where
  numEntries : Nat
  addrStack : Nat → Nat := fun _ => 0
  usedEntries : Nat := 0
  tos : Nat := 0

namespace ReturnAddrStack

def top (r : ReturnAddrStack) : Nat := r.addrStack r.tos

def incrTos (r : ReturnAddrStack) : ReturnAddrStack :=
  { r with tos := if r.tos + 1 = r.numEntries then 0 else r.tos + 1 }

def decrTos (r : ReturnAddrStack) : ReturnAddrStack :=
  { r with tos := if r.tos = 0 then r.numEntries - 1 else r.tos - 1 }

def push (r : ReturnAddrStack) (returnAddr : Nat) : ReturnAddrStack :=
  let r := r.incrTos
  { r with addrStack := update r.addrStack r.tos returnAddr,
           usedEntries := if r.usedEntries ≠ r.numEntries then r.usedEntries + 1
             else r.usedEntries }

def pop (r : ReturnAddrStack) : ReturnAddrStack :=
  { r with usedEntries := r.usedEntries - 1 }.decrTos

def restore (r : ReturnAddrStack) (topEntryIdx restored : Nat) : ReturnAddrStack :=
  { r with tos := topEntryIdx, addrStack := update r.addrStack topEntryIdx restored }

end ReturnAddrStack

/-! ## Tournament predictor -/

/-- The parameters of the predictor; `hasIPred`: there is an indirect predictor. -/
structure BPredConfig where
  (localPredictorSize localCtrBits localHistoryTableSize globalPredictorSize globalCtrBits : Nat)
  (choicePredictorSize choiceCtrBits instShiftAmt : Nat)
  hasIPred : Bool
  deriving DecidableEq

def ceilLog2 (n : Nat) : Nat := if n = 1 then 0 else Nat.log2 (n - 1) + 1

/-- `mask(nbits)` of `base/bitfield.hh`, as an `unsigned`. -/
def mask (nbits : Nat) : BitVec 32 := .ofNat 32 (2 ^ nbits - 1)

namespace BPredConfig

variable (c : BPredConfig)

def localPredictorMask : BitVec 32 := mask (ceilLog2 c.localPredictorSize)

def globalHistoryMask : BitVec 32 := .ofNat 32 (c.globalPredictorSize - 1)

def choiceHistoryMask : BitVec 32 := .ofNat 32 (c.choicePredictorSize - 1)

def historyRegisterMask : BitVec 32 :=
  mask (max (ceilLog2 c.globalPredictorSize) (ceilLog2 c.choicePredictorSize))

/-- The threshold of a counter of so many bits: above it is taken. -/
def threshold (bits : Nat) : Nat := 2 ^ (bits - 1) - 1

def calcLocHistIdx (branchAddr : Nat) : Nat :=
  (branchAddr >>> c.instShiftAmt) &&& (c.localHistoryTableSize - 1)

end BPredConfig

/-- `none` is `invalidPredictorIndex`. -/
structure BPHistory where
  globalHistory : BitVec 32
  localHistoryIdx : Option Nat
  localHistory : Option (BitVec 32)
  (localPredTaken globalPredTaken globalUsed : Bool)
  deriving DecidableEq

structure TournamentBP where
  localCtrs : BitVec 32 → Nat := fun _ => 0
  localHistoryTable : Nat → BitVec 32 := fun _ => 0
  globalCtrs : BitVec 32 → Nat := fun _ => 0
  globalHistory : BitVec 32 := 0
  choiceCtrs : BitVec 32 → Nat := fun _ => 0

/-- A saturating counter goes up or down. -/
def count (ctrs : BitVec 32 → Nat) (bits : Nat) (i : BitVec 32) (up : Bool) : BitVec 32 → Nat :=
  update ctrs i
    (if up then (if ctrs i < 2 ^ bits - 1 then ctrs i + 1 else ctrs i) else ctrs i - 1)

/-- `(h << 1) | taken`. -/
def shiftIn (h : BitVec 32) (taken : Bool) : BitVec 32 :=
  (h <<< 1) ||| (if taken then 1 else 0)

namespace TournamentBP

variable (c : BPredConfig) (t : TournamentBP)

/-- `updateGlobalHistTaken` and `updateGlobalHistNotTaken`. -/
def updateGlobalHist (taken : Bool) : TournamentBP :=
  { t with globalHistory := shiftIn t.globalHistory taken &&& c.historyRegisterMask }

/-- `updateLocalHistTaken` and `updateLocalHistNotTaken`. -/
def updateLocalHist (idx : Nat) (taken : Bool) : TournamentBP :=
  { t with
    localHistoryTable := update t.localHistoryTable idx
      (shiftIn (t.localHistoryTable idx) taken) }

def btbUpdate (branchAddr : Nat) : TournamentBP :=
  let idx := c.calcLocHistIdx branchAddr
  { t with
    globalHistory := t.globalHistory &&& (c.historyRegisterMask &&& ~~~1)
    localHistoryTable := update t.localHistoryTable idx
      (t.localHistoryTable idx &&& (c.localPredictorMask &&& ~~~1)) }

def lookup (branchAddr : Nat) : Bool × BPHistory × TournamentBP :=
  let idx := c.calcLocHistIdx branchAddr
  let localPredictorIdx := t.localHistoryTable idx &&& c.localPredictorMask
  let localPrediction := BPredConfig.threshold c.localCtrBits < t.localCtrs localPredictorIdx
  let globalPrediction :=
    BPredConfig.threshold c.globalCtrBits < t.globalCtrs (t.globalHistory &&& c.globalHistoryMask)
  let choicePrediction :=
    BPredConfig.threshold c.choiceCtrBits < t.choiceCtrs (t.globalHistory &&& c.choiceHistoryMask)
  let taken := if choicePrediction then decide globalPrediction else decide localPrediction
  (taken,
   { globalHistory := t.globalHistory, localPredTaken := localPrediction,
     globalPredTaken := globalPrediction, globalUsed := choicePrediction,
     localHistoryIdx := some idx, localHistory := some localPredictorIdx },
   (t.updateGlobalHist c taken).updateLocalHist idx taken)

def uncondBranch : BPHistory × TournamentBP :=
  ({ globalHistory := t.globalHistory, localPredTaken := true, globalPredTaken := true,
     globalUsed := true, localHistoryIdx := none, localHistory := none },
   t.updateGlobalHist c true)

/-- `update` of a mispredicted branch: back to before it and on with its direction. -/
def correct (branchAddr : Nat) (taken : Bool) (h : BPHistory) : TournamentBP :=
  { t with
    globalHistory := shiftIn h.globalHistory taken &&& c.historyRegisterMask
    localHistoryTable := match h.localHistory with
      | some l => update t.localHistoryTable (c.calcLocHistIdx branchAddr) (shiftIn l taken)
      | none => t.localHistoryTable }

/-- `update` of a committed branch: the counters. -/
def train (taken : Bool) (h : BPHistory) : TournamentBP :=
  let choice := h.globalHistory &&& c.choiceHistoryMask
  { t with
    choiceCtrs :=
      if h.localPredTaken != h.globalPredTaken && h.localHistory.isSome then
        if h.localPredTaken == taken then count t.choiceCtrs c.choiceCtrBits choice false
        else if h.globalPredTaken == taken then count t.choiceCtrs c.choiceCtrBits choice true
        else t.choiceCtrs
      else t.choiceCtrs
    globalCtrs := count t.globalCtrs c.globalCtrBits (h.globalHistory &&& c.globalHistoryMask) taken
    localCtrs := match h.localHistory with
      | some l => count t.localCtrs c.localCtrBits (l &&& c.localPredictorMask) taken
      | none => t.localCtrs }

def squash (h : BPHistory) : TournamentBP :=
  { t with
    globalHistory := h.globalHistory
    localHistoryTable := match h.localHistoryIdx with
      | some idx => update t.localHistoryTable idx (h.localHistory.getD 0)
      | none => t.localHistoryTable }

end TournamentBP

/-! ## Branch prediction unit -/

structure PredictorHistory where
  seqNum : Nat
  pc : Nat
  bpHistory : BPHistory
  predTaken : Bool
  RASTarget : Nat := 0
  RASIndex : Nat := 0
  (usedRAS pushedRAS wasCall wasReturn wasIndirect : Bool := false)
  deriving DecidableEq

/-- A call of `predict`: the instruction, and what the branch target buffer and the indirect
predictor answer. -/
structure Branch where
  seqNum : Nat
  pc : Nat
  (isUncondCtrl isReturn isCall : Bool := false)
  (isDirectCtrl btbValid indirectHit : Bool := true)
  deriving DecidableEq

/-- The front of `predHist` is the youngest branch. -/
structure BPredUnit where
  dir : TournamentBP := {}
  ras : ReturnAddrStack
  predHist : List PredictorHistory := []

inductive BPredEvent
  | predict (b : Branch)
  | update (doneSn : Nat)
  | squash (squashedSn : Nat)
  | squashCorrect (squashedSn : Nat) (actuallyTaken : Bool)
  deriving DecidableEq

namespace BPredUnit

variable (c : BPredConfig)

/-- The direction predictor's part of `predict`. -/
def direction (t : TournamentBP) (b : Branch) : Bool × BPHistory × TournamentBP :=
  if b.isUncondCtrl then (true, t.uncondBranch c) else t.lookup c b.pc

/-- A branch predicted taken looks for its target. -/
def target (b : Branch) (r : PredictorHistory) (t : TournamentBP) (ras : ReturnAddrStack) :
    Bool × PredictorHistory × TournamentBP × ReturnAddrStack :=
  if b.isReturn then
    (true, { r with wasReturn := true, usedRAS := true, RASIndex := ras.tos, RASTarget := ras.top },
      t, ras.pop)
  else
    let r := if b.isCall then { r with pushedRAS := true, wasCall := true } else r
    let ras := if b.isCall then ras.push b.pc else ras
    let direct := b.isDirectCtrl || !c.hasIPred
    let r := if direct then r else { r with wasIndirect := true }
    if (if direct then b.btbValid else b.indirectHit) then (true, r, t, ras)
    else
      let t := if direct && !b.isCall then t.btbUpdate c b.pc else t
      if b.isCall && !b.isUncondCtrl then (false, { r with pushedRAS := false }, t, ras.pop)
      else (false, r, t, ras)

def predict (s : BPredUnit) (b : Branch) : Bool × BPredUnit :=
  let (taken, h, t) := direction c s.dir b
  let r : PredictorHistory := { seqNum := b.seqNum, pc := b.pc, predTaken := taken, bpHistory := h }
  if taken then
    let (taken, r, t, ras) := target c b r t s.ras
    (taken, { dir := t, ras := ras, predHist := r :: s.predHist })
  else
    let r := if b.isReturn then { r with wasReturn := true } else r
    (false, { dir := t, ras := s.ras, predHist := r :: s.predHist })

/-- `update(done_sn)`, over the history from its back. -/
def commitAll (doneSn : Nat) (t : TournamentBP) :
    List PredictorHistory → TournamentBP × List PredictorHistory
  | [] => (t, [])
  | r :: rs =>
    if r.seqNum ≤ doneSn then commitAll doneSn (t.train c r.predTaken r.bpHistory) rs
    else (t, r :: rs)

def update (s : BPredUnit) (doneSn : Nat) : BPredUnit :=
  let (t, rs) := commitAll c doneSn s.dir s.predHist.reverse
  { s with dir := t, predHist := rs.reverse }

/-- What a record says about the return address stack is undone. -/
def undoRas (ras : ReturnAddrStack) (r : PredictorHistory) : ReturnAddrStack :=
  if r.usedRAS then ras.restore r.RASIndex r.RASTarget
  else if r.wasCall && r.pushedRAS then ras.pop
  else ras

def squashAll (squashedSn : Nat) (t : TournamentBP) (ras : ReturnAddrStack) :
    List PredictorHistory → BPredUnit
  | [] => ⟨t, ras, []⟩
  | r :: rs =>
    if squashedSn < r.seqNum then squashAll squashedSn (t.squash r.bpHistory) (undoRas ras r) rs
    else ⟨t, ras, r :: rs⟩

def squash (s : BPredUnit) (squashedSn : Nat) : BPredUnit :=
  squashAll squashedSn s.dir s.ras s.predHist

/-- `squash` of a mispredicted branch; `none` is the failed assertion that the branch is at the
front now. -/
def squashCorrect (s : BPredUnit) (squashedSn : Nat) (actuallyTaken : Bool) : Option BPredUnit :=
  let s := s.squash squashedSn
  match s.predHist with
  | [] => some s
  | r :: rs =>
    if r.seqNum = squashedSn then
      let t := s.dir.correct c r.pc actuallyTaken r.bpHistory
      let r := { r with predTaken := actuallyTaken }
      if actuallyTaken then
        if r.wasReturn && !r.usedRAS then
          some ⟨t, s.ras.pop, { r with usedRAS := true } :: rs⟩
        else some ⟨t, s.ras, r :: rs⟩
      else if r.usedRAS then
        some ⟨t, s.ras.restore r.RASIndex r.RASTarget, { r with usedRAS := false } :: rs⟩
      else if r.wasCall && r.pushedRAS then
        some ⟨t, s.ras.pop, { r with pushedRAS := false } :: rs⟩
      else some ⟨t, s.ras, r :: rs⟩
    else none

def step (s : BPredUnit) : BPredEvent → Option BPredUnit
  | .predict b => some (s.predict c b).2
  | .update doneSn => some (s.update c doneSn)
  | .squash squashedSn => some (s.squash squashedSn)
  | .squashCorrect squashedSn actuallyTaken => s.squashCorrect c squashedSn actuallyTaken

/-- A sequence of predictions, first to last. -/
def predictAll (s : BPredUnit) (bs : List Branch) : BPredUnit :=
  bs.foldl (fun s b => (s.predict c b).2) s

end BPredUnit

def bpredMachine (c : BPredConfig) (numEntries : Nat) : Machine BPredUnit BPredEvent where
  start s := s = { ras := { numEntries } }
  step := BPredUnit.step c

/-! ## Taking the records off again -/

namespace Branch

variable (c : BPredConfig) (b : Branch)

/-- The record of the branch saves the local history `i`. -/
def saves (i : Nat) : Bool := !b.isUncondCtrl && c.calcLocHistIdx b.pc == i

/-- The branch is a jump that misses in the branch target buffer: `btbUpdate` clears the last bit
of the local history `i`, which the record does not save. -/
def clears (i : Nat) : Bool :=
  b.isUncondCtrl && !b.isReturn && !b.isCall && (b.isDirectCtrl || !c.hasIPred) && !b.btbValid &&
    c.calcLocHistIdx b.pc == i

/-- The last bit is cleared before the local history is saved. -/
def clearsFirst (i : Nat) : List Branch → Bool
  | [] => false
  | b :: bs => b.clears c i || (!b.saves c i && clearsFirst i bs)

end Branch

namespace BPredUnit

variable {c : BPredConfig} {s : BPredUnit} {b : Branch} {bs : List Branch} {sn : Nat}

theorem target_record (c : BPredConfig) (b : Branch) (r : PredictorHistory) (t : TournamentBP)
    (ras : ReturnAddrStack) : (target c b r t ras).2.1.seqNum = r.seqNum ∧
      (target c b r t ras).2.1.bpHistory = r.bpHistory := by
  simp only [target]
  split_ifs <;> exact ⟨rfl, rfl⟩

theorem target_dir (c : BPredConfig) (b : Branch) (r : PredictorHistory) (t : TournamentBP)
    (ras : ReturnAddrStack) : (target c b r t ras).2.2.1 =
      if !b.isReturn && !b.isCall && (b.isDirectCtrl || !c.hasIPred) && !b.btbValid then
        t.btbUpdate c b.pc
      else t := by
  simp only [target]
  split_ifs <;> simp_all

theorem predict_record (c : BPredConfig) (s : BPredUnit) (b : Branch) :
    ∃ r, (s.predict c b).2.predHist = r :: s.predHist ∧ r.seqNum = b.seqNum ∧
      r.bpHistory = (direction c s.dir b).2.1 := by
  simp only [predict]
  split
  · exact ⟨_, rfl, target_record ..⟩
  · refine ⟨_, rfl, ?_⟩
    split <;> exact ⟨rfl, rfl⟩

theorem predict_dir (c : BPredConfig) (s : BPredUnit) (b : Branch) :
    (s.predict c b).2.dir =
      if (direction c s.dir b).1 && !b.isReturn && !b.isCall && (b.isDirectCtrl || !c.hasIPred) &&
        !b.btbValid then (direction c s.dir b).2.2.btbUpdate c b.pc
      else (direction c s.dir b).2.2 := by
  simp only [predict]
  split
  · next h => simp only [target_dir, h, Bool.true_and]
  · next h => simp only [h, Bool.false_and, Bool.false_eq_true, if_false]

/-- The direction predictor after the predictions `bs` and the squash of just these. -/
def unwind (c : BPredConfig) (s : BPredUnit) : List Branch → TournamentBP
  | [] => s.dir
  | b :: bs => (unwind c (s.predict c b).2 bs).squash (direction c s.dir b).2.1

theorem unwind_globalHistory (c : BPredConfig) (s : BPredUnit) (bs : List Branch) :
    (unwind c s bs).globalHistory = s.dir.globalHistory := by
  cases bs with
  | nil => rfl
  | cons b bs =>
    simp only [unwind, TournamentBP.squash, direction]
    split <;> rfl

theorem direction_localHistory (c : BPredConfig) (t : TournamentBP) (b : Branch) {i : Nat}
    (h : b.saves c i = false) :
    (direction c t b).2.2.localHistoryTable i = t.localHistoryTable i := by
  simp only [Branch.saves, Bool.and_eq_false_iff, Bool.not_eq_false', beq_eq_false_iff_ne] at h
  cases hu : b.isUncondCtrl with
  | true => simp [direction, hu, TournamentBP.uncondBranch, TournamentBP.updateGlobalHist]
  | false =>
    have hne : c.calcLocHistIdx b.pc ≠ i := by simpa [hu] using h
    simp [direction, hu, TournamentBP.lookup, TournamentBP.updateGlobalHist,
      TournamentBP.updateLocalHist, hne.symm]

/-- A local history that the record does not save loses at most its last bit. -/
theorem predict_localHistory (c : BPredConfig) (s : BPredUnit) (b : Branch) {i : Nat}
    (h : b.saves c i = false) :
    (s.predict c b).2.dir.localHistoryTable i =
      if b.clears c i then s.dir.localHistoryTable i &&& (c.localPredictorMask &&& ~~~1)
      else s.dir.localHistoryTable i := by
  have hdir := direction_localHistory c s.dir b h
  have hbtb : ((direction c s.dir b).2.2.btbUpdate c b.pc).localHistoryTable i =
      if c.calcLocHistIdx b.pc = i then s.dir.localHistoryTable i &&&
        (c.localPredictorMask &&& ~~~1)
      else s.dir.localHistoryTable i := by
    simp only [TournamentBP.btbUpdate, Function.update_apply, eq_comm (a := i)]
    split
    · next hi => rw [hi, hdir]
    · exact hdir
  rw [predict_dir]
  cases hu : b.isUncondCtrl with
  | true =>
    have htaken : (direction c s.dir b).1 = true := by simp [direction, hu]
    simp only [htaken, Bool.true_and, Branch.clears, hu]
    split
    · next hmiss => simp [hmiss, hbtb]
    · next hmiss => simp [hmiss, hdir]
  | false =>
    -- a conditional branch with another local history
    have hne : c.calcLocHistIdx b.pc ≠ i := by simpa [Branch.saves, hu] using h
    simp only [Branch.clears, hu, Bool.false_and, Bool.false_eq_true, if_false]
    split
    · rw [hbtb, if_neg hne]
    · exact hdir

theorem and_mask_clear (x m : BitVec 32) : (x &&& (m &&& ~~~1)) &&& m = (x &&& m) &&& ~~~1 := by
  ext i hi
  simp only [BitVec.getElem_and]
  cases x[i] <;> cases m[i] <;> simp

/-- **What the squash gives back.** -/
theorem unwind_localHistory (c : BPredConfig) (s : BPredUnit) (bs : List Branch) (i : Nat) :
    (unwind c s bs).localHistoryTable i &&& c.localPredictorMask =
      if Branch.clearsFirst c i bs then
        (s.dir.localHistoryTable i &&& c.localPredictorMask) &&& ~~~1
      else s.dir.localHistoryTable i &&& c.localPredictorMask := by
  induction bs generalizing s with
  | nil => simp [unwind, Branch.clearsFirst]
  | cons b bs ih =>
    cases hs : b.saves c i with
    | true =>
      -- the record holds the masked value
      have hsaves : b.isUncondCtrl = false ∧ c.calcLocHistIdx b.pc = i := by
        simpa [Branch.saves] using hs
      have hclears : b.clears c i = false := by simp [Branch.clears, hsaves.1]
      simp [unwind, direction, hsaves, TournamentBP.lookup, TournamentBP.squash, Branch.clearsFirst,
        hs,
        hclears, BitVec.and_assoc]
    | false =>
      have hkeep : (unwind c s (b :: bs)).localHistoryTable i =
          (unwind c (s.predict c b).2 bs).localHistoryTable i := by
        cases hu : b.isUncondCtrl with
        | true => simp [unwind, direction, hu, TournamentBP.uncondBranch, TournamentBP.squash]
        | false =>
          have hne : c.calcLocHistIdx b.pc ≠ i := by simpa [Branch.saves, hu] using hs
          simp [unwind, direction, hu, TournamentBP.lookup, TournamentBP.squash, hne.symm]
      rw [hkeep, ih, predict_localHistory c s b hs]
      simp only [Branch.clearsFirst, hs, Bool.not_false, Bool.true_and]
      cases hc : b.clears c i with
      | true =>
        simp only [Bool.true_or, if_true, and_mask_clear]
        rw [BitVec.and_assoc, BitVec.and_self, ite_self]
      | false => simp only [Bool.false_or, Bool.false_eq_true, if_false]

/-- The records of the predictions lie in front of what was there, and are taken off first. -/
theorem squash_predictAll (c : BPredConfig) (s : BPredUnit) (bs : List Branch) {sn : Nat}
    (hsn : ∀ b ∈ bs, sn < b.seqNum) :
    ∃ ras, (s.predictAll c bs).squash sn = squashAll sn (unwind c s bs) ras s.predHist := by
  induction bs generalizing s with
  | nil => exact ⟨s.ras, rfl⟩
  | cons b bs ih =>
    obtain ⟨ras, h⟩ := ih (s.predict c b).2 fun b' hb' => hsn b' (mem_cons_of_mem _ hb')
    obtain ⟨r, hr, hseq, hbp⟩ := predict_record c s b
    refine ⟨undoRas ras r, ?_⟩
    have hlt : sn < r.seqNum := hseq ▸ hsn b mem_cons_self
    rw [predictAll, foldl_cons, ← predictAll, h, hr, squashAll, if_pos hlt, hbp, unwind]

/-- Taking off records one after the other. -/
def undo (t : TournamentBP) (rs : List PredictorHistory) : TournamentBP :=
  rs.foldl (fun t r => t.squash r.bpHistory) t

theorem undo_cons (t : TournamentBP) (r : PredictorHistory) (rs : List PredictorHistory) :
    undo t (r :: rs) = undo (t.squash r.bpHistory) rs := rfl

/-- The records that a squash down to `sn` takes off. -/
def above (s : BPredUnit) (sn : Nat) : List PredictorHistory := s.predHist.takeWhile (sn < ·.seqNum)

theorem squashAll_dir (sn : Nat) (t : TournamentBP) (ras : ReturnAddrStack)
    (rs : List PredictorHistory) :
    (squashAll sn t ras rs).dir = undo t (rs.takeWhile (sn < ·.seqNum)) := by
  induction rs generalizing t ras with
  | nil => rfl
  | cons r rs ih =>
    simp only [squashAll, takeWhile_cons]
    split
    · next h => simp [h, ih, undo]
    · next h => simp [h, undo]

theorem undo_globalHistory (rs : List PredictorHistory) {t u : TournamentBP}
    (h : t.globalHistory = u.globalHistory) :
    (undo t rs).globalHistory = (undo u rs).globalHistory := by
  induction rs generalizing t u with
  | nil => exact h
  | cons r rs ih => exact ih rfl

/-- A record saves the local history `i`. -/
def saved (rs : List PredictorHistory) (i : Nat) : Bool :=
  rs.any (·.bpHistory.localHistoryIdx == some i)

theorem undo_unsaved {rs : List PredictorHistory} {i : Nat} (h : saved rs i = false)
    (t : TournamentBP) : (undo t rs).localHistoryTable i = t.localHistoryTable i := by
  induction rs generalizing t with
  | nil => rfl
  | cons r rs ih =>
    simp only [saved, any_cons, Bool.or_eq_false_iff, beq_eq_false_iff_ne] at h
    rw [undo_cons, ih h.2, TournamentBP.squash]
    split
    · next j hj =>
      have hne : i ≠ j := fun heq => h.1 (heq ▸ hj)
      simp [hne]
    · rfl

theorem undo_saved {rs : List PredictorHistory} {i : Nat} (h : saved rs i)
    (t u : TournamentBP) : (undo t rs).localHistoryTable i = (undo u rs).localHistoryTable i := by
  induction rs generalizing t u with
  | nil => simp [saved] at h
  | cons r rs ih =>
    rw [undo_cons, undo_cons]
    cases hrs : saved rs i with
    | true => exact ih hrs _ _
    | false =>
      -- the last record that saves the history is this one
      have hr : r.bpHistory.localHistoryIdx = some i := by
        simp only [saved, any_cons, Bool.or_eq_true] at h hrs
        simpa [hrs] using h
      rw [undo_unsaved hrs, undo_unsaved hrs]
      simp [TournamentBP.squash, hr]

theorem squash_of_le {s : BPredUnit} {sn : Nat} (h : ∀ r ∈ s.predHist, r.seqNum ≤ sn) :
    s.squash sn = s := by
  obtain ⟨t, ras, hist⟩ := s
  cases hist with
  | nil => rfl
  | cons r rs =>
    have hle : ¬sn < r.seqNum := Nat.not_lt.mpr (h r mem_cons_self)
    simp [squash, squashAll, hle]

end BPredUnit

/-- The same global history and the same local histories, as far as they are used. -/
def SameHistories (c : BPredConfig) (t u : TournamentBP) : Prop :=
  t.globalHistory = u.globalHistory ∧
    ∀ i, t.localHistoryTable i &&& c.localPredictorMask =
      u.localHistoryTable i &&& c.localPredictorMask

theorem and_clear_eq_iff (x : BitVec 32) : x &&& ~~~1 = x ↔ x &&& 1 = 0 := by
  constructor
  · intro h
    rw [← h, BitVec.and_assoc, show (~~~1 &&& 1 : BitVec 32) = 0 by decide]
    exact BitVec.and_zero
  · intro h
    ext i hi
    have hbit : (x &&& 1)[i] = (0 : BitVec 32)[i] := by rw [h]
    simp only [BitVec.getElem_and, BitVec.getElem_not] at hbit ⊢
    cases hx : x[i] <;> simp_all

/-- **Wrong-path predictions and their squash.** The histories are those of a squash without the
predictions, exactly if every local history whose last bit is set is saved, by a record above `sn`
or by a conditional branch of the sequence, before a jump that misses in the branch target buffer
clears that bit. With no older branch above `sn`, the squash without the predictions does
nothing. -/
theorem squash_erases_iff (c : BPredConfig) (s : BPredUnit) (bs : List Branch) (sn : Nat)
    (hsn : ∀ b ∈ bs, sn < b.seqNum) :
    (SameHistories c ((s.predictAll c bs).squash sn).dir (s.squash sn).dir ↔
      ∀ i, Branch.clearsFirst c i bs = true → BPredUnit.saved (s.above sn) i = true ∨
        (s.dir.localHistoryTable i &&& c.localPredictorMask) &&& 1 = 0) ∧
    ((∀ r ∈ s.predHist, r.seqNum ≤ sn) → s.squash sn = s) := by
  refine ⟨?_, BPredUnit.squash_of_le⟩
  obtain ⟨ras, hsquash⟩ := BPredUnit.squash_predictAll c s bs hsn
  rw [hsquash, BPredUnit.squashAll_dir, BPredUnit.squash, BPredUnit.squashAll_dir,
    show s.predHist.takeWhile (sn < ·.seqNum) = s.above sn from rfl]
  have hlocal := BPredUnit.unwind_localHistory c s bs
  constructor
  · rintro ⟨-, h⟩ i hi
    cases hsaved : BPredUnit.saved (s.above sn) i with
    | true => exact .inl rfl
    | false =>
      right
      have heq := h i
      rw [BPredUnit.undo_unsaved hsaved, BPredUnit.undo_unsaved hsaved, hlocal, if_pos hi] at heq
      exact (and_clear_eq_iff _).mp heq
  · intro h
    refine ⟨BPredUnit.undo_globalHistory _ (BPredUnit.unwind_globalHistory c s bs), fun i => ?_⟩
    cases hsaved : BPredUnit.saved (s.above sn) i with
    | true => rw [BPredUnit.undo_saved hsaved]
    | false =>
      rw [BPredUnit.undo_unsaved hsaved, BPredUnit.undo_unsaved hsaved, hlocal]
      split
      · next hi => exact (and_clear_eq_iff _).mpr ((h i hi).resolve_left (by simp [hsaved]))
      · rfl

/-- The parameters of `BranchPredictor.py`. -/
def tournamentDefaults : BPredConfig where
  localPredictorSize := 2048
  localCtrBits := 2
  localHistoryTableSize := 2048
  globalPredictorSize := 8192
  globalCtrBits := 2
  choicePredictorSize := 8192
  choiceCtrBits := 2
  instShiftAmt := 2
  hasIPred := true

/-- A conditional branch turned out to be taken. -/
def takenBranch : List BPredEvent := [.predict { seqNum := 1, pc := 0x40 }, .squashCorrect 1 true]

def afterTaken : BPredUnit :=
  ((bpredMachine tournamentDefaults 16).run { ras := { numEntries := 16 } } takenBranch).getD
    { ras := { numEntries := 16 } }

/-- A jump that falls on the same local history. -/
def wrongPathJump : Branch :=
  { seqNum := 2, pc := 0x2040, isUncondCtrl := true, btbValid := false }

theorem squash_keeps_trace :
    (bpredMachine tournamentDefaults 16).Reach afterTaken ∧
    (∀ r ∈ afterTaken.predHist, r.seqNum ≤ 1) ∧
    ¬SameHistories tournamentDefaults
      ((afterTaken.predictAll tournamentDefaults [wrongPathJump]).squash 1).dir
      afterTaken.dir := by
  refine ⟨Machine.reach_run rfl (Machine.run_getD (by decide +kernel)), by decide +kernel,
    fun h => ?_⟩
  exact absurd (h.2 16) (by decide +kernel)

/-- The jump on the wrong path is behind a conditional branch on the same local history. -/
theorem squash_erases_behind_branch :
    SameHistories tournamentDefaults ((afterTaken.predictAll tournamentDefaults
      [{ seqNum := 2, pc := 0x40 }, { wrongPathJump with seqNum := 3 }]).squash 1).dir
      (afterTaken.squash 1).dir := by
  refine (squash_erases_iff tournamentDefaults afterTaken _ 1 (by decide)).1.mpr fun i hi => ?_
  have h40 : tournamentDefaults.calcLocHistIdx 0x40 = 16 := by decide
  have h2040 : tournamentDefaults.calcLocHistIdx 0x2040 = 16 := by decide
  simp [Branch.clearsFirst, Branch.clears, Branch.saves, wrongPathJump, h40, h2040] at hi

end SdoCore.Pred
