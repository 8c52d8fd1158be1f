import SdoCore.Pipeline.Commit
import SdoCore.Taint

/-! One cycle of IEW and commit. IEW ticks first and sees what commit sent in the cycle
before; commit then sees what IEW sent in the cycle before. A run is a sequence of cycles,
each with whatever the rest of the core does in it, so the states reached are those at the
end of a cycle. -/

namespace SdoCore

open Lib

/-- What the rest of the core does in one cycle: the instructions the instruction queue
throws away if it is told to squash, those dispatched, the changes made by the load/store
queue and memory, the load `exposeLoads` finds to have missed, the executions in order,
the instructions sent to commit, and the inputs of the commit stage. -/
structure CycleIn where
  iqSquashed : List Nat := []
  dispatched : List Nat := []
  lsq : List (Nat × Status) := []
  miss : Option Nat := none
  execs : List Iew.Exec := []
  completed : List Nat := []
  commit : CommitIn := {}

namespace Core

/-- The instructions IEW works on: the buffer and what was left out of it. A squash by commit
also makes fetch, which ticks before IEW, throw away the latter (`removeInstsNotInROB`). -/
def inFlight (s : Core) : Rob :=
  if s.toIEW.squash then
    { s.rob with insts := fun x =>
        if x ∈ s.notInROB then { s.rob.insts x with squashed := true } else s.rob.insts x }
  else { s.rob with instList := s.rob.instList ++ s.notInROB }

/-- The stage at the start of its tick, after the queues have seen the squash. -/
def iewStart (s : Core) (i : CycleIn) : Iew :=
  let w : Iew :=
    { rob := s.inFlight, memDepViolator := s.memDepViolator, oblsMissInst := s.oblsMissInst }
  if s.toIEW.squash then w.squashQueues s.toIEW.doneSeqNum i.iqSquashed else w

def iewTick (c : Config) (s : Core) (i : CycleIn) : Option Iew :=
  ((s.iewStart i).dispatchInsts i.dispatched).bind fun w =>
    (w.lsqUpdates i.lsq).bind fun w => w.executeInsts c i.miss i.execs

/-- Commit is sent instructions that have executed; a strictly ordered load is sent before,
so that commit can tell it when to execute. -/
def canComplete (r : Rob) (x : Nat) : Bool :=
  decide (x ∈ r.instList) && ((r.insts x).status.executed || (r.insts x).staticInst.isLoad)

/-- The core after IEW has ticked; what it sends is still on its way. -/
def afterIew (s : Core) (w : Iew) : Core :=
  { s with
    rob := { w.rob with instList := s.rob.instList }
    notInROB := if s.toIEW.squash then [] else s.notInROB
    memDepViolator := w.memDepViolator
    oblsMissInst := w.oblsMissInst
    hist := { s.hist with
      squashSeen := fun x => s.hist.squashSeen x &&
        ((s.rob.insts x).status.executed || !(w.rob.insts x).status.executed)
      debt := fun x => if w.raised.any (·.1 == x) then .owed else s.hist.debt x } }

/-- What IEW sent reaches commit in the next cycle; a squash that is over is served. -/
def endOfCycle (s : Core) (sent : IewStruct) : Core :=
  { s with
    fromIEW := sent
    hist := { s.hist with
      debt := fun x =>
        if s.rob.doneSquashing && s.hist.debt x == .serving then .paid else s.hist.debt x } }

def cycle (c : Config) (s : Core) (i : CycleIn) : Option Core :=
  (s.iewTick c i).bind fun w =>
    if i.completed.all (canComplete w.rob) then
      ((s.afterIew w).commitTick c i.commit).map fun t =>
        t.endOfCycle { insts := i.completed, squash := w.squash }
    else none

/-- Nothing has been fetched yet. -/
structure Start (s : Core) : Prop where
  instList : s.rob.instList = []
  squashIt : s.rob.squashIt = none
  doneSquashing : s.rob.doneSquashing = true
  status : s.status = .Running
  youngestSeqNum : s.youngestSeqNum = 0
  lastCommitedSeqNum : s.lastCommitedSeqNum = 0
  globalSeqNum : s.globalSeqNum = 0
  fromIEW : s.fromIEW = {}
  toIEW : s.toIEW = {}
  trapSquash : s.trapSquash = false
  tcSquash : s.tcSquash = false
  trapInFlight : s.trapInFlight = false
  memDepViolator : s.memDepViolator = none
  oblsMissInst : s.oblsMissInst = none
  notInROB : s.notInROB = []
  debt : ∀ x, s.hist.debt x = .paid
  pendingFor : ∀ x, s.hist.pendingFor x = []

end Core

def coreMachine (c : Config) : Machine Core CycleIn where
  start := Core.Start
  step := Core.cycle c

theorem Core.cycle_eq_some {c : Config} {s s' : Core} {i : CycleIn} (h : s.cycle c i = some s') :
    ∃ w t, s.iewTick c i = some w ∧ (∀ x ∈ i.completed, canComplete w.rob x) ∧
      (s.afterIew w).commitTick c i.commit = some t ∧
      s' = t.endOfCycle { insts := i.completed, squash := w.squash } := by
  obtain ⟨w, hw, h⟩ := Option.bind_eq_some_iff.mp h
  split at h
  · next hc =>
    obtain ⟨t, ht, rfl⟩ := Option.map_eq_some_iff.mp h
    exact ⟨w, t, hw, List.all_eq_true.mp hc, ht, rfl⟩
  · cases h

/-! ## An empty machine -/

def emptyCore : Core where
  rob := emptyRob
  status := .Running
  youngestSeqNum := 0
  lastCommitedSeqNum := 0
  globalSeqNum := 0
  pc := {}
  trapSquash := false
  tcSquash := false
  trapInFlight := false
  squashAfterInst := none
  fromIEW := {}
  toIEW := {}
  memDepViolator := none
  oblsMissInst := none
  notInROB := []
  hist := ⟨fun _ => false, fun _ => .paid, fun _ => []⟩

theorem emptyCore_start : emptyCore.Start :=
  ⟨rfl, rfl, rfl, rfl, rfl, rfl, rfl, rfl, rfl, rfl, rfl, rfl, rfl, rfl, rfl, fun _ => rfl,
    fun _ => rfl⟩

/-- A new instruction; fetch goes on with the next one. -/
def renamed (i : StaticInst) (srcs : List SrcReg) (dests : List DestReg) : DynInst :=
  { staticInst := i, srcs := srcs, dests := dests, predPC := { npc := PCState.machInstSize } }

def coreAfter (es : List CycleIn) : Core :=
  ((coreMachine spectreConfig).run emptyCore es).getD emptyCore

end SdoCore
