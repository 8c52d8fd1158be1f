import SdoCore.Taint

/-! The instruction queue (`inst_queue_impl.hh`, `dep_graph.hh`) with the two readiness
tests of `base_dyn_inst_impl.hh`. Under the DelayExecute scheme a transmitter with tainted
operands is kept on a stall list until it is untainted.

Every path to a ready queue but the memory dependence unit's goes through `addIfReady`, so
what is pushed there is clean as far as `readyToIssue_UT` tests it. The test for
`moreTransTypes == 2` leaves the floating-point transmitters out. -/

namespace SdoCore

open List
open Lib
open Function (update)

inductive OpClass
  | noOpClass | intAlu | intMult | intDiv
  | floatAdd | floatCmp | floatCvt | floatMult | floatMultAcc | floatDiv | floatMisc | floatSqrt
  | simdAdd | simdAddAcc | simdAlu | simdCmp | simdCvt | simdMisc | simdMult | simdMultAcc
  | simdShift | simdShiftAcc | simdSqrt
  | simdFloatAdd | simdFloatAlu | simdFloatCmp | simdFloatCvt | simdFloatDiv | simdFloatMisc
  | simdFloatMult | simdFloatMultAcc | simdFloatSqrt
  | memRead | memWrite | floatMemRead | floatMemWrite | iprAccess | instPrefetch
  deriving DecidableEq

def OpClass.isMem : OpClass → Bool
  | .memRead | .memWrite | .floatMemRead | .floatMemWrite => true
  | _ => false

structure PhysReg where
  flatIndex : Nat
  isFixedMapping : Bool := false
  deriving DecidableEq

structure IqSrc where
  reg : PhysReg
  ready : Bool := false
  deriving DecidableEq

/-- What the queue keeps of an instruction. `canIssue`, `readyRegs` and the ready flags of
the sources come from rename. The ISA parser gives every load and store a memory class. -/
structure IqInst where
  staticInst : StaticInst
  opClass : OpClass
  isFloating : Bool := false
  isInteger : Bool := false
  srcs : List IqSrc
  dests : List PhysReg
  canIssue : Bool := false
  readyRegs : Nat := 0
  (issued atCommit memOpDone squashedInIQ : Bool := false)
  mem_opClass : staticInst.isMemRef = true → opClass.isMem = true := by decide

namespace IqInst

def isFPTransmitter (i : IqInst) : Bool :=
  i.isFloating && match i.opClass with
    | .floatMult | .floatMultAcc | .floatDiv | .floatSqrt
    | .simdFloatMult | .simdFloatMultAcc | .simdFloatDiv | .simdFloatSqrt => true
    | _ => false

def isIntTransmitter (i : IqInst) : Bool :=
  i.isInteger && match i.opClass with
    | .intMult | .intDiv => true
    | _ => false

/-- The instructions the configuration declares to be transmitters (`FullO3CPU`). -/
def isTransmitter (c : Config) (i : IqInst) : Bool :=
  i.isFPTransmitter || (c.moreTransTypes == 2 && i.isIntTransmitter)

def readyToIssue (i : IqInst) : Bool := i.canIssue

/-- `none` is the failed assertion for any other value of `moreTransTypes`. -/
def readyToIssueUT (c : Config) (i : IqInst) (argsTainted : Bool) : Option Bool :=
  if c.moreTransTypes == 1 then
    some (if i.isFPTransmitter then i.canIssue && !argsTainted else i.canIssue)
  else if c.moreTransTypes == 2 then
    some (if i.isIntTransmitter then i.canIssue && !argsTainted else i.canIssue)
  else none

def markSrcRegReady (i : IqInst) : IqInst :=
  { i with readyRegs := i.readyRegs + 1
           canIssue := i.canIssue || i.readyRegs + 1 == i.srcs.length }

def markSrcRegReadyAt (i : IqInst) (idx : Nat) : IqInst :=
  { i with srcs := i.srcs.modify idx fun s => { s with ready := true } }.markSrcRegReady

/-- What an instruction is, as far as the transmitter tests go. -/
def kind (i : IqInst) : OpClass × Bool × Bool := (i.opClass, i.isFloating, i.isInteger)

end IqInst

/-- An instruction as it was pushed on a ready queue, with its taint at that moment. -/
structure Push where
  seqNum : Nat
  inst : IqInst
  argsTainted : Bool

def Push.Clean (c : Config) (p : Push) : Prop :=
  p.inst.isTransmitter c = true → p.argsTainted = false

/-- The queue of one thread. A list of `dependGraph` starts with the newest dependent;
`pushed` is history. -/
structure Iq where
  insts : Nat → IqInst
  instList : List Nat := []
  freeEntries : Nat
  dependGraph : Nat → List Nat := fun _ => []
  regScoreboard : Nat → Bool := fun _ => true
  nonSpecInsts : List Nat := []
  stalledTaintedInstList : List Nat := []
  readyInsts : OpClass → List Nat := fun _ => []
  instsToExecute : List Nat := []
  pushed : List Push := []

namespace Iq

def modify (q : Iq) (x : Nat) (f : IqInst → IqInst) : Iq :=
  { q with insts := update q.insts x (f (q.insts x)) }

/-! ## Insertion into the ready queues -/

def push (r : Rob) (q : Iq) (x : Nat) : Iq :=
  let op := (q.insts x).opClass
  { q with readyInsts := update q.readyInsts op (x :: q.readyInsts op)
           pushed := q.pushed ++ [⟨x, q.insts x, (r.insts x).isArgsTainted⟩] }

/-- A memory instruction whose registers are ready is left to the memory dependence unit,
which calls `addReadyMemInst` when it sees fit. -/
def addIfReady (c : Config) (r : Rob) (q : Iq) (x : Nat) : Option Iq :=
  let i := q.insts x
  if c.loadInExec || !c.stt || c.moreTransTypes == 0 then
    some (if i.readyToIssue then if i.staticInst.isMemRef then q else q.push r x else q)
  else
    match i.readyToIssueUT c (r.insts x).isArgsTainted with
    | none => none
    | some true => some (if i.staticInst.isMemRef then q else q.push r x)
    | some false =>
      if i.readyToIssue then
        -- assert (inst->isArgsTainted())
        if (r.insts x).isArgsTainted then
          some (if x ∈ q.stalledTaintedInstList then q
            else { q with stalledTaintedInstList := q.stalledTaintedInstList ++ [x] })
        else none
      else some q

def addReadyMemInst (r : Rob) (q : Iq) (x : Nat) : Option Iq :=
  if (q.insts x).staticInst.isMemRef then some (q.push r x) else none

/-! ## Dispatch -/

/-- One source of `addToDependents`. -/
def addToDependent (x : Nat) (q : Iq) (idx : Nat) : Iq :=
  match (q.insts x).srcs[idx]? with
  | none => q
  | some src =>
    if src.ready || src.reg.isFixedMapping then q
    else if q.regScoreboard src.reg.flatIndex then q.modify x (·.markSrcRegReadyAt idx)
    else
      let chain := x :: q.dependGraph src.reg.flatIndex
      { q with dependGraph := update q.dependGraph src.reg.flatIndex chain }

def addToDependents (q : Iq) (x : Nat) : Iq :=
  (List.range (q.insts x).srcs.length).foldl (addToDependent x) q

/-- One destination of `addToProducers`; a register that still has dependents stops the
simulation. -/
def addToProducer (q : Iq) (d : PhysReg) : Option Iq :=
  if d.isFixedMapping then some q
  else if (q.dependGraph d.flatIndex).isEmpty then
    some { q with regScoreboard := update q.regScoreboard d.flatIndex false }
  else none

def addToProducers (q : Iq) (x : Nat) : Option Iq := (q.insts x).dests.foldlM addToProducer q

/-- The part `insert` and `insertNonSpec` share. -/
def enter (q : Iq) (x : Nat) (i : IqInst) : Option Iq :=
  if q.freeEntries = 0 then none
  else some { q with insts := update q.insts x i
                     instList := q.instList ++ [x]
                     freeEntries := q.freeEntries - 1 }

def insert (c : Config) (r : Rob) (q : Iq) (x : Nat) (i : IqInst) : Option Iq :=
  (q.enter x i).bind fun q => ((q.addToDependents x).addToProducers x).bind fun q =>
    if i.staticInst.isMemRef then some q else q.addIfReady c r x

def insertNonSpec (q : Iq) (x : Nat) (i : IqInst) : Option Iq :=
  ({ q with nonSpecInsts := x :: q.nonSpecInsts }.enter x i).bind fun q => q.addToProducers x

def scheduleNonSpec (c : Config) (r : Rob) (q : Iq) (x : Nat) : Option Iq :=
  if x ∈ q.nonSpecInsts then
    let q := q.modify x fun i => { i with atCommit := true, canIssue := true }
    (if (q.insts x).staticInst.isMemRef then some q else q.addIfReady c r x).map fun q =>
      { q with nonSpecInsts := q.nonSpecInsts.erase x }
  else none

/-! ## Wake-up -/

def wakeDependent (c : Config) (r : Rob) (q : Iq) (y : Nat) : Option Iq :=
  (q.modify y (·.markSrcRegReady)).addIfReady c r y

/-- One destination register of `wakeDependents`: its chain is popped to the end. -/
def wakeReg (c : Config) (r : Rob) (q : Iq) (d : PhysReg) : Option Iq :=
  if d.isFixedMapping then some q
  else
    ((q.dependGraph d.flatIndex).foldlM (wakeDependent c r) q).map fun q =>
      { q with dependGraph := update q.dependGraph d.flatIndex []
               regScoreboard := update q.regScoreboard d.flatIndex true }

def completeMemInst (q : Iq) (x : Nat) : Iq :=
  { q.modify x fun i => { i with memOpDone := true } with freeEntries := q.freeEntries + 1 }

def wakeDependents (c : Config) (r : Rob) (q : Iq) (x : Nat) : Option Iq :=
  if (r.insts x).squashed then none
  else
    (q.insts x).dests.foldlM (wakeReg c r)
      (if (q.insts x).staticInst.isMemRef then q.completeMemInst x else q)

/-- One entry of the stall list: `addIfReady` finds it no longer on the list. -/
def wakeUntaintInst (c : Config) (r : Rob) (q : Iq) (x : Nat) : Option Iq :=
  if (r.insts x).squashed then
    some { q with stalledTaintedInstList := q.stalledTaintedInstList.erase x }
  else
    match (q.insts x).readyToIssueUT c (r.insts x).isArgsTainted with
    | none => none
    | some true =>
      { q with stalledTaintedInstList := q.stalledTaintedInstList.erase x }.addIfReady c r x
    | some false => some q

def wakeUntaintInsts (c : Config) (r : Rob) (q : Iq) : Option Iq :=
  q.stalledTaintedInstList.foldlM (wakeUntaintInst c r) q

/-! ## Issue, commit, squash -/

/-- One step of the loop of `scheduleReadyInsts`: the oldest instruction of a class gets a
functional unit, or is dropped because it was squashed. -/
def issue (r : Rob) (q : Iq) (op : OpClass) : Option Iq :=
  match (q.readyInsts op).min? with
  | none => none
  | some x =>
    let q := { q with readyInsts := update q.readyInsts op ((q.readyInsts op).erase x) }
    if (r.insts x).squashed then some q
    else
      some { q.modify x fun i => { i with issued := true } with
        instsToExecute := q.instsToExecute ++ [x]
        freeEntries := if (q.insts x).staticInst.isMemRef then q.freeEntries
          else q.freeEntries + 1 }

/-- `mem` are the deferred and blocked memory instructions that can be tried again, `ops`
the classes that get a functional unit, in the order in which they get one. -/
def scheduleReadyInsts (r : Rob) (q : Iq) (mem : List Nat) (ops : List OpClass) : Option Iq :=
  (mem.foldlM (addReadyMemInst r) q).bind fun q => ops.foldlM (issue r) q

/-- `deferMemInst` and `blockMemInst`. -/
def deferMemInst (q : Iq) (x : Nat) : Iq :=
  q.modify x fun i => { i with issued := false, canIssue := false }

def commit (q : Iq) (n : Nat) : Iq :=
  { q with instList := q.instList.dropWhile (· ≤ n) }

/-- Takes an instruction off the chains of the sources that are not ready. -/
def unlink (q : Iq) (x : Nat) (srcs : List IqSrc) : Iq :=
  srcs.foldl (fun q s =>
    if s.ready || s.reg.isFixedMapping then q
    else
      let chain := (q.dependGraph s.reg.flatIndex).erase x
      { q with dependGraph := update q.dependGraph s.reg.flatIndex chain }) q

/-- Whether `insert` and not `insertNonSpec` is the way into the queue. -/
def dispatchedBySources (i : StaticInst) : Bool :=
  (i.isMemBarrier && (i.isLoad || (i.isStore && !i.isStoreConditional))) ||
    (!i.isNonSpeculative && !i.isStoreConditional && !i.isMemBarrier && !i.isWriteBarrier)

/-- One instruction of `doSquash`. -/
def squashInst (r : Rob) (q : Iq) (x : Nat) : Option Iq :=
  let i := q.insts x
  let gone (q : Iq) : Iq := { q with instList := q.instList.erase x }
  if i.squashedInIQ then some q
  else if !i.issued || (i.staticInst.isMemRef && !i.memOpDone) then
    let freed (q : Iq) : Iq :=
      gone { q.modify x fun i => { i with squashedInIQ := true, issued := true } with
        freeEntries := q.freeEntries + 1 }
    if dispatchedBySources i.staticInst then some (freed (q.unlink x i.srcs))
    else if x ∈ q.nonSpecInsts then
      some (freed { q with nonSpecInsts := q.nonSpecInsts.erase x })
    else if (r.insts x).status.fault || i.staticInst.isMemRef then some (freed q)
    else none
  else some (gone q)

def squash (r : Rob) (q : Iq) (n : Nat) : Option Iq :=
  (q.instList.filter (n < ·)).reverse.foldlM (squashInst r) q

end Iq

/-! ## Runs -/

structure RobIq where
  rob : Rob
  iq : Iq

/-- `regsReadyMem` is `moveToReady` of the memory dependence unit. -/
inductive IqEvent
  | rob (e : RobEvent)
  | insert (x : Nat) (i : IqInst)
  | insertNonSpec (x : Nat) (i : IqInst)
  | scheduleNonSpec (x : Nat)
  | wakeDependents (x : Nat)
  | wakeUntaintInsts
  | scheduleReadyInsts (mem : List Nat) (ops : List OpClass)
  | regsReadyMem (x : Nat)
  | deferMemInst (x : Nat)
  | commit (n : Nat)
  | squash (n : Nat)

namespace RobIq

def iqStep (c : Config) (s : RobIq) : IqEvent → Option Iq
  | .rob _ => some s.iq
  | .insert x i => s.iq.insert c s.rob x i
  | .insertNonSpec x i => s.iq.insertNonSpec x i
  | .scheduleNonSpec x => s.iq.scheduleNonSpec c s.rob x
  | .wakeDependents x => s.iq.wakeDependents c s.rob x
  | .wakeUntaintInsts => s.iq.wakeUntaintInsts c s.rob
  | .scheduleReadyInsts mem ops => s.iq.scheduleReadyInsts s.rob mem ops
  | .regsReadyMem x => s.iq.addReadyMemInst s.rob x
  | .deferMemInst x =>
    if (s.iq.insts x).staticInst.isMemRef then some (s.iq.deferMemInst x) else none
  | .commit n => some (s.iq.commit n)
  | .squash n => s.iq.squash s.rob n

def robStep (c : Config) (s : RobIq) : IqEvent → Option Rob
  | .rob e => s.rob.step c e
  | _ => some s.rob

def step (c : Config) (s : RobIq) (e : IqEvent) : Option RobIq :=
  (s.robStep c e).bind fun r => (s.iqStep c e).map fun q => ⟨r, q⟩

end RobIq

def iqMachine (c : Config) : Machine RobIq IqEvent where
  start s := (robMachine c).start s.rob ∧ s.iq.instList = [] ∧ s.iq.pushed = []
  step s e := s.step c e

/-! ## What reaches a ready queue -/

namespace Iq

variable {c : Config} {r : Rob} {q q' q'' : Iq} {x : Nat}

/-- The instruction may be tested: `readyToIssue_UT` tests its taint, or it has none. -/
def Testable (c : Config) (r : Rob) (x : Nat) (i : IqInst) : Prop :=
  c.moreTransTypes = 1 ∨ (i.isFPTransmitter = true → (r.insts x).isArgsTainted = false)

instance (c : Config) (r : Rob) (x : Nat) (i : IqInst) : Decidable (Testable c r x i) :=
  inferInstanceAs (Decidable (_ ∨ _))

/-- What every operation of the queue does, as far as pushes are concerned. -/
structure Adds (c : Config) (q q' : Iq) : Prop where
  kind : ∀ x, (q'.insts x).kind = (q.insts x).kind
  pushed : ∀ p ∈ q'.pushed, p ∈ q.pushed ∨ p.Clean c

theorem Adds.refl (q : Iq) : Adds c q q := ⟨fun _ => rfl, fun _ hp => .inl hp⟩

theorem Adds.trans (h : Adds c q q') (h' : Adds c q' q'') : Adds c q q'' where
  kind x := (h'.kind x).trans (h.kind x)
  pushed p hp := (h'.pushed p hp).elim (h.pushed p) .inr

/-- Nothing is pushed and no instruction changes its kind. -/
theorem adds_of_eq (hk : ∀ x, (q'.insts x).kind = (q.insts x).kind) (hp : q'.pushed = q.pushed) :
    Adds c q q' :=
  ⟨hk, fun _ h => .inl (hp ▸ h)⟩

theorem modify_adds (q : Iq) (x : Nat) (f : IqInst → IqInst)
    (hf : (f (q.insts x)).kind = (q.insts x).kind) : Adds c q (q.modify x f) := by
  refine adds_of_eq (fun y => ?_) rfl
  rcases eq_or_ne y x with rfl | hne
  · simpa [modify] using hf
  · simp [modify, hne]

theorem push_adds (q : Iq) (x : Nat)
    (h : (q.insts x).isTransmitter c → (r.insts x).isArgsTainted = false) :
    Adds c q (q.push r x) := by
  refine ⟨fun _ => rfl, fun p hp => ?_⟩
  rcases mem_append.mp hp with hp | hp
  · exact .inl hp
  rw [mem_singleton] at hp
  subst hp
  exact .inr h

variable {i : IqInst} {α : Type}

theorem isFPTransmitter_congr {j : IqInst} (h : i.kind = j.kind) :
    i.isFPTransmitter = j.isFPTransmitter := by
  simp only [IqInst.kind, Prod.mk.injEq] at h
  simp only [IqInst.isFPTransmitter, h.1, h.2.1]

theorem Testable.congr {j : IqInst} (h : i.kind = j.kind) (ht : Testable c r x i) :
    Testable c r x j := by
  rw [Testable, isFPTransmitter_congr h] at ht
  exact ht

/-- The memory classes are not transmitters. -/
theorem isTransmitter_mem (h : i.staticInst.isMemRef) :
    i.isTransmitter c = false := by
  have hm := i.mem_opClass h
  revert hm
  cases ho : i.opClass <;>
    simp [OpClass.isMem, IqInst.isTransmitter, IqInst.isFPTransmitter, IqInst.isIntTransmitter, ho]

/-- What passes `readyToIssue_UT` and may be tested is clean. -/
theorem readyToIssueUT_clean {t : Bool} (hm : c.moreTransTypes = 1 ∨ c.moreTransTypes = 2)
    (h : i.readyToIssueUT c t = some true)
    (ht : c.moreTransTypes = 1 ∨ (i.isFPTransmitter → t = false))
    (hi : i.isTransmitter c) : t = false := by
  rcases hm with hm | hm
  · have hfp : i.isFPTransmitter = true := by simpa [IqInst.isTransmitter, hm] using hi
    simp only [IqInst.readyToIssueUT, hm, hfp, beq_self_eq_true, if_true, Option.some.injEq,
      Bool.and_eq_true, Bool.not_eq_true'] at h
    exact h.2
  · have hfp : i.isFPTransmitter = true → t = false := ht.resolve_left (by omega)
    rcases Bool.eq_false_or_eq_true i.isFPTransmitter with hf | hf
    · exact hfp hf
    have hint : i.isIntTransmitter = true := by simpa [IqInst.isTransmitter, hm, hf] using hi
    simp [IqInst.readyToIssueUT, hm, hint] at h
    exact h.2

/-- The scheme under which transmitters wait. -/
structure DelayExecute (c : Config) : Prop where
  stt : c.stt = true
  loadInExec : c.loadInExec = false
  moreTransTypes : c.moreTransTypes = 1 ∨ c.moreTransTypes = 2

theorem addIfReady_adds (hc : DelayExecute c) (ht : Testable c r x (q.insts x))
    (h : q.addIfReady c r x = some q') : Adds c q q' := by
  have hcfg : (c.loadInExec || !c.stt || c.moreTransTypes == 0) = false := by
    rcases hc.moreTransTypes with hm | hm <;> simp [hc.stt, hc.loadInExec, hm]
  simp only [addIfReady, hcfg, Bool.false_eq_true, if_false] at h
  split at h
  · cases h
  · next hut =>
    -- the test was passed
    cases h
    split
    · exact .refl q
    · exact push_adds q x (readyToIssueUT_clean hc.moreTransTypes hut ht)
  · split at h
    · split at h
      · cases h
        split
        · exact .refl q
        · exact adds_of_eq (fun _ => rfl) rfl
      · cases h
    · cases h
      exact .refl q

theorem addReadyMemInst_adds (h : q.addReadyMemInst r x = some q') : Adds c q q' := by
  simp only [addReadyMemInst] at h
  split at h
  · next hmem =>
    cases h
    exact push_adds q x (fun hi => by rw [isTransmitter_mem hmem] at hi; cases hi)
  · cases h

/-! ## Loops -/

/-- A loop keeps a reflexive and transitive relation that its body keeps, whatever the loop
has done to the queue so far. -/
theorem foldlM_keeps {R : Iq → Iq → Prop} (hrefl : ∀ p, R p p)
    (htrans : ∀ {p₁ p₂ p₃}, R p₁ p₂ → R p₂ p₃ → R p₁ p₃) {f : Iq → α → Option Iq} (l : List α)
    (hf : ∀ a ∈ l, ∀ p p', R q p → f p a = some p' → R p p')
    (h : l.foldlM f q = some q') : R q q' := by
  suffices ∀ p, R q p → l.foldlM f p = some q' → R q q' from this q (hrefl q) h
  clear h
  induction l with
  | nil =>
    intro p hp h
    cases h
    exact hp
  | cons a l ih =>
    intro p hp h
    obtain ⟨p', hb, hr⟩ := Option.bind_eq_some_iff.mp h
    exact ih (fun b hb => hf b (mem_cons_of_mem a hb)) p'
      (htrans hp (hf a mem_cons_self p p' hp hb)) hr

theorem foldlM_adds {f : Iq → α → Option Iq} (l : List α)
    (hf : ∀ a ∈ l, ∀ p p', Adds c q p → f p a = some p' → Adds c p p')
    (h : l.foldlM f q = some q') : Adds c q q' :=
  foldlM_keeps .refl .trans l hf h

theorem foldl_adds {f : Iq → α → Iq} (l : List α) (hf : ∀ a p, Adds c p (f p a)) (q : Iq) :
    Adds c q (l.foldl f q) := by
  induction l generalizing q with
  | nil => exact .refl q
  | cons a l ih => exact (hf a q).trans (ih (f q a))

theorem addToDependents_adds (q : Iq) (x : Nat) : Adds c q (q.addToDependents x) := by
  refine foldl_adds _ (fun idx p => ?_) q
  unfold addToDependent
  split
  · exact .refl p
  split
  · exact .refl p
  split
  · exact modify_adds p x _ rfl
  · exact adds_of_eq (fun _ => rfl) rfl

theorem addToProducers_adds (h : q.addToProducers x = some q') : Adds c q q' := by
  refine foldlM_adds _ (fun d _ p p' _ hd => ?_) h
  simp only [addToProducer] at hd
  split at hd
  · cases hd
    exact .refl p
  split at hd
  · cases hd
    exact adds_of_eq (fun _ => rfl) rfl
  · cases hd

/-- The wake-up loops besides only take instructions off the dependence chains. -/
structure Wakes (c : Config) (q q' : Iq) : Prop extends Adds c q q' where
  chains : ∀ n, ∀ y ∈ q'.dependGraph n, y ∈ q.dependGraph n

theorem Wakes.refl (q : Iq) : Wakes c q q := ⟨.refl q, fun _ _ h => h⟩

theorem Wakes.trans (h : Wakes c q q') (h' : Wakes c q' q'') : Wakes c q q'' :=
  ⟨h.toAdds.trans h'.toAdds, fun n y hy => h.chains n y (h'.chains n y hy)⟩

theorem addIfReady_dependGraph (h : q.addIfReady c r x = some q') :
    q'.dependGraph = q.dependGraph := by
  simp only [addIfReady] at h
  split at h
  · cases h
    split
    · split <;> rfl
    · rfl
  · split at h
    · cases h
    · cases h
      split <;> rfl
    split at h
    · split at h
      · cases h
        split <;> rfl
      · cases h
    · cases h
      rfl

theorem wakeDependent_wakes (hc : DelayExecute c) {y : Nat} (ht : Testable c r y (q.insts y))
    (h : q.wakeDependent c r y = some q') : Wakes c q q' := by
  have hm : Adds c q (q.modify y (·.markSrcRegReady)) := modify_adds q y _ rfl
  refine ⟨hm.trans (addIfReady_adds hc (ht.congr (hm.kind y).symm) h), fun n z hz => ?_⟩
  rw [addIfReady_dependGraph h] at hz
  exact hz

theorem wakeReg_wakes (hc : DelayExecute c) {d : PhysReg}
    (ht : ∀ y ∈ q.dependGraph d.flatIndex, Testable c r y (q.insts y))
    (h : q.wakeReg c r d = some q') : Wakes c q q' := by
  simp only [wakeReg] at h
  split at h
  · cases h
    exact .refl q
  obtain ⟨p, hp, rfl⟩ := Option.map_eq_some_iff.mp h
  have hw : Wakes c q p := foldlM_keeps .refl .trans _
    (fun y hy p₁ p₂ h₁ h₂ => wakeDependent_wakes hc ((ht y hy).congr (h₁.kind y).symm) h₂) hp
  refine hw.trans ⟨adds_of_eq (fun _ => rfl) rfl, fun n y hy => ?_⟩
  rcases eq_or_ne n d.flatIndex with rfl | hne
  · simp at hy
  · simpa [hne] using hy

theorem wakeDependents_adds (hc : DelayExecute c)
    (ht : ∀ d ∈ (q.insts x).dests, ∀ y ∈ q.dependGraph d.flatIndex, Testable c r y (q.insts y))
    (h : q.wakeDependents c r x = some q') : Adds c q q' := by
  simp only [wakeDependents] at h
  split at h
  · cases h
  have h0 : Wakes c q (if (q.insts x).staticInst.isMemRef then q.completeMemInst x else q) := by
    split
    · exact ⟨(modify_adds q x (fun i => { i with memOpDone := true }) rfl).trans
        (adds_of_eq (fun _ => rfl) rfl), fun _ _ hy => hy⟩
    · exact .refl q
  refine (h0.trans (foldlM_keeps .refl .trans _ (fun d hd p p' hp hw => ?_) h)).toAdds
  -- what is left on the chain of `d` was there when the loop started
  refine wakeReg_wakes hc (fun y hy => ?_) hw
  have hall := h0.trans hp
  exact (ht d hd y (hall.chains _ y hy)).congr (hall.kind y).symm

theorem wakeUntaintInsts_adds (hc : DelayExecute c)
    (ht : ∀ y ∈ q.stalledTaintedInstList, Testable c r y (q.insts y))
    (h : q.wakeUntaintInsts c r = some q') : Adds c q q' := by
  refine foldlM_adds _ (fun y hy p p' hp hw => ?_) h
  simp only [wakeUntaintInst] at hw
  split at hw
  · cases hw
    exact adds_of_eq (fun _ => rfl) rfl
  split at hw
  · cases hw
  · have herase : Adds c p { p with stalledTaintedInstList := p.stalledTaintedInstList.erase y } :=
      adds_of_eq (fun _ => rfl) rfl
    refine herase.trans (addIfReady_adds hc ?_ hw)
    exact (ht y hy).congr (hp.kind y).symm
  · cases hw
    exact .refl p

theorem issue_adds {op : OpClass} (h : q.issue r op = some q') : Adds c q q' := by
  simp only [issue] at h
  split at h
  · cases h
  rename_i y _
  split at h
  · cases h
    exact adds_of_eq (fun _ => rfl) rfl
  · cases h
    exact (modify_adds q y (fun i => { i with issued := true }) rfl).trans
      (adds_of_eq (fun _ => rfl) rfl)

theorem scheduleReadyInsts_adds {mem : List Nat} {ops : List OpClass}
    (h : q.scheduleReadyInsts r mem ops = some q') : Adds c q q' := by
  obtain ⟨p, hm, ho⟩ := Option.bind_eq_some_iff.mp h
  exact (foldlM_adds mem (fun _ _ _ _ _ hp => addReadyMemInst_adds hp) hm).trans
    (foldlM_adds ops (fun _ _ _ _ _ hp => issue_adds hp) ho)

theorem unlink_adds (q : Iq) (x : Nat) (srcs : List IqSrc) : Adds c q (q.unlink x srcs) := by
  refine foldl_adds _ (fun s p => ?_) q
  split
  · exact .refl p
  · exact adds_of_eq (fun _ => rfl) rfl

theorem squashInst_adds (h : q.squashInst r x = some q') : Adds c q q' := by
  have hfreed (p : Iq) : Adds c p
      { p.modify x fun i => { i with squashedInIQ := true, issued := true } with
        freeEntries := p.freeEntries + 1
        instList := p.instList.erase x } :=
    (modify_adds p x (fun i => { i with squashedInIQ := true, issued := true }) rfl).trans
      (adds_of_eq (fun _ => rfl) rfl)
  simp only [squashInst] at h
  split at h
  · cases h
    exact .refl q
  split at h
  · split at h
    · cases h
      exact (unlink_adds q x _).trans (hfreed _)
    split at h
    · cases h
      have herase : Adds c q { q with nonSpecInsts := q.nonSpecInsts.erase x } :=
        adds_of_eq (fun _ => rfl) rfl
      exact herase.trans (hfreed _)
    · split at h
      · cases h
        exact hfreed q
      · cases h
  · cases h
    exact adds_of_eq (fun _ => rfl) rfl

theorem squash_adds {n : Nat} (h : q.squash r n = some q') : Adds c q q' :=
  foldlM_adds _ (fun _ _ _ _ _ hp => squashInst_adds hp) h

/-- A new instruction has a kind of its own; nothing is pushed. -/
theorem enter_spec (h : q.enter x i = some q') :
    q'.insts x = i ∧ q'.pushed = q.pushed := by
  simp only [enter] at h
  split at h
  · cases h
  · cases h
    exact ⟨by simp, rfl⟩

theorem insert_pushed (hc : DelayExecute c) (ht : Testable c r x i)
    (h : q.insert c r x i = some q') : ∀ p ∈ q'.pushed, p ∈ q.pushed ∨ p.Clean c := by
  obtain ⟨q₁, h₁, h⟩ := Option.bind_eq_some_iff.mp h
  obtain ⟨q₂, h₂, h⟩ := Option.bind_eq_some_iff.mp h
  obtain ⟨hi, hp⟩ := enter_spec h₁
  have h12 : Adds c q₁ q₂ := (addToDependents_adds q₁ x).trans (addToProducers_adds h₂)
  have hall : Adds c q₁ q' := by
    split at h
    · cases h
      exact h12
    · exact h12.trans (addIfReady_adds hc (ht.congr (hi ▸ (h12.kind x).symm)) h)
  exact hp ▸ hall.pushed

theorem insertNonSpec_pushed (h : q.insertNonSpec x i = some q') :
    ∀ p ∈ q'.pushed, p ∈ q.pushed ∨ p.Clean c := by
  obtain ⟨q₁, h₁, h⟩ := Option.bind_eq_some_iff.mp h
  have hp : q₁.pushed = q.pushed := (enter_spec h₁).2
  exact hp ▸ (addToProducers_adds h).pushed

theorem scheduleNonSpec_adds (hc : DelayExecute c) (ht : Testable c r x (q.insts x))
    (h : q.scheduleNonSpec c r x = some q') : Adds c q q' := by
  simp only [scheduleNonSpec] at h
  split at h
  · obtain ⟨p, hp, rfl⟩ := Option.map_eq_some_iff.mp h
    have hm : Adds c q (q.modify x fun i => { i with atCommit := true, canIssue := true }) :=
      modify_adds q x _ rfl
    refine (hm.trans ?_).trans (adds_of_eq (q := p) (fun _ => rfl) rfl)
    split at hp
    · cases hp
      exact .refl _
    · exact addIfReady_adds hc (ht.congr (hm.kind x).symm) hp
  · cases h

end Iq

/-! ## Runs of the queue -/

namespace RobIq

/-- The instructions a step gives to `addIfReady`, as they are before it. -/
def tested (s : RobIq) : IqEvent → List (Nat × IqInst)
  | .insert x i => [(x, i)]
  | .scheduleNonSpec x => [(x, s.iq.insts x)]
  | .wakeDependents x =>
    (s.iq.insts x).dests.flatMap fun d =>
      (s.iq.dependGraph d.flatIndex).map fun y => (y, s.iq.insts y)
  | .wakeUntaintInsts => s.iq.stalledTaintedInstList.map fun y => (y, s.iq.insts y)
  | _ => []

/-- `moreTransTypes` is 1, or no floating-point transmitter that the step looks at is
tainted. -/
def FPTested (c : Config) (s : RobIq) (e : IqEvent) : Prop :=
  ∀ p ∈ s.tested e, Iq.Testable c s.rob p.1 p.2

instance (c : Config) (s : RobIq) (e : IqEvent) : Decidable (s.FPTested c e) :=
  inferInstanceAs (Decidable (∀ _ ∈ _, _))

theorem step_pushed {c : Config} (hc : Iq.DelayExecute c) {s s' : RobIq} {e : IqEvent}
    (ht : s.FPTested c e) (h : s.step c e = some s') :
    ∀ p ∈ s'.iq.pushed, p ∈ s.iq.pushed ∨ p.Clean c := by
  obtain ⟨r, _, h⟩ := Option.bind_eq_some_iff.mp h
  obtain ⟨q, hq, rfl⟩ := Option.map_eq_some_iff.mp h
  cases e with
  | rob e =>
    cases hq
    exact fun p hp => .inl hp
  | insert x i => exact Iq.insert_pushed hc (ht _ mem_cons_self) hq
  | insertNonSpec x i => exact Iq.insertNonSpec_pushed hq
  | scheduleNonSpec x => exact (Iq.scheduleNonSpec_adds hc (ht _ mem_cons_self) hq).pushed
  | wakeDependents x =>
    refine (Iq.wakeDependents_adds hc (fun d hd y hy => ?_) hq).pushed
    exact ht (y, s.iq.insts y)
      (mem_flatMap.mpr ⟨d, hd, mem_map.mpr ⟨y, hy, rfl⟩⟩)
  | wakeUntaintInsts =>
    refine (Iq.wakeUntaintInsts_adds hc (fun y hy => ?_) hq).pushed
    exact ht (y, s.iq.insts y) (mem_map.mpr ⟨y, hy, rfl⟩)
  | scheduleReadyInsts mem ops => exact (Iq.scheduleReadyInsts_adds hq).pushed
  | regsReadyMem x => exact (Iq.addReadyMemInst_adds hq).pushed
  | deferMemInst x =>
    simp only [iqStep] at hq
    split at hq
    · cases hq
      exact (Iq.modify_adds (c := c) s.iq x _ rfl).pushed
    · cases hq
  | commit n =>
    cases hq
    exact fun p hp => .inl hp
  | squash n => exact (Iq.squash_adds hq).pushed

end RobIq

/-- No instruction of the configured transmitter set is pushed on a ready queue while its
arguments are tainted. -/
theorem transmitters_untainted {c : Config} (hstt : c.stt = true) (hle : c.loadInExec = false)
    (hm : c.moreTransTypes = 1 ∨ c.moreTransTypes = 2) {s : RobIq}
    (h : (iqMachine c).ReachWhen (RobIq.FPTested c) s) :
    ∀ p ∈ s.iq.pushed, p.inst.isTransmitter c = true → p.argsTainted = false := by
  refine h.invariant (I := fun s => ∀ p ∈ s.iq.pushed, Push.Clean c p) ?_ ?_
  · intro s hs p hp
    rw [hs.2.2] at hp
    cases hp
  · intro s e s' hi ht hstep p hp
    exact (RobIq.step_pushed ⟨hstt, hle, hm⟩ ht hstep p hp).elim (hi p) id

/-- Integer and floating-point multiplications and divisions have to wait. -/
def delayConfig (transTypes : Nat) : Config :=
  { spectreConfig with loadInExec := false, moreTransTypes := transTypes }

def emptyIq : RobIq where
  rob := emptyRob
  iq := { insts := fun _ => { staticInst := plainInst, opClass := .intAlu, srcs := [], dests := [] }
          freeEntries := 64 }

theorem emptyIq_start (n : Nat) : (iqMachine (delayConfig n)).start emptyIq :=
  ⟨⟨rfl, rfl, rfl⟩, rfl, rfl⟩

/-- A floating-point divide that reads physical register 41. -/
def divideInst : IqInst :=
  { staticInst := plainInst, opClass := .floatDiv, isFloating := true,
    srcs := [⟨⟨41, false⟩, false⟩], dests := [] }

def loadIqInst : IqInst :=
  { staticInst := loadInst, opClass := .memRead, srcs := [], dests := [⟨41, false⟩],
    canIssue := true }

/-- Under an unresolved branch a load writes register 41, which a divide reads; the taint
is computed and the load completes. -/
def divideRun : List IqEvent :=
  let reg : RegId := ⟨.floatRegClass, floatRegXmm4Low + 2⟩
  [.rob (.insertInst 1 { staticInst := branchInst, srcs := [], dests := [] }),
   .rob (.insertInst 2 { staticInst := loadInst, srcs := [], dests := [⟨reg, 41⟩] }),
   .rob (.insertInst 3 { staticInst := plainInst, srcs := [⟨reg, reg, 41, none⟩], dests := [] }),
   .insert 2 loadIqInst, .insert 3 divideInst, .rob .cycle, .regsReadyMem 2,
   .scheduleReadyInsts [] [.memRead], .wakeDependents 2]

/-- With `moreTransTypes == 1` the divide is not pushed until the branch is resolved. -/
def divideWaits : List IqEvent :=
  divideRun ++ [.wakeUntaintInsts, .rob (.setStatus 1 { canCommit := true, executed := true }),
    .rob .cycle, .wakeUntaintInsts]

def afterIq (n : Nat) (es : List IqEvent) : RobIq :=
  ((iqMachine (delayConfig n)).run emptyIq es).getD emptyIq

theorem transmitters_untainted_divide :
    ((afterIq 1 divideRun).rob.insts 3).isArgsTainted = true ∧
      (afterIq 1 divideRun).iq.stalledTaintedInstList = [3] ∧
      ((afterIq 1 divideWaits).iq.pushed.map fun p => (p.seqNum, p.argsTainted)) =
        [(2, false), (3, false)] ∧
      ∀ p ∈ (afterIq 1 divideWaits).iq.pushed,
        p.inst.isTransmitter (delayConfig 1) = true → p.argsTainted = false :=
  ⟨by decide +kernel, by decide +kernel, by decide +kernel,
    transmitters_untainted rfl rfl (.inl rfl)
      (.run (.start (emptyIq_start 1)) divideWaits (by decide +kernel)
        (Machine.run_getD (by decide +kernel)))⟩

/-- With `moreTransTypes == 2` it is pushed while it is tainted. -/
theorem transmitter_tainted :
    ¬ ∀ (c : Config) (s : RobIq), c.stt = true → c.loadInExec = false →
      c.moreTransTypes = 1 ∨ c.moreTransTypes = 2 → (iqMachine c).Reach s →
      ∀ p ∈ s.iq.pushed, p.inst.isTransmitter c = true → p.argsTainted = false := by
  intro h
  have hreach : (iqMachine (delayConfig 2)).Reach (afterIq 2 divideRun) :=
    Machine.reach_run (emptyIq_start 2) (Machine.run_getD (by decide +kernel))
  have hall := h _ _ rfl rfl (.inr rfl) hreach
  have hbad : ∃ p ∈ (afterIq 2 divideRun).iq.pushed,
      p.inst.isTransmitter (delayConfig 2) = true ∧ p.argsTainted = true := by
    decide +kernel
  obtain ⟨p, hp, ht, htaint⟩ := hbad
  rw [hall p hp ht] at htaint
  cases htaint

end SdoCore
