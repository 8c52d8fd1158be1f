import SdoCore.Lib.Machine
import SdoCore.Lsq.Expose
import SdoCore.Lsq.Issue
import SdoCore.Lsq.Responses

/-! The life of one load, from its entry into the load queue on: it is executed until the
memory system or a store takes it, responses come in, `exposeLoads` passes over it, invalidations
reach it, and it is committed or squashed, in any order.

Results:
* `stage_of_reach`: a load is in one of six stages, and an oblivious load is coherent.
* `quiet_of_step`: what is visible outside the core happens to ready loads only. -/

namespace SdoCore

open Lib
open List
open Option (bind_eq_some_iff map_eq_some_iff)

/-- A load and whether it is `readyToExpose`. -/
structure Life where
  load : LoadInst := {}
  ready : Bool := false
  deriving DecidableEq

inductive LoadEvent
  | becomeReady
  | exposeLoads (fst snd : Bool)
  | executeLoad (isHead prevLoadsExecuted : Bool) (tr : Translation) (rd : ReadInput)
  | finishTranslation (fault strictlyOrdered : Bool) (lineLow lineHigh : Nat)
  | oblResponse (h : Half) (p : OblPkt)
  | postResponse (h : Half) (p : RespPkt)
  | staleResponse (p : RespPkt)
  | readResponse (h : Half) (p : RespPkt)
  | staleReadResponse (obl : Bool) (p : OblPkt)
  | writebackEvent
  | checkSnoop (line : Nat) (isExternalEviction fenceDelay force : Bool)
  | possibleLoadViolation
  | setAtCommit
  | setCanCommit
  | commit
  | squash
  deriving DecidableEq

namespace LoadInst

/-- The load is in the instruction queue, and not waiting for a page walk. -/
def issuable (l : LoadInst) : Bool :=
  !l.squashed && !l.wb.executed && !l.readLow && !l.readHigh && l.wbEvent.isNone &&
    !l.second.needPostFetch && !l.acc.walking

/-- The table of the sequencer still has the first half of an earlier attempt, so another is
refused. -/
def aliased (c : LsqConfig) (ready : Bool) (l : LoadInst) : Bool :=
  if c.isInvisibleSpec && !ready then l.staleObl else l.staleRead

def reading (l : LoadInst) : Half → Bool
  | .low => l.readLow
  | .high => l.readHigh

end LoadInst

namespace Life

/-- The head of the reorder buffer passes `commitHead` without a fault. -/
def retires (s : Life) : Bool :=
  !s.load.squashed && s.load.canCommit && s.load.isLoadSafeToCommit && s.load.wb.executed &&
    s.load.fault.isNone && s.ready

/-- What the rest of the system may do. The perfect predictor's request is answered with the
data by the last packet. -/
def enabled (c : LsqConfig) (s : Life) : LoadEvent → Bool
  | .executeLoad _ _ _ rd => s.load.issuable && !(rd.fst && s.load.aliased c s.ready)
  | .finishTranslation _ _ _ _ => s.load.acc.walking
  | .oblResponse h p =>
    s.load.mayReceive c h p && (!c.perfectUnsafe || !p.carryData || p.isFinalPacket)
  | .postResponse h _ => s.load.second.post.any (·.awaits h)
  | .staleResponse _ => 0 < s.load.second.staleResponses
  | .readResponse h _ => s.load.reading h
  | .staleReadResponse obl _ => if obl then s.load.staleObl else s.load.staleRead
  | .writebackEvent => s.load.wbEvent.isSome
  | .commit => s.retires
  | _ => true

/-- The handlers; `none` is a failed assertion. -/
def handle (c : LsqConfig) (s : Life) : LoadEvent → Option LoadInst
  | .becomeReady => some s.load
  | .exposeLoads fst snd => (s.load.exposeLoad c s.ready fst snd).map (·.1)
  | .executeLoad isHead prevLoadsExecuted tr rd =>
    s.load.executeLoad c s.ready isHead prevLoadsExecuted tr rd
  | .finishTranslation fault strictlyOrdered lineLow lineHigh =>
    some (s.load.finishTranslation fault strictlyOrdered lineLow lineHigh true)
  | .oblResponse h p => s.load.completeOblS c s.ready h p
  | .postResponse h p => s.load.second.post.bind fun q => s.load.completePost c s.ready q h p
  | .staleResponse p => some (s.load.completeStale p)
  | .readResponse h p => s.load.completeRead c h p
  | .staleReadResponse obl p => some (s.load.completeStaleRead obl p)
  | .writebackEvent => s.load.processWriteback c
  | .checkSnoop line isExternalEviction fenceDelay force =>
    some (s.load.checkSnoop c line isExternalEviction fenceDelay force).1
  | .possibleLoadViolation => some { s.load with acc.possibleLoadViolation := true }
  | .setAtCommit =>
    some { s.load with acc.atCommit := true, wb.sentToCommit := false, canCommit := false }
  | .setCanCommit => some { s.load with canCommit := s.load.canCommit || s.load.wb.sentToCommit }
  | .commit => some { s.load with committed := true }
  | .squash => some { s.load with squashed := true }

def readyAfter (s : Life) (e : LoadEvent) : Bool := s.ready || e == .becomeReady

def step (c : LsqConfig) (s : Life) (e : LoadEvent) : Option Life :=
  if s.enabled c e then (s.handle c e).map (⟨·, s.readyAfter e⟩) else none

end Life

/-- A load enters the queue with what its instruction says about the access. -/
def loadMachine (c : LsqConfig) : Machine Life LoadEvent where
  start s := ∃ isSplit isDataPrefetch isInstPrefetch ordered, s =
    { load.acc := { isSplit, isDataPrefetch, isInstPrefetch, ordered } }
  step := Life.step c

/-! ## The stages of a load -/

namespace LoadInst

variable {c : LsqConfig} {ready : Bool} {l l' : LoadInst}

/-- The load has no oblivious request under way and nothing to do with a second access. -/
structure Plain (l : LoadInst) : Prop where
  postFetch : l.second.needPostFetch = false
  post : l.second.post = none
  stale : l.second.staleResponses = 0
  flights : l.obl.low.outstanding = false ∧ l.obl.high.outstanding = false
  sends : .validate ∉ l.sends ∧ .expose ∉ l.sends

/-- The predictor knows nothing of the load yet. -/
def Untrained (t : Training) : Prop := t.doneLocPredUpdate = false ∧ t.updates = []

/-- Nothing took the load so far. -/
structure Fresh (c : LsqConfig) (ready : Bool) (l : LoadInst) : Prop where
  second : l.second = {}
  state : l.mldomState = .A
  obl : l.obl = { tlbHit := l.obl.tlbHit }
  wb : l.wb = { sentToCommit := l.wb.sentToCommit }
  idle : l.readLow = false ∧ l.readHigh = false ∧ l.wbEvent = none ∧ l.ifLdStFwd = false
  train : Untrained l.train
  sends : .validate ∉ l.sends ∧ .expose ∉ l.sends
  stale : l.staleRead = true → ready = true
  tlb : l.obl.tlbHit = false → c.tlbDefense = 3

/-- An ordinary read or a `WritebackEvent` is under way. -/
structure Pending (l : LoadInst) : Prop where
  fault : l.fault = none ∨ l.fault = some .reExec
  executed : l.wb.executed = false
  result : l.wb.result = none
  train : Untrained l.train
  walking : l.acc.walking = false

structure Reading (ready : Bool) (l : LoadInst) : Prop where
  plain : Plain l
  pending : Pending l
  ready : ready = true
  busy : (l.readLow || l.readHigh) = true
  event : l.wbEvent = none
  forward : l.ifLdStFwd = false

structure Waiting (ready : Bool) (l : LoadInst) : Prop where
  plain : Plain l
  pending : Pending l
  idle : l.readLow = false ∧ l.readHigh = false
  event : l.wbEvent = some .ipr ∧ l.ifLdStFwd = false ∨
    l.wbEvent = some .forward ∧ l.ifLdStFwd = true
  stale : l.staleRead = true → ready = true

/-- The load was executed without an oblivious request. -/
structure Done (ready : Bool) (l : LoadInst) : Prop where
  plain : Plain l
  executed : l.wb.executed = true
  idle : l.readLow = false ∧ l.readHigh = false ∧ l.wbEvent = none
  walking : l.acc.walking = false
  source : ∀ r, l.wb.result = some r → r.source ≠ .oblS ∧ r.source ≠ .validate
  train : l.train.updates.length = if l.train.doneLocPredUpdate then 1 else 0
  stale : l.staleRead = true → ready = true

structure Oblivious (c : LsqConfig) (ready : Bool) (l : LoadInst) : Prop where
  coherent : Coherent c ready l
  confirmed : Confirmed l
  missed : l.obl.missed = true → l.obl.tlbHit = false ∨ l.acc.isSplit = true
  idle : l.readLow = false ∧ l.readHigh = false ∧ l.wbEvent = none ∧ l.ifLdStFwd = false
  stale : l.staleObl = false ∧ l.staleRead = false
  access : l.acc.effAddrValid = true ∧ l.acc.strictlyOrdered = false ∧ l.acc.walking = false

inductive Stage (c : LsqConfig) (ready : Bool) (l : LoadInst) : Prop
  | squashed : l.squashed = true → Stage c ready l
  | fresh : Fresh c ready l → Stage c ready l
  | reading : Reading ready l → Stage c ready l
  | waiting : Waiting ready l → Stage c ready l
  | done : Done ready l → Stage c ready l
  | oblivious : Oblivious c ready l → Stage c ready l

/-! ## Execution -/

section
variable (hf : Fresh c ready l)
include hf

theorem Fresh.plain : Plain l where
  postFetch := by rw [hf.second]
  post := by rw [hf.second]
  stale := by rw [hf.second]
  flights := by rw [hf.obl]; exact ⟨rfl, rfl⟩
  sends := hf.sends

theorem Fresh.walk : Fresh c ready l.walk :=
  { hf with }

theorem Fresh.finishTranslation (f so : Bool) (low high : Nat) (w : Bool) :
    Fresh c ready (l.finishTranslation f so low high w) :=
  { hf with }

theorem Fresh.checkTLBMiss (tr : Translation) : Fresh c ready (l.checkTLBMiss c ready tr) := by
  refine { hf with obl := ?_, tlb := fun h => ?_ }
  · simp only [LoadInst.checkTLBMiss]
    rw [hf.obl]
  simp only [LoadInst.checkTLBMiss, specTLBMiss, Bool.and_eq_false_iff] at h
  rcases h with h | h
  · exact hf.tlb h
  · simp only [Bool.not_eq_false', Bool.and_eq_true, beq_iff_eq] at h
    exact h.1.1

theorem Fresh.flights (b missed : Bool) : Flights c (l.oblSent c b missed) := by
  have hh : l.obl.hits = {} := by rw [hf.obl]
  have h1 : l.obl.fstHalfHit = {} := by rw [hf.obl]
  have h2 : l.obl.sndHalfHit = {} := by rw [hf.obl]
  have hc : l.obl.complete = false := by rw [hf.obl]
  have hl : l.obl.fstHalfComplete = false := by rw [hf.obl]
  have hr : l.obl.sndHalfComplete = false := by rw [hf.obl]
  constructor <;> simp +contextual [LoadInst.oblSent, hh, h1, h2, hc, hl, hr, Hits.any]

end

variable {missed b isHead fst snd : Bool} {tr : Translation} {rd : ReadInput} {a : Access}
  {f : Option LoadFault} {h : Half}

section
variable (hf : Fresh c ready l)
include hf

/-- An oblivious request is only sent for a load that is not ready. -/
theorem Fresh.oblSent (hr : ready = false) (hs : l.staleObl = false)
    (hfault : l.fault = none) (hmiss : missed → l.obl.tlbHit = false ∨ l.acc.isSplit)
    (hacc : l.acc.effAddrValid ∧ l.acc.strictlyOrdered = false ∧ l.acc.walking = false)
    (b : Bool) : Oblivious c ready (l.oblSent c b missed) where
  coherent := by
    refine ⟨rfl, .inl hfault, nofun, fun h => ⟨rfl, hf.tlb h⟩, fun _ => rfl, nofun, nofun,
      fun _ _ => ?_, hf.flights b missed, .of .A rfl ⟨?_, ?_, fun _ => ?_, ?_⟩⟩
    · refine ⟨not_mem_append hf.sends.2 (by split <;> simp), fun _ h => ?_⟩
      have h : l.second.exposeSent = true := h
      simp [hf.second] at h
    · rw [show (l.oblSent c b missed).wb = l.wb from rfl, hf.wb]
      exact ⟨rfl, rfl, rfl, rfl⟩
    · refine ⟨?_, ?_, ?_, fun _ => ?_, not_mem_append hf.sends.1 (by split <;> simp)⟩
      · show l.second.post = none
        rw [hf.second]
      · show l.second.needExpose = false
        rw [hf.second]
      · show l.second.needValidate = false
        rw [hf.second]
      · show l.second.exposeSent = false ∧ l.second.exposeCompleted = false
        rw [hf.second]
        exact ⟨rfl, rfl⟩
    · refine ⟨hf.train.1, ?_⟩
      rw [show (l.oblSent c b missed).train = l.train from rfl, hf.train.2]
      rfl
    · show l.obl.valPredOnMiss = false
      rw [hf.obl]
  confirmed := by
    refine ⟨fun _ => ?_, nofun⟩
    show l.obl.complete = false
    rw [hf.obl]
  missed := hmiss
  idle := hf.idle
  stale := ⟨hs, Bool.eq_false_iff.mpr fun h => by simp [hf.stale h] at hr⟩
  access := hacc

theorem Fresh.readSent (hr : ready) (hfault : l.fault = none)
    (hw : l.acc.walking = false) : Reading ready l.readSent where
  plain := by
    refine ⟨rfl, ?_, ?_, hf.plain.flights, not_mem_append hf.sends.1 (by split <;> simp),
      not_mem_append hf.sends.2 (by split <;> simp)⟩
    · show l.second.post = none
      rw [hf.second]
    · show l.second.staleResponses = 0
      rw [hf.second]
  pending := ⟨.inl hfault, by rw [show l.readSent.wb = l.wb from rfl, hf.wb],
    by rw [show l.readSent.wb = l.wb from rfl, hf.wb], hf.train, hw⟩
  ready := hr
  busy := rfl
  event := hf.idle.2.2.1
  forward := hf.idle.2.2.2

theorem Fresh.halfSent {spec : Bool} (hr : spec = false → ready) :
    Fresh c ready (l.halfSent spec) := by
  have hsends {k : SendKind} (h1 : .validate ∉ [k]) (h2 : .expose ∉ [k]) :
      .validate ∉ l.sends ++ [k] ∧ .expose ∉ l.sends ++ [k] :=
    ⟨not_mem_append hf.sends.1 h1, not_mem_append hf.sends.2 h2⟩
  cases spec with
  | true => exact { hf with sends := hsends (by simp) (by simp) }
  | false => exact { hf with sends := hsends (by simp) (by simp), stale := fun _ => hr rfl }

theorem Fresh.executed (f : Option LoadFault) (hw : l.acc.walking = false)
    {x : Bool} (hx : x) (sent : Bool) :
    Done ready { l with fault := f, wb := { l.wb with executed := x, sentToCommit := sent } } where
  plain := { hf.plain with sends := hf.sends }
  executed := hx
  idle := ⟨hf.idle.1, hf.idle.2.1, hf.idle.2.2.1⟩
  walking := hw
  source r h := by
    have h : l.wb.result = some r := h
    rw [hf.wb] at h
    cases h
  train := by
    show l.train.updates.length = _
    simp [hf.train.1, hf.train.2]
  stale := hf.stale

theorem Fresh.unexecuted (f : Option LoadFault) {x : Bool} (hx : x = false)
    (sent : Bool) : Fresh c ready
      { l with fault := f, wb := { l.wb with executed := x, sentToCommit := sent } } where
  __ := hf
  wb := by rw [hf.wb, hx]

end

theorem faultToCommit_of_none (h : l.fault = none) : l.faultToCommit = l := by
  simp only [faultToCommit, h, Option.isSome_none, Bool.false_eq_true, if_false]
  split
  · rw [← h]
  · rfl

theorem Done.faultToCommit (hd : Done ready l) : Done ready l.faultToCommit := by
  obtain ⟨⟨h1, h2, h3, h4, h5⟩, hx, h6, h7, h8, h9, h10⟩ := hd
  simp only [LoadInst.faultToCommit]
  split <;> split <;>
    exact ⟨⟨h1, h2, h3, h4, h5⟩, by simp [hx], h6, h7, h8, h9, h10⟩

/-- A load whose fault was found before anything took it. -/
theorem Fresh.faultToCommit (hf : Fresh c ready l) (hw : l.acc.walking = false) :
    Stage c ready l.faultToCommit := by
  cases hl : l.fault with
  | none =>
    rw [faultToCommit_of_none hl]
    exact .fresh hf
  | some f =>
    simp only [LoadInst.faultToCommit, hl, Option.isSome_some, if_true]
    cases hE : l.wb.executed || !l.acc.strictlyOrdered || l.acc.atCommit <;> split
    · exact .fresh (hf.unexecuted none rfl true)
    · exact .fresh (hl ▸ hf.unexecuted l.fault rfl true)
    · exact .done (hf.executed none hw rfl true)
    · exact .done (hl ▸ hf.executed l.fault hw rfl true)

theorem Fresh.scheduleWriteback (hf : Fresh c ready l) (hfault : l.fault = none)
    (hw : l.acc.walking = false) {src : Source} (hsrc : src = .ipr ∨ src = .forward) (d : Bytes) :
    Waiting ready (l.scheduleWriteback src d) where
  plain := { hf.plain with sends := hf.sends }
  pending := by
    refine ⟨.inl hfault, ?_, ?_, hf.train, hw⟩
    · show l.wb.executed = false
      rw [hf.wb]
    · show l.wb.result = none
      rw [hf.wb]
  idle := ⟨hf.idle.1, hf.idle.2.1⟩
  event := by
    rcases hsrc with rfl | rfl <;> simp [LoadInst.scheduleWriteback, hf.idle.2.2.2]
  stale := hf.stale

/-- The load as `read` gets it. -/
def translated (c : LsqConfig) (ready : Bool) (tr : Translation) (l : LoadInst) : LoadInst :=
  (l.finishTranslation tr.fault tr.strictlyOrdered tr.lineLow tr.lineHigh false).checkTLBMiss c
  ready tr

/-- The ways through `executeLoad`. -/
inductive Executes (c : LsqConfig) (ready isHead b : Bool) (tr : Translation) (rd : ReadInput)
    (l : LoadInst) : LoadInst → Prop
  | waits : Executes c ready isHead b tr rd l l
  | walks : Executes c ready isHead b tr rd l l.walk
  | defers : Executes c ready isHead b tr rd l
      (l.finishTranslation tr.fault tr.strictlyOrdered tr.lineLow tr.lineHigh false)
  | faults : tr.fault = true → Executes c ready isHead b tr rd l
      (faultToCommit { (l.finishTranslation tr.fault tr.strictlyOrdered tr.lineLow tr.lineHigh
        false) with
        wb.executed := true })
  | strict : tr.strictlyOrdered = true → (isHead && l.acc.atCommit) = false →
      Executes c ready isHead b tr rd l
        (faultToCommit { l.translated c ready tr with fault := some .strictOrder })
  | ipr : tr.mmappedIpr = true → tr.fault = false → Executes c ready isHead b tr rd l
      ((l.translated c ready tr).scheduleWriteback .ipr rd.ipr)
  | forwards (data : Bytes) : rd.forwarding = .full data → tr.fault = false →
      Executes c ready isHead b tr rd l ((l.translated c ready tr).scheduleWriteback .forward data)
  | retries : Executes c ready isHead b tr rd l (l.translated c ready tr)
  | half (spec : Bool) : spec = (c.isInvisibleSpec && !ready) →
      Executes c ready isHead b tr rd l ((l.translated c ready tr).halfSent spec)
  | oblivious : (c.isInvisibleSpec && !ready) = true → rd.fst = true → tr.strictlyOrdered = false →
      tr.fault = false → Executes c ready isHead b tr rd l
        ((l.translated c ready tr).oblSent c b (l.translationMissed c ready tr))
  | reads :
      (c.isInvisibleSpec && !ready) = false → tr.fault = false → Executes c ready isHead b tr rd l
      (l.translated c ready tr).readSent

theorem executeLoad_cases (h : l.executeLoad c ready isHead b tr rd = some l') :
    Executes c ready isHead b tr rd l l' := by
  obtain ⟨⟨k, deferred⟩, hk, rfl⟩ := map_eq_some_iff.mp h
  simp only [initiateMemRead] at hk
  split at hk
  · cases hk
    exact .waits
  split at hk
  · split at hk <;> cases hk
    exact .walks
  split at hk
  · next hf =>
    split at hk <;> cases hk
    · exact .defers
    · exact .faults hf
  · next hf =>
    have hno : tr.fault = false := by simpa using hf
    obtain ⟨k', hread, heq⟩ := map_eq_some_iff.mp hk
    cases heq
    have hfault : (l.translated c ready tr).fault = none := if_neg hf
    have hnone {k : LoadInst} (hk : k.fault = none) (hx : Executes c ready isHead b tr rd l k) :
        Executes c ready isHead b tr rd l k.faultToCommit := by
      rw [faultToCommit_of_none hk]
      exact hx
    simp only [read] at hread
    split at hread
    · next hstrict =>
      cases hread
      simp only [Bool.and_eq_true, Bool.not_eq_true'] at hstrict
      exact .strict hstrict.1 hstrict.2
    · split at hread
      · next hipr =>
        cases hread
        exact hnone hfault (.ipr hipr hno)
      · split at hread
        · next data hfwd =>
          cases hread
          exact hnone hfault (.forwards data hfwd hno)
        · cases hread
          exact hnone hfault .retries
        simp only [send] at hread
        split at hread
        · cases hread
        next hso =>
        split at hread
        · cases hread
          exact hnone hfault .retries
        split at hread
        · cases hread
          exact hnone hfault .retries
        next hfst =>
        split at hread
        · cases hread
          refine hnone ?_ (.half _ rfl)
          simp only [halfSent]
          split <;> exact hfault
        · split at hread
          · next hs =>
            split at hread
            · cases hread
              simp only [hs, Bool.true_and, Bool.or_eq_true, not_or, Bool.not_eq_true] at hso
              exact hnone hfault (.oblivious hs (by simpa using hfst) hso.1 hno)
            · cases hread
          · next hs =>
            cases hread
            exact hnone hfault (.reads (by simpa using hs) hno)

/-- Only a request that is taken has to do with the second access. -/
theorem Executes.frame (h : Executes c ready isHead b tr rd l l') :
    l'.squashed = l.squashed ∧ l'.committed = l.committed ∧
      (l'.second = l.second ∧ l'.obl.hits = l.obl.hits ∧ l'.obl.missed = l.obl.missed ∨
        (c.isInvisibleSpec && !ready) = true ∧
          l' = (l.translated c ready tr).oblSent c b (l.translationMissed c ready tr) ∨
        l' = (l.translated c ready tr).readSent) := by
  cases h with
  | faults h =>
    simp only [faultToCommit]
    split <;> split <;> exact ⟨rfl, rfl, .inl ⟨rfl, rfl, rfl⟩⟩
  | strict h1 h2 =>
    simp only [faultToCommit]
    split <;> split <;> exact ⟨rfl, rfl, .inl ⟨rfl, rfl, rfl⟩⟩
  | half spec =>
    simp only [halfSent]
    split <;> exact ⟨rfl, rfl, .inl ⟨rfl, rfl, rfl⟩⟩
  | oblivious hs => exact ⟨rfl, rfl, .inr (.inl ⟨hs, rfl⟩)⟩
  | reads => exact ⟨rfl, rfl, .inr (.inr rfl)⟩
  | _ => exact ⟨rfl, rfl, .inl ⟨rfl, rfl, rfl⟩⟩

/-- What becomes of a load that is executed. -/
theorem stage_executeLoad (hm : c.enableMLDOM) (hf : Fresh c ready l)
    (halias : rd.fst → l.aliased c ready = false)
    (h : l.executeLoad c ready isHead b tr rd = some l') : Stage c ready l' := by
  have hinv := (c.mldom_scheme hm).2
  have ht := hf.finishTranslation tr.fault tr.strictlyOrdered tr.lineLow tr.lineHigh false
  have hk : Fresh c ready (l.translated c ready tr) := ht.checkTLBMiss tr
  have hnone (h : tr.fault = false) : (l.translated c ready tr).fault = none := if_neg (by simp [h])
  cases executeLoad_cases h with
  | waits => exact .fresh hf
  | walks => exact .fresh hf.walk
  | defers => exact .fresh ht
  | faults h => exact .done (ht.executed _ rfl rfl _).faultToCommit
  | strict h1 h2 =>
    have hx : (l.translated c ready tr).wb.executed = false := by rw [hk.wb]
    exact (hk.unexecuted _ hx _).faultToCommit rfl
  | ipr h hno => exact .waiting (hk.scheduleWriteback (hnone hno) rfl (.inl rfl) _)
  | forwards data h hno => exact .waiting (hk.scheduleWriteback (hnone hno) rfl (.inr rfl) _)
  | retries => exact .fresh hk
  | half spec hs => exact .fresh (hk.halfSent fun h => by simpa [hinv, h] using hs)
  | oblivious hs hfst hso hno =>
    have hst := halias hfst
    rw [aliased, if_pos hs] at hst
    refine .oblivious (hk.oblSent (by simpa [hinv] using hs) hst (hnone hno) (fun h => ?_)
      ⟨rfl, hso, rfl⟩ b)
    cases hspl : l.acc.isSplit with
    | true => exact .inr hspl
    | false =>
      left
      have hmiss : specTLBMiss c ready tr.missLow = true := by
        simpa [translationMissed, hspl] using h
      simp [translated, LoadInst.checkTLBMiss, LoadInst.finishTranslation, hspl, hmiss]
  | reads hs hno => exact .reading (hk.readSent (by simpa [hinv] using hs) (hnone hno) rfl)

/-! ## The other events -/

theorem Stage.become_ready (hs : Stage c ready l) : Stage c true l := by
  rcases hs with h | h | h | h | h | h
  · exact .squashed h
  · exact .fresh { h with stale := fun _ => rfl }
  · exact .reading { h with ready := rfl }
  · exact .waiting { h with stale := fun _ => rfl }
  · exact .done { h with stale := fun _ => rfl }
  have hc := h.coherent
  exact .oblivious { h with coherent := { hc with ready := fun _ => rfl } }

theorem Oblivious.next (hs : Oblivious c ready l) (hn : Next c ready l l') :
    Oblivious c ready l' where
  __ := hn
  -- the other fields speak of what is fixed
  missed := (congrArg (fun f : Fixed => f.missed = true → f.tlbHit = false ∨ f.acc.isSplit = true)
    hn.fixed).mpr hs.missed
  idle := (congrArg (fun f : Fixed =>
    f.readLow = false ∧ f.readHigh = false ∧ f.wbEvent = none ∧ f.ifLdStFwd = false)
    hn.fixed).mpr hs.idle
  stale := (congrArg (fun f : Fixed => f.staleObl = false ∧ f.staleRead = false)
    hn.fixed).mpr hs.stale
  access := (congrArg (fun f : Fixed => f.acc.effAddrValid = true ∧ f.acc.strictlyOrdered = false ∧
    f.acc.walking = false) hn.fixed).mpr hs.access

/-- Up to the second access the pass does not touch a plain load. -/
theorem exposeLoad_plain (hpf : l.second.needPostFetch = false) (hsq : l.squashed = false) :
    l.exposeLoad c ready fst snd = some (l.trainForwarded c ready, .next) := by
  have hpf' : (l.trainForwarded c ready).second.needPostFetch = false := by
    simp only [trainForwarded]
    split
    · rw [updateLocationPredictor_eq]
      exact hpf
    · exact hpf
  simp [exposeLoad, hsq, hpf']

theorem trainForwarded_eq (h : (l.wb.executed && l.ifLdStFwd) = false) :
    l.trainForwarded c ready = l :=
  if_neg (by simp [h])

theorem updates_length (hm : c.enableMLDOM) {t : UpdateType}
    (h : l.train.updates.length = if l.train.doneLocPredUpdate then 1 else 0) :
    (l.updateLocationPredictor c t).train.updates.length =
      if (l.updateLocationPredictor c t).train.doneLocPredUpdate then 1 else 0 := by
  simp only [updateLocationPredictor]
  split
  · exact h
  rename_i hno
  have hd : l.train.doneLocPredUpdate = false := by simpa [hm] using hno
  split
  · simpa [hd] using h
  · exact h

theorem Done.trained (hm : c.enableMLDOM) (hd : Done ready l) (t : UpdateType) :
    Done ready (l.updateLocationPredictor c t) := by
  have ht := updates_length (c := c) (t := t) hm hd.train
  rw [updateLocationPredictor_eq] at ht ⊢
  exact { hd with plain := { hd.plain with }, train := ht }

theorem Oblivious.exposeLoad (hm : c.enableMLDOM) (hs : Oblivious c ready l)
    (hsq : l.squashed = false) {flow : Flow}
    (h : l.exposeLoad c ready fst snd = some (l', flow)) : Next c ready l l' := by
  cases hcm : l.committed with
  | false =>
    obtain ⟨k, f, heq, hn⟩ :=
      exposeLoad_spec hm hs.coherent hs.confirmed hsq hs.idle.2.2.2 hcm fst snd
    rw [heq] at h
    cases h
    exact hn
  | true =>
    -- the pass only goes over a committed load if it has nothing to do
    have hno : l.trainForwarded c ready = l := trainForwarded_eq (by simp [hs.idle.2.2.2])
    simp only [LoadInst.exposeLoad, hsq, Bool.false_eq_true, if_false, hno] at h
    split at h
    · cases h
      exact hs.coherent.next_self hs.confirmed
    split at h
    · next hf =>
      cases h
      exact next_skipSecond hs.coherent hs.confirmed hf
    · split at h
      · cases h
        exact hs.coherent.next_self hs.confirmed
      · simp [exposeSafe, hcm] at h

theorem stage_exposeLoad (hm : c.enableMLDOM) (hs : Stage c ready l) {flow : Flow}
    (h : l.exposeLoad c ready fst snd = some (l', flow)) : Stage c ready l' := by
  cases hsq : l.squashed with
  | true =>
    rw [exposeLoad, if_pos hsq] at h
    cases h
    exact .squashed hsq
  | false =>
    rcases hs with hs | hs | hs | hs | hs | hs
    · simp [hsq] at hs
    · rw [exposeLoad_plain hs.plain.postFetch hsq,
        trainForwarded_eq (by simp [hs.idle.2.2.2])] at h
      cases h
      exact .fresh hs
    · rw [exposeLoad_plain hs.plain.postFetch hsq, trainForwarded_eq (by simp [hs.forward])] at h
      cases h
      exact .reading hs
    · rw [exposeLoad_plain hs.plain.postFetch hsq,
        trainForwarded_eq (by simp [hs.pending.executed])] at h
      cases h
      exact .waiting hs
    · rw [exposeLoad_plain hs.plain.postFetch hsq] at h
      cases h
      simp only [trainForwarded]
      split
      · exact .done (hs.trained hm _)
      · exact .done hs
    · exact .oblivious (hs.next (hs.exposeLoad hm hsq h))

/-- The fields that snoops and the commit stage write. -/
def adjusted (l : LoadInst) (a : Access) (f : Option LoadFault) (sent can com : Bool) : LoadInst :=
  { l with acc := a, fault := f, wb.sentToCommit := sent, canCommit := can, committed := com }

/-- What of an access the stages depend on. -/
structure SameAccess (a b : Access) : Prop where
  isSplit : a.isSplit = b.isSplit
  effAddrValid : a.effAddrValid = b.effAddrValid
  strictlyOrdered : a.strictlyOrdered = b.strictlyOrdered
  walking : a.walking = b.walking

theorem Plain.adjusted (h : Plain l) (a : Access) (f : Option LoadFault) (sent can com : Bool) :
    Plain (l.adjusted a f sent can com) :=
  { h with }

section
variable (ha : SameAccess a l.acc) (hf : f = l.fault ∨ f = some .reExec) (sent can com : Bool)
include ha hf

theorem Pending.adjusted (h : Pending l) : Pending (l.adjusted a f sent can com) where
  __ := h
  fault := by
    rcases hf with rfl | rfl
    · exact h.fault
    · exact .inr rfl
  walking := ha.walking.trans h.walking

theorem Coherent.adjusted (h : Coherent c ready l) :
    Coherent c ready (l.adjusted a f sent can com) := by
  -- first the fields about which nothing is said, then the fault
  have hk : Coherent c ready (l.adjusted a l.fault sent can com) := by
    obtain ⟨f1, f2, f3, f4, f5, f6, f7⟩ := h.flights
    rw [← ha.isSplit] at f1 f2 f3 f5 f6
    have hset (he : l.mldomState.early = true) (hs : a.isSplit = true) :=
      h.settled he (ha.isSplit ▸ hs)
    exact { h with
      settled := hset
      flights := ⟨f1, f2, f3, f4, f5, f6, f7⟩
      shape := h.shape.map rfl rfl (fun h => { h with }) (fun _ _ h => { h with }) id
        (fun _ => id) (fun h => { h with }) (fun _ => id) rfl }
  rcases hf with rfl | rfl
  · exact hk
  · exact hk.faulted l.second.exposeSent l.second.exposeCompleted sent id

theorem Oblivious.adjusted (h : Oblivious c ready l) :
    Oblivious c ready (l.adjusted a f sent can com) where
  __ := h
  coherent := h.coherent.adjusted ha hf sent can com
  confirmed := ⟨h.confirmed.complete, h.confirmed.squash⟩
  missed hm := (h.missed hm).imp id ha.isSplit.trans
  access := ⟨ha.effAddrValid.trans h.access.1, ha.strictlyOrdered.trans h.access.2.1,
    ha.walking.trans h.access.2.2⟩

theorem Stage.adjusted (hs : Stage c ready l) :
    Stage c ready (l.adjusted a f sent can com) := by
  rcases hs with h | h | h | h | h | h
  · exact .squashed h
  · refine .fresh { h with wb := ?_ }
    simp only [LoadInst.adjusted]
    rw [h.wb]
  · exact .reading { h with
      plain := h.plain.adjusted a f sent can com, pending := h.pending.adjusted ha hf sent can com }
  · exact .waiting { h with
      plain := h.plain.adjusted a f sent can com, pending := h.pending.adjusted ha hf sent can com }
  · exact .done { h with
      plain := h.plain.adjusted a f sent can com, walking := ha.walking.trans h.walking }
  · exact .oblivious (h.adjusted ha hf sent can com)

end

theorem stage_checkSnoop (hs : Stage c ready l) (line : Nat) (external fence force : Bool) :
    Stage c ready (l.checkSnoop c line external fence force).1 := by
  have hhit (b : Bool) : Stage c ready (l.hitBySnoop b) := by
    cases b with
    | true =>
      exact hs.adjusted (a := l.acc) ⟨rfl, rfl, rfl, rfl⟩ (.inr rfl) l.wb.sentToCommit l.canCommit
        l.committed
    | false =>
      exact hs.adjusted (a := { l.acc with hitExternalSnoop := true }) ⟨rfl, rfl, rfl, rfl⟩
        (.inl rfl) l.wb.sentToCommit l.canCommit l.committed
  simp only [checkSnoop]
  split
  · exact hs
  split
  · exact hhit _
  · exact hs

/-- The load is written back and the predictor is told. -/
theorem Pending.written (hinv : c.isInvisibleSpec) (hp : Plain l) (h : Pending l)
    (hidle : l.readLow = false ∧ l.readHigh = false ∧ l.wbEvent = none)
    (hstale : l.staleRead → ready) {src : Source}
    (hsrc : src ≠ .oblS ∧ src ≠ .validate) :
    l.writeback c src = some (l.afterWriteback src) ∧ Done ready (l.afterWriteback src) := by
  refine ⟨writeback_eq hinv src h.executed h.fault, { hp with }, rfl, hidle, h.walking,
    fun r hr => ?_, ?_, hstale⟩
  · simp only [afterWriteback, h.result] at hr
    split at hr
    · cases hr
      cases src <;> simp_all [Data.written]
    · cases hr
  · show l.train.updates.length = _
    simp [afterWriteback, h.train.1, h.train.2]

theorem Plain.readArrived (hp : Plain l) (h : Half) (p : RespPkt) : Plain (l.readArrived h p) :=
  { hp with }

theorem Pending.readArrived (hp : Pending l) (h : Half) (p : RespPkt) :
    Pending (l.readArrived h p) :=
  { hp with }

/-- Only in one stage is the answer to an ordinary read awaited. -/
theorem Stage.of_reading (hs : Stage c ready l) (hh : l.reading h) :
    l.squashed ∨ Reading ready l := by
  have hidle {P : Prop} (h1 : l.readLow = false) (h2 : l.readHigh = false) : P := by
    cases h <;> simp [LoadInst.reading, h1, h2] at hh
  rcases hs with hs | hs | hs | hs | hs | hs
  · exact .inl hs
  · exact hidle hs.idle.1 hs.idle.2.1
  · exact .inr hs
  · exact hidle hs.idle.1 hs.idle.2
  · exact hidle hs.idle.1 hs.idle.2.1
  · exact hidle hs.idle.1 hs.idle.2.1

theorem stage_completeRead (hm : c.enableMLDOM) (hs : Stage c ready l)
    (hh : l.reading h) {p : RespPkt} (hr : l.completeRead c h p = some l') :
    Stage c ready l' := by
  simp only [completeRead] at hr
  split at hr
  · next hmore =>
    cases hr
    rcases hs.of_reading hh with hs | hs
    · exact .squashed hs
    · cases hsq : l.squashed with
      | true => exact .squashed hsq
      | false =>
        have hk : (l.readArrived h p).squashed = false := hsq
        exact .reading ⟨hs.plain.readArrived h p, hs.pending.readArrived h p, hs.ready,
          by simpa [hk] using hmore, hs.event, hs.forward⟩
  · next hlast =>
    simp only [Bool.or_eq_true, not_or, Bool.not_eq_true] at hlast
    rcases hs.of_reading hh with hs | hs
    · have hk : (l.readArrived h p).squashed = true := hs
      simp [hk] at hlast
    · have hready : (l.readArrived h p).staleRead = true → ready = true := fun _ => hs.ready
      have hread : Source.read ≠ .oblS ∧ Source.read ≠ .validate := ⟨nofun, nofun⟩
      obtain ⟨heq, hd⟩ := (hs.pending.readArrived h p).written (c.mldom_scheme hm).2
        (hs.plain.readArrived h p) ⟨hlast.1.1, hlast.1.2, hs.event⟩ hready hread
      rw [heq] at hr
      cases hr
      exact .done (hd.trained hm .nonSpec)

theorem stage_processWriteback (hm : c.enableMLDOM) (hs : Stage c ready l)
    (hr : l.processWriteback c = some l') : Stage c ready l' := by
  obtain ⟨src, hsrc, hr⟩ := bind_eq_some_iff.mp hr
  have hidle (h : l.wbEvent = none) : False := by simp [h] at hsrc
  dsimp only at hr
  split at hr
  · next hsq =>
    cases hr
    exact .squashed hsq
  · next hsq =>
    rcases hs with hs | hs | hs | hs | hs | hs
    · exact absurd hs hsq
    · exact (hidle hs.idle.2.2.1).elim
    · exact (hidle hs.event).elim
    · have hp : Plain { l with wbEvent := none } := { hs.plain with }
      have hk : Pending { l with wbEvent := none } := { hs.pending with }
      have hne : src ≠ .oblS ∧ src ≠ .validate := by
        rcases hs.event with ⟨he, -⟩ | ⟨he, -⟩ <;> rw [he] at hsrc <;> cases hsrc <;>
          exact ⟨nofun, nofun⟩
      obtain ⟨heq, hd⟩ := hk.written (c.mldom_scheme hm).2 hp
        ⟨hs.idle.1, hs.idle.2, rfl⟩ hs.stale hne
      rw [heq] at hr
      cases hr
      exact .done hd
    · exact (hidle hs.idle.2.2).elim
    · exact (hidle hs.idle.2.2.1).elim

theorem stage_completeStaleRead (hs : Stage c ready l) {obl : Bool}
    (hst : (if obl then l.staleObl else l.staleRead) = true) (p : OblPkt) :
    Stage c ready (l.completeStaleRead obl p) := by
  have hstale (h : l.staleRead = true → ready = true) :
      (l.completeStaleRead obl p).staleRead = true → ready = true := fun hk => by
    simp only [completeStaleRead, Bool.and_eq_true] at hk
    exact h hk.1
  have hplain (hp : Plain l) : Plain (l.completeStaleRead obl p) := { hp with }
  have hpending (hp : Pending l) : Pending (l.completeStaleRead obl p) := { hp with }
  rcases hs with h | h | h | h | h | h
  · exact .squashed h
  · exact .fresh { h with stale := hstale h.stale }
  · exact .reading { h with plain := hplain h.plain, pending := hpending h.pending }
  · exact .waiting ⟨hplain h.plain, hpending h.pending, h.idle, h.event, hstale h.stale⟩
  · exact .done { h with plain := hplain h.plain, stale := hstale h.stale }
  · rw [h.stale.1, h.stale.2] at hst
    cases obl <;> cases hst

/-- The packets sent for the load but for oblivious reads, and what the predictor was told. -/
def outside (l : LoadInst) : List SendKind × List CacheLevel :=
  (l.sends.filter (· != .oblS), l.train.updates)

theorem completeOblS_squashed {p : OblPkt} (hsq : l.squashed)
    (hr : l.completeOblS c ready h p = some l') : l'.squashed ∧ l'.outside = l.outside := by
  obtain ⟨k, hk, hr⟩ := bind_eq_some_iff.mp hr
  have hk : k.squashed = true ∧ k.outside = l.outside := by
    simp only [mergeHits] at hk
    split at hk
    · cases hk
    split at hk
    · cases hk
    · cases hk
      exact ⟨hsq, rfl⟩
  split at hr
  · cases hr
    exact hk
  rw [if_pos hk.1] at hr
  cases hr
  exact hk

theorem completePost_squashed {q : Post} {p : RespPkt} (hsq : l.squashed)
    (hr : l.completePost c ready q h p = some l') : l'.squashed ∧ l'.outside = l.outside := by
  simp only [completePost] at hr
  split at hr
  · cases hr
  split at hr
  · cases hr
    exact ⟨hsq, rfl⟩
  · cases hr
    exact ⟨hsq, rfl⟩

theorem stage_start (isSplit isDataPrefetch isInstPrefetch ordered ready : Bool) :
    Stage c ready { acc := { isSplit, isDataPrefetch, isInstPrefetch, ordered } } :=
  .fresh ⟨rfl, rfl, rfl, rfl, ⟨rfl, rfl, rfl, rfl⟩, ⟨rfl, rfl⟩, ⟨nofun, nofun⟩, nofun, nofun⟩

end LoadInst

/-! ## Runs -/

namespace Life

variable {c : LsqConfig} {s s' : Life}

theorem step_cases {e : LoadEvent} (h : s.step c e = some s') :
    ∃ l, s.enabled c e ∧ s.handle c e = some l ∧ s' = ⟨l, s.readyAfter e⟩ := by
  simp only [step] at h
  split at h
  · next he =>
    obtain ⟨l, hl, rfl⟩ := map_eq_some_iff.mp h
    exact ⟨l, he, hl, rfl⟩
  · cases h

section
variable (hs : s.load.Stage c s.ready)
include hs

/-- The only stage in which a load is executed. -/
theorem fresh_of_issuable (h : s.load.issuable) : s.load.Fresh c s.ready := by
  simp only [LoadInst.issuable, Bool.and_eq_true, Bool.not_eq_true', Option.isNone_iff_eq_none] at h
  obtain ⟨⟨⟨⟨⟨⟨h1, h2⟩, h3⟩, h4⟩, h5⟩, h6⟩, h7⟩ := h
  rcases hs with h | h | h | h | h | h
  · simp [h1] at h
  · exact h
  · have := h.busy
    simp [h3, h4] at this
  · have := h.event
    simp [h5] at this
  · have := h.executed
    simp [h2] at this
  · have := h.coherent.postFetch
    simp [h6] at this

theorem oblivious_of_not_plain (hsq : s.load.squashed = false)
    (hp : ¬s.load.Plain) : s.load.Oblivious c s.ready := by
  rcases hs with h | h | h | h | h | h
  · simp [hsq] at h
  · exact absurd h.plain hp
  · exact absurd h.plain hp
  · exact absurd h.plain hp
  · exact absurd h.plain hp
  · exact h

/-- Only an oblivious load has a half under way. -/
theorem oblivious_of_oblResponse (hsq : s.load.squashed = false)
    {h : Half} {p : OblPkt} (he : s.enabled c (.oblResponse h p)) :
    s.load.Oblivious c s.ready ∧ s.load.mayReceive c h p ∧
      (c.perfectUnsafe → p.carryData → p.isFinalPacket) := by
  simp only [enabled, Bool.and_eq_true, Bool.or_eq_true, Bool.not_eq_true'] at he
  have hout : (s.load.flight h).outstanding = true := by
    have := he.1
    simp only [LoadInst.mayReceive, Bool.and_eq_true] at this
    exact this.1.1.1
  refine ⟨oblivious_of_not_plain hs hsq fun hp => ?_, he.1,
    fun hp hd => he.2.resolve_left (by simp [hp, hd])⟩
  cases h <;> simp [LoadInst.flight, hp.flights] at hout

theorem oblivious_of_post (hsq : s.load.squashed = false) {q : Post}
    (hq : s.load.second.post = some q) : s.load.Oblivious c s.ready :=
  oblivious_of_not_plain hs hsq fun hp => by simp [hp.post] at hq

end

/-- A response to a request of an oblivious load. -/
def isAnswer : LoadEvent → Bool
  | .oblResponse .. | .postResponse .. => true
  | _ => false

theorem answer_cases (hm : c.enableMLDOM) (hs : s.load.Stage c s.ready) {e : LoadEvent}
    (ha : isAnswer e) (he : s.enabled c e) {l : LoadInst} (hl : s.handle c e = some l) :
    (s.load.squashed ∧ l.squashed ∧ l.outside = s.load.outside) ∨
      s.load.squashed = false ∧ s.load.Oblivious c s.ready ∧
        LoadInst.Next c s.ready s.load l := by
  cases hsq : s.load.squashed with
  | true =>
    left
    cases e with
    | oblResponse h p => exact ⟨rfl, LoadInst.completeOblS_squashed hsq hl⟩
    | postResponse h p =>
      obtain ⟨q, -, hl⟩ := bind_eq_some_iff.mp hl
      exact ⟨rfl, LoadInst.completePost_squashed hsq hl⟩
    | _ => cases ha
  | false =>
    right
    cases e with
    | oblResponse h p =>
      obtain ⟨hs, he⟩ := oblivious_of_oblResponse hs hsq he
      obtain ⟨l', heq, hn⟩ := LoadInst.completeOblS_spec hm hs.coherent hs.confirmed hsq he.1 he.2
      obtain rfl : l' = l := Option.some.inj (heq.symm.trans hl)
      exact ⟨rfl, hs, hn⟩
    | postResponse h p =>
      obtain ⟨q, hq, hl⟩ := bind_eq_some_iff.mp hl
      have hs := oblivious_of_post hs hsq hq
      obtain ⟨l', heq, hn⟩ := LoadInst.completePost_spec hm hs.coherent hs.confirmed hsq hq h p
      obtain rfl : l' = l := Option.some.inj (heq.symm.trans hl)
      exact ⟨rfl, hs, hn⟩
    | _ => cases ha

theorem stage_of_handle (hm : c.enableMLDOM = true) (hs : s.load.Stage c s.ready) {e : LoadEvent}
    (he : s.enabled c e = true) {l : LoadInst} (hl : s.handle c e = some l) :
    l.Stage c s.ready := by
  cases e with
  | becomeReady =>
    cases hl
    exact hs
  | exposeLoads fst snd =>
    obtain ⟨⟨k, flow⟩, hx, rfl⟩ := map_eq_some_iff.mp hl
    exact LoadInst.stage_exposeLoad hm hs hx
  | executeLoad isHead b tr rd =>
    simp only [enabled, Bool.and_eq_true, Bool.not_eq_true', Bool.and_eq_false_iff] at he
    exact LoadInst.stage_executeLoad hm (fresh_of_issuable hs he.1)
      (fun h => he.2.resolve_left (by simp [h])) hl
  | finishTranslation f so low high =>
    cases hl
    have he : s.load.acc.walking = true := he
    rcases hs with h | h | h | h | h | h
    · exact .squashed h
    · exact .fresh (h.finishTranslation f so low high true)
    · simp [h.pending.walking] at he
    · simp [h.pending.walking] at he
    · simp [h.walking] at he
    · simp [h.access.2.2] at he
  | oblResponse h p | postResponse h p =>
    rcases answer_cases hm hs rfl he hl with ⟨-, hsq, -⟩ | ⟨-, ho, hn⟩
    · exact .squashed hsq
    · exact .oblivious (ho.next hn)
  | staleResponse p =>
    cases hl
    have he : 0 < s.load.second.staleResponses := by simpa [enabled] using he
    cases hsq : s.load.squashed with
    | true => exact .squashed hsq
    | false =>
      have hs := oblivious_of_not_plain hs hsq fun hp => by simp [hp.stale] at he
      exact .oblivious { hs with
        coherent := hs.coherent.stale p
        confirmed := ⟨hs.confirmed.complete, hs.confirmed.squash⟩ }
  | readResponse h p => exact LoadInst.stage_completeRead hm hs he hl
  | staleReadResponse obl p =>
    cases hl
    exact LoadInst.stage_completeStaleRead hs he p
  | writebackEvent => exact LoadInst.stage_processWriteback hm hs hl
  | checkSnoop line external fence force =>
    cases hl
    exact LoadInst.stage_checkSnoop hs line external fence force
  | possibleLoadViolation =>
    cases hl
    exact hs.adjusted (a := { s.load.acc with possibleLoadViolation := true }) ⟨rfl, rfl, rfl, rfl⟩
      (.inl rfl) s.load.wb.sentToCommit s.load.canCommit s.load.committed
  | setAtCommit =>
    cases hl
    exact hs.adjusted (a := { s.load.acc with atCommit := true }) ⟨rfl, rfl, rfl, rfl⟩ (.inl rfl)
      false false s.load.committed
  | setCanCommit =>
    cases hl
    exact hs.adjusted (a := s.load.acc) ⟨rfl, rfl, rfl, rfl⟩ (.inl rfl) s.load.wb.sentToCommit _
      s.load.committed
  | commit =>
    cases hl
    exact hs.adjusted (a := s.load.acc) ⟨rfl, rfl, rfl, rfl⟩ (.inl rfl) s.load.wb.sentToCommit
      s.load.canCommit true
  | squash =>
    cases hl
    exact .squashed rfl

theorem stage_of_step (hm : c.enableMLDOM) (hs : s.load.Stage c s.ready) {e : LoadEvent}
    (h : s.step c e = some s') : s'.load.Stage c s'.ready := by
  obtain ⟨l, he, hl, rfl⟩ := step_cases h
  have hk := stage_of_handle hm hs he hl
  show l.Stage c (s.ready || e == .becomeReady)
  cases hready : s.ready || e == .becomeReady with
  | true => exact hk.become_ready
  | false =>
    rw [(Bool.or_eq_false_iff.mp hready).1] at hk
    exact hk

theorem stage_of_reach {C : Life → LoadEvent → Prop} (hm : c.enableMLDOM)
    (h : (loadMachine c).ReachWhen C s) : s.load.Stage c s.ready := by
  refine h.invariant (I := fun s => s.load.Stage c s.ready) (fun s hs => ?_)
    (fun s e s' hi _ hs => stage_of_step hm hi hs)
  obtain ⟨a, b, d, e, rfl⟩ := hs
  exact LoadInst.stage_start a b d e false

end Life

/-! ## What happens outside the core -/

namespace LoadInst

variable {c : LsqConfig} {ready : Bool} {l l' : LoadInst}

theorem outside_writeback {src : Source} (h : l.writeback c src = some l') :
    l'.outside = l.outside := by
  simp only [writeback] at h
  split at h
  · cases h
  split at h
  · cases h
  split at h
  · split at h
    · cases h
    · cases h
      rfl
  · split at h <;> cases h <;> rfl

theorem outside_exposeLoad {fst snd : Bool} {flow : Flow}
    (h : l.exposeLoad c false fst snd = some (l', flow)) : l'.outside = l.outside := by
  have hno : l.trainForwarded c false = l := if_neg (by simp)
  simp only [exposeLoad, hno, Bool.not_false, if_true] at h
  split at h
  · cases h
    rfl
  split at h
  · cases h
    rfl
  · split at h <;> cases h <;> rfl

theorem outside_faultToCommit : l.faultToCommit.outside = l.outside := by
  simp only [faultToCommit]
  split <;> split <;> rfl

/-- A load that is not ready is sent as an oblivious read, if at all. -/
theorem Executes.outside (hinv : c.isInvisibleSpec) {isHead b : Bool} {tr : Translation}
    {rd : ReadInput} (h : Executes c false isHead b tr rd l l') : l'.outside = l.outside := by
  cases h with
  | faults h => exact outside_faultToCommit
  | strict h1 h2 => exact outside_faultToCommit
  | half spec hs =>
    rw [hs, hinv]
    simp [LoadInst.outside, halfSent, translated, checkTLBMiss, finishTranslation]
  | oblivious =>
    simp only [LoadInst.outside, oblSent]
    split <;> simp [translated, checkTLBMiss, finishTranslation]
  | reads hs => simp [hinv] at hs
  | _ => rfl

end LoadInst

namespace Life

variable {c : LsqConfig} {s s' : Life}

section
variable (hm : c.enableMLDOM) (hs : s.load.Stage c s.ready) (hr : s.ready = false)
include hm hs hr

theorem quiet_of_handle {e : LoadEvent} (he : s.enabled c e) {l : LoadInst}
    (hl : s.handle c e = some l) : l.outside = s.load.outside := by
  have hinv := (c.mldom_scheme hm).2
  cases e with
  | exposeLoads fst snd =>
    obtain ⟨⟨k, flow⟩, hx, rfl⟩ := map_eq_some_iff.mp hl
    rw [hr] at hx
    exact LoadInst.outside_exposeLoad hx
  | executeLoad isHead b tr rd =>
    simp only [handle, hr] at hl
    exact (LoadInst.executeLoad_cases hl).outside hinv
  | oblResponse h p | postResponse h p =>
    rcases answer_cases hm hs rfl he hl with ⟨-, -, hout⟩ | ⟨-, -, hn⟩
    · exact hout
    · obtain ⟨hsends, hupdates⟩ := hn.quiet hr
      simp only [LoadInst.outside, hsends, hupdates]
  | readResponse h p =>
    -- an ordinary read was sent for a ready load
    have hsq : s.load.squashed = true :=
      (hs.of_reading he).resolve_right fun hs => by simp [hs.ready] at hr
    have hk : (s.load.readArrived h p).squashed = true := hsq
    simp only [handle, LoadInst.completeRead, hk, Bool.or_true, if_true] at hl
    cases hl
    rfl
  | writebackEvent =>
    obtain ⟨src, -, hl⟩ := bind_eq_some_iff.mp hl
    dsimp only at hl
    split at hl
    · cases hl
      rfl
    · have h := LoadInst.outside_writeback hl
      exact h
  | checkSnoop line external fence force =>
    cases hl
    simp only [LoadInst.checkSnoop]
    split
    · rfl
    split
    · simp only [LoadInst.hitBySnoop]
      split <;> rfl
    · rfl
  | _ =>
    cases hl
    rfl

theorem quiet_of_step {e : LoadEvent} (h : s.step c e = some s') :
    s'.load.outside = s.load.outside := by
  obtain ⟨l, he, hl, rfl⟩ := step_cases h
  exact quiet_of_handle hm hs hr he hl

end

end Life

end SdoCore
