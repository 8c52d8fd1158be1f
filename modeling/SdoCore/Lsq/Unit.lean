import SdoCore.Lsq.Life
import SdoCore.Visibility

/-! The load/store unit of a thread beside the reorder buffer. A cycle goes as in
`DefaultIEW::tick` and `DefaultCommit::tick`: between two ticks the memory system answers and
invalidates; the tick squashes and dispatches, `updateVisibleState` and `exposeLoads` pass over
the load queue, instructions execute, and commit marks, retires and squashes.

`oblsMissInst` is set by the pass of `exposeLoads` and taken by `executeInsts` after it, so it is
not part of the state; the squash it asks for is an event like any other squash.

Results:
* `LsqUnit.inv_of_reach`: a load is ready only without taint, in every state reached.
* `LsqUnit.life_reach`: to each load the unit is one of the environments of `loadMachine`. -/

namespace SdoCore

open Lib
open Bool (and_eq_true)
open Function (update update_of_ne update_self)
open List
open Option (bind_eq_some_iff map_eq_some_iff)

/-- A call of `translateTiming` on the data TLB, with the taint of the instruction at that
time. -/
structure TlbReq where
  (spec taintPropDone isAddrTainted : Bool)
  deriving DecidableEq

/-- `passed`: `exposeLoads` was called in this cycle. `seen` (the instructions so far),
`translations` and `snooped` are history; `snooped x` says that `checkSnoop` was called for a line
of `x`, not the head of the queue, after its oblivious request hit the private cache. -/
structure LsqUnit where
  base : RobLsq
  loads : Nat → LoadInst := fun _ => {}
  seen : List Nat := []
  lastLoad : Nat := 0
  passed : Bool := false
  translations : List TlbReq := []
  snooped : Nat → Bool := fun _ => false

inductive UnitEvent
  | rob (e : RobEvent)
  | insertLoad (x : Nat) (isSplit isDataPrefetch isInstPrefetch ordered : Bool)
  | iewTick (answer : Nat → Bool × Bool)
  | executeLoad (x : Nat) (tr : Translation) (rd : ReadInput)
  | executeStore (x : Nat) (split : Bool)
  | load (x : Nat) (e : LoadEvent)
  | checkSnoop (line : Nat) (isExternalEviction : Bool)
  | commitHead
  | setSquashed (x : Nat)
  | squash (squashedNum : Nat)
  | commitLoad
  | endCycle

/-! ## The passes over the queue -/

/-- The loop of `exposeLoads`; `answer` says whether the cache takes each packet of a load. -/
def exposeLoads (c : LsqConfig) (ready : Nat → Bool) (answer : Nat → Bool × Bool)
    (m : Nat → LoadInst) : List Nat → Option (Nat → LoadInst)
  | [] => some m
  | x :: xs =>
    ((m x).exposeLoad c (ready x) (answer x).1 (answer x).2).bind fun r =>
      let m := update m x r.1
      if r.2 = .next then exposeLoads c ready answer m xs else some m

/-- The loop of `checkSnoop`, with `force_squash`. -/
def snoopLoads (c : LsqConfig) (line : Nat) (isExternalEviction : Bool) (fenceDelay : Nat → Bool)
    (m : Nat → LoadInst) (force : Bool) : List Nat → Nat → LoadInst
  | [] => m
  | x :: xs =>
    let r := (m x).checkSnoop c line isExternalEviction (fenceDelay x) force
    snoopLoads c line isExternalEviction fenceDelay (update m x r.1) r.2 xs

namespace LsqUnit

def inst (s : LsqUnit) (x : Nat) : DynInst := s.base.rob.insts x

def ready (s : LsqUnit) (x : Nat) : Bool := (s.inst x).status.readyToExpose

def life (s : LsqUnit) (x : Nat) : Life := ⟨s.loads x, s.ready x⟩

def setLoad (s : LsqUnit) (x : Nat) (l : LoadInst) : LsqUnit :=
  { s with loads := update s.loads x l }

def isHead (s : LsqUnit) (x : Nat) : Bool := s.base.loadQueue.head? == some x

/-- `checkPrevLoadsExecuted`. -/
def prevLoadsExecuted (c : LsqConfig) (s : LsqUnit) (x : Nat) : Bool :=
  (s.base.loadQueue.takeWhile (· != x)).all fun y =>
    let l := s.loads y
    l.wb.executed && !(c.needsTSO && l.second.needPostFetch && !l.second.needExposeOnly &&
      !l.second.exposeCompleted)

def tlbReq (s : LsqUnit) (x : Nat) (spec : Bool) : TlbReq :=
  ⟨spec, (s.inst x).taintPropDone, (s.inst x).isAddrTainted⟩

/-- `initiateTranslation`: one translation, or two if the request is split. -/
def translate (s : LsqUnit) (x : Nat) (spec split : Bool) : LsqUnit :=
  { s with
    translations := s.translations ++ List.replicate (if split then 2 else 1) (s.tlbReq x spec) }

/-- The head of the reorder buffer is the load `x`, and `commitHead` gets to the point where it
retires it. -/
def commits (s : LsqUnit) (x : Nat) : Bool :=
  s.passed && s.base.rob.instList.head? == some x && s.base.loadQueue.contains x &&
    (s.life x).retires

/-! ## Events -/

/-- Sequence numbers are not used again, and a load that entered the queue leaves the buffer
through `commitHead` unless it is squashed. -/
def allows (s : LsqUnit) : RobEvent → Bool
  | .insertInst x inst =>
    (s.lastLoad :: s.seen).all (decide <| · < x) && !inst.status.fenceDelay
  | .retireHead => s.base.rob.instList.head?.all fun h =>
    !s.base.loadQueue.contains h || (s.loads h).squashed
  | _ => true

def seenAfter (s : LsqUnit) : RobEvent → List Nat
  | .insertInst x _ => x :: s.seen
  | _ => s.seen

/-- What happens to a single load between two ticks. -/
def fromMemory : LoadEvent → Bool
  | .finishTranslation _ _ _ _ | .oblResponse _ _ | .postResponse _ _ | .staleResponse _
  | .readResponse _ _ | .staleReadResponse _ _ | .writebackEvent => true
  | _ => false

/-- What execution and commit note about a single load. -/
def fromStages : LoadEvent → Bool
  | .possibleLoadViolation | .setAtCommit | .setCanCommit => true
  | _ => false

def allowed (c : LsqConfig) (s : LsqUnit) : UnitEvent → Bool
  | .rob e => s.allows e
  | .insertLoad x _ _ _ _ =>
    !s.passed && decide (s.lastLoad < x) && s.base.loadQueue.all fun y => !(s.loads y).squashed
  | .iewTick _ => !s.passed
  | .executeLoad x tr rd =>
    s.passed && s.base.loadQueue.contains x && s.base.rob.instList.contains x &&
      (s.life x).enabled c (.executeLoad (s.isHead x) (s.prevLoadsExecuted c x) tr rd)
  | .executeStore x _ =>
    s.passed && s.base.rob.instList.contains x && (s.inst x).staticInst.isStore
  | .load x e =>
    (if s.passed then fromStages e else fromMemory e) && s.seen.contains x &&
      decide (x ≤ s.lastLoad) && (s.life x).enabled c e
  | .checkSnoop _ _ => !s.passed
  | .commitHead => s.base.rob.instList.head?.any s.commits
  -- the reorder buffer squashes from its tail
  | .setSquashed x => s.passed && s.base.loadQueue.contains x &&
    s.base.loadQueue.all fun y => decide (y ≤ x) || (s.loads y).squashed
  | .squash _ => !s.passed
  | .commitLoad => s.passed && s.base.loadQueue.head?.any fun x => (s.loads x).committed
  | .endCycle => s.passed

def handle (c : LsqConfig) (s : LsqUnit) : UnitEvent → Option LsqUnit
  | .rob e => (s.base.step c.toConfig (.rob e)).map fun b =>
    { s with
      base := b
      seen := s.seenAfter e }
  | .insertLoad x isSplit isDataPrefetch isInstPrefetch ordered =>
    (s.base.step c.toConfig (.insertLoad x)).map fun b =>
      { s with
        base := b
        lastLoad := x
        loads := update s.loads x
          { acc := { isSplit, isDataPrefetch, isInstPrefetch, ordered } } }
  | .iewTick answer => (s.base.step c.toConfig .updateVisibleState).bind fun b =>
    (exposeLoads c { s with base := b }.ready answer s.loads b.loadQueue).map fun m =>
      { s with base := b, loads := m, passed := true }
  | .executeLoad x tr rd =>
    ((s.life x).handle c (.executeLoad (s.isHead x) (s.prevLoadsExecuted c x) tr rd)).map fun l =>
      let t := if (s.loads x).waitsForExpose c (s.ready x) then s
        else s.translate x (reqSpec c (s.ready x)) (s.loads x).acc.isSplit
      t.setLoad x l
  | .executeStore x split => some (s.translate x false split)
  | .load x e => ((s.life x).handle c e).map (s.setLoad x)
  | .checkSnoop line isExternalEviction => some
    { s with
      loads := snoopLoads c line isExternalEviction (fun x => (s.inst x).status.fenceDelay) s.loads
        false s.base.loadQueue.tail
      snooped := fun x => s.snooped x || (s.base.loadQueue.tail.contains x &&
        (s.loads x).onLine line && (s.loads x).obl.hits.l0) }
  | .commitHead => s.base.rob.instList.head?.bind fun x =>
    -- assert (head_inst->done_locPred_update)
    if c.enableMLDOM && !(s.loads x).train.doneLocPredUpdate then none
    else (s.base.step c.toConfig (.rob .retireHead)).map fun b =>
      { s with base := b }.setLoad x { s.loads x with committed := true }
  | .setSquashed x => some (s.setLoad x { s.loads x with squashed := true })
  | .squash squashedNum => some
    { s with
      base := { s.base with loadQueue := s.base.loadQueue.filter (· ≤ squashedNum) }
      loads := fun x =>
        if s.base.loadQueue.contains x && decide (squashedNum < x) then
          { s.loads x with squashed := true }
        else s.loads x }
  | .commitLoad => some { s with base := { s.base with loadQueue := s.base.loadQueue.tail } }
  | .endCycle => some { s with passed := false }

def step (c : LsqConfig) (s : LsqUnit) (e : UnitEvent) : Option LsqUnit :=
  if s.allowed c e then s.handle c e else none

end LsqUnit

def lsqMachine (c : LsqConfig) : Machine LsqUnit UnitEvent where
  start s := ∃ b, (robLsqMachine c.toConfig).start b ∧ s = { base := b }
  step := LsqUnit.step c

/-! ## The buffer under the unit -/

/-- The two flags of the pass of `updateVisibleState`. -/
def DynInst.exposure (i : DynInst) : Bool × Bool := (i.status.readyToExpose, i.status.fenceDelay)

section
variable {c : Config} {s : RobLsq} {r' : Rob} {x : Nat}

/-- Apart from the end of a cycle, the buffer changes neither the exposure nor the taint of an
instruction it had. -/
theorem kept_of_robStep (hi : Rob.Inv s.rob) {e : RobEvent} (ha : s.allows e)
    (hcycle : e ≠ .cycle) (hs : s.rob.step c e = some r') (hx : ∀ inst, e ≠ .insertInst x inst) :
    (r'.insts x).exposure = (s.rob.insts x).exposure ∧
      (r'.insts x).taintPropDone = (s.rob.insts x).taintPropDone ∧
      (r'.insts x).isArgsTainted = (s.rob.insts x).isArgsTainted := by
  have hfixed (hf : (r'.insts x).fixed = (s.rob.insts x).fixed)
      (he : (r'.insts x).exposure = (s.rob.insts x).exposure) :
      (r'.insts x).exposure = (s.rob.insts x).exposure ∧
        (r'.insts x).taintPropDone = (s.rob.insts x).taintPropDone ∧
        (r'.insts x).isArgsTainted = (s.rob.insts x).isArgsTainted :=
    ⟨he, (congrArg DynInst.taintPropDone hf :), (congrArg DynInst.isArgsTainted hf :)⟩
  have hsquash (hsq : Rob.Squashes s.rob r') :=
    hfixed (hsq.fixed x) (congrArg (fun st : Status => (st.readyToExpose, st.fenceDelay))
      (hsq.kept x) :)
  cases e with
  | insertInst y inst =>
    simp only [Rob.step] at hs
    split at hs
    · have hyx : x ≠ y := fun h => hx inst (h ▸ rfl)
      rw [(Rob.insertInst_spec hs).other x hyx]
      exact ⟨rfl, rfl, rfl⟩
    · cases hs
  | retireHead =>
    simp only [Rob.step] at hs
    split at hs
    · cases hs
    obtain ⟨h, rest, hret⟩ := Rob.retireHead_spec hi.nodup hs
    by_cases hxh : x = h
    · subst hxh
      rw [hret.head]
      exact ⟨rfl, rfl, rfl⟩
    · rcases hret.others x hxh with he | he <;> rw [he] <;> exact ⟨rfl, rfl, rfl⟩
  | squash n => exact hsquash (hi.squash hs).2
  | doSquash => exact hsquash (hi.doSquash hs).2
  | setStatus y st =>
    cases hs
    simp only [RobLsq.allows, and_eq_true, beq_iff_eq] at ha
    by_cases hy : x = y
    · subst hy
      exact hfixed (by simp [Rob.modify, DynInst.fixed])
        (by simp [Rob.modify, DynInst.exposure, ha.1, ha.2])
    · exact hfixed (by simp [Rob.modify, hy]) (by simp [Rob.modify, hy])
  | cycle => exact absurd rfl hcycle

/-- An event of the buffer appends an instruction, takes the head away or leaves the list. -/
theorem instList_of_robStep (hi : Rob.Inv s.rob) {e : RobEvent} (hs : s.rob.step c e = some r') :
    (∃ y inst, e = .insertInst y inst ∧ r'.instList = s.rob.instList ++ [y]) ∨
      (e = .retireHead ∧ ∃ h, s.rob.instList = h :: r'.instList) ∨
      r'.instList = s.rob.instList := by
  cases e with
  | insertInst y inst =>
    simp only [Rob.step] at hs
    split at hs
    · exact .inl ⟨y, inst, rfl, (Rob.insertInst_spec hs).instList⟩
    · cases hs
  | retireHead =>
    simp only [Rob.step] at hs
    split at hs
    · cases hs
    · obtain ⟨h, rest, hret⟩ := Rob.retireHead_spec hi.nodup hs
      exact .inr (.inl ⟨rfl, h, hret.instList.trans (by rw [hret.instList'])⟩)
  | squash n => exact .inr (.inr (hi.squash hs).2.instList)
  | doSquash => exact .inr (.inr (hi.doSquash hs).2.instList)
  | setStatus y st =>
    cases hs
    exact .inr (.inr rfl)
  | cycle =>
    cases hs
    exact .inr (.inr (Rob.endCycle_shape c s.rob).instList)

theorem updateLoads_of_notMem {m m' : Nat → DynInst} {xs : List Nat}
    (h : updateLoads c m xs = some m') (hx : x ∉ xs) : m' x = m x := by
  induction xs generalizing m with
  | nil =>
    cases h
    rfl
  | cons y ys ih =>
    obtain ⟨i, -, h⟩ := bind_eq_some_iff.mp h
    obtain ⟨hxy, hx⟩ := not_or.mp (mt mem_cons.mpr hx)
    rw [ih h hx, update_of_ne hxy]

/-- With the loads of the queue invisible, a load that is ready stays so, if it is known to be
without taint. -/
theorem updateLoads_exposure (hload : c.loadInExec) (hinv : c.isInvisibleSpec)
    {m m' : Nat → DynInst} {xs : List Nat} (h : updateLoads c m xs = some m')
    (hdone : c.stt → (m x).status.readyToExpose → (m x).taintPropDone)
    (hfence : (m x).status.fenceDelay = false) :
    (m' x).taintPropDone = (m x).taintPropDone ∧ (m' x).isArgsTainted = (m x).isArgsTainted ∧
      (m' x).isAddrTainted = (m x).isAddrTainted ∧ (m' x).status.fenceDelay = false ∧
      ((m x).status.readyToExpose → (m' x).status.readyToExpose) := by
  refine updateLoads_induct (P := fun i => i.taintPropDone = (m x).taintPropDone ∧
    i.isArgsTainted = (m x).isArgsTainted ∧ i.isAddrTainted = (m x).isAddrTainted ∧
    i.status.fenceDelay = false ∧
    ((m x).status.readyToExpose = true → i.status.readyToExpose = true))
    (fun i j hi hj => ?_) ⟨rfl, rfl, rfl, hfence, id⟩ h
  obtain ⟨hd, ha, haddr, -, hr⟩ := hi
  have hrest := (lsqVisible_exposes hj).rest
  refine ⟨(congrArg DynInst.taintPropDone hrest :).trans hd,
    (congrArg DynInst.isArgsTainted hrest :).trans ha,
    (congrArg DynInst.isAddrTainted hrest :).trans haddr, ?_⟩
  simp only [lsqVisible, hload, hinv, Bool.not_true, Bool.false_eq_true, if_false, if_true] at hj
  split at hj
  · next hstt =>
    split at hj
    · cases hj
    rename_i hno
    cases hj
    refine ⟨rfl, fun hm => ?_⟩
    have hargs : i.isArgsTainted = false := by simpa [hr hm] using hno
    have hdone := hd.trans (hdone hstt hm)
    simp [DynInst.setExpose, hargs, hdone]
  · split at hj
    · cases hj
      exact ⟨rfl, fun _ => rfl⟩
    split at hj
    · cases hj
    rename_i hno
    cases hj
    exact ⟨rfl, fun hm => absurd (hr hm) hno⟩

theorem RobLsq.Inv.restrict (h : s.Inv c) {q : List Nat} (hq : ∀ x ∈ q, x ∈ s.loadQueue) :
    RobLsq.Inv c { s with loadQueue := q } :=
  { h with ready := fun h1 h2 h3 x hx => h.ready h1 h2 h3 x (hx.imp_right (hq x)) }

end

namespace LsqUnit

variable {c : LsqConfig} {s s' : LsqUnit} {x : Nat}

/-! ## What an event can do -/

/-- The steps of the unit, with the conditions they were taken under. -/
inductive Stepped (c : LsqConfig) (s : LsqUnit) : UnitEvent → LsqUnit → Prop
  | rob (e : RobEvent) (r : Rob) : s.allows e = true → s.base.allows e = true →
      s.base.rob.step c.toConfig e = some r →
      Stepped c s (.rob e) { s with base := { s.base with rob := r }, seen := s.seenAfter e }
  | insertLoad (y : Nat) (isSplit isDataPrefetch isInstPrefetch ordered : Bool) :
      s.passed = false → s.lastLoad < y → y ∈ s.base.rob.instList →
      (s.inst y).staticInst.isLoad = true →
      Stepped c s (.insertLoad y isSplit isDataPrefetch isInstPrefetch ordered)
        { s with
          base := { s.base with loadQueue := s.base.loadQueue ++ [y] }
          lastLoad := y
          loads := update s.loads y
            { acc := { isSplit, isDataPrefetch, isInstPrefetch, ordered } } }
  | iewTick (answer : Nat → Bool × Bool) (d : Nat → DynInst) (m : Nat → LoadInst) :
      s.passed = false → updateLoads c.toConfig s.base.rob.insts s.base.loadQueue = some d →
      exposeLoads c (fun x => (d x).status.readyToExpose) answer s.loads s.base.loadQueue = some m →
      Stepped c s (.iewTick answer)
        { s with
          base := { s.base with rob := { s.base.rob with insts := d } }
          loads := m
          passed := true }
  | executeLoad (y : Nat) (tr : Translation) (rd : ReadInput) (l : LoadInst) (q : List TlbReq) :
      s.passed = true → y ∈ s.base.loadQueue → y ∈ s.base.rob.instList →
      (s.life y).enabled c (.executeLoad (s.isHead y) (s.prevLoadsExecuted c y) tr rd) = true →
      (s.life y).handle c (.executeLoad (s.isHead y) (s.prevLoadsExecuted c y) tr rd) = some l →
      (∀ r ∈ q, r = s.tlbReq y (reqSpec c (s.ready y))) →
      Stepped c s (.executeLoad y tr rd)
        { s with loads := update s.loads y l, translations := s.translations ++ q }
  | executeStore (y : Nat) (split : Bool) : s.passed = true → y ∈ s.base.rob.instList →
      Stepped c s (.executeStore y split) (s.translate y false split)
  | load (y : Nat) (k : LoadEvent) (l : LoadInst) :
      s.passed = true ∧ fromStages k = true ∨ s.passed = false ∧ fromMemory k = true →
      y ∈ s.seen → y ≤ s.lastLoad → (s.life y).enabled c k = true →
      (s.life y).handle c k = some l →
      Stepped c s (.load y k) { s with loads := update s.loads y l }
  | checkSnoop (line : Nat) (isExternalEviction : Bool) : s.passed = false →
      Stepped c s (.checkSnoop line isExternalEviction)
        { s with
          loads := snoopLoads c line isExternalEviction (fun x => (s.inst x).status.fenceDelay)
            s.loads false s.base.loadQueue.tail
          snooped := fun x => s.snooped x || (s.base.loadQueue.tail.contains x &&
            (s.loads x).onLine line && (s.loads x).obl.hits.l0) }
  | commitHead (y : Nat) (r : Rob) : s.commits y = true →
      s.base.rob.instList.head? = some y → s.base.rob.step c.toConfig .retireHead = some r →
      Stepped c s .commitHead
        { s with
          base := { s.base with rob := r }
          loads := update s.loads y { s.loads y with committed := true } }
  | setSquashed (y : Nat) : s.passed = true → y ∈ s.base.loadQueue →
      (∀ z ∈ s.base.loadQueue, y < z → (s.loads z).squashed = true) →
      Stepped c s (.setSquashed y)
        { s with loads := update s.loads y { s.loads y with squashed := true } }
  | squash (n : Nat) : s.passed = false → Stepped c s (.squash n)
      { s with
        base := { s.base with loadQueue := s.base.loadQueue.filter (· ≤ n) }
        loads := fun x =>
          if s.base.loadQueue.contains x && decide (n < x) then { s.loads x with squashed := true }
          else s.loads x }
  | commitLoad (y : Nat) (q : List Nat) : s.passed = true → s.base.loadQueue = y :: q →
      (s.loads y).committed = true →
      Stepped c s .commitLoad { s with base := { s.base with loadQueue := q } }
  | endCycle : s.passed = true → Stepped c s .endCycle { s with passed := false }

variable {e : UnitEvent} {y : Nat} {r : Rob} {answer : Nat → Bool × Bool} {m : Nat → LoadInst}
  {xs : List Nat} {C : LsqUnit → UnitEvent → Prop}

theorem stepped_of_step (h : s.step c e = some s') : Stepped c s e s' := by
  simp only [step] at h
  split at h
  case isFalse => cases h
  next ha =>
  cases e with
  | rob e =>
    obtain ⟨b, hb, rfl⟩ := map_eq_some_iff.mp h
    simp only [RobLsq.step] at hb
    split at hb
    · next hallow =>
      obtain ⟨r, hr, rfl⟩ := map_eq_some_iff.mp hb
      exact .rob e r ha hallow hr
    · cases hb
  | insertLoad y split data inst ordered =>
    obtain ⟨b, hb, rfl⟩ := map_eq_some_iff.mp h
    simp only [allowed, and_eq_true, decide_eq_true_eq, Bool.not_eq_true'] at ha
    simp only [RobLsq.step] at hb
    split at hb
    · next hy =>
      cases hb
      exact .insertLoad y split data inst ordered ha.1.1 ha.1.2 hy.1 hy.2
    · cases hb
  | iewTick answer =>
    obtain ⟨b, hb, h⟩ := bind_eq_some_iff.mp h
    obtain ⟨m, hm, rfl⟩ := map_eq_some_iff.mp h
    obtain ⟨d, hd, rfl⟩ := map_eq_some_iff.mp hb
    exact .iewTick answer d m (by simpa [allowed] using ha) hd hm
  | executeLoad y tr rd =>
    obtain ⟨l, hl, rfl⟩ := map_eq_some_iff.mp h
    simp only [allowed, and_eq_true, contains_iff_mem] at ha
    obtain ⟨⟨⟨h1, h2⟩, h3⟩, h4⟩ := ha
    split
    · have hstep := Stepped.executeLoad (c := c) y tr rd l [] h1 h2 h3 h4 hl (by simp)
      rw [append_nil] at hstep
      exact hstep
    · exact .executeLoad y tr rd l _ h1 h2 h3 h4 hl fun r hr => eq_of_mem_replicate hr
  | executeStore y split =>
    cases h
    simp only [allowed, and_eq_true, contains_iff_mem] at ha
    exact .executeStore y split ha.1.1 ha.1.2
  | load y k =>
    obtain ⟨l, hl, rfl⟩ := map_eq_some_iff.mp h
    simp only [allowed, and_eq_true, contains_iff_mem, decide_eq_true_eq] at ha
    obtain ⟨⟨⟨h1, h2⟩, h3⟩, h4⟩ := ha
    refine .load y k l ?_ h2 h3 h4 hl
    cases hp : s.passed with
    | true => exact .inl ⟨rfl, by simpa [hp] using h1⟩
    | false => exact .inr ⟨rfl, by simpa [hp] using h1⟩
  | checkSnoop line external =>
    cases h
    exact .checkSnoop line external (by simpa [allowed] using ha)
  | commitHead =>
    obtain ⟨y, hy, h⟩ := bind_eq_some_iff.mp h
    simp only [allowed, hy, Option.any_some] at ha
    split at h
    · cases h
    obtain ⟨b, hb, rfl⟩ := map_eq_some_iff.mp h
    obtain ⟨r, hr, rfl⟩ := map_eq_some_iff.mp hb
    exact .commitHead y r ha hy hr
  | setSquashed y =>
    cases h
    simp only [allowed, and_eq_true, contains_iff_mem, all_eq_true, Bool.or_eq_true,
      decide_eq_true_eq] at ha
    exact .setSquashed y ha.1.1 ha.1.2 fun z hz hlt => (ha.2 z hz).resolve_left (by omega)
  | squash n =>
    cases h
    exact .squash n (by simpa [allowed] using ha)
  | commitLoad =>
    cases h
    simp only [allowed, and_eq_true] at ha
    cases hq : s.base.loadQueue with
    | nil => simp [hq] at ha
    | cons y q =>
      simp only [hq, head?_cons, Option.any_some] at ha
      exact .commitLoad y q ha.1 hq ha.2
  | endCycle =>
    cases h
    exact .endCycle ha

/-! ## The invariant -/

/-- What holds between two events of the buffer, the queue and the numbers of the instructions,
without the loads themselves. -/
structure Inv (c : LsqConfig) (s : LsqUnit) : Prop where
  rob : Rob.Inv s.base.rob
  taint : c.stt = true → s.base.Inv c.toConfig
  insts : ∀ x ∈ s.base.rob.instList, x ∈ s.seen
  queue : ∀ x ∈ s.base.loadQueue, x ∈ s.seen ∧ x ≤ s.lastLoad
  sorted : s.base.loadQueue.Pairwise (· < ·)
  fence : ∀ x ∈ s.seen, (s.inst x).status.fenceDelay = false
  untainted : c.stt = true → ∀ x ∈ s.seen, s.ready x = true →
    (s.inst x).taintPropDone = true ∧ (s.inst x).isArgsTainted = false
  addr : c.stt = true → ∀ x ∈ s.base.rob.instList, (s.inst x).taintPropDone = true →
    (s.inst x).isAddrTainted = true → (s.inst x).isArgsTainted = true
  unready : ∀ x ∈ s.seen, s.lastLoad < x → s.ready x = false
  unborn : ∀ x, s.lastLoad < x → s.loads x = {}

/-- The handlers of single loads change nothing but the loads, of those that were in the
queue. -/
structure SameBase (s s' : LsqUnit) : Prop where
  base : s'.base = s.base
  seen : s'.seen = s.seen
  lastLoad : s'.lastLoad = s.lastLoad
  loads : ∀ x, s.lastLoad < x → s'.loads x = s.loads x

theorem SameBase.inst (h : SameBase s s') (x : Nat) : s'.inst x = s.inst x := by
  rw [LsqUnit.inst, LsqUnit.inst, h.base]

theorem SameBase.ready (h : SameBase s s') (x : Nat) : s'.ready x = s.ready x := by
  rw [LsqUnit.ready, LsqUnit.ready, h.inst]

theorem Inv.sameBase (hi : s.Inv c) (h : SameBase s s') : s'.Inv c := by
  obtain ⟨hb, hs, hl, hloads⟩ := id h
  refine ⟨hb ▸ hi.rob, fun h => hb ▸ hi.taint h, fun x hx => ?_, fun x hx => ?_, hb ▸ hi.sorted,
    fun x hx => ?_, fun hstt x hx hr => ?_, fun hstt x hx => ?_, fun x hx hlt => ?_, fun x hx => ?_⟩
  · rw [hs]
    exact hi.insts x (hb ▸ hx)
  · rw [hs, hl]
    exact hi.queue x (hb ▸ hx)
  · rw [h.inst]
    exact hi.fence x (hs ▸ hx)
  · rw [h.inst]
    exact hi.untainted hstt x (hs ▸ hx) (h.ready x ▸ hr)
  · rw [h.inst]
    exact hi.addr hstt x (hb ▸ hx)
  · rw [h.ready]
    exact hi.unready x (hs ▸ hx) (hl ▸ hlt)
  rw [hl] at hx
  rw [hloads x hx]
  exact hi.unborn x hx

theorem SameBase.setLoad {l : LoadInst} (hx : x ≤ s.lastLoad) : SameBase s (s.setLoad x l) := by
  refine ⟨rfl, rfl, rfl, fun y hy => update_of_ne ?_ _ _⟩
  omega

theorem Inv.restrict (hi : s.Inv c) {q : List Nat} (hq : q.Sublist s.base.loadQueue) :
    Inv c { s with base := { s.base with loadQueue := q } } :=
  { hi with
    taint := fun h => (hi.taint h).restrict fun _ hx => hq.subset hx
    queue := fun x hx => hi.queue x (hq.subset hx)
    sorted := hi.sorted.sublist hq }

theorem Inv.start (h : (lsqMachine c).start s) : s.Inv c := by
  obtain ⟨b, hb, rfl⟩ := h
  have hnil : b.rob.instList = [] := hb.1.1
  have hq : b.loadQueue = [] := hb.2
  refine ⟨Rob.inv_start hb.1, fun _ => .start hb, ?_, ?_, ?_, nofun, fun _ => nofun, ?_, nofun,
    fun _ _ => rfl⟩
  all_goals simp [hnil, hq]

/-! ### Events of the buffer -/

theorem mem_seen {e : RobEvent} (h : y ∈ s.seenAfter e) :
    (∃ inst, e = .insertInst y inst) ∨ y ∈ s.seen := by
  cases e with
  | insertInst x inst =>
    rcases mem_cons.mp h with rfl | h
    · exact .inl ⟨inst, rfl⟩
    · exact .inr h
  | _ => exact .inr h

theorem seen_subset (e : RobEvent) (h : y ∈ s.seen) : y ∈ s.seenAfter e := by
  cases e with
  | insertInst x inst => exact mem_cons_of_mem _ h
  | _ => exact h

theorem Inv.instList_seen (hi : s.Inv c) {e : RobEvent} (hr : s.base.rob.step c.toConfig e = some r)
    (hy : y ∈ r.instList) :
    y ∈ s.seenAfter e := by
  rcases instList_of_robStep hi.rob hr with ⟨x, inst, rfl, hl⟩ | ⟨-, h, hl⟩ | hl
  · rw [hl, mem_append, mem_singleton] at hy
    rcases hy with hy | rfl
    · exact mem_cons_of_mem _ (hi.insts y hy)
    · exact mem_cons_self
  · exact seen_subset e (hi.insts y (hl ▸ mem_cons_of_mem h hy))
  · exact seen_subset e (hi.insts y (hl ▸ hy))

/-- Apart from the end of a cycle, an event of the buffer inserts a new instruction, or leaves
the flags of all that were seen. -/
theorem Inv.robEvent (hi : s.Inv c) {e : RobEvent}
    (ha : (∃ x inst, e = .insertInst x inst) → s.allows e) (hb : s.base.allows e)
    (hcycle : e ≠ .cycle)
    (hr : s.base.rob.step c.toConfig e = some r) :
    Inv c { s with base := { s.base with rob := r }, seen := s.seenAfter e } := by
  obtain ⟨hrob, hquiet, hframe⟩ := quiet_of_step hi.rob hb hcycle hr
  -- an instruction that is inserted has a new number and no flag set
  have hnew (x : Nat) (h : ∃ inst, e = .insertInst x inst) : (∀ y ∈ s.seen, y < x) ∧
      (r.insts x).status.fenceDelay = false ∧ (r.insts x).status.readyToExpose = false := by
    obtain ⟨inst, rfl⟩ := h
    have ha := ha ⟨x, inst, rfl⟩
    simp only [allows, and_eq_true, all_eq_true, decide_eq_true_eq,
      Bool.not_eq_true'] at ha
    simp only [Rob.step] at hr
    split at hr
    · rw [(Rob.insertInst_spec hr).self]
      exact ⟨fun y hy => ha.1 y (mem_cons_of_mem _ hy), ha.2,
        (congrArg (·.2.2.2.2.2) (isNew_flags hb) :)⟩
    · cases hr
  have hkept (x : Nat) (hx : x ∈ s.seen) := kept_of_robStep (x := x) hi.rob hb hcycle hr
    fun inst he => absurd ((hnew x ⟨inst, he⟩).1 x hx) (Nat.lt_irrefl x)
  have hready (x : Nat) (hx : x ∈ s.seen) : (r.insts x).status.readyToExpose = s.ready x :=
    (congrArg Prod.fst (hkept x hx).1 :)
  refine ⟨hrob, fun h => (hi.taint h).quiet hrob hquiet hframe, fun x hx => hi.instList_seen hr hx,
    fun x hx => ⟨seen_subset e (hi.queue x hx).1, (hi.queue x hx).2⟩, hi.sorted, fun x hx => ?_,
    fun hstt x hx hr => ?_, fun hstt x hx hd hadr => ?_, fun x hx hlt => ?_, hi.unborn⟩
  · rcases mem_seen hx with h | h
    · exact (hnew x h).2.1
    · exact (congrArg Prod.snd (hkept x h).1 :).trans (hi.fence x h)
  · change (r.insts x).status.readyToExpose = true at hr
    rcases mem_seen hx with h | h
    · rw [(hnew x h).2.2] at hr
      cases hr
    obtain ⟨-, hd, ha⟩ := hkept x h
    obtain ⟨hd', ha'⟩ := hi.untainted hstt x h (hready x h ▸ hr)
    exact ⟨hd.trans hd', ha.trans ha'⟩
  · rcases hframe.mem x hx with hm | ⟨hno, -⟩
    · obtain ⟨-, hd', ha', haddr', -⟩ := hframe.flags x hm
      exact ha'.trans (hi.addr hstt x hm (hd'.symm.trans hd) (haddr'.symm.trans hadr))
    change (r.insts x).taintPropDone = true at hd
    rw [hno] at hd
    cases hd
  · rcases mem_seen hx with h | h
    · exact (hnew x h).2.2
    · exact (hready x h).trans (hi.unready x h hlt)

theorem Inv.cycle (hi : s.Inv c) :
    Inv c { s with base := { s.base with rob := s.base.rob.endCycle c.toConfig } } := by
  have hl : (s.base.rob.endCycle c.toConfig).instList = s.base.rob.instList :=
    (Rob.endCycle_shape _ _).instList
  have hst (x : Nat) : ((s.base.rob.endCycle c.toConfig).insts x).status = (s.inst x).status :=
    Rob.endCycle_status _ _ x
  refine ⟨hi.rob.sameShape (Rob.endCycle_shape _ _), fun h => (hi.taint h).cycle h,
    fun x hx => hi.insts x (hl ▸ hx), hi.queue, hi.sorted, fun x hx => ?_, fun hstt x hx hr => ?_,
    fun hstt x hx _ hadr => Rob.endCycle_addr hstt hi.rob (hl ▸ hx) hadr, fun x hx hlt => ?_,
    hi.unborn⟩
  · change ((s.base.rob.endCycle c.toConfig).insts x).status.fenceDelay = false
    rw [hst]
    exact hi.fence x hx
  · change ((s.base.rob.endCycle c.toConfig).insts x).status.readyToExpose = true at hr
    rw [hst] at hr
    obtain ⟨hd, ha⟩ := hi.untainted hstt x hx hr
    change ((s.base.rob.endCycle c.toConfig).insts x).taintPropDone = true ∧
      ((s.base.rob.endCycle c.toConfig).insts x).isArgsTainted = false
    by_cases hxl : x ∈ s.base.rob.instList
    · refine ⟨Rob.endCycle_done hstt hi.rob hxl, Bool.eq_false_iff.mpr fun ht => ?_⟩
      have htaint := hi.taint hstt
      have hold := (htaint.taint.endCycle_mono hstt hi.rob htaint.settled hxl hd).1 ht
      rw [show (s.base.rob.insts x).isArgsTainted = false from ha] at hold
      cases hold
    · rw [Rob.endCycle_outside _ hxl]
      exact ⟨hd, ha⟩
  · change ((s.base.rob.endCycle c.toConfig).insts x).status.readyToExpose = false
    rw [hst]
    exact hi.unready x hx hlt

/-! ### The tick -/

/-- What `updateVisibleState` does to the instructions seen so far. -/
theorem Inv.visible (hm : c.enableMLDOM) (hi : s.Inv c) {m : Nat → DynInst}
    (h : updateLoads c.toConfig s.base.rob.insts s.base.loadQueue = some m) (hx : x ∈ s.seen) :
    (m x).taintPropDone = (s.inst x).taintPropDone ∧
      (m x).isArgsTainted = (s.inst x).isArgsTainted ∧
      (m x).isAddrTainted = (s.inst x).isAddrTainted ∧ (m x).status.fenceDelay = false ∧
      (s.ready x → (m x).status.readyToExpose) :=
  updateLoads_exposure (c.mldom_scheme hm).1 (c.mldom_scheme hm).2 h
    (fun hstt hr => (hi.untainted hstt x hx hr).1) (hi.fence x hx)

theorem exposeLoads_of_notMem {ready : Nat → Bool} {m' : Nat → LoadInst}
    (h : exposeLoads c ready answer m xs = some m') (hx : x ∉ xs) : m' x = m x := by
  induction xs generalizing m with
  | nil =>
    cases h
    rfl
  | cons y ys ih =>
    obtain ⟨hxy, hx⟩ := not_or.mp (mt mem_cons.mpr hx)
    obtain ⟨r, -, h⟩ := bind_eq_some_iff.mp h
    split at h
    · rw [ih h hx, update_of_ne hxy]
    · cases h
      exact update_of_ne hxy _ _

theorem Inv.iewTick (hm : c.enableMLDOM) (hi : s.Inv c) {m : Nat → DynInst}
    (h : updateLoads c.toConfig s.base.rob.insts s.base.loadQueue = some m) :
    Inv c { s with base := { s.base with rob := { s.base.rob with insts := m } } } := by
  have hvis (x : Nat) (hx : x ∈ s.seen) := hi.visible (x := x) hm h hx
  have hshape : Rob.SameShape s.base.rob { s.base.rob with insts := m } := by
    refine ⟨rfl, rfl, rfl, fun x => ?_⟩
    refine updateLoads_induct (P := fun i => i.shape = (s.base.rob.insts x).shape)
      (fun i j hij hj => ?_) rfl h
    exact (congrArg DynInst.shape (lsqVisible_exposes hj).rest :).trans hij
  have hready : c.stt = true → ∀ x ∈ s.seen, (m x).status.readyToExpose = true →
      (s.inst x).taintPropDone = true ∧ (s.inst x).isArgsTainted = false := by
    intro hstt x hx
    refine (updateLoads_induct (P := fun i => i.taintPropDone = (s.inst x).taintPropDone ∧
      i.isArgsTainted = (s.inst x).isArgsTainted ∧ (i.status.readyToExpose = true →
        (s.inst x).taintPropDone = true ∧ (s.inst x).isArgsTainted = false))
      (fun i j hij hj => ?_) ⟨rfl, rfl, hi.untainted hstt x hx⟩ h).2.2
    have he := lsqVisible_exposes hj
    refine ⟨(congrArg DynInst.taintPropDone he.rest :).trans hij.1,
      (congrArg DynInst.isArgsTainted he.rest :).trans hij.2.1, fun hr => ?_⟩
    rw [he.ready hstt (c.mldom_scheme hm).1 (c.mldom_scheme hm).2, hij.1, hij.2.1] at hr
    simpa using hr
  refine ⟨hi.rob.sameShape hshape, fun hstt => (hi.taint hstt).updateVisibleState ?_, hi.insts,
    hi.queue, hi.sorted, fun x hx => (hvis x hx).2.2.2.1, fun hstt x hx hr => ?_,
    fun hstt x hx hd hadr => ?_, fun x hx hlt => ?_, hi.unborn⟩
  · simp [RobLsq.updateVisibleState, h]
  · obtain ⟨hd, ha, -⟩ := hvis x hx
    obtain ⟨hd', ha'⟩ := hready hstt x hx hr
    exact ⟨hd.trans hd', ha.trans ha'⟩
  · obtain ⟨hd', ha', haddr', -⟩ := hvis x (hi.insts x hx)
    exact ha'.trans (hi.addr hstt x hx (hd'.symm.trans hd) (haddr'.symm.trans hadr))
  have hno : x ∉ s.base.loadQueue := fun hq => absurd (hi.queue x hq).2 (Nat.not_le.mpr hlt)
  change (m x).status.readyToExpose = false
  rw [updateLoads_of_notMem h hno]
  exact hi.unready x hx hlt

theorem snoopLoads_of_notMem {line : Nat} {external force : Bool} {fence : Nat → Bool}
    (hx : x ∉ xs) :
    snoopLoads c line external fence m force xs x = m x := by
  induction xs generalizing m force with
  | nil => rfl
  | cons y ys ih =>
    obtain ⟨hxy, hx⟩ := not_or.mp (mt mem_cons.mpr hx)
    rw [snoopLoads, ih hx, update_of_ne hxy]

/-! ### Runs -/

theorem commits_mem (h : s.commits x) : x ∈ s.base.loadQueue := by
  simp only [commits, and_eq_true, contains_iff_mem] at h
  exact h.1.2

theorem Inv.unqueued (hi : s.Inv c) (hx : s.lastLoad < x) : x ∉ s.base.loadQueue :=
  fun hq => absurd (hi.queue x hq).2 (Nat.not_le.mpr hx)

theorem Inv.step (hm : c.enableMLDOM) (hi : s.Inv c) (hs : s.step c e = some s') :
    s'.Inv c := by
  cases stepped_of_step hs with
  | rob e r ha hb hr =>
    by_cases hc : e = .cycle
    · subst hc
      cases hr
      exact hi.cycle
    · exact hi.robEvent (fun _ => ha) hb hc hr
  | insertLoad y split data inst ordered hp hlt hy hload =>
    have htaint : c.stt = true → RobLsq.Inv c.toConfig
        { s.base with loadQueue := s.base.loadQueue ++ [y] } := fun h =>
      (hi.taint h).step (e := .insertLoad y) h (if_pos ⟨hy, hload⟩)
    refine ⟨hi.rob, htaint, hi.insts, fun z hz => ?_, ?_, hi.fence, hi.untainted, hi.addr,
      fun z hz hyz => hi.unready z hz (Nat.lt_trans hlt hyz), fun z hz => ?_⟩
    · rcases mem_append.mp hz with hz | hz
      · obtain ⟨h1, h2⟩ := hi.queue z hz
        exact ⟨h1, Nat.le_of_lt (Nat.lt_of_le_of_lt h2 hlt)⟩
      · rw [mem_singleton.mp hz]
        exact ⟨hi.insts y hy, Nat.le_refl y⟩
    · refine pairwise_append.mpr ⟨hi.sorted, pairwise_singleton _ _, fun z hz w hw => ?_⟩
      rw [mem_singleton.mp hw]
      exact Nat.lt_of_le_of_lt (hi.queue z hz).2 hlt
    · have hz : y < z := hz
      exact (update_of_ne (by omega) _ _).trans (hi.unborn z (by omega))
  | iewTick answer d m hp hd hm' =>
    exact (hi.iewTick hm hd).sameBase ⟨rfl, rfl, rfl, fun x hx =>
      exposeLoads_of_notMem hm' (hi.unqueued hx)⟩
  | executeLoad y tr rd l q hp hy =>
    exact hi.sameBase ⟨rfl, rfl, rfl, (SameBase.setLoad (l := l) (hi.queue y hy).2).loads⟩
  | executeStore y split hp hy => exact hi.sameBase ⟨rfl, rfl, rfl, fun _ _ => rfl⟩
  | load y k l hk hy hlast => exact hi.sameBase (.setLoad hlast)
  | checkSnoop line external hp =>
    exact hi.sameBase ⟨rfl, rfl, rfl, fun x hx =>
      snoopLoads_of_notMem fun hq => hi.unqueued hx (mem_of_mem_tail hq)⟩
  | commitHead y r hy hhead hr =>
    have hi' : Inv c { s with base := { s.base with rob := r } } :=
      hi.robEvent (e := .retireHead) (fun ⟨_, _, he⟩ => by cases he) rfl (fun he => by cases he) hr
    exact hi'.sameBase (.setLoad (hi.queue y (commits_mem hy)).2)
  | setSquashed y hp hy => exact hi.sameBase (.setLoad (hi.queue y hy).2)
  | squash n hp =>
    refine (hi.restrict filter_sublist).sameBase ⟨rfl, rfl, rfl, fun x hx => if_neg ?_⟩
    simp [hi.unqueued hx]
  | commitLoad y q hp hq hc => exact hi.restrict (hq ▸ sublist_cons_self y q)
  | endCycle hp => exact hi.sameBase ⟨rfl, rfl, rfl, fun _ _ => rfl⟩

theorem inv_of_reach (hm : c.enableMLDOM) (h : (lsqMachine c).ReachWhen C s) : s.Inv c :=
  h.invariant (fun _ hs => .start hs) fun _ _ _ hi _ hs => hi.step hm hs

/-! ## The loads of the unit -/

/-- What the pass of `exposeLoads` does to a load of the queue: it visits it, or it has ended
at an older one. -/
theorem exposeLoads_cases {ready : Nat → Bool} {m' : Nat → LoadInst} (hs : xs.Pairwise (· < ·))
    (h : exposeLoads c ready answer m xs = some m')
    (hx : x ∈ xs) :
    (∃ flow, (m x).exposeLoad c (ready x) (answer x).1 (answer x).2 = some (m' x, flow)) ∨
      m' x = m x ∧ ∃ y ∈ xs, y < x ∧ ∃ flow, flow ≠ .next ∧
        (m y).exposeLoad c (ready y) (answer y).1 (answer y).2 = some (m' y, flow) := by
  induction xs generalizing m with
  | nil => cases hx
  | cons z zs ih =>
    obtain ⟨hz, hs⟩ := pairwise_cons.mp hs
    have hzn : z ∉ zs := fun hm => absurd (hz z hm) (Nat.lt_irrefl z)
    have hne (y : Nat) (hy : y ∈ zs) : y ≠ z := fun he => hzn (he ▸ hy)
    obtain ⟨⟨l, flow⟩, hl, h⟩ := bind_eq_some_iff.mp h
    split at h
    · -- the pass goes on behind `z`
      have hzm : m' z = l := by
        rw [exposeLoads_of_notMem h hzn, update_self]
      rcases mem_cons.mp hx with rfl | hx
      · exact .inl ⟨flow, hzm ▸ hl⟩
      have hother (y : Nat) (hy : y ∈ zs) : update m z l y = m y :=
        update_of_ne (hne y hy) _ _
      rcases ih hs h hx with ⟨flow, hv⟩ | ⟨hk, y, hy, hlt, flow, hf, hv⟩
      · rw [hother x hx] at hv
        exact .inl ⟨flow, hv⟩
      rw [hother x hx] at hk
      rw [hother y hy] at hv
      exact .inr ⟨hk, y, mem_cons_of_mem _ hy, hlt, flow, hf, hv⟩
    · next hf =>
      cases h
      have hzm : update m z l z = l := update_self ..
      rcases mem_cons.mp hx with rfl | hx
      · exact .inl ⟨flow, by rw [hzm]; exact hl⟩
      refine .inr ⟨update_of_ne (hne x hx) _ _, z, mem_cons_self, hz x hx, flow, hf, ?_⟩
      rw [hzm]
      exact hl

/-- What `checkSnoop` does to a load behind the head. -/
theorem snoopLoads_mem {line : Nat} {external force : Bool} {fence : Nat → Bool}
    (hs : xs.Pairwise (· < ·)) (hx : x ∈ xs) :
    ∃ f, snoopLoads c line external fence m force xs x =
      ((m x).checkSnoop c line external (fence x) f).1 := by
  induction xs generalizing m force with
  | nil => cases hx
  | cons z zs ih =>
    obtain ⟨hz, hs⟩ := pairwise_cons.mp hs
    have hzn : z ∉ zs := fun hm => absurd (hz z hm) (Nat.lt_irrefl z)
    rw [snoopLoads]
    rcases mem_cons.mp hx with rfl | hx
    · exact ⟨force, by rw [snoopLoads_of_notMem hzn, update_self]⟩
    have hxz : x ≠ z := fun he => hzn (he ▸ hx)
    refine (ih hs hx).imp fun f hf => hf.trans ?_
    rw [update_of_ne hxz]

/-- What an event of the unit is to the load `x`. -/
inductive Causes (c : LsqConfig) (s : LsqUnit) (x : Nat) : UnitEvent → Life → LoadEvent → Prop
  | ready (answer : Nat → Bool × Bool) (a : Life) : Causes c s x (.iewTick answer) a .becomeReady
  | expose (answer : Nat → Bool × Bool) (a : Life) (fst snd : Bool) :
    Causes c s x (.iewTick answer) a (.exposeLoads fst snd)
  | execute (tr : Translation) (rd : ReadInput) :
    Causes c s x (.executeLoad x tr rd) (s.life x)
      (.executeLoad (s.isHead x) (s.prevLoadsExecuted c x) tr rd)
  | load (k : LoadEvent) (hk : fromMemory k = true ∨ fromStages k = true) :
    Causes c s x (.load x k) (s.life x) k
  | snoop (line : Nat) (external fence force : Bool) :
    Causes c s x (.checkSnoop line external) (s.life x) (.checkSnoop line external fence force)
  | commit : Causes c s x .commitHead (s.life x) .commit
  | setSquashed : Causes c s x (.setSquashed x) (s.life x) .squash
  | squash (n : Nat) : Causes c s x (.squash n) (s.life x) .squash

/-- The life of a load goes on by steps of its own, caused by the event of the unit. -/
abbrev LifeSteps (c : LsqConfig) (s : LsqUnit) (x : Nat) (e : UnitEvent) : Life → Life → Prop :=
  (loadMachine c).StepsWhile (Causes c s x e) fun _ => True

theorem LifeSteps.one {a b : Life} {k : LoadEvent} (hc : Causes c s x e a k)
    (h : a.step c k = some b) : LifeSteps c s x e a b :=
  .step (.refl a) hc h trivial

theorem LifeSteps.same (hl : s'.loads x = s.loads x) (hr : s'.ready x = s.ready x) :
    LifeSteps c s x e (s.life x) (s'.life x) := by
  rw [life, life, hl, hr]
  exact .refl _

theorem LifeSteps.of_handle {k : LoadEvent} (hc : Causes c s x e (s.life x) k)
    (hk : k ≠ .becomeReady) (he : (s.life x).enabled c k)
    (h : (s.life x).handle c k = some (s'.loads x)) (hr : s'.ready x = s.ready x) :
    LifeSteps c s x e (s.life x) (s'.life x) := by
  refine .one hc ?_
  have hready : (s.life x).readyAfter k = s'.ready x := by simp [Life.readyAfter, life, hk, hr]
  rw [Life.step, if_pos he, h, Option.map_some, hready]
  rfl

theorem LifeSteps.setLoad {l : LoadInst} (hl : s'.loads = update s.loads y l)
    (hr : s'.ready x = s.ready x) (h : x = y → ∃ k, Causes c s x e (s.life x) k ∧ k ≠ .becomeReady ∧
      (s.life x).enabled c k ∧ (s.life x).handle c k = some l) :
    LifeSteps c s x e (s.life x) (s'.life x) := by
  by_cases hxy : x = y
  · obtain ⟨k, hc, hk, he, hl'⟩ := h hxy
    refine .of_handle hc hk he (hl'.trans ?_) hr
    rw [hl, hxy, update_self]
  · refine .same ?_ hr
    rw [hl, update_of_ne hxy]

theorem seen_of_step (he : ∀ k, e ≠ .rob k) (hs : s.step c e = some s') :
    s'.seen = s.seen := by
  cases stepped_of_step hs with
  | rob e r => exact absurd rfl (he e)
  | _ => rfl

theorem seen_mono (hs : s.step c e = some s') (hx : x ∈ s.seen) : x ∈ s'.seen := by
  cases stepped_of_step hs with
  | rob e r =>
    cases e with
    | insertInst y inst => exact mem_cons_of_mem y hx
    | _ => exact hx
  | _ => exact hx

theorem lt_of_insertInst {inst : DynInst} (h : s.allows (.insertInst x inst)) :
    s.lastLoad < x ∧ x ∉ s.seen := by
  simp only [allows, and_eq_true, all_eq_true, decide_eq_true_eq] at h
  exact ⟨h.1 _ mem_cons_self, fun hx =>
    absurd (h.1 x (mem_cons_of_mem _ hx)) (Nat.lt_irrefl x)⟩

/-- An event of the buffer leaves a load that was seen as it is. -/
theorem Inv.ready_rob (hi : s.Inv c) {e : RobEvent} (hb : s.base.allows e)
    (he : ∀ inst, e ≠ .insertInst x inst) (hr : s.base.rob.step c.toConfig e = some r) :
    (r.insts x).status.readyToExpose = s.ready x := by
  by_cases hc : e = .cycle
  · subst hc
    cases hr
    rw [Rob.endCycle_status]
    rfl
  · exact (congrArg Prod.fst (kept_of_robStep hi.rob hb hc hr he).1 :)

/-- The tick makes loads ready, and `exposeLoads` may pass over them. -/
theorem Inv.life_iewTick (hm : c.enableMLDOM) (hi : s.Inv c) {d : Nat → DynInst}
    (hd : updateLoads c.toConfig s.base.rob.insts s.base.loadQueue = some d)
    (h : exposeLoads c (fun x => (d x).status.readyToExpose) answer s.loads s.base.loadQueue =
      some m)
    (hx : x ∈ s.seen) :
    LifeSteps c s x (.iewTick answer) (s.life x) ⟨m x, (d x).status.readyToExpose⟩ := by
  have hmono := (hi.visible hm hd hx).2.2.2.2
  have hready : LifeSteps c s x (.iewTick answer) (s.life x)
      ⟨s.loads x, (d x).status.readyToExpose⟩ := by
    cases hr : (d x).status.readyToExpose with
    | true =>
      exact .one (.ready answer _)
        (by simp [Life.step, Life.enabled, Life.handle, Life.readyAfter, life])
    | false =>
      have hno : s.ready x = false := Bool.eq_false_iff.mpr fun h => by simp [hmono h] at hr
      rw [life, hno]
      exact .refl _
  by_cases hq : x ∈ s.base.loadQueue
  · rcases exposeLoads_cases hi.sorted h hq with ⟨flow, hv⟩ | ⟨hk, -⟩
    · refine .step hready (.expose answer _ (answer x).1 (answer x).2) ?_ trivial
      simp [loadMachine, Life.step, Life.enabled, Life.handle, hv, Life.readyAfter]
    · rw [hk]
      exact hready
  · rw [exposeLoads_of_notMem h hq]
    exact hready

/-- To a load that was seen, a step of the unit is some steps of its life, or its life
begins. -/
theorem life_of_step (hm : c.enableMLDOM) (hi : s.Inv c) (hs : s.step c e = some s')
    (hx : x ∈ s'.seen) :
    (loadMachine c).start (s'.life x) ∧ s.loads x = {} ∨
      x ∈ s.seen ∧ LifeSteps c s x e (s.life x) (s'.life x) := by
  cases stepped_of_step hs with
  | rob e r ha hb hr =>
    rcases mem_seen hx with ⟨inst, rfl⟩ | hx
    · -- a new instruction is not ready, and no load has its number yet
      have hborn := hi.unborn x (lt_of_insertInst ha).1
      have hnew : inst.status.readyToExpose = false :=
        (congrArg (·.2.2.2.2.2) (isNew_flags hb) :)
      simp only [Rob.step] at hr
      split at hr
      · refine .inl ⟨⟨false, false, false, false, ?_⟩, hborn⟩
        simp only [life, ready, LsqUnit.inst, (Rob.insertInst_spec hr).self, hborn, hnew]
      · cases hr
    · exact .inr ⟨hx, .same rfl (hi.ready_rob hb
        (fun inst he => (lt_of_insertInst (he ▸ ha)).2 hx) hr)⟩
  | insertLoad y split data inst ordered hp hlt hy hload =>
    by_cases hxy : x = y
    · subst hxy
      have hno := hi.unready x hx hlt
      rw [ready, LsqUnit.inst] at hno
      refine .inl ⟨⟨split, data, inst, ordered, ?_⟩, hi.unborn x hlt⟩
      simp only [life, ready, LsqUnit.inst, update_self, hno]
    · exact .inr ⟨hx, .same (update_of_ne hxy _ _) rfl⟩
  | iewTick answer d m hp hd hm' => exact .inr ⟨hx, hi.life_iewTick hm hd hm' hx⟩
  | executeLoad y tr rd l q hp hy hrob he hl =>
    refine .inr ⟨hx, .setLoad rfl rfl fun hxy => ?_⟩
    subst hxy
    exact ⟨_, .execute tr rd, fun h => (by cases h), he, hl⟩
  | executeStore y split => exact .inr ⟨hx, .refl _⟩
  | load y k l hk hy hlast he hl =>
    refine .inr ⟨hx, .setLoad rfl rfl fun hxy => ?_⟩
    subst hxy
    have hfrom : fromMemory k = true ∨ fromStages k = true :=
      hk.elim (fun h => .inr h.2) fun h => .inl h.2
    refine ⟨k, .load k hfrom, fun hk => ?_, he, hl⟩
    subst hk
    simp [fromMemory, fromStages] at hfrom
  | checkSnoop line external hp =>
    refine .inr ⟨hx, ?_⟩
    by_cases hq : x ∈ s.base.loadQueue.tail
    · have hload : ∃ f, snoopLoads c line external
        (fun y => (s.inst y).status.fenceDelay) s.loads false
          s.base.loadQueue.tail x =
            ((s.loads x).checkSnoop c line external (s.inst x).status.fenceDelay f).1 :=
        snoopLoads_mem (hi.sorted.sublist (tail_sublist _)) hq
      obtain ⟨f, hf⟩ := hload
      exact .of_handle (.snoop line external (s.inst x).status.fenceDelay f)
        (fun h => by cases h) rfl
        (congrArg some hf.symm) rfl
    · exact .same (snoopLoads_of_notMem hq) rfl
  | commitHead y r hy hhead hr =>
    have hready := hi.ready_rob (x := x) (e := .retireHead) rfl (fun _ he => by cases he) hr
    refine .inr ⟨hx, .setLoad rfl hready fun hxy => ?_⟩
    subst hxy
    simp only [commits, and_eq_true] at hy
    exact ⟨.commit, .commit, fun h => (by cases h), hy.2, rfl⟩
  | setSquashed y hp hy =>
    refine .inr ⟨hx, .setLoad rfl rfl fun hxy => ?_⟩
    subst hxy
    exact ⟨.squash, .setSquashed, fun h => (by cases h), rfl, rfl⟩
  | squash n =>
    refine .inr ⟨hx, ?_⟩
    by_cases hq : (s.base.loadQueue.contains x && decide (n < x)) = true
    · exact .of_handle (.squash n) (fun h => by cases h) rfl (congrArg some (if_pos hq).symm) rfl
    · exact .same (if_neg hq) rfl
  | commitLoad y q => exact .inr ⟨hx, .refl _⟩
  | endCycle => exact .inr ⟨hx, .refl _⟩

/-- To each load the rest of the unit is an environment of its own machine. -/
theorem life_reach {D : Life → LoadEvent → Prop} (hm : c.enableMLDOM)
    (hD : ∀ s e x a k, C s e → Causes c s x e a k → D a k)
    (h : (lsqMachine c).ReachWhen C s) : ∀ x ∈ s.seen, (loadMachine c).ReachWhen D (s.life x) := by
  induction h with
  | start hs =>
    obtain ⟨b, -, rfl⟩ := hs
    exact nofun
  | step hr hC hs ih =>
    intro x hx
    rcases life_of_step hm (inv_of_reach hm hr) hs hx with ⟨hstart, -⟩ | ⟨hx, hsteps⟩
    · exact .start hstart
    · exact (ih x hx).steps (hsteps.mono fun a k hk => hD _ _ x a k hC hk)

theorem stage_of_reach (hm : c.enableMLDOM) (h : (lsqMachine c).ReachWhen C s)
    (hx : x ∈ s.seen) : (s.loads x).Stage c (s.ready x) :=
  Life.stage_of_reach hm (life_reach (D := fun _ _ => True) hm
    (fun _ _ _ _ _ _ _ => trivial) h x hx)

end LsqUnit

end SdoCore
