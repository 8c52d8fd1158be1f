import Mathlib.Logic.Function.Basic
import Mathlib.Data.Nat.Bitwise
import Mathlib.Data.Fintype.OfMap
import Mathlib.Data.Fintype.Option
import SdoCore.Lib.Machine
import SdoCore.Lib.Window

/-! The location predictors (`cpu/o3/locPred.cc`): greedy, hysteresis, local and loop, and the
two- and three-way tournaments over them. A predictor is a table indexed by the low bits of the
PC. An operation is `none` where the source asserts, reads past the end of a history, divides
by zero or pops an empty history.

Results:
* `hysteresis_steady_iff`: when the hysteresis predictor keeps to the law that it changes its
  mind only on two equal outcomes in a row. -/

namespace SdoCore.LocPred

open Lib

/-! ## Levels -/

/-- `CacheLevel_t`. -/
inductive CacheLevel
  | L1 | L2 | L3 | DRAM | L1c | perfectLevel | perfectUnsafeLevel
  deriving DecidableEq

namespace CacheLevel

def toNat : CacheLevel → Nat
  | .L1 => 0
  | .L2 => 1
  | .L3 => 2
  | .DRAM => 3
  | .L1c => 4
  | .perfectLevel => 5
  | .perfectUnsafeLevel => 6

/-- `foldCacheLevelForTwoLevelSDO`. -/
def fold : CacheLevel → CacheLevel
  | .L3 => .L2
  | l => l

/-- A level a load can hit in; the others only name a state or a target of a predictor. -/
def isActual (l : CacheLevel) : Bool := decide (l.toNat < 4)

def max (l l' : CacheLevel) : CacheLevel := if l.toNat > l'.toNat then l else l'

instance : Fintype CacheLevel :=
  .ofList [.L1, .L2, .L3, .DRAM, .L1c, .perfectLevel, .perfectUnsafeLevel]
    fun l => by cases l <;> decide

theorem fold_fold (l : CacheLevel) : l.fold.fold = l.fold := by cases l <;> rfl

theorem isActual_fold {l : CacheLevel} (h : l.isActual) : l.fold.isActual := by
  cases l <;> first | rfl | exact h

end CacheLevel

/-- `LocPred_t`, the types of the predictors modelled. -/
inductive PredType
  | greedy | hysteresis | localPred | loop
  deriving DecidableEq

/-- `getLocalIndex`; `indexMask` has 32 bits. -/
def getLocalIndex (predictorSize loadPC : Nat) : Nat := loadPC &&& ((predictorSize - 1) % 2 ^ 32)

theorem getLocalIndex_lt {size : Nat} (h : 0 < size) (pc : Nat) : getLocalIndex size pc < size := by
  have h1 : getLocalIndex size pc ≤ (size - 1) % 2 ^ 32 := Nat.and_le_right
  have h2 := Nat.mod_le (size - 1) (2 ^ 32)
  omega

/-! ## Greedy -/

structure Greedy where
  size : Nat
  history : Nat → List CacheLevel

namespace Greedy

def init (size historyLength : Nat) : Greedy := ⟨size, fun _ => .replicate historyLength .DRAM⟩

/-- The highest level of the history; the maximum of an empty one is read past its end. -/
def predict (p : Greedy) (pc : Nat) : Option CacheLevel :=
  match p.history (getLocalIndex p.size pc) with
  | [] => none
  | l :: ls => some (ls.foldl (fun m l => if m.toNat < l.toNat then l else m) l).fold

/-- The oldest level goes. -/
def update (p : Greedy) (pc : Nat) (actualLevel : CacheLevel) : Option (Greedy × Nat) :=
  let i := getLocalIndex p.size pc
  match p.history i with
  | [] => none
  | _ :: ls =>
    some ({ p with history := Function.update p.history i (ls ++ [actualLevel.fold]) }, 0)

end Greedy

/-! ## Hysteresis -/

structure Hysteresis where
  size : Nat
  lastLevel1 : Nat → CacheLevel
  lastLevel2 : Nat → CacheLevel

namespace Hysteresis

def init (size : Nat) : Hysteresis := ⟨size, fun _ => .DRAM, fun _ => .DRAM⟩

/-- `predict` of one entry. -/
def predLevel (level1 level2 : CacheLevel) : CacheLevel :=
  if level1 = .L1c ∨ level2 = .L1c then CacheLevel.L1.fold else (level1.max level2).fold

def predict (p : Hysteresis) (pc : Nat) : CacheLevel :=
  let i := getLocalIndex p.size pc
  predLevel (p.lastLevel1 i) (p.lastLevel2 i)

/-- `update` of one entry, both levels of it. -/
def nextLevels (ll1 ll2 l : CacheLevel) : CacheLevel × CacheLevel :=
  if l ≠ .L1 ∨ (ll2 ≠ .L1c ∧ ll1 ≠ .L1) then (l, ll1) else (.L1c, ll2)

def update (p : Hysteresis) (pc : Nat) (actualLevel : CacheLevel) : Hysteresis :=
  let i := getLocalIndex p.size pc
  let next := nextLevels (p.lastLevel1 i) (p.lastLevel2 i) actualLevel.fold
  { p with lastLevel1 := Function.update p.lastLevel1 i next.1
           lastLevel2 := Function.update p.lastLevel2 i next.2 }

end Hysteresis

/-! ## Local -/

/-- The levels and the sequence numbers of a history are two deques that are pushed and popped
together: here, one list of pairs. -/
structure Local where
  size : Nat
  historyLength : Nat
  history : Nat → List (Nat × CacheLevel)
  predictionTable : Nat → Nat → CacheLevel

namespace Local

def init (size historyLength : Nat) : Local where
  size := size
  historyLength := historyLength
  history := fun _ => .replicate historyLength (0, .DRAM)
  predictionTable := fun _ _ => .DRAM

def setHistory (p : Local) (i : Nat) (h : List (Nat × CacheLevel)) : Local :=
  { p with history := Function.update p.history i h }

def prepare (p : Local) (pc sn : Nat) : Local :=
  let i := getLocalIndex p.size pc
  p.setHistory i ((sn, .L1) :: p.history i)

/-- The entry of a load. -/
def historyIdx (p : Local) (i sn : Nat) : Option Nat := (p.history i).findIdx? fun e => e.1 == sn

/-- The levels of the `historyLength` loads before the one at `j`, two bits each, in an
`unsigned`. -/
def predictionTableIdx (p : Local) (i j : Nat) : Nat :=
  (((p.history i).drop (j + 1)).take p.historyLength).foldl
    (fun idx e => (idx <<< 2 + e.2.toNat) % 2 ^ 32) 0

/-- The position of a load and the index it reads; all of the window must be there. -/
def lookup (p : Local) (i sn : Nat) : Option (Nat × Nat) :=
  match p.historyIdx i sn with
  | some j =>
    if j + p.historyLength < (p.history i).length ∧
        p.predictionTableIdx i j < 4 ^ p.historyLength then
      some (j, p.predictionTableIdx i j)
    else none
  | none => none

/-- Write a level into the history. -/
def setLevel (p : Local) (i j : Nat) (l : CacheLevel) : Local :=
  p.setHistory i ((p.history i).modify j fun e => (e.1, l))

def predict (p : Local) (pc sn : Nat) : Option (Local × CacheLevel) :=
  let i := getLocalIndex p.size pc
  match p.lookup i sn with
  | some (j, t) =>
    let pred := (p.predictionTable i t).fold
    some (p.setLevel i j pred, pred)
  | none => none

def update (p : Local) (pc sn : Nat) (actualLevel : CacheLevel) : Option (Local × Nat) :=
  let l := actualLevel.fold
  let i := getLocalIndex p.size pc
  match p.historyIdx i sn with
  | none => some (p, 0)
  | some _ =>
    match p.lookup i sn with
    | some (j, t) =>
      some ({ p.setLevel i j l with
          predictionTable := Function.update p.predictionTable i
            (Function.update (p.predictionTable i) t l) }, 1)
    | none => none

def commit (p : Local) (pc : Nat) (updateOnCommit : Nat) : Option Local :=
  let i := getLocalIndex p.size pc
  if updateOnCommit ≠ 0 then
    if p.history i = [] then none else some (p.setHistory i (p.history i).dropLast)
  else some p

def squash (p : Local) (squashedSn : Nat) : Local :=
  { p with history := fun i =>
      if i < p.size then (p.history i).dropWhile fun e => squashedSn < e.1 else p.history i }

end Local

/-! ## Loop -/

structure Loop where
  size : Nat
  directionHistory : Nat → List (Nat × Bool)
  loopCountTable : Nat → Nat
  newLoopCountTable : Nat → Nat
  predLevelTable : Nat → CacheLevel
  newPredLevelTable : Nat → CacheLevel

namespace Loop

def init (size : Nat) : Loop where
  size := size
  directionHistory := fun _ => [(0, true)]
  loopCountTable := fun _ => 1
  newLoopCountTable := fun _ => 0
  predLevelTable := fun _ => .L1
  newPredLevelTable := fun _ => .L1

def setHistory (p : Loop) (i : Nat) (h : List (Nat × Bool)) : Loop :=
  { p with directionHistory := Function.update p.directionHistory i h }

def prepare (p : Loop) (pc sn : Nat) : Loop :=
  let i := getLocalIndex p.size pc
  p.setHistory i ((sn, false) :: p.directionHistory i)

def historyIdx (p : Loop) (i sn : Nat) : Option Nat :=
  (p.directionHistory i).findIdx? fun e => e.1 == sn

/-- The distance to the last load before the one at `j` that left the L1, or to the end. -/
def currLoopLen (p : Loop) (i j : Nat) : Nat :=
  1 + (((p.directionHistory i).drop (j + 1)).takeWhile fun e => !e.2).length

def setDirection (p : Loop) (i j : Nat) (d : Bool) : Loop :=
  p.setHistory i ((p.directionHistory i).modify j fun e => (e.1, d))

def predict (p : Loop) (pc sn : Nat) : Option (Loop × CacheLevel) :=
  let i := getLocalIndex p.size pc
  match p.historyIdx i sn with
  | none => none
  | some j =>
    if p.loopCountTable i = 0 then none
    else
      let pred :=
        if p.currLoopLen i j % p.loopCountTable i = 0 then (p.predLevelTable i).fold else .L1
      some (p.setDirection i j (pred != .L1), pred)

/-- A new value is taken over when it is seen for the second time: the pair of the table in use
and the candidate. -/
def confirm {α : Type} [DecidableEq α] (cur cand seen : α) : α × α :=
  if cur ≠ seen then if cand = seen then (seen, cand) else (cur, seen) else (cur, cand)

def update (p : Loop) (pc sn : Nat) (actualLevel : CacheLevel) : Loop × Nat :=
  let l := actualLevel.fold
  let i := getLocalIndex p.size pc
  match p.historyIdx i sn with
  | none => (p, 0)
  | some j =>
    let len := p.currLoopLen i j
    let actualDirection := l != .L1
    let p := p.setDirection i j actualDirection
    if actualDirection then
      let count := confirm (p.loopCountTable i) (p.newLoopCountTable i) len
      let level := confirm (p.predLevelTable i) (p.newPredLevelTable i) l
      ({ p with
          loopCountTable := Function.update p.loopCountTable i count.1
          newLoopCountTable := Function.update p.newLoopCountTable i count.2
          predLevelTable := Function.update p.predLevelTable i level.1
          newPredLevelTable := Function.update p.newPredLevelTable i level.2 }, 1)
    else (p, 0)

def commit (p : Loop) (pc sn : Nat) (updateOnCommit : Nat) : Loop :=
  let i := getLocalIndex p.size pc
  if updateOnCommit ≠ 0 then
    p.setHistory i ((p.directionHistory i).rdropWhile fun e => e.1 < sn)
  else p

def squash (p : Loop) (squashedSn : Nat) : Loop :=
  { p with directionHistory := fun i =>
      if i < p.size then (p.directionHistory i).dropWhile fun e => squashedSn < e.1
      else p.directionHistory i }

end Loop

/-! ## The common interface -/

/-- `LocPred_BaseType`. -/
structure Methods (σ : Type) where
  prepare : σ → Nat → Nat → σ
  predict : σ → Nat → Nat → Option (σ × CacheLevel × PredType)
  update : σ → Nat → Nat → CacheLevel → Option (σ × Nat)
  commit : σ → Nat → Nat → Nat → Option σ
  squash : σ → Nat → σ

/-- A predictor with a table of its own. -/
inductive SubPred
  | greedy (p : Greedy)
  | hysteresis (p : Hysteresis)
  | localPred (p : Local)
  | loop (p : Loop)

namespace SubPred

def getPredType : SubPred → PredType
  | .greedy _ => .greedy
  | .hysteresis _ => .hysteresis
  | .localPred _ => .localPred
  | .loop _ => .loop

def prepare (q : SubPred) (pc sn : Nat) : SubPred :=
  match q with
  | .localPred p => .localPred (p.prepare pc sn)
  | .loop p => .loop (p.prepare pc sn)
  | q => q

def predict (q : SubPred) (pc sn : Nat) : Option (SubPred × CacheLevel × PredType) :=
  match q with
  | .greedy p => (p.predict pc).map fun l => (.greedy p, l, .greedy)
  | .hysteresis p => some (.hysteresis p, p.predict pc, .hysteresis)
  | .localPred p => (p.predict pc sn).map fun r => (.localPred r.1, r.2, .localPred)
  | .loop p => (p.predict pc sn).map fun r => (.loop r.1, r.2, .loop)

def update (q : SubPred) (pc sn : Nat) (actualLevel : CacheLevel) : Option (SubPred × Nat) :=
  match q with
  | .greedy p => (p.update pc actualLevel).map fun r => (.greedy r.1, r.2)
  | .hysteresis p => some (.hysteresis (p.update pc actualLevel), 0)
  | .localPred p => (p.update pc sn actualLevel).map fun r => (.localPred r.1, r.2)
  | .loop p =>
    let r := p.update pc sn actualLevel
    some (.loop r.1, r.2)

def commit (q : SubPred) (pc sn updateOnCommit : Nat) : Option SubPred :=
  match q with
  | .localPred p => (p.commit pc updateOnCommit).map .localPred
  | .loop p => some (.loop (p.commit pc sn updateOnCommit))
  | q => some q

def squash (q : SubPred) (squashedSn : Nat) : SubPred :=
  match q with
  | .localPred p => .localPred (p.squash squashedSn)
  | .loop p => .loop (p.squash squashedSn)
  | q => q

def methods : Methods SubPred := ⟨prepare, predict, update, commit, squash⟩

end SubPred

/-! ## Tournaments -/

/-- One step of a confidence counter. -/
def confStep (confMax conf : Int) (correct : Bool) : Int :=
  if correct then if conf < confMax then conf + 1 else conf
  else if conf > 0 then conf - 1 else conf

/-- A sub-predictor with its confidences. -/
structure Contender where
  pred : SubPred
  conf : Nat → Int

namespace Contender

/-- The part of a tournament's `update` that concerns one sub-predictor: predict again, update,
and count whether the prediction was right. -/
def update (k : Contender) (confMax : Int) (i pc sn : Nat) (actualLevel : CacheLevel) :
    Option (Contender × Nat) :=
  match k.pred.predict pc sn with
  | none => none
  | some (q, prediction, _) =>
    (q.update pc sn actualLevel).map fun r =>
      (⟨r.1, Function.update k.conf i
        (confStep confMax (k.conf i) (prediction.fold == actualLevel))⟩, r.2)

end Contender

structure Tournament2Way where
  size : Nat
  pred1 : Contender
  pred2 : Contender
  confMax : Int

namespace Tournament2Way

def prepare (t : Tournament2Way) (pc sn : Nat) : Tournament2Way :=
  { t with pred1.pred := t.pred1.pred.prepare pc sn, pred2.pred := t.pred2.pred.prepare pc sn }

def predict (t : Tournament2Way) (pc sn : Nat) :
    Option (Tournament2Way × CacheLevel × PredType) :=
  match t.pred1.pred.predict pc sn, t.pred2.pred.predict pc sn with
  | some (q1, l1, _), some (q2, l2, _) =>
    let i := getLocalIndex t.size pc
    let t' := { t with pred1.pred := q1, pred2.pred := q2 }
    if t.pred1.conf i ≥ t.pred2.conf i then some (t', l1.fold, q1.getPredType)
    else some (t', l2.fold, q2.getPredType)
  | _, _ => none

def update (t : Tournament2Way) (pc sn : Nat) (actualLevel : CacheLevel) :
    Option (Tournament2Way × Nat) :=
  let l := actualLevel.fold
  let i := getLocalIndex t.size pc
  match t.pred1.update t.confMax i pc sn l, t.pred2.update t.confMax i pc sn l with
  | some (k1, u1), some (k2, u2) => some ({ t with pred1 := k1, pred2 := k2 }, u2 <<< 1 + u1)
  | _, _ => none

def commit (t : Tournament2Way) (pc sn updateOnCommit : Nat) : Option Tournament2Way :=
  match t.pred1.pred.commit pc sn (updateOnCommit &&& 1),
      t.pred2.pred.commit pc sn ((updateOnCommit >>> 1) &&& 1) with
  | some q1, some q2 => some { t with pred1.pred := q1, pred2.pred := q2 }
  | _, _ => none

def squash (t : Tournament2Way) (squashedSn : Nat) : Tournament2Way :=
  { t with pred1.pred := t.pred1.pred.squash squashedSn
           pred2.pred := t.pred2.pred.squash squashedSn }

def methods : Methods Tournament2Way := ⟨prepare, predict, update, commit, squash⟩

end Tournament2Way

structure Tournament3Way where
  size : Nat
  pred1 : Contender
  pred2 : Contender
  pred3 : Contender
  confMax : Int

namespace Tournament3Way

def prepare (t : Tournament3Way) (pc sn : Nat) : Tournament3Way :=
  { t with pred1.pred := t.pred1.pred.prepare pc sn
           pred2.pred := t.pred2.pred.prepare pc sn
           pred3.pred := t.pred3.pred.prepare pc sn }

def predict (t : Tournament3Way) (pc sn : Nat) :
    Option (Tournament3Way × CacheLevel × PredType) :=
  match t.pred1.pred.predict pc sn, t.pred2.pred.predict pc sn, t.pred3.pred.predict pc sn with
  | some (q1, l1, _), some (q2, l2, _), some (q3, l3, _) =>
    let i := getLocalIndex t.size pc
    let conf1 := t.pred1.conf i
    let conf2 := t.pred2.conf i
    let conf3 := t.pred3.conf i
    let t' := { t with pred1.pred := q1, pred2.pred := q2, pred3.pred := q3 }
    if conf1 ≥ conf2 ∧ conf1 ≥ conf3 then some (t', l1.fold, q1.getPredType)
    else if conf2 ≥ conf1 ∧ conf2 ≥ conf3 then some (t', l2.fold, q2.getPredType)
    else some (t', l3.fold, q3.getPredType)
  | _, _, _ => none

def update (t : Tournament3Way) (pc sn : Nat) (actualLevel : CacheLevel) :
    Option (Tournament3Way × Nat) :=
  let l := actualLevel.fold
  let i := getLocalIndex t.size pc
  match t.pred1.update t.confMax i pc sn l, t.pred2.update t.confMax i pc sn l,
      t.pred3.update t.confMax i pc sn l with
  | some (k1, u1), some (k2, u2), some (k3, u3) =>
    some ({ t with pred1 := k1, pred2 := k2, pred3 := k3 }, u3 <<< 2 + u2 <<< 1 + u1)
  | _, _, _ => none

def commit (t : Tournament3Way) (pc sn updateOnCommit : Nat) : Option Tournament3Way :=
  match t.pred1.pred.commit pc sn (updateOnCommit &&& 1),
      t.pred2.pred.commit pc sn ((updateOnCommit >>> 1) &&& 1),
      t.pred3.pred.commit pc sn ((updateOnCommit >>> 2) &&& 1) with
  | some q1, some q2, some q3 =>
    some { t with pred1.pred := q1, pred2.pred := q2, pred3.pred := q3 }
  | _, _, _ => none

def squash (t : Tournament3Way) (squashedSn : Nat) : Tournament3Way :=
  { t with pred1.pred := t.pred1.pred.squash squashedSn
           pred2.pred := t.pred2.pred.squash squashedSn
           pred3.pred := t.pred3.pred.squash squashedSn }

def methods : Methods Tournament3Way := ⟨prepare, predict, update, commit, squash⟩

end Tournament3Way

/-! ## The law of the hysteresis predictor -/

namespace Hysteresis

/-- Updates with the PC and the level of each. -/
def runUpdates (p : Hysteresis) (us : List (Nat × CacheLevel)) : Hysteresis :=
  us.foldl (fun p u => p.update u.1 u.2) p

/-- The folded level of the last update of an entry. -/
def lastOutcome (size : Nat) (us : List (Nat × CacheLevel)) (i : Nat) : Option CacheLevel :=
  (us.reverse.find? fun u => getLocalIndex size u.1 == i).map fun u => u.2.fold

/-- Where one entry keeps to the law: the outcome repeats the last one, the last stored level is
the confident L1, or the outcome and the older stored level count the same beside the last. -/
def steadyLevels (ll1 ll2 l : CacheLevel) : Bool :=
  l == ll1 || ll1 == .L1c || (if ll2 = .L1c then l == .L1 else l.max ll1 == ll1.max ll2)

def steady (p : Hysteresis) (pc : Nat) (actualLevel : CacheLevel) : Bool :=
  let i := getLocalIndex p.size pc
  steadyLevels (p.lastLevel1 i) (p.lastLevel2 i) actualLevel.fold

/-- The levels an entry can hold after an outcome. -/
def holds (ll1 ll2 : CacheLevel) (last : Option CacheLevel) : Bool :=
  decide (ll1 ∈ [CacheLevel.L1, .L2, .DRAM, .L1c]) &&
    decide (ll2 ∈ [CacheLevel.L1, .L2, .DRAM, .L1c]) &&
    match last with
    | none => ll1 == .DRAM && ll2 == .DRAM
    | some x => ll1 == x || (x == .L1 && ll1 == .L1c)

theorem holds_next : ∀ ll1 ll2 l : CacheLevel, ∀ last : Option CacheLevel,
    holds ll1 ll2 last → l.isActual →
      holds (nextLevels ll1 ll2 l.fold).1 (nextLevels ll1 ll2 l.fold).2 (some l.fold) := by
  decide +kernel

theorem steadyLevels_iff : ∀ ll1 ll2 l : CacheLevel, ∀ last : Option CacheLevel,
    holds ll1 ll2 last → l.isActual →
      ((predLevel (nextLevels ll1 ll2 l.fold).1 (nextLevels ll1 ll2 l.fold).2 ≠ predLevel ll1 ll2 →
        last = some l.fold ∧
          predLevel (nextLevels ll1 ll2 l.fold).1 (nextLevels ll1 ll2 l.fold).2 = l.fold) ↔
        steadyLevels ll1 ll2 l.fold) := by
  decide +kernel

/-- Every entry holds what its last outcome allows. -/
theorem holds_runUpdates (size : Nat) (us : List (Nat × CacheLevel))
    (hus : ∀ u ∈ us, u.2.isActual) (i : Nat) :
    ((init size).runUpdates us).size = size ∧
      holds (((init size).runUpdates us).lastLevel1 i) (((init size).runUpdates us).lastLevel2 i)
        (lastOutcome size us i) := by
  induction us using List.reverseRecOn with
  | nil => exact ⟨rfl, rfl⟩
  | append_singleton us u ih =>
    obtain ⟨hsize, hh⟩ := ih fun v hv => hus v (List.mem_append_left _ hv)
    have hu := hus u (by simp)
    have hrun : (init size).runUpdates (us ++ [u]) =
        ((init size).runUpdates us).update u.1 u.2 := by simp [runUpdates]
    rw [hrun]
    refine ⟨hsize, ?_⟩
    by_cases hi : getLocalIndex size u.1 = i
    · have hlast : lastOutcome size (us ++ [u]) i = some u.2.fold := by simp [lastOutcome, hi]
      rw [hlast]
      simp only [update, hsize, hi, Function.update_self]
      exact holds_next _ _ _ _ hh hu
    · have hlast : lastOutcome size (us ++ [u]) i = lastOutcome size us i := by
        simp [lastOutcome, hi]
      rw [hlast]
      simp only [update, hsize, Function.update_of_ne (Ne.symm hi)]
      exact hh

end Hysteresis

open Hysteresis in
/-- In every state reached by updates, the law holds of one more update exactly if the stored
levels are `steady` for it: if the prediction changes, the update before was with the same level
and the new prediction is that level. -/
theorem hysteresis_steady_iff (size : Nat) (us : List (Nat × CacheLevel))
    (hus : ∀ u ∈ us, u.2.isActual = true) (pc : Nat) (l : CacheLevel) (hl : l.isActual = true) :
    (((((init size).runUpdates us).update pc l).predict pc ≠
      ((init size).runUpdates us).predict pc →
      lastOutcome size us (getLocalIndex size pc) = some l.fold ∧
        (((init size).runUpdates us).update pc l).predict pc = l.fold) ↔
      ((init size).runUpdates us).steady pc l = true) := by
  obtain ⟨hsize, hh⟩ := holds_runUpdates size us hus (getLocalIndex size pc)
  simp only [predict, update, steady, hsize, Function.update_self]
  exact steadyLevels_iff _ _ _ _ hh hl

/-- Two L1 in a row: the second one changes the prediction. -/
theorem hysteresis_steady_iff_twice :
    ((Hysteresis.init 8).runUpdates [(0, .L1)]).steady 0 .L1 = true ∧
      ((((Hysteresis.init 8).runUpdates [(0, .L1)]).update 0 .L1).predict 0 ≠
          ((Hysteresis.init 8).runUpdates [(0, .L1)]).predict 0 →
        Hysteresis.lastOutcome 8 [(0, .L1)] 0 = some .L1 ∧
          (((Hysteresis.init 8).runUpdates [(0, .L1)]).update 0 .L1).predict 0 = .L1) :=
  ⟨by decide +kernel,
    (hysteresis_steady_iff 8 [(0, .L1)] (by decide) 0 .L1 rfl).mpr (by decide +kernel)⟩

/-- After two L2 one DRAM changes the prediction from L2 to DRAM. -/
theorem hysteresis_changes_at_once :
    ¬ ∀ (size : Nat) (us : List (Nat × CacheLevel)), (∀ u ∈ us, u.2.isActual = true) →
      ∀ (pc : Nat) (l : CacheLevel), l.isActual = true →
        ((((Hysteresis.init size).runUpdates us).update pc l).predict pc ≠
          ((Hysteresis.init size).runUpdates us).predict pc →
        Hysteresis.lastOutcome size us (getLocalIndex size pc) = some l.fold ∧
          (((Hysteresis.init size).runUpdates us).update pc l).predict pc = l.fold) := by
  intro h
  have hlaw := h 8 [(0, .L2), (0, .L2)] (by decide) 0 .DRAM rfl (by decide +kernel)
  exact absurd hlaw.1 (by decide +kernel)

end SdoCore.LocPred
