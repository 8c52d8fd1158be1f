import SdoCore.Pipeline.MemOrder

/-! The memory dependence predictor (`store_set.cc`), as far as its table of store sets, the
SSIT, goes: the table of last fetched stores is read and written by the issue of stores
only and never flows back into the SSIT.

IEW passes every violation it takes from the load/store queue on in the cycle in which the
addresses were compared (`instQueue.violation`), whatever commit does about the squash. -/

namespace SdoCore

open List
open Rob Lib
open Function (update)

structure StoreSetConfig where
  (ssitSize lfstSize clearPeriod : Nat)

/-- `ssit` has a value where `validSSIT` is set. -/
structure StoreSet where
  ssit : Nat → Option Nat
  memOpsPred : Nat

namespace StoreSet

def empty : StoreSet := ⟨fun _ => none, 0⟩

def offsetBits : Nat := 2

def calcIndex (p : StoreSetConfig) (pc : Nat) : Nat := (pc >>> offsetBits) &&& (p.ssitSize - 1)

def calcSSID (p : StoreSetConfig) (pc : Nat) : Nat := (pc ^^^ (pc >>> 10)) % p.lfstSize

def checkClear (p : StoreSetConfig) (s : StoreSet) : StoreSet :=
  if p.clearPeriod < s.memOpsPred + 1 then ⟨fun _ => none, 0⟩
  else { s with memOpsPred := s.memOpsPred + 1 }

/-- The set with the lower number wins. `none` is a failed assertion. -/
def violation (p : StoreSetConfig) (s : StoreSet) (storePC loadPC : Nat) : Option StoreSet :=
  let load := calcIndex p loadPC
  let store := calcIndex p storePC
  if load < p.ssitSize ∧ store < p.ssitSize then
    match s.ssit load, s.ssit store with
    | none, none =>
      let set := calcSSID p loadPC
      if set < p.lfstSize then
        some { s with ssit := update (update s.ssit load (some set)) store (some set) }
      else none
    | some a, none =>
      if a < p.lfstSize then some { s with ssit := update s.ssit store (some a) } else none
    | none, some b => some { s with ssit := update s.ssit load (some b) }
    | some a, some b =>
      if a < p.lfstSize ∧ b < p.lfstSize then
        if a < b then some { s with ssit := update s.ssit store (some a) }
        else some { s with ssit := update s.ssit load (some b) }
      else none
  else none

end StoreSet

/-- The calls that reach the SSIT; a violation with the instructions and whether their
addresses were tainted. -/
inductive DepEvent
  | insertStore
  | violation (store load storePC loadPC : Nat) (storeTainted loadTainted : Bool)
  deriving DecidableEq

def StoreSet.apply (p : StoreSetConfig) (s : StoreSet) : DepEvent → Option StoreSet
  | .insertStore => some (s.checkClear p)
  | .violation _ _ storePC loadPC _ _ => s.violation p storePC loadPC

def StoreSet.replay (p : StoreSetConfig) (s : StoreSet) : List DepEvent → Option StoreSet
  | [] => some s
  | e :: es => (s.apply p e).bind fun s => replay p s es

/-- The core with its predictor; `events` is history. -/
structure DepCore where
  core : Core
  storeSet : StoreSet
  events : List DepEvent

namespace DepCore

/-- The calls of one cycle: stores are inserted at dispatch, then instructions execute. -/
def depEvents (s : Core) (i : CycleIn) (w : Iew) : List DepEvent :=
  let r := (s.iewStart i).rob
  (i.dispatched.filter fun x => (r.insts x).staticInst.isStore && !(r.insts x).squashed).map
      (fun _ => .insertStore) ++
    w.trained.map fun (store, load) =>
      .violation store load (w.rob.insts store).status.pc.pc (w.rob.insts load).status.pc.pc
        (w.rob.insts store).isAddrTainted (w.rob.insts load).isAddrTainted

def cycle (c : Config) (p : StoreSetConfig) (s : DepCore) (i : CycleIn) : Option DepCore :=
  (s.core.iewTick c i).bind fun w =>
    (s.storeSet.replay p (depEvents s.core i w)).bind fun t =>
      (s.core.cycle c i).map fun u => ⟨u, t, s.events ++ depEvents s.core i w⟩

structure Start (s : DepCore) : Prop where
  core : s.core.Start
  storeSet : s.storeSet = .empty
  events : s.events = []

end DepCore

def depMachine (c : Config) (p : StoreSetConfig) : Machine DepCore CycleIn where
  start := DepCore.Start
  step := DepCore.cycle c p

namespace DepCore

variable {c : Config} {p : StoreSetConfig} {s s' : DepCore} {i : CycleIn}

theorem replay_append {t u : StoreSet} {es fs : List DepEvent} {v : StoreSet}
    (h : t.replay p es = some u) (h' : u.replay p fs = some v) :
    t.replay p (es ++ fs) = some v := by
  induction es generalizing t with
  | nil =>
    cases h
    exact h'
  | cons e es ih =>
    obtain ⟨t₁, ht₁, h⟩ := Option.bind_eq_some_iff.mp h
    show ((t.apply p e).bind fun t => t.replay p (es ++ fs)) = some v
    rw [ht₁, Option.bind_some]
    exact ih h

/-- An access and a load that it conflicts with both have untainted addresses. -/
def conflictUntainted (c : Config) (w : Iew) (e : Iew.Exec) : Bool :=
  (w.conflictsWith c e).all fun l =>
    !(w.rob.insts e.inst).isAddrTainted && !(w.rob.insts l).isAddrTainted

def ConflictsUntainted (c : Config) (s : DepCore) (i : CycleIn) : Prop :=
  s.core.ExecsWhen c (conflictUntainted c) i

/-- The call is not one for a tainted address. -/
def Untainted : DepEvent → Prop
  | .insertStore => True
  | .violation _ _ _ _ storeTainted loadTainted => storeTainted = false ∧ loadTainted = false

structure Inv (c : Config) (p : StoreSetConfig) (s : DepCore) : Prop where
  core : s.core.Inv c
  table : StoreSet.empty.replay p s.events = some s.storeSet
  untainted : ∀ e ∈ s.events, Untainted e

theorem depEvents_untainted {s : Core} {w : Iew} (h : s.Inv c)
    (hC : s.ExecsWhen c (conflictUntainted c) i) (hw : s.iewTick c i = some w) :
    ∀ e ∈ depEvents s i w, Untainted e := by
  have hf := (Iew.iewTick_spec h.iewReady hw).1.frame
  have hblames := Core.iewTick_blames (Q := fun a v => (s.inFlight.insts a).isAddrTainted = false ∧
    (s.inFlight.insts v).isAddrTainted = false) h.iewReady hC (fun u e hfu hP l hl => ?_) hw
  · intro e he
    rcases mem_append.mp he with he | he
    · obtain ⟨x, -, rfl⟩ := mem_map.mp he
      exact trivial
    obtain ⟨⟨a, v⟩, hav, rfl⟩ := mem_map.mp he
    show (w.rob.insts a).isAddrTainted = false ∧ (w.rob.insts v).isAddrTainted = false
    rw [hf.isAddrTainted, hf.isAddrTainted]
    exact hblames.trained a v hav
  · have hboth := all_eq_true.mp hP l hl
    simp only [Bool.and_eq_true, Bool.not_eq_true'] at hboth
    rw [hfu.isAddrTainted, hfu.isAddrTainted] at hboth
    exact hboth

theorem Inv.cycle (hstt : c.stt) (himp : c.impChannel) (h : Inv c p s)
    (hC : s.ConflictsUntainted c i) (hr : s.cycle c p i = some s') : Inv c p s' := by
  obtain ⟨w, hw, hr⟩ := Option.bind_eq_some_iff.mp hr
  obtain ⟨t, ht, hr⟩ := Option.bind_eq_some_iff.mp hr
  obtain ⟨u, hu, rfl⟩ := Option.map_eq_some_iff.mp hr
  refine ⟨h.core.cycle hstt himp hu, replay_append h.table ht, fun e he => ?_⟩
  rcases mem_append.mp he with he | he
  · exact h.untainted e he
  · exact depEvents_untainted h.core hC hw e he

theorem Inv.start (h : s.Start) : Inv c p s := by
  refine ⟨.start h.core, ?_, ?_⟩
  · rw [h.events, h.storeSet]
    rfl
  · rw [h.events]
    nofun

end DepCore

/-- In every run in which no access meets an executed load while one of the two addresses is
tainted, the SSIT is the result of calls for untainted addresses alone. -/
theorem untainted_training {c : Config} {p : StoreSetConfig} (hstt : c.stt = true)
    (himp : c.impChannel = true) {s : DepCore}
    (h : (depMachine c p).ReachWhen (DepCore.ConflictsUntainted c) s) :
    (∀ store load storePC loadPC storeTainted loadTainted,
        .violation store load storePC loadPC storeTainted loadTainted ∈ s.events →
          storeTainted = false ∧ loadTainted = false) ∧
      StoreSet.empty.replay p s.events = some s.storeSet := by
  have hinv : DepCore.Inv c p s :=
    h.invariant (fun _ hs => .start hs) fun _ _ _ hi hC hs => hi.cycle hstt himp hC hs
  exact ⟨fun a v _ _ _ _ hm => hinv.untainted _ hm, hinv.table⟩

/-! ## A store that meets a load -/

def emptyDep : DepCore := ⟨emptyCore, .empty, []⟩

theorem emptyDep_start : emptyDep.Start := ⟨emptyCore_start, rfl, rfl⟩

def smallStoreSet : StoreSetConfig := ⟨64, 64, 1000⟩

def depAfter (es : List CycleIn) : DepCore :=
  ((depMachine spectreConfig smallStoreSet).run emptyDep es).getD emptyDep

instance (c : Config) (s : DepCore) (i : CycleIn) : Decidable (s.ConflictsUntainted c i) :=
  inferInstanceAs (Decidable (_ = true))

theorem untainted_training_store :
    (depAfter (storeRun 41)).events = [.insertStore, .violation 3 4 0 0 false false] ∧
      StoreSet.empty.replay smallStoreSet (depAfter (storeRun 41)).events =
        some (depAfter (storeRun 41)).storeSet := by
  have hreach : (depMachine spectreConfig smallStoreSet).ReachWhen
      (DepCore.ConflictsUntainted spectreConfig) (depAfter (storeRun 41)) :=
    .run (.start emptyDep_start) (storeRun 41) (by decide +kernel)
      (Machine.run_getD (by decide +kernel))
  exact ⟨by decide +kernel, (untainted_training rfl rfl hreach).2⟩

/-- The predictor learns of a store whose address is what an unfinished load returned. -/
theorem tainted_training :
    ¬ ∀ (c : Config) (p : StoreSetConfig) (s : DepCore), c.stt = true → c.impChannel = true →
      (depMachine c p).Reach s → ∀ store load storePC loadPC storeTainted loadTainted,
        .violation store load storePC loadPC storeTainted loadTainted ∈ s.events →
          storeTainted = false ∧ loadTainted = false := by
  intro h
  have hreach : (depMachine spectreConfig smallStoreSet).Reach (depAfter (storeRun 40)) :=
    Machine.reach_run emptyDep_start (Machine.run_getD (by decide +kernel))
  have hm : .violation 3 4 0 0 true false ∈ (depAfter (storeRun 40)).events := by decide +kernel
  have hno := h spectreConfig smallStoreSet _ rfl rfl hreach _ _ _ _ _ _ hm
  cases hno.1

end SdoCore
