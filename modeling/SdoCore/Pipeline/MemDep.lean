import Mathlib.Logic.Function.Basic
import SdoCore.Lib.Machine

/-! The memory dependence unit (`mem_dep_unit_impl.hh`). Every memory instruction waits in it
until its registers are ready and the store or the barrier it was made dependent on is done.
The unit remembers one barrier for loads and one for stores, each the last one inserted.

* `barriers_order_memory`: an instruction is handed to the instruction queue only when no
  older barrier of its kind is in flight, in every run in which a squash that takes the
  remembered barrier leaves no older one behind
* `barrier_forgotten`: a squash takes the younger of two barriers and the next load passes
  the older one -/

namespace SdoCore

open Lib
open Function (update_of_ne update_self)
open List

/-- The flags of the instruction, and what the unit keeps about it. `barrier` tells the
entries made by `insertBarrier` from the others. Entries are shared pointers: an entry
outlives its place in the hash as long as some `dependInsts` has it. -/
structure MemDepEntry where
  (isLoad isStore isMemBarrier isWriteBarrier barrier regsReady memDepReady squashed : Bool)
  dependInsts : List Nat
deriving DecidableEq

def MemDepEntry.none : MemDepEntry := ⟨false, false, false, false, false, false, false, false, []⟩

/-- An instruction as `insert` gets it: its flags, what `readyToIssue` says, and the answer of
the dependence predictor for its address (`checkInst`, zero for no store). -/
structure MemDepInst where
  seqNum : Nat
  (isLoad isStore isMemBarrier isWriteBarrier readyToIssue : Bool)
  checkInst : Nat

/-- One thread's unit. `instList` and `memDepHash` are filled and emptied together, so the list
is also the list of the keys. `readyInsts` are the calls of `addReadyMemInst` so far and
`lastSeqNum` the last instruction inserted. -/
structure MemDepUnit where
  entries : Nat → MemDepEntry
  instList : List Nat
  loadBarrier : Bool
  loadBarrierSN : Nat
  storeBarrier : Bool
  storeBarrierSN : Nat
  readyInsts : List Nat
  lastSeqNum : Nat

namespace MemDepUnit

def empty : MemDepUnit := ⟨fun _ => .none, [], false, 0, false, 0, [], 0⟩

def setEntry (s : MemDepUnit) (x : Nat) (d : MemDepEntry) : MemDepUnit :=
  { s with entries := Function.update s.entries x d }

def addReadyMemInst (s : MemDepUnit) (x : Nat) : MemDepUnit :=
  { s with readyInsts := s.readyInsts ++ [x] }

/-- `none` is the failed assertion that the entry is not squashed. -/
def moveToReady (s : MemDepUnit) (x : Nat) : Option MemDepUnit :=
  if (s.entries x).squashed then none else some (s.addReadyMemInst x)

/-- A new entry goes to the back of the list and into the hash. -/
def push (s : MemDepUnit) (x : Nat) (d : MemDepEntry) : MemDepUnit :=
  { s.setEntry x d with instList := s.instList ++ [x], lastSeqNum := x }

def newEntry (i : MemDepInst) : MemDepEntry :=
  { MemDepEntry.none with
    isLoad := i.isLoad
    isStore := i.isStore
    isMemBarrier := i.isMemBarrier
    isWriteBarrier := i.isWriteBarrier }

/-- The barriers go before the predictor. -/
def producingStore (s : MemDepUnit) (i : MemDepInst) : Nat :=
  if i.isLoad && s.loadBarrier then s.loadBarrierSN
  else if i.isStore && s.storeBarrier then s.storeBarrierSN
  else i.checkInst

def insert (s : MemDepUnit) (i : MemDepInst) : Option MemDepUnit :=
  let producing := s.producingStore i
  let entry := { newEntry i with regsReady := i.readyToIssue }
  let added := s.push i.seqNum entry
  if i.isLoad || i.isStore then
    if producing ≠ 0 ∧ producing ∈ added.instList then
      let producer := added.entries producing
      some (added.setEntry producing
        { producer with dependInsts := producer.dependInsts ++ [i.seqNum] })
    else
      let waiting := added.setEntry i.seqNum { entry with memDepReady := true }
      if i.readyToIssue then waiting.moveToReady i.seqNum else some waiting
  else none

def insertNonSpec (s : MemDepUnit) (i : MemDepInst) : Option MemDepUnit :=
  if i.isLoad || i.isStore then some (s.push i.seqNum (newEntry i)) else none

def insertBarrier (s : MemDepUnit) (x : Nat) (isMemBarrier isWriteBarrier : Bool) : MemDepUnit :=
  let remembered :=
    if isMemBarrier then
      { s with loadBarrier := true, loadBarrierSN := x, storeBarrier := true, storeBarrierSN := x }
    else if isWriteBarrier then { s with storeBarrier := true, storeBarrierSN := x }
    else s
  remembered.push x
    { MemDepEntry.none with
      isMemBarrier := isMemBarrier
      isWriteBarrier := isWriteBarrier
      barrier := true }

def regsReady (s : MemDepUnit) (x : Nat) : Option MemDepUnit :=
  let marked := s.setEntry x { s.entries x with regsReady := true }
  if x ∈ s.instList then
    if (s.entries x).memDepReady then marked.moveToReady x else some marked
  else none

/-- One turn of the loop of `wakeDependents`. -/
def wake (s : MemDepUnit) (x : Nat) : MemDepUnit :=
  if (s.entries x).regsReady && !(s.entries x).squashed then s.addReadyMemInst x
  else s.setEntry x { s.entries x with memDepReady := true }

def wakeAll (s : MemDepUnit) (x : Nat) : MemDepUnit :=
  let woken := (s.entries x).dependInsts.foldl wake s
  woken.setEntry x { woken.entries x with dependInsts := [] }

/-- Only stores and barriers have dependents. -/
def wakeDependents (s : MemDepUnit) (x : Nat) : Option MemDepUnit :=
  let d := s.entries x
  if d.isStore || d.isMemBarrier || d.isWriteBarrier then
    if x ∈ s.instList then some (s.wakeAll x) else none
  else some s

def completed (s : MemDepUnit) (x : Nat) : Option MemDepUnit :=
  if x ∈ s.instList then some { s with instList := s.instList.erase x } else none

/-- The flags that a barrier clears when it is done. -/
def clearBarrier (s : MemDepUnit) (x : Nat) : MemDepUnit :=
  let d := s.entries x
  { s with
    loadBarrier := s.loadBarrier && !(d.isMemBarrier && s.loadBarrierSN == x)
    storeBarrier := s.storeBarrier &&
      !((d.isMemBarrier || d.isWriteBarrier) && s.storeBarrierSN == x) }

def completeBarrier (s : MemDepUnit) (x : Nat) : Option MemDepUnit :=
  ((s.wakeDependents x).bind (·.completed x)).map (·.clearBarrier x)

def squashInst (s : MemDepUnit) (x : Nat) : MemDepUnit :=
  { s.setEntry x { s.entries x with squashed := true } with
    loadBarrier := s.loadBarrier && x != s.loadBarrierSN
    storeBarrier := s.storeBarrier && x != s.storeBarrierSN
    instList := s.instList.erase x }

/-- From the back of the list down to the first instruction that stays. -/
def squash (s : MemDepUnit) (n : Nat) : MemDepUnit :=
  (s.instList.reverse.takeWhile (fun x => decide (n < x))).foldl squashInst s

/-- `b` is a barrier in flight that loads wait for. -/
def loadBlocker (s : MemDepUnit) (b : Nat) : Bool :=
  decide (b ∈ s.instList) && (s.entries b).barrier && (s.entries b).isMemBarrier

/-- `b` is a barrier in flight that stores wait for. -/
def storeBlocker (s : MemDepUnit) (b : Nat) : Bool :=
  decide (b ∈ s.instList) && (s.entries b).barrier &&
    ((s.entries b).isMemBarrier || (s.entries b).isWriteBarrier)

/-- `b` is an older barrier that is neither completed nor squashed and that instructions of
the kind of `x` must not pass. -/
def blocks (s : MemDepUnit) (b x : Nat) : Bool :=
  decide (b < x) &&
    ((s.entries x).isLoad && s.loadBlocker b || (s.entries x).isStore && s.storeBlocker b)

/-- No barrier in flight is older than `x`. -/
def firstBarrier (s : MemDepUnit) (x : Nat) : Bool :=
  s.instList.all fun b => !(s.entries b).barrier || decide (x ≤ b)

end MemDepUnit

inductive MemDepOp where
  | insert (i : MemDepInst)
  | insertNonSpec (i : MemDepInst)
  | insertBarrier (x : Nat) (isMemBarrier isWriteBarrier : Bool)
  | regsReady (x : Nat)
  | wakeDependents (x : Nat)
  | completed (x : Nat)
  | completeBarrier (x : Nat)
  | squash (n : Nat)

namespace MemDepUnit

/-- Instructions come in increasing order and barriers complete in program order. -/
def allows (s : MemDepUnit) : MemDepOp → Bool
  | .insert i => decide (s.lastSeqNum < i.seqNum)
  | .insertNonSpec i => decide (s.lastSeqNum < i.seqNum)
  | .insertBarrier x _ _ => decide (s.lastSeqNum < x)
  | .completed x => !(s.entries x).barrier || s.firstBarrier x
  | .completeBarrier x => (s.entries x).barrier && s.firstBarrier x
  | .regsReady _ => true
  | .wakeDependents _ => true
  | .squash _ => true

def handle (s : MemDepUnit) : MemDepOp → Option MemDepUnit
  | .insert i => s.insert i
  | .insertNonSpec i => s.insertNonSpec i
  | .insertBarrier x m w => some (s.insertBarrier x m w)
  | .regsReady x => s.regsReady x
  | .wakeDependents x => s.wakeDependents x
  | .completed x => s.completed x
  | .completeBarrier x => s.completeBarrier x
  | .squash n => some (s.squash n)

def step (s : MemDepUnit) (e : MemDepOp) : Option MemDepUnit :=
  if s.allows e then s.handle e else none

end MemDepUnit

def memDepMachine : Machine MemDepUnit MemDepOp where
  start s := s = MemDepUnit.empty
  step := MemDepUnit.step

namespace MemDepUnit

/-- A squash that takes the remembered barrier takes every barrier it stood for. The other two
cases do not come from the instruction queue: it wakes the dependents of a barrier by
`completeBarrier` only, and an instruction that both loads and stores has to find one
barrier for both. -/
def remembers (s : MemDepUnit) : MemDepOp → Bool
  | .squash n =>
    s.instList.all fun b =>
      (!(s.loadBarrier && decide (n < s.loadBarrierSN) && s.loadBlocker b) || decide (n < b)) &&
      (!(s.storeBarrier && decide (n < s.storeBarrierSN) && s.storeBlocker b) || decide (n < b))
  | .wakeDependents x => !(s.entries x).barrier
  | .insert i =>
    !(i.isLoad && i.isStore && s.loadBarrier && s.storeBarrier) ||
      s.loadBarrierSN == s.storeBarrierSN
  | _ => true

/-! ## The invariant -/

/-- The two kinds of instructions that wait for barriers. -/
inductive Side where
  | load
  | store

/-- Whether the unit remembers a barrier for this kind. -/
def remembered (s : MemDepUnit) : Side → Bool
  | .load => s.loadBarrier
  | .store => s.storeBarrier

def rememberedSN (s : MemDepUnit) : Side → Nat
  | .load => s.loadBarrierSN
  | .store => s.storeBarrierSN

def blocker (s : MemDepUnit) : Side → Nat → Bool
  | .load => s.loadBlocker
  | .store => s.storeBlocker

end MemDepUnit

namespace MemDepEntry

open MemDepUnit

def waitsOn (d : MemDepEntry) : Side → Bool
  | .load => d.isLoad
  | .store => d.isStore

def stops (d : MemDepEntry) : Side → Bool
  | .load => d.isMemBarrier
  | .store => d.isMemBarrier || d.isWriteBarrier

/-- What an entry is made with and keeps. -/
def kind (d : MemDepEntry) : MemDepEntry :=
  { d with regsReady := false, memDepReady := false, squashed := false, dependInsts := [] }

end MemDepEntry

namespace MemDepUnit

/-- The remembered barrier is in flight and is the youngest of those it stands for. -/
def Covers (s : MemDepUnit) (k : Side) (b : Nat) : Prop :=
  s.remembered k = true ∧ b ≤ s.rememberedSN k ∧ s.rememberedSN k ∈ s.instList ∧
    (s.entries (s.rememberedSN k)).barrier = true

/-- `waits` carries the proof: whatever an older barrier still blocks is not ready, and only
barriers at least as young as that one can wake it. -/
structure Core (s : MemDepUnit) : Prop where
  sorted : s.instList.Pairwise (· < ·)
  bounded : ∀ x ∈ s.instList, 0 < x ∧ x ≤ s.lastSeqNum
  fresh : ∀ x, s.lastSeqNum < x → s.entries x = .none
  deps : ∀ p, ∀ x ∈ (s.entries p).dependInsts, x ≤ s.lastSeqNum
  waits : ∀ b x, s.blocks b x = true → (s.entries x).memDepReady = false ∧
    ∀ p, x ∈ (s.entries p).dependInsts → (s.entries p).barrier = true ∧ b ≤ p

structure Inv (s : MemDepUnit) : Prop extends Core s where
  covers : ∀ k b, s.blocker k b = true → s.Covers k b

/-- What a step released is free to go. -/
def Released (s t : MemDepUnit) : Prop :=
  ∃ handed, t.readyInsts = s.readyInsts ++ handed ∧ ∀ x ∈ handed, ∀ b, t.blocks b x = false

variable {s t u : MemDepUnit} {b x y n : Nat} {k : Side} {d : MemDepEntry} {gone ds : List Nat}
  {i : MemDepInst}

theorem Released.of_eq (h : t.readyInsts = s.readyInsts) : Released s t :=
  ⟨[], by rw [h, append_nil], nofun⟩

theorem blocker_iff : s.blocker k b ↔
    b ∈ s.instList ∧ (s.entries b).barrier ∧ (s.entries b).stops k := by
  cases k with
  | load =>
    simp only [blocker, loadBlocker, MemDepEntry.stops, Bool.and_eq_true, decide_eq_true_eq,
      and_assoc]
  | store =>
    simp only [blocker, storeBlocker, MemDepEntry.stops, Bool.and_eq_true, decide_eq_true_eq,
      and_assoc]

theorem blocks_iff : s.blocks b x ↔
    b < x ∧ ∃ k, (s.entries x).waitsOn k ∧ s.blocker k b := by
  simp only [blocks, Bool.and_eq_true, Bool.or_eq_true, decide_eq_true_eq]
  refine and_congr_right fun _ => ⟨?_, ?_⟩
  · rintro (h | h)
    · exact ⟨.load, h⟩
    · exact ⟨.store, h⟩
  · rintro ⟨k, h⟩
    cases k with
    | load => exact .inl h
    | store => exact .inr h

theorem blocks_inFlight (h : s.blocks b x) : b ∈ s.instList ∧ (s.entries b).barrier := by
  obtain ⟨-, k, -, hb⟩ := blocks_iff.mp h
  obtain ⟨hmem, hbar, -⟩ := blocker_iff.mp hb
  exact ⟨hmem, hbar⟩

theorem empty_inv : Inv empty where
  sorted := .nil
  bounded := nofun
  fresh _ _ := rfl
  deps := nofun
  waits _ _ h := nomatch (blocks_inFlight h).1
  covers _ _ h := nomatch (blocker_iff.mp h).1

/-- One entry changes, but not in the field `f`. -/
theorem setEntry_field {β : Type} (f : MemDepEntry → β) (hf : f d = f (s.entries x)) (y : Nat) :
    f ((s.setEntry x d).entries y) = f (s.entries y) := by
  rcases eq_or_ne y x with rfl | hne
  · simp only [setEntry, update_self]
    exact hf
  · simp only [setEntry, update_of_ne hne]

theorem Core.le_last (h : Core s) (hx : x ∈ s.instList) : x ≤ s.lastSeqNum := (h.bounded x hx).2

theorem Core.nodup (h : Core s) : s.instList.Nodup := h.sorted.imp Nat.ne_of_lt

/-! ## Steps that insert nothing -/

/-- `t` has the instructions of `s`, maybe fewer of them in the list, with the same flags. -/
structure Quiet (s t : MemDepUnit) : Prop where
  insts : t.instList.Sublist s.instList
  last : t.lastSeqNum = s.lastSeqNum
  kind : ∀ x, (t.entries x).kind = (s.entries x).kind
  fresh : ∀ x, s.lastSeqNum < x → t.entries x = s.entries x

namespace Quiet

theorem of_entries (he : t.entries = s.entries) (hl : t.instList.Sublist s.instList)
    (hlast : t.lastSeqNum = s.lastSeqNum) : Quiet s t :=
  ⟨hl, hlast, fun x => by rw [he], fun x _ => congrFun he x⟩

theorem trans (h : Quiet s t) (h' : Quiet t u) : Quiet s u where
  insts := h'.insts.trans h.insts
  last := h'.last.trans h.last
  kind x := (h'.kind x).trans (h.kind x)
  fresh x hx := (h'.fresh x (by rw [h.last]; exact hx)).trans (h.fresh x hx)

/-- One entry changes, and only in its flags of readiness and its dependents. -/
theorem setEntry (hx : x ≤ s.lastSeqNum) (hd : d.kind = (s.entries x).kind) :
    Quiet s (s.setEntry x d) := by
  refine ⟨.refl _, rfl, setEntry_field MemDepEntry.kind hd, fun y hy => ?_⟩
  exact update_of_ne (by omega) _ _

theorem barrier (h : Quiet s t) (x : Nat) : (t.entries x).barrier = (s.entries x).barrier :=
  (congrArg MemDepEntry.barrier (h.kind x) :)

theorem blocker (h : Quiet s t) (hb : t.blocker k b) : s.blocker k b := by
  have hstops : (t.entries b).stops k = (s.entries b).stops k :=
    (congrArg (MemDepEntry.stops · k) (h.kind b) :)
  rw [blocker_iff, h.barrier, hstops] at hb
  exact blocker_iff.mpr ⟨h.insts.subset hb.1, hb.2⟩

theorem blocks (h : Quiet s t) (hb : t.blocks b x) : s.blocks b x := by
  obtain ⟨hlt, k, hk, hb⟩ := blocks_iff.mp hb
  have hwaits : (t.entries x).waitsOn k = (s.entries x).waitsOn k :=
    (congrArg (MemDepEntry.waitsOn · k) (h.kind x) :)
  exact blocks_iff.mpr ⟨hlt, k, hwaits.symm.trans hk, h.blocker hb⟩

/-- Whatever becomes ready is free to go, and whoever gets a new dependent covers the barriers
that block it. -/
theorem core (h : Quiet s t) (hc : Core s) (hr : ∀ x, (t.entries x).memDepReady →
      (s.entries x).memDepReady ∨ ∀ b, t.blocks b x = false)
    (hd : ∀ p, ∀ x ∈ (t.entries p).dependInsts, x ∈ (s.entries p).dependInsts ∨
      x ≤ s.lastSeqNum ∧ ∀ b, s.blocks b x → (s.entries p).barrier ∧ b ≤ p) :
    Core t where
  sorted := hc.sorted.sublist h.insts
  bounded x hx := by
    rw [h.last]
    exact hc.bounded x (h.insts.subset hx)
  fresh x hx := by
    rw [h.last] at hx
    rw [h.fresh x hx, hc.fresh x hx]
  deps p x hx := by
    rw [h.last]
    exact (hd p x hx).elim (hc.deps p x) And.left
  waits b x hb := by
    obtain ⟨hready, hdeps⟩ := hc.waits b x (h.blocks hb)
    refine ⟨?_, fun p hp => ?_⟩
    · by_contra hne
      rw [Bool.not_eq_false] at hne
      rcases hr x hne with hr | hr
      · rw [hready] at hr
        cases hr
      · rw [hr b] at hb
        cases hb
    · rw [h.barrier]
      exact (hd p x hp).elim (hdeps p) fun hp => hp.2 b (h.blocks hb)

end Quiet

/-- `t` is `s` after the instructions `gone` left the list and the dependents `ds` were woken:
whatever became ready or was handed over is one of them. A barrier is not forgotten as long as it
is in the list. -/
structure Settled (s t : MemDepUnit) (gone ds : List Nat) : Prop where
  quiet : Quiet s t
  insts : ∀ y, y ∈ t.instList ↔ y ∈ s.instList ∧ y ∉ gone
  remembered : ∀ k, s.rememberedSN k ∈ t.instList → t.remembered k = s.remembered k
  rememberedSN : ∀ k, t.rememberedSN k = s.rememberedSN k
  deps : ∀ p, (t.entries p).dependInsts ⊆ (s.entries p).dependInsts
  ready : ∀ x, (t.entries x).memDepReady = true → (s.entries x).memDepReady = true ∨ x ∈ ds
  handed : ∃ new, t.readyInsts = s.readyInsts ++ new ∧ ∀ x ∈ new, x ∈ ds

namespace Settled

theorem refl (s : MemDepUnit) : Settled s s [] [] :=
  ⟨.of_entries rfl (.refl _) rfl, by simp, fun _ _ => rfl, fun _ => rfl,
    fun _ => List.Subset.refl _,
    fun _ => .inl, [], (append_nil _).symm, nofun⟩

theorem trans {gone' ds' : List Nat} (h : Settled s t gone ds) (h' : Settled t u gone' ds') :
    Settled s u (gone ++ gone') (ds ++ ds') where
  quiet := h.quiet.trans h'.quiet
  insts y := by rw [h'.insts, h.insts, mem_append, not_or, and_assoc]
  remembered k hk := by
    rw [h'.remembered k (by rw [h.rememberedSN]; exact hk)]
    exact h.remembered k (h'.quiet.insts.subset hk)
  rememberedSN k := (h'.rememberedSN k).trans (h.rememberedSN k)
  deps p := List.Subset.trans (h'.deps p) (h.deps p)
  ready x hx := by
    rw [mem_append, ← or_assoc]
    exact (h'.ready x hx).imp_left (h.ready x)
  handed := by
    obtain ⟨new, hnew, hmem⟩ := h.handed
    obtain ⟨new', hnew', hmem'⟩ := h'.handed
    refine ⟨new ++ new', by rw [hnew', hnew, append_assoc], fun x hx => ?_⟩
    exact mem_append.mpr ((mem_append.mp hx).imp (hmem x) (hmem' x))

/-- One entry changes, not in its kind, and gets no dependents. -/
theorem setEntry (hx : x ≤ s.lastSeqNum) (hd : d.kind = (s.entries x).kind)
    (hdeps : d.dependInsts ⊆ (s.entries x).dependInsts)
    (hready : d.memDepReady → (s.entries x).memDepReady ∨ x ∈ ds) :
    Settled s (s.setEntry x d) [] ds := by
  refine ⟨.setEntry hx hd, fun y => (and_iff_left not_mem_nil).symm, fun k _ => ?_, fun k => ?_,
    fun p => ?_, fun y hy => ?_, [], (append_nil _).symm, nofun⟩
  · cases k <;> rfl
  · cases k <;> rfl
  · rcases eq_or_ne p x with rfl | hne
    · simp only [MemDepUnit.setEntry, update_self]
      exact hdeps
    · simp only [MemDepUnit.setEntry, update_of_ne hne, List.Subset.refl]
  · rcases eq_or_ne y x with rfl | hne
    · simp only [MemDepUnit.setEntry, update_self] at hy
      exact hready hy
    · simp only [MemDepUnit.setEntry, update_of_ne hne] at hy
      exact .inl hy

theorem addReadyMemInst (s : MemDepUnit) (x : Nat) : Settled s (s.addReadyMemInst x) [] [x] where
  quiet := .of_entries rfl (.refl _) rfl
  insts y := (and_iff_left not_mem_nil).symm
  remembered k _ := by cases k <;> rfl
  rememberedSN k := by cases k <;> rfl
  deps p := List.Subset.refl _
  ready y := .inl
  handed := ⟨[x], rfl, fun y => id⟩

/-- Barriers stay covered when a remembered one goes only with those it stands for. -/
theorem inv (h : Settled s t gone ds) (hi : Inv s)
    (hsn : ∀ k b, s.blocker k b → b ∉ gone → s.Covers k b → s.rememberedSN k ∉ gone)
    (hfree : ∀ y ∈ ds, ∀ b, t.blocks b y = false) : Inv t ∧ Released s t := by
  refine ⟨⟨h.quiet.core hi.toCore (fun y hy => (h.ready y hy).imp_right (hfree y))
    fun p y hy => .inl (h.deps p hy), fun k b hb => ?_⟩, ?_⟩
  · have hs := h.quiet.blocker hb
    have hcov := hi.covers k b hs
    have hstays := hsn k b hs ((h.insts b).mp (blocker_iff.mp hb).1).2 hcov
    obtain ⟨hset, hle, hin, hbar⟩ := hcov
    have hin' : s.rememberedSN k ∈ t.instList := (h.insts _).mpr ⟨hin, hstays⟩
    rw [Covers, h.rememberedSN, h.remembered k hin', h.quiet.barrier]
    exact ⟨hset, hle, hin', hbar⟩
  · obtain ⟨new, hnew, hmem⟩ := h.handed
    exact ⟨new, hnew, fun y hy => hfree y (hmem y hy)⟩

end Settled

/-! ## Waking and completing -/

theorem wake_settled (hx : x ≤ s.lastSeqNum) : Settled s (s.wake x) [] [x] := by
  unfold wake
  split
  · exact .addReadyMemInst s x
  · exact .setEntry hx rfl (List.Subset.refl _) fun _ => .inr mem_cons_self

theorem foldl_wake_settled (l : List Nat) (hl : ∀ x ∈ l, x ≤ s.lastSeqNum) :
    Settled s (l.foldl wake s) [] l := by
  induction l generalizing s with
  | nil => exact .refl s
  | cons x l ih =>
    have hx := wake_settled (hl x mem_cons_self)
    refine hx.trans (ih fun y hy => ?_)
    rw [hx.quiet.last]
    exact hl y (mem_cons_of_mem _ hy)

theorem wakeAll_settled (h : Core s) (hx : x ∈ s.instList) :
    Settled s (s.wakeAll x) [] (s.entries x).dependInsts := by
  have hw := foldl_wake_settled _ (h.deps x)
  have hlast : x ≤ ((s.entries x).dependInsts.foldl wake s).lastSeqNum := by
    rw [hw.quiet.last]
    exact h.le_last hx
  have hclear : Settled s (s.wakeAll x) [] ((s.entries x).dependInsts ++ []) :=
    hw.trans (.setEntry hlast rfl (nil_subset _) .inl)
  rwa [append_nil] at hclear

/-- The dependents are woken, or the instruction has none. -/
theorem wakeDependents_settled (h : Core s) (ht : s.wakeDependents x = some t) :
    ∃ ds ⊆ (s.entries x).dependInsts, Settled s t [] ds := by
  unfold wakeDependents at ht
  dsimp only at ht
  split at ht
  · split at ht
    · rename_i hx
      cases ht
      exact ⟨_, List.Subset.refl _, wakeAll_settled h hx⟩
    · cases ht
  · cases ht
    exact ⟨[], nil_subset _, .refl s⟩

theorem firstBarrier_le (h : s.firstBarrier x) (hb : b ∈ s.instList)
    (hbar : (s.entries b).barrier) : x ≤ b := by
  have hfirst := all_eq_true.mp h b hb
  simpa [hbar] using hfirst

/-- The dependents of a store wait for no barrier. -/
theorem wakeDependents_inv (h : Inv s) (hx : (s.entries x).barrier = false)
    (ht : s.wakeDependents x = some t) : Inv t ∧ Released s t := by
  obtain ⟨ds, hds, hw⟩ := wakeDependents_settled h.toCore ht
  refine hw.inv h (fun _ _ _ _ _ => not_mem_nil) fun y hy b => ?_
  by_contra hb
  rw [Bool.not_eq_false] at hb
  have hbar := ((h.waits b y (hw.quiet.blocks hb)).2 x (hds hy)).1
  rw [hx] at hbar
  cases hbar

theorem completed_settled (hn : s.instList.Nodup) (ht : s.completed x = some t) :
    Settled s t [x] [] := by
  unfold completed at ht
  split at ht
  · cases ht
    refine ⟨.of_entries rfl erase_sublist rfl, fun y => ?_, fun k _ => ?_, fun k => ?_,
      fun _ => List.Subset.refl _, fun _ => .inl, [], (append_nil _).symm, nofun⟩
    · rw [hn.mem_erase_iff, mem_singleton, and_comm]
    · cases k <;> rfl
    · cases k <;> rfl
  · cases ht

/-- Only the flags of barriers that are not in the list any more are cleared. -/
theorem clearBarrier_settled (hx : x ∉ s.instList) : Settled s (s.clearBarrier x) [] [] := by
  refine ⟨.of_entries rfl (.refl _) rfl, fun y => (and_iff_left not_mem_nil).symm, fun k hk => ?_,
    fun k => ?_, fun _ => List.Subset.refl _, fun _ => .inl, [], (append_nil _).symm, nofun⟩
  · have hne : s.rememberedSN k ≠ x := fun h => hx (h ▸ hk)
    cases k with
    | load => simp [clearBarrier, remembered, show s.loadBarrierSN ≠ x from hne]
    | store => simp [clearBarrier, remembered, show s.storeBarrierSN ≠ x from hne]
  · cases k <;> rfl

theorem completeBarrier_settled (h : Core s) (ht : s.completeBarrier x = some t) :
    ∃ ds ⊆ (s.entries x).dependInsts, Settled s t [x] ds := by
  obtain ⟨v, hv, rfl⟩ := Option.map_eq_some_iff.mp ht
  obtain ⟨w, hwd, hv⟩ := Option.bind_eq_some_iff.mp hv
  obtain ⟨ds, hds, hw⟩ := wakeDependents_settled h hwd
  have hv := completed_settled (h.nodup.sublist hw.quiet.insts) hv
  have hx : x ∉ v.instList := fun hx => ((hv.insts x).mp hx).2 mem_cons_self
  have hclear := hw.trans (hv.trans (clearBarrier_settled hx))
  simp only [append_nil, nil_append] at hclear
  exact ⟨ds, hds, hclear⟩

/-- The barriers complete oldest first, so the remembered one is not the one that completes as
long as it stands for another. -/
theorem rememberedSN_ne (hx : (s.entries x).barrier = false ∨ s.firstBarrier x)
    (hb : s.blocker k b) (hne : b ∉ [x]) (hcov : s.Covers k b) : s.rememberedSN k ∉ [x] := by
  rw [mem_singleton] at hne ⊢
  obtain ⟨-, hle, -, hbar⟩ := hcov
  intro heq
  rw [heq] at hle hbar
  obtain ⟨hmem, hbar', -⟩ := blocker_iff.mp hb
  rcases hx with hx | hx
  · rw [hx] at hbar
    cases hbar
  · have hge := firstBarrier_le hx hmem hbar'
    omega

/-- The dependents of a barrier wait for no other barrier once all the older ones are done. -/
theorem completeBarrier_inv (h : Inv s) (hfirst : s.firstBarrier x)
    (ht : s.completeBarrier x = some t) : Inv t ∧ Released s t := by
  obtain ⟨ds, hds, hf⟩ := completeBarrier_settled h.toCore ht
  refine hf.inv h (fun k b => rememberedSN_ne (.inr hfirst)) fun y hy b => ?_
  by_contra hb
  rw [Bool.not_eq_false] at hb
  have hle := ((h.waits b y (hf.quiet.blocks hb)).2 x (hds hy)).2
  obtain ⟨hmem, hne⟩ := (hf.insts b).mp (blocks_inFlight hb).1
  have hge := firstBarrier_le hfirst hmem (blocks_inFlight (hf.quiet.blocks hb)).2
  rw [mem_singleton] at hne
  omega

theorem regsReady_inv (h : Inv s) (ht : s.regsReady x = some t) : Inv t ∧ Released s t := by
  unfold regsReady at ht
  dsimp only at ht
  split at ht
  case isFalse => cases ht
  rename_i hx
  have hmark : Settled s (s.setEntry x { s.entries x with regsReady := true }) [] [] :=
    .setEntry (h.le_last hx) rfl (List.Subset.refl _) .inl
  split at ht
  · rename_i hm
    unfold moveToReady at ht
    split at ht
    · cases ht
    · cases ht
      have hmove := hmark.trans (.addReadyMemInst _ x)
      refine hmove.inv h (fun _ _ _ _ _ => not_mem_nil) fun y hy b => ?_
      obtain rfl := mem_singleton.mp hy
      by_contra hb
      rw [Bool.not_eq_false] at hb
      have hnot := (h.waits b y (hmove.quiet.blocks hb)).1
      rw [hm] at hnot
      cases hnot
  · cases ht
    exact hmark.inv h (fun _ _ _ _ _ => not_mem_nil) nofun

/-! ## Insertion -/

theorem push_entries_of_ne (hy : y ≠ x) : (s.push x d).entries y = s.entries y :=
  update_of_ne hy _ _

@[simp] theorem push_entries_self : (s.push x d).entries x = d := update_self _ _ _

theorem mem_push : y ∈ (s.push x d).instList ↔ y ∈ s.instList ∨ y = x := by
  simp [push, setEntry]

theorem push_blocker_of_ne (hb : b ≠ x) : (s.push x d).blocker k b = s.blocker k b := by
  rw [Bool.eq_iff_iff, blocker_iff, blocker_iff, mem_push, push_entries_of_ne hb, or_iff_left hb]

/-- What blocks the new instruction was in flight before it. -/
theorem push_blocks_self (h : (s.push x d).blocks b x) :
    ∃ k, d.waitsOn k ∧ s.blocker k b := by
  obtain ⟨hlt, k, hk, hb⟩ := blocks_iff.mp h
  rw [push_entries_self] at hk
  rw [push_blocker_of_ne (Nat.ne_of_lt hlt)] at hb
  exact ⟨k, hk, hb⟩

theorem push_core (h : Core s) (hx : s.lastSeqNum < x) (hd : d.dependInsts = [])
    (hready : d.memDepReady = false ∨ ∀ b, (s.push x d).blocks b x = false) :
    Core (s.push x d) where
  sorted := by
    refine pairwise_append.mpr ⟨h.sorted, pairwise_singleton _ _, fun a ha b hb => ?_⟩
    rw [mem_singleton.mp hb]
    exact Nat.lt_of_le_of_lt (h.le_last ha) hx
  bounded y hy := by
    show 0 < y ∧ y ≤ x
    rcases mem_push.mp hy with hy | rfl
    · have hb := h.bounded y hy
      omega
    · omega
  fresh y hy := by
    have hy : x < y := hy
    rw [push_entries_of_ne (Nat.ne_of_gt hy)]
    exact h.fresh y (Nat.lt_trans hx hy)
  deps p y hy := by
    show y ≤ x
    rcases eq_or_ne p x with rfl | hp
    · rw [push_entries_self, hd] at hy
      cases hy
    · rw [push_entries_of_ne hp] at hy
      exact Nat.le_of_lt (Nat.lt_of_le_of_lt (h.deps p y hy) hx)
  waits b y hb := by
    rcases eq_or_ne y x with rfl | hy
    · -- nothing depends on the new instruction yet
      rw [push_entries_self]
      refine ⟨hready.resolve_right fun hr => ?_, fun p hp => ?_⟩
      · rw [hr b] at hb
        cases hb
      rcases eq_or_ne p y with rfl | hpy
      · rw [push_entries_self, hd] at hp
        cases hp
      rw [push_entries_of_ne hpy] at hp
      have hle := h.deps p y hp
      omega
    · rw [push_entries_of_ne hy]
      obtain ⟨hlt, k, hk, hb⟩ := blocks_iff.mp hb
      rw [push_entries_of_ne hy] at hk
      have hle : y ≤ s.lastSeqNum := by
        by_contra hgt
        rw [h.fresh y (Nat.lt_of_not_le hgt)] at hk
        cases k <;> cases hk
      rw [push_blocker_of_ne (by omega)] at hb
      obtain ⟨hready, hdeps⟩ := h.waits b y (blocks_iff.mpr ⟨hlt, k, hk, hb⟩)
      refine ⟨hready, fun p hp => ?_⟩
      rcases eq_or_ne p x with rfl | hpx
      · rw [push_entries_self, hd] at hp
        cases hp
      · rw [push_entries_of_ne hpx] at hp ⊢
        exact hdeps p hp

theorem push_covers (h : Core s) (hx : s.lastSeqNum < x) (hb : s.Covers k b) :
    (s.push x d).Covers k b := by
  obtain ⟨hset, hle, hsn, hbar⟩ := hb
  have hlast := h.le_last hsn
  have heq : (s.push x d).rememberedSN k = s.rememberedSN k := by cases k <;> rfl
  rw [Covers, heq, push_entries_of_ne (by omega), mem_push]
  refine ⟨?_, hle, .inl hsn, hbar⟩
  cases k <;> exact hset

/-- An instruction that is no barrier of the kind changes nothing about those that are. -/
theorem push_covers_of_not (h : Core s) (hc : ∀ b, s.blocker k b → s.Covers k b)
    (hx : s.lastSeqNum < x) (hd : d.barrier → d.stops k = false)
    (hb : (s.push x d).blocker k b) : (s.push x d).Covers k b := by
  rcases eq_or_ne b x with rfl | hne
  · obtain ⟨-, hbar, hstops⟩ := blocker_iff.mp hb
    rw [push_entries_self] at hbar hstops
    rw [hd hbar] at hstops
    cases hstops
  · rw [push_blocker_of_ne hne] at hb
    exact push_covers h hx (hc b hb)

theorem push_inv (h : Inv s) (hx : s.lastSeqNum < x) (hd : d.dependInsts = [])
    (hbar : d.barrier = false)
    (hready : d.memDepReady = false ∨ ∀ b, (s.push x d).blocks b x = false) :
    Inv (s.push x d) := by
  refine ⟨push_core h.toCore hx hd hready, fun k b hb => ?_⟩
  refine push_covers_of_not h.toCore (h.covers k) hx (fun hd => ?_) hb
  rw [hbar] at hd
  cases hd

/-- The producer an instruction is made dependent on is at least as young as every barrier
that blocks it. -/
theorem producingStore_covers (h : Inv s) (hC : s.remembers (.insert i))
    (hk : (newEntry i).waitsOn k) (hb : s.blocker k b) :
    b ≤ s.producingStore i ∧ s.producingStore i ∈ s.instList ∧
      (s.entries (s.producingStore i)).barrier := by
  obtain ⟨hset, hcov⟩ := h.covers k b hb
  have hp : s.producingStore i = s.rememberedSN k := by
    cases k with
    | load =>
      have hl : i.isLoad = true ∧ s.loadBarrier = true := ⟨hk, hset⟩
      simp [producingStore, rememberedSN, hl]
    | store =>
      have hs : i.isStore = true ∧ s.storeBarrier = true := ⟨hk, hset⟩
      by_cases hl : i.isLoad = true ∧ s.loadBarrier = true
      · have heq : s.loadBarrierSN = s.storeBarrierSN := by
          simpa [remembers, hl, hs] using hC
        simp [producingStore, rememberedSN, hl, heq]
      · have hl : (i.isLoad && s.loadBarrier) = false := by simpa using hl
        simp [producingStore, rememberedSN, hl, hs]
  rw [hp]
  exact hcov

/-- The new instruction joins the dependents of a producer. -/
theorem addDependent_inv {p : Nat} (h : Inv s) (hx : x ≤ s.lastSeqNum) (hp : p ∈ s.instList)
    (hcov : ∀ b, s.blocks b x → (s.entries p).barrier ∧ b ≤ p) :
    Inv (s.setEntry p { s.entries p with dependInsts := (s.entries p).dependInsts ++ [x] }) := by
  have hq : Quiet s (s.setEntry p
      { s.entries p with dependInsts := (s.entries p).dependInsts ++ [x] }) :=
    .setEntry (h.le_last hp) rfl
  refine ⟨hq.core h.toCore (fun y hy => .inl ?_) (fun q y hy => ?_), fun k b hb => ?_⟩
  · rw [setEntry_field (s := s) MemDepEntry.memDepReady (by rfl) y] at hy
    exact hy
  · rcases eq_or_ne q p with rfl | hne
    · simp only [setEntry, update_self, mem_append, mem_singleton] at hy
      rcases hy with hy | rfl
      · exact .inl hy
      · exact .inr ⟨hx, hcov⟩
    · simp only [setEntry, update_of_ne hne] at hy
      exact .inl hy
  · obtain ⟨hset, hle, hsn, hbar⟩ := h.covers k b (hq.blocker hb)
    rw [← hq.barrier] at hbar
    cases k <;> exact ⟨hset, hle, hsn, hbar⟩

theorem insertNonSpec_inv (h : Inv s) (hlast : s.lastSeqNum < i.seqNum)
    (ht : s.insertNonSpec i = some t) : Inv t ∧ Released s t := by
  unfold insertNonSpec at ht
  split at ht
  · cases ht
    exact ⟨push_inv h hlast rfl rfl (.inl rfl), .of_eq rfl⟩
  · cases ht

/-- An instruction without a producer is blocked by no barrier. -/
theorem insert_inv (h : Inv s) (hlast : s.lastSeqNum < i.seqNum)
    (hC : s.remembers (.insert i)) (ht : s.insert i = some t) : Inv t ∧ Released s t := by
  unfold insert at ht
  dsimp only at ht
  split at ht
  case isFalse => cases ht
  split at ht
  · -- made dependent on the producer
    rename_i hp
    cases ht
    have hinv : Inv (s.push i.seqNum { newEntry i with regsReady := i.readyToIssue }) :=
      push_inv h hlast rfl rfl (.inl rfl)
    refine ⟨addDependent_inv hinv (Nat.le_refl _) hp.2 fun b hb => ?_, .of_eq rfl⟩
    obtain ⟨k, hk, hb⟩ := push_blocks_self hb
    obtain ⟨hle, hmem, hbar⟩ := producingStore_covers h hC (by cases k <;> exact hk) hb
    have hne : s.producingStore i ≠ i.seqNum := by
      have hle := h.le_last hmem
      omega
    rw [push_entries_of_ne hne]
    exact ⟨hbar, hle⟩
  · -- no producer in flight
    rename_i hp
    have heq : (s.push i.seqNum { newEntry i with regsReady := i.readyToIssue }).setEntry i.seqNum
        { newEntry i with regsReady := i.readyToIssue, memDepReady := true } =
        s.push i.seqNum { newEntry i with regsReady := i.readyToIssue, memDepReady := true } := by
      simp only [push, setEntry, Function.update_idem]
    have hfree : ∀ b, (s.push i.seqNum
        { newEntry i with regsReady := i.readyToIssue, memDepReady := true }).blocks b i.seqNum
          = false := by
      intro b
      by_contra hb
      rw [Bool.not_eq_false] at hb
      obtain ⟨k, hk, hb⟩ := push_blocks_self hb
      obtain ⟨-, hmem, -⟩ := producingStore_covers h hC (by cases k <;> exact hk) hb
      exact hp ⟨Nat.ne_of_gt (h.bounded _ hmem).1, mem_push.mpr (.inl hmem)⟩
    have hinv := push_inv h hlast rfl rfl (.inr hfree)
    rw [heq] at ht
    split at ht
    · unfold moveToReady at ht
      split at ht
      · cases ht
      · cases ht
        refine (Settled.addReadyMemInst _ _).inv hinv
          (fun _ _ _ _ _ => not_mem_nil) fun y hy b => ?_
        rw [mem_singleton.mp hy]
        exact hfree b
    · cases ht
      exact ⟨hinv, .of_eq rfl⟩

/-- A new barrier stands for all the barriers before it. -/
theorem push_covers_self (h : Core s) (hlast : s.lastSeqNum < x) (hd : d.barrier)
    (hset : s.remembered k) (hsn : s.rememberedSN k = x) (hb : b ∈ (s.push x d).instList) :
    (s.push x d).Covers k b := by
  have heq : (s.push x d).rememberedSN k = x := by cases k <;> exact hsn
  rw [Covers, heq, push_entries_self]
  refine ⟨by cases k <;> exact hset, ?_, mem_push.mpr (.inr rfl), hd⟩
  rcases mem_push.mp hb with hb | rfl
  · exact Nat.le_of_lt (Nat.lt_of_le_of_lt (h.le_last hb) hlast)
  · exact Nat.le_refl _

theorem insertBarrier_inv {m w : Bool} (h : Inv s) (hlast : s.lastSeqNum < x) :
    Inv (s.insertBarrier x m w) := by
  have hc : Core s := h.toCore
  cases m with
  | true =>
    have hu : Core { s with
        loadBarrier := true, loadBarrierSN := x, storeBarrier := true, storeBarrierSN := x } :=
      { hc with }
    refine ⟨push_core hu hlast rfl (.inl rfl), fun k b hb => ?_⟩
    have hmem := (blocker_iff.mp hb).1
    cases k with
    | load => exact push_covers_self hu hlast rfl rfl rfl hmem
    | store => exact push_covers_self hu hlast rfl rfl rfl hmem
  | false =>
    cases w with
    | true =>
      have hu : Core { s with storeBarrier := true, storeBarrierSN := x } :=
        { hc with }
      refine ⟨push_core hu hlast rfl (.inl rfl), fun k b hb => ?_⟩
      cases k with
      -- a write barrier does not block loads
      | load => exact push_covers_of_not (k := .load) hu (h.covers .load) hlast (fun _ => rfl) hb
      | store => exact push_covers_self hu hlast rfl rfl rfl (blocker_iff.mp hb).1
    | false =>
      refine ⟨push_core hc hlast rfl (.inl rfl), fun k b hb => ?_⟩
      exact push_covers_of_not hc (h.covers k) hlast (fun _ => by cases k <;> rfl) hb

theorem insertBarrier_readyInsts (s : MemDepUnit) (x : Nat) (m w : Bool) :
    (s.insertBarrier x m w).readyInsts = s.readyInsts := by
  cases m <;> cases w <;> rfl

/-! ## Squashes -/

theorem squashInst_settled (hn : s.instList.Nodup) (hx : x ≤ s.lastSeqNum) :
    Settled s (s.squashInst x) [x] [] := by
  have hmark : Settled s (s.setEntry x { s.entries x with squashed := true }) [] [] :=
    .setEntry hx rfl (List.Subset.refl _) .inl
  refine ⟨hmark.quiet.trans (.of_entries rfl erase_sublist rfl), fun y => ?_, fun k hk => ?_,
    fun k => ?_, hmark.deps, hmark.ready, hmark.handed⟩
  · show y ∈ s.instList.erase x ↔ _
    rw [hn.mem_erase_iff, mem_singleton, and_comm]
  · have hne : x ≠ s.rememberedSN k := (hn.mem_erase_iff.mp hk).1.symm
    cases k with
    | load => simp [squashInst, remembered, show x ≠ s.loadBarrierSN from hne]
    | store => simp [squashInst, remembered, show x ≠ s.storeBarrierSN from hne]
  · cases k <;> rfl

theorem foldl_squashInst_settled (l : List Nat) (hn : s.instList.Nodup)
    (hl : ∀ x ∈ l, x ≤ s.lastSeqNum) : Settled s (l.foldl squashInst s) l [] := by
  induction l generalizing s with
  | nil => exact .refl s
  | cons x l ih =>
    have hx := squashInst_settled hn (hl x mem_cons_self)
    refine hx.trans (ih (hn.sublist hx.quiet.insts) fun y hy => ?_)
    exact hl y (mem_cons_of_mem _ hy)

/-- From the back of a sorted list the loop takes just the instructions above the bound. -/
theorem mem_takeWhile_of_pairwise_gt {l : List Nat} (hl : l.Pairwise (· > ·)) :
    y ∈ l.takeWhile (fun x => decide (n < x)) ↔ y ∈ l ∧ n < y := by
  induction l with
  | nil => simp
  | cons x l ih =>
    obtain ⟨hx, hl⟩ := pairwise_cons.mp hl
    by_cases hn : n < x
    · rw [takeWhile_cons_of_pos (by simpa using hn), mem_cons, mem_cons, ih hl]
      constructor
      · rintro (rfl | ⟨hy, hlt⟩)
        · exact ⟨.inl rfl, hn⟩
        · exact ⟨.inr hy, hlt⟩
      · rintro ⟨rfl | hy, hlt⟩
        · exact .inl rfl
        · exact .inr ⟨hy, hlt⟩
    · rw [takeWhile_cons_of_neg (by simpa using hn)]
      refine ⟨nofun, ?_⟩
      rintro ⟨hy, hlt⟩
      rcases mem_cons.mp hy with rfl | hy
      · exact absurd hlt hn
      · have hgt := hx y hy
        omega

theorem squash_settled (h : Core s) (n : Nat) :
    ∃ l, Settled s (s.squash n) l [] ∧ ∀ y, y ∈ l ↔ y ∈ s.instList ∧ n < y := by
  have hl : ∀ y, y ∈ s.instList.reverse.takeWhile (fun x => decide (n < x)) ↔
      y ∈ s.instList ∧ n < y := by
    intro y
    rw [mem_takeWhile_of_pairwise_gt (pairwise_reverse.mpr h.sorted), mem_reverse]
  exact ⟨_, foldl_squashInst_settled _ h.nodup fun x hx => h.le_last ((hl x).mp hx).1, hl⟩

theorem squash_inv (h : Inv s) (hC : s.remembers (.squash n)) :
    Inv (s.squash n) ∧ Released s (s.squash n) := by
  obtain ⟨l, hs, hl⟩ := squash_settled h.toCore n
  refine hs.inv h (fun k b hb hstays hcov hsn => hstays ?_) nofun
  -- a barrier that stays has its remembered barrier stay with it
  have hlt := ((hl _).mp hsn).2
  have hmem := (blocker_iff.mp hb).1
  refine (hl b).mpr ⟨hmem, ?_⟩
  obtain ⟨hload, hstore⟩ := Bool.and_eq_true_iff.mp (all_eq_true.mp hC b hmem)
  cases k with
  | load => simpa [show s.loadBarrier = true from hcov.1, show n < s.loadBarrierSN from hlt,
      show s.loadBlocker b = true from hb] using hload
  | store => simpa [show s.storeBarrier = true from hcov.1, show n < s.storeBarrierSN from hlt,
      show s.storeBlocker b = true from hb] using hstore

/-! ## Runs -/

theorem step_inv {e : MemDepOp} (h : Inv s) (hC : s.remembers e) (ht : s.step e = some t) :
    Inv t ∧ Released s t := by
  unfold step at ht
  split at ht
  case isFalse => cases ht
  rename_i ha
  cases e with
  | insert i => exact insert_inv h (of_decide_eq_true ha) hC ht
  | insertNonSpec i => exact insertNonSpec_inv h (of_decide_eq_true ha) ht
  | insertBarrier x m w =>
    cases ht
    exact ⟨insertBarrier_inv h (of_decide_eq_true ha), .of_eq (insertBarrier_readyInsts s x m w)⟩
  | regsReady x => exact regsReady_inv h ht
  | wakeDependents x =>
    have hx : (s.entries x).barrier = false := by simpa [remembers] using hC
    exact wakeDependents_inv h hx ht
  | completed x =>
    have hx : (s.entries x).barrier = false ∨ s.firstBarrier x = true := by
      simpa [allows] using ha
    exact (completed_settled h.nodup ht).inv h (fun _ _ => rememberedSN_ne hx) nofun
  | completeBarrier x =>
    have hx : (s.entries x).barrier = true ∧ s.firstBarrier x = true := by
      simpa [allows] using ha
    exact completeBarrier_inv h hx.2 ht
  | squash n =>
    cases ht
    exact squash_inv h hC

theorem inv_of_reach (h : memDepMachine.ReachWhen (fun s e => s.remembers e) s) : Inv s :=
  Machine.ReachWhen.invariant (I := Inv) (fun s hs => by cases hs; exact empty_inv)
    (fun _ _ _ hi hC hs => (step_inv hi hC hs).1) h

end MemDepUnit

open MemDepUnit

/-- In every run whose squashes leave no barrier behind without a younger remembered one: a
step hands over only instructions that no older barrier in flight blocks. -/
theorem barriers_order_memory {s t : MemDepUnit} {e : MemDepOp}
    (h : memDepMachine.ReachWhen (fun s e => s.remembers e = true) s)
    (hC : s.remembers e = true) (ht : memDepMachine.step s e = some t) :
    ∃ handed, t.readyInsts = s.readyInsts ++ handed ∧
      ∀ x ∈ handed, ∀ b < x, b ∈ t.instList → (t.entries b).barrier = true →
        ((t.entries x).isLoad = true → (t.entries b).isMemBarrier = false) ∧
        ((t.entries x).isStore = true →
          (t.entries b).isMemBarrier = false ∧ (t.entries b).isWriteBarrier = false) := by
  obtain ⟨handed, heq, hfree⟩ := (step_inv (inv_of_reach h) hC ht).2
  refine ⟨handed, heq, fun x hx b hlt hmem hbar => ?_⟩
  have hb := hfree x hx b
  simp only [blocks, loadBlocker, storeBlocker, hlt, hmem, hbar, decide_true, Bool.true_and,
    Bool.or_eq_false_iff, Bool.and_eq_false_iff] at hb
  refine ⟨fun hl => ?_, fun hs => ?_⟩
  · exact hb.1.resolve_left (by rw [hl]; decide)
  · exact hb.2.resolve_left (by rw [hs]; decide)

def plainLoad (x : Nat) : MemDepInst := ⟨x, true, false, false, false, true, 0⟩

def plainStore (x : Nat) : MemDepInst := ⟨x, false, true, false, false, true, 0⟩

/-- A load behind a memory barrier, a store behind a write barrier behind that. -/
def twoBarriers : List MemDepOp :=
  [.insertBarrier 1 true false, .insert (plainLoad 2), .insertBarrier 3 false true,
    .insert (plainStore 4)]

def afterTwoBarriers : MemDepUnit :=
  (memDepMachine.run MemDepUnit.empty twoBarriers).getD MemDepUnit.empty

def afterFirstBarrier : MemDepUnit :=
  (memDepMachine.step afterTwoBarriers (.completeBarrier 1)).getD MemDepUnit.empty

/-- The memory barrier completes: the load goes, the store stays. -/
theorem barriers_order_twoBarriers :
    afterFirstBarrier.readyInsts = [2] ∧
    ∃ handed, afterFirstBarrier.readyInsts = afterTwoBarriers.readyInsts ++ handed ∧
      ∀ x ∈ handed, ∀ b < x, b ∈ afterFirstBarrier.instList →
        (afterFirstBarrier.entries b).barrier = true →
        ((afterFirstBarrier.entries x).isLoad = true →
          (afterFirstBarrier.entries b).isMemBarrier = false) ∧
        ((afterFirstBarrier.entries x).isStore = true →
          (afterFirstBarrier.entries b).isMemBarrier = false ∧
          (afterFirstBarrier.entries b).isWriteBarrier = false) := by
  have hrun : memDepMachine.run MemDepUnit.empty twoBarriers = some afterTwoBarriers :=
    Machine.run_getD (by decide +kernel)
  have hreach : memDepMachine.ReachWhen (fun s e => s.remembers e = true) afterTwoBarriers :=
    .run (.start rfl) twoBarriers (by decide +kernel) hrun
  have hstep : memDepMachine.step afterTwoBarriers (.completeBarrier 1) = some afterFirstBarrier :=
    Machine.eq_some_getD (by decide +kernel)
  exact ⟨by decide +kernel, barriers_order_memory hreach (by decide +kernel) hstep⟩

/-- Two memory barriers; a squash takes the second one. -/
def overlappingBarriers : List MemDepOp :=
  [.insertBarrier 1 true false, .insertBarrier 2 true false, .squash 1]

def afterOverlappingBarriers : MemDepUnit :=
  (memDepMachine.run MemDepUnit.empty overlappingBarriers).getD MemDepUnit.empty

/-- The load comes after the squash and is handed over while the first barrier is in flight. -/
theorem barrier_forgotten :
    memDepMachine.Reach afterOverlappingBarriers ∧
    ((memDepMachine.step afterOverlappingBarriers (.insert (plainLoad 3))).map fun t =>
      (t.readyInsts, t.instList, t.blocks 1 3)) = some ([3], [1, 3], true) := by
  have hrun : memDepMachine.run MemDepUnit.empty overlappingBarriers =
      some afterOverlappingBarriers := Machine.run_getD (by decide +kernel)
  exact ⟨Machine.reach_run rfl hrun, by decide +kernel⟩

end SdoCore
