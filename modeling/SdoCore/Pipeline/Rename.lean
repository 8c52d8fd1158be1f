import Mathlib.Data.List.Count
import Mathlib.Logic.Function.Basic
import SdoCore.Inst
import SdoCore.Lib.Machine
import SdoCore.Lib.UndoLog

/-! Register renaming of one thread (`rename_impl.hh`, `rename_map.cc`, `free_list.hh`). Renaming a
destination takes a register off the free list of its class, puts it into the rename map and pushes
what was there before to the front of the history buffer. A squash takes entries off the front and
undoes them; the commit of an instruction takes entries off the back and frees what they replaced.

Results:
* `inv_of_reach`: no register is lost or in two places, and every entry of the history buffer says
  what it replaced.
* `rename_reversible`: so the map is the replay of the renames of the instructions that were not
  squashed. `rename` writes the map at `index` and `setEntry` at `flatIndex`, which differ for
  vector elements; no vector element gets so far (`flatIndex_of_rename`). -/

namespace SdoCore

open Lib
open Function (update update_of_ne update_self)
open List

/-- `Enums::VecRegRenameMode`. -/
inductive VecMode
  | full | elem
  deriving DecidableEq

/-- An architectural register; `elemIdx` counts for vector elements only. -/
structure ArchRegId extends RegId where
  elemIdx : Nat := 0
  deriving DecidableEq

/-- A physical register: its class and its place in the register file of the class. -/
structure PhysRegId where
  regClass : RegClass
  idx : Nat
  deriving DecidableEq

/-- Sizes of the rename maps and of the register files. The registers of the vector class that the
mode does not use are not tracked. -/
structure RenameConfig where
  numArch : RegClass → Nat
  numPhys : RegClass → Nat
  numVecElemPerVecReg : Nat
  vecMode : VecMode
  zeroReg : Nat
  enough : ∀ k, numArch k ≤ numPhys k
  zero_lt : zeroReg < numArch .intRegClass

structure RenameHistory where
  instSeqNum : Nat
  archReg : ArchRegId
  newPhysReg : PhysRegId
  prevPhysReg : PhysRegId
  deriving DecidableEq

/-- `RegId::flatIndex`. -/
def RenameConfig.flatIndex (c : RenameConfig) (r : ArchRegId) : Nat :=
  match r.regClass with
  | .vecElemClass => c.numVecElemPerVecReg * r.regIdx + r.elemIdx
  | _ => r.regIdx

/-- `flattenRegId` of the thread context. `idx` is the index that the ISA's state gives to the
register. The one ISA with vector elements (`vecMode` is `elem`) builds the result without an
element index, and the constructor of `RegId` panics if that is of `VecElemClass`; the other ISAs
return a vector element as it is. -/
def RenameConfig.flattenRegId (c : RenameConfig) (r : ArchRegId) (idx : Nat) : Option ArchRegId :=
  match r.regClass with
  | .vecElemClass => if c.vecMode = .elem then none else some r
  | k => some { regClass := k, regIdx := idx }

/-- The assertions on the vector mode. -/
def RenameConfig.tracked (c : RenameConfig) : RegClass → Bool
  | .vecRegClass => c.vecMode == .full
  | .vecElemClass => c.vecMode == .elem
  | .miscRegClass => false
  | _ => true

/-- The maps of all classes. -/
abbrev RenameMap := RegClass → List PhysRegId

def RenameMap.setAt (m : RenameMap) (k : RegClass) (i : Nat) (p : PhysRegId) : RenameMap :=
  update m k ((m k).set i p)

/-- The state of rename. `lastSeq` is the youngest instruction renamed so far, `committed` the
largest bound given to `removeFromHistory`, and `renames` the renames of the instructions that were
not squashed, oldest first. -/
structure Rename where
  map : RenameMap
  freeList : RegClass → List PhysRegId
  historyBuffer : List RenameHistory := []
  lastSeq : Nat := 0
  committed : Nat := 0
  renames : List RenameHistory := []

/-- The destinations come with the index that they have flattened. -/
inductive RenameEvent
  | renameDestRegs (seqNum : Nat) (dests : List (ArchRegId × Nat))
  | doSquash (squashedSeqNum : Nat)
  | removeFromHistory (instSeqNum : Nat)
  deriving DecidableEq

namespace Rename

variable (c : RenameConfig)

/-- `UnifiedRenameMap::rename`: the new and the previous register. `none` is a failed assertion. -/
def rename (s : Rename) (r : ArchRegId) : Option (PhysRegId × PhysRegId × Rename) :=
  let k := r.regClass
  if k = .miscRegClass then
    -- not really renamed
    some (⟨k, c.flatIndex r⟩, ⟨k, c.flatIndex r⟩, s)
  else if c.tracked k then
    (s.map k)[r.regIdx]?.bind fun prev =>
      if k = .intRegClass ∧ r.regIdx = c.zeroReg then
        if prev = ⟨.intRegClass, c.zeroReg⟩ then some (prev, prev, s) else none
      else
        match s.freeList k with
        | [] => none
        | new :: rest =>
          some (new, prev, { s with map := s.map.setAt k r.regIdx new,
                                    freeList := update s.freeList k rest })
  else none

/-- `UnifiedRenameMap::setEntry`. -/
def setEntry (s : Rename) (r : ArchRegId) (p : PhysRegId) : Option Rename :=
  let k := r.regClass
  if k = .miscRegClass then
    if p = ⟨k, c.flatIndex r⟩ then some s else none
  else if c.tracked k ∧ p.regClass = k ∧ c.flatIndex r < (s.map k).length then
    some { s with map := s.map.setAt k (c.flatIndex r) p }
  else none

/-- `UnifiedFreeList::addReg`; miscellaneous registers have no free list. -/
def addReg (s : Rename) (p : PhysRegId) : Option Rename :=
  if p.regClass = .miscRegClass then none
  else some { s with freeList := update s.freeList p.regClass (s.freeList p.regClass ++ [p]) }

/-- The body of the loop of `renameDestRegs`. -/
def renameDest (seqNum : Nat) (s : Rename) (destReg : ArchRegId) (idx : Nat) : Option Rename :=
  (c.flattenRegId destReg idx).bind fun r => (s.rename c r).map fun (new, prev, s) =>
    let entry : RenameHistory :=
      { instSeqNum := seqNum, archReg := r, newPhysReg := new, prevPhysReg := prev }
    { s with historyBuffer := entry :: s.historyBuffer, renames := s.renames ++ [entry] }

def renameDestRegs (seqNum : Nat) (s : Rename) : List (ArchRegId × Nat) → Option Rename
  | [] => some s
  | d :: ds => (s.renameDest c seqNum d.1 d.2).bind fun s => renameDestRegs seqNum s ds

/-- The body of the loop of `doSquash`. -/
def undo (s : Rename) (e : RenameHistory) : Option Rename :=
  if e.newPhysReg ≠ e.prevPhysReg then
    (s.setEntry c e.archReg e.prevPhysReg).bind (·.addReg e.newPhysReg)
  else some s

def squashLoop (squashedSeqNum : Nat) (s : Rename) : List RenameHistory → Option Rename
  | [] => some { s with historyBuffer := [] }
  | e :: es =>
    if squashedSeqNum < e.instSeqNum then
      (s.undo c e).bind fun s => squashLoop squashedSeqNum s es
    else some { s with historyBuffer := e :: es }

def doSquash (s : Rename) (squashedSeqNum : Nat) : Option Rename :=
  (s.squashLoop c squashedSeqNum s.historyBuffer).map fun s =>
    { s with renames := s.renames.filter (·.instSeqNum ≤ squashedSeqNum) }

/-- The body of the loop of `removeFromHistory`. -/
def release (s : Rename) (e : RenameHistory) : Option Rename :=
  if e.newPhysReg ≠ e.prevPhysReg then s.addReg e.prevPhysReg else some s

/-- The history from its back. -/
def commitLoop (instSeqNum : Nat) (s : Rename) : List RenameHistory → Option Rename
  | [] => some { s with historyBuffer := [] }
  | e :: es =>
    if e.instSeqNum ≤ instSeqNum then
      (s.release e).bind fun s => commitLoop instSeqNum s es
    else some { s with historyBuffer := (e :: es).reverse }

def removeFromHistory (s : Rename) (instSeqNum : Nat) : Option Rename :=
  (s.commitLoop instSeqNum s.historyBuffer.reverse).map fun s =>
    { s with committed := max s.committed instSeqNum }

/-- Instructions are renamed in order, and nothing committed is squashed. -/
def allows (s : Rename) : RenameEvent → Bool
  | .renameDestRegs seqNum _ => s.lastSeq < seqNum
  | .doSquash squashedSeqNum => s.committed ≤ squashedSeqNum
  | .removeFromHistory _ => true

def handle (s : Rename) : RenameEvent → Option Rename
  | .renameDestRegs seqNum dests =>
    (s.renameDestRegs c seqNum dests).map fun s => { s with lastSeq := seqNum }
  | .doSquash squashedSeqNum => s.doSquash c squashedSeqNum
  | .removeFromHistory instSeqNum => s.removeFromHistory instSeqNum

def step (s : Rename) (e : RenameEvent) : Option Rename :=
  if s.allows e then s.handle c e else none

end Rename

namespace RenameConfig

variable (c : RenameConfig)

/-- The registers of a class that the constructor of the processor maps. -/
def initialMap : RenameMap := fun k =>
  if c.tracked k then (List.range (c.numArch k)).map (⟨k, ·⟩) else []

/-- The other registers of the class. -/
def initialFreeList (k : RegClass) : List PhysRegId :=
  if c.tracked k then (List.range' (c.numArch k) (c.numPhys k - c.numArch k)).map (⟨k, ·⟩) else []

/-- A physical register that is renamed. -/
def renameable (p : PhysRegId) : Bool := c.tracked p.regClass && p.idx < c.numPhys p.regClass

end RenameConfig

def renameMachine (c : RenameConfig) : Machine Rename RenameEvent where
  start s := s = { map := c.initialMap, freeList := c.initialFreeList }
  step := Rename.step c

/-! ## Where a register is -/

namespace RenameHistory

/-- A really renamed register. -/
def changed (e : RenameHistory) : Bool := e.newPhysReg ≠ e.prevPhysReg

/-- The entry holds back the register. -/
def holds (e : RenameHistory) (p : PhysRegId) : Bool := e.changed && e.prevPhysReg = p

/-- What the rename did to the map. -/
def apply (m : RenameMap) (e : RenameHistory) : RenameMap :=
  if e.archReg.regClass = .miscRegClass then m
  else m.setAt e.archReg.regClass e.archReg.regIdx e.newPhysReg

/-- The entry says what it replaced. -/
def Describes (m : RenameMap) (e : RenameHistory) : Prop :=
  if e.archReg.regClass = .miscRegClass then e.newPhysReg = e.prevPhysReg
  else (m e.archReg.regClass)[e.archReg.regIdx]? = some e.prevPhysReg

/-- The map after renames in order. -/
abbrev replay (m : RenameMap) (es : List RenameHistory) : RenameMap := Lib.replay apply m es

abbrev Recorded (m : RenameMap) (es : List RenameHistory) : Prop :=
  Lib.Recorded apply Describes m es

/-- The registers of an entry are of the class of the register renamed. -/
structure Wf (c : RenameConfig) (e : RenameHistory) : Prop where
  flat : c.flatIndex e.archReg = e.archReg.regIdx
  misc : e.archReg.regClass = .miscRegClass → e.newPhysReg = e.prevPhysReg
  new : e.archReg.regClass ≠ .miscRegClass →
    e.newPhysReg.regClass = e.archReg.regClass ∧ c.renameable e.newPhysReg = true
  prev : e.archReg.regClass ≠ .miscRegClass →
    e.prevPhysReg.regClass = e.archReg.regClass ∧ c.renameable e.prevPhysReg = true

end RenameHistory

namespace Rename

/-- How often the register stands in the free list, in the map and in the entries `hist`. -/
def places (s : Rename) (hist : List RenameHistory) (p : PhysRegId) : Nat :=
  (s.freeList p.regClass).count p + (s.map p.regClass).count p + hist.countP (·.holds p)

/-- The state with the entries `hist`, after the entries `old` were committed. -/
structure Sound (c : RenameConfig) (s : Rename) (old hist : List RenameHistory) : Prop where
  entries : ∀ e ∈ hist, e.Wf c
  free : ∀ k, ∀ p ∈ s.freeList k, p.regClass = k ∧ c.renameable p = true
  mapped : ∀ k, ∀ p ∈ s.map k, p.regClass = k ∧ c.renameable p = true
  places : ∀ p, c.renameable p = true → s.places hist p = 1
  map_eq : s.map = RenameHistory.replay (RenameHistory.replay c.initialMap old) hist.reverse
  recorded : RenameHistory.Recorded (RenameHistory.replay c.initialMap old) hist.reverse

section Sound

variable {c : RenameConfig} {s s' : Rename} {old hist : List RenameHistory} {e : RenameHistory}
  {r : ArchRegId} {new prev : PhysRegId}

variable {p a : PhysRegId} {k k' : RegClass} {m : RenameMap} {i : Nat}
  {f : RegClass → List PhysRegId}

theorem tracked_of_renameable (h : c.renameable p) : c.tracked p.regClass := by
  simp only [RenameConfig.renameable, Bool.and_eq_true] at h
  exact h.1

theorem misc_not_tracked (h : c.tracked k) : k ≠ .miscRegClass := by
  rintro rfl
  simp [RenameConfig.tracked] at h

theorem setAt_other {b : PhysRegId} (h : k' ≠ k) :
    m.setAt k i b k' = m k' :=
  update_of_ne h _ _

theorem count_setAt {b : PhysRegId} (h : (m k)[i]? = some a) (ha : a.regClass = k)
    (hb : b.regClass = k) (p : PhysRegId) :
    (m.setAt k i b p.regClass).count p + (if a = p then 1 else 0) =
      (m p.regClass).count p + (if b = p then 1 else 0) := by
  by_cases hp : p.regClass = k
  · subst hp
    obtain ⟨hi, rfl⟩ := List.getElem?_eq_some_iff.mp h
    have hpos : (m p.regClass)[i] = p → 0 < (m p.regClass).count p := fun heq => by
      have hmem := getElem_mem hi
      rw [heq] at hmem
      exact count_pos_iff.mpr hmem
    rw [RenameMap.setAt, update_self, count_set hi]
    simp only [beq_iff_eq]
    split
    · next heq =>
      have := hpos heq
      omega
    · omega
  · rw [setAt_other hp, if_neg fun heq : a = p => hp (heq ▸ ha), if_neg fun heq :
      b = p => hp (heq ▸ hb)]

theorem count_freed (ha : a.regClass = k) (p : PhysRegId) :
    (update f k (f k ++ [a]) p.regClass).count p =
      (f p.regClass).count p + (if a = p then 1 else 0) := by
  by_cases hp : p.regClass = k
  · subst hp
    rw [update_self, count_append, count_singleton]
    simp only [beq_iff_eq]
  · rw [update_of_ne hp, if_neg fun heq : a = p => hp (heq ▸ ha), Nat.add_zero]

theorem mem_freed (h : p ∈ update f k (f k ++ [a]) k') : p ∈ f k' ∨ k' = k ∧ p = a := by
  by_cases hk : k' = k
  · subst hk
    rw [update_self, mem_append, mem_singleton] at h
    exact h.imp_right fun hp => ⟨rfl, hp⟩
  · rw [update_of_ne hk] at h
    exact .inl h

theorem count_taken {rest : List PhysRegId} (h : f k = a :: rest) (ha : a.regClass = k)
    (p : PhysRegId) :
    (update f k rest p.regClass).count p + (if a = p then 1 else 0) =
      (f p.regClass).count p := by
  by_cases hp : p.regClass = k
  · subst hp
    rw [update_self, h, count_cons]
    simp only [beq_iff_eq]
  · rw [update_of_ne hp, if_neg fun heq : a = p => hp (heq ▸ ha), Nat.add_zero]

/-- A really renamed register is held back by the entry. -/
theorem holds_of_ne (h : e.newPhysReg ≠ e.prevPhysReg) (p : PhysRegId) :
    (if e.holds p then 1 else 0) = if e.prevPhysReg = p then 1 else 0 := by
  simp [RenameHistory.holds, RenameHistory.changed, h]

theorem rename_cases (h : s.rename c r = some (new, prev, s')) :
    (r.regClass = .miscRegClass ∧ new = prev ∧ s' = s) ∨
    (c.tracked r.regClass ∧ (s.map r.regClass)[r.regIdx]? = some prev ∧
      (new = prev ∧ s' = s ∨
        ∃ rest, s.freeList r.regClass = new :: rest ∧
          s' = { s with map := s.map.setAt r.regClass r.regIdx new,
                        freeList := update s.freeList r.regClass rest })) := by
  simp only [rename] at h
  split at h
  · next hk =>
    cases h
    exact .inl ⟨hk, rfl, rfl⟩
  · split at h
    · next ht =>
      obtain ⟨q, hq, h⟩ := Option.bind_eq_some_iff.mp h
      right
      split at h
      · split at h
        · cases h
          exact ⟨ht, hq, .inl ⟨rfl, rfl⟩⟩
        · cases h
      · split at h
        · cases h
        rename_i rest hfree
        cases h
        exact ⟨ht, hq, .inr ⟨_, hfree, rfl⟩⟩
    · cases h

theorem countP_holds_cons (p : PhysRegId) :
    (e :: hist).countP (·.holds p) = hist.countP (·.holds p) + (if e.holds p then 1 else 0) :=
  countP_cons

/-- A register that is free is not in the map. -/
theorem Sound.free_ne_mapped (h : Sound c s old hist) (hf : new ∈ s.freeList k)
    (hm : prev ∈ s.map k) : new ≠ prev := by
  rintro rfl
  obtain ⟨hk, hr⟩ := h.free k new hf
  subst hk
  have hplaces := h.places new hr
  have h1 := count_pos_iff.mpr hf
  have h2 := count_pos_iff.mpr hm
  simp only [Rename.places] at hplaces
  omega

theorem mem_setAt (h : p ∈ m.setAt k i a k') : p ∈ m k' ∨ k' = k ∧ p = a := by
  by_cases hk : k' = k
  · subst hk
    rw [RenameMap.setAt, update_self] at h
    rcases mem_or_eq_of_mem_set h with h | h
    · exact .inl h
    · exact .inr ⟨rfl, h⟩
  · rw [setAt_other hk] at h
    exact .inl h

theorem setAt_self (h : (m k)[i]? = some a) :
    m.setAt k i a = m := by
  obtain ⟨hi, rfl⟩ := List.getElem?_eq_some_iff.mp h
  rw [RenameMap.setAt, set_getElem_self, Function.update_eq_self]

theorem Sound.push (h : Sound c s old hist) (hwf : e.Wf c) (hd : e.Describes s.map)
    (hmap : s'.map = e.apply s.map)
    (hfree : ∀ k, ∀ p ∈ s'.freeList k, p.regClass = k ∧ c.renameable p)
    (hplaces : ∀ p, c.renameable p → s'.places (e :: hist) p = 1) : Sound c s' old (e :: hist) where
  entries := forall_mem_cons.mpr ⟨hwf, h.entries⟩
  free := hfree
  mapped := by
    intro k p hp
    rw [hmap, RenameHistory.apply] at hp
    split at hp
    · exact h.mapped k p hp
    rename_i hk
    rcases mem_setAt hp with hp | ⟨rfl, rfl⟩
    · exact h.mapped k p hp
    · exact hwf.new hk
  places := hplaces
  map_eq := by
    rw [hmap, h.map_eq, reverse_cons]
    exact (replay_append RenameHistory.apply _ _ [e]).symm
  recorded := by
    rw [reverse_cons]
    refine (recorded_concat _ _).mpr ⟨h.recorded, ?_⟩
    rw [← RenameHistory.replay, ← h.map_eq]
    exact hd

/-- A register that is flattened and renamed is at one place for `rename` and for `setEntry`: the
flattening refuses a vector element in one mode, `rename` in the other. -/
theorem flatIndex_of_rename {d : ArchRegId} {idx : Nat} (hf : c.flattenRegId d idx = some r)
    (hr : r.regClass = .miscRegClass ∨ c.tracked r.regClass) : c.flatIndex r = r.regIdx := by
  have hne : r.regClass ≠ .vecElemClass := by
    intro hk
    simp only [hk, RenameConfig.tracked, beq_iff_eq, reduceCtorEq, false_or] at hr
    unfold RenameConfig.flattenRegId at hf
    split at hf
    · rw [if_pos hr] at hf
      cases hf
    · rename_i hd
      cases hf
      exact hd hk
  unfold RenameConfig.flatIndex
  split
  · exact absurd ‹_› hne
  · rfl

theorem Sound.renameDest (h : Sound c s old hist) {n : Nat} {d : ArchRegId} {idx : Nat}
    (hr : s.renameDest c n d idx = some s') :
    ∃ e, e.instSeqNum = n ∧ Sound c s' old (e :: hist) ∧ s'.historyBuffer = e :: s.historyBuffer ∧
      s'.renames = s.renames ++ [e] ∧ s'.committed = s.committed := by
  obtain ⟨r, hd, hr⟩ := Option.bind_eq_some_iff.mp hr
  obtain ⟨⟨new, prev, t⟩, ht, rfl⟩ := Option.map_eq_some_iff.mp hr
  -- nothing moves if the register keeps its mapping
  have hsame (p : PhysRegId) (heq : new = prev) :
      s.places (⟨n, r, new, prev⟩ :: hist) p = s.places hist p := by
    simp [Rename.places, RenameHistory.holds, RenameHistory.changed, heq]
  rcases rename_cases ht with ⟨hk, rfl, rfl⟩ | ⟨htr, hprev, hcase⟩
  · have hwf : RenameHistory.Wf c ⟨n, r, new, new⟩ :=
      ⟨flatIndex_of_rename hd (.inl hk), fun _ => rfl, fun hne => absurd hk hne,
        fun hne => absurd hk hne⟩
    refine ⟨⟨n, r, new, new⟩, rfl, h.push hwf ?_ ?_ h.free fun p hp => ?_, rfl, rfl, rfl⟩
    · simp [RenameHistory.Describes, hk]
    · simp [RenameHistory.apply, hk]
    have := h.places p hp
    rw [← hsame p rfl] at this
    exact this
  · have hflat := flatIndex_of_rename hd (.inr htr)
    have hk := misc_not_tracked htr
    have hmem : prev ∈ s.map r.regClass := mem_of_getElem? hprev
    have hd : RenameHistory.Describes s.map ⟨n, r, new, prev⟩ := by
      simpa [RenameHistory.Describes, hk] using hprev
    rcases hcase with ⟨rfl, rfl⟩ | ⟨rest, hfree, rfl⟩
    · have hwf : RenameHistory.Wf c ⟨n, r, new, new⟩ :=
        ⟨hflat, fun _ => rfl, fun _ => h.mapped _ _ hmem, fun _ => h.mapped _ _ hmem⟩
      refine ⟨⟨n, r, new, new⟩, rfl, h.push hwf hd ?_ h.free fun p hp => ?_, rfl, rfl, rfl⟩
      · simp [RenameHistory.apply, hk, setAt_self hprev]
      have := h.places p hp
      rw [← hsame p rfl] at this
      exact this
    · have hnew : new ∈ s.freeList r.regClass := hfree ▸ mem_cons_self
      have hne := h.free_ne_mapped hnew hmem
      have hwf : RenameHistory.Wf c ⟨n, r, new, prev⟩ :=
        ⟨hflat, fun hm => absurd hm hk, fun _ => h.free _ _ hnew, fun _ => h.mapped _ _ hmem⟩
      refine ⟨⟨n, r, new, prev⟩, rfl, h.push hwf hd ?_ (fun k p hp => ?_) fun p hp => ?_, rfl,
        rfl, rfl⟩
      · simp [RenameHistory.apply, hk]
      · dsimp only at hp
        by_cases hkk : k = r.regClass
        · subst hkk
          rw [update_self] at hp
          exact h.free _ p (hfree ▸ mem_cons_of_mem _ hp)
        · rw [update_of_ne hkk] at hp
          exact h.free k p hp
      · have hplaces := h.places p hp
        have hm := count_setAt (b := new) hprev (h.mapped _ _ hmem).1 (h.free _ _ hnew).1 p
        have hf := count_taken hfree (h.free _ _ hnew).1 p
        simp only [Rename.places, countP_holds_cons] at hplaces ⊢
        rw [holds_of_ne hne]
        dsimp only
        omega

theorem setAt_setAt (m : RenameMap) (k : RegClass) (i : Nat) (a b : PhysRegId) :
    (m.setAt k i a).setAt k i b = m.setAt k i b := by
  simp only [RenameMap.setAt, update_self, set_set, Function.update_idem]

theorem Sound.before (h : Sound c s old (e :: hist)) :
    ∃ m, m = RenameHistory.replay (RenameHistory.replay c.initialMap old) hist.reverse ∧
      RenameHistory.Recorded (RenameHistory.replay c.initialMap old) hist.reverse ∧
      s.map = e.apply m ∧ e.Describes m := by
  have hrec := h.recorded
  have hmap := h.map_eq
  rw [reverse_cons] at hrec hmap
  obtain ⟨hrec, hd⟩ := (recorded_concat _ _).mp hrec
  rw [RenameHistory.replay, replay_append] at hmap
  exact ⟨_, rfl, hrec, hmap, hd⟩

/-- A rename is undone: its register goes to the free list, the one it replaced to the map. -/
theorem Sound.undo (h : Sound c s old (e :: hist)) :
    ∃ s', s.undo c e = some s' ∧ Sound c s' old hist ∧ s'.historyBuffer = s.historyBuffer ∧
      s'.renames = s.renames ∧ s'.committed = s.committed ∧ s'.lastSeq = s.lastSeq := by
  have hwf := h.entries e mem_cons_self
  have hentries : ∀ f ∈ hist, f.Wf c := fun f hf => h.entries f (mem_cons_of_mem _ hf)
  obtain ⟨m, hm, hrec, hmap, hd⟩ := h.before
  by_cases hne : e.newPhysReg = e.prevPhysReg
  · have hsame : s.map = m := by
      rw [hmap, RenameHistory.apply]
      split
      · rfl
      rename_i hk
      rw [RenameHistory.Describes, if_neg hk] at hd
      rw [hne, setAt_self hd]
    refine ⟨s, by simp [Rename.undo, hne],
      ⟨hentries, h.free, h.mapped, fun p hp => ?_, hsame.trans hm, hrec⟩, rfl, rfl, rfl, rfl⟩
    have := h.places p hp
    simpa [Rename.places, countP_cons, RenameHistory.holds, RenameHistory.changed, hne] using this
  · have hk : e.archReg.regClass ≠ .miscRegClass := fun hk => hne (hwf.misc hk)
    obtain ⟨hnewk, hnewr⟩ := hwf.new hk
    obtain ⟨hprevk, hprevr⟩ := hwf.prev hk
    rw [RenameHistory.Describes, if_neg hk] at hd
    rw [RenameHistory.apply, if_neg hk] at hmap
    have hi : e.archReg.regIdx < (m e.archReg.regClass).length :=
      (List.getElem?_eq_some_iff.mp hd).1
    have hnew : (s.map e.archReg.regClass)[e.archReg.regIdx]? = some e.newPhysReg := by
      rw [hmap, RenameMap.setAt, update_self, List.getElem?_set_self hi]
    have hlen : e.archReg.regIdx < (s.map e.archReg.regClass).length :=
      (List.getElem?_eq_some_iff.mp hnew).1
    have htr : c.tracked e.archReg.regClass = true := hnewk ▸ tracked_of_renameable hnewr
    have hback : s.map.setAt e.archReg.regClass e.archReg.regIdx e.prevPhysReg = m := by
      rw [hmap, setAt_setAt, setAt_self hd]
    refine ⟨{ s with
        map := m
        freeList := update s.freeList e.archReg.regClass
          (s.freeList e.archReg.regClass ++ [e.newPhysReg]) },
      ?_, ⟨hentries, fun k p hp => ?_, fun k p hp => ?_, fun p hp => ?_, hm, hrec⟩, rfl, rfl,
        rfl, rfl⟩
    · simp only [Rename.undo, ne_eq, hne, not_false_eq_true, if_true, Rename.setEntry, if_neg hk,
        htr, hprevk,
        hwf.flat, hlen, and_self, Option.bind_some, Rename.addReg, hnewk, hback]
    · rcases mem_freed hp with hp | ⟨rfl, rfl⟩
      · exact h.free k p hp
      · exact ⟨hnewk, hnewr⟩
    · rw [← hback] at hp
      rcases mem_setAt hp with hp | ⟨rfl, rfl⟩
      · exact h.mapped k p hp
      · exact ⟨hprevk, hprevr⟩
    · have hplaces := h.places p hp
      have hc := count_setAt (b := e.prevPhysReg) hnew hnewk hprevk p
      have hf := count_freed (f := s.freeList) hnewk p
      rw [hback] at hc
      simp only [Rename.places, countP_holds_cons] at hplaces ⊢
      rw [holds_of_ne hne] at hplaces
      omega

/-- A rename is committed: the register it replaced goes to the free list. -/
theorem Sound.release (h : Sound c s old (hist ++ [e])) :
    ∃ s', s.release e = some s' ∧ Sound c s' (old ++ [e]) hist ∧
      s'.historyBuffer = s.historyBuffer ∧
      s'.renames = s.renames ∧ s'.committed = s.committed ∧ s'.lastSeq = s.lastSeq := by
  have hwf := h.entries e (by simp)
  have hentries : ∀ f ∈ hist, f.Wf c := fun f hf => h.entries f (mem_append_left _ hf)
  have hrec := h.recorded
  have hmap := h.map_eq
  rw [reverse_append] at hrec hmap
  have hbase : RenameHistory.replay c.initialMap (old ++ [e]) =
      e.apply (RenameHistory.replay c.initialMap old) := replay_append ..
  have hmap : s.map = RenameHistory.replay
    (RenameHistory.replay c.initialMap (old ++ [e])) hist.reverse := by
    rw [hbase]
    exact hmap
  have hrec : RenameHistory.Recorded
    (RenameHistory.replay c.initialMap (old ++ [e])) hist.reverse := by
    rw [hbase]
    exact hrec.2
  have hcount (p : PhysRegId) : (hist ++ [e]).countP (·.holds p) =
      hist.countP (·.holds p) + (if e.holds p then 1 else 0) := by
    rw [countP_append, countP_singleton]
  by_cases hne : e.newPhysReg = e.prevPhysReg
  · refine ⟨s, by simp [Rename.release, hne],
      ⟨hentries, h.free, h.mapped, fun p hp => ?_, hmap, hrec⟩,
      rfl, rfl, rfl, rfl⟩
    have := h.places p hp
    rw [Rename.places, hcount] at this
    simpa [Rename.places, RenameHistory.holds, RenameHistory.changed, hne] using this
  · have hk : e.archReg.regClass ≠ .miscRegClass := fun hk => hne (hwf.misc hk)
    obtain ⟨hprevk, hprevr⟩ := hwf.prev hk
    refine ⟨{ s with
        freeList := update s.freeList e.archReg.regClass
          (s.freeList e.archReg.regClass ++ [e.prevPhysReg]) },
      ?_, ⟨hentries, fun k p hp => ?_, h.mapped, fun p hp => ?_, hmap, hrec⟩, rfl, rfl, rfl, rfl⟩
    · simp only [Rename.release, ne_eq, hne, not_false_eq_true, if_true, Rename.addReg, hprevk,
        if_neg hk]
    · rcases mem_freed hp with hp | ⟨rfl, rfl⟩
      · exact h.free k p hp
      · exact ⟨hprevk, hprevr⟩
    · have hplaces := h.places p hp
      have hf := count_freed (f := s.freeList) hprevk p
      simp only [Rename.places, hcount] at hplaces ⊢
      rw [holds_of_ne hne] at hplaces
      omega

end Sound

/-! ## Whole operations -/

/-- `old` are the committed entries; the entries of the buffer are the others, none younger than
`bound`. -/
structure Inv (c : RenameConfig) (s : Rename) (bound : Nat) (old : List RenameHistory) : Prop where
  sound : Sound c s old s.historyBuffer
  log : s.renames = old ++ s.historyBuffer.reverse
  committed : ∀ e ∈ old, e.instSeqNum ≤ s.committed
  sorted : s.historyBuffer.Pairwise fun a b => b.instSeqNum ≤ a.instSeqNum
  le_bound : ∀ e ∈ s.historyBuffer, e.instSeqNum ≤ bound

section Inv

variable {c : RenameConfig} {s s' : Rename} {n : Nat} {old hist : List RenameHistory}

theorem Inv.renameDestRegs {dests : List (ArchRegId × Nat)} (h : Inv c s n old)
    (hr : s.renameDestRegs c n dests = some s') : Inv c s' n old := by
  induction dests generalizing s with
  | nil =>
    cases hr
    exact h
  | cons d ds ih =>
    obtain ⟨t, ht, hr⟩ := Option.bind_eq_some_iff.mp hr
    obtain ⟨e, hseq, hsound, hhist, hren, hcom⟩ := h.sound.renameDest ht
    refine ih ⟨hhist ▸ hsound, ?_, hcom ▸ h.committed, ?_, ?_⟩ hr
    · rw [hren, hhist, h.log, reverse_cons, append_assoc]
    · rw [hhist]
      exact pairwise_cons.mpr ⟨fun f hf => hseq ▸ h.le_bound f hf, h.sorted⟩
    · rw [hhist]
      exact forall_mem_cons.mpr ⟨Nat.le_of_eq hseq, h.le_bound⟩

/-- The loop of `doSquash` goes through and leaves the entries that are not younger. -/
theorem Sound.squashLoop (h : Sound c s old hist)
    (hs : hist.Pairwise fun a b => b.instSeqNum ≤ a.instSeqNum) (n : Nat) :
    ∃ s', s.squashLoop c n hist = some s' ∧ Sound c s' old s'.historyBuffer ∧
      s'.historyBuffer = hist.filter (·.instSeqNum ≤ n) ∧ s'.renames = s.renames ∧
      s'.committed = s.committed ∧ s'.lastSeq = s.lastSeq := by
  induction hist generalizing s with
  | nil => exact ⟨_, rfl, { h with }, rfl, rfl, rfl, rfl⟩
  | cons e es ih =>
    obtain ⟨he, hes⟩ := pairwise_cons.mp hs
    by_cases hlt : n < e.instSeqNum
    · obtain ⟨t, ht, hsound, -, hren, hcom, hlast⟩ := h.undo
      obtain ⟨s', hs', hsound', hhist, hren', hcom', hlast'⟩ := ih hsound hes
      refine ⟨s', ?_, hsound', ?_, hren'.trans hren, hcom'.trans hcom, hlast'.trans hlast⟩
      · rw [Rename.squashLoop, if_pos hlt, ht, Option.bind_some, hs']
      · rw [hhist, filter_cons_of_neg (by simpa using hlt)]
    · have hall : (e :: es).filter (·.instSeqNum ≤ n) = e :: es := by
        refine filter_eq_self.mpr (forall_mem_cons.mpr ⟨by simpa using hlt, fun f hf => ?_⟩)
        have := he f hf
        simp only [decide_eq_true_eq]
        omega
      refine ⟨{ s with historyBuffer := e :: es }, ?_,
        { h with }, hall.symm, rfl, rfl, rfl⟩
      rw [Rename.squashLoop, if_neg hlt]

/-- The loop of `removeFromHistory`, from the oldest entry on. -/
theorem Sound.commitLoop {es : List RenameHistory} (h : Sound c s old es.reverse)
    (hs : es.Pairwise fun a b => a.instSeqNum ≤ b.instSeqNum) (n : Nat) :
    ∃ s', s.commitLoop n es = some s' ∧
      Sound c s' (old ++ es.filter (·.instSeqNum ≤ n)) s'.historyBuffer ∧
      s'.historyBuffer = (es.filter (n < ·.instSeqNum)).reverse ∧ s'.renames = s.renames ∧
      s'.committed = s.committed ∧ s'.lastSeq = s.lastSeq := by
  induction es generalizing s old with
  | nil =>
    refine ⟨_, rfl, ?_, rfl, rfl, rfl, rfl⟩
    rw [filter_nil, append_nil]
    exact { h with }
  | cons e es ih =>
    obtain ⟨he, hes⟩ := pairwise_cons.mp hs
    by_cases hle : e.instSeqNum ≤ n
    · rw [reverse_cons] at h
      obtain ⟨t, ht, hsound, -, hren, hcom, hlast⟩ := h.release
      obtain ⟨s', hs', hsound', hhist, hren', hcom', hlast'⟩ := ih hsound hes
      refine ⟨s', ?_, ?_, ?_, hren'.trans hren, hcom'.trans hcom, hlast'.trans hlast⟩
      · rw [Rename.commitLoop, if_pos hle, ht, Option.bind_some, hs']
      · rw [filter_cons_of_pos (by simpa using hle)]
        rw [append_assoc] at hsound'
        exact hsound'
      · rw [hhist, filter_cons_of_neg (by simpa using hle)]
    · have hnone : (e :: es).filter (·.instSeqNum ≤ n) = [] := by
        refine filter_eq_nil_iff.mpr (forall_mem_cons.mpr ⟨by simpa using hle, fun f hf => ?_⟩)
        have := he f hf
        simp only [decide_eq_true_eq]
        omega
      have hall : (e :: es).filter (n < ·.instSeqNum) = e :: es := by
        refine filter_eq_self.mpr (forall_mem_cons.mpr ⟨by simpa using hle, fun f hf => ?_⟩)
        have := he f hf
        simp only [decide_eq_true_eq]
        omega
      refine ⟨{ s with historyBuffer := (e :: es).reverse }, ?_, ?_, by rw [hall], rfl, rfl, rfl⟩
      · rw [Rename.commitLoop, if_neg hle]
      · rw [hnone, append_nil]
        exact { h with }

theorem Inv.doSquash (h : Inv c s s.lastSeq old) (hn : s.committed ≤ n) :
    ∃ s', s.doSquash c n = some s' ∧ Inv c s' s'.lastSeq old ∧
      s'.renames = s.renames.filter (·.instSeqNum ≤ n) := by
  obtain ⟨t, ht, hsound, hhist, hren, hcom, hlast⟩ := h.sound.squashLoop h.sorted n
  have hold : old.filter (·.instSeqNum ≤ n) = old := by
    refine filter_eq_self.mpr fun e he => ?_
    simpa using Nat.le_trans (h.committed e he) hn
  refine ⟨{ t with renames := t.renames.filter (·.instSeqNum ≤ n) }, ?_, ⟨?_, ?_, ?_, ?_, ?_⟩, ?_⟩
  · rw [Rename.doSquash, ht, Option.map_some]
  · exact { hsound with }
  · show t.renames.filter _ = old ++ t.historyBuffer.reverse
    rw [hren, h.log, filter_append, hold, hhist, filter_reverse]
  · exact hcom ▸ h.committed
  · show t.historyBuffer.Pairwise _
    rw [hhist]
    exact h.sorted.filter _
  · intro e he
    have he : e ∈ t.historyBuffer := he
    rw [hhist] at he
    show e.instSeqNum ≤ t.lastSeq
    rw [hlast]
    exact h.le_bound e (mem_of_mem_filter he)
  · rw [← hren]

/-- A sorted list is cut in two by a bound. -/
theorem filter_append_filter {es : List RenameHistory}
    (hs : es.Pairwise fun a b => a.instSeqNum ≤ b.instSeqNum) (n : Nat) :
    es.filter (·.instSeqNum ≤ n) ++ es.filter (n < ·.instSeqNum) = es := by
  induction es with
  | nil => rfl
  | cons e es ih =>
    obtain ⟨he, hes⟩ := pairwise_cons.mp hs
    by_cases hle : e.instSeqNum ≤ n
    · rw [filter_cons_of_pos (by simpa using hle), filter_cons_of_neg (by simpa using hle),
        cons_append, ih hes]
    have hnone : es.filter (·.instSeqNum ≤ n) = [] := by
      refine filter_eq_nil_iff.mpr fun f hf => ?_
      have := he f hf
      simp only [decide_eq_true_eq]
      omega
    have hall := ih hes
    rw [hnone, nil_append] at hall
    rw [filter_cons_of_neg (by simpa using hle), filter_cons_of_pos (by simpa using hle), hnone,
      hall, nil_append]

theorem Inv.removeFromHistory (h : Inv c s s.lastSeq old) (n : Nat) :
    ∃ s' old', s.removeFromHistory n = some s' ∧ Inv c s' s'.lastSeq old' ∧
      s'.renames = s.renames := by
  have hsorted : s.historyBuffer.reverse.Pairwise fun a b => a.instSeqNum ≤ b.instSeqNum :=
    pairwise_reverse.mpr h.sorted
  have hsound := h.sound
  rw [← reverse_reverse s.historyBuffer] at hsound
  obtain ⟨t, ht, hsound, hhist, hren, hcom, hlast⟩ := hsound.commitLoop hsorted n
  refine ⟨{ t with committed := max t.committed n }, _, ?_,
    ⟨{ hsound with }, ?_, fun e he => ?_, ?_, fun e he => ?_⟩, hren⟩
  · rw [Rename.removeFromHistory, ht, Option.map_some]
  · show t.renames = _ ++ t.historyBuffer.reverse
    rw [hren, h.log, hhist, reverse_reverse, append_assoc, filter_append_filter hsorted]
  · show e.instSeqNum ≤ max t.committed n
    rcases mem_append.mp he with he | he
    · have := h.committed e he
      omega
    · have : e.instSeqNum ≤ n := by simpa using (mem_filter.mp he).2
      omega
  · show t.historyBuffer.Pairwise _
    rw [hhist]
    exact pairwise_reverse.mpr (hsorted.filter _)
  · have he : e ∈ t.historyBuffer := he
    rw [hhist, mem_reverse] at he
    show e.instSeqNum ≤ t.lastSeq
    rw [hlast]
    exact h.le_bound e (mem_reverse.mp (mem_of_mem_filter he))

theorem inv_start (c : RenameConfig) :
    Inv c { map := c.initialMap, freeList := c.initialFreeList } 0 [] := by
  have hreg {k : RegClass} {i : Nat} (ht : c.tracked k = true) (hi : i < c.numPhys k) :
      c.renameable ⟨k, i⟩ = true := by
    simp [RenameConfig.renameable, ht, hi]
  refine ⟨⟨nofun, fun k p hp => ?_, fun k p hp => ?_, fun p hp => ?_, rfl, trivial⟩, rfl, nofun,
    .nil, nofun⟩
  · simp only [RenameConfig.initialFreeList] at hp
    split at hp
    · next ht =>
      obtain ⟨i, hi, rfl⟩ := mem_map.mp hp
      rw [mem_range'_1] at hi
      exact ⟨rfl, hreg ht (by omega)⟩
    · cases hp
  · simp only [RenameConfig.initialMap] at hp
    split at hp
    · next ht =>
      obtain ⟨i, hi, rfl⟩ := mem_map.mp hp
      have := c.enough k
      rw [mem_range] at hi
      exact ⟨rfl, hreg ht (by omega)⟩
    · cases hp
  · -- each index is below the number of architectural registers or not
    obtain ⟨k, i⟩ := p
    simp only [RenameConfig.renameable, Bool.and_eq_true, decide_eq_true_eq] at hp
    have hinj : Function.Injective (PhysRegId.mk k) := fun a b hab => (PhysRegId.mk.inj hab).2
    simp only [Rename.places, RenameConfig.initialFreeList, RenameConfig.initialMap, hp.1, if_true,
      count_map_of_injective _ _ hinj, countP_nil, Nat.add_zero]
    rw [nodup_range.count, (nodup_range' ..).count]
    simp only [mem_range, mem_range'_1]
    split <;> split <;> omega

end Inv

theorem inv_of_reach {c : RenameConfig} {s : Rename} (h : (renameMachine c).Reach s) :
    ∃ old, Inv c s s.lastSeq old := by
  refine h.invariant (I := fun s => ∃ old, Inv c s s.lastSeq old) (fun s hs => ?_)
    fun s e s' hi _ hstep => ?_
  · subst hs
    exact ⟨[], inv_start c⟩
  obtain ⟨old, hi⟩ := hi
  have hstep : (if s.allows e then s.handle c e else none) = some s' := hstep
  split at hstep
  · next ha =>
    cases e with
    | renameDestRegs n dests =>
      simp only [Rename.allows, decide_eq_true_eq] at ha
      obtain ⟨t, ht, rfl⟩ := Option.map_eq_some_iff.mp hstep
      have hbound : Inv c s n old :=
        { hi with le_bound := fun e he => Nat.le_trans (hi.le_bound e he) (Nat.le_of_lt ha) }
      have ht := hbound.renameDestRegs ht
      exact ⟨old, { ht.sound with }, ht.log, ht.committed, ht.sorted, ht.le_bound⟩
    | doSquash n =>
      obtain ⟨t, ht, hinv, -⟩ := hi.doSquash (by simpa [Rename.allows] using ha)
      rw [show s.handle c (.doSquash n) = s.doSquash c n from rfl, ht] at hstep
      cases hstep
      exact ⟨old, hinv⟩
    | removeFromHistory n =>
      obtain ⟨t, old', ht, hinv, -⟩ := hi.removeFromHistory n
      rw [show s.handle c (.removeFromHistory n) = s.removeFromHistory n from rfl, ht] at hstep
      cases hstep
      exact ⟨old', hinv⟩
  · cases hstep

end Rename

/-- **Renaming is reversible.** In every run a renameable physical register is in one place: on the
free list, in the rename map or held back by an entry of the history buffer. The rename map is that
of the renames of the instructions not squashed so far, in order; and a squash down to `n` goes
through and leaves the renames of the instructions up to `n`. -/
theorem rename_reversible {c : RenameConfig} {s : Rename}
    (h : (renameMachine c).Reach s) :
    (∀ p, c.renameable p = true → s.places s.historyBuffer p = 1) ∧
    (∀ k, ∀ p ∈ s.freeList k ++ s.map k, p.regClass = k) ∧
    s.map = RenameHistory.replay c.initialMap s.renames ∧
    ∀ n, s.committed ≤ n → ∃ s', s.doSquash c n = some s' ∧
      s'.map = RenameHistory.replay c.initialMap (s.renames.filter (·.instSeqNum ≤ n)) := by
  obtain ⟨old, hinv⟩ := Rename.inv_of_reach h
  have hreplay {t : Rename} {old : List RenameHistory} (ht : Rename.Inv c t t.lastSeq old) :
      t.map = RenameHistory.replay c.initialMap t.renames := by
    rw [ht.sound.map_eq, ht.log]
    exact (replay_append ..).symm
  refine ⟨hinv.sound.places, fun k p hp => ?_, hreplay hinv, fun n hn => ?_⟩
  · rcases mem_append.mp hp with hp | hp
    · exact (hinv.sound.free k p hp).1
    · exact (hinv.sound.mapped k p hp).1
  · obtain ⟨s', hs', hinv', hren⟩ := hinv.doSquash hn
    exact ⟨s', hs', hren ▸ hreplay hinv'⟩

/-- Two vector registers of two elements each, with two elements and two integer registers to
spare. -/
def elemConfig : RenameConfig where
  numArch
    | .vecElemClass => 4
    | .intRegClass => 2
    | _ => 0
  numPhys
    | .vecElemClass => 6
    | .intRegClass => 4
    | _ => 0
  numVecElemPerVecReg := 2
  vecMode := .elem
  zeroReg := 0
  enough k := by cases k <;> decide
  zero_lt := by decide

def elemStart : Rename := { map := elemConfig.initialMap, freeList := elemConfig.initialFreeList }

/-- An integer register is renamed twice, the zero register once; the second rename is squashed. -/
def intRun : List RenameEvent :=
  [.renameDestRegs 1 [(⟨⟨.intRegClass, 1⟩, 0⟩, 1), (⟨⟨.intRegClass, 0⟩, 0⟩, 0)],
    .renameDestRegs 2 [(⟨⟨.intRegClass, 1⟩, 0⟩, 1)], .doSquash 1]

def afterInt : Rename := ((renameMachine elemConfig).run elemStart intRun).getD elemStart

theorem rename_reversible_intRun :
    afterInt.places afterInt.historyBuffer ⟨.intRegClass, 1⟩ = 1 ∧
      afterInt.map = RenameHistory.replay elemConfig.initialMap afterInt.renames := by
  have hr : (renameMachine elemConfig).run elemStart intRun = some afterInt :=
    Machine.run_getD (by decide +kernel)
  have h := rename_reversible (Machine.reach_run rfl hr)
  exact ⟨h.1 _ (by decide), h.2.2.1⟩

end SdoCore
