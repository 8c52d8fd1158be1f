import Mathlib.Data.List.Find
import SdoCore.RobRun

/-! Taint tracking against the data flow it stands for.

`DependsOn` is the register data dependence between instructions of the buffer,
in terms of architectural registers: `x` reads a register, other than the integer
zero register, whose youngest older non-squashed writer is `p`. Taint is exact
when an instruction's arguments are tainted exactly if a chain of dependences
leads to a load that has not reached its visibility point.

Rename only gives physical registers (`RenameNames`). Insertion finds producers
by them, but leaves out every register of index 16, of any class, and also looks
at squashed instructions that have not drained yet. `LinksSeen` says when that
makes no difference; `taint_exact` shows that taint is then exact in every run,
and `taint_not_exact` that it is not without it: index 16 of the floating-point
class is the low half of XMM4. -/

namespace SdoCore

open Lib
open List

namespace Rob

/-! ## Data dependences -/

/-- The youngest instruction older than `x` that satisfies `P`. -/
def youngestOlder (r : Rob) (x : Nat) (P : DynInst → Bool) : Option Nat :=
  (r.instList.filter (· < x)).reverse.find? fun p => P (r.insts p)

/-- The producer of `reg` for `x`: its youngest older non-squashed writer. -/
def producer (r : Rob) (x : Nat) (reg : RegId) : Option Nat :=
  r.youngestOlder x fun i => !i.squashed && i.writes reg

def DependsOn (r : Rob) (x p : Nat) : Prop :=
  (∃ s ∈ (r.insts x).srcs, s.srcRegIdx.isZeroReg = false ∧ r.producer x s.flat = some p) ∧
    (r.insts p).committed = false

/-- The arguments of a non-squashed instruction are tainted exactly if they
derive from a load that is still squashable. -/
def TaintExact (r : Rob) : Prop :=
  ∀ x ∈ r.instList, (r.insts x).squashed = false →
    ((r.insts x).isArgsTainted = true ↔
      ∃ l, Relation.TransGen r.DependsOn x l ∧
        (r.insts l).staticInst.isLoad = true ∧ (r.insts l).isUnsquashable = false)

/-! ## What insertion is given -/

/-- Rename gives a source the physical register of its youngest non-squashed
writer; if that one has retired, a register no non-squashed instruction of the
buffer writes. -/
def RenameNames (r : Rob) : RobEvent → Prop
  | .insertInst _ inst => inst.squashed = false →
      ∀ s ∈ inst.srcs, s.srcRegIdx.isZeroReg = false →
        r.youngest (fun i => !i.squashed && i.writesPhys s.renamedSrcRegIdx) =
          r.youngest fun i => !i.squashed && i.writes s.flat
  | _ => True

/-- The two shortcuts of the linking loop do no harm: a source of index 16 has no
writer left in the buffer, and no squashed instruction hides a writer. -/
def LinksSeen (r : Rob) : RobEvent → Prop
  | .insertInst _ inst => inst.squashed = false →
      ∀ s ∈ inst.srcs, s.srcRegIdx.isZeroReg = false →
        r.youngest (fun i => !i.squashed && i.writesPhys s.renamedSrcRegIdx) =
          if s.srcRegIdx.regIdx = 16 then none
          else r.youngest fun i => i.writesPhys s.renamedSrcRegIdx
  | _ => True

instance (r : Rob) (e : RobEvent) : Decidable (r.RenameNames e) := by
  cases e <;> unfold RenameNames <;> infer_instance

instance (r : Rob) (e : RobEvent) : Decidable (r.LinksSeen e) := by
  cases e <;> unfold LinksSeen <;> infer_instance

/-! ## Links name producers -/

/-- A link counts while its target has not committed. -/
def liveLink (r : Rob) (s : SrcReg) : Option Nat :=
  s.argProducer.filter fun p => !(r.insts p).committed

def LinksExact (r : Rob) : Prop :=
  ∀ x ∈ r.instList, (r.insts x).squashed = false →
    ∀ s ∈ (r.insts x).srcs, s.srcRegIdx.isZeroReg = false →
      r.liveLink s = r.producer x s.flat

variable {r r' : Rob} {x : Nat}

theorem producer_congr (reg : RegId) (hl : r'.instList = r.instList) (h : ∀ p ∈ r.instList, p < x →
      (r'.insts p).squashed = (r.insts p).squashed ∧ (r'.insts p).dests = (r.insts p).dests) :
    r'.producer x reg = r.producer x reg := by
  unfold producer youngestOlder
  rw [hl]
  apply find?_congr
  intro p hp
  simp only [mem_reverse, mem_filter, decide_eq_true_eq] at hp
  obtain ⟨hs, hd⟩ := h p hp.1 hp.2
  simp only [DynInst.writes, hs, hd]

theorem LinksExact.sameShape (h : LinksExact r) (hs : SameShape r r') :
    LinksExact r' := by
  intro x hx hsq s hsrc hz
  rw [hs.instList] at hx
  rw [hs.squashed] at hsq
  rw [hs.srcs] at hsrc
  rw [producer_congr s.flat hs.instList fun p _ _ => ⟨hs.squashed p, hs.dests p⟩,
    ← h x hx hsq s hsrc hz]
  simp only [liveLink, hs.committed]

/-- A squash reaches an instruction only through everything younger, so the older
ones of a survivor are as they were. -/
theorem LinksExact.squashes (h : LinksExact r) (hs : Squashes r r') :
    LinksExact r' := by
  intro x hx hsq s hsrc hz
  rw [hs.instList] at hx
  rw [hs.srcs] at hsrc
  have hsq₀ : (r.insts x).squashed = false := by
    cases hb : (r.insts x).squashed with
    | false => rfl
    | true => exact absurd (hs.mono x hb) (by simp [hsq])
  rw [producer_congr s.flat hs.instList fun p hp hlt => ⟨hs.suffix x hx hsq p hp hlt, hs.dests p⟩,
    ← h x hx hsq₀ s hsrc hz]
  simp only [liveLink, hs.committed]

/-- The head is older than every other instruction. -/
theorem producer_of_retires {h : Nat} {rest : List Nat} (hi : Inv r) (hr : Retires r r' h rest)
    (hx : x ∈ rest) (reg : RegId) :
    r.producer x reg =
      (r'.producer x reg).or (if !(r.insts h).squashed && (r.insts h).writes reg then some h
        else none) := by
  have hsorted := hi.sorted
  rw [hr.instList, pairwise_cons] at hsorted
  have hhx : h < x := hsorted.1 x hx
  unfold producer youngestOlder
  rw [hr.instList, hr.instList', filter_cons_of_pos (by simpa using hhx), reverse_cons,
    find?_append]
  congr 1
  · apply find?_congr
    intro p _
    simp only [DynInst.writes, hr.squashed, hr.dests]
  · cases hb : !(r.insts h).squashed && (r.insts h).writes reg <;> simp [hb]

theorem LinksExact.retireHead {h : Nat} {rest : List Nat} (hl : LinksExact r) (hi : Inv r)
    (hr : Retires r r' h rest) : LinksExact r' := by
  intro x hx hsq s hsrc hz
  rw [hr.instList'] at hx
  have hsorted := hi.sorted
  rw [hr.instList, pairwise_cons] at hsorted
  have hxh : x ≠ h := by
    have := hsorted.1 x hx
    omega
  have hxl : x ∈ r.instList := by
    rw [hr.instList]
    exact mem_cons_of_mem _ hx
  obtain ⟨s₀, hs₀, hidx, hflat, hlink⟩ := hr.srcs x hxh s hsrc
  have hexact := hl x hxl (hr.squashed x ▸ hsq) s₀ hs₀ (hidx ▸ hz)
  rw [← hflat, producer_of_retires hi hr hx] at hexact
  -- a producer that stays in the buffer is not the head
  have hstay : ∀ p, r'.producer x s.flat = some p → p ≠ h ∧ (r.insts p).committed = false := by
    intro p hp
    have hmem := mem_of_find?_eq_some hp
    simp only [hr.instList', mem_reverse, mem_filter] at hmem
    refine ⟨?_, hi.uncommitted p ?_⟩
    · have := hsorted.1 p hmem.1
      omega
    · rw [hr.instList]
      exact mem_cons_of_mem _ hmem.1
  cases hp : r'.producer x s.flat with
  | some p =>
    obtain ⟨hph, hpc⟩ := hstay p hp
    rw [hp] at hexact
    have hs₀p : s₀.argProducer = some p := by
      have := Option.filter_eq_some_iff.mp hexact
      exact this.1
    have hsp : s.argProducer = some p := by
      rcases hlink with hlink | ⟨hh, -⟩
      · rw [hlink, hs₀p]
      rw [hs₀p] at hh
      cases hh
      exact absurd rfl hph
    simp [liveLink, hsp, hr.committed, hpc, hph]
  | none =>
    rw [hp, Option.none_or] at hexact
    have hall : ∀ p, s.argProducer = some p → (r'.insts p).committed = true := by
      intro p hsp
      rw [hr.committed]
      rcases hlink with hlink | ⟨-, hnone⟩
      · cases hc : (r.insts p).committed with
        | true => rfl
        | false =>
          have hlive : r.liveLink s₀ = some p := by
            rw [liveLink, ← hlink, hsp]
            simp [hc]
          rw [hlive] at hexact
          split at hexact
          · cases hexact
            simp
          · cases hexact
      · rw [hnone] at hsp
        cases hsp
    cases hsp : s.argProducer with
    | none => simp [liveLink, hsp]
    | some p => simp [liveLink, hsp, hall p hsp]

theorem LinksExact.insertInst {inst : DynInst} (hl : LinksExact r) (hi : Inv r)
    (hins : r.Insertable x inst) (hr : Inserts r r' x inst)
    (hren : r.RenameNames (.insertInst x inst)) (hseen : r.LinksSeen (.insertInst x inst)) :
    LinksExact r' := by
  obtain ⟨hdone, hyoung, -, hnew⟩ := hins
  have hother : ∀ p ∈ r.instList, r'.insts p = r.insts p := fun p hp => hr.other p (by
    have := hyoung p hp
    omega)
  intro y hy hsq s hsrc hz
  rw [hr.instList, mem_append, mem_singleton] at hy
  rcases hy with hy | rfl
  · -- an instruction that was there: the new one is younger
    rw [hother y hy] at hsq hsrc
    have hyx := hyoung y hy
    have hfilter : r'.instList.filter (· < y) = r.instList.filter (· < y) := by
      rw [hr.instList, filter_append]
      simp only [filter_cons, filter_nil, decide_eq_true_eq]
      rw [if_neg (by omega), append_nil]
    have hprod : r'.producer y s.flat = r.producer y s.flat := by
      unfold producer youngestOlder
      rw [hfilter]
      apply find?_congr
      intro p hp
      simp only [mem_reverse, mem_filter] at hp
      rw [hother p hp.1]
    rw [hprod, ← hl y hy hsq s hsrc hz]
    cases hp : s.argProducer with
    | none => simp [liveLink, hp]
    | some p =>
      have hpx : p ≠ x := by
        have := (hi.linked y hy s hsrc p hp).2.1
        omega
      simp [liveLink, hp, Option.filter_some, hr.other p hpx]
  · -- the new instruction: everything in the buffer is older
    rw [hr.self] at hsq hsrc
    obtain ⟨s₀, hs₀, hidx, hflat, hlink⟩ := mem_linkSrcs hnew hsrc
    rw [hidx] at hz
    have hprod : r'.producer y s.flat = r.youngest fun i => !i.squashed && i.writes s.flat := by
      unfold producer youngestOlder youngest
      rw [hr.instList, filter_append, filter_eq_self.mpr (by simpa using hyoung)]
      simp only [filter_cons, filter_nil, decide_eq_true_eq]
      rw [if_neg (by omega), append_nil]
      apply find?_congr
      intro p hp
      rw [hother p (by simpa using hp)]
    rw [hprod, hflat, ← hren hsq s₀ hs₀ hz, hseen hsq s₀ hs₀ hz, liveLink, hlink]
    split
    · rfl
    · cases hp : r.youngest fun i => i.writesPhys s₀.renamedSrcRegIdx with
      | none => rfl
      | some p =>
        have hpm := mem_of_youngest hp
        simp [hother p hpm, hi.uncommitted p hpm]

theorem LinksExact.step {c : Config} {e : RobEvent} (hl : LinksExact r) (hi : Inv r)
    (hren : r.RenameNames e) (hseen : r.LinksSeen e) (hs : r.step c e = some r') :
    LinksExact r' := by
  cases e with
  | insertInst x inst =>
    simp only [Rob.step] at hs
    split at hs
    · next hins => exact hl.insertInst hi hins (insertInst_spec hs) hren hseen
    · cases hs
  | retireHead =>
    simp only [Rob.step] at hs
    split at hs
    · cases hs
    · obtain ⟨h, rest, hret⟩ := retireHead_spec hi.nodup hs
      exact hl.retireHead hi hret
  | squash n => exact hl.squashes (hi.squash hs).2
  | doSquash => exact hl.squashes (hi.doSquash hs).2
  | setStatus x st =>
    cases hs
    exact hl.sameShape (setStatus_shape r x st)
  | cycle =>
    cases hs
    exact hl.sameShape (endCycle_shape c r)

theorem linksExact_of_reach {c : Config}
    (h : (robMachine c).ReachWhen (fun r e => r.RenameNames e ∧ r.LinksSeen e) r) :
    LinksExact r := by
  have hboth : Inv r ∧ LinksExact r := by
    refine h.invariant (I := fun r => Inv r ∧ LinksExact r) ?_ ?_
    · intro r hr
      refine ⟨inv_start hr, fun x hx => ?_⟩
      rw [hr.1] at hx
      cases hx
    · rintro r e r' ⟨hi, hl⟩ ⟨hren, hseen⟩ hs
      exact ⟨hi.step hs, hl.step hi hren hseen hs⟩
  exact hboth.2

/-! ## The pass -/

theorem taintInst_isArgsTainted (m : Nat → DynInst) (x : Nat) :
    (taintInst m x).isArgsTainted = explicitFlow m (m x) := by
  unfold taintInst
  dsimp only
  split <;> rfl

theorem taintInst_isAddrTainted (m : Nat → DynInst) (x : Nat) :
    (taintInst m x).isAddrTainted = addressFlow m (m x) := by
  unfold taintInst
  dsimp only
  split <;> rfl

theorem taintInst_isDestTainted (m : Nat → DynInst) (x : Nat) :
    (taintInst m x).isDestTainted =
      (explicitFlow m (m x) || ((m x).staticInst.isLoad && !(m x).isUnsquashable)) := by
  cases hload : (m x).staticInst.isLoad <;> cases hunsq : (m x).isUnsquashable <;>
    simp [taintInst, DynInst.isAccess, hload, hunsq]

theorem taintInst_isUnsquashable (m : Nat → DynInst) (x : Nat) :
    (taintInst m x).isUnsquashable = (m x).isUnsquashable := by
  unfold taintInst
  dsimp only
  split <;> rfl

/-- After the pass, the flags of an instruction are those of its links as they
stand after the pass: a link points to an instruction visited before, or to one
that has committed and does not count. -/
theorem computeTaint_eq (hi : Inv r) (hx : x ∈ r.instList) :
    (r.computeTaint.insts x).isArgsTainted =
        explicitFlow r.computeTaint.insts (r.insts x) ∧
      (r.computeTaint.insts x).isAddrTainted =
        addressFlow r.computeTaint.insts (r.insts x) ∧
      (r.computeTaint.insts x).isDestTainted =
        ((r.computeTaint.insts x).isArgsTainted ||
          ((r.insts x).staticInst.isLoad && !(r.insts x).isUnsquashable)) := by
  obtain ⟨pre, post, hl⟩ := append_of_mem hx
  have hsorted := hi.sorted
  rw [hl, pairwise_append, pairwise_cons] at hsorted
  obtain ⟨-, ⟨hpost, -⟩, hpre⟩ := hsorted
  have hxpost : x ∉ post := fun hm => Nat.lt_irrefl _ (hpost x hm)
  have hxpre : x ∉ pre := fun hm => Nat.lt_irrefl _ (hpre x hm x (by simp))
  have hval : r.computeTaint.insts x = taintInst (sweep taintInst r.insts pre) x := by
    change sweep taintInst r.insts r.instList x = _
    rw [hl, sweep_split _ _ hxpost]
  have hself : sweep taintInst r.insts pre x = r.insts x := sweep_of_notMem _ _ hxpre
  have hlink : ∀ s ∈ (r.insts x).srcs, taintedLink (sweep taintInst r.insts pre) s =
      taintedLink r.computeTaint.insts s := by
    intro s hs
    unfold taintedLink
    cases hp : s.argProducer with
    | none => rfl
    | some p =>
      obtain ⟨-, hlt, hmem⟩ := hi.linked x hx s hs p hp
      have hcom : ∀ ys, (sweep taintInst r.insts ys p).committed = (r.insts p).committed :=
        fun ys =>
        sweep_keeps DynInst.committed taintInst
          (fun m y => congrArg (·.2.2.2.2) (taintInst_shape m y)) r.insts ys p
      rcases hmem with hmem | hc
      · -- in the buffer and older, so visited before `x`
        have hppost : p ∉ x :: post := by
          rintro hm
          rcases mem_cons.mp hm with rfl | hm
          · exact Nat.lt_irrefl _ hlt
          · have := hpost p hm
            omega
        have : r.computeTaint.insts p = sweep taintInst r.insts pre p := by
          change sweep taintInst r.insts r.instList p = _
          rw [hl, sweep_visited _ _ hppost]
        simp only [this]
      · change _ = ((sweep taintInst r.insts r.instList p).isDestTainted &&
          !(sweep taintInst r.insts r.instList p).committed)
        simp [hcom, hc]
  have hlinks : ∀ l : List SrcReg, (∀ s ∈ l, s ∈ (r.insts x).srcs) →
      l.any (taintedLink (sweep taintInst r.insts pre)) =
        l.any (taintedLink r.computeTaint.insts) := by
    intro l hl
    rw [Bool.eq_iff_iff, any_eq_true, any_eq_true]
    exact exists_congr fun s => and_congr_right fun hs => by rw [hlink s (hl s hs)]
  rw [hval, taintInst_isArgsTainted, taintInst_isAddrTainted, taintInst_isDestTainted, hself]
  unfold addressFlow explicitFlow
  rw [hlinks _ (fun _ h => h), hlinks _ (fun _ h => mem_of_mem_tail h)]
  exact ⟨rfl, rfl, rfl⟩

/-- Exact links give exact taint. -/
theorem taintExact_of_links (hi : Inv r) (hl : LinksExact r) :
    TaintExact r.computeTaint := by
  have hshape := computeTaint_shape r
  have hi' := hi.sameShape hshape
  have hl' := hl.sameShape hshape
  have hdep : ∀ x p, r.computeTaint.DependsOn x p → p ∈ r.instList ∧ p < x ∧
      (r.insts p).squashed = false := by
    rintro x p ⟨⟨s, -, -, hp⟩, -⟩
    have hmem := mem_of_find?_eq_some hp
    have hsat := find?_some hp
    simp only [hshape.instList, mem_reverse, mem_filter, decide_eq_true_eq] at hmem
    simp only [Bool.and_eq_true, Bool.not_eq_true', hshape.squashed] at hsat
    exact ⟨hmem.1, hmem.2, hsat.1⟩
  have hwf : WellFounded fun p x => r.computeTaint.DependsOn x p :=
    Subrelation.wf (fun {p x} h => (hdep x p h).2.1) Nat.lt_wfRel.wf
  intro x hx hsq
  rw [hshape.instList] at hx
  rw [hshape.squashed] at hsq
  refine flow_iff_chain (S := fun x => x ∈ r.instList ∧ (r.insts x).squashed = false)
    (T := fun x => (r.computeTaint.insts x).isArgsTainted = true) hwf ?_ ?_ x ⟨hx, hsq⟩
  · rintro x p - hp
    exact ⟨(hdep x p hp).1, (hdep x p hp).2.2⟩
  rintro x ⟨hx, hsq⟩
  have htaint : ∀ p ∈ r.instList, ((r.computeTaint.insts p).isDestTainted = true ↔
      (r.computeTaint.insts p).isArgsTainted = true ∨
        (r.computeTaint.insts p).staticInst.isLoad = true ∧
          (r.computeTaint.insts p).isUnsquashable = false) := by
    intro p hp
    have hunsq : (r.computeTaint.insts p).isUnsquashable = (r.insts p).isUnsquashable :=
      sweep_keeps DynInst.isUnsquashable taintInst taintInst_isUnsquashable r.insts r.instList p
    rw [(computeTaint_eq hi hp).2.2, hshape.staticInst, hunsq]
    simp
  rw [(computeTaint_eq hi hx).1, explicitFlow, any_eq_true]
  constructor
  · rintro ⟨s, hs, htl⟩
    unfold taintedLink at htl
    split at htl
    · next p hp =>
      obtain ⟨h16, hlt, hmem⟩ := hi.linked x hx s hs p hp
      simp only [Bool.and_eq_true, Bool.not_eq_true'] at htl
      obtain ⟨hd, hc⟩ := htl
      have hmem : p ∈ r.instList := by
        rcases hmem with hmem | hcom
        · exact hmem
        · rw [hshape.committed, hcom] at hc
          cases hc
      have hz : s.srcRegIdx.isZeroReg = false := by
        simp only [RegId.isZeroReg, zeroReg, numIntRegs, Bool.and_eq_false_iff,
          beq_eq_false_iff_ne]
        exact .inr h16
      have hprod := hl' x (hshape.instList ▸ hx) (hshape.squashed x ▸ hsq) s
        (hshape.srcs x ▸ hs) hz
      rw [liveLink, hp] at hprod
      simp only [hc, Option.filter_some, Bool.not_false, ↓reduceIte] at hprod
      exact ⟨p, ⟨⟨s, hshape.srcs x ▸ hs, hz, hprod.symm⟩, hc⟩, (htaint p hmem).mp hd⟩
    · cases htl
  · rintro ⟨p, hp, hsrc⟩
    obtain ⟨⟨s, hs, hz, hprod⟩, hc⟩ := hp
    have hmem := (hdep x p ⟨⟨s, hs, hz, hprod⟩, hc⟩).1
    rw [← hl' x (hshape.instList ▸ hx) (hshape.squashed x ▸ hsq) s hs hz] at hprod
    have hlink := (Option.filter_eq_some_iff.mp hprod).1
    refine ⟨s, hshape.srcs x ▸ hs, ?_⟩
    simp only [taintedLink, hlink, hc, (htaint p hmem).mpr hsrc, Bool.not_false, Bool.and_self]

end Rob

/-- In every run in which rename names producers and the linking loop sees them,
taint is exact after every cycle. -/
theorem taint_exact {c : Config} (hstt : c.stt = true) {r r' : Rob}
    (h : (robMachine c).ReachWhen (fun r e => r.RenameNames e ∧ r.LinksSeen e) r)
    (hs : r.step c .cycle = some r') : r'.TaintExact := by
  have hi := Rob.inv_of_reach h
  have hl := Rob.linksExact_of_reach h
  have hvis := Rob.updateVisibleState_shape c r
  cases hs
  rw [Rob.endCycle, if_pos hstt]
  exact Rob.taintExact_of_links (hi.sameShape hvis) (hl.sameShape hvis)

/-! ## A load into a floating-point register behind an unresolved branch -/

def spectreConfig : Config where
  stt := true
  impChannel := true
  isFuturistic := false
  loadInExec := true
  isInvisibleSpec := true
  squashWidth := 8
  numEntries := 192

def loadInst : StaticInst := { isLoad := true, isMemRef := true }
def storeInst : StaticInst := { isStore := true, isMemRef := true }

def emptyRob : Rob where
  insts := fun _ => { staticInst := plainInst, srcs := [], dests := [] }
  instList := []
  squashIt := none
  squashedSeqNum := 0
  doneSquashing := true

/-- A branch, a load of the floating-point register `idx` into physical register
40, and an instruction that reads it. -/
def floatUse (idx : Nat) : List RobEvent :=
  let reg : RegId := ⟨.floatRegClass, idx⟩
  [.insertInst 1 { staticInst := branchInst, srcs := [], dests := [] },
   .insertInst 2 { staticInst := loadInst, srcs := [], dests := [⟨reg, 40⟩] },
   .insertInst 3 { staticInst := plainInst, srcs := [⟨reg, reg, 40, none⟩], dests := [] }]

def floatUseRob (idx : Nat) : Rob :=
  ((robMachine spectreConfig).run emptyRob (floatUse idx)).getD emptyRob

/-- With the register above XMM4's the load is seen: its use is tainted. -/
theorem taint_exact_xmm5 :
    ((floatUseRob (floatRegXmm4Low + 2)).endCycle spectreConfig).TaintExact ∧
      (((floatUseRob (floatRegXmm4Low + 2)).endCycle spectreConfig).insts 3).isArgsTainted = true :=
  ⟨taint_exact rfl (.run (.start (s := emptyRob) ⟨rfl, rfl, rfl⟩) (floatUse (floatRegXmm4Low + 2))
    (by decide) rfl) rfl, by decide⟩

/-- The use of XMM4's low half is not linked to the load, so it is not tainted. -/
theorem taint_not_exact :
    ¬ ∀ (c : Config) (r r' : Rob), c.stt = true → (robMachine c).ReachWhen Rob.RenameNames r →
      r.step c .cycle = some r' → r'.TaintExact := by
  intro h
  have hreach : (robMachine spectreConfig).ReachWhen Rob.RenameNames
    (floatUseRob floatRegXmm4Low) :=
    .run (.start (s := emptyRob) ⟨rfl, rfl, rfl⟩) (floatUse floatRegXmm4Low) (by decide) rfl
  have hexact := h spectreConfig _ _ rfl hreach rfl
  have huse := hexact 3 (by decide) (by decide)
  have hclean : (((floatUseRob floatRegXmm4Low).endCycle spectreConfig).insts 3).isArgsTainted =
      false := by decide
  have hchain : ((floatUseRob floatRegXmm4Low).endCycle spectreConfig).DependsOn 3 2 :=
    ⟨⟨⟨⟨.floatRegClass, floatRegXmm4Low⟩, ⟨.floatRegClass, floatRegXmm4Low⟩, 40, none⟩,
      by decide, by decide, by decide⟩, by decide⟩
  exact absurd (huse.mpr ⟨2, .single hchain, by decide, by decide⟩) (by rw [hclean]; simp)

end SdoCore
