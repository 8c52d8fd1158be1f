import SdoCore.Pipeline.Cycle
import SdoCore.RobGone

/-! What one tick of IEW can do.

To the buffer it does little (`Frame`): it marks nothing as squashed that was not going to
be, and of the branches that stay it only executes some that were not ready to commit.
Every cause of a squash it meets is recorded in `raised`, and of all of them the signal for
commit is for the oldest (`Spec.covered`): a younger cause is dropped. While a cause waits
for its signal to be seen, something at or before its instruction keeps that instruction
from committing (`Raised.guard`). -/

namespace SdoCore

open List
open Option (all_some bind_eq_some_iff)

namespace Iew

open Rob

variable {c : Config} {r₀ r r' r'' : Rob} {w w' : Iew} {x y : Nat} {cause : SquashCause}

/-! ## The buffer -/

structure Frame (r r' : Rob) : Prop where
  instList : r'.instList = r.instList
  squashIt : r'.squashIt = r.squashIt
  squashedSeqNum : r'.squashedSeqNum = r.squashedSeqNum
  doneSquashing : r'.doneSquashing = r.doneSquashing
  fixed : ∀ x, (r'.insts x).fixed = (r.insts x).fixed
  mono : ∀ x, (r.insts x).squashed = true → (r'.insts x).squashed = true
  squashed : ∀ x ∈ r.instList, (r'.insts x).squashed = true → r.gone x = true
  pending : ∀ x, (r'.insts x).status.hasPendingSquash = (r.insts x).status.hasPendingSquash
  straight : ∀ x, (r.insts x).staticInst.isControl = false →
    (r'.insts x).status.pc = (r.insts x).status.pc
  branch : ∀ x ∈ r.instList, (r.insts x).staticInst.isControl = true → r.gone x = false →
    (r'.insts x).status.canCommit = (r.insts x).status.canCommit ∧
      ((r'.insts x).status.executed = (r.insts x).status.executed ∧
          (r'.insts x).status.pc = (r.insts x).status.pc ∨
        (r.insts x).status.executed = false ∧ (r.insts x).status.canCommit = false ∧
          (r'.insts x).status.executed = true)

section
variable (h : Frame r r')
include h

theorem Frame.staticInst (x : Nat) : (r'.insts x).staticInst = (r.insts x).staticInst :=
  (congrArg DynInst.staticInst (h.fixed x) :)

theorem Frame.predPC (x : Nat) : (r'.insts x).predPC = (r.insts x).predPC :=
  (congrArg DynInst.predPC (h.fixed x) :)

theorem Frame.isArgsTainted (x : Nat) : (r'.insts x).isArgsTainted = (r.insts x).isArgsTainted :=
  (congrArg DynInst.isArgsTainted (h.fixed x) :)

theorem Frame.isAddrTainted (x : Nat) : (r'.insts x).isAddrTainted = (r.insts x).isAddrTainted :=
  (congrArg DynInst.isAddrTainted (h.fixed x) :)

theorem Frame.taintPropDone (x : Nat) : (r'.insts x).taintPropDone = (r.insts x).taintPropDone :=
  (congrArg DynInst.taintPropDone (h.fixed x) :)

theorem Frame.doomed (x : Nat) : r'.doomed x = r.doomed x := by
  rw [Rob.doomed, Rob.doomed, h.doneSquashing, h.squashedSeqNum]

/-- Nothing new is going to be squashed. -/
theorem Frame.gone (hx : x ∈ r.instList) : r'.gone x = r.gone x := by
  rw [Bool.eq_iff_iff]
  constructor
  · intro hg
    rcases Bool.or_eq_true _ _ ▸ hg with hs | hd
    · exact h.squashed x hx hs
    · rw [h.doomed] at hd
      rw [Rob.gone, hd, Bool.or_true]
  · intro hg
    rcases Bool.or_eq_true _ _ ▸ hg with hs | hd
    · exact gone_of_squashed (h.mono x hs)
    · rw [Rob.gone, h.doomed, hd, Bool.or_true]

end

theorem Frame.refl (r : Rob) : Frame r r :=
  ⟨rfl, rfl, rfl, rfl, fun _ => rfl, fun _ h => h, fun _ _ h => gone_of_squashed h, fun _ => rfl,
    fun _ _ => rfl, fun _ _ _ _ => ⟨rfl, .inl ⟨rfl, rfl⟩⟩⟩

theorem Frame.trans (h : Frame r r') (h' : Frame r' r'') : Frame r r'' where
  instList := h'.instList.trans h.instList
  squashIt := h'.squashIt.trans h.squashIt
  squashedSeqNum := h'.squashedSeqNum.trans h.squashedSeqNum
  doneSquashing := h'.doneSquashing.trans h.doneSquashing
  fixed x := (h'.fixed x).trans (h.fixed x)
  mono x hx := h'.mono x (h.mono x hx)
  squashed x hx hs := h.gone hx ▸ h'.squashed x (h.instList ▸ hx) hs
  pending x := (h'.pending x).trans (h.pending x)
  straight x hx := (h'.straight x (h.staticInst x ▸ hx)).trans (h.straight x hx)
  branch x hx hctl hg := by
    obtain ⟨hc, hcase⟩ := h.branch x hx hctl hg
    obtain ⟨hc', hcase'⟩ := h'.branch x (h.instList ▸ hx) (h.staticInst x ▸ hctl) (h.gone hx ▸ hg)
    refine ⟨hc'.trans hc, ?_⟩
    rcases hcase with ⟨he, hp⟩ | ⟨he, hcc, he'⟩
    · rw [he, hp, hc] at hcase'
      exact hcase'
    rcases hcase' with ⟨he'', -⟩ | ⟨hn, -, -⟩
    · exact .inr ⟨he, hcc, he''.trans he'⟩
    · rw [hn] at he'
      cases he'

theorem Frame.inv (h : Frame r r') (hi : Inv r) : Inv r' where
  sorted := h.instList ▸ hi.sorted
  uncommitted x hx :=
    (congrArg DynInst.committed (h.fixed x) :).trans (hi.uncommitted x (h.instList ▸ hx))
  linked x hx s hs p hp := by
    have hsrc : (r'.insts x).srcs = (r.insts x).srcs := (congrArg DynInst.srcs (h.fixed x) :)
    have hcom : (r'.insts p).committed = (r.insts p).committed :=
      (congrArg DynInst.committed (h.fixed p) :)
    rw [h.instList, hcom]
    exact hi.linked x (h.instList ▸ hx) s (hsrc ▸ hs) p hp
  squashing k hk := by
    rw [h.squashIt] at hk
    obtain ⟨hkl, hy⟩ := hi.squashing k hk
    rw [h.instList]
    exact ⟨hkl, fun y hyl hlt => h.mono y (hy y hyl hlt)⟩
  done hd := by
    rw [h.squashIt]
    exact hi.done (h.doneSquashing ▸ hd)

/-- Kept from committing by its own state. -/
def Held (r : Rob) (g : Nat) : Prop :=
  (r.insts g).status.canCommit = false ∨ (r.insts g).isLoadSafeToCommit = false

/-- What the execution of `x` leaves alone besides. -/
structure Executes (x : Nat) (r r' : Rob) : Prop extends Frame r r' where
  others : ∀ y, y ≠ x → (r'.insts y).status.executed = (r.insts y).status.executed ∧
    (r'.insts y).status.pc = (r.insts y).status.pc
  sameSquashed : ∀ y, (r'.insts y).squashed = (r.insts y).squashed
  inLSQ : ∀ y, (r'.insts y).status.inLSQ = (r.insts y).status.inLSQ
  canCommit : ∀ y, r.gone y = false →
    (r'.insts y).status.canCommit = (r.insts y).status.canCommit
  held : ∀ y, r.gone y = false → Held r y → Held r' y

theorem Executes.refl (x : Nat) (r : Rob) : Executes x r r :=
  ⟨.refl r, fun _ _ => ⟨rfl, rfl⟩, fun _ => rfl, fun _ => rfl, fun _ _ => rfl, fun _ _ h => h⟩

theorem Executes.gone_all (h : Executes x r r') (y : Nat) : r'.gone y = r.gone y := by
  rw [Rob.gone, Rob.gone, h.sameSquashed, h.doomed]

theorem Executes.trans (h : Executes x r r') (h' : Executes x r' r'') : Executes x r r'' where
  toFrame := h.toFrame.trans h'.toFrame
  others y hy :=
    ⟨(h'.others y hy).1.trans (h.others y hy).1, (h'.others y hy).2.trans (h.others y hy).2⟩
  sameSquashed y := (h'.sameSquashed y).trans (h.sameSquashed y)
  inLSQ y := (h'.inLSQ y).trans (h.inLSQ y)
  canCommit y hy := (h'.canCommit y (h.gone_all y ▸ hy)).trans (h.canCommit y hy)
  held y hy hh := h'.held y (h.gone_all y ▸ hy) (h.held y hy hh)

/-! ## One status -/

theorem setStatus_self (w : Iew) (x : Nat) (f : Status → Status) :
    (w.setStatus x f).rob.insts x = { w.rob.insts x with status := f (w.rob.insts x).status } := by
  simp [setStatus, Rob.modify]

theorem setStatus_other (w : Iew) {x y : Nat} (f : Status → Status) (h : y ≠ x) :
    (w.setStatus x f).rob.insts y = w.rob.insts y := by
  simp [setStatus, Rob.modify, h]

theorem setStatus_squashed (w : Iew) (x : Nat) (f : Status → Status) (y : Nat) :
    ((w.setStatus x f).rob.insts y).squashed = (w.rob.insts y).squashed := by
  by_cases hy : y = x
  · rw [hy, setStatus_self]
  · rw [setStatus_other w f hy]

variable {f : Status → Status} {sig : IewSquash} {miss : Option Nat}

theorem frame_setStatus (hpend : (f (w.rob.insts x).status).hasPendingSquash =
      (w.rob.insts x).status.hasPendingSquash)
    (hpc : (w.rob.insts x).staticInst.isControl = false →
      (f (w.rob.insts x).status).pc = (w.rob.insts x).status.pc)
    (hbr : (w.rob.insts x).staticInst.isControl → w.rob.gone x = false →
      (f (w.rob.insts x).status).canCommit = (w.rob.insts x).status.canCommit ∧
        ((f (w.rob.insts x).status).executed = (w.rob.insts x).status.executed ∧
            (f (w.rob.insts x).status).pc = (w.rob.insts x).status.pc ∨
          (w.rob.insts x).status.executed = false ∧ (w.rob.insts x).status.canCommit = false ∧
            (f (w.rob.insts x).status).executed)) :
    Frame w.rob (w.setStatus x f).rob := by
  refine ⟨rfl, rfl, rfl, rfl, fun y => ?_, fun y hy => ?_, fun y _ hy => ?_, fun y => ?_,
    fun y hy => ?_, fun y _ hctl hg => ?_⟩
  · by_cases hy : y = x
    · rw [hy, setStatus_self]
      rfl
    · rw [setStatus_other w f hy]
  · rw [setStatus_squashed, hy]
  · rw [setStatus_squashed] at hy
    exact gone_of_squashed hy
  · by_cases hy : y = x
    · rw [hy, setStatus_self, hpend]
    · rw [setStatus_other w f hy]
  · by_cases hyx : y = x
    · subst hyx
      rw [setStatus_self, hpc hy]
    · rw [setStatus_other w f hyx]
  · by_cases hyx : y = x
    · subst hyx
      rw [setStatus_self]
      exact hbr hctl hg
    · rw [setStatus_other w f hyx]
      exact ⟨rfl, .inl ⟨rfl, rfl⟩⟩

/-- A status change of the executing instruction, which is not ready to commit. -/
theorem executes_setStatus (hnew : w.rob.gone x = false → (w.rob.insts x).status.canCommit = false ∧
      (f (w.rob.insts x).status).canCommit = false)
    (hpend : (f (w.rob.insts x).status).hasPendingSquash =
      (w.rob.insts x).status.hasPendingSquash)
    (hlsq : (f (w.rob.insts x).status).inLSQ = (w.rob.insts x).status.inLSQ)
    (hpc : (w.rob.insts x).staticInst.isControl = false →
      (f (w.rob.insts x).status).pc = (w.rob.insts x).status.pc)
    (hexec : (w.rob.insts x).staticInst.isControl →
      (w.rob.insts x).status.executed = false ∧ (f (w.rob.insts x).status).executed) :
    Executes x w.rob (w.setStatus x f).rob where
  toFrame := frame_setStatus hpend hpc fun hctl hg => by
    obtain ⟨hc, hc'⟩ := hnew hg
    exact ⟨hc'.trans hc.symm, .inr ⟨(hexec hctl).1, hc, (hexec hctl).2⟩⟩
  others y hy := by
    rw [setStatus_other w f hy]
    exact ⟨rfl, rfl⟩
  sameSquashed := setStatus_squashed w x f
  inLSQ y := by
    by_cases hy : y = x
    · rw [hy, setStatus_self, hlsq]
    · rw [setStatus_other w f hy]
  canCommit y hg := by
    by_cases hy : y = x
    · subst hy
      rw [setStatus_self, (hnew hg).1]
      exact (hnew hg).2
    · rw [setStatus_other w f hy]
  held y hg hh := by
    by_cases hy : y = x
    · subst hy
      exact .inl (by rw [setStatus_self]; exact (hnew hg).2)
    unfold Held
    rw [setStatus_other w f hy]
    exact hh

/-- The mark a load leaves on a younger one. -/
theorem executes_possibleLoadViolation (w : Iew) (x l : Nat) :
    Executes x w.rob
      (w.setStatus l fun st => { st with possibleLoadViolation := true }).rob := by
  have hmark : ∀ y, ∃ b,
      (w.setStatus l fun st => { st with possibleLoadViolation := true }).rob.insts y =
        { w.rob.insts y with
          status := { (w.rob.insts y).status with possibleLoadViolation := b } } := by
    intro y
    by_cases hy : y = l
    · exact ⟨true, by rw [hy, setStatus_self]⟩
    · exact ⟨_, setStatus_other w _ hy⟩
  refine ⟨frame_setStatus rfl (fun _ => rfl) (fun _ _ => ⟨rfl, .inl ⟨rfl, rfl⟩⟩), fun y _ => ?_,
    setStatus_squashed w l _, fun y => ?_, fun y _ => ?_, fun y _ hh => ?_⟩
  · obtain ⟨b, hb⟩ := hmark y
    rw [hb]
    exact ⟨rfl, rfl⟩
  · obtain ⟨b, hb⟩ := hmark y
    rw [hb]
  · obtain ⟨b, hb⟩ := hmark y
    rw [hb]
  obtain ⟨b, hb⟩ := hmark y
  unfold Held
  rw [hb]
  exact hh

/-! ## Memory-order violations -/

/-- The search changes nothing but marks and the violator, which is one of the loads it
looks at. -/
theorem checkViolations_spec (c : Config) (x : Nat) (w : Iew) (ls : List Nat) :
    Executes x w.rob (checkViolations c x w ls).1.rob ∧
      ((checkViolations c x w ls).1.squash = w.squash ∧
        (checkViolations c x w ls).1.raised = w.raised ∧
        (checkViolations c x w ls).1.oblsMissInst = w.oblsMissInst) ∧
      ((checkViolations c x w ls).1.memDepViolator = w.memDepViolator ∨
        ∃ l ∈ ls, (checkViolations c x w ls).1.memDepViolator = some l) := by
  induction ls generalizing w with
  | nil => exact ⟨.refl x _, ⟨rfl, rfl, rfl⟩, .inl rfl⟩
  | cons l ls ih =>
    have hskip := ih w
    have hweak : ∀ {o : Option Nat}, (∃ l' ∈ ls, o = some l') → ∃ l' ∈ l :: ls, o = some l' :=
      fun ⟨l', hl, he⟩ => ⟨l', mem_cons_of_mem _ hl, he⟩
    rw [checkViolations]
    split
    · exact ⟨hskip.1, hskip.2.1, hskip.2.2.imp_right hweak⟩
    split
    · split
      · split
        · exact ⟨.refl x _, ⟨rfl, rfl, rfl⟩, .inr ⟨l, by simp, rfl⟩⟩
        obtain ⟨h1, h2, h3⟩ :=
          ih (w.setStatus l fun st => { st with possibleLoadViolation := true })
        exact ⟨(executes_possibleLoadViolation w x l).trans h1, h2, h3.imp_right hweak⟩
      · split
        · exact ⟨.refl x _, ⟨rfl, rfl, rfl⟩, .inl rfl⟩
        · exact ⟨.refl x _, ⟨rfl, rfl, rfl⟩, .inr ⟨l, by simp, rfl⟩⟩
    · exact ⟨hskip.1, hskip.2.1, hskip.2.2.imp_right hweak⟩

/-! ## Causes and the signal -/

/-- What is known of a cause met in a tick that started with `r₀`, in the buffer `r`. -/
structure Raised (r₀ r : Rob) (x : Nat) (cause : SquashCause) : Prop where
  mem : x ∈ r₀.instList
  alive : (r.insts x).squashed = false
  guard : r₀.gone x = false → ∃ g ∈ r₀.instList, g ≤ x ∧ (r.insts g).squashed = false ∧ Held r g
  kind : match cause with
    | .mispredict => (r₀.insts x).redirects = true ∧ ((r₀.insts x).staticInst.isControl = true →
        r₀.gone x = false → (r₀.insts x).status.executed = false ∧
          (r.insts x).status.canCommit = false)
    | .memOrder a => (r₀.insts x).staticInst.isLoad = true ∧ r₀.gone x = false ∧
        a ∈ r₀.instList ∧ a < x
    | .oblsMiss => (r₀.insts x).staticInst.isLoad = true ∧ r₀.gone x = false

theorem not_gone_of_le {g : Nat} (hs : (r.insts g).squashed = false) (hle : g ≤ x)
    (hx : r.gone x = false) : r.gone g = false := by
  cases hg : r.gone g with
  | false => rfl
  | true =>
    have hd : r.doomed g = true := by
      rw [Rob.gone, hs, Bool.false_or] at hg
      exact hg
    rw [Rob.gone, doomed_mono hd hle, Bool.or_true] at hx
    cases hx

theorem Raised.executes (hf : Frame r₀ r) (h : Raised r₀ r x cause) (he : Executes y r r') :
    Raised r₀ r' x cause where
  mem := h.mem
  alive := (he.sameSquashed x).trans h.alive
  guard hx := by
    obtain ⟨g, hg, hle, hs, hh⟩ := h.guard hx
    refine ⟨g, hg, hle, (he.sameSquashed g).trans hs, he.held g ?_ hh⟩
    exact not_gone_of_le hs hle (hf.gone h.mem ▸ hx)
  kind := by
    have hk := h.kind
    cases cause with
    | mispredict =>
      refine ⟨hk.1, fun hc hx => ⟨(hk.2 hc hx).1, ?_⟩⟩
      rw [he.canCommit x (hf.gone h.mem ▸ hx)]
      exact (hk.2 hc hx).2
    | memOrder a => exact hk
    | oblsMiss => exact hk

/-- The signal says what its instruction says now. -/
structure Fits (r : Rob) (sig : IewSquash) : Prop where
  branch : sig.cause = .mispredict → sig.mispredictInst = some sig.squashedSeqNum ∧
    sig.pc = (r.insts sig.squashedSeqNum).staticInst.advancePC
      (r.insts sig.squashedSeqNum).status.pc ∧
    sig.branchTaken = (r.insts sig.squashedSeqNum).status.pc.branching ∧
    ((r.insts sig.squashedSeqNum).staticInst.isControl = true →
      (r.insts sig.squashedSeqNum).status.executed = true)
  load : sig.cause ≠ .mispredict → sig.mispredictInst = none ∧
    sig.pc = (r.insts sig.squashedSeqNum).status.pc

/-- A branch executes once, and nothing else changes its PC. -/
theorem Fits.frame (h : Fits r sig) (hf : Frame r r') (hx : sig.squashedSeqNum ∈ r.instList)
    (hg : r.gone sig.squashedSeqNum = false) (hload : sig.cause ≠ .mispredict →
      (r.insts sig.squashedSeqNum).staticInst.isControl = false) : Fits r' sig where
  branch hc := by
    obtain ⟨hm, hpc, htaken, hex⟩ := h.branch hc
    cases hctl : (r.insts sig.squashedSeqNum).staticInst.isControl with
    | false =>
      rw [hf.staticInst, hf.straight _ hctl, hctl]
      exact ⟨hm, hpc, htaken, fun h => by cases h⟩
    | true =>
      rcases (hf.branch _ hx hctl hg).2 with ⟨he, hp⟩ | ⟨hne, -, -⟩
      · rw [hf.staticInst, he, hp]
        exact ⟨hm, hpc, htaken, hex⟩
      · rw [hex hctl] at hne
        cases hne
  load hc := by
    rw [hf.straight _ (hload hc)]
    exact h.load hc

theorem isControl_of_redirects {i : DynInst} (h : i.redirects = false) :
    i.staticInst.isControl = false :=
  (Bool.or_eq_false_iff.mp h).1

theorem isControl_of_isLoad {i : StaticInst} (h : i.isLoad) : i.isControl = false :=
  StaticInst.not_isControl (i.load_memRef h)

/-- The stage in a tick that started with `r₀`; `skip` is an instruction whose execution
has not been looked at yet. -/
structure Spec (r₀ : Rob) (skip : Option Nat) (w : Iew) : Prop where
  frame : Frame r₀ w.rob
  straight : ∀ x ∈ r₀.instList, (r₀.insts x).redirects = false →
    (w.rob.insts x).mispredicted = false
  lsq : ∀ x ∈ r₀.instList, (w.rob.insts x).status.inLSQ = true → r₀.gone x = false
  found : ∀ b ∈ r₀.instList, skip ≠ some b → (r₀.insts b).staticInst.isControl = true →
    r₀.gone b = false → (r₀.insts b).status.executed = false →
    (w.rob.insts b).status.executed = true → (w.rob.insts b).mispredicted = true →
    (b, .mispredict) ∈ w.raised
  raised : ∀ q ∈ w.raised, Raised r₀ w.rob q.1 q.2
  covered : ∀ q ∈ w.raised, ∃ sig, w.squash = some sig ∧ sig.squashedSeqNum ≤ q.1
  signal : ∀ sig, w.squash = some sig → (sig.squashedSeqNum, sig.cause) ∈ w.raised ∧
    sig.instCausingSquash = sig.squashedSeqNum ∧
    (sig.includeSquashInst = true ↔ sig.cause ≠ .mispredict)
  content : ∀ sig, w.squash = some sig → r₀.gone sig.squashedSeqNum = false → Fits w.rob sig
  own : ∀ sig, w.squash = some sig → ∀ y, sig.mispredictInst = some y →
    y = sig.squashedSeqNum ∧ sig.cause = .mispredict
  miss : ∀ o, w.oblsMissInst = some o → Raised r₀ w.rob o .oblsMiss

/-- Whatever the stage does next, the content of its signal stays right. -/
theorem Spec.content_frame {skip : Option Nat} (h : Spec r₀ skip w) (hf : Frame w.rob r')
    (hs : w.squash = some sig) (hg : r₀.gone sig.squashedSeqNum = false) : Fits r' sig := by
  have hr := h.raised _ (h.signal sig hs).1
  have hkind := hr.kind
  refine (h.content sig hs hg).frame hf (h.frame.instList ▸ hr.mem)
    ((h.frame.gone hr.mem).trans hg) fun hc => ?_
  rw [h.frame.staticInst]
  cases hcause : sig.cause with
  | mispredict => exact absurd hcause hc
  | memOrder a =>
    rw [hcause] at hkind
    exact isControl_of_isLoad hkind.1
  | oblsMiss =>
    rw [hcause] at hkind
    exact isControl_of_isLoad hkind.1

theorem mispredicted_congr {i j : DynInst} (hs : j.staticInst = i.staticInst)
    (hp : j.predPC = i.predPC) (hpc : j.status.pc = i.status.pc) :
    j.mispredicted = i.mispredicted := by
  unfold DynInst.mispredicted
  rw [hs, hp, hpc]

theorem Spec.executes (h : Spec r₀ none w) (he : Executes x w.rob w'.rob)
    (hsq : w'.squash = w.squash) (hra : w'.raised = w.raised)
    (ho : w'.oblsMissInst = w.oblsMissInst) : Spec r₀ (some x) w' where
  frame := h.frame.trans he.toFrame
  straight y hy hc := by
    rw [mispredicted_congr (he.staticInst y) (he.predPC y)
      (he.straight y (h.frame.staticInst y ▸ isControl_of_redirects hc))]
    exact h.straight y hy hc
  lsq y hy hl := h.lsq y hy (he.inLSQ y ▸ hl)
  found b hb hskip hctl hg hne hex hmis := by
    have hbx : b ≠ x := fun he => hskip (by rw [he])
    obtain ⟨hee, hpp⟩ := he.others b hbx
    rw [mispredicted_congr (he.staticInst b) (he.predPC b) hpp] at hmis
    rw [hra]
    exact h.found b hb (by simp) hctl hg hne (hee ▸ hex) hmis
  raised q hq := (h.raised q (hra ▸ hq)).executes h.frame he
  covered q hq := by
    rw [hsq]
    exact h.covered q (hra ▸ hq)
  signal sig hs := by
    rw [hra]
    exact h.signal sig (hsq ▸ hs)
  content sig hs hg := h.content_frame he.toFrame (hsq ▸ hs) hg
  own sig hs := h.own sig (hsq ▸ hs)
  miss o hoo := (h.miss o (ho ▸ hoo)).executes h.frame he

/-- One more cause: the signal stays if it is for an older instruction, and otherwise
becomes the new one. -/
structure Arbitrates (w w' : Iew) (x : Nat) (cause : SquashCause) : Prop where
  rob : w'.rob = w.rob
  raised : w'.raised = w.raised ++ [(x, cause)]
  squash : (w'.squash = w.squash ∧ ∃ sig, w.squash = some sig ∧ sig.squashedSeqNum ≤ x) ∨
    ∃ sig, w'.squash = some sig ∧ sig.squashedSeqNum = x ∧ sig.cause = cause ∧
      sig.instCausingSquash = x ∧ (sig.includeSquashInst = true ↔ cause ≠ .mispredict) ∧
      ((cause = .mispredict → (w.rob.insts x).staticInst.isControl = true →
        (w.rob.insts x).status.executed = true) → Fits w.rob sig) ∧
      (∀ y, sig.mispredictInst = some y → y = x ∧ cause = .mispredict) ∧
      ∀ old, w.squash = some old → x ≤ old.squashedSeqNum

theorem Arbitrates.spec {skip : Option Nat} (ha : Arbitrates w w' x cause) (h : Spec r₀ skip w)
    (hx : Raised r₀ w.rob x cause) (ho : ∀ o, w'.oblsMissInst = some o → w.oblsMissInst = some o)
    (hskip : ∀ b, skip = some b → (w.rob.insts b).mispredicted →
      b = x ∧ cause = .mispredict)
    (hexec : cause = .mispredict → (w.rob.insts x).staticInst.isControl →
      (w.rob.insts x).status.executed) : Spec r₀ none w' where
  frame := ha.rob ▸ h.frame
  straight := ha.rob ▸ h.straight
  lsq := ha.rob ▸ h.lsq
  found b hb _ hctl hg hne hex hmis := by
    rw [ha.rob] at hex hmis
    rw [ha.raised, mem_append]
    by_cases hs : skip = some b
    · obtain ⟨rfl, rfl⟩ := hskip b hs hmis
      exact .inr (by simp)
    · exact .inl (h.found b hb hs hctl hg hne hex hmis)
  raised q hq := by
    rw [ha.raised, mem_append, mem_singleton] at hq
    rw [ha.rob]
    rcases hq with hq | rfl
    · exact h.raised q hq
    · exact hx
  covered q hq := by
    rw [ha.raised, mem_append, mem_singleton] at hq
    rcases ha.squash with ⟨hs, sig, hsig, hle⟩ | ⟨sig, hsig, hn, -, -, -, -, -, hold⟩
    · rw [hs]
      rcases hq with hq | rfl
      · exact h.covered q hq
      · exact ⟨sig, hsig, hle⟩
    · refine ⟨sig, hsig, ?_⟩
      rcases hq with hq | rfl
      · obtain ⟨old, ho, hle⟩ := h.covered q hq
        rw [hn]
        exact Nat.le_trans (hold old ho) hle
      · exact Nat.le_of_eq hn
  signal sig hs := by
    rw [ha.raised]
    rcases ha.squash with ⟨hss, -⟩ | ⟨sig', hsig, hn, hc, hi, hinc, -, -, -⟩
    · obtain ⟨hm, hrest⟩ := h.signal sig (hss ▸ hs)
      exact ⟨mem_append_left _ hm, hrest⟩
    · cases hsig.symm.trans hs
      refine ⟨?_, by rw [hi, hn], by rw [hc]; exact hinc⟩
      rw [hn, hc]
      exact mem_append_right _ (by simp)
  content sig hs hg := by
    rw [ha.rob]
    rcases ha.squash with ⟨hss, -⟩ | ⟨sig', hsig, hn, -, -, -, hfits, -, -⟩
    · exact h.content sig (hss ▸ hs) hg
    · cases hsig.symm.trans hs
      exact hfits hexec
  own sig hs := by
    rcases ha.squash with ⟨hss, -⟩ | ⟨sig', hsig, hn, hc, -, -, -, hown, -⟩
    · exact h.own sig (hss ▸ hs)
    · cases hsig.symm.trans hs
      rw [hn, hc]
      exact hown
  miss o hoo := by
    rw [ha.rob]
    exact h.miss o (ho o hoo)

/-- An instruction that does not get the signal is younger than the one that has it. -/
theorem exists_older {o : Option IewSquash} (h : ¬o.all (x < ·.squashedSeqNum)) :
    ∃ sig, o = some sig ∧ sig.squashedSeqNum ≤ x := by
  cases o with
  | none => simp at h
  | some sig => exact ⟨sig, rfl, by simpa using h⟩

theorem squashDueToBranch_rest (w : Iew) (x : Nat) :
    (w.squashDueToBranch x).memDepViolator = w.memDepViolator ∧
      (w.squashDueToBranch x).oblsMissInst = w.oblsMissInst := by
  unfold squashDueToBranch
  split <;> exact ⟨rfl, rfl⟩

theorem squashLoad_rest (w : Iew) (x : Nat) (cause : SquashCause) :
    (w.squashLoad x cause).memDepViolator = w.memDepViolator ∧
      (w.squashLoad x cause).oblsMissInst = w.oblsMissInst := by
  unfold squashLoad
  split <;> exact ⟨rfl, rfl⟩

theorem arbitrates_squashDueToBranch (w : Iew) (x : Nat) (b : Bool) :
    Arbitrates w ({ w.raise x .mispredict with fetchRedirect := b }.squashDueToBranch x) x
      .mispredict := by
  unfold squashDueToBranch raise
  split
  · next hall =>
    refine ⟨rfl, rfl, .inr ⟨_, rfl, rfl, rfl, rfl, by simp,
      fun hex => ⟨fun _ => ⟨rfl, rfl, rfl, hex rfl⟩, fun hc => absurd rfl hc⟩,
      fun y hy => by cases hy; exact ⟨rfl, rfl⟩, fun old ho => ?_⟩⟩
    rw [ho] at hall
    exact Nat.le_of_lt (by simpa using hall)
  · next hall => exact ⟨rfl, rfl, .inl ⟨rfl, exists_older hall⟩⟩

theorem arbitrates_squashLoad (w : Iew) (x : Nat) (hc : cause ≠ .mispredict) (b : Bool)
    (v o : Option Nat) (l : List (Nat × Nat)) :
    Arbitrates w ({ w.raise x cause with
      fetchRedirect := b, memDepViolator := v, oblsMissInst := o, trained := l }.squashLoad x cause)
      x cause := by
  unfold squashLoad raise
  split
  · next hall =>
    refine ⟨rfl, rfl, .inr ⟨_, rfl, rfl, rfl, rfl, by simp [hc],
      fun _ => ⟨fun hm => absurd hm hc, fun _ => ⟨rfl, rfl⟩⟩, nofun, fun old ho => ?_⟩⟩
    rw [ho] at hall
    simpa using hall
  · next hall =>
    refine ⟨rfl, rfl, .inl ⟨rfl, exists_older fun hlt => hall ?_⟩⟩
    cases hs : w.squash with
    | none => rfl
    | some sig =>
      simp only [hs, all_some, decide_eq_true_eq] at hlt ⊢
      omega

/-- A cause that is dropped, since an older one has a signal. -/
theorem arbitrates_dropped (hs : w.squash = some sig) (hle : sig.squashedSeqNum ≤ x)
    (v o : Option Nat) :
    Arbitrates w { w.raise x cause with memDepViolator := v, oblsMissInst := o } x cause :=
  ⟨rfl, rfl, .inl ⟨rfl, sig, hs, hle⟩⟩

/-! ## Execution -/

/-- `x` is executing: it is not squashed, and not ready to commit if it stays. -/
structure Executing (r₀ : Rob) (w : Iew) (x : Nat) : Prop where
  mem : x ∈ r₀.instList
  alive : (w.rob.insts x).squashed = false
  early : r₀.gone x = false → (w.rob.insts x).status.canCommit = false

theorem Executing.executes (hx : Executing r₀ w x) (hf : Frame r₀ w.rob)
    (he : Executes x w.rob w'.rob) : Executing r₀ w' x where
  mem := hx.mem
  alive := (he.sameSquashed x).trans hx.alive
  early hg := (he.canCommit x (hf.gone hx.mem ▸ hg)).trans (hx.early hg)

theorem foundMispredicted_eq (h : Spec r₀ (some x) w) (hx : x ∈ r₀.instList) :
    foundMispredicted (w.rob.insts x) = (w.rob.insts x).mispredicted := by
  unfold foundMispredicted
  cases hre : (r₀.insts x).redirects with
  | false => rw [h.straight x hx hre, Bool.false_and]
  | true =>
    rw [h.frame.staticInst, StaticInst.not_isLoad (DynInst.redirects_memRef hre), Bool.and_false,
      Bool.not_false, Bool.and_true]

/-- Looking at the instruction that has just executed: a violation is consumed, and every
cause is recorded. -/
theorem Spec.checkSquash (h : Spec r₀ (some x) w) (hx : Executing r₀ w x)
    (hfirst : (r₀.insts x).staticInst.isControl → r₀.gone x = false →
      (r₀.insts x).status.executed = false)
    (hexec : (w.rob.insts x).staticInst.isControl → (w.rob.insts x).status.executed)
    (hviol : ∀ v, w.memDepViolator = some v →
      (w.rob.insts x).staticInst.isMemRef ∧ Raised r₀ w.rob v (.memOrder x))
    (hr : w.checkSquash x = some w') : Spec r₀ none w' ∧ w'.memDepViolator = none := by
  have hre : (w.rob.insts x).mispredicted = true → (r₀.insts x).redirects = true := by
    intro hm
    cases hc : (r₀.insts x).redirects with
    | true => rfl
    | false =>
      rw [h.straight x hx.mem hc] at hm
      cases hm
  unfold Iew.checkSquash at hr
  simp only [foundMispredicted_eq h hx.mem] at hr
  cases hm : (w.rob.insts x).mispredicted with
  | true =>
    -- what is mispredicted finds no violation
    have hnone : w.memDepViolator = none := by
      cases hv : w.memDepViolator with
      | none => rfl
      | some v =>
        have hmem := (hviol v hv).1
        rw [h.frame.staticInst, DynInst.redirects_memRef (hre hm)] at hmem
        cases hmem
    have hself : Raised r₀ w.rob x .mispredict :=
      ⟨hx.mem, hx.alive, fun hg => ⟨x, hx.mem, Nat.le_refl x, hx.alive, .inl (hx.early hg)⟩, hre hm,
        fun hc hg => ⟨hfirst hc hg, hx.early hg⟩⟩
    have hskip : ∀ b, some x = some b → (w.rob.insts b).mispredicted = true →
        b = x ∧ SquashCause.mispredict = .mispredict := fun b hb _ => ⟨by cases hb; rfl, rfl⟩
    simp only [hm, if_true] at hr
    split at hr
    · cases hr
      obtain ⟨hv, ho⟩ :=
        squashDueToBranch_rest { w.raise x .mispredict with fetchRedirect := true } x
      exact ⟨(arbitrates_squashDueToBranch w x true).spec h hself (fun _ => ho.symm.trans) hskip
        (fun _ => hexec), hv.trans hnone⟩
    · next hcond =>
      have hv : (w.raise x .mispredict).memDepViolator = none := hnone
      rw [hv] at hr
      cases hr
      obtain ⟨sig, hsig, hle⟩ := exists_older (o := w.squash) (x := x) fun hlt =>
        hcond (by simp [raise, hlt])
      exact ⟨(arbitrates_dropped hsig hle w.memDepViolator w.oblsMissInst).spec h hself
        (fun _ ho => ho) hskip (fun _ => hexec), hnone⟩
  | false =>
    have hno : ∀ {cause : SquashCause} {v : Nat} b, some x = some b →
        (w.rob.insts b).mispredicted = true → b = v ∧ cause = .mispredict := by
      intro cause v b hb hmis
      cases hb
      rw [hm] at hmis
      cases hmis
    -- nothing was found: there is nothing to record about `x`
    have hclean : Spec r₀ none w := { h with
      found := fun b hb _ hctl hg hne hex hmis =>
        h.found b hb (fun hb' => by cases hb'; rw [hm] at hmis; cases hmis) hctl hg hne hex hmis }
    simp only [hm, Bool.false_eq_true, if_false] at hr
    split at hr
    · split at hr
      · next _ v hv =>
        split at hr
        · cases hr
          obtain ⟨hv', ho⟩ := squashLoad_rest { w.raise v (.memOrder x) with
            fetchRedirect := true, memDepViolator := none, trained := w.trained ++ [(x, v)] } v
            (.memOrder x)
          exact ⟨(arbitrates_squashLoad w v (by simp) true none w.oblsMissInst _).spec h
            (hviol v hv).2 (fun _ => ho.symm.trans) (hno ·) nofun, hv'⟩
        · cases hr
      · next o hv ho =>
        cases hr
        obtain ⟨hv', ho'⟩ := squashLoad_rest { w.raise o .oblsMiss with
          fetchRedirect := true, oblsMissInst := none } o .oblsMiss
        exact ⟨(arbitrates_squashLoad w o (by simp) true w.memDepViolator none w.trained).spec h
          (h.miss o ho) (fun _ hs => by cases ho'.symm.trans hs) (hno ·) nofun, hv'.trans hv⟩
      · next hv _ =>
        cases hr
        exact ⟨hclean, hv⟩
    · next hcond =>
      split at hr
      · next v hv =>
        split at hr
        · cases hr
          have hlt : x < v := (hviol v hv).2.kind.2.2.2
          obtain ⟨sig, hsig, hle⟩ := exists_older (o := w.squash) (x := x) fun hlt =>
            hcond (by simp [hlt])
          exact ⟨(arbitrates_dropped hsig (by omega) none w.oblsMissInst).spec h (hviol v hv).2
            (fun _ ho => ho) (hno ·) nofun, rfl⟩
        · cases hr
      · next hv =>
        cases hr
        exact ⟨hclean, hv⟩

theorem issued_spec (h : issued r x) : x ∈ r.instList ∧ (r.insts x).status.executed = false ∧
    (r.gone x = false → (r.insts x).status.canCommit = false) := by
  simp only [issued, Bool.and_eq_true, Bool.or_eq_true, decide_eq_true_eq, Bool.not_eq_true'] at h
  refine ⟨h.1.1.1, h.1.2, fun hg => ?_⟩
  rcases h.2 with hc | hc
  · exact hc
  · rw [hg] at hc
    cases hc

theorem mem_loadsAfter {l : Nat} (h : l ∈ loadsAfter r x) : l ∈ r.instList ∧ x < l ∧
    (r.insts l).staticInst.isLoad ∧ (r.insts l).status.inLSQ := by
  simp only [loadsAfter, mem_filter, Bool.and_eq_true, decide_eq_true_eq] at h
  exact ⟨h.1, h.2.1.1, h.2.1.2, h.2.2⟩

/-- The violator an access found, while the access is still kept from committing. -/
theorem Spec.violator (h : Spec r₀ (some x) w) (hx : Executing r₀ w x) {l : Nat}
    (hl : l ∈ loadsAfter w.rob x) : Raised r₀ w.rob l (.memOrder x) := by
  obtain ⟨hmem, hlt, hload, hlsq⟩ := mem_loadsAfter hl
  rw [h.frame.instList] at hmem
  have hg := h.lsq l hmem hlsq
  have hgw : w.rob.gone l = false := h.frame.gone hmem ▸ hg
  have hgx : r₀.gone x = false :=
    h.frame.gone hx.mem ▸ not_gone_of_le hx.alive (Nat.le_of_lt hlt) hgw
  exact ⟨hmem, squashed_of_not_gone hgw,
    fun _ => ⟨x, hx.mem, Nat.le_of_lt hlt, hx.alive, .inl (hx.early hgx)⟩,
    h.frame.staticInst l ▸ hload, hg, hx.mem, hlt⟩

theorem loadsAfter_congr (he : Executes y r r') : loadsAfter r' x = loadsAfter r x := by
  unfold loadsAfter
  rw [he.instList]
  exact List.filter_congr fun l _ => by rw [he.staticInst, he.inLSQ]

/-- What an access does before `executeInsts` looks at it. -/
structure Accesses (x : Nat) (w w' : Iew) : Prop where
  executes : Executes x w.rob w'.rob
  same : w'.squash = w.squash ∧ w'.raised = w.raised ∧ w'.oblsMissInst = w.oblsMissInst
  violator : ∀ v, w'.memDepViolator = some v → v ∈ loadsAfter w.rob x

section
variable (h : Spec r₀ none w) (hx : Executing r₀ w x) (hmem : (w.rob.insts x).staticInst.isMemRef)
include h hx hmem

/-- Computing the address, searching for violations, and looking at the result. -/
theorem Spec.access {w₁ : Iew} (ha : Accesses x w w₁) (hr : w₁.checkSquash x = some w') :
    Spec r₀ none w' ∧ w'.memDepViolator = none := by
  have he := ha.executes
  have hs : Spec r₀ (some x) w₁ := h.executes he ha.same.1 ha.same.2.1 ha.same.2.2
  have hx₁ := hx.executes h.frame he
  have hnc : ∀ {i : StaticInst}, i = (w.rob.insts x).staticInst → i.isControl ≠ true := by
    rintro i rfl
    exact Bool.eq_false_iff.mp (StaticInst.not_isControl hmem)
  refine hs.checkSquash hx₁ (fun hctl => absurd hctl (hnc (h.frame.staticInst x).symm))
    (fun hctl => absurd hctl (hnc (he.staticInst x))) (fun v hv' => ⟨?_, ?_⟩) hr
  · rw [he.staticInst]
    exact hmem
  · exact hs.violator hx₁ (loadsAfter_congr he ▸ ha.violator v hv')

/-- A status change of an access that keeps what the buffer reads. -/
theorem Spec.executes_access
    (hf : ∀ st, (f st).canCommit = st.canCommit ∧ (f st).hasPendingSquash = st.hasPendingSquash ∧
      (f st).inLSQ = st.inLSQ ∧ (f st).pc = st.pc) :
    Executes x w.rob (w.setStatus x f).rob := by
  obtain ⟨hc, hp, hl, hpc⟩ := hf (w.rob.insts x).status
  have hnew (hg : w.rob.gone x = false) := hx.early ((h.frame.gone hx.mem).symm.trans hg)
  refine executes_setStatus (fun hg => ⟨hnew hg, hc.trans (hnew hg)⟩) hp hl (fun _ => hpc) ?_
  rw [StaticInst.not_isControl hmem]
  exact fun h => by cases h

variable (hv : w.memDepViolator = none)
include hv

/-- Computing the address and searching for violations. -/
theorem Spec.search (c : Config) (a n : Nat) {w₁ w₂ : Iew}
    (hw₁ : w₁ = w.setStatus x fun st =>
      { st with effAddr := a, effSize := n, effAddrValid := true })
    (hw₂ : w₂ = (checkViolations c x w₁ (loadsAfter w₁.rob x)).1) : Accesses x w w₂ := by
  have he₁ : Executes x w.rob w₁.rob :=
    hw₁ ▸ h.executes_access hx hmem fun _ => ⟨rfl, rfl, rfl, rfl⟩
  obtain ⟨he₂, heq, hviol⟩ := checkViolations_spec c x w₁ (loadsAfter w₁.rob x)
  rw [← hw₂] at he₂ heq hviol
  refine ⟨he₁.trans he₂, ?_, fun v hv' => ?_⟩
  · rw [hw₁] at heq
    exact heq
  rw [hw₁, loadsAfter_congr (hw₁ ▸ he₁)] at hviol
  rcases hviol with hold | ⟨l, hl, hnewv⟩
  · change w₂.memDepViolator = w.memDepViolator at hold
    rw [hold, hv] at hv'
    cases hv'
  · rw [hnewv] at hv'
    cases hv'
    exact hl

theorem Spec.setStatus_access (hr : (w.setStatus x f).checkSquash x = some w')
    (hf : ∀ st, (f st).canCommit = st.canCommit ∧ (f st).hasPendingSquash = st.hasPendingSquash ∧
      (f st).inLSQ = st.inLSQ ∧ (f st).pc = st.pc) :
    Spec r₀ none w' ∧ w'.memDepViolator = none := by
  refine h.access hx hmem ⟨h.executes_access hx hmem hf, ⟨rfl, rfl, rfl⟩, fun v hv' => ?_⟩ hr
  change w.memDepViolator = some v at hv'
  rw [hv] at hv'
  cases hv'

theorem Spec.executeStore {a n : Nat} (hr : (w.executeStore c x a n).checkSquash x = some w') :
    Spec r₀ none w' ∧ w'.memDepViolator = none := by
  have ha := h.search hx hmem hv c a n rfl rfl
  unfold Iew.executeStore at hr
  dsimp only at hr
  generalize (checkViolations c x _ _).1 = w₂ at hr ha
  split at hr
  · -- marked as executed after the search
    have hx₂ := hx.executes h.frame ha.executes
    have hs₂ := h.frame.trans ha.executes.toFrame
    refine h.access hx hmem ⟨ha.executes.trans (executes_setStatus (fun hg => ?_) rfl rfl
      (fun _ => rfl) fun hctl => ?_), ha.same, ha.violator⟩ hr
    · have hc := hx₂.early ((hs₂.gone hx.mem).symm.trans hg)
      exact ⟨hc, hc⟩
    · rw [ha.executes.staticInst, StaticInst.not_isControl hmem] at hctl
      cases hctl
  · exact h.access hx hmem ha hr

end

section
variable (h : Spec r₀ none w) (hv : w.memDepViolator = none)
include h hv

theorem Spec.executeInst {e : Exec}
    (hiss : issued w.rob e.inst) (hr : w.executeInst c e = some w') :
    Spec r₀ none w' ∧ w'.memDepViolator = none := by
  obtain ⟨hxl, hne, hnew⟩ := issued_spec hiss
  have hx : e.inst ∈ r₀.instList := h.frame.instList ▸ hxl
  unfold Iew.executeInst at hr
  dsimp only at hr
  split at hr
  · -- squashed already: marked as executed, so that it can drain
    next hsq =>
    cases hr
    have hg : w.rob.gone e.inst = true := gone_of_squashed hsq
    have hno : w.rob.gone e.inst ≠ false := by rw [hg]; simp
    have hs : Spec r₀ (some e.inst) (w.setStatus e.inst fun st =>
        { st with executed := true, canCommit := true }) :=
      h.executes (executes_setStatus (fun hf => absurd hf hno) rfl rfl (fun _ => rfl)
        fun _ => ⟨hne, rfl⟩) rfl rfl rfl
    refine ⟨{ hs with found := fun b hb _ hctl hgb => ?_ }, hv⟩
    refine hs.found b hb ?_ hctl hgb
    rintro heq
    cases heq
    rw [← h.frame.gone hx, hg] at hgb
    cases hgb
  · next hsq =>
    have hx : Executing r₀ w e.inst :=
      ⟨hx, by simpa using hsq, fun hg => hnew ((h.frame.gone hx).trans hg)⟩
    split at hr
    · split at hr
      · cases hr
        exact ⟨h, hv⟩
      · cases hr
    · split at hr
      · next hmem => exact h.setStatus_access hx hmem hv hr fun _ => ⟨rfl, rfl, rfl, rfl⟩
      · cases hr
    · split at hr
      · next hload =>
        have hmem := (w.rob.insts e.inst).staticInst.load_memRef hload
        unfold executeLoad at hr
        split at hr
        · exact h.access hx hmem (h.search hx hmem hv c _ _ rfl rfl) hr
        · exact h.setStatus_access hx hmem hv hr fun _ => ⟨rfl, rfl, rfl, rfl⟩
      · split at hr
        · next hstore =>
          exact h.executeStore hx ((w.rob.insts e.inst).staticInst.store_memRef hstore) hv hr
        · cases hr
    · split at hr
      · cases hr
      generalize hw₁ : w.setStatus e.inst _ = w₁ at hr
      have he : Executes e.inst w.rob w₁.rob := hw₁ ▸ executes_setStatus
        (fun hg => ⟨hnew hg, hnew hg⟩) rfl rfl (fun hctl => by simp [hctl]) fun _ => ⟨hne, rfl⟩
      have hs : Spec r₀ (some e.inst) w₁ := h.executes he (hw₁ ▸ rfl) (hw₁ ▸ rfl) (hw₁ ▸ rfl)
      refine hs.checkSquash (hx.executes h.frame he) (fun hctl hg => ?_) (fun _ => ?_) ?_ hr
      · rcases (h.frame.branch _ hx.mem hctl hg).2 with ⟨hee, -⟩ | ⟨hee, -⟩
        · rw [← hee, hne]
        · exact hee
      · rw [← hw₁, setStatus_self]
      intro v hv'
      have hvw : w₁.memDepViolator = w.memDepViolator := hw₁ ▸ rfl
      rw [hvw, hv] at hv'
      cases hv'

theorem Spec.executeAll {es : List Exec}
    (hr : w.executeAll c es = some w') : Spec r₀ none w' ∧ w'.memDepViolator = none := by
  induction es generalizing w with
  | nil =>
    cases hr
    exact ⟨h, hv⟩
  | cons e es ih =>
    rw [Iew.executeAll] at hr
    split at hr
    · next hiss =>
      obtain ⟨w₁, hr₁, hr⟩ := bind_eq_some_iff.mp hr
      obtain ⟨h₁, hv₁⟩ := h.executeInst hv hiss hr₁
      exact ih h₁ hv₁ hr
    · cases hr

theorem Spec.takeOblsMiss : Spec r₀ none w.takeOblsMiss ∧ w.takeOblsMiss.memDepViolator = none ∧
      w.takeOblsMiss.oblsMissInst = none := by
  have hno : ∀ {o : Nat} b, none = some b → (w.rob.insts b).mispredicted = true →
      b = o ∧ SquashCause.oblsMiss = .mispredict := fun b hb => by cases hb
  unfold Iew.takeOblsMiss
  split
  · next ho => exact ⟨h, hv, ho⟩
  rename_i o ho
  dsimp only
  split
  · obtain ⟨hv', ho'⟩ := squashLoad_rest { w.raise o .oblsMiss with
      oblsMissInst := none, fetchRedirect := true } o .oblsMiss
    exact ⟨(arbitrates_squashLoad w o (by simp) true w.memDepViolator none w.trained).spec h
      (h.miss o ho) (fun _ hs => by cases ho'.symm.trans hs) hno nofun, hv'.trans hv, ho'⟩
  · next hall =>
    obtain ⟨sig, hsig, hle⟩ := exists_older (o := w.squash) hall
    exact ⟨(arbitrates_dropped hsig hle w.memDepViolator none).spec h (h.miss o ho)
      (fun _ ho' => by cases ho') hno nofun, hv, rfl⟩

end

/-- A load that has to be exposed cannot commit before. -/
theorem missable_spec {o : Nat} (h : missable r o) : o ∈ r.instList ∧
    (r.insts o).staticInst.isLoad ∧ (r.insts o).status.inLSQ ∧
    (r.insts o).squashed = false ∧ Held r o := by
  simp only [missable, Bool.and_eq_true, decide_eq_true_eq, Bool.not_eq_true'] at h
  obtain ⟨⟨⟨⟨⟨⟨⟨⟨hmem, hload⟩, hlsq⟩, hsq⟩, hpost⟩, hsent⟩, hcomp⟩, hfault⟩, -⟩ := h
  refine ⟨hmem, hload, hlsq, hsq, .inr ?_⟩
  unfold DynInst.isLoadSafeToCommit
  rw [hload, hsq, hfault, hpost, hsent, hcomp]
  cases (r.insts o).status.needExposeOnly <;> rfl

theorem Spec.exposeLoads (h : Spec r₀ none w) (hr : w.exposeLoads miss = some w') :
    Spec r₀ none w' ∧ w'.memDepViolator = w.memDepViolator := by
  cases miss with
  | none =>
    cases hr
    exact ⟨h, rfl⟩
  | some o =>
    simp only [Iew.exposeLoads] at hr
    split at hr
    · next hm =>
      obtain ⟨hmem, hload, hlsq, hsq, hheld⟩ := missable_spec hm
      have hmem₀ : o ∈ r₀.instList := h.frame.instList ▸ hmem
      cases hr
      split
      · refine ⟨{ h with miss := fun o' ho' => ?_ }, rfl⟩
        cases ho'
        exact ⟨hmem₀, hsq, fun _ => ⟨o, hmem₀, Nat.le_refl o, hsq, hheld⟩,
          h.frame.staticInst o ▸ hload, h.lsq o hmem₀ hlsq⟩
      · exact ⟨h, rfl⟩
    · cases hr

theorem Spec.redirect (h : Spec r₀ none w) : Spec r₀ none { w with fetchRedirect := false } :=
  { h with }

theorem exposeLoads_history (hr : w.exposeLoads miss = some w') :
    w'.raised = w.raised ∧ w'.trained = w.trained := by
  cases miss with
  | none =>
    cases hr
    exact ⟨rfl, rfl⟩
  | some o =>
    simp only [Iew.exposeLoads] at hr
    split at hr
    · cases hr
      split <;> exact ⟨rfl, rfl⟩
    · cases hr

theorem Spec.executeInsts {es : List Exec} (h : Spec r₀ none w) (hv : w.memDepViolator = none)
    (hr : w.executeInsts c miss es = some w') :
    Spec r₀ none w' ∧ w'.memDepViolator = none ∧ w'.oblsMissInst = none := by
  obtain ⟨w₁, hr₁, hr⟩ := bind_eq_some_iff.mp hr
  obtain ⟨w₂, hr₂, rfl⟩ := Option.map_eq_some_iff.mp hr
  obtain ⟨h₁, hv₁⟩ := h.redirect.exposeLoads hr₁
  obtain ⟨h₂, hv₂⟩ := h₁.executeAll (hv₁.trans hv) hr₂
  exact h₂.takeOblsMiss hv₂

/-! ## Before execution -/

theorem Spec.prepare (h : Spec r₀ none w) (hra : w.raised = []) (ho : w.oblsMissInst = none)
    (hf : Frame w.rob w'.rob)
    (hsame : w'.squash = w.squash ∧ w'.raised = w.raised ∧ w'.oblsMissInst = w.oblsMissInst)
    (hctl : ∀ b, (w.rob.insts b).staticInst.isControl →
      (w'.rob.insts b).status.executed = (w.rob.insts b).status.executed ∧
        (w'.rob.insts b).status.pc = (w.rob.insts b).status.pc)
    (hlsq : ∀ x ∈ r₀.instList, (w'.rob.insts x).status.inLSQ → r₀.gone x = false) :
    Spec r₀ none w' where
  frame := h.frame.trans hf
  straight y hy hc := by
    rw [mispredicted_congr (hf.staticInst y) (hf.predPC y)
      (hf.straight y (h.frame.staticInst y ▸ isControl_of_redirects hc))]
    exact h.straight y hy hc
  lsq := hlsq
  found b hb _ hc hg hne hex hmis := by
    obtain ⟨he, hpc⟩ := hctl b (h.frame.staticInst b ▸ hc)
    rw [mispredicted_congr (hf.staticInst b) (hf.predPC b) hpc] at hmis
    rw [hsame.2.1]
    exact h.found b hb (by simp) hc hg hne (he ▸ hex) hmis
  raised q hq := by
    rw [hsame.2.1, hra] at hq
    cases hq
  covered q hq := by
    rw [hsame.2.1, hra] at hq
    cases hq
  signal sig hs := by
    obtain ⟨hm, -⟩ := h.signal sig (hsame.1 ▸ hs)
    rw [hra] at hm
    cases hm
  content sig hs hg := h.content_frame hf (hsame.1 ▸ hs) hg
  own sig hs := h.own sig (hsame.1 ▸ hs)
  miss o ho' := by
    rw [hsame.2.2, ho] at ho'
    cases ho'

theorem dispatchStatus_spec (i : StaticInst) (st : Status) :
    (dispatchStatus i st).hasPendingSquash = st.hasPendingSquash ∧
      (dispatchStatus i st).pc = st.pc ∧
      (i.isControl → (dispatchStatus i st).canCommit = st.canCommit ∧
        (dispatchStatus i st).executed = st.executed) := by
  refine ⟨?_, ?_, fun hctl => ?_⟩
  · unfold dispatchStatus
    repeat' split
    all_goals rfl
  · unfold dispatchStatus
    repeat' split
    all_goals rfl
  · obtain ⟨hmem, hns, -, hmb, hwb, hnop⟩ := i.control_kind hctl
    simp [dispatchStatus, StaticInst.not_isLoad hmem, StaticInst.not_isStore hmem, hmb, hwb, hnop,
      hns]

/-- No cause has been met yet. -/
structure Quiet (w : Iew) : Prop where
  violator : w.memDepViolator = none
  miss : w.oblsMissInst = none
  raised : w.raised = []
  trained : w.trained = []

section
variable (h : Spec r₀ none w) (hq : Quiet w)
include h hq

theorem Spec.dispatchInst (hr : w.dispatchInst x = some w') : Spec r₀ none w' ∧ Quiet w' := by
  unfold Iew.dispatchInst at hr
  dsimp only at hr
  split at hr
  · cases hr
  rename_i hcond
  simp only [not_or, not_not] at hcond
  obtain ⟨hmem, -, hdoom⟩ := hcond
  split at hr
  · cases hr
    exact ⟨h, hq⟩
  rename_i hsq
  cases hr
  obtain ⟨hpend, hpc, hctl⟩ :=
    dispatchStatus_spec (w.rob.insts x).staticInst (w.rob.insts x).status
  have hmem₀ : x ∈ r₀.instList := h.frame.instList ▸ hmem
  refine ⟨h.prepare hq.raised hq.miss (frame_setStatus hpend (fun _ => hpc) fun hc _ =>
    ⟨(hctl hc).1, .inl ⟨(hctl hc).2, hpc⟩⟩) ⟨rfl, rfl, rfl⟩ (fun b hc => ?_) fun y hy hl => ?_,
    { hq with }⟩
  · by_cases hbx : b = x
    · subst hbx
      rw [setStatus_self]
      exact ⟨(hctl hc).2, hpc⟩
    · rw [setStatus_other w _ hbx]
      exact ⟨rfl, rfl⟩
  · by_cases hyx : y = x
    · subst hyx
      rw [← h.frame.gone hy, Rob.gone]
      simp [hsq, hdoom]
    · rw [setStatus_other w _ hyx] at hl
      exact h.lsq y hy hl

theorem Spec.dispatchInsts {xs : List Nat}
    (hr : w.dispatchInsts xs = some w') : Spec r₀ none w' ∧ Quiet w' := by
  induction xs generalizing w with
  | nil =>
    cases hr
    exact ⟨h, hq⟩
  | cons x xs ih =>
    obtain ⟨w₁, hr₁, hr⟩ := bind_eq_some_iff.mp hr
    obtain ⟨h₁, hq₁⟩ := h.dispatchInst hq hr₁
    exact ih h₁ hq₁ hr

theorem Spec.lsqUpdates {us : List (Nat × Status)}
    (hr : w.lsqUpdates us = some w') : Spec r₀ none w' ∧ Quiet w' := by
  induction us generalizing w with
  | nil =>
    cases hr
    exact ⟨h, hq⟩
  | cons u us ih =>
    obtain ⟨x, st⟩ := u
    rw [Iew.lsqUpdates] at hr
    split at hr
    · next hallow =>
      simp only [lsqAllows, Bool.and_eq_true, beq_iff_eq] at hallow
      obtain ⟨⟨⟨⟨⟨hmem, -⟩, hpc⟩, hpend⟩, -⟩, hlsq⟩ := hallow
      have hnc := Bool.eq_false_iff.mp (StaticInst.not_isControl hmem)
      refine ih (h.prepare hq.raised hq.miss (frame_setStatus hpend (fun _ => hpc)
        fun hc _ => absurd hc hnc) ⟨rfl, rfl, rfl⟩ (fun b hc => ?_) fun y hy hl => ?_)
        { hq with } hr
      · have hbx : b ≠ x := fun hb => hnc (hb ▸ hc)
        rw [setStatus_other w _ hbx]
        exact ⟨rfl, rfl⟩
      · refine h.lsq y hy ?_
        by_cases hyx : y = x
        · subst hyx
          rw [setStatus_self] at hl
          exact hlsq ▸ hl
        · rwa [setStatus_other w _ hyx] at hl
    · cases hr

end

end Iew

/-! ## The tick -/

/-- What IEW relies on at the start of its tick: a squash commit has sent is one of
instructions that are going to be squashed, and of those none is left in the load/store
queue that the squash does not reach. -/
structure Core.IewReady (s : Core) : Prop where
  violator : s.memDepViolator = none
  miss : s.oblsMissInst = none
  straight : ∀ x ∈ s.inFlight.instList, (s.inFlight.insts x).redirects = false →
    (s.inFlight.insts x).mispredicted = false
  squash : s.toIEW.squash = true → ∀ x ∈ s.inFlight.instList, s.toIEW.doneSeqNum < x →
    s.inFlight.gone x = true
  queues : ∀ x ∈ s.inFlight.instList, s.inFlight.gone x = true →
    (s.inFlight.insts x).status.inLSQ = true →
    s.toIEW.squash = true ∧ s.toIEW.doneSeqNum < x

namespace Iew

variable {c : Config} {s : Core} {i : CycleIn} {w : Iew}

theorem squashInQueues_fixed (n : Nat) (iq : List Nat) (x : Nat) (i : DynInst) :
    (squashInQueues n iq x i).fixed = i.fixed := by
  unfold squashInQueues
  split <;> rfl

theorem squashQueues_insts (w : Iew) (n : Nat) (iq : List Nat) (x : Nat) :
    (w.squashQueues n iq).rob.insts x =
      if x ∈ w.rob.instList then squashInQueues n iq x (w.rob.insts x) else w.rob.insts x := rfl

theorem squashQueues_stay (w : Iew) (n : Nat) (iq : List Nat)
    (hn : ∀ x ∈ w.rob.instList, n < x → w.rob.gone x) {x : Nat}
    (hg : w.rob.gone x = false) : (w.squashQueues n iq).rob.insts x = w.rob.insts x := by
  rw [squashQueues_insts]
  split
  · next hx =>
    unfold squashInQueues
    rw [if_neg fun hlt => by rw [hn x hx hlt] at hg; cases hg]
  · rfl

theorem frame_squashQueues (w : Iew) (n : Nat) (iq : List Nat)
    (hn : ∀ x ∈ w.rob.instList, n < x → w.rob.gone x) :
    Frame w.rob (w.squashQueues n iq).rob := by
  refine ⟨rfl, rfl, rfl, rfl, fun x => ?_, fun x hx => ?_, fun x hx hs => ?_, fun x => ?_,
    fun x _ => ?_, fun x _ _ hg => ?_⟩
  · rw [squashQueues_insts]
    split
    · exact squashInQueues_fixed n iq x _
    · rfl
  · rw [squashQueues_insts]
    split
    · unfold squashInQueues
      split
      · simp [hx]
      · exact hx
    · exact hx
  · cases hg : w.rob.gone x with
    | true => rfl
    | false =>
      rw [squashQueues_stay w n iq hn hg] at hs
      rw [Rob.gone_of_squashed hs] at hg
      cases hg
  · rw [squashQueues_insts]
    split
    · unfold squashInQueues
      split <;> rfl
    · rfl
  · rw [squashQueues_insts]
    split
    · unfold squashInQueues
      split <;> rfl
    · rfl
  · rw [squashQueues_stay w n iq hn hg]
    exact ⟨rfl, .inl ⟨rfl, rfl⟩⟩

theorem spec_of_quiet (hs : s.IewReady) (hq : Quiet w) (hsq : w.squash = none)
    (hf : Frame s.inFlight w.rob)
    (hstay : ∀ x, s.inFlight.gone x = false → w.rob.insts x = s.inFlight.insts x)
    (hl : ∀ x ∈ s.inFlight.instList, (w.rob.insts x).status.inLSQ → s.inFlight.gone x = false) :
    Spec s.inFlight none w := by
  have hno {P : Prop} {q : Nat × SquashCause} (hm : q ∈ w.raised) : P := by
    rw [hq.raised] at hm
    cases hm
  have hnone {P : Prop} {sig : IewSquash} (hsig : w.squash = some sig) : P := by
    rw [hsq] at hsig
    cases hsig
  refine ⟨hf, fun x hx hc => ?_, hl, fun b _ _ _ hg hne hex => ?_, fun _ => hno, fun _ => hno,
    fun _ => hnone, fun _ => hnone, fun _ => hnone, fun o ho => ?_⟩
  · rw [mispredicted_congr (hf.staticInst x) (hf.predPC x)
      (hf.straight x (isControl_of_redirects hc))]
    exact hs.straight x hx hc
  · rw [hstay b hg, hne] at hex
    cases hex
  · rw [hq.miss] at ho
    cases ho

theorem spec_start (hs : s.IewReady) (i : CycleIn) :
    Spec s.inFlight none (s.iewStart i) ∧ Quiet (s.iewStart i) := by
  unfold Core.iewStart
  split
  · next hsquash =>
    have hn := hs.squash hsquash
    generalize hw : (Iew.mk s.inFlight s.memDepViolator s.oblsMissInst false none [] []) = w₀
    have hrob : w₀.rob = s.inFlight := hw ▸ rfl
    rw [← hrob] at hn
    have hq : Quiet (w₀.squashQueues s.toIEW.doneSeqNum i.iqSquashed) := by
      refine ⟨?_, ?_, hw ▸ rfl, hw ▸ rfl⟩
      · simp [squashQueues, ← hw, hs.violator]
      · simp [squashQueues, ← hw, hs.miss]
    refine ⟨spec_of_quiet hs hq (hw ▸ rfl) (hrob ▸ frame_squashQueues w₀ _ _ hn)
      (fun x hg => ?_) fun x hx hl => ?_, hq⟩
    · rw [squashQueues_stay w₀ _ _ hn (hrob ▸ hg), hrob]
    · cases hg : s.inFlight.gone x with
      | false => rfl
      | true =>
        rw [squashQueues_insts, hrob, if_pos hx] at hl
        unfold squashInQueues at hl
        split at hl
        · cases hl
        · next hle => exact absurd (hs.queues x hx hg hl).2 hle
  · next hsquash =>
    have hq : Quiet (Iew.mk s.inFlight s.memDepViolator s.oblsMissInst false none [] []) :=
      ⟨hs.violator, hs.miss, rfl, rfl⟩
    refine ⟨spec_of_quiet hs hq rfl (.refl _) (fun _ _ => rfl) fun x hx hl => ?_, hq⟩
    cases hg : s.inFlight.gone x with
    | false => rfl
    | true => exact absurd (hs.queues x hx hg hl).1 hsquash

theorem iewTick_spec (hs : s.IewReady) (hr : s.iewTick c i = some w) :
    Spec s.inFlight none w ∧ w.memDepViolator = none ∧ w.oblsMissInst = none := by
  obtain ⟨w₁, hr₁, hr⟩ := bind_eq_some_iff.mp hr
  obtain ⟨w₂, hr₂, hr⟩ := bind_eq_some_iff.mp hr
  obtain ⟨h₀, hq₀⟩ := spec_start hs i
  obtain ⟨h₁, hq₁⟩ := h₀.dispatchInsts hq₀ hr₁
  obtain ⟨h₂, hq₂⟩ := h₁.lsqUpdates hq₁ hr₂
  exact h₂.executeInsts hq₂.violator hr

/-! ## The part of the buffer -/

/-- `r₀` is `r` with more, younger instructions. -/
structure Extends (r r₀ : Rob) : Prop where
  mem : ∀ x ∈ r.instList, x ∈ r₀.instList
  older : ∀ x ∈ r₀.instList, ∀ y ∈ r.instList, x ≤ y → x ∈ r.instList
  squashIt : r₀.squashIt = r.squashIt
  squashedSeqNum : r₀.squashedSeqNum = r.squashedSeqNum
  doneSquashing : r₀.doneSquashing = r.doneSquashing
  insts : ∀ x ∈ r.instList, r₀.insts x = r.insts x
  fixed : ∀ x, (r₀.insts x).fixed = (r.insts x).fixed
  mono : ∀ x, (r.insts x).squashed = true → (r₀.insts x).squashed = true
  status : ∀ x, (r₀.insts x).status = (r.insts x).status

/-- What the stage did to the instructions of `l`. -/
def within (w : Iew) (l : List Nat) : Iew :=
  { w with
    rob := { w.rob with instList := l }
    squash := w.squash.filter fun sig => decide (sig.squashedSeqNum ∈ l)
    raised := w.raised.filter fun q => decide (q.1 ∈ l) }

theorem within_squash {l : List Nat} {sig : IewSquash} :
    (w.within l).squash = some sig ↔ w.squash = some sig ∧ sig.squashedSeqNum ∈ l := by
  rw [within, Option.filter_eq_some_iff, decide_eq_true_eq]

theorem mem_within_raised {l : List Nat} {q : Nat × SquashCause} :
    q ∈ (w.within l).raised ↔ q ∈ w.raised ∧ q.1 ∈ l := by
  rw [within, mem_filter, decide_eq_true_eq]

section
variable {r r₀ r' : Rob} {x : Nat} {cause : SquashCause}

theorem Extends.gone (h : Extends r r₀) (hx : x ∈ r.instList) : r₀.gone x = r.gone x := by
  rw [Rob.gone, Rob.gone, Rob.doomed, Rob.doomed, h.insts x hx, h.doneSquashing, h.squashedSeqNum]

theorem Extends.frame (h : Extends r r₀) (hf : Frame r₀ r') :
    Frame r { r' with instList := r.instList } where
  instList := rfl
  squashIt := hf.squashIt.trans h.squashIt
  squashedSeqNum := hf.squashedSeqNum.trans h.squashedSeqNum
  doneSquashing := hf.doneSquashing.trans h.doneSquashing
  fixed x := (hf.fixed x).trans (h.fixed x)
  mono x hx := hf.mono x (h.mono x hx)
  squashed x hx hs := h.gone hx ▸ hf.squashed x (h.mem x hx) hs
  pending x := (hf.pending x).trans (by rw [h.status])
  straight x hc := by
    have hst : (r₀.insts x).staticInst = (r.insts x).staticInst :=
      (congrArg DynInst.staticInst (h.fixed x) :)
    exact (hf.straight x (hst ▸ hc)).trans (by rw [h.status])
  branch x hx hc hg := by
    have hb := hf.branch x (h.mem x hx)
    rw [h.insts x hx, h.gone hx] at hb
    exact hb hc hg

theorem Extends.raised (h : Extends r r₀) (hx : x ∈ r.instList) (hr : Raised r₀ r' x cause) :
    Raised r { r' with instList := r.instList } x cause where
  mem := hx
  alive := hr.alive
  guard hg := by
    obtain ⟨g, hgm, hle, hrest⟩ := hr.guard ((h.gone hx).trans hg)
    exact ⟨g, h.older g hgm x hx hle, hle, hrest⟩
  kind := by
    have hk := hr.kind
    rw [h.insts x hx, h.gone hx] at hk
    cases cause with
    | memOrder a => exact ⟨hk.1, hk.2.1, h.older a hk.2.2.1 x hx hk.2.2.2.le, hk.2.2.2⟩
    | mispredict => exact hk
    | oblsMiss => exact hk

/-- A cause of the buffer is older than all others, so its signal is among the buffer's. -/
theorem Spec.within (h : Spec r₀ none w) (hx : Extends r r₀) (hmiss : w.oblsMissInst = none) :
    Spec r none (w.within r.instList) where
  frame := hx.frame h.frame
  straight x hm hc := h.straight x (hx.mem x hm) (by rw [hx.insts x hm]; exact hc)
  lsq x hm hl := hx.gone hm ▸ h.lsq x (hx.mem x hm) hl
  found b hb _ hc hg hne hex hmis := by
    refine mem_within_raised.mpr
      ⟨h.found b (hx.mem b hb) nofun ?_ ((hx.gone hb).trans hg) ?_ hex hmis,
      hb⟩
    · rw [hx.insts b hb]
      exact hc
    · rw [hx.insts b hb]
      exact hne
  raised q hq := by
    obtain ⟨hq, hm⟩ := mem_within_raised.mp hq
    exact hx.raised hm (h.raised q hq)
  covered q hq := by
    obtain ⟨hq, hm⟩ := mem_within_raised.mp hq
    obtain ⟨sig, hsig, hle⟩ := h.covered q hq
    have hmem := (h.raised _ (h.signal sig hsig).1).mem
    exact ⟨sig, within_squash.mpr ⟨hsig, hx.older _ hmem q.1 hm hle⟩, hle⟩
  signal sig hs := by
    obtain ⟨hs, hm⟩ := within_squash.mp hs
    obtain ⟨hmem, hrest⟩ := h.signal sig hs
    exact ⟨mem_within_raised.mpr ⟨hmem, hm⟩, hrest⟩
  content sig hs hg := by
    obtain ⟨hs, hm⟩ := within_squash.mp hs
    obtain ⟨hb, hl⟩ := h.content sig hs ((hx.gone hm).trans hg)
    exact ⟨hb, hl⟩
  own sig hs := h.own sig (within_squash.mp hs).1
  miss o ho := by
    change w.oblsMissInst = some o at ho
    rw [hmiss] at ho
    cases ho

end

end Iew

theorem Core.inFlight_fixed (s : Core) (x : Nat) :
    (s.inFlight.insts x).fixed = (s.rob.insts x).fixed := by
  unfold inFlight
  split
  · dsimp only
    split <;> rfl
  · rfl

theorem Core.extends_inFlight {s : Core} (h : ∀ x ∈ s.notInROB, ∀ y ∈ s.rob.instList, y < x) :
    Iew.Extends s.rob s.inFlight := by
  have hfixed := inFlight_fixed s
  unfold inFlight at hfixed ⊢
  split
  · next hto =>
    rw [if_pos hto] at hfixed
    refine ⟨fun _ hx => hx, fun _ hx _ _ _ => hx, rfl, rfl, rfl, fun x hx => if_neg fun hn => ?_,
      hfixed, fun x hx => ?_, fun x => ?_⟩
    · exact absurd (h x hn x hx) (Nat.lt_irrefl x)
    · dsimp only
      split
      · rfl
      · exact hx
    · dsimp only
      split <;> rfl
  · refine ⟨fun _ hx => mem_append_left _ hx, fun x hx y hy hle => ?_, rfl, rfl, rfl,
      fun _ _ => rfl, fun _ => rfl, fun _ hx => hx, fun _ => rfl⟩
    rcases mem_append.mp hx with hx | hx
    · exact hx
    · exact absurd (h x hx y hy) (Nat.not_lt.mpr hle)

end SdoCore
