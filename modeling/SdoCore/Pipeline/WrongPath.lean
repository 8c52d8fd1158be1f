import SdoCore.Pipeline.Tick

/-! Wrong-path instructions and the visibility point in Spectre mode. A branch that has
executed with a mispredicted outcome is answered once a squash at or before it has been
started. Two invariants keep an unanswered branch in front of the visibility point:

* `Answers`: an older or equal branch has a delayed squash, or the branch is not ready to
  commit and the signal on its way to commit is for an instruction at or before it whose
  squash will not be delayed behind it;
* `Resolved`: once an instruction has been told that the branches before it are resolved,
  they are ready to commit, and a branch with a delayed squash is not.

Neither is kept by every cycle. IEW forwards one squash per cycle, the oldest, and
commit delays the squash of a load whose arguments are tainted; a younger misprediction of
the same cycle is then forgotten. And commit drops the signal of IEW while it waits for a
trap. `Timely` rules out these two cycles. -/

namespace SdoCore

open Rob Lib
open DynInst (readyToCommit taintPropDone)

namespace Core

variable {c : Config} {s s' : Core} {i : CycleIn} {w : Iew} {s₂ s₃ t s₄ : Core} {b : Nat}

/-- A squash at or before `b` has been started since `b` executed. -/
def SquashStarted (s : Core) (b : Nat) : Prop :=
  s.hist.squashSeen b = true ∨ s.rob.doneSquashing = false ∧ s.rob.squashedSeqNum ≤ b

/-- Nothing past its visibility point is behind a misprediction that no squash answers. -/
def NoWrongPath (s : Core) : Prop :=
  ∀ y ∈ s.rob.instList, (s.rob.insts y).squashed = false → (s.rob.insts y).isUnsquashable = true →
    ∀ b ∈ s.rob.instList, b < y → (s.rob.insts b).squashed = false →
      (s.rob.insts b).staticInst.isControl = true → (s.rob.insts b).status.executed = true →
      (s.rob.insts b).mispredicted = true → s.SquashStarted b

/-- IEW does not forward the squash of a tainted load in a cycle in which it found a
younger branch mispredicted. -/
def keepsBranches (s : Core) (w : Iew) : Bool :=
  w.squash.all fun sig =>
    decide (sig.cause = .mispredict) || !(s.rob.insts sig.squashedSeqNum).isArgsTainted ||
      w.raised.all fun q => decide (q.2 = .mispredict → q.1 ≤ sig.squashedSeqNum)

/-- Commit does not drop a signal of IEW: it waits for no trap, or the trap comes. -/
def hearsSignal (s : Core) (i : CycleIn) : Bool :=
  decide (s.status ≠ .TrapPending) || s.fromIEW.squash.isNone || s.trapSquash ||
    i.commit.trapEvent

/-- The first part is about the signal that the tick of IEW in this cycle sends. -/
def Timely (c : Config) (s : Core) (i : CycleIn) : Prop :=
  (s.iewTick c i).all (keepsBranches s) = true ∧ s.hearsSignal i = true

/-! ## The invariants -/

/-- A live branch, found mispredicted, for which no squash has been started. -/
structure Unanswered (s : Core) (b : Nat) : Prop where
  mem : b ∈ s.rob.instList
  control : (s.rob.insts b).staticInst.isControl = true
  alive : s.rob.gone b = false
  executed : (s.rob.insts b).status.executed = true
  mispredicted : (s.rob.insts b).mispredicted = true
  unseen : s.hist.squashSeen b = false

/-- The branch `p` at or before `b` has a delayed squash. -/
structure Delays (r : Rob) (p b : Nat) : Prop where
  mem : p ∈ r.instList
  le : p ≤ b
  control : (r.insts p).staticInst.isControl = true
  alive : r.gone p = false
  pending : (r.insts p).status.hasPendingSquash = true

/-- The signal will start a squash at or before `b`, or delay one that keeps `b` back. -/
structure Covers (r : Rob) (sig : IewSquash) (b : Nat) : Prop where
  mem : sig.squashedSeqNum ∈ r.instList
  le : sig.squashedSeqNum ≤ b
  alive : r.gone sig.squashedSeqNum = false
  prompt : (r.insts sig.squashedSeqNum).staticInst.isControl = true ∨
    (r.insts sig.squashedSeqNum).isArgsTainted = false

/-- `new` is the signal sent in this cycle. -/
def Answers (s : Core) (new : Option IewSquash) : Prop :=
  ∀ b, s.Unanswered b → (∃ p, Delays s.rob p b) ∨
    (s.rob.insts b).status.canCommit = false ∧
      ((∃ sig, s.fromIEW.squash = some sig ∧ Covers s.rob sig b) ∨
        b ∉ s.fromIEW.insts ∧ ∃ sig, new = some sig ∧ Covers s.rob sig b)

def Resolved (s : Core) : Prop :=
  ∀ y ∈ s.rob.instList, (s.rob.insts y).squashed = false →
    (s.rob.insts y).prevBrsResolved = true →
    ∀ p ∈ s.rob.instList, p < y → (s.rob.insts p).staticInst.isControl = true →
      s.rob.gone p = false → (s.rob.insts p).readyToCommit = true

/-- A delayed squash keeps its branch from committing. -/
theorem Delays.not_ready {r : Rob} {p : Nat} (h : Delays r p b) :
    (r.insts p).readyToCommit = false := by
  rw [readyToCommit, h.pending, squashed_of_not_gone h.alive]
  simp

/-- The two invariants keep the visibility point in front of an unanswered branch. -/
theorem noWrongPath_of_answers (hspec : c.isFuturistic = false) (hinv : c.isInvisibleSpec)
    (hm : Mid c s) (ha : s.Answers none) (hr : s.Resolved) : s.NoWrongPath := by
  intro y hy hsq hunsq b hb hlt hbsq hctl hex hmis
  have hprev : (s.rob.insts y).prevBrsResolved = true := by
    have hv := hm.settled y hy hunsq
    simpa [atVisibilityPoint, hspec, hinv] using hv
  cases hseen : s.hist.squashSeen b with
  | true => exact .inl hseen
  | false =>
    cases hgone : s.rob.gone b with
    | true =>
      rw [gone, hbsq, Bool.false_or] at hgone
      simp only [doomed, Bool.and_eq_true, Bool.not_eq_true', decide_eq_true_eq] at hgone
      exact .inr ⟨hgone.1, Nat.le_of_lt hgone.2⟩
    | false =>
      rcases ha b ⟨hb, hctl, hgone, hex, hmis, hseen⟩ with ⟨p, hp⟩ | ⟨hc, -⟩
      · have hready := hr y hy hsq hprev p hp.mem (Nat.lt_of_le_of_lt hp.le hlt) hp.control hp.alive
        rw [hp.not_ready] at hready
        cases hready
      · have hready := hr y hy hsq hprev b hb hlt hctl hgone
        rw [readyToCommit, hc] at hready
        cases hready

/-! ## What a cycle keeps -/

section
variable {r r' : Rob} {sig : IewSquash} {p : Nat}

theorem Delays.frame (h : Delays r p b) (hf : Iew.Frame r r') : Delays r' p b where
  mem := hf.instList ▸ h.mem
  le := h.le
  control := hf.staticInst p ▸ h.control
  alive := (hf.gone h.mem).trans h.alive
  pending := (hf.pending p).trans h.pending

theorem Covers.frame (h : Covers r sig b) (hf : Iew.Frame r r') : Covers r' sig b where
  mem := hf.instList ▸ h.mem
  le := h.le
  alive := (hf.gone h.mem).trans h.alive
  prompt := by
    rw [hf.staticInst, hf.isArgsTainted]
    exact h.prompt

theorem Covers.passes (h : Covers r sig b) (hp : Passes r r') (hb : b ∈ r.instList)
    (hg : r'.gone b = false) : Covers r' sig b where
  mem := hp.instList ▸ h.mem
  le := h.le
  alive := hp.older _ h.mem _ hb h.le hg h.alive
  prompt := by
    rw [hp.staticInst, hp.isArgsTainted]
    exact h.prompt

end

/-- A branch that has just been found mispredicted is covered by the signal of its cycle. -/
theorem newly_covered (hplain : ∀ x ∈ s.rob.instList, (s.rob.insts x).isFetchFault →
      (s.rob.insts x).isArgsTainted = false)
    (hs : Iew.Spec s.rob none (w.within s.rob.instList)) (hk : keepsBranches s w)
    (hb : b ∈ s.rob.instList) (hg : s.rob.gone b = false)
    (hctl : (s.rob.insts b).staticInst.isControl)
    (hq : (b, SquashCause.mispredict) ∈ (w.within s.rob.instList).raised) :
    ∃ sig, w.squash = some sig ∧ Covers (s.afterIew w).rob sig b := by
  obtain ⟨sig, hsig, hle⟩ := hs.covered _ hq
  have hf := hs.frame
  obtain ⟨hmem, -, -⟩ := hs.signal sig hsig
  have hr := hs.raised _ hmem
  refine ⟨sig, (Iew.within_squash.mp hsig).1, hr.mem, hle,
    Iew.not_gone_of_le hr.alive hle ((hf.gone hb).trans hg), ?_⟩
  rw [show ((s.afterIew w).rob.insts sig.squashedSeqNum).staticInst = _ from hf.staticInst _,
    show ((s.afterIew w).rob.insts sig.squashedSeqNum).isArgsTainted = _ from hf.isArgsTainted _]
  cases hta : (s.rob.insts sig.squashedSeqNum).isArgsTainted with
  | false => exact .inr rfl
  | true =>
    -- the load is at or after the branch, so it is the branch
    left
    by_cases hcause : sig.cause = .mispredict
    · have hkind := hr.kind
      rw [hcause] at hkind
      refine (Bool.or_eq_true _ _ ▸ hkind.1).resolve_right fun hnop => ?_
      rw [hplain _ hr.mem hnop] at hta
      cases hta
    · rw [keepsBranches, (Iew.within_squash.mp hsig).1, Option.all_some, hta] at hk
      simp only [hcause, decide_false, Bool.not_true, Bool.or_self, Bool.false_or,
        List.all_eq_true, decide_eq_true_eq] at hk
      have hle' := hk _ (Iew.mem_within_raised.mp hq).1 rfl
      rw [Nat.le_antisymm hle hle']
      exact hctl

theorem Inv.answers_afterIew (h : Inv c s) (hs : Iew.Spec s.rob none (w.within s.rob.instList))
    (hk : keepsBranches s w) (ha : s.Answers none) : (s.afterIew w).Answers w.squash := by
  intro b hb
  have hf := hs.frame
  have hmem : b ∈ s.rob.instList := hf.instList ▸ hb.mem
  have hctl : (s.rob.insts b).staticInst.isControl = true := hf.staticInst b ▸ hb.control
  have halive : s.rob.gone b = false := (hf.gone hmem).symm.trans hb.alive
  obtain ⟨hcan, ⟨hex, hpc⟩ | ⟨hne, hnc, hex⟩⟩ := hf.branch b hmem hctl halive
  · -- it had executed before
    have hex' : (s.rob.insts b).status.executed = true := hex.symm.trans hb.executed
    have hseen : s.hist.squashSeen b = false := by
      have := hb.unseen
      simpa [afterIew, hex'] using this
    have hmis : (s.rob.insts b).mispredicted = true :=
      (Iew.mispredicted_congr (hf.staticInst b) (hf.predPC b) hpc).symm.trans hb.mispredicted
    rcases ha b ⟨hmem, hctl, halive, hex', hmis, hseen⟩ with ⟨p, hp⟩ | ⟨hc,
      ⟨sig, hsig, hcov⟩ | ⟨-, hno⟩⟩
    · exact .inl ⟨p, hp.frame hf⟩
    · exact .inr ⟨hcan.trans hc, .inl ⟨sig, hsig, hcov.frame hf⟩⟩
    · obtain ⟨sig, hnone, -⟩ := hno
      cases hnone
  · -- it executes in this cycle
    have hq := hs.found b hmem nofun hctl halive hne hb.executed hb.mispredicted
    exact .inr ⟨hcan.trans hnc,
      .inr ⟨h.not_sent hctl hne, newly_covered h.plain hs hk hmem halive hctl hq⟩⟩

theorem Chosen.seen (h : Chosen c s s') {x : Nat} (hx : s.hist.squashSeen x) :
    s'.hist.squashSeen x := by
  cases h with
  | nothing _ he => rw [he]; exact hx
  | delay sig _ _ _ _ hseen => rw [hseen]; exact hx
  | fromIEW sig _ _ _ hs => rw [hs.seen, hx, Bool.or_true]
  | fromROB x _ _ _ _ _ _ _ hs => rw [hs.seen, hx, Bool.or_true]

/-- A signal for a live instruction is heard unless commit waits for a trap. -/
theorem Mid.takesSignal (h : Mid c s) (hs : s.status ≠ .TrapPending) {n : Nat}
    (hn : n ∈ s.rob.instList) (hg : s.rob.gone n = false) : s.takesSignal n := by
  simp [Core.takesSignal, hs, h.young n hn hg]

/-- A delayed squash of a branch stays delayed, or it is started. -/
theorem Chosen.delays (h : Chosen c s s') {p : Nat} (hp : Delays s.rob p b)
    (hb : b ∈ s.rob.instList) (hg : s'.rob.gone b = false) (hseen : s'.hist.squashSeen b = false) :
    Delays s'.rob p b := by
  have hpass := h.passes
  have halive : s'.rob.gone p = false := hpass.older p hp.mem b hb hp.le hg hp.alive
  refine ⟨hpass.instList ▸ hp.mem, hp.le, hpass.staticInst p ▸ hp.control, halive, ?_⟩
  cases h with
  | nothing _ he => rw [he]; exact hp.pending
  | delay sig _ _ _ he =>
    rw [he]
    by_cases hv : p = sig.squashedSeqNum
    · simp [setPending, Rob.modify, hv]
    · simpa [setPending, Rob.modify, hv] using hp.pending
  | fromIEW sig _ _ _ hs => rw [hs.takes.insts halive]; exact hp.pending
  | fromROB x _ _ _ _ _ _ _ hs =>
    have hpx : p ≠ x := by
      rintro rfl
      -- the squash that starts is the one `p` asked for, at or before `b`
      have hle : (if (s.rob.insts p).staticInst.isLoad then p - 1 else p) ≤ b :=
        Nat.le_trans (by split <;> omega) hp.le
      rw [hs.seen, decide_eq_true hle] at hseen
      cases hseen
    rw [hs.takes.insts halive]
    simpa [setPending, Rob.modify, hpx] using hp.pending

/-- A signal that covers `b` is heard: its squash starts, or waits at a branch. -/
theorem Chosen.covers (hc : Chosen c s s') (h : Mid c s) (hs : s.status ≠ .TrapPending)
    {sig : IewSquash} (hsig : s.fromIEW.squash = some sig) (hcov : Covers s.rob sig b)
    (hb : b ∈ s.rob.instList) (hg : s'.rob.gone b = false) (hseen : s'.hist.squashSeen b = false) :
    ∃ p, Delays s'.rob p b := by
  have htakes := h.takesSignal hs hcov.mem hcov.alive
  have hpass := hc.passes
  have halive := hpass.older _ hcov.mem b hb hcov.le hg hcov.alive
  cases hc with
  | nothing hno => exact absurd htakes (by rw [hno sig hsig]; simp)
  | delay sig' hsig' _ hta he =>
    rw [hsig] at hsig'
    cases hsig'
    have hctl : (s.rob.insts sig.squashedSeqNum).staticInst.isControl = true := by
      rcases hcov.prompt with hctl | hclean
      · exact hctl
      · rw [hta] at hclean
        cases hclean
    refine ⟨sig.squashedSeqNum, hpass.instList ▸ hcov.mem, hcov.le,
      hpass.staticInst _ ▸ hctl, halive, ?_⟩
    rw [he]
    simp [setPending, Rob.modify]
  | fromIEW sig' hsig' _ _ hst =>
    rw [hsig] at hsig'
    cases hsig'
    have hle : (if sig.cause = .mispredict then sig.squashedSeqNum else sig.squashedSeqNum - 1) ≤
      b :=
      Nat.le_trans (by split <;> omega) hcov.le
    rw [hst.seen, decide_eq_true hle] at hseen
    cases hseen
  | fromROB x hno => exact absurd htakes (by rw [hno sig hsig]; simp)

section
variable {j : CommitIn} {s₁ : Core} {new : Option IewSquash} (h : Tick c j s₁ s₂ s₃ t s₄)
include h

theorem Tick.unanswered₁ (hb : s₃.Unanswered b) : s₁.Unanswered b := by
  have hp := h.passes
  have hmem : b ∈ s₁.rob.instList := hp.instList ▸ hb.mem
  refine ⟨hmem, hp.staticInst b ▸ hb.control, hp.not_gone hmem hb.alive,
    hp.executed b ▸ hb.executed, hp.mispredicted b ▸ hb.mispredicted, ?_⟩
  cases hseen : s₁.hist.squashSeen b with
  | false => rfl
  | true =>
    have hseen₃ := h.chosen.seen (h.before.seen b hseen)
    rw [hb.unseen] at hseen₃
    cases hseen₃

/-- After commit's choice the signal it saw no longer matters. -/
theorem Tick.answers₃ (hear : s₂.status = .TrapPending → s₁.fromIEW.squash = none)
    (ha : s₁.Answers new) (hb : s₃.Unanswered b) : (∃ p, Delays s₃.rob p b) ∨
      (s₁.rob.insts b).status.canCommit = false ∧ b ∉ s₁.fromIEW.insts ∧
        ∃ sig, new = some sig ∧ Covers s₃.rob sig b := by
  have hp₁ : Passes s₁.rob s₂.rob := .of_takes h.before.takes
  have hb₁ := h.unanswered₁ hb
  have hmem₂ : b ∈ s₂.rob.instList := hp₁.instList ▸ hb₁.mem
  have hgone₂ := h.chosen.passes.not_gone hmem₂ hb.alive
  rcases ha b hb₁ with ⟨p, hp⟩ | ⟨hcan, ⟨sig, hsig, hcov⟩ | ⟨hsent, sig, hnew, hcov⟩⟩
  · have halive := hp₁.older p hp.mem b hb₁.mem hp.le hgone₂ hp.alive
    have hp₂ : Delays s₂.rob p b := by
      refine ⟨hp₁.instList ▸ hp.mem, hp.le, hp₁.staticInst p ▸ hp.control, halive, ?_⟩
      rw [h.before.takes.insts halive]
      exact hp.pending
    exact .inl ⟨p, h.chosen.delays hp₂ hmem₂ hb.alive hb.unseen⟩
  · have hs : s₂.status ≠ .TrapPending := fun ht => by
      rw [hear ht] at hsig
      cases hsig
    exact .inl (h.chosen.covers h.before.mid hs (h.before.fromIEW ▸ hsig)
      (hcov.passes hp₁ hb₁.mem hgone₂) hmem₂ hb.alive hb.unseen)
  · exact .inr ⟨hcan, hsent, sig, hnew, hcov.passes h.passes hb₁.mem hb.alive⟩

/-- A branch that is unanswered after the tick was so before commitment. -/
theorem Tick.unanswered₃ (htop : ∀ x ∈ s₁.rob.instList, x ≤ s₁.globalSeqNum)
    (hb : s₄.Unanswered b) : s₃.Unanswered b := by
  have hp := h.passes
  rcases h.mem hb.mem with hmem | ⟨-, hnew⟩
  · have hle := htop b hmem
    exact ⟨hp.instList ▸ hmem, (hp.staticInst b).trans (h.staticInst hle).symm ▸ hb.control,
      (h.gone₃ hle).symm.trans hb.alive,
      ((hp.executed b).trans (h.executed hle).symm).trans hb.executed,
      ((hp.mispredicted b).trans (h.mispredicted hle).symm).trans hb.mispredicted,
      h.hist ▸ hb.unseen⟩
  · have hex := hb.executed
    rw [h.ends.executed, hnew.executed] at hex
    cases hex

/-- Commitment leaves a delayed squash where it is. -/
theorem Tick.delays₄ {p : Nat} (hle : p ≤ s₁.globalSeqNum) (hp : Delays s₃.rob p b) :
    Delays s₄.rob p b := by
  have hstat : (s₄.rob.insts p).staticInst = (s₃.rob.insts p).staticInst :=
    (h.staticInst hle).trans (h.passes.staticInst p).symm
  refine ⟨?_, hp.le, hstat ▸ hp.control, (h.gone₃ hle).trans hp.alive, ?_⟩
  · rw [h.ends.instList]
    exact h.commits.kept p hp.mem
      ⟨p, hp.mem, Nat.le_refl p, squashed_of_not_gone hp.alive, .inl hp.not_ready⟩
  · rw [h.ends.pending]
    have hold := congrArg DynInst.status (h.bare_t hle)
    exact (congrArg Status.hasPendingSquash hold :).trans hp.pending

/-- Taint only goes away, so a signal that covers a branch goes on doing so. -/
theorem Tick.covers₄ {sig : IewSquash} (hle : sig.squashedSeqNum ≤ s₁.globalSeqNum)
    (hdone : (s₁.rob.insts sig.squashedSeqNum).taintPropDone)
    (hmem : sig.squashedSeqNum ∈ s₄.rob.instList) (hcov : Covers s₃.rob sig b) :
    Covers s₄.rob sig b := by
  have hstat : (s₄.rob.insts sig.squashedSeqNum).staticInst =
      (s₃.rob.insts sig.squashedSeqNum).staticInst :=
    (h.staticInst hle).trans (h.passes.staticInst _).symm
  refine ⟨hmem, hcov.le, (h.gone₃ hle).trans hcov.alive, ?_⟩
  rcases hcov.prompt with hctl | hclean
  · exact .inl (hstat ▸ hctl)
  right
  have hdone₃ : (s₃.rob.insts sig.squashedSeqNum).taintPropDone = true :=
    (congrArg taintPropDone (h.passes.fixed sig.squashedSeqNum) :).trans hdone
  have ht : (t.rob.insts sig.squashedSeqNum).taintPropDone = true ∧
      (t.rob.insts sig.squashedSeqNum).isArgsTainted = false :=
    ⟨(congrArg taintPropDone (h.bare_t hle) :).trans hdone₃,
      (congrArg DynInst.isArgsTainted (h.bare_t hle) :).trans hclean⟩
  have htaint := (h.ends.taint _ (h.ends.instList ▸ hmem) ht.1).1
  rw [ht.2] at htaint
  exact Bool.eq_false_iff.mpr fun hta => absurd (htaint hta) (by simp)

end

theorem Inv.answers (h : Inv c s) (hp : Parts c s i s' w s₂ s₃ t s₄) (ht : Timely c s i)
    (ha : s.Answers none) : s'.Answers none := by
  have hk : keepsBranches s w = true := by
    have := ht.1
    rwa [hp.iew, Option.all_some] at this
  have hf := hp.spec.frame
  have htop : ∀ x ∈ (s.afterIew w).rob.instList, x ≤ (s.afterIew w).globalSeqNum :=
    fun x hx => h.mid.top x hx
  have hear : s₂.status = .TrapPending → s.fromIEW.squash = none := fun hs => by
    obtain ⟨h1, h2, h3⟩ := hp.tick.before.trap hs
    have hh := ht.2
    change s.status = .TrapPending at h1
    change s.trapSquash = false at h2
    simpa [hearsSignal, h1, h2, h3] using hh
  rw [hp.eq]
  intro b hb
  have hb₄ : s₄.Unanswered b := { hb with }
  have hb₃ := hp.tick.unanswered₃ htop hb₄
  have hmem := (hp.tick.unanswered₁ hb₃).mem
  rcases hp.tick.answers₃ hear (h.answers_afterIew hp.spec hk ha) hb₃ with
    ⟨p, hdel⟩ | ⟨hcan, hsent, sig, hsig, hcov⟩
  · exact .inl ⟨p, hp.tick.delays₄ (htop p (hp.tick.passes.instList ▸ hdel.mem)) hdel⟩
  refine .inr ⟨?_, .inl ⟨sig, hsig, ?_⟩⟩
  · exact (hp.tick.canCommit hmem (htop b hmem) hb.alive
      (hp.tick.unanswered₁ hb₃).control hsent).trans hcan
  have hmem₁ : sig.squashedSeqNum ∈ (s.afterIew w).rob.instList :=
    hp.tick.passes.instList ▸ hcov.mem
  have hdone : (w.rob.insts sig.squashedSeqNum).taintPropDone = true :=
    (congrArg taintPropDone (hf.fixed _) :).trans (h.taintDone _ hmem₁)
  exact hp.tick.covers₄ (htop _ hmem₁) hdone
    (hp.raised_mem (hp.spec.signal sig (Iew.within_squash.mpr ⟨hsig, hmem₁⟩)).1) hcov

/-- A ready branch stays ready: commit delays no squash of a branch that is ready. -/
theorem Tick.ready {j : CommitIn} {s₁ : Core} {p : Nat} (h : Tick c j s₁ s₂ s₃ t s₄)
    (hmem : p ∈ s₁.rob.instList) (hle : p ≤ s₁.globalSeqNum)
    (hctl : (s₁.rob.insts p).staticInst.isControl) (hg : s₄.rob.gone p = false)
    (hr : (s₁.rob.insts p).readyToCommit) : (s₄.rob.insts p).readyToCommit := by
  have hp₁ : Passes s₁.rob s₂.rob := .of_takes h.before.takes
  have hg₃ : s₃.rob.gone p = false := (h.gone₃ hle).symm.trans hg
  have hg₂ := h.chosen.passes.not_gone (hp₁.instList ▸ hmem) hg₃
  have hready : (s₁.rob.insts p).status.canCommit = true ∧
      (s₁.rob.insts p).status.hasPendingSquash = false := by
    have hsq := squashed_of_not_gone (h.not_gone hmem hle hg)
    simpa [readyToCommit, hsq] using hr
  have hr₂ : s₂.rob.insts p = s₁.rob.insts p := h.before.takes.insts hg₂
  have hcan₃ : (s₃.rob.insts p).status.canCommit = true := by
    rw [h.passes.alive p hmem hg₃]
    exact hready.1
  have hpend₃ : (s₃.rob.insts p).status.hasPendingSquash = false := by
    cases h.chosen with
    | nothing _ he => rw [he, hr₂]; exact hready.2
    | delay sig hsig ht _ he =>
      have hne : p ≠ sig.squashedSeqNum := by
        rintro rfl
        -- the signal for a branch finds it not ready yet
        have hfresh := (h.hears sig hsig ht).fresh (hp₁.staticInst _ ▸ hctl) hg₂
        rw [hr₂, hready.1] at hfresh
        cases hfresh
      rw [he]
      simpa [setPending, Rob.modify, hne, hr₂] using hready.2
    | fromIEW sig _ _ _ hs => rw [hs.takes.insts hg₃, hr₂]; exact hready.2
    | fromROB x _ _ _ _ _ _ _ hs =>
      rw [hs.takes.insts hg₃]
      by_cases hpx : p = x
      · simp [setPending, Rob.modify, hpx]
      · simpa [setPending, Rob.modify, hpx, hr₂] using hready.2
  have ht : (t.rob.insts p).status.canCommit = true ∧
      (t.rob.insts p).status.hasPendingSquash = false := by
    have hold := congrArg DynInst.status (h.bare_t hle)
    exact ⟨(h.commits.branch p (h.global₃ ▸ hle) (h.passes.staticInst p ▸ hctl)).trans hcan₃,
      (congrArg Status.hasPendingSquash hold :).trans hpend₃⟩
  rw [readyToCommit, h.ends.marked p ht.1, h.ends.pending, ht.2]
  rfl

theorem Inv.resolved (h : Inv c s) (hp : Parts c s i s' w s₂ s₃ t s₄) (hr : s.Resolved) :
    s'.Resolved := by
  have hf := hp.spec.frame
  have hpass := hp.tick.passes
  rw [hp.eq]
  intro y hy hsq hprev p hpm hlt hctl hg
  change (s₄.rob.insts y).squashed = false at hsq
  rcases hp.tick.ends.prevBrs y hprev with hold | hall
  · -- `y` was told before this cycle, so it and what is older than it were there
    have hy₁ : y ∈ s.rob.instList := by
      rcases hp.tick.mem hy with hm | ⟨-, hnew⟩
      · exact hm
      · rw [hnew.prevBrs] at hold
        cases hold
    have hytop : y ≤ s.globalSeqNum := h.mid.top y hy₁
    have hp₁ : p ∈ s.rob.instList := by
      rcases hp.tick.mem hpm with hm | ⟨hgt, -⟩
      · exact hm
      · change s.globalSeqNum < p at hgt
        omega
    have hptop : p ≤ s.globalSeqNum := h.mid.top p hp₁
    have hstat := (hp.tick.staticInst (x := p) hptop).trans (hf.staticInst p)
    have hctl₀ : (s.rob.insts p).staticInst.isControl = true := hstat ▸ hctl
    have hg₁ := hp.tick.not_gone hp₁ hptop hg
    have hg₀ : s.rob.gone p = false := (hf.gone hp₁).symm.trans hg₁
    have hb := hp.tick.bare_t (x := y) hytop
    have hkeep : (t.rob.insts y).prevBrsResolved = (s₃.rob.insts y).prevBrsResolved ∧
        (t.rob.insts y).squashed = (s₃.rob.insts y).squashed :=
      ⟨(congrArg DynInst.prevBrsResolved hb :), (congrArg DynInst.squashed hb :)⟩
    have hprev₀ : (s.rob.insts y).prevBrsResolved = true := by
      rw [hkeep.1] at hold
      have hfix := (hpass.fixed y).trans (hf.fixed y)
      exact (congrArg DynInst.prevBrsResolved hfix :).symm.trans hold
    have hsq₀ : (s.rob.insts y).squashed = false := by
      rw [hp.tick.ends.squashed, hkeep.2] at hsq
      refine Bool.eq_false_iff.mpr fun hyes => ?_
      rw [hpass.mono y (hf.mono y hyes)] at hsq
      cases hsq
    have hready := hr y hy₁ hsq₀ hprev₀ p hp₁ hlt hctl₀ hg₀
    have hready₁ : ((w.within s.rob.instList).rob.insts p).readyToCommit = true := by
      have hsqp := squashed_of_not_gone hg₀
      have hsqp₁ := squashed_of_not_gone hg₁
      simp only [readyToCommit, hsqp] at hready
      change ((w.within s.rob.instList).rob.insts p).squashed = false at hsqp₁
      rw [readyToCommit, hsqp₁, hf.pending, (hf.branch p hp₁ hctl₀ hg₀).1]
      exact hready
    exact hp.tick.ready hp₁ hptop ((congrArg (·.isControl) (hf.staticInst p) :).trans hctl₀) hg
      hready₁
  · exact hall p (hp.tick.ends.instList ▸ hpm) hlt hctl

/-! ## Runs -/

/-- What every cycle of a timely run keeps. -/
structure Guarded (c : Config) (s : Core) : Prop where
  inv : Inv c s
  answers : s.Answers none
  resolved : s.Resolved

theorem Guarded.start (h : s.Start) : Guarded c s := by
  refine ⟨.start h, fun b hb => ?_, fun y hy => ?_⟩
  · have := hb.mem
    rw [h.instList] at this
    cases this
  · rw [h.instList] at hy
    cases hy

theorem Guarded.cycle (hstt : c.stt) (himp : c.impChannel) (h : Guarded c s)
    (ht : Timely c s i) (hr : s.cycle c i = some s') : Guarded c s' := by
  obtain ⟨w, s₂, s₃, t, s₄, hp⟩ := h.inv.parts hstt himp hr
  exact ⟨h.inv.cycle hstt himp hr, h.inv.answers hp ht h.answers, h.inv.resolved hp h.resolved⟩

end Core

/-- In every run whose cycles are all timely, no instruction is past its visibility point
behind a mispredicted branch for which no squash has been started. -/
theorem no_wrong_path {c : Config} (hstt : c.stt = true) (himp : c.impChannel = true)
    (hspec : c.isFuturistic = false) (hinv : c.isInvisibleSpec = true) {s : Core}
    (h : (coreMachine c).ReachWhen (Core.Timely c) s) : s.NoWrongPath := by
  have hg : Core.Guarded c s :=
    h.invariant (fun _ hs => .start hs) fun _ _ _ hg ht hs => hg.cycle hstt himp ht hs
  exact Core.noWrongPath_of_answers hspec hinv hg.inv.mid hg.answers hg.resolved

/-! ## A violation and a misprediction in one cycle -/

/-- A branch, a load, a store, a load whose address is the value of the first, a second
branch, and an instruction behind it. -/
def violationProgram : List (Nat × DynInst) :=
  let reg : RegId := ⟨.intRegClass, 0⟩
  [(1, renamed branchInst [] []), (2, renamed loadInst [] [⟨reg, 40⟩]),
    (3, renamed storeInst [] []),
    (4, renamed loadInst [⟨reg, reg, 40, none⟩] []), (5, renamed branchInst [] []),
    (6, renamed plainInst [] [])]

/-- The loads have executed when the store and the branches do. -/
def violationRun (late : List CycleIn) : List CycleIn :=
  [{ commit := { renamed := violationProgram } }, { dispatched := [1, 2, 3, 4, 5, 6] },
    { execs := [⟨2, .access 64 8⟩] }, { execs := [⟨4, .access 128 8⟩] }] ++ late

def firstBranch : Iew.Exec := ⟨1, .computed {} false⟩

/-- The store overlaps the second load. -/
def storeExec : Iew.Exec := ⟨3, .access 128 8⟩

def secondBranch : Iew.Exec := ⟨5, .computed { npc := 100 } false⟩

/-- The store and the second branch execute in one cycle. -/
def sameCycle : List CycleIn :=
  violationRun [{ execs := [firstBranch, storeExec, secondBranch], completed := [1, 3, 5] }, {}]

/-- The second branch executes a cycle after the store. -/
def nextCycle : List CycleIn :=
  violationRun [{ execs := [firstBranch, storeExec], completed := [1, 3] },
    { execs := [secondBranch], completed := [5] }, {}]

instance (c : Config) (s : Core) (i : CycleIn) : Decidable (Core.Timely c s i) :=
  inferInstanceAs (Decidable (_ ∧ _))

/-- With a cycle between them the squash of the branch starts before what is behind it
passes its visibility point. -/
theorem no_wrong_path_nextCycle :
    (coreAfter nextCycle).NoWrongPath ∧ (coreAfter nextCycle).rob.squashedSeqNum = 5 :=
  ⟨no_wrong_path (c := spectreConfig) rfl rfl rfl rfl
    (.run (.start emptyCore_start) nextCycle (by decide +kernel)
      (Machine.run_getD (by decide +kernel))), by decide +kernel⟩

/-- The squash of the load waits, that of the branch is forgotten, and what is behind the
branch passes its visibility point. -/
theorem wrong_path_visible :
    ¬ ∀ (c : Config) (s : Core), c.stt = true → c.impChannel = true → c.isFuturistic = false →
      c.isInvisibleSpec = true → c.loadInExec = true → (coreMachine c).Reach s →
        s.NoWrongPath := by
  intro h
  have hreach : (coreMachine spectreConfig).Reach (coreAfter sameCycle) :=
    Machine.reach_run emptyCore_start (Machine.run_getD (by decide +kernel))
  have hno := h spectreConfig _ rfl rfl rfl rfl rfl hreach
  have hstarted := hno 6 (by decide +kernel) (by decide +kernel) (by decide +kernel)
    5 (by decide +kernel) (by decide) (by decide +kernel) (by decide +kernel) (by decide +kernel)
    (by decide +kernel)
  rcases hstarted with hs | ⟨hs, -⟩
  · have : (coreAfter sameCycle).hist.squashSeen 5 = false := by decide +kernel
    rw [this] at hs
    cases hs
  · have : (coreAfter sameCycle).rob.doneSquashing = true := by decide +kernel
    rw [this] at hs
    cases hs

end SdoCore
