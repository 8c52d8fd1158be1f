import SdoCore.Pipeline.Tick

/-! No squash is lost. From the cycle in which IEW meets a cause for `x` the core owes a
squash at or before `x`. Until `x` is squashed, or until the squash of the branch `x` is
over, one of these watches over it:

* commit waits for a trap, which squashes everything, also an `x` it never inserted;
* a squash that takes `x` is on its way to commit or in progress in the buffer;
* an instruction at or before `x` has a delayed squash, which also keeps it, and so `x`,
  from committing. -/

namespace SdoCore

open List
open Rob Lib

/-- The bound of the squash the signal asks for. -/
def IewSquash.bound (sig : IewSquash) : Nat :=
  if sig.includeSquashInst then sig.squashedSeqNum - 1 else sig.squashedSeqNum

namespace Core

variable {c : Config} {s s' : Core} {i : CycleIn} {w : Iew} {s₂ s₃ t s₄ : Core} {x : Nat}

/-- A squash with the bound `n` takes `x`, or is that of the branch or no-op `x`. -/
def Reaches (s : Core) (n x : Nat) : Prop :=
  n < x ∨ n = x ∧ (s.rob.insts x).redirects = true

def SquashComing (s : Core) (x : Nat) : Prop :=
  (∃ sig, s.fromIEW.squash = some sig ∧ s.Reaches sig.bound x) ∨
    s.rob.doneSquashing = false ∧ s.Reaches s.rob.squashedSeqNum x

def PendingBefore (s : Core) (x : Nat) : Prop :=
  ∃ p ∈ s.rob.instList, p ≤ x ∧ (s.rob.insts p).squashed = false ∧
    (s.rob.insts p).status.hasPendingSquash = true

/-- The squash owed to `x` is not forgotten. -/
def Answered (s : Core) (x : Nat) : Prop :=
  s.status = .TrapPending ∨ s.SquashComing x ∨ s.PendingBefore x

/-- `x` was never inserted; the trap is still to come, or its squash has just been sent to the
other stages. -/
def NotInserted (s : Core) (x : Nat) : Prop :=
  x ∈ s.notInROB ∧
    (s.status = .TrapPending ∨ s.toIEW.squash = true ∧ s.toIEW.doneSeqNum < x)

/-- `x` is not squashed, and if it is a branch, or the no-op of a fault, its squash is not
over. -/
def Unserved (x : Nat) (s : Core) : Prop :=
  (s.rob.insts x).squashed = false ∧
    ((s.rob.insts x).redirects = true → s.hist.debt x ≠ .paid)

/-! ## The invariant -/

/-- What watches over `x`, the signal on its way to commit apart. -/
inductive Watch (s : Core) (x : Nat) : Prop
  | gone : s.rob.gone x = true → Watch s x
  | trap : s.status = .TrapPending → Watch s x
  | pending (p : Nat) : p ∈ s.rob.instList → p ≤ x → s.rob.gone p = false →
      (s.rob.insts p).status.hasPendingSquash = true → Watch s x
  | serving : s.hist.debt x = .serving → (s.rob.insts x).redirects = true →
      s.rob.squashedSeqNum = x → s.youngestSeqNum ≤ x → s.status = .ROBSquashing → Watch s x

/-- The signal is for a live instruction at or before `x`. -/
structure SignalFor (s : Core) (x : Nat) (sig : IewSquash) : Prop where
  squash : s.fromIEW.squash = some sig
  mem : sig.squashedSeqNum ∈ s.rob.instList
  le : sig.squashedSeqNum ≤ x
  alive : s.rob.gone sig.squashedSeqNum = false

/-- At the end of a cycle. -/
structure DebtInv (s : Core) : Prop where
  top : ∀ x, s.hist.debt x ≠ .paid → x ≤ s.globalSeqNum
  watch : ∀ x, s.hist.debt x ≠ .paid → (s.rob.insts x).squashed = true ∨ x ∈ s.notInROB ∨
    x ∈ s.rob.instList ∧ (Watch s x ∨ ∃ sig, SignalFor s x sig)
  serving : ∀ x, s.hist.debt x = .serving → x ∈ s.rob.instList ∧ s.rob.doneSquashing = false ∧
    ((s.rob.insts x).redirects = false → s.rob.gone x = true)

/-! ## IEW -/

theorem Watch.afterIew (hf : Iew.Frame s.rob (s.afterIew w).rob) (hx : x ∈ s.rob.instList)
    (hraised : w.raised.any (·.1 == x) = false) (h : Watch s x) : Watch (s.afterIew w) x := by
  cases h with
  | gone hg => exact .gone ((hf.gone hx).trans hg)
  | trap ht => exact .trap ht
  | pending p hp hle hg hpend =>
    exact .pending p hp hle ((hf.gone hp).trans hg) ((hf.pending p).trans hpend)
  | serving hd hre hb hy hst =>
    refine .serving ?_ ((congrArg DynInst.redirects (hf.fixed x) :).trans hre)
      (hf.squashedSeqNum.trans hb) hy hst
    show (if w.raised.any (·.1 == x) then Debt.owed else s.hist.debt x) = .serving
    rw [hraised]
    exact hd

theorem SignalFor.afterIew {sig : IewSquash} (hf : Iew.Frame s.rob (s.afterIew w).rob)
    (h : SignalFor s x sig) : SignalFor (s.afterIew w) x sig :=
  ⟨h.squash, h.mem, h.le, (hf.gone h.mem).trans h.alive⟩

/-! ## Commit, up to its choice -/

section
variable {j : CommitIn} {s₁ : Core}

theorem Watch.before (hb : Before c j s₁ s₂) (hx : x ∈ s₁.rob.instList)
    (hbusy : s₁.hist.debt x = .serving → s₁.rob.doneSquashing = false) (h : Watch s₁ x) :
    Watch s₂ x := by
  have hp : Passes s₁.rob s₂.rob := .of_takes hb.takes
  cases hg₂ : s₂.rob.gone x with
  | true => exact .gone hg₂
  | false =>
    cases h with
    | gone hg =>
      rw [hp.gone x hx hg] at hg₂
      cases hg₂
    | trap ht =>
      rcases hb.trapped ht with ht | hall
      · exact .trap ht
      · exact .gone (hall x hx)
    | pending p hpm hle hg hpend =>
      have halive := hp.older p hpm x hx hle hg₂ hg
      refine .pending p (hp.instList ▸ hpm) hle halive ?_
      rw [hb.takes.insts halive]
      exact hpend
    | serving hd hre hbound hy _ =>
      rcases hb.bound with ⟨hsame, hyoung⟩ | hall
      · exact .serving (by rw [hb.debt]; exact hd)
          ((congrArg DynInst.redirects (hp.fixed x) :).trans hre) (hsame.trans hbound)
          (hyoung ▸ hy) (hb.busy (hbusy hd))
      · exact .gone (hall x hx)

theorem SignalFor.before {sig : IewSquash} (hb : Before c j s₁ s₂) (hx : x ∈ s₁.rob.instList)
    (h : SignalFor s₁ x sig) : Watch s₂ x ∨ SignalFor s₂ x sig := by
  have hp : Passes s₁.rob s₂.rob := .of_takes hb.takes
  cases hg₂ : s₂.rob.gone x with
  | true => exact .inl (.gone hg₂)
  | false =>
    exact .inr ⟨hb.fromIEW ▸ h.squash, hp.instList ▸ h.mem, h.le,
      hp.older _ h.mem x hx h.le hg₂ h.alive⟩

end

/-! ## The choice -/

/-- A squash with the bound `n ≤ x` takes `x` or is that of the branch `x`. -/
theorem Watch.starts {r : Rob} {n y : Nat} (hs : Starts c s r s' n y) (hx : x ∈ s.rob.instList)
    (hd : s.hist.debt x ≠ .paid) (hn : n ≤ x) (heq : n = x → s.hist.debt x = .owed → y = x)
    (hre : n = x → (s'.rob.insts x).redirects) : Watch s' x := by
  rcases Nat.lt_or_eq_of_le hn with hlt | hnx
  · exact .gone (hs.gone x hx hlt)
  refine .serving ?_ (hre hnx) (hs.bound.trans hnx) (Nat.le_of_eq (hs.youngest.trans hnx)) hs.status
  rw [hs.debt]
  cases hdx : s.hist.debt x with
  | paid => exact absurd hdx hd
  | owed =>
    rw [if_pos ⟨by rw [heq hnx hdx], rfl⟩]
  | serving => simp

/-- The choice makes no new debts. -/
theorem Chosen.debt (h : Chosen c s s') (hd : s'.hist.debt x ≠ .paid) : s.hist.debt x ≠ .paid := by
  intro hpaid
  apply hd
  cases h with
  | nothing _ he => rw [he]; exact hpaid
  | delay sig _ _ _ _ _ hdeq => rw [hdeq]; exact hpaid
  | fromIEW sig _ _ _ hs => simp [hs.debt, hpaid]
  | fromROB y _ _ _ _ _ _ _ hs => simp [hs.debt, hpaid]

theorem Chosen.debt_kept (h : Chosen c s s') (hd : s.hist.debt x ≠ .paid) :
    s'.hist.debt x ≠ .paid := by
  have hstart : ∀ {r : Rob} {n y : Nat}, Starts c s r s' n y → s'.hist.debt x ≠ .paid := by
    intro r n y hs
    rw [hs.debt]
    split
    · simp
    · exact hd
  cases h with
  | nothing _ he => rw [he]; exact hd
  | delay sig _ _ _ _ _ hdeq => rw [hdeq]; exact hd
  | fromIEW sig _ _ _ hs => exact hstart hs
  | fromROB y _ _ _ _ _ _ _ hs => exact hstart hs

theorem Watch.chosen (hc : Chosen c s s') (hm : Mid c s) (hx : x ∈ s.rob.instList)
    (hd : s.hist.debt x ≠ .paid) (h : Watch s x) : Watch s' x := by
  have hp := hc.passes
  cases hg' : s'.rob.gone x with
  | true => exact .gone hg'
  | false =>
    have hlast : ∀ y ∈ s.rob.instList, y - 1 < y := fun y hy => by
      have := hm.last y hy
      omega
    cases h with
    | gone hg =>
      rw [hp.gone x hx hg] at hg'
      cases hg'
    | trap ht =>
      rw [hc.trap ht]
      exact .trap ht
    | pending p hpm hle hg hpend =>
      have halive := hp.older p hpm x hx hle hg' hg
      have hkeep : (s'.rob.insts p).status.hasPendingSquash = true → Watch s' x :=
        .pending p (hp.instList ▸ hpm) hle halive
      cases hc with
      | nothing _ he => exact hkeep (by rw [he]; exact hpend)
      | delay sig _ _ _ he =>
        refine hkeep ?_
        rw [he]
        by_cases hv : p = sig.squashedSeqNum
        · simp [setPending, Rob.modify, hv]
        · simpa [setPending, Rob.modify, hv] using hpend
      | fromIEW sig _ _ _ hs =>
        refine hkeep ?_
        rw [hs.takes.insts halive]
        exact hpend
      | fromROB y _ _ _ _ _ _ hkind hs =>
        by_cases hy : p = y
        · -- the delayed squash is performed
          have hpl := hlast p hpm
          refine .starts hs hx hd (by split <;> omega) (fun hn _ => by split at hn <;> omega)
            fun hn => DynInst.redirects_of_isControl ?_
          rw [hp.staticInst]
          split at hn
          · omega
          rename_i hload
          subst hn
          exact hkind.resolve_right hload
        · refine hkeep ?_
          rw [hs.takes.insts halive]
          simpa [setPending, Rob.modify, hy] using hpend
    | serving hdebt hre hb hy hst =>
      have hre' := (congrArg DynInst.redirects (hp.fixed x) :).trans hre
      -- a squash that starts now has a bound at or below the one in progress
      have hstart : ∀ {r : Rob} {n y : Nat}, Starts c s r s' n y → n ≤ y → s.takesSignal y = true →
          Watch s' x := by
        intro r n y hs hny ht
        have hyoung := (takesSignal_spec ht).2
        refine .starts hs hx hd (by omega) (fun _ ho => ?_) fun _ => hre'
        rw [hdebt] at ho
        cases ho
      cases hc with
      | nothing _ he => rw [he]; exact .serving hdebt hre hb hy hst
      | delay sig _ _ _ he _ hdeq =>
        refine .serving (by rw [hdeq]; exact hdebt) hre' ?_ ?_ ?_
        · rw [he]
          exact hb
        · rw [he]
          exact hy
        · rw [he]
          exact hst
      | fromIEW sig _ ht _ hs => exact hstart hs (by split <;> omega) ht
      | fromROB y _ _ _ _ _ ht _ hs => exact hstart hs (by split <;> omega) ht

/-- A signal is taken up: a squash starts or is delayed. -/
theorem SignalFor.chosen {sig : IewSquash} (hc : Chosen c s s') (hm : Mid c s) (hl : s.Hears)
    (hx : x ∈ s.rob.instList) (hd : s.hist.debt x ≠ .paid) (h : SignalFor s x sig) :
    Watch s' x := by
  have hp := hc.passes
  by_cases ht : s.status = .TrapPending
  · rw [hc.trap ht]
    exact .trap ht
  have htakes : s.takesSignal sig.squashedSeqNum = true := by
    simp [takesSignal, ht, hm.young _ h.mem h.alive]
  have hone := hm.last _ h.mem
  have hle := h.le
  cases hg' : s'.rob.gone x with
  | true => exact .gone hg'
  | false =>
    cases hc with
    | nothing hno => exact absurd htakes (by rw [hno sig h.squash]; simp)
    | fromROB y hno => exact absurd htakes (by rw [hno sig h.squash]; simp)
    | delay sig' hsig' _ _ he =>
      rw [h.squash] at hsig'
      cases hsig'
      refine .pending _ (hp.instList ▸ h.mem) h.le (hp.older _ h.mem x hx h.le hg' h.alive) ?_
      rw [he]
      simp [setPending, Rob.modify]
    | fromIEW sig' hsig' _ _ hs =>
      rw [h.squash] at hsig'
      cases hsig'
      refine .starts hs hx hd (by split <;> omega)
        (fun hn _ => by split at hn <;> omega) fun hn => ?_
      split at hn
      · next hcause =>
        subst hn
        exact (congrArg DynInst.redirects (hp.fixed _) :).trans
          ((hl sig h.squash htakes).branch hcause)
      · omega

/-! ## Commitment -/

section
variable {j : CommitIn} {s₁ : Core} (h : Tick c j s₁ s₂ s₃ t s₄)
include h

/-- What is watched over does not leave the buffer unless it is squashed. -/
theorem Tick.watch (htop : ∀ y ∈ s₁.rob.instList, y ≤ s₁.globalSeqNum) (hx : x ∈ s₃.rob.instList)
    (hw : Watch s₃ x) : (s₄.rob.insts x).squashed ∨ x ∈ s₄.rob.instList ∧ Watch s₄ x := by
  have htop₃ : ∀ y ∈ s₃.rob.instList, y ≤ s₁.globalSeqNum := fun y hy =>
    htop y (h.passes.instList ▸ hy)
  have hgone : ∀ y ∈ s₃.rob.instList, s₄.rob.gone y = s₃.rob.gone y :=
    fun y hy => h.gone₃ (htop₃ y hy)
  have hl := h.ends.instList
  have hrest := h.ends.rest
  by_cases hst : s₃.status = .ROBSquashing
  · -- nothing commits during a squash
    obtain rfl := h.still hst
    refine .inr ⟨hl ▸ hx, ?_⟩
    cases hw with
    | gone hg => exact .gone ((hgone x hx).trans hg)
    | trap ht =>
      rw [hst] at ht
      cases ht
    | pending p hp hle hg hpend =>
      exact .pending p (hl ▸ hp) hle ((hgone p hp).trans hg) ((h.ends.pending p).trans hpend)
    | serving hd hre hb hy _ =>
      refine .serving ?_ ((h.ends.redirects x).trans hre) (h.ends.bound.trans hb) ?_ ?_
      · rw [hrest]
        exact hd
      · rw [hrest]
        exact hy
      · rw [hrest]
        exact hst
  · have hc := h.commits
    cases hw with
    | gone hg =>
      left
      rw [h.mid.gone_eq hst] at hg
      rw [h.ends.squashed]
      exact (congrArg DynInst.squashed (h.bare_t (htop₃ x hx)) :).trans hg
    | trap ht =>
      obtain ⟨ht', hkept, -⟩ := hc.trapped ht
      refine .inr ⟨hl ▸ hkept.symm ▸ hx, .trap ?_⟩
      rw [hrest]
      exact ht'
    | pending p hp hle hg hpend =>
      have hsq : (s₃.rob.insts p).squashed = false := squashed_of_not_gone hg
      have hblock : ∀ y, p ≤ y → Blocked s₃.rob y := fun y hy =>
        ⟨p, hp, hy, hsq, .inl (by rw [DynInst.readyToCommit, hpend, hsq]; simp)⟩
      refine .inr ⟨hl ▸ hc.kept x hx (hblock x hle), .pending p ?_ hle ((hgone p hp).trans hg) ?_⟩
      · exact hl ▸ hc.kept p hp (hblock p (Nat.le_refl p))
      rw [h.ends.pending]
      exact (congrArg Status.hasPendingSquash
        (congrArg DynInst.status (h.bare_t (htop₃ p hp))) :).trans hpend
    | serving _ _ _ _ hs => exact absurd hs hst

theorem Tick.squashed_mono (hx : x ≤ s₁.globalSeqNum) (hsq : (s₁.rob.insts x).squashed) :
    (s₄.rob.insts x).squashed := by
  rw [h.ends.squashed]
  exact (congrArg DynInst.squashed (h.bare_t hx) :).trans (h.passes.mono x hsq)

/-- While a squash is in progress the buffer keeps what it holds. -/
theorem Tick.busy (hd : s₁.rob.doneSquashing = false) : s₃.status = .ROBSquashing ∧
    s₄.rob.instList = s₁.rob.instList := by
  have hst₂ := h.before.busy hd
  have hst : s₃.status = .ROBSquashing := by
    cases h.chosen with
    | nothing _ he => rw [he]; exact hst₂
    | delay sig _ _ _ he => rw [he]; exact hst₂
    | fromIEW sig _ _ _ hs => exact hs.status
    | fromROB y _ _ _ _ _ _ _ hs => exact hs.status
  refine ⟨hst, h.ends.instList.trans ?_⟩
  rw [h.still hst]
  exact h.passes.instList

/-- A squash served to something that is not a branch takes it. -/
theorem Tick.serving (htop : ∀ y ∈ s₁.rob.instList, y ≤ s₁.globalSeqNum)
    (hold : s₁.hist.debt x = .serving → x ∈ s₁.rob.instList ∧ s₁.rob.doneSquashing = false ∧
      ((s₁.rob.insts x).redirects = false → s₁.rob.gone x))
    (hd : s₄.hist.debt x = .serving) : x ∈ s₄.rob.instList ∧
      ((s₄.rob.insts x).redirects = false → s₄.rob.gone x) := by
  have hp₂ : Passes s₁.rob s₂.rob := .of_takes h.before.takes
  have hkept : s₁.hist.debt x = .serving → x ∈ s₄.rob.instList ∧
      ((s₄.rob.insts x).redirects = false → s₄.rob.gone x = true) := by
    intro hd₁
    obtain ⟨hx, hbusy, hgone⟩ := hold hd₁
    refine ⟨(h.busy hbusy).2 ▸ hx, fun hno => ?_⟩
    rw [h.redirects (htop x hx)] at hno
    rw [h.gone₃ (htop x hx)]
    exact h.passes.gone x hx (hgone hno)
  rw [h.hist] at hd
  -- a squash that has just started
  have hnew : ∀ {r : Rob} {n y : Nat}, Starts c s₂ r s₃ n y → y ∈ s₂.rob.instList →
      ((s₂.rob.insts y).redirects = false → n = y - 1) → x ∈ s₄.rob.instList ∧
        ((s₄.rob.insts x).redirects = false → s₄.rob.gone x = true) := by
    intro r n y hs hy hn
    rw [hs.debt] at hd
    split at hd
    · next hcond =>
      have hyx : y = x := Option.some.inj hcond.1
      subst hyx
      have hy₁ : y ∈ s₁.rob.instList := hp₂.instList ▸ hy
      have hlast := h.before.mid.last y hy
      have hmem : y ∈ s₄.rob.instList := by
        rw [h.ends.instList, h.still hs.status, h.passes.instList]
        exact hy₁
      refine ⟨hmem, fun hno => ?_⟩
      rw [h.redirects (htop y hy₁),
        ← show (s₂.rob.insts y).redirects = (s₁.rob.insts y).redirects from
          (congrArg DynInst.redirects (hp₂.fixed y) :)] at hno
      rw [h.gone₃ (htop y hy₁)]
      exact hs.gone y hy (by rw [hn hno]; omega)
    · exact hkept (by rw [← h.before.debt]; exact hd)
  cases h.chosen with
  | nothing _ he => exact hkept (by rw [← h.before.debt, ← he]; exact hd)
  | delay sig _ _ _ _ _ hdeq => exact hkept (by rw [← h.before.debt, ← hdeq]; exact hd)
  | fromIEW sig hsig ht _ hs =>
    refine hnew hs (h.hears sig hsig ht).mem fun hno => if_neg fun hcause => ?_
    rw [(h.hears sig hsig ht).branch hcause] at hno
    cases hno
  | fromROB y _ hy _ _ _ _ hkind hs =>
    refine hnew hs hy fun hno => if_pos ?_
    rw [Iew.isControl_of_redirects hno] at hkind
    exact hkind.resolve_left (by simp)

end

/-! ## A cycle -/

/-- A cause met in this cycle is covered by the signal of this cycle. -/
theorem Inv.signalFor (h : Inv c s) (hp : Parts c s i s' w s₂ s₃ t s₄) {cause : SquashCause}
    (hx : (x, cause) ∈ (w.within s.rob.instList).raised) : x ∈ s'.rob.instList ∧
      (Watch s' x ∨ ∃ sig, SignalFor s' x sig) := by
  have hmem : x ∈ s₄.rob.instList := hp.raised_mem hx
  obtain ⟨sig, hsig, hle⟩ := hp.spec.covered _ hx
  have hraised := (hp.spec.signal sig hsig).1
  have hsmem : sig.squashedSeqNum ∈ s₄.rob.instList := hp.raised_mem hraised
  have hr := hp.spec.raised _ hraised
  have hx₁ : x ∈ s.rob.instList := (hp.spec.raised _ hx).mem
  rw [hp.eq]
  refine ⟨hmem, ?_⟩
  cases hg : s₄.rob.gone x with
  | true => exact .inl (.gone hg)
  | false =>
    have hg₃ := hp.tick.gone₃ (h.mid.top x hx₁) ▸ hg
    have hsw := Iew.not_gone_of_le hr.alive hle (hp.tick.passes.not_gone hx₁ hg₃)
    refine .inr ⟨sig, (Iew.within_squash.mp hsig).1, hsmem, hle, ?_⟩
    show s₄.rob.gone sig.squashedSeqNum = false
    rw [hp.tick.gone₃ (h.mid.top _ hr.mem)]
    exact hp.tick.passes.older _ hr.mem x hx₁ hle hg₃ hsw

theorem endOfCycle_debt {sent : IewStruct} (hd : (s.endOfCycle sent).hist.debt x ≠ .paid) :
    s.hist.debt x ≠ .paid ∧ (s.endOfCycle sent).hist.debt x = s.hist.debt x ∧
      (s.hist.debt x = .serving → s.rob.doneSquashing = false) := by
  have heq : (s.endOfCycle sent).hist.debt x =
      if s.rob.doneSquashing && s.hist.debt x == .serving then .paid else s.hist.debt x := rfl
  rw [heq] at hd ⊢
  split at hd
  · exact absurd rfl hd
  rename_i hcond
  rw [if_neg hcond]
  refine ⟨hd, rfl, fun hs => ?_⟩
  rw [hs] at hcond
  simpa using hcond

theorem Watch.endOfCycle {sent : IewStruct} (hd : (s.endOfCycle sent).hist.debt x ≠ .paid)
    (h : Watch s x) : Watch (s.endOfCycle sent) x := by
  cases h with
  | gone hg => exact .gone hg
  | trap ht => exact .trap ht
  | pending p hp hle hg hpend => exact .pending p hp hle hg hpend
  | serving hs hctl hb hy hst => exact .serving ((endOfCycle_debt hd).2.1.trans hs) hctl hb hy hst

theorem afterIew_debt (hraised : w.raised.any (·.1 == x) = false) :
    (s.afterIew w).hist.debt x = s.hist.debt x := by
  show (if w.raised.any (·.1 == x) then Debt.owed else s.hist.debt x) = _
  rw [hraised]
  rfl

/-- A debt that is still being served was so before IEW ticked. -/
theorem DebtInv.afterIew (h : DebtInv s) (hf : Iew.Frame s.rob (s.afterIew w).rob) (x : Nat)
    (hd : (s.afterIew w).hist.debt x = .serving) : x ∈ (s.afterIew w).rob.instList ∧
      (s.afterIew w).rob.doneSquashing = false ∧
      (((s.afterIew w).rob.insts x).redirects = false → (s.afterIew w).rob.gone x) := by
  cases hra : w.raised.any (·.1 == x) with
  | true =>
    have : (s.afterIew w).hist.debt x = .owed := if_pos hra
    rw [this] at hd
    cases hd
  | false =>
    rw [afterIew_debt hra] at hd
    obtain ⟨hx, hdone, hgone⟩ := h.serving x hd
    refine ⟨hx, hf.doneSquashing.trans hdone, fun hno => (hf.gone hx).trans (hgone ?_)⟩
    exact (congrArg DynInst.redirects (hf.fixed x) :).symm.trans hno

/-- What was left out stays so, or is squashed. -/
theorem Parts.notInROB (hi : Inv c s) (hp : Parts c s i s' w s₂ s₃ t s₄) (hx : x ∈ s.notInROB) :
    (s'.rob.insts x).squashed ∨ x ∈ s'.notInROB := by
  rw [hp.eq]
  cases hto : s.toIEW.squash with
  | false =>
    refine .inr (hp.tick.left (x := x) ?_)
    change x ∈ (if s.toIEW.squash then [] else s.notInROB)
    rw [hto]
    exact hx
  | true =>
    refine .inl (hp.tick.squashed_mono (hi.left x hx).top (hp.full.frame.mono x ?_))
    rw [inFlight, if_pos hto]
    simp [hx]

theorem DebtInv.cycle (hi : Inv c s) (h : DebtInv s) (hp : Parts c s i s' w s₂ s₃ t s₄) :
    DebtInv s' := by
  have hf : Iew.Frame s.rob (s.afterIew w).rob := hp.spec.frame
  have htick := hp.tick
  have hb := htick.before
  have hp₂ : Passes (s.afterIew w).rob s₂.rob := .of_takes hb.takes
  have htop : ∀ y ∈ (s.afterIew w).rob.instList, y ≤ (s.afterIew w).globalSeqNum := hi.mid.top
  have hserving := h.afterIew hf
  have hraised : ∀ x, w.raised.any (·.1 == x) = true → ∃ cause, (x, cause) ∈ w.raised := by
    intro x hra
    obtain ⟨⟨y, cause⟩, hq, hqx⟩ := any_eq_true.mp hra
    simp only [beq_iff_eq] at hqx
    subst hqx
    exact ⟨cause, hq⟩
  -- any other debt was owed before
  have hold : ∀ x, s'.hist.debt x ≠ .paid → w.raised.any (·.1 == x) = false →
      s₂.hist.debt x ≠ .paid ∧ s.hist.debt x ≠ .paid := by
    intro x hd hra
    rw [hp.eq] at hd
    have hd₃ : s₃.hist.debt x ≠ .paid := htick.hist ▸ (endOfCycle_debt hd).1
    have hd₂ := htick.chosen.debt hd₃
    refine ⟨hd₂, ?_⟩
    rw [hb.debt, afterIew_debt hra] at hd₂
    exact hd₂
  refine ⟨fun x hd => ?_, fun x hd => ?_, fun x hd => ?_⟩
  · have hle : s.globalSeqNum ≤ s'.globalSeqNum := by
      rw [hp.eq]
      exact htick.global_le
    refine Nat.le_trans ?_ hle
    cases hra : w.raised.any (·.1 == x) with
    | true =>
      obtain ⟨cause, hq⟩ := hraised x hra
      exact hi.inFlight_le (hp.full.raised _ hq).mem
    | false => exact h.top x (hold x hd hra).2
  · cases hra : w.raised.any (·.1 == x) with
    | true =>
      obtain ⟨cause, hq⟩ := hraised x hra
      rcases mem_inFlight (hp.full.raised _ hq).mem with hx | ⟨hx, -⟩
      · exact .inr (.inr (hi.signalFor hp (Iew.mem_within_raised.mpr ⟨hq, hx⟩)))
      · exact (hp.notInROB hi hx).imp_right .inl
    | false =>
      obtain ⟨hd₂, hd₀⟩ := hold x hd hra
      rcases h.watch x hd₀ with hsq | hx | ⟨hx, hw⟩
      · rw [hp.eq]
        exact .inl (htick.squashed_mono (h.top x hd₀) (hf.mono x hsq))
      · exact (hp.notInROB hi hx).imp_right .inl
      rw [hp.eq] at hd ⊢
      have hx₂ : x ∈ s₂.rob.instList := hp₂.instList ▸ hx
      have hw₃ : Watch s₃ x := by
        rcases hw with hw | ⟨sig, hsig⟩
        · exact ((hw.afterIew hf hx hra).before hb hx fun hs => (hserving x hs).2.1).chosen
            htick.chosen hb.mid hx₂ hd₂
        rcases (hsig.afterIew hf).before hb hx with hw | hsig
        · exact hw.chosen htick.chosen hb.mid hx₂ hd₂
        · exact hsig.chosen htick.chosen hb.mid htick.hears hx₂ hd₂
      rcases htick.watch htop (htick.chosen.passes.instList ▸ hx₂) hw₃ with hsq | ⟨hx₄, hw₄⟩
      · exact .inl hsq
      · exact .inr (.inr ⟨hx₄, .inl (hw₄.endOfCycle hd)⟩)
  · rw [hp.eq] at hd ⊢
    obtain ⟨-, heq, hdone⟩ := endOfCycle_debt (s := s₄) (x := x) (by rw [hd]; simp)
    rw [heq] at hd
    obtain ⟨hx₄, hgone⟩ := htick.serving htop (hserving x) hd
    exact ⟨hx₄, hdone hd, hgone⟩

theorem DebtInv.start (h : s.Start) : DebtInv s := by
  refine ⟨fun x hd => absurd (h.debt x) hd, fun x hd => absurd (h.debt x) hd, fun x hd => ?_⟩
  rw [h.debt x] at hd
  cases hd

/-- The core owes a squash to what is unserved. -/
theorem Parts.debt (hi : Inv c s) (h : DebtInv s) (hp : Parts c s i s' w s₂ s₃ t s₄)
    (hd : s.hist.debt x ≠ .paid ∨ w.raised.any (·.1 == x)) (hu : Unserved x s') :
    s'.hist.debt x ≠ .paid := by
  have hf : Iew.Frame s.rob (s.afterIew w).rob := hp.spec.frame
  have htick := hp.tick
  have hb := htick.before
  cases hre : (s'.rob.insts x).redirects with
  | true => exact hu.2 hre
  | false =>
    have hd₁ : (s.afterIew w).hist.debt x ≠ .paid := by
      cases hra : w.raised.any (·.1 == x) with
      | true =>
        have : (s.afterIew w).hist.debt x = .owed := if_pos hra
        rw [this]
        simp
      | false =>
        rw [afterIew_debt hra]
        exact hd.resolve_right (by rw [hra]; simp)
    have hd₄ : s₄.hist.debt x ≠ .paid := by
      rw [htick.hist]
      rw [← hb.debt] at hd₁
      exact htick.chosen.debt_kept hd₁
    rw [hp.eq] at hu hre ⊢
    intro hpaid
    have heq : (s₄.endOfCycle { insts := i.completed, squash := w.squash }).hist.debt x =
        if s₄.rob.doneSquashing && s₄.hist.debt x == .serving then .paid else s₄.hist.debt x := rfl
    rw [heq] at hpaid
    split at hpaid
    · -- its squash is over, so it is squashed
      next hcond =>
      simp only [Bool.and_eq_true, beq_iff_eq] at hcond
      obtain ⟨-, hgone⟩ := htick.serving hi.mid.top (h.afterIew hf x) hcond.2
      have hg := hgone hre
      rw [gone, doomed, hcond.1, Bool.not_true, Bool.false_and, Bool.or_false] at hg
      have hsq : (s₄.rob.insts x).squashed = false := hu.1
      rw [hg] at hsq
      cases hsq
    · exact hd₄ hpaid

/-- What watches over an unserved instruction is what answers its squash. -/
theorem DebtInv.answered (hi : Inv c s) (h : DebtInv s) (hd : s.hist.debt x ≠ .paid)
    (hsq : (s.rob.insts x).squashed = false) :
    x ∈ s.rob.instList ∧ s.Answered x ∨ s.NotInserted x := by
  rcases h.watch x hd with hsq' | hx | ⟨hx, hw | ⟨sig, hsig⟩⟩
  · rw [hsq] at hsq'
    cases hsq'
  · exact .inr ⟨hx, (hi.left x hx).state.imp And.left fun hs => hs.2.2⟩
  · refine .inl ⟨hx, ?_⟩
    cases hw with
    | gone hg =>
      rw [gone, hsq, Bool.false_or] at hg
      simp only [doomed, Bool.and_eq_true, Bool.not_eq_true', decide_eq_true_eq] at hg
      exact .inr (.inl (.inr ⟨hg.1, .inl hg.2⟩))
    | trap ht => exact .inl ht
    | pending p hp hle hg hpend =>
      exact .inr (.inr ⟨p, hp, hle, squashed_of_not_gone hg, hpend⟩)
    | serving hs hre hb _ _ =>
      exact .inr (.inl (.inr ⟨(h.serving x hs).2.1, .inr ⟨hb, hre⟩⟩))
  · refine .inl ⟨hx, .inr (.inl (.inl ⟨sig, hsig.squash, ?_⟩))⟩
    have hlatch : Latched s.rob sig := (hi.latch sig hsig.squash).resolve_right fun hbeyond => by
      have := hi.mid.young _ hsig.mem hsig.alive
      omega
    have hone := hi.mid.last _ hsig.mem
    have hle := hsig.le
    unfold IewSquash.bound
    split
    · exact .inl (by omega)
    rename_i hincl
    rcases Nat.lt_or_eq_of_le hle with hlt | heq
    · exact .inl hlt
    refine .inr ⟨heq, ?_⟩
    have hcause : sig.cause = .mispredict := by
      by_contra hne
      exact hincl (hlatch.incl.mpr hne)
    exact heq ▸ hlatch.branch hcause

theorem debt_of_reach (hstt : c.stt) (himp : c.impChannel)
    (h : (coreMachine c).Reach s) : Inv c s ∧ DebtInv s :=
  h.invariant (I := fun s => Inv c s ∧ DebtInv s) (fun _ hs => ⟨.start hs, .start hs⟩)
    fun _ _ _ hi _ hs => by
    obtain ⟨w, s₂, s₃, t, s₄, hp⟩ := hi.1.parts hstt himp hs
    exact ⟨hi.1.cycle hstt himp hs, hi.2.cycle hi.1 hp⟩

end Core

/-- From the end of the cycle in which IEW meets a cause for `x` on, as long as `x` is not
squashed and, if it is a branch or the no-op of a fault, its squash is not over, `x` is in the
buffer and the squash owed to it is not forgotten, or commit never inserted `x` and the trap
for which it did not is going to take it. -/
theorem no_squash_lost {c : Config} (hstt : c.stt = true) (himp : c.impChannel = true)
    {s s' u : Core} {i : CycleIn} {w : Iew} {x : Nat} {cause : SquashCause}
    (h : (coreMachine c).Reach s) (hw : s.iewTick c i = some w) (hx : (x, cause) ∈ w.raised)
    (hr : s.cycle c i = some s') (h0 : Core.Unserved x s')
    (hu : (coreMachine c).StepsWhile (fun _ _ => True) (Core.Unserved x) s' u) :
    x ∈ u.rob.instList ∧ u.Answered x ∨ u.NotInserted x := by
  have hinv := Core.debt_of_reach hstt himp h
  have hreach' : (coreMachine c).Reach s' := .step h trivial hr
  have hd' : s'.hist.debt x ≠ .paid := by
    obtain ⟨w', s₂, s₃, t, s₄, hp⟩ := hinv.1.parts hstt himp hr
    cases hp.iew.symm.trans hw
    exact hp.debt hinv.1 hinv.2 (.inr (any_eq_true.mpr ⟨_, hx, by simp⟩)) h0
  obtain ⟨hun, hd⟩ := hu.invariant (I := fun v => v.hist.debt x ≠ .paid) hreach' h0 hd'
    fun v j v' hv _ hun' hdv _ hs => by
      have hinv' := Core.debt_of_reach hstt himp hv
      obtain ⟨w', s₂, s₃, t, s₄, hp⟩ := hinv'.1.parts hstt himp hs
      exact hp.debt hinv'.1 hinv'.2 (.inl hdv) hun'
  have hinv_u := Core.debt_of_reach hstt himp (hreach'.steps hu)
  exact hinv_u.2.answered hinv_u.1 hd hun.1

/-! ## A mispredicted branch -/

/-- A branch, dispatched. -/
def debtRun : List CycleIn :=
  [{ commit := { renamed := [(1, renamed branchInst [] [])] } }, { dispatched := [1] }]

def debtStart : Core := coreAfter debtRun

def debtExec : CycleIn := { execs := [⟨1, .computed { npc := 100 } false⟩] }

def debtIew : Iew :=
  (debtStart.iewTick spectreConfig debtExec).getD
    { rob := emptyRob, memDepViolator := none, oblsMissInst := none }

/-- It executes, mispredicted. -/
def debtRaised : Core := (debtStart.cycle spectreConfig debtExec).getD emptyCore

/-- Its squash has been carried out. -/
def debtServed : Core := (debtRaised.cycle spectreConfig {}).getD emptyCore

theorem debtStart_reach : (coreMachine spectreConfig).Reach debtStart := by
  have hreach : (coreMachine spectreConfig).Reach (coreAfter debtRun) :=
    Machine.reach_run emptyCore_start (Machine.run_getD (by decide +kernel))
  exact hreach

theorem debtRaised_cycle : debtStart.cycle spectreConfig debtExec = some debtRaised :=
  Machine.eq_some_getD (by decide +kernel)

theorem debtIew_tick : debtStart.iewTick spectreConfig debtExec = some debtIew :=
  Machine.eq_some_getD (by decide +kernel)

theorem debtIew_raised : (1, SquashCause.mispredict) ∈ debtIew.raised := by decide +kernel

theorem no_squash_lost_branch :
    1 ∈ debtRaised.rob.instList ∧ debtRaised.Answered 1 ∨ debtRaised.NotInserted 1 :=
  no_squash_lost (c := spectreConfig) rfl rfl debtStart_reach debtIew_tick debtIew_raised
    debtRaised_cycle ⟨by decide +kernel, fun _ => by decide +kernel⟩ (.refl _)

/-- The branch is not squashed by its own squash, and once that is over nothing is left of
it. -/
theorem branch_squash_over :
    ¬ ∀ (c : Config) (s s' u : Core) (i : CycleIn) (w : Iew) (x : Nat) (cause : SquashCause),
      c.stt = true → c.impChannel = true → (coreMachine c).Reach s → s.iewTick c i = some w →
        (x, cause) ∈ w.raised → s.cycle c i = some s' → (s'.rob.insts x).squashed = false →
        (coreMachine c).StepsWhile (fun _ _ => True) (fun v => (v.rob.insts x).squashed = false)
          s' u → u.Answered x := by
  intro h
  have hserved : debtRaised.cycle spectreConfig {} = some debtServed :=
    Machine.eq_some_getD (by decide +kernel)
  have hans := h spectreConfig debtStart debtRaised debtServed debtExec debtIew 1
    .mispredict rfl rfl
    debtStart_reach debtIew_tick debtIew_raised debtRaised_cycle (by decide +kernel)
    (.step (e := {}) (.refl _) trivial hserved (by decide +kernel))
  have hstatus : debtServed.status = .ROBSquashing := by decide +kernel
  have hsignal : debtServed.fromIEW.squash = none := by decide +kernel
  have hdone : debtServed.rob.doneSquashing = true := by decide +kernel
  have hlist : debtServed.rob.instList = [1] := by decide +kernel
  have hpend : (debtServed.rob.insts 1).status.hasPendingSquash = false := by decide +kernel
  rcases hans with ht | (⟨sig, hsig, -⟩ | ⟨hd, -⟩) | ⟨p, hp, -, -, hp'⟩
  · rw [hstatus] at ht
    cases ht
  · rw [hsignal] at hsig
    cases hsig
  · rw [hdone] at hd
    cases hd
  rw [hlist, mem_singleton] at hp
  subst hp
  rw [hpend] at hp'
  cases hp'

end SdoCore
