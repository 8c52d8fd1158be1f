import SdoCore.Pipeline.Commitment

/-! A whole cycle. `Tick` puts the parts of commit's tick together, and `Inv` is the
invariant of every state reached at the end of a cycle: beside `Mid`, the signal that
commit is about to see is for an instruction still in the buffer, which, if it is a branch,
is not ready to commit, or it is for one that was left out, and commit does not take it. -/

namespace SdoCore

open Rob

namespace Core

variable {c : Config} {s s' : Core}

/-! ## The tick -/

/-- From before a squash that may start to after it. -/
structure Passes (r r' : Rob) : Prop where
  instList : r'.instList = r.instList
  fixed : ∀ x, (r'.insts x).fixed = (r.insts x).fixed
  kept : ∀ x, (r'.insts x).status.kept = (r.insts x).status.kept
  mono : ∀ x, (r.insts x).squashed = true → (r'.insts x).squashed = true
  gone : ∀ x ∈ r.instList, r.gone x = true → r'.gone x = true
  older : ∀ x ∈ r.instList, ∀ y ∈ r.instList, x ≤ y → r'.gone y = false → r.gone x = false →
    r'.gone x = false
  alive : ∀ x ∈ r.instList, r'.gone x = false → r'.insts x = { r.insts x with
    status := { (r.insts x).status with
      hasPendingSquash := (r'.insts x).status.hasPendingSquash } }

section
variable {r r' r'' : Rob}

section
variable (h : Passes r r')
include h

theorem Passes.not_gone {x : Nat} (hx : x ∈ r.instList) (hg : r'.gone x = false) :
    r.gone x = false := by
  cases hb : r.gone x with
  | false => rfl
  | true =>
    rw [h.gone x hx hb] at hg
    cases hg

theorem Passes.staticInst (x : Nat) : (r'.insts x).staticInst = (r.insts x).staticInst :=
  (congrArg DynInst.staticInst (h.fixed x) :)

theorem Passes.mispredicted (x : Nat) : (r'.insts x).mispredicted = (r.insts x).mispredicted :=
  Iew.mispredicted_congr (h.staticInst x) (congrArg DynInst.predPC (h.fixed x) :)
    (congrArg Status.pc (h.kept x) :)

theorem Passes.executed (x : Nat) : (r'.insts x).status.executed = (r.insts x).status.executed :=
  (congrArg Status.executed (h.kept x) :)

theorem Passes.isArgsTainted (x : Nat) : (r'.insts x).isArgsTainted = (r.insts x).isArgsTainted :=
  (congrArg DynInst.isArgsTainted (h.fixed x) :)

end

theorem Passes.refl (r : Rob) : Passes r r :=
  ⟨rfl, fun _ => rfl, fun _ => rfl, fun _ h => h, fun _ _ h => h, fun _ _ _ _ _ _ h => h,
    fun _ _ _ => rfl⟩

theorem Passes.of_takes (h : Takes r r') : Passes r r' where
  __ := h
  older x hx y hy hxy hg hgx := h.older hx hy hxy hg hgx
  alive x _ hg := by rw [h.insts hg]

theorem Passes.trans (h : Passes r r') (h' : Passes r' r'') : Passes r r'' where
  instList := h'.instList.trans h.instList
  fixed x := (h'.fixed x).trans (h.fixed x)
  kept x := (h'.kept x).trans (h.kept x)
  mono x hx := h'.mono x (h.mono x hx)
  gone x hx hg := h'.gone x (h.instList ▸ hx) (h.gone x hx hg)
  older x hx y hy hxy hg hgx :=
    h'.older x (h.instList ▸ hx) y (h.instList ▸ hy) hxy hg
      (h.older x hx y hy hxy (h'.not_gone (h.instList ▸ hy) hg) hgx)
  alive x hx hg := by
    have hx' : x ∈ r'.instList := h.instList ▸ hx
    have h1 := h.alive x hx (h'.not_gone hx' hg)
    have h2 := h'.alive x hx' hg
    rw [h1] at h2
    exact h2

theorem passes_setPending (s : Core) (x : Nat) (b : Bool) :
    Passes s.rob (s.setPending x b).rob := by
  have hm := setPending_marks s x b
  refine ⟨rfl, hm.fixed, hm.kept, fun y hy => (hm.squashed y).trans hy,
    fun y _ hg => (hm.gone y).trans hg,
    fun y _ _ _ _ _ hg => (hm.gone y).trans hg, fun y _ _ => ?_⟩
  by_cases hy : y = x
  · subst hy
    simp [setPending, Rob.modify]
  · simp [setPending, Rob.modify, hy]

end

theorem Chosen.passes (h : Chosen c s s') : Passes s.rob s'.rob := by
  cases h with
  | nothing _ he => rw [he]; exact .refl _
  | delay sig _ _ _ he => rw [he]; exact passes_setPending s _ true
  | fromIEW sig _ _ _ hs => exact .of_takes hs.takes
  | fromROB x _ _ _ _ _ _ _ hs => exact (passes_setPending s x false).trans (.of_takes hs.takes)

/-- A tick of commit, from `s₁` to `s₄`. -/
structure Tick (c : Config) (i : CommitIn) (s₁ s₂ s₃ t s₄ : Core) : Prop where
  starts : s₁.beforeChoice c i = some s₂
  applies : s₂.applyChoice c (s₂.squashChoice c) = some s₃
  finishes : s₃.afterChoice c i = some s₄
  before : Before c i s₁ s₂
  mid : Mid c s₃
  hears : s₂.Hears
  chosen : Chosen c s₂ s₃
  commits : Commits s₃ t
  still : s₃.status = .ROBSquashing → t = s₃
  ends : Ends c t s₄

/-- A signal on its way to commit is for an instruction of the buffer, or for one beyond it. -/
def Sent (s : Core) (sig : IewSquash) : Prop :=
  Latched s.rob sig ∨
    s.youngestSeqNum < sig.squashedSeqNum ∧ s.lastCommitedSeqNum < sig.squashedSeqNum

theorem Before.hears {i : CommitIn} (h : Before c i s s')
    (hl : ∀ sig, s.fromIEW.squash = some sig → s.Sent sig) : s'.Hears := by
  intro sig hsig ht
  have hle := (takesSignal_spec ht).2
  rcases hl sig (h.fromIEW ▸ hsig) with hl | ⟨hyoung, hlast⟩
  · exact hl.takes h.takes
  · rcases h.youngest with he | he <;> omega

theorem Mid.commitTick {i : CommitIn} (hstt : c.stt) (himp : c.impChannel)
    (h : Mid c { s with toIEW := {} }) (hl : ∀ sig, s.fromIEW.squash = some sig → s.Sent sig)
    (hr : s.commitTick c i = some s') : ∃ s₂ s₃ t, Tick c i s s₂ s₃ t s' := by
  obtain ⟨s₂, hr₂, hr⟩ := Option.bind_eq_some_iff.mp hr
  obtain ⟨s₃, hr₃, hr₄⟩ := Option.bind_eq_some_iff.mp hr
  have hb := h.beforeChoice hr₂
  have hh := hb.hears hl
  obtain ⟨h₃, hc⟩ := hb.mid.chosen hstt himp hh hr₃
  obtain ⟨t, ht, hs, he⟩ := h₃.afterChoice hstt hr₄
  exact ⟨s₂, s₃, t, hr₂, hr₃, hr₄, hb, h₃, hh, hc, ht, hs, he⟩

theorem Chosen.rest (h : Chosen c s s') : s'.fromIEW = s.fromIEW ∧
    s'.memDepViolator = s.memDepViolator ∧ s'.oblsMissInst = s.oblsMissInst ∧
    s'.globalSeqNum = s.globalSeqNum ∧ s'.notInROB = s.notInROB := by
  cases h with
  | nothing _ he => rw [he]; exact ⟨rfl, rfl, rfl, rfl, rfl⟩
  | delay sig _ _ _ he => rw [he]; exact ⟨rfl, rfl, rfl, rfl, rfl⟩
  | fromIEW sig _ _ _ hs => exact ⟨hs.fromIEW, hs.violator, hs.miss, hs.global, hs.notInROB⟩
  | fromROB x _ _ _ _ _ _ _ hs =>
    exact ⟨hs.fromIEW, hs.violator, hs.miss, hs.global, hs.notInROB⟩

/-- Commit does nothing about squashes while it waits for a trap. -/
theorem Chosen.trap (h : Chosen c s s') (ht : s.status = .TrapPending) : s' = s := by
  have hno : ∀ n, s.takesSignal n ≠ true := fun n hn => (takesSignal_spec hn).1 ht
  cases h with
  | nothing _ he => exact he
  | delay sig _ hk => exact absurd hk (hno _)
  | fromIEW sig _ hk => exact absurd hk (hno _)
  | fromROB y _ _ _ _ _ hk => exact absurd hk (hno _)

/-- Nor after the squash of everything: what it could act on is committed. -/
theorem Chosen.leftOut {x : Nat} (h : Chosen c s s') (hm : Mid c s) (hh : s.Hears)
    (hx : LeftOut s x) : s' = s := by
  rcases hx.state with ⟨ht, -⟩ | ⟨-, hyoung, -⟩
  · exact h.trap ht
  have hno : ∀ n ∈ s.rob.instList, s.takesSignal n ≠ true := fun n hn ht => by
    have := hm.last n hn
    have := (takesSignal_spec ht).2
    omega
  cases h with
  | nothing _ he => exact he
  | delay sig hs hk => exact absurd hk (hno _ (hh sig hs hk).mem)
  | fromIEW sig hs hk => exact absurd hk (hno _ (hh sig hs hk).mem)
  | fromROB y _ hy _ _ _ hk => exact absurd hk (hno y hy)

theorem Ends.leftOut {x : Nat} (h : Ends c s s') (hx : LeftOut s x) : LeftOut s' x := by
  have hrest := h.rest
  refine ⟨fun y hy => hx.old y (h.instList ▸ hy), ?_, ?_, ?_, ?_⟩
  · rw [hrest]; exact hx.last
  · rw [hrest]; exact hx.young
  · rw [hrest]; exact hx.top
  rw [h.squashed, h.redirects, h.mispredicted, hrest]
  exact hx.state

theorem Commits.gone (h : Commits s s') {x : Nat} (hx : x ≤ s.globalSeqNum) :
    s'.rob.gone x = s.rob.gone x := by
  have hsq : (s'.rob.insts x).squashed = (s.rob.insts x).squashed :=
    (congrArg DynInst.squashed (h.old x hx) :)
  rw [Rob.gone, Rob.gone, doomed, doomed, hsq, h.done, h.bound]

theorem Ends.gone (h : Ends c s s') (x : Nat) : s'.rob.gone x = s.rob.gone x := by
  rw [Rob.gone, Rob.gone, doomed, doomed, h.squashed, h.doneSquashing, h.bound]

namespace Tick

variable {i : CommitIn} {s₁ s₂ s₃ t s₄ : Core} {x : Nat} (h : Tick c i s₁ s₂ s₃ t s₄)
include h

theorem passes : Passes s₁.rob s₃.rob := (Passes.of_takes h.before.takes).trans h.chosen.passes

theorem fromIEW₃ : s₃.fromIEW = s₁.fromIEW := h.chosen.rest.1.trans h.before.fromIEW

theorem global₃ : s₃.globalSeqNum = s₁.globalSeqNum :=
  h.chosen.rest.2.2.2.1.trans h.before.global

theorem fromIEW_t : t.fromIEW = s₁.fromIEW := h.commits.fromIEW.trans h.fromIEW₃

theorem global_le : s₁.globalSeqNum ≤ s₄.globalSeqNum := by
  rw [h.ends.rest]
  exact h.global₃ ▸ h.commits.global

/-- What commitment leaves alone about an old instruction. -/
theorem bare_t (hx : x ≤ s₁.globalSeqNum) : bare (t.rob.insts x) = bare (s₃.rob.insts x) :=
  h.commits.old x (h.global₃ ▸ hx)

/-- An instruction of the buffer after the tick was there before, or is new. -/
theorem mem (hx : x ∈ s₄.rob.instList) : x ∈ s₁.rob.instList ∨
    s₁.globalSeqNum < x ∧ New (t.rob.insts x) := by
  rw [h.ends.instList] at hx
  rw [← h.global₃]
  exact (h.commits.mem x hx).imp_left fun hm => h.passes.instList ▸ hm

section
variable (hx : x ≤ s₁.globalSeqNum)
include hx

theorem staticInst : (s₄.rob.insts x).staticInst = (s₁.rob.insts x).staticInst := by
  rw [h.ends.staticInst, ← h.passes.staticInst]
  exact (congrArg DynInst.staticInst (h.bare_t hx) :)

theorem redirects : (s₄.rob.insts x).redirects = (s₁.rob.insts x).redirects := by
  rw [h.ends.redirects, h.commits.redirects x (h.global₃ ▸ hx)]
  exact (congrArg DynInst.redirects (h.passes.fixed x) :)

theorem executed : (s₄.rob.insts x).status.executed = (s₁.rob.insts x).status.executed := by
  rw [h.ends.executed, ← h.passes.executed]
  exact (congrArg Status.executed (congrArg DynInst.status (h.bare_t hx)) :)

theorem pc : (s₄.rob.insts x).status.pc = (s₁.rob.insts x).status.pc := by
  have hkept : (s₃.rob.insts x).status.pc = (s₁.rob.insts x).status.pc :=
    (congrArg Status.pc (h.passes.kept x) :)
  rw [h.ends.pc, ← hkept]
  exact (congrArg Status.pc (congrArg DynInst.status (h.bare_t hx)) :)

theorem mispredicted : (s₄.rob.insts x).mispredicted = (s₁.rob.insts x).mispredicted := by
  rw [h.ends.mispredicted, ← h.passes.mispredicted]
  exact (congrArg DynInst.mispredicted (h.bare_t hx) :)

theorem gone₃ : s₄.rob.gone x = s₃.rob.gone x := by
  rw [h.ends.gone]
  exact h.commits.gone (h.global₃ ▸ hx)

end

section
variable (hx : x ∈ s₁.rob.instList) (hx' : x ≤ s₁.globalSeqNum) (hg : s₄.rob.gone x = false)
include hx hx' hg

/-- What is alive after the tick was alive before. -/
theorem not_gone : s₁.rob.gone x = false :=
  h.passes.not_gone hx (h.gone₃ hx' ▸ hg)

/-- A live branch becomes ready only if it was sent to commit. -/
theorem canCommit (hctl : (s₁.rob.insts x).staticInst.isControl) (hsent : x ∉ s₁.fromIEW.insts) :
    (s₄.rob.insts x).status.canCommit = (s₁.rob.insts x).status.canCommit := by
  have hlive : (s₃.rob.insts x).status.canCommit = (s₁.rob.insts x).status.canCommit := by
    rw [h.passes.alive x hx (h.gone₃ hx' ▸ hg)]
  rw [h.ends.unmarked x (h.fromIEW_t ▸ hsent), ← hlive]
  exact h.commits.branch x (h.global₃ ▸ hx') (h.passes.staticInst x ▸ hctl)

end

theorem hist : s₄.hist = s₃.hist := by
  rw [h.ends.rest]
  exact h.commits.hist

theorem leftOut (ht : s₁.status = .TrapPending) (hx : LeftOut s₁ x) : LeftOut s₄ x := by
  have hx₂ := h.before.left x ht hx
  have heq := h.chosen.leftOut h.before.mid h.hears hx₂
  rw [← heq] at hx₂
  refine h.ends.leftOut ?_
  rcases hx₂.state with ⟨ht, -⟩ | ⟨hs, -⟩
  · exact h.commits.leftOut ht hx₂
  · rw [h.still hs]
    exact hx₂

theorem leaves (hx : x ∈ s₄.notInROB) : x ∈ s₁.notInROB ∨ LeftOut s₄ x := by
  rw [h.ends.rest] at hx
  refine (h.commits.leaves x hx).imp (fun hx => ?_) fun hx => h.ends.leftOut hx.2
  rwa [h.chosen.rest.2.2.2.2, h.before.notInROB] at hx

theorem left (hx : x ∈ s₁.notInROB) : x ∈ s₄.notInROB := by
  rw [← h.before.notInROB, ← h.chosen.rest.2.2.2.2] at hx
  rw [h.ends.rest]
  exact h.commits.left x hx

/-- Outside a squash the choice starts none and leaves what holds an instruction back. -/
theorem idle (hs : s₃.status ≠ .ROBSquashing) : s₂.rob = s₁.rob ∧ s₂.status ≠ .ROBSquashing ∧
    ∀ g, Iew.Held s₁.rob g → (s₃.rob.insts g).squashed = (s₁.rob.insts g).squashed ∧
      ((s₃.rob.insts g).readyToCommit = false ∨ (s₃.rob.insts g).isLoadSafeToCommit = false) := by
  have hheld : ∀ {r : Rob} {g : Nat}, Iew.Held r g →
      (r.insts g).readyToCommit = false ∨ (r.insts g).isLoadSafeToCommit = false := by
    intro r g hh
    refine hh.imp_left fun hc => ?_
    rw [DynInst.readyToCommit, hc, Bool.false_and]
  cases h.chosen with
  | nothing _ he =>
    subst he
    have hr := h.before.still hs
    exact ⟨hr, hs, fun g hg => ⟨by rw [hr], by rw [hr]; exact hheld hg⟩⟩
  | delay sig _ _ _ he =>
    have hs₂ : s₂.status ≠ .ROBSquashing := by
      rw [he] at hs
      exact hs
    have hr := h.before.still hs₂
    have hrob : s₃.rob = (s₂.setPending sig.squashedSeqNum true).rob := by rw [he]
    refine ⟨hr, hs₂, fun g hg => ?_⟩
    have hm := setPending_marks s₂ sig.squashedSeqNum true
    refine ⟨by rw [hrob, hm.squashed, hr], ?_⟩
    rw [hrob]
    refine hheld ?_
    by_cases hgv : g = sig.squashedSeqNum
    · subst hgv
      unfold Iew.Held at hg ⊢
      rw [← hr] at hg
      simpa [setPending, Rob.modify, DynInst.isLoadSafeToCommit] using hg
    · unfold Iew.Held at hg ⊢
      rw [← hr] at hg
      simpa [setPending, Rob.modify, hgv] using hg
  | fromIEW sig _ _ _ hst => exact absurd hst.status hs
  | fromROB x _ _ _ _ _ _ _ hst => exact absurd hst.status hs

/-- Taint only goes away, in the buffer and after it. -/
theorem taint (hdone : ∀ x ∈ s₁.rob.instList, (s₁.rob.insts x).taintPropDone)
    (hx : x ≤ s₁.globalSeqNum) :
    ((s₄.rob.insts x).isArgsTainted → (s₁.rob.insts x).isArgsTainted) ∧
      ((s₄.rob.insts x).isAddrTainted → (s₁.rob.insts x).isAddrTainted) := by
  have hfix := h.passes.fixed x
  have ht := h.bare_t hx
  have hargs : (t.rob.insts x).isArgsTainted = (s₁.rob.insts x).isArgsTainted :=
    (congrArg DynInst.isArgsTainted ht :).trans (congrArg DynInst.isArgsTainted hfix :)
  have haddr : (t.rob.insts x).isAddrTainted = (s₁.rob.insts x).isAddrTainted :=
    (congrArg DynInst.isAddrTainted ht :).trans (congrArg DynInst.isAddrTainted hfix :)
  rw [← hargs, ← haddr]
  by_cases hm : x ∈ t.rob.instList
  · refine h.ends.taint x hm ?_
    have hold : x ∈ s₁.rob.instList := by
      rcases h.mem (h.ends.instList ▸ hm) with hold | ⟨hlt, -⟩
      · exact hold
      · omega
    exact ((congrArg DynInst.taintPropDone ht :).trans
      (congrArg DynInst.taintPropDone hfix :)).trans (hdone x hold)
  · obtain ⟨h1, h2⟩ := h.ends.outside x hm
    rw [h1, h2]
    exact ⟨id, id⟩

/-- What was held back, or is being squashed, is still there after the tick. -/
theorem stays (hx : x ∈ s₁.rob.instList) (halive : (s₁.rob.insts x).squashed = false)
    (hguard : s₁.rob.gone x = false → ∃ g ∈ s₁.rob.instList, g ≤ x ∧
      (s₁.rob.insts g).squashed = false ∧ Iew.Held s₁.rob g) : x ∈ s₄.rob.instList := by
  have hl := h.passes.instList
  rw [h.ends.instList]
  by_cases hs : s₃.status = .ROBSquashing
  · rw [h.still hs]
    exact hl ▸ hx
  obtain ⟨hr, hs₂, hheld⟩ := h.idle hs
  have hgone : s₁.rob.gone x = false := by
    rw [← hr, h.before.mid.gone_eq hs₂, hr]
    exact halive
  obtain ⟨g, hg, hgx, hsq, hh⟩ := hguard hgone
  obtain ⟨hsq₃, hcase⟩ := hheld g hh
  exact h.commits.kept x (hl ▸ hx) ⟨g, hl ▸ hg, hgx, hsq₃.trans hsq, hcase⟩

end Tick

/-! ## The cycle -/

/-- The state at the end of a cycle. -/
structure Inv (c : Config) (s : Core) : Prop where
  mid : Mid c s
  violator : s.memDepViolator = none
  miss : s.oblsMissInst = none
  latch : ∀ sig, s.fromIEW.squash = some sig → s.Sent sig
  completed : ∀ x ∈ s.fromIEW.insts, x ≤ s.globalSeqNum ∧
    ((s.rob.insts x).staticInst.isControl = true → (s.rob.insts x).status.executed = true)
  taintDone : ∀ x ∈ s.rob.instList, (s.rob.insts x).taintPropDone = true
  addrArgs : ∀ x ∈ s.rob.instList, (s.rob.insts x).isAddrTainted = true →
    (s.rob.insts x).isArgsTainted = true
  plain : ∀ x ∈ s.rob.instList, (s.rob.insts x).isFetchFault = true →
    (s.rob.insts x).isArgsTainted = false
  left : ∀ x ∈ s.notInROB, LeftOut s x

variable {i : CycleIn} {w : Iew} {s₂ s₃ t s₄ : Core} {x : Nat}

theorem inFlight_eq (h : s.toIEW.squash = false) :
    s.inFlight = { s.rob with instList := s.rob.instList ++ s.notInROB } :=
  if_neg (by rw [h]; simp)

theorem mem_inFlight (hx : x ∈ s.inFlight.instList) :
    x ∈ s.rob.instList ∨ x ∈ s.notInROB ∧ s.toIEW.squash = false := by
  unfold inFlight at hx
  split at hx
  · exact .inl hx
  · next hto => exact (List.mem_append.mp hx).imp_right fun hx => ⟨hx, by simpa using hto⟩

theorem Inv.extends (h : Inv c s) : Iew.Extends s.rob s.inFlight :=
  extends_inFlight fun x hx => (h.left x hx).old

/-- Without a squash by commit the trap is still to come. -/
theorem LeftOut.waiting (h : LeftOut s x) (hto : s.toIEW.squash = false) :
    s.status = .TrapPending ∧ (s.rob.insts x).squashed = false ∧
      ((s.rob.insts x).redirects = false → (s.rob.insts x).mispredicted = false) :=
  h.state.resolve_right fun hs => by
    rw [hto] at hs
    cases hs.2.2.1

theorem LeftOut.not_gone (h : LeftOut s x) (hm : Mid c s) (hto : s.toIEW.squash = false) :
    s.inFlight.gone x = false := by
  obtain ⟨ht, hsq, -⟩ := h.waiting hto
  have hg : s.inFlight.gone x = s.rob.gone x := by rw [inFlight_eq hto]; rfl
  rw [hg, hm.gone_eq (by rw [ht]; nofun)]
  exact hsq

theorem Inv.iewReady (h : Inv c s) : s.IewReady := by
  have he := h.extends
  refine ⟨h.violator, h.miss, fun x hx hc => ?_, fun hsq x hx hlt => ?_, fun x hx hg hl => ?_⟩
  · rcases mem_inFlight hx with hx | ⟨hx, hto⟩
    · rw [he.insts x hx] at hc ⊢
      exact h.mid.straight x hx hc
    · rw [inFlight_eq hto] at hc ⊢
      exact ((h.left x hx).waiting hto).2.2 hc
  · rcases mem_inFlight hx with hx | ⟨-, hto⟩
    · rw [he.gone hx]
      exact (h.mid.squash hsq).2.2 x hx hlt
    · rw [hto] at hsq
      cases hsq
  · rcases mem_inFlight hx with hx | ⟨hx, hto⟩
    · rw [he.gone hx] at hg
      rw [he.insts x hx] at hl
      exact h.mid.queues x hx hg hl
    · rw [(h.left x hx).not_gone h.mid hto] at hg
      cases hg

/-- A live branch keeps its readiness through IEW. -/
theorem Latched.frame {r r' : Rob} {sig : IewSquash} (h : Latched r sig) (hf : Iew.Frame r r') :
    Latched r' sig where
  __ := h
  mem := hf.instList ▸ h.mem
  branch hb := (congrArg DynInst.redirects (hf.fixed _) :).trans (h.branch hb)
  load hl := hf.staticInst _ ▸ h.load hl
  fresh hc hg := by
    rw [hf.staticInst] at hc
    rw [hf.gone h.mem] at hg
    rw [(hf.branch _ h.mem hc hg).1]
    exact h.fresh hc hg
  content hg := by
    rw [hf.gone h.mem] at hg
    exact (h.content hg).frame hf h.mem hg fun hc => Iew.isControl_of_isLoad (h.load hc)

/-- Commit starts its tick in the invariant of its tick. -/
theorem Mid.afterIew (h : Mid c s) (hs : Iew.Spec s.rob none (w.within s.rob.instList)) :
    Mid c { s.afterIew w with toIEW := {} } := by
  have hf := hs.frame
  have hl := hf.instList
  refine ⟨hf.inv h.rob, fun x hx => h.last x (hl ▸ hx), fun x hx => h.top x (hl ▸ hx), h.lastTop,
    h.youngTop, fun x hx hg => h.young x (hl ▸ hx) (hf.gone (hl ▸ hx) ▸ hg), fun hd => ?_,
    fun x hx hc => ?_, fun x hx => settled_of_fixed (hf.fixed x) (h.settled x (hl ▸ hx)),
    h.taint.frame h.rob (.of_fixed hl hf.fixed), nofun, fun x hx hg hq => ?_⟩
  · obtain ⟨h1, h2, h3⟩ := h.squashing (hf.doneSquashing ▸ hd)
    exact ⟨fun hnil => h1 (hl.symm.trans hnil), hf.squashedSeqNum.symm ▸ h2, h3⟩
  · exact hs.straight x (hl ▸ hx) ((congrArg DynInst.redirects (hf.fixed x) :).symm.trans hc)
  change (w.within s.rob.instList).rob.gone x = true at hg
  rw [hf.gone (hl ▸ hx), hs.lsq x (hl ▸ hx) hq] at hg
  cases hg

/-- IEW leaves what was left out as it is, and the trap is still to come. -/
theorem Inv.leftOut_afterIew (h : Inv c s) (hs : Iew.Spec s.inFlight none w)
    (hx : x ∈ s.notInROB) (hto : s.toIEW.squash = false) :
    s.status = .TrapPending ∧ LeftOut (s.afterIew w) x := by
  have hl := h.left x hx
  obtain ⟨ht, -⟩ := hl.waiting hto
  have hg := hl.not_gone h.mid hto
  have hm : x ∈ s.inFlight.instList := by
    rw [inFlight_eq hto]
    exact List.mem_append_right _ hx
  refine ⟨ht, hl.old, hl.last, hl.young, hl.top, .inl ⟨ht, ?_, fun hc => ?_⟩⟩
  · exact squashed_of_not_gone ((hs.frame.gone hm).trans hg)
  · exact hs.straight x hm ((congrArg DynInst.redirects (hs.frame.fixed x) :).symm.trans hc)

/-- A cycle and its parts: `full` is about all that IEW works on, `spec` about the buffer. -/
structure Parts (c : Config) (s : Core) (i : CycleIn) (s' : Core) (w : Iew) (s₂ s₃ t s₄ : Core) :
    Prop where
  iew : s.iewTick c i = some w
  full : Iew.Spec s.inFlight none w
  spec : Iew.Spec s.rob none (w.within s.rob.instList)
  noViolator : w.memDepViolator = none
  noMiss : w.oblsMissInst = none
  tick : Tick c i.commit (s.afterIew w) s₂ s₃ t s₄
  sent : ∀ x ∈ i.completed, canComplete w.rob x = true
  eq : s' = s₄.endOfCycle { insts := i.completed, squash := w.squash }

theorem Inv.parts (hstt : c.stt) (himp : c.impChannel) (h : Inv c s)
    (hr : s.cycle c i = some s') : ∃ w s₂ s₃ t s₄, Parts c s i s' w s₂ s₃ t s₄ := by
  obtain ⟨w, s₄, hw, hsent, ht, rfl⟩ := cycle_eq_some hr
  obtain ⟨hfull, hv, hm⟩ := Iew.iewTick_spec h.iewReady hw
  have hs := hfull.within h.extends hm
  obtain ⟨s₂, s₃, t, htick⟩ := (h.mid.afterIew hs).commitTick hstt himp
    (fun sig hsig => (h.latch sig hsig).imp_left fun hl => hl.frame hs.frame) ht
  exact ⟨w, s₂, s₃, t, s₄, hw, hfull, hs, hv, hm, htick, hsent, rfl⟩

/-- All that IEW works on has been renamed. -/
theorem Inv.inFlight_le (h : Inv c s) (hx : x ∈ s.inFlight.instList) : x ≤ s.globalSeqNum := by
  rcases mem_inFlight hx with hx | ⟨hx, -⟩
  · exact h.mid.top x hx
  · exact (h.left x hx).top

/-- A cause that IEW met in the buffer is still there when its signal reaches commit. -/
theorem Parts.raised_mem (hp : Parts c s i s' w s₂ s₃ t s₄) {q : Nat × SquashCause}
    (hq : q ∈ (w.within s.rob.instList).raised) : q.1 ∈ s₄.rob.instList := by
  have hr := hp.spec.raised q hq
  have hl := hp.spec.frame.instList
  refine hp.tick.stays (x := q.1) (by exact hl ▸ hr.mem) hr.alive fun hg => ?_
  obtain ⟨g, hg, hle, hsq, hh⟩ := hr.guard (hp.spec.frame.gone hr.mem ▸ hg)
  exact ⟨g, by exact hl ▸ hg, hle, hsq, hh⟩

/-- Taint only goes away in a cycle. -/
theorem Inv.taint (h : Inv c s) (hp : Parts c s i s' w s₂ s₃ t s₄) (hx : x ≤ s.globalSeqNum) :
    ((s'.rob.insts x).isArgsTainted → (s.rob.insts x).isArgsTainted) ∧
      ((s'.rob.insts x).isAddrTainted → (s.rob.insts x).isAddrTainted) := by
  have hf := hp.spec.frame
  rw [← hf.isArgsTainted, ← hf.isAddrTainted, hp.eq]
  refine hp.tick.taint (fun y hy => ?_) hx
  exact (hf.taintPropDone y).trans (h.taintDone y (hf.instList ▸ hy))

/-- A branch that has not executed is not among the instructions sent. -/
theorem Inv.not_sent (h : Inv c s) (hctl : (s.rob.insts x).staticInst.isControl)
    (hex : (s.rob.insts x).status.executed = false) : x ∉ s.fromIEW.insts := by
  intro hm
  rw [(h.completed x hm).2 hctl] at hex
  cases hex

theorem Inv.latched (h : Inv c s) (hp : Parts c s i s' w s₂ s₃ t s₄) {sig : IewSquash}
    (hsig : (w.within s.rob.instList).squash = some sig) : Latched s₄.rob sig := by
  obtain ⟨hmem, hinst, hincl⟩ := hp.spec.signal sig hsig
  have hr := hp.spec.raised _ hmem
  have hf := hp.spec.frame
  have htop := h.mid.top _ hr.mem
  have hstat : (s₄.rob.insts sig.squashedSeqNum).staticInst =
      (s.rob.insts sig.squashedSeqNum).staticInst :=
    (hp.tick.staticInst htop).trans (hf.staticInst _)
  have hkind := hr.kind
  refine ⟨hp.raised_mem hmem, hinst, hincl, fun hc => ?_, fun hc => ?_, fun hc hg => ?_,
    fun hg => ?_, hp.spec.own sig hsig⟩
  · simp only [hc] at hkind
    exact ((hp.tick.redirects htop).trans (congrArg DynInst.redirects (hf.fixed _) :)).trans hkind.1
  · rw [hstat]
    cases hcause : sig.cause with
    | mispredict => exact absurd hcause hc
    | memOrder a => simp only [hcause] at hkind; exact hkind.1
    | oblsMiss => simp only [hcause] at hkind; exact hkind.1
  · rw [hstat] at hc
    have hnl : (s.rob.insts sig.squashedSeqNum).staticInst.isLoad ≠ true := fun hload => by
      rw [Iew.isControl_of_isLoad hload] at hc
      cases hc
    cases hcause : sig.cause with
    | mispredict =>
      simp only [hcause] at hkind
      have hg₁ := hp.tick.not_gone (by exact hf.instList ▸ hr.mem) htop hg
      obtain ⟨hne, hcan⟩ := hkind.2 hc (hf.gone hr.mem ▸ hg₁)
      rw [hp.tick.canCommit (by exact hf.instList ▸ hr.mem) htop hg
        (by exact hf.staticInst _ ▸ hc) (h.not_sent hc hne)]
      exact hcan
    | memOrder a => simp only [hcause] at hkind; exact absurd hkind.1 hnl
    | oblsMiss => simp only [hcause] at hkind; exact absurd hkind.1 hnl
  · have hg₁ := hp.tick.not_gone (by exact hf.instList ▸ hr.mem) htop hg
    have hfits := hp.spec.content sig hsig (hf.gone hr.mem ▸ hg₁)
    have hpc : (s₄.rob.insts sig.squashedSeqNum).status.pc =
        (w.rob.insts sig.squashedSeqNum).status.pc := hp.tick.pc htop
    have hex : (s₄.rob.insts sig.squashedSeqNum).status.executed =
        (w.rob.insts sig.squashedSeqNum).status.executed := hp.tick.executed htop
    have hst : (s₄.rob.insts sig.squashedSeqNum).staticInst =
        (w.rob.insts sig.squashedSeqNum).staticInst := hp.tick.staticInst htop
    refine ⟨fun hc => ?_, fun hc => ?_⟩
    · rw [hpc, hex, hst]
      exact hfits.branch hc
    · rw [hpc]
      exact hfits.load hc

/-- The signal of a cycle is for the buffer, or for what commit was not given. -/
theorem Inv.sent (h : Inv c s) (hp : Parts c s i s' w s₂ s₃ t s₄) {sig : IewSquash}
    (hsig : w.squash = some sig) : s₄.Sent sig := by
  by_cases hm : sig.squashedSeqNum ∈ s.rob.instList
  · exact .inl (h.latched hp (Iew.within_squash.mpr ⟨hsig, hm⟩))
  · have hmem := (hp.full.raised _ (hp.full.signal sig hsig).1).mem
    obtain ⟨hx, hto⟩ := (mem_inFlight hmem).resolve_left hm
    obtain ⟨ht, hleft⟩ := h.leftOut_afterIew hp.full hx hto
    have hleft := hp.tick.leftOut ht hleft
    exact .inr ⟨hleft.young, hleft.last⟩

theorem mem_afterIew (hx : x ∈ (s.afterIew w).notInROB) :
    x ∈ s.notInROB ∧ s.toIEW.squash = false := by
  change x ∈ (if s.toIEW.squash then [] else s.notInROB) at hx
  split at hx
  · cases hx
  · next hto => exact ⟨hx, by simpa using hto⟩

theorem Inv.cycle (hstt : c.stt) (himp : c.impChannel) (h : Inv c s)
    (hr : s.cycle c i = some s') : Inv c s' := by
  obtain ⟨w, s₂, s₃, t, s₄, hp⟩ := h.parts hstt himp hr
  have htick := hp.tick
  have hl := htick.ends.instList
  have hrest : s₄.memDepViolator = w.memDepViolator ∧ s₄.oblsMissInst = w.oblsMissInst := by
    rw [htick.ends.rest]
    obtain ⟨-, hv, hm, -⟩ := htick.chosen.rest
    exact ⟨htick.commits.violator.trans (hv.trans htick.before.violator),
      htick.commits.miss.trans (hm.trans htick.before.miss)⟩
  rw [hp.eq]
  refine ⟨htick.ends.mid.congr rfl, hrest.1.trans hp.noViolator,
    hrest.2.trans hp.noMiss, fun sig hsig => h.sent hp hsig, fun x hx => ?_,
    fun x hx => htick.ends.taintDone x (hl ▸ hx), fun x hx => htick.ends.addrArgs x (hl ▸ hx),
    fun x hx => htick.ends.plain x (hl ▸ hx), fun x hx => ?_⟩
  rotate_left
  · have hleft : LeftOut s₄ x := by
      rcases htick.leaves hx with hx | hleft
      · obtain ⟨hx, hto⟩ := mem_afterIew hx
        obtain ⟨ht, hleft⟩ := h.leftOut_afterIew hp.full hx hto
        exact htick.leftOut ht hleft
      · exact hleft
    exact { hleft with }
  have hcomp := hp.sent x hx
  simp only [canComplete, Bool.and_eq_true, Bool.or_eq_true, decide_eq_true_eq] at hcomp
  have htop : x ≤ s.globalSeqNum := h.inFlight_le (hp.full.frame.instList ▸ hcomp.1)
  refine ⟨Nat.le_trans htop htick.global_le, fun hctl => ?_⟩
  change (s₄.rob.insts x).staticInst.isControl = true at hctl
  change (s₄.rob.insts x).status.executed = true
  rw [htick.staticInst htop] at hctl
  rw [htick.executed htop]
  rcases hcomp.2 with hex | hload
  · exact hex
  change (w.rob.insts x).staticInst.isControl = true at hctl
  rw [Iew.isControl_of_isLoad hload] at hctl
  cases hctl

theorem Inv.start (h : s.Start) : Inv c s := by
  have hl := h.instList
  have hto : s.toIEW.squash = false := by rw [h.toIEW]
  refine ⟨⟨⟨?_, ?_, ?_, ?_, fun _ => h.squashIt⟩, ?_, ?_, ?_, ?_, ?_, ?_, ?_, ?_, ⟨?_, ?_, ?_, ?_⟩,
    ?_, ?_⟩, h.memDepViolator, h.oblsMissInst, ?_, ?_, ?_, ?_, ?_, ?_⟩
  -- what is left does not speak of an instruction of the buffer
  all_goals try (rw [hl]; simp; done)
  · intro k hk
    rw [h.squashIt] at hk
    cases hk
  · exact Nat.le_of_eq (h.lastCommitedSeqNum.trans h.globalSeqNum.symm)
  · exact Nat.le_of_eq (h.youngestSeqNum.trans h.globalSeqNum.symm)
  · simp [h.doneSquashing]
  · simp [hto]
  · simp [h.fromIEW]
  · simp [h.fromIEW]
  · simp [h.notInROB]

theorem inv_of_reach (hstt : c.stt) (himp : c.impChannel) {C : Core → CycleIn → Prop}
    (h : (coreMachine c).ReachWhen C s) : Inv c s :=
  h.invariant (fun _ hs => .start hs) fun _ _ _ hi _ hs => hi.cycle hstt himp hs

end Core

end SdoCore
