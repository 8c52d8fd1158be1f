import SdoCore.Pipeline.Invariant

/-! Insertion, commitment and the end of commit's tick. `Commits` describes the first two:
what is inserted is new and younger than everything, and what is `Blocked` by itself or by
something older does not leave. `Ends` describes `markCompletedInsts`. -/

namespace SdoCore

open Rob
open DynInst (prevBrsResolved staticInst)

namespace Core

variable {c : Config} {s s' : Core}

/-! ## Insertion and commitment -/

/-- What neither retirement nor the request to execute at commit changes. -/
def bare (i : DynInst) : DynInst :=
  { i with srcs := [], committed := false, inROB := false
           status := { i.status with canCommit := false } }

/-- Nothing has happened to the instruction. -/
structure New (i : DynInst) : Prop where
  canCommit : i.status.canCommit = false
  executed : i.status.executed = false
  pending : i.status.hasPendingSquash = false
  squashed : i.squashed = false
  prevBrs : i.prevBrsResolved = false
  undone : i.taintPropDone = false

/-- Something at or before `x` will not commit now. -/
def Blocked (r : Rob) (x : Nat) : Prop :=
  ∃ g ∈ r.instList, g ≤ x ∧ (r.insts g).squashed = false ∧
    ((r.insts g).readyToCommit = false ∨ (r.insts g).isLoadSafeToCommit = false)

/-- Insertion and commitment: new instructions are younger, and what leaves is not
blocked. While a trap is pending nothing enters the buffer and nothing leaves it. -/
structure Commits (s s' : Core) : Prop where
  mem : ∀ x ∈ s'.rob.instList, x ∈ s.rob.instList ∨
    s.globalSeqNum < x ∧ New (s'.rob.insts x)
  old : ∀ x ≤ s.globalSeqNum, bare (s'.rob.insts x) = bare (s.rob.insts x)
  redirects : ∀ x ≤ s.globalSeqNum, (s'.rob.insts x).redirects = (s.rob.insts x).redirects
  ready : ∀ x ≤ s.globalSeqNum, (s'.rob.insts x).status.canCommit = true →
    (s.rob.insts x).status.canCommit = true
  branch : ∀ x ≤ s.globalSeqNum, (s.rob.insts x).staticInst.isControl = true →
    (s'.rob.insts x).status.canCommit = (s.rob.insts x).status.canCommit
  kept : ∀ x ∈ s.rob.instList, Blocked s.rob x → x ∈ s'.rob.instList
  trapped : s.status = .TrapPending → s'.status = .TrapPending ∧
    s'.rob.instList = s.rob.instList ∧ s'.youngestSeqNum = s.youngestSeqNum ∧
    s'.lastCommitedSeqNum = s.lastCommitedSeqNum ∧
    ∀ x ≤ s.globalSeqNum, s'.rob.insts x = s.rob.insts x
  left : ∀ x ∈ s.notInROB, x ∈ s'.notInROB
  leaves : ∀ x ∈ s'.notInROB, x ∈ s.notInROB ∨ s'.status = .TrapPending ∧ LeftOut s' x
  done : s'.rob.doneSquashing = s.rob.doneSquashing
  bound : s'.rob.squashedSeqNum = s.rob.squashedSeqNum
  status : s.status ≠ .ROBSquashing → s'.status ≠ .ROBSquashing
  global : s.globalSeqNum ≤ s'.globalSeqNum
  fromIEW : s'.fromIEW = s.fromIEW
  hist : s'.hist = s.hist
  violator : s'.memDepViolator = s.memDepViolator
  miss : s'.oblsMissInst = s.oblsMissInst

section
variable {i j : DynInst} (h : bare j = bare i)
include h

theorem bare_ready (hc : j.status.canCommit → i.status.canCommit)
    (hr : j.readyToCommit) : i.readyToCommit := by
  have hsq : j.squashed = i.squashed := (congrArg DynInst.squashed h :)
  have hp : j.status.hasPendingSquash = i.status.hasPendingSquash :=
    (congrArg Status.hasPendingSquash (congrArg DynInst.status h) :)
  unfold DynInst.readyToCommit at hr ⊢
  rw [hsq, hp, Bool.and_eq_true] at hr
  rw [Bool.and_eq_true]
  exact ⟨hc hr.1, hr.2⟩

theorem New.of_bare (hi : New i) (hc : j.status.canCommit → i.status.canCommit) :
    New j := by
  have hs := congrArg DynInst.status h
  refine ⟨?_, ?_, ?_, ?_, ?_, ?_⟩
  · cases hb : j.status.canCommit with
    | false => rfl
    | true =>
      rw [hi.canCommit] at hc
      exact absurd (hc hb) (by simp)
  · exact (congrArg Status.executed hs :).trans hi.executed
  · exact (congrArg Status.hasPendingSquash hs :).trans hi.pending
  · exact (congrArg DynInst.squashed h :).trans hi.squashed
  · exact (congrArg prevBrsResolved h :).trans hi.prevBrs
  · exact (congrArg DynInst.taintPropDone h :).trans hi.undone

end

/-- A step that only changes the status or the PC. -/
theorem Commits.of_status (heq : s' = { s with
      status := s'.status, pc := s'.pc, trapInFlight := s'.trapInFlight })
    (htrap : s.status = .TrapPending → s'.status = .TrapPending)
    (hst : s.status ≠ .ROBSquashing → s'.status ≠ .ROBSquashing) : Commits s s' := by
  rw [heq]
  exact ⟨fun _ h => .inl h, fun _ _ => rfl, fun _ _ => rfl, fun _ _ h => h, fun _ _ _ => rfl,
    fun _ h _ => h, fun h => ⟨htrap h, rfl, rfl, rfl, fun _ _ => rfl⟩, fun _ h => h,
    fun _ h => .inl h, rfl, rfl, hst,
    Nat.le_refl _, rfl, rfl, rfl, rfl⟩

theorem Commits.refl (s : Core) : Commits s s := .of_status rfl (fun h => h) fun h => h

theorem Commits.leftOut {x : Nat} (h : Commits s s') (ht : s.status = .TrapPending)
    (hx : LeftOut s x) : LeftOut s' x := by
  obtain ⟨ht', hl, hy, hc, hi⟩ := h.trapped ht
  refine ⟨hl ▸ hx.old, hc ▸ hx.last, hy ▸ hx.young, Nat.le_trans hx.top h.global, .inl ⟨ht', ?_⟩⟩
  rw [hi x hx.top]
  exact (hx.state.resolve_right fun hs => by rw [hs.1] at ht; cases ht).2

theorem Commits.trans {s'' : Core} (htop : ∀ x ∈ s.rob.instList, x ≤ s.globalSeqNum)
    (htop' : ∀ x ∈ s'.rob.instList, x ≤ s'.globalSeqNum)
    (h : Commits s s') (h' : Commits s' s'') : Commits s s'' := by
  have hle : ∀ {x}, x ≤ s.globalSeqNum → x ≤ s'.globalSeqNum := fun hx => Nat.le_trans hx h.global
  refine ⟨fun x hx => ?_, fun x hx => (h'.old x (hle hx)).trans (h.old x hx),
    fun x hx => (h'.redirects x (hle hx)).trans (h.redirects x hx),
    fun x hx hc => h.ready x hx (h'.ready x (hle hx) hc), fun x hx hc => ?_, fun x hx hb => ?_,
    fun ht => ?_, fun x hx => h'.left x (h.left x hx), fun x hx => ?_, h'.done.trans h.done,
    h'.bound.trans h.bound, fun hs => h'.status (h.status hs), Nat.le_trans h.global h'.global,
    h'.fromIEW.trans h.fromIEW, h'.hist.trans h.hist, h'.violator.trans h.violator,
    h'.miss.trans h.miss⟩
  · rcases h'.mem x hx with hx' | ⟨hlt, hnew⟩
    · rcases h.mem x hx' with hx₀ | ⟨hlt, hnew⟩
      · exact .inl hx₀
      · have hx₁ := htop' x hx'
        exact .inr ⟨hlt, hnew.of_bare (h'.old x hx₁) (h'.ready x hx₁)⟩
    · exact .inr ⟨Nat.lt_of_le_of_lt h.global hlt, hnew⟩
  · have hst : (s'.rob.insts x).staticInst = (s.rob.insts x).staticInst :=
      (congrArg staticInst (h.old x hx) :)
    exact (h'.branch x (hle hx) (hst ▸ hc)).trans (h.branch x hx hc)
  · -- the blocking instruction blocks itself, so it is still there
    obtain ⟨g, hg, hgx, hsq, hcase⟩ := hb
    have hgl := htop g hg
    refine h'.kept x (h.kept x hx ⟨g, hg, hgx, hsq, hcase⟩)
      ⟨g, h.kept g hg ⟨g, hg, Nat.le_refl g, hsq, hcase⟩, hgx, ?_, ?_⟩
    · exact (congrArg DynInst.squashed (h.old g hgl) :).trans hsq
    refine hcase.imp (fun hr => ?_) fun hl =>
      (congrArg DynInst.isLoadSafeToCommit (h.old g hgl) :).trans hl
    cases hb : (s'.rob.insts g).readyToCommit with
    | false => rfl
    | true =>
      rw [bare_ready (h.old g hgl) (h.ready g hgl) hb] at hr
      cases hr
  · obtain ⟨h1, h2, h3, h4, h5⟩ := h.trapped ht
    obtain ⟨k1, k2, k3, k4, k5⟩ := h'.trapped h1
    exact ⟨k1, k2.trans h2, k3.trans h3, k4.trans h4,
      fun x hx => (k5 x (hle hx)).trans (h5 x hx)⟩
  · rcases h'.leaves x hx with hx | hnew
    · exact (h.leaves x hx).imp_right fun ⟨ht, hl⟩ => ⟨(h'.trapped ht).1, h'.leftOut ht hl⟩
    · exact .inr hnew

/-- Outside a squash, the status and what is sent to IEW may change freely. -/
theorem Mid.resume (h : Mid c s) (hst : s.status ≠ .ROBSquashing) (heq : s' = { s with
      status := s'.status, toIEW := s'.toIEW, pc := s'.pc, trapInFlight := s'.trapInFlight
      squashAfterInst := s'.squashAfterInst })
    (hto : s'.toIEW.squash = false) : Mid c s' := by
  rw [heq]
  refine { h with squashing := fun hd => ?_, squash := fun hsq => ?_,
                  queues := fun x hx hg hl => ?_ }
  · exact absurd (h.squashing hd).2.2 hst
  · cases hto.symm.trans hsq
  · exact absurd (h.squash (h.queues x hx hg hl).1).1 hst

theorem Mid.toIEW_squash (h : Mid c s) (hst : s.status ≠ .ROBSquashing) :
    s.toIEW.squash = false := by
  cases hsq : s.toIEW.squash with
  | false => rfl
  | true => exact absurd (h.squash hsq).1 hst

theorem fresh_spec {inst : DynInst} (h : fresh inst) :
    inst.committed = false ∧ (∀ s ∈ inst.srcs, s.argProducer = none) ∧
      inst.status = { pc := inst.status.pc, fault := inst.status.fault } ∧
      inst.prevBrsResolved = false ∧ inst.isUnsquashable = false ∧ inst.taintPropDone = false ∧
      (inst.redirects = false → inst.mispredicted = false) := by
  simp only [fresh, Bool.and_eq_true, Bool.not_eq_true', List.all_eq_true,
    Option.isNone_iff_eq_none, beq_iff_eq] at h
  obtain ⟨⟨⟨⟨⟨⟨⟨⟨⟨⟨⟨⟨⟨hcom, hsrc⟩, hstat⟩, -⟩, -⟩, hprev⟩, -⟩, -⟩, hunsq⟩, -⟩, -⟩, -⟩, hdone⟩,
    hmis⟩ := h
  refine ⟨hcom, hsrc, hstat, hprev, hunsq, hdone, fun hc => ?_⟩
  obtain ⟨hctl, hnop⟩ := Bool.or_eq_false_iff.mp hc
  split at hmis
  · simp [hnop] at hmis
  · simpa [hctl] using hmis

variable {x : Nat} {r : Rob} {rest : List Nat} {i : CommitIn}

theorem Mid.insertInst {inst : DynInst} (h : Mid c s) (hst : s.status ≠ .ROBSquashing)
    (hx : s.globalSeqNum < x) (hfresh : fresh inst)
    (hsq : inst.squashed = false) (hr : s.rob.insertInst c x inst = some r) :
    Mid c { s with rob := r, youngestSeqNum := x, globalSeqNum := x } := by
  obtain ⟨hcom, hsrc, hstat, hprev, hunsq, hdone, hmis⟩ := fresh_spec hfresh
  have hd := h.done hst
  have hyoung : ∀ y ∈ s.rob.instList, y < x := fun y hy => Nat.lt_of_le_of_lt (h.top y hy) hx
  have hins := insertInst_spec hr
  have hmem : ∀ y ∈ r.instList, y ∈ s.rob.instList ∧ r.insts y = s.rob.insts y ∨ y = x := by
    intro y hy
    rw [hins.instList, List.mem_append, List.mem_singleton] at hy
    refine hy.imp_left fun hy => ⟨hy, hins.other y ?_⟩
    have := hyoung y hy
    omega
  have hgone : ∀ y, r.gone y = (r.insts y).squashed := fun y => by
    rw [gone, doomed, hins.doneSquashing, hd]
    simp
  refine ⟨h.rob.insertInst ⟨hd, hyoung, hcom, hsrc⟩ hins, fun y hy => ?_, fun y hy => ?_, ?_,
    Nat.le_refl x, fun y hy _ => ?_, fun hn => ?_, fun y hy hc => ?_, fun y hy => ?_,
    h.taint.frame h.rob (.of_inserts hyoung hdone hins), fun hto => ?_, fun y hy hg hl => ?_⟩
  · rcases hmem y hy with ⟨hy, -⟩ | rfl
    · exact h.last y hy
    · exact Nat.lt_of_le_of_lt h.lastTop hx
  · rcases hmem y hy with ⟨hy, -⟩ | rfl
    · exact Nat.le_of_lt (hyoung y hy)
    · exact Nat.le_refl y
  · exact Nat.le_trans h.lastTop (Nat.le_of_lt hx)
  · rcases hmem y hy with ⟨hy, -⟩ | rfl
    · exact Nat.le_of_lt (hyoung y hy)
    · exact Nat.le_refl y
  · rw [hins.doneSquashing, hd] at hn
    cases hn
  · rcases hmem y hy with ⟨hy, he⟩ | rfl
    · rw [he] at hc ⊢
      exact h.straight y hy hc
    · rw [hins.self] at hc ⊢
      exact hmis (by simpa [DynInst.redirects, DynInst.isFetchFault, linkSrcs_eq] using hc)
  · rcases hmem y hy with ⟨hy, he⟩ | rfl
    · rw [he]
      exact h.settled y hy
    rw [hins.self]
    intro hu
    rw [hunsq] at hu
    cases hu
  · exact absurd (h.squash hto).1 hst
  rw [hgone] at hg
  rcases hmem y hy with ⟨hy, he⟩ | rfl
  · rw [he] at hg hl
    exact h.queues y hy (gone_of_squashed hg) hl
  rw [hins.self] at hg
  rw [hsq] at hg
  cases hg

/-- Nothing but the instruction itself changes when it is left out. -/
theorem leaveOut_spec (s : Core) (x : Nat) (inst : DynInst) : ∃ r l,
    s.leaveOut x inst = { s with rob := r, notInROB := l, globalSeqNum := x } ∧
      r = { s.rob with insts := r.insts } ∧ (∀ y, y ≠ x → r.insts y = s.rob.insts y) ∧
      (l = s.notInROB ∨ l = s.notInROB ++ [x] ∧ r.insts x = inst ∧ inst.squashed = false) := by
  unfold leaveOut
  split
  · exact ⟨s.rob, s.notInROB, rfl, rfl, fun _ _ => rfl, .inl rfl⟩
  · next hsq =>
    exact ⟨_, _, rfl, rfl, fun y hy => if_neg hy, .inr ⟨rfl, if_pos rfl, by simpa using hsq⟩⟩

theorem Mid.leaveOut (h : Mid c s) (hx : s.globalSeqNum < x) (inst : DynInst) :
    Mid c (s.leaveOut x inst) := by
  obtain ⟨r, l, heq, hr, hother, -⟩ := leaveOut_spec s x inst
  -- everything the buffer holds or has linked is older
  have hsame : ∀ y ∈ s.rob.instList, ∀ p ≤ y, r.insts p = s.rob.insts p := fun y hy p hp =>
    hother p (by have := h.top y hy; omega)
  have hself : ∀ y ∈ s.rob.instList, r.insts y = s.rob.insts y := fun y hy =>
    hsame y hy y (Nat.le_refl y)
  have hl : r.instList = s.rob.instList := by rw [hr]
  have hdone : r.doneSquashing = s.rob.doneSquashing := by rw [hr]
  have hbound : r.squashedSeqNum = s.rob.squashedSeqNum := by rw [hr]
  have hit : r.squashIt = s.rob.squashIt := by rw [hr]
  have hgone : ∀ y ∈ s.rob.instList, r.gone y = s.rob.gone y := fun y hy => by
    rw [gone, gone, doomed, doomed, hself y hy, hdone, hbound]
  have hframe : TaintFrame s.rob r := by
    refine ⟨fun y hy => .inl (hl ▸ hy), fun y hy => ?_, fun y hy hu => ?_, fun y hy _ => ?_,
      fun y hy p hp hc => ?_⟩
    · rw [hself y hy]
      exact ⟨rfl, rfl, rfl, rfl, rfl⟩
    · rw [hself y hy]
      exact hu
    · exact ⟨id, by rw [List.map_id, hself y hy], fun _ _ hp => hp⟩
    · rw [hsame y hy p hp]
      exact hc
  have hinv : Rob.Inv r := by
    refine ⟨hl ▸ h.rob.sorted, fun y hy => ?_, fun y hy q hq p hp => ?_, fun k hk => ?_,
      fun hd => ?_⟩
    · rw [hself y (hl ▸ hy)]
      exact h.rob.uncommitted y (hl ▸ hy)
    · rw [hself y (hl ▸ hy)] at hq
      obtain ⟨h1, h2, h3⟩ := h.rob.linked y (hl ▸ hy) q hq p hp
      rw [hl, hsame y (hl ▸ hy) p (Nat.le_of_lt h2)]
      exact ⟨h1, h2, h3⟩
    · obtain ⟨hkl, hk'⟩ := h.rob.squashing k (hit ▸ hk)
      rw [hl]
      exact ⟨hkl, fun y hy hlt => by rw [hself y hy]; exact hk' y hy hlt⟩
    · rw [hit]
      exact h.rob.done (hdone ▸ hd)
  rw [heq]
  refine h.reshape hinv hl hdone hbound hx.le hgone (fun y hy => by rw [hself y hy])
    (fun y hy => ?_) (fun y hy => ?_) (h.taint.frame h.rob hframe)
  · rw [hself y hy]
    exact h.straight y hy
  · rw [hself y hy]
    exact h.settled y hy

theorem Commits.leaveOut {inst : DynInst} (h : Mid c s) (hx : s.globalSeqNum < x)
    (hfresh : fresh inst) (htrap : inst.squashed = false → s.status = .TrapPending) :
    Commits s (s.leaveOut x inst) := by
  obtain ⟨r, l, heq, hr, hother, hl⟩ := leaveOut_spec s x inst
  have hsame : ∀ y ≤ s.globalSeqNum, r.insts y = s.rob.insts y := fun y hy => hother y (by omega)
  have hlist : r.instList = s.rob.instList := by rw [hr]
  have hmem : ∀ y ∈ s.notInROB, y ∈ l := by
    rcases hl with rfl | ⟨rfl, -, -⟩
    · exact fun _ hy => hy
    · exact fun _ hy => List.mem_append_left _ hy
  rw [heq]
  refine ⟨fun y hy => .inl (hlist ▸ hy), fun y hy => congrArg bare (hsame y hy),
    fun y hy => congrArg DynInst.redirects (hsame y hy), fun y hy hc => ?_,
    fun y hy _ => congrArg (·.status.canCommit) (hsame y hy), fun y hy _ => hlist.symm ▸ hy,
    fun ht => ⟨ht, hlist, rfl, rfl, hsame⟩, hmem, fun y hy => ?_, by rw [hr], by rw [hr],
    fun hs => hs, hx.le, rfl, rfl, rfl, rfl⟩
  · rw [← hsame y hy]
    exact hc
  rcases hl with rfl | ⟨rfl, hinst, hsq⟩
  · exact .inl hy
  refine (List.mem_append.mp hy).imp_right fun hy => ?_
  obtain rfl := List.mem_singleton.mp hy
  have ht := htrap hsq
  refine ⟨ht, fun z hz => Nat.lt_of_le_of_lt (h.top z (hlist ▸ hz)) hx,
    Nat.lt_of_le_of_lt h.lastTop hx, Nat.lt_of_le_of_lt h.youngTop hx, Nat.le_refl y,
    .inl ⟨ht, ?_⟩⟩
  change (r.insts y).squashed = false ∧
    ((r.insts y).redirects = false → (r.insts y).mispredicted = false)
  rw [hinst]
  exact ⟨hsq, (fresh_spec hfresh).2.2.2.2.2.2⟩

theorem Mid.getInsts {xs : List (Nat × DynInst)} (h : Mid c s) (hst : s.status ≠ .ROBSquashing)
    (hr : s.getInsts c xs = some s') : Mid c s' ∧ Commits s s' := by
  induction xs generalizing s with
  | nil =>
    cases hr
    exact ⟨h, .refl _⟩
  | cons q xs ih =>
    obtain ⟨x, inst⟩ := q
    rw [Core.getInsts] at hr
    split at hr
    · next hok =>
      obtain ⟨hx, hfresh⟩ := hok
      split at hr
      · next hins =>
        simp only [Bool.and_eq_true, Bool.not_eq_true', bne_iff_ne] at hins
        obtain ⟨⟨hsq, -⟩, htrap⟩ := hins
        obtain ⟨r, hri, hr⟩ := Option.bind_eq_some_iff.mp hr
        have h₁ := h.insertInst hst hx hfresh hsq hri
        obtain ⟨h₂, hc₂⟩ := ih h₁ hst hr
        refine ⟨h₂, Commits.trans h.top h₁.top ?_ hc₂⟩
        have hi := insertInst_spec hri
        obtain ⟨-, -, hstat, hprev, -, hdone, -⟩ := fresh_spec hfresh
        have hother : ∀ y ≤ s.globalSeqNum, r.insts y = s.rob.insts y := fun y hy =>
          hi.other y (by omega)
        have hmem : ∀ y ∈ s.rob.instList, y ∈ r.instList := fun y hy => by
          rw [hi.instList]
          exact List.mem_append_left _ hy
        refine ⟨fun y hy => ?_, fun y hy => congrArg bare (hother y hy),
          fun y hy => congrArg DynInst.redirects (hother y hy), fun y hy hc => ?_,
          fun y hy _ => ?_, fun y hy _ => hmem y hy, fun ht => absurd ht htrap, fun _ h => h,
          fun _ h => .inl h, hi.doneSquashing, hi.squashedSeqNum, fun _ => hst, Nat.le_of_lt hx,
          rfl, rfl, rfl, rfl⟩
        · rw [hi.instList, List.mem_append, List.mem_singleton] at hy
          refine hy.imp_right fun hyx => ?_
          subst hyx
          refine ⟨hx, ?_⟩
          rw [hi.self]
          exact ⟨by rw [hstat], by rw [hstat], by rw [hstat], hsq, hprev, hdone⟩
        · rw [← hother y hy]
          exact hc
        · rw [hother y hy]
      · next hins =>
        have h₁ := h.leaveOut hx inst
        have hc₁ : Commits s (s.leaveOut x inst) := .leaveOut h hx hfresh fun hsq => by
          simpa [hsq, hst] using hins
        obtain ⟨h₂, hc₂⟩ := ih h₁ (hc₁.status hst) hr
        exact ⟨h₂, hc₁.trans h.top h₁.top hc₂⟩
    · cases hr

theorem Retires.bare {r' : Rob} (hr : Retires r r' x rest) (y : Nat) :
    bare (r'.insts y) = bare (r.insts y) ∧
      (r'.insts y).status.canCommit = (r.insts y).status.canCommit := by
  by_cases hy : y = x
  · subst hy
    rw [hr.head]
    exact ⟨rfl, rfl⟩
  · rcases hr.others y hy with he | he <;> rw [he] <;> exact ⟨rfl, rfl⟩

/-- A link that is cleared is still an operand. -/
theorem Retires.redirects {r' : Rob} (hr : Retires r r' x rest) (y : Nat) :
    (r'.insts y).redirects = (r.insts y).redirects := by
  by_cases hy : y = x
  · subst hy
    rw [hr.head]
    simp [DynInst.redirects, DynInst.isFetchFault, clearArgProducers]
  · rcases hr.others y hy with he | he
    · rw [he]
    · rw [he]
      simp [DynInst.redirects, DynInst.isFetchFault, clearArgProducer]

/-- The head retires; `l` is the new `lastCommitedSeqNum`. -/
theorem Mid.retires {l : Nat} (h : Mid c s) (hst : s.status ≠ .ROBSquashing)
    (hr : Retires s.rob r x rest)
    (hl : l ≤ x) : Mid c { s with rob := r, lastCommitedSeqNum := l } := by
  have hd := h.done hst
  have hsorted := h.rob.sorted
  rw [hr.instList, List.pairwise_cons] at hsorted
  have hmem : ∀ y ∈ r.instList, y ∈ s.rob.instList ∧ x < y := by
    intro y hy
    rw [hr.instList'] at hy
    rw [hr.instList]
    exact ⟨List.mem_cons_of_mem _ hy, hsorted.1 y hy⟩
  have hxl : x ∈ s.rob.instList := by rw [hr.instList]; simp
  have hgone : ∀ y, r.gone y = s.rob.gone y := fun y => by
    rw [gone, gone, doomed, doomed, hr.squashed, hr.doneSquashing, hr.squashedSeqNum]
  refine ⟨h.rob.retireHead (by rw [h.rob.done hd]; simp) hr, fun y hy => ?_,
    fun y hy => h.top y (hmem y hy).1, Nat.le_trans hl (h.top x hxl), h.youngTop,
    fun y hy hg => h.young y (hmem y hy).1 (hgone y ▸ hg), fun hn => ?_, fun y hy hc => ?_,
    fun y hy => ?_, h.taint.frame h.rob (.of_retires h.rob hr), fun hto => ?_, fun y hy hg hq => ?_⟩
  · have := (hmem y hy).2
    change l < y
    omega
  · rw [hr.doneSquashing, hd] at hn
    cases hn
  · exact (congrArg DynInst.mispredicted (Retires.bare hr y).1 :).trans
      (h.straight y (hmem y hy).1 (Retires.redirects hr y ▸ hc))
  · exact (congrArg (Settled c) (Retires.bare hr y).1).mpr (h.settled y (hmem y hy).1)
  · exact absurd (h.squash hto).1 hst
  have hin : (r.insts y).status.inLSQ = (s.rob.insts y).status.inLSQ :=
    (congrArg Status.inLSQ (congrArg DynInst.status (Retires.bare hr y).1) :)
  exact h.queues y (hmem y hy).1 (hgone y ▸ hg) (hin ▸ hq)

/-- A ready head is not blocked, and everything blocked is behind it. -/
theorem Commits.of_retires (h : Mid c s) (htrap : s.status ≠ .TrapPending)
    (hready : s.rob.isHeadReady) (hr : Retires s.rob r x rest)
    (hrob : s'.rob = r) (hst' : s'.status ≠ .ROBSquashing)
    (hglobal : s'.globalSeqNum = s.globalSeqNum) (hfrom : s'.fromIEW = s.fromIEW)
    (hhist : s'.hist = s.hist) (hv : s'.memDepViolator = s.memDepViolator)
    (hm : s'.oblsMissInst = s.oblsMissInst) (hleft : s'.notInROB = s.notInROB) :
    Commits s s' := by
  subst hrob
  refine ⟨fun y hy => .inl ?_, fun y _ => (Retires.bare hr y).1, fun y _ => Retires.redirects hr y,
    fun y _ hc => (Retires.bare hr y).2 ▸ hc, fun y _ _ => (Retires.bare hr y).2, fun y hy hb => ?_,
    fun ht => absurd ht htrap, fun y hy => hleft ▸ hy, fun y hy => .inl (hleft ▸ hy),
    hr.doneSquashing, hr.squashedSeqNum, fun _ => hst', Nat.le_of_eq hglobal.symm, hfrom, hhist, hv,
    hm⟩
  · rw [hr.instList]
    exact List.mem_cons_of_mem _ (hr.instList' ▸ hy)
  obtain ⟨g, hg, hgy, -, hcase⟩ := hb
  have hsorted := h.rob.sorted
  unfold isHeadReady at hready
  rw [hr.instList] at hready hg hy hsorted
  rw [Bool.and_eq_true] at hready
  rw [hr.instList']
  rcases List.mem_cons.mp hg with rfl | hg
  · -- the head itself would be the one that blocks
    rw [hready.1, hready.2] at hcase
    rcases hcase with hc | hc <;> cases hc
  · have hxg := (List.pairwise_cons.mp hsorted).1 g hg
    rcases List.mem_cons.mp hy with rfl | hy
    · omega
    · exact hy

/-- Commit asks for the execution of a head that has to wait for it: it is no branch. -/
theorem Mid.askExecute (h : Mid c s) (htrap : s.status ≠ .TrapPending)
    (hctl : (s.rob.insts x).staticInst.isControl = false) :
    Mid c { s with rob := s.rob.modify x fun j =>
        { j with status := { j.status with canCommit := false } } } ∧
      Commits s { s with rob := s.rob.modify x fun j =>
        { j with status := { j.status with canCommit := false } } } := by
  have hm : Marks s.rob (s.rob.modify x fun j =>
      { j with status := { j.status with canCommit := false } }) :=
    marks_modify (f := fun st => { st with canCommit := false }) s.rob x fun _ => rfl
  refine ⟨h.marks hm, fun y hy => .inl hy, fun y _ => ?_,
    fun y _ => (congrArg DynInst.redirects (hm.fixed y) :), fun y _ hc => ?_, fun y _ hc => ?_,
    fun y hy _ => hy, fun ht => absurd ht htrap, fun _ h => h, fun _ h => .inl h, rfl, rfl,
    fun h => h, Nat.le_refl _, rfl, rfl, rfl, rfl⟩
  · by_cases hy : y = x
    · subst hy
      simp [Rob.modify, bare]
    · simp [Rob.modify, hy]
  · by_cases hy : y = x
    · subst hy
      simp [Rob.modify] at hc
    · simpa [Rob.modify, hy] using hc
  · have hy : y ≠ x := by
      rintro rfl
      rw [hctl] at hc
      cases hc
    simp [Rob.modify, hy]

theorem status_of_canCommitInsts (h : s.canCommitInsts) :
    s.status ≠ .ROBSquashing ∧ s.status ≠ .TrapPending := by
  simp only [canCommitInsts, Bool.or_eq_true, decide_eq_true_eq] at h
  rcases h with (h | h) | h <;> rw [h] <;> exact ⟨nofun, nofun⟩

/-- A trap from a state in which instructions may commit. -/
theorem Mid.trap (h : Mid c s) (hst : s.status ≠ .ROBSquashing) :
    Mid c s.trap ∧ Commits s s.trap :=
  ⟨h.resume hst rfl (h.toIEW_squash hst), .of_status rfl (fun _ => rfl) nofun⟩

theorem Mid.commitHead {n : Nat} {t : Core} {b : Bool} (h : Mid c s)
    (hst : s.status ≠ .ROBSquashing) (htrap : s.status ≠ .TrapPending)
    (hl : s.rob.instList.head? = some x) (hr : commitHead c i s x n = some (t, b)) :
    b = false ∧ Mid c t ∧ Commits s t ∨
      b ∧ ∃ r rest, Retires s.rob r x rest ∧ t = { s with rob := r } := by
  unfold Core.commitHead at hr
  dsimp only at hr
  split at hr
  · split at hr
    · next hkind =>
      split at hr
      · cases hr
        exact .inl ⟨rfl, h, .refl s⟩
      · cases hr
        refine .inl ⟨rfl, h.askExecute htrap ?_⟩
        -- none of the kinds that wait for commit is a branch
        cases hc : (s.rob.insts x).staticInst.isControl with
        | false => rfl
        | true =>
          obtain ⟨hmem, hns, hsc, hmb, hwb, -⟩ := (s.rob.insts x).staticInst.control_kind hc
          simp [hns, hsc, hmb, hwb, StaticInst.not_isLoad hmem] at hkind
    · cases hr
  · split at hr
    · split at hr
      · cases hr
        exact .inl ⟨rfl, h, .refl s⟩
      · cases hr
        exact .inl ⟨rfl, h.trap hst⟩
    · split at hr
      · cases hr
        exact .inl ⟨rfl, h, .refl s⟩
      split at hr
      · cases hr
      obtain ⟨r, hret, heq⟩ := Option.map_eq_some_iff.mp hr
      cases heq
      obtain ⟨y, rest, hr⟩ := retireHead_spec h.rob.nodup hret
      rw [hr.instList] at hl
      cases hl
      exact .inr ⟨rfl, r, rest, hr, rfl⟩

theorem Mid.afterCommit (inst : DynInst) (h : Mid c s) (hst : s.status ≠ .ROBSquashing)
    (htrap : s.status ≠ .TrapPending)
    (hready : s.rob.isHeadReady) (hr : Retires s.rob r x rest) :
    Mid c ({ s with rob := r }.afterCommit i x inst) ∧
      Commits s ({ s with rob := r }.afterCommit i x inst) := by
  have hmid : Mid c { s with rob := r, lastCommitedSeqNum := x } := h.retires hst hr (Nat.le_refl x)
  have hto : ({ s.toIEW with doneSeqNum := x } : CommitInfo).squash = false := h.toIEW_squash hst
  unfold Core.afterCommit
  split
  · exact ⟨hmid.resume hst rfl hto,
      .of_retires h htrap hready hr rfl nofun rfl rfl rfl rfl rfl rfl⟩
  · exact ⟨hmid.resume hst rfl hto,
      .of_retires h htrap hready hr rfl hst rfl rfl rfl rfl rfl rfl⟩

theorem Mid.commitLoop {n fuel : Nat} (h : Mid c s) (hst : s.status ≠ .ROBSquashing)
    (hr : commitLoop c i s n fuel = some s') :
    Mid c s' ∧ Commits s s' := by
  induction fuel generalizing s n with
  | zero =>
    cases hr
    exact ⟨h, .refl _⟩
  | succ fuel ih =>
    rw [Core.commitLoop] at hr
    split at hr
    · dsimp only at hr
      -- the interrupt, if there is one, comes first
      have hstart : Mid c (if i.interrupt && s.rob.instList.isEmpty then s.trap else s) ∧
          Commits s (if i.interrupt && s.rob.instList.isEmpty then s.trap else s) := by
        split
        · exact h.trap hst
        · exact ⟨h, .refl s⟩
      generalize (if i.interrupt && s.rob.instList.isEmpty then s.trap else s) = s₁ at hr hstart
      obtain ⟨h₁, hc₁⟩ := hstart
      split at hr
      · cases hr
        exact ⟨h₁, hc₁⟩
      rename_i x rest hl
      split at hr
      · cases hr
        exact ⟨h₁, hc₁⟩
      rename_i hgo
      simp only [Bool.or_eq_true, Bool.not_eq_true', not_or, Bool.not_eq_false] at hgo
      obtain ⟨hcan, hready⟩ := hgo
      obtain ⟨hst₁, htrap₁⟩ := status_of_canCommitInsts hcan
      split at hr
      · obtain ⟨r, hret, hr⟩ := Option.bind_eq_some_iff.mp hr
        obtain ⟨y, rest', hre⟩ := retireHead_spec h₁.rob.nodup hret
        have hyl : y ∈ s₁.rob.instList := by rw [hre.instList]; simp
        have h₂ : Mid c { s₁ with rob := r } :=
          h₁.retires hst₁ hre (Nat.le_of_lt (h₁.last y hyl))
        obtain ⟨h₃, hc₃⟩ := ih h₂ hst₁ hr
        have hc₂ : Commits s₁ { s₁ with rob := r } :=
          .of_retires h₁ htrap₁ hready hre rfl hst₁ rfl rfl rfl rfl rfl rfl
        exact ⟨h₃, hc₁.trans h.top h₁.top (hc₂.trans h₁.top h₂.top hc₃)⟩
      · obtain ⟨⟨t, b⟩, hch, hr⟩ := Option.bind_eq_some_iff.mp hr
        have h₂ : Mid c { s₁ with pc := (s₁.rob.insts x).status.pc } := h₁.congr rfl
        have hc₂ : Commits s₁ { s₁ with pc := (s₁.rob.insts x).status.pc } :=
          .of_status rfl (fun ht => ht) fun hs => hs
        rcases h₂.commitHead hst₁ htrap₁ (by rw [hl]; rfl) hch with
          ⟨rfl, h₃, hc₃⟩ | ⟨rfl, r, rest', hre, rfl⟩
        · cases hr
          exact ⟨h₃, hc₁.trans h.top h₁.top (hc₂.trans h₁.top h₂.top hc₃)⟩
        obtain ⟨h₃, hc₃⟩ := h₂.afterCommit (i := i) (s₁.rob.insts x) hst₁ htrap₁ hready hre
        have hc := hc₁.trans h.top h₁.top (hc₂.trans h₁.top h₂.top hc₃)
        rw [if_pos rfl] at hr
        split at hr
        · cases hr
          exact ⟨h₃, hc⟩
        · obtain ⟨h₄, hc₄⟩ := ih h₃ (hc₃.status hst₁) hr
          exact ⟨h₄, hc.trans h.top h₃.top hc₄⟩
    · cases hr
      exact ⟨h, .refl _⟩

/-! ## The end of the tick -/

theorem markCompleted_spec (s : Core) (xs : List Nat) :
    Marks s.rob (s.markCompleted xs).rob ∧
      s.markCompleted xs = { s with rob := (s.markCompleted xs).rob } ∧
      (∀ x, ((s.markCompleted xs).rob.insts x).status.hasPendingSquash =
        (s.rob.insts x).status.hasPendingSquash) ∧
      (∀ x, x ∉ xs → ((s.markCompleted xs).rob.insts x).status.canCommit =
        (s.rob.insts x).status.canCommit) ∧
      ∀ x, (s.rob.insts x).status.canCommit →
        ((s.markCompleted xs).rob.insts x).status.canCommit := by
  induction xs generalizing s with
  | nil => exact ⟨.refl _, rfl, fun _ => rfl, fun _ _ => rfl, fun _ h => h⟩
  | cons x xs ih =>
    rw [markCompleted]
    split
    · obtain ⟨h1, h2, h3, h4, h5⟩ := ih s
      exact ⟨h1, h2, h3, fun y hy => h4 y fun hm => hy (List.mem_cons_of_mem _ hm), h5⟩
    obtain ⟨h1, h2, h3, h4, h5⟩ := ih { s with rob := s.rob.modify x fun i =>
      { i with status := { i.status with canCommit := true } } }
    have hm : Marks s.rob (s.rob.modify x fun i =>
        { i with status := { i.status with canCommit := true } }) :=
      marks_modify (f := fun st => { st with canCommit := true }) s.rob x fun _ => rfl
    refine ⟨hm.trans h1, h2, fun y => (h3 y).trans ?_, fun y hy => ?_, fun y hy => h5 y ?_⟩
    · by_cases hyx : y = x
      · subst hyx
        simp [Rob.modify]
      · simp [Rob.modify, hyx]
    · obtain ⟨hyx, hy⟩ := not_or.mp (mt List.mem_cons.mpr hy)
      rw [h4 y hy]
      simp [Rob.modify, hyx]
    · by_cases hyx : y = x
      · subst hyx
        simp [Rob.modify]
      · simpa [Rob.modify, hyx] using hy

/-- `markCompletedInsts`: completed instructions become ready, and visibility and taint
are computed. -/
structure Ends (c : Config) (s s' : Core) : Prop where
  mid : Mid c s'
  rest : s' = { s with rob := s'.rob }
  instList : s'.rob.instList = s.rob.instList
  doneSquashing : s'.rob.doneSquashing = s.rob.doneSquashing
  bound : s'.rob.squashedSeqNum = s.rob.squashedSeqNum
  squashed : ∀ x, (s'.rob.insts x).squashed = (s.rob.insts x).squashed
  staticInst : ∀ x, (s'.rob.insts x).staticInst = (s.rob.insts x).staticInst
  redirects : ∀ x, (s'.rob.insts x).redirects = (s.rob.insts x).redirects
  mispredicted : ∀ x, (s'.rob.insts x).mispredicted = (s.rob.insts x).mispredicted
  kept : ∀ x, (s'.rob.insts x).status.kept = (s.rob.insts x).status.kept
  pending : ∀ x, (s'.rob.insts x).status.hasPendingSquash =
    (s.rob.insts x).status.hasPendingSquash
  unmarked : ∀ x, x ∉ s.fromIEW.insts →
    (s'.rob.insts x).status.canCommit = (s.rob.insts x).status.canCommit
  marked : ∀ x, (s.rob.insts x).status.canCommit = true →
    (s'.rob.insts x).status.canCommit = true
  prevBrs : ∀ y, (s'.rob.insts y).prevBrsResolved = true → (s.rob.insts y).prevBrsResolved = true ∨
    ∀ b ∈ s.rob.instList, b < y → branchReady (s'.rob.insts b)
  taint : ∀ x ∈ s.rob.instList, (s.rob.insts x).taintPropDone = true →
    ((s'.rob.insts x).isArgsTainted = true → (s.rob.insts x).isArgsTainted = true) ∧
      ((s'.rob.insts x).isAddrTainted = true → (s.rob.insts x).isAddrTainted = true)
  outside : ∀ x, x ∉ s.rob.instList →
    (s'.rob.insts x).isArgsTainted = (s.rob.insts x).isArgsTainted ∧
      (s'.rob.insts x).isAddrTainted = (s.rob.insts x).isAddrTainted
  taintDone : ∀ x ∈ s.rob.instList, (s'.rob.insts x).taintPropDone = true
  addrArgs : ∀ x ∈ s.rob.instList, (s'.rob.insts x).isAddrTainted = true →
    (s'.rob.insts x).isArgsTainted = true
  plain : ∀ x ∈ s.rob.instList, (s'.rob.insts x).isFetchFault = true →
    (s'.rob.insts x).isArgsTainted = false

theorem Ends.executed (h : Ends c s s') (x : Nat) :
    (s'.rob.insts x).status.executed = (s.rob.insts x).status.executed :=
  (congrArg Status.executed (h.kept x) :)

theorem Ends.pc (h : Ends c s s') (x : Nat) :
    (s'.rob.insts x).status.pc = (s.rob.insts x).status.pc :=
  (congrArg Status.pc (h.kept x) :)

theorem endCycle_redirects (c : Config) (r : Rob) (x : Nat) :
    ((r.endCycle c).insts x).redirects = (r.insts x).redirects := by
  rw [DynInst.redirects, DynInst.redirects, DynInst.isFetchFault, DynInst.isFetchFault,
    endCycle_static, (endCycle_shape c r).srcs]

theorem Mid.endCycle (hstt : c.stt) (h : Mid c s) :
    Mid c { s with rob := s.rob.endCycle c } := by
  have hshape := endCycle_shape c s.rob
  have hst := endCycle_status c s.rob
  refine h.reshape (h.rob.sameShape hshape) hshape.instList hshape.doneSquashing
    (endCycle_bound c s.rob) (Nat.le_refl _) (fun x _ => endCycle_gone c s.rob x)
    (fun x _ => by rw [hst]) (fun x hx hc => ?_) (fun x hx => endCycle_settled (h.settled x hx))
    (TaintClosed.endCycle hstt h.rob)
  rw [Iew.mispredicted_congr (endCycle_static c s.rob x) (endCycle_predPC c s.rob x) (by rw [hst])]
  exact h.straight x hx (endCycle_redirects c s.rob x ▸ hc)

theorem Mid.ends (hstt : c.stt) (h : Mid c s) : Ends c s (s.markCompletedInsts c) := by
  obtain ⟨hm, heq, hpend, hun, hmark⟩ := markCompleted_spec s s.fromIEW.insts
  have h₁ : Mid c { s with rob := (s.markCompleted s.fromIEW.insts).rob } := h.marks hm
  unfold markCompletedInsts
  rw [heq]
  generalize (s.markCompleted s.fromIEW.insts).rob = r at hm hpend hun hmark h₁
  have hshape := endCycle_shape c r
  have hl : (r.endCycle c).instList = s.rob.instList := hshape.instList.trans hm.instList
  have hst := endCycle_status c r
  have hdone : ∀ x, (r.insts x).taintPropDone = (s.rob.insts x).taintPropDone := fun x =>
    (congrArg DynInst.taintPropDone (hm.fixed x) :)
  have hargs : ∀ x, (r.insts x).isArgsTainted = (s.rob.insts x).isArgsTainted := fun x =>
    (congrArg DynInst.isArgsTainted (hm.fixed x) :)
  have haddr : ∀ x, (r.insts x).isAddrTainted = (s.rob.insts x).isAddrTainted := fun x =>
    (congrArg DynInst.isAddrTainted (hm.fixed x) :)
  refine ⟨h₁.endCycle hstt, rfl, hl, hshape.doneSquashing.trans hm.doneSquashing,
    (endCycle_bound c r).trans hm.squashedSeqNum, fun x => ?_, fun x => ?_, fun x => ?_,
    fun x => ?_, fun x => ?_, fun x => ?_, fun x hx => ?_, fun x hx => ?_, fun y hy => ?_,
    fun x hx hd => ?_, fun x hx => ?_,
    fun x hx => ?_, fun x hx ha => ?_, fun x hx hf => ?_⟩
  · exact (endCycle_squashed c r x).trans (hm.squashed x)
  · exact (endCycle_static c r x).trans (hm.staticInst x)
  · exact (endCycle_redirects c r x).trans (congrArg DynInst.redirects (hm.fixed x) :)
  · rw [Iew.mispredicted_congr (endCycle_static c r x) (endCycle_predPC c r x) (by rw [hst]),
      hm.mispredicted]
  · rw [hst]
    exact hm.kept x
  · rw [hst, hpend]
  · rw [hst, hun x hx]
  · rw [hst, hmark x hx]
  · have hprev : (r.insts y).prevBrsResolved = (s.rob.insts y).prevBrsResolved :=
      (congrArg prevBrsResolved (hm.fixed y) :)
    rw [← hprev]
    refine (endCycle_prevBrsResolved h₁.rob hy).imp_right fun hall b hb hlt => ?_
    have hr := hall b (hm.instList ▸ hb) hlt
    unfold branchReady DynInst.readyToCommit at hr ⊢
    rwa [endCycle_static, hst, endCycle_squashed]
  · have hmono := h₁.taint.endCycle_mono hstt h₁.rob h₁.settled (hm.instList ▸ hx)
      ((hdone x).trans hd)
    exact ⟨fun ha => hargs x ▸ hmono.1 ha, fun ha => haddr x ▸ hmono.2 ha⟩
  · rw [endCycle_outside c (hm.instList ▸ hx)]
    exact ⟨hargs x, haddr x⟩
  · exact endCycle_done hstt h₁.rob (hm.instList ▸ hx)
  · exact endCycle_addr hstt h₁.rob (hm.instList ▸ hx) ha
  · refine endCycle_plain hstt h₁.rob (hm.instList ▸ hx) ?_
    change ((r.endCycle c).insts x).isFetchFault = true at hf
    rw [DynInst.isFetchFault, hshape.srcs, Bool.and_eq_true, List.isEmpty_iff] at hf
    exact hf.2

/-- After its choice, commit inserts and commits unless it is squashing, and ends its
tick. -/
theorem Mid.afterChoice (hstt : c.stt) (h : Mid c s) (hr : s.afterChoice c i = some s') :
    ∃ t, Commits s t ∧ (s.status = .ROBSquashing → t = s) ∧ Ends c t s' := by
  obtain ⟨t, ht, rfl⟩ := Option.map_eq_some_iff.mp hr
  split at ht
  · cases ht
    exact ⟨s, .refl s, fun _ => rfl, h.ends hstt⟩
  · next hst =>
    obtain ⟨s₁, hr₁, hr₂⟩ := Option.bind_eq_some_iff.mp ht
    obtain ⟨h₁, hc₁⟩ := h.getInsts hst hr₁
    obtain ⟨h₂, hc₂⟩ := h₁.commitLoop (hc₁.status hst) hr₂
    exact ⟨t, hc₁.trans h.top h₁.top hc₂, fun hs => absurd hs hst, h₂.ends hstt⟩

end Core

end SdoCore
