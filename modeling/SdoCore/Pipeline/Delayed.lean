import SdoCore.Pipeline.Tick

/-! A squash that commit delays and performs later, against the squash it would have
started at once. The delayed path keeps one flag of the instruction and works everything
else out again (`handleSquashSignalFromROB`).

* `delayed_squash_same`: bound, redirect PC and mispredicted branch are those of the signal
  when it arrived, the direction too for a branch, and `squashInst` is the same instruction
  as long as it is in the buffer;
* `delayed_squash_differs`: by then it may have retired. -/

namespace SdoCore

open Lib Rob

namespace Core

variable {c : Config} {s s' : Core} {i : CycleIn} {w : Iew} {s₂ s₃ t s₄ : Core} {x : Nat}

/-- The state in which commit decides about squashes in the cycle `i`. -/
def atChoice (c : Config) (s : Core) (i : CycleIn) : Option Core :=
  (s.iewTick c i).bind fun w => (s.afterIew w).beforeChoice c i.commit

/-- What a squash tells the buffer and the other stages. -/
structure Outcome where
  squashedSeqNum : Nat
  doneSeqNum : Nat
  pc : PCState
  mispredictInst : Option Nat
  branchTaken : Bool
  squashInst : Option Nat
  deriving DecidableEq

def outcome (s : Core) : Outcome where
  squashedSeqNum := s.rob.squashedSeqNum
  doneSeqNum := s.toIEW.doneSeqNum
  pc := s.toIEW.pc
  mispredictInst := s.toIEW.mispredictInst
  branchTaken := s.toIEW.branchTaken
  squashInst := s.toIEW.squashInst

/-- The signal `sig` reaches commit in the cycle `i` from `s₀` and is delayed; a later
cycle `j` from `s₃` performs its squash and gives `t`. Performed at once it would have given
`t₀`. -/
structure Delayed (c : Config) (sig : IewSquash) (s₀ : Core) (i : CycleIn) (s₂ s₁ s₃ : Core)
    (j : CycleIn) (s₄ t₀ t : Core) : Prop where
  reach : (coreMachine c).Reach s₀
  arrives : s₀.atChoice c i = some s₂
  delays : s₂.squashChoice c = .delay sig
  cycle : s₀.cycle c i = some s₁
  later : (coreMachine c).StepsWhile (fun _ _ => True) (fun _ => True) s₁ s₃
  returns : s₃.atChoice c j = some s₄
  performs : s₄.squashChoice c = .fromROB sig.instCausingSquash
  now : s₂.handleSquashSignalFromIEW c sig = some t₀
  after : s₄.applyChoice c (.fromROB sig.instCausingSquash) = some t

/-! ## What a squash sends -/

/-- Starting a squash, with the lookup of the last instruction that stays. -/
theorem startSquash_outcome {n : Nat} {y : Option Nat} {info : CommitInfo} (hi : Rob.Inv s.rob)
    (hne : s.rob.instList ≠ [])
    (hr : (Core.startSquash c { s with youngestSeqNum := n } n y info).map
      (fun t => { t with toIEW := { t.toIEW with squashInst := t.findInst n } }) = some s') :
    s'.outcome = ⟨n, n, info.pc, info.mispredictInst, info.branchTaken, s.findInst n⟩ := by
  obtain ⟨t, ht, rfl⟩ := Option.map_eq_some_iff.mp hr
  obtain ⟨r, hsq, rfl⟩ := Option.map_eq_some_iff.mp ht
  have hbound : r.squashedSeqNum = n := squash_bound hsq hne
  have hlist : r.instList = s.rob.instList := (hi.squash hsq).2.instList
  simp only [outcome, findInst, hlist, hbound]

theorem findInst_eq (s : Core) (n : Nat) :
    s.findInst n = if n ∈ s.rob.instList then some n else none := by
  unfold findInst
  split
  · next hn =>
    cases hf : s.rob.instList.find? (· == n) with
    | none => exact absurd (List.find?_eq_none.mp hf n hn) (by simp)
    | some m =>
      have := List.find?_some hf
      simp only [beq_iff_eq] at this
      rw [this]
  · next hn =>
    refine List.find?_eq_none.mpr fun m hm he => hn ?_
    simp only [beq_iff_eq] at he
    exact he ▸ hm

/-! ## The instruction in between -/

/-- The instruction `x` in `r'` is as it was in `r`: what a delayed squash reads of it. -/
structure SameInst (x : Nat) (r r' : Rob) : Prop where
  staticInst : (r'.insts x).staticInst = (r.insts x).staticInst
  branch : (r.insts x).staticInst.isControl = true → (r.insts x).status.executed = true →
    (r'.insts x).status.executed = true ∧ (r'.insts x).status.pc = (r.insts x).status.pc
  straight : (r.insts x).staticInst.isControl = false →
    (r'.insts x).status.pc = (r.insts x).status.pc

section
variable {r r' r'' : Rob}

theorem SameInst.refl (x : Nat) (r : Rob) : SameInst x r r :=
  ⟨rfl, fun _ he => ⟨he, rfl⟩, fun _ => rfl⟩

theorem SameInst.trans (h : SameInst x r r') (h' : SameInst x r' r'') : SameInst x r r'' where
  staticInst := h'.staticInst.trans h.staticInst
  branch hc he := by
    obtain ⟨he', hp⟩ := h.branch hc he
    obtain ⟨he'', hp'⟩ := h'.branch (h.staticInst ▸ hc) he'
    exact ⟨he'', hp'.trans hp⟩
  straight hc := (h'.straight (h.staticInst ▸ hc)).trans (h.straight hc)

theorem SameInst.frame (hf : Iew.Frame r r') (hx : x ∈ r.instList) (hg : r.gone x = false) :
    SameInst x r r' where
  staticInst := hf.staticInst x
  branch hc he := by
    rcases (hf.branch x hx hc hg).2 with ⟨he', hp⟩ | ⟨hne, -, -⟩
    · exact ⟨he'.trans he, hp⟩
    · rw [he] at hne
      cases hne
  straight := hf.straight x

theorem SameInst.of_eq (hs : (r'.insts x).staticInst = (r.insts x).staticInst)
    (he : (r'.insts x).status.executed = (r.insts x).status.executed)
    (hp : (r'.insts x).status.pc = (r.insts x).status.pc) : SameInst x r r' :=
  ⟨hs, fun _ hex => ⟨he.trans hex, hp⟩, fun _ => hp⟩

theorem SameInst.passes (hp : Passes r r') : SameInst x r r' :=
  .of_eq (hp.staticInst x) (hp.executed x) (congrArg Status.pc (hp.kept x) :)

end

/-- An instruction that is alive after a cycle was there before it, and is the same. -/
theorem Parts.same_cycle (hp : Parts c s i s' w s₂ s₃ t s₄) (hx : x ≤ s.globalSeqNum)
    (hm : x ∈ s'.rob.instList) (hg : s'.rob.gone x = false) :
    x ∈ s.rob.instList ∧ s.rob.gone x = false ∧ SameInst x s.rob s'.rob := by
  have hf := hp.spec.frame
  rw [hp.eq] at hm hg ⊢
  have hms : x ∈ s.rob.instList := by
    rcases hp.tick.mem hm with hm | ⟨hlt, -⟩
    · exact hm
    · exact absurd hlt (Nat.not_lt.mpr hx)
  have hgs : s.rob.gone x = false := (hf.gone hms).symm.trans (hp.tick.not_gone hms hx hg)
  exact ⟨hms, hgs, (SameInst.frame hf hms hgs).trans
    (.of_eq (hp.tick.staticInst hx) (hp.tick.executed hx) (hp.tick.pc hx))⟩

theorem Inv.atChoice (h : Inv c s) (hr : s.atChoice c i = some s₂) :
    ∃ w, s.iewTick c i = some w ∧ Iew.Frame s.rob (s.afterIew w).rob ∧
      Before c i.commit (s.afterIew w) s₂ := by
  obtain ⟨w, hw, hr⟩ := Option.bind_eq_some_iff.mp hr
  obtain ⟨hfull, -, hm⟩ := Iew.iewTick_spec h.iewReady hw
  have hs := hfull.within h.extends hm
  exact ⟨w, hw, hs.frame, (h.mid.afterIew hs).beforeChoice hr⟩

theorem Inv.same_atChoice (h : Inv c s) (hr : s.atChoice c i = some s₂) (hm : x ∈ s₂.rob.instList)
    (hg : s₂.rob.gone x = false) :
    x ∈ s.rob.instList ∧ s.rob.gone x = false ∧ SameInst x s.rob s₂.rob := by
  obtain ⟨w, -, hf, hb⟩ := h.atChoice hr
  have hp : Passes (s.afterIew w).rob s₂.rob := .of_takes hb.takes
  have hms : x ∈ s.rob.instList := hp.instList ▸ hm
  have hgs : s.rob.gone x = false := (hf.gone hms).symm.trans (hp.not_gone hms hg)
  exact ⟨hms, hgs, (SameInst.frame hf hms hgs).trans (.passes hp)⟩

/-- Back from a later state: an instruction that is there and alive was so all along, and
no instruction has come in at or below the old numbers. -/
theorem Inv.same_later (hstt : c.stt) (himp : c.impChannel) (h : Inv c s)
    (hr : (coreMachine c).StepsWhile (fun _ _ => True) (fun _ => True) s s') :
    Inv c s' ∧ s.globalSeqNum ≤ s'.globalSeqNum ∧
      (∀ x ≤ s.globalSeqNum, x ∈ s'.rob.instList → x ∈ s.rob.instList) ∧
      ∀ x ≤ s.globalSeqNum, x ∈ s'.rob.instList → s'.rob.gone x = false →
        s.rob.gone x = false ∧ SameInst x s.rob s'.rob := by
  induction hr with
  | refl => exact ⟨h, Nat.le_refl _, fun _ _ hm => hm, fun x _ _ hg => ⟨hg, .refl x _⟩⟩
  | @step t u e _ _ hs _ ih =>
    obtain ⟨ht, hle, hmem, hsame⟩ := ih
    obtain ⟨w, s₂, s₃, t', s₄, hp⟩ := ht.parts hstt himp hs
    have hglobal : t.globalSeqNum ≤ u.globalSeqNum := by
      rw [hp.eq]
      exact hp.tick.global_le
    refine ⟨ht.cycle hstt himp hs, Nat.le_trans hle hglobal, fun x hx hm => ?_,
      fun x hx hm hg => ?_⟩
    · rw [hp.eq] at hm
      rcases hp.tick.mem hm with hm | ⟨hlt, -⟩
      · exact hmem x hx hm
      · exact absurd hlt (Nat.not_lt.mpr (Nat.le_trans hx hle))
    · obtain ⟨hmt, hgt, hst⟩ := hp.same_cycle (Nat.le_trans hx hle) hm hg
      obtain ⟨hgs, hss⟩ := hsame x hx hmt hgt
      exact ⟨hgs, hss.trans hst⟩

theorem steps_one (h : s.cycle c i = some s') :
    (coreMachine c).StepsWhile (fun _ _ => True) (fun _ => True) s s' :=
  .step (.refl s) trivial h trivial

/-! ## The choices -/

/-- An instruction that commit acts on and that is not squashed is not about to be. -/
theorem Mid.alive (h : Mid c s) (hsq : (s.rob.insts x).squashed = false)
    (ht : s.takesSignal x) : s.rob.gone x = false := by
  have hle := (takesSignal_spec ht).2
  rw [gone, hsq, Bool.false_or, doomed]
  cases hd : s.rob.doneSquashing with
  | true => rfl
  | false =>
    have := (h.squashing hd).2.1
    simp only [Bool.not_false, Bool.true_and, decide_eq_false_iff_not, Nat.not_lt]
    omega

/-! ## The two outcomes -/

/-- A squash started at once, for a branch and for a load. -/
theorem outcome_fromIEW {sig : IewSquash} (hi : Rob.Inv s.rob) (hl : Latched s.rob sig)
    (hr : s.handleSquashSignalFromIEW c sig = some s') :
    s'.outcome =
      if sig.cause = .mispredict then
        ⟨sig.squashedSeqNum, sig.squashedSeqNum, sig.pc, sig.mispredictInst,
          sig.branchTaken || sig.mispredictInst.any fun x =>
            (s.rob.insts x).staticInst.isUncondCtrl,
          s.findInst sig.squashedSeqNum⟩
      else
        ⟨sig.squashedSeqNum - 1, sig.squashedSeqNum - 1, sig.pc, sig.mispredictInst,
          sig.branchTaken || sig.mispredictInst.any fun x =>
            (s.rob.insts x).staticInst.isUncondCtrl,
          s.findInst (sig.squashedSeqNum - 1)⟩ := by
  have hout := startSquash_outcome hi (List.ne_nil_of_mem hl.mem) hr
  split
  · next hc =>
    have hincl : sig.includeSquashInst = false :=
      Bool.eq_false_iff.mpr fun h => hl.incl.mp h hc
    simpa [hincl] using hout
  · next hc =>
    have hincl : sig.includeSquashInst = true := hl.incl.mpr hc
    simpa [hincl] using hout

theorem handleSquashSignalFromROB_kind (hr : s.handleSquashSignalFromROB c x = some s') :
    (s.rob.insts x).staticInst.isControl ∨ (s.rob.insts x).staticInst.isLoad := by
  unfold handleSquashSignalFromROB at hr
  dsimp only at hr
  split at hr
  · cases hr
  · next hkind => simpa [or_iff_not_imp_left] using hkind

theorem outcome_fromROB (hi : Rob.Inv s.rob) (hx : x ∈ s.rob.instList)
    (hr : s.handleSquashSignalFromROB c x = some s') :
    s'.outcome =
      if (s.rob.insts x).staticInst.isControl then
        ⟨x, x, (s.rob.insts x).staticInst.advancePC (s.rob.insts x).status.pc, some x,
          (s.rob.insts x).status.pc.branching || (s.rob.insts x).staticInst.isUncondCtrl,
          s.findInst x⟩
      else ⟨x - 1, x - 1, (s.rob.insts x).status.pc, none, false, s.findInst (x - 1)⟩ := by
  unfold handleSquashSignalFromROB at hr
  dsimp only at hr
  split at hr
  · cases hr
  rename_i hkind
  have hout := startSquash_outcome hi (List.ne_nil_of_mem hx) hr
  split
  · next hc =>
    have hnl : (s.rob.insts x).staticInst.isLoad = false := by
      cases hl : (s.rob.insts x).staticInst.isLoad with
      | false => rfl
      | true =>
        rw [Iew.isControl_of_isLoad hl] at hc
        cases hc
    simpa [hc, hnl] using hout
  · next hc =>
    have hl : (s.rob.insts x).staticInst.isLoad = true := by simpa [hc] using hkind
    simpa [hc, hl] using hout

/-! ## From arrival to the squash -/

/-- Everything a delayed squash depends on. -/
theorem Delayed.facts {sig : IewSquash} {s₀ s₁ t₀ : Core} {j : CycleIn} (hstt : c.stt)
    (himp : c.impChannel) (h : Delayed c sig s₀ i s₂ s₁ s₃ j s₄ t₀ t) :
    Mid c s₂ ∧ Mid c s₄ ∧ Latched s₂.rob sig ∧ Iew.Fits s₂.rob sig ∧
      sig.squashedSeqNum ∈ s₄.rob.instList ∧ SameInst sig.squashedSeqNum s₂.rob s₄.rob ∧
      ∀ n ≤ sig.squashedSeqNum, n ∈ s₄.rob.instList → n ∈ s₂.rob.instList := by
  have hinv₀ := inv_of_reach hstt himp h.reach
  obtain ⟨w, s₂', s₃', t', s₄', hp⟩ := hinv₀.parts hstt himp h.cycle
  -- the state at the choice is the one the cycle went through
  have hs₂ : s₂' = s₂ := by
    have harr := h.arrives
    unfold Core.atChoice at harr
    rw [hp.iew, Option.bind_some, hp.tick.starts] at harr
    exact Option.some.inj harr
  subst hs₂
  have hinv₁ := hinv₀.cycle hstt himp h.cycle
  obtain ⟨hinv₃, hle, hmem, hsame⟩ := hinv₁.same_later hstt himp h.later
  obtain ⟨wj, -, -, hbj⟩ := hinv₃.atChoice h.returns
  have hlatch : Latched s₂'.rob sig :=
    hp.tick.hears sig (delay_spec h.delays).1 (delay_spec h.delays).2
  have hperf := h.performs
  rw [hlatch.inst] at hperf
  obtain ⟨hx₄, hsq₄, ht₄, -⟩ := fromROB_spec hperf
  have hg₄ := hbj.mid.alive hsq₄ ht₄
  obtain ⟨hx₃, hg₃, hsame₄⟩ := hinv₃.same_atChoice h.returns hx₄ hg₄
  -- numbers at or below the instruction's were in use when it was delayed
  have hp₂ : Passes (s₀.afterIew w).rob s₂'.rob := .of_takes hp.tick.before.takes
  have htop : sig.squashedSeqNum ≤ s₀.globalSeqNum :=
    hinv₀.mid.top _ (hp₂.instList ▸ hlatch.mem)
  have hglobal : s₀.globalSeqNum ≤ s₁.globalSeqNum := by
    rw [hp.eq]
    exact hp.tick.global_le
  have hx₁ := Nat.le_trans htop hglobal
  obtain ⟨hg₁, hsame₃⟩ := hsame _ hx₁ hx₃ hg₃
  rw [hp.eq] at hg₁ hsame₃
  have hgs₃' := hp.tick.gone₃ htop ▸ hg₁
  have hg₂ : s₂'.rob.gone sig.squashedSeqNum = false :=
    hp.tick.chosen.passes.not_gone hlatch.mem hgs₃'
  have hsame₁ : SameInst sig.squashedSeqNum s₂'.rob s₄'.rob :=
    .of_eq ((hp.tick.staticInst htop).trans (hp₂.staticInst _).symm)
      ((hp.tick.executed htop).trans (hp₂.executed _).symm)
      ((hp.tick.pc htop).trans (congrArg Status.pc (hp₂.kept _) :).symm)
  refine ⟨hp.tick.before.mid, hbj.mid, hlatch, hlatch.content hg₂, hx₄,
    (hsame₁.trans hsame₃).trans hsame₄, fun n hn hm => ?_⟩
  have hm₃ : n ∈ s₃.rob.instList := hbj.takes.instList ▸ hm
  have hm₁ := hmem n (Nat.le_trans hn hx₁) hm₃
  rw [hp.eq] at hm₁
  rcases hp.tick.mem hm₁ with hm | ⟨hlt, -⟩
  · exact hp₂.instList.symm ▸ hm
  · exact absurd hlt (Nat.not_lt.mpr (Nat.le_trans hn htop))

end Core

/-- A delayed squash has the bound, the redirect PC and the mispredicted branch of the
signal when it arrived, and for a branch its direction; `squashInst` is the instruction it
was, if that is still in the buffer. -/
theorem delayed_squash_same {c : Config} (hstt : c.stt = true) (himp : c.impChannel = true)
    {sig : IewSquash} {s₀ s₁ s₂ s₃ s₄ t₀ t : Core} {i j : CycleIn}
    (h : Core.Delayed c sig s₀ i s₂ s₁ s₃ j s₄ t₀ t) :
    t.outcome.squashedSeqNum = t₀.outcome.squashedSeqNum ∧
      t.outcome.doneSeqNum = t₀.outcome.doneSeqNum ∧ t.outcome.pc = t₀.outcome.pc ∧
      t.outcome.mispredictInst = t₀.outcome.mispredictInst ∧
      (t₀.outcome.mispredictInst ≠ none → t.outcome.branchTaken = t₀.outcome.branchTaken) ∧
      t.outcome.squashInst = t₀.outcome.squashInst.filter fun n => n ∈ s₄.rob.instList := by
  obtain ⟨hm₂, hm₄, hl, hfits, hx₄, hsame, hold⟩ := h.facts hstt himp
  have hmarks := Core.setPending_marks s₄ sig.squashedSeqNum false
  have hafter := h.after
  rw [hl.inst] at hafter
  have hrob : Rob.Inv (s₄.setPending sig.squashedSeqNum false).rob := (hm₄.marks hmarks).rob
  have hout := Core.outcome_fromROB hrob hx₄ hafter
  have hout₀ := Core.outcome_fromIEW hm₂.rob hl h.now
  have hfind : ∀ n ≤ sig.squashedSeqNum, (s₄.setPending sig.squashedSeqNum false).findInst n =
      (s₂.findInst n).filter fun n => n ∈ s₄.rob.instList := by
    intro n hn
    have hlist : (s₄.setPending sig.squashedSeqNum false).rob.instList = s₄.rob.instList := rfl
    rw [Core.findInst_eq, Core.findInst_eq, hlist]
    by_cases hm : n ∈ s₄.rob.instList
    · rw [if_pos hm, if_pos (hold n hn hm), Option.filter_some, if_pos (decide_eq_true hm)]
    rw [if_neg hm]
    split
    · rw [Option.filter_some, if_neg (by simp [hm])]
    · rfl
  have hstat : ((s₄.setPending sig.squashedSeqNum false).rob.insts sig.squashedSeqNum).staticInst =
      (s₂.rob.insts sig.squashedSeqNum).staticInst := (hmarks.staticInst _).trans hsame.staticInst
  have hpc : ((s₄.setPending sig.squashedSeqNum false).rob.insts sig.squashedSeqNum).status.pc =
      (s₄.rob.insts sig.squashedSeqNum).status.pc := (congrArg Status.pc (hmarks.kept _) :)
  by_cases hc : sig.cause = .mispredict
  · obtain ⟨hinst, hsigpc, htaken, hex⟩ := hfits.branch hc
    -- only a branch or a load is looked at again
    have hctl : (s₂.rob.insts sig.squashedSeqNum).staticInst.isControl = true := by
      have hkind := Core.handleSquashSignalFromROB_kind hafter
      rw [hstat] at hkind
      refine hkind.resolve_right fun hload => ?_
      have hmem := (s₂.rob.insts sig.squashedSeqNum).staticInst.load_memRef hload
      rw [DynInst.redirects_memRef (hl.branch hc)] at hmem
      cases hmem
    rw [if_pos (hstat ▸ hctl), hstat, hpc, (hsame.branch hctl (hex hctl)).2] at hout
    rw [if_pos hc, hinst] at hout₀
    rw [hout, hout₀]
    exact ⟨rfl, rfl, hsigpc.symm, rfl, fun _ => by rw [htaken]; rfl, hfind _ (Nat.le_refl _)⟩
  · obtain ⟨hinst, hsigpc⟩ := hfits.load hc
    have hctl := Iew.isControl_of_isLoad (hl.load hc)
    rw [hstat, hctl, if_neg (by simp), hpc, hsame.straight hctl] at hout
    rw [if_neg hc, hinst] at hout₀
    rw [hout, hout₀]
    exact ⟨rfl, rfl, hsigpc.symm, rfl, fun hne => absurd rfl hne, hfind _ (Nat.sub_le _ _)⟩

/-! ## A load that is delayed while the store before it retires -/

/-- Without the Obl-Ld scheme a load commits once it has executed. -/
def lazyConfig : Config := { spectreConfig with enableMLDOM := false }

/-- Behind the violating load `4`, a second branch keeps the argument of a third one
tainted. -/
def delayProgram : List (Nat × DynInst) :=
  let a : RegId := ⟨.intRegClass, 0⟩
  let b : RegId := ⟨.intRegClass, 1⟩
  [(1, renamed branchInst [] []), (2, renamed loadInst [] [⟨a, 40⟩]), (3, renamed storeInst [] []),
    (4, renamed loadInst [⟨a, a, 40, none⟩] []), (5, renamed branchInst [] []),
    (6, renamed loadInst [] [⟨b, 41⟩]), (7, renamed branchInst [⟨b, b, 41, none⟩] [])]

/-- The first load when its value has come. -/
def loadDone : Status where
  dispatched := true
  inLSQ := true
  effAddr := 64
  effSize := 8
  effAddrValid := true
  executed := true

/-- Up to the cycle in which the store finds the violation. -/
def delayRun : List CycleIn :=
  [{ commit := { renamed := delayProgram } }, { dispatched := [1, 2, 3, 4, 5, 6, 7] },
    { execs := [⟨2, .access 64 8⟩, ⟨6, .access 192 8⟩] },
    { lsq := [(2, loadDone)], execs := [⟨4, .access 128 8⟩], completed := [2] },
    { execs := [⟨1, .computed {} false⟩, ⟨3, .access 128 8⟩], completed := [1, 3] }]

/-- The signal arrives; the last branch executes mispredicted, and its signal keeps the
delayed squash waiting for one more cycle. -/
def delayArrives : CycleIn := { execs := [⟨7, .computed { npc := 100 } false⟩] }

def delaySignal : IewSquash where
  squashedSeqNum := 4
  pc := {}
  mispredictInst := none
  instCausingSquash := 4
  branchTaken := false
  includeSquashInst := true
  cause := .memOrder 3

def lazyCycle (s : Core) (i : CycleIn) : Core := (s.cycle lazyConfig i).getD emptyCore

theorem lazyCycle_eq {s : Core} {i : CycleIn} (h : (s.cycle lazyConfig i).isSome) :
    s.cycle lazyConfig i = some (lazyCycle s i) :=
  Machine.eq_some_getD h

def lazyChoice (s : Core) (i : CycleIn) : Core := (s.atChoice lazyConfig i).getD emptyCore

def delayStart : Core := ((coreMachine lazyConfig).run emptyCore delayRun).getD emptyCore

/-- In the cycle between the branch and what is older than the load retire. -/
def delayEnd : Core := lazyCycle (lazyCycle delayStart delayArrives) {}

theorem delayEnd_eq : (lazyCycle delayStart delayArrives).cycle lazyConfig {} = some delayEnd :=
  lazyCycle_eq (by decide +kernel)

def delayNow : Core :=
  ((lazyChoice delayStart delayArrives).handleSquashSignalFromIEW lazyConfig delaySignal).getD
  emptyCore

def delayThen : Core :=
  ((lazyChoice delayEnd {}).applyChoice lazyConfig (.fromROB 4)).getD emptyCore

theorem delayRun_delayed : Core.Delayed lazyConfig delaySignal delayStart delayArrives
    (lazyChoice delayStart delayArrives) (lazyCycle delayStart delayArrives) delayEnd {}
    (lazyChoice delayEnd {}) delayNow delayThen where
  reach := Machine.reach_run emptyCore_start (Machine.run_getD (by decide +kernel))
  arrives := Machine.eq_some_getD (by decide +kernel)
  delays := by decide +kernel
  cycle := lazyCycle_eq (by decide +kernel)
  later := Core.steps_one delayEnd_eq
  returns := Machine.eq_some_getD (by decide +kernel)
  performs := by decide +kernel
  now := Machine.eq_some_getD (by decide +kernel)
  after := Machine.eq_some_getD (by decide +kernel)

/-- The delayed squash of the load has the bound and the PC it would have had. -/
theorem delayed_squash_same_load :
    delayThen.outcome.squashedSeqNum = delayNow.outcome.squashedSeqNum ∧
      delayThen.outcome.doneSeqNum = delayNow.outcome.doneSeqNum ∧
      delayThen.outcome.pc = delayNow.outcome.pc :=
  have h := delayed_squash_same (c := lazyConfig) rfl rfl delayRun_delayed
  ⟨h.1, h.2.1, h.2.2.1⟩

/-- When the squash is performed the store before the load has retired: it is no longer
found, and fetch is told of no instruction. -/
theorem delayed_squash_differs :
    ¬ ∀ (c : Config) (sig : IewSquash) (s₀ s₁ s₂ s₃ s₄ t₀ t : Core) (i j : CycleIn),
      c.stt = true → c.impChannel = true → Core.Delayed c sig s₀ i s₂ s₁ s₃ j s₄ t₀ t →
        t.outcome = t₀.outcome := by
  intro h
  have heq := h lazyConfig _ _ _ _ _ _ _ _ _ _ rfl rfl delayRun_delayed
  have hnow : delayNow.outcome.squashInst = some 3 := by decide +kernel
  have hthen : delayThen.outcome.squashInst = none := by decide +kernel
  rw [heq, hnow] at hthen
  cases hthen

end SdoCore
