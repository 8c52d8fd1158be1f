import SdoCore.Pipeline.Arbitration
import SdoCore.TaintMono

/-! The invariant of commit, up to its choice about squashes.

`Mid` holds throughout the tick of commit: the buffer is well formed, sequence numbers
only grow, a squash in progress leaves nothing alive beyond `youngestSeqNum`, and taint is
closed. What happens before the choice is described by `Before`, and the choice itself by
`Chosen`: nothing, a signal that is put off, or a squash that starts, for a signal or for
one that was put off. -/

namespace SdoCore

open List
open Rob
open Option (map_eq_some_iff)

namespace Core

structure Mid (c : Config) (s : Core) : Prop where
  rob : Rob.Inv s.rob
  last : ∀ x ∈ s.rob.instList, s.lastCommitedSeqNum < x
  top : ∀ x ∈ s.rob.instList, x ≤ s.globalSeqNum
  lastTop : s.lastCommitedSeqNum ≤ s.globalSeqNum
  youngTop : s.youngestSeqNum ≤ s.globalSeqNum
  young : ∀ x ∈ s.rob.instList, s.rob.gone x = false → x ≤ s.youngestSeqNum
  squashing : s.rob.doneSquashing = false → s.rob.instList ≠ [] ∧
    s.youngestSeqNum ≤ s.rob.squashedSeqNum ∧ s.status = .ROBSquashing
  straight : ∀ x ∈ s.rob.instList, (s.rob.insts x).redirects = false →
    (s.rob.insts x).mispredicted = false
  settled : ∀ x ∈ s.rob.instList, Settled c (s.rob.insts x)
  taint : TaintClosed s.rob
  squash : s.toIEW.squash = true → s.status = .ROBSquashing ∧
    s.youngestSeqNum ≤ s.toIEW.doneSeqNum ∧
    ∀ x ∈ s.rob.instList, s.toIEW.doneSeqNum < x → s.rob.gone x = true
  queues : ∀ x ∈ s.rob.instList, s.rob.gone x = true → (s.rob.insts x).status.inLSQ = true →
    s.toIEW.squash = true ∧ s.toIEW.doneSeqNum < x

variable {c : Config} {s s' : Core}

/-- While the buffer is not being squashed, what is not squashed stays. -/
theorem Mid.done (h : Mid c s) (hs : s.status ≠ .ROBSquashing) : s.rob.doneSquashing := by
  cases hd : s.rob.doneSquashing with
  | true => rfl
  | false => exact absurd (h.squashing hd).2.2 hs

theorem Mid.gone_eq (h : Mid c s) (hs : s.status ≠ .ROBSquashing) (x : Nat) :
    s.rob.gone x = (s.rob.insts x).squashed := by
  rw [gone, doomed, h.done hs]
  simp

/-- The visibility flags are among what is fixed. -/
theorem settled_of_fixed {i j : DynInst} (h : j.fixed = i.fixed) (hs : Settled c i) :
    Settled c j :=
  (congrArg (Settled c) h).mpr hs

/-! ## Squashes -/

variable {r : Rob} {n x : Nat} {sig : IewSquash}

theorem Mid.takes (h : Mid c s) (ht : Takes s.rob r) :
    (∀ x ∈ r.instList, s.lastCommitedSeqNum < x) ∧ (∀ x ∈ r.instList, x ≤ s.globalSeqNum) ∧
      (∀ x ∈ r.instList, (r.insts x).redirects = false → (r.insts x).mispredicted = false) ∧
      (∀ x ∈ r.instList, Settled c (r.insts x)) ∧ TaintClosed r := by
  have hl := ht.instList
  refine ⟨fun x hx => h.last x (hl ▸ hx), fun x hx => h.top x (hl ▸ hx), fun x hx hc => ?_,
    fun x hx => ?_, h.taint.frame h.rob (.of_fixed hl ht.fixed)⟩
  · rw [ht.mispredicted]
    exact h.straight x (hl ▸ hx) ((congrArg DynInst.redirects (ht.fixed x) :).symm.trans hc)
  · exact settled_of_fixed (ht.fixed x) (h.settled x (hl ▸ hx))

/-- Starting a squash of everything younger than `n`, when everything up to `k ≤ n` is to
stay. -/
theorem Mid.startSquash {k : Nat} {x : Option Nat} {info : CommitInfo} (h : Mid c s) (hkn : k ≤ n)
    (htop : k ≤ s.globalSeqNum)
    (hk : ∀ x ∈ s.rob.instList, x ≤ k ∨ n < x)
    (hdoom : ∀ x ∈ s.rob.instList, s.rob.doomed x → n < x)
    (hlsq : ∀ x ∈ s.rob.instList, s.rob.gone x → (s.rob.insts x).status.inLSQ → n < x)
    (hr : Core.startSquash c { s with youngestSeqNum := k } n x info = some s') :
    Mid c s' ∧ Takes s.rob s'.rob ∧ ∀ y ∈ s.rob.instList, n < y → s'.rob.gone y := by
  obtain ⟨r, hsq, rfl⟩ := map_eq_some_iff.mp hr
  have ht : Takes s.rob r := h.rob.squash_takes hsq hdoom
  have hgone : ∀ y ∈ s.rob.instList, n < y → r.gone y = true := fun y hy => h.rob.squash_gone hsq hy
  obtain ⟨hlast, hnums, hstr, hset, htaint⟩ := h.takes ht
  refine ⟨⟨(h.rob.squash hsq).1, hlast, hnums, h.lastTop, htop, ?_, ?_, hstr, hset, htaint, ?_, ?_⟩,
    ht, hgone⟩
  · intro y hy hg
    rw [ht.instList] at hy
    rcases hk y hy with hle | hlt
    · exact hle
    · rw [hgone y hy hlt] at hg
      cases hg
  · intro hd
    have hne : s.rob.instList ≠ [] := by
      intro hnil
      rcases squash_cases hsq with ⟨-, rfl⟩ | ⟨t, hlast, -⟩
      · exact (h.squashing hd).1 hnil
      · rw [hnil] at hlast
        cases hlast
    refine ⟨fun hnil => hne (ht.instList.symm.trans hnil), ?_, rfl⟩
    rw [squash_bound hsq hne]
    exact hkn
  · intro _
    exact ⟨rfl, hkn, fun y hy hlt => hgone y (ht.instList ▸ hy) hlt⟩
  intro y hy hg hl
  have hyl : y ∈ s.rob.instList := ht.instList ▸ hy
  refine ⟨rfl, ?_⟩
  rcases squash_gone_only hsq hg with hold | hlt
  · have hin : (r.insts y).status.inLSQ = (s.rob.insts y).status.inLSQ :=
      (congrArg Status.inLSQ (ht.kept y) :)
    exact hlsq y hyl hold (hin ▸ hl)
  · exact hlt

/-- The invariant does not read these fields. -/
theorem Mid.congr (h : Mid c s) (heq : s' = { s with
      pc := s'.pc, trapSquash := s'.trapSquash, tcSquash := s'.tcSquash
      trapInFlight := s'.trapInFlight, squashAfterInst := s'.squashAfterInst
      fromIEW := s'.fromIEW, memDepViolator := s'.memDepViolator
      oblsMissInst := s'.oblsMissInst, notInROB := s'.notInROB, hist := s'.hist }) :
    Mid c s' := by
  rw [heq]
  exact { h with }

/-- What commit leaves alone up to its choice, and in it unless it puts a squash off. -/
structure Keeps (s s' : Core) : Prop where
  fromIEW : s'.fromIEW = s.fromIEW
  pendingFor : s'.hist.pendingFor = s.hist.pendingFor
  violator : s'.memDepViolator = s.memDepViolator
  miss : s'.oblsMissInst = s.oblsMissInst
  global : s'.globalSeqNum = s.globalSeqNum
  notInROB : s'.notInROB = s.notInROB

/-- What a squash that commit starts itself is a squash of: everything. -/
structure SquashesAll (c : Config) (s s' : Core) : Prop extends Keeps s s' where
  mid : Mid c s'
  takes : Takes s.rob s'.rob
  all : ∀ x ∈ s.rob.instList, s'.rob.gone x = true
  status : s'.status = .ROBSquashing
  youngest : s'.youngestSeqNum = s.lastCommitedSeqNum
  last : s'.lastCommitedSeqNum = s.lastCommitedSeqNum
  seen : ∀ x, s.hist.squashSeen x = true → s'.hist.squashSeen x = true
  debt : s'.hist.debt = s.hist.debt
  sent : s'.toIEW.squash = true ∧ s'.toIEW.doneSeqNum = s.allBound

theorem Mid.allBound_spec (h : Mid c s) :
    s.lastCommitedSeqNum ≤ s.allBound ∧ ∀ x ∈ s.rob.instList, s.allBound < x := by
  have hlast := h.last
  have hsorted := h.rob.sorted
  unfold allBound
  split
  · next hl =>
    rw [hl]
    exact ⟨Nat.le_refl _, fun x hx => by cases hx⟩
  · next y rest hl =>
    rw [hl] at hlast hsorted ⊢
    have hy := hlast y (by simp)
    refine ⟨by omega, fun x hx => ?_⟩
    rcases mem_cons.mp hx with rfl | hx
    · omega
    · have := (pairwise_cons.mp hsorted).1 x hx
      omega

theorem Mid.squashAll {inst : Option Nat} (h : Mid c s) (hr : s.squashAll c inst = some s') :
    SquashesAll c s s' := by
  obtain ⟨hlast, hall⟩ := h.allBound_spec
  obtain ⟨hmid, htakes, hgone⟩ := h.startSquash hlast h.lastTop (fun x hx => .inr (hall x hx))
    (fun x hx _ => hall x hx) (fun x hx _ _ => hall x hx) hr
  obtain ⟨r, -, rfl⟩ := map_eq_some_iff.mp hr
  refine ⟨⟨rfl, rfl, rfl, rfl, rfl, rfl⟩, hmid, htakes, fun x hx => hgone x hx (hall x hx), rfl,
    rfl, rfl, fun x hx => ?_, ?_, rfl, rfl⟩
  · change (decide (s.allBound ≤ x) || s.hist.squashSeen x) = true
    rw [hx, Bool.or_true]
  · funext y
    simp

theorem Mid.ownSquash (h : Mid c s) (hr : s.ownSquash c = some s') :
    s' = s ∧ s.trapSquash = false ∨ SquashesAll c s s' := by
  have hlift : ∀ {t : Core} {a b d : Bool} {e : Option Nat}, SquashesAll c s t →
      SquashesAll c s { t with
        trapInFlight := a, trapSquash := b, tcSquash := d, squashAfterInst := e } :=
    fun ht => { ht with mid := ht.mid.congr rfl }
  unfold Core.ownSquash at hr
  split at hr
  · split at hr
    · cases hr
    · obtain ⟨t, ht, rfl⟩ := map_eq_some_iff.mp hr
      exact .inr (hlift (h.squashAll ht))
  · next htrap =>
    split at hr
    · split at hr
      · cases hr
      unfold squashFromTC at hr
      split at hr
      · cases hr
      · obtain ⟨t, ht, rfl⟩ := map_eq_some_iff.mp hr
        exact .inr (hlift (h.squashAll ht))
    · split at hr
      · obtain ⟨t, ht, rfl⟩ := map_eq_some_iff.mp hr
        exact .inr (hlift (h.squashAll ht))
      cases hr
      exact .inl ⟨rfl, by simpa using htrap⟩

/-- Going on with a squash, or noticing that it is over. -/
theorem Mid.continueSquash (h : Mid c s) (hto : s.toIEW.squash = false)
    (hr : s.continueSquash c = some s') :
    Mid c s' ∧ (s' = s ∧ s.status ≠ .ROBSquashing ∨
      s.status = .ROBSquashing ∧ s' = { s with status := .Running } ∧ s.rob.doneSquashing ∨
      s.rob.doneSquashing = false ∧ Takes s.rob s'.rob ∧
        s'.rob.squashedSeqNum = s.rob.squashedSeqNum ∧
        s' = { s with rob := s'.rob, toIEW := s'.toIEW }) := by
  unfold Core.continueSquash at hr
  split at hr
  · next hst =>
    split at hr
    · next hd =>
      cases hr
      refine ⟨{ h with squashing := fun hn => ?_, squash := fun hn => ?_ },
        .inr (.inl ⟨hst, rfl, hd⟩)⟩
      · rw [hd] at hn
        cases hn
      · rw [hto] at hn
        cases hn
    · next hd =>
      obtain ⟨r, hdo, rfl⟩ := map_eq_some_iff.mp hr
      have hd : s.rob.doneSquashing = false := by simpa using hd
      have ht : Takes s.rob r := h.rob.doSquash_takes hd hdo
      obtain ⟨hlast, htop, hstr, hset, htaint⟩ := h.takes ht
      obtain ⟨hne, hbound, -⟩ := h.squashing hd
      refine ⟨⟨(h.rob.doSquash hdo).1, hlast, htop, h.lastTop, h.youngTop, fun x hx hg => ?_,
        fun _ => ?_, hstr, hset, htaint, fun hsq => ?_, fun x hx hg hl => ?_⟩,
        .inr (.inr ⟨hd, ht, doSquash_bound hdo, rfl⟩)⟩
      · exact h.young x (ht.instList ▸ hx) (ht.not_gone (ht.instList ▸ hx) hg)
      · exact ⟨fun hnil => hne (ht.instList.symm.trans hnil), (doSquash_bound hdo).symm ▸ hbound,
          hst⟩
      · obtain ⟨h1, h2, h3⟩ := h.squash hsq
        exact ⟨h1, h2, fun x hx hlt => ht.gone x (ht.instList ▸ hx) (h3 x (ht.instList ▸ hx) hlt)⟩
      have hin : (r.insts x).status.inLSQ = (s.rob.insts x).status.inLSQ :=
        (congrArg Status.inLSQ (ht.kept x) :)
      exact h.queues x (ht.instList ▸ hx) (doSquash_gone_only hd hdo hg) (hin ▸ hl)
  · next hst =>
    cases hr
    exact ⟨h, .inl ⟨rfl, hst⟩⟩

/-- Left out of the buffer, and younger than all of it: commit still waits for the trap, or
it has sent the squash of everything. -/
structure LeftOut (s : Core) (x : Nat) : Prop where
  old : ∀ y ∈ s.rob.instList, y < x
  last : s.lastCommitedSeqNum < x
  young : s.youngestSeqNum < x
  top : x ≤ s.globalSeqNum
  state : s.status = .TrapPending ∧ (s.rob.insts x).squashed = false ∧
      ((s.rob.insts x).redirects = false → (s.rob.insts x).mispredicted = false) ∨
    s.status = .ROBSquashing ∧ s.youngestSeqNum ≤ s.lastCommitedSeqNum ∧
      s.toIEW.squash = true ∧ s.toIEW.doneSeqNum < x

theorem SquashesAll.leftOut (h : SquashesAll c s s') (hold : ∀ y ∈ s.rob.instList, y < x)
    (hlast : s.lastCommitedSeqNum < x) (htop : x ≤ s.globalSeqNum) : LeftOut s' x where
  old y hy := hold y (h.takes.instList ▸ hy)
  last := h.last ▸ hlast
  young := h.youngest ▸ hlast
  top := h.global ▸ htop
  state := by
    refine .inr ⟨h.status, Nat.le_of_eq (h.youngest.trans h.last.symm), h.sent.1, ?_⟩
    rw [h.sent.2, allBound]
    split
    · exact hlast
    · next y _ hl =>
      have := hold y (by rw [hl]; simp)
      omega

/-- The tick of commit up to its choice: nothing, a step of squashing, or a squash of
everything. -/
structure Before (c : Config) (i : CommitIn) (s s' : Core) : Prop extends Keeps s s' where
  mid : Mid c s'
  takes : Takes s.rob s'.rob
  bound : s'.rob.squashedSeqNum = s.rob.squashedSeqNum ∧ s'.youngestSeqNum = s.youngestSeqNum ∨
    ∀ x ∈ s.rob.instList, s'.rob.gone x = true
  still : s'.status ≠ .ROBSquashing → s'.rob = s.rob
  trap : s'.status = .TrapPending →
    s.status = .TrapPending ∧ s.trapSquash = false ∧ i.trapEvent = false
  trapped : s.status = .TrapPending → s'.status = .TrapPending ∨
    ∀ x ∈ s.rob.instList, s'.rob.gone x = true
  busy : s.rob.doneSquashing = false → s'.status = .ROBSquashing
  seen : ∀ x, s.hist.squashSeen x = true → s'.hist.squashSeen x = true
  debt : s'.hist.debt = s.hist.debt
  youngest : s'.youngestSeqNum = s.youngestSeqNum ∨ s'.youngestSeqNum = s.lastCommitedSeqNum
  left : ∀ x, s.status = .TrapPending → LeftOut s x → LeftOut s' x

theorem Before.of_continue {i : CommitIn} {s₁ : Core} (hmid : Mid c s') (hs₁ : s₁ = { s with
      trapSquash := s.trapSquash || i.trapEvent, tcSquash := s.tcSquash || i.tcEvent, toIEW := {} })
    (hcase : s' = s₁ ∧ s₁.status ≠ .ROBSquashing ∨
      s₁.status = .ROBSquashing ∧ s' = { s₁ with status := .Running } ∧ s₁.rob.doneSquashing ∨
      s₁.rob.doneSquashing = false ∧ Takes s₁.rob s'.rob ∧
        s'.rob.squashedSeqNum = s₁.rob.squashedSeqNum ∧
        s' = { s₁ with rob := s'.rob, toIEW := s'.toIEW })
    (hstat : s₁.rob.doneSquashing = false → s₁.status = .ROBSquashing)
    (htrap : s'.trapSquash = false) : Before c i s s' := by
  rcases hcase with ⟨rfl, -⟩ | ⟨hst, rfl, hdone⟩ | ⟨hd, htakes, hbound, heq⟩
  · subst hs₁
    have hor : (s.trapSquash || i.trapEvent) = false := htrap
    refine ⟨⟨rfl, rfl, rfl, rfl, rfl, rfl⟩, hmid, .refl _, .inl ⟨rfl, rfl⟩, fun _ => rfl,
      fun ht => ⟨ht, Bool.or_eq_false_iff.mp hor⟩, fun ht => .inl ht, hstat, fun _ h => h,
      rfl, .inl rfl, fun x ht hx => ?_⟩
    refine { hx with state := .inl (hx.state.resolve_right fun hsq => ?_) }
    rw [hsq.1] at ht
    cases ht
  · subst hs₁
    have hne : s.status ≠ .TrapPending := fun ht => by rw [ht] at hst; cases hst
    refine ⟨⟨rfl, rfl, rfl, rfl, rfl, rfl⟩, hmid, .refl _, .inl ⟨rfl, rfl⟩, fun _ => rfl, nofun,
      fun ht => absurd ht hne, fun hd => ?_, fun _ h => h, rfl, .inl rfl,
      fun _ ht => absurd ht hne⟩
    rw [hdone] at hd
    cases hd
  · have hst := hstat hd
    rw [heq] at hmid ⊢
    subst hs₁
    have hne : s.status ≠ .TrapPending := fun ht => by rw [ht] at hst; cases hst
    exact ⟨⟨rfl, rfl, rfl, rfl, rfl, rfl⟩, hmid, htakes, .inl ⟨hbound, rfl⟩,
      fun hn => absurd hst hn, fun ht => absurd ht hne, fun ht => absurd ht hne, fun _ => hst,
      fun _ h => h, rfl, .inl rfl, fun _ ht => absurd ht hne⟩

theorem Mid.beforeChoice {i : CommitIn} (h : Mid c { s with toIEW := {} })
    (hr : s.beforeChoice c i = some s') : Before c i s s' := by
  obtain ⟨s₁, hr₁, hr⟩ := Option.bind_eq_some_iff.mp hr
  obtain ⟨s₂, hr₂, hr₃⟩ := Option.bind_eq_some_iff.mp hr
  unfold commitEvents at hr₁
  split at hr₁
  · cases hr₁
  · cases hr₁
    generalize hs₁ : ({ s with
      trapSquash := s.trapSquash || i.trapEvent, tcSquash := s.tcSquash || i.tcEvent,
      toIEW := {} } : Core) = s₁ at hr₂
    have h₁ : Mid c s₁ := by
      subst hs₁
      exact h.congr rfl
    have hto : s₁.toIEW.squash = false := by rw [← hs₁]
    obtain ⟨h₂, hcase⟩ := h₁.continueSquash hto hr₂
    rcases h₂.ownSquash hr₃ with ⟨rfl, htrap⟩ | hall
    · exact .of_continue h₂ hs₁.symm hcase (fun hd => (h₁.squashing hd).2.2) htrap
    · -- everything is squashed, whatever went before
      have hsame : Takes s.rob s₂.rob ∧ s₂ = { s with
          rob := s₂.rob, status := s₂.status, toIEW := s₂.toIEW, trapSquash := s₂.trapSquash,
          tcSquash := s₂.tcSquash } := by
        subst hs₁
        rcases hcase with ⟨rfl, -⟩ | ⟨-, rfl, -⟩ | ⟨-, htakes, -, heq⟩
        · exact ⟨.refl _, rfl⟩
        · exact ⟨.refl _, rfl⟩
        · exact ⟨htakes, by rw [heq]⟩
      obtain ⟨htakes, heq⟩ := hsame
      have hl := htakes.instList
      rw [heq] at hall
      have hgone : ∀ x ∈ s.rob.instList, s'.rob.gone x = true := fun x hx => hall.all x (hl ▸ hx)
      refine ⟨{ hall.toKeeps with }, hall.mid, htakes.trans hall.takes, .inr hgone,
        fun hn => absurd hall.status hn, fun ht => ?_, fun _ => .inr hgone, fun _ => hall.status,
        hall.seen, hall.debt, .inr hall.youngest,
        fun x _ hx => hall.leftOut (fun y hy => hx.old y (hl ▸ hy)) hx.last hx.top⟩
      rw [hall.status] at ht
      cases ht

/-- The buffer changes, and keeps its members and what is squashed. -/
theorem Mid.reshape {g : Nat} {l : List Nat} (h : Mid c s) (hr : Rob.Inv r)
    (hl : r.instList = s.rob.instList) (hdone : r.doneSquashing = s.rob.doneSquashing)
    (hbound : r.squashedSeqNum = s.rob.squashedSeqNum) (hg : s.globalSeqNum ≤ g)
    (hgone : ∀ x ∈ s.rob.instList, r.gone x = s.rob.gone x)
    (hlsq : ∀ x ∈ s.rob.instList, (r.insts x).status.inLSQ = (s.rob.insts x).status.inLSQ)
    (hstr : ∀ x ∈ s.rob.instList, (r.insts x).redirects = false → (r.insts x).mispredicted = false)
    (hset : ∀ x ∈ s.rob.instList, Settled c (r.insts x)) (ht : TaintClosed r) :
    Mid c { s with rob := r, globalSeqNum := g, notInROB := l } where
  rob := hr
  last x hx := h.last x (hl ▸ hx)
  top x hx := Nat.le_trans (h.top x (hl ▸ hx)) hg
  lastTop := Nat.le_trans h.lastTop hg
  youngTop := Nat.le_trans h.youngTop hg
  young x hx hx' := h.young x (hl ▸ hx) (hgone x (hl ▸ hx) ▸ hx')
  squashing hd := by
    obtain ⟨h1, h2, h3⟩ := h.squashing (hdone ▸ hd)
    exact ⟨fun hnil => h1 (hl.symm.trans hnil), hbound.symm ▸ h2, h3⟩
  straight x hx := hstr x (hl ▸ hx)
  settled x hx := hset x (hl ▸ hx)
  taint := ht
  squash hsq := by
    obtain ⟨h1, h2, h3⟩ := h.squash hsq
    exact ⟨h1, h2, fun x hx hlt => (hgone x (hl ▸ hx)).trans (h3 x (hl ▸ hx) hlt)⟩
  queues x hx hx' hq := by
    have hx := hl ▸ hx
    exact h.queues x hx (hgone x hx ▸ hx') (hlsq x hx ▸ hq)

/-! ## Marks -/

/-- Only the marks `canCommit` and `hasPendingSquash` of some instructions change. -/
structure Marks (r r' : Rob) : Prop where
  instList : r'.instList = r.instList
  squashIt : r'.squashIt = r.squashIt
  squashedSeqNum : r'.squashedSeqNum = r.squashedSeqNum
  doneSquashing : r'.doneSquashing = r.doneSquashing
  fixed : ∀ x, (r'.insts x).fixed = (r.insts x).fixed
  squashed : ∀ x, (r'.insts x).squashed = (r.insts x).squashed
  kept : ∀ x, (r'.insts x).status.kept = (r.insts x).status.kept

section
variable {r r' r'' : Rob}

theorem Marks.refl (r : Rob) : Marks r r :=
  ⟨rfl, rfl, rfl, rfl, fun _ => rfl, fun _ => rfl, fun _ => rfl⟩

theorem Marks.trans (h : Marks r r') (h' : Marks r' r'') : Marks r r'' :=
  ⟨h'.instList.trans h.instList, h'.squashIt.trans h.squashIt,
    h'.squashedSeqNum.trans h.squashedSeqNum, h'.doneSquashing.trans h.doneSquashing,
    fun x => (h'.fixed x).trans (h.fixed x), fun x => (h'.squashed x).trans (h.squashed x),
    fun x => (h'.kept x).trans (h.kept x)⟩

theorem marks_modify (r : Rob) (x : Nat) {f : Status → Status} (hf : ∀ st, (f st).kept = st.kept) :
    Marks r (r.modify x fun i => { i with status := f i.status }) := by
  refine ⟨rfl, rfl, rfl, rfl, fun y => ?_, fun y => ?_, fun y => ?_⟩
  · by_cases hy : y = x
    · subst hy
      simp [Rob.modify, DynInst.fixed]
    · simp [Rob.modify, hy]
  · by_cases hy : y = x
    · subst hy
      simp [Rob.modify]
    · simp [Rob.modify, hy]
  · by_cases hy : y = x
    · subst hy
      simp [Rob.modify, hf]
    · simp [Rob.modify, hy]

section
variable (h : Marks r r') (x : Nat)
include h

theorem Marks.staticInst : (r'.insts x).staticInst = (r.insts x).staticInst :=
  (congrArg DynInst.staticInst (h.fixed x) :)

theorem Marks.pc : (r'.insts x).status.pc = (r.insts x).status.pc :=
  (congrArg Status.pc (h.kept x) :)

theorem Marks.mispredicted : (r'.insts x).mispredicted = (r.insts x).mispredicted := by
  have hpred : (r'.insts x).predPC = (r.insts x).predPC := (congrArg DynInst.predPC (h.fixed x) :)
  unfold DynInst.mispredicted
  rw [h.pc, hpred, h.staticInst]

theorem Marks.gone : r'.gone x = r.gone x := by
  rw [Rob.gone, Rob.gone, doomed, doomed, h.squashed, h.doneSquashing, h.squashedSeqNum]

end

theorem Marks.sameShape (h : Marks r r') : SameShape r r' := by
  refine { h with shape := fun x => ?_ }
  have hf := h.fixed x
  unfold DynInst.shape
  rw [h.squashed, h.staticInst,
    show (r'.insts x).srcs = (r.insts x).srcs from (congrArg DynInst.srcs hf :),
    show (r'.insts x).dests = (r.insts x).dests from (congrArg DynInst.dests hf :),
    show (r'.insts x).committed = (r.insts x).committed from (congrArg DynInst.committed hf :)]

end

theorem Mid.marks (h : Mid c s) (hm : Marks s.rob r) : Mid c { s with rob := r } := by
  refine h.reshape (h.rob.sameShape hm.sameShape) hm.instList hm.doneSquashing hm.squashedSeqNum
    (Nat.le_refl _) (fun x _ => hm.gone x) (fun x _ => (congrArg Status.inLSQ (hm.kept x) :))
    (fun x hx hc => ?_) (fun x hx => settled_of_fixed (hm.fixed x) (h.settled x hx))
    (h.taint.frame h.rob (.of_fixed hm.instList hm.fixed))
  rw [hm.mispredicted]
  exact h.straight x hx ((congrArg DynInst.redirects (hm.fixed x) :).symm.trans hc)

/-! ## The choice -/

/-- A signal of IEW that commit sees. -/
structure Latched (r : Rob) (sig : IewSquash) : Prop where
  mem : sig.squashedSeqNum ∈ r.instList
  inst : sig.instCausingSquash = sig.squashedSeqNum
  incl : sig.includeSquashInst = true ↔ sig.cause ≠ .mispredict
  branch : sig.cause = .mispredict → (r.insts sig.squashedSeqNum).redirects = true
  load : sig.cause ≠ .mispredict → (r.insts sig.squashedSeqNum).staticInst.isLoad = true
  fresh : (r.insts sig.squashedSeqNum).staticInst.isControl = true →
    r.gone sig.squashedSeqNum = false → (r.insts sig.squashedSeqNum).status.canCommit = false
  content : r.gone sig.squashedSeqNum = false → Iew.Fits r sig
  own : ∀ y, sig.mispredictInst = some y → y = sig.squashedSeqNum ∧ sig.cause = .mispredict

theorem Latched.takes {r' : Rob} (h : Latched r sig) (ht : Takes r r') :
    Latched r' sig where
  __ := h
  mem := ht.instList ▸ h.mem
  branch hb := (congrArg DynInst.redirects (ht.fixed _) :).trans (h.branch hb)
  load hl := ht.staticInst _ ▸ h.load hl
  fresh hc hg := by
    rw [ht.insts hg]
    exact h.fresh (ht.staticInst _ ▸ hc) (ht.not_gone h.mem hg)
  content hg := by
    have hf := h.content (ht.not_gone h.mem hg)
    have he := ht.insts hg
    exact ⟨by rw [he]; exact hf.branch, by rw [he]; exact hf.load⟩

/-- The squash of everything younger than `n` starts, for the instruction `x`; `r` is the
buffer before it. -/
structure Starts (c : Config) (s : Core) (r : Rob) (s' : Core) (n x : Nat) : Prop
    extends Keeps s s' where
  mid : Mid c s'
  takes : Takes r s'.rob
  gone : ∀ y ∈ s.rob.instList, n < y → s'.rob.gone y = true
  bound : s'.rob.squashedSeqNum = n
  youngest : s'.youngestSeqNum = n
  status : s'.status = .ROBSquashing
  seen : ∀ y, s'.hist.squashSeen y = (decide (n ≤ y) || s.hist.squashSeen y)
  debt : ∀ y, s'.hist.debt y =
    if some x = some y ∧ s.hist.debt y = .owed then .serving else s.hist.debt y

/-- A squash for an instruction of the buffer that is not beyond the youngest one. -/
theorem Mid.starts {info : CommitInfo} {g : Core → Option Nat} (h : Mid c s)
    (hx : x ∈ s.rob.instList) (hyoung : x ≤ s.youngestSeqNum) (hn : n ≤ x)
    (hr : (Core.startSquash c { s with youngestSeqNum := n } n (some x) info).map
      (fun t => { t with toIEW := { t.toIEW with squashInst := g t } }) = some s') :
    Starts c s s.rob s' n x := by
  have hdoom : ∀ y ∈ s.rob.instList, s.rob.doomed y = true → n < y := by
    intro y hy hd
    simp only [doomed, Bool.and_eq_true, Bool.not_eq_true', decide_eq_true_eq] at hd
    have := (h.squashing hd.1).2.1
    omega
  have hlsq : ∀ y ∈ s.rob.instList, s.rob.gone y = true →
      (s.rob.insts y).status.inLSQ = true → n < y := by
    intro y hy hg hl
    obtain ⟨hto, hlt⟩ := h.queues y hy hg hl
    have := (h.squash hto).2.1
    omega
  obtain ⟨t, ht, hs'⟩ := map_eq_some_iff.mp hr
  obtain ⟨hmid, htakes, hgone⟩ := h.startSquash (Nat.le_refl n) (Nat.le_trans hn (h.top x hx))
    (fun y _ => (Nat.lt_or_ge n y).symm) hdoom hlsq ht
  obtain ⟨r, hsq, rfl⟩ := map_eq_some_iff.mp ht
  subst hs'
  exact ⟨⟨rfl, rfl, rfl, rfl, rfl, rfl⟩, { hmid with }, htakes, hgone,
    squash_bound hsq (ne_nil_of_mem hx), rfl, rfl, fun _ => rfl, fun _ => rfl⟩

/-- No signal that commit would act on. -/
def NoSignal (s : Core) : Prop :=
  ∀ sig, s.fromIEW.squash = some sig → s.takesSignal sig.squashedSeqNum = false

/-- What the lazy scheme can do. -/
inductive Chosen (c : Config) (s s' : Core) : Prop
  | nothing : s.NoSignal → s' = s → Chosen c s s'
  | delay (sig : IewSquash) : s.fromIEW.squash = some sig →
      s.takesSignal sig.squashedSeqNum = true →
      (s.rob.insts sig.squashedSeqNum).isArgsTainted = true →
      s' = { s.setPending sig.squashedSeqNum true with hist := s'.hist } →
      s'.hist.squashSeen = s.hist.squashSeen → s'.hist.debt = s.hist.debt →
      s'.hist.pendingFor = Function.update s.hist.pendingFor sig.squashedSeqNum
        (sig.cause :: s.hist.pendingFor sig.squashedSeqNum) → Chosen c s s'
  | fromIEW (sig : IewSquash) : s.fromIEW.squash = some sig →
      s.takesSignal sig.squashedSeqNum = true →
      (s.rob.insts sig.squashedSeqNum).isArgsTainted = false →
      Starts c s s.rob s'
        (if sig.cause = .mispredict then sig.squashedSeqNum else sig.squashedSeqNum - 1)
        sig.squashedSeqNum → Chosen c s s'
  | fromROB (x : Nat) : s.NoSignal → x ∈ s.rob.instList →
      (s.rob.insts x).status.hasPendingSquash = true → (s.rob.insts x).isArgsTainted = false →
      (s.rob.insts x).squashed = false → s.takesSignal x = true →
      ((s.rob.insts x).staticInst.isControl = true ∨ (s.rob.insts x).staticInst.isLoad = true) →
      Starts c s (s.setPending x false).rob s'
        (if (s.rob.insts x).staticInst.isLoad then x - 1 else x) x → Chosen c s s'

theorem setPending_marks (s : Core) (x : Nat) (b : Bool) : Marks s.rob (s.setPending x b).rob :=
  marks_modify (f := fun st => { st with hasPendingSquash := b }) s.rob x fun _ => rfl

theorem takesSignal_spec (h : s.takesSignal n) :
    s.status ≠ .TrapPending ∧ n ≤ s.youngestSeqNum := by
  simpa [takesSignal] using h

theorem delay_spec (h : s.squashChoice c = .delay sig) :
    s.fromIEW.squash = some sig ∧ s.takesSignal sig.squashedSeqNum := by
  have hres : s.resolvedChoice ≠ .delay sig := by
    unfold resolvedChoice
    split
    · split <;> simp
    · simp
  unfold squashChoice at h
  split at h
  · next g hg =>
    split at h
    · next ht =>
      split at h
      · cases h
        exact ⟨hg, ht⟩
      · cases h
    · split at h
      · exact absurd h hres
      · cases h
  · split at h
    · exact absurd h hres
    · cases h

theorem fromIEW_spec (hstt : c.stt) (himp : c.impChannel)
    (h : s.squashChoice c = .fromIEW sig) :
    s.fromIEW.squash = some sig ∧ s.takesSignal sig.squashedSeqNum ∧
      (s.rob.insts sig.instCausingSquash).isArgsTainted = false := by
  have hres : s.resolvedChoice ≠ .fromIEW sig := by
    unfold resolvedChoice
    split
    · split <;> simp
    · simp
  unfold squashChoice at h
  simp only [hstt, himp, Bool.true_and, if_true] at h
  split at h
  · next g hg =>
    split at h
    · next ht =>
      split at h
      · cases h
      rename_i hta
      cases h
      exact ⟨hg, ht, by simpa using hta⟩
    · exact absurd h hres
  · exact absurd h hres

theorem fromROB_spec (h : s.squashChoice c = .fromROB x) :
    x ∈ s.rob.instList ∧ (s.rob.insts x).squashed = false ∧ s.takesSignal x ∧
      (s.rob.insts x).isArgsTainted = false := by
  have hres : s.resolvedChoice = .fromROB x := by
    unfold squashChoice at h
    split at h
    · split at h
      · split at h <;> cases h
      split at h
      · exact h
      · cases h
    · split at h
      · exact h
      · cases h
  unfold resolvedChoice at hres
  split at hres
  · next y hy =>
    split at hres
    · next ht =>
      cases hres
      have hprop := find?_some hy
      simp only [Bool.and_eq_true, Bool.not_eq_true'] at hprop
      exact ⟨mem_of_find?_eq_some hy, hprop.2, ht, hprop.1.2⟩
    · cases hres
  · cases hres

theorem Mid.handleSquashSignalFromIEW (h : Mid c s) (hl : Latched s.rob sig)
    (ht : s.takesSignal sig.squashedSeqNum)
    (hr : s.handleSquashSignalFromIEW c sig = some s') :
    Starts c s s.rob s'
      (if sig.cause = .mispredict then sig.squashedSeqNum else sig.squashedSeqNum - 1)
      sig.squashedSeqNum := by
  have hn : (if sig.includeSquashInst then sig.squashedSeqNum - 1 else sig.squashedSeqNum) =
      if sig.cause = .mispredict then sig.squashedSeqNum else sig.squashedSeqNum - 1 := by
    by_cases hc : sig.cause = .mispredict
    · rw [if_pos hc, if_neg fun hi => hl.incl.mp hi hc]
    · rw [if_neg hc, if_pos (hl.incl.mpr hc)]
  unfold Core.handleSquashSignalFromIEW at hr
  rw [hn, hl.inst] at hr
  exact h.starts hl.mem (takesSignal_spec ht).2 (by split <;> omega) hr

theorem Mid.handleSquashSignalFromROB (h : Mid c s) (hx : x ∈ s.rob.instList)
    (ht : s.takesSignal x)
    (hr : (s.setPending x false).handleSquashSignalFromROB c x = some s') :
    ((s.rob.insts x).staticInst.isControl ∨ (s.rob.insts x).staticInst.isLoad) ∧
      Starts c s (s.setPending x false).rob s'
        (if (s.rob.insts x).staticInst.isLoad then x - 1 else x) x := by
  have hm := setPending_marks s x false
  have hmid : Mid c (s.setPending x false) := h.marks hm
  unfold Core.handleSquashSignalFromROB at hr
  dsimp only at hr
  split at hr
  · cases hr
  rename_i hkind
  rw [hm.staticInst] at hr hkind
  have hs := hmid.starts (hm.instList ▸ hx) (takesSignal_spec ht).2 (by split <;> omega) hr
  refine ⟨?_, { hs with gone := fun y hy => hs.gone y (hm.instList ▸ hy) }⟩
  cases hc : (s.rob.insts x).staticInst.isControl with
  | true => exact .inl rfl
  | false =>
    refine .inr ?_
    simpa [hc] using hkind

/-- A signal that commit would act on is for an instruction of the buffer. -/
def Hears (s : Core) : Prop :=
  ∀ sig, s.fromIEW.squash = some sig → s.takesSignal sig.squashedSeqNum = true →
    Latched s.rob sig

theorem Mid.chosen (hstt : c.stt) (himp : c.impChannel) (h : Mid c s) (hl : s.Hears)
    (hr : s.applyChoice c (s.squashChoice c) = some s') : Mid c s' ∧ Chosen c s s' := by
  have hresolved : s.NoSignal → s.applyChoice c s.resolvedChoice = some s' →
      Mid c s' ∧ Chosen c s s' := by
    intro hno hr
    unfold resolvedChoice at hr
    split at hr
    · next x hx =>
      have hmem := mem_of_find?_eq_some hx
      have hsat := find?_some hx
      simp only [Bool.and_eq_true, Bool.not_eq_true'] at hsat
      split at hr
      · next ht =>
        obtain ⟨hkind, hs⟩ := h.handleSquashSignalFromROB hmem ht hr
        exact ⟨hs.mid, .fromROB x hno hmem hsat.1.1 hsat.1.2 hsat.2 ht hkind hs⟩
      · cases hr
        exact ⟨h, .nothing hno rfl⟩
    · cases hr
      exact ⟨h, .nothing hno rfl⟩
  unfold squashChoice at hr
  simp only [hstt, himp, Bool.true_and, if_true] at hr
  split at hr
  · next sig hsig =>
    split at hr
    · next ht =>
      have hlatch := hl sig hsig ht
      rw [hlatch.inst] at hr
      split at hr
      · next htaint =>
        cases hr
        rw [hlatch.inst]
        exact ⟨(h.marks (setPending_marks s _ true)).congr rfl,
          .delay sig hsig ht htaint rfl rfl rfl rfl⟩
      · next htaint =>
        have hs := h.handleSquashSignalFromIEW hlatch ht hr
        exact ⟨hs.mid, .fromIEW sig hsig ht (by simpa using htaint) hs⟩
    · next ht =>
      refine hresolved (fun sig' hsig' => ?_) hr
      rw [hsig] at hsig'
      cases hsig'
      simpa using ht
  · next hnone =>
    refine hresolved (fun sig' hsig' => ?_) hr
    rw [hnone] at hsig'
    cases hsig'

end Core

end SdoCore
