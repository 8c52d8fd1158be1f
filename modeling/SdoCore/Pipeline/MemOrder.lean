import SdoCore.Pipeline.Delayed

/-! Memory-order violations and tainted addresses. When a store executes, its address is
compared with those of the younger loads that have executed; a violation is a fact about
both addresses. It leaves the core in two ways, a squash and a call of the memory
dependence predictor (`store_set.cc`).

* `memOrder_squash_untainted`: the address of the load is untainted when its squash starts,
  since commit waits for that; the address of the store is if it was when the store met the
  load, which nothing waits for;
* `untainted_training`: the predictor is trained in the cycle of the comparison, so both
  addresses have to be untainted then. -/

namespace SdoCore

open Rob Lib

namespace Iew

variable {c : Config} {w w' : Iew} {x : Nat} {e : Exec} {r₀ : Rob}

/-! ## Conflicts -/

/-- The access `a` is compared with the executed load `b` and overlaps it. -/
def conflicts (c : Config) (a b : Status) : Bool :=
  b.effAddrValid && !b.strictlyOrdered && !b.fenceDelay && overlaps c a b

/-- The loads behind it that an execution conflicts with. -/
def conflictsWith (c : Config) (w : Iew) (e : Exec) : List Nat :=
  let i := w.rob.insts e.inst
  match e.result with
  | .access a n =>
    if i.squashed || (i.staticInst.isLoad && !c.checkLoads) then []
    else (loadsAfter w.rob e.inst).filter fun l =>
      conflicts c { i.status with effAddr := a, effSize := n, effAddrValid := true }
        (w.rob.insts l).status
  | _ => []

/-- The condition holds before each of the executions. -/
def executesWhen (c : Config) (P : Iew → Exec → Bool) (w : Iew) : List Exec → Bool
  | [] => true
  | e :: es => P w e && (w.executeInst c e).all fun w => executesWhen c P w es

/-- The mark a load leaves on a younger one has no part in the comparison. -/
theorem conflicts_mark (w : Iew) (l a b : Nat) :
    conflicts c
        ((w.setStatus l fun st => { st with possibleLoadViolation := true }).rob.insts a).status
        ((w.setStatus l fun st => { st with possibleLoadViolation := true }).rob.insts b).status =
      conflicts c (w.rob.insts a).status (w.rob.insts b).status := by
  have hmark : ∀ y, ∃ p,
      ((w.setStatus l fun st => { st with possibleLoadViolation := true }).rob.insts y).status =
        { (w.rob.insts y).status with possibleLoadViolation := p } := by
    intro y
    by_cases hy : y = l
    · exact ⟨true, by rw [hy, setStatus_self]⟩
    · exact ⟨_, by rw [setStatus_other w _ hy]⟩
  obtain ⟨p, hp⟩ := hmark a
  obtain ⟨q, hq⟩ := hmark b
  rw [hp, hq]
  rfl

/-- The search reports a load it found in conflict. -/
theorem checkViolations_violator (ls : List Nat) {v : Nat}
    (h : (checkViolations c x w ls).1.memDepViolator = some v) :
    w.memDepViolator = some v ∨
      v ∈ ls ∧ conflicts c (w.rob.insts x).status (w.rob.insts v).status := by
  induction ls generalizing w with
  | nil => exact .inl h
  | cons l ls ih =>
    have hlater : ∀ {P : Prop}, v ∈ ls ∧ P → v ∈ l :: ls ∧ P := fun hv =>
      ⟨List.mem_cons_of_mem _ hv.1, hv.2⟩
    rw [checkViolations] at h
    split at h
    · exact (ih h).imp_right hlater
    rename_i hskip
    split at h
    · next hov =>
      have hhit : conflicts c (w.rob.insts x).status (w.rob.insts l).status = true := by
        simp only [Bool.or_eq_true, Bool.not_eq_true', not_or, Bool.not_eq_false] at hskip
        simp [conflicts, hskip, hov]
      split at h
      · split at h
        · cases h
          exact .inr ⟨by simp, hhit⟩
        rcases ih h with hold | hv
        · exact .inl hold
        · rw [conflicts_mark] at hv
          exact .inr (hlater hv)
      · split at h
        · exact .inl h
        · cases h
          exact .inr ⟨by simp, hhit⟩
    · exact (ih h).imp_right hlater

theorem checkViolations_eq (ls : List Nat) :
    (checkViolations c x w ls).1 = { w with
      rob := (checkViolations c x w ls).1.rob
      memDepViolator := (checkViolations c x w ls).1.memDepViolator } := by
  induction ls generalizing w with
  | nil => rfl
  | cons l ls ih =>
    rw [checkViolations]
    split
    · exact ih
    split
    · split
      · split
        · rfl
        · exact ih (w := w.setStatus l fun st => { st with possibleLoadViolation := true })
      · split <;> rfl
    · exact ih

/-! ## What is reported -/

/-- Every violation reported between `w` and `w'` is one of `x` with a load of `ls`. -/
structure Charges (x : Nat) (ls : List Nat) (w w' : Iew) : Prop where
  raised : ∀ v a, (v, .memOrder a) ∈ w'.raised → (v, .memOrder a) ∈ w.raised ∨ a = x ∧ v ∈ ls
  trained : ∀ a v, (a, v) ∈ w'.trained → (a, v) ∈ w.trained ∨ a = x ∧ v ∈ ls

variable {ls : List Nat} {a n : Nat} {Q : Nat → Nat → Prop}

theorem charges_of_eq (hr : w'.raised = w.raised) (ht : w'.trained = w.trained) :
    Charges x ls w w' :=
  ⟨fun _ _ h => .inl (hr ▸ h), fun _ _ h => .inl (ht ▸ h)⟩

theorem squashDueToBranch_history (w : Iew) (x : Nat) :
    (w.squashDueToBranch x).raised = w.raised ∧ (w.squashDueToBranch x).trained = w.trained := by
  unfold squashDueToBranch
  split <;> exact ⟨rfl, rfl⟩

theorem squashLoad_history (w : Iew) (x : Nat) (cause : SquashCause) :
    (w.squashLoad x cause).raised = w.raised ∧ (w.squashLoad x cause).trained = w.trained := by
  unfold squashLoad
  split <;> exact ⟨rfl, rfl⟩

/-- One more cause, which is not a violation. -/
theorem charges_raise {y : Nat} {cause : SquashCause} (hc : ∀ a, cause ≠ .memOrder a)
    (hr : w'.raised = w.raised ++ [(y, cause)])
    (ht : w'.trained = w.trained) : Charges x ls w w' := by
  refine ⟨fun v a hm => .inl ?_, fun _ _ h => .inl (ht ▸ h)⟩
  rw [hr, List.mem_append, List.mem_singleton] at hm
  rcases hm with hm | hm
  · exact hm
  · exact absurd (Prod.mk.inj hm).2.symm (hc a)

theorem Charges.before {u : Iew} (h : Charges x ls u w') (hr : u.raised = w.raised)
    (ht : u.trained = w.trained) : Charges x ls w w' :=
  ⟨fun v a hm => hr ▸ h.raised v a hm, fun a v hm => ht ▸ h.trained a v hm⟩

theorem Charges.trans {u : Iew} (h : Charges x ls w u) (h' : Charges x ls u w') :
    Charges x ls w w' :=
  ⟨fun v a hm => (h'.raised v a hm).elim (h.raised v a) .inr,
    fun a v hm => (h'.trained a v hm).elim (h.trained a v) .inr⟩

/-- What follows an execution reports the violator the search left. -/
theorem charges_checkSquash (hv : ∀ v, w.memDepViolator = some v → v ∈ ls)
    (hr : w.checkSquash x = some w') : Charges x ls w w' := by
  unfold checkSquash at hr
  dsimp only at hr
  generalize hw₁ : (if foundMispredicted (w.rob.insts x) then w.raise x .mispredict else w) = w₁
    at hr
  have h₁ : Charges x ls w w₁ ∧ w₁.memDepViolator = w.memDepViolator := by
    rw [← hw₁]
    split
    · exact ⟨charges_raise (by simp) rfl rfl, rfl⟩
    · exact ⟨charges_of_eq rfl rfl, rfl⟩
  obtain ⟨h₁, hviol⟩ := h₁
  rw [← hviol] at hv
  refine h₁.trans ?_
  -- the violator is reported and cleared, or cleared only
  have hone : ∀ {u : Iew} {v : Nat}, w₁.memDepViolator = some v →
      u.raised = w₁.raised ++ [(v, .memOrder x)] →
      (u.trained = w₁.trained ∨ u.trained = w₁.trained ++ [(x, v)]) → Charges x ls w₁ u := by
    intro u v hsome hra htr
    refine ⟨fun v' a hm => ?_, fun a v' hm => ?_⟩
    · rw [hra, List.mem_append, List.mem_singleton] at hm
      rcases hm with hm | hm
      · exact .inl hm
      · cases hm
        exact .inr ⟨rfl, hv v hsome⟩
    · rcases htr with htr | htr
      · exact .inl (htr ▸ hm)
      rw [htr, List.mem_append, List.mem_singleton] at hm
      rcases hm with hm | hm
      · exact .inl hm
      · cases hm
        exact .inr ⟨rfl, hv v hsome⟩
  split at hr
  · split at hr
    · cases hr
      exact charges_of_eq (squashDueToBranch_history _ x).1 (squashDueToBranch_history _ x).2
    split at hr
    · next _ v hsome =>
      split at hr
      · cases hr
        have hh := squashLoad_history { w₁.raise v (.memOrder x) with
          fetchRedirect := true, memDepViolator := none
          trained := (w₁.raise v (.memOrder x)).trained ++ [(x, v)] } v (.memOrder x)
        exact hone hsome hh.1 (.inr hh.2)
      · cases hr
    · next o _ _ =>
      cases hr
      have hh := squashLoad_history { w₁.raise o .oblsMiss with
        fetchRedirect := true, oblsMissInst := none } o .oblsMiss
      exact charges_raise (by simp) hh.1 hh.2
    · cases hr
      exact charges_of_eq rfl rfl
  · split at hr
    · next v hsome =>
      split at hr
      · cases hr
        exact hone hsome rfl (.inl rfl)
      · cases hr
    · cases hr
      exact charges_of_eq rfl rfl

/-- The search at the address `a`, as the load and the store make it. -/
theorem search_violator (hv : w.memDepViolator = none) {w₁ : Iew}
    (hw₁ : w₁ = w.setStatus x fun st =>
      { st with effAddr := a, effSize := n, effAddrValid := true })
    {v : Nat} (h : (checkViolations c x w₁ (loadsAfter w₁.rob x)).1.memDepViolator = some v) :
    v ∈ (loadsAfter w.rob x).filter fun l =>
      conflicts c { (w.rob.insts x).status with effAddr := a, effSize := n, effAddrValid := true }
        (w.rob.insts l).status := by
  have hlsq : loadsAfter w₁.rob x = loadsAfter w.rob x := by
    subst hw₁
    refine List.filter_congr fun l _ => ?_
    by_cases hl : l = x
    · simp [hl]
    · rw [setStatus_other w _ hl]
  rcases checkViolations_violator _ h with hold | ⟨hmem, hc⟩
  · subst hw₁
    rw [show (w.setStatus x _).memDepViolator = w.memDepViolator from rfl, hv] at hold
    cases hold
  · rw [hlsq] at hmem
    have hne : v ≠ x := by
      have := (mem_loadsAfter hmem).2.1
      omega
    subst hw₁
    rw [setStatus_self, setStatus_other w _ hne] at hc
    exact List.mem_filter.mpr ⟨hmem, hc⟩

theorem charges_setStatus {f : Status → Status} (ls : List Nat) (hv : w.memDepViolator = none)
    (hr : (w.setStatus x f).checkSquash x = some w') : Charges x ls w w' := by
  have h : Charges x ls (w.setStatus x f) w' := by
    refine charges_checkSquash (fun v hsome => ?_) hr
    change w.memDepViolator = some v at hsome
    rw [hv] at hsome
    cases hsome
  exact h.before rfl rfl

/-- A search, and whatever happens to the status afterwards. -/
theorem charges_search (hv : w.memDepViolator = none) {w₁ w₂ : Iew}
    (hw₁ : w₁ = w.setStatus x fun st =>
      { st with effAddr := a, effSize := n, effAddrValid := true })
    (hw₂ : ∃ r, w₂ = { (checkViolations c x w₁ (loadsAfter w₁.rob x)).1 with rob := r })
    (hr : w₂.checkSquash x = some w') :
    Charges x ((loadsAfter w.rob x).filter fun l =>
      conflicts c { (w.rob.insts x).status with effAddr := a, effSize := n, effAddrValid := true }
        (w.rob.insts l).status) w w' := by
  obtain ⟨r, hw₂⟩ := hw₂
  have h : Charges x _ w₂ w' := charges_checkSquash (fun v hsome => by
    rw [hw₂] at hsome
    exact search_violator hv hw₁ hsome) hr
  have heq := checkViolations_eq (c := c) (x := x) (w := w₁) (loadsAfter w₁.rob x)
  refine h.before ?_ ?_
  · rw [hw₂, heq, hw₁]
    rfl
  · rw [hw₂, heq, hw₁]
    rfl

theorem charges_executeStore (hv : w.memDepViolator = none)
    (hr : (w.executeStore c x a n).checkSquash x = some w') :
    Charges x ((loadsAfter w.rob x).filter fun l =>
      conflicts c { (w.rob.insts x).status with effAddr := a, effSize := n, effAddrValid := true }
        (w.rob.insts l).status) w w' := by
  unfold executeStore at hr
  dsimp only at hr
  split at hr
  · exact charges_search hv rfl ⟨_, rfl⟩ hr
  · exact charges_search hv rfl ⟨_, rfl⟩ hr

theorem conflictsWith_access (hsq : (w.rob.insts e.inst).squashed = false)
    (hres : e.result = .access a n)
    (hcheck : (w.rob.insts e.inst).staticInst.isLoad → c.checkLoads) :
    w.conflictsWith c e = (loadsAfter w.rob e.inst).filter fun l =>
      conflicts c { (w.rob.insts e.inst).status with
        effAddr := a, effSize := n, effAddrValid := true } (w.rob.insts l).status := by
  simp only [conflictsWith, hres]
  rw [if_neg]
  simpa [hsq] using hcheck

theorem charges_executeInst (hv : w.memDepViolator = none) (hr : w.executeInst c e = some w') :
    Charges e.inst (w.conflictsWith c e) w w' := by
  unfold executeInst at hr
  dsimp only at hr
  split at hr
  · cases hr
    exact charges_of_eq rfl rfl
  rename_i hsq
  have hsq : (w.rob.insts e.inst).squashed = false := by simpa using hsq
  split at hr
  · split at hr
    · cases hr
      exact charges_of_eq rfl rfl
    · cases hr
  · split at hr
    · exact charges_setStatus _ hv hr
    · cases hr
  · next a n hres =>
    split at hr
    · unfold executeLoad at hr
      split at hr
      · next hcheck =>
        rw [conflictsWith_access hsq hres fun _ => hcheck]
        exact charges_search hv rfl ⟨_, rfl⟩ hr
      · exact charges_setStatus _ hv hr
    · next hload =>
      split at hr
      · rw [conflictsWith_access hsq hres fun hl => absurd hl hload]
        exact charges_executeStore hv hr
      · cases hr
  · split at hr
    · cases hr
    · exact charges_setStatus _ hv hr

/-- Every violation reported so far is as `Q` says. -/
structure Blames (Q : Nat → Nat → Prop) (w : Iew) : Prop where
  raised : ∀ v a, (v, .memOrder a) ∈ w.raised → Q a v
  trained : ∀ a v, (a, v) ∈ w.trained → Q a v

theorem Blames.charges (h : Blames Q w) (hc : Charges x ls w w') (hQ : ∀ l ∈ ls, Q x l) :
    Blames Q w' where
  raised v a hm := by
    rcases hc.raised v a hm with hm | ⟨rfl, hv⟩
    · exact h.raised v a hm
    · exact hQ v hv
  trained a v hm := by
    rcases hc.trained a v hm with hm | ⟨rfl, hv⟩
    · exact h.trained a v hm
    · exact hQ v hv

theorem Spec.blames_executeAll {P : Iew → Exec → Bool} {es : List Exec} (h : Spec r₀ none w)
    (hv : w.memDepViolator = none) (hb : Blames Q w) (hP : w.executesWhen c P es)
    (hQ : ∀ u e, Frame r₀ u.rob → P u e → ∀ l ∈ u.conflictsWith c e, Q e.inst l)
    (hr : w.executeAll c es = some w') : Blames Q w' := by
  induction es generalizing w with
  | nil =>
    cases hr
    exact hb
  | cons e es ih =>
    rw [Iew.executeAll] at hr
    split at hr
    · next hiss =>
      obtain ⟨w₁, hr₁, hr⟩ := Option.bind_eq_some_iff.mp hr
      obtain ⟨h₁, hv₁⟩ := h.executeInst hv hiss hr₁
      rw [executesWhen, hr₁, Option.all_some, Bool.and_eq_true] at hP
      exact ih h₁ hv₁ (hb.charges (charges_executeInst hv hr₁) (hQ w e h.frame hP.1)) hP.2 hr
    · cases hr

theorem Blames.takeOblsMiss (h : Blames Q w) : Blames Q w.takeOblsMiss := by
  have hc : Charges 0 [] w w.takeOblsMiss := by
    unfold Iew.takeOblsMiss
    split
    · exact charges_of_eq rfl rfl
    rename_i o _
    dsimp only
    split
    · have hh := squashLoad_history { w.raise o .oblsMiss with
        oblsMissInst := none, fetchRedirect := true } o .oblsMiss
      exact charges_raise (by simp) hh.1 hh.2
    · exact charges_raise (by simp) rfl rfl
  exact h.charges hc nofun

end Iew

namespace Core

variable {c : Config} {s s' : Core} {i : CycleIn} {w : Iew} {s₂ s₃ t s₄ : Core} {x : Nat}

/-- The stage when execution begins. -/
def beforeExecs (s : Core) (i : CycleIn) : Option Iew :=
  ((s.iewStart i).dispatchInsts i.dispatched).bind fun w =>
    (w.lsqUpdates i.lsq).bind fun w => { w with fetchRedirect := false }.exposeLoads i.miss

/-- `P` holds before each of the executions of the cycle. -/
def ExecsWhen (c : Config) (P : Iew → Iew.Exec → Bool) (s : Core) (i : CycleIn) : Prop :=
  (s.beforeExecs i).all (fun w => w.executesWhen c P i.execs) = true

theorem iewTick_blames {P : Iew → Iew.Exec → Bool} {Q : Nat → Nat → Prop} (hs : s.IewReady)
    (hP : s.ExecsWhen c P i)
    (hQ : ∀ u e, Iew.Frame s.inFlight u.rob → P u e → ∀ l ∈ u.conflictsWith c e, Q e.inst l)
    (hr : s.iewTick c i = some w) : w.Blames Q := by
  obtain ⟨w₁, hr₁, hr⟩ := Option.bind_eq_some_iff.mp hr
  obtain ⟨w₂, hr₂, hr⟩ := Option.bind_eq_some_iff.mp hr
  obtain ⟨w₃, hr₃, hr⟩ := Option.bind_eq_some_iff.mp hr
  obtain ⟨w₄, hr₄, rfl⟩ := Option.map_eq_some_iff.mp hr
  obtain ⟨h₀, hq₀⟩ := Iew.spec_start hs i
  obtain ⟨h₁, hq₁⟩ := h₀.dispatchInsts hq₀ hr₁
  obtain ⟨h₂, hq₂⟩ := h₁.lsqUpdates hq₁ hr₂
  obtain ⟨h₃, hv₃⟩ := h₂.redirect.exposeLoads hr₃
  have hnone : w₃.raised = [] ∧ w₃.trained = [] := by
    obtain ⟨hra, htr⟩ := Iew.exposeLoads_history hr₃
    exact ⟨hra.trans hq₂.raised, htr.trans hq₂.trained⟩
  have hb₃ : w₃.Blames Q := by
    refine ⟨fun v a hm => ?_, fun a v hm => ?_⟩
    · rw [hnone.1] at hm
      cases hm
    · rw [hnone.2] at hm
      cases hm
  have hbefore : s.beforeExecs i = some w₃ := by
    rw [beforeExecs, hr₁, Option.bind_some, hr₂, Option.bind_some, hr₃]
  rw [ExecsWhen, hbefore, Option.all_some] at hP
  exact (h₃.blames_executeAll (hv₃.trans hq₂.violator) hb₃ hP hQ hr₄).takeOblsMiss

/-! ## Squashes -/

/-- A store that meets a load has an untainted address. -/
def storeUntainted (c : Config) (w : Iew) (e : Iew.Exec) : Bool :=
  !(w.rob.insts e.inst).staticInst.isStore || (w.conflictsWith c e).isEmpty ||
    !(w.rob.insts e.inst).isAddrTainted

def StoresUntainted (c : Config) (s : Core) (i : CycleIn) : Prop :=
  s.ExecsWhen c (storeUntainted c) i

/-- Commit starts a squash for a violation of the load `ld` with the access `a`. -/
inductive StartsFor (c : Config) (s : Core) (ld a : Nat) : Prop
  | fromIEW (sig : IewSquash) : s.squashChoice c = .fromIEW sig → sig.squashedSeqNum = ld →
      sig.cause = .memOrder a → StartsFor c s ld a
  | fromROB : s.squashChoice c = .fromROB ld → .memOrder a ∈ s.hist.pendingFor ld →
      StartsFor c s ld a

/-- A memory-order squash reveals no tainted address. -/
def OrderUntainted (c : Config) (s : Core) : Prop :=
  ∀ ld st, StartsFor c s ld st → (s.rob.insts st).staticInst.isStore = true →
    (s.rob.insts st).isAddrTainted = false ∧ (s.rob.insts ld).isAddrTainted = false

/-- The access was in use before, and its address is untainted if it is a store. -/
structure CleanStore (s : Core) (a : Nat) : Prop where
  le : a ≤ s.globalSeqNum
  clean : (s.rob.insts a).staticInst.isStore = true → (s.rob.insts a).isAddrTainted = false

structure OrderInv (c : Config) (s : Core) : Prop where
  inv : Inv c s
  signal : ∀ sig a, s.fromIEW.squash = some sig → sig.cause = .memOrder a → s.CleanStore a
  pending : ∀ ld a, .memOrder a ∈ s.hist.pendingFor ld → s.CleanStore a

theorem CleanStore.cycle (h : Inv c s) (hp : Parts c s i s' w s₂ s₃ t s₄)
    (hx : s.CleanStore x) : s'.CleanStore x := by
  refine ⟨?_, fun hst => Bool.eq_false_iff.mpr fun hta => ?_⟩
  · rw [hp.eq]
    exact Nat.le_trans hx.le hp.tick.global_le
  have hstat : (s'.rob.insts x).staticInst = (s.rob.insts x).staticInst := by
    rw [hp.eq]
    exact (hp.tick.staticInst hx.le).trans (hp.spec.frame.staticInst x)
  rw [hstat] at hst
  exact Bool.eq_false_iff.mp (hx.clean hst) ((h.taint hp hx.le).2 hta)

/-- A delayed squash was delayed before or is the one of the signal that commit sees. -/
theorem Parts.pendingFor (hp : Parts c s i s' w s₂ s₃ t s₄) {cause : SquashCause} {y : Nat}
    (hm : cause ∈ s'.hist.pendingFor y) : cause ∈ s.hist.pendingFor y ∨
      ∃ sig, s.fromIEW.squash = some sig ∧ sig.cause = cause := by
  have hhist : s'.hist.pendingFor = s₃.hist.pendingFor := by
    rw [hp.eq]
    exact (congrArg History.pendingFor hp.tick.hist :)
  have hbefore : s₂.hist.pendingFor = s.hist.pendingFor := hp.tick.before.pendingFor
  rw [hhist] at hm
  cases hp.tick.chosen with
  | nothing _ he =>
    rw [he, hbefore] at hm
    exact .inl hm
  | delay sig hsig _ _ _ _ _ hpend =>
    rw [hpend] at hm
    by_cases hy : y = sig.squashedSeqNum
    · subst hy
      rw [Function.update_self, List.mem_cons] at hm
      rcases hm with hm | hm
      · exact .inr ⟨sig, hp.tick.before.fromIEW ▸ hsig, hm.symm⟩
      · exact .inl (hbefore ▸ hm)
    · rw [Function.update_of_ne hy] at hm
      exact .inl (hbefore ▸ hm)
  | fromIEW sig _ _ _ hst =>
    rw [hst.pendingFor, hbefore] at hm
    exact .inl hm
  | fromROB y _ _ _ _ _ _ _ hst =>
    rw [hst.pendingFor, hbefore] at hm
    exact .inl hm

theorem OrderInv.cycle (hstt : c.stt) (himp : c.impChannel) (h : OrderInv c s)
    (hC : s.StoresUntainted c i) (hr : s.cycle c i = some s') : OrderInv c s' := by
  obtain ⟨w, s₂, s₃, t, s₄, hp⟩ := h.inv.parts hstt himp hr
  have hblames := iewTick_blames (Q := fun a _ => (s.rob.insts a).staticInst.isStore = true →
    (s.rob.insts a).isAddrTainted = false) h.inv.iewReady hC (fun u e hf hP l hl hst => ?_) hp.iew
  · refine ⟨h.inv.cycle hstt himp hr, fun sig a hsig hcause => ?_, fun ld a hm => ?_⟩
    · -- the signal was raised in this cycle
      rw [hp.eq] at hsig
      have hmem := (hp.full.signal sig hsig).1
      rw [hcause] at hmem
      have hkind := (hp.full.raised _ hmem).kind
      exact CleanStore.cycle h.inv hp ⟨h.inv.inFlight_le hkind.2.2.1, hblames.raised _ a hmem⟩
    · rcases hp.pendingFor hm with hm | ⟨sig, hsig, hcause⟩
      · exact (h.pending ld a hm).cycle h.inv hp
      · exact (h.signal sig a hsig hcause).cycle h.inv hp
  · -- before the execution the store was untainted
    simp only [storeUntainted, Bool.or_eq_true, Bool.not_eq_true', List.isEmpty_iff] at hP
    have hfix := (hf.fixed e.inst).trans (inFlight_fixed s e.inst)
    rw [show (u.rob.insts e.inst).staticInst = (s.rob.insts e.inst).staticInst from
        (congrArg DynInst.staticInst hfix :),
      show (u.rob.insts e.inst).isAddrTainted = (s.rob.insts e.inst).isAddrTainted from
        (congrArg DynInst.isAddrTainted hfix :)] at hP
    rcases hP with (hno | hnil) | hclean
    · rw [hst] at hno
      cases hno
    · rw [hnil] at hl
      cases hl
    · exact hclean

theorem OrderInv.start (h : s.Start) : OrderInv c s := by
  refine ⟨.start h, fun sig a hsig => ?_, fun ld a hm => ?_⟩
  · rw [h.fromIEW] at hsig
    cases hsig
  · rw [h.pendingFor] at hm
    cases hm

end Core

/-- In every run in which no store with a tainted address meets an executed load, a
memory-order squash starts only when the addresses of store and load are untainted. -/
theorem memOrder_squash_untainted {c : Config} (hstt : c.stt = true) (himp : c.impChannel = true)
    {s : Core} (h : (coreMachine c).ReachWhen (Core.StoresUntainted c) s) {i : CycleIn} {s₂ : Core}
    (hr : s.atChoice c i = some s₂) : s₂.OrderUntainted c := by
  have hinv : Core.OrderInv c s :=
    h.invariant (fun _ hs => .start hs) fun _ _ _ hi hC hs => hi.cycle hstt himp hC hs
  obtain ⟨w, -, hf, hb⟩ := hinv.inv.atChoice hr
  have hp : Core.Passes (s.afterIew w).rob s₂.rob := .of_takes hb.takes
  have haddr : ∀ x, (s₂.rob.insts x).isAddrTainted = (s.rob.insts x).isAddrTainted := fun x =>
    (congrArg DynInst.isAddrTainted (hp.fixed x) :).trans (hf.isAddrTainted x)
  have hstat : ∀ x, (s₂.rob.insts x).staticInst = (s.rob.insts x).staticInst := fun x =>
    (hp.staticInst x).trans (hf.staticInst x)
  -- the arguments of the load are untainted, so its address is
  have hload : ∀ ld ∈ s₂.rob.instList, (s₂.rob.insts ld).isArgsTainted = false →
      (s₂.rob.insts ld).isAddrTainted = false := by
    intro ld hm hclean
    rw [hp.isArgsTainted, hf.isArgsTainted] at hclean
    rw [haddr]
    refine Bool.eq_false_iff.mpr fun hta => ?_
    rw [hinv.inv.addrArgs ld (hp.instList ▸ hm) hta] at hclean
    cases hclean
  intro ld a hstarts hstore
  rw [hstat] at hstore
  rw [haddr a]
  cases hstarts with
  | fromIEW sig hch hn hcause =>
    subst hn
    obtain ⟨hsig, ht, hclean⟩ := Core.fromIEW_spec hstt himp hch
    have hsig₀ : s.fromIEW.squash = some sig := hb.fromIEW ▸ hsig
    have hlatch := hb.hears
      (fun sig hs => (hinv.inv.latch sig hs).imp_left fun hl => hl.frame hf) sig hsig ht
    rw [hlatch.inst] at hclean
    exact ⟨(hinv.signal sig a hsig₀ hcause).clean hstore, hload _ hlatch.mem hclean⟩
  | fromROB hch hm =>
    obtain ⟨hmem, -, -, hclean⟩ := Core.fromROB_spec hch
    have hpend : .memOrder a ∈ s.hist.pendingFor ld := by
      rw [hb.pendingFor] at hm
      exact hm
    exact ⟨(hinv.pending ld a hpend).clean hstore, hload ld hmem hclean⟩

/-! ## A store that meets a load -/

/-- A branch, a load into physical register 40, a store whose address is in the register
`addr`, and a second load. -/
def storeProgram (addr : Nat) : List (Nat × DynInst) :=
  let reg : RegId := ⟨.intRegClass, 0⟩
  [(1, renamed branchInst [] []), (2, renamed loadInst [] [⟨reg, 40⟩]),
    (3, renamed storeInst [⟨reg, reg, 50, none⟩, ⟨reg, reg, addr, none⟩] []),
    (4, renamed loadInst [] [])]

/-- Both loads have executed, and the branch has not, when the store does. -/
def storeRun (addr : Nat) : List CycleIn :=
  [{ commit := { renamed := storeProgram addr } }, { dispatched := [1, 2, 3, 4] },
    { execs := [⟨2, .access 64 8⟩] }, { execs := [⟨4, .access 128 8⟩] },
    { execs := [⟨3, .access 128 8⟩] }]

/-- Commit sees the signal in the next cycle. -/
def storeChoice (addr : Nat) : Core :=
  ((coreAfter (storeRun addr)).atChoice spectreConfig {}).getD emptyCore

instance (c : Config) (s : Core) (i : CycleIn) : Decidable (s.StoresUntainted c i) :=
  inferInstanceAs (Decidable (_ = true))

def storeSignal : IewSquash where
  squashedSeqNum := 4
  pc := {}
  mispredictInst := none
  instCausingSquash := 4
  branchTaken := false
  includeSquashInst := true
  cause := .memOrder 3

/-- An address that does not come from the first load. -/
theorem memOrder_squash_untainted_store :
    (storeChoice 41).squashChoice spectreConfig = .fromIEW storeSignal ∧
      ((storeChoice 41).rob.insts 3).isAddrTainted = false ∧
      ((storeChoice 41).rob.insts 4).isAddrTainted = false := by
  have hch : (storeChoice 41).squashChoice spectreConfig = .fromIEW storeSignal := by
    decide +kernel
  have hreach : (coreMachine spectreConfig).ReachWhen (Core.StoresUntainted spectreConfig)
      (coreAfter (storeRun 41)) :=
    .run (.start emptyCore_start) (storeRun 41) (by decide +kernel)
      (Machine.run_getD (by decide +kernel))
  exact ⟨hch, memOrder_squash_untainted rfl rfl hreach
    (Machine.eq_some_getD (by decide +kernel)) 4 3 (.fromIEW storeSignal hch rfl rfl)
    (by decide +kernel)⟩

/-- The address of the store is what the first load returned; the squash starts at once. -/
theorem memOrder_squash_tainted :
    ¬ ∀ (c : Config) (s s₂ : Core) (i : CycleIn), c.stt = true → c.impChannel = true →
      (coreMachine c).Reach s → s.atChoice c i = some s₂ → s₂.OrderUntainted c := by
  intro h
  have hreach : (coreMachine spectreConfig).Reach (coreAfter (storeRun 40)) :=
    Machine.reach_run emptyCore_start (Machine.run_getD (by decide +kernel))
  have hch : (storeChoice 40).squashChoice spectreConfig = .fromIEW storeSignal := by
    decide +kernel
  have hno := h spectreConfig _ _ _ rfl rfl hreach (Machine.eq_some_getD (by decide +kernel)) 4 3
    (.fromIEW storeSignal hch rfl rfl) (by decide +kernel)
  have hta : ((storeChoice 40).rob.insts 3).isAddrTainted = true := by decide +kernel
  exact absurd hta (Bool.eq_false_iff.mp hno.1)

end SdoCore
