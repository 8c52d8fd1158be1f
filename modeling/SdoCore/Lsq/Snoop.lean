import SdoCore.Lsq.Retire

/-! Invalidations and exposed loads under TSO. An exposed load is not checked again, so an
invalidation that comes after its oblivious request hit the private cache has to make the load
re-execute, or to find it being validated.

Result:
* `snooped_validated`: a load that an invalidation has hit retires validated, unless the
  invalidation was an internal eviction of a line whose load was not being validated yet. -/

namespace SdoCore

open List
open Lib

/-! ## One load -/

namespace LoadInst

variable {c : LsqConfig} {ready : Bool} {l l' : LoadInst}

/-- Only an oblivious request has hit flags. -/
def HitsKnown (l : LoadInst) : Prop :=
  l.squashed = true ∨ l.second.needPostFetch = true ∨ l.obl.hits = {}

theorem Executes.hitsKnown {isHead b : Bool} {tr : Translation} {rd : ReadInput}
    (h : Executes c ready isHead b tr rd l l') (hf : Fresh c ready l) : l'.HitsKnown := by
  have hno : l.obl.hits = {} := by rw [hf.obl]
  obtain ⟨-, -, ⟨-, hsame, -⟩ | ⟨-, rfl⟩ | rfl⟩ := h.frame
  · exact .inr (.inr (hsame.trans hno))
  · exact .inr (.inl rfl)
  · exact .inr (.inr hno)

/-- The load will execute again or is being validated. -/
def Caught (c : LsqConfig) (l : LoadInst) : Prop :=
  l.squashed = true ∨ l.second.needPostFetch = true ∧
    (l.second.needExposeOnly = true ∨ l.fault ≠ none ∨
      l.mldomState.safe = true ∧ l.mldomState.mayExpose = false ∧ c.perfectUnsafe = false)

theorem Carries.caught (h : Carries l l') (hk : l.Caught c) (hsq : l.squashed = false) :
    l'.Caught c := by
  obtain ⟨hpost, hk⟩ := hk.resolve_left (by simp [hsq])
  obtain ⟨-, -, hexpose, hpost', -⟩ := h.fixed
  refine .inr ⟨hpost'.trans hpost, ?_⟩
  rcases hk with hk | hk | ⟨hsafe, hmay, hp⟩
  · exact .inl (hexpose.trans hk)
  · exact .inr (.inl (mt h.fault hk))
  · obtain ⟨hsafe', hmay'⟩ := h.safe hsafe
    exact .inr (.inr ⟨hsafe', hmay'.trans hmay, hp⟩)

/-- The invalidation reaches the load in time. -/
def snoopCaught (c : LsqConfig) (isExternalEviction : Bool) (l : LoadInst) : Bool :=
  isExternalEviction || l.acc.possibleLoadViolation ||
    (l.mldomState.safe && !l.mldomState.mayExpose && !c.perfectUnsafe)

theorem Oblivious.caught_checkSnoop (htso : c.needsTSO) (ho : Oblivious c ready l)
    {line : Nat} {external force : Bool} (hline : l.onLine line)
    (hC : l.second.needExposeOnly ∨ l.snoopCaught c external) :
    (l.checkSnoop c line external false force).1.Caught c := by
  have hpost := ho.coherent.postFetch
  simp only [checkSnoop, ho.access.1, ho.access.2.1, hline, Bool.not_true, Bool.or_self,
    Bool.false_eq_true, if_false, Bool.true_or, if_true, hitBySnoop]
  right
  split
  · exact ⟨hpost, .inr (.inl (Option.some_ne_none _))⟩
  rename_i hre
  refine ⟨hpost, ?_⟩
  rcases hC with hx | hC
  · exact .inl hx
  simp only [snoopCaught, Bool.or_eq_true, Bool.and_eq_true, Bool.not_eq_true'] at hC
  rcases hC with (hext | hviol) | hval
  · cases hx : l.second.needExposeOnly with
    | true => exact .inl rfl
    | false => simp [forceSquash, htso, hx, hext] at hre
  · simp [hviol] at hre
  · exact .inr (.inr ⟨hval.1.1, hval.1.2, hval.2⟩)

end LoadInst

namespace Life

variable {c : LsqConfig} {s s' : Life}

theorem hitsKnown_of_reach (hm : c.enableMLDOM) (h : (loadMachine c).Reach s) :
    s.load.HitsKnown := by
  suffices hboth : s.load.Stage c s.ready ∧ s.load.HitsKnown from hboth.2
  refine h.invariant (I := fun s => s.load.Stage c s.ready ∧ s.load.HitsKnown) (fun s hs => ?_)
    (fun s e s' ⟨hst, hk⟩ _ hs => ⟨stage_of_step hm hst hs, ?_⟩)
  · obtain ⟨a, b, d, e, rfl⟩ := hs
    exact ⟨LoadInst.stage_start a b d e false, .inr (.inr rfl)⟩
  · cases handled_of_step hm hst hs with
    | squashed _ hsq' => exact .inl hsq'
    | oblivious hsq ho hc => exact .inr (.inl (hc.fixed.2.2.2.1.trans ho.coherent.postFetch))
    | executes isHead b tr rd hsq he hf hx => exact hx.hitsKnown hf
    | plain hsq hpf hkeep =>
      have hno := (hk.resolve_left (by simp [hsq])).resolve_left (by simp [hpf])
      exact .inr (.inr ((congrArg OblS.hits hkeep.obl).trans hno))

theorem caught_of_step (hm : c.enableMLDOM) (hs : s.load.Stage c s.ready) {e : LoadEvent}
    (h : s.step c e = some s') (hk : s.load.Caught c) : s'.load.Caught c := by
  have hpost (hsq : s.load.squashed = false) : s.load.second.needPostFetch = true :=
    (hk.resolve_left (by simp [hsq])).1
  cases handled_of_step hm hs h with
  | squashed _ hsq' => exact .inl hsq'
  | oblivious hsq ho hc => exact hc.caught hk hsq
  | executes isHead b tr rd hsq he hf hx =>
    have := hpost hsq
    simp [hf.plain.postFetch] at this
  | plain hsq hpf hkeep =>
    have := hpost hsq
    simp [hpf] at this

end Life

/-! ## The unit -/

namespace LsqUnit

variable {c : LsqConfig} {s s' : LsqUnit} {x : Nat}

/-- The invalidation reaches in time every load it may concern. -/
def snoopsCaught (c : LsqConfig) (s : LsqUnit) : UnitEvent → Bool
  | .checkSnoop line isExternalEviction => s.base.loadQueue.tail.all fun x =>
    !((s.loads x).onLine line && (s.loads x).obl.hits.l0) || (s.loads x).squashed ||
      (s.loads x).second.needExposeOnly || (s.loads x).snoopCaught c isExternalEviction
  | _ => true

theorem LifeSteps.caught (hm : c.enableMLDOM) {e : UnitEvent} {a b : Life}
    (ha : a.load.Stage c a.ready) (h : LifeSteps c s x e a b) (hk : a.load.Caught c) :
    b.load.Caught c := by
  suffices hboth : b.load.Stage c b.ready ∧ b.load.Caught c from hboth.2
  induction h with
  | refl => exact ⟨ha, hk⟩
  | step _ _ hs _ ih => exact ⟨Life.stage_of_step hm ih.1 hs, Life.caught_of_step hm ih.1 hs ih.2⟩

/-- A load with a mark was marked before, or is hit by this invalidation. -/
theorem snooped_of_step {e : UnitEvent} (hs : s.step c e = some s') (hx : s'.snooped x) :
    s.snooped x ∨ ∃ line external, e = .checkSnoop line external ∧
      x ∈ s.base.loadQueue.tail ∧ (s.loads x).onLine line ∧
      (s.loads x).obl.hits.l0 ∧ s'.loads = snoopLoads c line external
        (fun x => (s.inst x).status.fenceDelay) s.loads false s.base.loadQueue.tail := by
  cases stepped_of_step hs with
  | checkSnoop line external hp =>
    simp only [Bool.or_eq_true, Bool.and_eq_true, contains_iff_mem] at hx
    exact hx.imp_right fun ⟨⟨hq, hline⟩, hhit⟩ => ⟨line, external, rfl, hq, hline, hhit, rfl⟩
  | _ => exact .inl hx

/-- The invalidation of the step catches the load. -/
theorem caught_of_checkSnoop (hm : c.enableMLDOM) (htso : c.needsTSO)
    (h : (lsqMachine c).Reach s) {line : Nat} {external : Bool}
    (hC : s.snoopsCaught c (.checkSnoop line external)) (hq : x ∈ s.base.loadQueue.tail)
    (hline : (s.loads x).onLine line) (hhit : (s.loads x).obl.hits.l0) :
    (snoopLoads c line external (fun x => (s.inst x).status.fenceDelay) s.loads false
      s.base.loadQueue.tail x).Caught c := by
  have hi := inv_of_reach hm h
  have hseen := (hi.queue x (mem_of_mem_tail hq)).1
  have hst := stage_of_reach hm h hseen
  have hload : ∃ f, snoopLoads c line external (fun x => (s.inst x).status.fenceDelay) s.loads false
      s.base.loadQueue.tail x =
        ((s.loads x).checkSnoop c line external (s.inst x).status.fenceDelay f).1 :=
    snoopLoads_mem (hi.sorted.sublist (tail_sublist _)) hq
  obtain ⟨force, hload⟩ := hload
  rw [hload, hi.fence x hseen]
  cases hsq : (s.loads x).squashed with
  | true =>
    exact .inl (Life.squashed_of_handle (s := s.life x) (c := c)
      (e := .checkSnoop line external false force) hsq rfl rfl)
  | false =>
    have hlife : (loadMachine c).Reach (s.life x) :=
      life_reach hm (fun _ _ _ _ _ _ _ => trivial) h x hseen
    have hpost := ((Life.hitsKnown_of_reach hm hlife).resolve_left
      (by simp [life, hsq])).resolve_right
      fun hno => by
        have hno : (s.loads x).obl.hits = {} := hno
        simp [hno] at hhit
    have ho : (s.loads x).Oblivious c (s.ready x) :=
      Life.oblivious_of_not_plain (s := s.life x) hst hsq fun hp => by simp [hp.postFetch] at hpost
    refine ho.caught_checkSnoop htso hline ?_
    have hx := all_eq_true.mp hC x hq
    simpa [hline, hhit, hsq] using hx

theorem caught_of_reach (hm : c.enableMLDOM) (htso : c.needsTSO)
    (h : (lsqMachine c).ReachWhen (fun s e => s.snoopsCaught c e) s)
    (hx : s.snooped x) : (s.loads x).Caught c := by
  suffices hall : (lsqMachine c).Reach s ∧ ∀ x, s.snooped x = true →
      x ∈ s.seen ∧ (s.loads x).Caught c from (hall.2 x hx).2
  refine h.invariant (I := fun s => (lsqMachine c).Reach s ∧ ∀ x, s.snooped x = true →
    x ∈ s.seen ∧ (s.loads x).Caught c) (fun s hs => ⟨.start hs, ?_⟩)
    (fun s e s' ⟨hr, hk⟩ hC hs => ⟨.step hr trivial hs, fun x hx => ?_⟩)
  · obtain ⟨b, -, rfl⟩ := hs
    exact fun x hx => by cases hx
  have hi := inv_of_reach hm hr
  rcases snooped_of_step hs hx with hold | ⟨line, external, rfl, hq, hline, hhit, hloads⟩
  · obtain ⟨hseen, hcaught⟩ := hk x hold
    have hseen' := seen_mono hs hseen
    refine ⟨hseen', ?_⟩
    rcases life_of_step hm hi hs hseen' with ⟨-, hborn⟩ | ⟨-, hsteps⟩
    · -- a load that has not begun has no second access
      rw [hborn] at hcaught
      rcases hcaught with hno | ⟨hno, -⟩ <;> cases hno
    · exact hsteps.caught hm (stage_of_reach hm hr hseen) hcaught
  · have hseen := (hi.queue x (mem_of_mem_tail hq)).1
    refine ⟨seen_mono hs hseen, ?_⟩
    rw [hloads]
    exact caught_of_checkSnoop hm htso hr hC hq hline hhit

end LsqUnit

/-- As long as no internal eviction hits a load that is not being validated yet, a load that was
hit behind the head of the queue after its oblivious request, and may not just be exposed, retires
with its validation completed. -/
theorem snooped_validated {c : LsqConfig} (hm : c.enableMLDOM = true) (htso : c.needsTSO = true)
    {s : LsqUnit} (h : (lsqMachine c).ReachWhen (fun s e => s.snoopsCaught c e = true) s) {x : Nat}
    (hsnoop : s.snooped x = true) (hexpose : (s.loads x).second.needExposeOnly = false)
    (hx : s.commits x = true) :
    .expose ∉ (s.loads x).sends ∧ .validate ∈ (s.loads x).sends ∧
      (s.loads x).second.exposeCompleted = true := by
  have hseen := ((LsqUnit.inv_of_reach hm h).queue x (LsqUnit.commits_mem hx)).1
  have hr := LsqUnit.commits_life hx
  obtain ⟨hsq, -, -, -, hf, -⟩ := Life.retires_iff.mp hr
  have hsq : (s.loads x).squashed = false := hsq
  have hf : (s.loads x).fault = none := hf
  obtain ⟨hpost, hcaught⟩ :=
    (LsqUnit.caught_of_reach hm htso h hsnoop).resolve_left (by simp [hsq])
  obtain ⟨-, hmay, hp⟩ := (hcaught.resolve_left (by simp [hexpose])).resolve_left (by simp [hf])
  rcases Life.retired_cases (LsqUnit.stage_of_reach hm h hseen) hr with hd | ⟨ho, hret⟩
  · have hno : (s.loads x).second.needPostFetch = false := hd.plain.postFetch
    simp [hpost] at hno
  · have hv := hret.kind hexpose hmay hp
    exact ⟨(ho.coherent.kind hmay hp).1, hv, (hret.answered hexpose hv).2.1⟩

/-! ### A load that hits the private cache while an older one has not executed -/

/-- Load 4 depends on load 2; load 3, between them, comes late. -/
def threeLoads : List UnitEvent :=
  [.rob (.insertInst 1 { staticInst := branchInst, srcs := [], dests := [] }),
    .rob (.insertInst 2 { staticInst := loadInst, srcs := [], dests := [⟨⟨.intRegClass, 0⟩, 40⟩] }),
    .rob (.insertInst 3 { staticInst := loadInst, srcs := [], dests := [] }),
    .rob (.insertInst 4 { staticInst := loadInst, srcs := [loadedReg], dests := [] }),
    .rob .cycle, .insertLoad 2 false false false false, .insertLoad 3 false false false false,
    .insertLoad 4 false false false false] ++
  firstLoadReads ++ [.iewTick taken, .executeLoad 4 { lineLow := 2 } {}, .endCycle]

/-- The oblivious request of load 4 hits, and its line leaves the private cache. -/
def hitsAndEvicted : List UnitEvent :=
  [.load 4 (.oblResponse .low ⟨{ l0 := true }, true, true, [1]⟩), .checkSnoop 2 false]

def lateLoadReads : List UnitEvent :=
  [.executeLoad 3 { lineLow := 7 } {}, .endCycle,
    .load 3 (.readResponse .low { hits := { l0 := true } })]

def thirdLoadHead : List UnitEvent :=
  [.iewTick taken, .load 2 .setCanCommit, .load 3 .setCanCommit, .load 4 .setCanCommit,
    .rob .retireHead, .rob (.setStatus 2 { canCommit := true, readyToExpose := true }), .commitHead,
    .rob (.setStatus 3 { canCommit := true, readyToExpose := true }), .commitHead]

/-- Load 4 is found safe before its request is answered, and validated. -/
def validatedRun : List UnitEvent :=
  threeLoads ++ branchResolves ++ lateLoadReads ++ hitsAndEvicted ++
    [.load 4 (.postResponse .low { hits := { l0 := true }, data := [1] })] ++ thirdLoadHead

theorem snooped_validated_thirdLoad :
    (afterUnit .greedy validatedRun).commits 4 = true ∧
      .expose ∉ ((afterUnit .greedy validatedRun).loads 4).sends ∧
      .validate ∈ ((afterUnit .greedy validatedRun).loads 4).sends ∧
      ((afterUnit .greedy validatedRun).loads 4).second.exposeCompleted = true := by
  have hrun : (lsqMachine (sdoConfig .greedy)).run emptyUnit validatedRun =
      some (afterUnit .greedy validatedRun) := Machine.run_getD (by decide +kernel)
  have hcommits : (afterUnit .greedy validatedRun).commits 4 = true := by decide +kernel
  exact ⟨hcommits, snooped_validated (c := sdoConfig .greedy) rfl rfl
    (.run (.start (emptyUnit_start _)) validatedRun (by decide +kernel) hrun) (by decide +kernel)
    (by decide +kernel) hcommits⟩

/-- The line is lost before load 4 is found safe: `checkSnoop` clears flags that `exposeLoads` does
not look at. -/
def exposedRun : List UnitEvent :=
  threeLoads ++ hitsAndEvicted ++ branchResolves ++ lateLoadReads ++ thirdLoadHead

theorem snooped_exposed :
    ¬∀ (c : LsqConfig) (s : LsqUnit) (x : Nat), c.enableMLDOM = true → c.needsTSO = true →
      c.exposeOnly = false → c.disable2ndld = false → (lsqMachine c).Reach s →
      s.snooped x = true → (s.loads x).second.needExposeOnly = false → s.commits x = true →
        .expose ∉ (s.loads x).sends := by
  intro h
  have hrun : (lsqMachine (sdoConfig .greedy)).run emptyUnit exposedRun =
      some (afterUnit .greedy exposedRun) := Machine.run_getD (by decide +kernel)
  refine h _ _ 4 rfl rfl rfl rfl (Machine.reach_run (emptyUnit_start _) hrun) (by decide +kernel)
    (by decide +kernel) (by decide +kernel) ?_
  decide +kernel

end SdoCore
