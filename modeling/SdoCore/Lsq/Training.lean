import SdoCore.Lsq.Retire

/-! Training of the location predictor. Ordinary reads train it with their response and oblivious
loads on their way through the state machine; a load that got its data from a store is trained by
the pass of `exposeLoads`, which has to come to it before commit does.

Result:
* `retired_trained`: a load that retires has updated the predictor once, but for memory-mapped
  registers, prefetches whose fault is suppressed and, if second loads are switched off, forwarded
  loads. -/

namespace SdoCore

open List
open Lib

/-! ## One load -/

namespace LoadInst

variable {c : LsqConfig} {ready : Bool} {l l' : LoadInst}

/-- The pass ends at a load that will be squashed. -/
structure Stuck (l : LoadInst) : Prop where
  squashed : l.squashed = false
  committed : l.committed = false
  postFetch : l.second.needPostFetch = true
  state : l.mldomState = .toBeSquash

variable {fst snd : Bool} {flow : Flow}

theorem chooseSecond_next (hd : c.disable2ndld = false)
    (h : l.chooseSecond c fst snd = some (l', flow)) : flow = .next := by
  simp only [chooseSecond, hd, Bool.false_eq_true, if_false] at h
  split at h
  · obtain ⟨k, -, heq⟩ := Option.map_eq_some_iff.mp h
    exact (Prod.mk.inj heq).2.symm
  split at h
  · obtain ⟨k, -, heq⟩ := Option.map_eq_some_iff.mp h
    exact (Prod.mk.inj heq).2.symm
  · obtain ⟨k, -, heq⟩ := Option.map_eq_some_iff.mp h
    exact (Prod.mk.inj heq).2.symm

theorem stuck_of_exposeSafe (hd : c.disable2ndld = false) (hsq : l.squashed = false)
    (hp : l.second.needPostFetch)
    (h : l.exposeSafe c fst snd = some (l', flow)) (hf : flow ≠ .next) : l'.Stuck := by
  have hnext {k : Option LoadInst} (hk : k.map (·, Flow.next) = some (l', flow)) : l'.Stuck := by
    obtain ⟨k, -, heq⟩ := Option.map_eq_some_iff.mp hk
    exact absurd (Prod.mk.inj heq).2.symm hf
  simp only [exposeSafe] at h
  split at h
  · cases h
  rename_i hc
  have hcom : l.committed = false := by
    simp only [Bool.or_eq_true, not_or, Bool.not_eq_true] at hc
    exact hc.1
  split at h
  · split at h <;> cases h
    exact ⟨hsq, hcom, hp, rfl⟩
  split at h
  · split at h
    · cases h
    split at h
    · split at h <;> cases h
      exact ⟨hsq, hcom, hp, rfl⟩
    · exact absurd (chooseSecond_next hd h) hf
  · exact hnext h
  · split at h
    · cases h
    · obtain ⟨k, -, hk⟩ := Option.bind_eq_some_iff.mp h
      exact absurd (chooseSecond_next hd hk) hf
  · split at h
    · exact hnext h
    split at h
    · next hst =>
      cases h
      exact ⟨hsq, hcom, hp, hst⟩
    · cases h

theorem stuck_of_exposeLoad (hd : c.disable2ndld = false)
    (h : l.exposeLoad c ready fst snd = some (l', flow)) (hf : flow ≠ .next) : l'.Stuck := by
  simp only [exposeLoad] at h
  split at h
  · cases h
    exact absurd rfl hf
  rename_i hsq
  have hk : (l.trainForwarded c ready).squashed = false := by
    simp only [trainForwarded]
    split
    · rw [updateLocationPredictor_eq]
      simpa using hsq
    · simpa using hsq
  split at h
  · cases h
    exact absurd rfl hf
  rename_i hp
  simp only [Bool.or_eq_true, Bool.not_eq_true', not_or, Bool.not_eq_false] at hp
  split at h
  · cases h
    exact absurd rfl hf
  split at h
  · cases h
    exact absurd rfl hf
  · exact stuck_of_exposeSafe hd hk hp.1 h hf

/-- A load that is stuck does not retire. -/
theorem Stuck.not_retires {ready : Bool} (h : l.Stuck) (hs : l.Stage c ready) :
    (Life.mk l ready).retires = false := by
  refine Bool.eq_false_iff.mpr fun hr => ?_
  rcases Life.retired_cases (s := ⟨l, ready⟩) hs hr with hd | ⟨-, hret⟩
  · have := hd.plain.postFetch
    simp [h.postFetch] at this
  · have := hret.safe
    simp [h.state, MldomState.safe] at this

/-- The pass trains a load that got its data from a store. -/
theorem trained_of_exposeLoad (hm : c.enableMLDOM) (hs : Stage c ready l)
    (h : l.exposeLoad c ready fst snd = some (l', flow)) (hsq : l'.squashed = false)
    (hx : l'.wb.executed) (hfwd : l'.ifLdStFwd) (hr : ready) :
    l'.train.doneLocPredUpdate := by
  cases hsq' : l.squashed with
  | true =>
    rw [exposeLoad, if_pos hsq'] at h
    cases h
    simp [hsq'] at hsq
  | false =>
    cases hp : l.second.needPostFetch with
    | true =>
      have ho := Life.oblivious_of_not_plain (s := ⟨l, ready⟩) hs hsq' fun hpl => by
        have := hpl.postFetch
        simp [hp] at this
      have hk : l'.ifLdStFwd = l.ifLdStFwd :=
        (congrArg Fixed.ifLdStFwd (ho.exposeLoad hm hsq' h).fixed :)
      rw [hk, ho.idle.2.2.2] at hfwd
      cases hfwd
    | false =>
      rw [exposeLoad_plain hp hsq'] at h
      cases h
      have hk : (l.trainForwarded c ready).wb.executed = l.wb.executed ∧
          (l.trainForwarded c ready).ifLdStFwd = l.ifLdStFwd := by
        simp only [trainForwarded]
        split
        · rw [updateLocationPredictor_eq]
          exact ⟨rfl, rfl⟩
        · exact ⟨rfl, rfl⟩
      rw [hk.1] at hx
      rw [hk.2] at hfwd
      simp only [trainForwarded, hx, hfwd, hr, Bool.and_self, if_true]
      exact updateLocationPredictor_done hm rfl

/-- Execution gives the load its data later. -/
theorem Executes.unforwarded {isHead b : Bool} {tr : Translation} {rd : ReadInput}
    (h : Executes c ready isHead b tr rd l l') (hf : Fresh c ready l) :
    l'.wb.executed → l'.ifLdStFwd = false := by
  have hk : Fresh c ready (l.translated c ready tr) := (hf.finishTranslation ..).checkTLBMiss tr
  have hunx {k : LoadInst} (hk : Fresh c ready k) {P : Prop} (hx : k.wb.executed = true) : P := by
    rw [hk.wb] at hx
    cases hx
  have hfault {k : LoadInst} (hk : k.ifLdStFwd = false) : k.faultToCommit.ifLdStFwd = false := by
    simp only [faultToCommit]
    split <;> split <;> exact hk
  intro hx
  cases h with
  | waits => exact hf.idle.2.2.2
  | walks => exact hf.idle.2.2.2
  | defers => exact hf.idle.2.2.2
  | faults h => exact hfault hf.idle.2.2.2
  | strict h1 h2 => exact hfault hk.idle.2.2.2
  | ipr h => exact hunx hk hx
  | forwards data h => exact hunx hk hx
  | retries => exact hk.idle.2.2.2
  | half spec =>
    simp only [halfSent]
    split <;> exact hk.idle.2.2.2
  | oblivious => exact hk.idle.2.2.2
  | reads => exact hk.idle.2.2.2

end LoadInst

namespace Life

variable {c : LsqConfig} {s s' : Life}

def trainable (c : LsqConfig) (s : Life) : LoadEvent → Bool
  | .executeLoad isHead _ tr rd => !s.load.untrained c isHead tr rd
  | _ => true

theorem trains_of_reach (hm : c.enableMLDOM)
    (h : (loadMachine c).ReachWhen (fun a k => a.trainable c k) s) :
    s.load.squashed ∨ s.load.Trains c := by
  suffices hboth : s.load.Stage c s.ready ∧ (s.load.squashed = true ∨ s.load.Trains c) from hboth.2
  refine h.invariant (I := fun s => s.load.Stage c s.ready ∧
    (s.load.squashed = true ∨ s.load.Trains c)) (fun s hs => ?_)
    (fun s e s' ⟨hst, hk⟩ hC hs => ⟨stage_of_step hm hst hs, ?_⟩)
  · obtain ⟨a, b, d, e, rfl⟩ := hs
    exact ⟨LoadInst.stage_start a b d e false, .inr fun _ => ⟨nofun, nofun, fun _ => rfl⟩⟩
  · cases handled_of_step hm hst hs with
    | squashed _ hsq' => exact .inl hsq'
    | oblivious hsq ho hc =>
      refine .inr fun hno => ?_
      rw [hc.fixed.2.2.2.1, ho.coherent.postFetch] at hno
      cases hno
    | executes isHead b tr rd hsq he hf hx =>
      subst he
      exact .inr (hx.trains hf (by simpa only [trainable, Bool.not_eq_true'] using hC))
    | plain hsq hpf hkeep => exact .inr (hkeep.trains (hk.resolve_left (by simp [hsq])))

end Life

/-! ## The loads of the queue in order -/

namespace LoadInst

variable {c : LsqConfig} {ready : Bool} {l l' : LoadInst}

/-- The load is done with, so that it may have left the reorder buffer. -/
def gone (l : LoadInst) : Prop := l.squashed = true ∨ l.committed = true

/-- Up to the next pass a load does not get its data from a store, and its training stands. -/
def Later (l l' : LoadInst) : Prop :=
  l'.squashed = false → l'.wb.executed = true → l'.ifLdStFwd = true →
    l.squashed = false ∧ l.wb.executed = true ∧ l.ifLdStFwd = true ∧ l'.train = l.train

theorem Later.refl (l : LoadInst) : Later l l := fun h1 h2 h3 => ⟨h1, h2, h3, rfl⟩

end LoadInst

namespace Life

variable {c : LsqConfig} {s s' : Life}

theorem gone_of_step (hm : c.enableMLDOM) (hs : s.load.Stage c s.ready) {e : LoadEvent}
    (h : s.step c e = some s') (hg : s.load.gone) : s'.load.gone := by
  have hcom (hsq : s.load.squashed = false) : s.load.committed = true :=
    hg.resolve_left (by simp [hsq])
  cases handled_of_step hm hs h with
  | squashed _ hsq' => exact .inl hsq'
  | oblivious hsq ho hc => exact .inr (hc.committed (hcom hsq))
  | executes isHead b tr rd hsq he hf hx => exact .inr (hx.frame.2.1.trans (hcom hsq))
  | plain hsq hpf hkeep => exact .inr (hkeep.committed (hcom hsq))

end Life

namespace LsqUnit

variable {c : LsqConfig} {s s' : LsqUnit} {x : Nat}

variable {e : UnitEvent}

theorem LifeSteps.gone (hm : c.enableMLDOM) {a b : Life} (ha : a.load.Stage c a.ready)
    (h : LifeSteps c s x e a b) (hg : a.load.gone) : b.load.gone := by
  suffices hboth : b.load.Stage c b.ready ∧ b.load.gone from hboth.2
  induction h with
  | refl => exact ⟨ha, hg⟩
  | step _ _ hs _ ih => exact ⟨Life.stage_of_step hm ih.1 hs, Life.gone_of_step hm ih.1 hs ih.2⟩

/-- How an instruction leaves the reorder buffer. -/
theorem Inv.instList_of_step (hi : s.Inv c) (hs : s.step c e = some s')
    (hx : x ∈ s.base.rob.instList) : x ∈ s'.base.rob.instList ∨
      (x ∈ s.base.loadQueue → (s.loads x).squashed ∧ s'.loads x = s.loads x) ∨
      s.commits x ∧ (s'.loads x).committed := by
  have hret {r : Rob} (hr : s.base.rob.step c.toConfig .retireHead = some r) :
      x ∈ r.instList ∨ s.base.rob.instList.head? = some x := by
    rcases instList_of_robStep hi.rob hr with ⟨_, _, he, -⟩ | ⟨-, y, hl⟩ | hl
    · cases he
    · rw [hl, mem_cons] at hx
      rcases hx with rfl | hx
      · exact .inr (by rw [hl]; rfl)
      · exact .inl hx
    · exact .inl (hl ▸ hx)
  cases stepped_of_step hs with
  | rob e r ha hb hr =>
    by_cases he : e = .retireHead
    · subst he
      refine (hret hr).imp_right fun hhead => .inl fun hq => ⟨?_, rfl⟩
      simp only [allows, hhead, Option.all_some, Bool.or_eq_true, Bool.not_eq_true',
        contains_eq_mem, decide_eq_false_iff_not] at ha
      exact ha.resolve_left fun hno => hno hq
    · left
      show x ∈ r.instList
      rcases instList_of_robStep hi.rob hr with ⟨y, inst, -, hl⟩ | ⟨hne, -⟩ | hl
      · rw [hl]
        exact mem_append_left _ hx
      · exact absurd hne he
      · rw [hl]
        exact hx
  | commitHead y r hy hhead hr =>
    refine (hret hr).imp_right fun hxhead => .inr ?_
    rw [hhead] at hxhead
    cases hxhead
    exact ⟨hy, congrArg LoadInst.committed (Function.update_self x _ s.loads)⟩
  | _ => exact .inl hx

/-- What is in the queue was there before, or entered it from the buffer. -/
theorem queue_of_step (hs : s.step c e = some s') (hx : x ∈ s'.base.loadQueue) :
    x ∈ s.base.loadQueue ∨ s.passed = false ∧ x ∈ s'.base.rob.instList := by
  cases stepped_of_step hs with
  | insertLoad y _ _ _ _ hp _ hy =>
    rcases mem_append.mp hx with hx | hx
    · exact .inl hx
    · rw [mem_singleton.mp hx]
      exact .inr ⟨hp, hy⟩
  | squash n => exact .inl (mem_of_mem_filter hx)
  | commitLoad y q _ hq => exact .inl (hq ▸ mem_cons_of_mem y hx)
  | _ => exact .inl hx

section
variable (hm : c.enableMLDOM) (h : (lsqMachine c).Reach s) (hs : s.step c e = some s')
include hm h hs

/-- The events after the pass, for a load that it found forwarded. -/
theorem Inv.later_of_step (hp : s.passed) (hx : x ∈ s.seen) :
    (s.loads x).Later (s'.loads x) ∧ s'.ready x = s.ready x := by
  have hi := inv_of_reach hm h
  have hset {y : Nat} {l : LoadInst} (hl : x = y → (s.loads x).Later l) :
      (s.loads x).Later (Function.update s.loads y l x) := by
    by_cases hxy : x = y
    · subst hxy
      rw [Function.update_self]
      exact hl rfl
    · rw [Function.update_of_ne hxy]
      exact .refl _
  have hno {P : Prop} (hnot : s.passed = false) : P := by simp [hp] at hnot
  cases stepped_of_step hs with
  | rob e r ha hb hr =>
    exact ⟨.refl _, hi.ready_rob hb (fun inst he => (lt_of_insertInst (he ▸ ha)).2 hx) hr⟩
  | executeLoad y tr rd l q _ hy hrob he hl =>
    refine ⟨hset fun hxy hsq hex hfwd => ?_, rfl⟩
    subst hxy
    have hst : (s.life x).load.Stage c (s.life x).ready := stage_of_reach hm h hx
    simp only [Life.enabled, Bool.and_eq_true] at he
    have hno := (LoadInst.executeLoad_cases hl).unforwarded (Life.fresh_of_issuable hst he.1) hex
    rw [hfwd] at hno
    cases hno
  | load y k l hk hy hlast he hl =>
    refine ⟨hset fun hxy => ?_, rfl⟩
    subst hxy
    have hk := hk.elim And.right fun h => hno h.1
    cases k with
    | possibleLoadViolation =>
      cases hl
      exact .refl _
    | setAtCommit =>
      cases hl
      exact .refl _
    | setCanCommit =>
      cases hl
      exact .refl _
    | _ => cases hk
  | commitHead y r _ _ hr =>
    refine ⟨hset fun hxy => hxy ▸ .refl _, ?_⟩
    exact hi.ready_rob (e := .retireHead) rfl (fun _ he => by cases he) hr
  | setSquashed y =>
    exact ⟨hset fun hxy hsq => (by cases hsq), rfl⟩
  | executeStore y split => exact ⟨.refl _, rfl⟩
  | commitLoad y q => exact ⟨.refl _, rfl⟩
  | endCycle => exact ⟨.refl _, rfl⟩
  | insertLoad y _ _ _ _ hnot => exact hno hnot
  | iewTick answer d m hnot => exact hno hnot
  | checkSnoop line external hnot => exact hno hnot
  | squash n hnot => exact hno hnot

/-- A load that the pass ended at stays where it is, as long as a younger one is not squashed. -/
theorem stuck_of_step (hp : s.passed) (hx : x ∈ s.base.loadQueue)
    (hrob : x ∈ s.base.rob.instList) (hst : (s.loads x).Stuck) {y : Nat}
    (hy : y ∈ s.base.loadQueue) (hxy : x < y) (hsq : (s.loads y).squashed = false) :
    x ∈ s'.base.loadQueue ∧ x ∈ s'.base.rob.instList ∧ (s'.loads x).Stuck := by
  have hi := inv_of_reach hm h
  have hno {P : Prop} (hnot : s.passed = false) : P := by simp [hp] at hnot
  have hstage := stage_of_reach hm h (hi.queue x hx).1
  have hcom : s.commits x = false := by
    refine Bool.eq_false_iff.mpr fun hc => ?_
    rw [commits, show (s.life x).retires = false from hst.not_retires hstage, Bool.and_false] at hc
    cases hc
  have hrob' : x ∈ s'.base.rob.instList := by
    rcases hi.instList_of_step hs hrob with hmem | hgone | ⟨hc, -⟩
    · exact hmem
    · have := (hgone hx).1
      simp [hst.squashed] at this
    · simp [hcom] at hc
  have hset {z : Nat} {l : LoadInst} (hl : x = z → l.Stuck) :
      (Function.update s.loads z l x).Stuck := by
    by_cases hxz : x = z
    · subst hxz
      rw [Function.update_self]
      exact hl rfl
    · rw [Function.update_of_ne hxz]
      exact hst
  cases stepped_of_step hs with
  | rob e r => exact ⟨hx, hrob', hst⟩
  | executeLoad z tr rd l q _ _ _ he =>
    refine ⟨hx, hrob', hset fun hxz => ?_⟩
    subst hxz
    simp only [Life.enabled, LoadInst.issuable, Bool.and_eq_true, Bool.not_eq_true'] at he
    have hpost : (s.loads x).second.needPostFetch = false := he.1.1.2
    simp [hst.postFetch] at hpost
  | load z k l hk _ _ _ hl =>
    refine ⟨hx, hrob', hset fun hxz => ?_⟩
    subst hxz
    have hk := hk.elim And.right fun h => hno h.1
    cases k with
    | possibleLoadViolation =>
      cases hl
      exact { hst with }
    | setAtCommit =>
      cases hl
      exact { hst with }
    | setCanCommit =>
      cases hl
      exact { hst with }
    | _ => cases hk
  | commitHead z r hc =>
    refine ⟨hx, hrob', hset fun hxz => ?_⟩
    subst hxz
    rw [hcom] at hc
    cases hc
  | setSquashed z _ _ hall =>
    refine ⟨hx, hrob', hset fun hxz => ?_⟩
    subst hxz
    have := hall y hy hxy
    simp [hsq] at this
  | commitLoad z q _ hq hc =>
    have hmem : x ∈ z :: q := hq ▸ hx
    refine ⟨(mem_cons.mp hmem).resolve_left fun hxz => ?_, hrob', hst⟩
    subst hxz
    rw [hst.committed] at hc
    cases hc
  | executeStore z split => exact ⟨hx, hrob', hst⟩
  | endCycle => exact ⟨hx, hrob', hst⟩
  | insertLoad z _ _ _ _ hnot => exact hno hnot
  | iewTick answer d m hnot => exact hno hnot
  | checkSnoop line external hnot => exact hno hnot
  | squash n hnot => exact hno hnot

end

/-- Loads leave the buffer only when they are done with, and after the pass a forwarded load is
trained unless the pass ended at an older one. -/
structure Order (s : LsqUnit) : Prop where
  home : ∀ x ∈ s.base.loadQueue, x ∈ s.base.rob.instList ∨ (s.loads x).gone
  trained : s.passed = true → ∀ y ∈ s.base.loadQueue, (s.loads y).squashed = false →
    (s.loads y).wb.executed = true → (s.loads y).ifLdStFwd = true → s.ready y = true →
    (s.loads y).train.doneLocPredUpdate = true ∨
      ∃ x ∈ s.base.loadQueue, x < y ∧ x ∈ s.base.rob.instList ∧ (s.loads x).Stuck

section
variable (hm : c.enableMLDOM)
include hm

theorem home_of_step (h : (lsqMachine c).Reach s) (hs : s.step c e = some s')
    (ho : ∀ x ∈ s.base.loadQueue, x ∈ s.base.rob.instList ∨ (s.loads x).gone)
    (hx : x ∈ s'.base.loadQueue) : x ∈ s'.base.rob.instList ∨ (s'.loads x).gone := by
  have hi := inv_of_reach hm h
  rcases queue_of_step hs hx with hq | ⟨-, hmem⟩
  case inr => exact .inl hmem
  have hseen' : x ∈ s'.seen := ((hi.step hm hs).queue x hx).1
  rcases ho x hq with hrob | hg
  · rcases hi.instList_of_step hs hrob with hmem | hgone | ⟨-, hc⟩
    · exact .inl hmem
    · obtain ⟨hsq, hsame⟩ := hgone hq
      exact .inr (.inl (hsame ▸ hsq))
    · exact .inr (.inr hc)
  · right
    rcases life_of_step hm hi hs hseen' with ⟨-, hborn⟩ | ⟨hseen, hsteps⟩
    · rw [hborn] at hg
      exact hg.elim (fun h => by cases h) fun h => by cases h
    · exact hsteps.gone hm (stage_of_reach hm h hseen) hg

/-- The pass trains the forwarded loads, up to the one it ends at. -/
theorem trained_of_iewTick (hd : c.disable2ndld = false)
    (h : (lsqMachine c).Reach s) {answer : Nat → Bool × Bool}
    (hs : s.step c (.iewTick answer) = some s')
    (home : ∀ x ∈ s'.base.loadQueue, x ∈ s'.base.rob.instList ∨ (s'.loads x).gone) {y : Nat}
    (hy : y ∈ s'.base.loadQueue) (hsq : (s'.loads y).squashed = false)
    (hx : (s'.loads y).wb.executed) (hfwd : (s'.loads y).ifLdStFwd)
    (hr : s'.ready y) : (s'.loads y).train.doneLocPredUpdate ∨
      ∃ x ∈ s'.base.loadQueue, x < y ∧ x ∈ s'.base.rob.instList ∧ (s'.loads x).Stuck := by
  have hi := inv_of_reach hm h
  cases stepped_of_step hs with
  | iewTick _ d m _ hd' hm' =>
    rcases exposeLoads_cases hi.sorted hm' hy with ⟨flow, hv⟩ | ⟨-, x, hxq, hlt, flow, hflow, hv⟩
    · have hst : (s.loads y).Stage c (s.ready y || true) :=
        Life.stage_of_step (s := s.life y) (e := .becomeReady) hm
          (stage_of_reach hm h (hi.queue y hy).1) rfl
      rw [Bool.or_true, ← show (d y).status.readyToExpose = true from hr] at hst
      exact .inl (LoadInst.trained_of_exposeLoad hm hst hv hsq hx hfwd hr)
    · have hstuck := LoadInst.stuck_of_exposeLoad hd hv hflow
      refine .inr ⟨x, hxq, hlt, (home x hxq).resolve_right fun hg => ?_, hstuck⟩
      rcases hg with hg | hg
      · simp [hstuck.squashed] at hg
      · simp [hstuck.committed] at hg

theorem Order.step (hd : c.disable2ndld = false)
    (h : (lsqMachine c).Reach s) (ho : s.Order) (hs : s.step c e = some s') :
    s'.Order := by
  have hi := inv_of_reach hm h
  have home (x : Nat) (hx : x ∈ s'.base.loadQueue) :
      x ∈ s'.base.rob.instList ∨ (s'.loads x).gone := home_of_step hm h hs ho.home hx
  refine ⟨home, fun hp' y hy hsq hx hfwd hr => ?_⟩
  cases hp : s.passed with
  | true =>
    have hyq := (queue_of_step hs hy).resolve_right fun hno => by simp [hp] at hno
    obtain ⟨hlater, hready⟩ := Inv.later_of_step hm h hs hp (hi.queue y hyq).1
    obtain ⟨hsq0, hx0, hfwd0, htrain⟩ := hlater hsq hx hfwd
    rw [htrain]
    refine (ho.trained hp y hyq hsq0 hx0 hfwd0 (hready ▸ hr)).imp_right ?_
    rintro ⟨x, hxq, hlt, hrob, hstuck⟩
    obtain ⟨h1, h2, h3⟩ := stuck_of_step hm h hs hp hxq hrob hstuck hyq hlt hsq0
    exact ⟨x, h1, hlt, h2, h3⟩
  | false =>
    by_cases htick : ∃ answer, e = .iewTick answer
    · obtain ⟨answer, rfl⟩ := htick
      exact trained_of_iewTick hm hd h hs home hy hsq hx hfwd hr
    -- no other event starts the rest of the cycle
    have hkeep : s'.passed = s.passed ∨ s'.passed = false := by
      cases stepped_of_step hs with
      | iewTick answer => exact absurd ⟨answer, rfl⟩ htick
      | endCycle => exact .inr rfl
      | _ => exact .inl rfl
    rcases hkeep with hk | hk
    · rw [hp', hp] at hk
      cases hk
    · rw [hp'] at hk
      cases hk

theorem order_of_reach (hd : c.disable2ndld = false) (h : (lsqMachine c).Reach s) : s.Order := by
  suffices hboth : (lsqMachine c).Reach s ∧ s.Order from hboth.2
  refine h.invariant (I := fun s => (lsqMachine c).Reach s ∧ s.Order) (fun s hs => ?_)
    (fun s e s' ⟨hr, ho⟩ hC hs => ⟨.step hr hC hs, ho.step hm hd hr hs⟩)
  refine ⟨.start hs, ?_⟩
  obtain ⟨b, ⟨-, hb⟩, rfl⟩ := hs
  have hnil (x : Nat) : x ∉ ({ base := b } : LsqUnit).base.loadQueue := by
    rw [hb]
    exact not_mem_nil
  exact ⟨fun x hx => absurd hx (hnil x), fun hp => by cases hp⟩

/-- What the pass could not train would retire after the load it ended at. -/
theorem forwarded_trained (hd : c.disable2ndld = false)
    (h : (lsqMachine c).Reach s) (hx : s.commits x) (hfwd : (s.loads x).ifLdStFwd) :
    (s.loads x).train.doneLocPredUpdate := by
  have hi := inv_of_reach hm h
  obtain ⟨hsq, -, -, hex, -, hr⟩ := Life.retires_iff.mp (commits_life hx)
  have hq := commits_mem hx
  simp only [commits, Bool.and_eq_true, beq_iff_eq] at hx
  obtain ⟨⟨⟨hp, hhead⟩, -⟩, -⟩ := hx
  refine ((order_of_reach hm hd h).trained hp x hq hsq hex hfwd hr).resolve_right ?_
  rintro ⟨y, -, hlt, hrob, -⟩
  have hsorted := hi.rob.sorted
  obtain ⟨rest, hl⟩ := head?_eq_some_iff.mp hhead
  rw [hl] at hrob hsorted
  rcases mem_cons.mp hrob with rfl | hmem
  · exact Nat.lt_irrefl y hlt
  · exact Nat.lt_asymm hlt ((pairwise_cons.mp hsorted).1 y hmem)

end

/-- The access is one that trains the predictor. -/
def trainable (c : LsqConfig) (s : LsqUnit) : UnitEvent → Bool
  | .executeLoad x tr rd => !(s.loads x).untrained c (s.isHead x) tr rd
  | _ => true

end LsqUnit

/-- As long as no memory-mapped register is read, no prefetch faults and, without second loads, no
store forwards, every load that retires has trained the predictor once. -/
theorem retired_trained {c : LsqConfig} (hm : c.enableMLDOM = true)
    (hcontention : c.enableOblSContention = false) {s : LsqUnit}
    (h : (lsqMachine c).ReachWhen (fun s e => s.trainable c e = true) s) {x : Nat}
    (hx : s.commits x = true) :
    (s.loads x).train.doneLocPredUpdate = true ∧ (s.loads x).train.updates.length = 1 := by
  have hseen := ((LsqUnit.inv_of_reach hm h).queue x (LsqUnit.commits_mem hx)).1
  have hr := LsqUnit.commits_life hx
  have hlife : (loadMachine c).ReachWhen (fun a k => a.trainable c k = true) (s.life x) := by
    refine LsqUnit.life_reach hm (fun s e x a k hC hk => ?_) h x hseen
    cases hk with
    | execute tr rd => exact hC
    | load k hk => cases k <;> first | rfl | simp [LsqUnit.fromMemory, LsqUnit.fromStages] at hk
    | _ => rfl
  obtain ⟨hsq, -, -, hex, hf, -⟩ := Life.retires_iff.mp hr
  have htrains := (Life.trains_of_reach hm hlife).resolve_left (by simp [hsq])
  rcases Life.retired_cases (LsqUnit.stage_of_reach hm h hseen) hr with hd | ⟨-, hret⟩
  · obtain ⟨-, htrained, hfwd⟩ := htrains hd.plain.postFetch
    have hdone : (s.loads x).train.doneLocPredUpdate = true := by
      rcases htrained hex hf with hdone | hforwarded
      · exact hdone
      · cases h2 : c.disable2ndld with
        | true =>
          rw [hfwd h2] at hforwarded
          cases hforwarded
        | false => exact LsqUnit.forwarded_trained hm h2 h.reach hx hforwarded
    have hlen : (s.loads x).train.updates.length = _ := hd.train
    rw [show (s.life x).load.train.doneLocPredUpdate = true from hdone, if_pos rfl] at hlen
    exact ⟨hdone, hlen⟩
  · exact hret.train hcontention

/-! ### A load that needs no packet, up to its retirement -/

def eventRun (tr : Translation) (rd : ReadInput) : List UnitEvent :=
  twoLoads false ++ [.iewTick taken, .executeLoad 2 tr rd, .endCycle, .load 2 .writebackEvent] ++
    branchResolves ++ [.load 2 .setCanCommit, .rob .retireHead]

/-- A forwarded load is trained by the pass of the next cycle. -/
def forwardedRun : List UnitEvent := eventRun { lineLow := 1 } { forwarding := .full [1] }

theorem retired_trained_forwarded :
    ((afterUnit .greedy forwardedRun).loads 2).ifLdStFwd = true ∧
      ((afterUnit .greedy forwardedRun).loads 2).train.doneLocPredUpdate = true ∧
      ((afterUnit .greedy forwardedRun).loads 2).train.updates.length = 1 := by
  have hrun : (lsqMachine (sdoConfig .greedy)).run emptyUnit forwardedRun =
      some (afterUnit .greedy forwardedRun) := Machine.run_getD (by decide +kernel)
  exact ⟨by decide +kernel, retired_trained (c := sdoConfig .greedy) rfl rfl
    (.run (.start (emptyUnit_start _)) forwardedRun (by decide +kernel) hrun) (by decide +kernel)⟩

/-- The register's value is written back by an event that does not know the predictor. -/
def mmappedRun : List UnitEvent := eventRun { mmappedIpr := true } {}

theorem mmapped_retires_untrained :
    ¬∀ (c : LsqConfig) (s : LsqUnit) (x : Nat), c.enableMLDOM = true →
      c.enableOblSContention = false → (lsqMachine c).Reach s → s.commits x = true →
        (s.loads x).train.doneLocPredUpdate = true ∧ (s.loads x).train.updates.length = 1 := by
  intro h
  have hrun : (lsqMachine (sdoConfig .greedy)).run emptyUnit mmappedRun =
      some (afterUnit .greedy mmappedRun) := Machine.run_getD (by decide +kernel)
  have hdone := (h _ _ 2 rfl rfl (Machine.reach_run (emptyUnit_start _) hrun) (by decide +kernel)).1
  have hnot : ((afterUnit .greedy mmappedRun).loads 2).train.doneLocPredUpdate = false := by
    decide +kernel
  rw [hnot] at hdone
  cases hdone

end SdoCore
