import SdoCore.Lsq.OblLoad
import SdoCore.Lsq.Unit
import SdoCore.Pipeline.Cycle

/-! Taint and the accesses of the load/store unit.

Results:
* `only_untainted_loads`: a packet other than an oblivious read, or an update of the location
  predictor, is for a load without taint.
* `tlb_spec_when_tainted`: an instruction whose address is tainted reaches the data TLB with the
  SPEC flag, as long as no such store executes. -/

namespace SdoCore

open List
open Lib

namespace LsqUnit

variable {c : LsqConfig} {s s' : LsqUnit} {x : Nat}

/-! ## Packets and the location predictor -/

/-- A load that is not ready at the end of some steps was not ready before, and nothing of it
was seen outside. -/
theorem LifeSteps.quiet (hm : c.enableMLDOM) {e : UnitEvent} {a b : Life}
    (ha : a.load.Stage c a.ready) (h : LifeSteps c s x e a b) :
    b.load.Stage c b.ready ∧ (b.ready = false → b.load.outside = a.load.outside) := by
  induction h with
  | refl => exact ⟨ha, fun _ => rfl⟩
  | step _ _ hs _ ih =>
    obtain ⟨hst, hq⟩ := ih
    refine ⟨Life.stage_of_step hm hst hs, fun hr => ?_⟩
    obtain ⟨l, -, -, rfl⟩ := Life.step_cases hs
    have hr := (Bool.or_eq_false_iff.mp hr).1
    exact (Life.quiet_of_step hm hst hr hs).trans (hq hr)

/-- Only loads that were seen are touched. -/
theorem Inv.loads_of_unseen (hi : s.Inv c) {e : UnitEvent} (he : ∀ k, e ≠ .rob k)
    (hs : s.step c e = some s') (hx : x ∉ s'.seen) : s'.loads x = s.loads x := by
  rw [seen_of_step he hs] at hx
  have hqueue : x ∉ s.base.loadQueue := fun hq => hx (hi.queue x hq).1
  have hset {y : Nat} (l : LoadInst) (hy : y ∈ s.seen) :
      Function.update s.loads y l x = s.loads x :=
    Function.update_of_ne (ne_of_mem_of_not_mem hy hx).symm _ _
  cases stepped_of_step hs with
  | rob k => exact absurd rfl (he k)
  | insertLoad y _ _ _ _ _ _ hy => exact hset _ (hi.insts y hy)
  | iewTick answer d m _ _ hm => exact exposeLoads_of_notMem hm hqueue
  | executeLoad y tr rd l q _ hy => exact hset l (hi.queue y hy).1
  | load y k l _ hy => exact hset l hy
  | checkSnoop line external =>
    exact snoopLoads_of_notMem fun hq => hqueue (mem_of_mem_tail hq)
  | commitHead y r hy => exact hset _ (hi.queue y (commits_mem hy)).1
  | setSquashed y _ hy => exact hset _ (hi.queue y hy).1
  | squash n =>
    refine if_neg ?_
    simp [hqueue]
  | _ => rfl

/-- The taint of an instruction changes with the reorder buffer only. -/
theorem Inv.taint_of_step (hm : c.enableMLDOM) (hi : s.Inv c) {e : UnitEvent}
    (he : ∀ k, e ≠ .rob k) (hs : s.step c e = some s') (hx : x ∈ s.seen) :
    (s'.inst x).taintPropDone = (s.inst x).taintPropDone ∧
      (s'.inst x).isArgsTainted = (s.inst x).isArgsTainted := by
  cases stepped_of_step hs with
  | rob k => exact absurd rfl (he k)
  | iewTick answer d m _ hd =>
    obtain ⟨h1, h2, -⟩ := hi.visible hm hd hx
    exact ⟨h1, h2⟩
  | commitHead y r _ _ hr =>
    exact (kept_of_robStep (e := .retireHead) hi.rob rfl (fun he => by cases he) hr
      fun _ he => by cases he).2
  | _ => exact ⟨rfl, rfl⟩

end LsqUnit

/-- Whatever is seen of a load outside the core, other than oblivious reads, is of a load whose
taint is computed and whose arguments are not tainted. -/
theorem only_untainted_loads {c : LsqConfig} (hm : c.enableMLDOM = true) (hstt : c.stt = true)
    {s s' : LsqUnit} (h : (lsqMachine c).Reach s) {e : UnitEvent}
    (hs : (lsqMachine c).step s e = some s') (x : Nat)
    (hx : (s'.loads x).outside ≠ (s.loads x).outside) :
    (s.inst x).taintPropDone = true ∧ (s.inst x).isArgsTainted = false := by
  have hi := LsqUnit.inv_of_reach hm h
  have hnot : ∀ k, e ≠ .rob k := by
    rintro k rfl
    cases LsqUnit.stepped_of_step hs
    exact hx rfl
  have hseen : x ∈ s'.seen := Classical.byContradiction fun hno =>
    hx (congrArg LoadInst.outside (hi.loads_of_unseen hnot hs hno))
  rcases LsqUnit.life_of_step hm hi hs hseen with ⟨⟨_, _, _, _, hstart⟩, hborn⟩ | ⟨hxs, hsteps⟩
  · have hload : s'.loads x = _ := congrArg Life.load hstart
    rw [hload, hborn] at hx
    exact absurd rfl hx
  · have hquiet := (hsteps.quiet hm (LsqUnit.stage_of_reach hm h hxs)).2
    have hready : s'.ready x = true := by
      by_contra hr
      exact hx (hquiet (Bool.eq_false_iff.mpr hr))
    obtain ⟨hd, ha⟩ := (hi.step hm hs).untainted hstt x hseen hready
    obtain ⟨hd', ha'⟩ := hi.taint_of_step hm hnot hs hxs
    exact ⟨hd'.symm.trans hd, ha'.symm.trans ha⟩

/-! ### A load whose address comes from a load behind an unresolved branch -/

def emptyUnit : LsqUnit where
  base := emptyRobLsq

theorem emptyUnit_start (c : LsqConfig) : (lsqMachine c).start emptyUnit :=
  ⟨emptyRobLsq, ⟨⟨rfl, rfl, rfl⟩, rfl⟩, rfl⟩

/-- A branch, a load and an instruction that uses what the load returns. -/
def behindBranch (user : StaticInst) (srcs : List SrcReg) : List UnitEvent :=
  [.rob (.insertInst 1 { staticInst := branchInst, srcs := [], dests := [] }),
    .rob (.insertInst 2 { staticInst := loadInst, srcs := [], dests := [⟨⟨.intRegClass, 0⟩, 40⟩] }),
    .rob (.insertInst 3 { staticInst := user, srcs := srcs, dests := [] }),
    .rob .cycle, .insertLoad 2 false false false false]

/-- The register the first load writes. -/
def loadedReg : SrcReg := ⟨⟨.intRegClass, 0⟩, ⟨.intRegClass, 0⟩, 40, none⟩

/-- Every packet is taken. -/
def taken : Nat → Bool × Bool := fun _ => (true, true)

/-- The first load is executed, and its data comes back. -/
def firstLoadReads : List UnitEvent :=
  [.iewTick taken, .executeLoad 2 { lineLow := 1 } {}, .endCycle,
    .load 2 (.readResponse .low { hits := { l0 := true } })]

def afterUnit (pred : PredType) (es : List UnitEvent) : LsqUnit :=
  ((lsqMachine (sdoConfig pred)).run emptyUnit es).getD emptyUnit

/-- Two loads in the queue, of which the second depends on the first. -/
def twoLoads (isSplit : Bool) : List UnitEvent :=
  behindBranch loadInst [loadedReg] ++ [.insertLoad 3 isSplit false false false]

/-- The read of the first load is for a load without taint; the second load is tainted. -/
theorem only_untainted_loads_first :
    let s := afterUnit .greedy (twoLoads false ++ [.iewTick taken])
    ((s.inst 2).taintPropDone = true ∧ (s.inst 2).isArgsTainted = false) ∧
      (s.inst 3).isArgsTainted = true := by
  have hrun : (lsqMachine (sdoConfig .greedy)).run emptyUnit (twoLoads false ++ [.iewTick taken]) =
      some (afterUnit .greedy (twoLoads false ++ [.iewTick taken])) :=
    Machine.run_getD (by decide +kernel)
  obtain ⟨s', hs⟩ : ∃ s', (lsqMachine (sdoConfig .greedy)).step
      (afterUnit .greedy (twoLoads false ++ [.iewTick taken]))
      (.executeLoad 2 { lineLow := 1 } {}) =
        some s' := Option.isSome_iff_exists.mp (by decide +kernel)
  refine ⟨only_untainted_loads rfl rfl (Machine.reach_run (emptyUnit_start _) hrun) hs 2 ?_,
    by decide +kernel⟩
  have hs' : s' = ((lsqMachine (sdoConfig .greedy)).step
      (afterUnit .greedy (twoLoads false ++ [.iewTick taken]))
        (.executeLoad 2 { lineLow := 1 } {})).getD emptyUnit := by rw [hs, Option.getD_some]
  rw [hs']
  decide +kernel

/-! ## Translations -/

/-- The store's address is known to be without taint when it executes. -/
def LsqUnit.storesUntainted (s : LsqUnit) : UnitEvent → Bool
  | .executeStore x _ => (s.inst x).taintPropDone && !(s.inst x).isAddrTainted
  | _ => true

/-- The SPEC flag is on what may leak. -/
def TlbReq.safe (q : TlbReq) : Prop :=
  q.isAddrTainted = true ∨ q.taintPropDone = false → q.spec = true

instance (q : TlbReq) : Decidable q.safe := inferInstanceAs (Decidable (_ → _))

namespace LsqUnit

variable {c : LsqConfig} {s s' : LsqUnit} {x : Nat}

/-- A load asks for a speculative translation unless it is ready. -/
theorem Inv.tlbReq_safe (hstt : c.stt) (htlb : c.tlbDefense = 3) (hi : s.Inv c)
    (hx : x ∈ s.base.rob.instList) : (s.tlbReq x (reqSpec c (s.ready x))).safe := by
  intro hq
  cases hr : s.ready x with
  | false => simp [tlbReq, reqSpec, htlb]
  | true =>
    obtain ⟨hd, ha⟩ := hi.untainted hstt x (hi.insts x hx) hr
    rcases hq with hq | hq
    · rw [hi.addr hstt x hx hd hq] at ha
      cases ha
    have hq : (s.inst x).taintPropDone = false := hq
    rw [hd] at hq
    cases hq

theorem translations_of_step {e : UnitEvent} (hs : s.step c e = some s') {q : TlbReq}
    (hq : q ∈ s'.translations) : q ∈ s.translations ∨
      (∃ y ∈ s.base.rob.instList, q = s.tlbReq y (reqSpec c (s.ready y))) ∨
      ∃ y split, e = .executeStore y split ∧ q = s.tlbReq y false := by
  cases stepped_of_step hs with
  | executeLoad y tr rd l r _ _ hy _ _ hr =>
    rcases mem_append.mp hq with hq | hq
    · exact .inl hq
    · exact .inr (.inl ⟨y, hy, hr q hq⟩)
  | executeStore y split =>
    rcases mem_append.mp hq with hq | hq
    · exact .inl hq
    · exact .inr (.inr ⟨y, split, rfl, eq_of_mem_replicate hq⟩)
  | _ => exact .inl hq

end LsqUnit

/-- As long as no store executes whose address is tainted, or whose taint is not computed yet,
every translation for such an instruction carries the SPEC flag. -/
theorem tlb_spec_when_tainted {c : LsqConfig} (hm : c.enableMLDOM = true) (hstt : c.stt = true)
    (htlb : c.tlbDefense = 3) {s : LsqUnit}
    (h : (lsqMachine c).ReachWhen (fun s e => s.storesUntainted e = true) s) :
    ∀ q ∈ s.translations, q.isAddrTainted = true ∨ q.taintPropDone = false → q.spec = true := by
  suffices hall : s.Inv c ∧ ∀ q ∈ s.translations, q.safe from hall.2
  refine h.invariant (I := fun s => s.Inv c ∧ ∀ q ∈ s.translations, q.safe) (fun s hs => ?_)
    (fun s e s' ⟨hi, hq⟩ hC hs => ⟨hi.step hm hs, fun q hmem => ?_⟩)
  · refine ⟨.start hs, ?_⟩
    obtain ⟨b, -, rfl⟩ := hs
    exact nofun
  · rcases LsqUnit.translations_of_step hs hmem with hold | ⟨y, hy, rfl⟩ | ⟨y, split, rfl, rfl⟩
    · exact hq q hold
    · exact hi.tlbReq_safe hstt htlb hy
    simp only [LsqUnit.storesUntainted, Bool.and_eq_true, Bool.not_eq_true'] at hC
    rintro (ht | ht)
    · exact absurd (ht.symm.trans hC.2) (by simp)
    · exact absurd (ht.symm.trans hC.1) (by simp)

/-- A register that no load behind the branch writes. -/
def cleanReg : SrcReg := ⟨⟨.intRegClass, 1⟩, ⟨.intRegClass, 1⟩, 41, none⟩

/-- The two loads and a store whose address is not tainted are translated; the tainted load with the
flag, both halves of it. -/
def translateLoads : List UnitEvent :=
  twoLoads true ++ firstLoadReads ++
    [.rob (.insertInst 4 { staticInst := storeInst, srcs := [loadedReg, cleanReg], dests := [] }),
      .rob .cycle, .iewTick taken, .executeStore 4 false,
      .executeLoad 3 { lineLow := 2, lineHigh := 3 } {}]

theorem tlb_spec_twoLoads :
    (∀ q ∈ (afterUnit .greedy translateLoads).translations,
      q.isAddrTainted = true ∨ q.taintPropDone = false → q.spec = true) ∧
      (afterUnit .greedy translateLoads).translations.map (·.isAddrTainted) =
        [false, false, true, true] := by
  have hrun : (lsqMachine (sdoConfig .greedy)).run emptyUnit translateLoads =
      some (afterUnit .greedy translateLoads) := Machine.run_getD (by decide +kernel)
  refine ⟨tlb_spec_when_tainted (c := sdoConfig .greedy) rfl rfl rfl
    (.run (.start (emptyUnit_start _)) translateLoads (by decide +kernel) hrun), by decide +kernel⟩

/-- A store to an address that depends on a speculative load. -/
def translateStore : List UnitEvent :=
  behindBranch storeInst [cleanReg, loadedReg] ++ firstLoadReads ++
    [.iewTick taken, .executeStore 3 false]

/-- The store's tainted address reaches the data TLB as that of an ordinary access. -/
theorem tlb_tainted_store :
    ¬∀ (c : LsqConfig) (s : LsqUnit), c.stt = true → c.enableMLDOM = true → c.tlbDefense = 3 →
      (lsqMachine c).Reach s →
        ∀ q ∈ s.translations, q.isAddrTainted = true ∨ q.taintPropDone = false → q.spec = true := by
  intro h
  have hrun : (lsqMachine (sdoConfig .greedy)).run emptyUnit translateStore =
      some (afterUnit .greedy translateStore) := Machine.run_getD (by decide +kernel)
  have hall := h _ _ rfl rfl rfl (Machine.reach_run (emptyUnit_start _) hrun)
  have hmem : (⟨false, true, true⟩ : TlbReq) ∈ (afterUnit .greedy translateStore).translations := by
    decide +kernel
  exact absurd (hall _ hmem (.inl rfl)) (by decide)

end SdoCore
