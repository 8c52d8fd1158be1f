import SdoCore.Pipeline.Tick

/-! Fetch and the branch predictor (`fetch_impl.hh`). What commit sends reaches fetch at
least one cycle later, over a line as long as the configured delay. Fetch puts off the
correction of the predictor for a branch whose arguments are tainted when the signal is
handled, in a list of its own.

Main result: the branch of a misprediction signal was untainted when commit sent it, taint
does not come back, so the list stays empty and the predictor is corrected on behalf of
commit for untainted branches only. -/

namespace SdoCore

open List
open Rob Lib
open Option (bind_eq_some_iff map_eq_some_iff)

structure DelayedSquashReq where
  mispInst : Nat
  doneSeqNum : Nat
  pc : PCState
  branchTaken : Bool
  deriving DecidableEq

/-- The squash fields of decode's signal. `commitDone` is the `doneSeqNum` of commit in the
same entry of the time buffer. -/
structure DecodeSquash where
  branchMispredict : Bool
  doneSeqNum : Nat
  nextPC : PCState
  branchTaken : Bool
  commitDone : Nat
  deriving DecidableEq

/-- On whose behalf the predictor is corrected; for commit, the branch and whether its
arguments were tainted at the call. -/
inductive Behalf
  | commit (inst : Nat) (tainted : Bool)
  | decode
  deriving DecidableEq

inductive PredictorCall
  | squash (doneSeqNum : Nat)
  | correct (behalf : Behalf) (doneSeqNum : Nat) (pc : PCState) (taken : Bool)
  | update (doneSeqNum : Nat)
  deriving DecidableEq

/-- `calls` is history. -/
structure Fetch where
  delayedSquashReqList : List DelayedSquashReq := []
  calls : List PredictorCall := []
  deriving DecidableEq

namespace Fetch

def call (f : Fetch) (p : PredictorCall) : Fetch := { f with calls := f.calls ++ [p] }

def squashReqs (r : Rob) (n : Nat) (f : Fetch) : Fetch :=
  { f with delayedSquashReqList := f.delayedSquashReqList.filter fun q =>
      !(r.insts q.mispInst).squashed && decide (q.doneSeqNum < n) }

def untainted (r : Rob) (q : DelayedSquashReq) : Bool := !(r.insts q.mispInst).isArgsTainted

/-- A squash signal of commit. -/
def squashFromCommit (c : Config) (r : Rob) (info : CommitInfo) (f : Fetch) : Fetch :=
  match info.mispredictInst.filter fun x => (r.insts x).staticInst.isControl with
  | some x =>
    if c.stt && c.impChannel && (r.insts x).isArgsTainted then
      { f with delayedSquashReqList := f.delayedSquashReqList ++
          [⟨x, info.doneSeqNum, info.pc, info.branchTaken⟩] }
    else
      (f.call (.correct (.commit x (r.insts x).isArgsTainted) info.doneSeqNum info.pc
        info.branchTaken)).squashReqs r info.doneSeqNum
  | none => (f.call (.squash info.doneSeqNum)).squashReqs r info.doneSeqNum

/-- Without a signal of commit, the first request whose branch has become untainted. -/
def resolveDelayed (c : Config) (r : Rob) (f : Fetch) : Option Fetch :=
  if f.delayedSquashReqList.isEmpty then some f
  else if c.stt && c.impChannel then
    some (match f.delayedSquashReqList.find? (untainted r) with
      | none => f
      | some q =>
        let f := { f.call (.correct (.commit q.mispInst (r.insts q.mispInst).isArgsTainted)
            q.doneSeqNum q.pc q.branchTaken) with
          delayedSquashReqList := f.delayedSquashReqList.eraseP (untainted r) }
        if q.doneSeqNum = 0 then f else f.squashReqs r q.doneSeqNum)
  else none

def squashFromDecode (r : Rob) (d : DecodeSquash) (f : Fetch) : Fetch :=
  (f.call (if d.branchMispredict then .correct .decode d.doneSeqNum d.nextPC d.branchTaken
    else .squash d.doneSeqNum)).squashReqs r d.commitDone

/-- `none` is a failed assertion. -/
def checkSignalsAndUpdate (c : Config) (r : Rob) (info : CommitInfo) (dec : Option DecodeSquash)
    (f : Fetch) : Option Fetch :=
  if info.squash then some (f.squashFromCommit c r info)
  else
    (if info.doneSeqNum = 0 then f.resolveDelayed c r
      else some ((f.call (.update info.doneSeqNum)).squashReqs r info.doneSeqNum)).map fun f =>
      match dec with
      | none => f
      | some d => f.squashFromDecode r d

end Fetch

/-! ## The machine -/

/-- The core with fetch; `line` holds what commit sent and fetch has not seen yet, oldest
first. -/
structure FetchCore where
  core : Core
  fetch : Fetch
  line : List CommitInfo

structure FetchIn where
  cycle : CycleIn
  decode : Option DecodeSquash

namespace FetchCore

/-- Fetch ticks first, commit last. -/
def cycle (c : Config) (s : FetchCore) (i : FetchIn) : Option FetchCore :=
  match s.line with
  | [] => none
  | info :: rest =>
    (s.fetch.checkSignalsAndUpdate c s.core.rob info i.decode).bind fun f =>
      (s.core.cycle c i.cycle).map fun t => ⟨t, f, rest ++ [t.toIEW]⟩

/-- The line is as long as `commitToFetchDelay`. -/
structure Start (commitToFetchDelay : Nat) (s : FetchCore) : Prop where
  core : s.core.Start
  fetch : s.fetch = {}
  line : s.line = List.replicate commitToFetchDelay {}

end FetchCore

def fetchMachine (c : Config) (commitToFetchDelay : Nat) : Machine FetchCore FetchIn where
  start := FetchCore.Start commitToFetchDelay
  step := FetchCore.cycle c

theorem FetchCore.cycle_eq_some {c : Config} {s s' : FetchCore} {i : FetchIn}
    (h : s.cycle c i = some s') : ∃ info rest f t, s.line = info :: rest ∧
      s.fetch.checkSignalsAndUpdate c s.core.rob info i.decode = some f ∧
      s.core.cycle c i.cycle = some t ∧ s' = ⟨t, f, rest ++ [t.toIEW]⟩ := by
  unfold FetchCore.cycle at h
  split at h
  · cases h
  rename_i info rest hl
  obtain ⟨f, hf, h⟩ := bind_eq_some_iff.mp h
  obtain ⟨t, ht, rfl⟩ := map_eq_some_iff.mp h
  exact ⟨info, rest, f, t, hl, hf, ht, rfl⟩

/-! ## What commit sends -/

namespace Core

variable {c : Config} {s s' : Core} {i : CommitIn}

theorem ownSquash_mispredictInst (h : s.ownSquash c = some s')
    (hs : s.toIEW.mispredictInst = none) : s'.toIEW.mispredictInst = none := by
  have hall : ∀ {x : Option Nat} {t : Core}, s.squashAll c x = some t →
      t.toIEW.mispredictInst = none := by
    intro x t ht
    obtain ⟨r, -, rfl⟩ := map_eq_some_iff.mp ht
    rfl
  unfold ownSquash at h
  split at h
  · split at h
    · cases h
    · obtain ⟨t, ht, rfl⟩ := map_eq_some_iff.mp h
      simpa using hall ht
  · split at h
    · split at h
      · cases h
      unfold squashFromTC at h
      split at h
      · cases h
      · obtain ⟨t, ht, rfl⟩ := map_eq_some_iff.mp h
        simpa using hall ht
    · split at h
      · obtain ⟨t, ht, rfl⟩ := map_eq_some_iff.mp h
        simpa using hall ht
      · cases h
        exact hs

theorem beforeChoice_mispredictInst (h : s.beforeChoice c i = some s') :
    s'.toIEW.mispredictInst = none := by
  obtain ⟨s₁, -, h⟩ := bind_eq_some_iff.mp h
  obtain ⟨s₂, h₂, h₃⟩ := bind_eq_some_iff.mp h
  refine ownSquash_mispredictInst h₃ ?_
  unfold continueSquash at h₂
  split at h₂
  · split at h₂
    · cases h₂
      rfl
    · obtain ⟨r, -, rfl⟩ := map_eq_some_iff.mp h₂
      rfl
  · cases h₂
    rfl

theorem getInsts_toIEW {l : List (Nat × DynInst)} (h : s.getInsts c l = some s') :
    s'.toIEW = s.toIEW := by
  induction l generalizing s with
  | nil =>
    cases h
    rfl
  | cons p l ih =>
    unfold getInsts at h
    split at h
    · split at h
      · obtain ⟨r, -, h⟩ := bind_eq_some_iff.mp h
        have := ih h
        exact this
      · rw [ih h, leaveOut]
        split <;> rfl
    · cases h

theorem commitHead_toIEW {h n : Nat} {b : Bool} (hr : commitHead c i s h n = some (s', b)) :
    s'.toIEW = s.toIEW := by
  unfold commitHead at hr
  dsimp only at hr
  repeat' split at hr
  all_goals first
    | cases hr; done
    | (cases hr; rfl)
    | (obtain ⟨r, -, hr⟩ := map_eq_some_iff.mp hr; cases hr; rfl)

theorem afterCommit_mispredictInst (h : Nat) (inst : DynInst) :
    (s.afterCommit i h inst).toIEW.mispredictInst = s.toIEW.mispredictInst := by
  unfold afterCommit
  split <;> rfl

theorem commitLoop_mispredictInst {n fuel : Nat} (h : commitLoop c i s n fuel = some s') :
    s'.toIEW.mispredictInst = s.toIEW.mispredictInst := by
  induction fuel generalizing s n with
  | zero =>
    cases h
    rfl
  | succ fuel ih =>
    unfold commitLoop at h
    split at h
    · -- an interrupt on an empty buffer changes the status only
      generalize hs₁ : (if i.interrupt && s.rob.instList.isEmpty then s.trap else s) = s₁ at h
      have hto : s₁.toIEW = s.toIEW := by
        rw [← hs₁]
        split <;> rfl
      rw [← hto]
      dsimp only at h
      split at h
      · cases h
        rfl
      split at h
      · cases h
        rfl
      split at h
      · obtain ⟨r, -, h⟩ := bind_eq_some_iff.mp h
        have := ih h
        exact this
      · obtain ⟨⟨t, b⟩, ht, h⟩ := bind_eq_some_iff.mp h
        have hhead := commitHead_toIEW ht
        split at h
        · split at h
          · cases h
            rw [afterCommit_mispredictInst, hhead]
          · rw [ih h, afterCommit_mispredictInst, hhead]
        · cases h
          rw [hhead]
    · cases h
      rfl

theorem markCompletedInsts_toIEW (s : Core) : (s.markCompletedInsts c).toIEW = s.toIEW := by
  obtain ⟨-, heq, -⟩ := markCompleted_spec s s.fromIEW.insts
  unfold markCompletedInsts
  rw [heq]

theorem afterChoice_mispredictInst (h : s.afterChoice c i = some s') :
    s'.toIEW.mispredictInst = s.toIEW.mispredictInst := by
  obtain ⟨t, ht, rfl⟩ := map_eq_some_iff.mp h
  rw [markCompletedInsts_toIEW]
  split at ht
  · cases ht
    rfl
  · obtain ⟨u, hu, ht⟩ := bind_eq_some_iff.mp ht
    rw [commitLoop_mispredictInst ht, getInsts_toIEW hu]

/-- Commit names an instruction as mispredicted only if its arguments are untainted. -/
theorem applyChoice_mispredictInst {x : Nat} (hstt : c.stt) (himp : c.impChannel) (hl : s.Hears)
    (hs : s.toIEW.mispredictInst = none) (h : s.applyChoice c (s.squashChoice c) = some s')
    (hx : s'.toIEW.mispredictInst = some x) :
    x ∈ s.rob.instList ∧ (s.rob.insts x).redirects ∧
      (s.rob.insts x).isArgsTainted = false := by
  cases hch : s.squashChoice c with
  | nothing =>
    rw [hch] at h
    cases h
    rw [hs] at hx
    cases hx
  | delay sig =>
    rw [hch] at h
    cases h
    change s.toIEW.mispredictInst = some x at hx
    rw [hs] at hx
    cases hx
  | fromIEW sig =>
    rw [hch] at h
    obtain ⟨hsig, ht, hclean⟩ := fromIEW_spec hstt himp hch
    have hlatch := hl sig hsig ht
    obtain ⟨t, hst, rfl⟩ := map_eq_some_iff.mp h
    obtain ⟨r, -, rfl⟩ := map_eq_some_iff.mp hst
    obtain ⟨rfl, hcause⟩ := hlatch.own x hx
    exact ⟨hlatch.mem, hlatch.branch hcause, hlatch.inst ▸ hclean⟩
  | fromROB y =>
    rw [hch] at h
    obtain ⟨hmem, -, -, hclean⟩ := fromROB_spec hch
    have hm := setPending_marks s y false
    change (s.setPending y false).handleSquashSignalFromROB c y = some s' at h
    unfold handleSquashSignalFromROB at h
    dsimp only at h
    split at h
    · cases h
    obtain ⟨t, ht, rfl⟩ := map_eq_some_iff.mp h
    obtain ⟨r, -, rfl⟩ := map_eq_some_iff.mp ht
    dsimp only at hx
    rw [hm.staticInst] at hx
    split at hx
    · next hctl =>
      cases hx
      exact ⟨hmem, DynInst.redirects_of_isControl hctl, hclean⟩
    · cases hx

variable {j : CycleIn} {w : Iew} {s₂ s₃ t s₄ : Core} {x : Nat}

/-- The instruction that commit names at the end of a cycle is untainted. -/
theorem Inv.mispredictInst (hstt : c.stt) (himp : c.impChannel) (h : Inv c s)
    (hp : Parts c s j s' w s₂ s₃ t s₄) (hx : s'.toIEW.mispredictInst = some x) :
    x ≤ s'.globalSeqNum ∧ (s'.rob.insts x).redirects ∧
      (s'.rob.insts x).isArgsTainted = false := by
  have htick := hp.tick
  have hb := htick.before
  have hx₃ : s₃.toIEW.mispredictInst = some x := by
    rw [← afterChoice_mispredictInst htick.finishes]
    rw [hp.eq] at hx
    exact hx
  obtain ⟨hmem, hre, hclean⟩ := applyChoice_mispredictInst hstt himp htick.hears
    (beforeChoice_mispredictInst htick.starts) htick.applies hx₃
  have hpass : Passes (s.afterIew w).rob s₂.rob := .of_takes hb.takes
  have htop : x ≤ s.globalSeqNum := h.mid.top x (hpass.instList ▸ hmem)
  refine ⟨?_, ?_, ?_⟩
  · rw [hp.eq]
    exact Nat.le_trans htop htick.global_le
  · rw [hp.eq]
    exact ((htick.redirects htop).trans (congrArg DynInst.redirects (hpass.fixed x) :).symm).trans
      hre
  · refine Bool.eq_false_iff.mpr fun hta => Bool.eq_false_iff.mp hclean ?_
    rw [hpass.isArgsTainted]
    exact (hp.spec.frame.isArgsTainted x).trans ((h.taint hp htop).1 hta)

end Core

/-! ## Fetch -/

namespace FetchCore

variable {c : Config} {s s' : FetchCore}

/-- The signal names, if anything, an untainted instruction. -/
def Clean (t : Core) (info : CommitInfo) : Prop :=
  ∀ x, info.mispredictInst = some x → x ≤ t.globalSeqNum ∧
    (t.rob.insts x).redirects = true ∧ (t.rob.insts x).isArgsTainted = false

/-- The call is not a correction for a tainted branch. -/
def Untainted (p : PredictorCall) : Prop :=
  ∀ x tainted n pc taken, p = .correct (.commit x tainted) n pc taken → tainted = false

structure Inv (c : Config) (s : FetchCore) : Prop where
  core : s.core.Inv c
  line : ∀ info ∈ s.line, Clean s.core info
  none : s.fetch.delayedSquashReqList = []
  calls : ∀ p ∈ s.fetch.calls, Untainted p

theorem Clean.cycle {i : CycleIn} {t t' : Core} {info : CommitInfo} (hstt : c.stt)
    (himp : c.impChannel) (h : t.Inv c) (hr : t.cycle c i = some t') (hc : Clean t info) :
    Clean t' info := by
  obtain ⟨w, s₂, s₃, u, s₄, hp⟩ := h.parts hstt himp hr
  intro x hx
  obtain ⟨hle, hre, hclean⟩ := hc x hx
  refine ⟨?_, ?_, Bool.eq_false_iff.mpr fun hta => ?_⟩
  · rw [hp.eq]
    exact Nat.le_trans hle hp.tick.global_le
  · rw [hp.eq]
    exact ((hp.tick.redirects hle).trans
      (congrArg DynInst.redirects (hp.spec.frame.fixed x) :)).trans
      hre
  · exact Bool.eq_false_iff.mp hclean ((h.taint hp hle).1 hta)

theorem squashReqs_nil (r : Rob) (n : Nat) {f : Fetch} (h : f.delayedSquashReqList = []) :
    f.squashReqs r n = f := by
  cases f
  cases h
  rfl

theorem mem_call {f : Fetch} {p : PredictorCall} (hf : ∀ q ∈ f.calls, Untainted q)
    (hp : Untainted p) : ∀ q ∈ (f.call p).calls, Untainted q := by
  intro q hq
  rcases mem_append.mp hq with hq | hq
  · exact hf q hq
  · rw [mem_singleton.mp hq]
    exact hp

/-- Handling a clean signal queues nothing. -/
theorem checkSignals_clean {t : Core} {info : CommitInfo} {d : Option DecodeSquash} {f f' : Fetch}
    (hc : Clean t info) (hn : f.delayedSquashReqList = []) (hf : ∀ q ∈ f.calls, Untainted q)
    (h : f.checkSignalsAndUpdate c t.rob info d = some f') :
    f'.delayedSquashReqList = [] ∧ ∀ q ∈ f'.calls, Untainted q := by
  have hsq : ∀ {p : PredictorCall} {n : Nat}, Untainted p →
      ((f.call p).squashReqs t.rob n).delayedSquashReqList = [] ∧
        ∀ q ∈ ((f.call p).squashReqs t.rob n).calls, Untainted q := by
    intro p n hp
    rw [squashReqs_nil t.rob n (f := f.call p) hn]
    exact ⟨hn, mem_call hf hp⟩
  unfold Fetch.checkSignalsAndUpdate at h
  split at h
  · cases h
    unfold Fetch.squashFromCommit
    split
    · next x hx =>
      have hclean := (hc x (Option.filter_eq_some_iff.mp hx).1).2.2
      rw [hclean, Bool.and_false, if_neg (by simp)]
      refine hsq fun y b n pc taken he => ?_
      cases he
      rfl
    · exact hsq nofun
  · obtain ⟨f₁, h₁, rfl⟩ := map_eq_some_iff.mp h
    have hf₁ : f₁.delayedSquashReqList = [] ∧ ∀ q ∈ f₁.calls, Untainted q := by
      split at h₁
      · unfold Fetch.resolveDelayed at h₁
        rw [hn] at h₁
        cases h₁
        exact ⟨hn, hf⟩
      · cases h₁
        exact hsq nofun
    cases d with
    | none => exact hf₁
    | some d =>
      dsimp only
      unfold Fetch.squashFromDecode
      rw [squashReqs_nil t.rob d.commitDone (f := f₁.call _) hf₁.1]
      refine ⟨hf₁.1, mem_call hf₁.2 ?_⟩
      split <;> nofun

theorem Inv.cycle {i : FetchIn} (hstt : c.stt) (himp : c.impChannel) (h : Inv c s)
    (hr : s.cycle c i = some s') : Inv c s' := by
  obtain ⟨info, rest, f, t, hl, hf, ht, rfl⟩ := cycle_eq_some hr
  have hinfo : Clean s.core info := h.line info (by rw [hl]; simp)
  obtain ⟨hnone, hcalls⟩ := checkSignals_clean hinfo h.none h.calls hf
  refine ⟨h.core.cycle hstt himp ht, fun m hm => ?_, hnone, hcalls⟩
  rcases mem_append.mp hm with hm | hm
  · exact Clean.cycle hstt himp h.core ht (h.line m (by rw [hl]; exact mem_cons_of_mem _ hm))
  obtain ⟨w, s₂, s₃, u, s₄, hp⟩ := h.core.parts hstt himp ht
  rw [mem_singleton.mp hm]
  exact fun x hx => h.core.mispredictInst hstt himp hp hx

theorem Inv.start {d : Nat} (h : s.Start d) : Inv c s := by
  refine ⟨.start h.core, fun m hm => ?_, by rw [h.fetch], by rw [h.fetch]; nofun⟩
  rw [h.line] at hm
  rw [(mem_replicate.mp hm).2]
  nofun

end FetchCore

/-- With `STT` and `impChannel`, every instruction of a misprediction signal on its way to
fetch, the one that fetch handles next among them, is untainted: a branch, or the no-op of a
fault, for which fetch corrects nothing. No request is ever put off, and commit's
corrections of the predictor were all for branches untainted at the call. -/
theorem untainted_corrections {c : Config} (hstt : c.stt = true) (himp : c.impChannel = true)
    {commitToFetchDelay : Nat} {s : FetchCore} (h : (fetchMachine c commitToFetchDelay).Reach s) :
    (∀ info ∈ s.line, ∀ x, info.mispredictInst = some x →
        ((s.core.rob.insts x).staticInst.isControl = true ∨
          (s.core.rob.insts x).isFetchFault = true) ∧
          (s.core.rob.insts x).isArgsTainted = false) ∧
      s.fetch.delayedSquashReqList = [] ∧
      ∀ x tainted n pc taken, .correct (.commit x tainted) n pc taken ∈ s.fetch.calls →
        tainted = false := by
  have hinv : FetchCore.Inv c s :=
    h.invariant (fun _ hs => .start hs) fun _ _ _ hi _ hs => hi.cycle hstt himp hs
  refine ⟨fun info hm x hx => ?_, hinv.none, fun x b n pc taken hm => ?_⟩
  · obtain ⟨-, hre, hclean⟩ := hinv.line info hm x hx
    exact ⟨Bool.or_eq_true _ _ ▸ hre, hclean⟩
  · exact hinv.calls _ hm x b n pc taken rfl

/-- A branch is mispredicted; fetch is told two cycles after it executed. -/
def branchRun : List FetchIn :=
  [{ commit := { renamed := [(1, renamed branchInst [] [])] } }, { dispatched := [1] },
    { execs := [⟨1, .computed { npc := 100 } false⟩] }, {}, {}].map fun i => ⟨i, none⟩

def emptyFetch : FetchCore := ⟨emptyCore, {}, [{}]⟩

theorem emptyFetch_start : emptyFetch.Start 1 := ⟨emptyCore_start, rfl, rfl⟩

def fetchAfter (es : List FetchIn) : FetchCore :=
  ((fetchMachine spectreConfig 1).run emptyFetch es).getD emptyFetch

theorem untainted_corrections_branch :
    (fetchAfter branchRun).fetch.calls =
        [.correct (.commit 1 false) 1 { pc := 100, npc := 108, nupc := 0 } true] ∧
      (fetchAfter branchRun).fetch.delayedSquashReqList = [] := by
  have hreach : (fetchMachine spectreConfig 1).Reach (fetchAfter branchRun) :=
    Machine.reach_run emptyFetch_start (Machine.run_getD (by decide +kernel))
  exact ⟨by decide +kernel, (untainted_corrections rfl rfl hreach).2.1⟩

end SdoCore
