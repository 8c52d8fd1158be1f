import SdoCore.Lib.Machine
import SdoCore.Lsq.Expose
import SdoCore.Lsq.Responses

/-! The life of one oblivious load from the cycle in which its request is accepted until it is
squashed: responses to the oblivious request, responses to the second access, passes of
`exposeLoads` before and after the load is safe, and invalidations, in any order.

Results:
* `inv_of_reach`: the load is coherent in every state reached.
* `obl_load_total`: whatever comes next is handled, and the load is written back at most once. -/

namespace SdoCore

open Lib

/-- `ready` is `readyToExpose`; `miss`: the load is `oblsMissInst`. -/
structure OblLoad where
  load : LoadInst
  ready : Bool := false
  miss : Bool := false
  deriving DecidableEq

inductive OblEvent
  | oblResponse (h : Half) (p : OblPkt)
  | postResponse (h : Half) (p : RespPkt)
  | staleResponse (p : RespPkt)
  | becomeReady
  | exposeLoads (fst snd : Bool)
  | checkSnoop
  | getOblsMissInst
  deriving DecidableEq

namespace OblLoad

/-- What the memory system and the rest of the core may do. -/
def enabled (c : LsqConfig) (s : OblLoad) : OblEvent → Bool
  | .oblResponse h p => s.load.mayReceive c h p
  | .postResponse h _ => s.load.second.post.any (·.awaits h)
  | .staleResponse _ => 0 < s.load.second.staleResponses
  | .getOblsMissInst => s.miss
  | _ => true

/-- The handlers; `none` is a failed assertion or a missing case. -/
def handle (c : LsqConfig) (s : OblLoad) : OblEvent → Option OblLoad
  | .oblResponse h p => (s.load.completeOblS c s.ready h p).map fun l => { s with load := l }
  | .postResponse h p => s.load.second.post.bind fun q =>
    (s.load.completePost c s.ready q h p).map fun l => { s with load := l }
  | .staleResponse p => some { s with load := s.load.completeStale p }
  | .becomeReady => some { s with ready := true }
  | .exposeLoads fst snd =>
    -- the loop ends in front of `oblsMissInst`
    if s.miss then some s
    else (s.load.exposeLoad c s.ready fst snd).map fun r =>
      { s with load := r.1, miss := r.2 == .miss }
  | .checkSnoop => some { s with load.fault := some .reExec }
  | .getOblsMissInst => some { s with miss := false }

def step (c : LsqConfig) (s : OblLoad) (e : OblEvent) : Option OblLoad :=
  if s.enabled c e then s.handle c e else none

/-- A load whose oblivious request was accepted: `read` has set these fields. -/
def sent (acc : Access) (data : Data) (needExposeOnly tlbHit : Bool) : LoadInst where
  acc := acc
  data := data
  obl := { sent := true, tlbHit := tlbHit, low := ⟨true, {}⟩, high := ⟨acc.isSplit, {}⟩ }
  second := { needPostFetch := true, needExposeOnly := needExposeOnly, needDeletePostReq := true }
  sends := if acc.isSplit then [.oblS, .oblS] else [.oblS]

/-- The request goes on after a TLB miss under the third defence only. -/
def Start (c : LsqConfig) (s : OblLoad) : Prop :=
  s.ready = false ∧ s.miss = false ∧ ∃ acc data needExposeOnly tlbHit,
    s.load = sent acc data needExposeOnly tlbHit ∧ (tlbHit = false → c.tlbDefense = 3)

/-- The packet with the data is the last one if the predictor is perfect and unsafe. -/
def DataLast (c : LsqConfig) (_ : OblLoad) : OblEvent → Prop
  | .oblResponse _ p => c.perfectUnsafe = true → p.carryData = true → p.isFinalPacket = true
  | _ => True

instance (c : LsqConfig) (s : OblLoad) (e : OblEvent) : Decidable (DataLast c s e) := by
  cases e <;> unfold DataLast <;> infer_instance

end OblLoad

def oblLoadMachine (c : LsqConfig) : Machine OblLoad OblEvent where
  start := OblLoad.Start c
  step := OblLoad.step c

namespace OblLoad

variable {c : LsqConfig} {s : OblLoad}

/-- What holds between two events. -/
structure Inv (c : LsqConfig) (s : OblLoad) : Prop where
  coherent : s.load.Coherent c s.ready
  confirmed : s.load.Confirmed
  fixed : s.load.squashed = false ∧ s.load.ifLdStFwd = false ∧ s.load.committed = false

theorem Inv.of_fixed {l : LoadInst} {r m : Bool} (hi : s.Inv c) (hl : l.Coherent c r)
    (hc : l.Confirmed) (hf : l.fixed = s.load.fixed) : Inv c ⟨l, r, m⟩ :=
  ⟨hl, hc, (congrArg LoadInst.Fixed.squashed hf).trans hi.fixed.1,
    (congrArg LoadInst.Fixed.ifLdStFwd hf).trans hi.fixed.2.1,
    (congrArg LoadInst.Fixed.committed hf).trans hi.fixed.2.2⟩

theorem Inv.next {l : LoadInst} {m : Bool} (hi : s.Inv c) (hn : s.load.Next c s.ready l) :
    Inv c ⟨l, s.ready, m⟩ :=
  hi.of_fixed hn.coherent hn.confirmed hn.fixed

theorem Start.inv (h : s.Start c) : s.Inv c := by
  obtain ⟨load, ready, miss⟩ := s
  obtain ⟨-, -, acc, data, e, t, hl, ht⟩ := h
  obtain rfl : load = _ := hl
  refine ⟨⟨rfl, .inl rfl, nofun, fun h => ⟨rfl, ht h⟩, fun _ => rfl, nofun, nofun,
    fun _ _ => ⟨?_, fun _ => nofun⟩, ?_, ?_⟩, ⟨fun _ => rfl, nofun⟩, rfl, rfl, rfl⟩
  · simp only [sent]
    split <;> simp
  · constructor <;> simp +contextual [sent, Hits.any]
  · refine .of .A rfl ⟨⟨rfl, rfl, rfl, rfl⟩, ⟨rfl, rfl, rfl, fun _ => ⟨rfl, rfl⟩, ?_⟩,
      fun _ => ⟨rfl, rfl⟩,
      rfl⟩
    simp only [sent]
    split <;> simp

/-- One event: its handler goes through, and the load stays coherent. -/
theorem handle_spec (hm : c.enableMLDOM) (hi : s.Inv c) {e : OblEvent}
    (he : s.enabled c e) (hl : DataLast c s e) : ∃ s', s.handle c e = some s' ∧ s'.Inv c := by
  obtain ⟨hco, hcf, hsq, hfwd, hcm⟩ := id hi
  cases e with
  | oblResponse h p =>
    obtain ⟨l, heq, hn⟩ := LoadInst.completeOblS_spec hm hco hcf hsq he hl
    exact ⟨{ s with load := l }, by simp [handle, heq], hi.next hn⟩
  | postResponse h p =>
    cases hq : s.load.second.post with
    | none => simp [enabled, hq] at he
    | some q =>
      obtain ⟨l, heq, hn⟩ := LoadInst.completePost_spec hm hco hcf hsq hq h p
      exact ⟨{ s with load := l }, by simp [handle, hq, heq], hi.next hn⟩
  | staleResponse p =>
    exact ⟨_, rfl, hi.of_fixed (hco.stale p) ⟨hcf.complete, hcf.squash⟩ rfl⟩
  | becomeReady =>
    refine ⟨_, rfl, hi.of_fixed ?_ hcf rfl⟩
    exact { hco with ready := fun _ => rfl }
  | exposeLoads fst snd =>
    cases hmiss : s.miss with
    | true => exact ⟨s, by simp [handle, hmiss], hi⟩
    | false =>
      obtain ⟨l, flow, heq, hn⟩ := LoadInst.exposeLoad_spec hm hco hcf hsq hfwd hcm fst snd
      exact ⟨{ s with load := l, miss := flow == .miss }, by simp [handle, hmiss, heq], hi.next hn⟩
  | checkSnoop =>
    exact ⟨_, rfl, hi.of_fixed (hco.faulted s.load.second.exposeSent s.load.second.exposeCompleted
      s.load.wb.sentToCommit id) ⟨hcf.complete, hcf.squash⟩ rfl⟩
  | getOblsMissInst => exact ⟨_, rfl, hi.of_fixed hco hcf rfl⟩

theorem inv_of_reach (hm : c.enableMLDOM) (h : (oblLoadMachine c).ReachWhen (DataLast c) s) :
    s.Inv c := by
  refine h.invariant (I := Inv c) (fun s hs => Start.inv hs) (fun s e s' hi hl hs => ?_)
  simp only [oblLoadMachine, step] at hs
  split at hs
  · next he =>
    obtain ⟨s₁, heq, hi'⟩ := handle_spec hm hi he hl
    rw [heq] at hs
    cases hs
    exact hi'
  · cases hs

end OblLoad

/-- In every state reached the next event finds its case, no assertion fails, and the load has
been written back at most once. -/
theorem obl_load_total {c : LsqConfig} (hm : c.enableMLDOM = true) {s : OblLoad}
    (h : (oblLoadMachine c).ReachWhen (OblLoad.DataLast c) s) :
    s.load.wb.calls ≤ 1 ∧
      ∀ e, s.enabled c e = true → OblLoad.DataLast c s e → (s.handle c e).isSome = true := by
  have hi := OblLoad.inv_of_reach hm h
  refine ⟨hi.coherent.shape.calls_le, fun e he hl => ?_⟩
  obtain ⟨s', heq, -⟩ := OblLoad.handle_spec hm hi he hl
  simp [heq]

/-- STT with oblivious loads. -/
def sdoConfig (pred : PredType) : LsqConfig where
  stt := true
  impChannel := true
  isFuturistic := false
  loadInExec := true
  isInvisibleSpec := true
  squashWidth := 8
  numEntries := 192
  predType := pred
  enableOblSContention := false
  contention_perfect := nofun

/-- A load that crosses a line, its oblivious request just accepted. -/
def splitLoad : OblLoad where
  load := OblLoad.sent { isSplit := true, lineLow := 1, lineHigh := 2 } {} false true

theorem splitLoad_start (pred : PredType) : (oblLoadMachine (sdoConfig pred)).start splitLoad :=
  ⟨rfl, rfl, _, _, _, _, rfl, nofun⟩

/-- The load turns out safe before its request is answered; the second half of its validation
is refused at first; the low half hits in the private cache, the high half at no level. -/
def splitRun : List OblEvent :=
  let l0 : Hits := { l0 := true }
  let l1 : Hits := { l1 := true }
  [.becomeReady, .exposeLoads true false, .oblResponse .low ⟨l0, false, true, [7]⟩,
   .staleResponse {}, .exposeLoads true true, .oblResponse .high ⟨{}, true, false, []⟩,
   .oblResponse .low ⟨l0, true, false, []⟩, .postResponse .low ⟨l0, [7]⟩,
   .postResponse .high ⟨l1, [9]⟩]

def afterObl (pred : PredType) (s : OblLoad) (es : List OblEvent) : OblLoad :=
  ((oblLoadMachine (sdoConfig pred)).run s es).getD s

theorem obl_load_total_split :
    (afterObl .greedy splitLoad splitRun).load.mldomState = .ACBD ∧
      (afterObl .greedy splitLoad splitRun).load.wb.result = some ⟨.validate, [7], [9]⟩ ∧
      (afterObl .greedy splitLoad splitRun).load.wb.calls ≤ 1 :=
  ⟨by decide +kernel, by decide +kernel,
    (obl_load_total rfl (.run (.start (splitLoad_start .greedy)) splitRun (by decide +kernel)
      (Machine.run_getD (by decide +kernel)))).1⟩

def wholeLoad : OblLoad where
  load := OblLoad.sent { lineLow := 1 } {} false true

theorem wholeLoad_start (pred : PredType) : (oblLoadMachine (sdoConfig pred)).start wholeLoad :=
  ⟨rfl, rfl, _, _, _, _, rfl, nofun⟩

/-- The load is safe and gets an early hit. -/
def earlyRun : List OblEvent :=
  [.becomeReady, .exposeLoads true true, .oblResponse .low ⟨{ l0 := true }, false, true, [7]⟩]

/-- If nothing is ever validated, the state machine has no case for an expose that returns
after an early hit. -/
theorem early_hit_expose_unknown :
    ¬ ∀ (c : LsqConfig) (s : OblLoad), c.enableMLDOM = true → c.enableOblSContention = false →
      (oblLoadMachine c).Reach s → s.load.wb.calls ≤ 1 ∧
        ∀ e, s.enabled c e = true → (s.handle c e).isSome = true := by
  intro h
  have hrun : (oblLoadMachine (sdoConfig (.perfect false))).run wholeLoad earlyRun =
      some (afterObl (.perfect false) wholeLoad earlyRun) := Machine.run_getD (by decide +kernel)
  have hreach := Machine.reach_run (wholeLoad_start (.perfect false)) hrun
  have hall := (h _ _ rfl rfl hreach).2 (.postResponse .low {}) (by decide +kernel)
  have hbad : ((afterObl (.perfect false) wholeLoad earlyRun).handle (sdoConfig (.perfect false))
      (.postResponse .low {})).isSome = false := by
    decide +kernel
  rw [hall] at hbad
  cases hbad

end SdoCore
