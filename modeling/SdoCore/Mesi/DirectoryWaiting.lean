import SdoCore.Mesi.DirectoryInvariant
import SdoCore.Mesi.Waiting

/-! What waits at the directory: requests, for a line that is not `I`. The buffer of requests is
stalled by `Data` of the response port too, and `kd_wakeUpDependents` wakes the ports below its
own. -/

namespace SdoCore.Mesi

open Option (bind_eq_some_iff map_eq_some_iff)

namespace Directory

def Port.Msg : Port → Type
  | .requestNetwork => RequestMsg
  | .responseNetwork => ResponseMsg
  | .memQueue => MemoryMsg

def Ctrl.desk (c : Ctrl) : Desk Port Port.Msg where
  buffer
    | .requestNetwork => c.requestIn
    | .responseNetwork => c.responseIn
    | .memQueue => c.memoryIn
  waiting := c.waiting

def Ctrl.lineState (c : Ctrl) (a : Nat) : State := stateOf (c.context .requestNetwork a)

def State.resting : State → Bool
  | .I => true
  | _ => false

/-- In `M` requests are set aside by their own port. In the states that wait for memory the `Data`
of a response port does it too, and only the answer of memory ends them. -/
def State.waits : State → List Port
  | .I => []
  | .M | .M_DRD | .M_DWR => [.requestNetwork]
  | _ => [.requestNetwork, .responseNetwork]

def Action.effect : Action → Effect
  | .z_stallAndWaitRequest => .stall
  | .kd_wakeUpDependents => .wake
  | _ => .quiet

def Event.ports : Event → List Port
  | .Fetch | .Expose | .SpecFetch | .SpecLoad_Mem | .SpecLoad_Perfect | .SpecLoad_PerfectUnsafe
  | .DMA_READ | .DMA_WRITE => [.requestNetwork]
  | .Data | .CleanReplacement => [.responseNetwork]
  | .Memory_Data | .Memory_Ack | .Memory_Data_Spec => [.memQueue]

theorem rows_keep : ∀ r ∈ transitions,
    rowKeeps Ctx.lower Action.effect Event.ports State.waits r := by
  decide

/-! What the actions do with the messages set aside. -/

structure Acts (x y : Ctx) (e : Effect) : Prop where
  does : Desk.Does Ctx.lower .requestNetwork x.port x.addr x.ctrl.desk y.ctrl.desk e
  port : y.port = x.port
  addr : y.addr = x.addr

namespace Acts

theorem same {x y : Ctx} (hd : y.ctrl.desk = x.ctrl.desk) (hp : y.port = x.port)
    (ha : y.addr = x.addr) :
    Acts x y .quiet :=
  ⟨⟨by rw [hd], fun b => by rw [hd]⟩, hp, ha⟩

/-- The answer to an expose may be queued at once. -/
theorem queueRead {x y : Ctx} {t : Nat} (h : x.queueRead t = some y) : Acts x y .quiet := by
  obtain ⟨m, -, h⟩ := bind_eq_some_iff.mp h
  obtain ⟨⟨c, rs⟩, hc, rfl⟩ := map_eq_some_iff.mp h
  unfold Ctrl.queueMemoryRead at hc
  dsimp only at hc
  split at hc
  · cases hc
    exact same rfl rfl rfl
  split at hc
  · cases hc
  split at hc
  · cases hc
    exact same rfl rfl rfl
  · cases hc
    exact same rfl rfl rfl
  split at hc
  · cases hc
    refine ⟨⟨rfl, fun b => ?_⟩, rfl, rfl⟩
    cases b <;> rfl
  · cases hc
    exact same rfl rfl rfl

theorem queueSpecRead {x y : Ctx} {hit : Bool} (h : x.queueSpecRead hit = some y) :
    Acts x y .quiet := by
  obtain ⟨m, -, h⟩ := bind_eq_some_iff.mp h
  obtain ⟨⟨c, rs⟩, hc, rfl⟩ := map_eq_some_iff.mp h
  unfold Ctrl.queueMemorySpecRead at hc
  split at hc
  · cases hc
  · cases hc
    exact same rfl rfl rfl

end Acts

theorem reanalyzed {c c' : Ctrl} {a : Nat} {b : Port} (h : Ctx.reanalyze c a b = some c') :
    Desk.Reanalyzed a b c.desk c'.desk := by
  cases b <;>
  · obtain ⟨q, hq, rfl⟩ := map_eq_some_iff.mp h
    refine ⟨rfl, hq, fun b' hb' => ?_⟩
    cases b' <;> first | rfl | exact absurd rfl hb'

theorem woken {c c' : Ctrl} {a : Nat} {qs : List Port} (h : Ctx.wakeUp c a qs = some c') :
    Desk.Woken a qs c.desk c'.desk :=
  Desk.woken_of_loop Ctrl.desk (Ctx.reanalyze · a ·) (Ctx.wakeUp · a ·) (fun _ => rfl)
    (fun c q _ => by simp only [Ctx.wakeUp, Ctrl.desk]; cases c.waiting a q <;> rfl)
    (fun _ _ _ => reanalyzed) h

theorem act_effect {x y : Ctx} : ∀ a, act x a = some y → Acts x y a.effect
  | .a_sendAck, h | .dj_sendSpecData, h | .aa_sendAck, h | .qw_queueMemoryWBRequest, h
  | .qw_queueMemoryWBRequest_partialRequest, h | .da_sendDMAAck, h | .inv_sendCacheInvalidate, h
  | .d_sendData_Hit, h | .dex_sendExposeData, h | .ds_sendSpecData, h => by
    obtain ⟨m, -, rfl⟩ := map_eq_some_iff.mp h
    exact .same rfl rfl rfl
  | .j_popIncomingRequestQueue, h | .k_popIncomingResponseQueue, h | .l_popMemQueue, h => by
    obtain ⟨q, hq, rfl⟩ := map_eq_some_iff.mp h
    obtain ⟨m, -, hmap⟩ := MessageBuffer.dequeue_eq_some hq
    refine ⟨⟨rfl, fun b => ?_⟩, rfl, rfl⟩
    cases b <;> first | rfl | exact hmap
  | .zz_recycleDMAQueue, h => by
    obtain ⟨q, hq, rfl⟩ := map_eq_some_iff.mp h
    have hmap := MessageBuffer.recycle_stallMap hq
    refine ⟨⟨rfl, fun b => ?_⟩, rfl, rfl⟩
    cases b <;> first | rfl | exact hmap
  | .qf_queueMemoryFetchRequest, h | .qfs_queueMemorySpecFetchRequest, h
  | .qfe_queueMemoryExposeRequest, h => .queueRead h
  | .hj_spec_load_mem_hit_mem, h | .hj_spec_load_perfect_hit_mem, h
  | .hj_spec_load_perfectUnsafe_hit_mem, h | .mj_spec_load_mem_miss_mem, h
  | .mj_spec_load_perfect_miss_mem, h => .queueSpecRead h
  | .qf_queueMemoryFetchRequestDMA, h => nomatch h
  | .dr_sendDMAData, h | .drp_sendDMAData, h | .qw_queueMemoryWBRequest_partialTBE, h => by
    obtain ⟨m, -, h⟩ := bind_eq_some_iff.mp h
    obtain ⟨t, -, rfl⟩ := map_eq_some_iff.mp h
    exact .same rfl rfl rfl
  | .v_allocateTBE, h => by
    obtain ⟨m, -, h⟩ := bind_eq_some_iff.mp h
    split at h
    · cases h
    · cases h
      exact .same rfl rfl rfl
  | .w_deallocateTBE, h => by
    cases h
    exact .same rfl rfl rfl
  | .z_stallAndWaitRequest, h => by
    obtain ⟨q, hq, rfl⟩ := map_eq_some_iff.mp h
    refine ⟨⟨rfl, MessageBuffer.stallMessage_eq_some hq, fun b hb => ?_⟩, rfl, rfl⟩
    cases b <;> first | rfl | exact absurd rfl hb
  | .kd_wakeUpDependents, h => by
    obtain ⟨c, hc, rfl⟩ := map_eq_some_iff.mp h
    exact ⟨(woken hc).wakes rfl rfl, rfl, rfl⟩

theorem trigger_port {c : Ctrl} {port : Port} {e : Event} {a : Nat}
    (h : c.trigger port = some (e, a)) :
    port ∈ e.ports := by
  cases port with
  | requestNetwork | responseNetwork =>
    obtain ⟨m, -, h⟩ := bind_eq_some_iff.mp h
    obtain ⟨e', he', heq⟩ := map_eq_some_iff.mp h
    cases heq
    revert he'
    cases m.type <;> intro he' <;> cases he' <;> decide
  | memQueue =>
    obtain ⟨m, -, heq⟩ := map_eq_some_iff.mp h
    cases heq
    cases m.type <;> decide

/-- What the directory keeps; without DMA the state of a line is that of its entry. -/
def Kept (c : Ctrl) : Prop := ∀ a, c.desk.Waits .requestNetwork a (c.lineState a).waits

theorem Inv.lineState {c : Ctrl} (hc : Inv c) (a : Nat) :
    c.lineState a = (c.entries a).directoryState :=
  Inv.stateOf (x := c.context .requestNetwork a) hc

theorem Kept.wakeup {c d : Ctrl} {port : Port} {out : List OutMsg} (hc : Inv c) (h : Kept c)
    (hw : c.wakeup port = some (d, out)) : Kept d ∧ Desk.Carried c.desk d.desk := by
  have hd := (hc.wakeup hw).1
  obtain ⟨⟨e, a⟩, ht, hw⟩ := bind_eq_some_iff.mp hw
  obtain ⟨z, hz, heq⟩ := map_eq_some_iff.mp hw
  cases heq
  obtain ⟨s, r, y, hst, hr, hsr, her, hrun, hset⟩ := Lib.Controller.transition_cases hz
  cases hset
  have hst : c.lineState a = s := Option.some.inj hst
  have hs : s.isDMA = false := by
    rw [← hst, hc.lineState]
    exact hc.noDMA a
  obtain ⟨-, hv, hw⟩ := calm_rows r hr ⟨s, hsr, hs⟩ ⟨e, her, hc.trigger ht⟩
  have hcalm := run_calm hv hw hrun
  have hytbe : y.tbe = false := by
    rw [hcalm.tbe]
    simp [Ctrl.context, hc.noTBE]
  have hput : putState y (r.next.getD s) =
      y.modifyEntry a fun e => { e with directoryState := r.next.getD s } := by
    rw [putState_eq hytbe, hcalm.addr]
    rfl
  change Kept (putState y (r.next.getD s)).ctrl ∧
    Desk.Carried c.desk (putState y (r.next.getD s)).ctrl.desk
  have hruns : Desk.Runs Ctx.lower .requestNetwork port a (r.actions.map Action.effect) c.desk
      (putState y (r.next.getD s)).ctrl.desk := by
    rw [hput]
    exact runs_of_run (m := controller) (fun x : Ctx => x.ctrl.desk) Ctx.port Ctx.addr
      (fun x a y h => ⟨(act_effect a h).does, (act_effect a h).port, (act_effect a h).addr⟩) hrun
  refine waits_of_row (rows_keep r hr) hsr her (trigger_port ht) hruns h
    (fun b => ((putState y (r.next.getD s)).ctrl.lineState b).waits) (congrArg State.waits hst) ?_
    fun b hb => ?_
  · rw [hd.lineState, hput]
    simp [Ctx.modifyEntry]
  have hsame : (y.ctrl.entries b).directoryState = (c.entries b).directoryState := hcalm.states b
  rw [hd.lineState, hc.lineState, hput]
  simp [Ctx.modifyEntry, hb, hsame]

inductive Moves (c d : Ctrl) : Prop
  | buffers (entries : d.entries = c.entries) (tbes : d.tbes = c.tbes)
    (quiet : Desk.Quiet c.desk d.desk)
  | wakeup {port : Port} {out : List OutMsg} (h : c.wakeup port = some (d, out))

theorem Kept.moves {c d : Ctrl} (hc : Inv c) (h : Kept c) (hm : Moves c d) :
    Kept d ∧ Desk.Carried c.desk d.desk := by
  cases hm with
  | buffers hentries htbes hquiet =>
    refine ⟨fun a => ?_, .of_stallMap hquiet.stallMap⟩
    have hstate : d.lineState a = c.lineState a := by
      simp [Ctrl.lineState, Directory.stateOf, Ctx.theTBE, Ctrl.context, hentries, htbes, hc.noTBE]
    rw [hstate]
    exact (h a).quiet hquiet
  | wakeup hw => exact h.wakeup hc hw

theorem State.waits_resting {s : State} (h : s.resting) : s.waits = [] := by
  cases s <;> first | rfl | cases h

theorem Kept.noneStranded {c : Ctrl} (h : Kept c) :
    c.desk.NoneStranded fun a => (c.lineState a).resting :=
  Desk.noneStranded_of_waits h fun _ => State.waits_resting

end Directory

end SdoCore.Mesi
