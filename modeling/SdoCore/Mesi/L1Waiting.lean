import SdoCore.Mesi.L1Invariant
import SdoCore.Mesi.Waiting

/-! What waits at an L1.

Only requests of the core are set aside, and only for a line that has a TBE; the transition that
ends the TBE wakes them from a port above. So they can wait under the port of the core alone
(`State.waits`), which every row of the table keeps (`rows_keep`). A request may be set aside under
the address of the line it would replace, which is the line of the transition. -/

namespace SdoCore.Mesi

open Option (bind_eq_some_iff map_eq_some_iff)
open L1Cache (stateOf)

namespace L1Cache

variable {p : CacheParams}

def Port.Msg : Port → Type
  | .mandatoryQueue | .optionalQueue => RubyRequest
  | .requestL1Network => RequestMsg
  | .responseL1Network => ResponseMsg

def Ctrl.desk (c : Ctrl p) : Desk Port Port.Msg where
  buffer
    | .mandatoryQueue => c.mandatoryQueue
    | .optionalQueue => c.optionalQueue
    | .requestL1Network => c.requestIn
    | .responseL1Network => c.responseIn
  waiting := c.waiting

/-- `getState` for a line, with the pointers its tables give. -/
def Ctrl.lineState (c : Ctrl p) (a : Nat) : State :=
  match c.tbes a, (c.holder a).bind fun k => (c.cache k).lookup a with
  | some t, _ => t.tbeState
  | none, some e => e.cacheState
  | none, none => .NP

def State.resting : State → Bool
  | .NP | .I | .S | .E | .M => true
  | _ => false

/-- The ports under which a message may wait for a line in this state. -/
def State.waits (s : State) : List Port := if s.resting then [] else [.mandatoryQueue]

theorem State.waits_eq {s s' : State} (h : s.resting = s'.resting) : s.waits = s'.waits := by
  rw [State.waits, State.waits, h]

def Action.effect : Action → Effect
  | .z_stallAndWaitMandatoryQueue => .stall
  | .kd_wakeUpDependents => .wake
  | _ => .quiet

/-- The ports that trigger an event, prefetches apart. -/
def Event.ports : Event → List Port
  | .Load | .Ifetch | .Store | .SpecLoad | .Expose | .SpecLoad_L0 | .SpecLoad_L1 | .SpecLoad_Mem
  | .SpecLoad_Perfect | .SpecLoad_PerfectUnsafe | .L1_Replacement => [.mandatoryQueue]
  | .Fwd_GETX | .Fwd_GETS | .Fwd_GET_INSTR | .Fwd_GETSPEC | .Fwd_EXPOSE => [.requestL1Network]
  | .Inv => [.requestL1Network, .responseL1Network]
  | .Data | .Data_Exclusive | .DataS_fromL1 | .Data_all_Acks | .Data_Spec_fromL1
  | .Data_Spec_fromMem | .Ack | .Ack_all | .WB_Ack => [.responseL1Network]
  | .PF_Load | .PF_Ifetch | .PF_Store => []

theorem rows_keep : ∀ r ∈ transitions,
    rowKeeps Ctx.lower Action.effect Event.ports State.waits r := by
  decide

/-- A TBE is held in the states that are not at rest. -/
def rowSettles (r : Lib.Row State Event Action) : Bool :=
  r.states.all fun s => r.actions.foldl tbeStep (!s.resting) == !(r.next.getD s).resting

theorem rows_settle : ∀ r ∈ transitions, rowSettles r := by
  decide

/-! What the actions do with the messages set aside. -/

/-- What an action does with the buffers; nothing gets into an empty prefetch queue. -/
structure Acts (x y : Ctx p) (e : Effect) : Prop where
  does : Desk.Does Ctx.lower .mandatoryQueue x.port x.addr x.ctrl.desk y.ctrl.desk e
  port : y.port = x.port
  addr : y.addr = x.addr
  optional : x.ctrl.optionalQueue = .empty → y.ctrl.optionalQueue = .empty

variable {c d : Ctrl p} {a : Nat} {x y : Ctx p} {e : Event} {t : Trigger}

theorem Still.desk {t : Bool} (h : Still x y t) : y.ctrl.desk = x.ctrl.desk :=
  (congrArg Ctrl.desk h.buffers :)

theorem reanalyzed {c' : Ctrl p} {b : Port} (h : Ctx.reanalyze c a b = some c') :
    Desk.Reanalyzed a b c.desk c'.desk := by
  cases b <;>
  · obtain ⟨q, hq, rfl⟩ := map_eq_some_iff.mp h
    refine ⟨rfl, hq, fun b' hb' => ?_⟩
    cases b' <;> first | rfl | exact absurd rfl hb'

theorem woken {c' : Ctrl p} {qs : List Port} (h : Ctx.wakeUp c a qs = some c') :
    Desk.Woken a qs c.desk c'.desk :=
  Desk.woken_of_loop Ctrl.desk (Ctx.reanalyze · a ·) (Ctx.wakeUp · a ·) (fun _ => rfl)
    (fun c q _ => by simp only [Ctx.wakeUp, Ctrl.desk]; cases c.waiting a q <;> rfl)
    (fun _ _ _ => reanalyzed) h

theorem act_effect (a : Action) (h : act x a = some y) : Acts x y a.effect := by
  cases hr : a.requeues with
  | false =>
    have hquiet : a.effect = .quiet := by cases a <;> first | rfl | cases hr
    have hs := act_still h hr
    rw [hquiet]
    exact ⟨⟨by rw [hs.desk], fun b => by rw [hs.desk]⟩, hs.port, hs.addr,
      ((congrArg (·.buffer .optionalQueue) hs.desk).trans ·)⟩
  | true => ?_
  cases a with
  | k_popMandatoryQueue | l_popRequestQueue | o_popIncomingResponseQueue =>
    obtain ⟨q, hq, rfl⟩ := map_eq_some_iff.mp h
    obtain ⟨m, -, hmap⟩ := MessageBuffer.dequeue_eq_some hq
    refine ⟨⟨rfl, fun b => ?_⟩, rfl, rfl, id⟩
    cases b <;> first | rfl | exact hmap
  | pq_popPrefetchQueue =>
    obtain ⟨q, hq, rfl⟩ := map_eq_some_iff.mp h
    obtain ⟨m, hm, hmap⟩ := MessageBuffer.dequeue_eq_some hq
    refine ⟨⟨rfl, fun b => ?_⟩, rfl, rfl, fun hempty => ?_⟩
    · cases b <;> first | rfl | exact hmap
    · rw [hempty] at hm
      cases hm
  | z_stallAndWaitMandatoryQueue =>
    obtain ⟨q, hq, rfl⟩ := map_eq_some_iff.mp h
    refine ⟨⟨rfl, MessageBuffer.stallMessage_eq_some hq, fun b hb => ?_⟩, rfl, rfl, id⟩
    cases b <;> first | rfl | exact absurd rfl hb
  | kd_wakeUpDependents =>
    obtain ⟨c, hc, rfl⟩ := map_eq_some_iff.mp h
    have hw := woken hc
    refine ⟨hw.wakes rfl rfl, rfl, rfl, fun hempty => ?_⟩
    rcases hw.buffer .optionalQueue with hsame | hre
    · exact hsame.trans hempty
    have hre : x.ctrl.optionalQueue.reanalyzeMessages x.addr = some c.optionalQueue := hre
    rw [hempty] at hre
    cases hre
  | _ => cases hr

/-! TBEs and states. -/

/-- A TBE is held by the lines that are not at rest. -/
structure Settled (c : Ctrl p) : Prop where
  tbe : ∀ a t, c.tbes a = some t → t.tbeState.resting = false
  entry : ∀ k a e, (c.cache k).lookup a = some e → c.tbes a = none → e.cacheState.resting = true

theorem Settled.lineState (h : Settled c) (a : Nat) :
    (c.lineState a).resting = (c.tbes a).isNone := by
  unfold Ctrl.lineState
  cases ht : c.tbes a with
  | some t => exact h.tbe a t ht
  | none =>
    cases he : (c.holder a).bind fun k => (c.cache k).lookup a with
    | none => rfl
    | some e =>
      obtain ⟨k, -, hk⟩ := bind_eq_some_iff.mp he
      exact h.entry k a e hk ht

theorem Settled.tbe_eq (h : Settled x.ctrl) (ht : x.tbe = (x.ctrl.tbes x.addr).isSome) :
    x.tbe = !(stateOf x).resting := by
  cases hx : x.ctrl.tbes x.addr with
  | some t =>
    have htbe : x.tbe = true := by rw [ht, hx]; rfl
    have hst : stateOf x = t.tbeState := by simp [stateOf, Ctx.theTBE, htbe, hx]
    rw [hst, h.tbe _ t hx, htbe]
    rfl
  | none =>
    have htbe : x.tbe = false := by rw [ht, hx]; rfl
    have hrest : (stateOf x).resting = true := by
      cases he : x.cacheEntry with
      | none => simp [stateOf, Ctx.theTBE, htbe, he, State.resting]
      | some e =>
        obtain ⟨k, -, hk⟩ := bind_eq_some_iff.mp he
        simpa [stateOf, Ctx.theTBE, htbe, he] using h.entry k _ e hk hx
    rw [htbe, hrest]
    rfl

theorem Settled.of_sameLines (h : Settled c) (hl : Local.SameLines c d) : Settled d := by
  refine ⟨fun a t ht => h.tbe a t (hl.tbes ▸ ht), fun k a e he hnone => ?_⟩
  exact h.entry k a e (hl.cache k ▸ he) (hl.tbes ▸ hnone)

theorem Settled.ends {t : Bool} {s : State} (h : Settled x.ctrl) (hl : Local x y t)
    (hy : Synced y) (ht : t = !s.resting) : Settled (putState y s).ctrl := by
  refine ⟨fun a u hu => ?_, fun k a e he hnone => ?_⟩
  · rcases putState_tbe_cases hl hy a u hu with ⟨-, rfl, htrue⟩ | ⟨-, hu⟩
    · rw [htrue] at ht
      simpa using ht.symm
    · exact h.tbe a u hu
  · rw [putState_tbes hy.tbe, hl.addr] at hnone
    rcases putState_entry_cases hl hy k a e he with ⟨ha, rfl, -⟩ | ⟨ha, he⟩
    · rw [if_pos ha, Option.map_eq_none_iff, ha, ← hl.addr] at hnone
      have htbe : t = false := by rw [← hl.tbe, hy.tbe, hnone, Option.isSome_none]
      rw [htbe] at ht
      simpa using ht.symm
    · rw [if_neg ha, hl.tbes_ne a ha] at hnone
      exact h.entry k a e he hnone

theorem desk_putState (x : Ctx p) (s : State) : (putState x s).ctrl.desk = x.ctrl.desk :=
  (putState_still x s).desk

/-- What the row `r`, in state `s`, does to the messages set aside. -/
structure Serves (c c' : Ctrl p) (port : Port) (a : Nat) (r : Lib.Row State Event Action)
    (s : State) :
    Prop where
  settled : Settled c'
  runs : Desk.Runs Ctx.lower .mandatoryQueue port a (r.actions.map Action.effect) c.desk c'.desk
  before : (c.lineState a).resting = s.resting
  after : (c'.lineState a).resting = (r.next.getD s).resting
  others : ∀ b, b ≠ a → (c'.lineState b).resting = (c.lineState b).resting
  optional : c.optionalQueue = .empty → c'.optionalQueue = .empty

theorem Settled.serves {z : Ctx p} (hc : Inv x.ctrl) (h : Settled x.ctrl)
    (htbe : x.tbe = (x.ctrl.tbes x.addr).isSome) (hx : Synced x ∨ e.isSpec)
    (htr : controller.transition x e = some z) :
    ∃ r ∈ transitions, ∃ s ∈ r.states, e ∈ r.events ∧ Serves x.ctrl z.ctrl x.port x.addr r s := by
  obtain ⟨r, y, hr, hsr, her, hrun, hz⟩ := transition_ends htr
  have hdesk : z.ctrl.desk = y.ctrl.desk := by rw [hz, desk_putState]
  have hruns : Desk.Runs Ctx.lower .mandatoryQueue x.port x.addr (r.actions.map Action.effect)
      x.ctrl.desk z.ctrl.desk := by
    rw [hdesk]
    exact runs_of_run (m := controller) (fun x : Ctx p => x.ctrl.desk) Ctx.port Ctx.addr
      (fun x a y h => ⟨(act_effect a h).does, (act_effect a h).port, (act_effect a h).addr⟩) hrun
  have hopt : x.ctrl.optionalQueue = .empty → z.ctrl.optionalQueue = .empty := by
    intro hempty
    refine (congrArg (·.buffer .optionalQueue) hdesk :).trans ?_
    exact Lib.Controller.run_keeps (m := controller)
      (P := fun y : Ctx p => y.ctrl.optionalQueue = .empty)
      (fun a _ _ _ ha => (act_effect a ha).optional) hrun hempty
  have hbefore : (x.ctrl.lineState x.addr).resting = (stateOf x).resting := by
    rw [h.lineState, ← Option.not_isSome, ← htbe, h.tbe_eq htbe, Bool.not_not]
  refine ⟨r, hr, stateOf x, hsr, her, ?_⟩
  rcases hx with hs | hspec
  · have hl := run_local hrun
    have hy := hl.synced hs
    have ht : r.actions.foldl tbeStep x.tbe = !(r.next.getD (stateOf x)).resting := by
      rw [h.tbe_eq htbe]
      exact eq_of_beq (List.all_eq_true.mp (rows_settle r hr) _ hsr)
    have hsettled := h.ends hl hy ht
    subst hz
    refine ⟨hsettled, hruns, hbefore, ?_, fun b hb => ?_, hopt⟩
    · rw [hsettled.lineState, putState_tbes hy.tbe, if_pos hl.addr.symm, Option.isNone_map,
        ← Option.not_isSome, ← hl.addr, ← hy.tbe, hl.tbe, ht, Bool.not_not]
    · rw [hsettled.lineState, h.lineState, putState_tbes hy.tbe, hl.addr, if_neg hb,
        hl.tbes_ne b hb]
  · obtain ⟨hv, -⟩ := spec_transition hc hspec htr
    have hnext := (spec_rows r hr ⟨e, her, hspec⟩).1
    have hsettled : Settled z.ctrl := h.of_sameLines hv.lines
    have hsame (b : Nat) : (z.ctrl.lineState b).resting = (x.ctrl.lineState b).resting := by
      rw [hsettled.lineState, h.lineState, hv.lines.tbes]
    refine ⟨hsettled, hruns, hbefore, ?_, fun b _ => hsame b, hopt⟩
    rw [hsame, hbefore, hnext, Option.getD_none]

/-! What every L1 keeps, as long as nothing is prefetched. -/

structure Kept (c : Ctrl p) : Prop where
  settled : Settled c
  waits : ∀ a, c.desk.Waits .mandatoryQueue a (c.lineState a).waits
  optional : c.optionalQueue = .empty

theorem access_event {own other : Kind} (h : c.demand own other e a = some t) :
    t.event = e ∨ t.event = .L1_Replacement := by
  unfold Ctrl.demand Ctrl.access at h
  split at h
  · cases h
    exact .inl rfl
  split at h
  · cases h
    exact .inr rfl
  split at h
  · cases h
    exact .inl rfl
  · obtain ⟨v, -, rfl⟩ := map_eq_some_iff.mp h
    exact .inr rfl

theorem mandatoryQueueIn_event {m : RubyRequest} (h : c.mandatoryQueueIn m = some t) :
    t.event = mandatoryRequestTypeToEvent m.type ∨ t.event = .L1_Replacement := by
  rcases m with ⟨a, ty, idx⟩
  cases ty with
  | specLdL0 | specLdL1 | specLdMem | specLdPerfect | specLdPerfectUnsafe =>
    cases h
    exact .inl rfl
  | ifetch | ld | st | specLd | expose => exact access_event h

theorem responseEvent_port {m : ResponseMsg} (h : responseEvent x m = some e) :
    .responseL1Network ∈ e.ports := by
  unfold responseEvent at h
  split at h
  · cases h
    decide
  · obtain ⟨s, -, h⟩ := bind_eq_some_iff.mp h
    split at h
    · cases h
      decide
    · obtain ⟨t, -, rfl⟩ := map_eq_some_iff.mp h
      split <;> decide
  · obtain ⟨t, -, rfl⟩ := map_eq_some_iff.mp h
    split <;> decide
  all_goals
    cases h
    try decide

theorem trigger_port {id : MachineID} {port : Port} (h : c.trigger id port = some t)
    (hport : port ≠ .optionalQueue) : port ∈ t.event.ports := by
  cases port with
  | mandatoryQueue =>
    obtain ⟨m, -, h⟩ := bind_eq_some_iff.mp h
    rcases mandatoryQueueIn_event h with he | he
    · rw [he]
      cases m.type <;> decide
    · rw [he]
      decide
  | requestL1Network =>
    obtain ⟨m, -, h⟩ := bind_eq_some_iff.mp h
    obtain ⟨e, he, rfl⟩ := map_eq_some_iff.mp h
    show Port.requestL1Network ∈ e.ports
    revert he
    cases m.type <;> intro he <;> cases he <;> decide
  | responseL1Network =>
    obtain ⟨m, -, h⟩ := bind_eq_some_iff.mp h
    obtain ⟨e, he, rfl⟩ := map_eq_some_iff.mp h
    exact responseEvent_port he
  | optionalQueue => exact absurd rfl hport

theorem Kept.wakeup {id : MachineID} {port : Port} {out : List OutMsg} (hc : Inv c) (h : Kept c)
    (hw : c.wakeup id port = some (d, out)) : Kept d ∧ Desk.Carried c.desk d.desk := by
  obtain ⟨t, ht, hw⟩ := bind_eq_some_iff.mp hw
  obtain ⟨z, hz, heq⟩ := map_eq_some_iff.mp hw
  cases heq
  have hport : port ≠ .optionalQueue := by
    rintro rfl
    rw [Ctrl.trigger, h.optional] at ht
    cases ht
  have hp := trigger_port ht hport
  have hx : Synced (c.context id port t) ∨ t.event.isSpec = true :=
    (hc.covers_trigger ht).imp_left fun hcov => ⟨rfl, hcov⟩
  obtain ⟨r, hr, s, hs, he, hserves⟩ :=
    Settled.serves (x := c.context id port t) hc h.settled rfl hx hz
  obtain ⟨hwaits, hcarried⟩ := waits_of_row (rows_keep r hr) hs he hp hserves.runs h.waits
    (fun b => (z.ctrl.lineState b).waits) (State.waits_eq hserves.before)
    (State.waits_eq hserves.after)
    fun b hb => State.waits_eq (hserves.others b hb)
  exact ⟨⟨hserves.settled, hwaits, hserves.optional h.optional⟩, hcarried⟩

/-! Outside its own transitions only the queues of an L1 change. -/

inductive Moves (c d : Ctrl p) : Prop
  | buffers (lines : Local.SameLines c d) (quiet : Desk.Quiet c.desk d.desk)
    (optional : d.optionalQueue = c.optionalQueue)
  | wakeup {id : MachineID} {port : Port} {out : List OutMsg} (h : c.wakeup id port = some (d, out))

theorem Kept.moves (hc : Inv c) (h : Kept c) (hm : Moves c d) :
    Kept d ∧ Desk.Carried c.desk d.desk := by
  cases hm with
  | buffers hlines hquiet hopt =>
    have hsettled := h.settled.of_sameLines hlines
    refine ⟨⟨hsettled, fun a => ?_, hopt.trans h.optional⟩, .of_stallMap hquiet.stallMap⟩
    have hstate : (c.lineState a).resting = (d.lineState a).resting := by
      rw [hsettled.lineState, h.settled.lineState, hlines.tbes]
    exact State.waits_eq hstate ▸ (h.waits a).quiet hquiet
  | wakeup hw => exact h.wakeup hc hw

theorem Kept.noneStranded (h : Kept c) :
    c.desk.NoneStranded fun a => (c.lineState a).resting :=
  Desk.noneStranded_of_waits h.waits fun _ hr => if_pos hr

end L1Cache


end SdoCore.Mesi
