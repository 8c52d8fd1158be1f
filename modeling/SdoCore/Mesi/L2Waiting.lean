import SdoCore.Mesi.L2Invariant
import SdoCore.Mesi.Waiting

/-! What waits at the L2: requests of the L1s, for a line that is not at rest. A line at rest may
have lost its entry, and a line that blocks has its entry or its TBE (`rowSettles`), so that the
state a row ends in is the state the line is found in. -/

namespace SdoCore.Mesi

open Option (bind_eq_some_iff map_eq_some_iff)

namespace L2Cache

variable {p : CacheParams}

def Port.Msg : Port → Type
  | .l1Request => RequestMsg
  | .response | .l1Unblock => ResponseMsg

def Ctrl.desk (c : Ctrl p) : Desk Port Port.Msg where
  buffer
    | .l1Request => c.requestIn
    | .response => c.responseIn
    | .l1Unblock => c.unblockIn
  waiting := c.waiting

/-- `getState` for a line, with the pointers its tables give. -/
def Ctrl.lineState (c : Ctrl p) (a : Nat) : State := stateOf (c.context .l1Request a)

def State.resting : State → Bool
  | .NP | .SS | .M | .MT => true
  | _ => false

def State.waits (s : State) : List Port := if s.resting then [] else [.l1Request]

variable {s : State} {c d : Ctrl p} {a : Nat} {x y : Ctx p}

theorem State.waits_eq {s' : State} (h : s.resting = s'.resting) : s.waits = s'.waits := by
  rw [State.waits, State.waits, h]

def Action.effect : Action → Effect
  | .zz_stallAndWaitL1RequestQueue => .stall
  | .kd_wakeUpDependents => .wake
  | _ => .quiet

def Event.ports : Event → List Port
  | .L1_GET_INSTR | .L1_GETS | .L1_GETX | .L1_UPGRADE | .L1_PUTX | .L1_PUTX_old | .L1_GETSPEC
  | .L1_EXPOSE | .SpecLoad_L2 | .SpecLoad_Mem | .SpecLoad_Perfect | .SpecLoad_PerfectUnsafe
  | .L2_Replacement | .L2_Replacement_clean => [.l1Request]
  | .Mem_Data | .Mem_Ack | .Data_Spec_fromMem | .WB_Data | .WB_Data_clean | .Ack | .Ack_all
  | .MEM_Inv => [.response]
  | .Unblock | .Exclusive_Unblock => [.l1Unblock]

theorem rows_keep : ∀ r ∈ transitions,
    rowKeeps Ctx.lower Action.effect Event.ports State.waits r := by
  decide

/-- Whether there is a cache entry after an action that was possible. -/
def entryStep (n : Bool) : Action → Bool
  | .qq_allocateL2CacheBlock | .m_writeDataToCache => true
  | .rr_deallocateL2CacheBlock => false
  | _ => n

/-- A TBE is held in its own states, and in the others that are not at rest there is an entry. -/
def rowSettles (r : Lib.Row State Event Action) : Bool :=
  r.states.all fun s => r.actions.foldl tbeStep (!s.noTBE) == !(r.next.getD s).noTBE &&
    (!(r.next.getD s).noTBE || (r.next.getD s).resting ||
      r.actions.foldl entryStep (s.noTBE && s != .NP))

theorem rows_settle : ∀ r ∈ transitions, rowSettles r := by
  decide

theorem settles {r : Lib.Row State Event Action} (hr : r ∈ transitions) {s' : State}
    (hs : s ∈ r.states) (hnext : r.next.getD s = s') :
    r.actions.foldl tbeStep (!s.noTBE) = !s'.noTBE ∧
      (s'.noTBE = false ∨ s'.resting = true ∨
        r.actions.foldl entryStep (s.noTBE && s != .NP) = true) := by
  have h := List.all_eq_true.mp (rows_settle r hr) s hs
  simp only [hnext, Bool.and_eq_true, Bool.or_eq_true, Bool.not_eq_true', beq_iff_eq] at h
  exact ⟨h.1, or_assoc.mp h.2⟩

/-! What the actions do with the messages set aside. -/

structure Acts (x y : Ctx p) (a : Action) : Prop where
  does : Desk.Does Ctx.lower .l1Request x.port x.addr x.ctrl.desk y.ctrl.desk a.effect
  port : y.port = x.port
  addr : y.addr = x.addr
  entry : entryStep x.entry a = true → y.entry = true

theorem Still.desk {t : Bool} (h : Still x y t) : y.ctrl.desk = x.ctrl.desk :=
  (congrArg Ctrl.desk h.buffers :)

theorem reanalyzed {c' : Ctrl p} {b : Port} (h : Ctx.reanalyze c a b = some c') :
    Desk.Reanalyzed a b c.desk c'.desk := by
  cases b <;>
  · obtain ⟨q, hq, rfl⟩ := map_eq_some_iff.mp h
    refine ⟨rfl, hq, fun b' hb' => ?_⟩
    cases b' <;> first | rfl | exact absurd rfl hb'

theorem woken {c' : Ctrl p} {qs : List Port} (h : Ctx.wakeUp c a qs = some c') :
    Desk.Woken a qs c.desk c'.desk :=
  Desk.woken_of_loop Ctrl.desk (Ctx.reanalyze · a ·) (Ctx.wakeUp · a ·) (fun _ => rfl)
    (fun c q _ => by simp only [Ctx.wakeUp, Ctrl.desk]; cases c.waiting a q <;> rfl)
    (fun _ _ _ => reanalyzed) h

theorem act_effect (a : Action) (h : act x a = some y) : Acts x y a := by
  cases hm : a.moves with
  | false =>
    have hquiet : a.effect = .quiet := by cases a <;> first | rfl | cases hm
    have hs := act_still h hm
    refine ⟨?_, hs.port, hs.addr, fun hn => hs.entry.trans ?_⟩
    · rw [hquiet]
      exact ⟨by rw [hs.desk], fun b => by rw [hs.desk]⟩
    cases a with
    | m_writeDataToCache =>
      obtain ⟨m, -, h⟩ := bind_eq_some_iff.mp h
      obtain ⟨e, he, -⟩ := map_eq_some_iff.mp h
      unfold Ctx.cacheEntry at he
      split at he
      · next hx => exact hx
      · cases he
    | _ => first | exact hn | cases hm
  | true => ?_
  cases a with
  | jj_popL1RequestQueue | k_popUnblockQueue | o_popIncomingResponseQueue =>
    obtain ⟨q, hq, rfl⟩ := map_eq_some_iff.mp h
    obtain ⟨m, -, hmap⟩ := MessageBuffer.dequeue_eq_some hq
    refine ⟨⟨rfl, fun b => ?_⟩, rfl, rfl, id⟩
    cases b <;> first | rfl | exact hmap
  | zn_recycleResponseNetwork =>
    obtain ⟨q, hq, rfl⟩ := map_eq_some_iff.mp h
    have hmap := MessageBuffer.recycle_stallMap hq
    refine ⟨⟨rfl, fun b => ?_⟩, rfl, rfl, id⟩
    cases b <;> first | rfl | exact hmap
  | qq_allocateL2CacheBlock =>
    simp only [act] at h
    split at h
    · next hx =>
      cases h
      exact ⟨⟨rfl, fun _ => rfl⟩, rfl, rfl, fun _ => hx⟩
    · obtain ⟨m, -, rfl⟩ := map_eq_some_iff.mp h
      exact ⟨⟨rfl, fun _ => rfl⟩, rfl, rfl, fun _ => rfl⟩
  | rr_deallocateL2CacheBlock =>
    obtain ⟨m, -, rfl⟩ := map_eq_some_iff.mp h
    exact ⟨⟨rfl, fun _ => rfl⟩, rfl, rfl, fun hn => by cases hn⟩
  | zz_stallAndWaitL1RequestQueue =>
    obtain ⟨q, hq, rfl⟩ := map_eq_some_iff.mp h
    refine ⟨⟨rfl, MessageBuffer.stallMessage_eq_some hq, fun b hb => ?_⟩, rfl, rfl, id⟩
    cases b <;> first | rfl | exact absurd rfl hb
  | kd_wakeUpDependents =>
    obtain ⟨c, hc, rfl⟩ := map_eq_some_iff.mp h
    exact ⟨(woken hc).wakes rfl rfl, rfl, rfl, id⟩
  | _ => cases hm

theorem run_entry {as : List Action} {n : Bool} (h : controller.run x as = some y)
    (hx : n = true → x.entry = true) (hn : as.foldl entryStep n = true) : y.entry = true := by
  induction as generalizing x n with
  | nil =>
    cases h
    exact hx hn
  | cons a as ih =>
    obtain ⟨z, hz, h⟩ := bind_eq_some_iff.mp h
    refine ih h (fun hstep => (act_effect a hz).entry ?_) hn
    cases n with
    | true => rwa [hx rfl]
    | false =>
      cases hxe : x.entry with
      | false => exact hstep
      | true =>
        revert hstep
        cases a <;> decide

/-! TBEs, entries and states. -/

structure Settled (c : Ctrl p) : Prop where
  tbe : ∀ a t, c.tbes a = some t → t.tbeState.noTBE = false
  entry : ∀ a e, c.cache.lookup a = some e → c.tbes a = none → e.cacheState.noTBE = true

theorem Synced.theTBE (hs : Synced x) : x.theTBE = x.ctrl.tbes x.addr := by
  rw [Ctx.theTBE, hs.tbe]
  cases x.ctrl.tbes x.addr <;> rfl

theorem Synced.cacheEntry (hs : Synced x) : x.cacheEntry = x.ctrl.cache.lookup x.addr := by
  rw [Ctx.cacheEntry, hs.entry]
  cases x.ctrl.cache.lookup x.addr <;> rfl

theorem Settled.tbe_eq (h : Settled x.ctrl) (hs : Synced x) : x.tbe = !(stateOf x).noTBE := by
  rw [hs.tbe, stateOf, hs.theTBE, hs.cacheEntry]
  cases ht : x.ctrl.tbes x.addr with
  | some t => simp [h.tbe _ t ht]
  | none =>
    cases he : x.ctrl.cache.lookup x.addr with
    | none => rfl
    | some e => simp [h.entry _ e he ht]

/-- A line that is not at rest and has no TBE has an entry. -/
theorem Settled.entry_eq (h : Settled x.ctrl) (hs : Synced x)
    (hst : ((stateOf x).noTBE && stateOf x != .NP)) : x.entry := by
  rw [Bool.and_eq_true, bne_iff_ne] at hst
  rw [hs.entry]
  cases he : x.ctrl.cache.lookup x.addr with
  | some e => rfl
  | none =>
    refine absurd ?_ hst.2
    have ht := h.tbe_eq hs
    rw [hst.1, hs.tbe, Bool.not_true, Option.isSome_eq_false_iff, Option.isNone_iff_eq_none] at ht
    rw [stateOf, hs.theTBE, hs.cacheEntry, ht, he]

/-- The state depends on the tables only, where the pointers agree with them. -/
theorem stateOf_congr (hx : Synced x) (hy : Synced y) (ht : y.ctrl.tbes y.addr = x.ctrl.tbes x.addr)
    (he : y.ctrl.cache.lookup y.addr = x.ctrl.cache.lookup x.addr) : stateOf y = stateOf x := by
  rw [stateOf, stateOf, hx.theTBE, hy.theTBE, hx.cacheEntry, hy.cacheEntry, ht, he]

theorem lineState_eq (hs : Synced x) : x.ctrl.lineState x.addr = stateOf x :=
  stateOf_congr hs (context_synced ..) rfl rfl

theorem lineState_congr (ht : d.tbes a = c.tbes a) (he : d.cache.lookup a = c.cache.lookup a) :
    d.lineState a = c.lineState a :=
  stateOf_congr (context_synced ..) (context_synced ..) ht he

theorem desk_putState (x : Ctx p) (s : State) : (putState x s).ctrl.desk = x.ctrl.desk :=
  (putState_still x s).desk

theorem Settled.ends {t : Bool} (h : Settled x.ctrl) (hl : Local x y t) (hy : Synced y)
    (ht : t = !s.noTBE) : Settled (putState y s).ctrl := by
  refine ⟨fun a u hu => ?_, fun a e he hnone => ?_⟩
  · rcases putState_tbe_cases hl hy a u hu with ⟨-, rfl, htrue⟩ | ⟨-, hu⟩
    · rw [htrue] at ht
      simpa using ht.symm
    · exact h.tbe a u hu
  · rw [putState_tbes hy.tbe, hl.addr] at hnone
    rw [putState_lookup hy.entry, hl.addr] at he
    by_cases ha : a = x.addr
    · rw [if_pos ha, Option.map_eq_none_iff, ha, ← hl.addr] at hnone
      rw [if_pos ha] at he
      obtain ⟨f, -, rfl⟩ := map_eq_some_iff.mp he
      have htbe : t = false := by rw [← hl.tbe, hy.tbe, hnone, Option.isSome_none]
      rw [htbe] at ht
      simpa using ht.symm
    · rw [if_neg ha, hl.tbes_ne a ha] at hnone
      rw [if_neg ha, hl.lookup_ne a ha] at he
      exact h.entry a e he hnone

/-- The state of the line after a transition, unless it is gone. -/
theorem lineState_putState (hy : Synced y) (h : y.tbe ∨ y.entry ∨ s.resting) :
    ((putState y s).ctrl.lineState y.addr).resting = s.resting := by
  rw [Ctrl.lineState, stateOf, (context_synced ..).theTBE, (context_synced ..).cacheEntry]
  simp only [Ctrl.context, putState_tbes hy.tbe, putState_lookup hy.entry, if_true]
  cases ht : y.ctrl.tbes y.addr with
  | some t => rfl
  | none =>
    cases he : y.ctrl.cache.lookup y.addr with
    | some e => rfl
    | none =>
      rw [hy.tbe, hy.entry, ht, he] at h
      rcases h with h | h | h
      · cases h
      · cases h
      · exact h.symm

structure Kept (c : Ctrl p) : Prop where
  settled : Settled c
  waits : ∀ a, c.desk.Waits .l1Request a (c.lineState a).waits

theorem responseEvent_port {m : ResponseMsg} {e : Event} (h : c.responseEvent m = some e) :
    .response ∈ e.ports := by
  unfold Ctrl.responseEvent at h
  split at h
  · split at h
    · cases h
      split <;> decide
    · obtain ⟨t, -, rfl⟩ := map_eq_some_iff.mp h
      split <;> decide
    · cases h
  · split at h <;> cases h <;> decide

theorem trigger_port {port : Port} {t : Trigger} (h : c.trigger port = some t) :
    port ∈ t.event.ports := by
  cases port with
  | l1Request =>
    obtain ⟨m, -, h⟩ := bind_eq_some_iff.mp h
    unfold Ctrl.l1RequestIn at h
    split at h
    · split at h
      · obtain ⟨e, he, rfl⟩ := map_eq_some_iff.mp h
        show Port.l1Request ∈ e.ports
        revert he
        cases m.type <;> intro he <;> cases he <;> first | decide | (split <;> decide)
      · obtain ⟨v, -, h⟩ := bind_eq_some_iff.mp h
        obtain ⟨e, -, rfl⟩ := map_eq_some_iff.mp h
        dsimp only
        split <;> decide
    · cases h
  | response =>
    obtain ⟨m, -, h⟩ := bind_eq_some_iff.mp h
    obtain ⟨e, he, rfl⟩ := map_eq_some_iff.mp h
    exact responseEvent_port he
  | l1Unblock =>
    obtain ⟨m, -, h⟩ := bind_eq_some_iff.mp h
    obtain ⟨e, he, rfl⟩ := map_eq_some_iff.mp h
    show Port.l1Unblock ∈ e.ports
    revert he
    cases m.type <;> intro he <;> cases he <;> decide

theorem Kept.transition {z : Ctx p} {e : Event} (h : Kept x.ctrl) (hs : Synced x)
    (hp : x.port ∈ e.ports) (htr : controller.transition x e = some z) :
    Kept z.ctrl ∧ Desk.Carried x.ctrl.desk z.ctrl.desk := by
  obtain ⟨s, r, y, hst, hr, hsr, her, hrun, hset⟩ := Lib.Controller.transition_cases htr
  cases hset
  obtain rfl : stateOf x = s := Option.some.inj hst
  have hl := run_local hrun
  have hy := hl.synced hs
  generalize hnext : r.next.getD (stateOf x) = s'
  obtain ⟨htbe, hentry⟩ := settles hr hsr hnext
  have ht : r.actions.foldl tbeStep x.tbe = !s'.noTBE := by rw [h.settled.tbe_eq hs, htbe]
  have hsettled := h.settled.ends hl hy ht
  have hruns : Desk.Runs Ctx.lower .l1Request x.port x.addr
    (r.actions.map Action.effect) x.ctrl.desk
      (putState y s').ctrl.desk := by
    rw [desk_putState]
    exact runs_of_run (m := controller) (fun x : Ctx p => x.ctrl.desk) Ctx.port Ctx.addr
      (fun x a y h => ⟨(act_effect a h).does, (act_effect a h).port, (act_effect a h).addr⟩) hrun
  have hafter : ((putState y s').ctrl.lineState x.addr).resting = s'.resting := by
    rw [← hl.addr]
    refine lineState_putState hy ?_
    rcases hentry with htrue | hrest | hn
    · left
      rw [hl.tbe, ht, htrue]
      rfl
    · exact .inr (.inr hrest)
    · exact .inr (.inl (run_entry hrun (h.settled.entry_eq hs) hn))
  obtain ⟨hwaits, hcarried⟩ := waits_of_row (rows_keep r hr) hsr her hp hruns h.waits
    (fun b => ((putState y s').ctrl.lineState b).waits) (congrArg State.waits (lineState_eq hs))
    (by rw [hnext]; exact State.waits_eq hafter) fun b hb => by
      refine congrArg State.waits (lineState_congr ?_ ?_)
      · rw [putState_tbes hy.tbe, hl.addr, if_neg hb, hl.tbes_ne b hb]
      · rw [putState_lookup hy.entry, hl.addr, if_neg hb, hl.lookup_ne b hb]
  exact ⟨⟨hsettled, hwaits⟩, hcarried⟩

theorem Kept.wakeup {port : Port} {out : List OutMsg} (h : Kept c)
    (hw : c.wakeup port = some (d, out)) : Kept d ∧ Desk.Carried c.desk d.desk := by
  obtain ⟨t, ht, hw⟩ := bind_eq_some_iff.mp hw
  obtain ⟨z, hz, heq⟩ := map_eq_some_iff.mp hw
  cases heq
  exact Kept.transition (x := c.context port t.addr) h (context_synced ..) (trigger_port ht) hz

inductive Moves (c d : Ctrl p) : Prop
  | buffers (cache : d.cache = c.cache) (tbes : d.tbes = c.tbes) (quiet : Desk.Quiet c.desk d.desk)
  | wakeup {port : Port} {out : List OutMsg} (h : c.wakeup port = some (d, out))

theorem Kept.moves (h : Kept c) (hm : Moves c d) :
    Kept d ∧ Desk.Carried c.desk d.desk := by
  cases hm with
  | buffers hcache htbes hquiet =>
    refine ⟨⟨⟨fun a t ht => h.settled.tbe a t (htbes ▸ ht),
      fun a e he hnone => h.settled.entry a e (hcache ▸ he) (htbes ▸ hnone)⟩,
      fun a => ?_⟩, .of_stallMap hquiet.stallMap⟩
    rw [lineState_congr (c := c) (congrFun htbes a) (by rw [hcache])]
    exact (h.waits a).quiet hquiet
  | wakeup hw => exact h.wakeup hw

theorem Kept.noneStranded (h : Kept c) :
    c.desk.NoneStranded fun a => (c.lineState a).resting :=
  Desk.noneStranded_of_waits h.waits fun _ hr => if_pos hr

end L2Cache


end SdoCore.Mesi
