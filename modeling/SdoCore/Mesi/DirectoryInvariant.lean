import SdoCore.Mesi.Directory
import SdoCore.Mesi.L1Invariant

/-! What the directory keeps as long as no DMA request comes in: it has no TBE, no
line is in a state of a DMA transfer, and its requests are well formed. -/

namespace SdoCore.Mesi

open List
open Option (bind_eq_some_iff map_eq_some_iff)

namespace Directory

/-- The states of a DMA transfer. -/
def State.isDMA : State → Bool
  | .ID | .ID_W | .M_DRD | .M_DRDI | .M_DWR | .M_DWRI => true
  | _ => false

def Event.isDMA : Event → Bool
  | .DMA_READ | .DMA_WRITE => true
  | _ => false

structure Inv (c : Ctrl) : Prop where
  noTBE : ∀ a, c.tbes a = none
  noDMA : ∀ a, (c.entries a).directoryState.isDMA = false
  requests : c.requestIn.All (·.Ok .directory)

/-! ## What an action can do -/

/-- States, TBEs and well-formedness of requests and messages stay. -/
structure Calm (x y : Ctx) : Prop where
  addr : y.addr = x.addr
  tbe : y.tbe = x.tbe
  tbes : y.ctrl.tbes = x.ctrl.tbes
  states : ∀ a, (y.ctrl.entries a).directoryState = (x.ctrl.entries a).directoryState
  requests : x.ctrl.requestIn.All (·.Ok .directory) → y.ctrl.requestIn.All (·.Ok .directory)
  out : (∀ o ∈ x.out, o.Ok) → ∀ o ∈ y.out, o.Ok

namespace Calm

theorem refl (x : Ctx) : Calm x x := ⟨rfl, rfl, rfl, fun _ => rfl, id, id⟩

variable {x y : Ctx} {c : Ctrl}

theorem trans {z : Ctx} (h : Calm x y) (h' : Calm y z) : Calm x z :=
  ⟨h'.addr.trans h.addr, h'.tbe.trans h.tbe, h'.tbes.trans h.tbes,
    fun a => (h'.states a).trans (h.states a), fun hr => h'.requests (h.requests hr),
    fun ho => h'.out (h.out ho)⟩

theorem send {o : OutMsg} (ho : o.Ok) : Calm x (x.send o) := by
  refine ⟨rfl, rfl, rfl, fun _ => rfl, id, fun h o' ho' => ?_⟩
  rcases mem_append.mp ho' with ho' | ho'
  · exact h o' ho'
  · rw [mem_singleton.mp ho']
    exact ho

theorem setOwner (x : Ctx) (a : Nat) (o : Option MachineID) :
    Calm x (x.modifyEntry a fun e => { e with owner := o }) := by
  refine ⟨rfl, rfl, rfl, fun b => ?_, id, id⟩
  by_cases hb : b = a
  · subst hb
    simp [Ctx.modifyEntry]
  · simp [Ctx.modifyEntry, hb]

theorem requeue (hentries : c.entries = x.ctrl.entries) (htbes : c.tbes = x.ctrl.tbes)
    (hreq : x.ctrl.requestIn.All (·.Ok .directory) → c.requestIn.All (·.Ok .directory)) :
    Calm x { x with ctrl := c } :=
  ⟨rfl, rfl, htbes, fun a => by rw [hentries], hreq, id⟩

theorem queued {rs : List MemoryRequest} (h : x.queued (some (c, rs)) = some y)
    (hentries : c.entries = x.ctrl.entries)
    (htbes : c.tbes = x.ctrl.tbes) (hreq : c.requestIn = x.ctrl.requestIn) : Calm x y := by
  cases h
  refine ⟨rfl, rfl, htbes, fun a => by rw [hentries], fun hr => by rwa [hreq], fun h o' ho' => ?_⟩
  rcases mem_append.mp ho' with ho' | ho'
  · exact h o' ho'
  · obtain ⟨r, -, rfl⟩ := mem_map.mp ho'
    trivial

theorem sendMemoryData {hit : Bool} (h : x.sendMemoryData hit = some y) : Calm x y := by
  obtain ⟨m, -, rfl⟩ := map_eq_some_iff.mp h
  exact (send (o := .response [m.originalRequestorMachId] _) trivial).trans (setOwner _ _ _)

theorem queueRead {t : Nat} (h : x.queueRead t = some y) : Calm x y := by
  obtain ⟨m, -, h⟩ := bind_eq_some_iff.mp h
  unfold Ctrl.queueMemoryRead at h
  dsimp only at h
  split at h
  · exact queued h rfl rfl rfl
  split at h
  · cases h
  split at h
  · exact queued h rfl rfl rfl
  · exact queued h rfl rfl rfl
  split at h
  · exact queued h rfl rfl rfl
  · exact queued h rfl rfl rfl

theorem queueSpecRead {hit : Bool} (h : x.queueSpecRead hit = some y) : Calm x y := by
  obtain ⟨m, -, h⟩ := bind_eq_some_iff.mp h
  unfold Ctrl.queueMemorySpecRead at h
  split at h
  · cases h
  · exact queued h rfl rfl rfl

theorem wakeUp {d : Ctrl} {a : Nat} {qs : List Port} (h : Ctx.wakeUp c a qs = some d) :
    d.entries = c.entries ∧ d.tbes = c.tbes ∧
      (c.requestIn.All (·.Ok .directory) → d.requestIn.All (·.Ok .directory)) := by
  induction qs generalizing c with
  | nil =>
    cases h
    exact ⟨rfl, rfl, id⟩
  | cons q qs ih =>
    unfold Ctx.wakeUp at h
    split at h
    · next b _ =>
      obtain ⟨c', hc', h⟩ := bind_eq_some_iff.mp h
      obtain ⟨h1, h2, h3⟩ := ih h
      cases b with
      | requestNetwork =>
        obtain ⟨q', hq', rfl⟩ := map_eq_some_iff.mp hc'
        exact ⟨h1, h2, fun hr => h3 (hr.reanalyzeMessages hq')⟩
      | responseNetwork | memQueue =>
        obtain ⟨q', -, rfl⟩ := map_eq_some_iff.mp hc'
        exact ⟨h1, h2, h3⟩
    · exact ih h

end Calm

/-- Only the actions of a DMA transfer allocate and free TBEs. -/
theorem act_calm {x y : Ctx} : ∀ a, a ≠ .v_allocateTBE → a ≠ .w_deallocateTBE →
    act x a = some y → Calm x y
  | .a_sendAck, _, _, h | .dj_sendSpecData, _, _, h | .aa_sendAck, _, _, h
  | .qw_queueMemoryWBRequest, _, _, h | .qw_queueMemoryWBRequest_partialRequest, _, _, h
  | .da_sendDMAAck, _, _, h | .inv_sendCacheInvalidate, _, _, h => by
    obtain ⟨m, -, rfl⟩ := map_eq_some_iff.mp h
    exact Calm.send trivial
  | .d_sendData_Hit, _, _, h | .dex_sendExposeData, _, _, h | .ds_sendSpecData, _, _, h =>
    Calm.sendMemoryData h
  | .j_popIncomingRequestQueue, _, _, h => by
    obtain ⟨q, hq, rfl⟩ := map_eq_some_iff.mp h
    exact Calm.requeue rfl rfl fun hr => hr.dequeue hq
  | .k_popIncomingResponseQueue, _, _, h | .l_popMemQueue, _, _, h => by
    obtain ⟨q, -, rfl⟩ := map_eq_some_iff.mp h
    exact Calm.requeue rfl rfl id
  | .kd_wakeUpDependents, _, _, h => by
    obtain ⟨c, hc, rfl⟩ := map_eq_some_iff.mp h
    obtain ⟨h1, h2, h3⟩ := Calm.wakeUp hc
    exact Calm.requeue h1 h2 h3
  | .qf_queueMemoryFetchRequest, _, _, h | .qfs_queueMemorySpecFetchRequest, _, _, h
  | .qfe_queueMemoryExposeRequest, _, _, h => Calm.queueRead h
  | .hj_spec_load_mem_hit_mem, _, _, h | .hj_spec_load_perfect_hit_mem, _, _, h
  | .hj_spec_load_perfectUnsafe_hit_mem, _, _, h | .mj_spec_load_mem_miss_mem, _, _, h
  | .mj_spec_load_perfect_miss_mem, _, _, h => Calm.queueSpecRead h
  | .qf_queueMemoryFetchRequestDMA, _, _, h => nomatch h
  | .dr_sendDMAData, _, _, h | .drp_sendDMAData, _, _, h
  | .qw_queueMemoryWBRequest_partialTBE, _, _, h => by
    obtain ⟨m, -, h⟩ := bind_eq_some_iff.mp h
    obtain ⟨t, -, rfl⟩ := map_eq_some_iff.mp h
    exact Calm.send trivial
  | .z_stallAndWaitRequest, _, _, h => by
    obtain ⟨q, hq, rfl⟩ := map_eq_some_iff.mp h
    exact Calm.requeue rfl rfl fun hr => hr.stallMessage hq
  | .zz_recycleDMAQueue, _, _, h => by
    obtain ⟨q, hq, rfl⟩ := map_eq_some_iff.mp h
    exact Calm.requeue rfl rfl fun hr => hr.recycle hq
  | .v_allocateTBE, hv, _, _ => absurd rfl hv
  | .w_deallocateTBE, _, hw, _ => absurd rfl hw

theorem calm_rows : ∀ r ∈ transitions, (∃ s ∈ r.states, s.isDMA = false) →
    (∃ e ∈ r.events, e.isDMA = false) →
    (∀ s ∈ r.states, s.isDMA = false → (r.next.getD s).isDMA = false) ∧
      .v_allocateTBE ∉ r.actions ∧ .w_deallocateTBE ∉ r.actions := by
  decide

theorem run_calm {x y : Ctx} {as : List Action} (hv : .v_allocateTBE ∉ as)
    (hw : .w_deallocateTBE ∉ as) (h : controller.run x as = some y) : Calm x y :=
  Lib.Controller.run_keeps (P := fun z => Calm x z)
    (fun b hb _ _ huv hu => hu.trans
      (act_calm b (fun h => hv (h ▸ hb)) (fun h => hw (h ▸ hb)) huv)) h (Calm.refl _)

/-! ## The invariant -/

theorem Inv.stateOf {x : Ctx} (hc : Inv x.ctrl) :
    stateOf x = (x.ctrl.entries x.addr).directoryState := by
  simp [Directory.stateOf, Ctx.theTBE, hc.noTBE]

theorem Inv.trigger {c : Ctrl} (hc : Inv c) {port : Port} {e : Event} {a : Nat}
    (h : c.trigger port = some (e, a)) : e.isDMA = false := by
  cases port with
  | requestNetwork =>
    obtain ⟨m, hm, h⟩ := bind_eq_some_iff.mp h
    obtain ⟨e', he', heq⟩ := map_eq_some_iff.mp h
    cases heq
    have hok : m.Ok .directory := hc.requests.head hm
    revert he'
    cases ht : m.type <;> intro he' <;> cases he' <;> first
      | rfl
      | exact absurd ht hok.read
      | exact absurd ht hok.write
  | responseNetwork =>
    obtain ⟨m, -, h⟩ := bind_eq_some_iff.mp h
    obtain ⟨e', he', heq⟩ := map_eq_some_iff.mp h
    cases heq
    revert he'
    cases m.type <;> intro he' <;> cases he' <;> rfl
  | memQueue =>
    obtain ⟨m, -, heq⟩ := map_eq_some_iff.mp h
    cases heq
    cases m.type <;> rfl

theorem putState_eq {x : Ctx} (ht : x.tbe = false) (s : State) :
    putState x s = x.modifyEntry x.addr fun e => { e with directoryState := s } := by
  simp [putState, Ctx.modifyTBE, ht]

theorem Inv.wakeup {c d : Ctrl} {port : Port} {out : List OutMsg} (hc : Inv c)
    (h : c.wakeup port = some (d, out)) : Inv d ∧ ∀ o ∈ out, o.Ok := by
  obtain ⟨⟨e, a⟩, ht, h⟩ := bind_eq_some_iff.mp h
  obtain ⟨z, hz, heq⟩ := map_eq_some_iff.mp h
  cases heq
  obtain ⟨s, r, y, hst, hr, hsr, her, hrun, hset⟩ := Lib.Controller.transition_cases hz
  cases hset
  have hs : s.isDMA = false := by
    rw [← Option.some.inj hst, Inv.stateOf (x := c.context port a) hc]
    exact hc.noDMA a
  obtain ⟨hnext, hv, hw⟩ := calm_rows r hr ⟨s, hsr, hs⟩ ⟨e, her, hc.trigger ht⟩
  have hcalm := run_calm hv hw hrun
  have hytbe : y.tbe = false := by
    rw [hcalm.tbe]
    simp [Ctrl.context, hc.noTBE]
  rw [putState_eq hytbe]
  refine ⟨⟨fun b => ?_, fun b => ?_, hcalm.requests hc.requests⟩, hcalm.out fun o ho => nomatch ho⟩
  · exact (congrFun hcalm.tbes b).trans (hc.noTBE b)
  by_cases hb : b = y.addr
  · subst hb
    simpa [Ctx.modifyEntry] using hnext s hsr hs
  have hsame : (y.ctrl.entries b).directoryState = (c.entries b).directoryState :=
    hcalm.states b
  simpa [Ctx.modifyEntry, hb, hsame] using hc.noDMA b

/-! ## Oblivious loads -/

/-- The row for `SpecLoad_Mem` in a state that is not one of a DMA transfer. -/
def specActions (hit : Bool) : List Action :=
  [if hit then .hj_spec_load_mem_hit_mem
    else .mj_spec_load_mem_miss_mem, .j_popIncomingRequestQueue]

theorem spec_row {st : State} (hst : st.isDMA = false) :
    ∃ r, Lib.rowFor transitions st .SpecLoad_Mem = some r ∧ r.next = none ∧
      r.actions = specActions (st == .I) := by
  cases st <;> first | exact ⟨_, rfl, rfl, rfl⟩ | cases hst

theorem run_specActions (x : Ctx) (hit : Bool) :
    controller.run x (specActions hit) =
      (x.queueSpecRead hit).bind fun y => act y .j_popIncomingRequestQueue := by
  have hfirst : controller.run x (specActions hit) =
      (x.queueSpecRead hit).bind fun y => controller.run y [.j_popIncomingRequestQueue] := by
    cases hit <;> rfl
  rw [hfirst]
  congr
  funext y
  exact Option.bind_fun_some _

/-- `SpecLoad_Mem` is taken off the queue and starts a memory read, and nothing else. -/
theorem run_specActions_some {x : Ctx} {m : RequestMsg} {q : List RequestMsg} (hit : Bool)
    (hq : x.ctrl.requestIn.queue = m :: q) (hcore : m.origin.num < 8) :
    ∃ b o, controller.run x (specActions hit) = some { x with
        ctrl := { x.ctrl with
          requestIn := { x.ctrl.requestIn with queue := q }, specBuf := b }
        out := x.out ++ [o] } ∧ o.isSpec := by
  let sbe : SBE := { x.ctrl.specBuf (sbeSlot m.origin.num m.idx) with
    address := x.addr, hitAtMem := hit, originalRequestor := m.origin }
  let rd : MemoryRequest :=
    { addr := x.addr, id := m.requestor, type := 3, coreId := m.origin.num, sbeId := m.idx }
  have hread : x.queueSpecRead hit = some { x with
      ctrl := x.ctrl.setSpecBuf m.origin.num m.idx sbe, out := x.out ++ [.memory rd] } := by
    simp [Ctx.queueSpecRead, Ctx.requestIn?, hq, Ctrl.queueMemorySpecRead, Nat.not_le.mpr hcore,
      Ctx.queued, sbe, rd]
  refine ⟨(x.ctrl.setSpecBuf m.origin.num m.idx sbe).specBuf, .memory rd, ?_, rfl⟩
  rw [run_specActions, hread]
  simp [act, Ctrl.setSpecBuf, hq, MessageBuffer.dequeue]

/-- The buffer of the directory has rows for eight cores. -/
theorem run_specActions_none {x : Ctx} {m : RequestMsg} (hit : Bool) (hm : x.requestIn? = some m)
    (hcore : ¬m.origin.num < 8) :
    controller.run x (specActions hit) = none := by
  rw [run_specActions]
  simp [Ctx.queueSpecRead, hm, Ctrl.queueMemorySpecRead, Nat.not_lt.mp hcore, Ctx.queued]

theorem putState_stateOf {x : Ctx} (hc : ∀ a, x.ctrl.tbes a = none) :
    putState x (stateOf x) = x := by
  have hst : stateOf x = (x.ctrl.entries x.addr).directoryState := by
    simp [stateOf, Ctx.theTBE, hc]
  have htbe : (x.modifyTBE fun t => { t with tbeState := stateOf x }) = x := by
    unfold Ctx.modifyTBE
    split
    · rw [hc, Option.map_none, ← hc x.addr, Function.update_eq_self]
    · rfl
  rw [putState, htbe, hst, Ctx.modifyEntry, Function.update_eq_self]

section SpecWakeup

variable {c : Ctrl} {m : RequestMsg} {q : List RequestMsg}

theorem Inv.spec_trigger (hq : c.requestIn.queue = m :: q) (hm : m.type = .getspecMem) :
    c.trigger .requestNetwork = some (.SpecLoad_Mem, m.addr) := by
  simp [Ctrl.trigger, hq, hm, requestEvent]

section
variable (hc : Inv c) (hq : c.requestIn.queue = m :: q) (hm : m.type = .getspecMem)
include hc hq hm

theorem Inv.spec_wakeup (hcore : m.origin.num < 8) : ∃ b out, c.wakeup .requestNetwork =
        some ({ c with requestIn := { c.requestIn with queue := q }, specBuf := b }, out) ∧
      ∀ o ∈ out, o.isSpec := by
  generalize hx : c.context .requestNetwork m.addr = x
  have hxc : x.ctrl = c := by rw [← hx]; rfl
  have hinv : Inv x.ctrl := hxc ▸ hc
  have hxq : x.ctrl.requestIn.queue = m :: q := by rw [hxc, hq]
  have hdma : (Directory.stateOf x).isDMA = false := hinv.stateOf ▸ hinv.noDMA x.addr
  obtain ⟨r, hrow, hnext, hacts⟩ := spec_row hdma
  obtain ⟨b, o, hrun, ho⟩ := run_specActions_some (Directory.stateOf x == .I) hxq hcore
  generalize hy : ({ x with
    ctrl := { x.ctrl with requestIn := { x.ctrl.requestIn with queue := q }, specBuf := b }
    out := x.out ++ [o] } : Ctx) = y at hrun
  have hst : Directory.stateOf y = Directory.stateOf x := by rw [← hy]; rfl
  have htrans : controller.transition x .SpecLoad_Mem = some y := by
    rw [Lib.Controller.transition_of_row (s := Directory.stateOf x) rfl hrow, hacts, hrun]
    change some (putState y (r.next.getD (Directory.stateOf x))) = some y
    rw [hnext, Option.getD_none, ← hst, putState_stateOf (by rw [← hy]; exact hinv.noTBE)]
  refine ⟨b, [o], ?_, by simpa using ho⟩
  have hxo : x.out = [] := by rw [← hx]; rfl
  simp only [Ctrl.wakeup, Inv.spec_trigger hq hm, Option.bind_some, hx, htrans, Option.map_some]
  rw [← hy, hxc, hxo, nil_append]

theorem Inv.spec_wakeup_none (hcore : ¬m.origin.num < 8) : c.wakeup .requestNetwork = none := by
  have htrans : controller.transition (c.context .requestNetwork m.addr) .SpecLoad_Mem = none := by
    generalize hx : c.context .requestNetwork m.addr = x
    have hxc : x.ctrl = c := by rw [← hx]; rfl
    have hinv : Inv x.ctrl := hxc ▸ hc
    have hdma : (Directory.stateOf x).isDMA = false := hinv.stateOf ▸ hinv.noDMA x.addr
    obtain ⟨r, hrow, -, hacts⟩ := spec_row hdma
    rw [Lib.Controller.transition_of_row (s := Directory.stateOf x) rfl hrow, hacts,
      run_specActions_none _ (by rw [Ctx.requestIn?, hxc, hq]; rfl) hcore, Option.bind_none]
  simp only [Ctrl.wakeup, Inv.spec_trigger hq hm, Option.bind_some, htrans, Option.map_none]

end

end SpecWakeup

end Directory

end SdoCore.Mesi
