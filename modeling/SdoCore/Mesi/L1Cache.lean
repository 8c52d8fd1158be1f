import SdoCore.Lib.Controller
import SdoCore.Mesi.Messages

/-! The L1 controller (`MESI_Two_Level-L1cache.sm`): its states and events, its
actions, its transition table row by row, and the input ports, which choose the
event and the cache entry a transition works on. -/

namespace SdoCore.Mesi

open Function (update)

namespace L1Cache

inductive State
  | NP | I | S | E | M | X
  | IS | IM | IX | SM | IS_I | M_I | SINK_WB_ACK
  | PF_IS | PF_IM | PF_SM | PF_IS_I
  deriving DecidableEq

inductive Event
  | Load | Ifetch | Store | SpecLoad | Expose
  | SpecLoad_L0 | SpecLoad_L1 | SpecLoad_Mem | SpecLoad_Perfect | SpecLoad_PerfectUnsafe
  | Inv | L1_Replacement
  | Fwd_GETX | Fwd_GETS | Fwd_GET_INSTR | Fwd_GETSPEC | Fwd_EXPOSE
  | Data | Data_Exclusive | DataS_fromL1 | Data_all_Acks | Data_Spec_fromL1 | Data_Spec_fromMem
  | Ack | Ack_all | WB_Ack
  | PF_Load | PF_Ifetch | PF_Store
  deriving DecidableEq

structure Entry where
  cacheState : State := .I
  dataBlk : DataBlock := 0
  (dirty isPrefetch hitAtL0 hitAtL1 hitAtMem : Bool := false)
  deriving DecidableEq

structure TBE where
  tbeState : State := .I
  dataBlk : DataBlock := 0
  dirty : Bool := false
  isPrefetch : Bool := false
  pendingAcks : Int := 0
  deriving DecidableEq

inductive Kind
  | dcache | icache
  deriving DecidableEq

/-- The input ports, by increasing rank. -/
inductive Port
  | mandatoryQueue | requestL1Network | responseL1Network | optionalQueue
  deriving DecidableEq

/-- `seqWrite` holds the data of the store outstanding for a line in the
sequencer, which writes it into the block when it is called back; `waiting`
is `m_waiting_buffers`: for a line and the port in service, the buffer stalled. -/
structure Ctrl (p : CacheParams) where
  dcache : CacheMemory p Entry
  icache : CacheMemory p Entry
  tbes : Nat → Option TBE
  mandatoryQueue : MessageBuffer RubyRequest
  optionalQueue : MessageBuffer RubyRequest
  requestIn : MessageBuffer RequestMsg
  responseIn : MessageBuffer ResponseMsg
  waiting : Nat → Port → Option Port
  seqWrite : Nat → DataBlock
  sendEvictions : Bool

variable {p : CacheParams}

def Ctrl.cache (c : Ctrl p) : Kind → CacheMemory p Entry
  | .dcache => c.dcache
  | .icache => c.icache

def Ctrl.setCache (c : Ctrl p) (k : Kind) (m : CacheMemory p Entry) : Ctrl p :=
  match k with
  | .dcache => { c with dcache := m }
  | .icache => { c with icache := m }

/-- `getCacheEntry`: the cache that holds the line, the data cache first. -/
def Ctrl.holder (c : Ctrl p) (a : Nat) : Option Kind :=
  if c.dcache.isTagPresent a then some .dcache
  else if c.icache.isTagPresent a then some .icache
  else none

/-! ## Actions -/

inductive Action
  | a_issueGETS | as_issueGETSPEC | ij_issueGETSPEC_L1_pass_L0 | ij_issueGETSPEC_Mem_pass_L0
  | ij_issueGETSPEC_Perfect_pass_L0 | ij_issueGETSPEC_PerfectUnsafe_pass_L0 | ex_issueEXPOSE
  | pa_issuePfGETS | ai_issueGETINSTR | pai_issuePfGETINSTR | b_issueGETX | pb_issuePfGETX
  | c_issueUPGRADE | d_sendDataToRequestor | dex_sendDataToExposeRequestor
  | ds_sendDataToSpecRequestor | d2_sendDataToL2 | d2ex_sendExposeDataToL2
  | dt_sendDataToRequestor_fromTBE | dtex_sendDataToExposeRequestor_fromTBE
  | dts_sendDataToSpecRequestor_fromTBE | dts_replayRequestToL2 | d2t_sendDataToL2_fromTBE
  | d2tex_sendExposeDataToL2_fromTBE | f_sendDataToL2 | ft_sendDataToL2_fromTBE | fi_sendInvAck
  | forward_eviction_to_cpu | forward_external_eviction_to_cpu | g_issuePUTX | j_sendUnblock
  | jj_sendExclusiveUnblock | dg_invalidate_sc | h_load_hit | h_spec_load_hit
  | h_invisi_spec_load_hit | mj_spec_load_miss_l0 | hxj_send_spec_data_from_l1_to_cpu
  | hxj_send_spec_data_from_mem_to_cpu | h_ifetch_hit | hx_load_hit | hsx_invisi_spec_load_hit
  | hh_store_hit | hhx_store_hit | i_allocateTBE | iw_allocateTBEWithoutCacheEntry
  | k_popMandatoryQueue | l_popRequestQueue | o_popIncomingResponseQueue | s_deallocateTBE
  | u_writeDataToL1Cache | q_updateAckCount | ff_deallocateL1CacheBlock | oo_allocateL1DCacheBlock
  | pp_allocateL1ICacheBlock | z_stallAndWaitMandatoryQueue | kd_wakeUpDependents
  | pq_popPrefetchQueue | mp_markPrefetched
  deriving DecidableEq

/-- A transition in progress: the controller, the entry and TBE it works on (the
pointers `cache_entry` and `tbe`), the port it came from, and what it has sent. -/
structure Ctx (p : CacheParams) where
  ctrl : Ctrl p
  machineID : MachineID
  addr : Nat
  entry : Option Kind
  tbe : Bool
  port : Port
  out : List OutMsg := []

namespace Ctx

def cacheEntry (x : Ctx p) : Option Entry := x.entry.bind fun k => (x.ctrl.cache k).lookup x.addr

def theTBE (x : Ctx p) : Option TBE := if x.tbe then x.ctrl.tbes x.addr else none

def send (x : Ctx p) (m : OutMsg) : Ctx p := { x with out := x.out ++ [m] }

def modifyEntry (x : Ctx p) (f : Entry → Entry) : Ctx p :=
  match x.entry with
  | some k => { x with ctrl := x.ctrl.setCache k ((x.ctrl.cache k).modify x.addr f) }
  | none => x

def modifyTBE (x : Ctx p) (f : TBE → TBE) : Ctx p :=
  if x.tbe then
    { x with ctrl := { x.ctrl with
        tbes := update x.ctrl.tbes x.addr ((x.ctrl.tbes x.addr).map f) } }
  else x

/-- Issue a request to the L2 for the request at the head of the mandatory queue. -/
def issue (x : Ctx p) (t : CoherenceRequestType) : Option (Ctx p) :=
  x.ctrl.mandatoryQueue.queue.head?.map fun m =>
    x.send (.request [.l2Cache]
      { addr := x.addr, type := t, requestor := x.machineID, idx := m.idx })

def issuePf (x : Ctx p) (t : CoherenceRequestType) : Option (Ctx p) :=
  x.ctrl.optionalQueue.queue.head?.map fun _ =>
    x.send (.request [.l2Cache] { addr := x.addr, type := t, requestor := x.machineID })

/-- Send the block of the cache entry, or of the TBE, as data. -/
def sendData (x : Ctx p) (dst : NetDest) : Option (Ctx p) :=
  x.cacheEntry.map fun e =>
    x.send (.response dst
      { addr := x.addr, type := .data, sender := x.machineID, dataBlk := e.dataBlk,
        dirty := e.dirty })

def sendDataFromTBE (x : Ctx p) (dst : NetDest) : Option (Ctx p) :=
  x.theTBE.map fun t =>
    x.send (.response dst
      { addr := x.addr, type := .data, sender := x.machineID, dataBlk := t.dataBlk,
        dirty := t.dirty })

def requestIn? (x : Ctx p) : Option RequestMsg := x.ctrl.requestIn.queue.head?
def responseIn? (x : Ctx p) : Option ResponseMsg := x.ctrl.responseIn.queue.head?
def mandatoryIn? (x : Ctx p) : Option RubyRequest := x.ctrl.mandatoryQueue.queue.head?

/-- The sequencer writes the store's data into the block. -/
def storeHit (x : Ctx p) : Ctx p :=
  x.modifyEntry fun e => { e with dataBlk := x.ctrl.seqWrite x.addr, dirty := true }

def clearHits (x : Ctx p) : Ctx p :=
  x.modifyEntry fun e => { e with hitAtL0 := false, hitAtL1 := false, hitAtMem := false }

def reanalyze (c : Ctrl p) (a : Nat) : Port → Option (Ctrl p)
  | .mandatoryQueue =>
    (c.mandatoryQueue.reanalyzeMessages a).map fun q => { c with mandatoryQueue := q }
  | .requestL1Network => (c.requestIn.reanalyzeMessages a).map fun q => { c with requestIn := q }
  | .responseL1Network => (c.responseIn.reanalyzeMessages a).map fun q => { c with responseIn := q }
  | .optionalQueue =>
    (c.optionalQueue.reanalyzeMessages a).map fun q => { c with optionalQueue := q }

/-- Wake the buffers registered for the line under the given ports. -/
def wakeUp (c : Ctrl p) (a : Nat) : List Port → Option (Ctrl p)
  | [] => some c
  | q :: qs =>
    match c.waiting a q with
    | some b => (reanalyze c a b).bind fun c => wakeUp c a qs
    | none => wakeUp c a qs

/-- The ports of a lower rank, the highest first. -/
def lower : Port → List Port
  | .mandatoryQueue => []
  | .requestL1Network => [.mandatoryQueue]
  | .responseL1Network => [.requestL1Network, .mandatoryQueue]
  | .optionalQueue => [.responseL1Network, .requestL1Network, .mandatoryQueue]

/-- `wakeUpBuffers`: only what is registered under a port of a lower rank than the
one in service is woken; the registrations all go. -/
def wakeUpBuffers (x : Ctx p) : Option (Ctx p) :=
  (wakeUp x.ctrl x.addr (lower x.port)).map fun c =>
    { x with ctrl := { c with waiting := update c.waiting x.addr fun _ => none } }

/-- `stall_and_wait` on the mandatory queue, registered under the port in service. -/
def stallMandatory (x : Ctx p) : Option (Ctx p) :=
  (x.ctrl.mandatoryQueue.stallMessage x.addr).map fun q =>
    { x with ctrl := { x.ctrl with
        mandatoryQueue := q
        waiting := update x.ctrl.waiting x.addr
          (update (x.ctrl.waiting x.addr) x.port (some .mandatoryQueue)) } }

def allocateBlock (x : Ctx p) (k : Kind) : Option (Ctx p) :=
  match x.entry with
  | some _ => some x
  | none =>
    ((x.ctrl.cache k).allocate x.addr {}).map fun m =>
      { x with ctrl := x.ctrl.setCache k m, entry := some k }

def deallocateBlock (x : Ctx p) : Option (Ctx p) :=
  let k := if x.ctrl.dcache.isTagPresent x.addr then Kind.dcache else Kind.icache
  ((x.ctrl.cache k).deallocate x.addr).map fun m =>
    { x with ctrl := x.ctrl.setCache k m, entry := none }

def allocateTBE (x : Ctx p) (t : TBE) : Option (Ctx p) :=
  match x.ctrl.tbes x.addr with
  | some _ => none
  | none =>
    some { x with
      ctrl := { x.ctrl with tbes := update x.ctrl.tbes x.addr (some t) }, tbe := true }

def deallocateTBE (x : Ctx p) : Ctx p :=
  { x with ctrl := { x.ctrl with tbes := update x.ctrl.tbes x.addr none }, tbe := false }

end Ctx

open Ctx

/-- What each action does; a failed assertion, or a look at an empty queue, is
`none`. -/
def act (x : Ctx p) : Action → Option (Ctx p)
  | .a_issueGETS => x.issue .gets
  | .as_issueGETSPEC => x.issue .getspec
  | .ij_issueGETSPEC_L1_pass_L0 => x.issue .getspecL2
  | .ij_issueGETSPEC_Mem_pass_L0 => x.issue .getspecMem
  | .ij_issueGETSPEC_Perfect_pass_L0 => x.issue .getspecPerfect
  | .ij_issueGETSPEC_PerfectUnsafe_pass_L0 => x.issue .getspecPerfectUnsafe
  | .ex_issueEXPOSE => x.issue .expose
  | .pa_issuePfGETS => x.issuePf .gets
  | .ai_issueGETINSTR => x.issue .getInstr
  | .pai_issuePfGETINSTR => x.issuePf .getInstr
  | .b_issueGETX => x.issue .getx
  | .pb_issuePfGETX => x.issuePf .getx
  | .c_issueUPGRADE => x.issue .upgrade
  | .d_sendDataToRequestor | .dex_sendDataToExposeRequestor | .ds_sendDataToSpecRequestor =>
    x.requestIn?.bind fun m => x.sendData [m.requestor]
  | .d2_sendDataToL2 | .d2ex_sendExposeDataToL2 | .f_sendDataToL2 => x.sendData [.l2Cache]
  | .dt_sendDataToRequestor_fromTBE | .dtex_sendDataToExposeRequestor_fromTBE
  | .dts_sendDataToSpecRequestor_fromTBE =>
    x.requestIn?.bind fun m => x.sendDataFromTBE [m.requestor]
  | .dts_replayRequestToL2 =>
    x.requestIn?.map fun m => x.send (.request [.l2Cache]
      { addr := x.addr, type := .getspec, requestor := m.requestor, idx := m.idx })
  | .d2t_sendDataToL2_fromTBE | .d2tex_sendExposeDataToL2_fromTBE | .ft_sendDataToL2_fromTBE =>
    x.sendDataFromTBE [.l2Cache]
  | .fi_sendInvAck =>
    x.requestIn?.map fun m => x.send (.response [m.requestor]
      { addr := x.addr, type := .ack, sender := x.machineID, ackCount := 1 })
  | .forward_eviction_to_cpu =>
    some (if x.ctrl.sendEvictions then x.send (.callback (.eviction x.addr false)) else x)
  | .forward_external_eviction_to_cpu =>
    some (if x.ctrl.sendEvictions then x.send (.callback (.eviction x.addr true)) else x)
  | .g_issuePUTX =>
    x.cacheEntry.map fun e => x.send (.request [.l2Cache]
      { addr := x.addr, type := .putx, requestor := x.machineID, dataBlk := e.dataBlk,
        dirty := e.dirty })
  | .j_sendUnblock =>
    some (x.send (.unblock [.l2Cache] { addr := x.addr, type := .unblock, sender := x.machineID }))
  | .jj_sendExclusiveUnblock =>
    some (x.send (.unblock [.l2Cache]
      { addr := x.addr, type := .exclusiveUnblock, sender := x.machineID }))
  | .dg_invalidate_sc => some (x.send (.callback (.invalidateSC x.addr)))
  | .h_load_hit =>
    x.cacheEntry.map fun e =>
      { x with ctrl := { x.ctrl with dcache := x.ctrl.dcache.setMRU x.addr } }.send
        (.callback (.read x.addr e.dataBlk false true false false))
  | .h_spec_load_hit =>
    x.mandatoryIn?.bind fun m => x.cacheEntry.map fun e =>
      x.send (.callback (.oblivFromL0 x.addr true e.dataBlk m.idx))
  | .h_invisi_spec_load_hit =>
    x.cacheEntry.map fun e => x.send (.callback (.read x.addr e.dataBlk false false false false))
  | .mj_spec_load_miss_l0 =>
    -- the block handed over on a miss is not looked at
    x.mandatoryIn?.map fun m =>
      x.send (.callback (.oblivFromL0 x.addr false ((x.cacheEntry.map Entry.dataBlk).getD 0) m.idx))
  | .hxj_send_spec_data_from_l1_to_cpu =>
    x.responseIn?.map fun m => x.send (.callback (.oblivFromL1 x.addr m.hitAtL1 m.dataBlkL1 m.idx))
  | .hxj_send_spec_data_from_mem_to_cpu =>
    x.responseIn?.map fun m =>
      x.send (.callback (.oblivFromMem x.addr m.hitAtMem m.dataBlkMem m.idx))
  | .h_ifetch_hit =>
    x.cacheEntry.map fun e =>
      { x with ctrl := { x.ctrl with icache := x.ctrl.icache.setMRU x.addr } }.send
        (.callback (.read x.addr e.dataBlk false true false false))
  | .hx_load_hit =>
    x.cacheEntry.map fun e =>
      let x := { x with ctrl := { x.ctrl with
        icache := x.ctrl.icache.setMRU x.addr, dcache := x.ctrl.dcache.setMRU x.addr } }
      (x.send (.callback (.read x.addr e.dataBlk true e.hitAtL0 e.hitAtL1 e.hitAtMem))).clearHits
  | .hsx_invisi_spec_load_hit =>
    x.responseIn?.map fun m =>
      (x.modifyTBE fun t => { t with dataBlk := m.dataBlk }).send
        (.callback (.read x.addr m.dataBlk true false false false))
  | .hh_store_hit =>
    x.cacheEntry.map fun _ =>
      let x := { x with ctrl := { x.ctrl with dcache := x.ctrl.dcache.setMRU x.addr } }
      (x.send (.callback (.write x.addr false true false false))).storeHit
  | .hhx_store_hit =>
    x.cacheEntry.map fun e =>
      let x := { x with ctrl := { x.ctrl with
        icache := x.ctrl.icache.setMRU x.addr, dcache := x.ctrl.dcache.setMRU x.addr } }
      (x.send (.callback (.write x.addr true e.hitAtL0 e.hitAtL1 e.hitAtMem))).storeHit.clearHits
  | .i_allocateTBE =>
    x.cacheEntry.bind fun e => x.allocateTBE { dataBlk := e.dataBlk, dirty := e.dirty }
  | .iw_allocateTBEWithoutCacheEntry =>
    match x.cacheEntry with
    | some e => if e.cacheState = .I then x.allocateTBE {} else none
    | none => x.allocateTBE {}
  | .k_popMandatoryQueue =>
    x.ctrl.mandatoryQueue.dequeue.map fun q =>
      { x with ctrl := { x.ctrl with mandatoryQueue := q } }
  | .l_popRequestQueue =>
    x.ctrl.requestIn.dequeue.map fun q => { x with ctrl := { x.ctrl with requestIn := q } }
  | .o_popIncomingResponseQueue =>
    x.ctrl.responseIn.dequeue.map fun q => { x with ctrl := { x.ctrl with responseIn := q } }
  | .s_deallocateTBE => some x.deallocateTBE
  | .u_writeDataToL1Cache =>
    x.responseIn?.bind fun m => x.cacheEntry.map fun _ => x.modifyEntry fun e =>
      { e with dataBlk := m.dataBlk, dirty := m.dirty, hitAtL0 := m.hitAtL0,
               hitAtL1 := m.hitAtL1, hitAtMem := m.hitAtMem }
  | .q_updateAckCount =>
    x.responseIn?.bind fun m => x.theTBE.map fun _ => x.modifyTBE fun t =>
      { t with pendingAcks := t.pendingAcks - m.ackCount }
  | .ff_deallocateL1CacheBlock => x.deallocateBlock
  | .oo_allocateL1DCacheBlock => x.allocateBlock .dcache
  | .pp_allocateL1ICacheBlock => x.allocateBlock .icache
  | .z_stallAndWaitMandatoryQueue => x.stallMandatory
  | .kd_wakeUpDependents => x.wakeUpBuffers
  | .pq_popPrefetchQueue =>
    x.ctrl.optionalQueue.dequeue.map fun q => { x with ctrl := { x.ctrl with optionalQueue := q } }
  | .mp_markPrefetched =>
    x.cacheEntry.map fun _ => x.modifyEntry fun e => { e with isPrefetch := true }

/-! ## Transitions

The rows of the source in its order. Actions that only profile or train the
prefetcher are left out; what the prefetcher asks for comes in through the
optional queue. -/

open State Event Action

/-- The states in which an oblivious load misses. -/
def missStates : List State :=
  [NP, I, IS, IM, IX, IS_I, M_I, SM, SINK_WB_ACK, PF_IS, PF_IS_I, PF_IM, PF_SM]

def transitions : List (Lib.Row State Event Action) := [
  ⟨[IS, IM, IX, IS_I, M_I, SM, SINK_WB_ACK],
    [Load, Expose, SpecLoad, Ifetch, Store, L1_Replacement], none, [z_stallAndWaitMandatoryQueue]⟩,
  ⟨missStates, [SpecLoad_L0], none, [mj_spec_load_miss_l0, k_popMandatoryQueue]⟩,
  ⟨missStates, [SpecLoad_L1], none,
    [mj_spec_load_miss_l0, ij_issueGETSPEC_L1_pass_L0, k_popMandatoryQueue]⟩,
  ⟨missStates, [SpecLoad_Mem], none,
    [mj_spec_load_miss_l0, ij_issueGETSPEC_Mem_pass_L0, k_popMandatoryQueue]⟩,
  ⟨missStates ++ [S, E, M], [Data_Spec_fromL1], none,
    [hxj_send_spec_data_from_l1_to_cpu, o_popIncomingResponseQueue]⟩,
  ⟨missStates ++ [S, E, M], [Data_Spec_fromMem], none,
    [hxj_send_spec_data_from_mem_to_cpu, o_popIncomingResponseQueue]⟩,
  ⟨[S, E, M], [SpecLoad_Perfect], none, [h_spec_load_hit, k_popMandatoryQueue]⟩,
  ⟨missStates, [SpecLoad_Perfect], none,
    [mj_spec_load_miss_l0, ij_issueGETSPEC_Perfect_pass_L0, k_popMandatoryQueue]⟩,
  ⟨[S, E, M], [SpecLoad_PerfectUnsafe], none, [h_spec_load_hit, k_popMandatoryQueue]⟩,
  ⟨[IS, IM, IX, IS_I, M_I, SM, SINK_WB_ACK, PF_IS, PF_IS_I, PF_IM, PF_SM],
    [SpecLoad_PerfectUnsafe], none, [z_stallAndWaitMandatoryQueue]⟩,
  ⟨[NP, I], [SpecLoad_PerfectUnsafe], none,
    [mj_spec_load_miss_l0, ij_issueGETSPEC_PerfectUnsafe_pass_L0, k_popMandatoryQueue]⟩,
  ⟨[PF_IS, PF_IS_I], [Store, L1_Replacement], none, [z_stallAndWaitMandatoryQueue]⟩,
  ⟨[PF_IM, PF_SM], [Load, Expose, SpecLoad, Ifetch, L1_Replacement], none,
    [z_stallAndWaitMandatoryQueue]⟩,
  ⟨[NP, I], [L1_Replacement], none, [ff_deallocateL1CacheBlock]⟩,
  ⟨[S, E, M, IS, IM, IX, SM, IS_I, M_I, SINK_WB_ACK, PF_IS, PF_IM],
    [PF_Load, PF_Store, PF_Ifetch], none, [pq_popPrefetchQueue]⟩,
  ⟨[NP, I], [Load], some IS,
    [oo_allocateL1DCacheBlock, i_allocateTBE, a_issueGETS, k_popMandatoryQueue]⟩,
  ⟨[NP, I], [Expose], some IS,
    [oo_allocateL1DCacheBlock, i_allocateTBE, ex_issueEXPOSE, k_popMandatoryQueue]⟩,
  ⟨[NP, I], [SpecLoad], some IX,
    [iw_allocateTBEWithoutCacheEntry, as_issueGETSPEC, k_popMandatoryQueue]⟩,
  ⟨[NP, I], [PF_Load], some PF_IS,
    [oo_allocateL1DCacheBlock, i_allocateTBE, pa_issuePfGETS, pq_popPrefetchQueue]⟩,
  ⟨[PF_IS], [Load, Expose], some IS, [k_popMandatoryQueue]⟩,
  ⟨[PF_IS_I], [Load, Expose], some IS_I, [k_popMandatoryQueue]⟩,
  ⟨[PF_IS, PF_IS_I], [SpecLoad], none, [k_popMandatoryQueue]⟩,
  ⟨[NP, I], [Ifetch], some IS,
    [pp_allocateL1ICacheBlock, i_allocateTBE, ai_issueGETINSTR, k_popMandatoryQueue]⟩,
  ⟨[NP, I], [PF_Ifetch], some PF_IS,
    [pp_allocateL1ICacheBlock, i_allocateTBE, pai_issuePfGETINSTR, pq_popPrefetchQueue]⟩,
  ⟨[PF_IS], [Ifetch], some IS, [k_popMandatoryQueue]⟩,
  ⟨[NP, I], [Store], some IM,
    [oo_allocateL1DCacheBlock, i_allocateTBE, b_issueGETX, k_popMandatoryQueue]⟩,
  ⟨[NP, I], [PF_Store], some PF_IM,
    [oo_allocateL1DCacheBlock, i_allocateTBE, pb_issuePfGETX, pq_popPrefetchQueue]⟩,
  ⟨[PF_IM], [Store], some IM, [k_popMandatoryQueue]⟩,
  ⟨[PF_SM], [Store], some SM, [k_popMandatoryQueue]⟩,
  ⟨[NP, I, IX], [Inv], none, [fi_sendInvAck, l_popRequestQueue]⟩,
  ⟨[S, E, M], [Load, Expose], none, [h_load_hit, k_popMandatoryQueue]⟩,
  ⟨[S, E, M], [SpecLoad_L0], none, [h_spec_load_hit, k_popMandatoryQueue]⟩,
  ⟨[S, E, M], [SpecLoad], none, [h_invisi_spec_load_hit, k_popMandatoryQueue]⟩,
  ⟨[S, E, M], [SpecLoad_L1], none,
    [h_spec_load_hit, ij_issueGETSPEC_L1_pass_L0, k_popMandatoryQueue]⟩,
  ⟨[S, E, M], [SpecLoad_Mem], none,
    [h_spec_load_hit, ij_issueGETSPEC_Mem_pass_L0, k_popMandatoryQueue]⟩,
  ⟨[S, E, M], [Ifetch], none, [h_ifetch_hit, k_popMandatoryQueue]⟩,
  ⟨[S], [Store], some SM, [i_allocateTBE, c_issueUPGRADE, k_popMandatoryQueue]⟩,
  ⟨[S], [L1_Replacement], some I, [forward_eviction_to_cpu, ff_deallocateL1CacheBlock]⟩,
  ⟨[S], [Inv], some I, [forward_external_eviction_to_cpu, fi_sendInvAck, l_popRequestQueue]⟩,
  ⟨[E, M], [Store], some M, [hh_store_hit, k_popMandatoryQueue]⟩,
  ⟨[E], [L1_Replacement], some M_I,
    [forward_eviction_to_cpu, i_allocateTBE, g_issuePUTX, ff_deallocateL1CacheBlock]⟩,
  ⟨[E], [Inv], some I, [forward_external_eviction_to_cpu, fi_sendInvAck, l_popRequestQueue]⟩,
  ⟨[E], [Fwd_GETX], some I,
    [forward_external_eviction_to_cpu, d_sendDataToRequestor, l_popRequestQueue]⟩,
  ⟨[E], [Fwd_GETS, Fwd_GET_INSTR], some S,
    [d_sendDataToRequestor, d2_sendDataToL2, l_popRequestQueue]⟩,
  ⟨[E, M], [Fwd_GETSPEC], none, [ds_sendDataToSpecRequestor, l_popRequestQueue]⟩,
  ⟨[E, M], [Fwd_EXPOSE], some S,
    [dex_sendDataToExposeRequestor, d2ex_sendExposeDataToL2, l_popRequestQueue]⟩,
  ⟨[M], [L1_Replacement], some M_I,
    [forward_eviction_to_cpu, i_allocateTBE, g_issuePUTX, ff_deallocateL1CacheBlock]⟩,
  ⟨[M_I], [WB_Ack], some I, [s_deallocateTBE, o_popIncomingResponseQueue, kd_wakeUpDependents]⟩,
  ⟨[M], [Inv], some I, [forward_external_eviction_to_cpu, f_sendDataToL2, l_popRequestQueue]⟩,
  ⟨[M_I], [Inv], some SINK_WB_ACK, [ft_sendDataToL2_fromTBE, l_popRequestQueue]⟩,
  ⟨[M], [Fwd_GETX], some I,
    [forward_external_eviction_to_cpu, d_sendDataToRequestor, l_popRequestQueue]⟩,
  ⟨[M], [Fwd_GETS, Fwd_GET_INSTR], some S,
    [d_sendDataToRequestor, d2_sendDataToL2, l_popRequestQueue]⟩,
  ⟨[M_I], [Fwd_GETX], some SINK_WB_ACK, [dt_sendDataToRequestor_fromTBE, l_popRequestQueue]⟩,
  ⟨[M_I], [Fwd_GETS, Fwd_GET_INSTR], some SINK_WB_ACK,
    [dt_sendDataToRequestor_fromTBE, d2t_sendDataToL2_fromTBE, l_popRequestQueue]⟩,
  ⟨[M_I], [Fwd_EXPOSE], some SINK_WB_ACK,
    [dtex_sendDataToExposeRequestor_fromTBE, d2tex_sendExposeDataToL2_fromTBE, l_popRequestQueue]⟩,
  ⟨[M_I], [Fwd_GETSPEC], none, [dts_sendDataToSpecRequestor_fromTBE, l_popRequestQueue]⟩,
  ⟨[NP], [Fwd_GETSPEC], none, [dts_replayRequestToL2, l_popRequestQueue]⟩,
  ⟨[IS, IS_I], [Inv], some IS_I, [fi_sendInvAck, l_popRequestQueue]⟩,
  ⟨[PF_IS, PF_IS_I], [Inv], some PF_IS_I, [fi_sendInvAck, l_popRequestQueue]⟩,
  ⟨[IS], [Data_all_Acks], some S, [u_writeDataToL1Cache, hx_load_hit, s_deallocateTBE,
    o_popIncomingResponseQueue, kd_wakeUpDependents]⟩,
  ⟨[PF_IS], [Data_all_Acks], some S, [u_writeDataToL1Cache, s_deallocateTBE, mp_markPrefetched,
    o_popIncomingResponseQueue, kd_wakeUpDependents]⟩,
  ⟨[IS_I], [Data_all_Acks], some I, [u_writeDataToL1Cache, hx_load_hit, s_deallocateTBE,
    o_popIncomingResponseQueue, kd_wakeUpDependents]⟩,
  ⟨[PF_IS_I], [Data_all_Acks], some I,
    [s_deallocateTBE, o_popIncomingResponseQueue, kd_wakeUpDependents]⟩,
  ⟨[IS], [DataS_fromL1], some S, [u_writeDataToL1Cache, j_sendUnblock, hx_load_hit, s_deallocateTBE,
    o_popIncomingResponseQueue, kd_wakeUpDependents]⟩,
  ⟨[PF_IS], [DataS_fromL1], some S, [u_writeDataToL1Cache, j_sendUnblock, s_deallocateTBE,
    o_popIncomingResponseQueue, kd_wakeUpDependents]⟩,
  ⟨[IS_I], [DataS_fromL1], some I, [u_writeDataToL1Cache, j_sendUnblock, hx_load_hit,
    s_deallocateTBE, o_popIncomingResponseQueue, kd_wakeUpDependents]⟩,
  ⟨[PF_IS_I], [DataS_fromL1], some I,
    [j_sendUnblock, s_deallocateTBE, o_popIncomingResponseQueue, kd_wakeUpDependents]⟩,
  ⟨[IS_I], [Data_Exclusive], some E, [u_writeDataToL1Cache, hx_load_hit, jj_sendExclusiveUnblock,
    s_deallocateTBE, o_popIncomingResponseQueue, kd_wakeUpDependents]⟩,
  ⟨[PF_IS_I], [Data_Exclusive], some E, [u_writeDataToL1Cache, jj_sendExclusiveUnblock,
    s_deallocateTBE, o_popIncomingResponseQueue, kd_wakeUpDependents]⟩,
  ⟨[IS], [Data_Exclusive], some E, [u_writeDataToL1Cache, hx_load_hit, jj_sendExclusiveUnblock,
    s_deallocateTBE, o_popIncomingResponseQueue, kd_wakeUpDependents]⟩,
  ⟨[PF_IS], [Data_Exclusive], some E, [u_writeDataToL1Cache, jj_sendExclusiveUnblock,
    s_deallocateTBE, mp_markPrefetched, o_popIncomingResponseQueue, kd_wakeUpDependents]⟩,
  ⟨[IX], [Data_all_Acks, DataS_fromL1], some I, [hsx_invisi_spec_load_hit, s_deallocateTBE,
    o_popIncomingResponseQueue, kd_wakeUpDependents]⟩,
  ⟨[IM], [Inv], some IM, [fi_sendInvAck, l_popRequestQueue]⟩,
  ⟨[PF_IM, PF_SM], [Inv], some PF_IM, [fi_sendInvAck, l_popRequestQueue]⟩,
  ⟨[IM], [Data], some SM, [u_writeDataToL1Cache, q_updateAckCount, o_popIncomingResponseQueue]⟩,
  ⟨[PF_IM], [Data], some PF_SM,
    [u_writeDataToL1Cache, q_updateAckCount, o_popIncomingResponseQueue]⟩,
  ⟨[IM], [Data_all_Acks], some M, [u_writeDataToL1Cache, hhx_store_hit, jj_sendExclusiveUnblock,
    s_deallocateTBE, o_popIncomingResponseQueue, kd_wakeUpDependents]⟩,
  ⟨[PF_IM], [Data_all_Acks], some M, [u_writeDataToL1Cache, jj_sendExclusiveUnblock,
    s_deallocateTBE, mp_markPrefetched, o_popIncomingResponseQueue, kd_wakeUpDependents]⟩,
  ⟨[SM], [Inv], some IM,
    [forward_external_eviction_to_cpu, fi_sendInvAck, dg_invalidate_sc, l_popRequestQueue]⟩,
  ⟨[SM, IM, PF_SM, PF_IM], [Ack], none, [q_updateAckCount, o_popIncomingResponseQueue]⟩,
  ⟨[SM], [Ack_all], some M, [jj_sendExclusiveUnblock, hhx_store_hit, s_deallocateTBE,
    o_popIncomingResponseQueue, kd_wakeUpDependents]⟩,
  ⟨[PF_SM], [Ack_all], some M, [jj_sendExclusiveUnblock, s_deallocateTBE, mp_markPrefetched,
    o_popIncomingResponseQueue, kd_wakeUpDependents]⟩,
  ⟨[SINK_WB_ACK], [Inv], none, [fi_sendInvAck, l_popRequestQueue]⟩,
  ⟨[SINK_WB_ACK], [WB_Ack], some I,
    [s_deallocateTBE, o_popIncomingResponseQueue, kd_wakeUpDependents]⟩]

/-! ## State of a line -/

/-- The assertion of `getState` and `setState`: the line is not in both caches. -/
def Ctrl.inOneCache (c : Ctrl p) (a : Nat) : Bool :=
  !(c.dcache.isTagPresent a && c.icache.isTagPresent a)

def stateOf (x : Ctx p) : State :=
  match x.theTBE, x.cacheEntry with
  | some t, _ => t.tbeState
  | none, some e => e.cacheState
  | none, none => .NP

def getState (x : Ctx p) : Option State :=
  if x.ctrl.inOneCache x.addr then some (stateOf x) else none

/-- Write the state into the TBE and the entry at hand. -/
def putState (x : Ctx p) (s : State) : Ctx p :=
  (x.modifyTBE fun t => { t with tbeState := s }).modifyEntry fun e => { e with cacheState := s }

def setState (x : Ctx p) (s : State) : Option (Ctx p) :=
  if x.ctrl.inOneCache x.addr then some (putState x s) else none

def controller : Lib.Controller State Event Action (Ctx p) where
  table := transitions
  act := act
  getState := getState
  setState := setState

/-! ## Input ports -/

/-- What an input port triggers: an event for a line, and the cache entry passed
with it. -/
structure Trigger where
  event : Event
  addr : Nat
  entry : Option Kind
  deriving DecidableEq

def mandatoryRequestTypeToEvent : RubyRequestType → Event
  | .ld => .Load
  | .ifetch => .Ifetch
  | .st => .Store
  | .specLd => .SpecLoad
  | .expose => .Expose
  | .specLdL0 => .SpecLoad_L0
  | .specLdL1 => .SpecLoad_L1
  | .specLdMem => .SpecLoad_Mem
  | .specLdPerfect => .SpecLoad_Perfect
  | .specLdPerfectUnsafe => .SpecLoad_PerfectUnsafe

def prefetchRequestTypeToEvent : RubyRequestType → Option Event
  | .ld => some .PF_Load
  | .ifetch => some .PF_Ifetch
  | .st => some .PF_Store
  | _ => none

/-- Make room in a cache: the line in the victim's slot is replaced. -/
def Ctrl.replace (c : Ctrl p) (k : Kind) (a : Nat) : Option Trigger :=
  ((c.cache k).cacheProbe a).map fun v => ⟨.L1_Replacement, v, some k⟩

/-- A request for the cache `own`: the event for a copy in `own`, the one for a copy
in the `other` cache, or room has to be made. -/
def Ctrl.access (c : Ctrl p) (own other : Kind) (e eOther : Event) (a : Nat) : Option Trigger :=
  if (c.cache own).isTagPresent a then some ⟨e, a, some own⟩
  else if (c.cache other).isTagPresent a then some ⟨eOther, a, some other⟩
  else if (c.cache own).cacheAvail a then some ⟨e, a, none⟩
  else c.replace own a

/-- A demand request: a copy in the other cache goes first. -/
def Ctrl.demand (c : Ctrl p) (own other : Kind) (e : Event) (a : Nat) : Option Trigger :=
  c.access own other e .L1_Replacement a

def Ctrl.mandatoryQueueIn (c : Ctrl p) (m : RubyRequest) : Option Trigger :=
  let e := mandatoryRequestTypeToEvent m.type
  match m.type with
  | .specLdL0 | .specLdL1 | .specLdMem | .specLdPerfect | .specLdPerfectUnsafe =>
    some ⟨e, m.lineAddress, if c.dcache.isTagPresent m.lineAddress then some .dcache else none⟩
  | .ifetch => c.demand .icache .dcache e m.lineAddress
  | .ld | .st | .specLd | .expose => c.demand .dcache .icache e m.lineAddress

/-- A prefetch uses a copy in either cache. -/
def Ctrl.prefetch (c : Ctrl p) (own other : Kind) (e : Event) (a : Nat) : Option Trigger :=
  c.access own other e e a

def Ctrl.optionalQueueIn (c : Ctrl p) (m : RubyRequest) : Option Trigger :=
  (prefetchRequestTypeToEvent m.type).bind fun e =>
    match m.type with
    | .ifetch => c.prefetch .icache .dcache e m.lineAddress
    | _ => c.prefetch .dcache .icache e m.lineAddress

def requestEvent : CoherenceRequestType → Option Event
  | .inv => some .Inv
  | .getx | .upgrade => some .Fwd_GETX
  | .gets => some .Fwd_GETS
  | .getInstr => some .Fwd_GET_INSTR
  | .getspec => some .Fwd_GETSPEC
  | .expose => some .Fwd_EXPOSE
  | _ => none

def Ctrl.requestL1NetworkIn (c : Ctrl p) (m : RequestMsg) : Option Trigger :=
  (requestEvent m.type).map fun e => ⟨e, m.addr, c.holder m.addr⟩

/-- The context in which a trigger is served. -/
def Ctrl.context (c : Ctrl p) (id : MachineID) (port : Port) (t : Trigger) : Ctx p where
  ctrl := c
  machineID := id
  addr := t.addr
  entry := t.entry
  tbe := (c.tbes t.addr).isSome
  port := port

def responseEvent (x : Ctx p) (m : ResponseMsg) : Option Event :=
  match m.type with
  | .dataExclusive => some .Data_Exclusive
  | .data =>
    (getState x).bind fun s =>
      if s ∈ [State.IS, .IX, .IS_I, .PF_IS, .PF_IS_I] ∧ m.sender.isL1Cache then some .DataS_fromL1
      else x.theTBE.map fun t =>
        if t.pendingAcks - m.ackCount = 0 then .Data_all_Acks else .Data
  | .ack => x.theTBE.map fun t => if t.pendingAcks - m.ackCount = 0 then .Ack_all else .Ack
  | .wbAck => some .WB_Ack
  | .inv => some .Inv
  | .dataSpecFromL1 => some .Data_Spec_fromL1
  | .dataSpecFromMem => some .Data_Spec_fromMem
  | _ => none

def Ctrl.responseL1NetworkIn (c : Ctrl p) (id : MachineID) (m : ResponseMsg) : Option Trigger :=
  (responseEvent (c.context id .responseL1Network ⟨.Data, m.addr, c.holder m.addr⟩) m).map fun e =>
    ⟨e, m.addr, c.holder m.addr⟩

/-- The trigger of a port, from the message at its head. -/
def Ctrl.trigger (c : Ctrl p) (id : MachineID) : Port → Option Trigger
  | .mandatoryQueue => c.mandatoryQueue.queue.head?.bind c.mandatoryQueueIn
  | .requestL1Network => c.requestIn.queue.head?.bind c.requestL1NetworkIn
  | .responseL1Network => c.responseIn.queue.head?.bind (c.responseL1NetworkIn id)
  | .optionalQueue => c.optionalQueue.queue.head?.bind c.optionalQueueIn

/-- Serve the message at the head of a port: the new controller and what it sends. -/
def Ctrl.wakeup (c : Ctrl p) (id : MachineID) (port : Port) : Option (Ctrl p × List OutMsg) :=
  (c.trigger id port).bind fun t =>
    (controller.transition (c.context id port t) t.event).map fun x => (x.ctrl, x.out)

end L1Cache

end SdoCore.Mesi
