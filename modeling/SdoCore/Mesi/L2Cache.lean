import SdoCore.Lib.Controller
import SdoCore.Mesi.Messages

/-! The shared L2 controller (`MESI_Two_Level-L2cache.sm`): states, events,
actions, the transition table row by row, and the input ports. Bank reservation
only delays a request and is left out, as are the profiling actions. -/

namespace SdoCore.Mesi

open Function (update)
open NetDest (add)

namespace L2Cache

inductive State
  | NP | SS | M | MT
  | M_I | MT_I | MCT_I | I_I | S_I
  | ISS | IS | IM | II | IEE
  | SS_MB | MT_MB | MT_IIB | MT_IB | MT_SB
  deriving DecidableEq

inductive Event
  | L1_GET_INSTR | L1_GETS | L1_GETX | L1_UPGRADE | L1_PUTX | L1_PUTX_old | L1_GETSPEC | L1_EXPOSE
  | SpecLoad_L2 | SpecLoad_Mem | SpecLoad_Perfect | SpecLoad_PerfectUnsafe
  | L2_Replacement | L2_Replacement_clean
  | Mem_Data | Mem_Ack | Data_Spec_fromMem
  | WB_Data | WB_Data_clean | Ack | Ack_all
  | Unblock | Exclusive_Unblock | MEM_Inv
  deriving DecidableEq

structure Entry where
  cacheState : State := .NP
  sharers : NetDest := []
  exclusive : Option MachineID := none
  dataBlk : DataBlock := 0
  (dirty hitAtL0 hitAtL1 hitAtL2 hitAtMem : Bool := false)
  deriving DecidableEq

structure TBE where
  tbeState : State := .NP
  dataBlk : DataBlock := 0
  dirty : Bool := false
  getSIDs : NetDest := []
  getSPECIDs : NetDest := []
  exposeIDs : NetDest := []
  getXID : Option MachineID := none
  pendingAcks : Int := 0
  deriving DecidableEq

/-- The input ports, by increasing rank. -/
inductive Port
  | l1Request | response | l1Unblock
  deriving DecidableEq

structure Ctrl (p : CacheParams) where
  cache : CacheMemory p Entry
  tbes : Nat → Option TBE
  requestIn : MessageBuffer RequestMsg
  responseIn : MessageBuffer ResponseMsg
  unblockIn : MessageBuffer ResponseMsg
  waiting : Nat → Port → Option Port

variable {p : CacheParams}

/-! ## Actions -/

inductive Action
  | a_issueFetchToMemory | ij_issueGETSPEC_Mem_pass_L2 | ij_issueGETSPEC_Perfect_pass_L2
  | ij_issueGETSPEC_PerfectUnsafe_pass_L2 | b_forwardRequestToExclusive
  | bs_forwardSpecRequestToExclusive | bex_forwardExposeRequestToExclusive
  | c_exclusiveReplacement | c_exclusiveCleanReplacement | ct_exclusiveReplacementFromTBE
  | d_sendDataToRequestor | d_sendDataToRequestor_Hit | dd_sendExclusiveDataToRequestor_Hit
  | ddex_sendExclusiveDataToExposeRequestor | ds_sendSharedDataToRequestor
  | ds_sendSharedDataToRequestor_Hit | hj_spec_load_hit_l2 | mj_spec_load_miss_l2
  | dss_sendSharedDataToSpecRequestor | dsex_sendSharedDataToExposeRequestor
  | e_sendDataToGetSRequestors | es_sendDataToGetSpecRequestors | mj_sendDataToGetSpecRequestor
  | eex_sendDataToExposeRequestors | ex_sendExclusiveDataToGetSRequestors
  | exex_sendExclusiveDataToExposeRequestors | ee_sendDataToGetXRequestor | f_sendInvToSharers
  | fwm_sendFwdInvToSharersMinusRequestor | i_allocateTBE | iw_allocateTBEWithoutCacheEntry
  | s_deallocateTBE | jj_popL1RequestQueue | k_popUnblockQueue | o_popIncomingResponseQueue
  | m_writeDataToCache | mr_writeDataToCacheFromRequest | q_updateAck | qq_writeDataToTBE
  | ss_recordGetSL1ID | sss_recordGetSPECL1ID | ssss_recordExposeL1ID | xx_recordGetXL1ID
  | set_setMRU | qq_allocateL2CacheBlock | rr_deallocateL2CacheBlock | t_sendWBAck
  | ts_sendInvAckToUpgrader | nn_addSharer | nnu_addSharerFromUnblock | ll_clearSharers
  | mmu_markExclusiveFromUnblock | zz_stallAndWaitL1RequestQueue | zn_recycleResponseNetwork
  | kd_wakeUpDependents
  deriving DecidableEq

/-- A transition in progress; `entry` and `tbe` say whether the pointers
`cache_entry` and `tbe` are valid. -/
structure Ctx (p : CacheParams) where
  ctrl : Ctrl p
  addr : Nat
  entry : Bool
  tbe : Bool
  port : Port
  out : List OutMsg := []

namespace Ctx

def machineID (_ : Ctx p) : MachineID := .l2Cache

def cacheEntry (x : Ctx p) : Option Entry := if x.entry then x.ctrl.cache.lookup x.addr else none

def theTBE (x : Ctx p) : Option TBE := if x.tbe then x.ctrl.tbes x.addr else none

def send (x : Ctx p) (m : OutMsg) : Ctx p := { x with out := x.out ++ [m] }

def modifyEntry (x : Ctx p) (f : Entry → Entry) : Ctx p :=
  if x.entry then { x with ctrl := { x.ctrl with cache := x.ctrl.cache.modify x.addr f } } else x

def modifyTBE (x : Ctx p) (f : TBE → TBE) : Ctx p :=
  if x.tbe then
    { x with ctrl := { x.ctrl with
        tbes := update x.ctrl.tbes x.addr ((x.ctrl.tbes x.addr).map f) } }
  else x

def requestIn? (x : Ctx p) : Option RequestMsg := x.ctrl.requestIn.queue.head?
def responseIn? (x : Ctx p) : Option ResponseMsg := x.ctrl.responseIn.queue.head?
def unblockIn? (x : Ctx p) : Option ResponseMsg := x.ctrl.unblockIn.queue.head?

/-- Pass the request at the head on to the directory. -/
def toDirectory (x : Ctx p) (m : RequestMsg) : Ctx p :=
  x.send (.request [.directory]
    { addr := x.addr, type := m.type, requestor := x.machineID, idx := m.idx,
      origin := m.requestor })

/-- Pass an oblivious request on, after the assertion on its type. -/
def issueGETSPEC (x : Ctx p) (t : CoherenceRequestType) : Option (Ctx p) :=
  x.requestIn?.bind fun m => if m.type = t then some (x.toDirectory m) else none

def forwardToExclusive (x : Ctx p) : Option (Ctx p) :=
  x.requestIn?.bind fun m => x.cacheEntry.map fun e =>
    x.send (.l1Request e.exclusive.toList
      { addr := x.addr, type := m.type, requestor := m.requestor })

/-- Acks the requestor has to wait for, as a negative count. -/
def ackCount (e : Entry) (requestor : MachineID) : Int :=
  if requestor ∈ e.sharers then 0 - (e.sharers.count : Int) + 1 else 0 - (e.sharers.count : Int)

/-- Answer the request at the head with the block of the entry. -/
def answer (x : Ctx p) (f : Entry → RequestMsg → ResponseMsg) : Option (Ctx p) :=
  x.requestIn?.bind fun m => x.cacheEntry.map fun e => x.send (.response [m.requestor] (f e m))

def dataMsg (x : Ctx p) (t : CoherenceResponseType) (d : DataBlock) : ResponseMsg :=
  { addr := x.addr, type := t, sender := x.machineID, dataBlk := d }

def clearHits (x : Ctx p) : Ctx p :=
  x.modifyEntry fun e =>
    { e with hitAtL0 := false, hitAtL1 := false, hitAtL2 := false, hitAtMem := false }

/-- Data with the hit flags of the entry, which are then cleared. -/
def sendWithHits (x : Ctx p) (dst : NetDest) (t : CoherenceResponseType) (e : Entry) : Ctx p :=
  (x.send (.response dst { x.dataMsg t e.dataBlk with
    hitAtL0 := e.hitAtL0, hitAtL1 := e.hitAtL1, hitAtL2 := e.hitAtL2, hitAtMem :=
      e.hitAtMem })).clearHits

def waiters (t : TBE) : Nat := t.getSIDs.count + t.getSPECIDs.count + t.exposeIDs.count

/-- Data of the response at the head to a set of requestors of the TBE. -/
def sendResponseData (x : Ctx p) (ids : TBE → NetDest) : Option (Ctx p) :=
  x.theTBE.bind fun t => if 0 < waiters t then
    x.responseIn?.map fun m => x.send (.response (ids t) (x.dataMsg .data m.dataBlk)) else none

def record (x : Ctx p) (f : TBE → MachineID → TBE) : Option (Ctx p) :=
  x.requestIn?.bind fun m => x.theTBE.map fun _ => x.modifyTBE fun t => f t m.requestor

def allocateTBE (x : Ctx p) (t : TBE) : Option (Ctx p) :=
  match x.ctrl.tbes x.addr with
  | some _ => none
  | none =>
    some { x with
      ctrl := { x.ctrl with tbes := update x.ctrl.tbes x.addr (some t) }, tbe := true }

def reanalyze (c : Ctrl p) (a : Nat) : Port → Option (Ctrl p)
  | .l1Request => (c.requestIn.reanalyzeMessages a).map fun q => { c with requestIn := q }
  | .response => (c.responseIn.reanalyzeMessages a).map fun q => { c with responseIn := q }
  | .l1Unblock => (c.unblockIn.reanalyzeMessages a).map fun q => { c with unblockIn := q }

def wakeUp (c : Ctrl p) (a : Nat) : List Port → Option (Ctrl p)
  | [] => some c
  | q :: qs =>
    match c.waiting a q with
    | some b => (reanalyze c a b).bind fun c => wakeUp c a qs
    | none => wakeUp c a qs

def lower : Port → List Port
  | .l1Request => []
  | .response => [.l1Request]
  | .l1Unblock => [.response, .l1Request]

def wakeUpBuffers (x : Ctx p) : Option (Ctx p) :=
  (wakeUp x.ctrl x.addr (lower x.port)).map fun c =>
    { x with ctrl := { c with waiting := update c.waiting x.addr fun _ => none } }

def stallRequest (x : Ctx p) : Option (Ctx p) :=
  (x.ctrl.requestIn.stallMessage x.addr).map fun q =>
    { x with ctrl := { x.ctrl with
        requestIn := q
        waiting := update x.ctrl.waiting x.addr
          (update (x.ctrl.waiting x.addr) x.port (some .l1Request)) } }

end Ctx

open Ctx

def act (x : Ctx p) : Action → Option (Ctx p)
  | .a_issueFetchToMemory => x.requestIn?.map x.toDirectory
  | .ij_issueGETSPEC_Mem_pass_L2 => x.issueGETSPEC .getspecMem
  | .ij_issueGETSPEC_Perfect_pass_L2 => x.issueGETSPEC .getspecPerfect
  | .ij_issueGETSPEC_PerfectUnsafe_pass_L2 => x.issueGETSPEC .getspecPerfectUnsafe
  | .b_forwardRequestToExclusive | .bs_forwardSpecRequestToExclusive
  | .bex_forwardExposeRequestToExclusive => x.forwardToExclusive
  | .c_exclusiveReplacement =>
    x.cacheEntry.map fun e => x.send (.response [.directory]
      { x.dataMsg .memoryData e.dataBlk with dirty := e.dirty })
  | .c_exclusiveCleanReplacement => some (x.send (.response [.directory] (x.dataMsg .ack 0)))
  | .ct_exclusiveReplacementFromTBE =>
    x.theTBE.map fun t => x.send (.response [.directory]
      { x.dataMsg .memoryData t.dataBlk with dirty := t.dirty })
  | .d_sendDataToRequestor =>
    x.answer fun e m => { x.dataMsg .data e.dataBlk with ackCount := ackCount e m.requestor }
  | .d_sendDataToRequestor_Hit =>
    x.answer fun e m => { x.dataMsg .data e.dataBlk with
      ackCount := ackCount e m.requestor, hitAtL0 := m.hitAtL0, hitAtL1 := true }
  | .dd_sendExclusiveDataToRequestor_Hit =>
    x.answer fun e m => { x.dataMsg .dataExclusive e.dataBlk with
      ackCount := ackCount e m.requestor, hitAtL1 := true }
  | .ddex_sendExclusiveDataToExposeRequestor =>
    x.answer fun e m =>
      { x.dataMsg .dataExclusive e.dataBlk with ackCount := ackCount e m.requestor }
  | .ds_sendSharedDataToRequestor | .dss_sendSharedDataToSpecRequestor
  | .dsex_sendSharedDataToExposeRequestor => x.answer fun e _ => x.dataMsg .data e.dataBlk
  | .ds_sendSharedDataToRequestor_Hit =>
    x.answer fun e _ => { x.dataMsg .data e.dataBlk with hitAtL1 := true }
  | .hj_spec_load_hit_l2 =>
    x.answer fun e m => { x.dataMsg .dataSpecFromL1 e.dataBlk with
      dataBlkL1 := e.dataBlk, hitAtL1 := true, idx := m.idx }
  | .mj_spec_load_miss_l2 =>
    x.requestIn?.map fun m => x.send (.response [m.requestor]
      { x.dataMsg .dataSpecFromL1 0 with idx := m.idx })
  | .e_sendDataToGetSRequestors =>
    x.theTBE.bind fun t => if 0 < waiters t then
      x.cacheEntry.map fun e => x.sendWithHits t.getSIDs .data e else none
  | .es_sendDataToGetSpecRequestors => x.sendResponseData TBE.getSPECIDs
  | .mj_sendDataToGetSpecRequestor =>
    x.responseIn?.map fun m => x.send (.response [m.origin]
      { x.dataMsg .dataSpecFromMem m.dataBlk with
        dataBlkMem := m.dataBlkMem, hitAtMem := m.hitAtMem, idx := m.idx })
  | .eex_sendDataToExposeRequestors => x.sendResponseData TBE.exposeIDs
  | .ex_sendExclusiveDataToGetSRequestors =>
    x.theTBE.bind fun t =>
      if t.getSIDs.count = 1 ∧ t.getSPECIDs.count + t.exposeIDs.count = 0 then
        x.cacheEntry.map fun e => x.sendWithHits t.getSIDs .dataExclusive e else none
  | .exex_sendExclusiveDataToExposeRequestors =>
    x.theTBE.bind fun t =>
      if t.exposeIDs.count = 1 ∧ t.getSIDs.count + t.getSPECIDs.count = 0 then
        x.cacheEntry.map fun e => x.send
          (.response t.exposeIDs (x.dataMsg .dataExclusive e.dataBlk))
      else none
  | .ee_sendDataToGetXRequestor =>
    x.theTBE.bind fun t => x.cacheEntry.map fun e => x.sendWithHits t.getXID.toList .data e
  | .f_sendInvToSharers =>
    x.cacheEntry.map fun e => x.send (.l1Request e.sharers
      { addr := x.addr, type := .inv, requestor := x.machineID })
  | .fwm_sendFwdInvToSharersMinusRequestor =>
    x.requestIn?.bind fun m => x.cacheEntry.map fun e =>
      x.send (.l1Request (NetDest.remove e.sharers m.requestor)
        { addr := x.addr, type := .inv, requestor := m.requestor })
  | .i_allocateTBE =>
    x.cacheEntry.bind fun e =>
      x.allocateTBE { dataBlk := e.dataBlk, dirty := e.dirty, pendingAcks := e.sharers.count }
  | .iw_allocateTBEWithoutCacheEntry => if x.entry then none else x.allocateTBE {}
  | .s_deallocateTBE =>
    some { x with
      ctrl := { x.ctrl with tbes := update x.ctrl.tbes x.addr none }, tbe := false }
  | .jj_popL1RequestQueue =>
    x.ctrl.requestIn.dequeue.map fun q => { x with ctrl := { x.ctrl with requestIn := q } }
  | .k_popUnblockQueue =>
    x.ctrl.unblockIn.dequeue.map fun q => { x with ctrl := { x.ctrl with unblockIn := q } }
  | .o_popIncomingResponseQueue =>
    x.ctrl.responseIn.dequeue.map fun q => { x with ctrl := { x.ctrl with responseIn := q } }
  | .m_writeDataToCache =>
    x.responseIn?.bind fun m => x.cacheEntry.map fun _ => x.modifyEntry fun e =>
      { e with dataBlk := m.dataBlk, hitAtL0 := m.hitAtL0, hitAtL1 := m.hitAtL1,
               hitAtL2 := m.hitAtL2, hitAtMem := m.hitAtMem, dirty := m.dirty || e.dirty }
  | .mr_writeDataToCacheFromRequest =>
    x.requestIn?.bind fun m => x.cacheEntry.map fun _ =>
      if m.dirty then x.modifyEntry fun e => { e with dataBlk := m.dataBlk, dirty := m.dirty }
      else x
  | .q_updateAck =>
    x.responseIn?.bind fun m => x.theTBE.map fun _ =>
      x.modifyTBE fun t => { t with pendingAcks := t.pendingAcks - m.ackCount }
  | .qq_writeDataToTBE =>
    x.responseIn?.bind fun m => x.theTBE.map fun _ =>
      x.modifyTBE fun t => { t with dataBlk := m.dataBlk, dirty := m.dirty }
  | .ss_recordGetSL1ID => x.record fun t i => { t with getSIDs := add t.getSIDs i }
  | .sss_recordGetSPECL1ID => x.record fun t i => { t with getSPECIDs := add t.getSPECIDs i }
  | .ssss_recordExposeL1ID => x.record fun t i => { t with exposeIDs := add t.exposeIDs i }
  | .xx_recordGetXL1ID => x.record fun t i => { t with getXID := some i }
  | .set_setMRU => some { x with ctrl := { x.ctrl with cache := x.ctrl.cache.setMRU x.addr } }
  | .qq_allocateL2CacheBlock =>
    if x.entry then some x
    else (x.ctrl.cache.allocate x.addr {}).map fun m =>
      { x with ctrl := { x.ctrl with cache := m }, entry := true }
  | .rr_deallocateL2CacheBlock =>
    (x.ctrl.cache.deallocate x.addr).map fun m =>
      { x with ctrl := { x.ctrl with cache := m }, entry := false }
  | .t_sendWBAck =>
    x.requestIn?.map fun m => x.send (.response [m.requestor] (x.dataMsg .wbAck 0))
  | .ts_sendInvAckToUpgrader =>
    x.answer fun e _ => { x.dataMsg .ack 0 with ackCount := 0 - (e.sharers.count : Int) + 1 }
  | .nn_addSharer =>
    x.requestIn?.bind fun m => x.cacheEntry.map fun _ =>
      x.modifyEntry fun e => { e with sharers := add e.sharers m.requestor }
  | .nnu_addSharerFromUnblock =>
    x.unblockIn?.bind fun m => x.cacheEntry.map fun _ =>
      x.modifyEntry fun e => { e with sharers := add e.sharers m.sender }
  | .ll_clearSharers =>
    x.requestIn?.bind fun _ => x.cacheEntry.map fun _ =>
      x.modifyEntry fun e => { e with sharers := [] }
  | .mmu_markExclusiveFromUnblock =>
    x.unblockIn?.bind fun m => x.cacheEntry.map fun _ =>
      x.modifyEntry fun e => { e with exclusive := some m.sender, sharers := [m.sender] }
  | .zz_stallAndWaitL1RequestQueue => x.stallRequest
  | .zn_recycleResponseNetwork =>
    x.ctrl.responseIn.recycle.map fun q => { x with ctrl := { x.ctrl with responseIn := q } }
  | .kd_wakeUpDependents => x.wakeUpBuffers

/-! ## Transitions

The rows of the source in its order. -/

open State Event Action

/-- The states in which an oblivious load misses. -/
def missStates : List State :=
  [NP, MT, M_I, MT_I, MCT_I, I_I, S_I, ISS, IS, IM, II, IEE, SS_MB, MT_MB, MT_IIB, MT_IB, MT_SB]

def transitions : List (Lib.Row State Event Action) := [
  ⟨[SS, M], [SpecLoad_L2], none, [hj_spec_load_hit_l2, jj_popL1RequestQueue]⟩,
  ⟨missStates, [SpecLoad_L2], none, [mj_spec_load_miss_l2, jj_popL1RequestQueue]⟩,
  ⟨[SS, M], [SpecLoad_Mem], none, [hj_spec_load_hit_l2, ij_issueGETSPEC_Mem_pass_L2,
    jj_popL1RequestQueue]⟩,
  ⟨missStates, [SpecLoad_Mem], none, [mj_spec_load_miss_l2, ij_issueGETSPEC_Mem_pass_L2,
    jj_popL1RequestQueue]⟩,
  ⟨[SS, M], [SpecLoad_Perfect], none, [hj_spec_load_hit_l2, jj_popL1RequestQueue]⟩,
  ⟨missStates, [SpecLoad_Perfect], none, [mj_spec_load_miss_l2, ij_issueGETSPEC_Perfect_pass_L2,
    jj_popL1RequestQueue]⟩,
  ⟨[SS, M], [SpecLoad_PerfectUnsafe], none, [hj_spec_load_hit_l2, jj_popL1RequestQueue]⟩,
  ⟨[II, IM, SS_MB, MT_MB, MT_IIB, MT_IB, MT_SB, I_I, S_I, MT_I, MCT_I, M_I],
    [SpecLoad_PerfectUnsafe], none, [zz_stallAndWaitL1RequestQueue]⟩,
  ⟨[NP, IS, ISS, IEE, MT], [SpecLoad_PerfectUnsafe], none, [mj_spec_load_miss_l2,
    ij_issueGETSPEC_PerfectUnsafe_pass_L2, jj_popL1RequestQueue]⟩,
  ⟨[NP, IS, ISS, IEE, IM, II, SS, M, M_I, I_I, S_I, MT_IB, MT_SB], [L1_PUTX], none, [t_sendWBAck,
    jj_popL1RequestQueue]⟩,
  ⟨[NP, SS, M, MT, M_I, I_I, S_I, IS, ISS, IEE, IM, II, MT_IB, MT_SB], [L1_PUTX_old], none,
    [t_sendWBAck, jj_popL1RequestQueue]⟩,
  ⟨[IM, IS, ISS, IEE, II, SS_MB, MT_MB, MT_IIB, MT_IB, MT_SB], [L2_Replacement,
    L2_Replacement_clean], none, [zz_stallAndWaitL1RequestQueue]⟩,
  ⟨[IM, IS, ISS, IEE, II, SS_MB, MT_MB, MT_IIB, MT_IB, MT_SB], [MEM_Inv], none,
    [zn_recycleResponseNetwork]⟩,
  ⟨[I_I, S_I, M_I, MT_I, MCT_I, NP], [MEM_Inv], none, [o_popIncomingResponseQueue]⟩,
  ⟨[SS_MB, MT_MB, MT_IIB, MT_IB, MT_SB], [L1_GETS, L1_EXPOSE, L1_GET_INSTR, L1_GETX, L1_UPGRADE,
    L1_GETSPEC], none, [zz_stallAndWaitL1RequestQueue]⟩,
  ⟨[NP], [L1_GETS], some ISS, [qq_allocateL2CacheBlock, ll_clearSharers, nn_addSharer,
    i_allocateTBE, ss_recordGetSL1ID, a_issueFetchToMemory, jj_popL1RequestQueue]⟩,
  ⟨[NP], [L1_EXPOSE], some IEE, [qq_allocateL2CacheBlock, ll_clearSharers, nn_addSharer,
    i_allocateTBE, ssss_recordExposeL1ID, a_issueFetchToMemory, jj_popL1RequestQueue]⟩,
  ⟨[NP], [L1_GET_INSTR], some IS, [qq_allocateL2CacheBlock, ll_clearSharers, nn_addSharer,
    i_allocateTBE, ss_recordGetSL1ID, a_issueFetchToMemory, jj_popL1RequestQueue]⟩,
  ⟨[NP], [L1_GETX], some IM, [qq_allocateL2CacheBlock, ll_clearSharers, i_allocateTBE,
    xx_recordGetXL1ID, a_issueFetchToMemory, jj_popL1RequestQueue]⟩,
  ⟨[NP], [L1_GETSPEC], some II, [iw_allocateTBEWithoutCacheEntry, sss_recordGetSPECL1ID,
    a_issueFetchToMemory, jj_popL1RequestQueue]⟩,
  ⟨[ISS], [Mem_Data], some MT_MB, [m_writeDataToCache, ex_sendExclusiveDataToGetSRequestors,
    es_sendDataToGetSpecRequestors, s_deallocateTBE, o_popIncomingResponseQueue]⟩,
  ⟨[IEE], [Mem_Data], some MT_MB, [m_writeDataToCache, exex_sendExclusiveDataToExposeRequestors,
    es_sendDataToGetSpecRequestors, s_deallocateTBE, o_popIncomingResponseQueue]⟩,
  ⟨[IS], [Mem_Data], some SS, [m_writeDataToCache, e_sendDataToGetSRequestors,
    es_sendDataToGetSpecRequestors, eex_sendDataToExposeRequestors, s_deallocateTBE,
    o_popIncomingResponseQueue, kd_wakeUpDependents]⟩,
  ⟨[IM], [Mem_Data], some MT_MB, [m_writeDataToCache, ee_sendDataToGetXRequestor, s_deallocateTBE,
    o_popIncomingResponseQueue]⟩,
  ⟨[II], [Mem_Data], some NP, [es_sendDataToGetSpecRequestors, s_deallocateTBE,
    o_popIncomingResponseQueue, kd_wakeUpDependents]⟩,
  ⟨[NP, SS, M, MT, M_I, MT_I, MCT_I, I_I, S_I, ISS, IS, IM, II, IEE, SS_MB, MT_MB, MT_IIB, MT_IB,
    MT_SB], [Data_Spec_fromMem], none, [mj_sendDataToGetSpecRequestor,
    o_popIncomingResponseQueue]⟩,
  ⟨[IS, ISS, IEE], [L1_GETS, L1_GET_INSTR], some IS, [nn_addSharer, ss_recordGetSL1ID,
    jj_popL1RequestQueue]⟩,
  ⟨[IS, ISS, IEE], [L1_EXPOSE], some IS, [nn_addSharer, ssss_recordExposeL1ID,
    jj_popL1RequestQueue]⟩,
  ⟨[IS, ISS, IEE], [L1_GETSPEC], some IS, [sss_recordGetSPECL1ID, jj_popL1RequestQueue]⟩,
  ⟨[II], [L1_GETSPEC], none, [sss_recordGetSPECL1ID, jj_popL1RequestQueue]⟩,
  ⟨[II], [L1_GETS, L1_EXPOSE, L1_GET_INSTR], none, [zz_stallAndWaitL1RequestQueue]⟩,
  ⟨[IS, ISS, IEE, II], [L1_GETX], none, [zz_stallAndWaitL1RequestQueue]⟩,
  ⟨[IM], [L1_GETX, L1_GETS, L1_EXPOSE, L1_GET_INSTR, L1_GETSPEC], none,
    [zz_stallAndWaitL1RequestQueue]⟩,
  ⟨[SS], [L1_GET_INSTR], none, [ds_sendSharedDataToRequestor, nn_addSharer, set_setMRU,
    jj_popL1RequestQueue]⟩,
  ⟨[SS], [L1_GETS], none, [ds_sendSharedDataToRequestor_Hit, nn_addSharer, set_setMRU,
    jj_popL1RequestQueue]⟩,
  ⟨[SS], [L1_EXPOSE], none, [dsex_sendSharedDataToExposeRequestor, nn_addSharer, set_setMRU,
    jj_popL1RequestQueue]⟩,
  ⟨[SS, M], [L1_GETSPEC], none, [dss_sendSharedDataToSpecRequestor, jj_popL1RequestQueue]⟩,
  ⟨[SS], [L1_GETX], some SS_MB, [d_sendDataToRequestor_Hit, fwm_sendFwdInvToSharersMinusRequestor,
    set_setMRU, jj_popL1RequestQueue]⟩,
  ⟨[SS], [L1_UPGRADE], some SS_MB, [fwm_sendFwdInvToSharersMinusRequestor,
    ts_sendInvAckToUpgrader, set_setMRU, jj_popL1RequestQueue]⟩,
  ⟨[SS], [L2_Replacement_clean], some I_I, [i_allocateTBE, f_sendInvToSharers,
    rr_deallocateL2CacheBlock]⟩,
  ⟨[SS], [L2_Replacement, MEM_Inv], some S_I, [i_allocateTBE, f_sendInvToSharers,
    rr_deallocateL2CacheBlock]⟩,
  ⟨[M], [L1_GETX], some MT_MB, [d_sendDataToRequestor_Hit, set_setMRU, jj_popL1RequestQueue]⟩,
  ⟨[M], [L1_GET_INSTR], some SS, [d_sendDataToRequestor, nn_addSharer, set_setMRU,
    jj_popL1RequestQueue]⟩,
  ⟨[M], [L1_GETS], some MT_MB, [dd_sendExclusiveDataToRequestor_Hit, set_setMRU,
    jj_popL1RequestQueue]⟩,
  ⟨[M], [L1_EXPOSE], some MT_MB, [ddex_sendExclusiveDataToExposeRequestor, set_setMRU,
    jj_popL1RequestQueue]⟩,
  ⟨[M], [L2_Replacement, MEM_Inv], some M_I, [i_allocateTBE, c_exclusiveReplacement,
    rr_deallocateL2CacheBlock]⟩,
  ⟨[M], [L2_Replacement_clean], some M_I, [i_allocateTBE, c_exclusiveCleanReplacement,
    rr_deallocateL2CacheBlock]⟩,
  ⟨[MT], [L1_GETX], some MT_MB, [b_forwardRequestToExclusive, set_setMRU, jj_popL1RequestQueue]⟩,
  ⟨[MT], [L1_GETS, L1_GET_INSTR], some MT_IIB, [b_forwardRequestToExclusive, set_setMRU,
    jj_popL1RequestQueue]⟩,
  ⟨[MT], [L1_EXPOSE], some MT_IIB, [bex_forwardExposeRequestToExclusive, set_setMRU,
    jj_popL1RequestQueue]⟩,
  ⟨[MT], [L1_GETSPEC], none, [bs_forwardSpecRequestToExclusive, jj_popL1RequestQueue]⟩,
  ⟨[MT], [L2_Replacement, MEM_Inv], some MT_I, [i_allocateTBE, f_sendInvToSharers,
    rr_deallocateL2CacheBlock]⟩,
  ⟨[MT], [L2_Replacement_clean], some MCT_I, [i_allocateTBE, f_sendInvToSharers,
    rr_deallocateL2CacheBlock]⟩,
  ⟨[MT], [L1_PUTX], some M, [ll_clearSharers, mr_writeDataToCacheFromRequest, t_sendWBAck,
    jj_popL1RequestQueue]⟩,
  ⟨[SS_MB, MT_MB], [Exclusive_Unblock], some MT, [mmu_markExclusiveFromUnblock, k_popUnblockQueue,
    kd_wakeUpDependents]⟩,
  ⟨[MT_IIB], [L1_PUTX, L1_PUTX_old], none, [zz_stallAndWaitL1RequestQueue]⟩,
  ⟨[MT_IIB], [Unblock], some MT_IB, [nnu_addSharerFromUnblock, k_popUnblockQueue]⟩,
  ⟨[MT_IIB], [WB_Data, WB_Data_clean], some MT_SB, [m_writeDataToCache,
    o_popIncomingResponseQueue]⟩,
  ⟨[MT_IB], [WB_Data, WB_Data_clean], some SS, [m_writeDataToCache, o_popIncomingResponseQueue,
    kd_wakeUpDependents]⟩,
  ⟨[MT_SB], [Unblock], some SS, [nnu_addSharerFromUnblock, k_popUnblockQueue,
    kd_wakeUpDependents]⟩,
  ⟨[I_I, S_I, MT_I, MCT_I, M_I], [L1_GETX, L1_UPGRADE, L1_GETS, L1_EXPOSE, L1_GET_INSTR,
    L1_GETSPEC], none, [zz_stallAndWaitL1RequestQueue]⟩,
  ⟨[I_I], [Ack], none, [q_updateAck, o_popIncomingResponseQueue]⟩,
  ⟨[I_I], [Ack_all], some M_I, [c_exclusiveCleanReplacement, o_popIncomingResponseQueue]⟩,
  ⟨[MT_I, MCT_I], [WB_Data], some M_I, [qq_writeDataToTBE, ct_exclusiveReplacementFromTBE,
    o_popIncomingResponseQueue]⟩,
  ⟨[MCT_I], [WB_Data_clean, Ack_all], some M_I, [c_exclusiveCleanReplacement,
    o_popIncomingResponseQueue]⟩,
  ⟨[MCT_I], [L1_PUTX, L1_PUTX_old], none, [zz_stallAndWaitL1RequestQueue]⟩,
  ⟨[MT_I], [WB_Data_clean, Ack_all], some M_I, [ct_exclusiveReplacementFromTBE,
    o_popIncomingResponseQueue]⟩,
  ⟨[MT_I], [L1_PUTX, L1_PUTX_old], none, [zz_stallAndWaitL1RequestQueue]⟩,
  ⟨[MT_MB, SS_MB], [L1_PUTX, L1_PUTX_old], none, [zz_stallAndWaitL1RequestQueue]⟩,
  ⟨[S_I], [Ack], none, [q_updateAck, o_popIncomingResponseQueue]⟩,
  ⟨[S_I], [Ack_all], some M_I, [ct_exclusiveReplacementFromTBE, o_popIncomingResponseQueue]⟩,
  ⟨[M_I], [Mem_Ack], some NP, [s_deallocateTBE, o_popIncomingResponseQueue, kd_wakeUpDependents]⟩]

/-! ## State of a line -/

def stateOf (x : Ctx p) : State :=
  match x.theTBE, x.cacheEntry with
  | some t, _ => t.tbeState
  | none, some e => e.cacheState
  | none, none => .NP

def putState (x : Ctx p) (s : State) : Ctx p :=
  (x.modifyTBE fun t => { t with tbeState := s }).modifyEntry fun e => { e with cacheState := s }

def controller : Lib.Controller State Event Action (Ctx p) where
  table := transitions
  act := act
  getState := fun x => some (stateOf x)
  setState := fun x s => some (putState x s)

/-! ## Input ports -/

structure Trigger where
  event : Event
  addr : Nat
  deriving DecidableEq

def isSharer (requestor : MachineID) : Option Entry → Bool
  | some e => decide (requestor ∈ e.sharers)
  | none => false

def l1CacheRequestTypeToEvent (t : CoherenceRequestType) (requestor : MachineID)
    (e : Option Entry) : Option Event :=
  match t with
  | .gets => some .L1_GETS
  | .getInstr => some .L1_GET_INSTR
  | .getx => some .L1_GETX
  | .upgrade => some (if isSharer requestor e then .L1_UPGRADE else .L1_GETX)
  | .putx => some (if isSharer requestor e then .L1_PUTX else .L1_PUTX_old)
  | .getspec => some .L1_GETSPEC
  | .expose => some .L1_EXPOSE
  | .getspecL2 => some .SpecLoad_L2
  | .getspecMem => some .SpecLoad_Mem
  | .getspecPerfect => some .SpecLoad_Perfect
  | .getspecPerfectUnsafe => some .SpecLoad_PerfectUnsafe
  | .inv | .dmaRead | .dmaWrite => none

/-- The line in the victim's slot is replaced. -/
def Ctrl.replace (c : Ctrl p) (a : Nat) : Option Trigger :=
  (c.cache.cacheProbe a).bind fun v => (c.cache.lookup v).map fun e =>
    ⟨if e.dirty then .L2_Replacement else .L2_Replacement_clean, v⟩

/-- Room for the line is made before the kind of request is looked at. -/
def Ctrl.l1RequestIn (c : Ctrl p) (m : RequestMsg) : Option Trigger :=
  if m.requestor.isL1Cache then
    if c.cache.isTagPresent m.addr || c.cache.cacheAvail m.addr then
      (l1CacheRequestTypeToEvent m.type m.requestor (c.cache.lookup m.addr)).map (⟨·, m.addr⟩)
    else c.replace m.addr
  else none

def Ctrl.responseEvent (c : Ctrl p) (m : ResponseMsg) : Option Event :=
  if m.sender.isL1Cache then
    match m.type with
    | .data => some (if m.dirty then .WB_Data else .WB_Data_clean)
    | .ack => (c.tbes m.addr).map fun t => if t.pendingAcks - m.ackCount = 0 then .Ack_all else .Ack
    | _ => none
  else
    match m.type with
    | .memoryData => some .Mem_Data
    | .memoryAck => some .Mem_Ack
    | .dataSpecFromMem => some .Data_Spec_fromMem
    | .inv => some .MEM_Inv
    | _ => none

def unblockEvent : CoherenceResponseType → Option Event
  | .exclusiveUnblock => some .Exclusive_Unblock
  | .unblock => some .Unblock
  | _ => none

def Ctrl.trigger (c : Ctrl p) : Port → Option Trigger
  | .l1Request => c.requestIn.queue.head?.bind c.l1RequestIn
  | .response => c.responseIn.queue.head?.bind fun m => (c.responseEvent m).map (⟨·, m.addr⟩)
  | .l1Unblock => c.unblockIn.queue.head?.bind fun m => (unblockEvent m.type).map (⟨·, m.addr⟩)

def Ctrl.context (c : Ctrl p) (port : Port) (a : Nat) : Ctx p where
  ctrl := c
  addr := a
  entry := c.cache.isTagPresent a
  tbe := (c.tbes a).isSome
  port := port

/-- Serve the message at the head of a port: the new controller and what it sends. -/
def Ctrl.wakeup (c : Ctrl p) (port : Port) : Option (Ctrl p × List OutMsg) :=
  (c.trigger port).bind fun t =>
    (controller.transition (c.context port t.addr) t.event).map fun x => (x.ctrl, x.out)

end L2Cache

end SdoCore.Mesi
