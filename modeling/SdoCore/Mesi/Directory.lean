import SdoCore.Lib.Controller
import SdoCore.Mesi.Messages

/-! The directory controller (`MESI_Two_Level-dir.sm`) with its interface to
memory (`queueMemoryRead`, `recvTimingResp` of `AbstractController.cc`). A
directory entry exists for every line and starts in `I`; a partial write of the
DMA controller is the write of its block. -/

namespace SdoCore.Mesi

open Function (update)

namespace Directory

inductive State
  | I | ID | ID_W | M | IM | IE | II | MI | M_DRD | M_DRDI | M_DWR | M_DWRI
  deriving DecidableEq

inductive Event
  | Fetch | Expose | SpecFetch | SpecLoad_Mem | SpecLoad_Perfect | SpecLoad_PerfectUnsafe
  | Data | Memory_Data | Memory_Ack | Memory_Data_Spec
  | DMA_READ | DMA_WRITE | CleanReplacement
  deriving DecidableEq

structure Entry where
  directoryState : State := .I
  owner : Option MachineID := none
  deriving DecidableEq

structure TBE where
  tbeState : State := .I
  physicalAddress : Nat := 0
  dataBlk : DataBlock := 0
  requestor : MachineID := .dma
  deriving DecidableEq

/-- An entry of `m_specBuf`. -/
structure SBE where
  address : Nat := 0
  data : DataBlock := 0
  hitAtMem : Bool := false
  originalRequestor : MachineID := .l2Cache
  deriving DecidableEq

/-- The input ports, by increasing rank. -/
inductive Port
  | requestNetwork | responseNetwork | memQueue
  deriving DecidableEq

structure Ctrl where
  entries : Nat → Entry
  tbes : Nat → Option TBE
  requestIn : MessageBuffer RequestMsg
  responseIn : MessageBuffer ResponseMsg
  memoryIn : MessageBuffer MemoryMsg
  waiting : Nat → Port → Option Port
  specBuf : Int → SBE
  enableMLDOM : Bool

/-! ## Memory interface -/

/-- Where `m_specBuf[coreId][sbeId]` is in the array of eight rows of 66 entries. Nothing checks
`sbeId`, so that an index past the end of a row is an entry of a later row. -/
def sbeSlot (coreId : Nat) (sbeId : Int) : Int := 66 * coreId + sbeId

def Ctrl.setSpecBuf (c : Ctrl) (k : Nat) (i : Int) (e : SBE) : Ctrl :=
  { c with specBuf := update c.specBuf (sbeSlot k i) e }

/-- Forget the speculative copies of a line. -/
def Ctrl.clearSpecBuf (c : Ctrl) (a : Nat) : Ctrl :=
  { c with specBuf := fun n =>
      if (c.specBuf n).address = a then { c.specBuf n with address := 0, data := 0 }
      else c.specBuf n }

def Ctrl.enqueueMemory (c : Ctrl) (m : MemoryMsg) : Ctrl :=
  { c with memoryIn := c.memoryIn.enqueue m }

/-- `queueMemoryRead` for types 0 to 2. Without MLDOM an expose that finds its
line in the buffer is answered from there. -/
def Ctrl.queueMemoryRead (c : Ctrl) (id : MachineID) (a : Nat) (origin : MachineID) (idx : Int)
    (type : Nat) : Option (Ctrl × List MemoryRequest) :=
  let r : MemoryRequest := { addr := a, id := id, type := type, coreId := origin.num, sbeId := idx }
  let sbe := c.specBuf (sbeSlot origin.num idx)
  if c.enableMLDOM then some (c, [r])
  else if (type ≠ 0 ∧ idx = -1) ∨ 8 ≤ origin.num then none
  else match type with
    | 0 => some (c.clearSpecBuf a, [r])
    | 1 => some (c, [r])
    | _ =>
      if sbe.address = a then
        let m : MemoryMsg :=
          { addr := a, type := .memoryRead, originalRequestorMachId := id, dataBlk := sbe.data }
        some ((c.clearSpecBuf a).enqueueMemory m, [])
      else some (c.clearSpecBuf a, [r])

/-- `queueMemoryRead` for an oblivious read: the hit flag waits in `m_specBuf`. -/
def Ctrl.queueMemorySpecRead (c : Ctrl) (id : MachineID) (a : Nat) (origin : MachineID) (idx : Int)
    (hitAtMem : Bool) : Option (Ctrl × List MemoryRequest) :=
  let sbe := c.specBuf (sbeSlot origin.num idx)
  if 8 ≤ origin.num then none
  else
    some (c.setSpecBuf origin.num idx
        { sbe with address := a, hitAtMem := hitAtMem, originalRequestor := origin },
      [{ addr := a, id := id, type := 3, coreId := origin.num, sbeId := idx }])

/-- The answer of memory to a request, `data` being the block read. -/
def Ctrl.recvTimingResp (c : Ctrl) (r : MemoryRequest) (data : DataBlock) : Ctrl :=
  let sbe := c.specBuf (sbeSlot r.coreId r.sbeId)
  match r.write with
  | some _ =>
    c.enqueueMemory { addr := r.addr, type := .memoryWb, originalRequestorMachId := r.id }
  | none =>
    if r.type = 3 then
      c.enqueueMemory
        { addr := r.addr, type := .memorySpecRead, originalRequestorMachId := r.id, dataBlk := data
          dataBlkMem := data, hitAtMem := sbe.hitAtMem, l1Requestor := sbe.originalRequestor
          idx := r.sbeId }
    else
      let c := if !c.enableMLDOM && r.type == 1 then
          c.setSpecBuf r.coreId r.sbeId { sbe with address := r.addr, data := data }
        else c
      c.enqueueMemory
        { addr := r.addr, type := .memoryRead, originalRequestorMachId := r.id, dataBlk := data }

/-! ## Actions -/

inductive Action
  | a_sendAck | d_sendData_Hit | dex_sendExposeData | ds_sendSpecData | dj_sendSpecData | aa_sendAck
  | j_popIncomingRequestQueue | k_popIncomingResponseQueue | l_popMemQueue | kd_wakeUpDependents
  | qf_queueMemoryFetchRequest | qfs_queueMemorySpecFetchRequest | qfe_queueMemoryExposeRequest
  | hj_spec_load_mem_hit_mem | mj_spec_load_mem_miss_mem
  | hj_spec_load_perfect_hit_mem | mj_spec_load_perfect_miss_mem
  | hj_spec_load_perfectUnsafe_hit_mem | qw_queueMemoryWBRequest | qf_queueMemoryFetchRequestDMA
  | dr_sendDMAData | qw_queueMemoryWBRequest_partialRequest | da_sendDMAAck | z_stallAndWaitRequest
  | zz_recycleDMAQueue | inv_sendCacheInvalidate | drp_sendDMAData | v_allocateTBE
  | qw_queueMemoryWBRequest_partialTBE | w_deallocateTBE
  deriving DecidableEq

structure Ctx where
  ctrl : Ctrl
  addr : Nat
  tbe : Bool
  port : Port
  out : List OutMsg := []

namespace Ctx

def machineID (_ : Ctx) : MachineID := .directory

def theTBE (x : Ctx) : Option TBE := if x.tbe then x.ctrl.tbes x.addr else none

def send (x : Ctx) (m : OutMsg) : Ctx := { x with out := x.out ++ [m] }

def modifyEntry (x : Ctx) (a : Nat) (f : Entry → Entry) : Ctx :=
  { x with ctrl := { x.ctrl with
      entries := update x.ctrl.entries a (f (x.ctrl.entries a)) } }

def modifyTBE (x : Ctx) (f : TBE → TBE) : Ctx :=
  if x.tbe then
    { x with ctrl := { x.ctrl with
        tbes := update x.ctrl.tbes x.addr ((x.ctrl.tbes x.addr).map f) } }
  else x

def requestIn? (x : Ctx) : Option RequestMsg := x.ctrl.requestIn.queue.head?
def responseIn? (x : Ctx) : Option ResponseMsg := x.ctrl.responseIn.queue.head?
def memoryIn? (x : Ctx) : Option MemoryMsg := x.ctrl.memoryIn.queue.head?

def msg (x : Ctx) (t : CoherenceResponseType) : ResponseMsg :=
  { addr := x.addr, type := t, sender := x.machineID }

/-- Answer with the block from memory; its requestor becomes the owner. -/
def sendMemoryData (x : Ctx) (hitAtMem : Bool) : Option Ctx :=
  x.memoryIn?.map fun m =>
    (x.send (.response [m.originalRequestorMachId]
      { x.msg .memoryData with dataBlk := m.dataBlk, hitAtMem := hitAtMem })).modifyEntry m.addr
      fun e => { e with owner := some m.originalRequestorMachId }

/-- Take over the result of `queueMemoryRead`. -/
def queued (x : Ctx) (r : Option (Ctrl × List MemoryRequest)) : Option Ctx :=
  r.map fun (c, rs) => { x with ctrl := c, out := x.out ++ rs.map OutMsg.memory }

def queueRead (x : Ctx) (type : Nat) : Option Ctx :=
  x.requestIn?.bind fun m =>
    x.queued (x.ctrl.queueMemoryRead m.requestor x.addr m.origin m.idx type)

def queueSpecRead (x : Ctx) (hitAtMem : Bool) : Option Ctx :=
  x.requestIn?.bind fun m =>
    x.queued (x.ctrl.queueMemorySpecRead m.requestor x.addr m.origin m.idx hitAtMem)

def queueWrite (x : Ctx) (id : MachineID) (a : Nat) (d : DataBlock) : Ctx :=
  x.send (.memory { addr := a, write := some d, id := id })

def reanalyze (c : Ctrl) (a : Nat) : Port → Option Ctrl
  | .requestNetwork => (c.requestIn.reanalyzeMessages a).map fun q => { c with requestIn := q }
  | .responseNetwork => (c.responseIn.reanalyzeMessages a).map fun q => { c with responseIn := q }
  | .memQueue => (c.memoryIn.reanalyzeMessages a).map fun q => { c with memoryIn := q }

def wakeUp (c : Ctrl) (a : Nat) : List Port → Option Ctrl
  | [] => some c
  | q :: qs =>
    match c.waiting a q with
    | some b => (reanalyze c a b).bind fun c => wakeUp c a qs
    | none => wakeUp c a qs

def lower : Port → List Port
  | .requestNetwork => []
  | .responseNetwork => [.requestNetwork]
  | .memQueue => [.responseNetwork, .requestNetwork]

def wakeUpBuffers (x : Ctx) : Option Ctx :=
  (wakeUp x.ctrl x.addr (lower x.port)).map fun c =>
    { x with ctrl := { c with waiting := update c.waiting x.addr fun _ => none } }

def stallRequest (x : Ctx) : Option Ctx :=
  (x.ctrl.requestIn.stallMessage x.addr).map fun q =>
    { x with ctrl := { x.ctrl with
        requestIn := q
        waiting := update x.ctrl.waiting x.addr
          (update (x.ctrl.waiting x.addr) x.port (some .requestNetwork)) } }

end Ctx

open Ctx

def act (x : Ctx) : Action → Option Ctx
  | .a_sendAck => x.responseIn?.map fun m => x.send (.response [m.sender] (x.msg .memoryAck))
  | .d_sendData_Hit => x.sendMemoryData true
  | .dex_sendExposeData | .ds_sendSpecData => x.sendMemoryData false
  | .dj_sendSpecData =>
    x.memoryIn?.map fun m => x.send (.response [m.originalRequestorMachId]
      { x.msg .dataSpecFromMem with
        dataBlk := m.dataBlk, dataBlkMem := m.dataBlkMem, hitAtMem := m.hitAtMem
        origin := m.l1Requestor, idx := m.idx })
  | .aa_sendAck =>
    x.memoryIn?.map fun m => x.send (.response [m.originalRequestorMachId] (x.msg .memoryAck))
  | .j_popIncomingRequestQueue =>
    x.ctrl.requestIn.dequeue.map fun q => { x with ctrl := { x.ctrl with requestIn := q } }
  | .k_popIncomingResponseQueue =>
    x.ctrl.responseIn.dequeue.map fun q => { x with ctrl := { x.ctrl with responseIn := q } }
  | .l_popMemQueue =>
    x.ctrl.memoryIn.dequeue.map fun q => { x with ctrl := { x.ctrl with memoryIn := q } }
  | .kd_wakeUpDependents => x.wakeUpBuffers
  | .qf_queueMemoryFetchRequest => x.queueRead 0
  | .qfs_queueMemorySpecFetchRequest => x.queueRead 1
  | .qfe_queueMemoryExposeRequest => x.queueRead 2
  | .hj_spec_load_mem_hit_mem | .hj_spec_load_perfect_hit_mem
  | .hj_spec_load_perfectUnsafe_hit_mem => x.queueSpecRead true
  | .mj_spec_load_mem_miss_mem | .mj_spec_load_perfect_miss_mem => x.queueSpecRead false
  | .qw_queueMemoryWBRequest =>
    x.responseIn?.map fun m => x.queueWrite m.sender x.addr m.dataBlk
  -- the action starts with a failing assertion
  | .qf_queueMemoryFetchRequestDMA => none
  | .dr_sendDMAData =>
    x.memoryIn?.bind fun m => x.theTBE.map fun t => x.send (.response [t.requestor]
      { x.msg .data with dataBlk := m.dataBlk })
  | .qw_queueMemoryWBRequest_partialRequest =>
    x.requestIn?.map fun m => x.queueWrite x.machineID x.addr m.dataBlk
  | .da_sendDMAAck => x.theTBE.map fun t => x.send (.response [t.requestor] (x.msg .ack))
  | .z_stallAndWaitRequest => x.stallRequest
  | .zz_recycleDMAQueue =>
    x.ctrl.requestIn.recycle.map fun q => { x with ctrl := { x.ctrl with requestIn := q } }
  | .inv_sendCacheInvalidate =>
    x.requestIn?.map fun _ =>
      x.send (.response (x.ctrl.entries x.addr).owner.toList (x.msg .inv))
  | .drp_sendDMAData =>
    x.responseIn?.bind fun m => x.theTBE.map fun t => x.send (.response [t.requestor]
      { x.msg .data with dataBlk := m.dataBlk })
  | .v_allocateTBE =>
    x.requestIn?.bind fun m =>
      match x.ctrl.tbes x.addr with
      | some _ => none
      | none =>
        let t : TBE := { dataBlk := m.dataBlk, physicalAddress := m.addr, requestor := m.requestor }
        some { x with
          ctrl := { x.ctrl with tbes := update x.ctrl.tbes x.addr (some t) }, tbe := true }
  | .qw_queueMemoryWBRequest_partialTBE =>
    x.responseIn?.bind fun m => x.theTBE.map fun t =>
      x.queueWrite m.sender t.physicalAddress t.dataBlk
  | .w_deallocateTBE =>
    some { x with
      ctrl := { x.ctrl with tbes := update x.ctrl.tbes x.addr none }, tbe := false }

/-! ## Transitions

The rows of the source in its order. -/

open State Event Action

def transitions : List (Lib.Row State Event Action) := [
  ⟨[I], [SpecLoad_Mem], none, [hj_spec_load_mem_hit_mem, j_popIncomingRequestQueue]⟩,
  ⟨[M, IM, MI, IE, II], [SpecLoad_Mem], none, [mj_spec_load_mem_miss_mem,
    j_popIncomingRequestQueue]⟩,
  ⟨[I], [SpecLoad_Perfect], none, [hj_spec_load_perfect_hit_mem, j_popIncomingRequestQueue]⟩,
  ⟨[M, IM, MI, IE, II], [SpecLoad_Perfect], none, [mj_spec_load_perfect_miss_mem,
    j_popIncomingRequestQueue]⟩,
  ⟨[I], [SpecLoad_PerfectUnsafe], none, [hj_spec_load_perfectUnsafe_hit_mem,
    j_popIncomingRequestQueue]⟩,
  ⟨[M], [SpecLoad_PerfectUnsafe], none, [inv_sendCacheInvalidate, z_stallAndWaitRequest]⟩,
  ⟨[ID, ID_W, M_DRDI, M_DWRI, IM, MI, IE, II], [SpecLoad_PerfectUnsafe], none,
    [z_stallAndWaitRequest]⟩,
  ⟨[I, ID, ID_W, M, IM, IE, II, MI, M_DRD, M_DRDI, M_DWR, M_DWRI], [Memory_Data_Spec], none,
    [dj_sendSpecData, l_popMemQueue]⟩,
  ⟨[I], [Fetch], some IM, [qf_queueMemoryFetchRequest, j_popIncomingRequestQueue]⟩,
  ⟨[I], [Expose], some IE, [qfe_queueMemoryExposeRequest, j_popIncomingRequestQueue]⟩,
  ⟨[I], [SpecFetch], some II, [qfs_queueMemorySpecFetchRequest, j_popIncomingRequestQueue]⟩,
  ⟨[M], [Fetch, Expose, SpecFetch], none, [inv_sendCacheInvalidate, z_stallAndWaitRequest]⟩,
  ⟨[IM], [Memory_Data], some M, [d_sendData_Hit, l_popMemQueue, kd_wakeUpDependents]⟩,
  ⟨[IE], [Memory_Data], some M, [dex_sendExposeData, l_popMemQueue, kd_wakeUpDependents]⟩,
  ⟨[II], [Memory_Data], some I, [ds_sendSpecData, l_popMemQueue, kd_wakeUpDependents]⟩,
  ⟨[M], [CleanReplacement], some I, [a_sendAck, k_popIncomingResponseQueue, kd_wakeUpDependents]⟩,
  ⟨[M], [Data], some MI, [qw_queueMemoryWBRequest, k_popIncomingResponseQueue]⟩,
  ⟨[MI], [Memory_Ack], some I, [aa_sendAck, l_popMemQueue, kd_wakeUpDependents]⟩,
  ⟨[I], [DMA_READ], some ID, [v_allocateTBE, qf_queueMemoryFetchRequestDMA,
    j_popIncomingRequestQueue]⟩,
  ⟨[ID], [Memory_Data], some I, [dr_sendDMAData, w_deallocateTBE, l_popMemQueue,
    kd_wakeUpDependents]⟩,
  ⟨[I], [DMA_WRITE], some ID_W, [v_allocateTBE, qw_queueMemoryWBRequest_partialRequest,
    j_popIncomingRequestQueue]⟩,
  ⟨[ID_W], [Memory_Ack], some I, [da_sendDMAAck, w_deallocateTBE, l_popMemQueue,
    kd_wakeUpDependents]⟩,
  ⟨[ID, ID_W, M_DRDI, M_DWRI, IM, IE, MI, II], [Fetch, Expose, SpecFetch, Data], none,
    [z_stallAndWaitRequest]⟩,
  ⟨[ID, ID_W, M_DRD, M_DRDI, M_DWR, M_DWRI, IM, IE, MI, II], [DMA_WRITE, DMA_READ], none,
    [zz_recycleDMAQueue]⟩,
  ⟨[M], [DMA_READ], some M_DRD, [v_allocateTBE, inv_sendCacheInvalidate,
    j_popIncomingRequestQueue]⟩,
  ⟨[M_DRD], [Data], some M_DRDI, [drp_sendDMAData, w_deallocateTBE, qw_queueMemoryWBRequest,
    k_popIncomingResponseQueue]⟩,
  ⟨[M_DRDI], [Memory_Ack], some I, [aa_sendAck, l_popMemQueue, kd_wakeUpDependents]⟩,
  ⟨[M], [DMA_WRITE], some M_DWR, [v_allocateTBE, inv_sendCacheInvalidate,
    j_popIncomingRequestQueue]⟩,
  ⟨[M_DWR], [Data], some M_DWRI, [qw_queueMemoryWBRequest_partialTBE, k_popIncomingResponseQueue]⟩,
  ⟨[M_DWRI], [Memory_Ack], some I, [aa_sendAck, da_sendDMAAck, w_deallocateTBE, l_popMemQueue,
    kd_wakeUpDependents]⟩]

/-! ## State of a line -/

def stateOf (x : Ctx) : State :=
  match x.theTBE with
  | some t => t.tbeState
  | none => (x.ctrl.entries x.addr).directoryState

def putState (x : Ctx) (s : State) : Ctx :=
  (x.modifyTBE fun t => { t with tbeState := s }).modifyEntry x.addr
    fun e => { e with directoryState := s }

def controller : Lib.Controller State Event Action Ctx where
  table := transitions
  act := act
  getState := fun x => some (stateOf x)
  setState := fun x s => some (putState x s)

/-! ## Input ports -/

def requestEvent : CoherenceRequestType → Option Event
  | .gets | .getInstr | .getx => some .Fetch
  | .expose => some .Expose
  | .getspec => some .SpecFetch
  | .getspecMem => some .SpecLoad_Mem
  | .getspecPerfect => some .SpecLoad_Perfect
  | .getspecPerfectUnsafe => some .SpecLoad_PerfectUnsafe
  | .dmaRead => some .DMA_READ
  | .dmaWrite => some .DMA_WRITE
  | .upgrade | .inv | .putx | .getspecL2 => none

def responseEvent : CoherenceResponseType → Option Event
  | .memoryData => some .Data
  | .ack => some .CleanReplacement
  | _ => none

def memoryEvent : MemoryRequestType → Event
  | .memoryRead => .Memory_Data
  | .memoryWb => .Memory_Ack
  | .memorySpecRead => .Memory_Data_Spec

/-- The event a port triggers and the line it is for. -/
def Ctrl.trigger (c : Ctrl) : Port → Option (Event × Nat)
  | .requestNetwork => c.requestIn.queue.head?.bind fun m => (requestEvent m.type).map (·, m.addr)
  | .responseNetwork =>
    c.responseIn.queue.head?.bind fun m => (responseEvent m.type).map (·, m.addr)
  | .memQueue => c.memoryIn.queue.head?.map fun m => (memoryEvent m.type, m.addr)

def Ctrl.context (c : Ctrl) (port : Port) (a : Nat) : Ctx where
  ctrl := c
  addr := a
  tbe := (c.tbes a).isSome
  port := port

/-- Serve the message at the head of a port: the new controller and what it sends. -/
def Ctrl.wakeup (c : Ctrl) (port : Port) : Option (Ctrl × List OutMsg) :=
  (c.trigger port).bind fun (e, a) =>
    (controller.transition (c.context port a) e).map fun x => (x.ctrl, x.out)

end Directory

end SdoCore.Mesi
