import SdoCore.Lib.Machine
import SdoCore.Mesi.L1Cache
import SdoCore.Mesi.L2Cache
import SdoCore.Mesi.Directory

/-! A two-level MESI system: any number of L1 controllers, the shared L2, the
directory with its memory, and the network between them.

Each link (a virtual network from one machine to another) is a FIFO. An event is a
request of a core, a prefetch, the service of one message by one controller, the
delivery of the message at the head of a link, or the answer of memory to one of
the requests it holds; which event comes next is free. -/

namespace SdoCore.Mesi

open Function (update)

structure SysParams where
  numL1 : Nat
  l1 : CacheParams
  l2 : CacheParams

abbrev Link (μ : Type) := MachineID → MachineID → List μ

namespace Link

variable {μ : Type}

def send (l : Link μ) (src : MachineID) (dst : NetDest) (m : μ) : Link μ := fun a b =>
  if a = src ∧ b ∈ dst then l a b ++ [m] else l a b

def pop (l : Link μ) (src dst : MachineID) : Link μ := fun a b =>
  if a = src ∧ b = dst then (l a b).tail else l a b

end Link

/-- Virtual networks 0 and 1, and the two uses of network 2. -/
structure Network where
  request : Link RequestMsg
  response : Link ResponseMsg
  l1Request : Link RequestMsg
  unblock : Link ResponseMsg

/-- `cpu` collects what each core has been told. -/
structure Sys (P : SysParams) where
  l1 : Nat → L1Cache.Ctrl P.l1
  l2 : L2Cache.Ctrl P.l2
  dir : Directory.Ctrl
  net : Network
  memoryQueue : List MemoryRequest
  memory : Nat → DataBlock
  cpu : Nat → List Callback

variable {P : SysParams}

namespace Sys

/-- One message leaves a controller. -/
def postOne (s : Sys P) (src : MachineID) : OutMsg → Sys P
  | .request dst m => { s with net := { s.net with request := s.net.request.send src dst m } }
  | .response dst m => { s with net := { s.net with response := s.net.response.send src dst m } }
  | .l1Request dst m => { s with net := { s.net with l1Request := s.net.l1Request.send src dst m } }
  | .unblock dst m => { s with net := { s.net with unblock := s.net.unblock.send src dst m } }
  | .callback c => { s with cpu := update s.cpu src.num (s.cpu src.num ++ [c]) }
  | .memory r => { s with memoryQueue := s.memoryQueue ++ [r] }

def post (s : Sys P) (src : MachineID) (out : List OutMsg) : Sys P :=
  out.foldl (fun s m => s.postOne src m) s

def setL1 (s : Sys P) (i : Nat) (c : L1Cache.Ctrl P.l1) : Sys P :=
  { s with l1 := update s.l1 i c }

/-! ## Delivery -/

def deliverRequest (s : Sys P) (src dst : MachineID) : Option (Sys P) :=
  match s.net.request src dst with
  | [] => none
  | m :: _ =>
    let s := { s with net := { s.net with request := s.net.request.pop src dst } }
    match dst with
    | .l2Cache => some { s with l2 := { s.l2 with requestIn := s.l2.requestIn.enqueue m } }
    | .directory => some { s with dir := { s.dir with requestIn := s.dir.requestIn.enqueue m } }
    | _ => none

def deliverResponse (s : Sys P) (src dst : MachineID) : Option (Sys P) :=
  match s.net.response src dst with
  | [] => none
  | m :: _ =>
    let s := { s with net := { s.net with response := s.net.response.pop src dst } }
    match dst with
    | .l1Cache i => some (s.setL1 i { s.l1 i with responseIn := (s.l1 i).responseIn.enqueue m })
    | .l2Cache => some { s with l2 := { s.l2 with responseIn := s.l2.responseIn.enqueue m } }
    | .directory => some { s with dir := { s.dir with responseIn := s.dir.responseIn.enqueue m } }
    | .dma => none

def deliverL1Request (s : Sys P) (src dst : MachineID) : Option (Sys P) :=
  match s.net.l1Request src dst with
  | [] => none
  | m :: _ =>
    let s := { s with net := { s.net with l1Request := s.net.l1Request.pop src dst } }
    match dst with
    | .l1Cache i => some (s.setL1 i { s.l1 i with requestIn := (s.l1 i).requestIn.enqueue m })
    | _ => none

def deliverUnblock (s : Sys P) (src dst : MachineID) : Option (Sys P) :=
  match s.net.unblock src dst with
  | [] => none
  | m :: _ =>
    let s := { s with net := { s.net with unblock := s.net.unblock.pop src dst } }
    match dst with
    | .l2Cache => some { s with l2 := { s.l2 with unblockIn := s.l2.unblockIn.enqueue m } }
    | _ => none

/-! ## Requests of the cores and memory -/

/-- The sequencer of core `i` issues a request; a store leaves its data there. -/
def makeRequest (s : Sys P) (i : Nat) (m : RubyRequest) (data : DataBlock) : Sys P :=
  let c := s.l1 i
  s.setL1 i { c with
    mandatoryQueue := c.mandatoryQueue.enqueue m
    seqWrite := if m.type = .st then update c.seqWrite m.lineAddress data else c.seqWrite }

def prefetch (s : Sys P) (i : Nat) (m : RubyRequest) : Sys P :=
  s.setL1 i { s.l1 i with optionalQueue := (s.l1 i).optionalQueue.enqueue m }

/-- Memory serves the `k`th request it holds. -/
def serveMemory (s : Sys P) (k : Nat) : Option (Sys P) :=
  s.memoryQueue[k]?.map fun r =>
    let s := { s with memoryQueue := s.memoryQueue.eraseIdx k }
    match r.write with
    | some d =>
      { s with dir := s.dir.recvTimingResp r 0, memory := update s.memory r.addr d }
    | none => { s with dir := s.dir.recvTimingResp r (s.memory r.addr) }

end Sys

/-! ## The machine -/

inductive SysEvent
  | core (i : Nat) (m : RubyRequest) (data : DataBlock)
  | prefetch (i : Nat) (m : RubyRequest)
  | l1 (i : Nat) (port : L1Cache.Port)
  | l2 (port : L2Cache.Port)
  | dir (port : Directory.Port)
  | deliverRequest (src dst : MachineID)
  | deliverResponse (src dst : MachineID)
  | deliverL1Request (src dst : MachineID)
  | deliverUnblock (src dst : MachineID)
  | memory (k : Nat)

def Sys.step (s : Sys P) : SysEvent → Option (Sys P)
  | .core i m d => if i < P.numL1 then some (s.makeRequest i m d) else none
  | .prefetch i m => if i < P.numL1 then some (s.prefetch i m) else none
  | .l1 i port =>
    if i < P.numL1 then
      ((s.l1 i).wakeup (.l1Cache i) port).map fun (c, out) => (s.setL1 i c).post (.l1Cache i) out
    else none
  | .l2 port => (s.l2.wakeup port).map fun (c, out) => { s with l2 := c }.post .l2Cache out
  | .dir port => (s.dir.wakeup port).map fun (c, out) => { s with dir := c }.post .directory out
  | .deliverRequest src dst => s.deliverRequest src dst
  | .deliverResponse src dst => s.deliverResponse src dst
  | .deliverL1Request src dst => s.deliverL1Request src dst
  | .deliverUnblock src dst => s.deliverUnblock src dst
  | .memory k => s.serveMemory k

/-- Every cache and buffer empty, memory and the replacement state arbitrary. -/
structure Sys.Start (s : Sys P) : Prop where
  l1 : ∀ i, ∃ rd ri ev sw, s.l1 i =
    { dcache := .empty rd, icache := .empty ri, tbes := fun _ => none, mandatoryQueue := .empty
      optionalQueue := .empty, requestIn := .empty, responseIn := .empty
      waiting := fun _ _ => none, seqWrite := sw, sendEvictions := ev }
  l2 : ∃ r, s.l2 =
    { cache := .empty r, tbes := fun _ => none, requestIn := .empty, responseIn := .empty
      unblockIn := .empty, waiting := fun _ _ => none }
  dir : ∃ sb ml, s.dir =
    { entries := fun _ => {}, tbes := fun _ => none, requestIn := .empty, responseIn := .empty
      memoryIn := .empty, waiting := fun _ _ => none, specBuf := sb, enableMLDOM := ml }
  net : s.net = ⟨fun _ _ => [], fun _ _ => [], fun _ _ => [], fun _ _ => []⟩
  memoryQueue : s.memoryQueue = []

def sysMachine (P : SysParams) : Lib.Machine (Sys P) SysEvent where
  start := Sys.Start
  step := Sys.step

end SdoCore.Mesi
