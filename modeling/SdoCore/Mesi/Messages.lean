import SdoCore.Mesi.CacheMemory

/-! Machines, messages and message buffers of the two-level MESI protocol
(`MESI_Two_Level-msg.sm`, `MessageBuffer.cc`). A data block is one number, a
destination set a list without repetitions. Message fields no transition reads
(sizes, prefetch bit, access mode) are left out. -/

namespace SdoCore.Mesi

open List

inductive MachineID
  | l1Cache (i : Nat)
  | l2Cache
  | directory
  | dma
  deriving DecidableEq

/-- The number of the machine among those of its type. -/
def MachineID.num : MachineID → Nat
  | .l1Cache i => i
  | _ => 0

def MachineID.isL1Cache : MachineID → Bool
  | .l1Cache _ => true
  | _ => false

inductive CoherenceRequestType
  | getx | upgrade | gets | getInstr | inv | putx | getspec | expose
  | getspecL2 | getspecMem | getspecPerfect | getspecPerfectUnsafe
  | dmaRead | dmaWrite
  deriving DecidableEq

inductive CoherenceResponseType
  | memoryAck | data | dataExclusive | memoryData | ack | wbAck | unblock | exclusiveUnblock | inv
  | dataSpecFromL1 | dataSpecFromMem
  deriving DecidableEq

/-- The requests of the core the L1 accepts. -/
inductive RubyRequestType
  | ld | ifetch | st | specLd | expose
  | specLdL0 | specLdL1 | specLdMem | specLdPerfect | specLdPerfectUnsafe
  deriving DecidableEq

inductive MemoryRequestType
  | memoryRead | memoryWb | memorySpecRead
  deriving DecidableEq

abbrev DataBlock := Nat
abbrev NetDest := List MachineID

def NetDest.add (d : NetDest) (m : MachineID) : NetDest := if m ∈ d then d else d ++ [m]
def NetDest.remove (d : NetDest) (m : MachineID) : NetDest := d.filter (· ≠ m)
def NetDest.count (d : NetDest) : Nat := d.length

structure RubyRequest where
  lineAddress : Nat
  type : RubyRequestType
  idx : Int := -1
  deriving DecidableEq

structure RequestMsg where
  addr : Nat
  type : CoherenceRequestType
  requestor : MachineID
  dataBlk : DataBlock := 0
  dirty : Bool := false
  hitAtL0 : Bool := false
  idx : Int := -1
  origin : MachineID := .l2Cache
  deriving DecidableEq

structure ResponseMsg where
  addr : Nat
  type : CoherenceResponseType
  sender : MachineID
  dataBlk : DataBlock := 0
  dirty : Bool := false
  ackCount : Int := 0
  (hitAtL0 hitAtL1 hitAtL2 hitAtMem : Bool := false)
  dataBlkL1 : DataBlock := 0
  dataBlkMem : DataBlock := 0
  idx : Int := -1
  origin : MachineID := .l2Cache
  deriving DecidableEq

/-- An answer of memory to the directory. -/
structure MemoryMsg where
  addr : Nat
  type : MemoryRequestType
  originalRequestorMachId : MachineID
  dataBlk : DataBlock := 0
  dataBlkMem : DataBlock := 0
  hitAtMem : Bool := false
  l1Requestor : MachineID := .l2Cache
  idx : Int := -1
  deriving DecidableEq

/-- A read, or a write of a block, on its way to memory, with the `SenderState`
kept for the answer: `type` 0 is an ordinary read, 1 a speculative one, 2 an
expose and 3 an oblivious one. -/
structure MemoryRequest where
  addr : Nat
  write : Option DataBlock := none
  id : MachineID
  type : Nat := 0
  coreId : Nat := 0
  sbeId : Int := -1
  deriving DecidableEq

/-- What an L1 tells its core. -/
inductive Callback
  | read (addr : Nat) (data : DataBlock) (external hitAtL0 hitAtL1 hitAtMem : Bool)
  | write (addr : Nat) (external hitAtL0 hitAtL1 hitAtMem : Bool)
  | oblivFromL0 (addr : Nat) (hit : Bool) (data : DataBlock) (idx : Int)
  | oblivFromL1 (addr : Nat) (hit : Bool) (data : DataBlock) (idx : Int)
  | oblivFromMem (addr : Nat) (hit : Bool) (data : DataBlock) (idx : Int)
  | eviction (addr : Nat) (external : Bool)
  | invalidateSC (addr : Nat)
  deriving DecidableEq

/-- What a transition sends: requests on virtual network 0, responses on 1, the
L2's requests to L1s and the L1s' unblocks on 2, callbacks to the core, and the
directory's requests to memory. -/
inductive OutMsg
  | request (dst : NetDest) (m : RequestMsg)
  | response (dst : NetDest) (m : ResponseMsg)
  | l1Request (dst : NetDest) (m : RequestMsg)
  | unblock (dst : NetDest) (m : ResponseMsg)
  | callback (c : Callback)
  | memory (r : MemoryRequest)
  deriving DecidableEq

/-- What an oblivious request may send. -/
def OutMsg.isSpec : OutMsg → Bool
  | .callback (.oblivFromL0 ..) => true
  | .request _ m => m.type == .getspecL2 || m.type == .getspecMem
  | .response _ m => m.type == .dataSpecFromL1
  | .memory r => r.type == 3 && r.write == none
  | _ => false

/-! ## Message buffers -/

/-- `m_prio_heap` in the order of service, and `m_stall_msg_map`. -/
structure MessageBuffer (μ : Type) where
  queue : List μ
  stallMap : Nat → List μ

namespace MessageBuffer

variable {μ : Type}

def empty : MessageBuffer μ := ⟨[], fun _ => []⟩

def enqueue (b : MessageBuffer μ) (m : μ) : MessageBuffer μ := { b with queue := b.queue ++ [m] }

def dequeue (b : MessageBuffer μ) : Option (MessageBuffer μ) :=
  match b.queue with
  | [] => none
  | _ :: q => some { b with queue := q }

/-- Set the message at the head aside until the line `a` changes state. -/
def stallMessage (b : MessageBuffer μ) (a : Nat) : Option (MessageBuffer μ) :=
  match b.queue with
  | [] => none
  | m :: q => some ⟨q, Function.update b.stallMap a (b.stallMap a ++ [m])⟩

/-- The messages set aside for `a` come back behind those that are ready; there
must be one. -/
def reanalyzeMessages (b : MessageBuffer μ) (a : Nat) : Option (MessageBuffer μ) :=
  match b.stallMap a with
  | [] => none
  | ms => some ⟨b.queue ++ ms, Function.update b.stallMap a []⟩

def recycle (b : MessageBuffer μ) : Option (MessageBuffer μ) :=
  match b.queue with
  | [] => none
  | m :: q => some { b with queue := q ++ [m] }

/-! What holds of every message of a buffer, ready or set aside. -/

structure All (p : μ → Prop) (b : MessageBuffer μ) : Prop where
  queue : ∀ m ∈ b.queue, p m
  stalled : ∀ a, ∀ m ∈ b.stallMap a, p m

variable {p : μ → Prop} {b c : MessageBuffer μ}

theorem All.empty : All p (empty : MessageBuffer μ) :=
  ⟨by simp [MessageBuffer.empty], by simp [MessageBuffer.empty]⟩

theorem All.head (h : All p b) {m : μ} (hm : b.queue.head? = some m) : p m :=
  h.queue m (mem_of_head? hm)

theorem All.enqueue (h : All p b) {m : μ} (hm : p m) : All p (b.enqueue m) := by
  refine ⟨?_, h.stalled⟩
  intro m' hm'
  rcases mem_append.mp hm' with hm' | hm'
  · exact h.queue m' hm'
  · rw [mem_singleton.mp hm']
    exact hm

theorem dequeue_eq_some (h : b.dequeue = some c) :
    ∃ m, b.queue = m :: c.queue ∧ c.stallMap = b.stallMap := by
  unfold dequeue at h
  split at h
  · cases h
  rename_i m q hq
  cases h
  exact ⟨m, hq, rfl⟩

theorem dequeue_of_queue {m : μ} {q : List μ} (h : b.queue = m :: q) :
    b.dequeue = some { b with queue := q } := by
  rw [dequeue, h]

theorem dequeue_ne_self (h : b.dequeue = some c) : c ≠ b := by
  rintro rfl
  obtain ⟨m, hq, -⟩ := dequeue_eq_some h
  exact absurd (congrArg List.length hq) (by simp)

/-- A message that is set aside is still there. -/
theorem dequeue_ne_stallMessage {a : Nat} {d : MessageBuffer μ} (h : b.dequeue = some c)
    (hd : b.stallMessage a = some d) : c ≠ d := by
  rintro rfl
  obtain ⟨m, hq, hs⟩ := dequeue_eq_some h
  rw [stallMessage, hq] at hd
  have hmap : Function.update b.stallMap a (b.stallMap a ++ [m]) = c.stallMap :=
    congrArg stallMap (Option.some.inj hd)
  have hat := congrFun (hmap.trans hs) a
  rw [Function.update_self] at hat
  exact absurd (congrArg List.length hat) (by simp)

theorem All.dequeue (h : All p b) (hc : b.dequeue = some c) : All p c := by
  obtain ⟨m, hq, hs⟩ := dequeue_eq_some hc
  refine ⟨fun m' hm' => h.queue m' ?_, fun a m' hm' => h.stalled a m' (hs ▸ hm')⟩
  rw [hq]
  exact mem_cons_of_mem _ hm'

theorem All.stallMessage (h : All p b) {a : Nat} (hc : b.stallMessage a = some c) : All p c := by
  unfold MessageBuffer.stallMessage at hc
  split at hc
  · cases hc
  rename_i m q hq
  cases hc
  have hm : p m := h.queue m (by simp [hq])
  refine ⟨fun m' hm' => h.queue m' (by simp [hq, hm']), fun a' m' hm' => ?_⟩
  by_cases ha : a' = a
  · subst ha
    simp only [Function.update_self, mem_append, mem_singleton] at hm'
    rcases hm' with hm' | rfl
    · exact h.stalled a' m' hm'
    · exact hm
  · simp only [Function.update_of_ne ha] at hm'
    exact h.stalled a' m' hm'

theorem All.reanalyzeMessages (h : All p b) {a : Nat} (hc : b.reanalyzeMessages a = some c) :
    All p c := by
  unfold MessageBuffer.reanalyzeMessages at hc
  split at hc
  · cases hc
  · cases hc
    refine ⟨fun m' hm' => ?_, fun a' m' hm' => ?_⟩
    · rcases mem_append.mp hm' with hm' | hm'
      · exact h.queue m' hm'
      · exact h.stalled a m' hm'
    · by_cases ha : a' = a
      · subst ha
        simp at hm'
      · simp only [Function.update_of_ne ha] at hm'
        exact h.stalled a' m' hm'

theorem All.recycle (h : All p b) (hc : b.recycle = some c) : All p c := by
  unfold MessageBuffer.recycle at hc
  split at hc
  · cases hc
  rename_i m q hq
  cases hc
  refine ⟨fun m' hm' => h.queue m' ?_, h.stalled⟩
  rw [hq, mem_cons]
  rcases mem_append.mp hm' with hm' | hm'
  · exact Or.inr hm'
  · exact Or.inl (mem_singleton.mp hm')

end MessageBuffer

end SdoCore.Mesi
