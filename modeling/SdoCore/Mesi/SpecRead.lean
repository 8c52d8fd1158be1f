import SdoCore.Lib.Machine
import SdoCore.Mesi.Directory

/-! Oblivious reads of memory and their answers (`AbstractController.cc`). The directory decides
whether a read hits when it queues it, and parks the decision in `m_specBuf` under the core and
the index of the load; the answer of memory picks it up there. A read that finds no other one
of its entry unanswered gets its own decision back (`specRead_answer`); a second read with the
same entry overwrites the decision of the first (`specRead_overwritten`). -/

namespace SdoCore.Mesi

open List
open Lib

namespace Directory

/-! ## Runs -/

/-- A request memory has not answered, with what `queueMemoryRead` was told about it. -/
structure Queued where
  req : MemoryRequest
  hitAtMem : Bool
  origin : MachineID
  deriving DecidableEq

/-- The directory with its port to memory. -/
structure MemPort where
  ctrl : Ctrl
  queued : List Queued

inductive MemEvent
  | specRead (id : MachineID) (addr : Nat) (origin : MachineID) (idx : Int) (hitAtMem : Bool)
  | read (id : MachineID) (addr : Nat) (origin : MachineID) (idx : Int) (type : Nat)
  | write (id : MachineID) (addr : Nat) (data : DataBlock)
  | answer (k : Nat) (data : DataBlock)

namespace MemPort

/-- Remember what a read was queued with. -/
def queue (p : MemPort) (hitAtMem : Bool) (origin : MachineID) :
    Option (Ctrl × List MemoryRequest) → Option MemPort
  | some (c, rs) => some ⟨c, p.queued ++ rs.map fun r => ⟨r, hitAtMem, origin⟩⟩
  | none => none

def step (p : MemPort) : MemEvent → Option MemPort
  | .specRead id a origin idx hit =>
    p.queue hit origin (p.ctrl.queueMemorySpecRead id a origin idx hit)
  | .read id a origin idx type =>
    if type ≤ 2 then p.queue false origin (p.ctrl.queueMemoryRead id a origin idx type) else none
  | .write id a d =>
    some { p with queued := p.queued ++ [⟨{ addr := a, write := some d, id := id }, false, id⟩] }
  | .answer k d =>
    p.queued[k]?.map fun q => ⟨p.ctrl.recvTimingResp q.req d, p.queued.eraseIdx k⟩

/-- The entry is in the array; the access is undefined behaviour otherwise. -/
def inSpecBuf (coreId : Nat) (sbeId : Int) : Bool :=
  decide (0 ≤ sbeSlot coreId sbeId) && decide (sbeSlot coreId sbeId < 8 * 66)

/-- The condition on a step: it uses an entry of the array, and an oblivious read of the same entry
that is still unanswered was queued with the same decision. -/
def keyFree (p : MemPort) : MemEvent → Bool
  | .specRead _ _ origin idx hit => inSpecBuf origin.num idx && p.queued.all fun q =>
      !(q.req.type == 3 && sbeSlot q.req.coreId q.req.sbeId == sbeSlot origin.num idx) ||
        (q.hitAtMem == hit && q.origin == origin)
  | .read _ _ origin idx type => p.ctrl.enableMLDOM || type == 0 || inSpecBuf origin.num idx
  | _ => true

end MemPort

def memMachine : Machine MemPort MemEvent where
  start p := p.queued = []
  step := MemPort.step

/-! ## The parked decisions -/

namespace MemPort

/-- Every unanswered oblivious read finds its own decision in its entry. -/
def Parked (p : MemPort) : Prop :=
  ∀ q ∈ p.queued, q.req.type = 3 → q.req.write = none ∧
    (p.ctrl.specBuf (sbeSlot q.req.coreId q.req.sbeId)).hitAtMem = q.hitAtMem ∧
    (p.ctrl.specBuf (sbeSlot q.req.coreId q.req.sbeId)).originalRequestor = q.origin

/-- The entries of the buffer keep their decisions. -/
def SameDecisions (c c' : Ctrl) : Prop :=
  ∀ n, (c'.specBuf n).hitAtMem = (c.specBuf n).hitAtMem ∧
    (c'.specBuf n).originalRequestor = (c.specBuf n).originalRequestor

theorem setSpecBuf_self (c : Ctrl) (k : Nat) (i : Int) (e : SBE) :
    (c.setSpecBuf k i e).specBuf (sbeSlot k i) = e :=
  Function.update_self ..

theorem setSpecBuf_ne (c : Ctrl) {k : Nat} {i n : Int} (e : SBE) (h : n ≠ sbeSlot k i) :
    (c.setSpecBuf k i e).specBuf n = c.specBuf n :=
  Function.update_of_ne h ..

theorem clearSpecBuf_same (c : Ctrl) (a : Nat) : SameDecisions c (c.clearSpecBuf a) := by
  intro n
  simp only [Ctrl.clearSpecBuf]
  split <;> exact ⟨rfl, rfl⟩

theorem queueMemoryRead_same {c c' : Ctrl} {id origin : MachineID} {a type : Nat} {idx : Int}
    {rs : List MemoryRequest} (h : c.queueMemoryRead id a origin idx type = some (c', rs)) :
    SameDecisions c c' ∧ ∀ r ∈ rs, r.type = type := by
  have hrefl : SameDecisions c c := fun _ => ⟨rfl, rfl⟩
  unfold Ctrl.queueMemoryRead at h
  dsimp only at h
  split at h
  · cases h
    exact ⟨hrefl, by simp⟩
  split at h
  · cases h
  split at h
  · cases h
    exact ⟨clearSpecBuf_same c a, by simp⟩
  · cases h
    exact ⟨hrefl, by simp⟩
  split at h
  · cases h
    exact ⟨clearSpecBuf_same c a, by simp⟩
  · cases h
    exact ⟨clearSpecBuf_same c a, by simp⟩

theorem recvTimingResp_same (c : Ctrl) (r : MemoryRequest) (d : DataBlock) :
    SameDecisions c (c.recvTimingResp r d) := by
  have hrefl : SameDecisions c c := fun _ => ⟨rfl, rfl⟩
  unfold Ctrl.recvTimingResp
  split
  · exact hrefl
  split
  · exact hrefl
  split
  · intro n
    by_cases hn : n = sbeSlot r.coreId r.sbeId
    · subst hn
      simp [Ctrl.enqueueMemory, setSpecBuf_self]
    · simp [Ctrl.enqueueMemory, setSpecBuf_ne c _ hn]
  · exact hrefl

theorem Parked.of_same {p p' : MemPort} (h : Parked p) (hc : SameDecisions p.ctrl p'.ctrl)
    (hq : ∀ q ∈ p'.queued, q ∈ p.queued ∨ q.req.type ≠ 3) : Parked p' := by
  intro q hmem htype
  rcases hq q hmem with hold | hne
  · obtain ⟨hw, hhit, horigin⟩ := h q hold htype
    obtain ⟨h1, h2⟩ := hc (sbeSlot q.req.coreId q.req.sbeId)
    exact ⟨hw, h1.trans hhit, h2.trans horigin⟩
  · exact absurd htype hne

/-- The new read writes its own entry; those that share it agree with it. -/
theorem Parked.specRead {p p' : MemPort} {id origin : MachineID} {a : Nat} {idx : Int} {hit : Bool}
    (h : Parked p) (hfree : p.keyFree (.specRead id a origin idx hit))
    (hs : p.step (.specRead id a origin idx hit) = some p') : Parked p' := by
  simp only [step, Ctrl.queueMemorySpecRead] at hs
  split at hs
  · cases hs
  cases hs
  intro q hq htype
  rcases mem_append.mp hq with hq | hq
  · obtain ⟨hw, hhit, horigin⟩ := h q hq htype
    refine ⟨hw, ?_⟩
    by_cases hkey : sbeSlot q.req.coreId q.req.sbeId = sbeSlot origin.num idx
    · have hag := all_eq_true.mp (Bool.and_eq_true_iff.mp hfree).2 q hq
      simp only [htype, hkey, BEq.rfl, Bool.and_self, Bool.not_true, Bool.false_or,
        Bool.and_eq_true, beq_iff_eq] at hag
      simp only [hkey, setSpecBuf_self]
      exact ⟨hag.1.symm, hag.2.symm⟩
    · simp only [setSpecBuf_ne _ _ hkey]
      exact ⟨hhit, horigin⟩
  · simp only [map_cons, map_nil, mem_singleton] at hq
    subst hq
    simp [setSpecBuf_self]

theorem Parked.step {p p' : MemPort} {e : MemEvent} (h : Parked p) (hfree : p.keyFree e)
    (hs : p.step e = some p') : Parked p' := by
  cases e with
  | specRead id a origin idx hit => exact h.specRead hfree hs
  | read id a origin idx type =>
    simp only [MemPort.step] at hs
    split at hs
    · next htype =>
      cases hr : p.ctrl.queueMemoryRead id a origin idx type with
      | none =>
        rw [hr] at hs
        cases hs
      | some cr =>
        obtain ⟨c, rs⟩ := cr
        rw [hr] at hs
        cases hs
        obtain ⟨hsame, htypes⟩ := queueMemoryRead_same hr
        refine h.of_same hsame fun q hq => ?_
        rcases mem_append.mp hq with hq | hq
        · exact .inl hq
        obtain ⟨r, hr, rfl⟩ := mem_map.mp hq
        have := htypes r hr
        exact .inr (by dsimp only; omega)
    · cases hs
  | write id a d =>
    cases hs
    refine h.of_same (fun _ => ⟨rfl, rfl⟩) fun q hq => ?_
    rcases mem_append.mp hq with hq | hq
    · exact .inl hq
    · cases mem_singleton.mp hq
      exact .inr (by simp)
  | answer k d =>
    obtain ⟨q, hq, rfl⟩ := Option.map_eq_some_iff.mp hs
    exact h.of_same (recvTimingResp_same p.ctrl q.req d)
      fun q' hq' => .inl (mem_of_mem_eraseIdx hq')

end MemPort

/-- The answer to an oblivious read carries the decision and the requestor the read was queued
with, if every step of the run used an entry of the array and none queued a read with the entry of
an unanswered one and another decision. -/
theorem specRead_answer {p p' : MemPort}
    (h : memMachine.ReachWhen (fun p e => p.keyFree e = true) p) {k : Nat} {q : Queued}
    {d : DataBlock} (hq : p.queued[k]? = some q) (htype : q.req.type = 3)
    (hs : p.step (.answer k d) = some p') :
    ∃ m, p'.ctrl.memoryIn = p.ctrl.memoryIn.enqueue m ∧ m.type = .memorySpecRead ∧
      m.addr = q.req.addr ∧ m.idx = q.req.sbeId ∧ m.hitAtMem = q.hitAtMem ∧
      m.l1Requestor = q.origin := by
  have hp : p.Parked := h.invariant (I := MemPort.Parked)
    (fun p₀ h₀ q hq => by
      have hnil : p₀.queued = [] := h₀
      rw [hnil] at hq
      cases hq)
    fun _ _ _ hi hfree hs => hi.step hfree hs
  obtain ⟨hw, hhit, horigin⟩ := hp q (mem_of_getElem? hq) htype
  simp only [MemPort.step, hq, Option.map_some, Option.some.injEq] at hs
  subst hs
  simp only [Ctrl.recvTimingResp, hw, htype, if_true, Ctrl.enqueueMemory]
  exact ⟨_, rfl, rfl, rfl, rfl, hhit, horigin⟩

/-! ## Two loads and one entry -/

def emptyMemPort : MemPort where
  ctrl :=
    { entries := fun _ => {}, tbes := fun _ => none, requestIn := .empty, responseIn := .empty
      memoryIn := .empty, waiting := fun _ _ => none, specBuf := fun _ => {}, enableMLDOM := true }
  queued := []

/-- A read of core 1 with index 3 that hits, and a read that misses. -/
def twoReads (core : Nat) (idx : Int) : List MemEvent :=
  [.specRead .l2Cache 64 (.l1Cache 1) 3 true, .specRead .l2Cache 128 (.l1Cache core) idx false]

def twoReadsPort (core : Nat) (idx : Int) : MemPort :=
  (memMachine.run emptyMemPort (twoReads core idx)).getD emptyMemPort

/-- The first read as memory holds it. -/
def firstRead : Queued :=
  ⟨{ addr := 64, id := .l2Cache, type := 3, coreId := 1, sbeId := 3 }, true, .l1Cache 1⟩

theorem specRead_answer_first :
    ∃ m p', (twoReadsPort 1 4).step (.answer 0 7) = some p' ∧
      p'.ctrl.memoryIn = (twoReadsPort 1 4).ctrl.memoryIn.enqueue m ∧ m.hitAtMem = true := by
  have hs := Machine.eq_some_getD (o := (twoReadsPort 1 4).step (.answer 0 7)) (d := emptyMemPort)
    (by decide +kernel)
  obtain ⟨m, hm, -, -, -, hhit, -⟩ := specRead_answer (q := firstRead)
    (.run (.start (s := emptyMemPort) rfl) (twoReads 1 4) (by decide +kernel)
      (Machine.run_getD (by decide +kernel))) (by decide +kernel) rfl hs
  exact ⟨m, _, hs, hm, hhit⟩

/-- With the same core and index the answer to the first read says miss; with index 69 of core 0,
which is the same entry, it also goes to the wrong core. -/
theorem specRead_overwritten :
    (¬ ∀ (p p' : MemPort), memMachine.Reach p → ∀ (k : Nat) (q : Queued) (d : DataBlock),
      p.queued[k]? = some q → q.req.type = 3 → p.step (.answer k d) = some p' →
        ∃ m, p'.ctrl.memoryIn = p.ctrl.memoryIn.enqueue m ∧ m.hitAtMem = q.hitAtMem ∧
          m.l1Requestor = q.origin) ∧
    (((twoReadsPort 0 69).step (.answer 0 7)).getD emptyMemPort).ctrl.memoryIn.queue.map
      (fun m => (m.hitAtMem, m.l1Requestor)) = [(false, .l1Cache 0)] := by
  refine ⟨fun h => ?_, by decide +kernel⟩
  have hreach : memMachine.Reach (twoReadsPort 1 3) :=
    Machine.reach_run (s := emptyMemPort) rfl (Machine.run_getD (by decide +kernel))
  have hs := Machine.eq_some_getD (o := (twoReadsPort 1 3).step (.answer 0 7)) (d := emptyMemPort)
    (by decide +kernel)
  obtain ⟨m, hm, hhit, -⟩ := h _ _ hreach 0 firstRead 7 (by decide +kernel) rfl hs
  have hqueue := congrArg MessageBuffer.queue hm
  have hone : (((twoReadsPort 1 3).step (.answer 0 7)).getD emptyMemPort).ctrl.memoryIn.queue.map
      (·.hitAtMem) = [false] := by decide +kernel
  have hempty : (twoReadsPort 1 3).ctrl.memoryIn.queue = [] := by decide +kernel
  rw [hqueue, MessageBuffer.enqueue, hempty] at hone
  simp [hhit, firstRead] at hone

end Directory

end SdoCore.Mesi
