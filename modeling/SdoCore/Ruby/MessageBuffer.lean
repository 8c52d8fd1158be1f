import Mathlib.Data.List.Sort
import SdoCore.Lib.Machine

/-! The message buffers between the controllers (`MessageBuffer.cc`). A pop counts for the size that
`areNSlotsAvailable` sees from the next cycle on only, and stalled messages wait in a map of their
own until their line is reanalysed.

* `bounded_buffer_fits`: a bounded buffer does not overflow in runs in which a reanalysis after a
  pop of its cycle stays within the size that is seen
* `bounded_buffer_overflows`: a reanalysis behind the only pop of a cycle makes room twice -/

namespace SdoCore.Ruby

open Lib
open List

/-- `serial` is history: the counter the message got when it was enqueued. -/
structure Message where
  line : Nat
  (lastEnqueueTime msgCounter serial : Nat := 0)
deriving DecidableEq

/-- `operator>` with its operands exchanged. -/
def Message.before (l r : Message) : Bool :=
  if l.lastEnqueueTime = r.lastEnqueueTime then l.msgCounter < r.msgCounter
  else l.lastEnqueueTime < r.lastEnqueueTime

namespace Message

variable {l m r : Message}

theorem before_trans (h : l.before m = true) (h' : m.before r = true) : l.before r = true := by
  simp only [before] at *
  grind

theorem before_of_not (h : l.before r = false) (hc : l.msgCounter < r.msgCounter) :
    r.before l = true := by
  simp only [before] at *
  grind

end Message

/-- `prioHeap` has the messages in the order in which the heap gives them out, and `stallMap` the
lists of `m_stall_msg_map` one key after the other. `now` and `dequeued` are history: the time of
the last call, and what `dequeue` took out other than for `stallMessage`. -/
structure MessageBuffer where
  maxSize : Nat
  (strictFifo randomization : Bool)
  prioHeap : List Message := []
  stallMap : List (Nat × Message) := []
  stallMapSize : Int := 0
  (timeLastTimeEnqueue timeLastTimePop lastArrivalTime : Nat := 0)
  (sizeAtCycleStart msgsThisCycle msgCounter now : Nat := 0)
  dequeued : List Message := []

namespace MessageBuffer

/-- The `current_size` of `areNSlotsAvailable`. -/
def currentSize (s : MessageBuffer) (currentTime : Nat) : Nat :=
  if s.timeLastTimePop < currentTime then s.prioHeap.length
  else if s.timeLastTimeEnqueue < currentTime then s.sizeAtCycleStart
  else s.sizeAtCycleStart + s.msgsThisCycle

def areNSlotsAvailable (s : MessageBuffer) (n currentTime : Nat) : Bool :=
  s.maxSize == 0 || decide (s.currentSize currentTime + s.stallMapSize + n ≤ s.maxSize)

def pushHeap (s : MessageBuffer) (m : Message) : MessageBuffer :=
  { s with prioHeap := s.prioHeap.filter (·.before m) ++ m :: s.prioHeap.filter (!·.before m) }

/-- What `enqueue` takes for `m_last_arrival_time` when it computes the arrival. -/
def lastArrival (s : MessageBuffer) (currentTime : Nat) : Nat :=
  if s.randomization && s.strictFifo then max s.lastArrivalTime currentTime else s.lastArrivalTime

/-- `random` is the answer of `random_time`. -/
def arrivalTime (s : MessageBuffer) (currentTime delta random : Nat) : Nat :=
  if !s.randomization then currentTime + delta
  else if s.strictFifo then s.lastArrival currentTime + random
  else currentTime + random

/-- `none` is a failed assertion or the panic "FIFO ordering violated". -/
def enqueue (s : MessageBuffer) (m : Message) (currentTime delta random : Nat) :
    Option MessageBuffer :=
  let arrival := s.arrivalTime currentTime delta random
  if delta = 0 ∨ arrival ≤ currentTime ∨ s.strictFifo ∧ arrival < s.lastArrival currentTime ∨
      currentTime < m.lastEnqueueTime then none
  else
    let counter := s.msgCounter + 1
    some ({ s with
      msgsThisCycle := (if s.timeLastTimeEnqueue < currentTime then 0 else s.msgsThisCycle) + 1
      timeLastTimeEnqueue := max s.timeLastTimeEnqueue currentTime
      msgCounter := counter
      lastArrivalTime := arrival }.pushHeap
      { m with lastEnqueueTime := arrival, msgCounter := counter, serial := counter })

/-- The message and the buffer without it, if `isReady`. -/
def dequeue (s : MessageBuffer) (currentTime : Nat) : Option (Message × MessageBuffer) :=
  match s.prioHeap with
  | [] => none
  | m :: rest =>
    if currentTime < m.lastEnqueueTime then none
    else some (m, { s with
      sizeAtCycleStart :=
        if s.timeLastTimePop < currentTime then s.prioHeap.length else s.sizeAtCycleStart
      timeLastTimePop := max s.timeLastTimePop currentTime
      prioHeap := rest })

def stallMessage (s : MessageBuffer) (addr currentTime : Nat) : Option MessageBuffer :=
  (s.dequeue currentTime).map fun (m, s) =>
    { s with
      stallMap := s.stallMap.filter (·.1 ≤ addr) ++ (addr, m) :: s.stallMap.filter (addr < ·.1)
      stallMapSize := s.stallMapSize + 1 }

def reanalyzeList (s : MessageBuffer) (schdTick : Nat) : List Message → MessageBuffer
  | [] => s
  | m :: lt =>
    let counter := s.msgCounter + 1
    ({ s with msgCounter := counter }.pushHeap
      { m with lastEnqueueTime := schdTick, msgCounter := counter }).reanalyzeList schdTick lt

/-- The stalled messages of the lines in `sel` go back on the heap. -/
def reanalyze (s : MessageBuffer) (sel : Nat → Bool) (currentTime : Nat) : Option MessageBuffer :=
  let moved := (s.stallMap.filter (sel ·.1)).map (·.2)
  if s.stallMapSize < moved.length then none
  else some ({ s with
    stallMapSize := s.stallMapSize - moved.length
    stallMap := s.stallMap.filter (!sel ·.1) }.reanalyzeList currentTime moved)

def reanalyzeMessages (s : MessageBuffer) (addr currentTime : Nat) : Option MessageBuffer :=
  if s.stallMap.any (·.1 == addr) then s.reanalyze (· == addr) currentTime else none

def reanalyzeAllMessages (s : MessageBuffer) (currentTime : Nat) : Option MessageBuffer :=
  s.reanalyze (fun _ => true) currentTime

end MessageBuffer

inductive BufferOp
  | enqueue (m : Message) (time delta random : Nat)
  | dequeue (time : Nat)
  | stallMessage (addr time : Nat)
  | reanalyzeMessages (addr time : Nat)
  | reanalyzeAllMessages (time : Nat)

def BufferOp.time : BufferOp → Nat
  | .enqueue _ t _ _ | .dequeue t | .stallMessage _ t | .reanalyzeMessages _ t
  | .reanalyzeAllMessages t => t

namespace MessageBuffer

def handle (s : MessageBuffer) : BufferOp → Option MessageBuffer
  | .enqueue m t delta random => s.enqueue m t delta random
  | .dequeue t => (s.dequeue t).map fun (m, s) => { s with dequeued := s.dequeued ++ [m] }
  | .stallMessage addr t => s.stallMessage addr t
  | .reanalyzeMessages addr t => s.reanalyzeMessages addr t
  | .reanalyzeAllMessages t => s.reanalyzeAllMessages t

/-- Calls come at non-decreasing times. -/
def stepIf (ok : Bool) (s : MessageBuffer) (e : BufferOp) : Option MessageBuffer :=
  if ok && decide (s.now ≤ e.time) then (s.handle e).map ({ · with now := e.time }) else none

/-- The sender asks for a slot first. -/
def asked (s : MessageBuffer) : BufferOp → Bool
  | .enqueue _ t _ _ => s.areNSlotsAvailable 1 t
  | _ => true

end MessageBuffer

def boundedBuffer : Machine MessageBuffer BufferOp where
  start s := ∃ maxSize strictFifo randomization, 0 < maxSize ∧
    s = { maxSize, strictFifo, randomization }
  step s e := s.stepIf (s.asked e) e

namespace MessageBuffer

variable {s s' : MessageBuffer} {e : BufferOp} {m : Message} {lt : List Message} {a b t : Nat}

theorem stepIf_cases {ok : Bool} (h : stepIf ok s e = some s') :
    ok = true ∧ s.now ≤ e.time ∧ ∃ u, s.handle e = some u ∧ s' = { u with now := e.time } := by
  simp only [stepIf] at h
  split at h
  · next hok =>
    rw [Bool.and_eq_true, decide_eq_true_eq] at hok
    obtain ⟨u, hu, rfl⟩ := Option.map_eq_some_iff.mp h
    exact ⟨hok.1, hok.2, u, hu, rfl⟩
  · cases h

theorem dequeue_cases {u : MessageBuffer} (h : s.dequeue t = some (m, u)) :
    ∃ rest, s.prioHeap = m :: rest ∧ m.lastEnqueueTime ≤ t ∧ u = { s with
      sizeAtCycleStart := if s.timeLastTimePop < t then s.prioHeap.length else s.sizeAtCycleStart
      timeLastTimePop := max s.timeLastTimePop t
      prioHeap := rest } := by
  unfold dequeue at h
  split at h
  · cases h
  · next rest hs =>
    split at h
    · cases h
    · next hle =>
      cases h
      exact ⟨rest, hs, Nat.not_lt.mp hle, rfl⟩

/-! ## The heap -/

theorem pushHeap_perm : (s.pushHeap m).prioHeap.Perm (m :: s.prioHeap) :=
  perm_middle.trans ((filter_append_perm _ _).cons m)

/-- The messages as `reanalyzeList` puts them on the heap. -/
def retimed (schdTick : Nat) : Nat → List Message → List Message
  | _, [] => []
  | counter, m :: lt =>
    { m with lastEnqueueTime := schdTick, msgCounter := counter + 1 } ::
      retimed schdTick (counter + 1) lt

theorem length_retimed (t n : Nat) (lt : List Message) : (retimed t n lt).length = lt.length := by
  induction lt generalizing n with
  | nil => rfl
  | cons m lt ih => rw [retimed, length_cons, length_cons, ih]

/-- The heap gives out its messages in order, and the counter is not behind them. -/
structure Heap (s : MessageBuffer) : Prop where
  sorted : s.prioHeap.Pairwise fun l r => l.before r = true
  counter : ∀ m ∈ s.prioHeap, m.msgCounter ≤ s.msgCounter

theorem Heap.push (h : Heap s) {n : Nat} (hm : m.msgCounter = n) (hn : s.msgCounter < n) :
    Heap ({ s with msgCounter := n }.pushHeap m) := by
  have hback : ∀ y ∈ s.prioHeap.filter (!·.before m), m.before y = true := by
    intro y hy
    obtain ⟨hy, hno⟩ := mem_filter.mp hy
    have hc := h.counter y hy
    exact Message.before_of_not (by simpa using hno) (by omega)
  constructor
  · refine pairwise_append.mpr ⟨h.sorted.sublist filter_sublist,
      pairwise_cons.mpr ⟨hback, h.sorted.sublist filter_sublist⟩, fun x hx y hy => ?_⟩
    obtain ⟨-, hx⟩ := mem_filter.mp hx
    rcases mem_cons.mp hy with rfl | hy
    · exact hx
    · exact Message.before_trans hx (hback y hy)
  · intro x hx
    rcases mem_cons.mp (pushHeap_perm.mem_iff.mp hx) with rfl | hx
    · exact hm.le
    · exact (h.counter x hx).trans hn.le

/-- A reanalysis changes nothing but the heap and the counter. -/
theorem reanalyzeList_eq (s : MessageBuffer) (t : Nat) (lt : List Message) :
    ∃ heap, heap.Perm (retimed t s.msgCounter lt ++ s.prioHeap) ∧
      s.reanalyzeList t lt = { s with prioHeap := heap, msgCounter := s.msgCounter + lt.length } ∧
      (Heap s → Heap (s.reanalyzeList t lt)) := by
  induction lt generalizing s with
  | nil => exact ⟨s.prioHeap, .refl _, rfl, id⟩
  | cons m lt ih =>
    obtain ⟨heap, hperm, heq, hheap⟩ := ih ({ s with msgCounter := s.msgCounter + 1 }.pushHeap
      { m with lastEnqueueTime := t, msgCounter := s.msgCounter + 1 })
    refine ⟨heap, ?_, ?_, fun h => hheap (h.push rfl (Nat.lt_succ_self _))⟩
    · exact hperm.trans ((pushHeap_perm.append_left _).trans perm_middle)
    · rw [reanalyzeList, heq]
      simp only [pushHeap, length_cons, Nat.add_assoc, Nat.add_comm 1]

/-! ## The size of a buffer -/

/-- In a cycle in which messages were popped, a reanalysis puts back no more than fits into the size
that is seen. -/
def fits (s : MessageBuffer) : BufferOp → Bool
  | .reanalyzeMessages addr t =>
    s.timeLastTimePop < t ||
      s.prioHeap.length + s.stallMap.countP (·.1 == addr) ≤ s.currentSize t
  | .reanalyzeAllMessages t =>
    s.timeLastTimePop < t || s.prioHeap.length + s.stallMap.length ≤ s.currentSize t
  | _ => true

structure Bounded (s : MessageBuffer) : Prop where
  finite : 0 < s.maxSize
  stall : s.stallMapSize = s.stallMap.length
  room : s.prioHeap.length + s.stallMap.length ≤ s.maxSize
  past : s.timeLastTimePop ≤ s.now ∧ s.timeLastTimeEnqueue ≤ s.now
  seen : s.prioHeap.length ≤ s.currentSize s.now

section
variable (h : Bounded s) (ht : s.now ≤ t)
include h ht

/-- Pops count from the next cycle on. -/
theorem Bounded.seen_at : s.prioHeap.length ≤ s.currentSize t := by
  obtain ⟨hpop, -⟩ := h.past
  rcases Nat.eq_or_lt_of_le ht with rfl | hlt
  · exact h.seen
  · rw [currentSize, if_pos (by omega)]

theorem Bounded.reanalyze {sel : Nat → Bool} {u : MessageBuffer} (hfits : s.timeLastTimePop < t ∨
      s.prioHeap.length + s.stallMap.countP (sel ·.1) ≤ s.currentSize t)
    (hu : s.reanalyze sel t = some u) : Bounded { u with now := t } := by
  unfold MessageBuffer.reanalyze at hu
  dsimp only at hu
  split at hu
  · cases hu
  cases hu
  have hsplit := (filter_append_perm (fun p : Nat × Message => sel p.1) s.stallMap).length_eq
  rw [length_append] at hsplit
  rw [countP_eq_length_filter] at hfits
  obtain ⟨heap, hperm, heq, -⟩ := reanalyzeList_eq { s with
    stallMapSize := s.stallMapSize - ((s.stallMap.filter (sel ·.1)).map (·.2)).length
    stallMap := s.stallMap.filter (!sel ·.1) } t ((s.stallMap.filter (sel ·.1)).map (·.2))
  have hheap := hperm.length_eq
  rw [length_append, length_retimed, length_map] at hheap
  rw [heq]
  obtain ⟨hfin, hstall, hroom, ⟨hpop, hsent⟩, -⟩ := h
  refine ⟨hfin, ?_, ?_, ⟨by dsimp only; omega, by dsimp only; omega⟩, ?_⟩
  · simp only [length_map]
    omega
  · dsimp only at hheap ⊢
    omega
  · simp only [currentSize] at hfits hheap ⊢
    grind

theorem Bounded.popped {u : MessageBuffer}
    (hu : s.dequeue t = some (m, u)) : Bounded { u with now := t } := by
  have hseen := h.seen_at ht
  obtain ⟨hfin, hstall, hroom, ⟨hpop, hsent⟩, -⟩ := h
  obtain ⟨rest, hrest, -, rfl⟩ := dequeue_cases hu
  have hlen : rest.length + 1 = s.prioHeap.length := by rw [hrest, length_cons]
  refine ⟨hfin, hstall, ?_, ⟨by dsimp only; omega, by dsimp only; omega⟩, ?_⟩
  · dsimp only
    omega
  · -- at the first pop of a cycle the size is the one before it
    simp only [currentSize] at hseen ⊢
    grind

theorem Bounded.enqueue {delta random : Nat} {u : MessageBuffer}
    (hask : s.areNSlotsAvailable 1 t = true) (hu : s.enqueue m t delta random = some u) :
    Bounded { u with now := t } := by
  simp only [MessageBuffer.enqueue] at hu
  split at hu
  · cases hu
  cases hu
  generalize { m with lastEnqueueTime := _, msgCounter := _, serial := _ } = m'
  have hseen := h.seen_at ht
  obtain ⟨hfin, hstall, -, ⟨hpop, hsent⟩, -⟩ := h
  have hask : s.currentSize t + s.stallMapSize + 1 ≤ s.maxSize := by
    simpa [areNSlotsAvailable, Nat.ne_of_gt hfin] using hask
  have hlast : max s.timeLastTimeEnqueue t = t := by omega
  refine ⟨hfin, hstall, ?_, ⟨Nat.le_trans hpop ht, Nat.le_of_eq hlast⟩, ?_⟩
  · have hlen := (pushHeap_perm (s := s) (m := m')).length_eq
    simp only [pushHeap, length_cons] at hlen ⊢
    omega
  · have hlen := (pushHeap_perm (s := s) (m := m')).length_eq
    simp only [currentSize, pushHeap, length_cons, hlast, Nat.lt_irrefl, if_false]
      at hlen hseen ⊢
    grind

end

theorem Bounded.step (h : Bounded s) (hfits : s.fits e = true)
    (hs : boundedBuffer.step s e = some s') : Bounded s' := by
  obtain ⟨hask, ht, u, hu, rfl⟩ := stepIf_cases hs
  cases e with
  | enqueue m t delta random => exact h.enqueue ht hask hu
  | dequeue t =>
    obtain ⟨⟨m, v⟩, hv, rfl⟩ := Option.map_eq_some_iff.mp hu
    have hb := h.popped ht hv
    exact { hb with }
  | stallMessage addr t =>
    obtain ⟨⟨m, v⟩, hv, rfl⟩ := Option.map_eq_some_iff.mp hu
    have hb := h.popped ht hv
    obtain ⟨rest, hrest, -, rfl⟩ := dequeue_cases hv
    have hsplit :=
      (filter_append_perm (fun p : Nat × Message => p.1 ≤ addr) s.stallMap).length_eq
    simp only [← decide_not, Nat.not_le, length_append] at hsplit
    obtain ⟨-, hstall, hroom, -, -⟩ := h
    rw [hrest, length_cons] at hroom
    refine ⟨hb.finite, ?_, ?_, hb.past, hb.seen⟩
    · simp only [length_append, length_cons]
      omega
    · simp only [length_append, length_cons]
      omega
  | reanalyzeMessages addr t =>
    simp only [handle, reanalyzeMessages] at hu
    split at hu
    · exact h.reanalyze (t := t) ht (by simpa [fits] using hfits) hu
    · cases hu
  | reanalyzeAllMessages t =>
    have hu : s.reanalyze (fun _ => true) t = some u := hu
    exact h.reanalyze (t := t) ht (by simpa [fits] using hfits) hu

end MessageBuffer

open MessageBuffer

/-- In every run in which a reanalysis after a pop of its cycle stays within the size that is
seen. -/
theorem bounded_buffer_fits {s : MessageBuffer}
    (h : boundedBuffer.ReachWhen (fun s e => s.fits e = true) s) :
    s.prioHeap.length + s.stallMap.length ≤ s.maxSize ∧ s.stallMapSize = s.stallMap.length := by
  have hb : Bounded s := by
    refine h.invariant (I := Bounded) (fun s hs => ?_) fun s e s' hi hfits hs => hi.step hfits hs
    obtain ⟨n, f, r, hn, rfl⟩ := hs
    exact ⟨hn, rfl, Nat.zero_le _, ⟨Nat.le_refl 0, Nat.le_refl 0⟩, Nat.le_refl 0⟩
  exact ⟨hb.room, hb.stall⟩

def sendAt (t : Nat) : BufferOp := .enqueue { line := 0 } t 1 0

def threeSlots : MessageBuffer := { maxSize := 3, strictFifo := false, randomization := false }

def stallAndResume : List BufferOp :=
  [sendAt 1, sendAt 1, .stallMessage 0 2, .reanalyzeMessages 0 3, .dequeue 3]

def afterResume : MessageBuffer := (boundedBuffer.run threeSlots stallAndResume).getD threeSlots

theorem bounded_buffer_resumes :
    afterResume.prioHeap.length + afterResume.stallMap.length ≤ afterResume.maxSize ∧
      afterResume.stallMapSize = afterResume.stallMap.length :=
  bounded_buffer_fits (.run (.start ⟨3, false, false, by decide, rfl⟩) stallAndResume
    (by decide +kernel) (Machine.run_getD (by decide +kernel)))

/-- A pop, the reanalysis of the two stalled messages, and two more messages, all at time 3. -/
def resumeAfterPop : List BufferOp :=
  [sendAt 1, sendAt 1, sendAt 1, .stallMessage 0 2, .stallMessage 0 2, .dequeue 3,
    .reanalyzeMessages 0 3, sendAt 3, sendAt 3]

def afterPop : MessageBuffer := (boundedBuffer.run threeSlots resumeAfterPop).getD threeSlots

theorem bounded_buffer_overflows :
    boundedBuffer.Reach afterPop ∧ afterPop.maxSize = 3 ∧ afterPop.prioHeap.length = 4 :=
  ⟨Machine.reach_run ⟨3, false, false, by decide, rfl⟩ (Machine.run_getD (by decide +kernel)),
    by decide +kernel, by decide +kernel⟩

end SdoCore.Ruby
