import SdoCore.Lib.Machine
import SdoCore.Lib.Ring
import SdoCore.Lsq.Load
import SdoCore.Pred.LocPred

/-! Two functions of the LSQ unit that depend on how its queues are kept (`lsq_unit_impl.hh`): the
walk back through the load queue for the probe of a loop, and the resizing of the store queue.

Results:
* `findProbeLoad_youngest_iff`: the walk ends before it looks at the head of the queue, and finds
  the youngest probe exactly if that is not at the head.
* `resizeSQ_takes_effect`: the new size is reached if the queue only grows while all of its slots
  are in use. -/

namespace SdoCore

open Lib
open List

/-! ## The probe of a loop -/

/-- What `findProbeLoad` reads of a load. -/
structure PredictedLoad where
  pc : Nat
  predLevel : LocPred.CacheLevel
  chosenPredType : PredType
  lqIdx : Nat
  deriving DecidableEq

namespace PredictedLoad

/-- The condition of the loop in `findProbeLoad`. -/
def probedBy (l probe : PredictedLoad) : Bool :=
  l.pc == probe.pc && probe.predLevel != .L1 && probe.chosenPredType == .loop

/-- The loop of `findProbeLoad` from the slot `i` on. -/
def probeFrom (q : Lib.Ring PredictedLoad) (l : PredictedLoad) : Nat → Nat → Option PredictedLoad
  | 0, _ => none
  | n + 1, i =>
    if i = q.head then none
    else if l.probedBy (q.slot i) then some (q.slot i)
    else probeFrom q l n (q.prev i)

def findProbeLoad (q : Lib.Ring PredictedLoad) (l : PredictedLoad) : Option PredictedLoad :=
  l.probeFrom q q.size l.lqIdx

variable {q : Lib.Ring PredictedLoad} {loads : List PredictedLoad} {l : PredictedLoad} {k n : Nat}

/-- The loop looks at the loads up to the slot it starts from, the head left out. -/
theorem probeFrom_eq (h : q.Holds loads) (hk : k < loads.length) (hn : k < n) :
    l.probeFrom q n (q.index k) = ((loads.take (k + 1)).drop 1).reverse.find? l.probedBy := by
  induction n generalizing k with
  | zero => omega
  | succ n ih =>
    rw [probeFrom]
    cases k with
    | zero =>
      rw [Ring.index_zero h.head, if_pos rfl]
      simp
    | succ k =>
      have hne : q.index (k + 1) ≠ q.head := by
        rw [← Ring.index_zero h.head]
        exact h.index_ne hk.le (Nat.zero_le _) (Nat.succ_ne_zero k)
      have hroom := h.room
      rw [if_neg hne, Ring.prev_index (by omega) h.head, h.slot _ hk, ih (by omega) (by omega),
        ← take_append_getElem hk, drop_append_of_le_length (by simp; omega),
        reverse_concat, find?_cons]
      cases l.probedBy loads[k + 1] <;> rfl

/-- The load itself is no probe, so that the loop looks at the older loads but the head. -/
theorem findProbeLoad_eq (h : q.Holds loads) (hk : k < loads.length)
    (hidx : loads[k].lqIdx = q.index k) (hl : loads[k].predLevel = .L1) :
    findProbeLoad q loads[k] = ((loads.take k).drop 1).reverse.find? loads[k].probedBy := by
  have hself : loads[k].probedBy loads[k] = false := by simp [probedBy, hl]
  rw [findProbeLoad, hidx, probeFrom_eq h hk (hk.trans h.room)]
  cases k with
  | zero => simp
  | succ k =>
    rw [← take_append_getElem hk, drop_append_of_le_length (by simp; omega),
      reverse_concat, find?_cons, hself]

/-- The last element of a list that satisfies a test. -/
theorem find?_reverse_eq_some_iff {α : Type} {t : α → Bool} {xs : List α} {p : α} :
    xs.reverse.find? t = some p ↔
      ∃ older younger, xs = older ++ p :: younger ∧ t p = true ∧ ∀ m ∈ younger, t m = false := by
  rw [find?_eq_some_iff_append]
  constructor
  · rintro ⟨hp, as, bs, heq, has⟩
    refine ⟨bs.reverse, as.reverse, ?_, hp, fun m hm => ?_⟩
    · have := congrArg List.reverse heq
      simpa using this
    · simpa using has m (mem_reverse.mp hm)
  · rintro ⟨older, younger, heq, hp, hy⟩
    refine ⟨hp, younger.reverse, older.reverse, by simp [heq], fun m hm => ?_⟩
    simpa using hy m (mem_reverse.mp hm)

/-- **The probe.** For a load that is predicted to hit in the first level `findProbeLoad` returns
the youngest probe among the older loads, and null if there is none, exactly if the load at the
head is no probe or some load between them is one. -/
theorem findProbeLoad_youngest_iff (h : q.Holds loads) (hk : k < loads.length)
    (hidx : loads[k].lqIdx = q.index k) (hl : loads[k].predLevel = .L1) :
    ((∀ p, findProbeLoad q loads[k] = some p ↔
      ∃ older younger, loads.take k = older ++ p :: younger ∧ loads[k].probedBy p = true ∧
        ∀ m ∈ younger, loads[k].probedBy m = false) ∧
    (findProbeLoad q loads[k] = none ↔ ∀ m ∈ loads.take k, loads[k].probedBy m = false)) ↔
      loads[k].probedBy (q.slot q.head) = false ∨
        ∃ m ∈ (loads.take k).drop 1, loads[k].probedBy m = true := by
  have hself : loads[k].probedBy loads[k] = false := by simp [probedBy, hl]
  have hlen : 0 < loads.length := by omega
  have hslot : q.slot q.head = loads[0] := by
    rw [← Ring.index_zero h.head]
    exact h.slot 0 hlen
  have hfind := findProbeLoad_eq h hk hidx hl
  constructor
  · rintro ⟨-, hnull⟩
    by_contra hno
    rw [not_or, not_exists, Bool.not_eq_false] at hno
    obtain ⟨hhead, hbetween⟩ := hno
    -- nothing is found, though the head is a probe
    have hnone : findProbeLoad q loads[k] = none := by
      rw [hfind, find?_eq_none]
      intro m hm hp
      exact hbetween m ⟨mem_reverse.mp hm, hp⟩
    have hpos : 0 < k := by
      refine Nat.pos_of_ne_zero ?_
      rintro rfl
      rw [hslot, hself] at hhead
      cases hhead
    have hmem : loads[0] ∈ loads.take k :=
      mem_take_iff_getElem.mpr ⟨0, by omega, rfl⟩
    rw [hslot, hnull.mp hnone _ hmem] at hhead
    cases hhead
  · intro hC
    have heq : findProbeLoad q loads[k] = (loads.take k).reverse.find? loads[k].probedBy := by
      rw [hfind]
      cases k with
      | zero => simp
      | succ k =>
        have hhead : loads.take (k + 1) = loads[0] :: (loads.take (k + 1)).drop 1 := by
          cases loads with
          | nil => simp at hk
          | cons x xs => simp
        rw [hslot] at hC
        conv_rhs => rw [hhead, reverse_cons, find?_append]
        rcases hC with hC | ⟨m, hm, hp⟩
        · simp [hC]
        · have hsome := List.find?_isSome.mpr ⟨m, mem_reverse.mpr hm, hp⟩
          obtain ⟨a, ha⟩ := Option.isSome_iff_exists.mp hsome
          rw [ha, Option.some_or]
    rw [heq]
    refine ⟨fun p => find?_reverse_eq_some_iff, ?_⟩
    rw [find?_eq_none]
    simp

/-- Two loads and the load that looks for its probe, in a queue that wraps. -/
def wrappedLoads (second : Bool) : List PredictedLoad :=
  [⟨8, .L2, .loop, 2⟩, ⟨8, .DRAM, if second then .loop else .greedy, 3⟩, ⟨8, .L1, .loop, 0⟩]

def wrappedQueue (second : Bool) : Lib.Ring PredictedLoad :=
  { size := 4, head := 2, tail := 1, count := 3
    slot := fun i => (wrappedLoads second).getD ((i + 2) % 4) ⟨0, .L1, .noPred, i⟩ }

theorem wrappedQueue_holds (second : Bool) :
    (wrappedQueue second).Holds (wrappedLoads second) := by
  cases second <;> exact ⟨by decide, by decide, by decide, by decide, by decide⟩

/-- The probe between the one at the head and the load is found. -/
theorem findProbeLoad_youngest_wrapped :
    findProbeLoad (wrappedQueue true) ⟨8, .L1, .loop, 0⟩ = some ⟨8, .DRAM, .loop, 3⟩ := by
  have h := (findProbeLoad_youngest_iff (wrappedQueue_holds true) (by decide : 2 < 3) rfl rfl).mpr
    (.inr ⟨⟨8, .DRAM, .loop, 3⟩, by decide, rfl⟩)
  exact (h.1 _).mpr ⟨[⟨8, .L2, .loop, 2⟩], [], rfl, rfl, nofun⟩

/-- A probe at the head is not found. -/
theorem findProbeLoad_misses_head :
    (wrappedQueue false).Holds (wrappedLoads false) ∧
      probedBy ⟨8, .L1, .loop, 0⟩ ⟨8, .L2, .loop, 2⟩ = true ∧
      findProbeLoad (wrappedQueue false) ⟨8, .L1, .loop, 0⟩ = none :=
  ⟨wrappedQueue_holds _, by decide, by decide⟩

end PredictedLoad

/-! ## Resizing the store queue -/

/-- The vector of the store queue, and how many of its slots are in use. -/
structure SqBuffer (α : Type) where
  SQEntries : Nat
  storeQueue : List α
  deriving DecidableEq

namespace SqBuffer

variable {α : Type}

/-- The loop of `resizeSQ`. -/
def grow (dummy : α) (sizePlusSentinel : Nat) : Nat → SqBuffer α → SqBuffer α
  | 0, b => b
  | n + 1, b =>
    if sizePlusSentinel > b.storeQueue.length then
      grow dummy sizePlusSentinel n ⟨b.SQEntries + 1, b.storeQueue ++ [dummy]⟩
    else b

/-- `none`: the assertion at the end fails. -/
def resizeSQ (dummy : α) (b : SqBuffer α) (size : Nat) : Option (SqBuffer α) :=
  let sizePlusSentinel := size + 1
  let b :=
    if sizePlusSentinel > b.SQEntries then grow dummy sizePlusSentinel sizePlusSentinel b
    else { b with SQEntries := sizePlusSentinel }
  if b.SQEntries ≤ 256 then some b else none

/-- The queue grows only while all of its slots are in use. -/
def growsWhenFull (b : SqBuffer α) (size : Nat) : Bool :=
  size < b.SQEntries || b.SQEntries == b.storeQueue.length

variable (dummy : α) {b b' : SqBuffer α} {m n : Nat}

theorem grow_spec (h : m ≤ b.storeQueue.length + n) :
    (grow dummy m n b).SQEntries = b.SQEntries + (m - b.storeQueue.length) ∧
      (grow dummy m n b).storeQueue.length = max m b.storeQueue.length := by
  induction n generalizing b with
  | zero =>
    simp only [grow]
    omega
  | succ n ih =>
    rw [grow]
    split
    · next hm =>
      have := ih (b := ⟨b.SQEntries + 1, b.storeQueue ++ [dummy]⟩) (by simp; omega)
      simp only [length_append, length_singleton] at this
      omega
    · omega

/-- Only a queue that grows while some of its slots are out of use comes out too small. -/
theorem resizeSQ_spec (hb : b.SQEntries ≤ b.storeQueue.length) (hn : n < 256) :
    ∃ b', resizeSQ dummy b n = some b' ∧ b'.SQEntries ≤ b'.storeQueue.length ∧
      (b'.SQEntries = n + 1 ↔ b.growsWhenFull n) := by
  simp only [resizeSQ, growsWhenFull, Bool.or_eq_true, decide_eq_true_eq, beq_iff_eq]
  split
  · obtain ⟨h1, h2⟩ := grow_spec dummy (b := b) (m := n + 1) (n := n + 1) (by omega)
    exact ⟨_, if_pos (by omega), by omega, by omega⟩
  · exact ⟨_, if_pos hn, by simp only; omega, fun _ => .inl (by omega), fun _ => rfl⟩

/-- The unit as it is set up, and calls with sizes below 256. -/
def resizeMachine (dummy : α) : Machine (SqBuffer α) Nat where
  start b := b.SQEntries = b.storeQueue.length
  step b n := if n < 256 then resizeSQ dummy b n else none

/-- **Resizing.** Along every sequence of calls that grow the queue only while all of its slots are
in use, no assertion fails and the last size is the one that counts. -/
theorem resizeSQ_takes_effect (hb : b.SQEntries = b.storeQueue.length) {ns : List Nat}
    (hns : ∀ n ∈ ns, n < 256) (hC : (resizeMachine dummy).Meets (growsWhenFull · ·) b ns) :
    ∃ b', (resizeMachine dummy).run b ns = some b' ∧ b'.SQEntries ≤ b'.storeQueue.length ∧
      ∀ n, ns.getLast? = some n → b'.SQEntries = n + 1 := by
  have hle := hb.le
  clear hb
  induction ns generalizing b with
  | nil => exact ⟨b, rfl, hle, nofun⟩
  | cons n ns ih =>
    obtain ⟨hn, hns⟩ := forall_mem_cons.mp hns
    obtain ⟨c, hc, hcle, hfull⟩ := resizeSQ_spec dummy hle hn
    have hstep : (resizeMachine dummy).step b n = some c := (if_pos hn).trans hc
    obtain ⟨hg, hC⟩ := hC
    rw [hstep] at hC
    obtain ⟨b', hr, hle', hlast⟩ := ih hns hC hcle
    refine ⟨b', by rw [Machine.run, hstep]; exact hr, hle', fun m hm => ?_⟩
    cases ns with
    | nil =>
      cases hr
      cases hm
      exact hfull.mpr hg
    | cons x xs => exact hlast m (by simpa using hm)

/-- Grown past all slots, and shrunk twice. -/
theorem resizeSQ_takes_effect_grown :
    ∃ b', (resizeMachine ()).run ⟨4, [(), (), (), ()]⟩ [5, 3, 2] = some b' ∧
      b'.SQEntries ≤ b'.storeQueue.length ∧ ∀ n, [5, 3, 2].getLast? = some n →
        b'.SQEntries = n + 1 :=
  resizeSQ_takes_effect () rfl (by decide) (by decide)

/-- Shrunk to two stores and the sentinel, the queue does not grow to three again. -/
theorem resizeSQ_stays_small :
    (resizeMachine ()).run ⟨5, [(), (), (), (), ()]⟩ [2, 3] = some ⟨3, [(), (), (), (), ()]⟩ := by
  decide

end SqBuffer

end SdoCore
