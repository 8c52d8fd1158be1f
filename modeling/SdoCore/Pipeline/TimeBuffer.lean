import Mathlib.Data.List.GetD
import Mathlib.Logic.Function.Basic

/-! The time buffers between the stages of the pipeline (`cpu/timebuf.hh`): a circular buffer with a
slot for each cycle from `past` cycles ago to `future` cycles ahead. A wire is a distance from the
current cycle: a stage writes through wire 0 and reads through wire `-delay`.

* `cycles_line`: what is read is what was written `delay` cycles ago, so that between two stages
  the buffer is a line as long as the delay -/

namespace SdoCore

open List
open Function (update update_self update_of_ne)

/-- `default` is what the constructor of `T` makes of cleared memory. -/
structure TimeBuffer (T : Type) where
  (past future : Nat)
  index : Nat → T
  base : Nat := 0

namespace TimeBuffer

variable {T : Type} {b : TimeBuffer T} {idx : Int} {i : Nat}

def size (b : TimeBuffer T) : Nat := b.past + b.future + 1

/-- `none` is the failed assertion of `valid`. -/
def calculateVectorIndex (b : TimeBuffer T) (idx : Int) : Option Nat :=
  if -b.past ≤ idx ∧ idx ≤ b.future then
    let i := idx + b.base
    some (if b.size ≤ i then i - b.size else if i < 0 then i + b.size else i).toNat
  else none

def access (b : TimeBuffer T) (idx : Int) : Option T := (b.calculateVectorIndex idx).map b.index

/-- A stage has written through the wire. -/
def write (b : TimeBuffer T) (idx : Int) (v : T) : Option (TimeBuffer T) :=
  (b.calculateVectorIndex idx).map fun i => { b with index := update b.index i v }

def advance [Inhabited T] (b : TimeBuffer T) : TimeBuffer T :=
  let base := if b.size ≤ b.base + 1 then 0 else b.base + 1
  let ptr := if b.size ≤ base + b.future then base + b.future - b.size else base + b.future
  { b with base := base, index := update b.index ptr default }

/-- One cycle after the other, with what stands at wire 0 at the end of each. -/
def cycles [Inhabited T] (b : TimeBuffer T) : List T → Option (TimeBuffer T)
  | [] => some b
  | v :: vs => (b.write 0 v).bind fun b => b.advance.cycles vs

theorem calculateVectorIndex_iff (hb : b.base < b.size) : b.calculateVectorIndex idx = some i ↔
    -b.past ≤ idx ∧ idx ≤ b.future ∧ i < b.size ∧ ((i : Int) = idx + b.base ∨
      (i : Int) = idx + b.base - b.size ∨ (i : Int) = idx + b.base + b.size) := by
  simp only [calculateVectorIndex, size] at *
  grind

/-- What goes over the line falls out of it in the order it went in. -/
theorem foldl_line {line : List T} (hl : line ≠ []) (vs : List T) :
    vs.foldl (fun line v => line.tail ++ [v]) line = (line ++ vs).drop vs.length := by
  induction vs generalizing line with
  | nil => simp
  | cons v vs ih =>
    obtain ⟨x, xs, rfl⟩ := exists_cons_of_ne_nil hl
    rw [foldl_cons, ih (by simp)]
    simp

variable [Inhabited T]

theorem advance_cases (hb : b.base < b.size) : ∃ base ptr,
    b.advance = { b with base := base, index := update b.index ptr default } ∧
      base < b.size ∧ (base = b.base + 1 ∨ b.base + 1 = b.size ∧ base = 0) ∧
      ptr < b.size ∧ (ptr = base + b.future ∨ ptr + b.size = base + b.future) := by
  refine ⟨_, _, rfl, ?_⟩
  simp only [size] at *
  grind

/-- What was written in the cycles `vs`, the last one first, and nothing from now on. -/
def Shows (b : TimeBuffer T) (vs : List T) : Prop :=
  b.base < b.size ∧ ∀ idx i, b.calculateVectorIndex idx = some i →
    b.index i = if idx < 0 then vs.getD (-idx - 1).toNat default else default

theorem Shows.cycle {vs : List T} (h : Shows b vs) (v : T) :
    ∃ b', b.write 0 v = some b' ∧ b'.past = b.past ∧ b'.future = b.future ∧
      Shows b'.advance (v :: vs) := by
  obtain ⟨hb, hidx⟩ := h
  have h0 : b.calculateVectorIndex 0 = some b.base := by
    rw [calculateVectorIndex_iff hb]
    omega
  refine ⟨{ b with index := update b.index b.base v }, by rw [write, h0]; rfl, rfl, rfl, ?_⟩
  obtain ⟨base, ptr, hadv, hlt, hbase, hptr, hslot⟩ :=
    advance_cases (b := { b with index := update b.index b.base v }) hb
  rw [hadv]
  refine ⟨hlt, fun idx i hi => ?_⟩
  rw [calculateVectorIndex_iff (by exact hlt)] at hi
  simp only [size] at *
  by_cases hf : idx = b.future
  · -- the slot that comes in has been cleared
    have : i = ptr := by omega
    rw [this, update_self, if_neg (by omega)]
  -- every other wire was one cycle nearer
  have hi' : b.calculateVectorIndex (idx + 1) = some i := by
    rw [calculateVectorIndex_iff hb]
    simp only [size]
    omega
  rw [update_of_ne (by omega)]
  by_cases hz : idx = -1
  · have : i = b.base := by omega
    simp [this, hz]
  rw [update_of_ne (by omega), hidx _ _ hi']
  by_cases hneg : idx < 0
  · rw [if_pos (by omega), if_pos hneg,
      show (-idx - 1).toNat = (-(idx + 1) - 1).toNat + 1 by omega, getD_cons_succ]
  · rw [if_neg (by omega), if_neg hneg]

theorem Shows.cycles {ws : List T} (h : Shows b ws) (vs : List T) : ∃ b', b.cycles vs = some b' ∧
    b'.past = b.past ∧ b'.future = b.future ∧ Shows b' (vs.reverse ++ ws) := by
  induction vs generalizing b ws with
  | nil => exact ⟨b, rfl, rfl, rfl, h⟩
  | cons v vs ih =>
    obtain ⟨b₁, hw, hp, hf, h₁⟩ := h.cycle v
    obtain ⟨b', hb', hp', hf', h'⟩ := ih h₁
    refine ⟨b', ?_, hp'.trans hp, hf'.trans hf, by simpa using h'⟩
    rw [TimeBuffer.cycles, hw, Option.bind_some, hb']

/-- Between a stage that writes through wire 0 and one that reads through wire `-delay` the buffer
is a line: in every run the wires up to `-1` hold what has been written and not been read. Wire 0 is
empty at the start of a cycle. -/
theorem cycles_line (past future : Nat) (vs : List T) :
    ∃ b, TimeBuffer.cycles { past, future, index := fun _ => default } vs = some b ∧
      b.access 0 = some default ∧ ∀ delay : Nat, 0 < delay → delay ≤ past →
        (List.range delay).map (fun k : Nat => b.access (k - delay)) =
          (vs.foldl (fun line v => line.tail ++ [v]) (List.replicate delay default)).map some := by
  have hstart : Shows { past, future, index := fun _ => default } ([] : List T) :=
    ⟨Nat.succ_pos _, by simp⟩
  obtain ⟨b, hb, hp, hf, -, hidx⟩ := hstart.cycles vs
  have hacc (idx : Int) (h1 : -past ≤ idx) (h2 : idx ≤ future) : b.access idx =
      some (if idx < 0 then vs.reverse.getD (-idx - 1).toNat default else default) := by
    have hi := hidx idx
    simp only [access, calculateVectorIndex, hp, hf, h1, h2, and_self, if_true] at hi ⊢
    rw [Option.map_some, hi _ rfl, append_nil]
  refine ⟨b, hb, hacc 0 (by omega) (by omega), fun delay h0 hle => ?_⟩
  rw [foldl_line (by simp; omega)]
  refine ext_getElem (by simp) fun k hk hk' => ?_
  simp only [length_map, length_range] at hk
  rw [getElem_map, getElem_range, hacc _ (by omega) (by omega), if_pos (by omega)]
  simp only [getElem_map, getElem_drop, getElem_append, getElem_replicate,
    length_replicate]
  split
  · next h => rw [getD_eq_default _ _ (by simp; omega)]
  · next h =>
    rw [getD_eq_getElem _ _ (by simp; omega), getElem_reverse]
    congr 2
    omega

end TimeBuffer

end SdoCore
