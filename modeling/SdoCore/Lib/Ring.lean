import Mathlib.Data.List.Basic
import Mathlib.Logic.Function.Basic
import Mathlib.Order.Nat

/-! A queue in a circular buffer: indices are advanced and wrapped one at a time, and a counter is
kept beside them. One slot stays free, so that head and tail agree only if the queue is empty.

`Holds r l` says that the buffer holds the list `l` from its head to its tail; every operation of
the buffer is a lemma about that list, and so is every loop over its indices. -/

namespace SdoCore.Lib

open Function (update_of_ne update_self)
open List

universe u

structure Ring (α : Type u) where
  size : Nat
  slot : Nat → α
  head : Nat := 0
  tail : Nat := 0
  count : Int := 0

namespace Ring

variable {α : Type u}

def next (r : Ring α) (i : Nat) : Nat := if r.size ≤ i + 1 then 0 else i + 1

def prev (r : Ring α) (i : Nat) : Nat := if i = 0 then r.size - 1 else i - 1

/-- How far behind the head a slot is. -/
def distance (r : Ring α) (i : Nat) : Nat := if r.head ≤ i then i - r.head else i + r.size - r.head

/-- The slot `k` behind the head. -/
def index (r : Ring α) (k : Nat) : Nat :=
  if r.head + k < r.size then r.head + k else r.head + k - r.size

def push (r : Ring α) (x : α) : Ring α :=
  { r with slot := Function.update r.slot r.tail x, tail := r.next r.tail, count := r.count + 1 }

def popHead (r : Ring α) : Ring α := { r with head := r.next r.head, count := r.count - 1 }

def popTail (r : Ring α) : Ring α := { r with tail := r.prev r.tail, count := r.count - 1 }

def modify (r : Ring α) (i : Nat) (f : α → α) : Ring α :=
  { r with slot := Function.update r.slot i (f (r.slot i)) }

/-- The indices from `i` up to the tail, as a loop that stops there visits them. -/
def indices (r : Ring α) : Nat → Nat → List Nat
  | 0, _ => []
  | n + 1, i => if i = r.tail then [] else i :: r.indices n (r.next i)

/-- The indices from `i` (not included) down to `stop` (included). -/
def indicesDown (r : Ring α) (stop : Nat) : Nat → Nat → List Nat
  | 0, _ => []
  | n + 1, i => if i = stop then [] else r.prev i :: r.indicesDown stop n (r.prev i)

structure Holds (r : Ring α) (l : List α) : Prop where
  head : r.head < r.size
  room : l.length < r.size
  tail : r.tail = r.index l.length
  count : r.count = l.length
  slot : ∀ k (h : k < l.length), r.slot (r.index k) = l[k]

/-! ## Indices -/

variable {r : Ring α} {l : List α} {k j : Nat} {x y : α}

@[simp] theorem index_zero (h : r.head < r.size) : r.index 0 = r.head := by
  simp [index, h]

theorem index_lt (h : r.head < r.size) (hk : k < r.size) : r.index k < r.size := by
  unfold index
  split <;> omega

theorem index_injective (hk : k < r.size) (hj : j < r.size) (h : r.index k = r.index j) :
    k = j := by
  unfold index at h
  split at h <;> split at h <;> omega

theorem next_index (hk : k < r.size) (h : r.head < r.size) :
    r.next (r.index k) = r.index (k + 1) := by
  unfold next index
  split <;> split <;> split <;> omega

theorem prev_index (hk : k < r.size) (h : r.head < r.size) :
    r.prev (r.index (k + 1)) = r.index k := by
  unfold prev index
  split <;> split <;> split <;> omega

theorem index_popHead (h : r.head < r.size) (hk : k + 1 < r.size) :
    r.popHead.index k = r.index (k + 1) := by
  show (if r.next r.head + k < r.size then r.next r.head + k else r.next r.head + k - r.size) = _
  unfold next index
  split <;> split <;> split <;> omega

theorem distance_index (h : r.head < r.size) (hk : k < r.size) : r.distance (r.index k) = k := by
  unfold distance index
  split <;> split <;> omega

theorem index_distance (h : r.head < r.size) {i : Nat} (hi : i < r.size) :
    r.index (r.distance i) = i ∧ r.distance i < r.size := by
  unfold distance index
  split <;> split <;> omega

theorem modify_slot_self (r : Ring α) (i : Nat) (f : α → α) :
    (r.modify i f).slot i = f (r.slot i) :=
  update_self ..

theorem modify_slot_of_ne {i : Nat} (h : j ≠ i) (f : α → α) : (r.modify i f).slot j = r.slot j :=
  update_of_ne h _ _

/-! ## Operations -/

namespace Holds

section
variable (h : r.Holds l)
include h

theorem index_ne (hk : k ≤ l.length) (hj : j ≤ l.length) (hne : k ≠ j) : r.index k ≠ r.index j :=
  fun he => hne (index_injective (hk.trans_lt h.room) (hj.trans_lt h.room) he)

theorem index_eq_tail (hk : k ≤ l.length) : r.index k = r.tail ↔ k = l.length := by
  rw [h.tail]
  exact ⟨fun he => index_injective (hk.trans_lt h.room) h.room he, fun he => by rw [he]⟩

theorem distance_tail : r.distance r.tail = l.length := by
  rw [h.tail, distance_index h.head h.room]

/-- What the buffer holds is determined. -/
theorem unique {l' : List α} (h' : r.Holds l') : l' = l := by
  have hlen : l'.length = l.length := by
    have := h.count
    have := h'.count
    omega
  refine ext_getElem hlen fun k hk hk' => ?_
  rw [← h.slot k hk', ← h'.slot k hk]

/-- Only what it holds matters. -/
theorem congr {r' : Ring α} (hs : r'.size = r.size) (hh : r'.head = r.head)
    (ht : r'.tail = r.tail) (hc : r'.count = r.count)
    (hslot : ∀ k < l.length, r'.slot (r.index k) = r.slot (r.index k)) : r'.Holds l := by
  have hidx (k : Nat) : r'.index k = r.index k := by rw [index, index, hs, hh]
  refine ⟨by rw [hs, hh]; exact h.head, by rw [hs]; exact h.room, by rw [ht, hidx]; exact h.tail,
    by rw [hc]; exact h.count, fun k hk => ?_⟩
  rw [hidx, hslot k hk, h.slot k hk]

theorem push (hroom : l.length + 1 < r.size) (x : α) : (r.push x).Holds (l ++ [x]) := by
  have hidx (k : Nat) : (r.push x).index k = r.index k := rfl
  refine ⟨h.head, by rw [length_append]; exact hroom, ?_, ?_, fun k hk => ?_⟩
  · show r.next r.tail = _
    rw [hidx, h.tail, next_index h.room h.head, length_append, length_singleton]
  · show r.count + 1 = _
    simp [h.count]
  rw [hidx]
  rw [length_append, length_singleton] at hk
  by_cases hkl : k = l.length
  · subst hkl
    rw [getElem_concat_length rfl, ← h.tail]
    exact update_self ..
  · have hlt : k < l.length := by omega
    rw [getElem_append_left hlt, ← h.slot k hlt]
    refine update_of_ne ?_ _ _
    rw [h.tail]
    exact h.index_ne hlt.le le_rfl hkl

end

theorem popHead (h : r.Holds (x :: l)) : r.popHead.Holds l := by
  have hroom : l.length + 1 < r.size := by simpa using h.room
  have hidx (k : Nat) (hk : k ≤ l.length) : r.popHead.index k = r.index (k + 1) :=
    index_popHead h.head (by omega)
  refine ⟨?_, by show l.length < r.size; omega, ?_, ?_, fun k hk => ?_⟩
  · show r.next r.head < r.size
    unfold next
    split <;> omega
  · show r.tail = _
    rw [hidx _ le_rfl, h.tail, length_cons]
  · show r.count - 1 = _
    rw [h.count, length_cons]
    omega
  · rw [hidx k hk.le]
    exact h.slot (k + 1) (by simpa using hk)

section
variable (h : r.Holds (l ++ [x]))
include h

theorem popTail : r.popTail.Holds l := by
  have hroom : l.length + 1 < r.size := by simpa using h.room
  have hidx (k : Nat) : r.popTail.index k = r.index k := rfl
  refine ⟨h.head, by show l.length < r.size; omega, ?_, ?_, fun k hk => ?_⟩
  · show r.prev r.tail = _
    rw [h.tail, length_append, length_singleton, prev_index (by omega) h.head]
    rfl
  · show r.count - 1 = _
    rw [h.count, length_append, length_singleton]
    omega
  · rw [hidx]
    refine (h.slot k (by simp; omega)).trans ?_
    rw [getElem_append_left hk]

/-- Going back from the tail leads to the last slot. -/
theorem prev_tail : r.prev r.tail = r.index l.length := by
  have hroom : l.length + 1 < r.size := by simpa using h.room
  rw [h.tail, length_append, length_singleton, prev_index (by omega) h.head]

theorem slot_prev_tail : r.slot (r.prev r.tail) = x := by
  rw [h.prev_tail, h.slot l.length (by simp), getElem_concat_length rfl]

/-- What is taken out may be overwritten. -/
theorem modify_popTail (f : α → α) : (r.modify (r.prev r.tail) f).popTail.Holds l := by
  refine h.popTail.congr rfl rfl rfl rfl fun k hk => update_of_ne ?_ _ _
  rw [h.prev_tail]
  exact h.index_ne (by simp; omega) (by simp) (by omega)

end

theorem modify_popHead (h : r.Holds (x :: l)) (f : α → α) :
    (r.modify r.head f).popHead.Holds l := by
  have hroom : l.length + 1 < r.size := by simpa using h.room
  refine h.popHead.congr rfl rfl rfl rfl fun k hk => update_of_ne ?_ _ _
  rw [index_popHead h.head (by omega), ← index_zero h.head]
  exact h.index_ne (by simp; omega) (by simp) (by omega)

theorem modify (h : r.Holds l) (hk : k < l.length) (f : α → α) :
    (r.modify (r.index k) f).Holds (l.modify k f) := by
  have hidx (j : Nat) : (r.modify (r.index k) f).index j = r.index j := rfl
  refine ⟨h.head, by rw [length_modify]; exact h.room, by rw [length_modify]; exact h.tail,
    by rw [length_modify]; exact h.count, fun j hj => ?_⟩
  rw [length_modify] at hj
  rw [hidx, getElem_modify]
  split
  · next he =>
    subst he
    rw [← h.slot k hj]
    exact update_self ..
  · next he =>
    rw [← h.slot j hj]
    exact update_of_ne (h.index_ne hj.le hk.le (Ne.symm he)) _ _

/-- A slot outside the queue may be overwritten. -/
theorem modify_outside (h : r.Holds l) {i : Nat} (hi : ∀ k < l.length, r.index k ≠ i) (f : α → α) :
    (r.modify i f).Holds l :=
  h.congr rfl rfl rfl rfl fun k hk => update_of_ne (hi k hk) _ _

/-! ## Loops -/

theorem indices_eq (h : r.Holds l) {n : Nat} (hk : k ≤ l.length) (hn : l.length - k ≤ n) :
    r.indices n (r.index k) = (List.range' k (l.length - k)).map r.index := by
  induction n generalizing k with
  | zero =>
    have hz : l.length - k = 0 := by omega
    simp [indices, hz]
  | succ n ih =>
    rw [indices]
    split
    · next ht =>
      have hkl := (h.index_eq_tail hk).mp ht
      simp [hkl]
    · next ht =>
      have hlt : k < l.length := by
        have := mt (h.index_eq_tail hk).mpr ht
        omega
      rw [next_index (hlt.trans h.room) h.head, ih hlt (by omega)]
      have hlen : l.length - k = (l.length - (k + 1)) + 1 := by omega
      rw [hlen, List.range'_succ, map_cons]

theorem indicesDown_eq (h : r.Holds l) {n : Nat} (hjk : j ≤ k) (hk : k ≤ l.length)
    (hn : k - j ≤ n) :
    r.indicesDown (r.index j) n (r.index k) = (List.range' j (k - j)).reverse.map r.index := by
  induction n generalizing k with
  | zero =>
    have hz : k - j = 0 := by omega
    simp [indicesDown, hz]
  | succ n ih =>
    rw [indicesDown]
    split
    · next ht =>
      have hkj := index_injective (hk.trans_lt h.room) ((hjk.trans hk).trans_lt h.room) ht
      simp [hkj]
    · next ht =>
      obtain ⟨m, rfl⟩ : ∃ m, k = m + 1 := by
        refine ⟨k - 1, ?_⟩
        have hne : k ≠ j := fun he => ht (by rw [he])
        omega
      have hjm : j ≤ m := by
        have hne : m + 1 ≠ j := fun he => ht (by rw [he])
        omega
      rw [prev_index (by have := h.room; omega) h.head, ih hjm (by omega) (by omega)]
      have hlen : m + 1 - j = (m - j) + 1 := by omega
      rw [hlen, List.range'_concat, reverse_append, reverse_singleton, singleton_append,
        map_cons]
      congr 2
      omega

end Holds

end Ring

end SdoCore.Lib
