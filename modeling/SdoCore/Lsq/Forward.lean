import SdoCore.Lsq.Queues

/-! The two searches through the queues, on their own.

A load that executes looks at the older stores, the youngest first: `searchStores_nothing` and
`searchStores_full` say what it has seen when it goes to the cache and when it is forwarded. A store
that executes looks at the younger loads, the oldest first: `checkViolations_first` says that it
stops at the first load it must not be passed by. The comparisons are made in 64-bit arithmetic;
for accesses that end below the last byte they are comparisons of byte ranges (`limits_eq`,
`sameBlock_of_overlap`). -/

namespace SdoCore

open List
open Lib

/-- The search of `read` looks at the addresses of this store. -/
def SQEntry.searched (e : SQEntry) : Bool :=
  !(e.size = 0 || e.strictlyOrdered || e.req.any (·.cacheMaintenance))

theorem SQEntry.size_ne_zero {e : SQEntry} (h : e.searched) : e.size ≠ 0 := by
  intro hz
  simp [SQEntry.searched, hz] at h

/-- The byte the store has for an address. -/
def SQEntry.byte (e : SQEntry) (a : Nat) : UInt8 :=
  if e.isAllZeros then 0 else e.data.getD (a - e.effAddr) 0

/-- `checkViolations` looks at the address of this load. -/
def LqEntry.checked (l : LqEntry) : Bool := l.effAddrValid && !l.strictlyOrdered && !l.fenceDelay

namespace Lsq

/-- `n` bytes at `a` and `m` bytes at `b` have a byte in common. -/
def overlap (a n b m : Nat) : Bool := decide (a < b + m) && decide (b < a + n)

theorem overlap_iff {a n b m : Nat} : overlap a n b m ↔ a < b + m ∧ b < a + n := by
  rw [overlap, Bool.and_eq_true, decide_eq_true_eq, decide_eq_true_eq]

/-! ## Forwarding -/

section
variable {req : MemReq} {e : SQEntry} {slot : Nat → SQEntry} {is : List Nat}

theorem limits_eq (hl : req.vaddr + req.size < 2 ^ 64) (hs : e.effAddr + e.size < 2 ^ 64) :
    limits req e =
      { lower := e.effAddr ≤ req.vaddr
        upper := req.vaddr + req.size ≤ e.effAddr + e.size
        lowerPart := req.vaddr < e.effAddr + e.size
        upperPart := e.effAddr < req.vaddr + req.size } := by
  rw [limits, Nat.mod_eq_of_lt hl, Nat.mod_eq_of_lt hs]

/-- The store ends the search of the load. -/
def hits (req : MemReq) (e : SQEntry) : Bool :=
  ((limits req e).lower && (limits req e).upper && !req.llsc) || (limits req e).partly req.llsc

section
variable (hl : req.vaddr + req.size < 2 ^ 64) (hs : e.effAddr + e.size < 2 ^ 64)
include hl hs

theorem hits_of_overlap (ho : overlap e.effAddr e.size req.vaddr req.size) : hits req e := by
  obtain ⟨h1, h2⟩ := overlap_iff.mp ho
  rw [hits, limits_eq hl hs]
  cases req.llsc <;> simp [Limits.partly, h1, h2]

/-- A store that a load gets all of its bytes from overlaps it. -/
theorem overlap_of_full
    (hpos : 0 < req.size) (hlow : (limits req e).lower) (hup : (limits req e).upper) :
    e.effAddr ≤ req.vaddr ∧ req.vaddr + req.size ≤ e.effAddr + e.size ∧
      overlap e.effAddr e.size req.vaddr req.size := by
  rw [limits_eq hl hs] at hlow hup
  have hlow : e.effAddr ≤ req.vaddr := of_decide_eq_true hlow
  have hup : req.vaddr + req.size ≤ e.effAddr + e.size := of_decide_eq_true hup
  exact ⟨hlow, hup, overlap_iff.mpr ⟨by omega, by omega⟩⟩

end

/-- The search goes on past a store it does not look at, or that does not hit. -/
theorem searchStores_cons {i : Nat} {r : StoreSearch} (h : searchStores req slot (i :: is) = some r)
    :
    ((slot i).searched → hits req (slot i) = false) ∧ searchStores req slot is = some r ∨
    (slot i).searched ∧ r = .overlap i ∨
    (slot i).searched ∧ (limits req (slot i)).lower ∧ (limits req (slot i)).upper ∧
      r = .full i (forwardData req (slot i)) := by
  simp only [searchStores] at h
  split at h
  · cases h
  split at h
  · next hskip =>
    left
    refine ⟨fun hs => ?_, h⟩
    rw [SQEntry.searched, hskip] at hs
    cases hs
  · next hskip =>
    have hs : (slot i).searched = true := by
      rw [SQEntry.searched, Bool.not_eq_true']
      exact Bool.eq_false_iff.mpr hskip
    split at h
    · cases h
    split at h
    · next hfull =>
      simp only [Bool.and_eq_true] at hfull
      cases h
      exact .inr (.inr ⟨hs, hfull.1.1, hfull.1.2, rfl⟩)
    · next hfull =>
      split at h
      · split at h
        · cases h
        · cases h
          exact .inr (.inl ⟨hs, rfl⟩)
      · next hpart =>
        refine .inl ⟨fun _ => ?_, h⟩
        rw [hits, Bool.eq_false_iff.mpr hfull, Bool.eq_false_iff.mpr hpart]
        rfl

/-- A load that goes to the cache is not hit by any of the stores it looks at. -/
theorem searchStores_nothing (h : searchStores req slot is = some .nothing) {i : Nat} (hi : i ∈ is)
    (hs : (slot i).searched) : hits req (slot i) = false := by
  induction is with
  | nil => cases hi
  | cons j is ih =>
    rcases searchStores_cons h with ⟨hj, h⟩ | ⟨-, hr⟩ | ⟨-, -, -, hr⟩
    · rcases mem_cons.mp hi with rfl | hi
      · exact hj hs
      · exact ih h hi
    · cases hr
    · cases hr

/-- A load is forwarded from the first store that hits. -/
theorem searchStores_full {i : Nat} {data : Bytes}
    (h : searchStores req slot is = some (.full i data)) :
    ∃ before after, is = before ++ i :: after ∧
      (∀ j ∈ before, (slot j).searched → hits req (slot j) = false) ∧
      (slot i).searched ∧ (limits req (slot i)).lower ∧ (limits req (slot i)).upper ∧
      data = forwardData req (slot i) := by
  induction is with
  | nil => cases h
  | cons j is ih =>
    rcases searchStores_cons h with ⟨hj, h⟩ | ⟨-, hr⟩ | ⟨hs, hl, hu, hr⟩
    · obtain ⟨before, after, rfl, hb, hrest⟩ := ih h
      refine ⟨j :: before, after, rfl, fun k hk => ?_, hrest⟩
      rcases mem_cons.mp hk with rfl | hk
      · exact hj
      · exact hb k hk
    · cases hr
    · cases hr
      exact ⟨[], is, rfl, by simp, hs, hl, hu, rfl⟩

/-- What is forwarded, byte by byte. -/
theorem forwardData_eq (hlow : e.effAddr ≤ req.vaddr)
    (hup : req.vaddr + req.size ≤ e.effAddr + e.size)
    (hdata : e.isAllZeros = false → e.size ≤ e.data.length) :
    forwardData req e = (List.range req.size).map fun b => e.byte (req.vaddr + b) := by
  rw [forwardData]
  split
  · next hz =>
    refine ext_getElem (by simp) fun b hb hb' => ?_
    simp [SQEntry.byte, hz]
  · next hz =>
    have hlen := hdata (Bool.eq_false_iff.mpr hz)
    refine ext_getElem (by simp; omega) fun b hb hb' => ?_
    have hb : b < req.size := by simpa using hb'
    have hidx : req.vaddr - e.effAddr + b < e.data.length := by omega
    have haddr : req.vaddr + b - e.effAddr = req.vaddr - e.effAddr + b := by omega
    simp [SQEntry.byte, hz, haddr, hidx]

end

/-! ## Violations -/

section
variable {c : QueueConfig} {s : Lsq} {addr size : Nat} {before : List Nat}

theorem sameBlock_of_overlap {shift a n b m : Nat} (ha : a + n < 2 ^ 64) (hb : b + m < 2 ^ 64)
    (hn : 0 < n) (hm : 0 < m) (ho : overlap a n b m) : sameBlock shift a n b m := by
  obtain ⟨h1, h2⟩ := overlap_iff.mp ho
  have hlast (x k : Nat) (hk : 0 < k) (hx : x + k < 2 ^ 64) : lastAddr x k = x + k - 1 := by
    rw [lastAddr]
    omega
  rw [sameBlock, hlast a n hn ha, hlast b m hm hb, Bool.and_eq_true, decide_eq_true_eq,
    decide_eq_true_eq]
  simp only [Nat.shiftRight_eq_div_pow]
  exact ⟨Nat.div_le_div_right (by omega), Nat.div_le_div_right (by omega)⟩

/-- A store that must not be passed by a load is stopped by it, or by a load before it. -/
theorem checkViolations_first {i : Nat} {l : LqEntry} (after : List Nat)
    (hv : s.memDepViolator = none)
    (hbefore : ∀ j ∈ before, (s.loadQueue.slot j).isSome) (hi : s.loadQueue.slot i = some l)
    (hl : l.checked) (hsame : sameBlock c.depCheckShift addr size l.effAddr l.effSize) :
    ∃ j ∈ before ++ [i], ∃ l', s.loadQueue.slot j = some l' ∧
      s.checkViolations c false addr size (before ++ i :: after) =
        some ({ s with memDepViolator := some l'.seqNum }, true) := by
  simp only [LqEntry.checked, Bool.and_eq_true, Bool.not_eq_true'] at hl
  obtain ⟨⟨hvalid, hso⟩, hfence⟩ := hl
  induction before with
  | nil =>
    refine ⟨i, by simp, l, hi, ?_⟩
    simp [checkViolations, hi, hvalid, hso, hfence, hsame, hv]
  | cons j before ih =>
    obtain ⟨l', hj⟩ := Option.isSome_iff_exists.mp (hbefore j mem_cons_self)
    obtain ⟨k, hk, l'', hslot, hrest⟩ := ih fun j' hj' => hbefore j' (mem_cons_of_mem j hj')
    by_cases hskip : (!l'.effAddrValid || l'.strictlyOrdered || l'.fenceDelay) = true
    · refine ⟨k, mem_cons_of_mem j hk, l'', hslot, ?_⟩
      simp only [cons_append, checkViolations, hj, Option.bind_some, hskip, if_true]
      exact hrest
    · by_cases hb : sameBlock c.depCheckShift addr size l'.effAddr l'.effSize = true
      · refine ⟨j, mem_cons_self, l', hj, ?_⟩
        simp only [cons_append, checkViolations, hj, Option.bind_some, hskip, hb, hv, if_true]
        rfl
      · refine ⟨k, mem_cons_of_mem j hk, l'', hslot, ?_⟩
        simp only [cons_append, checkViolations, hj, Option.bind_some, hskip, hb]
        exact hrest

end

end Lsq

end SdoCore
