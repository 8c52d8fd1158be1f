import Mathlib.Algebra.Ring.Nat
import Mathlib.Logic.Function.Basic
import SdoCore.Lib.Machine

/-! The x86 TLB, in system emulation and in full-system mode. The trie that finds an entry is taken
by what it is for: the shortest prefix of the address that is in it. What the page table holds for
an address (`pte`, after `fixupStackFault`; `walk`, what the page walker comes back with) comes with
the access.

Results:
* `observe_eq_of_like`: what later accesses hit, miss and evict depends on the pages held and on the
  order of their last use only.
* `spec_translate_untouched`: a speculative translation leaves those alone exactly if it does not
  get to the entries, hits the one used last, or misses without a fill by the walker. -/

namespace SdoCore.X86

open Lib
open List

/-! ## Entries -/

structure Page where
  vaddr : Nat
  paddr : Nat := 0
  logBytes : Nat := 12
  writable : Bool := true
  user : Bool := true
  uncacheable : Bool := false
  «global» : Bool := false
  deriving DecidableEq

/-- The prefix of the address that the trie is given for the page. -/
def Page.covers (p : Page) (va : Nat) : Bool := va / 2 ^ p.logBytes == p.vaddr / 2 ^ p.logBytes

/-- `trieHandle`: the entry is in the trie. -/
structure TlbEntry extends Page where
  lruSeq : Nat := 0
  trieHandle : Bool := false
  deriving DecidableEq

structure TLB where
  size : Nat
  tlb : Nat → TlbEntry := fun _ => { vaddr := 0 }
  freeList : List Nat
  lruSeq : Nat := 0

namespace TLB

def page (s : TLB) (i : Nat) : Page := (s.tlb i).toPage

def cached (s : TLB) (i : Nat) : Bool := (s.tlb i).trieHandle

def seq (s : TLB) (i : Nat) : Nat := (s.tlb i).lruSeq

/-- `Trie::lookup` in the first `n` entries. -/
def trieFind (s : TLB) (va : Nat) : Nat → Option Nat
  | 0 => none
  | n + 1 =>
    match trieFind s va n with
    | some i =>
      if s.cached n && (s.page n).covers va &&
        decide ((s.page i).logBytes < (s.page n).logBytes) then
        some n
      else some i
    | none => if s.cached n && (s.page n).covers va then some n else none

def trieLookup (s : TLB) (va : Nat) : Option Nat := s.trieFind va s.size

/-- `lruSeq = nextSeq()`. -/
def touch (s : TLB) (i : Nat) : TLB :=
  { s with
    tlb := Function.update s.tlb i { s.tlb i with lruSeq := s.lruSeq + 1 }
    lruSeq := s.lruSeq + 1 }

def lookup (s : TLB) (va : Nat) : Option Nat × TLB :=
  match s.trieLookup va with
  | some i => (some i, s.touch i)
  | none => (none, s)

/-- The loop of `evictLRU` over the first `n` entries. -/
def lruIndex (s : TLB) : Nat → Nat
  | 0 => 0
  | n + 1 => if s.seq n < s.seq (s.lruIndex n) then n else s.lruIndex n

/-- The entry leaves the trie. -/
def drop (s : TLB) (i : Nat) : TLB :=
  { s with
    tlb := Function.update s.tlb i { s.tlb i with trieHandle := false }
    freeList := s.freeList ++ [i] }

def evictLRU (s : TLB) : Option TLB :=
  let lru := s.lruIndex s.size
  -- assert(tlb[lru].trieHandle)
  if s.cached lru then some (s.drop lru) else none

/-- What the free entry at the front of the list is made. -/
def fill (s : TLB) (i : Nat) (rest : List Nat) (p : Page) : TLB :=
  { s with
    tlb := Function.update s.tlb i { p with lruSeq := s.lruSeq + 1, trieHandle := true }
    freeList := rest
    lruSeq := s.lruSeq + 1 }

def insert (s : TLB) (vpn : Nat) (entry : Page) : Option (Nat × TLB) :=
  match s.trieLookup vpn with
  | some i =>
    -- assert(newEntry->vaddr == vpn)
    if (s.page i).vaddr = vpn then some (i, s) else none
  | none =>
    (if s.freeList.isEmpty then s.evictLRU else some s).bind fun s =>
      match s.freeList with
      | [] => none
      | i :: rest => some (i, s.fill i rest { entry with vaddr := vpn })

def flushAll (s : TLB) : TLB :=
  (range s.size).foldl (fun s i => if s.cached i then s.drop i else s) s

def flushNonGlobal (s : TLB) : TLB :=
  (range s.size).foldl (fun s i => if s.cached i && !(s.page i).global then s.drop i else s) s

def demapPage (s : TLB) (va : Nat) : TLB :=
  match s.trieLookup va with
  | some i => s.drop i
  | none => s

end TLB

/-! ## Translation -/

inductive Mode
  | read | write | execute
  deriving DecidableEq

/-- The segments that `translate` tells apart. -/
inductive Segment
  | data (selector : Nat) | system (selector : Nat) | hs | ls | tsg | idtr | ms
  deriving DecidableEq

structure SegAttr where
  writable : Bool := true
  readable : Bool := true
  expandDown : Bool := false
  deriving DecidableEq

/-- What `translate` reads of the thread. -/
structure Regs where
  (prot longMode sixtyFourBitMode paging : Bool := true)
  cpl : Nat := 3
  altAddr : Nat := 2
  defAddr : Nat := 3
  attr : SegAttr := {}
  base : Nat := 0
  limit : Nat := 0
  wp : Bool := true
  deriving DecidableEq

structure Pte where
  paddr : Nat
  uncacheable : Bool := false
  readOnly : Bool := false
  deriving DecidableEq

structure Access where
  vaddr : Nat
  bytes : Nat := 8
  seg : Segment := .data 1
  (storeCheck addrSize cpl0 spec proceedOnSpecTLBMiss : Bool := false)
  mode : Mode := .read
  regs : Regs := {}
  pte : Option Pte := none
  walk : Option Page := none
  deriving DecidableEq

inductive Fault
  | generalProtection
  | pageFault (vaddr : Nat) (present : Bool) (mode : Mode) (user : Bool)
  deriving DecidableEq

/-- The address spaces of registers and ports have translations of their own (`internal`). -/
inductive Outcome
  | internal
  | fault (f : Fault)
  | paddr (a : Nat) (uncacheable : Bool)
  deriving DecidableEq

/-- `hit`: whether the entry was there, if one was looked for; `evicted`: the page that went. -/
structure Result where
  outcome : Outcome
  hit : Option Bool := none
  evicted : Option Nat := none
  deriving DecidableEq

namespace Access

/-- The checks of a segment outside long mode. -/
def segmentFault (a : Access) : Bool :=
  if a.regs.longMode then false
  else
    let writes := a.mode == .write || a.storeCheck
    let denied := match a.seg with
      | .data selector => selector == 0 || (!a.regs.attr.writable && writes) ||
        (!a.regs.attr.readable && a.mode == .read)
      | .hs => (!a.regs.attr.writable && writes) || (!a.regs.attr.readable && a.mode == .read)
      | .system selector => selector == 0
      | _ => false
    let expandDown := match a.seg with
      | .data _ | .hs => a.regs.attr.expandDown
      | _ => false
    let bits := 2 ^ (if a.addrSize then a.regs.altAddr else a.regs.defAddr) * 8
    let offset := (a.vaddr + 2 ^ 64 - a.regs.base) % 2 ^ bits
    let endOffset := offset + a.bytes - 1
    denied ||
      if expandDown then decide (offset ≤ a.regs.limit) || decide (endOffset ≤ a.regs.limit)
      else decide (a.regs.limit < offset) || decide (a.regs.limit < endOffset)

/-- The address that is looked up. -/
def linear (a : Access) : Nat :=
  if !a.regs.sixtyFourBitMode || a.addrSize then a.vaddr % 2 ^ 32 else a.vaddr

/-- `translate` gets to the entries. -/
def paged (a : Access) : Bool :=
  a.seg != .ms && a.regs.prot && !a.segmentFault && a.regs.paging

/-- What is returned without looking at the entries. -/
def unpaged (a : Access) : Outcome :=
  if a.seg = .ms then .internal
  else if !a.regs.prot then .paddr a.vaddr false
  else if a.segmentFault then .fault .generalProtection
  else .paddr a.linear false

def inUser (a : Access) : Bool := a.regs.cpl == 3 && !a.cpl0

def badWrite (a : Access) (p : Page) : Bool := !p.writable && (a.inUser || a.regs.wp)

def physical (a : Access) (p : Page) : Outcome :=
  .paddr (p.paddr ||| a.linear % 2 ^ p.logBytes) p.uncacheable

/-- The paging protection checks. -/
def checked (a : Access) (p : Page) : Outcome :=
  if (a.inUser && !p.user) || (a.mode == .write && a.badWrite p) then
    .fault (.pageFault a.linear true a.mode a.inUser)
  else if a.storeCheck && a.badWrite p then .fault (.pageFault a.linear true .write a.inUser)
  else a.physical p

/-- The entry for a page of the process. -/
def mapped (a : Access) (pte : Pte) : Page where
  vaddr := a.linear / 2 ^ 12 * 2 ^ 12
  paddr := pte.paddr
  writable := !pte.readOnly
  uncacheable := pte.uncacheable

end Access

namespace TLB

def evicted (s : TLB) : Option Nat :=
  if s.freeList.isEmpty then some (s.page (s.lruIndex s.size)).vaddr else none

/-- A miss in full-system mode: the walker fills the TLB, and the entry is looked up again, here or,
with timing, by the walker's own call of `translate` at the end of the walk. The request of a
speculative access goes without checks; the `delete` that follows, of an entry of the TLB itself, is
not modelled. -/
def walked (s : TLB) (a : Access) : Option (TLB × Result) :=
  match a.walk with
  | none =>
    some (s, ⟨.fault (.pageFault a.linear false a.mode (a.regs.cpl == 3)), some false, none⟩)
  | some entry => (s.insert entry.vaddr entry).bind fun r =>
    match r.2.lookup a.linear with
    | (some i, t) =>
      some (t, ⟨if a.spec then a.physical (t.page i)
        else a.checked (t.page i), some false, s.evicted⟩)
    -- assert(entry)
    | (none, _) => none

/-- A miss in system emulation: the page table of the process has the page. -/
def emulated (s : TLB) (a : Access) : Option (TLB × Result) :=
  match a.pte with
  | none => some (s, ⟨.fault (.pageFault a.linear true a.mode true), some false, none⟩)
  | some pte =>
    if a.spec then
      -- the entry is made for this translation only
      some (s, ⟨a.physical (a.mapped pte), some false, none⟩)
    else (s.insert (a.mapped pte).vaddr (a.mapped pte)).map fun r =>
      (r.2, ⟨a.checked (r.2.page r.1), some false, s.evicted⟩)

def translate (fullSystem : Bool) (s : TLB) (a : Access) : Option (TLB × Result) :=
  if a.paged then
    match s.lookup a.linear with
    | (some i, t) => some (t, ⟨a.checked (t.page i), some true, none⟩)
    | (none, t) =>
      if a.spec && !a.proceedOnSpecTLBMiss then
        some (t, ⟨.fault .generalProtection, some false, none⟩)
      else if fullSystem then t.walked a
      else t.emulated a
  else some (s, ⟨a.unpaged, none, none⟩)

/-- The hits, misses and evictions of a sequence of accesses, up to one that stops the simulator. -/
def observe (fullSystem : Bool) (s : TLB) : List Access → List (Option (Option Bool × Option Nat))
  | [] => []
  | a :: as =>
    match s.translate fullSystem a with
    | none => [none]
    | some (t, r) => some (r.hit, r.evicted) :: observe fullSystem t as

end TLB

inductive TlbEvent
  | translate (a : Access)
  | flushAll
  | flushNonGlobal
  | demapPage (va : Nat)

/-- The TLB of a machine, filled and flushed in any way. -/
def tlbMachine (fullSystem : Bool) : Machine TLB TlbEvent where
  start s := ∃ n, 0 < n ∧ s = { size := n, freeList := range n }
  step s
    | .translate a => (s.translate fullSystem a).map (·.1)
    | .flushAll => some s.flushAll
    | .flushNonGlobal => some s.flushNonGlobal
    | .demapPage va => some (s.demapPage va)

namespace TLB

variable {s t : TLB} {i j va : Nat}

/-! ## Lookups -/

variable {n : Nat} {a : Access} {r : Result} {fullSystem : Bool}

theorem trieFind_some (h : s.trieFind va n = some i) :
    i < n ∧ s.cached i ∧ (s.page i).covers va := by
  induction n generalizing i with
  | zero => cases h
  | succ n ih =>
    rw [trieFind] at h
    split at h
    · next k hk =>
      obtain ⟨hlt, hc, hcov⟩ := ih hk
      split at h
      · next hn =>
        cases h
        simp only [Bool.and_eq_true] at hn
        exact ⟨Nat.lt_succ_self n, hn.1.1, hn.1.2⟩
      · cases h
        exact ⟨Nat.lt_succ_of_lt hlt, hc, hcov⟩
    · split at h
      · next hn =>
        cases h
        simp only [Bool.and_eq_true] at hn
        exact ⟨Nat.lt_succ_self n, hn.1, hn.2⟩
      · cases h

theorem trieFind_none (h : s.trieFind va n = none) (hi : i < n) (hc : s.cached i) :
    (s.page i).covers va = false := by
  induction n with
  | zero => omega
  | succ n ih =>
    rw [trieFind] at h
    split at h
    · split at h <;> cases h
    rename_i hn
    split at h
    · cases h
    rename_i hno
    rcases Nat.lt_succ_iff_lt_or_eq.mp hi with hlt | rfl
    · exact ih hn hlt
    · simpa [hc] using hno

theorem trieFind_congr (hp : ∀ i, t.page i = s.page i) (hc : ∀ i, t.cached i = s.cached i)
    (n : Nat) :
    t.trieFind va n = s.trieFind va n := by
  induction n with
  | zero => rfl
  | succ n ih => simp only [trieFind, ih, hp, hc]

/-! ## Touching, dropping and filling an entry -/

@[simp] theorem touch_page (i j : Nat) : (s.touch i).page j = s.page j := by
  by_cases h : j = i
  · subst h
    simp [touch, page]
  · simp [touch, page, h]

@[simp] theorem touch_cached (i j : Nat) : (s.touch i).cached j = s.cached j := by
  by_cases h : j = i
  · subst h
    simp [touch, cached]
  · simp [touch, cached, h]

theorem touch_seq (i j : Nat) : (s.touch i).seq j = if j = i then s.lruSeq + 1 else s.seq j := by
  by_cases h : j = i
  · subst h
    simp [touch, seq]
  · simp [touch, seq, h]

@[simp] theorem drop_page (i j : Nat) : (s.drop i).page j = s.page j := by
  by_cases h : j = i
  · subst h
    simp [drop, page]
  · simp [drop, page, h]

theorem drop_cached (i j : Nat) : (s.drop i).cached j = if j = i then false else s.cached j := by
  by_cases h : j = i
  · subst h
    simp [drop, cached]
  · simp [drop, cached, h]

@[simp] theorem drop_seq (i j : Nat) : (s.drop i).seq j = s.seq j := by
  by_cases h : j = i
  · subst h
    simp [drop, seq]
  · simp [drop, seq, h]

theorem fill_page (i j : Nat) (rest : List Nat) (p : Page) :
    (s.fill i rest p).page j = if j = i then p else s.page j := by
  by_cases h : j = i
  · subst h
    simp [fill, page]
  · simp [fill, page, h]

theorem fill_cached (i j : Nat) (rest : List Nat) (p : Page) :
    (s.fill i rest p).cached j = if j = i then true else s.cached j := by
  by_cases h : j = i
  · subst h
    simp [fill, cached]
  · simp [fill, cached, h]

theorem fill_seq (i j : Nat) (rest : List Nat) (p : Page) :
    (s.fill i rest p).seq j = if j = i then s.lruSeq + 1 else s.seq j := by
  by_cases h : j = i
  · subst h
    simp [fill, seq]
  · simp [fill, seq, h]

/-! ## The invariant -/

structure Valid (s : TLB) : Prop where
  size_pos : 0 < s.size
  bound : ∀ i, s.cached i = true → i < s.size
  free : ∀ i, i ∈ s.freeList ↔ i < s.size ∧ s.cached i = false
  nodup : s.freeList.Nodup
  seq_le : ∀ i, s.cached i = true → s.seq i ≤ s.lruSeq
  distinct : ∀ i j, s.cached i = true → s.cached j = true → (s.page i).vaddr = (s.page j).vaddr →
    (s.page i).logBytes = (s.page j).logBytes → i = j

theorem Valid.start (hn : 0 < n) : Valid { size := n, freeList := range n } where
  size_pos := hn
  bound i h := by cases h
  free i := by simp [cached]
  nodup := nodup_range
  seq_le i h := by cases h
  distinct i j h := by cases h

theorem Valid.touch (hv : s.Valid) (i : Nat) : (s.touch i).Valid where
  size_pos := hv.size_pos
  bound j h := hv.bound j (by simpa using h)
  free j := by
    rw [touch_cached]
    exact hv.free j
  nodup := hv.nodup
  seq_le j h := by
    have := hv.seq_le j (by simpa using h)
    rw [touch_seq, TLB.touch]
    split <;> dsimp only <;> omega
  distinct j k hj hk := by
    simp only [touch_cached, touch_page] at hj hk ⊢
    exact hv.distinct j k hj hk

theorem Valid.drop (hv : s.Valid) (hi : s.cached i) : (s.drop i).Valid where
  size_pos := hv.size_pos
  bound j h := by
    rw [drop_cached] at h
    split at h
    · cases h
    · exact hv.bound j h
  free j := by
    rw [drop_cached]
    show j ∈ s.freeList ++ [i] ↔ _
    rw [mem_append, mem_singleton, hv.free]
    by_cases h : j = i
    · subst h
      simp [TLB.drop, hv.bound j hi]
    · simp [TLB.drop, h]
  nodup := by
    refine nodup_append.mpr ⟨hv.nodup, pairwise_singleton _ i, fun j hj k hk => ?_⟩
    rw [mem_singleton.mp hk]
    rintro rfl
    have := ((hv.free j).mp hj).2
    simp [hi] at this
  seq_le j h := by
    rw [drop_cached] at h
    split at h
    · cases h
    · rw [drop_seq]
      exact hv.seq_le j h
  distinct j k hj hk := by
    rw [drop_cached] at hj hk
    simp only [drop_page]
    split at hj
    · cases hj
    split at hk
    · cases hk
    · exact hv.distinct j k hj hk

theorem Valid.fill (hv : s.Valid) {rest : List Nat} (hfree : s.freeList = i :: rest) {p : Page}
    (hnew : ∀ j, s.cached j → (s.page j).vaddr ≠ p.vaddr) : (s.fill i rest p).Valid := by
  have hi := (hv.free i).mp (hfree ▸ mem_cons_self)
  have hnodup := hv.nodup
  rw [hfree, nodup_cons] at hnodup
  refine ⟨hv.size_pos, fun j h => ?_, fun j => ?_, hnodup.2, fun j h => ?_, fun j k hj hk => ?_⟩
  · rw [fill_cached] at h
    split at h
    · next hji => exact hji ▸ hi.1
    · exact hv.bound j h
  · have hmem := hv.free j
    rw [hfree, mem_cons] at hmem
    rw [fill_cached]
    show j ∈ rest ↔ j < s.size ∧ _
    by_cases hji : j = i
    · subst hji
      simp [hnodup.1]
    · simpa [hji] using hmem
  · rw [fill_cached] at h
    rw [fill_seq]
    show _ ≤ s.lruSeq + 1
    split
    · exact Nat.le_refl _
    rename_i hji
    rw [if_neg hji] at h
    have := hv.seq_le j h
    omega
  · rw [fill_cached] at hj hk
    rw [fill_page, fill_page]
    by_cases hji : j = i <;> by_cases hki : k = i
    · intro _ _
      rw [hji, hki]
    · rw [if_neg hki] at hk
      rw [if_pos hji, if_neg hki]
      exact fun h => absurd h.symm (hnew k hk)
    · rw [if_neg hji] at hj
      rw [if_neg hji, if_pos hki]
      exact fun h => absurd h (hnew j hj)
    · rw [if_neg hji] at hj
      rw [if_neg hki] at hk
      rw [if_neg hji, if_neg hki]
      exact hv.distinct j k hj hk

theorem Valid.trieLookup_none (hv : s.Valid) (h : s.trieLookup va = none) (hc : s.cached i) :
    (s.page i).covers va = false :=
  trieFind_none h (hv.bound i hc) hc

theorem lookup_cases (s : TLB) (va : Nat) :
    (∃ i, s.trieLookup va = some i ∧ s.cached i ∧ (s.page i).covers va ∧
      s.lookup va = (some i, s.touch i)) ∨ s.trieLookup va = none ∧ s.lookup va = (none, s) := by
  cases h : s.trieLookup va with
  | some i =>
    obtain ⟨-, hc, hcov⟩ := trieFind_some h
    exact .inl ⟨i, rfl, hc, hcov, by rw [lookup, h]⟩
  | none => exact .inr ⟨rfl, by rw [lookup, h]⟩

/-- The ways of `insert`: the entry is there, or a free entry is filled, after an eviction if there
was none. -/
theorem insert_cases {vpn : Nat} {e : Page} (h : s.insert vpn e = some (i, t)) :
    t = s ∨ s.trieLookup vpn = none ∧ ∃ u rest, u.freeList = i :: rest ∧
      t = u.fill i rest { e with vaddr := vpn } ∧
      (u = s ∨ s.freeList = [] ∧ s.cached (s.lruIndex s.size) ∧
        u = s.drop (s.lruIndex s.size)) := by
  rw [insert] at h
  split at h
  · split at h <;> cases h
    exact .inl rfl
  rename_i hnone
  right
  obtain ⟨u, hu, h⟩ := Option.bind_eq_some_iff.mp h
  split at h
  · cases h
  rename_i k rest hfree
  cases h
  refine ⟨hnone, u, rest, hfree, rfl, ?_⟩
  split at hu
  · next hempty =>
    rw [evictLRU] at hu
    split at hu <;> cases hu
    next hc => exact .inr ⟨isEmpty_iff.mp hempty, hc, rfl⟩
  · cases hu
    exact .inl rfl

theorem Page.covers_self (p : Page) : p.covers p.vaddr := by simp [Page.covers]

theorem Valid.insert (hv : s.Valid) {vpn : Nat} {e : Page} (h : s.insert vpn e = some (i, t)) :
    t.Valid := by
  rcases insert_cases h with rfl | ⟨hnone, u, rest, hfree, rfl, hu⟩
  · exact hv
  have hnew (j : Nat) (hj : s.cached j = true) : (s.page j).vaddr ≠ vpn := by
    intro heq
    have := hv.trieLookup_none hnone hj
    rw [← heq, Page.covers_self] at this
    cases this
  rcases hu with rfl | ⟨-, hc, rfl⟩
  · exact hv.fill hfree hnew
  refine (hv.drop hc).fill hfree fun j hj => ?_
  rw [drop_cached] at hj
  rw [drop_page]
  split at hj
  · cases hj
  · exact hnew j hj

theorem Valid.lookup (hv : s.Valid) (va : Nat) : (s.lookup va).2.Valid := by
  rcases lookup_cases s va with ⟨i, -, -, -, h⟩ | ⟨-, h⟩
  · rw [h]
    exact hv.touch i
  · rw [h]
    exact hv

theorem Valid.walked (hv : s.Valid) (h : s.walked a = some (t, r)) :
    t.Valid := by
  rw [TLB.walked] at h
  split at h
  · cases h
    exact hv
  obtain ⟨⟨i, u⟩, hins, h⟩ := Option.bind_eq_some_iff.mp h
  have hl := (hv.insert hins).lookup a.linear
  split at h
  · next hlook =>
    cases h
    rw [show (u.lookup a.linear) = _ from hlook] at hl
    exact hl
  · cases h

theorem Valid.emulated (hv : s.Valid) (h : s.emulated a = some (t, r)) :
    t.Valid := by
  rw [TLB.emulated] at h
  split at h
  · cases h
    exact hv
  split at h
  · cases h
    exact hv
  obtain ⟨⟨i, u⟩, hins, heq⟩ := Option.map_eq_some_iff.mp h
  cases heq
  exact hv.insert hins

theorem Valid.translate (hv : s.Valid) (h : s.translate fullSystem a = some (t, r)) : t.Valid := by
  rw [TLB.translate] at h
  split at h
  · rcases lookup_cases s a.linear with ⟨i, -, -, -, hl⟩ | ⟨-, hl⟩
    · rw [hl] at h
      cases h
      exact hv.touch i
    · rw [hl] at h
      dsimp only at h
      split at h
      · cases h
        exact hv
      split at h
      · exact hv.walked h
      · exact hv.emulated h
  · cases h
    exact hv

/-- A flush drops entries one by one. -/
theorem Valid.flush {f : TLB → Nat → Bool} (hf : ∀ s i, f s i → s.cached i)
    (hv : s.Valid) (is : List Nat) :
    (is.foldl (fun s i => if f s i then s.drop i else s) s).Valid := by
  induction is generalizing s with
  | nil => exact hv
  | cons i is ih =>
    refine ih ?_
    dsimp only
    split
    · next h => exact hv.drop (hf s i h)
    · exact hv

theorem valid_of_reach (h : (tlbMachine fullSystem).Reach s) : s.Valid := by
  refine h.invariant (I := Valid) (fun s hs => ?_) (fun s e s' hv _ hs => ?_)
  · obtain ⟨n, hn, rfl⟩ := hs
    exact .start hn
  · cases e with
    | translate a =>
      obtain ⟨⟨t, r⟩, ht, rfl⟩ := Option.map_eq_some_iff.mp hs
      exact hv.translate ht
    | flushAll =>
      cases hs
      exact hv.flush (f := fun s i => s.cached i) (fun _ _ h => h) _
    | flushNonGlobal =>
      cases hs
      exact hv.flush (f := fun s i => s.cached i && !(s.page i).global)
        (fun _ _ h => (Bool.and_eq_true _ _ ▸ h).1) _
    | demapPage va =>
      cases hs
      rw [demapPage]
      split
      · next i hi => exact hv.drop (trieFind_some hi).2.1
      · exact hv

/-! ## States with the same pages in the same order -/

structure Like (s t : TLB) : Prop where
  size : t.size = s.size
  free : t.freeList = s.freeList
  page : ∀ i, t.page i = s.page i
  cached : ∀ i, t.cached i = s.cached i
  order : ∀ i j, s.cached i = true → s.cached j = true → (t.seq i < t.seq j ↔ s.seq i < s.seq j)

theorem Like.trieLookup (h : Like s t) (va : Nat) : t.trieLookup va = s.trieLookup va := by
  rw [TLB.trieLookup, TLB.trieLookup, h.size]
  exact trieFind_congr h.page h.cached s.size

/-- The entry used now becomes the last in both. -/
theorem Like.touch (h : Like s t) (hs : s.Valid) (ht : t.Valid) (i : Nat) :
    Like (s.touch i) (t.touch i) where
  size := h.size
  free := h.free
  page j := by simp [h.page]
  cached j := by simp [h.cached]
  order j k hj hk := by
    rw [touch_cached] at hj hk
    have hj' := ht.seq_le j ((h.cached j).trans hj)
    have hk' := ht.seq_le k ((h.cached k).trans hk)
    have hj := And.intro hj (hs.seq_le j hj)
    have hk := And.intro hk (hs.seq_le k hk)
    have horder := h.order j k hj.1 hk.1
    simp only [touch_seq]
    split <;> split <;> omega

theorem Like.drop (h : Like s t) (i : Nat) : Like (s.drop i) (t.drop i) where
  size := h.size
  free := congrArg (· ++ [i]) h.free
  page j := by simp [h.page]
  cached j := by simp [drop_cached, h.cached]
  order j k hj hk := by
    rw [drop_cached] at hj hk
    simp only [drop_seq]
    split at hj
    · cases hj
    split at hk
    · cases hk
    · exact h.order j k hj hk

theorem Like.fill (h : Like s t) (hs : s.Valid) (ht : t.Valid) (i : Nat) (rest : List Nat)
    (p : Page) :
    Like (s.fill i rest p) (t.fill i rest p) where
  size := h.size
  free := rfl
  page j := by simp [fill_page, h.page]
  cached j := by simp [fill_cached, h.cached]
  order j k hj hk := by
    rw [fill_cached] at hj hk
    simp only [fill_seq]
    by_cases hji : j = i <;> by_cases hki : k = i
    · simp [hji, hki]
    · rw [if_neg hki] at hk
      have hk' := ht.seq_le k ((h.cached k).trans hk)
      have hk := hs.seq_le k hk
      rw [if_pos hji, if_neg hki, if_pos hji, if_neg hki]
      omega
    · rw [if_neg hji] at hj
      have hj' := ht.seq_le j ((h.cached j).trans hj)
      have hj := hs.seq_le j hj
      rw [if_neg hji, if_pos hki, if_neg hji, if_pos hki]
      omega
    · rw [if_neg hji] at hj
      rw [if_neg hki] at hk
      rw [if_neg hji, if_neg hki, if_neg hji, if_neg hki]
      exact h.order j k hj hk

theorem lruIndex_lt (s : TLB) (hn : 0 < n) : s.lruIndex n < n := by
  induction n with
  | zero => omega
  | succ n ih =>
    rw [lruIndex]
    split
    · exact Nat.lt_succ_self n
    rcases Nat.eq_zero_or_pos n with rfl | hpos
    · exact Nat.zero_lt_one
    · exact Nat.lt_succ_of_lt (ih hpos)

/-- The loop of `evictLRU` compares only. -/
theorem Like.lruIndex (h : Like s t) (hall : ∀ i < n, s.cached i) :
    t.lruIndex n = s.lruIndex n := by
  induction n with
  | zero => rfl
  | succ n ih =>
    have ih := ih fun i hi => hall i (Nat.lt_succ_of_lt hi)
    rcases Nat.eq_zero_or_pos n with rfl | hpos
    · simp [TLB.lruIndex]
    have horder := h.order n (s.lruIndex n) (hall n (Nat.lt_succ_self n))
      (hall _ (Nat.lt_succ_of_lt (lruIndex_lt s hpos)))
    simp only [TLB.lruIndex, ih, horder]

/-- Without a free entry every entry is in use. -/
theorem Valid.all_cached (hs : s.Valid) (hfree : s.freeList = []) (i : Nat) (hi : i < s.size) :
    s.cached i := by
  by_contra hno
  have hmem := (hs.free i).mpr ⟨hi, Bool.eq_false_iff.mpr hno⟩
  rw [hfree] at hmem
  cases hmem

theorem Like.evicted (h : Like s t) (hs : s.Valid) : t.evicted = s.evicted := by
  rw [TLB.evicted, TLB.evicted, h.free]
  split
  · next hempty =>
    rw [h.size, h.lruIndex (hs.all_cached (isEmpty_iff.mp hempty)), h.page]
  · rfl

theorem Like.insert (h : Like s t) (hs : s.Valid) (ht : t.Valid) (vpn : Nat) (e : Page) :
    s.insert vpn e = none ∧ t.insert vpn e = none ∨ ∃ i u v, s.insert vpn e = some (i, u) ∧
      t.insert vpn e = some (i, v) ∧ Like u v := by
  have hfill {u v : TLB} (huv : Like u v) (hu : u.Valid) (hv : v.Valid)
      (hsu : s.insert vpn e = match u.freeList with
        | [] => none
        | i :: rest => some (i, u.fill i rest { e with vaddr := vpn }))
      (htv : t.insert vpn e = match v.freeList with
        | [] => none
        | i :: rest => some (i, v.fill i rest { e with vaddr := vpn })) :
      s.insert vpn e = none ∧ t.insert vpn e = none ∨ ∃ i u v, s.insert vpn e = some (i, u) ∧
        t.insert vpn e = some (i, v) ∧ Like u v := by
    rw [huv.free] at htv
    cases hf : u.freeList with
    | nil =>
      rw [hf] at hsu htv
      exact .inl ⟨hsu, htv⟩
    | cons i rest =>
      rw [hf] at hsu htv
      exact .inr ⟨i, _, _, hsu, htv, huv.fill hu hv i rest _⟩
  have hlook := h.trieLookup vpn
  cases hl : s.trieLookup vpn with
  | some i =>
    by_cases hva : (s.page i).vaddr = vpn
    · right
      refine ⟨i, s, t, ?_, ?_, h⟩
      · simp [TLB.insert, hl, hva]
      · simp [TLB.insert, hlook, hl, h.page, hva]
    · left
      constructor
      · simp [TLB.insert, hl, hva]
      · simp [TLB.insert, hlook, hl, h.page, hva]
  | none =>
    cases hempty : s.freeList.isEmpty with
    | false =>
      refine hfill h hs ht ?_ ?_
      · simp [TLB.insert, hl, hempty]
      · simp [TLB.insert, hlook, hl, h.free, hempty]
    | true =>
      have hidx := h.lruIndex (hs.all_cached (isEmpty_iff.mp hempty))
      have hc := hs.all_cached (isEmpty_iff.mp hempty) _ (lruIndex_lt s hs.size_pos)
      have hc' : t.cached (s.lruIndex s.size) = true := (h.cached _).trans hc
      refine hfill (h.drop (s.lruIndex s.size)) (hs.drop hc) (ht.drop hc') ?_ ?_
      · simp [TLB.insert, hl, hempty, evictLRU, hc]
      · simp [TLB.insert, hlook, hl, h.free, hempty, evictLRU, h.size, hidx, hc']

/-- Two results that agree and leave such states. -/
inductive Agree : Option (TLB × Result) → Option (TLB × Result) → Prop
  | none : Agree none none
  | some {u v : TLB} (r : Result) : Like u v → u.Valid → v.Valid → Agree (some (u, r)) (some (v, r))

section
variable (h : Like s t) (hs : s.Valid) (ht : t.Valid)
include h hs ht

theorem Like.walked (a : Access) : Agree (s.walked a) (t.walked a) := by
  simp only [TLB.walked]
  cases a.walk with
  | none => exact .some _ h hs ht
  | some entry =>
    dsimp only
    rcases h.insert hs ht entry.vaddr entry with ⟨h1, h2⟩ | ⟨i, u, v, h1, h2, huv⟩
    · rw [h1, h2]
      exact .none
    have hu := hs.insert h1
    have hv := ht.insert h2
    rw [h1, h2, Option.bind_some, Option.bind_some]
    rcases lookup_cases u a.linear with ⟨j, htrie, -, -, hl⟩ | ⟨htrie, hl⟩
    · have hl' : v.lookup a.linear = (some j, v.touch j) := by
        rw [TLB.lookup, huv.trieLookup, htrie]
      rw [hl, hl', h.evicted hs]
      simp only [touch_page, huv.page]
      exact .some _ (huv.touch hu hv j) (hu.touch j) (hv.touch j)
    · have hl' : v.lookup a.linear = (none, v) := by
        rw [TLB.lookup, huv.trieLookup, htrie]
      rw [hl, hl']
      exact .none

theorem Like.emulated (a : Access) : Agree (s.emulated a) (t.emulated a) := by
  simp only [TLB.emulated]
  cases a.pte with
  | none => exact .some _ h hs ht
  | some pte =>
    dsimp only
    split
    · exact .some _ h hs ht
    rcases h.insert hs ht (a.mapped pte).vaddr (a.mapped pte) with ⟨h1, h2⟩ | ⟨i, u, v, h1, h2, huv⟩
    · rw [h1, h2]
      exact .none
    rw [h1, h2]
    simp only [Option.map_some, h.evicted hs, huv.page]
    exact .some _ huv (hs.insert h1) (ht.insert h2)

theorem Like.translate (a : Access) :
    Agree (s.translate fullSystem a) (t.translate fullSystem a) := by
  simp only [TLB.translate]
  split
  · rcases lookup_cases s a.linear with ⟨i, htrie, -, -, hl⟩ | ⟨htrie, hl⟩
    · have hl' : t.lookup a.linear = (some i, t.touch i) := by
        rw [TLB.lookup, h.trieLookup, htrie]
      rw [hl, hl']
      simp only [touch_page, h.page]
      exact .some _ (h.touch hs ht i) (hs.touch i) (ht.touch i)
    · have hl' : t.lookup a.linear = (none, t) := by
        rw [TLB.lookup, h.trieLookup, htrie]
      rw [hl, hl']
      dsimp only
      split
      · exact .some _ h hs ht
      split
      · exact h.walked hs ht a
      · exact h.emulated hs ht a
  · exact .some _ h hs ht

/-- Later accesses cannot tell two such states apart. -/
theorem observe_eq_of_like (as : List Access) :
    t.observe fullSystem as = s.observe fullSystem as := by
  induction as generalizing s t with
  | nil => rfl
  | cons a as ih =>
    have ha : Agree (s.translate fullSystem a) (t.translate fullSystem a) := h.translate hs ht a
    rw [observe, observe]
    generalize s.translate fullSystem a = x at ha
    generalize t.translate fullSystem a = y at ha
    cases ha with
    | none => rfl
    | some r huv hu hv => exact congrArg _ (ih huv hu hv)

end

/-! ## Speculative translations -/

def caches (s : TLB) (p : Page) : Prop := ∃ i, s.cached i = true ∧ s.page i = p

/-- The page `p` was used before the page `q`. -/
def older (s : TLB) (p q : Page) : Prop :=
  ∃ i j, s.cached i = true ∧ s.cached j = true ∧ s.page i = p ∧ s.page j = q ∧ s.seq i < s.seq j

/-- The access does not get to the entries, hits the entry used last, or misses and is not served by
the walker. -/
def undisturbed (fullSystem : Bool) (s : TLB) (a : Access) : Bool :=
  !a.paged || match s.trieLookup a.linear with
    | some i => (range s.size).all fun j => !s.cached j || j == i || decide (s.seq j < s.seq i)
    | none => !a.proceedOnSpecTLBMiss || !fullSystem || a.walk.isNone

theorem Like.caches (h : Like s t) (p : Page) : t.caches p ↔ s.caches p := by
  simp only [TLB.caches, h.page, h.cached]

theorem Like.older (h : Like s t) (p q : Page) : t.older p q ↔ s.older p q := by
  simp only [TLB.older, h.page, h.cached]
  constructor
  · rintro ⟨i, j, hi, hj, hp, hq, hlt⟩
    exact ⟨i, j, hi, hj, hp, hq, (h.order i j hi hj).mp hlt⟩
  · rintro ⟨i, j, hi, hj, hp, hq, hlt⟩
    exact ⟨i, j, hi, hj, hp, hq, (h.order i j hi hj).mpr hlt⟩

/-- Using the last entry again changes nothing. -/
theorem Valid.like_touch (hs : s.Valid) (hlast : ∀ j, s.cached j → j = i ∨ s.seq j < s.seq i) :
    Like s (s.touch i) where
  size := rfl
  free := rfl
  page j := touch_page i j
  cached j := touch_cached i j
  order j k hj hk := by
    have hj' := hs.seq_le j hj
    have hk' := hs.seq_le k hk
    have hj := hlast j hj
    have hk := hlast k hk
    rw [touch_seq, touch_seq]
    by_cases hji : j = i <;> by_cases hki : k = i
    · simp [hji, hki]
    · rw [if_pos hji, if_neg hki, hji]
      have := hk.resolve_left hki
      omega
    · rw [if_neg hji, if_pos hki, hki]
      have := hj.resolve_left hji
      omega
    · rw [if_neg hji, if_neg hki]

/-- A speculative translation with a hit. -/
theorem Valid.last_of_older (hs : s.Valid) (hi : s.cached i)
    (h : ∀ p q, (s.touch i).older p q ↔ s.older p q) (hj : s.cached j) (hji : j ≠ i) :
    s.seq j < s.seq i := by
  have hafter : (s.touch i).older (s.page j) (s.page i) := by
    refine ⟨j, i, by simpa using hj, by simpa using hi, touch_page i j, touch_page i i, ?_⟩
    rw [touch_seq, touch_seq, if_neg hji, if_pos rfl]
    have := hs.seq_le j hj
    omega
  obtain ⟨k, l, hk, hl, hkj, hli, hlt⟩ := (h _ _).mp hafter
  have hkj := hs.distinct k j hk hj (congrArg Page.vaddr hkj) (congrArg Page.logBytes hkj)
  have hli := hs.distinct l i hl hi (congrArg Page.vaddr hli) (congrArg Page.logBytes hli)
  rwa [hkj, hli] at hlt

/-- What the walker brings in was not there. -/
theorem Valid.walked_new (hs : s.Valid) {entry : Page} (hw : a.walk = some entry)
    (hnone : s.trieLookup a.linear = none)
    (h : s.walked a = some (t, r)) : ¬∀ p, t.caches p ↔ s.caches p := by
  intro hsame
  simp only [TLB.walked, hw] at h
  obtain ⟨⟨i, u⟩, hins, h⟩ := Option.bind_eq_some_iff.mp h
  rcases lookup_cases u a.linear with ⟨j, -, hj, hcov, hl⟩ | ⟨-, hl⟩
  · rw [hl] at h
    cases h
    obtain ⟨k, hk, hpage⟩ := (hsame (u.page j)).mp ⟨j, by simpa using hj, touch_page j j⟩
    have hno := hs.trieLookup_none hnone hk
    rw [hpage, hcov] at hno
    cases hno
  · rw [hl] at h
    cases h

end TLB

/-- A speculative translation leaves the pages held, the order of their last use and with them all
later hits, misses and evictions as they were, exactly if it is undisturbed. -/
theorem spec_translate_untouched {fullSystem : Bool} {s s' : TLB}
    (h : (tlbMachine fullSystem).Reach s) {a : Access} (ha : a.spec = true) {r : Result}
    (ht : s.translate fullSystem a = some (s', r)) :
    ((∀ p, s'.caches p ↔ s.caches p) ∧ (∀ p q, s'.older p q ↔ s.older p q) ∧
      ∀ later : List Access, (∀ b ∈ later, b.spec = false) →
        s'.observe fullSystem later = s.observe fullSystem later) ↔
      s.undisturbed fullSystem a = true := by
  have hv := TLB.valid_of_reach h
  have hv' := hv.translate ht
  have hlike (hl : TLB.Like s s') : (∀ p, s'.caches p ↔ s.caches p) ∧
      (∀ p q, s'.older p q ↔ s.older p q) ∧ ∀ later : List Access, (∀ b ∈ later, b.spec = false) →
        s'.observe fullSystem later = s.observe fullSystem later :=
    ⟨hl.caches, hl.older, fun later _ => TLB.observe_eq_of_like hl hv hv' later⟩
  rw [TLB.translate] at ht
  cases hp : a.paged with
  | false =>
    rw [hp] at ht
    cases ht
    simp [TLB.undisturbed, hp]
  | true =>
    rw [hp, if_pos rfl] at ht
    simp only [TLB.undisturbed, hp, Bool.not_true, Bool.false_or]
    rcases TLB.lookup_cases s a.linear with ⟨i, htrie, hi, -, hl⟩ | ⟨htrie, hl⟩
    · rw [hl] at ht
      cases ht
      simp only [htrie, all_eq_true, mem_range, Bool.or_eq_true, Bool.not_eq_true', beq_iff_eq,
        decide_eq_true_eq]
      constructor
      · intro hall j _
        by_cases hj : s.cached j = true
        · by_cases hji : j = i
          · exact .inl (.inr hji)
          · exact .inr (hv.last_of_older hi hall.2.1 hj hji)
        · exact .inl (.inl (Bool.eq_false_iff.mpr hj))
      · intro hall
        refine hlike (hv.like_touch fun j hj => ?_)
        rcases hall j (hv.bound j hj) with (hno | hji) | hlt
        · simp [hj] at hno
        · exact .inl hji
        · exact .inr hlt
    · rw [hl] at ht
      simp only [htrie, ha, Bool.true_and] at ht ⊢
      cases hproceed : a.proceedOnSpecTLBMiss with
      | false =>
        rw [hproceed] at ht
        cases ht
        simp
      | true =>
        rw [hproceed] at ht
        simp only [Bool.not_true, Bool.false_eq_true, if_false] at ht
        cases fullSystem with
        | false =>
          -- the entry made for the translation is thrown away
          have hsame : s' = s := by
            simp only [Bool.false_eq_true, if_false, TLB.emulated, ha, if_true] at ht
            split at ht <;> cases ht <;> rfl
          simp [hsame]
        | true =>
          rw [if_pos rfl] at ht
          cases hw : a.walk with
          | none =>
            simp only [TLB.walked, hw] at ht
            cases ht
            simp
          | some entry =>
            simp only [Bool.not_true, Bool.or_self, Option.isNone_some, Bool.false_eq_true,
              iff_false]
            exact fun hall => hv.walked_new hw htrie ht hall.1

/-! ### Two entries, of which the older is hit by a speculative access -/

def mappedAccess (page : Nat) (spec : Bool) : Access where
  vaddr := page * 4096
  spec := spec
  proceedOnSpecTLBMiss := true
  pte := some { paddr := page * 4096 }

/-- A TLB with two entries, after accesses to the pages. -/
def afterPages (pages : List Nat) : TLB :=
  ((tlbMachine false).run { size := 2, freeList := [0, 1] }
    (pages.map fun p => .translate (mappedAccess p false))).getD { size := 2, freeList := [] }

theorem afterPages_reach {pages : List Nat}
    (h : ((tlbMachine false).run { size := 2, freeList := [0, 1] }
      (pages.map fun p => .translate (mappedAccess p false))).isSome) :
    (tlbMachine false).Reach (afterPages pages) :=
  Machine.reach_run ⟨2, by decide, rfl⟩ (Machine.run_getD h)

/-- The page used last may be hit. -/
theorem spec_translate_untouched_last :
    (((afterPages [1, 2]).translate false (mappedAccess 2 true)).getD
      (afterPages [], ⟨.internal, none, none⟩)).1.observe false [mappedAccess 3 false] =
        (afterPages [1, 2]).observe false [mappedAccess 3 false] := by
  have ht := Machine.eq_some_getD (o := (afterPages [1, 2]).translate false (mappedAccess 2 true))
    (d := (afterPages [], ⟨.internal, none, none⟩)) (by decide +kernel)
  exact ((spec_translate_untouched (afterPages_reach (by decide +kernel)) rfl ht).mpr
    (by decide +kernel)).2.2 _ (by simp [mappedAccess])

/-- A speculative hit saves the older page from the next eviction. -/
theorem spec_hit_changes_victim :
    ¬∀ (fullSystem : Bool) (s s' : TLB) (a : Access) (r : Result),
      (tlbMachine fullSystem).Reach s → a.spec = true → s.translate fullSystem a = some (s', r) →
        (∀ p, s'.caches p ↔ s.caches p) ∧ (∀ p q, s'.older p q ↔ s.older p q) ∧
          ∀ later : List Access, (∀ b ∈ later, b.spec = false) →
            s'.observe fullSystem later = s.observe fullSystem later := by
  intro h
  have ht := Machine.eq_some_getD (o := (afterPages [1, 2]).translate false (mappedAccess 1 true))
    (d := (afterPages [], ⟨.internal, none, none⟩)) (by decide +kernel)
  have hsame := (h false _ _ _ _ (afterPages_reach (by decide +kernel)) rfl ht).2.2
    [mappedAccess 3 false] (by simp [mappedAccess])
  revert hsame
  decide +kernel

end SdoCore.X86
