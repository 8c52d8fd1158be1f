import SdoCore.Lsq.Forward
import SdoCore.Lsq.WellFormed

/-! The two queues point into each other: a load keeps the tail of the store queue it found when it
was inserted (`sqIdx`), a store that of the load queue (`lqIdx`). As long as the instruction has not
committed, what it points at is where the instructions younger than it begin (`Ordered`), whatever
has been taken off the heads and tails in the meantime.

That holds in the runs the pipeline makes (`inOrderMachine`): an instruction executes before it
commits, a store conditional when it is the oldest, and what is committed is done. -/

namespace SdoCore

open Lib
open List

/-! ## How many are older -/

/-- How many of an increasing list are below a bound. -/
def older (L : List Nat) (n : Nat) : Nat := L.countP (decide <| · < n)

section
variable {L : List Nat} {n : Nat}

theorem older_le_length : older L n ≤ L.length := countP_le_length

theorem older_append {x : Nat} (h : n ≤ x) : older (L ++ [x]) n = older L n := by
  rw [older, older, countP_append, countP_singleton, if_neg (by simpa using h), Nat.add_zero]

theorem older_eq_length (h : ∀ x ∈ L, x < n) : older L n = L.length :=
  countP_eq_length.mpr fun x hx => decide_eq_true (h x hx)

/-- Taking off the front what is below the bound. -/
theorem older_drop {d : Nat} (hd : d ≤ L.length) (h : ∀ x ∈ L.take d, x < n) :
    older (L.drop d) n + d = older L n := by
  have hfront : (L.take d).countP (decide <| · < n) = d := by
    rw [← older, older_eq_length h, length_take, Nat.min_eq_left hd]
  have happ : (L.take d ++ L.drop d).countP (decide <| · < n) = _ := countP_append
  rw [take_append_drop, hfront] at happ
  rw [older, older, happ, Nat.add_comm]

/-- Taking off the back what is not. -/
theorem older_take {d : Nat} (h : ∀ x ∈ L.drop d, n ≤ x) : older (L.take d) n = older L n := by
  have hback : (L.drop d).countP (decide <| · < n) = 0 :=
    countP_eq_zero.mpr fun x hx => by simpa using h x hx
  have happ : (L.take d ++ L.drop d).countP (decide <| · < n) = _ := countP_append
  rw [take_append_drop, hback] at happ
  exact happ.symm

/-- In an increasing list they stand at the front. -/
theorem lt_older_iff (hL : L.Pairwise (· < ·)) {k x : Nat} (hk : L[k]? = some x) :
    k < older L n ↔ x < n := by
  induction L generalizing k with
  | nil => cases hk
  | cons y L ih =>
    obtain ⟨hy, hL⟩ := pairwise_cons.mp hL
    rw [older, countP_cons]
    cases k with
    | zero =>
      obtain rfl : y = x := Option.some.inj hk
      by_cases hyn : y < n
      · simp [hyn]
      have hnone : L.countP (decide <| · < n) = 0 :=
        countP_eq_zero.mpr fun z hz => by
          have := hy z hz
          simp
          omega
      simp [hyn, hnone]
    | succ k =>
      rw [List.getElem?_cons_succ] at hk
      have hx := hy x (mem_of_getElem? hk)
      have hi := ih hL hk
      rw [older] at hi
      by_cases hyn : y < n
      · simp only [hyn, decide_true, if_true]
        omega
      have hno : ¬x < n := by omega
      simp only [hyn, decide_false, Bool.false_eq_true, if_false, Nat.add_zero]
      omega

end

/-! ## The machine -/

/-- The load has a value, or goes to commit without one. -/
def LqEntry.done (l : LqEntry) : Bool := l.executed || l.obtained.isSome

/-- `write` copies as many bytes as there are. -/
def Lsq.StoreAccess.wellSized : Lsq.StoreAccess → Bool
  | .access req _ data => req.cacheBlockZero || req.cacheMaintenance || data.length == req.size
  | _ => true

namespace Lsq

/-- The loads in their queue, the oldest first. -/
def loadList (s : Lsq) : List LqEntry :=
  (List.range s.loads.toNat).filterMap fun k => s.loadQueue.slot (s.loadQueue.index k)

def storeList (s : Lsq) : List SQEntry :=
  (List.range s.stores.toNat).map fun k => s.storeQueue.slot (s.storeQueue.index k)

/-- What the pipeline keeps to. A load executes until it is done, and is not fenced off once it has
a value. A store executes before it commits, and a store conditional when everything before it has
committed; the violator that an execution finds is collected before the next store executes.
`commitStores` is called for loads that are done and before `commitLoads`. -/
def inOrder (s : Lsq) : LsqEvent → Bool
  | .executeLoad idx _ _ => (s.loadQueue.slot idx).all fun l => !l.done
  | .executeStore idx acc =>
    let e := s.storeQueue.slot idx
    s.memDepViolator.isNone && !e.canWB && acc.wellSized &&
      (!e.isStoreConditional ||
        (s.loadList.all fun l => decide (e.seqNum < l.seqNum) || l.done) &&
          s.storeList.all fun e' => decide (e.seqNum ≤ e'.seqNum) || e'.canWB)
  | .setFenceDelay idx fenceDelay =>
    !fenceDelay || (s.loadQueue.slot idx).all fun l => l.obtained.isNone
  | .commitStores youngest => s.loadList.all fun l => decide (youngest < l.seqNum) || l.done
  | .commitLoads youngest => s.storeList.all fun e => decide (youngest < e.seqNum) || e.canWB
  | _ => true

/-- The access ends before the last byte of the address space. -/
def noWrap : LsqEvent → Bool
  | .executeLoad _ req _ => decide (req.vaddr + req.size < 2 ^ 64)
  | .executeStore _ (.access req _ _) => decide (req.vaddr + req.size < 2 ^ 64)
  | _ => true

end Lsq

def inOrderMachine (c : QueueConfig) : Machine Lsq LsqEvent where
  start := (queueMachine c).start
  step s e := if s.inOrder e then s.step c e else none

/-! ## The invariant -/

/-- What happens to a load in its queue: once it has a value, its address stays and it is not fenced
off. -/
structure LqEntry.Kept (l l' : LqEntry) : Prop where
  seqNum : l'.seqNum = l.seqNum
  sqIdx : l'.sqIdx = l.sqIdx
  done : l.done = true → l'.done = true
  obtained : l.obtained.isSome = true → l'.obtained.isSome = true ∧ l'.effAddr = l.effAddr ∧
    l'.effSize = l.effSize ∧ l'.strictlyOrdered = l.strictlyOrdered

/-- A load with a value is looked at by `checkViolations`, unless it is strictly ordered. -/
def LqEntry.Sent (l : LqEntry) : Prop :=
  l.obtained.isSome = true → l.effAddrValid = true ∧ l.fenceDelay = false

/-- What `write` leaves in an entry. -/
structure SQEntry.Written (e : SQEntry) : Prop where
  fits : 16 ≤ e.data.length
  size : e.isAllZeros = false → e.size ≤ 16
  ends : e.size ≠ 0 → e.effAddr + e.size < 2 ^ 64

structure Lsq.Ordered (s : Lsq) (ls : List LqEntry) (q : List SQEntry) : Prop where
  loads : s.loadQueue.Holds (ls.map some)
  stores : s.storeQueue.Holds q
  sqIdx : ∀ l ∈ ls, l.done = false →
    l.sqIdx = none ∧ older (q.map (·.seqNum)) l.seqNum = 0 ∨
    l.sqIdx = some (s.storeQueue.index (older (q.map (·.seqNum)) l.seqNum))
  lqIdx : ∀ e ∈ q, e.canWB = false →
    e.lqIdx = s.loadQueue.index (older (ls.map (·.seqNum)) e.seqNum)
  commits : ∀ e ∈ q, e.canWB = true → ∀ l ∈ ls, l.seqNum < e.seqNum → l.done = true
  front : ∀ e ∈ q, e.canWB = true → ∀ e' ∈ q, e'.seqNum < e.seqNum → e'.canWB = true
  apart : ∀ l ∈ ls, ∀ e ∈ q, l.seqNum ≠ e.seqNum
  sent : ∀ l ∈ ls, l.Sent
  written : ∀ e ∈ q, e.Written

/-- The loads of the queue are kept, and others are younger. -/
def Tracks (ls ls' : List LqEntry) : Prop :=
  ∀ l' ∈ ls', (∃ l ∈ ls, l.Kept l') ∨ ∀ l ∈ ls, l.seqNum < l'.seqNum

/-- What the marks of the write-back do not touch. -/
theorem SQEntry.of_plain {e e' : SQEntry} (h : e.plain = e'.plain) :
    e'.seqNum = e.seqNum ∧ e'.lqIdx = e.lqIdx ∧ e'.canWB = e.canWB ∧ (e.Written → e'.Written) := by
  have hdata : e.data = e'.data := (congrArg SQEntry.data h :)
  have hsize : e.size = e'.size := (congrArg SQEntry.size h :)
  have hzero : e.isAllZeros = e'.isAllZeros := (congrArg SQEntry.isAllZeros h :)
  have haddr : e.effAddr = e'.effAddr := (congrArg SQEntry.effAddr h :)
  refine ⟨(congrArg SQEntry.seqNum h :).symm, (congrArg SQEntry.lqIdx h :).symm,
    (congrArg SQEntry.canWB h :).symm, fun hw => ?_⟩
  exact ⟨hdata ▸ hw.fits, hsize ▸ hzero ▸ hw.size, by rw [← hsize, ← haddr]; exact hw.ends⟩

namespace LqEntry.Kept

theorem refl (l : LqEntry) : l.Kept l := ⟨rfl, rfl, id, fun h => ⟨h, rfl, rfl, rfl⟩⟩

theorem trans {l l' l'' : LqEntry} (h : l.Kept l') (h' : l'.Kept l'') : l.Kept l'' := by
  refine ⟨h'.seqNum.trans h.seqNum, h'.sqIdx.trans h.sqIdx, fun hd => h'.done (h.done hd),
    fun ho => ?_⟩
  obtain ⟨ho', ha, hn, hs⟩ := h.obtained ho
  obtain ⟨ho'', ha', hn', hs'⟩ := h'.obtained ho'
  exact ⟨ho'', ha'.trans ha, hn'.trans hn, hs'.trans hs⟩

end LqEntry.Kept

theorem forall₂_mem_right {α : Type} {R : α → α → Prop} {l l' : List α} (h : List.Forall₂ R l l')
    {y : α}
    (hy : y ∈ l') : ∃ x ∈ l, R x y := by
  induction h with
  | nil => cases hy
  | cons hxy _ ih =>
    rcases mem_cons.mp hy with rfl | hy
    · exact ⟨_, mem_cons_self, hxy⟩
    · obtain ⟨x, hx, hR⟩ := ih hy
      exact ⟨x, mem_cons_of_mem _ hx, hR⟩

theorem forall₂_trans {α : Type} {R S T : α → α → Prop} {l l' l'' : List α}
    (h : List.Forall₂ R l l')
    (h' : List.Forall₂ S l' l'') (hRS : ∀ x y z, R x y → S y z → T x z) : List.Forall₂ T l l'' := by
  induction h generalizing l'' with
  | nil =>
    cases h'
    exact .nil
  | cons hxy _ ih =>
    cases h' with
    | cons hyz h' => exact .cons (hRS _ _ _ hxy hyz) (ih h')

theorem Tracks.of_forall₂ {ls ls' : List LqEntry} {P : LqEntry → Prop}
    (h : List.Forall₂ (fun l l' => l.Kept l' ∧ P l') ls ls') : Tracks ls ls' := by
  intro l' hl'
  obtain ⟨l, hl, hk, -⟩ := forall₂_mem_right h hl'
  exact .inl ⟨l, hl, hk⟩

theorem Tracks.of_subset {ls ls' : List LqEntry} (h : ls' ⊆ ls) : Tracks ls ls' :=
  fun l' hl' => .inl ⟨l', h hl', .refl l'⟩

namespace Lsq

variable {c : QueueConfig} {s s' : Lsq} {ls ls' : List LqEntry} {q q' : List SQEntry}

theorem storeList_eq (h : s.storeQueue.Holds q) : s.storeList = q := by
  have hn : s.stores.toNat = q.length := by
    rw [Lsq.stores, h.count, Int.toNat_natCast]
  refine ext_getElem (by simp [storeList, hn]) fun k hk hk' => ?_
  simp only [storeList, getElem_map, getElem_range]
  exact h.slot k hk'

theorem loadList_eq (h : s.loadQueue.Holds (ls.map some)) : s.loadList = ls := by
  have hn : s.loads.toNat = ls.length := by
    rw [Lsq.loads, h.count, Int.toNat_natCast, length_map]
  have hslots : (List.range s.loads.toNat).map (fun k => s.loadQueue.slot (s.loadQueue.index k)) =
      ls.map some := by
    refine ext_getElem (by simp [hn]) fun k hk hk' => ?_
    rw [getElem_map, getElem_range]
    exact h.slot k hk'
  have hfilter := congrArg (List.filterMap id) hslots
  rw [filterMap_map, filterMap_map] at hfilter
  rw [loadList]
  refine hfilter.trans ?_
  rw [Function.id_comp]
  exact filterMap_some

/-- In a queue that is in order, an older store stands further to the front. -/
theorem lt_of_seqNum_lt (hq : (q.map (·.seqNum)).Pairwise (· < ·)) {j k : Nat} {e e' : SQEntry}
    (hj : q[j]? = some e) (hk : q[k]? = some e') (hlt : e.seqNum < e'.seqNum) : j < k := by
  have hj' : (q.map (·.seqNum))[j]? = some e.seqNum := by rw [getElem?_map, hj]; rfl
  have hk' : (q.map (·.seqNum))[k]? = some e'.seqNum := by rw [getElem?_map, hk]; rfl
  have h1 := (lt_older_iff hq hj').mpr hlt
  have h2 := mt (lt_older_iff (n := e'.seqNum) hq hk').mp (Nat.lt_irrefl _)
  omega

namespace Ordered

/-! ### Loads -/

section
variable (h : Ordered s ls q)
include h

/-- The loads change, but keep what they have. -/
theorem changeLoads (hrel : List.Forall₂ (fun l l' => l.Kept l' ∧ l'.Sent) ls ls')
    (hl : s'.loadQueue.Holds (ls'.map some)) (hidx : s'.loadQueue.index = s.loadQueue.index)
    (hq : s'.storeQueue = s.storeQueue) : Ordered s' ls' q := by
  have hmap : ls'.map (·.seqNum) = ls.map (·.seqNum) :=
    map_seqNum_eq (hrel.imp fun _ _ h => h.1.seqNum)
  refine ⟨hl, hq ▸ h.stores, fun l' hl' hd => ?_, fun e he hcan => ?_,
    fun e he hcan l' hl' hlt => ?_,
    h.front, fun l' hl' => ?_, fun l' hl' => ?_, h.written⟩
  · obtain ⟨l, hl, hk, -⟩ := forall₂_mem_right hrel hl'
    have hdone : l.done = false := by
      by_contra hne
      rw [hk.done (by simpa using hne)] at hd
      cases hd
    rw [hk.seqNum, hk.sqIdx, hq]
    exact h.sqIdx l hl hdone
  · rw [hidx, hmap]
    exact h.lqIdx e he hcan
  · obtain ⟨l, hl, hk, -⟩ := forall₂_mem_right hrel hl'
    rw [hk.seqNum] at hlt
    exact hk.done (h.commits e he hcan l hl hlt)
  · obtain ⟨l, hl, hk, -⟩ := forall₂_mem_right hrel hl'
    rw [hk.seqNum]
    exact h.apart l hl
  · obtain ⟨l, -, -, hs⟩ := forall₂_mem_right hrel hl'
    exact hs

theorem insertLoad {x : Nat} (hls : ∀ l ∈ ls, l.seqNum < x)
    (hqs : ∀ e ∈ q, e.seqNum < x) (hfree : 0 < s.numFreeLoadEntries)
    (hs : s.insertLoad x = some s') :
    ∃ ls', Ordered s' ls' q ∧ Tracks ls ls' := by
  simp only [Lsq.insertLoad] at hs
  split at hs
  · cases hs
  · cases hs
    let ld : LqEntry :=
      { seqNum := x
        lqIdx := s.loadQueue.tail
        sqIdx := if s.stores = 0 then none else some s.storeQueue.tail }
    have hroom : (ls.map some).length + 1 < s.loadQueue.size := by
      have := h.loads.count
      simp only [numFreeLoadEntries, Lsq.loads] at hfree
      omega
    have hl : (s.loadQueue.push (some ld)).Holds ((ls ++ [ld]).map some) := by
      rw [map_append]
      exact h.loads.push hroom _
    refine ⟨ls ++ [ld], ⟨hl, h.stores, fun l hl hd => ?_, fun e he hcan => ?_,
      fun e he hcan l hl hlt => ?_, h.front, fun l hl e he => ?_, fun l hl => ?_, h.written⟩,
      fun l hl => ?_⟩
    · rcases mem_append.mp hl with hl | hl
      · exact h.sqIdx l hl hd
      · obtain rfl := mem_singleton.mp hl
        have hall : older (q.map (·.seqNum)) x = q.length := by
          rw [older_eq_length, length_map]
          simpa using hqs
        have hcount := h.stores.count
        by_cases hz : s.stores = 0
        · left
          refine ⟨if_pos hz, ?_⟩
          rw [hall]
          rw [Lsq.stores] at hz
          omega
        · right
          refine (if_neg hz).trans ?_
          rw [h.stores.tail, hall]
    · have hmap : (ls ++ [ld]).map (·.seqNum) = ls.map (·.seqNum) ++ [x] := by
        rw [map_append]
        rfl
      rw [hmap, older_append (hqs e he).le]
      exact h.lqIdx e he hcan
    · rcases mem_append.mp hl with hl | hl
      · exact h.commits e he hcan l hl hlt
      · obtain rfl := mem_singleton.mp hl
        have := hqs e he
        have hlt : x < e.seqNum := hlt
        omega
    · rcases mem_append.mp hl with hl | hl
      · exact h.apart l hl e he
      · obtain rfl := mem_singleton.mp hl
        exact (hqs e he).ne'
    · rcases mem_append.mp hl with hl | hl
      · exact h.sent l hl
      · obtain rfl := mem_singleton.mp hl
        intro ho
        cases ho
    · rcases mem_append.mp hl with hl | hl
      · exact .inl ⟨l, hl, .refl l⟩
      · obtain rfl := mem_singleton.mp hl
        exact .inr hls

/-- Loads leave the head of the queue; the stores younger than one of them can write back. -/
theorem commitLoads {youngest n : Nat} {r : Lib.Ring (Option LqEntry)}
    (hguard : ∀ e ∈ q, youngest < e.seqNum ∨ e.canWB)
    (hs : Lsq.commitLoads youngest n s.loadQueue = some r) :
    ∃ ls', Ordered { s with loadQueue := r } ls' q ∧ Tracks ls ls' := by
  obtain ⟨d, hd, hr, hle, hidx⟩ := Inv.commitLoads h.loads hs
  have hsub : ls.drop d ⊆ ls := fun l hl => mem_of_mem_drop hl
  refine ⟨ls.drop d, ⟨hr, h.stores, fun l hl => h.sqIdx l (hsub hl), fun e he hcan => ?_,
    fun e he hcan l hl => h.commits e he hcan l (hsub hl), h.front, fun l hl => h.apart l (hsub hl),
    fun l hl => h.sent l (hsub hl), h.written⟩, .of_subset hsub⟩
  have hyoung : youngest < e.seqNum :=
    (hguard e he).resolve_right (by rw [hcan]; exact Bool.noConfusion)
  have hdrop := older_drop (L := ls.map (·.seqNum)) (n := e.seqNum) (d := d)
    (by simpa using hd) fun x hx => by
    rw [← map_take] at hx
    obtain ⟨l, hl, rfl⟩ := mem_map.mp hx
    exact (hle l hl).trans_lt hyoung
  have hlen := older_le_length (L := ls.map (·.seqNum)) (n := e.seqNum)
  have hroom := h.loads.room
  rw [length_map] at hlen hroom
  show e.lqIdx = r.index _
  rw [map_drop, hidx _ (by omega), hdrop]
  exact h.lqIdx e he hcan

/-! ### Stores -/

theorem insertStore {x : Nat} {sc pf : Bool} (hls : ∀ l ∈ ls, l.seqNum < x)
    (hqs : ∀ e ∈ q, e.seqNum < x) (hfree : 0 < s.numFreeStoreEntries)
    (hs : s.insertStore x sc pf = some s') : ∃ q', Ordered s' ls q' := by
  simp only [Lsq.insertStore] at hs
  split at hs
  · cases hs
  · cases hs
    let st : SQEntry :=
      { hasInst := true
        seqNum := x
        isStoreConditional := sc
        isDataPrefetch := pf
        lqIdx := s.loadQueue.tail }
    have hroom : q.length + 1 < s.storeQueue.size := by
      have := h.stores.count
      simp only [numFreeStoreEntries, Lsq.stores] at hfree
      omega
    have hmap : (q ++ [st]).map (·.seqNum) = q.map (·.seqNum) ++ [x] := by
      rw [map_append]
      rfl
    refine ⟨q ++ [st], h.loads, h.stores.push hroom st, fun l hl hd => ?_, fun e he hcan => ?_,
      fun e he hcan l hl hlt => ?_, fun e he hcan e' he' hlt => ?_, fun l hl e he => ?_, h.sent,
      fun e he => ?_⟩
    · rw [hmap, older_append (hls l hl).le]
      exact h.sqIdx l hl hd
    · rcases mem_append.mp he with he | he
      · exact h.lqIdx e he hcan
      · obtain rfl := mem_singleton.mp he
        show s.loadQueue.tail = s.loadQueue.index (older _ x)
        rw [h.loads.tail, older_eq_length (by simpa using hls), length_map, length_map]
    · rcases mem_append.mp he with he | he
      · exact h.commits e he hcan l hl hlt
      · obtain rfl := mem_singleton.mp he
        cases hcan
    · rcases mem_append.mp he with he | he
      · rcases mem_append.mp he' with he' | he'
        · exact h.front e he hcan e' he' hlt
        · obtain rfl := mem_singleton.mp he'
          have := hqs e he
          have hlt : x < e.seqNum := hlt
          omega
      · obtain rfl := mem_singleton.mp he
        cases hcan
    · rcases mem_append.mp he with he | he
      · exact h.apart l hl e he
      · obtain rfl := mem_singleton.mp he
        exact (hls l hl).ne
    · rcases mem_append.mp he with he | he
      · exact h.written e he
      · obtain rfl := mem_singleton.mp he
        exact ⟨(length_replicate (a := (0 : UInt8))).ge, fun _ => Nat.zero_le 16,
          fun hne => absurd rfl hne⟩

/-- One store changes; if it becomes able to write back, everything before it is done. -/
theorem changeStore {p : Nat} {e : SQEntry} (hp : q[p]? = some e)
    {f : SQEntry → SQEntry} (hs : s'.storeQueue = s.storeQueue.modify (s.storeQueue.index p) f)
    (hl : s'.loadQueue = s.loadQueue) (hseq : ∀ e, (f e).seqNum = e.seqNum)
    (hlq : (f e).lqIdx = e.lqIdx)
    (hmono : e.canWB → (f e).canWB)
    (hcan : (f e).canWB → e.canWB ∨ (∀ l ∈ ls, l.seqNum < e.seqNum → l.done) ∧
      ∀ e' ∈ q, e'.seqNum < e.seqNum → e'.canWB)
    (hw : (f e).Written) : Ordered s' ls (q.modify p f) := by
  obtain ⟨hlen, rfl⟩ := List.getElem?_eq_some_iff.mp hp
  have hmem (e' : SQEntry) (he' : e' ∈ q.modify p f) : e' ∈ q ∨ e' = f q[p] := by
    obtain ⟨k, hk, rfl⟩ := mem_iff_getElem.mp he'
    rw [getElem_modify]
    split
    · next he =>
      subst he
      exact .inr rfl
    · exact .inl (getElem_mem _)
  have hmap : (q.modify p f).map (·.seqNum) = q.map (·.seqNum) := map_modify hseq
  have hin : q[p] ∈ q := getElem_mem hlen
  have hkeep (e' : SQEntry) (he' : e' ∈ q) (hc : e'.canWB = true) :
      ∀ e'' ∈ q.modify p f, e''.seqNum < e'.seqNum → e''.canWB = true := by
    intro e'' he'' hlt
    rcases hmem e'' he'' with he'' | rfl
    · exact h.front e' he' hc e'' he'' hlt
    · rw [hseq] at hlt
      exact hmono (h.front e' he' hc _ hin hlt)
  refine ⟨hl ▸ h.loads, hs ▸ h.stores.modify hlen f, fun l hl' hd => ?_, fun e' he' hc => ?_,
    fun e' he' hc l hl' hlt => ?_, fun e' he' hc => ?_, fun l hl' e' he' => ?_, h.sent,
    fun e' he' => ?_⟩
  · rw [hmap, hs]
    exact h.sqIdx l hl' hd
  · rw [hl]
    rcases hmem e' he' with he' | rfl
    · exact h.lqIdx e' he' hc
    rw [hlq, hseq]
    refine h.lqIdx _ hin (Bool.eq_false_iff.mpr fun hc' => ?_)
    rw [hmono hc'] at hc
    cases hc
  · rcases hmem e' he' with he' | rfl
    · exact h.commits e' he' hc l hl' hlt
    rw [hseq] at hlt
    rcases hcan hc with hc | ⟨hd, -⟩
    · exact h.commits _ hin hc l hl' hlt
    · exact hd l hl' hlt
  · rcases hmem e' he' with he' | rfl
    · exact hkeep e' he' hc
    rw [hseq]
    rcases hcan hc with hc | ⟨-, hd⟩
    · exact hkeep _ hin hc
    intro e'' he'' hlt
    rcases hmem e'' he'' with he'' | rfl
    · exact hd e'' he'' hlt
    · rw [hseq] at hlt
      exact absurd hlt (Nat.lt_irrefl _)
  · rcases hmem e' he' with he' | rfl
    · exact h.apart l hl' e' he'
    · rw [hseq]
      exact h.apart l hl' _ hin
  · rcases hmem e' he' with he' | rfl
    · exact h.written e' he'
    · exact hw

/-- The loop of `commitStores`, when the stores before position `k` can write back. -/
theorem commitStores {youngest k n : Nat} (hq : (q.map (·.seqNum)).Pairwise (· < ·))
    (hkn : k + n = q.length) (hbefore : ∀ j e, q[j]? = some e → j < k → e.canWB)
    (hguard : ∀ l ∈ ls, youngest < l.seqNum ∨ l.done)
    (hs : s.commitStores youngest ((List.range' k n).map s.storeQueue.index) = some s') :
    (∃ q', Ordered s' ls q') := by
  induction n generalizing s q k with
  | zero =>
    cases hs
    exact ⟨q, h⟩
  | succ n ih =>
    have hk : k < q.length := by omega
    have hat : q[k]? = some q[k] := getElem?_eq_getElem hk
    have hslot := h.stores.slot k hk
    rw [List.range'_succ, map_cons, Lsq.commitStores] at hs
    simp only [hslot] at hs
    split at hs
    · cases hs
    split at hs
    · next hcan =>
      refine ih h hq (by omega) (fun j e he hj => ?_) hs
      rcases Nat.lt_succ_iff_lt_or_eq.mp hj with hj | rfl
      · exact hbefore j e he hj
      rw [hat] at he
      cases he
      exact hcan
    · split at hs
      · cases hs
        exact ⟨q, h⟩
      rename_i hle
      let f : SQEntry → SQEntry := fun e => { e with canWB := true }
      have hw := h.written _ (getElem_mem hk)
      have hloads (l : LqEntry) (hl : l ∈ ls) (hlt : l.seqNum < q[k].seqNum) : l.done = true :=
        (hguard l hl).resolve_left (by omega)
      have hstores (e : SQEntry) (he : e ∈ q) (hlt : e.seqNum < q[k].seqNum) : e.canWB = true := by
        obtain ⟨j, hj⟩ := mem_iff_getElem?.mp he
        exact hbefore j e hj (lt_of_seqNum_lt hq hj hat hlt)
      have hchange : Ordered { s with
          storeQueue := s.storeQueue.modify (s.storeQueue.index k) f
          storesToWB := s.storesToWB + 1 } ls (q.modify k f) :=
        h.changeStore hat rfl rfl (fun _ => rfl) rfl (fun _ => rfl)
          (fun _ => .inr ⟨hloads, hstores⟩)
          { hw with }
      refine ih hchange ?_ (by simpa using by omega) (fun j e he hj => ?_) hs
      · rw [map_modify (f := (·.seqNum)) (g := f) fun _ => rfl]
        exact hq
      rw [getElem?_modify] at he
      obtain ⟨e', he', rfl⟩ := Option.map_eq_some_iff.mp he
      split
      · rfl
      · exact hbefore j e' he' (by omega)

/-- Stores leave the head of the queue after they have been written back. -/
theorem wroteBack (hw : WroteBack s s') (hs : s'.storeQueue.Holds q') : Ordered s' ls q' := by
  obtain ⟨d, hd⟩ := hw.storeQueue
  have hroom := h.stores.room
  have hcount := h.stores.count
  have hbound := hd.bound
  have hlen : q'.length + d = q.length := by
    have := hs.count
    have := hd.count
    omega
  have hplain : q'.map SQEntry.plain = (q.drop d).map SQEntry.plain := by
    refine ext_getElem (by simp; omega) fun k hk hk' => ?_
    have hk : k < q'.length := by simpa using hk
    rw [getElem_map, getElem_map, getElem_drop, ← hs.slot k hk,
      hd.index h.stores.head (by omega), hd.slot, h.stores.slot _ (by omega)]
    simp only [Nat.add_comm k d]
  have hmap : q'.map (·.seqNum) = (q.map (·.seqNum)).drop d := by
    have hseq := congrArg (List.map (·.seqNum)) hplain
    rw [map_map, map_map] at hseq
    rw [← map_drop]
    exact hseq
  have hmem (e' : SQEntry) (he' : e' ∈ q') : ∃ e ∈ q, e'.seqNum = e.seqNum ∧ e'.lqIdx = e.lqIdx ∧
      e'.canWB = e.canWB ∧ (e.Written → e'.Written) := by
    have hm := mem_map_of_mem (f := SQEntry.plain) he'
    rw [hplain] at hm
    obtain ⟨e, he, heq⟩ := mem_map.mp hm
    exact ⟨e, mem_of_mem_drop he, SQEntry.of_plain heq⟩
  refine ⟨hw.loadQueue ▸ h.loads, hs, fun l hl hdone => ?_, fun e' he' hcan => ?_,
    fun e' he' hcan l hl hlt => ?_, fun e' he' hcan e'' he'' hlt => ?_, fun l hl e' he' => ?_,
    h.sent,
    fun e' he' => ?_⟩
  · -- a store younger than the load cannot be among those that have left: the load is not done
    have hgone (k : Nat) (hk : k < d) (hk' : k < q.length) : q[k].seqNum < l.seqNum := by
      have hcan := hd.gone k hk
      rw [h.stores.slot k hk'] at hcan
      have hne := h.apart l hl _ (getElem_mem hk')
      by_contra hge
      rw [h.commits _ (getElem_mem hk') hcan l hl (by omega)] at hdone
      cases hdone
    have hold := older_drop (L := q.map (·.seqNum)) (n := l.seqNum) (d := d)
      (by rw [length_map]; omega) fun x hx => by
        rw [← map_take] at hx
        obtain ⟨e, he, rfl⟩ := mem_map.mp hx
        obtain ⟨k, hk, rfl⟩ := mem_iff_getElem.mp he
        rw [length_take] at hk
        rw [getElem_take]
        exact hgone k (by omega) (by omega)
    have hle := older_le_length (L := q.map (·.seqNum)) (n := l.seqNum)
    rw [length_map] at hle
    rw [hmap]
    rcases h.sqIdx l hl hdone with ⟨hnone, hz⟩ | hsome
    · exact .inl ⟨hnone, by omega⟩
    right
    rw [hd.index h.stores.head (by omega), hold]
    exact hsome
  · obtain ⟨e, he, hseq, hlq, hc, -⟩ := hmem e' he'
    rw [hw.loadQueue, hlq, hseq]
    exact h.lqIdx e he (hc.symm.trans hcan)
  · obtain ⟨e, he, hseq, -, hc, -⟩ := hmem e' he'
    rw [hseq] at hlt
    exact h.commits e he (hc.symm.trans hcan) l hl hlt
  · obtain ⟨e, he, hseq, -, hc, -⟩ := hmem e' he'
    obtain ⟨e₂, he₂, hseq₂, -, hc₂, -⟩ := hmem e'' he''
    rw [hseq, hseq₂] at hlt
    exact hc₂.trans (h.front e he (hc.symm.trans hcan) e₂ he₂ hlt)
  · obtain ⟨e, he, hseq, -⟩ := hmem e' he'
    rw [hseq]
    exact h.apart l hl e he
  · obtain ⟨e, he, -, -, -, hwr⟩ := hmem e' he'
    exact hwr (h.written e he)

end

end Ordered

/-! ### Squash -/

/-- The loads that are left are not younger than the squash. -/
theorem squashLoads_holds {n num : Nat} (hl : s.loadQueue.Holds (ls.map some)) (hn : ls.length ≤ n)
    (hs : squashLoads num n s = some s') :
    ∃ i ≤ ls.length, s'.loadQueue.Holds ((ls.take i).map some) ∧
      s'.loadQueue.index = s.loadQueue.index ∧ s'.storeQueue = s.storeQueue ∧
      (∀ l ∈ ls.drop i, num < l.seqNum) ∧ ∀ l, (ls.take i).getLast? = some l → l.seqNum ≤ num := by
  induction n generalizing s ls with
  | zero =>
    obtain rfl : ls = [] := length_eq_zero_iff.mp (by omega)
    cases hs
    exact ⟨0, le_rfl, hl, rfl, rfl, by simp, by simp⟩
  | succ n ih =>
    rw [squashLoads] at hs
    have hcount := hl.count
    rcases eq_nil_or_concat' ls with rfl | ⟨ls, l, rfl⟩
    · rw [if_pos (by exact hcount)] at hs
      cases hs
      exact ⟨0, le_rfl, hl, rfl, rfl, by simp, by simp⟩
    · rw [length_append, length_singleton] at hn
      rw [if_neg (by rw [Lsq.loads, hcount]; simp; omega)] at hs
      rw [map_append, map_singleton] at hl
      rw [hl.slot_prev_tail, Option.bind_some] at hs
      split at hs
      · next hlt =>
        have hc := Inv.core_dropLoad s (s.loadQueue.prev s.loadQueue.tail) l.seqNum
        have hq : (s.dropLoad (s.loadQueue.prev s.loadQueue.tail) l.seqNum).loadQueue =
            (s.loadQueue.modify (s.loadQueue.prev s.loadQueue.tail) fun _ => none).popTail :=
          (congrArg Lsq.loadQueue hc :)
        have hpop := hl.modify_popTail fun _ => none
        rw [← hq] at hpop
        obtain ⟨i, hi, hl', hidx, hst, hdrop, hlast⟩ := ih hpop (by omega) hs
        have htake : (ls ++ [l]).take i = ls.take i := take_append_of_le_length hi
        refine ⟨i, by simp; omega, by rw [htake]; exact hl', ?_, ?_, fun l' hl'' => ?_,
          by rw [htake]; exact hlast⟩
        · rw [hidx, hq]
          rfl
        · exact hst.trans (congrArg Lsq.storeQueue hc :)
        rw [drop_append_of_le_length hi] at hl''
        rcases mem_append.mp hl'' with hl'' | hl''
        · exact hdrop l' hl''
        · rw [mem_singleton.mp hl'']
          exact hlt
      · next hle =>
        cases hs
        refine ⟨(ls ++ [l]).length, le_rfl, ?_, rfl, rfl, by simp, fun l' hl' => ?_⟩
        · rw [take_length, map_append, map_singleton]
          exact hl
        rw [take_length, getLast?_concat] at hl'
        cases hl'
        omega

/-- The last of the stores that are left is not younger than the squash, or can write back. -/
theorem squashStores_holds {n num : Nat} (hq : s.storeQueue.Holds q) (hn : q.length ≤ n)
    (hs : squashStores num n s = some s') :
    ∃ j ≤ q.length, s'.storeQueue.Holds (q.take j) ∧ s'.storeQueue.index = s.storeQueue.index ∧
      s'.loadQueue = s.loadQueue ∧ (∀ e ∈ q.drop j, num < e.seqNum) ∧
      ∀ e, (q.take j).getLast? = some e → e.seqNum ≤ num ∨ e.canWB := by
  induction n generalizing s q with
  | zero =>
    obtain rfl : q = [] := length_eq_zero_iff.mp (by omega)
    cases hs
    exact ⟨0, le_rfl, hq, rfl, rfl, by simp, by simp⟩
  | succ n ih =>
    rw [squashStores] at hs
    have hcount := hq.count
    rcases eq_nil_or_concat' q with rfl | ⟨q, e, rfl⟩
    · rw [if_pos (by exact hcount)] at hs
      cases hs
      exact ⟨0, le_rfl, hq, rfl, rfl, by simp, by simp⟩
    · rw [length_append, length_singleton] at hn
      rw [if_neg (by rw [Lsq.stores, hcount]; simp; omega)] at hs
      simp only [hq.slot_prev_tail] at hs
      split at hs
      · cases hs
      split at hs
      · next hgo =>
        split at hs
        · cases hs
        rw [Bool.and_eq_true, decide_eq_true_eq] at hgo
        obtain ⟨j, hj, hq', hidx, hld, hdrop, hlast⟩ :=
          ih (hq.modify_popTail clearEntry) (by omega) hs
        have htake : (q ++ [e]).take j = q.take j := take_append_of_le_length hj
        refine ⟨j, by simp; omega, by rw [htake]; exact hq', hidx, hld, fun e' he' => ?_,
          by rw [htake]; exact hlast⟩
        rw [drop_append_of_le_length hj] at he'
        rcases mem_append.mp he' with he' | he'
        · exact hdrop e' he'
        · rw [mem_singleton.mp he']
          exact hgo.1
      · next hstop =>
        cases hs
        refine ⟨(q ++ [e]).length, le_rfl, by rw [take_length]; exact hq, rfl, rfl, by simp,
          fun e' he' => ?_⟩
        rw [take_length, getLast?_concat] at he'
        cases he'
        by_cases hcan : e.canWB = true
        · exact .inr hcan
        left
        simp only [hcan, Bool.not_false, Bool.and_true, decide_eq_true_eq] at hstop
        omega

/-- The last of an increasing list bounds it. -/
theorem le_of_getLast {α : Type} {f : α → Nat} {l : List α} (h : (l.map f).Pairwise (· < ·))
    {n : Nat}
    (hlast : ∀ x, l.getLast? = some x → f x ≤ n) {x : α} (hx : x ∈ l) : f x ≤ n := by
  rcases eq_nil_or_concat' l with rfl | ⟨l, y, rfl⟩
  · cases hx
  have hy := hlast y getLast?_concat
  rcases mem_append.mp hx with hx | hx
  · rw [map_append] at h
    have := (pairwise_append.mp h).2.2 (f x) (mem_map_of_mem hx) (f y) (by simp)
    omega
  · rw [mem_singleton.mp hx]
    exact hy

theorem Ordered.squash (h : Ordered s ls q) (hls : (ls.map (·.seqNum)).Pairwise (· < ·))
    (hqs : (q.map (·.seqNum)).Pairwise (· < ·)) {num : Nat} (hs : s.squash num = some s') :
    ∃ ls' q', Ordered s' ls' q' ∧ Tracks ls ls' := by
  obtain ⟨s₁, hs₁, hs⟩ := Option.bind_eq_some_iff.mp hs
  have hn : ls.length ≤ s.loads.toNat := by
    rw [Lsq.loads, h.loads.count]
    simp
  obtain ⟨i, -, hl, hidx, hst, hdrop, hlast⟩ := squashLoads_holds h.loads hn hs₁
  have hstores : s₁.storeQueue.Holds q := hst ▸ h.stores
  have hm : q.length ≤ s₁.stores.toNat := by
    rw [Lsq.stores, hstores.count]
    simp
  obtain ⟨j, -, hq, hidx', hld, hdrop', hlast'⟩ := squashStores_holds (by exact hstores) hm hs
  have hlsub : ls.take i ⊆ ls := fun l hl => mem_of_mem_take hl
  have hqsub : q.take j ⊆ q := fun e he => mem_of_mem_take he
  have hloads (l : LqEntry) (hl : l ∈ ls.take i) : l.seqNum ≤ num :=
    le_of_getLast (f := (·.seqNum)) (by rw [map_take]; exact hls.sublist (take_sublist i _))
      hlast hl
  have hyoung (e : SQEntry) (he : e ∈ q.take j) (hcan : e.canWB = false) : e.seqNum ≤ num := by
    have hsorted : ((q.take j).map (·.seqNum)).Pairwise (· < ·) := by
      rw [map_take]
      exact hqs.sublist (take_sublist j _)
    refine le_of_getLast (f := (·.seqNum)) hsorted
      (fun e₀ h₀ => (hlast' e₀ h₀).resolve_right fun hc => ?_) he
    -- otherwise the last one can write back, and so can the stores before it
    have he₀ : e₀ ∈ q := hqsub (mem_of_getLast? h₀)
    have hle : e.seqNum ≤ e₀.seqNum :=
      le_of_getLast (f := (·.seqNum)) hsorted
        (fun x hx => by rw [h₀] at hx; cases hx; exact le_rfl) he
    rcases hle.lt_or_eq with hlt | heq
    · rw [h.front e₀ he₀ hc e (hqsub he) hlt] at hcan
      cases hcan
    · rw [inj_on_of_nodup_map hqs.nodup (hqsub he) he₀ heq, hc] at hcan
      cases hcan
  refine ⟨ls.take i, q.take j, ⟨hld ▸ hl, hq, fun l hl hd => ?_, fun e he hcan => ?_,
    fun e he hcan l hl => h.commits e (hqsub he) hcan l (hlsub hl),
    fun e he hcan e' he' => h.front e (hqsub he) hcan e' (hqsub he'),
    fun l hl e he => h.apart l (hlsub hl) e (hqsub he), fun l hl => h.sent l (hlsub hl),
    fun e he => h.written e (hqsub he)⟩, .of_subset hlsub⟩
  · have hold := older_take (L := q.map (·.seqNum)) (n := l.seqNum) (d := j) fun x hx => by
      rw [← map_drop] at hx
      obtain ⟨e, he, rfl⟩ := mem_map.mp hx
      exact ((hloads l hl).trans_lt (hdrop' e he)).le
    rw [hidx', map_take, hold]
    show _ ∨ _ = some (s₁.storeQueue.index _)
    rw [hst]
    exact h.sqIdx l (hlsub hl) hd
  · have hold := older_take (L := ls.map (·.seqNum)) (n := e.seqNum) (d := i) fun x hx => by
      rw [← map_drop] at hx
      obtain ⟨l, hl, rfl⟩ := mem_map.mp hx
      exact ((hyoung e he hcan).trans_lt (hdrop l hl)).le
    rw [hld, map_take, hold]
    show _ = s₁.loadQueue.index _
    rw [hidx]
    exact h.lqIdx e (hqsub he) hcan

end Lsq

end SdoCore
