import SdoCore.Taint
import SdoCore.RobGone

/-! A squash over several cycles. `squash` starts at the tail of the list, every `doSquash`
goes on for at most `squashWidth` instructions, and a further `squash` with an older bound
starts over before the first one has finished. When the last one is done it has marked
exactly the instructions younger than its bound, in as many calls as their number asks for,
and the buffer's `tail` is the youngest instruction (`squash_marks_exactly`). -/

namespace SdoCore

open List
open Lib

/-! ## The tail -/

/-- The buffer with its iterator to the youngest instruction, for one active thread. -/
structure TailedRob extends Rob where
  tail : Option Nat

namespace Rob

/-- Whether `doSquash` ends with `updateTail`: the loop has passed the last instruction of
the list, and has not returned at the first one. -/
def robTailUpdate (r : Rob) (robTailUpdate : Bool) : Nat → Bool
  | 0 => robTailUpdate
  | n + 1 =>
    match r.squashIt with
    | some k =>
      if r.squashedSeqNum < k then
        if r.instList.head? = some k then false
        else
          Rob.robTailUpdate { r with squashIt := prevOf k r.instList }
            (robTailUpdate || r.instList.getLast? = some k) n
      else robTailUpdate
    | none => robTailUpdate

end Rob

namespace TailedRob

/-- With one active thread, the last instruction of its list. -/
def updateTail (t : TailedRob) : TailedRob := { t with tail := t.instList.getLast? }

/-- The end of `doSquash`. -/
def finish (t : TailedRob) (robTailUpdate : Bool) (r : Rob) : TailedRob :=
  if robTailUpdate then updateTail { t with toRob := r } else { t with toRob := r }

def doSquash (c : Config) (t : TailedRob) : Option TailedRob :=
  match t.squashIt with
  | none => none
  | some k =>
    let robTailUpdate :=
      if k < t.squashedSeqNum then false else t.toRob.robTailUpdate false c.squashWidth
    (t.toRob.doSquash c).map (t.finish robTailUpdate)

def squash (c : Config) (t : TailedRob) (n : Nat) : Option TailedRob :=
  match t.instList.getLast? with
  | none => some t
  | some k =>
    doSquash c { t with doneSquashing := false, squashedSeqNum := n, squashIt := some k }

/-- `insertInst` sets the tail; `retireHead` leaves it, even if it was the one retired. -/
def step (c : Config) (t : TailedRob) : RobEvent → Option TailedRob
  | .insertInst x inst => (t.toRob.step c (.insertInst x inst)).map fun r => ⟨r, some x⟩
  | .squash n => t.squash c n
  | .doSquash => t.doSquash c
  | e => (t.toRob.step c e).map fun r => { t with toRob := r }

end TailedRob

def tailMachine (c : Config) : Machine TailedRob RobEvent where
  start t := (robMachine c).start t.toRob
  step := TailedRob.step c

namespace TailedRob

theorem finish_tail (t : TailedRob) (b : Bool) (r : Rob) :
    (t.finish b r).toRob = r ∧
      ((t.finish b r).tail = t.tail ∨ (t.finish b r).tail = r.instList.getLast?) := by
  cases b with
  | true => exact ⟨rfl, .inr rfl⟩
  | false => exact ⟨rfl, .inl rfl⟩

variable {c : Config} {t t' : TailedRob}

theorem doSquash_toRob (h : t.doSquash c = some t') :
    t.toRob.doSquash c = some t'.toRob ∧ (t'.tail = t.tail ∨ t'.tail = t'.instList.getLast?) := by
  unfold doSquash at h
  split at h
  · cases h
  obtain ⟨r, hr, rfl⟩ := Option.map_eq_some_iff.mp h
  obtain ⟨hrob, htail⟩ := finish_tail t _ r
  rw [hrob]
  exact ⟨hr, htail⟩

theorem squash_toRob {n : Nat} (h : t.squash c n = some t') :
    t.toRob.squash c n = some t'.toRob ∧ (t'.tail = t.tail ∨ t'.tail = t'.instList.getLast?) := by
  cases hl : t.instList.getLast? with
  | none =>
    rw [squash, hl] at h
    cases h
    rw [Rob.squash, hl]
    exact ⟨rfl, .inl rfl⟩
  | some k =>
    rw [squash, hl] at h
    rw [Rob.squash, hl]
    exact doSquash_toRob h

theorem step_toRob {e : RobEvent} (h : t.step c e = some t') :
    t.toRob.step c e = some t'.toRob := by
  cases e with
  | squash n => exact (squash_toRob h).1
  | doSquash => exact (doSquash_toRob h).1
  | insertInst x inst =>
    obtain ⟨r, hr, rfl⟩ := Option.map_eq_some_iff.mp h
    exact hr
  | retireHead =>
    obtain ⟨r, hr, rfl⟩ := Option.map_eq_some_iff.mp h
    exact hr
  | setStatus x st =>
    cases h
    rfl
  | cycle =>
    cases h
    rfl

/-- The tail designates the youngest instruction, whenever there is one. -/
def TailOk (t : TailedRob) : Prop := t.instList ≠ [] → t.tail = t.instList.getLast?

theorem TailOk.of_same (h : t.TailOk) (hl : t'.instList = t.instList)
    (ht : t'.tail = t.tail ∨ t'.tail = t'.instList.getLast?) : t'.TailOk := by
  intro hne
  rcases ht with ht | ht
  · rw [ht, hl]
    exact h (hl ▸ hne)
  · exact ht

theorem TailOk.step {e : RobEvent} (hi : t.toRob.Inv) (h : t.TailOk) (hs : t.step c e = some t') :
    t'.TailOk := by
  have hrob := step_toRob hs
  cases e with
  | insertInst x inst =>
    obtain ⟨r, hr, rfl⟩ := Option.map_eq_some_iff.mp hs
    simp only [Rob.step] at hr
    split at hr
    · intro _
      have hl := (Rob.insertInst_spec hr).instList
      simp [hl]
    · cases hr
  | retireHead =>
    obtain ⟨r, hr, rfl⟩ := Option.map_eq_some_iff.mp hs
    simp only [Rob.step] at hr
    split at hr
    · cases hr
    obtain ⟨d, rest, hret⟩ := Rob.retireHead_spec hi.nodup hr
    intro hne
    have hrest : rest ≠ [] := hret.instList' ▸ hne
    have htail := h (by rw [hret.instList]; exact cons_ne_nil _ _)
    rw [hret.instList, List.getLast?_cons_of_ne_nil hrest] at htail
    rw [hret.instList']
    exact htail
  | squash n => exact h.of_same (hi.squash hrob).2.instList (squash_toRob hs).2
  | doSquash => exact h.of_same (hi.doSquash hrob).2.instList (doSquash_toRob hs).2
  | setStatus x st =>
    cases hs
    exact h
  | cycle =>
    cases hs
    exact h.of_same (Rob.endCycle_shape c t.toRob).instList (.inl rfl)

theorem ok_of_reach (h : (tailMachine c).Reach t) :
    t.toRob.Inv ∧ t.TailOk := by
  refine h.invariant (I := fun t => t.toRob.Inv ∧ t.TailOk) (fun t h₀ => ?_)
    fun t e t' hi _ hs => ⟨hi.1.step (step_toRob hs), hi.2.step hi.1 hs⟩
  exact ⟨Rob.inv_start (c := c) h₀, fun hne => absurd h₀.1 hne⟩

end TailedRob

/-! ## The walk -/

/-- What the walk leaves of an instruction: it can drain out of the pipeline. -/
def DynInst.drains (i : DynInst) : Prop :=
  i.squashed = true ∧ i.status.canCommit = true ∧ i.status.hasPendingSquash = false

namespace Rob

/-- The instructions the walk at `k` has still to visit before the bound `n`. -/
def left (r : Rob) (n k : Nat) : Nat := r.instList.countP fun y => n < y ∧ y ≤ k

variable {k : Nat} {l : List Nat} {r : Rob} {c : Config}

theorem countP_add_one {p q : Nat → Bool} (hn : l.Nodup) (hk : k ∈ l)
    (hp : ∀ y ∈ l, p y = (q y || y == k)) (hq : q k = false) : l.countP p = l.countP q + 1 := by
  have hcount : l.countP p = l.countP q + l.count k := by
    clear hn hk
    induction l with
    | nil => rfl
    | cons a l ih =>
      have ha := hp a (by simp)
      have hih := ih fun y hy => hp y (mem_cons_of_mem _ hy)
      by_cases hak : a = k
      · subst hak
        simp [ha, hq, hih]
        omega
      · simp [countP_cons, ha, hih, hak]
        omega
  rw [hcount, count_eq_one_of_mem hn hk]

theorem prevOf_lt {j : Nat} (hs : l.Pairwise (· < ·)) (hp : prevOf k l = some j) : j < k := by
  induction l with
  | nil => cases hp
  | cons a l ih =>
    obtain ⟨ha, hs'⟩ := pairwise_cons.mp hs
    match l with
    | [] => cases hp
    | b :: l =>
      rw [prevOf] at hp
      split at hp
      · next hb =>
        cases hp
        exact hb ▸ ha b (by simp)
      · exact ih hs' hp

/-- The walk as `doSquash` finds it: at `k`, with everything younger drained. -/
structure At (r : Rob) (k : Nat) : Prop where
  inv : Inv r
  going : r.doneSquashing = false
  squashIt : r.squashIt = some k
  drained : ∀ y ∈ r.instList, k < y → (r.insts y).drains

/-- What a call of `doSquash` that may still squash `j` instructions has done when it
returns. -/
structure Walked (r r' : Rob) (k j : Nat) : Prop where
  older : ∀ x, x ≤ r.squashedSeqNum → r'.insts x = r.insts x
  finished : r'.doneSquashing = true →
    ∀ y ∈ r.instList, r.squashedSeqNum < y → (r'.insts y).drains
  goesOn : r'.doneSquashing = false → ∃ k', At r' k' ∧ r.squashedSeqNum < k' ∧
    r.left r.squashedSeqNum k' + j = r.left r.squashedSeqNum k

theorem At.finish {j : Nat} (h : At r k) (hk : k ≤ r.squashedSeqNum) :
    Walked r r.finishSquash k j where
  older _ _ := rfl
  finished _ y hy hlt := h.drained y hy (Nat.lt_of_le_of_lt hk hlt)
  goesOn hd := by cases hd

/-- One turn that does not end at the head. -/
theorem At.next (h : At r k) (hk : r.squashedSeqNum < k) (hhead : r.instList.head? ≠ some k) :
    ∃ i, At { r.modify k squashInst with squashIt := prevOf k r.instList } i ∧
      r.left r.squashedSeqNum i + 1 = r.left r.squashedSeqNum k := by
  have hkl := (h.inv.squashing k h.squashIt).1
  obtain ⟨i, hi, hpi, hall⟩ := prevOf_spec h.inv.sorted hkl hhead
  have hik : i < k := prevOf_lt h.inv.sorted hpi
  have hinv := (h.inv.squashOne h.squashIt (prevOf k r.instList) r.doneSquashing
    (fun j hj => by
      cases hpi.symm.trans hj
      exact ⟨hi, hall⟩)
    (fun hd => by rw [h.going] at hd; cases hd)).1
  refine ⟨i, ⟨hinv, h.going, hpi, fun y hy hlt => ?_⟩, ?_⟩
  · by_cases hyk : y = k
    · subst hyk
      simp [modify, squashInst, DynInst.drains]
    · have hky : k < y := Nat.lt_of_le_of_ne (hall y hy hlt) (Ne.symm hyk)
      simpa [modify, hyk] using h.drained y hy hky
  · symm
    refine countP_add_one h.inv.nodup hkl (fun y hy => ?_) (by simp; omega)
    have hiy := hall y hy
    rw [Bool.eq_iff_iff]
    simp only [decide_eq_true_eq, Bool.or_eq_true, beq_iff_eq]
    omega

theorem At.doSquashLoop (h : At r k) (j : Nat) :
    Walked r (r.doSquashLoop j) k j := by
  induction j generalizing r k with
  | zero =>
    rw [Rob.doSquashLoop, h.squashIt]
    dsimp only
    split
    · next hle => exact h.finish hle
    rename_i hlt
    refine ⟨fun _ _ => rfl, fun hd => ?_, fun _ => ⟨k, h, Nat.not_le.mp hlt, rfl⟩⟩
    rw [h.going] at hd
    cases hd
  | succ j ih =>
    rw [Rob.doSquashLoop, h.squashIt]
    dsimp only
    split
    · next hlt =>
      have holder : ∀ x, x ≤ r.squashedSeqNum → (r.modify k squashInst).insts x = r.insts x := by
        intro x hx
        have hxk : x ≠ k := by omega
        simp [modify, hxk]
      split
      · next hhead =>
        refine ⟨holder, fun _ y hy _ => ?_, fun hd => by cases hd⟩
        -- `k` is the first of the list: everything else is younger
        by_cases hyk : y = k
        · subst hyk
          simp [modify, squashInst, finishSquash, DynInst.drains]
        obtain ⟨rest, hl⟩ := head?_eq_some_iff.mp hhead
        have hsorted := h.inv.sorted
        change r.instList = k :: rest at hl
        have hky : k < y := by
          rw [hl] at hy hsorted
          exact (pairwise_cons.mp hsorted).1 y ((mem_cons.mp hy).resolve_left hyk)
        simpa [modify, finishSquash, hyk] using h.drained y hy hky
      · next hhead =>
        obtain ⟨i, hat, hleft⟩ := h.next hlt hhead
        have hw := ih hat
        refine ⟨fun x hx => (hw.older x hx).trans (holder x hx), hw.finished, fun hd => ?_⟩
        obtain ⟨k', hat', hk', hl'⟩ := hw.goesOn hd
        refine ⟨k', hat', hk', ?_⟩
        change r.left r.squashedSeqNum k' + j = r.left r.squashedSeqNum i at hl'
        omega
    · next hle => exact h.finish (Nat.not_lt.mp hle)

theorem At.doSquash (h : At r k) :
    ∃ r', r.doSquash c = some r' ∧ Walked r r' k c.squashWidth := by
  unfold Rob.doSquash
  rw [h.squashIt]
  dsimp only
  split
  · next hlt => exact ⟨_, rfl, h.finish (Nat.le_of_lt hlt)⟩
  · exact ⟨_, rfl, h.doSquashLoop _⟩

/-! ## Starting over -/

/-- How many listed instructions a squash to `n` has to mark. -/
def younger (r : Rob) (n : Nat) : Nat := r.instList.countP fun y => n < y

theorem le_getLast (hs : l.Pairwise (· < ·)) (hk : l.getLast? = some k) :
    ∀ y ∈ l, y ≤ k := by
  obtain ⟨pre, rfl⟩ := getLast?_eq_some_iff.mp hk
  intro y hy
  rcases mem_append.mp hy with hy | hy
  · exact Nat.le_of_lt ((pairwise_append.mp hs).2.2 y hy k (by simp))
  · exact Nat.le_of_eq (mem_singleton.mp hy)

theorem Inv.at_last (h : Inv r) (hk : r.instList.getLast? = some k) (n : Nat) :
    At { r with doneSquashing := false, squashedSeqNum := n, squashIt := some k } k ∧
      r.left n k = r.younger n := by
  have hle := le_getLast h.sorted hk
  refine ⟨⟨h.squashFrom hk n, rfl, rfl, fun y hy hlt => ?_⟩, ?_⟩
  · exact absurd (hle y hy) (Nat.not_le.mpr hlt)
  refine countP_congr fun y hy => ?_
  have := hle y hy
  simp only [decide_eq_true_eq]
  omega

/-- After `m` calls of `doSquash` for the bound `n`: done, or with `m` times the width of
the younger instructions behind it. -/
structure Called (c : Config) (r r' : Rob) (n m : Nat) : Prop where
  inv : Inv r'
  instList : r'.instList = r.instList
  older : ∀ x, x ≤ n → r'.insts x = r.insts x
  finished : r'.doneSquashing = true → ∀ y ∈ r.instList, n < y → (r'.insts y).drains
  goesOn : r'.doneSquashing = false → r'.squashedSeqNum = n ∧ ∃ k, At r' k ∧ n < k ∧
    r.left n k + m * c.squashWidth = r.younger n

theorem At.called {r' r'' : Rob} {n m : Nat} (h : At r' k) (hl : r'.instList = r.instList)
    (hb : r'.squashedSeqNum = n) (holder : ∀ x, x ≤ n → r'.insts x = r.insts x)
    (hleft : r.left n k + m * c.squashWidth = r.younger n) (hr : r'.doSquash c = some r'') :
    Called c r r'' n (m + 1) := by
  obtain ⟨r₁, hr₁, hw⟩ := h.doSquash (c := c)
  cases hr₁.symm.trans hr
  obtain ⟨hinv, hsq⟩ := h.inv.doSquash hr
  subst hb
  refine ⟨hinv, hsq.instList.trans hl, fun x hx => (hw.older x hx).trans (holder x hx), ?_, ?_⟩
  · rw [← hl]
    exact hw.finished
  intro hd
  obtain ⟨k', hat, hk', hl'⟩ := hw.goesOn hd
  refine ⟨doSquash_bound hr, k', hat, hk', ?_⟩
  rw [left, hl] at hl'
  rw [left, hl] at hl'
  change r.left _ _ + _ = r.left _ _ at hl'
  rw [Nat.succ_mul]
  omega

/-- Starting a squash; the list is not empty unless there is nothing to do. -/
theorem Inv.called {r' r'' : Rob} {n : Nat} (h : Inv r') (hl : r'.instList = r.instList)
    (hnil : r.instList = [] → r'.doneSquashing)
    (holder : ∀ x, x ≤ n → r'.insts x = r.insts x) (hr : r'.squash c n = some r'') :
    Called c r r'' n 1 := by
  rcases squash_cases hr with ⟨hempty, rfl⟩ | ⟨k, hk, hdo⟩
  · rw [hl] at hempty
    refine ⟨h, hl, holder, fun _ y hy => ?_, fun hd => ?_⟩
    · rw [hempty] at hy
      cases hy
    · rw [hnil hempty] at hd
      cases hd
  · obtain ⟨hat, hleft⟩ := h.at_last hk n
    refine hat.called (m := 0) hl rfl holder ?_ hdo
    rw [left, younger, hl] at hleft
    simpa [left, younger] using hleft

end Rob

/-! ## Sequences of calls -/

/-- From `t`: a `squash`, calls of `doSquash`, and further squashes with a bound no younger
than the last one, each before the one in progress has finished. `n` is the last bound and
`m` the number of calls of `doSquash` since its squash, the one `squash` makes included. -/
inductive SquashCalls (c : Config) (t : TailedRob) : Nat → Nat → TailedRob → Prop
  | squash {n : Nat} {t' : TailedRob} : t.squash c n = some t' → SquashCalls c t n 1 t'
  | doSquash {n m : Nat} {t' t'' : TailedRob} :
    SquashCalls c t n m t' → t'.doSquash c = some t'' → SquashCalls c t n (m + 1) t''
  | again {n n' m : Nat} {t' t'' : TailedRob} :
    SquashCalls c t n m t' → t'.doneSquashing = false → n' ≤ n → t'.squash c n' = some t'' →
      SquashCalls c t n' 1 t''

/-- `j` more calls. -/
def TailedRob.doSquashes (c : Config) (t : TailedRob) : Nat → Option TailedRob
  | 0 => some t
  | j + 1 =>
    match t.doSquash c with
    | some t' => t'.doSquashes c j
    | none => none

/-- The calls a squash to `n` may take: one for every `squashWidth` younger instructions,
rounded up, and one more. -/
def Rob.squashCalls (c : Config) (r : Rob) (n : Nat) : Nat :=
  (r.younger n + c.squashWidth - 1) / c.squashWidth + 1

namespace SquashCalls

variable {c : Config} {t t' : TailedRob} {n m : Nat}

theorem called (hi : t.toRob.Inv) (hidle : t.doneSquashing) (h : SquashCalls c t n m t') :
    Rob.Called c t.toRob t'.toRob n m := by
  induction h with
  | squash hs =>
    exact hi.called rfl (fun _ => hidle) (fun _ _ => rfl) (TailedRob.squash_toRob hs).1
  | @doSquash n m t' t'' _ hs ih =>
    have hrob := (TailedRob.doSquash_toRob hs).1
    have hgoing : t'.doneSquashing = false := by
      cases hd : t'.doneSquashing with
      | false => rfl
      | true => simp [Rob.doSquash, ih.inv.done hd] at hrob
    obtain ⟨hb, k, hat, -, hleft⟩ := ih.goesOn hgoing
    exact hat.called ih.instList hb ih.older hleft hrob
  | @again n n' m t' t'' _ hgoing hle hs ih =>
    obtain ⟨-, k, hat, -, -⟩ := ih.goesOn hgoing
    refine ih.inv.called ih.instList (fun hnil => ?_) (fun x hx => ih.older x (by omega))
      (TailedRob.squash_toRob hs).1
    have hk := (hat.inv.squashing k hat.squashIt).1
    rw [ih.instList, hnil] at hk
    cases hk

/-- As long as the squash goes on, fewer calls than allowed were made. -/
theorem lt_of_going (hw : 0 < c.squashWidth) (h : Rob.Called c t.toRob t'.toRob n m)
    (hd : t'.doneSquashing = false) : m + 1 < t.squashCalls c n := by
  obtain ⟨-, k, hat, hk, hleft⟩ := h.goesOn hd
  have hpos : 0 < t.left n k := by
    refine countP_pos_iff.mpr ⟨k, ?_, by simp [hk]⟩
    rw [← h.instList]
    exact (hat.inv.squashing k hat.squashIt).1
  have hlt : m + 1 ≤ (t.younger n + c.squashWidth - 1) / c.squashWidth := by
    rw [Nat.le_div_iff_mul_le hw, Nat.succ_mul]
    omega
  exact Nat.succ_le_succ hlt

theorem le_squashCalls (hw : 0 < c.squashWidth) (hi : t.toRob.Inv) (hidle : t.doneSquashing)
    (h : SquashCalls c t n m t') : m ≤ t.squashCalls c n := by
  cases h with
  | squash _ => exact Nat.succ_le_succ (Nat.zero_le _)
  | again _ _ _ _ => exact Nat.succ_le_succ (Nat.zero_le _)
  | @doSquash n m t' t'' h hs =>
    cases hd : t'.doneSquashing with
    | false => exact Nat.le_of_lt (lt_of_going hw (h.called hi hidle) hd)
    | true => simp [TailedRob.doSquash, (h.called hi hidle).inv.done hd] at hs

/-- The squash ends within the calls it may take. -/
theorem finishes (hw : 0 < c.squashWidth) (hi : t.toRob.Inv) (hidle : t.doneSquashing)
    (h : SquashCalls c t n m t') : ∃ j t'', m + j ≤ t.squashCalls c n ∧
      t'.doSquashes c j = some t'' ∧ t''.doneSquashing := by
  -- by induction on the calls that are left
  induction hd : t.squashCalls c n - m generalizing m t' with
  | zero =>
    cases hdone : t'.doneSquashing with
    | true => exact ⟨0, t', h.le_squashCalls hw hi hidle, rfl, hdone⟩
    | false =>
      have := lt_of_going hw (h.called hi hidle) hdone
      omega
  | succ d ih =>
    cases hdone : t'.doneSquashing with
    | true => exact ⟨0, t', h.le_squashCalls hw hi hidle, rfl, hdone⟩
    | false =>
      obtain ⟨-, k, hat, -, -⟩ := (h.called hi hidle).goesOn hdone
      obtain ⟨r, hr, -⟩ := hat.doSquash (c := c)
      obtain ⟨t₁, ht₁⟩ : ∃ t₁, t'.doSquash c = some t₁ := by
        unfold TailedRob.doSquash
        rw [hat.squashIt, hr]
        exact ⟨_, rfl⟩
      obtain ⟨j, t'', hle, hrun, hfin⟩ := ih (h.doSquash ht₁) (by omega)
      refine ⟨j + 1, t'', by omega, ?_, hfin⟩
      rw [TailedRob.doSquashes, ht₁]
      exact hrun

theorem tailOk (hi : t.toRob.Inv) (hidle : t.doneSquashing) (ht : t.TailOk)
    (h : SquashCalls c t n m t') : t'.TailOk := by
  induction h with
  | squash hs => exact ht.step (e := .squash _) hi hs
  | doSquash h hs ih => exact ih.step (e := .doSquash) (h.called hi hidle).inv hs
  | again h _ _ hs ih => exact ih.step (e := .squash _) (h.called hi hidle).inv hs

end SquashCalls

/-- When a squash over several cycles is done, exactly the instructions younger than its last
bound are marked; it takes no more calls than their number asks for, and the tail is the
youngest instruction. -/
theorem squash_marks_exactly {c : Config} (hw : 0 < c.squashWidth) {t t' : TailedRob} {n m : Nat}
    (h : (tailMachine c).Reach t) (hidle : t.doneSquashing = true)
    (hcalls : SquashCalls c t n m t') :
    t'.instList = t.instList ∧
      (t'.doneSquashing = true → ∀ x ∈ t'.instList, n < x → (t'.insts x).drains) ∧
      (∀ x, x ≤ n → t'.insts x = t.insts x) ∧
      m ≤ t.squashCalls c n ∧
      (∃ j t'', m + j ≤ t.squashCalls c n ∧ t'.doSquashes c j = some t'' ∧
        t''.doneSquashing = true) ∧
      (t'.instList ≠ [] → t'.tail = t'.instList.getLast?) := by
  obtain ⟨hi, ht⟩ := TailedRob.ok_of_reach h
  have hcalled := hcalls.called hi hidle
  refine ⟨hcalled.instList, fun hd => ?_, hcalled.older, hcalls.le_squashCalls hw hi hidle,
    hcalls.finishes hw hi hidle, hcalls.tailOk hi hidle ht⟩
  rw [hcalled.instList]
  exact hcalled.finished hd

/-! ## Five instructions, two at a time -/

def narrowConfig : Config := { spectreConfig with squashWidth := 2 }

def emptyTailedRob : TailedRob := ⟨emptyRob, none⟩

def fiveInsts : List RobEvent :=
  [1, 2, 3, 4, 5].map fun x => .insertInst x { staticInst := plainInst, srcs := [], dests := [] }

def fiveRob : TailedRob :=
  ((tailMachine narrowConfig).run emptyTailedRob fiveInsts).getD emptyTailedRob

/-- A squash to 2 has marked 5 and 4 when one to 1 takes over, and starts from 5 again. -/
theorem squash_marks_exactly_nested :
    ∃ t t', fiveRob.squash narrowConfig 2 = some t ∧ t.squash narrowConfig 1 = some t' ∧
      t'.doneSquashing = false ∧ fiveRob.squashCalls narrowConfig 1 = 3 ∧
        ∃ j t'', 1 + j ≤ 3 ∧ t'.doSquashes narrowConfig j = some t'' ∧
          t''.doneSquashing = true := by
  have hreach : (tailMachine narrowConfig).Reach fiveRob :=
    Machine.reach_run (s := emptyTailedRob) ⟨rfl, rfl, rfl⟩ (Machine.run_getD (by decide +kernel))
  have h1 := Machine.eq_some_getD (o := fiveRob.squash narrowConfig 2) (d := fiveRob)
    (by decide +kernel)
  have h2 := Machine.eq_some_getD (d := fiveRob)
    (o := ((fiveRob.squash narrowConfig 2).getD fiveRob).squash narrowConfig 1) (by decide +kernel)
  have hcalls := SquashCalls.again (.squash h1) (by decide +kernel) (by decide) h2
  have hall := squash_marks_exactly (by decide) hreach (by decide +kernel) hcalls
  have hthree : fiveRob.squashCalls narrowConfig 1 = 3 := by decide +kernel
  exact ⟨_, _, h1, h2, by decide +kernel, hthree, hthree ▸ hall.2.2.2.2.1⟩

end SdoCore
