import Mathlib.Data.List.Nodup
import SdoCore.Rob

/-! Runs of one thread's reorder buffer, and the invariant they keep: the list is
in program order, producer links point to older instructions that are still in
the buffer or have committed, and while a squash is in progress everything
younger than `squashIt` is already squashed. -/

namespace SdoCore

open List
open Lib
open Function (update_of_ne update_self)

/-! ## Runs -/

/-- `cycle` is the end of a cycle (`markCompletedInsts`); `setStatus` is any
change the other stages make to an instruction's status. -/
inductive RobEvent
  | insertInst (x : Nat) (inst : DynInst)
  | retireHead
  | squash (n : Nat)
  | doSquash
  | setStatus (x : Nat) (st : Status)
  | cycle

namespace Rob

/-- What commit and rename promise about an instruction they insert: it is the
youngest, it is new, and no squash is in progress. -/
def Insertable (r : Rob) (x : Nat) (inst : DynInst) : Prop :=
  r.doneSquashing = true ∧ (∀ y ∈ r.instList, y < x) ∧ inst.committed = false ∧
    ∀ s ∈ inst.srcs, s.argProducer = none

instance (r : Rob) (x : Nat) (inst : DynInst) : Decidable (r.Insertable x inst) :=
  inferInstanceAs (Decidable (_ ∧ _ ∧ _ ∧ _))

/-- `markCompletedInsts` after the completed instructions are marked. -/
def endCycle (c : Config) (r : Rob) : Rob :=
  if c.stt then (r.updateVisibleState c).computeTaint else r.updateVisibleState c

/-- The head is not retired from under the squash iterator. -/
def step (c : Config) (r : Rob) : RobEvent → Option Rob
  | .insertInst x inst => if r.Insertable x inst then r.insertInst c x inst else none
  | .retireHead => if r.squashIt.isSome ∧ r.squashIt = r.instList.head? then none else r.retireHead
  | .squash n => r.squash c n
  | .doSquash => r.doSquash c
  | .setStatus x st => some (r.modify x fun i => { i with status := st })
  | .cycle => some (r.endCycle c)

end Rob

def robMachine (c : Config) : Machine Rob RobEvent where
  start r := r.instList = [] ∧ r.squashIt = none ∧ r.doneSquashing = true
  step := Rob.step c

/-! ## What an operation leaves alone -/

/-- The part of an instruction the visibility walk, the taint pass and the other
stages do not change. -/
def DynInst.shape (i : DynInst) : StaticInst × List SrcReg × List DestReg × Bool × Bool :=
  (i.staticInst, i.srcs, i.dests, i.squashed, i.committed)

/-- The part of a status that a squash does not change. -/
def Status.kept (st : Status) : Status := { st with hasPendingSquash := false, canCommit := false }

/-- The part of an instruction that neither the other stages nor a squash change. -/
def DynInst.fixed (i : DynInst) : DynInst := { i with status := {}, squashed := false }

namespace Rob

/-- Same list, same squash, same shapes. -/
structure SameShape (r r' : Rob) : Prop where
  instList : r'.instList = r.instList
  squashIt : r'.squashIt = r.squashIt
  doneSquashing : r'.doneSquashing = r.doneSquashing
  shape : ∀ x, (r'.insts x).shape = (r.insts x).shape

section
variable {r r' : Rob} (h : SameShape r r') (x : Nat)
include h

theorem SameShape.staticInst : (r'.insts x).staticInst = (r.insts x).staticInst :=
  congrArg (·.1) (h.shape x)

theorem SameShape.srcs : (r'.insts x).srcs = (r.insts x).srcs := congrArg (·.2.1) (h.shape x)

theorem SameShape.dests : (r'.insts x).dests = (r.insts x).dests :=
  congrArg (·.2.2.1) (h.shape x)

theorem SameShape.squashed : (r'.insts x).squashed = (r.insts x).squashed :=
  congrArg (·.2.2.2.1) (h.shape x)

theorem SameShape.committed : (r'.insts x).committed = (r.insts x).committed :=
  congrArg (·.2.2.2.2) (h.shape x)

end

variable {r r' : Rob} {c : Config}

theorem SameShape.trans {r'' : Rob} (h : SameShape r r') (h' : SameShape r' r'') :
    SameShape r r'' :=
  ⟨h'.instList.trans h.instList, h'.squashIt.trans h.squashIt,
    h'.doneSquashing.trans h.doneSquashing, fun x => (h'.shape x).trans (h.shape x)⟩

/-- What the walk does to one instruction: at most one of its two updates, and nothing
to those it does not visit. -/
theorem visibleWalk_induct {P : DynInst → Prop} {y : Nat}
    (hstop : ∀ i, P i → P { i with robUpdateVisibleState := true })
    (hmark : ∀ p i, P i → P (markVisible c p i)) (p : Prev) (m : Nat → DynInst) (xs : List Nat)
    (h : P (m y)) : P (visibleWalk c p m xs y) := by
  induction xs generalizing p m with
  | nil => exact h
  | cons x xs ih =>
    rw [visibleWalk]
    split
    · by_cases hy : y = x
      · subst hy
        rw [update_self]
        exact hstop _ h
      · rwa [update_of_ne hy]
    · apply ih
      by_cases hy : y = x
      · subst hy
        rw [update_self]
        exact hmark _ _ h
      · rwa [update_of_ne hy]

theorem visibleWalk_shape (c : Config) (p : Prev) (m : Nat → DynInst) (xs : List Nat) (y : Nat) :
    (visibleWalk c p m xs y).shape = (m y).shape :=
  visibleWalk_induct (P := fun i => i.shape = (m y).shape) (fun _ h => h)
    (fun _ _ h => h) p m xs rfl

theorem taintInst_shape (m : Nat → DynInst) (x : Nat) :
    (taintInst m x).shape = (m x).shape := by
  unfold taintInst
  dsimp only
  split <;> rfl

theorem updateVisibleState_shape (c : Config) (r : Rob) : SameShape r (r.updateVisibleState c) :=
  ⟨rfl, rfl, rfl, visibleWalk_shape c _ r.insts r.instList⟩

theorem computeTaint_shape (r : Rob) : SameShape r r.computeTaint :=
  ⟨rfl, rfl, rfl, sweep_keeps DynInst.shape taintInst taintInst_shape r.insts r.instList⟩

theorem endCycle_shape (c : Config) (r : Rob) : SameShape r (r.endCycle c) := by
  unfold endCycle
  split
  · exact (updateVisibleState_shape c r).trans (computeTaint_shape _)
  · exact updateVisibleState_shape c r

theorem setStatus_shape (r : Rob) (x : Nat) (st : Status) :
    SameShape r (r.modify x fun i => { i with status := st }) := by
  refine ⟨rfl, rfl, rfl, fun y => ?_⟩
  by_cases hy : y = x
  · subst hy
    simp only [modify, update_self]
    rfl
  · simp only [modify, update_of_ne hy]

/-! ## The invariant -/

structure Inv (r : Rob) : Prop where
  sorted : r.instList.Pairwise (· < ·)
  uncommitted : ∀ x ∈ r.instList, (r.insts x).committed = false
  linked : ∀ x ∈ r.instList, ∀ s ∈ (r.insts x).srcs, ∀ p, s.argProducer = some p →
    s.srcRegIdx.regIdx ≠ 16 ∧ p < x ∧ (p ∈ r.instList ∨ (r.insts p).committed = true)
  squashing : ∀ k, r.squashIt = some k →
    k ∈ r.instList ∧ ∀ y ∈ r.instList, k < y → (r.insts y).squashed = true
  done : r.doneSquashing = true → r.squashIt = none

theorem Inv.sameShape (h : Inv r) (hs : SameShape r r') : Inv r' where
  sorted := by rw [hs.instList]; exact h.sorted
  uncommitted x hx := by
    rw [hs.committed]
    exact h.uncommitted x (hs.instList ▸ hx)
  linked x hx s hsrc p hp := by
    rw [hs.srcs] at hsrc
    rw [hs.instList, hs.committed]
    exact h.linked x (hs.instList ▸ hx) s hsrc p hp
  squashing k hk := by
    rw [hs.squashIt] at hk
    obtain ⟨hmem, hy⟩ := h.squashing k hk
    rw [hs.instList]
    exact ⟨hmem, fun y hyl hky => by rw [hs.squashed]; exact hy y hyl hky⟩
  done hd := by
    rw [hs.squashIt]
    exact h.done (hs.doneSquashing ▸ hd)

/-! ## Squashing -/

/-- `r'` is `r` with more instructions squashed, and an instruction is only
squashed together with everything younger. -/
structure Squashes (r r' : Rob) : Prop where
  instList : r'.instList = r.instList
  fixed : ∀ x, (r'.insts x).fixed = (r.insts x).fixed
  kept : ∀ x, (r'.insts x).status.kept = (r.insts x).status.kept
  untouched : ∀ x, (r'.insts x).squashed = false → r'.insts x = r.insts x
  mono : ∀ x, (r.insts x).squashed = true → (r'.insts x).squashed = true
  suffix : ∀ x ∈ r.instList, (r'.insts x).squashed = false →
    ∀ p ∈ r.instList, p < x → (r'.insts p).squashed = (r.insts p).squashed

section
variable {r r' : Rob} (h : Squashes r r') (x : Nat)
include h

theorem Squashes.srcs : (r'.insts x).srcs = (r.insts x).srcs :=
  (congrArg DynInst.srcs (h.fixed x) :)

theorem Squashes.dests : (r'.insts x).dests = (r.insts x).dests :=
  (congrArg DynInst.dests (h.fixed x) :)

theorem Squashes.committed : (r'.insts x).committed = (r.insts x).committed :=
  (congrArg DynInst.committed (h.fixed x) :)

end

theorem Squashes.refl_of (h : r'.insts = r.insts) (hl : r'.instList = r.instList) :
    Squashes r r' := by
  constructor <;> simp_all

theorem Squashes.trans {r'' : Rob} (h : Squashes r r') (h' : Squashes r' r'') :
    Squashes r r'' where
  instList := h'.instList.trans h.instList
  fixed x := (h'.fixed x).trans (h.fixed x)
  kept x := (h'.kept x).trans (h.kept x)
  untouched x hx := by
    have heq := h'.untouched x hx
    rw [heq] at hx ⊢
    exact h.untouched x hx
  mono x hx := h'.mono x (h.mono x hx)
  suffix x hx hsq p hp hlt := by
    have hsq' : (r'.insts x).squashed = false := h'.untouched x hsq ▸ hsq
    rw [h'.suffix x (h.instList ▸ hx) hsq p (h.instList ▸ hp) hlt]
    exact h.suffix x hx hsq' p hp hlt

theorem prevOf_spec {k : Nat} {l : List Nat} (hs : l.Pairwise (· < ·)) (hk : k ∈ l)
    (hh : l.head? ≠ some k) : ∃ j ∈ l, prevOf k l = some j ∧ ∀ y ∈ l, j < y → k ≤ y := by
  induction l with
  | nil => simp at hk
  | cons a l ih =>
    have hka : k ∈ l := by
      rcases mem_cons.mp hk with rfl | hk
      · simp at hh
      · exact hk
    obtain ⟨ha, hs'⟩ := pairwise_cons.mp hs
    match l, hka with
    | b :: l, hka =>
      by_cases hb : b = k
      · subst hb
        refine ⟨a, by simp, by simp [prevOf], ?_⟩
        intro y hy hlt
        rcases mem_cons.mp hy with rfl | hy
        · omega
        rcases mem_cons.mp hy with rfl | hy
        · exact Nat.le_refl _
        · exact Nat.le_of_lt ((pairwise_cons.mp hs').1 y hy)
      · obtain ⟨j, hj, hpj, hall⟩ := ih hs' hka (by simpa using hb)
        refine ⟨j, mem_cons_of_mem _ hj, by simpa [prevOf, hb] using hpj, ?_⟩
        intro y hy hlt
        rcases mem_cons.mp hy with rfl | hy
        · exact absurd (ha j hj) (by omega)
        · exact hall y hy hlt

/-- One turn of the loop: squash at the iterator and move it. -/
theorem Inv.squashOne (h : Inv r) {k : Nat} (hk : r.squashIt = some k) (it : Option Nat) (d : Bool)
    (hit : ∀ j, it = some j → j ∈ r.instList ∧ ∀ y ∈ r.instList, j < y → k ≤ y)
    (hd : d → it = none) :
    Inv { r.modify k squashInst with squashIt := it, doneSquashing := d } ∧
      Squashes r { r.modify k squashInst with squashIt := it, doneSquashing := d } := by
  obtain ⟨hkl, hyoung⟩ := h.squashing k hk
  have hself : ((r.modify k squashInst).insts k).squashed = true := by simp [modify, squashInst]
  have hother : ∀ x, x ≠ k → (r.modify k squashInst).insts x = r.insts x := by
    intro x hx; simp [modify, hx]
  have hfixed : ∀ x, ((r.modify k squashInst).insts x).fixed = (r.insts x).fixed := by
    intro x
    by_cases hx : x = k
    · subst hx; simp [modify, squashInst, DynInst.fixed]
    · rw [hother x hx]
  have hsrcs := fun x => congrArg DynInst.srcs (hfixed x)
  have hcom := fun x => congrArg DynInst.committed (hfixed x)
  refine ⟨⟨h.sorted, ?_, ?_, ?_, hd⟩, ⟨rfl, hfixed, ?_, ?_, ?_, ?_⟩⟩
  · intro x hx
    exact (hcom x).trans (h.uncommitted x hx)
  · intro x hx s hs p hp
    have hlink := h.linked x hx s (hsrcs x ▸ hs) p hp
    exact ⟨hlink.1, hlink.2.1, hlink.2.2.imp_right fun hc => (hcom p).trans hc⟩
  · intro j hj
    obtain ⟨hjl, hjy⟩ := hit j hj
    refine ⟨hjl, fun y hy hlt => ?_⟩
    by_cases hyk : y = k
    · rw [hyk]; exact hself
    · rw [hother y hyk]
      exact hyoung y hy (Nat.lt_of_le_of_ne (hjy y hy hlt) (Ne.symm hyk))
  · intro x
    by_cases hx : x = k
    · subst hx; simp [modify, squashInst, Status.kept]
    · rw [hother x hx]
  · intro x hx
    by_cases hxk : x = k
    · rw [hxk, hself] at hx
      cases hx
    · exact hother x hxk
  · intro x hx
    by_cases hxk : x = k
    · rw [hxk]; exact hself
    · rw [hother x hxk]; exact hx
  · intro x hx hsq p hp hlt
    -- had `p` been squashed now, the younger `x` would have been squashed before
    have hpk : p ≠ k := by
      rintro rfl
      have hxk : x ≠ p := by omega
      rw [hother x hxk, hyoung x hx hlt] at hsq
      exact absurd hsq (by simp)
    rw [hother p hpk]

theorem Inv.finishSquash (h : Inv r) : Inv r.finishSquash :=
  { h with squashing := fun _ hk => absurd hk (by simp [Rob.finishSquash]), done := fun _ => rfl }

theorem Inv.doSquashLoop (h : Inv r) (n : Nat) :
    Inv (r.doSquashLoop n) ∧ Squashes r (r.doSquashLoop n) := by
  induction n generalizing r with
  | zero =>
    rw [Rob.doSquashLoop]
    split
    · split
      · exact ⟨h.finishSquash, .refl_of rfl rfl⟩
      · exact ⟨h, .refl_of rfl rfl⟩
    · exact ⟨h, .refl_of rfl rfl⟩
  | succ n ih =>
    rw [Rob.doSquashLoop]
    split
    · next k hk =>
      split
      · dsimp only
        split
        · exact h.squashOne hk none true (by simp) (fun _ => rfl)
        rename_i hhead
        have hnd : r.doneSquashing ≠ true := fun hd => by simp [h.done hd] at hk
        obtain ⟨j, hj, hpj, hall⟩ := prevOf_spec h.sorted (h.squashing k hk).1 hhead
        obtain ⟨h1, h2⟩ := h.squashOne hk (prevOf k r.instList) r.doneSquashing
          (fun i hi => by
            cases hpj.symm.trans hi
            exact ⟨hj, hall⟩)
          (fun hd => absurd hd hnd)
        obtain ⟨h3, h4⟩ := ih h1
        exact ⟨h3, h2.trans h4⟩
      · exact ⟨h.finishSquash, .refl_of rfl rfl⟩
    · exact ⟨h, .refl_of rfl rfl⟩

theorem Inv.doSquash (h : Inv r) (hr : r.doSquash c = some r') :
    Inv r' ∧ Squashes r r' := by
  unfold Rob.doSquash at hr
  split at hr
  · cases hr
  split at hr
  · cases hr
    exact ⟨h.finishSquash, .refl_of rfl rfl⟩
  · cases hr
    exact h.doSquashLoop _

/-- Nothing is younger than the tail a squash starts from. -/
theorem Inv.squashFrom (h : Inv r) {t : Nat} (ht : r.instList.getLast? = some t) (n : Nat) :
    Inv { r with doneSquashing := false, squashedSeqNum := n, squashIt := some t } := by
  refine ⟨h.sorted, h.uncommitted, h.linked, ?_, by simp⟩
  intro k hk
  cases hk
  obtain ⟨l, hl⟩ := getLast?_eq_some_iff.mp ht
  refine ⟨by simp [hl], fun y hy hlt => ?_⟩
  have hsorted := h.sorted
  rw [hl, pairwise_append] at hsorted
  simp only [hl, mem_append, mem_singleton] at hy
  rcases hy with hy | rfl
  · exact absurd (hsorted.2.2 y hy t (by simp)) (by omega)
  · exact absurd hlt (Nat.lt_irrefl _)

theorem Inv.squash {n : Nat} (h : Inv r) (hr : r.squash c n = some r') :
    Inv r' ∧ Squashes r r' := by
  unfold Rob.squash at hr
  split at hr
  · cases hr
    exact ⟨h, .refl_of rfl rfl⟩
  rename_i t ht
  obtain ⟨h1, h2⟩ := (h.squashFrom ht n).doSquash hr
  have hsame : Squashes r
      { r with doneSquashing := false, squashedSeqNum := n, squashIt := some t } :=
    .refl_of rfl rfl
  exact ⟨h1, hsame.trans h2⟩

/-! ## Retirement -/

theorem clearArgProducer_srcs {h : Nat} {i : DynInst} {s : SrcReg}
    (hs : s ∈ (clearArgProducer h i).srcs) :
    ∃ s₀ ∈ i.srcs, s.srcRegIdx = s₀.srcRegIdx ∧ s.flat = s₀.flat ∧
      (s.argProducer = s₀.argProducer ∨ s₀.argProducer = some h ∧ s.argProducer = none) := by
  obtain ⟨s₀, hs₀, rfl⟩ := mem_map.mp hs
  refine ⟨s₀, hs₀, ?_⟩
  split
  · next hp => exact ⟨rfl, rfl, .inr ⟨hp, rfl⟩⟩
  · exact ⟨rfl, rfl, .inl rfl⟩

/-- What retirement of the head `h` does. -/
structure Retires (r r' : Rob) (h : Nat) (rest : List Nat) : Prop where
  instList : r.instList = h :: rest
  instList' : r'.instList = rest
  squashIt : r'.squashIt = r.squashIt
  squashedSeqNum : r'.squashedSeqNum = r.squashedSeqNum
  doneSquashing : r'.doneSquashing = r.doneSquashing
  ready : (r.insts h).readyToCommit = true
  head : r'.insts h = clearArgProducers { r.insts h with inROB := false, committed := true }
  others : ∀ x, x ≠ h → r'.insts x = r.insts x ∨ r'.insts x = clearArgProducer h (r.insts x)

section
variable {r r' : Rob} {h : Nat} {rest : List Nat} (hr : Retires r r' h rest) (x : Nat)
include hr

theorem Retires.committed : (r'.insts x).committed = ((r.insts x).committed || x == h) := by
  by_cases hx : x = h
  · subst hx
    simp [hr.head, clearArgProducers]
  · rcases hr.others x hx with he | he <;> simp [he, clearArgProducer, hx]

theorem Retires.squashed : (r'.insts x).squashed = (r.insts x).squashed := by
  by_cases hx : x = h
  · subst hx
    simp [hr.head, clearArgProducers]
  · rcases hr.others x hx with he | he <;> simp [he, clearArgProducer]

theorem Retires.dests : (r'.insts x).dests = (r.insts x).dests := by
  by_cases hx : x = h
  · subst hx
    simp [hr.head, clearArgProducers]
  · rcases hr.others x hx with he | he <;> simp [he, clearArgProducer]

/-- A source that loses its link had the head as its producer. -/
theorem Retires.srcs (hx : x ≠ h) : ∀ s ∈ (r'.insts x).srcs, ∃ s₀ ∈ (r.insts x).srcs,
    s.srcRegIdx = s₀.srcRegIdx ∧ s.flat = s₀.flat ∧
      (s.argProducer = s₀.argProducer ∨ s₀.argProducer = some h ∧ s.argProducer = none) := by
  intro s hs
  rcases hr.others x hx with he | he
  · rw [he] at hs
    exact ⟨s, hs, rfl, rfl, .inl rfl⟩
  · rw [he] at hs
    exact clearArgProducer_srcs hs

end

theorem retireHead_spec (hn : r.instList.Nodup) (hr : r.retireHead = some r') :
    ∃ h rest, Retires r r' h rest := by
  unfold retireHead at hr
  split at hr
  · cases hr
  rename_i h rest hl
  split at hr
  · next hready =>
    rw [hl, nodup_cons] at hn
    have htail : rest.tail.Nodup := hn.2.tail
    have hh : h ∉ rest.tail := fun hm => hn.1 (mem_of_mem_tail hm)
    cases hr
    refine ⟨h, rest, hl, rfl, rfl, rfl, rfl, hready, ?_, fun x hx => ?_⟩
    · simp [sweep_of_notMem, hh]
    simp only [update_of_ne hx, sweep_local _ _ htail]
    split
    · exact .inr rfl
    · exact .inl rfl
  · cases hr

theorem Inv.nodup (h : Inv r) : r.instList.Nodup :=
  h.sorted.imp fun hlt => Nat.ne_of_lt hlt

theorem Inv.retireHead {h : Nat} {rest : List Nat} (hi : Inv r) (hit : r.squashIt ≠ some h)
    (hr : Retires r r' h rest) : Inv r' := by
  have hsorted := hi.sorted
  rw [hr.instList, pairwise_cons] at hsorted
  have hne : ∀ x ∈ rest, x ≠ h := fun x hx he => by
    have := hsorted.1 x hx
    omega
  have hold : ∀ x ∈ rest, x ∈ r.instList := fun x hx => by
    rw [hr.instList]; exact mem_cons_of_mem _ hx
  refine ⟨hr.instList' ▸ hsorted.2, ?_, ?_, ?_, ?_⟩
  · intro x hx
    rw [hr.instList'] at hx
    simp [hr.committed, hi.uncommitted x (hold x hx), hne x hx]
  · intro x hx s hs p hp
    rw [hr.instList'] at hx
    obtain ⟨s₀, hs₀, hidx, -, hlink⟩ := hr.srcs x (hne x hx) s hs
    rcases hlink with hlink | ⟨-, hnone⟩
    · obtain ⟨h16, hlt, hmem⟩ := hi.linked x (hold x hx) s₀ hs₀ p (hlink ▸ hp)
      refine ⟨hidx ▸ h16, hlt, ?_⟩
      rw [hr.committed, hr.instList']
      rcases hmem with hmem | hc
      · rw [hr.instList] at hmem
        rcases mem_cons.mp hmem with rfl | hmem
        · exact .inr (by simp)
        · exact .inl hmem
      · exact .inr (by simp [hc])
    · rw [hnone] at hp
      cases hp
  · intro k hk
    rw [hr.squashIt] at hk
    obtain ⟨hkl, hy⟩ := hi.squashing k hk
    rw [hr.instList']
    rw [hr.instList] at hkl
    rcases mem_cons.mp hkl with rfl | hkl
    · exact absurd hk hit
    refine ⟨hkl, fun y hyl hlt => ?_⟩
    rw [hr.squashed]
    exact hy y (hold y hyl) hlt
  · intro hd
    rw [hr.squashIt]
    exact hi.done (hr.doneSquashing ▸ hd)

/-! ## Insertion -/

/-- The youngest instruction in the buffer that satisfies `P`. -/
def youngest (r : Rob) (P : DynInst → Bool) : Option Nat :=
  r.instList.reverse.find? fun p => P (r.insts p)

theorem linkSrc_fold (m : Nat → DynInst) (l : List Nat) (s : SrcReg) :
    l.foldl (fun s p => linkSrc p (m p) s) s =
      { s with
        argProducer := if s.srcRegIdx.regIdx = 16 then s.argProducer
          else
            (l.reverse.find? fun p => (m p).writesPhys s.renamedSrcRegIdx).or s.argProducer } := by
  induction l generalizing s with
  | nil => simp
  | cons p l ih =>
    rw [foldl_cons, ih, linkSrc]
    by_cases h16 : s.srcRegIdx.regIdx = 16
    · simp [h16]
    · cases hw : (m p).writesPhys s.renamedSrcRegIdx
      · simp [h16, find?_append, hw]
      · simp [h16, find?_append, hw]

theorem linkSrcs_eq (r : Rob) (srcs : List SrcReg) :
    r.linkSrcs srcs = srcs.map fun s => { s with argProducer :=
      if s.srcRegIdx.regIdx = 16 then s.argProducer
      else (r.youngest fun i => i.writesPhys s.renamedSrcRegIdx).or s.argProducer } := by
  have hfold : ∀ (l : List Nat) (srcs : List SrcReg),
      l.foldl (fun srcs p => srcs.map (linkSrc p (r.insts p))) srcs =
        srcs.map fun s => l.foldl (fun s p => linkSrc p (r.insts p) s) s := by
    intro l
    induction l with
    | nil => intro srcs; simp
    | cons p l ih =>
      intro srcs
      rw [foldl_cons, ih, map_map]
      rfl
  rw [linkSrcs, hfold]
  exact map_congr_left fun s _ => linkSrc_fold r.insts r.instList s

/-- A link set by insertion: the youngest instruction that was given the same
physical register, whatever its state. -/
theorem mem_linkSrcs {srcs : List SrcReg} (hnew : ∀ s ∈ srcs, s.argProducer = none) {s : SrcReg}
    (hs : s ∈ r.linkSrcs srcs) :
    ∃ s₀ ∈ srcs, s.srcRegIdx = s₀.srcRegIdx ∧ s.flat = s₀.flat ∧
      s.argProducer = if s₀.srcRegIdx.regIdx = 16 then none
        else r.youngest fun i => i.writesPhys s₀.renamedSrcRegIdx := by
  rw [linkSrcs_eq] at hs
  obtain ⟨s₀, hs₀, rfl⟩ := mem_map.mp hs
  refine ⟨s₀, hs₀, rfl, rfl, ?_⟩
  simp only [hnew s₀ hs₀, Option.or_none]

structure Inserts (r r' : Rob) (x : Nat) (inst : DynInst) : Prop where
  instList : r'.instList = r.instList ++ [x]
  squashIt : r'.squashIt = r.squashIt
  squashedSeqNum : r'.squashedSeqNum = r.squashedSeqNum
  doneSquashing : r'.doneSquashing = r.doneSquashing
  self : r'.insts x = { inst with srcs := r.linkSrcs inst.srcs, inROB := true }
  other : ∀ y, y ≠ x → r'.insts y = r.insts y

theorem insertInst_spec {x : Nat} {inst : DynInst} (hr : r.insertInst c x inst = some r') :
    Inserts r r' x inst := by
  unfold insertInst at hr
  split at hr
  · cases hr
    exact ⟨rfl, rfl, rfl, rfl, by simp, fun y hy => by simp [hy]⟩
  · cases hr

theorem mem_of_youngest {P : DynInst → Bool} {p : Nat} (h : r.youngest P = some p) :
    p ∈ r.instList := by
  have := mem_of_find?_eq_some h
  simpa using this

theorem Inv.insertInst {x : Nat} {inst : DynInst} (hi : Inv r) (hins : r.Insertable x inst)
    (hr : Inserts r r' x inst) : Inv r' := by
  obtain ⟨hdone, hyoung, hcom, hnew⟩ := hins
  have hne : ∀ y ∈ r.instList, y ≠ x := fun y hy he => by
    have := hyoung y hy
    omega
  have hsplit : ∀ y ∈ r'.instList, y ∈ r.instList ∨ y = x := by
    intro y hy
    simpa [hr.instList] using hy
  refine ⟨?_, ?_, ?_, ?_, ?_⟩
  · rw [hr.instList, pairwise_append]
    refine ⟨hi.sorted, by simp, ?_⟩
    intro y hy z hz
    rw [mem_singleton.mp hz]
    exact hyoung y hy
  · intro y hy
    rcases hsplit y hy with hy | rfl
    · rw [hr.other y (hne y hy)]
      exact hi.uncommitted y hy
    · rw [hr.self]
      exact hcom
  · intro y hy s hs p hp
    rcases hsplit y hy with hy | rfl
    · rw [hr.other y (hne y hy)] at hs
      obtain ⟨h16, hlt, hmem⟩ := hi.linked y hy s hs p hp
      have hpx : p ≠ x := by
        have := hyoung y hy
        omega
      rw [hr.other p hpx, hr.instList]
      exact ⟨h16, hlt, hmem.imp_left fun hm => mem_append_left _ hm⟩
    · rw [hr.self] at hs
      obtain ⟨s₀, -, hidx, -, hlink⟩ := mem_linkSrcs hnew hs
      rw [hp] at hlink
      split at hlink
      · cases hlink
      rename_i h16
      have hpm := mem_of_youngest hlink.symm
      refine ⟨hidx ▸ h16, hyoung p hpm, .inl ?_⟩
      rw [hr.instList]
      exact mem_append_left _ hpm
  · intro k hk
    rw [hr.squashIt, hi.done hdone] at hk
    cases hk
  · intro _
    rw [hr.squashIt]
    exact hi.done hdone

/-! ## Every run keeps the invariant -/

theorem inv_start (h : (robMachine c).start r) : Inv r := by
  obtain ⟨hl, hit, -⟩ := h
  refine ⟨by simp [hl], by simp [hl], by simp [hl], ?_, fun _ => hit⟩
  intro k hk
  rw [hit] at hk
  cases hk

/-- The effects a step can have. -/
inductive Effect (r r' : Rob) : Prop
  | inserts (x : Nat) (inst : DynInst) : r.Insertable x inst → Inserts r r' x inst → Effect r r'
  | retires (h : Nat) (rest : List Nat) : r.squashIt ≠ some h → Retires r r' h rest → Effect r r'
  | squashes : Squashes r r' → Inv r' → Effect r r'
  | sameShape : SameShape r r' → Effect r r'

theorem effect_of_step {e : RobEvent} (hi : Inv r) (hs : r.step c e = some r') : Effect r r' := by
  cases e with
  | insertInst x inst =>
    simp only [step] at hs
    split at hs
    · next hins => exact .inserts x inst hins (insertInst_spec hs)
    · cases hs
  | retireHead =>
    simp only [step] at hs
    split at hs
    · cases hs
    rename_i hit
    obtain ⟨h, rest, hret⟩ := retireHead_spec hi.nodup hs
    refine .retires h rest (fun he => hit ⟨by simp [he], ?_⟩) hret
    rw [he, hret.instList]
    rfl
  | squash n =>
    obtain ⟨h1, h2⟩ := hi.squash hs
    exact .squashes h2 h1
  | doSquash =>
    obtain ⟨h1, h2⟩ := hi.doSquash hs
    exact .squashes h2 h1
  | setStatus x st =>
    cases hs
    exact .sameShape (setStatus_shape r x st)
  | cycle =>
    cases hs
    exact .sameShape (endCycle_shape c r)

theorem Inv.step {e : RobEvent} (hi : Inv r) (hs : r.step c e = some r') : Inv r' := by
  cases effect_of_step hi hs with
  | inserts x inst hins hr => exact hi.insertInst hins hr
  | retires h rest hit hr => exact hi.retireHead hit hr
  | squashes _ h => exact h
  | sameShape h => exact hi.sameShape h

theorem inv_of_reach {C : Rob → RobEvent → Prop} (h : (robMachine c).ReachWhen C r) : Inv r :=
  h.invariant (fun _ hs => inv_start hs) fun _ _ _ hi _ hs => hi.step hs

end Rob

end SdoCore
