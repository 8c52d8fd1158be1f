import SdoCore.Taint

/-! Visibility and taint over time. The flag `prevBrsResolved` is set only when every older
branch is ready to commit (`visibleWalk_prevBrsResolved`), it stays, and so does
`isUnsquashable` (`Settled`). Taint is only ever taken away: an instruction whose taint has
been computed once is not tainted later unless it was tainted then
(`TaintClosed.endCycle_mono`). -/

namespace SdoCore

open Lib
open List
open Function (update_of_ne)

namespace Rob

variable {c : Config} {r r' : Rob}

/-! ## Visibility -/

/-- The branch, if it is one, lets younger instructions pass. -/
def branchReady (i : DynInst) : Prop := i.staticInst.isControl = true → i.readyToCommit = true

variable {p : Prev} {i : DynInst} {m : Nat → DynInst} {xs : List Nat} {y x : Nat}

theorem branchReady_of_after (h : (p.after i).brsResolved) :
    p.brsResolved ∧ branchReady i := by
  simp only [Prev.after, Bool.and_eq_true, Bool.not_eq_true', Bool.and_eq_false_iff,
    Bool.or_eq_false_iff] at h
  refine ⟨h.1, fun hctl => ?_⟩
  rcases h.2 with hn | hn
  · rw [hctl] at hn
    cases hn
  · simpa using hn.1.1

theorem visibleWalk_prevBrsResolved (hs : xs.Pairwise (· < ·))
    (hy : (visibleWalk c p m xs y).prevBrsResolved) :
    (m y).prevBrsResolved ∨
      (p.brsResolved ∧ ∀ b ∈ xs, b < y → branchReady (m b)) := by
  induction xs generalizing p m with
  | nil => exact .inl hy
  | cons x xs ih =>
    obtain ⟨hx, hs⟩ := pairwise_cons.mp hs
    rw [visibleWalk] at hy
    split at hy
    · refine .inl ?_
      by_cases hyx : y = x
      · subst hyx
        rwa [Function.update_self] at hy
      · rwa [update_of_ne hyx] at hy
    · rcases ih hs hy with hold | ⟨hp, hall⟩
      · by_cases hyx : y = x
        · subst hyx
          rw [Function.update_self] at hold
          rcases Bool.or_eq_true _ _ ▸ hold with hold | hold
          · exact .inl hold
          refine .inr ⟨hold, fun b hb hlt => ?_⟩
          rcases mem_cons.mp hb with rfl | hb
          · omega
          · exact absurd (hx b hb) (by omega)
        · rw [update_of_ne hyx] at hold
          exact .inl hold
      · obtain ⟨hp, hready⟩ := branchReady_of_after hp
        refine .inr ⟨hp, fun b hb hlt => ?_⟩
        rcases mem_cons.mp hb with rfl | hb
        · exact hready
        have hbx : b ≠ x := by
          have := hx b hb
          omega
        have := hall b hb hlt
        rwa [update_of_ne hbx] at this

/-- An instruction past its visibility point has the flag that put it there. -/
def Settled (c : Config) (i : DynInst) : Prop :=
  i.isUnsquashable = true → atVisibilityPoint c i = true

theorem settled_markVisible (p : Prev) (i : DynInst) : Settled c (markVisible c p i) := fun h => h

theorem markVisible_unsquashable (hi : Settled c i) (h : i.isUnsquashable) :
    (markVisible c p i).isUnsquashable := by
  have hv := hi h
  change atVisibilityPoint c (setPrevFlags p { i with robUpdateVisibleState := true }) = true
  unfold atVisibilityPoint at hv ⊢
  unfold setPrevFlags
  split
  · next hc =>
    rw [if_pos hc] at hv
    simp only [Bool.or_eq_true, Bool.and_eq_true] at hv ⊢
    rcases hv with ⟨hf, hv⟩ | ⟨hf, hv⟩
    · exact .inl ⟨hf, .inl hv⟩
    · exact .inr ⟨hf, .inl hv⟩
  · rfl

theorem visibleWalk_settled (h : Settled c (m y)) : Settled c (visibleWalk c p m xs y) :=
  visibleWalk_induct (P := Settled c) (fun _ h => h) (fun p i _ => settled_markVisible p i) p m xs h

theorem visibleWalk_unsquashable (hs : Settled c (m y)) (h : (m y).isUnsquashable) :
    (visibleWalk c p m xs y).isUnsquashable :=
  (visibleWalk_induct (P := fun i => Settled c i ∧ i.isUnsquashable = true) (fun _ h => h)
    (fun p i h => ⟨settled_markVisible p i, markVisible_unsquashable h.1 h.2⟩) p m xs ⟨hs, h⟩).2

/-! ## The end of a cycle, field by field -/

/-- What neither the visibility walk nor the taint pass changes. -/
def untimed (i : DynInst) : DynInst :=
  { i with
    robUpdateVisibleState := false, prevInstsCompleted := false, prevBrsResolved := false
    prevInstsCommitted := false, prevBrsCommitted := false, isUnsquashable := false
    hasExplicitFlow := false, isAddrTainted := false, isArgsTainted := false
    isDestTainted := false, taintPropDone := false }

theorem taintInst_untimed (m : Nat → DynInst) (x : Nat) :
    untimed (taintInst m x) = untimed (m x) := by
  unfold taintInst
  dsimp only
  split <;> rfl

theorem endCycle_untimed (c : Config) (r : Rob) (x : Nat) :
    untimed ((r.endCycle c).insts x) = untimed (r.insts x) := by
  have hvis : untimed ((r.updateVisibleState c).insts x) = untimed (r.insts x) :=
    visibleWalk_induct (P := fun i => untimed i = untimed (r.insts x)) (fun _ h => h)
      (fun _ _ h => h) _ r.insts r.instList rfl
  unfold endCycle
  split
  · exact (sweep_keeps untimed taintInst taintInst_untimed _ _ x).trans hvis
  · exact hvis

theorem visibleWalk_of_notMem (hy : y ∉ xs) : visibleWalk c p m xs y = m y := by
  induction xs generalizing p m with
  | nil => rfl
  | cons x xs ih =>
    obtain ⟨hne, hy⟩ := not_or.mp (mt mem_cons.mpr hy)
    rw [visibleWalk]
    split
    · rw [update_of_ne hne]
    · rw [ih hy, update_of_ne hne]

/-- Only instructions in the buffer are looked at. -/
theorem endCycle_outside (c : Config) {r : Rob} (hx : x ∉ r.instList) :
    (r.endCycle c).insts x = r.insts x := by
  unfold endCycle
  split
  · exact (sweep_of_notMem taintInst _ hx).trans (visibleWalk_of_notMem hx)
  · exact visibleWalk_of_notMem hx

theorem endCycle_status (c : Config) (r : Rob) (x : Nat) :
    ((r.endCycle c).insts x).status = (r.insts x).status :=
  (congrArg DynInst.status (endCycle_untimed c r x) :)

theorem endCycle_static (c : Config) (r : Rob) (x : Nat) :
    ((r.endCycle c).insts x).staticInst = (r.insts x).staticInst :=
  (congrArg DynInst.staticInst (endCycle_untimed c r x) :)

theorem endCycle_squashed (c : Config) (r : Rob) (x : Nat) :
    ((r.endCycle c).insts x).squashed = (r.insts x).squashed :=
  (congrArg DynInst.squashed (endCycle_untimed c r x) :)

theorem endCycle_predPC (c : Config) (r : Rob) (x : Nat) :
    ((r.endCycle c).insts x).predPC = (r.insts x).predPC :=
  (congrArg DynInst.predPC (endCycle_untimed c r x) :)

theorem endCycle_bound (c : Config) (r : Rob) :
    (r.endCycle c).squashedSeqNum = r.squashedSeqNum := by
  unfold endCycle
  split <;> rfl

theorem endCycle_gone (c : Config) (r : Rob) (x : Nat) : (r.endCycle c).gone x = r.gone x := by
  rw [gone, gone, doomed, doomed, endCycle_squashed, endCycle_bound,
    (endCycle_shape c r).doneSquashing]

/-- The pass does not touch the visibility flags. -/
theorem computeTaint_visible (r : Rob) (x : Nat) :
    ((r.computeTaint).insts x).prevBrsResolved = (r.insts x).prevBrsResolved ∧
      ((r.computeTaint).insts x).prevInstsCompleted = (r.insts x).prevInstsCompleted ∧
      ((r.computeTaint).insts x).isUnsquashable = (r.insts x).isUnsquashable := by
  have h := sweep_keeps
    (fun i : DynInst => (i.prevBrsResolved, i.prevInstsCompleted, i.isUnsquashable)) taintInst
    (fun m y => by unfold taintInst; dsimp only; split <;> rfl) r.insts r.instList x
  exact ⟨congrArg (·.1) h, congrArg (·.2.1) h, congrArg (·.2.2) h⟩

theorem endCycle_visible (c : Config) (r : Rob) (x : Nat) :
    ((r.endCycle c).insts x).prevBrsResolved = ((r.updateVisibleState c).insts x).prevBrsResolved ∧
      ((r.endCycle c).insts x).prevInstsCompleted =
        ((r.updateVisibleState c).insts x).prevInstsCompleted ∧
      ((r.endCycle c).insts x).isUnsquashable =
        ((r.updateVisibleState c).insts x).isUnsquashable := by
  unfold endCycle
  split
  · exact computeTaint_visible _ x
  · exact ⟨rfl, rfl, rfl⟩

theorem endCycle_prevBrsResolved (hi : Inv r) (hy : ((r.endCycle c).insts y).prevBrsResolved)
    :
    (r.insts y).prevBrsResolved ∨ ∀ b ∈ r.instList, b < y → branchReady (r.insts b) := by
  rw [(endCycle_visible c r y).1] at hy
  exact (visibleWalk_prevBrsResolved hi.sorted hy).imp_right And.right

theorem endCycle_settled (h : Settled c (r.insts y)) :
    Settled c ((r.endCycle c).insts y) := by
  obtain ⟨hb, hi, hu⟩ := endCycle_visible c r y
  have hw : Settled c ((r.updateVisibleState c).insts y) := visibleWalk_settled h
  unfold Settled atVisibilityPoint at hw ⊢
  rwa [hb, hi, hu]

/-! ## Taint is only taken away -/

/-- Wherever taint has been computed, the flags cover what the links say now. -/
structure TaintClosed (r : Rob) : Prop where
  args : ∀ x ∈ r.instList, (r.insts x).taintPropDone = true →
    explicitFlow r.insts (r.insts x) = true → (r.insts x).isArgsTainted = true
  addr : ∀ x ∈ r.instList, (r.insts x).taintPropDone = true →
    addressFlow r.insts (r.insts x) = true → (r.insts x).isAddrTainted = true
  dest : ∀ x ∈ r.instList, (r.insts x).taintPropDone = true →
    (r.insts x).isArgsTainted = true ∨
      ((r.insts x).staticInst.isLoad = true ∧ (r.insts x).isUnsquashable = false) →
    (r.insts x).isDestTainted = true
  links : ∀ x ∈ r.instList, (r.insts x).taintPropDone = true → ∀ s ∈ (r.insts x).srcs,
    ∀ p ∈ r.instList, s.argProducer = some p → (r.insts p).taintPropDone = true

/-- A change that leaves computed taint alone: links and squashable loads only become
fewer, and new instructions are younger and have no taint yet. -/
structure TaintFrame (r r' : Rob) : Prop where
  mem : ∀ x ∈ r'.instList, x ∈ r.instList ∨
    (r'.insts x).taintPropDone = false ∧ ∀ y ∈ r.instList, y < x
  flags : ∀ x ∈ r.instList,
    (r'.insts x).staticInst = (r.insts x).staticInst ∧
      (r'.insts x).taintPropDone = (r.insts x).taintPropDone ∧
      (r'.insts x).isArgsTainted = (r.insts x).isArgsTainted ∧
      (r'.insts x).isAddrTainted = (r.insts x).isAddrTainted ∧
      (r'.insts x).isDestTainted = (r.insts x).isDestTainted
  unsquashable : ∀ x ∈ r.instList, (r.insts x).isUnsquashable = true →
    (r'.insts x).isUnsquashable = true
  srcs : ∀ x ∈ r.instList, x ∈ r'.instList → ∃ f : SrcReg → SrcReg,
    (r'.insts x).srcs = (r.insts x).srcs.map f ∧
      ∀ s p, (f s).argProducer = some p → s.argProducer = some p
  committed : ∀ x ∈ r.instList, ∀ p ≤ x, (r.insts p).committed = true →
    (r'.insts p).committed = true

/-- Fewer tainted links, less flow. -/
theorem explicitFlow_mono {m' : Nat → DynInst} {i' : DynInst} (f : SrcReg → SrcReg)
    (hs : i'.srcs = i.srcs.map f)
    (hf : ∀ s ∈ i.srcs, taintedLink m' (f s) → taintedLink m s)
    (h : explicitFlow m' i') : explicitFlow m i := by
  unfold explicitFlow at h ⊢
  rw [hs, any_map, any_eq_true] at h
  obtain ⟨s, hmem, ht⟩ := h
  exact any_eq_true.mpr ⟨s, hmem, hf s hmem ht⟩

theorem addressFlow_mono {m' : Nat → DynInst} {i' : DynInst} (f : SrcReg → SrcReg)
    (hst : i'.staticInst = i.staticInst) (hs : i'.srcs = i.srcs.map f)
    (hf : ∀ s ∈ i.srcs, taintedLink m' (f s) → taintedLink m s)
    (h : addressFlow m' i') : addressFlow m i := by
  unfold addressFlow at h ⊢
  rw [hst, hs] at h
  split at h
  · next hmem =>
    rw [if_pos hmem]
    split at h
    · next hstore =>
      rw [if_pos hstore]
      rw [← map_tail, any_map, any_eq_true] at h
      obtain ⟨s, hmem, ht⟩ := h
      exact any_eq_true.mpr ⟨s, hmem, hf s (mem_of_mem_tail hmem) ht⟩
    · next hstore =>
      rw [if_neg hstore]
      rw [any_map, any_eq_true] at h
      obtain ⟨s, hmem, ht⟩ := h
      exact any_eq_true.mpr ⟨s, hmem, hf s hmem ht⟩
  · cases h

/-- The address of an access is among its arguments. -/
theorem explicitFlow_of_addressFlow (h : addressFlow m i) : explicitFlow m i := by
  unfold addressFlow at h
  split at h
  · split at h
    · obtain ⟨s, hmem, ht⟩ := any_eq_true.mp h
      exact any_eq_true.mpr ⟨s, mem_of_mem_tail hmem, ht⟩
    · exact h
  · cases h

theorem taintedLink_eq_true {s : SrcReg} : taintedLink m s ↔
    ∃ p, s.argProducer = some p ∧ (m p).isDestTainted ∧ (m p).committed = false := by
  unfold taintedLink
  split
  · next p hp => simp [hp]
  · next hp => simp [hp]

/-- A live link is to an instruction of the buffer. -/
theorem Inv.live_link (hi : Inv r) {p : Nat} (hx : x ∈ r.instList) {s : SrcReg}
    (hs : s ∈ (r.insts x).srcs) (hp : s.argProducer = some p)
    (hc : (r.insts p).committed = false) : p ∈ r.instList ∧ p < x := by
  obtain ⟨-, hlt, hmem | hcom⟩ := hi.linked x hx s hs p hp
  · exact ⟨hmem, hlt⟩
  · rw [hc] at hcom
    cases hcom

theorem TaintClosed.frame (hi : Inv r) (h : TaintClosed r) (hf : TaintFrame r r') :
    TaintClosed r' := by
  have hold : ∀ x ∈ r'.instList, (r'.insts x).taintPropDone = true → x ∈ r.instList := by
    intro x hx hd
    rcases hf.mem x hx with hm | ⟨hn, -⟩
    · exact hm
    · rw [hd] at hn
      cases hn
  have hlink : ∀ x ∈ r.instList, ∀ f : SrcReg → SrcReg,
      (∀ s p, (f s).argProducer = some p → s.argProducer = some p) → ∀ s ∈ (r.insts x).srcs,
      taintedLink r'.insts (f s) = true → taintedLink r.insts s = true := by
    intro x hx f hfp s hs ht
    obtain ⟨p, hp, hd, hc⟩ := taintedLink_eq_true.mp ht
    obtain ⟨-, hlt, hmem⟩ := hi.linked x hx s hs p (hfp s p hp)
    have hcom : (r.insts p).committed = false := by
      cases hb : (r.insts p).committed with
      | false => rfl
      | true =>
        rw [hf.committed x hx p (Nat.le_of_lt hlt) hb] at hc
        cases hc
    obtain ⟨hpl, -⟩ := hi.live_link hx hs (hfp s p hp) hcom
    rw [(hf.flags p hpl).2.2.2.2] at hd
    exact taintedLink_eq_true.mpr ⟨p, hfp s p hp, hd, hcom⟩
  refine ⟨?_, ?_, ?_, ?_⟩
  · intro x hx hd hflow
    have hxl := hold x hx hd
    obtain ⟨hst, hdone, hargs, -, -⟩ := hf.flags x hxl
    obtain ⟨f, hs, hfp⟩ := hf.srcs x hxl hx
    rw [hargs]
    exact h.args x hxl (hdone ▸ hd) (explicitFlow_mono f hs (hlink x hxl f hfp) hflow)
  · intro x hx hd hflow
    have hxl := hold x hx hd
    obtain ⟨hst, hdone, -, haddr, -⟩ := hf.flags x hxl
    obtain ⟨f, hs, hfp⟩ := hf.srcs x hxl hx
    rw [haddr]
    exact h.addr x hxl (hdone ▸ hd) (addressFlow_mono f hst hs (hlink x hxl f hfp) hflow)
  · intro x hx hd hsrc
    have hxl := hold x hx hd
    obtain ⟨hst, hdone, hargs, -, hdest⟩ := hf.flags x hxl
    rw [hdest]
    refine h.dest x hxl (hdone ▸ hd) ?_
    rw [hargs, hst] at hsrc
    refine hsrc.imp_right fun hload => ⟨hload.1, ?_⟩
    cases hu : (r.insts x).isUnsquashable with
    | false => rfl
    | true => rw [hf.unsquashable x hxl hu] at hload; exact hload.2
  · intro x hx hd s hs p hp hpp
    have hxl := hold x hx hd
    obtain ⟨f, hmap, hfp⟩ := hf.srcs x hxl hx
    rw [hmap] at hs
    obtain ⟨s₀, hs₀, rfl⟩ := mem_map.mp hs
    have hpp₀ := hfp s₀ p hpp
    have hlt := (hi.linked x hxl s₀ hs₀ p hpp₀).2.1
    rcases hf.mem p hp with hpl | ⟨-, hy⟩
    · rw [(hf.flags p hpl).2.1]
      exact h.links x hxl ((hf.flags x hxl).2.1 ▸ hd) s₀ hs₀ p hpl hpp₀
    · exact absurd (hy x hxl) (by omega)

/-! ### The changes -/

theorem TaintFrame.of_fixed (hl : r'.instList = r.instList)
    (h : ∀ x, (r'.insts x).fixed = (r.insts x).fixed) : TaintFrame r r' where
  mem x hx := .inl (hl ▸ hx)
  flags x _ := ⟨(congrArg DynInst.staticInst (h x) :), (congrArg DynInst.taintPropDone (h x) :),
    (congrArg DynInst.isArgsTainted (h x) :), (congrArg DynInst.isAddrTainted (h x) :),
    (congrArg DynInst.isDestTainted (h x) :)⟩
  unsquashable x _ hu := (congrArg DynInst.isUnsquashable (h x) :).trans hu
  srcs x _ _ := ⟨id, by rw [map_id]; exact (congrArg DynInst.srcs (h x) :), fun _ _ hp => hp⟩
  committed _ _ p _ hc := (congrArg DynInst.committed (h p) :).trans hc

theorem TaintFrame.of_retires {h : Nat} {rest : List Nat} (hi : Inv r) (hr : Retires r r' h rest) :
    TaintFrame r r' where
  mem x hx := .inl (by rw [hr.instList]; exact mem_cons_of_mem _ (hr.instList' ▸ hx))
  flags x _ := by
    by_cases hx : x = h
    · subst hx
      rw [hr.head]
      exact ⟨rfl, rfl, rfl, rfl, rfl⟩
    · rcases hr.others x hx with he | he <;> rw [he] <;> exact ⟨rfl, rfl, rfl, rfl, rfl⟩
  unsquashable x _ hu := by
    by_cases hx : x = h
    · subst hx
      rw [hr.head]
      exact hu
    · rcases hr.others x hx with he | he <;> rw [he] <;> exact hu
  srcs x _ hx := by
    have hxh : x ≠ h := by
      have hsorted := hi.sorted
      rw [hr.instList, pairwise_cons] at hsorted
      have := hsorted.1 x (hr.instList' ▸ hx)
      omega
    rcases hr.others x hxh with he | he
    · exact ⟨id, by rw [map_id, he], fun _ _ hp => hp⟩
    refine ⟨_, by rw [he]; rfl, fun s p hp => ?_⟩
    split at hp
    · cases hp
    · exact hp
  committed _ _ p _ hc := by rw [hr.committed, hc, Bool.true_or]

theorem TaintFrame.of_inserts {inst : DynInst} (hyoung : ∀ y ∈ r.instList, y < x)
    (hnew : inst.taintPropDone = false) (hr : Inserts r r' x inst) : TaintFrame r r' := by
  have hother : ∀ y ∈ r.instList, ∀ p ≤ y, r'.insts p = r.insts p := fun y hy p hp =>
    hr.other p (by have := hyoung y hy; omega)
  refine ⟨fun y hy => ?_, fun y hy => ?_, fun y hy hu => ?_, fun y hy _ => ?_,
    fun y hy p hp hc => ?_⟩
  · rw [hr.instList, mem_append, mem_singleton] at hy
    rcases hy with hy | rfl
    · exact .inl hy
    · exact .inr ⟨by rw [hr.self]; exact hnew, hyoung⟩
  · rw [hother y hy y (Nat.le_refl y)]
    exact ⟨rfl, rfl, rfl, rfl, rfl⟩
  · rw [hother y hy y (Nat.le_refl y)]
    exact hu
  · exact ⟨id, by rw [map_id, hother y hy y (Nat.le_refl y)], fun _ _ hp => hp⟩
  · rw [hother y hy p hp]
    exact hc

theorem TaintFrame.updateVisibleState (hs : ∀ x ∈ r.instList, Settled c (r.insts x)) :
    TaintFrame r (r.updateVisibleState c) := by
  have hkeep : ∀ x, ((r.updateVisibleState c).insts x).taintPropDone = (r.insts x).taintPropDone ∧
      ((r.updateVisibleState c).insts x).isArgsTainted = (r.insts x).isArgsTainted ∧
      ((r.updateVisibleState c).insts x).isAddrTainted = (r.insts x).isAddrTainted ∧
      ((r.updateVisibleState c).insts x).isDestTainted = (r.insts x).isDestTainted := fun x =>
    visibleWalk_induct (P := fun i => i.taintPropDone = (r.insts x).taintPropDone ∧
      i.isArgsTainted = (r.insts x).isArgsTainted ∧ i.isAddrTainted = (r.insts x).isAddrTainted ∧
      i.isDestTainted = (r.insts x).isDestTainted) (fun _ h => h) (fun _ _ h => h) _ r.insts
      r.instList ⟨rfl, rfl, rfl, rfl⟩
  have hshape := updateVisibleState_shape c r
  exact ⟨fun x hx => .inl hx, fun x _ => ⟨hshape.staticInst x, hkeep x⟩,
    fun x hx hu => visibleWalk_unsquashable (hs x hx) hu,
    fun x _ _ => ⟨id, by rw [map_id, hshape.srcs], fun _ _ hp => hp⟩,
    fun _ _ p _ hc => by rw [hshape.committed, hc]⟩

/-! ### The pass -/

theorem computeTaint_done (hi : Inv r) (hx : x ∈ r.instList) :
    (r.computeTaint.insts x).taintPropDone := by
  obtain ⟨pre, post, hl⟩ := append_of_mem hx
  have hn := hi.nodup
  rw [hl, nodup_append, nodup_cons] at hn
  change (sweep taintInst r.insts r.instList x).taintPropDone = true
  rw [hl, sweep_split _ _ hn.2.1.1]
  unfold taintInst
  dsimp only
  split <;> rfl

/-- After the pass flags and links agree. -/
theorem computeTaint_closed (hi : Inv r) : TaintClosed r.computeTaint := by
  have hshape := computeTaint_shape r
  refine ⟨?_, ?_, ?_, fun x _ _ s _ p hp _ => computeTaint_done hi hp⟩
  · intro x hx _ hflow
    rw [(computeTaint_eq hi hx).1]
    exact explicitFlow_mono id (by rw [map_id, hshape.srcs]) (fun _ _ ht => ht) hflow
  · intro x hx _ hflow
    rw [(computeTaint_eq hi hx).2.1]
    exact addressFlow_mono id (hshape.staticInst x) (by rw [map_id, hshape.srcs])
      (fun _ _ ht => ht) hflow
  · intro x hx _ hsrc
    rw [(computeTaint_eq hi hx).2.2, Bool.or_eq_true]
    refine hsrc.imp_right fun ⟨hload, hu⟩ => ?_
    rw [hshape.staticInst] at hload
    rw [(computeTaint_visible r x).2.2] at hu
    rw [hload, hu]
    rfl

/-- The pass sets no flag where taint had been computed: by induction on the sequence
number, every tainted link was tainted before. -/
theorem TaintClosed.computeTaint_mono (hi : Inv r) (h : TaintClosed r) (x : Nat) :
    x ∈ r.instList → (r.insts x).taintPropDone →
      ((r.computeTaint.insts x).isArgsTainted → (r.insts x).isArgsTainted) ∧
      ((r.computeTaint.insts x).isAddrTainted → (r.insts x).isAddrTainted) ∧
      ((r.computeTaint.insts x).isDestTainted → (r.insts x).isDestTainted) := by
  induction x using Nat.strongRecOn with
  | _ x ih =>
    intro hx hd
    have hlink : ∀ s ∈ (r.insts x).srcs, taintedLink r.computeTaint.insts (id s) = true →
        taintedLink r.insts s = true := by
      intro s hs ht
      obtain ⟨p, hp, hdp, hc⟩ := taintedLink_eq_true.mp ht
      rw [(computeTaint_shape r).committed] at hc
      obtain ⟨hpl, hlt⟩ := hi.live_link hx hs hp hc
      exact taintedLink_eq_true.mpr
        ⟨p, hp, (ih p hlt hpl (h.links x hx hd s hs p hpl hp)).2.2 hdp, hc⟩
    have hargs : (r.computeTaint.insts x).isArgsTainted = true →
        (r.insts x).isArgsTainted = true := fun ha =>
      h.args x hx hd (explicitFlow_mono id (map_id _).symm hlink
        ((computeTaint_eq hi hx).1 ▸ ha))
    refine ⟨hargs, fun ha => ?_, fun hdx => ?_⟩
    · exact h.addr x hx hd (addressFlow_mono id rfl (map_id _).symm hlink
        ((computeTaint_eq hi hx).2.1 ▸ ha))
    · rw [(computeTaint_eq hi hx).2.2, Bool.or_eq_true, Bool.and_eq_true, Bool.not_eq_true'] at hdx
      exact h.dest x hx hd (hdx.imp_left hargs)

section
variable (hstt : c.stt) (hi : Inv r)
include hstt hi

theorem TaintClosed.endCycle : TaintClosed (r.endCycle c) := by
  rw [Rob.endCycle, if_pos hstt]
  exact computeTaint_closed (hi.sameShape (updateVisibleState_shape c r))

theorem endCycle_done (hx : x ∈ r.instList) : ((r.endCycle c).insts x).taintPropDone := by
  rw [Rob.endCycle, if_pos hstt]
  exact computeTaint_done (hi.sameShape (updateVisibleState_shape c r)) hx

/-- Taint is not given back. -/
theorem TaintClosed.endCycle_mono (h : TaintClosed r)
    (hs : ∀ x ∈ r.instList, Settled c (r.insts x)) (hx : x ∈ r.instList)
    (hd : (r.insts x).taintPropDone) :
    (((r.endCycle c).insts x).isArgsTainted → (r.insts x).isArgsTainted) ∧
      (((r.endCycle c).insts x).isAddrTainted → (r.insts x).isAddrTainted) := by
  have hframe := TaintFrame.updateVisibleState hs
  obtain ⟨-, hdone, hargs, haddr, -⟩ := hframe.flags x hx
  have hmono := (h.frame hi hframe).computeTaint_mono
    (hi.sameShape (updateVisibleState_shape c r)) x hx (hdone.trans hd)
  rw [Rob.endCycle, if_pos hstt, ← hargs, ← haddr]
  exact ⟨hmono.1, hmono.2.1⟩

/-- A tainted address is a tainted argument. -/
theorem endCycle_addr (hx : x ∈ r.instList) (h : ((r.endCycle c).insts x).isAddrTainted) :
    ((r.endCycle c).insts x).isArgsTainted := by
  have hi' := hi.sameShape (updateVisibleState_shape c r)
  rw [Rob.endCycle, if_pos hstt] at h ⊢
  rw [(computeTaint_eq hi' hx).2.1] at h
  rw [(computeTaint_eq hi' hx).1]
  exact explicitFlow_of_addressFlow h

/-- Without operands there is nothing to be tainted. -/
theorem endCycle_plain (hx : x ∈ r.instList)
    (h : (r.insts x).srcs = []) : ((r.endCycle c).insts x).isArgsTainted = false := by
  rw [Rob.endCycle, if_pos hstt,
    (computeTaint_eq (hi.sameShape (updateVisibleState_shape c r)) hx).1, explicitFlow,
    (updateVisibleState_shape c r).srcs, h]
  rfl

end

end Rob

end SdoCore
