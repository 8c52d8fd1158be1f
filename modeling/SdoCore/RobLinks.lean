import SdoCore.Taint

/-! Producer links and the buffer they point into. `insertInst` links a source to an
instruction of the list, and `retireHead` removes the links to the instruction it retires
from every instruction but the new head, where its loop should have started. A run in which
no instruction behind the head reads what the retiring head wrote has all its links inside
the list (`links_in_list`); without that the new head keeps a link to an instruction that
has left (`retireHead_leaves_link`). -/

namespace SdoCore

open List
open Lib

namespace Rob

/-! ## Runs -/

/-- `insertInst`, `retireHead`, `squash` and `doSquash` in any order; an inserted instruction
is the youngest and has no links yet, and the squash iterator still points into the list
when it is followed. -/
def linkStep (c : Config) (r : Rob) : RobEvent → Option Rob
  | .insertInst x inst =>
    if (∀ y ∈ r.instList, y < x) ∧ ∀ s ∈ inst.srcs, s.argProducer = none then
      r.insertInst c x inst
    else none
  | .retireHead => r.retireHead
  | .squash n => r.squash c n
  | .doSquash => if ∀ k ∈ r.squashIt, k ∈ r.instList then r.doSquash c else none
  | .setStatus x st => some (r.modify x fun i => { i with status := st })
  | .cycle => some (r.endCycle c)

end Rob

def linkMachine (c : Config) : Machine Rob RobEvent where
  start r := r.instList = []
  step := Rob.linkStep c

namespace Rob

/-- The instruction behind the head has no source linked to the head. -/
def nextUnlinked (r : Rob) : Bool :=
  match r.instList with
  | h :: y :: _ => (r.insts y).srcs.all fun s => s.argProducer ≠ some h
  | _ => true

/-- The condition on a step: a head retires only when the next instruction has no link
to it. -/
def retiresUnlinked (r : Rob) : RobEvent → Bool
  | .retireHead => r.nextUnlinked
  | _ => true

/-! ## The links -/

/-- The list is in program order and every link points to an older member of it. -/
structure Linked (r : Rob) : Prop where
  sorted : r.instList.Pairwise (· < ·)
  inList : ∀ x ∈ r.instList, ∀ s ∈ (r.insts x).srcs, ∀ p, s.argProducer = some p →
    p ∈ r.instList ∧ p < x

variable {r r' : Rob} {c : Config}

/-- Only the list and the sources matter. -/
theorem Linked.of_same (h : Linked r) (hl : r'.instList = r.instList)
    (hs : ∀ x, (r'.insts x).srcs = (r.insts x).srcs) : Linked r' where
  sorted := by rw [hl]; exact h.sorted
  inList x hx s hsrc p hp := by
    rw [hs] at hsrc
    rw [hl] at hx ⊢
    exact h.inList x hx s hsrc p hp

theorem doSquashLoop_links (r : Rob) (n : Nat) :
    (r.doSquashLoop n).instList = r.instList ∧
      ∀ x, ((r.doSquashLoop n).insts x).srcs = (r.insts x).srcs := by
  induction n generalizing r with
  | zero =>
    rw [doSquashLoop]
    split
    · split <;> exact ⟨rfl, fun _ => rfl⟩
    · exact ⟨rfl, fun _ => rfl⟩
  | succ n ih =>
    rw [doSquashLoop]
    split
    · next k hk =>
      split
      · have hone : ∀ x, ((r.modify k squashInst).insts x).srcs = (r.insts x).srcs := by
          intro x
          by_cases hx : x = k
          · subst hx
            simp [modify, squashInst]
          · simp [modify, hx]
        dsimp only
        split
        · exact ⟨rfl, hone⟩
        · obtain ⟨hl, hs⟩ := ih { r.modify k squashInst with squashIt := prevOf k r.instList }
          exact ⟨hl, fun x => (hs x).trans (hone x)⟩
      · exact ⟨rfl, fun _ => rfl⟩
    · exact ⟨rfl, fun _ => rfl⟩

theorem doSquash_links (hr : r.doSquash c = some r') :
    r'.instList = r.instList ∧ ∀ x, (r'.insts x).srcs = (r.insts x).srcs := by
  unfold doSquash at hr
  split at hr
  · cases hr
  split at hr <;> cases hr
  · exact ⟨rfl, fun _ => rfl⟩
  · exact doSquashLoop_links r _

theorem squash_links {n : Nat} (hr : r.squash c n = some r') :
    r'.instList = r.instList ∧ ∀ x, (r'.insts x).srcs = (r.insts x).srcs := by
  unfold squash at hr
  split at hr
  · cases hr
    exact ⟨rfl, fun _ => rfl⟩
  · have h := doSquash_links hr
    exact h

/-- A new link points to a member of the list, so to an older instruction. -/
theorem Linked.insertInst {x : Nat} {inst : DynInst} (h : Linked r)
    (hyoung : ∀ y ∈ r.instList, y < x) (hnew : ∀ s ∈ inst.srcs, s.argProducer = none)
    (hr : r.insertInst c x inst = some r') : Linked r' := by
  have hins := insertInst_spec hr
  refine ⟨?_, fun y hy s hs p hp => ?_⟩
  · rw [hins.instList, pairwise_append]
    refine ⟨h.sorted, pairwise_singleton _ _, fun y hy z hz => ?_⟩
    rw [mem_singleton.mp hz]
    exact hyoung y hy
  · rw [hins.instList] at hy ⊢
    rcases mem_append.mp hy with hy | hy
    · rw [hins.other y (Nat.ne_of_lt (hyoung y hy))] at hs
      obtain ⟨hpl, hlt⟩ := h.inList y hy s hs p hp
      exact ⟨mem_append_left _ hpl, hlt⟩
    · cases mem_singleton.mp hy
      rw [hins.self] at hs
      obtain ⟨s₀, -, -, -, hlink⟩ := mem_linkSrcs hnew hs
      rw [hp] at hlink
      split at hlink
      · cases hlink
      · have hpl := mem_of_youngest hlink.symm
        exact ⟨mem_append_left _ hpl, hyoung p hpl⟩

/-- What the unlinking loop reaches: everything behind the new head. -/
theorem retireHead_unlinks {h y : Nat} {rest : List Nat} (hl : r.instList = h :: rest)
    (hn : r.instList.Nodup) (hr : r.retireHead = some r')
    (hy : y ∈ rest.tail) : r'.insts y = clearArgProducer h (r.insts y) := by
  rw [hl, nodup_cons] at hn
  have hyh : y ≠ h := fun he => hn.1 (he ▸ mem_of_mem_tail hy)
  unfold retireHead at hr
  rw [hl] at hr
  dsimp only at hr
  split at hr
  · cases hr
    simp only [Function.update_of_ne hyh, sweep_local _ _ hn.2.tail, if_pos hy]
  · cases hr

theorem not_mem_clearArgProducer {h : Nat} {i : DynInst} {s : SrcReg}
    (hs : s ∈ (clearArgProducer h i).srcs) : s.argProducer ≠ some h := by
  obtain ⟨s₀, -, rfl⟩ := mem_map.mp hs
  split
  · nofun
  · next hne => exact hne

/-- With the new head unlinked already, nothing points to the retired instruction. -/
theorem Linked.retireHead (h : Linked r) (hnext : r.nextUnlinked)
    (hr : r.retireHead = some r') : Linked r' := by
  have hn : r.instList.Nodup := h.sorted.imp Nat.ne_of_lt
  obtain ⟨d, rest, hret⟩ := retireHead_spec hn hr
  have hsorted := h.sorted
  rw [hret.instList, pairwise_cons] at hsorted
  refine ⟨hret.instList' ▸ hsorted.2, fun x hx s hs p hp => ?_⟩
  rw [hret.instList'] at hx ⊢
  have hxd : x ≠ d := Nat.ne_of_gt (hsorted.1 x hx)
  obtain ⟨s₀, hs₀, -, -, hlink⟩ := hret.srcs x hxd s hs
  rcases hlink with hlink | ⟨-, hnone⟩
  · have hxl : x ∈ r.instList := by rw [hret.instList]; exact mem_cons_of_mem _ hx
    obtain ⟨hpl, hlt⟩ := h.inList x hxl s₀ hs₀ p (hlink ▸ hp)
    rw [hret.instList] at hpl
    refine ⟨(mem_cons.mp hpl).resolve_left ?_, hlt⟩
    rintro rfl
    -- `x` is the new head, which the condition covers, or the loop has visited it
    match rest, hx with
    | y :: ys, hx =>
      rcases mem_cons.mp hx with rfl | hx
      · rw [nextUnlinked, hret.instList] at hnext
        have hne := all_eq_true.mp hnext s₀ hs₀
        simp [← hlink, hp] at hne
      · rw [retireHead_unlinks hret.instList hn hr (by exact hx)] at hs
        exact not_mem_clearArgProducer hs hp
  · rw [hnone] at hp
    cases hp

theorem Linked.step {e : RobEvent} (h : Linked r) (hC : r.retiresUnlinked e)
    (hs : r.linkStep c e = some r') : Linked r' := by
  cases e with
  | insertInst x inst =>
    simp only [linkStep] at hs
    split at hs
    · next hins => exact h.insertInst hins.1 hins.2 hs
    · cases hs
  | retireHead => exact h.retireHead hC hs
  | squash n =>
    obtain ⟨hl, hsrc⟩ := squash_links hs
    exact h.of_same hl hsrc
  | doSquash =>
    simp only [linkStep] at hs
    split at hs
    · obtain ⟨hl, hsrc⟩ := doSquash_links hs
      exact h.of_same hl hsrc
    · cases hs
  | setStatus x st =>
    cases hs
    exact h.of_same rfl (setStatus_shape r x st).srcs
  | cycle =>
    cases hs
    have hshape := endCycle_shape c r
    exact h.of_same hshape.instList hshape.srcs

/-- As long as no retiring head has a reader right behind it, every link points to an older
instruction of the list. -/
theorem links_in_list {c : Config} {r : Rob}
    (h : (linkMachine c).ReachWhen (fun r e => r.retiresUnlinked e = true) r) {x p : Nat}
    {s : SrcReg} (hx : x ∈ r.instList) (hs : s ∈ (r.insts x).srcs)
    (hp : s.argProducer = some p) : p ∈ r.instList ∧ p < x := by
  have hl : Linked r := by
    refine h.invariant (fun r₀ h₀ => ?_) fun _ _ _ hi hC hst => hi.step hC hst
    have hnil : r₀.instList = [] := h₀
    exact ⟨by simp [hnil], by simp [hnil]⟩
  exact hl.inList x hx s hs p hp

end Rob

/-! ## A producer and its reader, next to each other -/

def useReg : RegId := ⟨.intRegClass, 0⟩

/-- A load of physical register 40, `gap` instructions that write register 41, and a reader of
both; then the load retires. -/
def loadUse (gap : Nat) : List RobEvent :=
  [.insertInst 1 { staticInst := loadInst, srcs := [], dests := [⟨useReg, 40⟩] }] ++
    (List.range gap).map (fun i =>
      .insertInst (i + 2) { staticInst := plainInst, srcs := [], dests := [⟨useReg, 41⟩] }) ++
    [.insertInst (gap + 2)
        { staticInst := plainInst
          srcs := [⟨useReg, useReg, 40, none⟩, ⟨useReg, useReg, 41, none⟩], dests := [] },
     .setStatus 1 { canCommit := true }, .retireHead]

def loadUseRob (gap : Nat) : Rob :=
  ((linkMachine spectreConfig).run emptyRob (loadUse gap)).getD emptyRob

/-- With an instruction in between, the reader loses its link to the load and keeps the one
to that instruction. -/
theorem links_in_list_gap :
    ((loadUseRob 1).insts 3).srcs.map (·.argProducer) = [none, some 2] ∧
      2 ∈ (loadUseRob 1).instList ∧ 2 < 3 :=
  ⟨by decide +kernel,
    Rob.links_in_list (c := spectreConfig)
      (.run (.start (s := emptyRob) rfl) (loadUse 1) (by decide +kernel)
        (Machine.run_getD (by decide +kernel))) (by decide +kernel)
      (s := ⟨useReg, useReg, 41, some 2⟩) (by decide +kernel) rfl⟩

/-- The reader right behind the load is the new head, and keeps its link. -/
theorem retireHead_leaves_link :
    ¬ ∀ (c : Config) (r : Rob), (linkMachine c).Reach r → ∀ x ∈ r.instList,
      ∀ s ∈ (r.insts x).srcs, ∀ p, s.argProducer = some p → p ∈ r.instList ∧ p < x := by
  intro h
  have hreach : (linkMachine spectreConfig).Reach (loadUseRob 0) :=
    Machine.reach_run (s := emptyRob) rfl (Machine.run_getD (by decide +kernel))
  have hlink := h spectreConfig _ hreach 2 (by decide +kernel)
    ⟨useReg, useReg, 40, some 1⟩ (by decide +kernel) 1 rfl
  exact absurd hlink.1 (by decide +kernel)

end SdoCore
