import SdoCore.RobRun

/-! A squash takes several cycles. What it will squash is `gone` from its start: an
instruction that is squashed already or younger than the bound of the squash in progress.
Going on with a squash, or starting one with an older bound, keeps everything `gone` that
was, and takes an instruction only together with everything younger. -/

namespace SdoCore

namespace Rob

variable {c : Config} {r r' : Rob} {n x y : Nat}

theorem gone_iff : r.gone x ↔
    (r.insts x).squashed ∨ (r.doneSquashing = false ∧ r.squashedSeqNum < x) := by
  simp [gone, doomed]

theorem squashed_of_not_gone (h : r.gone x = false) : (r.insts x).squashed = false := by
  simp only [gone, Bool.or_eq_false_iff] at h
  exact h.1

theorem gone_of_squashed (h : (r.insts x).squashed) : r.gone x :=
  gone_iff.mpr (.inl h)

theorem doomed_mono (h : r.doomed x) (hxy : x ≤ y) : r.doomed y := by
  simp only [doomed, Bool.and_eq_true, decide_eq_true_eq] at h ⊢
  exact ⟨h.1, Nat.lt_of_lt_of_le h.2 hxy⟩

/-- Of two instructions that were in the buffer when the squash came, the older one is
taken only with the younger one. -/
theorem Squashes.gone_suffix (h : Squashes r r') (hx : x ∈ r.instList) (hy : y ∈ r.instList)
    (hxy : x ≤ y) (hgy : r'.gone y = false) (hgx : r'.gone x) : r.gone x := by
  rcases Nat.eq_or_lt_of_le hxy with rfl | hlt
  · rw [hgx] at hgy
    cases hgy
  rcases Bool.or_eq_true _ _ ▸ hgx with hsq | hd
  · rw [h.suffix y hy (squashed_of_not_gone hgy) x hx hlt] at hsq
    exact gone_of_squashed hsq
  · rw [gone, doomed_mono hd hxy, Bool.or_true] at hgy
    cases hgy

/-! ## Going on -/

theorem doSquashLoop_bound (r : Rob) (k : Nat) :
    (r.doSquashLoop k).squashedSeqNum = r.squashedSeqNum := by
  induction k generalizing r with
  | zero =>
    rw [doSquashLoop]
    split
    · split <;> rfl
    · rfl
  | succ k ih =>
    rw [doSquashLoop]
    split
    · split
      · dsimp only
        split
        · rfl
        · rw [ih]
          rfl
      · rfl
    · rfl

/-- The loop squashes only what is younger than the bound. -/
theorem doSquashLoop_only (r : Rob) (k : Nat) (h : ((r.doSquashLoop k).insts x).squashed) :
    (r.insts x).squashed ∨ r.squashedSeqNum < x := by
  induction k generalizing r with
  | zero =>
    rw [doSquashLoop] at h
    split at h
    · split at h <;> exact .inl h
    · exact .inl h
  | succ k ih =>
    rw [doSquashLoop] at h
    split at h
    · next i hi =>
      split at h
      · next hbound =>
        have hone : ((r.modify i squashInst).insts x).squashed = true →
            (r.insts x).squashed = true ∨ r.squashedSeqNum < x := by
          intro hs
          by_cases hx : x = i
          · exact .inr (hx ▸ hbound)
          · simp only [modify, Function.update_of_ne hx] at hs
            exact .inl hs
        dsimp only at h
        split at h
        · exact hone h
        rcases ih _ h with hs | hb
        · exact hone hs
        · exact .inr hb
      · exact .inl h
    · exact .inl h

/-- The loop ends the squash only when nothing younger is left. -/
theorem Inv.doSquashLoop_done (h : Inv r) (hd : r.doneSquashing = false) (k : Nat)
    (hdone : (r.doSquashLoop k).doneSquashing) (hx : x ∈ r.instList)
    (hlt : r.squashedSeqNum < x) : ((r.doSquashLoop k).insts x).squashed := by
  induction k generalizing r with
  | zero =>
    rw [Rob.doSquashLoop] at hdone ⊢
    split at hdone
    · next i hi =>
      split at hdone
      · next hle =>
        rw [if_pos hle]
        exact (h.squashing i hi).2 x hx (Nat.lt_of_le_of_lt hle hlt)
      · rw [hd] at hdone
        cases hdone
    · rw [hd] at hdone
      cases hdone
  | succ k ih =>
    rw [Rob.doSquashLoop] at hdone ⊢
    split at hdone
    · next i hi =>
      obtain ⟨hil, hyoung⟩ := h.squashing i hi
      split at hdone
      · next hbound =>
        rw [if_pos hbound]
        dsimp only at hdone ⊢
        split at hdone
        · next hhead =>
          rw [if_pos hhead]
          obtain ⟨rest, hl⟩ := List.head?_eq_some_iff.mp hhead
          have hsorted := h.sorted
          change r.instList = i :: rest at hl
          rw [hl] at hx hsorted
          change ((r.modify i squashInst).insts x).squashed = true
          by_cases hxi : x = i
          · subst hxi
            simp [modify, squashInst]
          have hix : i < x := (List.pairwise_cons.mp hsorted).1 x
            ((List.mem_cons.mp hx).resolve_left hxi)
          simpa [modify, hxi] using hyoung x (hl ▸ hx) hix
        · next hhead =>
          rw [if_neg hhead]
          obtain ⟨j, hj, hpj, hall⟩ := prevOf_spec h.sorted hil hhead
          have h1 := (h.squashOne hi (prevOf i r.instList) r.doneSquashing
            (fun m hm => by
              cases hpj.symm.trans hm
              exact ⟨hj, hall⟩)
            (fun hdd => by rw [hd] at hdd; cases hdd)).1
          exact ih h1 hd hdone hx hlt
      · next hbound =>
        rw [if_neg hbound]
        exact hyoung x hx (Nat.lt_of_le_of_lt (Nat.not_lt.mp hbound) hlt)
    · rw [hd] at hdone
      cases hdone

theorem doSquash_bound (hr : r.doSquash c = some r') : r'.squashedSeqNum = r.squashedSeqNum := by
  unfold doSquash at hr
  split at hr
  · cases hr
  split at hr
  · cases hr
    rfl
  · cases hr
    exact doSquashLoop_bound _ _

theorem doSquash_only (hr : r.doSquash c = some r') (h : (r'.insts x).squashed) :
    (r.insts x).squashed ∨ r.squashedSeqNum < x := by
  unfold doSquash at hr
  split at hr
  · cases hr
  split at hr
  · cases hr
    exact .inl h
  · cases hr
    exact doSquashLoop_only r _ h

section
variable (h : Inv r) (hd : r.doneSquashing = false) (hr : r.doSquash c = some r')
include h hd hr

theorem Inv.doSquash_done (hdone : r'.doneSquashing) (hx : x ∈ r.instList)
    (hlt : r.squashedSeqNum < x) : (r'.insts x).squashed := by
  unfold Rob.doSquash at hr
  split at hr
  · cases hr
  rename_i k hk
  split at hr
  · next hkn =>
    cases hr
    exact (h.squashing k hk).2 x hx (Nat.lt_trans hkn hlt)
  · cases hr
    exact h.doSquashLoop_done hd _ hdone hx hlt

theorem Inv.doSquash_gone (hx : x ∈ r.instList) (hg : r.gone x) : r'.gone x := by
  rcases gone_iff.mp hg with hsq | ⟨-, hlt⟩
  · exact gone_of_squashed ((h.doSquash hr).2.mono x hsq)
  · cases hdone : r'.doneSquashing with
    | true => exact gone_of_squashed (h.doSquash_done hd hr hdone hx hlt)
    | false => exact gone_iff.mpr (.inr ⟨hdone, doSquash_bound hr ▸ hlt⟩)

end

theorem doSquash_gone_only (hd : r.doneSquashing = false) (hr : r.doSquash c = some r')
    (hg : r'.gone x) : r.gone x := by
  have hcase : (r.insts x).squashed = true ∨ r.squashedSeqNum < x := by
    rcases gone_iff.mp hg with hs | ⟨-, hlt⟩
    · exact doSquash_only hr hs
    · exact .inr (doSquash_bound hr ▸ hlt)
  exact gone_iff.mpr (hcase.imp_right fun hlt => ⟨hd, hlt⟩)

/-! ## Starting -/

/-- `squash` starts at the tail and goes on at once. -/
theorem squash_cases (hr : r.squash c n = some r') :
    (r.instList = [] ∧ r' = r) ∨ ∃ t, r.instList.getLast? = some t ∧
      doSquash c { r with doneSquashing := false, squashedSeqNum := n, squashIt := some t } =
        some r' := by
  unfold squash at hr
  split at hr
  · next hl =>
    cases hr
    exact .inl ⟨List.getLast?_eq_none_iff.mp hl, rfl⟩
  · next t ht => exact .inr ⟨t, ht, hr⟩

theorem squash_bound (hr : r.squash c n = some r') (hl : r.instList ≠ []) :
    r'.squashedSeqNum = n := by
  rcases squash_cases hr with ⟨hnil, -⟩ | ⟨t, -, hdo⟩
  · exact absurd hnil hl
  · exact doSquash_bound hdo

theorem Inv.squash_gone (h : Inv r) (hr : r.squash c n = some r') (hx : x ∈ r.instList)
    (hlt : n < x) : r'.gone x := by
  rcases squash_cases hr with ⟨hnil, -⟩ | ⟨t, ht, hdo⟩
  · rw [hnil] at hx
    cases hx
  · exact (h.squashFrom ht n).doSquash_gone rfl hdo hx (gone_iff.mpr (.inr ⟨rfl, hlt⟩))

theorem squash_gone_only (hr : r.squash c n = some r') (hg : r'.gone x) :
    r.gone x ∨ n < x := by
  rcases squash_cases hr with ⟨-, rfl⟩ | ⟨t, ht, hdo⟩
  · exact .inl hg
  rcases gone_iff.mp (doSquash_gone_only rfl hdo hg) with hs | ⟨-, hlt⟩
  · exact .inl (gone_of_squashed hs)
  · exact .inr hlt

/-- A squash with an older bound takes over from the one in progress. -/
theorem Inv.squash_gone_mono (h : Inv r) (hr : r.squash c n = some r') (hx : x ∈ r.instList)
    (hn : r.doomed x → n < x) (hg : r.gone x) : r'.gone x := by
  rcases Bool.or_eq_true _ _ ▸ hg with hsq | hd
  · exact gone_of_squashed ((h.squash hr).2.mono x hsq)
  · exact h.squash_gone hr hx (hn hd)

/-! ## Both -/

/-- A step of squashing, seen from outside: what was going to be squashed still is. -/
structure Takes (r r' : Rob) : Prop extends Squashes r r' where
  gone : ∀ x ∈ r.instList, r.gone x = true → r'.gone x = true

theorem Takes.refl (r : Rob) : Takes r r := ⟨.refl_of rfl rfl, fun _ _ h => h⟩

theorem Takes.trans {r'' : Rob} (h : Takes r r') (h' : Takes r' r'') : Takes r r'' :=
  ⟨h.toSquashes.trans h'.toSquashes, fun x hx hg => h'.gone x (h.instList ▸ hx) (h.gone x hx hg)⟩

theorem Inv.doSquash_takes (h : Inv r) (hd : r.doneSquashing = false)
    (hr : r.doSquash c = some r') : Takes r r' :=
  ⟨(h.doSquash hr).2, fun _ hx hg => h.doSquash_gone hd hr hx hg⟩

theorem Inv.squash_takes (h : Inv r) (hr : r.squash c n = some r')
    (hn : ∀ x ∈ r.instList, r.doomed x → n < x) : Takes r r' :=
  ⟨(h.squash hr).2, fun x hx hg => h.squash_gone_mono hr hx (hn x hx) hg⟩

section
variable (h : Takes r r')
include h

theorem Takes.not_gone (hx : x ∈ r.instList) (hg : r'.gone x = false) : r.gone x = false := by
  cases hb : r.gone x with
  | false => rfl
  | true =>
    rw [h.gone x hx hb] at hg
    cases hg

theorem Takes.insts (hg : r'.gone x = false) : r'.insts x = r.insts x :=
  h.untouched x (squashed_of_not_gone hg)

/-- What is older than a survivor survives, if it was going to. -/
theorem Takes.older (hx : x ∈ r.instList) (hy : y ∈ r.instList) (hxy : x ≤ y)
    (hgy : r'.gone y = false) (hgx : r.gone x = false) : r'.gone x = false := by
  cases hb : r'.gone x with
  | false => rfl
  | true =>
    rw [h.gone_suffix hx hy hxy hgy hb] at hgx
    cases hgx

theorem Takes.staticInst (x : Nat) : (r'.insts x).staticInst = (r.insts x).staticInst :=
  (congrArg DynInst.staticInst (h.fixed x) :)

theorem Takes.mispredicted (x : Nat) : (r'.insts x).mispredicted = (r.insts x).mispredicted := by
  have hpc : (r'.insts x).status.pc = (r.insts x).status.pc := (congrArg Status.pc (h.kept x) :)
  have hpred : (r'.insts x).predPC = (r.insts x).predPC := (congrArg DynInst.predPC (h.fixed x) :)
  unfold DynInst.mispredicted
  rw [hpc, hpred, h.staticInst]

end

end Rob

end SdoCore
