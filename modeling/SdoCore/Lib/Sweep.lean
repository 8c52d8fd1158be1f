import Mathlib.Logic.Relation
import Mathlib.Logic.Function.Basic
import Mathlib.Data.List.Nodup

/-! One pass over a list of cells, updating each cell in place from the store as
it is at that moment, and what such a pass computes when every cell only reads
cells that stand before it: a flag that is set from the flags of the cells read
is, after the pass, reachability along the reads (`flow_iff_chain`). -/

namespace SdoCore.Lib

open List

universe u v

section Sweep

variable {α : Type u} {β : Type v} [DecidableEq α]

/-- Visit the cells of the list in order; the cell `x` becomes `f h x`, where `h`
is the store left by the cells before it. -/
def sweep (f : (α → β) → α → β) (h : α → β) : List α → α → β
  | [] => h
  | x :: xs => sweep f (Function.update h x (f h x)) xs

theorem sweep_append (f : (α → β) → α → β) (h : α → β) (xs ys : List α) :
    sweep f h (xs ++ ys) = sweep f (sweep f h xs) ys := by
  induction xs generalizing h with
  | nil => rfl
  | cons x xs ih => exact ih _

theorem sweep_of_notMem (f : (α → β) → α → β) (h : α → β) {xs : List α} {y : α} (hy : y ∉ xs) :
    sweep f h xs y = h y := by
  induction xs generalizing h with
  | nil => rfl
  | cons x xs ih =>
    obtain ⟨hne, hy⟩ := not_or.mp (mt mem_cons.mpr hy)
    rw [sweep, ih _ hy, Function.update_of_ne hne]

/-- The cell visited after `pre` reads the store left by `pre`. -/
theorem sweep_split (f : (α → β) → α → β) (h : α → β) {pre post : List α} {x : α} (hx : x ∉ post) :
    sweep f h (pre ++ x :: post) x = f (sweep f h pre) x := by
  rw [sweep_append, sweep, sweep_of_notMem _ _ hx, Function.update_self]

/-- A cell already visited is final. -/
theorem sweep_visited (f : (α → β) → α → β) (h : α → β) {pre post : List α} {y : α}
    (hy : y ∉ post) : sweep f h (pre ++ post) y = sweep f h pre y := by
  rw [sweep_append, sweep_of_notMem _ _ hy]

/-- A field of a cell that no visit changes is the same after the pass. -/
theorem sweep_keeps {γ : Type*} (g : β → γ) (f : (α → β) → α → β) (hf : ∀ h x, g (f h x) = g (h x))
    (h : α → β) (xs : List α) (y : α) :
    g (sweep f h xs y) = g (h y) := by
  induction xs generalizing h with
  | nil => rfl
  | cons x xs ih =>
    rw [sweep, ih]
    by_cases hy : y = x
    · subst hy
      rw [Function.update_self, hf]
    · rw [Function.update_of_ne hy]

/-- A pass that looks at nothing but the cell it visits. -/
theorem sweep_local (g : β → β) (h : α → β) {xs : List α} (hn : xs.Nodup) (y : α) :
    sweep (fun h x => g (h x)) h xs y = if y ∈ xs then g (h y) else h y := by
  split
  · next hy =>
    obtain ⟨pre, post, rfl⟩ := append_of_mem hy
    have hn' : y ∉ pre ∧ y ∉ post := by
      rw [nodup_append, nodup_cons] at hn
      exact ⟨fun hp => hn.2.2 y hp y (by simp) rfl, hn.2.1.1⟩
    rw [sweep_split _ _ hn'.2, sweep_of_notMem _ _ hn'.1]
  · next hy => exact sweep_of_notMem _ _ hy

end Sweep

section Flow

variable {α : Type u} {dep : α → α → Prop} {S src T : α → Prop}

/-- If on a set closed under a well-founded `dep` a flag holds exactly of the
cells with a direct source that is flagged or tainted itself, it holds exactly
of the cells with a non-empty chain to a tainted one. -/
theorem flow_iff_chain (hwf : WellFounded (fun p x => dep x p)) (hS : ∀ x p, S x → dep x p → S p)
    (hT : ∀ x, S x → (T x ↔ ∃ p, dep x p ∧ (T p ∨ src p))) :
    ∀ x, S x → (T x ↔ ∃ l, Relation.TransGen dep x l ∧ src l) := by
  intro x
  induction x using hwf.induction with
  | _ x ih =>
    intro hx
    rw [hT x hx]
    constructor
    · rintro ⟨p, hp, ht | hs⟩
      · obtain ⟨l, hl, hs⟩ := (ih p hp (hS x p hx hp)).mp ht
        exact ⟨l, .head hp hl, hs⟩
      · exact ⟨p, .single hp, hs⟩
    · rintro ⟨l, hl, hs⟩
      -- the first link of the chain is the direct source
      rcases Relation.TransGen.head'_iff.mp hl with ⟨p, hp, hpl⟩
      rcases hpl.cases_head with rfl | ⟨q, hq, hql⟩
      · exact ⟨p, hp, .inr hs⟩
      · exact ⟨p, hp, .inl ((ih p hp (hS x p hx hp)).mpr ⟨l, .head' hq hql, hs⟩)⟩

end Flow

end SdoCore.Lib
