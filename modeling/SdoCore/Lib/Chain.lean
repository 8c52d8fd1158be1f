import Mathlib.Data.List.Basic

/-! Chains of pointers. `Segment next p xs q`: following `next` from `p` one passes
the cells `xs` and arrives at `q`. A chain is a segment that ends at `none`. The
two loops over a chain, collecting it (`walk`) and looking for the first cell that
is not passed over (`seek`), take a bound on the number of cells; a bound as long
as the chain is enough (`Segment.walk`, `Segment.seek`). -/

namespace SdoCore.Lib

open List

universe u

variable {α : Type u}

def Segment (next : α → Option α) (p : Option α) : List α → Option α → Prop
  | [], q => p = q
  | x :: xs, q => p = some x ∧ Segment next (next x) xs q

/-- The cells from `p` on; `none` if there are more than `n`. -/
def walk (next : α → Option α) : Nat → Option α → Option (List α)
  | _, none => some []
  | 0, some _ => none
  | n + 1, some x => (walk next n (next x)).map (x :: ·)

/-- The first cell from `p` on that is not passed over, and the one before it. -/
def seek (next : α → Option α) (pass : α → Bool) : Nat → α → Option α → Option (α × Option α)
  | _, prev, none => some (prev, none)
  | 0, _, some _ => none
  | n + 1, prev, some x => if pass x then seek next pass n x (next x) else some (prev, some x)

variable {next next' : α → Option α} {p q r : Option α} {xs ys : List α}

theorem segment_append :
    Segment next p (xs ++ ys) r ↔ ∃ q, Segment next p xs q ∧ Segment next q ys r := by
  induction xs generalizing p with
  | nil =>
    constructor
    · intro h
      exact ⟨p, rfl, h⟩
    · rintro ⟨q, rfl, h⟩
      exact h
  | cons x xs ih => simp only [cons_append, Segment, ih, exists_and_left, and_assoc]

theorem Segment.congr (h : Segment next p xs q) (he : ∀ x ∈ xs, next' x = next x) :
    Segment next' p xs q := by
  induction xs generalizing p with
  | nil => exact h
  | cons x xs ih =>
    refine ⟨h.1, ?_⟩
    rw [he x mem_cons_self]
    exact ih h.2 fun y hy => he y (mem_cons_of_mem _ hy)

theorem Segment.head? (h : Segment next p xs none) : p = xs.head? := by
  cases xs with
  | nil => exact h
  | cons x xs => exact h.1

theorem Segment.walk (h : Segment next p xs none) {n : Nat} (hn : xs.length ≤ n) :
    walk next n p = some xs := by
  induction xs generalizing p n with
  | nil =>
    cases h
    cases n <;> rfl
  | cons x xs ih =>
    obtain ⟨rfl, h⟩ := h
    cases n with
    | zero => simp at hn
    | succ n =>
      have hn : xs.length ≤ n := by simpa using hn
      rw [SdoCore.Lib.walk, ih h hn]
      rfl

/-- The loop stops behind the cells that are passed over. -/
theorem Segment.seek {init : List α} {prev last : α} (h : Segment next p (xs ++ ys) none)
    (hlast : prev :: xs = init ++ [last]) (pass : α → Bool) {n : Nat} (hn : (xs ++ ys).length ≤ n)
    (hxs : ∀ x ∈ xs, pass x) (hys : ∀ y, ys.head? = some y → pass y = false) :
    seek next pass n prev p = some (last, ys.head?) := by
  induction xs generalizing p n prev init with
  | nil =>
    have hp := h.head?
    have hprev : prev = last := by
      have := congrArg List.getLast? hlast
      simpa using this
    subst hp hprev
    cases ys with
    | nil => cases n <;> rfl
    | cons y ys =>
      cases n with
      | zero => simp at hn
      | succ n => simp [SdoCore.Lib.seek, hys y rfl]
  | cons x xs ih =>
    obtain ⟨rfl, h⟩ := h
    cases n with
    | zero => simp at hn
    | succ n =>
      cases init with
      | nil => simp at hlast
      | cons z init =>
        rw [SdoCore.Lib.seek, if_pos (hxs x mem_cons_self),
          ih h (List.cons.inj hlast).2 (by simpa using hn) fun y hy => hxs y (mem_cons_of_mem _ hy)]

/-- The loop over a chain from its first cell on: the cell behind which it stops can be made to
point to another chain. -/
theorem Segment.behind {top : α} (h : Segment next (some top) (top :: xs ++ ys) none)
    (hd : (top :: xs).Nodup) (pass : α → Bool) {n : Nat} (hn : (xs ++ ys).length ≤ n)
    (hxs : ∀ x ∈ xs, pass x) (hys : ∀ y, ys.head? = some y → pass y = false) :
    ∃ last ∈ top :: xs, SdoCore.Lib.seek next pass n top (next top) = some (last, ys.head?) ∧
      ∀ {next' : α → Option α} {zs : List α}, (∀ x ∈ top :: xs, x ≠ last → next' x = next x) →
        Segment next' (next' last) zs none → Segment next' (some top) (top :: xs ++ zs) none := by
  obtain ⟨init, last, hlast⟩ :=
    (eq_nil_or_concat (top :: xs)).resolve_left (cons_ne_nil _ _)
  rw [concat_eq_append] at hlast
  refine ⟨last, by rw [hlast]; simp, h.2.seek hlast pass hn hxs hys, fun hsame hzs => ?_⟩
  obtain ⟨q, hfront, -⟩ := segment_append.mp h
  rw [hlast] at hfront hsame hd ⊢
  obtain ⟨t, hinit, ht, -⟩ := segment_append.mp hfront
  refine segment_append.mpr ⟨_, segment_append.mpr ⟨t, hinit.congr fun x hx => ?_, ht, rfl⟩, hzs⟩
  refine hsame x (mem_append_left _ hx) ?_
  rintro rfl
  exact (nodup_append.mp hd).2.2 x hx x (mem_singleton_self x) rfl

end SdoCore.Lib
