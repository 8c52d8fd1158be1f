import Mathlib.Data.List.DropRight

/-! A double-ended list of keyed entries whose front part is live.

Entries are pushed at the front under growing keys; the live ones stand first, youngest in
front, and behind them at least `m` entries of the past, whose keys do not exceed `floor`. Each
edit of the list that a user makes has one lemma: pushing an entry, changing a value, retiring
the oldest live entry with or without dropping entries at the back, and dropping the youngest.
`Window.find` locates a live entry. -/

namespace SdoCore.Lib

open List
open Prod (fst)

variable {α : Type*}

/-- The keys of `l` are the live ones followed by at least `m` that are at most `floor`. -/
def Window (m floor : Nat) (live : List Nat) (l : List (Nat × α)) : Prop :=
  ∃ past, l.map fst = live ++ past ∧ m ≤ past.length ∧ ∀ k ∈ past, k ≤ floor

namespace Window

variable {m floor k n : Nat} {live : List Nat} {l l' : List (Nat × α)}

theorem of_keys (h : Window m floor live l) (hl : l'.map fst = l.map fst) :
    Window m floor live l' := by
  unfold Window
  rw [hl]
  exact h

theorem mono {m' floor' : Nat} (h : Window m floor live l) (hm : m' ≤ m) (hf : floor ≤ floor') :
    Window m' floor' live l := by
  obtain ⟨past, hl, hlen, hpast⟩ := h
  exact ⟨past, hl, hm.trans hlen, fun k hk => (hpast k hk).trans hf⟩

theorem push (h : Window m floor live l) (k : Nat) (v : α) :
    Window m floor (k :: live) ((k, v) :: l) := by
  obtain ⟨past, hl, hpast⟩ := h
  exact ⟨past, by simp [hl], hpast⟩

/-- The oldest live entry becomes past. -/
theorem retire (h : Window m floor (live ++ [k]) l) (hk : floor ≤ k) :
    Window (m + 1) k live l := by
  obtain ⟨past, hl, hlen, hpast⟩ := h
  refine ⟨k :: past, by simp [hl], by simpa using hlen, fun j hj => ?_⟩
  rcases mem_cons.mp hj with rfl | hj
  · exact Nat.le_refl _
  · exact (hpast j hj).trans hk

theorem dropLast (h : Window (m + 1) floor live l) : Window m floor live l.dropLast := by
  obtain ⟨past, hl, hlen, hpast⟩ := h
  have hne : past ≠ [] := by
    rintro rfl
    simp at hlen
  refine ⟨past.dropLast, ?_, ?_, fun j hj => hpast j (dropLast_subset _ hj)⟩
  · rw [map_dropLast, hl, dropLast_append_of_ne_nil hne]
  · rw [length_dropLast]
    omega

theorem rdropWhile_append {p : Nat → Bool} {xs ys : List Nat} (h : ∀ x ∈ xs, p x = false) :
    (xs ++ ys).rdropWhile p = xs ++ ys.rdropWhile p := by
  induction ys using List.reverseRecOn with
  | nil =>
    rw [append_nil, rdropWhile_nil, append_nil, rdropWhile_eq_self_iff]
    intro hne
    rw [h _ (getLast_mem hne)]
    exact Bool.false_ne_true
  | append_singleton ys y ih =>
    rw [← append_assoc]
    cases hy : p y with
    | true => rw [rdropWhile_concat_pos _ _ _ hy, rdropWhile_concat_pos _ _ _ hy, ih]
    | false =>
      have hn : ¬ p y = true := by rw [hy]; exact Bool.false_ne_true
      rw [rdropWhile_concat_neg _ _ _ hn, rdropWhile_concat_neg _ _ _ hn,
        append_assoc]

/-- Drop entries at the back as long as their keys are below those of the live ones. -/
theorem rdropWhile (h : Window m floor live l) (hk : ∀ j ∈ live, k ≤ j) :
    Window 0 floor live (l.rdropWhile fun e => e.1 < k) := by
  obtain ⟨past, hl, -, hpast⟩ := h
  have hmap : (l.rdropWhile fun e => e.1 < k).map fst =
      (l.map fst).rdropWhile fun j => j < k := by
    simp only [List.rdropWhile, ← map_reverse, dropWhile_map]
    rfl
  refine ⟨past.rdropWhile fun j => j < k, ?_, Nat.zero_le _,
    fun j hj => hpast j (( rdropWhile_prefix _ _).subset hj)⟩
  rw [hmap, hl, rdropWhile_append fun j hj => by simpa using hk j hj]

theorem dropWhile_live {past : List Nat} (hs : live.Pairwise (· > ·)) (hp : ∀ k ∈ past, k ≤ n) :
    (live ++ past).dropWhile (fun k => n < k) = live.filter (fun k => k ≤ n) ++ past := by
  induction live with
  | nil =>
    cases past with
    | nil => rfl
    | cons k past =>
      have hk : ¬ n < k := Nat.not_lt.mpr (hp k (by simp))
      simp [hk]
  | cons a live ih =>
    obtain ⟨ha, hs'⟩ := pairwise_cons.mp hs
    by_cases hn : n < a
    · have hle : ¬ a ≤ n := Nat.not_le.mpr hn
      simpa [hn, hle] using ih hs'
    have hall : live.filter (fun k => k ≤ n) = live :=
      filter_eq_self.mpr fun j hj => by
        have := ha j hj
        exact decide_eq_true (by omega)
    simp [hn, Nat.not_lt.mp hn, hall]

/-- Drop the youngest entries, those above `n`. -/
theorem dropWhile (h : Window m floor live l) (hs : live.Pairwise (· > ·)) (hn : floor ≤ n) :
    Window m floor (live.filter (fun k => k ≤ n)) (l.dropWhile fun e => n < e.1) := by
  obtain ⟨past, hl, hlen, hpast⟩ := h
  refine ⟨past, ?_, hlen, hpast⟩
  rw [← dropWhile_live hs fun k hk => (hpast k hk).trans hn, ← hl, dropWhile_map]
  rfl

/-- A live entry is found, with `m` entries behind it. -/
theorem find (h : Window m floor live l) (hk : k ∈ live) :
    ∃ j, l.findIdx? (fun e => e.1 == k) = some j ∧ j + m < l.length := by
  obtain ⟨past, hl, hlen, -⟩ := h
  have hmap : l.findIdx? (fun e => e.1 == k) = (l.map fst).findIdx? (fun j => j == k) := by
    rw [findIdx?_map]
    rfl
  obtain ⟨j, hj⟩ : ∃ j, live.findIdx? (fun j => j == k) = some j := by
    rw [← Option.isSome_iff_exists, List.findIdx?_isSome]
    exact any_eq_true.mpr ⟨k, hk, by simp⟩
  have hlt := (List.findIdx?_eq_some_iff_getElem.mp hj).1
  refine ⟨j, by rw [hmap, hl, List.findIdx?_append, hj]; rfl, ?_⟩
  have hlen' := congrArg List.length hl
  simp only [length_map, length_append] at hlen'
  omega

end Window

end SdoCore.Lib
