import Mathlib.Algebra.Ring.Nat
import Mathlib.Data.List.Nodup
import Mathlib.Algebra.Order.BigOperators.Group.List

/-! Finite tables with distinct keys. A table is a list of entries that carries the proof that
its keys are distinct. `total w` adds up a weight of the values: what one operation adds to or
takes from a table is read off it, whatever else the table holds. -/

namespace SdoCore.Lib

open List

universe u v

structure Table (κ : Type u) (ν : Type v) where
  entries : List (κ × ν)
  nodup : (entries.map Prod.fst).Nodup

namespace Table

variable {κ : Type u} {ν : Type v}

def empty : Table κ ν := ⟨[], .nil⟩

def keys (t : Table κ ν) : List κ := t.entries.map Prod.fst

def size (t : Table κ ν) : Nat := t.entries.length

def total (t : Table κ ν) (w : ν → Nat) : Nat := (t.entries.map fun e => w e.2).sum

def insert (t : Table κ ν) (k : κ) (v : ν) (h : k ∉ t.keys) : Table κ ν where
  entries := t.entries ++ [(k, v)]
  nodup := by
    rw [map_append, nodup_append']
    refine ⟨t.nodup, nodup_singleton _, ?_⟩
    rw [disjoint_right]
    intro a ha
    rw [mem_singleton.mp ha]
    exact h

section Insert

variable {t : Table κ ν} {k : κ} {v : ν}

theorem mem_keys_of_mem (h : (k, v) ∈ t.entries) : k ∈ t.keys := mem_map.mpr ⟨_, h, rfl⟩

theorem total_insert (w : ν → Nat) (h : k ∉ t.keys) :
    (t.insert k v h).total w = t.total w + w v := by
  simp [total, insert]

theorem size_insert (h : k ∉ t.keys) : (t.insert k v h).size = t.size + 1 := by
  simp [size, insert]

theorem mem_insert (h : k ∉ t.keys) {e : κ × ν} :
    e ∈ (t.insert k v h).entries ↔ e ∈ t.entries ∨ e = (k, v) := by
  simp [insert]

theorem mem_keys_insert (h : k ∉ t.keys) {k' : κ} :
    k' ∈ (t.insert k v h).keys ↔ k' ∈ t.keys ∨ k' = k := by
  simp [insert, keys]

end Insert

variable [DecidableEq κ]

def lookup (t : Table κ ν) (k : κ) : Option ν :=
  (t.entries.find? fun e => decide (e.1 = k)).map Prod.snd

def erase (t : Table κ ν) (k : κ) : Table κ ν where
  entries := t.entries.filter fun e => decide (e.1 ≠ k)
  nodup := t.nodup.sublist (filter_sublist.map _)

def modify (t : Table κ ν) (k : κ) (f : ν → ν) : Table κ ν where
  entries := t.entries.map fun e => (e.1, if e.1 = k then f e.2 else e.2)
  nodup := by
    rw [map_map]
    exact t.nodup

section Lookup

variable {t : Table κ ν} {k k' : κ} {v v' : ν} {f : ν → ν}

theorem mem_of_lookup (h : t.lookup k = some v) : (k, v) ∈ t.entries := by
  obtain ⟨⟨k', v'⟩, he, rfl⟩ := Option.map_eq_some_iff.mp h
  have hk : k' = k := by simpa using find?_some he
  subst hk
  exact mem_of_find?_eq_some he

theorem lookup_eq_none : t.lookup k = none ↔ k ∉ t.keys := by
  simp only [lookup, Option.map_eq_none_iff, find?_eq_none, decide_eq_true_eq, keys,
    mem_map, not_exists, not_and]

/-- The entry found, with the entries around it. -/
theorem split_of_lookup (h : t.lookup k = some v) :
    ∃ l₁ l₂, t.entries = l₁ ++ (k, v) :: l₂ ∧ (∀ e ∈ l₁, e.1 ≠ k) ∧ ∀ e ∈ l₂, e.1 ≠ k := by
  obtain ⟨l₁, l₂, heq⟩ := append_of_mem (mem_of_lookup h)
  have hn := t.nodup
  rw [heq, map_append, map_cons, nodup_append', nodup_cons] at hn
  obtain ⟨-, ⟨hk, -⟩, hd⟩ := hn
  refine ⟨l₁, l₂, heq, fun e he hek => ?_, fun e he hek => ?_⟩
  · exact disjoint_left.mp hd (mem_map.mpr ⟨e, he, hek⟩) mem_cons_self
  · exact hk (mem_map.mpr ⟨e, he, hek⟩)

theorem entries_erase {l₁ l₂ : List (κ × ν)} (heq : t.entries = l₁ ++ (k, v) :: l₂)
    (h₁ : ∀ e ∈ l₁, e.1 ≠ k) (h₂ : ∀ e ∈ l₂, e.1 ≠ k) : (t.erase k).entries = l₁ ++ l₂ := by
  have hf : ∀ l : List (κ × ν), (∀ e ∈ l, e.1 ≠ k) → l.filter (fun e => decide (e.1 ≠ k)) = l :=
    fun l hl => filter_eq_self.mpr fun e he => decide_eq_true (hl e he)
  show t.entries.filter _ = _
  rw [heq, filter_append, filter_cons_of_neg (by simp), hf l₁ h₁, hf l₂ h₂]

theorem entries_modify {l₁ l₂ : List (κ × ν)} (heq : t.entries = l₁ ++ (k, v) :: l₂)
    (h₁ : ∀ e ∈ l₁, e.1 ≠ k) (h₂ : ∀ e ∈ l₂, e.1 ≠ k) :
    (t.modify k f).entries = l₁ ++ (k, f v) :: l₂ := by
  have hm : ∀ l : List (κ × ν), (∀ e ∈ l, e.1 ≠ k) →
      l.map (fun e => (e.1, if e.1 = k then f e.2 else e.2)) = l := by
    intro l hl
    refine (map_congr_left fun e he => ?_).trans (map_id l)
    rw [if_neg (hl e he)]
    rfl
  show t.entries.map _ = _
  rw [heq, map_append, map_cons, hm l₁ h₁, hm l₂ h₂, if_pos rfl]

theorem lookup_of_mem (h : (k, v) ∈ t.entries) : t.lookup k = some v := by
  cases hl : t.lookup k with
  | none => exact absurd (mem_keys_of_mem h) (lookup_eq_none.mp hl)
  | some v' =>
    obtain ⟨l₁, l₂, heq, h₁, h₂⟩ := split_of_lookup hl
    rw [heq, mem_append, mem_cons] at h
    rcases h with h | h | h
    · exact absurd rfl (h₁ _ h)
    · rw [(Prod.mk.inj h).2]
    · exact absurd rfl (h₂ _ h)

end Lookup

section Weigh

variable {t : Table κ ν} {k : κ} {v : ν} {f : ν → ν} (w : ν → Nat)

theorem total_erase (h : t.lookup k = some v) : t.total w = w v + (t.erase k).total w := by
  obtain ⟨l₁, l₂, heq, h₁, h₂⟩ := split_of_lookup h
  simp only [total, heq, entries_erase heq h₁ h₂, map_append, map_cons, sum_append,
    sum_cons]
  omega

theorem total_modify (h : t.lookup k = some v) :
    (t.modify k f).total w + w v = t.total w + w (f v) := by
  obtain ⟨l₁, l₂, heq, h₁, h₂⟩ := split_of_lookup h
  simp only [total, heq, entries_modify heq h₁ h₂, map_append, map_cons, sum_append,
    sum_cons]
  omega

theorem size_erase (h : t.lookup k = some v) : t.size = (t.erase k).size + 1 := by
  obtain ⟨l₁, l₂, heq, h₁, h₂⟩ := split_of_lookup h
  simp only [size, heq, entries_erase heq h₁ h₂, length_append, length_cons]
  omega

theorem size_modify : (t.modify k f).size = t.size := length_map ..

end Weigh

section Members

variable {t : Table κ ν} {k : κ} {v : ν} {f : ν → ν} {e : κ × ν}

theorem mem_erase : e ∈ (t.erase k).entries ↔ e ∈ t.entries ∧ e.1 ≠ k := by
  simp [erase]

theorem mem_modify (he : e ∈ (t.modify k f).entries) :
    e ∈ t.entries ∧ e.1 ≠ k ∨ ∃ v, (k, v) ∈ t.entries ∧ e = (k, f v) := by
  obtain ⟨⟨k', v⟩, hmem, rfl⟩ := mem_map.mp he
  by_cases hk : k' = k
  · subst hk
    exact .inr ⟨v, hmem, by simp⟩
  · exact .inl ⟨by simpa [hk] using hmem, hk⟩

theorem mem_keys_erase {k' : κ} : k' ∈ (t.erase k).keys ↔ k' ∈ t.keys ∧ k' ≠ k := by
  simp only [keys, mem_map, mem_erase]
  constructor
  · rintro ⟨e, ⟨he, hne⟩, rfl⟩
    exact ⟨⟨e, he, rfl⟩, hne⟩
  · rintro ⟨⟨e, he, rfl⟩, hne⟩
    exact ⟨e, ⟨he, hne⟩, rfl⟩

theorem keys_modify : (t.modify k f).keys = t.keys := by
  show (t.entries.map _).map _ = t.entries.map _
  rw [map_map]
  rfl

end Members

end Table

end SdoCore.Lib
