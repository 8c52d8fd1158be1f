import Mathlib.Logic.Function.Basic
import Mathlib.Data.List.Basic

/-! A set-associative cache (`CacheMemory.cc`) over any replacement policy and any
kind of entry. An address is a line number; a slot of a set is empty or holds the
line it was allocated for, and a cache carries that every line it holds is in its
own set and in one way only. The lemmas say what allocation, deallocation and a
change in place do to `lookup`. -/

namespace SdoCore.Mesi

open List

universe u

/-- `AbstractReplacementPolicy`: `touch` on a use, `getVictim` of a set. -/
structure ReplacementPolicy where
  State : Type
  touch : State → Nat → Nat → State
  getVictim : State → Nat → Nat

structure CacheParams where
  numSets : Nat
  assoc : Nat
  policy : ReplacementPolicy

def addressToCacheSet (p : CacheParams) (a : Nat) : Nat := a % p.numSets

structure CacheMemory (p : CacheParams) (ε : Type u) where
  slots : Nat → Nat → Option (Nat × ε)
  repl : p.policy.State
  placed : ∀ s w x, slots s w = some x → s = addressToCacheSet p x.1 ∧ w < p.assoc
  unique : ∀ s w v x y, slots s w = some x → slots s v = some y → x.1 = y.1 → w = v

namespace CacheMemory

variable {p : CacheParams} {ε : Type u}

def empty (r : p.policy.State) : CacheMemory p ε where
  slots := fun _ _ => none
  repl := r
  placed := by simp
  unique := by simp

/-- The entry of a slot if the slot holds the line `a`. -/
def entryFor (a : Nat) : Option (Nat × ε) → Option ε
  | some (b, e) => if b = a then some e else none
  | none => none

def lookup (c : CacheMemory p ε) (a : Nat) : Option ε :=
  (List.range p.assoc).findSome? fun w => entryFor a (c.slots (addressToCacheSet p a) w)

def isTagPresent (c : CacheMemory p ε) (a : Nat) : Bool := (c.lookup a).isSome

/-- The line is present or its set has an unused slot. -/
def cacheAvail (c : CacheMemory p ε) (a : Nat) : Bool :=
  (List.range p.assoc).any fun w =>
    match c.slots (addressToCacheSet p a) w with
    | some (b, _) => b == a
    | none => true

def findOpen (c : CacheMemory p ε) (s : Nat) : Option Nat :=
  (List.range p.assoc).find? fun w => (c.slots s w).isNone

@[simp]
theorem lookup_empty (r : p.policy.State) (a : Nat) :
    (empty r : CacheMemory p ε).lookup a = none := by
  simp [lookup, empty, entryFor]

variable {c : CacheMemory p ε} {a : Nat} {x : Nat × ε}

theorem lookup_eq_some_iff {e : ε} :
    c.lookup a = some e ↔ ∃ w, c.slots (addressToCacheSet p a) w = some (a, e) := by
  constructor
  · intro h
    obtain ⟨w, -, he⟩ := exists_of_findSome?_eq_some h
    refine ⟨w, ?_⟩
    rcases hs : c.slots (addressToCacheSet p a) w with _ | ⟨b, e'⟩
    · simp [hs, entryFor] at he
    rw [hs] at he
    simp only [entryFor, Option.ite_none_right_eq_some, Option.some.injEq] at he
    rw [he.1, he.2]
  · rintro ⟨w, hw⟩
    have hlt : w < p.assoc := (c.placed _ _ _ hw).2
    rcases hl : c.lookup a with _ | e'
    · have := List.findSome?_eq_none_iff.mp hl w (mem_range.mpr hlt)
      simp [hw, entryFor] at this
    obtain ⟨v, -, he⟩ := exists_of_findSome?_eq_some hl
    rcases hs : c.slots (addressToCacheSet p a) v with _ | ⟨b, e''⟩
    · simp [hs, entryFor] at he
    rw [hs] at he
    simp only [entryFor, Option.ite_none_right_eq_some, Option.some.injEq] at he
    -- both ways hold the line, so they are the same way
    have hwv : w = v := c.unique _ _ _ _ _ hw hs he.1.symm
    subst hwv
    rw [hw] at hs
    cases hs
    rw [he.2]

theorem lookup_eq_none (h : c.lookup a = none) {s w : Nat} (hx : c.slots s w = some x) :
    x.1 ≠ a := by
  rintro rfl
  have hs := (c.placed _ _ _ hx).1
  subst hs
  have : c.lookup x.1 = some x.2 := lookup_eq_some_iff.mpr ⟨w, hx⟩
  rw [h] at this
  cases this

/-- Put the line, which the cache does not hold, into a way of its set. -/
def fill (c : CacheMemory p ε) (a : Nat) (e : ε) (w : Nat) (hw : w < p.assoc)
    (ha : c.lookup a = none) : CacheMemory p ε where
  slots := fun s v => if s = addressToCacheSet p a ∧ v = w then some (a, e) else c.slots s v
  repl := p.policy.touch c.repl (addressToCacheSet p a) w
  placed := by
    intro s v x hx
    split at hx
    · next h => cases hx; exact ⟨h.1, h.2 ▸ hw⟩
    · exact c.placed s v x hx
  unique := by
    intro s v v' x y hx hy hxy
    split at hx <;> split at hy
    · next h h' => rw [h.2, h'.2]
    · cases hx; exact absurd hxy.symm (lookup_eq_none ha hy)
    · cases hy; exact absurd hxy (lookup_eq_none ha hx)
    · exact c.unique s v v' x y hx hy hxy

theorem lt_of_findOpen {s w : Nat} (h : c.findOpen s = some w) :
    w < p.assoc :=
  mem_range.mp (mem_of_find?_eq_some h)

def allocate (c : CacheMemory p ε) (a : Nat) (e : ε) : Option (CacheMemory p ε) :=
  if ha : c.lookup a = none then
    match hw : c.findOpen (addressToCacheSet p a) with
    | some w => some (c.fill a e w (lt_of_findOpen hw) ha)
    | none => none
  else none

/-- Empty the slot of the line. -/
def clearSlot (a : Nat) : Option (Nat × ε) → Option (Nat × ε)
  | some (b, e) => if b = a then none else some (b, e)
  | none => none

theorem clearSlot_eq_some {o : Option (Nat × ε)} (h : clearSlot a o = some x) : o = some x := by
  rcases o with _ | ⟨b, e⟩
  · cases h
  · simp only [clearSlot, Option.ite_none_left_eq_some] at h
    exact h.2

def clear (c : CacheMemory p ε) (a : Nat) : CacheMemory p ε where
  slots := fun s w => clearSlot a (c.slots s w)
  repl := c.repl
  placed := fun s w x hx => c.placed s w x (clearSlot_eq_some hx)
  unique := fun s w v x y hx hy => c.unique s w v x y (clearSlot_eq_some hx) (clearSlot_eq_some hy)

def deallocate (c : CacheMemory p ε) (a : Nat) : Option (CacheMemory p ε) :=
  if c.isTagPresent a then some (c.clear a) else none

/-- The line in the victim's slot. -/
def cacheProbe (c : CacheMemory p ε) (a : Nat) : Option Nat :=
  (c.slots (addressToCacheSet p a) (p.policy.getVictim c.repl (addressToCacheSet p a))).map (·.1)

def findTagInSet (c : CacheMemory p ε) (a : Nat) : Option Nat :=
  (List.range p.assoc).find? fun w => (entryFor a (c.slots (addressToCacheSet p a) w)).isSome

def setMRU (c : CacheMemory p ε) (a : Nat) : CacheMemory p ε :=
  match c.findTagInSet a with
  | some w => { c with repl := p.policy.touch c.repl (addressToCacheSet p a) w }
  | none => c

def modifySlot (a : Nat) (f : ε → ε) : Option (Nat × ε) → Option (Nat × ε)
  | some (b, e) => if b = a then some (b, f e) else some (b, e)
  | none => none

theorem modifySlot_eq_some {f : ε → ε} {o : Option (Nat × ε)} (h : modifySlot a f o = some x) :
    ∃ e, o = some (x.1, e) := by
  rcases o with _ | ⟨b, e⟩
  · cases h
  by_cases hb : b = a
  · simp only [modifySlot, hb, if_true, Option.some.injEq] at h
    exact ⟨e, by rw [hb, ← h]⟩
  · simp only [modifySlot, hb, if_false, Option.some.injEq] at h
    exact ⟨e, by rw [← h]⟩

/-- Change the entry of the line in place. -/
def modify (c : CacheMemory p ε) (a : Nat) (f : ε → ε) : CacheMemory p ε where
  slots := fun s w => modifySlot a f (c.slots s w)
  repl := c.repl
  placed := by
    intro s w x hx
    obtain ⟨e, he⟩ := modifySlot_eq_some hx
    exact c.placed s w (x.1, e) he
  unique := by
    intro s w v x y hx hy hxy
    obtain ⟨e, he⟩ := modifySlot_eq_some hx
    obtain ⟨e', he'⟩ := modifySlot_eq_some hy
    exact c.unique s w v _ _ he he' hxy

/-! ## Lookup after each operation -/

theorem findSome?_map' {α β γ : Type*} (l : List α) (g : α → Option β) (f : β → γ) :
    (l.findSome? fun x => (g x).map f) = (l.findSome? g).map f := by
  induction l with
  | nil => rfl
  | cons x l ih =>
    rw [findSome?_cons, findSome?_cons]
    cases g x with
    | none => exact ih
    | some b => rfl

theorem entryFor_modifySlot_self (a : Nat) (f : ε → ε) (o : Option (Nat × ε)) :
    entryFor a (modifySlot a f o) = (entryFor a o).map f := by
  rcases o with _ | ⟨b, e⟩
  · rfl
  · by_cases h : b = a <;> simp [modifySlot, entryFor, h]

theorem entryFor_modifySlot_ne {b : Nat} (hab : b ≠ a) (f : ε → ε) (o : Option (Nat × ε)) :
    entryFor b (modifySlot a f o) = entryFor b o := by
  rcases o with _ | ⟨d, e⟩
  · rfl
  by_cases h : d = a
  · subst h
    simp [modifySlot, entryFor, Ne.symm hab]
  · simp [modifySlot, h]

theorem lookup_modify (c : CacheMemory p ε) (a b : Nat) (f : ε → ε) :
    (c.modify a f).lookup b = if b = a then (c.lookup a).map f else c.lookup b := by
  by_cases h : b = a
  · subst h
    simp only [lookup, modify, entryFor_modifySlot_self, if_true]
    exact findSome?_map' _ _ _
  · simp only [lookup, modify, entryFor_modifySlot_ne h, if_neg h]

/-- A change in place that changes nothing. -/
theorem modify_eq_self {f : ε → ε} (h : ∀ e, c.lookup a = some e → f e = e) : c.modify a f = c := by
  have hslots : (c.modify a f).slots = c.slots := by
    funext s w
    change modifySlot a f (c.slots s w) = c.slots s w
    rcases hx : c.slots s w with _ | ⟨b, e⟩
    · rfl
    by_cases hb : b = a
    · subst hb
      obtain rfl := (c.placed _ _ _ hx).1
      simp [modifySlot, h e (lookup_eq_some_iff.mpr ⟨w, hx⟩)]
    · simp [modifySlot, hb]
  rcases c with ⟨slots, repl, _, _⟩
  simp only [modify] at hslots ⊢
  congr

theorem entryFor_clearSlot_self (a : Nat) (o : Option (Nat × ε)) :
    entryFor a (clearSlot a o) = none := by
  rcases o with _ | ⟨b, e⟩
  · rfl
  · by_cases h : b = a <;> simp [clearSlot, entryFor, h]

theorem entryFor_clearSlot_ne {b : Nat} (hab : b ≠ a) (o : Option (Nat × ε)) :
    entryFor b (clearSlot a o) = entryFor b o := by
  rcases o with _ | ⟨d, e⟩
  · rfl
  by_cases h : d = a
  · subst h
    simp [clearSlot, entryFor, Ne.symm hab]
  · simp [clearSlot, h]

theorem lookup_deallocate {c' : CacheMemory p ε} (h : c.deallocate a = some c') (b : Nat) :
    c'.lookup b = if b = a then none else c.lookup b := by
  unfold deallocate at h
  split at h
  · cases h
    by_cases hb : b = a
    · subst hb
      simp [lookup, clear, entryFor_clearSlot_self]
    · simp only [lookup, clear, entryFor_clearSlot_ne hb, if_neg hb]
  · cases h

theorem lookup_allocate {c' : CacheMemory p ε} {e : ε} (h : c.allocate a e = some c') (b : Nat) :
    c'.lookup b = if b = a then some e else c.lookup b := by
  unfold allocate at h
  split at h
  · next ha =>
    split at h
    · next w hw =>
      cases h
      have hopen : c.slots (addressToCacheSet p a) w = none := by
        simpa using find?_some hw
      by_cases hb : b = a
      · subst hb
        rw [if_pos rfl, lookup_eq_some_iff]
        exact ⟨w, by simp [fill]⟩
      · rw [if_neg hb]
        -- the slot that was filled was empty and now holds another line
        apply Option.ext
        intro d
        rw [lookup_eq_some_iff, lookup_eq_some_iff]
        apply exists_congr
        intro v
        simp only [fill]
        split
        · next hv => rw [hv.1, hv.2, hopen]; simp [Ne.symm hb]
        · rfl
    · cases h
  · cases h

@[simp] theorem lookup_setMRU (c : CacheMemory p ε) (a b : Nat) :
    (c.setMRU a).lookup b = c.lookup b := by
  unfold setMRU
  split <;> rfl

end CacheMemory

end SdoCore.Mesi
