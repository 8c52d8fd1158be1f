import Mathlib.Data.Nat.Bitwise
import SdoCore.Lib.BitTree
import SdoCore.Mesi.CacheMemory

/-! Tree-based pseudo-LRU replacement (`PseudoLRUPolicy.cc`). The tree of a set is packed into the
bits of one word, node `k` with its sons `2 * k + 1` and `2 * k + 2`; the shifts are those of the
32-bit `int` they are written with, widened with its sign.

* `decode_touchLoop`, `victimLoop_eq`: on the tree that is packed in the word, `touch` and
  `getVictim` are the operations of `BitTree`
* `victim_not_recent`: the way touched last is not the victim, and with `2 ^ k` ways a touched way
  is safe for fewer than `k` touches of its set -/

namespace SdoCore.Mesi

open Lib
open Nat (pow_succ)

/-! ## The policy -/

/-- The ceiling power of two; `assoc` rounds are enough. -/
def effectiveAssocLoop (assoc : Nat) : Nat → Nat → Nat
  | 0, eff => eff
  | n + 1, eff => if eff < assoc then effectiveAssocLoop assoc n (eff <<< 1) else eff

def effectiveAssoc (assoc : Nat) : Nat := effectiveAssocLoop assoc assoc 1

def numLevelsLoop : Nat → Nat → Nat
  | 0, _ => 0
  | n + 1, tmp => if tmp / 2 = 0 then 0 else numLevelsLoop n (tmp / 2) + 1

def numLevels (assoc : Nat) : Nat := numLevelsLoop (effectiveAssoc assoc) (effectiveAssoc assoc)

/-- The assertions of the constructor are fields; the state of the trees is free. -/
structure PseudoLRUPolicy where
  numSets : Nat
  assoc : Nat
  trees : Nat → BitVec 64
  lastRef : Nat → Nat → Nat
  sets_pos : 0 < numSets
  one_lt_assoc : 1 < assoc
  assoc_le : assoc ≤ 32

/-- `m_trees[set] |= node_val << tree_index` or `m_trees[set] &= ~(1 << tree_index)`. -/
def setNode (tree : BitVec 64) (treeIndex : Nat) (nodeVal : Bool) : BitVec 64 :=
  if nodeVal then tree ||| ((1#32) <<< treeIndex).signExtend 64
  else tree &&& (~~~((1#32) <<< treeIndex)).signExtend 64

/-- The loop of `touch`, with `i` levels to go. -/
def touchLoop (index : Nat) : (i treeIndex : Nat) → BitVec 64 → BitVec 64
  | 0, _, tree => tree
  | i + 1, treeIndex, tree =>
    let nodeVal := index.testBit i
    touchLoop index i (if nodeVal then treeIndex * 2 + 2 else treeIndex * 2 + 1)
      (setNode tree treeIndex nodeVal)

/-- The loop of `getVictim`: `n` levels to go, `i` done. -/
def victimLoop (eff : Nat) (tree : BitVec 64) : (n i treeIndex index : Nat) → Nat
  | 0, _, _, index => index
  | n + 1, i, treeIndex, index =>
    let nodeVal := tree.getLsbD treeIndex
    victimLoop eff tree n (i + 1) (if nodeVal then treeIndex * 2 + 1 else treeIndex * 2 + 2)
      (index + if nodeVal then 0 else eff >>> (i + 1))

namespace PseudoLRUPolicy

def touch (p : PseudoLRUPolicy) (set index time : Nat) : Option PseudoLRUPolicy :=
  if index < p.assoc ∧ set < p.numSets then
    some { p with
      trees := Function.update p.trees set (touchLoop index (numLevels p.assoc) 0 (p.trees set))
      lastRef := Function.update p.lastRef set (Function.update (p.lastRef set) index time) }
  else none

/-- `none` where the assertion on the leaf fails. -/
def getVictim (p : PseudoLRUPolicy) (set : Nat) : Option Nat :=
  let index := victimLoop (effectiveAssoc p.assoc) (p.trees set) (numLevels p.assoc) 0 0 0
  if index < effectiveAssoc p.assoc then
    some (if index > p.assoc - 1 then p.assoc - 1 else index)
  else none

/-- A sequence of uses: set, way and time of each. -/
def touches : PseudoLRUPolicy → List (Nat × Nat × Nat) → Option PseudoLRUPolicy
  | p, [] => some p
  | p, (set, index, time) :: ts => (p.touch set index time).bind fun q => q.touches ts

end PseudoLRUPolicy

/-! ## The number of levels -/

theorem effectiveAssoc_spec : ∀ assoc ≤ 32, 1 < assoc →
    effectiveAssoc assoc = 2 ^ numLevels assoc ∧ numLevels assoc ≤ 5 ∧ 0 < numLevels assoc ∧
      assoc ≤ effectiveAssoc assoc ∧ effectiveAssoc assoc / 2 < assoc := by
  decide

variable {k n j : Nat} {word : BitVec 64}

theorem numLevels_pow (h : 2 ^ k ≤ 32) : numLevels (2 ^ k) = k := by
  have hk : k ≤ 5 := by
    by_contra hlt
    have : 2 ^ 6 ≤ 2 ^ k := Nat.pow_le_pow_right (by decide) (by omega)
    omega
  exact (by decide : ∀ k ≤ 5, numLevels (2 ^ k) = k) k hk

/-! ## Paths -/

/-- The bits of a way from the top, below level `n`. -/
def path (w : Nat) : Nat → List Bool
  | 0 => []
  | n + 1 => w.testBit n :: path w n

def ofPath : List Bool → Nat
  | [] => 0
  | b :: p => (if b then 2 ^ p.length else 0) + ofPath p

theorem ofPath_lt (p : List Bool) : ofPath p < 2 ^ p.length := by
  induction p with
  | nil => exact Nat.one_pos
  | cons b p ih =>
    rw [ofPath, List.length_cons, pow_succ]
    split <;> omega

theorem path_congr {v w : Nat} (h : ∀ i < n, v.testBit i = w.testBit i) : path v n = path w n := by
  induction n with
  | zero => rfl
  | succ n ih =>
    rw [path, path, h n (Nat.lt_succ_self n), ih fun i hi => h i (Nat.lt_succ_of_lt hi)]

theorem path_ofPath (p : List Bool) : path (ofPath p) p.length = p := by
  induction p with
  | nil => rfl
  | cons b p ih =>
    have hlt := ofPath_lt p
    rw [List.length_cons, path]
    have hlow : path (ofPath (b :: p)) p.length = path (ofPath p) p.length := by
      refine path_congr fun i hi => ?_
      rw [ofPath]
      split
      · exact Nat.testBit_two_pow_add_gt hi _
      · rw [Nat.zero_add]
    rw [hlow, ih, ofPath]
    cases b with
    | true => simp [Nat.testBit_two_pow_add_eq, Nat.testBit_lt_two_pow hlt]
    | false => simp [Nat.testBit_lt_two_pow hlt]

/-! ## The tree in a word -/

def decode (tree : BitVec 64) : (n k : Nat) → BitTree
  | 0, _ => .leaf
  | n + 1, k => .node (tree.getLsbD k) (decode tree n (k * 2 + 1)) (decode tree n (k * 2 + 2))

theorem length_victim_decode (tree : BitVec 64) (n k : Nat) :
    (decode tree n k).victim.length = n := by
  induction n generalizing k with
  | zero => rfl
  | succ n ih =>
    rw [decode]
    cases tree.getLsbD k with
    | true => rw [BitTree.victim, List.length_cons, ih]
    | false => rw [BitTree.victim, List.length_cons, ih]

/-- Node `j` is `k` or below it. -/
def Below (k j : Nat) : Prop := ∃ d, (j + 1) / 2 ^ d = k + 1

theorem Below.refl (k : Nat) : Below k k := ⟨0, by simp⟩

theorem Below.of_left (h : Below (k * 2 + 1) j) : Below k j := by
  obtain ⟨d, hd⟩ := h
  exact ⟨d + 1, by rw [pow_succ, ← Nat.div_div_eq_div_mul, hd]; omega⟩

theorem Below.of_right (h : Below (k * 2 + 2) j) : Below k j := by
  obtain ⟨d, hd⟩ := h
  exact ⟨d + 1, by rw [pow_succ, ← Nat.div_div_eq_div_mul, hd]; omega⟩

theorem Below.le (h : Below k j) : k ≤ j := by
  obtain ⟨d, hd⟩ := h
  have := Nat.div_le_self (j + 1) (2 ^ d)
  omega

/-- The two sons have nothing in common below them. -/
theorem Below.disjoint (hl : Below (k * 2 + 1) j) (hr : Below (k * 2 + 2) j) : False := by
  obtain ⟨d, hd⟩ := hl
  obtain ⟨e, he⟩ := hr
  rcases Nat.le_total d e with hde | hed
  · obtain ⟨f, rfl⟩ := Nat.exists_eq_add_of_le hde
    rw [Nat.pow_add, ← Nat.div_div_eq_div_mul, hd] at he
    have := Nat.div_le_self (k * 2 + 1 + 1) (2 ^ f)
    omega
  · obtain ⟨f, rfl⟩ := Nat.exists_eq_add_of_le hed
    rw [Nat.pow_add, ← Nat.div_div_eq_div_mul, he] at hd
    cases f with
    | zero =>
      rw [Nat.pow_zero, Nat.div_one] at hd
      omega
    | succ f =>
      have h2 : (k * 2 + 2 + 1) / 2 ^ (f + 1) ≤ (k * 2 + 2 + 1) / 2 := by
        refine Nat.div_le_div_left ?_ (by decide)
        rw [pow_succ]
        exact Nat.le_mul_of_pos_left 2 (Nat.two_pow_pos f)
      omega

theorem decode_congr {t u : BitVec 64}
    (h : ∀ j, Below k j → t.getLsbD j = u.getLsbD j) : decode t n k = decode u n k := by
  induction n generalizing k with
  | zero => rfl
  | succ n ih =>
    rw [decode, decode, h k (.refl k), ih fun j hj => h j hj.of_left,
      ih fun j hj => h j hj.of_right]

/-- The 32-bit shifts reach every node of five levels. -/
theorem signExtend_shift : ∀ k < 31, ((1#32) <<< k).signExtend 64 = (1#64) <<< k := by
  decide

theorem signExtend_not_shift : ∀ k < 31,
    (~~~((1#32) <<< k)).signExtend 64 = ~~~((1#64) <<< k) := by
  decide

theorem getLsbD_one_shift (hk : k < 31) (j : Nat) :
    ((1#64) <<< k).getLsbD j = decide (j = k) := by
  change (BitVec.twoPow 64 k).getLsbD j = _
  rw [BitVec.getLsbD_twoPow, decide_eq_true (by omega), Bool.true_and]
  exact decide_eq_decide.mpr eq_comm

theorem getLsbD_setNode (word : BitVec 64) (hk : k < 31) (b : Bool) (j : Nat) :
    (setNode word k b).getLsbD j = if j = k then b else word.getLsbD j := by
  cases b with
  | true =>
    rw [setNode, if_pos rfl, signExtend_shift k hk, BitVec.getLsbD_or, getLsbD_one_shift hk]
    by_cases hj : j = k <;> simp [hj]
  | false =>
    rw [setNode, if_neg Bool.false_ne_true, signExtend_not_shift k hk, BitVec.getLsbD_and,
      BitVec.getLsbD_not, getLsbD_one_shift hk]
    by_cases hj : j = k
    · simp [hj]
    by_cases hj64 : j < 64
    · simp [hj, hj64]
    · simp [hj, hj64, BitVec.getLsbD_of_ge word j (Nat.not_lt.mp hj64)]

section
variable (h : (k + 2) * 2 ^ (n + 1) ≤ 64)
include h

/-- Where the loop is, the rest of the levels stays within the word. -/
theorem lt_of_levels : k < 31 := by
  have h2 : (k + 2) * 2 ≤ (k + 2) * 2 ^ (n + 1) := by
    refine Nat.mul_le_mul_left _ ?_
    rw [pow_succ]
    exact Nat.le_mul_of_pos_left 2 (Nat.two_pow_pos n)
  omega

theorem levels_left : (k * 2 + 1 + 2) * 2 ^ n ≤ 64 := by
  refine Nat.le_trans ?_ h
  rw [pow_succ, Nat.mul_comm (2 ^ n) 2, ← Nat.mul_assoc]
  exact Nat.mul_le_mul_right _ (by omega)

theorem levels_right : (k * 2 + 2 + 2) * 2 ^ n ≤ 64 := by
  refine Nat.le_trans ?_ h
  rw [pow_succ, Nat.mul_comm (2 ^ n) 2, ← Nat.mul_assoc]
  exact Nat.mul_le_mul_right _ (by omega)

end

/-- `touch` stays below the node it starts from. -/
theorem touchLoop_frame (w : Nat) (hk : (k + 2) * 2 ^ n ≤ 64)
    (hj : ¬Below k j) : (touchLoop w n k word).getLsbD j = word.getLsbD j := by
  induction n generalizing k word with
  | zero => rfl
  | succ n ih =>
    have hjk : j ≠ k := fun h => hj (h ▸ .refl k)
    have hset := getLsbD_setNode word (lt_of_levels hk) (w.testBit n) j
    rw [if_neg hjk] at hset
    rw [touchLoop]
    cases hb : w.testBit n with
    | true => exact (ih (levels_right hk) fun h => hj h.of_right).trans (hb ▸ hset)
    | false => exact (ih (levels_left hk) fun h => hj h.of_left).trans (hb ▸ hset)

theorem decode_touchLoop (w : Nat) (hk : (k + 2) * 2 ^ n ≤ 64) :
    decode (touchLoop w n k word) n k = (decode word n k).touch (path w n) := by
  induction n generalizing k word with
  | zero => rfl
  | succ n ih =>
    have hset := getLsbD_setNode word (lt_of_levels hk) (w.testBit n)
    -- below either son the node itself is not seen
    have hson (son : Nat) (hlt : k < son) :
        decode (setNode word k (w.testBit n)) n son = decode word n son := by
      refine decode_congr fun j hj => ?_
      have := hj.le
      rw [hset, if_neg (by omega)]
    have hleft := hson (k * 2 + 1) (by omega)
    have hright := hson (k * 2 + 2) (by omega)
    rw [touchLoop, decode, decode, path]
    cases hb : w.testBit n with
    | true =>
      rw [hb] at hset hleft hright
      have hroot : ¬Below (k * 2 + 2) k := fun h => by have := h.le; omega
      have hother : decode (touchLoop w n (k * 2 + 2) (setNode word k true)) n (k * 2 + 1) =
          decode (setNode word k true) n (k * 2 + 1) :=
        decode_congr fun j hj => touchLoop_frame w (levels_right hk) fun hr => hj.disjoint hr
      simp only [if_true, BitTree.touch, hother, touchLoop_frame w (levels_right hk) hroot, hset,
        ih (levels_right hk), hleft, hright]
    | false =>
      rw [hb] at hset hleft hright
      have hroot : ¬Below (k * 2 + 1) k := fun h => by have := h.le; omega
      have hother : decode (touchLoop w n (k * 2 + 1) (setNode word k false)) n (k * 2 + 2) =
          decode (setNode word k false) n (k * 2 + 2) :=
        decode_congr fun j hj => touchLoop_frame w (levels_left hk) fun hl => hl.disjoint hj
      simp only [Bool.false_eq_true, if_false, if_true, BitTree.touch, hother,
        touchLoop_frame w (levels_left hk) hroot, hset, ih (levels_left hk), hleft, hright]

theorem victimLoop_eq (tree : BitVec 64) (n i k index : Nat) :
    victimLoop (2 ^ (i + n)) tree n i k index = index + ofPath (decode tree n k).victim := by
  induction n generalizing i k index with
  | zero => rfl
  | succ n ih =>
    have hpow : 2 ^ (i + (n + 1)) = 2 ^ (i + 1 + n) := by rw [Nat.add_assoc, Nat.add_comm 1 n]
    have hshift : 2 ^ (i + 1 + n) >>> (i + 1) = 2 ^ n := by
      rw [Nat.shiftRight_eq_div_pow, Nat.pow_add, Nat.mul_div_cancel_left _ (Nat.two_pow_pos _)]
    rw [victimLoop, hpow, ih, hshift, decode]
    cases tree.getLsbD k with
    | true => simp [BitTree.victim, ofPath]
    | false =>
      simp only [Bool.false_eq_true, if_false, BitTree.victim, ofPath, if_true,
        length_victim_decode]
      omega

/-! ## Victims -/

namespace PseudoLRUPolicy

variable (p : PseudoLRUPolicy)

def tree (set : Nat) : BitTree := decode (p.trees set) (numLevels p.assoc) 0

theorem levels_le : (0 + 2) * 2 ^ numLevels p.assoc ≤ 64 := by
  have h5 := (effectiveAssoc_spec p.assoc p.assoc_le p.one_lt_assoc).2.1
  have : 2 ^ numLevels p.assoc ≤ 2 ^ 5 := Nat.pow_le_pow_right (by decide) h5
  omega

/-- The leaf that the search ends at, cut off at the last way. -/
theorem getVictim_eq (set : Nat) :
    p.getVictim set = some (min (ofPath (p.tree set).victim) (p.assoc - 1)) := by
  obtain ⟨heff, -⟩ := effectiveAssoc_spec p.assoc p.assoc_le p.one_lt_assoc
  have hloop := victimLoop_eq (p.trees set) (numLevels p.assoc) 0 0 0
  rw [Nat.zero_add, Nat.zero_add] at hloop
  have hlt := ofPath_lt (p.tree set).victim
  rw [tree, length_victim_decode] at hlt
  unfold getVictim
  simp only [heff, hloop, if_pos hlt, tree]
  split
  · rw [Nat.min_eq_right (by omega)]
  · rw [Nat.min_eq_left (by omega)]

variable {p} {q q' : PseudoLRUPolicy} {set w time : Nat}

theorem touch_tree (h : p.touch set w time = some q) (s : Nat) :
    q.assoc = p.assoc ∧
      q.tree s = if s = set then (p.tree s).touch (path w (numLevels p.assoc)) else p.tree s := by
  unfold touch at h
  split at h
  · cases h
    refine ⟨rfl, ?_⟩
    by_cases hs : s = set
    · subst hs
      simp only [tree, Function.update_self, if_true]
      exact decode_touchLoop w p.levels_le
    · simp [tree, hs]
  · cases h

theorem touch_lt (h : p.touch set w time = some q) : w < p.assoc := by
  unfold touch at h
  split at h
  · next hlt => exact hlt.1
  · cases h

/-- What the uses do to the tree of one set. -/
theorem touches_tree {ts : List (Nat × Nat × Nat)} (h : p.touches ts = some q) (s : Nat) :
    q.assoc = p.assoc ∧
      q.tree s = ((ts.filter (·.1 = s)).map fun t => path t.2.1 (numLevels p.assoc)).foldl
        BitTree.touch (p.tree s) := by
  induction ts generalizing p with
  | nil =>
    cases h
    exact ⟨rfl, rfl⟩
  | cons t ts ih =>
    obtain ⟨set, w, time⟩ := t
    obtain ⟨r, hr, h⟩ := Option.bind_eq_some_iff.mp h
    obtain ⟨hassoc, htree⟩ := touch_tree hr s
    obtain ⟨hassoc', htree'⟩ := ih h
    refine ⟨hassoc'.trans hassoc, ?_⟩
    rw [htree', htree, hassoc]
    by_cases hs : s = set
    · subst hs
      simp
    · simp [hs, Ne.symm hs]

/-- A leaf in the upper half is not the victim of a tree whose root was last used there. -/
theorem ofPath_victim_lt (t : BitTree) {n : Nat} (hw : w.testBit n)
    (hlen : (t.touch (path w (n + 1))).victim.length = n + 1) :
    ofPath (t.touch (path w (n + 1))).victim < 2 ^ n := by
  cases t with
  | leaf => cases hlen
  | node last l r =>
    rw [path, hw, BitTree.touch, BitTree.victim] at hlen ⊢
    have hlt := ofPath_lt l.victim
    rw [List.length_cons, Nat.add_right_cancel_iff] at hlen
    rw [hlen] at hlt
    simpa [ofPath] using hlt

end PseudoLRUPolicy

open PseudoLRUPolicy

/-- The way touched last is not the victim; with `2 ^ k` ways no way is that was touched fewer than
`k` touches of its set ago. -/
theorem victim_not_recent {p q q' : PseudoLRUPolicy} {set w time : Nat}
    {ts : List (Nat × Nat × Nat)} (h : p.touch set w time = some q) (hts : q.touches ts = some q')
    (hfew : ts.countP (·.1 = set) = 0 ∨ ∃ k, p.assoc = 2 ^ k ∧ ts.countP (·.1 = set) < k) :
    ∃ v, q'.getVictim set = some v ∧ v ≠ w := by
  obtain ⟨heff, -, hpos, hle, hhalf⟩ := effectiveAssoc_spec p.assoc p.assoc_le p.one_lt_assoc
  obtain ⟨hassoc, htree⟩ := touch_tree h set
  obtain ⟨hassoc', htree'⟩ := touches_tree hts set
  have hw := touch_lt h
  rw [if_pos rfl] at htree
  rw [htree, hassoc] at htree'
  have hlen : (q'.tree set).victim.length = numLevels p.assoc := by
    rw [tree, length_victim_decode, hassoc', hassoc]
  have hlt := ofPath_lt (q'.tree set).victim
  rw [hlen, ← heff] at hlt
  refine ⟨_, q'.getVictim_eq set, ?_⟩
  rw [hassoc', hassoc]
  have hfewer : ts.countP (·.1 = set) < numLevels p.assoc := by
    rcases hfew with h0 | ⟨k, hk, hlt⟩
    · omega
    have hlevels := numLevels_pow (hk ▸ p.assoc_le)
    rw [hk, hlevels]
    exact hlt
  have hne : ofPath (q'.tree set).victim ≠ w := by
    intro heq
    have hpath := path_ofPath (q'.tree set).victim
    rw [heq, hlen, htree'] at hpath
    refine BitTree.victim_ne _ _ _ ?_ hpath.symm
    rw [← htree', hlen, List.length_map, ← List.countP_eq_length_filter]
    exact hfewer
  rcases hfew with h0 | ⟨k, hk, -⟩
  · -- only the last way can be hit by the cut, and its half is avoided at the root
    by_cases hlast : w = p.assoc - 1
    · obtain ⟨n, hn⟩ : ∃ n, numLevels p.assoc = n + 1 := ⟨_, (Nat.succ_pred_eq_of_pos hpos).symm⟩
      have hnil : ts.filter (·.1 = set) = [] := by
        rwa [List.countP_eq_length_filter, List.length_eq_zero_iff] at h0
      rw [hnil, List.map_nil, List.foldl_nil, hn] at htree'
      rw [hn] at hlen heff
      rw [pow_succ] at heff
      have hbit : w.testBit n = true := Nat.testBit_of_two_pow_le_and_two_pow_add_one_gt (by omega)
        (by rw [pow_succ]; omega)
      have hsmall := ofPath_victim_lt (p.tree set) hbit (htree' ▸ hlen)
      rw [← htree'] at hsmall
      rw [Nat.min_eq_left (by omega)]
      exact hne
    · omega
  · have heq : effectiveAssoc p.assoc = p.assoc := by
      rw [heff, hk, numLevels_pow (hk ▸ p.assoc_le)]
    rw [Nat.min_eq_left (by omega)]
    exact hne

/-- Eight ways: way 5 and two more. -/
def eightWays : PseudoLRUPolicy :=
  { numSets := 1, assoc := 8, trees := fun _ => 0, lastRef := fun _ _ => 0
    sets_pos := by decide, one_lt_assoc := by decide, assoc_le := by decide }

theorem victim_not_recent_eight : ∃ q q' v, eightWays.touch 0 5 1 = some q ∧
    q.touches [(0, 1, 2), (0, 7, 3)] = some q' ∧ q'.getVictim 0 = some v ∧ v ≠ 5 := by
  have hq := Option.some_get (x := eightWays.touch 0 5 1) rfl
  have hq' := Option.some_get
    (x := ((eightWays.touch 0 5 1).get rfl).touches [(0, 1, 2), (0, 7, 3)]) rfl
  obtain ⟨v, hv, hne⟩ := victim_not_recent hq.symm hq'.symm (.inr ⟨3, rfl, by decide⟩)
  exact ⟨_, _, v, hq.symm, hq'.symm, hv, hne⟩

end SdoCore.Mesi
