import Mathlib.Order.Basic

/-! Binary trees with a bit at every inner node: the side that was used last. A use follows a path
and leaves its own side at every node; the victim is found by going the other way at every node.

* `towards_touch_le`: a use turns at most one node of a path towards the end of the path
* `victim_ne`: so it takes as many uses as the path has nodes to make its end the victim -/

namespace SdoCore.Lib

open List

inductive BitTree
  | leaf
  | node (last : Bool) (l r : BitTree)

namespace BitTree

/-- A path is the list of the sides taken, `true` for the right one. -/
def touch : BitTree → List Bool → BitTree
  | node _ l r, true :: p => node true l (r.touch p)
  | node _ l r, false :: p => node false (l.touch p) r
  | t, _ => t

def victim : BitTree → List Bool
  | leaf => []
  | node true l _ => false :: l.victim
  | node false _ r => true :: r.victim

/-- How many nodes on the path send the search for a victim along it. -/
def towards : BitTree → List Bool → Nat
  | node last _ r, true :: p => (if last then 0 else 1) + r.towards p
  | node last l _, false :: p => (if last then 1 else 0) + l.towards p
  | _, _ => 0

theorem towards_touch_self (t : BitTree) (p : List Bool) : (t.touch p).towards p = 0 := by
  induction t generalizing p with
  | leaf => cases p <;> rfl
  | node last l r ihl ihr =>
    cases p with
    | nil => rfl
    | cons b p =>
      cases b with
      | true => simp [touch, towards, ihr p]
      | false => simp [touch, towards, ihl p]

theorem towards_touch_le (t : BitTree) (p q : List Bool) :
    (t.touch q).towards p ≤ t.towards p + 1 := by
  induction t generalizing p q with
  | leaf => cases q <;> exact Nat.le_succ _
  | node last l r ihl ihr =>
    cases q with
    | nil => exact Nat.le_succ _
    | cons c q =>
      cases p with
      | nil => cases c <;> exact Nat.le_succ _
      | cons b p =>
        -- where the paths part the node is turned, and below it nothing changes
        have hl := ihl p q
        have hr := ihr p q
        cases b <;> cases c <;>
          simp only [touch, towards, if_true, Bool.false_eq_true, if_false] <;> omega

theorem towards_foldl_touch_le (t : BitTree) (p : List Bool) (qs : List (List Bool)) :
    (qs.foldl touch t).towards p ≤ t.towards p + qs.length := by
  induction qs generalizing t with
  | nil => exact Nat.le_refl _
  | cons q qs ih =>
    have h := ih (t.touch q)
    have h' := towards_touch_le t p q
    rw [foldl_cons, length_cons]
    omega

theorem towards_victim (t : BitTree) : t.towards t.victim = t.victim.length := by
  induction t with
  | leaf => rfl
  | node last l r ihl ihr =>
    cases last with
    | true =>
      simp only [victim, towards, ihl, length_cons, if_true]
      omega
    | false =>
      simp only [victim, towards, ihr, length_cons, Bool.false_eq_true, if_false]
      omega

/-- Fewer uses than the path is long do not bring its end back. -/
theorem victim_ne (t : BitTree) (p : List Bool) (qs : List (List Bool))
    (h : qs.length < (qs.foldl touch (t.touch p)).victim.length) :
    (qs.foldl touch (t.touch p)).victim ≠ p := by
  intro heq
  have hle := towards_foldl_touch_le (t.touch p) p qs
  rw [towards_touch_self, Nat.zero_add] at hle
  have hall := towards_victim (qs.foldl touch (t.touch p))
  rw [heq] at hall h
  omega

end BitTree

end SdoCore.Lib
