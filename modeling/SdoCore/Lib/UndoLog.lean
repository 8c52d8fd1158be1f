import Mathlib.Data.List.Basic

/-! A log of updates, oldest first. `replay` applies the updates; `Recorded` says that
every entry describes the state it was applied to, which is what an entry must do for
its update to be undone. -/

namespace SdoCore.Lib

universe u v

variable {σ : Type u} {ε : Type v} (apply : σ → ε → σ) (Describes : σ → ε → Prop)

def replay (s : σ) (es : List ε) : σ := es.foldl apply s

def Recorded (s : σ) : List ε → Prop
  | [] => True
  | e :: es => Describes s e ∧ Recorded (apply s e) es

theorem replay_append (s : σ) (es fs : List ε) :
    replay apply s (es ++ fs) = replay apply (replay apply s es) fs :=
  List.foldl_append

theorem recorded_append {s : σ} {es fs : List ε} :
    Recorded apply Describes s (es ++ fs) ↔
      Recorded apply Describes s es ∧ Recorded apply Describes (replay apply s es) fs := by
  induction es generalizing s with
  | nil => simp [Recorded, replay]
  | cons e es ih =>
    rw [List.cons_append, Recorded, Recorded, ih, and_assoc]
    rfl

/-- The last update can be undone. -/
theorem recorded_concat {s : σ} {es : List ε} {e : ε} :
    Recorded apply Describes s (es ++ [e]) ↔
      Recorded apply Describes s es ∧ Describes (replay apply s es) e := by
  rw [recorded_append]
  simp [Recorded]

end SdoCore.Lib
