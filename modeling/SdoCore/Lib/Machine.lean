import Mathlib.Logic.Relation

/-! Machines driven by events. A machine has start states and a partial step
function; everything its environment may choose is part of the event, so a run
is a list of events and can be evaluated. `ReachWhen C` are the states reached
by runs all of whose steps meet a condition `C` on the state before the step
and the event; `Reach` puts no condition. Invariants are proved by
`ReachWhen.invariant`: one goal for the start states, one for a step. -/

namespace SdoCore.Lib

universe u v

/-- `step s e = none`: the event is not enabled in `s`, or it stops the program
(a failed assertion). -/
structure Machine (σ : Type u) (ε : Type v) where
  start : σ → Prop
  step : σ → ε → Option σ

namespace Machine

variable {σ : Type u} {ε : Type v} (M : Machine σ ε)

/-- The state after a list of events. -/
def run (s : σ) : List ε → Option σ
  | [] => some s
  | e :: es =>
    match M.step s e with
    | some s' => run s' es
    | none => none

/-- Every step of the run of `es` from `s` meets `C`. -/
def Meets (C : σ → ε → Prop) (s : σ) : List ε → Prop
  | [] => True
  | e :: es =>
    C s e ∧ match M.step s e with
      | some s' => Meets C s' es
      | none => True

instance decidableMeets (C : σ → ε → Prop) [∀ s e, Decidable (C s e)] (s : σ) (es : List ε) :
    Decidable (M.Meets C s es) :=
  match es with
  | [] => .isTrue trivial
  | e :: es =>
    have : Decidable (match M.step s e with
        | some s' => M.Meets C s' es
        | none => True) :=
      match M.step s e with
      | some s' => decidableMeets C s' es
      | none => .isTrue trivial
    inferInstanceAs (Decidable (_ ∧ _))

inductive ReachWhen (C : σ → ε → Prop) : σ → Prop
  | start {s : σ} : M.start s → ReachWhen C s
  | step {s s' : σ} {e : ε} : ReachWhen C s → C s e → M.step s e = some s' → ReachWhen C s'

def Reach (s : σ) : Prop := M.ReachWhen (fun _ _ => True) s

/-- Steps that meet `C` and stay within `P`. -/
inductive StepsWhile (C : σ → ε → Prop) (P : σ → Prop) : σ → σ → Prop
  | refl (s : σ) : StepsWhile C P s s
  | step {s t u : σ} {e : ε} :
    StepsWhile C P s t → C t e → M.step t e = some u → P u → StepsWhile C P s u

variable {M}

variable {C : σ → ε → Prop} {s s' : σ} {P : σ → Prop}

/-- The invariant rule. -/
theorem ReachWhen.invariant {I : σ → Prop} (h0 : ∀ s, M.start s → I s)
    (hstep : ∀ s e s', I s → C s e → M.step s e = some s' → I s') (h : M.ReachWhen C s) : I s := by
  induction h with
  | start hs => exact h0 _ hs
  | step _ hc he ih => exact hstep _ _ _ ih hc he

theorem ReachWhen.reach (h : M.ReachWhen C s) : M.Reach s := by
  induction h with
  | start hs => exact .start hs
  | step _ _ he ih => exact .step ih trivial he

theorem ReachWhen.steps (h : M.ReachWhen C s) (hr : M.StepsWhile C P s s') : M.ReachWhen C s' := by
  induction hr with
  | refl => exact h
  | step _ hc he _ ih => exact .step (ih) hc he

theorem StepsWhile.mono {D : σ → ε → Prop} (hCD : ∀ s e, C s e → D s e)
    (hr : M.StepsWhile C P s s') : M.StepsWhile D P s s' := by
  induction hr with
  | refl => exact .refl _
  | step _ hc he hp ih => exact .step ih (hCD _ _ hc) he hp

/-- The invariant rule for steps from a reachable state. -/
theorem StepsWhile.invariant {I : σ → Prop} (hr : M.StepsWhile C P s s') (h : M.ReachWhen C s)
    (hp : P s) (h0 : I s)
    (hstep : ∀ t e u, M.ReachWhen C t → P t → P u → I t → C t e → M.step t e = some u → I u) :
    P s' ∧ I s' := by
  induction hr with
  | refl => exact ⟨hp, h0⟩
  | step ht hc he hp' ih =>
    obtain ⟨hpt, hit⟩ := ih
    exact ⟨hp', hstep _ _ _ (h.steps ht) hpt hp' hit hc he⟩

theorem ReachWhen.run (h : M.ReachWhen C s) (es : List ε) (hC : M.Meets C s es)
    (hr : M.run s es = some s') : M.ReachWhen C s' := by
  induction es generalizing s with
  | nil =>
    cases hr
    exact h
  | cons e es ih =>
    obtain ⟨hc, hC⟩ := hC
    cases he : M.step s e with
    | none => simp [Machine.run, he] at hr
    | some t =>
      simp only [he] at hC
      simp only [Machine.run, he] at hr
      exact ih (.step h hc he) hC hr

/-- To name the result of a computation that goes through. -/
theorem eq_some_getD {o : Option σ} {d : σ} (h : o.isSome) : o = some (o.getD d) := by
  obtain ⟨s, hs⟩ := Option.isSome_iff_exists.mp h
  rw [hs, Option.getD_some]

/-- A run that goes through reaches its last state. -/
theorem run_getD {d : σ} {es : List ε} (h : (M.run s es).isSome) :
    M.run s es = some ((M.run s es).getD d) :=
  eq_some_getD h

theorem meets_true (s : σ) (es : List ε) : M.Meets (fun _ _ => True) s es := by
  induction es generalizing s with
  | nil => trivial
  | cons e es ih =>
    refine ⟨trivial, ?_⟩
    cases M.step s e with
    | none => trivial
    | some s' => exact ih s'

theorem reach_run {es : List ε} (h : M.start s) (hr : M.run s es = some s') :
    M.Reach s' :=
  ReachWhen.run (.start h) es (meets_true s es) hr

end Machine

end SdoCore.Lib
