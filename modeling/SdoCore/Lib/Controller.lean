import Mathlib.Data.List.Basic

/-! Controllers driven by a transition table.

A row names the states and events it serves, the actions it runs and the state it
ends in. `Controller.transition` looks the row up, runs its actions on a context
and writes the new state back; `none` is an undefined transition or a failed
assertion.

* `transition_cases` inverts a transition once and for all;
* `run_keeps` lifts what each action of a row preserves to the whole row;
* `transition_of_row` runs the row a state and an event select. -/

namespace SdoCore.Lib

open List

/-- A row of a transition table; without a `next` the state stays. -/
structure Row (State Event Action : Type) where
  states : List State
  events : List Event
  next : Option State
  actions : List Action

section Table

variable {State Event Action : Type} [DecidableEq State] [DecidableEq Event]

def Row.serves (r : Row State Event Action) (s : State) (e : Event) : Bool :=
  decide (s ∈ r.states) && decide (e ∈ r.events)

def rowFor (table : List (Row State Event Action)) (s : State) (e : Event) :
    Option (Row State Event Action) :=
  table.find? fun r => r.serves s e

theorem rowFor_spec {table : List (Row State Event Action)} {s : State} {e : Event}
    {r : Row State Event Action} (h : rowFor table s e = some r) :
    r ∈ table ∧ s ∈ r.states ∧ e ∈ r.events := by
  have hs := find?_some h
  rw [Row.serves, Bool.and_eq_true] at hs
  exact ⟨mem_of_find?_eq_some h, of_decide_eq_true hs.1, of_decide_eq_true hs.2⟩

end Table

/-- `getState` is partial because it may assert. -/
structure Controller (State Event Action Ctx : Type) where
  table : List (Row State Event Action)
  act : Ctx → Action → Option Ctx
  getState : Ctx → Option State
  setState : Ctx → State → Option Ctx

namespace Controller

variable {State Event Action Ctx : Type}
variable (m : Controller State Event Action Ctx)

def run (x : Ctx) : List Action → Option Ctx
  | [] => some x
  | a :: as => (m.act x a).bind fun y => run y as

variable {m}

/-- What every action of the list preserves, the list preserves. -/
theorem run_keeps {P : Ctx → Prop} {as : List Action}
    (hact : ∀ a ∈ as, ∀ x y, m.act x a = some y → P x → P y) {x y : Ctx}
    (h : m.run x as = some y) (hx : P x) : P y := by
  induction as generalizing x with
  | nil => cases h; exact hx
  | cons a as ih =>
    obtain ⟨z, hz, h⟩ := Option.bind_eq_some_iff.mp h
    exact ih (fun b hb => hact b (mem_cons_of_mem _ hb)) h
      (hact a mem_cons_self x z hz hx)

variable [DecidableEq State] [DecidableEq Event]

def transition (m : Controller State Event Action Ctx) (x : Ctx) (e : Event) : Option Ctx :=
  (m.getState x).bind fun s => (rowFor m.table s e).bind fun r =>
    (m.run x r.actions).bind fun y => m.setState y (r.next.getD s)

theorem transition_cases {x z : Ctx} {e : Event} (h : m.transition x e = some z) :
    ∃ s r y, m.getState x = some s ∧ r ∈ m.table ∧ s ∈ r.states ∧ e ∈ r.events ∧
      m.run x r.actions = some y ∧ m.setState y (r.next.getD s) = some z := by
  obtain ⟨s, hs, h⟩ := Option.bind_eq_some_iff.mp h
  obtain ⟨r, hr, h⟩ := Option.bind_eq_some_iff.mp h
  obtain ⟨y, hy, h⟩ := Option.bind_eq_some_iff.mp h
  obtain ⟨hmem, hst, hev⟩ := rowFor_spec hr
  exact ⟨s, r, y, hs, hmem, hst, hev, hy, h⟩

theorem transition_of_row {x : Ctx} {e : Event} {s : State} {r : Row State Event Action}
    (hs : m.getState x = some s) (hr : rowFor m.table s e = some r) :
    m.transition x e = (m.run x r.actions).bind fun y => m.setState y (r.next.getD s) := by
  simp only [transition, hs, hr, Option.bind_some]

end Controller

end SdoCore.Lib
