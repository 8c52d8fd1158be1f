import SdoCore.Lib.Controller
import SdoCore.Mesi.Messages

/-! Messages that are set aside, and the registrations that bring them back
(`stallBuffer` and `wakeUpBuffers` of `AbstractController.cc`), for a controller with any ports.

A transition is seen through what its actions do to the desk of the controller (`Effect`). A buffer
whose messages are set aside is registered under one of the ports that the state of the line allows
(`Waits`); `Waits.runs` says how far the actions of a row keep that, and `Runs.carried` that no
message gets lost on the way. -/

namespace SdoCore.Mesi

open List
open Function (update update_of_ne update_self)

/-- The buffers of a controller, one to a port, and its `m_waiting_buffers`: for a line and the port
that was in service, the buffer that was stalled. -/
structure Desk (Port : Type) (Msg : Port → Type) where
  buffer : (b : Port) → MessageBuffer (Msg b)
  waiting : Nat → Port → Option Port

/-- What an action does with the messages that are set aside. -/
inductive Effect
  | quiet | stall | wake
  deriving DecidableEq

/-- The ports under which a message may wait after the action; `none` if one might be forgotten. -/
def Effect.after {Port : Type} [DecidableEq Port] (low : List Port) (port : Port) (ps : List Port) :
    Effect → Option (List Port)
  | .quiet => some ps
  | .stall => if port ∈ ps then some ps else none
  | .wake => if ∀ q ∈ ps, q ∈ low then some [] else none

namespace Desk

variable {Port : Type} {Msg : Port → Type} {d d' d'' : Desk Port Msg} {a : Nat}

structure Quiet (d d' : Desk Port Msg) : Prop where
  waiting : d'.waiting = d.waiting
  stallMap : ∀ b, (d'.buffer b).stallMap = (d.buffer b).stallMap

/-- The message at the head of `home` is set aside for the line. -/
structure Stalls [DecidableEq Port] (a : Nat) (port home : Port) (d d' : Desk Port Msg) : Prop where
  waiting : d'.waiting = update d.waiting a (update (d.waiting a) port (some home))
  self : ∃ m, (d'.buffer home).stallMap =
    update (d.buffer home).stallMap a ((d.buffer home).stallMap a ++ [m])
  others : ∀ b, b ≠ home → (d'.buffer b).stallMap = (d.buffer b).stallMap

/-- The buffers registered under the ports `qs` take their messages back. -/
structure Woken (a : Nat) (qs : List Port) (d d' : Desk Port Msg) : Prop where
  waiting : d'.waiting = d.waiting
  buffer : ∀ b, d'.buffer b = d.buffer b ∨ (d.buffer b).reanalyzeMessages a = some (d'.buffer b)
  woken : ∀ q ∈ qs, ∀ b, d.waiting a q = some b → (d'.buffer b).stallMap a = []

/-- `wakeUpBuffers`: the registrations go as well, those of the other ports too. -/
structure Wakes (a : Nat) (qs : List Port) (d d' : Desk Port Msg) : Prop where
  waiting : d'.waiting = update d.waiting a fun _ => none
  buffer : ∀ b, d'.buffer b = d.buffer b ∨ (d.buffer b).reanalyzeMessages a = some (d'.buffer b)
  woken : ∀ q ∈ qs, ∀ b, d.waiting a q = some b → (d'.buffer b).stallMap a = []

end Desk

variable {μ : Type} {b c : MessageBuffer μ}

theorem MessageBuffer.reanalyzeMessages_eq_some {a : Nat} (h : b.reanalyzeMessages a = some c) :
    b.stallMap a ≠ [] ∧ c.stallMap = update b.stallMap a [] ∧
      c.queue = b.queue ++ b.stallMap a := by
  unfold reanalyzeMessages at h
  split at h
  · cases h
  rename_i hne
  cases h
  exact ⟨hne, rfl, rfl⟩

theorem MessageBuffer.stallMessage_eq_some {a : Nat} (h : b.stallMessage a = some c) :
    ∃ m, c.stallMap = update b.stallMap a (b.stallMap a ++ [m]) := by
  unfold stallMessage at h
  split at h
  · cases h
  rename_i m q _
  cases h
  exact ⟨m, rfl⟩

theorem MessageBuffer.recycle_stallMap (h : b.recycle = some c) :
    c.stallMap = b.stallMap := by
  unfold recycle at h
  split at h <;> cases h
  rfl

namespace Desk

section
variable {Port : Type} {Msg : Port → Type} {d d' d'' : Desk Port Msg} {a : Nat}

/-! ## Waking -/

/-- One buffer takes its messages back. -/
structure Reanalyzed (a : Nat) (b : Port) (d d' : Desk Port Msg) : Prop where
  waiting : d'.waiting = d.waiting
  self : (d.buffer b).reanalyzeMessages a = some (d'.buffer b)
  others : ∀ b', b' ≠ b → d'.buffer b' = d.buffer b'

variable {qs : List Port} {home : Port}

theorem Woken.cons {q b : Port} (hq : d.waiting a q = some b) (h : Reanalyzed a b d d')
    (h' : Woken a qs d' d'') : Woken a (q :: qs) d d'' := by
  obtain ⟨-, hmap, -⟩ := MessageBuffer.reanalyzeMessages_eq_some h.self
  have hempty : (d'.buffer b).stallMap a = [] := by rw [hmap, update_self]
  -- the buffer is not woken a second time: it has nothing set aside any more
  have hsame : d''.buffer b = d'.buffer b :=
    (h'.buffer b).resolve_right fun h => (MessageBuffer.reanalyzeMessages_eq_some h).1 hempty
  refine ⟨h'.waiting.trans h.waiting, fun b' => ?_, fun r hr b' hb' => ?_⟩
  · by_cases hb : b' = b
    · subst hb
      rw [hsame]
      exact .inr h.self
    · rw [← h.others b' hb]
      exact h'.buffer b'
  · rcases mem_cons.mp hr with rfl | hr
    · obtain rfl : b = b' := Option.some.inj (hq.symm.trans hb')
      rw [hsame, hempty]
    · exact h'.woken r hr b' (by rw [h.waiting]; exact hb')

theorem Woken.skip {q : Port} (hq : d.waiting a q = none) (h : Woken a qs d d') :
    Woken a (q :: qs) d d' := by
  refine ⟨h.waiting, h.buffer, fun r hr b hb => ?_⟩
  rcases mem_cons.mp hr with rfl | hr
  · rw [hq] at hb
    cases hb
  · exact h.woken r hr b hb

theorem Woken.wakes (h : Woken a qs d d')
    (hw : d''.waiting = update d'.waiting a fun _ => none) (hb : d''.buffer = d'.buffer) :
    Wakes a qs d d'' := by
  refine ⟨by rw [hw, h.waiting], ?_, ?_⟩
  · rw [hb]
    exact h.buffer
  · rw [hb]
    exact h.woken

/-- The loop of `wakeUpBuffers`, for a controller seen through its desk. -/
theorem woken_of_loop {σ : Type} (desk : σ → Desk Port Msg) (reanalyze : σ → Port → Option σ)
    (wakeUp : σ → List Port → Option σ) (hnil : ∀ c, wakeUp c [] = some c)
    (hcons : ∀ c q qs, wakeUp c (q :: qs) = ((desk c).waiting a q).elim (wakeUp c qs)
      fun b => (reanalyze c b).bind fun c => wakeUp c qs)
    (hre : ∀ c b c', reanalyze c b = some c' → Reanalyzed a b (desk c) (desk c'))
    {c c' : σ} (h : wakeUp c qs = some c') : Woken a qs (desk c) (desk c') := by
  induction qs generalizing c with
  | nil =>
    rw [hnil] at h
    cases h
    exact ⟨rfl, fun b => .inl rfl, fun q hq => nomatch hq⟩
  | cons q qs ih =>
    rw [hcons] at h
    cases hq : (desk c).waiting a q with
    | some b =>
      rw [hq] at h
      obtain ⟨c₁, hc₁, h⟩ := Option.bind_eq_some_iff.mp h
      exact (ih h).cons hq (hre _ _ _ hc₁)
    | none =>
      rw [hq] at h
      exact (ih h).skip hq

/-! ## What must not be lost -/

/-- What is set aside for the line is in the buffer `home`, registered under one of the ports. -/
def Waits (home : Port) (d : Desk Port Msg) (a : Nat) (ps : List Port) : Prop :=
  ∀ b, (d.buffer b).stallMap a ≠ [] → b = home ∧ ∃ q ∈ ps, d.waiting a q = some b

theorem Waits.mono {ps ps' : List Port} (h : Waits home d a ps) (hsub : ∀ q ∈ ps, q ∈ ps') :
    Waits home d a ps' := by
  intro b hb
  obtain ⟨rfl, q, hq, hreg⟩ := h b hb
  exact ⟨rfl, q, hsub q hq, hreg⟩

theorem Waits.quiet {ps : List Port} (h : Waits home d a ps) (hd : Quiet d d') :
    Waits home d' a ps := by
  intro b hb
  rw [hd.stallMap] at hb
  rw [hd.waiting]
  exact h b hb

/-- What is set aside for a line stays there, or is back in its queue, all of it and in order. -/
def Carried (d d' : Desk Port Msg) : Prop :=
  ∀ b a, ((d.buffer b).stallMap a).Sublist ((d'.buffer b).stallMap a) ∨
    ((d.buffer b).stallMap a).Sublist (d'.buffer b).queue

theorem Carried.of_stallMap (h : ∀ b, (d'.buffer b).stallMap = (d.buffer b).stallMap) :
    Carried d d' :=
  fun b a => .inl (by rw [h b])

/-- Nothing is set aside for a line at rest, and what is set aside is registered. -/
def NoneStranded (d : Desk Port Msg) (resting : Nat → Bool) : Prop :=
  ∀ a b, (d.buffer b).stallMap a ≠ [] → (∃ q, d.waiting a q = some b) ∧ resting a = false

/-- What was set aside for the lines that are at rest now is back in its queue. -/
def Requeued (d d' : Desk Port Msg) (resting : Nat → Bool) : Prop :=
  ∀ a b, resting a = true → ((d.buffer b).stallMap a).Sublist (d'.buffer b).queue

theorem Carried.requeued {resting : Nat → Bool} (h : Carried d d') (hd : NoneStranded d' resting) :
    Requeued d d' resting := by
  intro a b hrest
  rcases h b a with hstay | hback
  · have hempty : (d'.buffer b).stallMap a = [] := by
      by_contra hne
      rw [(hd a b hne).2] at hrest
      cases hrest
    rw [hempty] at hstay
    rw [sublist_nil.mp hstay]
    exact nil_sublist _
  · exact hback

theorem noneStranded_of_waits {ps : Nat → List Port} {resting : Nat → Bool}
    (h : ∀ a, d.Waits home a (ps a)) (hrest : ∀ a, resting a → ps a = []) :
    NoneStranded d resting := by
  intro a b hb
  obtain ⟨-, q, hq, hreg⟩ := h a b hb
  refine ⟨⟨q, hreg⟩, Bool.eq_false_iff.mpr fun hr => ?_⟩
  rw [hrest a hr] at hq
  cases hq

end

/-! ## The actions of a row -/

variable {Port : Type} {Msg : Port → Type} {d d' d'' : Desk Port Msg} {a b : Nat} [DecidableEq Port]
  {lower : Port → List Port} {home port : Port} {ps ps' : List Port}

/-- An action in a transition for line `a`, with `port` in service; only messages of the buffer
`home` are ever set aside. -/
def Does (lower : Port → List Port) (home port : Port) (a : Nat) (d d' : Desk Port Msg) :
    Effect → Prop
  | .quiet => Quiet d d'
  | .stall => Stalls a port home d d'
  | .wake => Wakes a (lower port) d d'

inductive Runs (lower : Port → List Port) (home port : Port) (a : Nat) :
    List Effect → Desk Port Msg → Desk Port Msg → Prop
  | nil (d : Desk Port Msg) : Runs lower home port a [] d d
  | cons {e : Effect} {es : List Effect} {d d' d'' : Desk Port Msg} :
    Does lower home port a d d' e → Runs lower home port a es d' d'' →
      Runs lower home port a (e :: es) d d''

/-! One action, for its own line and for another. -/

variable {e : Effect} {es : List Effect}

theorem Waits.does (h : Waits home d a ps) (hd : Does lower home port a d d' e)
    (he : e.after (lower port) port ps = some ps') : Waits home d' a ps' := by
  intro b hb
  cases e with
  | quiet =>
    cases he
    exact h.quiet hd b hb
  | stall =>
    obtain ⟨hw, -, hothers⟩ := hd
    simp only [Effect.after, Option.ite_none_right_eq_some, Option.some.injEq] at he
    obtain ⟨hport, rfl⟩ := he
    have hb : b = home := by
      by_contra hne
      rw [hothers b hne] at hb
      exact hne (h b hb).1
    subst hb
    refine ⟨rfl, port, hport, ?_⟩
    rw [hw, update_self, update_self]
  | wake =>
    obtain ⟨-, hbuf, hwoken⟩ := hd
    simp only [Effect.after, Option.ite_none_right_eq_some, Option.some.injEq] at he
    obtain ⟨hlow, -⟩ := he
    have hb' : (d.buffer b).stallMap a ≠ [] := by
      rcases hbuf b with hsame | hre
      · rwa [hsame] at hb
      · exact (MessageBuffer.reanalyzeMessages_eq_some hre).1
    obtain ⟨-, q, hq, hreg⟩ := h b hb'
    exact absurd (hwoken q (hlow q hq) b hreg) hb

theorem Does.stallMap_ne (hd : Does lower home port a d d' e) (hab : b ≠ a) :
    d'.waiting b = d.waiting b ∧ ∀ c, (d'.buffer c).stallMap b = (d.buffer c).stallMap b := by
  cases e with
  | quiet =>
    obtain ⟨hw, hmap⟩ := hd
    exact ⟨congrFun hw b, fun c => congrFun (hmap c) b⟩
  | stall =>
    obtain ⟨hw, ⟨m, hself⟩, hothers⟩ := hd
    refine ⟨by rw [hw, update_of_ne hab], fun c => ?_⟩
    by_cases hc : c = home
    · subst hc
      rw [hself, update_of_ne hab]
    · rw [hothers c hc]
  | wake =>
    obtain ⟨hw, hbuf, -⟩ := hd
    refine ⟨by rw [hw, update_of_ne hab], fun c => ?_⟩
    rcases hbuf c with hsame | hre
    · rw [hsame]
    · rw [(MessageBuffer.reanalyzeMessages_eq_some hre).2.1, update_of_ne hab]

theorem Waits.does_ne (h : Waits home d b ps) (hd : Does lower home port a d d' e) (hab : b ≠ a) :
    Waits home d' b ps := by
  obtain ⟨hw, hmap⟩ := hd.stallMap_ne hab
  intro c hc
  rw [hmap] at hc
  rw [hw]
  exact h c hc

/-- An action that does not wake leaves them set aside. -/
theorem Does.stays (hd : Does lower home port a d d' e) (he : e ≠ .wake) :
    ∀ c b, ((d.buffer c).stallMap b).Sublist ((d'.buffer c).stallMap b) := by
  intro c b
  cases e with
  | quiet => rw [hd.stallMap c]
  | stall =>
    obtain ⟨-, ⟨m', hself⟩, hothers⟩ := hd
    by_cases hc : c = home
    · subst hc
      rw [hself]
      by_cases hb : b = a
      · subst hb
        rw [update_self]
        exact sublist_append_left _ _
      · rw [update_of_ne hb]
    · rw [hothers c hc]
  | wake => exact absurd rfl he

theorem Does.carried (hd : Does lower home port a d d' e) : Carried d d' := by
  intro c b
  cases e with
  | quiet | stall => exact .inl (hd.stays (by decide) c b)
  | wake =>
    rcases hd.buffer c with hsame | hre
    · rw [hsame]
      exact .inl (List.Sublist.refl _)
    obtain ⟨-, hmap, hqueue⟩ := MessageBuffer.reanalyzeMessages_eq_some hre
    by_cases hb : b = a
    · subst hb
      rw [hqueue]
      exact .inr (sublist_append_right _ _)
    · rw [hmap, update_of_ne hb]
      exact .inl (List.Sublist.refl _)

/-! The actions of a row. -/

theorem Waits.runs (h : Waits home d a ps) (hr : Runs lower home port a es d d')
    (hes : es.foldlM (Effect.after (lower port) port) ps = some ps') : Waits home d' a ps' := by
  induction hr generalizing ps with
  | nil =>
    cases hes
    exact h
  | cons hd _ ih =>
    obtain ⟨ps₁, h₁, hes⟩ := Option.bind_eq_some_iff.mp hes
    exact ih (h.does hd h₁) hes

theorem Waits.runs_ne (h : Waits home d b ps) (hr : Runs lower home port a es d d') (hab : b ≠ a) :
    Waits home d' b ps := by
  induction hr with
  | nil => exact h
  | cons hd _ ih => exact ih (h.does_ne hd hab)

/-- Where the last action only may wake, what is woken is not taken out of its queue again. -/
theorem Runs.carried (hr : Runs lower home port a es d d') (hlast : Effect.wake ∉ es.dropLast) :
    Carried d d' := by
  induction hr with
  | nil => exact .of_stallMap fun _ => rfl
  | @cons e es d d₁ d' hd hr ih =>
    cases es with
    | nil =>
      cases hr
      exact hd.carried
    | cons e' es =>
      rw [dropLast_cons_cons, mem_cons, not_or] at hlast
      intro c b
      have hstay := hd.stays (Ne.symm hlast.1) c b
      exact (ih hlast.2 c b).imp hstay.trans hstay.trans

end Desk

/-! ## Tables -/

section
variable {State Event Action Ctx Port : Type} {Msg : Port → Type} [DecidableEq Port]

variable {lower : Port → List Port} {effect : Action → Effect}

/-- What each action does, the actions of a row do one after the other. -/
theorem runs_of_run {m : Lib.Controller State Event Action Ctx} (desk : Ctx → Desk Port Msg)
    (port : Ctx → Port) (addr : Ctx → Nat) {home : Port} (hact : ∀ x a y, m.act x a = some y →
      Desk.Does lower home (port x) (addr x) (desk x) (desk y) (effect a) ∧ port y = port x ∧
        addr y = addr x)
    {x y : Ctx} {as : List Action} (h : m.run x as = some y) :
    Desk.Runs lower home (port x) (addr x) (as.map effect) (desk x) (desk y) := by
  induction as generalizing x with
  | nil =>
    cases h
    exact .nil _
  | cons a as ih =>
    obtain ⟨z, hz, h⟩ := Option.bind_eq_some_iff.mp h
    obtain ⟨hd, hport, haddr⟩ := hact x a z hz
    have hr := ih h
    rw [hport, haddr] at hr
    exact .cons hd hr

/-- A row forgets nobody: what may wait in the state it starts from (`waits`) is woken or may wait
in the state it ends in, and nothing is woken before the end. -/
def rowKeeps (lower : Port → List Port) (effect : Action → Effect) (ports : Event → List Port)
    (waits : State → List Port) (r : Lib.Row State Event Action) : Bool :=
  decide (Effect.wake ∉ (r.actions.map effect).dropLast) &&
    r.states.all fun s => r.events.all fun e => (ports e).all fun port =>
      match (r.actions.map effect).foldlM (Effect.after (lower port) port) (waits s) with
      | some ps => ps.all fun q => decide (q ∈ waits (r.next.getD s))
      | none => false

theorem rowKeeps_spec {ports : Event → List Port} {waits : State → List Port}
    {r : Lib.Row State Event Action} (h : rowKeeps lower effect ports waits r) :
    Effect.wake ∉ (r.actions.map effect).dropLast ∧
      ∀ s ∈ r.states, ∀ e ∈ r.events, ∀ port ∈ ports e,
      ∃ ps, (r.actions.map effect).foldlM (Effect.after (lower port) port) (waits s) = some ps ∧
        ∀ q ∈ ps, q ∈ waits (r.next.getD s) := by
  rw [rowKeeps, Bool.and_eq_true, decide_eq_true_eq] at h
  refine ⟨h.1, fun s hs e he port hp => ?_⟩
  have hrow := all_eq_true.mp (all_eq_true.mp (all_eq_true.mp h.2 s hs) e he) port hp
  split at hrow
  · next ps hps => exact ⟨ps, hps, fun q hq => of_decide_eq_true (all_eq_true.mp hrow q hq)⟩
  · cases hrow

/-- The step of the invariant, for a row that is run with `port` in service: `w` and `w'` are the
ports each line may wait under before and after. -/
theorem waits_of_row {ports : Event → List Port} {waits : State → List Port}
    {r : Lib.Row State Event Action}
    (hkeep : rowKeeps lower effect ports waits r) {s : State} (hs : s ∈ r.states) {e : Event}
    (he : e ∈ r.events) {home port : Port} (hp : port ∈ ports e) {a : Nat} {d d' : Desk Port Msg}
    (hr : Desk.Runs lower home port a (r.actions.map effect) d d') {w : Nat → List Port}
    (h : ∀ b, d.Waits home b (w b)) (w' : Nat → List Port) (hbefore : w a = waits s)
    (hafter : w' a = waits (r.next.getD s)) (hothers : ∀ b, b ≠ a → w' b = w b) :
    (∀ b, d'.Waits home b (w' b)) ∧ Desk.Carried d d' := by
  obtain ⟨hlast, hrow⟩ := rowKeeps_spec hkeep
  obtain ⟨ps, hps, hsub⟩ := hrow s hs e he port hp
  refine ⟨fun b => ?_, hr.carried hlast⟩
  by_cases hb : b = a
  · subst hb
    rw [hafter]
    exact ((hbefore ▸ h b).runs hr hps).mono hsub
  · rw [hothers b hb]
    exact (h b).runs_ne hr hb

end

end SdoCore.Mesi
