import SdoCore.TaintMono

/-! The visibility pass of the load/store queue beside the reorder buffer
(`LSQUnit::updateVisibleState`, `lsq_unit_impl.hh`), and two facts about every run of the
two: taint does not come back, so that the assertion of the pass holds
(`taint_never_returns`), and the instructions past their visibility point are a prefix of
the buffer that no taint reaches (`visible_front`). Threads share none of this state, so one
thread stands for each. -/

namespace SdoCore

open List
open Lib Rob
open Function (update update_of_ne update_self)

/-! ## The pass -/

/-- The threat model's condition, which the pass tests itself. -/
def DynInst.visible (c : Config) (i : DynInst) : Bool :=
  (c.isFuturistic && i.prevInstsCompleted) || (!c.isFuturistic && i.prevBrsResolved)

def DynInst.setExpose (i : DynInst) (ready fence : Bool) : DynInst :=
  { i with status := { i.status with readyToExpose := ready, fenceDelay := fence } }

/-- What the pass does to one load. -/
def lsqVisible (c : Config) (i : DynInst) : Option DynInst :=
  if !c.loadInExec then
    if c.stt then some (i.setExpose true (!i.taintPropDone || i.isArgsTainted))
    else some (i.setExpose true (!i.visible c))
  else if c.isInvisibleSpec then
    if c.stt then
      if i.isArgsTainted && i.status.readyToExpose then none
      else some (i.setExpose (i.taintPropDone && !i.isArgsTainted) false)
    else if i.visible c then some (i.setExpose true false)
    else if i.status.readyToExpose then none
    else some (i.setExpose false false)
  else some { i.setExpose true false with isUnsquashable := true }

/-- From the head of the load queue to its tail. -/
def updateLoads (c : Config) (m : Nat → DynInst) : List Nat → Option (Nat → DynInst)
  | [] => some m
  | x :: xs => (lsqVisible c (m x)).bind fun i => updateLoads c (update m x i) xs

/-- The reorder buffer and the load queue of a thread. -/
structure RobLsq where
  rob : Rob
  loadQueue : List Nat

inductive RobLsqEvent
  | rob (e : RobEvent)
  | insertLoad (x : Nat)
  | removeLoad (x : Nat)
  | updateVisibleState

/-- As `initVars` leaves it. -/
def DynInst.isNew (i : DynInst) : Bool :=
  !i.prevInstsCompleted && !i.prevBrsResolved && !i.isUnsquashable && !i.isArgsTainted &&
    !i.taintPropDone && !i.status.readyToExpose

namespace RobLsq

def updateVisibleState (c : Config) (s : RobLsq) : Option RobLsq :=
  (updateLoads c s.rob.insts s.loadQueue).map fun m => { s with rob := { s.rob with insts := m } }

/-- Instructions are inserted as they were made, and the other stages leave the two
flags of the pass alone. -/
def allows (s : RobLsq) : RobEvent → Bool
  | .insertInst _ inst => inst.isNew
  | .setStatus x st =>
    st.readyToExpose == (s.rob.insts x).status.readyToExpose &&
      st.fenceDelay == (s.rob.insts x).status.fenceDelay
  | _ => true

/-- Loads enter the queue after they entered the buffer, and leave it when they are
committed or squashed. -/
def step (c : Config) (s : RobLsq) : RobLsqEvent → Option RobLsq
  | .rob e => if s.allows e then (s.rob.step c e).map fun r => { s with rob := r } else none
  | .insertLoad x =>
    if x ∈ s.rob.instList ∧ (s.rob.insts x).staticInst.isLoad = true then
      some { s with loadQueue := s.loadQueue ++ [x] }
    else none
  | .removeLoad x => some { s with loadQueue := s.loadQueue.erase x }
  | .updateVisibleState => s.updateVisibleState c

end RobLsq

def robLsqMachine (c : Config) : Machine RobLsq RobLsqEvent where
  start s := (robMachine c).start s.rob ∧ s.loadQueue = []
  step := RobLsq.step c

/-! ## What the pass leaves alone -/

/-- What the pass does not write. -/
def DynInst.unexposed (i : DynInst) : DynInst := { i with status := {}, isUnsquashable := false }

structure Exposes (c : Config) (i j : DynInst) : Prop where
  rest : j.unexposed = i.unexposed
  status : j.status = { i.status with
    readyToExpose := j.status.readyToExpose, fenceDelay := j.status.fenceDelay }
  unsquashable : j.isUnsquashable = i.isUnsquashable ∨
    c.loadInExec = true ∧ c.isInvisibleSpec = false ∧ j.isUnsquashable = true
  ready : c.stt = true → c.loadInExec = true → c.isInvisibleSpec = true →
    j.status.readyToExpose = (i.taintPropDone && !i.isArgsTainted)

theorem lsqVisible_exposes {c : Config} {i j : DynInst} (h : lsqVisible c i = some j) :
    Exposes c i j := by
  unfold lsqVisible at h
  split at h
  · next hl =>
    have hl : c.loadInExec = false := by simpa using hl
    split at h <;> cases h <;> exact ⟨rfl, rfl, .inl rfl, fun _ hl' => by rw [hl] at hl'; cases hl'⟩
  · next hl =>
    have hl : c.loadInExec = true := by simpa using hl
    split at h
    · split at h
      · split at h
        · cases h
        · cases h
          exact ⟨rfl, rfl, .inl rfl, fun _ _ _ => rfl⟩
      · next hstt =>
        split at h
        · cases h
          exact ⟨rfl, rfl, .inl rfl, fun hs => absurd hs hstt⟩
        split at h
        · cases h
        · cases h
          exact ⟨rfl, rfl, .inl rfl, fun hs => absurd hs hstt⟩
    · next hv =>
      have hv : c.isInvisibleSpec = false := by simpa using hv
      cases h
      exact ⟨rfl, rfl, .inr ⟨hl, hv, rfl⟩, fun _ _ hv' => by rw [hv] at hv'; cases hv'⟩

/-- What the pass does to one instruction it does once, or not at all. -/
theorem updateLoads_induct {c : Config} {P : DynInst → Prop} {y : Nat}
    (hload : ∀ i j, P i → lsqVisible c i = some j → P j) {m m' : Nat → DynInst} {xs : List Nat}
    (h : P (m y)) (hr : updateLoads c m xs = some m') : P (m' y) := by
  induction xs generalizing m with
  | nil =>
    cases hr
    exact h
  | cons x xs ih =>
    obtain ⟨i, hi, hr⟩ := Option.bind_eq_some_iff.mp hr
    refine ih ?_ hr
    by_cases hy : y = x
    · subst hy
      rw [update_self]
      exact hload _ _ h hi
    · rwa [update_of_ne hy]

/-! ## What the other events leave alone -/

/-- What the two passes write and the rest of the machine does not. -/
def DynInst.flags (i : DynInst) : Bool × Bool × Bool × Bool × Bool × Bool :=
  (i.prevInstsCompleted, i.prevBrsResolved, i.isUnsquashable, i.isArgsTainted, i.taintPropDone,
    i.status.readyToExpose)

/-- Nothing happens to the flags, except that a new instruction has none set. -/
structure Quiet (r r' : Rob) : Prop where
  mem : ∀ x ∈ r'.instList, x ∈ r.instList ∨
    (r'.insts x).isNew = true ∧ ∀ y ∈ r.instList, y < x
  flags : ∀ x, (r'.insts x).flags = (r.insts x).flags ∨
    (r'.insts x).isNew = true ∧ ∀ y ∈ r.instList, y < x

section
variable {c : Config} {r r' : Rob} {s s' : RobLsq} {x : Nat}

variable {i : DynInst} {p : Prev} {m : Nat → DynInst} {xs : List Nat}

theorem isNew_flags (h : i.isNew) :
    i.flags = (false, false, false, false, false, false) := by
  simp only [DynInst.isNew, Bool.and_eq_true, Bool.not_eq_true'] at h
  simp only [DynInst.flags, h]

theorem Quiet.of_fixed (hl : r'.instList = r.instList)
    (h : ∀ x, (r'.insts x).fixed = (r.insts x).fixed)
    (hready : ∀ x, (r'.insts x).status.readyToExpose = (r.insts x).status.readyToExpose) :
    Quiet r r' where
  mem _ hx := .inl (hl ▸ hx)
  flags x := .inl (congrArg₂ (fun (i : DynInst) ready => (i.prevInstsCompleted, i.prevBrsResolved,
    i.isUnsquashable, i.isArgsTainted, i.taintPropDone, ready)) (h x) (hready x) :)

theorem Quiet.of_squashes (h : Squashes r r') : Quiet r r' :=
  .of_fixed h.instList h.fixed fun x => (congrArg Status.readyToExpose (h.kept x) :)

theorem Quiet.of_retires {h : Nat} {rest : List Nat} (hr : Retires r r' h rest) : Quiet r r' where
  mem x hx := .inl (by rw [hr.instList]; exact mem_cons_of_mem _ (hr.instList' ▸ hx))
  flags x := by
    left
    by_cases hx : x = h
    · subst hx
      rw [hr.head]
      rfl
    · rcases hr.others x hx with he | he
      · rw [he]
      · rw [he]
        rfl

theorem Quiet.of_inserts {inst : DynInst} (hnew : inst.isNew)
    (hyoung : ∀ y ∈ r.instList, y < x) (hr : Inserts r r' x inst) : Quiet r r' := by
  have hself : (r'.insts x).isNew = true := by
    rw [hr.self]
    exact hnew
  refine ⟨fun y hy => ?_, fun y => ?_⟩
  · rw [hr.instList, mem_append, mem_singleton] at hy
    rcases hy with hy | rfl
    · exact .inl hy
    · exact .inr ⟨hself, hyoung⟩
  · by_cases hyx : y = x
    · subst hyx
      exact .inr ⟨hself, hyoung⟩
    · rw [hr.other y hyx]
      exact .inl rfl

/-- Every event of the buffer but the end of a cycle. -/
theorem quiet_of_step (hi : Rob.Inv s.rob) {e : RobEvent} (ha : s.allows e)
    (hcycle : e ≠ .cycle) (hs : s.rob.step c e = some r') :
    Rob.Inv r' ∧ Quiet s.rob r' ∧ TaintFrame s.rob r' := by
  refine ⟨hi.step hs, ?_⟩
  cases e with
  | insertInst x inst =>
    simp only [Rob.step] at hs
    split at hs
    · next hins =>
      have hr := insertInst_spec hs
      have hnew : inst.isNew = true := ha
      have hdone : inst.taintPropDone = false := (congrArg (·.2.2.2.2.1) (isNew_flags hnew) :)
      exact ⟨.of_inserts hnew hins.2.1 hr, .of_inserts hins.2.1 hdone hr⟩
    · cases hs
  | retireHead =>
    simp only [Rob.step] at hs
    split at hs
    · cases hs
    · obtain ⟨h, rest, hret⟩ := retireHead_spec hi.nodup hs
      exact ⟨.of_retires hret, .of_retires hi hret⟩
  | squash n =>
    have hsq := (hi.squash hs).2
    exact ⟨.of_squashes hsq, .of_fixed hsq.instList hsq.fixed⟩
  | doSquash =>
    have hsq := (hi.doSquash hs).2
    exact ⟨.of_squashes hsq, .of_fixed hsq.instList hsq.fixed⟩
  | setStatus x st =>
    cases hs
    simp only [RobLsq.allows, Bool.and_eq_true, beq_iff_eq] at ha
    have hfix : ∀ y, ((s.rob.modify x fun i => { i with status := st }).insts y).fixed =
        (s.rob.insts y).fixed := fun y => by
      by_cases hy : y = x
      · subst hy
        simp [Rob.modify, DynInst.fixed]
      · simp [Rob.modify, hy]
    refine ⟨.of_fixed rfl hfix fun y => ?_, .of_fixed rfl hfix⟩
    by_cases hy : y = x
    · subst hy
      simp [Rob.modify, ha.1]
    · simp [Rob.modify, hy]
  | cycle => exact absurd rfl hcycle

/-! ## The invariant -/

/-- Among the parts that are only claimed for some configurations, `ready` says that a
load is let through to the memory system only without taint, and `older` that whatever is
older than an instruction past its visibility point is past it too. -/
structure RobLsq.Inv (c : Config) (s : RobLsq) : Prop where
  rob : Rob.Inv s.rob
  taint : TaintClosed s.rob
  settled : ∀ x ∈ s.rob.instList, Settled c (s.rob.insts x)
  ready : c.stt = true → c.loadInExec = true → c.isInvisibleSpec = true →
    ∀ x, x ∈ s.rob.instList ∨ x ∈ s.loadQueue → (s.rob.insts x).status.readyToExpose = true →
      (s.rob.insts x).taintPropDone = true ∧ (s.rob.insts x).isArgsTainted = false
  marked : c.isInvisibleSpec = true → ∀ x ∈ s.rob.instList,
    atVisibilityPoint c (s.rob.insts x) = true → (s.rob.insts x).isUnsquashable = true
  older : c.isInvisibleSpec = true → ∀ x ∈ s.rob.instList, ∀ y ∈ s.rob.instList, x ≤ y →
    (s.rob.insts y).isUnsquashable = true → (s.rob.insts x).isUnsquashable = true

theorem visible_congr {j : DynInst} (h : j.flags = i.flags) :
    atVisibilityPoint c j = atVisibilityPoint c i := by
  have h1 : j.prevInstsCompleted = i.prevInstsCompleted := (congrArg (·.1) h :)
  have h2 : j.prevBrsResolved = i.prevBrsResolved := (congrArg (·.2.1) h :)
  unfold atVisibilityPoint
  rw [h1, h2]

theorem isNew_not_visible (hinv : c.isInvisibleSpec) (h : i.isNew) :
    atVisibilityPoint c i = false := by
  have h1 : i.prevInstsCompleted = false := (congrArg (·.1) (isNew_flags h) :)
  have h2 : i.prevBrsResolved = false := (congrArg (·.2.1) (isNew_flags h) :)
  simp [atVisibilityPoint, hinv, h1, h2]

theorem RobLsq.Inv.quiet (h : s.Inv c) (hi : Rob.Inv r') (hq : Quiet s.rob r')
    (hf : TaintFrame s.rob r') : RobLsq.Inv c { s with rob := r' } := by
  -- an instruction that was there keeps its flags
  have hold : ∀ x ∈ s.rob.instList, (r'.insts x).flags = (s.rob.insts x).flags := by
    intro x hx
    rcases hq.flags x with he | ⟨-, hlt⟩
    · exact he
    · exact absurd (hlt x hx) (Nat.lt_irrefl x)
  have hunsq : ∀ x ∈ s.rob.instList, (r'.insts x).isUnsquashable = (s.rob.insts x).isUnsquashable :=
    fun x hx => (congrArg (·.2.2.1) (hold x hx) :)
  have hnew : ∀ x, (r'.insts x).isNew = true → (r'.insts x).isUnsquashable = false :=
    fun x hx => (congrArg (·.2.2.1) (isNew_flags hx) :)
  refine ⟨hi, h.taint.frame h.rob hf, fun x hx hu => ?_, fun h1 h2 h3 x hx hr => ?_,
    fun hinv x hx hv => ?_, fun hinv x hx y hy hxy hu => ?_⟩
  · rcases hq.mem x hx with hm | ⟨hn, -⟩
    · rw [hunsq x hm] at hu
      rw [visible_congr (hold x hm)]
      exact h.settled x hm hu
    · rw [hnew x hn] at hu
      cases hu
  · rcases hq.flags x with he | ⟨hn, -⟩
    · have hready : (r'.insts x).status.readyToExpose = (s.rob.insts x).status.readyToExpose :=
        (congrArg (·.2.2.2.2.2) he :)
      have hargs : (r'.insts x).isArgsTainted = (s.rob.insts x).isArgsTainted :=
        (congrArg (·.2.2.2.1) he :)
      have hdone : (r'.insts x).taintPropDone = (s.rob.insts x).taintPropDone :=
        (congrArg (·.2.2.2.2.1) he :)
      rw [hready] at hr
      rw [hargs, hdone]
      rcases hx with hx | hx
      · rcases hq.mem x hx with hm | ⟨hn, -⟩
        · exact h.ready h1 h2 h3 x (.inl hm) hr
        have hno : (r'.insts x).status.readyToExpose = false :=
          (congrArg (·.2.2.2.2.2) (isNew_flags hn) :)
        rw [← hready, hno] at hr
        cases hr
      · exact h.ready h1 h2 h3 x (.inr hx) hr
    · have hready : (r'.insts x).status.readyToExpose = false :=
        (congrArg (·.2.2.2.2.2) (isNew_flags hn) :)
      rw [hready] at hr
      cases hr
  · rcases hq.mem x hx with hm | ⟨hn, -⟩
    · rw [visible_congr (hold x hm)] at hv
      exact (hunsq x hm).trans (h.marked hinv x hm hv)
    · rw [isNew_not_visible hinv hn] at hv
      cases hv
  · rcases hq.mem y hy with hm | ⟨hn, -⟩
    · rcases hq.mem x hx with hmx | ⟨-, hlt⟩
      · exact (hunsq x hmx).trans (h.older hinv x hmx y hm hxy (hunsq y hm ▸ hu))
      · exact absurd (hlt y hm) (by omega)
    · rw [hnew y hn] at hu
      cases hu

/-! ### The end of a cycle -/

/-- What the walk carries for the threat model. -/
def reached (c : Config) (p : Prev) : Bool :=
  if c.isFuturistic then p.instsComplete else p.brsResolved

theorem reached_of_after (h : reached c (p.after i)) :
    reached c p := by
  unfold reached at h ⊢
  unfold Prev.after at h
  split at h <;> simp_all

theorem markVisible_reached (hinv : c.isInvisibleSpec) :
    (markVisible c p i).isUnsquashable = (atVisibilityPoint c i || reached c p) := by
  unfold markVisible setPrevFlags atVisibilityPoint reached
  simp only [hinv, Bool.or_true, if_true]
  cases c.isFuturistic <;> simp

/-- What the walk newly puts past the visibility point it reaches from the head. -/
theorem visibleWalk_older (hinv : c.isInvisibleSpec) (hs : xs.Pairwise (· < ·)) {y : Nat}
    (hmark : ∀ x ∈ xs, atVisibilityPoint c (m x) → (m x).isUnsquashable)
    (hy : (visibleWalk c p m xs y).isUnsquashable) :
    (m y).isUnsquashable ∨ reached c p ∧
      ∀ x ∈ xs, x ≤ y → (visibleWalk c p m xs x).isUnsquashable := by
  induction xs generalizing p m with
  | nil => exact .inl hy
  | cons z xs ih =>
    obtain ⟨hz, hs⟩ := pairwise_cons.mp hs
    have hzn : z ∉ xs := fun hm => absurd (hz z hm) (Nat.lt_irrefl z)
    rw [visibleWalk] at hy ⊢
    split at hy
    · left
      by_cases hyz : y = z
      · subst hyz
        rwa [update_self] at hy
      · rwa [update_of_ne hyz] at hy
    · next hgo =>
      rw [if_neg hgo]
      have hmark' : ∀ x ∈ xs,
          atVisibilityPoint c (update m z (markVisible c p (m z)) x) = true →
          (update m z (markVisible c p (m z)) x).isUnsquashable = true := by
        intro x hx hv
        have hxz : x ≠ z := fun he => hzn (he ▸ hx)
        rw [update_of_ne hxz] at hv ⊢
        exact hmark x (mem_cons_of_mem _ hx) hv
      have hself : ∀ m' : Nat → DynInst,
          visibleWalk c (p.after (m z)) (update m' z (markVisible c p (m z))) xs z =
            markVisible c p (m z) := fun m' => by
        rw [visibleWalk_of_notMem hzn, update_self]
      by_cases hyz : y = z
      · subst hyz
        rw [hself, markVisible_reached hinv, Bool.or_eq_true] at hy
        refine hy.imp (hmark y mem_cons_self) fun hp => ⟨hp, fun x hx hxy => ?_⟩
        rcases mem_cons.mp hx with rfl | hx
        · rw [hself, markVisible_reached hinv, hp, Bool.or_true]
        · exact absurd (hz x hx) (by omega)
      · rcases ih hs hmark' hy with hold | ⟨hp, hall⟩
        · rw [update_of_ne hyz] at hold
          exact .inl hold
        have hp' := reached_of_after hp
        refine .inr ⟨hp', fun x hx hxy => ?_⟩
        rcases mem_cons.mp hx with rfl | hx
        · rw [hself, markVisible_reached hinv, hp', Bool.or_true]
        · exact hall x hx hxy

/-- The walk puts whatever has the flag past its visibility point. -/
theorem visibleWalk_marked {y : Nat}
    (h : atVisibilityPoint c (m y) → (m y).isUnsquashable) :
    atVisibilityPoint c (visibleWalk c p m xs y) →
      (visibleWalk c p m xs y).isUnsquashable :=
  visibleWalk_induct (P := fun i => atVisibilityPoint c i = true → i.isUnsquashable = true)
    (fun _ h => h) (fun _ _ _ hv => hv) p m xs h

theorem RobLsq.Inv.cycle (hstt : c.stt) (h : s.Inv c) :
    RobLsq.Inv c { s with rob := s.rob.endCycle c } := by
  have hl : (s.rob.endCycle c).instList = s.rob.instList := (endCycle_shape c s.rob).instList
  have hvis := fun x => endCycle_visible c s.rob x
  refine ⟨h.rob.sameShape (endCycle_shape c s.rob), .endCycle hstt h.rob,
    fun x hx => endCycle_settled (h.settled x (hl ▸ hx)), fun h1 h2 h3 x hx hr => ?_,
    fun hinv x hx hv => ?_, fun hinv x hx y hy hxy hu => ?_⟩
  · rw [endCycle_status] at hr
    by_cases hxl : x ∈ s.rob.instList
    · obtain ⟨hd, ha⟩ := h.ready h1 h2 h3 x (.inl hxl) hr
      refine ⟨endCycle_done hstt h.rob hxl, Bool.eq_false_iff.mpr fun ht => ?_⟩
      have hold := (h.taint.endCycle_mono hstt h.rob h.settled hxl hd).1 ht
      rw [ha] at hold
      cases hold
    · have hq : x ∈ s.loadQueue := hx.resolve_left fun hm => hxl (hl ▸ hm)
      change ((s.rob.endCycle c).insts x).taintPropDone = true ∧
        ((s.rob.endCycle c).insts x).isArgsTainted = false
      rw [endCycle_outside c hxl]
      exact h.ready h1 h2 h3 x (.inr hq) hr
  · rw [(hvis x).2.2]
    refine visibleWalk_marked (h.marked hinv x (hl ▸ hx)) ?_
    unfold atVisibilityPoint at hv ⊢
    rw [(hvis x).1, (hvis x).2.1] at hv
    exact hv
  · rw [(hvis y).2.2] at hu
    rw [(hvis x).2.2]
    have hx' : x ∈ s.rob.instList := hl ▸ hx
    have hy' : y ∈ s.rob.instList := hl ▸ hy
    rcases visibleWalk_older hinv h.rob.sorted (h.marked hinv) hu with hold | ⟨-, hall⟩
    · exact visibleWalk_unsquashable (h.settled x hx') (h.older hinv x hx' y hy' hxy hold)
    · exact hall x hx' hxy

/-! ### The pass of the load queue -/

theorem RobLsq.Inv.updateVisibleState (h : s.Inv c) (hr : s.updateVisibleState c = some s') :
    s'.Inv c := by
  obtain ⟨m, hm, rfl⟩ := Option.map_eq_some_iff.mp hr
  -- apart from the two flags of the pass, only the unprotected machine changes anything
  have hrest : ∀ x, (m x).unexposed = (s.rob.insts x).unexposed := fun x =>
    updateLoads_induct (P := fun i => i.unexposed = (s.rob.insts x).unexposed)
      (fun i j hi hj => (lsqVisible_exposes hj).rest.trans hi) rfl hm
  have hunsq : ∀ x, (m x).isUnsquashable = (s.rob.insts x).isUnsquashable ∨
      c.loadInExec = true ∧ c.isInvisibleSpec = false ∧ (m x).isUnsquashable = true := fun x =>
    updateLoads_induct (P := fun i => i.isUnsquashable = (s.rob.insts x).isUnsquashable ∨
        c.loadInExec = true ∧ c.isInvisibleSpec = false ∧ i.isUnsquashable = true)
      (fun i j hi hj => by
        rcases (lsqVisible_exposes hj).unsquashable with he | he
        · rw [he]
          exact hi
        · exact .inr he) (.inl rfl) hm
  have hsame : c.isInvisibleSpec = true → ∀ x,
      (m x).isUnsquashable = (s.rob.insts x).isUnsquashable := fun hinv x =>
    (hunsq x).resolve_right fun ⟨_, hno, _⟩ => by
      rw [hinv] at hno
      cases hno
  have hpoint : ∀ x, atVisibilityPoint c (m x) = atVisibilityPoint c (s.rob.insts x) := fun x =>
    (congrArg (atVisibilityPoint c) (hrest x) :)
  have hdone : ∀ x, (m x).taintPropDone = (s.rob.insts x).taintPropDone := fun x =>
    (congrArg DynInst.taintPropDone (hrest x) :)
  have hargs : ∀ x, (m x).isArgsTainted = (s.rob.insts x).isArgsTainted := fun x =>
    (congrArg DynInst.isArgsTainted (hrest x) :)
  have hshape : SameShape s.rob { s.rob with insts := m } := by
    refine ⟨rfl, rfl, rfl, fun x => ?_⟩
    exact (congrArg DynInst.shape (hrest x) :)
  have hframe : TaintFrame s.rob { s.rob with insts := m } := by
    refine ⟨fun x hx => .inl hx, fun x _ => ⟨hshape.staticInst x, hdone x, hargs x,
      (congrArg DynInst.isAddrTainted (hrest x) :), (congrArg DynInst.isDestTainted (hrest x) :)⟩,
      fun x _ hu => ?_, fun x _ _ => ⟨id, ?_, fun _ _ hp => hp⟩, fun _ _ p _ hc => ?_⟩
    · rcases hunsq x with he | ⟨-, -, he⟩
      · exact he.trans hu
      · exact he
    · rw [map_id]
      exact hshape.srcs x
    · exact (hshape.committed p).trans hc
  refine ⟨h.rob.sameShape hshape, h.taint.frame h.rob hframe, fun x hx hu => ?_,
    fun h1 h2 h3 x hx hready => ?_, fun hinv x hx hv => ?_, fun hinv x hx y hy hxy hu => ?_⟩
  · rcases hunsq x with he | ⟨hl, hv, -⟩
    · rw [hpoint]
      exact h.settled x hx (he ▸ hu)
    · simp [atVisibilityPoint, hl, hv]
  · rw [hdone, hargs]
    -- what the pass wrote, or what was there
    have hcase : (m x).status.readyToExpose = true → (s.rob.insts x).taintPropDone = true ∧
        (s.rob.insts x).isArgsTainted = false :=
      (updateLoads_induct (P := fun i => i.taintPropDone = (s.rob.insts x).taintPropDone ∧
          i.isArgsTainted = (s.rob.insts x).isArgsTainted ∧
          (i.status.readyToExpose = true → (s.rob.insts x).taintPropDone = true ∧
            (s.rob.insts x).isArgsTainted = false))
        (fun i j hi hj => by
          have he := lsqVisible_exposes hj
          refine ⟨(congrArg DynInst.taintPropDone he.rest :).trans hi.1,
            (congrArg DynInst.isArgsTainted he.rest :).trans hi.2.1, fun hj => ?_⟩
          rw [he.ready h1 h2 h3, hi.1, hi.2.1] at hj
          simpa using hj)
        ⟨rfl, rfl, h.ready h1 h2 h3 x hx⟩ hm).2.2
    exact hcase hready
  · rw [hsame hinv]
    exact h.marked hinv x hx (hpoint x ▸ hv)
  · rw [hsame hinv] at hu ⊢
    exact h.older hinv x hx y hy hxy hu

/-! ## Runs -/

theorem RobLsq.Inv.start (h : (robLsqMachine c).start s) : s.Inv c := by
  obtain ⟨hrob, hq⟩ := h
  have hl : s.rob.instList = [] := hrob.1
  refine ⟨inv_start hrob, ⟨?_, ?_, ?_, ?_⟩, ?_, ?_, ?_, ?_⟩
  all_goals first | rw [hl, hq] | rw [hl]
  all_goals simp

theorem RobLsq.Inv.step (hstt : c.stt) (h : s.Inv c) {e : RobLsqEvent}
    (hs : s.step c e = some s') : s'.Inv c := by
  cases e with
  | rob e =>
    simp only [RobLsq.step] at hs
    split at hs
    · next ha =>
      obtain ⟨r', hr, rfl⟩ := Option.map_eq_some_iff.mp hs
      by_cases hc : e = .cycle
      · subst hc
        cases hr
        exact h.cycle hstt
      · obtain ⟨hi, hq, hf⟩ := quiet_of_step h.rob ha hc hr
        exact h.quiet hi hq hf
    · cases hs
  | insertLoad x =>
    simp only [RobLsq.step] at hs
    split at hs
    · next hx =>
      cases hs
      refine { h with ready := fun h1 h2 h3 y hy => ?_ }
      rcases hy with hy | hy
      · exact h.ready h1 h2 h3 y (.inl hy)
      rcases mem_append.mp hy with hy | hy
      · exact h.ready h1 h2 h3 y (.inr hy)
      · rw [mem_singleton.mp hy]
        exact h.ready h1 h2 h3 x (.inl hx.1)
    · cases hs
  | removeLoad x =>
    cases hs
    exact { h with
      ready := fun h1 h2 h3 y hy => h.ready h1 h2 h3 y (hy.imp_right mem_of_mem_erase) }
  | updateVisibleState => exact h.updateVisibleState hs

theorem robLsq_inv (hstt : c.stt) (h : (robLsqMachine c).Reach s) : s.Inv c :=
  h.invariant (fun _ hs => .start hs) fun _ _ _ hi _ hs => hi.step hstt hs

/-- A step that keeps an untainted instruction in the buffer keeps it untainted. -/
theorem RobLsq.Inv.untainted (hstt : c.stt) (h : s.Inv c) {e : RobLsqEvent}
    (hs : s.step c e = some s') (hx : x ∈ s.rob.instList)
    (hu : (s.rob.insts x).taintPropDone ∧ (s.rob.insts x).isArgsTainted = false) :
    (s'.rob.insts x).taintPropDone ∧ (s'.rob.insts x).isArgsTainted = false := by
  cases e with
  | rob e =>
    simp only [RobLsq.step] at hs
    split at hs
    · next ha =>
      obtain ⟨r', hr, rfl⟩ := Option.map_eq_some_iff.mp hs
      by_cases hc : e = .cycle
      · subst hc
        cases hr
        refine ⟨endCycle_done hstt h.rob hx, Bool.eq_false_iff.mpr fun ht => ?_⟩
        have hold := (h.taint.endCycle_mono hstt h.rob h.settled hx hu.1).1 ht
        rw [hu.2] at hold
        cases hold
      · obtain ⟨-, -, hf⟩ := quiet_of_step h.rob ha hc hr
        obtain ⟨-, hd, ha, -, -⟩ := hf.flags x hx
        exact ⟨hd.trans hu.1, ha.trans hu.2⟩
    · cases hs
  | insertLoad y =>
    simp only [RobLsq.step] at hs
    split at hs
    · cases hs
      exact hu
    · cases hs
  | removeLoad y =>
    cases hs
    exact hu
  | updateVisibleState =>
    obtain ⟨m, hm, rfl⟩ := Option.map_eq_some_iff.mp hs
    exact updateLoads_induct
      (P := fun i => i.taintPropDone = true ∧ i.isArgsTainted = false) (fun i j hi hj => by
        have he := (lsqVisible_exposes hj).rest
        exact ⟨(congrArg DynInst.taintPropDone he :).trans hi.1,
          (congrArg DynInst.isArgsTainted he :).trans hi.2⟩) hu hm

/-- The assertion fails only for a tainted load that may be exposed. -/
theorem updateLoads_isSome (hstt : c.stt)
    (h : c.loadInExec → c.isInvisibleSpec → ∀ x ∈ xs,
      (m x).status.readyToExpose → (m x).isArgsTainted = false) :
    (updateLoads c m xs).isSome := by
  induction xs generalizing m with
  | nil => rfl
  | cons x xs ih =>
    have hsome : ∃ i, lsqVisible c (m x) = some i := by
      unfold lsqVisible
      rw [if_pos hstt, if_pos hstt]
      split
      · exact ⟨_, rfl⟩
      rename_i hl
      split
      · next hv =>
        split
        · next ha =>
          rw [Bool.and_eq_true] at ha
          have := h (by simpa using hl) hv x mem_cons_self ha.2
          rw [ha.1] at this
          cases this
        · exact ⟨_, rfl⟩
      · exact ⟨_, rfl⟩
    obtain ⟨i, hi⟩ := hsome
    rw [updateLoads, hi, Option.bind_some]
    refine ih fun hl hv y hy hready => ?_
    have hex := lsqVisible_exposes hi
    by_cases hyx : y = x
    · subst hyx
      rw [update_self] at hready ⊢
      rw [hex.ready hstt hl hv] at hready
      have hargs : i.isArgsTainted = (m y).isArgsTainted :=
        (congrArg DynInst.isArgsTainted hex.rest :)
      rw [hargs]
      simp only [Bool.and_eq_true, Bool.not_eq_true'] at hready
      exact hready.2
    · rw [update_of_ne hyx] at hready ⊢
      exact h hl hv y (mem_cons_of_mem _ hy) hready

end

/-- Once computed and clean, the arguments of an instruction stay clean for as long as it is
in the buffer, and the load queue's assertion that a load it may expose is not tainted holds. -/
theorem taint_never_returns {c : Config} (hstt : c.stt = true) {s : RobLsq}
    (h : (robLsqMachine c).Reach s) :
    (∀ x ∈ s.rob.instList, (s.rob.insts x).taintPropDone = true →
      (s.rob.insts x).isArgsTainted = false → ∀ s' : RobLsq,
        (robLsqMachine c).StepsWhile (fun _ _ => True) (fun t => x ∈ t.rob.instList) s s' →
          (s'.rob.insts x).isArgsTainted = false) ∧
      (s.updateVisibleState c).isSome = true := by
  refine ⟨fun x hx hd ha s' hr => ?_, ?_⟩
  · have hinv := hr.invariant h hx
      (I := fun t => (t.rob.insts x).taintPropDone = true ∧ (t.rob.insts x).isArgsTainted = false)
      ⟨hd, ha⟩ fun t e u ht hxt _ hi _ hs => (robLsq_inv hstt ht).untainted hstt hs hxt hi
    exact hinv.2.2
  · have hi := robLsq_inv hstt h
    rw [RobLsq.updateVisibleState, Option.isSome_map]
    exact updateLoads_isSome hstt fun hl hv x hx hr => (hi.ready hstt hl hv x (.inr hx) hr).2

/-! ## A load behind an unresolved branch -/

def emptyRobLsq : RobLsq := ⟨emptyRob, []⟩

def loadBehindBranch : List RobLsqEvent :=
  [.rob (.insertInst 1 { staticInst := branchInst, srcs := [], dests := [] }),
    .rob (.insertInst 2 { staticInst := loadInst, srcs := [], dests := [⟨⟨.intRegClass, 0⟩, 40⟩] }),
    .rob (.insertInst 3
      { staticInst := loadInst, srcs := [⟨⟨.intRegClass, 0⟩, ⟨.intRegClass, 0⟩, 40, none⟩]
        dests := [] }),
    .insertLoad 2, .insertLoad 3, .rob .cycle, .updateVisibleState]

def loadBehindBranchState : RobLsq :=
  ((robLsqMachine spectreConfig).run emptyRobLsq loadBehindBranch).getD emptyRobLsq

theorem loadBehindBranch_reach : (robLsqMachine spectreConfig).Reach loadBehindBranchState :=
  Machine.reach_run ⟨⟨rfl, rfl, rfl⟩, rfl⟩ (Machine.run_getD (by decide +kernel))

/-- The first load is untainted and stays so; the second depends on it and is tainted. -/
theorem taint_never_returns_load :
    (∀ s' : RobLsq, (robLsqMachine spectreConfig).StepsWhile (fun _ _ => True)
      (fun t => 2 ∈ t.rob.instList) loadBehindBranchState s' →
        (s'.rob.insts 2).isArgsTainted = false) ∧
      (loadBehindBranchState.rob.insts 3).isArgsTainted = true :=
  ⟨(taint_never_returns (c := spectreConfig) rfl loadBehindBranch_reach).1 2 (by decide +kernel)
    (by decide +kernel) (by decide +kernel), by decide +kernel⟩

/-! ## The untainted part -/

/-- In an increasing list, a downward closed part is what stands in front. -/
theorem filter_eq_takeWhile {P : Nat → Bool} {l : List Nat} (hs : l.Pairwise (· < ·))
    (hP : ∀ x ∈ l, ∀ y ∈ l, x ≤ y → P y → P x) : l.filter P = l.takeWhile P := by
  induction l with
  | nil => rfl
  | cons x l ih =>
    obtain ⟨hx, hs⟩ := pairwise_cons.mp hs
    have ih := ih hs fun a ha b hb => hP a (mem_cons_of_mem _ ha) b (mem_cons_of_mem _ hb)
    cases hpx : P x with
    | true => rw [filter_cons_of_pos hpx, takeWhile_cons_of_pos hpx, ih]
    | false =>
      rw [filter_cons_of_neg (by simp [hpx]), takeWhile_cons_of_neg (by simp [hpx]),
        filter_eq_nil_iff]
      intro y hy hpy
      have := hP x mem_cons_self y (mem_cons_of_mem _ hy) (Nat.le_of_lt (hx y hy)) hpy
      rw [hpx] at this
      cases this

/-- After the taint pass nothing past its visibility point is tainted: by induction on the
sequence number, what it depends on is past its visibility point too. -/
theorem computeTaint_untainted {r : Rob} (hi : Rob.Inv r)
    (holder : ∀ x ∈ r.instList, ∀ y ∈ r.instList, x ≤ y → (r.insts y).isUnsquashable →
      (r.insts x).isUnsquashable) (x : Nat) :
    x ∈ r.instList → (r.insts x).isUnsquashable →
      (r.computeTaint.insts x).isArgsTainted = false ∧
        (r.computeTaint.insts x).isDestTainted = false := by
  induction x using Nat.strongRecOn with
  | _ x ih =>
    intro hx hu
    have hargs : (r.computeTaint.insts x).isArgsTainted = false := by
      rw [(computeTaint_eq hi hx).1, explicitFlow, any_eq_false]
      intro s hs ht
      obtain ⟨p, hp, hd, hc⟩ := taintedLink_eq_true.mp ht
      rw [(computeTaint_shape r).committed] at hc
      obtain ⟨hpl, hlt⟩ := hi.live_link hx hs hp hc
      rw [(ih p hlt hpl (holder p hpl x hx (Nat.le_of_lt hlt) hu)).2] at hd
      cases hd
    refine ⟨hargs, ?_⟩
    rw [(computeTaint_eq hi hx).2.2, hargs, hu]
    simp

/-- After every cycle the instructions past their visibility point are a prefix of the
buffer; their arguments are untainted, and so are their producers in the buffer. -/
theorem visible_front {c : Config} (hstt : c.stt = true) (hinv : c.isInvisibleSpec = true)
    {s s' : RobLsq} (h : (robLsqMachine c).Reach s) (hs : s.step c (.rob .cycle) = some s') :
    (s'.rob.instList.filter fun x => (s'.rob.insts x).isUnsquashable) <+: s'.rob.instList ∧
      ∀ x ∈ s'.rob.instList, (s'.rob.insts x).isUnsquashable = true →
        (s'.rob.insts x).isArgsTainted = false ∧
          ∀ src ∈ (s'.rob.insts x).srcs, ∀ p ∈ s'.rob.instList, src.argProducer = some p →
            (s'.rob.insts p).isDestTainted = false := by
  have hi := robLsq_inv hstt h
  have hi' := hi.step hstt hs
  have hsorted := hi'.rob.sorted
  refine ⟨?_, fun x hx hu => ?_⟩
  · rw [filter_eq_takeWhile hsorted (hi'.older hinv)]
    exact takeWhile_prefix _
  · cases hs
    have hvis := updateVisibleState_shape c s.rob
    have hiv := hi.rob.sameShape hvis
    have hl : (s.rob.endCycle c).instList = (s.rob.updateVisibleState c).instList :=
      (endCycle_shape c s.rob).instList.trans hvis.instList.symm
    have hunsq := fun y => (endCycle_visible c s.rob y).2.2
    have hpass : s.rob.endCycle c = (s.rob.updateVisibleState c).computeTaint := by
      rw [Rob.endCycle, if_pos hstt]
    have holder : ∀ a ∈ (s.rob.updateVisibleState c).instList,
        ∀ b ∈ (s.rob.updateVisibleState c).instList, a ≤ b →
          ((s.rob.updateVisibleState c).insts b).isUnsquashable = true →
            ((s.rob.updateVisibleState c).insts a).isUnsquashable = true := by
      intro a ha b hb hab hub
      rw [← hunsq] at hub ⊢
      exact hi'.older hinv a (hl ▸ ha) b (hl ▸ hb) hab hub
    have hclean := computeTaint_untainted hiv holder
    rw [← hpass] at hclean
    have hux : ((s.rob.updateVisibleState c).insts x).isUnsquashable = true := by
      rw [← hunsq]
      exact hu
    refine ⟨(hclean x (hl ▸ hx) hux).1, fun src hsrc p hp hlink => ?_⟩
    have hlt := (hi'.rob.linked x hx src hsrc p hlink).2.1
    exact (hclean p (hl ▸ hp) (holder p (hl ▸ hp) x (hl ▸ hx) (Nat.le_of_lt hlt) hux)).2

/-- Behind the unresolved branch nothing is past its visibility point. -/
theorem visible_front_branch :
    ((loadBehindBranchState.rob.endCycle spectreConfig).instList.filter fun x =>
        ((loadBehindBranchState.rob.endCycle spectreConfig).insts x).isUnsquashable) <+:
      (loadBehindBranchState.rob.endCycle spectreConfig).instList ∧
      ((loadBehindBranchState.rob.endCycle spectreConfig).instList.filter fun x =>
        ((loadBehindBranchState.rob.endCycle spectreConfig).insts x).isUnsquashable) = [1] :=
  ⟨(visible_front (c := spectreConfig) rfl rfl loadBehindBranch_reach rfl).1, by decide +kernel⟩

end SdoCore
