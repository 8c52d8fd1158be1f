import SdoCore.Lsq.Retire

/-! The counter `loadsToVLD` of the load/store unit, the loads that have been found safe and have
not sent their second access. `squash` still takes the loads it removes off the counter, and
`drainSanityCheck` and `exposeLoads` still test it, but the two places in `updateVisibleState` that
counted a load are commented out.

The machine is that of the unit with the counter beside it, and with the two passes of a tick as
events of their own.

* `loadsToVLD_exact`: the counter agrees with the queue as long as no load turns ready before its
  second access is sent, and at the first load that does it disagrees;
* `loadsToVLD_negative`: such a load is squashed, and the counter of an empty queue is negative. -/

namespace SdoCore

open List
open Lib
open Function (update update_of_ne update_self)
open Option (bind_eq_some_iff map_eq_some_iff)
open List.Sublist (refl)

/-- A second access is needed and not sent. -/
def LoadInst.awaitsSecond (l : LoadInst) : Bool := l.second.needPostFetch && !l.second.exposeSent

/-- The load is one `loadsToVLD` is to count. -/
def LsqUnit.counts (s : LsqUnit) (x : Nat) : Bool := (s.loads x).awaitsSecond && s.ready x

def LsqUnit.toValidate (s : LsqUnit) : Nat := s.base.loadQueue.countP s.counts

structure VldUnit where
  unit : LsqUnit
  loadsToVLD : Int := 0

inductive VldEvent
  | unit (e : UnitEvent)
  | updateVisibleState
  | exposeLoads (answer : Nat → Bool × Bool)

namespace VldUnit

/-- What `squash` takes off the counter. -/
def squashed (s : VldUnit) : UnitEvent → Nat
  | .squash squashedNum =>
    (s.unit.base.loadQueue.filter fun x => decide (squashedNum < x)).countP s.unit.counts
  | _ => 0

/-- The part of `drainSanityCheck` about the load queue. -/
def drainSanityCheck (s : VldUnit) : Bool := s.unit.base.loadQueue.isEmpty && s.loadsToVLD == 0

def step (c : LsqConfig) (s : VldUnit) : VldEvent → Option VldUnit
  | .unit (.iewTick _) => none
  | .unit e => (s.unit.step c e).map fun u => ⟨u, s.loadsToVLD - s.squashed e⟩
  | .updateVisibleState =>
    if s.unit.passed then none
    else (s.unit.base.step c.toConfig .updateVisibleState).map fun b =>
      { s with unit := { s.unit with base := b } }
  | .exposeLoads answer =>
    -- assert(loadsToVLD==0) unless loads are invisible
    if s.unit.passed || (!c.isInvisibleSpec && s.loadsToVLD != 0) then none
    else (SdoCore.exposeLoads c s.unit.ready answer s.unit.loads s.unit.base.loadQueue).map fun m =>
      { s with unit := { s.unit with loads := m, passed := true } }

end VldUnit

def vldMachine (c : LsqConfig) : Machine VldUnit VldEvent where
  start s := (lsqMachine c).start s.unit ∧ s.loadsToVLD = 0
  step := VldUnit.step c

/-! ## One load -/

namespace LoadInst

variable {c : LsqConfig} {l l' : LoadInst}

theorem awaitsSecond_congr (h : l'.second = l.second) : l'.awaitsSecond = l.awaitsSecond := by
  rw [awaitsSecond, awaitsSecond, h]

/-- The load may stop waiting for its second access, but it does not begin to. -/
def Settles (l l' : LoadInst) : Prop := l'.awaitsSecond = true → l.awaitsSecond = true

theorem Settles.of_second (h : l'.second = l.second) : Settles l l' :=
  fun hw => awaitsSecond_congr h ▸ hw

variable {k : LoadInst} {ready fst snd : Bool} {h : Half} {flow : Flow}

theorem Settles.trans (h : Settles l k) (h' : Settles k l') : Settles l l' :=
  fun hw => h (h' hw)

theorem Settles.of_sent (h : l'.second.exposeSent) : Settles l l' := by
  intro hw
  simp [awaitsSecond, h] at hw

theorem Settles.of_kept (hp : l'.second.needPostFetch = l.second.needPostFetch)
    (hs : l'.second.exposeSent = l.second.exposeSent) : Settles l l' := by
  intro hw
  rwa [awaitsSecond, hp, hs] at hw

theorem Settles.after (h : Settles k l') (hk : k.second = l.second) : Settles l l' :=
  (Settles.of_second hk).trans h

theorem settles_update (c : LsqConfig) (l : LoadInst) (t : UpdateType) :
    Settles l (l.updateLocationPredictor c t) := by
  rw [updateLocationPredictor_eq]
  exact .of_second rfl

theorem settles_writeback {src : Source} (h : l.writeback c src = some l') : Settles l l' := by
  simp only [writeback] at h
  split at h
  · cases h
  split at h
  · cases h
  split at h
  · split at h
    · cases h
    · cases h
      exact .of_second rfl
  · split at h
    · cases h
      exact .of_sent rfl
    · cases h
      exact .of_second rfl

/-- A write-back, and what is noted after it. -/
theorem settles_written {src : Source} {f : LoadInst → LoadInst}
    (h : (k.writeback c src).map f = some l') (hk : k.second = l.second)
    (hf : ∀ m, Settles m (f m)) : Settles l l' := by
  obtain ⟨m, hm, rfl⟩ := map_eq_some_iff.mp h
  exact (Settles.of_second hk).trans ((settles_writeback hm).trans (hf m))

theorem settles_wroteBack (b : Bool) (t : UpdateType) (l : LoadInst) :
    Settles l ((l.wroteBack b).updateLocationPredictor c t) :=
  (Settles.of_second rfl).trans (settles_update c _ t)

theorem settles_transition {e : Event} (h : l.transition c ready e = some l') :
    Settles l l' := by
  have hdone (b : Bool) (m : LoadInst) : Settles m (m.wroteBack b) := .of_second rfl
  have hmiss (m : LoadInst) : Settles m (m.wroteBack true).predictOnMiss := .of_second rfl
  have hupd (st : MldomState) (t : UpdateType) :
      Settles l ((l.goto st).updateLocationPredictor c t) :=
    (Settles.of_second rfl).trans (settles_update c _ t)
  simp only [transition] at h
  -- a case of the table fails, notes a state, or writes back
  split at h <;> repeat' (split at h)
  all_goals first
    | cases h <;> first | exact .of_second rfl | exact hupd _ _
    | exact settles_written h rfl (hdone _)
    | exact settles_written h rfl hmiss
    | exact settles_written h rfl (settles_wroteBack _ _)

theorem settles_oblResponse {p : OblPkt} (hr : l.completeOblS c ready h p = some l') :
    Settles l l' := by
  obtain ⟨k, hk, hr⟩ := bind_eq_some_iff.mp hr
  have hs : Settles l k := by
    simp only [mergeHits] at hk
    split at hk
    · cases hk
    split at hk
    · cases hk
    · cases hk
      exact .of_second rfl
  split at hr
  · cases hr
    exact hs
  split at hr
  · cases hr
    exact hs
  · exact hs.trans (settles_transition hr)

theorem settles_completeValidate (l : LoadInst) : Settles l l.completeValidate := by
  simp only [completeValidate]
  split
  · exact .of_second rfl
  · exact .of_kept rfl rfl

theorem settles_postResponse {q : Post} {p : RespPkt}
    (hr : l.completePost c ready q h p = some l') : Settles l l' := by
  simp only [completePost] at hr
  split at hr
  · cases hr
  split at hr
  · cases hr
    exact .of_kept rfl rfl
  split at hr
  · cases hr
    exact .of_kept rfl rfl
  · obtain ⟨k, hk, rfl⟩ := map_eq_some_iff.mp hr
    exact (Settles.of_kept rfl rfl).trans
      ((settles_transition hk).trans (settles_completeValidate k))

theorem settles_readResponse {p : RespPkt} (hr : l.completeRead c h p = some l') :
    Settles l l' := by
  simp only [completeRead] at hr
  split at hr
  · cases hr
    exact .of_second rfl
  · obtain ⟨k, hk, rfl⟩ := map_eq_some_iff.mp hr
    exact ((settles_writeback hk).trans (settles_update c k _)).after rfl

theorem settles_processWriteback (hr : l.processWriteback c = some l') : Settles l l' := by
  obtain ⟨src, -, hr⟩ := bind_eq_some_iff.mp hr
  dsimp only at hr
  split at hr
  · cases hr
    exact .of_second rfl
  · exact (settles_writeback hr).after rfl

/-! ### The pass of `exposeLoads` -/

theorem settles_sendPost (h : l.sendPost c fst snd = some l') : Settles l l' := by
  have halways : Settles l (l.exposeAlways c) := by
    simp only [exposeAlways]
    split
    · exact .of_kept rfl rfl
    · exact .of_second rfl
  simp only [sendPost] at h
  split at h
  · cases h
  split at h
  · cases h
    exact halways
  split at h
  · cases h
    exact halways.trans (.of_kept rfl rfl)
  · cases h
    exact .of_sent rfl

/-- The kind of the access is noted, and the packets are sent. -/
theorem settles_sent (h : (k.sendPost c fst snd).map (·, Flow.next) = some (l', flow))
    (hk : Settles l k) :
    Settles l l' := by
  obtain ⟨m, hm, heq⟩ := map_eq_some_iff.mp h
  cases heq
  exact hk.trans (settles_sendPost hm)

theorem settles_chooseSecond (h : l.chooseSecond c fst snd = some (l', flow)) : Settles l l' := by
  simp only [chooseSecond] at h
  split at h
  · exact settles_sent h (.of_kept rfl rfl)
  split at h
  · cases h
    exact .of_sent rfl
  split at h
  · exact settles_sent h (.of_kept rfl rfl)
  · exact settles_sent h (.of_kept rfl rfl)

theorem settles_exposeSafe (h : l.exposeSafe c fst snd = some (l', flow)) : Settles l l' := by
  have hchoose {k : LoadInst} {t : UpdateType}
      (h : (k.updateLocationPredictor c t).chooseSecond c fst snd = some (l', flow))
      (hk : Settles l k) : Settles l l' :=
    hk.trans ((settles_update c k t).trans (settles_chooseSecond h))
  simp only [exposeSafe] at h
  split at h
  · cases h
  split at h
  · split at h <;> cases h
    exact .of_second rfl
  split at h
  · -- the request has been answered
    split at h
    · cases h
    split at h
    · split at h <;> cases h
      exact .of_second rfl
    · exact hchoose h (.of_second rfl)
  · exact settles_sent h (.of_kept rfl rfl)
  · -- an early hit is written back first
    split at h
    · cases h
    obtain ⟨k, hk, h⟩ := bind_eq_some_iff.mp h
    have hwritten : Settles l k := by
      split at hk
      · cases hk
        exact .of_second rfl
      · exact (settles_writeback hk).after rfl
    exact hchoose h (hwritten.trans (.of_second rfl))
  · split at h
    · exact settles_sent h (.of_second rfl)
    · split at h <;> cases h
      exact .of_second rfl

theorem settles_exposeLoad (h : l.exposeLoad c ready fst snd = some (l', flow)) : Settles l l' := by
  have htrain : Settles l (l.trainForwarded c ready) := by
    simp only [trainForwarded]
    split
    · exact settles_update c l _
    · exact .of_second rfl
  simp only [exposeLoad] at h
  split at h
  · cases h
    exact .of_second rfl
  split at h
  · cases h
    exact htrain
  split at h
  · cases h
    exact .of_sent rfl
  split at h
  · cases h
    exact htrain
  · exact htrain.trans (settles_exposeSafe h)

/-! ### Execution -/

/-- A load that is ready is read as usual, and has no second access then. -/
theorem Executes.settles {isHead b : Bool} {tr : Translation} {rd : ReadInput}
    (h : Executes c true isHead b tr rd l l') : Settles l l' := by
  obtain ⟨-, -, ⟨hsame, -⟩ | ⟨hs, -⟩ | rfl⟩ := h.frame
  · exact .of_second hsame
  · simp at hs
  · intro hw
    simp [awaitsSecond, readSent] at hw

end LoadInst

open LoadInst in
/-- Whatever happens to a load that is ready, it does not begin to wait for its second access. -/
theorem Life.settles_of_handle {c : LsqConfig} {s : Life} {e : LoadEvent} {l : LoadInst}
    (hr : s.ready) (h : s.handle c e = some l) : Settles s.load l := by
  cases e with
  | exposeLoads fst snd =>
    obtain ⟨r, hr, rfl⟩ := map_eq_some_iff.mp h
    exact settles_exposeLoad hr
  | executeLoad isHead b tr rd =>
    rw [Life.handle, hr] at h
    exact (executeLoad_cases h).settles
  | oblResponse k p => exact settles_oblResponse h
  | postResponse k p =>
    obtain ⟨q, -, hq⟩ := bind_eq_some_iff.mp h
    exact settles_postResponse hq
  | staleResponse p =>
    cases h
    exact .of_kept rfl rfl
  | readResponse k p => exact settles_readResponse h
  | writebackEvent => exact settles_processWriteback h
  | checkSnoop line external fence force =>
    cases h
    refine .of_second ?_
    simp only [checkSnoop, hitBySnoop]
    split
    · rfl
    split
    · split <;> rfl
    · rfl
  | _ =>
    cases h
    exact .of_second rfl

/-! ## The unit -/

section
variable {c : Config} {x : Nat}

/-- The pass visits every load of the queue once. -/
theorem updateLoads_mem {m m' : Nat → DynInst} {xs : List Nat} (hs : xs.Pairwise (· < ·))
    (h : updateLoads c m xs = some m') (hx : x ∈ xs) : lsqVisible c (m x) = some (m' x) := by
  induction xs generalizing m with
  | nil => cases hx
  | cons z zs ih =>
    obtain ⟨hz, hs⟩ := pairwise_cons.mp hs
    obtain ⟨i, hi, h⟩ := bind_eq_some_iff.mp h
    have hzn : z ∉ zs := fun hm => absurd (hz z hm) (Nat.lt_irrefl z)
    rcases mem_cons.mp hx with rfl | hx
    · rw [updateLoads_of_notMem h hzn, update_self]
      exact hi
    · have hne : x ≠ z := fun he => hzn (he ▸ hx)
      rw [← ih hs h hx, update_of_ne hne]

theorem ready_of_robStep {s : RobLsq} {r : Rob} (hi : Rob.Inv s.rob) {e : RobEvent}
    (ha : s.allows e) (hs : s.rob.step c e = some r)
    (hr : (r.insts x).status.readyToExpose) :
    (s.rob.insts x).status.readyToExpose := by
  by_cases hcycle : e = .cycle
  · subst hcycle
    cases hs
    rwa [Rob.endCycle_status] at hr
  · rcases (quiet_of_step hi ha hcycle hs).2.1.flags x with hf | ⟨hnew, -⟩
    · exact (congrArg (·.2.2.2.2.2) hf :).symm.trans hr
    have hno : (r.insts x).status.readyToExpose = false :=
      (congrArg (·.2.2.2.2.2) (isNew_flags hnew) :)
    rw [hno] at hr
    cases hr

end

theorem snoopLoads_second {c : LsqConfig} {line x : Nat} {external force : Bool}
    {fence : Nat → Bool} {m : Nat → LoadInst} (xs : List Nat) :
    (snoopLoads c line external fence m force xs x).second = (m x).second := by
  induction xs generalizing m force with
  | nil => rfl
  | cons z zs ih =>
    refine ih.trans ?_
    by_cases hx : x = z
    · subst hx
      simp only [update_self, LoadInst.checkSnoop, LoadInst.hitBySnoop]
      split
      · rfl
      split
      · split <;> rfl
      · rfl
    · rw [update_of_ne hx]

namespace VldUnit

open LoadInst

variable {c : LsqConfig} {s s' : VldUnit}

/-- No load that still has to send its second access turns ready. -/
def noneTurnsReady (c : LsqConfig) (s : VldUnit) : VldEvent → Bool
  | .updateVisibleState => s.unit.base.loadQueue.all fun x =>
    !((s.unit.loads x).awaitsSecond &&
      (lsqVisible c.toConfig (s.unit.inst x)).any (·.status.readyToExpose))
  | _ => true

/-- The queue is in order, and nothing is to be counted. -/
structure Uncounted (s : VldUnit) : Prop where
  rob : Rob.Inv s.unit.base.rob
  last : ∀ x ∈ s.unit.base.loadQueue, x ≤ s.unit.lastLoad
  sorted : s.unit.base.loadQueue.Pairwise (· < ·)
  none : ∀ x ∈ s.unit.base.loadQueue, s.unit.counts x = false
  counter : s.loadsToVLD = 0

theorem Uncounted.toValidate (h : s.Uncounted) : s.unit.toValidate = 0 :=
  countP_eq_zero.mpr fun x hx => by simp [h.none x hx]

/-- Loads may leave the queue and turn unready, and none begins to wait. -/
theorem Uncounted.of_settles (h : s.Uncounted) {u : LsqUnit} {n : Int} (hrob : Rob.Inv u.base.rob)
    (hq : u.base.loadQueue.Sublist s.unit.base.loadQueue) (hlast : u.lastLoad = s.unit.lastLoad)
    (hready : ∀ x ∈ s.unit.base.loadQueue, u.ready x → s.unit.ready x)
    (hloads : ∀ x ∈ s.unit.base.loadQueue, s.unit.ready x →
      Settles (s.unit.loads x) (u.loads x))
    (hn : n = 0) : Uncounted ⟨u, n⟩ where
  rob := hrob
  last x hx := hlast ▸ h.last x (hq.subset hx)
  sorted := h.sorted.sublist hq
  none x hx := by
    refine Bool.eq_false_iff.mpr fun hc => ?_
    simp only [LsqUnit.counts, Bool.and_eq_true] at hc
    have hr := hready x (hq.subset hx) hc.2
    have hno := h.none x (hq.subset hx)
    rw [LsqUnit.counts, hloads x (hq.subset hx) hr hc.1, hr] at hno
    cases hno
  counter := hn

theorem settles_updated {m : Nat → LoadInst} {x y : Nat} {l : LoadInst}
    (h : x = y → Settles (m y) l) : Settles (m x) (update m y l x) := by
  by_cases hxy : x = y
  · subst hxy
    rw [update_self]
    exact h rfl
  · rw [update_of_ne hxy]
    exact .of_second rfl

theorem Uncounted.unitEvent (h : s.Uncounted) {e : UnitEvent} (he : ∀ a, e ≠ .iewTick a)
    {u : LsqUnit} (hs : s.unit.step c e = some u) : Uncounted ⟨u, s.loadsToVLD - s.squashed e⟩ := by
  have hsame (e : UnitEvent) (he : ∀ n, e ≠ .squash n) : s.loadsToVLD - s.squashed e = 0 := by
    cases e <;> first | exact absurd rfl (he _) | simp [squashed, h.counter]
  have hload (y : Nat) (k : LoadEvent) (l : LoadInst)
      (hl : (s.unit.life y).handle c k = some l) (x : Nat) (hr : s.unit.ready x = true) :
      Settles (s.unit.loads x) (update s.unit.loads y l x) :=
    settles_updated fun hxy => Life.settles_of_handle (s := s.unit.life y) (hxy ▸ hr) hl
  cases LsqUnit.stepped_of_step hs with
  | rob e r _ hb hr =>
    exact h.of_settles (h.rob.step hr) (refl _) rfl
      (fun x _ hx => ready_of_robStep h.rob hb hr hx) (fun x _ _ => .of_second rfl)
      (hsame _ nofun)
  | insertLoad y split data inst ordered _ hy =>
    have hnew (x : Nat) (hx : x ∈ s.unit.base.loadQueue) : x ≠ y := by
      have := h.last x hx
      omega
    refine ⟨h.rob, fun x hx => ?_, ?_, fun x hx => ?_, hsame _ nofun⟩
    · rcases mem_append.mp hx with hx | hx
      · exact (h.last x hx).trans hy.le
      · exact (mem_singleton.mp hx).le
    · refine pairwise_append.mpr ⟨h.sorted, pairwise_singleton _ _, fun x hx z hz => ?_⟩
      rw [mem_singleton.mp hz]
      exact (h.last x hx).trans_lt hy
    · rcases mem_append.mp hx with hx | hx
      · show ((update s.unit.loads y _ x).awaitsSecond && s.unit.ready x) = false
        rw [update_of_ne (hnew x hx)]
        exact h.none x hx
      · rw [mem_singleton.mp hx]
        simp [LsqUnit.counts, LoadInst.awaitsSecond]
  | iewTick answer => exact absurd rfl (he answer)
  | executeLoad y tr rd l q _ _ _ _ hl =>
    exact h.of_settles h.rob (refl _) rfl (fun _ _ => id)
      (fun x _ hr => hload y _ l hl x hr) (hsame _ nofun)
  | executeStore y split =>
    exact h.of_settles h.rob (refl _) rfl (fun _ _ => id) (fun _ _ _ => .of_second rfl)
      (hsame _ nofun)
  | load y k l _ _ _ _ hl =>
    exact h.of_settles h.rob (refl _) rfl (fun _ _ => id)
      (fun x _ hr => hload y _ l hl x hr) (hsame _ nofun)
  | checkSnoop line external =>
    exact h.of_settles h.rob (refl _) rfl (fun _ _ => id)
      (fun _ _ _ => .of_second (snoopLoads_second _)) (hsame _ nofun)
  | commitHead y r _ _ hr =>
    exact h.of_settles (h.rob.step hr) (refl _) rfl
      (fun x _ hx => ready_of_robStep h.rob rfl hr hx)
      (fun x _ _ => settles_updated fun _ => .of_second rfl) (hsame _ nofun)
  | setSquashed y =>
    exact h.of_settles h.rob (refl _) rfl (fun _ _ => id)
      (fun x _ _ => settles_updated fun _ => .of_second rfl) (hsame _ nofun)
  | squash n =>
    refine h.of_settles h.rob filter_sublist rfl (fun _ _ => id) (fun x _ _ => ?_) ?_
    · dsimp only
      split
      · exact .of_second rfl
      · exact .of_second rfl
    · -- there is nothing to take off
      have hzero : s.squashed (.squash n) = 0 :=
        countP_eq_zero.mpr fun x hx => by simp [h.none x (mem_filter.mp hx).1]
      simp [hzero, h.counter]
  | commitLoad y q _ hq =>
    exact h.of_settles h.rob (hq ▸ sublist_cons_self y q) rfl (fun _ _ => id)
      (fun _ _ _ => .of_second rfl) (hsame _ nofun)
  | endCycle =>
    exact h.of_settles h.rob (refl _) rfl (fun _ _ => id) (fun _ _ _ => .of_second rfl)
      (hsame _ nofun)

theorem Uncounted.exposeLoads (h : s.Uncounted) {answer : Nat → Bool × Bool} {m : Nat → LoadInst}
    (hm : SdoCore.exposeLoads c s.unit.ready answer s.unit.loads s.unit.base.loadQueue = some m) :
    Uncounted { s with unit := { s.unit with loads := m, passed := true } } := by
  refine h.of_settles h.rob (refl _) rfl (fun _ _ => id) (fun x hx _ => ?_) h.counter
  rcases LsqUnit.exposeLoads_cases h.sorted hm hx with ⟨flow, hv⟩ | ⟨hk, -⟩
  · exact settles_exposeLoad hv
  · exact .of_second (congrArg _ hk)

/-- The pass leaves nothing to count exactly if no load that waits turns ready. -/
theorem Uncounted.updateVisibleState (h : s.Uncounted) {d : Nat → DynInst}
    (hd : updateLoads c.toConfig s.unit.base.rob.insts s.unit.base.loadQueue = some d) :
    let t : VldUnit := { s with unit := { s.unit with
      base := { s.unit.base with rob := { s.unit.base.rob with insts := d } } } }
    (s.noneTurnsReady c .updateVisibleState = true → t.Uncounted) ∧
      (t.unit.toValidate = 0 → s.noneTurnsReady c .updateVisibleState = true) := by
  intro t
  have hready (x : Nat) (hx : x ∈ s.unit.base.loadQueue) :
      (lsqVisible c.toConfig (s.unit.inst x)).any (·.status.readyToExpose) = t.unit.ready x := by
    rw [show lsqVisible c.toConfig (s.unit.inst x) = some (d x) from updateLoads_mem h.sorted hd hx]
    rfl
  have hnone : s.noneTurnsReady c .updateVisibleState = true ↔
      ∀ x ∈ s.unit.base.loadQueue, t.unit.counts x = false := by
    simp only [noneTurnsReady, all_eq_true, Bool.not_eq_true']
    refine forall_congr' fun x => forall_congr' fun hx => ?_
    rw [hready x hx]
    rfl
  refine ⟨fun hC => ⟨?_, h.last, h.sorted, hnone.mp hC, h.counter⟩, fun hz => hnone.mpr ?_⟩
  · refine h.rob.sameShape ⟨rfl, rfl, rfl, fun x => ?_⟩
    refine updateLoads_induct (P := fun i => i.shape = (s.unit.base.rob.insts x).shape)
      (fun i j hij hj => ?_) rfl hd
    exact (congrArg DynInst.shape (lsqVisible_exposes hj).rest :).trans hij
  · intro x hx
    exact Bool.eq_false_iff.mpr (countP_eq_zero.mp hz x hx)

theorem Uncounted.start (h : (vldMachine c).start s) : s.Uncounted := by
  obtain ⟨⟨b, ⟨hrob, hq⟩, hu⟩, hn⟩ : (∃ b, (robLsqMachine c.toConfig).start b ∧
    s.unit = { base := b }) ∧ s.loadsToVLD = 0 := h
  refine ⟨?_, ?_, ?_, ?_, hn⟩
  · rw [hu]
    exact Rob.inv_start hrob
  all_goals simp [hu, hq]

/-- A step that meets the condition leaves nothing to count; one that does not leaves a load. -/
theorem Uncounted.step (h : s.Uncounted) {e : VldEvent} (hs : s.step c e = some s') :
    (s.noneTurnsReady c e → s'.Uncounted) ∧
      (s'.loadsToVLD = s'.unit.toValidate → s.noneTurnsReady c e) := by
  cases e with
  | unit e =>
    refine ⟨fun _ => ?_, fun _ => rfl⟩
    have he : ∀ a, e ≠ .iewTick a := by
      rintro a rfl
      cases hs
    obtain ⟨u, hu, rfl⟩ : ∃ u, s.unit.step c e = some u ∧
        ⟨u, s.loadsToVLD - s.squashed e⟩ = s' := by
      cases e with
      | iewTick a => exact absurd rfl (he a)
      | _ => exact map_eq_some_iff.mp hs
    exact h.unitEvent he hu
  | updateVisibleState =>
    simp only [VldUnit.step] at hs
    split at hs
    · cases hs
    obtain ⟨b, hb, rfl⟩ := map_eq_some_iff.mp hs
    obtain ⟨d, hd, rfl⟩ := map_eq_some_iff.mp hb
    obtain ⟨hin, hout⟩ := h.updateVisibleState hd
    refine ⟨hin, fun hc => hout ?_⟩
    have hzero : (0 : Int) = _ := h.counter.symm.trans hc
    exact_mod_cast hzero.symm
  | exposeLoads answer =>
    refine ⟨fun _ => ?_, fun _ => rfl⟩
    simp only [VldUnit.step] at hs
    split at hs
    · cases hs
    · obtain ⟨m, hm, rfl⟩ := map_eq_some_iff.mp hs
      exact h.exposeLoads hm

end VldUnit

/-- As long as no load turns ready before its second access is sent, the counter is the number of
such loads, and it is zero; the first step after which a load is to be counted is a step after which
the counter is wrong. -/
theorem loadsToVLD_exact {c : LsqConfig} {s : VldUnit}
    (h : (vldMachine c).ReachWhen (fun s e => s.noneTurnsReady c e = true) s) :
    (s.loadsToVLD = s.unit.toValidate ∧ 0 ≤ s.loadsToVLD ∧
      (s.unit.base.loadQueue = [] → s.drainSanityCheck = true)) ∧
      ∀ e s', (vldMachine c).step s e = some s' →
        (s'.loadsToVLD = s'.unit.toValidate ↔ s.noneTurnsReady c e = true) := by
  have hu : s.Uncounted := h.invariant (I := VldUnit.Uncounted) (fun s hs => .start hs)
    (fun s e s' hi hC hs => (hi.step hs).1 hC)
  refine ⟨⟨by rw [hu.toValidate, hu.counter]; rfl, hu.counter.ge, fun hq => ?_⟩, fun e s' hs => ?_⟩
  · simp [VldUnit.drainSanityCheck, hq, hu.counter]
  obtain ⟨hin, hout⟩ := hu.step hs
  refine ⟨hout, fun hC => ?_⟩
  have hu' := hin hC
  rw [hu'.toValidate, hu'.counter]
  rfl

/-! ### A load that is squashed before the cache takes its validation -/

def emptyVld : VldUnit := { unit := emptyUnit }

theorem emptyVld_start (c : LsqConfig) : (vldMachine c).start emptyVld := ⟨emptyUnit_start c, rfl⟩

/-- A run of the unit, with the ticks taken apart. -/
def VldEvent.ofUnit : UnitEvent → List VldEvent
  | .iewTick answer => [.updateVisibleState, .exposeLoads answer]
  | e => [.unit e]

def afterVld (es : List VldEvent) : VldUnit :=
  ((vldMachine (sdoConfig .greedy)).run emptyVld es).getD emptyVld

/-- The dependent load is read obliviously. -/
def obliviousLoad : List UnitEvent :=
  twoLoads false ++ firstLoadReads ++
    [.iewTick taken, .executeLoad 3 { lineLow := 2 } {}, .endCycle]

def oblivious : List VldEvent := obliviousLoad.flatMap VldEvent.ofUnit

theorem loadsToVLD_exact_oblivious :
    (afterVld oblivious).unit.base.loadQueue = [2, 3] ∧
      ((afterVld oblivious).unit.loads 3).awaitsSecond = true ∧
      (afterVld oblivious).loadsToVLD = (afterVld oblivious).unit.toValidate := by
  have hrun : (vldMachine (sdoConfig .greedy)).run emptyVld oblivious = some (afterVld oblivious) :=
    Machine.run_getD (by decide +kernel)
  exact ⟨by decide +kernel, by decide +kernel, (loadsToVLD_exact (c := sdoConfig .greedy)
    (.run (.start (emptyVld_start _)) oblivious (by decide +kernel) hrun)).1.1⟩

/-- The branch before the loads is resolved and the load turns ready, but the cache refuses its
validation; then all loads are squashed. -/
def squashedReady : List VldEvent :=
  oblivious ++ [.unit (.rob (.setStatus 1 { canCommit := true })), .unit (.rob .cycle),
    .updateVisibleState, .exposeLoads fun _ => (false, false), .unit .endCycle, .unit (.squash 1)]

/-- The queue is empty and the counter is negative, so that `drainSanityCheck` fails. -/
theorem loadsToVLD_negative :
    ¬∀ (c : LsqConfig) (s : VldUnit), (vldMachine c).Reach s →
      s.loadsToVLD = s.unit.toValidate ∧ 0 ≤ s.loadsToVLD ∧
        (s.unit.base.loadQueue = [] → s.drainSanityCheck = true) := by
  intro h
  have hrun : (vldMachine (sdoConfig .greedy)).run emptyVld squashedReady =
      some (afterVld squashedReady) := Machine.run_getD (by decide +kernel)
  have hbad := (h _ _ (Machine.reach_run (emptyVld_start _) hrun)).2.2 (by decide +kernel)
  have hfail : (afterVld squashedReady).drainSanityCheck = false := by decide +kernel
  rw [hfail] at hbad
  cases hbad

end SdoCore
