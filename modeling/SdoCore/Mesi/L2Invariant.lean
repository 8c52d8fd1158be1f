import SdoCore.Mesi.L2Cache
import SdoCore.Mesi.L1Invariant

/-! What the L2 controller keeps in every transition: TBE and cache entry agree on the
state of a line, a TBE is there in its own states only, and requests are well formed
when they come in and when they go out. As for the L1, `act_local` says once what
an action can do. -/

namespace SdoCore.Mesi

open List
open Option (bind_eq_some_iff map_eq_some_iff)
open Lib.Controller (run transition_cases)

namespace L2Cache

variable {p : CacheParams}

namespace Ctx

theorem lookup_modifyEntry (x : Ctx p) (f : Entry → Entry) (b : Nat) :
    (x.modifyEntry f).ctrl.cache.lookup b =
      if x.entry ∧ b = x.addr then (x.ctrl.cache.lookup b).map f
      else x.ctrl.cache.lookup b := by
  unfold modifyEntry
  by_cases he : x.entry = true
  · by_cases hb : b = x.addr
    · subst hb; simp [he, CacheMemory.lookup_modify]
    · simp [he, hb, CacheMemory.lookup_modify]
  · simp [he]

theorem modifyEntry_eq (x : Ctx p) (f : Entry → Entry) :
    ∃ m, x.modifyEntry f = { x with ctrl := { x.ctrl with cache := m } } := by
  unfold modifyEntry
  split <;> exact ⟨_, rfl⟩

theorem tbes_modifyTBE (x : Ctx p) (f : TBE → TBE) (b : Nat) :
    (x.modifyTBE f).ctrl.tbes b =
      if x.tbe ∧ b = x.addr then (x.ctrl.tbes b).map f else x.ctrl.tbes b := by
  unfold modifyTBE
  by_cases ht : x.tbe = true
  · by_cases hb : b = x.addr
    · subst hb; simp [ht]
    · simp [ht, hb]
  · simp [ht]

theorem modifyTBE_eq (x : Ctx p) (f : TBE → TBE) :
    ∃ ts, x.modifyTBE f = { x with ctrl := { x.ctrl with tbes := ts } } := by
  unfold modifyTBE
  split <;> exact ⟨_, rfl⟩

end Ctx

/-! ## What an action can do -/

structure Synced (x : Ctx p) : Prop where
  tbe : x.tbe = (x.ctrl.tbes x.addr).isSome
  entry : x.entry = (x.ctrl.cache.lookup x.addr).isSome

structure Good (x : Ctx p) : Prop where
  requests : x.ctrl.requestIn.All (·.Ok .l2Cache)
  out : ∀ o ∈ x.out, o.Ok

structure Local (x y : Ctx p) (t : Bool) : Prop where
  addr : y.addr = x.addr
  tbes_ne : ∀ b, b ≠ x.addr → y.ctrl.tbes b = x.ctrl.tbes b
  lookup_ne : ∀ b, b ≠ x.addr → y.ctrl.cache.lookup b = x.ctrl.cache.lookup b
  tbe : y.tbe = t
  synced : Synced x → Synced y
  good : Good x → Good y

/-- Such a step that leaves the buffers alone, and an entry where it was. -/
structure Still (x y : Ctx p) (t : Bool) : Prop extends Local x y t where
  port : y.port = x.port
  entry : y.entry = x.entry
  buffers : { y.ctrl with cache := x.ctrl.cache, tbes := x.ctrl.tbes } = x.ctrl

variable {x y : Ctx p} {c : Ctrl p}

namespace Local

theorem trans {z : Ctx p} {t u : Bool} (h : Local x y t) (h' : Local y z u) : Local x z u where
  addr := h'.addr.trans h.addr
  tbes_ne := fun b hb => (h'.tbes_ne b (h.addr ▸ hb)).trans (h.tbes_ne b hb)
  lookup_ne := fun b hb => (h'.lookup_ne b (h.addr ▸ hb)).trans (h.lookup_ne b hb)
  tbe := h'.tbe
  synced := fun hs => h'.synced (h.synced hs)
  good := fun hg => h'.good (h.good hg)

theorem quiet (haddr : y.addr = x.addr) (hentry : y.entry = x.entry) (htbe : y.tbe = x.tbe)
    (htbes : y.ctrl.tbes = x.ctrl.tbes)
    (hlook : ∀ b, y.ctrl.cache.lookup b = x.ctrl.cache.lookup b) (hgood : Good x → Good y) :
    Local x y x.tbe where
  addr := haddr
  tbes_ne := fun b _ => by rw [htbes]
  lookup_ne := fun b _ => hlook b
  tbe := htbe
  synced := fun hs => by
    refine ⟨by rw [htbe, htbes, haddr, hs.tbe], ?_⟩
    rw [hentry, hlook, haddr, hs.entry]
  good := hgood

end Local

namespace Still

theorem refl (x : Ctx p) : Still x x x.tbe :=
  ⟨⟨rfl, fun _ _ => rfl, fun _ _ => rfl, rfl, id, id⟩, rfl, rfl, rfl⟩

theorem trans {z : Ctx p} {t u : Bool} (h : Still x y t) (h' : Still y z u) : Still x z u where
  toLocal := h.toLocal.trans h'.toLocal
  port := h'.port.trans h.port
  entry := h'.entry.trans h.entry
  buffers := by rw [← h.buffers, ← h'.buffers]

theorem send {o : OutMsg} (ho : Good x → o.Ok) : Still x (x.send o) x.tbe := by
  refine ⟨.quiet rfl rfl rfl rfl (fun _ => rfl) fun hg => ⟨hg.requests, fun o' ho' => ?_⟩,
    rfl, rfl, rfl⟩
  rcases mem_append.mp ho' with ho' | ho'
  · exact hg.out o' ho'
  · rw [mem_singleton.mp ho']
    exact ho hg

theorem response (x : Ctx p) (dst : NetDest) (m : ResponseMsg) :
    Still x (x.send (.response dst m)) x.tbe :=
  send fun _ => trivial

theorem modifyEntry (x : Ctx p) (f : Entry → Entry) : Still x (x.modifyEntry f) x.tbe := by
  have hlook := x.lookup_modifyEntry f
  obtain ⟨m, heq⟩ := x.modifyEntry_eq f
  rw [heq] at hlook ⊢
  refine ⟨⟨rfl, fun _ _ => rfl, fun b hb => ?_, rfl, fun hs => ⟨hs.tbe, ?_⟩,
    fun hg => ⟨hg.requests, hg.out⟩⟩, rfl, rfl, rfl⟩
  · rw [hlook, if_neg fun h => hb h.2]
  · rw [hlook, hs.entry]
    split <;> simp

theorem modifyTBE (x : Ctx p) (f : TBE → TBE) : Still x (x.modifyTBE f) x.tbe := by
  have htbes := x.tbes_modifyTBE f
  obtain ⟨ts, heq⟩ := x.modifyTBE_eq f
  rw [heq] at htbes ⊢
  refine ⟨⟨rfl, fun b hb => ?_, fun _ _ => rfl, rfl, fun hs => ⟨?_, hs.entry⟩,
    fun hg => ⟨hg.requests, hg.out⟩⟩, rfl, rfl, rfl⟩
  · rw [htbes, if_neg fun h => hb h.2]
  · rw [htbes, hs.tbe]
    split <;> simp

theorem allocateTBE {u : TBE} (h : x.allocateTBE u = some y) : Still x y true := by
  unfold Ctx.allocateTBE at h
  split at h
  · cases h
  · cases h
    exact ⟨⟨rfl, fun b hb => Function.update_of_ne hb _ _, fun _ _ => rfl, rfl,
      fun hs => ⟨by simp, hs.entry⟩, fun hg => ⟨hg.requests, hg.out⟩⟩, rfl, rfl, rfl⟩

/-- A request passed on to the directory names the L2. -/
theorem toDirectory {m : RequestMsg} (hm : x.requestIn? = some m) :
    Still x (x.toDirectory m) x.tbe := by
  refine send fun hg d hd => ?_
  have hok : m.Ok .l2Cache := hg.requests.head hm
  refine ⟨hok.read, hok.write, fun hl => ?_⟩
  rw [mem_singleton.mp hd] at hl
  cases hl

theorem issueGETSPEC {t : CoherenceRequestType} (h : x.issueGETSPEC t = some y) :
    Still x y x.tbe := by
  obtain ⟨m, hm, h⟩ := bind_eq_some_iff.mp h
  split at h
  · cases h
    exact toDirectory hm
  · cases h

theorem answer {f : Entry → RequestMsg → ResponseMsg} (h : x.answer f = some y) :
    Still x y x.tbe := by
  obtain ⟨m, -, h⟩ := bind_eq_some_iff.mp h
  obtain ⟨e, -, rfl⟩ := map_eq_some_iff.mp h
  exact response _ _ _

theorem sendWithHits (x : Ctx p) (dst : NetDest) (t : CoherenceResponseType) (e : Entry) :
    Still x (x.sendWithHits dst t e) x.tbe :=
  (response x dst _).trans (modifyEntry _ _)

theorem sendResponseData {ids : TBE → NetDest} (h : x.sendResponseData ids = some y) :
    Still x y x.tbe := by
  obtain ⟨t, -, h⟩ := bind_eq_some_iff.mp h
  split at h
  · obtain ⟨m, -, rfl⟩ := map_eq_some_iff.mp h
    exact response _ _ _
  · cases h

theorem forwardToExclusive (h : x.forwardToExclusive = some y) : Still x y x.tbe := by
  obtain ⟨m, -, h⟩ := bind_eq_some_iff.mp h
  obtain ⟨e, -, rfl⟩ := map_eq_some_iff.mp h
  exact send fun _ => trivial

end Still

namespace Local

/-- Controllers that differ in their buffers only. -/
structure SameLines (c d : Ctrl p) : Prop where
  cache : d.cache = c.cache
  tbes : d.tbes = c.tbes
  requests : c.requestIn.All (·.Ok .l2Cache) → d.requestIn.All (·.Ok .l2Cache)

theorem requeue (h : SameLines x.ctrl c) :
    Local x { x with ctrl := c } x.tbe :=
  quiet rfl rfl rfl h.tbes (fun b => congrArg (fun m => CacheMemory.lookup m b) h.cache)
    fun hg => ⟨h.requests hg.requests, hg.out⟩

theorem SameLines.reanalyze {d : Ctrl p} {a : Nat} {q : Port} (h : Ctx.reanalyze c a q = some d) :
    SameLines c d := by
  cases q with
  | l1Request =>
    obtain ⟨b, hb, rfl⟩ := map_eq_some_iff.mp h
    exact ⟨rfl, rfl, fun hr => hr.reanalyzeMessages hb⟩
  | response | l1Unblock =>
    obtain ⟨b, -, rfl⟩ := map_eq_some_iff.mp h
    exact ⟨rfl, rfl, id⟩

theorem SameLines.wakeUp {d : Ctrl p} {a : Nat} {qs : List Port} (h : Ctx.wakeUp c a qs = some d) :
    SameLines c d := by
  induction qs generalizing c with
  | nil =>
    cases h
    exact ⟨rfl, rfl, id⟩
  | cons q qs ih =>
    unfold Ctx.wakeUp at h
    split at h
    · obtain ⟨c', hc', h⟩ := bind_eq_some_iff.mp h
      have h1 := SameLines.reanalyze hc'
      have h2 := ih h
      exact ⟨h2.cache.trans h1.cache, h2.tbes.trans h1.tbes, fun hr => h2.requests (h1.requests hr)⟩
    · exact ih h

theorem wakeUpBuffers (h : x.wakeUpBuffers = some y) : Local x y x.tbe := by
  obtain ⟨c, hc, rfl⟩ := map_eq_some_iff.mp h
  have hs := SameLines.wakeUp hc
  exact requeue { hs with }

theorem stallRequest (h : x.stallRequest = some y) : Local x y x.tbe := by
  obtain ⟨q, hq, rfl⟩ := map_eq_some_iff.mp h
  exact requeue ⟨rfl, rfl, fun hr => hr.stallMessage hq⟩

end Local

/-- Whether a TBE is at hand after an action. -/
def tbeStep (t : Bool) : Action → Bool
  | .i_allocateTBE | .iw_allocateTBEWithoutCacheEntry => true
  | .s_deallocateTBE => false
  | _ => t

variable {x y : Ctx p} {s : State} {t : Bool} {c : Ctrl p} {m : RequestMsg}

/-- The actions that touch a buffer, bring in an entry or drop it. -/
def Action.moves : Action → Bool
  | .jj_popL1RequestQueue | .k_popUnblockQueue | .o_popIncomingResponseQueue
  | .zn_recycleResponseNetwork | .zz_stallAndWaitL1RequestQueue | .kd_wakeUpDependents
  | .qq_allocateL2CacheBlock | .rr_deallocateL2CacheBlock => true
  | _ => false

theorem act_still {a : Action} (h : act x a = some y) (hm : a.moves = false) :
    Still x y (tbeStep x.tbe a) := by
  cases a with
  | a_issueFetchToMemory =>
    obtain ⟨m, hm, rfl⟩ := map_eq_some_iff.mp h
    exact Still.toDirectory hm
  | ij_issueGETSPEC_Mem_pass_L2 | ij_issueGETSPEC_Perfect_pass_L2
  | ij_issueGETSPEC_PerfectUnsafe_pass_L2 => exact Still.issueGETSPEC h
  | b_forwardRequestToExclusive | bs_forwardSpecRequestToExclusive
  | bex_forwardExposeRequestToExclusive => exact Still.forwardToExclusive h
  | c_exclusiveReplacement | ct_exclusiveReplacementFromTBE | mj_spec_load_miss_l2
  | mj_sendDataToGetSpecRequestor | t_sendWBAck =>
    obtain ⟨e, -, rfl⟩ := map_eq_some_iff.mp h
    exact Still.response _ _ _
  | c_exclusiveCleanReplacement =>
    cases h
    exact Still.response _ _ _
  | d_sendDataToRequestor | d_sendDataToRequestor_Hit | dd_sendExclusiveDataToRequestor_Hit
  | ddex_sendExclusiveDataToExposeRequestor | ds_sendSharedDataToRequestor
  | dss_sendSharedDataToSpecRequestor | dsex_sendSharedDataToExposeRequestor
  | ds_sendSharedDataToRequestor_Hit | hj_spec_load_hit_l2 | ts_sendInvAckToUpgrader =>
    exact Still.answer h
  | e_sendDataToGetSRequestors | ex_sendExclusiveDataToGetSRequestors =>
    obtain ⟨t, -, h⟩ := bind_eq_some_iff.mp h
    split at h
    · obtain ⟨e, -, rfl⟩ := map_eq_some_iff.mp h
      exact Still.sendWithHits _ _ _ _
    · cases h
  | es_sendDataToGetSpecRequestors | eex_sendDataToExposeRequestors =>
    exact Still.sendResponseData h
  | exex_sendExclusiveDataToExposeRequestors =>
    obtain ⟨t, -, h⟩ := bind_eq_some_iff.mp h
    split at h
    · obtain ⟨e, -, rfl⟩ := map_eq_some_iff.mp h
      exact Still.response _ _ _
    · cases h
  | ee_sendDataToGetXRequestor =>
    obtain ⟨t, -, h⟩ := bind_eq_some_iff.mp h
    obtain ⟨e, -, rfl⟩ := map_eq_some_iff.mp h
    exact Still.sendWithHits _ _ _ _
  | f_sendInvToSharers =>
    obtain ⟨e, -, rfl⟩ := map_eq_some_iff.mp h
    exact Still.send fun _ => trivial
  | fwm_sendFwdInvToSharersMinusRequestor =>
    obtain ⟨m, -, h⟩ := bind_eq_some_iff.mp h
    obtain ⟨e, -, rfl⟩ := map_eq_some_iff.mp h
    exact Still.send fun _ => trivial
  | i_allocateTBE =>
    obtain ⟨e, -, h⟩ := bind_eq_some_iff.mp h
    exact Still.allocateTBE h
  | iw_allocateTBEWithoutCacheEntry =>
    simp only [act] at h
    split at h
    · cases h
    · exact Still.allocateTBE h
  | s_deallocateTBE =>
    cases h
    exact ⟨⟨rfl, fun b hb => Function.update_of_ne hb _ _, fun _ _ => rfl, rfl,
      fun hs => ⟨by simp, hs.entry⟩, fun hg => ⟨hg.requests, hg.out⟩⟩, rfl, rfl, rfl⟩
  | m_writeDataToCache | nn_addSharer | nnu_addSharerFromUnblock | ll_clearSharers
  | mmu_markExclusiveFromUnblock =>
    obtain ⟨m, -, h⟩ := bind_eq_some_iff.mp h
    obtain ⟨e, -, rfl⟩ := map_eq_some_iff.mp h
    exact Still.modifyEntry _ _
  | mr_writeDataToCacheFromRequest =>
    obtain ⟨m, -, h⟩ := bind_eq_some_iff.mp h
    obtain ⟨e, -, rfl⟩ := map_eq_some_iff.mp h
    cases hd : m.dirty
    · simpa [hd, tbeStep] using Still.refl x
    · simpa [hd, tbeStep] using
        Still.modifyEntry x fun e => { e with dataBlk := m.dataBlk, dirty := true }
  | q_updateAck | qq_writeDataToTBE | ss_recordGetSL1ID | sss_recordGetSPECL1ID
  | ssss_recordExposeL1ID | xx_recordGetXL1ID =>
    obtain ⟨m, -, h⟩ := bind_eq_some_iff.mp h
    obtain ⟨t, -, rfl⟩ := map_eq_some_iff.mp h
    exact Still.modifyTBE _ _
  | set_setMRU =>
    cases h
    exact ⟨.quiet rfl rfl rfl rfl (fun b => CacheMemory.lookup_setMRU _ _ b)
      fun hg => ⟨hg.requests, hg.out⟩, rfl, rfl, rfl⟩
  | _ => cases hm

theorem act_local (a : Action) (h : act x a = some y) : Local x y (tbeStep x.tbe a) := by
  cases hmv : a.moves with
  | false => exact (act_still h hmv).toLocal
  | true => ?_
  cases a with
  | jj_popL1RequestQueue =>
    obtain ⟨q, hq, rfl⟩ := map_eq_some_iff.mp h
    exact .requeue ⟨rfl, rfl, fun hr => hr.dequeue hq⟩
  | k_popUnblockQueue | o_popIncomingResponseQueue | zn_recycleResponseNetwork =>
    obtain ⟨q, -, rfl⟩ := map_eq_some_iff.mp h
    exact .requeue ⟨rfl, rfl, id⟩
  | qq_allocateL2CacheBlock =>
    simp only [act] at h
    split at h
    · cases h
      exact (Still.refl _).toLocal
    obtain ⟨m, hm, rfl⟩ := map_eq_some_iff.mp h
    have hlook := CacheMemory.lookup_allocate hm
    exact ⟨rfl, fun _ _ => rfl, fun b hb => by rw [hlook, if_neg hb], rfl,
      fun hs => ⟨hs.tbe, by simp [hlook]⟩, fun hg => ⟨hg.requests, hg.out⟩⟩
  | rr_deallocateL2CacheBlock =>
    obtain ⟨m, hm, rfl⟩ := map_eq_some_iff.mp h
    have hlook := CacheMemory.lookup_deallocate hm
    exact ⟨rfl, fun _ _ => rfl, fun b hb => by rw [hlook, if_neg hb], rfl,
      fun hs => ⟨hs.tbe, by simp [hlook]⟩, fun hg => ⟨hg.requests, hg.out⟩⟩
  | zz_stallAndWaitL1RequestQueue => exact .stallRequest h
  | kd_wakeUpDependents => exact .wakeUpBuffers h
  | _ => cases hmv

theorem run_local {as : List Action} (h : controller.run x as = some y) :
    Local x y (as.foldl tbeStep x.tbe) := by
  induction as generalizing x with
  | nil =>
    cases h
    exact (Still.refl _).toLocal
  | cons a as ih =>
    obtain ⟨z, hz, h⟩ := bind_eq_some_iff.mp h
    have h1 := act_local a hz
    have h2 := ih h
    rw [h1.tbe] at h2
    exact h1.trans h2

/-! ## The table -/

/-- The states that are kept in the cache entry alone. -/
def State.noTBE : State → Bool
  | .NP | .SS | .M | .MT | .SS_MB | .MT_MB | .MT_IIB | .MT_IB | .MT_SB => true
  | _ => false

def rowFreesTBE (r : Lib.Row State Event Action) : Bool :=
  r.states.all fun s => !(r.next.getD s).noTBE ||
    (!r.actions.foldl tbeStep false && (s.noTBE || !r.actions.foldl tbeStep true))

theorem tbe_freed {r : Lib.Row State Event Action} (hr : r ∈ transitions) (hs : s ∈ r.states)
    (ht : s.noTBE → t = false)
    (hn : (r.next.getD s).noTBE) : r.actions.foldl tbeStep t = false := by
  have hrows : ∀ r ∈ transitions, rowFreesTBE r = true := by decide
  have h := all_eq_true.mp (hrows r hr) s hs
  rw [hn] at h
  simp only [Bool.not_true, Bool.false_or, Bool.and_eq_true, Bool.or_eq_true,
    Bool.not_eq_true'] at h
  cases t with
  | false => exact h.1
  | true =>
    rcases h.2 with h2 | h2
    · exact absurd (ht h2) (by decide)
    · exact h2

/-! ## The invariant -/

structure Inv (c : Ctrl p) : Prop where
  agree : ∀ a t e, c.tbes a = some t → c.cache.lookup a = some e → e.cacheState = t.tbeState
  busy : ∀ a t, c.tbes a = some t → t.tbeState.noTBE = false
  requests : c.requestIn.All (·.Ok .l2Cache)

theorem putState_tbes (hx : x.tbe = (x.ctrl.tbes x.addr).isSome) (s : State) (b : Nat) :
    (putState x s).ctrl.tbes b =
      if b = x.addr then (x.ctrl.tbes b).map fun t => { t with tbeState := s }
      else x.ctrl.tbes b := by
  obtain ⟨m, heq⟩ := Ctx.modifyEntry_eq _ fun e => { e with cacheState := s }
  rw [putState, heq, Ctx.tbes_modifyTBE]
  by_cases hb : b = x.addr
  · subst hb
    cases ht : x.ctrl.tbes x.addr with
    | none => simp
    | some t => simp [hx, ht]
  · simp [hb]

theorem putState_lookup (hx : x.entry = (x.ctrl.cache.lookup x.addr).isSome) (s : State) (b : Nat) :
    (putState x s).ctrl.cache.lookup b =
      if b = x.addr then (x.ctrl.cache.lookup b).map fun e => { e with cacheState := s }
      else x.ctrl.cache.lookup b := by
  obtain ⟨ts, heq⟩ := x.modifyTBE_eq fun t => { t with tbeState := s }
  rw [putState, Ctx.lookup_modifyEntry, heq]
  by_cases hb : b = x.addr
  · subst hb
    cases he : x.ctrl.cache.lookup x.addr with
    | none => simp
    | some e => simp [hx, he]
  · simp [hb]

theorem putState_still (x : Ctx p) (s : State) : Still x (putState x s) x.tbe := by
  have h := Still.modifyTBE x fun t => { t with tbeState := s }
  have h' := h.trans (.modifyEntry _ fun e => { e with cacheState := s })
  rwa [h.tbe] at h'

theorem putState_good (hg : Good x) : Good (putState x s) :=
  (putState_still x s).good hg

theorem tbe_of_noTBE (hc : Inv x.ctrl) (ht : x.tbe = (x.ctrl.tbes x.addr).isSome)
    (h : (stateOf x).noTBE) : x.tbe = false := by
  cases hx : x.tbe with
  | false => rfl
  | true =>
    rw [hx] at ht
    obtain ⟨t, hxt⟩ := Option.isSome_iff_exists.mp ht.symm
    have hst : stateOf x = t.tbeState := by simp [stateOf, Ctx.theTBE, hx, hxt]
    rw [hst, hc.busy _ _ hxt] at h
    cases h

theorem putState_tbe_cases (hl : Local x y t) (hy : Synced y) (a : Nat) (u : TBE)
    (hu : (L2Cache.putState y s).ctrl.tbes a = some u) :
    (a = x.addr ∧ u.tbeState = s ∧ t) ∨ (a ≠ x.addr ∧ x.ctrl.tbes a = some u) := by
  rw [putState_tbes hy.tbe, hl.addr] at hu
  split at hu
  · next ha =>
    obtain ⟨v, hv, rfl⟩ := map_eq_some_iff.mp hu
    refine Or.inl ⟨ha, rfl, ?_⟩
    rw [← hl.tbe, hy.tbe, hl.addr, ← ha, hv, Option.isSome_some]
  · next ha => exact Or.inr ⟨ha, hl.tbes_ne a ha ▸ hu⟩

theorem Inv.putState (hc : Inv x.ctrl) (hl : Local x y t) (hy : Synced y) (hg : Good y)
    (hbusy : s.noTBE → t = false) :
    Inv (putState y s).ctrl := by
  have htbe := putState_tbe_cases (s := s) hl hy
  refine ⟨fun a u e hu he => ?_, fun a u hu => ?_, (putState_good hg).requests⟩
  · rw [putState_lookup hy.entry, hl.addr] at he
    rcases htbe a u hu with ⟨ha, hus, -⟩ | ⟨ha, hu⟩
    · rw [if_pos ha] at he
      obtain ⟨f, -, rfl⟩ := map_eq_some_iff.mp he
      exact hus.symm
    · rw [if_neg ha, hl.lookup_ne a ha] at he
      exact hc.agree a u e hu he
  · rcases htbe a u hu with ⟨-, hus, ht⟩ | ⟨-, hu⟩
    · rw [hus]
      cases hh : s.noTBE with
      | false => rfl
      | true => rw [ht] at hbusy; exact absurd (hbusy hh) (by decide)
    · exact hc.busy a u hu

theorem context_synced (c : Ctrl p) (port : Port) (a : Nat) : Synced (c.context port a) :=
  ⟨rfl, rfl⟩

/-- Serving a message keeps the invariant and sends well-formed messages. -/
theorem Inv.wakeup {d : Ctrl p} {port : Port} {out : List OutMsg} (hc : Inv c)
    (h : c.wakeup port = some (d, out)) : Inv d ∧ ∀ o ∈ out, o.Ok := by
  obtain ⟨t, -, h⟩ := bind_eq_some_iff.mp h
  obtain ⟨z, hz, heq⟩ := map_eq_some_iff.mp h
  cases heq
  obtain ⟨s, r, y, hst, hr, hsr, -, hrun, hset⟩ := transition_cases hz
  cases hst
  cases hset
  have hl := run_local hrun
  have hx := context_synced c port t.addr
  have hg : Good y := hl.good ⟨hc.requests, fun o ho => nomatch ho⟩
  refine ⟨Inv.putState (x := c.context port t.addr) hc hl (hl.synced hx) hg fun hn => ?_,
    (putState_good hg).out⟩
  exact tbe_freed hr hsr (fun hno => tbe_of_noTBE (x := c.context port t.addr) hc hx.tbe hno) hn

/-! ## Oblivious loads -/

theorem putState_stateOf
    (h : ∀ t e, x.theTBE = some t → x.cacheEntry = some e → e.cacheState = t.tbeState) :
    L2Cache.putState x (stateOf x) = x := by
  have htbe : (x.modifyTBE fun t => { t with tbeState := stateOf x }) = x := by
    unfold Ctx.modifyTBE
    split
    · next ht =>
      cases hxt : x.ctrl.tbes x.addr with
      | none => rw [Option.map_none, ← hxt, Function.update_eq_self]
      | some t =>
        have hst : stateOf x = t.tbeState := by simp [stateOf, Ctx.theTBE, ht, hxt]
        rw [hst, Option.map_some, ← hxt, Function.update_eq_self]
    · rfl
  rw [L2Cache.putState, htbe]
  unfold Ctx.modifyEntry
  split
  · next hk =>
    have hsame : x.ctrl.cache.modify x.addr (fun e => { e with cacheState := stateOf x }) =
        x.ctrl.cache := by
      apply CacheMemory.modify_eq_self
      intro e he
      have hce : x.cacheEntry = some e := by simp [Ctx.cacheEntry, hk, he]
      have hes : e.cacheState = stateOf x := by
        cases ht : x.theTBE with
        | none => simp [stateOf, ht, hce]
        | some t => rw [h t e ht hce]; simp [stateOf, ht]
      rw [← hes]
    rw [hsame]
  · rfl

theorem Inv.agree_view (hc : Inv x.ctrl) (t : TBE) (e : Entry) (ht : x.theTBE = some t)
    (he : x.cacheEntry = some e) : e.cacheState = t.tbeState := by
  unfold Ctx.theTBE at ht
  unfold Ctx.cacheEntry at he
  split at ht
  · split at he
    · exact hc.agree x.addr t e ht he
    · cases he
  · cases ht

def State.isHit : State → Bool
  | .SS | .M => true
  | _ => false

theorem Inv.entry_of_isHit (hc : Inv x.ctrl) (ht : x.tbe = (x.ctrl.tbes x.addr).isSome)
    (h : (stateOf x).isHit) :
    ∃ e, x.cacheEntry = some e := by
  have hst : (stateOf x).noTBE = true := by
    revert h
    cases stateOf x <;> decide
  have hno : x.theTBE = none := by simp [Ctx.theTBE, tbe_of_noTBE hc ht hst]
  cases he : x.cacheEntry with
  | none => simp [stateOf, hno, he, State.isHit] at h
  | some e => exact ⟨e, rfl⟩

def specFirst (hit : Bool) : Action :=
  if hit then .hj_spec_load_hit_l2 else .mj_spec_load_miss_l2

/-- The actions of the rows for the two request types. -/
def specActions (hit : Bool) : CoherenceRequestType → List Action
  | .getspecMem => [specFirst hit, .ij_issueGETSPEC_Mem_pass_L2, .jj_popL1RequestQueue]
  | _ => [specFirst hit, .jj_popL1RequestQueue]

theorem spec_row (st : State) {t : CoherenceRequestType} (ht : t = .getspecL2 ∨ t = .getspecMem)
    (i : MachineID) (en : Option Entry) :
    ∃ e r, l1CacheRequestTypeToEvent t i en = some e ∧ Lib.rowFor transitions st e = some r ∧
      r.next = none ∧ r.actions = specActions st.isHit t := by
  rcases ht with rfl | rfl <;> cases st <;> exact ⟨_, _, rfl, rfl, rfl, rfl⟩

theorem run_specActions {q : List RequestMsg} {hit : Bool} (hq : x.ctrl.requestIn.queue = m :: q)
    (ht : m.type = .getspecL2 ∨ m.type = .getspecMem)
    (hhit : hit → ∃ en, x.cacheEntry = some en) :
    ∃ out, controller.run x (specActions hit m.type) = some { x with
        ctrl := { x.ctrl with requestIn := { x.ctrl.requestIn with queue := q } }
        out := x.out ++ out } ∧ ∀ o ∈ out, o.isSpec := by
  have hm : x.requestIn? = some m := by simp [Ctx.requestIn?, hq]
  obtain ⟨r, hr, hfirst⟩ : ∃ r : ResponseMsg, r.type = .dataSpecFromL1 ∧
      act x (specFirst hit) = some (x.send (.response [m.requestor] r)) := by
    cases hit with
    | false => exact ⟨_, rfl, by simp [specFirst, act, hm]; rfl⟩
    | true =>
      obtain ⟨en, hen⟩ := hhit rfl
      exact ⟨_, rfl, by simp [specFirst, act, Ctx.answer, hm, hen]; rfl⟩
  let an : OutMsg := .response [m.requestor] r
  let rq : OutMsg := .request [.directory]
    { addr := x.addr, type := m.type, requestor := x.machineID, idx := m.idx,
      origin := m.requestor }
  rcases ht with ht | ht
  · refine ⟨[an], ?_, by simp [an, OutMsg.isSpec, hr]⟩
    simp [specActions, ht, run, controller, hfirst]
    simp [act, Ctx.send, hq, MessageBuffer.dequeue, an]
  · refine ⟨[an, rq], ?_, by simp [an, rq, OutMsg.isSpec, hr, ht]⟩
    simp [specActions, ht, run, controller, hfirst]
    simp [act, Ctx.issueGETSPEC, Ctx.toDirectory, Ctx.requestIn?, Ctx.machineID, Ctx.send, hq, ht,
      MessageBuffer.dequeue, an, rq]

/-- With the line or a free way in the cache an oblivious request is taken off the
queue and answered, and nothing else. -/
theorem Inv.spec_wakeup (hc : Inv c) {q : List RequestMsg} (hq : c.requestIn.queue = m :: q)
    (hm : m.type = .getspecL2 ∨ m.type = .getspecMem)
    (hroom : (c.cache.lookup m.addr).isSome ∨ c.cache.cacheAvail m.addr) :
    ∃ out, c.wakeup .l1Request =
        some ({ c with requestIn := { c.requestIn with queue := q } }, out) ∧
      ∀ o ∈ out, o.isSpec := by
  have hid : m.requestor.isL1Cache = true :=
    (hc.requests.head (by rw [hq]; rfl) : m.Ok .l2Cache).requestor rfl hm
  generalize hx : c.context .l1Request m.addr = x
  have hxc : x.ctrl = c := by rw [← hx]; rfl
  have hinv : Inv x.ctrl := hxc ▸ hc
  have hxt : x.tbe = (x.ctrl.tbes x.addr).isSome := by rw [← hx]; rfl
  have hxq : x.ctrl.requestIn.queue = m :: q := by rw [hxc, hq]
  obtain ⟨e, r, hev, hrow, hnext, hacts⟩ :=
    spec_row (stateOf x) hm m.requestor (c.cache.lookup m.addr)
  obtain ⟨out, hrun, hout⟩ := run_specActions hxq hm (hinv.entry_of_isHit hxt)
  have htr : c.trigger .l1Request = some ⟨e, m.addr⟩ := by
    have hroom' : (c.cache.isTagPresent m.addr || c.cache.cacheAvail m.addr) = true :=
      (Bool.or_eq_true _ _).mpr hroom
    simp [Ctrl.trigger, hq, Ctrl.l1RequestIn, hid, hroom', hev]
  generalize hy : ({ x with
    ctrl := { x.ctrl with requestIn := { x.ctrl.requestIn with queue := q } }
    out := x.out ++ out } : Ctx p) = y at hrun
  have hst : stateOf y = stateOf x := by rw [← hy]; rfl
  have hview : ∀ t e, y.theTBE = some t → y.cacheEntry = some e → e.cacheState = t.tbeState := by
    intro t e hyt hye
    rw [← hy] at hyt hye
    exact hinv.agree_view t e hyt hye
  have htrans : controller.transition x e = some y := by
    rw [Lib.Controller.transition_of_row (s := stateOf x) rfl hrow, hacts, hrun]
    change some (L2Cache.putState y (r.next.getD (stateOf x))) = some y
    rw [hnext, Option.getD_none, ← hst, putState_stateOf hview]
  refine ⟨out, ?_, hout⟩
  have hxo : x.out = [] := by rw [← hx]; rfl
  simp only [Ctrl.wakeup, htr, Option.bind_some, hx, htrans, Option.map_some]
  rw [← hy, hxc, hxo, nil_append]

/-! ## Replacement -/

def Action.isReplace : Action → Bool
  | .i_allocateTBE | .f_sendInvToSharers | .c_exclusiveReplacement | .c_exclusiveCleanReplacement
  | .rr_deallocateL2CacheBlock => true
  | _ => false

theorem replacement_rows : ∀ r ∈ transitions,
    (Event.L2_Replacement ∈ r.events ∨ Event.L2_Replacement_clean ∈ r.events) →
    r.actions = [.zz_stallAndWaitL1RequestQueue] ∨ ∀ a ∈ r.actions, a.isReplace := by
  decide

theorem Still.requestIn (h : Still x y t) : y.ctrl.requestIn = x.ctrl.requestIn :=
  (congrArg Ctrl.requestIn h.buffers :)

theorem act_requestIn {a : Action} (ha : a.isReplace) (h : act x a = some y) :
    y.ctrl.requestIn = x.ctrl.requestIn := by
  cases a with
  | rr_deallocateL2CacheBlock =>
    obtain ⟨e, -, rfl⟩ := map_eq_some_iff.mp h
    rfl
  | i_allocateTBE | f_sendInvToSharers | c_exclusiveReplacement | c_exclusiveCleanReplacement =>
    exact (act_still h rfl).requestIn
  | _ => cases ha

/-- Without room the request is not served: a line is replaced and the request stays
at the head, or it is set aside until the victim's line is stable. -/
theorem wakeup_full {d : Ctrl p} {out : List OutMsg} (hm : c.requestIn.queue.head? = some m)
    (hroom : ¬((c.cache.lookup m.addr).isSome ∨ c.cache.cacheAvail m.addr))
    (h : c.wakeup .l1Request = some (d, out)) :
    d.requestIn = c.requestIn ∨ ∃ a, c.requestIn.stallMessage a = some d.requestIn := by
  obtain ⟨t, ht, h⟩ := bind_eq_some_iff.mp h
  obtain ⟨z, hz, heq⟩ := map_eq_some_iff.mp h
  cases heq
  have hroom' : (c.cache.isTagPresent m.addr || c.cache.cacheAvail m.addr) = false :=
    Bool.eq_false_iff.mpr fun h => hroom ((Bool.or_eq_true _ _).mp h)
  have hrep : c.replace m.addr = some t := by
    simp only [Ctrl.trigger, hm, Option.bind_some, Ctrl.l1RequestIn, hroom'] at ht
    split at ht
    · exact ht
    · cases ht
  have hev : t.event = .L2_Replacement ∨ t.event = .L2_Replacement_clean := by
    obtain ⟨v, -, hrep⟩ := bind_eq_some_iff.mp hrep
    obtain ⟨e, -, rfl⟩ := map_eq_some_iff.mp hrep
    cases e.dirty
    · exact Or.inr rfl
    · exact Or.inl rfl
  obtain ⟨s, r, y, -, hr, -, her, hrun, hset⟩ := transition_cases hz
  cases hset
  change (L2Cache.putState y (r.next.getD s)).ctrl.requestIn = c.requestIn ∨
    ∃ a, c.requestIn.stallMessage a = some (L2Cache.putState y (r.next.getD s)).ctrl.requestIn
  rw [(putState_still y _).requestIn]
  have her' : Event.L2_Replacement ∈ r.events ∨ Event.L2_Replacement_clean ∈ r.events :=
    by rcases hev with hev | hev <;> rw [hev] at her <;> simp [her]
  rcases replacement_rows r hr her' with hstall | hacts
  · right
    rw [hstall] at hrun
    obtain ⟨u, hu, hrun⟩ := bind_eq_some_iff.mp hrun
    cases hrun
    obtain ⟨b, hb, rfl⟩ := map_eq_some_iff.mp hu
    exact ⟨t.addr, hb⟩
  · left
    exact Lib.Controller.run_keeps (P := fun u => u.ctrl.requestIn = c.requestIn)
      (fun a ha u v huv hu => (act_requestIn (hacts a ha) huv).trans hu) hrun rfl

end L2Cache

end SdoCore.Mesi
