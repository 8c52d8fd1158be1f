import SdoCore.Mesi.L1Cache

/-! What the L1 controller keeps in every transition.

* a line is in at most one of the two caches;
* where a line has both a TBE and a cache entry, they agree on its state;
* a line in `S`, `E` or `M` has no TBE, and no line is ever in `X`;
* the requests it sends are well formed.

`act_local` says once what an action can do: it works on the entry and the TBE of
its own line only, keeps the two pointers in step with the tables, and sends
well-formed messages. -/

namespace SdoCore.Mesi

open List
open Option (bind_eq_some_iff isSome_iff_exists map_eq_some_iff)
open CacheMemory (lookup)
open Lib.Controller (run transition_cases)
open MessageBuffer (dequeue)

/-- A request on its way to `dst`: never one of the DMA controller, and an oblivious
one for the L2 names an L1. -/
structure RequestMsg.Ok (m : RequestMsg) (dst : MachineID) : Prop where
  read : m.type ≠ .dmaRead
  write : m.type ≠ .dmaWrite
  requestor : dst = .l2Cache → m.type = .getspecL2 ∨ m.type = .getspecMem →
    m.requestor.isL1Cache = true

def OutMsg.Ok : OutMsg → Prop
  | .request dst m => ∀ d ∈ dst, m.Ok d
  | _ => True

namespace L1Cache

variable {p : CacheParams}

/-! ## Entries and TBEs after an update -/

theorem cache_setCache (c : Ctrl p) (k j : Kind) (m : CacheMemory p Entry) :
    (c.setCache k m).cache j = if j = k then m else c.cache j := by
  cases k <;> cases j <;> rfl

@[simp] theorem setCache_tbes (c : Ctrl p) (k : Kind) (m : CacheMemory p Entry) :
    (c.setCache k m).tbes = c.tbes := by
  cases k <;> rfl

namespace Ctx

theorem lookup_modifyEntry (x : Ctx p) (f : Entry → Entry) (k : Kind) (b : Nat) :
    ((x.modifyEntry f).ctrl.cache k).lookup b =
      if x.entry = some k ∧ b = x.addr then ((x.ctrl.cache k).lookup b).map f
      else (x.ctrl.cache k).lookup b := by
  unfold modifyEntry
  rcases x.entry with _ | j
  · simp
  rw [cache_setCache]
  by_cases hk : k = j
  · subst hk
    rw [if_pos rfl, CacheMemory.lookup_modify]
    by_cases hb : b = x.addr
    · subst hb; simp
    · simp [hb]
  · simp [hk, Ne.symm hk]

theorem modifyEntry_eq (x : Ctx p) (f : Entry → Entry) : ∃ d i,
    x.modifyEntry f = { x with ctrl := { x.ctrl with dcache := d, icache := i } } := by
  unfold modifyEntry
  split
  · next k _ => cases k <;> exact ⟨_, _, rfl⟩
  · exact ⟨_, _, rfl⟩

@[simp] theorem modifyEntry_tbes (x : Ctx p) (f : Entry → Entry) :
    (x.modifyEntry f).ctrl.tbes = x.ctrl.tbes := by
  obtain ⟨d, i, h⟩ := x.modifyEntry_eq f
  rw [h]

theorem tbes_modifyTBE (x : Ctx p) (f : TBE → TBE) (b : Nat) :
    (x.modifyTBE f).ctrl.tbes b =
      if x.tbe ∧ b = x.addr then (x.ctrl.tbes b).map f else x.ctrl.tbes b := by
  unfold modifyTBE
  by_cases ht : x.tbe = true
  · by_cases hb : b = x.addr
    · subst hb; simp [ht]
    · simp [ht, hb]
  · simp [ht]

theorem modifyTBE_eq (x : Ctx p) (f : TBE → TBE) :
    ∃ ts, x.modifyTBE f = { x with ctrl := { x.ctrl with tbes := ts } } := by
  unfold modifyTBE
  split <;> exact ⟨_, rfl⟩

end Ctx

/-! ## What an action can do -/

/-- The pointers of a transition agree with the tables. -/
structure Synced (x : Ctx p) : Prop where
  tbe : x.tbe = (x.ctrl.tbes x.addr).isSome
  entry : ∀ k e, (x.ctrl.cache k).lookup x.addr = some e → x.entry = some k

/-- The messages sent so far are well formed. -/
def Good (x : Ctx p) : Prop := ∀ o ∈ x.out, o.Ok

/-- From `x` to `y` only the line of the transition is touched; `t` says whether a
TBE is at hand afterwards. -/
structure Local (x y : Ctx p) (t : Bool) : Prop where
  addr : y.addr = x.addr
  machineID : y.machineID = x.machineID
  tbes_ne : ∀ b, b ≠ x.addr → y.ctrl.tbes b = x.ctrl.tbes b
  lookup_ne : ∀ k b, b ≠ x.addr → (y.ctrl.cache k).lookup b = (x.ctrl.cache k).lookup b
  tbe : y.tbe = t
  synced : Synced x → Synced y
  good : x.machineID.isL1Cache = true → Good x → Good y

/-- Such a step that leaves the buffers alone. -/
structure Still (x y : Ctx p) (t : Bool) : Prop extends Local x y t where
  port : y.port = x.port
  buffers : { y.ctrl with
    dcache := x.ctrl.dcache, icache := x.ctrl.icache, tbes := x.ctrl.tbes } = x.ctrl

variable {x y : Ctx p} {c : Ctrl p}

namespace Local

theorem trans {z : Ctx p} {t u : Bool} (h : Local x y t) (h' : Local y z u) : Local x z u where
  addr := h'.addr.trans h.addr
  machineID := h'.machineID.trans h.machineID
  tbes_ne := fun b hb => (h'.tbes_ne b (h.addr ▸ hb)).trans (h.tbes_ne b hb)
  lookup_ne := fun k b hb => (h'.lookup_ne k b (h.addr ▸ hb)).trans (h.lookup_ne k b hb)
  tbe := h'.tbe
  synced := fun hs => h'.synced (h.synced hs)
  good := fun hid hg => h'.good (h.machineID ▸ hid) (h.good hid hg)

/-- A step that leaves entries and TBEs alone. -/
theorem quiet (haddr : y.addr = x.addr) (hid : y.machineID = x.machineID)
    (hentry : y.entry = x.entry) (htbe : y.tbe = x.tbe) (htbes : y.ctrl.tbes = x.ctrl.tbes)
    (hlook : ∀ k b, (y.ctrl.cache k).lookup b = (x.ctrl.cache k).lookup b)
    (hgood : x.machineID.isL1Cache → Good x → Good y) : Local x y x.tbe where
  addr := haddr
  machineID := hid
  tbes_ne := fun b _ => by rw [htbes]
  lookup_ne := fun k b _ => hlook k b
  tbe := htbe
  synced := fun hs => by
    refine ⟨by rw [htbe, htbes, haddr, hs.tbe], fun k e he => ?_⟩
    rw [hlook, haddr] at he
    rw [hentry, hs.entry k e he]
  good := hgood

end Local

namespace Still

theorem refl (x : Ctx p) : Still x x x.tbe :=
  ⟨⟨rfl, rfl, fun _ _ => rfl, fun _ _ _ => rfl, rfl, id, fun _ => id⟩, rfl, rfl⟩

theorem trans {z : Ctx p} {t u : Bool} (h : Still x y t) (h' : Still y z u) : Still x z u where
  toLocal := h.toLocal.trans h'.toLocal
  port := h'.port.trans h.port
  buffers := by
    rw [← h.buffers, ← h'.buffers]

theorem send {o : OutMsg} (ho : x.machineID.isL1Cache → o.Ok) : Still x (x.send o) x.tbe := by
  refine ⟨.quiet rfl rfl rfl rfl rfl (fun _ _ => rfl) fun hid hg o' ho' => ?_, rfl, rfl⟩
  rcases mem_append.mp ho' with ho' | ho'
  · exact hg o' ho'
  · rw [mem_singleton.mp ho']
    exact ho hid

theorem modifyEntry (x : Ctx p) (f : Entry → Entry) : Still x (x.modifyEntry f) x.tbe := by
  have hlook := x.lookup_modifyEntry f
  obtain ⟨d, i, heq⟩ := x.modifyEntry_eq f
  rw [heq] at hlook ⊢
  refine ⟨⟨rfl, rfl, fun _ _ => rfl, fun k b hb => ?_, rfl,
    fun hs => ⟨hs.tbe, fun k e he => ?_⟩, fun _ hg => hg⟩, rfl, rfl⟩
  · rw [hlook, if_neg fun h => hb h.2]
  · rw [hlook] at he
    split at he
    · next h => exact h.1
    · exact hs.entry k e he

theorem modifyTBE (x : Ctx p) (f : TBE → TBE) : Still x (x.modifyTBE f) x.tbe := by
  have htbes := x.tbes_modifyTBE f
  obtain ⟨ts, heq⟩ := x.modifyTBE_eq f
  rw [heq] at htbes ⊢
  refine ⟨⟨rfl, rfl, fun b hb => ?_, fun k b _ => by cases k <;> rfl, rfl,
    fun hs => ⟨?_, fun k e he => hs.entry k e (by cases k <;> exact he)⟩, fun _ hg => hg⟩, rfl, rfl⟩
  · rw [htbes, if_neg fun h => hb h.2]
  · rw [htbes, hs.tbe]
    split <;> simp

theorem lookup_setCache {c : Ctrl p} {k : Kind} {m : CacheMemory p Entry} {a : Nat}
    {o : Option Entry}
    (hm : ∀ b, m.lookup b = if b = a then o else (c.cache k).lookup b) (j : Kind) (b : Nat) :
    ((c.setCache k m).cache j).lookup b =
      if j = k ∧ b = a then o else (c.cache j).lookup b := by
  rw [cache_setCache]
  by_cases hj : j = k
  · subst hj
    rw [if_pos rfl, hm]
    simp
  · simp [hj]

theorem allocateBlock {k : Kind} (h : x.allocateBlock k = some y) : Still x y x.tbe := by
  unfold Ctx.allocateBlock at h
  split at h
  · cases h
    exact refl _
  rename_i hnone
  obtain ⟨m, hm, rfl⟩ := map_eq_some_iff.mp h
  have hlook := lookup_setCache (CacheMemory.lookup_allocate hm)
  refine ⟨⟨rfl, rfl, fun b _ => by simp, fun j b hb => ?_, rfl, fun hs => ⟨?_, fun j e he => ?_⟩,
    fun _ hg => hg⟩, rfl, by cases k <;> rfl⟩
  · rw [hlook, if_neg fun h => hb h.2]
  · simpa using hs.tbe
  rw [hlook] at he
  split at he
  · next hj => rw [hj.1]
  -- the other cache does not hold the line, or `entry` would say so
  have := hs.entry j e he
  rw [hnone] at this
  cases this

theorem deallocateBlock (h : x.deallocateBlock = some y) : Still x y x.tbe := by
  obtain ⟨m, hm, rfl⟩ := map_eq_some_iff.mp h
  generalize hk : (if x.ctrl.dcache.isTagPresent x.addr = true then Kind.dcache else Kind.icache) =
    k
    at hm
  have hlook := lookup_setCache (CacheMemory.lookup_deallocate hm)
  refine ⟨⟨rfl, rfl, fun b _ => by simp, fun j b hb => ?_, rfl, fun hs => ⟨?_, fun j e he => ?_⟩,
    fun _ hg => hg⟩, rfl, by cases k <;> rfl⟩
  · rw [hlook, if_neg fun h => hb h.2]
  · simpa using hs.tbe
  rw [hlook] at he
  split at he
  · cases he
  rename_i hj
  -- the line was in the cache `k`, so the pointer excludes the other one
  exfalso
  have hpres : ((x.ctrl.cache k).lookup x.addr).isSome = true := by
    unfold CacheMemory.deallocate at hm
    split at hm
    · next hp => exact hp
    · cases hm
  obtain ⟨e', he'⟩ := isSome_iff_exists.mp hpres
  have hkj := (hs.entry k e' he').symm.trans (hs.entry j e he)
  exact hj ⟨(Option.some.inj hkj).symm, rfl⟩

theorem allocateTBE {u : TBE} (h : x.allocateTBE u = some y) : Still x y true := by
  unfold Ctx.allocateTBE at h
  split at h
  · cases h
  · cases h
    exact ⟨⟨rfl, rfl, fun b hb => Function.update_of_ne hb _ _, fun _ _ _ => rfl, rfl,
      fun hs => ⟨by simp, hs.entry⟩, fun _ hg => hg⟩, rfl, rfl⟩

theorem deallocateTBE (x : Ctx p) : Still x x.deallocateTBE false :=
  ⟨⟨rfl, rfl, fun b hb => Function.update_of_ne hb _ _, fun _ _ _ => rfl, rfl,
    fun hs => ⟨by simp [Ctx.deallocateTBE], hs.entry⟩, fun _ hg => hg⟩, rfl, rfl⟩

theorem setMRU (x : Ctx p) (a : Nat) :
    Still x { x with ctrl := { x.ctrl with dcache := x.ctrl.dcache.setMRU a } } x.tbe := by
  refine ⟨.quiet rfl rfl rfl rfl rfl (fun k b => ?_) fun _ hg => hg, rfl, rfl⟩
  cases k <;> simp [Ctrl.cache]

theorem setMRUIcache (x : Ctx p) (a : Nat) :
    Still x { x with ctrl := { x.ctrl with icache := x.ctrl.icache.setMRU a } } x.tbe := by
  refine ⟨.quiet rfl rfl rfl rfl rfl (fun k b => ?_) fun _ hg => hg, rfl, rfl⟩
  cases k <;> simp [Ctrl.cache]

theorem issue {t : CoherenceRequestType} (h : x.issue t = some y) (hr : t ≠ .dmaRead)
    (hw : t ≠ .dmaWrite) : Still x y x.tbe := by
  obtain ⟨m, -, rfl⟩ := map_eq_some_iff.mp h
  exact send fun hid _ _ => ⟨hr, hw, fun _ _ => hid⟩

theorem issuePf {t : CoherenceRequestType} (h : x.issuePf t = some y) (hr : t ≠ .dmaRead)
    (hw : t ≠ .dmaWrite) : Still x y x.tbe := by
  obtain ⟨m, -, rfl⟩ := map_eq_some_iff.mp h
  exact send fun hid _ _ => ⟨hr, hw, fun _ _ => hid⟩

theorem sendData {dst : NetDest} (h : x.sendData dst = some y) : Still x y x.tbe := by
  obtain ⟨e, -, rfl⟩ := map_eq_some_iff.mp h
  exact send fun _ => trivial

theorem sendDataFromTBE {dst : NetDest} (h : x.sendDataFromTBE dst = some y) :
    Still x y x.tbe := by
  obtain ⟨t, -, rfl⟩ := map_eq_some_iff.mp h
  exact send fun _ => trivial

theorem callback (x : Ctx p) (c : Callback) : Still x (x.send (.callback c)) x.tbe :=
  send fun _ => trivial

end Still

namespace Local

/-- Controllers that differ in their buffers only. -/
structure SameLines (c d : Ctrl p) : Prop where
  dcache : d.dcache = c.dcache
  icache : d.icache = c.icache
  tbes : d.tbes = c.tbes

theorem SameLines.cache {d : Ctrl p} (h : SameLines c d) (k : Kind) : d.cache k = c.cache k := by
  cases k
  · exact h.dcache
  · exact h.icache

theorem requeue (h : SameLines x.ctrl c) : Local x { x with ctrl := c } x.tbe :=
  quiet rfl rfl rfl rfl h.tbes (fun k b => by rw [h.cache]) fun _ hg => hg

theorem SameLines.reanalyze {d : Ctrl p} {a : Nat} {q : Port} (h : Ctx.reanalyze c a q = some d) :
    SameLines c d := by
  cases q <;>
  · obtain ⟨b, -, rfl⟩ := map_eq_some_iff.mp h
    exact ⟨rfl, rfl, rfl⟩

theorem SameLines.wakeUp {d : Ctrl p} {a : Nat} {qs : List Port} (h : Ctx.wakeUp c a qs = some d) :
    SameLines c d := by
  induction qs generalizing c with
  | nil =>
    cases h
    exact ⟨rfl, rfl, rfl⟩
  | cons q qs ih =>
    unfold Ctx.wakeUp at h
    split at h
    · obtain ⟨c', hc', h⟩ := bind_eq_some_iff.mp h
      have h1 := SameLines.reanalyze hc'
      have h2 := ih h
      exact ⟨h2.dcache.trans h1.dcache, h2.icache.trans h1.icache, h2.tbes.trans h1.tbes⟩
    · exact ih h

theorem wakeUpBuffers (h : x.wakeUpBuffers = some y) : Local x y x.tbe := by
  obtain ⟨c, hc, rfl⟩ := map_eq_some_iff.mp h
  have hs := SameLines.wakeUp hc
  exact requeue { hs with }

theorem stallMandatory (h : x.stallMandatory = some y) : Local x y x.tbe := by
  obtain ⟨q, -, rfl⟩ := map_eq_some_iff.mp h
  exact requeue ⟨rfl, rfl, rfl⟩

end Local

/-- Whether a TBE is at hand after an action. -/
def tbeStep (t : Bool) : Action → Bool
  | .i_allocateTBE | .iw_allocateTBEWithoutCacheEntry => true
  | .s_deallocateTBE => false
  | _ => t

variable {x y z : Ctx p} {s : State} {t : Bool} {c : Ctrl p} {a : Nat} {e : Event} {k : Kind}

/-- The actions that touch a buffer. -/
def Action.requeues : Action → Bool
  | .k_popMandatoryQueue | .l_popRequestQueue | .o_popIncomingResponseQueue | .pq_popPrefetchQueue
  | .z_stallAndWaitMandatoryQueue | .kd_wakeUpDependents => true
  | _ => false

theorem act_still {a : Action} (h : act x a = some y) (hr : a.requeues = false) :
    Still x y (tbeStep x.tbe a) := by
  cases a with
  | a_issueGETS | as_issueGETSPEC | ij_issueGETSPEC_L1_pass_L0 | ij_issueGETSPEC_Mem_pass_L0
  | ij_issueGETSPEC_Perfect_pass_L0 | ij_issueGETSPEC_PerfectUnsafe_pass_L0 | ex_issueEXPOSE
  | ai_issueGETINSTR | b_issueGETX | c_issueUPGRADE => exact Still.issue h nofun nofun
  | pa_issuePfGETS | pai_issuePfGETINSTR | pb_issuePfGETX => exact Still.issuePf h nofun nofun
  | d_sendDataToRequestor | dex_sendDataToExposeRequestor | ds_sendDataToSpecRequestor =>
    obtain ⟨m, -, h⟩ := bind_eq_some_iff.mp h
    exact Still.sendData h
  | d2_sendDataToL2 | d2ex_sendExposeDataToL2 | f_sendDataToL2 => exact Still.sendData h
  | dt_sendDataToRequestor_fromTBE | dtex_sendDataToExposeRequestor_fromTBE
  | dts_sendDataToSpecRequestor_fromTBE =>
    obtain ⟨m, -, h⟩ := bind_eq_some_iff.mp h
    exact Still.sendDataFromTBE h
  | dts_replayRequestToL2 =>
    obtain ⟨m, -, rfl⟩ := map_eq_some_iff.mp h
    exact Still.send fun _ _ _ => ⟨nofun, nofun, fun _ => nofun⟩
  | d2t_sendDataToL2_fromTBE | d2tex_sendExposeDataToL2_fromTBE | ft_sendDataToL2_fromTBE =>
    exact Still.sendDataFromTBE h
  | fi_sendInvAck =>
    obtain ⟨m, -, rfl⟩ := map_eq_some_iff.mp h
    exact Still.send fun _ => trivial
  | forward_eviction_to_cpu | forward_external_eviction_to_cpu =>
    cases h
    cases hs : x.ctrl.sendEvictions
    · simpa [hs, tbeStep] using Still.refl x
    · simpa [hs, tbeStep] using Still.callback x _
  | g_issuePUTX =>
    obtain ⟨e, -, rfl⟩ := map_eq_some_iff.mp h
    exact Still.send fun hid _ _ => ⟨nofun, nofun, fun _ _ => hid⟩
  | j_sendUnblock | jj_sendExclusiveUnblock =>
    cases h
    exact Still.send fun _ => trivial
  | dg_invalidate_sc =>
    cases h
    exact Still.callback _ _
  | h_load_hit =>
    obtain ⟨e, -, rfl⟩ := map_eq_some_iff.mp h
    exact (Still.setMRU x x.addr).trans (Still.callback _ _)
  | h_ifetch_hit =>
    obtain ⟨e, -, rfl⟩ := map_eq_some_iff.mp h
    exact (Still.setMRUIcache x x.addr).trans (Still.callback _ _)
  | h_spec_load_hit =>
    obtain ⟨m, -, h⟩ := bind_eq_some_iff.mp h
    obtain ⟨e, -, rfl⟩ := map_eq_some_iff.mp h
    exact Still.callback _ _
  | h_invisi_spec_load_hit | mj_spec_load_miss_l0 | hxj_send_spec_data_from_l1_to_cpu
  | hxj_send_spec_data_from_mem_to_cpu =>
    obtain ⟨e, -, rfl⟩ := map_eq_some_iff.mp h
    exact Still.callback _ _
  | hx_load_hit =>
    obtain ⟨e, -, rfl⟩ := map_eq_some_iff.mp h
    exact (((Still.setMRUIcache x x.addr).trans (Still.setMRU _ x.addr)).trans
      (Still.callback _ _)).trans (Still.modifyEntry _ _)
  | hsx_invisi_spec_load_hit =>
    obtain ⟨m, -, rfl⟩ := map_eq_some_iff.mp h
    have h1 := Still.modifyTBE x fun t => { t with dataBlk := m.dataBlk }
    have h2 := h1.trans (Still.callback _ (.read x.addr m.dataBlk true false false false))
    rwa [h1.tbe] at h2
  | hh_store_hit =>
    obtain ⟨e, -, rfl⟩ := map_eq_some_iff.mp h
    exact ((Still.setMRU x x.addr).trans (Still.callback _ _)).trans (Still.modifyEntry _ _)
  | hhx_store_hit =>
    obtain ⟨e, -, rfl⟩ := map_eq_some_iff.mp h
    have h1 := (((Still.setMRUIcache x x.addr).trans (Still.setMRU _ x.addr)).trans
      (Still.callback _ (.write x.addr true e.hitAtL0 e.hitAtL1 e.hitAtMem))).trans
      (Still.modifyEntry _ fun e => { e with dataBlk := x.ctrl.seqWrite x.addr, dirty := true })
    have h2 := h1.trans (Still.modifyEntry _ fun e =>
      { e with hitAtL0 := false, hitAtL1 := false, hitAtMem := false })
    rwa [h1.tbe] at h2
  | i_allocateTBE =>
    obtain ⟨e, -, h⟩ := bind_eq_some_iff.mp h
    exact Still.allocateTBE h
  | iw_allocateTBEWithoutCacheEntry =>
    simp only [act] at h
    split at h
    · split at h
      · exact Still.allocateTBE h
      · cases h
    · exact Still.allocateTBE h
  | s_deallocateTBE =>
    cases h
    exact Still.deallocateTBE x
  | u_writeDataToL1Cache =>
    obtain ⟨m, -, h⟩ := bind_eq_some_iff.mp h
    obtain ⟨e, -, rfl⟩ := map_eq_some_iff.mp h
    exact Still.modifyEntry _ _
  | q_updateAckCount =>
    obtain ⟨m, -, h⟩ := bind_eq_some_iff.mp h
    obtain ⟨t, -, rfl⟩ := map_eq_some_iff.mp h
    exact Still.modifyTBE _ _
  | ff_deallocateL1CacheBlock => exact Still.deallocateBlock h
  | oo_allocateL1DCacheBlock | pp_allocateL1ICacheBlock => exact Still.allocateBlock h
  | mp_markPrefetched =>
    obtain ⟨e, -, rfl⟩ := map_eq_some_iff.mp h
    exact Still.modifyEntry _ _
  | _ => cases hr

theorem act_local (a : Action) (h : act x a = some y) : Local x y (tbeStep x.tbe a) := by
  cases hr : a.requeues with
  | false => exact (act_still h hr).toLocal
  | true =>
    cases a with
    | k_popMandatoryQueue | l_popRequestQueue | o_popIncomingResponseQueue | pq_popPrefetchQueue =>
      obtain ⟨q, -, rfl⟩ := map_eq_some_iff.mp h
      exact .requeue ⟨rfl, rfl, rfl⟩
    | z_stallAndWaitMandatoryQueue => exact .stallMandatory h
    | kd_wakeUpDependents => exact .wakeUpBuffers h
    | _ => cases hr

theorem run_local {as : List Action} (h : controller.run x as = some y) :
    Local x y (as.foldl tbeStep x.tbe) := by
  induction as generalizing x with
  | nil =>
    cases h
    exact (Still.refl _).toLocal
  | cons a as ih =>
    obtain ⟨z, hz, h⟩ := bind_eq_some_iff.mp h
    have h1 := act_local a hz
    have h2 := ih h
    rw [h1.tbe] at h2
    exact h1.trans h2

/-! ## The table -/

/-- The line can be read. -/
def State.isHit : State → Bool
  | .S | .E | .M => true
  | _ => false

/-- A row that ends in a readable state leaves no TBE behind, if it starts without
one in the readable states. -/
def rowFreesTBE (r : Lib.Row State Event Action) : Bool :=
  r.states.all fun s => !(r.next.getD s).isHit ||
    (!r.actions.foldl tbeStep false && (s.isHit || !r.actions.foldl tbeStep true))

theorem rows_free_tbe : ∀ r ∈ transitions, rowFreesTBE r := by
  decide

theorem tbe_freed {r : Lib.Row State Event Action} (hr : r ∈ transitions) (hs : s ∈ r.states)
    (ht : s.isHit → t = false)
    (hn : (r.next.getD s).isHit) : r.actions.foldl tbeStep t = false := by
  have h := all_eq_true.mp (rows_free_tbe r hr) s hs
  rw [hn] at h
  simp only [Bool.not_true, Bool.false_or, Bool.and_eq_true, Bool.or_eq_true,
    Bool.not_eq_true'] at h
  cases t with
  | false => exact h.1
  | true =>
    rcases h.2 with h2 | h2
    · exact absurd (ht h2) (by decide)
    · exact h2

theorem next_ne_X {r : Lib.Row State Event Action} (hr : r ∈ transitions) (hs : s ∈ r.states) :
    r.next.getD s ≠ .X := by
  have h : ∀ r ∈ transitions, ∀ s ∈ r.states, r.next.getD s ≠ .X := by decide
  exact h r hr s hs

/-! ## The invariant -/

structure Inv (c : Ctrl p) : Prop where
  oneCache : ∀ a, c.inOneCache a = true
  agree : ∀ a t k e, c.tbes a = some t → (c.cache k).lookup a = some e → e.cacheState = t.tbeState
  busy : ∀ a t, c.tbes a = some t → t.tbeState.isHit = false
  tbe_ne_X : ∀ a t, c.tbes a = some t → t.tbeState ≠ .X
  entry_ne_X : ∀ k a e, (c.cache k).lookup a = some e → e.cacheState ≠ .X

theorem inOneCache_iff :
    c.inOneCache a ↔
      ∀ j k e f, (c.cache j).lookup a = some e → (c.cache k).lookup a = some f → j = k := by
  have hd : c.dcache.isTagPresent a = ((c.cache .dcache).lookup a).isSome := rfl
  have hi : c.icache.isTagPresent a = ((c.cache .icache).lookup a).isSome := rfl
  rw [Ctrl.inOneCache, hd, hi]
  constructor
  · intro h j k e f hj hk
    cases j <;> cases k <;> simp_all
  intro h
  cases h1 : (c.cache .dcache).lookup a with
  | none => rfl
  | some e =>
    cases h2 : (c.cache .icache).lookup a with
    | none => rfl
    | some f => exact absurd (h _ _ e f h1 h2) (by decide)

theorem putState_tbes (hx : x.tbe = (x.ctrl.tbes x.addr).isSome) (s : State) (b : Nat) :
    (putState x s).ctrl.tbes b =
      if b = x.addr then (x.ctrl.tbes b).map fun t => { t with tbeState := s }
      else x.ctrl.tbes b := by
  rw [putState, Ctx.modifyEntry_tbes, Ctx.tbes_modifyTBE]
  by_cases hb : b = x.addr
  · subst hb
    cases ht : x.ctrl.tbes x.addr with
    | none => simp
    | some t => simp [hx, ht]
  · simp [hb]

theorem putState_lookup (x : Ctx p) (s : State) (k : Kind) (b : Nat) :
    ((putState x s).ctrl.cache k).lookup b =
      if x.entry = some k ∧ b = x.addr then
        ((x.ctrl.cache k).lookup b).map fun e => { e with cacheState := s }
      else (x.ctrl.cache k).lookup b := by
  obtain ⟨ts, heq⟩ := x.modifyTBE_eq fun t => { t with tbeState := s }
  rw [putState, Ctx.lookup_modifyEntry, heq]
  cases k <;> rfl

theorem putState_still (x : Ctx p) (s : State) : Still x (putState x s) x.tbe := by
  have h := Still.modifyTBE x fun t => { t with tbeState := s }
  have h' := h.trans (.modifyEntry _ fun e => { e with cacheState := s })
  rwa [h.tbe] at h'

/-- The state of a readable line is held by its entry, not by a TBE. -/
theorem tbe_of_isHit (hc : Inv x.ctrl) (ht : x.tbe = (x.ctrl.tbes x.addr).isSome)
    (h : (stateOf x).isHit) : x.tbe = false := by
  cases hx : x.tbe with
  | false => rfl
  | true =>
    rw [hx] at ht
    obtain ⟨t, hxt⟩ := isSome_iff_exists.mp ht.symm
    have hst : stateOf x = t.tbeState := by simp [stateOf, Ctx.theTBE, hx, hxt]
    rw [hst, hc.busy _ _ hxt] at h
    cases h

theorem putState_tbe_cases (hl : Local x y t) (hy : Synced y) (a : Nat) (u : TBE)
    (hu : (L1Cache.putState y s).ctrl.tbes a = some u) :
    (a = x.addr ∧ u.tbeState = s ∧ t) ∨ (a ≠ x.addr ∧ x.ctrl.tbes a = some u) := by
  rw [putState_tbes hy.tbe, hl.addr] at hu
  split at hu
  · next ha =>
    obtain ⟨v, hv, rfl⟩ := map_eq_some_iff.mp hu
    refine Or.inl ⟨ha, rfl, ?_⟩
    rw [← hl.tbe, hy.tbe, hl.addr, ← ha, hv, Option.isSome_some]
  · next ha => exact Or.inr ⟨ha, hl.tbes_ne a ha ▸ hu⟩

theorem putState_entry_cases (hl : Local x y t) (hy : Synced y) (k : Kind) (a : Nat) (e : Entry)
    (he : ((L1Cache.putState y s).ctrl.cache k).lookup a = some e) :
    (a = x.addr ∧ e.cacheState = s ∧ y.entry = some k) ∨
      (a ≠ x.addr ∧ (x.ctrl.cache k).lookup a = some e) := by
  rw [putState_lookup, hl.addr] at he
  split at he
  · next ha =>
    obtain ⟨f, -, rfl⟩ := map_eq_some_iff.mp he
    exact Or.inl ⟨ha.2, rfl, ha.1⟩
  · next ha =>
    by_cases hax : a = x.addr
    · rw [hax, ← hl.addr] at he
      exact absurd ⟨hy.entry k e he, hax⟩ ha
    · exact Or.inr ⟨hax, hl.lookup_ne k a hax ▸ he⟩

/-- The end of a transition: every copy of the line gets the new state. -/
theorem Inv.putState (hc : Inv x.ctrl) (hl : Local x y t) (hy : Synced y)
    (hbusy : s.isHit → t = false) (hX : s ≠ .X) :
    Inv (putState y s).ctrl := by
  have htbe := putState_tbe_cases (s := s) hl hy
  have hent := putState_entry_cases (s := s) hl hy
  constructor
  · intro a
    rw [inOneCache_iff]
    intro j k e f hj hk
    rcases hent j a e hj with ⟨ha, -, hyj⟩ | ⟨ha, hj⟩
    · rcases hent k a f hk with ⟨-, -, hyk⟩ | ⟨ha', -⟩
      · exact Option.some.inj (hyj.symm.trans hyk)
      · exact absurd ha ha'
    · rcases hent k a f hk with ⟨ha', -⟩ | ⟨-, hk⟩
      · exact absurd ha' ha
      · exact inOneCache_iff.mp (hc.oneCache a) j k e f hj hk
  · intro a u k e hu he
    rcases htbe a u hu with ⟨ha, hus, -⟩ | ⟨ha, hu⟩
    · rcases hent k a e he with ⟨-, hes, -⟩ | ⟨ha', -⟩
      · rw [hus, hes]
      · exact absurd ha ha'
    · rcases hent k a e he with ⟨ha', -⟩ | ⟨-, he⟩
      · exact absurd ha' ha
      · exact hc.agree a u k e hu he
  · intro a u hu
    rcases htbe a u hu with ⟨-, hus, ht⟩ | ⟨-, hu⟩
    · rw [hus]
      cases hh : s.isHit with
      | false => rfl
      | true => rw [ht] at hbusy; exact absurd (hbusy hh) (by decide)
    · exact hc.busy a u hu
  · intro a u hu
    rcases htbe a u hu with ⟨-, hus, -⟩ | ⟨-, hu⟩
    · rw [hus]; exact hX
    · exact hc.tbe_ne_X a u hu
  · intro k a e he
    rcases hent k a e he with ⟨-, hes, -⟩ | ⟨-, he⟩
    · rw [hes]; exact hX
    · exact hc.entry_ne_X k a e he

/-- A transition runs the actions of a row for the state of its line, and writes the next one. -/
theorem transition_ends (h : controller.transition x e = some z) :
    ∃ r y, r ∈ transitions ∧ stateOf x ∈ r.states ∧ e ∈ r.events ∧
      controller.run x r.actions = some y ∧ z = L1Cache.putState y (r.next.getD (stateOf x)) := by
  obtain ⟨s, r, y, hst, hr, hsr, her, hrun, hset⟩ := transition_cases h
  have hst : getState x = some s := hst
  have hset : setState y (r.next.getD s) = some z := hset
  unfold getState at hst
  unfold setState at hset
  split at hst
  · cases hst
    split at hset
    · exact ⟨r, y, hr, hsr, her, hrun, (Option.some.inj hset).symm⟩
    · cases hset
  · cases hst

theorem Inv.transition (hc : Inv x.ctrl) (hs : Synced x) (hid : x.machineID.isL1Cache)
    (hg : Good x) (h : controller.transition x e = some z) : Inv z.ctrl ∧ Good z := by
  obtain ⟨r, y, hr, hsr, -, hrun, rfl⟩ := transition_ends h
  have hl := run_local hrun
  refine ⟨hc.putState hl (hl.synced hs) (fun hn => ?_) (next_ne_X hr hsr), ?_⟩
  · exact tbe_freed hr hsr (tbe_of_isHit hc hs.tbe) hn
  · exact (putState_still y _).good (hl.machineID ▸ hid) (hl.good hid hg)

/-! ## Oblivious loads

They pass the entry of the data cache only, so the pointers may miss a copy in the
instruction cache; but their rows leave entries and TBEs alone. -/

def Event.isSpec : Event → Bool
  | .SpecLoad_L0 | .SpecLoad_L1 | .SpecLoad_Mem | .SpecLoad_Perfect | .SpecLoad_PerfectUnsafe =>
    true
  | _ => false

def Action.isSpec : Action → Bool
  | .h_spec_load_hit | .mj_spec_load_miss_l0 | .ij_issueGETSPEC_L1_pass_L0
  | .ij_issueGETSPEC_Mem_pass_L0 | .ij_issueGETSPEC_Perfect_pass_L0
  | .ij_issueGETSPEC_PerfectUnsafe_pass_L0 | .k_popMandatoryQueue
  | .z_stallAndWaitMandatoryQueue => true
  | _ => false

theorem spec_rows : ∀ r ∈ transitions, (∃ e ∈ r.events, e.isSpec) →
    r.next = none ∧ ∀ a ∈ r.actions, a.isSpec := by
  decide

/-- The same entries, TBEs and pointers. -/
structure SameView (x y : Ctx p) : Prop where
  lines : Local.SameLines x.ctrl y.ctrl
  addr : y.addr = x.addr
  entry : y.entry = x.entry
  tbe : y.tbe = x.tbe

theorem SameView.trans (h : SameView x y) (h' : SameView y z) : SameView x z :=
  ⟨⟨h'.lines.dcache.trans h.lines.dcache, h'.lines.icache.trans h.lines.icache,
    h'.lines.tbes.trans h.lines.tbes⟩, h'.addr.trans h.addr, h'.entry.trans h.entry,
    h'.tbe.trans h.tbe⟩

theorem SameView.of_ctrl (hctrl : y.ctrl = x.ctrl) (haddr : y.addr = x.addr)
    (hentry : y.entry = x.entry) (htbe : y.tbe = x.tbe) : SameView x y :=
  ⟨⟨by rw [hctrl], by rw [hctrl], by rw [hctrl]⟩, haddr, hentry, htbe⟩

theorem act_sameView {a : Action} (ha : a.isSpec) (h : act x a = some y) :
    SameView x y := by
  cases a with
  | h_spec_load_hit =>
    obtain ⟨m, -, h⟩ := bind_eq_some_iff.mp h
    obtain ⟨e, -, rfl⟩ := map_eq_some_iff.mp h
    exact .of_ctrl rfl rfl rfl rfl
  | mj_spec_load_miss_l0 | ij_issueGETSPEC_L1_pass_L0 | ij_issueGETSPEC_Mem_pass_L0
  | ij_issueGETSPEC_Perfect_pass_L0 | ij_issueGETSPEC_PerfectUnsafe_pass_L0 =>
    obtain ⟨m, -, rfl⟩ := map_eq_some_iff.mp h
    exact .of_ctrl rfl rfl rfl rfl
  | k_popMandatoryQueue | z_stallAndWaitMandatoryQueue =>
    obtain ⟨q, -, rfl⟩ := map_eq_some_iff.mp h
    exact ⟨⟨rfl, rfl, rfl⟩, rfl, rfl, rfl⟩
  | _ => cases ha

theorem run_sameView {as : List Action} (ha : ∀ a ∈ as, a.isSpec)
    (h : controller.run x as = some y) : SameView x y :=
  Lib.Controller.run_keeps (P := fun z => SameView x z)
    (fun a hm _ _ hz hx => hx.trans (act_sameView (ha a hm) hz)) h (.of_ctrl rfl rfl rfl rfl)

theorem SameView.cacheEntry (h : SameView x y) : y.cacheEntry = x.cacheEntry := by
  unfold Ctx.cacheEntry
  rw [h.entry, h.addr]
  simp only [h.lines.cache]

theorem SameView.theTBE (h : SameView x y) : y.theTBE = x.theTBE := by
  rw [Ctx.theTBE, Ctx.theTBE, h.tbe, h.lines.tbes, h.addr]

theorem SameView.stateOf (h : SameView x y) :
    L1Cache.stateOf y = L1Cache.stateOf x := by
  rw [L1Cache.stateOf, L1Cache.stateOf, h.cacheEntry, h.theTBE]

/-- Writing back the state a line has changes nothing. -/
theorem putState_stateOf
    (h : ∀ t e, x.theTBE = some t → x.cacheEntry = some e → e.cacheState = t.tbeState) :
    L1Cache.putState x (stateOf x) = x := by
  have htbe : (x.modifyTBE fun t => { t with tbeState := stateOf x }) = x := by
    unfold Ctx.modifyTBE
    split
    · next ht =>
      cases hxt : x.ctrl.tbes x.addr with
      | none => rw [Option.map_none, ← hxt, Function.update_eq_self]
      | some t =>
        have hst : stateOf x = t.tbeState := by simp [stateOf, Ctx.theTBE, ht, hxt]
        rw [hst, Option.map_some, ← hxt, Function.update_eq_self]
    · rfl
  rw [putState, htbe]
  unfold Ctx.modifyEntry
  split
  · next k hk =>
    have hsame : (x.ctrl.cache k).modify x.addr (fun e => { e with cacheState := stateOf x }) =
        x.ctrl.cache k := by
      apply CacheMemory.modify_eq_self
      intro e he
      have hce : x.cacheEntry = some e := by simp [Ctx.cacheEntry, hk, he]
      have hes : e.cacheState = stateOf x := by
        cases ht : x.theTBE with
        | none => simp [stateOf, ht, hce]
        | some t => rw [h t e ht hce]; simp [stateOf, ht]
      rw [← hes]
    rw [hsame]
    cases k <;> rfl
  · rfl

theorem Inv.agree_view (hc : Inv x.ctrl) (t : TBE) (e : Entry) (ht : x.theTBE = some t)
    (he : x.cacheEntry = some e) : e.cacheState = t.tbeState := by
  unfold Ctx.theTBE at ht
  split at ht
  · obtain ⟨k, -, hke⟩ := bind_eq_some_iff.mp he
    exact hc.agree x.addr t k e ht hke
  · cases ht

theorem Inv.of_sameLines {d : Ctrl p} (h : Local.SameLines c d) (hc : Inv c) : Inv d := by
  constructor
  · intro a
    rw [Ctrl.inOneCache, h.dcache, h.icache]
    exact hc.oneCache a
  · intro a t k e ht he
    rw [h.tbes] at ht
    rw [h.cache] at he
    exact hc.agree a t k e ht he
  · intro a t ht
    rw [h.tbes] at ht
    exact hc.busy a t ht
  · intro a t ht
    rw [h.tbes] at ht
    exact hc.tbe_ne_X a t ht
  · intro k a e he
    rw [h.cache] at he
    exact hc.entry_ne_X k a e he

/-- An oblivious transition ends where its actions end. -/
theorem spec_transition (hc : Inv x.ctrl) (he : e.isSpec)
    (h : controller.transition x e = some z) :
    SameView x z ∧ (x.machineID.isL1Cache → Good x → Good z) := by
  obtain ⟨r, y, hr, -, her, hrun, rfl⟩ := transition_ends h
  obtain ⟨hnext, hacts⟩ := spec_rows r hr ⟨e, her, he⟩
  have hv := run_sameView hacts hrun
  rw [hnext, Option.getD_none, ← hv.stateOf, putState_stateOf (hc.of_sameLines hv.lines).agree_view]
  exact ⟨hv, (run_local hrun).good⟩

/-- The first action of an oblivious load tells the core whether it hits. -/
def specFirst (hit : Bool) : Action :=
  if hit then .h_spec_load_hit else .mj_spec_load_miss_l0

def specActions (hit : Bool) : Event → List Action
  | .SpecLoad_L0 => [specFirst hit, .k_popMandatoryQueue]
  | .SpecLoad_L1 => [specFirst hit, .ij_issueGETSPEC_L1_pass_L0, .k_popMandatoryQueue]
  | .SpecLoad_Mem => [specFirst hit, .ij_issueGETSPEC_Mem_pass_L0, .k_popMandatoryQueue]
  | _ => []

theorem spec_row {st : State} (hX : st ≠ .X)
    (he : e ∈ [Event.SpecLoad_L0, .SpecLoad_L1, .SpecLoad_Mem]) :
    ∃ r, Lib.rowFor transitions st e = some r ∧ r.next = none ∧
      r.actions = specActions st.isHit e := by
  simp only [mem_cons, not_mem_nil, or_false] at he
  rcases he with rfl | rfl | rfl <;> cases st <;>
    first | exact absurd rfl hX | exact ⟨_, rfl, rfl, rfl⟩

theorem run_specActions {m : RubyRequest} {q : List RubyRequest} {hit : Bool}
    (hq : x.ctrl.mandatoryQueue.queue = m :: q)
    (he : e ∈ [Event.SpecLoad_L0, .SpecLoad_L1, .SpecLoad_Mem])
    (hhit : hit → ∃ en, x.cacheEntry = some en) :
    ∃ out, controller.run x (specActions hit e) = some { x with
        ctrl := { x.ctrl with mandatoryQueue := { x.ctrl.mandatoryQueue with queue := q } }
        out := x.out ++ out } ∧ ∀ o ∈ out, o.isSpec := by
  have hm : x.mandatoryIn? = some m := by simp [Ctx.mandatoryIn?, hq]
  obtain ⟨d, hfirst⟩ : ∃ d, act x (specFirst hit) =
      some (x.send (.callback (.oblivFromL0 x.addr hit d m.idx))) := by
    cases hit with
    | false => exact ⟨_, by simp [specFirst, act, hm]; rfl⟩
    | true =>
      obtain ⟨en, hen⟩ := hhit rfl
      exact ⟨_, by simp [specFirst, act, hm, hen]; rfl⟩
  let cb : OutMsg := .callback (.oblivFromL0 x.addr hit d m.idx)
  let rq (t : CoherenceRequestType) : OutMsg :=
    .request [.l2Cache] { addr := x.addr, type := t, requestor := x.machineID, idx := m.idx }
  simp only [mem_cons, not_mem_nil, or_false] at he
  rcases he with rfl | rfl | rfl
  · refine ⟨[cb], ?_, by simp [cb, OutMsg.isSpec]⟩
    simp [specActions, run, controller, hfirst]
    simp [act, Ctx.send, hq, dequeue, cb]
  · refine ⟨[cb, rq .getspecL2], ?_, by simp [cb, rq, OutMsg.isSpec]⟩
    simp [specActions, run, controller, hfirst]
    simp [act, Ctx.issue, Ctx.send, hq, dequeue, cb, rq]
  · refine ⟨[cb, rq .getspecMem], ?_, by simp [cb, rq, OutMsg.isSpec]⟩
    simp [specActions, run, controller, hfirst]
    simp [act, Ctx.issue, Ctx.send, hq, dequeue, cb, rq]

/-! ## Ports -/

theorem isTagPresent_of_lookup {e : Entry} (h : (c.cache k).lookup a = some e) :
    (c.cache k).isTagPresent a := by
  rw [CacheMemory.isTagPresent, h, Option.isSome_some]

theorem Inv.only_copy (hc : Inv c) {j : Kind} {e : Entry} (hj : (c.cache j).isTagPresent a)
    (hk : (c.cache k).lookup a = some e) : j = k := by
  obtain ⟨f, hf⟩ := isSome_iff_exists.mp hj
  exact inOneCache_iff.mp (hc.oneCache a) j k f e hf hk

/-- The entry of a trigger is the only copy of its line. -/
def Covers (c : Ctrl p) (t : Trigger) : Prop :=
  ∀ k e, (c.cache k).lookup t.addr = some e → t.entry = some k

theorem Inv.covers_replace (hc : Inv c) {t : Trigger} (h : c.replace k a = some t) :
    Covers c t := by
  obtain ⟨v, hv, rfl⟩ := map_eq_some_iff.mp h
  intro j e he
  obtain ⟨x, hx, rfl⟩ := map_eq_some_iff.mp hv
  have hplace := (c.cache k).placed _ _ _ hx
  have hlook : (c.cache k).lookup x.1 = some x.2 :=
    CacheMemory.lookup_eq_some_iff.mpr ⟨_, hplace.1 ▸ hx⟩
  rw [hc.only_copy (isTagPresent_of_lookup hlook) he]

theorem Inv.covers_access (hc : Inv c) {own other : Kind} (hne : ∀ k, k = own ∨ k = other)
    {eOther : Event} {t : Trigger} (h : c.access own other e eOther a = some t) : Covers c t := by
  unfold Ctrl.access at h
  split at h
  · next hown =>
    cases h
    intro k f hf
    exact congrArg some (hc.only_copy hown hf)
  · next hown =>
    split at h
    · next hother =>
      cases h
      intro k f hf
      exact congrArg some (hc.only_copy hother hf)
    · next hother =>
      split at h
      · cases h
        intro k f hf
        rcases hne k with rfl | rfl
        · exact absurd (isTagPresent_of_lookup hf) hown
        · exact absurd (isTagPresent_of_lookup hf) hother
      · exact hc.covers_replace h

theorem Inv.covers_holder (hc : Inv c) (e : Event) (a : Nat) :
    Covers c ⟨e, a, c.holder a⟩ := by
  intro k f hf
  have hk := isTagPresent_of_lookup hf
  unfold Ctrl.holder
  cases k with
  | dcache => exact if_pos hk
  | icache =>
    have hd : ¬ c.dcache.isTagPresent a = true := by
      intro hd
      exact absurd (hc.only_copy (j := .dcache) hd hf) (by decide)
    rw [if_neg hd]
    exact if_pos hk

theorem Inv.covers_trigger (hc : Inv c) {id : MachineID} {port : Port} {t : Trigger}
    (h : c.trigger id port = some t) : Covers c t ∨ t.event.isSpec := by
  have hdi : ∀ k : Kind, k = .dcache ∨ k = .icache := fun k => by cases k <;> simp
  have hid : ∀ k : Kind, k = .icache ∨ k = .dcache := fun k => by cases k <;> simp
  cases port with
  | mandatoryQueue =>
    obtain ⟨m, -, h⟩ := bind_eq_some_iff.mp h
    rcases m with ⟨a, ty, idx⟩
    cases ty with
    | specLdL0 | specLdL1 | specLdMem | specLdPerfect | specLdPerfectUnsafe =>
      cases h
      exact Or.inr rfl
    | ifetch => exact Or.inl (hc.covers_access hid h)
    | ld | st | specLd | expose => exact Or.inl (hc.covers_access hdi h)
  | requestL1Network | responseL1Network =>
    obtain ⟨m, -, h⟩ := bind_eq_some_iff.mp h
    obtain ⟨e, -, rfl⟩ := map_eq_some_iff.mp h
    exact Or.inl (hc.covers_holder e m.addr)
  | optionalQueue =>
    obtain ⟨m, -, h⟩ := bind_eq_some_iff.mp h
    obtain ⟨e, -, h⟩ := bind_eq_some_iff.mp h
    left
    split at h
    · exact hc.covers_access hid h
    · exact hc.covers_access hdi h

/-- Serving a message keeps the invariant and sends well-formed messages. -/
theorem Inv.wakeup {d : Ctrl p} {id : MachineID} {port : Port} {out : List OutMsg} (hc : Inv c)
    (hid : id.isL1Cache) (h : c.wakeup id port = some (d, out)) :
    Inv d ∧ ∀ o ∈ out, o.Ok := by
  obtain ⟨t, ht, h⟩ := bind_eq_some_iff.mp h
  obtain ⟨z, hz, heq⟩ := map_eq_some_iff.mp h
  cases heq
  have hg : Good (c.context id port t) := fun o ho => nomatch ho
  rcases hc.covers_trigger ht with hcov | hspec
  · exact Inv.transition (x := c.context id port t) hc ⟨rfl, hcov⟩ hid hg hz
  · obtain ⟨hv, hgood⟩ := spec_transition (x := c.context id port t) hc hspec hz
    exact ⟨hc.of_sameLines hv.lines, hgood hid hg⟩

theorem Inv.stateOf_ne_X (hc : Inv x.ctrl) : stateOf x ≠ .X := by
  cases ht : x.theTBE with
  | some t =>
    have htbe : x.ctrl.tbes x.addr = some t := by
      cases hx : x.tbe <;> simp [Ctx.theTBE, hx] at ht
      exact ht
    simpa [stateOf, ht] using hc.tbe_ne_X _ t htbe
  | none =>
    cases he : x.cacheEntry with
    | none => simp [stateOf, ht, he]
    | some e =>
      obtain ⟨k, -, hke⟩ := bind_eq_some_iff.mp he
      simpa [stateOf, ht, he] using hc.entry_ne_X k _ e hke

theorem Inv.entry_of_isHit (hc : Inv x.ctrl) (ht : x.tbe = (x.ctrl.tbes x.addr).isSome)
    (h : (stateOf x).isHit) :
    ∃ e, x.cacheEntry = some e := by
  have hno : x.theTBE = none := by simp [Ctx.theTBE, tbe_of_isHit hc ht h]
  cases he : x.cacheEntry with
  | none => simp [stateOf, hno, he, State.isHit] at h
  | some e => exact ⟨e, rfl⟩

/-- An oblivious load is taken off the queue and answered, and nothing else. -/
theorem Inv.spec_wakeup (hc : Inv c) (id : MachineID) {m : RubyRequest} {q : List RubyRequest}
    (hq : c.mandatoryQueue.queue = m :: q)
    (hm : m.type ∈ [RubyRequestType.specLdL0, .specLdL1, .specLdMem]) :
    ∃ out, c.wakeup id .mandatoryQueue =
        some ({ c with mandatoryQueue := { c.mandatoryQueue with queue := q } }, out) ∧
      ∀ o ∈ out, o.isSpec := by
  obtain ⟨e, t, he, hev, htr⟩ : ∃ e t, e ∈ [Event.SpecLoad_L0, .SpecLoad_L1, .SpecLoad_Mem] ∧
      t.event = e ∧ c.trigger id .mandatoryQueue = some t := by
    simp only [mem_cons, not_mem_nil, or_false] at hm
    rcases m with ⟨a, ty, idx⟩
    rcases hm with rfl | rfl | rfl
    · exact ⟨.SpecLoad_L0, _, by simp, rfl, by simp [Ctrl.trigger, hq, Ctrl.mandatoryQueueIn]; rfl⟩
    · exact ⟨.SpecLoad_L1, _, by simp, rfl, by simp [Ctrl.trigger, hq, Ctrl.mandatoryQueueIn]; rfl⟩
    · exact ⟨.SpecLoad_Mem, _, by simp, rfl, by simp [Ctrl.trigger, hq, Ctrl.mandatoryQueueIn]; rfl⟩
  generalize hx : c.context id .mandatoryQueue t = x
  have hxc : x.ctrl = c := by rw [← hx]; rfl
  have hinv : Inv x.ctrl := hxc ▸ hc
  have hxt : x.tbe = (x.ctrl.tbes x.addr).isSome := by rw [← hx]; rfl
  have hxq : x.ctrl.mandatoryQueue.queue = m :: q := by rw [hxc, hq]
  obtain ⟨r, hrow, hnext, hacts⟩ := spec_row hinv.stateOf_ne_X he
  obtain ⟨out, hrun, hout⟩ := run_specActions hxq he (hinv.entry_of_isHit hxt)
  generalize hy : ({ x with
    ctrl := { x.ctrl with mandatoryQueue := { x.ctrl.mandatoryQueue with queue := q } }
    out := x.out ++ out } : Ctx p) = y at hrun
  have hv : SameView x y := by rw [← hy]; exact ⟨⟨rfl, rfl, rfl⟩, rfl, rfl, rfl⟩
  have hinvy : Inv y.ctrl := hinv.of_sameLines hv.lines
  have htrans : controller.transition x e = some y := by
    rw [Lib.Controller.transition_of_row (s := stateOf x) (if_pos (hinv.oneCache _)) hrow, hacts,
      hrun]
    change setState y (r.next.getD (stateOf x)) = some y
    rw [hnext, Option.getD_none, setState, if_pos (hinvy.oneCache _), ← hv.stateOf,
      putState_stateOf hinvy.agree_view]
  refine ⟨out, ?_, hout⟩
  have hxo : x.out = [] := by rw [← hx]; rfl
  simp only [Ctrl.wakeup, htr, Option.bind_some, hev, hx, htrans, Option.map_some]
  rw [← hy, hxc, hxo, nil_append]

end L1Cache

end SdoCore.Mesi
