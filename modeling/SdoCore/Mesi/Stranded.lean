import SdoCore.Mesi.SpecLoad
import SdoCore.Mesi.L1Waiting
import SdoCore.Mesi.L2Waiting
import SdoCore.Mesi.DirectoryWaiting

/-! No stalled request is stranded.

A message is set aside for a line in a state the line will leave, and the transition that brings the
line back to rest wakes the buffers registered under the ports below its own. For each controller
the rows of its table are checked against the ports a message may wait under (`waits`).

* `no_request_stranded`: a buffer with messages set aside for a line is registered for it and the
  line is not at rest, and a step that brings the line to rest puts them all back;
* `transactions_tracked`: which states of a line go with a TBE. -/

namespace SdoCore.Mesi

variable {P : SysParams}

def SysEvent.isPrefetch : SysEvent → Bool
  | .prefetch _ _ => true
  | _ => false

namespace Sys

/-- What a step does to each controller. -/
structure Moves (s s' : Sys P) : Prop where
  l1 : ∀ i, L1Cache.Moves (s.l1 i) (s'.l1 i)
  l2 : L2Cache.Moves s.l2 s'.l2
  dir : Directory.Moves s.dir s'.dir

end Sys

theorem L1Cache.Moves.refl {p : CacheParams} (c : L1Cache.Ctrl p) : L1Cache.Moves c c :=
  .buffers ⟨rfl, rfl, rfl⟩ ⟨rfl, fun _ => rfl⟩ rfl

theorem L2Cache.Moves.refl {p : CacheParams} (c : L2Cache.Ctrl p) : L2Cache.Moves c c :=
  .buffers rfl rfl ⟨rfl, fun _ => rfl⟩

theorem Directory.Moves.refl (c : Directory.Ctrl) : Directory.Moves c c :=
  .buffers rfl rfl ⟨rfl, fun _ => rfl⟩

namespace Sys

variable {s s' : Sys P} {src dst : MachineID}

theorem Moves.post (h : Moves s s') (src : MachineID) (out : List OutMsg) :
    Moves s (s'.post src out) := by
  obtain ⟨h1, h2, h3⟩ := s'.post_controllers src out
  exact ⟨h1 ▸ h.l1, h2 ▸ h.l2, h3 ▸ h.dir⟩

theorem Moves.ofL1 {i : Nat} {c : L1Cache.Ctrl P.l1} (hl1 : s'.l1 = Function.update s.l1 i c)
    (hl2 : s'.l2 = s.l2) (hdir : s'.dir = s.dir) (h : L1Cache.Moves (s.l1 i) c) : Moves s s' := by
  refine ⟨fun j => ?_, hl2 ▸ .refl _, hdir ▸ .refl _⟩
  rw [hl1]
  by_cases hj : j = i
  · subst hj
    simpa using h
  · simpa [hj] using L1Cache.Moves.refl (s.l1 j)

/-! ## What a step does -/

theorem moves_deliverRequest (h : s.deliverRequest src dst = some s') : Moves s s' := by
  unfold Sys.deliverRequest at h
  split at h
  · cases h
  · cases dst with
    | l2Cache =>
      cases h
      exact ⟨fun _ => .refl _, .buffers rfl rfl ⟨rfl, fun b => by cases b <;> rfl⟩, .refl _⟩
    | directory =>
      cases h
      exact ⟨fun _ => .refl _, .refl _, .buffers rfl rfl ⟨rfl, fun b => by cases b <;> rfl⟩⟩
    | l1Cache | dma => cases h

theorem moves_deliverResponse (h : s.deliverResponse src dst = some s') : Moves s s' := by
  unfold Sys.deliverResponse at h
  split at h
  · cases h
  · cases dst with
    | l1Cache i =>
      cases h
      exact .ofL1 rfl rfl rfl (.buffers ⟨rfl, rfl, rfl⟩ ⟨rfl, fun b => by cases b <;> rfl⟩ rfl)
    | l2Cache =>
      cases h
      exact ⟨fun _ => .refl _, .buffers rfl rfl ⟨rfl, fun b => by cases b <;> rfl⟩, .refl _⟩
    | directory =>
      cases h
      exact ⟨fun _ => .refl _, .refl _, .buffers rfl rfl ⟨rfl, fun b => by cases b <;> rfl⟩⟩
    | dma => cases h

theorem moves_deliverL1Request (h : s.deliverL1Request src dst = some s') : Moves s s' := by
  unfold Sys.deliverL1Request at h
  split at h
  · cases h
  · cases dst with
    | l1Cache i =>
      cases h
      exact .ofL1 rfl rfl rfl (.buffers ⟨rfl, rfl, rfl⟩ ⟨rfl, fun b => by cases b <;> rfl⟩ rfl)
    | l2Cache | directory | dma => cases h

theorem moves_deliverUnblock (h : s.deliverUnblock src dst = some s') : Moves s s' := by
  unfold Sys.deliverUnblock at h
  split at h
  · cases h
  · cases dst with
    | l2Cache =>
      cases h
      exact ⟨fun _ => .refl _, .buffers rfl rfl ⟨rfl, fun b => by cases b <;> rfl⟩, .refl _⟩
    | l1Cache | directory | dma => cases h

theorem recvTimingResp_moves (c : Directory.Ctrl) (r : MemoryRequest) (d : DataBlock) :
    Directory.Moves c (c.recvTimingResp r d) := by
  have hquiet : Desk.Quiet c.desk (c.recvTimingResp r d).desk := by
    unfold Directory.Ctrl.recvTimingResp
    split
    · exact ⟨rfl, fun b => by cases b <;> rfl⟩
    split
    · exact ⟨rfl, fun b => by cases b <;> rfl⟩
    · split <;> exact ⟨rfl, fun b => by cases b <;> rfl⟩
  exact .buffers (recvTimingResp_rest c r d).1 (recvTimingResp_rest c r d).2.1 hquiet

theorem step_moves {e : SysEvent} (he : e.isPrefetch = false) (h : s.step e = some s') :
    Moves s s' := by
  cases e with
  | core i m d =>
    simp only [Sys.step, Option.ite_none_right_eq_some, Option.some.injEq] at h
    rw [← h.2]
    exact .ofL1 rfl rfl rfl (.buffers ⟨rfl, rfl, rfl⟩ ⟨rfl, fun b => by cases b <;> rfl⟩ rfl)
  | prefetch i m => cases he
  | l1 i port =>
    simp only [Sys.step, Option.ite_none_right_eq_some] at h
    obtain ⟨⟨c, out⟩, hc, rfl⟩ := Option.map_eq_some_iff.mp h.2
    have hm : Moves s (s.setL1 i c) := .ofL1 rfl rfl rfl (.wakeup hc)
    exact hm.post _ out
  | l2 port =>
    obtain ⟨⟨c, out⟩, hc, rfl⟩ := Option.map_eq_some_iff.mp h
    have hm : Moves s { s with l2 := c } := ⟨fun _ => .refl _, .wakeup hc, .refl _⟩
    exact hm.post _ out
  | dir port =>
    obtain ⟨⟨c, out⟩, hc, rfl⟩ := Option.map_eq_some_iff.mp h
    have hm : Moves s { s with dir := c } := ⟨fun _ => .refl _, .refl _, .wakeup hc⟩
    exact hm.post _ out
  | deliverRequest src dst => exact moves_deliverRequest h
  | deliverResponse src dst => exact moves_deliverResponse h
  | deliverL1Request src dst => exact moves_deliverL1Request h
  | deliverUnblock src dst => exact moves_deliverUnblock h
  | memory k =>
    obtain ⟨r, -, rfl⟩ := Option.map_eq_some_iff.mp h
    split <;> exact ⟨fun _ => .refl _, .refl _, recvTimingResp_moves _ _ _⟩

/-! ## The invariant -/

structure Kept (s : Sys P) : Prop where
  l1 : ∀ i, L1Cache.Kept (s.l1 i)
  l2 : L2Cache.Kept s.l2
  dir : Directory.Kept s.dir

/-- In every controller. -/
structure NoneStranded (s : Sys P) : Prop where
  l1 : ∀ i, (s.l1 i).desk.NoneStranded fun a => ((s.l1 i).lineState a).resting
  l2 : s.l2.desk.NoneStranded fun a => (s.l2.lineState a).resting
  dir : s.dir.desk.NoneStranded fun a => (s.dir.lineState a).resting

structure Requeued (s s' : Sys P) : Prop where
  l1 : ∀ i, (s.l1 i).desk.Requeued (s'.l1 i).desk fun a => ((s'.l1 i).lineState a).resting
  l2 : s.l2.desk.Requeued s'.l2.desk fun a => (s'.l2.lineState a).resting
  dir : s.dir.desk.Requeued s'.dir.desk fun a => (s'.dir.lineState a).resting

theorem Kept.noneStranded (h : s.Kept) : s.NoneStranded :=
  ⟨fun i => (h.l1 i).noneStranded, h.l2.noneStranded, h.dir.noneStranded⟩

theorem Kept.step (hs : s.Inv) (h : s.Kept) (hm : Moves s s') :
    s'.Kept ∧ s.Requeued s' := by
  have h1 (i : Nat) := (h.l1 i).moves (hs.l1 i) (hm.l1 i)
  have h2 := h.l2.moves hm.l2
  have h3 := h.dir.moves hs.dir hm.dir
  have hk : s'.Kept := ⟨fun i => (h1 i).1, h2.1, h3.1⟩
  exact ⟨hk, fun i => (h1 i).2.requeued (hk.l1 i).noneStranded, h2.2.requeued hk.l2.noneStranded,
    h3.2.requeued hk.dir.noneStranded⟩

theorem Start.kept (hs : s.Start) : s.Kept := by
  refine ⟨fun i => ?_, ?_, ?_⟩
  · obtain ⟨rd, ri, ev, sw, h⟩ := hs.l1 i
    rw [h]
    refine ⟨⟨fun a t ht => (by cases ht), fun k a e he => ?_⟩, fun a b hb => ?_, rfl⟩
    · cases k <;> exact absurd he (by simp [L1Cache.Ctrl.cache])
    · cases b <;> exact absurd rfl hb
  · obtain ⟨r, h⟩ := hs.l2
    rw [h]
    refine ⟨⟨fun a t ht => (by cases ht), fun a e he => ?_⟩, fun a b hb => ?_⟩
    · exact absurd he (by simp)
    · cases b <;> exact absurd rfl hb
  · obtain ⟨sb, ml, h⟩ := hs.dir
    rw [h]
    intro a b hb
    cases b <;> exact absurd rfl hb

end Sys

theorem kept_of_reach {s : Sys P}
    (h : (sysMachine P).ReachWhen (fun _ e => e.isPrefetch = false) s) : s.Inv ∧ s.Kept :=
  Lib.Machine.ReachWhen.invariant (I := fun s => s.Inv ∧ s.Kept)
    (fun _ hs => ⟨Sys.Start.inv hs, Sys.Start.kept hs⟩)
    (fun _ _ _ hs he hstep =>
      ⟨hs.1.step hstep, (hs.2.step hs.1 (Sys.step_moves he hstep)).1⟩) h

/-- As long as nothing is prefetched, what is set aside for a line is registered, the line is not at
rest, and a step that brings it to rest puts everything that waits back in its queue. -/
theorem no_request_stranded {s : Sys P}
    (h : (sysMachine P).ReachWhen (fun _ e => e.isPrefetch = false) s) :
    s.NoneStranded ∧ ∀ e s', e.isPrefetch = false → s.step e = some s' → s.Requeued s' := by
  obtain ⟨hinv, hkept⟩ := kept_of_reach h
  exact ⟨hkept.noneStranded, fun e s' he hs => (hkept.step hinv (Sys.step_moves he hs)).2⟩

/-- A store is set aside while the line is fetched for a load. -/
def loadThenStore : List SysEvent :=
  [.core 0 ⟨0, .ld, -1⟩ 0, .l1 0 .mandatoryQueue, .core 0 ⟨0, .st, -1⟩ 7, .l1 0 .mandatoryQueue]

theorem no_request_stranded_store : ∃ s : Sys smallSystem,
    ((s.l1 0).mandatoryQueue.stallMap 0).length = 1 ∧ s.NoneStranded ∧
      ∀ e s', e.isPrefetch = false → s.step e = some s' → s.Requeued s' :=
  ⟨((sysMachine smallSystem).run coldSystem loadThenStore).getD coldSystem, by decide +kernel,
    no_request_stranded (.run (.start coldSystem_start) loadThenStore (by decide +kernel)
      (Lib.Machine.run_getD (by decide +kernel)))⟩

/-- The assertions of `getState` and `setState` hold: a line is in one of the caches of an L1 at
most, and a TBE and a cache entry for a line agree on its state. An L1 holds a TBE for a line
exactly while the line is not at rest, the L2 exactly while it is neither at rest nor in one of
the blocking states `SS_MB`, `MT_MB`, `MT_IIB`, `MT_IB` and `MT_SB`. Without DMA the directory holds
none, not even in the states that wait for memory. -/
theorem transactions_tracked {s : Sys P}
    (h : (sysMachine P).ReachWhen (fun _ e => e.isPrefetch = false) s) (a : Nat) :
    (∀ i, (s.l1 i).inOneCache a = true ∧
      ((s.l1 i).tbes a).isNone = ((s.l1 i).lineState a).resting ∧
      ∀ t k e, (s.l1 i).tbes a = some t → ((s.l1 i).cache k).lookup a = some e →
        e.cacheState = t.tbeState) ∧
    ((s.l2.tbes a).isNone = (s.l2.lineState a).noTBE ∧
      ∀ t e, s.l2.tbes a = some t → s.l2.cache.lookup a = some e → e.cacheState = t.tbeState) ∧
    s.dir.tbes a = none ∧ (s.dir.lineState a).isDMA = false := by
  obtain ⟨hinv, hkept⟩ := kept_of_reach h
  refine ⟨fun i => ⟨(hinv.l1 i).oneCache a, ?_, (hinv.l1 i).agree a⟩, ⟨?_, hinv.l2.agree a⟩,
    hinv.dir.noTBE a, ?_⟩
  · exact ((hkept.l1 i).settled.lineState a).symm
  · have hs := L2Cache.context_synced s.l2 .l1Request a
    have htbe := hs.tbe.symm.trans (L2Cache.Settled.tbe_eq hkept.l2.settled hs)
    rw [← Option.not_isSome]
    exact (congrArg not htbe).trans (Bool.not_not _)
  · rw [hinv.dir.lineState]
    exact hinv.dir.noDMA a

theorem transactions_tracked_store : ∃ s : Sys smallSystem,
    ((s.l1 0).lineState 0).resting = false ∧ (s.l1 0).inOneCache 0 = true :=
  ⟨((sysMachine smallSystem).run coldSystem loadThenStore).getD coldSystem, by decide +kernel,
    ((transactions_tracked (.run (.start coldSystem_start) loadThenStore (by decide +kernel)
      (Lib.Machine.run_getD (by decide +kernel))) 0).1 0).1⟩

end SdoCore.Mesi
