import SdoCore.Mesi.System
import SdoCore.Mesi.L1Invariant
import SdoCore.Mesi.L2Invariant
import SdoCore.Mesi.DirectoryInvariant

/-! Oblivious loads and the cache hierarchy.

`SPEC_LD_L0`, `SPEC_LD_L1` and `SPEC_LD_Mem` requests at an L1, `GETSPEC_L2` and
`GETSPEC_Mem` requests at the L2 and `GETSPEC_Mem` requests at the directory are
meant to be answered without a trace: tags, coherence states, sharers, replacement
state and TBEs stay as they are.

* `inv_of_reach`: what the controllers keep, in every reachable state;
* `spec_load_no_trace`: a request leaves no trace exactly when the L2 holds its line
  or has a free way for it, and its core is one the directory's buffer has room for;
* `spec_load_evicts`: in a full set the L2 evicts another line before it looks at
  the kind of request. -/

namespace SdoCore.Mesi

open List
open Option (map_eq_some_iff)

variable {P : SysParams}

/-! ## Reachable states -/

structure Sys.Inv (s : Sys P) : Prop where
  l1 : ∀ i, L1Cache.Inv (s.l1 i)
  l2 : L2Cache.Inv s.l2
  dir : Directory.Inv s.dir
  net : ∀ src dst, ∀ m ∈ s.net.request src dst, m.Ok dst

namespace Sys

theorem post_controllers (s : Sys P) (src : MachineID) (out : List OutMsg) :
    (s.post src out).l1 = s.l1 ∧ (s.post src out).l2 = s.l2 ∧ (s.post src out).dir = s.dir := by
  induction out generalizing s with
  | nil => exact ⟨rfl, rfl, rfl⟩
  | cons o out ih =>
    have hone : (s.postOne src o).l1 = s.l1 ∧ (s.postOne src o).l2 = s.l2 ∧
        (s.postOne src o).dir = s.dir := by
      cases o <;> exact ⟨rfl, rfl, rfl⟩
    obtain ⟨h1, h2, h3⟩ := ih (s.postOne src o)
    exact ⟨h1.trans hone.1, h2.trans hone.2.1, h3.trans hone.2.2⟩

variable {s s' : Sys P} {src dst : MachineID}

theorem post_net {out : List OutMsg} (hout : ∀ o ∈ out, o.Ok)
    (hs : ∀ a b, ∀ m ∈ s.net.request a b, m.Ok b) :
    ∀ a b, ∀ m ∈ (s.post src out).net.request a b, m.Ok b := by
  induction out generalizing s with
  | nil => exact hs
  | cons o out ih =>
    refine ih (s := s.postOne src o) (fun o' ho' => hout o' (mem_cons_of_mem _ ho')) ?_
    cases o with
    | request dst m =>
      intro a b m' hm'
      have hm : ∀ d ∈ dst, m.Ok d := hout _ mem_cons_self
      simp only [postOne, Link.send] at hm'
      split at hm'
      · next hab =>
        rcases mem_append.mp hm' with hm' | hm'
        · exact hs a b m' hm'
        · rw [mem_singleton.mp hm']
          exact hm b hab.2
      · exact hs a b m' hm'
    | response | l1Request | unblock | callback | memory => exact hs

section
variable (hs : s.Inv)
include hs

theorem Inv.post {out : List OutMsg} (hout : ∀ o ∈ out, o.Ok) : (s.post src out).Inv := by
  obtain ⟨h1, h2, h3⟩ := s.post_controllers src out
  exact ⟨h1 ▸ hs.l1, h2 ▸ hs.l2, h3 ▸ hs.dir, post_net hout hs.net⟩

theorem Inv.setL1 (i : Nat) {c : L1Cache.Ctrl P.l1} (hc : L1Cache.Inv c) : (s.setL1 i c).Inv := by
  refine ⟨fun j => ?_, hs.l2, hs.dir, hs.net⟩
  by_cases hj : j = i
  · subst hj
    simpa [Sys.setL1] using hc
  · simpa [Sys.setL1, hj] using hs.l1 j

/-- An L1 that differs in its buffers only. -/
theorem Inv.bufferL1 (i : Nat) {c : L1Cache.Ctrl P.l1}
    (hc : L1Cache.Local.SameLines (s.l1 i) c) : (s.setL1 i c).Inv :=
  hs.setL1 i ((hs.l1 i).of_sameLines hc)

theorem Inv.pop (src dst : MachineID) :
    { s with net := { s.net with request := s.net.request.pop src dst } }.Inv := by
  refine ⟨hs.l1, hs.l2, hs.dir, fun a b m hm => ?_⟩
  simp only [Link.pop] at hm
  split at hm
  · exact hs.net a b m (mem_of_mem_tail hm)
  · exact hs.net a b m hm

theorem Inv.deliverRequest (h : s.deliverRequest src dst = some s') : s'.Inv := by
  unfold Sys.deliverRequest at h
  split at h
  · cases h
  rename_i m rest hm
  have hok : m.Ok dst := hs.net src dst m (by rw [hm]; exact mem_cons_self)
  have hp := hs.pop src dst
  cases dst with
  | l2Cache =>
    cases h
    exact ⟨hp.l1, ⟨hp.l2.agree, hp.l2.busy, hp.l2.requests.enqueue hok⟩, hp.dir, hp.net⟩
  | directory =>
    cases h
    exact ⟨hp.l1, hp.l2, ⟨hp.dir.noTBE, hp.dir.noDMA, hp.dir.requests.enqueue hok⟩, hp.net⟩
  | l1Cache | dma => cases h

theorem Inv.deliverResponse (h : s.deliverResponse src dst = some s') : s'.Inv := by
  unfold Sys.deliverResponse at h
  split at h
  · cases h
  have hp : { s with net := { s.net with response := s.net.response.pop src dst } }.Inv :=
    { hs with }
  cases dst with
  | l1Cache i =>
    cases h
    exact hp.bufferL1 i ⟨rfl, rfl, rfl⟩
  | l2Cache =>
    cases h
    exact ⟨hp.l1, { hp.l2 with }, hp.dir, hp.net⟩
  | directory =>
    cases h
    exact ⟨hp.l1, hp.l2, { hp.dir with }, hp.net⟩
  | dma => cases h

theorem Inv.deliverL1Request (h : s.deliverL1Request src dst = some s') : s'.Inv := by
  unfold Sys.deliverL1Request at h
  split at h
  · cases h
  have hp : { s with net := { s.net with l1Request := s.net.l1Request.pop src dst } }.Inv :=
    { hs with }
  cases dst with
  | l1Cache i =>
    cases h
    exact hp.bufferL1 i ⟨rfl, rfl, rfl⟩
  | l2Cache | directory | dma => cases h

theorem Inv.deliverUnblock (h : s.deliverUnblock src dst = some s') : s'.Inv := by
  unfold Sys.deliverUnblock at h
  split at h
  · cases h
  · cases dst with
    | l2Cache =>
      cases h
      exact ⟨hs.l1, { hs.l2 with }, hs.dir, hs.net⟩
    | l1Cache | directory | dma => cases h

end

theorem recvTimingResp_rest (c : Directory.Ctrl) (r : MemoryRequest) (d : DataBlock) :
    (c.recvTimingResp r d).entries = c.entries ∧ (c.recvTimingResp r d).tbes = c.tbes ∧
      (c.recvTimingResp r d).requestIn = c.requestIn := by
  unfold Directory.Ctrl.recvTimingResp
  split
  · exact ⟨rfl, rfl, rfl⟩
  split
  · exact ⟨rfl, rfl, rfl⟩
  · split <;> exact ⟨rfl, rfl, rfl⟩

theorem Inv.serveMemory {k : Nat} (hs : s.Inv) (h : s.serveMemory k = some s') :
    s'.Inv := by
  obtain ⟨r, -, rfl⟩ := map_eq_some_iff.mp h
  have hdir : ∀ d, Directory.Inv (s.dir.recvTimingResp r d) := by
    intro d
    obtain ⟨h1, h2, h3⟩ := recvTimingResp_rest s.dir r d
    exact ⟨h2 ▸ hs.dir.noTBE, h1 ▸ hs.dir.noDMA, h3 ▸ hs.dir.requests⟩
  split
  · exact ⟨hs.l1, hs.l2, hdir 0, hs.net⟩
  · exact ⟨hs.l1, hs.l2, hdir _, hs.net⟩

theorem Inv.step {e : SysEvent} (hs : s.Inv) (h : s.step e = some s') : s'.Inv := by
  cases e with
  | core i m d =>
    simp only [Sys.step, Option.ite_none_right_eq_some, Option.some.injEq] at h
    rw [← h.2]
    exact hs.bufferL1 i ⟨rfl, rfl, rfl⟩
  | prefetch i m =>
    simp only [Sys.step, Option.ite_none_right_eq_some, Option.some.injEq] at h
    rw [← h.2]
    exact hs.bufferL1 i ⟨rfl, rfl, rfl⟩
  | l1 i port =>
    simp only [Sys.step, Option.ite_none_right_eq_some] at h
    obtain ⟨⟨c, out⟩, hc, rfl⟩ := map_eq_some_iff.mp h.2
    obtain ⟨hi, hout⟩ := (hs.l1 i).wakeup rfl hc
    exact (hs.setL1 i hi).post hout
  | l2 port =>
    obtain ⟨⟨c, out⟩, hc, rfl⟩ := map_eq_some_iff.mp h
    obtain ⟨hi, hout⟩ := hs.l2.wakeup hc
    exact Inv.post (s := { s with l2 := c }) { hs with l2 := hi } hout
  | dir port =>
    obtain ⟨⟨c, out⟩, hc, rfl⟩ := map_eq_some_iff.mp h
    obtain ⟨hi, hout⟩ := hs.dir.wakeup hc
    exact Inv.post (s := { s with dir := c }) { hs with dir := hi } hout
  | deliverRequest src dst => exact hs.deliverRequest h
  | deliverResponse src dst => exact hs.deliverResponse h
  | deliverL1Request src dst => exact hs.deliverL1Request h
  | deliverUnblock src dst => exact hs.deliverUnblock h
  | memory k => exact hs.serveMemory h

theorem Start.inv (hs : s.Start) : s.Inv := by
  refine ⟨fun i => ?_, ?_, ?_, ?_⟩
  · obtain ⟨rd, ri, ev, sw, h⟩ := hs.l1 i
    have hlook : ∀ k a, ((s.l1 i).cache k).lookup a = none := by
      intro k a
      rw [h]
      cases k <;> simp [L1Cache.Ctrl.cache]
    have htbe : ∀ a, (s.l1 i).tbes a = none := by
      intro a
      rw [h]
    refine ⟨fun a => L1Cache.inOneCache_iff.mpr fun j k e f hj => ?_, fun a t k e ht => ?_,
      fun a t ht => ?_, fun a t ht => ?_, fun k a e he => ?_⟩
    · rw [hlook] at hj; cases hj
    · rw [htbe] at ht; cases ht
    · rw [htbe] at ht; cases ht
    · rw [htbe] at ht; cases ht
    · rw [hlook] at he; cases he
  · obtain ⟨r, h⟩ := hs.l2
    rw [h]
    refine ⟨fun a t e ht => ?_, fun a t ht => ?_, MessageBuffer.All.empty⟩ <;> cases ht
  · obtain ⟨sb, ml, h⟩ := hs.dir
    rw [h]
    exact ⟨fun _ => rfl, fun _ => rfl, MessageBuffer.All.empty⟩
  · intro src dst m hm
    rw [hs.net] at hm
    cases hm

end Sys

theorem inv_of_reach {s : Sys P} (h : (sysMachine P).Reach s) : s.Inv :=
  Lib.Machine.ReachWhen.invariant (I := Sys.Inv) (fun _ hs => Sys.Start.inv hs)
    (fun _ _ _ hs _ he => Sys.Inv.step hs he) h

/-! ## Oblivious requests -/

/-- The event serves an oblivious request. -/
def Sys.SpecRequest (s : Sys P) : SysEvent → Prop
  | .l1 i .mandatoryQueue => i < P.numL1 ∧ ∃ m, (s.l1 i).mandatoryQueue.queue.head? = some m ∧
      m.type ∈ [RubyRequestType.specLdL0, .specLdL1, .specLdMem]
  | .l2 .l1Request => ∃ m, s.l2.requestIn.queue.head? = some m ∧
      m.type ∈ [CoherenceRequestType.getspecL2, .getspecMem]
  | .dir .requestNetwork => ∃ m, s.dir.requestIn.queue.head? = some m ∧ m.type = .getspecMem
  | _ => False

/-- No tag, coherence state, sharer, owner, replacement state or TBE differs. -/
structure Sys.SameCaches (s t : Sys P) : Prop where
  l1 : ∀ i, (t.l1 i).dcache = (s.l1 i).dcache ∧ (t.l1 i).icache = (s.l1 i).icache ∧
    (t.l1 i).tbes = (s.l1 i).tbes
  l2 : t.l2.cache = s.l2.cache ∧ t.l2.tbes = s.l2.tbes
  dir : t.dir.entries = s.dir.entries ∧ t.dir.tbes = s.dir.tbes

/-- All that happens is that the request is taken off its queue and oblivious
messages are sent; the directory notes the hit flag of its memory read. -/
def Sys.OnlyAnswers (s t : Sys P) : SysEvent → Prop
  | .l1 i .mandatoryQueue => ∃ q out, (s.l1 i).mandatoryQueue.dequeue = some q ∧
      (∀ o ∈ out, o.isSpec = true) ∧
      t = (s.setL1 i { s.l1 i with mandatoryQueue := q }).post (.l1Cache i) out
  | .l2 .l1Request => ∃ q out, s.l2.requestIn.dequeue = some q ∧ (∀ o ∈ out, o.isSpec = true) ∧
      t = { s with l2 := { s.l2 with requestIn := q } }.post .l2Cache out
  | .dir .requestNetwork => ∃ q b out, s.dir.requestIn.dequeue = some q ∧
      (∀ o ∈ out, o.isSpec = true) ∧
      t = { s with dir := { s.dir with requestIn := q, specBuf := b } }.post .directory out
  | _ => False

/-- The L2 has the line or room for it; the directory's buffer has room for the core. -/
def Sys.Admits (s : Sys P) : SysEvent → Prop
  | .l2 .l1Request => ∀ m, s.l2.requestIn.queue.head? = some m →
      (s.l2.cache.lookup m.addr).isSome = true ∨ s.l2.cache.cacheAvail m.addr = true
  | .dir .requestNetwork => ∀ m, s.dir.requestIn.queue.head? = some m → m.origin.num < 8
  | _ => True

theorem Sys.OnlyAnswers.sameCaches {s t : Sys P} {e : SysEvent} (h : s.OnlyAnswers t e) :
    s.SameCaches t := by
  cases e with
  | l1 i port =>
    cases port with
    | mandatoryQueue =>
      obtain ⟨q, out, -, -, rfl⟩ := h
      obtain ⟨h1, h2, h3⟩ := Sys.post_controllers
        (s.setL1 i { s.l1 i with mandatoryQueue := q }) (.l1Cache i) out
      refine ⟨fun j => ?_, by rw [h2]; exact ⟨rfl, rfl⟩, by rw [h3]; exact ⟨rfl, rfl⟩⟩
      rw [h1]
      by_cases hj : j = i
      · subst hj
        simp [Sys.setL1]
      · simp [Sys.setL1, hj]
    | requestL1Network | responseL1Network | optionalQueue => exact h.elim
  | l2 port =>
    cases port with
    | l1Request =>
      obtain ⟨q, out, -, -, rfl⟩ := h
      obtain ⟨h1, h2, h3⟩ := Sys.post_controllers
        { s with l2 := { s.l2 with requestIn := q } } .l2Cache out
      exact ⟨fun j => by rw [h1]; exact ⟨rfl, rfl, rfl⟩, by rw [h2]; exact ⟨rfl, rfl⟩,
        by rw [h3]; exact ⟨rfl, rfl⟩⟩
    | response | l1Unblock => exact h.elim
  | dir port =>
    cases port with
    | requestNetwork =>
      obtain ⟨q, b, out, -, -, rfl⟩ := h
      obtain ⟨h1, h2, h3⟩ := Sys.post_controllers
        { s with dir := { s.dir with requestIn := q, specBuf := b } } .directory out
      exact ⟨fun j => by rw [h1]; exact ⟨rfl, rfl, rfl⟩, by rw [h2]; exact ⟨rfl, rfl⟩,
        by rw [h3]; exact ⟨rfl, rfl⟩⟩
    | responseNetwork | memQueue => exact h.elim
  | core | prefetch | deliverRequest | deliverResponse | deliverL1Request | deliverUnblock
  | memory => exact h.elim

/-! ## What serving a request does -/

namespace Sys

theorem Inv.spec_l1 {s : Sys P} (hs : s.Inv) {i : Nat} (hi : i < P.numL1) {m : RubyRequest}
    (hm : (s.l1 i).mandatoryQueue.queue.head? = some m)
    (ht : m.type ∈ [RubyRequestType.specLdL0, .specLdL1, .specLdMem]) :
    ∃ t, s.step (.l1 i .mandatoryQueue) = some t ∧ s.OnlyAnswers t (.l1 i .mandatoryQueue) := by
  obtain ⟨q, hq⟩ := head?_eq_some_iff.mp hm
  obtain ⟨out, hw, hout⟩ := (hs.l1 i).spec_wakeup (.l1Cache i) hq ht
  exact ⟨_, by rw [Sys.step, if_pos hi, hw]; rfl, _, out, MessageBuffer.dequeue_of_queue hq, hout,
    rfl⟩

theorem Inv.spec_l2 {s : Sys P} (hs : s.Inv) {m : RequestMsg}
    (hm : s.l2.requestIn.queue.head? = some m)
    (ht : m.type ∈ [CoherenceRequestType.getspecL2, .getspecMem])
    (hroom : s.Admits (.l2 .l1Request)) :
    ∃ t, s.step (.l2 .l1Request) = some t ∧ s.OnlyAnswers t (.l2 .l1Request) := by
  obtain ⟨q, hq⟩ := head?_eq_some_iff.mp hm
  obtain ⟨out, hw, hout⟩ := hs.l2.spec_wakeup hq (by simpa using ht) (hroom m hm)
  exact ⟨_, by rw [Sys.step, hw]; rfl, _, out, MessageBuffer.dequeue_of_queue hq, hout, rfl⟩

theorem Inv.spec_dir {s : Sys P} (hs : s.Inv) {m : RequestMsg}
    (hm : s.dir.requestIn.queue.head? = some m) (ht : m.type = .getspecMem)
    (hcore : s.Admits (.dir .requestNetwork)) :
    ∃ t, s.step (.dir .requestNetwork) = some t ∧ s.OnlyAnswers t (.dir .requestNetwork) := by
  obtain ⟨q, hq⟩ := head?_eq_some_iff.mp hm
  obtain ⟨b, out, hw, hout⟩ := hs.dir.spec_wakeup hq ht (hcore m hm)
  exact ⟨_, by rw [Sys.step, hw]; rfl, _, b, out, MessageBuffer.dequeue_of_queue hq, hout, rfl⟩

/-- A request that finds its set full is not answered. -/
theorem admits_of_l2 {s t : Sys P} (h : s.step (.l2 .l1Request) = some t)
    (ha : s.OnlyAnswers t (.l2 .l1Request)) : s.Admits (.l2 .l1Request) := by
  intro m hm
  by_contra hroom
  obtain ⟨⟨c, out⟩, hc, rfl⟩ := map_eq_some_iff.mp h
  obtain ⟨q, out', hq, -, heq⟩ := ha
  have hreq : c.requestIn = q := by
    have hl2 := congrArg Sys.l2 heq
    rw [(post_controllers _ _ _).2.1, (post_controllers _ _ _).2.1] at hl2
    exact congrArg L2Cache.Ctrl.requestIn hl2
  rcases L2Cache.wakeup_full hm hroom hc with hsame | ⟨a, hstall⟩
  · exact MessageBuffer.dequeue_ne_self hq (hreq ▸ hsame)
  · exact MessageBuffer.dequeue_ne_stallMessage hq hstall hreq.symm

theorem Inv.admits_of_dir {s t : Sys P} (hs : s.Inv) {m : RequestMsg}
    (hm : s.dir.requestIn.queue.head? = some m) (ht : m.type = .getspecMem)
    (h : s.step (.dir .requestNetwork) = some t) : s.Admits (.dir .requestNetwork) := by
  intro m' hm'
  obtain rfl : m = m' := Option.some.inj (hm.symm.trans hm')
  by_contra hcore
  obtain ⟨q, hq⟩ := head?_eq_some_iff.mp hm
  simp only [Sys.step, hs.dir.spec_wakeup_none hq ht hcore, Option.map_none] at h
  cases h

end Sys

/-- An oblivious request leaves no trace exactly when the L2 has its line or a free
way for it, and the directory's buffer a row for its core. -/
theorem spec_load_no_trace {s : Sys P} (h : (sysMachine P).Reach s) {e : SysEvent}
    (he : s.SpecRequest e) :
    (∃ t, s.step e = some t ∧ s.SameCaches t ∧ s.OnlyAnswers t e) ↔ s.Admits e := by
  have hs := inv_of_reach h
  have hans : (∃ t, s.step e = some t ∧ s.SameCaches t ∧ s.OnlyAnswers t e) ↔
      ∃ t, s.step e = some t ∧ s.OnlyAnswers t e :=
    ⟨fun ⟨t, ht, _, ha⟩ => ⟨t, ht, ha⟩, fun ⟨t, ht, ha⟩ => ⟨t, ht, ha.sameCaches, ha⟩⟩
  rw [hans]
  cases e with
  | l1 i port =>
    cases port with
    | mandatoryQueue =>
      obtain ⟨hi, m, hm, ht⟩ := he
      exact iff_of_true (hs.spec_l1 hi hm ht) trivial
    | requestL1Network | responseL1Network | optionalQueue => exact he.elim
  | l2 port =>
    cases port with
    | l1Request =>
      obtain ⟨m, hm, ht⟩ := he
      exact ⟨fun ⟨t, hst, ha⟩ => Sys.admits_of_l2 hst ha, hs.spec_l2 hm ht⟩
    | response | l1Unblock => exact he.elim
  | dir port =>
    cases port with
    | requestNetwork =>
      obtain ⟨m, hm, ht⟩ := he
      exact ⟨fun ⟨t, hst, _⟩ => hs.admits_of_dir hm ht hst, hs.spec_dir hm ht⟩
    | responseNetwork | memQueue => exact he.elim
  | core | prefetch | deliverRequest | deliverResponse | deliverL1Request | deliverUnblock
  | memory => exact he.elim

/-! ## A full set

One core, L1 caches of four sets and an L2 with a single way. -/

def onlyWay : ReplacementPolicy := ⟨Unit, fun _ _ _ => (), fun _ _ => 0⟩

def smallSystem : SysParams := ⟨1, ⟨4, 1, onlyWay⟩, ⟨1, 1, onlyWay⟩⟩

def coldSystem : Sys smallSystem where
  l1 := fun _ =>
    { dcache := .empty (), icache := .empty (), tbes := fun _ => none, mandatoryQueue := .empty
      optionalQueue := .empty, requestIn := .empty, responseIn := .empty
      waiting := fun _ _ => none, seqWrite := fun _ => 0, sendEvictions := true }
  l2 :=
    { cache := .empty (), tbes := fun _ => none, requestIn := .empty, responseIn := .empty
      unblockIn := .empty, waiting := fun _ _ => none }
  dir :=
    { entries := fun _ => {}, tbes := fun _ => none, requestIn := .empty, responseIn := .empty
      memoryIn := .empty, waiting := fun _ _ => none, specBuf := fun _ => {}
      enableMLDOM := true }
  net := ⟨fun _ _ => [], fun _ _ => [], fun _ _ => [], fun _ _ => []⟩
  memoryQueue := []
  memory := fun a => a + 100
  cpu := fun _ => []

theorem coldSystem_start : (sysMachine smallSystem).start coldSystem :=
  ⟨fun _ => ⟨(), (), true, fun _ => 0, rfl⟩, ⟨(), rfl⟩, ⟨fun _ => {}, true, rfl⟩, rfl, rfl⟩

/-- The core loads line 0. -/
def loadLine : List SysEvent :=
  let core := MachineID.l1Cache 0
  [.core 0 ⟨0, .ld, -1⟩ 0, .l1 0 .mandatoryQueue, .deliverRequest core .l2Cache, .l2 .l1Request,
    .deliverRequest .l2Cache .directory, .dir .requestNetwork, .memory 0, .dir .memQueue,
    .deliverResponse .directory .l2Cache, .l2 .response, .deliverResponse .l2Cache core,
    .l1 0 .responseL1Network, .deliverUnblock core .l2Cache, .l2 .l1Unblock]

/-- An oblivious load of the line reaches the L2. -/
def specLoadLine (a : Nat) : List SysEvent :=
  [.core 0 ⟨a, .specLdL1, 5⟩ 0, .l1 0 .mandatoryQueue, .deliverRequest (.l1Cache 0) .l2Cache]

theorem spec_load_no_trace_hit : ∃ s : Sys smallSystem, s.Admits (.l2 .l1Request) ∧
    ∃ t, s.step (.l2 .l1Request) = some t ∧ s.SameCaches t ∧ s.OnlyAnswers t (.l2 .l1Request) := by
  have hrun : ((sysMachine smallSystem).run coldSystem (loadLine ++ specLoadLine 0)).map
      (fun s => s.l2.requestIn.queue.head?.map fun m =>
        (m.type, (s.l2.cache.lookup m.addr).isSome)) = some (some (.getspecL2, true)) := by
    decide +kernel
  obtain ⟨s, hs, hq⟩ := map_eq_some_iff.mp hrun
  obtain ⟨m, hm, hmt⟩ := map_eq_some_iff.mp hq
  have hadm : s.Admits (.l2 .l1Request) := by
    intro m' hm'
    obtain rfl : m = m' := Option.some.inj (hm.symm.trans hm')
    exact Or.inl (congrArg Prod.snd hmt)
  have hspec : s.SpecRequest (.l2 .l1Request) := by
    refine ⟨m, hm, ?_⟩
    rw [show m.type = .getspecL2 from congrArg Prod.fst hmt]
    decide
  exact ⟨s, hadm, (spec_load_no_trace (Lib.Machine.reach_run coldSystem_start hs) hspec).mpr hadm⟩

/-- With its set full an oblivious load of another line makes the L2 evict line 0. -/
theorem spec_load_evicts : ¬∀ (P : SysParams) (s t : Sys P) (e : SysEvent),
    (sysMachine P).Reach s → s.SpecRequest e → s.step e = some t →
      s.SameCaches t ∧ s.OnlyAnswers t e := by
  intro hall
  have hrun : ((sysMachine smallSystem).run coldSystem (loadLine ++ specLoadLine 1)).map
      (fun s => (s.l2.requestIn.queue.head?.map (·.type), (s.l2.cache.lookup 0).isSome,
        (s.step (.l2 .l1Request)).map fun t => (t.l2.cache.lookup 0).isSome)) =
      some (some .getspecL2, true, some false) := by
    decide +kernel
  obtain ⟨s, hs, heq⟩ := map_eq_some_iff.mp hrun
  simp only [Prod.mk.injEq] at heq
  obtain ⟨hq, hbefore, hafter⟩ := heq
  obtain ⟨m, hm, hmt⟩ := map_eq_some_iff.mp hq
  obtain ⟨t, ht, hgone⟩ := map_eq_some_iff.mp hafter
  have hspec : s.SpecRequest (.l2 .l1Request) := ⟨m, hm, by rw [hmt]; decide⟩
  have hsame := (hall _ s t _ (Lib.Machine.reach_run coldSystem_start hs) hspec ht).1
  rw [hsame.l2.1, hbefore] at hgone
  cases hgone

end SdoCore.Mesi
