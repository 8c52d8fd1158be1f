import SdoCore.Lsq.Untainted

/-! What has become of a load when `commitHead` retires it.

Results:
* `Oblivious.retired`: an oblivious load that retires was found safe, trained the predictor, and
  a validation sent for it has come back.
* `retired_verified`: no speculative value is left unconfirmed, if a split load is not sent with a
  half that missed in the TLB and no hit of its first half is filed under the second one after that
  has missed. -/

namespace SdoCore

open Lib
open Option (bind_eq_some_iff map_eq_some_iff)

namespace LoadInst

variable {c : LsqConfig} {ready : Bool} {l l' : LoadInst}

/-! ## An oblivious load that retires -/

/-- The oblivious request hit, at each line it asked for. -/
structure Found (l : LoadInst) : Prop where
  low : l.obl.low.hits.any = true
  high : l.acc.isSplit = true → l.obl.late = false → l.obl.high.hits.any = true

/-- Both flags of a load that hit are those of its halves once the request is complete, and before
that if the hit was an early one. -/
theorem Coherent.found (hco : Coherent c ready l) (hcf : Confirmed l) (hhit : l.obl.hits.any)
    (hst : l.mldomState.confirmed ∨ l.mldomState.early) : Found l := by
  have hf := hco.flights
  have hany := hf.hit
  rw [hhit] at hany
  cases hspl : l.acc.isSplit with
  | false => exact ⟨by simpa [hspl] using hany.symm, by simp [hspl]⟩
  | true =>
    simp only [hspl, if_true] at hany
    obtain ⟨hfst, hsnd⟩ := Bool.and_eq_true_iff.mp hany.symm
    rw [hf.first hspl] at hfst
    refine ⟨?_, fun _ hlate => ?_⟩
    · split at hfst
      · cases hfst
      · exact hfst
    rcases hst with hst | hst
    · have hc := hcf.complete (by rintro h; simp [h, MldomState.confirmed] at hst)
      rw [hst, hf.complete, Bool.and_eq_true, Bool.not_eq_true', Bool.not_eq_true'] at hc
      exact hf.second hspl hlate hc.2 hsnd
    · exact (hco.settled hst hspl).2

/-- The states in which an oblivious load without a fault is let through by commit. -/
structure Oblivious.Retired (c : LsqConfig) (l : LoadInst) : Prop where
  safe : l.mldomState.safe = true
  train : Trained c l.train true
  byOblS : l.wb.result = some (l.data.written .oblS) → l.Found
  result : l.wb.result = some (l.data.written .oblS) ∨ l.wb.result = some (l.data.written .validate)
  answered : l.second.needExposeOnly = false → .validate ∈ l.sends →
    l.second.post = none ∧ l.second.exposeCompleted = true ∧
      (l.wb.result = some (l.data.written .oblS) →
        l.data.vldLow = l.data.memLow ∧ l.data.vldHigh = l.data.memHigh)
  kind : l.second.needExposeOnly = false → l.mldomState.mayExpose = false →
    c.perfectUnsafe = false → .validate ∈ l.sends

/-- The gate of commit, for a load that has a second access. -/
theorem safeToCommit_cases (hpost : l.second.needPostFetch) (hsq : l.squashed = false)
    (hf : l.fault = none) (h : l.isLoadSafeToCommit) :
    l.second.needExposeOnly ∧ l.second.exposeSent ∨
      l.second.needExposeOnly = false ∧ l.second.exposeCompleted := by
  simp only [isLoadSafeToCommit, hsq, hf, hpost, Option.isNone_none, Bool.not_false, Bool.and_self,
    Bool.true_and, if_true] at h
  cases hx : l.second.needExposeOnly <;> simp_all

theorem Data.written_oblS_ne_validate (d : Data) :
    some (d.written .validate) ≠ some (d.written .oblS) := by
  simp [Data.written]

theorem Oblivious.Retired.of_begun {mayExpose : Bool} (hsafe : l.mldomState.safe)
    (hmay : l.mldomState.mayExpose = mayExpose) (hf : l.fault = none)
    (hgate : l.second.needExposeOnly = false → l.second.exposeCompleted)
    (hw : l.WasWritten true) (hb : l.HasBegun c mayExpose) (ht : Trained c l.train true)
    (hhit : l.Found) : Oblivious.Retired c l where
  safe := hsafe
  train := ht
  byOblS _ := hhit
  result := .inl (hw.result hf)
  answered hx hv := by
    have hno := (hb.validate hv).2.2.2 hf
    rw [hgate hx] at hno
    cases hno
  kind hx hno hp := by
    have hno := hb.waiting hf (by simp [hp, ← hmay, hno])
    rw [hgate hx] at hno
    cases hno

theorem Oblivious.Retired.of_answered (hco : Coherent c ready l) (hsafe : l.mldomState.safe)
    (hf : l.fault = none) {byOblS : Bool} (hw : l.WasWritten byOblS) (ha : l.IsAnswered)
    (ht : Trained c l.train true) (hhit : byOblS → l.Found) :
    Oblivious.Retired c l where
  safe := hsafe
  train := ht
  byOblS hr := by
    cases byOblS with
    | true => exact hhit rfl
    | false => exact absurd ((hw.result hf).symm.trans hr) (Data.written_oblS_ne_validate _)
  result := by
    cases byOblS with
    | true => exact .inl (hw.result hf)
    | false => exact .inr (hw.result hf)
  answered _ hv := by
    refine ⟨ha.post, ha.completed, fun hr => ?_⟩
    cases byOblS with
    | true => exact ha.checked hf hv hw.byOblS
    | false => exact absurd ((hw.result hf).symm.trans hr) (Data.written_oblS_ne_validate _)
  kind _ hno hp := (hco.kind hno hp).2 hf (ha.sent hf)

/-- A load that was not found safe does not retire, nor does one that was not written back. -/
theorem Oblivious.retired (h : Oblivious c ready l) (hsq : l.squashed = false) (hf : l.fault = none)
    (hgate : l.isLoadSafeToCommit) (hx : l.wb.executed) : Oblivious.Retired c l := by
  have hco := h.coherent
  have hgate := safeToCommit_cases hco.postFetch hsq hf hgate
  have hcompleted (hno : l.second.needExposeOnly = false) : l.second.exposeCompleted = true := by
    rcases hgate with ⟨h, -⟩ | ⟨-, h⟩
    · simp [hno] at h
    · exact h
  have hidle {P : Prop} (hi : l.IsIdle) : P := by
    have hun := hi.unsent hf
    rcases hgate with ⟨-, hs⟩ | ⟨-, hs⟩
    · simp [hun.1] at hs
    · simp [hun.2] at hs
  have hunw {P : Prop} (hw : l.wb.Unwritten) : P := by
    have := hw.executed
    simp [hx] at this
  have hfound := hco.found h.confirmed
  cases hst : l.mldomState with
  | A | Ab => exact hidle (hco.shape.at hst).2.1
  | AB => exact hidle (hco.shape.at hst).2.1
  | toBeSquash => exact hidle (hco.shape.at hst).1
  | AC => exact hunw (hco.shape.at hst).1
  | ACB =>
    obtain ⟨hw, hb, ht⟩ := hco.shape.at hst
    cases hh : l.obl.hits.any with
    | false =>
      rw [hh] at hw
      exact hunw (by simpa using hw)
    | true =>
      rw [hh] at hw ht
      exact .of_begun (by rw [hst]; rfl) (by rw [hst]; rfl) hf hcompleted (by simpa using hw) hb ht
        (hfound hh (.inl (by rw [hst]; rfl)))
  | ABC | AbC | AbCB | ACb =>
    obtain ⟨hw, hb, ht, hh⟩ := hco.shape.at hst
    exact .of_begun (by rw [hst]; rfl) (by rw [hst]; rfl) hf hcompleted hw hb ht
      (hfound hh (by simp [hst, MldomState.confirmed, MldomState.early]))
  | ACBD =>
    obtain ⟨hw, ha, ht⟩ := hco.shape.at hst
    exact .of_answered hco (by rw [hst]; rfl) hf hw ha ht
      fun hh => hfound hh (.inl (by rw [hst]; rfl))
  | ACD | ACDB =>
    obtain ⟨hw, ha, ht⟩ := hco.shape.at hst
    exact .of_answered hco (by rw [hst]; rfl) hf hw ha ht fun h => by cases h
  | ABCD | AbCBD | AbCD | AbCDB | ACbD | ACbDB =>
    obtain ⟨hw, ha, ht, hh⟩ := hco.shape.at hst
    exact .of_answered hco (by rw [hst]; rfl) hf hw ha ht
      fun _ => hfound hh (by simp [hst, MldomState.confirmed, MldomState.early])

end LoadInst

namespace Life

variable {c : LsqConfig} {s s' : Life}

theorem retires_iff : s.retires ↔ s.load.squashed = false ∧ s.load.canCommit ∧
    s.load.isLoadSafeToCommit ∧ s.load.wb.executed ∧ s.load.fault = none ∧
    s.ready := by
  simp [retires, and_assoc]

/-- A load that retires was executed without an oblivious request, or its second access is
over. -/
theorem retired_cases (hs : s.load.Stage c s.ready) (hr : s.retires) :
    s.load.Done s.ready ∨
      s.load.Oblivious c s.ready ∧ LoadInst.Oblivious.Retired c s.load := by
  obtain ⟨hsq, -, hgate, hx, hf, -⟩ := retires_iff.mp hr
  rcases hs with h | h | h | h | h | h
  · simp [hsq] at h
  · have := h.wb
    rw [this] at hx
    cases hx
  · simp [h.pending.executed] at hx
  · simp [h.pending.executed] at hx
  · exact .inl h
  · exact .inr ⟨h, h.retired hsq hf hgate hx⟩

end Life

/-! ## What the handlers leave alone -/

namespace LoadInst

/-- What an oblivious load keeps until it is squashed. -/
structure Carries (l l' : LoadInst) : Prop where
  fixed : l'.obl.missed = l.obl.missed ∧ l'.obl.tlbHit = l.obl.tlbHit ∧
    l'.second.needExposeOnly = l.second.needExposeOnly ∧
    l'.second.needPostFetch = l.second.needPostFetch ∧ l'.ifLdStFwd = l.ifLdStFwd
  fault : l'.fault = none → l.fault = none
  safe : l.mldomState.safe = true →
    l'.mldomState.safe = true ∧ l'.mldomState.mayExpose = l.mldomState.mayExpose
  committed : l.committed = true → l'.committed = true

variable {c : LsqConfig} {ready : Bool} {l l' : LoadInst}

theorem Next.carries (hi : Coherent c ready l) (hn : Next c ready l l') : Carries l l' where
  __ := hn
  fixed := ⟨(congrArg Fixed.missed hn.fixed :), (congrArg Fixed.tlbHit hn.fixed :),
    (congrArg Fixed.needExposeOnly hn.fixed :), hn.coherent.postFetch.trans hi.postFetch.symm,
    (congrArg Fixed.ifLdStFwd hn.fixed :)⟩
  committed h := (congrArg Fixed.committed hn.fixed :).trans h

theorem Carries.refl (l : LoadInst) : Carries l l :=
  ⟨⟨rfl, rfl, rfl, rfl, rfl⟩, id, fun h => ⟨h, rfl⟩, id⟩

theorem carries_checkSnoop (line : Nat) (external fence force : Bool) :
    Carries l (l.checkSnoop c line external fence force).1 := by
  simp only [checkSnoop, hitBySnoop]
  split
  · exact .refl l
  split
  · split
    · exact ⟨⟨rfl, rfl, rfl, rfl, rfl⟩, fun h => (by cases h), fun h => ⟨h, rfl⟩, id⟩
    · exact ⟨⟨rfl, rfl, rfl, rfl, rfl⟩, id, fun h => ⟨h, rfl⟩, id⟩
  · exact .refl l

end LoadInst

namespace Life

variable {c : LsqConfig} {s s' : Life}

theorem carries_of_handle (hm : c.enableMLDOM) (hs : s.load.Oblivious c s.ready)
    (hsq : s.load.squashed = false) {e : LoadEvent} (he : s.enabled c e) {l : LoadInst}
    (hl : s.handle c e = some l) : s.load.Carries l := by
  have hco := hs.coherent
  have hidle {P : Prop} (h : s.load.second.needPostFetch = false) : P := by
    simp [hco.postFetch] at h
  cases e with
  | exposeLoads fst snd =>
    obtain ⟨⟨k, flow⟩, hx, rfl⟩ := map_eq_some_iff.mp hl
    exact (hs.exposeLoad hm hsq hx).carries hco
  | executeLoad isHead b tr rd =>
    simp only [enabled, LoadInst.issuable, Bool.and_eq_true, Bool.not_eq_true'] at he
    exact hidle he.1.1.2
  | finishTranslation f so low high =>
    have he : s.load.acc.walking = true := he
    simp [hs.access.2.2] at he
  | oblResponse h p | postResponse h p =>
    rcases answer_cases hm (.oblivious hs) rfl he hl with ⟨hsq', -⟩ | ⟨-, -, hn⟩
    · simp [hsq] at hsq'
    · exact hn.carries hco
  | readResponse h p =>
    have he : s.load.reading h = true := he
    cases h <;> simp [LoadInst.reading, hs.idle.1, hs.idle.2.1] at he
  | writebackEvent =>
    simp [enabled, hs.idle.2.2.1] at he
  | checkSnoop line external fence force =>
    cases hl
    exact LoadInst.carries_checkSnoop line external fence force
  | commit =>
    cases hl
    exact ⟨⟨rfl, rfl, rfl, rfl, rfl⟩, id, fun h => ⟨h, rfl⟩, fun _ => rfl⟩
  | _ =>
    cases hl
    exact ⟨⟨rfl, rfl, rfl, rfl, rfl⟩, id, fun h => ⟨h, rfl⟩, id⟩

end Life

/-! ## What execution does to a load -/

namespace LoadInst

variable {c : LsqConfig} {ready isHead b : Bool} {tr : Translation} {rd : ReadInput}
  {l l' : LoadInst}

/-! ## The location predictor -/

/-- A load without an oblivious request has trained the predictor when it was executed without a
fault, or it got its data from a store. -/
def Trains (c : LsqConfig) (l : LoadInst) : Prop :=
  l.second.needPostFetch = false → l.wbEvent ≠ some .ipr ∧
    (l.wb.executed = true → l.fault = none →
      l.train.doneLocPredUpdate = true ∨ l.ifLdStFwd = true) ∧
    (c.disable2ndld = true → l.ifLdStFwd = false)

theorem writeback_frame {src : Source} (h : l.writeback c src = some l') :
    l'.obl = l.obl ∧ l'.committed = l.committed ∧ l'.wbEvent = l.wbEvent ∧
      l'.ifLdStFwd = l.ifLdStFwd := by
  simp only [writeback] at h
  split at h
  · cases h
  split at h
  · cases h
  split at h
  · split at h <;> cases h
    exact ⟨rfl, rfl, rfl, rfl⟩
  · split at h <;> cases h <;> exact ⟨rfl, rfl, rfl, rfl⟩

theorem updateLocationPredictor_done (hm : c.enableMLDOM) {t : UpdateType}
    (ht : (l.updateLevel t).isSome) :
    (l.updateLocationPredictor c t).train.doneLocPredUpdate := by
  simp only [updateLocationPredictor, hm, Bool.not_true, Bool.false_or]
  split
  · next hd => exact hd
  split
  · rfl
  · next hn => simp [hn] at ht

theorem updateLocationPredictor_mono {t : UpdateType} (h : l.train.doneLocPredUpdate) :
    (l.updateLocationPredictor c t).train.doneLocPredUpdate := by
  simp [updateLocationPredictor, h]

theorem Trains.of_fresh (hf : Fresh c ready l) : Trains c l := fun _ => by
  refine ⟨?_, fun hx => ?_, fun _ => hf.idle.2.2.2⟩
  · simp [hf.idle.2.2.1]
  · rw [hf.wb] at hx
    cases hx

/-- The accesses that are not trained: memory-mapped registers and prefetches whose fault is
suppressed, and forwarded loads if second loads are switched off. -/
def untrained (c : LsqConfig) (isHead : Bool) (tr : Translation) (rd : ReadInput) (l : LoadInst) :
    Bool :=
  tr.mmappedIpr ||
    ((l.acc.isDataPrefetch || l.acc.isInstPrefetch) &&
      (tr.fault || (tr.strictlyOrdered && !(isHead && l.acc.atCommit)))) ||
    (c.disable2ndld && match rd.forwarding with
      | .full _ => true
      | _ => false)

/-- A fault of a load that is not a prefetch stays. -/
theorem Trains.of_faulted (hpre : (l.acc.isDataPrefetch || l.acc.isInstPrefetch) = false)
    (hev : l.wbEvent = none) (hfwd : l.ifLdStFwd = false) {f : LoadFault}
    (hfault : l.fault = some f) :
    Trains c l.faultToCommit := by
  intro _
  have hk : l.faultToCommit.fault = some f ∧ l.faultToCommit.wbEvent = l.wbEvent ∧
      l.faultToCommit.ifLdStFwd = l.ifLdStFwd := by
    simp [faultToCommit, hpre, hfault]
  rw [hk.1, hk.2.1, hk.2.2, hev, hfwd]
  exact ⟨by simp, fun _ h => (by cases h), fun _ => rfl⟩

theorem Executes.trains (h : Executes c ready isHead b tr rd l l') (hf : Fresh c ready l)
    (hu : l.untrained c isHead tr rd = false) : Trains c l' := by
  have hk : Fresh c ready (l.translated c ready tr) := (hf.finishTranslation ..).checkTLBMiss tr
  simp only [untrained, Bool.or_eq_false_iff] at hu
  obtain ⟨⟨hipr, hpre⟩, hfwd⟩ := hu
  have hprefetch (h : (tr.fault || (tr.strictlyOrdered && !(isHead && l.acc.atCommit))) = true) :
      (l.acc.isDataPrefetch || l.acc.isInstPrefetch) = false := by
    rw [h, Bool.and_true] at hpre
    exact hpre
  cases h with
  | waits => exact .of_fresh hf
  | walks => exact .of_fresh hf.walk
  | defers => exact .of_fresh (hf.finishTranslation ..)
  | faults h =>
    exact .of_faulted (f := .translation) (hprefetch (by simp [h])) hf.idle.2.2.1 hf.idle.2.2.2
      (if_pos h)
  | strict h1 h2 =>
    exact .of_faulted (hprefetch (by simp [h1, h2])) hk.idle.2.2.1 hk.idle.2.2.2 rfl
  | ipr h => simp [hipr] at h
  | forwards data h =>
    rw [h, Bool.and_true] at hfwd
    intro _
    refine ⟨by simp [scheduleWriteback], fun hx => ?_, fun hd => ?_⟩
    · have hx : (l.translated c ready tr).wb.executed = true := hx
      rw [hk.wb] at hx
      cases hx
    · rw [hfwd] at hd
      cases hd
  | retries => exact .of_fresh hk
  | half spec =>
    have hsame : ∀ m : LoadInst, m.wb = (l.translated c ready tr).wb → m.wbEvent = none →
        m.ifLdStFwd = false → Trains c m := fun m hw he hi _ => by
      refine ⟨by simp [he], fun hx => ?_, fun _ => hi⟩
      rw [hw, hk.wb] at hx
      cases hx
    simp only [halfSent]
    split <;> exact hsame _ rfl hk.idle.2.2.1 hk.idle.2.2.2
  | oblivious => exact fun h => by cases h
  | reads =>
    intro _
    refine ⟨?_, fun hx => ?_, fun _ => hk.idle.2.2.2⟩
    · show (l.translated c ready tr).wbEvent ≠ _
      simp [hk.idle.2.2.1]
    have hx : (l.translated c ready tr).wb.executed = true := hx
    rw [hk.wb] at hx
    cases hx

end LoadInst

namespace Life

variable {c : LsqConfig} {s s' : Life}

/-- What a load keeps that has no oblivious request. -/
structure Keeps (c : LsqConfig) (l l' : LoadInst) : Prop where
  obl : l'.obl = l.obl
  committed : l.committed = true → l'.committed = true
  trains : l.Trains c → l'.Trains c

theorem keeps_of_handle (hm : c.enableMLDOM) (hs : s.load.Stage c s.ready)
    (hsq : s.load.squashed = false) (hpf : s.load.second.needPostFetch = false) {e : LoadEvent}
    (he : s.enabled c e) (hexec : ∀ h b tr rd, e ≠ .executeLoad h b tr rd) {l : LoadInst}
    (hl : s.handle c e = some l) : Keeps c s.load l := by
  have hplain {P : Prop} (ho : s.load.Oblivious c s.ready) : P := by
    have := ho.coherent.postFetch
    simp [hpf] at this
  cases e with
  | executeLoad h b tr rd => exact absurd rfl (hexec h b tr rd)
  | exposeLoads fst snd =>
    obtain ⟨⟨k, flow⟩, hx, rfl⟩ := map_eq_some_iff.mp hl
    rw [LoadInst.exposeLoad_plain hpf hsq] at hx
    cases hx
    simp only [LoadInst.trainForwarded]
    split
    · rw [LoadInst.updateLocationPredictor_eq]
      exact ⟨rfl, id, fun ht _ => ⟨(ht hpf).1, fun hx hf => ((ht hpf).2.1 hx hf).imp_left
        LoadInst.updateLocationPredictor_mono, (ht hpf).2.2⟩⟩
    · exact ⟨rfl, id, id⟩
  | finishTranslation f so low high =>
    cases hl
    have he : s.load.acc.walking = true := he
    have hfresh : s.load.Fresh c s.ready := by
      rcases hs with h | h | h | h | h | h
      · simp [hsq] at h
      · exact h
      · simp [h.pending.walking] at he
      · simp [h.pending.walking] at he
      · simp [h.walking] at he
      · exact hplain h
    exact ⟨rfl, id, fun _ => .of_fresh (hfresh.finishTranslation ..)⟩
  | oblResponse h p | postResponse h p =>
    rcases answer_cases hm hs rfl he hl with ⟨hsq', -⟩ | ⟨-, ho, -⟩
    · simp [hsq] at hsq'
    · exact hplain ho
  | readResponse h p =>
    simp only [handle, LoadInst.completeRead] at hl
    split at hl
    · cases hl
      exact ⟨rfl, id, fun ht _ => ht hpf⟩
    obtain ⟨k, hk, rfl⟩ := map_eq_some_iff.mp hl
    obtain ⟨h1, h2, h3, h4⟩ := LoadInst.writeback_frame hk
    have hdone : (k.updateLocationPredictor c .nonSpec).train.doneLocPredUpdate = true :=
      LoadInst.updateLocationPredictor_done hm rfl
    rw [LoadInst.updateLocationPredictor_eq] at hdone ⊢
    refine ⟨h1, fun h => h2.trans h, fun ht _ => ⟨?_, fun _ _ => .inl hdone, ?_⟩⟩
    · exact h3 ▸ (ht hpf).1
    · exact h4 ▸ (ht hpf).2.2
  | writebackEvent =>
    obtain ⟨src, hsrc, hl⟩ := bind_eq_some_iff.mp hl
    rw [if_neg (by simp [hsq])] at hl
    obtain ⟨h1, h2, h3, h4⟩ := LoadInst.writeback_frame hl
    refine ⟨h1, fun h => h2.trans h, fun ht _ => ⟨?_, fun _ _ => .inr ?_, ?_⟩⟩
    · rw [h3]
      simp
    · -- an event that is not for a memory-mapped register is for a forwarded load
      rw [h4]
      rcases hs with h | h | h | h | h | h
      · simp [hsq] at h
      · simp [h.idle.2.2.1] at hsrc
      · simp [h.event] at hsrc
      · rcases h.event with ⟨hi, -⟩ | ⟨-, hf⟩
        · exact absurd hi (ht hpf).1
        · exact hf
      · simp [h.idle.2.2] at hsrc
      · exact hplain h
    · exact h4 ▸ (ht hpf).2.2
  | checkSnoop line external fence force =>
    cases hl
    simp only [LoadInst.checkSnoop, LoadInst.hitBySnoop]
    split
    · exact ⟨rfl, id, id⟩
    split
    · split
      · exact ⟨rfl, id, fun ht _ => ⟨(ht hpf).1, fun _ hf => (by cases hf), (ht hpf).2.2⟩⟩
      · exact ⟨rfl, id, fun ht _ => ht hpf⟩
    · exact ⟨rfl, id, id⟩
  | commit =>
    cases hl
    exact ⟨rfl, fun _ => rfl, fun ht _ => ht hpf⟩
  | _ =>
    cases hl
    exact ⟨rfl, id, fun ht _ => ht hpf⟩

theorem squashed_of_handle {e : LoadEvent} (hsq : s.load.squashed) (he : s.enabled c e)
    {l : LoadInst} (hl : s.handle c e = some l) : l.squashed := by
  cases e with
  | exposeLoads fst snd =>
    obtain ⟨⟨k, flow⟩, hx, rfl⟩ := map_eq_some_iff.mp hl
    rw [LoadInst.exposeLoad, if_pos hsq] at hx
    cases hx
    exact hsq
  | executeLoad isHead b tr rd => simp [enabled, LoadInst.issuable, hsq] at he
  | oblResponse h p => exact (LoadInst.completeOblS_squashed hsq hl).1
  | postResponse h p =>
    obtain ⟨q, -, hl⟩ := bind_eq_some_iff.mp hl
    exact (LoadInst.completePost_squashed hsq hl).1
  | readResponse h p =>
    have hk : (s.load.readArrived h p).squashed = true := hsq
    simp only [handle, LoadInst.completeRead, hk, Bool.or_true, if_true] at hl
    cases hl
    exact hsq
  | writebackEvent =>
    obtain ⟨src, -, hl⟩ := bind_eq_some_iff.mp hl
    rw [if_pos hsq] at hl
    cases hl
    exact hsq
  | checkSnoop line external fence force =>
    cases hl
    simp only [LoadInst.checkSnoop, LoadInst.hitBySnoop]
    split
    · exact hsq
    split
    · split <;> exact hsq
    · exact hsq
  | squash =>
    cases hl
    rfl
  | _ =>
    cases hl
    exact hsq

/-- What an event can do to a load. -/
inductive Handled (c : LsqConfig) (s : Life) (e : LoadEvent) (l : LoadInst) : Prop
  | squashed : s.load.squashed = true → l.squashed = true → Handled c s e l
  | oblivious : s.load.squashed = false → s.load.Oblivious c s.ready → s.load.Carries l →
      Handled c s e l
  | executes (isHead b : Bool) (tr : Translation) (rd : ReadInput) : s.load.squashed = false →
      e = .executeLoad isHead b tr rd → s.load.Fresh c s.ready →
      LoadInst.Executes c s.ready isHead b tr rd s.load l → Handled c s e l
  | plain : s.load.squashed = false → s.load.second.needPostFetch = false → Keeps c s.load l →
      Handled c s e l

theorem handled_of_step (hm : c.enableMLDOM) (hs : s.load.Stage c s.ready) {e : LoadEvent}
    (h : s.step c e = some s') : Handled c s e s'.load := by
  obtain ⟨l, he, hl, rfl⟩ := step_cases h
  cases hsq : s.load.squashed with
  | true => exact .squashed hsq (squashed_of_handle hsq he hl)
  | false =>
    cases hpf : s.load.second.needPostFetch with
    | true =>
      have ho := oblivious_of_not_plain hs hsq fun hp => by simp [hp.postFetch] at hpf
      exact .oblivious hsq ho (carries_of_handle hm ho hsq he hl)
    | false =>
      by_cases hexec : ∃ h b tr rd, e = .executeLoad h b tr rd
      · obtain ⟨isHead, b, tr, rd, rfl⟩ := hexec
        simp only [enabled, Bool.and_eq_true] at he
        exact .executes isHead b tr rd hsq rfl (fresh_of_issuable hs he.1)
          (LoadInst.executeLoad_cases hl)
      · exact .plain hsq hpf (keeps_of_handle hm hs hsq hpf he
          (fun h b tr rd hx => hexec ⟨h, b, tr, rd, hx⟩) hl)

end Life

/-! ## Confirmed values -/

namespace Life

variable {c : LsqConfig} {s s' : Life}

/-- A split load that is executed before it is ready finds both halves in the TLB. -/
def halvesHit (c : LsqConfig) (s : Life) : LoadEvent → Bool
  | .executeLoad _ _ tr _ => !(s.load.acc.isSplit && s.load.translationMissed c s.ready tr)
  | _ => true

/-- A miss in the TLB is known to `exposeLoads`. -/
def MissKnown (l : LoadInst) : Prop :=
  l.squashed = true ∨ l.obl.missed = false ∨ l.second.needPostFetch = true ∧ l.obl.tlbHit = false

theorem missKnown_executeLoad (hf : s.load.Fresh c s.ready) {isHead b : Bool} {tr : Translation}
    {rd : ReadInput} (hh : (s.load.acc.isSplit && s.load.translationMissed c s.ready tr) = false)
    {l : LoadInst} (h : LoadInst.Executes c s.ready isHead b tr rd s.load l) : MissKnown l := by
  have hm : s.load.obl.missed = false := by rw [hf.obl]
  obtain ⟨-, -, ⟨-, -, hsame⟩ | ⟨-, rfl⟩ | rfl⟩ := h.frame
  · exact .inr (.inl (hsame.trans hm))
  · -- a whole request carries the mark that is tested
    right
    cases hmiss : s.load.translationMissed c s.ready tr with
    | false => exact .inl rfl
    | true =>
      have hwhole : s.load.acc.isSplit = false := by simpa [hmiss] using hh
      refine .inr ⟨rfl, ?_⟩
      simp only [LoadInst.translationMissed, hwhole, Bool.false_and, Bool.or_false] at hmiss
      show (s.load.obl.tlbHit && !specTLBMiss c s.ready (!s.load.acc.isSplit && tr.missLow)) = false
      simp [hwhole, hmiss]
  · exact .inr (.inl hm)

theorem missKnown_of_reach (hm : c.enableMLDOM)
    (h : (loadMachine c).ReachWhen (fun a k => a.halvesHit c k) s) : MissKnown s.load := by
  suffices hboth : s.load.Stage c s.ready ∧ MissKnown s.load from hboth.2
  refine h.invariant (I := fun s => s.load.Stage c s.ready ∧ MissKnown s.load) (fun s hs => ?_)
    (fun s e s' ⟨hst, hk⟩ hC hs => ⟨stage_of_step hm hst hs, ?_⟩)
  · obtain ⟨a, b, d, e, rfl⟩ := hs
    exact ⟨LoadInst.stage_start a b d e false, .inr (.inl rfl)⟩
  · cases handled_of_step hm hst hs with
    | squashed _ hsq' => exact .inl hsq'
    | oblivious hsq ho hc =>
      obtain ⟨h1, h2, -, h4, -⟩ := hc.fixed
      rw [MissKnown, h1, h2, h4]
      exact .inr (hk.resolve_left (by simp [hsq]))
    | executes isHead b tr rd hsq he hf hx =>
      subst he
      refine missKnown_executeLoad hf ?_ hx
      simpa only [halvesHit, Bool.not_eq_true'] using hC
    | plain hsq hpf hkeep =>
      have hno : s.load.obl.missed = false :=
        (hk.resolve_left (by simp [hsq])).resolve_right (by simp [hpf])
      exact .inr (.inl ((congrArg OblS.missed hkeep.obl).trans hno))

end Life

/-- The same of the unit. -/
def LsqUnit.halvesHit (c : LsqConfig) (s : LsqUnit) : UnitEvent → Bool
  | .executeLoad x tr _ =>
    !((s.loads x).acc.isSplit && (s.loads x).translationMissed c (s.ready x) tr)
  | _ => true

/-- The value of a load is not a mere prediction: the bytes that were written back were found by
the oblivious request, each half by its own, or came later, no translation of that request missed
in the TLB, and a validation has come back and agrees with the bytes. -/
structure LoadInst.Verified (l : LoadInst) : Prop where
  hit : ∀ w, l.wb.result = some w → w.source = .oblS → l.obl.low.hits.any = true ∧
    (l.acc.isSplit = true → l.obl.high.hits.any = true) ∧ l.obl.valPredOnMiss = false
  translated : l.obl.missed = false
  validated : .validate ∈ l.sends → l.second.needExposeOnly = false →
    l.second.post = none ∧ l.second.exposeCompleted = true ∧
      ∀ w, l.wb.result = some w → w.source = .oblS →
        w.low = l.data.vldLow ∧ w.high = l.data.vldHigh

theorem LoadInst.Done.verified {ready : Bool} {l : LoadInst} (h : l.Done ready)
    (hm : l.obl.missed = false) : l.Verified where
  hit w hw hs := absurd hs (h.source w hw).1
  translated := hm
  validated hv := absurd hv h.plain.sends.1

theorem LoadInst.Oblivious.verified {c : LsqConfig} {ready : Bool} {l : LoadInst}
    (ho : l.Oblivious c ready) (h : LoadInst.Oblivious.Retired c l) (hm : l.obl.missed = false)
    (hlate : l.obl.late = false) : l.Verified := by
  have hobl (w : Written) (hw : l.wb.result = some w) (hs : w.source = .oblS) :
      w = l.data.written .oblS := by
    rcases h.result with hr | hr
    · exact Option.some.inj (hw.symm.trans hr)
    · rw [Option.some.inj (hw.symm.trans hr)] at hs
      cases hs
  refine ⟨fun w hw hs => ?_, hm, fun hv hx => ?_⟩
  · obtain ⟨hlow, hhigh⟩ := h.byOblS (hobl w hw hs ▸ hw)
    exact ⟨hlow, fun hspl => hhigh hspl hlate, ho.coherent.pred h.safe⟩
  obtain ⟨hp, hc, hd⟩ := h.answered hx hv
  refine ⟨hp, hc, fun w hw hs => ?_⟩
  obtain rfl := hobl w hw hs
  obtain ⟨hlow, hhigh⟩ := hd hw
  exact ⟨hlow.symm, hhigh.symm⟩

theorem LsqUnit.commits_life {s : LsqUnit} {x : Nat} (h : s.commits x) :
    (s.life x).retires := by
  simp only [LsqUnit.commits, Bool.and_eq_true] at h
  exact h.2

/-- If no split load is executed with a half that misses in the TLB before it is ready, a load that
retires has a confirmed value, unless a hit of its first half came late. -/
theorem retired_verified {c : LsqConfig} (hm : c.enableMLDOM = true) {s : LsqUnit}
    (h : (lsqMachine c).ReachWhen (fun s e => s.halvesHit c e = true) s) {x : Nat}
    (hx : s.commits x = true) (hlate : (s.loads x).obl.late = false) : (s.loads x).Verified := by
  have hseen := ((LsqUnit.inv_of_reach hm h).queue x (LsqUnit.commits_mem hx)).1
  have hr := LsqUnit.commits_life hx
  have hlife : (loadMachine c).ReachWhen (fun a k => a.halvesHit c k = true) (s.life x) := by
    refine LsqUnit.life_reach hm (fun s e x a k hC hk => ?_) h x hseen
    cases hk with
    | execute tr rd => exact hC
    | load k hk => cases k <;> first | rfl | simp [LsqUnit.fromMemory, LsqUnit.fromStages] at hk
    | _ => rfl
  have hknown := Life.missKnown_of_reach hm hlife
  have hst : (s.life x).load.Stage c (s.life x).ready := LsqUnit.stage_of_reach hm h hseen
  obtain ⟨hsq, -⟩ := Life.retires_iff.mp hr
  have hknown := hknown.resolve_left (by simp [hsq])
  rcases Life.retired_cases hst hr with hd | ⟨ho, hret⟩
  · refine hd.verified (hknown.resolve_right fun hpost => ?_)
    simp [hd.plain.postFetch] at hpost
  refine ho.verified hret (hknown.resolve_right fun hpost => ?_) hlate
  have hno := (ho.coherent.tlb hpost.2).1
  rw [hret.safe] at hno
  cases hno

/-! ### A split load on the way to commit -/

/-- Both halves hit the private cache. -/
def bothHit : List UnitEvent :=
  [.load 3 (.oblResponse .low ⟨{ l0 := true }, true, true, [1]⟩),
    .load 3 (.oblResponse .high ⟨{ l0 := true }, true, true, [2]⟩)]

/-- The high half is found nowhere; then the private cache answers for the low half, before its
request is over. -/
def lateHit : List UnitEvent :=
  [.load 3 (.oblResponse .high ⟨{}, true, false, []⟩),
    .load 3 (.oblResponse .low ⟨{ l0 := true }, false, true, [1]⟩),
    .load 3 (.oblResponse .low ⟨{ l0 := true }, true, false, []⟩)]

/-- The dependent load is executed obliviously. -/
def splitLoadSent (missHigh : Bool) : List UnitEvent :=
  [.iewTick taken, .executeLoad 3 { missHigh, lineLow := 2, lineHigh := 3 } {}, .endCycle]

/-- The branch is resolved, so that the dependent load gets ready and is exposed. -/
def branchResolves : List UnitEvent :=
  [.rob (.setStatus 1 { canCommit := true }), .rob .cycle, .iewTick taken]

/-- The branch and the first load are committed, and the second load comes to the head. -/
def secondLoadHead : List UnitEvent :=
  [.load 2 .setCanCommit, .load 3 .setCanCommit, .rob .retireHead,
    .rob (.setStatus 2 { canCommit := true, readyToExpose := true }), .commitHead]

def splitLoadRun (missHigh : Bool) (answers : List UnitEvent) : List UnitEvent :=
  twoLoads true ++ firstLoadReads ++ splitLoadSent missHigh ++ answers ++ branchResolves ++
    secondLoadHead

def splitLoadEnd (missHigh : Bool) (answers : List UnitEvent) : LsqUnit :=
  afterUnit .greedy (splitLoadRun missHigh answers)

theorem run_splitLoad {missHigh : Bool} {answers : List UnitEvent}
    (h : ((lsqMachine (sdoConfig .greedy)).run emptyUnit (splitLoadRun missHigh answers)).isSome) :
    (lsqMachine (sdoConfig .greedy)).run emptyUnit (splitLoadRun missHigh answers) =
      some (splitLoadEnd missHigh answers) :=
  Machine.run_getD h

theorem retired_verified_splitLoad :
    (splitLoadEnd false bothHit).commits 3 = true ∧
      ((splitLoadEnd false bothHit).loads 3).Verified := by
  have hcommits : (splitLoadEnd false bothHit).commits 3 = true := by decide +kernel
  exact ⟨hcommits, retired_verified (c := sdoConfig .greedy) rfl
    (.run (.start (emptyUnit_start _)) (splitLoadRun false bothHit) (by decide +kernel)
      (run_splitLoad (by decide +kernel))) hcommits (by decide +kernel)⟩

/-- A half misses in the TLB, and the load retires with what the oblivious request brought. -/
theorem split_miss_retires :
    ¬∀ (c : LsqConfig) (s : LsqUnit) (x : Nat), c.enableMLDOM = true → c.tlbDefense = 3 →
      (lsqMachine c).Reach s → s.commits x = true → (s.loads x).Verified := by
  intro h
  have hreach : (lsqMachine (sdoConfig .greedy)).Reach (splitLoadEnd true bothHit) :=
    Machine.reach_run (emptyUnit_start _) (run_splitLoad (by decide +kernel))
  have hv := h _ _ 3 rfl rfl hreach (by decide +kernel)
  have hmissed : ((splitLoadEnd true bothHit).loads 3).obl.missed = true := by decide +kernel
  rw [hv.translated] at hmissed
  cases hmissed

/-- Both halves are in the TLB; the high one is found nowhere, and the load retires all the same:
the early hit of the low half stands for it. -/
theorem late_hit_retires :
    ¬∀ (c : LsqConfig) (s : LsqUnit) (x : Nat), c.enableMLDOM = true → c.tlbDefense = 3 →
      (lsqMachine c).ReachWhen (fun s e => s.halvesHit c e = true) s → s.commits x = true →
        (s.loads x).Verified := by
  intro h
  have hv := h (sdoConfig .greedy) (splitLoadEnd false lateHit) 3 rfl rfl
    (.run (.start (emptyUnit_start _)) (splitLoadRun false lateHit) (by decide +kernel)
      (run_splitLoad (by decide +kernel))) (by decide +kernel)
  have hmiss : ((splitLoadEnd false lateHit).loads 3).obl.high.hits.any = false := by decide +kernel
  obtain ⟨w, hw, hs⟩ : ∃ w, ((splitLoadEnd false lateHit).loads 3).wb.result = some w ∧
      w.source = .oblS := ⟨⟨.oblS, [1], []⟩, by decide +kernel, rfl⟩
  rw [(hv.hit w hw hs).2.1 (by decide +kernel)] at hmiss
  cases hmiss

end SdoCore
