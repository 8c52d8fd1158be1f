import SdoCore.Lsq.Coherent

/-! Every response to an oblivious load is handled: none of the assertions of
`completeDataAccess` fails and no case of the state machine is missing, and the load stays
coherent. -/

namespace SdoCore

open MldomState (confirmed)
open OblS (merge record)

namespace LoadInst

variable {c : LsqConfig} {ready : Bool} {l l' : LoadInst} {h : Half}

/-! ## Responses to the oblivious request -/

theorem Shape.early_hit (hs : Shape c l) (he : l.mldomState.early) :
    l.obl.hits.any := by
  cases hst : l.mldomState <;> rw [hst] at he <;> try cases he
  case Ab => exact (hs.at hst).2.2.2.2.1
  all_goals exact (hs.at hst).2.2.2

theorem handled_goto {st st' : MldomState} (hst : l.mldomState = st)
    (hsafe : st'.safe = st.safe) (hkind : st'.mayExpose = st.mayExpose)
    (hearly : st.early ∨ st'.early = false)
    (hs : ShapeAt c (l.goto st') st') : Handled c l (l.goto st') where
  fixed := rfl
  sends := rfl
  fault := id
  obl := rfl
  postFetch := rfl
  sent h := ⟨h, rfl⟩
  updates _ := rfl
  safe := hst ▸ hsafe
  kind := hst ▸ hkind
  pred _ := rfl
  early he := by
    have he : st'.early = true := he
    exact .inl (hst ▸ hearly.resolve_right (by simp [he]))
  shape := .of st' rfl hs

theorem awaitsPost_of_begun (hi : Coherent c ready l) (hsafe : l.mldomState.safe)
    (hb : l.HasBegun c false) : awaitsPost c ready l := by
  rcases hi.fault with hf | hf
  · cases hp : c.perfectUnsafe with
    | true => simp [awaitsPost, hp]
    | false => simp [awaitsPost, hf, hi.ready hsafe, hb.waiting hf (by simp [hp])]
  · simp [awaitsPost, hf]

/-- The oblivious request writes back a load that was not found safe. -/
theorem handled_confirm (hsafe : l.mldomState.safe = false) (hw : l.wb.Unwritten)
    (hidle : l.IsIdle) (ht : Trained c l.train false) (hv : l.obl.valPredOnMiss = false) :
    Handled c l (((l.goto .AB).afterWriteback .oblS).wroteBack true).predictOnMiss where
  fixed := rfl
  sends := rfl
  fault := id
  obl := rfl
  postFetch := rfl
  sent h := ⟨h, exposeSent_afterWriteback (l := l.goto .AB) .oblS h⟩
  updates _ := rfl
  safe := hsafe.symm
  kind := (MldomState.mayExpose_of_not_safe hsafe).symm
  pred := nofun
  early := nofun
  shape := by
    refine .of .AB rfl ⟨wasWritten_afterWriteback (l := l.goto .AB) hw true,
      isIdle_afterWriteback (l := l.goto .AB) hidle .oblS, ht, ?_⟩
    show (l.obl.valPredOnMiss || !l.obl.hits.any) = _
    rw [hv]
    rfl

/-- The oblivious request writes back a load whose validation is under way. -/
theorem spec_writeback (st : MldomState) (hm : c.enableMLDOM) (hi : Coherent c ready l)
    (hst : l.mldomState = .AC) (hh : l.obl.hits.any) (hsafe : st.safe)
    (hkind : st.mayExpose = false)
    (hearly : st.early → c.perfectUnsafe = false ∧ Settled l)
    (hs : ∀ x : LoadInst, x.WasWritten true → x.HasBegun c false → Trained c x.train true →
      x.obl = l.obl → ShapeAt c x st) :
    ∃ l', (((l.goto st).writeback c .oblS).map fun l =>
        (l.wroteBack true).updateLocationPredictor c .spec) = some l' ∧ Handled c l l' ∧
      l'.mldomState = st := by
  obtain ⟨hw, hb, ht⟩ := hi.shape.at hst
  have hwb := writeback_eq (l := l.goto st) (c.mldom_scheme hm).2 .oblS hw.executed hi.fault
  have htr := trained_update (l := ((l.goto st).afterWriteback .oblS).wroteBack true)
    (t := .spec) hm
    ht (updateLevel_spec (hi.flights.handled rfl rfl) hh)
  refine ⟨_, by rw [hwb, Option.map_some, updateLocationPredictor_eq], ?_, rfl⟩
  refine ⟨rfl, rfl, id, rfl, rfl, fun h => ⟨h, exposeSent_afterWriteback (l := l.goto st) .oblS h⟩,
    (fun h => by rw [hst] at h; cases h), by rw [hst]; exact hsafe, by rw [hst]; exact hkind,
    fun _ => rfl, fun he => .inr (hearly he), .of st rfl (hs _ ?_ ?_ htr rfl)⟩
  · exact wasWritten_afterWriteback (l := l.goto st) hw true
  · exact hasBegun_afterWriteback (l := l.goto st) hb .oblS

theorem predictOnMiss_eq (hh : l.obl.hits.any) : l.predictOnMiss = l := by
  rw [predictOnMiss, hh, Bool.not_true, Bool.or_false]

theorem transition_confirm (hm : c.enableMLDOM) (hi : Coherent c ready l)
    (hc : l.obl.complete) (hn : l.mldomState.confirmed = false)
    (hsq : l.mldomState = .toBeSquash → l.obl.tlbHit = false) :
    ∃ l', l.transition c ready .confirm = some l' ∧ Handled c l l' ∧
      (l'.mldomState = .toBeSquash ∧ l.mldomState = .toBeSquash ∨
        l'.mldomState.confirmed) := by
  have hinv := (c.mldom_scheme hm).2
  have hs := hi.shape
  cases hst : l.mldomState <;> rw [hst] at hn <;> try cases hn
  case A =>
    obtain ⟨hw, hidle, ht, hv⟩ := hs.at hst
    have hwb := writeback_eq (l := l.goto .AB) hinv .oblS hw.executed hi.fault
    refine ⟨_, ?_, handled_confirm (by rw [hst]; rfl) hw hidle ht hv, .inr rfl⟩
    have hsent : (l.fault.isSome || (!l.second.exposeSent && !l.second.exposeCompleted)) =
      true := by
      rcases hi.fault with hf | hf
      · simp [hidle.unsent hf]
      · simp [hf]
    simp [transition, hst, hc, hw.doneWB, hv, hwb, hsent]
  case Ab =>
    obtain ⟨hw, hidle, ht, hv, hh, hd⟩ := hs.at hst
    have hwb := writeback_eq (l := l.goto .AB) hinv .oblS hw.executed hi.fault
    refine ⟨_, ?_, handled_confirm (by rw [hst]; rfl) hw hidle ht hv, .inr rfl⟩
    rw [predictOnMiss_eq (l := ((l.goto .AB).afterWriteback .oblS).wroteBack true) hh]
    simp [transition, hst, hw.doneWB, hh, hd, hwb]
  case AC =>
    obtain ⟨hw, hb, ht⟩ := hs.at hst
    have hwait := awaitsPost_of_begun hi (by rw [hst]; rfl) hb
    cases hh : l.obl.hits.any with
    | false =>
      refine ⟨l.goto .ACB, by simp [transition, hst, hwait, hc, hh], ?_, .inr rfl⟩
      refine handled_goto hst rfl rfl (.inr rfl) ⟨?_, hb, ?_⟩
      · show if l.obl.hits.any then _ else _
        rw [hh]
        exact hw
      · show Trained c l.train l.obl.hits.any
        simpa [hh] using ht
    | true =>
      obtain ⟨l', heq, hd, hst'⟩ := spec_writeback .ACB hm hi hst hh rfl rfl nofun
        fun x h1 h2 h3 h4 => ⟨by rw [h4, if_pos hh]; exact h1, h2, by rw [h4, hh]; exact h3⟩
      refine ⟨l', ?_, hd, .inr (by rw [hst']; rfl)⟩
      simpa [transition, hst, hwait, hc, hh, hw.doneWB] using heq
  case ACD =>
    obtain ⟨hw, ha, ht⟩ := hs.at hst
    refine ⟨l.goto .ACDB, ?_, ?_, .inr rfl⟩
    · simp [transition, hst, ha.completed, hw.doneWB, hw.byOblS]
    · exact handled_goto hst rfl rfl (.inr rfl) ⟨hw, ha, ht⟩
  case AbC =>
    obtain ⟨hw, hb, ht, hh⟩ := hs.at hst
    refine ⟨l.goto .AbCB, ?_, ?_, .inr rfl⟩
    · simp [transition, hst, hh, hc, hw.doneWB, hw.byOblS]
    · exact handled_goto hst rfl rfl (.inl rfl) ⟨hw, hb, ht, hh⟩
  case ACb =>
    obtain ⟨hw, hb, ht, hh⟩ := hs.at hst
    refine ⟨l.goto .ACB, ?_, ?_, .inr rfl⟩
    · simp [transition, hst]
    refine handled_goto hst rfl rfl (.inr rfl) ⟨?_, hb, ?_⟩
    · show if l.obl.hits.any then _ else _
      rw [if_pos hh]
      exact hw
    · show Trained c l.train l.obl.hits.any
      rw [hh]
      exact ht
  case AbCD | ACbD =>
    obtain ⟨hw, ha, ht, hh⟩ := hs.at hst
    refine ⟨_, by simp [transition, hst, hh, hc, ha.completed]; rfl, ?_, .inr rfl⟩
    exact handled_goto hst rfl rfl (.inl rfl) ⟨hw, ha, ht, hh⟩
  case toBeSquash =>
    refine ⟨l, by simp [transition, hst, hsq hst], ?_, .inl ⟨hst, rfl⟩⟩
    exact hi.handled_self

theorem transition_earlyHit (hm : c.enableMLDOM) (hi : Coherent c ready l)
    (hpu : c.perfectUnsafe = false) (hc : l.obl.complete = false) (hh : l.obl.hits.any)
    (hn : l.mldomState.confirmed = false) (he : l.mldomState.early = false) (hset : Settled l)
    (hsq : l.mldomState = .toBeSquash → l.obl.tlbHit = false) :
    ∃ l', l.transition c ready .earlyHit = some l' ∧ Handled c l l' ∧
      (l'.mldomState = .toBeSquash ∧ l.mldomState = .toBeSquash ∨
        l.mldomState ≠ .toBeSquash ∧ l'.mldomState ≠ .toBeSquash ∧
          l'.mldomState.confirmed = false) := by
  have hs := hi.shape
  have hst : l.mldomState = .A ∨ l.mldomState = .AC ∨ l.mldomState = .ACD ∨
      l.mldomState = .toBeSquash := by
    revert hn he
    cases l.mldomState <;> simp [confirmed, MldomState.early]
  rcases hst with hst | hst | hst | hst
  · -- A
    obtain ⟨hw, hidle, ht, hv⟩ := hs.at hst
    refine ⟨{ l.goto .Ab with obl.pktDelayedWB := true }, ?_, ?_, .inr ⟨by simp [hst], nofun, rfl⟩⟩
    · simp [transition, hst, hh]
    exact ⟨rfl, rfl, id, rfl, rfl, fun h => ⟨h, rfl⟩, fun _ => rfl, by rw [hst]; rfl,
      by rw [hst]; rfl, fun _ => rfl, fun _ => .inr ⟨hpu, hset⟩,
      .of .Ab rfl ⟨hw, hidle, ht, hv, hh, rfl⟩⟩
  · -- AC
    obtain ⟨hw, hb, ht⟩ := hs.at hst
    have hwait := awaitsPost_of_begun hi (by rw [hst]; rfl) hb
    obtain ⟨l', heq, hd, hst'⟩ := spec_writeback .ACb hm hi hst hh rfl rfl
      (fun _ => ⟨hpu, hset⟩) fun x h1 h2 h3 h4 => ⟨h1, h2, h3, h4 ▸ hh⟩
    refine ⟨l', ?_, hd, .inr ⟨by simp [hst], by simp [hst'], by rw [hst']; rfl⟩⟩
    simpa [transition, hst, hwait, hc, hh, hw.doneWB] using heq
  · -- ACD
    obtain ⟨hw, ha, ht⟩ := hs.at hst
    refine ⟨l, ?_, ?_, .inr ⟨by simp [hst], by simp [hst], by rw [hst]; rfl⟩⟩
    · simp [transition, hst, ha.completed, hw.doneWB, hw.byOblS]
    · exact hi.handled_self
  · -- toBeSquash
    refine ⟨l, by simp [transition, hst, hsq hst], ?_, .inl ⟨hst, hst⟩⟩
    exact hi.handled_self

/-! ## Responses to the second access -/

theorem completeValidate_eq (l : LoadInst) :
    ∃ f, l.completeValidate =
        { l with fault := f, second := { l.second with exposeCompleted := true } } ∧
      (f = l.fault ∨ f = some .reExec) ∧
      (f = none → l.second.exposeCompleted ∨
        (l.wb.doneWB && l.wb.doneWBByOblS &&
          (l.data.vldLow != l.data.memLow || l.data.vldHigh != l.data.memHigh)) = false) := by
  simp only [completeValidate]
  split
  · next hc =>
    refine ⟨l.fault, ?_, .inl rfl, fun _ => .inl hc⟩
    rw [← hc]
  · refine ⟨_, rfl, ?_, ?_⟩
    · split
      · exact .inr rfl
      · exact .inl rfl
    · intro hf
      split at hf
      · cases hf
      · next hno => exact .inr (by simpa using hno)

variable {b m : Bool} {q : Post} {h : Half} {p : OblPkt}

theorem completeValidate_wasWritten (hw : l.WasWritten b) :
    l.completeValidate.WasWritten b := by
  obtain ⟨f, heq, hf, -⟩ := completeValidate_eq l
  rw [heq]
  refine { hw with result := fun hnone => hw.result ?_ }
  rcases hf with rfl | rfl
  · exact hnone
  · cases hnone

/-- No second access is under way or still to be sent. -/
structure Over (s : Second) : Prop where
  post : s.post = none
  needExpose : s.needExpose = false
  needValidate : s.needValidate = false

theorem completeValidate_isAnswered (hb : l.HasBegun c m) (ho : Over l.second)
    (hw : l.wb.doneWB) : l.completeValidate.IsAnswered := by
  obtain ⟨f, heq, hf, hok⟩ := completeValidate_eq l
  rw [heq]
  have hnone : f = none → l.fault = none := by
    rcases hf with rfl | rfl
    · exact id
    · nofun
  refine ⟨ho.post, ho.needExpose, ho.needValidate, rfl, fun h => ?_, fun h hval hby => ?_⟩
  · show l.second.exposeSent = true
    rw [hb.sent (hnone h), ho.needExpose, ho.needValidate]
    rfl
  · have hwait := (hb.validate hval).2.2.2 (hnone h)
    have hby : l.wb.doneWBByOblS = true := hby
    have hsame := (hok h).resolve_left (by simp [hwait])
    simpa [hw, hby] using hsame

theorem Shape.begun_of_post (hs : Shape c l) (hq : l.second.post = some q) :
    l.mldomState.begun := by
  have hidle (h : l.IsIdle) : False := by simp [h.post] at hq
  have hanswered (h : l.IsAnswered) : False := by simp [h.post] at hq
  cases hst : l.mldomState with
  | A | Ab | AB => exact (hidle (hs.at hst).2.1).elim
  | toBeSquash => exact (hidle (hs.at hst).1).elim
  | ABCD | ACBD | ACD | ACDB | AbCBD | AbCD | AbCDB | ACbD | ACbDB =>
    exact (hanswered (hs.at hst).2.1).elim
  | ABC | AC | ACB | AbC | AbCB | ACb => rfl

theorem Shape.hasBegun (hs : Shape c l) (hb : l.mldomState.begun) :
    ∃ m, l.HasBegun c m ∧ (m = false ↔ l.mldomState ∈ [MldomState.AC, .ACB, .ACb]) := by
  cases hst : l.mldomState <;> rw [hst] at hb <;> try cases hb
  case AC => exact ⟨false, (hs.at hst).2.1, by simp⟩
  case ACB => exact ⟨false, (hs.at hst).2.1, by simp⟩
  case ACb => exact ⟨false, (hs.at hst).2.1, by simp⟩
  all_goals exact ⟨true, (hs.at hst).2.1, by simp⟩

/-- A safe load moves on, and is neither confirmed nor squashed by it. -/
structure Answers (st st' : MldomState) : Prop where
  old : st.safe = true
  safe : st'.safe = st.safe
  kind : st'.mayExpose = st.mayExpose
  confirmed : st'.confirmed = st.confirmed
  early : st'.early = st.early
  stays : st' ≠ .toBeSquash

theorem answers_answered {st : MldomState} (h : st.begun) : Answers st st.answered := by
  cases st <;> first | exact ⟨rfl, rfl, rfl, rfl, rfl, nofun⟩ | cases h

/-- The response to a second access is handled. -/
def Responds (c : LsqConfig) (ready : Bool) (l : LoadInst) (e : Event) : Prop :=
  ∃ l', (l.transition c ready e).map completeValidate = some l' ∧ Handled c l l' ∧
    l'.mldomState ≠ .toBeSquash ∧ l'.mldomState.confirmed = l.mldomState.confirmed

theorem handled_validated (l l' : LoadInst)
    (hfix : l'.fixed = l.fixed) (hsend : l'.sends = l.sends) (hf : l'.fault = l.fault)
    (ho : l'.obl = l.obl) (hpf : l'.second.needPostFetch = l.second.needPostFetch)
    (hsent : l.fault = none → l'.second.exposeSent = l.second.exposeSent)
    (hst : l'.mldomState = l.mldomState.answered) (hbg : l.mldomState.begun)
    (hw : l'.WasWritten b) (hb : l'.HasBegun c m) (hover : Over l'.second)
    (ht : Trained c l'.train true)
    (hs : ∀ x : LoadInst, x.WasWritten b → x.IsAnswered → Trained c x.train true →
      x.obl = l.obl → ShapeAt c x l.mldomState.answered) :
    Handled c l l'.completeValidate ∧ l'.completeValidate.mldomState ≠ .toBeSquash ∧
      l'.completeValidate.mldomState.confirmed = l.mldomState.confirmed := by
  have ha := answers_answered hbg
  have hw' := completeValidate_wasWritten hw
  have ha' := completeValidate_isAnswered hb hover hw.doneWB
  obtain ⟨f, heq, hff, -⟩ := completeValidate_eq l'
  rw [heq] at hw' ha' ⊢
  refine ⟨⟨hfix, hsend, fun hl => ?_, ?_, hpf, fun hnone => ?_, fun h => by simp [ha.old] at h,
    hst ▸ ha.safe, hst ▸ ha.kind, fun _ => congrArg OblS.valPredOnMiss ho, fun he => .inl ?_, ?_⟩,
    hst ▸ ha.stays, hst ▸ ha.confirmed⟩
  · rcases hff with rfl | rfl
    · exact hf ▸ hl
    · exact .inr rfl
  · show l'.obl = _
    rw [ho]
  · have hnone : f = none := hnone
    subst hnone
    have hnone : l.fault = none := hf ▸ (hff.resolve_right nofun).symm
    exact ⟨hnone, hsent hnone⟩
  · rw [← ha.early, ← hst]
    exact he
  · exact .of _ hst (hs _ hw' ha' ht ho)

/-- A validation that only moves the state: the oblivious request wrote the load back. -/
theorem validated_goto (hbg : l.mldomState.begun)
    (heq : l.transition c ready .validate = some (l.goto l.mldomState.answered))
    (hw : l.WasWritten b) (hb : l.HasBegun c m) (hover : Over l.second)
    (ht : Trained c l.train true)
    (hs : ∀ x : LoadInst, x.WasWritten b → x.IsAnswered → Trained c x.train true →
      x.obl = l.obl → ShapeAt c x l.mldomState.answered) : Responds c ready l .validate := by
  refine ⟨(l.goto _).completeValidate, by rw [heq]; rfl, ?_⟩
  exact handled_validated l (l.goto _) rfl rfl rfl rfl rfl (fun _ => rfl) rfl hbg hw hb hover ht hs

theorem validated_writeback (st : MldomState) (hm : c.enableMLDOM) (hi : Coherent c ready l)
    (hbg : l.mldomState.begun) (hst : st = l.mldomState.answered)
    (heq : l.transition c ready .validate =
      ((l.goto st).writeback c .validate).map fun l =>
        (l.wroteBack false).updateLocationPredictor c .validate)
    (hw : l.wb.Unwritten) (hb : l.HasBegun c false) (hover : Over l.second)
    (ht : Trained c l.train false)
    (hs : ∀ x : LoadInst, x.WasWritten false → x.IsAnswered → Trained c x.train true →
      x.obl = l.obl → ShapeAt c x st) : Responds c ready l .validate := by
  have hwb := writeback_eq (l := l.goto st) (c.mldom_scheme hm).2 .validate hw.executed hi.fault
  have htr := trained_update (l := ((l.goto st).afterWriteback .validate).wroteBack false)
    (t := .validate) hm ht (fun _ => rfl)
  refine ⟨((((l.goto st).afterWriteback .validate).wroteBack false).updateLocationPredictor c
    .validate).completeValidate, by rw [heq, hwb]; rfl, ?_⟩
  rw [updateLocationPredictor_eq]
  generalize (updateLocationPredictor c _ .validate).train = tr at htr ⊢
  subst hst
  exact handled_validated l
    { ((l.goto _).afterWriteback .validate).wroteBack false with train := tr }
    rfl rfl rfl rfl rfl (exposeSent_afterWriteback (l := l.goto _) .validate) rfl hbg
    (wasWritten_afterWriteback (l := l.goto _) hw false)
    (hasBegun_afterWriteback (l := l.goto _) hb .validate)
    { hover with } htr hs

theorem transition_validate (hm : c.enableMLDOM) (hi : Coherent c ready l)
    (hcf : Confirmed l) (hbg : l.mldomState.begun) (hover : Over l.second) :
    Responds c ready l .validate := by
  have hs := hi.shape
  have hc : l.obl.complete = l.mldomState.confirmed :=
    hcf.complete (fun h => by rw [h] at hbg; cases hbg)
  have hbegun := hbg
  cases hst : l.mldomState <;> rw [hst] at hbg hc <;> try cases hbg
  case AC =>
    obtain ⟨hw, hb, ht⟩ := hs.at hst
    exact validated_writeback .ACD hm hi hbegun (hst ▸ rfl)
      (by simp [transition, hst, hc, confirmed, hw.doneWB]) hw hb hover ht
      fun x h1 h2 h3 _ => ⟨h1, h2, h3⟩
  case ACB =>
    obtain ⟨hw, hb, ht⟩ := hs.at hst
    cases hh : l.obl.hits.any with
    | true =>
      rw [if_pos hh] at hw
      rw [hh] at ht
      exact validated_goto hbegun
        (by simp [transition, hst, hc, confirmed, hw.doneWB, hw.byOblS, hh, MldomState.answered])
        hw hb hover ht fun x h1 h2 h3 h4 => hst ▸ ⟨by rw [h4, hh]; exact h1, h2, h3⟩
    | false =>
      rw [if_neg (by simp [hh])] at hw
      rw [hh] at ht
      exact validated_writeback .ACBD hm hi hbegun (hst ▸ rfl)
        (by simp [transition, hst, hc, confirmed, hh]) hw hb hover ht
        fun x h1 h2 h3 h4 => ⟨by rw [h4, hh]; exact h1, h2, h3⟩
  case ABC | AbC | AbCB | ACb =>
    obtain ⟨hw, hb, ht, hh⟩ := hs.at hst
    exact validated_goto hbegun
      (by simp [transition, hst, hc, confirmed, hw.doneWB, hw.byOblS, hh, MldomState.answered])
      hw hb hover ht fun x h1 h2 h3 h4 => hst ▸ ⟨h1, h2, h3, h4 ▸ hh⟩

theorem isAnswered_of_exposed (hb : l.HasBegun c m) (ho : Over l.second)
    (hec : l.second.exposeCompleted) : l.IsAnswered := by
  refine ⟨ho.post, ho.needExpose, ho.needValidate, hec, fun hf => ?_, fun hf hval _ => ?_⟩
  · rw [hb.sent hf, ho.needExpose, ho.needValidate]
    rfl
  · rw [(hb.validate hval).2.2.2 hf] at hec
    cases hec

theorem transition_expose (hi : Coherent c ready l) (hcf : Confirmed l)
    (hbg : l.mldomState.begun)
    (hpu : l.mldomState ∈ [MldomState.AC, .ACB, .ACb] → c.perfectUnsafe)
    (hover : Over l.second) (hec : l.second.exposeCompleted) :
    Responds c ready l .expose := by
  have hs := hi.shape
  have hc : l.obl.complete = l.mldomState.confirmed :=
    hcf.complete (fun h => by rw [h] at hbg; cases hbg)
  have ha := answers_answered hbg
  cases hst : l.mldomState <;> rw [hst] at hbg hc <;> try cases hbg
  case AC | ACB =>
    -- an expose that comes back before the oblivious request is not waited for
    have h := hpu (by simp [hst])
    exact ⟨l, by simp [transition, hst, h, completeValidate, hec], hi.handled_self, by simp [hst],
      by rw [hst]⟩
  case ABC | AbC | AbCB =>
    obtain ⟨hw, hb, ht, hh⟩ := hs.at hst
    rw [hst] at ha
    refine ⟨l.goto _, ?_, handled_goto hst ha.safe ha.kind (by rw [ha.early]; simp)
      ⟨hw, isAnswered_of_exposed hb hover hec, ht, hh⟩, ha.stays, hst ▸ ha.confirmed⟩
    simp [transition, hst, hc, confirmed, hw.doneWB, hw.byOblS, hh, completeValidate, goto, hec,
      MldomState.answered]
  case ACb =>
    -- the one case that is not handled
    have hno := hi.noEarly (hpu (by simp [hst]))
    rw [hst] at hno
    cases hno

/-- The fields that a response to the second access sets before the state machine. -/
def postArrived (l : LoadInst) (v : Option Nat) (low high : Bytes) (post : Option Post) :
    LoadInst :=
  { l with
    train := { l.train with expValHitLevel := v }
    data := { l.data with vldLow := low, vldHigh := high }
    second := { l.second with post := post } }

theorem hasBegun_postArrived (hb : l.HasBegun c m) (hq : l.second.post = some q) (v : Option Nat)
    (low high : Bytes) {post : Option Post}
    (hpost : ∀ k, post = some k → k.isValidate = q.isValidate) :
    (l.postArrived v low high post).HasBegun c m where
  __ := hb
  need hn := by
    rw [(hb.need hn).1] at hq
    cases hq
  post k hk := by
    rw [hpost k hk]
    exact hb.post q hq
  validate hv := by
    obtain ⟨h1, h2, h3, h4⟩ := hb.validate hv
    exact ⟨h1, h2, fun k hk => (hpost k hk).trans (h3 q hq), h4⟩

theorem Coherent.postArrived (hi : Coherent c ready l) (hq : l.second.post = some q)
    (v : Option Nat) (low high : Bytes) {post : Option Post}
    (hpost : ∀ k, post = some k → k.isValidate = q.isValidate) :
    Coherent c ready (l.postArrived v low high post) where
  __ := hi
  flights := hi.flights.handled rfl rfl
  shape := by
    refine hi.shape.map rfl rfl id (fun b hb hw => ?_) (fun h => ?_)
      (fun _ hb => hasBegun_postArrived hb hq v low high hpost) (fun h => ?_) (fun _ => id) rfl
    · rcases hb with rfl | ha
      · exact { hw with }
      · simp [ha.post] at hq
    · simp [h.post] at hq
    · simp [h.post] at hq

theorem Handled.confirmed (hh : Handled c l l') (hcf : Confirmed l)
    (hne : l'.mldomState ≠ .toBeSquash) (hl : l.mldomState ≠ .toBeSquash)
    (hc : l'.mldomState.confirmed = l.mldomState.confirmed) : Confirmed l' := by
  refine ⟨fun _ => ?_, fun h => absurd h hne⟩
  rw [hh.obl, hc]
  exact hcf.complete hl

theorem completePost_spec (hm : c.enableMLDOM) (hi : Coherent c ready l) (hcf : Confirmed l)
    (hsq : l.squashed = false) (hq : l.second.post = some q) (h : Half) (p : RespPkt) :
    ∃ l', l.completePost c ready q h p = some l' ∧ Next c ready l l' := by
  have hbg := hi.shape.begun_of_post hq
  obtain ⟨m, hb, hm'⟩ := hi.shape.hasBegun hbg
  have hdel : l.second.needDeletePostReq = false := (hb.post q hq).1
  have hkind : (q.close h).isValidate = q.isValidate := by cases h <;> rfl
  have hne : l.second.needExpose = false ∧ l.second.needValidate = false := by
    constructor
    · by_contra hn
      simp [(hb.need (.inl (by simpa using hn))).1] at hq
    · by_contra hn
      simp [(hb.need (.inr (by simpa using hn))).1] at hq
  have harr (post : Option Post) (hpost : ∀ k, post = some k → k.isValidate = q.isValidate) :=
    hi.postArrived hq (hitLevel l.acc.isSplit l.train.expValHitLevel p.hits)
      (if h == Half.low then p.data else l.data.vldLow)
      (if h == Half.high then p.data else l.data.vldHigh) hpost
  by_cases hmore : ((q.close h).low || (q.close h).high) = true
  · refine ⟨_, ?_, harr (some (q.close h)) (by simp [hkind]), ⟨hcf.complete, hcf.squash⟩, rfl, id,
      fun h => ⟨h, rfl⟩, fun _ => ⟨rfl, rfl⟩⟩
    simp [completePost, hdel, hmore, LoadInst.postArrived]
  · have hnsq : l.mldomState ≠ .toBeSquash := fun h => by rw [h] at hbg; cases hbg
    have heq : l.completePost c ready q h p =
        ((l.postArrived (hitLevel l.acc.isSplit l.train.expValHitLevel p.hits)
          (if h == Half.low then p.data else l.data.vldLow)
          (if h == Half.high then p.data else l.data.vldHigh) none).transition c ready
          (if q.isValidate then .validate else .expose)).map completeValidate := by
      simp [completePost, hdel, hmore, LoadInst.postArrived, hsq, hkind]
    have hnil := harr none nofun
    rw [heq]
    have hpost := (hb.post q hq).2
    obtain ⟨l', hl', hh, hne', hc⟩ : Responds c ready (l.postArrived _ _ _ none)
        (if q.isValidate then .validate else .expose) := by
      split at hpost
      · next hval =>
        rw [if_pos hval]
        exact transition_validate hm hnil ⟨hcf.complete, hcf.squash⟩ hbg ⟨rfl, hne.1, hne.2⟩
      · next hval =>
        rw [if_neg hval]
        exact transition_expose hnil ⟨hcf.complete, hcf.squash⟩ hbg
          (fun hst => by simpa [hm'.mpr hst] using hpost.2) ⟨rfl, hne.1, hne.2⟩ hpost.1
    have hn := hnil.next hh (hh.confirmed ⟨hcf.complete, hcf.squash⟩ hne' hnsq hc)
    exact ⟨l', hl', hn.coherent, hn.confirmed, hn.fixed, hn.fault, hn.safe, hn.quiet⟩

/-- The first half of an access that was refused counts for the level only. -/
theorem Coherent.stale (hi : Coherent c ready l) (p : RespPkt) :
    Coherent c ready (l.completeStale p) where
  __ := hi
  flights := hi.flights.handled rfl rfl
  shape := hi.shape.map rfl rfl id (fun _ _ => id)
    (fun h => { h with })
    (fun _ h => { h with })
    (fun h => { h with })
    (fun _ => id) rfl

/-! ## Packets of the oblivious request -/

/-- The fields that a packet sets before the state machine. -/
def withPacket (l : LoadInst) (o : OblS) (d : Data) : LoadInst := { l with obl := o, data := d }

structure Merged (c : LsqConfig) (l : LoadInst) (o : OblS) (d : Data) : Prop where
  flights : Flights c (l.withPacket o d)
  tlbHit : o.tlbHit = l.obl.tlbHit
  missed : o.missed = l.obl.missed
  delayed : o.pktDelayedWB = l.obl.pktDelayedWB
  valPred : o.valPredOnMiss = l.obl.valPredOnMiss
  hit : Settled l → l.obl.hits.any = true →
    o.hits.any = true ∧ d = l.data ∧ Settled (l.withPacket o d)
  vld : d.vldLow = l.data.vldLow ∧ d.vldHigh = l.data.vldHigh

theorem flights_merge (hf : Flights c l) (d : Data) (hout : (l.flight h).outstanding)
    (hsb : c.enableOblSContention = false → p.hits.sb = false) :
    Flights c (l.withPacket
      ((l.obl.record l.acc.isSplit h p).merge l.acc.isSplit h p) d) := by
  obtain ⟨-, hfirst, hsecond, hcomp, hhalves, hwhole, hnosb⟩ := hf
  cases hspl : l.acc.isSplit with
  | false =>
    cases h with
    | low =>
      have hhigh := hwhole hspl
      have hlow : l.obl.low.outstanding = true := hout
      have hc : l.obl.complete = false := by simp [hcomp, hlow]
      constructor
      · simp [withPacket, merge, record, hspl]
      · simp [withPacket, hspl]
      · simp [withPacket, hspl]
      · simp [withPacket, merge, record, hc, hhigh]
      · simp [withPacket, hspl]
      · simp [withPacket, merge, record, hhigh]
      · intro hn
        simp [withPacket, merge, record, Hits.nearest, hsb hn, hnosb hn]
    | high => simp [flight, hwhole hspl] at hout
  | true =>
    obtain ⟨hfst, hsnd⟩ := hhalves hspl
    have hfirst := hfirst hspl
    cases h with
    | low =>
      have hlow : l.obl.low.outstanding = true := hout
      rw [hlow] at hfirst hfst
      -- the last packet of the first half is filed there, the others under the second half
      cases hfin : p.isFinalPacket <;> constructor
      case true.second => simpa [withPacket, merge, record, OblPkt.isFirst, hfin] using hsecond
      case false.second =>
        intro _ hlate hhigh hany
        simp_all [withPacket, merge, record, OblPkt.isFirst]
      case true.noSB | false.noSB =>
        intro hn
        simp [withPacket, merge, record, OblPkt.isFirst, hfin, Hits.merge, hsb hn, hnosb hn]
      all_goals simp [withPacket, merge, record, OblPkt.isFirst, hfin, hspl, hfirst, hfst, hsnd]
    | high =>
      have hhigh : l.obl.high.outstanding = true := hout
      rw [hhigh] at hsnd
      constructor
      · simp [withPacket, merge, record, OblPkt.isFirst, hspl]
      · simp [withPacket, merge, record, OblPkt.isFirst, hfirst]
      · simp [withPacket, merge, record, OblPkt.isFirst]
      · simp [withPacket, merge, record, OblPkt.isFirst, hfst, hsnd]
      · simp [withPacket, merge, record, OblPkt.isFirst, hfst, hsnd]
      · simp [withPacket, hspl]
      · intro hn
        simp [withPacket, merge, record, OblPkt.isFirst, Hits.merge, hsb hn, hnosb hn]

/-- A packet for a load whose halves have both hit finds the same, and brings no data. -/
theorem Settled.packet (hs : Settled l) (hf : Flights c l) (hany : l.obl.hits.any)
    (hout : (l.flight h).outstanding) (hle : (l.flight h).hits.le p.hits) (d : Data) :
    ((l.obl.record l.acc.isSplit h p).merge l.acc.isSplit h p).hits.any = true ∧
      (l.flight h).hits.any = true ∧ Settled (l.withPacket
        ((l.obl.record l.acc.isSplit h p).merge l.acc.isSplit h p) d) := by
  have hhit := hf.hit
  rw [hany] at hhit
  cases hspl : l.acc.isSplit with
  | false =>
    cases h with
    | low =>
      have hlow : l.obl.low.hits.any = true := by simpa [hspl] using hhit.symm
      have hp := Hits.le_any hle hlow
      exact ⟨by simp [merge, hp], hlow, fun h => by simp [withPacket, hspl] at h⟩
    | high => simp [flight, hf.whole hspl] at hout
  | true =>
    obtain ⟨hlow, hhigh⟩ := hs hspl
    cases h with
    | low => simp [flight, hlow] at hout
    | high =>
      have hp := Hits.le_any hle hhigh
      have hfst : l.obl.fstHalfHit.any = true := by
        simp only [hspl, if_true] at hhit
        exact (Bool.and_eq_true_iff.mp hhit.symm).1
      refine ⟨?_, hhigh, fun _ => ⟨?_, ?_⟩⟩
      · simp [merge, record, OblPkt.isFirst, hfst, hp]
      · simpa [withPacket, merge, record, OblPkt.isFirst] using hlow
      · simpa [withPacket, merge, record, OblPkt.isFirst] using hp

theorem mergeHits_spec (hf : Flights c l) (hpf : l.second.needPostFetch) (hp : l.mayReceive c h p) :
    ∃ o d, l.mergeHits c h p = some (l.withPacket o d) ∧ Merged c l o d ∧
      (p.isFinalPacket = false → o.complete = false) ∧
      (p.isFinalPacket = false → p.hits.any = true → o.hits.any = true →
        Settled (l.withPacket o d)) := by
  simp only [mayReceive, Bool.and_eq_true, Bool.or_eq_true, Bool.not_eq_true'] at hp
  obtain ⟨⟨⟨hout, hle⟩, -⟩, hsb⟩ := hp
  have hsb (hn : c.enableOblSContention = false) : p.hits.sb = false := by simpa [hn] using hsb
  have hnew := fun d => flights_merge hf d hout hsb
  obtain ⟨htlb, hmissed, hdelayed, hpred⟩ :
      ((l.obl.record l.acc.isSplit h p).merge l.acc.isSplit h p).tlbHit = l.obl.tlbHit ∧
      ((l.obl.record l.acc.isSplit h p).merge l.acc.isSplit h p).missed = l.obl.missed ∧
      ((l.obl.record l.acc.isSplit h p).merge l.acc.isSplit h p).pktDelayedWB =
        l.obl.pktDelayedWB ∧
      ((l.obl.record l.acc.isSplit h p).merge l.acc.isSplit h p).valPredOnMiss =
        l.obl.valPredOnMiss := by
    cases h <;> cases l.acc.isSplit <;> cases hfin : p.isFinalPacket <;>
      simp [merge, record, OblPkt.isFirst, hfin]
  refine ⟨(l.obl.record l.acc.isSplit h p).merge l.acc.isSplit h p,
    if p.hits.any && !(l.flight h).hits.any then l.data.setMem h p.data else l.data, ?_,
    ⟨hnew _, htlb, hmissed, hdelayed, hpred, ?_, ?_⟩, ?_, ?_⟩
  · have hno : (l.acc.isSplit && ((l.obl.record l.acc.isSplit h p).merge
        l.acc.isSplit h p).hits.sb && !c.enableOblSContention) = false := by
      cases hn : c.enableOblSContention with
      | true => simp
      | false =>
        have hz := ((hnew l.data).noSB hn).1
        dsimp only [withPacket] at hz
        simp [hz]
    simp [mergeHits, receive, hpf, hno, withPacket]
  · intro hs hany
    obtain ⟨hhit, hhalf, hset⟩ := hs.packet hf hany hout hle l.data
    exact ⟨hhit, by simp [hhalf], hset⟩
  · split
    · cases h <;> exact ⟨rfl, rfl⟩
    · exact ⟨rfl, rfl⟩
  · intro hfin
    have hc := (hnew l.data).complete
    dsimp only [withPacket] at hc
    rw [hc]
    clear hnew hc
    cases h <;> cases hspl : l.acc.isSplit <;> simp [merge, record, OblPkt.isFirst, hfin]
  · -- nothing is filed under the first half before its last packet
    intro hfin hany hhit hsplit
    have hspl : l.acc.isSplit = true := hsplit
    have hfirst := hf.first hspl
    cases h with
    | low =>
      rw [show l.obl.low.outstanding = true from hout] at hfirst
      have hnone : l.obl.fstHalfHit.any = false := by rw [hfirst]; rfl
      simp [merge, record, OblPkt.isFirst, hspl, hfin, hnone] at hhit
    | high =>
      refine ⟨?_, by simpa [withPacket, merge, hspl, record, OblPkt.isFirst] using hany⟩
      by_contra hlow
      have hlow : l.obl.low.outstanding = true := by
        simpa [withPacket, merge, hspl, record, OblPkt.isFirst] using hlow
      rw [hlow] at hfirst
      have hnone : l.obl.fstHalfHit.any = false := by rw [hfirst]; rfl
      simp [merge, record, OblPkt.isFirst, hspl, hnone] at hhit

theorem Coherent.merged {o : OblS} {d : Data} (hi : Coherent c ready l) (hg : Merged c l o d)
    (hn : l.mldomState.confirmed = false) : Coherent c ready (l.withPacket o d) where
  __ := hi
  tlb h := hi.tlb (hg.tlbHit ▸ h)
  pred h := hg.valPred.trans (hi.pred h)
  settled he := (hg.hit (hi.settled he) (hi.shape.early_hit he)).2.2
  flights := hg.flights
  shape := by
    have hs := hi.shape
    have hhit (he : l.mldomState.early = true) := hg.hit (hi.settled he) (hs.early_hit he)
    -- once both halves have hit, the data is not touched any more
    have hwritten (he : l.mldomState.early = true) (hw : l.WasWritten true) :
        (l.withPacket o d).WasWritten true := by
      rw [(hhit he).2.1]
      exact hw
    have hanswered (he : l.mldomState.early = true) (ha : l.IsAnswered) :
        (l.withPacket o d).IsAnswered := by
      rw [(hhit he).2.1]
      exact ha
    cases hst : l.mldomState <;> rw [hst] at hn <;> try cases hn
    case A =>
      obtain ⟨hw, hidle, ht, hv⟩ := hs.at hst
      exact .of .A hst ⟨hw, hidle, ht, hg.valPred.trans hv⟩
    case AC =>
      obtain ⟨hw, hb, ht⟩ := hs.at hst
      exact .of .AC hst ⟨hw, hb, ht⟩
    case ACD =>
      obtain ⟨hw, ha, ht⟩ := hs.at hst
      refine .of .ACD hst ⟨{ hw with result := fun hf => ?_ },
        { ha with checked := fun _ _ hby => ?_ }, ht⟩
      · show l.wb.result = _
        rw [hw.result hf]
        simp [Data.written, withPacket, hg.vld]
      · have hby : l.wb.doneWBByOblS = true := hby
        rw [hw.byOblS] at hby
        cases hby
    case Ab =>
      have he : l.mldomState.early = true := by rw [hst]; rfl
      obtain ⟨hw, hidle, ht, hv, -, hd⟩ := hs.at hst
      exact .of .Ab hst ⟨hw, hidle, ht, hg.valPred.trans hv, (hhit he).1, hg.delayed.trans hd⟩
    case AbC | ACb =>
      have he : l.mldomState.early = true := by rw [hst]; rfl
      obtain ⟨hw, hb, ht, -⟩ := hs.at hst
      exact .of _ hst ⟨hwritten he hw, hb, ht, (hhit he).1⟩
    case AbCD | ACbD =>
      have he : l.mldomState.early = true := by rw [hst]; rfl
      obtain ⟨hw, ha, ht, -⟩ := hs.at hst
      exact .of _ hst ⟨hwritten he hw, hanswered he ha, ht, (hhit he).1⟩
    case toBeSquash =>
      obtain ⟨hidle, ht, hcalls⟩ := hs.at hst
      exact .of .toBeSquash hst ⟨hidle, ht, hcalls⟩

/-- A packet of the oblivious request is handled. Under the perfect predictor's unsafe variant
the packet with the data has to be the last one. -/
theorem completeOblS_spec (hm : c.enableMLDOM) (hi : Coherent c ready l) (hcf : Confirmed l)
    (hsq : l.squashed = false) (hp : l.mayReceive c h p)
    (hlast : c.perfectUnsafe → p.carryData → p.isFinalPacket) :
    ∃ l', l.completeOblS c ready h p = some l' ∧ Next c ready l l' := by
  obtain ⟨o, d, hmerge, hg, hfin, hset⟩ := mergeHits_spec hi.flights hi.postFetch hp
  simp only [mayReceive, Bool.and_eq_true, Bool.or_eq_true, Bool.not_eq_true'] at hp
  obtain ⟨⟨⟨hout, hle⟩, hfirst⟩, -⟩ := hp
  -- the half is under way, so the request was not complete
  have hnc : l.obl.complete = false := by
    rw [hi.flights.complete]
    cases h <;> simp_all [flight]
  have hsquash : l.mldomState = .toBeSquash → l.obl.tlbHit = false := by
    intro hst
    by_contra htlb
    have := hcf.squash hst (by simpa using htlb)
    simp [hnc] at this
  have hn : l.mldomState.confirmed = false := by
    by_cases hst : l.mldomState = .toBeSquash
    · rw [hst]
      rfl
    · rw [← hcf.complete hst]
      exact hnc
  have hk := hi.merged hg hn
  simp only [completeOblS, hmerge, Option.bind_some]
  generalize hkdef : l.withPacket o d = k at hk ⊢
  have hst : k.mldomState = l.mldomState := by subst hkdef; rfl
  have hks : k.squashed = false := by subst hkdef; exact hsq
  have hkfix : k.fixed = l.fixed := by
    subst hkdef
    simp only [LoadInst.fixed, withPacket, hg.tlbHit, hg.missed]
  have hnext {l' : LoadInst} (hn : Next c ready k l') : Next c ready l l' := by
    have hf := hn.fixed.trans hkfix
    subst hkdef
    exact { hn with fixed := hf }
  have hkc : k.obl.complete = o.complete := by subst hkdef; rfl
  have hksq : k.mldomState = .toBeSquash → k.obl.tlbHit = false := by
    intro h
    rw [hst] at h
    rw [← hkdef]
    exact hg.tlbHit.trans (hsquash h)
  have hkn : k.mldomState.confirmed = false := hst ▸ hn
  have hstay (hc : k.obl.complete = false) : Confirmed k :=
    ⟨fun _ => hc.trans hkn.symm, fun h ht => by simp [hksq h] at ht⟩
  cases hev : k.oblEvent p with
  | none =>
    refine ⟨k, rfl, hnext (hk.next_self (hstay ?_))⟩
    simp only [oblEvent] at hev
    split at hev
    · split at hev
      · next hwait =>
        rw [hk.flights.complete]
        rcases Bool.or_eq_true_iff.mp hwait with hw | hw <;> simp [hw]
      · split at hev
        · cases hev
        · next hc => simpa using hc
    · next hf => exact hkc.trans (hfin (by simpa using hf))
  | some e =>
    have hcase : (e = .confirm ∧ k.obl.complete = true) ∨
        (e = .earlyHit ∧ p.isFinalPacket = false ∧ k.obl.hits.any = true ∧
          p.carryData = true) := by
      simp only [oblEvent] at hev
      split at hev
      · split at hev
        · cases hev
        split at hev
        · next hc => cases hev; exact .inl ⟨rfl, hc⟩
        · cases hev
      · split at hev
        · next hf hh =>
          cases hev
          simp only [Bool.and_eq_true] at hh
          exact .inr ⟨rfl, by simpa using hf, hh⟩
        · cases hev
    simp only [hks, Bool.false_eq_true, if_false]
    rcases hcase with ⟨rfl, hc⟩ | ⟨rfl, hf, hh, hdata⟩
    · obtain ⟨l', heq, hd, hcases⟩ := transition_confirm hm hk hc hkn hksq
      refine ⟨l', heq, hnext (hk.next hd ?_)⟩
      have hc' : l'.obl.complete = true := by rw [hd.obl]; exact hc
      rcases hcases with ⟨hst', -⟩ | hconf
      · exact ⟨fun h => absurd hst' h, fun _ _ => hc'⟩
      · exact ⟨fun _ => hc'.trans hconf.symm, fun _ _ => hc'⟩
    · have hpu : c.perfectUnsafe = false := by
        by_contra hpu
        simp [hlast (by simpa using hpu) hdata] at hf
      have hc : k.obl.complete = false := hkc.trans (hfin hf)
      have hearly : k.mldomState.early = false := by
        by_contra he
        have he : l.mldomState.early = true := by simpa [hst] using he
        -- the load had hit, so this is not the first packet with data
        have hone := (hfirst.resolve_left (by simp [hdata])).2
        have hhalf := ((hi.settled he).packet hi.flights (hi.shape.early_hit he) hout hle d).2.1
        rw [hone] at hhalf
        cases hhalf
      have hany : p.hits.any = true := (hfirst.resolve_left (by simp [hdata])).1
      have hks : Settled k := by
        subst hkdef
        exact hset hf hany hh
      obtain ⟨l', heq, hd, hcases⟩ := transition_earlyHit hm hk hpu hc hh hkn hearly hks hksq
      refine ⟨l', heq, hnext (hk.next hd ?_)⟩
      have hc' : l'.obl.complete = false := by rw [hd.obl]; exact hc
      rcases hcases with ⟨hst', hst⟩ | ⟨-, hne, hconf⟩
      · refine ⟨fun h => absurd hst' h, fun _ ht => ?_⟩
        have : k.obl.tlbHit = true := by rw [hd.obl] at ht; exact ht
        simp [hksq hst] at this
      · exact ⟨fun _ => hc'.trans hconf.symm, fun h => absurd h hne⟩

end LoadInst

end SdoCore
