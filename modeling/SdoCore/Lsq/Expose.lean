import SdoCore.Lsq.Coherent

/-! `exposeLoads` at an oblivious load: it finds a state it knows, sends or retries one kind of
second access, and the load stays coherent. -/

namespace SdoCore

open List

namespace LoadInst

variable {c : LsqConfig} {ready : Bool} {l l' : LoadInst} {h : Half}

/-! ## The pass over the safe loads -/

/-- Nothing is said about the second access of a load with a fault. -/
theorem Coherent.faulted (hi : Coherent c ready l) (sent done commit : Bool)
    (hdone : l.second.exposeCompleted → done) :
    Coherent c ready { l with
      fault := some .reExec
      second := { l.second with exposeSent := sent, exposeCompleted := done }
      wb := { l.wb with sentToCommit := commit } } where
  __ := hi
  fault := .inr rfl
  kind h hp := ⟨(hi.kind h hp).1, nofun⟩
  flights := hi.flights.handled rfl rfl
  shape := by
    refine hi.shape.map rfl rfl (fun h => { h with })
      (fun _ _ h => { h with result := nofun })
      (fun h => { h with unsent := nofun }) (fun _ hb => ?_)
      (fun h => ⟨h.post, h.needExpose, h.needValidate, hdone h.completed, nofun, nofun⟩)
      (fun _ => id) rfl
    refine ⟨hb.both, nofun, fun h => ⟨(hb.need h).1, nofun⟩, hb.needExpose, hb.needValidate,
      fun q hq => ⟨(hb.post q hq).1, ?_⟩, nofun, fun h => ?_⟩
    · have hp := (hb.post q hq).2
      split at hp
      · rw [if_pos ‹_›]
        exact hp
      · rw [if_neg ‹_›]
        exact ⟨hdone hp.1, hp.2⟩
    · obtain ⟨h1, h2, h3, -⟩ := hb.validate h
      exact ⟨h1, h2, h3, nofun⟩

def withSecond (l : LoadInst) (s : Second) (sends : List SendKind) : LoadInst :=
  { l with second := s, sends := sends }

/-- The load wants exactly one kind of second access. -/
structure Wanted (c : LsqConfig) (l : LoadInst) (mayExpose : Bool) : Prop where
  one : l.second.needExpose = !l.second.needValidate
  post : l.second.post = none
  unsent : l.second.exposeSent = false ∧ l.second.exposeCompleted = false
  expose : l.second.needExpose = true → (mayExpose || c.perfectUnsafe) = true
  validate : .validate ∈ l.sends → l.second.needExpose = false ∧ c.perfectUnsafe = false

theorem exposeAlways_eq (c : LsqConfig) (l : LoadInst) :
    l.exposeAlways c = { l with second := (l.exposeAlways c).second } := by
  simp only [exposeAlways]
  split <;> rfl

theorem Wanted.always {m : Bool} (hw : Wanted c l m) :
    Wanted c (l.exposeAlways c) m ∧
      ((l.exposeAlways c).second.needValidate → c.perfectUnsafe = false) ∧
      (l.exposeAlways c).second.needPostFetch = l.second.needPostFetch := by
  simp only [exposeAlways]
  split
  · next hp =>
    refine ⟨⟨rfl, hw.post, hw.unsent, fun _ => by simp [hp], fun hv => ?_⟩, by simp, rfl⟩
    simp [(hw.validate hv).2] at hp
  · next hp => exact ⟨hw, fun _ => by simpa using hp, rfl⟩

/-- A load that was refused goes on wanting its second access. -/
theorem Wanted.begun {m : Bool} (hw : Wanted c l m)
    (hpu : l.second.needValidate → c.perfectUnsafe = false) {sends : List SendKind} {n : Nat}
    (hs : .validate ∈ sends → l.second.needExpose = false ∧ c.perfectUnsafe = false) :
    { l.second with staleResponses := n }.Begun c none sends m where
  both h := by
    have := hw.one
    simp_all
  sent _ := by
    show l.second.exposeSent = (!l.second.needExpose && !l.second.needValidate)
    rw [hw.unsent.1, hw.one]
    simp
  need _ := ⟨hw.post, fun _ => hw.unsent.2⟩
  needExpose := hw.expose
  needValidate := hpu
  post q hq := by
    have hq : l.second.post = some q := hq
    simp [hw.post] at hq
  waiting _ _ := hw.unsent.2
  validate h := ⟨(hs h).1, (hs h).2, fun q hq => by
    have hq : l.second.post = some q := hq
    simp [hw.post] at hq, fun _ => hw.unsent.2⟩

theorem mem_postKind (hw : l.second.needExpose = !l.second.needValidate)
    (hpu : l.second.needValidate → c.perfectUnsafe = false) (h : .validate = l.postKind) :
    l.second.needExpose = false ∧ c.perfectUnsafe = false := by
  simp only [postKind] at h
  split at h
  · cases h
  rename_i hne
  have hne : l.second.needExpose = false := by simpa using hne
  exact ⟨hne, hpu (by simpa [hne] using hw)⟩

/-- The second access is under way or still wanted. -/
structure Offered (c : LsqConfig) (l : LoadInst) (mayExpose : Bool) (s : Second)
    (sends : List SendKind) : Prop where
  begun : s.Begun c none sends mayExpose
  postFetch : s.needPostFetch = l.second.needPostFetch
  exposeOnly : s.needExposeOnly = l.second.needExposeOnly
  kind : (mayExpose || c.perfectUnsafe) = false → .expose ∉ l.sends →
    .expose ∉ sends ∧ (s.exposeSent = true → .validate ∈ sends)

theorem sendPost_spec {m : Bool} (hw : Wanted c l m) (fst snd : Bool) :
    ∃ s sends, l.sendPost c fst snd = some (l.withSecond s sends) ∧ Offered c l m s sends := by
  obtain ⟨hk, hpu, hpf⟩ := hw.always
  have heq := exposeAlways_eq c l
  have hso : (l.exposeAlways c).second.needExposeOnly = l.second.needExposeOnly := by
    simp only [exposeAlways]
    split <;> rfl
  unfold sendPost
  generalize l.exposeAlways c = k at heq hk hpu hpf hso
  have hsends : k.sends = l.sends := by rw [heq]
  have hone : ¬ (k.second.needExpose == k.second.needValidate) = true := by simp [hk.one]
  have hkind := mem_postKind hk.one hpu
  have hvalidate (hm : (m || c.perfectUnsafe) = false) : k.postKind = .validate :=
    if_neg (fun he => by simp [hk.expose he] at hm)
  have hunsent : ¬ k.second.exposeSent = true := by simp [hk.unsent.1]
  rw [if_neg hone]
  split
  · refine ⟨k.second, l.sends, by rw [withSecond, ← heq], ?_, hpf, hso,
      fun _ hn => ⟨hn, fun h => absurd h hunsent⟩⟩
    exact hk.begun (n := k.second.staleResponses) hpu (hsends ▸ hk.validate)
  · split
    · refine ⟨{ k.second with staleResponses := k.second.staleResponses + 1 },
        l.sends ++ [k.postKind], by rw [heq]; rfl, ?_, hpf, hso,
        fun hm hn => ⟨by simp [hvalidate hm, hn], fun h => absurd h hunsent⟩⟩
      refine hk.begun hpu (fun h => ?_)
      rcases mem_append.mp h with h | h
      · exact hk.validate (hsends ▸ h)
      · exact hkind (mem_singleton.mp h)
    · refine ⟨k.postSent.second, k.postSent.sends, by rw [heq]; rfl, ?_, hpf, hso, fun hm hn => ?_⟩
      on_goal 2 =>
        simp only [postSent, hvalidate hm, hsends, mem_append, not_or]
        exact ⟨⟨hn, by split <;> simp⟩, fun _ => .inr (by split <;> simp)⟩
      have hval : .validate ∈ k.postSent.sends → k.second.needExpose = false ∧
          c.perfectUnsafe = false := by
        intro h
        rcases mem_append.mp h with h | h
        · exact hk.validate h
        · split at h <;> simp at h <;> exact hkind h
      have hcomp : k.postSent.second.exposeCompleted = k.second.needExpose := by
        simp [postSent, hk.unsent.2]
      refine ⟨nofun, fun _ => rfl, by simp [postSent], nofun, nofun, fun q hq => ?_, fun _ hm => ?_,
        fun h => ⟨rfl, (hval h).2, fun q hq => ?_, fun _ => ?_⟩⟩
      · cases hq
        refine ⟨rfl, ?_⟩
        split
        · next hv => exact hpu hv
        rename_i hv
        have he : k.second.needExpose = true := by simpa [hk.one] using hv
        exact ⟨hcomp.trans he, hk.expose he⟩
      · rw [hcomp]
        by_contra he
        simp [hk.expose (by simpa using he)] at hm
      · cases hq
        simpa [(hval h).1] using hk.one
      · rw [hcomp]
        exact (hval h).1

theorem chooseSecond_spec (hidle : l.second.Idle none l.sends) (fst snd : Bool) :
    ∃ s sends flow, l.chooseSecond c fst snd = some (l.withSecond s sends, flow) ∧
      Offered c l true s sends := by
  have hexp : Wanted c l.wantExpose true :=
    ⟨by simp [wantExpose, hidle.needValidate], hidle.post, hidle.unsent rfl, fun _ => rfl,
      fun h => absurd h hidle.sends⟩
  have hval : Wanted c l.wantValidate true :=
    ⟨by simp [wantValidate, hidle.needExpose], hidle.post, hidle.unsent rfl, fun _ => rfl,
      fun h => absurd h hidle.sends⟩
  obtain ⟨s1, t1, heq1, ho1⟩ := sendPost_spec hexp fst snd
  obtain ⟨s2, t2, heq2, ho2⟩ := sendPost_spec hval fst snd
  have ho1 : Offered c l true s1 t1 := { ho1 with kind := nofun }
  have ho2 : Offered c l true s2 t2 := { ho2 with kind := nofun }
  have hdone : Second.Begun c none { l.second with
      needDeletePostReq := true, exposeSent := true, exposeCompleted := true } l.sends true := by
    refine ⟨fun _ => hidle.needValidate, fun _ => ?_, fun h => ?_, fun _ => rfl, fun h => ?_,
      fun q hq => ?_, nofun, fun h => absurd h hidle.sends⟩
    · simp [hidle.needExpose, hidle.needValidate]
    · simp [hidle.needExpose, hidle.needValidate] at h
    · simp [hidle.needValidate] at h
    · simp [hidle.post] at hq
  simp only [chooseSecond]
  split
  · exact ⟨s1, t1, .next, by rw [heq1]; rfl, ho1⟩
  split
  · exact ⟨_, l.sends, .stop, rfl, hdone, rfl, rfl, nofun⟩
  split
  · exact ⟨s1, t1, .next, by rw [heq1]; rfl, ho1⟩
  · exact ⟨s2, t2, .next, by rw [heq2]; rfl, ho2⟩

theorem Shape.idle (hs : Shape c l) (hsafe : l.mldomState.safe = false) :
    l.IsIdle ∧ Trained c l.train false ∧ l.wb.calls ≤ 1 := by
  cases hst : l.mldomState <;> rw [hst] at hsafe <;> try cases hsafe
  case A | AB | Ab =>
    obtain ⟨hw, hidle, ht, -⟩ := hs.at hst
    exact ⟨hidle, ht, by simp [hw.calls]⟩
  case toBeSquash => exact hs.at hst

theorem squashLoad_coherent (hi : Coherent c ready l) (hsafe : l.mldomState.safe = false) :
    Coherent c ready l.squashLoad where
  __ := hi
  ready := nofun
  tlb h := ⟨rfl, (hi.tlb h).2⟩
  noEarly _ := rfl
  settled := nofun
  pred := nofun
  kind _ := hi.kind (MldomState.mayExpose_of_not_safe hsafe)
  flights := hi.flights.handled rfl rfl
  shape := .of .toBeSquash rfl (hi.shape.idle hsafe)

/-- A load that is safe and whose second access has begun. -/
theorem next_begun (hi : Coherent c ready l) (hr : ready) (k : LoadInst) (st : MldomState)
    (hst : k.mldomState = st) (htlb : l.obl.tlbHit)
    (hfix : k.fixed = l.fixed) (hf : l.fault = none) (hfault : k.fault = none)
    (hobl : k.obl = l.obl) (hpf : k.second.needPostFetch = l.second.needPostFetch)
    (hpred : l.obl.valPredOnMiss = false)
    (hkind : st.mayExpose = false → c.perfectUnsafe = false →
      .expose ∉ k.sends ∧ (k.second.exposeSent → .validate ∈ k.sends))
    (hearly : l.mldomState.early ∨ st.early = false)
    (hsafe : st.safe ∧ (l.mldomState.safe → st = l.mldomState))
    (hc : Confirmed k) (hs : ShapeAt c k st) : Next c ready l k where
  coherent :=
    { postFetch := hpf.trans hi.postFetch
      fault := .inl hfault
      ready := fun _ => hr
      tlb := fun h => by simp [hobl, htlb] at h
      noEarly := fun hp => hst ▸ hearly.resolve_left (by simp [hi.noEarly hp])
      settled := fun he => (hi.settled (hearly.resolve_right (by simp [← hst, he]))).handled
        (congrArg Fixed.acc hfix) (by rw [hobl])
      pred := fun _ => hobl ▸ hpred
      kind := fun h hp => ⟨(hkind (hst ▸ h) hp).1, fun _ => (hkind (hst ▸ h) hp).2⟩
      flights := hi.flights.handled (congrArg Fixed.acc hfix) (by rw [hobl])
      shape := .of st hst hs }
  confirmed := hc
  fixed := hfix
  fault _ := hf
  safe h := ⟨hst ▸ hsafe.1, by rw [hst, hsafe.2 h]⟩
  quiet h := by simp [hr] at h

theorem wanted_of_begun {m : Bool} (hb : l.HasBegun c m) (hf : l.fault = none)
    (hsent : l.second.exposeSent = false) : Wanted c l m := by
  have hs := hb.sent hf
  rw [hsent] at hs
  have hneed : l.second.needExpose = true ∨ l.second.needValidate = true := by
    by_contra h
    simp_all
  refine ⟨?_, (hb.need hneed).1, ⟨hsent, (hb.need hneed).2 hf⟩, hb.needExpose,
    fun h => ⟨(hb.validate h).1, (hb.validate h).2.1⟩⟩
  rcases hneed with he | hv
  · simp [he, hb.both he]
  rw [hv]
  by_contra he
  simp [hb.both (by simpa using he)] at hv

theorem next_squashLoad (hi : Coherent c ready l) (hr : ready)
    (hsafe : l.mldomState.safe = false) (hc : l.obl.tlbHit → l.obl.complete) :
    Next c ready l l.squashLoad where
  coherent := squashLoad_coherent hi hsafe
  confirmed := ⟨fun h => absurd rfl h, fun _ => hc⟩
  fixed := rfl
  fault := id
  safe h := by simp [hsafe] at h
  quiet h := by simp [hr] at h

theorem fixed_withSecond {s : Second} {sends : List SendKind}
    (h : s.needExposeOnly = l.second.needExposeOnly) : (l.withSecond s sends).fixed = l.fixed := by
  simp only [fixed, withSecond, h]

theorem exposeSafe_spec (hm : c.enableMLDOM) (hi : Coherent c ready l) (hcf : Confirmed l)
    (hr : ready) (hf : l.fault = none) (hsent : l.second.exposeSent = false)
    (hcm : l.committed = false) (fst snd : Bool) :
    ∃ l' flow, l.exposeSafe c fst snd = some (l', flow) ∧ Next c ready l l' := by
  have hs := hi.shape
  have hinv := (c.mldom_scheme hm).2
  unfold exposeSafe
  rw [if_neg (by simp [hcm, hm])]
  cases htlb : l.obl.tlbHit with
  | false =>
    obtain ⟨hsafe, hdef⟩ := hi.tlb htlb
    exact ⟨l.squashLoad, .miss, by simp [hdef], next_squashLoad hi hr hsafe (by simp [htlb])⟩
  | true =>
    -- a load whose second access was refused before
    have hretry {m : Bool} (hb : l.HasBegun c m) : ∃ s sends,
        l.sendPost c fst snd = some (l.withSecond s sends) ∧ Offered c l m s sends :=
      sendPost_spec (wanted_of_begun hb hf hsent) fst snd
    have hwant {m : Bool} (hb : l.HasBegun c m) :
        (l.second.needExpose || l.second.needValidate) = true := by
      have := (wanted_of_begun hb hf hsent).one
      simp [this]
    have hans (ha : l.IsAnswered) : False := by simp [ha.sent hf] at hsent
    have hcomplete := hcf.complete
    cases hst : l.mldomState with
    | A =>
      obtain ⟨hw, hidle, ht, hv⟩ := hs.at hst
      have hwanted : Wanted c (l.goto .AC).wantValidate false :=
        ⟨by simp [wantValidate, goto, hidle.needExpose], hidle.post, hidle.unsent hf,
          fun h => by simp [wantValidate, goto, hidle.needExpose] at h,
          fun h => absurd h hidle.sends⟩
      obtain ⟨s, sends, heq, ho⟩ := sendPost_spec hwanted fst snd
      refine ⟨(l.goto .AC).wantValidate.withSecond s sends, .next, by simp only [heq]; rfl, ?_⟩
      refine next_begun hi hr _ .AC rfl htlb (fixed_withSecond ho.exposeOnly) hf hf rfl ho.postFetch
        hv (fun _ hp => ho.kind hp (hi.kind (by rw [hst]; rfl) hp).1) (.inr rfl)
        ⟨rfl, by simp [hst, MldomState.safe]⟩ ⟨fun _ => ?_, nofun⟩
        ⟨hw, by have hb := ho.begun; rw [← hf] at hb; exact hb, ht⟩
      show l.obl.complete = false
      rw [hcomplete (by simp [hst]), hst]
      rfl
    | AB =>
      obtain ⟨hw, hidle, ht, hv⟩ := hs.at hst
      have hc : l.obl.complete = true := by
        rw [hcomplete (by simp [hst]), hst]
        rfl
      cases hh : l.obl.hits.any with
      | false =>
        exact ⟨l.squashLoad, .miss, by simp [hc, hv, hh],
          next_squashLoad hi hr (by rw [hst]; rfl) (fun _ => hc)⟩
      | true =>
        have htr := trained_update (l := l.goto .ABC) (t := .spec) hm ht
          (updateLevel_spec (hi.flights.handled rfl rfl) hh)
        simp only [hc, Bool.not_true, Bool.false_eq_true, if_false]
        rw [updateLocationPredictor_eq]
        generalize (updateLocationPredictor c (l.goto .ABC) .spec).train = tr at htr ⊢
        have hidle' : l.second.Idle none l.sends := hf ▸ hidle
        obtain ⟨s, sends, flow, heq, ho⟩ :=
          chooseSecond_spec (c := c) (l := { l.goto .ABC with train := tr }) hidle' fst snd
        refine ⟨_, flow, heq, ?_⟩
        exact next_begun hi hr _ .ABC rfl htlb (fixed_withSecond ho.exposeOnly) hf hf rfl
          ho.postFetch (by simp [hv, hh]) nofun (.inr rfl) ⟨rfl, by simp [hst, MldomState.safe]⟩
          ⟨fun _ => hc, nofun⟩
          ⟨hw, by have hb := ho.begun; rw [← hf] at hb; exact hb, htr, hh⟩
    | Ab =>
      obtain ⟨hw, hidle, ht, hv, hh, hd⟩ := hs.at hst
      have hwb := writeback_eq (l := l.goto .AbC) hinv .oblS hw.executed hi.fault
      have htr := trained_update (l := ((l.goto .AbC).afterWriteback .oblS).wroteBack true)
        (t := .spec) hm ht (updateLevel_spec (hi.flights.handled rfl rfl) hh)
      simp only [hd, hh, hw.doneWB, hwb, Bool.not_true, Bool.or_false, Bool.false_eq_true, if_false,
        Option.bind_some]
      rw [updateLocationPredictor_eq]
      generalize (updateLocationPredictor c _ .spec).train = tr at htr ⊢
      have hidle' : Second.Idle none ((l.goto .AbC).afterWriteback .oblS).second l.sends :=
        hf ▸ isIdle_afterWriteback (l := l.goto .AbC) hidle .oblS
      obtain ⟨s, sends, flow, heq, ho⟩ := chooseSecond_spec (c := c)
        (l := { ((l.goto .AbC).afterWriteback .oblS).wroteBack true with train := tr })
        hidle' fst snd
      refine ⟨_, flow, heq, ?_⟩
      refine next_begun hi hr _ .AbC rfl htlb (fixed_withSecond ho.exposeOnly) hf hf rfl
        ho.postFetch hv nofun (.inl (by rw [hst]; rfl)) ⟨rfl, by simp [hst, MldomState.safe]⟩
        ⟨fun _ => ?_, nofun⟩
        ⟨wasWritten_afterWriteback (l := l.goto .AbC) hw true,
          by have hb := ho.begun; rw [← hf] at hb; exact hb, htr, hh⟩
      show l.obl.complete = false
      rw [hcomplete (by simp [hst]), hst]
      rfl
    | toBeSquash =>
      obtain ⟨hidle, ht, hcalls⟩ := hs.at hst
      exact ⟨l, .stop, by simp [hidle.needExpose, hidle.needValidate], hi.next_self hcf⟩
    | ABCD | ACBD | ACD | ACDB | AbCBD | AbCD | AbCDB | ACbD | ACbDB =>
      exact (hans (hs.at hst).2.1).elim
    | AC | ACB | ACb =>
      -- The access has begun and was not sent: it is tried again in the same state.
      obtain ⟨hw, hb, hrest⟩ := hs.at hst
      obtain ⟨s, sends, heq, ho⟩ := hretry hb
      refine ⟨l.withSecond s sends, .next, by simp [hwant hb, heq], ?_⟩
      exact next_begun hi hr _ _ hst htlb (fixed_withSecond ho.exposeOnly) hf hf rfl ho.postFetch
        (hi.pred (by rw [hst]; rfl)) (fun _ hp => ho.kind hp (hi.kind (by rw [hst]; rfl) hp).1)
        (by rw [hst]; decide) ⟨rfl, fun _ => hst.symm⟩ ⟨hcomplete, hcf.squash⟩
        ⟨hw, by have hb := ho.begun; rw [← hf] at hb; exact hb, hrest⟩
    | ABC | AbC | AbCB =>
      obtain ⟨hw, hb, hrest⟩ := hs.at hst
      obtain ⟨s, sends, heq, ho⟩ := hretry hb
      refine ⟨l.withSecond s sends, .next, by simp [hwant hb, heq], ?_⟩
      exact next_begun hi hr _ _ hst htlb (fixed_withSecond ho.exposeOnly) hf hf rfl ho.postFetch
        (hi.pred (by rw [hst]; rfl)) nofun (by rw [hst]; decide) ⟨rfl, fun _ => hst.symm⟩
        ⟨hcomplete, hcf.squash⟩
        ⟨hw, by have hb := ho.begun; rw [← hf] at hb; exact hb, hrest⟩

theorem next_skipSecond (hi : Coherent c ready l) (hcf : Confirmed l) (hf : l.fault.isSome) :
    Next c ready l l.skipSecond := by
  have hre : l.fault = some .reExec := hi.fault.resolve_left (by rintro h; simp [h] at hf)
  have h := hi.faulted true true (l.wb.sentToCommit || l.wb.executed) (fun _ => rfl)
  rw [← hre] at h
  exact ⟨h, ⟨hcf.complete, hcf.squash⟩, rfl, id, fun h => ⟨h, rfl⟩, fun _ => ⟨rfl, rfl⟩⟩

theorem exposeLoad_spec (hm : c.enableMLDOM) (hi : Coherent c ready l) (hcf : Confirmed l)
    (hsq : l.squashed = false) (hfwd : l.ifLdStFwd = false) (hcm : l.committed = false)
    (fst snd : Bool) :
    ∃ l' flow, l.exposeLoad c ready fst snd = some (l', flow) ∧ Next c ready l l' := by
  have hno : l.trainForwarded c ready = l := if_neg (by simp [hfwd])
  unfold exposeLoad
  rw [if_neg (by simp [hsq])]
  dsimp only
  rw [hno]
  split
  · exact ⟨l, .next, rfl, hi.next_self hcf⟩
  rename_i hsent
  split
  · next hf =>
    exact ⟨l.skipSecond, .next, rfl, next_skipSecond hi hcf hf⟩
  rename_i hf
  split
  · exact ⟨l, .next, rfl, hi.next_self hcf⟩
  rename_i hr
  refine exposeSafe_spec hm hi hcf (by simpa using hr) (by simpa using hf) ?_ hcm fst snd
  simpa [hi.postFetch] using hsent

end LoadInst

end SdoCore
