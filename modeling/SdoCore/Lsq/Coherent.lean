import SdoCore.Lsq.Load

/-! What holds of an oblivious load between two events. The state machine (`MLDOM_state`) says
for each state whether the load was written back and by which access, whether its second access
is wanted, under way or answered, and whether the predictor was updated; `Coherent` collects
this, and `Confirmed` relates the state to the packets that are still to come. -/

namespace SdoCore

namespace MldomState

/-- The load was found safe. -/
def safe : MldomState → Bool
  | .A | .AB | .Ab | .toBeSquash => false
  | _ => true

/-- The oblivious request is complete. -/
def confirmed : MldomState → Bool
  | .AB | .ABC | .ABCD | .ACB | .ACBD | .ACDB | .AbCB | .AbCBD | .AbCDB | .ACbDB => true
  | _ => false

/-- A hit that came before the last response is still told apart. -/
def early : MldomState → Bool
  | .Ab | .AbC | .AbCB | .AbCBD | .AbCD | .AbCDB | .ACb | .ACbD | .ACbDB => true
  | _ => false

/-- The second access is not answered. -/
def begun : MldomState → Bool
  | .ABC | .AC | .ACB | .AbC | .AbCB | .ACb => true
  | _ => false

/-- The oblivious request hit before the load was found safe, so it may be exposed. -/
def mayExpose : MldomState → Bool
  | .ABC | .ABCD | .AbC | .AbCB | .AbCBD | .AbCD | .AbCDB => true
  | _ => false

theorem mayExpose_of_not_safe {st : MldomState} (h : st.safe = false) : st.mayExpose = false := by
  cases st <;> first | rfl | cases h

/-- The state in which the second access is answered. -/
def answered : MldomState → MldomState
  | .ABC => .ABCD
  | .AC => .ACD
  | .ACB => .ACBD
  | .AbC => .AbCD
  | .AbCB => .AbCBD
  | .ACb => .ACbD
  | st => st

end MldomState

/-! ## What the states say about the other flags -/

structure WriteBack.Unwritten (w : WriteBack) : Prop where
  doneWB : w.doneWB = false
  byOblS : w.doneWBByOblS = false
  executed : w.executed = false
  calls : w.calls = 0

/-- The load was written back once, by its oblivious request or by its validation. -/
structure WrittenBy (fault : Option LoadFault) (w : WriteBack) (d : Data) (oblS : Bool) :
    Prop where
  doneWB : w.doneWB = true
  byOblS : w.doneWBByOblS = oblS
  executed : w.executed = true
  calls : w.calls = 1
  result : fault = none → w.result = some (d.written (if oblS then .oblS else .validate))

/-- The predictor was updated once, or not yet. -/
def Trained (c : LsqConfig) (t : Training) (done : Bool) : Prop :=
  c.enableOblSContention = false →
    t.doneLocPredUpdate = done ∧ t.updates.length = if done then 1 else 0

/-- The load was not found safe yet. -/
structure Second.Idle (fault : Option LoadFault) (s : Second) (sends : List SendKind) : Prop where
  post : s.post = none
  needExpose : s.needExpose = false
  needValidate : s.needValidate = false
  unsent : fault = none → s.exposeSent = false ∧ s.exposeCompleted = false
  sends : .validate ∉ sends

/-- The load was found safe and its second access is not answered; it may be exposed if
`mayExpose`, or if nothing is ever validated. -/
structure Second.Begun (c : LsqConfig) (fault : Option LoadFault) (s : Second)
    (sends : List SendKind) (mayExpose : Bool) : Prop where
  both : s.needExpose = true → s.needValidate = false
  sent : fault = none → s.exposeSent = (!s.needExpose && !s.needValidate)
  need : s.needExpose = true ∨ s.needValidate = true →
    s.post = none ∧ (fault = none → s.exposeCompleted = false)
  needExpose : s.needExpose = true → (mayExpose || c.perfectUnsafe) = true
  needValidate : s.needValidate = true → c.perfectUnsafe = false
  post : ∀ q, s.post = some q → s.needDeletePostReq = false ∧
    if q.isValidate then c.perfectUnsafe = false
    else s.exposeCompleted = true ∧ (mayExpose || c.perfectUnsafe) = true
  waiting : fault = none → (mayExpose || c.perfectUnsafe) = false → s.exposeCompleted = false
  validate : .validate ∈ sends → s.needExpose = false ∧ c.perfectUnsafe = false ∧
    (∀ q, s.post = some q → q.isValidate = true) ∧ (fault = none → s.exposeCompleted = false)

/-- The second access is answered. -/
structure Answered (fault : Option LoadFault) (s : Second) (sends : List SendKind) (w : WriteBack)
    (d : Data) : Prop where
  post : s.post = none
  needExpose : s.needExpose = false
  needValidate : s.needValidate = false
  completed : s.exposeCompleted = true
  sent : fault = none → s.exposeSent = true
  checked : fault = none → .validate ∈ sends → w.doneWBByOblS = true →
    d.vldLow = d.memLow ∧ d.vldHigh = d.memHigh

namespace LoadInst

variable {c : LsqConfig} {ready : Bool} {l l' : LoadInst} {h : Half}

abbrev WasWritten (l : LoadInst) (oblS : Bool) : Prop := WrittenBy l.fault l.wb l.data oblS

abbrev IsIdle (l : LoadInst) : Prop := l.second.Idle l.fault l.sends

abbrev HasBegun (c : LsqConfig) (l : LoadInst) (mayExpose : Bool) : Prop :=
  l.second.Begun c l.fault l.sends mayExpose

abbrev IsAnswered (l : LoadInst) : Prop := Answered l.fault l.second l.sends l.wb l.data

abbrev ShapeAt (c : LsqConfig) (l : LoadInst) : MldomState → Prop
  | .A => l.wb.Unwritten ∧ l.IsIdle ∧ Trained c l.train false ∧ l.obl.valPredOnMiss = false
  | .Ab => l.wb.Unwritten ∧ l.IsIdle ∧ Trained c l.train false ∧ l.obl.valPredOnMiss = false ∧
    l.obl.hits.any = true ∧ l.obl.pktDelayedWB = true
  | .AB => l.WasWritten true ∧ l.IsIdle ∧ Trained c l.train false ∧
    l.obl.valPredOnMiss = !l.obl.hits.any
  | .AC => l.wb.Unwritten ∧ l.HasBegun c false ∧ Trained c l.train false
  | .ACB => (if l.obl.hits.any then l.WasWritten true else l.wb.Unwritten) ∧ l.HasBegun c false ∧
    Trained c l.train l.obl.hits.any
  | .ACBD => l.WasWritten l.obl.hits.any ∧ l.IsAnswered ∧ Trained c l.train true
  | .ACD | .ACDB => l.WasWritten false ∧ l.IsAnswered ∧ Trained c l.train true
  | .ACb => l.WasWritten true ∧ l.HasBegun c false ∧ Trained c l.train true ∧
    l.obl.hits.any = true
  | .ABC | .AbC | .AbCB => l.WasWritten true ∧ l.HasBegun c true ∧ Trained c l.train true ∧
    l.obl.hits.any = true
  | .ABCD | .AbCBD | .AbCD | .AbCDB | .ACbD | .ACbDB =>
    l.WasWritten true ∧ l.IsAnswered ∧ Trained c l.train true ∧ l.obl.hits.any = true
  | .toBeSquash => l.IsIdle ∧ Trained c l.train false ∧ l.wb.calls ≤ 1

def Shape (c : LsqConfig) (l : LoadInst) : Prop := ShapeAt c l l.mldomState

theorem Shape.of (st : MldomState) (h : l.mldomState = st) (hs : ShapeAt c l st) : Shape c l := by
  rw [Shape, h]
  exact hs

theorem Shape.at {st : MldomState} (hs : Shape c l) (h : l.mldomState = st) : ShapeAt c l st := by
  rw [Shape, h] at hs
  exact hs

/-- A change that leaves the state and the oblivious request alone. -/
theorem Shape.map (hs : Shape c l) (hst : l'.mldomState = l.mldomState) (hobl : l'.obl = l.obl)
    (hunw : l.wb.Unwritten → l'.wb.Unwritten)
    (hwr : ∀ b, b = true ∨ l.IsAnswered → l.WasWritten b → l'.WasWritten b)
    (hidle : l.IsIdle → l'.IsIdle) (hbegun : ∀ m, l.HasBegun c m → l'.HasBegun c m)
    (hans : l.IsAnswered → l'.IsAnswered)
    (htr : ∀ b, Trained c l.train b → Trained c l'.train b)
    (hcalls : l'.wb.calls = l.wb.calls) : Shape c l' := by
  cases hl : l.mldomState <;> rw [hl] at hst <;> have hs := hs.at hl
  case A => exact .of _ hst ⟨hunw hs.1, hidle hs.2.1, htr _ hs.2.2.1, hobl ▸ hs.2.2.2⟩
  case Ab => exact .of _ hst ⟨hunw hs.1, hidle hs.2.1, htr _ hs.2.2.1, hobl ▸ hs.2.2.2⟩
  case AB => exact .of _ hst ⟨hwr _ (.inl rfl) hs.1, hidle hs.2.1, htr _ hs.2.2.1, hobl ▸ hs.2.2.2⟩
  case AC => exact .of _ hst ⟨hunw hs.1, hbegun _ hs.2.1, htr _ hs.2.2⟩
  case ACB =>
    refine .of _ hst ⟨?_, hbegun _ hs.2.1, hobl ▸ htr _ hs.2.2⟩
    rw [hobl]
    have h1 := hs.1
    split at h1
    · rw [if_pos ‹_›]
      exact hwr _ (.inl rfl) h1
    · rw [if_neg ‹_›]
      exact hunw h1
  case ACBD => exact .of _ hst ⟨hobl ▸ hwr _ (.inr hs.2.1) hs.1, hans hs.2.1, htr _ hs.2.2⟩
  case ACD | ACDB => exact .of _ hst ⟨hwr _ (.inr hs.2.1) hs.1, hans hs.2.1, htr _ hs.2.2⟩
  case ABC | AbC | AbCB | ACb =>
    exact .of _ hst ⟨hwr _ (.inl rfl) hs.1, hbegun _ hs.2.1, htr _ hs.2.2.1, hobl ▸ hs.2.2.2⟩
  case toBeSquash => exact .of _ hst ⟨hidle hs.1, htr _ hs.2.1, hcalls ▸ hs.2.2⟩
  all_goals
    exact .of _ hst ⟨hwr _ (.inl rfl) hs.1, hans hs.2.1, htr _ hs.2.2.1, hobl ▸ hs.2.2.2⟩

theorem Shape.calls_le (hs : Shape c l) : l.wb.calls ≤ 1 := by
  have hunw (hw : l.wb.Unwritten) : l.wb.calls ≤ 1 := by simp [hw.calls]
  have hwr {b : Bool} (hw : l.WasWritten b) : l.wb.calls ≤ 1 := by simp [hw.calls]
  cases hst : l.mldomState with
  | A | Ab | AC => exact hunw (hs.at hst).1
  | ACB =>
    have h1 := (hs.at hst).1
    split at h1
    · exact hwr h1
    · exact hunw h1
  | toBeSquash => exact (hs.at hst).2.2
  | _ => exact hwr (hs.at hst).1

/-- The fields that no handler of a response and no pass of `exposeLoads` changes. -/
structure Fixed where
  acc : Access
  (tlbHit missed needExposeOnly readLow readHigh staleObl staleRead ifLdStFwd : Bool)
  wbEvent : Option Source
  (canCommit committed squashed : Bool)

def fixed (l : LoadInst) : Fixed where
  acc := l.acc
  tlbHit := l.obl.tlbHit
  missed := l.obl.missed
  needExposeOnly := l.second.needExposeOnly
  readLow := l.readLow
  readHigh := l.readHigh
  staleObl := l.staleObl
  staleRead := l.staleRead
  ifLdStFwd := l.ifLdStFwd
  wbEvent := l.wbEvent
  canCommit := l.canCommit
  committed := l.committed
  squashed := l.squashed

/-- The halves under way and the flags merged from their packets. Nothing is filed under the first
half before its last packet. -/
structure Flights (c : LsqConfig) (l : LoadInst) : Prop where
  hit : l.obl.hits.any = if l.acc.isSplit then l.obl.fstHalfHit.any && l.obl.sndHalfHit.any
    else l.obl.low.hits.any
  first : l.acc.isSplit = true →
    l.obl.fstHalfHit = if l.obl.low.outstanding then {} else l.obl.low.hits
  second : l.acc.isSplit = true → l.obl.late = false → l.obl.high.outstanding = false →
    l.obl.sndHalfHit.any = true → l.obl.high.hits.any = true
  complete : l.obl.complete = (!l.obl.low.outstanding && !l.obl.high.outstanding)
  halves : l.acc.isSplit = true → l.obl.fstHalfComplete = !l.obl.low.outstanding ∧
    l.obl.sndHalfComplete = !l.obl.high.outstanding
  whole : l.acc.isSplit = false → l.obl.high.outstanding = false
  noSB : c.enableOblSContention = false →
    l.obl.hits.sb = false ∧ l.obl.fstHalfHit.sb = false ∧ l.obl.sndHalfHit.sb = false

/-- If the load is split, the first half is complete and the second one has hit: no later packet
takes a hit of the load back. -/
def Settled (l : LoadInst) : Prop :=
  l.acc.isSplit = true → l.obl.low.outstanding = false ∧ l.obl.high.hits.any = true

/-- The invariant of an oblivious load but for the confirmation. -/
structure Coherent (c : LsqConfig) (ready : Bool) (l : LoadInst) : Prop where
  postFetch : l.second.needPostFetch = true
  fault : l.fault = none ∨ l.fault = some .reExec
  ready : l.mldomState.safe = true → ready = true
  tlb : l.obl.tlbHit = false → l.mldomState.safe = false ∧ c.tlbDefense = 3
  noEarly : c.perfectUnsafe = true → l.mldomState.early = false
  settled : l.mldomState.early = true → Settled l
  pred : l.mldomState.safe = true → l.obl.valPredOnMiss = false
  kind : l.mldomState.mayExpose = false → c.perfectUnsafe = false →
    .expose ∉ l.sends ∧ (l.fault = none → l.second.exposeSent = true → .validate ∈ l.sends)
  flights : Flights c l
  shape : Shape c l

/-- Up to a squash the state says whether the oblivious request is complete. -/
structure Confirmed (l : LoadInst) : Prop where
  complete : l.mldomState ≠ .toBeSquash → l.obl.complete = l.mldomState.confirmed
  squash : l.mldomState = .toBeSquash → l.obl.tlbHit = true → l.obl.complete = true

/-- What one event makes of an oblivious load. -/
structure Next (c : LsqConfig) (ready : Bool) (l l' : LoadInst) : Prop where
  coherent : Coherent c ready l'
  confirmed : Confirmed l'
  fixed : l'.fixed = l.fixed
  fault : l'.fault = none → l.fault = none
  safe : l.mldomState.safe = true →
    l'.mldomState.safe = true ∧ l'.mldomState.mayExpose = l.mldomState.mayExpose
  quiet : ready = false → l'.sends = l.sends ∧ l'.train.updates = l.train.updates

/-- A handler that does not make the load safe. -/
structure Handled (c : LsqConfig) (l l' : LoadInst) : Prop where
  fixed : l'.fixed = l.fixed
  sends : l'.sends = l.sends
  fault : l.fault = none ∨ l.fault = some .reExec → l'.fault = none ∨ l'.fault = some .reExec
  obl : l'.obl = { l.obl with
    pktDelayedWB := l'.obl.pktDelayedWB, valPredOnMiss := l'.obl.valPredOnMiss }
  postFetch : l'.second.needPostFetch = l.second.needPostFetch
  sent : l'.fault = none → l.fault = none ∧ l'.second.exposeSent = l.second.exposeSent
  updates : l.mldomState.safe = false → l'.train.updates = l.train.updates
  safe : l'.mldomState.safe = l.mldomState.safe
  kind : l'.mldomState.mayExpose = l.mldomState.mayExpose
  pred : l'.mldomState.safe = true → l'.obl.valPredOnMiss = l.obl.valPredOnMiss
  early : l'.mldomState.early = true →
    l.mldomState.early = true ∨ c.perfectUnsafe = false ∧ Settled l
  shape : Shape c l'

theorem Flights.handled (hf : Flights c l) (ha : l'.acc = l.acc) (ho : l'.obl = { l.obl with
      pktDelayedWB := l'.obl.pktDelayedWB, valPredOnMiss := l'.obl.valPredOnMiss }) :
    Flights c l' := by
  obtain ⟨h1, h2, h3, h4, h5, h6, h7⟩ := hf
  constructor <;> rw [ho] <;> simpa only [ha]

theorem Settled.handled (hs : Settled l) (ha : l'.acc = l.acc) (ho : l'.obl = { l.obl with
      pktDelayedWB := l'.obl.pktDelayedWB, valPredOnMiss := l'.obl.valPredOnMiss }) :
    Settled l' := by
  intro hspl
  rw [ho]
  exact hs (ha ▸ hspl)

section
variable (hi : Coherent c ready l)
include hi

theorem Coherent.handled (hh : Handled c l l') : Coherent c ready l' where
  postFetch := hh.postFetch.trans hi.postFetch
  fault := hh.fault hi.fault
  ready h := hi.ready (hh.safe ▸ h)
  tlb h := hh.safe ▸ hi.tlb (by rw [hh.obl] at h; exact h)
  noEarly hp := by
    refine Bool.eq_false_iff.mpr fun he => ?_
    rcases hh.early he with he | ⟨hno, -⟩
    · simp [hi.noEarly hp] at he
    · simp [hp] at hno
  settled he :=
    ((hh.early he).elim hi.settled (·.2)).handled (congrArg Fixed.acc hh.fixed) hh.obl
  pred h := (hh.pred h).trans (hi.pred (hh.safe ▸ h))
  kind h hp := by
    obtain ⟨h1, h2⟩ := hi.kind (hh.kind ▸ h) hp
    refine ⟨hh.sends ▸ h1, fun hf hs => ?_⟩
    obtain ⟨hf, he⟩ := hh.sent hf
    exact hh.sends ▸ h2 hf (he ▸ hs)
  flights := hi.flights.handled (congrArg Fixed.acc hh.fixed) hh.obl
  shape := hh.shape

theorem Coherent.handled_self : Handled c l l :=
  ⟨rfl, rfl, id, rfl, rfl, fun h => ⟨h, rfl⟩, fun _ => rfl, rfl, rfl, fun _ => rfl, .inl,
    hi.shape⟩

theorem Coherent.next (hh : Handled c l l') (hc : Confirmed l') : Next c ready l l' where
  coherent := hi.handled hh
  confirmed := hc
  fixed := hh.fixed
  fault h := (hh.sent h).1
  safe h := ⟨hh.safe.trans h, hh.kind⟩
  quiet hr := ⟨hh.sends, hh.updates (Bool.eq_false_iff.mpr fun h => by simp [hi.ready h] at hr)⟩

theorem Coherent.next_self (hc : Confirmed l) : Next c ready l l :=
  hi.next hi.handled_self hc

end

/-! ## Write-back and training -/

/-- The load after its first write-back. -/
def afterWriteback (l : LoadInst) (src : Source) : LoadInst :=
  { l with
    wb := { l.wb with
      result := if l.fault.isNone then some (l.data.written src) else l.wb.result
      executed := true
      calls := l.wb.calls + 1
      sentToCommit := true
      specCompleted := l.wb.specCompleted || (l.fault.isNone && src == .oblS) }
    second := { l.second with
      exposeCompleted := l.second.exposeCompleted || l.fault.isSome
      exposeSent := l.second.exposeSent || l.fault.isSome } }

theorem writeback_eq (hv : c.isInvisibleSpec) (src : Source) (he : l.wb.executed = false)
    (hf : l.fault = none ∨ l.fault = some .reExec) :
    l.writeback c src = some (l.afterWriteback src) := by
  rcases hf with hf | hf <;> simp [writeback, afterWriteback, hv, he, hf]

theorem exposeSent_afterWriteback (src : Source) (hf : l.fault = none) :
    (l.afterWriteback src).second.exposeSent = l.second.exposeSent := by
  simp [afterWriteback, hf]

theorem wasWritten_afterWriteback (h : l.wb.Unwritten) (oblS : Bool) :
    ((l.afterWriteback (if oblS then .oblS else .validate)).wroteBack oblS).WasWritten oblS where
  doneWB := rfl
  byOblS := rfl
  executed := rfl
  calls := congrArg (· + 1) h.calls
  result hf := by
    have hf : l.fault = none := hf
    simp [afterWriteback, wroteBack, hf]

/-- If there is a fault the second access counts as done, but then nothing is said about it. -/
theorem isIdle_afterWriteback (h : l.IsIdle) (src : Source) : (l.afterWriteback src).IsIdle where
  __ := h
  unsent hf := by
    have hf : l.fault = none := hf
    simpa [afterWriteback, hf] using h.unsent hf

theorem hasBegun_afterWriteback {m : Bool} (h : l.HasBegun c m) (src : Source) :
    (l.afterWriteback src).HasBegun c m where
  __ := h
  sent hf := by
    have hf : l.fault = none := hf
    simpa [afterWriteback, hf] using h.sent hf
  need hn := by
    refine ⟨(h.need hn).1, fun hf => ?_⟩
    have hf : l.fault = none := hf
    simpa [afterWriteback, hf] using (h.need hn).2 hf
  post q hq := by
    obtain ⟨hd, hp⟩ := h.post q hq
    refine ⟨hd, ?_⟩
    split at hp <;> simp [*, afterWriteback]
  waiting hf hm := by
    have hf : l.fault = none := hf
    simpa [afterWriteback, hf] using h.waiting hf hm
  validate hv := by
    obtain ⟨h1, h2, h3, h4⟩ := h.validate hv
    refine ⟨h1, h2, h3, fun hf => ?_⟩
    have hf : l.fault = none := hf
    simpa [afterWriteback, hf] using h4 hf

theorem updateLocationPredictor_eq (c : LsqConfig) (l : LoadInst) (t : UpdateType) :
    l.updateLocationPredictor c t = { l with train := (l.updateLocationPredictor c t).train } := by
  simp only [updateLocationPredictor]
  split
  · rfl
  · split <;> rfl

theorem trained_update (hm : c.enableMLDOM) (ht : Trained c l.train false) {t : UpdateType}
    (hlevel : c.enableOblSContention = false → (l.updateLevel t).isSome) :
    Trained c (l.updateLocationPredictor c t).train true := by
  intro hn
  obtain ⟨hd, hu⟩ := ht hn
  obtain ⟨v, hv⟩ := Option.isSome_iff_exists.mp (hlevel hn)
  have hnil : l.train.updates = [] := List.eq_nil_of_length_eq_zero (by simpa using hu)
  simp [updateLocationPredictor, hm, hd, hv, hnil]

theorem updateLevel_spec (hf : Flights c l) (hh : l.obl.hits.any)
    (hn : c.enableOblSContention = false) : (l.updateLevel .spec).isSome := by
  have hsb := (hf.noSB hn).1
  simp only [Hits.any, hsb, Bool.false_or, Bool.or_eq_true] at hh
  simp only [updateLevel]
  split
  · rfl
  split
  · rfl
  split
  · rfl
  · simp_all

end LoadInst

end SdoCore
