import SdoCore.Pred.LocPred

/-! Runs of a location predictor with the loads in flight: loads are prepared in program order,
predicted and updated while they are in flight, committed from the oldest on and squashed from
the youngest on.

* `update_predict`: predicting a load before its update changes nothing the update leaves
  behind;
* `Ok`: in the history of an index the loads in flight stand first, with the past behind them;
* `inFlight_found`: a load in flight is found, with a full window of history behind it;
* `tournament_update_alone`: a tournament's update leaves every sub-predictor as its own update
  would have. -/

namespace SdoCore.LocPred

open Lib
open Function (update_of_ne update_self)
open List
open Option (map_eq_some_iff map_some)

/-! ## Runs -/

/-- A load in flight, with what its last update returned. -/
structure Flight where
  pc : Nat
  sn : Nat
  updateOnCommit : Nat := 0
  deriving DecidableEq

/-- `loads` are those in flight, the youngest first; `next` bounds the sequence numbers given out
from above, and `floor` is the last one committed. -/
structure Run (σ : Type) where
  pred : σ
  loads : List Flight := []
  next : Nat := 0
  floor : Nat := 0

inductive RunEvent
  | prepare (pc sn : Nat)
  | predict (sn : Nat)
  | update (sn : Nat) (actualLevel : CacheLevel)
  | commit
  | squash (squashedSn : Nat)
  deriving DecidableEq

namespace Run

variable {σ : Type}

def find (r : Run σ) (sn : Nat) : Option Flight := r.loads.find? fun f => f.sn == sn

def setUpdate (r : Run σ) (sn u : Nat) : List Flight :=
  r.loads.map fun f => if f.sn = sn then { f with updateOnCommit := u } else f

/-- A squash comes from an instruction that is not older than what has committed. -/
def step (M : Methods σ) (r : Run σ) : RunEvent → Option (Run σ)
  | .prepare pc sn =>
    if r.next ≤ sn then
      some { r with
        pred := M.prepare r.pred pc sn
        loads := ⟨pc, sn, 0⟩ :: r.loads
        next := sn + 1 }
    else none
  | .predict sn =>
    match r.find sn with
    | some f => (M.predict r.pred f.pc f.sn).map fun x => { r with pred := x.1 }
    | none => none
  | .update sn l =>
    match r.find sn with
    | some f =>
      if l.isActual then
        (M.update r.pred f.pc f.sn l).map fun x =>
          { r with pred := x.1, loads := r.setUpdate sn x.2 }
      else none
    | none => none
  | .commit =>
    match r.loads.getLast? with
    | some f =>
      (M.commit r.pred f.pc f.sn f.updateOnCommit).map fun q =>
        { r with pred := q, loads := r.loads.dropLast, floor := f.sn }
    | none => none
  | .squash n =>
    if r.floor ≤ n then
      some { r with pred := M.squash r.pred n, loads := r.loads.filter fun f => f.sn ≤ n }
    else none

/-- The PCs and sequence numbers in flight. -/
def keys (r : Run σ) : List (Nat × Nat) := r.loads.map fun f => (f.pc, f.sn)

end Run

def predMachine {σ : Type} (M : Methods σ) (start : σ → Prop) : Machine (Run σ) RunEvent where
  start r := start r.pred ∧ r.loads = [] ∧ r.floor = 0
  step := Run.step M

/-- A sub-predictor as its constructor leaves it; the size of the table is a power of two. -/
inductive SubPred.Fresh : SubPred → Prop
  | greedy (k historyLength : Nat) : 0 < historyLength →
    Fresh (.greedy (.init (2 ^ k) historyLength))
  | hysteresis (k : Nat) : Fresh (.hysteresis (.init (2 ^ k)))
  | localPred (k historyLength : Nat) : Fresh (.localPred (.init (2 ^ k) historyLength))
  | loop (k : Nat) : Fresh (.loop (.init (2 ^ k)))

def subMachine : Machine (Run SubPred) RunEvent := predMachine SubPred.methods SubPred.Fresh

def tournament2Machine : Machine (Run Tournament2Way) RunEvent :=
  predMachine Tournament2Way.methods fun t => t.pred1.pred.Fresh ∧ t.pred2.pred.Fresh

def tournament3Machine : Machine (Run Tournament3Way) RunEvent :=
  predMachine Tournament3Way.methods fun t =>
    t.pred1.pred.Fresh ∧ t.pred2.pred.Fresh ∧ t.pred3.pred.Fresh

/-! ## Predicting before an update -/

section Modify

variable {α : Type} (l : List (Nat × α)) (j : Nat) (v w : α)

/-- Writing a value leaves the sequence numbers. -/
theorem modify_keys : (l.modify j fun e => (e.1, v)).map Prod.fst = l.map Prod.fst := by
  induction l generalizing j with
  | nil => simp
  | cons e l ih => cases j <;> simp [ih]

theorem modify_find (sn : Nat) :
    (l.modify j fun e => (e.1, v)).findIdx? (fun e => e.1 == sn) =
      l.findIdx? (fun e => e.1 == sn) := by
  have hmap : ∀ l' : List (Nat × α), l'.findIdx? (fun e => e.1 == sn) =
      (l'.map Prod.fst).findIdx? (fun k => k == sn) := by
    intro l'
    rw [findIdx?_map]
    rfl
  rw [hmap, modify_keys, ← hmap]

/-- What stands behind the slot is not touched. -/
theorem modify_drop : (l.modify j fun e => (e.1, v)).drop (j + 1) = l.drop (j + 1) := by
  rw [drop_modify_of_lt _ _ _ _ (Nat.lt_succ_self j)]

/-- The second write to a slot counts. -/
theorem modify_modify : (l.modify j fun e => (e.1, v)).modify j (fun e => (e.1, w)) =
    l.modify j fun e => (e.1, w) := by
  rw [modify_modify_eq]
  rfl

end Modify

namespace Local

variable (p : Local) (i j sn : Nat) (l l' : CacheLevel)

theorem setLevel_historyIdx : (p.setLevel i j l).historyIdx i sn = p.historyIdx i sn := by
  simp [historyIdx, setLevel, setHistory, modify_find]

theorem setLevel_predictionTableIdx :
    (p.setLevel i j l).predictionTableIdx i j = p.predictionTableIdx i j := by
  simp only [predictionTableIdx, setLevel, setHistory, update_self, modify_drop]

theorem setLevel_setLevel : (p.setLevel i j l).setLevel i j l' = p.setLevel i j l' := by
  simp [setLevel, setHistory, modify_modify]

theorem historyIdx_of_lookup {t : Nat} (h : p.lookup i sn = some (j, t)) :
    p.historyIdx i sn = some j := by
  unfold lookup at h
  split at h
  · next j' hj =>
    split at h
    · cases h
      exact hj
    · cases h
  · cases h

/-- The window of a load does not contain its own slot. -/
theorem setLevel_lookup {t : Nat} (h : p.lookup i sn = some (j, t)) :
    (p.setLevel i j l).lookup i sn = some (j, t) := by
  have hj := p.historyIdx_of_lookup i j sn h
  unfold lookup at h ⊢
  rw [setLevel_historyIdx, hj]
  rw [hj] at h
  dsimp only at h ⊢
  rw [setLevel_predictionTableIdx]
  simpa [setLevel, setHistory] using h

theorem update_predict {pc : Nat} {q : Local} {l : CacheLevel} (h : p.predict pc sn = some (q, l))
    (l' : CacheLevel) :
    q.update pc sn l' = p.update pc sn l' := by
  unfold predict at h
  dsimp only at h
  split at h
  · next j t hlook =>
    cases h
    unfold update
    dsimp only
    rw [show (p.setLevel _ _ _).size = p.size from rfl, setLevel_lookup _ _ _ _ _ hlook, hlook,
      setLevel_historyIdx, p.historyIdx_of_lookup _ _ _ hlook]
    simp only [setLevel_setLevel]
    rfl
  · cases h

end Local

namespace Loop

variable (p : Loop) (i j sn : Nat) (d d' : Bool)

theorem setDirection_historyIdx : (p.setDirection i j d).historyIdx i sn = p.historyIdx i sn := by
  simp [historyIdx, setDirection, setHistory, modify_find]

theorem setDirection_currLoopLen :
    (p.setDirection i j d).currLoopLen i j = p.currLoopLen i j := by
  simp only [currLoopLen, setDirection, setHistory, update_self, modify_drop]

theorem setDirection_setDirection :
    (p.setDirection i j d).setDirection i j d' = p.setDirection i j d' := by
  simp [setDirection, setHistory, modify_modify]

theorem update_predict {pc : Nat} {q : Loop} {l : CacheLevel} (h : p.predict pc sn = some (q, l))
    (l' : CacheLevel) :
    q.update pc sn l' = p.update pc sn l' := by
  unfold predict at h
  dsimp only at h
  split at h
  · cases h
  rename_i j hj
  split at h
  · cases h
  · cases h
    unfold update
    dsimp only
    rw [show (p.setDirection _ _ _).size = p.size from rfl, setDirection_historyIdx, hj]
    simp only [setDirection_setDirection, setDirection_currLoopLen]

end Loop

/-- Every predictor: the prediction made before an update leaves no trace in what the update
leaves behind. -/
theorem SubPred.update_predict {q q' : SubPred} {pc sn : Nat} {x : CacheLevel × PredType}
    (h : q.predict pc sn = some (q', x)) (l : CacheLevel) :
    q'.update pc sn l = q.update pc sn l := by
  cases q with
  | greedy p =>
    obtain ⟨l', -, he⟩ := map_eq_some_iff.mp h
    cases he
    rfl
  | hysteresis p =>
    cases h
    rfl
  | localPred p =>
    obtain ⟨⟨p', l'⟩, hp, he⟩ := map_eq_some_iff.mp h
    cases he
    simp only [SubPred.update, p.update_predict sn hp]
  | loop p =>
    obtain ⟨⟨p', l'⟩, hp, he⟩ := map_eq_some_iff.mp h
    cases he
    simp only [SubPred.update, p.update_predict sn hp]

/-- An update folds its level itself. -/
theorem SubPred.update_fold (q : SubPred) (pc sn : Nat) (l : CacheLevel) :
    q.update pc sn l.fold = q.update pc sn l := by
  cases q <;> simp only [SubPred.update, Greedy.update, Hysteresis.update, Local.update,
    Loop.update, CacheLevel.fold_fold]

/-! ## The loads in flight in a history -/

/-- The sequence numbers in flight that share an entry of the table. -/
def live (size : Nat) (keys : List (Nat × Nat)) (i : Nat) : List Nat :=
  (keys.filter fun k => getLocalIndex size k.1 == i).map Prod.snd

section Live

variable {size i n : Nat} {keys : List (Nat × Nat)} {k : Nat × Nat}

theorem live_cons_self : live size (k :: keys) (getLocalIndex size k.1) =
    k.2 :: live size keys (getLocalIndex size k.1) := by simp [live]

theorem live_cons_other (hi : getLocalIndex size k.1 ≠ i) :
    live size (k :: keys) i = live size keys i := by simp [live, hi]

theorem live_concat_self : live size (keys ++ [k]) (getLocalIndex size k.1) =
    live size keys (getLocalIndex size k.1) ++ [k.2] := by simp [live]

theorem live_concat_other (hi : getLocalIndex size k.1 ≠ i) :
    live size (keys ++ [k]) i = live size keys i := by simp [live, hi]

theorem live_filter : live size (keys.filter fun k => k.2 ≤ n) i =
    (live size keys i).filter fun sn => sn ≤ n := by
  simp only [live, filter_filter, filter_map, Function.comp_def]
  congr 1
  exact filter_congr fun k _ => Bool.and_comm _ _

theorem mem_live (hk : k ∈ keys) : k.2 ∈ live size keys (getLocalIndex size k.1) :=
  mem_map.mpr ⟨k, mem_filter.mpr ⟨hk, by simp⟩, rfl⟩

/-- No load has an index beyond the table. -/
theorem live_beyond (hs : 0 < size) (hi : ¬ i < size) : live size keys i = [] := by
  refine map_eq_nil_iff.mpr (filter_eq_nil_iff.mpr fun k _ => ?_)
  have := getLocalIndex_lt hs k.1
  simp only [beq_iff_eq]
  omega

theorem live_sorted (h : keys.Pairwise fun k k' => k.2 > k'.2) :
    (live size keys i).Pairwise (· > ·) :=
  pairwise_map.mpr (h.sublist filter_sublist)

end Live

/-- Every history of a table has its loads in flight in front and `len` past entries behind. -/
def Windows {α : Type} (size len floor : Nat) (keys : List (Nat × Nat))
    (hist : Nat → List (Nat × α)) : Prop :=
  ∀ i, Window len floor (live size keys i) (hist i)

namespace Windows

variable {α : Type} {size len floor pc sn n : Nat} {keys : List (Nat × Nat)}
  {hist : Nat → List (Nat × α)}

section
variable (h : Windows size len floor keys hist)
include h

theorem push (pc sn : Nat) (v : α) :
    Windows size len floor ((pc, sn) :: keys) (Function.update hist (getLocalIndex size pc)
      ((sn, v) :: hist (getLocalIndex size pc))) := by
  intro i
  by_cases hi : getLocalIndex size pc = i
  · subst hi
    rw [update_self, live_cons_self (k := (pc, sn))]
    exact (h _).push sn v
  · rw [update_of_ne (Ne.symm hi), live_cons_other (k := (pc, sn)) hi]
    exact h i

/-- A history may be replaced by one that shows the same loads. -/
theorem update {l : List (Nat × α)} (i : Nat) (hl : Window len floor (live size keys i) l) :
    Windows size len floor keys (Function.update hist i l) := by
  intro i'
  by_cases hi : i' = i
  · subst hi
    rwa [update_self]
  · rw [update_of_ne hi]
    exact h i'

theorem modify (i j : Nat) (v : α) : Windows size len floor keys
      (Function.update hist i ((hist i).modify j fun e => (e.1, v))) :=
  h.update i ((h i).of_keys (modify_keys _ j v))

end

section
variable (h : Windows size len floor (keys ++ [(pc, sn)]) hist) (hf : floor ≤ sn)
include h hf

/-- The history of the oldest load has one more past entry once the load commits. -/
theorem retire_self : Window (len + 1) sn (live size keys (getLocalIndex size pc))
      (hist (getLocalIndex size pc)) := by
  have hw := h (getLocalIndex size pc)
  rw [live_concat_self (k := (pc, sn))] at hw
  exact hw.retire hf

theorem retire : Windows size len sn keys hist := by
  intro i
  by_cases hi : getLocalIndex size pc = i
  · subst hi
    exact (h.retire_self hf).mono (Nat.le_succ _) (Nat.le_refl _)
  · have hw := h i
    rw [live_concat_other (k := (pc, sn)) hi] at hw
    exact hw.mono (Nat.le_refl _) hf

end

/-- A squash goes through the indices of the table. -/
theorem squash (h : Windows size len floor keys hist) (hsize : 0 < size)
    (hs : keys.Pairwise fun k k' => k.2 > k'.2) (hn : floor ≤ n) :
    Windows size len floor (keys.filter fun k => k.2 ≤ n)
      (fun i => if i < size then (hist i).dropWhile fun e => n < e.1 else hist i) := by
  intro i
  rw [live_filter]
  dsimp only
  split
  · exact (h i).dropWhile (live_sorted hs) hn
  rename_i hi
  rw [live_beyond hsize hi, filter_nil]
  exact live_beyond hsize hi ▸ h i

end Windows

namespace Local

/-- The window of each history, and levels below 4 everywhere. -/
structure Ok (p : Local) (keys : List (Nat × Nat)) (floor : Nat) : Prop where
  size : 0 < p.size
  window : Windows p.size p.historyLength floor keys p.history
  levels : ∀ i, ∀ e ∈ p.history i, e.2.isActual = true
  table : ∀ i t, (p.predictionTable i t).isActual = true

variable {p q : Local} {keys : List (Nat × Nat)} {floor pc sn n i : Nat} {l : CacheLevel}

theorem ok_init (k historyLength floor : Nat) : Ok (init (2 ^ k) historyLength) [] floor where
  size := Nat.two_pow_pos k
  window i := by
    refine ⟨.replicate historyLength 0, by simp [init, live], by simp [init], fun j hj => ?_⟩
    rw [eq_of_mem_replicate hj]
    exact Nat.zero_le _
  levels i e he := by
    rw [eq_of_mem_replicate he]
    rfl
  table _ _ := rfl

theorem Ok.levels_update (h : Ok p keys floor) (i : Nat) {xs : List (Nat × CacheLevel)}
    (hxs : ∀ e ∈ xs, e.2.isActual) :
    ∀ i', ∀ e ∈ (p.setHistory i xs).history i', e.2.isActual = true := by
  intro i' e he
  by_cases hi : i' = i
  · subst hi
    simp only [setHistory, update_self] at he
    exact hxs e he
  · simp only [setHistory, update_of_ne hi] at he
    exact h.levels i' e he

theorem Ok.prepare (h : Ok p keys floor) (pc sn : Nat) :
    Ok (p.prepare pc sn) ((pc, sn) :: keys) floor where
  __ := h
  window := h.window.push pc sn .L1
  levels := h.levels_update _ (forall_mem_cons.mpr ⟨rfl, h.levels _⟩)

theorem mem_modify {α : Type} {xs : List (Nat × α)} {j : Nat} {v : α} {e : Nat × α}
    (he : e ∈ xs.modify j fun e => (e.1, v)) : e ∈ xs ∨ e.2 = v := by
  induction xs generalizing j with
  | nil => simp at he
  | cons x xs ih =>
    cases j with
    | zero =>
      rcases mem_cons.mp (by simpa using he) with rfl | he
      · exact .inr rfl
      · exact .inl (mem_cons_of_mem _ he)
    | succ j =>
      rcases mem_cons.mp (by simpa using he) with rfl | he
      · exact .inl mem_cons_self
      · exact (ih he).imp_left (mem_cons_of_mem _)

theorem Ok.setLevel (h : Ok p keys floor) (i j : Nat) (hl : l.isActual) :
    Ok (p.setLevel i j l) keys floor where
  __ := h
  window := h.window.modify i j l
  levels := h.levels_update i fun e he => by
    rcases mem_modify he with he | he
    · exact h.levels i e he
    · rw [he]
      exact hl

/-- Levels below 4 take two bits each. -/
theorem foldl_lt {es : List (Nat × CacheLevel)} (he : ∀ e ∈ es, e.2.isActual) (a b : Nat)
    (hb : b < 4 ^ a) : es.foldl (fun idx e => (idx <<< 2 + e.2.toNat) % 2 ^ 32) b <
      4 ^ (a + es.length) := by
  induction es generalizing a b with
  | nil => simpa using hb
  | cons e es ih =>
    have hlevel : e.2.toNat < 4 := of_decide_eq_true (he e (by simp))
    have hstep : (b <<< 2 + e.2.toNat) % 2 ^ 32 < 4 ^ (a + 1) := by
      have hmod := Nat.mod_le (b <<< 2 + e.2.toNat) (2 ^ 32)
      rw [Nat.shiftLeft_eq] at hmod ⊢
      rw [Nat.pow_succ]
      omega
    have := ih (fun e he' => he e (mem_cons_of_mem _ he')) (a + 1) _ hstep
    rw [foldl_cons, length_cons]
    rwa [Nat.add_assoc, Nat.add_comm 1] at this

section
variable (h : Ok p keys floor) (hk : (pc, sn) ∈ keys)
include h hk

/-- A load in flight has its entry, its window and an index in range. -/
theorem Ok.lookup : ∃ j, p.historyIdx (getLocalIndex p.size pc) sn = some j ∧
      j + p.historyLength < (p.history (getLocalIndex p.size pc)).length ∧
      p.predictionTableIdx (getLocalIndex p.size pc) j < 4 ^ p.historyLength ∧
      p.lookup (getLocalIndex p.size pc) sn =
        some (j, p.predictionTableIdx (getLocalIndex p.size pc) j) := by
  obtain ⟨j, hj, hlen⟩ := (h.window (getLocalIndex p.size pc)).find (mem_live hk)
  have hidx : p.predictionTableIdx (getLocalIndex p.size pc) j < 4 ^ p.historyLength := by
    have hwindow : ∀ e ∈ ((p.history (getLocalIndex p.size pc)).drop (j + 1)).take
        p.historyLength, e.2.isActual = true := fun e he =>
      h.levels _ e (mem_of_mem_drop (mem_of_mem_take he))
    refine Nat.lt_of_lt_of_le (foldl_lt hwindow 0 0 (by simp))
      (Nat.pow_le_pow_right (by omega) ?_)
    simp
  refine ⟨j, hj, hlen, hidx, ?_⟩
  unfold Local.lookup
  rw [show p.historyIdx _ sn = some j from hj]
  exact if_pos ⟨hlen, hidx⟩

theorem Ok.predict : ∃ r, p.predict pc sn = some r ∧ Ok r.1 keys floor := by
  obtain ⟨j, -, -, -, hlook⟩ := h.lookup hk
  unfold Local.predict
  simp only [hlook]
  exact ⟨_, rfl, h.setLevel _ _ (CacheLevel.isActual_fold (h.table _ _))⟩

theorem Ok.update (hl : l.isActual) : ∃ r, p.update pc sn l = some r ∧ Ok r.1 keys floor := by
  obtain ⟨j, hj, -, -, hlook⟩ := h.lookup hk
  have hset := h.setLevel (getLocalIndex p.size pc) j (CacheLevel.isActual_fold hl)
  unfold Local.update
  simp only [hj, hlook]
  refine ⟨_, rfl, hset.size, hset.window, hset.levels, fun i t => ?_⟩
  by_cases hi : i = getLocalIndex p.size pc
  · subst hi
    by_cases ht : t = p.predictionTableIdx (getLocalIndex p.size pc) j
    · simp [ht, CacheLevel.isActual_fold hl]
    · simpa [ht] using h.table _ t
  · simpa [hi] using h.table i t

end

/-- A commit makes the oldest load past and may drop the last entry of its history. -/
theorem Ok.commit (h : Ok p (keys ++ [(pc, sn)]) floor) (hf : floor ≤ sn) (u : Nat) :
    ∃ q, p.commit pc u = some q ∧ Ok q keys sn := by
  have hretire := h.window.retire hf
  unfold Local.commit
  split
  · have hw := h.window.retire_self hf
    have hne : p.history (getLocalIndex p.size pc) ≠ [] := by
      intro hnil
      obtain ⟨past, hl, hlen, -⟩ := hw
      obtain ⟨-, rfl⟩ := nil_eq_append_iff.mp (hnil ▸ hl)
      simp at hlen
    rw [if_neg hne]
    exact ⟨_, rfl, h.size, hretire.update _ hw.dropLast,
      h.levels_update _ fun e he => h.levels _ e (dropLast_subset _ he), h.table⟩
  · exact ⟨p, rfl, h.size, hretire, h.levels, h.table⟩

theorem Ok.squash (h : Ok p keys floor) (hs : keys.Pairwise fun k k' => k.2 > k'.2)
    (hn : floor ≤ n) : Ok (p.squash n) (keys.filter fun k => k.2 ≤ n) floor where
  __ := h
  window := h.window.squash h.size hs hn
  levels i e he := by
    simp only [Local.squash] at he
    split at he
    · exact h.levels i e (dropWhile_subset _ he)
    · exact h.levels i e he

end Local

namespace Loop

structure Ok (p : Loop) (keys : List (Nat × Nat)) (floor : Nat) : Prop where
  size : 0 < p.size
  window : Windows p.size 0 floor keys p.directionHistory
  counts : ∀ i, 1 ≤ p.loopCountTable i

variable {p q : Loop} {keys : List (Nat × Nat)} {floor pc sn n i : Nat} {l : CacheLevel}

theorem ok_init (k floor : Nat) : Ok (init (2 ^ k)) [] floor where
  size := Nat.two_pow_pos k
  window i := ⟨[0], by simp [init, live], Nat.zero_le _, fun j hj => by
    rw [mem_singleton.mp hj]
    exact Nat.zero_le _⟩
  counts _ := Nat.le_refl 1

theorem Ok.prepare (h : Ok p keys floor) (pc sn : Nat) :
    Ok (p.prepare pc sn) ((pc, sn) :: keys) floor where
  __ := h
  window := h.window.push pc sn false

theorem Ok.setDirection (h : Ok p keys floor) (i j : Nat) (d : Bool) :
    Ok (p.setDirection i j d) keys floor where
  __ := h
  window := h.window.modify i j d

theorem Ok.find (h : Ok p keys floor) (hk : (pc, sn) ∈ keys) :
    ∃ j, p.historyIdx (getLocalIndex p.size pc) sn = some j := by
  obtain ⟨j, hj, -⟩ := (h.window (getLocalIndex p.size pc)).find (mem_live hk)
  exact ⟨j, hj⟩

theorem Ok.predict (h : Ok p keys floor) (hk : (pc, sn) ∈ keys) :
    ∃ r, p.predict pc sn = some r ∧ Ok r.1 keys floor := by
  obtain ⟨j, hj⟩ := h.find hk
  have hcount : p.loopCountTable (getLocalIndex p.size pc) ≠ 0 := by
    have := h.counts (getLocalIndex p.size pc)
    omega
  unfold Loop.predict
  simp only [hj, if_neg hcount]
  exact ⟨_, rfl, h.setDirection _ _ _⟩

/-- A count that is taken over was the length of a loop. -/
theorem confirm_pos {cur cand seen : Nat} (hcur : 1 ≤ cur) (hseen : 1 ≤ seen) :
    1 ≤ (confirm cur cand seen).1 := by
  unfold confirm
  split
  · split
    · exact hseen
    · exact hcur
  · exact hcur

theorem Ok.update (h : Ok p keys floor) (pc sn : Nat) (l : CacheLevel) :
    Ok (p.update pc sn l).1 keys floor := by
  unfold Loop.update
  dsimp only
  split
  · exact h
  rename_i j hj
  have hset := h.setDirection (getLocalIndex p.size pc) j (l.fold != .L1)
  split
  · refine ⟨hset.size, hset.window, fun i => ?_⟩
    by_cases hi : i = getLocalIndex p.size pc
    · subst hi
      simp only [update_self]
      exact confirm_pos (h.counts _) (Nat.le_add_right 1 _)
    · simp only [update_of_ne hi]
      exact h.counts i
  · exact hset

/-- A commit drops entries older than the load, so only past ones. -/
theorem Ok.commit (h : Ok p (keys ++ [(pc, sn)]) floor) (hf : floor ≤ sn)
    (hs : ∀ k ∈ keys, sn ≤ k.2) (u : Nat) : Ok (p.commit pc sn u) keys sn := by
  have hretire := h.window.retire hf
  unfold Loop.commit
  split
  · refine ⟨h.size, hretire.update _ ((hretire _).rdropWhile fun j hj => ?_), h.counts⟩
    obtain ⟨k, hk, rfl⟩ := mem_map.mp hj
    exact hs k (mem_of_mem_filter hk)
  · exact ⟨h.size, hretire, h.counts⟩

theorem Ok.squash (h : Ok p keys floor) (hs : keys.Pairwise fun k k' => k.2 > k'.2)
    (hn : floor ≤ n) : Ok (p.squash n) (keys.filter fun k => k.2 ≤ n) floor where
  __ := h
  window := h.window.squash h.size hs hn

end Loop

namespace SubPred

/-- What holds of a predictor that has seen the loads in flight. -/
def Ok (q : SubPred) (keys : List (Nat × Nat)) (floor : Nat) : Prop :=
  match q with
  | .greedy p => ∀ i, p.history i ≠ []
  | .hysteresis _ => True
  | .localPred p => p.Ok keys floor
  | .loop p => p.Ok keys floor

variable {q q' : SubPred} {keys : List (Nat × Nat)} {floor pc sn n : Nat} {l : CacheLevel}

theorem Fresh.ok (h : Fresh q) (floor : Nat) : q.Ok [] floor := by
  cases h with
  | greedy k len hlen =>
    intro i hnil
    have hzero := (replicate_eq_nil_iff _).mp hnil
    omega
  | hysteresis k => trivial
  | localPred k len => exact Local.ok_init k len floor
  | loop k => exact Loop.ok_init k floor

theorem Ok.prepare (h : q.Ok keys floor) (pc sn : Nat) :
    (q.prepare pc sn).Ok ((pc, sn) :: keys) floor := by
  cases q with
  | greedy p => exact h
  | hysteresis p => trivial
  | localPred p => exact Local.Ok.prepare h pc sn
  | loop p => exact Loop.Ok.prepare h pc sn

theorem Ok.predict (h : q.Ok keys floor) (hk : (pc, sn) ∈ keys) :
    ∃ r, q.predict pc sn = some r ∧ r.1.Ok keys floor := by
  cases q with
  | greedy p =>
    cases hh : p.history (getLocalIndex p.size pc) with
    | nil => exact absurd hh (h _)
    | cons l ls =>
      simp only [SubPred.predict, Greedy.predict, hh, map_some]
      exact ⟨_, rfl, h⟩
  | hysteresis p => exact ⟨_, rfl, trivial⟩
  | localPred p =>
    obtain ⟨r, hr, hok⟩ := Local.Ok.predict h hk
    simp only [SubPred.predict, hr, map_some]
    exact ⟨_, rfl, hok⟩
  | loop p =>
    obtain ⟨r, hr, hok⟩ := Loop.Ok.predict h hk
    simp only [SubPred.predict, hr, map_some]
    exact ⟨_, rfl, hok⟩

theorem Ok.update (h : q.Ok keys floor) (hk : (pc, sn) ∈ keys) (hl : l.isActual) :
    ∃ r, q.update pc sn l = some r ∧ r.1.Ok keys floor := by
  cases q with
  | greedy p =>
    cases hh : p.history (getLocalIndex p.size pc) with
    | nil => exact absurd hh (h _)
    | cons x ls =>
      simp only [SubPred.update, Greedy.update, hh, map_some]
      refine ⟨_, rfl, fun i => ?_⟩
      by_cases hi : i = getLocalIndex p.size pc
      · subst hi
        simp
      · simpa [hi] using h i
  | hysteresis p => exact ⟨_, rfl, trivial⟩
  | localPred p =>
    obtain ⟨r, hr, hok⟩ := Local.Ok.update h hk hl
    simp only [SubPred.update, hr, map_some]
    exact ⟨_, rfl, hok⟩
  | loop p => exact ⟨_, rfl, Loop.Ok.update h pc sn l⟩

theorem Ok.commit (h : q.Ok (keys ++ [(pc, sn)]) floor) (hf : floor ≤ sn)
    (hs : ∀ k ∈ keys, sn ≤ k.2) (u : Nat) : ∃ q', q.commit pc sn u = some q' ∧ q'.Ok keys sn := by
  cases q with
  | greedy p => exact ⟨_, rfl, h⟩
  | hysteresis p => exact ⟨_, rfl, trivial⟩
  | localPred p =>
    obtain ⟨r, hr, hok⟩ := Local.Ok.commit h hf u
    simp only [SubPred.commit, hr, map_some]
    exact ⟨_, rfl, hok⟩
  | loop p => exact ⟨_, rfl, Loop.Ok.commit h hf hs u⟩

theorem Ok.squash (h : q.Ok keys floor) (hs : keys.Pairwise fun k k' => k.2 > k'.2)
    (hn : floor ≤ n) : (q.squash n).Ok (keys.filter fun k => k.2 ≤ n) floor := by
  cases q with
  | greedy p => exact h
  | hysteresis p => trivial
  | localPred p => exact Local.Ok.squash h hs hn
  | loop p => exact Loop.Ok.squash h hs hn

end SubPred

/-! ## Predictors made of sub-predictors -/

/-- The methods of a predictor call those of its sub-predictors. -/
structure Delegates {σ : Type} (M : Methods σ) (subs : σ → List SubPred) : Prop where
  prepare : ∀ t pc sn, List.Forall₂ (fun q q' => q' = q.prepare pc sn) (subs t)
    (subs (M.prepare t pc sn))
  predict : ∀ t pc sn r, M.predict t pc sn = some r →
    List.Forall₂ (fun q q' => ∃ x, q.predict pc sn = some (q', x)) (subs t) (subs r.1)
  update : ∀ t pc sn l r, M.update t pc sn l = some r →
    List.Forall₂ (fun q q' => ∃ u, q.update pc sn l = some (q', u)) (subs t) (subs r.1)
  commit : ∀ t pc sn u t', M.commit t pc sn u = some t' →
    List.Forall₂ (fun q q' => ∃ u, q.commit pc sn u = some q') (subs t) (subs t')
  squash : ∀ t n, List.Forall₂ (fun q q' => q' = q.squash n) (subs t) (subs (M.squash t n))

theorem exists_of_forall₂ {α β : Type} {R : α → β → Prop} {l : List α} {l' : List β}
    (h : List.Forall₂ R l l') : ∀ y ∈ l', ∃ x ∈ l, R x y := by
  induction h with
  | nil => simp
  | cons hr _ ih =>
    refine forall_mem_cons.mpr ⟨⟨_, mem_cons_self, hr⟩, fun y hy => ?_⟩
    obtain ⟨x, hx, hr⟩ := ih y hy
    exact ⟨x, mem_cons_of_mem _ hx, hr⟩

theorem delegates_sub : Delegates SubPred.methods fun q => [q] where
  prepare _ _ _ := .cons rfl .nil
  predict _ _ _ r h := .cons ⟨r.2, h⟩ .nil
  update _ _ _ _ r h := .cons ⟨r.2, h⟩ .nil
  commit _ _ _ u _ h := .cons ⟨u, h⟩ .nil
  squash _ _ := .cons rfl .nil

/-- The prediction in a tournament's update does not show in what the update leaves. -/
theorem Contender.update_pred {k k' : Contender} {confMax : Int} {i pc sn u : Nat} {l : CacheLevel}
    (h : k.update confMax i pc sn l = some (k', u)) :
    k.pred.update pc sn l = some (k'.pred, u) := by
  unfold Contender.update at h
  split at h
  · cases h
  rename_i q prediction t hp
  obtain ⟨r, hr, he⟩ := map_eq_some_iff.mp h
  cases he
  rw [← SubPred.update_predict hp]
  exact hr

namespace Tournament2Way

def subs (t : Tournament2Way) : List SubPred := [t.pred1.pred, t.pred2.pred]

theorem update_cases {t t' : Tournament2Way} {pc sn u : Nat} {l : CacheLevel}
    (h : t.update pc sn l = some (t', u)) : ∃ u1 u2, u = u2 <<< 1 + u1 ∧
      t.pred1.pred.update pc sn l = some (t'.pred1.pred, u1) ∧
      t.pred2.pred.update pc sn l = some (t'.pred2.pred, u2) := by
  unfold update at h
  dsimp only at h
  split at h
  · next k1 u1 k2 u2 h1 h2 =>
    cases h
    refine ⟨u1, u2, rfl, ?_, ?_⟩
    · rw [← SubPred.update_fold]
      exact Contender.update_pred h1
    · rw [← SubPred.update_fold]
      exact Contender.update_pred h2
  · cases h

theorem delegates : Delegates methods subs where
  prepare _ _ _ := .cons rfl (.cons rfl .nil)
  predict t pc sn r h := by
    simp only [methods, predict] at h
    split at h
    · next h1 h2 => split at h <;> cases h <;> exact .cons ⟨_, h1⟩ (.cons ⟨_, h2⟩ .nil)
    · cases h
  update t pc sn l r h := by
    obtain ⟨u1, u2, -, h1, h2⟩ := update_cases h
    exact .cons ⟨u1, h1⟩ (.cons ⟨u2, h2⟩ .nil)
  commit t pc sn u t' h := by
    simp only [methods, commit] at h
    split at h
    · next h1 h2 =>
      cases h
      exact .cons ⟨_, h1⟩ (.cons ⟨_, h2⟩ .nil)
    · cases h
  squash _ _ := .cons rfl (.cons rfl .nil)

end Tournament2Way

namespace Tournament3Way

def subs (t : Tournament3Way) : List SubPred := [t.pred1.pred, t.pred2.pred, t.pred3.pred]

theorem update_cases {t t' : Tournament3Way} {pc sn u : Nat} {l : CacheLevel}
    (h : t.update pc sn l = some (t', u)) : ∃ u1 u2 u3, u = u3 <<< 2 + u2 <<< 1 + u1 ∧
      t.pred1.pred.update pc sn l = some (t'.pred1.pred, u1) ∧
      t.pred2.pred.update pc sn l = some (t'.pred2.pred, u2) ∧
      t.pred3.pred.update pc sn l = some (t'.pred3.pred, u3) := by
  unfold update at h
  dsimp only at h
  split at h
  · next k1 u1 k2 u2 k3 u3 h1 h2 h3 =>
    cases h
    refine ⟨u1, u2, u3, rfl, ?_, ?_, ?_⟩ <;> rw [← SubPred.update_fold]
    · exact Contender.update_pred h1
    · exact Contender.update_pred h2
    · exact Contender.update_pred h3
  · cases h

theorem delegates : Delegates methods subs where
  prepare _ _ _ := .cons rfl (.cons rfl (.cons rfl .nil))
  predict t pc sn r h := by
    simp only [methods, predict] at h
    split at h
    · next q1 _ _ q2 _ _ q3 _ _ h1 h2 h3 =>
      have hr : r.1 = { t with pred1.pred := q1, pred2.pred := q2, pred3.pred := q3 } := by
        split at h
        · cases h
          rfl
        · split at h <;> cases h <;> rfl
      rw [hr]
      exact .cons ⟨_, h1⟩ (.cons ⟨_, h2⟩ (.cons ⟨_, h3⟩ .nil))
    · cases h
  update t pc sn l r h := by
    obtain ⟨u1, u2, u3, -, h1, h2, h3⟩ := update_cases h
    exact .cons ⟨u1, h1⟩ (.cons ⟨u2, h2⟩ (.cons ⟨u3, h3⟩ .nil))
  commit t pc sn u t' h := by
    simp only [methods, commit] at h
    split at h
    · next h1 h2 h3 =>
      cases h
      exact .cons ⟨_, h1⟩ (.cons ⟨_, h2⟩ (.cons ⟨_, h3⟩ .nil))
    · cases h
  squash _ _ := .cons rfl (.cons rfl (.cons rfl .nil))

end Tournament3Way

/-! ## Every run -/

section Runs

variable {σ : Type} {M : Methods σ} {subs : σ → List SubPred} {start : σ → Prop}

/-- The loads in flight are in program order, above what has committed, and every sub-predictor
has seen them. -/
structure Run.Ok (subs : σ → List SubPred) (r : Run σ) : Prop where
  sorted : r.keys.Pairwise fun k k' => k.2 > k'.2
  bounds : ∀ k ∈ r.keys, r.floor ≤ k.2 ∧ k.2 < r.next
  floor : r.floor ≤ r.next
  preds : ∀ q ∈ subs r.pred, q.Ok r.keys r.floor

variable {r : Run σ} {f : Flight}

theorem Run.mem_keys (hf : f ∈ r.loads) : (f.pc, f.sn) ∈ r.keys :=
  mem_map.mpr ⟨f, hf, rfl⟩

theorem Run.Ok.prepare (hd : Delegates M subs) (h : r.Ok subs) {pc sn : Nat} (hn : r.next ≤ sn) :
    ({ r with pred := M.prepare r.pred pc sn, loads := ⟨pc, sn, 0⟩ :: r.loads
              next := sn + 1 } : Run σ).Ok subs where
  sorted := by
    refine pairwise_cons.mpr ⟨fun k hk => ?_, h.sorted⟩
    have := (h.bounds k hk).2
    change sn > k.2
    omega
  bounds k hk := by
    rcases mem_cons.mp hk with rfl | hk
    · have := h.floor
      exact ⟨by dsimp only; omega, Nat.lt_succ_self sn⟩
    · have hb := h.bounds k hk
      exact ⟨hb.1, by dsimp only; omega⟩
  floor := by
    have := h.floor
    dsimp only
    omega
  preds q' hq' := by
    obtain ⟨q, hq, rfl⟩ := exists_of_forall₂ (hd.prepare r.pred pc sn) q' hq'
    exact (h.preds q hq).prepare pc sn

/-- A step that changes nothing but the sub-predictors. -/
theorem Run.Ok.setPred {r' : Run σ} (h : r.Ok subs) (hk : r'.keys = r.keys) (hn : r'.next = r.next)
    (hf : r'.floor = r.floor) (hq : ∀ q ∈ subs r'.pred, q.Ok r.keys r.floor) : r'.Ok subs where
  sorted := by rw [hk]; exact h.sorted
  bounds := by rw [hk, hn, hf]; exact h.bounds
  floor := by rw [hn, hf]; exact h.floor
  preds := by rw [hk, hf]; exact hq

theorem Run.keys_setUpdate (r : Run σ) (sn u : Nat) (q : σ) :
    ({ r with pred := q, loads := r.setUpdate sn u } : Run σ).keys = r.keys := by
  simp only [Run.keys, Run.setUpdate, map_map]
  refine map_congr_left fun f _ => ?_
  simp only [Function.comp]
  split <;> rfl

theorem Run.Ok.commit (hd : Delegates M subs) (h : r.Ok subs) {u : Nat} {t : σ}
    (hlast : r.loads.getLast? = some f) (ht : M.commit r.pred f.pc f.sn u = some t) :
    ({ r with pred := t, loads := r.loads.dropLast, floor := f.sn } : Run σ).Ok subs := by
  obtain ⟨ls, hls⟩ := getLast?_eq_some_iff.mp hlast
  have hkeys : r.keys = ls.map (fun f => (f.pc, f.sn)) ++ [(f.pc, f.sn)] := by
    simp [Run.keys, hls]
  have hkeys' : ({ r with pred := t, loads := r.loads.dropLast, floor := f.sn } : Run σ).keys =
      ls.map fun f => (f.pc, f.sn) := by
    simp [Run.keys, hls]
  have hsorted := h.sorted
  rw [hkeys, pairwise_append] at hsorted
  have habove : ∀ k ∈ ls.map (fun f => (f.pc, f.sn)), f.sn < k.2 := fun k hk =>
    hsorted.2.2 k hk _ (mem_singleton_self _)
  have hf := h.bounds (f.pc, f.sn) (by rw [hkeys]; simp)
  refine ⟨by rw [hkeys']; exact hsorted.1, fun k hk => ?_, Nat.le_of_lt hf.2, fun q' hq' => ?_⟩
  · rw [hkeys'] at hk
    exact ⟨Nat.le_of_lt (habove k hk), (h.bounds k (by rw [hkeys]; exact mem_append_left _ hk)).2⟩
  obtain ⟨q, hq, u', hu'⟩ := exists_of_forall₂ (hd.commit _ _ _ _ _ ht) q' hq'
  rw [hkeys']
  obtain ⟨q'', hq'', hok⟩ := (hkeys ▸ h.preds q hq).commit hf.1
    (fun k hk => Nat.le_of_lt (habove k hk)) u'
  cases hq''.symm.trans hu'
  exact hok

theorem Run.Ok.squash (hd : Delegates M subs) (h : r.Ok subs) {n : Nat} (hn : r.floor ≤ n) :
    ({ r with pred := M.squash r.pred n, loads := r.loads.filter fun f => f.sn ≤ n } : Run σ).Ok
      subs := by
  have hkeys : ({ r with pred := M.squash r.pred n
                         loads := r.loads.filter fun f => f.sn ≤ n } : Run σ).keys =
      r.keys.filter fun k => k.2 ≤ n := by
    simp only [Run.keys, filter_map]
    rfl
  refine ⟨?_, fun k hk => ?_, h.floor, fun q' hq' => ?_⟩
  · rw [hkeys]
    exact h.sorted.sublist filter_sublist
  · rw [hkeys] at hk
    exact h.bounds k (mem_of_mem_filter hk)
  rw [hkeys]
  obtain ⟨q, hq, rfl⟩ := exists_of_forall₂ (hd.squash _ _) q' hq'
  exact (h.preds q hq).squash h.sorted hn

theorem Run.find_spec {sn : Nat} (h : r.find sn = some f) :
    (f.pc, f.sn) ∈ r.keys := Run.mem_keys (mem_of_find?_eq_some h)

theorem Run.Ok.step {r' : Run σ} (hd : Delegates M subs) (h : r.Ok subs) {e : RunEvent}
    (hs : r.step M e = some r') : r'.Ok subs := by
  cases e with
  | prepare pc sn =>
    simp only [Run.step] at hs
    split at hs
    · next hn =>
      cases hs
      exact h.prepare hd hn
    · cases hs
  | predict sn =>
    simp only [Run.step] at hs
    split at hs
    · next f hf =>
      obtain ⟨x, hx, rfl⟩ := map_eq_some_iff.mp hs
      refine h.setPred rfl rfl rfl fun q' hq' => ?_
      obtain ⟨q, hq, y, hy⟩ := exists_of_forall₂ (hd.predict _ _ _ _ hx) q' hq'
      obtain ⟨z, hz, hok⟩ := (h.preds q hq).predict (Run.find_spec hf)
      cases hz.symm.trans hy
      exact hok
    · cases hs
  | update sn l =>
    simp only [Run.step] at hs
    split at hs
    · next f hf =>
      split at hs
      · next hl =>
        obtain ⟨x, hx, rfl⟩ := map_eq_some_iff.mp hs
        refine h.setPred (r.keys_setUpdate sn x.2 x.1) rfl rfl fun q' hq' => ?_
        obtain ⟨q, hq, u, hu⟩ := exists_of_forall₂ (hd.update _ _ _ _ _ hx) q' hq'
        obtain ⟨z, hz, hok⟩ := (h.preds q hq).update (Run.find_spec hf) hl
        cases hz.symm.trans hu
        exact hok
      · cases hs
    · cases hs
  | commit =>
    simp only [Run.step] at hs
    split at hs
    · next f hf =>
      obtain ⟨t, ht, rfl⟩ := map_eq_some_iff.mp hs
      exact h.commit hd hf ht
    · cases hs
  | squash n =>
    simp only [Run.step] at hs
    split at hs
    · next hn =>
      cases hs
      exact h.squash hd hn
    · cases hs

theorem Run.ok_of_reach (hd : Delegates M subs) (h0 : ∀ t, start t → ∀ q ∈ subs t, q.Fresh)
    (h : (predMachine M start).Reach r) : r.Ok subs := by
  refine h.invariant (I := Run.Ok subs) (fun r hr => ?_) fun _ _ _ hi _ hs => hi.step hd hs
  obtain ⟨hp, hl, hf⟩ : start r.pred ∧ r.loads = [] ∧ r.floor = 0 := hr
  have hkeys : r.keys = [] := by simp [Run.keys, hl]
  exact ⟨by simp [hkeys], by simp [hkeys], by rw [hf]; exact Nat.zero_le _,
    fun q hq => hkeys ▸ (h0 _ hp q hq).ok r.floor⟩

end Runs

theorem sub_ok {r : Run SubPred} (h : subMachine.Reach r) : r.pred.Ok r.keys r.floor :=
  (Run.ok_of_reach delegates_sub (fun _ ht _ hq => mem_singleton.mp hq ▸ ht) h).preds _
    (mem_singleton_self _)

theorem tournament2_ok {r : Run Tournament2Way} (h : tournament2Machine.Reach r) :
    r.pred.pred1.pred.Ok r.keys r.floor ∧ r.pred.pred2.pred.Ok r.keys r.floor := by
  have hok := Run.ok_of_reach Tournament2Way.delegates
    (fun t ht => by simpa [Tournament2Way.subs] using ht) h
  simpa [Tournament2Way.subs] using hok.preds

theorem tournament3_ok {r : Run Tournament3Way} (h : tournament3Machine.Reach r) :
    r.pred.pred1.pred.Ok r.keys r.floor ∧ r.pred.pred2.pred.Ok r.keys r.floor ∧
      r.pred.pred3.pred.Ok r.keys r.floor := by
  have hok := Run.ok_of_reach Tournament3Way.delegates
    (fun t ht => by simpa [Tournament3Way.subs] using ht) h
  simpa [Tournament3Way.subs] using hok.preds

/-! ## No load in flight is lost -/

/-- A history-based predictor finds the entry of the load. The local predictor has a full window
of levels below 4 behind it and reads its table within bounds; the loop predictor divides by at
least 1. -/
def SubPred.Finds (q : SubPred) (pc sn : Nat) : Prop :=
  match q with
  | .localPred p =>
    (∃ j, p.historyIdx (getLocalIndex p.size pc) sn = some j ∧
      j + p.historyLength < (p.history (getLocalIndex p.size pc)).length ∧
      p.predictionTableIdx (getLocalIndex p.size pc) j < 4 ^ p.historyLength) ∧
    (∀ i, ∀ e ∈ p.history i, e.2.toNat < 4) ∧ (p.predict pc sn).isSome = true
  | .loop p =>
    (∃ j, p.historyIdx (getLocalIndex p.size pc) sn = some j) ∧
    (∀ i, 1 ≤ p.loopCountTable i) ∧ (p.predict pc sn).isSome = true
  | _ => True

theorem SubPred.Ok.finds {q : SubPred} {keys : List (Nat × Nat)} {floor pc sn : Nat}
    (h : q.Ok keys floor) (hk : (pc, sn) ∈ keys) : q.Finds pc sn := by
  cases q with
  | greedy p => trivial
  | hysteresis p => trivial
  | localPred p =>
    obtain ⟨j, hj, hlen, hidx, -⟩ := Local.Ok.lookup h hk
    obtain ⟨r, hr, -⟩ := Local.Ok.predict h hk
    exact ⟨⟨j, hj, hlen, hidx⟩, fun i e he => of_decide_eq_true (Local.Ok.levels h i e he),
      by rw [hr]; rfl⟩
  | loop p =>
    obtain ⟨r, hr, -⟩ := Loop.Ok.predict h hk
    exact ⟨Loop.Ok.find h hk, Loop.Ok.counts h, by rw [hr]; rfl⟩

/-- In every run, alone or in a tournament, a history-based predictor finds every load in
flight. -/
theorem inFlight_found :
    (∀ r, subMachine.Reach r → ∀ f ∈ r.loads, r.pred.Finds f.pc f.sn) ∧
      (∀ r, tournament2Machine.Reach r → ∀ f ∈ r.loads,
        r.pred.pred1.pred.Finds f.pc f.sn ∧ r.pred.pred2.pred.Finds f.pc f.sn) ∧
      (∀ r, tournament3Machine.Reach r → ∀ f ∈ r.loads,
        r.pred.pred1.pred.Finds f.pc f.sn ∧ r.pred.pred2.pred.Finds f.pc f.sn ∧
          r.pred.pred3.pred.Finds f.pc f.sn) := by
  refine ⟨fun r h f hf => (sub_ok h).finds (Run.mem_keys hf), fun r h f hf => ?_,
    fun r h f hf => ?_⟩
  · obtain ⟨h1, h2⟩ := tournament2_ok h
    exact ⟨h1.finds (Run.mem_keys hf), h2.finds (Run.mem_keys hf)⟩
  · obtain ⟨h1, h2, h3⟩ := tournament3_ok h
    exact ⟨h1.finds (Run.mem_keys hf), h2.finds (Run.mem_keys hf), h3.finds (Run.mem_keys hf)⟩

/-! ## The predictions inside an update -/

theorem Contender.update_isSome {k : Contender} {keys : List (Nat × Nat)} {floor pc sn : Nat}
    {l : CacheLevel} (h : k.pred.Ok keys floor) (hk : (pc, sn) ∈ keys) (hl : l.isActual)
    (confMax : Int) (i : Nat) : ∃ r, k.update confMax i pc sn l = some r := by
  obtain ⟨⟨q, x⟩, hq, hok⟩ := h.predict hk
  obtain ⟨r, hr, -⟩ := hok.update hk hl
  unfold Contender.update
  rw [hq]
  dsimp only
  rw [hr]
  exact ⟨_, rfl⟩

/-- After the update of a load in flight every sub-predictor is where its own update would have
taken it: the predictions a tournament's update makes leave no trace. -/
theorem tournament_update_alone :
    (∀ r, tournament2Machine.Reach r → ∀ f ∈ r.loads, ∀ l : CacheLevel, l.isActual = true →
      ∃ t u u1 u2, r.pred.update f.pc f.sn l = some (t, u) ∧
        r.pred.pred1.pred.update f.pc f.sn l = some (t.pred1.pred, u1) ∧
        r.pred.pred2.pred.update f.pc f.sn l = some (t.pred2.pred, u2)) ∧
    (∀ r, tournament3Machine.Reach r → ∀ f ∈ r.loads, ∀ l : CacheLevel, l.isActual = true →
      ∃ t u u1 u2 u3, r.pred.update f.pc f.sn l = some (t, u) ∧
        r.pred.pred1.pred.update f.pc f.sn l = some (t.pred1.pred, u1) ∧
        r.pred.pred2.pred.update f.pc f.sn l = some (t.pred2.pred, u2) ∧
        r.pred.pred3.pred.update f.pc f.sn l = some (t.pred3.pred, u3)) := by
  refine ⟨fun r h f hf l hl => ?_, fun r h f hf l hl => ?_⟩
  · obtain ⟨h1, h2⟩ := tournament2_ok h
    have hup {k : Contender} (hok : k.pred.Ok r.keys r.floor) :=
      Contender.update_isSome hok (Run.mem_keys hf) (CacheLevel.isActual_fold hl) r.pred.confMax
        (getLocalIndex r.pred.size f.pc)
    obtain ⟨x1, hx1⟩ := hup h1
    obtain ⟨x2, hx2⟩ := hup h2
    obtain ⟨⟨t, u⟩, ht⟩ : ∃ x, r.pred.update f.pc f.sn l = some x := by
      unfold Tournament2Way.update
      simp only [hx1, hx2]
      exact ⟨_, rfl⟩
    obtain ⟨u1, u2, -, hu1, hu2⟩ := Tournament2Way.update_cases ht
    exact ⟨t, u, u1, u2, ht, hu1, hu2⟩
  · obtain ⟨h1, h2, h3⟩ := tournament3_ok h
    have hup {k : Contender} (hok : k.pred.Ok r.keys r.floor) :=
      Contender.update_isSome hok (Run.mem_keys hf) (CacheLevel.isActual_fold hl) r.pred.confMax
        (getLocalIndex r.pred.size f.pc)
    obtain ⟨x1, hx1⟩ := hup h1
    obtain ⟨x2, hx2⟩ := hup h2
    obtain ⟨x3, hx3⟩ := hup h3
    obtain ⟨⟨t, u⟩, ht⟩ : ∃ x, r.pred.update f.pc f.sn l = some x := by
      unfold Tournament3Way.update
      simp only [hx1, hx2, hx3]
      exact ⟨_, rfl⟩
    obtain ⟨u1, u2, u3, -, hu1, hu2, hu3⟩ := Tournament3Way.update_cases ht
    exact ⟨t, u, u1, u2, u3, ht, hu1, hu2, hu3⟩

/-! ## A tournament of the local and the loop predictor -/

def localLoop : Run Tournament2Way where
  pred :=
    { size := 8
      pred1 := ⟨.localPred (.init (2 ^ 3) 2), fun _ => 8⟩
      pred2 := ⟨.loop (.init (2 ^ 3)), fun _ => 8⟩
      confMax := 16 }

/-- Two loads of one entry, the older one updated and committed, and a third one. -/
def localLoopEvents : List RunEvent :=
  [.prepare 8 1, .predict 1, .prepare 16 2, .update 1 .DRAM, .predict 2, .commit, .prepare 24 3,
    .squash 2, .prepare 24 4]

def localLoopRun : Run Tournament2Way :=
  (tournament2Machine.run localLoop localLoopEvents).getD localLoop

theorem localLoopRun_reach : tournament2Machine.Reach localLoopRun :=
  Machine.reach_run (s := localLoop) ⟨⟨.localPred 3 2, .loop 3⟩, rfl, rfl⟩
    (Machine.run_getD (by decide +kernel))

theorem inFlight_found_localLoop :
    localLoopRun.pred.pred1.pred.Finds 16 2 ∧ localLoopRun.pred.pred2.pred.Finds 16 2 :=
  inFlight_found.2.1 localLoopRun localLoopRun_reach ⟨16, 2, 0⟩ (by decide +kernel)

theorem tournament_update_alone_localLoop :
    ∃ t u u1 u2, localLoopRun.pred.update 24 4 .L2 = some (t, u) ∧
      localLoopRun.pred.pred1.pred.update 24 4 .L2 = some (t.pred1.pred, u1) ∧
      localLoopRun.pred.pred2.pred.update 24 4 .L2 = some (t.pred2.pred, u2) :=
  tournament_update_alone.1 localLoopRun localLoopRun_reach ⟨24, 4, 0⟩ (by decide +kernel) .L2 rfl

end SdoCore.LocPred
