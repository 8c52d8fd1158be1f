import SdoCore.Lib.Machine
import SdoCore.InstQueue

/-! The order in which the instruction queue issues (`inst_queue_impl.hh`): one ready queue for
each op class, and the list of those that are not empty by their oldest instruction, which
`scheduleReadyInsts` walks and edits at the same time.

* `insertBefore_perm`, `insertBefore_sorted`: the loops that find a place in the list;
* `Ok`: the list has one entry for each queue that is not empty, in the order of their oldest
  instructions, and is what `readyIt` and `queueOnList` say;
* `turn_issues`: a turn of the loop can be made, and issues the instruction at the top of the class
  at the iterator, unless it is squashed or there is no unit for it;
* `issue_oldest_first`: every run keeps the list so, also in the middle of a pass; the assertions
  of a pass hold, and when an instruction is issued every older one that is ready was refused a
  unit in this pass. -/

namespace SdoCore

open Lib
open List
open Function (update)

/-! ## The order list -/

/-- A node of `listOrder`; an iterator is the `id` of a node. -/
structure ListOrderEntry where
  id : Nat
  queueType : OpClass
  oldestInst : Nat
  deriving DecidableEq

/-- A ready queue holds sequence numbers; its top is the smallest. `readyIt = none` is
`listOrder.end()`. -/
structure IssueQueue where
  readyInsts : OpClass → List Nat
  queueOnList : OpClass → Bool
  readyIt : OpClass → Option Nat
  listOrder : List ListOrderEntry
  nextId : Nat

/-- Insert in front of the first entry that satisfies `stop`, or at the end. -/
def insertBefore (stop : ListOrderEntry → Bool) (e : ListOrderEntry) :
    List ListOrderEntry → List ListOrderEntry
  | [] => [e]
  | b :: l => if stop b then e :: b :: l else b :: insertBefore stop e l

theorem insertBefore_perm (stop : ListOrderEntry → Bool) (e : ListOrderEntry)
    (l : List ListOrderEntry) : (insertBefore stop e l).Perm (e :: l) := by
  induction l with
  | nil => exact .refl _
  | cons b l ih =>
    rw [insertBefore]
    split
    · exact .refl _
    · exact (ih.cons b).trans (.swap e b l)

/-- By the sequence number of the oldest instruction. -/
def SortedByOldest (l : List ListOrderEntry) : Prop :=
  l.Pairwise fun a b => a.oldestInst ≤ b.oldestInst

/-- The place is right if the loop passes what is not younger and stops at what is not older. -/
theorem insertBefore_sorted {stop : ListOrderEntry → Bool} {e : ListOrderEntry}
    {l : List ListOrderEntry} (h : SortedByOldest l)
    (hpass : ∀ b, stop b = false → b.oldestInst ≤ e.oldestInst)
    (hstop : ∀ b, stop b → e.oldestInst ≤ b.oldestInst) :
    SortedByOldest (insertBefore stop e l) := by
  induction l with
  | nil => exact pairwise_singleton _ e
  | cons b l ih =>
    obtain ⟨hb, hl⟩ := pairwise_cons.mp h
    rw [insertBefore]
    split
    · next hs =>
      refine pairwise_cons.mpr ⟨fun c hc => ?_, h⟩
      rcases mem_cons.mp hc with rfl | hc
      · exact hstop c hs
      · exact (hstop b hs).trans (hb c hc)
    · next hs =>
      refine pairwise_cons.mpr ⟨fun c hc => ?_, ih hl⟩
      rcases mem_cons.mp ((insertBefore_perm stop e l).mem_iff.mp hc) with rfl | hc
      · exact hpass b (Bool.eq_false_iff.mpr hs)
      · exact hb c hc

namespace IssueQueue

def top (q : IssueQueue) (op : OpClass) : Option Nat := (q.readyInsts op).min?

def push (q : IssueQueue) (op : OpClass) (x : Nat) : IssueQueue :=
  { q with readyInsts := update q.readyInsts op (x :: q.readyInsts op) }

def pop (q : IssueQueue) (op : OpClass) (x : Nat) : IssueQueue :=
  { q with readyInsts := update q.readyInsts op ((q.readyInsts op).erase x) }

def addToOrderList (q : IssueQueue) (op : OpClass) : Option IssueQueue :=
  match q.top op with
  | none => none
  | some t =>
    some { q with
      listOrder := insertBefore (fun b => b.oldestInst > t) ⟨q.nextId, op, t⟩ q.listOrder
      readyIt := update q.readyIt op (some q.nextId)
      queueOnList := update q.queueOnList op true
      nextId := q.nextId + 1 }

/-- The node an iterator designates. -/
def deref (q : IssueQueue) (it : Option Nat) : Option ListOrderEntry :=
  q.listOrder.find? fun e => some e.id = it

/-- What `addIfReady` and `addReadyMemInst` do with an instruction that is ready. -/
def addReady (q : IssueQueue) (op : OpClass) (x : Nat) : Option IssueQueue :=
  let q := q.push op x
  if !q.queueOnList op then q.addToOrderList op
  else
    match q.top op, q.deref (q.readyIt op) with
    | some t, some e =>
      if t < e.oldestInst then
        { q with listOrder := q.listOrder.filter fun b => b.id ≠ e.id }.addToOrderList op
      else some q
    | _, _ => none

/-- `ready`: the source operands are there and, where it counts, untainted. A memory instruction
is left to the memory dependence unit. -/
def addIfReady (q : IssueQueue) (ready isMemRef : Bool) (op : OpClass) (x : Nat) :
    Option IssueQueue :=
  if ready then if isMemRef then some q else q.addReady op x else some q

def addReadyMemInst (q : IssueQueue) (op : OpClass) (x : Nat) : Option IssueQueue :=
  q.addReady op x

/-- `pos` is the position of `list_order_it`. The old entry stays until it is erased. -/
def moveToYoungerInst (q : IssueQueue) (pos : Nat) (op : OpClass) : Option IssueQueue :=
  match q.top op with
  | none => none
  | some t =>
    some { q with
      listOrder := q.listOrder.take (pos + 1) ++
        insertBefore (fun b => !decide (b.oldestInst < t)) ⟨q.nextId, op, t⟩
          (q.listOrder.drop (pos + 1))
      readyIt := update q.readyIt op (some q.nextId)
      nextId := q.nextId + 1 }

/-- The instruction `x` at the top of a queue leaves it: the queue moves down the list or off
it. -/
def leave (q : IssueQueue) (pos : Nat) (op : OpClass) (x : Nat) : Option IssueQueue :=
  let q := q.pop op x
  let q := if (q.readyInsts op).isEmpty then
      some { q with readyIt := update q.readyIt op none
                    queueOnList := update q.queueOnList op false }
    else q.moveToYoungerInst pos op
  q.map fun q => { q with listOrder := q.listOrder.eraseIdx pos }

end IssueQueue

/-! ## Passes -/

/-- The answer of `getUnit`. -/
inductive FUAnswer
  | noCapableFU | noFreeFU | unit (idx : Nat)
  deriving DecidableEq

/-- The loop of `scheduleReadyInsts`: the position of `order_it`, the instructions issued and,
as history, the classes that were refused a unit. -/
structure Pass where
  orderIt : Nat := 0
  totalIssued : Nat := 0
  refused : List OpClass := []
  deriving DecidableEq

/-- `issued` are the instructions that were given to execution, first to last. -/
structure Scheduler where
  q : IssueQueue
  isSquashed : Nat → Bool
  pass : Option Pass := none
  issued : List Nat := []

inductive SchedulerEvent
  | addIfReady (ready isMemRef : Bool) (x : Nat)
  | addReadyMemInst (x : Nat)
  | startPass (mem : List Nat)
  | passStep (answer : FUAnswer)
  | endPass
  | setSquashed (x : Nat)

namespace Scheduler

/-- A class that needs no unit does not ask for one. -/
def getsUnit (op : OpClass) (answer : FUAnswer) : Bool := op == .noOpClass || answer != .noFreeFU

/-- One turn of the loop. -/
def passStep (s : Scheduler) (p : Pass) (answer : FUAnswer) : Option Scheduler :=
  match s.q.listOrder[p.orderIt]? with
  | none => none
  | some e =>
    match s.q.top e.queueType with
    | none => none
    | some x =>
      -- assert(issuing_inst->seqNum == (*order_it).oldestInst)
      if x ≠ e.oldestInst then none
      else if s.isSquashed x then
        (s.q.leave p.orderIt e.queueType x).map fun q => { s with q := q }
      else if getsUnit e.queueType answer then
        (s.q.leave p.orderIt e.queueType x).map fun q =>
          { s with q := q, pass := some { p with totalIssued := p.totalIssued + 1 },
                   issued := s.issued ++ [x] }
      else
        some { s with pass := some { p with
          orderIt := p.orderIt + 1, refused := e.queueType :: p.refused } }

variable (opClass : Nat → OpClass) (totalWidth : Nat)

/-- Whether the loop goes on. -/
def goesOn (s : Scheduler) (p : Pass) : Bool :=
  decide (p.totalIssued < totalWidth) && decide (p.orderIt < s.q.listOrder.length)

/-- Ready instructions arrive between the passes; a pass begins with the deferred and blocked
memory instructions `mem`. -/
def step (s : Scheduler) : SchedulerEvent → Option Scheduler
  | .addIfReady ready isMemRef x =>
    match s.pass with
    | none => (s.q.addIfReady ready isMemRef (opClass x) x).map fun q => { s with q := q }
    | some _ => none
  | .addReadyMemInst x =>
    match s.pass with
    | none => (s.q.addReadyMemInst (opClass x) x).map fun q => { s with q := q }
    | some _ => none
  | .startPass mem =>
    match s.pass with
    | none =>
      (mem.foldlM (fun (q : IssueQueue) x => q.addReadyMemInst (opClass x) x) s.q).map fun q =>
        { s with q := q, pass := some {} }
    | some _ => none
  | .passStep answer =>
    match s.pass with
    | some p => if s.goesOn totalWidth p then s.passStep p answer else none
    | none => none
  | .endPass =>
    match s.pass with
    | some p => if s.goesOn totalWidth p then none else some { s with pass := none }
    | none => none
  | .setSquashed x => some { s with isSquashed := update s.isSquashed x true }

end Scheduler

def schedulerMachine (opClass : Nat → OpClass) (totalWidth : Nat) :
    Machine Scheduler SchedulerEvent where
  start s := (∀ op, s.q.readyInsts op = []) ∧ (∀ op, s.q.queueOnList op = false) ∧
    (∀ op, s.q.readyIt op = none) ∧ s.q.listOrder = [] ∧ s.pass = none
  step := Scheduler.step opClass totalWidth

/-! ## The invariant -/

namespace IssueQueue

structure Ok (q : IssueQueue) : Prop where
  sorted : SortedByOldest q.listOrder
  classes : (q.listOrder.map (·.queueType)).Nodup
  ids : (q.listOrder.map (·.id)).Nodup
  fresh : ∀ e ∈ q.listOrder, e.id < q.nextId
  entry : ∀ e ∈ q.listOrder, q.top e.queueType = some e.oldestInst ∧
    q.readyIt e.queueType = some e.id
  listed : ∀ op, q.readyInsts op ≠ [] → ∃ e ∈ q.listOrder, e.queueType = op
  flagged : ∀ op, q.queueOnList op = true ↔ q.readyInsts op ≠ []
  off : ∀ op, q.readyInsts op = [] → q.readyIt op = none

variable {q : IssueQueue} {op : OpClass} {t x : Nat} {e : ListOrderEntry}

theorem top_ne_nil (h : q.top op = some t) :
    q.readyInsts op ≠ [] := by
  intro hnil
  simp [top, hnil] at h

theorem top_push {op' : OpClass} (h : op' ≠ op) :
    (q.push op x).top op' = q.top op' := by
  simp [top, push, h]

/-- The state of the list when a class has to be put on it: everything but that class is in
order. -/
structure Lacks (q : IssueQueue) (op : OpClass) : Prop where
  sorted : SortedByOldest q.listOrder
  classes : (q.listOrder.map (·.queueType)).Nodup
  ids : (q.listOrder.map (·.id)).Nodup
  fresh : ∀ e ∈ q.listOrder, e.id < q.nextId
  absent : ∀ e ∈ q.listOrder, e.queueType ≠ op
  entry : ∀ e ∈ q.listOrder, q.top e.queueType = some e.oldestInst ∧
    q.readyIt e.queueType = some e.id
  listed : ∀ op', op' ≠ op → q.readyInsts op' ≠ [] → ∃ e ∈ q.listOrder, e.queueType = op'
  flagged : ∀ op', op' ≠ op → (q.queueOnList op' = true ↔ q.readyInsts op' ≠ [])
  off : ∀ op', op' ≠ op → q.readyInsts op' = [] → q.readyIt op' = none

/-- A new node for the class, at a place that keeps the order. -/
theorem Lacks.insert {q' : IssueQueue} (h : q.Lacks op) (ht : q.top op = some t)
    {l : List ListOrderEntry}
    (hperm : l.Perm (⟨q.nextId, op, t⟩ :: q.listOrder)) (hsorted : SortedByOldest l)
    (hq : q' = { q with
      listOrder := l
      readyIt := update q.readyIt op (some q.nextId)
      queueOnList := update q.queueOnList op true
      nextId := q.nextId + 1 }) : q'.Ok := by
  subst hq
  have hmem : ∀ e, e ∈ l ↔ e = ⟨q.nextId, op, t⟩ ∨ e ∈ q.listOrder := fun e => by
    rw [hperm.mem_iff, mem_cons]
  refine ⟨hsorted, ?_, ?_, fun e he => ?_, fun e he => ?_, fun op' hne => ?_, fun op' => ?_,
    fun op' hnil => ?_⟩
  · rw [(hperm.map _).nodup_iff]
    refine nodup_cons.mpr ⟨fun hm => ?_, h.classes⟩
    obtain ⟨e, he, heq⟩ := mem_map.mp hm
    exact h.absent e he heq
  · rw [(hperm.map _).nodup_iff]
    refine nodup_cons.mpr ⟨fun hm => ?_, h.ids⟩
    obtain ⟨e, he, heq⟩ := mem_map.mp hm
    have hlt := h.fresh e he
    dsimp only at heq
    omega
  · rcases (hmem e).mp he with rfl | he
    · exact Nat.lt_succ_self _
    · exact Nat.lt_succ_of_lt (h.fresh e he)
  · rcases (hmem e).mp he with rfl | he
    · exact ⟨ht, by simp⟩
    have hop := h.absent e he
    obtain ⟨htop, hit⟩ := h.entry e he
    exact ⟨htop, by simpa [hop] using hit⟩
  · by_cases hop : op' = op
    · exact ⟨_, (hmem _).mpr (.inl rfl), hop.symm⟩
    · obtain ⟨e, he, heq⟩ := h.listed op' hop hne
      exact ⟨e, (hmem e).mpr (.inr he), heq⟩
  · by_cases hop : op' = op
    · subst hop
      simpa using top_ne_nil ht
    · simpa [hop] using h.flagged op' hop
  · by_cases hop : op' = op
    · subst hop
      exact absurd hnil (top_ne_nil ht)
    · simpa [hop] using h.off op' hop hnil

theorem Lacks.addToOrderList (h : q.Lacks op) (hne : q.readyInsts op ≠ []) :
    ∃ q', q.addToOrderList op = some q' ∧ q'.Ok := by
  obtain ⟨t, ht⟩ : ∃ t, q.top op = some t := by
    cases htop : q.top op with
    | none => exact absurd (List.min?_eq_none_iff.mp htop) hne
    | some t => exact ⟨t, rfl⟩
  unfold IssueQueue.addToOrderList
  rw [ht]
  refine ⟨_, rfl, h.insert ht (insertBefore_perm _ _ _) (insertBefore_sorted h.sorted ?_ ?_) rfl⟩
  · intro b hb
    simpa using hb
  · intro b hb
    exact Nat.le_of_lt (of_decide_eq_true hb)

/-- An instruction is pushed on a queue that is not on the list. -/
theorem Ok.lacks_push (h : q.Ok) (hnil : q.readyInsts op = []) (x : Nat) :
    (q.push op x).Lacks op where
  __ := h
  absent e he hop := by
    have htop := (h.entry e he).1
    simp [top, hop, hnil] at htop
  entry e he := by
    have hop : e.queueType ≠ op := by
      rintro rfl
      exact top_ne_nil (h.entry e he).1 hnil
    rw [top_push hop]
    exact h.entry e he
  listed op' hop hne := h.listed op' (by simpa [push, hop] using hne)
  flagged op' hop := by simpa [push, hop] using h.flagged op'
  off op' hop hn := h.off op' (by simpa [push, hop] using hn)

section
variable (h : q.Ok) (he : e ∈ q.listOrder)
include h he

/-- An older instruction is pushed on a queue that is on the list: its entry is erased. -/
theorem Ok.lacks_erase (x : Nat) : ({ q.push e.queueType x with
      listOrder := q.listOrder.filter fun b => b.id ≠ e.id } : IssueQueue).Lacks e.queueType where
  sorted := h.sorted.sublist filter_sublist
  classes := h.classes.sublist (filter_sublist.map _)
  ids := h.ids.sublist (filter_sublist.map _)
  fresh b hb := h.fresh b (mem_of_mem_filter hb)
  absent b hb hop := by
    obtain ⟨hbl, hne⟩ := mem_filter.mp hb
    have hbe := inj_on_of_nodup_map h.classes hbl he hop
    simp [hbe] at hne
  entry b hb := by
    obtain ⟨hbl, hne⟩ := mem_filter.mp hb
    have hop : b.queueType ≠ e.queueType := fun hop => by
      have hbe := inj_on_of_nodup_map h.classes hbl he hop
      simp [hbe] at hne
    have htop := top_push (q := q) (x := x) hop
    exact ⟨htop.trans (h.entry b hbl).1, (h.entry b hbl).2⟩
  listed op' hop hne := by
    obtain ⟨b, hb, hbop⟩ := h.listed op' (by simpa [push, hop] using hne)
    refine ⟨b, mem_filter.mpr ⟨hb, ?_⟩, hbop⟩
    simp only [ne_eq, decide_not, Bool.not_eq_eq_eq_not, Bool.not_true, decide_eq_false_iff_not]
    intro hid
    have hbe := inj_on_of_nodup_map h.ids hb he hid
    exact hop (hbop ▸ congrArg (·.queueType) hbe)
  flagged op' hop := by simpa [push, hop] using h.flagged op'
  off op' hop hn := h.off op' (by simpa [push, hop] using hn)

/-- A younger instruction is pushed: the top stays. -/
theorem Ok.push (hx : (q.push e.queueType x).top e.queueType = some e.oldestInst) :
    (q.push e.queueType x).Ok where
  __ := h
  entry b hb := by
    by_cases hop : b.queueType = e.queueType
    · have hbe := inj_on_of_nodup_map h.classes hb he hop
      subst hbe
      exact ⟨hx, (h.entry b hb).2⟩
    · rw [top_push hop]
      exact h.entry b hb
  listed op hne := by
    by_cases hop : op = e.queueType
    · exact ⟨e, he, hop.symm⟩
    · exact h.listed op (by simpa [IssueQueue.push, hop] using hne)
  flagged op := by
    by_cases hop : op = e.queueType
    · subst hop
      have hon := (h.flagged e.queueType).mpr (top_ne_nil (h.entry e he).1)
      simpa [IssueQueue.push] using hon
    · simpa [IssueQueue.push, hop] using h.flagged op
  off op hn := by
    by_cases hop : op = e.queueType
    · subst hop
      simp [IssueQueue.push] at hn
    · exact h.off op (by simpa [IssueQueue.push, hop] using hn)

theorem Ok.deref : q.deref (q.readyIt e.queueType) = some e := by
  rw [(h.entry e he).2]
  unfold IssueQueue.deref
  cases hf : q.listOrder.find? (fun b => some b.id = some e.id) with
  | none => simpa using find?_eq_none.mp hf e he
  | some b =>
    have hid : b.id = e.id := by simpa using find?_some hf
    rw [inj_on_of_nodup_map h.ids (mem_of_find?_eq_some hf) he hid]

end

theorem min?_cons_le {l : List Nat} (h : l.min? = some t) :
    ∃ t', (x :: l).min? = some t' ∧ t' ≤ t ∧ (¬ t' < t → t' = t) := by
  refine ⟨min x t, ?_, Nat.min_le_right _ _, fun hn => ?_⟩
  · rw [List.min?_cons, h]
    rfl
  · omega

theorem Ok.addReady (h : q.Ok) (op : OpClass) (x : Nat) :
    ∃ q', q.addReady op x = some q' ∧ q'.Ok := by
  unfold IssueQueue.addReady
  dsimp only
  by_cases hnil : q.readyInsts op = []
  · have hoff : (q.push op x).queueOnList op = false :=
      Bool.eq_false_iff.mpr fun hon => (h.flagged op).mp hon hnil
    rw [hoff]
    exact (h.lacks_push hnil x).addToOrderList (by simp [IssueQueue.push])
  · have hon : (q.push op x).queueOnList op = true := (h.flagged op).mpr hnil
    obtain ⟨e, he, rfl⟩ := h.listed op hnil
    obtain ⟨t, ht, hle, heq⟩ := min?_cons_le (x := x) (h.entry e he).1
    have htop : (q.push e.queueType x).top e.queueType = some t := by
      simpa [top, IssueQueue.push] using ht
    have hderef : (q.push e.queueType x).deref ((q.push e.queueType x).readyIt e.queueType) =
        some e := h.deref he
    rw [hon, htop, hderef, if_neg (by simp)]
    dsimp only
    split
    · exact (h.lacks_erase he x).addToOrderList (by simp [IssueQueue.push])
    · next hlt => exact ⟨_, rfl, h.push he (by rw [htop, heq hlt])⟩

/-! ## A turn of the loop -/

theorem split_at {l : List ListOrderEntry} {pos : Nat} (h : l[pos]? = some e) :
    ∃ pre post, l = pre ++ e :: post ∧ pre.length = pos := by
  obtain ⟨hlt, he⟩ := List.getElem?_eq_some_iff.mp h
  refine ⟨l.take pos, l.drop (pos + 1), ?_, length_take_of_le (Nat.le_of_lt hlt)⟩
  rw [← he, ← drop_eq_getElem_cons hlt, take_append_drop]

theorem eraseIdx_mid (pre post : List ListOrderEntry) (e : ListOrderEntry) :
    (pre ++ e :: post).eraseIdx pre.length = pre ++ post := by
  induction pre with
  | nil => rfl
  | cons b pre ih => simpa using ih

theorem top_pop {op' : OpClass} (h : op' ≠ op) :
    (q.pop op x).top op' = q.top op' := by
  simp [top, pop, h]

/-- The top has left its queue and its entry is off the list. -/
theorem Ok.lacks_pop (h : q.Ok) {pre post : List ListOrderEntry}
    (hl : q.listOrder = pre ++ e :: post) (x : Nat) :
    ({ q.pop e.queueType x with listOrder := pre ++ post } : IssueQueue).Lacks e.queueType := by
  have hsub : (pre ++ post).Sublist q.listOrder := by
    rw [hl]
    exact (List.Sublist.refl pre).append (sublist_cons_self e post)
  have hclasses := h.classes
  have hids := h.ids
  have habsent : ∀ b ∈ pre ++ post, b.queueType ≠ e.queueType := by
    intro b hb hop
    rw [hl] at hclasses
    simp only [map_append, map_cons, nodup_append, nodup_cons] at hclasses
    rcases mem_append.mp hb with hb | hb
    · exact hclasses.2.2 b.queueType (mem_map.mpr ⟨b, hb, rfl⟩) e.queueType (by simp) hop
    · exact hclasses.2.1.1 (mem_map.mpr ⟨b, hb, hop⟩)
  refine ⟨h.sorted.sublist hsub, h.classes.sublist (hsub.map _), h.ids.sublist (hsub.map _),
    fun b hb => h.fresh b (hsub.subset hb), habsent, fun b hb => ?_, fun op hop hne => ?_,
    fun op hop => ?_, fun op hop hnil => ?_⟩
  · have htop := top_pop (q := q) (x := x) (habsent b hb)
    exact ⟨htop.trans (h.entry b (hsub.subset hb)).1, (h.entry b (hsub.subset hb)).2⟩
  · obtain ⟨b, hb, hbop⟩ := h.listed op (by simpa [pop, hop] using hne)
    refine ⟨b, ?_, hbop⟩
    rw [hl] at hb
    rcases mem_append.mp hb with hb | hb
    · exact mem_append_left _ hb
    rcases mem_cons.mp hb with rfl | hb
    · exact absurd hbop.symm hop
    · exact mem_append_right _ hb
  · simpa [pop, hop] using h.flagged op
  · exact h.off op (by simpa [pop, hop] using hnil)

theorem Lacks.close (h : q.Lacks op) (hnil : q.readyInsts op = []) :
    ({ q with readyIt := update q.readyIt op none
              queueOnList := update q.queueOnList op false } : IssueQueue).Ok where
  __ := h
  entry e he := by
    have hop := h.absent e he
    obtain ⟨htop, hit⟩ := h.entry e he
    exact ⟨htop, by simpa [hop] using hit⟩
  listed op' hne := by
    by_cases hop : op' = op
    · subst hop
      exact absurd hnil hne
    · exact h.listed op' hop hne
  flagged op' := by
    by_cases hop : op' = op
    · subst hop
      simpa using hnil
    · simpa [hop] using h.flagged op' hop
  off op' hn := by
    by_cases hop : op' = op
    · subst hop
      simp
    · simpa [hop] using h.off op' hop hn

theorem le_of_min?_erase {l : List Nat} (hx : l.min? = some x) (ht : (l.erase x).min? = some t) :
    x ≤ t :=
  (min?_eq_some_iff.mp hx).2 t (mem_of_mem_erase (min?_eq_some_iff.mp ht).1)

/-- The instruction at the top of the queue at `pos` leaves: the list is in order again, and what
stands before `pos` has not changed. -/
theorem Ok.leave (h : q.Ok) {pos : Nat} (hpos : q.listOrder[pos]? = some e) :
    ∃ q', q.leave pos e.queueType e.oldestInst = some q' ∧ q'.Ok ∧
      q'.listOrder.take pos = q.listOrder.take pos ∧ pos ≤ q'.listOrder.length := by
  obtain ⟨pre, post, hl, hlen⟩ := split_at hpos
  have he : e ∈ q.listOrder := by rw [hl]; simp
  have hlacks := h.lacks_pop hl e.oldestInst
  subst hlen
  unfold IssueQueue.leave
  dsimp only
  split
  · next hempty =>
    have hnil : (q.pop e.queueType e.oldestInst).readyInsts e.queueType = [] :=
      isEmpty_iff.mp hempty
    have herase : (q.pop e.queueType e.oldestInst).listOrder.eraseIdx pre.length = pre ++ post :=
      (congrArg (List.eraseIdx · pre.length) hl).trans (eraseIdx_mid pre post e)
    simp only [Option.map_some, herase]
    exact ⟨_, rfl, hlacks.close hnil, by simp [hl], by simp⟩
  · next hne =>
    obtain ⟨t, ht⟩ : ∃ t, (q.pop e.queueType e.oldestInst).top e.queueType = some t := by
      cases htop : (q.pop e.queueType e.oldestInst).top e.queueType with
      | none => exact absurd (by simpa using List.min?_eq_none_iff.mp htop) hne
      | some t => exact ⟨t, rfl⟩
    have hle : e.oldestInst ≤ t := by
      refine le_of_min?_erase (h.entry e he).1 ?_
      simpa [top, pop] using ht
    have hdrop : (q.pop e.queueType e.oldestInst).listOrder.drop (pre.length + 1) = post := by
      simp [pop, hl]
    have htake : (q.pop e.queueType e.oldestInst).listOrder.take (pre.length + 1) =
        pre ++ [e] := by
      simp [pop, hl, take_append, take_of_length_le]
    unfold moveToYoungerInst
    rw [ht]
    simp only [hdrop, htake, Option.map_some, append_assoc, singleton_append,
      eraseIdx_mid]
    refine ⟨_, rfl, hlacks.insert ht
      (((insertBefore_perm (fun b => !decide (b.oldestInst < t)) _ post).append_left pre).trans
        perm_middle) ?_ ?_,
      by simp [hl], by simp⟩
    · have hsorted := h.sorted
      rw [hl, SortedByOldest, pairwise_append, pairwise_cons] at hsorted
      obtain ⟨hpre, ⟨-, hpost⟩, hbetween⟩ := hsorted
      refine pairwise_append.mpr ⟨hpre, insertBefore_sorted hpost ?_ ?_, fun a ha b hb => ?_⟩
      · intro b hb
        exact Nat.le_of_lt (by simpa using hb)
      · intro b hb
        simpa using hb
      rcases mem_cons.mp ((insertBefore_perm _ _ post).mem_iff.mp hb) with rfl | hb
      · exact (hbetween a ha e (by simp)).trans hle
      · exact hbetween a ha b (mem_cons_of_mem _ hb)
    · -- the queue is still on the list
      have hon : q.queueOnList e.queueType = true :=
        (h.flagged e.queueType).mpr (top_ne_nil (h.entry e he).1)
      have hself : update q.queueOnList e.queueType true = q.queueOnList := by
        rw [← hon]
        exact Function.update_eq_self _ _
      simp [pop, hself]

theorem leave_readyInsts {q' : IssueQueue} {pos : Nat} (h : q.leave pos op x = some q') :
    q'.readyInsts = update q.readyInsts op ((q.readyInsts op).erase x) := by
  obtain ⟨q₁, hq₁, rfl⟩ := Option.map_eq_some_iff.mp h
  split at hq₁
  · cases hq₁
    rfl
  · unfold moveToYoungerInst at hq₁
    split at hq₁
    · cases hq₁
    · cases hq₁
      rfl

end IssueQueue

namespace Scheduler

/-! ## Every run -/

/-- The queue is in order; in a pass, the classes before `order_it` were refused a unit. -/
structure Ok (s : Scheduler) : Prop where
  queue : s.q.Ok
  skipped : ∀ p, s.pass = some p → p.orderIt ≤ s.q.listOrder.length ∧
    ∀ e ∈ s.q.listOrder.take p.orderIt, e.queueType ∈ p.refused

theorem addMem_ok {opClass : Nat → OpClass} (mem : List Nat) {q q' : IssueQueue} (h : q.Ok)
    (hq : mem.foldlM (fun (q : IssueQueue) x => q.addReadyMemInst (opClass x) x) q = some q') :
    q'.Ok := by
  induction mem generalizing q with
  | nil =>
    cases hq
    exact h
  | cons x mem ih =>
    obtain ⟨q₁, hq₁, hok⟩ := h.addReady (opClass x) x
    rw [foldlM_cons, IssueQueue.addReadyMemInst, hq₁] at hq
    exact ih hok hq

/-- An instruction of a class that was not refused a unit is not older than the one the loop is
at. -/
theorem Ok.oldest {s : Scheduler} (h : s.Ok) {p : Pass} (hp : s.pass = some p) {e : ListOrderEntry}
    (he : s.q.listOrder[p.orderIt]? = some e) {op : OpClass} {x : Nat}
    (hx : x ∈ s.q.readyInsts op) (hlt : x < e.oldestInst) : op ∈ p.refused := by
  obtain ⟨b, hb, rfl⟩ := h.queue.listed op (ne_nil_of_mem hx)
  have hbx : b.oldestInst ≤ x :=
    (min?_eq_some_iff.mp (h.queue.entry b hb).1).2 x hx
  obtain ⟨pre, post, hl, hlen⟩ := IssueQueue.split_at he
  have hsorted := h.queue.sorted
  rw [hl] at hb
  rw [hl, SortedByOldest, pairwise_append, pairwise_cons] at hsorted
  rcases mem_append.mp hb with hb | hb
  · refine (h.skipped p hp).2 b ?_
    rw [hl, ← hlen]
    simpa using hb
  · -- at or behind `order_it` nothing is older
    rcases mem_cons.mp hb with rfl | hb
    · omega
    · have := hsorted.2.1.1 b hb
      omega

/-- The instruction leaves the ready queue of its class, and the others stay. -/
def Leaves (s s' : Scheduler) (op : OpClass) (x : Nat) : Prop :=
  s'.q.readyInsts = update s.q.readyInsts op ((s.q.readyInsts op).erase x)

/-- What a turn at the entry `e` comes to. A squashed instruction is dropped. Another one is issued
if there is a unit, and then every older one that is ready is of a class that was refused a unit in
this pass; else its class is refused. -/
def TurnAt (s : Scheduler) (p : Pass) (answer : FUAnswer) (e : ListOrderEntry) (s' : Scheduler) :
    Prop :=
  if s.isSquashed e.oldestInst then
    s.Leaves s' e.queueType e.oldestInst ∧ s'.issued = s.issued ∧ s'.pass = some p
  else if getsUnit e.queueType answer then
    s.Leaves s' e.queueType e.oldestInst ∧ s'.issued = s.issued ++ [e.oldestInst] ∧
      s'.pass = some { p with totalIssued := p.totalIssued + 1 } ∧
      ∀ op, ∀ x ∈ s.q.readyInsts op, x < e.oldestInst → op ∈ p.refused
  else
    s'.q = s.q ∧ s'.issued = s.issued ∧ s'.pass = some { p with
      orderIt := p.orderIt + 1, refused := e.queueType :: p.refused }

/-- With the queue in order the assertions hold, so that a turn can be made; it issues the oldest
instruction at the iterator and keeps the order. -/
theorem turn_issues {s : Scheduler} (h : s.Ok) {p : Pass} (hp : s.pass = some p)
    (hlt : p.orderIt < s.q.listOrder.length) (answer : FUAnswer) :
    ∃ s' e, s.passStep p answer = some s' ∧ s.q.listOrder[p.orderIt]? = some e ∧
      s.q.top e.queueType = some e.oldestInst ∧ s.TurnAt p answer e s' ∧ s'.Ok := by
  obtain ⟨e, he⟩ : ∃ e, s.q.listOrder[p.orderIt]? = some e :=
    ⟨_, getElem?_eq_getElem hlt⟩
  have htop := (h.queue.entry e (mem_of_getElem? he)).1
  obtain ⟨q, hq, hok, htake, hle⟩ := h.queue.leave he
  have hready := IssueQueue.leave_readyInsts hq
  obtain ⟨-, hrefused⟩ := h.skipped p hp
  -- after the instruction left, the entries before `order_it` are the same
  have hok' (n : Nat) (is : List Nat) :
      Ok { s with q := q, pass := some { p with totalIssued := n }, issued := is } := by
    refine ⟨hok, fun p' hp' => ?_⟩
    cases hp'
    exact ⟨hle, fun b hb => hrefused b (htake ▸ hb)⟩
  unfold passStep TurnAt
  rw [he]
  dsimp only
  rw [htop]
  dsimp only
  rw [if_neg (by simp), hq]
  split
  · next hsq =>
    refine ⟨{ s with q := q }, e, rfl, rfl, htop, ?_, ?_⟩
    · rw [if_pos hsq]
      exact ⟨hready, rfl, hp⟩
    · have := hok' p.totalIssued s.issued
      rw [← hp] at this
      exact this
  next hsq =>
  split
  · next hunit =>
    refine ⟨_, e, rfl, rfl, htop, ?_, hok' (p.totalIssued + 1) _⟩
    rw [if_neg hsq, if_pos hunit]
    exact ⟨hready, rfl, rfl, fun op x hx hxe => h.oldest hp he hx hxe⟩
  · next hunit =>
    refine ⟨_, e, rfl, rfl, htop, ?_, h.queue, fun p' hp' => ?_⟩
    · rw [if_neg hsq, if_neg hunit]
      exact ⟨rfl, rfl, rfl⟩
    cases hp'
    refine ⟨hlt, fun b hb => ?_⟩
    rw [take_add_one, he] at hb
    rcases mem_append.mp hb with hb | hb
    · exact mem_cons_of_mem _ (hrefused b hb)
    · cases mem_singleton.mp hb
      exact mem_cons_self

theorem Ok.step {opClass : Nat → OpClass} {totalWidth : Nat} {s s' : Scheduler} (h : s.Ok)
    {e : SchedulerEvent} (hs : s.step opClass totalWidth e = some s') : s'.Ok := by
  -- outside a pass only the queue matters
  have hidle : ∀ q : IssueQueue, q.Ok → s.pass = none → Ok { s with q := q } := fun q hq hn =>
    ⟨hq, fun p hp => by rw [hn] at hp; cases hp⟩
  cases e with
  | addIfReady ready isMemRef x =>
    simp only [Scheduler.step] at hs
    split at hs
    · next hn =>
      obtain ⟨q, hq, rfl⟩ := Option.map_eq_some_iff.mp hs
      refine hidle q ?_ hn
      unfold IssueQueue.addIfReady at hq
      split at hq
      · split at hq
        · cases hq
          exact h.queue
        obtain ⟨q', hq', hok⟩ := h.queue.addReady (opClass x) x
        cases hq'.symm.trans hq
        exact hok
      · cases hq
        exact h.queue
    · cases hs
  | addReadyMemInst x =>
    simp only [Scheduler.step] at hs
    split at hs
    · next hn =>
      obtain ⟨q, hq, rfl⟩ := Option.map_eq_some_iff.mp hs
      obtain ⟨q', hq', hok⟩ := h.queue.addReady (opClass x) x
      cases hq'.symm.trans hq
      exact hidle q hok hn
    · cases hs
  | startPass mem =>
    simp only [Scheduler.step] at hs
    split at hs
    · obtain ⟨q, hq, rfl⟩ := Option.map_eq_some_iff.mp hs
      refine ⟨addMem_ok mem h.queue hq, fun p hp => ?_⟩
      cases hp
      exact ⟨Nat.zero_le _, fun b hb => by simp at hb⟩
    · cases hs
  | passStep answer =>
    simp only [Scheduler.step] at hs
    split at hs
    · next p hp =>
      split at hs
      · next hgo =>
        have hlt : p.orderIt < s.q.listOrder.length :=
          of_decide_eq_true (Bool.and_eq_true _ _ ▸ hgo).2
        obtain ⟨s₁, -, hs₁, -, -, -, hok⟩ := turn_issues h hp hlt answer
        cases hs₁.symm.trans hs
        exact hok
      · cases hs
    · cases hs
  | endPass =>
    simp only [Scheduler.step] at hs
    split at hs
    · split at hs
      · cases hs
      · cases hs
        exact ⟨h.queue, fun p hp => by cases hp⟩
    · cases hs
  | setSquashed x =>
    cases hs
    exact ⟨h.queue, h.skipped⟩

variable {opClass : Nat → OpClass} {totalWidth : Nat} {s : Scheduler}

theorem ok_of_reach (h : (schedulerMachine opClass totalWidth).Reach s) : s.Ok := by
  refine h.invariant (I := Ok) (fun s₀ h₀ => ?_) fun _ _ _ hi _ hs => hi.step hs
  obtain ⟨hready, hflag, hit, hlist, hpass⟩ := h₀
  refine ⟨⟨?_, ?_, ?_, ?_, ?_, ?_, ?_, ?_⟩, fun p hp => ?_⟩
  · simp [SortedByOldest, hlist]
  · simp [hlist]
  · simp [hlist]
  · simp [hlist]
  · simp [hlist]
  · exact fun op hne => absurd (hready op) hne
  · exact fun op => by simp [hflag, hready]
  · exact fun op _ => hit op
  · rw [hpass] at hp
    cases hp

/-- Only a turn of the loop issues. -/
theorem issued_of_step {e : SchedulerEvent} {s' : Scheduler}
    (hs : s.step opClass totalWidth e = some s') (he : ∀ answer, e ≠ .passStep answer) :
    s'.issued = s.issued := by
  cases e with
  | passStep answer => exact absurd rfl (he answer)
  | setSquashed x =>
    cases hs
    rfl
  | endPass =>
    simp only [Scheduler.step] at hs
    repeat' split at hs
    all_goals cases hs
    rfl
  | addIfReady ready isMemRef x | addReadyMemInst x | startPass mem =>
    simp only [Scheduler.step] at hs
    split at hs
    · obtain ⟨q, -, rfl⟩ := Option.map_eq_some_iff.mp hs
      rfl
    · cases hs

end Scheduler

/-- In every state of every run, also in the middle of a pass: `listOrder` has exactly one entry
for each op class whose ready queue is not empty, designated by `readyIt` and flagged in
`queueOnList`; its `oldestInst` is the top of the queue, and the entries are in order. Only a turn
of a pass issues. In a pass the assertions of the loop hold, a turn issues the oldest instruction
of the class at the iterator if it may, and when an instruction is issued every older one that is
ready belongs to a class that was refused a unit in this pass. -/
theorem issue_oldest_first {opClass : Nat → OpClass} {totalWidth : Nat} {s : Scheduler}
    (h : (schedulerMachine opClass totalWidth).Reach s) :
    (s.q.listOrder.map (·.queueType)).Nodup ∧
    (∀ op, (∃ e ∈ s.q.listOrder, e.queueType = op) ↔ s.q.readyInsts op ≠ []) ∧
    (∀ op, s.q.queueOnList op = true ↔ s.q.readyInsts op ≠ []) ∧
    (∀ e ∈ s.q.listOrder, s.q.deref (s.q.readyIt e.queueType) = some e ∧
      s.q.top e.queueType = some e.oldestInst) ∧
    SortedByOldest s.q.listOrder ∧
    (∀ e s', s.step opClass totalWidth e = some s' → (∀ answer, e ≠ .passStep answer) →
      s'.issued = s.issued) ∧
    ∀ p, s.pass = some p → s.goesOn totalWidth p = true → ∀ answer,
      ∃ s' e, s.step opClass totalWidth (.passStep answer) = some s' ∧
        s.q.listOrder[p.orderIt]? = some e ∧ s.q.top e.queueType = some e.oldestInst ∧
        s.TurnAt p answer e s' := by
  have hok := Scheduler.ok_of_reach h
  refine ⟨hok.queue.classes, fun op => ⟨?_, hok.queue.listed op⟩, hok.queue.flagged,
    fun e he => ⟨hok.queue.deref he, (hok.queue.entry e he).1⟩, hok.queue.sorted,
    fun e s' hs he => Scheduler.issued_of_step hs he, fun p hp hgo answer => ?_⟩
  · rintro ⟨e, he, rfl⟩
    exact IssueQueue.top_ne_nil (hok.queue.entry e he).1
  have hlt : p.orderIt < s.q.listOrder.length :=
    of_decide_eq_true (Bool.and_eq_true _ _ ▸ hgo).2
  obtain ⟨s', e, hs', he, htop, hturn, -⟩ := Scheduler.turn_issues hok hp hlt answer
  refine ⟨s', e, ?_, he, htop, hturn⟩
  simp only [Scheduler.step, hp, hgo, if_true]
  exact hs'

/-! ## Two classes -/

/-- Instruction 3 is a floating-point addition, the others are integer operations. -/
def twoClasses (x : Nat) : OpClass := if x = 3 then .floatAdd else .intAlu

def idleScheduler : Scheduler where
  q := ⟨fun _ => [], fun _ => false, fun _ => none, [], 0⟩
  isSquashed := fun _ => false

/-- 5, 3 and 4 become ready; in the pass there is no unit for 3. -/
def twoClassesEvents : List SchedulerEvent :=
  [.addIfReady true false 5, .addIfReady true false 3, .addIfReady true false 4, .startPass [],
    .passStep .noFreeFU]

def twoClassesState : Scheduler :=
  ((schedulerMachine twoClasses 8).run idleScheduler twoClassesEvents).getD idleScheduler

theorem twoClassesState_reach : (schedulerMachine twoClasses 8).Reach twoClassesState :=
  Machine.reach_run (s := idleScheduler) ⟨fun _ => rfl, fun _ => rfl, fun _ => rfl, rfl, rfl⟩
    (Machine.run_getD (by decide +kernel))

/-- 4 is issued next, and 3, which is older, was refused. -/
theorem issue_oldest_first_twoClasses :
    ((twoClassesState.q.listOrder.map (·.oldestInst)) = [3, 4] ∧
      (twoClassesState.step twoClasses 8 (.passStep (.unit 0))).map (·.issued) = some [4]) ∧
      ∃ s' e, twoClassesState.step twoClasses 8 (.passStep (.unit 0)) = some s' ∧
        twoClassesState.q.listOrder[1]? = some e ∧
        twoClassesState.q.top e.queueType = some e.oldestInst ∧
        twoClassesState.TurnAt ⟨1, 0, [.floatAdd]⟩ (.unit 0) e s' :=
  ⟨by decide +kernel, (issue_oldest_first twoClassesState_reach).2.2.2.2.2.2 ⟨1, 0, [.floatAdd]⟩
    (by decide +kernel) (by decide +kernel) (.unit 0)⟩

end SdoCore
