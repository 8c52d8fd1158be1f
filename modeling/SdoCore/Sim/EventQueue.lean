import Mathlib.Data.List.Sort
import Mathlib.Data.Prod.Lex
import SdoCore.Lib.Chain
import SdoCore.Lib.Machine

/-! The event queue of the simulator, `sim/eventq.cc`: events are cells with two pointers.
`nextBin` links the tops of the bins, one bin for each pair of time and priority, and
`nextInBin` the events of one bin, the last one inserted on top. The `nextBin` pointer of an
event that is not on top of its bin is stale and is repaired when it comes to the top.

Results:
* `Queue.insert`, `Queue.remove`, `Holds.serviceOne`: the pointer operations on the bins.
* `step_agenda`: read from the top of the first bin to the bottom of the last one, the queue is
  a sorted list, and the operations are insertion in front of what is not earlier, erasure and
  taking the head.
* `event_queue_serves_in_order`: the queue over whole runs. -/

namespace SdoCore.Sim

open Lib
open List
open Option (bind_some map_some)
open Prod (fst)
open Function (update)

structure Event where
  nextBin : Option Nat := none
  nextInBin : Option Nat := none
  when : Nat := 0
  priority : Int := 0
  scheduled : Bool := false
  squashed : Bool := false
  deriving DecidableEq

namespace Event

def lt (l r : Event) : Bool :=
  l.when < r.when || (l.when == r.when && l.priority < r.priority)

def le (l r : Event) : Bool :=
  l.when < r.when || (l.when == r.when && l.priority ≤ r.priority)

def eq (l r : Event) : Bool :=
  l.when == r.when && l.priority == r.priority

/-- What the bins are sorted by. -/
def key (e : Event) : Nat ×ₗ Int := toLex (e.when, e.priority)

theorem lt_iff {l r : Event} : l.lt r ↔ l.key < r.key := by
  simp [lt, key, Prod.Lex.toLex_lt_toLex]

theorem le_iff {l r : Event} : l.le r ↔ l.key ≤ r.key := by
  simp [le, key, Prod.Lex.toLex_le_toLex]

theorem eq_iff {l r : Event} : l.eq r ↔ l.key = r.key := by
  simp [eq, key, Prod.ext_iff]

end Event

/-- The cells of all events. -/
abbrev Events := Nat → Event

/-- The queue. `inserts` counts the insertions and `stamp` is the number of the one that put an
event in its place: history, but for bounding the walks along the pointers. -/
structure EventQueue where
  head : Option Nat := none
  curTick : Nat := 0
  events : Events
  inserts : Nat := 0
  stamp : Nat → Nat := fun _ => 0

inductive EventOp
  | schedule (event when : Nat)
  | deschedule (event : Nat)
  | reschedule (event when : Nat) (always : Bool)
  | serviceOne
  | squash (event : Nat)
  deriving DecidableEq

namespace Events

def modify (m : Events) (x : Nat) (f : Event → Event) : Events :=
  update m x (f (m x))

def setNextBin (m : Events) (x : Nat) (p : Option Nat) : Events :=
  m.modify x fun e => { e with nextBin := p }

def setNextInBin (m : Events) (x : Nat) (p : Option Nat) : Events :=
  m.modify x fun e => { e with nextInBin := p }

/-- `Event::insertBefore`: the event becomes the top of a bin in front of `curr`, or of the bin
of `curr`. -/
def insertBefore (m : Events) (event : Nat) : Option Nat → Events
  | none => (m.setNextBin event none).setNextInBin event none
  | some curr =>
    if (m event).lt (m curr) then (m.setNextBin event (some curr)).setNextInBin event none
    else (m.setNextBin event (m curr).nextBin).setNextInBin event (some curr)

/-- `Event::removeItem`: the cells and the new top; `none` is the panic "event not found!". -/
def removeItem (m : Events) (bound event top : Nat) : Option (Events × Option Nat) :=
  if event = top then
    match (m top).nextInBin with
    | none => some (m, (m top).nextBin)
    | some next => some (m.setNextBin next (m top).nextBin, some next)
  else
    (seek (fun x => (m x).nextInBin) (· != event) bound top (m top).nextInBin).bind fun
      | (_, none) => none
      | (curr, some next) => some (m.setNextInBin curr (m next).nextInBin, some top)

/-- The loop of `insert` and `remove` over the bins. -/
def findBin (m : Events) (bound event head : Nat) : Option (Nat × Option Nat) :=
  seek (fun x => (m x).nextBin) (fun x => (m x).lt (m event)) bound head (m head).nextBin

end Events

namespace EventQueue

def insert (s : EventQueue) (event : Nat) : Option EventQueue :=
  let s := { s with inserts := s.inserts + 1, stamp := update s.stamp event s.inserts }
  match s.head with
  | none => some { s with events := s.events.insertBefore event none, head := some event }
  | some head =>
    if (s.events event).le (s.events head) then
      some { s with events := s.events.insertBefore event (some head), head := some event }
    else
      (s.events.findBin s.inserts event head).map fun (prev, curr) =>
        { s with events := (s.events.insertBefore event curr).setNextBin prev (some event) }

/-- `none`: "event not found!". -/
def remove (s : EventQueue) (event : Nat) : Option EventQueue :=
  s.head.bind fun head =>
    if (s.events head).eq (s.events event) then
      (s.events.removeItem s.inserts event head).map fun (m, top) =>
        { s with events := m, head := top }
    else
      (s.events.findBin s.inserts event head).bind fun
        | (_, none) => none
        | (prev, some curr) =>
          if (s.events curr).eq (s.events event) then
            (s.events.removeItem s.inserts event curr).map fun (m, top) =>
              { s with events := m.setNextBin prev top }
          else none

def setWhen (s : EventQueue) (event when : Nat) : EventQueue :=
  { s with events := s.events.modify event fun e => { e with when := when } }

def setFlags (s : EventQueue) (event : Nat) (scheduled squashed : Bool) : EventQueue :=
  { s with events := s.events.modify event fun e => { e with scheduled, squashed } }

def schedule (s : EventQueue) (event when : Nat) : Option EventQueue :=
  ((s.setWhen event when).insert event).map fun s =>
    s.setFlags event true (s.events event).squashed

def deschedule (s : EventQueue) (event : Nat) : Option EventQueue :=
  (s.remove event).map fun s => s.setFlags event false false

def reschedule (s : EventQueue) (event when : Nat) : Option EventQueue :=
  (if (s.events event).scheduled then s.remove event else some s).bind fun s =>
    ((s.setWhen event when).insert event).map fun s => s.setFlags event true false

/-- The event leaves the queue before it is processed, so what its `process` does to the queue
comes after this step. -/
def serviceOne (s : EventQueue) : Option (Nat × EventQueue) :=
  s.head.map fun event =>
    let e := s.events event
    let s := s.setFlags event false false
    let s := match e.nextInBin with
      | some next => { s with events := s.events.setNextBin next e.nextBin, head := some next }
      | none => { s with head := e.nextBin }
    (event, if e.squashed then s else { s with curTick := e.when })

/-- The assertions of the four operations; `serviceOne` reads the head. -/
def allows (s : EventQueue) : EventOp → Bool
  | .schedule event when => s.curTick ≤ when && !(s.events event).scheduled
  | .deschedule event => (s.events event).scheduled
  | .reschedule event when always => s.curTick ≤ when && (always || (s.events event).scheduled)
  | .serviceOne => s.head.isSome
  | .squash _ => true

def handle (s : EventQueue) : EventOp → Option EventQueue
  | .schedule event when => s.schedule event when
  | .deschedule event => s.deschedule event
  | .reschedule event when _ => s.reschedule event when
  | .serviceOne => s.serviceOne.map (·.2)
  | .squash event => some (s.setFlags event (s.events event).scheduled true)

def step (s : EventQueue) (op : EventOp) : Option EventQueue :=
  if s.allows op then s.handle op else none

/-- The events in the order in which `dump` prints them, bin by bin: the top and the rest. -/
def bins (s : EventQueue) : Option (List (Nat × List Nat)) :=
  (walk (fun x => (s.events x).nextBin) s.inserts s.head).bind fun tops =>
    tops.mapM fun top =>
      (walk (fun x => (s.events x).nextInBin) s.inserts (s.events top).nextInBin).map (top, ·)

end EventQueue

/-- Nothing is scheduled yet; the cells may hold anything. -/
def eventQueueMachine : Machine EventQueue EventOp where
  start s := s.head = none ∧ ∀ e, (s.events e).scheduled = false
  step := EventQueue.step

/-! ## The cells after an operation -/

namespace Events

variable {m m' : Events} {x y : Nat} {p : Option Nat}

/-- A field that the change leaves alone. -/
theorem modify_field {β : Type} (g : Event → β) {f : Event → Event} (hf : ∀ e, g (f e) = g e) :
    g (m.modify x f y) = g (m y) := by
  by_cases h : y = x
  · subst h
    simp [modify, hf]
  · simp [modify, h]

@[simp] theorem setNextBin_key : (m.setNextBin x p y).key = (m y).key :=
  modify_field Event.key fun _ => rfl

@[simp] theorem setNextInBin_key : (m.setNextInBin x p y).key = (m y).key :=
  modify_field Event.key fun _ => rfl

@[simp] theorem setNextBin_nextInBin : (m.setNextBin x p y).nextInBin = (m y).nextInBin :=
  modify_field Event.nextInBin fun _ => rfl

@[simp] theorem setNextInBin_nextBin : (m.setNextInBin x p y).nextBin = (m y).nextBin :=
  modify_field Event.nextBin fun _ => rfl

@[simp] theorem setNextBin_scheduled : (m.setNextBin x p y).scheduled = (m y).scheduled :=
  modify_field Event.scheduled fun _ => rfl

@[simp] theorem setNextInBin_scheduled : (m.setNextInBin x p y).scheduled = (m y).scheduled :=
  modify_field Event.scheduled fun _ => rfl

@[simp] theorem setNextBin_self : (m.setNextBin x p x).nextBin = p := by
  simp [setNextBin, modify]

@[simp] theorem setNextInBin_self : (m.setNextInBin x p x).nextInBin = p := by
  simp [setNextInBin, modify]

theorem setNextBin_of_ne (h : y ≠ x) : m.setNextBin x p y = m y := by
  simp [setNextBin, modify, h]

theorem setNextInBin_of_ne (h : y ≠ x) : m.setNextInBin x p y = m y := by
  simp [setNextInBin, modify, h]

/-- Only pointers change, and only those of the cells in `on`. -/
structure Relinks (m m' : Events) (on : List Nat) : Prop where
  key : ∀ x, (m' x).key = (m x).key
  scheduled : ∀ x, (m' x).scheduled = (m x).scheduled
  others : ∀ x, x ∉ on → m' x = m x

end Events

/-! ## Bins -/

/-- The top of a bin and what lies under it. -/
abbrev Bin := Nat × List Nat

def flat (bins : List Bin) : List Nat := bins.flatMap fun b => b.1 :: b.2

@[simp] theorem flat_nil : flat [] = [] := rfl

@[simp] theorem flat_cons (b : Bin) (bins : List Bin) :
    flat (b :: bins) = b.1 :: b.2 ++ flat bins :=
  rfl

@[simp] theorem flat_append (xs ys : List Bin) : flat (xs ++ ys) = flat xs ++ flat ys :=
  flatMap_append ..

theorem mem_flat {x : Nat} {bins : List Bin} : x ∈ flat bins ↔ ∃ b ∈ bins, x = b.1 ∨ x ∈ b.2 := by
  simp [flat]

theorem top_mem_flat {b : Bin} {bins : List Bin} (h : b ∈ bins) : b.1 ∈ flat bins :=
  mem_flat.mpr ⟨b, h, .inl rfl⟩

/-- The pointers from `h` on lead through the bins to `q`. -/
structure Links (m : Events) (h : Option Nat) (bins : List Bin) (q : Option Nat) : Prop where
  tops : Segment (fun x => (m x).nextBin) h (bins.map fst) q
  stack : ∀ b ∈ bins, Segment (fun x => (m x).nextInBin) (m b.1).nextInBin b.2 none

/-- One bin for each key, in increasing order. -/
structure Ordered (m : Events) (bins : List Bin) : Prop where
  nodup : (flat bins).Nodup
  keys : ∀ b ∈ bins, ∀ x ∈ b.2, (m x).key = (m b.1).key
  sorted : bins.Pairwise fun a b => (m a.1).key < (m b.1).key

section Links

variable {m m' : Events} {h q r : Option Nat} {pre post bins : List Bin} {b : Bin} {e : Nat}

theorem links_append :
    Links m h (pre ++ post) r ↔ ∃ q, Links m h pre q ∧ Links m q post r := by
  constructor
  · rintro ⟨ht, hs⟩
    rw [map_append] at ht
    obtain ⟨q, h1, h2⟩ := segment_append.mp ht
    exact ⟨q, ⟨h1, fun b hb => hs b (mem_append_left _ hb)⟩,
      ⟨h2, fun b hb => hs b (mem_append_right _ hb)⟩⟩
  · rintro ⟨q, h1, h2⟩
    refine ⟨?_, fun b hb => ?_⟩
    · rw [map_append]
      exact segment_append.mpr ⟨q, h1.tops, h2.tops⟩
    rcases mem_append.mp hb with hb | hb
    · exact h1.stack b hb
    · exact h2.stack b hb

theorem Links.congr_pointers (hl : Links m h bins q)
    (he : ∀ x ∈ flat bins, (m' x).nextBin = (m x).nextBin ∧ (m' x).nextInBin = (m x).nextInBin) :
    Links m' h bins q := by
  refine ⟨hl.tops.congr fun x hx => ?_, fun b hb => ?_⟩
  · obtain ⟨b, hb, rfl⟩ := mem_map.mp hx
    exact (he _ (top_mem_flat hb)).1
  · rw [(he _ (top_mem_flat hb)).2]
    exact (hl.stack b hb).congr fun x hx => (he x (mem_flat.mpr ⟨b, hb, .inr hx⟩)).2

theorem Links.congr (hl : Links m h bins q) (he : ∀ x ∈ flat bins, m' x = m x) :
    Links m' h bins q :=
  hl.congr_pointers fun x hx => by rw [he x hx]; exact ⟨rfl, rfl⟩

theorem Ordered.congr (ho : Ordered m bins) (hk : ∀ x ∈ flat bins, (m' x).key = (m x).key) :
    Ordered m' bins := by
  refine ⟨ho.nodup, fun b hb x hx => ?_, ?_⟩
  · rw [hk x (mem_flat.mpr ⟨b, hb, .inr hx⟩), hk _ (top_mem_flat hb)]
    exact ho.keys b hb x hx
  refine ho.sorted.imp_of_mem fun {a b} ha hb hab => ?_
  rw [hk _ (top_mem_flat ha), hk _ (top_mem_flat hb)]
  exact hab

theorem Ordered.key_top (ho : Ordered m bins) (hb : b ∈ bins) {x : Nat} (hx : x = b.1 ∨ x ∈ b.2) :
    (m x).key = (m b.1).key := by
  rcases hx with rfl | hx
  · rfl
  · exact ho.keys b hb x hx

/-- Some bins are replaced by others that have their place in the order. -/
theorem Ordered.replace {k : Nat ×ₗ Int} (old new : List Bin)
    (ho : Ordered m (pre ++ (old ++ post)))
    (hn : (flat (pre ++ (new ++ post))).Nodup)
    (hnew : new.Pairwise fun a b => (m a.1).key < (m b.1).key)
    (hk : ∀ b ∈ new, (m b.1).key = k ∧ ∀ x ∈ b.2, (m x).key = k)
    (hpre : ∀ a ∈ pre, (m a.1).key < k) (hpost : ∀ b ∈ post, k < (m b.1).key) :
    Ordered m (pre ++ (new ++ post)) := by
  obtain ⟨h1, h2, h3⟩ := pairwise_append.mp ho.sorted
  refine ⟨hn, fun b hb => ?_, pairwise_append.mpr ⟨h1, pairwise_append.mpr
    ⟨hnew, (pairwise_append.mp h2).2.1, fun a ha b hb => ?_⟩, fun a ha b hb => ?_⟩⟩
  · rcases mem_append.mp hb with hb | hb
    · exact ho.keys b (mem_append_left _ hb)
    rcases mem_append.mp hb with hb | hb
    · rw [(hk b hb).1]
      exact (hk b hb).2
    · exact ho.keys b (by simp [hb])
  · rw [(hk a ha).1]
    exact hpost b hb
  · rcases mem_append.mp hb with hb | hb
    · rw [(hk b hb).1]
      exact hpre a ha
    · exact h3 a ha b (mem_append_right _ hb)

/-- The loop over the bins stops behind those that are earlier, and the last of them can be linked
to other bins. -/
theorem Links.behind {n : Nat} (hl : Links m (some b.1) (b :: pre ++ post) none)
    (ho : Ordered m (b :: pre ++ post)) (hpre : ∀ c ∈ pre, (m c.1).key < (m e).key)
    (hpost : ∀ c, post.head? = some c → (m e).key ≤ (m c.1).key)
    (hn : (b :: pre ++ post).length ≤ n) :
    ∃ last ∈ b :: pre, m.findBin n e b.1 = some (last.1, post.head?.map fst) ∧
      ∀ {m' : Events} {new : List Bin}, (∀ x ∈ flat (b :: pre), m' x = m x) → Links m' r new none →
        last.1 ∉ flat new → Links (m'.setNextBin last.1 r) (some b.1) (b :: pre ++ new) none := by
  have htops := hl.tops
  rw [map_append] at htops
  have hd : ((b :: pre).map fst).Nodup :=
    pairwise_map.mpr ((pairwise_append.mp ho.sorted).1.imp fun h heq => h.ne (by rw [heq]))
  obtain ⟨last, hlast, hseek, hjoin⟩ := htops.behind hd (fun x => (m x).lt (m e)) (n := n)
    (by simp only [length_append, length_map, length_cons] at hn ⊢; omega)
    (fun x hx => by
      obtain ⟨c, hc, rfl⟩ := mem_map.mp hx
      exact Event.lt_iff.mpr (hpre c hc))
    (fun x hx => by
      rw [head?_map] at hx
      obtain ⟨c, hc, rfl⟩ := Option.map_eq_some_iff.mp hx
      rw [← Bool.not_eq_true, Event.lt_iff, not_lt]
      exact hpost c hc)
  obtain ⟨c, hc, rfl⟩ := mem_map.mp (show last ∈ (b :: pre).map fst from hlast)
  refine ⟨c, hc, by rw [← head?_map]; exact hseek, fun {m' new} hsame hnew hfresh => ?_⟩
  have hback : Links (m'.setNextBin c.1 r) r new none :=
    hnew.congr fun x hx => Events.setNextBin_of_ne fun heq => hfresh (heq ▸ hx)
  obtain ⟨q, hfront, -⟩ := links_append.mp hl
  refine ⟨?_, fun d hd => ?_⟩
  · rw [map_append]
    refine hjoin (fun x hx hne => ?_) ?_
    · obtain ⟨d, hd, rfl⟩ := mem_map.mp (show x ∈ (b :: pre).map fst from hx)
      rw [Events.setNextBin_of_ne hne, hsame _ (top_mem_flat hd)]
    · rw [Events.setNextBin_self]
      exact hback.tops
  · rcases mem_append.mp hd with hd | hd
    · simp only [Events.setNextBin_nextInBin]
      exact (hfront.congr hsame).stack d hd
    · exact hback.stack d hd

end Links

/-! ## Insertion -/

/-- Where `insertBefore` puts the event: in front of the first bin, or on top of it. -/
def place (m : Events) (e : Nat) : List Bin → List Bin
  | [] => [(e, [])]
  | b :: bins => if (m e).lt (m b.1) then (e, []) :: b :: bins else (e, b.1 :: b.2) :: bins

section Insert

variable {m : Events} {h q : Option Nat} {pre post bins : List Bin} {b : Bin} {e : Nat}

theorem flat_place (m : Events) (e : Nat) (post : List Bin) :
    flat (place m e post) = e :: flat post := by
  cases post with
  | nil => rfl
  | cons b bins =>
    simp only [place]
    split <;> simp

theorem relinks_insertBefore (m : Events) (e : Nat) (p : Option Nat) :
    m.Relinks (m.insertBefore e p) [e] := by
  have hset (q r : Option Nat) : m.Relinks ((m.setNextBin e q).setNextInBin e r) [e] := by
    refine ⟨fun x => by simp, fun x => by simp, fun x hx => ?_⟩
    have hne : x ≠ e := by simpa using hx
    rw [Events.setNextInBin_of_ne hne, Events.setNextBin_of_ne hne]
  cases p with
  | none => exact hset none none
  | some c =>
    simp only [Events.insertBefore]
    split
    · exact hset _ _
    · exact hset _ _

theorem links_insertBefore (hl : Links m q post none) (he : e ∉ flat post) :
    Links (m.insertBefore e q) (some e) (place m e post) none := by
  have hm := relinks_insertBefore m e q
  cases post with
  | nil =>
    have hq : q = none := hl.tops
    subst hq
    refine ⟨⟨rfl, by simp [Events.insertBefore, Segment]⟩, fun b hb => ?_⟩
    rw [mem_singleton.mp hb]
    simp [Events.insertBefore, Segment]
  | cons b bins =>
    have hq : q = some b.1 := hl.tops.1
    subst hq
    have hne : b.1 ≠ e := fun h => he (by simp [h])
    have hold : Links (m.insertBefore e (some b.1)) (some b.1) (b :: bins) none :=
      hl.congr fun x hx => hm.others x (by rintro h; exact he (mem_singleton.mp h ▸ hx))
    simp only [place]
    split
    · next hlt =>
      have hbin : (m.insertBefore e (some b.1) e).nextBin = some b.1 := by
        simp [Events.insertBefore, hlt]
      refine ⟨⟨rfl, ?_⟩, fun c hc => ?_⟩
      · dsimp only
        rw [hbin]
        exact hold.tops
      · rcases mem_cons.mp hc with rfl | hc
        · simp [Events.insertBefore, hlt, Segment]
        · exact hold.stack c hc
    · next hlt =>
      have hbin : (m.insertBefore e (some b.1) e).nextBin = (m b.1).nextBin := by
        simp [Events.insertBefore, hlt]
      have hin : (m.insertBefore e (some b.1) e).nextInBin = some b.1 := by
        simp [Events.insertBefore, hlt]
      refine ⟨⟨rfl, ?_⟩, fun c hc => ?_⟩
      · have htops := hold.tops.2
        dsimp only at htops ⊢
        rw [hm.others b.1 (by simpa using hne)] at htops
        rw [hbin]
        exact htops
      · rcases mem_cons.mp hc with rfl | hc
        · rw [hin]
          exact ⟨rfl, hold.stack b mem_cons_self⟩
        · exact hold.stack c (mem_cons_of_mem _ hc)

theorem Ordered.place (ho : Ordered m (pre ++ post)) (he : e ∉ flat (pre ++ post))
    (hpre : ∀ b ∈ pre, (m b.1).key < (m e).key) (hpost : ∀ b ∈ post, (m e).key ≤ (m b.1).key) :
    Ordered m (pre ++ place m e post) := by
  have hnodup : (flat (pre ++ Sim.place m e post)).Nodup := by
    rw [flat_append, flat_place, nodup_middle, ← flat_append]
    exact nodup_cons.mpr ⟨he, ho.nodup⟩
  cases post with
  | nil => exact ho.replace [] [(e, [])] hnodup (by simp) (by simp) hpre nofun
  | cons b bins =>
    have hbins := pairwise_cons.mp (pairwise_append.mp ho.sorted).2.1
    simp only [Sim.place] at hnodup ⊢
    split at hnodup
    · next hlt =>
      rw [if_pos hlt]
      have hlt := Event.lt_iff.mp hlt
      refine ho.replace [] [(e, [])] hnodup (by simp) (by simp) hpre fun c hc => ?_
      rcases mem_cons.mp hc with rfl | hc
      · exact hlt
      · exact hlt.trans (hbins.1 c hc)
    · next hlt =>
      have heq : (m b.1).key = (m e).key :=
        le_antisymm (not_lt.mp fun h => hlt (Event.lt_iff.mpr h)) (hpost b mem_cons_self)
      rw [if_neg hlt]
      refine ho.replace [b] [(e, b.1 :: b.2)] hnodup (by simp) (fun c hc => ?_) hpre
        fun c hc => heq ▸ hbins.1 c hc
      rw [mem_singleton.mp hc]
      refine ⟨rfl, fun x hx => ?_⟩
      exact (ho.key_top (by simp) (mem_cons.mp hx)).trans heq

end Insert

/-- The bins of the queue. Within a bin the event inserted last is on top. -/
structure Queue (s : EventQueue) (bins : List Bin) : Prop where
  links : Links s.events s.head bins none
  ordered : Ordered s.events bins
  bound : (flat bins).length ≤ s.inserts
  stamps : ∀ e ∈ flat bins, s.stamp e < s.inserts
  latest : (flat bins).Pairwise fun a b => (s.events a).key = (s.events b).key →
    s.stamp b < s.stamp a

theorem length_le_flat (bins : List Bin) : bins.length ≤ (flat bins).length := by
  induction bins with
  | nil => simp
  | cons b bins ih =>
    simp only [length_cons, flat_cons, length_append]
    omega

section Queue

variable {s s' : EventQueue} {pre post bins : List Bin} {b : Bin} {e : Nat}

/-- The bins in front of the one the event belongs to. -/
theorem Ordered.split_at {m : Events} (ho : Ordered m bins) (e : Nat) :
    ∃ pre post, bins = pre ++ post ∧ (∀ b ∈ pre, (m b.1).key < (m e).key) ∧
      ∀ b ∈ post, (m e).key ≤ (m b.1).key := by
  induction bins with
  | nil => exact ⟨[], [], rfl, nofun, nofun⟩
  | cons b bins ih =>
    have hsorted := pairwise_cons.mp ho.sorted
    by_cases hlt : (m b.1).key < (m e).key
    · have htail : Ordered m bins :=
        ⟨(nodup_append.mp ho.nodup).2.1, fun c hc => ho.keys c (mem_cons_of_mem _ hc),
          hsorted.2⟩
      obtain ⟨pre, post, rfl, hpre, hpost⟩ := ih htail
      refine ⟨b :: pre, post, rfl, fun c hc => ?_, hpost⟩
      rcases mem_cons.mp hc with rfl | hc
      · exact hlt
      · exact hpre c hc
    · refine ⟨[], b :: bins, rfl, nofun, fun c hc => ?_⟩
      rcases mem_cons.mp hc with rfl | hc
      · exact not_lt.mp hlt
      · exact (lt_of_le_of_lt (not_lt.mp hlt) (hsorted.1 c hc)).le

/-- Only pointers change, and where the queue starts. -/
structure Moves (s s' : EventQueue) : Prop where
  curTick : s'.curTick = s.curTick
  key : ∀ x, (s'.events x).key = (s.events x).key
  scheduled : ∀ x, (s'.events x).scheduled = (s.events x).scheduled

/-- The event goes in front of everything that is not earlier. -/
theorem Queue.placed {m : Events} {head : Option Nat} (h : Queue s (pre ++ post))
    (he : e ∉ flat (pre ++ post)) (hpre : ∀ b ∈ pre, (s.events b.1).key < (s.events e).key)
    (hpost : ∀ b ∈ post, (s.events e).key ≤ (s.events b.1).key)
    (hkey : ∀ x, (m x).key = (s.events x).key)
    (hl : Links m head (pre ++ place s.events e post) none) :
    Queue { s with head, events := m, inserts := s.inserts + 1,
                   stamp := update s.stamp e s.inserts } (pre ++ place s.events e post) := by
  have hmem {x : Nat} (hx : x ∈ flat (pre ++ post)) : update s.stamp e s.inserts x = s.stamp x :=
    Function.update_of_ne (fun (hxe : x = e) => he (hxe ▸ hx)) _ _
  have hflat : flat (pre ++ place s.events e post) = flat pre ++ e :: flat post := by
    rw [flat_append, flat_place]
  have hin {x : Nat} (hx : x ∈ flat pre ++ e :: flat post) : x = e ∨ x ∈ flat (pre ++ post) := by
    simp only [flat_append, mem_append, mem_cons] at hx ⊢
    tauto
  refine ⟨hl, (h.ordered.place he hpre hpost).congr (fun x _ => hkey x), ?_, fun x hx => ?_, ?_⟩
  · have := h.bound
    rw [hflat]
    simp only [flat_append, length_append, length_cons] at this ⊢
    omega
  · rw [hflat] at hx
    rcases hin hx with rfl | hx
    · simp
    · simp only [hmem hx]
      exact Nat.lt_succ_of_lt (h.stamps x hx)
  · rw [hflat]
    simp only [hkey]
    have hlatest : (flat pre ++ flat post).Pairwise fun a b =>
        (s.events a).key = (s.events b).key →
          update s.stamp e s.inserts b < update s.stamp e s.inserts a := by
      rw [← flat_append]
      refine h.latest.imp_of_mem fun {a b} ha hb hab heq => ?_
      rw [hmem ha, hmem hb]
      exact hab heq
    obtain ⟨h1, h2, h3⟩ := pairwise_append.mp hlatest
    refine pairwise_append.mpr ⟨h1, pairwise_cons.mpr ⟨fun y hy _ => ?_, h2⟩, fun x hx y hy => ?_⟩
    · have hy : y ∈ flat (pre ++ post) := by simp [hy]
      rw [hmem hy, Function.update_self]
      exact h.stamps y hy
    · rcases mem_cons.mp hy with rfl | hy
      · intro heq
        obtain ⟨b, hb, hxb⟩ := mem_flat.mp hx
        have hlt := hpre b hb
        rw [← heq, h.ordered.key_top (mem_append_left _ hb) hxb] at hlt
        exact absurd hlt (lt_irrefl _)
      · exact h3 x hx y hy

theorem Queue.insert (h : Queue s bins) (he : e ∉ flat bins) :
    ∃ s' pre post, s.insert e = some s' ∧ bins = pre ++ post ∧
      Queue s' (pre ++ place s.events e post) ∧ Moves s s' ∧
      (∀ b ∈ pre, (s.events b.1).key < (s.events e).key) ∧
      (∀ b ∈ post, (s.events e).key ≤ (s.events b.1).key) := by
  obtain ⟨pre, post, rfl, hpre, hpost⟩ := h.ordered.split_at e
  obtain ⟨q, hlpre, hlpost⟩ := links_append.mp h.links
  have hne : e ∉ flat pre ∧ e ∉ flat post := by simpa using he
  have hm := relinks_insertBefore s.events e q
  have hl := links_insertBefore hlpost hne.2
  cases pre with
  | nil =>
    have hhead : s.head = q := hlpre.tops
    subst hhead
    refine ⟨_, [], post, ?_, rfl, h.placed he hpre hpost hm.key hl, ⟨rfl, hm.key, hm.scheduled⟩,
      hpre, hpost⟩
    cases post with
    | nil =>
      have hnone : s.head = none := hlpost.tops
      simp only [EventQueue.insert, hnone]
    | cons b bins =>
      have hsome : s.head = some b.1 := hlpost.tops.1
      have hle := Event.le_iff.mpr (hpost b mem_cons_self)
      simp only [EventQueue.insert, hsome, hle, if_true]
  | cons b pre =>
    have hsome : s.head = some b.1 := hlpre.tops.1
    have hle : (s.events e).le (s.events b.1) = false := by
      rw [← Bool.not_eq_true, Event.le_iff, not_le]
      exact hpre b mem_cons_self
    have hall := h.links
    rw [hsome] at hall
    have hlen := (length_le_flat (b :: pre ++ post)).trans h.bound
    obtain ⟨last, hlast, hfind, hjoin⟩ := hall.behind h.ordered
      (fun c hc => hpre c (mem_cons_of_mem _ hc)) (fun c hc => hpost c (mem_of_head? hc))
      (Nat.le_succ_of_le hlen)
    have hq : post.head?.map fst = q := by
      rw [hlpost.tops.head?, head?_map]
    rw [hq] at hfind
    have hd : last.1 ∉ flat (place s.events e post) := by
      rw [flat_place]
      intro hx
      rcases mem_cons.mp hx with hx | hx
      · exact hne.1 (hx ▸ top_mem_flat hlast)
      · exact (nodup_append'.mp (flat_append (b :: pre) post ▸ h.ordered.nodup)).2.2
          (top_mem_flat hlast) hx
    have hall := hjoin (fun x hx => hm.others x fun hxe => hne.1 (mem_singleton.mp hxe ▸ hx)) hl hd
    rw [← hsome] at hall
    refine ⟨_, b :: pre, post, ?_, rfl,
      h.placed he hpre hpost (fun x => Events.setNextBin_key.trans (hm.key x)) hall,
      ⟨rfl, fun x => Events.setNextBin_key.trans (hm.key x),
        fun x => Events.setNextBin_scheduled.trans (hm.scheduled x)⟩, hpre, hpost⟩
    simp only [EventQueue.insert, hsome, hle, Bool.false_eq_true, if_false, hfind, map_some]

end Queue

/-! ## Removal -/

/-- What `removeItem` leaves of a bin. -/
def strip (e : Nat) : Bin → List Bin
  | (top, rest) =>
    if e = top then
      match rest with
      | [] => []
      | x :: xs => [(x, xs)]
    else [(top, rest.erase e)]

section Remove

variable {m : Events} {s s' : EventQueue} {pre post bins : List Bin} {b : Bin} {e : Nat}

theorem flat_strip (e : Nat) (b : Bin) : flat (strip e b) = (b.1 :: b.2).erase e := by
  obtain ⟨top, rest⟩ := b
  simp only [strip]
  split
  · next heq =>
    subst heq
    cases rest <;> simp
  · next hne =>
    rw [erase_cons_tail (by simpa using Ne.symm hne)]
    simp

section
variable (hl : Links m (some b.1) (b :: post) none) (hn : (flat (b :: post)).Nodup)
include hl hn

theorem removeItem_top {n : Nat} :
    ∃ m' top, m.removeItem n b.1 b.1 = some (m', top) ∧ m.Relinks m' (b.1 :: b.2) ∧
      Links m' top (strip b.1 b ++ post) none := by
  obtain ⟨top, rest⟩ := b
  have hstack := hl.stack _ mem_cons_self
  have htops := hl.tops.2
  have hpost : Links m (m top).nextBin post none :=
    ⟨htops, fun c hc => hl.stack c (mem_cons_of_mem _ hc)⟩
  cases rest with
  | nil =>
    have hnone : (m top).nextInBin = none := hstack
    refine ⟨m, (m top).nextBin, ?_, ⟨fun _ => rfl, fun _ => rfl, fun _ _ => rfl⟩, ?_⟩
    · simp only [Events.removeItem, if_true, hnone]
    · simpa [strip] using hpost
  | cons x xs =>
    have hsome : (m top).nextInBin = some x := hstack.1
    have hx : x ∉ flat post := by
      intro hx
      exact (nodup_cons.mp (nodup_cons.mp hn).2).1 (mem_append_right _ hx)
    refine ⟨m.setNextBin x (m top).nextBin, some x, ?_,
      ⟨fun y => by simp, fun y => by simp, fun y hy => ?_⟩, ?_⟩
    · simp only [Events.removeItem, if_true, hsome]
    · exact Events.setNextBin_of_ne fun h => hy (by simp [h])
    have hback : Links (m.setNextBin x (m top).nextBin) (m top).nextBin post none :=
      hpost.congr fun y hy => Events.setNextBin_of_ne fun h => hx (h ▸ hy)
    simp only [strip, if_true, cons_append, nil_append]
    refine ⟨⟨rfl, ?_⟩, fun c hc => ?_⟩
    · simp only [Events.setNextBin_self]
      exact hback.tops
    rcases mem_cons.mp hc with rfl | hc
    · simp only [Events.setNextBin_nextInBin]
      exact hstack.2
    · exact hback.stack c hc

theorem removeItem_under {n : Nat} (hne : e ≠ b.1) (he : e ∈ b.2) (hlen : b.2.length ≤ n) :
    ∃ m' top, m.removeItem n e b.1 = some (m', top) ∧ m.Relinks m' (b.1 :: b.2) ∧
      Links m' top (strip e b ++ post) none := by
  obtain ⟨top, rest⟩ := b
  have hnodup : (top :: rest).Nodup ∧ List.Disjoint (top :: rest) (flat post) := by
    have h := nodup_append'.mp hn
    exact ⟨h.1, h.2.2⟩
  obtain ⟨xs, ys, rfl⟩ := append_of_mem he
  have hxs : e ∉ xs := by
    have h := nodup_middle.mp (nodup_cons.mp hnodup.1).2
    exact fun hx => (nodup_cons.mp h).1 (mem_append_left _ hx)
  have hstack := hl.stack _ mem_cons_self
  have hwhole : Segment (fun x => (m x).nextInBin) (some top) (top :: xs ++ e :: ys) none :=
    ⟨rfl, hstack⟩
  have hrest : top :: (xs ++ e :: ys) = (top :: xs) ++ e :: ys := rfl
  have hsplit := nodup_append'.mp (hrest ▸ hnodup.1)
  obtain ⟨last, hlmem, hseek, hjoin⟩ := hwhole.behind hsplit.1 (· != e) hlen
    (fun x hx => by simpa using fun h : x = e => hxs (h ▸ hx)) (fun y hy => by simpa using hy.symm)
  refine ⟨m.setNextInBin last (m e).nextInBin, some top, ?_,
    ⟨fun x => by simp, fun x => by simp, fun x hx => ?_⟩, ?_⟩
  · simp only [Events.removeItem, if_neg hne, hseek, bind_some, head?_cons]
  · refine Events.setNextInBin_of_ne ?_
    rintro rfl
    exact hx (hrest ▸ mem_append_left _ hlmem)
  · have hkeep {x : Nat} (hx : x ∉ top :: xs) : m.setNextInBin last (m e).nextInBin x = m x :=
      Events.setNextInBin_of_ne fun h => hx (h ▸ hlmem)
    have hpost : Links m (m top).nextBin post none :=
      ⟨hl.tops.2, fun c hc => hl.stack c (mem_cons_of_mem _ hc)⟩
    have hback : Links (m.setNextInBin last (m e).nextInBin) (m top).nextBin post none :=
      hpost.congr fun x hx => hkeep fun h => hnodup.2 (hrest ▸ mem_append_left _ h) hx
    have hstrip : strip e (top, xs ++ e :: ys) = [(top, xs ++ ys)] := by
      simp only [strip, if_neg hne]
      rw [erase_append_right _ hxs, erase_cons_head]
    rw [hstrip]
    refine ⟨⟨rfl, ?_⟩, fun c hc => ?_⟩
    · simp only [Events.setNextInBin_nextBin]
      exact hpost.tops
    rcases mem_cons.mp hc with rfl | hc
    · -- the event above the one that goes is linked to the one below it
      obtain ⟨q, -, rfl, hlower⟩ := segment_append.mp hwhole
      refine (hjoin (fun x _ hx => by rw [Events.setNextInBin_of_ne hx]) ?_).2
      rw [Events.setNextInBin_self]
      exact hlower.congr fun x hx => by
        rw [hkeep fun h => hsplit.2.2 h (mem_cons_of_mem _ hx)]
    · exact hback.stack c hc

theorem removeItem_spec {n : Nat} (he : e = b.1 ∨ e ∈ b.2) (hlen : b.2.length ≤ n) :
    ∃ m' top, m.removeItem n e b.1 = some (m', top) ∧ m.Relinks m' (b.1 :: b.2) ∧
      Links m' top (strip e b ++ post) none := by
  by_cases heq : e = b.1
  · subst heq
    exact removeItem_top hl hn
  · exact removeItem_under hl hn heq (he.resolve_left heq) hlen

end

theorem Ordered.strip_key (ho : Ordered m bins) (hb : b ∈ bins) {c : Bin} (hc : c ∈ strip e b) :
    (m c.1).key = (m b.1).key ∧ ∀ x ∈ c.2, (m x).key = (m b.1).key := by
  obtain ⟨top, rest⟩ := b
  have hkeys := ho.keys _ hb
  simp only [strip] at hc
  split at hc
  · cases rest with
    | nil => exact absurd hc not_mem_nil
    | cons x xs =>
      rw [mem_singleton.mp hc]
      exact ⟨hkeys x mem_cons_self, fun y hy => hkeys y (mem_cons_of_mem _ hy)⟩
  · rw [mem_singleton.mp hc]
    exact ⟨rfl, fun x hx => hkeys x (mem_of_mem_erase hx)⟩

theorem pairwise_strip (r : Bin → Bin → Prop) (e : Nat) (b : Bin) : (strip e b).Pairwise r := by
  obtain ⟨top, rest⟩ := b
  simp only [strip]
  split
  · cases rest <;> simp
  · simp

theorem flat_removed (hn : (flat (pre ++ b :: post)).Nodup) (he : e = b.1 ∨ e ∈ b.2) :
    flat (pre ++ (strip e b ++ post)) = (flat (pre ++ b :: post)).erase e := by
  have hb : e ∈ b.1 :: b.2 := by simpa using he
  have hpre : e ∉ flat pre := by
    rw [flat_append, nodup_append'] at hn
    exact fun h => hn.2.2 h (mem_append_left _ hb)
  simp only [flat_append, flat_cons, flat_strip]
  rw [erase_append_right _ hpre, erase_append_left _ hb]

theorem Ordered.removed (ho : Ordered m (pre ++ b :: post)) (he : e = b.1 ∨ e ∈ b.2) :
    Ordered m (pre ++ (strip e b ++ post)) := by
  obtain ⟨-, h2, h3⟩ := pairwise_append.mp ho.sorted
  refine ho.replace [b] (strip e b) ?_ (pairwise_strip _ _ _) (fun c hc => ?_)
    (fun a ha => h3 a ha b mem_cons_self) (pairwise_cons.mp h2).1
  · rw [flat_removed ho.nodup he]
    exact ho.nodup.erase e
  · exact ho.strip_key (by simp) hc

theorem Queue.removed {m : Events} {head : Option Nat} (h : Queue s (pre ++ b :: post))
    (he : e = b.1 ∨ e ∈ b.2) (hkey : ∀ x, (m x).key = (s.events x).key)
    (hl : Links m head (pre ++ (strip e b ++ post)) none) :
    Queue { s with head, events := m } (pre ++ (strip e b ++ post)) := by
  have hflat := flat_removed h.ordered.nodup he
  refine ⟨hl, (h.ordered.removed he).congr fun x _ => hkey x, ?_, fun x hx => ?_, ?_⟩
  · rw [hflat]
    exact (length_erase_le ..).trans h.bound
  · rw [hflat] at hx
    exact h.stamps x (mem_of_mem_erase hx)
  rw [hflat]
  simp only [hkey]
  exact h.latest.sublist (erase_sublist ..)

theorem Queue.find (h : Queue s bins) (he : e ∈ flat bins) :
    ∃ pre b post, bins = pre ++ b :: post ∧ (e = b.1 ∨ e ∈ b.2) ∧
      (s.events b.1).key = (s.events e).key ∧ ∀ c ∈ pre, (s.events c.1).key < (s.events e).key := by
  obtain ⟨b, hb, heb⟩ := mem_flat.mp he
  obtain ⟨pre, post, rfl⟩ := append_of_mem hb
  have hkey := h.ordered.key_top hb heb
  refine ⟨pre, b, post, rfl, heb, hkey.symm, fun c hc => ?_⟩
  rw [hkey]
  exact (pairwise_append.mp h.ordered.sorted).2.2 c hc b mem_cons_self

theorem Queue.remove (h : Queue s bins) (he : e ∈ flat bins) :
    ∃ s' bins', s.remove e = some s' ∧ Queue s' bins' ∧ Moves s s' ∧ s'.inserts = s.inserts ∧
      s'.stamp = s.stamp ∧ flat bins' = (flat bins).erase e := by
  obtain ⟨pre, b, post, rfl, heb, hkey, hpre⟩ := h.find he
  obtain ⟨q, hlpre, hlpost⟩ := links_append.mp h.links
  have hq : q = some b.1 := hlpost.tops.1
  subst hq
  have hnodup := nodup_append'.mp (flat_append pre (b :: post) ▸ h.ordered.nodup)
  have hlen : b.2.length ≤ s.inserts := by
    have := h.bound
    simp only [flat_append, flat_cons, length_append, length_cons] at this
    omega
  obtain ⟨m, top, hitem, hm, hl⟩ := removeItem_spec hlpost hnodup.2.1 heb hlen
  have heq := Event.eq_iff.mpr hkey
  have hflat := flat_removed h.ordered.nodup heb
  cases pre with
  | nil =>
    have hhead : s.head = some b.1 := hlpre.tops
    refine ⟨_, _, ?_, h.removed heb hm.key hl, ⟨rfl, hm.key, hm.scheduled⟩, rfl, rfl, hflat⟩
    simp only [EventQueue.remove, hhead, bind_some, heq, if_true, hitem, map_some]
  | cons c pre =>
    have hhead : s.head = some c.1 := hlpre.tops.1
    have hcne : (s.events c.1).eq (s.events e) = false := by
      rw [← Bool.not_eq_true, Event.eq_iff]
      exact (hpre c mem_cons_self).ne
    have hall := h.links
    rw [hhead] at hall
    obtain ⟨last, hlast, hfind, hjoin⟩ := hall.behind h.ordered
      (fun d hd => hpre d (mem_cons_of_mem _ hd)) (fun d hd => by cases hd; exact hkey.ge)
      ((length_le_flat _).trans h.bound)
    have hd : last.1 ∉ flat (strip e b ++ post) := by
      intro hx
      have hx : last.1 ∈ flat (b :: post) := by
        rw [flat_append, flat_strip] at hx
        rcases mem_append.mp hx with hx | hx
        · exact mem_append_left _ (mem_of_mem_erase hx)
        · exact mem_append_right _ hx
      exact hnodup.2.2 (top_mem_flat hlast) hx
    have hjoin := hjoin
      (fun x hx => hm.others x fun hxb => hnodup.2.2 hx (mem_append_left _ hxb)) hl hd
    rw [← hhead] at hjoin
    refine ⟨_, _, ?_, h.removed heb (fun x => Events.setNextBin_key.trans (hm.key x)) hjoin,
      ⟨rfl, fun x => Events.setNextBin_key.trans (hm.key x),
        fun x => Events.setNextBin_scheduled.trans (hm.scheduled x)⟩, rfl, rfl, hflat⟩
    simp only [EventQueue.remove, hhead, bind_some, hcne, Bool.false_eq_true, if_false, hfind,
      head?_cons, map_some, heq, if_true, hitem]

end Remove

/-! ## The queue as a sorted list -/

/-- Events with what they are sorted by, in the order in which they are served. -/
abbrev Agenda := List (Nat × (Nat ×ₗ Int))

namespace Agenda

def insert (a : Agenda) (x : Nat × (Nat ×ₗ Int)) : Agenda :=
  a.orderedInsert (fun x y => x.2 ≤ y.2) x

def remove (a : Agenda) (event : Nat) : Agenda := a.filter (·.1 != event)

def step (priority : Nat → Int) (a : Agenda) : EventOp → Agenda
  | .schedule event when => a.insert (event, toLex (when, priority event))
  | .deschedule event => a.remove event
  | .reschedule event when _ => (a.remove event).insert (event, toLex (when, priority event))
  | .serviceOne => a.tail
  | .squash _ => a

theorem insert_between {xs ys : Agenda} {x : Nat × (Nat ×ₗ Int)} (hxs : ∀ y ∈ xs, y.2 < x.2)
    (hys : ∀ y ∈ ys, x.2 ≤ y.2) : insert (xs ++ ys) x = xs ++ x :: ys := by
  induction xs with
  | nil =>
    cases ys with
    | nil => rfl
    | cons y ys => exact orderedInsert_cons_of_le _ _ (hys y mem_cons_self)
  | cons y xs ih =>
    have hlt := hxs y mem_cons_self
    have ih := ih fun z hz => hxs z (mem_cons_of_mem _ hz)
    rw [cons_append, cons_append, ← ih]
    exact orderedInsert_of_not_le _ _ (not_le.mpr hlt)

end Agenda

/-- The events of the bins, first to last. -/
def EventQueue.agenda (s : EventQueue) (bins : List Bin) : Agenda :=
  (flat bins).map fun e => (e, (s.events e).key)

/-- The bins hold the scheduled events. -/
structure Holds (s : EventQueue) (bins : List Bin) : Prop extends Queue s bins where
  mem : ∀ e, e ∈ flat bins ↔ (s.events e).scheduled = true

section Agenda

variable {s s' : EventQueue} {bins bins' : List Bin} {e : Nat}

theorem Queue.congr (h : Queue s bins) (hhead : s'.head = s.head) (hin : s'.inserts = s.inserts)
    (hstamp : s'.stamp = s.stamp)
    (hp : ∀ x ∈ flat bins, (s'.events x).nextBin = (s.events x).nextBin ∧
      (s'.events x).nextInBin = (s.events x).nextInBin)
    (hk : ∀ x ∈ flat bins, (s'.events x).key = (s.events x).key) : Queue s' bins := by
  refine ⟨?_, h.ordered.congr hk, hin ▸ h.bound, ?_, ?_⟩
  · rw [hhead]
    exact h.links.congr_pointers hp
  · rw [hin, hstamp]
    exact h.stamps
  rw [hstamp]
  refine h.latest.imp_of_mem fun {a b} ha hb hab => ?_
  rw [hk a ha, hk b hb]
  exact hab

theorem agenda_congr (hk : ∀ x ∈ flat bins, (s'.events x).key = (s.events x).key) :
    s'.agenda bins = s.agenda bins :=
  map_congr_left fun x hx => by rw [hk x hx]

theorem setFlags_key (s : EventQueue) (e x : Nat) (a b : Bool) :
    ((s.setFlags e a b).events x).key = (s.events x).key :=
  Events.modify_field Event.key fun _ => rfl

theorem setFlags_scheduled (s : EventQueue) (e x : Nat) (a b : Bool) :
    ((s.setFlags e a b).events x).scheduled = if x = e then a else (s.events x).scheduled := by
  by_cases hx : x = e
  · subst hx
    simp [EventQueue.setFlags, Events.modify]
  · simp [EventQueue.setFlags, Events.modify, hx]

theorem setFlags_pointers (s : EventQueue) (e x : Nat) (a b : Bool) :
    ((s.setFlags e a b).events x).nextBin = (s.events x).nextBin ∧
      ((s.setFlags e a b).events x).nextInBin = (s.events x).nextInBin :=
  ⟨Events.modify_field Event.nextBin fun _ => rfl, Events.modify_field Event.nextInBin fun _ => rfl⟩

theorem Queue.setFlags (h : Queue s bins) (e : Nat) (a b : Bool) : Queue (s.setFlags e a b) bins :=
  h.congr rfl rfl rfl (fun x _ => setFlags_pointers s e x a b) fun x _ => setFlags_key s e x a b

theorem Queue.reinsert (h : Queue s bins) (he : e ∉ flat bins)
    (hmem : ∀ x, x ≠ e → (x ∈ flat bins ↔ (s.events x).scheduled)) (w : Nat)
    (f : EventQueue → Bool) :
    ∃ s' bins', ((s.setWhen e w).insert e).map (fun s => s.setFlags e true (f s)) = some s' ∧
      Holds s' bins' ∧
      s'.agenda bins' = (s.agenda bins).insert (e, toLex (w, (s.events e).priority)) := by
  have hother {x : Nat} (hx : x ≠ e) : (s.setWhen e w).events x = s.events x := by
    simp [EventQueue.setWhen, Events.modify, hx]
  have hin {x : Nat} (hx : x ∈ flat bins) : (s.setWhen e w).events x = s.events x :=
    hother fun hxe => he (hxe ▸ hx)
  have hself : ((s.setWhen e w).events e).key = toLex (w, (s.events e).priority) := by
    simp [EventQueue.setWhen, Events.modify, Event.key]
  have hq : Queue (s.setWhen e w) bins :=
    h.congr rfl rfl rfl (fun x hx => by rw [hin hx]; exact ⟨rfl, rfl⟩) fun x hx => by rw [hin hx]
  obtain ⟨t, pre, post, ht, rfl, hqt, hmoves, hpre, hpost⟩ := hq.insert he
  have hflat : flat (pre ++ place (s.setWhen e w).events e post) = flat pre ++ e :: flat post := by
    rw [flat_append, flat_place]
  have hkey (x : Nat) (hx : x ∈ flat (pre ++ post)) :
      ((t.setFlags e true (f t)).events x).key = (s.events x).key := by
    rw [setFlags_key, hmoves.key, hin hx]
  refine ⟨t.setFlags e true (f t), _, by rw [ht]; rfl, ⟨hqt.setFlags e true (f t), fun x => ?_⟩, ?_⟩
  · rw [hflat, setFlags_scheduled, hmoves.scheduled]
    split
    · next hx => simp [hx]
    rename_i hx
    rw [hother hx, ← hmem x hx, flat_append]
    simp [hx]
  · have hkeys {b : Bin} (hb : b ∈ pre ++ post) {x : Nat} (hx : x = b.1 ∨ x ∈ b.2) :
        (s.events x).key = ((s.setWhen e w).events b.1).key := by
      rw [← hq.ordered.key_top hb hx, hin (mem_flat.mpr ⟨b, hb, hx⟩)]
    have hmap (xs : List Bin) (hxs : ∀ b ∈ xs, b ∈ pre ++ post) :
        (flat xs).map (fun x => (x, ((t.setFlags e true (f t)).events x).key)) = s.agenda xs :=
      map_congr_left fun x hx => by
        obtain ⟨b, hb, hxb⟩ := mem_flat.mp hx
        rw [hkey x (mem_flat.mpr ⟨b, hxs b hb, hxb⟩)]
    have hsplit : s.agenda (pre ++ post) = s.agenda pre ++ s.agenda post := by
      simp [EventQueue.agenda]
    rw [EventQueue.agenda, hflat, map_append, map_cons, hmap pre (by simp +contextual),
      hmap post (by simp +contextual), setFlags_key, hmoves.key, hself, hsplit]
    refine (Agenda.insert_between (fun y hy => ?_) fun y hy => ?_).symm
    · obtain ⟨x, hx, rfl⟩ := mem_map.mp hy
      obtain ⟨b, hb, hxb⟩ := mem_flat.mp hx
      have := hpre b hb
      rw [hself, ← hkeys (mem_append_left _ hb) hxb] at this
      exact this
    · obtain ⟨x, hx, rfl⟩ := mem_map.mp hy
      obtain ⟨b, hb, hxb⟩ := mem_flat.mp hx
      have := hpost b hb
      rw [hself, ← hkeys (mem_append_right _ hb) hxb] at this
      exact this

theorem agenda_erase (hn : (flat bins).Nodup) (hflat : flat bins' = (flat bins).erase e)
    (hkey : ∀ x, (s'.events x).key = (s.events x).key) :
    s'.agenda bins' = (s.agenda bins).remove e := by
  rw [EventQueue.agenda, hflat, hn.erase_eq_filter, Agenda.remove, EventQueue.agenda, filter_map]
  simp only [hkey]
  rfl

theorem Holds.nextToServe (h : Holds s bins) {n : Nat} (hs : s.head = some n) :
    ∃ rest post, bins = (n, rest) :: post := by
  cases bins with
  | nil =>
    have : s.head = none := h.links.tops
    simp [this] at hs
  | cons b post =>
    have : s.head = some b.1 := h.links.tops.1
    rw [this] at hs
    cases hs
    exact ⟨b.2, post, rfl⟩

theorem Holds.serviceOne {rest : List Nat} {post : List Bin} (h : Holds s ((e, rest) :: post)) :
    ∃ s' bins', s.serviceOne = some (e, s') ∧ Holds s' bins' ∧
      flat bins' = rest ++ flat post ∧ ∀ x, (s'.events x).key = (s.events x).key := by
  have hhead : s.head = some e := h.links.tops.1
  have hq := h.toQueue.setFlags e false false
  have hl := hq.links
  rw [show (s.setFlags e false false).head = some e from hhead] at hl
  obtain ⟨m, top, hitem, hm, hlinks⟩ := removeItem_top (n := 0) hl hq.ordered.nodup
  have hq : Queue (s.setFlags e false false) ([] ++ (e, rest) :: post) := hq
  have hq := hq.removed (.inl rfl) hm.key hlinks
  have hflat : flat (strip e (e, rest) ++ post) = rest ++ flat post := by
    rw [flat_append, flat_strip, erase_cons_head]
  have he : e ∉ rest ++ flat post := (nodup_cons.mp h.ordered.nodup).1
  have hmem (x : Nat) : x ∈ flat (strip e (e, rest) ++ post) ↔ (m x).scheduled = true := by
    rw [hflat, hm.scheduled, setFlags_scheduled]
    by_cases hx : x = e
    · subst hx
      simp [he]
    have := h.mem x
    simpa [hx] using this
  have hkey (x : Nat) : (m x).key = (s.events x).key := by rw [hm.key, setFlags_key]
  have hpop : s.serviceOne = some (e,
      if (s.events e).squashed then { s.setFlags e false false with events := m, head := top }
      else { s.setFlags e false false with
        events := m, head := top, curTick := (s.events e).when }) := by
    simp only [EventQueue.serviceOne, hhead, map_some]
    simp only [Events.removeItem, if_true, (setFlags_pointers s e e false false).1,
      (setFlags_pointers s e e false false).2] at hitem
    cases hnext : (s.events e).nextInBin with
    | none =>
      rw [hnext] at hitem
      cases hitem
      rfl
    | some next =>
      rw [hnext] at hitem
      cases hitem
      rfl
  refine ⟨_, strip e (e, rest) ++ post, hpop, ?_, hflat, fun x => ?_⟩
  · split
    · exact ⟨hq, hmem⟩
    · exact ⟨{ hq with }, hmem⟩
  · split
    · exact hkey x
    · exact hkey x

/-- **Refinement.** An operation whose assertions hold goes through, and does to the agenda what
it says. -/
theorem step_agenda (h : Holds s bins) {op : EventOp} (ha : s.allows op) :
    ∃ s' bins', s.handle op = some s' ∧ Holds s' bins' ∧
      s'.agenda bins' = (s.agenda bins).step (fun e => (s.events e).priority) op := by
  cases op with
  | schedule e w =>
    simp only [EventQueue.allows, Bool.and_eq_true, Bool.not_eq_true'] at ha
    have he : e ∉ flat bins := fun hin => by simp [(h.mem e).mp hin] at ha
    exact h.reinsert he (fun x _ => h.mem x) w fun s => (s.events e).squashed
  | deschedule e =>
    obtain ⟨t, bins', ht, hq, hmoves, -, -, hflat⟩ := h.remove ((h.mem e).mpr ha)
    have hkey (x : Nat) : ((t.setFlags e false false).events x).key = (s.events x).key := by
      rw [setFlags_key, hmoves.key]
    refine ⟨t.setFlags e false false, bins', ?_, ⟨hq.setFlags e false false, fun x => ?_⟩,
      agenda_erase h.ordered.nodup hflat hkey⟩
    · simp only [EventQueue.handle, EventQueue.deschedule, ht, map_some]
    · rw [hflat, setFlags_scheduled, hmoves.scheduled, h.ordered.nodup.mem_erase_iff, h.mem]
      by_cases hx : x = e <;> simp [hx]
  | reschedule e w always =>
    cases hsch : (s.events e).scheduled with
    | true =>
      obtain ⟨t, bins', ht, hq, hmoves, -, -, hflat⟩ := h.remove ((h.mem e).mpr hsch)
      have hmem (x : Nat) (hx : x ≠ e) : x ∈ flat bins' ↔ (t.events x).scheduled = true := by
        rw [hflat, h.ordered.nodup.mem_erase_iff, hmoves.scheduled, h.mem]
        simp [hx]
      have he : e ∉ flat bins' := by
        rw [hflat, h.ordered.nodup.mem_erase_iff]
        simp
      obtain ⟨s', bins'', hs', hh, hag⟩ := hq.reinsert he hmem w fun _ => false
      have hpri : (t.events e).priority = (s.events e).priority :=
        congrArg (fun k => (ofLex k).2) (hmoves.key e)
      refine ⟨s', bins'', ?_, hh, ?_⟩
      · simp only [EventQueue.handle, EventQueue.reschedule, hsch, if_true, ht, bind_some]
        exact hs'
      · rw [hag, agenda_erase h.ordered.nodup hflat hmoves.key, hpri]
        rfl
    | false =>
      have he : e ∉ flat bins := fun hin => by simp [(h.mem e).mp hin] at hsch
      obtain ⟨s', bins', hs', hh, hag⟩ := h.reinsert he (fun x _ => h.mem x) w fun _ => false
      have hgone : (s.agenda bins).remove e = s.agenda bins := by
        refine filter_eq_self.mpr fun y hy => ?_
        obtain ⟨x, hx, rfl⟩ := mem_map.mp hy
        simpa using fun hxe : x = e => he (hxe ▸ hx)
      refine ⟨s', bins', ?_, hh, ?_⟩
      · simp only [EventQueue.handle, EventQueue.reschedule, hsch, Bool.false_eq_true, if_false,
          bind_some]
        exact hs'
      · rw [hag, Agenda.step, hgone]
  | serviceOne =>
    obtain ⟨e, he⟩ := Option.isSome_iff_exists.mp ha
    obtain ⟨rest, post, rfl⟩ := h.nextToServe he
    obtain ⟨s', bins', hs', hh, hflat, hkey⟩ := h.serviceOne
    refine ⟨s', bins', ?_, hh, ?_⟩
    · simp only [EventQueue.handle, hs', map_some]
    · simp only [EventQueue.agenda, hflat, hkey]
      rfl
  | squash e =>
    refine ⟨_, bins, rfl, ⟨h.toQueue.setFlags e _ _, fun x => ?_⟩,
      agenda_congr fun x _ => setFlags_key s e x _ _⟩
    rw [setFlags_scheduled, h.mem]
    split
    · next hx => rw [hx]
    · rfl

theorem holds_of_reach (h : eventQueueMachine.Reach s) : ∃ bins, Holds s bins := by
  refine h.invariant (I := fun s => ∃ bins, Holds s bins)
    (fun s hs => ?_) fun s op s' hi _ hstep => ?_
  · obtain ⟨hhead, hsch⟩ := hs
    refine ⟨[], ⟨⟨hhead, nofun⟩, ⟨nodup_nil, nofun, .nil⟩, Nat.zero_le _, nofun, .nil⟩, fun e => ?_⟩
    simp [hsch e]
  · obtain ⟨bins, hi⟩ := hi
    have hstep : (if s.allows op then s.handle op else none) = some s' := hstep
    split at hstep
    · next ha =>
      obtain ⟨t, bins', ht, hh, -⟩ := step_agenda hi ha
      rw [ht] at hstep
      cases hstep
      exact ⟨bins', hh⟩
    · cases hstep

/-- The walk along the pointers finds the bins. -/
theorem Queue.bins_eq (h : Queue s bins) : s.bins = some bins := by
  have hlen := (length_le_flat bins).trans h.bound
  have hwalk := h.links.tops.walk (n := s.inserts) (by simpa using hlen)
  have hstack : ∀ b ∈ bins, walk (fun x => (s.events x).nextInBin) s.inserts
    (s.events b.1).nextInBin = some b.2 := by
    intro b hb
    refine (h.links.stack b hb).walk ?_
    obtain ⟨pre, post, rfl⟩ := append_of_mem hb
    have := h.bound
    simp only [flat_append, flat_cons, length_append, length_cons] at this
    omega
  simp only [EventQueue.bins, hwalk, bind_some]
  clear hwalk hlen h
  induction bins with
  | nil => rfl
  | cons b bins ih =>
    rw [map_cons, mapM_cons, hstack b mem_cons_self,
      ih fun c hc => hstack c (mem_cons_of_mem _ hc)]
    rfl

end Agenda

/-- **The queue over whole runs.** The two-level list holds the scheduled events, each once; every
operation whose assertions hold goes through, so "event not found!" is never reached, and does to
the list what it does to the agenda; and the event that is served comes before every other
scheduled one: it is earlier, or in the same bin and inserted later. -/
theorem event_queue_serves_in_order {s : EventQueue} (h : eventQueueMachine.Reach s) :
    (∃ bins, s.bins = some bins ∧ (flat bins).Nodup ∧
      (∀ e, e ∈ flat bins ↔ (s.events e).scheduled = true) ∧
      ∀ op, s.allows op = true → ∃ s' bins', s.handle op = some s' ∧ s'.bins = some bins' ∧
        s'.agenda bins' = (s.agenda bins).step (fun e => (s.events e).priority) op) ∧
    ∀ e s', s.serviceOne = some (e, s') →
      (s.events e).scheduled = true ∧
      (∀ x, (s'.events x).scheduled = true ↔ (s.events x).scheduled = true ∧ x ≠ e) ∧
      ∀ x, (s.events x).scheduled = true → x ≠ e →
        (s.events e).key < (s.events x).key ∨
          (s.events e).key = (s.events x).key ∧ s.stamp x < s.stamp e := by
  obtain ⟨bins, hb⟩ := holds_of_reach h
  refine ⟨⟨bins, hb.bins_eq, hb.ordered.nodup, hb.mem, fun op ha => ?_⟩, fun e s' hs => ?_⟩
  · obtain ⟨s', bins', hs', hb', hag⟩ := step_agenda hb ha
    exact ⟨s', bins', hs', hb'.bins_eq, hag⟩
  have hhead : s.head = some e := by
    obtain ⟨x, hx, heq⟩ := Option.map_eq_some_iff.mp hs
    cases heq
    exact hx
  obtain ⟨rest, post, rfl⟩ := hb.nextToServe hhead
  obtain ⟨t, bins', ht, hh, hflat, -⟩ := hb.serviceOne
  rw [ht] at hs
  cases hs
  have hcons : e ∉ rest ++ flat post := (nodup_cons.mp hb.ordered.nodup).1
  have hmem (x : Nat) : (s.events x).scheduled = true ↔ x = e ∨ x ∈ rest ++ flat post := by
    rw [← hb.mem, flat_cons, cons_append, mem_cons]
  refine ⟨(hmem e).mpr (.inl rfl), fun x => ?_, fun x hx hne => ?_⟩
  · rw [← hh.mem, hflat, hmem]
    by_cases hx : x = e
    · subst hx
      simp [hcons]
    · simp [hx]
  · have hx := ((hmem x).mp hx).resolve_left hne
    rcases mem_append.mp hx with hrest | hpost
    · have heq := (hb.ordered.keys (e, rest) mem_cons_self x hrest).symm
      exact .inr ⟨heq, (pairwise_cons.mp hb.latest).1 x hx heq⟩
    obtain ⟨c, hc, hxc⟩ := mem_flat.mp hpost
    rw [hb.ordered.key_top (mem_cons_of_mem _ hc) hxc]
    exact .inl ((pairwise_cons.mp hb.ordered.sorted).1 c hc)

/-- Three events in one bin, one of them taken out again, put in front and served. -/
def twoBins : List EventOp :=
  [.schedule 1 5, .schedule 2 5, .schedule 3 5, .reschedule 2 4 false, .serviceOne]

def emptyQueue : EventQueue := { events := fun _ => {} }

theorem event_queue_serves_twoBins :
    ∃ s, eventQueueMachine.run emptyQueue twoBins = some s ∧ s.bins = some [(3, [1])] ∧
      ∃ bins, s.bins = some bins ∧ ∃ s' bins', s.handle (.deschedule 3) = some s' ∧
        s'.bins = some bins' ∧
        s'.agenda bins' = (s.agenda bins).step (fun e => (s.events e).priority)
          (.deschedule 3) := by
  have hr : eventQueueMachine.run emptyQueue twoBins =
      some ((eventQueueMachine.run emptyQueue twoBins).getD emptyQueue) :=
    Machine.run_getD (by decide +kernel)
  obtain ⟨⟨bins, hbins, -, -, hop⟩, -⟩ :=
    event_queue_serves_in_order (Machine.reach_run ⟨rfl, fun _ => rfl⟩ hr)
  exact ⟨_, hr, by decide +kernel, bins, hbins, hop (.deschedule 3) (by decide +kernel)⟩

end SdoCore.Sim
