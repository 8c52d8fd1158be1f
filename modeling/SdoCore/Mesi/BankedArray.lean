import SdoCore.Lib.Machine
import Mathlib.Logic.Function.Basic
import Mathlib.Data.List.Basic

/-! The banks of a tag or data array (`BankedArray.cc`). An ordinary access reserves the bank
of its index for the access latency; an oblivious access, whose index must not show, is
meant to reserve all banks.

* `reserveBankObliv_eq`: it leaves the array as it finds it, for the loop over the banks compares
  its counter with itself;
* `reserveBankObliv_never_occupies`: so in no history does an oblivious access keep another access
  out. -/

namespace SdoCore.Mesi

open Lib

structure AccessRecord where
  (idx startAccess endAccess : Nat := 0)
  deriving DecidableEq

structure BankParams where
  (banks accessLatency clockPeriod : Nat)
  banks_pos : 0 < banks

/-- The last tick of an access that starts at tick `t`. -/
def BankParams.lastTick (p : BankParams) (t : Nat) : Nat :=
  t + (p.accessLatency - 1) * p.clockPeriod

structure BankedArray where
  busyBanks : Nat → AccessRecord

namespace BankedArray

variable {p : BankParams} {a : BankedArray} {t idx : Nat}

def empty : BankedArray := ⟨fun _ => {}⟩

def mapIndexToBank (p : BankParams) (idx : Nat) : Nat := if p.banks = 1 then 0 else idx % p.banks

/-- The assertion of `tryAccess` and `reserve`. -/
theorem mapIndexToBank_lt (p : BankParams) (idx : Nat) : mapIndexToBank p idx < p.banks := by
  have hpos := p.banks_pos
  unfold mapIndexToBank
  split
  · omega
  · exact Nat.mod_lt _ hpos

def tryAccess (p : BankParams) (a : BankedArray) (t idx : Nat) : Bool :=
  decide (p.accessLatency = 0) || decide ((a.busyBanks (mapIndexToBank p idx)).endAccess < t)

/-- The index plays no part. -/
def tryAccessBankObliv (p : BankParams) (a : BankedArray) (t _idx : Nat) : Bool :=
  decide (p.accessLatency = 0) ||
    (List.range p.banks).all fun b => decide ((a.busyBanks b).endAccess < t)

/-- Reserve one bank. The flag says that it is reserved for this access already; `none` is a
reservation error. -/
def reserveBank (p : BankParams) (a : BankedArray) (t idx b : Nat) : Option (BankedArray × Bool) :=
  if t ≤ (a.busyBanks b).endAccess then
    if (a.busyBanks b).startAccess = t ∧ (a.busyBanks b).idx = idx then some (a, true) else none
  else some (⟨Function.update a.busyBanks b ⟨idx, t, p.lastTick t⟩⟩, false)

def reserve (p : BankParams) (a : BankedArray) (t idx : Nat) : Option BankedArray :=
  if p.accessLatency = 0 then some a
  else (a.reserveBank p t idx (mapIndexToBank p idx)).map (·.1)

/-- The loop of `reserveBankObliv`, from bank `b` on. -/
def reserveLoop (p : BankParams) (a : BankedArray) (t idx : Nat) : Nat → Nat → Option BankedArray
  | 0, _ => some a
  | fuel + 1, b =>
    -- `bank < bank` in the source, where `bank < banks` is meant
    if b < b then
      (a.reserveBank p t idx b).bind fun (a, done) =>
        if done then some a else reserveLoop p a t idx fuel (b + 1)
    else some a

def reserveBankObliv (p : BankParams) (a : BankedArray) (t idx : Nat) : Option BankedArray :=
  if p.accessLatency = 0 then some a else reserveLoop p a t idx (p.banks + 1) 0

/-- No access, of either kind and of any index, is let in from tick `t` to the last tick of
an access that starts then. -/
def Occupied (p : BankParams) (a : BankedArray) (t : Nat) : Prop :=
  ∀ u, t ≤ u → u ≤ p.lastTick t →
    (∀ j, a.tryAccess p u j = false) ∧ ∀ j, a.tryAccessBankObliv p u j = false

/-! ## Oblivious accesses -/

/-- The loop is never entered. -/
theorem reserveBankObliv_eq (p : BankParams) (a : BankedArray) (t idx : Nat) :
    a.reserveBankObliv p t idx = some a := by
  unfold reserveBankObliv
  split
  · rfl
  · simp [reserveLoop]

/-- At a tick at which all banks are free they are free from then on, if nothing is reserved. -/
theorem free_of_tryAccessBankObliv (h : a.tryAccessBankObliv p t idx = true) {u : Nat} (hu : t ≤ u)
    (j : Nat) : a.tryAccess p u j = true ∧ a.tryAccessBankObliv p u j = true := by
  simp only [tryAccessBankObliv, tryAccess, Bool.or_eq_true, decide_eq_true_eq, List.all_eq_true,
    List.mem_range] at h ⊢
  rcases h with h | h
  · exact ⟨.inl h, .inl h⟩
  · have hfree : ∀ b < p.banks, (a.busyBanks b).endAccess < u := fun b hb =>
      Nat.lt_of_lt_of_le (h b hb) hu
    exact ⟨.inr (hfree _ (mapIndexToBank_lt p j)), .inr hfree⟩

end BankedArray

/-! ## Histories -/

inductive BankEvent
  | reserve (t idx : Nat)
  | reserveBankObliv (t idx : Nat)
  deriving DecidableEq

/-- An array and the tick of its last reservation. -/
structure BankHistory where
  array : BankedArray
  now : Nat

/-- Reservations are made at ticks at which the access was let in. -/
def BankHistory.step (p : BankParams) (s : BankHistory) : BankEvent → Option BankHistory
  | .reserve t idx =>
    if s.now ≤ t ∧ s.array.tryAccess p t idx = true then
      (s.array.reserve p t idx).map fun a => ⟨a, t⟩
    else none
  | .reserveBankObliv t idx =>
    if s.now ≤ t ∧ s.array.tryAccessBankObliv p t idx = true then
      (s.array.reserveBankObliv p t idx).map fun a => ⟨a, t⟩
    else none

def bankMachine (p : BankParams) : Machine BankHistory BankEvent where
  start s := s = ⟨.empty, 0⟩
  step := BankHistory.step p

/-- Two banks, three cycles of latency. -/
def twoBanks : BankParams := ⟨2, 3, 1, by decide⟩

/-- **An oblivious access occupies nothing.** Whatever was reserved before, when one is let in and
reserved at tick `t`, every access of either kind and of any index is let in at `t` and later, as
long as nothing else is reserved; so the banks are not occupied. The index makes no difference. -/
theorem reserveBankObliv_never_occupies (p : BankParams) {s s' : BankHistory} {t idx : Nat}
    (h : s.step p (.reserveBankObliv t idx) = some s') :
    (∀ u, t ≤ u → ∀ j, s'.array.tryAccess p u j = true ∧ s'.array.tryAccessBankObliv p u j = true) ∧
    ¬BankedArray.Occupied p s'.array t ∧
    ∀ idx', s.step p (.reserveBankObliv t idx') = some s' := by
  have hs : s.step p (.reserveBankObliv t idx) =
      if s.now ≤ t ∧ s.array.tryAccessBankObliv p t idx = true then
        (s.array.reserveBankObliv p t idx).map fun a => ⟨a, t⟩
      else none := rfl
  rw [hs, BankedArray.reserveBankObliv_eq, Option.map_some] at h
  split at h
  · next hin =>
    cases h
    have hfree (u : Nat) (hu : t ≤ u) (j : Nat) :=
      BankedArray.free_of_tryAccessBankObliv hin.2 hu j
    refine ⟨hfree, fun hocc => ?_, fun idx' => ?_⟩
    · have hbusy := (hocc t (Nat.le_refl t) (Nat.le_add_right _ _)).1 0
      rw [(hfree t (Nat.le_refl t) 0).1] at hbusy
      cases hbusy
    · simp only [BankHistory.step, BankedArray.reserveBankObliv_eq, Option.map_some]
      exact if_pos hin
  · cases h

/-- Bank 0 is reserved at tick 1. -/
def bankReserved : BankHistory :=
  ((bankMachine twoBanks).run ⟨.empty, 0⟩ [.reserve 1 0]).getD ⟨.empty, 0⟩

/-- The oblivious access waits for the bank, and occupies none. -/
theorem reserveBankObliv_never_occupies_reserved :
    (bankReserved.array.tryAccessBankObliv twoBanks 3 1 = false ∧
      bankReserved.array.tryAccessBankObliv twoBanks 4 1 = true) ∧
    ∃ s', bankReserved.step twoBanks (.reserveBankObliv 4 1) = some s' ∧
      ¬BankedArray.Occupied twoBanks s'.array 4 := by
  obtain ⟨s', hs⟩ : ∃ s', bankReserved.step twoBanks (.reserveBankObliv 4 1) = some s' := ⟨_, rfl⟩
  exact ⟨by decide, s', hs, (reserveBankObliv_never_occupies twoBanks hs).2.1⟩

/-- On an idle array an oblivious access at tick 1 leaves both banks free. -/
theorem reserveBankObliv_leaves_free :
    ¬ ∀ (p : BankParams) (s s' : BankHistory) (t idx : Nat), 1 ≤ p.accessLatency →
      (bankMachine p).Reach s → s.step p (.reserveBankObliv t idx) = some s' →
        BankedArray.Occupied p s'.array t := by
  intro h
  have hocc := h twoBanks ⟨.empty, 0⟩ ⟨.empty, 1⟩ 1 0 (by decide) (.start rfl) rfl
  have hbusy := (hocc 1 (Nat.le_refl 1) (by decide)).1 0
  revert hbusy
  decide

end SdoCore.Mesi
