/-
# Sequential runs of a capacity limiter

A client that calls `Claim` and `Release` one at a time, on elements of any type,
releasing only elements whose `Claim` returned true and that it has not released yet.
A `Ledger` is the limiter together with those held elements; `Ledger.Step` is one call.

Under the bounds of Go's `int` (a capacity and element sizes below `2^63`), every ledger
a fresh limiter reaches keeps `used` equal to the exact, non-wrapped sum of the held
units, within the capacity (`Ledger.Exact`, by `Ledger.exact_step`).  From it,
`ledger_exact`: both limiters of `queue_capacity.go` admit an element exactly when its
units, its `ItemsCount()` or one request, fit in what is left; and `size_le_capacity_of_reachable`: what `Size()` and
`Capacity()` return stays the held units and the capacity, from `0` to the capacity.
-/
import OtelCollector.Limiter.Capacity

namespace QueueCapacity

/-- A limiter and the elements whose `Claim` returned true and that are not released. -/
structure Ledger (α : Type) where
  limiter : QueueCapacityLimiter α
  held : List α

namespace Ledger

variable {α : Type} [DecidableEq α]

/-- The units of the elements `held` under `sizeOf`, summed without wrapping. -/
def units (sizeOf : α → BitVec 64) (held : List α) : Nat :=
  (held.map fun el => (sizeOf el).toNat).sum

omit [DecidableEq α] in
@[simp] theorem units_nil (f : α → BitVec 64) : units f [] = 0 := rfl

omit [DecidableEq α] in
@[simp] theorem units_cons (f : α → BitVec 64) (a : α) (xs : List α) :
    units f (a :: xs) = (f a).toNat + units f xs := by
  simp [units]

theorem units_erase (f : α → BitVec 64) {a : α} {xs : List α} (h : a ∈ xs) :
    (f a).toNat + units f (xs.erase a) = units f xs :=
  List.sum_map_erase (fun el => (f el).toNat) h

/-- One call of a sequential client: `Claim(el)`, after which `el` is held when the call
returned true, or `Release(el)` of a held element. -/
inductive Step : Ledger α → Ledger α → Prop
  | claim (s : Ledger α) (el : α) :
      Step s ⟨(s.limiter.claim el).2, if (s.limiter.claim el).1 then el :: s.held else s.held⟩
  | release (s : Ledger α) (el : α) (h : el ∈ s.held) :
      Step s ⟨s.limiter.release el, s.held.erase el⟩

/-- The ledgers that the limiter `l`, holding nothing, reaches by a finite sequence of calls. -/
def Reachable (l : QueueCapacityLimiter α) (s : Ledger α) : Prop :=
  Relation.ReflTransGen Step ⟨l, []⟩ s

/-- The accounting invariant of a run from `l` with capacity `c`. -/
structure Exact (l : QueueCapacityLimiter α) (c : Nat) (s : Ledger α) : Prop where
  sizeOf_eq : s.limiter.sizeOf = l.sizeOf
  cap_eq : s.limiter.base.cap.toNat = c
  used_eq : s.limiter.base.used.toNat = units l.sizeOf s.held
  units_le : units l.sizeOf s.held ≤ c

section Bounds

variable {l : QueueCapacityLimiter α} {c : Nat}
  (hsize : ∀ el, (l.sizeOf el).toNat < 2 ^ 63) (hc : c < 2 ^ 63)
include hsize hc

omit [DecidableEq α] in
/-- In an exact ledger, `Claim` admits exactly when the element's units fit. -/
theorem Exact.claim_eq {s : Ledger α} (h : Exact l c s) (el : α) :
    s.limiter.claim el =
      if units l.sizeOf s.held + (l.sizeOf el).toNat ≤ c then
        (true, { s.limiter with base := { s.limiter.base with
          used := s.limiter.base.used + s.limiter.sizeOf el } })
      else (false, s.limiter) := by
  have hlt : s.limiter.base.used.toNat + (s.limiter.sizeOf el).toNat < 2 ^ 64 := by
    have := hsize el; have := h.units_le; rw [h.sizeOf_eq, h.used_eq]; omega
  have hiff : s.limiter.base.used.toNat + (s.limiter.sizeOf el).toNat ≤
      s.limiter.base.cap.toNat ↔ units l.sizeOf s.held + (l.sizeOf el).toNat ≤ c := by
    rw [h.used_eq, h.cap_eq, h.sizeOf_eq]
  unfold QueueCapacityLimiter.claim
  rw [BaseCapacityLimiter.claim_eq_of_lt _ _ hlt]
  by_cases hfit : units l.sizeOf s.held + (l.sizeOf el).toNat ≤ c
  · rw [if_pos (hiff.2 hfit), if_pos hfit]
  · rw [if_neg (mt hiff.1 hfit), if_neg hfit]

/-- **The step lemma.**  Every call keeps the accounting exact. -/
theorem exact_step {s t : Ledger α} (h : Exact l c s) (hst : Step s t) : Exact l c t := by
  cases hst with
  | claim el =>
    rw [h.claim_eq hsize hc el]
    split
    · next hfit =>
      have hlt : s.limiter.base.used.toNat + (l.sizeOf el).toNat < 2 ^ 64 := by
        have := hsize el; rw [h.used_eq]; omega
      refine ⟨h.sizeOf_eq, h.cap_eq, ?_, ?_⟩ <;>
        simp only [if_true, units_cons, BitVec.toNat_add, h.sizeOf_eq, Nat.mod_eq_of_lt hlt]
      · rw [h.used_eq]; omega
      · omega
    · exact h
  | release el hel =>
    have hsum := units_erase l.sizeOf hel
    have hle : (s.limiter.sizeOf el).toNat ≤ s.limiter.base.used.toNat := by
      rw [h.used_eq, h.sizeOf_eq]; omega
    refine ⟨h.sizeOf_eq, h.cap_eq, ?_, ?_⟩
    · simp only [QueueCapacityLimiter.release]
      rw [BaseCapacityLimiter.release_toNat _ _ hle, h.used_eq, h.sizeOf_eq]
      omega
    · show units l.sizeOf (s.held.erase el) ≤ c
      have := h.units_le
      omega

/-- **The run lemma.**  Every ledger reached from a fresh limiter is exact. -/
theorem exact_of_reachable (h0 : l.base.used = 0) (hcap : l.base.cap.toNat = c)
    {s : Ledger α} (hs : Reachable l s) : Exact l c s := by
  induction hs with
  | refl => exact ⟨rfl, hcap, by simp [h0], by simp⟩
  | tail _ hst ih => exact exact_step hsize hc ih hst

end Bounds

end Ledger

open Ledger

variable {α : Type} [DecidableEq α]

/-- What every state of a sequential run from the limiter `l` satisfies, for the capacity
`c`: `used` is the exact sum of the held units and at most `c`; `Claim(el)` returns true
exactly when the held units plus `SizeOf(el)` are at most `c`; a refused `Claim` changes
nothing; and a `Release(el)` right after a successful `Claim(el)` restores the limiter. -/
def ExactAccounting (l : QueueCapacityLimiter α) (c : Nat) : Prop :=
  ∀ s, Reachable l s →
    s.limiter.base.used.toNat = units l.sizeOf s.held ∧ units l.sizeOf s.held ≤ c ∧
    (∀ el, (s.limiter.claim el).1 = decide (units l.sizeOf s.held + (l.sizeOf el).toNat ≤ c)) ∧
    (∀ el, (s.limiter.claim el).1 = false → (s.limiter.claim el).2 = s.limiter) ∧
    (∀ el, (s.limiter.claim el).1 = true → (s.limiter.claim el).2.release el = s.limiter)

/-- A fresh limiter with capacity and sizes below `2^63` accounts exactly. -/
theorem exactAccounting_of_bounds (l : QueueCapacityLimiter α) (c : Nat)
    (hsize : ∀ el, (l.sizeOf el).toNat < 2 ^ 63) (hc : c < 2 ^ 63)
    (h0 : l.base.used = 0) (hcap : l.base.cap.toNat = c) : ExactAccounting l c := by
  intro s hs
  have hex := exact_of_reachable hsize hc h0 hcap hs
  refine ⟨hex.used_eq, hex.units_le, fun el => ?_, fun el => ?_, fun el hok => ?_⟩
  · rw [hex.claim_eq hsize hc el]; split <;> simp [*]
  · rw [hex.claim_eq hsize hc el]; split <;> simp_all
  · exact s.limiter.release_claim el hok

omit [DecidableEq α] in
/-- The units of the items limiter are the items, for item counts in `[0, 2^63)`. -/
theorem units_items (itemsCount : α → Int)
    (hitems : ∀ el, 0 ≤ itemsCount el ∧ itemsCount el < 2 ^ 63) (held : List α) :
    (units (fun el => BitVec.ofInt 64 (itemsCount el)) held : Int) = (held.map itemsCount).sum := by
  induction held with
  | nil => rfl
  | cons el held ih =>
    have := hitems el
    simp only [units_cons, BitVec.toNat_ofInt, List.map_cons, List.sum_cons, Nat.cast_add, ih]
    omega

omit [DecidableEq α] in
theorem units_requests (held : List α) : units (fun _ => (1 : BitVec 64)) held = held.length := by
  induction held with
  | nil => rfl
  | cons el held ih =>
    rw [units_cons, ih, List.length_cons, Nat.add_comm]
    rfl

/-- Sequential claims and releases on the items limiter and on the requests limiter of
`queue_capacity.go`, for a capacity in `[0, 2^63)` and item counts in `[0, 2^63)`. -/
theorem ledger_exact (itemsCount : α → Int) (capacity : Int)
    (hitems : ∀ el, 0 ≤ itemsCount el ∧ itemsCount el < 2 ^ 63)
    (hcap : 0 ≤ capacity ∧ capacity < 2 ^ 63) :
    ExactAccounting (newItemsCapacityLimiter itemsCount capacity) capacity.toNat ∧
    ExactAccounting (newRequestsCapacityLimiter (α := α) capacity) capacity.toNat ∧
    (∀ held : List α, (units (newItemsCapacityLimiter itemsCount capacity).sizeOf held : Int) =
      (held.map itemsCount).sum) ∧
    ∀ held : List α, units (newRequestsCapacityLimiter (α := α) capacity).sizeOf held =
      held.length := by
  have hcapNat : (BitVec.ofInt 64 capacity).toNat = capacity.toNat := by
    rw [BitVec.toNat_ofInt]; omega
  have hc : capacity.toNat < 2 ^ 63 := by omega
  refine ⟨exactAccounting_of_bounds _ _ (fun el => ?_) hc rfl hcapNat,
    exactAccounting_of_bounds _ _ (fun _ => by simp [newRequestsCapacityLimiter]) hc rfl hcapNat,
    units_items itemsCount hitems, units_requests⟩
  have := hitems el
  simp only [newItemsCapacityLimiter, BitVec.toNat_ofInt]
  omega

/-- `ledger_exact` at three-item elements and capacity `10`. -/
theorem ledger_exact_three_items :
    (∀ _ : Unit, 0 ≤ (3 : Int) ∧ (3 : Int) < 2 ^ 63) ∧ (0 ≤ (10 : Int) ∧ (10 : Int) < 2 ^ 63) ∧
    ExactAccounting (newItemsCapacityLimiter (fun _ : Unit => 3) 10) 10 ∧
    ExactAccounting (newRequestsCapacityLimiter (α := Unit) 10) 10 ∧
    (∀ held : List Unit,
      (units (newItemsCapacityLimiter (fun _ : Unit => 3) 10).sizeOf held : Int) =
        (held.map fun _ => (3 : Int)).sum) ∧
    ∀ held : List Unit, units (newRequestsCapacityLimiter (α := Unit) 10).sizeOf held =
      held.length :=
  ⟨fun _ => by decide, by decide,
    ledger_exact (fun _ : Unit => 3) 10
      (fun _ => show 0 ≤ (3 : Int) ∧ (3 : Int) < 2 ^ 63 by decide) (by decide)⟩

/-! ## What `Size()` and `Capacity()` return -/

omit [DecidableEq α] in
/-- In an exact ledger with a capacity below `2^63`, the `int` conversions do not wrap:
`Size()` is the held units and `Capacity()` the capacity. -/
theorem Ledger.Exact.size_capacity {l : QueueCapacityLimiter α} {c : Nat} {s : Ledger α}
    (h : Exact l c s) (hc : c < 2 ^ 63) :
    s.limiter.size = units l.sizeOf s.held ∧ s.limiter.capacity = c := by
  have := h.units_le
  constructor
  · rw [QueueCapacityLimiter.size, BaseCapacityLimiter.size, BitVec.toInt_eq_toNat_cond,
      if_pos (by rw [h.used_eq]; omega), h.used_eq]
  · rw [QueueCapacityLimiter.capacity, BaseCapacityLimiter.capacity, BitVec.toInt_eq_toNat_cond,
      if_pos (by rw [h.cap_eq]; omega), h.cap_eq]

/-- **`Size()` and `Capacity()` along sequential runs.**  For a capacity and item counts in
`[0, 2^63)`, in every state of a sequential run of either limiter of `queue_capacity.go`,
`Capacity()` is the capacity and `Size()` is the sum of the held elements' sizes (their
items, or one each), from `0` to `Capacity()`. -/
theorem size_le_capacity_of_reachable (itemsCount : α → Int) (capacity : Int)
    (hitems : ∀ el, 0 ≤ itemsCount el ∧ itemsCount el < 2 ^ 63)
    (hcap : 0 ≤ capacity ∧ capacity < 2 ^ 63) :
    (∀ s, Reachable (newItemsCapacityLimiter itemsCount capacity) s →
      s.limiter.capacity = capacity ∧ s.limiter.size = (s.held.map itemsCount).sum ∧
        0 ≤ s.limiter.size ∧ s.limiter.size ≤ s.limiter.capacity) ∧
    (∀ s, Reachable (newRequestsCapacityLimiter (α := α) capacity) s →
      s.limiter.capacity = capacity ∧ s.limiter.size = s.held.length ∧
        0 ≤ s.limiter.size ∧ s.limiter.size ≤ s.limiter.capacity) := by
  have hcapNat : (BitVec.ofInt 64 capacity).toNat = capacity.toNat := by
    rw [BitVec.toNat_ofInt]; omega
  have hc : capacity.toNat < 2 ^ 63 := by omega
  constructor
  · intro s hs
    have hex := exact_of_reachable (fun el => ?_) hc rfl hcapNat hs
    · obtain ⟨hsize, hcapEq⟩ := hex.size_capacity hc
      have hle := hex.units_le
      have hitemsSum := units_items itemsCount hitems s.held
      refine ⟨by omega, ?_, ?_, ?_⟩ <;>
        simp only [newItemsCapacityLimiter] at hsize hle hitemsSum <;> omega
    · have := hitems el
      simp only [newItemsCapacityLimiter, BitVec.toNat_ofInt]
      omega
  · intro s hs
    have hex := exact_of_reachable (fun _ => by simp [newRequestsCapacityLimiter]) hc rfl hcapNat hs
    obtain ⟨hsize, hcapEq⟩ := hex.size_capacity hc
    have hle := hex.units_le
    simp only [newRequestsCapacityLimiter, units_requests] at hsize hle
    refine ⟨by omega, ?_, ?_, ?_⟩ <;> omega

/-- `size_le_capacity_of_reachable` at three-item elements and capacity `10`. -/
theorem size_le_capacity_of_reachable_three_items :
    (∀ _ : Unit, 0 ≤ (3 : Int) ∧ (3 : Int) < 2 ^ 63) ∧ (0 ≤ (10 : Int) ∧ (10 : Int) < 2 ^ 63) ∧
    (∀ s, Reachable (newItemsCapacityLimiter (fun _ : Unit => 3) 10) s →
      s.limiter.capacity = 10 ∧ s.limiter.size = (s.held.map fun _ => (3 : Int)).sum ∧
        0 ≤ s.limiter.size ∧ s.limiter.size ≤ s.limiter.capacity) ∧
    (∀ s, Reachable (newRequestsCapacityLimiter (α := Unit) 10) s →
      s.limiter.capacity = 10 ∧ s.limiter.size = s.held.length ∧
        0 ≤ s.limiter.size ∧ s.limiter.size ≤ s.limiter.capacity) :=
  ⟨fun _ => by decide, by decide,
    size_le_capacity_of_reachable (fun _ : Unit => 3) 10
      (fun _ => show 0 ≤ (3 : Int) ∧ (3 : Int) < 2 ^ 63 by decide) (by decide)⟩

end QueueCapacity
