/-
# The queue capacity limiter

`exporter/exporterhelper/internal/queue_capacity.go`: the admission counter of the
exporter queue.  A `baseCapacityLimiter` holds the units in use (`used`, an
`atomic.Uint64`) and the capacity (`cap`); the two `QueueCapacityLimiter`
implementations differ only in `SizeOf`: the items limiter counts an element's items,
the requests limiter counts every element as one unit.

Go's `uint64` is `BitVec 64`; Go's `int` is `Int`, and the conversions `uint64(x)` and
`int(x)` are `BitVec.ofInt 64` and `BitVec.toInt`.

Main results:
* `claim_eq_of_lt` — below the wrap-around, `claim` admits exactly when `used` plus the
  claimed units is at most `cap`, and a refused `claim` changes nothing;
* `release_toNat` — `release` subtracts exactly when the units are in use;
* `release_claim` — a `release` right after a successful `claim` of the same units
  restores the limiter, for every size, `0` included.
-/
import Mathlib

namespace QueueCapacity

/-! ## `baseCapacityLimiter` -/

/-- `baseCapacityLimiter`: the units in use and the capacity. -/
structure BaseCapacityLimiter where
  used : BitVec 64
  cap : BitVec 64
  deriving DecidableEq, Repr

/-- `newBaseCapacityLimiter(capacity)`: nothing in use, `cap = uint64(capacity)`. -/
def newBaseCapacityLimiter (capacity : Int) : BaseCapacityLimiter :=
  { used := 0, cap := BitVec.ofInt 64 capacity }

namespace BaseCapacityLimiter

/-- `Capacity()`: `int(bcl.cap)`. -/
def capacity (bcl : BaseCapacityLimiter) : Int := bcl.cap.toInt

/-- `Size()`: `int(bcl.used.Load())`. -/
def size (bcl : BaseCapacityLimiter) : Int := bcl.used.toInt

/-- `claim(claimed)`: refuse when `used + claimed > cap` (a wrapping `uint64` sum),
otherwise add `claimed` to `used`. -/
def claim (bcl : BaseCapacityLimiter) (claimed : BitVec 64) : Bool × BaseCapacityLimiter :=
  if bcl.used + claimed > bcl.cap then (false, bcl)
  else (true, { bcl with used := bcl.used + claimed })

/-- `release(capacity)`: `used.Add(^(capacity - 1))`, the two's-complement subtraction. -/
def release (bcl : BaseCapacityLimiter) (capacity : BitVec 64) : BaseCapacityLimiter :=
  { bcl with used := bcl.used + ~~~(capacity - 1) }

@[simp] theorem release_cap (bcl : BaseCapacityLimiter) (c : BitVec 64) :
    (bcl.release c).cap = bcl.cap := rfl

@[simp] theorem claim_cap (bcl : BaseCapacityLimiter) (c : BitVec 64) :
    (bcl.claim c).2.cap = bcl.cap := by
  unfold claim; split <;> rfl

/-- Below the wrap-around the admission check is the plain comparison of sums. -/
theorem claim_eq_of_lt (bcl : BaseCapacityLimiter) (c : BitVec 64)
    (h : bcl.used.toNat + c.toNat < 2 ^ 64) :
    bcl.claim c = if bcl.used.toNat + c.toNat ≤ bcl.cap.toNat
      then (true, { bcl with used := bcl.used + c }) else (false, bcl) := by
  have hsum : (bcl.used + c).toNat = bcl.used.toNat + c.toNat := by
    rw [BitVec.toNat_add, Nat.mod_eq_of_lt h]
  unfold claim
  by_cases hle : bcl.used.toNat + c.toNat ≤ bcl.cap.toNat
  · rw [if_neg (by rw [gt_iff_lt, BitVec.lt_def]; omega), if_pos hle]
  · rw [if_pos (by rw [gt_iff_lt, BitVec.lt_def]; omega), if_neg hle]

/-- `release` subtracts exactly, without wrapping, the units that are in use. -/
theorem release_toNat (bcl : BaseCapacityLimiter) (c : BitVec 64)
    (h : c.toNat ≤ bcl.used.toNat) :
    (bcl.release c).used.toNat = bcl.used.toNat - c.toNat := by
  simp only [release]
  bv_omega

/-- **Release undoes claim.**  For every size, `0` included (where `capacity - 1`
wraps to `2^64 - 1` and `^(capacity - 1)` is `0`), releasing what a successful
`claim` took restores the limiter. -/
theorem release_claim (bcl : BaseCapacityLimiter) (c : BitVec 64)
    (h : (bcl.claim c).1 = true) : (bcl.claim c).2.release c = bcl := by
  unfold claim at h ⊢
  split at h
  · cases h
  · rw [if_neg ‹_›]
    simp only [release]
    congr 1
    bv_omega

end BaseCapacityLimiter

/-! ## The two `QueueCapacityLimiter` implementations -/

/-- A `QueueCapacityLimiter[T]`: its `SizeOf` and its `baseCapacityLimiter`.  `Claim`
and `Release` of both implementations pass `SizeOf(el)` to `claim` and `release`. -/
structure QueueCapacityLimiter (α : Type) where
  sizeOf : α → BitVec 64
  base : BaseCapacityLimiter

namespace QueueCapacityLimiter

variable {α : Type}

/-- `Capacity()`. -/
def capacity (l : QueueCapacityLimiter α) : Int := l.base.capacity

/-- `Size()`. -/
def size (l : QueueCapacityLimiter α) : Int := l.base.size

/-- `Claim(el)`: `claim(SizeOf(el))` on the embedded limiter. -/
def claim (l : QueueCapacityLimiter α) (el : α) : Bool × QueueCapacityLimiter α :=
  let r := l.base.claim (l.sizeOf el)
  (r.1, { l with base := r.2 })

/-- `Release(el)`: `release(SizeOf(el))` on the embedded limiter. -/
def release (l : QueueCapacityLimiter α) (el : α) : QueueCapacityLimiter α :=
  { l with base := l.base.release (l.sizeOf el) }

@[simp] theorem claim_sizeOf (l : QueueCapacityLimiter α) (el : α) :
    (l.claim el).2.sizeOf = l.sizeOf := rfl

@[simp] theorem release_sizeOf (l : QueueCapacityLimiter α) (el : α) :
    (l.release el).sizeOf = l.sizeOf := rfl

@[simp] theorem claim_cap (l : QueueCapacityLimiter α) (el : α) :
    (l.claim el).2.base.cap = l.base.cap :=
  BaseCapacityLimiter.claim_cap _ _

@[simp] theorem release_cap (l : QueueCapacityLimiter α) (el : α) :
    (l.release el).base.cap = l.base.cap := rfl

/-- `Release(el)` right after a successful `Claim(el)` restores the limiter. -/
theorem release_claim (l : QueueCapacityLimiter α) (el : α) (h : (l.claim el).1 = true) :
    (l.claim el).2.release el = l := by
  simp only [claim, release, BaseCapacityLimiter.release_claim _ _ h]

end QueueCapacityLimiter

/-- `NewItemsCapacityLimiter(capacity)`: `SizeOf(el) = uint64(el.ItemsCount())`. -/
def newItemsCapacityLimiter {α : Type} (itemsCount : α → Int) (capacity : Int) :
    QueueCapacityLimiter α :=
  { sizeOf := fun el => BitVec.ofInt 64 (itemsCount el)
    base := newBaseCapacityLimiter capacity }

/-- `NewRequestsCapacityLimiter(capacity)`: `SizeOf(_) = 1`. -/
def newRequestsCapacityLimiter {α : Type} (capacity : Int) : QueueCapacityLimiter α :=
  { sizeOf := fun _ => 1
    base := newBaseCapacityLimiter capacity }

end QueueCapacity
