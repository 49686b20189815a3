/-
# Go slices of message pointers

The generated pdata slices hold `*[]*otlpentities.ScopeEntities`: a pointer to a Go
slice whose elements point to messages.  A `GoSlice` is the slice value: `nil`, or a
backing array, as long as the capacity, whose first `len` slots are the elements.  The
slots past `len` keep what the array held: `nil` from `make`, or a pointer left behind.

No operation here shares a backing array between two slice variables (an array passes
whole from one variable to another in `MoveAndAppendTo`), so a slice owns its array and
is a value.  `append` grows into a new array with the capacity the Go runtime picks,
which the language leaves open: `GoRuntime` is that choice, at least what is needed.
-/
import Mathlib

namespace Pdata

/-- The address of a message. -/
abbrev Addr := Nat

/-- A Go slice of pointers: `nil` (`array = none`), or a backing array of pointer slots
(`none` is a nil pointer) of which the first `len` are the elements. -/
structure GoSlice where
  array : Option (List (Option Addr))
  len : Nat
  len_le : len ≤ (array.getD []).length

/-- How the Go runtime sizes the array `append` grows into: given the old capacity and the
length needed, a capacity at least that length. -/
structure GoRuntime where
  growCap : Nat → Nat → Nat
  le_growCap : ∀ c n, n ≤ growCap c n

/-- The runtime that doubles the capacity, or takes what is needed when that is more. -/
def GoRuntime.doubling : GoRuntime :=
  ⟨fun c n => max n (2 * c), fun _ _ => le_max_left _ _⟩

namespace GoSlice

/-- The slots of the backing array (none for `nil`). -/
def slots (s : GoSlice) : List (Option Addr) := s.array.getD []

/-- `cap(s)`. -/
def cap (s : GoSlice) : Nat := s.slots.length

/-- The elements `s[0], ..., s[len(s)-1]`. -/
def elems (s : GoSlice) : List (Option Addr) := s.slots.take s.len

theorem length_elems (s : GoSlice) : s.elems.length = s.len := by
  unfold elems; rw [List.length_take]; exact Nat.min_eq_left s.len_le

/-- The `nil` slice. -/
def nil : GoSlice := ⟨none, 0, Nat.zero_le _⟩

/-- `s[:n]` and `s[:n:cap(s)]`, for `n ≤ cap(s)`: the same array, length `n`. -/
def reslice (s : GoSlice) (n : Nat) (h : n ≤ s.cap) : GoSlice := ⟨s.array, n, h⟩

/-- `make([]*T, len(s), c)` followed by `copy(·, s)`: a new array of capacity `c` whose
first `len(s)` slots are the elements and the rest `nil`. -/
def withCap (s : GoSlice) (c : Nat) : GoSlice :=
  ⟨some (s.elems ++ List.replicate (c - s.len) none), s.len, by simp [length_elems]⟩

/-- The slice after writes into its array left the slots `slots'`, resliced to `n`. -/
def withSlots (s : GoSlice) (slots' : List (Option Addr)) (n : Nat) (hn : n ≤ s.len)
    (hs : s.len ≤ slots'.length) : GoSlice :=
  ⟨s.array.map fun _ => slots', n, by
    have := s.len_le
    cases h : s.array with
    | none => simp only [h, Option.getD_none, List.length_nil] at this ⊢; omega
    | some a => simp only [Option.map_some', Option.getD_some]; omega⟩

/-- The array `append` writes `xs` into: the same one when they fit in the capacity, a
new one of the capacity `rt` picks otherwise. -/
def appendSlots (rt : GoRuntime) (s : GoSlice) (xs : List (Option Addr)) :
    List (Option Addr) :=
  if s.len + xs.length ≤ s.cap then s.elems ++ xs ++ s.slots.drop (s.len + xs.length)
  else s.elems ++ xs ++
    List.replicate (rt.growCap s.cap (s.len + xs.length) - (s.len + xs.length)) none

theorem length_appendSlots (rt : GoRuntime) (s : GoSlice) (xs : List (Option Addr)) :
    s.len + xs.length ≤ (appendSlots rt s xs).length := by
  unfold appendSlots
  split <;> simp [length_elems]

/-- `append(s, xs...)`: `s` itself when there is nothing to append. -/
def append (rt : GoRuntime) (s : GoSlice) (xs : List (Option Addr)) : GoSlice :=
  if xs = [] then s
  else ⟨some (appendSlots rt s xs), s.len + xs.length, length_appendSlots rt s xs⟩

theorem mem_slots_of_mem_elems {s : GoSlice} {x : Option Addr} (h : x ∈ s.elems) :
    x ∈ s.slots :=
  List.mem_of_mem_take h

@[simp] theorem slots_nil : nil.slots = [] := rfl

@[simp] theorem len_nil : nil.len = 0 := rfl

@[simp] theorem elems_nil : nil.elems = [] := rfl

@[simp] theorem slots_reslice (s : GoSlice) (n : Nat) (h : n ≤ s.cap) :
    (s.reslice n h).slots = s.slots := rfl

@[simp] theorem len_reslice (s : GoSlice) (n : Nat) (h : n ≤ s.cap) :
    (s.reslice n h).len = n := rfl

@[simp] theorem len_withSlots (s : GoSlice) (slots' : List (Option Addr)) (n : Nat)
    (hn : n ≤ s.len) (hs : s.len ≤ slots'.length) : (s.withSlots slots' n hn hs).len = n := rfl

theorem mem_slots_withSlots {s : GoSlice} {slots' : List (Option Addr)} {n : Nat}
    {hn : n ≤ s.len} {hs : s.len ≤ slots'.length} {x : Option Addr}
    (h : x ∈ (s.withSlots slots' n hn hs).slots) : x ∈ slots' := by
  simp only [slots, withSlots] at h
  cases ha : s.array <;> simp_all

theorem elems_withSlots (s : GoSlice) (slots' : List (Option Addr)) (n : Nat)
    (hn : n ≤ s.len) (hs : s.len ≤ slots'.length) :
    (s.withSlots slots' n hn hs).elems = slots'.take n := by
  have := s.len_le
  simp only [elems, slots, withSlots]
  cases h : s.array with
  | none => simp only [h, Option.getD_none, List.length_nil] at this ⊢; simp [show n = 0 by omega]
  | some a => rfl

@[simp] theorem elems_reslice (s : GoSlice) (n : Nat) (h : n ≤ s.cap) :
    (s.reslice n h).elems = s.slots.take n := rfl

@[simp] theorem slots_withCap (s : GoSlice) (c : Nat) :
    (s.withCap c).slots = s.elems ++ List.replicate (c - s.len) none := rfl

@[simp] theorem len_withCap (s : GoSlice) (c : Nat) : (s.withCap c).len = s.len := rfl

@[simp] theorem elems_withCap (s : GoSlice) (c : Nat) : (s.withCap c).elems = s.elems :=
  List.take_left' (length_elems s)

/-- `append` appends to the elements. -/
theorem elems_append (rt : GoRuntime) (s : GoSlice) (xs : List (Option Addr)) :
    (s.append rt xs).elems = s.elems ++ xs := by
  unfold append
  split
  · simp_all
  · have hlen : (s.elems ++ xs).length = s.len + xs.length := by simp [length_elems]
    show (appendSlots rt s xs).take (s.len + xs.length) = _
    unfold appendSlots
    split <;> exact List.take_left' hlen

/-- Every slot after `append` is a slot of `s` or one of `xs`. -/
theorem mem_slots_append {rt : GoRuntime} {s : GoSlice} {xs : List (Option Addr)}
    {x : Option Addr} (h : x ∈ (s.append rt xs).slots) : x ∈ s.slots ∨ x ∈ xs ∨ x = none := by
  unfold append at h
  split at h
  · exact Or.inl h
  · simp only [slots, Option.getD_some, appendSlots] at h
    have hel : ∀ y ∈ s.elems, y ∈ s.slots := fun y hy => List.mem_of_mem_take hy
    split at h <;> simp only [List.mem_append] at h
    · rcases h with (h | h) | h
      · exact Or.inl (hel x h)
      · exact Or.inr (Or.inl h)
      · exact Or.inl (List.mem_of_mem_drop h)
    · rcases h with (h | h) | h
      · exact Or.inl (hel x h)
      · exact Or.inr (Or.inl h)
      · exact Or.inr (Or.inr (List.eq_of_mem_replicate h))

end GoSlice

end Pdata
