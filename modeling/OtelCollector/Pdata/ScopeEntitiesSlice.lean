/-
# `ScopeEntitiesSlice`

`pdata/pentity/generated_scopeentitiesslice.go`.  A `ScopeEntitiesSlice` is the address
of a slice variable (`orig`) and a `State`; the `World` holds the slice variables and the
`otlpentities.ScopeEntities` messages, whose contents are of any type `β` (the zero
message is `default`).  Every method is a function of the world that returns `none`
where the Go code panics: a read-only state, or a nil pointer dereferenced.

`ScopeEntities.CopyTo`, which the slice's `CopyTo` calls per element, is generated into a
file that is not in the repository: `copyEntities` takes it as what its callers show it
to be, a copy of the source message into the destination message.
-/
import OtelCollector.Pdata.GoSlice

namespace Pdata

/-- `internal.State`. -/
inductive State
  | mutable
  | readOnly
  deriving DecidableEq, Repr

/-- `state.AssertMutable()`: panics on a read-only state. -/
def assertMutable (st : State) : Option Unit :=
  if st = .mutable then some () else none

theorem assertMutable_eq_some {st : State} (h : st = .mutable) : assertMutable st = some () := by
  simp [assertMutable, h]

/-- A method that starts with `AssertMutable` and returns returned from a mutable state. -/
theorem assertMutable_bind_eq_some {γ : Type} {st : State} {f : Unit → Option γ} {x : γ}
    (h : (assertMutable st).bind f = some x) : st = .mutable ∧ f () = some x := by
  cases st <;> simp_all [assertMutable]

/-- `ScopeEntities`: a pointer to a message, and the state. -/
structure ScopeEntities where
  orig : Option Addr
  state : State
  deriving DecidableEq, Repr

/-- `ScopeEntitiesSlice`: the address of the slice variable `*orig`, and the state. -/
structure ScopeEntitiesSlice where
  orig : Nat
  state : State
  deriving DecidableEq, Repr

/-- The slice variables and the messages; addresses from `nextHeader` and `nextAddr` on are
free. -/
structure World (β : Type) where
  headers : Nat → GoSlice
  nextHeader : Nat
  heap : Addr → β
  nextAddr : Addr

variable {β : Type}

namespace World

/-- `*orig = s`. -/
def setHeader (w : World β) (h : Nat) (s : GoSlice) : World β :=
  { w with headers := Function.update w.headers h s }

@[simp] theorem headers_setHeader (w : World β) (h : Nat) (s : GoSlice) (h' : Nat) :
    (w.setHeader h s).headers h' = if h' = h then s else w.headers h' := by
  simp [setHeader, Function.update_apply]

@[simp] theorem heap_setHeader (w : World β) (h : Nat) (s : GoSlice) :
    (w.setHeader h s).heap = w.heap := rfl

@[simp] theorem nextAddr_setHeader (w : World β) (h : Nat) (s : GoSlice) :
    (w.setHeader h s).nextAddr = w.nextAddr := rfl

@[simp] theorem nextHeader_setHeader (w : World β) (h : Nat) (s : GoSlice) :
    (w.setHeader h s).nextHeader = w.nextHeader := rfl

variable [Inhabited β] in
/-- `&otlpentities.ScopeEntities{}`: a zero message at the next free address. -/
def alloc (w : World β) : World β × Addr :=
  ({ w with heap := Function.update w.heap w.nextAddr default, nextAddr := w.nextAddr + 1 },
    w.nextAddr)

variable [Inhabited β] in
@[simp] theorem headers_alloc (w : World β) : w.alloc.1.headers = w.headers := rfl

variable [Inhabited β] in
@[simp] theorem nextAddr_alloc (w : World β) : w.alloc.1.nextAddr = w.nextAddr + 1 := rfl

variable [Inhabited β] in
@[simp] theorem alloc_snd (w : World β) : w.alloc.2 = w.nextAddr := rfl

end World

/-- `NewScopeEntitiesSlice()`: a new slice variable holding `nil`. -/
def newScopeEntitiesSlice (w : World β) : World β × ScopeEntitiesSlice :=
  ({ w with headers := Function.update w.headers w.nextHeader GoSlice.nil
            nextHeader := w.nextHeader + 1 }, ⟨w.nextHeader, .mutable⟩)

/-- `ScopeEntities.CopyTo(dest)`, copying the message `src` points to into the one `dest`
points to; a nil pointer panics. -/
def copyEntities (heap : Addr → β) (src dest : Option Addr) : Option (Addr → β) :=
  match src, dest with
  | some a, some b => some (Function.update heap b (heap a))
  | _, _ => none

/-- The loop `for i := range *es.orig` of `CopyTo`: element `i` of `srcs` is copied into
element `i` of `dests`. -/
def copyLoop : (Addr → β) → List (Option Addr) → List (Option Addr) → Option (Addr → β)
  | heap, [], _ => some heap
  | heap, a :: as, b :: bs => (copyEntities heap a b).bind fun heap' => copyLoop heap' as bs
  | _, _ :: _, [] => none

/-- The compaction loop of `RemoveIf`, at index `i` with `k` iterations left, `newLen`
elements kept, over the array `slots`, with the callback in state `s`. -/
def removeIfLoop {σ : Type} (f : σ → ScopeEntities → Bool × σ) (st : State) :
    Nat → Nat → Nat → List (Option Addr) → σ → Nat × List (Option Addr) × σ
  | 0, _, newLen, slots, s => (newLen, slots, s)
  | k + 1, i, newLen, slots, s =>
    let e := slots.getD i none
    let r := f s ⟨e, st⟩
    if r.1 then removeIfLoop f st k (i + 1) newLen slots r.2
    else if newLen = i then removeIfLoop f st k (i + 1) (newLen + 1) slots r.2
    else removeIfLoop f st k (i + 1) (newLen + 1) (slots.set newLen e) r.2

theorem getD_mem_or_eq {α : Type} (l : List α) (i : Nat) (d : α) :
    l.getD i d ∈ l ∨ l.getD i d = d := by
  rw [List.getD_eq_getElem?_getD]
  cases h : l[i]?
  · simp
  · exact .inl (List.getElem?_mem h)

/-- The compaction loop writes only pointers it read from the slots. -/
theorem mem_removeIfLoop {σ : Type} (f : σ → ScopeEntities → Bool × σ) (st : State) :
    ∀ k i newLen slots s x, x ∈ (removeIfLoop f st k i newLen slots s).2.1 → x ∈ slots ∨ x = none
  | 0, _, _, _, _, _, h => .inl h
  | k + 1, i, newLen, slots, s, x, h => by
    simp only [removeIfLoop] at h
    split_ifs at h
    · exact mem_removeIfLoop f st k _ _ _ _ x h
    · exact mem_removeIfLoop f st k _ _ _ _ x h
    · rcases mem_removeIfLoop f st k _ _ _ _ x h with h | h
      · rcases List.mem_or_eq_of_mem_set h with h | rfl
        · exact .inl h
        · exact getD_mem_or_eq slots i none
      · exact .inr h

theorem length_removeIfLoop {σ : Type} (f : σ → ScopeEntities → Bool × σ) (st : State) :
    ∀ k i newLen slots s, (removeIfLoop f st k i newLen slots s).2.1.length = slots.length
  | 0, _, _, _, _ => rfl
  | k + 1, i, newLen, slots, s => by
    simp only [removeIfLoop]
    split_ifs
    · exact length_removeIfLoop f st k _ _ _ _
    · exact length_removeIfLoop f st k _ _ _ _
    · rw [length_removeIfLoop f st k, List.length_set]

theorem removeIfLoop_le {σ : Type} (f : σ → ScopeEntities → Bool × σ) (st : State) :
    ∀ k i newLen slots s, (removeIfLoop f st k i newLen slots s).1 ≤ newLen + k
  | 0, _, _, _, _ => le_refl _
  | k + 1, i, newLen, slots, s => by
    simp only [removeIfLoop]
    split_ifs
    · exact (removeIfLoop_le f st k _ _ _ _).trans (by omega)
    · exact (removeIfLoop_le f st k _ _ _ _).trans (by omega)
    · exact (removeIfLoop_le f st k _ _ _ _).trans (by omega)

namespace ScopeEntitiesSlice

variable {σ : Type}

/-- The slice variable `*es.orig`. -/
def slice (w : World β) (es : ScopeEntitiesSlice) : GoSlice := w.headers es.orig

@[simp] theorem slice_setHeader (w : World β) (h : Nat) (s : GoSlice) (es : ScopeEntitiesSlice) :
    slice (w.setHeader h s) es = if es.orig = h then s else slice w es := by
  simp [slice]

@[simp] theorem slice_mk (w : World β) (n : Nat) (heap : Addr → β) (a : Addr)
    (es : ScopeEntitiesSlice) : slice ⟨w.headers, n, heap, a⟩ es = slice w es := rfl

/-- `Len()`. -/
def len (w : World β) (es : ScopeEntitiesSlice) : Nat := (slice w es).len

/-- `At(i)`: panics out of range. -/
def at' (w : World β) (es : ScopeEntitiesSlice) (i : Nat) : Option ScopeEntities :=
  if i < len w es then some ⟨(slice w es).slots.getD i none, es.state⟩ else none

/-- `EnsureCapacity(newCap)`. -/
def ensureCapacity (w : World β) (es : ScopeEntitiesSlice) (newCap : Int) :
    Option (World β) :=
  (assertMutable es.state).bind fun _ =>
    if newCap ≤ ((slice w es).cap : Int) then some w
    else some (w.setHeader es.orig ((slice w es).withCap newCap.toNat))

variable [Inhabited β] in
/-- `AppendEmpty()`: appends a pointer to a new zero message and returns the element. -/
def appendEmpty (rt : GoRuntime) (w : World β) (es : ScopeEntitiesSlice) :
    Option (World β × ScopeEntities) :=
  (assertMutable es.state).bind fun _ =>
    let a := w.alloc
    some (a.1.setHeader es.orig ((slice a.1 es).append rt [some a.2]), ⟨some a.2, es.state⟩)

/-- `MoveAndAppendTo(dest)`: a `nil` destination takes the whole slice, any other gets it
appended; then `*es.orig = nil`. -/
def moveAndAppendTo (rt : GoRuntime) (w : World β) (es dest : ScopeEntitiesSlice) :
    Option (World β) :=
  (assertMutable es.state).bind fun _ => (assertMutable dest.state).bind fun _ =>
    let moved := if (slice w dest).array = none then slice w es
      else (slice w dest).append rt (slice w es).elems
    some ((w.setHeader dest.orig moved).setHeader es.orig GoSlice.nil)

/-- `RemoveIf(f)`, for a callback `f` with state of its own: the compaction loop, then
`*es.orig = (*es.orig)[:newLen]`.  Returns the callback's final state. -/
def removeIf (w : World β) (es : ScopeEntitiesSlice) (f : σ → ScopeEntities → Bool × σ)
    (s₀ : σ) : Option (World β × σ) :=
  (assertMutable es.state).bind fun _ =>
    let sl := slice w es
    let r := removeIfLoop f es.state sl.len 0 0 sl.slots s₀
    some (w.setHeader es.orig (sl.withSlots r.2.1 r.1
      (by simpa using removeIfLoop_le f es.state sl.len 0 0 sl.slots s₀)
      (by rw [length_removeIfLoop]; exact sl.len_le)), r.2.2)

variable [Inhabited β] in
/-- The zero messages of `make([]otlpentities.ScopeEntities, n)`, at `n` free addresses. -/
def allocMany (w : World β) (n : Nat) : World β :=
  { w with
    heap := fun a => if w.nextAddr ≤ a ∧ a < w.nextAddr + n then default else w.heap a
    nextAddr := w.nextAddr + n }

variable [Inhabited β] in
/-- `CopyTo(dest)`: with enough capacity, reslice the destination and copy into the
messages its slots point to; otherwise copy into `len` new messages. -/
def copyTo (w : World β) (es dest : ScopeEntitiesSlice) : Option (World β) :=
  (assertMutable dest.state).bind fun _ =>
    let srcLen := len w es
    if h : srcLen ≤ (slice w dest).cap then
      let w₁ := w.setHeader dest.orig ((slice w dest).reslice srcLen h)
      (copyLoop w₁.heap (slice w₁ es).elems (slice w₁ dest).elems).map fun heap =>
        { w₁ with heap := heap }
    else
      let w₁ := allocMany w srcLen
      let wrappers := (List.range srcLen).map fun i => some (w.nextAddr + i)
      (copyLoop w₁.heap (slice w es).elems wrappers).map fun heap =>
        { w₁ with heap := heap }.setHeader dest.orig ⟨some wrappers, srcLen, by simp [wrappers]⟩

/-- `Sort(less)`: `sort.SliceStable`, the stable merge sort by `less`. -/
def sort (w : World β) (es : ScopeEntitiesSlice) (less : ScopeEntities → ScopeEntities → Bool) :
    Option (World β) :=
  (assertMutable es.state).bind fun _ =>
    let sl := slice w es
    let sorted := ((sl.elems.map fun e => (⟨e, es.state⟩ : ScopeEntities)).mergeSort
      fun a b => !less b a).map ScopeEntities.orig
    some (w.setHeader es.orig (sl.withSlots (sorted ++ sl.slots.drop sl.len) sl.len le_rfl
      (by simp [sorted, List.length_mergeSort, GoSlice.length_elems])))

end ScopeEntitiesSlice

/-- A setter of a `ScopeEntities` (`SetSchemaUrl`, ...): replaces the message's content. -/
def ScopeEntities.set (w : World β) (e : ScopeEntities) (v : β) : Option (World β) :=
  (assertMutable e.state).bind fun _ =>
    e.orig.map fun a => { w with heap := Function.update w.heap a v }

end Pdata
