/-
# `CopyTo` over reachable slices

The worlds a program reaches from no slice at all by calling `NewScopeEntitiesSlice`,
the slice methods and the setters of elements (`Reachable`).  Every such world is
`WellFormed`: no element is a nil pointer, and no message pointer sits in the slots of
two slice variables (`wellFormed_of_reachable`); so a setter on an element of one slice
changes no other slice (`set_preserves_other_views`).  Spare slots are another matter:
`EnsureCapacity` fills them with nil, and `RemoveIf` leaves behind pointers to messages
that are still elements.

`CopyTo` reuses the destination's slots when they are enough.  With fresh or distinct
non-nil slots it does what `CopyContract` says a copy is for
(`copyTo_contract_of_reachable`); through a nil or a repeated spare slot it panics or
makes two elements one message (`copyTo_reuses_spare_slots`).
-/
import OtelCollector.Pdata.RemoveIf
import OtelCollector.Pdata.MoveTo

namespace Pdata

open ScopeEntitiesSlice

variable {β : Type}

/-! ## Reachable worlds -/

/-- A call on the slices: the slice variables it is made on and, for a setter, the index of
the element `At` gave it. -/
inductive Call
  | new
  | ensureCapacity (h : Nat)
  | appendEmpty (h : Nat)
  | removeIf (h : Nat)
  | moveAndAppendTo (e d : Nat)
  | copyTo (e d : Nat)
  | sort (h : Nat)
  | set (h i : Nat)
  deriving DecidableEq, Repr

/-- One call `c` that returns, on slices made by `NewScopeEntitiesSlice`: a slice method, or
a setter of an element got from `At`.  `fits w es dest` says which copies are made. -/
inductive Step [Inhabited β] (rt : GoRuntime)
    (fits : World β → ScopeEntitiesSlice → ScopeEntitiesSlice → Prop) :
    Call → World β → World β → Prop
  | new (w : World β) : Step rt fits .new w (newScopeEntitiesSlice w).1
  | ensureCapacity {w w' : World β} (es : ScopeEntitiesSlice) (newCap : Int)
      (hes : es.orig < w.nextHeader) :
      ensureCapacity w es newCap = some w' → Step rt fits (.ensureCapacity es.orig) w w'
  | appendEmpty {w w' : World β} (es : ScopeEntitiesSlice) (e : ScopeEntities)
      (hes : es.orig < w.nextHeader) :
      appendEmpty rt w es = some (w', e) → Step rt fits (.appendEmpty es.orig) w w'
  | removeIf {w w' : World β} {σ : Type} (es : ScopeEntitiesSlice)
      (f : σ → ScopeEntities → Bool × σ) (s₀ s : σ) (hes : es.orig < w.nextHeader) :
      removeIf w es f s₀ = some (w', s) → Step rt fits (.removeIf es.orig) w w'
  | moveAndAppendTo {w w' : World β} (es dest : ScopeEntitiesSlice)
      (hes : es.orig < w.nextHeader) (hdest : dest.orig < w.nextHeader) :
      moveAndAppendTo rt w es dest = some w' →
      Step rt fits (.moveAndAppendTo es.orig dest.orig) w w'
  | copyTo {w w' : World β} (es dest : ScopeEntitiesSlice)
      (hes : es.orig < w.nextHeader) (hdest : dest.orig < w.nextHeader) (hfit : fits w es dest) :
      copyTo w es dest = some w' → Step rt fits (.copyTo es.orig dest.orig) w w'
  | sort {w w' : World β} (es : ScopeEntitiesSlice) (less : ScopeEntities → ScopeEntities → Bool)
      (hes : es.orig < w.nextHeader) : sort w es less = some w' → Step rt fits (.sort es.orig) w w'
  | set {w w' : World β} (es : ScopeEntitiesSlice) (i : Nat) (e : ScopeEntities) (v : β)
      (hes : es.orig < w.nextHeader) : at' w es i = some e → ScopeEntities.set w e v = some w' →
      Step rt fits (.set es.orig i) w w'

/-- Every copy is made. -/
def anyCopy : World β → ScopeEntitiesSlice → ScopeEntitiesSlice → Prop := fun _ _ _ => True

/-- One call, whichever. -/
def Steps [Inhabited β] (rt : GoRuntime)
    (fits : World β → ScopeEntitiesSlice → ScopeEntitiesSlice → Prop) (w w' : World β) : Prop :=
  ∃ c, Step rt fits c w w'

/-- No slice variable and no message yet. -/
def World.empty [Inhabited β] : World β := ⟨fun _ => GoSlice.nil, 0, fun _ => default, 0⟩

/-- The worlds reachable from `World.empty`. -/
def Reachable [Inhabited β] (rt : GoRuntime) (w : World β) : Prop :=
  Relation.ReflTransGen (Steps rt anyCopy) World.empty w

theorem reachable_empty [Inhabited β] (rt : GoRuntime) : Reachable rt (World.empty : World β) :=
  .refl

theorem Reachable.step [Inhabited β] {rt : GoRuntime} {w w' : World β} {c : Call}
    (h : Reachable rt w) (hstep : Step rt anyCopy c w w') : Reachable rt w' :=
  h.tail ⟨c, hstep⟩

/-! ## The invariant -/

/-- What holds of the slice variables `headers` when the messages allocated so far are
those below `next`. -/
structure WellFormed (headers : Nat → GoSlice) (next : Addr) : Prop where
  none_not_mem_elems : ∀ h, none ∉ (headers h).elems
  lt_next : ∀ h a, some a ∈ (headers h).slots → a < next
  owner_unique : ∀ h₁ h₂ a, some a ∈ (headers h₁).slots → some a ∈ (headers h₂).slots → h₁ = h₂

variable {headers : Nat → GoSlice} {next : Addr}

theorem wellFormed_empty : WellFormed (fun _ => GoSlice.nil) 0 :=
  ⟨fun _ => by simp, fun _ _ h => by simp at h, fun _ _ _ h => by simp at h⟩

theorem mem_slots_update {o h : Nat} {s : GoSlice} {x : Option Addr}
    (hx : x ∈ (Function.update headers o s h).slots) (hne : h ≠ o) : x ∈ (headers h).slots := by
  simpa [hne] using hx

/-- **One slice variable changes**, to slots it held or that point to new messages. -/
theorem WellFormed.update (hw : WellFormed headers next) {next' : Addr} (o : Nat) (s : GoSlice)
    (hnext : next ≤ next')
    (hslots : ∀ a, some a ∈ s.slots → some a ∈ (headers o).slots ∨ next ≤ a ∧ a < next')
    (helems : none ∉ s.elems) : WellFormed (Function.update headers o s) next' := by
  have cross : ∀ h a, h ≠ o → some a ∈ (Function.update headers o s h).slots →
      some a ∉ s.slots := fun h a hne ha hs => by
    have hold := mem_slots_update ha hne
    rcases hslots a hs with ho | ⟨hle, -⟩
    · exact hne (hw.owner_unique _ _ _ hold ho)
    · exact absurd (hw.lt_next _ _ hold) (not_lt.2 hle)
  refine ⟨fun h => ?_, fun h a ha => ?_, fun h₁ h₂ a ha₁ ha₂ => ?_⟩
  · rcases eq_or_ne h o with rfl | hne
    · simpa using helems
    · simpa [hne] using hw.none_not_mem_elems h
  · rcases eq_or_ne h o with rfl | hne
    · rcases hslots a (by simpa using ha) with ho | ⟨-, hlt⟩
      · exact (hw.lt_next _ _ ho).trans_le hnext
      · exact hlt
    · exact (hw.lt_next h a (mem_slots_update ha hne)).trans_le hnext
  · by_contra hne
    rcases eq_or_ne h₁ o with rfl | h₁o
    · exact cross h₂ a (Ne.symm hne) ha₂ (by simpa using ha₁)
    rcases eq_or_ne h₂ o with rfl | h₂o
    · exact cross h₁ a hne ha₁ (by simpa using ha₂)
    exact hne (hw.owner_unique _ _ _ (mem_slots_update ha₁ h₁o) (mem_slots_update ha₂ h₂o))

/-- **A move between two slice variables**: `d` gets slots from `d` and `e`, then `e`
is `nil`. -/
theorem WellFormed.move (hw : WellFormed headers next) (d e : Nat) (s : GoSlice)
    (hslots : ∀ a, some a ∈ s.slots → some a ∈ (headers d).slots ∨ some a ∈ (headers e).slots)
    (helems : none ∉ s.elems) :
    WellFormed (Function.update (Function.update headers d s) e GoSlice.nil) next := by
  have hsrc : ∀ h a,
      some a ∈ (Function.update (Function.update headers d s) e GoSlice.nil h).slots →
      h ≠ e ∧ (h = d ∧ some a ∈ s.slots ∨ h ≠ d ∧ some a ∈ (headers h).slots) := fun h a ha => by
    rcases eq_or_ne h e with rfl | he
    · simp at ha
    rcases eq_or_ne h d with rfl | hd
    · exact ⟨he, .inl ⟨rfl, by simpa [he] using ha⟩⟩
    · exact ⟨he, .inr ⟨hd, by simpa [he, hd] using ha⟩⟩
  refine ⟨fun h => ?_, fun h a ha => ?_, fun h₁ h₂ a ha₁ ha₂ => ?_⟩
  · rcases eq_or_ne h e with rfl | he
    · simp
    rcases eq_or_ne h d with rfl | hd
    · simpa [he] using helems
    · simpa [he, hd] using hw.none_not_mem_elems h
  · rcases (hsrc h a ha).2 with ⟨-, hs⟩ | ⟨-, ho⟩
    · rcases hslots a hs with ho | ho <;> exact hw.lt_next _ a ho
    · exact hw.lt_next h a ho
  · obtain ⟨he₁, hs₁⟩ := hsrc h₁ a ha₁
    obtain ⟨he₂, hs₂⟩ := hsrc h₂ a ha₂
    rcases hs₁ with ⟨hd₁, hs₁⟩ | ⟨hd₁, ho₁⟩ <;> rcases hs₂ with ⟨hd₂, hs₂⟩ | ⟨hd₂, ho₂⟩
    · exact hd₁.trans hd₂.symm
    · rcases hslots a hs₁ with ho | ho
      · exact hd₁.trans (hw.owner_unique _ _ _ ho ho₂)
      · exact absurd (hw.owner_unique _ _ _ ho₂ ho) he₂
    · rcases hslots a hs₂ with ho | ho
      · exact (hw.owner_unique _ _ _ ho₁ ho).trans hd₂.symm
      · exact absurd (hw.owner_unique _ _ _ ho₁ ho) he₁
    · exact hw.owner_unique _ _ _ ho₁ ho₂

/-! ## Every method keeps the invariant -/

/-- A copy loop that returned wrote only through non-nil destinations. -/
theorem none_not_mem_of_copyLoop :
    ∀ {heap : Addr → β} {as bs : List (Option Addr)} {heap' : Addr → β},
      copyLoop heap as bs = some heap' → none ∉ bs.take as.length
  | _, [], _, _, _ => by simp
  | _, a :: as, b :: bs, _, h => by
    obtain ⟨heap₁, h₁, h₂⟩ := Option.bind_eq_some.1 h
    have hb : b ≠ none := by rintro rfl; cases a <;> simp [copyEntities] at h₁
    simpa [Ne.symm hb] using none_not_mem_of_copyLoop h₂
  | _, _ :: _, [], _, h => by simp [copyLoop] at h

variable {w w' : World β} {es dest : ScopeEntitiesSlice}

theorem ensureCapacity_wellFormed {c : Int} (hw : WellFormed w.headers w.nextAddr)
    (h : ensureCapacity w es c = some w') : WellFormed w'.headers w'.nextAddr := by
  obtain ⟨-, h⟩ := assertMutable_bind_eq_some h
  split_ifs at h
  · cases h; exact hw
  · cases h
    refine hw.update _ _ le_rfl (fun a ha => .inl ?_) (by simpa using hw.none_not_mem_elems _)
    simp only [GoSlice.slots_withCap, List.mem_append, List.mem_replicate] at ha
    exact GoSlice.mem_slots_of_mem_elems (ha.resolve_right (by simp))

theorem appendEmpty_wellFormed [Inhabited β] {rt : GoRuntime} {e : ScopeEntities}
    (hw : WellFormed w.headers w.nextAddr) (h : appendEmpty rt w es = some (w', e)) :
    WellFormed w'.headers w'.nextAddr := by
  obtain ⟨-, h⟩ := assertMutable_bind_eq_some h
  obtain ⟨rfl, -⟩ := Prod.mk.inj (Option.some.inj h)
  refine hw.update es.orig _ (Nat.le_succ _) (fun a ha => ?_) ?_
  · rcases GoSlice.mem_slots_append ha with ho | ho | ho
    · exact .inl ho
    · simp only [World.alloc_snd, List.mem_singleton, Option.some.injEq] at ho
      exact .inr ⟨ho.ge, by simp [ho]⟩
    · cases ho
  · simpa [GoSlice.elems_append] using hw.none_not_mem_elems es.orig

theorem removeIf_wellFormed {σ : Type} {f : σ → ScopeEntities → Bool × σ} {s₀ s : σ}
    (hw : WellFormed w.headers w.nextAddr) (h : removeIf w es f s₀ = some (w', s)) :
    WellFormed w'.headers w'.nextAddr := by
  obtain ⟨hmut, -⟩ := assertMutable_bind_eq_some h
  obtain ⟨w'', hrun, helems, -, -⟩ := removeIf_spec w es hmut f s₀
  obtain rfl : w'' = w' := congrArg Prod.fst (Option.some.inj (hrun.symm.trans h))
  simp only [removeIf, assertMutable_eq_some hmut, Option.some_bind, Option.some.injEq,
    Prod.mk.injEq] at h
  obtain ⟨rfl, -⟩ := h
  refine hw.update es.orig _ le_rfl (fun a ha => .inl ?_) fun hn => ?_
  · exact (mem_removeIfLoop _ _ _ _ _ _ _ _ (GoSlice.mem_slots_withSlots ha)).resolve_right
      (by simp)
  · simp only [slice_setHeader, if_true] at helems
    rw [helems] at hn
    exact hw.none_not_mem_elems es.orig ((keepRejected_sublist _ _ _).subset hn)

theorem moveAndAppendTo_wellFormed {rt : GoRuntime} (hw : WellFormed w.headers w.nextAddr)
    (h : moveAndAppendTo rt w es dest = some w') : WellFormed w'.headers w'.nextAddr := by
  obtain ⟨hes, hd⟩ := assertMutable_bind_eq_some h
  obtain ⟨hdest, -⟩ := assertMutable_bind_eq_some hd
  rw [moveAndAppendTo_eq rt w hes hdest, Option.some.injEq] at h
  subst h
  by_cases hnil : (slice w dest).array = none
  · simp only [hnil, if_true]
    exact hw.move dest.orig es.orig _ (fun a ha => .inr ha) (hw.none_not_mem_elems es.orig)
  · simp only [hnil, if_false]
    refine hw.move dest.orig es.orig _ (fun a ha => ?_) ?_
    · rcases GoSlice.mem_slots_append ha with ho | ho | ho
      · exact .inl ho
      · exact .inr (GoSlice.mem_slots_of_mem_elems ho)
      · cases ho
    · simpa [GoSlice.elems_append] using
        ⟨hw.none_not_mem_elems dest.orig, hw.none_not_mem_elems es.orig⟩

theorem copyTo_wellFormed [Inhabited β] (hw : WellFormed w.headers w.nextAddr)
    (h : copyTo w es dest = some w') : WellFormed w'.headers w'.nextAddr := by
  obtain ⟨-, h⟩ := assertMutable_bind_eq_some h
  dsimp only at h
  split at h
  · next hle =>
    obtain ⟨heap, hloop, rfl⟩ := Option.map_eq_some'.1 h
    have hlen :
        (slice (w.setHeader dest.orig ((slice w dest).reslice (len w es) hle)) es).elems.length =
          len w es := by
      rw [GoSlice.length_elems, slice_setHeader]; split <;> rfl
    have hnn := none_not_mem_of_copyLoop hloop
    rw [hlen] at hnn
    refine hw.update dest.orig _ le_rfl (fun a ha => .inl ha) ?_
    simpa [List.take_take] using hnn
  · obtain ⟨heap, -, rfl⟩ := Option.map_eq_some'.1 h
    refine hw.update dest.orig _ (Nat.le_add_right _ _) (fun a ha => .inr ?_) ?_
    · simp only [GoSlice.slots, Option.getD_some, List.mem_map, List.mem_range,
        Option.some.injEq] at ha
      obtain ⟨i, hi, rfl⟩ := ha
      simp only [World.nextAddr_setHeader]
      exact ⟨Nat.le_add_right _ _, by simp [allocMany, hi]⟩
    · exact fun hn => by simpa [GoSlice.slots] using List.mem_of_mem_take hn

/-- `Sort` puts a permutation of the elements in their place, from the old slots. -/
theorem sort_eq {less : ScopeEntities → ScopeEntities → Bool} (h : sort w es less = some w') :
    ∃ s : GoSlice, w' = w.setHeader es.orig s ∧ s.elems.Perm (slice w es).elems ∧
      ∀ x ∈ s.slots, x ∈ (slice w es).slots := by
  obtain ⟨-, h⟩ := assertMutable_bind_eq_some h
  cases h
  have hperm : (((slice w es).elems.map fun e => (⟨e, es.state⟩ : ScopeEntities)).mergeSort
      fun a b => !less b a).map ScopeEntities.orig |>.Perm (slice w es).elems := by
    simpa [Function.comp_def] using (List.mergeSort_perm ((slice w es).elems.map
      fun e => (⟨e, es.state⟩ : ScopeEntities)) fun a b => !less b a).map ScopeEntities.orig
  refine ⟨_, rfl, ?_, fun x hx => ?_⟩
  · rw [GoSlice.elems_withSlots,
      List.take_left' (hperm.length_eq.trans (GoSlice.length_elems _))]
    exact hperm
  · rcases List.mem_append.1 (GoSlice.mem_slots_withSlots hx) with hs | hs
    · exact GoSlice.mem_slots_of_mem_elems (hperm.subset hs)
    · exact List.mem_of_mem_drop hs

theorem sort_wellFormed {less : ScopeEntities → ScopeEntities → Bool}
    (hw : WellFormed w.headers w.nextAddr) (h : sort w es less = some w') :
    WellFormed w'.headers w'.nextAddr := by
  obtain ⟨s, rfl, hperm, hslots⟩ := sort_eq h
  exact hw.update es.orig s le_rfl (fun a ha => .inl (hslots _ ha))
    fun hn => hw.none_not_mem_elems es.orig (hperm.subset hn)

theorem set_wellFormed {e : ScopeEntities} {v : β} (hw : WellFormed w.headers w.nextAddr)
    (h : ScopeEntities.set w e v = some w') : WellFormed w'.headers w'.nextAddr := by
  obtain ⟨-, h⟩ := assertMutable_bind_eq_some h
  obtain ⟨a, -, rfl⟩ := Option.map_eq_some'.1 h
  exact hw

/-- **The step lemma**: every call keeps the invariant. -/
theorem Step.wellFormed [Inhabited β] {rt : GoRuntime}
    {fits : World β → ScopeEntitiesSlice → ScopeEntitiesSlice → Prop} {c : Call}
    (hstep : Step rt fits c w w')
    (hw : WellFormed w.headers w.nextAddr) : WellFormed w'.headers w'.nextAddr := by
  cases hstep with
  | new => exact hw.update _ _ le_rfl (by simp) (by simp)
  | ensureCapacity _ _ _ h => exact ensureCapacity_wellFormed hw h
  | appendEmpty _ _ _ h => exact appendEmpty_wellFormed hw h
  | removeIf _ _ _ _ _ h => exact removeIf_wellFormed hw h
  | moveAndAppendTo _ _ _ _ h => exact moveAndAppendTo_wellFormed hw h
  | copyTo _ _ _ _ _ h => exact copyTo_wellFormed hw h
  | sort _ _ _ h => exact sort_wellFormed hw h
  | set _ _ _ _ _ _ h => exact set_wellFormed hw h

/-- **The run lemma**: every reachable world is well formed. -/
theorem wellFormed_of_steps [Inhabited β] {rt : GoRuntime}
    {fits : World β → ScopeEntitiesSlice → ScopeEntitiesSlice → Prop}
    (h : Relation.ReflTransGen (Steps rt fits) World.empty w) : WellFormed w.headers w.nextAddr := by
  induction h with
  | refl => exact wellFormed_empty
  | tail _ hstep ih =>
    obtain ⟨_, hstep⟩ := hstep
    exact hstep.wellFormed ih

theorem wellFormed_of_reachable [Inhabited β] {rt : GoRuntime} (h : Reachable rt w) :
    WellFormed w.headers w.nextAddr :=
  wellFormed_of_steps h

/-- Two slice variables of a well-formed world share no element. -/
theorem WellFormed.disjoint_elems {headers : Nat → GoSlice} {next : Addr}
    (hw : WellFormed headers next) {h₁ h₂ : Nat} (hne : h₁ ≠ h₂) :
    List.Disjoint (headers h₁).elems (headers h₂).elems := fun x hx₁ hx₂ => by
  obtain ⟨a, rfl⟩ := Option.ne_none_iff_exists'.1 fun h => hw.none_not_mem_elems h₁ (h ▸ hx₁)
  exact hne (hw.owner_unique _ _ a (GoSlice.mem_slots_of_mem_elems hx₁)
    (GoSlice.mem_slots_of_mem_elems hx₂))

/-! ## What a copy is for -/

/-- The contents of the messages a list of element pointers points to. -/
def contents (w : World β) (l : List (Option Addr)) : List (Option β) := l.map (Option.map w.heap)

/-- What `es.CopyTo(dest)` is for: `es` is unchanged, slice and messages, and `dest` gets
elements that are messages of their own (no two the same, none an element of `es`) holding
what the elements of `es` hold, index by index. -/
structure CopyContract (w w' : World β) (es dest : ScopeEntitiesSlice) : Prop where
  slice_src : slice w' es = slice w es
  contents_src : contents w' (slice w es).elems = contents w (slice w es).elems
  contents_dest : contents w' (slice w' dest).elems = contents w (slice w es).elems
  nodup_dest : (slice w' dest).elems.Nodup
  disjoint : ∀ x ∈ (slice w' dest).elems, x ∉ (slice w es).elems

/-- After a copy, `dest.Len() = es.Len()`. -/
theorem CopyContract.len_eq (h : CopyContract w w' es dest) : len w' dest = len w es := by
  have := congrArg List.length h.contents_dest
  simpa only [contents, List.length_map, GoSlice.length_elems] using this

/-- Two heaps that agree on the messages of `l` give them the same contents. -/
theorem map_heap_congr {heap heap' : Addr → β} {l : List (Option Addr)}
    (h : ∀ a, some a ∈ l → heap' a = heap a) :
    l.map (Option.map heap') = l.map (Option.map heap) :=
  List.map_congr_left fun x hx => by
    cases x with
    | none => rfl
    | some a => simp [h a hx]

/-- The copy loop, over non-nil pointers with the destinations distinct and apart from the
sources: each destination gets its source's content, and nothing else changes. -/
theorem copyLoop_spec :
    ∀ (heap : Addr → β) (as bs : List (Option Addr)), as.length = bs.length → none ∉ as →
      none ∉ bs → bs.Nodup → (∀ b ∈ bs, b ∉ as) →
      ∃ heap', copyLoop heap as bs = some heap' ∧
        bs.map (Option.map heap') = as.map (Option.map heap) ∧ ∀ a, some a ∉ bs → heap' a = heap a
  | heap, [], [], _, _, _, _, _ => ⟨heap, rfl, rfl, fun _ _ => rfl⟩
  | heap, some a :: as, some b :: bs, hlen, has, hbs, hnd, hdisj => by
    obtain ⟨heap', hrun, hmap, hrest⟩ := copyLoop_spec (Function.update heap b (heap a)) as bs
      (by simpa using hlen) (fun h => has (.tail _ h)) (fun h => hbs (.tail _ h)) hnd.of_cons
      (fun x hx hxa => hdisj x (.tail _ hx) (.tail _ hxa))
    have hb : some b ∉ bs := (List.nodup_cons.1 hnd).1
    have hba : some b ∉ as := fun h => hdisj _ (.head _) (.tail _ h)
    refine ⟨heap', hrun, ?_, fun x hx => ?_⟩
    · simp only [List.map_cons, Option.map_some', hmap, hrest b hb, Function.update_same,
        List.cons.injEq, true_and]
      exact map_heap_congr fun c hc => Function.update_noteq (by rintro rfl; exact hba hc) _ _
    · have hxb : x ≠ b := by rintro rfl; exact hx (.head _)
      rw [hrest x (fun h => hx (.tail _ h)), Function.update_noteq hxb]
  | _, [], _ :: _, hlen, _, _, _, _ => absurd hlen (by simp)
  | _, _ :: _, [], hlen, _, _, _, _ => absurd hlen (by simp)
  | _, none :: _, _ :: _, _, has, _, _, _ => absurd (.head _) has
  | _, some _ :: _, none :: _, _, _, hbs, _, _ => absurd (.head _) hbs

/-- The reuse branch, when the first `es.Len()` slots of `dest` are distinct non-nil
pointers that are not elements of `es`. -/
theorem copyTo_reuse [Inhabited β] (hdest : dest.state = .mutable) (hne : es.orig ≠ dest.orig)
    (hle : len w es ≤ (slice w dest).cap) (hsrc : none ∉ (slice w es).elems)
    (hnil : none ∉ (slice w dest).slots.take (len w es))
    (hnd : ((slice w dest).slots.take (len w es)).Nodup)
    (hdisj : ∀ x ∈ (slice w dest).slots.take (len w es), x ∉ (slice w es).elems) :
    ∃ w', copyTo w es dest = some w' ∧ CopyContract w w' es dest := by
  have hlen : (slice w es).elems.length = ((slice w dest).slots.take (len w es)).length := by
    rw [GoSlice.length_elems, List.length_take]; exact (Nat.min_eq_left hle).symm
  obtain ⟨heap', hrun, hmap, hrest⟩ :=
    copyLoop_spec w.heap _ _ hlen hsrc hnil hnd hdisj
  have hsrc' : ∀ a, some a ∈ (slice w es).elems → heap' a = w.heap a :=
    fun a ha => hrest a fun hd => hdisj _ hd ha
  refine ⟨{ w.setHeader dest.orig ((slice w dest).reslice (len w es) hle) with heap := heap' },
    ?_, ⟨?_, ?_, ?_, by simpa using hnd, by simpa using hdisj⟩⟩
  · simp only [copyTo, assertMutable_eq_some hdest, Option.some_bind, dif_pos hle,
      slice_setHeader, if_neg hne, if_true, GoSlice.elems_reslice, World.heap_setHeader, hrun,
      Option.map_some']
  · simp [hne]
  · exact map_heap_congr hsrc'
  · simpa [contents, List.map_take] using hmap

/-- The fresh-allocation branch: `es.Len()` new messages. -/
theorem copyTo_fresh [Inhabited β] (hdest : dest.state = .mutable)
    (hlt : (slice w dest).cap < len w es) (hsrc : none ∉ (slice w es).elems)
    (hbound : ∀ a, some a ∈ (slice w es).elems → a < w.nextAddr) :
    ∃ w', copyTo w es dest = some w' ∧ CopyContract w w' es dest := by
  have hne : es.orig ≠ dest.orig := fun h => by
    have hs : len w es = (slice w dest).len := congrArg (fun o => (w.headers o).len) h
    exact absurd (hs.trans_le (slice w dest).len_le) (not_le.2 hlt)
  set wrappers := (List.range (len w es)).map fun i => some (w.nextAddr + i) with hwrappers
  have hfresh : ∀ x ∈ wrappers, x ∉ (slice w es).elems := by
    simp only [hwrappers, List.mem_map, List.mem_range]
    rintro _ ⟨i, -, rfl⟩ h
    exact Nat.not_lt.2 (Nat.le_add_right _ _) (hbound _ h)
  have hnd : wrappers.Nodup := (List.nodup_range _).map fun i j h => by simpa using h
  obtain ⟨heap', hrun, hmap, hrest⟩ := copyLoop_spec (allocMany w (len w es)).heap
    (slice w es).elems wrappers (by simp [wrappers, GoSlice.length_elems, len]) hsrc
    (by simp [wrappers]) hnd hfresh
  have halloc : ∀ a, some a ∈ (slice w es).elems → (allocMany w (len w es)).heap a = w.heap a :=
    fun a ha => by simp [allocMany, (hbound a ha).not_le]
  have hsrc' : ∀ a, some a ∈ (slice w es).elems → heap' a = w.heap a :=
    fun a ha => (hrest a fun hd => hfresh _ hd ha).trans (halloc a ha)
  have hlen : wrappers.length = len w es := by simp [wrappers]
  refine ⟨({ allocMany w (len w es) with heap := heap' } : World β).setHeader dest.orig
    ⟨some wrappers, len w es, hlen.ge⟩, ?_, ⟨?_, ?_, ?_, ?_, ?_⟩⟩
  · simp only [copyTo, assertMutable_eq_some hdest, Option.some_bind, dif_neg hlt.not_le]
    rw [hrun]; rfl
  all_goals simp only [slice_setHeader, if_neg hne, if_true, slice_mk]
  · rfl
  · exact map_heap_congr hsrc'
  all_goals rw [show GoSlice.elems ⟨some wrappers, len w es, hlen.ge⟩ = wrappers from
    List.take_of_length_le hlen.le]
  · exact hmap.trans (map_heap_congr halloc)
  · exact hnd
  · exact hfresh

/-- `CopyTo` between two slice variables of a well-formed world keeps `CopyContract` when
`dest` is allocated afresh, or when the first `es.Len()` slots of `dest` are distinct non-nil
pointers. -/
theorem copyTo_contract_of_wellFormed [Inhabited β] (hwf : WellFormed w.headers w.nextAddr)
    (hdest : dest.state = .mutable) (hne : es.orig ≠ dest.orig)
    (hslots : (slice w dest).cap < len w es ∨
      none ∉ (slice w dest).slots.take (len w es) ∧ ((slice w dest).slots.take (len w es)).Nodup) :
    ∃ w', copyTo w es dest = some w' ∧ CopyContract w w' es dest := by
  by_cases hlt : (slice w dest).cap < len w es
  · exact copyTo_fresh hdest hlt (hwf.none_not_mem_elems _)
      fun a ha => hwf.lt_next _ a (GoSlice.mem_slots_of_mem_elems ha)
  obtain ⟨hnil, hnd⟩ := hslots.resolve_left hlt
  refine copyTo_reuse hdest hne (not_lt.1 hlt) (hwf.none_not_mem_elems _) hnil hnd
    fun x hx hxs => ?_
  obtain ⟨a, rfl⟩ := Option.ne_none_iff_exists'.1 fun h => hnil (h ▸ hx)
  exact hne (hwf.owner_unique _ _ a (GoSlice.mem_slots_of_mem_elems hxs) (List.mem_of_mem_take hx))

/-- **When `CopyTo` keeps its contract.**  In a reachable world, `es.CopyTo(dest)` between
two slice variables keeps `CopyContract` when `dest` is allocated afresh (its capacity is
below `es.Len()`), or when the first `es.Len()` slots of `dest` are distinct non-nil
pointers. -/
theorem copyTo_contract_of_reachable [Inhabited β] {rt : GoRuntime} (hw : Reachable rt w)
    (hdest : dest.state = .mutable) (hne : es.orig ≠ dest.orig)
    (hslots : (slice w dest).cap < len w es ∨
      none ∉ (slice w dest).slots.take (len w es) ∧ ((slice w dest).slots.take (len w es)).Nodup) :
    ∃ w', copyTo w es dest = some w' ∧ CopyContract w w' es dest :=
  copyTo_contract_of_wellFormed (wellFormed_of_reachable hw) hdest hne hslots

/-- `copyTo_contract_of_reachable` on one-element slices: the destination's slot is
reused. -/
theorem copyTo_contract_one_element :
    ∃ w : World Nat, Reachable .doubling w ∧
      (none ∉ (slice w ⟨0, .mutable⟩).slots.take (len w ⟨1, .mutable⟩) ∧
        ((slice w ⟨0, .mutable⟩).slots.take (len w ⟨1, .mutable⟩)).Nodup) ∧
      ∃ w', copyTo w ⟨1, .mutable⟩ ⟨0, .mutable⟩ = some w' ∧
        CopyContract w w' ⟨1, .mutable⟩ ⟨0, .mutable⟩ :=
  have hw := (reachable_empty .doubling : Reachable _ (World.empty : World Nat))
    |>.step (Step.new _)
    |>.step (Step.appendEmpty ⟨0, .mutable⟩ _ (by decide) rfl)
    |>.step (Step.new _)
    |>.step (Step.appendEmpty ⟨1, .mutable⟩ _ (by decide) rfl)
  ⟨_, hw, ⟨by decide, by decide⟩,
    copyTo_contract_of_reachable hw rfl (by decide) (.inr ⟨by decide, by decide⟩)⟩

/-! ## Isolation -/

/-- The contents of the elements of slice variable `h`. -/
def view (w : World β) (h : Nat) : List (Option β) := contents w (w.headers h).elems

/-- `At(i)` is element `i` of the slice. -/
theorem getElem?_elems_of_at' {i : Nat} {e : ScopeEntities} (h : at' w es i = some e) :
    (slice w es).elems[i]? = some e.orig := by
  unfold at' at h
  split_ifs at h with hi
  cases h
  have hlt : i < (slice w es).slots.length := hi.trans_le (slice w es).len_le
  rw [GoSlice.elems, List.getElem?_take_of_lt (show i < (slice w es).len from hi),
    List.getD_eq_getElem _ _ hlt, List.getElem?_eq_getElem hlt]

/-- `At(i)` is an element of the slice. -/
theorem mem_elems_of_at' {i : Nat} {e : ScopeEntities} (h : at' w es i = some e) :
    e.orig ∈ (slice w es).elems :=
  List.getElem?_mem (getElem?_elems_of_at' h)

/-- **Slices do not share elements.**  In a reachable world no element is an element of two
slice variables; so a setter on an element of `es` (got from `At`) leaves the contents of
every other slice variable unchanged. -/
theorem set_preserves_other_views [Inhabited β] {rt : GoRuntime} (hw : Reachable rt w)
    {i : Nat} {e : ScopeEntities} {v : β} (he : at' w es i = some e)
    (hset : ScopeEntities.set w e v = some w') {h : Nat} (hne : h ≠ es.orig) :
    (∀ h₁ h₂, h₁ ≠ h₂ → List.Disjoint (w.headers h₁).elems (w.headers h₂).elems) ∧
      view w' h = view w h := by
  have hwf := wellFormed_of_reachable hw
  refine ⟨fun _ _ => hwf.disjoint_elems, ?_⟩
  obtain ⟨-, hset⟩ := assertMutable_bind_eq_some hset
  obtain ⟨a, ha, rfl⟩ := Option.map_eq_some'.1 hset
  have hmem : some a ∈ (slice w es).elems := ha ▸ mem_elems_of_at' he
  exact map_heap_congr fun b hb =>
    Function.update_noteq (by rintro rfl; exact hwf.disjoint_elems hne hb hmem) _ _

/-- `set_preserves_other_views` on two one-element slices: a setter on the element of
slice 1 leaves slice 0 as it was. -/
theorem set_preserves_other_views_two_slices :
    ∃ w w' : World Nat, Reachable .doubling w ∧
      at' w ⟨1, .mutable⟩ 0 = some ⟨some 1, .mutable⟩ ∧
      ScopeEntities.set w ⟨some 1, .mutable⟩ 7 = some w' ∧ (0 : Nat) ≠ 1 ∧
      (∀ h₁ h₂, h₁ ≠ h₂ → List.Disjoint (w.headers h₁).elems (w.headers h₂).elems) ∧
      view w' 0 = view w 0 :=
  have hw := (reachable_empty .doubling : Reachable _ (World.empty : World Nat))
    |>.step (Step.new _)
    |>.step (Step.appendEmpty ⟨0, .mutable⟩ _ (by decide) rfl)
    |>.step (Step.new _)
    |>.step (Step.appendEmpty ⟨1, .mutable⟩ _ (by decide) rfl)
  ⟨_, _, hw, rfl, rfl, by decide,
    @set_preserves_other_views _ _ _ ⟨1, .mutable⟩ _ _ hw 0 _ 7 rfl rfl 0 (by decide)⟩

/-- **`CopyTo` into reused spare slots.**  With `src` the slice variable 1 and `dest` the
slice variable 0 of a reachable world: after `dest.EnsureCapacity(1)` and
`src.AppendEmpty()`, `src.CopyTo(dest)` dereferences the nil slot that `EnsureCapacity`
made and panics.  After two `AppendEmpty` on `dest` and a `RemoveIf` of its first element,
which leaves its second element also in the spare slot, then two `AppendEmpty` on `src`
and a setter on `src.At(0)`, `src.CopyTo(dest)` returns with `dest.At(0)` and `dest.At(1)`
one element, whose message holds what `src.At(1)` holds and not what `src.At(0)` holds. -/
theorem copyTo_reuses_spare_slots :
    (∃ w : World Nat, Reachable .doubling w ∧ len w ⟨1, .mutable⟩ = 1 ∧
        copyTo w ⟨1, .mutable⟩ ⟨0, .mutable⟩ = none) ∧
    (∃ w w' : World Nat, Reachable .doubling w ∧
        copyTo w ⟨1, .mutable⟩ ⟨0, .mutable⟩ = some w' ∧
        at' w' ⟨0, .mutable⟩ 0 = at' w' ⟨0, .mutable⟩ 1 ∧
        contents w' (slice w' ⟨0, .mutable⟩).elems ≠ contents w' (slice w' ⟨1, .mutable⟩).elems) :=
  ⟨⟨_, (reachable_empty .doubling : Reachable _ (World.empty : World Nat))
      |>.step (Step.new _)
      |>.step (Step.ensureCapacity ⟨0, .mutable⟩ 1 (by decide) rfl)
      |>.step (Step.new _)
      |>.step (Step.appendEmpty ⟨1, .mutable⟩ _ (by decide) rfl), rfl, rfl⟩,
   ⟨_, _, (reachable_empty .doubling : Reachable _ (World.empty : World Nat))
      |>.step (Step.new _)
      |>.step (Step.appendEmpty ⟨0, .mutable⟩ _ (by decide) rfl)
      |>.step (Step.appendEmpty ⟨0, .mutable⟩ _ (by decide) rfl)
      |>.step (Step.removeIf ⟨0, .mutable⟩ (fun (_ : Unit) e => (decide (e.orig = some 0), ()))
        () () (by decide) rfl)
      |>.step (Step.new _)
      |>.step (Step.appendEmpty ⟨1, .mutable⟩ _ (by decide) rfl)
      |>.step (Step.appendEmpty ⟨1, .mutable⟩ _ (by decide) rfl)
      |>.step (Step.set ⟨1, .mutable⟩ 0 _ 7 (by decide) rfl rfl), rfl, rfl, by decide⟩⟩

end Pdata
