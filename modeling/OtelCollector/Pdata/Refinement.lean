/-
# Slices as lists of values

What a program sees of the pdata slices is, for each slice variable, the contents of its
elements in order (`absLists`).  `ListStep` says what each call is for at that level:
slices are independent lists, and a call changes only the lists of the slices it is
called on.  `AppendEmpty` appends a zero message, `MoveAndAppendTo` appends one list to
another and empties the first, `CopyTo` replaces one list by another, `RemoveIf` keeps a
sublist, `Sort` a permutation, and a setter replaces one element.

The pointer-level model refines it as long as every `CopyTo` fits (`CopyFits`): the copy
goes onto the source itself, into new messages, or into distinct non-nil slots.  Main
result, `fitRun_simulates`: from every world a run of such calls reaches, each call is the
`ListStep` of the same call on the lists the world shows.  Along the way no slice holds
one element twice (`Separated`), which a setter needs to change one element only.
`copyTo_reuses_spare_slots` is a run whose `CopyTo` does not fit.
-/
import OtelCollector.Pdata.CopyTo

namespace Pdata

open ScopeEntitiesSlice

variable {β : Type}

/-! ## The list-level machine -/

/-- The contents of the elements of every slice variable, and the slice variable
`NewScopeEntitiesSlice` makes next. -/
structure Lists (β : Type) where
  lists : Nat → List (Option β)
  next : Nat

/-- What each call `c` does to the lists: it changes only those of the slices it names. -/
inductive ListStep [Inhabited β] : Call → Lists β → Lists β → Prop
  | new (s : Lists β) : ListStep .new s ⟨Function.update s.lists s.next [], s.next + 1⟩
  | ensureCapacity (s : Lists β) (h : Nat) (hh : h < s.next) : ListStep (.ensureCapacity h) s s
  | appendEmpty (s : Lists β) (h : Nat) (hh : h < s.next) :
      ListStep (.appendEmpty h) s
        ⟨Function.update s.lists h (s.lists h ++ [some default]), s.next⟩
  | removeIf (s : Lists β) (h : Nat) (l : List (Option β)) (hh : h < s.next)
      (hl : l.Sublist (s.lists h)) :
      ListStep (.removeIf h) s ⟨Function.update s.lists h l, s.next⟩
  | moveAndAppendTo (s : Lists β) (e d : Nat) (he : e < s.next) (hd : d < s.next) :
      ListStep (.moveAndAppendTo e d) s
        ⟨Function.update (Function.update s.lists d (s.lists d ++ s.lists e)) e [], s.next⟩
  | copyTo (s : Lists β) (e d : Nat) (he : e < s.next) (hd : d < s.next) :
      ListStep (.copyTo e d) s ⟨Function.update s.lists d (s.lists e), s.next⟩
  | sort (s : Lists β) (h : Nat) (l : List (Option β)) (hh : h < s.next)
      (hl : l.Perm (s.lists h)) : ListStep (.sort h) s ⟨Function.update s.lists h l, s.next⟩
  | set (s : Lists β) (h i : Nat) (x : β) (hh : h < s.next) (hi : i < (s.lists h).length) :
      ListStep (.set h i) s ⟨Function.update s.lists h ((s.lists h).set i (some x)), s.next⟩

/-- The lists a world shows. -/
def absLists (w : World β) : Lists β := ⟨view w, w.nextHeader⟩

/-! ## Runs whose copies fit -/

/-- A `CopyTo` that the list-level copy describes: onto the source itself, into new
messages (the capacity is short), or into distinct non-nil slots. -/
def CopyFits (w : World β) (es dest : ScopeEntitiesSlice) : Prop :=
  es.orig = dest.orig ∨ (slice w dest).cap < len w es ∨
    none ∉ (slice w dest).slots.take (len w es) ∧ ((slice w dest).slots.take (len w es)).Nodup

instance (w : World β) (es dest : ScopeEntitiesSlice) : Decidable (CopyFits w es dest) :=
  inferInstanceAs (Decidable (_ ∨ _ ∨ _))

/-- The calls whose `CopyTo` fits. -/
def FitStep [Inhabited β] (rt : GoRuntime) : World β → World β → Prop := Steps rt CopyFits

theorem Step.fitStep [Inhabited β] {rt : GoRuntime} {c : Call} {w w' : World β}
    (h : Step rt CopyFits c w w') : FitStep rt w w' :=
  Exists.intro c h

/-- The invariant of fitting runs: the world is well formed and no slice holds one element
twice. -/
structure Separated (w : World β) : Prop where
  wellFormed : WellFormed w.headers w.nextAddr
  nodup : ∀ h, (w.headers h).elems.Nodup

/-! ## The view of each update -/

@[simp] theorem view_setHeader (w : World β) (o : Nat) (s : GoSlice) :
    view (w.setHeader o s) = Function.update (view w) o (contents w s.elems) := by
  funext h
  rcases eq_or_ne h o with rfl | hne <;> simp [view, contents, *]

/-- Changing messages no slot points to changes no view. -/
theorem view_eq_of_heap {w w' : World β} (hh : w'.headers = w.headers)
    (heap : ∀ h a, some a ∈ (w.headers h).slots → w'.heap a = w.heap a) : view w' = view w :=
  funext fun h => by
    simp only [view, contents, hh]
    exact map_heap_congr fun a ha => heap h a (GoSlice.mem_slots_of_mem_elems ha)

@[simp] theorem contents_slice (w : World β) (es : ScopeEntitiesSlice) :
    contents w (slice w es).elems = view w es.orig := rfl

@[simp] theorem contents_setHeader (w : World β) (o : Nat) (s : GoSlice) (l : List (Option Addr)) :
    contents (w.setHeader o s) l = contents w l := rfl

@[simp] theorem contents_append (w : World β) (l₁ l₂ : List (Option Addr)) :
    contents w (l₁ ++ l₂) = contents w l₁ ++ contents w l₂ := List.map_append _ _ _

@[simp] theorem contents_nil (w : World β) : contents w [] = [] := rfl

@[simp] theorem absLists_setHeader (w : World β) (o : Nat) (s : GoSlice) :
    absLists (w.setHeader o s) =
      ⟨Function.update (view w) o (contents w s.elems), w.nextHeader⟩ := by
  simp [absLists]

theorem nodup_setHeader {w : World β} {o : Nat} {s : GoSlice}
    (hs : ∀ h, (w.headers h).elems.Nodup) (hn : s.elems.Nodup) :
    ∀ h, ((w.setHeader o s).headers h).elems.Nodup := fun h => by
  rw [World.headers_setHeader]
  split
  exacts [hn, hs h]

/-- Writing a message that is element `i` of `l`, and no other, changes the contents of `l`
at `i` only. -/
theorem map_update_of_nodup {heap : Addr → β} {a : Addr} {v : β} :
    ∀ {l : List (Option Addr)} {i : Nat}, l.Nodup → l[i]? = some (some a) →
      l.map (Option.map (Function.update heap a v)) = (l.map (Option.map heap)).set i (some v)
  | [], _, _, h => by simp at h
  | x :: l, 0, hnd, h => by
    obtain rfl : x = some a := by simpa using h
    have ha : some a ∉ l := (List.nodup_cons.1 hnd).1
    simp only [List.map_cons, Option.map_some', Function.update_same, List.set_cons_zero,
      List.cons.injEq, true_and]
    exact map_heap_congr fun b hb => Function.update_noteq (by rintro rfl; exact ha hb) _ _
  | x :: l, i + 1, hnd, h => by
    have hl : l[i]? = some (some a) := by simpa using h
    have hx : Option.map (Function.update heap a v) x = Option.map heap x := by
      cases x with
      | none => rfl
      | some b =>
        have hb : b ≠ a := by rintro rfl; exact (List.nodup_cons.1 hnd).1 (List.getElem?_mem hl)
        simp [Function.update_noteq hb]
    simp only [List.map_cons, hx, List.set_cons_succ, map_update_of_nodup hnd.of_cons hl]

/-- What a copy loop that returned leaves of the messages it does not write. -/
theorem copyLoop_frame :
    ∀ {heap : Addr → β} {as bs : List (Option Addr)} {heap' : Addr → β},
      copyLoop heap as bs = some heap' → ∀ a, some a ∉ bs → heap' a = heap a
  | _, [], _, _, h, _, _ => by cases h; rfl
  | heap, x :: as, b :: bs, _, h, a, ha => by
    obtain ⟨heap₁, h₁, h₂⟩ := Option.bind_eq_some.1 h
    rw [copyLoop_frame h₂ a fun h => ha (.tail _ h)]
    match x, b, h₁ with
    | some _, some b, h₁ =>
      cases h₁
      exact Function.update_noteq (by rintro rfl; exact ha (.head _)) _ _
  | _, _ :: _, [], _, h, _, _ => by simp [copyLoop] at h

/-- Copying a list of non-nil pointers onto itself changes no message. -/
theorem copyLoop_self (heap : Addr → β) :
    ∀ l : List (Option Addr), none ∉ l → copyLoop heap l l = some heap
  | [], _ => rfl
  | none :: _, h => absurd (.head _) h
  | some a :: l, h => by
    simp only [copyLoop, copyEntities, Function.update_eq_self, Option.some_bind]
    exact copyLoop_self heap l fun hn => h (.tail _ hn)

/-- `CopyTo` changes only the slice variable `dest`, and of the messages it had, only those
that are elements of `dest` after it. -/
theorem copyTo_frame [Inhabited β] {w w' : World β} {es dest : ScopeEntitiesSlice}
    (h : copyTo w es dest = some w') :
    (∀ o ≠ dest.orig, w'.headers o = w.headers o) ∧ w'.nextHeader = w.nextHeader ∧
      ∀ a, some a ∉ (slice w' dest).elems → a < w.nextAddr → w'.heap a = w.heap a := by
  obtain ⟨-, h⟩ := assertMutable_bind_eq_some h
  dsimp only at h
  split at h
  · obtain ⟨heap, hloop, rfl⟩ := Option.map_eq_some'.1 h
    exact ⟨fun o ho => by simp [ho], rfl, fun a ha _ => copyLoop_frame hloop a ha⟩
  · obtain ⟨heap, hloop, rfl⟩ := Option.map_eq_some'.1 h
    refine ⟨fun o ho => by simp [ho, allocMany], rfl, fun a _ hlt => ?_⟩
    have hfresh : some a ∉ (List.range (len w es)).map fun i => some (w.nextAddr + i) := by
      simp only [List.mem_map, List.mem_range, Option.some.injEq, not_exists, not_and]
      exact fun i _ hi => Nat.not_lt.2 (hi ▸ Nat.le_add_right _ _) hlt
    simpa [allocMany, Nat.not_le.2 hlt] using copyLoop_frame hloop a hfresh

/-- `CopyTo` onto its own source reslices it to its length and changes no message. -/
theorem copyTo_self [Inhabited β] {w : World β} {es dest : ScopeEntitiesSlice}
    (hdest : dest.state = .mutable) (heq : es.orig = dest.orig)
    (hsrc : none ∉ (slice w es).elems) :
    ∃ hle, copyTo w es dest =
      some (w.setHeader dest.orig ((slice w dest).reslice (len w es) hle)) := by
  have hsame : slice w es = slice w dest := congrArg w.headers heq
  have hle : len w es ≤ (slice w dest).cap := hsame ▸ (slice w es).len_le
  refine ⟨hle, ?_⟩
  have hel : (slice w dest).slots.take (len w es) = (slice w es).elems := by rw [← hsame]; rfl
  simp only [copyTo, assertMutable_eq_some hdest, Option.some_bind, dif_pos hle, slice_setHeader,
    heq, if_true, GoSlice.elems_reslice, hel, World.heap_setHeader, copyLoop_self _ _ hsrc,
    Option.map_some']
  rfl

/-! ## Every fitting call is a list-level step -/

section Calls

variable [Inhabited β] {w w' : World β} {es dest : ScopeEntitiesSlice}

theorem new_refines (hs : Separated w) :
    ListStep .new (absLists w) (absLists (newScopeEntitiesSlice w).1) ∧
      ∀ h, ((newScopeEntitiesSlice w).1.headers h).elems.Nodup := by
  have hv : view (newScopeEntitiesSlice w).1 = Function.update (view w) w.nextHeader [] :=
    funext fun h => by
      rcases eq_or_ne h w.nextHeader with rfl | hne <;>
        simp [view, contents, newScopeEntitiesSlice, *]
  refine ⟨?_, fun h => ?_⟩
  · show ListStep _ _ ⟨_, w.nextHeader + 1⟩
    rw [hv]
    exact .new _
  · rcases eq_or_ne h w.nextHeader with rfl | hne <;>
      simp [newScopeEntitiesSlice, hs.nodup, *]

theorem ensureCapacity_refines {c : Int} (hs : Separated w) (hes : es.orig < w.nextHeader)
    (h : ensureCapacity w es c = some w') :
    ListStep (.ensureCapacity es.orig) (absLists w) (absLists w') ∧ ∀ h, (w'.headers h).elems.Nodup := by
  obtain ⟨-, h⟩ := assertMutable_bind_eq_some h
  split_ifs at h <;> cases h
  · exact ⟨.ensureCapacity _ _ hes, hs.nodup⟩
  · have hsame : absLists (w.setHeader es.orig ((slice w es).withCap c.toNat)) = absLists w := by
      simp [absLists]
    exact ⟨hsame ▸ .ensureCapacity _ _ hes, nodup_setHeader hs.nodup (by simpa using hs.nodup _)⟩

theorem appendEmpty_refines {rt : GoRuntime} {e : ScopeEntities}
    (hs : Separated w) (hes : es.orig < w.nextHeader) (h : appendEmpty rt w es = some (w', e)) :
    ListStep (.appendEmpty es.orig) (absLists w) (absLists w') ∧ ∀ h, (w'.headers h).elems.Nodup := by
  obtain ⟨-, h⟩ := assertMutable_bind_eq_some h
  obtain ⟨rfl, -⟩ := Prod.mk.inj (Option.some.inj h)
  have hfresh : ∀ h, some w.nextAddr ∉ (w.headers h).slots :=
    fun h hm => lt_irrefl _ (hs.wellFormed.lt_next h _ hm)
  have hv : view w.alloc.1 = view w := view_eq_of_heap rfl fun h a ha =>
    Function.update_noteq (by rintro rfl; exact hfresh h ha) _ _
  have hzero : contents w.alloc.1 [some w.alloc.2] = [some default] := by
    simp [contents, World.alloc]
  refine ⟨?_, nodup_setHeader hs.nodup ?_⟩
  · simp only [absLists_setHeader, GoSlice.elems_append, contents_append, contents_slice, hv,
      hzero]
    exact .appendEmpty _ _ hes
  · simpa [ScopeEntitiesSlice.slice, GoSlice.elems_append, List.nodup_append, hs.nodup] using
      fun hm => hfresh es.orig (GoSlice.mem_slots_of_mem_elems hm)

theorem removeIf_refines {σ : Type} {f : σ → ScopeEntities → Bool × σ} {s₀ s : σ}
    (hs : Separated w) (hes : es.orig < w.nextHeader) (h : removeIf w es f s₀ = some (w', s)) :
    ListStep (.removeIf es.orig) (absLists w) (absLists w') ∧ ∀ h, (w'.headers h).elems.Nodup := by
  obtain ⟨hmut, -⟩ := assertMutable_bind_eq_some h
  obtain ⟨w'', hrun, helems, -, -⟩ := removeIf_spec w es hmut f s₀
  obtain rfl : w'' = w' := congrArg Prod.fst (Option.some.inj (hrun.symm.trans h))
  simp only [removeIf, assertMutable_eq_some hmut, Option.some_bind, Option.some.injEq,
    Prod.mk.injEq] at h
  obtain ⟨rfl, -⟩ := h
  simp only [slice_setHeader, if_true] at helems
  have hsub := helems ▸ keepRejected_sublist _ _ (slice w es).elems
  refine ⟨?_, nodup_setHeader hs.nodup (hsub.nodup (hs.nodup _))⟩
  rw [absLists_setHeader]
  exact .removeIf _ _ _ hes (hsub.map _)

theorem moveAndAppendTo_refines {rt : GoRuntime} (hs : Separated w)
    (hes : es.orig < w.nextHeader) (hdest : dest.orig < w.nextHeader)
    (h : moveAndAppendTo rt w es dest = some w') :
    ListStep (.moveAndAppendTo es.orig dest.orig) (absLists w) (absLists w') ∧ ∀ h, (w'.headers h).elems.Nodup := by
  obtain ⟨hme, hd⟩ := assertMutable_bind_eq_some h
  obtain ⟨hmd, -⟩ := assertMutable_bind_eq_some hd
  rw [moveAndAppendTo_eq rt w hme hmd, Option.some.injEq] at h
  subst h
  have hmoved : (if (slice w dest).array = none then slice w es
      else (slice w dest).append rt (slice w es).elems).elems =
        (slice w dest).elems ++ (slice w es).elems := by
    split
    · next hnil =>
      rw [show (slice w dest).elems = [] by simp [GoSlice.elems, GoSlice.slots, hnil],
        List.nil_append]
    · exact GoSlice.elems_append _ _ _
  refine ⟨?_, fun h => ?_⟩
  · simp only [absLists_setHeader, view_setHeader, contents_setHeader, hmoved, contents_append,
      contents_slice, GoSlice.elems_nil, contents_nil, World.nextHeader_setHeader]
    exact .moveAndAppendTo _ _ _ hes hdest
  · rcases eq_or_ne h es.orig with rfl | he
    · simp
    rcases eq_or_ne h dest.orig with rfl | hd
    · simp only [World.headers_setHeader, if_neg he, eq_self_iff_true, if_true, hmoved]
      exact List.nodup_append.2 ⟨hs.nodup _, hs.nodup _, hs.wellFormed.disjoint_elems he⟩
    · simp only [World.headers_setHeader, if_neg he, if_neg hd]
      exact hs.nodup h

theorem sort_refines {less : ScopeEntities → ScopeEntities → Bool} (hs : Separated w)
    (hes : es.orig < w.nextHeader) (h : sort w es less = some w') :
    ListStep (.sort es.orig) (absLists w) (absLists w') ∧ ∀ h, (w'.headers h).elems.Nodup := by
  obtain ⟨s, rfl, hperm, -⟩ := sort_eq h
  refine ⟨?_, nodup_setHeader hs.nodup (hperm.nodup_iff.2 (hs.nodup _))⟩
  rw [absLists_setHeader]
  exact .sort _ _ _ hes (hperm.map _)

theorem set_refines {i : Nat} {e : ScopeEntities} {v : β} (hs : Separated w)
    (hes : es.orig < w.nextHeader) (he : at' w es i = some e)
    (h : ScopeEntities.set w e v = some w') :
    ListStep (.set es.orig i) (absLists w) (absLists w') ∧ ∀ h, (w'.headers h).elems.Nodup := by
  obtain ⟨-, h⟩ := assertMutable_bind_eq_some h
  obtain ⟨a, ha, rfl⟩ := Option.map_eq_some'.1 h
  have hget : (slice w es).elems[i]? = some (some a) := ha ▸ getElem?_elems_of_at' he
  have hi : i < (view w es.orig).length := by
    simpa [view, contents] using (List.getElem?_eq_some_iff.1 hget).1
  have hv : view { w with heap := Function.update w.heap a v } =
      Function.update (view w) es.orig ((view w es.orig).set i (some v)) :=
    Function.eq_update_iff.2 ⟨map_update_of_nodup (hs.nodup _) hget, fun _ hne =>
      map_heap_congr fun b hb => Function.update_noteq (by
        rintro rfl
        exact hs.wellFormed.disjoint_elems hne hb (List.getElem?_mem hget)) _ _⟩
  refine ⟨?_, hs.nodup⟩
  show ListStep _ _ ⟨_, w.nextHeader⟩
  rw [hv]
  exact .set _ _ _ _ hes hi

/-- A fitting `CopyTo` returns, and gives `dest` what `es` held, as distinct elements when
those of `es` are. -/
theorem copyTo_of_fits (hwf : WellFormed w.headers w.nextAddr)
    (hmd : dest.state = .mutable) (hfit : CopyFits w es dest) :
    ∃ w', copyTo w es dest = some w' ∧ contents w' (slice w' dest).elems = view w es.orig ∧
      ((slice w es).elems.Nodup → (slice w' dest).elems.Nodup) := by
  by_cases heq : es.orig = dest.orig
  · obtain ⟨hle, hrun⟩ := copyTo_self hmd heq (hwf.none_not_mem_elems _)
    have hel : (slice w dest).slots.take (len w es) = (slice w es).elems := by
      rw [show slice w dest = slice w es from congrArg w.headers heq.symm]; rfl
    exact ⟨_, hrun, by simp [hel]⟩
  · obtain ⟨w', hrun, hc⟩ :=
      copyTo_contract_of_wellFormed hwf hmd heq (hfit.resolve_left heq)
    exact ⟨w', hrun, hc.contents_dest, fun _ => hc.nodup_dest⟩

/-- `CopyTo` in a well-formed world leaves the contents of every other slice variable. -/
theorem copyTo_view_other (hwf : WellFormed w.headers w.nextAddr)
    (h : copyTo w es dest = some w') {o : Nat} (hne : o ≠ dest.orig) : view w' o = view w o := by
  obtain ⟨hother, -, hheap⟩ := copyTo_frame h
  rw [view, hother o hne]
  refine map_heap_congr fun a ha => hheap a (fun hd => ?_)
    (hwf.lt_next o a (GoSlice.mem_slots_of_mem_elems ha))
  exact (copyTo_wellFormed hwf h).disjoint_elems hne ((hother o hne).symm ▸ ha) hd

theorem copyTo_refines (hs : Separated w) (hes : es.orig < w.nextHeader)
    (hdest : dest.orig < w.nextHeader) (hfit : CopyFits w es dest)
    (h : copyTo w es dest = some w') :
    ListStep (.copyTo es.orig dest.orig) (absLists w) (absLists w') ∧ ∀ h, (w'.headers h).elems.Nodup := by
  obtain ⟨hmd, -⟩ := assertMutable_bind_eq_some h
  obtain ⟨hother, hnext, -⟩ := copyTo_frame h
  obtain ⟨_, hrun, hdst, hnd⟩ := copyTo_of_fits hs.wellFormed hmd hfit
  cases h.symm.trans hrun
  have hv : view w' = Function.update (view w) dest.orig (view w es.orig) :=
    Function.eq_update_iff.2 ⟨hdst, fun _ hne => copyTo_view_other hs.wellFormed h hne⟩
  refine ⟨?_, fun o => ?_⟩
  · show ListStep _ _ ⟨_, w'.nextHeader⟩
    rw [hv, hnext]
    exact .copyTo _ _ _ hes hdest
  · rcases eq_or_ne o dest.orig with rfl | hne
    · exact hnd (hs.nodup _)
    · rw [hother o hne]
      exact hs.nodup o

/-- **The step lemma**: a fitting call `c` is the list-level step of `c`, and keeps the
invariant. -/
theorem Step.refines {rt : GoRuntime} {c : Call} (hstep : Step rt CopyFits c w w')
    (hs : Separated w) : ListStep c (absLists w) (absLists w') ∧ Separated w' := by
  have hwf := hstep.wellFormed hs.wellFormed
  suffices ListStep c (absLists w) (absLists w') ∧ ∀ h, (w'.headers h).elems.Nodup from
    ⟨this.1, hwf, this.2⟩
  cases hstep with
  | new => exact new_refines hs
  | ensureCapacity _ _ hes h => exact ensureCapacity_refines hs hes h
  | appendEmpty _ _ hes h => exact appendEmpty_refines hs hes h
  | removeIf _ _ _ _ hes h => exact removeIf_refines hs hes h
  | moveAndAppendTo _ _ hes hdest h => exact moveAndAppendTo_refines hs hes hdest h
  | copyTo _ _ hes hdest hfit h => exact copyTo_refines hs hes hdest hfit h
  | sort _ _ hes h => exact sort_refines hs hes h
  | set _ _ _ _ hes he h => exact set_refines hs hes he h

theorem separated_empty : Separated (World.empty : World β) :=
  ⟨wellFormed_empty, fun _ => List.nodup_nil⟩

/-- **The run lemma**: every world a fitting run reaches from no slice at all keeps the
invariant. -/
theorem fitRun_separated {rt : GoRuntime}
    (h : Relation.ReflTransGen (FitStep rt) World.empty w) : Separated w := by
  induction h with
  | refl => exact separated_empty
  | tail _ hstep ih =>
    obtain ⟨_, hstep⟩ := hstep
    exact (hstep.refines ih).2

end Calls

/-! ## Fitting runs -/

/-- **No slice holds one element twice** in a world a fitting run reaches. -/
theorem fitRun_nodup_elems [Inhabited β] {rt : GoRuntime} {w : World β}
    (h : Relation.ReflTransGen (FitStep rt) World.empty w) (o : Nat) :
    (w.headers o).elems.Nodup :=
  (fitRun_separated h).nodup o

/-- A run that appends to slice 0, copies it into the new slice 1 and sets the copy. -/
theorem fitRun_nodup_elems_copy_then_set :
    ∃ w : World Nat, Relation.ReflTransGen (FitStep .doubling) World.empty w ∧
      (w.headers 1).elems.Nodup :=
  have hrun := (Relation.ReflTransGen.refl : Relation.ReflTransGen (FitStep .doubling)
      (World.empty : World Nat) World.empty)
    |>.tail (Step.fitStep (Step.new _))
    |>.tail (Step.fitStep (Step.appendEmpty ⟨0, .mutable⟩ _ (by decide) rfl))
    |>.tail (Step.fitStep (Step.new _))
    |>.tail (Step.fitStep (Step.copyTo ⟨0, .mutable⟩ ⟨1, .mutable⟩ (by decide) (by decide)
      (by decide) rfl))
    |>.tail (Step.fitStep (Step.set ⟨1, .mutable⟩ 0 _ 7 (by decide) rfl rfl))
  ⟨_, hrun, fitRun_nodup_elems hrun 1⟩

end Pdata
