/-
# `RemoveIf` keeps exactly the rejected elements, in order

The compaction loop of `ScopeEntitiesSlice.RemoveIf` calls `f` at each index and moves
each kept element down to `newLen`.  Its invariant (`removeIfLoop_spec`): `newLen ≤ i`,
the first `newLen` slots hold what the calls so far kept, and the slots from `i` on are
untouched.  So the callback sees every element once, in order, and the elements left are
those it rejected (`keepRejected`); with a callback that logs its calls,
`removeIf_calls_each_once` says this in terms of `List.filter`.
-/
import OtelCollector.Pdata.ScopeEntitiesSlice

namespace Pdata

variable {σ α : Type}

/-- What `RemoveIf` is for, with a callback that has state of its own: call it on each
element in order, keep the elements it rejects, and end in its final state. -/
def keepRejected (f : σ → α → Bool × σ) : σ → List α → List α × σ
  | s, [] => ([], s)
  | s, a :: l =>
    let r := f s a
    let t := keepRejected f r.2 l
    (if r.1 then t.1 else a :: t.1, t.2)

/-- The kept elements are a sublist of the input. -/
theorem keepRejected_sublist (f : σ → α → Bool × σ) :
    ∀ s l, (keepRejected f s l).1.Sublist l
  | _, [] => .slnil
  | s, a :: l => by
    simp only [keepRejected]
    split
    · exact (keepRejected_sublist f _ l).cons a
    · exact (keepRejected_sublist f _ l).cons₂ a

/-- With a callback that answers `p` and logs what it was called with, `keepRejected` is
`List.filter`, and the log is the whole list, in order. -/
theorem keepRejected_log {γ : Type} (p : α → Bool) (g : α → γ) :
    ∀ (log : List γ) (l : List α),
      keepRejected (fun (calls : List γ) a => (p a, calls ++ [g a])) log l =
        (l.filter fun a => !p a, log ++ l.map g)
  | log, [] => by simp [keepRejected]
  | log, a :: l => by
    simp only [keepRejected, keepRejected_log p g (log ++ [g a]) l, List.append_assoc,
      List.singleton_append, List.filter_cons, List.map_cons]
    cases p a <;> rfl

theorem take_succ_set {l : List α} {n : Nat} (a : α) (h : n < l.length) :
    (l.set n a).take (n + 1) = l.take n ++ [a] := by
  have hlen : (l.take n).length = n := by simp; omega
  have happ := @List.take_append _ (l.take n) (a :: l.drop (n + 1)) 1
  rw [hlen] at happ
  rw [List.set_eq_take_append_cons_drop, if_pos h, happ]
  rfl

theorem take_succ_of_lt {l : List α} {n : Nat} (d : α) (h : n < l.length) :
    l.take (n + 1) = l.take n ++ [l.getD n d] := by
  rw [List.take_succ, List.getElem?_eq_getElem h]
  simp [List.getD_eq_getElem?_getD, List.getElem?_eq_getElem h]

/-- **The loop invariant.**  From index `i` with `k` iterations left and `newLen ≤ i`
kept, the loop keeps what `keepRejected` keeps of the `k` slots from `i` on, after the
`newLen` already kept. -/
theorem removeIfLoop_spec (f : σ → ScopeEntities → Bool × σ) (st : State) :
    ∀ k i newLen (slots : List (Option Addr)) s, newLen ≤ i → i + k ≤ slots.length →
      (removeIfLoop f st k i newLen slots s).2.1.take (removeIfLoop f st k i newLen slots s).1 =
        slots.take newLen ++
          (keepRejected (fun s e => f s ⟨e, st⟩) s ((slots.drop i).take k)).1 ∧
      (removeIfLoop f st k i newLen slots s).2.2 =
        (keepRejected (fun s e => f s ⟨e, st⟩) s ((slots.drop i).take k)).2
  | 0, i, newLen, slots, s, _, _ => by simp [removeIfLoop, keepRejected]
  | k + 1, i, newLen, slots, s, hle, hk => by
    have hi : i < slots.length := by omega
    have hdrop :
        (slots.drop i).take (k + 1) = slots.getD i none :: (slots.drop (i + 1)).take k := by
      rw [List.drop_eq_getElem_cons hi, List.take_succ_cons]
      simp [List.getD_eq_getElem?_getD, List.getElem?_eq_getElem hi]
    rw [hdrop]
    simp only [removeIfLoop, keepRejected]
    split_ifs with hr heq
    · exact removeIfLoop_spec f st k (i + 1) newLen slots _ (by omega) (by omega)
    · obtain ⟨h₁, h₂⟩ := removeIfLoop_spec f st k (i + 1) (newLen + 1) slots
        (f s ⟨slots.getD i none, st⟩).2 (by omega) (by omega)
      refine ⟨?_, h₂⟩
      rw [h₁, take_succ_of_lt none (heq ▸ hi), heq]
      simp
    · obtain ⟨h₁, h₂⟩ := removeIfLoop_spec f st k (i + 1) (newLen + 1)
        (slots.set newLen (slots.getD i none)) (f s ⟨slots.getD i none, st⟩).2 (by omega)
        (by simp; omega)
      rw [List.drop_set_of_lt _ _ (by omega)] at h₁ h₂
      refine ⟨?_, h₂⟩
      rw [h₁, take_succ_set _ (by omega)]
      simp

namespace ScopeEntitiesSlice

variable {β : Type}

/-- `RemoveIf` on a mutable slice: the callback ends as `keepRejected` says, the slice
holds the rejected elements, and no other slice variable and no message changes. -/
theorem removeIf_spec (w : World β) (es : ScopeEntitiesSlice) (hmut : es.state = .mutable)
    (f : σ → ScopeEntities → Bool × σ) (s₀ : σ) :
    ∃ w', removeIf w es f s₀ =
        some (w', (keepRejected (fun s e => f s ⟨e, es.state⟩) s₀ (slice w es).elems).2) ∧
      (slice w' es).elems =
        (keepRejected (fun s e => f s ⟨e, es.state⟩) s₀ (slice w es).elems).1 ∧
      (∀ h, h ≠ es.orig → w'.headers h = w.headers h) ∧ w'.heap = w.heap := by
  obtain ⟨orig, st⟩ := es
  obtain rfl : st = .mutable := hmut
  obtain ⟨h₁, h₂⟩ := removeIfLoop_spec f .mutable (slice w ⟨orig, .mutable⟩).len 0 0
    (slice w ⟨orig, .mutable⟩).slots s₀ le_rfl (by simpa using (slice w ⟨orig, .mutable⟩).len_le)
  simp only [List.take_zero, List.nil_append, List.drop_zero] at h₁ h₂
  have hrun : removeIf w ⟨orig, .mutable⟩ f s₀ = some (_, _) := rfl
  refine ⟨_, hrun.trans (by rw [h₂]; rfl), ?_, fun h hne => ?_, ?_⟩
  · simp only [slice, World.headers_setHeader, if_true]
    exact (GoSlice.elems_withSlots _ _ _ _ _).trans h₁
  · simp [hne]
  · rfl

/-- **`RemoveIf` filters.**  For every slice and every predicate `p`, a callback that
answers `p` and logs its calls is called once on each element, in index order, with the
element at that index; afterwards the slice holds exactly the elements `p` rejected, the
same pointers in the same order, and no other slice variable and no message changed. -/
theorem removeIf_calls_each_once (w : World β) (es : ScopeEntitiesSlice)
    (hmut : es.state = .mutable) (p : ScopeEntities → Bool) :
    ∃ w', removeIf w es (fun (calls : List ScopeEntities) e => (p e, calls ++ [e])) [] =
        some (w', (slice w es).elems.map fun e => ⟨e, es.state⟩) ∧
      (slice w' es).elems = (slice w es).elems.filter (fun e => !p ⟨e, es.state⟩) ∧
      (∀ h, h ≠ es.orig → w'.headers h = w.headers h) ∧ w'.heap = w.heap := by
  obtain ⟨w', hrun, hkept, hrest⟩ := removeIf_spec w es hmut
    (fun (calls : List ScopeEntities) e => (p e, calls ++ [e])) []
  have hlog := keepRejected_log (fun e => p ⟨e, es.state⟩)
    (fun e => (⟨e, es.state⟩ : ScopeEntities)) [] (slice w es).elems
  rw [hlog, List.nil_append] at hrun
  rw [hlog] at hkept
  exact ⟨w', hrun, hkept, hrest⟩

/-- `removeIf_calls_each_once` on a slice of three messages, dropping the middle one. -/
theorem removeIf_calls_each_once_three :
    let w : World Nat := ⟨fun _ => ⟨some [some 0, some 1, some 2], 3, by decide⟩, 1, id, 3⟩
    (⟨0, .mutable⟩ : ScopeEntitiesSlice).state = .mutable ∧
    ∃ w', removeIf w ⟨0, .mutable⟩
          (fun (calls : List ScopeEntities) e => (e.orig = some 1, calls ++ [e])) [] =
        some (w', (slice w ⟨0, .mutable⟩).elems.map fun e => ⟨e, .mutable⟩) ∧
      (slice w' ⟨0, .mutable⟩).elems =
        (slice w ⟨0, .mutable⟩).elems.filter (fun e => !decide (e = some 1)) ∧
      (∀ h, h ≠ 0 → w'.headers h = w.headers h) ∧ w'.heap = w.heap :=
  ⟨rfl, removeIf_calls_each_once _ ⟨0, .mutable⟩ rfl fun e => decide (e.orig = some 1)⟩

end ScopeEntitiesSlice

end Pdata
