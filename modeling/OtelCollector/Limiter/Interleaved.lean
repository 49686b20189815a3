/-
# Interleaved clients of one limiter

`baseCapacityLimiter.claim` makes two atomic operations on the shared `used`: a `Load`,
compared with `cap`, and later an `Add`.  Here any number of clients (an index type `ι`)
share `used`; each `Claim` is the two steps `Shared.Step.check` (or `refuse`) and
`Shared.Step.add`, and each `Release` of a held element is one atomic add.

* `check_all_then_add_all` — clients that all pass the check before any of them adds are
  all admitted, whatever their sum: `used` then exceeds `cap`
  (`twenty_claims_fill_ten_units`);
* `used_le_card_mul_cap` — what does hold over every interleaving: `used` stays the exact
  sum of the held units, and below the number of clients times `cap`, the bound the race
  above attains.

The steps are those of `BaseCapacityLimiter.claim` and `release` cut at the `Load`: run
without interruption they are the sequential calls (`reachable_ofLedger`).
-/
import OtelCollector.Limiter.Ledger

namespace QueueCapacity

/-- The shared counter, the element each client is between its check and its `Add`
for, and the elements whose `Claim` returned true and that are not released yet. -/
structure Shared (ι α : Type) where
  used : BitVec 64
  pending : ι → Option α
  held : List α

namespace Shared

variable {ι α : Type} [DecidableEq ι] [DecidableEq α] (sizeOf : α → BitVec 64) (cap : BitVec 64)

/-- One atomic step of one client, with `SizeOf` and `cap` of the limiter. -/
inductive Step : Shared ι α → Shared ι α → Prop
  /-- `used.Load() + claimed > cap`: the client's `claim` returns false. -/
  | refuse (s : Shared ι α) (i : ι) (el : α) (hidle : s.pending i = none)
      (h : s.used + sizeOf el > cap) : Step s s
  /-- The check passed on the loaded value; the client goes on to its `Add`. -/
  | check (s : Shared ι α) (i : ι) (el : α) (hidle : s.pending i = none)
      (h : ¬ s.used + sizeOf el > cap) :
      Step s { s with pending := Function.update s.pending i (some el) }
  /-- `used.Add(claimed)`: the client's `claim` returns true and `el` is held. -/
  | add (s : Shared ι α) (i : ι) (el : α) (h : s.pending i = some el) :
      Step s ⟨s.used + sizeOf el, Function.update s.pending i none, el :: s.held⟩
  /-- `Release(el)` of a held element: one atomic `used.Add(^(SizeOf(el) - 1))`. -/
  | release (s : Shared ι α) (el : α) (h : el ∈ s.held) :
      Step s { s with used := s.used + ~~~(sizeOf el - 1), held := s.held.erase el }

/-- A fresh limiter: nothing used, no client inside `claim`, nothing held. -/
def init : Shared ι α := ⟨0, fun _ => none, []⟩

/-- The states of every interleaving of the clients' steps from `init`. -/
def Reachable (s : Shared ι α) : Prop :=
  Relation.ReflTransGen (Step sizeOf cap) init s

/-! ## Sequential calls are uninterrupted interleavings -/

/-- A sequential ledger as the interleaved model sees it: no client is inside `claim`. -/
def ofLedger (s : Ledger α) : Shared ι α := ⟨s.limiter.base.used, fun _ => none, s.held⟩

/-- One call of the sequential client is a run of client `i`'s steps with no other step
between them: a refused `claim` is `refuse`, an admitted one is `check` followed at once by
`add`, and `Release` is `release`. -/
theorem ledger_step_shared (i : ι) {s t : Ledger α} (hst : Ledger.Step s t) :
    Relation.ReflTransGen (Step s.limiter.sizeOf s.limiter.base.cap) (ofLedger s : Shared ι α)
      (ofLedger t) := by
  cases hst with
  | claim el =>
    by_cases hgt : s.limiter.base.used + s.limiter.sizeOf el > s.limiter.base.cap
    · simp only [QueueCapacityLimiter.claim, BaseCapacityLimiter.claim, if_pos hgt]
      exact .single (Step.refuse _ i el rfl hgt)
    · simp only [QueueCapacityLimiter.claim, BaseCapacityLimiter.claim, if_neg hgt, if_true]
      have hadd : Step s.limiter.sizeOf s.limiter.base.cap
          ⟨s.limiter.base.used, Function.update (fun _ => none) i (some el), s.held⟩
          ⟨s.limiter.base.used + s.limiter.sizeOf el,
            Function.update (Function.update (fun _ => none) i (some el)) i none, el :: s.held⟩ :=
        Step.add _ i el (by simp)
      simp only [Function.update_idem, Function.update_eq_self] at hadd
      exact .head (Step.check _ i el rfl hgt) (.single hadd)
  | release el hel => exact .single (Step.release _ el hel)

/-- Every sequential run from a fresh limiter is an interleaving of its clients' steps. -/
theorem reachable_ofLedger (i : ι) {l : QueueCapacityLimiter α} (h0 : l.base.used = 0)
    {s : Ledger α} (hs : Ledger.Reachable l s) :
    Reachable l.sizeOf l.base.cap (ofLedger s : Shared ι α) := by
  suffices s.limiter.sizeOf = l.sizeOf ∧ s.limiter.base.cap = l.base.cap ∧
      Reachable l.sizeOf l.base.cap (ofLedger s : Shared ι α) from this.2.2
  induction hs with
  | refl =>
    have hinit : (ofLedger ⟨l, []⟩ : Shared ι α) = init := by simp [ofLedger, init, h0]
    exact ⟨rfl, rfl, hinit ▸ .refl⟩
  | tail _ hst ih =>
    obtain ⟨hsz, hcap, hr⟩ := ih
    have hrun := ledger_step_shared i hst
    rw [hsz, hcap] at hrun
    cases hst <;> exact ⟨by simp [hsz], by simp [hcap], hr.trans hrun⟩

/-! ## The race -/

/-- The clients `cs`, all idle, each pass the check on the same `used`, one after the
other. -/
theorem check_all (s : Shared ι α) (el : ι → α) :
    ∀ cs : List ι, cs.Nodup →
      (∀ i ∈ cs, s.pending i = none ∧ ¬ s.used + sizeOf (el i) > cap) →
      Relation.ReflTransGen (Step sizeOf cap) s
        { s with pending := fun i => if i ∈ cs then some (el i) else s.pending i }
  | [], _, _ => by simpa using Relation.ReflTransGen.refl
  | i :: cs, hnd, hok => by
    obtain ⟨hi, hnd⟩ := List.nodup_cons.mp hnd
    obtain ⟨hidle, hfit⟩ := hok i (List.mem_cons_self i cs)
    have hrun := check_all s el cs hnd (fun j hj => hok j (List.mem_cons_of_mem i hj))
    have heq : (fun j => if j ∈ i :: cs then some (el j) else s.pending j) =
        Function.update (fun j => if j ∈ cs then some (el j) else s.pending j) i
          (some (el i)) := by
      funext j; by_cases hj : j = i <;> simp [Function.update, hj]
    rw [heq]
    exact hrun.tail (Step.check _ i (el i) (by simp [hi, hidle]) hfit)

/-- The checked clients `cs` then each `Add`, one after the other: `used` grows by the sum
of their sizes, and every one of their claims returns true. -/
theorem add_all (el : ι → α) :
    ∀ cs : List ι, cs.Nodup → ∀ t : Shared ι α, (∀ i ∈ cs, t.pending i = some (el i)) →
      Relation.ReflTransGen (Step sizeOf cap) t
        ⟨t.used + (cs.map fun i => sizeOf (el i)).sum,
          fun i => if i ∈ cs then none else t.pending i, (cs.map el).reverse ++ t.held⟩
  | [], _, t, _ => by simpa using Relation.ReflTransGen.refl
  | i :: cs, hnd, t, hp => by
    obtain ⟨hi, hnd⟩ := List.nodup_cons.mp hnd
    have hrun := add_all el cs hnd
      ⟨t.used + sizeOf (el i), Function.update t.pending i none, el i :: t.held⟩
      fun j hj => by
        have hji : j ≠ i := fun h => hi (h ▸ hj)
        simpa [Function.update, hji] using hp j (List.mem_cons_of_mem i hj)
    have heq : (fun j => if j ∈ cs then none else Function.update t.pending i none j) =
        fun j => if j ∈ i :: cs then none else t.pending j := by
      funext j; by_cases hj : j = i <;> simp [Function.update, hj]
    simp only [heq, BitVec.add_assoc, List.map_cons, List.sum_cons, List.reverse_cons,
      List.append_assoc, List.singleton_append] at hrun ⊢
    exact (Relation.ReflTransGen.single
      (Step.add t i (el i) (hp i (List.mem_cons_self i cs)))).trans hrun

/-- **Check before add.**  From a fresh limiter, clients that all pass the check before
any of them adds are all admitted: `used` ends at the sum of their sizes, each of
which alone fits in `cap`, and every one of their elements is held. -/
theorem check_all_then_add_all (el : ι → α) (cs : List ι) (hnd : cs.Nodup)
    (hfit : ∀ i ∈ cs, sizeOf (el i) ≤ cap) :
    Reachable sizeOf cap
      ⟨(cs.map fun i => sizeOf (el i)).sum, fun _ : ι => none, (cs.map el).reverse⟩ := by
  have h1 := check_all sizeOf cap init el cs hnd fun i hi =>
    ⟨rfl, by simpa [init] using hfit i hi⟩
  have h2 := add_all sizeOf cap el cs hnd
    { (init : Shared ι α) with pending := fun i => if i ∈ cs then some (el i) else none }
    fun i hi => by simp [hi]
  have hidle : (fun i => if i ∈ cs then none else
      if i ∈ cs then some (el i) else (none : Option α)) = fun _ => none := by
    funext i; by_cases hi : i ∈ cs <;> simp [hi]
  simp only [init, BitVec.ofNat_eq_ofNat, BitVec.zero_add, List.append_nil, hidle] at h1 h2
  exact h1.trans h2

/-! ## What every interleaving keeps -/

/-- The units a client between its check and its `Add` is about to add. -/
def pendingUnits (o : Option α) : Nat := o.elim 0 fun el => (sizeOf el).toNat

omit [DecidableEq ι] [DecidableEq α] in
@[simp] theorem pendingUnits_none : pendingUnits sizeOf none = 0 := rfl

omit [DecidableEq ι] [DecidableEq α] in
@[simp] theorem pendingUnits_some (el : α) : pendingUnits sizeOf (some el) = (sizeOf el).toNat :=
  rfl

variable [Fintype ι]

/-- The invariant of every interleaving: `used` is the exact sum of the held units, every
pending element alone fits in `cap`, and `used` with the pending units stays within `n`
times `cap`. -/
structure Bounded (sizeOf : α → BitVec 64) (cap : BitVec 64) (n : Nat) (s : Shared ι α) :
    Prop where
  used_eq : s.used.toNat = Ledger.units sizeOf s.held
  pending_le : ∀ i el, s.pending i = some el → (sizeOf el).toNat ≤ cap.toNat
  total_le : s.used.toNat + ∑ i, pendingUnits sizeOf (s.pending i) ≤ n * cap.toNat

omit [DecidableEq α] in
/-- Setting one client's pending element changes the pending total by the difference. -/
theorem sum_pendingUnits_update (p : ι → Option α) (i : ι) (o : Option α) :
    ∑ j, pendingUnits sizeOf (Function.update p i o j) + pendingUnits sizeOf (p i) =
      ∑ j, pendingUnits sizeOf (p j) + pendingUnits sizeOf o := by
  have h1 := Finset.add_sum_erase Finset.univ
    (fun j => pendingUnits sizeOf (Function.update p i o j)) (Finset.mem_univ i)
  have h2 := Finset.add_sum_erase Finset.univ (fun j => pendingUnits sizeOf (p j))
    (Finset.mem_univ i)
  have h3 : ∑ j ∈ Finset.univ.erase i, pendingUnits sizeOf (Function.update p i o j) =
      ∑ j ∈ Finset.univ.erase i, pendingUnits sizeOf (p j) :=
    Finset.sum_congr rfl fun j hj => by rw [Function.update_noteq (Finset.ne_of_mem_erase hj)]
  dsimp only at h1 h2
  simp only [Function.update_same] at h1
  omega

variable {sizeOf cap}

omit [DecidableEq α] in
/-- The pending units of the clients other than an idle one fill at most `n - 1` times
`cap`. -/
theorem sum_pendingUnits_le_of_idle {s : Shared ι α} (h : Bounded sizeOf cap
    (Fintype.card ι) s) {i : ι} (hidle : s.pending i = none) :
    ∑ j, pendingUnits sizeOf (s.pending j) ≤ Fintype.card ι * cap.toNat - cap.toNat := by
  have hbound : ∀ j ∈ Finset.univ.erase i, pendingUnits sizeOf (s.pending j) ≤ cap.toNat := by
    intro j _
    cases hj : s.pending j with
    | none => simp
    | some el => simpa using h.pending_le j el hj
  calc ∑ j, pendingUnits sizeOf (s.pending j)
      = ∑ j ∈ Finset.univ.erase i, pendingUnits sizeOf (s.pending j) :=
        (Finset.sum_erase _ (by simp [hidle])).symm
    _ ≤ (Finset.univ.erase i).card * cap.toNat := Finset.sum_le_card_nsmul _ _ _ hbound
    _ = Fintype.card ι * cap.toNat - cap.toNat := by
        rw [Finset.card_erase_of_mem (Finset.mem_univ i), Finset.card_univ, Nat.sub_one_mul]

section Bound

variable (hsize : ∀ el, (sizeOf el).toNat < 2 ^ 63)
  (hcap : Fintype.card ι * cap.toNat < 2 ^ 63)
include hsize hcap

/-- **The step lemma.**  Every atomic step keeps `Bounded`. -/
theorem bounded_step {s t : Shared ι α} (h : Bounded sizeOf cap (Fintype.card ι) s)
    (hst : Step sizeOf cap s t) : Bounded sizeOf cap (Fintype.card ι) t := by
  have htot := h.total_le
  cases hst with
  | refuse => exact h
  | check i el hidle hchk =>
    have hlt : s.used.toNat + (sizeOf el).toNat < 2 ^ 64 := by have := hsize el; omega
    have hfit : s.used.toNat + (sizeOf el).toNat ≤ cap.toNat := by
      rw [gt_iff_lt, BitVec.lt_def, BitVec.toNat_add, Nat.mod_eq_of_lt hlt] at hchk; omega
    have hothers := sum_pendingUnits_le_of_idle h hidle
    have hupd := sum_pendingUnits_update sizeOf s.pending i (some el)
    have hpos : cap.toNat ≤ Fintype.card ι * cap.toNat :=
      Nat.le_mul_of_pos_left _ (Fintype.card_pos_iff.mpr ⟨i⟩)
    refine ⟨h.used_eq, fun j e hj => ?_, ?_⟩
    · by_cases hji : j = i
      · subst hji; simp at hj; subst hj; omega
      · exact h.pending_le j e (by simpa [Function.update_noteq hji] using hj)
    · simp only [hidle, pendingUnits_none, pendingUnits_some] at hupd
      dsimp only
      omega
  | add i el hp =>
    have hupd := sum_pendingUnits_update sizeOf s.pending i none
    have hle : (sizeOf el).toNat ≤ ∑ j, pendingUnits sizeOf (s.pending j) := by
      simpa [hp] using Finset.single_le_sum (f := fun j => pendingUnits sizeOf (s.pending j))
        (fun _ _ => Nat.zero_le _) (Finset.mem_univ i)
    have hlt : s.used.toNat + (sizeOf el).toNat < 2 ^ 64 := by omega
    have hused : (s.used + sizeOf el).toNat = s.used.toNat + (sizeOf el).toNat := by
      rw [BitVec.toNat_add, Nat.mod_eq_of_lt hlt]
    refine ⟨by rw [hused, h.used_eq, Ledger.units_cons]; omega, fun j e hj => ?_, ?_⟩
    · by_cases hji : j = i
      · subst hji; simp at hj
      · exact h.pending_le j e (by simpa [Function.update_noteq hji] using hj)
    · simp only [hp, pendingUnits_none, pendingUnits_some] at hupd
      dsimp only
      omega
  | release el hel =>
    have hsum := Ledger.units_erase sizeOf hel
    have hle : (sizeOf el).toNat ≤ s.used.toNat := by rw [h.used_eq]; omega
    have hused := BaseCapacityLimiter.release_toNat ⟨s.used, cap⟩ (sizeOf el) hle
    simp only [BaseCapacityLimiter.release] at hused
    refine ⟨?_, h.pending_le, ?_⟩
    · dsimp only
      rw [hused, h.used_eq]; omega
    · dsimp only
      omega

/-- **Overshoot is bounded.**  Over every interleaving of the clients' steps, `used` stays
the exact sum of the units of the held elements, and within the number of clients times
`cap`. -/
theorem used_le_card_mul_cap {s : Shared ι α} (hs : Reachable sizeOf cap s) :
    s.used.toNat = Ledger.units sizeOf s.held ∧ s.used.toNat ≤ Fintype.card ι * cap.toNat := by
  suffices h : Bounded sizeOf cap (Fintype.card ι) s by
    have := h.total_le
    exact ⟨h.used_eq, by omega⟩
  induction hs with
  | refl => exact ⟨rfl, by simp [init], by simp [init]⟩
  | tail _ hst ih => exact bounded_step hsize hcap ih hst

end Bound

/-- `used_le_card_mul_cap` at twenty one-unit clients of a capacity-`10` limiter, all
checking before any adds: `used` reaches `20`, the twenty held units, within `20 * 10`. -/
theorem used_le_card_mul_cap_twenty :
    (∀ _ : Fin 20, (1 : BitVec 64).toNat < 2 ^ 63) ∧
    Fintype.card (Fin 20) * (10 : BitVec 64).toNat < 2 ^ 63 ∧
    Reachable (ι := Fin 20) (fun _ : Fin 20 => (1 : BitVec 64)) 10
      ⟨20, fun _ => none, (List.finRange 20).reverse⟩ ∧
    (20 : BitVec 64).toNat =
      Ledger.units (fun _ : Fin 20 => (1 : BitVec 64)) (List.finRange 20).reverse ∧
    (20 : BitVec 64).toNat ≤ Fintype.card (Fin 20) * (10 : BitVec 64).toNat := by
  have hs := check_all_then_add_all (fun _ : Fin 20 => (1 : BitVec 64)) 10 id
    (List.finRange 20) (List.nodup_finRange 20)
    fun _ _ => show (1 : BitVec 64) ≤ 10 by decide
  simp only [List.map_id, List.map_const', List.length_finRange] at hs
  exact ⟨fun _ => by decide, by decide, hs,
    used_le_card_mul_cap (fun _ => by decide) (by decide) hs⟩

end Shared

/-- **The race, at the failing input.**  The requests limiter with capacity `10` and
twenty clients each claiming one request: in the schedule where all twenty load `used`
before any adds, all twenty claims return true and `used` reaches `20 > 10`. -/
theorem twenty_claims_fill_ten_units :
    Shared.Reachable (ι := Fin 20) (newRequestsCapacityLimiter (α := Fin 20) 10).sizeOf
      (newRequestsCapacityLimiter (α := Fin 20) 10).base.cap
      ⟨20, fun _ => none, (List.finRange 20).reverse⟩ ∧
    (20 : BitVec 64) > (newRequestsCapacityLimiter (α := Fin 20) 10).base.cap := by
  have h := Shared.check_all_then_add_all (newRequestsCapacityLimiter (α := Fin 20) 10).sizeOf
    (newRequestsCapacityLimiter (α := Fin 20) 10).base.cap id
    (List.finRange 20) (List.nodup_finRange 20)
    fun _ _ => show (1 : BitVec 64) ≤ BitVec.ofInt 64 10 by decide
  simp only [newRequestsCapacityLimiter, List.map_id, List.map_const', List.length_finRange]
    at h ⊢
  exact ⟨h, by decide⟩

end QueueCapacity
