/-
# Interleaved `getShard` calls

On the multi-shard path `sharder.getShard` makes three steps on shared state: `Load` of
the request's key; on a miss, `newShardBatcher` and `start`; then `Store`.  Here any
number of callers (an index type `ι`) interleave those steps.  A call records the request
and the batcher it returned, which `multiBatcher.Consume` then feeds; `started` records
every batcher started, with the key it was made for.

* `same_key_race_leaks_shard` — two callers that both miss a fresh key each make, start
  and return a batcher of their own; the second `Store` replaces the first, so
  `Shutdown` never reaches the first batcher, which was fed a request;
* `returned_ne_of_key_ne` — what holds over every interleaving: calls for different
  keys are given different batchers.
-/
import OtelCollector.Sharder.GetShard

namespace QueueBatch

/-- Where a caller is inside `getShard`. -/
inductive CallPc (ρ κ : Type)
  | idle
  /-- `Load(key)` missed. -/
  | missed (req : ρ) (key : κ)
  /-- `newShardBatcher` and `start` made `sb`; `Store(key, sb)` is next. -/
  | made (req : ρ) (key : κ) (sb : ShardBatcher)

/-- The shared sharder, each caller's place, the batchers started so far with the key
each was made for, and every `(request, batcher)` pair a call returned. -/
structure Callers (ι ρ κ : Type) [DecidableEq κ] where
  sharder : Sharder ρ κ
  pc : ι → CallPc ρ κ
  started : List (κ × ShardBatcher)
  returned : List (ρ × ShardBatcher)

namespace Callers

variable {ι ρ κ : Type} [DecidableEq ι] [DecidableEq κ]

/-- One atomic step of one caller. -/
inductive Step : Callers ι ρ κ → Callers ι ρ κ → Prop
  /-- `getShard` returns the single shard. -/
  | single (s : Callers ι ρ κ) (i : ι) (req : ρ) (sb : ShardBatcher)
      (hidle : s.pc i = .idle) (h : s.sharder.singleShard = some sb) :
      Step s { s with returned := (req, sb) :: s.returned }
  /-- `Load(key)` finds a batcher, which `getShard` returns. -/
  | hit (s : Callers ι ρ κ) (i : ι) (req : ρ) (getKey : ρ → κ) (sb : ShardBatcher)
      (hidle : s.pc i = .idle) (hs : s.sharder.singleShard = none)
      (hp : s.sharder.partitioner = some getKey)
      (h : s.sharder.shards.lookup (getKey req) = some sb) :
      Step s { s with returned := (req, sb) :: s.returned }
  /-- `Load(key)` misses. -/
  | miss (s : Callers ι ρ κ) (i : ι) (req : ρ) (getKey : ρ → κ)
      (hidle : s.pc i = .idle) (hs : s.sharder.singleShard = none)
      (hp : s.sharder.partitioner = some getKey)
      (h : s.sharder.shards.lookup (getKey req) = none) :
      Step s { s with pc := Function.update s.pc i (.missed req (getKey req)) }
  /-- `newShardBatcher(...)` and `sb.start()`. -/
  | make (s : Callers ι ρ κ) (i : ι) (req : ρ) (key : κ) (h : s.pc i = .missed req key) :
      Step s { s with
        sharder := s.sharder.newShardBatcher.1
        pc := Function.update s.pc i (.made req key s.sharder.newShardBatcher.2)
        started := (key, s.sharder.newShardBatcher.2) :: s.started }
  /-- `Store(key, sb)`, and `getShard` returns `sb`. -/
  | store (s : Callers ι ρ κ) (i : ι) (req : ρ) (key : κ) (sb : ShardBatcher)
      (h : s.pc i = .made req key sb) :
      Step s { s with
        sharder := { s.sharder with shards := s.sharder.shards.insert key sb }
        pc := Function.update s.pc i .idle
        returned := (req, sb) :: s.returned }

/-- A new sharder with no call in progress. -/
def init (partitioner : Option (ρ → κ)) : Callers ι ρ κ :=
  ⟨newSharder partitioner, fun _ => .idle, [], []⟩

/-- The states of every interleaving of calls on a new sharder. -/
def Reachable (partitioner : Option (ρ → κ)) (s : Callers ι ρ κ) : Prop :=
  Relation.ReflTransGen Step (init partitioner) s

/-! ## What every interleaving keeps -/

/-- The invariant of every interleaving on a multi-shard sharder with key function
`getKey`: batchers are numbered below `made` and started once each; every stored,
made or returned batcher was started for the key it serves. -/
structure KeyedBy (getKey : ρ → κ) (s : Callers ι ρ κ) : Prop where
  partitioner_eq : s.sharder.partitioner = some getKey
  singleShard_eq : s.sharder.singleShard = none
  started_lt : ∀ p ∈ s.started, p.2.id < s.sharder.made
  started_nodup : (s.started.map Prod.snd).Nodup
  stored : ∀ k sb, s.sharder.shards.lookup k = some sb → (k, sb) ∈ s.started
  missed : ∀ i req k, s.pc i = .missed req k → k = getKey req
  made : ∀ i req k sb, s.pc i = .made req k sb → k = getKey req ∧ (k, sb) ∈ s.started
  returned : ∀ p ∈ s.returned, (getKey p.1, p.2) ∈ s.started

omit [DecidableEq κ] in
/-- After caller `i` moves to `c`, caller `j` is at `c` if it is `i`, and where it was
otherwise. -/
theorem update_pc_cases {pc : ι → CallPc ρ κ} {i j : ι} {c d : CallPc ρ κ}
    (h : Function.update pc i c j = d) : j = i ∧ c = d ∨ j ≠ i ∧ pc j = d := by
  by_cases hji : j = i
  · subst hji; exact .inl ⟨rfl, by simpa using h⟩
  · exact .inr ⟨hji, by rwa [Function.update_noteq hji] at h⟩

/-- **The step lemma.**  Every atomic step keeps `KeyedBy`. -/
theorem keyedBy_step {getKey : ρ → κ} {s t : Callers ι ρ κ} (h : KeyedBy getKey s)
    (hst : Step s t) : KeyedBy getKey t := by
  cases hst with
  | single i req sb _ hs => simp [h.singleShard_eq] at hs
  | hit i req getKey' sb _ _ hp hl =>
    obtain rfl : getKey' = getKey := by simpa [h.partitioner_eq] using hp.symm
    refine { h with returned := fun p hp => ?_ }
    rcases List.mem_cons.mp hp with rfl | hp
    · exact h.stored _ _ hl
    · exact h.returned p hp
  | miss i req getKey' _ _ hp _ =>
    obtain rfl : getKey' = getKey := by simpa [h.partitioner_eq] using hp.symm
    refine { h with
      missed := fun j r k hj => ?_
      made := fun j r k sb hj => ?_ }
    · rcases update_pc_cases hj with ⟨-, ⟨⟩⟩ | ⟨-, hj⟩
      · rfl
      · exact h.missed j r k hj
    · rcases update_pc_cases hj with ⟨-, ⟨⟩⟩ | ⟨-, hj⟩
      exact h.made j r k sb hj
  | make i req key hpc =>
    have hfresh : ∀ p ∈ s.started, p.2 ≠ ⟨s.sharder.made⟩ := fun p hp he =>
      lt_irrefl _ (he ▸ h.started_lt p hp)
    refine ⟨h.partitioner_eq, h.singleShard_eq, fun p hp => ?_, ?_, fun k sb hk => ?_,
      fun j r k hj => ?_, fun j r k sb hj => ?_, fun p hp => ?_⟩
    · rcases List.mem_cons.mp hp with rfl | hp
      · exact Nat.lt_succ_self _
      · exact Nat.lt_succ_of_lt (h.started_lt p hp)
    · refine List.nodup_cons.mpr ⟨fun hm => ?_, h.started_nodup⟩
      obtain ⟨p, hp, he⟩ := List.mem_map.mp hm
      exact hfresh p hp he
    · exact List.mem_cons_of_mem _ (h.stored k sb hk)
    · rcases update_pc_cases hj with ⟨-, ⟨⟩⟩ | ⟨-, hj⟩
      exact h.missed j r k hj
    · rcases update_pc_cases hj with ⟨rfl, ⟨⟩⟩ | ⟨-, hj⟩
      · exact ⟨h.missed _ _ _ hpc, List.mem_cons_self _ _⟩
      · obtain ⟨hk, hm⟩ := h.made j r k sb hj
        exact ⟨hk, List.mem_cons_of_mem _ hm⟩
    · exact List.mem_cons_of_mem _ (h.returned p hp)
  | store i req key sb hpc =>
    obtain ⟨hk, hm⟩ := h.made i req key sb hpc
    refine ⟨h.partitioner_eq, h.singleShard_eq, h.started_lt, h.started_nodup,
      fun k sb' hl => ?_, fun j r k hj => ?_, fun j r k sb' hj => ?_, fun p hp => ?_⟩
    · by_cases hkk : k = key
      · subst hkk
        simp only [AList.lookup_insert, Option.some.injEq] at hl
        exact hl ▸ hm
      · exact h.stored k sb' (by simpa [AList.lookup_insert_ne hkk] using hl)
    · rcases update_pc_cases hj with ⟨-, ⟨⟩⟩ | ⟨-, hj⟩
      exact h.missed j r k hj
    · rcases update_pc_cases hj with ⟨-, ⟨⟩⟩ | ⟨-, hj⟩
      exact h.made j r k sb' hj
    · rcases List.mem_cons.mp hp with rfl | hp
      · exact hk ▸ hm
      · exact h.returned p hp

/-- **The run lemma.**  Every state reached from a new multi-shard sharder is `KeyedBy`. -/
theorem keyedBy_of_reachable (getKey : ρ → κ) {s : Callers ι ρ κ}
    (hs : Reachable (some getKey) s) : KeyedBy getKey s := by
  induction hs with
  | refl => exact ⟨rfl, rfl, by simp [init], by simp [init], by simp [init, newSharder],
      by simp [init], by simp [init], by simp [init]⟩
  | tail _ hst ih => exact keyedBy_step ih hst

/-- **Different keys, different batchers.**  Over every interleaving of calls on a new
multi-shard sharder, two calls whose requests have different keys were given different
batchers. -/
theorem returned_ne_of_key_ne (getKey : ρ → κ) {s : Callers ι ρ κ}
    (hs : Reachable (some getKey) s) {p q : ρ × ShardBatcher} (hp : p ∈ s.returned)
    (hq : q ∈ s.returned) (hkey : getKey p.1 ≠ getKey q.1) : p.2 ≠ q.2 := by
  have h := keyedBy_of_reachable getKey hs
  intro he
  have := List.inj_on_of_nodup_map h.started_nodup (h.returned p hp) (h.returned q hq) he
  exact hkey (Prod.mk.inj this).1

/-- `returned_ne_of_key_ne` on two callers serving the keys `true` and `false`. -/
theorem returned_ne_of_key_ne_two_keys :
    ∃ s : Callers Bool Bool Bool, Reachable (some id) s ∧ (true, ⟨0⟩) ∈ s.returned ∧
      (false, ⟨1⟩) ∈ s.returned ∧ id true ≠ id false ∧ (⟨0⟩ : ShardBatcher) ≠ ⟨1⟩ := by
  obtain ⟨s, hs, hret⟩ : ∃ s : Callers Bool Bool Bool, Reachable (some id) s ∧
      s.returned = [(false, ⟨1⟩), (true, ⟨0⟩)] :=
    ⟨_, (((((Relation.ReflTransGen.refl.tail
      (Step.miss _ true true _ (by rfl) (by rfl) (by rfl) (by rfl))).tail
      (Step.make _ true true true (by rfl))).tail
      (Step.store _ true true true _ (by rfl))).tail
      (Step.miss _ false false _ (by rfl) (by rfl) (by rfl) (by rfl))).tail
      (Step.make _ false false false (by rfl))).tail
      (Step.store _ false false false _ (by rfl)), rfl⟩
  have hp : ((true, ⟨0⟩) : Bool × ShardBatcher) ∈ s.returned := by simp [hret]
  have hq : ((false, ⟨1⟩) : Bool × ShardBatcher) ∈ s.returned := by simp [hret]
  exact ⟨s, hs, hp, hq, by decide, returned_ne_of_key_ne id hs hp hq (by decide)⟩

end Callers

/-- **The race, at the failing input.**  Two callers with requests of the same key, on a
new multi-shard sharder: both `Load`s miss, both make and start a batcher, both `Store`.
Both calls return, with two different batchers for one key, and the first batcher,
started and fed its request, is not among those `Shutdown` shuts down. -/
theorem same_key_race_leaks_shard :
    ∃ s : Callers Bool Unit Unit, Callers.Reachable (some fun _ => ()) s ∧
      (∀ i, s.pc i = .idle) ∧ ((), ⟨0⟩) ∈ s.started ∧
      ((), ⟨0⟩) ∈ s.returned ∧ ((), ⟨1⟩) ∈ s.returned ∧ ⟨0⟩ ∉ s.sharder.shutdown := by
  refine ⟨_, (((((Relation.ReflTransGen.refl.tail
    (Callers.Step.miss _ true () _ (by rfl) (by rfl) (by rfl) (by rfl))).tail
    (Callers.Step.miss _ false () _ (by rfl) (by rfl) (by rfl) (by rfl))).tail
    (Callers.Step.make _ true () () (by rfl))).tail
    (Callers.Step.make _ false () () (by rfl))).tail
    (Callers.Step.store _ true () () _ (by rfl))).tail
    (Callers.Step.store _ false () () _ (by rfl)), fun i => by cases i <;> rfl, ?_, ?_, ?_, ?_⟩ <;>
    decide

end QueueBatch
