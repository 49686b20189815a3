/-
# The queue configuration

`exporter/exporterhelper/queue.go`: `QueueConfig`, `NewDefaultQueueConfig` and
`Validate`.  An `error` is its message, and `none` is a nil error.  The Go `int` fields
are integers: `Validate` only compares them with 0, so the 64-bit range plays no part.

`PersistentQueueConfig` embeds a `QueueConfig` and its `Validate` is the embedded one;
`StorageID` is read only by the queue factories, which choose between queue
implementations that are not in the repository.

Main result: `validate_eq_none_iff` — `Validate` accepts exactly a disabled queue or one
with a positive number of consumers and a positive size.  `validate_eq_some` says which
field each error message is about; the default passes.
-/
import Mathlib

namespace Exporterhelper

/-- `QueueConfig`. -/
structure QueueConfig where
  /-- `enabled` -/
  enabled : Bool
  /-- `num_consumers` -/
  numConsumers : Int
  /-- `queue_size` -/
  queueItemsSize : Int
  deriving DecidableEq, Repr

/-- `NewDefaultQueueConfig()`. -/
def newDefaultQueueConfig : QueueConfig :=
  { enabled := true, numConsumers := 10, queueItemsSize := 100000 }

/-- `(*QueueConfig).Validate()`. -/
def QueueConfig.validate (qCfg : QueueConfig) : Option String :=
  if !qCfg.enabled then none
  else if qCfg.numConsumers ≤ 0 then some "number of consumers must be positive"
  else if qCfg.queueItemsSize ≤ 0 then some "queue size must be positive"
  else none

namespace QueueConfig

/-- **What `Validate` accepts**: a disabled queue, or positive counts. -/
theorem validate_eq_none_iff (qCfg : QueueConfig) :
    qCfg.validate = none ↔ (qCfg.enabled → 0 < qCfg.numConsumers ∧ 0 < qCfg.queueItemsSize) := by
  unfold validate
  cases qCfg.enabled
  · simp
  · simp only [Bool.not_true, Bool.false_eq_true, if_false, forall_const]
    split_ifs <;> simp <;> omega

/-- Each error is about the field it names; the consumers are checked first. -/
theorem validate_eq_some {qCfg : QueueConfig} {msg : String} (h : qCfg.validate = some msg) :
    qCfg.enabled ∧
      (qCfg.numConsumers ≤ 0 ∧ msg = "number of consumers must be positive" ∨
        0 < qCfg.numConsumers ∧ qCfg.queueItemsSize ≤ 0 ∧ msg = "queue size must be positive") := by
  unfold validate at h
  split_ifs at h with hen hc hs <;> cases h
  · exact ⟨by simpa using hen, .inl ⟨hc, rfl⟩⟩
  · exact ⟨by simpa using hen, .inr ⟨by omega, hs, rfl⟩⟩

/-- The default passes its own check. -/
theorem validate_newDefaultQueueConfig : newDefaultQueueConfig.validate = none := rfl

end QueueConfig

end Exporterhelper
