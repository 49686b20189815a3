/-
# Moves: `MoveAndAppendTo` and `MoveTo`

`ScopeEntitiesSlice.MoveAndAppendTo` and the `MoveTo` of the generated message wrappers
(`ResourceEntities`, `pentityotlp.ExportPartialSuccess`).  Both write the destination
first and then reset the source (`moveAndAppendTo_eq`, `moveTo_eq`).  When the destination
is the source itself the reset comes last and empties it (`moveAndAppendTo_self`,
`moveTo_self`, and for the three methods together `self_move_resets`).
`ExportPartialSuccess.CopyTo` sets the destination's two fields from the source's.
-/
import OtelCollector.Pdata.ScopeEntitiesSlice

namespace Pdata

variable {β : Type}

/-! ## `ScopeEntitiesSlice.MoveAndAppendTo` -/

namespace ScopeEntitiesSlice

/-- `MoveAndAppendTo` between mutable slices: `*dest.orig` gets the moved slice, then
`*es.orig = nil`. -/
theorem moveAndAppendTo_eq (rt : GoRuntime) (w : World β) {es dest : ScopeEntitiesSlice}
    (hes : es.state = .mutable) (hdest : dest.state = .mutable) :
    moveAndAppendTo rt w es dest = some ((w.setHeader dest.orig
      (if (slice w dest).array = none then slice w es
        else (slice w dest).append rt (slice w es).elems)).setHeader es.orig GoSlice.nil) := by
  simp only [moveAndAppendTo, assertMutable_eq_some hes, assertMutable_eq_some hdest,
    Option.some_bind]

/-- `es.MoveAndAppendTo(es)` leaves `es` `nil`, whatever it held. -/
theorem moveAndAppendTo_self (rt : GoRuntime) (w : World β) (es : ScopeEntitiesSlice)
    (hes : es.state = .mutable) :
    ∃ w', moveAndAppendTo rt w es es = some w' ∧ slice w' es = GoSlice.nil ∧ w'.heap = w.heap :=
  ⟨_, moveAndAppendTo_eq rt w hes hes, by simp, rfl⟩

end ScopeEntitiesSlice

/-! ## `MoveTo` of the generated message wrappers -/

/-- `MoveTo(dest)` of a generated message wrapper over messages of type `γ`, with `zero`
the zero message: `*dest.orig = *ms.orig`, then `*ms.orig = zero`. -/
def moveTo {γ : Type} (zero : γ) (store : Nat → γ) (ms dest : Nat) (msState destState : State) :
    Option (Nat → γ) :=
  (assertMutable msState).bind fun _ => (assertMutable destState).bind fun _ =>
    some (Function.update (Function.update store dest (store ms)) ms zero)

/-- `otlpentities.ResourceEntities`, with its `Resource` message of type `ρ`. -/
structure OtlpResourceEntities (ρ : Type) where
  resource : ρ
  scopeEntities : GoSlice
  schemaUrl : String

/-- The zero `otlpentities.ResourceEntities{}`. -/
def OtlpResourceEntities.zero {ρ : Type} [Inhabited ρ] : OtlpResourceEntities ρ :=
  ⟨default, GoSlice.nil, ""⟩

/-- `ResourceEntities`: the address of its message, and the state. -/
structure ResourceEntities where
  orig : Nat
  state : State

/-- `ResourceEntities.MoveTo(dest)`. -/
def ResourceEntities.moveTo {ρ : Type} [Inhabited ρ] (store : Nat → OtlpResourceEntities ρ)
    (ms dest : ResourceEntities) : Option (Nat → OtlpResourceEntities ρ) :=
  Pdata.moveTo OtlpResourceEntities.zero store ms.orig dest.orig ms.state dest.state

/-- `otlpcollectorentity.ExportEntitiesPartialSuccess`. -/
structure ExportEntitiesPartialSuccess where
  rejectedEntities : Int
  errorMessage : String
  deriving DecidableEq, Repr

/-- The zero `otlpcollectorentity.ExportEntitiesPartialSuccess{}`. -/
def ExportEntitiesPartialSuccess.zero : ExportEntitiesPartialSuccess := ⟨0, ""⟩

/-- `pentityotlp.ExportPartialSuccess`: the address of its message, and the state. -/
structure ExportPartialSuccess where
  orig : Nat
  state : State

/-- `ExportPartialSuccess.MoveTo(dest)`. -/
def ExportPartialSuccess.moveTo (store : Nat → ExportEntitiesPartialSuccess)
    (ms dest : ExportPartialSuccess) : Option (Nat → ExportEntitiesPartialSuccess) :=
  Pdata.moveTo ExportEntitiesPartialSuccess.zero store ms.orig dest.orig ms.state dest.state

section MoveTo

variable {γ : Type} (zero : γ) (store : Nat → γ) {msState destState : State}
  (hms : msState = .mutable) (hdest : destState = .mutable)
include hms hdest

/-- `MoveTo` between mutable wrappers: `*dest.orig = *ms.orig`, then `*ms.orig = zero`. -/
theorem moveTo_eq (ms dest : Nat) :
    moveTo zero store ms dest msState destState =
      some (Function.update (Function.update store dest (store ms)) ms zero) := by
  simp only [moveTo, hms, hdest, assertMutable_eq_some, Option.some_bind]

/-- `ms.MoveTo(ms)` resets `ms` to the zero message, whatever it held. -/
theorem moveTo_self (ms : Nat) :
    ∃ store', moveTo zero store ms ms msState destState = some store' ∧ store' ms = zero :=
  ⟨_, moveTo_eq zero store hms hdest ms ms, by simp⟩

end MoveTo

/-- `ExportPartialSuccess.CopyTo(dest)`: `dest.SetRejectedEntities(ms.RejectedEntities())`,
then `dest.SetErrorMessage(ms.ErrorMessage())`. -/
def ExportPartialSuccess.copyTo (store : Nat → ExportEntitiesPartialSuccess)
    (ms dest : ExportPartialSuccess) : Option (Nat → ExportEntitiesPartialSuccess) :=
  (assertMutable dest.state).bind fun _ =>
    let store₁ := Function.update store dest.orig
      { store dest.orig with rejectedEntities := (store ms.orig).rejectedEntities }
    some (Function.update store₁ dest.orig
      { store₁ dest.orig with errorMessage := (store₁ ms.orig).errorMessage })

/-- **A move onto itself empties.**  For every slice variable, `es.MoveAndAppendTo(es)`
leaves `es` with no element, whatever it held; for every message, `ms.MoveTo(ms)` of a
`ResourceEntities` or an `ExportPartialSuccess` leaves the zero message, whatever it
held. -/
theorem self_move_resets {ρ : Type} [Inhabited ρ] :
    (∀ (rt : GoRuntime) (w : World β) (o : Nat), ∃ w',
      ScopeEntitiesSlice.moveAndAppendTo rt w ⟨o, .mutable⟩ ⟨o, .mutable⟩ = some w' ∧
        (ScopeEntitiesSlice.slice w' ⟨o, .mutable⟩).elems = []) ∧
    (∀ (store : Nat → OtlpResourceEntities ρ) (o : Nat), ∃ store',
      ResourceEntities.moveTo store ⟨o, .mutable⟩ ⟨o, .mutable⟩ = some store' ∧
        store' o = OtlpResourceEntities.zero) ∧
    (∀ (store : Nat → ExportEntitiesPartialSuccess) (o : Nat), ∃ store',
      ExportPartialSuccess.moveTo store ⟨o, .mutable⟩ ⟨o, .mutable⟩ = some store' ∧
        store' o = ExportEntitiesPartialSuccess.zero) := by
  refine ⟨fun rt w o => ?_, fun store o => moveTo_self _ store rfl rfl o,
    fun store o => moveTo_self _ store rfl rfl o⟩
  obtain ⟨w', hrun, hnil, -⟩ := ScopeEntitiesSlice.moveAndAppendTo_self rt w ⟨o, .mutable⟩ rfl
  exact ⟨w', hrun, by rw [hnil]; rfl⟩

end Pdata
