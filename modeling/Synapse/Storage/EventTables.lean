import Synapse.Util.Dict
import Synapse.Util.Reach

/-!
# The event tables

The tables that the auth chain code reads and writes.  Event IDs (`ε`), room IDs (`ρ`) and pairs of
an event type and a state key (`τ`) are opaque to this code and stay type variables.

A row of `event_auth` says that one event cites another in its auth events; the *auth chain* of an
event is everything below it in that graph.  The auth chain difference of several state sets is
what belongs to some, but not all, of the sets taken together with their auth chains.
-/

namespace Synapse.Storage

open Synapse.Util

/-- What the auth chain code reads of a row of `events`, joined with `state_events`: the state
tuple is missing for an event that is not a state event. -/
structure EventRow (ρ τ : Type) where
  roomId : ρ
  stateTuple : Option τ
  depth : ℤ

/-- A chain ID and a sequence number. -/
abbrev ChainPos := ℕ × ℕ

structure Tables (ε ρ τ : Type) where
  events : Dict ε (EventRow ρ τ)
  /-- Rows `(event_id, auth_id)`. -/
  eventAuth : List (ε × ε)
  eventAuthChains : Dict ε ChainPos
  /-- Rows of an origin and a target. -/
  eventAuthChainLinks : List (ChainPos × ChainPos)
  /-- The room and the state tuple of each listed event. -/
  eventAuthChainToCalculate : Dict ε (ρ × τ)

namespace Tables
variable {ε ρ τ : Type}

/-- `b` is one of the auth events of `a`. -/
def Auth (T : Tables ε ρ τ) (a b : ε) : Prop := (a, b) ∈ T.eventAuth

instance [DecidableEq ε] (T : Tables ε ρ τ) (a b : ε) : Decidable (T.Auth a b) :=
  inferInstanceAs (Decidable ((a, b) ∈ T.eventAuth))

/-- Where an event is in the index. -/
abbrev place [DecidableEq ε] (T : Tables ε ρ τ) : ε → Option ChainPos := T.eventAuthChains.lookup

/-- The auth references have no cycle and lead to persisted events only. -/
structure AuthDag (T : Tables ε ρ τ) : Prop where
  acyclic : Acyclic T.Auth
  persisted : ∀ {a b}, T.Auth a b → b ∈ T.events

/-- The events in some, but not all, of the state sets together with their auth chains. -/
def AuthChainDifference (T : Tables ε ρ τ) (stateSets : List (List ε)) : ε → Prop :=
  ReachDifference T.Auth stateSets

end Tables
end Synapse.Storage
