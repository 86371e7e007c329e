import Synapse.Util.Dict

/-!
# State maps

The state of a room at some point is a map from `(type, state_key)` to the id of an event.
-/

namespace Synapse.State

open Synapse.Util

inductive EventType where
  | create
  | powerLevels
  | joinRules
  | member
  | thirdPartyInvite
  | other (name : String)
  deriving DecidableEq

/-- `(type, state_key)`. -/
abbrev StateKey := EventType × String

instance lawfulBEqStateKey : LawfulBEq StateKey := inferInstance

abbrev StateMap (ε : Type) := Dict StateKey ε

end Synapse.State
