import Synapse.Util.Dict
import Synapse.Util.Loops
import Synapse.Util.Text

/-!
# Stream tokens

The tokens of `synapse/types/__init__.py`.  A token of a stream with several writers has a position
`stream` up to which all of them are done, and a map with the positions of writers that are ahead of it.
A `RoomStreamToken` may instead be a place in the history of a room, with a topological part.  A
`StreamToken` has a position for every stream; clients get it as text and send it back.

In the text of a map the writers are given by the ids that the database has for their names.  A writer
that is not ahead of `stream` is left out of the text.
-/

namespace Synapse.Types

open Synapse.Util

/-- The table `instance_map`: `get_id_for_instance` and `get_name_from_instance_id`, which raises for
unknown ids. -/
structure InstanceIds where
  idForInstance : String → ℤ
  nameFromInstanceId : ℤ → Option String
  name_id : ∀ name, nameFromInstanceId (idForInstance name) = some name

/-- The `SynapseError`s with code 400 that say that a token is invalid. -/
inductive TokenError where
  | invalidRoomStreamToken (string : String)
  | invalidMultiWriterStreamToken (string : String)
  | invalidStreamToken

/-! ## Streams with several writers -/

structure MultiWriterStreamToken where
  stream : ℤ
  instanceMap : Dict String ℤ

namespace MultiWriterStreamToken

def getStreamPosForInstance (t : MultiWriterStreamToken) (instanceName : String) : ℤ :=
  t.instanceMap.getD instanceName t.stream

/-- The greatest position of a writer in the map. -/
def getMaxStreamPos (t : MultiWriterStreamToken) : ℤ :=
  (t.instanceMap.items.map Prod.snd).max?.getD t.stream

/-- The order in which the union of the instances is walked is not specified. -/
def copyAndAdvance (order : IterOrder) (t other : MultiWriterStreamToken) : MultiWriterStreamToken where
  stream := max t.stream other.stream
  instanceMap := Dict.ofKeys (order.order (t.instanceMap.keys ∪ other.instanceMap.keys)) fun instanceName =>
    max (t.getStreamPosForInstance instanceName) (other.getStreamPosForInstance instanceName)

/-- The entries of the text for the writers that are ahead. -/
def entries (store : InstanceIds) (t : MultiWriterStreamToken) : List (List Char) :=
  (t.instanceMap.items.filter fun item => ¬ item.2 ≤ t.stream).map fun item =>
    decimal (store.idForInstance item.1) ++ '.' :: decimal item.2

/-- `m{min_pos}~{writer1}.{pos1}~{writer2}.{pos2}…`, without the `m`. -/
def encodedMap (store : InstanceIds) (t : MultiWriterStreamToken) : List Char :=
  decimal t.stream ++ '~' :: ['~'].intercalate (t.entries store)

/-- One entry is added to the map. -/
def parseEntry (store : InstanceIds) (instanceMap : Dict String ℤ) (part : List Char) :
    Option (Dict String ℤ) :=
  match part.splitOn '.' with
  | [key, value] => do
    let instanceId ← parseInt key
    let pos ← parseInt value
    let instanceName ← store.nameFromInstanceId instanceId
    return instanceMap.insert instanceName pos
  | _ => none

/-- What follows the `m`; nothing is returned where something raises. -/
def parseMap (store : InstanceIds) (text : List Char) : Option MultiWriterStreamToken :=
  match text.splitOn '~' with
  | [] => none
  | first :: parts => do
    let stream ← parseInt first
    let instanceMap ← parts.foldlM (parseEntry store) ∅
    return ⟨stream, instanceMap⟩

def toString (store : InstanceIds) (t : MultiWriterStreamToken) : String :=
  String.ofList (if t.instanceMap.items ≠ [] then 'm' :: t.encodedMap store else decimal t.stream)

def parse (store : InstanceIds) (string : String) : Except TokenError MultiWriterStreamToken :=
  let token : Option MultiWriterStreamToken :=
    match string.toList with
    | [] => none
    | c :: rest =>
      if (toAscii c).isDigit then (parseInt (c :: rest)).map fun stream => ⟨stream, ∅⟩
      else if c = 'm' then parseMap store rest
      else none
  token.elim (.error (.invalidMultiWriterStreamToken string)) .ok

end MultiWriterStreamToken

/-- The position of a row, with the writer that persisted it. -/
structure PersistedPosition where
  instanceName : String
  stream : ℤ

def PersistedPosition.persistedAfter (p : PersistedPosition) (token : MultiWriterStreamToken) : Bool :=
  token.getStreamPosForInstance p.instanceName < p.stream

/-! ## The events stream -/

/-- The topological part and the map are not both set; a topological part 0 does not count. -/
structure RoomStreamToken extends MultiWriterStreamToken where
  topological : Option ℤ
  valid : ¬ (instanceMap.items ≠ [] ∧ topological.any (· ≠ 0) = true)

namespace RoomStreamToken

/-- A token without a topological part. -/
def live (t : MultiWriterStreamToken) : RoomStreamToken where
  toMultiWriterStreamToken := t
  topological := none
  valid h := absurd h.2 Bool.false_ne_true

/-- A place in the history. -/
def historical (topological stream : ℤ) : RoomStreamToken where
  stream := stream
  instanceMap := ∅
  topological := some topological
  valid h := h.1 rfl

/-- It asserts that the token is a live one. -/
def getStreamPosForInstance (t : RoomStreamToken) (instanceName : String) : Option ℤ :=
  if t.topological = none then some (t.toMultiWriterStreamToken.getStreamPosForInstance instanceName)
  else none

/-- Nothing is returned where it raises: topological tokens cannot be advanced. -/
def copyAndAdvance (order : IterOrder) (t other : RoomStreamToken) : Option RoomStreamToken :=
  if h : t.topological.any (· ≠ 0) = true ∨ other.topological.any (· ≠ 0) = true then none
  else some {
    toMultiWriterStreamToken :=
      t.toMultiWriterStreamToken.copyAndAdvance order other.toMultiWriterStreamToken
    topological := t.topological
    valid := fun hboth => h (.inl hboth.2) }

def toString (store : InstanceIds) (t : RoomStreamToken) : String := String.ofList (
    match t.topological with
    | some topological => 't' :: (decimal topological ++ '-' :: decimal t.stream)
    | none =>
      if t.instanceMap.items ≠ [] then 'm' :: t.encodedMap store else 's' :: decimal t.stream)

def parse (store : InstanceIds) (string : String) : Except TokenError RoomStreamToken :=
  let token : Option RoomStreamToken :=
    match string.toList with
    | 's' :: rest => (parseInt rest).map fun stream => live ⟨stream, ∅⟩
    | 't' :: rest =>
      match splitOnce '-' rest with
      | [first, second] => do
        let topological ← parseInt first
        let stream ← parseInt second
        return historical topological stream
      | _ => none
    | 'm' :: rest => (MultiWriterStreamToken.parseMap store rest).map live
    | _ => none
  token.elim (.error (.invalidRoomStreamToken string)) .ok

end RoomStreamToken

/-! ## All streams -/

structure StreamToken where
  roomKey : RoomStreamToken
  presenceKey : ℤ
  typingKey : ℤ
  receiptKey : MultiWriterStreamToken
  accountDataKey : ℤ
  pushRulesKey : ℤ
  toDeviceKey : ℤ
  deviceListKey : ℤ
  groupsKey : ℤ
  unPartialStatedRoomsKey : ℤ

/-- The keys with a plain position. -/
inductive StreamKeyType where
  | presence
  | typing
  | accountData
  | pushRules
  | toDevice
  | deviceList
  | unPartialStatedRooms

/-- A key with its new value. -/
inductive StreamKeyValue where
  | room (newValue : RoomStreamToken)
  | receipt (newValue : MultiWriterStreamToken)
  | plain (key : StreamKeyType) (newValue : ℤ)

namespace StreamToken

def getField (t : StreamToken) : StreamKeyType → ℤ
  | .presence => t.presenceKey
  | .typing => t.typingKey
  | .accountData => t.accountDataKey
  | .pushRules => t.pushRulesKey
  | .toDevice => t.toDeviceKey
  | .deviceList => t.deviceListKey
  | .unPartialStatedRooms => t.unPartialStatedRoomsKey

def copyAndReplace (t : StreamToken) : StreamKeyValue → StreamToken
  | .room newValue => { t with roomKey := newValue }
  | .receipt newValue => { t with receiptKey := newValue }
  | .plain .presence newValue => { t with presenceKey := newValue }
  | .plain .typing newValue => { t with typingKey := newValue }
  | .plain .accountData newValue => { t with accountDataKey := newValue }
  | .plain .pushRules newValue => { t with pushRulesKey := newValue }
  | .plain .toDevice newValue => { t with toDeviceKey := newValue }
  | .plain .deviceList newValue => { t with deviceListKey := newValue }
  | .plain .unPartialStatedRooms newValue => { t with unPartialStatedRoomsKey := newValue }

/-- Nothing is returned where the room key cannot be advanced. -/
def copyAndAdvance (order : IterOrder) (t : StreamToken) : StreamKeyValue → Option StreamToken
  | .room newValue =>
    (t.roomKey.copyAndAdvance order newValue).map fun newKey => t.copyAndReplace (.room newKey)
  | .receipt newValue => some (t.copyAndReplace (.receipt (t.receiptKey.copyAndAdvance order newValue)))
  | .plain key newValue =>
    let newToken := t.copyAndReplace (.plain key newValue)
    some (if t.getField key < newToken.getField key then newToken else t)

def fields (store : InstanceIds) (t : StreamToken) : List (List Char) :=
  [(t.roomKey.toString store).toList, decimal t.presenceKey, decimal t.typingKey,
    (t.receiptKey.toString store).toList, decimal t.accountDataKey, decimal t.pushRulesKey,
    decimal t.toDeviceKey, decimal t.deviceListKey, decimal t.groupsKey,
    decimal t.unPartialStatedRoomsKey]

def toString (store : InstanceIds) (t : StreamToken) : String :=
  String.ofList (['_'].intercalate (t.fields store))

/-- The keys that an old token lacks are 0. -/
def padKeys (keys : List (List Char)) : List (List Char) :=
  keys ++ List.replicate (10 - keys.length) ['0']

/-- Every exception is turned into the same error. -/
def fromString (store : InstanceIds) (string : String) : Except TokenError StreamToken :=
  let token : Option StreamToken :=
    match padKeys (string.toList.splitOn '_') with
    | [roomKey, presenceKey, typingKey, receiptKey, accountDataKey, pushRulesKey, toDeviceKey,
        deviceListKey, groupsKey, unPartialStatedRoomsKey] => do
      let roomKey ← (RoomStreamToken.parse store (String.ofList roomKey)).toOption
      let presenceKey ← parseInt presenceKey
      let typingKey ← parseInt typingKey
      let receiptKey ← (MultiWriterStreamToken.parse store (String.ofList receiptKey)).toOption
      let accountDataKey ← parseInt accountDataKey
      let pushRulesKey ← parseInt pushRulesKey
      let toDeviceKey ← parseInt toDeviceKey
      let deviceListKey ← parseInt deviceListKey
      let groupsKey ← parseInt groupsKey
      let unPartialStatedRoomsKey ← parseInt unPartialStatedRoomsKey
      return ⟨roomKey, presenceKey, typingKey, receiptKey, accountDataKey, pushRulesKey, toDeviceKey,
        deviceListKey, groupsKey, unPartialStatedRoomsKey⟩
    | _ => none
  token.elim (.error .invalidStreamToken) .ok

end StreamToken
end Synapse.Types
