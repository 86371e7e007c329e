import Mathlib.Logic.Equiv.List
import Synapse.Types.Tokens

/-!
# Reading back the text of a token

Writers that are not ahead of `stream` are left out of the text of a token, so that what is read back has
every writer at `stream` at least.  If no writer is ahead the text ends in a `~`, and is not a token.
So a token with a map is read back exactly if it has a writer ahead of `stream` and none behind it
(`MultiWriterStreamToken.Readable`).

Advancing a token by another one keeps writers from falling behind, but does not keep one ahead: it puts
the writers of both maps into the new one, also those that the other token's `stream` has overtaken.
-/

namespace Synapse.Types

open Synapse.Util List Dict

namespace MultiWriterStreamToken
variable {store : InstanceIds} {t t' other : MultiWriterStreamToken}

variable (t)

abbrev NoneBehind : Prop := ∀ item ∈ t.instanceMap.items, t.stream ≤ item.2

/-- The token has a writer ahead of `stream` if it has any in its map, and none behind. -/
def Readable : Prop := t.instanceMap.items = [] ∨
    (∃ item ∈ t.instanceMap.items, t.stream < item.2) ∧ t.NoneBehind

/-- The tokens have the same position for every writer. -/
structure Same (t' : MultiWriterStreamToken) : Prop where
  stream : t.stream = t'.stream
  pos : ∀ instanceName, t.getStreamPosForInstance instanceName = t'.getStreamPosForInstance instanceName

structure Nonneg : Prop where
  stream : 0 ≤ t.stream
  pos : ∀ item ∈ t.instanceMap.items, 0 ≤ item.2

/-- The items of the map that are in the text. -/
def ahead : List (String × ℤ) := t.instanceMap.items.filter fun item => ¬ item.2 ≤ t.stream

variable {t} {item : String × ℤ}

theorem mem_ahead : item ∈ t.ahead ↔ item ∈ t.instanceMap.items ∧ t.stream < item.2 := by
  unfold ahead
  rw [mem_filter, decide_eq_true_iff, not_le]

theorem parseEntry_entry (instanceMap : Dict String ℤ) (instanceName : String) (pos : ℤ) :
    parseEntry store instanceMap (decimal (store.idForInstance instanceName) ++ '.' :: decimal pos) =
      some (instanceMap.insert instanceName pos) := by
  have hdot : ∀ n, '.' ∉ decimal n := notMem_decimal (by decide) (by decide)
  unfold parseEntry
  rw [splitOn_append_cons_self_of_not_mem (hdot _), splitOn_eq_singleton (hdot _)]
  simp only [parseInt_decimal, Option.bind_eq_bind, Option.bind_some, store.name_id]
  rfl

theorem foldlM_parseEntry : ∀ (items : List (String × ℤ)) (instanceMap : Dict String ℤ),
    (items.map fun item => decimal (store.idForInstance item.1) ++ '.' :: decimal item.2).foldlM
        (parseEntry store) instanceMap = some (instanceMap.update items)
  | [], _ => rfl
  | item :: items, instanceMap => by
    rw [map_cons, foldlM_cons, parseEntry_entry]
    exact foldlM_parseEntry items (instanceMap.insert item.1 item.2)

theorem notMem_entries {c : Char} (hdigit : c.isDigit = false) (hsign : c ≠ '-') (hdot : c ≠ '.') :
    ∀ entry ∈ t.entries store, c ∉ entry := by
  intro entry hentry hmem
  obtain ⟨item, _, rfl⟩ := mem_map.mp hentry
  rcases mem_append.mp hmem with hmem | hmem
  · exact notMem_decimal hdigit hsign _ hmem
  · rcases mem_cons.mp hmem with heq | hmem
    · exact hdot heq
    · exact notMem_decimal hdigit hsign _ hmem

theorem parseMap_encodedMap : parseMap store (t.encodedMap store) =
      if t.ahead = [] then none else some ⟨t.stream, update ∅ t.ahead⟩ := by
  have htilde : ∀ n, '~' ∉ decimal n := notMem_decimal (by decide) (by decide)
  have hentries : t.entries store = t.ahead.map fun item =>
    decimal (store.idForInstance item.1) ++ '.' :: decimal item.2 := rfl
  unfold parseMap encodedMap
  rw [splitOn_append_cons_self_of_not_mem (htilde _)]
  simp only [parseInt_decimal, Option.bind_eq_bind, Option.bind_some]
  split
  next hnone =>
    rw [hentries, hnone]
    rfl
  next hsome =>
    rw [splitOn_intercalate '~' (notMem_entries (by decide) (by decide) (by decide))
      (fun hnil => hsome (map_eq_nil_iff.mp (hentries ▸ hnil))), hentries, foldlM_parseEntry]
    rfl

/-- Every writer that is behind is at `stream` afterwards. -/
theorem getStreamPosForInstance_ahead (instanceName : String) :
    getStreamPosForInstance ⟨t.stream, update ∅ t.ahead⟩ instanceName =
      max (t.getStreamPosForInstance instanceName) t.stream := by
  have hnodup : (t.ahead.map Prod.fst).Nodup := by
    refine Nodup.sublist (List.Sublist.map _ filter_sublist) ?_
    rw [map_fst_items]
    exact t.instanceMap.nodupKeys
  have hlookup : ∀ pos, (update ∅ t.ahead).lookup instanceName = some pos ↔
      t.instanceMap.lookup instanceName = some pos ∧ t.stream < pos := by
    intro pos
    rw [lookup_update hnodup, mem_ahead, mem_items]
    exact or_iff_left fun h => nomatch h.2
  unfold getStreamPosForInstance Dict.getD
  cases hpos : (update ∅ t.ahead).lookup instanceName with
  | some pos =>
    obtain ⟨hin, hlt⟩ := (hlookup pos).mp hpos
    rw [hin]
    exact (max_eq_left hlt.le).symm
  | none =>
    cases hin : t.instanceMap.lookup instanceName with
    | none => exact (max_self _).symm
    | some pos =>
      refine (max_eq_right (not_lt.mp fun hlt => ?_)).symm
      rw [(hlookup pos).mpr ⟨hin, hlt⟩] at hpos
      exact nomatch hpos

theorem stream_le_pos_iff :
    (∀ instanceName, t.stream ≤ t.getStreamPosForInstance instanceName) ↔ t.NoneBehind := by
  unfold getStreamPosForInstance
  constructor
  · intro h item hitem
    have hle := h item.1
    rwa [getD_of_lookup (mem_items.mp hitem)] at hle
  · exact fun h instanceName => getD_induction le_rfl h

variable (store) in
/-- A token with a map is read back exactly if it is readable. -/
theorem parseMap_same_iff (hmap : t.instanceMap.items ≠ []) :
    (∃ t', parseMap store (t.encodedMap store) = some t' ∧ t'.Same t) ↔ t.Readable := by
  rw [parseMap_encodedMap]
  unfold Readable
  rw [or_iff_right hmap, ← stream_le_pos_iff]
  split
  next hnone =>
    refine iff_of_false (fun h => ?_) fun h => ?_
    · exact nomatch h
    · obtain ⟨⟨item, hitem, hlt⟩, _⟩ := h
      have hmem := mem_ahead.mpr ⟨hitem, hlt⟩
      rw [hnone] at hmem
      exact nomatch hmem
  next hsome =>
    obtain ⟨item, hitem⟩ := exists_mem_of_ne_nil _ hsome
    constructor
    · intro h
      obtain ⟨t', heq, hsame⟩ := h
      obtain rfl := Option.some.inj heq
      refine ⟨⟨item, mem_ahead.mp hitem⟩, fun instanceName => ?_⟩
      rw [← hsame.pos instanceName, getStreamPosForInstance_ahead]
      exact le_max_right _ _
    · intro h
      refine ⟨_, rfl, rfl, fun instanceName => ?_⟩
      rw [getStreamPosForInstance_ahead]
      exact max_eq_left (h.2 instanceName)

theorem same_of_items_eq_nil (hnil : t.instanceMap.items = []) : Same ⟨t.stream, ∅⟩ t :=
  ⟨rfl, fun _ => (getD_of_items_eq_nil hnil t.stream).symm⟩

variable (store) in
theorem parse_same_iff (h : t.Nonneg) :
    (∃ t', parse store (t.toString store) = .ok t' ∧ t'.Same t) ↔ t.Readable := by
  unfold parse toString
  rw [String.toList_ofList]
  by_cases hnil : t.instanceMap.items = []
  · rw [if_neg (not_not.mpr hnil)]
    obtain ⟨c, text, htext, hdigit⟩ := exists_cons_decimal h.stream
    have hparse := htext ▸ parseInt_decimal t.stream
    rw [htext]
    simp only [hdigit, if_true, hparse]
    exact iff_of_true ⟨_, rfl, same_of_items_eq_nil hnil⟩ (.inl hnil)
  · rw [if_pos hnil, ← parseMap_same_iff store hnil]
    show (∃ t', (parseMap store (t.encodedMap store)).elim _ Except.ok = .ok t' ∧ _) ↔ _
    cases parseMap store (t.encodedMap store) with
    | none => simp
    | some token => simp

/-! ## Advancing -/

variable {order : IterOrder}

/-- Every writer is where it is in the token that is further. -/
theorem getStreamPosForInstance_copyAndAdvance (instanceName : String) :
    (t.copyAndAdvance order other).getStreamPosForInstance instanceName =
      max (t.getStreamPosForInstance instanceName) (other.getStreamPosForInstance instanceName) := by
  have hmem : instanceName ∈ order.order (t.instanceMap.keys ∪ other.instanceMap.keys) ↔
      instanceName ∈ t.instanceMap ∨ instanceName ∈ other.instanceMap :=
    order.mem_order.trans (mem_union_iff.trans (or_congr AList.mem_keys.symm AList.mem_keys.symm))
  show ((ofKeys _ _).lookup instanceName).getD _ = _
  rw [lookup_ofKeys]
  split
  · rfl
  next hnot =>
    obtain ⟨ht, hother⟩ := not_or.mp fun h => hnot (hmem.mpr h)
    unfold getStreamPosForInstance Dict.getD
    rw [AList.lookup_eq_none.mpr ht, AList.lookup_eq_none.mpr hother]
    rfl

theorem items_copyAndAdvance (h : item ∈ (t.copyAndAdvance order other).instanceMap.items) :
    item.2 = max (t.getStreamPosForInstance item.1) (other.getStreamPosForInstance item.1) := by
  have hlookup := mem_items.mp (show (item.1, item.2) ∈ _ from h)
  exact (lookup_ofKeys_eq_some.mp hlookup).2.symm

theorem Nonneg.pos_nonneg (h : t.Nonneg) (instanceName : String) :
    0 ≤ t.getStreamPosForInstance instanceName := getD_induction h.stream h.pos

theorem Nonneg.copyAndAdvance (h : t.Nonneg) : (t.copyAndAdvance order other).Nonneg :=
  ⟨h.stream.trans (le_max_left _ _), fun item hitem => by
    rw [items_copyAndAdvance hitem]
    exact (h.pos_nonneg item.1).trans (le_max_left _ _)⟩

/-- No writer falls behind. -/
theorem stream_le_copyAndAdvance (order : IterOrder) (h : t.NoneBehind) (h' : other.NoneBehind) :
    (t.copyAndAdvance order other).NoneBehind := by
  intro item hitem
  rw [items_copyAndAdvance hitem]
  exact max_le_max (stream_le_pos_iff.mpr h item.1) (stream_le_pos_iff.mpr h' item.1)

theorem pos_le_getMaxStreamPos (h : t.NoneBehind) (instanceName : String) :
    t.getStreamPosForInstance instanceName ≤ t.getMaxStreamPos := by
  unfold getMaxStreamPos
  rcases getD_max?_cases (t.instanceMap.items.map Prod.snd) t.stream with ⟨hnil, hmax⟩ | ⟨hpos, hle⟩
  · rw [hmax]
    exact ((same_of_items_eq_nil (map_eq_nil_iff.mp hnil)).pos instanceName).symm.le
  · obtain ⟨item, hitem, heq⟩ := mem_map.mp hpos
    exact getD_induction (p := (· ≤ _)) (heq ▸ h item hitem) fun _ hitem => hle _ (mem_map_of_mem hitem)

/-- **Advancing is the least upper bound** of the positions of the writers. -/
theorem copyAndAdvance_lub (order order' : IterOrder) (a b c : MultiWriterStreamToken) :
    (∀ instanceName, (a.copyAndAdvance order b).getStreamPosForInstance instanceName =
      max (a.getStreamPosForInstance instanceName) (b.getStreamPosForInstance instanceName)) ∧
    ((a.copyAndAdvance order b).copyAndAdvance order c).Same
      (a.copyAndAdvance order' (b.copyAndAdvance order' c)) ∧
    (a.copyAndAdvance order b).Same (b.copyAndAdvance order' a) ∧ (a.copyAndAdvance order a).Same a ∧
    (∀ p : PersistedPosition, p.persistedAfter (a.copyAndAdvance order b) =
      (p.persistedAfter a && p.persistedAfter b)) ∧
    (a.NoneBehind → b.NoneBehind → (a.copyAndAdvance order b).NoneBehind ∧ ∀ instanceName,
        (a.copyAndAdvance order b).stream ≤ (a.copyAndAdvance order b).getStreamPosForInstance instanceName ∧
        (a.copyAndAdvance order b).getStreamPosForInstance instanceName ≤
          (a.copyAndAdvance order b).getMaxStreamPos) ∧
    ∀ a b : RoomStreamToken, a.topological = none → b.topological = none →
      ∃ c, a.copyAndAdvance order b = some c ∧ c.topological = none ∧ c.toMultiWriterStreamToken =
        a.toMultiWriterStreamToken.copyAndAdvance order b.toMultiWriterStreamToken := by
  refine ⟨fun _ => getStreamPosForInstance_copyAndAdvance _, ⟨max_assoc _ _ _, fun _ => ?_⟩,
    ⟨max_comm _ _, fun _ => ?_⟩, ⟨max_self _, fun _ => ?_⟩, fun p => ?_, fun ha hb => ?_, ?_⟩
  · simp only [getStreamPosForInstance_copyAndAdvance, max_assoc]
  · simp only [getStreamPosForInstance_copyAndAdvance, max_comm]
  · rw [getStreamPosForInstance_copyAndAdvance, max_self]
  · unfold PersistedPosition.persistedAfter
    rw [getStreamPosForInstance_copyAndAdvance, ← Bool.decide_and]
    exact decide_eq_decide.mpr max_lt_iff
  · have hc := stream_le_copyAndAdvance order ha hb
    exact ⟨hc, fun _ => ⟨stream_le_pos_iff.mpr hc _, pos_le_getMaxStreamPos hc _⟩⟩
  · intro a b ha hb
    refine ⟨⟨_, a.topological, ?_⟩, dif_neg ?_, ha, rfl⟩
    · simp [ha]
    · simp [ha, hb]

end MultiWriterStreamToken

namespace RoomStreamToken
variable {store : InstanceIds} {t t' other : RoomStreamToken}

/-- A place in the history is always read back. -/
def Readable (t : RoomStreamToken) : Prop :=
  t.topological.isSome = true ∨ t.toMultiWriterStreamToken.Readable

structure Same (t t' : RoomStreamToken) : Prop where
  topological : t.topological = t'.topological
  stream : t.stream = t'.stream
  pos : ∀ instanceName, t.getStreamPosForInstance instanceName = t'.getStreamPosForInstance instanceName

structure Nonneg (t : RoomStreamToken) : Prop where
  positions : t.toMultiWriterStreamToken.Nonneg
  topological : ∀ topological ∈ t.topological, 0 ≤ topological

theorem same_iff_of_live (hlive : t.topological = none) (hlive' : t'.topological = none) :
    t.Same t' ↔ t.toMultiWriterStreamToken.Same t'.toMultiWriterStreamToken := by
  have hpos : ∀ instanceName,
      t.getStreamPosForInstance instanceName = t'.getStreamPosForInstance instanceName ↔
        t.toMultiWriterStreamToken.getStreamPosForInstance instanceName =
          t'.toMultiWriterStreamToken.getStreamPosForInstance instanceName := by
    intro instanceName
    unfold getStreamPosForInstance
    rw [if_pos hlive, if_pos hlive', Option.some.injEq]
  constructor
  · exact fun h => ⟨h.stream, fun instanceName => (hpos instanceName).mp (h.pos instanceName)⟩
  · exact fun h => ⟨hlive.trans hlive'.symm, h.stream,
      fun instanceName => (hpos instanceName).mpr (h.pos instanceName)⟩

/-- Both are places in the history, where a writer has no position. -/
theorem same_historical {topological : ℤ} (h : t.topological = some topological) :
    Same (historical topological t.stream) t := by
  refine ⟨h.symm, rfl, fun instanceName => ?_⟩
  unfold getStreamPosForInstance
  rw [if_neg (show (historical topological t.stream).topological ≠ none from Option.some_ne_none _),
    if_neg (h ▸ Option.some_ne_none _)]

variable (store) in
theorem parse_same_iff (h : t.Nonneg) :
    (∃ t', parse store (t.toString store) = .ok t' ∧ t'.Same t) ↔ t.Readable := by
  unfold parse toString Readable
  rw [String.toList_ofList]
  cases htop : t.topological with
  | some topological =>
    obtain ⟨n, rfl⟩ := Int.eq_ofNat_of_zero_le (h.topological topological (htop ▸ rfl))
    have hsign : '-' ∉ decimal n := notMem_of_isDigit
      (fun _ => Nat.isDigit_of_mem_toDigits (by decide) (by decide)) (by decide)
    simp only [splitOnce_append hsign, parseInt_decimal]
    exact iff_of_true ⟨_, rfl, same_historical htop⟩ (.inl rfl)
  | none =>
    have hlive : ∀ token, (live token).Same t ↔ token.Same t.toMultiWriterStreamToken := fun token =>
      same_iff_of_live rfl htop
    by_cases hnil : t.instanceMap.items = []
    · simp only [hnil, ne_eq, not_true_eq_false, if_false, parseInt_decimal]
      exact iff_of_true ⟨_, rfl, (hlive _).mpr (MultiWriterStreamToken.same_of_items_eq_nil hnil)⟩
        (.inr (.inl hnil))
    · simp only [ne_eq, hnil, not_false_eq_true, if_true, Option.isSome_none, Bool.false_eq_true,
        false_or]
      rw [← MultiWriterStreamToken.parseMap_same_iff store hnil]
      cases MultiWriterStreamToken.parseMap store (t.encodedMap store) with
      | none => simp
      | some token => simp [hlive]

theorem Nonneg.copyAndAdvance {order : IterOrder} (h : t.Nonneg)
    (heq : t.copyAndAdvance order other = some t') : t'.Nonneg := by
  unfold RoomStreamToken.copyAndAdvance at heq
  split at heq
  · exact nomatch heq
  obtain rfl := Option.some.inj heq
  exact ⟨h.positions.copyAndAdvance, h.topological⟩

end RoomStreamToken

namespace StreamToken
variable {store : InstanceIds} {t t' : StreamToken}

structure Same (t t' : StreamToken) : Prop where
  roomKey : t.roomKey.Same t'.roomKey
  presenceKey : t.presenceKey = t'.presenceKey
  typingKey : t.typingKey = t'.typingKey
  receiptKey : t.receiptKey.Same t'.receiptKey
  accountDataKey : t.accountDataKey = t'.accountDataKey
  pushRulesKey : t.pushRulesKey = t'.pushRulesKey
  toDeviceKey : t.toDeviceKey = t'.toDeviceKey
  deviceListKey : t.deviceListKey = t'.deviceListKey
  groupsKey : t.groupsKey = t'.groupsKey
  unPartialStatedRoomsKey : t.unPartialStatedRoomsKey = t'.unPartialStatedRoomsKey

theorem notMem_decimal_key : ∀ n, '_' ∉ decimal n := notMem_decimal (by decide) (by decide)

variable (token : MultiWriterStreamToken)

theorem notMem_encodedMap : '_' ∉ token.encodedMap store := by
  have hentries : '_' ∉ ['~'].intercalate (token.entries store) := notMem_intercalate (by decide)
      (MultiWriterStreamToken.notMem_entries (by decide) (by decide) (by decide))
  intro hmem
  rcases mem_append.mp hmem with hmem | hmem
  · exact notMem_decimal_key _ hmem
  · rcases mem_cons.mp hmem with heq | hmem
    · exact absurd heq (by decide)
    · exact hentries hmem

theorem notMem_toString_roomKey (token : RoomStreamToken) : '_' ∉ (token.toString store).toList := by
  unfold RoomStreamToken.toString
  rw [String.toList_ofList]
  split
  next topological _ =>
    simp only [mem_cons, mem_append, notMem_decimal_key, or_false, false_or]
    decide
  · split
    · simp only [mem_cons, notMem_encodedMap, or_false]
      decide
    · simp only [mem_cons, notMem_decimal_key, or_false]
      decide

theorem notMem_toString_receiptKey : '_' ∉ (token.toString store).toList := by
  unfold MultiWriterStreamToken.toString
  rw [String.toList_ofList]
  split
  · simp only [mem_cons, notMem_encodedMap, or_false]
    decide
  · exact notMem_decimal_key _

theorem splitOn_toString : (t.toString store).toList.splitOn '_' = t.fields store := by
  unfold toString
  rw [String.toList_ofList]
  refine splitOn_intercalate '_' (fun field hfield => ?_) (cons_ne_nil _ _)
  simp only [fields, mem_cons, not_mem_nil, or_false] at hfield
  rcases hfield with rfl | rfl | rfl | rfl | rfl | rfl | rfl | rfl | rfl | rfl
  · exact notMem_toString_roomKey _
  · exact notMem_decimal_key _
  · exact notMem_decimal_key _
  · exact notMem_toString_receiptKey _
  · exact notMem_decimal_key _
  · exact notMem_decimal_key _
  · exact notMem_decimal_key _
  · exact notMem_decimal_key _
  · exact notMem_decimal_key _
  · exact notMem_decimal_key _

/-- A token is read back if its two keys with several writers are. -/
theorem fromString_toString : fromString store (t.toString store) = (do
      let roomKey ← (RoomStreamToken.parse store (t.roomKey.toString store)).toOption
      let receiptKey ← (MultiWriterStreamToken.parse store (t.receiptKey.toString store)).toOption
      return ({ t with roomKey := roomKey, receiptKey := receiptKey } : StreamToken) :
        Option StreamToken).elim (.error .invalidStreamToken) .ok := by
  unfold fromString
  rw [splitOn_toString]
  have hpad : padKeys (t.fields store) = t.fields store := rfl
  rw [hpad]
  unfold fields
  simp only [parseInt_decimal, String.ofList_toList]
  rfl

theorem fromString_same_iff (hroom : t.roomKey.Nonneg) (hreceipt : t.receiptKey.Nonneg) :
    (∃ t', fromString store (t.toString store) = .ok t' ∧ t'.Same t) ↔
      t.roomKey.Readable ∧ t.receiptKey.Readable := by
  rw [← RoomStreamToken.parse_same_iff store hroom,
    ← MultiWriterStreamToken.parse_same_iff store hreceipt, fromString_toString]
  cases RoomStreamToken.parse store (t.roomKey.toString store) with
  | error err => simp [Except.toOption]
  | ok r =>
    cases MultiWriterStreamToken.parse store (t.receiptKey.toString store) with
    | error err => simp [Except.toOption]
    | ok r' =>
      constructor
      · intro h
        obtain ⟨t', heq, hsame⟩ := h
        obtain rfl := Except.ok.inj heq
        exact ⟨⟨r, rfl, hsame.roomKey⟩, r', rfl, hsame.receiptKey⟩
      · intro h
        obtain ⟨⟨_, heq, hsame⟩, _, heq', hsame'⟩ := h
        obtain rfl := Except.ok.inj heq
        obtain rfl := Except.ok.inj heq'
        exact ⟨_, rfl, hsame, rfl, rfl, hsame', rfl, rfl, rfl, rfl, rfl, rfl⟩

end StreamToken

/-! ## Tokens that are built from others -/

inductive MultiWriterStreamToken.Built : MultiWriterStreamToken → Prop where
  | base {t : MultiWriterStreamToken} : t.Nonneg → Built t
  | advance {t other : MultiWriterStreamToken} (order : IterOrder) :
      Built t → Built other → Built (t.copyAndAdvance order other)

inductive RoomStreamToken.Built : RoomStreamToken → Prop where
  | base {t : RoomStreamToken} : t.Nonneg → Built t
  | advance {t other t' : RoomStreamToken} (order : IterOrder) :
      Built t → Built other → t.copyAndAdvance order other = some t' → Built t'

def StreamKeyValue.Built : StreamKeyValue → Prop
  | .room newValue => newValue.Built
  | .receipt newValue => newValue.Built
  | .plain _ newValue => 0 ≤ newValue

inductive StreamToken.Built : StreamToken → Prop where
  | base {t : StreamToken} : t.roomKey.Built → t.receiptKey.Built → (∀ key, 0 ≤ t.getField key) →
      0 ≤ t.groupsKey → Built t
  | replace {t : StreamToken} {value : StreamKeyValue} :
      Built t → value.Built → Built (t.copyAndReplace value)
  | advance {t t' : StreamToken} {value : StreamKeyValue} (order : IterOrder) :
      Built t → value.Built → t.copyAndAdvance order value = some t' → Built t'

theorem MultiWriterStreamToken.Built.nonneg {t : MultiWriterStreamToken} (h : t.Built) : t.Nonneg := by
  induction h with
  | base h => exact h
  | advance order _ _ ih _ => exact ih.copyAndAdvance

theorem RoomStreamToken.Built.nonneg {t : RoomStreamToken} (h : t.Built) : t.Nonneg := by
  induction h with
  | base h => exact h
  | advance order _ _ heq ih _ => exact ih.copyAndAdvance heq

variable {t : StreamToken}

/-- Replacing a key keeps the other one with several writers. -/
theorem StreamToken.built_keys_copyAndReplace {value : StreamKeyValue}
    (h : t.roomKey.Built ∧ t.receiptKey.Built) (hvalue : value.Built) :
    (t.copyAndReplace value).roomKey.Built ∧ (t.copyAndReplace value).receiptKey.Built := by
  cases value with
  | room newValue => exact ⟨hvalue, h.2⟩
  | receipt newValue => exact ⟨h.1, hvalue⟩
  | plain key newValue =>
    cases key with
    | presence => exact h
    | typing => exact h
    | accountData => exact h
    | pushRules => exact h
    | toDevice => exact h
    | deviceList => exact h
    | unPartialStatedRooms => exact h

theorem StreamToken.Built.keys (h : t.Built) :
    t.roomKey.Built ∧ t.receiptKey.Built := by
  induction h with
  | base hroom hreceipt _ _ => exact ⟨hroom, hreceipt⟩
  | replace _ hvalue ih => exact built_keys_copyAndReplace ih hvalue
  | @advance t t' value order _ hvalue heq ih =>
    cases value with
    | room newValue =>
      obtain ⟨newKey, hkey, rfl⟩ := Option.map_eq_some_iff.mp heq
      exact ⟨.advance order ih.1 hvalue hkey, ih.2⟩
    | receipt newValue =>
      obtain rfl := Option.some.inj heq
      exact ⟨ih.1, .advance order ih.2 hvalue⟩
    | plain key newValue =>
      obtain rfl := Option.some.inj heq
      split
      · exact built_keys_copyAndReplace ih hvalue
      · exact ih

/-- A token that is built from tokens with non-negative positions is read back, with the same topological
part and positions, exactly if it is readable. -/
theorem tokens_survive_iff (store : InstanceIds) : (∀ t : RoomStreamToken, t.Built →
      ((∃ t', RoomStreamToken.parse store (t.toString store) = .ok t' ∧ t'.Same t) ↔ t.Readable)) ∧
    (∀ t : MultiWriterStreamToken, t.Built →
      ((∃ t', MultiWriterStreamToken.parse store (t.toString store) = .ok t' ∧ t'.Same t) ↔ t.Readable)) ∧
    ∀ t : StreamToken, t.Built →
      ((∃ t', StreamToken.fromString store (t.toString store) = .ok t' ∧ t'.Same t) ↔
        t.roomKey.Readable ∧ t.receiptKey.Readable) :=
  ⟨fun _ h => RoomStreamToken.parse_same_iff store h.nonneg,
    fun _ h => MultiWriterStreamToken.parse_same_iff store h.nonneg,
    fun _ h => StreamToken.fromString_same_iff h.keys.1.nonneg h.keys.2.nonneg⟩

/-- A number for every name. -/
def nameId (name : String) : ℤ := (Encodable.encode (name.toList.map Char.toNat) : ℕ)

/-- A table that has an id for every name. -/
def encodedIds : InstanceIds where
  idForInstance := nameId
  nameFromInstanceId id := ((Encodable.decode id.toNat : Option (List ℕ)).map fun codes =>
      String.ofList (codes.map Char.ofNat)).filter fun name => nameId name = id
  name_id name := by
    have hchars : (name.toList.map Char.toNat).map Char.ofNat = name.toList := by
      rw [map_map]
      exact (map_congr_left fun c _ => Char.ofNat_toNat c).trans (map_id _)
    unfold nameId
    rw [Int.toNat_natCast, Encodable.encodek, Option.map_some, hchars, String.ofList_toList]
    simp

/-- All writers are at 5, and one is at 7. -/
def oneAhead : RoomStreamToken := .live ⟨5, single "writer" 7⟩

def plainStreamToken (roomKey : RoomStreamToken) : StreamToken := ⟨roomKey, 1, 2, ⟨3, ∅⟩, 4, 5, 6, 7, 8, 9⟩

theorem oneAhead_readable : oneAhead.Readable :=
  .inr (.inr ⟨⟨("writer", 7), mem_cons_self, by decide⟩, by decide⟩)

/-- The token of a client whose room key has one writer ahead is read back. -/
theorem tokens_survive_oneAhead :
    ∃ t', StreamToken.fromString encodedIds ((plainStreamToken oneAhead).toString encodedIds) = .ok t' ∧
      t'.Same (plainStreamToken oneAhead) :=
  ((tokens_survive_iff encodedIds).2.2 (plainStreamToken oneAhead)
    (.base (.base ⟨⟨by decide, by decide⟩, nofun⟩) (.base ⟨by decide, by decide⟩)
      (fun key => by cases key <;> decide) (by decide))).mpr
    ⟨oneAhead_readable, .inl rfl⟩

/-- Advanced to a token that is past the writer, it is not read back. -/
theorem tokens_lost_by_advance : oneAhead.Readable ∧ (RoomStreamToken.live ⟨10, ∅⟩).Readable ∧
      ∃ t', (plainStreamToken oneAhead).copyAndAdvance .insertion
          (.room (.live ⟨10, ∅⟩)) = some t' ∧
        t'.toString encodedIds = "m10~_1_2_3_4_5_6_7_8_9" ∧
        StreamToken.fromString encodedIds "m10~_1_2_3_4_5_6_7_8_9" = .error .invalidStreamToken :=
  ⟨oneAhead_readable, .inr (.inl rfl), _, rfl, by decide +kernel, by rfl⟩

end Synapse.Types
