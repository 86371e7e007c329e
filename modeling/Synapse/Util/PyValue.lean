import Mathlib.Data.List.Infix
import Mathlib.Data.Rat.Floor
import Synapse.Util.Text

/-!
# JSON values as Python sees them

A value that the JSON decoder returns, and the operations of Python on it that
may raise. Content that comes from elsewhere may have any shape, so code that
expects a dictionary or a number meets the exceptions listed in `PyError` when
it gets something else.

A dictionary is the list of its items; looking a key up finds the first one.
-/

namespace Synapse.Util

open List

/-- The exceptions of Python that the operations below raise. -/
inductive PyError where
  | keyError
  | indexError
  | typeError
  | valueError
  | attributeError
  | overflowError
  | runtimeError
  | assertionError
deriving DecidableEq

/-- A decoded JSON value. A literal such as `1e400` becomes an infinite float. -/
inductive PyValue where
  | none
  | bool (b : Bool)
  | int (n : ℤ)
  | float (q : ℚ)
  | inf (negative : Bool)
  | str (s : String)
  | list (items : List PyValue)
  | dict (fields : List (String × PyValue))

/-- The items of a dictionary. -/
abbrev PyDict := List (String × PyValue)

namespace PyDict

/-- `d.get(key, default)`. -/
def getD (d : PyDict) (key : String) (default : PyValue) : PyValue := (d.lookup key).getD default

/-- `key in d`. -/
def has (d : PyDict) (key : String) : Bool := (d.lookup key).isSome

/-- `d[key]`. -/
def index (d : PyDict) (key : String) : Except PyError PyValue :=
  match d.lookup key with
  | some v => .ok v
  | none => .error .keyError

/-- `d.keys()`. -/
def keys (d : PyDict) : List String := d.map Prod.fst

/-- `d[key] = v`. -/
def set (d : PyDict) (key : String) (v : PyValue) : PyDict :=
  match d with
  | [] => [(key, v)]
  | (k, w) :: d => if k = key then (key, v) :: d else (k, w) :: set d key v

theorem lookup_set_self (key : String) (v : PyValue) : ∀ d : PyDict, (set d key v).lookup key = some v
  | [] => by rw [set, lookup_cons, beq_self_eq_true]
  | (k, w) :: d => by
    rw [set]
    split
    · rw [lookup_cons, beq_self_eq_true]
    next hne => rw [lookup_cons, beq_false_of_ne (Ne.symm hne), lookup_set_self key v d]

theorem mem_of_lookup {key : String} {v : PyValue} : ∀ {d : PyDict}, d.lookup key = some v → (key, v) ∈ d
  | [], h => nomatch h
  | (k, w) :: d, h => by
    rw [lookup_cons] at h
    split at h
    next heq => rw [eq_of_beq heq, Option.some.inj h]; exact mem_cons_self
    · exact mem_cons_of_mem _ (mem_of_lookup h)

end PyDict

namespace PyValue

/-- `v is None`. -/
def isNone : PyValue → Bool
  | none => true
  | _ => false

/-- `v == text`. -/
def isStr (text : String) : PyValue → Bool
  | str s => s = text
  | _ => false

/-- `v is True`. -/
def isTrue : PyValue → Bool
  | bool b => b
  | _ => false

/-- `type(v) is int`. -/
def isInt : PyValue → Bool
  | int _ => true
  | _ => false

/-- `int(v)`. -/
def toInt : PyValue → Except PyError ℤ
  | none => .error .typeError
  | bool b => .ok (if b then 1 else 0)
  | int n => .ok n
  | float q => .ok (if 0 ≤ q then ⌊q⌋ else ⌈q⌉)
  | inf _ => .error .overflowError
  | str s =>
    match parseInt s.toList with
    | some n => .ok n
    | .none => .error .valueError
  | list _ => .error .typeError
  | dict _ => .error .typeError

/-- The dictionary whose method is called: anything else lacks the method. -/
def asDict : PyValue → Except PyError PyDict
  | dict fields => .ok fields
  | _ => .error .attributeError

theorem asDict_eq_ok {v : PyValue} {fields : PyDict} : v.asDict = .ok fields ↔ v = dict fields := by
  cases v with
  | dict fields' => exact ⟨fun h => congrArg _ (Except.ok.inj h), fun h => by rw [h]; rfl⟩
  | _ => exact ⟨fun h => absurd h (by simp [asDict]), nofun⟩

/-- `list(v)`. -/
def iter : PyValue → Except PyError (List PyValue)
  | dict fields => .ok (fields.map fun field => str field.1)
  | list items => .ok items
  | str s => .ok (s.toList.map fun c => str (String.ofList [c]))
  | _ => .error .typeError

/-- Whether the value may be put into a set. -/
def hashable : PyValue → Bool
  | list _ => false
  | dict _ => false
  | _ => true

/-- The number that a number or a Boolean is compared as. -/
def number? : PyValue → Option ℚ
  | bool b => some (if b then 1 else 0)
  | int n => some n
  | float q => some q
  | _ => .none

/-- `v == w`, for a hashable `v`. -/
def scalarEq : PyValue → PyValue → Bool
  | none, none => true
  | str s, str t => s = t
  | inf n, inf n' => n == n'
  | v, w =>
    match v.number?, w.number? with
    | some q, some q' => q = q'
    | _, _ => false

/-- `set(values)`, in the order of insertion. -/
def toSet (values : List PyValue) : Except PyError (List PyValue) :=
  if values.all hashable then .ok (values.eraseDupsBy scalarEq) else .error .typeError

/-- `key in container`, for a hashable key. -/
def contains (container key : PyValue) : Except PyError Bool :=
  match container, key with
  | dict fields, str k => .ok (PyDict.has fields k)
  | dict _, _ => .ok false
  | list items, k => .ok (items.any (scalarEq k))
  | str s, str k => .ok (decide (k.toList <:+: s.toList))
  | _, _ => .error .typeError

/-- `items[i]` of a sequence. -/
def indexSeq (items : List PyValue) (i : ℤ) : Except PyError PyValue :=
  let i := if i < 0 then i + items.length else i
  if i < 0 then .error .indexError
  else
    match items[i.toNat]? with
    | some v => .ok v
    | .none => .error .indexError

/-- The index that a Boolean or an integer stands for. -/
def index? : PyValue → Option ℤ
  | bool b => some (if b then 1 else 0)
  | int n => some n
  | _ => .none

/-- `container[key]`, for a hashable key. -/
def item (container key : PyValue) : Except PyError PyValue :=
  match container, key with
  | dict fields, str k => PyDict.index fields k
  | dict _, _ => .error .keyError
  | list items, k =>
    match k.index? with
    | some i => indexSeq items i
    | .none => .error .typeError
  | str s, k =>
    match k.index? with
    | some i => indexSeq (s.toList.map fun c => str (String.ofList [c])) i
    | .none => .error .typeError
  | _, _ => .error .typeError

/-! A string is equal to itself only, so a set has every string that is put in. -/

theorem str_mem_eraseDupsBy {s : String} :
    ∀ (values : List PyValue), str s ∈ values → str s ∈ values.eraseDupsBy scalarEq
  | [], h => h
  | v :: values, h => by
    rw [eraseDupsBy_cons, mem_cons]
    by_cases hv : str s = v
    · exact .inl hv
    · refine .inr (str_mem_eraseDupsBy _ (mem_filter.mpr
        ⟨(mem_cons.mp h).resolve_left hv, ?_⟩))
      cases v with
      | str t =>
        have hne : s ≠ t := fun heq => hv (congrArg str heq)
        simp [scalarEq, hne]
      | _ => rfl
termination_by values => values.length
decreasing_by exact Nat.lt_succ_of_le (length_filter_le _ _)

theorem str_mem_toSet {s : String} {values set : List PyValue} (h : toSet values = .ok set)
    (hs : str s ∈ values) : str s ∈ set := by
  unfold toSet at h
  split at h
  · exact Except.ok.inj h ▸ str_mem_eraseDupsBy values hs
  · exact nomatch h

end PyValue
end Synapse.Util
