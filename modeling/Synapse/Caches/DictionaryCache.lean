import Synapse.Util.Dict
import Synapse.Util.Loops

/-!
# The dictionary cache

`DictionaryCache` (`synapse/util/caches/dictionary_cache.py`) caches a map from keys to dictionaries.
For a key it may hold the full dictionary, and for some keys of the dictionary the value or the fact
that the dictionary has none.  Each of these is an entry of its own in the `LruCache` below, which may
drop any of them; this is `evict`.  In which order it drops them plays no part here.

What is cached about a key `AgreesWith` the dictionary if every entry is right about it.  This is a
statement about one key: `get` and `update` keep it for the key that they are called with, and do not
touch the others.  That the value, the known absent keys and the `full` flag which `get` returns are
right follows.
-/

namespace Synapse.Caches

open Synapse.Util List AList

variable {κ δ ν : Type} [DecidableEq κ] [DecidableEq δ]

/-- Returned by `get`. -/
structure DictionaryEntry (δ ν : Type) where
  full : Bool
  knownAbsent : List δ
  value : Dict δ ν

structure DictionaryCache (κ δ ν : Type) where
  /-- The entries `(key, dict_key)`: a value, or `none` if the key is known to be absent. -/
  perKey : Dict (κ × δ) (Option ν)
  /-- The entries `(key, _FullCacheKey.KEY)`. -/
  fullDict : Dict κ (Dict δ ν)
  sequence : ℕ

namespace DictionaryCache

def empty : DictionaryCache κ δ ν := ⟨∅, ∅, 0⟩

/-! ## The code -/

variable (cache : DictionaryCache κ δ ν) (key : κ)

def getFullDict : DictionaryEntry δ ν :=
  match cache.fullDict.lookup key with
  | some entry => ⟨true, [], entry⟩
  | none => ⟨false, [], ∅⟩

/-- The variables of the first loop of `get`. -/
structure Found (δ ν : Type) where
  values : Dict δ ν
  knownAbsent : List δ
  missing : List δ

/-- One turn of the first loop of `get`. -/
def lookUp (found : Found δ ν) (dictKey : δ) : Found δ ν :=
  match cache.perKey.lookup (key, dictKey) with
  | none => { found with missing := found.missing ++ [dictKey] }
  | some none => { found with knownAbsent := found.knownAbsent ++ [dictKey] }
  | some (some value) => { found with values := found.values.insert dictKey value }

/-- `self.cache[(key, dict_key)] = _PerKeyValue(value)`. -/
def setKey (dictKey : δ) (value : Option ν) : DictionaryCache κ δ ν :=
  { cache with perKey := cache.perKey.insert (key, dictKey) value }

/-- One turn of the second loop of `get`, which has the full dictionary. -/
def takeFromFull (entry : Dict δ ν) (acc : DictionaryCache κ δ ν × Dict δ ν) (dictKey : δ) :
    DictionaryCache κ δ ν × Dict δ ν :=
  let value := entry.lookup dictKey
  (acc.1.setKey key dictKey value,
    match value with
    | some value => acc.2.insert dictKey value
    | none => acc.2)

def get (dictKeys : Option (List δ)) : DictionaryEntry δ ν × DictionaryCache κ δ ν :=
  match dictKeys with
  | none => (cache.getFullDict key, cache)
  | some dictKeys =>
    let found := dictKeys.foldl (cache.lookUp key) ⟨∅, [], []⟩
    if found.missing.isEmpty then (⟨false, found.knownAbsent, found.values⟩, cache)
    else
      match cache.fullDict.lookup key with
      | none => (⟨false, found.knownAbsent, found.values⟩, cache)
      | some entry =>
        let (cache, values) := found.missing.foldl (takeFromFull key entry) (cache, found.values)
        (⟨true, [], values⟩, cache)

def invalidate : DictionaryCache κ δ ν where
  perKey := cache.perKey.filterItems fun entry _ => entry.1 ≠ key
  fullDict := cache.fullDict.erase key
  sequence := cache.sequence + 1

def invalidateAll : DictionaryCache κ δ ν := ⟨∅, ∅, cache.sequence + 1⟩

def updateSubset (value : Dict δ ν) (fetchedKeys : List δ) : DictionaryCache κ δ ν :=
  let cache := value.items.foldl (fun cache (dictKey, dictValue) =>
    cache.setKey key dictKey (some dictValue)) cache
  fetchedKeys.foldl (fun cache dictKey =>
    if dictKey ∈ value then cache else cache.setKey key dictKey none) cache

def update (sequence : ℕ) (key : κ) (value : Dict δ ν) (fetchedKeys : Option (List δ)) :
    DictionaryCache κ δ ν :=
  if cache.sequence = sequence then
    match fetchedKeys with
    | none => { cache with fullDict := cache.fullDict.insert key value }
    | some fetchedKeys => cache.updateSubset key value fetchedKeys
  else cache

/-- The `LruCache` drops entries. -/
def evict (perKey : List (κ × δ)) (fullDict : List κ) : DictionaryCache κ δ ν :=
  { cache with
    perKey := cache.perKey.eraseAll perKey
    fullDict := cache.fullDict.eraseAll fullDict }

/-! ## What the entries say -/

/-- Every entry for `key` is right about the dictionary with these lookups. -/
structure AgreesWith (cache : DictionaryCache κ δ ν) (key : κ) (dict : δ → Option ν) : Prop where
  perKey : ∀ dictKey value, cache.perKey.lookup (key, dictKey) = some value → value = dict dictKey
  fullDict : ∀ entry, cache.fullDict.lookup key = some entry →
    ∀ dictKey, entry.lookup dictKey = dict dictKey

variable {cache : DictionaryCache κ δ ν} {key : κ} {dict : δ → Option ν}

theorem empty_agreesWith : (empty : DictionaryCache κ δ ν).AgreesWith key dict :=
  ⟨fun _ _ h => (nomatch h), fun _ h => (nomatch h)⟩

variable {key' : κ} {value : Dict δ ν}

section
variable (h : cache.AgreesWith key dict)
include h

/-- Setting entries for one key leaves those for the others alone. -/
theorem AgreesWith.setKey {dictKey : δ} {value : Option ν} (hvalue : key' = key → value = dict dictKey) :
    (cache.setKey key' dictKey value).AgreesWith key dict := by
  refine ⟨fun dictKey' value' hlookup => ?_, h.fullDict⟩
  rcases Dict.lookup_insert_cases hlookup with ⟨heq, rfl⟩ | ⟨_, hold⟩
  · obtain ⟨rfl, rfl⟩ := Prod.mk.inj heq
    exact hvalue rfl
  · exact h.perKey dictKey' value' hold

theorem AgreesWith.setFullDict (hvalue : key' = key → ∀ dictKey, value.lookup dictKey = dict dictKey) :
    AgreesWith { cache with fullDict := cache.fullDict.insert key' value } key dict := by
  refine ⟨h.perKey, fun entry hlookup => ?_⟩
  rcases Dict.lookup_insert_cases hlookup with ⟨heq, rfl⟩ | ⟨_, hold⟩
  · exact hvalue heq.symm
  · exact h.fullDict entry hold

theorem AgreesWith.mono {cache' : DictionaryCache κ δ ν}
    (hperKey : ∀ dictKey value, cache'.perKey.lookup (key, dictKey) = some value →
      cache.perKey.lookup (key, dictKey) = some value)
    (hfull : ∀ entry, cache'.fullDict.lookup key = some entry →
      cache.fullDict.lookup key = some entry) : cache'.AgreesWith key dict :=
  ⟨fun dictKey value hlookup => h.perKey dictKey value (hperKey dictKey value hlookup),
    fun entry hlookup => h.fullDict entry (hfull entry hlookup)⟩

theorem AgreesWith.evict {perKey : List (κ × δ)} {fullDict : List κ} :
    (cache.evict perKey fullDict).AgreesWith key dict := by
  refine h.mono (fun dictKey value hlookup => ?_) fun entry hlookup => ?_
  · exact (Dict.lookup_eraseAll_eq_some.mp hlookup).2
  · exact (Dict.lookup_eraseAll_eq_some.mp hlookup).2

theorem AgreesWith.invalidate : (cache.invalidate key').AgreesWith key dict := by
  refine h.mono (fun dictKey value hlookup => ?_) fun entry hlookup => ?_
  · have hfilter := Dict.lookup_filterItems.symm.trans hlookup
    exact (Option.filter_eq_some_iff.mp hfilter).1
  · by_cases hkey : key = key'
    · subst hkey
      exact absurd ((lookup_erase key cache.fullDict).symm.trans hlookup) (fun h => (nomatch h))
    · exact (lookup_erase_ne hkey).symm.trans hlookup

end

theorem invalidateAll_agreesWith : cache.invalidateAll.AgreesWith key dict :=
  ⟨fun _ _ h => (nomatch h), fun _ h => (nomatch h)⟩

variable (h : cache.AgreesWith key dict)
  (hvalue : key' = key → ∀ dictKey v, value.lookup dictKey = some v → dict dictKey = some v)
include hvalue in
include h in
theorem AgreesWith.updateSubset {fetchedKeys : List δ}
    (hfetched : key' = key → ∀ dictKey ∈ fetchedKeys, value.lookup dictKey = dict dictKey) :
    (cache.updateSubset key' value fetchedKeys).AgreesWith key dict := by
  refine List.foldlRecOn (motive := fun cache => AgreesWith cache key dict) fetchedKeys _ ?_
    fun cache hcache dictKey hmem => ?_
  · refine List.foldlRecOn (motive := fun cache => AgreesWith cache key dict) value.items _ h
      fun cache hcache item hitem => ?_
    exact hcache.setKey fun hkey => (hvalue hkey _ _ (Dict.mem_items.mp hitem)).symm
  · split
    · exact hcache
    next habsent =>
      refine hcache.setKey fun hkey => ?_
      rw [← hfetched hkey dictKey hmem]
      exact (lookup_eq_none.mpr habsent).symm

include hvalue in
include h in
/-- `update` keeps the entries right if what was fetched is: the values, the whole dictionary if
`fetched_keys` is not given, and otherwise all of `fetched_keys`. -/
theorem AgreesWith.update {sequence : ℕ} {fetchedKeys : Option (List δ)}
    (hfetched : key' = key → ∀ dictKey, (∀ keys, fetchedKeys = some keys → dictKey ∈ keys) →
      value.lookup dictKey = dict dictKey) :
    (cache.update sequence key' value fetchedKeys).AgreesWith key dict := by
  unfold DictionaryCache.update
  split
  · cases fetchedKeys with
    | none =>
      exact h.setFullDict fun hkey dictKey => hfetched hkey dictKey fun _ hnone => (nomatch hnone)
    | some keys =>
      refine h.updateSubset hvalue fun hkey dictKey hmem => ?_
      exact hfetched hkey dictKey fun _ hkeys => Option.some.inj hkeys ▸ hmem
  · exact h

/-! ## What `get` returns -/

include h in
/-- `get` only adds entries that it takes from the full dictionary. -/
theorem AgreesWith.get {dictKeys : Option (List δ)} :
    (cache.get key' dictKeys).2.AgreesWith key dict := by
  unfold DictionaryCache.get
  split
  · exact h
  next dictKeys =>
    dsimp only
    split
    · exact h
    · split
      · exact h
      next entry hentry =>
        refine List.foldlRecOn
          (motive := fun acc : DictionaryCache κ δ ν × Dict δ ν => acc.1.AgreesWith key dict) _ _ h
          fun acc hacc dictKey _ => ?_
        refine hacc.setKey fun hkey => ?_
        exact h.fullDict entry (hkey ▸ hentry) dictKey

/-- The values are values of the dictionary. -/
def Sound (values : Dict δ ν) (dict : δ → Option ν) : Prop :=
  ∀ dictKey value, values.lookup dictKey = some value → dict dictKey = some value

theorem Sound.insert {values : Dict δ ν} (h : Sound values dict) {dictKey : δ} {value : ν}
    (hvalue : dict dictKey = some value) : Sound (values.insert dictKey value) dict := by
  intro dictKey' value' hlookup
  rcases Dict.lookup_insert_cases hlookup with ⟨rfl, rfl⟩ | ⟨_, hold⟩
  · exact hvalue
  · exact h dictKey' value' hold

/-- What the first loop of `get` has found after the keys `done`. -/
structure Found.Right (dict : δ → Option ν) (done : List δ) (found : Found δ ν) : Prop where
  sound : Sound found.values dict
  absent : ∀ dictKey ∈ found.knownAbsent, dict dictKey = none
  complete : ∀ dictKey ∈ done, dictKey ∈ found.missing ∨ found.values.lookup dictKey = dict dictKey

variable {found : Found δ ν}
include h in
theorem lookUp_right {done : List δ} (hfound : found.Right dict done) (dictKey : δ) :
    (cache.lookUp key found dictKey).Right dict (done ++ [dictKey]) := by
  have hdone : ∀ {dictKey'}, dictKey' ∈ done ++ [dictKey] → dictKey' ≠ dictKey → dictKey' ∈ done := by
    intro dictKey' hmem hne
    rcases mem_append.mp hmem with hmem | hmem
    · exact hmem
    · exact absurd (mem_singleton.mp hmem) hne
  unfold lookUp
  split
  · refine ⟨hfound.sound, hfound.absent, fun dictKey' hmem => ?_⟩
    rcases mem_append.mp hmem with hmem | hmem
    · exact (hfound.complete dictKey' hmem).imp_left (mem_append_left _)
    · exact .inl (mem_append_right _ hmem)
  next hlookup =>
    have habsent := (h.perKey _ _ hlookup).symm
    refine ⟨hfound.sound, forall_mem_append.mpr ⟨hfound.absent, forall_mem_singleton.mpr habsent⟩,
      fun dictKey' hmem => ?_⟩
    by_cases heq : dictKey' = dictKey
    · subst heq
      refine .inr (Option.eq_none_iff_forall_ne_some.mpr (fun value hvalue => ?_) |>.trans habsent.symm)
      exact absurd (hfound.sound _ _ hvalue) (habsent ▸ fun h => (nomatch h))
    · exact hfound.complete dictKey' (hdone hmem heq)
  next value hlookup =>
    have hvalue := (h.perKey _ _ hlookup).symm
    refine ⟨hfound.sound.insert hvalue, hfound.absent, fun dictKey' hmem => ?_⟩
    by_cases heq : dictKey' = dictKey
    · subst heq
      exact .inr ((lookup_insert _).trans hvalue.symm)
    · exact (hfound.complete dictKey' (hdone hmem heq)).imp_right
        ((lookup_insert_ne heq).trans ·)

/-- What `get` returns is right about the dictionary: the values, the absent keys and, if `full` is
set, all that was asked for. -/
structure Answers (dict : δ → Option ν) (dictKeys : Option (List δ)) (entry : DictionaryEntry δ ν) :
    Prop where
  sound : Sound entry.value dict
  absent : ∀ dictKey ∈ entry.knownAbsent, dict dictKey = none
  full : entry.full = true → ∀ dictKey, (∀ keys, dictKeys = some keys → dictKey ∈ keys) →
    entry.value.lookup dictKey = dict dictKey

include h in
theorem getFullDict_answers : Answers dict none (cache.getFullDict key) := by
  unfold getFullDict
  split
  next entry hentry =>
    have hlookup := h.fullDict entry hentry
    refine ⟨fun dictKey value hvalue => hlookup dictKey ▸ hvalue, ?_, fun _ dictKey _ => hlookup dictKey⟩
    exact nofun
  · exact ⟨fun _ _ hvalue => (nomatch hvalue), fun _ hmem => absurd hmem not_mem_nil,
      fun hfull => (nomatch hfull)⟩

variable {entry : Dict δ ν}

theorem takeFromFull_sound (key : κ)
    (hentry : ∀ dictKey, entry.lookup dictKey = dict dictKey)
    {acc : DictionaryCache κ δ ν × Dict δ ν} (h : Sound acc.2 dict) (dictKey : δ) :
    Sound (takeFromFull key entry acc dictKey).2 dict ∧
      (takeFromFull key entry acc dictKey).2.lookup dictKey = dict dictKey ∧
      ∀ dictKey', dictKey' ≠ dictKey →
        (takeFromFull key entry acc dictKey).2.lookup dictKey' = acc.2.lookup dictKey' := by
  unfold takeFromFull
  dsimp only
  rw [hentry dictKey]
  split
  next value hvalue =>
    refine ⟨h.insert hvalue, (lookup_insert _).trans hvalue.symm, fun dictKey' hne => ?_⟩
    exact lookup_insert_ne hne
  next hnone =>
    refine ⟨h, (Option.eq_none_iff_forall_ne_some.mpr fun value hvalue => ?_).trans hnone.symm,
      fun _ _ => rfl⟩
    exact absurd (h dictKey value hvalue) (hnone ▸ fun h => (nomatch h))

/-- The second loop of `get` completes the values. -/
theorem takeFromFull_right (cache : DictionaryCache κ δ ν) (key : κ)
    (hentry : ∀ dictKey, entry.lookup dictKey = dict dictKey)
    {dictKeys : List δ} (hfound : found.Right dict dictKeys) :
    let values := (found.missing.foldl (takeFromFull key entry) (cache, found.values)).2
    Sound values dict ∧ ∀ dictKey ∈ dictKeys, values.lookup dictKey = dict dictKey := by
  -- what is still missing are the keys that the loop has not come to
  have hloop := foldl_inv (f := takeFromFull key entry) (s := (cache, found.values))
    (I := fun done acc => Sound acc.2 dict ∧ ∀ dictKey ∈ dictKeys,
      dictKey ∈ found.missing ∧ dictKey ∉ done ∨ acc.2.lookup dictKey = dict dictKey)
    found.missing ?_ ?_
  · refine ⟨hloop.1, fun dictKey hmem => ?_⟩
    exact (hloop.2 dictKey hmem).resolve_left fun h => h.2 h.1
  · intro done dictKey rest acc _ hacc
    obtain ⟨hsound, hself, hother⟩ := takeFromFull_sound key hentry hacc.1 dictKey
    refine ⟨hsound, fun dictKey' hmem => ?_⟩
    by_cases heq : dictKey' = dictKey
    · exact .inr (heq ▸ hself)
    · rw [hother dictKey' heq]
      refine (hacc.2 dictKey' hmem).imp_left fun h => ⟨h.1, fun hdone => ?_⟩
      rcases mem_append.mp hdone with hdone | hdone
      · exact h.2 hdone
      · exact heq (mem_singleton.mp hdone)
  · refine ⟨hfound.sound, fun dictKey hmem => ?_⟩
    exact (hfound.complete dictKey hmem).imp_left fun h => ⟨h, not_mem_nil⟩

include h in
theorem get_answers (dictKeys : Option (List δ)) : Answers dict dictKeys (cache.get key dictKeys).1 := by
  unfold DictionaryCache.get
  split
  · exact getFullDict_answers h
  next dictKeys =>
    have hfound : (dictKeys.foldl (cache.lookUp key) ⟨∅, [], []⟩).Right dict dictKeys := by
      refine foldl_inv dictKeys
        (fun done dictKey _ found _ hright => lookUp_right h hright dictKey) ?_
      exact ⟨fun _ _ hvalue => (nomatch hvalue), fun _ hmem => absurd hmem not_mem_nil, nofun⟩
    dsimp only
    split
    · exact ⟨hfound.sound, hfound.absent, fun hfull => (nomatch hfull)⟩
    · split
      · exact ⟨hfound.sound, hfound.absent, fun hfull => (nomatch hfull)⟩
      next entry hentry =>
        obtain ⟨hsound, hall⟩ := takeFromFull_right cache key (h.fullDict entry hentry) hfound
        refine ⟨hsound, fun _ hmem => absurd hmem not_mem_nil, fun _ dictKey hkeys => ?_⟩
        exact hall dictKey (hkeys _ rfl)

end DictionaryCache
end Synapse.Caches
