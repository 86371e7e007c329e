import Mathlib.Algebra.GroupWithZero.Nat
import Mathlib.Algebra.Order.BigOperators.Group.List
import Mathlib.Data.List.AList
import Mathlib.Data.List.Induction

/-!
# Python dictionaries

A `dict` is Mathlib's association list without duplicate keys: `lookup` is
`d.get(k)`, `insert` is `d[k] = v`, `keys` and `entries` are the iterations.
Nothing here depends on the order in which the entries are listed.
-/

namespace Synapse.Util

open List AList

section
variable {α : Type*} [LinearOrder α] {l : List α}

instance lawfulBEqOfLinearOrder : LawfulBEq α := inferInstance

theorem exists_min? (h : l ≠ []) : ∃ m ∈ l, l.min? = some m ∧ ∀ x ∈ l, m ≤ x := by
  obtain ⟨m, hm⟩ := Option.ne_none_iff_exists'.mp (mt min?_eq_none_iff.mp h)
  exact ⟨m, (min?_eq_some_iff.mp hm).1, hm, (min?_eq_some_iff.mp hm).2⟩

theorem exists_max? (h : l ≠ []) : ∃ m ∈ l, l.max? = some m ∧ ∀ x ∈ l, x ≤ m := by
  obtain ⟨m, hm⟩ := Option.ne_none_iff_exists'.mp (mt max?_eq_none_iff.mp h)
  exact ⟨m, (max?_eq_some_iff.mp hm).1, hm, (max?_eq_some_iff.mp hm).2⟩

theorem getD_max?_cases (l : List α) (dflt : α) : l = [] ∧ l.max?.getD dflt = dflt ∨
    l.max?.getD dflt ∈ l ∧ ∀ x ∈ l, x ≤ l.max?.getD dflt := by
  rcases eq_or_ne l [] with rfl | h
  · exact .inl ⟨rfl, rfl⟩
  · obtain ⟨m, hmem, hmax, hle⟩ := exists_max? h
    rw [hmax]
    exact .inr ⟨hmem, hle⟩

end

/-- A Python `dict` from `κ` to `ν`. -/
abbrev Dict (κ ν : Type) := AList (fun _ : κ => ν)

namespace Dict
variable {κ ν : Type} [DecidableEq κ] (d : Dict κ ν)

/-- `d.get(k, default)`. -/
def getD (k : κ) (dflt : ν) : ν := (d.lookup k).getD dflt

/-- `{k: v}`. -/
def single (k : κ) (v : ν) : Dict κ ν := insert k v ∅

/-- `{k: f(k) for k in keys}`. -/
def ofKeys (keys : List κ) (f : κ → ν) : Dict κ ν := keys.foldr (fun k d => d.insert k (f k)) ∅

/-- `for k in keys: d[k] = f(k)`, where `f` may fail. -/
def ofKeysM {m : Type → Type} [Monad m] (keys : List κ) (f : κ → m ν) : m (Dict κ ν) :=
  keys.foldlM (fun d k => do pure (d.insert k (← f k))) ∅

/-- `d.items()`. -/
def items : List (κ × ν) := d.entries.map fun entry => (entry.1, entry.2)

/-- `d.update(pairs)`. -/
def update (pairs : List (κ × ν)) : Dict κ ν := pairs.foldl (fun d p => d.insert p.1 p.2) d

/-- `for k, x in pairs: d[k] = f(d.get(k), x)`. -/
def upsertAll {β : Type} (d : Dict κ ν) (pairs : List (κ × β)) (f : Option ν → β → ν) : Dict κ ν :=
  pairs.foldl (fun d p => d.insert p.1 (f (d.lookup p.1) p.2)) d

/-- `for k in keys: d.pop(k, None)`. -/
def eraseAll (keys : List κ) : Dict κ ν := keys.foldl (fun d k => d.erase k) d

/-- `for k, v in pairs: d[k] = max(v, d.get(k, 0))`. -/
def maxMerge (d : Dict κ ℕ) (pairs : List (κ × ℕ)) : Dict κ ℕ :=
  pairs.foldl (fun d p => d.insert p.1 (max p.2 (d.getD p.1 0))) d

/-- `{k: v for k, v in d.items() if p(k, v)}`. -/
def filterItems (p : κ → ν → Bool) : Dict κ ν where
  entries := d.entries.filter fun entry => p entry.1 entry.2
  nodupKeys := d.nodupKeys.sublist filter_sublist

/-- `{k: f(k, v) for k, v in d.items()}`. -/
def mapItems (f : κ → ν → ν) : Dict κ ν where
  entries := d.entries.map fun entry => ⟨entry.1, f entry.1 entry.2⟩
  nodupKeys := by
    rw [List.NodupKeys, List.keys, List.map_map]
    exact d.nodupKeys

/-- `{k: w for k, v in d.items() if (w := f(k, v)) is not None}`. -/
def filterMapItems {μ : Type} (d : Dict κ ν) (f : κ → ν → Option μ) : Dict κ μ where
  entries := d.entries.filterMap fun entry => (f entry.1 entry.2).map (⟨entry.1, ·⟩)
  nodupKeys := by
    have hkeys : (d.entries.filterMap fun entry => (f entry.1 entry.2).map
        (⟨entry.1, ·⟩ : μ → Sigma fun _ : κ => μ)).keys.Sublist d.entries.keys := by
      induction d.entries with
      | nil => exact .slnil
      | cons entry entries ih =>
        rw [filterMap_cons]
        cases f entry.1 entry.2 with
        | none => exact ih.cons _
        | some w => exact ih.cons_cons _
    exact hkeys.nodup d.nodupKeys

/-- The values of the entries whose key is not `k`, as in
`(v for name, v in d.items() if name != k)`. -/
def valuesExcept (k : κ) : List ν := (d.entries.filter fun e => e.1 ≠ k).map (·.2)

variable {v : ν} {k k' : κ} {d : Dict κ ν}

theorem lookup_insert_ite : (d.insert k v).lookup k' = if k' = k then some v else d.lookup k' := by
  split
  next hk => rw [hk, lookup_insert]
  next hk => exact lookup_insert_ne hk

theorem lookup_single : (single k v).lookup k' = if k' = k then some v else none := lookup_insert_ite

variable {k : κ} {v dflt : ν}

theorem getD_of_lookup (h : d.lookup k = some v) : d.getD k dflt = v := by
  rw [getD, h]
  rfl

theorem lookup_of_lt_getD {d : Dict κ ℕ} {n : ℕ} (h : n < d.getD k 0) : d.lookup k = some (d.getD k 0) := by
  unfold getD at h ⊢
  cases hlook : d.lookup k with
  | none =>
    rw [hlook] at h
    exact nomatch h
  | some m => rfl

theorem getD_insert :
    getD (d.insert k v) k' dflt = if k' = k then v else d.getD k' dflt := by
  unfold getD
  rw [lookup_insert_ite]
  split <;> rfl

/-- `d.setdefault(k, dflt)`. -/
theorem getD_insert_getD {k' : κ} {dflt : ν} :
    getD (d.insert k (d.getD k dflt)) k' dflt = d.getD k' dflt := by
  rw [getD_insert]
  split
  next hk => rw [hk]
  · rfl

/-- `d.setdefault(k, set()).add(x)`. -/
theorem mem_getD_insert_insert {μ : Type} [DecidableEq μ] {d : Dict κ (List μ)} {k' : κ} {x y : μ} :
    y ∈ getD (d.insert k ((d.getD k []).insert x)) k' [] ↔ y ∈ d.getD k' [] ∨ k' = k ∧ y = x := by
  rw [getD_insert]
  by_cases hk : k' = k
  · rw [if_pos hk, mem_insert_iff, hk, and_iff_right rfl]
    exact or_comm
  · rw [if_neg hk, or_iff_left fun h => hk h.1]

/-- What is merged reaches a number if it did before or one of the pairs does. -/
theorem le_getD_maxMerge {n : ℕ} : ∀ {pairs : List (κ × ℕ)} {d : Dict κ ℕ}, 0 < n →
    (n ≤ (d.maxMerge pairs).getD k 0 ↔ n ≤ d.getD k 0 ∨ ∃ p ∈ pairs, p.1 = k ∧ n ≤ p.2)
  | [], d, _ => by simp [maxMerge]
  | p :: pairs, d, hn => by
    show n ≤ (maxMerge _ pairs).getD k 0 ↔ _
    rw [le_getD_maxMerge hn, getD_insert, exists_mem_cons_iff]
    by_cases hk : k = p.1
    · rw [if_pos hk, le_max_iff, hk]
      tauto
    · rw [if_neg hk]
      tauto

theorem mem_valuesExcept : v ∈ d.valuesExcept k ↔ ∃ k', k' ≠ k ∧ d.lookup k' = some v := by
  unfold valuesExcept
  rw [mem_map]
  constructor
  · rintro ⟨⟨k', v'⟩, hmem, rfl⟩
    rw [mem_filter] at hmem
    exact ⟨k', by simpa using hmem.2, mem_lookup_iff.mpr hmem.1⟩
  · rintro ⟨k', hne, hk'⟩
    refine ⟨⟨k', v⟩, mem_filter.mpr ⟨mem_lookup_iff.mp hk', ?_⟩, rfl⟩
    simpa using hne

/-- What a lookup finds after one assignment. -/
theorem lookup_insert_cases {v v' : ν} (h : (d.insert k v).lookup k' = some v') :
    (k' = k ∧ v' = v) ∨ (k' ≠ k ∧ d.lookup k' = some v') := by
  by_cases hk : k' = k
  · subst hk
    rw [lookup_insert] at h
    exact .inl ⟨rfl, (Option.some.inj h).symm⟩
  · rw [lookup_insert_ne hk] at h
    exact .inr ⟨hk, h⟩

theorem mem_of_lookup (h : d.lookup k = some v) : k ∈ d := lookup_isSome.mp (Option.isSome_of_eq_some h)

theorem exists_lookup (h : k ∈ d) : ∃ v, d.lookup k = some v :=
  Option.isSome_iff_exists.mp (lookup_isSome.mpr h)

variable {keys : List κ}

theorem lookup_ofKeys {f : κ → ν} : (ofKeys keys f).lookup k = if k ∈ keys then some (f k) else none := by
  induction keys with
  | nil => rfl
  | cons k' keys ih =>
    show ((ofKeys keys f).insert k' (f k')).lookup k = _
    by_cases hk : k = k'
    · subst hk
      rw [lookup_insert, if_pos mem_cons_self]
    · rw [lookup_insert_ne hk, ih]
      simp only [mem_cons, hk, false_or]

theorem mem_ofKeys {f : κ → ν} : k ∈ ofKeys keys f ↔ k ∈ keys := by
  rw [← lookup_isSome, lookup_ofKeys]
  split <;> simp_all

theorem lookup_ofKeys_eq_some {f : κ → ν} : (ofKeys keys f).lookup k = some v ↔ k ∈ keys ∧ f k = v := by
  rw [lookup_ofKeys, Option.ite_none_right_eq_some, Option.some.injEq]

variable {pairs : List (κ × ν)}

theorem update_append {pairs' : List (κ × ν)} :
    d.update (pairs ++ pairs') = (d.update pairs).update pairs' := foldl_append

/-- Pairs that give a key only one value, in whatever order and however often. -/
theorem lookup_update_of_functional (hfun : ∀ k v v', (k, v) ∈ pairs → (k, v') ∈ pairs → v = v') :
    (d.update pairs).lookup k = some v ↔
      (k, v) ∈ pairs ∨ k ∉ pairs.map Prod.fst ∧ d.lookup k = some v := by
  induction pairs using reverseRecOn with
  | nil => simp [update]
  | append_singleton pairs p ih =>
    obtain ⟨k₀, v₀⟩ := p
    rw [update_append, show (d.update pairs).update [(k₀, v₀)] = (d.update pairs).insert k₀ v₀ from rfl]
    by_cases hk : k = k₀
    · subst hk
      rw [lookup_insert, Option.some.injEq]
      constructor
      · rintro rfl
        exact .inl (by simp)
      · rintro (h | h)
        · exact hfun k v₀ v (by simp) h
        · exact absurd (by simp) h.1
    · rw [lookup_insert_ne hk, ih fun k v v' h h' =>
        hfun k v v' (mem_append_left _ h) (mem_append_left _ h')]
      simp [hk]

/-- Adding pairs to a dict is overlaying the dict of these pairs. -/
theorem lookup_update_eq_or : (d.update pairs).lookup k = ((update ∅ pairs).lookup k).or (d.lookup k) := by
  induction pairs using reverseRecOn with
  | nil => rfl
  | append_singleton pairs p ih =>
    rw [update_append, update_append]
    show ((d.update pairs).insert p.1 p.2).lookup k = (((update ∅ pairs).insert p.1 p.2).lookup k).or _
    rw [lookup_insert_ite, lookup_insert_ite, ih]
    split <;> rfl

theorem mem_or_lookup_of_lookup_update (h : (d.update pairs).lookup k = some v) :
    (k, v) ∈ pairs ∨ d.lookup k = some v := by
  induction pairs generalizing d with
  | nil => exact .inr h
  | cons p pairs ih =>
    rcases ih h with hmem | hlookup
    · exact .inl (mem_cons_of_mem _ hmem)
    · rcases lookup_insert_cases hlookup with ⟨rfl, rfl⟩ | ⟨_, hlookup⟩
      · exact .inl mem_cons_self
      · exact .inr hlookup

theorem lookup_update (hnodup : (pairs.map Prod.fst).Nodup) : (d.update pairs).lookup k = some v ↔
      (k, v) ∈ pairs ∨ k ∉ pairs.map Prod.fst ∧ d.lookup k = some v := by
  refine lookup_update_of_functional fun k v v' h h' => ?_
  exact congrArg Prod.snd (inj_on_of_nodup_map hnodup h h' rfl)

omit [DecidableEq κ] in
/-- Pairs whose keys come from different elements of a list have different keys. -/
theorem nodup_map_fst_filterMap {α : Type*} {f : α → κ} {g : α → Option ν} {l : List α}
    (h : (l.map f).Nodup) : ((l.filterMap fun x => (g x).map (f x, ·)).map Prod.fst).Nodup := by
  have hkeys : (l.filterMap fun x => (g x).map (f x, ·)).map Prod.fst =
      (l.filter fun x => (g x).isSome).map f := by
    rw [map_filterMap, ← filterMap_eq_map, filterMap_filter]
    refine congrArg (l.filterMap ·) (funext fun x => ?_)
    cases g x <;> rfl
  rw [hkeys]
  exact h.sublist (filter_sublist.map f)

theorem mem_update : k ∈ d.update pairs ↔ k ∈ pairs.map Prod.fst ∨ k ∈ d := by
  induction pairs generalizing d with
  | nil => simp [update]
  | cons p pairs ih =>
    refine ih.trans ?_
    rw [mem_insert, map_cons, mem_cons]
    exact or_left_comm.trans or_assoc.symm

theorem mem_items : (k, v) ∈ d.items ↔ d.lookup k = some v := by
  rw [items, mem_map]
  constructor
  · rintro ⟨⟨k', v'⟩, hmem, heq⟩
    obtain ⟨rfl, rfl⟩ := Prod.mk.inj heq
    exact mem_lookup_iff.mpr hmem
  · exact fun h => ⟨⟨k, v⟩, mem_lookup_iff.mp h, rfl⟩

theorem getD_induction {p : ν → Prop} (hdflt : p dflt) (hitems : ∀ item ∈ d.items, p item.2) :
    p (d.getD k dflt) := by
  unfold getD
  cases hlookup : d.lookup k with
  | none => exact hdflt
  | some v => exact hitems (k, v) (mem_items.mpr hlookup)

theorem getD_of_items_eq_nil (h : d.items = []) (dflt : ν) : d.getD k dflt = dflt := by
  rw [show d = ∅ from ext (map_eq_nil_iff.mp h)]
  rfl

theorem filter_items_key : (d.items.filter fun item => item.1 = k) = (d.lookup k).toList.map (k, ·) := by
  obtain ⟨entries, hnodup⟩ := d
  unfold items AList.lookup
  induction entries with
  | nil => rfl
  | cons entry entries ih =>
    obtain ⟨k', v⟩ := entry
    obtain ⟨hnotin, hnodup⟩ := nodupKeys_cons.mp hnodup
    rw [map_cons]
    by_cases hk : k' = k
    · subst hk
      rw [dlookup_cons_eq, filter_cons_of_pos (by simp), ih hnodup, dlookup_eq_none.mpr hnotin]
      rfl
    · rw [dlookup_cons_ne _ _ (Ne.symm hk), filter_cons_of_neg (by simpa using hk), ih hnodup]

/-- What is wanted of the items of one key only. -/
theorem filter_flatMap_items {α : Type} {f : κ → ν → List α} {p : α → Bool}
    (h : ∀ k' v, k' ≠ k → (f k' v).filter p = []) :
    (d.items.flatMap fun item => f item.1 item.2).filter p =
      (d.lookup k).toList.flatMap fun v => (f k v).filter p := by
  have hskip : ∀ items : List (κ × ν), (items.flatMap fun item => f item.1 item.2).filter p =
      (items.filter fun item => item.1 = k).flatMap fun item => (f item.1 item.2).filter p := by
    intro items
    induction items with
    | nil => rfl
    | cons item items ih =>
      rw [flatMap_cons, filter_append, ih]
      by_cases hk : item.1 = k
      · rw [filter_cons_of_pos (by simpa using hk), flatMap_cons]
      · rw [filter_cons_of_neg (by simpa using hk), h item.1 item.2 hk, nil_append]
  rw [hskip, filter_items_key, flatMap_map]

omit [DecidableEq κ] in
theorem map_fst_items (d : Dict κ ν) : d.items.map Prod.fst = d.keys := by
  rw [items, map_map]
  rfl

theorem lookup_update_items {d d' : Dict κ ν} :
    (d.update d'.items).lookup k = (d'.lookup k).or (d.lookup k) := by
  refine Option.ext fun v => ?_
  rw [lookup_update (d'.map_fst_items ▸ d'.keys_nodup), map_fst_items, mem_items, ← AList.mem_keys]
  cases hk : d'.lookup k with
  | none => simp [lookup_eq_none.mp hk]
  | some v' =>
    have hmem := mem_of_lookup hk
    simp [hmem]

/-- A sum over the values after `d[k] = v`. -/
theorem sum_items_insert (g : ν → ℕ) (d : Dict κ ν) (k : κ) (v : ν) :
    ((items (d.insert k v)).map fun item => g item.2).sum + ((d.lookup k).map g).getD 0 =
      (d.items.map fun item => g item.2).sum + g v := by
  have hentries : ((kerase k d.entries).map fun entry => g entry.2).sum +
      ((d.lookup k).map g).getD 0 = (d.entries.map fun entry => g entry.2).sum := by
    by_cases hk : k ∈ d.entries.keys
    · obtain ⟨v', front, back, _, hsplit, herase⟩ := exists_of_kerase hk
      have hlook : d.lookup k = some v' := mem_lookup_iff.mpr (hsplit ▸ mem_append_cons_self)
      rw [herase, hlook, hsplit, map_append, map_append, sum_append, sum_append, map_cons, sum_cons]
      exact (Nat.add_right_comm _ _ _).trans (Nat.add_assoc _ _ _)
    · rw [kerase_of_notMem_keys hk, lookup_eq_none.mpr hk]
      rfl
  unfold items
  rw [entries_insert, map_map, map_map, map_cons, sum_cons]
  dsimp only [Function.comp_def]
  omega

theorem lookup_upsertAll_of_notMem {β : Type} {f : Option ν → β → ν} :
    ∀ {pairs : List (κ × β)} {d : Dict κ ν}, k ∉ pairs.map Prod.fst →
      (d.upsertAll pairs f).lookup k = d.lookup k
  | [], _, _ => rfl
  | p :: pairs, d, h => by
    obtain ⟨hne, hnotin⟩ := not_or.mp (mem_cons.not.mp h)
    exact (lookup_upsertAll_of_notMem hnotin).trans (lookup_insert_ne hne)

theorem lookup_upsertAll_of_mem {β : Type} {f : Option ν → β → ν} {x : β} :
    ∀ {pairs : List (κ × β)} {d : Dict κ ν}, (pairs.map Prod.fst).Nodup → (k, x) ∈ pairs →
      (d.upsertAll pairs f).lookup k = some (f (d.lookup k) x)
  | p :: pairs, d, hnodup, h => by
    obtain ⟨hnotin, hnodup⟩ := nodup_cons.mp hnodup
    rcases mem_cons.mp h with rfl | h
    · exact (lookup_upsertAll_of_notMem hnotin).trans (lookup_insert _)
    · have hne : k ≠ p.1 := fun heq => hnotin (heq ▸ mem_map_of_mem h)
      refine (lookup_upsertAll_of_mem hnodup h).trans ?_
      rw [lookup_insert_ne hne]

variable {p : κ → ν → Bool}

theorem lookup_filterItems : (d.filterItems p).lookup k = (d.lookup k).filter (p k) := by
  refine Option.ext fun v => ?_
  rw [Option.filter_eq_some_iff]
  show v ∈ (d.filterItems p).lookup k ↔ v ∈ d.lookup k ∧ _
  rw [mem_lookup_iff, mem_lookup_iff]
  exact mem_filter

theorem mem_filterItems (h : ∀ v, p k v = true) : k ∈ d.filterItems p ↔ k ∈ d := by
  rw [← lookup_isSome, ← lookup_isSome, lookup_filterItems]
  cases d.lookup k with
  | none => rfl
  | some v => simp [h v]

theorem lookup_filterMapItems {μ : Type} {f : κ → ν → Option μ} :
    (d.filterMapItems f).lookup k = (d.lookup k).bind (f k) := by
  refine Option.ext fun w => ?_
  rw [Option.bind_eq_some_iff, ← Option.mem_def, mem_lookup_iff]
  unfold filterMapItems
  rw [mem_filterMap]
  constructor
  · intro h
    obtain ⟨entry, hentry, hw⟩ := h
    obtain ⟨w', hf, heq⟩ := Option.map_eq_some_iff.mp hw
    cases heq
    exact ⟨entry.2, mem_lookup_iff.mpr hentry, hf⟩
  · intro h
    obtain ⟨v, hv, hf⟩ := h
    exact ⟨⟨k, v⟩, mem_lookup_iff.mp hv, by rw [hf]; rfl⟩

theorem lookup_mapItems {f : κ → ν → ν} : (d.mapItems f).lookup k = (d.lookup k).map (f k) := dlookup_map₂ k

theorem lookup_eraseAll : (d.eraseAll keys).lookup k = if k ∈ keys then none else d.lookup k := by
  induction keys generalizing d with
  | nil => rfl
  | cons k₀ keys ih =>
    refine ih.trans ?_
    by_cases hk : k = k₀
    · subst hk
      rw [lookup_erase, ite_self, if_pos mem_cons_self]
    · rw [lookup_erase_ne hk]
      simp only [mem_cons, hk, false_or]

theorem lookup_eraseAll_eq_some :
    (d.eraseAll keys).lookup k = some v ↔ k ∉ keys ∧ d.lookup k = some v := by
  rw [lookup_eraseAll]
  split <;> simp_all

end Dict
end Synapse.Util
