import Synapse.Storage.AuthWalk

/-!
# Where the breadth first walk stops

Which events `_get_auth_chain_difference_txn` walks, in which round, does not depend on the missing
sets, on the cache or on the order of rows: it is the **walk** below, a sequence of finite sets in which
each round takes the hundred queued events that are greatest by depth and event ID and adds their auth
events.  The missing sets decide only when to stop: at the first round in which every queued event has been
reached from every state set through walked events (`Walk.Stopped`).

The events still queued at that point are in every auth chain, so the answer contains every event
it should.  But an event that was walked *earlier* may lie below a queued one, with one of the state
sets reaching it only that way; the walk stops before it finds out, and the event is returned
although it is in every auth chain.  That is the only thing that can go wrong: the answer is the
auth chain difference if and only if every event met so far that lies below a queued event has been
reached from all sets through walked events (`Walk.Clean`).
-/

namespace Synapse.Storage

open Synapse.Util Relation List Finset AList

variable {ε ρ τ : Type} [LinearOrder ε] (T : Tables ε ρ τ)

def Tables.depthOf (e : ε) : ℤ := ((T.events.lookup e).map (·.depth)).getD 0

/-- What an event is sorted by while it is queued. -/
def Tables.searchKey (e : ε) : ℤ ×ₗ ε := toLex (T.depthOf e, e)

@[simp] theorem Tables.searchKey_snd (e : ε) : (ofLex (T.searchKey e)).2 = e := rfl

/-! ## The cache and the rows of a chunk -/

/-- A cached entry lists the auth events of its event, with their depths. -/
def CacheConsistent (cache : EventAuthCache ε) : Prop :=
  ∀ e l, cache.lookup e = some l → ∀ a d, (a, d) ∈ l ↔ T.Auth e a ∧ d = T.depthOf a

/-- Evicting entries from the cache leaves the others as they are. -/
def Evicts (evict : Eviction ε) : Prop :=
  ∀ cache e l, (evict cache).lookup e = some l → cache.lookup e = some l

section
variable {T : Tables ε ρ τ} {evict : Eviction ε}
  {cache : EventAuthCache ε} {rows : List (ε × ε × ℤ)} {chunk : List ε} {a b e : ε} {d : ℤ}

theorem mem_fetchAuthEvents (hT : T.AuthDag) {toFetch : List ε} :
    (a, b, d) ∈ fetchAuthEvents T toFetch ↔ a ∈ toFetch ∧ T.Auth a b ∧ d = T.depthOf b := by
  unfold fetchAuthEvents
  rw [List.mem_filterMap]
  constructor
  · rintro ⟨⟨x, y⟩, hxy, h⟩
    rw [Option.ite_none_right_eq_some, Option.map_eq_some_iff] at h
    obtain ⟨hx, row, hrow, heq⟩ := h
    obtain ⟨rfl, rfl, rfl⟩ : x = a ∧ y = b ∧ row.depth = d := by simpa using heq
    refine ⟨hx, hxy, ?_⟩
    simp only [Tables.depthOf, hrow, Option.map_some, Option.getD_some]
  · rintro ⟨ha, hab, rfl⟩
    obtain ⟨row, hrow⟩ := Dict.exists_lookup (hT.persisted hab)
    refine ⟨(a, b), hab, ?_⟩
    rw [if_pos ha, hrow]
    simp only [Tables.depthOf, hrow, Option.map_some, Option.getD_some]

theorem toCache_append_singleton {row : ε × ε × ℤ} : toCache (rows ++ [row]) =
      (toCache rows).insert row.1 ((toCache rows).getD row.1 [] ++ [row.2]) := by
  simp only [toCache, foldl_append, foldl_cons, foldl_nil]

theorem mem_getD_toCache {p : ε × ℤ} : p ∈ (toCache rows).getD e [] ↔ (e, p) ∈ rows := by
  induction rows using reverseRecOn with
  | nil => simp [toCache, Dict.getD]
  | append_singleton rows row ih =>
    rw [toCache_append_singleton, mem_append, List.mem_singleton, ← ih, Dict.getD_insert, Prod.ext_iff]
    split
    next he => rw [mem_append, List.mem_singleton, he, and_iff_right rfl]
    next he => rw [or_iff_left fun h => he h.1]

variable {l : List (ε × ℤ)}

theorem mem_of_lookup_toCache (h : (toCache rows).lookup e = some l) {p : ε × ℤ} :
    p ∈ l ↔ (e, p) ∈ rows := by
  rw [← mem_getD_toCache, Dict.getD_of_lookup h]

theorem exists_row_of_mem_toCache (h : e ∈ toCache rows) : ∃ p, (e, p) ∈ rows := by
  induction rows using reverseRecOn with
  | nil => exact absurd h (AList.notMem_empty e)
  | append_singleton rows row ih =>
    rw [toCache_append_singleton, AList.mem_insert] at h
    rcases h with rfl | h
    · exact ⟨row.2, mem_append_cons_self⟩
    · obtain ⟨p, hp⟩ := ih h
      exact ⟨p, mem_append_left _ hp⟩

/-- The rows found for a chunk are the auth events of its events, cached or not. -/
theorem mem_findAuthEvents (hT : T.AuthDag) (hcache : CacheConsistent T cache) :
    (a, b, d) ∈ (findAuthEvents T evict cache chunk).1 ↔ a ∈ chunk ∧ T.Auth a b ∧ d = T.depthOf b := by
  have hcached : (a, b, d) ∈ (chunk.flatMap fun e => (cache.getD e []).map fun res => (e, res)) ↔
      a ∈ chunk ∧ (b, d) ∈ cache.getD a [] := by
    rw [mem_flatMap]
    constructor
    · rintro ⟨x, hx, hp⟩
      obtain ⟨p, hp, heq⟩ := List.mem_map.mp hp
      obtain ⟨rfl, rfl⟩ := Prod.mk.inj heq
      exact ⟨hx, hp⟩
    · rintro ⟨ha, hp⟩
      exact ⟨a, ha, mem_map_of_mem hp⟩
  refine mem_append.trans ?_
  rw [hcached, mem_fetchAuthEvents hT, mem_filter]
  cases hlook : cache.lookup a with
  | none => simp [Dict.getD, hlook]
  | some l =>
    rw [Dict.getD_of_lookup hlook, hcache a l hlook b d]
    simp

theorem cacheConsistent_empty : CacheConsistent T ∅ := by
  intro e l h
  exact nomatch h

theorem CacheConsistent.insert (hcache : CacheConsistent T cache)
    (hl : ∀ a d, (a, d) ∈ l ↔ T.Auth e a ∧ d = T.depthOf a) : CacheConsistent T (cache.insert e l) := by
  intro e' l' h
  rcases Dict.lookup_insert_cases h with ⟨rfl, rfl⟩ | ⟨_, h⟩
  · exact hl
  · exact hcache e' l' h

theorem CacheConsistent.foldl_insert (hevict : Evicts evict)
    (entries : List (Sigma fun _ : ε => List (ε × ℤ)))
    (hentries : ∀ entry ∈ entries, ∀ a d, (a, d) ∈ entry.2 ↔ T.Auth entry.1 a ∧ d = T.depthOf a)
    (hcache : CacheConsistent T cache) :
    CacheConsistent T (entries.foldl (fun c entry => evict (c.insert entry.1 entry.2)) cache) := by
  refine foldlRecOn entries _ hcache fun c hc entry hmem => ?_
  exact fun e l h => hc.insert (hentries entry hmem) e l (hevict _ e l h)

/-- What is put into the cache is consistent with the tables. -/
theorem findAuthEvents_cache (hT : T.AuthDag) (hevict : Evicts evict)
    (hcache : CacheConsistent T cache) : CacheConsistent T (findAuthEvents T evict cache chunk).2 := by
  refine CacheConsistent.foldl_insert hevict _ ?_ hcache
  rintro ⟨x, l⟩ hmem a d
  have hlook := mem_lookup_iff.mpr hmem
  obtain ⟨⟨y, dy⟩, hp⟩ := exists_row_of_mem_toCache
    (lookup_isSome.mp (Option.isSome_iff_exists.mpr ⟨l, hlook⟩))
  have hx := ((mem_fetchAuthEvents hT).mp hp).1
  exact (mem_of_lookup_toCache hlook).trans ((mem_fetchAuthEvents hT).trans (and_iff_right hx))

end

/-! ## The walk -/

/-- The queued events, the events met and the events whose auth events have been looked up. -/
structure Walk (ε : Type) where
  queue : Finset (ℤ ×ₗ ε)
  seen : Finset ε
  walked : Finset ε

namespace Walk
variable (T : Tables ε ρ τ) (stateSets : List (List ε))

/-- The events of the state sets are queued. -/
def start : Walk ε where
  queue := stateSets.flatten.toFinset.image T.searchKey
  seen := stateSets.flatten.toFinset
  walked := ∅

/-- The events taken from the queue in a round. -/
def chunk (w : Walk ε) : Finset ε := (greatest 100 w.queue).image fun q => (ofLex q).2

/-- The auth events met in a round. -/
def met (T : Tables ε ρ τ) (w : Walk ε) : Finset ε :=
  ((T.eventAuth.filter fun row => row.1 ∈ w.chunk).map Prod.snd).toFinset

def next (T : Tables ε ρ τ) (w : Walk ε) : Walk ε where
  queue := w.queue \ greatest 100 w.queue ∪ (w.met T \ w.seen).image T.searchKey
  seen := w.seen ∪ w.met T
  walked := w.walked ∪ w.chunk

/-- The auth references of the walked events. -/
def Edge (T : Tables ε ρ τ) (w : Walk ε) (a b : ε) : Prop := a ∈ w.walked ∧ T.Auth a b

/-- Every queued event has been reached from every state set. -/
def Stopped (w : Walk ε) : Prop := ∀ q ∈ w.queue, ∀ S ∈ stateSets, Reaches (w.Edge T) S (ofLex q).2

/-- Every event met that lies below a queued one has been reached from every state set. -/
def Clean (w : Walk ε) : Prop := ∀ q ∈ w.queue, ∀ v ∈ w.seen, ReflTransGen T.Auth (ofLex q).2 v →
    ∀ S ∈ stateSets, Reaches (w.Edge T) S v

/-- The walk is clean in the first round in which it stops. -/
def CleanStop : Prop := ∃ n, (∀ m < n, ¬ Stopped T stateSets ((next T)^[m] (start T stateSets))) ∧
    Stopped T stateSets ((next T)^[n] (start T stateSets)) ∧
    Clean T stateSets ((next T)^[n] (start T stateSets))

section
variable {T : Tables ε ρ τ} {stateSets : List (List ε)} {w : Walk ε} {a b x : ε}

theorem mem_met : x ∈ w.met T ↔ ∃ a ∈ w.chunk, T.Auth a x := by
  simp only [met, mem_toFinset, List.mem_map, List.mem_filter, decide_eq_true_eq]
  constructor
  · rintro ⟨⟨a, y⟩, ⟨hay, ha⟩, rfl⟩
    exact ⟨a, ha, hay⟩
  · rintro ⟨a, ha, hax⟩
    exact ⟨(a, x), ⟨hax, ha⟩, rfl⟩

/-- What holds in every round, about the graph alone. -/
structure Inv (T : Tables ε ρ τ) (stateSets : List (List ε)) (w : Walk ε) : Prop where
  key : ∀ {q}, q ∈ w.queue → q = T.searchKey (ofLex q).2
  split : ∀ {x}, x ∈ w.seen ↔ x ∈ w.walked ∨ T.searchKey x ∈ w.queue
  once : ∀ {x}, x ∈ w.walked → T.searchKey x ∉ w.queue
  persisted : ∀ {x}, x ∈ w.seen → x ∈ T.events
  initial : ∀ {S x}, S ∈ stateSets → x ∈ S → x ∈ w.seen
  closed : ∀ {a b}, a ∈ w.walked → T.Auth a b → b ∈ w.seen
  reached : ∀ {x}, x ∈ w.seen → ∃ S ∈ stateSets, Reaches (w.Edge T) S x

theorem searchKey_mem_image {S : Finset ε} : T.searchKey x ∈ S.image T.searchKey ↔ x ∈ S :=
  Function.Injective.mem_finset_image fun a b hab => by rw [← T.searchKey_snd a, hab, T.searchKey_snd]

theorem inv_start (hpers : ∀ S ∈ stateSets, ∀ x ∈ S, x ∈ T.events) :
    (start T stateSets).Inv T stateSets where
  key := by
    intro q hq
    obtain ⟨x, _, rfl⟩ := mem_image.mp hq
    rfl
  split := by
    intro x
    rw [Walk.start, or_iff_right (Finset.notMem_empty x), searchKey_mem_image]
  once := fun hx => absurd hx (Finset.notMem_empty _)
  persisted := by
    intro x hx
    obtain ⟨S, hS, hxS⟩ := mem_flatten.mp (mem_toFinset.mp hx)
    exact hpers S hS x hxS
  initial := fun hS hx => mem_toFinset.mpr (mem_flatten.mpr ⟨_, hS, hx⟩)
  closed := fun ha => absurd ha (Finset.notMem_empty _)
  reached := by
    intro x hx
    obtain ⟨S, hS, hxS⟩ := mem_flatten.mp (mem_toFinset.mp hx)
    exact ⟨S, hS, .of_mem hxS⟩

theorem Inv.chunk_seen (h : w.Inv T stateSets) (ha : a ∈ w.chunk) : a ∈ w.seen := by
  obtain ⟨q, hq, rfl⟩ := mem_image.mp ha
  have hqueue := greatest_subset hq
  rw [h.split]
  right
  rwa [← h.key hqueue]

theorem Inv.mem_chunk (h : w.Inv T stateSets) : a ∈ w.chunk ↔ T.searchKey a ∈ greatest 100 w.queue := by
  constructor
  · intro ha
    obtain ⟨q, hq, rfl⟩ := mem_image.mp ha
    rwa [← h.key (greatest_subset hq)]
  · exact fun ha => mem_image.mpr ⟨_, ha, rfl⟩

theorem Inv.next (hT : T.AuthDag) (h : w.Inv T stateSets) : (w.next T).Inv T stateSets where
  key := by
    intro q hq
    rcases mem_union.mp hq with hq | hq
    · exact h.key (mem_sdiff.mp hq).1
    · obtain ⟨x, _, rfl⟩ := mem_image.mp hq
      rfl
  split := by
    intro x
    rw [Walk.next, Finset.mem_union, Finset.mem_union, Finset.mem_union, searchKey_mem_image, mem_sdiff,
      mem_sdiff, h.mem_chunk, h.split]
    have hsub : T.searchKey x ∈ greatest 100 w.queue → T.searchKey x ∈ w.queue :=
      fun hx => greatest_subset hx
    tauto
  once := by
    intro x hx hq
    have hseen : x ∈ w.seen := by
      rcases mem_union.mp hx with hx | hx
      · exact h.split.mpr (.inl hx)
      · exact h.chunk_seen hx
    rcases mem_union.mp hq with hq | hq
    · rcases mem_union.mp hx with hx | hx
      · exact h.once hx (mem_sdiff.mp hq).1
      · exact (mem_sdiff.mp hq).2 (h.mem_chunk.mp hx)
    · exact (mem_sdiff.mp (searchKey_mem_image.mp hq)).2 hseen
  persisted := by
    intro x hx
    rcases mem_union.mp hx with hx | hx
    · exact h.persisted hx
    · obtain ⟨a, _, hax⟩ := mem_met.mp hx
      exact hT.persisted hax
  initial := fun hS hx => mem_union_left _ (h.initial hS hx)
  closed := by
    intro a b ha hab
    rcases mem_union.mp ha with ha | ha
    · exact mem_union_left _ (h.closed ha hab)
    · exact mem_union_right _ (mem_met.mpr ⟨a, ha, hab⟩)
  reached := by
    intro x hx
    have hmono : ∀ {S y}, Reaches (w.Edge T) S y → Reaches ((w.next T).Edge T) S y :=
      fun hy => hy.mono fun _ _ hab => ⟨mem_union_left _ hab.1, hab.2⟩
    rcases mem_union.mp hx with hx | hx
    · obtain ⟨S, hS, hSx⟩ := h.reached hx
      exact ⟨S, hS, hmono hSx⟩
    · obtain ⟨a, ha, hax⟩ := mem_met.mp hx
      obtain ⟨S, hS, hSa⟩ := h.reached (h.chunk_seen ha)
      exact ⟨S, hS, (hmono hSa).trans (.single ⟨mem_union_right _ ha, hax⟩)⟩

variable (h : w.Inv T stateSets)
include h

/-- A round with a queue walks at least one more event. -/
theorem Inv.card_walked_lt (hq : w.queue.Nonempty) : w.walked.card < (w.next T).walked.card := by
  obtain ⟨q, hq⟩ := nonempty_greatest hq (show 0 < 100 by omega)
  have hchunk : (ofLex q).2 ∈ w.chunk := mem_image_of_mem _ hq
  apply card_lt_card
  refine ⟨subset_union_left, fun hsub => ?_⟩
  have hwalked := hsub (mem_union_right w.walked hchunk)
  exact h.once hwalked (greatest_subset (h.mem_chunk.mp hchunk))

theorem Inv.card_walked_le : w.walked.card ≤ T.events.keys.length := by
  refine le_trans (card_le_card fun x hx => ?_) (toFinset_card_le T.events.keys)
  exact mem_toFinset.mpr (h.persisted (h.split.mpr (.inl hx)))

theorem Inv.seen_of_reaches {S : List ε} (hS : S ∈ stateSets) (hx : Reaches (w.Edge T) S x) :
    x ∈ w.seen := by
  obtain ⟨s, hs, hsx⟩ := hx
  cases hsx with
  | refl => exact h.initial hS hs
  | tail _ hbx => exact h.closed hbx.1 hbx.2

/-- A state set reaches an event through walked events, or through a queued one. -/
theorem Inv.reaches_cases {S : List ε} (hS : S ∈ stateSets) (hx : Reaches T.Auth S x) :
    Reaches (w.Edge T) S x ∨ ∃ q ∈ w.queue, ReflTransGen T.Auth (ofLex q).2 x := by
  obtain ⟨s, hs, hsx⟩ := hx
  induction hsx with
  | refl => exact .inl (.of_mem hs)
  | @tail b c _ hbc ih =>
    rcases ih with ih | ⟨q, hq, hqb⟩
    · rcases h.split.mp (h.seen_of_reaches hS ih) with hb | hb
      · exact .inl (ih.trans (.single ⟨hb, hbc⟩))
      · exact .inr ⟨_, hb, .single hbc⟩
    · exact .inr ⟨q, hq, hqb.tail hbc⟩

/-- **Stopping.**  When the walk stops, the events met that some set has not been seen to reach are
the auth chain difference exactly if the walk is clean. -/
theorem Inv.difference_iff_clean (hstop : Stopped T stateSets w) :
    (∀ x, (x ∈ w.seen ∧ ∃ S ∈ stateSets, ¬ Reaches (w.Edge T) S x) ↔
        T.AuthChainDifference stateSets x) ↔ Clean T stateSets w := by
  have hauth : ∀ {S x}, Reaches (w.Edge T) S x → Reaches T.Auth S x :=
    fun hx => hx.mono fun _ _ hab => hab.2
  have hbelow : ∀ {q x}, q ∈ w.queue → ReflTransGen T.Auth (ofLex q).2 x →
      ∀ S ∈ stateSets, Reaches T.Auth S x :=
    fun hq hx S hS => (hauth (hstop _ hq S hS)).trans hx
  constructor
  · intro hdiff q hq v hv hqv S hS
    by_contra hSv
    obtain ⟨_, S', hS', hS'v⟩ := (hdiff v).mp ⟨hv, S, hS, hSv⟩
    exact hS'v (hbelow hq hqv S' hS')
  · intro hclean x
    constructor
    · rintro ⟨hx, S, hS, hSx⟩
      obtain ⟨S', hS', hS'x⟩ := h.reached hx
      refine ⟨⟨S', hS', hauth hS'x⟩, S, hS, fun hr => ?_⟩
      rcases h.reaches_cases hS hr with hr | ⟨q, hq, hqx⟩
      · exact hSx hr
      · exact hSx (hclean q hq x hx hqx S hS)
    · rintro ⟨⟨S, hS, hSx⟩, S', hS', hS'x⟩
      refine ⟨?_, S', hS', fun hr => hS'x (hauth hr)⟩
      rcases h.reaches_cases hS hSx with hr | ⟨q, hq, hqx⟩
      · exact h.seen_of_reaches hS hr
      · exact absurd (hbelow hq hqx S' hS') hS'x

end
end Walk

/-! ## The code follows the walk -/

section
variable {T : Tables ε ρ τ} {stateSets : List (List ε)} {st : AuthWalk ε} {w : Walk ε}
  {evict : Eviction ε} {cache : EventAuthCache ε}

/-- No event is queued twice, and queued events have been met. -/
structure AuthWalk.Queued (st : AuthWalk ε) : Prop where
  nodup : st.search.Nodup
  seen : ∀ {q}, q ∈ st.search → (ofLex q).2 ∈ st.eventToMissingSets

/-- The rows of a round: they add their edges, meet their auth events and queue the new ones. -/
theorem foldlM_recordAuthEvent_spec (hT : T.AuthDag) {fuel : ℕ}
    (hfuel : T.events.keys.length ≤ fuel) (found : List (ε × ε × ℤ)) (h : st.Exact T stateSets)
    (hq : st.Queued) (hfound : ∀ {a b d}, (a, b, d) ∈ found →
      T.Auth a b ∧ d = T.depthOf b ∧ a ∈ st.eventToMissingSets) :
    ∃ st', found.foldlM (recordAuthEvent fuel stateSets.length) st = some st' ∧
      st'.Exact T stateSets ∧ st'.Queued ∧
      (∀ {a b}, st'.Edge a b ↔ st.Edge a b ∨ ∃ d, (a, b, d) ∈ found) ∧
      (∀ {x}, x ∈ st'.eventToMissingSets ↔ x ∈ st.eventToMissingSets ∨ ∃ a d, (a, x, d) ∈ found) ∧
      ∀ {q}, q ∈ st'.search ↔ q ∈ st.search ∨
        ∃ x, q = T.searchKey x ∧ x ∉ st.eventToMissingSets ∧ ∃ a d, (a, x, d) ∈ found := by
  induction found generalizing st with
  | nil => exact ⟨st, rfl, h, hq, by simp, by simp, by simp⟩
  | cons row found ih =>
    obtain ⟨u, v, d⟩ := row
    obtain ⟨huv, rfl, hu⟩ := hfound mem_cons_self
    obtain ⟨st₁, h₁, hexact₁, hedge₁, hseen₁, hsearch₁⟩ :=
      recordAuthEvent_spec hT hfuel h hu huv (T.depthOf v)
    -- only an auth event that is met for the first time is queued
    have hmem₁ : ∀ {q}, q ∈ st₁.search ↔
        q ∈ st.search ∨ q = T.searchKey v ∧ v ∉ st.eventToMissingSets := by
      intro q
      rw [hsearch₁]
      split
      next hv => simp [hv]
      next hv =>
        rw [mem_append, List.mem_singleton]
        simp only [hv, not_false_eq_true, and_true]
        exact Iff.rfl
    have hq₁ : st₁.Queued := by
      refine ⟨?_, fun {q} hmem => ?_⟩
      · rw [hsearch₁]
        split
        · exact hq.nodup
        next hv =>
          refine Nodup.append hq.nodup (nodup_singleton _) ?_
          rw [List.disjoint_singleton]
          exact fun hmem => hv (hq.seen hmem)
      · rw [hseen₁]
        rcases hmem₁.mp hmem with hmem | ⟨rfl, _⟩
        · exact .inl (hq.seen hmem)
        · exact .inr rfl
    obtain ⟨st', h', hexact', hq', hedge', hseen', hmem'⟩ := ih hexact₁ hq₁ fun hrow => by
      obtain ⟨hab, hd, ha⟩ := hfound (mem_cons_of_mem _ hrow)
      exact ⟨hab, hd, hseen₁.mpr (.inl ha)⟩
    refine ⟨st', ?_, hexact', hq', ?_, ?_, ?_⟩
    · rw [foldlM_cons, h₁]
      exact h'
    · intro a b
      rw [hedge', hedge₁, AddEdge]
      simp only [List.mem_cons, Prod.mk.injEq, exists_or, or_assoc]
      refine or_congr_right (or_congr_left ⟨?_, ?_⟩)
      · rintro ⟨rfl, rfl⟩
        exact ⟨_, rfl, rfl, rfl⟩
      · rintro ⟨_, rfl, rfl, _⟩
        exact ⟨rfl, rfl⟩
    · intro x
      rw [hseen', hseen₁]
      simp only [List.mem_cons, Prod.mk.injEq, exists_or, or_assoc]
      refine or_congr_right (or_congr_left ⟨?_, ?_⟩)
      · rintro rfl
        exact ⟨_, _, rfl, rfl, rfl⟩
      · rintro ⟨_, _, _, rfl, _⟩
        rfl
    · intro q
      rw [hmem', hmem₁]
      constructor
      · rintro ((hmem | ⟨rfl, hv⟩) | ⟨x, rfl, hx, a, d, hrow⟩)
        · exact .inl hmem
        · exact .inr ⟨v, rfl, hv, u, _, mem_cons_self⟩
        · exact .inr ⟨x, rfl, fun hs => hx (hseen₁.mpr (.inl hs)), a, d, mem_cons_of_mem _ hrow⟩
      · rintro (hmem | ⟨x, rfl, hx, a, d, hrow⟩)
        · exact .inl (.inl hmem)
        · by_cases hxv : x = v
          · subst hxv
            exact .inl (.inr ⟨rfl, hx⟩)
          · refine .inr ⟨x, rfl, fun hs => ?_, a, d, ?_⟩
            · rcases hseen₁.mp hs with hs | hs
              · exact hx hs
              · exact hxv hs
            · rcases mem_cons.mp hrow with heq | hrow
              · exact absurd (congrArg (fun r => r.2.1) heq) hxv
              · exact hrow

/-- The variables of the code at the start of a round. -/
structure Tracks (T : Tables ε ρ τ) (stateSets : List (List ε)) (w : Walk ε) (st : AuthWalk ε) :
    Prop where
  exact : st.Exact T stateSets
  sorted : st.search.Pairwise (· < ·)
  search : st.search.toFinset = w.queue
  seen : ∀ {x}, x ∈ st.eventToMissingSets ↔ x ∈ w.seen
  edge : ∀ {a b}, st.Edge a b ↔ w.Edge T a b

theorem Tracks.edge_eq (h : Tracks T stateSets w st) : st.Edge = w.Edge T := by
  funext a b
  exact propext h.edge

variable {x : ε}

/-- An event has no missing sets if every state set reaches it through walked events. -/
theorem Tracks.missing_eq_empty (h : Tracks T stateSets w st) {s : Finset ℕ}
    (hs : st.eventToMissingSets.lookup x = some s) : s = ∅ ↔ ∀ S ∈ stateSets, Reaches (w.Edge T) S x := by
  rw [eq_empty_iff_forall_notMem, ← h.edge_eq]
  constructor
  · intro hempty S hS
    obtain ⟨i, hi⟩ := mem_iff_getElem?.mp hS
    by_contra hr
    exact hempty i ((h.exact.missing x s hs i).mpr ⟨S, hi, hr⟩)
  · intro hall i hi
    obtain ⟨S, hS, hr⟩ := (h.exact.missing x s hs i).mp hi
    exact hr (hall S (mem_of_getElem? hS))

theorem Tracks.allReachable (h : Tracks T stateSets w st) (search : List (ℤ ×ₗ ε))
    (hsearch : ∀ q ∈ search, (ofLex q).2 ∈ st.eventToMissingSets) :
    ∃ ok, Storage.allReachable st.eventToMissingSets search = some ok ∧
      (ok = true ↔ ∀ q ∈ search, ∀ S ∈ stateSets, Reaches (w.Edge T) S (ofLex q).2) := by
  induction search with
  | nil => exact ⟨true, rfl, by simp⟩
  | cons q search ih =>
    obtain ⟨s, hs⟩ := Dict.exists_lookup (hsearch q mem_cons_self)
    have hq := h.missing_eq_empty hs
    simp only [Storage.allReachable, hs, Option.bind_eq_bind, Option.bind_some]
    split
    next hempty =>
      obtain ⟨ok, hok, hiff⟩ := ih fun q' hq' => hsearch q' (mem_cons_of_mem _ hq')
      refine ⟨ok, hok, ?_⟩
      rw [hiff, List.forall_mem_cons, and_iff_right (hq.mp hempty)]
    next hne =>
      refine ⟨false, rfl, ?_⟩
      rw [List.forall_mem_cons, ← hq]
      simp [hne]

theorem mem_take_iff_of_nodup {α : Type} {l : List α} (hl : l.Nodup) {k : ℕ} {q : α} :
    q ∈ l.take k ↔ q ∈ l ∧ q ∉ l.drop k := by
  rw [← take_append_drop k l, nodup_append] at hl
  constructor
  · exact fun hq => ⟨mem_of_mem_take hq, fun hd => hl.2.2 q hq q hd rfl⟩
  · rintro ⟨hq, hd⟩
    rw [← take_append_drop k l, mem_append] at hq
    exact hq.resolve_right hd

variable {q : ℤ ×ₗ ε} {initialEvents : List ε}

theorem mem_fetchDepths (hpers : ∀ x ∈ initialEvents, x ∈ T.events) :
    q ∈ fetchDepths T initialEvents ↔ ∃ x ∈ initialEvents, T.searchKey x = q := by
  unfold fetchDepths
  rw [List.mem_filterMap]
  constructor
  · rintro ⟨⟨x, row⟩, hmem, h⟩
    obtain ⟨hx, h⟩ := Option.ite_none_right_eq_some.mp h
    have hlook : T.events.lookup x = some row := mem_lookup_iff.mpr hmem
    refine ⟨x, hx, ?_⟩
    rw [← Option.some.inj h, Tables.searchKey, Tables.depthOf, hlook]
    rfl
  · rintro ⟨x, hx, rfl⟩
    obtain ⟨row, hrow⟩ := Dict.exists_lookup (hpers x hx)
    refine ⟨⟨x, row⟩, mem_lookup_iff.mp hrow, ?_⟩
    rw [if_pos hx, Tables.searchKey, Tables.depthOf, hrow]
    rfl

theorem nodup_fetchDepths : (fetchDepths T initialEvents).Nodup := by
  have hmap : (fetchDepths T initialEvents).map (fun q => (ofLex q).2)
      = T.events.keys.filter (· ∈ initialEvents) := by
    unfold fetchDepths AList.keys
    induction T.events.entries with
    | nil => rfl
    | cons row entries ih =>
      by_cases hrow : row.1 ∈ initialEvents
      · simpa [hrow, List.keys] using ih
      · simpa [hrow, List.keys] using ih
  refine Nodup.of_map (fun q => (ofLex q).2) ?_
  rw [hmap]
  exact T.events.keys_nodup.filter _

theorem mem_missingFrom {i : ℕ} :
    i ∈ missingFrom stateSets x ↔ ∃ S, stateSets[i]? = some S ∧ x ∉ S := by
  rw [missingFrom, Finset.mem_filter, Finset.mem_range, getD_eq_getElem?_getD]
  constructor
  · rintro ⟨hi, hx⟩
    rw [getElem?_eq_getElem hi] at hx ⊢
    exact ⟨_, rfl, hx⟩
  · rintro ⟨S, hS, hx⟩
    rw [hS]
    exact ⟨(List.getElem?_eq_some_iff.mp hS).1, hx⟩

theorem tracks_start (hpers : ∀ S ∈ stateSets, ∀ x ∈ S, x ∈ T.events) :
    Tracks T stateSets (Walk.start T stateSets) (startWalk T stateSets) := by
  have hinitial : ∀ {x}, x ∈ stateSets.flatten.dedup ↔ ∃ S ∈ stateSets, x ∈ S := by
    intro x
    rw [mem_dedup, mem_flatten]
  have hpers' : ∀ x ∈ stateSets.flatten.dedup, x ∈ T.events := by
    intro x hx
    obtain ⟨S, hS, hxS⟩ := hinitial.mp hx
    exact hpers S hS x hxS
  have hseen : ∀ {x}, x ∈ (startWalk T stateSets).eventToMissingSets ↔ x ∈ stateSets.flatten.dedup :=
    Dict.mem_ofKeys
  have hedge : ∀ {a b}, ¬ (startWalk T stateSets).Edge a b := fun h => not_mem_nil h
  have hreach : ∀ {S x}, Reaches (startWalk T stateSets).Edge S x ↔ x ∈ S := by
    refine fun {S x} => ⟨?_, .of_mem⟩
    rintro ⟨s, hs, hsx⟩
    cases hsx with
    | refl => exact hs
    | tail _ hbx => exact absurd hbx hedge
  refine ⟨⟨fun h => absurd h hedge, fun h => absurd h hedge, fun h => absurd h hedge, ?_, ?_⟩,
    pairwise_lt_insertionSort nodup_fetchDepths, ?_, ?_, ?_⟩
  · exact fun hS hx => hseen.mpr (hinitial.mpr ⟨_, hS, hx⟩)
  · intro x s hs i
    rw [← (Dict.lookup_ofKeys_eq_some.mp hs).2, mem_missingFrom]
    simp only [hreach]
  · ext q
    rw [mem_toFinset, startWalk, mem_insertionSort, mem_fetchDepths hpers', Walk.start, mem_image]
    simp only [mem_dedup, mem_toFinset]
  · intro x
    rw [hseen, mem_dedup]
    exact mem_toFinset.symm
  · exact fun {a b} => ⟨fun h => absurd h hedge, fun h => absurd h.1 (Finset.notMem_empty a)⟩

section
variable (h : Tracks T stateSets w st)
include h

theorem Tracks.mem_search : q ∈ st.search ↔ q ∈ w.queue := by
  rw [← h.search, mem_toFinset]

theorem Tracks.queue_seen (hw : w.Inv T stateSets) (hq : q ∈ w.queue) :
    (ofLex q).2 ∈ st.eventToMissingSets := by
  rw [h.seen, hw.split, ← hw.key hq]
  exact .inr hq

theorem Tracks.mem_chunk {a : ε} : a ∈ st.chunk ↔ a ∈ w.chunk := by
  simp only [AuthWalk.chunk, Walk.chunk, List.mem_map, mem_drop_iff_mem_greatest h.sorted, h.search,
    mem_image]

theorem Tracks.mem_rest : q ∈ st.rest.search ↔ q ∈ w.queue \ greatest 100 w.queue := by
  rw [AuthWalk.rest, mem_take_iff_of_nodup (h.sorted.imp fun hlt => hlt.ne),
    mem_drop_iff_mem_greatest h.sorted, mem_sdiff, h.search, h.mem_search]

/-- The auth events found in a turn are those met in the round. -/
theorem Tracks.exists_found_iff (hT : T.AuthDag) (hcache : CacheConsistent T cache) :
    (∃ a d, (a, x, d) ∈ (findAuthEvents T evict cache st.chunk).1) ↔ x ∈ w.met T := by
  simp only [mem_findAuthEvents hT hcache, h.mem_chunk, Walk.mem_met]
  constructor
  · rintro ⟨a, _, ha, hax, _⟩
    exact ⟨a, ha, hax⟩
  · rintro ⟨a, ha, hax⟩
    exact ⟨a, _, ha, hax, rfl⟩

end

variable (evict) in
/-- One turn of the `while` loop is one round of the walk. -/
theorem tracks_round (hT : T.AuthDag) {fuel : ℕ} (hfuel : T.events.keys.length ≤ fuel)
    (hcache : CacheConsistent T cache) (hw : w.Inv T stateSets) (h : Tracks T stateSets w st) :
    ∃ st', (findAuthEvents T evict cache st.chunk).1.foldlM
        (recordAuthEvent fuel stateSets.length) st.rest = some st' ∧
      Tracks T stateSets (w.next T) { st' with search := st'.search.insertionSort (· ≤ ·) } := by
  have hexact : st.rest.Exact T stateSets :=
    ⟨h.exact.auth, h.exact.origin, h.exact.target, h.exact.initial, h.exact.missing⟩
  have hqueued : st.rest.Queued := by
    refine ⟨(h.sorted.imp fun hlt => hlt.ne).sublist (take_sublist _ _), fun {q} hq => ?_⟩
    exact h.queue_seen hw (mem_sdiff.mp (h.mem_rest.mp hq)).1
  obtain ⟨st', hrun, hexact', hq', hedge', hseen', hmem'⟩ :=
    foldlM_recordAuthEvent_spec hT hfuel (findAuthEvents T evict cache st.chunk).1 hexact hqueued
      fun hrow => by
        obtain ⟨ha, hab, hd⟩ := (mem_findAuthEvents hT hcache).mp hrow
        exact ⟨hab, hd, h.seen.mpr (hw.chunk_seen (h.mem_chunk.mp ha))⟩
  refine ⟨st', hrun, ⟨hexact'.auth, hexact'.origin, hexact'.target, hexact'.initial,
    hexact'.missing⟩, pairwise_lt_insertionSort hq'.nodup, ?_, ?_, ?_⟩
  · ext q
    rw [mem_toFinset, mem_insertionSort, hmem', Walk.next, Finset.mem_union, h.mem_rest, mem_image]
    refine or_congr_right (exists_congr fun x => ?_)
    rw [h.exists_found_iff hT hcache, mem_sdiff, ← h.seen]
    exact ⟨fun ⟨h₁, h₂, h₃⟩ => ⟨⟨h₃, h₂⟩, h₁.symm⟩, fun ⟨⟨h₃, h₂⟩, h₁⟩ => ⟨h₁.symm, h₂, h₃⟩⟩
  · intro x
    show x ∈ st'.eventToMissingSets ↔ x ∈ _ ∪ _
    rw [hseen', h.exists_found_iff hT hcache, Finset.mem_union]
    exact or_congr_left h.seen
  · intro a b
    show st'.Edge a b ↔ a ∈ _ ∪ _ ∧ T.Auth a b
    rw [hedge', Finset.mem_union, or_and_right]
    refine or_congr h.edge ?_
    simp only [mem_findAuthEvents hT hcache, h.mem_chunk]
    constructor
    · rintro ⟨_, ha, hab, _⟩
      exact ⟨ha, hab⟩
    · rintro ⟨ha, hab⟩
      exact ⟨_, ha, hab, rfl⟩

/-- The loop ends, at the first round in which the walk stops. -/
theorem searchLoop_spec (hT : T.AuthDag) (hevict : Evicts evict) {markFuel : ℕ}
    (hmark : T.events.keys.length ≤ markFuel) :
    ∀ (fuel : ℕ) (w : Walk ε) (st : AuthWalk ε) (cache : EventAuthCache ε),
      CacheConsistent T cache → w.Inv T stateSets → Tracks T stateSets w st →
      T.events.keys.length - w.walked.card < fuel → ∃ n st' cache',
        searchLoop T evict markFuel stateSets.length fuel st cache = some (st', cache') ∧
        CacheConsistent T cache' ∧ ((Walk.next T)^[n] w).Inv T stateSets ∧
        Tracks T stateSets ((Walk.next T)^[n] w) st' ∧
        (∀ m < n, ¬ Walk.Stopped T stateSets ((Walk.next T)^[m] w)) ∧
        Walk.Stopped T stateSets ((Walk.next T)^[n] w)
  | 0, _, _, _, _, _, _, hfuel => nomatch hfuel
  | fuel + 1, w, st, cache, hcache, hw, h, hfuel => by
    by_cases hnil : st.search = []
    · refine ⟨0, st, cache, ?_, hcache, hw, h, fun m hm => absurd hm (Nat.not_lt_zero m), ?_⟩
      · rw [searchLoop, if_pos hnil]
      · intro q hq
        rw [Function.iterate_zero, id, ← h.mem_search, hnil] at hq
        exact nomatch hq
    · obtain ⟨ok, hok, hiff⟩ := h.allReachable st.search fun q hq =>
        h.queue_seen hw (h.mem_search.mp hq)
      have hstop : ok = true ↔ Walk.Stopped T stateSets w := by
        rw [hiff]
        exact forall_congr' fun q => by rw [h.mem_search]
      cases ok with
      | true =>
        refine ⟨0, st, cache, ?_, hcache, hw, h, fun m hm => absurd hm (Nat.not_lt_zero m), hstop.mp rfl⟩
        rw [searchLoop, if_neg hnil, hok]
        rfl
      | false =>
        obtain ⟨st₁, hrun₁, h₁⟩ := tracks_round evict hT hmark hcache hw h
        have hnonempty : w.queue.Nonempty := by
          obtain ⟨q, hq⟩ := exists_mem_of_ne_nil _ hnil
          exact ⟨q, h.mem_search.mp hq⟩
        have hcache₁ : CacheConsistent T (findAuthEvents T evict cache st.chunk).2 :=
          findAuthEvents_cache hT hevict hcache
        -- each round walks a new event, so the fuel suffices
        have hlt := hw.card_walked_lt hnonempty
        have hle := (hw.next hT).card_walked_le
        obtain ⟨n, st', cache', hrun, hcache', hw', h', hbefore, hstop'⟩ :=
          searchLoop_spec hT hevict hmark fuel (w.next T) _ _ hcache₁ (hw.next hT) h₁ (by omega)
        refine ⟨n + 1, st', cache', ?_, hcache', hw', h', ?_, hstop'⟩
        · rw [searchLoop, if_neg hnil, hok]
          simp only [Option.bind_eq_bind, Option.bind_some, Bool.false_eq_true, if_false]
          rw [hrun₁]
          exact hrun
        · intro m hm
          cases m with
          | zero => exact fun hs => absurd (hstop.mpr hs) (by simp)
          | succ m => exact hbefore m (by omega)

/-- **The breadth first auth chain difference.**  For every auth graph whose events are all
persisted, with any depths, any consistent cache and any state sets, the function returns, and what
it returns is the auth chain difference if and only if the walk is clean where it stops. -/
theorem getAuthChainDifferenceTxn_eq_difference_iff (hT : T.AuthDag) (hevict : Evicts evict)
    (hcache : CacheConsistent T cache) (hsets : stateSets ≠ [])
    (hpers : ∀ S ∈ stateSets, ∀ x ∈ S, x ∈ T.events) {fuel : ℕ} (hfuel : T.events.keys.length < fuel) :
    ∃ result cache', getAuthChainDifferenceTxn T evict fuel cache stateSets = some (result, cache') ∧
      ((∀ x, x ∈ result ↔ T.AuthChainDifference stateSets x) ↔ Walk.CleanStop T stateSets) := by
  obtain ⟨n, st, cache', hrun, _, hw, h, hbefore, hstop⟩ :=
    searchLoop_spec hT hevict hfuel.le fuel _ _ cache hcache (Walk.inv_start hpers)
      (tracks_start hpers) (by omega)
  let result := (st.eventToMissingSets.entries.filter fun entry => entry.2 ≠ ∅).map (·.1)
  refine ⟨result, cache', ?_, ?_⟩
  · cases stateSets with
    | nil => exact absurd rfl hsets
    | cons S sets =>
      rw [getAuthChainDifferenceTxn, hrun]
      rfl
  · have hresult : ∀ x, x ∈ result ↔ x ∈ ((Walk.next T)^[n] (Walk.start T stateSets)).seen ∧
        ∃ S ∈ stateSets, ¬ Reaches (((Walk.next T)^[n] (Walk.start T stateSets)).Edge T) S x := by
      intro x
      simp only [result, List.mem_map, List.mem_filter, ne_eq, decide_eq_true_eq]
      constructor
      · rintro ⟨⟨y, s⟩, ⟨hmem, hne⟩, rfl⟩
        have hs : st.eventToMissingSets.lookup y = some s := mem_lookup_iff.mpr hmem
        rw [h.missing_eq_empty hs] at hne
        push Not at hne
        exact ⟨h.seen.mp (Dict.mem_of_lookup hs), hne⟩
      · rintro ⟨hx, S, hS, hr⟩
        obtain ⟨s, hs⟩ := Dict.exists_lookup (h.seen.mpr hx)
        refine ⟨⟨x, s⟩, ⟨mem_lookup_iff.mp hs, ?_⟩, rfl⟩
        rw [h.missing_eq_empty hs]
        exact fun hall => hr (hall S hS)
    simp only [hresult]
    rw [hw.difference_iff_clean hstop]
    constructor
    · exact fun hclean => ⟨n, hbefore, hstop, hclean⟩
    · rintro ⟨n', hbefore', hstop', hclean⟩
      -- the round in which the walk first stops is determined
      have hn : n' = n := by
        rcases Nat.lt_trichotomy n' n with hlt | heq | hgt
        · exact absurd hstop' (hbefore n' hlt)
        · exact heq
        · exact absurd hstop (hbefore' n hgt)
      exact hn ▸ hclean

end

/-! ## An early exit that changes the answer -/

/-- Two state events `0` and `1`.  Event `0` cites `5` directly; both also lead to `5` through `4`,
by way of `2` and `3`.  Every event is deeper than the events it cites. -/
def crossing : Tables ℕ Unit Unit where
  events := Dict.ofKeys [0, 1, 2, 3, 4, 5] fun e => ⟨(), some (), [4, 4, 3, 3, 2, 1].getD e 0⟩
  eventAuth := [(0, 5), (0, 2), (2, 4), (1, 3), (3, 4), (4, 5)]
  eventAuthChains := ∅
  eventAuthChainLinks := []
  eventAuthChainToCalculate := ∅

theorem crossing_authDag : crossing.AuthDag where
  acyclic := by
    have hlt : ∀ row ∈ crossing.eventAuth, row.1 < row.2 := by decide
    exact .of_lt fun a b hab => hlt (a, b) hab
  persisted := by
    have hmem : ∀ row ∈ crossing.eventAuth, row.2 ∈ crossing.events := by decide
    exact fun {a b} hab => hmem (a, b) hab

/-- From `{0}` and `{1}`, the second round leaves only `4` in the queue, reached from both sets, and
the search ends.  Event `5` was walked in the first round, reached from `{0}` alone; it is returned,
although `1 → 3 → 4 → 5` puts it into the auth chain of `1` too. -/
theorem getAuthChainDifferenceTxn_crossing :
    crossing.AuthDag ∧ (∀ row ∈ crossing.eventAuth, crossing.depthOf row.2 < crossing.depthOf row.1) ∧
    ∃ result cache', getAuthChainDifferenceTxn crossing id 7 ∅ [[0], [1]] = some (result, cache') ∧
        5 ∈ result ∧ ¬ crossing.AuthChainDifference [[0], [1]] 5 := by
  refine ⟨crossing_authDag, by decide, ?_⟩
  have hrun : (getAuthChainDifferenceTxn crossing id 7 ∅ [[0], [1]]).map Prod.fst
      = some [3, 2, 5, 0, 1] := by decide
  obtain ⟨⟨result, cache'⟩, hsome, rfl⟩ := Option.map_eq_some_iff.mp hrun
  refine ⟨_, cache', hsome, by decide, ?_⟩
  have hzero : Reaches crossing.Auth [0] 5 := ⟨0, by decide, .single (by decide)⟩
  have hone : Reaches crossing.Auth [1] 5 :=
    ⟨1, by decide, .head (b := 3) (by decide) (.head (b := 4) (by decide) (.single (by decide)))⟩
  rintro ⟨_, S, hS, hr⟩
  rcases mem_pair.mp hS with rfl | rfl
  · exact hr hzero
  · exact hr hone

theorem getAuthChainDifferenceTxn_eq_difference_iff_crossing :
    ∃ result cache', getAuthChainDifferenceTxn crossing id 7 ∅ [[0], [1]] = some (result, cache') ∧
      ((∀ x, x ∈ result ↔ crossing.AuthChainDifference [[0], [1]] x) ↔
        Walk.CleanStop crossing [[0], [1]]) :=
  getAuthChainDifferenceTxn_eq_difference_iff crossing_authDag (fun _ _ _ => id)
    cacheConsistent_empty (by decide) (by decide) (by decide)

end Synapse.Storage
