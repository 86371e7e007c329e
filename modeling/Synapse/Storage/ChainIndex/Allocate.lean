import Mathlib.Data.List.MinMax
import Mathlib.Data.Sum.Order
import Synapse.Storage.ChainIndex.LinkMap
import Synapse.Util.IterUtils

/-!
# Allocating chain IDs

`_allocate_chain_ids` gives every new event a place: after the first of its auth events that has the
same type and state key, if that auth event is the last of its chain, and otherwise at the start of a
new chain.  New chains get their IDs only at the end, in one call; until then a chain is named by a
temporary object.

The loop is followed on names: an event sits at a *named place*, in an existing chain or in a temporary
one.  What holds of the places of a chain cover (`Placement`) holds of the named places after every
turn, and the final IDs tell the names apart.
-/

namespace Synapse.Storage

open Synapse.Util Relation List AList
open Option (bind_eq_bind bind_some map_eq_some_iff some.inj)
open Prod (fst mk)

variable {ε ρ τ : Type} [LinearOrder ε]

/-! ## The code -/

/-- An existing chain ID, or the temporary object made for the `n`-th new chain. -/
abbrev ChainName := ℕ ⊕ ℕ

/-- The auth event whose chain an event may continue: the first with its type and state key. -/
def chainParent [DecidableEq τ] (eventToTypes : Dict ε τ) (eventToAuthChain : Dict ε (List ε))
    (eventId : ε) : Option ε :=
  (eventToAuthChain.getD eventId []).find? fun authId =>
    eventToTypes.lookup eventId = eventToTypes.lookup authId

variable (chainMap : Dict ε ChainPos)

/-- `existing_chains`: the chains of those auth events, as far as they have been indexed. -/
def existingChains (tree : List (ε × Option ε)) : List ℕ :=
  (tree.filterMap fun node => (node.2.bind fun authId => chainMap.lookup authId).map fst).dedup

/-- `SELECT chain_id, MAX(sequence_number) … GROUP BY chain_id`, for one chain. -/
def maxSequenceNumber (T : Tables ε ρ τ) (chainId : ℕ) : Option ℕ :=
  ((T.eventAuthChains.entries.filter fun row => row.2.1 = chainId).map fun row => row.2.2).max?

/-- `chain_to_max_seq_no` before the loop. -/
def maxSeqNos (T : Tables ε ρ τ) (chains : List ℕ) : Dict ChainName ℕ :=
  chains.foldr (fun c d => match maxSequenceNumber T c with
    | some m => d.insert (.inl c) m
    | none => d) ∅

/-- The variables of the allocation loop; `objects` is how many temporary objects have been made. -/
structure Allocation (ε : Type) where
  newChainTuples : Dict ε (ChainName × ℕ)
  chainToMaxSeqNo : Dict ChainName ℕ
  objects : ℕ

variable (st : Allocation ε)

/-- `new_chain_tuples.get(auth_event_id)`, or else `chain_map[auth_event_id]`. -/
def Allocation.existingPlace (authId : ε) : Option (ChainName × ℕ) :=
  match st.newChainTuples.lookup authId with
  | some place => some place
  | none => (chainMap.lookup authId).map fun pos => (.inl pos.1, pos.2)

/-- Put an event at a named place. -/
def Allocation.put (eventId : ε) (name : ChainName) (seqNo : ℕ) : Allocation ε :=
  { st with
    newChainTuples := st.newChainTuples.insert eventId (name, seqNo)
    chainToMaxSeqNo := st.chainToMaxSeqNo.insert name seqNo }

/-- Put an event at the start of a new chain. -/
def Allocation.putNew (eventId : ε) : Allocation ε :=
  { st.put eventId (.inr st.objects) 1 with objects := st.objects + 1 }

/-- The body of the allocation loop; `none` is a `KeyError`. -/
def allocateEvent (node : ε × Option ε) : Option (Allocation ε) :=
  match node.2 with
  | none => some (st.putNew node.1)
  | some authId => do
    let existing ← st.existingPlace chainMap authId
    let maxSeqNo ← st.chainToMaxSeqNo.lookup existing.1
    return if maxSeqNo < existing.2 + 1 then st.put node.1 existing.1 (existing.2 + 1)
      else st.putNew node.1

/-- `chain_id_to_allocated_map[chain_id]`: the temporary objects, in some order, paired with the new
chain IDs. -/
def allocatedChainId (o : IterOrder) (existing : List ℕ) (objects lastChainId : ℕ) : ChainName → Option ℕ
  | .inl chainId => if chainId ∈ existing then some chainId else none
  | .inr object =>
    ((o.order (range objects)).zip (range' (lastChainId + 1) objects)).lookup object

/-- The allocated places of the events, with real chain IDs. -/
def resolvePlaces (chainIdOf : ChainName → Option ℕ)
    (entries : List (Sigma fun _ : ε => ChainName × ℕ)) : Option (Dict ε ChainPos) :=
  entries.foldlM (fun d entry => do
    let chainId ← chainIdOf entry.2.1
    return d.insert entry.1 (chainId, entry.2.2)) ∅

/-- `_allocate_chain_ids`; `lastChainId` is the last ID that the sequence has given out. -/
def allocateChainIds [DecidableEq τ] (o : IterOrder) (T : Tables ε ρ τ) (lastChainId : ℕ)
    (eventToTypes : Dict ε τ) (eventToAuthChain : Dict ε (List ε)) (eventsToCalc : List ε)
    (chainMap : Dict ε ChainPos) : Option (Dict ε ChainPos × ℕ) := do
  let tree := (sortedTopologically eventsToCalc eventToAuthChain).map fun e =>
    (e, chainParent eventToTypes eventToAuthChain e)
  let existing := existingChains chainMap tree
  let st ← tree.foldlM (allocateEvent chainMap) ⟨∅, maxSeqNos T existing, 0⟩
  let new ← resolvePlaces (allocatedChainId o existing st.objects lastChainId)
    st.newChainTuples.entries
  return (new, lastChainId + st.objects)

/-! ## Named places -/

section
variable {place : ε → Option ChainPos} {Auth : ε → ε → Prop} {existing : List ℕ} {done : List ε}
  {st : Allocation ε} {e x : ε} {name : ChainName} {seqNo : ℕ}

/-- Where an event sits: at its new place, or at the place it had before. -/
def Allocation.named (place : ε → Option ChainPos) (st : Allocation ε) (e : ε) : Option (ChainName × ℕ) :=
  match st.newChainTuples.lookup e with
  | some p => some p
  | none => (place e).map fun pos => (.inl pos.1, pos.2)

theorem Allocation.named_put :
    (st.put e name seqNo).named place x = if x = e then some (name, seqNo) else st.named place x := by
  unfold Allocation.named Allocation.put
  by_cases hx : x = e
  · rw [hx, lookup_insert, if_pos rfl]
  · rw [lookup_insert_ne hx, if_neg hx]

open Allocation (named_put)

/-- What holds after the events of `done` have been given places. -/
structure AllocInv (place : ε → Option ChainPos) (Auth : ε → ε → Prop) (existing : List ℕ)
    (done : List ε) (st : Allocation ε) : Prop where
  keys : ∀ {e}, e ∈ st.newChainTuples ↔ e ∈ done
  pos : ∀ {e r s}, st.named place e = some (r, s) → 0 < s
  inj : ∀ {e e' p}, st.named place e = some p → st.named place e' = some p → e = e'
  pred : ∀ {e r s}, st.named place e = some (r, s + 1) → 0 < s →
    ∃ b, Auth e b ∧ st.named place b = some (r, s)
  bound : ∀ {e r s m}, st.chainToMaxSeqNo.lookup r = some m → st.named place e = some (r, s) → s ≤ m
  known : ∀ {c}, c ∈ existing → (.inl c : ChainName) ∈ st.chainToMaxSeqNo
  made : ∀ {i}, i < st.objects → (.inr i : ChainName) ∈ st.chainToMaxSeqNo
  object : ∀ {e i s}, st.named place e = some (.inr i, s) → i < st.objects
  old : ∀ {e c s}, e ∈ done → st.named place e = some (.inl c, s) → c ∈ existing

section
variable (h : AllocInv place Auth existing done st) (hnew : st.named place e = none)
include h hnew

/-- Placing an event behind all events of its chain. -/
theorem AllocInv.put (hpos : 0 < seqNo) (hlast : ∀ {x s}, st.named place x = some (name, s) → s < seqNo)
    (hpred : ∀ {s}, seqNo = s + 1 → 0 < s → ∃ b, Auth e b ∧ st.named place b = some (name, s))
    (hobject : ∀ {i}, name = .inr i → i < st.objects) (hold : ∀ {c}, name = .inl c → c ∈ existing) :
    AllocInv place Auth existing (done ++ [e]) (st.put e name seqNo) where
  keys := by
    intro x
    rw [Allocation.put, mem_insert, h.keys, mem_append, mem_singleton]
    exact or_comm
  pos := by
    intro x r s hx
    rw [named_put] at hx
    split at hx
    · obtain ⟨_, rfl⟩ := mk.inj (some.inj hx)
      exact hpos
    · exact h.pos hx
  inj := by
    intro x y p hx hy
    rw [named_put] at hx hy
    split at hx
    next hxe =>
      split at hy
      next hye => exact hxe.trans hye.symm
      · obtain rfl := some.inj hx
        exact absurd (hlast hy) (lt_irrefl _)
    · split at hy
      · obtain rfl := some.inj hy
        exact absurd (hlast hx) (lt_irrefl _)
      · exact h.inj hx hy
  pred := by
    intro x r s hx hs
    -- an event that has a place is not the one being placed
    have hkeep : ∀ {b p}, st.named place b = some p → (st.put e name seqNo).named place b = some p := by
      intro b p hb
      rw [named_put, if_neg, hb]
      rintro rfl
      rw [hnew] at hb
      exact nomatch hb
    rw [named_put] at hx
    split at hx
    next hxe =>
      obtain ⟨rfl, hseq⟩ := mk.inj (some.inj hx)
      obtain ⟨b, hb, hplace⟩ := hpred hseq hs
      exact ⟨b, hxe ▸ hb, hkeep hplace⟩
    · obtain ⟨b, hb, hplace⟩ := h.pred hx hs
      exact ⟨b, hb, hkeep hplace⟩
  bound := by
    intro x r s m hm hx
    rw [named_put] at hx
    rcases Dict.lookup_insert_cases hm with ⟨rfl, rfl⟩ | ⟨hne, hm⟩
    · split at hx
      · exact (mk.inj (some.inj hx)).2.ge
      · exact (hlast hx).le
    · split at hx
      · exact absurd (mk.inj (some.inj hx)).1.symm hne
      · exact h.bound hm hx
  known := fun hc => (mem_insert _).mpr (.inr (h.known hc))
  made := fun hi => (mem_insert _).mpr (.inr (h.made hi))
  object := by
    intro x i s hx
    rw [named_put] at hx
    split at hx
    · exact hobject (mk.inj (some.inj hx)).1
    · exact h.object hx
  old := by
    intro x c s hx hplace
    rw [named_put] at hplace
    split at hplace
    · exact hold (mk.inj (some.inj hplace)).1
    next hne =>
      rw [mem_append, mem_singleton, or_iff_left hne] at hx
      exact h.old hx hplace

/-- Making one more temporary object. -/
theorem AllocInv.putNew : AllocInv place Auth existing (done ++ [e]) (st.putNew e) := by
  have hfresh : ∀ {x s}, st.named place x ≠ some (.inr st.objects, s) :=
    fun hx => absurd (h.object hx) (lt_irrefl _)
  -- the object counts as made while the event is put into its chain
  have h₁ : AllocInv place Auth existing done
      { st with
        chainToMaxSeqNo := st.chainToMaxSeqNo.insert (.inr st.objects) 0
        objects := st.objects + 1 } := by
    refine ⟨h.keys, h.pos, h.inj, h.pred, ?_, ?_, ?_, fun hx => (h.object hx).trans (by simp), h.old⟩
    · intro x r s m hm hx
      rcases Dict.lookup_insert_cases hm with ⟨rfl, _⟩ | ⟨_, hm⟩
      · exact absurd hx hfresh
      · exact h.bound hm hx
    · exact fun hc => (mem_insert _).mpr (.inr (h.known hc))
    · intro i hi
      rw [mem_insert]
      rcases Nat.lt_succ_iff_lt_or_eq.mp hi with hi | rfl
      · exact .inr (h.made hi)
      · exact .inl rfl
  have heq : st.putNew e = Allocation.put
      { st with
        chainToMaxSeqNo := st.chainToMaxSeqNo.insert (.inr st.objects) 0
        objects := st.objects + 1 } e (.inr st.objects) 1 := by
    show Allocation.mk _ _ _ = Allocation.mk _ _ _
    rw [insert_insert]
    rfl
  rw [heq]
  refine h₁.put hnew Nat.one_pos (fun hx => absurd hx hfresh) (fun hs hpos => ?_) (fun hi => ?_)
    (fun hc => ?_)
  · omega
  · rw [← Sum.inr.inj hi]
    exact Nat.lt_succ_self _
  · exact absurd hc Sum.inr_ne_inl

end

variable {chainMap : Dict ε ChainPos} (h : AllocInv place Auth existing done st)
include h

/-- The code finds the place of an event that is done or indexed, and knows its chain. -/
theorem AllocInv.existingPlace (hplaced : e ∈ done ∨
      ∃ pos, chainMap.lookup e = some pos ∧ place e = some pos ∧ pos.1 ∈ existing) :
    ∃ name seqNo, st.existingPlace chainMap e = some (name, seqNo) ∧
      st.named place e = some (name, seqNo) ∧ name ∈ st.chainToMaxSeqNo ∧
      (∀ i, name = .inr i → i < st.objects) ∧ ∀ c, name = .inl c → c ∈ existing := by
  by_cases hdone : e ∈ done
  · obtain ⟨⟨name, seqNo⟩, hnew⟩ := Dict.exists_lookup (h.keys.mpr hdone)
    have hnamed : st.named place e = some (name, seqNo) := by rw [Allocation.named, hnew]
    refine ⟨name, seqNo, by rw [Allocation.existingPlace, hnew], hnamed, ?_, ?_, ?_⟩
    · match name with
      | .inl c => exact h.known (h.old hdone hnamed)
      | .inr i => exact h.made (h.object hnamed)
    · rintro i rfl
      exact h.object hnamed
    · rintro c rfl
      exact h.old hdone hnamed
  · obtain ⟨pos, hmap, hplace, hmem⟩ := hplaced.resolve_left hdone
    have hnew : st.newChainTuples.lookup e = none := lookup_eq_none.mpr fun hmem => hdone (h.keys.mp hmem)
    refine ⟨.inl pos.1, pos.2, by rw [Allocation.existingPlace, hnew, hmap]; rfl,
      by rw [Allocation.named, hnew, hplace]; rfl, h.known hmem, fun i hi => ?_, fun c hc => ?_⟩
    · exact absurd hi Sum.inl_ne_inr
    · rwa [← Sum.inl.inj hc]

/-- The step lemma of the allocation loop. -/
theorem AllocInv.allocateEvent (node : ε × Option ε) (hnew : st.named place node.1 = none)
    (hparent : ∀ b, node.2 = some b → Auth node.1 b ∧
      (b ∈ done ∨ ∃ pos, chainMap.lookup b = some pos ∧ place b = some pos ∧ pos.1 ∈ existing)) :
    ∃ st', allocateEvent chainMap st node = some st' ∧
      AllocInv place Auth existing (done ++ [node.1]) st' := by
  unfold Storage.allocateEvent
  split
  · exact ⟨_, rfl, h.putNew hnew⟩
  next b hb =>
    obtain ⟨hauth, hplaced⟩ := hparent b hb
    obtain ⟨name, seqNo, hexisting, hnamed, hmem, hobject, hold⟩ := h.existingPlace hplaced
    obtain ⟨maxSeqNo, hmax⟩ := Dict.exists_lookup hmem
    rw [hexisting, bind_eq_bind, bind_some, hmax, bind_eq_bind, bind_some]
    refine ⟨_, rfl, ?_⟩
    split
    next hlt =>
      refine h.put hnew (Nat.succ_pos _) (fun hx => ?_) (fun hs _ => ?_) (hobject _) (hold _)
      · exact (h.bound hmax hx).trans_lt hlt
      · exact ⟨b, hauth, by rw [hnamed, ← Nat.succ.inj hs]⟩
    · exact h.putNew hnew

end

/-! ## Before the loop -/

section
variable {T : Tables ε ρ τ} {chains : List ℕ} {c s m : ℕ} {e : ε}

theorem le_maxSequenceNumber (h : maxSequenceNumber T c = some m)
    (he : T.place e = some (c, s)) : s ≤ m := by
  rw [maxSequenceNumber, max?_eq_some_iff] at h
  refine h.2 s (mem_map.mpr ⟨⟨e, c, s⟩, ?_, rfl⟩)
  exact mem_filter.mpr ⟨mem_lookup_iff.mp he, by simp⟩

theorem exists_maxSequenceNumber (he : T.place e = some (c, s)) :
    ∃ m, maxSequenceNumber T c = some m := by
  refine Option.ne_none_iff_exists'.mp fun h => ?_
  rw [maxSequenceNumber, max?_eq_none_iff, map_eq_nil_iff, filter_eq_nil_iff] at h
  exact h _ (mem_lookup_iff.mp he) (by simp)

omit [LinearOrder ε] in
theorem lookup_maxSeqNos_inl :
    (maxSeqNos T chains).lookup (.inl c) = if c ∈ chains then maxSequenceNumber T c else none := by
  induction chains with
  | nil => rfl
  | cons d chains ih =>
    show lookup _ (match maxSequenceNumber T d with
      | some m => (maxSeqNos T chains).insert (.inl d) m
      | none => maxSeqNos T chains) = _
    by_cases hc : c = d
    · subst hc
      rw [if_pos mem_cons_self]
      split
      next m hm => rw [lookup_insert, hm]
      next hm => rw [ih, hm, ite_self]
    · have hmem : c ∈ d :: chains ↔ c ∈ chains := by simp [hc]
      simp only [hmem, ← ih]
      split
      · exact lookup_insert_ne fun h => hc (Sum.inl.inj h)
      · rfl

theorem AllocInv.start {Auth : ε → ε → Prop} (hplace : Placement T.place Auth)
    (hchains : ∀ c ∈ chains, ∃ e s, T.place e = some (c, s)) :
    AllocInv T.place Auth chains [] ⟨∅, maxSeqNos T chains, 0⟩ := by
  have hnamed : ∀ {e : ε} {r s}, Allocation.named T.place
      ⟨∅, maxSeqNos T chains, 0⟩ e = some (r, s) →
      ∃ c, r = .inl c ∧ T.place e = some (c, s) := by
    intro e r s he
    obtain ⟨⟨c, s'⟩, hpos, heq⟩ := map_eq_some_iff.mp he
    obtain ⟨rfl, rfl⟩ := mk.inj heq
    exact ⟨c, rfl, hpos⟩
  refine ⟨?_, ?_, ?_, ?_, ?_, ?_, ?_, ?_, ?_⟩
  · exact iff_of_false (notMem_empty _) not_mem_nil
  · intro e r s he
    obtain ⟨c, _, hpos⟩ := hnamed he
    exact hplace.pos hpos
  · rintro e e' ⟨r, s⟩ he he'
    obtain ⟨c, rfl, hpos⟩ := hnamed he
    obtain ⟨c', hc, hpos'⟩ := hnamed he'
    exact hplace.inj hpos (Sum.inl.inj hc ▸ hpos')
  · intro e r s he hs
    obtain ⟨c, rfl, hpos⟩ := hnamed he
    obtain ⟨b, hb, hposb⟩ := hplace.pred hpos hs
    exact ⟨b, hb, map_eq_some_iff.mpr ⟨(c, s), hposb, rfl⟩⟩
  · intro e r s m hm he
    obtain ⟨c, rfl, hpos⟩ := hnamed he
    rw [lookup_maxSeqNos_inl] at hm
    split at hm
    · exact le_maxSequenceNumber hm hpos
    · exact nomatch hm
  · intro c hc
    obtain ⟨e, s, hpos⟩ := hchains c hc
    obtain ⟨m, hm⟩ := exists_maxSequenceNumber hpos
    refine lookup_isSome.mp ?_
    rw [lookup_maxSeqNos_inl, if_pos hc, hm]
    rfl
  · exact nofun
  · intro e i s he
    obtain ⟨c, hc, _⟩ := hnamed he
    exact absurd hc Sum.inr_ne_inl
  · exact nofun

end

/-! ## After the loop -/

theorem lookup_zip_range' {α : Type} [DecidableEq α] {i : α} {l : List α} (hi : i ∈ l) (k : ℕ) :
    (l.zip (range' k l.length)).lookup i = some (k + l.idxOf i) := by
  induction l generalizing k with
  | nil => exact nomatch hi
  | cons a l ih =>
    rw [length_cons, range'_succ, zip_cons_cons, lookup_cons, idxOf_cons]
    by_cases ha : a = i
    · subst ha
      simp
    · have hmem := (mem_cons.mp hi).resolve_left (Ne.symm ha)
      rw [beq_false_of_ne ha, beq_false_of_ne (Ne.symm ha)]
      simp only [ih hmem, cond_false, Option.some.injEq]
      omega

section
variable {o : IterOrder} {existing : List ℕ} {objects lastChainId i c : ℕ}

/-- The new IDs start after the last one. -/
theorem allocatedChainId_inr (hi : i < objects) :
    allocatedChainId o existing objects lastChainId (.inr i) =
      some (lastChainId + 1 + (o.order (range objects)).idxOf i) := by
  have hlen : (o.order (range objects)).length = objects := by
    rw [(o.perm _).length_eq, length_range]
  have h := lookup_zip_range' (o.mem_order.mpr (mem_range.mpr hi)) (lastChainId + 1)
  rwa [hlen] at h

theorem idxOf_lt_objects (hi : i < objects) : (o.order (range objects)).idxOf i < objects := by
  have h := idxOf_lt_length_of_mem (o.mem_order.mpr (mem_range.mpr hi))
  rwa [(o.perm _).length_eq, length_range] at h

end

/-- A place and the named place that it comes from. -/
def Resolves (o : IterOrder) (objects lastChainId : ℕ) : ChainName → ℕ → Prop
  | .inl c, c' => c = c' ∧ c ≤ lastChainId
  | .inr i, c' => i < objects ∧ c' = lastChainId + 1 + (o.order (range objects)).idxOf i

section
variable {o : IterOrder} {objects lastChainId c : ℕ} {r r' : ChainName}
  (h : Resolves o objects lastChainId r c)
include h in
theorem Resolves.inj (h' : Resolves o objects lastChainId r' c) : r = r' := by
  match r, r' with
  | .inl _, .inl _ => rw [h.1, h'.1]
  | .inl _, .inr _ =>
    obtain ⟨rfl, hle⟩ := h
    have := h'.2
    omega
  | .inr _, .inl _ =>
    obtain ⟨rfl, hle⟩ := h'
    have := h.2
    omega
  | .inr i, .inr _ =>
    have hidx := h.2.symm.trans h'.2
    have hmem : i ∈ o.order (range objects) := o.mem_order.mpr (mem_range.mpr h.1)
    rw [(idxOf_inj hmem).mp (Nat.add_left_cancel hidx)]

include h

theorem Resolves.functional {c' : ℕ} (h' : Resolves o objects lastChainId r c') : c = c' := by
  match r with
  | .inl _ => exact h.1.symm.trans h'.1
  | .inr _ => exact h.2.trans h'.2.symm

theorem Resolves.le : c ≤ lastChainId + objects := by
  match r with
  | .inl _ =>
    have := h.1
    have := h.2
    omega
  | .inr i =>
    have hlt := idxOf_lt_objects (o := o) h.1
    have := h.2
    omega

end

theorem resolvePlaces_spec (chainIdOf : ChainName → Option ℕ) {d : Dict ε (ChainName × ℕ)}
    (hid : ∀ e r s, d.lookup e = some (r, s) → ∃ c, chainIdOf r = some c) :
    ∃ new, resolvePlaces chainIdOf d.entries = some new ∧ ∀ {e c s}, new.lookup e = some (c, s) ↔
        ∃ r, d.lookup e = some (r, s) ∧ chainIdOf r = some c := by
  obtain ⟨new, hrun, hnew⟩ := foldlM_inv
    (f := fun d entry => do
      let chainId ← chainIdOf entry.2.1
      return d.insert entry.1 (chainId, entry.2.2))
    (I := fun done (d : Dict ε ChainPos) => ∀ e c s, d.lookup e = some (c, s) ↔
      ∃ r, ⟨e, (r, s)⟩ ∈ done ∧ chainIdOf r = some c)
    d.entries (s := ∅) (by
      rintro done ⟨e₀, r₀, s₀⟩ rest d' heq hI
      have hmem₀ := heq ▸ mem_append_cons_self
      obtain ⟨c₀, hc₀⟩ := hid e₀ r₀ s₀ (mem_lookup_iff.mpr hmem₀)
      refine ⟨d'.insert e₀ (c₀, s₀), by simp only [hc₀]; rfl, fun e c s => ?_⟩
      by_cases he : e = e₀
      · subst he
        rw [lookup_insert]
        constructor
        · intro hpos
          obtain ⟨rfl, rfl⟩ := mk.inj (some.inj hpos)
          exact ⟨r₀, mem_append_right _ (mem_singleton_self _), hc₀⟩
        · rintro ⟨r, hmem, hc⟩
          -- keys are listed once
          have hmem' : ⟨e, (r, s)⟩ ∈ d.entries := by
            rw [heq]
            rcases mem_append.mp hmem with hmem | hmem
            · exact mem_append_left _ hmem
            · exact mem_append_right _ (mem_singleton.mp hmem ▸ mem_cons_self)
          have hsame := (mem_lookup_iff.mpr hmem₀).symm.trans (mem_lookup_iff.mpr hmem')
          obtain ⟨rfl, rfl⟩ := mk.inj (some.inj hsame)
          rw [some.inj (hc₀.symm.trans hc)]
      · rw [lookup_insert_ne he, hI]
        simp [he])
    (fun e c s => by simp)
  exact ⟨new, hrun, fun {e c s} => by rw [hnew]; simp only [← mem_lookup_iff, Option.mem_def]⟩

/-- The places after the allocation. -/
def placeAfter (T : Tables ε ρ τ) (new : Dict ε ChainPos) (e : ε) : Option ChainPos :=
  match new.lookup e with
  | some pos => some pos
  | none => T.place e

section
variable {o : IterOrder} {T : Tables ε ρ τ} {lastChainId : ℕ}
  {eventToTypes : Dict ε τ} {eventToAuthChain : Dict ε (List ε)} {eventsToCalc : List ε}
  {chainMap : Dict ε ChainPos} {Auth : ε → ε → Prop} {tree : List (ε × Option ε)}

theorem mem_existingChains {c : ℕ} : c ∈ existingChains chainMap tree ↔
      ∃ e b s, (e, some b) ∈ tree ∧ chainMap.lookup b = some (c, s) := by
  rw [existingChains, mem_dedup, mem_filterMap]
  constructor
  · rintro ⟨⟨e, parent⟩, hmem, hc⟩
    obtain ⟨⟨_, s⟩, hpos, rfl⟩ := map_eq_some_iff.mp hc
    obtain ⟨b, rfl, hb⟩ := Option.bind_eq_some_iff.mp hpos
    exact ⟨e, b, s, hmem, hb⟩
  · rintro ⟨e, b, s, hmem, hb⟩
    exact ⟨(e, some b), hmem, by simp [hb]⟩

variable (hplace : Placement T.place Auth)
  (hmap : ∀ e pos, chainMap.lookup e = some pos → T.place e = some pos)
  (hcalc : ∀ e ∈ eventsToCalc, e ∉ T.eventAuthChains)
  (hauth : ∀ e ∈ eventsToCalc, ∀ b ∈ eventToAuthChain.getD e [], Auth e b ∧
    (b ∈ eventsToCalc ∨ b ∈ chainMap))

variable (eventToTypes) in
include hplace hmap hcalc hauth in
/-- The loop gives every event to calculate a named place. -/
theorem allocateEvents_spec [DecidableEq τ]
    (htree : tree = (sortedTopologically eventsToCalc eventToAuthChain).map fun e =>
      (e, chainParent eventToTypes eventToAuthChain e)) :
    ∃ st, tree.foldlM (allocateEvent chainMap) ⟨∅, maxSeqNos T (existingChains chainMap tree), 0⟩ =
        some st ∧
      AllocInv T.place Auth (existingChains chainMap tree)
        (sortedTopologically eventsToCalc eventToAuthChain) st := by
  obtain ⟨hnodup, hmem, hbefore⟩ := sortedTopologically_spec hplace.acyclic
    fun e he b hb => (hauth e he b hb).1
  have hfst : tree.map fst = sortedTopologically eventsToCalc eventToAuthChain := by
    rw [htree, List.map_map]
    exact map_id _
  rw [← hfst] at hnodup hmem hbefore ⊢
  refine foldlM_inv (I := fun done st => AllocInv T.place Auth
    (existingChains chainMap tree) (done.map fst) st) tree ?_ (AllocInv.start hplace ?_)
  · rintro done ⟨e, parent⟩ rest st heq h
    have hnode : (e, parent) ∈ tree := heq ▸ mem_append_cons_self
    have hsplit : tree.map fst = done.map fst ++ e :: rest.map fst := by
      rw [heq, map_append, map_cons]
    have he : e ∈ eventsToCalc := (hmem e).mp (mem_map_of_mem hnode)
    have hparent : parent = chainParent eventToTypes eventToAuthChain e := by
      rw [htree] at hnode
      obtain ⟨_, _, hx⟩ := mem_map.mp hnode
      obtain ⟨rfl, rfl⟩ := mk.inj hx
      rfl
    rw [map_append]
    refine h.allocateEvent (e, parent) ?_ fun b hb => ?_
    · rw [hsplit, nodup_append] at hnodup
      have hnew : st.newChainTuples.lookup e = none := by
        refine lookup_eq_none.mpr fun hkey => ?_
        exact hnodup.2.2 e (h.keys.mp hkey) e mem_cons_self rfl
      rw [Allocation.named, hnew, Tables.place, lookup_eq_none.mpr (hcalc e he)]
      rfl
    · have hcites : b ∈ eventToAuthChain.getD e [] := mem_of_find?_eq_some (hparent.symm.trans hb)
      obtain ⟨hAuth, hplaced⟩ := hauth e he b hcites
      refine ⟨hAuth, hplaced.imp (hbefore _ e _ hsplit b hcites) fun hb' => ?_⟩
      obtain ⟨⟨c, s⟩, hpos⟩ := Dict.exists_lookup hb'
      exact ⟨(c, s), hpos, hmap b _ hpos, mem_existingChains.mpr ⟨e, b, s, hb ▸ hnode, hpos⟩⟩
  · intro c hc
    obtain ⟨e, b, s, _, hpos⟩ := mem_existingChains.mp hc
    exact ⟨b, s, hmap b _ hpos⟩

variable {existing : List ℕ} {st : Allocation ε} {done : List ε} {e : ε}

/-- The chain of a new event gets an ID. -/
theorem AllocInv.allocated
    (h : AllocInv T.place Auth existing done st)
    (hexisting : ∀ c ∈ existing, c ≤ lastChainId) {r : ChainName} {s : ℕ}
    (he : st.newChainTuples.lookup e = some (r, s)) :
    ∃ c, allocatedChainId o existing st.objects lastChainId r = some c ∧
      Resolves o st.objects lastChainId r c := by
  have hdone : e ∈ done := h.keys.mp (Dict.mem_of_lookup he)
  have hnamed : st.named T.place e = some (r, s) := by rw [Allocation.named, he]
  match r with
  | .inl c =>
    have hc := h.old hdone hnamed
    exact ⟨c, if_pos hc, rfl, hexisting c hc⟩
  | .inr i => exact ⟨_, allocatedChainId_inr (h.object hnamed), h.object hnamed, rfl⟩

/-- The final places are the named places with the temporary objects replaced. -/
theorem placeAfter_eq_some_iff
    {new : Dict ε ChainPos} (h : AllocInv T.place Auth existing done st)
    (hlast : ∀ e pos, T.place e = some pos → pos.1 ≤ lastChainId)
    (hexisting : ∀ c ∈ existing, c ≤ lastChainId)
    (hnew : ∀ {e c s}, new.lookup e = some (c, s) ↔ ∃ r, st.newChainTuples.lookup e = some (r, s) ∧
      allocatedChainId o existing st.objects lastChainId r = some c) {c s : ℕ} :
    placeAfter T new e = some (c, s) ↔ ∃ r, st.named T.place e = some (r, s) ∧
      Resolves o st.objects lastChainId r c := by
  unfold placeAfter Allocation.named
  cases he : st.newChainTuples.lookup e with
  | some p =>
    obtain ⟨r, s'⟩ := p
    obtain ⟨c', hc', hres⟩ := h.allocated hexisting he
    rw [hnew.mpr ⟨r, he, hc'⟩]
    constructor
    · intro heq
      obtain ⟨rfl, rfl⟩ := mk.inj (some.inj heq)
      exact ⟨r, rfl, hres⟩
    · rintro ⟨r', heq, hres'⟩
      obtain ⟨rfl, rfl⟩ := mk.inj (some.inj heq)
      rw [hres.functional hres']
  | none =>
    have hnone : new.lookup e = none := by
      refine Option.eq_none_iff_forall_not_mem.mpr fun ⟨c', s'⟩ hmem => ?_
      obtain ⟨r, hr, _⟩ := hnew.mp hmem
      rw [he] at hr
      exact nomatch hr
    rw [hnone]
    constructor
    · intro hpos
      exact ⟨.inl c, map_eq_some_iff.mpr ⟨(c, s), hpos, rfl⟩, rfl, hlast e _ hpos⟩
    · rintro ⟨r, hr, hres⟩
      obtain ⟨⟨c', s'⟩, hpos, heq⟩ := map_eq_some_iff.mp hr
      obtain ⟨rfl, rfl⟩ := mk.inj heq
      exact hres.1 ▸ hpos

variable (eventToTypes) in
include hplace hmap hcalc hauth in
/-- `_allocate_chain_ids` extends the places of the table to the new events. -/
theorem allocateChainIds_spec [DecidableEq τ]
    (hlast : ∀ e pos, T.place e = some pos → pos.1 ≤ lastChainId) :
    ∃ new lastChainId', allocateChainIds o T lastChainId eventToTypes eventToAuthChain eventsToCalc
        chainMap = some (new, lastChainId') ∧
      (∀ e, e ∈ new ↔ e ∈ eventsToCalc) ∧ Placement (placeAfter T new) Auth ∧
      ∀ e pos, placeAfter T new e = some pos → pos.1 ≤ lastChainId' := by
  obtain ⟨st, hst, h⟩ := allocateEvents_spec eventToTypes hplace hmap hcalc hauth rfl
  generalize htree : ((sortedTopologically eventsToCalc eventToAuthChain).map fun e =>
    (e, chainParent eventToTypes eventToAuthChain e)) = tree at hst h
  have hexisting : ∀ c ∈ existingChains chainMap tree, c ≤ lastChainId := by
    intro c hc
    obtain ⟨_, b, s, _, hpos⟩ := mem_existingChains.mp hc
    exact hlast b _ (hmap b _ hpos)
  obtain ⟨new, hrun, hnew⟩ := resolvePlaces_spec
    (allocatedChainId o (existingChains chainMap tree) st.objects lastChainId)
    fun e r s he => (h.allocated hexisting he).imp fun c hc => hc.1
  -- a place after the allocation is a tuple in `newChainTuples` or in the table, with its chain resolved
  have hres := fun {e c s} => placeAfter_eq_some_iff (e := e) (c := c) (s := s) h hlast hexisting hnew
  refine ⟨new, lastChainId + st.objects, ?_, ?_, ?_, ?_⟩
  · rw [allocateChainIds, htree]
    simp only [hst, hrun, bind_eq_bind, bind_some]
    rfl
  · intro e
    have hmem : e ∈ new ↔ e ∈ st.newChainTuples := by
      constructor
      · intro he
        obtain ⟨pos, hpos⟩ := Dict.exists_lookup he
        obtain ⟨r, hr, _⟩ := hnew.mp hpos
        exact Dict.mem_of_lookup hr
      · intro he
        obtain ⟨⟨r, s⟩, hr⟩ := Dict.exists_lookup he
        obtain ⟨c, hc, _⟩ := h.allocated hexisting hr
        exact Dict.mem_of_lookup (hnew.mpr ⟨r, hr, hc⟩)
    rw [hmem, h.keys]
    exact (sortedTopologically_spec hplace.acyclic fun e he b hb => (hauth e he b hb).1).2.1 e
  · refine ⟨hplace.acyclic, fun he => ?_, fun {e e' pos} he he' => ?_, fun he hs => ?_⟩
    · obtain ⟨r, hr, _⟩ := hres.mp he
      exact h.pos hr
    · obtain ⟨r, hr, hc⟩ := hres.mp he
      obtain ⟨r', hr', hc'⟩ := hres.mp he'
      exact h.inj hr (hc.inj hc' ▸ hr')
    · obtain ⟨r, hr, hc⟩ := hres.mp he
      obtain ⟨b, hb, hbr⟩ := h.pred hr hs
      exact ⟨b, hb, hres.mpr ⟨r, hbr, hc⟩⟩
  · intro e pos he
    obtain ⟨_, _, hc⟩ := hres.mp he
    exact hc.le

end
end Synapse.Storage
