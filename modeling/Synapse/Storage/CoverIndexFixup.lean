import Synapse.Storage.CoverIndexDifference

/-!
# Un-indexed events in the auth chain difference

`_fixup_auth_chain_difference_sets` splits the events into those that have a chain and those that do
not.  Because no indexed event has an un-indexed one in its auth chain, a path from a state set runs
through un-indexed events first and through indexed ones after that.  So

* the un-indexed events a state set reaches are the un-indexed events on the partial auth chains of
  its un-indexed members, and
* the indexed events it reaches are those reached by its indexed members and by the indexed events at
  which partial auth chains end.

The code rewrites every state set in place, one un-indexed event after the other.  `FixedUp` is what
holds in between: nothing has been lost, and everything already moved to the un-indexed side has had
its auth events moved along with it.  The caller sees the rewritten sets, so a second run on them does not
return what the first one does (`retriable_iff`).
-/

namespace Synapse.Storage

open Synapse.Util Relation List AList

variable {ε ρ τ : Type} [DecidableEq ε]

/-- The events that have no chain, as far as the state sets reach: no indexed event leads to one, and
`event_auth_chain_to_calculate` lists them, and no others, for the room. -/
structure ToCalculate (T : Tables ε ρ τ) (roomId : ρ) (stateSets : List (List ε)) : Prop where
  closed : ∀ {e a}, e ∈ T.eventAuthChains → T.Auth e a → a ∈ T.eventAuthChains
  listed : ∀ {S e}, S ∈ stateSets → Reaches T.Auth S e → e ∉ T.eventAuthChains →
    ∃ t, T.eventAuthChainToCalculate.lookup e = some (roomId, t)
  unindexed : ∀ {e t}, T.eventAuthChainToCalculate.lookup e = some (roomId, t) → e ∉ T.eventAuthChains

/-- `e` is listed for the room. -/
def Listed (T : Tables ε ρ τ) (roomId : ρ) (e : ε) : Prop :=
  ∃ t, T.eventAuthChainToCalculate.lookup e = some (roomId, t)

/-! ## Reading the table -/

section
variable {T : Tables ε ρ τ} {roomId : ρ} {e a : ε} {o : Option (ε × Bool)}

theorem mem_joinAuth : o ∈ joinAuth T e ↔ o = none ∧ (∀ a, ¬ T.Auth e a) ∨
      ∃ a, o = some (a, decide (a ∈ T.eventAuthChains)) ∧ T.Auth e a := by
  unfold joinAuth
  split
  next hnil =>
    have hnone : ∀ a, ¬ T.Auth e a := fun a ha => filter_eq_nil_iff.mp hnil (e, a) ha (decide_eq_true rfl)
    rw [mem_singleton, and_iff_left hnone, or_iff_left fun ⟨a, _, ha⟩ => hnone a ha]
  next row rows hrows =>
    have hmem : ∀ r, r ∈ row :: rows ↔ r ∈ T.eventAuth ∧ r.1 = e := fun r => by
      rw [← hrows, mem_filter, decide_eq_true_eq]
    obtain ⟨hrow, rfl⟩ := (hmem row).mp mem_cons_self
    rw [mem_map, or_iff_right fun h => h.2 row.2 hrow]
    constructor
    · rintro ⟨⟨_, a⟩, hr, rfl⟩
      obtain ⟨ha, rfl⟩ := (hmem _).mp hr
      exact ⟨a, rfl, ha⟩
    · rintro ⟨a, rfl, ha⟩
      exact ⟨(row.1, a), (hmem _).mpr ⟨ha, rfl⟩, rfl⟩

theorem listed_iff [DecidableEq ρ] : Listed T roomId e ↔
    ∃ tc ∈ T.eventAuthChainToCalculate.entries.filter (fun tc => tc.2.1 = roomId), tc.1 = e := by
  constructor
  · rintro ⟨t, ht⟩
    exact ⟨⟨e, roomId, t⟩, mem_filter.mpr ⟨mem_lookup_iff.mp ht, by simp⟩, rfl⟩
  · rintro ⟨⟨x, r, t⟩, hmem, rfl⟩
    rw [mem_filter, decide_eq_true_eq] at hmem
    obtain ⟨hmem, rfl⟩ := hmem
    exact ⟨t, mem_lookup_iff.mpr hmem⟩

theorem mem_toCalculateRows [DecidableEq ρ] :
    (e, o) ∈ toCalculateRows T roomId ↔ Listed T roomId e ∧ o ∈ joinAuth T e := by
  unfold toCalculateRows
  rw [mem_flatMap, listed_iff]
  constructor
  · rintro ⟨tc, htc, hmem⟩
    obtain ⟨o', ho', heq⟩ := mem_map.mp hmem
    obtain ⟨rfl, rfl⟩ := Prod.mk.inj heq
    exact ⟨⟨tc, htc, rfl⟩, ho'⟩
  · rintro ⟨⟨tc, htc, rfl⟩, ho⟩
    exact ⟨tc, htc, mem_map_of_mem ho⟩

/-- What the loop over the rows has read. -/
structure ReadRows (haveChainIndex : List ε) (rows : List (ε × Option (ε × Bool)))
    (read : Dict ε (List ε) × List ε) : Prop where
  keys : ∀ e, e ∈ read.1 ↔ ∃ o, (e, o) ∈ rows
  auth : ∀ e a, a ∈ read.1.getD e [] ↔ ∃ b, (e, some (a, b)) ∈ rows
  haveIndex : ∀ a, a ∈ read.2 ↔ a ∈ haveChainIndex ∨ ∃ e, (e, some (a, true)) ∈ rows

theorem readToCalculate_spec (rows : List (ε × Option (ε × Bool))) (haveChainIndex : List ε) :
    ReadRows haveChainIndex rows (readToCalculate rows haveChainIndex) := by
  refine foldl_inv rows (fun done row _ read _ h => ?_)
    ⟨by simp [notMem_empty], by simp [Dict.getD], by simp⟩
  obtain ⟨x, o⟩ := row
  have hkey : ∀ e edges, e ∈ read.1.insert x edges ↔ ∃ o', (e, o') ∈ done ++ [(x, o)] := by
    intro e edges
    rw [mem_insert, h.keys]
    simp only [mem_append, mem_singleton, Prod.mk.injEq, exists_or, exists_and_left, exists_eq, and_true]
    exact or_comm
  cases o with
  | none =>
    refine ⟨fun e => hkey e _, fun e a => ?_, fun a => ?_⟩
    · rw [readRow, Dict.getD_insert_getD, h.auth]
      simp
    · refine (h.haveIndex a).trans ?_
      simp
  | some p =>
    obtain ⟨y, b⟩ := p
    refine ⟨fun e => hkey e _, fun e a => ?_, fun a => ?_⟩
    · refine Dict.mem_getD_insert_insert.trans ?_
      rw [h.auth]
      simp only [mem_append, mem_singleton, Prod.mk.injEq, Option.some.injEq, exists_or,
        exists_and_left, exists_eq, and_true]
    · show a ∈ (if b = true then read.2.insert y else read.2) ↔ _
      cases b with
      | true =>
        rw [if_pos rfl, mem_insert_iff, h.haveIndex]
        simp only [mem_append, mem_singleton, Prod.mk.injEq, Option.some.injEq,
          exists_or, exists_eq_left, and_true]
        tauto
      | false =>
        rw [if_neg Bool.false_ne_true, h.haveIndex]
        simp

/-- The auth references of the listed events. -/
def ListedAuth (T : Tables ε ρ τ) (roomId : ρ) (a b : ε) : Prop := Listed T roomId a ∧ T.Auth a b

theorem some_mem_toCalculateRows [DecidableEq ρ] {a : ε} {b : Bool} :
    (e, some (a, b)) ∈ toCalculateRows T roomId ↔
      ListedAuth T roomId e a ∧ decide (a ∈ T.eventAuthChains) = b := by
  rw [mem_toCalculateRows, mem_joinAuth, ListedAuth, and_assoc]
  refine and_congr_right fun _ => ⟨?_, ?_⟩
  · rintro (⟨h, _⟩ | ⟨a', heq, ha⟩)
    · exact nomatch h
    · obtain ⟨rfl, rfl⟩ := Prod.mk.inj (Option.some.inj heq)
      exact ⟨ha, rfl⟩
  · rintro ⟨ha, rfl⟩
    exact .inr ⟨a, rfl, ha⟩

/-- The table as it is read: the listed events with their auth events, and the indexed events among
these. -/
theorem readToCalculate_rows [DecidableEq ρ] (T : Tables ε ρ τ) (roomId : ρ) (haveChainIndex : List ε) :
    (∀ e, e ∈ (readToCalculate (toCalculateRows T roomId) haveChainIndex).1 ↔ Listed T roomId e) ∧
      (∀ e a, a ∈ (readToCalculate (toCalculateRows T roomId) haveChainIndex).1.getD e [] ↔
        ListedAuth T roomId e a) ∧
      ∀ a, a ∈ (readToCalculate (toCalculateRows T roomId) haveChainIndex).2 ↔
        a ∈ haveChainIndex ∨ a ∈ T.eventAuthChains ∧ ∃ e, ListedAuth T roomId e a := by
  have h := readToCalculate_spec (toCalculateRows T roomId) haveChainIndex
  refine ⟨fun e => ?_, fun e a => ?_, fun a => ?_⟩
  · rw [h.keys]
    constructor
    · rintro ⟨o, ho⟩
      exact (mem_toCalculateRows.mp ho).1
    · intro he
      by_cases hnone : ∃ a, T.Auth e a
      · obtain ⟨a, ha⟩ := hnone
        exact ⟨_, some_mem_toCalculateRows.mpr ⟨⟨he, ha⟩, rfl⟩⟩
      · exact ⟨none, mem_toCalculateRows.mpr ⟨he, mem_joinAuth.mpr (.inl ⟨rfl, not_exists.mp hnone⟩)⟩⟩
  · rw [h.auth]
    simp only [some_mem_toCalculateRows, exists_and_left, exists_eq', and_true]
  · rw [h.haveIndex]
    simp only [some_mem_toCalculateRows, decide_eq_true_eq, exists_and_right, and_comm]

end

/-! ## Partial auth chains -/

section
variable {E : ε → ε → Prop} {eventToAuthIds : Dict ε (List ε)} {univ : List ε}

/-- The loop over `processing` ends, with everything that `E` leads to.  `P` holds of all events that
can come up and `univ` lists them; an event taken from `processing` has not been taken before, so the
loop makes at most as many turns. -/
theorem partialAuthChain_spec (hE : ∀ a b, b ∈ eventToAuthIds.getD a [] ↔ E a b) {P : ε → Prop}
    (hP : ∀ a b, P a → E a b → P b) (huniv : ∀ x, P x → x ∈ univ) :
    ∀ (fuel : ℕ) (processing toAdd : List ε), processing.Nodup → toAdd.Nodup →
      (∀ x ∈ processing, x ∉ toAdd) → (∀ x, x ∈ toAdd ∨ x ∈ processing → P x) →
      (∀ x ∈ toAdd, ∀ y, E x y → y ∈ toAdd ∨ y ∈ processing) → univ.length - toAdd.length < fuel →
      ∃ out, partialAuthChain eventToAuthIds fuel processing toAdd = some out ∧ (∀ x ∈ out, P x) ∧
        (∀ x, x ∈ toAdd ∨ x ∈ processing → x ∈ out) ∧ ∀ x ∈ out, ∀ y, E x y → y ∈ out
  | fuel, [], toAdd, _, _, _, hall, hclosed, _ => by
    refine ⟨toAdd, by cases fuel <;> rfl, fun x hx => hall x (.inl hx), ?_, ?_⟩
    · exact fun x hx => hx.resolve_right not_mem_nil
    · exact fun x hx y hxy => (hclosed x hx y hxy).resolve_right not_mem_nil
  | 0, _ :: _, _, _, _, _, _, _, hfuel => nomatch hfuel
  | fuel + 1, a :: processing, toAdd, hnodup, hnodup', hnew, hall, hclosed, hfuel => by
    have hanew : a ∉ toAdd := hnew a mem_cons_self
    have ha : P a := hall a (.inr mem_cons_self)
    rw [nodup_cons] at hnodup
    have hnodup₁ : (toAdd.insert a).Nodup := hnodup'.insert
    -- both branches go on with the auth events of `a` that have not been taken yet
    let sub := (eventToAuthIds.getD a []).filter (· ∉ toAdd.insert a)
    have hsub : ∀ {y}, y ∈ sub ↔ E a y ∧ y ∉ toAdd.insert a := by
      intro y
      rw [mem_filter, hE, decide_eq_true_eq]
    have hrun : partialAuthChain eventToAuthIds (fuel + 1) (a :: processing) toAdd =
        partialAuthChain eventToAuthIds fuel (sub ∪ processing) (toAdd.insert a) := by
      rw [partialAuthChain]
      cases hlook : eventToAuthIds.lookup a with
      | none =>
        have hnil : sub = [] := by
          simp only [sub, Dict.getD, hlook, Option.getD_none, filter_nil]
        rw [hnil, nil_union]
      | some subAuthIds => simp only [sub, Dict.getD_of_lookup hlook]
    have hall₁ : ∀ x, x ∈ toAdd.insert a ∨ x ∈ sub ∪ processing → P x := by
      intro x hx
      rw [mem_insert_iff, mem_union_iff, hsub] at hx
      rcases hx with (rfl | hx) | hx | hx
      · exact ha
      · exact hall x (.inl hx)
      · exact hP a x ha hx.1
      · exact hall x (.inr (mem_cons_of_mem _ hx))
    have hfuel₁ : univ.length - (toAdd.insert a).length < fuel := by
      have hlen := hnodup₁.length_le_of_subset fun x hx => huniv x (hall₁ x (.inl hx))
      rw [insert_of_not_mem hanew, length_cons] at hlen ⊢
      omega
    obtain ⟨out, hout, hsound, hkeep, hclosed'⟩ := partialAuthChain_spec hE hP huniv fuel
      (sub ∪ processing) (toAdd.insert a) (hnodup.2.union sub) hnodup₁
      (fun x hx => by
        rcases mem_union_iff.mp hx with hx | hx
        · exact (hsub.mp hx).2
        · rw [mem_insert_iff, not_or]
          exact ⟨fun heq => hnodup.1 (heq ▸ hx), hnew x (mem_cons_of_mem _ hx)⟩)
      hall₁
      (fun x hx y hxy => by
        by_cases hy : y ∈ toAdd.insert a
        · exact .inl hy
        refine .inr (mem_union_iff.mpr ?_)
        rcases mem_insert_iff.mp hx with rfl | hx
        · exact .inl (hsub.mpr ⟨hxy, hy⟩)
        · rw [mem_insert_iff, not_or] at hy
          exact .inr ((mem_cons.mp ((hclosed x hx y hxy).resolve_left hy.2)).resolve_left hy.1))
      hfuel₁
    refine ⟨out, hrun.trans hout, hsound, fun x hx => hkeep x ?_, hclosed'⟩
    rw [mem_insert_iff, mem_union_iff]
    rcases hx with hx | hx
    · exact .inl (.inr hx)
    · exact (mem_cons.mp hx).imp .inl .inr

/-- The partial auth chains are the events below each listed event that some state set has. -/
theorem partialAuthChains_spec (hE : ∀ a b, b ∈ eventToAuthIds.getD a [] ↔ E a b)
    (huniv : ∀ a b, E a b → b ∈ univ) {fuel : ℕ} (hfuel : univ.length < fuel)
    (stateSets : List (List ε)) : ∃ chains, partialAuthChains eventToAuthIds fuel stateSets = .ok chains ∧
      (∀ e chain, (e, chain) ∈ chains → e ∈ eventToAuthIds ∧ ∀ x, x ∈ chain ↔ TransGen E e x) ∧
      ∀ S ∈ stateSets, ∀ e ∈ S, e ∈ eventToAuthIds → ∃ chain, (e, chain) ∈ chains := by
  obtain ⟨chains, hrun, hall⟩ : ∃ chains, partialAuthChains eventToAuthIds fuel stateSets = .ok chains ∧
      Forall₂ (fun entry pair =>
        pair.1 = entry.1 ∧ ∀ x, x ∈ pair.2 ↔ TransGen E entry.1 x)
        (eventToAuthIds.entries.filter fun entry => stateSets.any (entry.1 ∈ ·)) chains :=
    mapM_ok_of_forall _ fun entry hentry => by
      have hlook : eventToAuthIds.lookup entry.1 = some entry.2 :=
        mem_lookup_iff.mpr (mem_filter.mp hentry).1
      have hmem : ∀ x, x ∈ entry.2.dedup ↔ E entry.1 x := by
        intro x
        rw [mem_dedup, ← hE, Dict.getD_of_lookup hlook]
      obtain ⟨out, hout, hsound, hkeep, hclosed⟩ := partialAuthChain_spec hE (P := TransGen E entry.1)
        (fun _ _ ha hab => ha.tail hab) (fun x hx => by
          obtain ⟨y, _, hyx⟩ := TransGen.tail'_iff.mp hx
          exact huniv y x hyx) fuel entry.2.dedup [] (nodup_dedup _) nodup_nil (fun _ _ => not_mem_nil)
        (fun x hx => .single ((hmem x).mp (hx.resolve_left not_mem_nil)))
        (fun _ h => absurd h not_mem_nil) (by rw [length_nil]; omega)
      refine ⟨(entry.1, out), by rw [hout], rfl, fun x => ⟨hsound x, fun hx => ?_⟩⟩
      induction hx with
      | single ha => exact hkeep _ (.inr ((hmem _).mpr ha))
      | tail _ hbc ih => exact hclosed _ ih _ hbc
  refine ⟨chains, hrun, ?_, ?_⟩
  · intro e chain hmem
    obtain ⟨entry, hentry, rfl, hchain⟩ := exists_left_of_forall₂ hall hmem
    exact ⟨mem_keys.mpr (mem_map_of_mem (mem_filter.mp hentry).1), hchain⟩
  · intro S hS e he hlisted
    obtain ⟨l, hl⟩ := Dict.exists_lookup hlisted
    have hentry : ⟨e, l⟩ ∈
        eventToAuthIds.entries.filter fun entry => stateSets.any (entry.1 ∈ ·) := by
      rw [mem_filter, any_eq_true]
      exact ⟨mem_lookup_iff.mp hl, S, hS, by simpa using he⟩
    obtain ⟨⟨x, chain⟩, hmem, rfl, _⟩ := exists_right_of_forall₂ hall hentry
    exact ⟨chain, hmem⟩

end

/-! ## Rewriting a state set -/

section
variable {T : Tables ε ρ τ} {roomId : ρ} {S cur un haveChainIndex : List ε}

/-- A state set `S` on its way to its indexed part `cur` and un-indexed part `un`. -/
structure FixedUp (T : Tables ε ρ τ) (S cur un : List ε) : Prop where
  reached : ∀ {x}, x ∈ cur → Reaches T.Auth S x
  own : ∀ {x}, x ∈ cur → x ∉ T.eventAuthChains → x ∈ S
  unindexed : ∀ {x}, x ∈ un → x ∉ T.eventAuthChains ∧ Reaches T.Auth S x
  kept : ∀ {x}, x ∈ S → x ∈ cur ∨ x ∈ un
  movedIndexed : ∀ {x y}, x ∈ un → T.Auth x y → y ∈ T.eventAuthChains → y ∈ cur
  movedUnindexed : ∀ {x y}, x ∈ un → T.Auth x y → y ∉ T.eventAuthChains → y ∈ un

theorem mem_addAuthChain (authChain : List ε) {x : ε} :
    (x ∈ (addAuthChain haveChainIndex authChain (cur, un)).1 ↔
        x ∈ cur ∨ x ∈ authChain ∧ x ∈ haveChainIndex) ∧
      (x ∈ (addAuthChain haveChainIndex authChain (cur, un)).2 ↔
        x ∈ un ∨ x ∈ authChain ∧ x ∉ haveChainIndex) := by
  refine foldl_inv (I := fun done (s : List ε × List ε) =>
    (x ∈ s.1 ↔ x ∈ cur ∨ x ∈ done ∧ x ∈ haveChainIndex) ∧
      (x ∈ s.2 ↔ x ∈ un ∨ x ∈ done ∧ x ∉ haveChainIndex)) authChain
    (fun done a rest s _ h => ?_) (by simp)
  simp only [mem_append, mem_singleton, or_and_right, ← or_assoc, ← h.1, ← h.2]
  split
  next ha =>
    refine ⟨?_, (or_iff_left ?_).symm⟩
    · rw [mem_insert_iff, or_comm]
      refine or_congr_right (and_iff_left_of_imp ?_).symm
      rintro rfl
      exact ha
    · rintro ⟨rfl, hx⟩
      exact hx ha
  next ha =>
    refine ⟨(or_iff_left ?_).symm, ?_⟩
    · rintro ⟨rfl, hx⟩
      exact ha hx
    · rw [mem_insert_iff, or_comm]
      refine or_congr_right (and_iff_left_of_imp ?_).symm
      rintro rfl
      exact ha

/-- An event that is not taken for an indexed one leaves the state set for good. -/
theorem not_mem_foldl_rewriteEvent (chains : List (ε × List ε)) {x : ε}
    (hx : ∀ e chain, (e, chain) ∈ chains → x ∈ chain → x ∉ haveChainIndex)
    (hout : (∃ chain, (x, chain) ∈ chains) ∨ x ∉ cur) :
    x ∉ (chains.foldl (Storage.rewriteEvent haveChainIndex) (cur, un)).1 := by
  refine foldl_inv (I := fun done (s : List ε × List ε) =>
    (∃ chain, (x, chain) ∈ done) ∨ x ∉ cur → x ∉ s.1) chains
    (fun done entry rest s hs h hout hmem => ?_) (fun hx => hx.resolve_left (by simp)) hout
  obtain ⟨e, chain⟩ := entry
  have hkept : x ∈ s.1 ∧ (x = e → e ∉ s.1) := by
    unfold Storage.rewriteEvent at hmem
    split at hmem
    · rw [(mem_addAuthChain chain).1, mem_filter, decide_eq_true_eq] at hmem
      obtain ⟨hmem, hne, _⟩ := hmem.resolve_right fun h => hx e chain (by simp [hs]) h.1 h.2
      exact ⟨hmem, fun heq => absurd heq hne⟩
    next he => exact ⟨hmem, fun _ => he⟩
  refine h (hout.imp_left fun ⟨c, hc⟩ => ⟨c, (mem_append.mp hc).resolve_right fun hc => ?_⟩) hkept.1
  obtain rfl : x = e := congrArg Prod.fst (mem_singleton.mp hc)
  exact hkept.2 rfl hkept.1

section
variable (hlisted : ∀ {x}, Reaches T.Auth S x → x ∉ T.eventAuthChains → Listed T roomId x)
  (hhave : ∀ {x y}, ListedAuth T roomId y x → (x ∈ haveChainIndex ↔ x ∈ T.eventAuthChains))
include hhave

theorem mem_haveChainIndex_iff {e : ε} {chain : List ε}
    (hchain : ∀ x, x ∈ chain ↔ TransGen (ListedAuth T roomId) e x) {x : ε} (hx : x ∈ chain) :
    x ∈ haveChainIndex ↔ x ∈ T.eventAuthChains := by
  obtain ⟨y, _, hyx⟩ := TransGen.tail'_iff.mp ((hchain x).mp hx)
  exact hhave hyx

include hlisted

/-- One un-indexed event. -/
theorem FixedUp.rewriteEvent {e : ε} {chain : List ε} (he : e ∉ T.eventAuthChains ∧ Listed T roomId e)
    (hchain : ∀ x, x ∈ chain ↔ TransGen (ListedAuth T roomId) e x) (h : FixedUp T S cur un) :
    FixedUp T S (Storage.rewriteEvent haveChainIndex (cur, un) (e, chain)).1
        (Storage.rewriteEvent haveChainIndex (cur, un) (e, chain)).2 := by
  unfold Storage.rewriteEvent
  by_cases hmem : e ∈ cur
  · simp only [if_pos hmem]
    have hreach : ∀ {x}, x ∈ chain → Reaches T.Auth S x := by
      intro x hx
      refine (h.reached hmem).trans (TransGen.to_reflTransGen ?_)
      exact TransGen.mono (fun _ _ hab => hab.2) _ _ ((hchain x).mp hx)
    have hcur : ∀ {x}, x ∈ (addAuthChain haveChainIndex chain
        (cur.filter fun x => x ≠ e ∧ x ∉ chain, un.insert e)).1 ↔
        (x ∈ cur ∧ x ≠ e ∧ x ∉ chain) ∨ x ∈ chain ∧ x ∈ T.eventAuthChains := by
      intro x
      rw [(mem_addAuthChain chain).1, mem_filter, decide_eq_true_eq]
      exact or_congr_right (and_congr_right fun hx => mem_haveChainIndex_iff hhave hchain hx)
    have hun : ∀ {x}, x ∈ (addAuthChain haveChainIndex chain
        (cur.filter fun x => x ≠ e ∧ x ∉ chain, un.insert e)).2 ↔
        (x = e ∨ x ∈ un) ∨ x ∈ chain ∧ x ∉ T.eventAuthChains := by
      intro x
      rw [(mem_addAuthChain chain).2, mem_insert_iff]
      exact or_congr_right (and_congr_right fun hx => not_congr (mem_haveChainIndex_iff hhave hchain hx))
    -- an auth event of the event or of an un-indexed event of its chain is on the chain
    have hnext : ∀ {x y}, x = e ∨ x ∈ chain ∧ x ∉ T.eventAuthChains → T.Auth x y → y ∈ chain := by
      rintro x y (rfl | ⟨hx, hxun⟩) hxy
      · exact (hchain y).mpr (.single ⟨he.2, hxy⟩)
      · exact (hchain y).mpr (((hchain x).mp hx).tail ⟨hlisted (hreach hx) hxun, hxy⟩)
    refine ⟨?_, ?_, ?_, ?_, ?_, ?_⟩
    · intro x hx
      rcases hcur.mp hx with ⟨hx, _⟩ | ⟨hx, _⟩
      · exact h.reached hx
      · exact hreach hx
    · intro x hx hxun
      rcases hcur.mp hx with ⟨hx, _⟩ | ⟨_, hx⟩
      · exact h.own hx hxun
      · exact absurd hx hxun
    · intro x hx
      rcases hun.mp hx with (rfl | hx) | ⟨hx, hxun⟩
      · exact ⟨he.1, h.reached hmem⟩
      · exact h.unindexed hx
      · exact ⟨hxun, hreach hx⟩
    · intro x hx
      rw [hcur, hun]
      have hkept := h.kept hx
      tauto
    · intro x y hx hxy hy
      rw [hcur]
      by_cases hyc : y ∈ chain
      · exact .inr ⟨hyc, hy⟩
      rcases hun.mp hx with (rfl | hx) | hx
      · exact absurd (hnext (.inl rfl) hxy) hyc
      · exact .inl ⟨h.movedIndexed hx hxy hy, fun hye => he.1 (hye ▸ hy), hyc⟩
      · exact absurd (hnext (.inr hx) hxy) hyc
    · intro x y hx hxy hy
      rw [hun]
      rcases hun.mp hx with (rfl | hx) | hx
      · exact .inr ⟨hnext (.inl rfl) hxy, hy⟩
      · exact .inl (.inr (h.movedUnindexed hx hxy hy))
      · exact .inr ⟨hnext (.inr hx) hxy, hy⟩
  · simp only [if_neg hmem]
    exact h

end

section
variable (hclosed : ∀ {e a}, e ∈ T.eventAuthChains → T.Auth e a → a ∈ T.eventAuthChains)
include hclosed

omit [DecidableEq ε] in
theorem indexed_of_reflTransGen {x y : ε} (hx : x ∈ T.eventAuthChains)
    (hxy : ReflTransGen T.Auth x y) : y ∈ T.eventAuthChains := by
  induction hxy with
  | refl => exact hx
  | tail _ hbc ih => exact hclosed ih hbc

/-- When no un-indexed event is left, the two parts are the two halves of what the set reaches. -/
theorem FixedUp.complete (h : FixedUp T S cur un) (hcur : ∀ x ∈ cur, x ∈ T.eventAuthChains) (x : ε) :
    (Reaches T.Auth cur x ↔ x ∈ T.eventAuthChains ∧ Reaches T.Auth S x) ∧
      (x ∈ un ↔ x ∉ T.eventAuthChains ∧ Reaches T.Auth S x) := by
  have hforward : Reaches T.Auth S x →
      (x ∈ T.eventAuthChains → Reaches T.Auth cur x) ∧ (x ∉ T.eventAuthChains → x ∈ un) := by
    rintro ⟨s, hs, hsx⟩
    induction hsx with
    | refl =>
      rcases h.kept hs with hs | hs
      · exact ⟨fun _ => .of_mem hs, fun hn => absurd (hcur s hs) hn⟩
      · exact ⟨fun hi => absurd hi (h.unindexed hs).1, fun _ => hs⟩
    | @tail b c _ hbc ih =>
      by_cases hb : b ∈ T.eventAuthChains
      · exact ⟨fun _ => (ih.1 hb).trans (.single hbc), fun hn => absurd (hclosed hb hbc) hn⟩
      · exact ⟨fun hi => .of_mem (h.movedIndexed (ih.2 hb) hbc hi), h.movedUnindexed (ih.2 hb) hbc⟩
  constructor
  · constructor
    · rintro ⟨y, hy, hyx⟩
      exact ⟨indexed_of_reflTransGen hclosed (hcur y hy) hyx, (h.reached hy).trans hyx⟩
    · rintro ⟨hi, hr⟩
      exact (hforward hr).1 hi
  · exact ⟨h.unindexed, fun ⟨hn, hr⟩ => (hforward hr).2 hn⟩

end

/-- **Fixing up a state set.**  It is left with indexed events that reach what it reached among
these, and its un-indexed part is the un-indexed events it reaches. -/
theorem fixupStateSet_spec {stateSets : List (List ε)} (hT : ToCalculate T roomId stateSets)
    (hhave : ∀ {x y}, ListedAuth T roomId y x → (x ∈ haveChainIndex ↔ x ∈ T.eventAuthChains))
    (chains : List (ε × List ε)) (hchains : ∀ e chain, (e, chain) ∈ chains → Listed T roomId e ∧
      ∀ x, x ∈ chain ↔ TransGen (ListedAuth T roomId) e x)
    (hall : ∀ S ∈ stateSets, ∀ e ∈ S, Listed T roomId e → ∃ chain, (e, chain) ∈ chains)
    (hS : S ∈ stateSets) : (∀ x ∈ (fixupStateSet chains haveChainIndex S).1, x ∈ T.eventAuthChains) ∧
      ∀ x, (Reaches T.Auth (fixupStateSet chains haveChainIndex S).1 x ↔
          x ∈ T.eventAuthChains ∧ Reaches T.Auth S x) ∧
        (x ∈ (fixupStateSet chains haveChainIndex S).2 ↔ x ∉ T.eventAuthChains ∧ Reaches T.Auth S x) := by
  have hstart : FixedUp T S S [] := ⟨.of_mem, fun hx _ => hx, fun hx => absurd hx not_mem_nil, .inl,
      fun hx => absurd hx not_mem_nil, fun hx => absurd hx not_mem_nil⟩
  have h := foldl_inv (s := (S, [])) (I := fun _ s => FixedUp T S s.1 s.2) chains
    (fun done entry rest s hs h => by
      obtain ⟨hlisted, hchain⟩ := hchains entry.1 entry.2 (by simp [hs])
      exact h.rewriteEvent (hT.listed hS) hhave ⟨hlisted.elim fun t ht => hT.unindexed ht, hlisted⟩ hchain)
    hstart
  have hindexed : ∀ x ∈ (fixupStateSet chains haveChainIndex S).1, x ∈ T.eventAuthChains := by
    intro x hx
    by_contra hxun
    have hxS : x ∈ S := h.own hx hxun
    refine not_mem_foldl_rewriteEvent chains (fun e chain hmem hxchain => ?_)
      (.inl (hall S hS x hxS (hT.listed hS (.of_mem hxS) hxun))) hx
    rwa [mem_haveChainIndex_iff hhave (hchains e chain hmem).2 hxchain]
  exact ⟨hindexed, h.complete hT.closed hindexed⟩

end

/-! ## The difference -/

section
variable {T : Tables ε ρ τ} {roomId : ρ} {stateSets : List (List ε)}

theorem mem_unionMinusIntersection {sets : List (List ε)} {x : ε} :
    x ∈ unionMinusIntersection sets ↔ (∃ S ∈ sets, x ∈ S) ∧ ∃ S ∈ sets, x ∉ S := by
  rw [unionMinusIntersection, mem_filter, mem_dedup, mem_flatten, decide_eq_true_eq]
  simp only [not_forall, exists_prop]

/-- What `_fixup_auth_chain_difference_sets` does, with the partial auth chains of the listed events and
the events it takes for indexed ones. -/
theorem fixupAuthChainDifferenceSets_eq [DecidableEq ρ] (roomId : ρ) (stateSets : List (List ε))
    {univ : List ε} (huniv : ∀ a b, T.Auth a b → b ∈ univ) {fuel : ℕ} (hfuel : univ.length < fuel)
    (eventsMissing haveChainIndex : List ε) :
    ∃ chains haveIndex, (∀ e chain, (e, chain) ∈ chains → Listed T roomId e ∧
        ∀ x, x ∈ chain ↔ TransGen (ListedAuth T roomId) e x) ∧
      (∀ S ∈ stateSets, ∀ e ∈ S, Listed T roomId e → ∃ chain, (e, chain) ∈ chains) ∧
      (∀ a, a ∈ haveIndex ↔
        a ∈ haveChainIndex ∨ a ∈ T.eventAuthChains ∧ ∃ e, ListedAuth T roomId e a) ∧
      ((∃ e ∈ eventsMissing, ¬ Listed T roomId e) →
        fixupAuthChainDifferenceSets T roomId fuel stateSets eventsMissing haveChainIndex =
          .error .noChainCoverIndex) ∧
      ((∀ e ∈ eventsMissing, Listed T roomId e) →
        fixupAuthChainDifferenceSets T roomId fuel stateSets eventsMissing haveChainIndex =
          .ok (unionMinusIntersection ((stateSets.map (fixupStateSet chains haveIndex)).map (·.2)),
            (stateSets.map (fixupStateSet chains haveIndex)).map (·.1))) := by
  obtain ⟨hkeys, hauth, hhave⟩ := readToCalculate_rows T roomId haveChainIndex
  unfold fixupAuthChainDifferenceSets
  cases hread : readToCalculate (toCalculateRows T roomId) haveChainIndex with
  | mk eventToAuthIds haveIndex =>
  rw [hread] at hkeys hauth hhave
  obtain ⟨chains, hrun, hchains, hall⟩ := partialAuthChains_spec hauth
    (fun a b hab => huniv a b hab.2) hfuel stateSets
  simp only [hkeys] at hchains hall
  have hany : eventsMissing.any (· ∉ eventToAuthIds) = true ↔ ∃ e ∈ eventsMissing, ¬ Listed T roomId e := by
    simp only [any_eq_true, decide_eq_true_eq, hkeys]
  refine ⟨chains, haveIndex, hchains, hall, hhave, fun h => if_pos (hany.mpr h), fun h => ?_⟩
  have hany' : ¬ (eventsMissing.any (· ∉ eventToAuthIds)) = true := fun hmissing => by
    obtain ⟨e, he, hnot⟩ := hany.mp hmissing
    exact hnot (h e he)
  simp only [if_neg hany', hrun]
  rfl

/-- `_fixup_auth_chain_difference_sets` returns the un-indexed part of the difference and leaves
state sets of indexed events that reach the rest. -/
theorem fixupAuthChainDifferenceSets_spec [DecidableEq ρ] (hT : T.AuthDag)
    (hcalc : ToCalculate T roomId stateSets) {fuel : ℕ} (hfuel : T.events.keys.length < fuel)
    (eventsMissing haveChainIndex : List ε)
    (hmissing : ∀ e ∈ eventsMissing, e ∉ T.eventAuthChains ∧ ∃ S ∈ stateSets, e ∈ S)
    (hhave : ∀ e ∈ haveChainIndex, e ∈ T.eventAuthChains) :
    ∃ result sets, fixupAuthChainDifferenceSets T roomId fuel stateSets eventsMissing haveChainIndex
        = .ok (result, sets) ∧
      (∀ x, x ∈ result ↔ x ∉ T.eventAuthChains ∧ T.AuthChainDifference stateSets x) ∧
      List.Forall₂ (fun S S' => (∀ x ∈ S', x ∈ T.eventAuthChains) ∧
        ∀ x, Reaches T.Auth S' x ↔ x ∈ T.eventAuthChains ∧ Reaches T.Auth S x) stateSets sets := by
  obtain ⟨chains, haveIndex, hchains, hall, hhave', _, hfix⟩ := fixupAuthChainDifferenceSets_eq roomId
    stateSets (fun a b hab => hT.persisted hab) hfuel eventsMissing haveChainIndex
  have hindex : ∀ {x y}, ListedAuth T roomId y x → (x ∈ haveIndex ↔ x ∈ T.eventAuthChains) := by
    intro x y hyx
    rw [hhave' x]
    exact ⟨fun h => h.elim (hhave x) And.left, fun h => .inr ⟨h, y, hyx⟩⟩
  have hspec := fun {S} hS => fixupStateSet_spec (S := S) hcalc hindex chains hchains hall hS
  refine ⟨_, _, hfix fun e he => ?_, ?_, ?_⟩
  · obtain ⟨hun, S, hS, heS⟩ := hmissing e he
    exact hcalc.listed hS (.of_mem heS) hun
  · intro x
    rw [mem_unionMinusIntersection]
    simp only [mem_map, exists_exists_and_eq_and, Tables.AuthChainDifference, ReachDifference]
    constructor
    · rintro ⟨⟨S, hS, hx⟩, S', hS', hx'⟩
      obtain ⟨hun, hr⟩ := ((hspec hS).2 x).2.mp hx
      refine ⟨hun, ⟨S, hS, hr⟩, S', hS', fun hr' => hx' ?_⟩
      exact ((hspec hS').2 x).2.mpr ⟨hun, hr'⟩
    · rintro ⟨hun, ⟨S, hS, hr⟩, S', hS', hr'⟩
      refine ⟨⟨S, hS, ((hspec hS).2 x).2.mpr ⟨hun, hr⟩⟩, S', hS', fun hx' => hr' ?_⟩
      exact (((hspec hS').2 x).2.mp hx').2
  · rw [forall₂_map_right_iff, forall₂_map_right_iff, forall₂_same]
    exact fun S hS => ⟨(hspec hS).1, fun x => ((hspec hS).2 x).1⟩

theorem mem_fetchedChainInfo {x : ε} : x ∈ (fetchChainInfo T .empty stateSets.flatten.dedup).chainInfo ↔
    x ∈ T.eventAuthChains ∧ ∃ S ∈ stateSets, x ∈ S := by
  rw [(fetchChainInfo_spec ChainInfo.sound_empty _).2, mem_dedup, mem_flatten]
  exact or_iff_right (notMem_empty x)

theorem mem_eventsMissing {x : ε} : x ∈ stateSets.flatten.dedup.filter
      (· ∉ (fetchChainInfo T .empty stateSets.flatten.dedup).chainInfo) ↔
    x ∉ T.eventAuthChains ∧ ∃ S ∈ stateSets, x ∈ S := by
  rw [mem_filter, decide_eq_true_eq, mem_fetchedChainInfo, mem_dedup, mem_flatten, and_comm]
  exact and_congr_left fun h => not_congr (and_iff_left h)

/-- **The auth chain difference by the cover index.**  For every auth graph whose auth events are
persisted, every chain cover of the indexed events and every set of un-indexed events below which
the index is complete, the function returns exactly the events that are in some, but not all, of
the state sets together with their auth chains. -/
theorem mem_getAuthChainDifferenceUsingCoverIndexTxn [DecidableEq ρ] (hT : T.AuthDag)
    (hcover : ChainCover T) (hcalc : ToCalculate T roomId stateSets) (hsets : stateSets ≠ [])
    {fuel : ℕ} (hfuel : T.events.keys.length < fuel) :
    ∃ result, getAuthChainDifferenceUsingCoverIndexTxn T roomId fuel stateSets = .ok result ∧
      ∀ x, x ∈ result ↔ T.AuthChainDifference stateSets x := by
  have hinfo := (fetchChainInfo_spec (T := T) ChainInfo.sound_empty stateSets.flatten.dedup).1
  rw [getAuthChainDifferenceUsingCoverIndexTxn, if_neg hsets]
  split
  next hmissing =>
    -- every event of the state sets has a chain
    have hindexed : ∀ S ∈ stateSets, ∀ x ∈ S, x ∈ T.eventAuthChains := by
      intro S hS x hx
      by_contra hnot
      have hmem := mem_eventsMissing.mpr ⟨hnot, S, hS, hx⟩
      rw [hmissing] at hmem
      exact not_mem_nil hmem
    have hall := fun S hS x hx => mem_fetchedChainInfo.mpr ⟨hindexed S hS x hx, S, hS, hx⟩
    obtain ⟨out, hout, hmem⟩ := coverDifference_spec hcover hinfo hsets hall []
    refine ⟨out, hout, fun x => ?_⟩
    rw [hmem, or_iff_right not_mem_nil, and_iff_right_iff_imp]
    rintro ⟨⟨S, hS, s, hs, hsx⟩, _⟩
    exact indexed_of_reflTransGen hcalc.closed (hindexed S hS s hs) hsx
  · obtain ⟨result, sets, hfix, hresult, hfixed⟩ := fixupAuthChainDifferenceSets_spec hT hcalc hfuel
      _ (fetchChainInfo T .empty stateSets.flatten.dedup).chainInfo.keys
      (fun e he => mem_eventsMissing.mp he)
      (fun e he => (mem_fetchedChainInfo.mp (mem_keys.mp he)).1)
    obtain ⟨hinfo', hknown⟩ := fetchChainInfo_spec hinfo
      (sets.flatten.dedup.filter (· ∉ stateSets.flatten.dedup))
    have hne : sets ≠ [] := by
      rintro rfl
      exact hsets (forall₂_nil_right_iff.mp hfixed)
    obtain ⟨out, hout, hmem⟩ := coverDifference_spec hcover hinfo' hne (fun S' hS' x hx => by
        obtain ⟨S, _, hindexed, _⟩ := exists_left_of_forall₂ hfixed hS'
        rw [hknown, mem_fetchedChainInfo]
        by_cases hx' : x ∈ stateSets.flatten.dedup
        · exact .inl ⟨hindexed x hx, mem_flatten.mp (mem_dedup.mp hx')⟩
        · refine .inr ⟨hindexed x hx, mem_filter.mpr ⟨?_, decide_eq_true hx'⟩⟩
          rw [mem_dedup, mem_flatten]
          exact ⟨S', hS', hx⟩) result
    refine ⟨out, ?_, fun x => ?_⟩
    · rw [hfix]
      exact hout
    · rw [hmem, hresult]
      by_cases hx : x ∈ T.eventAuthChains
      · -- an indexed event: the rewritten sets reach it exactly when the given ones do
        rw [or_iff_right fun h => h.1 hx, and_iff_right hx]
        have hreach : ∀ S S', ((∀ x ∈ S', x ∈ T.eventAuthChains) ∧
            ∀ x, Reaches T.Auth S' x ↔ x ∈ T.eventAuthChains ∧ Reaches T.Auth S x) →
            (Reaches T.Auth S x ↔ Reaches T.Auth S' x) :=
          fun S S' h => ((h.2 x).trans (and_iff_right hx)).symm
        exact (and_congr (exists_mem_iff_of_forall₂ hfixed hreach)
          (exists_mem_iff_of_forall₂ hfixed fun S S' h => not_congr (hreach S S' h))).symm
      · rw [or_iff_left fun h => hx h.1, and_iff_right hx]

end

/-! ## A room with an un-indexed event -/

/-- Four events, each citing the one before: two in a first chain, one in a second chain that links
to it, and one that has no chain yet. -/
def ladder : Tables ℕ Unit Unit where
  events := Dict.ofKeys [0, 1, 2, 3] fun e => ⟨(), some (), e⟩
  eventAuth := [(1, 0), (2, 1), (3, 2)]
  eventAuthChains := Dict.ofKeys [0, 1, 2] fun e => [(1, 1), (1, 2), (2, 1)].getD e (0, 0)
  eventAuthChainLinks := [((2, 1), (1, 2))]
  eventAuthChainToCalculate := Dict.ofKeys [3] fun _ => ((), ())

theorem ladder_auth {a b : ℕ} : ladder.Auth a b ↔ a = b + 1 ∧ b < 3 := by
  simp only [Tables.Auth, ladder, mem_cons, Prod.mk.injEq, not_mem_nil, or_false]
  omega

theorem ladder_transGen {a b : ℕ} : TransGen ladder.Auth a b ↔ b < a ∧ a ≤ 3 := by
  constructor
  · intro h
    induction h with
    | single h =>
      have := ladder_auth.mp h
      omega
    | tail _ h ih =>
      have := ladder_auth.mp h
      omega
  · rintro ⟨hlt, hle⟩
    induction a with
    | zero => omega
    | succ a ih =>
      have hstep : ladder.Auth (a + 1) a := ladder_auth.mpr ⟨rfl, by omega⟩
      rcases Nat.lt_succ_iff_lt_or_eq.mp hlt with hlt | rfl
      · exact .head hstep (ih hlt (by omega))
      · exact .single hstep

theorem ladder_lookup {e c s : ℕ} (h : ladder.eventAuthChains.lookup e = some (c, s)) :
    (e = 0 ∧ c = 1 ∧ s = 1) ∨ (e = 1 ∧ c = 1 ∧ s = 2) ∨ (e = 2 ∧ c = 2 ∧ s = 1) := by
  obtain ⟨hmem, h⟩ := Dict.lookup_ofKeys_eq_some.mp h
  simp only [mem_cons, not_mem_nil, or_false] at hmem
  rcases hmem with rfl | rfl | rfl <;> simp at h <;> omega

theorem ladder_authDag : ladder.AuthDag where
  acyclic := fun a h => by
    have := ladder_transGen.mp h
    omega
  persisted := by
    have hmem : ∀ row ∈ ladder.eventAuth, row.2 ∈ ladder.events := by decide
    exact fun {a b} hab => hmem (a, b) hab

theorem ladder_chainCover : ChainCover ladder where
  pos h := by
    have := ladder_lookup h
    omega
  inj {e e' p} h h' := by
    have := ladder_lookup h
    have := ladder_lookup h'
    omega
  origin h := by
    simp only [ladder, mem_singleton, Prod.mk.injEq] at h
    exact ⟨2, by rw [h.1]; decide⟩
  target h := by
    simp only [ladder, mem_singleton, Prod.mk.injEq] at h
    exact ⟨1, by rw [h.2]; decide⟩
  exact {a b ca sa cb sb} ha hb := by
    have ha := ladder_lookup ha
    have hb := ladder_lookup hb
    rw [ladder_transGen]
    constructor
    · intro hlt
      by_cases hchain : ca = cb
      · exact .inl (by omega)
      · refine .inr ⟨1, 2, ?_, by omega, by omega⟩
        obtain ⟨rfl, rfl⟩ : ca = 2 ∧ cb = 1 := by omega
        decide
    · rintro (h | ⟨s₁, s₂, hlink, h₁, h₂⟩)
      · omega
      · simp only [ladder, mem_singleton, Prod.mk.injEq] at hlink
        omega

theorem ladder_toCalculate : ToCalculate ladder () [[3], [1]] where
  closed {e a} he hea := by
    have hea := ladder_auth.mp hea
    obtain ⟨⟨c, s⟩, hp⟩ := Dict.exists_lookup he
    have hmem : ∀ x ∈ [0, 1], x ∈ ladder.eventAuthChains := by decide
    have he := ladder_lookup hp
    exact hmem a (by simp only [mem_cons, not_mem_nil, or_false]; omega)
  listed {S e} hS hr he := by
    obtain ⟨s, hs, hse⟩ := hr
    have hle : s ≤ 3 := by
      rcases mem_pair.mp hS with rfl | rfl <;> simp at hs <;> omega
    have hee : e ≤ 3 := by
      rcases reflTransGen_iff_eq_or_transGen.mp hse with rfl | h
      · exact hle
      · have := ladder_transGen.mp h
        omega
    have hmem : ∀ x ∈ [0, 1, 2], x ∈ ladder.eventAuthChains := by decide
    obtain rfl : e = 3 := by
      by_contra hne
      exact he (hmem e (by simp only [mem_cons, not_mem_nil, or_false]; omega))
    exact ⟨(), by decide⟩
  unindexed {e t} h := by
    obtain rfl := mem_singleton.mp (Dict.lookup_ofKeys_eq_some.mp h).1
    decide

theorem mem_getAuthChainDifferenceUsingCoverIndexTxn_ladder :
    getAuthChainDifferenceUsingCoverIndexTxn ladder () 5 [[3], [1]] = .ok [3, 2] ∧
      ∃ result, getAuthChainDifferenceUsingCoverIndexTxn ladder () 5 [[3], [1]] = .ok result ∧
        ∀ x, x ∈ result ↔ ladder.AuthChainDifference [[3], [1]] x :=
  ⟨by decide, mem_getAuthChainDifferenceUsingCoverIndexTxn ladder_authDag ladder_chainCover
    ladder_toCalculate (by decide) (by decide)⟩

/-! ## A second run -/

section
variable [DecidableEq ρ] (T : Tables ε ρ τ) (roomId : ρ) (fuel : ℕ) (stateSets : List (List ε))

/-- The caller's `state_sets` after the call: `_fixup_auth_chain_difference_sets` rewrites them in place. -/
def stateSetsAfter : List (List ε) :=
  let initialEvents := stateSets.flatten.dedup
  let info := fetchChainInfo T .empty initialEvents
  let eventsMissingChainInfo := initialEvents.filter (· ∉ info.chainInfo)
  if eventsMissingChainInfo = [] then stateSets
  else
    match fixupAuthChainDifferenceSets T roomId fuel stateSets eventsMissingChainInfo
      info.chainInfo.keys with
    | .ok (_, sets) => sets
    | .error _ => stateSets

/-- The function can be run again: it leaves the state sets as they are, and on what it leaves it returns
the same set. -/
structure Retriable : Prop where
  unchanged : List.Forall₂ (fun S S' => ∀ x, x ∈ S' ↔ x ∈ S) stateSets
    (stateSetsAfter T roomId fuel stateSets)
  same : (getAuthChainDifferenceUsingCoverIndexTxn T roomId fuel
      (stateSetsAfter T roomId fuel stateSets)).map toFinset =
    (getAuthChainDifferenceUsingCoverIndexTxn T roomId fuel stateSets).map toFinset

/-- **The function can be run again exactly if it has nothing to rewrite**: all events of the state sets
are indexed, or one of them is neither indexed nor listed, and it gives up. -/
theorem retriable_iff (hfuel : T.eventAuth.length < fuel) : Retriable T roomId fuel stateSets ↔
    (∀ S ∈ stateSets, ∀ e ∈ S, e ∈ T.eventAuthChains) ∨
      ∃ S ∈ stateSets, ∃ e ∈ S, e ∉ T.eventAuthChains ∧ ¬ Listed T roomId e := by
  have hkept : stateSetsAfter T roomId fuel stateSets = stateSets → Retriable T roomId fuel stateSets := by
    intro h
    refine ⟨?_, by rw [h]⟩
    rw [h, forall₂_same]
    exact fun _ _ _ => Iff.rfl
  obtain ⟨chains, haveIndex, hchains, hall, hhave, hraise, hfix⟩ := fixupAuthChainDifferenceSets_eq roomId
    stateSets (fun a b hab => mem_map_of_mem (f := Prod.snd) hab)
    (by rwa [length_map]) (stateSets.flatten.dedup.filter
      (· ∉ (fetchChainInfo T .empty stateSets.flatten.dedup).chainInfo))
    (fetchChainInfo T .empty stateSets.flatten.dedup).chainInfo.keys
  constructor
  · intro h
    by_contra hnot
    push Not at hnot
    obtain ⟨⟨S, hS, e, he, hun⟩, hlisted⟩ := hnot
    -- all events without a place are listed, so this one has been replaced
    have hmissing := mem_eventsMissing.mpr ⟨hun, S, hS, he⟩
    have hunchanged := h.unchanged
    unfold stateSetsAfter at hunchanged
    rw [if_neg (ne_nil_of_mem hmissing), hfix fun e he => ?_, forall₂_map_right_iff,
      forall₂_map_right_iff, forall₂_same] at hunchanged
    · refine not_mem_foldl_rewriteEvent chains (fun _ _ _ _ hmem => ?_)
        (.inl (hall S hS e he (hlisted S hS e he hun))) ((hunchanged S hS e).mpr he)
      rcases (hhave e).mp hmem with hmem | hmem
      · exact hun (mem_fetchedChainInfo.mp (mem_keys.mp hmem)).1
      · exact hun hmem.1
    · obtain ⟨hun, S, hS, heS⟩ := mem_eventsMissing.mp he
      exact hlisted S hS e heS hun
  · intro h
    refine hkept ?_
    unfold stateSetsAfter
    rcases h with h | ⟨S, hS, e, he, hun, hnot⟩
    · refine if_pos (eq_nil_iff_forall_not_mem.mpr fun e he => ?_)
      obtain ⟨hun, S, hS, heS⟩ := mem_eventsMissing.mp he
      exact hun (h S hS e heS)
    · have hmissing := mem_eventsMissing.mpr ⟨hun, S, hS, he⟩
      rw [if_neg (ne_nil_of_mem hmissing), hraise ⟨e, hmissing, hnot⟩]

end

theorem retriable_iff_ladder : Retriable ladder () 5 [[2], [1]] :=
  (retriable_iff ladder () 5 [[2], [1]] (by decide)).mpr (.inl (by decide))

/-- The un-indexed event of the first state set is gone after the first run, and missing in the result of
the second one. -/
theorem not_retriable_ladder : stateSetsAfter ladder () 5 [[3], [1]] = [[2], [1]] ∧
    getAuthChainDifferenceUsingCoverIndexTxn ladder () 5 [[3], [1]] = .ok [3, 2] ∧
    getAuthChainDifferenceUsingCoverIndexTxn ladder () 5 [[2], [1]] = .ok [2] ∧
    ¬ Retriable ladder () 5 [[3], [1]] := by
  exact ⟨by decide, by decide, by decide, fun h => absurd h.same (by decide)⟩

end Synapse.Storage
