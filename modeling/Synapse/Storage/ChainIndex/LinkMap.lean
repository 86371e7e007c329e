import Synapse.Storage.EventTables
import Synapse.Util.Loops

/-!
# Links between chains

`_LinkMap` collects the links between chains while events are added to the chain cover index.  A link
`(c, s) → (d, t)` says that the event at place `s` of chain `c`, and so every later event of the chain,
reaches the first `t` events of chain `d`.  A new link is dropped if another one already says as much.

A new event gets a link to each of its auth events in another chain, except those that another of
its auth events reaches, and to whatever these link to.  The point of this file is that this is
enough: if the links were complete for the auth events, they are complete for the event
(`LinkInv.linkEvent`).  An auth event that was left out is below one that was not, and an event below an
auth event in the event's own chain is covered by the links of that chain.
-/

namespace Synapse.Storage

open Synapse.Util Relation List AList
open Option (some.inj)

/-! ## The code -/

/-- `_LinkMap`.  The nested dictionaries of `maps` are one dictionary with keys of a source chain, a
target chain and a source sequence number; `additions` are tuples in the source's order. -/
structure LinkMap where
  maps : Dict (ℕ × ℕ × ℕ) ℕ
  additions : List (ℕ × ℕ × ℕ × ℕ)

namespace LinkMap

def empty : LinkMap := ⟨∅, []⟩

variable (M : LinkMap)

/-- `get_links_between`. -/
def getLinksBetween (sourceChain targetChain : ℕ) : List (ℕ × ℕ) :=
  (M.maps.entries.filter fun l => l.1.1 = sourceChain ∧ l.1.2.1 = targetChain).map fun l => (l.1.2.2, l.2)

/-- `add_link`; `none` is the failed assertion. -/
def addLink (src target : ChainPos) (new : Bool) : Option (Bool × LinkMap) :=
  if src.1 = target.1 then none
  else if new ∧ (M.getLinksBetween src.1 target.1).any (fun l => l.1 ≤ src.2 ∧ target.2 ≤ l.2) then
    some (false, M)
  else
    some (true,
      { maps := M.maps.insert (src.1, target.1, src.2) target.2
        additions :=
          if new then M.additions.insert (src.1, src.2, target.1, target.2) else M.additions })

/-- `get_links_from`. -/
def getLinksFrom (src : ChainPos) : List ChainPos :=
  (M.maps.entries.filter fun l => l.1.1 = src.1 ∧ l.1.2.2 ≤ src.2).map fun l => (l.1.2.1, l.2)

/-- `get_additions`. -/
def getAdditions : List (ChainPos × ChainPos) := M.additions.filterMap fun a =>
    (M.maps.lookup (a.1, a.2.2.1, a.2.1)).map fun targetSeq => ((a.1, a.2.1), (a.2.2.1, targetSeq))

/-- `exists_path_from`. -/
def existsPathFrom (src target : ChainPos) : Bool :=
  if src.1 = target.1 then target.2 ≤ src.2
  else (M.getLinksBetween src.1 target.1).any fun l => l.1 ≤ src.2 ∧ target.2 ≤ l.2

end LinkMap

/-- `itertools.permutations(l, r=2)`: pairs of different positions of a list. -/
def permutations2 {α : Type} (l : List α) : List (α × α) :=
  l.zipIdx.flatMap fun a => (l.zipIdx.filter fun b => b.2 ≠ a.2).map fun b => (a.1, b.1)

section
variable {ε : Type} [DecidableEq ε]

def otherChains (chainMap : Dict ε ChainPos) (chainId : ℕ) (authIds : List ε) : Option (List ε) :=
  authIds.foldlM (fun acc aId => do
    let pos ← chainMap.lookup aId
    return if pos.1 ≠ chainId then acc.insert aId else acc) []

/-- The loop body over pairs of auth events: drop the second if the first reaches it. -/
def discardReachable (chainMap : Dict ε ChainPos) (M : LinkMap) (reduction : List ε) (pair : ε × ε) :
    Option (List ε) := do
  let start ← chainMap.lookup pair.1
  let stop ← chainMap.lookup pair.2
  return if M.existsPathFrom start stop then reduction.filter (· ≠ pair.2) else reduction

/-- The loop body of step 2b. -/
def addReachable (src : ChainPos) (M : LinkMap) (target : ChainPos) : Option LinkMap :=
  if target.1 = src.1 then some M else (M.addLink src target true).map Prod.snd

variable (o : IterOrder) (chainMap : Dict ε ChainPos)

/-- The loop body of step 2, for an auth event that was kept. -/
def linkAuth (src : ChainPos) (M : LinkMap) (authId : ε) : Option LinkMap := do
  let pos ← chainMap.lookup authId
  let (_, M) ← M.addLink src pos true
  (o.order (M.getLinksFrom pos)).foldlM (addReachable src) M

def linkEvent (eventToAuthChain : Dict ε (List ε)) (M : LinkMap) (eventId : ε) : Option LinkMap := do
  let pos ← chainMap.lookup eventId
  let authIds := eventToAuthChain.getD eventId []
  let reduction ← otherChains chainMap pos.1 authIds
  let reduction ← (permutations2 authIds).foldlM (discardReachable chainMap M) reduction
  (o.order reduction).foldlM (linkAuth o chainMap pos) M

end

/-! ## What a link map says -/

namespace LinkMap
variable {M : LinkMap} {p q src target : ChainPos}

/-- Some link covers the places `p` and `q`. -/
def Covers (M : LinkMap) (p q : ChainPos) : Prop :=
  ∃ s t, M.maps.lookup (p.1, q.1, s) = some t ∧ s ≤ p.2 ∧ q.2 ≤ t

theorem any_getLinksBetween :
    (M.getLinksBetween p.1 q.1).any (fun l => l.1 ≤ p.2 ∧ q.2 ≤ l.2) = true ↔ M.Covers p q := by
  simp only [any_eq_true, getLinksBetween, mem_map, mem_filter, decide_eq_true_eq]
  constructor
  · rintro ⟨_, ⟨⟨⟨c, d, s⟩, t⟩, ⟨hmem, rfl, rfl⟩, rfl⟩, hs, ht⟩
    exact ⟨s, t, mem_lookup_iff.mpr hmem, hs, ht⟩
  · rintro ⟨s, t, hlook, hs, ht⟩
    exact ⟨(s, t), ⟨⟨(p.1, q.1, s), t⟩, ⟨mem_lookup_iff.mp hlook, rfl, rfl⟩, rfl⟩, hs, ht⟩

theorem existsPathFrom_iff :
    M.existsPathFrom p q = true ↔ (p.1 = q.1 ∧ q.2 ≤ p.2) ∨ (p.1 ≠ q.1 ∧ M.Covers p q) := by
  unfold existsPathFrom
  split
  next h => simp [h]
  next h => simp [h, ← any_getLinksBetween]

theorem mem_getLinksFrom : target ∈ M.getLinksFrom src ↔
      ∃ s, M.maps.lookup (src.1, target.1, s) = some target.2 ∧ s ≤ src.2 := by
  simp only [getLinksFrom, mem_map, mem_filter, decide_eq_true_eq]
  constructor
  · rintro ⟨⟨⟨c, d, s⟩, t⟩, ⟨hmem, rfl, hs⟩, rfl⟩
    exact ⟨s, mem_lookup_iff.mpr hmem, hs⟩
  · rintro ⟨s, hlook, hs⟩
    exact ⟨⟨(src.1, target.1, s), target.2⟩, ⟨mem_lookup_iff.mp hlook, rfl, hs⟩, rfl⟩

/-- What adding links from one place does to a link map: nothing that was covered is lost, and what
is new starts at that place and is noted as an addition. -/
structure Grows (src : ChainPos) (M M' : LinkMap) : Prop where
  covers : ∀ {p q}, M.Covers p q → M'.Covers p q
  entry : ∀ {c d s t}, M'.maps.lookup (c, d, s) = some t →
    M.maps.lookup (c, d, s) = some t ∨ (c, s) = src ∧ ∃ t', (c, s, d, t') ∈ M'.additions
  additions : ∀ {a}, a ∈ M.additions → a ∈ M'.additions
  added : ∀ {c s d t}, (c, s, d, t) ∈ M'.additions → (c, s, d, t) ∈ M.additions ∨ (c, s) = src

theorem Grows.refl (M : LinkMap) : Grows src M M := ⟨id, .inl, id, .inl⟩

theorem Grows.trans {M₁ M₂ M₃ : LinkMap} (h : Grows src M₁ M₂) (h' : Grows src M₂ M₃) :
    Grows src M₁ M₃ where
  covers hc := h'.covers (h.covers hc)
  entry he := by
    rcases h'.entry he with he | he
    · rcases h.entry he with he | ⟨hsrc, t', ht'⟩
      · exact .inl he
      · exact .inr ⟨hsrc, t', h'.additions ht'⟩
    · exact .inr he
  additions ha := h'.additions (h.additions ha)
  added ha := by
    rcases h'.added ha with ha | ha
    · exact h.added ha
    · exact .inr ha

/-- Adding a link between two chains: it is covered from then on. -/
theorem addLink_spec (hne : src.1 ≠ target.1) :
    ∃ b M', M.addLink src target true = some (b, M') ∧ Grows src M M' ∧ M'.Covers src target ∧
      ∀ {c d s t}, M'.maps.lookup (c, d, s) = some t →
        M.maps.lookup (c, d, s) = some t ∨ (c, s) = src ∧ (d, t) = target := by
  obtain ⟨c₀, s₀⟩ := src
  obtain ⟨d₀, t₀⟩ := target
  unfold addLink
  rw [if_neg hne]
  simp only [true_and, if_true]
  split
  next hany =>
    exact ⟨false, M, rfl, .refl M, any_getLinksBetween.mp hany, .inl⟩
  next hnot =>
    have hnot : ¬ M.Covers (c₀, s₀) (d₀, t₀) := fun h => hnot (any_getLinksBetween.mpr h)
    have hentry : ∀ {c d s t}, (M.maps.insert (c₀, d₀, s₀) t₀).lookup (c, d, s) = some t →
        M.maps.lookup (c, d, s) = some t ∨ (c, s) = (c₀, s₀) ∧ (d, t) = (d₀, t₀) := by
      intro c d s t h
      rcases Dict.lookup_insert_cases h with ⟨hk, rfl⟩ | ⟨_, h⟩
      · obtain ⟨rfl, rfl, rfl⟩ : c = c₀ ∧ d = d₀ ∧ s = s₀ := by simpa using hk
        exact .inr ⟨rfl, rfl⟩
      · exact .inl h
    refine ⟨true, _, rfl, ⟨?_, ?_, ?_, ?_⟩, ?_, hentry⟩
    · -- an entry that is overwritten had a smaller target, or the new link would not be new
      rintro p q ⟨s, t, hlook, hs, ht⟩
      by_cases hk : (p.1, q.1, s) = (c₀, d₀, s₀)
      · obtain ⟨rfl, rfl, rfl⟩ : p.1 = c₀ ∧ q.1 = d₀ ∧ s = s₀ := by simpa using hk
        have hlt : t < t₀ := by
          by_contra hle
          exact hnot ⟨s, t, hlook, le_rfl, by omega⟩
        exact ⟨s, t₀, lookup_insert _, hs, by omega⟩
      · refine ⟨s, t, ?_, hs, ht⟩
        rw [lookup_insert_ne hk, hlook]
    · intro c d s t h
      rcases hentry h with h | ⟨hsrc, htarget⟩
      · exact .inl h
      · obtain ⟨rfl, rfl⟩ := Prod.mk.inj hsrc
        obtain ⟨rfl, rfl⟩ := Prod.mk.inj htarget
        exact .inr ⟨rfl, t, mem_insert_self⟩
    · exact fun ha => mem_insert_of_mem ha
    · intro c s d t ha
      rcases mem_insert_iff.mp ha with heq | ha
      · obtain ⟨rfl, rfl, _⟩ : c = c₀ ∧ s = s₀ ∧ _ := by simpa using heq
        exact .inr rfl
      · exact .inl ha
    · exact ⟨s₀, t₀, lookup_insert _, le_rfl, le_rfl⟩

end LinkMap

/-! ## Places of events -/

section
variable {ε : Type} {place : ε → Option ChainPos} {Auth : ε → ε → Prop}

/-- The places of the indexed events: each event has its own, chains start at one, and an event
further along cites the event before it. -/
structure Placement (place : ε → Option ChainPos) (Auth : ε → ε → Prop) : Prop where
  acyclic : Acyclic Auth
  pos : ∀ {e c s}, place e = some (c, s) → 0 < s
  inj : ∀ {e e' p}, place e = some p → place e' = some p → e = e'
  pred : ∀ {e c s}, place e = some (c, s + 1) → 0 < s → ∃ b, Auth e b ∧ place b = some (c, s)

namespace Placement
variable {a b : ε} {c s t : ℕ} (h : Placement place Auth) (ha : place a = some (c, s))
  (hb : place b = some (c, t))
include h ha hb

/-- An event reaches the earlier events of its chain. -/
theorem below (hlt : t < s) : TransGen Auth a b := by
  induction s generalizing a with
  | zero => omega
  | succ s ih =>
    have hpos := h.pos hb
    obtain ⟨x, hax, hx⟩ := h.pred ha (by omega)
    rcases Nat.lt_succ_iff_lt_or_eq.mp hlt with hlt | rfl
    · exact .head hax (ih hx hlt)
    · exact h.inj hx hb ▸ .single hax

/-- What an event reaches in its chain comes earlier. -/
theorem lt_of_transGen (hab : TransGen Auth a b) : t < s := by
  rcases Nat.lt_trichotomy t s with hlt | rfl | hgt
  · exact hlt
  · exact absurd (h.inj ha hb ▸ hab) (h.acyclic _)
  · exact absurd (hab.trans (h.below hb ha hgt)) (h.acyclic a)

theorem reflTransGen_of_le (hle : t ≤ s) : ReflTransGen Auth a b := by
  rcases hle.lt_or_eq with hlt | rfl
  · exact (h.below ha hb hlt).to_reflTransGen
  · exact h.inj ha hb ▸ .refl

theorem le_of_reflTransGen (hab : ReflTransGen Auth a b) : t ≤ s := by
  rcases reflTransGen_iff_eq_or_transGen.mp hab with rfl | hab
  · have heq := ha.symm.trans hb
    exact (Prod.mk.inj (some.inj heq)).2.ge
  · exact (h.lt_of_transGen ha hb hab).le

end Placement

/-- The links say only what is true, and all of it for the events of `P` in the chains of `K`. -/
structure LinkInv (place : ε → Option ChainPos) (Auth : ε → ε → Prop) (P : ε → Prop) (K : ℕ → Prop)
    (M : LinkMap) : Prop where
  sound : ∀ {c d s t}, M.maps.lookup (c, d, s) = some t →
    c ≠ d ∧ ∃ a b, place a = some (c, s) ∧ place b = some (d, t) ∧ TransGen Auth a b
  complete : ∀ {a b p q}, P a → place a = some p → K p.1 → place b = some q → p.1 ≠ q.1 →
    TransGen Auth a b → M.Covers p q

namespace LinkMap.Covers
variable {M : LinkMap} {p p' q q' : ChainPos}

/-- Later events reach more, and earlier events are reached more. -/
theorem mono (h : M.Covers p q) (hp : p.1 = p'.1) (hple : p.2 ≤ p'.2) (hq : q.1 = q'.1)
    (hqle : q'.2 ≤ q.2) : M.Covers p' q' := by
  obtain ⟨s, t, hlook, hs, ht⟩ := h
  exact ⟨s, t, hp ▸ hq ▸ hlook, hs.trans hple, hqle.trans ht⟩

end LinkMap.Covers

namespace LinkInv
variable {P : ε → Prop} {K : ℕ → Prop} {M M' : LinkMap} {a b e : ε} {p q : ChainPos}
  (h : LinkInv place Auth P K M)
include h in
theorem transGen_of_covers (hplace : Placement place Auth)
    (hc : M.Covers p q) (ha : place a = some p) (hb : place b = some q) : TransGen Auth a b := by
  obtain ⟨s, t, hlook, hs, ht⟩ := hc
  obtain ⟨_, x, y, hx, hy, hxy⟩ := h.sound hlook
  have hax := hplace.reflTransGen_of_le ha hx hs
  have hyb := hplace.reflTransGen_of_le hy hb ht
  exact TransGen.trans_right hax (hxy.trans_left hyb)

include h

/-- `exists_path_from` decides reachability from an event whose links are complete. -/
theorem existsPathFrom_iff (hplace : Placement place Auth)
    (hPa : P a) (ha : place a = some p) (hK : K p.1) (hb : place b = some q) :
    M.existsPathFrom p q = true ↔ ReflTransGen Auth a b := by
  rw [LinkMap.existsPathFrom_iff]
  obtain ⟨c, s⟩ := p
  obtain ⟨d, t⟩ := q
  constructor
  · rintro (⟨rfl, hle⟩ | ⟨_, hc⟩)
    · exact hplace.reflTransGen_of_le ha hb hle
    · exact (h.transGen_of_covers hplace hc ha hb).to_reflTransGen
  · intro hab
    by_cases hcd : c = d
    · subst hcd
      exact .inl ⟨rfl, hplace.le_of_reflTransGen ha hb hab⟩
    · refine .inr ⟨hcd, h.complete hPa ha hK hb hcd ?_⟩
      refine (reflTransGen_iff_eq_or_transGen.mp hab).resolve_left ?_
      rintro rfl
      exact hcd (Prod.mk.inj (some.inj (ha.symm.trans hb))).1

/-- A link from an event to something it reaches in another chain. -/
theorem addLink (he : place e = some p) (hb : place b = some q)
    (hne : p.1 ≠ q.1) (heb : TransGen Auth e b) :
    ∃ x M', M.addLink p q true = some (x, M') ∧ LinkInv place Auth P K M' ∧
      LinkMap.Grows p M M' ∧ M'.Covers p q := by
  obtain ⟨x, M', hrun, hgrows, hcovers, hentry⟩ := LinkMap.addLink_spec hne
  refine ⟨x, M', hrun, ⟨?_, ?_⟩, hgrows, hcovers⟩
  · intro c d s t hlook
    rcases hentry hlook with hlook | ⟨rfl, rfl⟩
    · exact h.sound hlook
    · exact ⟨hne, e, b, he, hb, heb⟩
  · exact fun hPa ha hK hb' hne' hab => hgrows.covers (h.complete hPa ha hK hb' hne' hab)

end LinkInv
end

/-! ## The links of a new event -/

section
variable {ε : Type} [DecidableEq ε] {place : ε → Option ChainPos} {Auth : ε → ε → Prop}
  {P : ε → Prop} {K : ℕ → Prop} {M : LinkMap} {o : IterOrder} {chainMap : Dict ε ChainPos}
  {authIds : List ε} {e : ε} {src : ChainPos}

theorem mem_permutations2 {α : Type} {l : List α} (hl : l.Nodup) {a b : α} :
    (a, b) ∈ permutations2 l ↔ a ∈ l ∧ b ∈ l ∧ a ≠ b := by
  simp only [permutations2, mem_flatMap, mem_map, mem_filter, decide_eq_true_eq, Prod.mk.injEq]
  constructor
  · rintro ⟨⟨x, i⟩, hx, ⟨y, j⟩, ⟨hy, hij⟩, rfl, rfl⟩
    rw [mem_zipIdx_iff_getElem?] at hx hy
    refine ⟨mem_of_getElem? hx, mem_of_getElem? hy, ?_⟩
    rintro rfl
    obtain ⟨hi, hxi⟩ := List.getElem?_eq_some_iff.mp hx
    obtain ⟨hj, hxj⟩ := List.getElem?_eq_some_iff.mp hy
    exact hij ((hl.getElem_inj_iff).mp (hxj.trans hxi.symm))
  · rintro ⟨ha, hb, hne⟩
    obtain ⟨i, hi⟩ := mem_iff_getElem?.mp ha
    obtain ⟨j, hj⟩ := mem_iff_getElem?.mp hb
    refine ⟨(a, i), mem_zipIdx_iff_getElem?.mpr hi, (b, j),
      ⟨mem_zipIdx_iff_getElem?.mpr hj, ?_⟩, rfl, rfl⟩
    rintro rfl
    exact hne (some.inj (hi.symm.trans hj))

theorem otherChains_spec (chainId : ℕ) (hmap : ∀ b ∈ authIds, ∃ p, chainMap.lookup b = some p) :
    ∃ reduction, otherChains chainMap chainId authIds = some reduction ∧
      ∀ b, b ∈ reduction ↔ b ∈ authIds ∧ ∃ p, chainMap.lookup b = some p ∧ p.1 ≠ chainId := by
  refine foldlM_inv (I := fun done reduction => ∀ b, b ∈ reduction ↔
    b ∈ done ∧ ∃ p, chainMap.lookup b = some p ∧ p.1 ≠ chainId) authIds ?_ (by simp)
  intro done x rest reduction heq hred
  obtain ⟨p, hp⟩ := hmap x (heq ▸ mem_append_cons_self)
  refine ⟨if p.1 ≠ chainId then reduction.insert x else reduction, by simp [hp], fun b => ?_⟩
  rw [mem_append, mem_singleton]
  split
  next hne =>
    rw [mem_insert_iff, hred]
    constructor
    · rintro (rfl | ⟨hb, hp'⟩)
      · exact ⟨.inr rfl, p, hp, hne⟩
      · exact ⟨.inl hb, hp'⟩
    · rintro ⟨hb | rfl, hp'⟩
      · exact .inr ⟨hb, hp'⟩
      · exact .inl rfl
  next hsame =>
    rw [hred]
    refine and_congr_left ?_
    rintro ⟨p', hp', hne⟩
    refine (or_iff_left ?_).symm
    rintro rfl
    obtain rfl := some.inj (hp.symm.trans hp')
    exact hsame hne

/-- The auth events that are kept are those that no other auth event reaches. -/
theorem foldlM_discardReachable_spec (hnodup : authIds.Nodup)
    (hmap : ∀ b ∈ authIds, ∃ p, chainMap.lookup b = some p)
    (hpath : ∀ a ∈ authIds, ∀ b ∈ authIds, ∀ p q, chainMap.lookup a = some p →
      chainMap.lookup b = some q → (M.existsPathFrom p q = true ↔ ReflTransGen Auth a b))
    (reduction : List ε) :
    ∃ reduction', (permutations2 authIds).foldlM (discardReachable chainMap M) reduction
        = some reduction' ∧
      ∀ b, b ∈ reduction' ↔ b ∈ reduction ∧
        ∀ a, a ∈ authIds → b ∈ authIds → a ≠ b → ¬ ReflTransGen Auth a b := by
  -- an event is left as long as none of the pairs seen so far reaches it
  obtain ⟨reduction', hrun, hred⟩ := foldlM_inv (f := discardReachable chainMap M)
    (I := fun done red => ∀ b, b ∈ red ↔ b ∈ reduction ∧ ∀ a, (a, b) ∈ done →
      ¬ ReflTransGen Auth a b) (permutations2 authIds) (s := reduction) (by
        rintro done ⟨x, y⟩ rest red heq hred
        obtain ⟨hx, hy, _⟩ := (mem_permutations2 hnodup).mp (heq ▸ mem_append_cons_self)
        obtain ⟨p, hp⟩ := hmap x hx
        obtain ⟨q, hq⟩ := hmap y hy
        refine ⟨if M.existsPathFrom p q then red.filter (· ≠ y) else red,
          by simp [discardReachable, hp, hq], fun b => ?_⟩
        simp only [mem_append, mem_singleton, Prod.mk.injEq]
        split
        next hreach =>
          have hxy := (hpath x hx y hy p q hp hq).mp hreach
          rw [mem_filter, hred, decide_eq_true_eq]
          constructor
          · rintro ⟨⟨hb, hall⟩, hne⟩
            refine ⟨hb, ?_⟩
            rintro a (ha | ⟨rfl, rfl⟩)
            · exact hall a ha
            · exact absurd rfl hne
          · rintro ⟨hb, hall⟩
            refine ⟨⟨hb, fun a ha => hall a (.inl ha)⟩, ?_⟩
            rintro rfl
            exact hall x (.inr ⟨rfl, rfl⟩) hxy
        next hreach =>
          have hxy := fun h => hreach ((hpath x hx y hy p q hp hq).mpr h)
          rw [hred]
          refine and_congr_right fun _ => ⟨?_, fun hall a ha => hall a (.inl ha)⟩
          rintro hall a (ha | ⟨rfl, rfl⟩)
          · exact hall a ha
          · exact hxy) (by simp)
  refine ⟨reduction', hrun, fun b => (hred b).trans (and_congr_right fun _ => ?_)⟩
  refine forall_congr' fun a => ?_
  rw [mem_permutations2 hnodup]
  tauto

/-- Whatever `b` reaches in chains other than that of `src` is covered from `src`. -/
def Linked (place : ε → Option ChainPos) (Auth : ε → ε → Prop) (src : ChainPos) (b : ε)
    (M : LinkMap) : Prop := ∀ x q, place x = some q → q.1 ≠ src.1 → ReflTransGen Auth b x → M.Covers src q

/-- Step 2 for one auth event in another chain. -/
theorem LinkInv.linkAuth (h : LinkInv place Auth P K M) (hplace : Placement place Auth)
    (he : place e = some src) {b : ε} {q : ChainPos} (hmap : chainMap.lookup b = some q)
    (hb : place b = some q) (hPb : P b) (hK : K q.1) (hne : src.1 ≠ q.1) (heb : Auth e b) :
    ∃ M', Storage.linkAuth o chainMap src M b = some M' ∧ LinkInv place Auth P K M' ∧
      LinkMap.Grows src M M' ∧ Linked place Auth src b M' := by
  obtain ⟨x, M₁, hrun₁, h₁, hgrows₁, hcovers₁⟩ := h.addLink he hb hne (.single heb)
  -- the links of the auth event, one after the other
  obtain ⟨M', hrun', h', hgrows', hall⟩ := foldlM_inv (f := addReachable src)
    (I := fun done M' => LinkInv place Auth P K M' ∧ LinkMap.Grows src M₁ M' ∧
      ∀ target ∈ done, target.1 ≠ src.1 → M'.Covers src target)
    (o.order (M₁.getLinksFrom q)) (by
      rintro done ⟨d, t⟩ rest M₂ heq ⟨h₂, hgrows₂, hall₂⟩
      have hmem : (d, t) ∈ M₁.getLinksFrom q := o.mem_order.mp (heq ▸ mem_append_cons_self)
      unfold addReachable
      by_cases hd : d = src.1
      · exact ⟨M₂, if_pos hd, h₂, hgrows₂, forall_mem_append.mpr
          ⟨hall₂, forall_mem_singleton.mpr fun hne' => absurd hd hne'⟩⟩
      · obtain ⟨s, hlook, hs⟩ := LinkMap.mem_getLinksFrom.mp hmem
        obtain ⟨_, u, y, hu, hy, huy⟩ := h₁.sound hlook
        have hbu := hplace.reflTransGen_of_le hb hu hs
        have hey : TransGen Auth e y := .head' heb (hbu.trans huy.to_reflTransGen)
        obtain ⟨x₃, M₃, hrun₃, h₃, hgrows₃, hcovers₃⟩ := h₂.addLink he hy (Ne.symm hd) hey
        refine ⟨M₃, by rw [if_neg hd, hrun₃]; rfl, h₃, hgrows₂.trans hgrows₃, forall_mem_append.mpr
          ⟨fun target htarget hne' => ?_, forall_mem_singleton.mpr fun _ => hcovers₃⟩⟩
        exact hgrows₃.covers (hall₂ target htarget hne')) ⟨h₁, .refl M₁, nofun⟩
  refine ⟨M', ?_, h', hgrows₁.trans hgrows', ?_⟩
  · rw [Storage.linkAuth, hmap]
    simp only [Option.bind_eq_bind, Option.bind_some, hrun₁]
    exact hrun'
  · intro y r hy hr hby
    by_cases hchain : r.1 = q.1
    · have hle : r.2 ≤ q.2 := by
        refine hplace.le_of_reflTransGen hb ?_ hby
        rw [hy, ← hchain]
      exact (hgrows'.covers hcovers₁).mono rfl le_rfl hchain.symm hle
    · have hby' : TransGen Auth b y := by
        refine (reflTransGen_iff_eq_or_transGen.mp hby).resolve_left ?_
        rintro rfl
        exact hchain (congrArg Prod.fst (some.inj (hy.symm.trans hb)))
      obtain ⟨s, t, hlook, hs, ht⟩ := h₁.complete hPb hb hK hy (Ne.symm hchain) hby'
      have hlink : (r.1, t) ∈ o.order (M₁.getLinksFrom q) :=
        o.mem_order.mpr (LinkMap.mem_getLinksFrom.mpr ⟨s, hlook, hs⟩)
      exact (hall _ hlink hr).mono rfl le_rfl rfl ht

/-- **A new event.**  If the links are complete for the auth events of an event, they are complete
for the event after its own links have been added. -/
theorem LinkInv.linkEvent (h : LinkInv place Auth P K M) (hplace : Placement place Auth)
    {eventToAuthChain : Dict ε (List ε)} (hnodup : (eventToAuthChain.getD e []).Nodup)
    (hauth : ∀ b, b ∈ eventToAuthChain.getD e [] ↔ Auth e b) (hmap : chainMap.lookup e = some src)
    (he : place e = some src)
    (hauths : ∀ b, Auth e b → ∃ q, chainMap.lookup b = some q ∧ place b = some q ∧ P b ∧ K q.1) :
    ∃ M', Storage.linkEvent o chainMap eventToAuthChain M e = some M' ∧
      LinkInv place Auth (fun a => P a ∨ a = e) K M' ∧ LinkMap.Grows src M M' := by
  have hlook : ∀ b ∈ eventToAuthChain.getD e [], ∃ q, chainMap.lookup b = some q := by
    intro b hb
    obtain ⟨q, hq, _⟩ := hauths b ((hauth b).mp hb)
    exact ⟨q, hq⟩
  obtain ⟨others, hothers, hmemOthers⟩ := otherChains_spec src.1 hlook
  have hpath : ∀ a ∈ eventToAuthChain.getD e [], ∀ b ∈ eventToAuthChain.getD e [], ∀ p q,
      chainMap.lookup a = some p → chainMap.lookup b = some q →
      (M.existsPathFrom p q = true ↔ ReflTransGen Auth a b) := by
    intro a ha b hb p q hp hq
    obtain ⟨p', hp', hpa, hPa, hKa⟩ := hauths a ((hauth a).mp ha)
    obtain ⟨q', hq', hqb, _, _⟩ := hauths b ((hauth b).mp hb)
    obtain rfl := some.inj (hp'.symm.trans hp)
    obtain rfl := some.inj (hq'.symm.trans hq)
    exact h.existsPathFrom_iff hplace hPa hpa hKa hqb
  obtain ⟨reduction, hreduce, hmemReduction⟩ := foldlM_discardReachable_spec hnodup hlook hpath others
  obtain ⟨M', hrun, h', hgrows, hlinked⟩ := foldlM_inv
    (I := fun done M' => LinkInv place Auth P K M' ∧ LinkMap.Grows src M M' ∧
      ∀ b ∈ done, Linked place Auth src b M') (o.order reduction) (by
      rintro done b rest M₁ heq ⟨h₁, hgrows₁, hlinked₁⟩
      have hb : b ∈ reduction := o.mem_order.mp (heq ▸ mem_append_cons_self)
      obtain ⟨hbauth, p, hp, hne⟩ := (hmemOthers b).mp ((hmemReduction b).mp hb).1
      have heb := (hauth b).mp hbauth
      obtain ⟨q, hq, hbq, hPb, hKb⟩ := hauths b heb
      obtain rfl := some.inj (hp.symm.trans hq)
      obtain ⟨M₂, hrun₂, h₂, hgrows₂, hlinked₂⟩ :=
        h₁.linkAuth (o := o) hplace he hq hbq hPb hKb (Ne.symm hne) heb
      refine ⟨M₂, hrun₂, h₂, hgrows₁.trans hgrows₂, forall_mem_append.mpr
        ⟨fun b' hb' x r hx hr hbx => ?_, forall_mem_singleton.mpr hlinked₂⟩⟩
      exact hgrows₂.covers (hlinked₁ b' hb' x r hx hr hbx)) ⟨h, .refl M, nofun⟩
  refine ⟨M', ?_, ⟨h'.sound, ?_⟩, hgrows⟩
  · rw [Storage.linkEvent, hmap]
    simp only [Option.bind_eq_bind, Option.bind_some, hothers, hreduce]
    exact hrun
  · rintro a x p q (hPa | rfl) ha hK hx hne hax
    · exact h'.complete hPa ha hK hx hne hax
    · obtain rfl := some.inj (he.symm.trans ha)
      obtain ⟨b₀, heb₀, hb₀x⟩ := TransGen.head'_iff.mp hax
      -- of the auth events that reach `x`, one that no other reaches has been kept
      obtain ⟨b, hb, hbx, htop⟩ := hplace.acyclic.exists_top
        (p := fun b => ReflTransGen Auth b x) ((hauth b₀).mpr heb₀) hb₀x
      have heb := (hauth b).mp hb
      obtain ⟨r, hr, hbr, hPb, hKb⟩ := hauths b heb
      by_cases hchain : r.1 = src.1
      · -- it is in the event's own chain, whose links cover it already
        have hlt : r.2 < src.2 := by
          refine hplace.lt_of_transGen he ?_ (.single heb)
          rw [hbr, ← hchain]
        have hbx' : TransGen Auth b x := by
          refine (reflTransGen_iff_eq_or_transGen.mp hbx).resolve_left ?_
          rintro rfl
          exact hne (hchain.symm.trans (congrArg Prod.fst (some.inj (hbr.symm.trans hx))))
        have hcovers := h'.complete hPb hbr hKb hx (hchain ▸ hne) hbx'
        exact hcovers.mono hchain hlt.le rfl le_rfl
      · have hmem : b ∈ o.order reduction := by
          rw [o.mem_order, hmemReduction, hmemOthers]
          refine ⟨⟨hb, r, hr, hchain⟩, fun a ha _ hab hreach => ?_⟩
          exact htop a ha (hreach.trans hbx) hab hreach
        exact hlinked b hmem x q hx (Ne.symm hne) hbx

end
end Synapse.Storage
