import Mathlib.Data.Finset.Max
import Mathlib.Algebra.BigOperators.Group.Finset.Basic
import Mathlib.Algebra.GroupWithZero.Nat
import Mathlib.Algebra.Order.BigOperators.Group.List
import Mathlib.Data.List.Sort

/-!
# Queries

What `SELECT DISTINCT ON (key) … ORDER BY key, rank DESC`, a recursive common table expression,
`GROUP BY` and a join select.  `DISTINCT ON` keeps the first row of each key; the rows are sorted by
rank here and not also by key, since only the order among rows of one key decides which one is kept.
The order of the rows of a query that has no `ORDER BY` is not specified; a program that depends on it
takes a `RowOrder`.
-/

namespace Synapse.Util

open List

section
variable {α κ : Type} [DecidableEq κ]

def firstOfEach (key : α → κ) : List α → List α
  | [] => []
  | row :: rows => row :: (firstOfEach key rows).filter fun row' => key row' ≠ key row

/-- `SELECT DISTINCT ON (key) … ORDER BY key, rank DESC`. -/
def distinctOn (key : α → κ) (rank : α → ℕ) (rows : List α) : List α :=
  firstOfEach key (rows.insertionSort fun row row' => rank row' ≤ rank row)

variable {key : α → κ} {rank : α → ℕ} {row : α}

theorem mem_of_mem_firstOfEach : ∀ {rows : List α}, row ∈ firstOfEach key rows → row ∈ rows
  | _ :: _, h => by
    rcases mem_cons.mp h with rfl | h
    · exact mem_cons_self
    · exact mem_cons_of_mem _ (mem_of_mem_firstOfEach (mem_filter.mp h).1)

theorem exists_mem_firstOfEach : ∀ {rows : List α}, row ∈ rows →
    ∃ row' ∈ firstOfEach key rows, key row' = key row
  | row₀ :: rows, h => by
    by_cases hkey : key row = key row₀
    · exact ⟨row₀, mem_cons_self, hkey.symm⟩
    · have hmem : row ∈ rows := (mem_cons.mp h).resolve_left fun heq => hkey (heq ▸ rfl)
      obtain ⟨row', hrow', heq⟩ := exists_mem_firstOfEach hmem
      refine ⟨row', mem_cons_of_mem _ (mem_filter.mpr ⟨hrow', ?_⟩), heq⟩
      exact decide_eq_true (heq ▸ hkey)

/-- In a list that is sorted by rank the first row of a key has the greatest rank. -/
theorem rank_le_of_mem_firstOfEach {row row' : α} : ∀ {rows : List α},
    rows.Pairwise (fun row row' => rank row' ≤ rank row) → row ∈ firstOfEach key rows →
    row' ∈ rows → key row' = key row → rank row' ≤ rank row
  | row₀ :: rows, hsorted, h, h', hkey => by
    obtain ⟨hhead, htail⟩ := pairwise_cons.mp hsorted
    rcases mem_cons.mp h with rfl | h
    · rcases mem_cons.mp h' with rfl | h'
      · exact le_rfl
      · exact hhead row' h'
    · obtain ⟨hmem, hne⟩ := mem_filter.mp h
      rcases mem_cons.mp h' with rfl | h'
      · exact absurd hkey.symm (of_decide_eq_true hne)
      · exact rank_le_of_mem_firstOfEach htail hmem h' hkey

variable {rows : List α}

theorem mem_of_mem_distinctOn (h : row ∈ distinctOn key rank rows) : row ∈ rows :=
  (mem_insertionSort _).mp (mem_of_mem_firstOfEach h)

theorem exists_mem_distinctOn (h : row ∈ rows) : ∃ row' ∈ distinctOn key rank rows, key row' = key row :=
  exists_mem_firstOfEach ((mem_insertionSort _).mpr h)

theorem rank_le_of_mem_distinctOn {row row' : α}
    (h : row ∈ distinctOn key rank rows) (h' : row' ∈ rows) (hkey : key row' = key row) :
    rank row' ≤ rank row := by
  refine rank_le_of_mem_firstOfEach (pairwise_insertionSort _ rows) h ?_ hkey
  exact (mem_insertionSort _).mpr h'

end

/-! ## Recursion -/

/-- `WITH RECURSIVE t(x) AS (VALUES … UNION ALL SELECT next(x) FROM t)`: the rows of all rounds, or
none if it does not end after `rounds` rounds. -/
def withRecursive {α : Type} (next : α → List α) : ℕ → List α → Option (List α)
  | _, [] => some []
  | 0, _ :: _ => none
  | rounds + 1, working =>
    (withRecursive next rounds (working.flatMap next)).map (working ++ ·)

/-- If the numbers get smaller from round to round, the recursion ends and has found all that can be
reached. -/
theorem withRecursive_of_lt {next : ℕ → List ℕ} (hlt : ∀ x y, y ∈ next x → y < x) :
    ∀ {rounds : ℕ} {working : List ℕ}, (∀ x ∈ working, x < rounds) →
      ∃ rows, withRecursive next rounds working = some rows ∧
        ∀ y, y ∈ rows ↔ ∃ x ∈ working, Relation.ReflTransGen (fun x y => y ∈ next x) x y
  | _, [], _ => ⟨[], by rw [withRecursive], fun y => by simp⟩
  | 0, x :: _, h => absurd (h x mem_cons_self) (Nat.not_lt_zero x)
  | rounds + 1, x₀ :: working, h => by
    have hnext : ∀ x ∈ (x₀ :: working).flatMap next, x < rounds := by
      intro x hx
      obtain ⟨x', hx', hmem⟩ := mem_flatMap.mp hx
      have := hlt x' x hmem
      have := h x' hx'
      omega
    obtain ⟨rows, hrows, hmem⟩ := withRecursive_of_lt hlt hnext
    refine ⟨x₀ :: working ++ rows, by rw [withRecursive, hrows, Option.map_some]; simp, fun y => ?_⟩
    rw [mem_append, hmem y]
    constructor
    · intro hy
      rcases hy with hy | ⟨x', hx', hreach⟩
      · exact ⟨y, hy, .refl⟩
      · obtain ⟨x, hx, hstep⟩ := mem_flatMap.mp hx'
        exact ⟨x, hx, .head hstep hreach⟩
    · intro hy
      obtain ⟨x, hx, hreach⟩ := hy
      rcases Relation.ReflTransGen.cases_head hreach with rfl | ⟨x', hstep, hreach⟩
      · exact .inl hx
      · exact .inr ⟨x', mem_flatMap.mpr ⟨x, hx, hstep⟩, hreach⟩

/-- The order in which a query returns its rows. -/
structure RowOrder (α : Type) where
  order : List α → List α
  perm : ∀ rows, (order rows).Perm rows

/-! ## The first of rows without an order -/

section
variable {α κ : Type} [LinearOrder κ] {key : α → κ} {rows wanted : List α} {p : α → Bool}

def RowOrder.first [DecidableEq α] (row : α) : RowOrder α where
  order rows := if row ∈ rows then row :: rows.erase row else rows
  perm rows := by
    split
    next h => exact (perm_cons_erase h).symm
    · exact .refl _

/-- The row with the greatest key, or nothing. -/
def IsGreatest (key : α → κ) (wanted : List α) : Option α → Prop
  | none => wanted = []
  | some row => row ∈ wanted ∧ ∀ row' ∈ wanted, key row' ≤ key row

/-- `ORDER BY key DESC LIMIT 1`. -/
theorem isGreatest_head?_insertionSort (key : α → κ) (rows : List α) :
    IsGreatest key rows (rows.insertionSort fun row row' => key row' ≤ key row).head? := by
  have hperm := perm_insertionSort (fun row row' => key row' ≤ key row) rows
  have hsorted := pairwise_insertionSort (fun row row' => key row' ≤ key row) rows
  cases hsort : rows.insertionSort fun row row' => key row' ≤ key row with
  | nil => exact (hsort ▸ hperm).symm.eq_nil
  | cons first rest =>
    rw [hsort] at hperm hsorted
    refine ⟨hperm.subset mem_cons_self, fun row' hrow' => ?_⟩
    rcases mem_cons.mp (hperm.symm.subset hrow') with rfl | hrest
    · exact le_rfl
    · exact (pairwise_cons.mp hsorted).1 row' hrest

/-- **The first match is the greatest row that is wanted, whatever the order**, exactly if that one is
among the rows, and no other that is wanted. -/
theorem forall_find?_iff [DecidableEq α] (hnodup : (wanted.map key).Nodup)
    (hp : ∀ row ∈ wanted, p row = true) (hwanted : ∀ row ∈ rows, p row = true → row ∈ wanted) :
    (∀ order : RowOrder α, IsGreatest key wanted ((order.order rows).find? p)) ↔
      ∀ row ∈ wanted, (row ∈ rows ↔ ∀ row' ∈ wanted, key row' ≤ key row) := by
  have hfound : ∀ {order : RowOrder α} {row : α}, (order.order rows).find? p = some row →
      row ∈ rows ∧ row ∈ wanted := by
    intro order row hfind
    have hrow := (order.perm rows).mem_iff.mp (mem_of_find?_eq_some hfind)
    exact ⟨hrow, hwanted row hrow (find?_some hfind)⟩
  constructor
  · intro h row hmem
    have hfirst := h (.first row)
    constructor
    · intro hrow
      unfold RowOrder.first at hfirst
      dsimp only at hfirst
      rw [if_pos hrow, find?_cons_of_pos (hp row hmem)] at hfirst
      exact hfirst.2
    · intro hmax
      cases hfind : ((RowOrder.first row).order rows).find? p with
      | none =>
        rw [hfind] at hfirst
        exact absurd hmem (hfirst ▸ not_mem_nil)
      | some row' =>
        rw [hfind] at hfirst
        obtain ⟨hrow', hmem'⟩ := hfound hfind
        rwa [inj_on_of_nodup_map hnodup hmem hmem'
          (le_antisymm (hfirst.2 row hmem) (hmax row' hmem'))]
  · intro h order
    cases hfind : (order.order rows).find? p with
    | none =>
      -- otherwise the greatest row would match
      by_contra hne
      obtain ⟨row, hmem, hmax⟩ := wanted.toFinset.exists_max_image key
        (toFinset_nonempty_iff _ |>.mpr hne)
      rw [mem_toFinset] at hmem
      have hrow := (h row hmem).mpr fun row' hrow' => hmax row' (mem_toFinset.mpr hrow')
      exact find?_eq_none.mp hfind row ((order.perm rows).mem_iff.mpr hrow) (hp row hmem)
    | some row =>
      obtain ⟨hrow, hmem⟩ := hfound hfind
      exact ⟨hmem, (h row hmem).mp hrow⟩

end

/-! ## Groups -/

section
variable {α κ : Type} [DecidableEq κ] {key : α → κ}

/-- `GROUP BY key`: each key with its rows. -/
def groupBy (key : α → κ) (rows : List α) : List (κ × List α) :=
  (rows.map key).dedup.map fun k => (k, rows.filter fun row => key row = k)

/-- Counting over the groups of some keys is counting over the rows with these keys. -/
theorem sum_countP_groupBy (p : α → Bool) (q : κ → Bool) (rows : List α) :
    (((groupBy key rows).filter fun group => q group.1).map fun group => group.2.countP p).sum =
      rows.countP fun row => p row && q (key row) := by
  -- the keys of the rows that are counted, each as often as it is counted
  let keys := (rows.filter fun row => p row && q (key row)).map key
  have hcount : ∀ k ∈ (rows.map key).dedup.filter q,
      (rows.filter fun row => key row = k).countP p = keys.count k := by
    intro k hk
    rw [count, countP_map, countP_filter, countP_filter]
    refine countP_congr fun row _ => ?_
    by_cases heq : key row = k
    · simp [heq, (mem_filter.mp hk).2]
    · simp [heq]
  have hkeys : ∀ k ∈ keys, k ∈ ((rows.map key).dedup.filter q).toFinset := by
    intro k hk
    obtain ⟨row, hrow, rfl⟩ := mem_map.mp hk
    obtain ⟨hmem, hpq⟩ := mem_filter.mp hrow
    exact mem_toFinset.mpr (mem_filter.mpr
      ⟨mem_dedup.mpr (mem_map_of_mem hmem), (Bool.and_eq_true _ _ ▸ hpq).2⟩)
  have hcard := Multiset.sum_count_eq_card (m := (keys : Multiset κ)) hkeys
  unfold groupBy
  rw [filter_map, map_map]
  refine (congrArg _ (map_congr_left hcount)).trans ?_
  rw [← sum_toFinset _ ((nodup_dedup _).filter q)]
  simpa [keys, countP_eq_length_filter] using hcard

theorem mem_groupBy {rows : List α} {k : κ} {group : List α} : (k, group) ∈ groupBy key rows ↔
      k ∈ rows.map key ∧ group = rows.filter fun row => key row = k := by
  unfold groupBy
  rw [mem_map]
  constructor
  · intro h
    obtain ⟨k', hk', heq⟩ := h
    obtain ⟨rfl, rfl⟩ := Prod.mk.inj heq
    exact ⟨mem_dedup.mp hk', rfl⟩
  · intro h
    exact ⟨k, mem_dedup.mpr h.1, by rw [h.2]⟩

theorem nodup_map_fst_groupBy (rows : List α) : ((groupBy key rows).map Prod.fst).Nodup := by
  unfold groupBy
  rw [map_map, show Prod.fst ∘ (fun k => (k, rows.filter fun row => key row = k)) = id from rfl, map_id]
  exact nodup_dedup _

end

/-! ## Sums and counts over rows -/

section
variable {α : Type} {p q : α → Bool}

/-- A sum over selected rows, if the selections differ only in rows that add nothing. -/
theorem sum_filter_congr {f : α → ℕ} {rows : List α} (h : ∀ row ∈ rows, f row ≠ 0 → p row = q row) :
    ((rows.filter p).map f).sum = ((rows.filter q).map f).sum := by
  have hite : ∀ r,
      ((rows.filter r).map f).sum = (rows.map fun row => if r row then f row else 0).sum := by
    intro r
    rw [sum_map_ite]
    simp
  rw [hite, hite]
  refine congrArg _ (map_congr_left fun row hrow => ?_)
  by_cases hf : f row = 0
  · simp [hf]
  · rw [h row hrow hf]

/-- Two conditions select as many rows exactly if each selects as many that the other does not. -/
theorem countP_eq_countP_iff (rows : List α) : rows.countP p = rows.countP q ↔
    (rows.countP fun row => p row && !q row) = rows.countP fun row => q row && !p row := by
  have hp := countP_eq_countP_filter_add rows p q
  have hq := countP_eq_countP_filter_add rows q p
  rw [countP_filter, countP_filter] at hp hq
  have hboth : (rows.countP fun row => p row && q row) = rows.countP fun row => q row && p row := by
    simp only [Bool.and_comm]
  omega

/-- Counting with one condition or another, as a third one decides. -/
theorem countP_add_countP (rows : List α) (p q r : α → Bool) :
    (rows.countP fun row => p row && r row) + (rows.countP fun row => q row && !r row) =
      rows.countP fun row => if r row then p row else q row := by
  rw [countP_eq_countP_filter_add rows (fun row => if r row then p row else q row) r,
    countP_filter, countP_filter]
  congr 1
  all_goals
    refine countP_congr fun row _ => ?_
    cases hr : r row with
    | true => simp
    | false => simp

end

/-! ## Pages

`SELECT … ORDER BY key LIMIT n`, where no two of the rows have the same key. -/

section
variable {α κ : Type} [LinearOrder κ] {key : α → κ}

abbrev Ascending {α κ : Type*} [LE κ] (key : α → κ) (rows : List α) : Prop :=
  rows.Pairwise fun row row' => key row ≤ key row'

abbrev Increasing {α κ : Type*} [LT κ] (key : α → κ) (rows : List α) : Prop :=
  rows.Pairwise fun row row' => key row < key row'

/-- The rows in the order of their keys. -/
def orderBy (key : α → κ) (rows : List α) : List α :=
  rows.insertionSort fun row row' => key row ≤ key row'

variable {rows : List α}

theorem mem_orderBy {row : α} : row ∈ orderBy key rows ↔ row ∈ rows := mem_insertionSort _

theorem orderBy_perm (rows : List α) : (orderBy key rows).Perm rows := perm_insertionSort _ rows

theorem pairwise_le_orderBy (rows : List α) : Ascending key (orderBy key rows) :=
  pairwise_insertionSort _ rows

theorem pairwise_lt_orderBy (hnodup : (rows.map key).Nodup) : Increasing key (orderBy key rows) := by
  have hne : (orderBy key rows).Pairwise fun row row' => key row ≠ key row' :=
    pairwise_map.mp (((orderBy_perm rows).map key).nodup_iff.mpr hnodup)
  exact ((pairwise_le_orderBy rows).and hne).imp fun h => lt_of_le_of_ne h.1 h.2

variable {rows rows' : List α}

/-- Sorted rows are determined by which rows they are. -/
theorem eq_of_perm_of_pairwise_lt (hperm : rows.Perm rows') (h : Increasing key rows)
    (h' : Increasing key rows') : rows = rows' :=
  hperm.eq_of_pairwise (fun _ _ _ _ hlt hlt' => absurd hlt (lt_asymm hlt')) h h'

theorem orderBy_eq_self (h : Increasing key rows) : orderBy key rows = rows :=
  eq_of_perm_of_pairwise_lt (orderBy_perm rows)
    (pairwise_lt_orderBy (pairwise_map.mpr (h.imp ne_of_lt))) h

variable {p : α → Bool} {n : ℕ}

/-- If the rows after the first ones are not wanted, the first ones have all that are. -/
theorem filter_take_of_drop (h : ∀ row ∈ rows.drop n, p row = false) :
    (rows.take n).filter p = rows.filter p := by
  have hnone : (rows.drop n).filter p = [] := filter_eq_nil_iff.mpr fun row hrow => by simp [h row hrow]
  conv_rhs => rw [← take_append_drop n rows, filter_append, hnone, append_nil]

/-- Sorted rows are not above the last one. -/
theorem le_getLast (h : Ascending key rows) {last row : α}
    (hlast : rows.getLast? = some last) (hrow : row ∈ rows) : key row ≤ key last := by
  obtain ⟨front, rfl⟩ := getLast?_eq_some_iff.mp hlast
  rcases mem_append.mp hrow with hrow | hrow
  · exact (pairwise_append.mp h).2.2 row hrow last mem_cons_self
  · exact (mem_singleton.mp hrow) ▸ le_rfl

section
variable (h : Ascending key rows) {n : ℕ} {row row' : α} (hrow : rows[n]? = some row)
include h hrow

/-- Sorted rows from a row on are not below that row. -/
theorem le_of_mem_drop (hrow' : row' ∈ rows.drop n) : key row ≤ key row' := by
  obtain ⟨hn, rfl⟩ := List.getElem?_eq_some_iff.mp hrow
  have hdrop := h.sublist (drop_sublist n rows)
  rw [drop_eq_getElem_cons hn] at hrow' hdrop
  rcases mem_cons.mp hrow' with rfl | hrow'
  · exact le_rfl
  · exact (pairwise_cons.mp hdrop).1 row' hrow'

/-- Sorted rows up to a row are not above that row. -/
theorem le_of_mem_take (hrow' : row' ∈ rows.take (n + 1)) : key row' ≤ key row := by
  obtain ⟨hn, rfl⟩ := List.getElem?_eq_some_iff.mp hrow
  refine le_getLast (h.sublist (take_sublist (n + 1) rows)) ?_ hrow'
  rw [take_succ_eq_append_getElem hn, getLast?_concat]

end

/-- A row is on the first page if there are fewer rows before it than fit on the page. -/
theorem mem_take_iff_countP_lt {α κ : Type*} [LinearOrder κ] {key : α → κ} {row : α} :
    ∀ {rows : List α} {n : ℕ}, Increasing key rows →
    (row ∈ rows.take n ↔ row ∈ rows ∧ (rows.countP fun row' => key row' < key row) < n)
  | [], _, _ => by simp
  | _ :: _, 0, _ => by simp
  | row₀ :: rows, n + 1, h => by
    obtain ⟨hlt, htail⟩ := pairwise_cons.mp h
    rw [take_succ_cons, mem_cons, mem_cons, countP_cons, mem_take_iff_countP_lt htail]
    by_cases heq : row = row₀
    · subst heq
      have hzero : (rows.countP fun row' => key row' < key row) = 0 :=
        countP_eq_zero.mpr fun row' hmem => by simpa using (hlt row' hmem).le
      simp [hzero]
    · by_cases hmem : row ∈ rows
      · simp [heq, hmem, hlt row hmem]
      · simp [heq, hmem]

theorem nodup_of_pairwise_lt (h : Increasing key rows) : rows.Nodup :=
  h.imp fun hlt heq => absurd (heq ▸ hlt) (lt_irrefl _)

/-- Sorted rows that are among others are not more than these. -/
theorem length_le_of_pairwise_lt (h : Increasing key rows) (hsubset : rows ⊆ rows') :
    rows.length ≤ rows'.length := (subperm_of_subset (nodup_of_pairwise_lt h) hsubset).length_le

/-- **Filtering a page.**  The first `n` rows of a query are filtered, and the first `limit` of what
remains are taken.  That is the first page of all rows that are wanted exactly if the query has the rows
of that page among its first `n`. -/
theorem take_filter_take_eq_iff {rows wanted : List α} {n limit : ℕ}
    (hrows : Increasing key rows) (hwanted : Increasing key wanted)
    (hp : ∀ row ∈ wanted, p row = true) (hmem : ∀ row ∈ rows, p row = true → row ∈ wanted) :
    ((rows.take n).filter p).take limit = wanted.take limit ↔
      ∀ row ∈ wanted.take limit, row ∈ rows.take n := by
  have hfiltered := (hrows.sublist (take_sublist n rows)).sublist (filter_sublist (p := p))
  have hsubset : (rows.take n).filter p ⊆ wanted := by
    intro row hrow
    obtain ⟨htake, hrow⟩ := mem_filter.mp hrow
    exact hmem row (mem_of_mem_take htake) hrow
  constructor
  · intro heq row hrow
    rw [← heq] at hrow
    exact (mem_filter.mp (mem_of_mem_take hrow)).1
  · intro hall
    -- the rows of the page are among the filtered ones, where no more rows come before them
    have hpage : wanted.take limit ⊆ ((rows.take n).filter p).take limit := by
      intro row hrow
      obtain ⟨hrow', hlt⟩ := (mem_take_iff_countP_lt hwanted).mp hrow
      refine (mem_take_iff_countP_lt hfiltered).mpr ⟨mem_filter.mpr ⟨hall row hrow, hp row hrow'⟩, ?_⟩
      refine lt_of_le_of_lt ?_ hlt
      rw [countP_eq_length_filter, countP_eq_length_filter]
      refine length_le_of_pairwise_lt (hfiltered.sublist filter_sublist) fun row' hrow' => ?_
      obtain ⟨hrow', hbefore⟩ := mem_filter.mp hrow'
      exact mem_filter.mpr ⟨hsubset hrow', hbefore⟩
    have hnodup := nodup_of_pairwise_lt (hwanted.sublist (take_sublist limit wanted))
    have hlength : (((rows.take n).filter p).take limit).length ≤ (wanted.take limit).length := by
      have := length_le_of_pairwise_lt hfiltered hsubset
      rw [length_take, length_take]
      omega
    have hperm := (subperm_of_subset hnodup hpage).perm_of_length_le hlength
    exact (eq_of_perm_of_pairwise_lt hperm (hwanted.sublist (take_sublist _ _))
      (hfiltered.sublist (take_sublist _ _))).symm

/-- What a page has of the rows that are wanted are all of them up to the last one it has. -/
theorem filter_take_eq {last : α} (h : Increasing key rows)
    (hlast : ((rows.take n).filter p).getLast? = some last) :
    (rows.take n).filter p = (rows.filter fun row => key row ≤ key last).filter p := by
  have hmem := mem_of_mem_getLast? hlast
  have hsplit : rows.take n ++ rows.drop n = rows := take_append_drop n rows
  have hcross := (pairwise_append.mp (hsplit.symm ▸ h)).2.2
  have hpage : ∀ row ∈ (rows.take n).filter p, key row ≤ key last := by
    have hsorted := (h.sublist (take_sublist n rows)).sublist (filter_sublist (p := p))
    exact fun row hrow => le_getLast (hsorted.imp le_of_lt) hlast hrow
  have hrest : ((rows.drop n).filter fun row => key row ≤ key last) = [] :=
    filter_eq_nil_iff.mpr fun row hrow => by
      simpa using hcross last (mem_filter.mp hmem).1 row hrow
  calc (rows.take n).filter p = ((rows.take n).filter p).filter fun row => key row ≤ key last :=
        (filter_eq_self.mpr fun row hrow => decide_eq_true (hpage row hrow)).symm
    _ = ((rows.take n).filter fun row => key row ≤ key last).filter p := by
        rw [filter_filter, filter_filter]
        simp only [Bool.and_comm]
    _ = ((rows.take n ++ rows.drop n).filter fun row => key row ≤ key last).filter p := by
        rw [filter_append, hrest, append_nil]
    _ = _ := by rw [hsplit]

end

/-! ## Pages in either order -/

/-- `ASC` or `DESC`. -/
inductive SortOrder where
  | asc
  | desc
deriving DecidableEq

section
variable {α κ : Type} [LinearOrder κ] {key : α → κ} {rows wanted : List α} {p : α → Bool} {n limit : ℕ}
  (order : SortOrder)

/-- `ORDER BY key ASC` or `ORDER BY key DESC`. -/
def sortRows (key : α → κ) (rows : List α) : List α :=
  match order with
  | .asc => orderBy key rows
  | .desc => orderBy (fun row => OrderDual.toDual (key row)) rows

/-- A row comes before another one. -/
def comesBefore (key : α → κ) (row row' : α) : Bool :=
  match order with
  | .asc => key row < key row'
  | .desc => key row' < key row

theorem sortRows_perm (key : α → κ) (rows : List α) : (sortRows order key rows).Perm rows := by
  cases order with
  | asc => exact orderBy_perm rows
  | desc => exact orderBy_perm rows

variable {row : α}

theorem mem_sortRows {order : SortOrder} : row ∈ sortRows order key rows ↔ row ∈ rows :=
  (sortRows_perm order key rows).mem_iff

/-- A row is on the first page if there are fewer rows before it than fit on the page. -/
theorem mem_take_sortRows {order : SortOrder} (hrows : (rows.map key).Nodup) :
    row ∈ (sortRows order key rows).take n ↔
      row ∈ rows ∧ (rows.countP fun row' => comesBefore order key row' row) < n := by
  rw [← (sortRows_perm order key rows).countP_eq, ← (sortRows_perm order key rows).mem_iff]
  cases order with
  | asc => exact mem_take_iff_countP_lt (pairwise_lt_orderBy hrows)
  | desc =>
    have hrows' : (rows.map fun row => OrderDual.toDual (key row)).Nodup := hrows
    exact mem_take_iff_countP_lt (pairwise_lt_orderBy hrows')

/-- Filtering a page of rows in either order. -/
theorem take_filter_take_sortRows (hrows : (rows.map key).Nodup) (hwanted : (wanted.map key).Nodup)
    (hp : ∀ row ∈ wanted, p row = true) (hmem : ∀ row ∈ rows, p row = true → row ∈ wanted) :
    (((sortRows order key rows).take n).filter p).take limit = (sortRows order key wanted).take limit ↔
      ∀ row ∈ (sortRows order key wanted).take limit, row ∈ (sortRows order key rows).take n := by
  have hp' : ∀ row ∈ sortRows order key wanted, p row = true := fun row hrow =>
    hp row (mem_sortRows.mp hrow)
  have hmem' : ∀ row ∈ sortRows order key rows, p row = true → row ∈ sortRows order key wanted :=
    fun row hrow hrow' => mem_sortRows.mpr (hmem row (mem_sortRows.mp hrow) hrow')
  cases order with
  | asc => exact take_filter_take_eq_iff (pairwise_lt_orderBy hrows) (pairwise_lt_orderBy hwanted) hp' hmem'
  | desc =>
    have hrows' : (rows.map fun row => OrderDual.toDual (key row)).Nodup := hrows
    have hwanted' : (wanted.map fun row => OrderDual.toDual (key row)).Nodup := hwanted
    exact take_filter_take_eq_iff (pairwise_lt_orderBy hrows') (pairwise_lt_orderBy hwanted') hp' hmem'

end

/-! ## Rows with a unique key -/

theorem find?_of_nodup {α κ : Type} [DecidableEq κ] {key : α → κ} {row : α} : ∀ {rows : List α},
    (rows.map key).Nodup → row ∈ rows → rows.find? (fun row' => key row' = key row) = some row
  | row₀ :: rows, hnodup, hmem => by
    obtain ⟨hnew, hnodup⟩ := nodup_cons.mp hnodup
    rcases mem_cons.mp hmem with rfl | hmem
    · exact find?_cons_of_pos (decide_eq_true rfl)
    · rw [find?_cons_of_neg (by
        rw [decide_eq_true_iff]
        exact fun heq => hnew (heq ▸ mem_map_of_mem hmem))]
      exact find?_of_nodup hnodup hmem

/-! ## Joins -/

section
variable {α β κ : Type} [DecidableEq κ] {key : α → κ} {key' : β → κ}

/-- `… INNER JOIN …` on a key: each row with the rows of the other table that have its key. -/
def innerJoin (key : α → κ) (key' : β → κ) (rows : List α) (rows' : List β) : List (α × β) :=
  rows.flatMap fun row => (rows'.filter fun row' => key' row' = key row).map fun row' => (row, row')

/-- If the key is unique in the other table, no row is there twice. -/
theorem map_fst_innerJoin_sublist {rows' : List β} (hunique : (rows'.map key').Nodup) :
    ∀ rows : List α, ((innerJoin key key' rows rows').map Prod.fst).Sublist rows
  | [] => Sublist.refl _
  | row :: rows => by
    have hone : (rows'.filter fun row' => key' row' = key row).length ≤ 1 := by
      rw [← countP_eq_length_filter]
      have hcount := nodup_iff_count_le_one.mp hunique (key row)
      rw [count, countP_map] at hcount
      refine le_trans (le_of_eq (countP_congr fun row' _ => ?_)) hcount
      simp
    have hfirst : (((rows'.filter fun row' => key' row' = key row).map fun row' => (row, row')).map
        Prod.fst).Sublist [row] := by
      rw [map_map, show Prod.fst ∘ (fun row' => (row, row')) = fun _ => row from rfl, map_const']
      exact (replicate_sublist_replicate row).mpr hone
    unfold innerJoin
    rw [flatMap_cons, map_append]
    exact hfirst.append (map_fst_innerJoin_sublist hunique rows)

end

/-! ## Tables that have the same rows -/

section
variable {α : Type} {p q : α → Bool} {rows rows' : List α}

/-- Two tables have the same rows with a property. -/
def SameOn (p : α → Bool) (rows rows' : List α) : Prop := rows.filter p = rows'.filter p

variable (h : SameOn p rows rows')
include h

theorem SameOn.mono (himp : ∀ row, q row → p row) : SameOn q rows rows' := by
  have hfilter : ∀ l : List α, l.filter q = (l.filter p).filter q := by
    intro l
    rw [filter_filter]
    refine filter_congr fun row _ => ?_
    cases hq : q row with
    | false => rfl
    | true => rw [himp row hq, Bool.and_true]
  unfold SameOn at h ⊢
  rw [hfilter rows, hfilter rows', h]

theorem SameOn.append (more : List α) : SameOn p (rows ++ more) (rows' ++ more) := by
  unfold SameOn at h ⊢
  rw [filter_append, filter_append, h]

/-- Deleting rows that do not have the property. -/
theorem SameOn.filter_left (hkeep : ∀ row ∈ rows, p row → q row) : SameOn p (rows.filter q) rows' := by
  unfold SameOn at h ⊢
  rw [filter_filter, ← h]
  refine filter_congr fun row hmem => ?_
  cases hp : p row with
  | false => rfl
  | true => rw [hkeep row hmem hp, Bool.and_true]

theorem SameOn.countP (himp : ∀ row, q row → p row) : rows.countP q = rows'.countP q := by
  rw [countP_eq_length_filter, countP_eq_length_filter, h.mono himp]

end
end Synapse.Util
