import Mathlib.Data.List.Perm.Basic
import Mathlib.Data.Int.Order.Basic

/-!
# Paging

A stream is read page by page: each call names a position and gives the updates after it, the position
to go on from, and whether there are more.  A reader calls again while there are more.

If every page that says that there are more moves the position, and none goes beyond the end, the
reader comes to the end, and the pages divide what lies between the start and the end among them
(`exists_pages`).  What holds of each page for the rows of its own part then holds of all pages for all
rows: if each page has the rows of its part, all pages together have all the rows, each as often as it
is there (`Divide.perm`), and if each page is sorted so are all of them together (`Divide.pairwise`).
Conversely, a row that belongs to the part of one page can be on no other page, if no page has rows
from outside its part (`Divide.count_eq`).  So reading page by page gives all rows
exactly if every page that is asked for has the rows of its part (`readsAll_iff_visited`).
-/

namespace Synapse.Util

open List

section
variable {α β : Type}

/-- What a call gives. -/
structure Page (α : Type) where
  updates : List α
  /-- The position to go on from. -/
  token : ℤ
  /-- There are more. -/
  limited : Bool

/-- The pages from a position on, each with the position it was asked for; nothing if a call fails or
the given number of calls is not enough. -/
def pages (update : ℤ → Option (Page α)) : ℕ → ℤ → Option (List (ℤ × Page α))
  | 0, _ => none
  | calls + 1, position =>
    match update position with
    | none => none
    | some page =>
      if page.limited then (pages update calls page.token).map ((position, page) :: ·)
      else some [(position, page)]

/-- The updates of all pages, one page after the other. -/
def allUpdates (ps : List (ℤ × Page α)) : List α := ps.flatMap fun p => p.2.updates

/-- The rows with a token between two positions. -/
def between (token : α → ℤ) (rows : List α) (low high : ℤ) : List α :=
  rows.filter fun row => low < token row ∧ token row ≤ high

/-- Reading page by page comes to an end, and gives the rows between two positions, each as often as it
is there, and sorted. -/
def ReadsAll (R : α → α → Prop) (token : α → ℤ) (rows : List α) (update : ℤ → Option (Page α))
    (start upto : ℤ) : Prop :=
  ∃ calls ps, pages update calls start = some ps ∧
    (allUpdates ps).Perm (between token rows start upto) ∧ (allUpdates ps).Pairwise R

/-- The positions from which a page is asked for. -/
inductive Visited (update : ℤ → Option (Page α)) (start : ℤ) : ℤ → Prop
  | start : Visited update start start
  | next {position : ℤ} {page : Page α} : Visited update start position →
      update position = some page → page.limited = true → Visited update start page.token

/-- The pages divide what lies between two positions: each one goes on where the one before it has
stopped, and the last one stops at the end. -/
def Divide (upto : ℤ) : ℤ → List (ℤ × Page α) → Prop
  | position, [] => position = upto
  | position, (start, page) :: ps => start = position ∧ position ≤ page.token ∧ Divide upto page.token ps

variable {update : ℤ → Option (Page α)} {token : α → ℤ} {rows : List α} {low mid high upto : ℤ}

/-! ## Rows between positions -/

variable {row : α}

theorem mem_between :
    row ∈ between token rows low high ↔ row ∈ rows ∧ low < token row ∧ token row ≤ high := by
  unfold between
  rw [mem_filter, decide_eq_true_iff]

theorem between_self (token : α → ℤ) (rows : List α) (position : ℤ) :
    between token rows position position = [] :=
  filter_eq_nil_iff.mpr fun row _ => by
    rw [decide_eq_true_iff]
    omega

theorem between_perm {rows' : List α} (h : rows.Perm rows') :
    (between token rows low high).Perm (between token rows' low high) := h.filter _

theorem between_append (rows rows' : List α) : between token (rows ++ rows') low high =
      between token rows low high ++ between token rows' low high := filter_append ..

theorem between_map (f : β → α) (rows : List β) :
    between token (rows.map f) low high = (between (fun row => token (f row)) rows low high).map f := by
  unfold between
  rw [filter_map]
  rfl

theorem filter_between_le (token : α → ℤ) (rows : List α) (hhigh : mid ≤ high) :
    (between token rows low high).filter (fun row => token row ≤ mid) = between token rows low mid := by
  unfold between
  rw [filter_filter]
  refine filter_congr fun row _ => ?_
  rw [← Bool.decide_and, decide_eq_decide]
  omega

theorem count_between [BEq α] [LawfulBEq α] (hlow : low < token row)
    (hhigh : token row ≤ high) : (between token rows low high).count row = rows.count row :=
  count_filter (decide_eq_true ⟨hlow, hhigh⟩)

/-- A part and the part after it. -/
theorem between_append_between (token : α → ℤ) (rows : List α) (hlow : low ≤ mid) (hhigh : mid ≤ high) :
    (between token rows low mid ++ between token rows mid high).Perm (between token rows low high) := by
  have hrest : (between token rows low high).filter (fun row => !decide (token row ≤ mid)) =
      between token rows mid high := by
    unfold between
    rw [filter_filter]
    refine filter_congr fun row _ => ?_
    rw [← decide_not, ← Bool.decide_and, decide_eq_decide]
    omega
  rw [← filter_between_le token rows hhigh, ← hrest]
  exact filter_append_perm _ _

/-! ## Reading all pages -/

/-- Calling more often changes nothing once the end is reached. -/
theorem pages_unique : ∀ {m n : ℕ} {position : ℤ} {ps qs : List (ℤ × Page α)},
    pages update m position = some ps → pages update n position = some qs → ps = qs
  | 0, _, _, _, _, h, _ => nomatch h
  | _ + 1, 0, _, _, _, _, h => nomatch h
  | m + 1, n + 1, position, ps, qs, hm, hn => by
    unfold pages at hm hn
    cases hpage : update position with
    | none =>
      rw [hpage] at hm
      exact nomatch hm
    | some page =>
      rw [hpage] at hm hn
      dsimp only at hm hn
      split at hm
      next hmore =>
        rw [if_pos hmore] at hn
        obtain ⟨ps', hps', rfl⟩ := Option.map_eq_some_iff.mp hm
        obtain ⟨qs', hqs', rfl⟩ := Option.map_eq_some_iff.mp hn
        rw [pages_unique hps' hqs']
      next hlast =>
        rw [if_neg hlast] at hn
        rw [← Option.some.inj hm, ← Option.some.inj hn]

variable {ps : List (ℤ × Page α)} {position : ℤ} {calls : ℕ}

theorem head_of_pages (h : pages update calls position = some ps) :
    ∃ page rest, update position = some page ∧ ps = (position, page) :: rest := by
  cases calls with
  | zero => exact nomatch h
  | succ calls =>
    unfold pages at h
    cases hpage : update position with
    | none =>
      rw [hpage] at h
      exact nomatch h
    | some page =>
      rw [hpage] at h
      dsimp only at h
      split at h
      · obtain ⟨rest, _, rfl⟩ := Option.map_eq_some_iff.mp h
        exact ⟨page, rest, rfl, rfl⟩
      · exact ⟨page, [], rfl, (Option.some.inj h).symm⟩

/-- From every position that is visited a page has been asked for. -/
theorem mem_pages_of_visited {start : ℤ} (h : pages update calls start = some ps)
    (hvisited : Visited update start position) :
    ∃ page, update position = some page ∧ (position, page) ∈ ps := by
  -- what is read from a visited position on are the last of the pages
  suffices hsuffix : ∃ calls' ps', pages update calls' position = some ps' ∧ ps' <:+ ps by
    obtain ⟨calls', ps', hps', hsuffix⟩ := hsuffix
    obtain ⟨page, rest, hpage, rfl⟩ := head_of_pages hps'
    exact ⟨page, hpage, hsuffix.subset mem_cons_self⟩
  induction hvisited with
  | start => exact ⟨calls, ps, h, suffix_refl ps⟩
  | @next position page _ hpage hmore ih =>
    obtain ⟨calls', ps', hps', hsuffix⟩ := ih
    cases calls' with
    | zero => exact nomatch hps'
    | succ calls' =>
      unfold pages at hps'
      rw [hpage] at hps'
      dsimp only at hps'
      rw [if_pos hmore] at hps'
      obtain ⟨rest, hrest, rfl⟩ := Option.map_eq_some_iff.mp hps'
      exact ⟨calls', rest, hrest, (suffix_cons _ _).trans hsuffix⟩

/-- **A reader comes to the end** if every page with more to come moves the position, and none goes
beyond the end: its pages divide what lies between, and what holds of every page that is visited holds
of each of them. -/
theorem exists_pages {I : ℤ → Prop} {P : ℤ → Page α → Prop}
    (hupdate : ∀ position, position ≤ upto → I position → ∃ page, update position = some page ∧
      P position page ∧ (page.limited = false → page.token = upto) ∧
      (page.limited = true → position < page.token ∧ page.token ≤ upto ∧ I page.token)) :
    ∀ {calls : ℕ} {position : ℤ}, position ≤ upto → I position → (upto - position).toNat < calls →
      ∃ ps, pages update calls position = some ps ∧ Divide upto position ps ∧
        ∀ start page, (start, page) ∈ ps → P start page
  | 0, _, _, _, hcalls => nomatch hcalls
  | calls + 1, position, hle, hI, hcalls => by
    obtain ⟨page, hpage, hP, hlast, hmore⟩ := hupdate position hle hI
    unfold pages
    rw [hpage]
    dsimp only
    cases hlimited : page.limited with
    | false =>
      have htoken := hlast hlimited
      refine ⟨[(position, page)], rfl, ⟨rfl, by omega, htoken⟩, fun start page' hp => ?_⟩
      obtain ⟨rfl, rfl⟩ := Prod.mk.inj (mem_singleton.mp hp)
      exact hP
    | true =>
      obtain ⟨hlt, hupto, hI'⟩ := hmore hlimited
      obtain ⟨ps, hps, hdivide, hall⟩ := exists_pages hupdate hupto hI'
        (show (upto - page.token).toNat < calls by omega)
      rw [if_pos rfl, hps]
      refine ⟨(position, page) :: ps, rfl, ⟨rfl, by omega, hdivide⟩, fun start page' hp => ?_⟩
      rcases mem_cons.mp hp with heq | hp
      · obtain ⟨rfl, rfl⟩ := Prod.mk.inj heq
        exact hP
      · exact hall start page' hp

/-! ## All pages together -/

theorem Divide.le : ∀ {ps : List (ℤ × Page α)} {position : ℤ}, Divide upto position ps → position ≤ upto
  | [], _, h => le_of_eq h
  | (_, _) :: _, _, ⟨_, hle, h⟩ => le_trans hle h.le

/-- The parts of the pages lie between the start and the end. -/
theorem Divide.bounds : ∀ {ps : List (ℤ × Page α)} {position : ℤ}, Divide upto position ps →
    ∀ p ∈ ps, position ≤ p.1 ∧ p.2.token ≤ upto
  | (start, page) :: ps, position, ⟨hstart, hle, h⟩, p, hp => by
    rcases mem_cons.mp hp with rfl | hp
    · exact ⟨le_of_eq hstart.symm, h.le⟩
    · obtain ⟨hlow, hhigh⟩ := h.bounds p hp
      exact ⟨le_trans hle hlow, hhigh⟩

/-- If each page has the rows of its part, all pages together have all rows. -/
theorem Divide.perm {f : Page α → List β} {token : β → ℤ} {rows : List β} :
    ∀ {ps : List (ℤ × Page α)} {position : ℤ}, Divide upto position ps →
      (∀ p ∈ ps, (f p.2).Perm (between token rows p.1 p.2.token)) →
      (ps.flatMap fun p => f p.2).Perm (between token rows position upto)
  | [], position, h, _ => by
    obtain rfl : position = upto := h
    rw [between_self]
    exact .nil
  | (start, page) :: ps, position, ⟨hstart, hle, h⟩, hrows => by
    have hfirst : (f page).Perm (between token rows position page.token) :=
      hstart ▸ hrows (start, page) mem_cons_self
    have hrest := h.perm fun p hp => hrows p (mem_cons_of_mem _ hp)
    exact (hfirst.append hrest).trans (between_append_between token rows hle h.le)

/-- The updates are above the start. -/
theorem Divide.lt_token (h : Divide upto position ps)
    (hlow : ∀ p ∈ ps, ∀ row ∈ p.2.updates, p.1 < token row) (hrow : row ∈ allUpdates ps) :
    position < token row := by
  obtain ⟨p, hp, hmem⟩ := mem_flatMap.mp hrow
  exact lt_of_le_of_lt (h.bounds p hp).1 (hlow p hp row hmem)

/-- If each page is sorted and has rows of its part only, all pages together are sorted. -/
theorem Divide.pairwise {R : α → α → Prop} (hR : ∀ row row', token row < token row' → R row row') :
    ∀ {ps : List (ℤ × Page α)} {position : ℤ}, Divide upto position ps →
      (∀ p ∈ ps, p.2.updates.Pairwise R) →
      (∀ p ∈ ps, ∀ row ∈ p.2.updates, p.1 < token row ∧ token row ≤ p.2.token) →
      (allUpdates ps).Pairwise R
  | [], _, _, _, _ => List.Pairwise.nil
  | (start, page) :: ps, position, ⟨hstart, hle, h⟩, hsorted, hpart => by
    unfold allUpdates
    refine pairwise_append.mpr ⟨hsorted _ mem_cons_self, ?_, fun row hrow row' hrow' => ?_⟩
    · exact h.pairwise hR (fun p hp => hsorted p (mem_cons_of_mem _ hp))
        fun p hp => hpart p (mem_cons_of_mem _ hp)
    · -- the rows of this page are not above its token, those of the later pages are
      exact hR row row' (lt_of_le_of_lt (hpart _ mem_cons_self row hrow).2
        (h.lt_token (fun p hp row hrow => (hpart p (mem_cons_of_mem _ hp) row hrow).1) hrow'))

/-- A row up to the token of the first page is on that page, if it is on any: the later ones have only
rows above their positions. -/
theorem Divide.mem_updates_head {start position : ℤ} {page : Page α}
    (h : Divide upto position ((start, page) :: ps))
    (hlow : ∀ p ∈ (start, page) :: ps, ∀ row ∈ p.2.updates, p.1 < token row)
    (hrow : row ∈ allUpdates ((start, page) :: ps)) (hle : token row ≤ page.token) :
    row ∈ page.updates := by
  rcases mem_append.mp hrow with hrow | hrow
  · exact hrow
  · exact absurd hle (not_le.mpr (h.2.2.lt_token (fun p hp => hlow p (mem_cons_of_mem _ hp)) hrow))

/-- Whatever lies between the start and the end belongs to the part of a page. -/
theorem Divide.exists_part : ∀ {ps : List (ℤ × Page α)} {position : ℤ}, Divide upto position ps →
    ∀ {n : ℤ}, position < n → n ≤ upto → ∃ p ∈ ps, p.1 < n ∧ n ≤ p.2.token
  | [], position, h, n, hlow, hhigh => by
    have h : position = upto := h
    omega
  | (start, page) :: ps, position, ⟨hstart, _, h⟩, n, hlow, hhigh => by
    by_cases hle : n ≤ page.token
    · exact ⟨(start, page), mem_cons_self, hstart ▸ hlow, hle⟩
    · obtain ⟨p, hp, hpart⟩ := h.exists_part (by omega) hhigh
      exact ⟨p, mem_cons_of_mem _ hp, hpart⟩

/-- A row in the part of a page is among all updates as often as on that page. -/
theorem Divide.count_eq [BEq α] [LawfulBEq α] : ∀ {ps : List (ℤ × Page α)} {position : ℤ},
    Divide upto position ps → (∀ p ∈ ps, ∀ row ∈ p.2.updates, p.1 < token row ∧ token row ≤ p.2.token) →
    ∀ {row : α}, ∀ p ∈ ps, p.1 < token row → token row ≤ p.2.token →
      (allUpdates ps).count row = p.2.updates.count row
  | (start, page) :: ps, position, h, hpart, row, p, hp, hlow, hhigh => by
    have hall : (allUpdates ((start, page) :: ps)).count row =
        page.updates.count row + (allUpdates ps).count row := count_append
    rw [hall]
    rcases mem_cons.mp hp with rfl | hp
    · -- the later pages have only rows above this one's token
      have hzero : (allUpdates ps).count row = 0 := by
        refine count_eq_zero.mpr fun hrow => absurd hhigh (not_le.mpr (h.2.2.lt_token ?_ hrow))
        exact fun p hp row hrow => (hpart p (mem_cons_of_mem _ hp) row hrow).1
      rw [hzero, Nat.add_zero]
    · have hzero : page.updates.count row = 0 := by
        refine count_eq_zero.mpr fun hrow => ?_
        have hupper := (hpart _ mem_cons_self row hrow).2
        have := (h.2.2.bounds p hp).1
        dsimp only at hupper
        omega
      rw [hzero, Nat.zero_add]
      exact h.2.2.count_eq (fun p hp => hpart p (mem_cons_of_mem _ hp)) p hp hlow hhigh

/-- If all pages together have all rows, each page has the rows of its part. -/
theorem Divide.perm_part [BEq α] [LawfulBEq α] (h : Divide upto position ps)
    (hpart : ∀ p ∈ ps, ∀ row ∈ p.2.updates, p.1 < token row ∧ token row ≤ p.2.token)
    (hperm : (allUpdates ps).Perm (between token rows position upto)) :
    ∀ p ∈ ps, p.2.updates.Perm (between token rows p.1 p.2.token) := by
  intro p hp
  obtain ⟨hlow, hhigh⟩ := h.bounds p hp
  refine perm_iff_count.mpr fun row => ?_
  by_cases hrow : p.1 < token row ∧ token row ≤ p.2.token
  · rw [← h.count_eq hpart p hp hrow.1 hrow.2, hperm.count_eq]
    rw [count_between (by omega) (by omega), count_between hrow.1 hrow.2]
  · rw [count_eq_zero.mpr fun hmem => hrow (hpart p hp row hmem),
      count_eq_zero.mpr fun hmem => hrow (mem_between.mp hmem).2]

/-! ## Reading all rows -/

/-- What a page has, complete or not: rows of its part, sorted. -/
structure PartPage (R : α → α → Prop) (token : α → ℤ) (position upto : ℤ) (page : Page α) : Prop where
  sorted : page.updates.Pairwise R
  part : ∀ row ∈ page.updates, position < token row ∧ token row ≤ page.token
  last : page.limited = false → page.token = upto
  more : page.limited = true → position < page.token ∧ page.token ≤ upto

variable {R : α → α → Prop} {start : ℤ}

/-- **Reading page by page gives all rows exactly if every page that is asked for is complete.** -/
theorem readsAll_iff_visited [BEq α] [LawfulBEq α] {Complete : ℤ → Prop}
    (hR : ∀ row row', token row < token row' → R row row') (hle : start ≤ upto)
    (hpage : ∀ position, ∃ page, update position = some page ∧ PartPage R token position upto page ∧
      (page.updates.Perm (between token rows position page.token) ↔ Complete position)) :
    ReadsAll R token rows update start upto ↔
      ∀ position, Visited update start position → Complete position := by
  obtain ⟨ps, hps, hdivide, hspec⟩ := exists_pages (I := Visited update start)
    (P := fun position page => Visited update start position ∧ PartPage R token position upto page ∧
      (page.updates.Perm (between token rows position page.token) ↔ Complete position))
    (fun position _ hvisited => by
      obtain ⟨page, hpage, hspec⟩ := hpage position
      refine ⟨page, hpage, ⟨hvisited, hspec⟩, hspec.1.last, fun hmore => ?_⟩
      exact ⟨(hspec.1.more hmore).1, (hspec.1.more hmore).2, hvisited.next hpage hmore⟩)
    hle .start (Nat.lt_succ_self _)
  have hpart : ∀ p ∈ ps, ∀ row ∈ p.2.updates, p.1 < token row ∧ token row ≤ p.2.token :=
    fun p hp => (hspec p.1 p.2 hp).2.1.part
  constructor
  · intro hreads position hvisited
    obtain ⟨calls, ps', hps', hperm, _⟩ := hreads
    obtain rfl : ps' = ps := pages_unique hps' hps
    obtain ⟨page, _, hmem⟩ := mem_pages_of_visited hps hvisited
    exact (hspec position page hmem).2.2.mp (hdivide.perm_part hpart hperm _ hmem)
  · intro hcomplete
    refine ⟨_, ps, hps, hdivide.perm fun p hp => ?_, ?_⟩
    · obtain ⟨hvisited, _, hiff⟩ := hspec p.1 p.2 hp
      exact hiff.mpr (hcomplete p.1 hvisited)
    · exact hdivide.pairwise hR (fun p hp => (hspec p.1 p.2 hp).2.1.sorted) hpart

/-- A row that is on no page is not read. -/
theorem not_readsAll_of_not_mem {updates : List α}
    (hread : (pages update calls start).map allUpdates = some updates)
    (hrow : row ∈ between token rows start upto) (hmissing : row ∉ updates) :
    ¬ReadsAll R token rows update start upto := by
  rintro ⟨calls', ps, hps, hperm, _⟩
  obtain ⟨ps', hps', rfl⟩ := Option.map_eq_some_iff.mp hread
  obtain rfl : ps = ps' := pages_unique hps hps'
  exact hmissing (hperm.mem_iff.mpr hrow)

end
end Synapse.Util
