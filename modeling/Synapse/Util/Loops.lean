import Mathlib.Data.List.Forall2
import Mathlib.Data.List.ReduceOption

/-!
# Loops

A loop that maps a fallible function over a list succeeds if every call does, and then its results
match the inputs one by one.  A loop that threads a state through a list keeps an invariant if every
turn does; the invariant may mention the elements already treated.  A loop over the pieces of a list
treats all its elements.

The order in which Python walks a set is not specified; a program that depends on it takes an
`IterOrder`.
-/

namespace Synapse.Util

open List

variable {α β χ : Type*} {f : α → Except χ β} {P : α → β → Prop}

theorem bind_eq_ok {α β : Type _} {x : Except χ α} {f : α → Except χ β} {b : β} :
    (x >>= f) = .ok b ↔ ∃ a, x = .ok a ∧ f a = .ok b := by
  cases x with
  | error err => exact ⟨fun h => absurd h (by simp [bind, Except.bind]), by simp⟩
  | ok a =>
    constructor
    · exact fun h => ⟨a, rfl, h⟩
    · rintro ⟨a', ha, h⟩
      rw [Except.ok.inj ha]
      exact h

theorem ite_error_eq_ok {α : Type*} {p : Prop} [Decidable p] {err : χ} {x : Except χ α} {a : α} :
    (if p then .error err else x) = .ok a ↔ ¬ p ∧ x = .ok a := by
  split <;> simp_all

theorem eq_ok_of_toOption {α : Type*} {x : Except χ α} {a : α} (h : x.toOption = some a) : x = .ok a := by
  cases x with
  | error err => exact absurd h (by simp [Except.toOption])
  | ok a' => exact congrArg Except.ok (Option.some.inj h)

theorem mapM_ok_of_forall (l : List α) (h : ∀ x ∈ l, ∃ y, f x = .ok y ∧ P x y) :
    ∃ ys, l.mapM f = .ok ys ∧ List.Forall₂ P l ys := by
  induction l with
  | nil => exact ⟨[], rfl, .nil⟩
  | cons x l ih =>
    obtain ⟨y, hy, hP⟩ := h x mem_cons_self
    obtain ⟨ys, hys, hall⟩ := ih fun z hz => h z (mem_cons_of_mem _ hz)
    refine ⟨y :: ys, ?_, .cons hP hall⟩
    rw [mapM_cons, hy, hys]
    rfl

/-- If the loop succeeds, every call did. -/
theorem forall₂_of_mapM_ok {α β : Type} {f : α → Except χ β} :
    ∀ {l : List α} {ys : List β}, l.mapM f = .ok ys → List.Forall₂ (fun x y => f x = .ok y) l ys
  | [], ys, h => by
    obtain rfl : [] = ys := Except.ok.inj h
    exact .nil
  | x :: l, ys, h => by
    rw [mapM_cons] at h
    obtain ⟨y, hy, h⟩ := bind_eq_ok.mp h
    obtain ⟨ys', hys', h⟩ := bind_eq_ok.mp h
    obtain rfl : y :: ys' = ys := Except.ok.inj h
    exact .cons hy (forall₂_of_mapM_ok hys')

theorem mapM_eq_some_map {α β : Type} {f : α → Option β} {g : α → β} :
    ∀ {l : List α}, (∀ x ∈ l, f x = some (g x)) → l.mapM f = some (l.map g)
  | [], _ => rfl
  | x :: l, h => by
    rw [mapM_cons, h x mem_cons_self, mapM_eq_some_map fun y hy => h y (mem_cons_of_mem _ hy)]
    rfl

theorem allM_ok {p : α → Except χ Bool} {l : List α} (h : ∀ x ∈ l, ∃ b, p x = .ok b) :
    ∃ b, l.allM p = .ok b := by
  induction l with
  | nil => exact ⟨true, rfl⟩
  | cons x l ih =>
    obtain ⟨b, hb⟩ := h x mem_cons_self
    rw [List.allM, hb]
    cases b with
    | true => exact ih fun y hy => h y (mem_cons_of_mem _ hy)
    | false => exact ⟨false, rfl⟩

section
variable {l : List α} {ys : List β} (h : List.Forall₂ P l ys)
include h

/-- What matches some element on the left matches some element on the right. -/
theorem exists_mem_iff_of_forall₂ {A : α → Prop} {B : β → Prop} (hAB : ∀ x y, P x y → (A x ↔ B y)) :
    (∃ x ∈ l, A x) ↔ ∃ y ∈ ys, B y := by
  induction h with
  | nil => simp
  | cons hxy _ ih => rw [exists_mem_cons_iff, exists_mem_cons_iff, ih, hAB _ _ hxy]

theorem exists_left_of_forall₂ {y : β} (hy : y ∈ ys) : ∃ x ∈ l, P x y := by
  induction h with
  | nil => exact nomatch hy
  | @cons x _ _ _ hxy _ ih =>
    rcases mem_cons.mp hy with rfl | hy
    · exact ⟨x, mem_cons_self, hxy⟩
    · obtain ⟨z, hz, hzy⟩ := ih hy
      exact ⟨z, mem_cons_of_mem _ hz, hzy⟩

theorem exists_right_of_forall₂ {x : α} (hx : x ∈ l) : ∃ y ∈ ys, P x y := by
  obtain ⟨y, hy, hyx⟩ := exists_left_of_forall₂ h.flip hx
  exact ⟨y, hy, hyx⟩

end

/-- A loop that keeps the results that are there: it succeeds if every call does. -/
theorem mapM_reduceOption_eq_ok_iff {α β : Type} {f : α → Except χ (Option β)} {l : List α}
    {result : List β} : (do let ys ← l.mapM f; return ys.reduceOption) = .ok result ↔
      (∀ x ∈ l, ∃ y, f x = .ok y) ∧ l.filterMap (fun x => (f x).toOption.join) = result := by
  have hkept : ∀ {l : List α} {ys : List (Option β)}, List.Forall₂ (fun x y => f x = .ok y) l ys →
      ys.reduceOption = l.filterMap fun x => (f x).toOption.join := by
    intro l ys h
    induction h with
    | nil => rfl
    | cons hx _ ih =>
      rw [filterMap_cons, hx, ← ih]
      rfl
  constructor
  · intro h
    obtain ⟨ys, hys, hresult⟩ := bind_eq_ok.mp h
    have hall := forall₂_of_mapM_ok hys
    refine ⟨fun x hx => ?_, ?_⟩
    · obtain ⟨y, _, hy⟩ := exists_right_of_forall₂ hall hx
      exact ⟨y, hy⟩
    · rw [← hkept hall]
      exact Except.ok.inj hresult
  · intro h
    obtain ⟨ys, hys, hall⟩ := mapM_ok_of_forall l fun x hx =>
      (h.1 x hx).imp fun y hy => ⟨hy, hy⟩
    rw [hys, ← h.2, ← hkept hall]
    rfl

/-! ## Loops with a state -/

section
variable {α σ : Type*} {I : List α → σ → Prop} (l : List α) {s : σ}

/-- **The invariant rule for a loop**, in any monad in which its turns return. -/
theorem foldlM_pure_inv {m : Type _ → Type _} [Monad m] [LawfulMonad m] {f : σ → α → m σ}
    (hstep : ∀ done x rest s, l = done ++ x :: rest → I done s →
      ∃ s', f s x = pure s' ∧ I (done ++ [x]) s') (hs : I [] s) :
    ∃ s', l.foldlM f s = pure s' ∧ I l s' := by
  suffices h : ∀ (rest done : List α) (s : σ), l = done ++ rest → I done s →
      ∃ s', rest.foldlM f s = pure s' ∧ I l s' from h l [] s rfl hs
  intro rest
  induction rest with
  | nil =>
    intro done s heq hs
    rw [append_nil] at heq
    exact ⟨s, rfl, heq ▸ hs⟩
  | cons x rest ih =>
    intro done s heq hs
    obtain ⟨s₁, hs₁, hI₁⟩ := hstep done x rest s heq hs
    obtain ⟨s', hs', hI'⟩ := ih (done ++ [x]) s₁ (by rw [heq, append_assoc]; rfl) hI₁
    refine ⟨s', ?_, hI'⟩
    rw [foldlM_cons, hs₁, pure_bind]
    exact hs'

/-- The invariant rule for a loop that may fail. -/
theorem foldlM_inv {f : σ → α → Option σ} (hstep : ∀ done x rest s, l = done ++ x :: rest → I done s →
      ∃ s', f s x = some s' ∧ I (done ++ [x]) s') (hs : I [] s) :
    ∃ s', l.foldlM f s = some s' ∧ I l s' := foldlM_pure_inv l hstep hs

variable {f : σ → α → Except χ σ}

/-- The invariant rule for a loop that raises no exception. -/
theorem foldlM_ok_inv (hstep : ∀ done x rest s, l = done ++ x :: rest →
      I done s → ∃ s', f s x = .ok s' ∧ I (done ++ [x]) s') (hs : I [] s) :
    ∃ s', l.foldlM f s = .ok s' ∧ I l s' := foldlM_pure_inv l hstep hs

/-- What every successful turn keeps, a successful loop keeps. -/
theorem foldlM_preserves {I : σ → Prop} : ∀ (l : List α) {s s' : σ},
    (∀ a ∈ l, ∀ s s', I s → f s a = .ok s' → I s') → I s → l.foldlM f s = .ok s' → I s'
  | [], _, _, _, hs, h => by
    cases h
    exact hs
  | a :: l, s, s', hstep, hs, h => by
    obtain ⟨s₁, hfa, h⟩ := bind_eq_ok.mp h
    exact foldlM_preserves l (fun a' ha' => hstep a' (mem_cons_of_mem _ ha'))
      (hstep a mem_cons_self s s₁ hs hfa) h

/-- The invariant rule for a loop that cannot fail. -/
theorem foldl_inv {f : σ → α → σ}
    (hstep : ∀ done x rest s, l = done ++ x :: rest → I done s → I (done ++ [x]) (f s x))
    (hs : I [] s) : I l (l.foldl f s) := by
  obtain ⟨s', heq, h⟩ := foldlM_pure_inv (m := Id) l
    (fun done x rest s hl hI => ⟨f s x, rfl, hstep done x rest s hl hI⟩) hs
  rw [foldl_eq_foldlM, heq]
  exact h

/-- The condition holds at every step of a run. -/
def AllSteps (step : σ → α → σ) (P : σ → α → Prop) : σ → List α → Prop
  | _, [] => True
  | s, a :: l => P s a ∧ AllSteps step P (step s a) l

/-- Conditions that say the same wherever an invariant holds hold along the same runs. -/
theorem allSteps_congr {step : σ → α → σ} {P Q : σ → α → Prop} {I : σ → Prop}
    (hiff : ∀ s a, I s → (P s a ↔ Q s a)) (hstep : ∀ s a, I s → Q s a → I (step s a)) :
    ∀ {s : σ} (l : List α), I s → (AllSteps step P s l ↔ AllSteps step Q s l)
  | _, [], _ => Iff.rfl
  | s, a :: l, hs => by
    refine Iff.trans (and_congr_left' (hiff s a hs)) (and_congr_right fun hQ => ?_)
    exact allSteps_congr hiff hstep l (hstep s a hs hQ)

end

/-- `batch_iter`: the pieces of a list, all but the last of the given size; `fuel` bounds their
number. -/
def batchIterAux {α : Type*} (size : ℕ) : ℕ → List α → List (List α)
  | 0, _ => []
  | _ + 1, [] => []
  | fuel + 1, x :: l => (x :: l).take size :: batchIterAux size fuel ((x :: l).drop size)

def batchIter {α : Type*} (size : ℕ) (l : List α) : List (List α) := batchIterAux size l.length l

theorem flatten_batchIterAux {α : Type*} {size : ℕ} (hsize : 0 < size) :
    ∀ (fuel : ℕ) (l : List α), l.length ≤ fuel → (batchIterAux size fuel l).flatten = l
  | 0, l, h => (length_eq_zero_iff.mp (Nat.le_zero.mp h)).symm
  | _ + 1, [], _ => rfl
  | fuel + 1, x :: l, h => by
    have hdrop : ((x :: l).drop size).length ≤ fuel := by
      rw [length_drop]
      omega
    rw [batchIterAux, flatten_cons, flatten_batchIterAux hsize fuel _ hdrop, take_append_drop]

theorem flatten_batchIter {α : Type*} {size : ℕ} (hsize : 0 < size) (l : List α) :
    (batchIter size l).flatten = l := flatten_batchIterAux hsize l.length l (Nat.le_refl _)

/-- An order in which to walk a set, given as a list of its elements. -/
structure IterOrder where
  order : ∀ {α : Type}, List α → List α
  perm : ∀ {α : Type} (l : List α), (order l).Perm l

def IterOrder.insertion : IterOrder := ⟨id, fun _ => .refl _⟩

theorem IterOrder.mem_order (o : IterOrder) {α : Type} {l : List α} {x : α} :
    x ∈ o.order l ↔ x ∈ l := (o.perm l).mem_iff

end Synapse.Util
