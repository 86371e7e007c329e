import Mathlib.Data.List.Basic
import Mathlib.Data.Int.Basic

/-!
# Batches of replication rows

Several rows of a stream can have the same token.  A writer sends them one by one, all but the last
without the token (`Streamer.batchUpdates`); the receiver of one writer's rows keeps those without a
token until it sees one that has it (`assemble`), and a receiver that fetches the rows itself puts
those of one token together (`Handler.batchUpdates`).  What is assembled from a writer's rows is what
would have been put together from its updates.
-/

namespace Synapse.Replication
variable {ρ : Type}

/-- `_batch_updates` of `resource.py`: only the last row of a token is sent with the token. -/
def Streamer.batchUpdates : List (ℤ × ρ) → List (Option ℤ × ρ)
  | [] => []
  | [(token, row)] => [(some token, row)]
  | (token, row) :: (token', row') :: updates =>
    (if token = token' then none else some token, row) :: batchUpdates ((token', row') :: updates)

/-- The loop of `_batch_updates` of `handler.py`, with the batch it is at. -/
def Handler.collectBatch (token : ℤ) (batch : List ρ) : List (ℤ × ρ) → List (ℤ × List ρ)
  | [] => [(token, batch)]
  | (token', row) :: updates =>
    if token' ≠ token then (token, batch) :: collectBatch token' [row] updates
    else collectBatch token (batch ++ [row]) updates

/-- `_batch_updates` of `handler.py`: the updates of one token together. -/
def Handler.batchUpdates : List (ℤ × ρ) → List (ℤ × List ρ)
  | [] => []
  | (token, row) :: updates => collectBatch token [row] updates

/-- The batches that rows sent one by one make up, after rows that wait for their token, and the rows
that still wait at the end. -/
def assemble (waiting : List ρ) : List (Option ℤ × ρ) → List (ℤ × List ρ) × List ρ
  | [] => ([], waiting)
  | (none, row) :: rest => assemble (waiting ++ [row]) rest
  | (some token, row) :: rest =>
    ((token, waiting ++ [row]) :: (assemble [] rest).1, (assemble [] rest).2)

theorem assemble_append (xs ys : List (Option ℤ × ρ)) : ∀ waiting : List ρ,
    assemble waiting (xs ++ ys) = ((assemble waiting xs).1 ++ (assemble (assemble waiting xs).2 ys).1,
        (assemble (assemble waiting xs).2 ys).2) := by
  induction xs with
  | nil => intro waiting; rfl
  | cons x xs ih =>
    obtain ⟨token, row⟩ := x
    intro waiting
    cases token with
    | none => exact ih (waiting ++ [row])
    | some token =>
      rw [List.cons_append, assemble, ih]
      rfl

theorem assemble_snoc (xs : List (Option ℤ × ρ)) (token : Option ℤ) (row : ρ) :
    assemble [] (xs ++ [(token, row)]) = match token with
      | none => ((assemble [] xs).1, (assemble [] xs).2 ++ [row])
      | some token => ((assemble [] xs).1 ++ [(token, (assemble [] xs).2 ++ [row])], []) := by
  rw [assemble_append]
  cases token with
  | none => simp [assemble]
  | some token => rfl

/-- More rows only add batches. -/
theorem assemble_mono {xs ys : List (Option ℤ × ρ)} (h : xs <+: ys) :
    (assemble [] xs).1 <+: (assemble [] ys).1 := by
  obtain ⟨rest, rfl⟩ := h
  rw [assemble_append]
  exact List.prefix_append _ _

variable (updates : List (ℤ × ρ))

theorem assemble_batchUpdates_cons : ∀ (token : ℤ) (row : ρ) (waiting : List ρ),
    assemble waiting (Streamer.batchUpdates ((token, row) :: updates)) =
      (Handler.collectBatch token (waiting ++ [row]) updates, []) := by
  induction updates with
  | nil => intro token row waiting; rfl
  | cons u updates ih =>
    obtain ⟨token', row'⟩ := u
    intro token row waiting
    unfold Streamer.batchUpdates Handler.collectBatch
    by_cases h : token = token'
    · subst h
      rw [if_pos rfl, if_neg (fun hne => hne rfl)]
      exact ih token row' (waiting ++ [row])
    · rw [if_neg h, if_pos (fun he => h he.symm)]
      rw [assemble, ih token' row' []]
      rfl

/-- **What is sent row by row is assembled again.** -/
theorem assemble_batchUpdates :
    assemble [] (Streamer.batchUpdates updates) = (Handler.batchUpdates updates, []) := by
  cases updates with
  | nil => rfl
  | cons u updates =>
    obtain ⟨token, row⟩ := u
    exact assemble_batchUpdates_cons updates token row []

/-- The same for several rounds of updates. -/
theorem assemble_flatMap_batchUpdates (rounds : List (List (ℤ × ρ))) :
    assemble [] (rounds.flatMap Streamer.batchUpdates) = (rounds.flatMap Handler.batchUpdates, []) := by
  induction rounds with
  | nil => rfl
  | cons updates rounds ih =>
    rw [List.flatMap_cons, List.flatMap_cons, assemble_append, assemble_batchUpdates, ih]

end Synapse.Replication
