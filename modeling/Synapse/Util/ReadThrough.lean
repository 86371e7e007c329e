import Synapse.Util.Dict
import Synapse.Util.Loops

/-!
# A read-through cache

A program looks values up in a cache and, when the cache does not have them, in a store, and then keeps
them in the cache.  What it sees is the *view*: what the cache has, or else what the store has.  The
cache grows, the view stays, so such a program computes what the same program would compute if it
looked everything up in the view.

`Reads x r` says this of a program `x` that threads the cache and can raise exceptions, and of the
outcome `r` of the other one, whose exceptions may say less.  There is one rule for each way of putting
programs together.  Keys in `present` can be looked up in the cache alone.
-/

namespace Synapse.Util
variable {κ ν χ τ : Type} [DecidableEq κ]

/-- Look a key up in the cache, or else in the store. -/
def fetchThrough (store : κ → Option ν) (k : κ) : StateT (Dict κ ν) (Except χ) (Option ν) := fun cache =>
    if k ∈ cache then .ok (cache.lookup k, cache)
    else
      match store k with
      | some v => .ok (some v, cache.insert k v)
      | none => .ok (none, cache)

/-- A key that the cache must have. -/
def indexCache (missing : χ) (k : κ) : StateT (Dict κ ν) (Except χ) ν := fun cache =>
  match cache.lookup k with
  | some v => .ok (v, cache)
  | none => .error missing

/-- A cache that shows the view, with the keys that must be present. -/
structure Coherent (store view : κ → Option ν) (present : κ → Prop) (cache : Dict κ ν) : Prop where
  shows : ∀ k, (cache.lookup k).or (store k) = view k
  has : ∀ k, present k → k ∈ cache

/-- The program `x` has the outcome `r` from every cache that shows the view. -/
def Reads (stop : χ → τ) (store view : κ → Option ν) (present : κ → Prop) {α : Type}
    (x : StateT (Dict κ ν) (Except χ) α) (r : Except τ α) : Prop :=
  ∀ cache, Coherent store view present cache →
    match r with
    | .ok a => ∃ cache', x cache = .ok (a, cache') ∧ Coherent store view present cache'
    | .error t => ∃ err, x cache = .error err ∧ stop err = t

namespace Reads
variable {stop : χ → τ} {store view : κ → Option ν} {present : κ → Prop} {α β : Type}

theorem pure (a : α) : Reads stop store view present (Pure.pure a) (Pure.pure a) :=
  fun cache hcache => ⟨cache, rfl, hcache⟩

theorem raise (err : χ) :
    Reads stop store view present (fun _ => .error err : StateT (Dict κ ν) (Except χ) α)
      (.error (stop err)) := fun _ _ => ⟨err, rfl, rfl⟩

theorem bind {x : StateT (Dict κ ν) (Except χ) α} {r : Except τ α}
    {f : α → StateT (Dict κ ν) (Except χ) β} {g : α → Except τ β} (hx : Reads stop store view present x r)
    (hf : ∀ a, r = .ok a → Reads stop store view present (f a) (g a)) :
    Reads stop store view present (x >>= f) (r >>= g) := by
  intro cache hcache
  have hrun := hx cache hcache
  cases r with
  | error t =>
    obtain ⟨err, herr, hstop⟩ := hrun
    refine ⟨err, ?_, hstop⟩
    show (x cache >>= fun p => f p.1 p.2) = _
    rw [herr]
    rfl
  | ok a =>
    obtain ⟨cache', hok, hcache'⟩ := hrun
    have hrest := hf a rfl cache' hcache'
    have hbind : (x >>= f) cache = f a cache' := by
      show (x cache >>= fun p => f p.1 p.2) = _
      rw [hok]
      rfl
    rw [hbind]
    exact hrest

theorem fetch (k : κ) : Reads stop store view present (fetchThrough store k) (.ok (view k)) := by
  intro cache hcache
  have hview := hcache.shows k
  unfold fetchThrough
  dsimp only
  split
  next hk =>
    obtain ⟨v, hv⟩ := Dict.exists_lookup hk
    rw [hv, Option.some_or] at hview
    exact ⟨cache, by rw [hv, hview], hcache⟩
  next hk =>
    rw [AList.lookup_eq_none.mpr hk, Option.none_or] at hview
    split
    next v hv =>
      refine ⟨cache.insert k v, by rw [← hview, hv], fun k' => ?_, fun k' hk' => ?_⟩
      · rw [Dict.lookup_insert_ite]
        split
        next heq => rw [heq, ← hview, hv, Option.some_or]
        · exact hcache.shows k'
      · exact (AList.mem_insert cache).mpr (.inr (hcache.has k' hk'))
    next hv => exact ⟨cache, by rw [← hview, hv], hcache⟩

theorem index {k : κ} {v : ν} (missing : χ) (hk : present k) (hv : view k = some v) :
    Reads stop store view present (indexCache missing k) (.ok v) := by
  intro cache hcache
  obtain ⟨v', hv'⟩ := Dict.exists_lookup (hcache.has k hk)
  have hview := hcache.shows k
  rw [hv', hv, Option.some_or] at hview
  obtain rfl := Option.some.inj hview
  refine ⟨cache, ?_, hcache⟩
  unfold indexCache
  rw [hv']

theorem foldlM {f : β → α → StateT (Dict κ ν) (Except χ) β} {g : β → α → Except τ β} :
    ∀ (l : List α) (b : β), (∀ b, ∀ a ∈ l, Reads stop store view present (f b a) (g b a)) →
      Reads stop store view present (l.foldlM f b) (l.foldlM g b)
  | [], b, _ => .pure b
  | a :: l, b, h => by
    refine .bind (h b a List.mem_cons_self) fun b' _ => ?_
    exact foldlM l b' fun b'' a' ha' => h b'' a' (List.mem_cons_of_mem _ ha')

theorem ofKeysM {κ' : Type} [DecidableEq κ'] {f : κ' → StateT (Dict κ ν) (Except χ) β}
    {g : κ' → Except τ β} (keys : List κ') (h : ∀ k ∈ keys, Reads stop store view present (f k) (g k)) :
    Reads stop store view present (Dict.ofKeysM keys f) (Dict.ofKeysM keys g) :=
  .foldlM keys ∅ fun _ k hk => .bind (h k hk) fun _ _ => .pure _

end Reads
end Synapse.Util
