import Synapse.Util.Dict
import Synapse.Util.Loops

/-!
# Outcomes that do not depend on the order

A loop over a set may fail at any of its elements, and which failure comes first depends on how the set
is walked.  If all failures look alike then whether the loop fails does not, as long as no element's
turn can fail because of what an earlier one did.

`OnlyFails t x` says that `t` is the one way in which `x` can fail.  `Yields t x ok Q` also says when it
does: exactly if `ok` does not hold; the result of a success meets `Q`.
-/

namespace Synapse.Util

open List

variable {τ α β : Type} {t : τ}

/-- A failure of `x` is `t`. -/
def OnlyFails (t : τ) (x : Except τ α) : Prop := ∀ t', x = .error t' → t' = t

namespace OnlyFails

theorem ok (a : α) : OnlyFails t (.ok a) := nofun

theorem error : OnlyFails t (.error t : Except τ α) := fun _ h => (Except.error.inj h).symm

theorem bind {x : Except τ α} {f : α → Except τ β} (hx : OnlyFails t x)
    (hf : ∀ a, x = .ok a → OnlyFails t (f a)) : OnlyFails t (x >>= f) := by
  cases x with
  | error t' => exact fun t'' h => hx t'' (congrArg _ (Except.error.inj h))
  | ok a => exact hf a rfl

theorem foldlM {f : β → α → Except τ β} : ∀ (l : List α) (b : β),
    (∀ b, ∀ a ∈ l, OnlyFails t (f b a)) → OnlyFails t (l.foldlM f b)
  | [], b, _ => ok b
  | a :: l, b, h => by
    refine bind (h b a mem_cons_self) fun b' _ => ?_
    exact foldlM l b' fun b'' a' ha' => h b'' a' (mem_cons_of_mem _ ha')

end OnlyFails

/-- `x` succeeds exactly if `ok` holds, with a result that meets `Q`; otherwise it fails with `t`. -/
def Yields (t : τ) (x : Except τ α) (ok : Prop) (Q : α → Prop) : Prop :=
  (ok ∧ ∃ a, x = .ok a ∧ Q a) ∨ (¬ ok ∧ x = .error t)

namespace Yields
variable {x : Except τ α} {ok ok' : Prop} {Q Q' : α → Prop}

theorem of_onlyFails (h : OnlyFails t x) : Yields t x (∃ a, x = .ok a) (x = .ok ·) := by
  cases x with
  | error t' =>
    obtain rfl := h t' rfl
    refine .inr ⟨?_, rfl⟩
    exact fun ⟨a, ha⟩ => nomatch ha
  | ok a => exact .inl ⟨⟨a, rfl⟩, a, rfl, rfl⟩

theorem exists_ok (h : Yields t x ok Q) (hok : ok) : ∃ a, x = .ok a ∧ Q a := by
  rcases h with ⟨_, h⟩ | ⟨hnot, _⟩
  · exact h
  · exact absurd hok hnot

theorem of_eq_ok {a : α} (h : Yields t x ok Q) (ha : x = .ok a) : Q a := by
  rcases h with ⟨_, a', ha', hQ⟩ | ⟨_, ha'⟩
  · rw [Except.ok.inj (ha.symm.trans ha')]
    exact hQ
  · exact nomatch ha.symm.trans ha'

theorem congr_ok (h : Yields t x ok Q) (hok : ok ↔ ok') : Yields t x ok' Q := by
  rwa [← propext hok]

variable {f : α → Except τ β} {R : β → Prop}

theorem bind (hx : Yields t x ok Q)
    (hf : ∀ a, x = .ok a → Q a → Yields t (f a) ok' R) : Yields t (x >>= f) (ok ∧ ok') R := by
  rcases hx with ⟨hok, a, rfl, hQ⟩ | ⟨hok, rfl⟩
  · rcases hf a rfl hQ with ⟨hok', h⟩ | ⟨hok', h⟩
    · exact .inl ⟨⟨hok, hok'⟩, h⟩
    · exact .inr ⟨fun h => hok' h.2, h⟩
  · exact .inr ⟨fun h => hok h.1, rfl⟩

theorem bind_ok (hx : Yields t x ok Q)
    (hf : ok → ∀ a, Q a → ∃ b, f a = .ok b ∧ R b) : Yields t (x >>= f) ok R := by
  rcases hx with ⟨hok, a, rfl, hQ⟩ | ⟨hok, rfl⟩
  · exact .inl ⟨hok, hf hok a hQ⟩
  · exact .inr ⟨hok, rfl⟩

theorem foldlM {f : β → α → Except τ β} {okAt : α → Prop} {I : List α → β → Prop} (l : List α)
    (hstep : ∀ done a rest b, l = done ++ a :: rest → I done b →
      Yields t (f b a) (okAt a) (I (done ++ [a]))) {b : β} (hb : I [] b) :
    Yields t (l.foldlM f b) (∀ a ∈ l, okAt a) (I l) := by
  suffices h : ∀ (rest done : List α) (b : β), l = done ++ rest → I done b →
      Yields t (rest.foldlM f b) (∀ a ∈ rest, okAt a) (I l) from h l [] b rfl hb
  intro rest
  induction rest with
  | nil =>
    intro done b heq hb
    rw [append_nil] at heq
    exact .inl ⟨fun a ha => absurd ha not_mem_nil, b, rfl, heq ▸ hb⟩
  | cons a rest ih =>
    intro done b heq hb
    refine ((hstep done a rest b heq hb).bind fun b' _ hb' => ?_).congr_ok forall_mem_cons.symm
    exact ih (done ++ [a]) b' (by rw [heq, append_assoc]; rfl) hb'

/-- The values of a dictionary that is built key by key. -/
theorem ofKeysM {κ : Type} [DecidableEq κ] {f : κ → Except τ β} (keys : List κ)
    (h : ∀ k ∈ keys, OnlyFails t (f k)) :
    Yields t (Dict.ofKeysM keys f) (∀ k ∈ keys, ∃ v, f k = .ok v) fun d =>
      ∀ k ∈ keys, ∀ v, f k = .ok v → d.lookup k = some v := by
  refine foldlM (I := fun done (d : Dict κ β) => ∀ k ∈ done, ∀ v, f k = .ok v → d.lookup k = some v)
    keys ?_ nofun
  intro done k rest d heq hd
  have hk : k ∈ keys := by
    rw [heq]
    exact mem_append_cons_self
  refine (of_onlyFails (h k hk)).bind_ok fun _ v hv => ⟨_, rfl, ?_⟩
  intro k' hk' v' hv'
  by_cases hne : k' = k
  · subst hne
    rw [AList.lookup_insert]
    exact congrArg some (Except.ok.inj (hv.symm.trans hv'))
  · rw [AList.lookup_insert_ne hne]
    refine hd k' ((mem_append.mp hk').resolve_right fun h => hne (mem_singleton.mp h)) v' hv'

end Yields

/-- Both succeed, with results that are related, or both fail with `t`. -/
def Agree (t : τ) (R : α → β → Prop) (x : Except τ α) (y : Except τ β) : Prop :=
  (∃ a b, x = .ok a ∧ y = .ok b ∧ R a b) ∨ (x = .error t ∧ y = .error t)

namespace Agree
variable {γ δ : Type} {R : α → β → Prop} {S : γ → δ → Prop} {x : Except τ α} {y : Except τ β}

theorem ok {a : α} {b : β} (h : R a b) : Agree t R (.ok a) (.ok b) := .inl ⟨a, b, rfl, rfl, h⟩

theorem error : Agree t R (.error t) (.error t) := .inr ⟨rfl, rfl⟩

theorem refl (h : OnlyFails t x) : Agree t Eq x x := by
  cases x with
  | error t' =>
    obtain rfl := h t' rfl
    exact error
  | ok a => exact ok rfl

theorem of_yields {ok ok' : Prop} {Q : α → Prop} {Q' : β → Prop} (hx : Yields t x ok Q)
    (hy : Yields t y ok' Q') (hok : ok ↔ ok') : Agree t (fun a b => ok ∧ Q a ∧ Q' b) x y := by
  rcases hx with ⟨h, a, ha, hQ⟩ | ⟨h, ha⟩
  · obtain ⟨b, hb, hQ'⟩ := hy.exists_ok (hok.mp h)
    exact .inl ⟨a, b, ha, hb, h, hQ, hQ'⟩
  · rcases hy with ⟨h', _⟩ | ⟨_, hb⟩
    · exact absurd (hok.mpr h') h
    · exact .inr ⟨ha, hb⟩

theorem mono {R' : α → β → Prop} (h : Agree t R x y) (hR : ∀ a b, R a b → R' a b) : Agree t R' x y := by
  rcases h with ⟨a, b, ha, hb, hab⟩ | h
  · exact .inl ⟨a, b, ha, hb, hR a b hab⟩
  · exact .inr h

theorem eq {y : Except τ α} (h : Agree t Eq x y) : x = y := by
  rcases h with ⟨a, b, rfl, rfl, rfl⟩ | ⟨rfl, rfl⟩
  · rfl
  · rfl

theorem onlyFails (h : Agree t R x y) : OnlyFails t x := by
  rcases h with ⟨a, b, rfl, rfl, _⟩ | ⟨rfl, rfl⟩
  · exact .ok a
  · exact .error

theorem bind {f : α → Except τ γ} {g : β → Except τ δ} (h : Agree t R x y)
    (hf : ∀ a b, x = .ok a → R a b → Agree t S (f a) (g b)) : Agree t S (x >>= f) (y >>= g) := by
  rcases h with ⟨a, b, rfl, rfl, hab⟩ | ⟨rfl, rfl⟩
  · exact hf a b rfl hab
  · exact error

theorem foldlM {f : α → γ → Except τ α} {g : β → γ → Except τ β} : ∀ (l : List γ) {a : α} {b : β},
    (∀ c ∈ l, ∀ a b, R a b → Agree t R (f a c) (g b c)) → R a b → Agree t R (l.foldlM f a) (l.foldlM g b)
  | [], _, _, _, hab => ok hab
  | c :: l, a, b, h, hab => by
    refine (h c mem_cons_self a b hab).bind fun a' b' _ hab' => ?_
    exact foldlM l (fun c' hc' => h c' (mem_cons_of_mem _ hc')) hab'

end Agree
end Synapse.Util
