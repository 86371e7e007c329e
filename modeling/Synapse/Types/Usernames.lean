import Mathlib.Data.List.Basic

/-!
# Usernames of other systems as localparts

`map_username_to_mxid_localpart` turns a username into the localpart of a user ID, by three passes over
its bytes.  With `case_sensitive` no two usernames get the same localpart, and a localpart that it
returns is always allowed.
-/

namespace Synapse.Types

open List

abbrev Byte := Fin 256

def ascii (text : String) : List Byte := text.toList.map fun c => .ofNat 256 c.toNat

def mxidLocalpartAllowedCharacters : List Byte := ascii "_-./=+abcdefghijklmnopqrstuvwxyz0123456789"

def containsInvalidMxidCharacters (localpart : List Byte) : Bool :=
  localpart.any (· ∉ mxidLocalpartAllowedCharacters)

def isUpper (byte : Byte) : Bool := 65 ≤ byte && byte ≤ 90

/-- `bytes.lower`, of one byte. -/
def lower (byte : Byte) : Byte := if isUpper byte then byte + 32 else byte

/-- The first pass of `case_sensitive`: what `UPPER_CASE_PATTERN` matches is marked by an underscore. -/
def markUpper (byte : Byte) : List Byte :=
  if isUpper byte || byte = 95 then [95, lower byte] else [byte]

def hexDigit (n : Byte) : Byte := if n < 10 then 48 + n else 87 + n

/-- The second pass: what `NON_MXID_CHARACTER_PATTERN` matches is written as `=%02x`. -/
def escape (byte : Byte) : List Byte :=
  if byte ∈ mxidLocalpartAllowedCharacters.erase 61 then [byte]
  else [61, hexDigit (byte / 16), hexDigit (byte % 16)]

/-- The last pass, `re.sub(b"^_", b"=5f", username)`. -/
def escapeLeading : List Byte → List Byte
  | [] => []
  | byte :: rest => if byte = 95 then ascii "=5f" ++ rest else byte :: rest

def mapUsernameToMxidLocalpart (username : List Byte) (caseSensitive : Bool) : List Byte :=
  let username := if caseSensitive then username.flatMap markUpper else username.map lower
  escapeLeading (username.flatMap escape)

/-! ## Reading a localpart back -/

def unhexDigit (digit : Byte) : Byte := if digit < 58 then digit - 48 else digit - 87

def unescape : List Byte → List Byte
  | 61 :: high :: low :: rest => (16 * unhexDigit high + unhexDigit low) :: unescape rest
  | byte :: rest => byte :: unescape rest
  | [] => []

def unmark : List Byte → List Byte
  | 95 :: byte :: rest => (if byte = 95 then 95 else byte - 32) :: unmark rest
  | byte :: rest => byte :: unmark rest
  | [] => []

theorem unescape_flatMap_escape (username : List Byte) : unescape (username.flatMap escape) = username := by
  induction username with
  | nil => rfl
  | cons byte rest ih =>
    have hhex : 16 * unhexDigit (hexDigit (byte / 16)) + unhexDigit (hexDigit (byte % 16)) = byte := by
      clear ih
      revert byte
      decide +kernel
    rw [flatMap_cons, escape]
    split
    next h =>
      have hne : byte ≠ 61 := fun heq => absurd (heq ▸ h) (by decide)
      simp [unescape, hne, ih]
    next => simp [unescape, hhex, ih]

/-- `=5f` is read as the underscore that it stands for. -/
theorem unescape_escapeLeading (username : List Byte) :
    unescape (escapeLeading username) = unescape username := by
  unfold escapeLeading
  split
  · rfl
  · split
    next h => rw [h]; rfl
    · rfl

theorem unmark_flatMap_markUpper (username : List Byte) :
    unmark (username.flatMap markUpper) = username := by
  induction username with
  | nil => rfl
  | cons byte rest ih =>
    have hlower : isUpper byte || byte = 95 → (if lower byte = 95 then 95 else lower byte - 32) = byte := by
      clear ih
      revert byte
      decide +kernel
    rw [flatMap_cons, markUpper]
    split
    next h => simp [unmark, hlower h, ih]
    next h => simp_all [unmark]

/-! ## Distinct and allowed -/

theorem allowed_escape (byte : Byte) : ∀ c ∈ escape byte, c ∈ mxidLocalpartAllowedCharacters := by
  have hdigit : ∀ n, n < 16 → hexDigit n ∈ mxidLocalpartAllowedCharacters := by decide +kernel
  unfold escape
  split
  next h => exact forall_mem_singleton.mpr (mem_of_mem_erase h)
  next =>
    have hhigh : byte / 16 < 16 := Fin.lt_def.mpr (Nat.div_lt_of_lt_mul byte.isLt)
    have hlow : byte % 16 < 16 := Fin.lt_def.mpr (Nat.mod_lt byte (by decide))
    simp only [forall_mem_cons]
    exact ⟨by decide +kernel, hdigit _ hhigh, hdigit _ hlow, nofun⟩

theorem escapeLeading_allowed {username : List Byte}
    (h : ∀ byte ∈ username, byte ∈ mxidLocalpartAllowedCharacters) :
    (∀ byte ∈ escapeLeading username, byte ∈ mxidLocalpartAllowedCharacters) ∧
      (escapeLeading username).head? ≠ some 95 := by
  unfold escapeLeading
  split
  · simp
  · split
    · refine ⟨forall_mem_append.mpr ⟨by decide +kernel, (forall_mem_cons.mp h).2⟩, ?_⟩
      exact fun hhead => absurd (Option.some.inj hhead) (by decide)
    next hne => exact ⟨h, fun hhead => hne (Option.some.inj hhead)⟩

/-- **Mapped usernames are distinct and allowed.** -/
theorem mapUsernameToMxidLocalpart_spec :
    Function.Injective (mapUsernameToMxidLocalpart · true) ∧
      ∀ username caseSensitive,
        containsInvalidMxidCharacters (mapUsernameToMxidLocalpart username caseSensitive) = false ∧
          (mapUsernameToMxidLocalpart username caseSensitive).head? ≠ some 95 := by
  constructor
  · refine Function.LeftInverse.injective (g := unmark ∘ unescape) fun username => ?_
    show unmark (unescape (escapeLeading _)) = _
    rw [unescape_escapeLeading, unescape_flatMap_escape, if_pos rfl, unmark_flatMap_markUpper]
  · intro username caseSensitive
    unfold mapUsernameToMxidLocalpart
    generalize (if caseSensitive then username.flatMap markUpper else username.map lower) = username
    have hescaped : ∀ c ∈ username.flatMap escape, c ∈ mxidLocalpartAllowedCharacters := by
      intro c hc
      obtain ⟨byte, _, hbyte⟩ := mem_flatMap.mp hc
      exact allowed_escape byte c hbyte
    obtain ⟨hallowed, hhead⟩ := escapeLeading_allowed hescaped
    refine ⟨any_eq_false.mpr fun c hc => ?_, hhead⟩
    simpa using hallowed c hc

end Synapse.Types
