import Mathlib.Data.Nat.Digits.Defs

/-!
# Text

Decimal numbers as Python's `str` writes and `int` reads them, and lists of fields that are joined and
split at a separator.  Text is a list of characters here.
-/

namespace Synapse.Util

open List

/-- `str` of an integer. -/
def decimal : ℤ → List Char
  | .ofNat n => Nat.toDigits 10 n
  | .negSucc n => '-' :: Nat.toDigits 10 (n + 1)

/-- The digits of a literal, which may be grouped by single underscores. -/
def parseDigits (text : List Char) : Option ℕ :=
  if (text.splitOn '_').all fun group => !group.isEmpty && group.all Char.isDigit then
    some (Nat.ofDigitChars 10 (text.splitOn '_').flatten 0)
  else none

/-- The zeros of the decimal digits beyond ASCII, as of Unicode 14. -/
def zeros : List ℕ :=
  [0x660, 0x6f0, 0x7c0, 0x966, 0x9e6, 0xa66, 0xae6, 0xb66, 0xbe6, 0xc66, 0xce6, 0xd66, 0xde6, 0xe50,
    0xed0, 0xf20, 0x1040, 0x1090, 0x17e0, 0x1810, 0x1946, 0x19d0, 0x1a80, 0x1a90, 0x1b50, 0x1bb0, 0x1c40,
    0x1c50, 0xa620, 0xa8d0, 0xa900, 0xa9d0, 0xa9f0, 0xaa50, 0xabf0, 0xff10, 0x104a0, 0x10d30, 0x11066,
    0x110f0, 0x11136, 0x111d0, 0x112f0, 0x11450, 0x114d0, 0x11650, 0x116c0, 0x11730, 0x118e0, 0x11950,
    0x11c50, 0x11d50, 0x11da0, 0x16a60, 0x16ac0, 0x16b50, 0x1d7ce, 0x1d7d8, 0x1d7e2, 0x1d7ec, 0x1d7f6,
    0x1e140, 0x1e2f0, 0x1e950, 0x1fbf0]

/-- A character as `int` reads it: every decimal digit as the ASCII digit, all other white space as a
blank. -/
def toAscii (c : Char) : Char :=
  let n := c.toNat
  if n < 128 then c
  else if n ∈ [0x85, 0xa0, 0x1680, 0x2028, 0x2029, 0x202f, 0x205f, 0x3000] ∨ 0x2000 ≤ n ∧ n ≤ 0x200a then ' '
  else
    match zeros.find? fun z => z ≤ n ∧ n < z + 10 with
    | some z => (n - z).digitChar
    | none => '?'

/-- The white space around a number. -/
def spaces : List Char := [' ', '\t', '\n', '\x0b', '\x0c', '\r']

/-- A text without the white space around it. -/
def strip (text : List Char) : List Char :=
  ((text.dropWhile (· ∈ spaces)).reverse.dropWhile (· ∈ spaces)).reverse

/-- `int` of a text. -/
def parseInt (text : List Char) : Option ℤ :=
  match strip (text.map toAscii) with
  | '+' :: digits => (parseDigits digits).map Int.ofNat
  | '-' :: digits => (parseDigits digits).map fun n => -Int.ofNat n
  | digits => (parseDigits digits).map Int.ofNat

/-- `text.split(separator, 1)`. -/
def splitOnce (separator : Char) (text : List Char) : List (List Char) :=
  match text.dropWhile (· ≠ separator) with
  | [] => [text]
  | _ :: rest => [text.takeWhile (· ≠ separator), rest]

/-! ## Numbers -/

theorem isDigit_ne {c c' : Char} (h : c.isDigit = true) (h' : c'.isDigit = false) : c ≠ c' := by
  intro heq
  rw [heq, h'] at h
  exact absurd h Bool.false_ne_true

variable {c : Char} {text : List Char}

theorem notMem_of_isDigit (h : ∀ d ∈ text, d.isDigit = true)
    (hc : c.isDigit = false) : c ∉ text := fun hmem => isDigit_ne (h c hmem) hc rfl

theorem isDigit_of_mem_toDigits {n : ℕ} (h : c ∈ Nat.toDigits 10 n) : c.isDigit = true :=
  Nat.isDigit_of_mem_toDigits (by decide) (by decide) h

theorem parseDigits_toDigits (n : ℕ) : parseDigits (Nat.toDigits 10 n) = some n := by
  have hdigit : ∀ c ∈ Nat.toDigits 10 n, c.isDigit = true := fun _ => isDigit_of_mem_toDigits
  unfold parseDigits
  rw [splitOn_eq_singleton (notMem_of_isDigit hdigit (by decide)), if_pos, flatten_singleton,
    Nat.ofDigitChars_toDigits (by decide) (by decide)]
  simpa [Nat.toDigits_ne_nil] using hdigit

theorem toAscii_of_isDigit (h : c.isDigit = true) : toAscii c = c := by
  have hle : c.toNat ≤ 57 := by
    simp only [Char.isDigit, Bool.and_eq_true, decide_eq_true_eq] at h
    exact h.2
  exact if_pos (by omega)

theorem strip_map_toAscii (h : ∀ c ∈ text, c ∉ spaces ∧ toAscii c = c) :
    strip (text.map toAscii) = text := by
  have hdrop : ∀ {text : List Char}, (∀ c ∈ text, c ∉ spaces) → text.dropWhile (· ∈ spaces) = text := by
    intro text h
    cases text with
    | nil => rfl
    | cons c text => rw [dropWhile_cons, if_neg (by simpa using h c mem_cons_self)]
  rw [map_congr_left fun c hc => (h c hc).2, map_id']
  unfold strip
  rw [hdrop fun c hc => (h c hc).1, hdrop fun c hc => (h c (mem_reverse.mp hc)).1, reverse_reverse]

theorem notMem_spaces_of_isDigit (h : c.isDigit = true) : c ∉ spaces ∧ toAscii c = c :=
  ⟨fun hc => isDigit_ne h ((by simp [spaces] : ∀ d ∈ spaces, d.isDigit = false) c hc) rfl,
    toAscii_of_isDigit h⟩

theorem parseInt_decimal : ∀ n : ℤ, parseInt (decimal n) = some n
  | .ofNat n => by
    have hdigit : ∀ c ∈ Nat.toDigits 10 n, c.isDigit = true := fun _ => isDigit_of_mem_toDigits
    have hparse := parseDigits_toDigits n
    unfold parseInt decimal
    rw [strip_map_toAscii fun c hc => notMem_spaces_of_isDigit (hdigit c hc)]
    split
    next digits heq => exact absurd (heq ▸ hdigit) fun h => absurd (h '+' mem_cons_self) (by decide)
    next digits heq => exact absurd (heq ▸ hdigit) fun h => absurd (h '-' mem_cons_self) (by decide)
    · rw [hparse]; rfl
  | .negSucc n => by
    have hplain : ∀ c ∈ '-' :: Nat.toDigits 10 (n + 1), c ∉ spaces ∧ toAscii c = c :=
      forall_mem_cons.mpr ⟨by decide, fun c hc => notMem_spaces_of_isDigit (isDigit_of_mem_toDigits hc)⟩
    unfold parseInt decimal
    rw [strip_map_toAscii hplain]
    show (parseDigits (Nat.toDigits 10 (n + 1))).map _ = _
    rw [parseDigits_toDigits]
    rfl

/-- A number is written with digits and a sign. -/
theorem notMem_decimal (hdigit : c.isDigit = false) (hsign : c ≠ '-') : ∀ n : ℤ, c ∉ decimal n
  | .ofNat _ => notMem_of_isDigit (fun _ => isDigit_of_mem_toDigits) hdigit
  | .negSucc _ => fun hmem => by
    rcases mem_cons.mp hmem with heq | hmem
    · exact hsign heq
    · exact notMem_of_isDigit (fun _ => isDigit_of_mem_toDigits) hdigit hmem

theorem exists_cons_decimal {n : ℤ} (h : 0 ≤ n) :
    ∃ c text, decimal n = c :: text ∧ (toAscii c).isDigit = true := by
  obtain ⟨n, rfl⟩ := Int.eq_ofNat_of_zero_le h
  obtain ⟨c, text, heq⟩ := exists_cons_of_ne_nil (Nat.toDigits_ne_nil (n := n) (b := 10))
  have hc : c.isDigit = true := isDigit_of_mem_toDigits (heq ▸ mem_cons_self)
  exact ⟨c, text, heq, (toAscii_of_isDigit hc).symm ▸ hc⟩

/-! ## Fields -/

theorem splitOnce_append {text rest : List Char} (h : c ∉ text) :
    splitOnce c (text ++ c :: rest) = [text, rest] := by
  have hne : ∀ d ∈ text, decide (d ≠ c) = true := fun d hd =>
    decide_eq_true fun heq => h (heq ▸ hd)
  unfold splitOnce
  rw [dropWhile_append_of_pos hne, takeWhile_append_of_pos hne, dropWhile_cons, takeWhile_cons]
  simp

theorem notMem_intercalate {c separator : Char} (hne : c ≠ separator) :
    ∀ {fields : List (List Char)}, (∀ field ∈ fields, c ∉ field) → c ∉ [separator].intercalate fields
  | [], _ => not_mem_nil
  | [field], h => by
    rw [intercalate_singleton]
    exact h field mem_cons_self
  | field :: field' :: fields, h => by
    rw [intercalate_cons_cons]
    intro hmem
    rcases mem_append.mp hmem with hmem | hmem
    · rcases mem_append.mp hmem with hmem | hmem
      · exact h field mem_cons_self hmem
      · exact hne (mem_singleton.mp hmem)
    · exact notMem_intercalate hne (fun field hfield => h field (mem_cons_of_mem _ hfield)) hmem

end Synapse.Util
