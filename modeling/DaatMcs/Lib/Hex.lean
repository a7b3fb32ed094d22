/-
# Hexadecimal literals

`hex`, `{:X}` and `int(.., 16)` of Python, on lists of characters: what is
written reads back as the number, in small and in capital digits
(`intOfHex_hex`, `intOfHex_upperHex`).
-/
import Mathlib.Data.List.DropRight
import Mathlib.Tactic.Common

namespace DaatMcs

/-- `hex`: the digits behind `0x`. -/
def hex (n : ℕ) : List Char := '0' :: 'x' :: Nat.toDigits 16 n

/-- `0x{n:X}`. -/
def upperHex (n : ℕ) : List Char := '0' :: 'x' :: (Nat.toDigits 16 n).map Char.toUpper

def hexDigit (c : Char) : Option ℕ :=
  if '0' ≤ c ∧ c ≤ '9' then some (c.toNat - '0'.toNat)
  else if 'a' ≤ c ∧ c ≤ 'f' then some (c.toNat - 'a'.toNat + 10)
  else if 'A' ≤ c ∧ c ≤ 'F' then some (c.toNat - 'A'.toNat + 10)
  else none

/-- The digits of an `int` literal, with single underscores between them;
`need` while a digit must come next. -/
def hexDigits (need : Bool) (n : ℕ) : List Char → Option ℕ
  | [] => if need then none else some n
  | c :: cs =>
    if c = '_' then if need then none else hexDigits true n cs
    else (hexDigit c).bind fun d => hexDigits false (16 * n + d) cs

/-- The magnitude: an optional `0x`, which an underscore may follow. -/
def hexMagnitude : List Char → Option ℕ
  | '0' :: 'x' :: '_' :: cs | '0' :: 'X' :: '_' :: cs => hexDigits true 0 cs
  | '0' :: 'x' :: cs | '0' :: 'X' :: cs => hexDigits true 0 cs
  | cs => hexDigits true 0 cs

/-- `int(s, 16)` on ASCII text; `none` is its `ValueError`. -/
def intOfHex (s : List Char) : Option ℤ :=
  match (s.dropWhile Char.isWhitespace).rdropWhile Char.isWhitespace with
  | '-' :: cs => (hexMagnitude cs).map fun n => -(n : ℤ)
  | '+' :: cs => (hexMagnitude cs).map Nat.cast
  | cs => (hexMagnitude cs).map Nat.cast

/-! ### Reading back what was written -/

/-- A spelling of the digits, such as `id` and `Char.toUpper`, that `int` can read. -/
def Spelling (f : Char → Char) : Prop := ∀ d < 16, hexDigit (f (Nat.digitChar d)) = some d ∧
  f (Nat.digitChar d) ≠ '_' ∧ (f (Nat.digitChar d)).isWhitespace = false

theorem spelling_id : Spelling id := by
  unfold Spelling
  decide

theorem spelling_toUpper : Spelling Char.toUpper := by
  unfold Spelling
  decide

variable {f : Char → Char}

theorem hexDigits_digitChar (hf : Spelling f) (need : Bool) (n : ℕ) {d : ℕ} (hd : d < 16)
    (cs : List Char) : hexDigits need n (f (Nat.digitChar d) :: cs) =
      hexDigits false (16 * n + d) cs := by
  rw [hexDigits, if_neg (hf d hd).2.1, (hf d hd).1]
  rfl

theorem hexDigits_toDigits (hf : Spelling f) (n : ℕ) : ∀ cs,
    hexDigits true 0 ((Nat.toDigits 16 n).map f ++ cs) = hexDigits false n cs := by
  induction n using Nat.base_induction 16 (by decide) with
  | single d hd =>
    intro cs
    rw [Nat.toDigits_of_lt_base hd, List.map_singleton, List.singleton_append,
      hexDigits_digitChar hf _ _ hd]
    simp
  | digit d k hd hk ih =>
    intro cs
    rw [← Nat.toDigits_append_toDigits (by decide) hk hd, Nat.toDigits_of_lt_base hd,
      List.map_append, List.map_singleton, List.append_assoc, ih, List.singleton_append,
      hexDigits_digitChar hf _ _ hd]

/-- The last digit is no white space, so nothing is stripped. -/
theorem exists_toDigits_concat (n : ℕ) : ∃ cs d, d < 16 ∧
    Nat.toDigits 16 n = cs ++ [Nat.digitChar d] := by
  rw [Nat.toDigits_eq_if (by decide)]
  split
  · rename_i h
    exact ⟨[], n, h, rfl⟩
  · exact ⟨_, n % 16, Nat.mod_lt _ (by decide), rfl⟩

theorem hexMagnitude_spelling (hf : Spelling f) (n : ℕ) :
    hexMagnitude ('0' :: 'x' :: (Nat.toDigits 16 n).map f) = some n := by
  have hdig := hexDigits_toDigits hf n []
  rw [List.append_nil] at hdig
  -- an underscore cannot be the first digit
  cases h : (Nat.toDigits 16 n).map f with
  | nil => exact absurd (List.map_eq_nil_iff.mp h) Nat.toDigits_ne_nil
  | cons c cs =>
    rw [h] at hdig
    by_cases hc : c = '_'
    · simp [hexDigits, hc] at hdig
    · rw [hexMagnitude]
      · exact hdig
      · rintro cs' ⟨rfl, -⟩
        exact hc rfl

theorem intOfHex_spelling (hf : Spelling f) (n : ℕ) :
    intOfHex ('0' :: 'x' :: (Nat.toDigits 16 n).map f) = some (n : ℤ) := by
  obtain ⟨cs, d, hd, hcs⟩ := exists_toDigits_concat n
  set s := '0' :: 'x' :: (Nat.toDigits 16 n).map f with hs
  have h0 : s.dropWhile Char.isWhitespace = s := by
    rw [hs, List.dropWhile_cons_of_neg (by decide)]
  have h1 : s.rdropWhile Char.isWhitespace = s := by
    rw [hs, hcs, List.map_append, List.map_singleton, ← List.cons_append, ← List.cons_append,
      List.rdropWhile_concat_neg]
    simp [(hf d hd).2.2]
  rw [intOfHex, h0, h1]
  show (hexMagnitude s).map Nat.cast = _
  rw [hs, hexMagnitude_spelling hf]
  rfl

theorem intOfHex_hex (n : ℕ) : intOfHex (hex n) = some (n : ℤ) := by
  have h := intOfHex_spelling spelling_id n
  rwa [List.map_id] at h

theorem intOfHex_upperHex (n : ℕ) : intOfHex (upperHex n) = some (n : ℤ) :=
  intOfHex_spelling spelling_toUpper n

theorem hex_injective : Function.Injective hex := fun m n h => by
  have hint := congrArg intOfHex h
  rw [intOfHex_hex, intOfHex_hex] at hint
  exact Int.ofNat_inj.mp (Option.some.inj hint)

theorem mem_toDigits (n : ℕ) : ∀ c ∈ Nat.toDigits 16 n, ∃ d < 16, c = Nat.digitChar d := by
  induction n using Nat.base_induction 16 (by decide) with
  | single d hd =>
    intro c hc
    rw [Nat.toDigits_of_lt_base hd, List.mem_singleton] at hc
    exact ⟨d, hd, hc⟩
  | digit d k hd hk ih =>
    intro c hc
    rw [← Nat.toDigits_append_toDigits (by decide) hk hd, Nat.toDigits_of_lt_base hd] at hc
    rcases List.mem_append.mp hc with hc | hc
    · exact ih c hc
    · exact ⟨k, hd, List.mem_singleton.mp hc⟩

/-- A literal has only digits besides its prefix. -/
theorem notMem_hex {c : Char} (hc : ∀ d < 16, c ≠ Nat.digitChar d) (h0 : c ≠ '0') (hx : c ≠ 'x')
    (n : ℕ) : c ∉ hex n := by
  rw [hex, List.mem_cons, List.mem_cons, not_or, not_or]
  refine ⟨h0, hx, fun hmem => ?_⟩
  obtain ⟨d, hd, rfl⟩ := mem_toDigits n c hmem
  exact hc d hd rfl

end DaatMcs
