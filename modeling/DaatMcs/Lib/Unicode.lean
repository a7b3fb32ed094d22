/-
# Characters as Python classifies them

What `str.strip`, `str.split`, `str.isdigit`, `int` and the classes of a
regular expression ask of a character. White space is a short list; which
characters are digits and letters is read from the Unicode database, of which
only the part for ASCII is used here. `split` reads back what `join` wrote,
and `intOf` what `str` wrote.
-/
import DaatMcs.Lib.Text
import Mathlib.Data.List.DropRight

namespace DaatMcs

/-- The Unicode database, by the properties of a character that Python looks
up: its value as a decimal digit (`\d`, `int`), whether it is a digit of any
kind (`isdigit`) and whether it is a letter or number (`\w`, with `_`). -/
structure UnicodeData where
  decimal : Char → Option ℕ
  isDigit : Char → Bool
  isAlnum : Char → Bool
  decimal_ascii : ∀ c, c.toNat < 128 →
    decimal c = if c.isDigit then some (c.toNat - '0'.toNat) else none
  isDigit_ascii : ∀ c, c.toNat < 128 → isDigit c = c.isDigit
  isAlnum_ascii : ∀ c, c.toNat < 128 → isAlnum c = c.isAlphanum

/-- The database cut off after ASCII. -/
def asciiData : UnicodeData where
  decimal c := if c.isDigit then some (c.toNat - '0'.toNat) else none
  isDigit := Char.isDigit
  isAlnum := Char.isAlphanum
  decimal_ascii _ _ := rfl
  isDigit_ascii _ _ := rfl
  isAlnum_ascii _ _ := rfl

/-- `c.isspace()`. -/
def isSpace (c : Char) : Bool :=
  (9 ≤ c.toNat && c.toNat ≤ 13) || (28 ≤ c.toNat && c.toNat ≤ 32) || c.toNat = 0x85 ||
    c.toNat = 0xa0 || c.toNat = 0x1680 || (0x2000 ≤ c.toNat && c.toNat ≤ 0x200a) ||
    c.toNat = 0x2028 || c.toNat = 0x2029 || c.toNat = 0x202f || c.toNat = 0x205f || c.toNat = 0x3000

/-- `s.strip()`. -/
def strip (s : Text) : Text := (s.dropWhile isSpace).rdropWhile isSpace

/-- `s.rstrip(c)`. -/
def rstrip (c : Char) (s : Text) : Text := s.rdropWhile (· = c)

/-- `s.split()`: the parts between runs of white space. -/
def split (s : Text) : List Text := (s.splitOnP isSpace).filter (· ≠ [])

/-- `int(s)` of a text of digits; digits that are not decimal raise. -/
def intOf (u : UnicodeData) (s : Text) : Option ℕ :=
  (s.mapM u.decimal).map fun ds => ds.foldl (fun n d => 10 * n + d) 0

/-- `s.lower()`, for a search of ASCII in it: outside ASCII only `İ` and the
Kelvin sign have an ASCII letter in their lower case, the others stay. -/
def lower (s : Text) : Text := s.flatMap fun c =>
  if c.toNat = 0x130 then ['i', Char.ofNat 0x307]
  else if c.toNat = 0x212a then ['k']
  else [c.toLower]

/-- `s.isdigit()`. -/
def isDigits (u : UnicodeData) (s : Text) : Bool := s ≠ [] && s.all u.isDigit

/-! ### White space -/

theorem strip_eq_self {s : Text} (hhead : ∀ c ∈ s.head?, isSpace c = false)
    (hlast : ∀ c ∈ s.getLast?, isSpace c = false) : strip s = s := by
  have hdrop : s.dropWhile isSpace = s := by
    cases s with
    | nil => rfl
    | cons c s => rw [List.dropWhile_cons, hhead c rfl]; rfl
  rw [strip, hdrop, List.rdropWhile_eq_self_iff]
  intro hne
  rw [hlast _ (List.getLast?_eq_some_getLast hne)]
  exact Bool.false_ne_true

/-- What is left after a run of `p` does not start with `p`. -/
theorem eq_false_of_mem_head?_dropWhile {p : Char → Bool} {s : Text} :
    ∀ c ∈ (s.dropWhile p).head?, p c = false := by
  intro c hc
  have hnot := List.head?_dropWhile_not p s
  rw [Option.mem_def.mp hc] at hnot
  simpa using hnot

theorem strip_sublist (s : Text) : (strip s).Sublist s :=
  (List.rdropWhile_prefix isSpace _).sublist.trans (List.dropWhile_suffix isSpace).sublist

/-- A text once stripped starts and ends with no white space. -/
theorem strip_strip (s : Text) : strip (strip s) = strip s := by
  apply strip_eq_self
  · intro c hc
    -- the head of a prefix is the head of what was stripped in front
    obtain ⟨t, ht⟩ : strip s <+: s.dropWhile isSpace := List.rdropWhile_prefix isSpace _
    refine eq_false_of_mem_head?_dropWhile c (s := s) ?_
    rw [← ht, List.head?_append, Option.mem_def.mp hc]
    rfl
  · intro c hc
    have hne : strip s ≠ [] := by
      intro h
      rw [h] at hc
      cases hc
    have hlast := List.rdropWhile_last_not isSpace (s.dropWhile isSpace) hne
    rw [List.getLast?_eq_some_getLast hne] at hc
    obtain rfl := Option.some.inj hc
    exact Bool.eq_false_iff.mpr hlast

/-- White space is taken off at both ends, up to the first and the last other
character. -/
theorem strip_around {gap x rest y z : Text} {c d : Char} (hgap : ∀ e ∈ gap, isSpace e = true)
    (hc : x = c :: y) (hcs : isSpace c = false) (hd : x = z ++ [d]) (hds : isSpace d = false) :
    strip (gap ++ (x ++ rest)) = x ++ rest.rdropWhile isSpace := by
  have hdrop : (gap ++ (x ++ rest)).dropWhile isSpace = x ++ rest := by
    rw [List.dropWhile_append_of_pos hgap, hc, List.cons_append,
      List.dropWhile_cons_of_neg (by rw [hcs]; exact Bool.false_ne_true)]
  rw [strip, hdrop]
  clear hdrop
  induction rest using List.reverseRecOn with
  | nil =>
    rw [List.append_nil, hd, List.rdropWhile_concat_neg _ _ _ (by rw [hds]; exact Bool.false_ne_true),
      List.rdropWhile_nil, List.append_nil]
  | append_singleton rest e ih =>
    rw [← List.append_assoc, List.rdropWhile_concat, List.rdropWhile_concat]
    split
    · exact ih
    · rw [List.append_assoc]

theorem rstrip_eq_self {c : Char} {s : Text} (h : ¬ [c] <:+ s) : rstrip c s = s := by
  rw [rstrip, List.rdropWhile_eq_self_iff]
  intro hne hc
  have hc : s.getLast hne = c := by simpa using hc
  exact h ⟨s.dropLast, by rw [← hc, List.dropLast_append_getLast]⟩

/-- White space parts a text. -/
theorem split_append_space {c : Char} (hc : isSpace c = true) (s t : Text) :
    split (s ++ c :: t) = split s ++ split t := by
  rw [split, List.splitOnP_append_cons s t hc, List.filter_append]
  rfl

theorem split_word {s : Text} (hne : s ≠ []) (h : ∀ c ∈ s, isSpace c = false) : split s = [s] := by
  rw [split, List.splitOnP_eq_singleton h]
  simp [hne]

/-- The parts of a join are read back where they are not empty and have no
white space in them. -/
theorem split_join {c : Char} (hc : isSpace c = true) : ∀ {parts : List Text},
    (∀ p ∈ parts, p ≠ [] ∧ ∀ d ∈ p, isSpace d = false) → split (join [c] parts) = parts
  | [], _ => by simp [join, split]
  | [p], h => by
    have hp := h p List.mem_cons_self
    simpa [join] using split_word hp.1 hp.2
  | p :: q :: parts, h => by
    have hp := h p List.mem_cons_self
    have ih : split (join [c] (q :: parts)) = q :: parts :=
      split_join hc fun x hx => h x (List.mem_cons_of_mem _ hx)
    rw [join, List.intercalate_cons_cons, List.append_assoc, List.singleton_append,
      split_append_space hc, split_word hp.1 hp.2, ← join, ih]
    rfl

theorem strip_join {sep : Text} {parts : List Text}
    (h : ∀ p ∈ parts, p ≠ [] ∧ ∀ d ∈ p, isSpace d = false) :
    strip (join sep parts) = join sep parts := by
  apply strip_eq_self
  · intro c hc
    obtain ⟨p, hp, hcp⟩ := mem_of_head?_join (fun p hp => (h p hp).1) hc
    exact (h p hp).2 c hcp
  · intro c hc
    obtain ⟨p, hp, hcp⟩ := mem_of_getLast?_join (fun p hp => (h p hp).1) hc
    exact (h p hp).2 c hcp

/-! ### Numbers -/

theorem digit_of_mem_showNat {n : ℕ} {c : Char} (h : c ∈ showNat n) : c.isDigit = true :=
  Nat.isDigit_of_mem_toDigits (by decide) (by decide) h

theorem toNat_of_isDigit {c : Char} (h : c.isDigit = true) : 48 ≤ c.toNat ∧ c.toNat ≤ 57 := by
  simpa [Char.isDigit, UInt32.le_iff_toNat_le] using h

theorem isSpace_of_isDigit {c : Char} (h : c.isDigit = true) : isSpace c = false := by
  have := toNat_of_isDigit h
  unfold isSpace
  grind

theorem intOf_digits (u : UnicodeData) {s : Text} (h : ∀ c ∈ s, c.isDigit = true) :
    intOf u s = some (Nat.ofDigitChars 10 s 0) := by
  have hmap : ∀ s : Text, (∀ c ∈ s, c.isDigit = true) →
      s.mapM u.decimal = some (s.map fun c => c.toNat - '0'.toNat) := fun s => by
    induction s with
    | nil => exact fun _ => rfl
    | cons c s ih =>
      intro h
      have hc := h c List.mem_cons_self
      have hlt := (toNat_of_isDigit hc).2
      rw [List.mapM_cons, u.decimal_ascii c (by omega), if_pos hc,
        ih fun d hd => h d (List.mem_cons_of_mem _ hd)]
      rfl
  rw [intOf, hmap s h, Option.map_some, List.foldl_map, Nat.ofDigitChars_eq_foldl]

/-- `int(str(n))`. -/
theorem intOf_showNat (u : UnicodeData) (n : ℕ) : intOf u (showNat n) = some n := by
  rw [intOf_digits u fun c hc => digit_of_mem_showNat hc, showNat,
    Nat.ofDigitChars_toDigits (by decide) (by decide)]

theorem isDigits_showNat (u : UnicodeData) (n : ℕ) : isDigits u (showNat n) = true := by
  have hall : (showNat n).all u.isDigit = true := List.all_eq_true.mpr fun c hc => by
    have hd := digit_of_mem_showNat hc
    have hlt := (toNat_of_isDigit hd).2
    rw [u.isDigit_ascii c (by omega), hd]
  rw [isDigits, hall]
  simpa using showNat_ne_nil n

/-! ### Lower case -/

/-- A character that is in lower case already. -/
def isLowered (c : Char) : Bool := c.toNat < 128 && c.toLower = c

theorem isLowered_of_isDigit {c : Char} (h : c.isDigit = true) : isLowered c = true := by
  have hall : ∀ k < 58, 48 ≤ k → isLowered (Char.ofNat k) = true := by decide
  obtain ⟨hge, hle⟩ := toNat_of_isDigit h
  rw [← Char.ofNat_toNat c]
  exact hall c.toNat (by omega) hge

theorem lower_eq_self : ∀ {s : Text}, (∀ c ∈ s, isLowered c = true) → lower s = s
  | [], _ => rfl
  | c :: s, h => by
    have ih : lower s = s := lower_eq_self fun d hd => h d (List.mem_cons_of_mem c hd)
    have hc := h c List.mem_cons_self
    rw [isLowered, Bool.and_eq_true, decide_eq_true_eq, decide_eq_true_eq] at hc
    have hne : c.toNat ≠ 0x130 ∧ c.toNat ≠ 0x212a := by omega
    unfold lower at ih ⊢
    rw [List.flatMap_cons, ih, if_neg hne.1, if_neg hne.2, hc.2, List.singleton_append]

end DaatMcs
