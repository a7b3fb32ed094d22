/-
# Texts

Strings as lists of characters, with the pieces of Python's string library
that name generators use: numbers in decimal and `str.join`. Both can be read
back where the separator does not occur in the parts.
-/
import Mathlib.Data.Int.Notation
import Mathlib.Data.List.Basic
import Mathlib.Tactic.Common

namespace DaatMcs

abbrev Text := List Char

/-- `str(n)`. -/
def showNat (n : ℕ) : Text := Nat.toDigits 10 n

def showInt : ℤ → Text
  | .ofNat n => showNat n
  | .negSucc n => '-' :: showNat (n + 1)

/-- `sep.join(parts)`. -/
def join (sep : Text) (parts : List Text) : Text := sep.intercalate parts

/-- A property of the characters of a text, by checking each. -/
theorem forall_mem_of_all {p : Char → Prop} [DecidablePred p] {s : Text}
    (h : s.all (fun c => decide (p c)) = true) : ∀ c ∈ s, p c := fun c hc =>
  of_decide_eq_true (List.all_eq_true.mp h c hc)

/-- Texts that start differently are different. -/
theorem append_ne_append {a b : Text} (hab : ¬ a <+: b) (hba : ¬ b <+: a) (x y : Text) :
    a ++ x ≠ b ++ y := fun h =>
  (List.prefix_or_prefix_of_prefix (List.prefix_append a x) (h ▸ List.prefix_append b y)).elim hab hba

/-- A text in the middle that starts with `c` is found again, where `c` is not
in the text behind it. -/
theorem append_inj_middle {c : Char} {p p' x s s' : Text} (hs : c ∉ s) (hs' : c ∉ s')
    (h : p ++ c :: x ++ s = p' ++ c :: x ++ s') : p = p' ∧ s = s' := by
  have haux : ∀ {p p' s s' : Text}, c ∉ s → (∃ q, p' ++ c :: x = p ++ c :: x ++ q ∧ s = q ++ s') →
      p = p' ∧ s = s' := by
    rintro p p' s s' hs ⟨q, hq, rfl⟩
    have hlen : p.length ≤ p'.length := by
      have := congrArg List.length hq
      simp only [List.length_append, List.length_cons] at this
      omega
    rw [List.append_assoc] at hq
    obtain ⟨r, rfl⟩ := List.prefix_of_prefix_length_le (List.prefix_append p _)
      (hq ▸ List.prefix_append p' _) hlen
    rw [List.append_assoc, List.append_cancel_left_eq] at hq
    -- `r` has no `c`, so it is empty
    have hcount := congrArg (List.count c) hq
    rw [List.count_append, List.count_append,
      List.count_eq_zero_of_not_mem fun hc => hs (List.mem_append_left s' hc)] at hcount
    cases r with
    | nil =>
      rw [List.nil_append, List.self_eq_append_right] at hq
      rw [hq]
      exact ⟨(List.append_nil p).symm, rfl⟩
    | cons d r =>
      rw [List.cons_append, List.cons_append, List.cons.injEq] at hq
      rw [hq.1, List.count_cons_self] at hcount
      omega
  rcases List.append_eq_append_iff.mp h with ⟨q, hq, hs₂⟩ | ⟨q, hq, hs₂⟩
  · exact haux hs ⟨q, hq, hs₂⟩
  · obtain ⟨hp, hss⟩ := haux hs' ⟨q, hq, hs₂⟩
    exact ⟨hp.symm, hss.symm⟩

/-- `int(s)` of decimal digits. -/
def readNat (s : Text) : ℕ := Nat.ofDigitChars 10 s 0

@[simp]
theorem readNat_showNat (n : ℕ) : readNat (showNat n) = n :=
  Nat.ofDigitChars_toDigits (by decide) (by decide)

theorem showNat_injective : Function.Injective showNat := Function.LeftInverse.injective readNat_showNat

theorem notMem_showNat {c : Char} (hc : c.isDigit = false) (n : ℕ) : c ∉ showNat n := fun h => by
  have := Nat.isDigit_of_mem_toDigits (by decide) (by decide) h
  rw [hc] at this
  exact Bool.false_ne_true this

theorem notMem_showInt {c : Char} (hc : c.isDigit = false) (hm : c ≠ '-') : ∀ i : ℤ, c ∉ showInt i
  | .ofNat n => notMem_showNat hc n
  | .negSucc n => by
    rw [showInt, List.mem_cons, not_or]
    exact ⟨hm, notMem_showNat hc (n + 1)⟩

theorem showInt_injective : Function.Injective showInt := by
  have hminus : ∀ n m : ℕ, showNat n ≠ '-' :: showNat m := fun n m h =>
    notMem_showNat (by decide) n (h ▸ List.mem_cons_self)
  intro i j h
  cases i with
  | ofNat n =>
    cases j with
    | ofNat m => rw [showNat_injective h]
    | negSucc m => exact absurd h (hminus n (m + 1))
  | negSucc n =>
    cases j with
    | ofNat m => exact absurd h.symm (hminus m (n + 1))
    | negSucc m => rw [Nat.succ.inj (showNat_injective (List.cons.inj h).2)]

theorem showNat_ne_nil (n : ℕ) : showNat n ≠ [] := Nat.toDigits_ne_nil

theorem notMem_join {c : Char} {sep : Text} (hsep : c ∉ sep) : ∀ {parts : List Text},
    (∀ p ∈ parts, c ∉ p) → c ∉ join sep parts
  | [], _ => by simp [join]
  | [p], h => by simpa [join] using h
  | p :: q :: parts, h => by
    have ih : c ∉ join sep (q :: parts) := notMem_join hsep fun x hx => h x (List.mem_cons_of_mem _ hx)
    rw [join, List.intercalate_cons_cons, List.mem_append, List.mem_append]
    rintro ((hp | hs) | hj)
    · exact h p List.mem_cons_self hp
    · exact hsep hs
    · exact ih hj

theorem join_eq_nil {sep : Text} {parts : List Text} (h : ∀ p ∈ parts, p ≠ [])
    (hj : join sep parts = []) : parts = [] := by
  match parts, h with
  | [], _ => rfl
  | [p], h => exact absurd (by simpa [join] using hj) (h p List.mem_cons_self)
  | p :: q :: parts, h =>
    rw [join, List.intercalate_cons_cons, List.append_eq_nil_iff, List.append_eq_nil_iff] at hj
    exact absurd hj.1.1 (h p List.mem_cons_self)

/-- A join starts and ends with characters of its parts. -/
theorem mem_of_head?_join {c : Char} {sep : Text} : ∀ {parts : List Text}, (∀ p ∈ parts, p ≠ []) →
    c ∈ (join sep parts).head? → ∃ p ∈ parts, c ∈ p
  | p :: parts, h, hc => by
    obtain ⟨d, p', rfl⟩ := List.exists_cons_of_ne_nil (h p List.mem_cons_self)
    have hd : d = c := by
      cases parts with
      | nil => simpa [join] using hc
      | cons q parts => simpa [join, List.intercalate_cons_cons] using hc
    exact ⟨d :: p', List.mem_cons_self, hd ▸ List.mem_cons_self⟩

theorem getLast?_join {sep p : Text} (hne : p ≠ []) : ∀ {parts : List Text}, p ∈ parts.getLast? →
    (join sep parts).getLast? = p.getLast?
  | [q], h => by
    have hq : q = p := by simpa using h
    rw [join, List.intercalate_singleton, hq]
  | q :: r :: parts, h => by
    have ih : (join sep (r :: parts)).getLast? = p.getLast? := getLast?_join hne h
    have hjoin : join sep (r :: parts) ≠ [] := fun hj => by
      rw [hj] at ih
      exact hne (List.getLast?_eq_none_iff.mp ih.symm)
    rw [join, List.intercalate_cons_cons, ← join, List.getLast?_append_of_ne_nil _ hjoin, ih]

theorem mem_of_getLast?_join {c : Char} {sep : Text} {parts : List Text} (h : ∀ p ∈ parts, p ≠ [])
    (hc : c ∈ (join sep parts).getLast?) : ∃ p ∈ parts, c ∈ p := by
  cases hlast : parts.getLast? with
  | none =>
    rw [List.getLast?_eq_none_iff.mp hlast] at hc
    exact absurd hc (Option.not_mem_none c)
  | some p =>
    have hp := List.mem_of_getLast? hlast
    rw [getLast?_join (h p hp) hlast] at hc
    exact ⟨p, hp, List.mem_of_getLast? hc⟩

/-- The parts are read back where they are not empty and do not contain the
separator. -/
theorem join_inj {c : Char} {l l' : List Text} (h : ∀ p ∈ l, p ≠ [] ∧ c ∉ p)
    (h' : ∀ p ∈ l', p ≠ [] ∧ c ∉ p) (hj : join [c] l = join [c] l') : l = l' := by
  by_cases hl : l = []
  · subst hl
    exact (join_eq_nil (fun p hp => (h' p hp).1) hj.symm).symm
  · by_cases hl' : l' = []
    · subst hl'
      exact join_eq_nil (fun p hp => (h p hp).1) hj
    · rw [← List.splitOn_intercalate c (fun p hp => (h p hp).2) hl, ← join, hj, join,
        List.splitOn_intercalate c (fun p hp => (h' p hp).2) hl']

end DaatMcs
