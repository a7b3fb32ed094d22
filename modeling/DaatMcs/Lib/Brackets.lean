/-
# Brackets

Texts whose characters open and close levels: `w` is by how much a character
changes the level. `upToClose` reads on as long as the level is positive,
`takeClosed` up to the character that closes the first level again, the two
loops with a counter that look for a closing bracket.

What they read depends on the levels on the way only: a text that stays
`Above` the ground is read through, and one that `Closes` is read exactly.

Key theorems: `upToClose_append`, `takeClosed_append`, `Closes.above`,
`Above.append`.
-/
import Mathlib.Data.Int.Notation
import Mathlib.Data.List.Basic
import Mathlib.Tactic.Common

namespace DaatMcs
namespace Brackets

variable {α : Type*} (w : α → ℤ)

/-- By how much a text changes the level. -/
def level : List α → ℤ
  | [] => 0
  | c :: cs => w c + level cs

/-- Read on while the level is positive. -/
def upToClose : ℤ → List α → List α
  | _, [] => []
  | n, c :: cs => if 0 < n then c :: upToClose (n + w c) cs else []

/-- Read up to the character that takes the level down to 0: what is read and
the rest; none if the text ends before. -/
def takeClosed : ℤ → List α → Option (List α × List α)
  | _, [] => none
  | n, c :: cs =>
    if w c < 0 ∧ n + w c = 0 then some ([c], cs)
    else (takeClosed (n + w c) cs).map fun x => (c :: x.1, x.2)

/-- From level `n` on every character leaves the level positive. -/
def Above : ℤ → List α → Prop
  | _, [] => True
  | n, c :: cs => 0 < n + w c ∧ Above (n + w c) cs

/-- From level `n` on the level is positive up to the last character, which
takes it to 0. -/
def Closes : ℤ → List α → Prop
  | _, [] => False
  | n, [c] => w c < 0 ∧ n + w c = 0
  | n, c :: d :: cs => 0 < n + w c ∧ Closes (n + w c) (d :: cs)

instance decidableCloses : ∀ (n : ℤ) (l : List α), Decidable (Closes w n l)
  | _, [] => inferInstanceAs (Decidable False)
  | n, [c] => inferInstanceAs (Decidable (w c < 0 ∧ n + w c = 0))
  | n, c :: d :: cs =>
    have := decidableCloses (n + w c) (d :: cs)
    inferInstanceAs (Decidable (0 < n + w c ∧ Closes w (n + w c) (d :: cs)))

@[simp]
theorem level_nil : level w [] = 0 := rfl

@[simp]
theorem level_cons (c : α) (l : List α) : level w (c :: l) = w c + level w l := rfl

@[simp]
theorem level_append (m : List α) : ∀ l : List α, level w (l ++ m) = level w l + level w m
  | [] => by simp
  | c :: l => by rw [List.cons_append, level_cons, level_append m l, level_cons, Int.add_assoc]

variable {w}

/-! ### Above the ground -/

theorem Above.append : ∀ {x : List α} {n : ℤ} {y : List α}, Above w n x → Above w (n + level w x) y →
    Above w n (x ++ y)
  | [], n, y, _, hy => by simpa using hy
  | c :: x, n, y, hx, hy => by
    refine ⟨hx.1, hx.2.append ?_⟩
    rwa [level_cons, ← Int.add_assoc] at hy

theorem level_eq_zero : ∀ {x : List α}, (∀ c ∈ x, w c = 0) → level w x = 0
  | [], _ => rfl
  | c :: x, h => by
    rw [level_cons, h c List.mem_cons_self, level_eq_zero fun d hd => h d (List.mem_cons_of_mem c hd)]
    rfl

/-- Characters that are no brackets leave the level. -/
theorem above_of_eq_zero {n : ℤ} (hn : 0 < n) : ∀ {x : List α}, (∀ c ∈ x, w c = 0) → Above w n x
  | [], _ => trivial
  | c :: x, h => by
    have hc := h c List.mem_cons_self
    refine ⟨by omega, ?_⟩
    rw [hc, Int.add_zero]
    exact above_of_eq_zero hn fun d hd => h d (List.mem_cons_of_mem c hd)

theorem Closes.level_eq : ∀ {x : List α} {n : ℤ}, Closes w n x → n + level w x = 0
  | [c], n, h => by
    rw [level_cons, level_nil, Int.add_zero]
    exact h.2
  | c :: d :: x, n, h => by
    have ih := h.2.level_eq
    rw [level_cons]
    omega

/-- From a higher level on it does not get to the ground. -/
theorem Closes.above : ∀ {x : List α} {n k : ℤ}, Closes w n x → 0 < k → Above w (k + n) x
  | [c], n, k, h, hk => ⟨by have := h.2; omega, trivial⟩
  | c :: d :: x, n, k, h, hk => by
    have ih := h.2.above hk
    refine ⟨by have := h.1; omega, ?_⟩
    rwa [Int.add_assoc]

/-! ### Reading -/

/-- Up to the bracket that closes the level. -/
theorem upToClose_append {c : α} (rest : List α) : ∀ {x : List α} {n : ℤ}, 0 < n → Above w n x →
    n + level w x + w c ≤ 0 → upToClose w n (x ++ c :: rest) = x ++ [c]
  | [], n, hn, _, hc => by
    have hend : upToClose w (n + w c) rest = [] := by
      cases rest with
      | nil => rfl
      | cons d rest =>
        rw [level_nil] at hc
        rw [upToClose, if_neg (by omega)]
    rw [List.nil_append, upToClose, if_pos hn, hend]
    rfl
  | d :: x, n, hn, hx, hc => by
    rw [level_cons, ← Int.add_assoc] at hc
    rw [List.cons_append, upToClose, if_pos hn, upToClose_append rest hx.1 hx.2 hc]
    rfl

/-- A text that closes is read exactly. -/
theorem takeClosed_append (rest : List α) : ∀ {x : List α} {n : ℤ}, Closes w n x →
    takeClosed w n (x ++ rest) = some (x, rest)
  | [c], n, h => by
    rw [List.singleton_append, takeClosed, if_pos ⟨h.1, h.2⟩]
  | c :: d :: x, n, h => by
    rw [List.cons_append, takeClosed, if_neg (by have := h.1; omega), takeClosed_append rest h.2]
    rfl

/-- What is read and the rest are the text, and something is read. -/
theorem takeClosed_eq_some : ∀ {l : List α} {n : ℤ} {x : List α × List α}, takeClosed w n l = some x →
    x.1 ++ x.2 = l ∧ x.1 ≠ []
  | c :: cs, n, x, h => by
    rw [takeClosed] at h
    split at h
    · rw [← Option.some.inj h]
      exact ⟨rfl, List.cons_ne_nil _ _⟩
    · obtain ⟨y, hy, rfl⟩ := Option.map_eq_some_iff.mp h
      refine ⟨?_, List.cons_ne_nil _ _⟩
      rw [List.cons_append, (takeClosed_eq_some hy).1]

theorem Closes.ne_nil {x : List α} {n : ℤ} (h : Closes w n x) : x ≠ [] := by
  rintro rfl
  exact h

end Brackets
end DaatMcs
