/-
# Literal substrings

Searching a text for a literal, on lists. `find` is `strstr` of C and
`str.find` of Python, and its being some is Python's `in`; `occurrences` are
the spans of `finditer` for a pattern without special characters. A loop that
replaces the spans of a text from the last one to the first (`spliceBack`) is
the substitution from left to right (`spliceBack_occurrences`).
-/
import Mathlib.Data.List.Infix
import Mathlib.Tactic.Common

namespace DaatMcs
namespace Literal

variable {α : Type*} [DecidableEq α]

/-- Where `pat` occurs first in a text. -/
def find (pat : List α) : List α → Option ℕ
  | [] => if pat = [] then some 0 else none
  | c :: cs => if pat.isPrefixOf (c :: cs) then some 0 else (find pat cs).map (· + 1)

/-- The spans of a literal in the text from position `pos` on; the first
`skip` characters belong to the occurrence found last. -/
def spans (pat : List α) : (skip pos : ℕ) → List α → List (ℕ × ℕ)
  | _, _, [] => []
  | skip + 1, pos, _ :: cs => spans pat skip (pos + 1) cs
  | 0, pos, c :: cs =>
    if pat.isPrefixOf (c :: cs) then
      (pos, pos + pat.length) :: spans pat (pat.length - 1) (pos + 1) cs
    else spans pat 0 (pos + 1) cs

/-- The spans of a non-empty literal, from left to right and without overlap. -/
def occurrences (pat text : List α) : List (ℕ × ℕ) := spans pat 0 0 text

/-- Puts `f k` in place of the `k`-th span; where `f` has nothing the text
stays. -/
def splice (f : ℕ → Option (List α)) (sector : (ℕ × ℕ) × ℕ) (content : List α) : List α :=
  match f sector.2 with
  | some r => content.take sector.1.1 ++ r ++ content.drop sector.1.2
  | none => content

/-- Splices at all the spans, the last one first. -/
def spliceBack (f : ℕ → Option (List α)) (sectors : List (ℕ × ℕ)) (text : List α) : List α :=
  sectors.zipIdx.foldr (splice f) text

/-- The substitution from left to right; the next occurrence is the `k`-th. -/
def substituteFrom (pat : List α) (f : ℕ → Option (List α)) : (skip k : ℕ) → List α → List α
  | _, _, [] => []
  | skip + 1, k, _ :: cs => substituteFrom pat f skip k cs
  | 0, k, c :: cs =>
    if pat.isPrefixOf (c :: cs) then
      (f k).getD pat ++ substituteFrom pat f (pat.length - 1) (k + 1) cs
    else c :: substituteFrom pat f 0 k cs

def substitute (pat : List α) (f : ℕ → Option (List α)) (text : List α) : List α :=
  substituteFrom pat f 0 0 text

/-- `pat in text`. -/
theorem find_isSome {pat : List α} : ∀ {text : List α}, (find pat text).isSome ↔ pat <:+: text
  | [] => by simp [find]
  | c :: cs => by
    have ih : (find pat cs).isSome ↔ pat <:+: cs := find_isSome
    rw [find, List.infix_cons_iff, ← ih, ← List.isPrefixOf_iff_prefix]
    by_cases h : pat.isPrefixOf (c :: cs)
    · simp [h]
    · simp [h]

omit [DecidableEq α] in
/-- What starts at the front ends before a later occurrence does. -/
theorem prefix_dropLast_iff {pat pre : List α} {d : α} (post : List α) :
    pat <+: (d :: pre ++ pat).dropLast ↔ pat <+: d :: pre ++ (pat ++ post) := by
  have hupto : (d :: pre ++ pat).dropLast <+: d :: pre ++ (pat ++ post) := by
    rw [← List.append_assoc]
    exact (List.dropLast_prefix _).trans (List.prefix_append _ post)
  have hlen : pat.length ≤ (d :: pre ++ pat).dropLast.length := by
    simp only [List.length_dropLast, List.length_append, List.length_cons]
    omega
  constructor
  · intro h
    exact h.trans hupto
  · intro h
    exact List.prefix_of_prefix_length_le h hupto hlen

omit [DecidableEq α] in
/-- No occurrence ends before the one after `pre` does. -/
theorem not_infix_dropLast_cons {pat pre : List α} {d : α} (hne : pat ≠ []) (post : List α) :
    ¬ pat <:+: (d :: pre ++ pat).dropLast ↔
      ¬ pat <+: d :: pre ++ (pat ++ post) ∧ ¬ pat <:+: (pre ++ pat).dropLast := by
  have htail : (d :: pre ++ pat).dropLast = d :: (pre ++ pat).dropLast := by
    rw [List.cons_append, List.dropLast_cons_of_ne_nil (by simp [hne])]
  rw [← prefix_dropLast_iff post, htail, List.infix_cons_iff, not_or]

/-- The first occurrence: none ends before it does. -/
theorem find_eq_some {pat : List α} (hne : pat ≠ []) : ∀ {text : List α} {i : ℕ},
    find pat text = some i ↔ ∃ pre post, text = pre ++ (pat ++ post) ∧ pre.length = i ∧
      ¬ pat <:+: (pre ++ pat).dropLast
  | [], i => by simp [find, hne]
  | c :: cs, i => by
    have ih : ∀ j, find pat cs = some j ↔ _ := fun j => find_eq_some hne
    rw [find]
    by_cases hp : pat <+: c :: cs
    · rw [if_pos (List.isPrefixOf_iff_prefix.mpr hp)]
      constructor
      · rintro ⟨⟩
        obtain ⟨post, hpost⟩ := hp
        refine ⟨[], post, hpost.symm, rfl, fun h => ?_⟩
        have hlen := h.length_le
        have hpos := List.length_pos_iff.mpr hne
        simp only [List.nil_append, List.length_dropLast] at hlen
        omega
      · rintro ⟨pre, post, heq, rfl, hno⟩
        cases pre with
        | nil => rfl
        | cons d pre => exact absurd (heq ▸ hp) ((not_infix_dropLast_cons hne post).mp hno).1
    · rw [if_neg (mt List.isPrefixOf_iff_prefix.mp hp)]
      constructor
      · intro h
        obtain ⟨j, hj, rfl⟩ := Option.map_eq_some_iff.mp h
        obtain ⟨pre, post, rfl, rfl, hno⟩ := (ih j).mp hj
        exact ⟨c :: pre, post, rfl, rfl, (not_infix_dropLast_cons hne post).mpr ⟨hp, hno⟩⟩
      · rintro ⟨pre, post, heq, rfl, hno⟩
        cases pre with
        | nil => exact absurd ⟨post, heq.symm⟩ hp
        | cons d pre =>
          have hno' := ((not_infix_dropLast_cons hne post).mp hno).2
          rw [List.cons_append, List.cons.injEq] at heq
          rw [(ih pre.length).mpr ⟨pre, post, heq.2, rfl, hno'⟩]
          rfl

/-- A literal in the front part of a text is found in that part. -/
theorem find_append_of_infix {pat x : List α} (hne : pat ≠ []) (h : pat <:+: x) (y : List α) :
    ∃ i, find pat (x ++ y) = some i ∧ i + pat.length ≤ x.length := by
  obtain ⟨i, hi⟩ := Option.isSome_iff_exists.mp (find_isSome.mpr h)
  obtain ⟨pre, post, rfl, rfl, hno⟩ := (find_eq_some hne).mp hi
  refine ⟨pre.length, (find_eq_some hne).mpr ⟨pre, post ++ y, by simp, rfl, hno⟩, ?_⟩
  simp only [List.length_append]
  omega

omit [DecidableEq α] in
/-- A literal that overlaps itself at none of its first `n` places, and whose
first `n` characters do not occur before it, does not start earlier. -/
theorem not_prefix_overlap {lit before after : List α} (n : ℕ)
    (hoverlap : ∀ k < n, 0 < k → ¬ lit.drop k <+: lit) (hne : before ≠ [])
    (hfree : ¬ lit.take n <:+: before) : ¬ lit <+: before ++ (lit ++ after) := by
  intro h
  have hpos : 0 < before.length := List.length_pos_iff.mpr hne
  rcases Nat.lt_or_ge before.length n with hlt | hge
  · have hno := hoverlap _ hlt hpos
    rcases Nat.lt_or_ge before.length lit.length with hlen | hlen
    · -- the literal starts within itself
      obtain ⟨tl, htl⟩ := List.prefix_of_prefix_length_le (List.prefix_append before _) h hlen.le
      have hdrop : lit.drop before.length = tl := by rw [← htl, List.drop_left]
      have htl' : tl <+: lit ++ after :=
        (List.prefix_append_right_inj before).mp (by rw [htl]; exact h)
      refine hno (hdrop ▸ List.prefix_of_prefix_length_le htl' (List.prefix_append lit after) ?_)
      rw [← htl, List.length_append]
      omega
    · exact hno (by rw [List.drop_eq_nil_of_le hlen]; exact List.nil_prefix)
  · have htake : lit.take n <+: before :=
      List.prefix_of_prefix_length_le ((List.take_prefix n lit).trans h)
        (List.prefix_append before _) ((List.length_take_le n lit).trans hge)
    exact hfree htake.isInfix

/-! ### Splicing is substitution -/

omit [DecidableEq α] in
theorem splice_append (pre pat tl r : List α) :
    (pre ++ (pat ++ tl)).take pre.length ++ r ++ (pre ++ (pat ++ tl)).drop (pre.length + pat.length) =
      pre ++ r ++ tl := by
  rw [List.take_left, List.drop_append]
  simp

/-- What the loop has made of the text once it is back at a position: the
text before is untouched, and so are the characters of the occurrence that
covers the position. -/
theorem foldr_spans (pat : List α) (hpat : pat ≠ []) (f : ℕ → Option (List α)) :
    ∀ (text : List α) (skip k : ℕ) (pre : List α),
      ((spans pat skip pre.length text).zipIdx k).foldr (splice f) (pre ++ text) =
      pre ++ text.take skip ++ substituteFrom pat f skip k text
  | [], _, _, pre => by simp [spans, substituteFrom]
  | c :: cs, skip + 1, k, pre => by
    have ih := foldr_spans pat hpat f cs skip k (pre ++ [c])
    rw [List.length_append, List.length_singleton] at ih
    rw [spans, substituteFrom, List.append_cons pre, ih, List.take_succ_cons]
    simp
  | c :: cs, 0, k, pre => by
    rw [spans, substituteFrom]
    by_cases hp : pat.isPrefixOf (c :: cs)
    · have ih := foldr_spans pat hpat f cs (pat.length - 1) (k + 1) (pre ++ [c])
      rw [List.length_append, List.length_singleton] at ih
      rw [if_pos hp, if_pos hp, List.zipIdx_cons, List.foldr_cons, List.append_cons pre, ih]
      -- the skipped characters complete the occurrence
      have hprefix : pat <+: c :: cs := List.isPrefixOf_iff_prefix.mp hp
      have hlen : pat.length = pat.length - 1 + 1 := by
        have := List.length_pos_iff.mpr hpat
        omega
      have htake : c :: cs.take (pat.length - 1) = pat := by
        rw [← List.take_succ_cons, ← hlen, ← List.prefix_iff_eq_take.mp hprefix]
      rw [List.append_assoc pre, List.singleton_append, htake]
      cases hf : f k with
      | none => simp [splice, hf]
      | some r =>
        simp only [splice, hf]
        rw [List.append_assoc pre pat, splice_append]
        simp
    · have ih := foldr_spans pat hpat f cs 0 k (pre ++ [c])
      rw [List.length_append, List.length_singleton] at ih
      rw [if_neg hp, if_neg hp, List.append_cons pre, ih]
      simp

/-- Replacing the occurrences from the last to the first is substitution. -/
theorem spliceBack_occurrences {pat : List α} (hpat : pat ≠ []) (f : ℕ → Option (List α))
    (text : List α) : spliceBack f (occurrences pat text) text = substitute pat f text := by
  simpa [spliceBack, occurrences, substitute] using foldr_spans pat hpat f text 0 0 []

/-! ### What substitution leaves in a text -/

section
variable {f : ℕ → Option (List α)}

/-- A text without the literal's first character is copied. -/
theorem substituteFrom_append {d : α} {p l : List α} (hl : d ∉ l) (k : ℕ) (b : List α) :
    substituteFrom (d :: p) f 0 k (l ++ b) = l ++ substituteFrom (d :: p) f 0 k b := by
  induction l with
  | nil => rfl
  | cons x l ih =>
    rw [List.mem_cons, not_or] at hl
    have hno : ¬ (d :: p).isPrefixOf (x :: (l ++ b)) := by
      rw [List.isPrefixOf_iff_prefix, List.cons_prefix_cons]
      exact fun h => hl.1 h.1
    rw [List.cons_append, substituteFrom, if_neg hno, ih hl.2, List.cons_append]

omit [DecidableEq α] in
/-- An occurrence ends before a part where it cannot end, up to a character it
does not have. -/
theorem length_le_of_prefix {c : α} {pat a e r : List α} (hc : c ∉ pat)
    (hlast : ∀ x ∈ pat.getLast?, x ∉ e) (h : pat <+: a ++ (e ++ c :: r)) :
    pat.length ≤ a.length := by
  by_contra hlt
  rw [Nat.not_le] at hlt
  rcases Nat.lt_or_ge (a ++ e).length pat.length with hover | hin
  · have hcpre : a ++ e ++ [c] <+: pat := by
      refine List.prefix_of_prefix_length_le ⟨r, by simp⟩ h ?_
      rw [List.length_append]
      exact hover
    exact hc (hcpre.subset (List.mem_append_right _ (List.mem_singleton_self c)))
  · have hpre : pat <+: a ++ e := List.prefix_of_prefix_length_le h ⟨c :: r, by simp⟩ hin
    obtain ⟨t, rfl⟩ := List.prefix_of_prefix_length_le (List.prefix_append a e) hpre hlt.le
    have hte : t <+: e := (List.prefix_append_right_inj a).mp hpre
    have hne : t ≠ [] := by
      rintro rfl
      rw [List.append_nil] at hlt
      exact Nat.lt_irrefl _ hlt
    refine hlast (t.getLast hne) ?_ (hte.subset (List.getLast_mem hne))
    rw [List.getLast?_append_of_ne_nil _ hne, List.getLast?_eq_some_getLast hne]
    rfl

/-- So a part that no occurrence can overlap stays: the literal's first
character is not in it, and it has a character `c` that is not in the literal,
before which the literal cannot end. -/
theorem infix_substituteFrom {c d : α} {e₁ e₂ p : List α} (hd : d ∉ e₁ ++ c :: e₂)
    (hc : c ∉ d :: p) (hlast : ∀ x ∈ (d :: p).getLast?, x ∉ e₁) (b : List α) :
    ∀ (a : List α) (skip k : ℕ), skip ≤ a.length →
      e₁ ++ c :: e₂ <:+: substituteFrom (d :: p) f skip k (a ++ (e₁ ++ c :: (e₂ ++ b)))
  | [], 0, k, _ => by
    have hsplit : [] ++ (e₁ ++ c :: (e₂ ++ b)) = e₁ ++ c :: e₂ ++ b := by simp
    rw [hsplit, substituteFrom_append hd]
    exact (List.prefix_append _ _).isInfix
  | x :: a, skip + 1, k, h => by
    rw [List.cons_append, substituteFrom]
    exact infix_substituteFrom hd hc hlast b a skip k (Nat.le_of_succ_le_succ h)
  | x :: a, 0, k, _ => by
    rw [List.cons_append, substituteFrom]
    by_cases hp : (d :: p).isPrefixOf (x :: (a ++ (e₁ ++ c :: (e₂ ++ b))))
    · have hlen := length_le_of_prefix (a := x :: a) hc hlast (List.isPrefixOf_iff_prefix.mp hp)
      rw [if_pos hp]
      exact (infix_substituteFrom hd hc hlast b a _ (k + 1) (Nat.sub_le_of_le_add hlen)).trans
        (List.suffix_append _ _).isInfix
    · rw [if_neg hp]
      exact (infix_substituteFrom hd hc hlast b a 0 k (Nat.zero_le _)).trans
        (List.suffix_cons _ _).isInfix

theorem infix_substitute {c d : α} {e₁ e₂ p text : List α} (hd : d ∉ e₁ ++ c :: e₂)
    (hc : c ∉ d :: p) (hlast : ∀ x ∈ (d :: p).getLast?, x ∉ e₁)
    (h : e₁ ++ c :: e₂ <:+: text) : e₁ ++ c :: e₂ <:+: substitute (d :: p) f text := by
  obtain ⟨a, b, rfl⟩ := h
  have hsplit : a ++ (e₁ ++ c :: e₂) ++ b = a ++ (e₁ ++ c :: (e₂ ++ b)) := by simp
  rw [hsplit]
  exact infix_substituteFrom hd hc hlast b a 0 0 (Nat.zero_le _)

end

/-- What replaces a literal that occurs is in the text. -/
theorem infix_substitute_self {pat new : List α} (hne : pat ≠ []) : ∀ {text : List α} {k : ℕ},
    pat <:+: text → new <:+: substituteFrom pat (fun _ => some new) 0 k text
  | [], _, h => absurd (List.infix_nil.mp h) hne
  | c :: cs, k, h => by
    rw [substituteFrom]
    by_cases hp : pat.isPrefixOf (c :: cs)
    · rw [if_pos hp]
      exact (List.prefix_append new _).isInfix
    · rw [if_neg hp]
      have hcs : pat <:+: cs :=
        (List.infix_cons_iff.mp h).resolve_left (mt List.isPrefixOf_iff_prefix.mpr hp)
      exact (infix_substitute_self hne hcs).trans (List.suffix_cons _ _).isInfix

/-! ### Replacing by one text -/

/-- `text.replace(old, new)` of a non-empty `old`. -/
def replace (old new text : List α) : List α := substitute old (fun _ => some new) text

/-- A literal whose first character comes in it only once is not cut by what
is put before it. -/
theorem substituteFrom_concat {d : α} {p new : List α} (hd : d ∉ p) : ∀ (text : List α) (skip k : ℕ),
    skip ≤ text.length → substituteFrom (d :: p) (fun _ => some new) skip k (text ++ d :: p) =
      substituteFrom (d :: p) (fun _ => some new) skip k text ++ new
  | [], 0, k, _ => by
    have hskip : ∀ (q : List α) (k : ℕ), substituteFrom (d :: p) (fun _ => some new) q.length k q = [] := by
      intro q
      induction q with
      | nil => exact fun _ => rfl
      | cons c q ih => exact ih
    rw [List.nil_append, substituteFrom, substituteFrom,
      if_pos (List.isPrefixOf_iff_prefix.mpr (List.prefix_refl _)), List.length_cons,
      Nat.add_sub_cancel, hskip, Option.getD_some, List.append_nil, List.nil_append]
  | c :: text, skip + 1, k, h => substituteFrom_concat hd text skip k (Nat.le_of_succ_le_succ h)
  | c :: text, 0, k, _ => by
    -- an occurrence that starts in the text ends in it
    have hlen : d :: p <+: c :: text ++ d :: p → d :: p <+: c :: text := by
      intro hpre
      refine List.prefix_of_prefix_length_le hpre (List.prefix_append _ _) ?_
      by_contra hlt
      obtain ⟨q, hq⟩ := List.prefix_of_prefix_length_le (List.prefix_append (c :: text) (d :: p)) hpre
        (Nat.le_of_not_le hlt)
      rw [← hq, List.prefix_append_right_inj, hq] at hpre
      cases q with
      | nil => exact hlt (by rw [← hq, List.append_nil])
      | cons e q =>
        rw [List.cons_append, List.cons.injEq] at hq
        obtain rfl := (List.cons_prefix_cons.mp hpre).1
        exact hd (hq.2 ▸ List.mem_append_right text List.mem_cons_self)
    have hpre : (d :: p).isPrefixOf (c :: (text ++ d :: p)) = (d :: p).isPrefixOf (c :: text) := by
      rw [Bool.eq_iff_iff, List.isPrefixOf_iff_prefix, List.isPrefixOf_iff_prefix]
      exact ⟨hlen, fun h => h.trans (List.prefix_append _ _)⟩
    rw [List.cons_append, substituteFrom, substituteFrom, hpre]
    split
    · next h =>
      have hle := (List.isPrefixOf_iff_prefix.mp h).length_le
      rw [substituteFrom_concat hd text _ _ (Nat.sub_le_of_le_add hle), List.append_assoc]
    · rw [substituteFrom_concat hd text 0 k (Nat.zero_le _), List.cons_append]

theorem replace_concat {d : α} {p : List α} (hd : d ∉ p) (new text : List α) :
    replace (d :: p) new (text ++ d :: p) = replace (d :: p) new text ++ new :=
  substituteFrom_concat hd text 0 0 (Nat.zero_le _)

/-- Deleting a literal makes a text shorter if it is there. -/
theorem length_substituteFrom_le {pat : List α} : ∀ (text : List α) (skip k : ℕ),
    (substituteFrom pat (fun _ => some []) skip k text).length ≤ text.length
  | [], _, _ => by simp [substituteFrom]
  | c :: text, skip + 1, k => (length_substituteFrom_le text skip k).trans (Nat.le_succ _)
  | c :: text, 0, k => by
    rw [substituteFrom]
    split
    · exact (length_substituteFrom_le text _ _).trans (Nat.le_succ _)
    · exact Nat.succ_le_succ (length_substituteFrom_le text 0 k)

theorem length_substituteFrom_lt {pat : List α} (hne : pat ≠ []) : ∀ (text : List α) (k : ℕ),
    pat <:+: text → (substituteFrom pat (fun _ => some []) 0 k text).length < text.length
  | [], _, h => absurd (List.infix_nil.mp h) hne
  | c :: text, k, h => by
    rw [substituteFrom]
    split
    · exact Nat.lt_succ_of_le (length_substituteFrom_le text _ _)
    · next hpre =>
      have htext := (List.infix_cons_iff.mp h).resolve_left (mt List.isPrefixOf_iff_prefix.mpr hpre)
      exact Nat.succ_lt_succ (length_substituteFrom_lt hne text k htext)

/-- Without the literal the text stays. -/
theorem substituteFrom_of_notInfix {pat : List α} {f : ℕ → Option (List α)} : ∀ (text : List α) (k : ℕ),
    ¬ pat <:+: text → substituteFrom pat f 0 k text = text
  | [], _, _ => rfl
  | c :: text, k, h => by
    rw [List.infix_cons_iff, not_or] at h
    rw [substituteFrom, if_neg (mt List.isPrefixOf_iff_prefix.mp h.1), substituteFrom_of_notInfix text k h.2]

theorem replace_eq_self_iff {pat text : List α} (hne : pat ≠ []) :
    replace pat [] text = text ↔ ¬ pat <:+: text := by
  refine ⟨fun heq hin => ?_, substituteFrom_of_notInfix text 0⟩
  have hlt := length_substituteFrom_lt hne text 0 hin
  rw [← substitute, ← replace, heq] at hlt
  exact Nat.lt_irrefl _ hlt

end Literal
end DaatMcs
