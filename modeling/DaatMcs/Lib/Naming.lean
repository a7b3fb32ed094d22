/-
# Names bumped once on a collision

Items get their own names one after the other; a name that was given before
is bumped with the position of the item, once, and not looked up again. So
the bumped name can be one that was given before, too.

`Taken` says by the own names alone that a name was given before: an earlier
item has the same one, or one that was taken and is bumped to it. If bumped
names show their positions, no two of them are the same, and the given names
are distinct iff no taken name is bumped to the own name of an item before
(`nodup_givenNames_iff`).

Key definitions: `givenNames`, `Taken`.
Key theorems: `mem_givenNames`, `taken_iff`, `nodup_givenNames_iff`.
-/
import Mathlib.Data.List.Induction
import Mathlib.Data.List.Nodup
import Mathlib.Tactic.Common

namespace DaatMcs

variable {α : Type*} [DecidableEq α] (bump : α → ℕ → α)

/-- The name given to an item after the names before. -/
def givenName (names : List α) (t : α) : α := if t ∈ names then bump t names.length else t

/-- The names given to items with the own names `ts`. -/
def givenNames (ts : List α) : List α := ts.foldl (fun names t => names ++ [givenName bump names t]) []

/-- The own name of the item at a position was given before. -/
inductive Taken (ts : List α) : ℕ → Prop
  | same {l i : ℕ} {t : α} : l < i → ts[l]? = some t → ts[i]? = some t → Taken ts i
  | bumped {m i : ℕ} {t : α} : m < i → Taken ts m → ts[m]? = some t → ts[i]? = some (bump t m) →
    Taken ts i

theorem givenNames_concat (ts : List α) (t : α) :
    givenNames bump (ts ++ [t]) = givenNames bump ts ++ [givenName bump (givenNames bump ts) t] := by
  rw [givenNames, List.foldl_append]
  rfl

theorem length_givenNames (ts : List α) : (givenNames bump ts).length = ts.length := by
  induction ts using List.reverseRecOn with
  | nil => rfl
  | append_singleton ts t ih => rw [givenNames_concat, List.length_append, List.length_append, ih]; rfl

variable {bump}

omit [DecidableEq α] in
theorem Taken.lt {ts : List α} {i : ℕ} (h : Taken bump ts i) : i < ts.length := by
  cases h with
  | same _ _ hi => exact (List.getElem?_eq_some_iff.mp hi).1
  | bumped _ _ _ hi => exact (List.getElem?_eq_some_iff.mp hi).1

omit [DecidableEq α] in
/-- Items behind do not matter. -/
theorem taken_concat {ts : List α} {t : α} {i : ℕ} (hi : i < ts.length) :
    Taken bump (ts ++ [t]) i ↔ Taken bump ts i := by
  constructor
  · intro h
    induction h with
    | same hl hlt hit =>
      rw [List.getElem?_append_left (by omega)] at hlt hit
      exact .same hl hlt hit
    | bumped hm _ hmt hit ih =>
      rw [List.getElem?_append_left (by omega)] at hmt hit
      exact .bumped hm (ih (by omega)) hmt hit
  · intro h
    induction h with
    | same hl hlt hit =>
      exact .same hl ((List.getElem?_append_left (by omega)).trans hlt)
        ((List.getElem?_append_left (by omega)).trans hit)
    | bumped hm _ hmt hit ih =>
      exact .bumped hm (ih (by omega)) ((List.getElem?_append_left (by omega)).trans hmt)
        ((List.getElem?_append_left (by omega)).trans hit)

omit [DecidableEq α] in
/-- The last item's name is taken by an own name or by a bumped one. -/
theorem taken_length {ts : List α} {t : α} : Taken bump (ts ++ [t]) ts.length ↔
    t ∈ ts ∨ ∃ i u, Taken bump ts i ∧ ts[i]? = some u ∧ t = bump u i := by
  have hlast : (ts ++ [t])[ts.length]? = some t := by simp
  constructor
  · intro h
    cases h with
    | same hl hlt hit =>
      rw [hlast] at hit
      obtain rfl := Option.some.inj hit
      rw [List.getElem?_append_left hl] at hlt
      exact .inl (List.mem_of_getElem? hlt)
    | bumped hm hmt hmu hit =>
      rw [hlast] at hit
      rw [List.getElem?_append_left hm] at hmu
      exact .inr ⟨_, _, (taken_concat hm).mp hmt, hmu, Option.some.inj hit⟩
  · rintro (h | ⟨i, u, hi, hu, rfl⟩)
    · obtain ⟨l, hl⟩ := List.mem_iff_getElem?.mp h
      have hlt : l < ts.length := (List.getElem?_eq_some_iff.mp hl).1
      exact .same hlt (by rwa [List.getElem?_append_left hlt]) hlast
    · exact .bumped hi.lt ((taken_concat hi.lt).mpr hi) (by rwa [List.getElem?_append_left hi.lt]) hlast

/-- The given names are the own names and the bumped ones. -/
theorem mem_givenNames {ts : List α} {n : α} : n ∈ givenNames bump ts ↔
    n ∈ ts ∨ ∃ i u, Taken bump ts i ∧ ts[i]? = some u ∧ n = bump u i := by
  induction ts using List.reverseRecOn generalizing n with
  | nil => simp [givenNames]
  | append_singleton ts t ih =>
    -- the last item bumps its name iff that is taken
    have hlast : t ∈ givenNames bump ts ↔ Taken bump (ts ++ [t]) ts.length := ih.trans taken_length.symm
    have hold : (∃ i u, Taken bump (ts ++ [t]) i ∧ (ts ++ [t])[i]? = some u ∧ n = bump u i) ↔
        (∃ i u, Taken bump ts i ∧ ts[i]? = some u ∧ n = bump u i) ∨
          t ∈ givenNames bump ts ∧ n = bump t ts.length := by
      constructor
      · rintro ⟨i, u, hi, hu, rfl⟩
        have hlt := hi.lt
        rw [List.length_append, List.length_singleton] at hlt
        rcases Nat.lt_or_ge i ts.length with h | h
        · rw [List.getElem?_append_left h] at hu
          exact .inl ⟨i, u, (taken_concat h).mp hi, hu, rfl⟩
        · obtain rfl : i = ts.length := by omega
          obtain rfl : t = u := by simpa using hu
          exact .inr ⟨hlast.mpr hi, rfl⟩
      · rintro (⟨i, u, hi, hu, rfl⟩ | ⟨ht, rfl⟩)
        · exact ⟨i, u, (taken_concat hi.lt).mpr hi, by rwa [List.getElem?_append_left hi.lt], rfl⟩
        · exact ⟨ts.length, t, hlast.mp ht, by simp, rfl⟩
    rw [givenNames_concat, List.mem_append, List.mem_singleton, hold, List.mem_append, List.mem_singleton,
      givenName, length_givenNames]
    by_cases ht : t ∈ givenNames bump ts
    · rw [if_pos ht, ih]
      constructor
      · rintro ((h | h) | h)
        · exact .inl (.inl h)
        · exact .inr (.inl h)
        · exact .inr (.inr ⟨ht, h⟩)
      · rintro ((h | rfl) | (h | ⟨-, h⟩))
        · exact .inl (.inl h)
        · exact .inl (ih.mp ht)
        · exact .inl (.inr h)
        · exact .inr h
    · rw [if_neg ht, ih]
      constructor
      · rintro ((h | h) | h)
        · exact .inl (.inl h)
        · exact .inr (.inl h)
        · exact .inl (.inr h)
      · rintro ((h | h) | (h | ⟨h, -⟩))
        · exact .inl (.inl h)
        · exact .inr h
        · exact .inl (.inr h)
        · exact absurd h ht

/-- A name is taken iff it is among the names given before. -/
theorem taken_iff {ts : List α} {t : α} :
    Taken bump (ts ++ [t]) ts.length ↔ t ∈ givenNames bump ts := taken_length.trans mem_givenNames.symm

/-- No taken name is bumped to the own name of an item before. -/
def BumpsApart (bump : α → ℕ → α) (ts : List α) : Prop :=
  ∀ i t, ts[i]? = some t → Taken bump ts i → bump t i ∉ ts.take i

omit [DecidableEq α] in
theorem bumpsApart_concat {ts : List α} {t : α} : BumpsApart bump (ts ++ [t]) ↔
    BumpsApart bump ts ∧ (Taken bump (ts ++ [t]) ts.length → bump t ts.length ∉ ts) := by
  constructor
  · intro h
    refine ⟨fun i u hu hi => ?_, fun ht => ?_⟩
    · have := h i u (by rwa [List.getElem?_append_left hi.lt]) ((taken_concat hi.lt).mpr hi)
      rwa [List.take_append_of_le_length (Nat.le_of_lt hi.lt)] at this
    · have := h ts.length t (by simp) ht
      rwa [List.take_left] at this
  · rintro ⟨hold, hlast⟩ i u hu hi
    have hlt := hi.lt
    rw [List.length_append, List.length_singleton] at hlt
    rcases Nat.lt_or_ge i ts.length with h | h
    · rw [List.getElem?_append_left h] at hu
      rw [List.take_append_of_le_length (Nat.le_of_lt h)]
      exact hold i u hu ((taken_concat h).mp hi)
    · obtain rfl : i = ts.length := by omega
      obtain rfl : t = u := by simpa using hu
      rw [List.take_left]
      exact hlast hi

/-- **When the given names are distinct**, for bumped names that show their
positions. -/
theorem nodup_givenNames_iff (hbump : ∀ t u i j, bump t i = bump u j → i = j) {ts : List α} :
    (givenNames bump ts).Nodup ↔ BumpsApart bump ts := by
  induction ts using List.reverseRecOn with
  | nil => exact ⟨fun _ _ _ hu => (by cases hu), fun _ => List.nodup_nil⟩
  | append_singleton ts t ih =>
    -- a bumped name before has another position
    have hnew : bump t ts.length ∈ givenNames bump ts ↔ bump t ts.length ∈ ts := by
      rw [mem_givenNames]
      refine or_iff_left ?_
      rintro ⟨i, u, hi, -, heq⟩
      exact absurd (hbump _ _ _ _ heq) (Nat.ne_of_gt hi.lt)
    rw [givenNames_concat, bumpsApart_concat, ← ih, taken_iff, ← hnew, List.nodup_append, givenName,
      length_givenNames]
    simp only [List.nodup_singleton, List.mem_singleton, true_and, forall_eq]
    refine and_congr_right fun _ => ?_
    split
    · next ht => exact ⟨fun h _ hmem => h _ hmem rfl, fun h a ha heq => h ht (heq ▸ ha)⟩
    · next ht => exact ⟨fun _ h => absurd h ht, fun _ a ha heq => ht (heq ▸ ha)⟩

end DaatMcs
