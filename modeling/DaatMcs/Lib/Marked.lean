/-
# Substituting behind a mark

A pattern that starts with a character it does not have again, the mark,
matches within the piece of the text between that mark and the next one. So
substituting for it goes piece by piece (`splitOn_sub`): the text before the
first mark stays, and of each other piece the beginning is replaced or
nothing.

`Subs` says what a substitution gives without its fuel: the first match at a
place is replaced, and where there is none a character is copied.
-/
import DaatMcs.Lib.Lines
import DaatMcs.Lib.Regex

namespace DaatMcs
namespace Regex

open Literal

/-! ### Substitution without fuel -/

/-- The substitution gives `out`, with enough fuel. -/
def Pattern.Subs (r : Pattern) (repl s out : Text) : Prop :=
  ∀ fuel, s.length < fuel → r.subFrom repl fuel false s = out

variable {r : Pattern} {repl s out : Text}

theorem Pattern.Subs.sub_eq (h : r.Subs repl s out) : r.sub repl s = out := h _ (by omega)

theorem find?_first (r : Pattern) (s : Text) :
    ((r.matches s).find? fun m => !false || m.taken ≠ []) = r.first s := by
  rw [Pattern.first]
  cases r.matches s with
  | nil => rfl
  | cons m ms => exact List.find?_cons_of_pos (by simp)

theorem subs_nil (h : r.first [] = none) : r.Subs repl [] [] := by
  intro fuel hfuel
  obtain ⟨fuel, rfl⟩ := Nat.exists_eq_succ_of_ne_zero (Nat.ne_of_gt hfuel)
  unfold Pattern.subFrom
  rw [find?_first, h]

theorem subs_copy {c : Char} (h : r.first (c :: s) = none) (hs : r.Subs repl s out) :
    r.Subs repl (c :: s) (c :: out) := by
  intro fuel hfuel
  obtain ⟨fuel, rfl⟩ := Nat.exists_eq_succ_of_ne_zero (Nat.ne_of_gt (Nat.zero_lt_of_lt hfuel))
  rw [Pattern.subFrom, find?_first, h]
  exact congrArg (c :: ·) (hs fuel (Nat.lt_of_succ_lt_succ hfuel))

theorem subs_replace {m : Match} (h : r.first s = some m) (htaken : m.taken ≠ [])
    (hs : r.Subs repl m.rest out) : r.Subs repl s (repl ++ out) := by
  intro fuel hfuel
  obtain ⟨fuel, rfl⟩ := Nat.exists_eq_succ_of_ne_zero (Nat.ne_of_gt (Nat.zero_lt_of_lt hfuel))
  have hlen : m.rest.length < fuel := by
    have hcut := congrArg List.length (taken_append_rest (List.mem_of_head? h))
    have hpos := List.length_pos_iff.mpr htaken
    rw [List.length_append] at hcut
    omega
  unfold Pattern.subFrom
  rw [find?_first, h]
  dsimp only
  rw [decide_eq_false htaken, hs fuel hlen]

/-! ### Pieces -/

section
variable (mark : Char) (w : Text) (q : Pattern)

/-- What the substitution does to the text behind a mark. -/
def subPiece (r : Pattern) (repl piece : Text) : Text :=
  match r.first piece with
  | some m => repl ++ m.rest
  | none => piece

/-- All entries but the first. -/
def mapTail {α : Type*} (f : α → α) : List α → List α
  | [] => []
  | x :: xs => x :: xs.map f

variable {mark w q}

theorem first_marked (s : Text) : (Pattern.seq (.lit (mark :: w)) q).first (mark :: s) =
    ((Pattern.seq (.lit w) q).first s).map (Match.append ⟨[], [mark], s⟩) := by
  by_cases hw : w <+: s
  · obtain ⟨t, rfl⟩ := hw
    have hcons : mark :: (w ++ t) = (mark :: w) ++ t := rfl
    rw [hcons, first_lit_seq, first_lit_seq, Option.map_map]
    rfl
  · rw [first_lit_seq_none fun h => hw (List.cons_prefix_cons.mp h).2, first_lit_seq_none hw]
    rfl

theorem first_unmarked {c : Char} (hc : c ≠ mark) (s : Text) :
    (Pattern.seq (.lit (mark :: w)) q).first (c :: s) = none :=
  first_lit_seq_none (fun h => hc (List.cons_prefix_cons.mp h).1.symm) q

theorem first_marked_nil : (Pattern.seq (.lit (mark :: w)) q).first [] = none :=
  first_lit_seq_none (fun h => List.cons_ne_nil _ _ (List.prefix_nil.mp h)) q

/-- A pattern without the mark matches within the piece. -/
theorem first_piece (hq : r.avoids mark = true) (hr : r.noEos = true) {piece rest : Text}
    (hrest : ∀ c ∈ rest.head?, c = mark) :
    r.first (piece ++ rest) = (r.first piece).map (Match.extend rest) := by
  refine first_append hr fun m hm => ?_
  by_contra hlt
  rw [Nat.not_le] at hlt
  cases rest with
  | nil =>
    have hlen := congrArg List.length (taken_append_rest hm)
    simp only [List.append_nil, List.length_append] at hlen
    omega
  | cons c rest =>
    obtain rfl : c = mark := hrest c rfl
    have hpre : piece ++ [c] <+: m.taken := by
      refine List.prefix_of_prefix_length_le ⟨rest, by simp⟩ ⟨m.rest, taken_append_rest hm⟩ ?_
      rw [List.length_append]
      exact hlt
    exact notMem_taken hq hm (hpre.subset (List.mem_append_right piece (List.mem_singleton_self c)))

/-- Text without the mark is copied. -/
theorem subs_unmarked {repl : Text} {s out : Text} (h : (Pattern.seq (.lit (mark :: w)) q).Subs repl s out) :
    ∀ {pre : Text}, mark ∉ pre → (Pattern.seq (.lit (mark :: w)) q).Subs repl (pre ++ s) (pre ++ out)
  | [], _ => h
  | c :: pre, hpre => by
    rw [List.mem_cons, not_or] at hpre
    exact subs_copy (first_unmarked (Ne.symm hpre.1) (pre ++ s)) (subs_unmarked h hpre.2)

/-- Pieces with their marks. -/
def marked (mark : Char) (pieces : List Text) : Text := pieces.flatMap (mark :: ·)

theorem intercalate_marked (mark : Char) (first : Text) : ∀ pieces : List Text,
    [mark].intercalate (first :: pieces) = first ++ marked mark pieces
  | [] => by simp [marked]
  | piece :: pieces => by
    rw [List.intercalate_cons_cons, intercalate_marked mark piece pieces, List.append_assoc]
    rfl

theorem notMem_subPiece {repl piece : Text} (hrepl : mark ∉ repl) (hpiece : mark ∉ piece) :
    mark ∉ subPiece r repl piece := by
  unfold subPiece
  split
  · next m hm =>
    have hcut := taken_append_rest (List.mem_of_head? hm)
    exact fun h => (List.mem_append.mp h).elim hrepl fun h =>
      hpiece (hcut ▸ List.mem_append_right m.taken h)
  · exact hpiece

theorem subs_marked (hw : mark ∉ w) (hq : q.avoids mark = true) (hne : q.noEos = true) {repl : Text} :
    ∀ {pieces : List Text}, (∀ piece ∈ pieces, mark ∉ piece) →
      (Pattern.seq (.lit (mark :: w)) q).Subs (mark :: repl) (marked mark pieces)
        (marked mark (pieces.map (subPiece (.seq (.lit w) q) repl)))
  | [], _ => subs_nil first_marked_nil
  | piece :: pieces, h => by
    rw [List.forall_mem_cons] at h
    have ih : Pattern.Subs _ (mark :: repl) (marked mark pieces) _ := subs_marked hw hq hne h.2
    have hrest : ∀ c ∈ (marked mark pieces).head?, c = mark := by
      cases pieces with
      | nil => simp [marked]
      | cons p ps => simp [marked]
    have havoids : (Pattern.seq (.lit w) q).avoids mark = true := by
      simp [Pattern.avoids, hw, hq]
    have hmark : (Pattern.seq (.lit (mark :: w)) q).first (mark :: (piece ++ marked mark pieces)) = _ :=
      first_marked (piece ++ marked mark pieces)
    rw [first_piece havoids hne hrest] at hmark
    show Pattern.Subs _ _ (mark :: (piece ++ marked mark pieces))
      (mark :: (subPiece (.seq (.lit w) q) repl piece ++ _))
    unfold subPiece
    cases hm : (Pattern.seq (.lit w) q).first piece with
    | none =>
      rw [hm] at hmark
      exact subs_copy hmark (subs_unmarked ih h.1)
    | some m =>
      rw [hm] at hmark
      have hcut := taken_append_rest (List.mem_of_head? hm)
      have hpiece : mark ∉ m.rest := fun hc => h.1 (hcut ▸ List.mem_append_right m.taken hc)
      have hsub := subs_replace hmark (List.cons_ne_nil _ _) (subs_unmarked ih hpiece)
      rw [List.cons_append, ← List.append_assoc] at hsub
      exact hsub

/-- **Piece by piece.** The text before the first mark stays, of each other
piece the beginning is replaced if it matches. -/
theorem splitOn_sub (hw : mark ∉ w) (hq : q.avoids mark = true) (hne : q.noEos = true) {repl : Text}
    (hrepl : mark ∉ repl) (text : Text) :
    ((Pattern.seq (.lit (mark :: w)) q).sub (mark :: repl) text).splitOn mark =
      mapTail (subPiece (.seq (.lit w) q) repl) (text.splitOn mark) := by
  obtain ⟨first, pieces, hsplit⟩ := List.exists_cons_of_ne_nil (List.splitOn_ne_nil mark text)
  have hnone : ∀ piece ∈ first :: pieces, mark ∉ piece := fun piece hp =>
    notMem_of_mem_splitOn (hsplit ▸ hp)
  rw [List.forall_mem_cons] at hnone
  have htext : text = first ++ marked mark pieces := by
    rw [← intercalate_marked, ← hsplit, List.intercalate_splitOn]
  have hsub : (Pattern.seq (.lit (mark :: w)) q).sub (mark :: repl) text =
      [mark].intercalate (first :: pieces.map (subPiece (.seq (.lit w) q) repl)) := by
    rw [intercalate_marked]
    conv_lhs => rw [htext]
    exact (subs_unmarked (subs_marked hw hq hne hnone.2) hnone.1).sub_eq
  rw [hsub, hsplit, mapTail, List.splitOn_intercalate mark _ (List.cons_ne_nil _ _)]
  rw [List.forall_mem_cons]
  refine ⟨hnone.1, fun piece hp => ?_⟩
  obtain ⟨p, hmem, rfl⟩ := List.mem_map.mp hp
  exact notMem_subPiece hrepl (hnone.2 p hmem)

theorem mapTail_mapTail {α : Type*} (f g : α → α) : ∀ l : List α,
    mapTail f (mapTail g l) = mapTail (f ∘ g) l
  | [] => rfl
  | x :: xs => by rw [mapTail, mapTail, mapTail, List.map_map]

end

/-! ### Gaps and words -/

section
variable {p : Char → Bool} {w t : Text}

/-- A gap is taken whole where what comes next cannot start in it. -/
theorem first_gap (hall : ∀ c ∈ w, p c = true) (hne : w ≠ []) (ht : ∀ c ∈ t.head?, p c = false)
    (hr : ∀ c s, p c = true → r.first (c :: s) = none) :
    (Pattern.seq (.greedy p 1) r).first (w ++ t) = (r.first t).map (Match.append ⟨[], w, t⟩) := by
  cases hfirst : r.first t with
  | some m => exact first_greedy_seq hall (List.length_pos_iff.mpr hne) ht hfirst
  | none =>
    rw [first_seq, Option.map_none, List.findSome?_eq_none_iff]
    intro a ha
    obtain ⟨-, hcut, htaken, -⟩ := mem_runMatches.mp (List.mem_reverse.mp ha)
    rw [Option.map_eq_none_iff]
    rcases List.append_eq_append_iff.mp hcut with ⟨y, hw, hrest⟩ | ⟨y, htake, hrest⟩
    · cases y with
      | nil =>
        rw [hrest]
        exact hfirst
      | cons c y =>
        rw [hrest]
        exact hr c _ (hall c (hw ▸ List.mem_append_right a.taken List.mem_cons_self))
    · cases y with
      | nil =>
        rw [List.nil_append] at hrest
        rw [← hrest]
        exact hfirst
      | cons c y =>
        have hc := htaken c (htake ▸ List.mem_append_right w List.mem_cons_self)
        rw [ht c (by rw [hrest]; rfl)] at hc
        exact absurd hc Bool.false_ne_true

/-- Without a gap there is no match. -/
theorem first_no_gap (ht : ∀ c ∈ t.head?, p c = false) : (Pattern.seq (.greedy p 1) r).first t = none := by
  rw [first_seq, List.findSome?_eq_none_iff]
  intro a ha
  obtain ⟨-, hcut, htaken, hlen⟩ := mem_runMatches.mp (List.mem_reverse.mp ha)
  obtain ⟨c, x, hx⟩ := List.exists_cons_of_ne_nil (List.length_pos_iff.mp hlen)
  have hc := htaken c (hx ▸ List.mem_cons_self)
  rw [ht c (by rw [← hcut, hx]; rfl)] at hc
  exact absurd hc Bool.false_ne_true

/-- A word before a gap is the whole run of other characters. -/
theorem first_word {word : Text} (hword : ∀ c ∈ w, p c = false) (hw : ∀ c ∈ word, p c = false)
    (ht : ∀ c ∈ t.head?, p c = true) :
    (Pattern.seq (.lit word) (.seq (.greedy p 1) r)).first (w ++ t) =
      if w = word then ((Pattern.seq (.greedy p 1) r).first t).map (Match.append ⟨[], w, t⟩) else none := by
  split
  · next h => rw [← h, first_lit_seq]
  · next h =>
    by_cases hpre : word <+: w ++ t
    · -- the word stops before the run does, or goes on behind it
      rcases List.prefix_or_prefix_of_prefix hpre (List.prefix_append w t) with ⟨y, rfl⟩ | ⟨y, rfl⟩
      · cases y with
        | nil => exact absurd (List.append_nil word) h
        | cons c y =>
          rw [List.append_assoc, first_lit_seq, List.cons_append, first_no_gap, Option.map_none]
          rintro d hd
          obtain rfl : c = d := by simpa using hd
          exact hword c (List.mem_append_right word List.mem_cons_self)
      · cases y with
        | nil => exact absurd (List.append_nil w).symm h
        | cons c y =>
          have hc := hw c (List.mem_append_right w List.mem_cons_self)
          rw [List.prefix_append_right_inj] at hpre
          obtain ⟨z, rfl⟩ := hpre
          rw [ht c rfl] at hc
          exact absurd hc.symm Bool.false_ne_true
    · exact first_lit_seq_none hpre _

end

end Regex
end DaatMcs
