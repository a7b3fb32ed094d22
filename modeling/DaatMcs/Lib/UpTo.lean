/-
# Dropping what is before a word

`re.sub` of `.*?` and a word by the word, where a dot in the word is the
pattern's: before each place that fits, what is on the same line is dropped,
and the place gets the word's dots. The result never weighs more (a dot weighs
one, another character two), and it is the text itself where nothing is before
a match and each match is the word (`sub_upTo_eq_self_iff`, line by line).
-/
import DaatMcs.Lib.Lines
import DaatMcs.Lib.Regex
import Mathlib.Algebra.Ring.Nat
import Mathlib.Data.List.Forall2

namespace DaatMcs
namespace Regex

variable {w : Text}

/-- A word in a pattern: its dots are `.`. -/
def dotted (w : Text) : Pattern := .concat (w.map fun c => if c = '.' then .set dot else .lit [c])

/-- `.*?` and a word. -/
def upTo (w : Text) : Pattern := .seq (.lazy dot 0) (dotted w)

example : (upTo "a.c".toList).sub "a.c".toList "xabc\nac".toList = "a.c\nac".toList := by decide

/-! ### What fits -/

/-- A dot fits every character on the line, another character itself. -/
def Fits (w u : Text) : Prop := List.Forall₂ (fun c d => d = c ∨ c = '.' ∧ d ≠ '\n') w u

theorem fits_self (w : Text) : Fits w w := List.forall₂_same.mpr fun _ _ => .inl rfl

theorem Fits.notMem {u : Text} (h : Fits w u) (hw : '\n' ∉ w) : '\n' ∉ u := by
  induction h with
  | nil => exact List.not_mem_nil
  | cons hcd _ ih =>
    rw [List.mem_cons, not_or] at hw ⊢
    refine ⟨?_, ih hw.2⟩
    rcases hcd with rfl | ⟨-, hd⟩
    · exact hw.1
    · exact hd.symm

theorem mem_matches_dotted : ∀ {w s : Text} {m : Match}, m ∈ (dotted w).matches s ↔
    m.groups = [] ∧ Fits w m.taken ∧ m.taken ++ m.rest = s
  | [], s, m => by
    have hnil : dotted [] = .lit [] := rfl
    rw [hnil, mem_matches_lit, List.nil_append, Fits, List.forall₂_nil_left_iff]
    refine and_congr_right fun _ => and_congr_right fun htaken => ?_
    rw [htaken, List.nil_append]
  | c :: w, s, m => by
    have hcons : dotted (c :: w) = .seq (if c = '.' then .set dot else .lit [c]) (dotted w) := rfl
    have hone : ∀ {a : Match}, a ∈ (if c = '.' then Pattern.set dot else .lit [c]).matches s ↔
        ∃ d, (d = c ∨ c = '.' ∧ d ≠ '\n') ∧ a = ⟨[], [d], a.rest⟩ ∧ d :: a.rest = s := by
      intro a
      split_ifs with hc
      · rw [mem_matches_set]
        refine exists_congr fun d => ?_
        have hd : dot d = true ↔ d = c ∨ c = '.' ∧ d ≠ '\n' := by
          rw [dot, decide_eq_true_eq, hc]
          exact ⟨fun h => .inr ⟨rfl, h⟩, fun h => h.elim (fun h => h ▸ by decide) And.right⟩
        rw [hd, and_congr_right_iff]
        exact fun _ => and_comm
      · rw [mem_matches_lit]
        constructor
        · rintro ⟨hg, htaken, hrest⟩
          exact ⟨c, .inl rfl, by rw [← hg, ← htaken], hrest⟩
        · rintro ⟨d, hd, ha, hrest⟩
          obtain rfl := hd.resolve_right fun h => hc h.1
          rw [ha]
          exact ⟨rfl, rfl, hrest⟩
    rw [hcons, mem_matches_seq]
    constructor
    · rintro ⟨a, ha, b, hb, rfl⟩
      obtain ⟨d, hd, ha, hrest⟩ := hone.mp ha
      obtain ⟨hg, hfits, hcut⟩ := mem_matches_dotted.mp hb
      rw [ha]
      refine ⟨hg, .cons hd hfits, ?_⟩
      rw [← hrest, ← hcut]
      rfl
    · rintro ⟨hg, hfits, hcut⟩
      obtain ⟨d, u, hd, hu, htaken⟩ := List.forall₂_cons_left_iff.mp hfits
      refine ⟨⟨[], [d], u ++ m.rest⟩, hone.mpr ⟨d, hd, rfl, ?_⟩, ⟨[], u, m.rest⟩,
        mem_matches_dotted.mpr ⟨rfl, hu, rfl⟩, ?_⟩
      · rw [← hcut, htaken, List.cons_append]
      · rw [Match.append, List.append_nil, List.singleton_append, ← htaken, ← hg]

/-- There is one way to match the word itself. -/
theorem matches_dotted : ∀ w t : Text, (dotted w).matches (w ++ t) = [⟨[], w, t⟩]
  | [], t => rfl
  | c :: w, t => by
    have hcons : dotted (c :: w) = .seq (if c = '.' then .set dot else .lit [c]) (dotted w) := rfl
    have hone : (if c = '.' then Pattern.set dot else .lit [c]).matches (c :: (w ++ t)) =
        [⟨[], [c], w ++ t⟩] := by
      split_ifs with hc
      · rw [Pattern.matches, if_pos (hc ▸ by decide)]
      · rw [Pattern.matches, if_pos (by simp)]
        rfl
    rw [hcons, Pattern.matches, List.cons_append, hone, List.flatMap_singleton, matches_dotted w t]
    rfl

theorem mem_matches_upTo {s : Text} {m : Match} : m ∈ (upTo w).matches s ↔
    m.groups = [] ∧ ∃ gap u, '\n' ∉ gap ∧ Fits w u ∧ m.taken = gap ++ u ∧ gap ++ (u ++ m.rest) = s := by
  have hdot : ∀ gap : Text, (∀ c ∈ gap, dot c = true) ↔ '\n' ∉ gap := fun gap =>
    ⟨fun h hmem => absurd (h _ hmem) (by decide), fun h c hc => decide_eq_true (ne_of_mem_of_not_mem hc h)⟩
  rw [upTo, mem_matches_seq]
  constructor
  · rintro ⟨a, ha, b, hb, rfl⟩
    obtain ⟨hga, hcut, hall, -⟩ := mem_runMatches.mp ha
    obtain ⟨hgb, hfits, hrest⟩ := mem_matches_dotted.mp hb
    refine ⟨?_, a.taken, b.taken, (hdot _).mp hall, hfits, rfl, ?_⟩
    · rw [Match.append, hga, hgb, List.append_nil]
    · rw [Match.append, hrest, hcut]
  · rintro ⟨hg, gap, u, hgap, hfits, htaken, hcut⟩
    refine ⟨⟨[], gap, u ++ m.rest⟩, mem_runMatches.mpr ⟨rfl, hcut, (hdot gap).mpr hgap, Nat.zero_le _⟩,
      ⟨[], u, m.rest⟩, mem_matches_dotted.mpr ⟨rfl, hfits, rfl⟩, ?_⟩
    rw [Match.append, ← htaken, List.append_nil, ← hg]

/-- A match with nothing before the word is the first. -/
theorem matches_upTo_word (t : Text) : ∃ ms, (upTo w).matches (w ++ t) = ⟨[], w, t⟩ :: ms := by
  obtain ⟨l, hl, -⟩ := exists_runs_eq dot (w ++ t)
  refine ⟨((l.filter fun x => 0 ≤ x.1.length).map fun x => Match.mk [] x.1 x.2).flatMap fun m =>
    ((dotted w).matches m.rest).map m.append, ?_⟩
  rw [upTo, Pattern.matches, Pattern.matches, runMatches, hl,
    List.filter_cons_of_pos (by simp), List.map_cons, List.flatMap_cons, matches_dotted]
  rfl

/-! ### The weight -/

/-- A dot weighs one, another character two. -/
def weight (s : Text) : ℕ := (s.map fun c => if c = '.' then 1 else 2).sum

theorem weight_append (s t : Text) : weight (s ++ t) = weight s + weight t := by
  rw [weight, List.map_append, List.sum_append]
  rfl

theorem weight_cons (c : Char) (s : Text) : weight (c :: s) = (if c = '.' then 1 else 2) + weight s := by
  rw [weight, List.map_cons, List.sum_cons]
  rfl

theorem eq_nil_of_weight {s : Text} (h : weight s = 0) : s = [] := by
  cases s with
  | nil => rfl
  | cons c s =>
    rw [weight_cons] at h
    split at h <;> omega

/-- What fits a word weighs no less, and more if it is another text. -/
theorem Fits.weight_le {u : Text} (h : Fits w u) : weight w ≤ weight u ∧ (weight u ≤ weight w → u = w) := by
  induction h with
  | nil => exact ⟨Nat.le_refl _, fun _ => rfl⟩
  | @cons c d w u hcd _ ih =>
    obtain ⟨hle, heq⟩ := ih
    rw [weight_cons, weight_cons]
    rcases hcd with rfl | ⟨rfl, -⟩
    · exact ⟨by omega, fun h => by rw [heq (by omega)]⟩
    · rw [if_pos rfl]
      split_ifs with hd
      · exact ⟨by omega, fun h => by rw [heq (by omega), hd]⟩
      · exact ⟨by omega, fun h => by omega⟩

/-- What is dropped is missing, and a dot weighs less than what it is put for. -/
theorem weight_subFrom_upTo : ∀ (fuel : ℕ) (mustAdvance : Bool) (s : Text),
    weight ((upTo w).subFrom w fuel mustAdvance s) ≤ weight s ∧
      (weight s ≤ weight ((upTo w).subFrom w fuel mustAdvance s) →
        (upTo w).subFrom w fuel mustAdvance s = s)
  | 0, _, s => ⟨Nat.le_refl _, fun _ => rfl⟩
  | fuel + 1, mustAdvance, s => by
    unfold Pattern.subFrom
    split
    · next m hm =>
      obtain ⟨-, gap, u, -, hfits, -, rfl⟩ := mem_matches_upTo.mp (List.mem_of_find?_eq_some hm)
      obtain ⟨hle, heq⟩ := weight_subFrom_upTo fuel (m.taken = []) m.rest
      obtain ⟨hle', heq'⟩ := hfits.weight_le
      simp only [weight_append]
      refine ⟨by omega, fun h => ?_⟩
      rw [heq (by omega), heq' (by omega), eq_nil_of_weight (by omega : weight gap = 0), List.nil_append]
    · split
      · exact ⟨Nat.le_refl _, fun _ => rfl⟩
      · next c cs _ =>
        obtain ⟨hle, heq⟩ := weight_subFrom_upTo fuel false cs
        simp only [weight_cons]
        exact ⟨by omega, fun h => by rw [heq (by omega)]⟩

theorem weight_sub_upTo_le (s : Text) : weight ((upTo w).sub w s) ≤ weight s :=
  (weight_subFrom_upTo _ _ s).1

theorem sub_upTo_eq_self {s : Text} (h : weight s ≤ weight ((upTo w).sub w s)) :
    (upTo w).sub w s = s :=
  (weight_subFrom_upTo _ _ s).2 h

theorem weight_map_sub_upTo : ∀ l : List Text,
    ((l.map ((upTo w).sub w)).map weight).sum ≤ (l.map weight).sum ∧
      ((l.map weight).sum ≤ ((l.map ((upTo w).sub w)).map weight).sum →
        ∀ s ∈ l, (upTo w).sub w s = s)
  | [] => ⟨Nat.le_refl 0, fun _ s hs => by cases hs⟩
  | s :: l => by
    obtain ⟨hle, hall⟩ := weight_map_sub_upTo l
    have hs := weight_sub_upTo_le (w := w) s
    simp only [List.map_cons, List.sum_cons]
    refine ⟨by omega, fun h => List.forall_mem_cons.mpr ⟨sub_upTo_eq_self (by omega), hall (by omega)⟩⟩

/-- Texts changed into each other only can not have changed. -/
theorem map_sub_upTo_perm_iff {l : List Text} :
    (l.map ((upTo w).sub w)).Perm l ↔ ∀ s ∈ l, (upTo w).sub w s = s := by
  constructor
  · intro h
    exact (weight_map_sub_upTo l).2 (h.map weight).sum_nat.ge
  · intro h
    rw [List.map_congr_left h, List.map_id']

/-! ### When nothing is dropped -/

/-- Somewhere in the text something fits the word. -/
def Occurs (w s : Text) : Prop := ∃ u, Fits w u ∧ u <:+: s

theorem Occurs.mono {s t : Text} (h : Occurs w s) (hst : s <:+: t) : Occurs w t :=
  h.imp fun _ hu => ⟨hu.1, hu.2.trans hst⟩

theorem not_occurs_nil (hne : w ≠ []) : ¬ Occurs w [] := by
  rintro ⟨u, hfits, hin⟩
  obtain rfl := List.infix_nil.mp hin
  exact hne (List.forall₂_nil_right_iff.mp hfits)

/-- Copies of the word, and behind them text in which nothing fits it. -/
def LeadingCopies (w line : Text) : Prop :=
  ∃ k rest, line = (List.replicate k w).flatten ++ rest ∧ ¬ Occurs w rest

theorem leadingCopies_of_notOccurs {line : Text} (h : ¬ Occurs w line) : LeadingCopies w line := ⟨0, line, rfl, h⟩

/-- A line in which something fits the word starts with the word. -/
theorem LeadingCopies.starts {line : Text} (h : LeadingCopies w line) (hin : Occurs w line) : w <+: line := by
  obtain ⟨k, rest, rfl, hrest⟩ := h
  cases k with
  | zero => exact absurd hin hrest
  | succ k =>
    rw [List.replicate_succ, List.flatten_cons, List.append_assoc]
    exact List.prefix_append w _

theorem leadingCopies_append (line : Text) : LeadingCopies w (w ++ line) ↔ LeadingCopies w line := by
  constructor
  · rintro ⟨k, rest, heq, hrest⟩
    cases k with
    | zero =>
      rw [List.replicate_zero, List.flatten_nil, List.nil_append] at heq
      exact absurd ⟨w, fits_self w, heq ▸ (List.prefix_append w line).isInfix⟩ hrest
    | succ k =>
      rw [List.replicate_succ, List.flatten_cons, List.append_assoc, List.append_cancel_left_eq] at heq
      exact ⟨k, rest, heq, hrest⟩
  · rintro ⟨k, rest, rfl, hrest⟩
    exact ⟨k + 1, rest, by rw [List.replicate_succ, List.flatten_cons, List.append_assoc], hrest⟩

/-- On each line the copies of the word come first. -/
def WordsLead (w s : Text) : Prop := ∀ line ∈ s.splitOn '\n', LeadingCopies w line

theorem wordsLead_append (hw : '\n' ∉ w) (t : Text) : WordsLead w (w ++ t) ↔ WordsLead w t := by
  obtain ⟨line, lines, ht, -, hwt⟩ := Literal.splitOn_append t hw
  rw [WordsLead, WordsLead, ht, hwt, List.forall_mem_cons, List.forall_mem_cons, leadingCopies_append]

/-- Where something on the first line fits the word, the text starts with it. -/
theorem WordsLead.starts {gap u rest : Text} (hw : '\n' ∉ w) (hgap : '\n' ∉ gap) (hfits : Fits w u)
    (h : WordsLead w (gap ++ (u ++ rest))) : w <+: gap ++ (u ++ rest) := by
  have hgu : '\n' ∉ gap ++ u := fun hmem => (List.mem_append.mp hmem).elim hgap (hfits.notMem hw)
  obtain ⟨line, lines, -, hline, hsplit⟩ := Literal.splitOn_append rest hgu
  rw [List.append_assoc] at hsplit
  rw [WordsLead, hsplit, List.forall_mem_cons] at h
  refine (h.1.starts ⟨u, hfits, gap, line, rfl⟩).trans ?_
  rw [← List.append_assoc]
  exact List.prefix_append_right_inj _ |>.mpr hline

theorem wordsLead_nil (hne : w ≠ []) : WordsLead w [] := by
  intro line hline
  rw [List.splitOn_nil, List.mem_singleton] at hline
  rw [hline]
  exact leadingCopies_of_notOccurs (not_occurs_nil hne)

/-- Where nothing on the first line fits, a character before it is free. -/
theorem wordsLead_cons (hne : w ≠ []) {c : Char} {cs : Text}
    (hno : ∀ gap u t, '\n' ∉ gap → Fits w u → gap ++ (u ++ t) ≠ c :: cs) :
    WordsLead w (c :: cs) ↔ WordsLead w cs := by
  unfold WordsLead
  by_cases hc : c = '\n'
  · rw [hc, List.splitOn_cons_eq_if_modifyHead, if_pos (beq_self_eq_true _), List.forall_mem_cons]
    exact and_iff_right (leadingCopies_of_notOccurs (not_occurs_nil hne))
  · have hsep : '\n' ∉ [c] := by simpa using Ne.symm hc
    obtain ⟨line, lines, hcs, hline, hsplit⟩ := Literal.splitOn_append cs hsep
    rw [List.singleton_append, List.singleton_append] at hsplit
    have hnot : ¬ Occurs w (c :: line) := by
      rintro ⟨u, hfits, gap, t, heq⟩
      obtain ⟨rest, hrest⟩ := hline
      refine hno gap u (t ++ rest) (fun hmem => ?_) hfits ?_
      · have hmem' : '\n' ∈ c :: line := by
          rw [← heq]
          exact List.mem_append_left t (List.mem_append_left u hmem)
        exact Literal.notMem_of_mem_splitOn (hsplit ▸ List.mem_cons_self) hmem'
      · rw [← hrest, ← List.cons_append, ← heq]
        simp only [List.append_assoc]
    rw [hcs, hsplit, List.forall_mem_cons, List.forall_mem_cons]
    refine and_congr (iff_of_true (leadingCopies_of_notOccurs hnot) ?_) Iff.rfl
    exact leadingCopies_of_notOccurs fun hin => hnot (hin.mono (List.suffix_cons c line).isInfix)

theorem subFrom_upTo_eq_self_iff (hne : w ≠ []) (hw : '\n' ∉ w) : ∀ (fuel : ℕ) (s : Text),
    s.length < fuel → ((upTo w).subFrom w fuel false s = s ↔ WordsLead w s)
  | fuel + 1, s, hfuel => by
    have hpos := List.length_pos_iff.mpr hne
    unfold Pattern.subFrom
    split
    · next m hm =>
      by_cases hpre : w <+: s
      · -- the word is next: it stays, and the rest decides
        obtain ⟨t, rfl⟩ := hpre
        obtain ⟨ms, hms⟩ := matches_upTo_word (w := w) t
        rw [hms, List.find?_cons_of_pos (by simp), Option.some.injEq] at hm
        subst hm
        rw [List.length_append] at hfuel
        rw [List.append_cancel_left_eq, decide_eq_false hne, wordsLead_append hw]
        exact subFrom_upTo_eq_self_iff hne hw fuel t (by omega)
      · -- the result starts with the word, the text does not
        obtain ⟨-, gap, u, hgap, hfits, -, rfl⟩ := mem_matches_upTo.mp (List.mem_of_find?_eq_some hm)
        exact iff_of_false (fun heq => hpre ⟨_, heq⟩) fun h => hpre (h.starts hw hgap hfits)
    · next hnone =>
      have hno : ∀ gap u t, '\n' ∉ gap → Fits w u → gap ++ (u ++ t) ≠ s := fun gap u t hgap hfits heq => by
        have hmem : (⟨[], gap ++ u, t⟩ : Match) ∈ (upTo w).matches s :=
          mem_matches_upTo.mpr ⟨rfl, gap, u, hgap, hfits, rfl, heq⟩
        have htaken : gap ++ u ≠ [] := fun hnil => by
          rw [(List.append_eq_nil_iff.mp hnil).2] at hfits
          exact hne (List.forall₂_nil_right_iff.mp hfits)
        exact absurd (List.find?_eq_none.mp hnone _ hmem) (by simp [htaken])
      split
      · exact iff_of_true rfl (wordsLead_nil hne)
      · next c cs =>
        rw [List.cons.injEq, and_iff_right rfl, wordsLead_cons hne hno]
        exact subFrom_upTo_eq_self_iff hne hw fuel cs (by simpa using hfuel)

/-- **Main result.** A text stays as it is iff on each of its lines the copies
of the word come first, and in what is behind them nothing fits it. -/
theorem sub_upTo_eq_self_iff (hne : w ≠ []) (hw : '\n' ∉ w) (s : Text) :
    (upTo w).sub w s = s ↔ ∀ line ∈ s.splitOn '\n', LeadingCopies w line :=
  subFrom_upTo_eq_self_iff hne hw _ s (by omega)

/-- Without a word everything goes but the newlines. -/
theorem subFrom_upTo_nil : ∀ (fuel : ℕ) (s : Text), 2 * s.length + 2 ≤ fuel →
    (upTo []).subFrom [] fuel false s = s.filter fun c => c = '\n'
  | fuel + 2, s, hfuel => by
    have hmatches : (upTo []).matches s = (runs dot s).map fun x => ⟨[], x.1, x.2⟩ := by
      simp [upTo, dotted, Pattern.concat, Pattern.matches, runMatches, Match.append, List.flatMap_map, ← List.map_eq_flatMap]
    obtain ⟨ms, hms⟩ := matches_upTo_word (w := []) s
    rw [List.nil_append] at hms
    unfold Pattern.subFrom
    rw [hms, List.find?_cons_of_pos (by simp)]
    show (upTo []).subFrom [] (fuel + 1) true s = _
    unfold Pattern.subFrom
    rw [hmatches]
    cases s with
    | nil => rfl
    | cons c cs =>
      rw [List.length_cons] at hfuel
      have ih := subFrom_upTo_nil fuel cs (by omega)
      by_cases hc : c = '\n'
      · rw [hc]
        show '\n' :: (upTo []).subFrom [] fuel false cs = _
        rw [ih]
        rfl
      · obtain ⟨l, hl, -⟩ := exists_runs_eq dot cs
        have hdot : dot c = true := decide_eq_true hc
        rw [runs, if_pos hdot, hl]
        show (upTo []).subFrom [] fuel false cs = _
        rw [ih, List.filter_cons_of_neg (by simpa using hc)]

theorem sub_upTo_nil (s : Text) : (upTo []).sub [] s = s.filter fun c => c = '\n' :=
  subFrom_upTo_nil _ s (Nat.le_refl _)

end Regex
end DaatMcs
