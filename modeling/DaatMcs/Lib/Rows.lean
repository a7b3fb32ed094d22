/-
# Literals in a row at the ends of lines

A literal that ends with the line separator can only match where a line ends
with the rest of it, its token. So of a text only the tokens matter that stand
in a row at the ends of its lines: substituting for a literal takes the last
one off each row that ends with it. An empty line put in leaves the token
before it as the last one of its row, which can match in its own turn; any
other text without the tokens' last character ends the row.

`Tokens.rows_substitute` says so of one substitution, whatever the texts are,
and `Tokens.rows_substituteOn` of several. The literals a text still has are
the rows it still has (`Tokens.rows_eq_nil_iff`).

Key definitions: `row`, `rows`, `turn`, `turns`.
-/
import DaatMcs.Lib.Lines

namespace DaatMcs
namespace Rows

open Literal

variable {α β : Type*} [DecidableEq α] [DecidableEq β]

/-! ### Turns -/

/-- What a turn does to a row: nothing is put in for its last token, an empty
line, or another text. -/
inductive Fate
  | kept
  | emptied
  | closed
deriving DecidableEq

/-- What is left of a row, from its end. -/
def Fate.rest : Fate → List β → List β
  | .kept, r => r
  | .emptied, r => r.tail
  | .closed, _ => []

/-- The row, if there is one. -/
def solid (r : List β) : List (List β) := if r = [] then [] else [r]

/-- The turn of the token `t`: the rows that end with it are counted, from `k`. -/
def turn (t : β) (fate : ℕ → Fate) : ℕ → List (List β) → List (List β)
  | _, [] => []
  | k, r :: rs =>
    if r.head? = some t then solid ((fate k).rest r) ++ turn t fate (k + 1) rs
    else r :: turn t fate k rs

/-- The rows that end with the token. -/
def ending (t : β) (rs : List (List β)) : ℕ := rs.countP fun r => r.head? = some t

/-- The turns of several tokens; the rows that end with one are counted on over
the tokens. -/
def turns (fate : β → (before k : ℕ) → Fate) : (before : ℕ) → List β → List (List β) → List (List β)
  | _, [], rs => rs
  | before, t :: ts, rs => turns fate (before + ending t rs) ts (turn t (fate t before) 0 rs)

theorem turn_solid (t : β) (fate : ℕ → Fate) (k : ℕ) (r : List β) (rs : List (List β)) :
    turn t fate k (solid r ++ rs) =
      if r.head? = some t then solid ((fate k).rest r) ++ turn t fate (k + 1) rs
      else solid r ++ turn t fate k rs := by
  cases r with
  | nil => rfl
  | cons a r => rfl

theorem ending_solid (t : β) (r : List β) (rs : List (List β)) :
    ending t (solid r ++ rs) = (if r.head? = some t then 1 else 0) + ending t rs := by
  cases r with
  | nil => simp [solid, ending]
  | cons a r =>
    rw [solid, if_neg (List.cons_ne_nil a r), List.singleton_append, ending, List.countP_cons, Nat.add_comm]
    simp [ending]

/-! ### Rows -/

/-- The tokens in a row at the end of a line, the last one first, as many as
there is fuel for. -/
def rowFuel (toks : List (List α)) : ℕ → List α → List (List α)
  | 0, _ => []
  | n + 1, l =>
    match toks.find? fun t => t <:+ l with
    | some t => t :: rowFuel toks n (l.take (l.length - t.length))
    | none => []

def row (toks : List (List α)) (l : List α) : List (List α) := rowFuel toks l.length l

/-- The lines of a text that are ended. -/
def lines (sep : α) (text : List α) : List (List α) := (text.splitOn sep).dropLast

/-- The rows of some lines, from the first line to the last. -/
def rows (toks ls : List (List α)) : List (List (List α)) := ls.flatMap fun l => solid (row toks l)

/-- The fate of a row by what replaces its last token: the rest of its line and
further lines. -/
def lineFate : Option (List α × List (List α)) → Fate
  | none => .kept
  | some r => if r.1 = [] then .emptied else .closed

/-- The same by the text put in. -/
def fate (sep : α) : Option (List α) → Fate
  | none => .kept
  | some r => if r.head? = some sep then .emptied else .closed

@[simp]
theorem rows_cons (toks : List (List α)) (l : List α) (ls : List (List α)) :
    rows toks (l :: ls) = solid (row toks l) ++ rows toks ls := rfl

theorem rows_append (toks ls ls' : List (List α)) :
    rows toks (ls ++ ls') = rows toks ls ++ rows toks ls' := List.flatMap_append

/-- Substituting for one literal after the other, the occurrences counted on
over the literals. -/
def substituteOn (sep : α) (value : List α → (before k : ℕ) → Option (List α)) :
    (before : ℕ) → List (List α) → List α → List α
  | _, [], text => text
  | before, t :: ts, text =>
    substituteOn sep value (before + (occurrences (t ++ [sep]) text).length) ts
      (substitute (t ++ [sep]) (value t before) text)

/-- The tokens end with a character of their own and none ends another. -/
structure Tokens (sep mark : α) (toks : List (List α)) : Prop where
  ne : mark ≠ sep
  sep_notMem : ∀ t ∈ toks, sep ∉ t
  mark_suffix : ∀ t ∈ toks, [mark] <:+ t
  apart : ∀ t ∈ toks, ∀ t' ∈ toks, t <:+ t' → t = t'

section
variable {sep mark : α} {toks : List (List α)} (h : Tokens sep mark toks)
include h

omit [DecidableEq α] in
theorem Tokens.length_pos {t : List α} (ht : t ∈ toks) : 0 < t.length := (h.mark_suffix t ht).length_le

omit [DecidableEq α] in
/-- A line ends with one token at most. -/
theorem Tokens.suffix_unique {t t' l : List α} (ht : t ∈ toks) (ht' : t' ∈ toks) (hl : t <:+ l)
    (hl' : t' <:+ l) : t = t' := by
  rcases Nat.le_total t.length t'.length with hle | hle
  · exact h.apart t ht t' ht' (List.suffix_of_suffix_length_le hl hl' hle)
  · exact (h.apart t' ht' t ht (List.suffix_of_suffix_length_le hl' hl hle)).symm

theorem Tokens.find?_append {t : List α} (ht : t ∈ toks) (pre : List α) :
    (toks.find? fun t' => t' <:+ pre ++ t) = some t := by
  cases hfind : toks.find? fun t' => t' <:+ pre ++ t with
  | none =>
    have hno := List.find?_eq_none.mp hfind t ht
    exact absurd (decide_eq_true (List.suffix_append pre t)) hno
  | some t' =>
    have hsuf : t' <:+ pre ++ t := by simpa using List.find?_some hfind
    rw [h.suffix_unique (List.mem_of_find?_eq_some hfind) ht hsuf (List.suffix_append pre t)]

theorem Tokens.rowFuel_nil : ∀ n : ℕ, rowFuel toks n [] = []
  | 0 => rfl
  | n + 1 => by
    rw [rowFuel]
    cases hfind : toks.find? fun t => t <:+ [] with
    | none => rfl
    | some t =>
      have hpos := h.length_pos (List.mem_of_find?_eq_some hfind)
      have hnil : t = [] := by simpa using List.find?_some hfind
      rw [hnil] at hpos
      exact absurd hpos (Nat.lt_irrefl 0)

theorem Tokens.rowFuel_eq : ∀ {n m : ℕ} {l : List α}, l.length ≤ n → l.length ≤ m →
    rowFuel toks n l = rowFuel toks m l
  | n, m, [], _, _ => by rw [h.rowFuel_nil n, h.rowFuel_nil m]
  | n + 1, m + 1, c :: l, hn, hm => by
    rw [rowFuel, rowFuel]
    cases hfind : toks.find? fun t => t <:+ c :: l with
    | none => rfl
    | some t =>
      have hpos := h.length_pos (List.mem_of_find?_eq_some hfind)
      have hlen : ((c :: l).take ((c :: l).length - t.length)).length ≤ min n m := by
        rw [List.length_take]
        omega
      dsimp only
      rw [Tokens.rowFuel_eq (n := n) (m := m) (by omega) (by omega)]

theorem Tokens.row_append {t : List α} (ht : t ∈ toks) (pre : List α) :
    row toks (pre ++ t) = t :: row toks pre := by
  have hpos := h.length_pos ht
  have hlen : (pre ++ t).length = pre.length + (t.length - 1) + 1 := by
    rw [List.length_append]
    omega
  have htake : (pre ++ t).take ((pre ++ t).length - t.length) = pre := by
    rw [List.length_append, Nat.add_sub_cancel, List.take_left]
  rw [row, hlen, rowFuel, h.find?_append ht]
  dsimp only
  rw [htake, row, h.rowFuel_eq (n := pre.length + (t.length - 1)) (m := pre.length) (by omega) (by omega)]

omit h in
theorem row_eq_nil {l : List α} (hno : ∀ t ∈ toks, ¬ t <:+ l) : row toks l = [] := by
  rw [row]
  cases l with
  | nil => rfl
  | cons c l =>
    rw [List.length_cons, rowFuel, List.find?_eq_none.mpr fun t ht => by simpa using hno t ht]

/-- The row ends with the token the line ends with. -/
theorem Tokens.head?_row {t : List α} (ht : t ∈ toks) (l : List α) :
    (row toks l).head? = some t ↔ t <:+ l := by
  constructor
  · intro hhead
    by_contra hno
    by_cases hex : ∃ t' ∈ toks, t' <:+ l
    · obtain ⟨t', ht', pre, rfl⟩ := hex
      rw [h.row_append ht', List.head?_cons, Option.some.injEq] at hhead
      exact hno (hhead ▸ List.suffix_append pre t')
    · push Not at hex
      rw [row_eq_nil hex] at hhead
      cases hhead
  · rintro ⟨pre, rfl⟩
    rw [h.row_append ht, List.head?_cons]

theorem Tokens.row_eq_nil_iff (l : List α) : row toks l = [] ↔ ∀ t ∈ toks, ¬ t <:+ l := by
  refine ⟨fun hnil t ht hsuf => ?_, row_eq_nil⟩
  have hhead := (h.head?_row ht l).mpr hsuf
  rw [hnil] at hhead
  cases hhead

/-- A text without the tokens' last character ends a row. -/
theorem Tokens.row_closed {r : List α} (hr : mark ∉ r) (hne : r ≠ []) (pre : List α) :
    row toks (pre ++ r) = [] := by
  refine row_eq_nil fun t ht hsuf => hr ?_
  obtain ⟨r, c, rfl⟩ := List.eq_nil_or_concat r |>.resolve_left hne
  have hmark : [mark] <:+ pre ++ r.concat c := (h.mark_suffix t ht).trans hsuf
  have hlast : [c] <:+ pre ++ r.concat c := ⟨pre ++ r, by simp⟩
  have heq := List.suffix_of_suffix_length_le hmark hlast (Nat.le_refl _)
  rw [List.concat_eq_append]
  refine List.mem_append_right r ?_
  exact heq.subset (List.mem_singleton_self mark)

/-! ### Lines -/

theorem Tokens.rows_unmarked {ls : List (List α)} (hls : ∀ l ∈ ls, mark ∉ l) : rows toks ls = [] := by
  rw [rows, List.flatMap_eq_nil_iff]
  intro l hl
  rcases eq_or_ne l [] with rfl | hne
  · rfl
  · have hnil := h.row_closed (hls l hl) hne []
    rw [List.nil_append] at hnil
    rw [hnil]
    rfl

theorem Tokens.rows_substituteLines {t : List α} (ht : t ∈ toks)
    {f : ℕ → Option (List α × List (List α))} (hf : ∀ k r, f k = some r → ∀ l ∈ r.1 :: r.2, mark ∉ l) :
    ∀ (ls : List (List α)) (k : ℕ),
      rows toks (substituteLines t f k ls) = turn t (fun k => lineFate (f k)) k (rows toks ls)
  | [], _ => rfl
  | l :: ls, k => by
    have ih := Tokens.rows_substituteLines ht hf ls
    rw [substituteLines, rows_cons, turn_solid]
    by_cases hl : t <:+ l
    · rw [if_pos hl, if_pos ((h.head?_row ht l).mpr hl), rows_append, ih]
      refine congrArg (· ++ _) ?_
      obtain ⟨pre, rfl⟩ := hl
      cases hk : f k with
      | none => simp [lineFate, Fate.rest, rows]
      | some r =>
        have hmark := hf k r hk
        rw [List.forall_mem_cons] at hmark
        dsimp only
        rw [rows_cons, h.rows_unmarked hmark.2, List.append_nil, List.length_append,
          Nat.add_sub_cancel, List.take_left, lineFate]
        by_cases hr : r.1 = []
        · rw [if_pos hr, hr, List.append_nil, h.row_append ht]
          rfl
        · rw [if_neg hr, h.row_closed hmark.1 hr]
          rfl
    · rw [if_neg hl, if_neg (mt (h.head?_row ht l).mp hl), rows_cons, ih]

theorem Tokens.ending_rows {t : List α} (ht : t ∈ toks) : ∀ ls : List (List α),
    ending t (rows toks ls) = ls.countP fun l => t <:+ l
  | [] => rfl
  | l :: ls => by
    have ih := Tokens.ending_rows ht ls
    rw [rows_cons, ending_solid, ih, List.countP_cons, Nat.add_comm]
    simp only [h.head?_row ht, decide_eq_true_eq]

/-! ### Texts -/

omit h in
theorem lines_unlines {ls : List (List α)} {last : List α} (hls : ∀ l ∈ ls, sep ∉ l) (hlast : sep ∉ last) :
    lines sep (unlines sep ls ++ last) = ls := by
  rw [lines, splitOn_lines hlast hls, List.dropLast_concat]

/-- Substituting for a literal is the turn of its token. -/
theorem Tokens.rows_substitute {t : List α} (ht : t ∈ toks) {value : ℕ → Option (List α)}
    (hv : ∀ k r, value k = some r → mark ∉ r ∧ [sep] <:+ r) (text : List α) :
    rows toks (lines sep (substitute (t ++ [sep]) value text)) =
      turn t (fun k => fate sep (value k)) 0 (rows toks (lines sep text)) := by
  obtain ⟨ls, last, rfl, hls, hlast⟩ := exists_lines sep text
  -- the values by lines
  have hcut : ∀ k, ∃ f : Option (List α × List (List α)), value k = f.map (fun r => unlines sep (r.1 :: r.2)) ∧
      lineFate f = fate sep (value k) ∧ ∀ r, f = some r → ∀ l ∈ r.1 :: r.2, mark ∉ l ∧ sep ∉ l := by
    intro k
    cases hk : value k with
    | none => exact ⟨none, rfl, rfl, fun _ h => by cases h⟩
    | some r =>
      obtain ⟨hmark, r', rfl⟩ := hv k r hk
      obtain ⟨l, ls', hsplit⟩ := List.exists_cons_of_ne_nil (List.splitOn_ne_nil sep r')
      have hr := unlines_splitOn sep r'
      have hsep : ∀ x ∈ r'.splitOn sep, sep ∉ x := fun x hx => notMem_of_mem_splitOn hx
      rw [hsplit] at hr hsep
      refine ⟨some (l, ls'), by rw [← hr]; rfl, ?_, fun x hx y hy => ?_⟩
      · rw [← hr, lineFate, fate]
        cases l with
        | nil => simp [unlines]
        | cons c l =>
          have hc : c ≠ sep := fun hc => hsep _ List.mem_cons_self (hc ▸ List.mem_cons_self)
          simp [unlines, hc]
      · obtain rfl := Option.some.inj hx
        refine ⟨fun hm => hmark ?_, hsep y hy⟩
        rw [← hr]
        exact List.mem_flatMap.mpr ⟨y, hy, List.mem_append_left _ hm⟩
  choose f hval hfate hf using hcut
  have hsub := substituteFrom_unlines (h.sep_notMem t ht) hlast f ls 0 hls
  have hafter : ∀ l ∈ substituteLines t f 0 ls, sep ∉ l := forall_mem_substituteLines (fun k r pre hk hpre => by
    have hr := hf k r hk
    rw [List.forall_mem_cons] at hr
    rw [List.mem_append, not_or] at hpre ⊢
    exact ⟨⟨hpre.1, hr.1.2⟩, fun l hl => (hr.2 l hl).2⟩) ls 0 hls
  rw [substitute, funext hval, hsub, lines_unlines hafter hlast, lines_unlines hls hlast,
    h.rows_substituteLines ht (fun k r hk l hl => (hf k r hk l hl).1) ls 0]
  exact congrArg (fun F => turn t F 0 _) (funext fun k => (hfate k).trans (congrArg (fate sep) (hval k)))

/-- The occurrences of a literal are the rows that end with its token. -/
theorem Tokens.length_occurrences {t : List α} (ht : t ∈ toks) (text : List α) :
    (occurrences (t ++ [sep]) text).length = ending t (rows toks (lines sep text)) := by
  obtain ⟨ls, last, rfl, hls, hlast⟩ := exists_lines sep text
  rw [length_occurrences_lines (h.sep_notMem t ht) hlast ls hls, lines_unlines hls hlast, h.ending_rows ht]

/-- Substituting for one literal after the other is the turns of their tokens. -/
theorem Tokens.rows_substituteOn {value : List α → (before k : ℕ) → Option (List α)} : ∀ {ts : List (List α)}
    (before : ℕ) (text : List α), (∀ t ∈ ts, t ∈ toks) →
    (∀ t ∈ ts, ∀ b k r, value t b k = some r → mark ∉ r ∧ [sep] <:+ r) →
    rows toks (lines sep (substituteOn sep value before ts text)) =
      turns (fun t b k => fate sep (value t b k)) before ts (rows toks (lines sep text))
  | [], _, _, _, _ => rfl
  | t :: ts, before, text, hts, hv => by
    rw [List.forall_mem_cons] at hts hv
    rw [substituteOn, Tokens.rows_substituteOn _ _ hts.2 hv.2, h.rows_substitute hts.1 (hv.1 before),
      h.length_occurrences hts.1]
    rfl

omit h [DecidableEq α] in
/-- A literal is in a text iff its token ends a line. -/
theorem infix_lines_iff {t last : List α} (ht : sep ∉ t) (hlast : sep ∉ last) : ∀ {ls : List (List α)},
    (∀ l ∈ ls, sep ∉ l) → (t ++ [sep] <:+: unlines sep ls ++ last ↔ ∃ l ∈ ls, t <:+ l)
  | [], _ => by
    have hno := not_infix_concat t hlast
    simpa [unlines] using hno
  | l :: ls, h => by
    rw [List.forall_mem_cons] at h
    have ih := infix_lines_iff ht hlast h.2
    have hcons : unlines sep (l :: ls) ++ last = l ++ sep :: (unlines sep ls ++ last) := by
      simp [unlines]
    rw [hcons, infix_around_iff ht h.1, ih, List.exists_mem_cons_iff]
    exact or_congr_left (and_iff_left List.nil_prefix)

/-- No literal is in a text iff it has no rows. -/
theorem Tokens.rows_eq_nil_iff (text : List α) :
    rows toks (lines sep text) = [] ↔ ∀ t ∈ toks, ¬ t ++ [sep] <:+: text := by
  obtain ⟨ls, last, rfl, hls, hlast⟩ := exists_lines sep text
  have hsolid : ∀ r : List (List α), solid r = [] ↔ r = [] := fun r => by
    rw [solid]
    split
    · simp [*]
    · simp [*]
  rw [lines_unlines hls hlast, rows, List.flatMap_eq_nil_iff]
  simp only [hsolid, h.row_eq_nil_iff]
  constructor
  · intro hno t ht hin
    obtain ⟨l, hl, hsuf⟩ := (infix_lines_iff (h.sep_notMem t ht) hlast hls).mp hin
    exact hno l hl t ht hsuf
  · exact fun hno l hl t ht hsuf =>
      hno t ht ((infix_lines_iff (h.sep_notMem t ht) hlast hls).mpr ⟨l, hl, hsuf⟩)

end

end Rows
end DaatMcs
