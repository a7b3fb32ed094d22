/-
# Literals in texts made of lines

In a text made of lines a literal that ends with the line separator occurs at
the ends of lines only. So its occurrences are counted by lines
(`length_occurrences_unlines`), and substituting for them goes line by line
(`substitute_unlines`).
-/
import DaatMcs.Lib.Literal

namespace DaatMcs
namespace Literal

variable {α : Type*} [DecidableEq α]

omit [DecidableEq α] in
/-- The first separators of two texts are at the same place. -/
theorem prefix_append_singleton {sep : α} (rest : List α) : ∀ {tok l : List α}, sep ∉ tok → sep ∉ l →
    (tok ++ [sep] <+: l ++ sep :: rest ↔ tok = l)
  | [], [], _, _ => by simp
  | [], c :: l, _, hl => by
    have hc : sep ≠ c := fun h => hl (h ▸ List.mem_cons_self)
    simp [List.cons_prefix_cons, hc]
  | a :: tok, [], ht, _ => by
    have ha : a ≠ sep := fun h => ht (h ▸ List.mem_cons_self)
    simp [List.cons_prefix_cons, ha]
  | a :: tok, c :: l, ht, hl => by
    have ih := prefix_append_singleton rest
      (fun h => ht (List.mem_cons_of_mem a h)) (fun h => hl (List.mem_cons_of_mem c h))
    rw [List.cons_append, List.cons_append, List.cons_prefix_cons, ih, List.cons.injEq]

/-- The text of some lines, each ended by the separator. -/
def unlines (sep : α) (ls : List (List α)) : List α := ls.flatMap fun l => l ++ [sep]

/-- The substitution in lines that end with `tok`: the replacement is the rest
of the line and further lines. -/
def substituteLines (tok : List α) (f : ℕ → Option (List α × List (List α))) :
    ℕ → List (List α) → List (List α)
  | _, [] => []
  | k, l :: ls =>
    if tok <:+ l then
      (match f k with
        | some r => (l.take (l.length - tok.length) ++ r.1) :: r.2
        | none => [l]) ++ substituteLines tok f (k + 1) ls
    else l :: substituteLines tok f k ls

theorem substituteFrom_skip (pat : List α) (f : ℕ → Option (List α)) (k : ℕ) (rest : List α) :
    ∀ xs : List α, substituteFrom pat f xs.length k (xs ++ rest) = substituteFrom pat f 0 k rest
  | [] => rfl
  | _ :: xs => substituteFrom_skip pat f k rest xs

/-- One line: the literal occurs at its end or not at all. -/
theorem substituteFrom_line {sep : α} {tok : List α} (ht : sep ∉ tok) (f : ℕ → Option (List α))
    (k : ℕ) (rest : List α) : ∀ l : List α, sep ∉ l →
      substituteFrom (tok ++ [sep]) f 0 k (l ++ sep :: rest) =
        if tok <:+ l then
          l.take (l.length - tok.length) ++ (f k).getD (tok ++ [sep]) ++
            substituteFrom (tok ++ [sep]) f 0 (k + 1) rest
        else l ++ sep :: substituteFrom (tok ++ [sep]) f 0 k rest
  | [], hl => by
    have hp := prefix_append_singleton rest ht hl
    rw [List.nil_append, ← List.isPrefixOf_iff_prefix] at hp
    rw [List.nil_append, substituteFrom]
    by_cases htok : tok = []
    · subst htok
      rw [if_pos (hp.mpr rfl), if_pos (List.nil_suffix)]
      rfl
    · rw [if_neg (mt hp.mp htok), if_neg (mt List.suffix_nil.mp htok), List.nil_append]
  | c :: l, hl => by
    have hp := prefix_append_singleton rest ht hl
    rw [List.cons_append, ← List.isPrefixOf_iff_prefix] at hp
    rw [List.cons_append, substituteFrom]
    by_cases htok : tok = c :: l
    · subst htok
      have hskip := substituteFrom_skip (c :: l ++ [sep]) f (k + 1) rest (l ++ [sep])
      rw [if_pos (hp.mpr rfl), if_pos (List.suffix_refl _), Nat.sub_self, List.take_zero,
        List.nil_append]
      rw [List.append_assoc, List.singleton_append, List.length_append] at hskip
      rw [List.cons_append, List.length_cons, Nat.add_sub_cancel, List.length_append, ← List.cons_append,
        hskip]
    · have ih := substituteFrom_line ht f k rest l fun h => hl (List.mem_cons_of_mem c h)
      have hsuf : tok <:+ c :: l ↔ tok <:+ l := by
        rw [List.suffix_cons_iff, or_iff_right htok]
      rw [if_neg (mt hp.mp htok), ih]
      by_cases h : tok <:+ l
      · have hlen : (c :: l).length - tok.length = l.length - tok.length + 1 := by
          have := h.length_le
          rw [List.length_cons]
          omega
        rw [if_pos h, if_pos (hsuf.mpr h), hlen, List.take_succ_cons]
        rfl
      · rw [if_neg h, if_neg (mt hsuf.mp h), List.cons_append]

theorem length_spans_pos (pat : List α) : ∀ (text : List α) (skip pos : ℕ),
    (spans pat skip pos text).length = (spans pat skip 0 text).length
  | [], _, _ => rfl
  | _ :: cs, skip + 1, pos => by
    rw [spans, spans, length_spans_pos pat cs skip (pos + 1), length_spans_pos pat cs skip (0 + 1)]
  | c :: cs, 0, pos => by
    rw [spans, spans]
    split
    · rw [List.length_cons, List.length_cons, length_spans_pos pat cs _ (pos + 1),
        length_spans_pos pat cs _ (0 + 1)]
    · rw [length_spans_pos pat cs 0 (pos + 1), length_spans_pos pat cs 0 (0 + 1)]

theorem length_spans_skip (pat : List α) (rest : List α) : ∀ (xs : List α) (pos : ℕ),
    (spans pat xs.length pos (xs ++ rest)).length = (occurrences pat rest).length
  | [], pos => length_spans_pos pat rest 0 pos
  | _ :: xs, pos => length_spans_skip pat rest xs (pos + 1)

theorem length_occurrences_line {sep : α} {tok : List α} (ht : sep ∉ tok) (rest : List α) :
    ∀ l : List α, sep ∉ l → (occurrences (tok ++ [sep]) (l ++ sep :: rest)).length =
      (if tok <:+ l then 1 else 0) + (occurrences (tok ++ [sep]) rest).length
  | [], hl => by
    have hp := prefix_append_singleton rest ht hl
    rw [List.nil_append, ← List.isPrefixOf_iff_prefix] at hp
    rw [List.nil_append, occurrences, spans]
    by_cases htok : tok = []
    · subst htok
      have hskip := length_spans_skip ([] ++ [sep]) rest [] (0 + 1)
      rw [if_pos (hp.mpr rfl), if_pos List.nil_suffix, List.length_cons, Nat.add_comm]
      exact congrArg (1 + ·) hskip
    · rw [if_neg (mt hp.mp htok), if_neg (mt List.suffix_nil.mp htok), length_spans_pos,
        occurrences, Nat.zero_add]
  | c :: l, hl => by
    have hp := prefix_append_singleton rest ht hl
    rw [List.cons_append, ← List.isPrefixOf_iff_prefix] at hp
    rw [List.cons_append, occurrences, spans]
    by_cases htok : tok = c :: l
    · subst htok
      have hskip := length_spans_skip (c :: l ++ [sep]) rest (l ++ [sep]) (0 + 1)
      rw [List.append_assoc, List.singleton_append] at hskip
      rw [if_pos (hp.mpr rfl), if_pos (List.suffix_refl _), List.length_cons, ← hskip, Nat.add_comm]
      rfl
    · have ih := length_occurrences_line ht rest l fun h => hl (List.mem_cons_of_mem c h)
      have hsuf : tok <:+ c :: l ↔ tok <:+ l := by
        rw [List.suffix_cons_iff, or_iff_right htok]
      rw [if_neg (mt hp.mp htok), length_spans_pos, ← occurrences, ih]
      simp only [hsuf]

omit [DecidableEq α] in
theorem not_infix_concat {sep : α} (tok : List α) {l : List α} (hl : sep ∉ l) : ¬ tok ++ [sep] <:+: l :=
  fun h => hl (h.subset (List.mem_append_right tok (List.mem_singleton_self sep)))

theorem spans_of_notInfix {pat : List α} : ∀ (text : List α) (pos : ℕ), ¬ pat <:+: text →
    spans pat 0 pos text = []
  | [], _, _ => rfl
  | c :: cs, pos, h => by
    have hp : pat.isPrefixOf (c :: cs) ≠ true := fun hp =>
      h (List.isPrefixOf_iff_prefix.mp hp).isInfix
    rw [spans, if_neg hp, spans_of_notInfix cs (pos + 1) fun hin => h (List.infix_cons hin)]

theorem substituteFrom_unlines {sep : α} {tok last : List α} (ht : sep ∉ tok) (hlast : sep ∉ last)
    (f : ℕ → Option (List α × List (List α))) : ∀ (ls : List (List α)) (k : ℕ),
      (∀ l ∈ ls, sep ∉ l) →
        substituteFrom (tok ++ [sep]) (fun i => (f i).map fun r => unlines sep (r.1 :: r.2)) 0 k
          (unlines sep ls ++ last) = unlines sep (substituteLines tok f k ls) ++ last
  | [], k, _ => substituteFrom_of_notInfix last k (not_infix_concat tok hlast)
  | l :: ls, k, h => by
    have ih := substituteFrom_unlines ht hlast f ls
    have hl := h l List.mem_cons_self
    have hls : ∀ l ∈ ls, sep ∉ l := fun l hl => h l (List.mem_cons_of_mem _ hl)
    have hcons : unlines sep (l :: ls) ++ last = l ++ sep :: (unlines sep ls ++ last) := by
      simp [unlines]
    rw [hcons, substituteFrom_line ht _ _ _ l hl, ih _ hls, ih _ hls, substituteLines]
    by_cases htok : tok <:+ l
    · obtain ⟨pre, rfl⟩ := htok
      rw [if_pos (List.suffix_append _ _), if_pos (List.suffix_append _ _)]
      cases hf : f k with
      | none => simp [unlines]
      | some r => simp [unlines]
    · rw [if_neg htok, if_neg htok]
      simp [unlines]

/-- In a text made of lines the substitution goes line by line. -/
theorem substitute_unlines {sep : α} {tok : List α} (ht : sep ∉ tok)
    (f : ℕ → Option (List α × List (List α))) {ls : List (List α)} (h : ∀ l ∈ ls, sep ∉ l) :
    substitute (tok ++ [sep]) (fun i => (f i).map fun r => unlines sep (r.1 :: r.2))
      (unlines sep ls) = unlines sep (substituteLines tok f 0 ls) := by
  have hlines := substituteFrom_unlines ht (show sep ∉ ([] : List α) from List.not_mem_nil) f ls 0 h
  rwa [List.append_nil, List.append_nil] at hlines

/-- The occurrences are the lines that end with `tok`. -/
theorem length_occurrences_lines {sep : α} {tok last : List α} (ht : sep ∉ tok) (hlast : sep ∉ last) :
    ∀ ls : List (List α), (∀ l ∈ ls, sep ∉ l) →
      (occurrences (tok ++ [sep]) (unlines sep ls ++ last)).length = ls.countP fun l => tok <:+ l
  | [], _ => by
    show (occurrences (tok ++ [sep]) last).length = 0
    rw [occurrences, spans_of_notInfix last 0 (not_infix_concat tok hlast), List.length_nil]
  | l :: ls, h => by
    have ih := length_occurrences_lines ht hlast ls fun l hl => h l (List.mem_cons_of_mem _ hl)
    have hcons : unlines sep (l :: ls) ++ last = l ++ sep :: (unlines sep ls ++ last) := by
      simp [unlines]
    rw [hcons, length_occurrences_line ht _ l (h l List.mem_cons_self), ih, List.countP_cons,
      Nat.add_comm]
    simp only [decide_eq_true_eq]

theorem length_occurrences_unlines {sep : α} {tok : List α} (ht : sep ∉ tok) (ls : List (List α))
    (h : ∀ l ∈ ls, sep ∉ l) :
    (occurrences (tok ++ [sep]) (unlines sep ls)).length = ls.countP fun l => tok <:+ l := by
  have hlines := length_occurrences_lines ht (show sep ∉ ([] : List α) from List.not_mem_nil) ls h
  rwa [List.append_nil] at hlines

/-- What the lines and the replacements have, the lines after the
substitution have. -/
theorem forall_mem_substituteLines {tok : List α} {f : ℕ → Option (List α × List (List α))}
    {P : List α → Prop} (hf : ∀ k r pre, f k = some r → P (pre ++ tok) → P (pre ++ r.1) ∧
      ∀ l ∈ r.2, P l) : ∀ (ls : List (List α)) (k : ℕ), (∀ l ∈ ls, P l) →
        ∀ l ∈ substituteLines tok f k ls, P l
  | [], _, _ => by simp [substituteLines]
  | l :: ls, k, h => by
    have ih := fun k => forall_mem_substituteLines hf ls k fun l hl => h l (List.mem_cons_of_mem _ hl)
    have hl := h l List.mem_cons_self
    rw [substituteLines]
    split
    · rename_i htok
      obtain ⟨pre, rfl⟩ := htok
      intro x hx
      rcases List.mem_append.mp hx with hx | hx
      · cases hk : f k with
        | none =>
          rw [hk, List.mem_singleton] at hx
          rwa [hx]
        | some r =>
          obtain ⟨h1, h2⟩ := hf k r pre hk hl
          rw [hk] at hx
          rcases List.mem_cons.mp hx with rfl | hx
          · simpa using h1
          · exact h2 x hx
      · exact ih (k + 1) x hx
    · intro x hx
      rcases List.mem_cons.mp hx with rfl | hx
      · exact hl
      · exact ih k x hx

/-- The other lines stay. -/
theorem mem_substituteLines {tok : List α} (f : ℕ → Option (List α × List (List α)))
    {l : List α} (htok : ¬ tok <:+ l) : ∀ {ls : List (List α)} (k : ℕ), l ∈ ls →
      l ∈ substituteLines tok f k ls
  | x :: ls, k, h => by
    rw [substituteLines]
    rcases List.mem_cons.mp h with rfl | h
    · rw [if_neg htok]
      exact List.mem_cons_self
    · split
      · exact List.mem_append_right _ (mem_substituteLines f htok (k + 1) h)
      · exact List.mem_cons_of_mem _ (mem_substituteLines f htok k h)

/-! ### Lines of a text -/

omit [DecidableEq α] in
theorem unlines_append (sep : α) (ls ls' : List (List α)) :
    unlines sep (ls ++ ls') = unlines sep ls ++ unlines sep ls' := List.flatMap_append

omit [DecidableEq α] in
theorem unlines_eq_intercalate (sep : α) : ∀ {ls : List (List α)}, ls ≠ [] →
    unlines sep ls = [sep].intercalate ls ++ [sep]
  | [l], _ => by simp [unlines]
  | l :: l' :: ls, _ => by
    have ih := unlines_eq_intercalate sep (List.cons_ne_nil l' ls)
    rw [List.intercalate_cons_cons, List.append_assoc, ← ih]
    simp [unlines]

theorem unlines_splitOn (sep : α) (text : List α) :
    unlines sep (text.splitOn sep) = text ++ [sep] := by
  rw [unlines_eq_intercalate sep (List.splitOn_ne_nil sep text), List.intercalate_splitOn]

theorem splitOn_line {sep : α} {l : List α} (hl : sep ∉ l) (rest : List α) :
    (l ++ sep :: rest).splitOn sep = l :: rest.splitOn sep := by
  have hne : ∀ x ∈ l, (x == sep) = false := fun x hx => beq_eq_false_iff_ne.mpr fun hxs => hl (hxs ▸ hx)
  rw [List.splitOn_eq_splitOnP, List.splitOnP_append_cons_of_forall_mem hne sep (beq_self_eq_true sep),
    ← List.splitOn_eq_splitOnP]

/-- Lines are read back where the separator does not occur in them; after the
last separator comes an empty line. -/
theorem splitOn_unlines {sep : α} : ∀ {ls : List (List α)}, (∀ l ∈ ls, sep ∉ l) →
    (unlines sep ls).splitOn sep = ls ++ [[]]
  | [], _ => by simp [unlines]
  | l :: ls, h => by
    have ih := splitOn_unlines fun x hx => h x (List.mem_cons_of_mem l hx)
    rw [unlines, List.flatMap_cons, List.append_assoc, List.singleton_append, ← unlines,
      splitOn_line (h l List.mem_cons_self), ih, List.cons_append]

/-- The same where the last line is not ended. -/
theorem splitOn_lines {sep : α} {last : List α} (hlast : sep ∉ last) : ∀ {ls : List (List α)},
    (∀ l ∈ ls, sep ∉ l) → (unlines sep ls ++ last).splitOn sep = ls ++ [last]
  | [], _ => by
    have hne : ∀ x ∈ last, (x == sep) = false := fun x hx => beq_eq_false_iff_ne.mpr fun hxs => hlast (hxs ▸ hx)
    rw [List.splitOn_eq_splitOnP]
    exact List.splitOnP_eq_singleton hne
  | l :: ls, h => by
    have ih := splitOn_lines hlast fun x hx => h x (List.mem_cons_of_mem l hx)
    rw [unlines, List.flatMap_cons, List.append_assoc, List.append_assoc, List.singleton_append, ← unlines,
      splitOn_line (h l List.mem_cons_self), ih, List.cons_append]

theorem notMem_of_mem_splitOn {sep : α} : ∀ {text l : List α}, l ∈ text.splitOn sep → sep ∉ l
  | [], l, h => by
    rw [List.splitOn_nil, List.mem_singleton] at h
    simp [h]
  | c :: cs, l, h => by
    rw [List.splitOn_cons_eq_if_modifyHead] at h
    have ih : ∀ l ∈ cs.splitOn sep, sep ∉ l := fun l hl => notMem_of_mem_splitOn hl
    split at h
    · rcases List.mem_cons.mp h with rfl | h
      · simp
      · exact ih l h
    · rename_i hc
      cases hsplit : cs.splitOn sep with
      | nil => exact absurd hsplit (List.splitOn_ne_nil sep cs)
      | cons x xs =>
        rw [hsplit] at h ih
        rcases List.mem_cons.mp h with rfl | h
        · have hx := ih x List.mem_cons_self
          simp only [beq_iff_eq] at hc
          exact fun hmem => (List.mem_cons.mp hmem).elim (fun h => hc h.symm) hx
        · exact ih l (List.mem_cons_of_mem _ h)

/-- A text is made of ended lines and a last one. -/
theorem exists_lines (sep : α) (text : List α) : ∃ ls last, text = unlines sep ls ++ last ∧
    (∀ l ∈ ls, sep ∉ l) ∧ sep ∉ last := by
  obtain ⟨ls, last, hsplit⟩ := List.eq_nil_or_concat (text.splitOn sep) |>.resolve_left
    (List.splitOn_ne_nil sep text)
  have hno : ∀ l ∈ text.splitOn sep, sep ∉ l := fun l hl => notMem_of_mem_splitOn hl
  have htext := unlines_splitOn sep text
  rw [hsplit, List.concat_eq_append] at hno htext
  rw [unlines_append, unlines, unlines, List.flatMap_singleton, ← List.append_assoc,
    List.append_left_inj] at htext
  exact ⟨ls, last, htext.symm, fun l hl => hno l (List.mem_append_left _ hl), hno last (by simp)⟩

/-- What is put before a text without a separator is put before its first line. -/
theorem splitOn_append {sep : α} (text : List α) : ∀ {pre : List α}, sep ∉ pre →
    ∃ line lines, text.splitOn sep = line :: lines ∧ line <+: text ∧
      (pre ++ text).splitOn sep = (pre ++ line) :: lines
  | [], _ => by
    obtain ⟨line, lines, hsplit⟩ := List.exists_cons_of_ne_nil (List.splitOn_ne_nil sep text)
    refine ⟨line, lines, hsplit, ?_, hsplit⟩
    have hcat : [sep].intercalate (text.splitOn sep) = text := List.intercalate_splitOn sep
    rw [hsplit] at hcat
    cases lines with
    | nil => exact ⟨[], by simpa using hcat⟩
    | cons l lines => exact ⟨_, by rw [← hcat, List.intercalate_cons_cons, List.append_assoc]⟩
  | c :: pre, h => by
    rw [List.mem_cons, not_or] at h
    obtain ⟨line, lines, hsplit, hline, hpre⟩ := splitOn_append text h.2
    refine ⟨line, lines, hsplit, hline, ?_⟩
    rw [List.cons_append, List.splitOn_cons_eq_if_modifyHead, if_neg (by simpa using Ne.symm h.1), hpre]
    rfl

/-! ### Where a literal can be -/

omit [DecidableEq α] in
/-- A literal without separator lies within one line. -/
theorem infix_line {sep : α} {tok l rest : List α} (ht : sep ∉ tok)
    (h : tok <:+: l ++ sep :: rest) : tok <:+: l ∨ tok <:+: rest := by
  rcases List.infix_append_iff.mp h with h | h | ⟨t, u, rfl, ht', hu⟩
  · exact .inl h
  · rcases List.infix_cons_iff.mp h with h | h
    · cases tok with
      | nil => exact .inl List.nil_infix
      | cons a tok =>
        obtain ⟨rfl, -⟩ := List.cons_prefix_cons.mp h
        exact absurd List.mem_cons_self ht
    · exact .inr h
  · cases u with
    | nil => exact .inl (by simpa using ht'.isInfix)
    | cons a u =>
      obtain ⟨rfl, -⟩ := List.cons_prefix_cons.mp hu
      exact absurd (List.mem_append_right t List.mem_cons_self) ht

omit [DecidableEq α] in
theorem infix_unlines {sep : α} {tok : List α} (ht : sep ∉ tok) (hne : tok ≠ []) :
    ∀ {ls : List (List α)}, tok <:+: unlines sep ls → ∃ l ∈ ls, tok <:+: l
  | [], h => absurd (List.infix_nil.mp h) hne
  | l :: ls, h => by
    have hcons : unlines sep (l :: ls) = l ++ sep :: unlines sep ls := by simp [unlines]
    rw [hcons] at h
    rcases infix_line ht h with h | h
    · exact ⟨l, List.mem_cons_self, h⟩
    · obtain ⟨x, hx, hin⟩ := infix_unlines ht hne h
      exact ⟨x, List.mem_cons_of_mem l hx, hin⟩

omit [DecidableEq α] in
/-- A literal is not made by appending text without its last character. -/
theorem infix_of_append {c : α} (tok : List α) {pre r : List α} (hr : c ∉ r)
    (h : tok ++ [c] <:+: pre ++ r) : tok ++ [c] <:+: pre := by
  rcases List.infix_append_iff.mp h with h | h | ⟨t, u, heq, ht, hu⟩
  · exact h
  · exact absurd (h.subset (List.mem_append_right tok (List.mem_singleton_self c))) hr
  · rcases List.eq_nil_or_concat u with rfl | ⟨u, x, rfl⟩
    · rw [List.append_nil] at heq
      rw [heq]
      exact ht.isInfix
    · rw [List.concat_eq_append, ← List.append_assoc] at heq
      have hx : x = c := (List.singleton_inj.mp (List.append_inj' heq rfl).2).symm
      rw [List.concat_eq_append, hx] at hu
      exact absurd (hu.subset (List.mem_append_right u (List.mem_singleton_self c))) hr

omit [DecidableEq α] in
/-- Nor by putting text without its first character before. -/
theorem infix_of_prepend {c : α} (tok : List α) {r : List α} : ∀ {pre : List α}, c ∉ pre →
    c :: tok <:+: pre ++ r → c :: tok <:+: r
  | [], _, h => h
  | d :: pre, hpre, h => by
    rw [List.mem_cons, not_or] at hpre
    rcases List.infix_cons_iff.mp h with h | h
    · exact absurd (List.cons_prefix_cons.mp h).1 hpre.1
    · exact infix_of_prepend tok hpre.2 h

omit [DecidableEq α] in
/-- A literal lies on one side of a character it does not have. -/
theorem infix_split_iff {b : α} {tok s t : List α} (hb : b ∉ tok) :
    tok <:+: s ++ b :: t ↔ tok <:+: s ∨ tok <:+: t := by
  constructor
  · intro h
    rcases List.infix_append_iff.mp h with h | h | ⟨x, y, rfl, hx, hy⟩
    · exact .inl h
    · rcases List.infix_cons_iff.mp h with h | h
      · cases tok with
        | nil => exact .inl List.nil_infix
        | cons c tok => exact absurd ((List.cons_prefix_cons.mp h).1 ▸ List.mem_cons_self) hb
      · exact .inr h
    · cases y with
      | nil => exact .inl (by rw [List.append_nil]; exact hx.isInfix)
      | cons c y =>
        obtain rfl := (List.cons_prefix_cons.mp hy).1
        exact absurd (List.mem_append_right x List.mem_cons_self) hb
  · rintro (h | h)
    · exact h.trans (List.prefix_append s _).isInfix
    · exact h.trans (List.suffix_append_of_suffix (List.suffix_cons b t)).isInfix

omit [DecidableEq α] in
/-- The first place of a character cuts a text in one way. -/
theorem append_cons_inj {b : α} {s s' t t' : List α} (hs : b ∉ s) (hs' : b ∉ s')
    (h : s ++ b :: t = s' ++ b :: t') : s = s' ∧ t = t' := by
  rcases List.append_eq_append_iff.mp h with ⟨x, rfl, heq⟩ | ⟨x, rfl, heq⟩
  · cases x with
    | nil => exact ⟨(List.append_nil s).symm, (List.cons.inj heq).2⟩
    | cons c x => exact absurd (by simp [(List.cons.inj heq).1]) hs'
  · cases x with
    | nil => exact ⟨List.append_nil s', (List.cons.inj heq).2.symm⟩
    | cons c x => exact absurd (by simp [(List.cons.inj heq).1]) hs

omit [DecidableEq α] in
/-- A literal lies around the first place of a character it has, or after it. -/
theorem infix_around_iff {b : α} {p q s t : List α} (hp : b ∉ p) (hs : b ∉ s) :
    p ++ b :: q <:+: s ++ b :: t ↔ (p <:+ s ∧ q <+: t) ∨ p ++ b :: q <:+: t := by
  constructor
  · rintro ⟨x, y, heq⟩
    simp only [List.append_assoc, List.cons_append] at heq
    by_cases hx : b ∈ x
    · obtain ⟨x, x', rfl, hb⟩ := List.eq_append_cons_of_mem hx
      simp only [List.append_assoc, List.cons_append] at heq
      obtain ⟨-, rfl⟩ := append_cons_inj hb hs heq
      exact .inr ⟨x', y, by simp⟩
    · have hxp : b ∉ x ++ p := by simp [hx, hp]
      rw [← List.append_assoc] at heq
      obtain ⟨rfl, rfl⟩ := append_cons_inj hxp hs heq
      exact .inl ⟨List.suffix_append x p, List.prefix_append q y⟩
  · rintro (⟨⟨x, rfl⟩, ⟨y, rfl⟩⟩ | h)
    · exact ⟨x, y, by simp⟩
    · exact h.trans (List.suffix_append_of_suffix (List.suffix_cons b t)).isInfix

end Literal
end DaatMcs
