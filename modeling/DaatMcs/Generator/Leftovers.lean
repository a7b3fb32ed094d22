/-
# Placeholders left in a configuration

Both steps of the mitigation replace the placeholders of a text, each pattern
in its turn. A pattern matches at the end of a line only, so what the steps
leave is told by the placeholders that stand in a row at the ends of the base
text's lines. A colour variant that is too short leaves the last one of its
row (the bandwidth step puts an empty line there), and an empty line leaves
the one before it, which is replaced if its pattern has its turn later.

Nothing is left iff the turns of the patterns leave no row (`leftovers_iff`).
The turns also tell the own names of the bandwidth variants, so that colour
variants with the same numbers of ones always get one name (`tagsApart_iff`).

Key definitions: `Cleared`, `NoPlaceholderLeft`.
-/
import DaatMcs.Generator.Splicing
import DaatMcs.Generator.TripleNames
import DaatMcs.Lib.Rows

namespace DaatMcs
namespace TestEngine

open Literal Rows

/-! ### The steps as substitutions -/

/-- The patterns without the ends of their lines. -/
def tokens (patterns : List Text) : List Text := patterns.map List.dropLast

/-- The lines of a VM instance of the list form. -/
def legacyStr (vms : List (List Text)) (idx : ℕ) : Text :=
  match vms[idx]? with
  | none => "\n".toList
  | some mbrLines => join "\n".toList mbrLines ++ "\n".toList

/-- What is put in for the occurrences of a colour pattern; without colour
variants an empty line. -/
def colorValue (colors : Option (List Text)) (_tok : Text) (before k : ℕ) : Option Text :=
  match colors with
  | none => some "\n".toList
  | some v => v[before + k]?.map colorConfigStr

/-- What is put in for the occurrences of a bandwidth pattern. -/
def mbrValue (mbr : Option MbrVariant) (tok : Text) (before k : ℕ) : Option Text :=
  match mbr with
  | none => some "\n".toList
  | some (.keyed guests) => some (mbrConfigStr (mbrEntries guests (patternGuestHint (tok ++ ['\n']))) k)
  | some (.legacy vms) => some (legacyStr vms (before + k))

/-- The text with a colour variant, or without colours. -/
def coloredText (patterns : List Text) (content : Text) : Option (List Text) → Text
  | none => removePatterns patterns content
  | some v => colorText patterns content v

/-- The text with a bandwidth variant, or without bandwidths. -/
def limitedText (patterns : List Text) (content : Text) : Option MbrVariant → Text
  | none => removePatterns patterns content
  | some w => (mbrText patterns content w).1

section
variable {toks : List Text}

theorem removePatterns_eq (value : Text → (before k : ℕ) → Option Text)
    (hv : ∀ t b k, value t b k = some "\n".toList) : ∀ (toks : List Text) (before : ℕ) (content : Text),
    removePatterns (toks.map (· ++ ['\n'])) content = substituteOn '\n' value before toks content
  | [], _, _ => rfl
  | t :: toks, before, content => by
    rw [removePatterns, List.map_cons, List.foldl_cons, spliceBack_occurrences (by simp), ← removePatterns,
      removePatterns_eq value hv toks (before + (occurrences (t ++ ['\n']) content).length), substituteOn,
      funext (hv t before)]

theorem foldl_colorPattern_eq (v : List Text) : ∀ (toks : List Text) (before : ℕ) (content : Text),
    ((toks.map (· ++ ['\n'])).foldl (colorPattern v) (content, min before v.length)).1 =
      substituteOn '\n' (colorValue (some v)) before toks content
  | [], _, _ => rfl
  | t :: toks, before, content => by
    rw [List.map_cons, List.foldl_cons, colorPattern_eq (by simp), foldl_colorPattern_eq v toks]
    rfl

theorem coloredText_eq (toks : List Text) (content : Text) (colors : Option (List Text)) :
    coloredText (toks.map (· ++ ['\n'])) content colors = substituteOn '\n' (colorValue colors) 0 toks content := by
  cases colors with
  | none => exact removePatterns_eq _ (fun _ _ _ => rfl) toks 0 content
  | some v =>
    have hfold := foldl_colorPattern_eq v toks 0 content
    rw [Nat.zero_min] at hfold
    exact hfold

theorem foldl_keyedPattern_eq (guests : Dict Text MbrConfig) : ∀ (toks : List Text) (before : ℕ) (content : Text),
    (toks.map (· ++ ['\n'])).foldl (keyedPattern (guestLineVariants guests)) content =
      substituteOn '\n' (mbrValue (some (.keyed guests))) before toks content
  | [], _, _ => rfl
  | t :: toks, before, content => by
    rw [List.map_cons, List.foldl_cons, keyedPattern_eq, spliceBack_occurrences (by simp),
      foldl_keyedPattern_eq guests toks]
    rfl

/-- The numbers of lines the replacements of a pattern had, from the last one. -/
def legacyCounts (vms : List (List Text)) (before n : ℕ) : List Text :=
  (List.range n).reverse.filterMap fun k => vms[before + k]?.map fun mbrLines => showNat mbrLines.length

theorem legacyPattern_eq {p : Text} (hp : p ≠ []) (vms : List (List Text)) (s : LegacyState) (before : ℕ)
    (hs : s.replaced = min before vms.length) :
    legacyPattern vms s p =
      ⟨substitute p (fun k => some (legacyStr vms (before + k))) s.content,
        min (before + (occurrences p s.content).length) vms.length,
        s.counts ++ legacyCounts vms before (occurrences p s.content).length⟩ := by
  have hget : ∀ k, vms[s.replaced + k]? = vms[before + k]? := fun k => by
    rcases Nat.le_total before vms.length with h | h
    · rw [hs, Nat.min_eq_left h]
    · rw [List.getElem?_eq_none (by omega), List.getElem?_eq_none (by omega)]
  have hlen : (legacyCounts vms before (occurrences p s.content).length).length =
      min (occurrences p s.content).length (vms.length - before) := by
    rw [← length_filter_range _ vms.length before, legacyCounts, List.filterMap_reverse, List.length_reverse,
      List.length_filterMap_eq_countP, List.countP_eq_length_filter]
    congr 1
    refine List.filter_congr fun k _ => ?_
    by_cases h : before + k < vms.length
    · simp [h]
    · simp [h]
  simp only [legacyPattern, hget, LegacyState.mk.injEq]
  refine ⟨?_, ?_, rfl⟩
  · refine (congrArg (fun f => spliceBack f (occurrences p s.content) s.content)
      (funext fun k => ?_)).trans (spliceBack_occurrences hp _ _)
    rw [legacyStr]
    cases vms[before + k]? <;> rfl
  · rw [← legacyCounts, hlen, hs]
    omega

theorem foldl_legacyPattern_content (vms : List (List Text)) : ∀ (toks : List Text) (before : ℕ)
    (s : LegacyState), s.replaced = min before vms.length →
    ((toks.map (· ++ ['\n'])).foldl (legacyPattern vms) s).content =
      substituteOn '\n' (mbrValue (some (.legacy vms))) before toks s.content
  | [], _, _, _ => rfl
  | t :: toks, before, s, hs => by
    rw [List.map_cons, List.foldl_cons, legacyPattern_eq (by simp) vms s before hs,
      foldl_legacyPattern_content vms toks _ _ rfl]
    rfl

theorem limitedText_eq (toks : List Text) (content : Text) (mbr : Option MbrVariant) :
    limitedText (toks.map (· ++ ['\n'])) content mbr = substituteOn '\n' (mbrValue mbr) 0 toks content := by
  cases mbr with
  | none => exact removePatterns_eq _ (fun _ _ _ => rfl) toks 0 content
  | some w =>
    cases w with
    | keyed guests => exact foldl_keyedPattern_eq guests toks 0 content
    | legacy vms => exact foldl_legacyPattern_content vms toks 0 ⟨content, 0, []⟩ (Nat.zero_min _).symm

/-! ### Placeholders in a row -/

/-- The lines of a bandwidth variant. -/
def mbrLines : MbrVariant → List (List Text)
  | .keyed guests => (guestLineVariants guests).map Prod.snd
  | .legacy vms => vms

/-- The supplied patterns are placeholders. -/
def Supplied (m : Mitigation) : Prop := ∀ p ∈ m.ccPatterns ++ m.mbrPatterns, IsPlaceholder p

/-- No inserted value has a `#`. -/
structure HashFree (m : Mitigation) : Prop where
  colors : ∀ v ∈ m.cacheColors, ∀ c ∈ v, '#' ∉ c
  lines : ∀ w ∈ m.mbrConfigs, ∀ ls ∈ mbrLines w, ∀ l ∈ ls, '#' ∉ l

/-- What a colour variant does to the row that ends with a placeholder. -/
def colorFate (colors : Option (List Text)) (tok : Text) (before k : ℕ) : Fate :=
  fate '\n' (colorValue colors tok before k)

/-- What a bandwidth variant does to it. -/
def mbrFate (mbr : Option MbrVariant) (tok : Text) (before k : ℕ) : Fate :=
  fate '\n' (mbrValue mbr tok before k)

theorem IsPlaceholder.eq_concat {p : Text} (h : IsPlaceholder p) : p.dropLast ++ ['\n'] = p :=
  h.lineOfHashes.dropLast.1.symm

theorem mem_tokens_append_left {ps qs : List Text} : ∀ t ∈ tokens ps, t ∈ tokens (ps ++ qs) := fun t ht => by
  rw [tokens, List.map_append]
  exact List.mem_append_left _ ht

theorem mem_tokens_append_right {ps qs : List Text} : ∀ t ∈ tokens qs, t ∈ tokens (ps ++ qs) := fun t ht => by
  rw [tokens, List.map_append]
  exact List.mem_append_right _ ht

theorem map_tokens {patterns : List Text} (h : ∀ p ∈ patterns, IsPlaceholder p) :
    (tokens patterns).map (· ++ ['\n']) = patterns := by
  rw [tokens, List.map_map]
  exact (List.map_congr_left fun p hp => (h p hp).eq_concat).trans (List.map_id patterns)

theorem tokens_placeholders {patterns : List Text} (h : ∀ p ∈ patterns, IsPlaceholder p) :
    Tokens '\n' '#' (tokens patterns) := by
  have hshape : ∀ t ∈ tokens patterns, ∃ name, t = '#' :: (name ++ ['#']) ∧ '#' ∉ name ∧ '\n' ∉ name := by
    intro t ht
    obtain ⟨p, hp, rfl⟩ := List.mem_map.mp ht
    obtain ⟨name, rfl, hhash, hnl⟩ := h p hp
    refine ⟨name, ?_, hhash, hnl⟩
    have hsplit : placeholder name = '#' :: (name ++ ['#']) ++ ['\n'] := by simp [placeholder]
    rw [hsplit, List.dropLast_concat]
  refine ⟨by decide, fun t ht => ?_, fun t ht => ?_, fun t ht t' ht' hsuf => ?_⟩
  · obtain ⟨name, rfl, -, hnl⟩ := hshape t ht
    simp [hnl]
  · obtain ⟨name, rfl, -, -⟩ := hshape t ht
    exact ⟨'#' :: name, by simp⟩
  · obtain ⟨name, rfl, hhash, -⟩ := hshape t ht
    obtain ⟨name', rfl, hhash', -⟩ := hshape t' ht'
    rcases List.suffix_cons_iff.mp hsuf with heq | hin
    · exact heq
    · -- the other token has one `#` behind its first
      have hcount := hin.sublist.count_le '#'
      simp [List.count_eq_zero_of_not_mem hhash, List.count_eq_zero_of_not_mem hhash'] at hcount

/-- Nothing inserted has a `#`, and everything ends a line. -/
theorem colorValue_ends {colors : Option (List Text)} (hf : ∀ v ∈ colors, ∀ c ∈ v, '#' ∉ c) (tok : Text)
    (before k : ℕ) (r : Text) (h : colorValue colors tok before k = some r) : '#' ∉ r ∧ ['\n'] <:+ r := by
  cases colors with
  | none =>
    obtain rfl := Option.some.inj h
    decide
  | some v =>
    obtain ⟨c, hc, rfl⟩ := Option.map_eq_some_iff.mp h
    exact ⟨hash_notMem_colorConfigStr (hf v rfl c (List.mem_of_getElem? hc)), (colorConfigStr_ends c).1⟩

theorem mbrValue_ends {mbr : Option MbrVariant} (hf : ∀ w ∈ mbr, ∀ ls ∈ mbrLines w, ∀ l ∈ ls, '#' ∉ l)
    (tok : Text) (before k : ℕ) (r : Text) (h : mbrValue mbr tok before k = some r) : '#' ∉ r ∧ ['\n'] <:+ r := by
  cases mbr with
  | none =>
    obtain rfl := Option.some.inj h
    decide
  | some w =>
    cases w with
    | keyed guests =>
      obtain rfl := Option.some.inj h
      have hlines : ∀ g ∈ mbrEntries guests (patternGuestHint (tok ++ ['\n'])), ∀ l ∈ g.2, '#' ∉ l := by
        intro g hg
        rw [← guestLineVariants_eq] at hg
        refine hf _ rfl g.2 (List.mem_map_of_mem ?_)
        split at hg
        · exact hg
        · exact List.mem_of_mem_filter hg
      obtain ⟨t, ht, hno⟩ := mbrConfigStr_plain hlines k
      rw [ht, List.mem_append, not_or]
      exact ⟨⟨hno, by decide⟩, List.suffix_append t _⟩
    | legacy vms =>
      obtain rfl := Option.some.inj h
      rw [legacyStr]
      cases hls : vms[before + k]? with
      | none => decide
      | some ls =>
        have hjoin : '#' ∉ join "\n".toList ls :=
          notMem_join (by decide) (hf _ rfl ls (List.mem_of_getElem? hls))
        dsimp only
        rw [List.mem_append, not_or]
        exact ⟨⟨hjoin, by decide⟩, List.suffix_append _ _⟩

/-- The rows of the coloured text by those of the base text. -/
theorem rows_coloredText {all ts : List Text} (h : Tokens '\n' '#' all) (hts : ∀ t ∈ ts, t ∈ all)
    {colors : Option (List Text)} (hf : ∀ v ∈ colors, ∀ c ∈ v, '#' ∉ c) (content : Text) :
    rows all (lines '\n' (coloredText (ts.map (· ++ ['\n'])) content colors)) =
      turns (colorFate colors) 0 ts (rows all (lines '\n' content)) := by
  rw [coloredText_eq]
  exact h.rows_substituteOn 0 content hts fun t _ b k r hr => colorValue_ends hf t b k r hr

theorem rows_limitedText {all ts : List Text} (h : Tokens '\n' '#' all) (hts : ∀ t ∈ ts, t ∈ all)
    {mbr : Option MbrVariant} (hf : ∀ w ∈ mbr, ∀ ls ∈ mbrLines w, ∀ l ∈ ls, '#' ∉ l) (content : Text) :
    rows all (lines '\n' (limitedText (ts.map (· ++ ['\n'])) content mbr)) =
      turns (mbrFate mbr) 0 ts (rows all (lines '\n' content)) := by
  rw [limitedText_eq]
  exact h.rows_substituteOn 0 content hts fun t _ b k r hr => mbrValue_ends hf t b k r hr

end

/-! ### The names of the bandwidth variants -/

/-- The numbers of lines a list variant puts in, by the rows. -/
def legacyParts (vms : List (List Text)) : (before : ℕ) → List Text → List (List Text) → List Text
  | _, [], _ => []
  | before, t :: ts, rs =>
    legacyCounts vms before (ending t rs) ++
      legacyParts vms (before + ending t rs) ts (turn t (mbrFate (some (.legacy vms)) t before) 0 rs)

/-- The parts of a variant's name. -/
def nameParts (ts : List Text) (rs : List (List Text)) : MbrVariant → List Text
  | .keyed guests => variantNameParts guests
  | .legacy vms =>
    if legacyParts vms 0 ts rs = [] then [] else [join "_".toList (legacyParts vms 0 ts rs)]

theorem foldl_legacyPattern_counts {all : List Text} (h : Tokens '\n' '#' all) {vms : List (List Text)}
    (hf : ∀ ls ∈ vms, ∀ l ∈ ls, '#' ∉ l) : ∀ {ts : List Text} (before : ℕ) (s : LegacyState),
    (∀ t ∈ ts, t ∈ all) → s.replaced = min before vms.length →
    ((ts.map (· ++ ['\n'])).foldl (legacyPattern vms) s).counts =
      s.counts ++ legacyParts vms before ts (rows all (lines '\n' s.content))
  | [], _, s, _, _ => (List.append_nil s.counts).symm
  | t :: ts, before, s, hts, hs => by
    rw [List.forall_mem_cons] at hts
    have hv : ∀ k r, mbrValue (some (.legacy vms)) t before k = some r → '#' ∉ r ∧ ['\n'] <:+ r :=
      mbrValue_ends (fun w hw => by
        obtain rfl := Option.some.inj hw
        exact hf) t before
    rw [List.map_cons, List.foldl_cons, legacyPattern_eq (by simp) vms s before hs,
      foldl_legacyPattern_counts h hf _ _ hts.2 rfl, legacyParts, h.length_occurrences hts.1, List.append_assoc]
    dsimp only
    refine congrArg (fun rs => s.counts ++ (_ ++ legacyParts vms _ ts rs)) ?_
    exact h.rows_substitute hts.1 hv s.content

/-- The parts of the name are told by the rows. -/
theorem mbrText_snd {all ts : List Text} (h : Tokens '\n' '#' all) (hts : ∀ t ∈ ts, t ∈ all)
    {w : MbrVariant} (hf : ∀ ls ∈ mbrLines w, ∀ l ∈ ls, '#' ∉ l) (content : Text) :
    (mbrText (ts.map (· ++ ['\n'])) content w).2 = nameParts ts (rows all (lines '\n' content)) w := by
  cases w with
  | keyed guests => rfl
  | legacy vms =>
    have hcounts : ((ts.map (· ++ ['\n'])).foldl (legacyPattern vms) ⟨content, 0, []⟩).counts =
        legacyParts vms 0 ts (rows all (lines '\n' content)) :=
      foldl_legacyPattern_counts h hf 0 ⟨content, 0, []⟩ hts (Nat.zero_min _).symm
    rw [mbrText, nameParts, ← hcounts]

/-- Texts with the same rows give the variants the same tags. -/
theorem variantTags_congr {m : Mitigation} (hs : Supplied m) (hf : HashFree m) {content content' : Text}
    (h : rows (tokens (m.ccPatterns ++ m.mbrPatterns)) (lines '\n' content) =
      rows (tokens (m.ccPatterns ++ m.mbrPatterns)) (lines '\n' content')) :
    variantTags m content = variantTags m content' := by
  have hown : ∀ v ∈ m.mbrConfigs.zipIdx, ownName content [] m.mbrPatterns v =
      ownName content' [] m.mbrPatterns v := fun v hv => by
    have hparts := fun c => mbrText_snd (tokens_placeholders hs) mem_tokens_append_right
      (hf.lines v.1 (List.fst_mem_of_mem_zipIdx hv)) c
    rw [map_tokens fun p hp => hs p (List.mem_append_right _ hp)] at hparts
    rw [ownName, ownName, hparts, hparts, h]
  rw [variantTags, variantTags, ownNames, ownNames, List.map_congr_left hown]

/-- Two colour variants with the same numbers of ones leave the same rows. -/
theorem colorFate_congr {v w : List Text} (h : v.length = w.length) : colorFate (some v) = colorFate (some w) := by
  funext tok before k
  have hfate : ∀ u : List Text, colorFate (some u) tok before k =
      if before + k < u.length then .closed else .kept := fun u => by
    rw [colorFate, colorValue]
    split
    · next hk =>
      rw [List.getElem?_eq_getElem hk]
      rfl
    · next hk =>
      rw [List.getElem?_eq_none (Nat.not_lt.mp hk)]
      rfl
  rw [hfate, hfate, h]

/-- So for placeholders the tags are apart iff no two colour variants have the
same numbers of ones, the MBR variants are told apart, and no base is named by
another one with the beginning of its tags. -/
theorem tagsApart_iff {m : Mitigation} (hs : Supplied m) (hf : HashFree m) {bases : Dict Text Text}
    (hb : bases.items ≠ []) : TagsApart m bases ↔ (m.cacheColors.map colorCounts).Nodup ∧
      (∀ b ∈ bases.items, ∀ content ∈ colorTexts m b.2,
        BumpsApart appendIdx (ownNames content [] m.mbrPatterns m.mbrConfigs)) ∧
      ∀ b ∈ bases.items, ∀ b' ∈ bases.items, NotNamedBehind m b b' := by
  have hsame : ∀ content, ∀ v ∈ m.cacheColors, ∀ w ∈ m.cacheColors, colorCounts v = colorCounts w →
      variantTags m (colorText m.ccPatterns content v) = variantTags m (colorText m.ccPatterns content w) := by
    intro content v hv w hw hvw
    have hrows : ∀ u ∈ m.cacheColors, rows (tokens (m.ccPatterns ++ m.mbrPatterns))
        (lines '\n' (colorText m.ccPatterns content u)) = turns (colorFate (some u)) 0 (tokens m.ccPatterns)
          (rows (tokens (m.ccPatterns ++ m.mbrPatterns)) (lines '\n' content)) := fun u hu => by
      have hcolored := rows_coloredText (tokens_placeholders hs) mem_tokens_append_left
        (fun c (hc : c ∈ some u) => hf.colors c (Option.some.inj hc ▸ hu)) content
      rwa [map_tokens fun p hp => hs p (List.mem_append_left _ hp)] at hcolored
    have hlen : v.length = w.length := by simpa [colorCounts] using congrArg List.length hvw
    refine variantTags_congr hs hf ((hrows v hv).trans ?_)
    rw [colorFate_congr hlen]
    exact (hrows w hw).symm
  have hne : ∀ content, ∃ t, t ∈ variantTags m content := fun content => by
    refine List.exists_mem_of_length_pos ?_
    rw [← mbrTags_eq, mbrTags, List.length_map, length_generateMbrCode]
    omega
  have hcolors : ∀ content, (m.cacheColors.Pairwise fun v w => colorCounts v = colorCounts w →
      (variantTags m (colorText m.ccPatterns content v)).Disjoint
        (variantTags m (colorText m.ccPatterns content w))) ↔ (m.cacheColors.map colorCounts).Nodup := by
    intro content
    rw [List.nodup_iff_pairwise_ne, List.pairwise_map]
    constructor
    · refine fun h => h.imp_of_mem fun {v w} hv hw h hvw => ?_
      obtain ⟨t, ht⟩ := hne (colorText m.ccPatterns content v)
      exact h hvw ht (hsame content v hv w hw hvw ▸ ht)
    · exact fun h => h.imp fun h hvw => absurd hvw h
  constructor
  · intro h
    obtain ⟨b, hmem⟩ := List.exists_mem_of_ne_nil _ hb
    exact ⟨(hcolors b.2).mp (h.colors b hmem), h.mbr, h.bases⟩
  · rintro ⟨hcol, hmbr, hbases⟩
    exact ⟨hmbr, fun b _ => (hcolors b.2).mpr hcol, hbases⟩

/-! ### No placeholder left -/

/-- No returned text has a match of a supplied pattern. -/
def NoPlaceholderLeft (m : Mitigation) (bases : Dict Text Text) : Prop :=
  ∀ out names, generateInterferenceMitigationConfigurations m bases = some (out, names) →
    ∀ e ∈ out.items, ∀ p ∈ m.ccPatterns ++ m.mbrPatterns, ¬ p <:+: e.2

/-- A base with a colour variant and a bandwidth variant, where there are some. -/
structure Triple where
  base : Text × Text
  colors : Option (List Text)
  mbr : Option MbrVariant

/-- The variants of a list; one without a value for an empty list. -/
def choices {α : Type} (variants : List α) : List (Option α) :=
  if variants = [] then [none] else variants.map some

/-- The triples in the order of the loops. -/
def triples (m : Mitigation) (bases : Dict Text Text) : List Triple :=
  bases.items.flatMap fun b => (choices m.cacheColors).flatMap fun colors =>
    (choices m.mbrConfigs).map fun mbr => ⟨b, colors, mbr⟩

/-- The turns of the patterns leave no placeholder in a row at the end of a
line of the base text. -/
def Cleared (m : Mitigation) (t : Triple) : Prop :=
  turns (mbrFate t.mbr) 0 (tokens m.mbrPatterns) (turns (colorFate t.colors) 0 (tokens m.ccPatterns)
    (rows (tokens (m.ccPatterns ++ m.mbrPatterns)) (lines '\n' t.base.2))) = []

instance (m : Mitigation) (t : Triple) : Decidable (Cleared m t) :=
  inferInstanceAs (Decidable (turns _ _ _ _ = []))

/-- The text of a triple. -/
def tripleText (m : Mitigation) (t : Triple) : Text :=
  limitedText m.mbrPatterns (coloredText m.ccPatterns t.base.2 t.colors) t.mbr

theorem map_tripleText (m : Mitigation) (bases : Dict Text Text) :
    (triples m bases).map (tripleText m) = tripleTexts m bases := by
  have hcolor : ∀ content, colorTexts m content = (choices m.cacheColors).map (coloredText m.ccPatterns content) :=
    fun content => by
      rw [colorTexts, choices]
      split
      · rfl
      · rw [List.map_map]
        rfl
  have hmbr : ∀ content, mbrTexts m content = (choices m.mbrConfigs).map (limitedText m.mbrPatterns content) :=
    fun content => by
      rw [mbrTexts, choices]
      split
      · rfl
      · rw [List.map_map]
        rfl
  rw [triples, tripleTexts, List.map_flatMap]
  refine List.flatMap_congr fun b _ => ?_
  rw [hcolor, List.map_flatMap, List.flatMap_map]
  refine List.flatMap_congr fun colors _ => ?_
  rw [hmbr, List.map_map]
  rfl

theorem mem_choices {α : Type} {variants : List α} {o : Option α} (h : o ∈ choices variants) :
    ∀ v ∈ o, v ∈ variants := by
  rintro v rfl
  rw [choices] at h
  split at h
  · cases List.mem_singleton.mp h
  · simpa using h

/-- The text of a triple has no placeholder iff no row is left. -/
theorem cleared_iff {m : Mitigation} (hs : Supplied m) (hf : HashFree m) {bases : Dict Text Text} {t : Triple}
    (ht : t ∈ triples m bases) :
    (∀ p ∈ m.ccPatterns ++ m.mbrPatterns, ¬ p <:+: tripleText m t) ↔ Cleared m t := by
  obtain ⟨b, -, ht⟩ := List.mem_flatMap.mp ht
  obtain ⟨colors, hcolors, ht⟩ := List.mem_flatMap.mp ht
  obtain ⟨mbr, hmbr, rfl⟩ := List.mem_map.mp ht
  have htoks := tokens_placeholders hs
  have hcc := map_tokens fun p hp => hs p (List.mem_append_left _ hp)
  have hmm := map_tokens fun p hp => hs p (List.mem_append_right _ hp)
  have hcolored := rows_coloredText htoks mem_tokens_append_left
    (fun v hv => hf.colors v (mem_choices hcolors v hv)) b.2
  have hlimited := rows_limitedText htoks mem_tokens_append_right (fun w hw => hf.lines w (mem_choices hmbr w hw))
    (coloredText m.ccPatterns b.2 colors)
  rw [hcc] at hcolored
  rw [hmm, hcolored] at hlimited
  rw [Cleared, ← hlimited, htoks.rows_eq_nil_iff, tokens, List.forall_mem_map]
  refine forall₂_congr fun p hp => ?_
  rw [(hs p hp).eq_concat]
  rfl

/-- **Main result.** No placeholder is left iff the turns of the patterns
leave no row, in any triple whose name no later triple has. -/
theorem leftovers_iff {m : Mitigation} (hhex : HexColors m) (hs : Supplied m) (hf : HashFree m)
    (bases : Dict Text Text) :
    NoPlaceholderLeft m bases ↔ ∀ (i : ℕ) t, (triples m bases)[i]? = some t →
      (∀ j, i < j → (tripleNames m bases.items)[j]? ≠ (tripleNames m bases.items)[i]?) → Cleared m t := by
  have hentries := mitigationEntries_eq hhex bases
  have hnames := map_fst_entries m bases.items
  have htexts := map_snd_entries m bases
  rw [← map_tripleText] at htexts
  set entries := bases.items.flatMap (baseEntries m)
  have hname : ∀ i : ℕ, (tripleNames m bases.items)[i]? = entries[i]?.map Prod.fst := fun i => by
    rw [← hnames, List.getElem?_map]
  have htext : ∀ i : ℕ, ((triples m bases)[i]?).map (tripleText m) = entries[i]?.map Prod.snd := fun i => by
    rw [← List.getElem?_map, ← List.getElem?_map, htexts]
  have hout : NoPlaceholderLeft m bases ↔
      ∀ e ∈ (Dict.ofList entries).items, ∀ p ∈ m.ccPatterns ++ m.mbrPatterns, ¬ p <:+: e.2 := by
    rw [NoPlaceholderLeft, generateInterferenceMitigationConfigurations, hentries]
    constructor
    · exact fun h => h _ _ rfl
    · rintro h out names hout
      cases hout
      exact h
  rw [hout]
  constructor
  · intro h i t ht hlast
    refine (cleared_iff hs hf (List.mem_of_getElem? ht)).mp ?_
    have he := htext i
    rw [ht] at he
    obtain ⟨e, hei, he⟩ := Option.map_eq_some_iff.mp he.symm
    rw [← he]
    refine h e (Dict.mem_ofList_iff_getElem?.mpr ⟨i, hei, fun j x hij hx hk => hlast j hij ?_⟩)
    rw [hname, hname, hx, hei]
    exact congrArg some hk
  · intro h e he
    obtain ⟨i, hei, hlast⟩ := Dict.mem_ofList_iff_getElem?.mp he
    have ht := htext i
    rw [hei] at ht
    obtain ⟨t, hti, ht⟩ := Option.map_eq_some_iff.mp ht
    rw [← ht]
    refine (cleared_iff hs hf (List.mem_of_getElem? hti)).mpr (h i t hti fun j hij hsame => ?_)
    rw [hname, hname, hei] at hsame
    obtain ⟨x, hx, hk⟩ := Option.map_eq_some_iff.mp hsame
    exact hlast j x hij hx hk

/-- The patterns of the generator with the given variants. -/
def withVariants (cacheColors : List (List Text)) (mbrConfigs : List MbrVariant) : Mitigation :=
  ⟨8, ccPatterns, mbrPatterns, cacheColors, mbrConfigs⟩

/-- Two VMs with all their placeholders. -/
def fourLines : Dict Text Text := .ofList [("base".toList,
  ("#linux_cache_coloring_config#\n#linux_mem_br_config#\n" ++
    "#baremetal_cache_coloring_config#\n#baremetal_mem_br_config#\n").toList)]

/-- A placeholder behind another one, and one on a line of its own. -/
def behind : Dict Text Text := .ofList [("base".toList,
  "#linux_cache_coloring_config##baremetal_mem_br_config#\n#linux_mem_br_config#\n".toList)]

theorem supplied_withVariants (cacheColors : List (List Text)) (mbrConfigs : List MbrVariant) :
    Supplied (withVariants cacheColors mbrConfigs) := by
  intro p hp
  rcases List.mem_append.mp hp with hp | hp
  · exact isPlaceholder_ccPatterns p hp
  · exact isPlaceholder_mbrPatterns p hp

/-- A colour for each of the two VMs; and a list too short for the second
placeholder, whose empty line is on a line of its own. -/
theorem leftovers_iff_lines :
    NoPlaceholderLeft (withVariants [["0x3".toList, "0xfc".toList]] [.keyed linuxLimit]) fourLines ∧
    NoPlaceholderLeft (withVariants [["0x3".toList]] [.legacy [["a".toList]]]) behind := by
  have hcleared : ∀ (m : Mitigation) (bases : Dict Text Text), (∀ t ∈ triples m bases, Cleared m t) →
      ∀ (i : ℕ) t, (triples m bases)[i]? = some t → (∀ j, i < j →
        (tripleNames m bases.items)[j]? ≠ (tripleNames m bases.items)[i]?) → Cleared m t :=
    fun m bases h i t ht _ => h t (List.mem_of_getElem? ht)
  constructor
  · refine (leftovers_iff (by decide +kernel) (supplied_withVariants _ _) ⟨by decide, fun w hw => ?_⟩ _).mpr
      (hcleared _ _ (by decide +kernel))
    obtain rfl := List.mem_singleton.mp hw
    decide +kernel
  · refine (leftovers_iff (by decide +kernel) (supplied_withVariants _ _) ⟨by decide, fun w hw => ?_⟩ _).mpr
      (hcleared _ _ (by decide +kernel))
    obtain rfl := List.mem_singleton.mp hw
    decide +kernel

/-- One colour for two VMs leaves the other's placeholder; and the empty line
of a guest without limit makes a placeholder of the beginning before it. -/
theorem placeholder_left :
    (HexColors (withVariants [["0x3".toList]] [.keyed linuxLimit]) ∧
      Supplied (withVariants [["0x3".toList]] [.keyed linuxLimit]) ∧
      HashFree (withVariants [["0x3".toList]] [.keyed linuxLimit]) ∧
      ¬ NoPlaceholderLeft (withVariants [["0x3".toList]] [.keyed linuxLimit]) fourLines) ∧
    (HexColors (withVariants [] [.keyed linuxLimit]) ∧ Supplied (withVariants [] [.keyed linuxLimit]) ∧
      HashFree (withVariants [] [.keyed linuxLimit]) ∧
      ¬ NoPlaceholderLeft (withVariants [] [.keyed linuxLimit])
        (.ofList [("base".toList, "#linux_cache_coloring_config##baremetal_mem_br_config#\n".toList)])) := by
  have hleft : ∀ {m : Mitigation} {bases : Dict Text Text},
      ((generateInterferenceMitigationConfigurations m bases).any fun o =>
        o.1.items.any fun e => m.ccPatterns.any fun p => (find p e.2).isSome) = true →
      ¬ NoPlaceholderLeft m bases := by
    intro m bases h hno
    cases hout : generateInterferenceMitigationConfigurations m bases with
    | none => simp [hout] at h
    | some o =>
      rw [hout, Option.any_some, List.any_eq_true] at h
      obtain ⟨e, he, h⟩ := h
      obtain ⟨p, hp, h⟩ := List.any_eq_true.mp h
      exact hno o.1 o.2 hout e he p (List.mem_append_left _ hp) (find_isSome.mp h)
  have hlines : ∀ w ∈ [MbrVariant.keyed linuxLimit], ∀ ls ∈ mbrLines w, ∀ l ∈ ls, '#' ∉ l := fun w hw => by
    obtain rfl := List.mem_singleton.mp hw
    decide +kernel
  exact ⟨⟨by decide +kernel, supplied_withVariants _ _, ⟨by decide, hlines⟩, hleft (by decide +kernel)⟩,
    ⟨by decide +kernel, supplied_withVariants _ _, ⟨by decide, hlines⟩, hleft (by decide +kernel)⟩⟩

end TestEngine
end DaatMcs
