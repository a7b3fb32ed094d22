/-
# Splicing is simultaneous substitution

The loops of `generate_cache_colors_code` and `generate_mbr_code` edit the
text pattern after pattern, by spans of the text as it is then, and count the
VM instances on by the replacements so far. Where the patterns do not clash
(`NoClash`) all this is one substitution from left to right in the base text:
an occurrence of a colour pattern takes the colour with its number over all
the patterns, an occurrence of a bandwidth pattern the lines of the guest in
its place (`spliced`).

Without that a placeholder can appear that was none: an empty line put behind
the beginning of a placeholder completes it (`splicing_clash`).
-/
import DaatMcs.Generator.Mitigation
import DaatMcs.Lib.Substitution

namespace DaatMcs
namespace TestEngine

open Literal

/-- The colour patterns, each with the lines of its occurrences: the
instances are counted on from the occurrences of the patterns before. -/
def colorJobs (content : Text) (variantColors : List Text) : (before : ℕ) → List Text → Jobs Char
  | _, [] => []
  | before, p :: ps =>
    (p, fun k => variantColors[before + k]?.map colorConfigStr) ::
      colorJobs content variantColors (before + count p content) ps

/-- The guests with a budget and a period, or with lines of their own, whose
lower-cased name contains the hint. -/
def mbrEntries (guests : Dict Text MbrConfig) (hint : Text) : List (Text × List Text) :=
  (guests.items.filterMap fun g =>
    match g.2 with
    | .settings d => (budgetAndPeriod d).map fun (budget, period) => (g.1, generateMbrVariant budget period)
    | .lines l => if l = [] then none else some (g.1, l)
    | .other _ => none).filter fun g => (find hint (lower g.1)).isSome

/-- The bandwidth patterns, each with the lines of its occurrences. -/
def keyedJobs (guests : Dict Text MbrConfig) (patterns : List Text) : Jobs Char :=
  patterns.map fun p => (p, fun k => some (mbrConfigStr (mbrEntries guests (patternGuestHint p)) k))

/-! ### Colours -/

theorem colorPattern_eq {p : Text} (hp : p ≠ []) (variantColors : List Text) (content : Text)
    (before : ℕ) :
    colorPattern variantColors (content, min before variantColors.length) p =
      (substitute p (fun k => variantColors[before + k]?.map colorConfigStr) content,
        min (before + count p content) variantColors.length) := by
  have hget : (fun k => variantColors[min before variantColors.length + k]?.map colorConfigStr) =
      fun k => variantColors[before + k]?.map colorConfigStr := by
    funext k
    rcases Nat.le_total before variantColors.length with h | h
    · rw [Nat.min_eq_left h]
    · rw [Nat.min_eq_right h, List.getElem?_eq_none (by omega), List.getElem?_eq_none (by omega)]
  have hlen := length_filter_range (occurrences p content).length variantColors.length
    (min before variantColors.length)
  rw [colorPattern]
  dsimp only
  rw [hget, spliceBack_occurrences hp, hlen, count]
  congr 1
  omega

theorem map_fst_colorJobs (content : Text) (variantColors : List Text) : ∀ (before : ℕ) (ps : List Text),
    (colorJobs content variantColors before ps).map Prod.fst = ps
  | _, [] => rfl
  | before, p :: ps => by rw [colorJobs, List.map_cons, map_fst_colorJobs content variantColors _ ps]

theorem foldl_colorPattern (variantColors : List Text) (content : Text) : ∀ (ps : List Text)
    (before : ℕ) (text : Text), (∀ q ∈ ps, count q text = count q content) →
    NoClash text (colorJobs content variantColors before ps) →
    (ps.foldl (colorPattern variantColors) (text, min before variantColors.length)).1 =
      substituteEach (colorJobs content variantColors before ps) text
  | [], _, _, _, _ => rfl
  | p :: ps, before, text, hcount, h => by
    have hp : p ≠ [] := h.1 _ List.mem_cons_self
    rw [List.foldl_cons, colorPattern_eq hp, hcount p List.mem_cons_self, colorJobs, substituteEach,
      List.foldl_cons]
    refine foldl_colorPattern variantColors content ps _ _ (fun q hq => ?_) h.substitute
    rw [← map_fst_colorJobs content variantColors (before + count p content) ps] at hq
    obtain ⟨j, hj, rfl⟩ := List.mem_map.mp hq
    rw [count_substitute hp (h.1 _ (List.mem_cons_of_mem _ hj)) (List.rel_of_pairwise_cons h.2 hj).1
      (h.harmless hj), hcount _ (List.mem_cons_of_mem _ ?_)]
    rw [← map_fst_colorJobs content variantColors (before + count p content) ps]
    exact List.mem_map_of_mem hj

theorem colorText_eq {patterns : List Text} {content : Text} {variantColors : List Text}
    (h : NoClash content (colorJobs content variantColors 0 patterns)) :
    colorText patterns content variantColors =
      substituteAll (colorJobs content variantColors 0 patterns) content := by
  have hfold := foldl_colorPattern variantColors content patterns 0 content (fun _ _ => rfl) h
  rw [Nat.zero_min] at hfold
  rw [colorText, hfold, substituteEach_eq h]

/-! ### Memory bandwidth -/

theorem guestLineVariants_eq (guests : Dict Text MbrConfig) (hint : Text) :
    (if hint = [] then guestLineVariants guests
      else (guestLineVariants guests).filter fun g => (find hint (lower g.1)).isSome) =
      mbrEntries guests hint := by
  have hlines : guestLineVariants guests = guests.items.filterMap fun g =>
      match g.2 with
      | .settings d =>
        (budgetAndPeriod d).map fun (budget, period) => (g.1, generateMbrVariant budget period)
      | .lines l => if l = [] then none else some (g.1, l)
      | .other _ => none := by
    rw [guestLineVariants]
    induction guests.items with
    | nil => rfl
    | cons g l ih =>
      obtain ⟨name, config⟩ := g
      rw [List.map_cons, List.filterMap_cons, ← ih]
      cases config with
      | lines ls => by_cases h : ls = [] <;> simp [toMbrLines, h]
      | settings d => cases h : budgetAndPeriod d <;> simp [toMbrLines, h, generateMbrVariant]
      | other s => simp [toMbrLines]
  rw [mbrEntries, ← hlines]
  split
  · next h =>
    refine (List.filter_eq_self.mpr fun g _ => ?_).symm
    rw [h, find_isSome]
    exact List.nil_infix
  · rfl

theorem keyedPattern_eq (guests : Dict Text MbrConfig) (text p : Text) :
    keyedPattern (guestLineVariants guests) text p =
      spliceBack (fun k => some (mbrConfigStr (mbrEntries guests (patternGuestHint p)) k))
        (occurrences p text) text := by
  rw [keyedPattern]
  rw [guestLineVariants_eq]

theorem foldl_keyedPattern (guests : Dict Text MbrConfig) : ∀ (ps : List Text) (text : Text),
    (∀ p ∈ ps, p ≠ []) →
    ps.foldl (keyedPattern (guestLineVariants guests)) text = substituteEach (keyedJobs guests ps) text
  | [], _, _ => rfl
  | p :: ps, text, hne => by
    have hp := hne p List.mem_cons_self
    rw [List.foldl_cons, foldl_keyedPattern guests ps _ fun q hq => hne q (List.mem_cons_of_mem p hq),
      keyedPattern_eq, spliceBack_occurrences hp]
    rfl

theorem mbrText_keyed_eq {patterns : List Text} {content : Text} {guests : Dict Text MbrConfig}
    (h : NoClash content (keyedJobs guests patterns)) :
    (mbrText patterns content (.keyed guests)).1 = substituteAll (keyedJobs guests patterns) content := by
  have hne : ∀ p ∈ patterns, p ≠ [] := fun p hp => h.1 _ (List.mem_map.mpr ⟨p, hp, rfl⟩)
  rw [mbrText, foldl_keyedPattern guests patterns content hne, substituteEach_eq h]

theorem getElem?_map_snd {l : List (Text × Text)} {texts : List Text} (h : l.map Prod.snd = texts) (i : ℕ) :
    l[i]?.map Prod.snd = texts[i]? := by
  rw [← h, List.getElem?_map]

/-- **Main result.** Where the patterns do not clash, the text of a colour
variant, and that of a bandwidth variant given by guest, is the base text
with all the placeholders replaced at once. -/
theorem spliced (content filename : Text) (patterns : List Text) :
    (∀ (listCacheColors : List (List Text)) (hw : ℕ) (configs : List (Text × Text)),
      generateCacheColorsCode content filename patterns listCacheColors hw = some configs →
      ∀ (i : ℕ) (variantColors : List Text), listCacheColors[i]? = some variantColors →
        NoClash content (colorJobs content variantColors 0 patterns) →
        configs[i]?.map Prod.snd = some (substituteAll (colorJobs content variantColors 0 patterns) content)) ∧
    ∀ (listMbrConfigs : List MbrVariant) (i : ℕ) (guests : Dict Text MbrConfig),
      listMbrConfigs[i]? = some (.keyed guests) → NoClash content (keyedJobs guests patterns) →
      (generateMbrCode content filename patterns listMbrConfigs)[i]?.map Prod.snd =
        some (substituteAll (keyedJobs guests patterns) content) := by
  refine ⟨fun listCacheColors hw configs hconfigs i v hv h => ?_, fun listMbrConfigs i guests hg h => ?_⟩
  · have hne : listCacheColors ≠ [] := by
      rintro rfl
      cases hv
    rw [generateCacheColorsCode, if_neg hne] at hconfigs
    have htexts : configs.map Prod.snd = listCacheColors.map (colorText patterns content) := by
      refine map_eq_of_mapM hconfigs fun v e he => ?_
      obtain ⟨n, -, rfl⟩ := Option.map_eq_some_iff.mp he
      rfl
    rw [getElem?_map_snd htexts, List.getElem?_map, hv, Option.map_some, colorText_eq h]
  · have hne : listMbrConfigs ≠ [] := by
      rintro rfl
      cases hg
    have htexts := map_snd_generateMbrCode content filename patterns listMbrConfigs
    rw [if_neg hne] at htexts
    rw [getElem?_map_snd htexts, List.getElem?_map, hg, Option.map_some, mbrText_keyed_eq h]

/-! ### Placeholders -/

/-- `#name#` and the end of its line. -/
def placeholder (name : Text) : Text := '#' :: (name ++ "#\n".toList)

/-- All patterns of the generator are so. -/
def IsPlaceholder (p : Text) : Prop := ∃ name, p = placeholder name ∧ '#' ∉ name ∧ '\n' ∉ name

/-- A text that starts with `#` and ends with `#` and the only end of a line. -/
def LineOfHashes (u : Text) : Prop := ∃ m, u = '#' :: (m ++ "#\n".toList) ∧ '\n' ∉ m

theorem IsPlaceholder.lineOfHashes {p : Text} : IsPlaceholder p → LineOfHashes p
  | ⟨name, hp, _, hn⟩ => ⟨name, hp, hn⟩

theorem IsPlaceholder.ne_nil {p : Text} : IsPlaceholder p → p ≠ []
  | ⟨_, hp, _⟩ => hp ▸ List.cons_ne_nil _ _

theorem LineOfHashes.dropLast {u : Text} (h : LineOfHashes u) :
    u = u.dropLast ++ ['\n'] ∧ '\n' ∉ u.dropLast := by
  obtain ⟨m, rfl, hm⟩ := h
  have hu : '#' :: (m ++ "#\n".toList) = ('#' :: (m ++ ['#'])) ++ ['\n'] := by simp
  rw [hu, List.dropLast_concat]
  refine ⟨rfl, ?_⟩
  simp [hm]

/-- No end of it but the line's end is without `#`. -/
theorem LineOfHashes.hash_mem {u t : Text} (h : LineOfHashes u) (ht : t <:+ u) (hne : t ≠ []) :
    t = ['\n'] ∨ '#' ∈ t := by
  obtain ⟨m, rfl, -⟩ := h
  have hu : '#' :: (m ++ "#\n".toList) = ('#' :: m) ++ ['#', '\n'] := rfl
  rw [hu] at ht
  rcases Nat.lt_or_ge 1 t.length with hlen | hlen
  · have hend : ['#', '\n'] <:+ t := List.suffix_of_suffix_length_le (List.suffix_append _ _) ht hlen
    exact .inr (hend.subset List.mem_cons_self)
  · have hlast : t <:+ ['\n'] := by
      refine List.suffix_of_suffix_length_le ht ?_ hlen
      exact ⟨('#' :: m) ++ ['#'], by simp⟩
    rcases List.suffix_cons_iff.mp hlast with h | h
    · exact .inl h
    · exact absurd (List.suffix_nil.mp h) hne

theorem foreign_of_notMem {u r : Text} (h : LineOfHashes u) (hr : '#' ∉ r) : Foreign u r := by
  obtain ⟨m, rfl, -⟩ := h
  refine ⟨fun hin => hr (hin.subset List.mem_cons_self), fun t hne hsuf hpre => hr (hsuf.subset ?_)⟩
  obtain ⟨d, t, rfl⟩ := List.exists_cons_of_ne_nil hne
  obtain ⟨rfl, -⟩ := List.cons_prefix_cons.mp hpre
  exact List.mem_cons_self

/-- A text without `#` that ends a line can complete such a text only with an
empty line behind its beginning. -/
theorem LineOfHashes.harmless {u p text r : Text} (h : LineOfHashes u) (hr : '#' ∉ r)
    (hend : ['\n'] <:+ r) (hempty : ['\n'] <+: r → ¬ u.dropLast ++ p <:+: text) :
    Harmless text p r u := by
  have hne : r ≠ [] := by
    rintro rfl
    exact absurd hend (by decide)
  refine ⟨hne, foreign_of_notMem h hr, fun x t hu hx ht hcomp => ?_⟩
  rcases h.hash_mem ⟨x, hu.symm⟩ ht with rfl | hmem
  · have hx : x = u.dropLast := by rw [hu, List.dropLast_concat]
    rw [hx]
    refine hempty (hcomp.elim id fun hpre => ?_)
    rcases List.prefix_cons_iff.mp hpre with h | ⟨t, rfl, ht⟩
    · exact absurd h hne
    · rw [List.prefix_nil.mp ht]
  · -- the end with `#` would be in `r`, or end behind the end of the line
    rcases hcomp with hpre | hpre
    · exact absurd (hpre.subset hmem) hr
    · intro _
      obtain ⟨y, rfl⟩ := hpre
      rcases List.eq_nil_or_concat y with rfl | ⟨y, c, rfl⟩
      · rw [List.append_nil] at hmem
        exact hr hmem
      · have hdrop : u.dropLast = x ++ (r ++ y) := by
          rw [hu, List.concat_eq_append, ← List.append_assoc, ← List.append_assoc, List.dropLast_concat,
            List.append_assoc]
        refine h.dropLast.2 ?_
        rw [hdrop]
        exact List.mem_append_right _ (List.mem_append_left _ (hend.subset List.mem_cons_self))

/-- Different placeholders do not overlap. -/
theorem IsPlaceholder.apart {p q : Text} (hp : IsPlaceholder p) (hq : IsPlaceholder q) (h : p ≠ q) :
    Apart p q := by
  have hforeign : ∀ {p q : Text}, IsPlaceholder p → IsPlaceholder q → p ≠ q → Foreign p q := by
    rintro p q hp ⟨name, rfl, hn, hnl⟩ h
    -- both would be a suffix of the second, by the one end of the line
    have hsuf : ∀ t, t ≠ [] → t <:+ '#' :: (name ++ "#\n".toList) → '\n' ∈ t := by
      intro t hne ht
      have hnl : ['\n'] <:+ '#' :: (name ++ "#\n".toList) := ⟨'#' :: (name ++ ['#']), by simp⟩
      have hpos := List.length_pos_iff.mpr hne
      exact (List.suffix_of_suffix_length_le hnl ht hpos).subset List.mem_cons_self
    have heq : p <:+ '#' :: (name ++ "#\n".toList) → False := by
      obtain ⟨m, rfl, hm, -⟩ := hp
      intro hs
      rcases List.suffix_cons_iff.mp hs with hs | hs
      · exact h hs
      · obtain ⟨y, hy⟩ := hs
        have hcount := congrArg (List.count '#') hy
        simp [placeholder, List.count_eq_zero_of_not_mem hn, List.count_eq_zero_of_not_mem hm] at hcount
    have hline := hp.lineOfHashes.dropLast
    refine ⟨fun ⟨a, b, hab⟩ => ?_, fun t hne ht hpre => ?_⟩
    · rcases List.eq_nil_or_concat b with rfl | ⟨b, c, rfl⟩
      · rw [List.append_nil] at hab
        exact heq ⟨a, hab⟩
      · have hq := (IsPlaceholder.lineOfHashes ⟨name, rfl, hn, hnl⟩).dropLast.2
        rw [← hab, List.concat_eq_append, ← List.append_assoc, List.dropLast_concat] at hq
        refine hq (List.mem_append_left _ (List.mem_append_right _ ?_))
        rw [hline.1]
        exact List.mem_append_right _ List.mem_cons_self
    · have hmem := hsuf t hne ht
      obtain ⟨y, hy⟩ := hpre
      rcases List.eq_nil_or_concat y with rfl | ⟨y, c, rfl⟩
      · rw [List.append_nil] at hy
        exact heq (hy ▸ ht)
      · refine hline.2 ?_
        rw [← hy, List.concat_eq_append, ← List.append_assoc, List.dropLast_concat]
        exact List.mem_append_left _ hmem
  exact ⟨hforeign hp hq h, hforeign hq hp (Ne.symm h)⟩

/-- Placeholders clash only where an empty line is put behind the beginning
of one. -/
theorem noClash_placeholders {text : Text} {jobs : Jobs Char} (hps : ∀ j ∈ jobs, IsPlaceholder j.1)
    (hnd : (jobs.map Prod.fst).Nodup)
    (hr : ∀ j ∈ jobs, ∀ k < count j.1 text, ∀ r, j.2 k = some r → '#' ∉ r ∧ ['\n'] <:+ r)
    (hempty : ∀ j ∈ jobs, ∀ j' ∈ jobs, ∀ k < count j.1 text, ∀ r, j.2 k = some r → ['\n'] <+: r →
      ¬ j'.1.dropLast ++ j.1 <:+: text) : NoClash text jobs := by
  refine ⟨fun j hj => (hps j hj).ne_nil, ?_⟩
  rw [List.nodup_iff_pairwise_ne, List.pairwise_map] at hnd
  refine hnd.imp_of_mem fun {j j'} hj hj' hne => ⟨(hps j hj).apart (hps j' hj') hne, fun k hk r hjr => ?_⟩
  exact (hps j' hj').lineOfHashes.harmless (hr j hj k hk r hjr).1 (hr j hj k hk r hjr).2
    (hempty j hj j' hj' k hk r hjr)

theorem colorConfigStr_ends (color : Text) : ['\n'] <:+ colorConfigStr color ∧
    ¬ ['\n'] <+: colorConfigStr color := by
  have hstart : ".colors = ".toList = '.' :: "colors = ".toList := by decide
  have hend : ",\n".toList = [','] ++ ['\n'] := by decide
  unfold colorConfigStr
  rw [hend, ← List.append_assoc]
  refine ⟨List.suffix_append _ _, fun h => ?_⟩
  rw [hstart, List.cons_append, List.cons_append, List.cons_append] at h
  exact absurd (List.cons_prefix_cons.mp h).1 (by decide)

theorem hash_notMem_colorConfigStr {color : Text} (h : '#' ∉ color) : '#' ∉ colorConfigStr color := by
  have hstart : '#' ∉ ".colors = ".toList := by decide
  have hend : '#' ∉ ",\n".toList := by decide
  unfold colorConfigStr
  rw [List.mem_append, List.mem_append]
  exact fun hmem => hmem.elim (fun hmem => hmem.elim hstart h) hend

theorem exists_of_mem_colorJobs {content : Text} {variantColors : List Text} :
    ∀ {before : ℕ} {ps : List Text} {j : Text × (ℕ → Option Text)},
      j ∈ colorJobs content variantColors before ps → j.1 ∈ ps ∧ ∃ b, before ≤ b ∧
        b + count j.1 content ≤ before + (ps.map fun p => count p content).sum ∧
        j.2 = fun k => variantColors[b + k]?.map colorConfigStr
  | before, p :: ps, j, h => by
    rw [List.map_cons, List.sum_cons]
    rcases List.mem_cons.mp h with rfl | h
    · exact ⟨List.mem_cons_self, before, Nat.le_refl _, by dsimp only; omega, rfl⟩
    · obtain ⟨hp, b, hb, hle, hj⟩ := exists_of_mem_colorJobs h
      exact ⟨List.mem_cons_of_mem p hp, b, by omega, by omega, hj⟩

/-- Colours never make a placeholder. -/
theorem noClash_colorJobs {patterns : List Text} {variantColors : List Text} (text content : Text)
    (hps : ∀ p ∈ patterns, IsPlaceholder p) (hnd : patterns.Nodup) (hv : ∀ c ∈ variantColors, '#' ∉ c)
    (before : ℕ) : NoClash text (colorJobs content variantColors before patterns) := by
  have hcolor : ∀ j ∈ colorJobs content variantColors before patterns, ∀ k r, j.2 k = some r →
      ∃ c ∈ variantColors, r = colorConfigStr c := by
    intro j hj k r hr
    obtain ⟨-, b, -, -, hj⟩ := exists_of_mem_colorJobs hj
    rw [hj] at hr
    obtain ⟨c, hc, rfl⟩ := Option.map_eq_some_iff.mp hr
    exact ⟨c, List.mem_of_getElem? hc, rfl⟩
  refine noClash_placeholders (fun j hj => hps _ (exists_of_mem_colorJobs hj).1) ?_ (fun j hj k _ r hr => ?_)
    fun j hj j' _ k _ r hr hnl => ?_
  · rwa [map_fst_colorJobs]
  · obtain ⟨c, hc, rfl⟩ := hcolor j hj k r hr
    exact ⟨hash_notMem_colorConfigStr (hv c hc), (colorConfigStr_ends c).1⟩
  · obtain ⟨c, -, rfl⟩ := hcolor j hj k r hr
    exact absurd hnl (colorConfigStr_ends c).2

/-- A guest with a budget of 100 and a period of 1000. -/
def linuxLimit : Dict Text MbrConfig := .ofList [("linux".toList, .settings (.ofList
  [("budget".toList, some (.int 100)), ("period".toList, some (.int 1000))]))]

/-- The bandwidth patterns in the order of the generator. -/
def mbrPatterns : List Text :=
  ["baremetal_mem_br_config".toList, "linux_mem_br_config".toList].map placeholder

/-- Two VMs, each with its bandwidth placeholder on a line. -/
def twoLimits : Text := "#linux_mem_br_config#\n.\n#baremetal_mem_br_config#\n".toList

/-- Both placeholders on one line. -/
def oneLine : Text := "#linux_mem_br_config##baremetal_mem_br_config#\n".toList

theorem isPlaceholder_of_names {names : List Text} (h : ∀ name ∈ names, '#' ∉ name ∧ '\n' ∉ name) :
    ∀ p ∈ names.map placeholder, IsPlaceholder p := by
  intro p hp
  obtain ⟨name, hname, rfl⟩ := List.mem_map.mp hp
  exact ⟨name, rfl, h name hname⟩

/-- The colour patterns of the generator. -/
def ccPatterns : List Text :=
  ["linux_cache_coloring_config".toList, "baremetal_cache_coloring_config".toList].map placeholder

/-- Both colour placeholders, and one behind the beginning of another. -/
def twoColors : Text :=
  "#linux#linux_cache_coloring_config#\n.\n#baremetal_cache_coloring_config#\n".toList

theorem isPlaceholder_ccPatterns : ∀ p ∈ ccPatterns, IsPlaceholder p :=
  isPlaceholder_of_names (by decide)

theorem isPlaceholder_mbrPatterns : ∀ p ∈ mbrPatterns, IsPlaceholder p :=
  isPlaceholder_of_names (by decide)

theorem noClash_twoLimits : NoClash twoLimits (keyedJobs linuxLimit mbrPatterns) := by
  have hlines : ∀ p ∈ mbrPatterns, ∀ g ∈ mbrEntries linuxLimit (patternGuestHint p), ∀ l ∈ g.2, '#' ∉ l := by
    decide +kernel
  have hapart : ∀ p ∈ mbrPatterns, ∀ q ∈ mbrPatterns, ¬ q.dropLast ++ p <:+: twoLimits := by decide +kernel
  have hmem : ∀ j ∈ keyedJobs linuxLimit mbrPatterns, j.1 ∈ mbrPatterns := fun j hj => by
    obtain ⟨p, hp, rfl⟩ := List.mem_map.mp hj
    exact hp
  refine noClash_placeholders (fun j hj => isPlaceholder_mbrPatterns _ (hmem j hj)) (by decide)
    (fun j hj k _ r hr => ?_) fun j hj j' hj' _ _ _ _ _ => hapart _ (hmem j hj) _ (hmem j' hj')
  obtain ⟨p, hp, rfl⟩ := List.mem_map.mp hj
  obtain rfl := Option.some.inj hr
  obtain ⟨t, ht, hno⟩ := mbrConfigStr_plain (hlines p hp) k
  rw [ht]
  exact ⟨by simpa using hno, List.suffix_append t _⟩

theorem spliced_twoVms :
    (∃ configs, generateCacheColorsCode twoColors "base".toList ccPatterns [["0x3".toList, "0xfc".toList]] 8 =
      some configs ∧ configs[0]?.map Prod.snd =
        some (substituteAll (colorJobs twoColors ["0x3".toList, "0xfc".toList] 0 ccPatterns) twoColors)) ∧
    (generateMbrCode twoLimits "base".toList mbrPatterns [.keyed linuxLimit])[0]?.map Prod.snd =
      some (substituteAll (keyedJobs linuxLimit mbrPatterns) twoLimits) := by
  have hcolor := generateCacheColorsCode_eq (p := ⟨8, ccPatterns, [], [["0x3".toList, "0xfc".toList]], []⟩)
    (by decide +kernel) twoColors "base".toList
  exact ⟨⟨_, hcolor, (spliced twoColors "base".toList ccPatterns).1 _ 8 _ hcolor 0 _ rfl
      (noClash_colorJobs twoColors twoColors isPlaceholder_ccPatterns (by decide) (by decide) 0)⟩,
    (spliced twoLimits "base".toList mbrPatterns).2 [.keyed linuxLimit] 0 linuxLimit rfl noClash_twoLimits⟩

/-- `a.c` and `#P#` are not in each other nor in the texts put in, and the
variant has enough colours; yet the colour put behind the `a` makes an `a.c`.
So does the empty line of a guest without limit behind the other's name. -/
theorem splicing_clash :
    (∃ (patterns variantColors : List Text) (content : Text), patterns.Pairwise (fun p q => ¬ p <:+: q ∧ ¬ q <:+: p) ∧
      (∀ p ∈ patterns, ∀ c ∈ variantColors, ¬ p <:+: colorConfigStr c) ∧
      (patterns.map fun p => count p content).sum ≤ variantColors.length ∧
      colorText patterns content variantColors ≠
        substituteAll (colorJobs content variantColors 0 patterns) content) ∧
    mbrPatterns.Pairwise (fun p q => ¬ p <:+: q ∧ ¬ q <:+: p) ∧
    (∀ p ∈ mbrPatterns, ∀ q ∈ mbrPatterns, ¬ p <:+: mbrConfigStr (mbrEntries linuxLimit (patternGuestHint q)) 0) ∧
    (mbrText mbrPatterns oneLine (.keyed linuxLimit)).1 ≠
      substituteAll (keyedJobs linuxLimit mbrPatterns) oneLine := by
  refine ⟨⟨["#P#".toList, "a.c".toList], ["1".toList, "2".toList], "a#P#".toList, ?_⟩, ?_⟩
  · decide +kernel
  · decide +kernel

end TestEngine
end DaatMcs
