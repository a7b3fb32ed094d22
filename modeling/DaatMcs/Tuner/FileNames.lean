/-
# Names of result files

The profile of a test is written to a file with the name of its
configuration: the names of the guests joined by `_`, and the tag of the
colours. The tuner reads the workloads and the tag back from it with a
regular expression. `parseFilename_resultFile`: it gets back what the
generator put in, for workloads without `_baremetal_` in them.
-/
import DaatMcs.Generator.Combine
import DaatMcs.Lib.Regex
import DaatMcs.Lib.Unicode

namespace DaatMcs
namespace Tuner

open Literal Regex

/-! ### The parser -/

/-- `[\w-]`. -/
def wordOrDash (u : UnicodeData) (c : Char) : Bool := u.isAlnum c || c = '_' || c = '-'

/-- `(?:_cc(?:_(?P<tag>.+))?)?\.txt$`. -/
def tagRe : Pattern :=
  .concat [.opt (.seq (.lit "_cc".toList) (.opt (.seq (.lit "_".toList)
      (.group "tag" (.greedy dot 1))))),
    .lit ".txt".toList, .eos]

/-- `_FILENAME_RE`. -/
def filenameRe (u : UnicodeData) : Pattern :=
  .seq (.lit "linux_".toList) <| .seq (.group "cpu0" (.lazy dot 1)) <|
  .seq (.lit "_baremetal_cache_".toList) <| .seq (.group "cpu1" (.lazy dot 1)) <|
  .seq (.lit "_baremetal_embench_".toList) <| .seq (.group "cpu2" (.greedy (wordOrDash u) 1)) <|
  .seq (.lit "-C1_profile".toList) <| .seq (.opt (.lit "_0".toList)) tagRe

def parseFilename (u : UnicodeData) (filename : Text) :
    Option (Text × Text × Text × Option Text) :=
  (filenameRe u).first filename |>.bind fun m =>
    let cpu0 := rstrip '_' ((m.group? "cpu0").getD [])
    let cpu1 := "cache_".toList ++ rstrip '_' ((m.group? "cpu1").getD [])
    let cpu2 := rstrip '_' ((m.group? "cpu2").getD [])
    if cpu0 = [] ∨ cpu1 = [] ∨ cpu2 = [] then none else some (cpu0, cpu1, cpu2, m.group? "tag")

/-! ### The names -/

/-- The names of the guests of a combination: a Linux workload, a cache
guest, an embench guest on one CPU and the profiler. -/
def guestNames (w c b : Text) : List Text :=
  ["linux_".toList ++ w, "baremetal_cache_".toList ++ c,
    "baremetal_embench_".toList ++ b ++ "-C1".toList, "profile".toList]

/-- What a colour variant adds to a name. -/
def tagText : Option Text → Text
  | none => []
  | some t => "_cc_".toList ++ t

/-- The file of the profile of such a combination. -/
def resultFile (w c b : Text) (tag : Option Text) : Text :=
  join "_".toList (guestNames w c b) ++ tagText tag ++ ".txt".toList

/-- A workload or a suffix of a cache guest that can be read back. -/
structure Workload (w : Text) : Prop where
  ne_nil : w ≠ []
  newline : '\n' ∉ w
  separator : ¬ "_baremetal_".toList <:+: w
  last : ¬ "_".toList <:+ w

/-- An embench name: letters, digits and `-`. -/
structure EmbenchName (u : UnicodeData) (b : Text) : Prop where
  ne_nil : b ≠ []
  chars : ∀ ch ∈ b, u.isAlnum ch = true ∨ ch = '-'

/-- A colour tag: digits, `_` and `-`. -/
structure ColorTag (u : UnicodeData) (t : Text) : Prop where
  ne_nil : t ≠ []
  chars : ∀ ch ∈ t, u.isDigit ch = true ∨ ch = '_' ∨ ch = '-'

/-! ### The tag -/

theorem notMem_tag {u : UnicodeData} {t : Text} (h : ColorTag u t) {c : Char} (hlt : c.toNat < 128)
    (hd : c.isDigit = false) (hu : c ≠ '_') (hm : c ≠ '-') : c ∉ t := fun hc => by
  rcases h.chars c hc with h | h | h
  · rw [u.isDigit_ascii c hlt, hd] at h
    exact Bool.false_ne_true h
  · exact hu h
  · exact hm h

/-- What follows `-C1_profile`. -/
def suffixText (tag : Option Text) : Text := tagText tag ++ ".txt".toList

theorem notMem_suffixText {u : UnicodeData} {tag : Option Text} (h : ∀ t ∈ tag, ColorTag u t) :
    'C' ∉ suffixText tag := by
  cases tag with
  | none => decide
  | some t =>
    simp only [suffixText, tagText, List.mem_append, not_or]
    exact ⟨⟨by decide, notMem_tag (h t rfl) (by decide) (by decide) (by decide) (by decide)⟩,
      by decide⟩

theorem captures_tag {u : UnicodeData} {tag : Option Text} (h : ∀ t ∈ tag, ColorTag u t) :
    tagRe.Captures (suffixText tag) (tag.toList.map fun t => ("tag", t)) := by
  have hend : (Pattern.concat [.lit ".txt".toList, .eos]).Captures ".txt".toList [] :=
    ⟨⟨[], ".txt".toList, []⟩, by decide, rfl⟩
  cases tag with
  | none => exact ⟨⟨[], ".txt".toList, []⟩, by decide, rfl⟩
  | some t =>
    have ht := h t rfl
    apply captures_opt_seq_take
    apply captures_seq_assoc
    rw [suffixText, tagText, show "_cc_".toList = "_cc".toList ++ "_".toList by decide,
      List.append_assoc, List.append_assoc]
    apply captures_lit_seq
    apply captures_opt_seq_take
    apply captures_seq_assoc
    apply captures_lit_seq
    apply captures_greedy_seq "tag" _ _ _ hend
    · intro c hc
      have hn := notMem_tag ht (c := '\n') (by decide) (by decide) (by decide) (by decide)
      simpa [dot] using fun hcn : c = '\n' => hn (hcn ▸ hc)
    · exact List.length_pos_iff.mpr ht.ne_nil
    · -- a longer tag leaves less than `.txt`
      intro y z hyz hy _
      apply first_lit_seq_none
      intro hz
      have hlen := congrArg List.length hyz
      have hle := hz.length_le
      have hpos := List.length_pos_iff.mpr hy
      rw [List.length_append] at hlen
      omega

/-! ### The guests -/

theorem captures_embench {u : UnicodeData} {b : Text} (hb : EmbenchName u b) {tag : Option Text}
    (ht : ∀ t ∈ tag, ColorTag u t) :
    (Pattern.seq (.group "cpu2" (.greedy (wordOrDash u) 1)) <|
      .seq (.lit "-C1_profile".toList) <| .seq (.opt (.lit "_0".toList)) tagRe).Captures
      (b ++ ("-C1_profile".toList ++ suffixText tag))
      (("cpu2", b) :: tag.toList.map fun t => ("tag", t)) := by
  have hskip : (Pattern.seq (.lit "_0".toList) tagRe).first (suffixText tag) = none := by
    apply first_lit_seq_none
    cases tag with
    | none => decide
    | some t =>
      rintro ⟨tl, h⟩
      simp [suffixText, tagText] at h
  apply captures_greedy_seq "cpu2" _ _ _
    (captures_lit_seq (captures_opt_seq_skip hskip (captures_tag ht)) _)
  · intro c hc
    rcases hb.chars c hc with h | h
    · simp [wordOrDash, h]
    · simp [wordOrDash, h]
  · exact List.length_pos_iff.mpr hb.ne_nil
  · -- `-C1_profile` does not come again: it has the only `C`
    intro y z hyz hy _
    apply first_lit_seq_none
    rintro ⟨tl, rfl⟩
    have hC : 'C' ∉ "1_profile".toList ++ suffixText tag := by
      rw [List.mem_append, not_or]
      exact ⟨by decide, notMem_suffixText ht⟩
    rcases y with _ | ⟨c, _ | ⟨d, y⟩⟩
    · exact hy rfl
    · simp at hyz
    · rw [show "-C1_profile".toList = '-' :: 'C' :: "1_profile".toList by decide] at hyz
      simp only [List.cons_append, List.cons.injEq] at hyz
      obtain ⟨-, -, hyz⟩ := hyz
      refine hC ?_
      rw [hyz]
      simp

/-- The group of a workload ends before the name of the next guest. -/
theorem captures_workload {w sep t : Text} (hw : Workload w) (name : String) {r : Pattern}
    {groups : List (String × Text)} (hsep : sep.take 11 = "_baremetal_".toList)
    (hoverlap : ∀ k < 11, 0 < k → ¬ sep.drop k <+: sep) (h : r.Captures t groups) :
    (Pattern.seq (.group name (.lazy dot 1)) (.seq (.lit sep) r)).Captures (w ++ (sep ++ t))
      ((name, w) :: groups) := by
  apply captures_lazy_seq name _ _ _ (captures_lit_seq h sep)
  · intro c hc
    simpa [dot] using fun hcn : c = '\n' => hw.newline (hcn ▸ hc)
  · exact List.length_pos_iff.mpr hw.ne_nil
  · intro x y hxy hy _
    apply first_lit_seq_none
    apply not_prefix_overlap 11 hoverlap hy
    rw [hsep]
    exact fun hin => hw.separator (hxy ▸ hin.trans (List.suffix_append x y).isInfix)

theorem resultFile_eq (w c b : Text) (tag : Option Text) :
    resultFile w c b tag = "linux_".toList ++ (w ++ ("_baremetal_cache_".toList ++ (c ++
      ("_baremetal_embench_".toList ++ (b ++ ("-C1_profile".toList ++ suffixText tag)))))) := by
  simp [resultFile, guestNames, join, suffixText]

/-- **Main result.** The file of a combination's profile is read back to the
workloads and the tag it was named with. -/
theorem parseFilename_resultFile (u : UnicodeData) {w c b : Text} {tag : Option Text}
    (hw : Workload w) (hc : Workload c) (hb : EmbenchName u b) (ht : ∀ t ∈ tag, ColorTag u t) :
    parseFilename u (resultFile w c b tag) = some (w, "cache_".toList ++ c, b, tag) := by
  obtain ⟨m, hm, hgroups⟩ : (filenameRe u).Captures (resultFile w c b tag)
      (("cpu0", w) :: ("cpu1", c) :: ("cpu2", b) :: tag.toList.map fun t => ("tag", t)) := by
    rw [resultFile_eq]
    exact captures_lit_seq (captures_workload hw "cpu0" (by decide) (by decide)
      (captures_workload hc "cpu1" (by decide) (by decide) (captures_embench hb ht))) _
  have hcpu0 : m.group? "cpu0" = some w := by
    rw [Match.group?, hgroups]
    cases tag <;> simp
  have hcpu1 : m.group? "cpu1" = some c := by
    rw [Match.group?, hgroups]
    cases tag <;> simp
  have hcpu2 : m.group? "cpu2" = some b := by
    rw [Match.group?, hgroups]
    cases tag <;> simp
  have htag : m.group? "tag" = tag := by
    rw [Match.group?, hgroups]
    cases tag <;> simp
  have hstripw : rstrip '_' w = w := rstrip_eq_self hw.last
  have hstripc : rstrip '_' c = c := rstrip_eq_self hc.last
  have hstripb : rstrip '_' b = b := rstrip_eq_self fun h => by
    rcases hb.chars '_' (h.subset (List.mem_singleton_self '_')) with h | h
    · rw [u.isAlnum_ascii '_' (by decide)] at h
      exact absurd h (by decide)
    · exact absurd h (by decide)
  rw [parseFilename, hm, Option.bind_some]
  simp only [hcpu0, hcpu1, hcpu2, htag, Option.getD_some, hstripw, hstripc, hstripb]
  rw [if_neg]
  simp [hw.ne_nil, hb.ne_nil]

/-- It is the engine that joins the names of a combination so. -/
theorem comboName_guestNames {w c b : Text} {combo : List (Text × Text)}
    (hnames : combo.map Prod.fst = guestNames w c b) (hconfigs : ∀ g ∈ combo, g.2 ≠ []) :
    TestEngine.comboName combo = join "_".toList (guestNames w c b) := by
  have hguests : TestEngine.comboGuests combo = combo :=
    List.filter_eq_self.mpr fun g hg => by simpa using hconfigs g hg
  rw [TestEngine.comboName, hguests, hnames, List.filter_eq_self.mpr]
  intro name hname
  simp only [guestNames, List.mem_cons, List.not_mem_nil, or_false] at hname
  rcases hname with rfl | rfl | rfl | rfl <;> simp

/-- The tags of the engine's colour variants can be read back. -/
theorem exists_colorTag (u : UnicodeData) (hwNumCacheColors : ℕ) (colorCounts : List ℕ) :
    ∃ t, ColorTag u t ∧ TestEngine.colorTag hwNumCacheColors colorCounts = tagText (some t) := by
  refine ⟨join "_".toList (colorCounts.map showNat) ++ "-".toList ++ showNat hwNumCacheColors,
    ⟨by simp, ?_⟩, by simp only [TestEngine.colorTag, tagText, List.append_assoc]⟩
  have hdigit : ∀ n, ∀ ch ∈ showNat n, u.isDigit ch = true := fun n ch hch => by
    have hd := digit_of_mem_showNat hch
    have hlt := (toNat_of_isDigit hd).2
    rw [u.isDigit_ascii ch (by omega), hd]
  intro ch hch
  rw [List.mem_append, List.mem_append] at hch
  rcases hch with (hch | hch) | hch
  · by_contra hno
    rw [not_or, not_or] at hno
    refine notMem_join (by simpa using hno.2.1) (fun p hp => ?_) hch
    obtain ⟨n, -, rfl⟩ := List.mem_map.mp hp
    exact fun h => hno.1 (hdigit n ch h)
  · exact .inr (.inr (List.mem_singleton.mp hch))
  · exact .inl (hdigit _ ch hch)

/-- A workload with a cache guest and an embench guest, three VMs coloured. -/
theorem parseFilename_resultFile_fft : parseFilename asciiData
    (resultFile "fft".toList "r-C1-W1M".toList "crc32".toList (some "2_2_4-8".toList)) =
    some ("fft".toList, "cache_r-C1-W1M".toList, "crc32".toList, some "2_2_4-8".toList) :=
  parseFilename_resultFile asciiData ⟨by decide, by decide, by decide, by decide⟩
    ⟨by decide, by decide, by decide, by decide⟩ ⟨by decide, forall_mem_of_all (by decide)⟩
    (fun t ht => by
      obtain rfl := Option.some.inj ht
      exact ⟨by decide, forall_mem_of_all (by decide)⟩)

/-- Without a benchmark or with an empty tag there is nothing to read. -/
theorem emptyName_not_read :
    parseFilename asciiData (resultFile "fft".toList "r-C1-W1M".toList [] none) = none ∧
    parseFilename asciiData (resultFile "fft".toList "r-C1-W1M".toList "crc32".toList (some [])) =
      none := by
  decide +kernel

end Tuner
end DaatMcs
