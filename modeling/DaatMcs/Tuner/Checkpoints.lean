/-
# Reading the checkpoints of a report

`parse_cpu_checkpoints` reads the file the logger server writes: a heading
starts the list of its CPU, every other line goes on with it, except rules
and the title; of a line only the words of digits count. `parse_printDump`:
what it reads is what the server printed.
-/
import DaatMcs.Lib.Dict
import DaatMcs.Lib.Lines
import DaatMcs.Lib.Unicode
import DaatMcs.Logger.Server

namespace DaatMcs
namespace Tuner

open Literal

/-! ### The parser -/

/-- The newlines of a file opened as text. -/
def universalNewlines : Text → Text
  | [] => []
  | '\r' :: '\n' :: cs => '\n' :: universalNewlines cs
  | c :: cs => (if c = '\r' then '\n' else c) :: universalNewlines cs

/-- `for line in f`. Nothing follows the last newline. -/
def fileLines (text : Text) : List Text :=
  let parts := (universalNewlines text).splitOn '\n'
  if parts.getLast? = some [] then parts.dropLast else parts

/-- `cpu_data` and `current_cpu`. -/
structure ParseState where
  cpuData : Dict Text (List ℕ)
  currentCpu : Option Text

/-- The body of the loop over the lines; `int` may raise. -/
def parseLine (u : UnicodeData) (s : ParseState) (line : Text) : Option ParseState :=
  let line := strip line
  if "CPU".toList <+: line ∧ (find "checkpoints:".toList line).isSome then
    let currentCpu := (split line).headD []
    some ⟨s.cpuData.insert currentCpu [], some currentCpu⟩
  else
    match s.currentCpu with
    | none => some s
    | some cpu =>
      if cpu ≠ [] ∧ line ≠ [] ∧ ¬ "=".toList <+: line ∧ ¬ "Aggregated".toList <+: line then
        (((split line).filter (isDigits u)).mapM (intOf u)).map fun numbers =>
          { s with cpuData := s.cpuData.insert cpu ((s.cpuData.get? cpu).getD [] ++ numbers) }
      else some s

def parseCpuCheckpoints (u : UnicodeData) (text : Text) : Option (Dict Text (List ℕ)) :=
  ((fileLines text).foldlM (parseLine u) ⟨.empty, none⟩).map (·.cpuData)

/-! ### The lines of a report -/

def cpuName (cpu : ℕ) : Text := "CPU".toList ++ showNat cpu

def headingLine (cpu : ℕ) : Text := cpuName cpu ++ " checkpoints:".toList

def wordsLine (words : List UInt32) : Text :=
  join " ".toList (words.map fun w => showNat w.toNat)

/-- The lines of the sections. -/
def sectionLines (sections : List (ℕ × List UInt32)) : List Text :=
  sections.flatMap fun s => [headingLine s.1, wordsLine s.2]

def titleLines : List Text :=
  ["======================================================".toList,
    "Aggregated checkpoints per CPU".toList]

theorem toList_section (s : ℕ × List UInt32) :
    ("CPU" ++ toString s.1 ++ " checkpoints:\n" ++
      " ".intercalate (s.2.map fun w => toString w.toNat) ++ "\n").toList =
      unlines '\n' [headingLine s.1, wordsLine s.2] := by
  have hcp : " checkpoints:\n".toList = " checkpoints:".toList ++ ['\n'] := by decide
  have hshow : ∀ n : ℕ, (toString n).toList = showNat n := fun n => Nat.toList_repr
  simp only [String.toList_append, String.toList_intercalate, List.map_map, hshow, hcp]
  simp only [unlines, List.flatMap_cons, List.flatMap_nil, headingLine, cpuName, wordsLine,
    join, List.append_assoc, List.append_nil, Function.comp_def, hshow]
  rfl

theorem toList_title : "======================================================\n".toList ++
    "Aggregated checkpoints per CPU\n".toList = unlines '\n' titleLines := by decide +kernel

/-- The lines the server writes. -/
theorem toList_printDump (sections : List (ℕ × List UInt32)) :
    (Server.printDump sections).toList =
      unlines '\n' (titleLines ++ sectionLines sections ++ [[]]) := by
  have hsections : (sections.map fun s =>
      "CPU" ++ toString s.1 ++ " checkpoints:\n" ++
        " ".intercalate (s.2.map fun w => toString w.toNat) ++ "\n").flatMap String.toList =
      unlines '\n' (sectionLines sections) := by
    rw [List.flatMap_map, List.flatMap_congr fun s _ => toList_section s, sectionLines, unlines,
      List.flatMap_assoc]
    rfl
  unfold Server.printDump
  simp only [String.toList_append, String.toList_join, hsections, toList_title, unlines_append]
  rfl

theorem universalNewlines_eq : ∀ {text : Text}, '\r' ∉ text → universalNewlines text = text
  | [], _ => rfl
  | c :: cs, h => by
    rw [List.mem_cons, not_or] at h
    have ih := universalNewlines_eq h.2
    have hc : c ≠ '\r' := Ne.symm h.1
    rw [universalNewlines, if_neg hc, ih]
    rintro _ rfl
    exact absurd rfl hc

theorem notMem_universalNewlines (text : Text) : '\r' ∉ universalNewlines text := by
  fun_induction universalNewlines text with
  | case1 => exact List.not_mem_nil
  | case2 cs ih => exact fun h => (List.mem_cons.mp h).elim (by decide) ih
  | case3 c cs _ ih =>
    refine fun h => (List.mem_cons.mp h).elim (fun hc => ?_) ih
    split at hc
    · exact absurd hc (by decide)
    · next hne => exact hne hc.symm

/-- Lines have no newline of any kind in them. -/
theorem notMem_of_mem_fileLines {text line : Text} (h : line ∈ fileLines text) :
    '\n' ∉ line ∧ '\r' ∉ line := by
  have hline : line ∈ (universalNewlines text).splitOn '\n' := by
    rw [fileLines] at h
    split at h
    · exact List.mem_of_mem_dropLast h
    · exact h
  refine ⟨notMem_of_mem_splitOn hline, fun hr => notMem_universalNewlines text ?_⟩
  have hmem : '\r' ∈ unlines '\n' ((universalNewlines text).splitOn '\n') :=
    List.mem_flatMap.mpr ⟨line, hline, List.mem_append_left _ hr⟩
  rw [unlines_splitOn] at hmem
  exact (List.mem_append.mp hmem).resolve_right (by decide)

theorem fileLines_unlines {ls : List Text} (h : ∀ l ∈ ls, '\n' ∉ l ∧ '\r' ∉ l) :
    fileLines (unlines '\n' ls) = ls := by
  have hr : '\r' ∉ unlines '\n' ls := fun hmem => by
    obtain ⟨l, hl, hmem⟩ := List.mem_flatMap.mp hmem
    rcases List.mem_append.mp hmem with hmem | hmem
    · exact (h l hl).2 hmem
    · cases List.mem_singleton.mp hmem
  rw [fileLines, universalNewlines_eq hr, splitOn_unlines fun l hl => (h l hl).1]
  simp

theorem notMem_headingLine {c : Char} (hd : c.isDigit = false) (hp : c ∉ "CPU".toList)
    (hs : c ∉ " checkpoints:".toList) (cpu : ℕ) : c ∉ headingLine cpu := by
  simp only [headingLine, cpuName, List.mem_append, not_or]
  exact ⟨⟨hp, notMem_showNat hd cpu⟩, hs⟩

theorem notMem_wordsLine {c : Char} (hd : c.isDigit = false) (hs : c ∉ " ".toList)
    (words : List UInt32) : c ∉ wordsLine words := by
  refine notMem_join hs fun p hp => ?_
  obtain ⟨w, -, rfl⟩ := List.mem_map.mp hp
  exact notMem_showNat hd _

theorem fileLines_printDump (sections : List (ℕ × List UInt32)) :
    fileLines (Server.printDump sections).toList = titleLines ++ sectionLines sections ++ [[]] := by
  rw [toList_printDump]
  have htitle : ∀ l ∈ titleLines, '\n' ∉ l ∧ '\r' ∉ l := by decide +kernel
  apply fileLines_unlines
  intro l hl
  rcases List.mem_append.mp hl with hl | hl
  · rcases List.mem_append.mp hl with hl | hl
    · exact htitle l hl
    · obtain ⟨s, -, hl⟩ := List.mem_flatMap.mp hl
      rcases List.mem_pair.mp hl with rfl | rfl
      · exact ⟨notMem_headingLine (by decide) (by decide) (by decide) _,
          notMem_headingLine (by decide) (by decide) (by decide) _⟩
      · exact ⟨notMem_wordsLine (by decide) (by decide) _, notMem_wordsLine (by decide) (by decide) _⟩
  · rw [List.mem_singleton.mp hl]
    exact ⟨List.not_mem_nil, List.not_mem_nil⟩

/-! ### The parser on them -/

theorem isSpace_showNat {n : ℕ} {c : Char} (h : c ∈ showNat n) : isSpace c = false :=
  isSpace_of_isDigit (digit_of_mem_showNat h)

theorem isSpace_cpuName {cpu : ℕ} {c : Char} (h : c ∈ cpuName cpu) : isSpace c = false := by
  have hcpu : ∀ c ∈ "CPU".toList, isSpace c = false := forall_mem_of_all (by decide)
  rcases List.mem_append.mp h with h | h
  · exact hcpu c h
  · exact isSpace_showNat h

theorem cpuName_ne_nil (cpu : ℕ) : cpuName cpu ≠ [] := by simp [cpuName]

theorem cpuName_injective : Function.Injective cpuName := fun _ _ h =>
  showNat_injective (List.append_cancel_left h)

theorem strip_headingLine (cpu : ℕ) : strip (headingLine cpu) = headingLine cpu := by
  apply strip_eq_self
  · rintro c hc
    obtain rfl : 'C' = c := by simpa [headingLine, cpuName] using hc
    decide
  · rintro c hc
    obtain rfl : ':' = c := by
      rwa [headingLine, List.getLast?_append_of_ne_nil _ (by decide), Option.mem_def,
        show " checkpoints:".toList.getLast? = some ':' by decide, Option.some.injEq] at hc
    decide

theorem parseLine_heading (u : UnicodeData) (s : ParseState) (cpu : ℕ) :
    parseLine u s (headingLine cpu) =
      some ⟨s.cpuData.insert (cpuName cpu) [], some (cpuName cpu)⟩ := by
  have hprefix : "CPU".toList <+: headingLine cpu := by
    rw [headingLine, cpuName, List.append_assoc]
    exact List.prefix_append _ _
  have hfind : (find "checkpoints:".toList (headingLine cpu)).isSome :=
    find_isSome.mpr ⟨cpuName cpu ++ [' '], [], by
      rw [List.append_nil, List.append_assoc]; rfl⟩
  have hsplit : split (headingLine cpu) = [cpuName cpu, "checkpoints:".toList] :=
    calc split (headingLine cpu)
        = split (cpuName cpu) ++ split "checkpoints:".toList :=
          split_append_space (by decide : isSpace ' ' = true) (cpuName cpu) _
      _ = [cpuName cpu] ++ ["checkpoints:".toList] := by
          rw [split_word (cpuName_ne_nil cpu) fun c hc => isSpace_cpuName hc,
            split_word (s := "checkpoints:".toList) (by decide) (forall_mem_of_all (by decide))]
  unfold parseLine
  simp only [strip_headingLine, hprefix, hfind, hsplit, and_self, ↓reduceIte]
  rfl

/-- The words of a line, as texts. -/
def wordTexts (words : List UInt32) : List Text := words.map fun w => showNat w.toNat

theorem wordTexts_spec {words : List UInt32} {p : Text} (h : p ∈ wordTexts words) :
    p ≠ [] ∧ ∀ c ∈ p, isSpace c = false := by
  obtain ⟨w, -, rfl⟩ := List.mem_map.mp h
  exact ⟨showNat_ne_nil _, fun c hc => isSpace_showNat hc⟩

/-- The line is neither a heading nor a rule nor the title. -/
theorem not_prefix_wordsLine {words : List UInt32} {c : Char} {s : Text} (hc : c.isDigit = false) :
    ¬ c :: s <+: wordsLine words := by
  rintro ⟨tl, h⟩
  obtain ⟨p, hp, hcp⟩ := mem_of_head?_join (c := c) (fun p hp => (wordTexts_spec hp).1)
    (show c ∈ (wordsLine words).head? by rw [← h]; rfl)
  obtain ⟨w, -, rfl⟩ := List.mem_map.mp hp
  exact notMem_showNat hc _ hcp

theorem mapM_wordTexts (u : UnicodeData) : ∀ words : List UInt32,
    ((wordTexts words).filter (isDigits u)).mapM (intOf u) = some (words.map UInt32.toNat)
  | [] => rfl
  | w :: words => by
    have ih := mapM_wordTexts u words
    rw [wordTexts] at ih ⊢
    rw [List.map_cons, List.filter_cons_of_pos (isDigits_showNat u _), List.mapM_cons, ih,
      intOf_showNat]
    rfl

/-- The line goes on with the list of its CPU. -/
theorem parseLine_words (u : UnicodeData) (cpuData : Dict Text (List ℕ)) (cpu : ℕ)
    (words : List UInt32) :
    parseLine u ⟨cpuData.insert (cpuName cpu) [], some (cpuName cpu)⟩ (wordsLine words) =
      some ⟨cpuData.insert (cpuName cpu) (words.map UInt32.toNat), some (cpuName cpu)⟩ := by
  have hstrip : strip (wordsLine words) = wordsLine words :=
    strip_join fun p hp => wordTexts_spec hp
  have hheading : ¬ "CPU".toList <+: wordsLine words := not_prefix_wordsLine (by decide)
  unfold parseLine
  simp only [hstrip, hheading, false_and, ↓reduceIte]
  by_cases hempty : words = []
  · subst hempty
    rw [if_neg (fun h => h.2.1 rfl)]
    rfl
  · have hne : wordsLine words ≠ [] := fun h =>
      hempty (List.map_eq_nil_iff.mp (join_eq_nil (fun p hp => (wordTexts_spec hp).1) h))
    rw [if_pos ⟨cpuName_ne_nil cpu, hne, not_prefix_wordsLine (by decide),
      not_prefix_wordsLine (by decide)⟩]
    have hsplit : split (wordsLine words) = wordTexts words :=
      split_join (by decide) fun p hp => wordTexts_spec hp
    rw [hsplit, mapM_wordTexts, Option.map_some, Dict.get?_insert_self, Dict.insert_insert]
    rfl

theorem parseLine_empty (u : UnicodeData) (s : ParseState) : parseLine u s [] = some s := by
  obtain ⟨cpuData, _ | cpu⟩ := s
  · rfl
  · show (if _ ∧ strip [] ≠ [] ∧ _ then _ else _) = _
    exact if_neg fun h => h.2.1 rfl

/-- Before the first heading the other lines are skipped. -/
theorem foldlM_skip (u : UnicodeData) (cpuData : Dict Text (List ℕ)) : ∀ {ls : List Text},
    (∀ l ∈ ls, ¬ "CPU".toList <+: strip l) →
    ls.foldlM (parseLine u) ⟨cpuData, none⟩ = some ⟨cpuData, none⟩
  | [], _ => rfl
  | l :: ls, h => by
    have hl : parseLine u ⟨cpuData, none⟩ l = some ⟨cpuData, none⟩ := by
      unfold parseLine
      exact if_neg fun hc => h l List.mem_cons_self hc.1
    rw [List.foldlM_cons, hl]
    exact foldlM_skip u cpuData fun x hx => h x (List.mem_cons_of_mem l hx)

theorem foldlM_titleLines (u : UnicodeData) :
    titleLines.foldlM (parseLine u) ⟨.empty, none⟩ = some ⟨.empty, none⟩ :=
  foldlM_skip u .empty (by decide +kernel)

/-- The sections of the first `n` CPUs. -/
theorem foldlM_sectionLines (u : UnicodeData) (words : ℕ → List UInt32) : ∀ n,
    ∃ s, (sectionLines ((List.range n).map fun cpu => (cpu, words cpu))).foldlM (parseLine u)
      ⟨.empty, none⟩ = some s ∧
      s.cpuData.items = (List.range n).map fun cpu => (cpuName cpu, (words cpu).map UInt32.toNat)
  | 0 => ⟨⟨.empty, none⟩, rfl, rfl⟩
  | n + 1 => by
    obtain ⟨s, hs, hitems⟩ := foldlM_sectionLines u words n
    have hnew : cpuName n ∉ s.cpuData.keys := by
      rw [Dict.keys, hitems, List.map_map, List.mem_map]
      rintro ⟨cpu, hcpu, h⟩
      exact absurd (cpuName_injective h) (Nat.ne_of_lt (List.mem_range.mp hcpu))
    refine ⟨⟨s.cpuData.insert (cpuName n) ((words n).map UInt32.toNat), some (cpuName n)⟩, ?_, ?_⟩
    · rw [List.range_succ, List.map_append, sectionLines, List.flatMap_append, ← sectionLines,
        List.foldlM_append, hs]
      simp only [List.map_cons, List.map_nil, List.flatMap_cons, List.flatMap_nil, List.cons_append,
        List.nil_append, List.foldlM_cons, List.foldlM_nil, parseLine_heading, parseLine_words,
        Option.bind_eq_bind, Option.bind_some, Option.pure_def]
    · rw [Dict.items_insert_of_not_mem _ hnew, hitems, List.range_succ, List.map_append]
      rfl

/-- **Main result.** The parser reads what the server prints: for any number
of CPUs and any words, it returns each CPU's words under its name, in the
order of the CPUs, and nothing else. -/
theorem parse_printDump (u : UnicodeData) (numCpus : ℕ) (words : ℕ → List UInt32) :
    ∃ d, parseCpuCheckpoints u
      (Server.printDump ((List.range numCpus).map fun cpu => (cpu, words cpu))).toList = some d ∧
      d.items = (List.range numCpus).map fun cpu =>
        ("CPU".toList ++ showNat cpu, (words cpu).map UInt32.toNat) := by
  obtain ⟨s, hs, hitems⟩ := foldlM_sectionLines u words numCpus
  refine ⟨s.cpuData, ?_, hitems⟩
  rw [parseCpuCheckpoints, fileLines_printDump, List.foldlM_append, List.foldlM_append,
    foldlM_titleLines, Option.bind_eq_bind, Option.bind_some, hs]
  simp only [List.foldlM_cons, List.foldlM_nil, parseLine_empty, Option.bind_eq_bind,
    Option.bind_some, Option.pure_def, Option.map_some]

end Tuner
end DaatMcs
