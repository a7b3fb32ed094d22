/-
# Reading the times of a benchmark log

A Linux guest prints a section for each benchmark: a header line that names
it, and some lines below the time it took. `parse_log` of `hist_macro.py`
goes through the lines with the benchmark of the section and a flag that the
next line holds the time. Cut at the headers the log should be read section
by section. It is iff every run of digits and dots that is read is a number,
and no section ends with the flag set (`independent_iff`): a section that
breaks off there takes the next header for its time.
-/
import DaatMcs.Scripts.CciNames
import DaatMcs.Tuner.Checkpoints
import Mathlib.Algebra.Order.Field.Rat
import Mathlib.Data.List.SplitBy

namespace DaatMcs
namespace Scripts
namespace MacroLogs

open Literal Regex Tuner

/-! ### The parser -/

/-- `s.split(sep)[-1]`. -/
def lastPiece (sep s : Text) : Text := s.drop (((occurrences sep s).getLast?.map Prod.snd).getD 0)

/-- `([\d.]+)`. -/
def timePattern (u : UnicodeData) : Pattern :=
  .group "1" (.greedy (fun c => isDecimal u c || c = '.') 1)

/-- What the pattern finds. -/
def timeRun (u : UnicodeData) (s : Text) : Option Text :=
  ((timePattern u).search s).bind fun m => m.group? "1"

/-- `float(s)` of digits and dots; none is a `ValueError`. -/
def floatOf (u : UnicodeData) (s : Text) : Option ℚ :=
  let whole := s.takeWhile (· ≠ '.')
  let frac := (s.dropWhile (· ≠ '.')).drop 1
  if whole ++ frac = [] then none
  else (intOf u (whole ++ frac)).map fun n : ℕ => (n : ℚ) / 10 ^ frac.length

/-- `results`, `current_bench` and `grab_next`. -/
structure LogState where
  results : Dict Text ℚ
  currentBench : Option Text
  grabNext : Bool
deriving DecidableEq

/-- `current_bench` where it is true. -/
def LogState.bench (s : LogState) : Option Text := s.currentBench.filter (· ≠ [])

def isHeader (line : Text) : Bool := (find "mibench/automotive/".toList (strip line)).isSome

def headerBench (line : Text) : Text := strip (lastPiece "mibench/automotive/".toList (strip line))

def isFinal (line : Text) : Bool := (find "Final result:".toList (strip line)).isSome

/-- The time on the line of the final result itself. -/
def finalRun (u : UnicodeData) (line : Text) : Option Text :=
  timeRun u (strip (lastPiece "Final result:".toList (strip line)))

/-- The body of the loop over the lines; `float` may raise. -/
def parseLogLine (u : UnicodeData) (s : LogState) (line : Text) : Option LogState :=
  match s.grabNext, s.bench with
  | true, some bench =>
    match timeRun u (strip line) with
    | some run => (floatOf u run).map fun t => ⟨s.results.insert bench t, none, false⟩
    | none => some ⟨s.results, none, false⟩
  | _, bench? =>
    if isHeader line then some ⟨s.results, some (headerBench line), false⟩
    else
      match isFinal line, bench? with
      | true, some bench =>
        match finalRun u line with
        | some run => (floatOf u run).map fun t => ⟨s.results.insert bench t, none, s.grabNext⟩
        | none => some { s with grabNext := true }
      | _, _ => some s

def parseLines (u : UnicodeData) (lines : List Text) : Option (Dict Text ℚ) :=
  (lines.foldlM (parseLogLine u) ⟨.empty, none, false⟩).map LogState.results

/-- None is the exception of a number that is none. -/
def parseLog (u : UnicodeData) (log : Text) : Option (Dict Text ℚ) := parseLines u (fileLines log)

/-! ### The sections of a log -/

/-- The lines of a log, cut at its headers. -/
def sections (log : Text) : List (List Text) := (fileLines log).splitBy fun _ line => !isHeader line

/-- The entries of one dictionary after the other. -/
def union (ds : List (Dict Text ℚ)) : Dict Text ℚ := ds.foldl (fun d e => d.update e.items) .empty

/-- Sections in a row are read without an exception, and what is read is the
union of what is read from each on its own. -/
def Independent (u : UnicodeData) (part : List (List Text)) : Prop :=
  ∃ d, parseLines u part.flatten = some d ∧
    ∃ ds, part.mapM (parseLines u) = some ds ∧ ∀ bench, d.get? bench = (union ds).get? bench

/-- What one section comes to. -/
inductive Outcome
  /-- No time. -/
  | nothing
  /-- The digits and dots read as the time of the benchmark. -/
  | time (bench run : Text)
  /-- The section ends where its time was to come on the next line. -/
  | pending (bench : Text)
deriving DecidableEq

/-- What a line with the final result comes to, with the lines below it. -/
def finalOutcome (u : UnicodeData) (bench line : Text) (below : List Text) : Outcome :=
  match finalRun u line with
  | some run => .time bench run
  | none =>
    match below with
    | [] => .pending bench
    | next :: _ => ((timeRun u (strip next)).map (Outcome.time bench)).getD .nothing

/-- What the lines below a header come to. -/
def bodyOutcome (u : UnicodeData) (bench : Text) : List Text → Outcome
  | [] => .nothing
  | line :: lines =>
    if isFinal line then finalOutcome u bench line lines else bodyOutcome u bench lines

def outcome (u : UnicodeData) : List Text → Outcome
  | [] => .nothing
  | line :: lines =>
    if isHeader line ∧ headerBench line ≠ [] then bodyOutcome u (headerBench line) lines else .nothing

/-- Digits and dots that are a number. -/
def IsNumber (run : Text) : Prop := run ≠ ".".toList ∧ run.count '.' ≤ 1

instance (run : Text) : Decidable (IsNumber run) := inferInstanceAs (Decidable (_ ∧ _))

/-- The entry a section makes. -/
def entry (u : UnicodeData) (part : List Text) : Option (Text × ℚ) :=
  match outcome u part with
  | .time bench run => (floatOf u run).map (bench, ·)
  | _ => none

/-- The digits and dots in the header of a section. -/
def headerRun (u : UnicodeData) (part : List Text) : Option Text :=
  part.head?.bind fun line => timeRun u (strip line)

/-- What a section that broke off takes from the header of the next one is
what the next one would have put down. -/
structure Harmless (u : UnicodeData) (bench : Text) (next : List Text) : Prop where
  number : ∀ run, headerRun u next = some run → IsNumber run
  entry : (headerRun u next).bind (fun run => (floatOf u run).map (bench, ·)) = entry u next

/-- The condition for a part of a log. -/
structure Separate (u : UnicodeData) (parts : List (List Text)) : Prop where
  number : ∀ part ∈ parts, ∀ bench run, outcome u part = .time bench run → IsNumber run
  pending : ∀ part next, [part, next] <:+: parts → ∀ bench, outcome u part = .pending bench →
    Harmless u bench next

/-! ### Numbers -/

variable {u : UnicodeData}

theorem timeRun_spec {s run : Text} (h : timeRun u s = some run) :
    run ≠ [] ∧ ∀ c ∈ run, (u.decimal c).isSome ∨ c = '.' := by
  obtain ⟨m, hm, hg⟩ := Option.bind_eq_some_iff.mp h
  obtain ⟨a, -, hmatch⟩ := exists_of_search hm
  obtain ⟨k, hk, rfl⟩ := mem_matches_group.mp hmatch
  obtain ⟨hgk, -, hall, hlen⟩ := mem_runMatches.mp (List.mem_reverse.mp hk)
  rw [hgk] at hg
  have hrun : k.taken = run := Option.some.inj hg
  subst hrun
  refine ⟨List.length_pos_iff.mp hlen, fun c hc => ?_⟩
  simpa [isDecimal] using hall c hc

theorem intOf_isSome : ∀ {s : Text}, (intOf u s).isSome ↔ ∀ c ∈ s, (u.decimal c).isSome
  | [] => by simp [intOf]
  | c :: s => by
    have ih : (intOf u s).isSome ↔ ∀ c ∈ s, (u.decimal c).isSome := intOf_isSome
    rw [intOf, Option.isSome_map] at ih ⊢
    rw [List.mapM_cons, List.forall_mem_cons, ← ih]
    cases u.decimal c with
    | none => simp
    | some d => cases s.mapM u.decimal <;> simp

/-- Digits and dots are a number iff there is a digit and at most one dot. -/
theorem floatOf_isSome {run : Text} (hne : run ≠ [])
    (hrun : ∀ c ∈ run, (u.decimal c).isSome ∨ c = '.') : (floatOf u run).isSome ↔ IsNumber run := by
  have hdecimal : u.decimal '.' = none := u.decimal_ascii '.' (by decide)
  obtain ⟨whole, rest, hwhole, hrest⟩ : ∃ whole rest,
      run.takeWhile (· ≠ '.') = whole ∧ run.dropWhile (· ≠ '.') = rest := ⟨_, _, rfl, rfl⟩
  have hsplit : run = whole ++ rest := by rw [← hwhole, ← hrest, List.takeWhile_append_dropWhile]
  have hdot : '.' ∉ whole := fun h => by
    rw [← hwhole] at h
    simpa using List.mem_takeWhile_imp h
  have hcount := List.count_eq_zero_of_not_mem hdot
  -- without its dot the run is a number where it has digits only
  have hdigits : ∀ s, (∀ c ∈ s, c ∈ run) → ((intOf u s).isSome ↔ '.' ∉ s) := by
    intro s hs
    rw [intOf_isSome]
    constructor
    · intro h hmem
      have := h '.' hmem
      rw [hdecimal] at this
      exact Bool.false_ne_true this
    · exact fun h c hc => (hrun c (hs c hc)).resolve_right fun hcd => h (hcd ▸ hc)
  unfold floatOf IsNumber
  simp only [hwhole, hrest]
  cases rest with
  | nil =>
    rw [List.append_nil] at hsplit
    subst hsplit
    rw [List.drop_nil, List.append_nil, if_neg hne, Option.isSome_map, hdigits _ fun c hc => hc, hcount]
    refine iff_of_true hdot ⟨fun h => hdot ?_, Nat.zero_le _⟩
    rw [h]
    exact List.mem_singleton_self _
  | cons d frac =>
    have hd : d = '.' := by
      have := List.head?_dropWhile_not (fun c => decide (c ≠ '.')) run
      rw [hrest] at this
      simpa using this
    subst hd hsplit
    rw [List.drop_one, List.tail_cons, List.count_append, hcount, List.count_cons_self, Nat.zero_add]
    by_cases hnil : whole ++ frac = []
    · rw [if_pos hnil]
      obtain ⟨rfl, rfl⟩ := List.append_eq_nil_iff.mp hnil
      exact iff_of_false Bool.false_ne_true fun h => h.1 rfl
    · have hne' : whole ++ '.' :: frac ≠ ".".toList := fun h => hnil <| by
        have hlen := congrArg List.length h
        simp only [List.length_append, List.length_cons] at hlen
        exact List.length_eq_zero_iff.mp (by rw [List.length_append]; simp at hlen; omega)
      rw [if_neg hnil, Option.isSome_map, hdigits, List.mem_append, or_iff_right hdot,
        and_iff_right hne', Nat.succ_le_succ_iff, Nat.le_zero, List.count_eq_zero]
      intro c hc
      rw [List.mem_append] at hc ⊢
      exact hc.imp_right (List.mem_cons_of_mem _)

/-! ### One section -/

/-- The state with a time put down. -/
def stored (u : UnicodeData) (d : Dict Text ℚ) (bench run : Text) : Option LogState :=
  (floatOf u run).map fun t => ⟨d.insert bench t, none, false⟩

/-- What a part of a log leaves, by its outcome. -/
def Leaves (u : UnicodeData) (d : Dict Text ℚ) : Outcome → Option LogState → Prop
  | .nothing, r => ∃ currentBench, r = some ⟨d, currentBench, false⟩
  | .time bench run, r => r = stored u d bench run
  | .pending bench, r => bench ≠ [] ∧ r = some ⟨d, some bench, true⟩

/-- Without a benchmark only a header changes the state. -/
theorem foldlM_idle {s : LogState} (hs : s.bench = none) : ∀ {lines : List Text},
    (∀ line ∈ lines, isHeader line = false) → lines.foldlM (parseLogLine u) s = some s
  | [], _ => rfl
  | line :: lines, h => by
    have hline : parseLogLine u s line = some s := by
      unfold parseLogLine
      rw [hs, h line List.mem_cons_self]
      cases s.grabNext <;> cases isFinal line <;> rfl
    rw [List.foldlM_cons, hline]
    exact foldlM_idle hs fun l hl => h l (List.mem_cons_of_mem _ hl)

/-- Nor do other lines once the time is put down. -/
theorem bind_stored (d : Dict Text ℚ) (bench run : Text) {lines : List Text}
    (h : ∀ line ∈ lines, isHeader line = false) :
    (stored u d bench run).bind (fun s => lines.foldlM (parseLogLine u) s) = stored u d bench run := by
  unfold stored
  cases floatOf u run with
  | none => rfl
  | some t => exact foldlM_idle rfl h

theorem parseLogLine_next (d : Dict Text ℚ) {bench : Text} (hbench : bench ≠ []) (line : Text) :
    parseLogLine u ⟨d, some bench, true⟩ line =
      ((timeRun u (strip line)).map (stored u d bench)).getD (some ⟨d, none, false⟩) := by
  have htrue : LogState.bench ⟨d, some bench, true⟩ = some bench := by simp [LogState.bench, hbench]
  rw [parseLogLine, htrue]
  cases timeRun u (strip line) <;> rfl

/-- The line after the final result is read whatever it is; what follows is
skipped. -/
theorem foldlM_next (d : Dict Text ℚ) {bench : Text} (hbench : bench ≠ []) (line : Text)
    {lines : List Text} (h : ∀ line ∈ lines, isHeader line = false) :
    (line :: lines).foldlM (parseLogLine u) ⟨d, some bench, true⟩ =
      ((timeRun u (strip line)).map (stored u d bench)).getD (some ⟨d, none, false⟩) := by
  rw [List.foldlM_cons, parseLogLine_next d hbench]
  cases timeRun u (strip line) with
  | none => exact foldlM_idle rfl h
  | some run => exact bind_stored d bench run h

theorem parseLogLine_body (d : Dict Text ℚ) {bench : Text} (hbench : bench ≠ []) {line : Text}
    (h : isHeader line = false) : parseLogLine u ⟨d, some bench, false⟩ line =
      if isFinal line then
        ((finalRun u line).map (stored u d bench)).getD (some ⟨d, some bench, true⟩)
      else some ⟨d, some bench, false⟩ := by
  have htrue : LogState.bench ⟨d, some bench, false⟩ = some bench := by simp [LogState.bench, hbench]
  rw [parseLogLine, htrue, h]
  cases isFinal line with
  | false => rfl
  | true => cases finalRun u line <;> rfl

theorem leaves_body (d : Dict Text ℚ) {bench : Text} (hbench : bench ≠ []) : ∀ {lines : List Text},
    (∀ line ∈ lines, isHeader line = false) →
      Leaves u d (bodyOutcome u bench lines) (lines.foldlM (parseLogLine u) ⟨d, some bench, false⟩)
  | [], _ => ⟨_, rfl⟩
  | line :: lines, h => by
    have hlines : ∀ line ∈ lines, isHeader line = false := fun l hl => h l (List.mem_cons_of_mem _ hl)
    rw [List.foldlM_cons, parseLogLine_body d hbench (h line List.mem_cons_self), bodyOutcome]
    by_cases hfinal : isFinal line = true
    · rw [if_pos hfinal, if_pos hfinal]
      unfold finalOutcome
      cases finalRun u line with
      | some run => exact bind_stored d bench run hlines
      | none =>
        cases lines with
        | nil => exact ⟨hbench, rfl⟩
        | cons next rest =>
          have hrest := foldlM_next (u := u) d hbench next fun l hl => hlines l (List.mem_cons_of_mem _ hl)
          show Leaves u d (((timeRun u (strip next)).map (Outcome.time bench)).getD .nothing)
            ((next :: rest).foldlM (parseLogLine u) ⟨d, some bench, true⟩)
          rw [hrest]
          cases timeRun u (strip next) with
          | none => exact ⟨none, rfl⟩
          | some run => exact rfl
    · rw [if_neg hfinal, if_neg hfinal]
      exact leaves_body d hbench hlines

/-- A section starts with its header, the lines below are no headers. -/
theorem leaves_section {s : LogState} (hs : s.grabNext = false) {line : Text} (hline : isHeader line = true)
    {lines : List Text} (h : ∀ line ∈ lines, isHeader line = false) :
    Leaves u s.results (outcome u (line :: lines)) ((line :: lines).foldlM (parseLogLine u) s) := by
  have hstep : parseLogLine u s line = some ⟨s.results, some (headerBench line), false⟩ := by
    rw [parseLogLine, hs, hline]
    rfl
  rw [List.foldlM_cons, hstep, outcome]
  by_cases hbench : headerBench line = []
  · have hnone : LogState.bench ⟨s.results, some (headerBench line), false⟩ = none := by
      simp [LogState.bench, hbench]
    rw [if_neg fun hl => hl.2 hbench]
    exact ⟨_, foldlM_idle hnone h⟩
  · rw [if_pos ⟨hline, hbench⟩]
    exact leaves_body s.results hbench h

/-! ### Sections in a row -/

/-- What the cut at the headers makes: every part has a line, and a header
starts a part. -/
structure Cut (parts : List (List Text)) : Prop where
  lines : ∀ part ∈ parts, ∃ line lines, part = line :: lines ∧ ∀ l ∈ lines, isHeader l = false
  headers : parts.IsChain fun _ part => ∀ line ∈ part.head?, isHeader line = true

theorem cut_sections (log : Text) : Cut (sections log) where
  lines part hpart := by
    have hchain := List.isChain_of_mem_splitBy hpart
    obtain ⟨line, lines, rfl⟩ := List.exists_cons_of_ne_nil (List.ne_nil_of_mem_splitBy hpart)
    refine ⟨line, lines, rfl, ?_⟩
    clear hpart
    induction lines generalizing line with
    | nil => exact fun _ h => absurd h List.not_mem_nil
    | cons next lines ih =>
      rw [List.isChain_cons_cons] at hchain
      rw [List.forall_mem_cons]
      exact ⟨by simpa using hchain.1, ih next hchain.2⟩
  headers := by
    refine (List.isChain_getLast_head_splitBy _ (fileLines log)).imp ?_
    rintro a b ⟨ha, hb, h⟩ line hline
    obtain ⟨c, cs, rfl⟩ := List.exists_cons_of_ne_nil hb
    obtain rfl : c = line := by simpa using hline
    simpa using h

theorem flatten_sections (log : Text) : (sections log).flatten = fileLines log := List.flatten_splitBy _ _

/-- The sections in a row are the log. -/
theorem parseLog_eq (log : Text) : parseLog u log = parseLines u (sections log).flatten := by
  rw [flatten_sections, parseLog]

/-- A part of a log is a log of its own. -/
theorem parseLog_unlines {log : Text} {part : List Text} (h : part ∈ sections log) :
    parseLog u (unlines '\n' part) = parseLines u part := by
  have hlines : ∀ line ∈ part, '\n' ∉ line ∧ '\r' ∉ line := fun line hline =>
    notMem_of_mem_fileLines (flatten_sections log ▸ List.mem_flatten.mpr ⟨part, h, hline⟩)
  rw [parseLog, fileLines_unlines hlines]

theorem Cut.ofInfix {parts part : List (List Text)} (h : Cut parts) (hpart : part <:+: parts) : Cut part where
  lines p hp := h.lines p (hpart.subset hp)
  headers := h.headers.infix hpart

theorem Separate.ofInfix {parts part : List (List Text)} (h : Separate u parts) (hpart : part <:+: parts) :
    Separate u part where
  number p hp := h.number p (hpart.subset hp)
  pending p next hin := h.pending p next (hin.trans hpart)

/-- The digits and dots of a time were found in some line. -/
theorem exists_of_bodyOutcome {bench bench' run : Text} : ∀ {lines : List Text},
    bodyOutcome u bench lines = .time bench' run → ∃ s, timeRun u s = some run
  | line :: lines, h => by
    rw [bodyOutcome] at h
    split at h
    · unfold finalOutcome at h
      split at h
      · next hrun =>
        cases h
        exact ⟨_, hrun⟩
      · cases lines with
        | nil => cases h
        | cons next lines =>
          cases hrun : timeRun u (strip next) with
          | none =>
            simp only [hrun] at h
            cases h
          | some run' =>
            simp only [hrun] at h
            cases h
            exact ⟨_, hrun⟩
    · exact exists_of_bodyOutcome h

theorem exists_of_outcome {part : List Text} {bench run : Text} (h : outcome u part = .time bench run) :
    ∃ s, timeRun u s = some run := by
  cases part with
  | nil => cases h
  | cons line lines =>
    rw [outcome] at h
    split at h
    · exact exists_of_bodyOutcome h
    · cases h

/-- A number found in a line is put down. -/
theorem exists_stored {s run : Text} (h : timeRun u s = some run) (hnum : IsNumber run) (d : Dict Text ℚ)
    (bench : Text) : ∃ t, floatOf u run = some t ∧
      stored u d bench run = some ⟨d.insert bench t, none, false⟩ := by
  obtain ⟨hne, hall⟩ := timeRun_spec h
  obtain ⟨t, ht⟩ := Option.isSome_iff_exists.mp ((floatOf_isSome hne hall).mpr hnum)
  exact ⟨t, ht, by rw [stored, ht]; rfl⟩

/-- A run of the loop that only adds the entries of its parts. -/
def Reads (u : UnicodeData) (parts : List (List Text)) (s : LogState) : Prop :=
  ∃ s', parts.flatten.foldlM (parseLogLine u) s = some s' ∧
    s'.results = s.results.update (parts.filterMap (entry u))

/-- What one part leaves, the next parts start from. -/
theorem Reads.cons {part : List Text} {parts : List (List Text)} {s s₁ : LogState}
    (hpart : part.foldlM (parseLogLine u) s = some s₁)
    (hentry : s₁.results = s.results.update (entry u part).toList) (h : Reads u parts s₁) :
    Reads u (part :: parts) s := by
  obtain ⟨s', hs', hres⟩ := h
  refine ⟨s', ?_, ?_⟩
  · rw [List.flatten_cons, List.foldlM_append, hpart]
    exact hs'
  · rw [hres, hentry, ← Dict.update_append]
    cases he : entry u part with
    | none => rw [List.filterMap_cons_none he]; rfl
    | some e => rw [List.filterMap_cons_some he]; rfl

theorem isHeader_next {part : List Text} {parts : List (List Text)} (hcut : Cut (part :: parts)) :
    ∀ next ∈ parts.head?, ∀ line ∈ next.head?, isHeader line = true := by
  intro next hnext
  obtain ⟨parts', rfl⟩ : ∃ parts', parts = next :: parts' := List.head?_eq_some_iff.mp hnext
  exact (List.isChain_cons_cons.mp hcut.headers).1

section Parts

variable {part : List Text} {parts : List (List Text)}

/-- A section adds its entry, or breaks off and leaves the next one to its
header. -/
theorem reads_section (hcut : Cut (part :: parts)) (hsep : Separate u (part :: parts)) {s : LogState}
    (hgrab : s.grabNext = false) (hpart : ∀ line ∈ part.head?, isHeader line = true)
    (hfresh : ∀ s : LogState, s.grabNext = false → Reads u parts s)
    (hpending : ∀ (d : Dict Text ℚ) (bench : Text), bench ≠ [] →
      (∀ part ∈ parts.head?, Harmless u bench part) → Reads u parts ⟨d, some bench, true⟩) :
    Reads u (part :: parts) s := by
  obtain ⟨line, lines, rfl, hlines⟩ := hcut.lines part List.mem_cons_self
  have hleaves := leaves_section (u := u) hgrab (hpart line rfl) hlines
  cases hout : outcome u (line :: lines) with
  | nothing =>
    rw [hout] at hleaves
    obtain ⟨c, hc⟩ := hleaves
    have hentry : entry u (line :: lines) = none := by rw [entry, hout]
    exact .cons hc (by rw [hentry]; rfl) (hfresh _ rfl)
  | time bench run =>
    rw [hout] at hleaves
    obtain ⟨text, hrun⟩ := exists_of_outcome hout
    obtain ⟨t, ht, hstored⟩ :=
      exists_stored hrun (hsep.number _ List.mem_cons_self bench run hout) s.results bench
    have hentry : entry u (line :: lines) = some (bench, t) := by
      rw [entry, hout]
      exact congrArg (Option.map (bench, ·)) ht
    exact .cons (hleaves.trans hstored) (by rw [hentry]; rfl) (hfresh _ rfl)
  | pending bench =>
    rw [hout] at hleaves
    have hentry : entry u (line :: lines) = none := by rw [entry, hout]
    refine .cons hleaves.2 (by rw [hentry]; rfl) (hpending s.results bench hleaves.1 fun next hn => ?_)
    obtain ⟨parts', rfl⟩ : ∃ parts', parts = next :: parts' := List.head?_eq_some_iff.mp hn
    exact hsep.pending _ next (List.prefix_append [line :: lines, next] parts').isInfix bench hout

/-- Lines before the first header add nothing. -/
theorem reads_idle (hcut : Cut (part :: parts)) {s : LogState} (hs : s.bench = none)
    (hpart : ¬ ∀ line ∈ part.head?, isHeader line = true) (hrest : Reads u parts s) :
    Reads u (part :: parts) s := by
  obtain ⟨line, lines, rfl, hlines⟩ := hcut.lines part List.mem_cons_self
  have hline : ¬ isHeader line = true := fun h => hpart fun l hl => by
    obtain rfl : line = l := Option.some.inj hl
    exact h
  have hidle : ∀ l ∈ line :: lines, isHeader l = false := by
    rw [List.forall_mem_cons]
    exact ⟨Bool.eq_false_iff.mpr hline, hlines⟩
  have hentry : entry u (line :: lines) = none := by
    rw [entry, outcome, if_neg fun h => hline h.1]
  exact .cons (foldlM_idle hs hidle) (by rw [hentry]; rfl) hrest

/-- After a section that broke off, the header stands for the next one's
entry. -/
theorem reads_pending (hcut : Cut (part :: parts)) (d : Dict Text ℚ) {bench : Text} (hbench : bench ≠ [])
    (hharm : Harmless u bench part) (hfresh : ∀ s : LogState, s.grabNext = false → s.bench = none →
      Reads u parts s) : Reads u (part :: parts) ⟨d, some bench, true⟩ := by
  obtain ⟨line, lines, rfl, hlines⟩ := hcut.lines part List.mem_cons_self
  have hnext := foldlM_next (u := u) d hbench line hlines
  obtain ⟨hnumber, hentry⟩ := hharm
  have hrun : headerRun u (line :: lines) = timeRun u (strip line) := rfl
  rw [hrun] at hnumber hentry
  cases hr : timeRun u (strip line) with
  | none =>
    rw [hr] at hnext hentry
    exact .cons hnext (by rw [← hentry]; rfl) (hfresh _ rfl rfl)
  | some run =>
    obtain ⟨t, ht, hstored⟩ := exists_stored hr (hnumber run hr) d bench
    rw [hr] at hnext hentry
    have hentry' : entry u (line :: lines) = some (bench, t) := by
      rw [← hentry, Option.bind_some, ht]
      rfl
    exact .cons (hnext.trans hstored) (by rw [hentry']; rfl) (hfresh _ rfl rfl)

end Parts

/-- Where no part spoils the next one, every part adds its entry, after a
part that broke off too. -/
theorem reads_of_separate : ∀ {parts : List (List Text)}, Cut parts → Separate u parts →
    (∀ s : LogState, s.grabNext = false →
      (s.bench = none ∨ ∀ part ∈ parts.head?, ∀ line ∈ part.head?, isHeader line = true) →
      Reads u parts s) ∧
    ∀ (d : Dict Text ℚ) (bench : Text), bench ≠ [] → (∀ part ∈ parts.head?, Harmless u bench part) →
      Reads u parts ⟨d, some bench, true⟩
  | [], _, _ => ⟨fun s _ _ => ⟨s, rfl, rfl⟩, fun d bench _ _ => ⟨⟨d, some bench, true⟩, rfl, rfl⟩⟩
  | part :: parts, hcut, hsep => by
    have hrest : parts <:+: part :: parts := (List.suffix_cons part parts).isInfix
    have ih := reads_of_separate (hcut.ofInfix hrest) (hsep.ofInfix hrest)
    constructor
    · intro s hgrab hstart
      by_cases hpart : ∀ line ∈ part.head?, isHeader line = true
      · exact reads_section hcut hsep hgrab hpart
          (fun s hs => ih.1 s hs (.inr (isHeader_next hcut))) ih.2
      · have hbench : s.bench = none := hstart.resolve_right fun h => hpart (h part rfl)
        exact reads_idle hcut hbench hpart (ih.1 s hgrab (.inl hbench))
    · intro d bench hbench hharm
      exact reads_pending hcut d hbench (hharm part rfl) fun s hs hnone => ih.1 s hs (.inl hnone)

/-! ### Independence -/

theorem items_ofList_toList (e : Option (Text × ℚ)) : (Dict.ofList e.toList).items = e.toList := by
  cases e <;> rfl

theorem ofList_toList_inj {e e' : Option (Text × ℚ)}
    (h : ∀ bench, (Dict.ofList e.toList).get? bench = (Dict.ofList e'.toList).get? bench) : e = e' := by
  refine Option.ext fun x => ?_
  have hmem : ∀ o : Option (Text × ℚ), o = some x ↔ (Dict.ofList o.toList).get? x.1 = some x.2 := fun o => by
    rw [Dict.get?_eq_some, items_ofList_toList, Option.mem_toList]
  rw [hmem, hmem, h]

/-- The union of single entries. -/
theorem union_entries (parts : List (List Text)) :
    union (parts.map fun part => Dict.ofList (entry u part).toList) =
      Dict.ofList (parts.filterMap (entry u)) := by
  have hfold : ∀ (parts : List (List Text)) (d : Dict Text ℚ),
      (parts.map fun part => Dict.ofList (entry u part).toList).foldl (fun d e => d.update e.items) d =
        d.update (parts.filterMap (entry u)) := by
    intro parts
    induction parts with
    | nil => exact fun _ => rfl
    | cons part parts ih =>
      intro d
      rw [List.map_cons, List.foldl_cons, ih, items_ofList_toList, ← Dict.update_append]
      cases he : entry u part with
      | none => rw [List.filterMap_cons_none he]; rfl
      | some e => rw [List.filterMap_cons_some he]; rfl
  exact hfold parts .empty

theorem parseLines_of_separate {parts : List (List Text)} (hcut : Cut parts) (hsep : Separate u parts) :
    parseLines u parts.flatten = some (Dict.ofList (parts.filterMap (entry u))) := by
  obtain ⟨s, hs, hres⟩ := (reads_of_separate hcut hsep).1 ⟨.empty, none, false⟩ rfl (.inl rfl)
  rw [parseLines, hs, Option.map_some, hres]
  rfl

theorem independent_of_separate {parts : List (List Text)} (hcut : Cut parts) (hsep : Separate u parts) :
    Independent u parts := by
  refine ⟨_, parseLines_of_separate hcut hsep, _, mapM_eq_some (g := fun part =>
    Dict.ofList (entry u part).toList) fun part hpart => ?_, fun bench => by rw [union_entries]⟩
  have hin : [part] <:+: parts := by
    obtain ⟨a, b, rfl⟩ := List.append_of_mem hpart
    exact ⟨a, b, by simp⟩
  have hone := parseLines_of_separate (hcut.ofInfix hin) (hsep.ofInfix hin)
  rw [List.flatten_singleton] at hone
  rw [hone]
  cases he : entry u part with
  | none => rw [List.filterMap_cons_none he]; rfl
  | some e => rw [List.filterMap_cons_some he]; rfl

/-- What is read from a section on its own. -/
theorem parseLines_section {line : Text} (hline : isHeader line = true) {lines : List Text}
    (hlines : ∀ l ∈ lines, isHeader l = false) {d : Dict Text ℚ}
    (h : parseLines u (line :: lines) = some d) : d = Dict.ofList (entry u (line :: lines)).toList := by
  have hleaves := leaves_section (u := u) (s := ⟨.empty, none, false⟩) rfl hline hlines
  obtain ⟨s, hs, rfl⟩ := Option.map_eq_some_iff.mp h
  rw [hs] at hleaves
  rw [entry]
  cases hout : outcome u (line :: lines) with
  | nothing =>
    rw [hout] at hleaves
    obtain ⟨c, hc⟩ := hleaves
    rw [Option.some.inj hc]
    rfl
  | time bench run =>
    rw [hout] at hleaves
    obtain ⟨t, ht, hst⟩ := Option.map_eq_some_iff.mp (Eq.symm hleaves)
    rw [← hst]
    show _ = Dict.ofList ((floatOf u run).map (bench, ·)).toList
    rw [ht]
    rfl
  | pending bench =>
    rw [hout] at hleaves
    rw [Option.some.inj hleaves.2]
    rfl

theorem isHeader_of_outcome {line : Text} {lines : List Text} (h : outcome u (line :: lines) ≠ .nothing) :
    isHeader line = true := by
  rw [outcome] at h
  by_contra hline
  exact h (if_neg fun hc => hline hc.1)

theorem isNumber_of_total {s run bench : Text} {d : Dict Text ℚ} (hrun : timeRun u s = some run)
    (h : (stored u d bench run).isSome) : IsNumber run := by
  obtain ⟨hne, hall⟩ := timeRun_spec hrun
  rw [stored, Option.isSome_map] at h
  exact (floatOf_isSome hne hall).mp h

/-- A section that is read alone has a number for its time. -/
theorem number_of_independent {part : List Text} (hcut : Cut [part]) (h : Independent u [part])
    {bench run : Text} (hout : outcome u part = .time bench run) : IsNumber run := by
  obtain ⟨d, hd, -⟩ := h
  obtain ⟨line, lines, rfl, hlines⟩ := hcut.lines part List.mem_cons_self
  have hline : isHeader line = true := isHeader_of_outcome (u := u) (by rw [hout]; nofun)
  have hleaves := leaves_section (u := u) (s := ⟨.empty, none, false⟩) rfl hline hlines
  rw [hout] at hleaves
  obtain ⟨s, hs, -⟩ := Option.map_eq_some_iff.mp hd
  rw [List.flatten_singleton, hleaves] at hs
  obtain ⟨text, hrun⟩ := exists_of_outcome hout
  exact isNumber_of_total hrun (Option.isSome_of_eq_some hs)

/-- Two sections that are read independently: the first does not spoil the
second. -/
theorem harmless_of_independent {part next : List Text} (hcut : Cut [part, next])
    (h : Independent u [part, next]) {bench : Text} (hout : outcome u part = .pending bench) :
    Harmless u bench next := by
  obtain ⟨d, hd, ds, hds, hunion⟩ := h
  obtain ⟨line, lines, rfl, hlines⟩ := hcut.lines part List.mem_cons_self
  obtain ⟨line', lines', rfl, hlines'⟩ := hcut.lines next (List.mem_cons_of_mem _ List.mem_cons_self)
  have hline : isHeader line = true := isHeader_of_outcome (u := u) (by rw [hout]; nofun)
  have hline' : isHeader line' = true := (List.isChain_cons_cons.mp hcut.headers).1 line' rfl
  have hleaves := leaves_section (u := u) (s := ⟨.empty, none, false⟩) rfl hline hlines
  rw [hout] at hleaves
  obtain ⟨hbench, hpart⟩ := hleaves
  -- on its own the first has no entry, the second its entry
  obtain ⟨d₁, d₂, hd₁, hd₂, rfl⟩ : ∃ d₁ d₂, parseLines u (line :: lines) = some d₁ ∧
      parseLines u (line' :: lines') = some d₂ ∧ ds = [d₁, d₂] := by
    obtain ⟨d₁, ds₁, h₁, htail, rfl⟩ := List.forall₂_cons_left_iff.mp (mapM_eq_some_iff.mp hds)
    obtain ⟨d₂, ds₂, h₂, hnil, rfl⟩ := List.forall₂_cons_left_iff.mp htail
    obtain rfl := List.forall₂_nil_left_iff.mp hnil
    exact ⟨d₁, d₂, h₁, h₂, rfl⟩
  have h₁ : d₁ = .empty := by
    rw [parseLines, hpart] at hd₁
    exact (Option.some.inj hd₁).symm
  have h₂ := parseLines_section hline' hlines' hd₂
  have hds : union [d₁, d₂] = Dict.ofList (entry u (line' :: lines')).toList := by
    rw [h₁, h₂]
    show Dict.ofList (Dict.ofList _).items = _
    rw [items_ofList_toList]
  -- together the second's header is read as the time of the first
  have hnext := foldlM_next (u := u) .empty hbench line' hlines'
  have hboth : [line :: lines, line' :: lines'].flatten.foldlM (parseLogLine u) ⟨.empty, none, false⟩ =
      (line' :: lines').foldlM (parseLogLine u) ⟨.empty, some bench, true⟩ := by
    rw [List.flatten_cons, List.flatten_singleton, List.foldlM_append, hpart]
    rfl
  obtain ⟨s, hs, hres⟩ := Option.map_eq_some_iff.mp hd
  rw [hboth, hnext] at hs
  have hrun : headerRun u (line' :: lines') = timeRun u (strip line') := rfl
  have hinj : ∀ e : Option (Text × ℚ), d = Dict.ofList e.toList → e = entry u (line' :: lines') :=
    fun e he => ofList_toList_inj fun b => by rw [← he, hunion, hds]
  constructor
  · intro run hr
    rw [hrun] at hr
    rw [hr] at hs
    exact isNumber_of_total hr (Option.isSome_of_eq_some hs)
  · rw [hrun]
    apply hinj
    cases hr : timeRun u (strip line') with
    | none =>
      rw [hr] at hs
      rw [← hres, ← Option.some.inj hs]
      rfl
    | some run =>
      rw [hr] at hs
      obtain ⟨t, ht, hst⟩ := Option.map_eq_some_iff.mp hs
      rw [← hres, ← hst, Option.bind_some, ht]
      rfl

/-- **Main result.** Every run of sections of a log is read section by
section, without an exception, iff all the times read are numbers and no
section ends where its time was to come, except before a header that stands
for the next section's own entry. -/
theorem independent_iff (u : UnicodeData) (log : Text) :
    (∀ parts, parts <:+: sections log → Independent u parts) ↔ Separate u (sections log) := by
  have hcut := cut_sections log
  constructor
  · intro h
    constructor
    · intro part hpart bench run hout
      obtain ⟨a, b, hab⟩ := List.append_of_mem hpart
      have hin : [part] <:+: sections log := ⟨a, b, by rw [hab]; simp⟩
      exact number_of_independent (hcut.ofInfix hin) (h _ hin) hout
    · intro part next hin bench hout
      exact harmless_of_independent (hcut.ofInfix hin) (h _ hin) hout
  · exact fun hsep parts hin => independent_of_separate (hcut.ofInfix hin) (hsep.ofInfix hin)

/-- A log with a time that never came. -/
def brokenOff : Text := ("-> mibench/automotive/qsort-small\n# Final result:\n" ++
  "-> mibench/automotive/qsort-large\n# Final result:\n2.5 seconds\n").toList

/-- The second of two sections is lost where the first breaks off, and dots
alone are no number. -/
theorem brokenOff_loses :
    ¬ Independent asciiData (sections brokenOff) ∧
    parseLog asciiData "-> mibench/automotive/qsort-small\n# Final result: ...\n".toList = none := by
  refine ⟨?_, by decide +kernel⟩
  rintro ⟨d, hd, ds, hds, h⟩
  have hnone : d = .empty := by
    have hread : parseLines asciiData (sections brokenOff).flatten =
        some .empty := by decide +kernel
    rw [hread] at hd
    exact (Option.some.inj hd).symm
  have hboth : ds = [.empty, Dict.ofList [("qsort-large".toList, 5 / 2)]] := by
    have hread : (sections brokenOff).mapM
        (parseLines asciiData) = some [.empty, Dict.ofList [("qsort-large".toList, 5 / 2)]] := by
      decide +kernel
    rw [hread] at hds
    exact (Option.some.inj hds).symm
  subst hnone hboth
  have hlost := h "qsort-large".toList
  revert hlost
  decide +kernel

end MacroLogs
end Scripts
end DaatMcs
