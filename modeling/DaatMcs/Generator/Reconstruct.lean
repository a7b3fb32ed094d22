/-
# Replacing the VMs of a configuration

`reconstruct_full_config` takes as the end of the list of VMs the first line
after its opening brace that starts with `},`, not the brace that closes it:
that is the end of a group within the first VM, while the list itself ends
with `}` alone. What is put in place of the VMs is read back (`extract_spliced`),
since that end closes the list then, but the rest of the old VMs stays behind
it. So the replacement does what it is for only where it does nothing
(`replaced_iff`).
-/
import DaatMcs.Generator.VmBlocks

namespace DaatMcs
namespace TestEngine

open Brackets Literal Regex

/-! ### The replacement -/

/-- `\n\s*\},\n*`. -/
def endPattern : Pattern := .concat
  [.lit "\n".toList, .greedy isSpace 0, .lit "\x7d,".toList, .greedy (fun c => c = '\n') 0]

/-- `vmlist_regex`; with `re.DOTALL` the dot takes every character. -/
def vmlistRegex : Pattern :=
  .seq (.group "1" vmlistPattern) (.seq (.group "2" (.lazy (fun _ => true) 0)) (.group "3" endPattern))

def reconstructFullConfig (configVal : Text) (mitigatedVmConfigs : List Text) : Text :=
  match vmlistRegex.search configVal with
  | none => configVal
  | some vmlistMatch =>
    let start := configVal.length - (vmlistMatch.taken ++ vmlistMatch.rest).length
    let pre := (vmlistMatch.group? "1").getD []
    let suffix := (vmlistMatch.group? "3").getD []
    let body := join "\n\n".toList mitigatedVmConfigs
    configVal.take start ++ pre ++ "\n".toList ++ body ++ suffix ++ vmlistMatch.rest

/-! ### What it is for -/

/-- The text up to the opening brace of the list, and the text behind the brace
that closes it. -/
def outsideVmlist (configVal : Text) : Option (Text × Text) :=
  (vmlistPattern.search configVal).map fun m =>
    (configVal.take (configVal.length - m.rest.length), m.rest.drop (upToClose brace 1 m.rest).length)

/-- The list has the blocks, and around it nothing has changed. -/
structure Replaced (configVal newConfig : Text) (blocks : List Text) : Prop where
  blocks : extractVmConfigsFromFile newConfig = some blocks
  outside : outsideVmlist newConfig = outsideVmlist configVal

/-! ### Lines that close a group -/

/-- `},` after white space. -/
def startsClosing : Text → Bool
  | [] => false
  | c :: cs => if isSpace c then startsClosing cs else "\x7d,".toList.isPrefixOf (c :: cs)

/-- A line but the first that starts so. -/
def closingLine : Text → Bool
  | [] => false
  | c :: cs => (c = '\n' && startsClosing cs) || closingLine cs

theorem startsClosing_iff : ∀ {s : Text}, startsClosing s ↔
    ∃ gap t, s = gap ++ ("\x7d,".toList ++ t) ∧ ∀ c ∈ gap, isSpace c = true
  | [] => by
    simp [startsClosing]
  | c :: cs => by
    rw [startsClosing]
    split
    · next hc =>
      rw [startsClosing_iff]
      constructor
      · rintro ⟨gap, t, rfl, hgap⟩
        exact ⟨c :: gap, t, rfl, List.forall_mem_cons.mpr ⟨hc, hgap⟩⟩
      · rintro ⟨gap, t, heq, hgap⟩
        cases gap with
        | nil =>
          obtain rfl : c = '\x7d' := (List.cons.inj heq).1
          exact absurd hc (by decide)
        | cons d gap =>
          obtain ⟨rfl, rfl⟩ := List.cons.inj heq
          exact ⟨gap, t, rfl, (List.forall_mem_cons.mp hgap).2⟩
    · next hc =>
      rw [List.isPrefixOf_iff_prefix]
      constructor
      · rintro ⟨t, ht⟩
        exact ⟨[], t, ht.symm, fun _ h => absurd h List.not_mem_nil⟩
      · rintro ⟨gap, t, heq, hgap⟩
        cases gap with
        | nil => exact ⟨t, heq.symm⟩
        | cons d gap =>
          obtain ⟨rfl, -⟩ := List.cons.inj heq
          exact absurd (hgap c List.mem_cons_self) hc

theorem closingLine_iff : ∀ {s : Text}, closingLine s ↔ ∃ x t, s = x ++ '\n' :: t ∧ startsClosing t
  | [] => by
    simp [closingLine]
  | c :: cs => by
    rw [closingLine, Bool.or_eq_true, Bool.and_eq_true, decide_eq_true_eq, closingLine_iff]
    constructor
    · rintro (⟨rfl, h⟩ | ⟨x, t, rfl, h⟩)
      · exact ⟨[], cs, rfl, h⟩
      · exact ⟨c :: x, t, rfl, h⟩
    · rintro ⟨x, t, heq, h⟩
      cases x with
      | nil =>
        obtain ⟨rfl, rfl⟩ := List.cons.inj heq
        exact .inl ⟨rfl, h⟩
      | cons d x =>
        obtain ⟨rfl, rfl⟩ := List.cons.inj heq
        exact .inr ⟨x, t, rfl, h⟩

/-- What is on the first line makes no difference. -/
theorem closingLine_append_left {w : Text} (hw : '\n' ∉ w) (s : Text) : closingLine (w ++ s) = closingLine s := by
  induction w with
  | nil => rfl
  | cons c w ih =>
    rw [List.mem_cons, not_or] at hw
    rw [List.cons_append, closingLine, ih hw.2, decide_eq_false (Ne.symm hw.1), Bool.false_and, Bool.false_or]

theorem closingLine_suffix {a s : Text} (ha : a <:+ s) (h : closingLine a) : closingLine s := by
  obtain ⟨w, rfl⟩ := ha
  obtain ⟨x, t, rfl, ht⟩ := closingLine_iff.mp h
  exact closingLine_iff.mpr ⟨w ++ x, t, by rw [List.append_assoc], ht⟩

/-! ### What the expression matches -/

theorem mem_endPattern {s : Text} {m : Match} (h : m ∈ endPattern.matches s) :
    m.groups = [] ∧ ∃ gap t, m.taken = '\n' :: gap ++ ("\x7d,".toList ++ t) ∧
      (∀ c ∈ gap, isSpace c = true) ∧ m.taken ++ m.rest = s := by
  have hcut := taken_append_rest h
  obtain ⟨a, ha, b, hb, rfl⟩ := mem_matches_seq.mp h
  obtain ⟨c, hc, d, hd, rfl⟩ := mem_matches_seq.mp hb
  obtain ⟨e, he, f, hf, rfl⟩ := mem_matches_seq.mp hd
  obtain ⟨g, hg, k, hk, rfl⟩ := mem_matches_seq.mp hf
  obtain ⟨hag, hat, -⟩ := mem_matches_lit.mp ha
  obtain ⟨hcg, -, hgap, -⟩ := mem_runMatches.mp (List.mem_reverse.mp hc)
  obtain ⟨heg, het, -⟩ := mem_matches_lit.mp he
  obtain ⟨hgg, -, -, -⟩ := mem_runMatches.mp (List.mem_reverse.mp hg)
  obtain ⟨hkg, hkt, -⟩ := mem_matches_lit.mp hk
  refine ⟨by simp [Match.append, hag, hcg, heg, hgg, hkg], c.taken, g.taken ++ k.taken, ?_, hgap, hcut⟩
  simp only [Match.append, hat, het]
  rfl

theorem exists_endPattern {t : Text} (h : startsClosing t) : ∃ m, m ∈ endPattern.matches ('\n' :: t) := by
  obtain ⟨gap, u, rfl, hgap⟩ := startsClosing_iff.mp h
  refine ⟨_, mem_matches_seq.mpr ⟨⟨[], "\n".toList, _⟩, mem_matches_lit.mpr ⟨rfl, rfl, rfl⟩, _,
    mem_matches_seq.mpr ⟨⟨[], gap, _⟩, List.mem_reverse.mpr (mem_runMatches.mpr ⟨rfl, rfl, hgap, Nat.zero_le _⟩),
      _, mem_matches_seq.mpr ⟨⟨[], "\x7d,".toList, u⟩, mem_matches_lit.mpr ⟨rfl, rfl, rfl⟩, _,
        mem_matches_seq.mpr ⟨⟨[], [], u⟩, List.mem_reverse.mpr (mem_runMatches.mpr ⟨rfl, rfl,
          fun _ h => absurd h List.not_mem_nil, Nat.zero_le _⟩), ⟨[], [], u⟩,
          mem_matches_lit.mpr ⟨rfl, rfl, rfl⟩, rfl⟩, rfl⟩, rfl⟩, rfl⟩⟩

theorem matches_vmlistPattern (rest : Text) : vmlistPattern.matches (".vmlist = \x7b".toList ++ rest) =
    [⟨[], ".vmlist = \x7b".toList, rest⟩] := by
  have hopen : ∀ c ∈ ('\x7b' :: rest).head?, isSpace c = false := by
    rintro c ⟨⟩
    decide
  have hequals : ∀ c ∈ ('=' :: ' ' :: '\x7b' :: rest).head?, isSpace c = false := by
    rintro c ⟨⟩
    decide
  have hopt : (Pattern.concat [.opt structPattern, .lit "\x7b".toList]).matches ('\x7b' :: rest) =
      [⟨[], "\x7b".toList, rest⟩] := rfl
  have hnone : (Pattern.concat [.opt structPattern, .lit "\x7b".toList]).first (' ' :: '\x7b' :: rest) = none := rfl
  have hspace : isSpace ' ' = true := by decide
  have hblank := matches_greedy_one_seq hspace hopen hnone
  have heq := matches_lit_seq "=".toList (' ' :: '\x7b' :: rest)
    (.seq (.greedy isSpace 0) (.concat [.opt structPattern, .lit "\x7b".toList]))
  have hskip : (Pattern.seq (.lit "=".toList)
      (.seq (.greedy isSpace 0) (.concat [.opt structPattern, .lit "\x7b".toList]))).first
        (' ' :: '=' :: ' ' :: '\x7b' :: rest) = none :=
    first_lit_seq_none (fun h => absurd (List.cons_prefix_cons.mp h).1 (by decide)) _
  have hname := matches_greedy_one_seq hspace hequals hskip
  rw [hblank, hopt] at heq
  rw [show '=' :: ' ' :: '\x7b' :: rest = "=".toList ++ ' ' :: '\x7b' :: rest from rfl, heq] at hname
  refine (matches_lit_seq ".vmlist".toList (' ' :: '=' :: ' ' :: '\x7b' :: rest) _).trans ?_
  exact congrArg (List.map (Match.append ⟨[], ".vmlist".toList, _⟩)) hname

theorem vmlistRegex_none {s : Text} (h : vmlistPattern.first s = none) : vmlistRegex.first s = none := by
  rw [Pattern.first, vmlistRegex, Pattern.matches, Pattern.matches, matches_eq_nil h]
  rfl

/-- A match: the start of the list, a gap and the end. -/
theorem mem_vmlistRegex {s : Text} {m : Match} (h : m ∈ vmlistRegex.matches s) :
    ∃ a ∈ vmlistPattern.matches s, ∃ gap, ∃ e ∈ endPattern.matches (e.taken ++ m.rest),
      a.taken ++ (gap ++ (e.taken ++ m.rest)) = s ∧
      m.groups = a.groups ++ [("1", a.taken)] ++ ([("2", gap)] ++ (e.groups ++ [("3", e.taken)])) := by
  obtain ⟨a', ha', b, hb, rfl⟩ := mem_matches_seq.mp h
  obtain ⟨a, ha, rfl⟩ := mem_matches_group.mp ha'
  obtain ⟨c', hc', d, hd, rfl⟩ := mem_matches_seq.mp hb
  obtain ⟨c, hc, rfl⟩ := mem_matches_group.mp hc'
  obtain ⟨e, he, rfl⟩ := mem_matches_group.mp hd
  obtain ⟨hcg, hccut, -⟩ := mem_runMatches.mp hc
  have hecut := taken_append_rest he
  refine ⟨a, ha, c.taken, e, ?_, ?_, ?_⟩
  · show e ∈ endPattern.matches (e.taken ++ e.rest)
    rw [hecut]
    exact he
  · show a.taken ++ (c.taken ++ (e.taken ++ e.rest)) = s
    rw [hecut, hccut, taken_append_rest ha]
  · simp only [Match.append, hcg, List.nil_append]

/-- What the replacement keeps of a match at the list. -/
structure AtList (rest : Text) (m : Match) : Prop where
  pre : m.group? "1" = some ".vmlist = \x7b".toList
  suffix : ∃ gap t, m.group? "3" = some ('\n' :: gap ++ ("\x7d,".toList ++ t)) ∧ ∀ c ∈ gap, isSpace c = true
  cut : m.taken ++ m.rest = ".vmlist = \x7b".toList ++ rest

theorem atList_of_mem {rest : Text} {m : Match} (h : m ∈ vmlistRegex.matches (".vmlist = \x7b".toList ++ rest)) :
    AtList rest m := by
  have hcut := taken_append_rest h
  obtain ⟨a, ha, gap, e, he, -, hgroups⟩ := mem_vmlistRegex h
  rw [matches_vmlistPattern, List.mem_singleton] at ha
  subst ha
  obtain ⟨heg, sp, t, het, hsp, -⟩ := mem_endPattern he
  rw [heg, het] at hgroups
  refine ⟨?_, ⟨sp, t, ?_, hsp⟩, hcut⟩
  · rw [Match.group?, hgroups]
    simp
  · rw [Match.group?, hgroups]
    simp

theorem closingLine_of_mem {s : Text} {m : Match} (h : m ∈ vmlistRegex.matches s) : closingLine s := by
  obtain ⟨a, -, gap, e, he, rfl, -⟩ := mem_vmlistRegex h
  obtain ⟨-, sp, t, het, hsp, -⟩ := mem_endPattern he
  refine closingLine_iff.mpr ⟨a.taken ++ gap, sp ++ ("\x7d,".toList ++ (t ++ m.rest)), ?_,
    startsClosing_iff.mpr ⟨sp, _, rfl, hsp⟩⟩
  rw [het]
  simp only [List.append_assoc, List.cons_append]

/-- There is a match at the list iff some line in it or behind it closes a
group; then it is the one that is found. -/
theorem search_vmlistRegex (rest : Text) :
    if closingLine rest then
      ∃ m, vmlistRegex.search (".vmlist = \x7b".toList ++ rest) = some m ∧ AtList rest m
    else vmlistRegex.search (".vmlist = \x7b".toList ++ rest) = none := by
  have hline : closingLine (".vmlist = \x7b".toList ++ rest) = closingLine rest :=
    closingLine_append_left (by decide) rest
  split
  · next h =>
    obtain ⟨x, t, rfl, ht⟩ := closingLine_iff.mp h
    obtain ⟨e, he⟩ := exists_endPattern ht
    have hstart : ⟨[], ".vmlist = \x7b".toList, x ++ '\n' :: t⟩ ∈
        vmlistPattern.matches (".vmlist = \x7b".toList ++ (x ++ '\n' :: t)) := by
      rw [matches_vmlistPattern]
      exact List.mem_singleton_self _
    have hgap : ⟨[], x, '\n' :: t⟩ ∈ (Pattern.lazy (fun _ => true) 0).matches (x ++ '\n' :: t) :=
      mem_runMatches.mpr ⟨rfl, rfl, fun _ _ => rfl, Nat.zero_le _⟩
    have hmem : vmlistRegex.matches (".vmlist = \x7b".toList ++ (x ++ '\n' :: t)) ≠ [] :=
      List.ne_nil_of_mem (mem_matches_seq.mpr ⟨_, mem_matches_group.mpr ⟨_, hstart, rfl⟩, _,
        mem_matches_seq.mpr ⟨_, mem_matches_group.mpr ⟨_, hgap, rfl⟩, _,
          mem_matches_group.mpr ⟨e, he, rfl⟩, rfl⟩, rfl⟩)
    obtain ⟨m, ms, hms⟩ := List.exists_cons_of_ne_nil hmem
    have hfirst : vmlistRegex.first (".vmlist = \x7b".toList ++ (x ++ '\n' :: t)) = some m := by
      rw [Pattern.first, hms]
      rfl
    exact ⟨m, search_of_first hfirst, atList_of_mem (hms ▸ List.mem_cons_self)⟩
  · next h =>
    refine search_eq_none fun a ha => ?_
    rw [Pattern.first, List.head?_eq_none_iff, List.eq_nil_iff_forall_not_mem]
    exact fun m hm => h (hline ▸ closingLine_suffix ha (closingLine_of_mem hm))

/-! ### Texts with a list of VMs -/

/-- A text before the list in which neither search finds anything. -/
def Leads (lead : Text) : Prop :=
  ∀ s, vmlistPattern.search (lead ++ s) = vmlistPattern.search s ∧
    vmlistRegex.search (lead ++ s) = vmlistRegex.search s

/-- The text before the list of a generated configuration. -/
def leadText (profiler : Bool) (guests : List (Text × VmGuest)) : Text :=
  beforeSize profiler (guests.map fun g => g.2.image) ++
    (".vmlist_size = ".toList ++ (showNat guests.length ++ ",\n\t".toList))

theorem leads_leadText (profiler : Bool) (guests : List (Text × VmGuest)) : Leads (leadText profiler guests) := by
  have himages : ∀ image ∈ guests.map (fun g => g.2.image), ¬ ".vmlist".toList <:+: image := by
    intro image himage
    obtain ⟨g, -, rfl⟩ := List.mem_map.mp himage
    exact g.2.image_plain
  have hmid : '.' ∉ showNat guests.length ++ ",\n\t".toList := by
    rw [List.mem_append, not_or]
    exact ⟨notMem_showNat (by decide) _, by decide⟩
  intro s
  rw [leadText, List.append_assoc, search_vmlist vmlistPattern_none vmlistPattern_size profiler himages hmid,
    search_vmlist (fun h => vmlistRegex_none (vmlistPattern_none h))
      (fun rest => vmlistRegex_none (vmlistPattern_size rest)) profiler himages hmid]
  exact ⟨rfl, rfl⟩

theorem configContent_lead (enableProfiler includeProfiler : Bool) (guests : List (Text × VmGuest)) :
    configContent includeProfiler (guestsConfig enableProfiler guests) =
      leadText (includeProfiler || enableProfiler) guests ++ (".vmlist = \x7b".toList ++
        (vmlistText (guests.map Prod.snd) ++ '\x7d' :: "\n\x7d;\n".toList)) := by
  rw [configContent_guests, leadText]
  simp only [List.append_assoc]

theorem take_append_sub {a b : Text} : (a ++ b).take ((a ++ b).length - b.length) = a := by
  rw [List.length_append, Nat.add_sub_cancel, List.take_left]

section Lead

variable {lead : Text}

theorem search_lead (hlead : Leads lead) (rest : Text) : vmlistPattern.search (lead ++ (".vmlist = \x7b".toList ++ rest)) =
    some ⟨[], ".vmlist = \x7b".toList, rest⟩ := by
  rw [(hlead _).1]
  exact search_of_first (vmlistPattern_first rest)

/-- The list is found with what stands around it. -/
theorem outside_lead (hlead : Leads lead) {segments : List (Text × Text)} {rest : Text} (hrest : ∀ c ∈ rest, Between c)
    (hall : ∀ s ∈ segments, IsBlock s.2 ∧ ∀ c ∈ s.1, Between c) (post : Text) :
    outsideVmlist (lead ++ (".vmlist = \x7b".toList ++ (spaced segments ++ rest ++ '\x7d' :: post))) =
      some (lead ++ ".vmlist = \x7b".toList, post) := by
  have hsplit : spaced segments ++ rest ++ '\x7d' :: post = (spaced segments ++ rest ++ ['\x7d']) ++ post := by
    simp only [List.append_assoc, List.singleton_append]
  rw [outsideVmlist, search_lead hlead, Option.map_some, upToClose_spaced hrest post hall,
    ← List.append_assoc lead, take_append_sub, hsplit, List.drop_left]

theorem extract_lead (hlead : Leads lead) {gap block : Text} {segments : List (Text × Text)} {rest : Text}
    (hrest : ∀ c ∈ rest, Between c) (hgap : ∀ c ∈ gap, isSpace c = true) (hblock : IsBlock block)
    (hall : ∀ s ∈ segments, IsBlock s.2 ∧ ∀ c ∈ s.1, Between c) (post : Text) :
    extractVmConfigsFromFile (lead ++ (".vmlist = \x7b".toList ++
        (spaced ((gap, block) :: segments) ++ rest ++ '\x7d' :: post))) =
      some (block :: reached segments) := by
  have hcons : ∀ s ∈ (gap, block) :: segments, IsBlock s.2 ∧ ∀ c ∈ s.1, Between c :=
    List.forall_mem_cons.mpr ⟨⟨hblock, fun c hc => .inl (hgap c hc)⟩, hall⟩
  rw [extractVmConfigsFromFile, search_lead hlead]
  dsimp only
  rw [upToClose_spaced hrest post hcons, List.dropLast_concat]
  exact vmBlocks_strip hrest hgap hblock hall

theorem extract_lead_nil (hlead : Leads lead) {rest : Text} (hrest : ∀ c ∈ rest, Between c) (post : Text) :
    extractVmConfigsFromFile (lead ++ (".vmlist = \x7b".toList ++ (rest ++ '\x7d' :: post))) = some [] := by
  have hclose : upToClose brace 1 (rest ++ '\x7d' :: post) = rest ++ ['\x7d'] :=
    @upToClose_spaced rest hrest post [] fun _ h => absurd h List.not_mem_nil
  rw [extractVmConfigsFromFile, search_lead hlead]
  dsimp only
  rw [hclose, List.dropLast_concat]
  refine vmBlocks_of_between (fun c hc => hrest c ?_) _
  exact (List.dropWhile_suffix isSpace).subset ((List.rdropWhile_prefix isSpace _).subset hc)

end Lead

/-! ### What is put in -/

theorem join_eq_flatMap (sep m : Text) (ms : List Text) :
    join sep (m :: ms) = m ++ ms.flatMap fun m => sep ++ m := by
  induction ms generalizing m with
  | nil => simp [join]
  | cons m' ms ih => rw [join, List.intercalate_cons_cons, ← join, ih m', List.flatMap_cons, List.append_assoc,
      List.append_assoc]

theorem reached_map (gap : Text) (h : gap.all isSkipped = true) : ∀ ms : List Text,
    reached (ms.map (gap, ·)) = ms
  | [] => rfl
  | m :: ms => by rw [List.map_cons, reached, if_pos h, reached_map gap h ms]

theorem between_of_space {gap : Text} (h : ∀ c ∈ gap, isSpace c = true) : ∀ c ∈ gap, Between c :=
  fun c hc => .inl (h c hc)

/-- What is put in is read back, and what stands around it then is what stands
around it. -/
theorem extract_spliced {lead gap : Text} (hlead : Leads lead) (hgap : ∀ c ∈ gap, isSpace c = true)
    {ms : List Text} (hms : ∀ m ∈ ms, IsBlock m) (post : Text) :
    let newConfig := lead ++ (".vmlist = \x7b".toList ++
      ("\n".toList ++ join "\n\n".toList ms ++ '\n' :: gap ++ '\x7d' :: post))
    extractVmConfigsFromFile newConfig = some ms ∧
      outsideVmlist newConfig = some (lead ++ ".vmlist = \x7b".toList, post) := by
  have hnl : ∀ c ∈ "\n".toList, isSpace c = true := forall_mem_of_all (by decide)
  have hblank : ∀ c ∈ "\n\n".toList, isSpace c = true := forall_mem_of_all (by decide)
  have hgap : ∀ c ∈ '\n' :: gap, isSpace c = true := List.forall_mem_cons.mpr ⟨by decide, hgap⟩
  cases ms with
  | nil =>
    have hrest : ∀ c ∈ "\n".toList ++ '\n' :: gap, Between c :=
      between_of_space fun c hc => (List.mem_append.mp hc).elim (hnl c) (hgap c)
    have hnone : ∀ s ∈ ([] : List (Text × Text)), IsBlock s.2 ∧ ∀ c ∈ s.1, Between c :=
      fun _ h => absurd h List.not_mem_nil
    exact ⟨extract_lead_nil hlead hrest post, outside_lead hlead hrest hnone post⟩
  | cons m ms =>
    obtain ⟨hm, hms⟩ := List.forall_mem_cons.mp hms
    have hall : ∀ s ∈ ms.map ("\n\n".toList, ·), IsBlock s.2 ∧ ∀ c ∈ s.1, Between c := by
      intro s hs
      obtain ⟨m', hm', rfl⟩ := List.mem_map.mp hs
      exact ⟨hms m' hm', between_of_space hblank⟩
    have hbody : "\n".toList ++ join "\n\n".toList (m :: ms) =
        spaced (("\n".toList, m) :: ms.map ("\n\n".toList, ·)) := by
      rw [join_eq_flatMap, spaced, List.flatMap_cons, List.flatMap_map, List.append_assoc]
    have hcons : ∀ s ∈ ("\n".toList, m) :: ms.map ("\n\n".toList, ·), IsBlock s.2 ∧ ∀ c ∈ s.1, Between c :=
      List.forall_mem_cons.mpr ⟨⟨hm, between_of_space hnl⟩, hall⟩
    rw [hbody]
    refine ⟨?_, outside_lead hlead (between_of_space hgap) hcons post⟩
    have hread := extract_lead hlead (between_of_space hgap) hnl hm hall post
    rwa [reached_map _ (by decide)] at hread

/-- The replacement in a text with a list: all of it stays, or the list ends
at the first line that closes a group. -/
theorem reconstruct_lead {lead : Text} (hlead : Leads lead) (rest : Text) (ms : List Text) :
    if closingLine rest then
      ∃ gap tail, (∀ c ∈ gap, isSpace c = true) ∧
        reconstructFullConfig (lead ++ (".vmlist = \x7b".toList ++ rest)) ms =
          lead ++ (".vmlist = \x7b".toList ++
            ("\n".toList ++ join "\n\n".toList ms ++ '\n' :: gap ++ '\x7d' :: ',' :: tail))
    else reconstructFullConfig (lead ++ (".vmlist = \x7b".toList ++ rest)) ms =
      lead ++ (".vmlist = \x7b".toList ++ rest) := by
  have hsearch := search_vmlistRegex rest
  rw [← (hlead _).2] at hsearch
  split at hsearch
  · next h =>
    obtain ⟨m, hm, hat⟩ := hsearch
    obtain ⟨gap, t, hsuffix, hgap⟩ := hat.suffix
    rw [if_pos h]
    refine ⟨gap, t ++ m.rest, hgap, ?_⟩
    rw [reconstructFullConfig, hm]
    dsimp only
    rw [hat.pre, hsuffix, hat.cut, take_append_sub, Option.getD_some, Option.getD_some]
    simp only [List.append_assoc, List.cons_append]
    rfl
  · next h =>
    rw [if_neg h, reconstructFullConfig, hsearch]

/-! ### Lines of the guests -/

theorem startsClosing_append (b : Text) : ∀ a : Text,
    startsClosing (a ++ '\n' :: b) = (startsClosing a || (a.all isSpace && startsClosing b))
  | [] => rfl
  | c :: a => by
    have ih := startsClosing_append b a
    rw [List.cons_append, startsClosing, startsClosing, List.all_cons]
    by_cases hc : isSpace c = true
    · rw [if_pos hc, if_pos hc, ih, hc, Bool.true_and]
    · rw [if_neg hc, if_neg hc, Bool.eq_false_iff.mpr hc, Bool.false_and, Bool.false_and, Bool.or_false]
      cases a with
      | nil =>
        rw [Bool.eq_iff_iff, List.isPrefixOf_iff_prefix, List.isPrefixOf_iff_prefix]
        refine iff_of_false (fun h => ?_) fun h => absurd h.length_le (show ¬ 2 ≤ 1 by decide)
        have hcomma := (List.cons_prefix_cons.mp (List.cons_prefix_cons.mp h).2).1
        exact absurd hcomma (by decide)
      | cons d a => rfl

/-- A line break parts the lines. -/
theorem closingLine_append (b : Text) : ∀ a : Text,
    closingLine (a ++ '\n' :: b) = (closingLine a || closingLine ('\n' :: b))
  | [] => rfl
  | c :: a => by
    rw [List.cons_append, closingLine, closingLine_append b a, startsClosing_append, closingLine, closingLine]
    cases decide (c = '\n') <;> cases startsClosing a <;> cases a.all isSpace <;> cases startsClosing b <;>
      cases closingLine a <;> rfl

/-- The first line of a body is white space, or the beginning of its block. -/
theorem VmGuest.not_startsClosing (g : VmGuest) (rest : Text) : startsClosing (g.body ++ rest) = false := by
  obtain ⟨y, hy, -⟩ := g.isBlock.ends
  rw [Bool.eq_false_iff, Ne, startsClosing_iff]
  rintro ⟨gap, t, heq, hgap⟩
  have hbody : g.before ++ ('\x7b' :: (y ++ (g.after ++ rest))) = gap ++ ('\x7d' :: (',' :: t)) := by
    rw [← show g.body ++ rest = g.before ++ ('\x7b' :: (y ++ (g.after ++ rest))) by
      rw [VmGuest.body, hy]
      simp only [List.append_assoc, List.cons_append], heq]
    rfl
  have hdrop := congrArg (List.dropWhile isSpace) hbody
  rw [List.dropWhile_append_of_pos g.before_space, List.dropWhile_append_of_pos hgap,
    List.dropWhile_cons_of_neg (by decide), List.dropWhile_cons_of_neg (by decide)] at hdrop
  exact absurd (List.cons.inj hdrop).1 (by decide)

theorem closingLine_bodies : ∀ guests : List VmGuest,
    closingLine ('\n' :: (unlines '\n' (guests.map VmGuest.body) ++ "\t\x7d\n\x7d;\n".toList)) =
      guests.any fun g => closingLine g.body
  | [] => by decide
  | g :: guests => by
    have ih := closingLine_bodies guests
    have hsplit : unlines '\n' ((g :: guests).map VmGuest.body) ++ "\t\x7d\n\x7d;\n".toList =
        g.body ++ '\n' :: (unlines '\n' (guests.map VmGuest.body) ++ "\t\x7d\n\x7d;\n".toList) := by
      simp only [unlines, List.map_cons, List.flatMap_cons, List.append_assoc, List.cons_append, List.nil_append]
    rw [hsplit, closingLine, g.not_startsClosing, Bool.and_false, Bool.false_or, closingLine_append, ih,
      List.any_cons]

/-- Some line in or behind the list closes a group iff one of a guest does. -/
theorem closingLine_vmlist (guests : List VmGuest) :
    closingLine (vmlistText guests ++ '\x7d' :: "\n\x7d;\n".toList) =
      guests.any fun g => closingLine g.body := by
  by_cases hg : guests = []
  · subst hg
    decide
  · have hne : (guests.map fun g => g.body.splitOn '\n').flatten ≠ [] := by
      obtain ⟨g, gs, rfl⟩ := List.exists_cons_of_ne_nil hg
      rw [List.map_cons, List.flatten_cons]
      exact List.append_ne_nil_of_left_ne_nil (List.splitOn_ne_nil '\n' g.body) _
    have hjoin := unlines_eq_intercalate '\n' hne
    rw [unlines_lines] at hjoin
    rw [← closingLine_bodies, hjoin, vmlistText, join]
    simp

/-- **Main result.** For the generated text of any guests and any blocks to put
in, the replacement gives a text from which just these are read, with nothing
changed around the list, iff they are the blocks that the guests have and no
line of a guest closes a group; then it changes nothing at all. -/
theorem replaced_iff (configName : Text) (enableProfiler includeProfiler : Bool)
    (guests : List (Text × VmGuest)) {ms : List Text} (hms : ∀ m ∈ ms, IsBlock m) :
    ∃ text, generateConfigs [configName] [guestsConfig enableProfiler guests] includeProfiler =
        some (.ofList [(configName, text)]) ∧
      (Replaced text (reconstructFullConfig text ms) ms ↔
        leadingBlocks (guests.map Prod.snd) = ms ∧ ∀ g ∈ guests, ¬ closingLine g.2.body) := by
  refine ⟨_, rfl, ?_⟩
  have hread := extract_guests enableProfiler includeProfiler guests
  have hlead := leads_leadText (includeProfiler || enableProfiler) guests
  obtain ⟨rest, hrest, hlist⟩ := vmlistText_eq (guests.map Prod.snd)
  have hall := (@vmSegments_spec _ (guests.map Prod.snd) between_newline).1
  have houtside := outside_lead hlead hrest hall "\n\x7d;\n".toList
  have hlines : closingLine (vmlistText (guests.map Prod.snd) ++ '\x7d' :: "\n\x7d;\n".toList) ↔
      ∃ g ∈ guests, closingLine g.2.body := by
    rw [closingLine_vmlist, List.any_map, List.any_eq_true]
    rfl
  have hrec := reconstruct_lead hlead (vmlistText (guests.map Prod.snd) ++ '\x7d' :: "\n\x7d;\n".toList) ms
  rw [← hlist] at houtside
  rw [← configContent_lead] at hrec houtside
  split at hrec
  · next h =>
    -- behind the list there is a comma now
    obtain ⟨g, hg, hline⟩ := hlines.mp h
    obtain ⟨gap, tail, hgap, heq⟩ := hrec
    refine iff_of_false (fun hr => ?_) fun hr => hr.2 g hg hline
    have hnew := (extract_spliced hlead hgap hms (',' :: tail)).2
    have hsame := hr.outside
    rw [heq, hnew, houtside, Option.some.injEq, Prod.mk.injEq] at hsame
    exact absurd (List.cons.inj hsame.2).1 (by decide)
  · next h =>
    rw [hrec]
    have hno : ∀ g ∈ guests, ¬ closingLine g.2.body := fun g hg hline => h (hlines.mpr ⟨g, hg, hline⟩)
    exact ⟨fun hr => ⟨Option.some.inj (hread.symm.trans hr.blocks), hno⟩,
      fun hr => ⟨hread.trans (congrArg some hr.1), rfl⟩⟩

/-- What stands behind the braces of two blocks that are closed at the end of a line. -/
def linuxText : Text :=
  "\n            .cpu_affinity = 0b0001,\n            .image = \x7b .base_addr = 0 \x7d \x7d".toList

def baremetalText : Text :=
  "\n            .cpu_affinity = 0b0010,\n            .image = \x7b .base_addr = 1 \x7d \x7d".toList

def linuxVm : VmGuest :=
  { emptyVm [] (by decide) with
    before := "\n        ".toList
    block := '\x7b' :: linuxText
    before_space := forall_mem_of_all (by decide)
    isBlock := ⟨linuxText, rfl, by decide +kernel⟩ }

def baremetalVm : VmGuest :=
  { emptyVm ['\n'] (by decide) with
    image := "VM_IMAGE(baremetal_image)".toList
    block := '\x7b' :: baremetalText
    image_line := by decide
    image_plain := by decide
    isBlock := ⟨baremetalText, rfl, by decide +kernel⟩ }

/-- No group of the two is closed on a line, and their own blocks stay. -/
theorem replaced_twoVms : ∃ text,
    generateConfigs ["a".toList] [guestsConfig false [("linux".toList, linuxVm), ("bare".toList, baremetalVm)]]
      false = some (.ofList [("a".toList, text)]) ∧
    Replaced text (reconstructFullConfig text [linuxVm.block, baremetalVm.block])
      [linuxVm.block, baremetalVm.block] := by
  have hms : ∀ m ∈ [linuxVm.block, baremetalVm.block], IsBlock m :=
    List.forall_mem_cons.mpr ⟨linuxVm.isBlock, List.forall_mem_singleton.mpr baremetalVm.isBlock⟩
  obtain ⟨text, htext, hiff⟩ := @replaced_iff "a".toList false false
    [("linux".toList, linuxVm), ("bare".toList, baremetalVm)] [linuxVm.block, baremetalVm.block] hms
  refine ⟨text, htext, hiff.mpr ⟨by decide +kernel, ?_⟩⟩
  exact List.forall_mem_cons.mpr ⟨by decide +kernel, List.forall_mem_singleton.mpr (by decide +kernel)⟩

/-- What stands behind the brace of a block with a group in it. -/
def groupText : Text := "\n            .image = \x7b\n                .base_addr = 0\n            \x7d,\n        \x7d".toList

theorem space_nil : ∀ c ∈ ([] : Text), isSpace c = true := List.forall_mem_nil _

/-- A guest with such a block, as those of the templates are. -/
def groupVm : VmGuest where
  image := "VM_IMAGE(linux_image)".toList
  before := "\n        ".toList
  block := '\x7b' :: groupText
  between := []
  comma := true
  behind := []
  image_line := (emptyVm [] rfl).image_line
  image_plain := (emptyVm [] rfl).image_plain
  before_space := forall_mem_of_all (by decide)
  isBlock := ⟨groupText, rfl, by decide +kernel⟩
  between_space := space_nil
  behind_space := space_nil

/-- Its block put in its own place is read back, but the end of the old one
stays behind the list. -/
theorem groupVm_kept :
    let text := configContent false (guestsConfig false [("linux_a".toList, groupVm)])
    let newConfig := reconstructFullConfig text [groupVm.block]
    extractVmConfigsFromFile text = some [groupVm.block] ∧
      extractVmConfigsFromFile newConfig = some [groupVm.block] ∧
      (outsideVmlist text).map Prod.snd = some "\n\x7d;\n".toList ∧
      (outsideVmlist newConfig).map Prod.snd = some ",\n        \x7d,\n\t\x7d\n\x7d;\n".toList ∧
      ¬ Replaced text newConfig [groupVm.block] := by
  intro text newConfig
  have hread : extractVmConfigsFromFile text = some [groupVm.block] ∧
      extractVmConfigsFromFile newConfig = some [groupVm.block] ∧
      (outsideVmlist text).map Prod.snd = some "\n\x7d;\n".toList ∧
      (outsideVmlist newConfig).map Prod.snd = some ",\n        \x7d,\n\t\x7d\n\x7d;\n".toList := by
    decide +kernel
  refine ⟨hread.1, hread.2.1, hread.2.2.1, hread.2.2.2, fun h => ?_⟩
  have hafter := hread.2.2.2
  rw [h.outside, hread.2.2.1] at hafter
  exact absurd hafter (by decide +kernel)

end TestEngine
end DaatMcs
