/-
# Reading the VMs back from a configuration

`extract_vm_configs_from_file` searches the list of VMs in the text of a
configuration and reads the blocks in braces in it, one after the other. It
skips commas and white space between them, of white space only blanks, tabs,
line feeds and carriage returns, though `strip` takes off every kind at the
ends of the list. So the blocks of a generated configuration are read back iff
between any two of them there is only what is skipped (`vmConfigs_iff`).
-/
import DaatMcs.Generator.Combine
import DaatMcs.Lib.Brackets
import DaatMcs.Lib.Regex

namespace DaatMcs
namespace TestEngine

open Brackets Literal Regex

/-- By how much a character changes `brace_count`. -/
def brace (c : Char) : ℤ := if c = '\x7b' then 1 else if c = '\x7d' then -1 else 0

/-- `\(struct\s+vm_config\[\]\)\s*`. -/
def structPattern : Pattern := .concat
  [.lit "(struct".toList, .greedy isSpace 1, .lit "vm_config[])".toList, .greedy isSpace 0]

/-- `\.vmlist\s*=\s*(?:\(struct\s+vm_config\[\]\)\s*)?\{`. -/
def vmlistPattern : Pattern := .concat
  [.lit ".vmlist".toList, .greedy isSpace 0, .lit "=".toList, .greedy isSpace 0, .opt structPattern,
    .lit "\x7b".toList]

/-- `c in ', \n\r\t'`. -/
def isSkipped (c : Char) : Bool := c = ',' || c = ' ' || c = '\n' || c = '\r' || c = '\t'

/-- The loop over the blocks of the list; none if `fuel` rounds are not
enough. A character that is neither skipped nor an opening brace ends it. -/
def vmBlocks : (fuel : ℕ) → Text → Option (List Text)
  | 0, _ => none
  | fuel + 1, vmlistContent =>
    match vmlistContent.dropWhile isSkipped with
    | [] => some []
    | c :: cs =>
      if c ≠ '\x7b' then some []
      else
        match takeClosed brace 0 (c :: cs) with
        | none => some []
        | some (vmBlock, rest) => (vmBlocks fuel rest).map (strip vmBlock :: ·)

def extractVmConfigsFromFile (configVal : Text) : Option (List Text) :=
  match vmlistPattern.search configVal with
  | none => some []
  | some startMatch =>
    let vmlistContent := strip (upToClose brace 1 startMatch.rest).dropLast
    vmBlocks (vmlistContent.length + 1) vmlistContent

/-- A brace-balanced block: the first brace is closed by its last character. -/
def IsBlock (block : Text) : Prop := ∃ inner, block = '\x7b' :: inner ∧ Closes brace 1 inner

/-- A guest's configuration: the line of its image, and a body of one block
with white space around it and perhaps a comma behind it. -/
structure VmGuest where
  image : Text
  before : Text
  block : Text
  between : Text
  comma : Bool
  behind : Text
  image_line : '\n' ∉ image
  image_plain : ¬ ".vmlist".toList <:+: image
  before_space : ∀ c ∈ before, isSpace c = true
  isBlock : IsBlock block
  between_space : ∀ c ∈ between, isSpace c = true
  behind_space : ∀ c ∈ behind, isSpace c = true

namespace VmGuest

/-- What comes behind the block. -/
def after (g : VmGuest) : Text := g.between ++ (if g.comma then [','] else []) ++ g.behind

def body (g : VmGuest) : Text := g.before ++ g.block ++ g.after

/-- The text of the guest's configuration. -/
def text (g : VmGuest) : Text := g.image ++ '\n' :: g.body

end VmGuest

/-- The number printed as `.vmlist_size`. -/
def PrintsSize (text : Text) (n : ℕ) : Prop := ∃ pre post,
  text = pre ++ ".vmlist_size = ".toList ++ showNat n ++ ",\n".toList ++ post ∧
    ¬ ".vmlist_size".toList <:+: pre

/-! ### Termination -/

/-- Each round reads at least one character, so there are never more rounds
than characters and one. -/
theorem vmBlocks_isSome : ∀ {fuel : ℕ} {content : Text}, content.length < fuel → (vmBlocks fuel content).isSome
  | fuel + 1, content, h => by
    rw [vmBlocks]
    split
    · rfl
    · next c cs hdrop =>
      split
      · rfl
      · split
        · rfl
        · next block rest hblock =>
          obtain ⟨hcat, hne⟩ := takeClosed_eq_some hblock
          have hlen := (List.dropWhile_suffix (p := isSkipped) (l := content)).length_le
          have hpos := List.length_pos_iff.mpr hne
          have hcat := congrArg List.length hcat
          rw [hdrop] at hlen
          rw [List.length_append] at hcat
          rw [Option.isSome_map]
          exact vmBlocks_isSome (by dsimp only at hcat hpos; omega)

/-- The extraction always ends. -/
theorem extractVmConfigsFromFile_isSome (configVal : Text) : (extractVmConfigsFromFile configVal).isSome := by
  unfold extractVmConfigsFromFile
  split
  · rfl
  · exact vmBlocks_isSome (Nat.lt_succ_self _)

/-! ### Blocks -/

theorem IsBlock.closes {block : Text} (h : IsBlock block) : Closes brace 0 block := by
  obtain ⟨inner, rfl, h⟩ := h
  cases inner with
  | nil => exact absurd h id
  | cons c inner => exact ⟨by decide, h⟩

theorem Closes.getLast {x : Text} : ∀ {n : ℤ}, Closes brace n x → ∃ y, x = y ++ ['\x7d'] := by
  induction x with
  | nil => exact fun h => absurd h id
  | cons c x ih =>
    intro n h
    cases x with
    | nil =>
      have hc : brace c < 0 := h.1
      refine ⟨[], ?_⟩
      unfold brace at hc
      split at hc
      · exact absurd hc (by decide)
      · split at hc
        · next heq => rw [heq, List.nil_append]
        · exact absurd hc (by decide)
    | cons d x =>
      obtain ⟨y, hy⟩ := ih h.2
      exact ⟨c :: y, by rw [hy, List.cons_append]⟩

/-- A block ends with a brace, so it has no white space at its ends. -/
theorem IsBlock.ends {block : Text} (h : IsBlock block) :
    ∃ y, block = '\x7b' :: y ∧ ∃ z, block = z ++ ['\x7d'] := by
  obtain ⟨y, hz⟩ := Closes.getLast h.closes
  obtain ⟨inner, rfl, -⟩ := h
  exact ⟨inner, rfl, y, hz⟩

theorem IsBlock.strip {block : Text} (h : IsBlock block) : strip block = block := by
  obtain ⟨y, hy, z, hz⟩ := h.ends
  apply strip_eq_self
  · rw [hy]
    rintro c ⟨⟩
    decide
  · rw [hz, List.getLast?_concat]
    rintro c ⟨⟩
    decide

/-! ### The list of VMs -/

/-- What can stand between blocks. -/
def Between (c : Char) : Prop := isSpace c = true ∨ c = ','

theorem between_newline : ∀ c ∈ ['\n'], Between c := List.forall_mem_singleton.mpr (.inl (by decide))

theorem Between.brace_eq {c : Char} (h : Between c) : brace c = 0 := by
  have hopen : c ≠ '\x7b' := by
    rintro rfl
    exact absurd h (by unfold Between; decide)
  have hclose : c ≠ '\x7d' := by
    rintro rfl
    exact absurd h (by unfold Between; decide)
  rw [brace, if_neg hopen, if_neg hclose]

theorem Between.ne_open {c : Char} (h : Between c) : c ≠ '\x7b' := by
  rintro rfl
  exact absurd h.brace_eq (by decide)

/-- Blocks, each with what stands before it. -/
def spaced (segments : List (Text × Text)) : Text := segments.flatMap fun s => s.1 ++ s.2

/-- The blocks that are read: up to the first one that is not reached. -/
def reached : List (Text × Text) → List Text
  | [] => []
  | s :: segments => if s.1.all isSkipped then s.2 :: reached segments else []

theorem vmBlocks_of_between {rest : Text} (h : ∀ c ∈ rest, Between c) (fuel : ℕ) :
    vmBlocks (fuel + 1) rest = some [] := by
  rw [vmBlocks]
  split
  · rfl
  · next c cs hdrop =>
    have hc : c ∈ rest := (List.dropWhile_suffix isSkipped).subset (hdrop ▸ List.mem_cons_self)
    rw [if_pos (h c hc).ne_open]

/-- The loop ends within a gap that is not skipped as a whole. -/
theorem vmBlocks_gap {gap : Text} (h : ∀ c ∈ gap, Between c) (hskip : ¬ gap.all isSkipped = true)
    (rest : Text) (fuel : ℕ) : vmBlocks (fuel + 1) (gap ++ rest) = some [] := by
  have hne : gap.dropWhile isSkipped ≠ [] := fun hnil =>
    hskip (List.all_eq_true.mpr (List.dropWhile_eq_nil_iff.mp hnil))
  obtain ⟨c, cs, hdrop⟩ := List.exists_cons_of_ne_nil hne
  have hc : c ∈ gap := (List.dropWhile_suffix isSkipped).subset (hdrop ▸ List.mem_cons_self)
  rw [vmBlocks, List.dropWhile_append, hdrop]
  exact if_pos (h c hc).ne_open

theorem vmBlocks_spaced {rest : Text} (hrest : ∀ c ∈ rest, Between c) : ∀ {segments : List (Text × Text)}
    {fuel : ℕ}, (∀ s ∈ segments, IsBlock s.2 ∧ ∀ c ∈ s.1, Between c) → segments.length < fuel →
    vmBlocks fuel (spaced segments ++ rest) = some (reached segments)
  | [], fuel + 1, _, _ => vmBlocks_of_between hrest fuel
  | (gap, block) :: segments, fuel + 1, hall, hlt => by
    have hblock : IsBlock block := (hall _ List.mem_cons_self).1
    have hgap : ∀ c ∈ gap, Between c := (hall _ List.mem_cons_self).2
    have hall := fun s hs => hall s (List.mem_cons_of_mem _ hs)
    obtain ⟨y, hy, -⟩ := hblock.ends
    have hcons : spaced ((gap, block) :: segments) ++ rest = gap ++ (block ++ (spaced segments ++ rest)) := by
      simp [spaced]
    rw [hcons, reached]
    by_cases hskip : gap.all isSkipped = true
    · -- the block behind the gap is read
      have ih := vmBlocks_spaced hrest hall (Nat.lt_of_succ_lt_succ hlt)
      have hdrop : (gap ++ (block ++ (spaced segments ++ rest))).dropWhile isSkipped =
          '\x7b' :: (y ++ (spaced segments ++ rest)) := by
        rw [List.dropWhile_append_of_pos (List.all_eq_true.mp hskip), hy, List.cons_append,
          List.dropWhile_cons_of_neg (by decide)]
      have hread : takeClosed brace 0 ('\x7b' :: (y ++ (spaced segments ++ rest))) =
          some (block, spaced segments ++ rest) := by
        rw [← List.cons_append, ← hy]
        exact takeClosed_append _ hblock.closes
      rw [vmBlocks, hdrop]
      dsimp only
      rw [if_neg (by decide), hread, if_pos hskip]
      dsimp only
      rw [ih, hblock.strip]
      rfl
    · rw [if_neg hskip, vmBlocks_gap hgap hskip]

theorem reached_eq_iff : ∀ {segments : List (Text × Text)},
    reached segments = segments.map Prod.snd ↔ ∀ s ∈ segments, s.1.all isSkipped = true
  | [] => by simp [reached]
  | s :: segments => by
    rw [reached, List.map_cons, List.forall_mem_cons]
    split
    · next h => rw [List.cons.injEq, and_iff_right rfl, and_iff_right h, reached_eq_iff]
    · next h => exact ⟨fun hnil => absurd hnil.symm (List.cons_ne_nil _ _), fun hall => absurd hall.1 h⟩

theorem length_le_spaced : ∀ {segments : List (Text × Text)}, (∀ s ∈ segments, IsBlock s.2) →
    segments.length ≤ (spaced segments).length
  | [], _ => Nat.le_refl 0
  | s :: segments, h => by
    have ih := length_le_spaced fun x hx => h x (List.mem_cons_of_mem s hx)
    have hpos := List.length_pos_iff.mpr (h s List.mem_cons_self).closes.ne_nil
    have hcons : spaced (s :: segments) = s.1 ++ s.2 ++ spaced segments := List.flatMap_cons
    rw [hcons, List.length_append, List.length_append, List.length_cons]
    omega

theorem spaced_ends : ∀ {segments : List (Text × Text)} {block : Text}, IsBlock block →
    (∀ s ∈ segments, IsBlock s.2) → ∃ z, block ++ spaced segments = z ++ ['\x7d']
  | [], block, hblock, _ => by
    obtain ⟨-, -, z, hz⟩ := hblock.ends
    exact ⟨z, by rw [hz]; simp [spaced]⟩
  | s :: segments, block, _, h => by
    obtain ⟨z, hz⟩ := spaced_ends (h s List.mem_cons_self) fun x hx => h x (List.mem_cons_of_mem s hx)
    refine ⟨block ++ s.1 ++ z, ?_⟩
    have hcons : spaced (s :: segments) = s.1 ++ s.2 ++ spaced segments := List.flatMap_cons
    rw [hcons, List.append_assoc s.1, hz]
    simp

/-- White space is taken off at both ends of the list. -/
theorem strip_spaced {gap block rest : Text} {segments : List (Text × Text)}
    (hgap : ∀ c ∈ gap, isSpace c = true) (hblock : IsBlock block) (h : ∀ s ∈ segments, IsBlock s.2) :
    strip (spaced ((gap, block) :: segments) ++ rest) =
      spaced (([], block) :: segments) ++ rest.rdropWhile isSpace := by
  obtain ⟨y, hy, -⟩ := hblock.ends
  obtain ⟨z, hz⟩ := spaced_ends hblock h
  have hcons : ∀ gap : Text, spaced ((gap, block) :: segments) = gap ++ (block ++ spaced segments) :=
    fun gap => by simp [spaced]
  have hstart : block ++ spaced segments = '\x7b' :: (y ++ spaced segments) := by rw [hy, List.cons_append]
  rw [hcons, hcons, List.append_assoc, strip_around hgap hstart (by decide) hz (by decide), List.nil_append]

/-- What is read of the list of VMs. -/
theorem vmBlocks_strip {rest : Text} (hrest : ∀ c ∈ rest, Between c) {gap block : Text}
    {segments : List (Text × Text)} (hgap : ∀ c ∈ gap, isSpace c = true) (hblock : IsBlock block)
    (h : ∀ s ∈ segments, IsBlock s.2 ∧ ∀ c ∈ s.1, Between c) :
    let content := strip (spaced ((gap, block) :: segments) ++ rest)
    vmBlocks (content.length + 1) content = some (block :: reached segments) := by
  have hblocks : ∀ s ∈ segments, IsBlock s.2 := fun s hs => (h s hs).1
  have hall : ∀ s ∈ ([], block) :: segments, IsBlock s.2 ∧ ∀ c ∈ s.1, Between c :=
    List.forall_mem_cons.mpr ⟨⟨hblock, fun c hc => by cases hc⟩, h⟩
  have hlen := length_le_spaced fun s hs => (hall s hs).1
  have htrail : ∀ c ∈ rest.rdropWhile isSpace, Between c := fun c hc =>
    hrest c ((List.rdropWhile_prefix isSpace rest).subset hc)
  intro content
  have hcontent : content = spaced (([], block) :: segments) ++ rest.rdropWhile isSpace :=
    strip_spaced hgap hblock hblocks
  rw [hcontent, vmBlocks_spaced htrail hall (by rw [List.length_append]; omega)]
  rfl

/-- The closing brace of the list is found. -/
theorem upToClose_spaced {rest : Text} (hrest : ∀ c ∈ rest, Between c) (post : Text) :
    ∀ {segments : List (Text × Text)}, (∀ s ∈ segments, IsBlock s.2 ∧ ∀ c ∈ s.1, Between c) →
      upToClose brace 1 (spaced segments ++ rest ++ '\x7d' :: post) = spaced segments ++ rest ++ ['\x7d'] := by
  have hplain : ∀ gap : Text, (∀ c ∈ gap, Between c) →
      Above brace 1 gap ∧ level brace gap = 0 := fun gap hgap =>
    ⟨above_of_eq_zero (by decide) fun c hc => (hgap c hc).brace_eq,
      level_eq_zero fun c hc => (hgap c hc).brace_eq⟩
  have hlevel : ∀ segments : List (Text × Text), (∀ s ∈ segments, IsBlock s.2 ∧ ∀ c ∈ s.1, Between c) →
      Above brace 1 (spaced segments) ∧ level brace (spaced segments) = 0 := by
    intro segments
    induction segments with
    | nil => exact fun _ => ⟨trivial, rfl⟩
    | cons s segments ih =>
      intro h
      obtain ⟨⟨hblock, hgap⟩, h⟩ := List.forall_mem_cons.mp h
      obtain ⟨hgapAbove, hgapLevel⟩ := hplain s.1 hgap
      have hblockAbove : Above brace (1 + 0) s.2 := hblock.closes.above (by decide)
      have hblockLevel := hblock.closes.level_eq
      obtain ⟨hrestAbove, hrestLevel⟩ := ih h
      have hcons : spaced (s :: segments) = s.1 ++ s.2 ++ spaced segments := List.flatMap_cons
      rw [Int.zero_add] at hblockLevel
      rw [hcons, level_append, level_append, hgapLevel, hblockLevel, hrestLevel]
      refine ⟨Above.append (Above.append hgapAbove ?_) ?_, rfl⟩
      · rwa [hgapLevel]
      · rwa [level_append, hgapLevel, hblockLevel]
  intro segments h
  obtain ⟨habove, hzero⟩ := hlevel segments h
  obtain ⟨hrestAbove, hrestLevel⟩ := hplain rest hrest
  refine upToClose_append post (by decide) (habove.append (by rwa [hzero])) ?_
  rw [level_append, hzero, hrestLevel]
  decide

/-! ### The text of a configuration -/

/-- The blocks of the guests, each with what stands before it; `gap` stands
before the first body. -/
def vmSegments : (gap : Text) → List VmGuest → List (Text × Text)
  | _, [] => []
  | gap, g :: gs => (gap ++ g.before, g.block) :: vmSegments (g.after ++ ['\n']) gs

/-- What stands behind the last block. -/
def trailing : (gap : Text) → List VmGuest → Text
  | gap, [] => gap
  | _, g :: gs => trailing (g.after ++ ['\n']) gs

theorem unlines_bodies : ∀ (gap : Text) (gs : List VmGuest),
    gap ++ unlines '\n' (gs.map VmGuest.body) = spaced (vmSegments gap gs) ++ trailing gap gs
  | gap, [] => by simp [unlines, spaced, vmSegments, trailing]
  | gap, g :: gs => by
    have ih := unlines_bodies (g.after ++ ['\n']) gs
    have hcons : spaced (vmSegments gap (g :: gs)) =
        gap ++ g.before ++ g.block ++ spaced (vmSegments (g.after ++ ['\n']) gs) := List.flatMap_cons
    have hlines : unlines '\n' ((g :: gs).map VmGuest.body) =
        g.body ++ ['\n'] ++ unlines '\n' (gs.map VmGuest.body) := List.flatMap_cons
    rw [hcons, hlines, trailing, List.append_assoc _ (spaced _), ← ih, VmGuest.body]
    simp only [List.append_assoc]

theorem map_snd_vmSegments : ∀ (gap : Text) (gs : List VmGuest),
    (vmSegments gap gs).map Prod.snd = gs.map VmGuest.block
  | _, [] => rfl
  | _, g :: gs => by rw [vmSegments, List.map_cons, map_snd_vmSegments _ gs, List.map_cons]

theorem VmGuest.between_of_mem_after (g : VmGuest) : ∀ c ∈ g.after ++ ['\n'], Between c := by
  intro c hc
  simp only [VmGuest.after, List.mem_append] at hc
  rcases hc with ((hc | hc) | hc) | hc
  · exact .inl (g.between_space c hc)
  · split at hc
    · exact .inr (List.mem_singleton.mp hc)
    · cases hc
  · exact .inl (g.behind_space c hc)
  · rw [List.mem_singleton.mp hc]
    exact .inl (by decide)

theorem vmSegments_spec : ∀ {gap : Text} {gs : List VmGuest}, (∀ c ∈ gap, Between c) →
    (∀ s ∈ vmSegments gap gs, IsBlock s.2 ∧ ∀ c ∈ s.1, Between c) ∧ ∀ c ∈ trailing gap gs, Between c
  | _, [], h => ⟨fun _ hs => absurd hs List.not_mem_nil, h⟩
  | gap, g :: gs, h => by
    obtain ⟨hall, htrail⟩ := @vmSegments_spec _ gs g.between_of_mem_after
    refine ⟨List.forall_mem_cons.mpr ⟨⟨g.isBlock, fun c hc => ?_⟩, hall⟩, htrail⟩
    exact (List.mem_append.mp hc).elim (h c) fun hc => .inl (g.before_space c hc)

/-- Between any two blocks there is only what the loop skips. -/
def OnlySkippedBetween (guests : List VmGuest) : Prop :=
  guests.IsChain fun g h => (g.after ++ h.before).all isSkipped = true

/-- The blocks of the guests up to the first gap that is not all skipped. -/
def leadingBlocks : List VmGuest → List Text
  | [] => []
  | g :: gs => g.block :: reached (vmSegments (g.after ++ ['\n']) gs)

theorem all_skipped_iff : ∀ (g : VmGuest) (gs : List VmGuest),
    (∀ s ∈ vmSegments (g.after ++ ['\n']) gs, s.1.all isSkipped = true) ↔ OnlySkippedBetween (g :: gs)
  | g, [] => by
    simp [vmSegments, OnlySkippedBetween]
  | g, h :: gs => by
    have hgap : (g.after ++ ['\n'] ++ h.before).all isSkipped = (g.after ++ h.before).all isSkipped := by
      rw [List.all_append, List.all_append, List.all_append]
      simp [isSkipped]
    rw [vmSegments, List.forall_mem_cons, hgap, all_skipped_iff h gs, OnlySkippedBetween, OnlySkippedBetween,
      List.isChain_cons_cons]

/-- The configuration of named guests, as `combine_guests` makes it. -/
def guestsConfig (enableProfiler : Bool) (guests : List (Text × VmGuest)) : GuestConfig :=
  comboConfig enableProfiler (guests.map fun g => (g.1, g.2.text))

theorem guestsConfig_eq (enableProfiler : Bool) (guests : List (Text × VmGuest)) :
    guestsConfig enableProfiler guests =
      ⟨guests.map fun g => g.2.image, guests.map fun g => g.2.body.splitOn '\n', enableProfiler⟩ := by
  have hall : comboGuests (guests.map fun g => (g.1, g.2.text)) = guests.map fun g => (g.1, g.2.text) := by
    refine List.filter_eq_self.mpr fun e he => ?_
    obtain ⟨g, -, rfl⟩ := List.mem_map.mp he
    simp [VmGuest.text]
  have hsplit : ∀ g : VmGuest, g.text.splitOn '\n' = g.image :: g.body.splitOn '\n' := fun g =>
    splitOn_line g.image_line g.body
  unfold guestsConfig comboConfig
  rw [hall, List.map_map, List.map_map]
  simp only [Function.comp_def, hsplit, List.headD_cons, List.tail_cons]

/-- The text between the braces of the list of VMs. -/
def vmlistText (guests : List VmGuest) : Text :=
  "\n".toList ++ join "\n".toList (guests.map fun g => g.body.splitOn '\n').flatten ++ "\n\t".toList

/-- The lines of the bodies make the bodies. -/
theorem unlines_lines (guests : List VmGuest) :
    unlines '\n' (guests.map fun g => g.body.splitOn '\n').flatten =
      unlines '\n' (guests.map VmGuest.body) := by
  induction guests with
  | nil => rfl
  | cons g guests ih =>
    rw [List.map_cons, List.flatten_cons, unlines_append, ih, unlines_splitOn, List.map_cons, unlines,
      unlines, List.flatMap_cons]

theorem vmlistText_eq (guests : List VmGuest) : ∃ rest, (∀ c ∈ rest, Between c) ∧
    vmlistText guests = spaced (vmSegments ['\n'] guests) ++ rest := by
  have htab : ∀ c ∈ ['\t'], Between c := List.forall_mem_singleton.mpr (.inl (by decide))
  by_cases hg : guests = []
  · subst hg
    refine ⟨"\n\n\t".toList, ?_, rfl⟩
    unfold Between
    exact forall_mem_of_all (by decide)
  have hne : (guests.map fun g => g.body.splitOn '\n').flatten ≠ [] := by
    obtain ⟨g, gs, rfl⟩ := List.exists_cons_of_ne_nil hg
    rw [List.map_cons, List.flatten_cons]
    exact List.append_ne_nil_of_left_ne_nil (List.splitOn_ne_nil '\n' g.body) _
  refine ⟨trailing ['\n'] guests ++ ['\t'], fun c hc => ?_, ?_⟩
  · exact (List.mem_append.mp hc).elim ((vmSegments_spec between_newline).2 c) (htab c)
  · have hjoin := unlines_eq_intercalate '\n' hne
    rw [unlines_lines] at hjoin
    rw [← List.append_assoc, ← unlines_bodies, hjoin, vmlistText, join]
    simp

/-- The text before `.vmlist_size`. -/
def beforeSize (profiler : Bool) (images : List Text) : Text :=
  "#include <config.h>\n\n".toList ++ join "\n".toList images ++ "\n\n".toList ++
    (join "\n".toList configPreamble.tail ++ (if profiler then profilerContent else []) ++ "\t".toList)

theorem configContent_guests (enableProfiler includeProfiler : Bool) (guests : List (Text × VmGuest)) :
    configContent includeProfiler (guestsConfig enableProfiler guests) =
      beforeSize (includeProfiler || enableProfiler) (guests.map fun g => g.2.image) ++
        (".vmlist_size = ".toList ++ (showNat guests.length ++ ",\n\t".toList) ++
        (".vmlist = \x7b".toList ++ (vmlistText (guests.map Prod.snd) ++ '\x7d' :: "\n\x7d;\n".toList))) := by
  have hpre : configPreamble.headD [] = "#include <config.h>\n\n".toList := rfl
  have hsize : "\t.vmlist_size = ".toList = "\t".toList ++ ".vmlist_size = ".toList := by decide
  have hlist : "\t.vmlist = \x7b".toList = "\t".toList ++ ".vmlist = \x7b".toList := by decide
  have hnl : ",\n\t".toList = ",\n".toList ++ "\t".toList := by decide
  have hend : "\n".toList ++ ("\t\x7d\n".toList ++ "\x7d;\n".toList) =
      "\n\t".toList ++ '\x7d' :: "\n\x7d;\n".toList := by decide
  have hmap : (guests.map Prod.snd).map (fun g => g.body.splitOn '\n') =
      guests.map fun g => g.2.body.splitOn '\n' := List.map_map
  unfold configContent beforeSize vmlistText
  rw [guestsConfig_eq, hpre, hsize, hlist, hnl, hmap]
  simp only [List.append_assoc, List.length_map]
  rw [hend]

/-! ### The start of the list -/

theorem infix_join {tok : Text} (ht : '\n' ∉ tok) (hne : tok ≠ []) {ls : List Text}
    (h : tok <:+: join "\n".toList ls) : ∃ l ∈ ls, tok <:+: l := by
  by_cases hls : ls = []
  · subst hls
    exact absurd (List.infix_nil.mp h) hne
  · refine infix_unlines ht hne (h.trans ?_)
    rw [unlines_eq_intercalate '\n' hls]
    exact (List.prefix_append _ _).isInfix

theorem notInfix_beforeSize (profiler : Bool) {images : List Text}
    (h : ∀ image ∈ images, ¬ ".vmlist".toList <:+: image) :
    ¬ ".vmlist".toList <:+: beforeSize profiler images := by
  have hnl : '\n' ∉ ".vmlist".toList := by decide
  have hfixed : ¬ ".vmlist".toList <:+: '\n' :: (join "\n".toList configPreamble.tail ++
      (if profiler then profilerContent else []) ++ "\t".toList) := by
    rw [← find_isSome]
    cases profiler
    · decide +kernel
    · decide +kernel
  have hinclude : ¬ ".vmlist".toList <:+: "#include <config.h>\n".toList := by decide
  have hsplit : beforeSize profiler images = "#include <config.h>\n".toList ++ '\n' ::
      (join "\n".toList images ++ '\n' :: '\n' :: (join "\n".toList configPreamble.tail ++
        (if profiler then profilerContent else []) ++ "\t".toList)) := by
    have hend : "#include <config.h>\n\n".toList = "#include <config.h>\n".toList ++ ['\n'] := by decide
    have hblank : "\n\n".toList = ['\n', '\n'] := rfl
    unfold beforeSize
    rw [hend, hblank]
    simp only [List.append_assoc, List.cons_append, List.nil_append]
  rw [hsplit, infix_split_iff hnl, infix_split_iff hnl, not_or, not_or]
  refine ⟨hinclude, fun hin => ?_, hfixed⟩
  obtain ⟨image, himage, hin⟩ := infix_join hnl (by decide) hin
  exact h image himage hin

theorem vmlistPattern_first (rest : Text) : vmlistPattern.first (".vmlist = \x7b".toList ++ rest) =
    some ⟨[], ".vmlist = \x7b".toList, rest⟩ := by
  have hspace : ∀ c ∈ [' '], isSpace c = true := forall_mem_of_all (by decide)
  have hopen : ∀ c ∈ ('\x7b' :: rest).head?, isSpace c = false := by
    rintro c ⟨⟩
    decide
  have hequals : ∀ c ∈ ('=' :: ' ' :: '\x7b' :: rest).head?, isSpace c = false := by
    rintro c ⟨⟩
    decide
  have hbrace : (Pattern.concat [.lit "\x7b".toList]).first ('\x7b' :: rest) =
      some ⟨[], "\x7b".toList, rest⟩ := rfl
  -- from the brace back to the name of the list
  have hopt : (Pattern.concat [.opt structPattern, .lit "\x7b".toList]).first ('\x7b' :: rest) =
      some ⟨[], "\x7b".toList, rest⟩ := by
    have hstruct : (Pattern.seq structPattern (.concat [.lit "\x7b".toList])).first ('\x7b' :: rest) = none :=
      (first_seq_assoc _ _ _ _).trans (first_lit_seq_none
        (fun h => absurd (List.cons_prefix_cons.mp h).1 (by decide)) _)
    refine (first_alt_seq structPattern (.lit []) (.concat [.lit "\x7b".toList]) _).trans ?_
    rw [hstruct, Option.none_or, first_empty_seq, hbrace]
  have hblank := first_greedy_seq hspace (Nat.zero_le _) hopen hopt
  have heq := first_lit_seq "=".toList (' ' :: '\x7b' :: rest)
    (.seq (.greedy isSpace 0) (.concat [.opt structPattern, .lit "\x7b".toList]))
  rw [show ' ' :: '\x7b' :: rest = [' '] ++ '\x7b' :: rest from rfl, hblank] at heq
  have hname := first_greedy_seq hspace (Nat.zero_le _) hequals heq
  refine (first_lit_seq ".vmlist".toList (' ' :: '=' :: ' ' :: '\x7b' :: rest) _).trans ?_
  exact congrArg (Option.map (Match.append ⟨[], ".vmlist".toList, _⟩)) hname

theorem vmlistPattern_size (rest : Text) : vmlistPattern.first (".vmlist_size = ".toList ++ rest) = none := rfl

/-- No match starts where the name of the list does not. -/
theorem vmlistPattern_none {text : Text} (h : ¬ ".vmlist".toList <+: text) : vmlistPattern.first text = none :=
  first_lit_seq_none h _

/-- A search for something that starts with the name of the list, but not with
that of its size, gets to the list. -/
theorem search_vmlist {r : Pattern} (hname : ∀ {s : Text}, ¬ ".vmlist".toList <+: s → r.first s = none)
    (hsizeName : ∀ rest, r.first (".vmlist_size = ".toList ++ rest) = none) (profiler : Bool)
    {images : List Text} (h : ∀ image ∈ images, ¬ ".vmlist".toList <:+: image) {mid : Text} (hmid : '.' ∉ mid)
    (rest : Text) :
    r.search (beforeSize profiler images ++ (".vmlist_size = ".toList ++ mid ++ rest)) = r.search rest := by
  -- before the size: the name is not there, nor begun, behind the tab
  have hbefore : ∀ a, a ≠ [] → a <:+ beforeSize profiler images → ∀ t,
      ¬ ".vmlist".toList <+: a ++ t := by
    intro a hne ha t hpre
    have htab : ['\t'] <:+ beforeSize profiler images := by
      unfold beforeSize
      rw [← List.append_assoc]
      exact List.suffix_append _ _
    have hlast : ['\t'] <:+ a := List.suffix_of_suffix_length_le htab ha (List.length_pos_iff.mpr hne)
    rcases List.prefix_or_prefix_of_prefix hpre (List.prefix_append a t) with hin | hin
    · exact notInfix_beforeSize profiler h (hin.isInfix.trans ha.isInfix)
    · have hmem : '\t' ∈ ".vmlist".toList := hin.subset (hlast.subset List.mem_cons_self)
      exact absurd hmem (by decide)
  -- within the size: no dot
  have hsize : ∀ a, a ≠ [] → a <:+ "vmlist_size = ".toList ++ mid → ∀ t, ¬ ".vmlist".toList <+: a ++ t := by
    rintro a hne ha t hpre
    obtain ⟨c, a, rfl⟩ := List.exists_cons_of_ne_nil hne
    have hc : '.' = c := (List.cons_prefix_cons.mp hpre).1
    have hdot : '.' ∈ "vmlist_size = ".toList ++ mid := ha.subset (hc ▸ List.mem_cons_self)
    exact (List.mem_append.mp hdot).elim (by decide) hmid
  have hcons : ".vmlist_size = ".toList ++ mid ++ rest = '.' :: ("vmlist_size = ".toList ++ mid ++ rest) := rfl
  have hnone : r.first ('.' :: ("vmlist_size = ".toList ++ mid ++ rest)) = none := by
    rw [← hcons, List.append_assoc]
    exact hsizeName _
  rw [search_skip fun a hne ha => hname (hbefore a hne ha _), hcons, search_cons, hnone, Option.none_or,
    search_skip fun a hne ha => hname (hsize a hne ha _)]

/-- The search finds the list of VMs, not its size before it. -/
theorem vmlistPattern_search (profiler : Bool) {images : List Text}
    (h : ∀ image ∈ images, ¬ ".vmlist".toList <:+: image) {mid : Text} (hmid : '.' ∉ mid) (rest : Text) :
    vmlistPattern.search (beforeSize profiler images ++ (".vmlist_size = ".toList ++ mid ++
      (".vmlist = \x7b".toList ++ rest))) = some ⟨[], ".vmlist = \x7b".toList, rest⟩ := by
  rw [search_vmlist vmlistPattern_none vmlistPattern_size profiler h hmid]
  exact search_of_first (vmlistPattern_first rest)

/-! ### Recovery -/

/-- What is read of a generated text. -/
theorem extract_guests (enableProfiler includeProfiler : Bool) (guests : List (Text × VmGuest)) :
    extractVmConfigsFromFile (configContent includeProfiler (guestsConfig enableProfiler guests)) =
      some (leadingBlocks (guests.map Prod.snd)) := by
  have himages : ∀ image ∈ guests.map (fun g => g.2.image), ¬ ".vmlist".toList <:+: image := by
    intro image himage
    obtain ⟨g, -, rfl⟩ := List.mem_map.mp himage
    exact g.2.image_plain
  have hmid : '.' ∉ showNat guests.length ++ ",\n\t".toList := by
    rw [List.mem_append, not_or]
    exact ⟨notMem_showNat (by decide) _, by decide⟩
  obtain ⟨rest, hrest, hlist⟩ := vmlistText_eq (guests.map Prod.snd)
  have hall := (@vmSegments_spec _ (guests.map Prod.snd) between_newline).1
  rw [configContent_guests, extractVmConfigsFromFile, vmlistPattern_search _ himages hmid]
  dsimp only
  rw [hlist, upToClose_spaced hrest _ hall, List.dropLast_concat]
  cases hgs : guests.map Prod.snd with
  | nil =>
    refine vmBlocks_of_between (fun c hc => hrest c ?_) _
    exact (List.dropWhile_suffix isSpace).subset ((List.rdropWhile_prefix isSpace _).subset hc)
  | cons g gs =>
    rw [hgs] at hall
    have hgap : ∀ c ∈ ['\n'] ++ g.before, isSpace c = true := fun c hc =>
      (List.mem_append.mp hc).elim (fun hc => by rw [List.mem_singleton.mp hc]; decide) (g.before_space c)
    exact vmBlocks_strip hrest hgap g.isBlock fun s hs => hall s (List.mem_cons_of_mem _ hs)

/-- The blocks of the guests are read back, as many as the printed size says. -/
structure Recovered (text : Text) (guests : List VmGuest) : Prop where
  blocks : extractVmConfigsFromFile text = some (guests.map VmGuest.block)
  size : PrintsSize text (guests.map VmGuest.block).length

/-- **Main result.** The extraction from the generated text of any guests
always ends, and it gives exactly their blocks in order, as many as the text
prints for the size of the list, iff between any two blocks there is only what
is skipped; so with the profiler section and without it. -/
theorem vmConfigs_iff (configName : Text) (enableProfiler includeProfiler : Bool)
    (guests : List (Text × VmGuest)) :
    ∃ text, generateConfigs [configName] [guestsConfig enableProfiler guests] includeProfiler =
        some (.ofList [(configName, text)]) ∧
      (extractVmConfigsFromFile text).isSome ∧
      (Recovered text (guests.map Prod.snd) ↔ OnlySkippedBetween (guests.map Prod.snd)) := by
  refine ⟨_, rfl, extractVmConfigsFromFile_isSome _, ?_⟩
  have hsize : PrintsSize (configContent includeProfiler (guestsConfig enableProfiler guests))
      ((guests.map Prod.snd).map VmGuest.block).length := by
    refine ⟨beforeSize (includeProfiler || enableProfiler) (guests.map fun g => g.2.image),
      "\t.vmlist = \x7b".toList ++ (vmlistText (guests.map Prod.snd) ++ '\x7d' :: "\n\x7d;\n".toList), ?_, ?_⟩
    · have hnl : ",\n\t".toList = ",\n".toList ++ "\t".toList := by decide
      have hlist : "\t.vmlist = \x7b".toList = "\t".toList ++ ".vmlist = \x7b".toList := by decide
      rw [configContent_guests, hnl, hlist, List.length_map, List.length_map]
      simp only [List.append_assoc]
    · intro hin
      refine notInfix_beforeSize (includeProfiler || enableProfiler) (fun image himage => ?_)
        (List.IsInfix.trans (List.IsPrefix.isInfix ⟨"_size".toList, rfl⟩) hin)
      obtain ⟨g, -, rfl⟩ := List.mem_map.mp himage
      exact g.2.image_plain
  have hblocks : extractVmConfigsFromFile (configContent includeProfiler (guestsConfig enableProfiler guests)) =
      some ((guests.map Prod.snd).map VmGuest.block) ↔ OnlySkippedBetween (guests.map Prod.snd) := by
    rw [extract_guests, Option.some.injEq]
    cases guests.map Prod.snd with
    | nil => exact ⟨fun _ => .nil, fun _ => rfl⟩
    | cons g gs =>
      rw [leadingBlocks, List.map_cons, List.cons.injEq, and_iff_right rfl, ← map_snd_vmSegments (g.after ++ ['\n']) gs,
        reached_eq_iff, all_skipped_iff]
  exact ⟨fun h => hblocks.mp h.blocks, fun h => ⟨hblocks.mpr h, hsize⟩⟩

/-- A guest with an empty block, a comma and white space behind it. -/
def emptyVm (behind : Text) (h : behind.all isSpace = true) : VmGuest where
  image := "VM_IMAGE(linux_image)".toList
  before := "\t".toList
  block := "\x7b \x7d".toList
  between := []
  comma := true
  behind := behind
  image_line := by decide
  image_plain := by decide
  before_space := forall_mem_of_all (by decide)
  isBlock := ⟨" \x7d".toList, rfl, by decide⟩
  between_space := forall_mem_of_all (by decide)
  behind_space := List.all_eq_true.mp h

example : OnlySkippedBetween [emptyVm [' '] (by decide), emptyVm [] (by decide)] := by
  unfold OnlySkippedBetween
  decide

/-- A form feed behind the first block ends the loop before the second. -/
theorem formFeed_lost :
    let guests := [("a".toList, emptyVm [Char.ofNat 12] (by decide)), ("b".toList, emptyVm [] (by decide))]
    extractVmConfigsFromFile (configContent false (guestsConfig false guests)) = some ["\x7b \x7d".toList] ∧
      ¬ Recovered (configContent false (guestsConfig false guests)) (guests.map Prod.snd) := by
  intro guests
  have hone : extractVmConfigsFromFile (configContent false (guestsConfig false guests)) =
      some ["\x7b \x7d".toList] := by decide +kernel
  refine ⟨hone, fun h => ?_⟩
  have htwo := h.blocks
  rw [hone] at htwo
  exact absurd htwo (by decide)

end TestEngine
end DaatMcs
