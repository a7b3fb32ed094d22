/-
# The names of CCI tests

The folder of a CCI test is named after its configuration, with the name of a
Linux workload before it where there is one. Two analysis scripts read the
parameters back: `parse_test_folder` looks for one complete pattern,
`parse_folder_name` for each parameter by itself, and each takes the first
place it finds. The parameters come last in the name, so a workload's name can
show them something else before; `decodes_iff` is exactly when it does not.
-/
import DaatMcs.Generator.Combine
import DaatMcs.Generator.Guests
import DaatMcs.Lib.Lines

namespace DaatMcs
namespace Scripts

open Literal Regex

inductive TestType
  | solo
  | dma
  | dmaFpga
deriving DecidableEq

def TestType.text : TestType → Text
  | .solo => "SOLO".toList
  | .dma => "DMA".toList
  | .dmaFpga => "DMA_FPGA".toList

/-- The parameters of a CCI test. -/
structure CciTest where
  testType : TestType
  snoop : ℕ
  channels : ℕ
  coherency : ℕ
  snoop_mem : snoop = 1 ∨ snoop = 2
  coherency_mem : coherency = 0 ∨ coherency = 1

/-- The guest entry of a test. -/
def CciTest.guest (t : CciTest) (cpuIDs : List ℕ) : Guests.CciGuest where
  testType := "TEST_TYPE_".toList ++ t.testType.text
  snoopType := t.snoop
  channels := t.channels
  coherency := t.coherency
  cpuIDs := cpuIDs

/-- The name of the combination with a Linux workload, or of the test alone. -/
def folderName (workload : Option Text) (t : CciTest) (cpuIDs : List ℕ) : Text :=
  join "_".toList ((workload.map Guests.linuxName).toList ++ [(t.guest cpuIDs).configName])

/-! ### `ila_waves_info.py` -/

/-- An entry of `SNOOP_CONFIG`. -/
structure SnoopConfig where
  reqValid : Text
  reqReady : Text
  response : Text
  reqValue : Text
  respValue : Text
  typeName : Text

def snoopConfig : ℕ → Option SnoopConfig
  | 1 => some
    { reqValid := "design_1_i/system_ila_0/inst/SLOT_0_ACEMM_arvalid_1".toList
      reqReady := "design_1_i/system_ila_0/inst/SLOT_0_ACEMM_arready_1".toList
      response := "design_1_i/system_ila_0/inst/SLOT_0_ACEMM_rvalid_1".toList
      reqValue := "SEND_AR".toList
      respValue := "1".toList
      typeName := "read".toList }
  | 2 => some
    { reqValid := "design_1_i/system_ila_0/inst/SLOT_0_ACEMM_awvalid_1".toList
      reqReady := "design_1_i/system_ila_0/inst/SLOT_0_ACEMM_awready_1".toList
      response := "design_1_i/system_ila_0/inst/SLOT_0_ACEMM_bvalid_1".toList
      reqValue := "SEND_AW".toList
      respValue := "1".toList
      typeName := "write".toList }
  | _ => none

/-- `\d`. -/
def isDecimal (u : UnicodeData) (c : Char) : Bool := (u.decimal c).isSome

def cciPattern (u : UnicodeData) : Pattern := .concat
  [.lit "baremetal_cci_TEST_TYPE_".toList,
    .group "testtype" (.alt (.lit "SOLO".toList) (.alt (.lit "DMA".toList) (.lit "DMA_FPGA".toList))),
    .lit "_snoop".toList, .group "snoop" (.set fun c => c = '1' || c = '2'),
    .lit "_ch".toList, .group "channels" (.greedy (isDecimal u) 1),
    .lit "_coh".toList, .group "coh" (.set fun c => c = '0' || c = '1'),
    .lit "_C".toList, .greedy (isDecimal u) 1]

/-- What `parse_test_folder` returns. -/
structure TestInfo where
  interference : Text
  snoopType : Text
  channels : ℕ
  coherency : Text
  snoopId : ℕ
deriving DecidableEq

def interference (testtype : Text) : Text :=
  if testtype = "SOLO".toList then "solo".toList
  else if testtype = "DMA".toList then "dma_interf".toList
  else if testtype = "DMA_FPGA".toList then "dma+fpga_interf".toList
  else "unknown".toList

/-- The values of the groups; none is a `KeyError` or `ValueError`. -/
def testInfo (u : UnicodeData) (info : String → Option Text) : Option TestInfo := do
  let testtype ← info "testtype"
  let snoopId ← (info "snoop").bind (intOf u)
  let cfg ← snoopConfig snoopId
  let coh ← info "coh"
  let channels ← (info "channels").bind (intOf u)
  return {
    interference := interference testtype
    snoopType := cfg.typeName
    channels := channels
    coherency := if coh = "1".toList then "coherent".toList else "non_coherent".toList
    snoopId := snoopId }

/-- None is the `ValueError` of an invalid name. -/
def parseTestFolder (u : UnicodeData) (folder : Text) : Option TestInfo :=
  ((cciPattern u).search folder).bind fun m => testInfo u m.group?

/-! ### `hist_macro.py` -/

/-- What `parse_folder_name` returns. -/
structure FolderParams where
  testType : TestType
  snoop : ℕ
  channels : ℕ
  coherency : ℕ
deriving DecidableEq

/-- `key(\d+)`. -/
def numberPattern (u : UnicodeData) (key : Text) : Pattern :=
  .seq (.lit key) (.group "1" (.greedy (isDecimal u) 1))

/-- The first number behind a key. -/
def firstNumber (u : UnicodeData) (key folder : Text) : Option ℕ :=
  ((numberPattern u key).search folder).bind fun m => (m.group? "1").bind (intOf u)

def folderTestType (folder : Text) : Option TestType :=
  if (find "TEST_TYPE_DMA_FPGA".toList folder).isSome then some .dmaFpga
  else if (find "TEST_TYPE_DMA".toList folder).isSome then some .dma
  else if (find "TEST_TYPE_SOLO".toList folder).isSome then some .solo
  else none

def parseFolderName (u : UnicodeData) (folder : Text) : Option FolderParams := do
  let testType ← folderTestType folder
  let snoop ← firstNumber u "snoop".toList folder
  let channels ← firstNumber u "ch".toList folder
  let coherency ← firstNumber u "coh".toList folder
  return ⟨testType, snoop, channels, coherency⟩

/-! ### Decoding -/

/-- The parameters as the first script names them. -/
def CciTest.info (t : CciTest) : TestInfo where
  interference := match t.testType with
    | .solo => "solo".toList
    | .dma => "dma_interf".toList
    | .dmaFpga => "dma+fpga_interf".toList
  snoopType := if t.snoop = 1 then "read".toList else "write".toList
  channels := t.channels
  coherency := if t.coherency = 1 then "coherent".toList else "non_coherent".toList
  snoopId := t.snoop

/-- The parameters as the second script names them. -/
def CciTest.params (t : CciTest) : FolderParams := ⟨t.testType, t.snoop, t.channels, t.coherency⟩

/-- Both scripts read the parameters off the name. -/
def Decodes (u : UnicodeData) (workload : Option Text) (t : CciTest) (cpuIDs : List ℕ) : Prop :=
  parseTestFolder u (folderName workload t cpuIDs) = some t.info ∧
    parseFolderName u (folderName workload t cpuIDs) = some t.params

/-- The workload's name shows no other parameters: no test type that is looked
for before the test's, behind each key no other number first, and no complete
test name of another test. -/
structure Harmless (u : UnicodeData) (workload : Text) (t : CciTest) : Prop where
  testType : match t.testType with
    | .solo => ¬ "TEST_TYPE_DMA".toList <:+: workload
    | .dma => ¬ "TEST_TYPE_DMA_FPGA".toList <:+: workload
    | .dmaFpga => True
  snoop : ∀ n, firstNumber u "snoop".toList workload = some n → n = t.snoop
  channels : ∀ n, firstNumber u "ch".toList workload = some n → n = t.channels
  coherency : ∀ n, firstNumber u "coh".toList workload = some n → n = t.coherency
  test : ∀ m, (cciPattern u).search workload = some m → testInfo u m.group? = some t.info

/-! ### The first number behind a key -/

section
variable {u : UnicodeData} {key : Text}

theorem isDecimal_ascii {c : Char} (hc : c.toNat < 128) : isDecimal u c = c.isDigit := by
  rw [isDecimal, u.decimal_ascii c hc]
  cases c.isDigit <;> rfl

theorem isDecimal_showNat (n : ℕ) : ∀ c ∈ showNat n, isDecimal u c = true := fun c hc => by
  have hd := digit_of_mem_showNat hc
  have hlt := (toNat_of_isDigit hd).2
  rw [isDecimal_ascii (by omega), hd]

/-- What the number pattern matches: the key and digits behind it. -/
theorem number_match {s : Text} {m : Match} (h : m ∈ (numberPattern u key).matches s) :
    ∃ digits, m.groups = [("1", digits)] ∧ m.taken = key ++ digits ∧ digits ≠ [] ∧
      ∀ c ∈ digits, isDecimal u c = true := by
  obtain ⟨a, ha, b, hb, rfl⟩ := mem_matches_seq.mp h
  obtain ⟨hga, hta, -⟩ := mem_matches_lit.mp ha
  obtain ⟨k, hk, rfl⟩ := mem_matches_group.mp hb
  obtain ⟨hgk, -, hall, hlen⟩ := mem_runMatches.mp (List.mem_reverse.mp hk)
  refine ⟨k.taken, ?_, ?_, List.length_pos_iff.mp hlen, hall⟩
  · rw [Match.append, hga, hgk]
    rfl
  · rw [Match.append, hta]

theorem isSome_intOf {digits : Text} (h : ∀ c ∈ digits, isDecimal u c = true) :
    (intOf u digits).isSome := by
  have hmap : digits.mapM u.decimal = some (digits.map fun c => (u.decimal c).getD 0) :=
    mapM_eq_some fun c hc => by
      obtain ⟨d, hd⟩ := Option.isSome_iff_exists.mp (h c hc)
      rw [hd, Option.getD_some]
  rw [intOf, hmap]
  rfl

/-- The number that the groups hold. -/
def groupNumber (u : UnicodeData) (groups : List (String × Text)) : Option ℕ :=
  ((Match.mk groups [] []).group? "1").bind (intOf u)

theorem firstNumber_eq (s : Text) : firstNumber u key s =
    (((numberPattern u key).search s).map Match.groups).bind (groupNumber u) := by
  rw [firstNumber, Option.bind_map]
  rfl

/-- A key that is found has a number behind it. -/
theorem firstNumber_or (s t : Text) : ((((numberPattern u key).search s).map Match.groups).or
      (((numberPattern u key).search t).map Match.groups)).bind (groupNumber u) =
    (firstNumber u key s).or (firstNumber u key t) := by
  rw [firstNumber_eq, firstNumber_eq]
  cases hs : (numberPattern u key).search s with
  | none => rfl
  | some m =>
    obtain ⟨a, -, hm⟩ := exists_of_search hs
    obtain ⟨digits, hg, -, -, hall⟩ := number_match hm
    obtain ⟨n, hn⟩ := Option.isSome_iff_exists.mp (isSome_intOf hall)
    have hnum : groupNumber u m.groups = some n := by
      rw [hg, groupNumber]
      exact hn
    rw [Option.map_some, Option.some_or, Option.bind_some, hnum, Option.some_or]

theorem firstNumber_of_not_infix {s : Text} (h : ¬ key <:+: s) : firstNumber u key s = none := by
  have hnone : (numberPattern u key).search s = none := search_eq_none fun a ha =>
    first_lit_seq_none (fun hkey => h (hkey.isInfix.trans ha.isInfix)) _
  rw [firstNumber, hnone]
  rfl

theorem firstNumber_of_not_mem {c : Char} {s : Text} (hc : c ∈ key) (hs : c ∉ s) :
    firstNumber u key s = none := firstNumber_of_not_infix fun h => hs (h.subset hc)

/-- No number is read across an underscore. -/
theorem firstNumber_append (hkey : '_' ∉ key) (hne : key ≠ []) (s t : Text) :
    firstNumber u key (s ++ '_' :: t) = (firstNumber u key s).or (firstNumber u key t) := by
  have havoids : (numberPattern u key).avoids '_' = true := by
    have hdigit : isDecimal u '_' = false := isDecimal_ascii (by decide)
    simpa [numberPattern, Pattern.avoids, hdigit] using hkey
  have hwithin : ∀ a, a ≠ [] → a <:+ s → ∀ m ∈ (numberPattern u key).matches (a ++ '_' :: t),
      m.taken.length ≤ a.length := by
    intro a _ _ m hm
    by_contra hlt
    rw [Nat.not_le] at hlt
    have hpre : a ++ ['_'] <+: m.taken := by
      refine List.prefix_of_prefix_length_le ⟨t, by simp⟩ ⟨m.rest, taken_append_rest hm⟩ ?_
      rw [List.length_append]
      exact hlt
    exact notMem_taken havoids hm (hpre.subset (List.mem_append_right a (List.mem_singleton_self '_')))
  have hfirst : ∀ x : Text, ¬ key <+: x → (numberPattern u key).first x = none :=
    fun x hx => first_lit_seq_none hx _
  have hunder : ¬ key <+: '_' :: t := fun h => by
    obtain ⟨c, k, rfl⟩ := List.exists_cons_of_ne_nil hne
    obtain rfl := (List.cons_prefix_cons.mp h).1
    exact hkey List.mem_cons_self
  rw [firstNumber_eq, search_append rfl (hfirst [] fun h => hne (List.prefix_nil.mp h)) hwithin,
    search_cons, hfirst _ hunder, Option.none_or, firstNumber_or]

theorem firstNumber_key (key : Text) (n : ℕ) : firstNumber u key (key ++ showNat n) = some n := by
  have hdigits : (Pattern.group "1" (.greedy (isDecimal u) 1)).Captures (showNat n ++ [])
      [("1", showNat n)] :=
    captures_greedy "1" (isDecimal_showNat n) (List.length_pos_iff.mpr (showNat_ne_nil n))
      fun c hc => by cases hc
  have hfound : (numberPattern u key).Captures (key ++ showNat n) [("1", showNat n)] := by
    rw [List.append_nil] at hdigits
    exact captures_lit_seq hdigits key
  rw [firstNumber_eq, search_of_captures hfound, Option.bind_some, groupNumber]
  exact intOf_showNat u n

end

/-! ### The name of a test -/

/-- The name up to the test type. -/
def front (t : CciTest) : Text := "baremetal_cci_TEST_TYPE_".toList ++ t.testType.text

theorem configName_eq (t : CciTest) (cpuIDs : List ℕ) : (t.guest cpuIDs).configName =
    front t ++ '_' :: ("snoop".toList ++ showNat t.snoop ++ '_' :: ("ch".toList ++ showNat t.channels ++
      '_' :: ("coh".toList ++ showNat t.coherency ++ '_' :: ("C".toList ++ showNat cpuIDs.length)))) := by
  have hfront : "baremetal_cci_TEST_TYPE_".toList = "baremetal_cci_".toList ++ "TEST_TYPE_".toList := rfl
  have hsnoop : "_snoop".toList = '_' :: "snoop".toList := rfl
  have hch : "_ch".toList = '_' :: "ch".toList := rfl
  have hcoh : "_coh".toList = '_' :: "coh".toList := rfl
  have hcpus : "_C".toList = '_' :: "C".toList := rfl
  unfold Guests.CciGuest.configName front CciTest.guest
  rw [hfront, hsnoop, hch, hcoh, hcpus]
  simp only [List.append_assoc, List.cons_append]

theorem folderName_some (w : Text) (t : CciTest) (cpuIDs : List ℕ) : folderName (some w) t cpuIDs =
    "linux".toList ++ '_' :: (w ++ '_' :: (t.guest cpuIDs).configName) := by
  have hlinux : "linux_".toList = "linux".toList ++ ['_'] := rfl
  have hsep : "_".toList = ['_'] := rfl
  have hname : Guests.linuxName w = "linux_".toList ++ w := rfl
  show join "_".toList [Guests.linuxName w, (t.guest cpuIDs).configName] = _
  rw [join, List.intercalate_cons_cons, List.intercalate_singleton, hname, hlinux, hsep]
  simp only [List.append_assoc, List.cons_append, List.nil_append]

theorem folderName_none (t : CciTest) (cpuIDs : List ℕ) :
    folderName none t cpuIDs = (t.guest cpuIDs).configName := by
  show join "_".toList [(t.guest cpuIDs).configName] = _
  rw [join, List.intercalate_singleton]

/-- It is the name `combine_guests` gives the two guests, whatever their texts. -/
theorem comboName_eq (w : Text) (t : CciTest) (cpuIDs : List ℕ) {linux cci : Text} (hl : linux ≠ [])
    (hc : cci ≠ []) :
    TestEngine.comboName [(Guests.linuxName w, linux), ([], []), ([], []),
      ((t.guest cpuIDs).configName, cci)] = folderName (some w) t cpuIDs := by
  have hw : Guests.linuxName w ≠ [] := List.cons_ne_nil _ _
  have hn : (t.guest cpuIDs).configName ≠ [] := by
    unfold Guests.CciGuest.configName
    simp only [List.append_assoc]
    exact List.cons_ne_nil _ _
  simp [TestEngine.comboName, TestEngine.comboGuests, folderName, hl, hc, hw, hn]

section
variable {u : UnicodeData} (t : CciTest) (cpuIDs : List ℕ)

theorem number_notMem {key : Text} {c : Char} (hkey : c ∉ key) (hc : c.isDigit = false) (n : ℕ) :
    c ∉ key ++ showNat n := fun h =>
  (List.mem_append.mp h).elim hkey (notMem_showNat hc n)

theorem firstNumber_front {key : Text} (hkey : ¬ key <:+: "baremetal_cci_TEST_TYPE_SOLO".toList ∧
    ¬ key <:+: "baremetal_cci_TEST_TYPE_DMA".toList ∧
    ¬ key <:+: "baremetal_cci_TEST_TYPE_DMA_FPGA".toList) : firstNumber u key (front t) = none := by
  apply firstNumber_of_not_infix
  unfold front
  cases t.testType with
  | solo => exact hkey.1
  | dma => exact hkey.2.1
  | dmaFpga => exact hkey.2.2

theorem firstNumber_snoop :
    firstNumber u "snoop".toList (t.guest cpuIDs).configName = some t.snoop := by
  rw [configName_eq, firstNumber_append (by decide) (by decide), firstNumber_front t (by decide),
    Option.none_or, firstNumber_append (by decide) (by decide), firstNumber_key, Option.some_or]

theorem firstNumber_channels :
    firstNumber u "ch".toList (t.guest cpuIDs).configName = some t.channels := by
  rw [configName_eq, firstNumber_append (by decide) (by decide), firstNumber_front t (by decide),
    Option.none_or, firstNumber_append (by decide) (by decide),
    firstNumber_of_not_mem (c := 'c') (by decide) (number_notMem (by decide) (by decide) _),
    Option.none_or, firstNumber_append (by decide) (by decide), firstNumber_key, Option.some_or]

theorem firstNumber_coherency :
    firstNumber u "coh".toList (t.guest cpuIDs).configName = some t.coherency := by
  rw [configName_eq, firstNumber_append (by decide) (by decide), firstNumber_front t (by decide),
    Option.none_or, firstNumber_append (by decide) (by decide),
    firstNumber_of_not_mem (c := 'c') (by decide) (number_notMem (by decide) (by decide) _),
    Option.none_or, firstNumber_append (by decide) (by decide),
    firstNumber_of_not_mem (c := 'o') (by decide) (number_notMem (by decide) (by decide) _),
    Option.none_or, firstNumber_append (by decide) (by decide), firstNumber_key, Option.some_or]

/-- In the whole name the workload's numbers come first. -/
theorem firstNumber_folderName {key : Text} (hkey : '_' ∉ key) (hne : key ≠ [])
    (hlinux : ¬ key <:+: "linux".toList) (w : Text) :
    firstNumber u key (folderName (some w) t cpuIDs) =
      (firstNumber u key w).or (firstNumber u key (t.guest cpuIDs).configName) := by
  rw [folderName_some, firstNumber_append hkey hne, firstNumber_of_not_infix hlinux, Option.none_or,
    firstNumber_append hkey hne]

end

/-! ### The test type -/

/-- The texts `parse_folder_name` looks for. -/
def typeTexts : List Text :=
  ["TEST_TYPE_DMA_FPGA".toList, "TEST_TYPE_DMA".toList, "TEST_TYPE_SOLO".toList]

theorem exists_configName_cons (t : CciTest) (cpuIDs : List ℕ) :
    ∃ rest, (t.guest cpuIDs).configName = 'b' :: rest := by
  have hb : "baremetal_cci_TEST_TYPE_".toList = 'b' :: "aremetal_cci_TEST_TYPE_".toList := rfl
  obtain ⟨r, hr⟩ : ∃ r, front t = 'b' :: r := by
    unfold front
    rw [hb]
    exact ⟨_, rfl⟩
  rw [configName_eq, hr]
  exact ⟨_, rfl⟩

theorem typeText_folderName (w : Text) (t : CciTest) (cpuIDs : List ℕ) : ∀ pat ∈ typeTexts,
    pat <:+: folderName (some w) t cpuIDs ↔ pat <:+: w ∨ pat <:+: (t.guest cpuIDs).configName := by
  intro pat hpat
  obtain ⟨rest, hrest⟩ := exists_configName_cons t cpuIDs
  have hshape : 'b' ∉ pat ∧ ∃ c tok, c ≠ '_' ∧ pat = 'T' :: (tok ++ [c]) := by
    rcases List.mem_cons.mp hpat with rfl | hpat
    · exact ⟨by decide, 'A', "EST_TYPE_DMA_FPG".toList, by decide, rfl⟩
    · rcases List.mem_cons.mp hpat with rfl | hpat
      · exact ⟨by decide, 'A', "EST_TYPE_DM".toList, by decide, rfl⟩
      · obtain rfl := List.mem_singleton.mp hpat
        exact ⟨by decide, 'O', "EST_TYPE_SOL".toList, by decide, rfl⟩
  obtain ⟨hb, c, tok, hc, rfl⟩ := hshape
  have hname : folderName (some w) t cpuIDs = "linux_".toList ++ w ++ ['_'] ++ 'b' :: rest := by
    have hlinux : "linux_".toList = "linux".toList ++ ['_'] := rfl
    rw [folderName_some, hrest, hlinux]
    simp only [List.append_assoc, List.cons_append, List.nil_append]
  rw [hname, infix_split_iff hb, hrest, ← List.nil_append ('b' :: rest), infix_split_iff hb]
  constructor
  · rintro (h | h)
    · left
      rw [← List.cons_append] at h ⊢
      have h' := infix_of_append _ (fun hmem => hc (List.mem_singleton.mp hmem)) h
      exact infix_of_prepend _ (by decide) h'
    · exact .inr (.inr h)
  · rintro (h | h | h)
    · left
      exact h.trans ((List.suffix_append _ w).isInfix.trans (List.prefix_append _ ['_']).isInfix)
    · exact absurd (List.infix_nil.mp h) (List.cons_ne_nil _ _)
    · exact .inr h

theorem notMem_configName {t : CciTest} {cpuIDs : List ℕ} {c : Char} (hfront : c ∉ front t)
    (hkeys : c ∉ "_snoop_ch_coh_C".toList) (hc : c.isDigit = false) :
    c ∉ (t.guest cpuIDs).configName := by
  have hnum := fun n => notMem_showNat hc n
  have hkeys' : c ∉ "snoop".toList ∧ c ∉ "ch".toList ∧ c ∉ "coh".toList ∧ c ∉ "C".toList ∧ c ≠ '_' := by
    refine ⟨fun h => hkeys ?_, fun h => hkeys ?_, fun h => hkeys ?_, fun h => hkeys ?_, fun h => hkeys ?_⟩
    · exact (show "snoop".toList ⊆ "_snoop_ch_coh_C".toList by decide) h
    · exact (show "ch".toList ⊆ "_snoop_ch_coh_C".toList by decide) h
    · exact (show "coh".toList ⊆ "_snoop_ch_coh_C".toList by decide) h
    · exact (show "C".toList ⊆ "_snoop_ch_coh_C".toList by decide) h
    · rw [h]
      decide
  obtain ⟨h₁, h₂, h₃, h₄, hu⟩ := hkeys'
  rw [configName_eq]
  simp only [List.mem_append, List.mem_cons, not_or]
  exact ⟨hfront, hu, ⟨h₁, hnum _⟩, hu, ⟨h₂, hnum _⟩, hu, ⟨h₃, hnum _⟩, hu, h₄, hnum _⟩

theorem testType_infix_configName (t : CciTest) (cpuIDs : List ℕ) :
    ("TEST_TYPE_".toList ++ t.testType.text) <:+: (t.guest cpuIDs).configName := by
  unfold Guests.CciGuest.configName CciTest.guest
  simp only [List.append_assoc]
  exact ⟨"baremetal_cci_".toList, _, by simp only [List.append_assoc]; rfl⟩

/-- A text with a letter that neither the front nor the rest of the name has. -/
theorem not_infix_configName {t : CciTest} {cpuIDs : List ℕ} {pat : Text} (c : Char) (hpat : c ∈ pat)
    (hfront : c ∉ front t) (hkeys : c ∉ "_snoop_ch_coh_C".toList) (hc : c.isDigit = false) :
    ¬ pat <:+: (t.guest cpuIDs).configName := by
  intro hin
  exact notMem_configName hfront hkeys hc (hin.subset hpat)

theorem not_dma_configName {t : CciTest} (cpuIDs : List ℕ) (ht : t.testType = .solo) :
    ¬ "TEST_TYPE_DMA".toList <:+: (t.guest cpuIDs).configName := by
  apply not_infix_configName 'D' (by decide) _ (by decide) (by decide)
  unfold front
  rw [ht]
  decide

theorem not_dmaFpga_configName {t : CciTest} (cpuIDs : List ℕ) (ht : t.testType = .dma) :
    ¬ "TEST_TYPE_DMA_FPGA".toList <:+: (t.guest cpuIDs).configName := by
  apply not_infix_configName 'F' (by decide) _ (by decide) (by decide)
  unfold front
  rw [ht]
  decide

/-- The type of a name that shows these texts as the workload or the test does. -/
theorem folderTestType_iff {x w : Text} {t : CciTest} {cpuIDs : List ℕ}
    (h : ∀ pat ∈ typeTexts, pat <:+: x ↔ pat <:+: w ∨ pat <:+: (t.guest cpuIDs).configName) :
    folderTestType x = some t.testType ↔ match t.testType with
      | .solo => ¬ "TEST_TYPE_DMA".toList <:+: w
      | .dma => ¬ "TEST_TYPE_DMA_FPGA".toList <:+: w
      | .dmaFpga => True := by
  have hself := testType_infix_configName t cpuIDs
  have hfpga := h "TEST_TYPE_DMA_FPGA".toList List.mem_cons_self
  have hdma := h "TEST_TYPE_DMA".toList (List.mem_cons_of_mem _ List.mem_cons_self)
  have hsolo := h "TEST_TYPE_SOLO".toList
    (List.mem_cons_of_mem _ (List.mem_cons_of_mem _ List.mem_cons_self))
  have hsub : "TEST_TYPE_DMA".toList <:+: "TEST_TYPE_DMA_FPGA".toList := by decide
  have hfpgaText : "TEST_TYPE_DMA_FPGA".toList = "TEST_TYPE_".toList ++ TestType.dmaFpga.text := rfl
  have hdmaText : "TEST_TYPE_DMA".toList = "TEST_TYPE_".toList ++ TestType.dma.text := rfl
  have hsoloText : "TEST_TYPE_SOLO".toList = "TEST_TYPE_".toList ++ TestType.solo.text := rfl
  unfold folderTestType
  simp only [find_isSome]
  cases ht : t.testType with
  | solo =>
    have hnot := not_dma_configName cpuIDs ht
    rw [ht, ← hsoloText] at hself
    rw [or_iff_left hnot] at hdma
    rw [or_iff_left (mt hsub.trans hnot)] at hfpga
    by_cases hw : "TEST_TYPE_DMA".toList <:+: w
    · rw [if_pos (hdma.mpr hw)]
      refine ⟨fun heq => ?_, fun hnw => absurd hw hnw⟩
      split_ifs at heq
      · exact absurd (Option.some.inj heq) (by decide)
      · exact absurd (Option.some.inj heq) (by decide)
    · rw [if_neg (mt hfpga.mp (mt hsub.trans hw)), if_neg (mt hdma.mp hw),
        if_pos (hsolo.mpr (.inr hself))]
      exact ⟨fun _ => hw, fun _ => rfl⟩
  | dma =>
    have hnot := not_dmaFpga_configName cpuIDs ht
    rw [ht, ← hdmaText] at hself
    rw [or_iff_left hnot] at hfpga
    by_cases hw : "TEST_TYPE_DMA_FPGA".toList <:+: w
    · rw [if_pos (hfpga.mpr hw)]
      exact ⟨fun heq => absurd (Option.some.inj heq) (by decide), fun hnw => absurd hw hnw⟩
    · rw [if_neg (mt hfpga.mp hw), if_pos (hdma.mpr (.inr hself))]
      exact ⟨fun _ => hw, fun _ => rfl⟩
  | dmaFpga =>
    rw [ht, ← hfpgaText] at hself
    rw [if_pos (hfpga.mpr (.inr hself))]
    exact ⟨fun _ => trivial, fun _ => rfl⟩

/-! ### The complete pattern -/

section
variable {u : UnicodeData}

/-- A match starts with the only `b` in it, and ends with a digit. -/
theorem cci_match {s : Text} {m : Match} (h : m ∈ (cciPattern u).matches s) :
    (∃ r, m.taken = 'b' :: r ∧ 'b' ∉ r) ∧ ∀ c ∈ m.taken.getLast?, isDecimal u c = true := by
  constructor
  · obtain ⟨a, ha, b, hb, rfl⟩ := mem_matches_seq.mp h
    obtain ⟨-, htaken, -⟩ := mem_matches_lit.mp ha
    have hlit : "baremetal_cci_TEST_TYPE_".toList = 'b' :: "aremetal_cci_TEST_TYPE_".toList := rfl
    have hdigit : isDecimal u 'b' = false := isDecimal_ascii (by decide)
    refine ⟨"aremetal_cci_TEST_TYPE_".toList ++ b.taken, ?_, fun hmem => ?_⟩
    · rw [Match.append, htaken, hlit, List.cons_append]
    · rcases List.mem_append.mp hmem with hmem | hmem
      · exact absurd hmem (by decide)
      · refine notMem_taken ?_ hb hmem
        simp [Pattern.avoids, hdigit]
  · obtain ⟨x, t, k, hk, htaken⟩ := exists_last_of_concat (r := .greedy (isDecimal u) 1) rfl h
    obtain ⟨-, -, hall, hlen⟩ := mem_runMatches.mp (List.mem_reverse.mp hk)
    intro c hc
    rw [htaken, List.getLast?_append_of_ne_nil _ (List.length_pos_iff.mp hlen)] at hc
    exact hall c (List.mem_of_getLast? hc)

/-- No match goes across the underscore before a test's name. -/
theorem cci_within {s t : Text} {m : Match} (hs : s ≠ [])
    (h : m ∈ (cciPattern u).matches (s ++ '_' :: 'b' :: t)) : m.taken.length ≤ s.length := by
  obtain ⟨⟨r, hr, hb⟩, hlast⟩ := cci_match h
  by_contra hlt
  rw [Nat.not_le] at hlt
  have hpre : s ++ ['_'] <+: m.taken := by
    refine List.prefix_of_prefix_length_le ⟨'b' :: t, by simp⟩ ⟨m.rest, taken_append_rest h⟩ ?_
    rw [List.length_append]
    exact hlt
  obtain ⟨x, hx⟩ := hpre
  cases x with
  | nil =>
    -- it ends with the underscore
    have hdigit := hlast '_' (by rw [← hx, List.append_nil, List.getLast?_concat]; rfl)
    rw [isDecimal_ascii (by decide)] at hdigit
    exact absurd hdigit (by decide)
  | cons c x =>
    -- it has a second `b`
    have hcut := taken_append_rest h
    rw [← hx] at hcut
    simp only [List.append_assoc, List.cons_append, List.nil_append, List.append_cancel_left_eq,
      List.cons.injEq, true_and] at hcut
    obtain ⟨d, s', rfl⟩ := List.exists_cons_of_ne_nil hs
    rw [hcut.1, hr, List.cons_append, List.cons_append, List.cons.injEq] at hx
    refine hb ?_
    rw [← hx.2]
    exact List.mem_append_right _ List.mem_cons_self

theorem cci_first_of_not_b {s : Text} (hs : ∀ c ∈ s.head?, c ≠ 'b') : (cciPattern u).first s = none := by
  refine first_lit_seq_none (fun hpre => ?_) _
  have hlit : "baremetal_cci_TEST_TYPE_".toList = 'b' :: "aremetal_cci_TEST_TYPE_".toList := rfl
  rw [hlit] at hpre
  obtain ⟨x, rfl⟩ := hpre
  exact hs 'b' rfl rfl

/-- In the whole name a test's name within the workload's comes first. -/
theorem search_folderName (w : Text) (t : CciTest) (cpuIDs : List ℕ) :
    ((cciPattern u).search (folderName (some w) t cpuIDs)).map Match.groups =
      (((cciPattern u).search w).map Match.groups).or
        (((cciPattern u).search (t.guest cpuIDs).configName).map Match.groups) := by
  obtain ⟨rest, hrest⟩ := exists_configName_cons t cpuIDs
  have hskip : ∀ c s, c ≠ 'b' → (cciPattern u).search (c :: s) = (cciPattern u).search s :=
    fun c s hc => by
      rw [search_cons, cci_first_of_not_b fun d hd => by rwa [← Option.some.inj hd], Option.none_or]
  have hlinux : "linux".toList = ['l', 'i', 'n', 'u', 'x'] := rfl
  rw [folderName_some, hrest, hlinux]
  simp only [List.cons_append, List.nil_append]
  rw [hskip _ _ (by decide), hskip _ _ (by decide), hskip _ _ (by decide), hskip _ _ (by decide),
    hskip _ _ (by decide), hskip _ _ (by decide),
    search_append rfl (cci_first_of_not_b fun c hc => by cases hc) fun a ha _ m hm => cci_within ha hm,
    hskip _ _ (by decide)]

/-- The groups of a test's name. -/
def testGroups (t : CciTest) : List (String × Text) :=
  [("testtype", t.testType.text), ("snoop", showNat t.snoop), ("channels", showNat t.channels),
    ("coh", showNat t.coherency)]

theorem captures_testType (t : TestType) {r : Pattern} {x : Text} {groups : List (String × Text)}
    (hr : ∀ y, r.first ("_FPGA".toList ++ y) = none) (h : r.Captures x groups) :
    (Pattern.seq (.group "testtype" (.alt (.lit "SOLO".toList)
        (.alt (.lit "DMA".toList) (.lit "DMA_FPGA".toList)))) r).Captures (t.text ++ x)
      (("testtype", t.text) :: groups) := by
  have hS : "SOLO".toList = 'S' :: "OLO".toList := rfl
  have hdma : TestType.dma.text = 'D' :: "MA".toList := rfl
  have hfpga : TestType.dmaFpga.text = 'D' :: "MA_FPGA".toList := rfl
  have hsplit : TestType.dmaFpga.text = "DMA".toList ++ "_FPGA".toList := rfl
  have hsolo : ∀ {y : Text}, ∀ m ∈ (Pattern.lit "SOLO".toList).matches ('D' :: y),
      r.first m.rest = none := fun m hm => by
    obtain ⟨-, -, hcut⟩ := mem_matches_lit.mp hm
    rw [hS, List.cons_append, List.cons.injEq] at hcut
    exact absurd hcut.1 (by decide)
  cases t with
  | solo => exact captures_alt_left _ (captures_lit_group "testtype" _ h)
  | dma =>
    refine captures_alt_right ?_ (captures_alt_left _ (captures_lit_group "testtype" _ h))
    rw [hdma, List.cons_append]
    exact hsolo
  | dmaFpga =>
    refine captures_alt_right ?_ (captures_alt_right (fun m hm => ?_)
      (captures_lit_group "testtype" _ h))
    · rw [hfpga, List.cons_append]
      exact hsolo
    · -- after `DMA` the name goes on with the rest of the type
      obtain ⟨-, -, hcut⟩ := mem_matches_lit.mp hm
      rw [hsplit, List.append_assoc, List.append_cancel_left_eq] at hcut
      rw [hcut]
      exact hr x

theorem captures_configName (t : CciTest) (cpuIDs : List ℕ) :
    (cciPattern u).Captures (t.guest cpuIDs).configName (testGroups t) := by
  have hfront : "baremetal_cci_TEST_TYPE_".toList = "baremetal_cci_".toList ++ "TEST_TYPE_".toList := rfl
  have hname : (t.guest cpuIDs).configName = "baremetal_cci_TEST_TYPE_".toList ++ (t.testType.text ++
      ("_snoop".toList ++ (showNat t.snoop ++ ("_ch".toList ++ (showNat t.channels ++
        ("_coh".toList ++ (showNat t.coherency ++ ("_C".toList ++ showNat cpuIDs.length)))))))) := by
    unfold Guests.CciGuest.configName CciTest.guest
    rw [hfront]
    simp only [List.append_assoc]
  -- from the last part of the pattern on
  have hcpus : (Pattern.seq (.greedy (isDecimal u) 1) (.lit [])).Captures (showNat cpuIDs.length) [] := by
    refine captures_of_mem (m := ⟨[], showNat cpuIDs.length, []⟩) ?_ fun k hk => ?_
    · rw [matches_seq_empty]
      exact List.mem_reverse.mpr (mem_runMatches.mpr ⟨rfl, List.append_nil _,
        isDecimal_showNat _, List.length_pos_iff.mpr (showNat_ne_nil _)⟩)
    · rw [matches_seq_empty] at hk
      exact (mem_runMatches.mp (List.mem_reverse.mp hk)).1
  have hcoh : ∃ c, showNat t.coherency = [c] ∧ (c = '0' || c = '1') = true := by
    rcases t.coherency_mem with h | h
    · exact ⟨'0', by rw [h]; rfl, rfl⟩
    · exact ⟨'1', by rw [h]; rfl, rfl⟩
  have hsnoop : ∃ c, showNat t.snoop = [c] ∧ (c = '1' || c = '2') = true := by
    rcases t.snoop_mem with h | h
    · exact ⟨'1', by rw [h]; rfl, rfl⟩
    · exact ⟨'2', by rw [h]; rfl, rfl⟩
  obtain ⟨h, hh, hhc⟩ := hcoh
  obtain ⟨d, hd, hdc⟩ := hsnoop
  rw [hname, testGroups, hh, hd]
  refine captures_lit_seq (captures_testType t.testType (fun y => ?_) ?_) _
  · have hs : "_snoop".toList = '_' :: 's' :: "noop".toList := rfl
    have hF : "_FPGA".toList = '_' :: 'F' :: "PGA".toList := rfl
    refine first_lit_seq_none (fun hpre => ?_) _
    rw [hs, hF, List.cons_append, List.cons_append, List.cons_prefix_cons, List.cons_prefix_cons] at hpre
    exact absurd hpre.2.1 (by decide)
  · refine captures_lit_seq (captures_set_seq "snoop" hdc (captures_lit_seq ?_ _)) _
    refine captures_greedy_seq "channels" (isDecimal_showNat _)
      (List.length_pos_iff.mpr (showNat_ne_nil _)) (fun y z hyz hy hall => ?_) ?_
    · have hC : "_coh".toList = '_' :: "coh".toList := rfl
      obtain ⟨c, y, rfl⟩ := List.exists_cons_of_ne_nil hy
      rw [hC, List.cons_append, List.cons_append, List.cons_append, List.cons.injEq] at hyz
      have hc := hall c List.mem_cons_self
      rw [← hyz.1, isDecimal_ascii (by decide)] at hc
      exact absurd hc (by decide)
    · exact captures_lit_seq (captures_set_seq "coh" hhc (captures_lit_seq hcpus _)) _

theorem parseTestFolder_eq (folder : Text) : parseTestFolder u folder =
    (((cciPattern u).search folder).map Match.groups).bind
      fun groups => testInfo u (Match.mk groups [] []).group? := by
  rw [parseTestFolder, Option.bind_map]
  rfl

theorem testInfo_testGroups (t : CciTest) :
    testInfo u (Match.mk (testGroups t) [] []).group? = some t.info := by
  have htype : (Match.mk (testGroups t) [] []).group? "testtype" = some t.testType.text := by
    simp [Match.group?, testGroups]
  have hsnoop : (Match.mk (testGroups t) [] []).group? "snoop" = some (showNat t.snoop) := by
    simp [Match.group?, testGroups]
  have hchannels : (Match.mk (testGroups t) [] []).group? "channels" = some (showNat t.channels) := by
    simp [Match.group?, testGroups]
  have hcoh : (Match.mk (testGroups t) [] []).group? "coh" = some (showNat t.coherency) := by
    simp [Match.group?, testGroups]
  have hinterference : interference t.testType.text = t.info.interference := by
    unfold CciTest.info
    cases t.testType with
    | solo => rfl
    | dma => rfl
    | dmaFpga => rfl
  have hcfg : ∃ cfg, snoopConfig t.snoop = some cfg ∧ cfg.typeName = t.info.snoopType := by
    unfold CciTest.info
    rcases t.snoop_mem with h | h
    · rw [h]
      exact ⟨_, rfl, rfl⟩
    · rw [h]
      exact ⟨_, rfl, rfl⟩
  have hcoherency : (if showNat t.coherency = "1".toList then "coherent".toList
      else "non_coherent".toList) = t.info.coherency := by
    unfold CciTest.info
    rcases t.coherency_mem with h | h
    · rw [h]
      rfl
    · rw [h]
      rfl
  obtain ⟨cfg, hcfg, hname⟩ := hcfg
  unfold testInfo
  rw [htype, hsnoop, hchannels, hcoh, Option.bind_some, Option.bind_some, intOf_showNat, intOf_showNat]
  show (snoopConfig t.snoop).bind (fun cfg => some (TestInfo.mk (interference t.testType.text)
    cfg.typeName t.channels (if showNat t.coherency = "1".toList then "coherent".toList
      else "non_coherent".toList) t.snoop)) = _
  rw [hcfg, Option.bind_some, hinterference, hname, hcoherency]
  rfl

theorem parseTestFolder_configName (t : CciTest) (cpuIDs : List ℕ) :
    parseTestFolder u (t.guest cpuIDs).configName = some t.info := by
  rw [parseTestFolder_eq, search_of_captures (captures_configName t cpuIDs), Option.bind_some,
    testInfo_testGroups]

/-- In the whole name a test's name within the workload's comes first. -/
theorem parseTestFolder_iff (w : Text) (t : CciTest) (cpuIDs : List ℕ) :
    parseTestFolder u (folderName (some w) t cpuIDs) = some t.info ↔
      ∀ m, (cciPattern u).search w = some m → testInfo u m.group? = some t.info := by
  rw [parseTestFolder_eq, search_folderName, search_of_captures (captures_configName t cpuIDs)]
  cases hw : (cciPattern u).search w with
  | none =>
    rw [Option.map_none, Option.none_or, Option.bind_some, testInfo_testGroups]
    exact ⟨fun _ m hm => (by cases hm), fun _ => rfl⟩
  | some m =>
    rw [Option.map_some, Option.some_or, Option.bind_some]
    exact ⟨fun h k hk => by rw [← Option.some.inj hk]; exact h, fun h => h m rfl⟩

/-! ### When both scripts decode the name -/

/-- A result is right if all its parts are. -/
theorem parseFolderName_iff (folder : Text) (t : CciTest) :
    parseFolderName u folder = some t.params ↔ folderTestType folder = some t.testType ∧
      firstNumber u "snoop".toList folder = some t.snoop ∧
      firstNumber u "ch".toList folder = some t.channels ∧
      firstNumber u "coh".toList folder = some t.coherency := by
  unfold parseFolderName CciTest.params
  generalize folderTestType folder = a
  generalize firstNumber u "snoop".toList folder = b
  generalize firstNumber u "ch".toList folder = c
  generalize firstNumber u "coh".toList folder = d
  cases a with
  | none => simp
  | some a => cases b with
    | none => simp
    | some b => cases c with
      | none => simp
      | some c => cases d with
        | none => simp
        | some d => simp

theorem decodes_none (t : CciTest) (cpuIDs : List ℕ) : Decodes u none t cpuIDs := by
  rw [Decodes, folderName_none, parseFolderName_iff]
  refine ⟨parseTestFolder_configName t cpuIDs, ?_, firstNumber_snoop t cpuIDs,
    firstNumber_channels t cpuIDs, firstNumber_coherency t cpuIDs⟩
  have hnil : ∀ pat ∈ typeTexts, ¬ pat <:+: ([] : Text) := by decide
  rw [folderTestType_iff (w := []) fun pat hpat => (or_iff_right (hnil pat hpat)).symm]
  cases t.testType with
  | solo => exact hnil _ (by decide)
  | dma => exact hnil _ (by decide)
  | dmaFpga => trivial

theorem or_eq_some_iff {a : Option ℕ} {v : ℕ} : a.or (some v) = some v ↔ ∀ n, a = some n → n = v := by
  cases a with
  | none => simp
  | some n => simp

theorem decodes_some (w : Text) (t : CciTest) (cpuIDs : List ℕ) :
    Decodes u (some w) t cpuIDs ↔ Harmless u w t := by
  rw [Decodes, parseTestFolder_iff, parseFolderName_iff,
    folderTestType_iff (typeText_folderName w t cpuIDs),
    firstNumber_folderName t cpuIDs (by decide) (by decide) (by decide), firstNumber_snoop,
    firstNumber_folderName t cpuIDs (by decide) (by decide) (by decide), firstNumber_channels,
    firstNumber_folderName t cpuIDs (by decide) (by decide) (by decide), firstNumber_coherency,
    or_eq_some_iff, or_eq_some_iff, or_eq_some_iff]
  exact ⟨fun ⟨h₁, h₂, h₃, h₄, h₅⟩ => ⟨h₂, h₃, h₄, h₅, h₁⟩,
    fun h => ⟨h.test, h.testType, h.snoop, h.channels, h.coherency⟩⟩

/-- **Main result.** Both scripts read a test's parameters off its folder's
name iff the workload in it, if any, is harmless. -/
theorem decodes_iff (u : UnicodeData) (workload : Option Text) (t : CciTest) (cpuIDs : List ℕ) :
    Decodes u workload t cpuIDs ↔ ∀ w ∈ workload, Harmless u w t := by
  cases workload with
  | none => exact ⟨fun _ w hw => (by cases hw), fun _ => decodes_none t cpuIDs⟩
  | some w =>
    rw [decodes_some]
    exact ⟨fun h w' hw' => Option.some.inj hw' ▸ h, fun h => h w rfl⟩

end

/-- A test without interference. -/
def soloTest : CciTest := ⟨.solo, 1, 0, 0, .inl rfl, .inl rfl⟩

/-- The end of the workload's name reads as a number of channels. -/
theorem bench_not_decoded :
    folderName (some "bench2".toList) soloTest [0] =
      "linux_bench2_baremetal_cci_TEST_TYPE_SOLO_snoop1_ch0_coh0_C1".toList ∧
    parseFolderName asciiData (folderName (some "bench2".toList) soloTest [0]) =
      some ⟨.solo, 1, 2, 0⟩ ∧ ¬ Decodes asciiData (some "bench2".toList) soloTest [0] := by
  have hparse : parseFolderName asciiData (folderName (some "bench2".toList) soloTest [0]) =
      some ⟨.solo, 1, 2, 0⟩ := by
    decide +kernel
  refine ⟨by decide +kernel, hparse, fun h => ?_⟩
  rw [Decodes, hparse] at h
  exact absurd h.2 (by decide)

end Scripts
end DaatMcs
