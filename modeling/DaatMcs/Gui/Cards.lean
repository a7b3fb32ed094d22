/-
# The cards of the configuration editor

A guest and a setup are edited on a card, with its fields as texts and check
boxes. `get_config` parses the texts and collects the boxes, `load_config`
writes a configuration back to a card. Whatever was on the card before, a
configuration that some card gave is given again after it was loaded
(`GuestCard.getConfig_loadConfig`, `SetupCard.getConfig_loadConfig`).
-/
import DaatMcs.Generator.Guests
import DaatMcs.Lib.Lines
import DaatMcs.Lib.Traverse

namespace DaatMcs
namespace Gui

/-! ### Comma lists -/

/-- `[x.strip() for x in text.split(",") if x.strip()]` -/
def commaItems (text : Text) : List Text := ((text.splitOn ',').map strip).filter (· ≠ [])

/-- `[int(x.strip()) for x in text.split(",") if x.strip()]`; none if some item does not parse. -/
def commaInts (u : UnicodeData) (text : Text) : Option (List ℤ) :=
  (commaItems text).mapM (Guests.intOfSigned u)

/-! ### The guest card -/

structure IlaConfig where
  testTypes : Option (List Text)
  snoopTypes : Option (List ℤ)
  channels : Option (List ℤ)
  coherency : Option (List ℤ)
  deriving DecidableEq

/-- The configuration of a guest; a key that is not there is `none`. -/
structure GuestConfig where
  srcDir : Option Text
  cpuIDs : Option (List (List ℤ))
  ila : Option IlaConfig
  deriving DecidableEq

/-- The texts and check boxes of a guest card; `cbCh` by the channel. -/
structure GuestCard where
  nameEdit : Text
  srcEdit : Text
  cpuSoloEdit : Text
  cpuDmaEdit : Text
  cbSolo : Bool
  cbDma : Bool
  cbDmaFpga : Bool
  cbRead : Bool
  cbWrite : Bool
  cbCh : ℤ → Bool
  cbNoncoh : Bool
  cbCoh : Bool

/-- The channels with a check box, in order. -/
def channelBoxes : List ℤ := [1, 2, 4, 8]

def testTypeSolo : Text := "TEST_TYPE_SOLO".toList
def testTypeDma : Text := "TEST_TYPE_DMA".toList
def testTypeDmaFpga : Text := "TEST_TYPE_DMA_FPGA".toList

/-- A new card. -/
def GuestCard.new (name : Text) : GuestCard where
  nameEdit := name
  srcEdit := []
  cpuSoloEdit := "0".toList
  cpuDmaEdit := "0,1,2,3".toList
  cbSolo := true
  cbDma := true
  cbDmaFpga := true
  cbRead := true
  cbWrite := true
  cbCh _ := true
  cbNoncoh := true
  cbCoh := true

/-- The values whose box is checked: each is appended in turn. -/
def checked {α : Type*} (boxes : List (Bool × α)) : List α := (boxes.filter Prod.fst).map Prod.snd

/-- None where `int` raises. -/
def GuestCard.getConfig (u : UnicodeData) (g : GuestCard) : Option GuestConfig := do
  let soloCpus ← commaInts u g.cpuSoloEdit
  let dmaCpus ← commaInts u g.cpuDmaEdit
  some
    { srcDir := some g.srcEdit
      cpuIDs := some [soloCpus, dmaCpus]
      ila := some
        { testTypes := some (checked
            [(g.cbSolo, testTypeSolo), (g.cbDma, testTypeDma), (g.cbDmaFpga, testTypeDmaFpga)])
          snoopTypes := some (checked [(g.cbRead, 1), (g.cbWrite, 2)])
          channels := some (channelBoxes.filter g.cbCh)
          coherency := some (checked [(g.cbNoncoh, 0), (g.cbCoh, 1)]) } }

/-- `",".join(str(c) for c in cpus)` -/
def showCpus (cpus : List ℤ) : Text := join [','] (cpus.map showInt)

def GuestCard.loadConfig (g : GuestCard) (cfg : GuestConfig) : GuestCard :=
  let cpuIDs := cfg.cpuIDs.getD [[0], [0, 1, 2, 3]]
  let ila := cfg.ila.getD ⟨none, none, none, none⟩
  let testTypes := ila.testTypes.getD []
  let snoopTypes := ila.snoopTypes.getD []
  let channels := ila.channels.getD []
  let coherency := ila.coherency.getD []
  { g with
    srcEdit := cfg.srcDir.getD []
    cpuSoloEdit := (cpuIDs[0]?.map showCpus).getD g.cpuSoloEdit
    cpuDmaEdit := (cpuIDs[1]?.map showCpus).getD g.cpuDmaEdit
    cbSolo := testTypes.contains testTypeSolo
    cbDma := testTypes.contains testTypeDma
    cbDmaFpga := testTypes.contains testTypeDmaFpga
    cbRead := snoopTypes.contains 1
    cbWrite := snoopTypes.contains 2
    cbCh := fun ch => channels.contains ch
    cbNoncoh := coherency.contains 0
    cbCoh := coherency.contains 1 }

/-! ### The setup card -/

/-- The configuration of a setup; a key that is not there is `none`. -/
structure SetupConfig where
  guests : Option (List Text)
  enCacheColoring : Option Bool
  logPorts : Option (List Text)
  deriving DecidableEq

structure SetupCard where
  nameEdit : Text
  guestsEdit : Text
  logPortsEdit : Text
  cbColoring : Bool
  deriving DecidableEq

/-- A new card, with the guests there are. -/
def SetupCard.new (name : Text) (availableGuests : List Text) : SetupCard where
  nameEdit := name
  guestsEdit := join [','] availableGuests
  logPortsEdit := "/dev/ttyUSB2".toList
  cbColoring := false

def SetupCard.getConfig (s : SetupCard) : SetupConfig where
  guests := some (commaItems s.guestsEdit)
  enCacheColoring := some s.cbColoring
  logPorts := some (commaItems s.logPortsEdit)

def SetupCard.loadConfig (s : SetupCard) (cfg : SetupConfig) : SetupCard :=
  { s with
    guestsEdit := join [','] (cfg.guests.getD [])
    logPortsEdit := join [','] (cfg.logPorts.getD [])
    cbColoring := cfg.enCacheColoring.getD false }

/-! ### Comma lists read back -/

theorem of_mem_commaItems {text p : Text} (h : p ∈ commaItems text) : p ≠ [] ∧ ',' ∉ p ∧ strip p = p := by
  rw [commaItems, List.mem_filter, List.mem_map] at h
  obtain ⟨⟨piece, hpiece, rfl⟩, hne⟩ := h
  refine ⟨by simpa using hne, ?_, strip_strip piece⟩
  exact fun hc => Literal.notMem_of_mem_splitOn hpiece ((strip_sublist piece).subset hc)

/-- Items that are not empty, stripped and without a comma are read back. -/
theorem commaItems_join {parts : List Text} (h : ∀ p ∈ parts, p ≠ [] ∧ ',' ∉ p ∧ strip p = p) :
    commaItems (join [','] parts) = parts := by
  by_cases hnil : parts = []
  · subst hnil
    rfl
  · have hstrip : parts.map strip = parts := by
      conv_rhs => rw [← List.map_id parts]
      exact List.map_congr_left fun p hp => (h p hp).2.2
    rw [commaItems, join, List.splitOn_intercalate ',' (fun p hp => (h p hp).2.1) hnil, hstrip,
      List.filter_eq_self]
    intro p hp
    exact decide_eq_true (h p hp).1

theorem commaItems_join_commaItems (text : Text) :
    commaItems (join [','] (commaItems text)) = commaItems text :=
  commaItems_join fun _ hp => of_mem_commaItems hp

theorem intDigits_digits (u : UnicodeData) {s : Text} (h : ∀ c ∈ s, c.isDigit = true) {need : Bool}
    (hne : need = true → s ≠ []) (n : ℕ) :
    Guests.intDigits u need n s = some (Nat.ofDigitChars 10 s n) := by
  induction s generalizing need n with
  | nil =>
    have hneed : need = false := Bool.eq_false_iff.mpr fun hn => hne hn rfl
    rw [hneed]
    rfl
  | cons c s ih =>
    have hc := h c List.mem_cons_self
    have hlt := (toNat_of_isDigit hc).2
    have hsep : c ≠ '_' := by
      rintro rfl
      exact absurd hc (by decide)
    rw [Guests.intDigits, if_neg hsep, u.decimal_ascii c (by omega), if_pos hc, Option.bind_some,
      ih (fun d hd => h d (List.mem_cons_of_mem c hd)) (fun hn => Bool.noConfusion hn)]
    simp [Nat.ofDigitChars_eq_foldl]

/-- A number shown starts and ends with no white space. -/
theorem strip_showInt (i : ℤ) : strip (showInt i) = showInt i := by
  have hspace : ∀ c ∈ showInt i, isSpace c = false := by
    intro c hc
    cases i with
    | ofNat n => exact isSpace_of_isDigit (digit_of_mem_showNat hc)
    | negSucc n =>
      rcases List.mem_cons.mp hc with rfl | hc
      · decide
      · exact isSpace_of_isDigit (digit_of_mem_showNat hc)
  exact strip_eq_self (fun c hc => hspace c (List.mem_of_mem_head? hc))
    (fun c hc => hspace c (List.mem_of_getLast? hc))

/-- `int(str(i))`. -/
theorem intOfSigned_showInt (u : UnicodeData) (i : ℤ) : Guests.intOfSigned u (showInt i) = some i := by
  have hdigits : ∀ n : ℕ, Guests.intDigits u true 0 (showNat n) = some n := fun n => by
    rw [intDigits_digits u (fun c hc => digit_of_mem_showNat hc) (fun _ => showNat_ne_nil n)]
    exact congrArg some (readNat_showNat n)
  unfold Guests.intOfSigned
  rw [strip_showInt]
  cases i with
  | ofNat n =>
    have hsign : ∀ c ∈ showNat n, c ≠ '-' ∧ c ≠ '+' := by
      intro c hc
      have hd := toNat_of_isDigit (digit_of_mem_showNat hc)
      exact ⟨by rintro rfl; exact absurd hd (by decide), by rintro rfl; exact absurd hd (by decide)⟩
    have hshow : showInt (.ofNat n) = showNat n := rfl
    rw [hshow]
    split
    · next cs heq => exact absurd rfl (hsign '-' (heq ▸ List.mem_cons_self)).1
    · next cs heq => exact absurd rfl (hsign '+' (heq ▸ List.mem_cons_self)).2
    · rw [hdigits]
      rfl
  | negSucc n =>
    simp only [showInt, hdigits]
    rfl

theorem showInt_item (i : ℤ) : showInt i ≠ [] ∧ ',' ∉ showInt i ∧ strip (showInt i) = showInt i := by
  refine ⟨?_, notMem_showInt (by decide) (by decide) i, strip_showInt i⟩
  cases i with
  | ofNat n => exact showNat_ne_nil n
  | negSucc n => exact List.cons_ne_nil _ _

/-- A list of CPUs is read back. -/
theorem commaInts_showCpus (u : UnicodeData) (cpus : List ℤ) : commaInts u (showCpus cpus) = some cpus := by
  have hitems : commaItems (showCpus cpus) = cpus.map showInt := by
    apply commaItems_join
    intro p hp
    obtain ⟨i, -, rfl⟩ := List.mem_map.mp hp
    exact showInt_item i
  rw [commaInts, hitems, mapM_eq_some_iff, List.forall₂_map_left_iff, List.forall₂_same]
  exact fun i _ => intOfSigned_showInt u i

/-! ### Cards read back -/

/-- The channels of the checked boxes check these boxes. -/
theorem filter_contains_filter (l : List ℤ) (f : ℤ → Bool) :
    (l.filter fun x => (l.filter f).contains x) = l.filter f := by
  refine List.filter_congr fun x hx => ?_
  rw [List.contains_eq_mem]
  simp [hx]

/-- A box is checked iff its test type is in the list. -/
theorem contains_testTypes (solo dma dmaFpga : Bool) :
    (checked [(solo, testTypeSolo), (dma, testTypeDma), (dmaFpga, testTypeDmaFpga)]).contains testTypeSolo = solo ∧
    (checked [(solo, testTypeSolo), (dma, testTypeDma), (dmaFpga, testTypeDmaFpga)]).contains testTypeDma = dma ∧
    (checked [(solo, testTypeSolo), (dma, testTypeDma), (dmaFpga, testTypeDmaFpga)]).contains testTypeDmaFpga =
      dmaFpga := by
  cases solo <;> cases dma <;> cases dmaFpga <;> decide

theorem contains_pair {x y : ℤ} (hne : x ≠ y) (a b : Bool) :
    (checked [(a, x), (b, y)]).contains x = a ∧ (checked [(a, x), (b, y)]).contains y = b := by
  cases a <;> cases b <;> simp [checked, hne, hne.symm]

theorem GuestCard.getConfig_loadConfig {u : UnicodeData} {g : GuestCard} {cfg : GuestConfig}
    (h : g.getConfig u = some cfg) (g' : GuestCard) : (g'.loadConfig cfg).getConfig u = some cfg := by
  unfold GuestCard.getConfig at h
  obtain ⟨soloCpus, -, h⟩ := Option.bind_eq_some_iff.mp h
  obtain ⟨dmaCpus, -, h⟩ := Option.bind_eq_some_iff.mp h
  obtain rfl := Option.some.inj h
  obtain ⟨hsolo, hdma, hdmaFpga⟩ := contains_testTypes g.cbSolo g.cbDma g.cbDmaFpga
  obtain ⟨hread, hwrite⟩ := contains_pair (x := 1) (y := 2) (by decide) g.cbRead g.cbWrite
  obtain ⟨hnoncoh, hcoh⟩ := contains_pair (x := 0) (y := 1) (by decide) g.cbNoncoh g.cbCoh
  unfold GuestCard.getConfig GuestCard.loadConfig
  simp only [Option.getD_some, List.getElem?_cons_zero, List.getElem?_cons_succ, Option.map_some, hsolo, hdma,
    hdmaFpga, hread, hwrite, hnoncoh, hcoh, filter_contains_filter]
  rw [commaInts_showCpus, commaInts_showCpus]
  rfl

theorem SetupCard.getConfig_loadConfig (s s' : SetupCard) : (s'.loadConfig s.getConfig).getConfig = s.getConfig := by
  unfold SetupCard.getConfig SetupCard.loadConfig
  simp only [Option.getD_some, commaItems_join_commaItems]

end Gui
end DaatMcs
