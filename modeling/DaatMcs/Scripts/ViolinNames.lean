/-
# Names of the files with latencies

`gen_plot.py` reads off the name of a file how its rows were filtered, the
access, the coherency and the configuration. The names are those
`ila_waves_info.py` writes, with the suffix `q95_q99.py` puts in for a filter.

Filter, access and coherency are read as they were written. The configuration
is looked for as one of four numbers of channels, so it goes by the last digit
of the number, and with the FPGA another last digit is an error
(`parseName_csvName`).
-/
import DaatMcs.Scripts.Latencies

namespace DaatMcs
namespace Violins

open Scripts

/-! ### Reading and making names -/

inductive Mode
  | raw | q95 | q99
  deriving DecidableEq, Repr

/-- `pat in name` -/
def isIn (pat : String) (name : Text) : Bool := (Literal.find pat.toList name).isSome

/-- `parse_name`; none is the error of `cfg + "+fpga"` where `cfg` is `None`. -/
def parseName (name : Text) : Option (Mode × Text × Text × Option Text) := do
  let name := lower name
  let mode := if isIn "_q95" name then Mode.q95 else if isIn "_q99" name then .q99 else .raw
  let access := (if isIn "read" name then "read" else "write").toList
  let coh := (if isIn "non_coherent" name then "non_coherent" else "coherent").toList
  let cfg := if isIn "solo" name then some "solo".toList
    else if isIn "1ch" name then some "1ch".toList
    else if isIn "2ch" name then some "2ch".toList
    else if isIn "4ch" name then some "4ch".toList
    else if isIn "8ch" name then some "8ch".toList
    else none
  if isIn "fpga" name then
    let cfg ← cfg
    return (mode, access, coh, some (cfg ++ "+fpga".toList))
  else return (mode, access, coh, cfg)

/-- `os.path.splitext(name)[0]`: up to the last dot, if there is more than
dots before it. -/
def splitextRoot (name : Text) : Text :=
  let root := (name.rdropWhile (· ≠ '.')).dropLast
  if '.' ∈ name ∧ root.any (· ≠ '.') then root else name

/-! ### What is read off a name -/

/-- The name of a file of a test, from `ila_waves_info.py` or from `q95_q99.py`. -/
def csvName (info : TestInfo) (suffix : Text) : Text :=
  info.interference ++ "_".toList ++ info.snoopType ++ "_".toList ++ showNat info.channels ++
    "ch_".toList ++ info.coherency ++ suffix

/-- What the files of a mode end in. -/
def Mode.suffix : Mode → Text
  | .raw => ".csv".toList
  | .q95 => "_q95.csv".toList
  | .q99 => "_q99.csv".toList

/-- The configuration `parse_name` takes a number of channels for. -/
def channelsCfg (channels : ℕ) : Option Text :=
  if channels % 10 ∈ [1, 2, 4, 8] then some (showNat (channels % 10) ++ "ch".toList) else none

def coherencies : List Text := ["coherent".toList, "non_coherent".toList]

def modes : List Mode := [.raw, .q95, .q99]

theorem mem_modes (m : Mode) : m ∈ modes := by cases m <;> decide

theorem coherency_mem {info : TestInfo} (h : Shape info) : info.coherency ∈ coherencies := by
  rcases h.coherency with h | h
  · rw [h]
    exact List.mem_cons_self
  · rw [h]
    exact List.mem_cons_of_mem _ List.mem_cons_self

/-- The name up to the character before the number of channels. -/
def beforeChannels (info : TestInfo) : Text := info.interference ++ "_".toList ++ info.snoopType

/-- The name from the character after the number of channels on. -/
def afterChannels (info : TestInfo) (suffix : Text) : Text := "h_".toList ++ info.coherency ++ suffix

theorem csvName_eq (info : TestInfo) (suffix : Text) : csvName info suffix =
    (beforeChannels info ++ '_' :: showNat info.channels) ++ 'c' :: afterChannels info suffix := by
  have hch : "ch_".toList = 'c' :: "h_".toList := rfl
  have hunderscore : "_".toList = ['_'] := rfl
  unfold csvName beforeChannels afterChannels
  rw [hch, hunderscore]
  simp only [List.append_assoc, List.cons_append, List.nil_append]

/-- The script looks for what is in lower case already. -/
theorem lower_csvName {info : TestInfo} (h : Shape info) (m : Mode) :
    lower (csvName info m.suffix) = csvName info m.suffix := by
  have hbefore : ∀ i ∈ interferences, ∀ s ∈ typeNames, (i ++ "_".toList ++ s).all isLowered := by
    decide +kernel
  have hafter : ∀ c ∈ coherencies, ∀ m ∈ modes, ("h_".toList ++ c ++ m.suffix).all isLowered := by
    decide +kernel
  refine lower_eq_self fun c hc => ?_
  rw [csvName_eq, List.mem_append, List.mem_append, List.mem_cons, List.mem_cons] at hc
  rcases hc with (hc | rfl | hc) | rfl | hc
  · exact List.all_eq_true.mp (hbefore _ h.mem.1 _ h.mem.2) c hc
  · decide
  · exact isLowered_of_isDigit (digit_of_mem_showNat hc)
  · decide
  · exact List.all_eq_true.mp (hafter _ (coherency_mem h) m (mem_modes m)) c hc

/-- A word is found before the number or not at all. -/
theorem word_infix_iff {info : TestInfo} (h : Shape info) (m : Mode) {w : Text}
    (hw : w ∈ ["read".toList, "solo".toList, "fpga".toList]) :
    w <:+: csvName info m.suffix ↔ w <:+: beforeChannels info := by
  have hchars : '_' ∉ w ∧ 'c' ∉ w ∧ w.any (fun c => !c.isDigit) = true := by
    revert w
    decide
  obtain ⟨hunder, hc, hany⟩ := hchars
  obtain ⟨c, hcw, hcd⟩ := List.any_eq_true.mp hany
  have hafter : ∀ w ∈ ["read".toList, "solo".toList, "fpga".toList], ∀ c ∈ coherencies, ∀ m ∈ modes,
      ¬ w <:+: "h_".toList ++ c ++ m.suffix := by
    decide +kernel
  have hnum : ¬ w <:+: showNat info.channels := fun hin => notMem_showNat ((Bool.not_eq_true' _).mp hcd) _ (hin.subset hcw)
  rw [csvName_eq, Literal.infix_split_iff hc, Literal.infix_split_iff hunder]
  have hafter' : ¬ w <:+: afterChannels info m.suffix := hafter w hw _ (coherency_mem h) m (mem_modes m)
  simp only [hafter', hnum, or_false]

/-- What has a character that only follows the number is found after it or not
at all. -/
theorem suffix_infix_iff {info : TestInfo} (h : Shape info) (m : Mode) {w : Text}
    (hw : w ∈ ["_q95".toList, "_q99".toList]) :
    w <:+: csvName info m.suffix ↔ w <:+: afterChannels info m.suffix := by
  have hchars : 'c' ∉ w ∧ 'q' ∈ w := by
    revert w
    decide
  have hbefore : ∀ i ∈ interferences, ∀ s ∈ typeNames, 'q' ∉ i ++ "_".toList ++ s := by decide
  have hq : 'q' ∉ beforeChannels info ++ '_' :: showNat info.channels := by
    simp [show 'q' ∉ beforeChannels info from hbefore _ h.mem.1 _ h.mem.2,
      notMem_showNat (show ('q').isDigit = false by decide)]
  rw [csvName_eq, Literal.infix_split_iff hchars.1, or_iff_right fun hin => hq (hin.subset hchars.2)]

theorem notMem_upToChannels {info : TestInfo} (h : Shape info) :
    'c' ∉ beforeChannels info ++ '_' :: showNat info.channels := by
  have hbefore : ∀ i ∈ interferences, ∀ s ∈ typeNames, 'c' ∉ i ++ "_".toList ++ s := by decide
  simp [show 'c' ∉ beforeChannels info from hbefore _ h.mem.1 _ h.mem.2,
    notMem_showNat (show ('c').isDigit = false by decide)]

theorem getLast?_showNat (n : ℕ) : (showNat n).getLast? = some (Nat.digitChar (n % 10)) := by
  rw [showNat, Nat.toDigits_eq_if (by decide)]
  split
  · next hlt => rw [Nat.mod_eq_of_lt hlt]; rfl
  · rw [List.getLast?_concat]

/-- The script finds a number of channels where the last digit is that number. -/
theorem channels_infix_iff {info : TestInfo} (h : Shape info) (m : Mode) {k : ℕ} (hk : k < 10) :
    Nat.digitChar k :: "ch".toList <:+: csvName info m.suffix ↔ info.channels % 10 = k := by
  have hdigit : 'c' ∉ [Nat.digitChar k] := by
    revert k
    decide
  have hall : ∀ k < 10, ∀ c ∈ coherencies, ∀ m ∈ modes,
      ¬ [Nat.digitChar k] ++ 'c' :: ['h'] <:+: "h_".toList ++ c ++ m.suffix := by
    decide +kernel
  have hafter : ¬ [Nat.digitChar k] ++ 'c' :: ['h'] <:+: afterChannels info m.suffix :=
    hall k hk _ (coherency_mem h) m (mem_modes m)
  have hinj : ∀ i < 10, ∀ j < 10, Nat.digitChar i = Nat.digitChar j → i = j := by decide
  have hh : ['h'] <+: afterChannels info m.suffix := ⟨'_' :: (info.coherency ++ m.suffix), rfl⟩
  have hlit : Nat.digitChar k :: "ch".toList = [Nat.digitChar k] ++ 'c' :: ['h'] := rfl
  rw [hlit, csvName_eq, Literal.infix_around_iff hdigit (notMem_upToChannels h)]
  simp only [hafter, hh, and_true, or_false]
  constructor
  · rintro ⟨x, hx⟩
    have hlast := congrArg List.getLast? hx
    rw [List.getLast?_concat, List.getLast?_append, List.getLast?_cons, getLast?_showNat] at hlast
    exact (hinj k hk _ (Nat.mod_lt _ (by decide)) (Option.some.inj hlast)).symm
  · rintro rfl
    obtain ⟨ds, hds⟩ := List.getLast?_eq_some_iff.mp (getLast?_showNat info.channels)
    exact ⟨beforeChannels info ++ '_' :: ds, by rw [hds]; simp⟩

theorem non_coherent_infix_iff {info : TestInfo} (h : Shape info) (m : Mode) :
    "non_coherent".toList <:+: csvName info m.suffix ↔ info.coherency = "non_coherent".toList := by
  have hlit : "non_coherent".toList = "non_".toList ++ 'c' :: "oherent".toList := rfl
  have hnon : ¬ "non_".toList <:+ beforeChannels info ++ '_' :: showNat info.channels := by
    rintro ⟨x, hx⟩
    have hlast := congrArg List.getLast? hx
    have hend : "non_".toList = "non".toList ++ ['_'] := rfl
    rw [hend, ← List.append_assoc, List.getLast?_concat, List.getLast?_append, List.getLast?_cons,
      getLast?_showNat] at hlast
    have hne : ∀ i < 10, Nat.digitChar i ≠ '_' := by decide
    exact hne _ (Nat.mod_lt _ (by decide)) (Option.some.inj hlast).symm
  have hafter : "non_coherent".toList <:+: afterChannels info m.suffix ↔
      info.coherency = "non_coherent".toList := by
    have hall : ∀ c ∈ coherencies, ∀ m ∈ modes, "non_coherent".toList <:+: "h_".toList ++ c ++ m.suffix ↔
        c = "non_coherent".toList := by
      decide +kernel
    exact hall _ (coherency_mem h) m (mem_modes m)
  rw [hlit, csvName_eq, Literal.infix_around_iff (by decide) (notMem_upToChannels h), ← hlit, hafter,
    or_iff_right fun hin => hnon hin.1]

theorem isIn_eq (pat : String) (name : Text) : isIn pat name = decide (pat.toList <:+: name) :=
  Bool.eq_iff_iff.mpr (Literal.find_isSome.trans decide_eq_true_iff.symm)

theorem isIn_word {info : TestInfo} (h : Shape info) (m : Mode) {w : String}
    (hw : w.toList ∈ ["read".toList, "solo".toList, "fpga".toList]) {p : Text → Text → Prop}
    [∀ i s, Decidable (p i s)]
    (hall : ∀ i ∈ interferences, ∀ s ∈ typeNames, w.toList <:+: i ++ "_".toList ++ s ↔ p i s) :
    isIn w (csvName info m.suffix) = decide (p info.interference info.snoopType) := by
  rw [isIn_eq, decide_eq_decide, word_infix_iff h m hw]
  exact hall _ h.mem.1 _ h.mem.2

theorem isIn_suffix {info : TestInfo} (h : Shape info) (m : Mode) {w : String}
    (hw : w.toList ∈ ["_q95".toList, "_q99".toList]) {k : Mode}
    (hall : ∀ c ∈ coherencies, ∀ m ∈ modes, w.toList <:+: "h_".toList ++ c ++ m.suffix ↔ m = k) :
    isIn w (csvName info m.suffix) = decide (m = k) := by
  rw [isIn_eq, decide_eq_decide, suffix_infix_iff h m hw]
  exact hall _ (coherency_mem h) m (mem_modes m)

theorem isIn_q95 {info : TestInfo} (h : Shape info) (m : Mode) :
    isIn "_q95" (csvName info m.suffix) = decide (m = .q95) :=
  isIn_suffix h m (by decide) (by decide +kernel)

theorem isIn_q99 {info : TestInfo} (h : Shape info) (m : Mode) :
    isIn "_q99" (csvName info m.suffix) = decide (m = .q99) :=
  isIn_suffix h m (by decide) (by decide +kernel)

theorem isIn_non_coherent {info : TestInfo} (h : Shape info) (m : Mode) :
    isIn "non_coherent" (csvName info m.suffix) = decide (info.coherency = "non_coherent".toList) := by
  rw [isIn_eq, decide_eq_decide, non_coherent_infix_iff h m]

/-- The search for a number of channels. -/
theorem isIn_channels {info : TestInfo} (h : Shape info) (m : Mode) :
    (if isIn "1ch" (csvName info m.suffix) then some "1ch".toList
      else if isIn "2ch" (csvName info m.suffix) then some "2ch".toList
      else if isIn "4ch" (csvName info m.suffix) then some "4ch".toList
      else if isIn "8ch" (csvName info m.suffix) then some "8ch".toList
      else none) = channelsCfg info.channels := by
  have hall : ∀ k < 10, (if k = 1 then some "1ch".toList else if k = 2 then some "2ch".toList
      else if k = 4 then some "4ch".toList else if k = 8 then some "8ch".toList else none) =
      channelsCfg k := by
    decide
  have hmod : channelsCfg info.channels = channelsCfg (info.channels % 10) := by
    rw [channelsCfg, channelsCfg, Nat.mod_mod]
  rw [hmod, ← hall _ (Nat.mod_lt _ (by decide))]
  simp only [isIn_eq, decide_eq_true_eq]
  have h1 := channels_infix_iff h m (k := 1) (by decide)
  have h2 := channels_infix_iff h m (k := 2) (by decide)
  have h4 := channels_infix_iff h m (k := 4) (by decide)
  have h8 := channels_infix_iff h m (k := 8) (by decide)
  simp only [← h1, ← h2, ← h4, ← h8]
  rfl

/-- The searches in a name find what it was made of. -/
theorem parseName_searches {info : TestInfo} (h : Shape info) (m : Mode) :
    parseName (csvName info m.suffix) =
      (if info.interference = "dma+fpga_interf".toList then
        (if info.interference = "solo".toList then some "solo".toList else channelsCfg info.channels).map
          fun cfg => some (cfg ++ "+fpga".toList)
        else some (if info.interference = "solo".toList then some "solo".toList else
          channelsCfg info.channels)).map
      fun cfg => (m, info.snoopType, info.coherency, cfg) := by
  have hmode : (if m = .q95 then Mode.q95 else if m = .q99 then .q99 else .raw) = m := by
    cases m <;> rfl
  have haccess : (if info.snoopType = "read".toList then "read" else "write").toList = info.snoopType := by
    have hall : ∀ s ∈ typeNames, (if s = "read".toList then "read" else "write").toList = s := by decide
    exact hall _ h.mem.2
  have hcoh : (if info.coherency = "non_coherent".toList then "non_coherent" else "coherent").toList =
      info.coherency := by
    have hall : ∀ c ∈ coherencies, (if c = "non_coherent".toList then "non_coherent" else "coherent").toList =
        c := by
      decide
    exact hall _ (coherency_mem h)
  have hread := isIn_word h m (w := "read") (by decide) (p := fun _ s => s = "read".toList)
    (by decide +kernel)
  have hsolo := isIn_word h m (w := "solo") (by decide) (p := fun i _ => i = "solo".toList)
    (by decide +kernel)
  have hfpga := isIn_word h m (w := "fpga") (by decide) (p := fun i _ => i = "dma+fpga_interf".toList)
    (by decide +kernel)
  unfold parseName
  simp only [lower_csvName h, isIn_channels h, hread, hsolo, hfpga, isIn_q95 h, isIn_q99 h, isIn_non_coherent h,
    decide_eq_true_eq, hmode, haccess, hcoh]
  by_cases hfpga : info.interference = "dma+fpga_interf".toList
  · rw [if_pos hfpga, if_pos hfpga, Option.map_map]
    split <;> [rfl; cases channelsCfg info.channels <;> rfl]
  · rw [if_neg hfpga, if_neg hfpga]
    rfl

/-- **What is read off a name**: how the file was filtered, the access and the
coherency are those it was written with. The configuration is right without
interference, and otherwise goes by the last digit of the number of channels;
where that is none of the four, there is no configuration, and an error with
the FPGA. -/
theorem parseName_csvName {info : TestInfo} (h : Shape info) (m : Mode) :
    parseName (csvName info m.suffix) =
      (if info.interference = "solo".toList then some (some "solo".toList)
        else if info.interference = "dma+fpga_interf".toList then
          (channelsCfg info.channels).map fun cfg => some (cfg ++ "+fpga".toList)
        else some (channelsCfg info.channels)).map
      fun cfg => (m, info.snoopType, info.coherency, cfg) := by
  rw [parseName_searches h]
  by_cases hsolo : info.interference = "solo".toList
  · have hfpga : "solo".toList ≠ "dma+fpga_interf".toList := by decide
    rw [hsolo, if_neg hfpga, if_pos rfl, if_pos rfl]
  · rw [if_neg hsolo, if_neg hsolo]

/-- The configuration of a test with eleven channels is taken for one channel. -/
theorem parseName_eleven :
    parseName (csvName ⟨"dma_interf".toList, "read".toList, 11, "coherent".toList, 1⟩ Mode.raw.suffix) =
      some (.raw, "read".toList, "coherent".toList, some "1ch".toList) :=
  parseName_csvName ⟨⟨"DMA".toList, by decide⟩, .inl ⟨rfl, rfl⟩, .inl rfl⟩ .raw

/-! ### Making names of names -/

theorem splitextRoot_append {root ext : Text} (hext : '.' ∉ ext) (hroot : root.any (· ≠ '.') = true) :
    splitextRoot (root ++ '.' :: ext) = root := by
  have hall : ∀ c ∈ ext.reverse, decide (c ≠ '.') = true := by
    intro c hc
    rw [decide_eq_true_eq]
    rintro rfl
    exact hext (List.mem_reverse.mp hc)
  have hdrop : (root ++ '.' :: ext).rdropWhile (· ≠ '.') = root ++ ['.'] := by
    rw [List.rdropWhile, List.reverse_append, List.reverse_cons, List.append_assoc,
      List.dropWhile_append_of_pos hall, List.singleton_append, List.dropWhile_cons_of_neg (by simp)]
    simp
  have hdot : '.' ∈ root ++ '.' :: ext := by simp
  rw [splitextRoot, hdrop, List.dropLast_concat]
  exact if_pos ⟨hdot, hroot⟩

/-- The name of a filtered file, as `process_file` makes it. -/
theorem splitextRoot_csvName (info : TestInfo) (ext : Text) :
    splitextRoot (csvName info Mode.raw.suffix) ++ ext = csvName info ext := by
  have hsuffix : Mode.raw.suffix = '.' :: "csv".toList := rfl
  have hcsv : ∀ s, csvName info s = csvName info [] ++ s := fun s => by
    rw [csvName, csvName, List.append_nil]
  have hroot : (csvName info []).any (· ≠ '.') = true :=
    List.any_eq_true.mpr ⟨'_', by rw [csvName_eq]; simp, rfl⟩
  rw [hcsv, hsuffix, splitextRoot_append (by decide) hroot, ← hcsv]

/-- A name shows the test and the filter. -/
theorem csvName_inj {info info' : TestInfo} (h : Shape info) (h' : Shape info') {m m' : Mode}
    (heq : csvName info m.suffix = csvName info' m'.suffix) : info = info' ∧ m = m' := by
  have hq95 : decide (m = .q95) = decide (m' = .q95) := by
    rw [← isIn_q95 h m, heq, isIn_q95 h' m']
  have hq99 : decide (m = .q99) = decide (m' = .q99) := by
    rw [← isIn_q99 h m, heq, isIn_q99 h' m']
  obtain rfl : m = m' := by
    revert hq95 hq99
    cases m <;> cases m' <;> decide
  refine ⟨outFilename_inj h h' ?_, rfl⟩
  have hcut := List.append_cancel_right heq
  unfold outFilename
  rw [hcut]

end Violins
end DaatMcs
