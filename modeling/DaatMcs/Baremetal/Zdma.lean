/-
# The settings of a ZDMA channel

The registers of `zdma_ch_hw` as plain memory, and the calls that set up a
channel. A channel has seven settings, read from the registers by `read`, and
each call is to set some of them (`Call.sets`). All calls but one do
(`read_leaves`): `zdma_ch_set_noncoherent` ors a zero into the descriptors,
so a channel once coherent stays coherent, and the last setting wins iff the
last coherency call is not that one or there was nothing to clear
(`lastSettingWins_iff`).
-/
import DaatMcs.Lib.LastWrite
import DaatMcs.Lib.Registers

namespace DaatMcs
namespace Zdma

open Registers

/-- The registers of `zdma_ch_hw`. -/
inductive ZdmaReg
  | errCtr | isr | imr | ien | ids | ctrl0 | ctrl1 | fci | status | dataAttr | dscrAttr
  | srcDscrWord0 | srcDscrWord1 | srcDscrWord2 | srcDscrWord3
  | dstDscrWord0 | dstDscrWord1 | dstDscrWord2 | dstDscrWord3
  | wrOnlyWord0 | wrOnlyWord1 | wrOnlyWord2 | wrOnlyWord3
  | srcStartLsb | srcStartMsb | dstStartLsb | dstStartMsb
  | totalByte | rateCtrl | irqSrcAcct | irqDstAcct | ctrl2
  deriving DecidableEq, Repr

abbrev Regs := ZdmaReg → BitVec 32

inductive ZdmaMode
  | simple | simpleRo | simpleWo | scatterGather
  deriving DecidableEq, Repr

/-! ### The calls -/

/-- What `zdma_ch_init` writes to `ctrl0`. -/
def modeBits (mode : ZdmaMode) (ctrl0 : BitVec 32) : BitVec 32 :=
  if mode = .scatterGather then ctrl0 ||| 1#32 <<< 6
  else
    let cleared := ctrl0 &&& ~~~(1#32 <<< 6) &&& ~~~(3#32 <<< 4)
    if mode = .simpleRo then cleared ||| 2#32 <<< 4
    else if mode = .simpleWo then cleared ||| 1#32 <<< 4
    else cleared

/-- The status that ends the loop of `zdma_ch_init`. -/
def Idle (s : Regs) : Prop := s .status = 0#32 ∨ s .status = 3#32

instance (s : Regs) : Decidable (Idle s) := inferInstanceAs (Decidable (_ ∨ _))

/-- `none` where the loop on the status does not end. -/
def zdmaChInit (s : Regs) (mode : ZdmaMode) : Option Regs :=
  let s' := modify s .ctrl0 (modeBits mode)
  if Idle s' then some s' else none

def zdmaChSetSrcAddr (s : Regs) (addr : BitVec 64) : Regs :=
  modify (modify s .srcDscrWord0 fun _ => addr.setWidth 32) .srcDscrWord1
    fun _ => (addr >>> 32).setWidth 32

def zdmaChSetDstAddr (s : Regs) (addr : BitVec 64) : Regs :=
  modify (modify s .dstDscrWord0 fun _ => addr.setWidth 32) .dstDscrWord1
    fun _ => (addr >>> 32).setWidth 32

def zdmaChSetSrcSize (s : Regs) (size : BitVec 64) : Regs :=
  modify s .srcDscrWord2 fun _ => size.setWidth 32

def zdmaChSetDstSize (s : Regs) (size : BitVec 64) : Regs :=
  modify s .dstDscrWord2 fun _ => size.setWidth 32

def zdmaChSetSize (s : Regs) (size : BitVec 64) : Regs :=
  zdmaChSetDstSize (zdmaChSetSrcSize s size) size

def zdmaChSetCoherent (s : Regs) : Regs :=
  let s := modify s .dstDscrWord3 (· ||| 1#32)
  let s := modify s .srcDscrWord3 (· ||| 1#32)
  let s := modify s .dataAttr (· ||| 0xF#32 <<< 22)
  modify s .dataAttr (· ||| 0xF#32 <<< 8)

/-- The source ors a zero into the two words. -/
def zdmaChSetNoncoherent (s : Regs) : Regs :=
  modify (modify s .dstDscrWord3 (· ||| 0#32)) .srcDscrWord3 (· ||| 0#32)

inductive Call
  | init (mode : ZdmaMode)
  | setSrcAddr (addr : BitVec 64) | setDstAddr (addr : BitVec 64)
  | setSize (size : BitVec 64)
  | setCoherent | setNoncoherent
  deriving DecidableEq, Repr

def Call.apply (s : Regs) : Call → Option Regs
  | .init mode => zdmaChInit s mode
  | .setSrcAddr addr => some (zdmaChSetSrcAddr s addr)
  | .setDstAddr addr => some (zdmaChSetDstAddr s addr)
  | .setSize size => some (zdmaChSetSize s size)
  | .setCoherent => some (zdmaChSetCoherent s)
  | .setNoncoherent => some (zdmaChSetNoncoherent s)

/-- `none` where some call does not return. -/
def run (s : Regs) (cs : List Call) : Option Regs := cs.foldlM Call.apply s

/-! ### The settings -/

/-- The mode `ctrl0` stands for: bit 6 for scatter-gather, else bits 5 and 4. -/
def decodeMode (ctrl0 : BitVec 32) : Option ZdmaMode :=
  match ctrl0.getLsbD 6, ctrl0.getLsbD 5, ctrl0.getLsbD 4 with
  | true, _, _ => some .scatterGather
  | false, false, false => some .simple
  | false, true, false => some .simpleRo
  | false, false, true => some .simpleWo
  | false, true, true => none

inductive Setting
  | mode | srcAddr | dstAddr | srcSize | dstSize | srcCoherent | dstCoherent
  deriving DecidableEq, Repr

inductive Value
  | mode (m : Option ZdmaMode) | addr (a : BitVec 64) | size (n : ℕ) | flag (b : Bool)
  deriving DecidableEq, Repr

/-- A setting as the registers have it. -/
def read (s : Regs) : Setting → Value
  | .mode => .mode (decodeMode (s .ctrl0))
  | .srcAddr => .addr (s .srcDscrWord1 ++ s .srcDscrWord0)
  | .dstAddr => .addr (s .dstDscrWord1 ++ s .dstDscrWord0)
  | .srcSize => .size (s .srcDscrWord2).toNat
  | .dstSize => .size (s .dstDscrWord2).toNat
  | .srcCoherent => .flag ((s .srcDscrWord3).getLsbD 0)
  | .dstCoherent => .flag ((s .dstDscrWord3).getLsbD 0)

/-- What a call is to set. -/
def Call.sets : Call → Setting → Option Value
  | .init m, .mode => some (.mode (some m))
  | .setSrcAddr a, .srcAddr | .setDstAddr a, .dstAddr => some (.addr a)
  | .setSize n, .srcSize | .setSize n, .dstSize => some (.size n.toNat)
  | .setCoherent, .srcCoherent | .setCoherent, .dstCoherent => some (.flag true)
  | .setNoncoherent, .srcCoherent | .setNoncoherent, .dstCoherent => some (.flag false)
  | _, _ => none

/-- Every setting is the last one made, or what it was if none was made. -/
def LastSettingWins (s : Regs) (cs : List Call) (s' : Regs) : Prop :=
  ∀ setting, read s' setting = (lastWrite Call.sets cs setting).getD (read s setting)

/-- The call changes no setting but those it is to set. -/
def Call.KeepsOthers (c : Call) : Prop :=
  ∀ s s', c.apply s = some s' → ∀ setting, c.sets setting = none → read s' setting = read s setting

/-! ### What a call leaves -/

/-- The registers after the call, once it returns. -/
def Call.leaves (s : Regs) : Call → Regs
  | .init mode => modify s .ctrl0 (modeBits mode)
  | .setSrcAddr addr => zdmaChSetSrcAddr s addr
  | .setDstAddr addr => zdmaChSetDstAddr s addr
  | .setSize size => zdmaChSetSize s size
  | .setCoherent => zdmaChSetCoherent s
  | .setNoncoherent => zdmaChSetNoncoherent s

theorem leaves_status (s : Regs) (c : Call) : c.leaves s .status = s .status := by
  cases c <;> simp [Call.leaves, zdmaChSetSrcAddr, zdmaChSetDstAddr, zdmaChSetSize, zdmaChSetSrcSize,
    zdmaChSetDstSize, zdmaChSetCoherent, zdmaChSetNoncoherent]

theorem idle_leaves {s : Regs} (h : Idle s) (c : Call) : Idle (c.leaves s) := by
  unfold Idle
  rw [leaves_status]
  exact h

/-- On an idle channel every call returns. -/
theorem apply_eq {s : Regs} (h : Idle s) (c : Call) : c.apply s = some (c.leaves s) := by
  cases c with
  | init mode => exact if_pos (idle_leaves h (.init mode))
  | setSrcAddr | setDstAddr | setSize | setCoherent | setNoncoherent => rfl

theorem run_eq {s : Regs} (h : Idle s) (cs : List Call) : run s cs = some (cs.foldl Call.leaves s) := by
  unfold run
  induction cs generalizing s with
  | nil => rfl
  | cons c cs ih =>
    rw [List.foldlM_cons, apply_eq h, List.foldl_cons]
    exact ih (idle_leaves h c)

theorem leaves_of_apply {s s' : Regs} {c : Call} (h : c.apply s = some s') : s' = c.leaves s := by
  cases c with
  | init mode =>
    unfold Call.apply zdmaChInit at h
    dsimp only at h
    split at h
    · exact (Option.some.inj h).symm
    · cases h
  | setSrcAddr | setDstAddr | setSize | setCoherent | setNoncoherent => exact (Option.some.inj h).symm

/-! ### Settings read back -/

theorem decodeMode_modeBits (mode : ZdmaMode) (ctrl0 : BitVec 32) :
    decodeMode (modeBits mode ctrl0) = some mode := by
  cases mode <;> simp [decodeMode, modeBits]

/-- The two words of an address make it again. -/
theorem append_words (addr : BitVec 64) :
    (addr >>> 32).setWidth 32 ++ addr.setWidth 32 = addr := by
  apply BitVec.eq_of_getLsbD_eq
  intro k hk
  rw [BitVec.getLsbD_append, BitVec.getLsbD_setWidth, BitVec.getLsbD_setWidth, BitVec.getLsbD_ushiftRight]
  by_cases h : k < 32
  · simp [h]
  · have h1 : k - 32 < 32 := by omega
    have h2 : 32 + (k - 32) = k := by omega
    simp [h, h1, h2]

/-- A call leaves every setting as it is to be set, but a clear of the
coherency bits is lost. -/
theorem read_leaves (s : Regs) {c : Call} (hsize : ∀ size, c = .setSize size → size.toNat < 2 ^ 32)
    (setting : Setting) :
    read (c.leaves s) setting = (dropped Call.sets (.flag false) c setting).getD (read s setting) := by
  -- a setting the call has nothing to do with is in other registers
  cases c with
  | init mode =>
    cases setting
    case mode => exact congrArg Value.mode (decodeMode_modeBits mode (s .ctrl0))
    all_goals rfl
  | setSrcAddr addr =>
    cases setting
    case srcAddr => exact congrArg Value.addr (append_words addr)
    all_goals rfl
  | setDstAddr addr =>
    cases setting
    case dstAddr => exact congrArg Value.addr (append_words addr)
    all_goals rfl
  | setSize size =>
    have hword : (size.setWidth 32).toNat = size.toNat := by
      rw [BitVec.toNat_setWidth, Nat.mod_eq_of_lt (hsize size rfl)]
    cases setting
    case srcSize | dstSize => exact congrArg Value.size hword
    all_goals rfl
  | setCoherent =>
    cases setting
    case srcCoherent | dstCoherent =>
      apply congrArg Value.flag
      simp [Call.leaves, zdmaChSetCoherent]
    all_goals rfl
  | setNoncoherent =>
    cases setting
    case srcCoherent | dstCoherent =>
      apply congrArg Value.flag
      simp [Call.leaves, zdmaChSetNoncoherent]
    all_goals rfl

/-! ### The last setting -/

theorem keepsOthers {c : Call} (hsize : ∀ size, c = .setSize size → size.toNat < 2 ^ 32) :
    c.KeepsOthers := by
  intro s s' h setting hnone
  rw [leaves_of_apply h, read_leaves s hsize setting, dropped, hnone, ite_self, Option.getD_none]

/-- Only the coherency calls write a flag, and only `zdma_ch_set_coherent` one that is set. -/
theorem sets_flag_iff {cs : List Call} {setting : Setting}
    (h : setting = .srcCoherent ∨ setting = .dstCoherent) :
    (∀ c ∈ cs, ∀ v, c.sets setting = some v → v = .flag false) ↔ .setCoherent ∉ cs := by
  have hcoherent : Call.setCoherent.sets setting = some (.flag true) := by
    rcases h with rfl | rfl <;> rfl
  constructor
  · intro hall hmem
    cases hall _ hmem _ hcoherent
  · intro hnot c hc v hv
    cases c with
    | setCoherent => exact absurd hc hnot
    | setNoncoherent =>
      have hclear : Call.setNoncoherent.sets setting = some (.flag false) := by
        rcases h with rfl | rfl <;> rfl
      exact Option.some.inj (hv.symm.trans hclear)
    | init | setSrcAddr | setDstAddr | setSize => rcases h with rfl | rfl <;> cases hv

theorem sets_ne_flag {c : Call} {setting : Setting} {b : Bool}
    (h : setting ≠ .srcCoherent ∧ setting ≠ .dstCoherent) : c.sets setting ≠ some (.flag b) := by
  obtain ⟨hsrc, hdst⟩ := h
  intro hs
  cases c <;> cases setting <;> first | contradiction | cases hs

/-- The two coherency bits are set by the same calls. -/
theorem lastWrite_dstCoherent (cs : List Call) :
    lastWrite Call.sets cs .dstCoherent = lastWrite Call.sets cs .srcCoherent := by
  induction cs with
  | nil => rfl
  | cons c cs ih =>
    have hc : c.sets .dstCoherent = c.sets .srcCoherent := by cases c <;> rfl
    rw [lastWrite, lastWrite, ih, hc]

/-- The descriptors may stay as they are: the last coherency call is not
`zdma_ch_set_noncoherent`, or there is nothing to clear. -/
def NoLostClear (s : Regs) (cs : List Call) : Prop :=
  lastWrite Call.sets cs .srcCoherent ≠ some (.flag false) ∨
    (s .srcDscrWord3).getLsbD 0 = false ∧ (s .dstDscrWord3).getLsbD 0 = false ∧ .setCoherent ∉ cs

section Run

variable {s : Regs} {cs : List Call} (hsize : ∀ c ∈ cs, ∀ size, c = .setSize size → size.toNat < 2 ^ 32)

include hsize in
theorem read_run_iff (setting : Setting) :
    read (cs.foldl Call.leaves s) setting = (lastWrite Call.sets cs setting).getD (read s setting) ↔
      lastWrite Call.sets cs setting ≠ some (.flag false) ∨
        (read s setting = .flag false ∧ ∀ c ∈ cs, ∀ v, c.sets setting = some v → v = .flag false) := by
  have hrun : read (cs.foldl Call.leaves s) setting =
      (lastWrite (dropped Call.sets (.flag false)) cs setting).getD (read s setting) :=
    foldl_lastWrite read (fun c hc s => read_leaves s (hsize c hc) setting) s
  rw [hrun]
  exact lastWrite_dropped_iff

include hsize in
theorem read_run_coherent_iff {setting : Setting} (h : setting = .srcCoherent ∨ setting = .dstCoherent) :
    read (cs.foldl Call.leaves s) setting = (lastWrite Call.sets cs setting).getD (read s setting) ↔
      lastWrite Call.sets cs .srcCoherent ≠ some (.flag false) ∨
        (read s setting = .flag false ∧ .setCoherent ∉ cs) := by
  have hlast : lastWrite Call.sets cs setting = lastWrite Call.sets cs .srcCoherent := by
    rcases h with rfl | rfl
    · rfl
    · exact lastWrite_dstCoherent cs
  rw [read_run_iff hsize, sets_flag_iff h, hlast]

include hsize in
theorem lastSettingWins_leaves_iff : LastSettingWins s cs (cs.foldl Call.leaves s) ↔ NoLostClear s cs := by
  unfold LastSettingWins NoLostClear
  constructor
  · intro h
    have hsrc := (read_run_coherent_iff hsize (.inl rfl)).mp (h .srcCoherent)
    have hdst := (read_run_coherent_iff hsize (.inr rfl)).mp (h .dstCoherent)
    rcases hsrc with hsrc | ⟨hsrc, hnot⟩
    · exact Or.inl hsrc
    · rcases hdst with hdst | ⟨hdst, -⟩
      · exact Or.inl hdst
      · exact Or.inr ⟨Value.flag.inj hsrc, Value.flag.inj hdst, hnot⟩
  · intro h setting
    by_cases hset : setting = .srcCoherent ∨ setting = .dstCoherent
    · rw [read_run_coherent_iff hsize hset]
      rcases h with h | ⟨hsrc, hdst, hnot⟩
      · exact Or.inl h
      · refine Or.inr ⟨?_, hnot⟩
        rcases hset with rfl | rfl
        · exact congrArg Value.flag hsrc
        · exact congrArg Value.flag hdst
    · rw [read_run_iff hsize]
      refine Or.inl fun hlast => ?_
      obtain ⟨c, -, hc⟩ := exists_of_lastWrite hlast
      exact sets_ne_flag (not_or.mp hset) hc

end Run

/-- **Main result.** On an idle channel a run of calls returns, and the last
setting wins iff no clear of the coherency bits is lost; a call never changes
a setting that is not its own. -/
theorem lastSettingWins_iff {s : Regs} {cs : List Call} (hidle : Idle s)
    (hsize : ∀ size, .setSize size ∈ cs → size.toNat < 2 ^ 32) :
    ∃ s', run s cs = some s' ∧ (LastSettingWins s cs s' ↔ NoLostClear s cs) ∧ ∀ c ∈ cs, c.KeepsOthers := by
  have hsize' : ∀ c ∈ cs, ∀ size, c = .setSize size → size.toNat < 2 ^ 32 := by
    rintro c hc size rfl
    exact hsize size hc
  exact ⟨_, run_eq hidle cs, lastSettingWins_leaves_iff hsize', fun c hc => keepsOthers (hsize' c hc)⟩

/-- The calls of the DMA test for one channel, without coherency, on clear registers. -/
def setup : List Call :=
  [.init .simple, .setSize 32#64, .setSrcAddr 0x80040#64, .setDstAddr 0x80140#64, .setNoncoherent]

theorem setup_size (size : BitVec 64) (h : .setSize size ∈ setup) : size.toNat < 2 ^ 32 := by
  simp only [setup, List.mem_cons, List.not_mem_nil, or_false, reduceCtorEq, false_or] at h
  cases h
  decide

theorem lastSettingWins_iff_setup :
    ∃ s', run (fun _ => 0#32) setup = some s' ∧ LastSettingWins (fun _ => 0#32) setup s' := by
  obtain ⟨s', hrun, hiff, -⟩ := lastSettingWins_iff (s := fun _ => 0#32) (by decide) setup_size
  exact ⟨s', hrun, hiff.mpr (Or.inr (by decide))⟩

/-- Coherent and then not: the bits of the two descriptors stay set. -/
theorem not_lastSettingWins_noncoherent :
    ∃ s', run (fun _ => 0#32) [.setCoherent, .setNoncoherent] = some s' ∧
      ¬ LastSettingWins (fun _ => 0#32) [.setCoherent, .setNoncoherent] s' := by
  refine ⟨_, rfl, fun h => ?_⟩
  have hsrc := h .srcCoherent
  revert hsrc
  decide

end Zdma
end DaatMcs
