/-
# Registers, their bits and their fields

A device register is a word of `w` bits, and drivers change it by read,
modify and write: a bit is set or cleared by its position (`writeBit`), a
field is replaced under its mask (`writeField`). Everything said of them is
said bit by bit: `getLsbD_writeBit`, `getLsbD_writeField`. A field of `n` bits
reads back the value modulo `2 ^ n` (`toNat_readField_writeField`), the bits
outside the mask stay (`writeField_frame`), and writes of disjoint fields
commute (`writeField_comm`).

A register file is a word for each register name (`modify` changes one).
-/
import Mathlib.Algebra.Ring.Nat
import Mathlib.Logic.Function.Basic
import Mathlib.Tactic.Common

namespace DaatMcs
namespace Registers

variable {w : ℕ}

/-! ### Bits -/

def setBit (r : BitVec w) (bit : ℕ) : BitVec w := r ||| 1#w <<< bit

def clearBit (r : BitVec w) (bit : ℕ) : BitVec w := r &&& ~~~(1#w <<< bit)

def writeBit (r : BitVec w) (bit : ℕ) (val : Bool) : BitVec w :=
  if val then setBit r bit else clearBit r bit

@[simp] theorem getLsbD_writeBit (r : BitVec w) (bit : ℕ) (val : Bool) (k : ℕ) :
    (writeBit r bit val).getLsbD k = if k = bit ∧ k < w then val else r.getLsbD k := by
  unfold writeBit setBit clearBit
  rcases Nat.lt_or_ge k w with hk | hk
  · by_cases hb : k = bit
    · subst hb
      cases val <;> simp [hk]
    · -- another bit: the shifted one is not in its place
      have hne : k < bit ∨ k - bit ≠ 0 := by omega
      rcases hne with h | h <;> cases val <;> simp [hk, hb, h]
  · have hge : ¬ k < w := by omega
    cases val <;> simp [BitVec.getLsbD_of_ge _ _ hk, hge]

/-! ### Fields -/

/-- The bits of `mask` become the value moved to its place, cut to the mask. -/
def writeField (r mask : BitVec w) (shift : ℕ) (val : BitVec w) : BitVec w :=
  (r &&& ~~~mask) ||| (val <<< shift &&& mask)

def readField (r mask : BitVec w) (shift : ℕ) : BitVec w := (r &&& mask) >>> shift

theorem getLsbD_writeField (r mask : BitVec w) (shift : ℕ) (val : BitVec w) (k : ℕ) :
    (writeField r mask shift val).getLsbD k =
      if mask.getLsbD k then (val <<< shift).getLsbD k else r.getLsbD k := by
  unfold writeField
  rcases Nat.lt_or_ge k w with hk | hk
  · simp only [BitVec.getLsbD_or, BitVec.getLsbD_and, BitVec.getLsbD_not, hk, decide_true, Bool.true_and]
    cases mask.getLsbD k <;> simp
  · rw [BitVec.getLsbD_of_ge _ _ hk, BitVec.getLsbD_of_ge mask _ hk, BitVec.getLsbD_of_ge r _ hk]
    rfl

/-- Outside the mask nothing changes. -/
theorem writeField_frame (r mask : BitVec w) (shift : ℕ) (val : BitVec w) :
    writeField r mask shift val &&& ~~~mask = r &&& ~~~mask := by
  apply BitVec.eq_of_getLsbD_eq
  intro k hk
  rw [BitVec.getLsbD_and, getLsbD_writeField, BitVec.getLsbD_and, BitVec.getLsbD_not]
  cases mask.getLsbD k <;> simp

/-- Inside the mask the value stands, cut to it. -/
theorem writeField_mask (r mask : BitVec w) (shift : ℕ) (val : BitVec w) :
    writeField r mask shift val &&& mask = val <<< shift &&& mask := by
  apply BitVec.eq_of_getLsbD_eq
  intro k hk
  rw [BitVec.getLsbD_and, getLsbD_writeField, BitVec.getLsbD_and]
  cases mask.getLsbD k <;> simp

/-- No bit is in both masks. -/
theorem getLsbD_of_disjoint {m m' : BitVec w} (h : m &&& m' = 0#w) {k : ℕ} (hk : m.getLsbD k = true) :
    m'.getLsbD k = false := by
  have hand : (m &&& m').getLsbD k = false := by rw [h, BitVec.getLsbD_zero]
  rw [BitVec.getLsbD_and, hk, Bool.true_and] at hand
  exact hand

theorem writeField_comm {m m' : BitVec w} (h : m &&& m' = 0#w) (r : BitVec w) (shift shift' : ℕ)
    (val val' : BitVec w) :
    writeField (writeField r m shift val) m' shift' val' =
      writeField (writeField r m' shift' val') m shift val := by
  apply BitVec.eq_of_getLsbD_eq
  intro k hk
  simp only [getLsbD_writeField]
  by_cases hm : m.getLsbD k = true
  · rw [getLsbD_of_disjoint h hm, if_pos hm, if_pos hm]
    rfl
  · rw [if_neg hm, if_neg hm]

theorem readField_writeField_of_disjoint {m m' : BitVec w} (h : m &&& m' = 0#w) (r : BitVec w)
    (shift shift' : ℕ) (val : BitVec w) :
    readField (writeField r m shift val) m' shift' = readField r m' shift' := by
  unfold readField
  congr 1
  apply BitVec.eq_of_getLsbD_eq
  intro k hk
  rw [BitVec.getLsbD_and, BitVec.getLsbD_and, getLsbD_writeField]
  by_cases hm : m.getLsbD k = true
  · rw [getLsbD_of_disjoint h hm, Bool.and_false, Bool.and_false]
  · rw [if_neg hm]

/-- The mask of the `n` bits from `shift` on. -/
def fieldMask (w n shift : ℕ) : BitVec w := BitVec.ofNat w (2 ^ n - 1) <<< shift

theorem getLsbD_fieldMask (n shift k : ℕ) :
    (fieldMask w n shift).getLsbD k = (decide (k < w) && decide (shift ≤ k) && decide (k < shift + n)) := by
  unfold fieldMask
  rw [BitVec.getLsbD_shiftLeft, BitVec.getLsbD_ofNat, Nat.testBit_two_pow_sub_one]
  have hsub : shift ≤ k → (k - shift < n ↔ k < shift + n) := by omega
  by_cases h1 : k < w
  · by_cases h2 : shift ≤ k
    · have h3 : k - shift < w := by omega
      simp [h1, h2, h3, hsub h2]
    · simp [h1, h2, Nat.lt_of_not_le h2]
  · simp [h1]

theorem getLsbD_readField {n shift : ℕ} (h : shift + n ≤ w) (r : BitVec w) (k : ℕ) :
    (readField r (fieldMask w n shift) shift).getLsbD k = (decide (k < n) && r.getLsbD (shift + k)) := by
  unfold readField
  rw [BitVec.getLsbD_ushiftRight, BitVec.getLsbD_and, getLsbD_fieldMask]
  by_cases hk : k < n
  · have h1 : shift + k < w := by omega
    simp [hk, h1]
  · simp [hk]

/-- **A field reads back** the value, modulo its width. -/
theorem toNat_readField_writeField {n shift : ℕ} (h : shift + n ≤ w) (r val : BitVec w) :
    (readField (writeField r (fieldMask w n shift) shift val) (fieldMask w n shift) shift).toNat =
      val.toNat % 2 ^ n := by
  apply Nat.eq_of_testBit_eq
  intro k
  rw [BitVec.testBit_toNat, getLsbD_readField h, getLsbD_writeField, getLsbD_fieldMask,
    BitVec.getLsbD_shiftLeft, Nat.testBit_mod_two_pow, BitVec.testBit_toNat, Nat.add_sub_cancel_left]
  by_cases hk : k < n
  · have h1 : shift + k < w := by omega
    simp [hk, h1]
  · simp [hk]

/-- A value of `n` bits has no bit from `n` on. -/
theorem getLsbD_of_toNat_lt {x : BitVec w} {n k : ℕ} (h : x.toNat < 2 ^ n) (hk : n ≤ k) :
    x.getLsbD k = false :=
  Nat.testBit_lt_two_pow (Nat.lt_of_lt_of_le h (Nat.pow_le_pow_right Nat.two_pos hk))

/-! ### Register files -/

variable {ρ : Type*} [DecidableEq ρ]

/-- One register is read, changed and written back. -/
def modify (s : ρ → BitVec w) (r : ρ) (f : BitVec w → BitVec w) : ρ → BitVec w :=
  Function.update s r (f (s r))

@[simp] theorem modify_same (s : ρ → BitVec w) (r : ρ) (f : BitVec w → BitVec w) :
    modify s r f r = f (s r) := Function.update_self ..

@[simp] theorem modify_of_ne {r r' : ρ} (h : r' ≠ r) (s : ρ → BitVec w) (f : BitVec w → BitVec w) :
    modify s r f r' = s r' := Function.update_of_ne h ..

/-- The bit of a register file at a register and a position. -/
def bitAt (s : ρ → BitVec w) (slot : ρ × ℕ) : Bool := (s slot.1).getLsbD slot.2

theorem bitAt_modify_writeBit (s : ρ → BitVec w) (r : ρ) {bit : ℕ} (hbit : bit < w) (val : Bool)
    (slot : ρ × ℕ) :
    bitAt (modify s r fun v => writeBit v bit val) slot =
      (if slot = (r, bit) then some val else none).getD (bitAt s slot) := by
  obtain ⟨r', k⟩ := slot
  unfold bitAt
  by_cases hr : r' = r
  · subst hr
    rw [modify_same, getLsbD_writeBit]
    by_cases hk : k = bit
    · simp [hk, hbit]
    · simp [hk]
  · rw [modify_of_ne hr, if_neg (fun h => hr (congrArg Prod.fst h)), Option.getD_none]

end Registers
end DaatMcs
