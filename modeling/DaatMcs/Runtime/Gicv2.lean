/-
# The distributor of the GICv2

The calls of the GICv2 driver that change an interrupt's settings, and the
registers they change: an enable bit for each interrupt, 32 to a register,
and a byte of priority and a byte of targets, 4 to a register. A write to
`ISENABLER` sets the bits written as 1 and one to `ICENABLER` clears them;
the bytes are read, replaced and written back under `gicd_lock`. The calls
are for shared interrupts, those from 32 on: the registers of the others are
banked, each CPU has its own, and their targets cannot be written.

Any number of CPUs make any calls, their accesses in any order. When the lock
is free every setting of every interrupt is what the last call for it wrote,
in an order of the calls that keeps each CPU's own (`settings_lastWrite`): no
call undoes what another has done to a neighbour in the same register.
-/
import DaatMcs.Lib.LastWrite
import DaatMcs.Lib.Registers
import DaatMcs.Runtime.Spinlock

namespace DaatMcs
namespace Gicv2

open Registers Steps Mutex Spinlock

/-- The registers of the distributor, each an array of words: the enable bits
that `ISENABLER` and `ICENABLER` show, and the bytes. Of those that are banked
there is nothing here. -/
structure Gicd where
  enabled : ℕ → BitVec 32
  ipriorityr : ℕ → BitVec 32
  itargetsr : ℕ → BitVec 32

def Gicd.setPriority (d : Gicd) (r : ℕ) (v : BitVec 32) : Gicd :=
  { d with ipriorityr := Function.update d.ipriorityr r v }

def Gicd.setTarget (d : Gicd) (r : ℕ) (v : BitVec 32) : Gicd :=
  { d with itargetsr := Function.update d.itargetsr r v }

/-! ### The calls -/

/-- `int_id / (sizeof(uint32_t) * 8)`, with the bit `int_id % (sizeof(uint32_t) * 8)` -/
def enableSlot (intId : ℕ) : ℕ × ℕ := (intId / 32, intId % 32)

/-- `reg_ind` and `off` of an interrupt's byte: `int_id * 8` bits from the start. -/
def byteSlot (intId : ℕ) : ℕ × ℕ := (intId * 8 / 32, intId * 8 % 32)

/-- `((1U << 8) - 1) << off` -/
def byteMask (off : ℕ) : BitVec 32 := fieldMask 32 8 off

/-- What the write in `gic_set_enable` does, to one register or the other. -/
def writeEnable (d : Gicd) (intId : ℕ) (en : Bool) : Gicd :=
  { d with enabled := modify d.enabled (enableSlot intId).1 fun r =>
      if en then r ||| 1#32 <<< (enableSlot intId).2 else r &&& ~~~(1#32 <<< (enableSlot intId).2) }

/-- The word `gic_set_trgt` and `gic_set_prio` write back, from the one they read. -/
def replaceByte (r : BitVec 32) (off : ℕ) (v : BitVec 8) : BitVec 32 :=
  (r &&& ~~~byteMask off) ||| (v.setWidth 32 <<< off &&& byteMask off)

/-- What a CPU keeps: the word it has read, and what `gic_get_trgt` returned. -/
structure Own where
  word : BitVec 32
  trgt : BitVec 8
  deriving DecidableEq, Repr

def gicSetEnable (intId : ℕ) (en : Bool) : Body Gicd Own :=
  [fun x => (writeEnable x.1 intId en, x.2)]

/-- The value is computed before the call, from what the CPU keeps. -/
def gicSetTrgt (intId : ℕ) (trgt : Own → BitVec 8) : Body Gicd Own :=
  [fun x => (x.1, { x.2 with word := x.1.itargetsr (byteSlot intId).1 }),
    fun x => (x.1.setTarget (byteSlot intId).1 (replaceByte x.2.word (byteSlot intId).2 (trgt x.2)), x.2)]

def gicSetPrio (intId : ℕ) (prio : BitVec 8) : Body Gicd Own :=
  [fun x => (x.1, { x.2 with word := x.1.ipriorityr (byteSlot intId).1 }),
    fun x => (x.1.setPriority (byteSlot intId).1 (replaceByte x.2.word (byteSlot intId).2 prio), x.2)]

/-- `(reg & mask) >> off` -/
def byteAt (r : BitVec 32) (off : ℕ) : BitVec 8 := (readField r (byteMask off) off).setWidth 8

def gicGetTrgt (d : Gicd) (intId : ℕ) : BitVec 8 :=
  byteAt (d.itargetsr (byteSlot intId).1) (byteSlot intId).2

inductive Call
  | setEnable (intId : ℕ) (en : Bool)
  | setTrgt (intId : ℕ) (trgt : BitVec 8)
  | setPrio (intId : ℕ) (prio : BitVec 8)
  deriving DecidableEq, Repr

def Call.intId : Call → ℕ
  | .setEnable intId _ | .setTrgt intId _ | .setPrio intId _ => intId

/-- The first interrupt that is shared. -/
def firstShared : ℕ := 32

def Call.item : Call → Item Gicd Own
  | .setEnable intId en => .critical (gicSetEnable intId en)
  | .setTrgt intId trgt => .critical (gicSetTrgt intId fun _ => trgt)
  | .setPrio intId prio => .critical (gicSetPrio intId prio)

/-! ### Bytes of a register -/

theorem byteSlot_eq (intId : ℕ) : byteSlot intId = (intId / 4, intId % 4 * 8) := by
  unfold byteSlot
  rw [Prod.mk.injEq]
  omega

theorem byteSlot_fits (intId : ℕ) : (byteSlot intId).2 + 8 ≤ 32 := by
  rw [byteSlot_eq]
  show intId % 4 * 8 + 8 ≤ 32
  omega

/-- The byte reads back. -/
theorem byteAt_replaceByte (r : BitVec 32) {off : ℕ} (h : off + 8 ≤ 32) (v : BitVec 8) :
    byteAt (replaceByte r off v) off = v := by
  apply BitVec.eq_of_toNat_eq
  have hread := toNat_readField_writeField h r (v.setWidth 32)
  rw [byteAt, BitVec.toNat_setWidth]
  show (readField (writeField r (fieldMask 32 8 off) off (v.setWidth 32)) (fieldMask 32 8 off) off).toNat %
    2 ^ 8 = v.toNat
  rw [hread, Nat.mod_mod, BitVec.toNat_setWidth]
  have hv := v.isLt
  omega

/-- The other bytes of the register stay. -/
theorem byteAt_replaceByte_of_ne (r : BitVec 32) {off off' : ℕ} (h : off + 8 ≤ off' ∨ off' + 8 ≤ off)
    (v : BitVec 8) : byteAt (replaceByte r off v) off' = byteAt r off' := by
  unfold byteAt
  congr 1
  refine readField_writeField_of_disjoint ?_ r off off' (v.setWidth 32)
  apply BitVec.eq_of_getLsbD_eq
  intro k hk
  rw [byteMask, byteMask, BitVec.getLsbD_and, getLsbD_fieldMask, getLsbD_fieldMask, BitVec.getLsbD_zero]
  by_cases h1 : off ≤ k ∧ k < off + 8
  · have h2 : ¬ (off' ≤ k ∧ k < off' + 8) := by omega
    simp only [hk, decide_true, Bool.true_and, ← Bool.decide_and, h2, decide_false, Bool.and_false]
  · simp only [hk, decide_true, Bool.true_and, ← Bool.decide_and, h1, decide_false, Bool.false_and]

/-! ### Settings -/

inductive Setting
  | enable (intId : ℕ) | trgt (intId : ℕ) | prio (intId : ℕ)
  deriving DecidableEq, Repr

/-- What the registers say of a setting. -/
def Gicd.get (d : Gicd) : Setting → ℕ
  | .enable i => (bitAt d.enabled (enableSlot i)).toNat
  | .trgt i => (gicGetTrgt d i).toNat
  | .prio i => (byteAt (d.ipriorityr (byteSlot i).1) (byteSlot i).2).toNat

/-- What a call writes to a setting. -/
def Call.writes : Call → Setting → Option ℕ
  | .setEnable i en, f => if f = .enable i then some en.toNat else none
  | .setTrgt i trgt, f => if f = .trgt i then some trgt.toNat else none
  | .setPrio i prio, f => if f = .prio i then some prio.toNat else none

/-- What a call does when no other comes between its accesses. -/
def Call.apply (d : Gicd) : Call → Gicd
  | .setEnable i en => writeEnable d i en
  | .setTrgt i trgt =>
    d.setTarget (byteSlot i).1 (replaceByte (d.itargetsr (byteSlot i).1) (byteSlot i).2 trgt)
  | .setPrio i prio =>
    d.setPriority (byteSlot i).1 (replaceByte (d.ipriorityr (byteSlot i).1) (byteSlot i).2 prio)

theorem run_item (c : Call) (x : Gicd × Own) : (c.item.run x).1 = c.apply x.1 := by
  cases c <;> rfl

/-- A byte of an array of registers after one of them was replaced. -/
theorem byteAt_update (r : ℕ → BitVec 32) (i j : ℕ) (v : BitVec 8) :
    byteAt (Function.update r (byteSlot i).1 (replaceByte (r (byteSlot i).1) (byteSlot i).2 v) (byteSlot j).1)
      (byteSlot j).2 = if j = i then v else byteAt (r (byteSlot j).1) (byteSlot j).2 := by
  by_cases hij : j = i
  · subst hij
    rw [Function.update_self, if_pos rfl, byteAt_replaceByte _ (byteSlot_fits j)]
  · rw [if_neg hij]
    by_cases hreg : (byteSlot j).1 = (byteSlot i).1
    · rw [hreg, Function.update_self, byteAt_replaceByte_of_ne]
      simp only [byteSlot_eq] at hreg ⊢
      omega
    · rw [Function.update_of_ne hreg]

theorem enableSlot_inj {i j : ℕ} : enableSlot j = enableSlot i ↔ j = i := by
  unfold enableSlot
  rw [Prod.mk.injEq]
  omega

/-- A call changes the setting it is for and no other. -/
theorem get_apply (c : Call) (d : Gicd) (f : Setting) : (c.apply d).get f = (c.writes f).getD (d.get f) := by
  cases c with
  | setEnable i en =>
    cases f with
    | enable j =>
      have hbit : (enableSlot i).2 < 32 := Nat.mod_lt _ (by omega)
      show (bitAt (modify d.enabled (enableSlot i).1 fun r => writeBit r (enableSlot i).2 en)
        (enableSlot j)).toNat = _
      rw [bitAt_modify_writeBit _ _ hbit, Prod.mk.eta]
      by_cases hij : j = i
      · subst hij
        simp [Call.writes]
      · have hslot : enableSlot j ≠ enableSlot i := fun h => hij (enableSlot_inj.mp h)
        simp [Call.writes, hij, hslot, Gicd.get]
    | trgt j => simp [Call.writes, Call.apply, Gicd.get, writeEnable, gicGetTrgt]
    | prio j => simp [Call.writes, Call.apply, Gicd.get, writeEnable]
  | setTrgt i trgt =>
    cases f with
    | enable j => simp [Call.writes, Call.apply, Gicd.get, Gicd.setTarget]
    | trgt j =>
      simp only [Call.apply, Gicd.get, gicGetTrgt, Gicd.setTarget, Call.writes, byteAt_update]
      by_cases hij : j = i
      · simp [hij]
      · simp [hij]
    | prio j => simp [Call.writes, Call.apply, Gicd.get, Gicd.setTarget]
  | setPrio i prio =>
    cases f with
    | enable j => simp [Call.writes, Call.apply, Gicd.get, Gicd.setPriority]
    | trgt j => simp [Call.writes, Call.apply, Gicd.get, Gicd.setPriority, gicGetTrgt]
    | prio j =>
      simp only [Call.apply, Gicd.get, Gicd.setPriority, Call.writes, byteAt_update]
      by_cases hij : j = i
      · simp [hij]
      · simp [hij]

/-! ### Calls of many CPUs -/

variable {κ : Type*} [DecidableEq κ]

/-- Each CPU is about to make its calls, all for shared interrupts. -/
structure Start (s : Cpus κ Gicd Own) (calls : κ → List Call) : Prop where
  initial : Initial s
  todo : ∀ k, s.todo k = (calls k).map Call.item
  shared : ∀ k, ∀ c ∈ calls k, firstShared ≤ c.intId

/-- **The last call for it decides every setting**: when the lock is free, the
calls made so far have an order, each CPU's own kept, in which the last call
for a setting gave it its value; and one no call was for is as it was. -/
theorem settings_lastWrite {s t : Cpus κ Gicd Own} {calls : κ → List Call} (hs : Start s calls)
    (ht : Reaches step s t) (hlock : t.lock = 0) :
    ∃ order : List (κ × Call),
      (∀ k, ∃ rest, (order.filter (·.1 = k)).map Prod.snd ++ rest = calls k ∧
        t.todo k = rest.map Call.item) ∧
      ∀ f, t.shared.get f = (lastWrite (fun c => c.2.writes) order f).getD (s.shared.get f) := by
  have hitems : s.Todo Item.Critical := by
    intro k i hi
    rw [hs.todo k, List.mem_map] at hi
    obtain ⟨c, -, rfl⟩ := hi
    cases c <;> trivial
  have hatomic := reaches_atomic hs.initial ht (.inl hitems) hlock
  obtain ⟨order, rest, hshared, hcalls, htodo⟩ :=
    exists_order (e := fun c d => c.apply d) run_item hs.todo hatomic
  refine ⟨order, fun k => ⟨rest k, hcalls k, htodo k⟩, fun f => ?_⟩
  have hcall : ∀ c ∈ order, ∀ d, Gicd.get ((fun d (c : κ × Call) => c.2.apply d) d c) f =
      (c.2.writes f).getD (d.get f) := fun c _ d => get_apply c.2 d f
  rw [hshared]
  exact foldl_lastWrite Gicd.get hcall s.shared

/-- Two CPUs that each set a byte of the same register. -/
def twoCpus : Cpus Bool Gicd Own :=
  ⟨⟨⟨fun _ => 0, fun _ => 0, fun _ => 0⟩, fun _ => ⟨0, 0⟩,
    fun k => [(Call.setTrgt (if k then 32 else 33) 2).item]⟩, spinlockInitval, fun _ => false, fun _ => .outside⟩

theorem settings_lastWrite_twoCpus : ∃ t, Reaches step twoCpus t ∧ ∃ order : List (Bool × Call),
    ∀ f, t.shared.get f = (lastWrite (fun c => c.2.writes) order f).getD (twoCpus.shared.get f) := by
  let run : List (Event Bool) := List.replicate 5 (.cpu true) ++ List.replicate 5 (.cpu false)
  have hrun : (run.foldlM step twoCpus).isSome := rfl
  have ht := Option.some_get hrun
  have hs : Start twoCpus fun k => [.setTrgt (if k then 32 else 33) 2] :=
    ⟨⟨rfl, fun _ => rfl⟩, fun _ => rfl, by decide⟩
  obtain ⟨order, -, horder⟩ := settings_lastWrite hs ⟨_, ht.symm⟩ rfl
  exact ⟨_, ⟨_, ht.symm⟩, order, horder⟩

end Gicv2
end DaatMcs
