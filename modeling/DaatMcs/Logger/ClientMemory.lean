/-
# What the logger sends of the shared memory

`main` of `client.c` maps the store buffers as one region and
`logger_send_data` sends `tx_packet_size` bytes from behind the tag of the
buffer at `current_index`. The sizes are `size_t`, the index an `int`, and the
size of the region is computed in an `int`.

`sendsInside_iff` is what the packet size must be for the packets to stay
inside their buffers: it leaves room for the tag. `read_config` makes it the
size of the whole buffer, so the last bytes of every packet are those of the
next buffer's tag, or lie behind the region (`sends_never_inside`).
-/
import DaatMcs.Lib.CInt
import DaatMcs.Logger.Client

namespace DaatMcs
namespace ClientMemory

open CInt Steps

/-! ### Configuration -/

/-- `strtoul` of a decimal text: a value out of range becomes the largest. -/
def strtoul (n : ℕ) : ℕ := if n < 2 ^ 64 then n else 2 ^ 64 - 1

/-- The sizes of `profiler_runtime_config`. -/
structure RuntimeConfig where
  storeBufferSize : ℕ
  numStoreBuffers : ℕ
  txPacketSize : ℕ

/-- `read_config`: a packet is as large as a buffer. -/
def readConfig (storeBufferSize numStoreBuffers : ℕ) : RuntimeConfig where
  storeBufferSize := storeBufferSize
  numStoreBuffers := numStoreBuffers
  txPacketSize := storeBufferSize

/-- `STORE_BUFFER_TAG_SIZE_BYTES`. -/
def storeBufferTagSizeBytes : ℕ := 8

/-- The size `main` maps: an `int`, passed on as `size_t`. -/
def totalShmemSize (c : RuntimeConfig) : ℕ :=
  sizeT (int32 (sizeT (strtoul c.storeBufferSize * strtoul c.numStoreBuffers)))

/-! ### The loop -/

/-- `current_index` and the place in the loop. -/
structure State where
  currentIndex : ℤ
  pc : Client.Pc
deriving DecidableEq

def init : State := ⟨0, .poll⟩

/-- Where the packet starts, relative to `shared_data`. -/
def sendOffset (c : RuntimeConfig) (s : State) : ℕ :=
  sizeT (sizeT s.currentIndex * strtoul c.storeBufferSize + storeBufferTagSizeBytes)

/-- `current_index++` and the reset after the last buffer; the comparison is
unsigned. -/
def advanceIndex (c : RuntimeConfig) (i : ℤ) : ℤ :=
  let i := int32 (i + 1)
  if sizeT i ≥ strtoul c.numStoreBuffers then 0 else i

/-- The next step of the loop; `ready` is the tag as the poll reads it. -/
def profilerLogger (c : RuntimeConfig) (s : State) (ready : Bool) : Option State :=
  some <| match s.pc with
  | .poll => if ready then { s with pc := .send } else s
  | .send => { s with pc := .advance }
  | .advance => { currentIndex := advanceIndex c s.currentIndex, pc := .clear }
  | .clear => { s with pc := .poll }

/-- The index is one of a buffer, and the packet sent in the state lies in
the payload of that buffer and in the mapped region. -/
structure SendInside (c : RuntimeConfig) (s : State) : Prop where
  index : s.currentIndex < c.numStoreBuffers
  payload : s.pc = .send →
    s.currentIndex * c.storeBufferSize + storeBufferTagSizeBytes ≤ (sendOffset c s : ℤ) ∧
    (sendOffset c s + strtoul c.txPacketSize : ℕ) ≤ (s.currentIndex + 1) * c.storeBufferSize
  region : s.pc = .send → sendOffset c s + strtoul c.txPacketSize ≤ totalShmemSize c

/-- So it is in every state the loop reaches. -/
def SendsInside (c : RuntimeConfig) : Prop :=
  ∀ s, Reaches (profilerLogger c) init s → SendInside c s

/-! ### The index -/

theorem strtoul_eq {n : ℕ} (h : n < 2 ^ 64) : strtoul n = n := if_pos h

theorem le_strtoul (n : ℕ) : n ≤ strtoul n ∨ strtoul n = 2 ^ 64 - 1 := by
  unfold strtoul
  split_ifs <;> omega

theorem strtoul_le (n : ℕ) : strtoul n ≤ n := by
  unfold strtoul
  split_ifs <;> omega

theorem advanceIndex_lt {c : RuntimeConfig} (hN : 1 ≤ c.numStoreBuffers) (i : ℤ) :
    advanceIndex c i < c.numStoreBuffers := by
  have hle := strtoul_le c.numStoreBuffers
  dsimp only [advanceIndex]
  unfold sizeT int32
  split_ifs <;> omega

theorem advanceIndex_nonneg {c : RuntimeConfig} (hN : c.numStoreBuffers ≤ 2 ^ 31) (i : ℤ) :
    0 ≤ advanceIndex c i := by
  have hle := strtoul_le c.numStoreBuffers
  dsimp only [advanceIndex]
  unfold sizeT int32
  split_ifs <;> omega

/-- What every advance of the index keeps holds in the whole loop. -/
theorem currentIndex_inv {c : RuntimeConfig} {P : ℤ → Prop} (h0 : P 0)
    (hadv : ∀ i, P i → P (advanceIndex c i)) {s : State}
    (h : Reaches (profilerLogger c) init s) : P s.currentIndex := by
  refine h.inv (I := fun s => P s.currentIndex) (fun s ready u hs hu => ?_) h0
  obtain rfl := Option.some.inj hu
  cases hpc : s.pc with
  | poll =>
    dsimp only
    split_ifs <;> exact hs
  | send => exact hs
  | advance => exact hadv _ hs
  | clear => exact hs

/-- `current_index` is below the number of buffers in every reachable state. -/
theorem currentIndex_lt {c : RuntimeConfig} (hN : 1 ≤ c.numStoreBuffers) {s : State}
    (h : Reaches (profilerLogger c) init s) : s.currentIndex < c.numStoreBuffers :=
  currentIndex_inv (P := fun i => i < c.numStoreBuffers) (by omega)
    (fun i _ => advanceIndex_lt hN i) h

/-- It is never negative, unless there are more buffers than an `int` counts. -/
theorem currentIndex_nonneg {c : RuntimeConfig} (hN : c.numStoreBuffers ≤ 2 ^ 31) {s : State}
    (h : Reaches (profilerLogger c) init s) : 0 ≤ s.currentIndex :=
  currentIndex_inv (P := fun i => 0 ≤ i) (by omega) (fun i _ => advanceIndex_nonneg hN i) h

/-! ### The packet -/

/-- After one poll that finds the first buffer ready the loop is about to
send it. -/
theorem reaches_send (c : RuntimeConfig) : Reaches (profilerLogger c) init ⟨0, .send⟩ :=
  ⟨[true], rfl⟩

theorem sendOffset_first (c : RuntimeConfig) (pc : Client.Pc) : sendOffset c ⟨0, pc⟩ = 8 := by
  simp [sendOffset, sizeT, storeBufferTagSizeBytes]

/-- The first packet lies inside its buffer only if it leaves room for the tag. -/
theorem SendsInside.first {c : RuntimeConfig} (h : SendsInside c) :
    strtoul c.txPacketSize + storeBufferTagSizeBytes ≤ c.storeBufferSize := by
  have hp := ((h _ (reaches_send c)).payload rfl).2
  rw [sendOffset_first, zero_add, one_mul] at hp
  unfold storeBufferTagSizeBytes
  omega

/-- Where the size of the region fits its `int` (and there is a region), the
packets stay inside their buffers iff they leave room for the tag. -/
theorem sendsInside_iff {c : RuntimeConfig} (hS : 0 < c.storeBufferSize)
    (hN : 0 < c.numStoreBuffers) (hsize : c.storeBufferSize * c.numStoreBuffers < 2 ^ 31) :
    SendsInside c ↔ c.txPacketSize + storeBufferTagSizeBytes ≤ c.storeBufferSize := by
  have hSlt : c.storeBufferSize < 2 ^ 31 := (Nat.le_mul_of_pos_right _ hN).trans_lt hsize
  have hNlt : c.numStoreBuffers < 2 ^ 31 := (Nat.le_mul_of_pos_left _ hS).trans_lt hsize
  constructor
  · intro h
    have hfirst := h.first
    rcases le_strtoul c.txPacketSize with hle | heq <;> omega
  · intro htx s hs
    have hlt := currentIndex_lt hN hs
    obtain ⟨i, hi⟩ := Int.eq_ofNat_of_zero_le (currentIndex_nonneg hNlt.le hs)
    -- the buffer of the index ends inside the region
    have hend : (i + 1) * c.storeBufferSize ≤ c.storeBufferSize * c.numStoreBuffers := by
      rw [Nat.mul_comm c.storeBufferSize]
      exact Nat.mul_le_mul_right _ (by omega)
    have hmul : (i + 1) * c.storeBufferSize = i * c.storeBufferSize + c.storeBufferSize :=
      Nat.succ_mul _ _
    have hoff : sendOffset c s = i * c.storeBufferSize + storeBufferTagSizeBytes := by
      rw [sendOffset, strtoul_eq (by omega), hi, sizeT_of_nat (by omega), ← Int.natCast_mul,
        ← Int.natCast_add, sizeT_of_nat (by omega)]
    have htotal : totalShmemSize c = c.storeBufferSize * c.numStoreBuffers := by
      rw [totalShmemSize, strtoul_eq (by omega), strtoul_eq (by omega), ← Int.natCast_mul,
        sizeT_of_nat (by omega), int32_of_nat hsize, sizeT_of_nat (by omega)]
    have htx' := strtoul_le c.txPacketSize
    refine ⟨hlt, fun _ => ?_, fun _ => by omega⟩
    rw [hoff, hi, ← Int.natCast_succ, Nat.succ_eq_add_one, ← Int.natCast_mul,
      ← Int.natCast_mul]
    omega

/-- **Main result.** With the configuration `read_config` makes, the packets
do not stay inside, whatever the size and the number of the buffers. -/
theorem sends_never_inside (storeBufferSize numStoreBuffers : ℕ) :
    ¬ SendsInside (readConfig storeBufferSize numStoreBuffers) := by
  intro h
  have hfirst := h.first
  have hregion := (h _ (reaches_send _)).region rfl
  have htotal : totalShmemSize (readConfig storeBufferSize numStoreBuffers) < 2 ^ 64 := sizeT_lt _
  rw [sendOffset_first] at hregion
  unfold readConfig storeBufferTagSizeBytes at *
  dsimp only at *
  -- a size that `strtoul` cannot represent would fill all memory
  rcases le_strtoul storeBufferSize with hle | heq <;> omega

/-- Four buffers of 1 MB: the first packet ends with the tag of the second buffer. -/
theorem packet_over_tag : ¬ SendsInside (readConfig 1048576 4) := fun h =>
  absurd h.first (by decide)

end ClientMemory
end DaatMcs
