/-
# The virtqueue

The functions of `virtio_queue.h`: a table of 1024 descriptors with the free
ones threaded through their `next`, an available ring the driver fills and a
used ring the device fills, each with an index of 16 bits that only counts up.

The driver takes a descriptor, initialises and posts it, and frees it when it
comes back in the used ring; the device takes what is available and gives it
back in any order. The driver's `virtq_get_free_desc_id` is six accesses to
the queue, and the interrupt handler that frees descriptors does not take the
lock the driver transmits under, so it may run between any two of them.
-/
import DaatMcs.Lib.RingBuffer
import DaatMcs.Lib.Steps

namespace DaatMcs
namespace Virtio

/-- `VIRTQ_SIZE` -/
def virtqSize : ℕ := 1024

/-- `VIRTQ_DESC_F_WRITE` -/
def virtqDescFWrite : BitVec 16 := 2#16

/-- `struct virtq_desc` -/
structure VirtqDesc where
  addr : ℕ
  len : ℕ
  flags : BitVec 16
  next : ℕ
  deriving DecidableEq, Repr

/-- `struct virtq` and the three tables it points to; the entries of the used
ring are an `id` and a `len`. The memory pool is left out. -/
structure Virtq where
  desc : ℕ → VirtqDesc
  availIdx : ℕ
  availRing : ℕ → ℕ
  usedIdx : ℕ
  usedRing : ℕ → ℕ × ℕ
  queueIndex : ℕ
  descNextFree : ℕ
  descNumFree : ℕ
  availLastIdx : ℕ
  lastUsedIdx : ℕ

/-- A `uint16_t` after `++`. -/
def succ16 (x : ℕ) : ℕ := (x + 1) % 2 ^ 16

def virtqInit (queueIndex : ℕ) : Virtq where
  desc i := ⟨0, 0, 0#16, if i = virtqSize - 1 then 0 else i + 1⟩
  availIdx := 0
  availRing _ := 0
  usedIdx := 0
  usedRing _ := (0, 0)
  queueIndex := queueIndex
  descNextFree := 0
  descNumFree := virtqSize
  availLastIdx := 0
  lastUsedIdx := 0

def virtqGetDescById (vq : Virtq) (id : ℕ) : VirtqDesc := vq.desc (id % virtqSize)

/-- A descriptor of the table is written. -/
def Virtq.setDesc (vq : Virtq) (id : ℕ) (d : VirtqDesc) : Virtq :=
  { vq with desc := Function.update vq.desc (id % virtqSize) d }

def virtqHasFreeSlots (vq : Virtq) : Bool := vq.descNumFree ≠ 0

/-- How far the driver is in `virtq_get_free_desc_id`, named by its last access. -/
inductive Stage
  | outside
  | asserted
  | readHead
  | readNext
  | wroteHead
  | readNum
  deriving DecidableEq, Repr

/-- The place in `virtq_get_free_desc_id` and what it has read: `idx`, the `next`
of that descriptor, and `desc_num_free`. -/
structure Getting where
  stage : Stage
  idx : ℕ
  next : ℕ
  num : ℕ
  deriving DecidableEq, Repr

/-- The next access of `virtq_get_free_desc_id`; `none` where the assertion fails. -/
def virtqGetFreeDescId (vq : Virtq) (g : Getting) : Option (Virtq × Getting) :=
  match g.stage with
  | .outside => if virtqHasFreeSlots vq then some (vq, { g with stage := .asserted }) else none
  | .asserted => some (vq, { g with stage := .readHead, idx := vq.descNextFree })
  | .readHead => some (vq, { g with stage := .readNext, next := (virtqGetDescById vq g.idx).next })
  | .readNext => some ({ vq with descNextFree := g.next }, { g with stage := .wroteHead })
  -- `desc_num_free--` reads and then writes
  | .wroteHead => some (vq, { g with stage := .readNum, num := vq.descNumFree })
  | .readNum => some ({ vq with descNumFree := g.num - 1 }, { g with stage := .outside })

def virtqPutFreeDesc (vq : Virtq) (id : ℕ) : Option Virtq :=
  if vq.descNumFree < virtqSize then
    some { vq.setDesc id { virtqGetDescById vq id with next := vq.descNextFree } with
      descNextFree := id, descNumFree := vq.descNumFree + 1 }
  else none

/-- `virtq_desc_init` -/
def virtqDescInit (addr len : ℕ) : VirtqDesc := ⟨addr, len, 0#16, 0⟩

/-- `virtq_desc_set_read_only` -/
def VirtqDesc.setReadOnly (d : VirtqDesc) : VirtqDesc := { d with flags := d.flags &&& ~~~virtqDescFWrite }

/-- `virtq_desc_set_write_only` -/
def VirtqDesc.setWriteOnly (d : VirtqDesc) : VirtqDesc := { d with flags := d.flags ||| virtqDescFWrite }

def virtqAvailHasBuf (vq : Virtq) : Bool := vq.availIdx ≠ vq.availLastIdx

def virtqUsedHasBuf (vq : Virtq) : Bool := vq.usedIdx ≠ vq.lastUsedIdx

def virtqAddAvailBuf (vq : Virtq) (id : ℕ) : Virtq :=
  { vq with
    availRing := Function.update vq.availRing (vq.availIdx % virtqSize) id
    availIdx := succ16 vq.availIdx }

def virtqAddUsedBuf (vq : Virtq) (id len : ℕ) : Virtq :=
  { vq with
    usedRing := Function.update vq.usedRing (vq.usedIdx % virtqSize) (id, len)
    usedIdx := succ16 vq.usedIdx }

def virtqGetAvailBufId (vq : Virtq) : Option (ℕ × Virtq) :=
  if virtqAvailHasBuf vq then
    some (vq.availRing (vq.availLastIdx % virtqSize), { vq with availLastIdx := succ16 vq.availLastIdx })
  else none

def virtqGetUsedBufId (vq : Virtq) : Option (ℕ × Virtq) :=
  if virtqUsedHasBuf vq then
    some ((vq.usedRing (vq.lastUsedIdx % virtqSize)).1, { vq with lastUsedIdx := succ16 vq.lastUsedIdx })
  else none

/-! ### Driver and device -/

/-- The queue, the driver's place in `virtq_get_free_desc_id`, the descriptors
it has taken and not posted, and those the device has taken. -/
structure Sys where
  vq : Virtq
  getting : Getting
  held : List ℕ
  device : List ℕ

/-- What driver and device do: the driver makes its next access in taking a
descriptor, posts one it holds for a buffer, gives up one for which there is
no buffer, and, in its interrupt handler, frees the next used one; the
device takes the next available one and gives one back. -/
inductive Event
  | get
  | post (id addr len : ℕ) (write : Bool)
  | giveUp (id : ℕ)
  | reclaim
  | fetch
  | finish (id len : ℕ)
  deriving DecidableEq, Repr

def step (s : Sys) : Event → Option Sys
  | .get => do
    let (vq, g) ← virtqGetFreeDescId s.vq s.getting
    some { s with
      vq := vq
      getting := g
      held := if g.stage = .outside then s.held ++ [g.idx] else s.held }
  | .post id addr len write =>
    if id ∈ s.held then
      let d := virtqDescInit addr len
      some { s with
        vq := virtqAddAvailBuf (s.vq.setDesc id (if write then d.setWriteOnly else d.setReadOnly)) id
        held := s.held.erase id }
    else none
  | .giveUp id => if id ∈ s.held then some { s with held := s.held.erase id } else none
  | .reclaim => do
    let (id, vq) ← virtqGetUsedBufId s.vq
    let vq ← virtqPutFreeDesc vq id
    some { s with vq := vq }
  | .fetch => do
    let (id, vq) ← virtqGetAvailBufId s.vq
    some { s with vq := vq, device := s.device ++ [id] }
  | .finish id len =>
    if id ∈ s.device then
      some { s with vq := virtqAddUsedBuf s.vq id len, device := s.device.erase id }
    else none

def start (queueIndex : ℕ) : Sys := ⟨virtqInit queueIndex, ⟨.outside, 0, 0, 0⟩, [], []⟩

end Virtio
end DaatMcs
