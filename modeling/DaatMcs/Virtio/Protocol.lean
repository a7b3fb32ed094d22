/-
# Where the descriptors are

What the virtqueue is for: every descriptor is in one place at a time, free,
held by the driver, available, at the device, used or given up, and the two
rings are queues. `Places` is that system, without indices and links.

While the interrupt handler does not come between an access of
`virtq_get_free_desc_id` that reads and the one that writes back, the queue
follows it (`run_places`): no descriptor is lost or handed out twice, the
rings keep their order through every wrap of their indices, and the device
finds each buffer as it was posted. One visit of the handler between the read
and the write of `desc_next_free` and a descriptor is gone, but still counted
(`late_reclaim`); between those of `desc_num_free` it is there, but not
counted (`late_count`).
-/
import DaatMcs.Lib.LastWrite
import DaatMcs.Virtio.Queue

namespace DaatMcs
namespace Virtio

open Steps RingBuffer

/-- A buffer as the driver posts it. -/
structure Buffer where
  addr : ℕ
  len : ℕ
  write : Bool
  deriving DecidableEq, Repr

/-- The access that follows. -/
def Stage.succ : Stage → Stage
  | .outside => .asserted
  | .asserted => .readHead
  | .readHead => .readNext
  | .readNext => .wroteHead
  | .wroteHead => .readNum
  | .readNum => .outside

/-- The driver has read what the handler writes, and has not written it back. -/
def Stage.stale : Stage → Bool
  | .readHead | .readNext | .readNum => true
  | _ => false

/-- Where the handler puts what it frees: before the first free descriptor, but
behind one the driver is already past. -/
def Stage.put (stage : Stage) (id : ℕ) : List ℕ → List ℕ
  | [] => [id]
  | x :: free => if stage = .wroteHead then x :: id :: free else id :: x :: free

/-- The place of every descriptor, how far the driver is in taking the first
free one, and the buffer each was last posted for. -/
structure Places where
  free : List ℕ
  stage : Stage
  held : List ℕ
  avail : List ℕ
  device : List ℕ
  used : List ℕ
  givenUp : List ℕ
  buffer : ℕ → Buffer

def placesStart : Places where
  free := List.range virtqSize
  stage := .outside
  held := []
  avail := []
  device := []
  used := []
  givenUp := []
  buffer _ := ⟨0, 0, false⟩

def placesStep (p : Places) : Event → Option Places
  | .get =>
    match p.free with
    | [] => none
    | id :: free =>
      if p.stage = .readNum then some { p with stage := .outside, free := free, held := p.held ++ [id] }
      else some { p with stage := p.stage.succ }
  | .post id addr len write =>
    if id ∈ p.held then
      some { p with
        held := p.held.erase id
        avail := p.avail ++ [id]
        buffer := Function.update p.buffer id ⟨addr, len, write⟩ }
    else none
  | .giveUp id =>
    if id ∈ p.held then some { p with held := p.held.erase id, givenUp := p.givenUp ++ [id] } else none
  | .reclaim =>
    match p.used with
    | [] => none
    | id :: used => if p.stage.stale then none else some { p with used := used, free := p.stage.put id p.free }
  | .fetch =>
    match p.avail with
    | id :: avail => some { p with avail := avail, device := p.device ++ [id] }
    | [] => none
  | .finish id _ =>
    if id ∈ p.device then some { p with device := p.device.erase id, used := p.used ++ [id] } else none

/-- All the places, one after the other. -/
def Places.all (p : Places) : List ℕ :=
  p.free ++ (p.held ++ (p.avail ++ (p.device ++ (p.used ++ p.givenUp))))

/-- Every descriptor is in one place. -/
def Places.Partition (p : Places) : Prop := p.all.Perm (List.range virtqSize)

/-- The handler does not run between a read of the driver's and its write. -/
def quietStep (s : Sys) (e : Event) : Option Sys :=
  if e = .reclaim ∧ s.getting.stage.stale then none else step s e

/-! ### One place for each -/

theorem Stage.put_perm (stage : Stage) (id : ℕ) (free : List ℕ) : (stage.put id free).Perm (id :: free) := by
  cases free with
  | nil => rfl
  | cons x free =>
    rw [put]
    split
    · exact List.Perm.swap id x free
    · rfl

theorem Stage.put_ne_nil (stage : Stage) (id : ℕ) (free : List ℕ) : stage.put id free ≠ [] :=
  List.ne_nil_of_mem ((stage.put_perm id free).mem_iff.mpr List.mem_cons_self)

theorem placesStep_get {p : Places} {id : ℕ} {free : List ℕ} (hfree : p.free = id :: free) :
    placesStep p .get =
      if p.stage = .readNum then some { p with stage := .outside, free := free, held := p.held ++ [id] }
      else some { p with stage := p.stage.succ } := by
  simp only [placesStep, hfree]

theorem get_cases {p q : Places} (he : placesStep p .get = some q) :
    q = { p with stage := p.stage.succ } ∨
    ∃ id free, p.free = id :: free ∧ p.stage = .readNum ∧
      q = { p with stage := .outside, free := free, held := p.held ++ [id] } := by
  by_cases hnil : p.free = []
  · simp [placesStep, hnil] at he
  · obtain ⟨id, free, hfree⟩ := List.exists_cons_of_ne_nil hnil
    rw [placesStep_get hfree] at he
    split at he
    · next hstage => exact .inr ⟨id, free, hfree, hstage, (Option.some.inj he).symm⟩
    · exact .inl (Option.some.inj he).symm

theorem reclaim_cases {p q : Places} (he : placesStep p .reclaim = some q) :
    ∃ id used, p.used = id :: used ∧ p.stage.stale = false ∧
      q = { p with used := used, free := p.stage.put id p.free } := by
  cases hused : p.used with
  | nil => simp [placesStep, hused] at he
  | cons id used =>
    simp only [placesStep, hused] at he
    split at he
    · cases he
    · next hstale => exact ⟨id, used, rfl, Bool.eq_false_iff.mpr hstale, (Option.some.inj he).symm⟩

/-- A move of the places moves one descriptor from a list to another. -/
theorem perm_step {p q : Places} {e : Event} (he : placesStep p e = some q) : q.all.Perm p.all := by
  rw [List.perm_iff_count]
  intro x
  have herase : ∀ {id : ℕ} {l : List ℕ}, id ∈ l →
      (l.erase id).count x + (if id = x then 1 else 0) = l.count x := by
    intro id l hid
    rw [(List.perm_cons_erase hid).count_eq x, List.count_cons]
    simp
  cases e with
  | get =>
    obtain rfl | ⟨id, free, hfree, -, rfl⟩ := get_cases he
    · rfl
    · simp only [Places.all, hfree, List.count_append, List.count_cons, List.count_nil, beq_iff_eq]
      omega
  | post id addr len write =>
    simp only [placesStep] at he
    split at he
    · next hid =>
      cases he
      have := herase hid
      simp only [Places.all, List.count_append, List.count_cons, List.count_nil, beq_iff_eq]
      omega
    · cases he
  | giveUp id =>
    simp only [placesStep] at he
    split at he
    · next hid =>
      cases he
      have := herase hid
      simp only [Places.all, List.count_append, List.count_cons, List.count_nil, beq_iff_eq]
      omega
    · cases he
  | reclaim =>
    obtain ⟨id, used, hused, -, rfl⟩ := reclaim_cases he
    simp only [Places.all, hused, List.count_append, List.count_cons, (p.stage.put_perm id p.free).count_eq]
    omega
  | fetch =>
    simp only [placesStep] at he
    split at he
    · next id avail havail =>
      cases he
      simp only [Places.all, havail, List.count_append, List.count_cons, List.count_nil, beq_iff_eq]
      omega
    · cases he
  | finish id len =>
    simp only [placesStep] at he
    split at he
    · next hid =>
      cases he
      have := herase hid
      simp only [Places.all, List.count_append, List.count_cons, List.count_nil, beq_iff_eq]
      omega
    · cases he

theorem Places.Partition.step {p q : Places} {e : Event} (h : p.Partition) (he : placesStep p e = some q) :
    q.Partition :=
  (perm_step he).trans h

theorem partition_start : placesStart.Partition := by
  simp [Places.Partition, Places.all, placesStart]

theorem Places.Partition.nodup {p : Places} (h : p.Partition) : p.all.Nodup :=
  h.nodup_iff.mpr List.nodup_range

theorem Places.Partition.lt {p : Places} (h : p.Partition) {id : ℕ} (hid : id ∈ p.all) : id < virtqSize :=
  List.mem_range.mp (h.mem_iff.mp hid)

theorem Places.Partition.length {p : Places} (h : p.Partition) : p.all.length = virtqSize := by
  rw [h.length_eq, List.length_range]

/-! ### The queue has the places -/

/-- What the driver has read in `virtq_get_free_desc_id` is right, and the free
list is threaded through the table from `head`, but for the one descriptor
the driver is past. -/
def Getting.Follows (g : Getting) (table : ℕ → ℕ) (head : ℕ) (free : List ℕ) : Prop :=
  match g.stage with
  | .outside => Threaded table 0 head free
  | .asserted => Threaded table 0 head free ∧ free ≠ []
  | .readHead => Threaded table 0 head free ∧ free.head? = some g.idx
  | .readNext => Threaded table 0 head free ∧ free.head? = some g.idx ∧ Threaded table 0 g.next free.tail
  | .wroteHead => Threaded table 0 head free.tail ∧ free.head? = some g.idx
  | .readNum => Threaded table 0 head free.tail ∧ free.head? = some g.idx ∧ g.num = free.length

theorem Getting.Follows.congr {g : Getting} {table table' : ℕ → ℕ} {head : ℕ} {free : List ℕ}
    (h : g.Follows table head free) (heq : ∀ i ∈ free, table' i = table i) : g.Follows table' head free := by
  have htail : ∀ i ∈ free.tail, table' i = table i := fun i hi => heq i (List.mem_of_mem_tail hi)
  cases hstage : g.stage with
  | outside =>
    simp only [Follows, hstage] at h ⊢
    exact h.congr heq
  | asserted =>
    simp only [Follows, hstage] at h ⊢
    exact ⟨h.1.congr heq, h.2⟩
  | readHead =>
    simp only [Follows, hstage] at h ⊢
    exact ⟨h.1.congr heq, h.2⟩
  | readNext =>
    simp only [Follows, hstage] at h ⊢
    exact ⟨h.1.congr heq, h.2.1, h.2.2.congr htail⟩
  | wroteHead =>
    simp only [Follows, hstage] at h ⊢
    exact ⟨h.1.congr htail, h.2⟩
  | readNum =>
    simp only [Follows, hstage] at h ⊢
    exact ⟨h.1.congr htail, h.2⟩

/-- Inside `virtq_get_free_desc_id` there is a free descriptor. -/
theorem Getting.Follows.outside {g : Getting} {table : ℕ → ℕ} {head : ℕ} (h : g.Follows table head []) :
    g.stage = .outside := by
  cases hstage : g.stage <;> simp [Follows, hstage] at h ⊢

/-- The handler puts a descriptor at the head of the list. -/
theorem Getting.Follows.put {g : Getting} {table : ℕ → ℕ} {head id : ℕ} {free : List ℕ}
    (h : g.Follows table head free) (hstage : g.stage.stale = false) (hid : id ∉ free) :
    g.Follows (Function.update table id head) id (g.stage.put id free) := by
  cases hg : g.stage with
  | outside =>
    simp only [Follows, hg] at h ⊢
    cases free with
    | nil => exact h.push hid
    | cons x free => exact h.push hid
  | asserted =>
    simp only [Follows, hg] at h ⊢
    refine ⟨?_, Stage.put_ne_nil _ _ _⟩
    cases free with
    | nil => exact h.1.push hid
    | cons x free => exact h.1.push hid
  | wroteHead =>
    simp only [Follows, hg] at h ⊢
    cases free with
    | nil => cases h.2
    | cons x free => exact ⟨h.1.push fun hmem => hid (List.mem_cons_of_mem _ hmem), h.2⟩
  | readHead => simp [Stage.stale, hg] at hstage
  | readNext => simp [Stage.stale, hg] at hstage
  | readNum => simp [Stage.stale, hg] at hstage

/-- The queue stands for the places: the free list is threaded through the
table, the rings hold the descriptors available and used, and those posted
are as they were posted. -/
structure Rep (s : Sys) (p : Places) : Prop where
  partition : p.Partition
  stage : s.getting.stage = p.stage
  follows : s.getting.Follows (fun i => (s.vq.desc i).next) s.vq.descNextFree p.free
  numFree : s.vq.descNumFree = p.free.length
  held : s.held = p.held
  device : s.device = p.device
  avail : Holds virtqSize (2 ^ 16) s.vq.availRing s.vq.availIdx s.vq.availLastIdx p.avail
  used : ∃ q : List (ℕ × ℕ),
    Holds virtqSize (2 ^ 16) s.vq.usedRing s.vq.usedIdx s.vq.lastUsedIdx q ∧ q.map Prod.fst = p.used
  posted : ∀ id ∈ p.avail ++ (p.device ++ p.used), (s.vq.desc id).addr = (p.buffer id).addr ∧
    (s.vq.desc id).len = (p.buffer id).len ∧
    (s.vq.desc id).flags = if (p.buffer id).write then virtqDescFWrite else 0#16

theorem virtqSize_eq : virtqSize = 1023 + 1 := rfl

/-- The free list `virtq_init` threads. -/
theorem threaded_init (queueIndex : ℕ) : Threaded (fun i => ((start queueIndex).vq.desc i).next) 0
    (start queueIndex).vq.descNextFree placesStart.free := by
  have hhead : (start queueIndex).vq.descNextFree = 0 := rfl
  have hfree : placesStart.free = List.range virtqSize := by simp only [placesStart]
  have h : ∀ n, virtqSize = n + 1 →
      Threaded (fun i => ((start queueIndex).vq.desc i).next) 0 0 (List.range' 0 (n + 1)) := by
    intro n hn
    refine threaded_range' (fun i _ hi => ?_) ?_
    · have hne : i ≠ n := by omega
      simp [start, virtqInit, hn, hne]
    · simp [start, virtqInit, hn]
  rw [hhead, hfree, List.range_eq_range', virtqSize_eq]
  exact h 1023 virtqSize_eq

theorem rep_start (queueIndex : ℕ) : Rep (start queueIndex) placesStart where
  partition := partition_start
  stage := rfl
  follows := threaded_init queueIndex
  numFree := by simp [start, virtqInit, placesStart]
  held := rfl
  device := rfl
  avail := Holds.nil ..
  used := ⟨[], Holds.nil .., rfl⟩
  posted id hid := by simp [placesStart] at hid

variable {s : Sys} {p : Places}

/-- The driver's next access: the last one hands the descriptor out. -/
theorem Rep.get (h : Rep s p) : Option.Rel Rep (step s .get) (placesStep p .get) := by
  have hfollows := h.follows
  have hpstage := h.stage.symm
  cases hfree : p.free with
  | nil =>
    rw [hfree] at hfollows
    have hno : virtqHasFreeSlots s.vq = false := by simp [virtqHasFreeSlots, h.numFree, hfree]
    simp only [step, virtqGetFreeDescId, hfollows.outside, hno, placesStep, hfree]
    exact .none
  | cons id free =>
    have hlt : id % virtqSize = id := Nat.mod_eq_of_lt (h.partition.lt (by simp [Places.all, hfree]))
    rw [placesStep_get hfree, hpstage]
    cases hstage : s.getting.stage with
    | outside =>
      have hhas : virtqHasFreeSlots s.vq = true := by simp [virtqHasFreeSlots, h.numFree, hfree]
      simp only [Getting.Follows, hstage] at hfollows
      simp only [step, virtqGetFreeDescId, hstage, hhas]
      exact .some { h with stage := rfl, follows := ⟨hfollows, by simp [hfree]⟩ }
    | asserted =>
      simp only [Getting.Follows, hstage] at hfollows
      have hidx : p.free.head? = some s.vq.descNextFree := by
        rw [hfree] at hfollows ⊢
        rw [List.head?_cons, hfollows.1.head_eq.1]
      simp only [step, virtqGetFreeDescId, hstage]
      exact .some { h with stage := rfl, follows := ⟨hfollows.1, hidx⟩ }
    | readHead =>
      simp only [Getting.Follows, hstage] at hfollows
      have hnext : Threaded (fun i => (s.vq.desc i).next) 0 (virtqGetDescById s.vq s.getting.idx).next
          p.free.tail := by
        rw [hfree] at hfollows ⊢
        rw [← Option.some.inj hfollows.2, virtqGetDescById, hlt]
        exact hfollows.1.head_eq.2
      simp only [step, virtqGetFreeDescId, hstage]
      exact .some { h with stage := rfl, follows := ⟨hfollows.1, hfollows.2, hnext⟩ }
    | readNext =>
      simp only [Getting.Follows, hstage] at hfollows
      simp only [step, virtqGetFreeDescId, hstage]
      exact .some { h with stage := rfl, follows := ⟨hfollows.2.2, hfollows.2.1⟩ }
    | wroteHead =>
      simp only [Getting.Follows, hstage] at hfollows
      simp only [step, virtqGetFreeDescId, hstage]
      exact .some { h with stage := rfl, follows := ⟨hfollows.1, hfollows.2, h.numFree⟩ }
    | readNum =>
      have hstep : placesStep p .get =
          some { p with stage := .outside, free := free, held := p.held ++ [id] } := by
        rw [placesStep_get hfree, hpstage, hstage, if_pos rfl]
      simp only [Getting.Follows, hstage, hfree] at hfollows
      obtain ⟨hthread, hidx, hnum⟩ := hfollows
      simp only [step, virtqGetFreeDescId, hstage]
      refine .some { h with
        partition := h.partition.step hstep
        stage := rfl
        follows := hthread
        numFree := ?_
        held := ?_ }
      · show s.getting.num - 1 = free.length
        rw [hnum, List.length_cons, Nat.add_sub_cancel]
      · simp only [if_true, h.held, Option.some.inj hidx]

/-- What is out is not free. -/
theorem Places.Partition.not_mem_free (h : p.Partition) {id : ℕ}
    (hid : id ∈ p.held ++ (p.avail ++ (p.device ++ (p.used ++ p.givenUp)))) : id ∉ p.free := by
  have hnodup := h.nodup
  rw [Places.all, List.nodup_append] at hnodup
  exact fun hfree => hnodup.2.2 id hfree id hid rfl

/-- What the driver holds is not posted. -/
theorem Places.Partition.not_mem_posted (h : p.Partition) {id : ℕ} (hid : id ∈ p.held) :
    id ∉ p.avail ++ (p.device ++ p.used) := by
  have hnodup := h.nodup
  rw [Places.all, List.nodup_append, List.nodup_append] at hnodup
  intro hposted
  refine hnodup.2.1.2.2 id hid id ?_ rfl
  simp only [List.mem_append] at hposted ⊢
  tauto

/-- While the driver holds one, or the device does, a ring has room for it. -/
theorem Places.Partition.room (h : p.Partition) :
    (p.held ≠ [] → p.avail.length < virtqSize) ∧ (p.device ≠ [] → p.used.length < virtqSize) ∧
      (p.used ≠ [] → p.free.length < virtqSize) := by
  have hlen := h.length
  simp only [Places.all, List.length_append] at hlen
  simp only [← List.length_pos_iff]
  omega

/-- A descriptor that is out is written. -/
theorem Rep.follows_setDesc (h : Rep s p) {id : ℕ}
    (hid : id ∈ p.held ++ (p.avail ++ (p.device ++ (p.used ++ p.givenUp)))) (d : VirtqDesc) :
    s.getting.Follows (fun i => ((s.vq.setDesc id d).desc i).next) s.vq.descNextFree p.free := by
  have hall : id ∈ p.all := List.mem_append_right _ hid
  refine h.follows.congr fun i hi => ?_
  have hne : i ≠ id % virtqSize := by
    rw [Nat.mod_eq_of_lt (h.partition.lt hall)]
    exact fun heq => h.partition.not_mem_free hid (heq ▸ hi)
  simp [Virtq.setDesc, Function.update_of_ne hne]

theorem Rep.post (h : Rep s p) (id addr len : ℕ) (write : Bool) :
    Option.Rel Rep (step s (.post id addr len write)) (placesStep p (.post id addr len write)) := by
  by_cases hid : id ∈ p.held
  · have hout : id ∈ p.held ++ (p.avail ++ (p.device ++ (p.used ++ p.givenUp))) := List.mem_append_left _ hid
    have hlt : id % virtqSize = id := Nat.mod_eq_of_lt (h.partition.lt (List.mem_append_right _ hout))
    have hstep : placesStep p (.post id addr len write) = some { p with
        held := p.held.erase id
        avail := p.avail ++ [id]
        buffer := Function.update p.buffer id ⟨addr, len, write⟩ } := by simp [placesStep, hid]
    simp only [step, h.held, hid, if_true]
    rw [hstep]
    refine .some { h with
      partition := h.partition.step hstep
      follows := h.follows_setDesc hout _
      held := rfl
      avail := h.avail.push ⟨64, rfl⟩ (h.partition.room.1 (List.ne_nil_of_mem hid)) id
      posted := ?_ }
    intro x hx
    by_cases hxid : x = id
    · subst hxid
      cases write <;> simp [virtqAddAvailBuf, Virtq.setDesc, hlt, virtqDescInit, VirtqDesc.setReadOnly,
        VirtqDesc.setWriteOnly]
    · have hold : x ∈ p.avail ++ (p.device ++ p.used) := by simpa [hxid] using hx
      simpa [virtqAddAvailBuf, Virtq.setDesc, hlt, Function.update_of_ne hxid] using h.posted x hold
  · simp only [step, placesStep, h.held, hid, if_false]
    exact .none

theorem Rep.giveUp (h : Rep s p) (id : ℕ) : Option.Rel Rep (step s (.giveUp id)) (placesStep p (.giveUp id)) := by
  by_cases hid : id ∈ p.held
  · have hstep : placesStep p (.giveUp id) =
        some { p with held := p.held.erase id, givenUp := p.givenUp ++ [id] } := by simp [placesStep, hid]
    simp only [step, h.held, hid, if_true]
    rw [hstep]
    exact .some { h with partition := h.partition.step hstep, held := rfl }
  · simp only [step, placesStep, h.held, hid, if_false]
    exact .none

theorem Rep.fetch (h : Rep s p) : Option.Rel Rep (step s .fetch) (placesStep p .fetch) := by
  have hhas : virtqAvailHasBuf s.vq = true ↔ p.avail ≠ [] := by
    simp only [virtqAvailHasBuf, decide_eq_true_eq]
    exact h.avail.ne_iff (by decide)
  by_cases hnil : p.avail = []
  · have hno : virtqAvailHasBuf s.vq = false := Bool.eq_false_iff.mpr fun hyes => hhas.mp hyes hnil
    simp only [step, placesStep, virtqGetAvailBufId, hno, hnil]
    exact .none
  · obtain ⟨id, avail, havail⟩ := List.exists_cons_of_ne_nil hnil
    have hring := h.avail
    rw [havail] at hring
    obtain ⟨hid, hrest⟩ := hring.pop ⟨64, rfl⟩
    have hstep : placesStep p .fetch = some { p with avail := avail, device := p.device ++ [id] } := by
      simp [placesStep, havail]
    rw [hstep]
    simp only [step, virtqGetAvailBufId, hhas.mpr hnil, if_true, hid]
    refine .some { h with
      partition := h.partition.step hstep
      device := by rw [h.device]
      avail := hrest
      posted := fun x hx => h.posted x ?_ }
    simp only [havail, List.mem_append, List.mem_cons, List.not_mem_nil, or_false] at hx ⊢
    tauto

theorem Rep.finish (h : Rep s p) (id len : ℕ) :
    Option.Rel Rep (step s (.finish id len)) (placesStep p (.finish id len)) := by
  by_cases hid : id ∈ p.device
  · have hstep : placesStep p (.finish id len) =
        some { p with device := p.device.erase id, used := p.used ++ [id] } := by simp [placesStep, hid]
    obtain ⟨q, hq, hmap⟩ := h.used
    have hlen : q.length < virtqSize := by
      rw [← List.length_map (f := Prod.fst), hmap]
      exact h.partition.room.2.1 (List.ne_nil_of_mem hid)
    simp only [step, h.device, hid, if_true]
    rw [hstep]
    refine .some { h with
      partition := h.partition.step hstep
      device := rfl
      used := ⟨q ++ [(id, len)], hq.push ⟨64, rfl⟩ hlen (id, len), by simp [hmap]⟩
      posted := fun x hx => h.posted x ?_ }
    simp only [List.mem_append, List.mem_singleton] at hx ⊢
    rcases hx with hx | hx | hx | rfl
    · exact .inl hx
    · exact .inr (.inl (List.mem_of_mem_erase hx))
    · exact .inr (.inr hx)
    · exact .inr (.inl hid)
  · simp only [step, placesStep, h.device, hid, if_false]
    exact .none

theorem Rep.usedHasBuf (h : Rep s p) : virtqUsedHasBuf s.vq = true ↔ p.used ≠ [] := by
  obtain ⟨q, hq, hmap⟩ := h.used
  simp only [virtqUsedHasBuf, decide_eq_true_eq]
  rw [hq.ne_iff (by decide), ← hmap, Ne, Ne, List.map_eq_nil_iff]

/-- The handler takes the next used descriptor out of the ring. -/
theorem Rep.usedBufId (h : Rep s p) {id : ℕ} {used : List ℕ} (hused : p.used = id :: used) :
    virtqGetUsedBufId s.vq = some (id, { s.vq with lastUsedIdx := succ16 s.vq.lastUsedIdx }) ∧
    ∃ q : List (ℕ × ℕ), Holds virtqSize (2 ^ 16) s.vq.usedRing s.vq.usedIdx (succ16 s.vq.lastUsedIdx) q ∧
      q.map Prod.fst = used := by
  have hhas : virtqUsedHasBuf s.vq = true := h.usedHasBuf.mpr (by simp [hused])
  obtain ⟨q, hq, hmap⟩ := h.used
  obtain ⟨x, q', rfl⟩ : ∃ x q', q = x :: q' := List.exists_cons_of_ne_nil fun hq' => by simp [hq', hused] at hmap
  rw [hused, List.map_cons, List.cons.injEq] at hmap
  obtain ⟨hx, hrest⟩ := hq.pop ⟨64, rfl⟩
  exact ⟨by simp only [virtqGetUsedBufId, hhas, if_true, hx, hmap.1], q', hrest, hmap.2⟩

/-- The handler frees the next used descriptor: its assertion holds. -/
theorem Rep.reclaim_eq (h : Rep s p) {id : ℕ} {used : List ℕ} (hused : p.used = id :: used) :
    step s .reclaim = some { s with vq :=
      { s.vq.setDesc id { virtqGetDescById s.vq id with next := s.vq.descNextFree } with
        lastUsedIdx := succ16 s.vq.lastUsedIdx
        descNextFree := id
        descNumFree := s.vq.descNumFree + 1 } } := by
  have hroom : s.vq.descNumFree < virtqSize := by
    rw [h.numFree]
    exact h.partition.room.2.2 (by simp [hused])
  simp [step, (h.usedBufId hused).1, virtqPutFreeDesc, hroom, Virtq.setDesc, virtqGetDescById]

theorem Rep.reclaim (h : Rep s p) (hstale : s.getting.stage.stale = false) :
    Option.Rel Rep (step s .reclaim) (placesStep p .reclaim) := by
  by_cases hnil : p.used = []
  · have hno : virtqUsedHasBuf s.vq = false := Bool.eq_false_iff.mpr fun hyes => h.usedHasBuf.mp hyes hnil
    simp only [step, placesStep, virtqGetUsedBufId, hno, hnil]
    exact .none
  · obtain ⟨id, used, hused⟩ := List.exists_cons_of_ne_nil hnil
    obtain ⟨-, hrest⟩ := h.usedBufId hused
    have hout : id ∈ p.held ++ (p.avail ++ (p.device ++ (p.used ++ p.givenUp))) := by simp [hused]
    have hlt : id % virtqSize = id := Nat.mod_eq_of_lt (h.partition.lt (List.mem_append_right _ hout))
    have hstep : placesStep p .reclaim = some { p with used := used, free := p.stage.put id p.free } := by
      simp [placesStep, hused, ← h.stage, hstale]
    rw [hstep, h.reclaim_eq hused]
    refine .some { h with
      partition := h.partition.step hstep
      follows := ?_
      numFree := by rw [(p.stage.put_perm id p.free).length_eq, List.length_cons, ← h.numFree]
      used := hrest
      posted := ?_ }
    · have hput := h.follows.put hstale (h.partition.not_mem_free hout)
      rw [h.stage] at hput
      convert hput using 2 with i
      by_cases hi : i = id
      · subst hi
        simp [Virtq.setDesc, hlt]
      · simp [Virtq.setDesc, hlt, Function.update_of_ne hi]
    · intro y hy
      have hold : y ∈ p.avail ++ (p.device ++ p.used) := by
        simp only [hused, List.mem_append, List.mem_cons] at hy ⊢
        tauto
      by_cases hi : y = id
      · subst hi
        simpa [Virtq.setDesc, virtqGetDescById, hlt] using h.posted y hold
      · simpa [Virtq.setDesc, hlt, Function.update_of_ne hi] using h.posted y hold

/-- Queue and places do an event together, or neither can. -/
theorem rep_step (h : Rep s p) (e : Event) :
    Option.Rel Rep (quietStep s e) (placesStep p e) := by
  by_cases hquiet : e = .reclaim ∧ s.getting.stage.stale
  · obtain ⟨rfl, hstale⟩ := hquiet
    have hnone : placesStep p .reclaim = none := by
      rw [h.stage] at hstale
      cases hused : p.used <;> simp [placesStep, hused, hstale]
    simp only [quietStep, hstale, and_self, if_true, hnone]
    exact .none
  · rw [quietStep, if_neg hquiet]
    cases e with
    | get => exact h.get
    | post id addr len write => exact h.post id addr len write
    | giveUp id => exact h.giveUp id
    | reclaim => exact h.reclaim (Bool.eq_false_iff.mpr fun hstale => hquiet ⟨rfl, hstale⟩)
    | fetch => exact h.fetch
    | finish id len => exact h.finish id len

/-- **No descriptor is lost or handed out twice**: a run of driver, device and
handler is a run of the places, event for event, and what it reaches stands
for the places reached. -/
theorem run_places (queueIndex : ℕ) (es : List Event) :
    Option.Rel Rep (es.foldlM quietStep (start queueIndex)) (es.foldlM placesStep placesStart) :=
  rel_foldlM rep_step es (rep_start queueIndex)

/-! ### The order of the rings -/

/-- The descriptors posted in a run, in order. -/
def posted (es : List Event) : List ℕ :=
  es.filterMap fun e => match e with
    | .post id _ _ _ => some id
    | _ => none

/-- The descriptors the device gave back in a run, in order. -/
def finished (es : List Event) : List ℕ :=
  es.filterMap fun e => match e with
    | .finish id _ => some id
    | _ => none

/-- `q` is what is left of `l` after the first `n`. -/
structure Left (l : List ℕ) (n : ℕ) (q : List ℕ) : Prop where
  le : n ≤ l.length
  eq : q = l.drop n

theorem Left.concat {l q : List ℕ} {n : ℕ} (h : Left l n q) (id : ℕ) : Left (l ++ [id]) n (q ++ [id]) where
  le := by
    rw [List.length_append]
    exact Nat.le_add_right_of_le h.le
  eq := by rw [List.drop_append_of_le_length h.le, h.eq]

theorem Left.tail {l q : List ℕ} {n id : ℕ} (h : Left l n (id :: q)) : Left l (n + 1) q ∧ l[n]? = some id := by
  have hlen := congrArg List.length h.eq
  rw [List.length_cons, List.length_drop] at hlen
  refine ⟨⟨by omega, ?_⟩, ?_⟩
  · rw [← List.tail_drop, ← h.eq, List.tail_cons]
  · have hget := congrArg (·[0]?) h.eq
    simpa [List.getElem?_drop] using hget.symm

/-- What was posted and not yet fetched is available, and what was finished and
not yet freed is used, each in its order. -/
theorem places_left {es : List Event} : ∀ {p : Places}, es.foldlM placesStep placesStart = some p →
    Left (posted es) (es.count .fetch) p.avail ∧ Left (finished es) (es.count .reclaim) p.used := by
  induction es using List.reverseRecOn with
  | nil =>
    intro p hp
    rw [List.foldlM_nil] at hp
    obtain ⟨havail, hused⟩ : p.avail = [] ∧ p.used = [] := by
      rw [← Option.some.inj hp]
      simp [placesStart]
    rw [havail, hused]
    exact ⟨⟨Nat.zero_le _, rfl⟩, ⟨Nat.zero_le _, rfl⟩⟩
  | append_singleton es e ih =>
    intro q hq
    obtain ⟨p, hp, he⟩ := foldlM_concat.mp hq
    obtain ⟨havail, hused⟩ := ih hp
    simp only [posted, finished, List.filterMap_append, List.count_append, List.filterMap_cons,
      List.filterMap_nil, List.count_singleton]
    rw [← posted, ← finished]
    cases e with
    | get => obtain rfl | ⟨_, _, -, -, rfl⟩ := get_cases he <;> simpa using ⟨havail, hused⟩
    | post id addr len write =>
      simp only [placesStep] at he
      split at he <;> cases he
      simpa using ⟨havail.concat id, hused⟩
    | giveUp id =>
      simp only [placesStep] at he
      split at he <;> cases he
      simpa using ⟨havail, hused⟩
    | reclaim =>
      obtain ⟨id, used, heq, -, rfl⟩ := reclaim_cases he
      rw [heq] at hused
      simpa using ⟨havail, hused.tail.1⟩
    | fetch =>
      simp only [placesStep] at he
      split at he
      · next id avail heq =>
        cases he
        rw [heq] at havail
        simpa using ⟨havail.tail.1, hused⟩
      · cases he
    | finish id len =>
      simp only [placesStep] at he
      split at he <;> cases he
      simpa using ⟨havail, hused.concat id⟩

/-- The buffer a descriptor is posted for. -/
def Event.buffer : Event → ℕ → Option Buffer
  | .post id addr len write, x => if x = id then some ⟨addr, len, write⟩ else none
  | _, _ => none

theorem places_buffer {es : List Event} (x : ℕ) : ∀ {p : Places}, es.foldlM placesStep placesStart = some p →
    p.buffer x = (lastWrite Event.buffer es x).getD ⟨0, 0, false⟩ := by
  induction es using List.reverseRecOn with
  | nil =>
    intro p hp
    rw [List.foldlM_nil] at hp
    rw [← Option.some.inj hp]
    simp [placesStart, lastWrite]
  | append_singleton es e ih =>
    intro q hq
    obtain ⟨p, hp, he⟩ := foldlM_concat.mp hq
    have hbuffer : q.buffer x = (e.buffer x).getD (p.buffer x) := by
      cases e with
      | post id addr len write =>
        simp only [placesStep] at he
        split at he <;> cases he
        by_cases hx : x = id
        · simp [Event.buffer, hx]
        · simp [Event.buffer, hx]
      | get => obtain rfl | ⟨_, _, -, -, rfl⟩ := get_cases he <;> rfl
      | reclaim =>
        obtain ⟨_, _, -, -, rfl⟩ := reclaim_cases he
        rfl
      | _ =>
        simp only [placesStep] at he
        split at he <;> cases he
        rfl
    rw [hbuffer, ih hp, lastWrite_append]
    simp only [lastWrite, Option.none_or]
    cases e.buffer x <;> rfl

theorem exists_places {queueIndex : ℕ} {es : List Event} {s : Sys}
    (hs : es.foldlM quietStep (start queueIndex) = some s) :
    ∃ p, es.foldlM placesStep placesStart = some p ∧ Rep s p :=
  exists_of_rel (rel_foldlM rep_step es (rep_start queueIndex)) hs

/-- What was posted has a buffer. -/
theorem exists_buffer {es : List Event} {id n : ℕ} (h : (posted es)[n]? = some id) :
    ∃ b, lastWrite Event.buffer es id = some b := by
  obtain ⟨e, he, hpost⟩ := List.mem_filterMap.mp (List.mem_of_getElem? h)
  refine Option.ne_none_iff_exists'.mp fun hnone => ?_
  have hwrite := lastWrite_eq_none.mp hnone e he
  cases e with
  | post id' addr len write =>
    cases hpost
    simp [Event.buffer] at hwrite
  | _ => cases hpost

/-- **The rings are queues**: the device's next fetch takes the next descriptor
posted, and finds it as it was last posted; the handler's next reclaim frees
the next one the device gave back. -/
theorem rings_fifo {queueIndex : ℕ} {es : List Event} {s t : Sys}
    (hs : es.foldlM quietStep (start queueIndex) = some s) :
    (quietStep s .fetch = some t → ∃ id b, (posted es)[es.count .fetch]? = some id ∧
      t.device = s.device ++ [id] ∧ lastWrite Event.buffer es id = some b ∧
        (t.vq.desc id).addr = b.addr ∧ (t.vq.desc id).len = b.len ∧
          (t.vq.desc id).flags = if b.write then virtqDescFWrite else 0#16) ∧
    (quietStep s .reclaim = some t → ∃ id, (finished es)[es.count .reclaim]? = some id ∧
      t.vq.descNextFree = id ∧ t.vq.descNumFree = s.vq.descNumFree + 1) := by
  obtain ⟨p, hp, hrep⟩ := exists_places hs
  obtain ⟨havail, hused⟩ := places_left hp
  constructor
  · intro ht
    obtain ⟨q, hq, hrep'⟩ := exists_of_rel (rep_step hrep .fetch) ht
    simp only [placesStep] at hq
    split at hq
    · next id avail hcons =>
      cases hq
      rw [hcons] at havail
      have hid := havail.tail.2
      obtain ⟨b, hb⟩ := exists_buffer hid
      have hbuffer : p.buffer id = b := by rw [places_buffer id hp, hb, Option.getD_some]
      have hdesc := hrep'.posted id (by simp)
      rw [hbuffer] at hdesc
      exact ⟨id, b, hid, by rw [hrep'.device, hrep.device], hb, hdesc⟩
    · cases hq
  · intro ht
    obtain ⟨q, hq, -⟩ := exists_of_rel (rep_step hrep .reclaim) ht
    obtain ⟨id, used, hcons, hstale, -⟩ := reclaim_cases hq
    rw [← hrep.stage] at hstale
    rw [hcons] at hused
    rw [quietStep, if_neg (by simp [hstale]), hrep.reclaim_eq hcons] at ht
    cases ht
    exact ⟨id, hused.tail.2, rfl, rfl⟩

/-- The driver takes `n` descriptors, one after the other. -/
def takes (n : ℕ) : List Event := List.replicate (6 * n) .get

theorem rings_fifo_two : ∃ s t u,
    (takes 2 ++ [Event.post 0 4096 5 false, .post 1 4160 2 true, .fetch, .finish 0 5]).foldlM quietStep (start 0) =
      some s ∧
    quietStep s .fetch = some t ∧ t.device = [1] ∧ quietStep s .reclaim = some u ∧ u.vq.descNextFree = 0 := by
  obtain ⟨s, hs, t, ht, u, hu, hdevice⟩ : ∃ s,
      (takes 2 ++ [Event.post 0 4096 5 false, .post 1 4160 2 true, .fetch, .finish 0 5]).foldlM quietStep (start 0) =
        some s ∧
      ∃ t, quietStep s .fetch = some t ∧ ∃ u, quietStep s .reclaim = some u ∧ s.device = [] :=
    ⟨_, rfl, _, rfl, _, rfl, rfl⟩
  obtain ⟨id, b, hid, ht', -⟩ := (rings_fifo hs).1 ht
  obtain ⟨id', hid', hu', -⟩ := (rings_fifo hs).2 hu
  cases hid
  cases hid'
  exact ⟨s, t, u, hs, ht, by rw [ht', hdevice, List.nil_append], hu, hu'⟩

/-! ### A reclaim that comes too late -/

/-- The driver alone gets from `s` to `t` in `virtq_get_free_desc_id`, called once or more. -/
def Gets (s t : Sys) : Prop := ∃ n, (List.replicate n Event.get).foldlM step s = some t

theorem Gets.trans {s t u : Sys} (h : Gets s t) (h' : Gets t u) : Gets s u := by
  obtain ⟨m, hm⟩ := h
  obtain ⟨n, hn⟩ := h'
  refine ⟨m + n, ?_⟩
  rw [List.replicate_add, List.foldlM_append, hm]
  exact hn

/-- The assertion and the read of `desc_next_free`. -/
theorem gets_readHead {s : Sys} (hstage : s.getting.stage = .outside) (hnum : s.vq.descNumFree ≠ 0) :
    Gets s { s with getting := { s.getting with stage := .readHead, idx := s.vq.descNextFree } } :=
  ⟨2, by simp [List.replicate, step, virtqGetFreeDescId, virtqHasFreeSlots, hstage, hnum]⟩

/-- The read of the `next` of the first free descriptor. -/
theorem gets_readNext {s : Sys} (hstage : s.getting.stage = .readHead) :
    Gets s { s with getting :=
      { s.getting with stage := .readNext, next := (virtqGetDescById s.vq s.getting.idx).next } } :=
  ⟨1, by simp [step, virtqGetFreeDescId, hstage]⟩

/-- The rest, which writes what was read. -/
theorem gets_outside {s : Sys} (hstage : s.getting.stage = .readNext) :
    Gets s { s with
      vq := { s.vq with descNextFree := s.getting.next, descNumFree := s.vq.descNumFree - 1 }
      getting := { s.getting with stage := .outside, num := s.vq.descNumFree }
      held := s.held ++ [s.getting.idx] } :=
  ⟨3, by simp [List.replicate, step, virtqGetFreeDescId, hstage]⟩

theorem step_readNum {s : Sys} (hstage : s.getting.stage = .readNum) :
    step s .get = some { s with
      vq := { s.vq with descNumFree := s.getting.num - 1 }
      getting := { s.getting with stage := .outside }
      held := s.held ++ [s.getting.idx] } := by
  simp [step, virtqGetFreeDescId, hstage]

/-- Where one descriptor more is counted than is free, the driver takes all
that are and is left with one to take, which is 0. -/
theorem drain {free : List ℕ} : ∀ {s : Sys},
    Threaded (fun i => (s.vq.desc i).next) 0 s.vq.descNextFree free → s.vq.descNumFree = free.length + 1 →
      s.getting.stage = .outside → (∀ i ∈ free, i < virtqSize) →
      ∃ t, Gets s t ∧ t.getting.stage = .readHead ∧ t.getting.idx = 0 ∧ t.held = s.held ++ free := by
  induction free with
  | nil =>
    intro s hthread hnum hstage _
    exact ⟨_, gets_readHead hstage (by simp [hnum]), rfl, hthread.eq_tail, by simp⟩
  | cons x free ih =>
    intro s hthread hnum hstage hlt
    obtain ⟨hx, hrest⟩ := hthread.head_eq
    have hmod : x % virtqSize = x := Nat.mod_eq_of_lt (hlt x List.mem_cons_self)
    obtain ⟨t, ht, htstage, hidx, hheld⟩ := ih (s := { s with
        vq := { s.vq with descNextFree := (s.vq.desc x).next, descNumFree := s.vq.descNumFree - 1 }
        getting := ⟨.outside, x, (s.vq.desc x).next, s.vq.descNumFree⟩
        held := s.held ++ [x] }) hrest (by simp [hnum]) rfl fun i hi => hlt i (List.mem_cons_of_mem _ hi)
    refine ⟨t, ?_, htstage, hidx, by simp [hheld]⟩
    have htake := ((gets_readHead hstage (by simp [hnum])).trans (gets_readNext rfl)).trans (gets_outside rfl)
    simp only [← hx, virtqGetDescById, hmod] at htake
    exact htake.trans ht

/-- What the handler frees was used. -/
theorem Rep.used_of_reclaim (h : Rep s p) {u : Sys} (hu : step s .reclaim = some u) :
    ∃ id used, p.used = id :: used := by
  refine List.exists_cons_of_ne_nil fun hnil => ?_
  have hno : virtqUsedHasBuf s.vq = false := Bool.eq_false_iff.mpr fun hyes => h.usedHasBuf.mp hyes hnil
  simp [step, virtqGetUsedBufId, hno] at hu

/-- The driver is past the read of `desc_next_free` and before its write. -/
def Stage.Reading (stage : Stage) : Prop := stage = .readHead ∨ stage = .readNext

/-- After a reclaim there the driver writes what it has read, or would have read, before. -/
theorem Rep.late_write (h : Rep s p) (hstage : s.getting.stage.Reading) {lost : ℕ} {used : List ℕ}
    (hused : p.used = lost :: used) {u : Sys} (hu : step s .reclaim = some u) :
    ∃ x free t, p.free = x :: free ∧ Gets u t ∧ t.getting.stage = .outside ∧ t.held = s.held ++ [x] ∧
      Threaded (fun i => (t.vq.desc i).next) 0 t.vq.descNextFree free ∧
      t.vq.descNumFree = free.length + 1 := by
  have hfollows := h.follows
  have hout : lost ∈ p.held ++ (p.avail ++ (p.device ++ (p.used ++ p.givenUp))) := by simp [hused]
  have hlost : lost % virtqSize = lost := Nat.mod_eq_of_lt (h.partition.lt (List.mem_append_right _ hout))
  have hfree : ∀ i ∈ p.free, i ≠ lost := fun i hi heq => h.partition.not_mem_free hout (heq ▸ hi)
  rw [h.reclaim_eq hused, Option.some.injEq] at hu
  -- the links of the free descriptors are as they were
  have hnext : ∀ i ∈ p.free, (u.vq.desc i).next = (s.vq.desc i).next :=
    fun i hi => by simp [← hu, Virtq.setDesc, hlost, Function.update_of_ne (hfree i hi)]
  have hget : u.getting = s.getting := by rw [← hu]
  have hheld : u.held = s.held := by rw [← hu]
  have hnum : u.vq.descNumFree = p.free.length + 1 := by rw [← hu, ← h.numFree]
  rcases hstage with hstage | hstage
  · simp only [Getting.Follows, hstage] at hfollows
    obtain ⟨hthread, hidx⟩ := hfollows
    obtain ⟨free, hcons⟩ := List.head?_eq_some_iff.mp hidx
    rw [hcons] at hthread hnum hnext
    have hmod : s.getting.idx % virtqSize = s.getting.idx :=
      Nat.mod_eq_of_lt (h.partition.lt (by simp [Places.all, hcons]))
    refine ⟨_, free, _, hcons, (gets_readNext (hget ▸ hstage)).trans (gets_outside rfl), rfl, by rw [hget, hheld],
      ?_, by rw [hnum, List.length_cons, Nat.add_sub_cancel]⟩
    simp only [virtqGetDescById, hget, hmod, hnext _ List.mem_cons_self]
    exact hthread.head_eq.2.congr fun i hi => hnext i (List.mem_cons_of_mem _ hi)
  · simp only [Getting.Follows, hstage] at hfollows
    obtain ⟨-, hidx, hthread⟩ := hfollows
    obtain ⟨free, hcons⟩ := List.head?_eq_some_iff.mp hidx
    rw [hcons] at hthread hnum hnext
    refine ⟨_, free, _, hcons, gets_outside (hget ▸ hstage), rfl, by rw [hget, hheld], ?_,
      by rw [hnum, List.length_cons, Nat.add_sub_cancel]⟩
    rw [hget]
    exact hthread.congr fun i hi => hnext i (List.mem_cons_of_mem _ hi)

/-- **A reclaim between the read and the write of `desc_next_free` loses its
descriptor**: the driver can then take every free descriptor, never the
reclaimed one, and the count has it take one more. That is 0, which is out
already unless it is the lost one. -/
theorem late_reclaim {queueIndex : ℕ} {es : List Event} {s u : Sys}
    (hs : es.foldlM quietStep (start queueIndex) = some s) (hstage : s.getting.stage.Reading)
    (hu : step s .reclaim = some u) :
    ∃ p lost used t, es.foldlM placesStep placesStart = some p ∧ Rep s p ∧ p.used = lost :: used ∧
      Gets u t ∧ t.held = s.held ++ p.free ∧ lost ∉ t.held ∧
      t.getting.stage = .readHead ∧ t.getting.idx = 0 ∧
      (0 ≠ lost → 0 ∈ t.held ++ (p.avail ++ (p.device ++ (used ++ p.givenUp)))) := by
  obtain ⟨p, hp, hrep⟩ := exists_places hs
  obtain ⟨lost, used, hused⟩ := hrep.used_of_reclaim hu
  have hout : lost ∈ p.held ++ (p.avail ++ (p.device ++ (p.used ++ p.givenUp))) := by simp [hused]
  obtain ⟨x, free, v, hfree, huv, hvstage, hvheld, hthread, hnum⟩ := hrep.late_write hstage hused hu
  obtain ⟨t, hvt, htstage, hidx, htheld⟩ := drain hthread hnum hvstage fun i hi =>
    hrep.partition.lt (by simp [Places.all, hfree, hi])
  have hheld : t.held = s.held ++ p.free := by rw [htheld, hvheld, hfree, List.append_assoc, List.singleton_append]
  refine ⟨p, lost, used, t, hp, hrep, hused, huv.trans hvt, hheld, ?_, htstage, hidx, fun hzero => ?_⟩
  · rw [hheld, List.mem_append, hrep.held]
    rintro (hmem | hmem)
    · exact hrep.partition.not_mem_posted hmem (by simp [hused])
    · exact hrep.partition.not_mem_free hout hmem
  · have hall : 0 ∈ p.all := hrep.partition.mem_iff.mpr (List.mem_range.mpr (by decide))
    simp only [Places.all, hused, hheld, List.mem_append, List.mem_cons, hzero, false_or, hrep.held] at hall ⊢
    tauto

theorem late_reclaim_one : ∃ s u t,
    (takes 2 ++ [Event.post 1 4096 5 false, .fetch, .finish 1 5, .get, .get, .get]).foldlM quietStep (start 0) =
      some s ∧
    step s .reclaim = some u ∧ Gets u t ∧ 0 ∈ s.held ∧ t.getting.stage = .readHead ∧ t.getting.idx = 0 := by
  obtain ⟨s, hs, hstage, hheld, u, hu⟩ : ∃ s,
      (takes 2 ++ [Event.post 1 4096 5 false, .fetch, .finish 1 5, .get, .get, .get]).foldlM quietStep (start 0) =
        some s ∧
      s.getting.stage = .readNext ∧ s.held = [0] ∧ ∃ u, step s .reclaim = some u :=
    ⟨_, rfl, rfl, rfl, _, rfl⟩
  obtain ⟨p, _, _, t, -, -, -, ht, -, -, hread, hzero, -⟩ := late_reclaim hs (.inr hstage) hu
  exact ⟨s, u, t, hs, hu, ht, by simp [hheld], hread, hzero⟩

/-- A reclaim between the read and the write of `desc_num_free` loses none, but
the count is one short of what is free from then on. -/
theorem late_count {queueIndex : ℕ} {es : List Event} {s u : Sys}
    (hs : es.foldlM quietStep (start queueIndex) = some s) (hstage : s.getting.stage = .readNum)
    (hu : step s .reclaim = some u) :
    ∃ lost free t, step u .get = some t ∧ t.getting.stage = .outside ∧
      Threaded (fun i => (t.vq.desc i).next) 0 t.vq.descNextFree (lost :: free) ∧
      t.vq.descNumFree + 1 = (lost :: free).length := by
  obtain ⟨p, -, hrep⟩ := exists_places hs
  have hfollows := hrep.follows
  simp only [Getting.Follows, hstage] at hfollows
  obtain ⟨hthread, hidx, hnum⟩ := hfollows
  obtain ⟨free, hfree⟩ := List.head?_eq_some_iff.mp hidx
  obtain ⟨lost, used, hused⟩ := hrep.used_of_reclaim hu
  have hout : lost ∈ p.held ++ (p.avail ++ (p.device ++ (p.used ++ p.givenUp))) := by simp [hused]
  have hlost : lost % virtqSize = lost := Nat.mod_eq_of_lt (hrep.partition.lt (List.mem_append_right _ hout))
  have hmem : lost ∉ free := fun hmem => hrep.partition.not_mem_free hout (by simp [hfree, hmem])
  rw [hrep.reclaim_eq hused, Option.some.injEq] at hu
  have hget : u.getting = s.getting := by rw [← hu]
  rw [hfree, List.tail_cons] at hthread
  rw [hfree] at hnum
  refine ⟨lost, free, _, step_readNum (hget ▸ hstage), rfl, ?_, by simp [hget, hnum]⟩
  rw [← hu]
  convert hthread.push hmem using 2 with i
  by_cases hi : i = lost
  · subst hi
    simp [Virtq.setDesc, hlost]
  · simp [Virtq.setDesc, hlost, Function.update_of_ne hi]

end Virtio
end DaatMcs
