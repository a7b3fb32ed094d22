/-
# The logger's side of the ring of store buffers

`client.c` drains the store buffers the hypervisor fills: `profiler_logger`
polls the tag of the buffer at `current_index`, sends its payload, advances
the index and marks a buffer not ready, and `main` runs it for ever. The
tag is cleared after the index has moved, so it is the tag of the next
buffer: with one buffer that is the one just sent, with more it is one the
producer may have filled already.

`Delivered` is what the ring is for: what was sent is a prefix of what was
produced, and the rest waits in its buffers. Along a run it holds exactly
when every clear finds nothing unsent, which a single buffer guarantees and
two or more do not (`delivered_iff`).
-/
import DaatMcs.Lib.Steps
import Mathlib.Data.Nat.ModEq
import Mathlib.Logic.Function.Basic
import Mathlib.Tactic.Common

namespace DaatMcs
namespace Client

open Steps

def storeBufferTagReady : UInt32 := 0x00acce55
def storeBufferTagNotReady : UInt32 := 0xdeadbeef

abbrev Payload := List UInt8

/-- A store buffer: the tag in its first word, the payload behind it. -/
structure StoreBuffer where
  tag : UInt32
  payload : Payload

/-- Where the loop of `profiler_logger` stands: `poll` is the `while` over
`is_store_buffer_ready`, `send` and `advance` are the two halves of
`logger_send_data`, `clear` is `set_store_buffer_not_ready`. -/
inductive Pc
  | poll | send | advance | clear
  deriving DecidableEq, Repr

/-- The shared buffers, the producer's next buffer `p`, the logger's
`current_index` (an `int`: below 2^31 buffers it does not wrap) and
position, and what has been produced and sent so far. -/
structure State where
  buffers : ℕ → StoreBuffer
  p : ℕ
  currentIndex : ℕ
  pc : Pc
  produced : List Payload
  sent : List Payload

def isStoreBufferReady (s : State) : Bool :=
  (s.buffers s.currentIndex).tag = storeBufferTagReady

def setStoreBufferNotReady (s : State) : State :=
  { s with
    buffers := Function.update s.buffers s.currentIndex
      ⟨storeBufferTagNotReady, (s.buffers s.currentIndex).payload⟩ }

/-- `logger_send_data` up to its `send`: the whole packet goes out. -/
def sendPacket (s : State) : State :=
  { s with sent := s.sent ++ [(s.buffers s.currentIndex).payload] }

/-- The rest of `logger_send_data`: on to the next buffer. -/
def advanceIndex (numStoreBuffers : ℕ) (s : State) : State :=
  { s with currentIndex :=
      if s.currentIndex + 1 ≥ numStoreBuffers then 0 else s.currentIndex + 1 }

/-- The next step of the endless loop over `profiler_logger`. -/
def profilerLogger (numStoreBuffers : ℕ) (s : State) : State :=
  match s.pc with
  | .poll => if isStoreBufferReady s then { s with pc := .send } else s
  | .send => { sendPacket s with pc := .advance }
  | .advance => { advanceIndex numStoreBuffers s with pc := .clear }
  | .clear => { setStoreBufferNotReady s with pc := .poll }

/-- The producer fills its next buffer, if that one is not ready. -/
def fill (numStoreBuffers : ℕ) (x : Payload) (s : State) : Option State :=
  if (s.buffers s.p).tag = storeBufferTagReady then none
  else some { s with
    buffers := Function.update s.buffers s.p ⟨storeBufferTagReady, x⟩
    p := (s.p + 1) % numStoreBuffers
    produced := s.produced ++ [x] }

/-- Who moves: the producer with its next payload, or the logger. -/
inductive Event
  | fill (x : Payload)
  | logger
  deriving DecidableEq, Repr

def step (numStoreBuffers : ℕ) (s : State) : Event → Option State
  | .fill x => fill numStoreBuffers x s
  | .logger => some (profilerLogger numStoreBuffers s)

/-- No buffer is ready, both indices are 0, the logger is about to poll. -/
structure Initial (s : State) : Prop where
  notReady : ∀ i, (s.buffers i).tag ≠ storeBufferTagReady
  p : s.p = 0
  currentIndex : s.currentIndex = 0
  pc : s.pc = .poll
  produced : s.produced = []
  sent : s.sent = []

/-- What was sent is a prefix of what was produced, and each payload not
yet sent sits, ready, in the buffer its turn in the ring gives it. -/
structure Delivered (numStoreBuffers : ℕ) (s : State) : Prop where
  sentPrefix : s.sent <+: s.produced
  waits : ∀ j x, s.sent.length ≤ j → s.produced[j]? = some x →
    s.buffers (j % numStoreBuffers) = ⟨storeBufferTagReady, x⟩

/-- A clear finds everything that was produced already sent. -/
def CaughtUp (s : State) (e : Event) : Prop :=
  e = .logger → s.pc = .clear → s.produced.length ≤ s.sent.length

/-! ### What the ring keeps while every clear is caught up -/

/-- Where the logger's index is for its position: it moves between `advance`
and `clear`, so there it is already at the buffer after the one sent. -/
def indexOk (N : ℕ) (s : State) : Prop :=
  match s.pc with
  | .poll => s.currentIndex = s.sent.length % N ∧
      (s.produced.length = s.sent.length →
        (s.buffers s.currentIndex).tag ≠ storeBufferTagReady)
  | .send => s.currentIndex = s.sent.length % N ∧ s.sent.length < s.produced.length
  | .advance => s.currentIndex + 1 = N ∧ s.sent.length % N = 0 ∨
      s.currentIndex + 1 < N ∧ s.sent.length % N = s.currentIndex + 1
  | .clear => s.currentIndex = s.sent.length % N

/-- The invariant of the ring: besides `Delivered`, both indices follow the
numbers of payloads produced and sent. -/
structure Inv (N : ℕ) (s : State) : Prop where
  delivered : Delivered N s
  p : s.p = s.produced.length % N
  indexOk : indexOk N s

theorem Inv.of_initial {N : ℕ} {s : State} (h : Initial s) : Inv N s where
  delivered := ⟨by simp [h.sent], fun j x _ hx => by simp [h.produced] at hx⟩
  p := by simp [h.p, h.produced]
  indexOk := by
    simp only [Client.indexOk, h.pc, h.sent, h.currentIndex]
    exact ⟨by simp, fun _ => h.notReady 0⟩

/-- Moving on by one in the ring, as the source does it. -/
theorem succ_mod (k N : ℕ) (hN : 0 < N) :
    k % N + 1 = N ∧ (k + 1) % N = 0 ∨ k % N + 1 < N ∧ (k + 1) % N = k % N + 1 := by
  have hlt := Nat.mod_lt k hN
  rw [← Nat.mod_add_mod]
  rcases Nat.lt_or_ge (k % N + 1) N with h | h
  · exact Or.inr ⟨h, Nat.mod_eq_of_lt h⟩
  · have he : k % N + 1 = N := by omega
    exact Or.inl ⟨he, by rw [he, Nat.mod_self]⟩

/-- The next payload of a list extends a prefix of it. -/
theorem prefix_concat {l l' : List Payload} {x : Payload} (h : l <+: l')
    (hx : l'[l.length]? = some x) : l ++ [x] <+: l' := by
  obtain ⟨tl, rfl⟩ := h
  cases tl with
  | nil => simp at hx
  | cons y tl =>
    obtain rfl : y = x := by simpa using hx
    exact ⟨tl, by simp⟩

theorem Inv.fill {N : ℕ} {s t : State} {x : Payload} (h : Inv N s)
    (hs : Client.fill N x s = some t) : Inv N t := by
  simp only [Client.fill] at hs
  split at hs
  · cases hs
  · rename_i hfree
    cases hs
    refine ⟨⟨h.delivered.sentPrefix.trans (List.prefix_append _ _), fun j y hj hy => ?_⟩, ?_, ?_⟩
    · -- an unsent payload's buffer is ready, so it is not the one being filled
      rcases Nat.lt_or_ge j s.produced.length with hlt | hge
      · have hy' : s.produced[j]? = some y := by rwa [List.getElem?_append_left hlt] at hy
        have hw := h.delivered.waits j y hj hy'
        have hne : j % N ≠ s.p := fun he => hfree (by rw [← he, hw])
        simp [Function.update_of_ne hne, hw]
      · obtain rfl : j = s.produced.length := by
          have := (List.getElem?_eq_some_iff.mp hy).1
          simp only [List.length_append, List.length_singleton] at this
          omega
        have hxy : x = y := by simpa using hy
        simp [h.p, hxy]
    · simp only [List.length_append, List.length_singleton]
      rw [h.p, Nat.mod_add_mod]
    · have hi := h.indexOk
      simp only [Client.indexOk] at hi ⊢
      cases hpc : s.pc <;> simp only [hpc, List.length_append, List.length_singleton] at hi ⊢
      · refine ⟨hi.1, fun he => absurd h.delivered.sentPrefix.length_le (by omega)⟩
      · exact ⟨hi.1, by omega⟩
      · exact hi
      · exact hi

theorem Inv.logger {N : ℕ} (hN : 0 < N) {s : State} (h : Inv N s) (hg : CaughtUp s .logger) :
    Inv N (profilerLogger N s) := by
  have hi := h.indexOk
  have hle := h.delivered.sentPrefix.length_le
  simp only [Client.indexOk] at hi
  unfold profilerLogger
  cases hpc : s.pc <;> simp only [hpc] at hi ⊢
  case poll =>
    split_ifs with hr
    · have hr' : (s.buffers s.currentIndex).tag = storeBufferTagReady := by
        simpa [isStoreBufferReady] using hr
      have hne : s.produced.length ≠ s.sent.length := fun he => hi.2 he hr'
      exact ⟨⟨h.delivered.sentPrefix, h.delivered.waits⟩, h.p, hi.1, by dsimp only; omega⟩
    · exact h
  case send =>
    obtain ⟨hidx, hlt⟩ := hi
    -- the buffer at the index holds the next unsent payload
    have hx : s.produced[s.sent.length]? = some s.produced[s.sent.length] :=
      List.getElem?_eq_getElem hlt
    have hbuf := h.delivered.waits _ _ le_rfl hx
    refine ⟨⟨?_, fun j y hj hy => ?_⟩, h.p, ?_⟩
    · simp only [sendPacket, hidx, hbuf]
      exact prefix_concat h.delivered.sentPrefix hx
    · exact h.delivered.waits j y (by simp [sendPacket] at hj; omega) hy
    · simp only [Client.indexOk, sendPacket, List.length_append, List.length_singleton, hidx]
      exact succ_mod _ _ hN
  case advance =>
    refine ⟨⟨h.delivered.sentPrefix, h.delivered.waits⟩, h.p, ?_⟩
    simp only [Client.indexOk, advanceIndex]
    split_ifs <;> omega
  case clear =>
    have he := hg rfl hpc
    refine ⟨⟨h.delivered.sentPrefix, fun j x hj hx => ?_⟩, h.p, hi, fun _ => ?_⟩
    · have := (List.getElem?_eq_some_iff.mp hx).1
      simp only [setStoreBufferNotReady] at this hj
      omega
    · simp [setStoreBufferNotReady, storeBufferTagNotReady, storeBufferTagReady]

/-- Every step keeps the invariant, a clear if it is caught up. -/
theorem Inv.step {N : ℕ} (hN : 0 < N) (s : State) (e : Event) (t : State) (h : Inv N s)
    (hg : CaughtUp s e) (hs : Client.step N s e = some t) : Inv N t := by
  cases e with
  | fill x => exact h.fill hs
  | logger => cases hs; exact h.logger hN hg

/-! ### A single buffer -/

/-- With one buffer nothing is unsent from the send to the clear: the tag of
the buffer just sent is still ready, so the producer cannot fill it. -/
structure InvOne (s : State) : Prop where
  inv : Inv 1 s
  bound : s.produced.length ≤ s.sent.length + 1
  done : s.pc = .advance ∨ s.pc = .clear →
    s.produced.length ≤ s.sent.length ∧ (s.buffers 0).tag = storeBufferTagReady

theorem InvOne.of_initial {s : State} (h : Initial s) : InvOne s where
  inv := .of_initial h
  bound := by simp [h.produced]
  done := by simp [h.pc]

theorem InvOne.caughtUp {s : State} (h : InvOne s) (e : Event) : CaughtUp s e :=
  fun _ hpc => (h.done (Or.inr hpc)).1

theorem InvOne.step (s : State) (e : Event) (t : State) (h : InvOne s)
    (hs : Client.step 1 s e = some t) : InvOne t := by
  have hinv := h.inv.step Nat.one_pos s e t (h.caughtUp e) hs
  have hp : s.p = 0 := by rw [h.inv.p, Nat.mod_one]
  have hi := h.inv.indexOk
  simp only [indexOk, Nat.mod_one] at hi
  cases e with
  | fill x =>
    simp only [Client.step, Client.fill] at hs
    split at hs
    · cases hs
    · rename_i hfree
      cases hs
      rw [hp] at hfree
      -- nothing is unsent: it would wait, ready, in the buffer that is free
      have hle : s.produced.length ≤ s.sent.length := by
        by_contra hlt
        have hx := List.getElem?_eq_getElem (Nat.lt_of_not_le hlt)
        have hw := h.inv.delivered.waits _ _ le_rfl hx
        rw [Nat.mod_one] at hw
        exact hfree (by rw [hw])
      refine ⟨hinv, by simpa using hle, fun hpc => absurd (h.done hpc).2 hfree⟩
  | logger =>
    cases hs
    have hb := h.bound
    unfold profilerLogger at hinv ⊢
    cases hpc : s.pc <;> simp only [hpc] at hi hinv ⊢
    case poll =>
      split_ifs with hr <;> simp only [hr] at hinv
      · exact ⟨hinv, hb, by simp⟩
      · exact h
    case send =>
      obtain ⟨hidx, hlt⟩ := hi
      have hw := h.inv.delivered.waits _ _ le_rfl (List.getElem?_eq_getElem hlt)
      rw [Nat.mod_one] at hw
      have hle : s.produced.length ≤ (s.sent ++ [(s.buffers s.currentIndex).payload]).length := by
        simpa using hb
      exact ⟨hinv, Nat.le_succ_of_le hle, fun _ => ⟨hle, by simp [sendPacket, hw]⟩⟩
    case advance =>
      have hd := h.done (Or.inl hpc)
      exact ⟨hinv, Nat.le_succ_of_le hd.1, fun _ => hd⟩
    case clear =>
      exact ⟨hinv, hb, by simp⟩

/-! ### When the ring delivers -/

/-- The law of the ring of `N` buffers: every state any schedule of fills
and logger steps reaches is delivered. -/
def RingLaw (N : ℕ) : Prop :=
  ∀ s t, Initial s → Reaches (step N) s t → Delivered N t

/-- A clear that leaves the ring delivered was caught up: otherwise it takes
the tag of the buffer the next unsent payload waits in. -/
theorem Inv.caughtUp {N : ℕ} {s : State} (h : Inv N s)
    (hd : Delivered N (profilerLogger N s)) : CaughtUp s .logger := by
  intro _ hpc
  by_contra hlt
  have hi := h.indexOk
  simp only [Client.indexOk, hpc] at hi
  simp only [profilerLogger, hpc] at hd
  have hw := hd.waits _ _ le_rfl (List.getElem?_eq_getElem (Nat.lt_of_not_le hlt))
  have htag := congrArg StoreBuffer.tag hw
  simp [setStoreBufferNotReady, hi, storeBufferTagNotReady, storeBufferTagReady] at htag

/-- A run keeps the ring delivered exactly if all its clears are caught up. -/
theorem visits_delivered_iff {N : ℕ} (hN : 0 < N) {s : State} (hs : Initial s) (es : List Event) :
    (∀ t, Visits (step N) s es t → Delivered N t) ↔
      ∀ t e, Takes (step N) s es t e → CaughtUp t e := by
  constructor
  · intro hd t e ht
    -- the invariant is kept up to `t`, as each step's target is delivered
    have hkeep : ∀ t e u, Inv N t → (∀ u, Client.step N t e = some u → Delivered N u) →
        Client.step N t e = some u → Inv N u := by
      intro t e u hi hg hu
      refine hi.step hN t e u ?_ hu
      cases e with
      | fill x => intro he; cases he
      | logger => exact hi.caughtUp (hg _ rfl)
    have hg : ∀ t e, Takes (step N) s es t e →
        ∀ u, Client.step N t e = some u → Delivered N u := fun t e ht u hu => hd u (ht.visits hu)
    have hinv : Inv N t := Visits.inv hkeep (.of_initial hs) hg ht.visits_from
    cases e with
    | fill x => intro he; cases he
    | logger => exact hinv.caughtUp (hg t _ ht _ rfl)
  · intro hg t ht
    exact (Visits.inv (I := Inv N) (Inv.step hN) (.of_initial hs) hg ht).delivered

/-- Some initial state: every tag not ready. -/
def start : State := ⟨fun _ => ⟨storeBufferTagNotReady, []⟩, 0, 0, .poll, [], []⟩

theorem start_initial : Initial start :=
  ⟨fun _ => by simp [start, storeBufferTagNotReady, storeBufferTagReady], rfl, rfl, rfl, rfl, rfl⟩

/-- The producer fills two buffers, then the logger goes once round its loop. -/
def twoAhead : List Event :=
  [.fill [0], .fill [1], .logger, .logger, .logger, .logger]

/-- With two buffers or more the clear after the first send takes the tag of
the second buffer, whose payload is not sent yet. -/
theorem twoAhead_run {N : ℕ} (hN : 1 < N) : ∃ t, twoAhead.foldlM (step N) start = some t ∧
    t.produced = [[0], [1]] ∧ t.sent = [[0]] ∧ (t.buffers 1).tag = storeBufferTagNotReady := by
  have h1 : 1 % N = 1 := Nat.mod_eq_of_lt hN
  have hle : ¬ N ≤ 1 := Nat.not_le.mpr hN
  simp [twoAhead, step, fill, start, profilerLogger, isStoreBufferReady, sendPacket, advanceIndex,
    setStoreBufferNotReady, h1, hle, storeBufferTagNotReady, storeBufferTagReady]

theorem not_ringLaw {N : ℕ} (hN : 1 < N) : ¬ RingLaw N := by
  intro h
  obtain ⟨t, ht, hp, hsent, htag⟩ := twoAhead_run hN
  have hd := h start t start_initial ⟨_, ht⟩
  have hw := hd.waits 1 [1] (by simp [hsent]) (by simp [hp])
  rw [Nat.mod_eq_of_lt hN] at hw
  rw [hw] at htag
  exact absurd htag (by decide)

/-- **When the ring delivers.** Every schedule keeps the ring delivered
exactly if there is one buffer; and for any number of buffers a schedule
keeps it delivered exactly if each of its clears finds nothing unsent. -/
theorem delivered_iff (N : ℕ) (hN : 0 < N) : (RingLaw N ↔ N = 1) ∧
    ∀ s, Initial s → ∀ es, (∀ t, Visits (step N) s es t → Delivered N t) ↔
      ∀ t e, Takes (step N) s es t e → CaughtUp t e := by
  refine ⟨⟨fun h => ?_, ?_⟩, fun s hs es => visits_delivered_iff hN hs es⟩
  · by_contra hne
    exact not_ringLaw (by omega) h
  · rintro rfl s t hs ht
    exact (ht.inv InvOne.step (.of_initial hs)).inv.delivered

theorem delivered_iff_two : (0 : ℕ) < 2 ∧ (RingLaw 2 ↔ 2 = 1) :=
  ⟨by decide, (delivered_iff 2 (by decide)).1⟩

/-- The law fails for two buffers, on the schedule `twoAhead`. -/
theorem ringLaw_two : ¬ RingLaw 2 ∧ Initial start ∧ ∃ t, twoAhead.foldlM (step 2) start = some t ∧
    t.produced = [[0], [1]] ∧ t.sent = [[0]] ∧ (t.buffers 1).tag = storeBufferTagNotReady :=
  ⟨not_ringLaw (by decide), start_initial, twoAhead_run (by decide)⟩

end Client
end DaatMcs
