/-
# From the handshake to the data

The server against a peer that sends the ready, waits for the run command,
and answers with the acknowledgement and a payload stream right behind it.
What a `recv` returns of the bytes under way is up to TCP and the clock: any
beginning of them that fits, or nothing on a timeout. A run of the server is
the list of these receipts, `serverRun` the buffer it dumps.

`recv_command` keeps one command of its chunk and drops the rest, and the
server does not look at what it kept for an acknowledgement. So the dump is
the payload exactly if that one receipt is the acknowledgement and no more
(`dump_iff`): payload bytes that come along are lost, and after a timeout
the acknowledgement is dumped as data.
-/
import DaatMcs.Logger.ProfilingTcp

namespace DaatMcs
namespace Boundary

open ProfilingTcp

/-- What a `recv` returns: nothing before its timeout, or the next `n` bytes. -/
inductive Receipt
  | timeout
  | chunk (n : ℕ)
  deriving DecidableEq, Repr

def Receipt.size : Receipt → ℕ
  | .timeout => 0
  | .chunk n => n

/-- A `recv` for up to `want` bytes: the bytes it returns and those still
under way, if the receipt is possible. -/
def deliver (want : ℕ) (pending : Bytes) : Receipt → Option (Bytes × Bytes)
  | .timeout => some ([], pending)
  | .chunk n =>
    if 0 < n ∧ n ≤ want ∧ n ≤ pending.length then some (pending.take n, pending.drop n) else none

/-- `BUFFER_SIZE - 1` of `recv_command`. -/
def commandSize : ℕ := 1023

/-- The server at its `send_command` sends; the peer answers with `reply`. -/
def reply (answer : Bytes) : ServerPc → Bytes → ServerPc × Bytes
  | .sendRun, pending => (.waitAck, pending ++ answer)
  | pc, pending => (pc, pending)

/-- The server's handshake on a list of receipts: what it returns, the bytes
under way then, and the receipts left. -/
def handshake (answer : Bytes) : ServerPc → Bytes → List Receipt →
    Option (Bool × Bytes × List Receipt)
  | .done ok, pending, receipts => some (ok, pending, receipts)
  | .crashed, _, _ => none
  | _, _, [] => none
  | pc, pending, r :: receipts =>
    match deliver commandSize pending r with
    | none => none
    | some (chunk, pending) =>
      let (pc, pending) := reply answer (pc.recv chunk) pending
      handshake answer pc pending receipts

/-- The receive loop of `main`: it asks for what is missing of the message,
and goes round again after a timeout. -/
def receiveLoop (messageSize : ℕ) : Bytes → Bytes → List Receipt → Option Bytes
  | buffer, _, [] => if buffer.length < messageSize then none else some buffer
  | buffer, pending, r :: receipts =>
    if buffer.length < messageSize then
      match deliver (messageSize - buffer.length) pending r with
      | none => none
      | some (chunk, pending) => receiveLoop messageSize (buffer ++ chunk) pending receipts
    else some buffer

/-- The buffer `main` dumps for the payload stream `P`: none if it does not
get so far on these receipts. -/
def serverRun (messageSize : ℕ) (P : Bytes) (receipts : List Receipt) : Option Bytes :=
  match handshake (ackCommand ++ P) .start readyCommand receipts with
  | some (true, pending, receipts) => receiveLoop messageSize [] pending receipts
  | _ => none

/-! ### The receive loop -/

theorem deliver_eq {want : ℕ} {pending chunk rest : Bytes} {r : Receipt}
    (h : deliver want pending r = some (chunk, rest)) :
    chunk = pending.take r.size ∧ rest = pending.drop r.size ∧ r.size ≤ want ∧
      r.size ≤ pending.length := by
  cases r with
  | timeout => cases h; simp [Receipt.size]
  | chunk n =>
    simp only [deliver] at h
    split at h
    · rename_i hn
      cases h
      exact ⟨rfl, rfl, hn.2⟩
    · cases h

/-- Whether a receipt is possible depends on how many bytes are under way only. -/
theorem deliver_congr {want : ℕ} {pending pending' : Bytes} (h : pending.length = pending'.length)
    {r : Receipt} {x : Bytes × Bytes} (hx : deliver want pending r = some x) :
    deliver want pending' r = some (pending'.take r.size, pending'.drop r.size) := by
  cases r with
  | timeout => simp [deliver, Receipt.size]
  | chunk n =>
    simp only [deliver] at hx ⊢
    split at hx
    · rename_i hn
      rw [if_pos (by omega)]
      rfl
    · cases hx

/-- The loop dumps the next bytes under way. -/
theorem receiveLoop_eq (ms : ℕ) : ∀ (receipts : List Receipt) (buffer pending out : Bytes),
    buffer.length ≤ ms → receiveLoop ms buffer pending receipts = some out →
    out = (buffer ++ pending).take ms ∧ ms ≤ (buffer ++ pending).length
  | [], buffer, pending, out, hle, h => by
    simp only [receiveLoop] at h
    split at h
    · cases h
    · cases h
      have hlen : buffer.length = ms := by omega
      exact ⟨by rw [← hlen, List.take_left'  rfl], by simp [hlen]⟩
  | r :: receipts, buffer, pending, out, hle, h => by
    simp only [receiveLoop] at h
    split at h
    · cases hd : deliver (ms - buffer.length) pending r with
      | none => rw [hd] at h; cases h
      | some x =>
        obtain ⟨chunk, rest⟩ := x
        rw [hd] at h
        obtain ⟨rfl, rfl, hw, -⟩ := deliver_eq hd
        have ih := receiveLoop_eq ms receipts _ _ out
          (by simp only [List.length_append, List.length_take]; omega) h
        rwa [List.append_assoc, List.take_append_drop] at ih
    · cases h
      have hlen : buffer.length = ms := by omega
      exact ⟨by rw [← hlen, List.take_left' rfl], by simp [hlen]⟩

/-- Whether the loop ends depends on the numbers of bytes only. -/
theorem receiveLoop_congr (ms : ℕ) : ∀ (receipts : List Receipt) (buffer buffer' pending pending' : Bytes),
    buffer.length = buffer'.length → pending.length = pending'.length →
    (receiveLoop ms buffer pending receipts).isSome →
    (receiveLoop ms buffer' pending' receipts).isSome
  | [], buffer, buffer', pending, pending', hb, hp, h => by
    simp only [receiveLoop, hb] at h ⊢
    split_ifs at h ⊢ <;> simp_all
  | r :: receipts, buffer, buffer', pending, pending', hb, hp, h => by
    simp only [receiveLoop, hb] at h ⊢
    split_ifs at h ⊢
    · cases hd : deliver (ms - buffer'.length) pending r with
      | none => rw [hd] at h; cases h
      | some x =>
        obtain ⟨chunk, rest⟩ := x
        rw [hd] at h
        rw [deliver_congr hp hd]
        obtain ⟨rfl, rfl, -⟩ := deliver_eq hd
        exact receiveLoop_congr ms receipts _ _ _ _ (by simp [hb, hp]) (by simp [hp]) h
    · rfl

/-! ### The handshake -/

/-- A server that gets less of the ready than all of it finds no command. -/
theorem recv_part : ∀ n < readyCommand.length,
    ServerPc.start.recv (readyCommand.take n) = .crashed := by decide +kernel

theorem recv_ready : ServerPc.start.recv readyCommand = .sendRun := by decide +kernel

/-- The whole ready is answered by the run command, and that by `answer`. -/
theorem handshake_ready (answer : Bytes) (receipts : List Receipt) :
    handshake answer .start readyCommand (.chunk readyCommand.length :: receipts) =
      handshake answer .waitAck answer receipts := by
  have hd : deliver commandSize readyCommand (.chunk readyCommand.length) =
      some (readyCommand, []) := by decide
  simp only [ServerPc.start, handshake, hd]
  rw [show ServerPc.waitReady 100 = .start from rfl, recv_ready]
  rfl

/-- Nothing short of the whole ready gets the server to the run command. -/
theorem handshake_part (answer : Bytes) (r : Receipt) (receipts : List Receipt)
    (hr : r ≠ .chunk readyCommand.length) :
    handshake answer .start readyCommand (r :: receipts) = none := by
  simp only [ServerPc.start, handshake]
  cases hd : deliver commandSize readyCommand r with
  | none => rfl
  | some x =>
    obtain ⟨chunk, rest⟩ := x
    obtain ⟨rfl, -, -, hle⟩ := deliver_eq hd
    have hne : r.size ≠ readyCommand.length := fun he => by
      cases r with
      | timeout => exact absurd he (by decide)
      | chunk n => exact hr (congrArg Receipt.chunk he)
    simp only
    rw [show ServerPc.waitReady 100 = .start from rfl, recv_part _ (by omega)]
    simp only [reply, handshake]

/-- Whatever the receipt for the acknowledgement is, the handshake is done. -/
theorem handshake_ack (answer pending : Bytes) (r : Receipt) (receipts : List Receipt) :
    handshake answer .waitAck pending (r :: receipts) =
      (deliver commandSize pending r).map fun x => (true, x.2, receipts) := by
  simp only [handshake]
  cases deliver commandSize pending r with
  | none => rfl
  | some x => simp only [ServerPc.recv, reply, handshake, Option.map_some]

/-- The server dumps a buffer exactly on these receipts: the whole ready,
some receipt `r`, and receipts that complete the loop on what `r` left. -/
theorem serverRun_eq_some {ms : ℕ} {P out : Bytes} {receipts : List Receipt}
    (h : serverRun ms P receipts = some out) : ∃ r left,
      receipts = .chunk readyCommand.length :: r :: left ∧
      (deliver commandSize (ackCommand ++ P) r).isSome ∧
      receiveLoop ms [] ((ackCommand ++ P).drop r.size) left = some out := by
  unfold serverRun at h
  cases receipts with
  | nil => cases h
  | cons r0 receipts =>
    by_cases h0 : r0 = .chunk readyCommand.length
    · subst h0
      rw [handshake_ready] at h
      cases receipts with
      | nil => cases h
      | cons r left =>
        rw [handshake_ack] at h
        cases hd : deliver commandSize (ackCommand ++ P) r with
        | none => rw [hd] at h; cases h
        | some x =>
          obtain ⟨chunk, rest⟩ := x
          rw [hd] at h
          obtain ⟨rfl, rfl, -⟩ := deliver_eq hd
          exact ⟨r, left, rfl, by simp [hd], h⟩
    · rw [handshake_part _ _ _ h0] at h
      cases h

theorem serverRun_of {ms : ℕ} {P : Bytes} {r : Receipt} {left : List Receipt}
    (hr : (deliver commandSize (ackCommand ++ P) r).isSome) :
    serverRun ms P (.chunk readyCommand.length :: r :: left) =
      receiveLoop ms [] ((ackCommand ++ P).drop r.size) left := by
  obtain ⟨⟨chunk, rest⟩, hd⟩ := Option.isSome_iff_exists.mp hr
  unfold serverRun
  rw [handshake_ready, handshake_ack, hd]
  obtain ⟨rfl, rfl, -⟩ := deliver_eq hd
  rfl

/-- The dump: the message that starts where the second receipt ended. -/
theorem serverRun_eq {ms : ℕ} {P out : Bytes} {receipts : List Receipt}
    (h : serverRun ms P receipts = some out) : ∃ r, receipts[1]? = some r ∧
      out = ((ackCommand ++ P).drop r.size).take ms ∧
      ms ≤ ((ackCommand ++ P).drop r.size).length := by
  obtain ⟨r, left, rfl, -, hl⟩ := serverRun_eq_some h
  exact ⟨r, rfl, receiveLoop_eq ms left _ _ out (Nat.zero_le _) hl⟩

/-- Other payloads of the same length are received on the same receipts. -/
theorem serverRun_congr {ms : ℕ} {P P' : Bytes} {receipts : List Receipt}
    (hlen : P.length = P'.length) (h : (serverRun ms P receipts).isSome) :
    (serverRun ms P' receipts).isSome := by
  obtain ⟨out, hout⟩ := Option.isSome_iff_exists.mp h
  obtain ⟨r, left, rfl, hr, hl⟩ := serverRun_eq_some hout
  have hlen' : (ackCommand ++ P).length = (ackCommand ++ P').length := by simp [hlen]
  obtain ⟨x, hx⟩ := Option.isSome_iff_exists.mp hr
  rw [serverRun_of (by rw [deliver_congr hlen' hx]; rfl)]
  have hdrop : ((ackCommand ++ P).drop r.size).length = ((ackCommand ++ P').drop r.size).length := by
    simp [hlen]
  exact receiveLoop_congr ms left [] [] _ _ rfl hdrop (by rw [hl]; rfl)

/-! ### When the dump is the payload -/

/-- The dump is the payload, whatever it is, on each of the receipts. -/
def DumpLaw (messageSize : ℕ) (receipts : List Receipt) : Prop :=
  ∀ P : Bytes, messageSize ≤ P.length → ∀ out, serverRun messageSize P receipts = some out →
    out = P.take messageSize

/-- The receipt after the run command is the acknowledgement and no more. -/
def AckAlone (receipts : List Receipt) : Prop := receipts[1]? = some (.chunk ackCommand.length)

/-- With fewer bytes than the acknowledgement taken, its rest is dumped: the
dump is not a payload of zeros. -/
theorem head_of_lt : ∀ k < ackCommand.length, (ackCommand.drop k).head? ≠ some 0 := by decide

/-- A payload whose first byte is none of the later ones. -/
def marked (n : ℕ) : Bytes := 0 :: List.replicate n 1

theorem not_dumpLaw {ms : ℕ} (hms : 0 < ms) {receipts : List Receipt} (hack : ¬ AckAlone receipts)
    {P out : Bytes} (hP : ms ≤ P.length) (h : serverRun ms P receipts = some out) :
    ¬ DumpLaw ms receipts := by
  intro hlaw
  have hlen : P.length = (marked (P.length - 1)).length := by simp [marked]; omega
  obtain ⟨out', hout'⟩ := Option.isSome_iff_exists.mp (serverRun_congr hlen (by rw [h]; rfl))
  have hpay := hlaw _ (by rw [← hlen]; exact hP) _ hout'
  obtain ⟨r, hr, hdump, hfit⟩ := serverRun_eq hout'
  rw [hdump] at hpay
  obtain ⟨m, rfl⟩ : ∃ m, ms = m + 1 := ⟨ms - 1, by omega⟩
  -- the first bytes of the dump and of the payload
  have hhead := congrArg List.head? hpay
  rw [List.head?_take, List.head?_take, if_neg (by omega), if_neg (by omega)] at hhead
  rcases Nat.lt_trichotomy r.size ackCommand.length with hlt | heq | hgt
  · rw [List.drop_append_of_le_length hlt.le, List.head?_append_of_ne_nil] at hhead
    · exact head_of_lt _ hlt hhead
    · simpa [List.drop_eq_nil_iff] using hlt
  · refine hack (hr.trans ?_)
    cases r with
    | timeout => exact absurd heq (by decide)
    | chunk n => exact congrArg (some ∘ Receipt.chunk) heq
  · obtain ⟨j, hj⟩ : ∃ j, r.size = ackCommand.length + (j + 1) :=
      ⟨r.size - ackCommand.length - 1, by omega⟩
    rw [hj, List.drop_append, Nat.add_sub_cancel_left, List.drop_of_length_le (by omega)] at hhead hfit
    have hpos : 0 < ((marked (P.length - 1)).drop (j + 1)).length := by
      rw [List.nil_append] at hfit; omega
    simp only [marked, List.nil_append, List.drop_succ_cons, List.drop_replicate, List.head?_cons,
      List.length_replicate] at hhead hpos
    rw [List.head?_replicate, if_neg (by omega)] at hhead
    exact absurd hhead (by decide)

/-- **When the dump is the payload.** On given receipts every payload that
is dumped at all is dumped rightly exactly if in each run that dumps one the
receipt after the run command is the acknowledgement and no more. -/
theorem dump_iff (messageSize : ℕ) (hms : 0 < messageSize) (receipts : List Receipt) :
    DumpLaw messageSize receipts ↔
      ∀ P : Bytes, messageSize ≤ P.length → (serverRun messageSize P receipts).isSome →
        AckAlone receipts := by
  constructor
  · intro hlaw P hP h
    obtain ⟨out, hout⟩ := Option.isSome_iff_exists.mp h
    by_contra hack
    exact not_dumpLaw hms hack hP hout hlaw
  · intro h P hP out hout
    have hack := h P hP (by rw [hout]; rfl)
    obtain ⟨r, hr, hdump, -⟩ := serverRun_eq hout
    obtain rfl : r = .chunk ackCommand.length := Option.some.inj (hr.symm.trans hack)
    rw [hdump]
    simp [Receipt.size]

/-- Two of the payload's bytes arrive with the acknowledgement. -/
theorem dump_iff_coalesced :
    DumpLaw 2 [.chunk 29, .chunk 29, .chunk 2] ↔
      ∀ P : Bytes, 2 ≤ P.length → (serverRun 2 P [.chunk 29, .chunk 29, .chunk 2]).isSome →
        AckAlone [.chunk 29, .chunk 29, .chunk 2] :=
  dump_iff 2 (by decide) _

/-- Of the payload 1, 2, 3, 4 the two bytes that came with the
acknowledgement are missing from the dump; and when the acknowledgement is
late, it is dumped. -/
theorem dump_wrong :
    serverRun 2 [1, 2, 3, 4] [.chunk 29, .chunk 29, .chunk 2] = some [3, 4] ∧
    serverRun 2 [1, 2, 3, 4] [.chunk 29, .timeout, .chunk 2] = some (bytes "[T") ∧
    ¬ DumpLaw 2 [.chunk 29, .chunk 29, .chunk 2] ∧ ¬ DumpLaw 2 [.chunk 29, .timeout, .chunk 2] := by
  have h1 : serverRun 2 [1, 2, 3, 4] [.chunk 29, .chunk 29, .chunk 2] = some [3, 4] := by
    decide +kernel
  have h2 : serverRun 2 [1, 2, 3, 4] [.chunk 29, .timeout, .chunk 2] = some (bytes "[T") := by
    decide +kernel
  exact ⟨h1, h2, fun h => absurd (h _ (by decide) _ h1) (by decide),
    fun h => absurd (h _ (by decide) _ h2) (by decide)⟩

end Boundary
end DaatMcs
