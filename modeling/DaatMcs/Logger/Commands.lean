/-
# What the parsers of `profiling_tcp.c` take for a command

A message is `[TCP_CMD]`, a word, arguments and a terminator, set apart by
blanks. The parsers have no way to say that a word is none of theirs: a part
of a word is taken for it, and any other word for the last of the table. So
they are right about a message exactly if its word is one of their commands
(`recognized_iff`).

On an arbitrary chunk `recv_command` keeps the first command
(`recvCommand_eq_iff`). The parsers are defined on it if it has a second word
and no more arguments than `args` has room for (`received_iff`). The client
parser stores the terminator as well.

Key definitions: `Message`, `FirstCommand`, `RoomFor`.
Key theorems: `recognized_iff`, `recvCommand_eq_iff`, `received_iff`.
-/
import DaatMcs.Logger.ProfilingTcp
import Mathlib.Data.List.TakeWhile

namespace DaatMcs
namespace ProfilingTcp

open Literal

def tcpCmd : Bytes := bytes "[TCP_CMD]"

/-- The two ends of a command, `[PC]` and `[PS]`. -/
def terminators : List Bytes := [bytes "[PC]", bytes "[PS]"]

/-! ### Words -/

theorem strtok_nil : strtok [] = [] := rfl

/-- A blank ends the first word. -/
theorem strtok_append {a : Bytes} (hne : a ≠ []) (ha : 32 ∉ a) (s : Bytes) :
    strtok (a ++ 32 :: s) = a :: strtok s := by
  rw [strtok, strtok, List.splitOn_append_cons_self_of_not_mem ha]
  simp [hne]

/-- What a parser makes of a text with a second word. -/
theorem parseRecvCommand_of_strtok (table : List Bytes) (stores : Bytes → Bool) {buffer a word : Bytes}
    {rest : List Bytes} (h : strtok buffer = a :: word :: rest) :
    ∃ args, parseRecvCommand table stores buffer =
      some (table.dropLast.findIdx fun c => (find word c).isSome, args) := by
  unfold parseRecvCommand
  rw [h]
  exact ⟨_, rfl⟩

/-! ### The first command of a chunk -/

/-- `cmd` starts where `[TCP_CMD]` occurs first in the text, and ends with
the first terminator from there on. -/
def FirstCommand (text cmd : Bytes) : Prop :=
  ∃ pre post, text = pre ++ (cmd ++ post) ∧ tcpCmd <+: cmd ∧ ¬ tcpCmd <:+: (pre ++ tcpCmd).dropLast ∧
    (∃ t ∈ terminators, t <:+ cmd) ∧ ∀ t ∈ terminators, ¬ t <:+: cmd.dropLast

/-- `recv_command` from the start of the command on. -/
def cutAtEnd (start : Bytes) : Bytes :=
  match find (bytes "[PC]") start, find (bytes "[PS]") start with
  | some pc, some ps => start.take ((if pc < ps then pc else ps) + 4)
  | some pc, none => start.take (pc + 4)
  | none, some ps => start.take (ps + 4)
  | none, none => []

theorem recvCommand_eq (received : Bytes) : recvCommand received =
    match find tcpCmd (cString received) with
    | none => []
    | some i => cutAtEnd ((cString received).drop i) := rfl

theorem length_of_mem_terminators {t : Bytes} (ht : t ∈ terminators) : t.length = 4 := by
  have h : ∀ t ∈ terminators, t.length = 4 := by decide
  exact h t ht

theorem ne_nil_of_mem_terminators {t : Bytes} (ht : t ∈ terminators) : t ≠ [] := by
  rintro rfl
  exact absurd (length_of_mem_terminators ht) (by decide)

/-- A text cut behind the terminator `t` found at `k`, when the other is not
found before. -/
theorem ends_of_find {start t : Bytes} {k : ℕ} (ht : t ∈ terminators) (hk : find t start = some k)
    (hmin : ∀ t' ∈ terminators, ∀ k' ∈ find t' start, k ≤ k') :
    ∃ post, start = start.take (k + 4) ++ post ∧ (∃ t ∈ terminators, t <:+ start.take (k + 4)) ∧
      ∀ t ∈ terminators, ¬ t <:+: (start.take (k + 4)).dropLast := by
  obtain ⟨pre, post, rfl, rfl, -⟩ := (find_eq_some (ne_nil_of_mem_terminators ht)).mp hk
  have hlen : pre.length + 4 = (pre ++ t).length := by
    rw [List.length_append, length_of_mem_terminators ht]
  rw [hlen, ← List.append_assoc, List.take_left]
  refine ⟨post, rfl, ⟨t, ht, List.suffix_append pre t⟩, fun t' ht' hin => ?_⟩
  have hsplit : pre ++ t ++ post = (pre ++ t).dropLast ++ (t.drop 3 ++ post) := by
    have hlast : (pre ++ t).dropLast ++ t.drop 3 = pre ++ t := by
      rw [List.dropLast_append_of_ne_nil (ne_nil_of_mem_terminators ht), List.append_assoc,
        List.dropLast_eq_take, length_of_mem_terminators ht, List.take_append_drop]
    rw [← List.append_assoc, hlast]
  obtain ⟨k', hk', hle⟩ := find_append_of_infix (ne_nil_of_mem_terminators ht') hin (t.drop 3 ++ post)
  rw [← hsplit, List.append_assoc] at hk'
  have := hmin t' ht' k' hk'
  rw [List.length_dropLast, ← hlen, length_of_mem_terminators ht'] at hle
  omega

theorem cutAtEnd_ends (start : Bytes) : cutAtEnd start = [] ∨
    ∃ post, start = cutAtEnd start ++ post ∧ (∃ t ∈ terminators, t <:+ cutAtEnd start) ∧
      ∀ t ∈ terminators, ¬ t <:+: (cutAtEnd start).dropLast := by
  have hmem : ∀ {P : Bytes → Prop}, P (bytes "[PC]") → P (bytes "[PS]") → ∀ t ∈ terminators, P t := by
    intro P hpc hps t ht
    rcases List.mem_pair.mp ht with rfl | rfl
    · exact hpc
    · exact hps
  unfold cutAtEnd
  cases hpc : find (bytes "[PC]") start with
  | none =>
    cases hps : find (bytes "[PS]") start with
    | none => exact .inl rfl
    | some ps =>
      refine .inr (ends_of_find (by simp [terminators]) hps (hmem ?_ ?_))
      · simp [hpc]
      · simp [hps]
  | some pc =>
    cases hps : find (bytes "[PS]") start with
    | none =>
      refine .inr (ends_of_find (by simp [terminators]) hpc (hmem ?_ ?_))
      · simp [hpc]
      · simp [hps]
    | some ps =>
      dsimp only
      split
      · next hlt =>
        refine .inr (ends_of_find (by simp [terminators]) hpc (hmem ?_ ?_))
        · simp [hpc]
        · simp [hps, hlt.le]
      · next hle =>
        refine .inr (ends_of_find (by simp [terminators]) hps (hmem ?_ ?_))
        · simp [hpc, Nat.le_of_not_lt hle]
        · simp [hps]

/-- Cut behind `cmd`, if `cmd` ends with a terminator and has no other. -/
theorem cutAtEnd_append {cmd : Bytes} (post : Bytes) (hend : ∃ t ∈ terminators, t <:+ cmd)
    (hno : ∀ t ∈ terminators, ¬ t <:+: cmd.dropLast) : cutAtEnd (cmd ++ post) = cmd := by
  obtain ⟨t, ht, b, rfl⟩ := hend
  have hfound : find t (b ++ t ++ post) = some b.length :=
    (find_eq_some (ne_nil_of_mem_terminators ht)).mpr ⟨b, post, List.append_assoc b t post, rfl, hno t ht⟩
  have hlater : ∀ t' ∈ terminators, ∀ k ∈ find t' (b ++ t ++ post), b.length ≤ k := by
    intro t' ht' k hk
    by_contra hlt
    refine hno t' ht' ?_
    obtain ⟨pre, rest, heq, rfl, -⟩ := (find_eq_some (ne_nil_of_mem_terminators ht')).mp hk
    have hpre : pre ++ t' <+: b ++ t ++ post := ⟨rest, by rw [heq, List.append_assoc]⟩
    have hdrop : (b ++ t).dropLast <+: b ++ t ++ post :=
      (List.dropLast_prefix _).trans (List.prefix_append _ post)
    refine (List.suffix_append pre t').isInfix.trans
      (List.prefix_of_prefix_length_le hpre hdrop ?_).isInfix
    rw [List.length_dropLast, List.length_append, List.length_append, length_of_mem_terminators ht,
      length_of_mem_terminators ht']
    omega
  have htake : ∀ k, k = b.length → (b ++ t ++ post).take (k + 4) = b ++ t := by
    rintro k rfl
    rw [← length_of_mem_terminators ht, ← List.length_append, List.take_left]
  unfold cutAtEnd
  rcases List.mem_pair.mp ht with rfl | rfl
  · rw [hfound]
    cases hps : find (bytes "[PS]") (b ++ bytes "[PC]" ++ post) with
    | none => exact htake _ rfl
    | some ps =>
      have hle := hlater _ (by simp [terminators]) ps hps
      dsimp only
      exact htake _ (by split <;> omega)
  · rw [hfound]
    cases hpc : find (bytes "[PC]") (b ++ bytes "[PS]" ++ post) with
    | none => exact htake _ rfl
    | some pc =>
      have hle := hlater _ (by simp [terminators]) pc hpc
      dsimp only
      exact htake _ (by split <;> omega)

theorem find_tcpCmd_iff {text : Bytes} {i : ℕ} : find tcpCmd text = some i ↔ ∃ pre post,
    text = pre ++ (tcpCmd ++ post) ∧ pre.length = i ∧ ¬ tcpCmd <:+: (pre ++ tcpCmd).dropLast :=
  find_eq_some (by decide)

theorem recvCommand_firstCommand (received : Bytes) :
    recvCommand received = [] ∨ FirstCommand (cString received) (recvCommand received) := by
  rw [recvCommand_eq]
  cases hi : find tcpCmd (cString received) with
  | none => exact .inl rfl
  | some i =>
    obtain ⟨pre, tl, heq, rfl, hno⟩ := find_tcpCmd_iff.mp hi
    rw [heq]
    simp only [List.drop_left]
    rcases cutAtEnd_ends (tcpCmd ++ tl) with h | ⟨post, hpost, hend, hfree⟩
    · exact .inl h
    · refine .inr ⟨pre, post, by rw [← hpost], ?_, hno, hend, hfree⟩
      -- a command that ended within the tag would have a terminator in it
      have hcut : cutAtEnd (tcpCmd ++ tl) <+: tcpCmd ++ tl := ⟨post, hpost.symm⟩
      rcases List.prefix_or_prefix_of_prefix (List.prefix_append tcpCmd tl) hcut with h | h
      · exact h
      · obtain ⟨t, ht, hsuf⟩ := hend
        have hin : t <:+: tcpCmd := hsuf.isInfix.trans h.isInfix
        have hnone : ∀ t ∈ terminators, ¬ t <:+: tcpCmd := by decide
        exact absurd hin (hnone t ht)

theorem recvCommand_of_firstCommand {received cmd : Bytes} (h : FirstCommand (cString received) cmd) :
    recvCommand received = cmd := by
  obtain ⟨pre, post, heq, ⟨r, rfl⟩, hno, hend, hfree⟩ := h
  have hi : find tcpCmd (cString received) = some pre.length :=
    find_tcpCmd_iff.mpr ⟨pre, r ++ post, by rw [heq, List.append_assoc], rfl, hno⟩
  rw [recvCommand_eq, hi, heq]
  simp only [List.drop_left]
  exact cutAtEnd_append post hend hfree

theorem FirstCommand.ne_nil {text cmd : Bytes} (h : FirstCommand text cmd) : cmd ≠ [] := by
  rintro rfl
  obtain ⟨pre, post, -, htag, -⟩ := h
  exact absurd htag (by decide)

/-- **What `recv_command` keeps.** The first command of the chunk. -/
theorem recvCommand_eq_iff {received cmd : Bytes} (hne : cmd ≠ []) :
    recvCommand received = cmd ↔ FirstCommand (cString received) cmd := by
  refine ⟨?_, recvCommand_of_firstCommand⟩
  rintro rfl
  exact (recvCommand_firstCommand received).resolve_left hne

/-! ### Messages -/

/-- What stands between the blanks of a message. -/
structure Token where
  bytes : Bytes
  ne_nil : bytes ≠ []
  noBlank : 32 ∉ bytes
  noNul : 0 ∉ bytes

inductive Terminator
  | pc | ps
  deriving DecidableEq, Repr

def Terminator.bytes : Terminator → Bytes
  | .pc => ProfilingTcp.bytes "[PC]"
  | .ps => ProfilingTcp.bytes "[PS]"

structure Message where
  word : Token
  args : List Token
  terminator : Terminator

/-- The arguments and the terminator. -/
def Message.tail (m : Message) : Bytes := (m.args.flatMap fun a => a.bytes ++ [32]) ++ m.terminator.bytes

def Message.text (m : Message) : Bytes := tcpCmd ++ 32 :: (m.word.bytes ++ 32 :: m.tail)

/-- The word of a client command, as `client_commands` spells it. -/
def ClientCommand.word : ClientCommand → Bytes
  | .profilerReady => bytes "profiler_ready"
  | .profilerStart => bytes "profiler_start"
  | .profilerStop => bytes "profiler_stop"
  | .profilerAck => bytes "profiler_ack"

def ServerCommand.word : ServerCommand → Bytes
  | .profilerSetEvents => bytes "profiler_set_events"
  | .profilerSetSamplingPeriod => bytes "profiler_set_sampling_period"
  | .profilerRun => bytes "profiler_run"

/-- The client's words only are taken for its commands, by the parser and by
the handshake of the server, which waits for the ready. -/
def ClientWordsOnly (m : Message) : Prop :=
  (∀ c args, parseRecvClientCommand m.text = some (c, args) → m.word.bytes = c.word) ∧
    ∀ retry, (ServerPc.waitReady retry).recv m.text = .sendRun →
      m.word.bytes = ClientCommand.profilerReady.word

/-- The server's words only are taken for its commands, by the parser and by
the handshake of the client, which waits for the commands in turn. -/
def ServerWordsOnly (m : Message) : Prop :=
  (∀ c args, parseRecvServerCommand m.text = some (c, args) → m.word.bytes = c.word) ∧
    ∀ expected attempt, (ClientPc.wait expected attempt).recv m.text = .sendAck expected →
      m.word.bytes = expected.word

theorem strtok_text (m : Message) : strtok m.text = tcpCmd :: m.word.bytes :: strtok m.tail := by
  rw [Message.text, strtok_append (by decide) (by decide), strtok_append m.word.ne_nil m.word.noBlank]

theorem notMem_tail (m : Message) : 0 ∉ m.tail := by
  rw [Message.tail, List.mem_append, List.mem_flatMap]
  rintro (⟨a, -, h⟩ | h)
  · rcases List.mem_append.mp h with h | h
    · exact a.noNul h
    · exact absurd h (by decide)
  · cases hm : m.terminator <;> rw [hm] at h <;> exact absurd h (by decide)

/-- A message is seen whole. -/
theorem cString_text (m : Message) : cString m.text = m.text := by
  refine List.takeWhile_eq_self_iff.mpr fun x hx => decide_eq_true ?_
  rintro rfl
  rw [Message.text, List.mem_append, List.mem_cons, List.mem_append, List.mem_cons] at hx
  rcases hx with hx | hx | hx | hx | hx
  · exact absurd hx (by decide)
  · exact absurd hx (by decide)
  · exact m.word.noNul hx
  · exact absurd hx (by decide)
  · exact notMem_tail m hx

/-- The first command of a message starts with its word, if the word has no
terminator in it. -/
theorem strtok_firstCommand {m : Message} {cmd : Bytes} (h : FirstCommand m.text cmd)
    (hword : ∀ t ∈ terminators, ¬ t <:+: tcpCmd ++ 32 :: (m.word.bytes ++ [32])) :
    ∃ rest, strtok cmd = tcpCmd :: m.word.bytes :: rest := by
  obtain ⟨pre, post, heq, htag, hno, ⟨t, ht, hsuf⟩, -⟩ := h
  -- the message starts with the tag, so its first command is at its front
  have hpre : pre = [] := by
    by_contra hne
    have hfront : tcpCmd <+: m.text := List.prefix_append tcpCmd (32 :: (m.word.bytes ++ 32 :: m.tail))
    have hupto : (pre ++ tcpCmd).dropLast <+: m.text := by
      obtain ⟨r, rfl⟩ := htag
      rw [heq]
      refine (List.dropLast_prefix _).trans ?_
      rw [List.append_assoc, ← List.append_assoc pre]
      exact List.prefix_append _ _
    have hlen : tcpCmd.length ≤ (pre ++ tcpCmd).dropLast.length := by
      have hpos := List.length_pos_iff.mpr hne
      rw [List.length_dropLast, List.length_append]
      omega
    exact hno (List.prefix_of_prefix_length_le hfront hupto hlen).isInfix
  rw [hpre, List.nil_append] at heq
  have hfront : tcpCmd ++ 32 :: (m.word.bytes ++ [32]) <+: m.text := ⟨m.tail, by simp [Message.text]⟩
  have hcmd : cmd <+: m.text := ⟨post, heq.symm⟩
  rcases List.prefix_or_prefix_of_prefix hfront hcmd with ⟨r, rfl⟩ | h
  · refine ⟨strtok r, ?_⟩
    have hsplit : tcpCmd ++ 32 :: (m.word.bytes ++ [32]) ++ r = tcpCmd ++ 32 :: (m.word.bytes ++ 32 :: r) := by
      simp
    rw [hsplit, strtok_append (by decide) (by decide), strtok_append m.word.ne_nil m.word.noBlank]
  · exact absurd (hsuf.isInfix.trans h.isInfix) (hword t ht)

/-! ### The recognized words -/

/-- The command a parser takes a word for. -/
def ClientCommand.taken (word : Bytes) : ClientCommand :=
  .ofIndex (clientCommands.dropLast.findIdx fun c => (find word c).isSome)

def ServerCommand.taken (word : Bytes) : ServerCommand :=
  .ofIndex (serverCommands.dropLast.findIdx fun c => (find word c).isSome)

theorem parseRecvClientCommand_of_strtok {buffer a word : Bytes} {rest : List Bytes}
    (h : strtok buffer = a :: word :: rest) :
    ∃ args, parseRecvClientCommand buffer = some (ClientCommand.taken word, args) := by
  obtain ⟨args, hargs⟩ := parseRecvCommand_of_strtok clientCommands (fun _ => true) h
  exact ⟨args, by rw [parseRecvClientCommand, hargs]; rfl⟩

theorem parseRecvServerCommand_of_strtok {buffer a word : Bytes} {rest : List Bytes}
    (h : strtok buffer = a :: word :: rest) :
    ∃ args, parseRecvServerCommand buffer = some (ServerCommand.taken word, args) := by
  obtain ⟨args, hargs⟩ := parseRecvCommand_of_strtok serverCommands (fun token => token.head?.any isDigit) h
  exact ⟨args, by rw [parseRecvServerCommand, hargs]; rfl⟩

theorem ClientCommand.taken_word (c : ClientCommand) : ClientCommand.taken c.word = c := by
  cases c <;> decide

theorem ServerCommand.taken_word (c : ServerCommand) : ServerCommand.taken c.word = c := by
  cases c <;> decide

theorem ClientCommand.word_noTerminator (c : ClientCommand) :
    ∀ t ∈ terminators, ¬ t <:+: tcpCmd ++ 32 :: (c.word ++ [32]) := by
  cases c <;> decide

/-- The server goes on to the run command only where it has parsed a ready. -/
theorem waitReady_recv_sendRun {retry : ℕ} {chunk : Bytes}
    (h : (ServerPc.waitReady retry).recv chunk = .sendRun) :
    ∃ args, parseRecvClientCommand (recvCommand chunk) = some (.profilerReady, args) := by
  simp only [ServerPc.recv] at h
  split at h
  · cases h
  · next args heq => exact ⟨args, heq⟩
  · split at h <;> cases h

/-- The client goes on to the acknowledgement only where it has parsed what
it waits for. -/
theorem wait_recv_sendAck {expected : ServerCommand} {attempt : ℕ} {chunk : Bytes}
    (h : (ClientPc.wait expected attempt).recv chunk = .sendAck expected) :
    ∃ args, parseRecvServerCommand (cString chunk) = some (expected, args) := by
  simp only [ClientPc.recv] at h
  split at h
  · cases h
  · next c args heq =>
    split at h
    · next hc => exact ⟨args, by rw [heq, hc]⟩
    · cases h

theorem clientWordsOnly_of_word {m : Message} {c : ClientCommand} (hc : m.word.bytes = c.word) :
    ClientWordsOnly m := by
  refine ⟨fun c' args h => ?_, fun retry h => ?_⟩
  · obtain ⟨args', hparse⟩ := parseRecvClientCommand_of_strtok (strtok_text m)
    rw [hparse, hc, c.taken_word] at h
    cases h
    exact hc
  · obtain ⟨args, hready⟩ := waitReady_recv_sendRun h
    rcases recvCommand_firstCommand m.text with hnil | hfirst
    · rw [hnil] at hready
      cases hready
    · rw [cString_text] at hfirst
      obtain ⟨rest, hrest⟩ := strtok_firstCommand hfirst (hc ▸ c.word_noTerminator)
      obtain ⟨args', hparse⟩ := parseRecvClientCommand_of_strtok hrest
      rw [hparse, hc, c.taken_word] at hready
      cases hready
      exact hc

theorem serverWordsOnly_of_word {m : Message} {c : ServerCommand} (hc : m.word.bytes = c.word) :
    ServerWordsOnly m := by
  obtain ⟨args', hparse⟩ := parseRecvServerCommand_of_strtok (strtok_text m)
  rw [hc, c.taken_word] at hparse
  refine ⟨fun c' args h => ?_, fun expected attempt h => ?_⟩
  · rw [hparse] at h
    cases h
    exact hc
  · obtain ⟨args, h⟩ := wait_recv_sendAck h
    rw [cString_text, hparse] at h
    cases h
    exact hc

/-- **Main result.** The parsers, and the handshakes on them, are right about
a message exactly if its word is one of the parser's own commands. -/
theorem recognized_iff (m : Message) :
    (ClientWordsOnly m ↔ ∃ c : ClientCommand, m.word.bytes = c.word) ∧
      (ServerWordsOnly m ↔ ∃ c : ServerCommand, m.word.bytes = c.word) := by
  refine ⟨⟨fun h => ?_, fun ⟨_, hc⟩ => clientWordsOnly_of_word hc⟩,
    ⟨fun h => ?_, fun ⟨_, hc⟩ => serverWordsOnly_of_word hc⟩⟩
  · obtain ⟨args, hparse⟩ := parseRecvClientCommand_of_strtok (strtok_text m)
    exact ⟨_, h.1 _ _ hparse⟩
  · obtain ⟨args, hparse⟩ := parseRecvServerCommand_of_strtok (strtok_text m)
    exact ⟨_, h.1 _ _ hparse⟩

/-- `[TCP_CMD] r [PC]`. -/
def partialReady : Message := ⟨⟨bytes "r", by decide, by decide, by decide⟩, [], .pc⟩

/-- `[TCP_CMD] hello [PS]`. -/
def unknownWord : Message := ⟨⟨bytes "hello", by decide, by decide, by decide⟩, [], .ps⟩

/-- A partial word is taken for the ready by the server's handshake, an
unknown one for the run command by the client's. -/
theorem partial_word_taken : ¬ ClientWordsOnly partialReady ∧ ¬ ServerWordsOnly unknownWord ∧
    (ServerPc.waitReady 100).recv partialReady.text = .sendRun ∧
    (ClientPc.wait .profilerRun 1).recv unknownWord.text = .sendAck .profilerRun := by
  have hready : (ServerPc.waitReady 100).recv partialReady.text = .sendRun := by decide
  have hrun : (ClientPc.wait .profilerRun 1).recv unknownWord.text = .sendAck .profilerRun := by decide
  exact ⟨fun h => absurd (h.2 100 hready) (by decide), fun h => absurd (h.2 .profilerRun 1 hrun) (by decide),
    hready, hrun⟩

/-! ### Whether receiving and parsing is defined -/

/-- The length of the callers' `args`. -/
def numArgs : ℕ := 10

/-- `strstr` has got a token, and the stores are within `args`. -/
def Defined {κ : Type} (parsed : Option (κ × List ℤ)) : Prop :=
  ∃ r, parsed = some r ∧ r.2.length ≤ numArgs

/-- A text a parser is defined on: it has a second word, and if that is a
part of one of the commands searched, `args` has room for the words behind
it that are stored. -/
def RoomFor (table : List Bytes) (stores : Bytes → Bool) (text : Bytes) : Prop :=
  ∃ first word rest, strtok text = first :: word :: rest ∧
    ((∃ c ∈ table.dropLast, word <:+: c) → (rest.filter stores).length ≤ numArgs)

theorem parseRecvCommand_defined_iff (table : List Bytes) (stores : Bytes → Bool) (text : Bytes) :
    Defined (parseRecvCommand table stores text) ↔ RoomFor table stores text := by
  unfold parseRecvCommand
  split
  · next a word rest heq =>
    have hhit : (table.dropLast.findIdx fun c => (find word c).isSome) < table.length - 1 ↔
        ∃ c ∈ table.dropLast, word <:+: c := by
      rw [← List.length_dropLast, List.findIdx_lt_length]
      simp only [find_isSome]
    constructor
    · rintro ⟨r, hr, hlen⟩
      cases hr
      refine ⟨a, word, rest, heq, fun hc => ?_⟩
      dsimp only at hlen
      rwa [if_pos (hhit.mpr hc), List.length_map] at hlen
    · rintro ⟨a', word', rest', heq', hroom⟩
      rw [heq] at heq'
      cases heq'
      refine ⟨_, rfl, ?_⟩
      dsimp only
      split
      · next hc =>
        rw [List.length_map]
        exact hroom (hhit.mp hc)
      · exact Nat.zero_le _
  · next hno =>
    constructor
    · rintro ⟨r, hr, -⟩
      cases hr
    · rintro ⟨a, word, rest, heq, -⟩
      exact absurd heq (hno a word rest)

theorem defined_map_iff {κ κ' : Type} {f : κ → κ'} {parsed : Option (κ × List ℤ)} :
    Defined (parsed.map fun r => (f r.1, r.2)) ↔ Defined parsed := by
  cases parsed with
  | none => simp [Defined]
  | some r => simp [Defined]

/-- **Main result.** The server's `recv_command` and client parser are defined
on a chunk exactly if the chunk has a first command and that has a second word
and room for what is stored; the client's receive and server parser, exactly
if the chunk up to its first NUL has. -/
theorem received_iff (chunk : Bytes) :
    (Defined (parseRecvClientCommand (recvCommand chunk)) ↔
      ∃ cmd, FirstCommand (cString chunk) cmd ∧ RoomFor clientCommands (fun _ => true) cmd) ∧
    (Defined (parseRecvServerCommand (cString chunk)) ↔
      RoomFor serverCommands (fun token => token.head?.any isDigit) (cString chunk)) := by
  refine ⟨?_, defined_map_iff.trans (parseRecvCommand_defined_iff _ _ _)⟩
  rw [parseRecvClientCommand, defined_map_iff, parseRecvCommand_defined_iff]
  constructor
  · intro h
    refine ⟨recvCommand chunk, (recvCommand_firstCommand chunk).resolve_left fun hnil => ?_, h⟩
    rw [hnil] at h
    obtain ⟨a, word, rest, heq, -⟩ := h
    rw [strtok_nil] at heq
    cases heq
  · rintro ⟨cmd, hfirst, hroom⟩
    rwa [recvCommand_of_firstCommand hfirst]

/-- A timeout hands `strstr` no token; ten arguments of a start command and
its terminator are stored into `args`, and so are eleven of a set-events. -/
theorem received_undefined :
    ¬ Defined (parseRecvClientCommand (recvCommand [])) ∧
    ¬ Defined (parseRecvClientCommand
      (recvCommand (bytes "[TCP_CMD] profiler_start 0 1 2 3 4 5 6 7 8 9 [PC]"))) ∧
    ¬ Defined (parseRecvServerCommand (cString (bytes "hello"))) ∧
    ¬ Defined (parseRecvServerCommand
      (cString (bytes "[TCP_CMD] profiler_set_events 0 1 2 3 4 5 6 7 8 9 10 [PS]"))) := by
  have hnone : ∀ {κ : Type} {parsed : Option (κ × List ℤ)}, parsed = none → ¬ Defined parsed := by
    rintro κ parsed rfl ⟨r, hr, -⟩
    cases hr
  have hmany : ∀ {κ : Type} {parsed : Option (κ × List ℤ)},
      (parsed.any fun r => decide (numArgs < r.2.length)) → ¬ Defined parsed := by
    rintro κ parsed h ⟨r, rfl, hle⟩
    exact absurd (of_decide_eq_true h) (Nat.not_lt.mpr hle)
  exact ⟨hnone rfl, hmany (by decide +kernel), hnone rfl, hmany (by decide +kernel)⟩

end ProfilingTcp
end DaatMcs
