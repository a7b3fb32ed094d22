/-
# The commands of `profiling_tcp.c`

Client and server speak in commands `[TCP_CMD] word ... [PC]` and
`[TCP_CMD] word ... [PS]`. `recv_command` cuts one command out of a received
chunk, the two parsers name it, and the two handshakes run on what they
name. Each handshake is a machine here (`ServerPc`, `ClientPc`): between two
calls of `recv` or `send` it runs on its own, so the chunk a `recv` returns
decides its next position.

The parsers search their word in a table but for its last entry, whose
index is what is left when the search fails. `strstr` on no word at all is
undefined: there the parsers return `none` and a handshake `crashed`.
-/
import DaatMcs.Lib.Literal
import Mathlib.Data.List.Basic

namespace DaatMcs
namespace ProfilingTcp

open Literal

abbrev Bytes := List UInt8

/-- The bytes of an ASCII literal. -/
def bytes (s : String) : Bytes := s.toList.map fun c => UInt8.ofNat c.toNat

/-- What the string functions of C see of a buffer: up to its first NUL. -/
def cString (b : Bytes) : Bytes := b.takeWhile (· ≠ 0)

/-- The tokens successive calls of `strtok(.., " ")` return. -/
def strtok (s : Bytes) : List Bytes := (s.splitOn 32).filter (· ≠ [])

def isDigit (c : UInt8) : Bool := 48 ≤ c ∧ c ≤ 57

def isSpace (c : UInt8) : Bool := c = 32 ∨ 9 ≤ c ∧ c ≤ 13

/-- `atoi`: blanks, a sign, then the digits up to the first other byte. -/
def atoi (s : Bytes) : ℤ :=
  let num (t : Bytes) : ℤ :=
    (t.takeWhile isDigit).foldl (fun n c => 10 * n + (c.toNat - 48 : ℕ)) 0
  match s.dropWhile isSpace with
  | 45 :: t => -num t
  | 43 :: t => num t
  | t => num t

inductive ClientCommand
  | profilerReady | profilerStart | profilerStop | profilerAck
  deriving DecidableEq, Repr

inductive ServerCommand
  | profilerSetEvents | profilerSetSamplingPeriod | profilerRun
  deriving DecidableEq, Repr

def clientCommands : List Bytes :=
  ["[TCP_CMD] profiler_ready [PC]", "[TCP_CMD] profiler_start [PC]",
    "[TCP_CMD] profiler_stop [PC]", "[TCP_CMD] profiler_ack [PC]"].map bytes

def serverCommands : List Bytes :=
  ["[TCP_CMD] profiler_set_events [PS]", "[TCP_CMD] profiler_set_sampling_period [PS]",
    "[TCP_CMD] profiler_run [PS]"].map bytes

/-- The enumerator an index of the table is returned as. -/
def ClientCommand.ofIndex : ℕ → ClientCommand
  | 0 => .profilerReady
  | 1 => .profilerStart
  | 2 => .profilerStop
  | _ => .profilerAck

def ServerCommand.ofIndex : ℕ → ServerCommand
  | 0 => .profilerSetEvents
  | 1 => .profilerSetSamplingPeriod
  | _ => .profilerRun

/-- `recv_command` on the chunk its `recv` returned (none on a timeout): the
first command in it, the rest is dropped. `temp_buffer` is zeroed before. -/
def recvCommand (received : Bytes) : Bytes :=
  let temp := cString received
  match find (bytes "[TCP_CMD]") temp with
  | none => []
  | some i =>
    let start := temp.drop i
    match find (bytes "[PC]") start, find (bytes "[PS]") start with
    | some pc, some ps => start.take ((if pc < ps then pc else ps) + 4)
    | some pc, none => start.take (pc + 4)
    | none, some ps => start.take (ps + 4)
    | none, none => []

/-- The parsers' common code: the index of the second token in the table,
tried but for the last entry, and the arguments stored behind a hit. -/
def parseRecvCommand (commands : List Bytes) (stores : Bytes → Bool) (buffer : Bytes) :
    Option (ℕ × List ℤ) :=
  match strtok buffer with
  | _ :: token :: rest =>
    let i := commands.dropLast.findIdx fun c => (find token c).isSome
    some (i, if i < commands.length - 1 then (rest.filter stores).map atoi else [])
  | _ => none

def parseRecvClientCommand (buffer : Bytes) : Option (ClientCommand × List ℤ) :=
  (parseRecvCommand clientCommands (fun _ => true) buffer).map fun r =>
    (ClientCommand.ofIndex r.1, r.2)

def parseRecvServerCommand (buffer : Bytes) : Option (ServerCommand × List ℤ) :=
  (parseRecvCommand serverCommands (fun token => token.head?.any isDigit) buffer).map fun r =>
    (ServerCommand.ofIndex r.1, r.2)

/-! ### The server's handshake -/

/-- Where `tcp_server_profile_handshake` stands: at the `recv_command` for
the ready, with its retries left, at the `send_command`, at the
`recv_command` for the acknowledgement, or returned. -/
inductive ServerPc
  | waitReady (retry : ℕ)
  | sendRun
  | waitAck
  | done (ok : Bool)
  | crashed
  deriving DecidableEq, Repr

def ServerPc.start : ServerPc := .waitReady 100

/-- What the server sends: `[TCP_CMD] profiler_run [PS]`. -/
def runCommand : Bytes := bytes "[TCP_CMD] profiler_run [PS]"

/-- The server goes on from a `recv` that returned `chunk`, empty on a timeout. -/
def ServerPc.recv (chunk : Bytes) : ServerPc → ServerPc
  | .waitReady retry =>
    match parseRecvClientCommand (recvCommand chunk) with
    | none => .crashed
    | some (.profilerReady, _) => .sendRun
    | some _ => if retry ≤ 1 then .done false else .waitReady (retry - 1)
  | .waitAck => .done true
  | pc => pc

/-! ### The client's handshake -/

/-- Where `tcp_client_profile_handshake` stands: at its first send, at the
`recv` for a command, with the attempt it is on, at the acknowledgement of
that command, or returned. -/
inductive ClientPc
  | sendReady
  | wait (expected : ServerCommand) (attempt : ℕ)
  | sendAck (expected : ServerCommand)
  | done (ok : Bool)
  | crashed
  deriving DecidableEq, Repr

def readyCommand : Bytes := bytes "[TCP_CMD] profiler_ready [PC]"

def ackCommand : Bytes := bytes "[TCP_CMD] profiler_ack [PC]"

def maxRetries : ℕ := 3

/-- The client goes on from a `recv` that returned `chunk`. -/
def ClientPc.recv (chunk : Bytes) : ClientPc → ClientPc
  | .wait expected _ =>
    match parseRecvServerCommand (cString chunk) with
    | none => .crashed
    | some (c, _) => if c = expected then .sendAck expected else .done false
  | pc => pc

/-- `recv_command_with_retries` when its `recv` times out. -/
def ClientPc.timeout : ClientPc → ClientPc
  | .wait expected attempt =>
    if attempt < maxRetries then .wait expected (attempt + 1) else .done false
  | pc => pc

/-- After an acknowledgement: the next command, or the handshake is done. -/
def ClientPc.acked : ServerCommand → ClientPc
  | .profilerSetEvents => .wait .profilerSetSamplingPeriod 1
  | .profilerSetSamplingPeriod => .wait .profilerRun 1
  | .profilerRun => .done true

/-- A server that times out before the ready arrives calls `strstr` on no
token. -/
example : ServerPc.start.recv [] = .crashed := by decide

end ProfilingTcp
end DaatMcs
