/-
# The two handshakes against each other

The client's and the server's handshake over two reliable channels, one
chunk a send. A `recv` takes the chunk at the head of its channel; it can
time out only when the channel is empty and the peer has returned, so that
every send arrives before any timeout.

The client wants the three commands of the procedure in turn, and the server
sends the last of them only: in every run the server returns true and the
client false (`disagree`).
-/
import DaatMcs.Lib.Steps
import DaatMcs.Logger.ProfilingTcp

namespace DaatMcs
namespace Handshake

open ProfilingTcp Steps

/-- Both parties, and the chunks under way to each. -/
structure State where
  server : ServerPc
  client : ClientPc
  toServer : List Bytes
  toClient : List Bytes
  deriving DecidableEq, Repr

def init : State := ⟨.start, .sendReady, [], []⟩

inductive Event
  | server | client | serverTimeout | clientTimeout
  deriving DecidableEq, Repr

/-- The server's next step: a send, or a `recv` of a chunk that is there. -/
def serverStep (s : State) : Option State :=
  match s.server, s.toServer with
  | .sendRun, _ => some { s with server := .waitAck, toClient := s.toClient ++ [runCommand] }
  | .waitReady retry, chunk :: rest =>
    some { s with server := (ServerPc.waitReady retry).recv chunk, toServer := rest }
  | .waitAck, chunk :: rest => some { s with server := ServerPc.waitAck.recv chunk, toServer := rest }
  | _, _ => none

def clientStep (s : State) : Option State :=
  match s.client, s.toClient with
  | .sendReady, _ =>
    some { s with client := .wait .profilerSetEvents 1, toServer := s.toServer ++ [readyCommand] }
  | .sendAck c, _ => some { s with client := .acked c, toServer := s.toServer ++ [ackCommand] }
  | .wait c n, chunk :: rest => some { s with client := (ClientPc.wait c n).recv chunk, toClient := rest }
  | _, _ => none

def serverReturned (s : State) : Bool :=
  match s.server with
  | .done _ => true
  | _ => false

def clientReturned (s : State) : Bool :=
  match s.client with
  | .done _ => true
  | _ => false

/-- The server's `recv` times out: nothing is under way or can still come. -/
def serverTimeout (s : State) : Option State :=
  if s.toServer = [] ∧ clientReturned s then
    match s.server with
    | .waitReady _ | .waitAck => some { s with server := s.server.recv [] }
    | _ => none
  else none

def clientTimeout (s : State) : Option State :=
  if s.toClient = [] ∧ serverReturned s then
    match s.client with
    | .wait _ _ => some { s with client := s.client.timeout }
    | _ => none
  else none

def step (s : State) : Event → Option State
  | .server => serverStep s
  | .client => clientStep s
  | .serverTimeout => serverTimeout s
  | .clientTimeout => clientTimeout s

/-- Neither side goes on while the other aborts. -/
def Agree (s : State) : Prop :=
  ∀ a b, s.server = .done a → s.client = .done b → a = b

/-- Both handshakes have returned. -/
def Finished (s : State) : Prop := serverReturned s ∧ clientReturned s

instance : DecidablePred Finished := fun s => by unfold Finished; infer_instance

/-! ### The run -/

/-- The states of the only run there is, in order: the ready, the run
command in its place, the client's refusal, the server's last timeout. -/
def states : List State :=
  [init,
    ⟨.start, .wait .profilerSetEvents 1, [readyCommand], []⟩,
    ⟨.sendRun, .wait .profilerSetEvents 1, [], []⟩,
    ⟨.waitAck, .wait .profilerSetEvents 1, [], [runCommand]⟩,
    ⟨.waitAck, .done false, [], []⟩,
    ⟨.done true, .done false, [], []⟩]

/-- The events along it. -/
def events : List Event := [.client, .server, .server, .client, .serverTimeout]

/-- In each of the states exactly the next event is enabled, and leads to
the next state. -/
theorem step_states : ∀ i < 6, ∀ e ∈ [Event.server, .client, .serverTimeout, .clientTimeout],
    ∀ t ∈ step (states.getD i init) e, events[i]? = some e ∧ states[i + 1]? = some t := by
  decide +kernel

theorem mem_events (e : Event) : e ∈ [Event.server, .client, .serverTimeout, .clientTimeout] := by
  cases e <;> decide

/-- Every run is a beginning of `events`. -/
theorem run_prefix {es : List Event} {s : State} (h : es.foldlM step init = some s) :
    es <+: events ∧ states[es.length]? = some s := by
  induction es using List.reverseRecOn generalizing s with
  | nil => cases h; exact ⟨List.nil_prefix, rfl⟩
  | append_singleton es e ih =>
    obtain ⟨u, hu, he⟩ := foldlM_concat.mp h
    obtain ⟨hpre, hget⟩ := ih hu
    have hlt : es.length < 6 := (List.getElem?_eq_some_iff.mp hget).1
    have hu' : u = states.getD es.length init := by simp [List.getD_eq_getElem?_getD, hget]
    rw [hu'] at he
    obtain ⟨hev, hst⟩ := step_states _ hlt e (mem_events e) s he
    refine ⟨?_, by simpa using hst⟩
    obtain ⟨tl, htl⟩ := hpre
    rw [← htl] at hev
    cases tl with
    | nil => simp at hev
    | cons x tl =>
      obtain rfl : x = e := by simpa using hev
      exact ⟨tl, by rw [← htl]; simp⟩

theorem run_events : events.foldlM step init = states[5]? := by decide +kernel

/-- **The handshakes never agree.** Every run goes on to one in which both
handshakes have returned, and in each such run the server's returned true
and the client's false. -/
theorem disagree (es : List Event) (s : State) (h : es.foldlM step init = some s) :
    (∃ rest t, (es ++ rest).foldlM step init = some t ∧ Finished t) ∧
      (Finished s → s.server = .done true ∧ s.client = .done false ∧ ¬ Agree s) := by
  obtain ⟨⟨rest, hrest⟩, hget⟩ := run_prefix h
  refine ⟨⟨rest, states.getD 5 init, by rw [hrest]; exact run_events, by decide⟩, fun hf => ?_⟩
  have hlt : es.length < 6 := (List.getElem?_eq_some_iff.mp hget).1
  have hs : s = states.getD es.length init := by simp [List.getD_eq_getElem?_getD, hget]
  have hfin : ∀ i < 6, Finished (states.getD i init) → states.getD i init = states.getD 5 init := by
    decide +kernel
  rw [hs] at hf ⊢
  rw [hfin _ hlt hf]
  exact ⟨rfl, rfl, fun ha => absurd (ha true false rfl rfl) (by decide)⟩

/-- The whole run. -/
theorem disagree_events : (∃ rest t, (events ++ rest).foldlM step init = some t ∧ Finished t) ∧
    (Finished ⟨.done true, .done false, [], []⟩ →
      (⟨.done true, .done false, [], []⟩ : State).server = .done true ∧
      (⟨.done true, .done false, [], []⟩ : State).client = .done false ∧
      ¬ Agree ⟨.done true, .done false, [], []⟩) :=
  disagree events ⟨.done true, .done false, [], []⟩ run_events

/-- After the whole run the server goes on to the data, the client does not. -/
theorem events_disagree : ∃ s, events.foldlM step init = some s ∧ Finished s ∧
    s.server = .done true ∧ s.client = .done false ∧ ¬ Agree s :=
  ⟨_, run_events, by decide, rfl, rfl, fun h => absurd (h true false rfl rfl) (by decide)⟩

end Handshake
end DaatMcs
