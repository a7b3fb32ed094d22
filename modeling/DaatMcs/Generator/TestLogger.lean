/-
# The test logger

`main` runs a test in attempts: it clears the end-of-test event, starts a
thread for each log port, waits for the threads (or for a timeout, which sets
the event so that they stop) and resets the completion flag. The threads read
lines and dispatch the tags among them; the handler of the END tag sets the
flag, whether or not the thread's logging is on, and a thread that a timeout
leaves behind can still do so in a later attempt. `completed_of_attempt` is
the condition under which a true result is one of the attempt itself.
-/
import DaatMcs.Lib.Steps
import DaatMcs.Lib.Text
import Mathlib.Data.List.Infix

namespace DaatMcs
namespace TestLogger

open Steps

/-! ### Tags and their handlers -/

def testStart : Text := "[START] Profilling Started".toList

def testEnd : Text := "[END] Profiling Completed".toList

def bootError : Text := "Kernel OS not found".toList

def baoError : Text := "BAO ERROR".toList

def bootError1 : Text := "ERROR: can't get kernel image".toList

/-- `logging_controller` of a thread. -/
structure LoggingController where
  loggingStart : Bool
  loggingContent : List Text
  loggingOutputFile : Text
  logBootStartTime : ℤ
  logBootEndTime : ℤ

/-- What the threads share: the event, the flag, `list_boot_times`, and the
files written so far. -/
structure Shared where
  eventEndOfTest : Bool
  testCompleted : Bool
  listBootTimes : List ℤ
  files : List (Text × Text)

/-- `store_log` of what a thread has logged. -/
def storeLog (c : LoggingController) (sh : Shared) : Shared :=
  { sh with files := sh.files ++ [(c.loggingOutputFile, join "\n".toList c.loggingContent)] }

def loggerStart (now : ℤ) (c : LoggingController) (sh : Shared) : LoggingController × Shared :=
  ({ c with loggingStart := true, logBootEndTime := now }, sh)

/-- The END handler does not ask whether the logging is on. -/
def loggerEnd (_now : ℤ) (c : LoggingController) (sh : Shared) : LoggingController × Shared :=
  ({ c with loggingStart := false },
    { storeLog c sh with
      eventEndOfTest := true
      testCompleted := true
      listBootTimes := sh.listBootTimes ++ [c.logBootEndTime - c.logBootStartTime] })

def loggerBootError (_now : ℤ) (c : LoggingController) (sh : Shared) : LoggingController × Shared :=
  ({ c with loggingStart := false }, { sh with eventEndOfTest := true })

def loggerBaoError (_now : ℤ) (c : LoggingController) (sh : Shared) : LoggingController × Shared :=
  ({ c with loggingStart := false }, { sh with eventEndOfTest := true })

/-- The handler of a line, if it is a tag. -/
def serialFuncMap (line : Text) :
    Option (ℤ → LoggingController → Shared → LoggingController × Shared) :=
  if line = testStart then some loggerStart
  else if line = testEnd then some loggerEnd
  else if line = bootError then some loggerBootError
  else if line = baoError then some loggerBaoError
  else if line = bootError1 then some loggerBootError
  else none

/-- What a thread does with a line other than the empty one. -/
def dispatch (line : Text) (now : ℤ) (c : LoggingController) (sh : Shared) :
    LoggingController × Shared :=
  match serialFuncMap line with
  | some handler => handler now c sh
  | none =>
    if c.loggingStart then ({ c with loggingContent := c.loggingContent ++ [line] }, sh)
    else (c, sh)

/-! ### The system -/

/-- Where a thread is: before the loop condition, in `readline`, at the
`finally` block, or returned. -/
inductive ThreadPc
  | check
  | reading
  | finally
  | done
deriving DecidableEq

/-- A `trace_results_thread`. -/
structure Thread where
  port : Text
  pc : ThreadPc
  firstLine : Bool
  controller : LoggingController

/-- Where `main` is: between attempts, starting threads for the given ports
and log files, in `wait_for_test_end` before the join of a thread, after a
join that timed out, or back from the wait with its result. -/
inductive MainPc
  | idle
  | starting (ports : List (Text × Text))
  | waiting (i : ℕ)
  | timedOut
  | returned (testCompleted : Bool)
deriving DecidableEq

/-- The state of all. `delivered` is what the ports have delivered since the
event was cleared, and `first` the number of threads from attempts before;
both are for the statements only, no step depends on them. -/
structure State where
  main : MainPc
  shared : Shared
  logThreads : List Thread
  delivered : List (Text × Text)
  first : ℕ

def init : State := ⟨.idle, ⟨false, false, [], []⟩, [], [], 0⟩

/-- A step of `main`, or of the thread with the given number. -/
inductive Event
  | clear (ports : List (Text × Text))
  | startThread (now : ℤ)
  | join
  | joinTimeout
  | waitEnd
  | reset
  | check (i : ℕ)
  | readline (i : ℕ) (line : Text) (now : ℤ)
  | readlineRaises (i : ℕ)
  | finish (i : ℕ)

/-- A new thread, at the loop condition. -/
def newThread (port outputFile : Text) (now : ℤ) : Thread :=
  ⟨port, .check, false, ⟨false, [], outputFile, now, 0⟩⟩

/-- The next port gets its thread; after the last one the wait begins. -/
def startThread (s : State) (now : ℤ) : Option State :=
  match s.main with
  | .starting [] => some { s with main := .waiting 0 }
  | .starting ((port, outputFile) :: ports) =>
    some { s with
      main := .starting ports
      logThreads := s.logThreads ++ [newThread port outputFile now] }
  | _ => none

/-- `thread.join` returns and the thread is not alive. -/
def joinThread (s : State) : Option State :=
  match s.main with
  | .waiting i =>
    match s.logThreads[i]? with
    | some t => if t.pc = .done then some { s with main := .waiting (i + 1) } else none
    | none => none
  | _ => none

/-- `thread.join` times out: the event is set and the loop left. -/
def joinTimeout (s : State) : Option State :=
  match s.main with
  | .waiting i =>
    match s.logThreads[i]? with
    | some t =>
      if t.pc = .done then none
      else some { s with
        main := .timedOut
        shared := { s.shared with eventEndOfTest := true } }
    | none => none
  | _ => none

/-- `wait_for_test_end` returns, when the threads are through or after a timeout. -/
def waitEnd (s : State) : Option State :=
  match s.main with
  | .waiting i =>
    if i = s.logThreads.length then some { s with main := .returned s.shared.testCompleted }
    else none
  | .timedOut => some { s with main := .returned s.shared.testCompleted }
  | _ => none

def resetTestStatus (s : State) : Option State :=
  match s.main with
  | .returned _ => some { s with
      main := .idle
      shared := { s.shared with testCompleted := false }
      first := s.logThreads.length }
  | _ => none

/-- The thread goes on where it is at `pc`. -/
def threadStep (s : State) (i : ℕ) (pc : ThreadPc) (next : Thread → Thread × Shared) :
    Option State :=
  match s.logThreads[i]? with
  | some t =>
    if t.pc = pc then
      some { s with
        logThreads := s.logThreads.set i (next t).1
        shared := (next t).2 }
    else none
  | none => none

/-- The loop condition. -/
def checkEvent (s : State) (i : ℕ) : Option State :=
  threadStep s i .check fun t =>
    ({ t with pc := if s.shared.eventEndOfTest then .finally else .reading }, s.shared)

/-- A thread takes a line; the empty one, after a timeout, is skipped, and the
first one that is not restarts the clock. -/
def takeLine (line : Text) (now : ℤ) (t : Thread) (sh : Shared) : Thread × Shared :=
  if line = [] then ({ t with pc := .check }, sh)
  else
    let c := if t.firstLine then t.controller else { t.controller with logBootStartTime := now }
    let r := dispatch line now c sh
    ({ t with pc := .check, firstLine := true, controller := r.1 }, r.2)

/-- One `readline` and what follows up to the next loop condition. -/
def readLine (s : State) (i : ℕ) (line : Text) (now : ℤ) : Option State :=
  (threadStep s i .reading fun t => takeLine line now t s.shared).map fun s' =>
    { s' with delivered := s.delivered ++ ((s.logThreads[i]?).map fun t => (t.port, line)).toList }

/-- `readline` raises when another thread has closed the port. -/
def readLineRaises (s : State) (i : ℕ) : Option State :=
  threadStep s i .reading fun t => ({ t with pc := .finally }, s.shared)

/-- The `finally` block: what is logged so far is stored if the logging is on. -/
def finishThread (s : State) (i : ℕ) : Option State :=
  threadStep s i .finally fun t =>
    ({ t with pc := .done },
      if t.controller.loggingStart then storeLog t.controller s.shared else s.shared)

def step (s : State) : Event → Option State
  | .clear ports =>
    match s.main with
    | .idle => some { s with
        main := .starting ports
        shared := { s.shared with eventEndOfTest := false }
        delivered := [] }
    | _ => none
  | .startThread now => startThread s now
  | .join => joinThread s
  | .joinTimeout => joinTimeout s
  | .waitEnd => waitEnd s
  | .reset => resetTestStatus s
  | .check i => checkEvent s i
  | .readline i line now => readLine s i line now
  | .readlineRaises i => readLineRaises s i
  | .finish i => finishThread s i

/-! ### Completion in the attempt -/

/-- Some port has delivered START and later END. -/
def Completed (delivered : List (Text × Text)) : Prop :=
  ∃ port before after, delivered = before ++ after ∧ (port, testStart) ∈ before ∧
    (port, testEnd) ∈ after

/-- A true result belongs to the attempt. -/
def Legitimate (s : State) : Prop := s.main = .returned true → Completed s.delivered

/-- A thread of the attempt is logging the port. -/
def Logged (s : State) (port : Text) : Prop :=
  ∃ t ∈ s.logThreads.drop s.first, t.port = port ∧ t.controller.loggingStart = true

/-- END is read only from a port that is logged, unless `main` has its result
already. -/
def EndExpected (s : State) : Event → Prop
  | .readline i line _ => line = testEnd → (∀ b, s.main ≠ .returned b) →
      ∀ t ∈ s.logThreads[i]?, Logged s t.port
  | _ => True

instance (s : State) (port : Text) : Decidable (Logged s port) :=
  inferInstanceAs (Decidable (∃ t ∈ s.logThreads.drop s.first, _))

instance (s : State) : ∀ e : Event, Decidable (EndExpected s e)
  | .readline i line _ =>
    inferInstanceAs (Decidable (line = testEnd → (∀ b, s.main ≠ .returned b) →
      ∀ t ∈ s.logThreads[i]?, Logged s t.port))
  | .clear _ | .startThread _ | .join | .joinTimeout | .waitEnd | .reset | .check _
  | .readlineRaises _ | .finish _ => .isTrue trivial

/-! ### What one step can do -/

theorem threadStep_eq_some {s s' : State} {i : ℕ} {pc : ThreadPc} {next : Thread → Thread × Shared}
    (h : threadStep s i pc next = some s') :
    ∃ t, s.logThreads[i]? = some t ∧
      s' = { s with logThreads := s.logThreads.set i (next t).1, shared := (next t).2 } := by
  unfold threadStep at h
  cases ht : s.logThreads[i]? with
  | none => simp [ht] at h
  | some t =>
    rw [ht] at h
    by_cases hpc : t.pc = pc
    · exact ⟨t, rfl, by simpa [hpc] using h.symm⟩
    · simp [hpc] at h

theorem readLine_eq_some {s s' : State} {i : ℕ} {line : Text} {now : ℤ}
    (h : readLine s i line now = some s') :
    ∃ t, s.logThreads[i]? = some t ∧
      s' = { s with
        logThreads := s.logThreads.set i (takeLine line now t s.shared).1
        shared := (takeLine line now t s.shared).2
        delivered := s.delivered ++ [(t.port, line)] } := by
  unfold readLine at h
  obtain ⟨u, hu, rfl⟩ := Option.map_eq_some_iff.mp h
  obtain ⟨t, ht, rfl⟩ := threadStep_eq_some hu
  exact ⟨t, ht, by simp [ht]⟩

/-- Only START turns the logging on. -/
theorem dispatch_loggingStart {line : Text} {now : ℤ} {c : LoggingController} {sh : Shared}
    (h : (dispatch line now c sh).1.loggingStart = true) :
    c.loggingStart = true ∨ line = testStart := by
  unfold dispatch serialFuncMap at h
  by_cases hs : line = testStart
  · exact .inr hs
  · rw [if_neg hs] at h
    by_cases hc : c.loggingStart = true
    · exact .inl hc
    · split_ifs at h <;>
        simp_all [loggerEnd, loggerBootError, loggerBaoError]

/-- Only END sets the flag. -/
theorem dispatch_testCompleted {line : Text} {now : ℤ} {c : LoggingController} {sh : Shared}
    (h : (dispatch line now c sh).2.testCompleted = true) :
    sh.testCompleted = true ∨ line = testEnd := by
  unfold dispatch serialFuncMap at h
  by_cases he : line = testEnd
  · exact .inr he
  · refine .inl ?_
    split_ifs at h <;>
      simp_all [loggerStart, loggerBootError, loggerBaoError]

theorem takeLine_port (line : Text) (now : ℤ) (t : Thread) (sh : Shared) :
    (takeLine line now t sh).1.port = t.port := by
  unfold takeLine
  split <;> rfl

theorem takeLine_loggingStart {line : Text} {now : ℤ} {t : Thread} {sh : Shared}
    (h : (takeLine line now t sh).1.controller.loggingStart = true) :
    t.controller.loggingStart = true ∨ line = testStart := by
  unfold takeLine at h
  by_cases hl : line = []
  · rw [if_pos hl] at h
    exact .inl h
  · rw [if_neg hl] at h
    rcases dispatch_loggingStart h with hc | hs
    · exact .inl (by cases hf : t.firstLine <;> simpa [hf] using hc)
    · exact .inr hs

theorem takeLine_testCompleted {line : Text} {now : ℤ} {t : Thread} {sh : Shared}
    (h : (takeLine line now t sh).2.testCompleted = true) :
    sh.testCompleted = true ∨ line = testEnd := by
  unfold takeLine at h
  by_cases hl : line = []
  · rw [if_pos hl] at h
    exact .inl h
  · rw [if_neg hl] at h
    exact dispatch_testCompleted h

/-! ### The invariant -/

theorem Completed.append {delivered : List (Text × Text)} (h : Completed delivered)
    (new : List (Text × Text)) : Completed (delivered ++ new) := by
  obtain ⟨port, before, after, rfl, hb, ha⟩ := h
  exact ⟨port, before, after ++ new, List.append_assoc .., hb, List.mem_append_left new ha⟩

theorem Completed.concat {delivered : List (Text × Text)} {port : Text}
    (h : (port, testStart) ∈ delivered) : Completed (delivered ++ [(port, testEnd)]) :=
  ⟨port, delivered, _, rfl, h, List.mem_singleton_self _⟩

/-- A set flag is backed by the attempt, before its result is there. -/
def FlagBacked (s : State) : Prop :=
  match s.main with
  | .idle => False
  | .returned _ => True
  | _ => Completed s.delivered

structure Inv (s : State) : Prop where
  /-- The logging of a thread of the attempt was turned on in it. -/
  fresh : ∀ t ∈ s.logThreads.drop s.first, t.controller.loggingStart = true →
    (t.port, testStart) ∈ s.delivered
  flag : s.shared.testCompleted = true → FlagBacked s
  result : s.main = .returned true → Completed s.delivered
  idle : s.main = .idle → s.first = s.logThreads.length

theorem Inv.init : Inv init where
  fresh _ ht := by simp [TestLogger.init] at ht
  flag h := by simp [TestLogger.init] at h
  result h := by simp [TestLogger.init] at h
  idle _ := rfl

theorem Inv.logged {s : State} (hi : Inv s) {port : Text} (h : Logged s port) :
    (port, testStart) ∈ s.delivered := by
  obtain ⟨t, ht, rfl, hlog⟩ := h
  exact hi.fresh t ht hlog

/-- Between attempts no port is logged. -/
theorem Inv.not_logged {s : State} (hi : Inv s) (hidle : s.main = .idle) {port : Text} :
    ¬ Logged s port := by
  rintro ⟨t, ht, -⟩
  simp [hi.idle hidle] at ht

/-- An element of the rest of a list in which `t` became `t'`. -/
theorem mem_drop_set {α : Type*} {l : List α} {i k : ℕ} {t t' u : α} (ht : l[i]? = some t)
    (hu : u ∈ (l.set i t').drop k) : t ∈ l.drop k ∧ u = t' ∨ u ∈ l.drop k := by
  rw [List.drop_set] at hu
  split at hu
  · exact .inr hu
  · next hk =>
    rcases List.mem_or_eq_of_mem_set hu with hold | rfl
    · exact .inr hold
    · refine .inl ⟨List.mem_of_getElem? (i := i - k) ?_, rfl⟩
      rwa [List.getElem?_drop, Nat.add_sub_cancel' (Nat.not_lt.mp hk)]

/-- A thread goes on, and its port delivers `new`. -/
theorem Inv.thread {s : State} (hi : Inv s) (sh : Shared) (new : List (Text × Text)) {i : ℕ}
    {t t' : Thread} (ht : s.logThreads[i]? = some t) (hport : t'.port = t.port)
    (hlog : t'.controller.loggingStart = true →
      t.controller.loggingStart = true ∨ (t.port, testStart) ∈ new)
    (hflag : sh.testCompleted = true → s.shared.testCompleted = true ∨
      ((∀ b, s.main ≠ .returned b) → s.main ≠ .idle ∧ Completed (s.delivered ++ new))) :
    Inv { s with
      logThreads := s.logThreads.set i t'
      shared := sh
      delivered := s.delivered ++ new } where
  fresh u hu hon := by
    show (u.port, testStart) ∈ s.delivered ++ new
    rcases mem_drop_set ht hu with ⟨hold, rfl⟩ | hold
    · rw [hport]
      rcases hlog hon with hon | hnew
      · exact List.mem_append_left _ (hi.fresh t hold hon)
      · exact List.mem_append_right _ hnew
    · exact List.mem_append_left _ (hi.fresh u hold hon)
  flag h := by
    have hback := hi.flag
    unfold FlagBacked at hback ⊢
    rcases hflag h with hset | hnew
    · cases hm : s.main <;> simp only [hm] at hback ⊢
      · exact hback hset
      · exact (hback hset).append new
      · exact (hback hset).append new
      · exact (hback hset).append new
    · cases hm : s.main with
      | idle => exact (hnew (by simp [hm])).1 hm
      | returned b => trivial
      | starting ports => exact (hnew (by simp [hm])).2
      | waiting i => exact (hnew (by simp [hm])).2
      | timedOut => exact (hnew (by simp [hm])).2
  result h := (hi.result h).append new
  idle h := by simpa using hi.idle h

/-- A step of a thread that reads nothing. -/
theorem Inv.threadStep {s s' : State} (hi : Inv s) {i : ℕ} {pc : ThreadPc}
    {next : Thread → Thread × Shared} (h : threadStep s i pc next = some s')
    (hport : ∀ t, (next t).1.port = t.port)
    (hlog : ∀ t, (next t).1.controller = t.controller)
    (hflag : ∀ t, (next t).2.testCompleted = s.shared.testCompleted) : Inv s' := by
  obtain ⟨t, ht, rfl⟩ := threadStep_eq_some h
  have hnext := hi.thread (next t).2 [] ht (hport t)
    (fun hon => .inl (by rwa [hlog] at hon)) (fun hset => .inl (by rwa [hflag] at hset))
  rwa [List.append_nil] at hnext

theorem Inv.readLine {s s' : State} (hi : Inv s) {i : ℕ} {line : Text} {now : ℤ}
    (hg : EndExpected s (.readline i line now)) (h : readLine s i line now = some s') :
    Inv s' := by
  obtain ⟨t, ht, rfl⟩ := readLine_eq_some h
  refine hi.thread _ _ ht (takeLine_port line now t s.shared) ?_ ?_
  · intro hon
    rcases takeLine_loggingStart hon with hold | rfl
    · exact .inl hold
    · exact .inr (List.mem_singleton_self _)
  · intro hset
    rcases takeLine_testCompleted hset with hold | rfl
    · exact .inl hold
    · refine .inr fun hmain => ?_
      have hlogged : Logged s t.port := hg rfl hmain t ht
      exact ⟨fun hidle => hi.not_logged hidle hlogged, .concat (hi.logged hlogged)⟩

/-- The wait begins, or goes on. -/
theorem Inv.wait {s : State} (hi : Inv s) (hidle : s.main ≠ .idle)
    (hreturned : ∀ b, s.main ≠ .returned b) (i : ℕ) : Inv { s with main := .waiting i } where
  fresh := hi.fresh
  flag h := by
    have hback := hi.flag h
    unfold FlagBacked at hback ⊢
    cases hm : s.main with
    | idle => exact absurd hm hidle
    | returned b => exact absurd hm (hreturned b)
    | starting ports => simpa only [hm] using hback
    | waiting j => simpa only [hm] using hback
    | timedOut => simpa only [hm] using hback
  result h := by simp at h
  idle h := by simp at h

theorem Inv.startThread {s s' : State} (hi : Inv s) {now : ℤ} (h : startThread s now = some s') :
    Inv s' := by
  unfold TestLogger.startThread at h
  cases hm : s.main with
  | starting ports =>
    rw [hm] at h
    cases ports with
    | nil =>
      cases h
      exact hi.wait (by simp [hm]) (by simp [hm]) 0
    | cons p ports =>
      cases h
      refine ⟨fun t ht hon => ?_, fun hset => ?_, by simp, by simp⟩
      · rw [List.drop_append] at ht
        rcases List.mem_append.mp ht with hold | hnew
        · exact hi.fresh t hold hon
        · obtain rfl := List.mem_singleton.mp (List.mem_of_mem_drop hnew)
          simp [newThread] at hon
      · have hback := hi.flag hset
        unfold FlagBacked at hback ⊢
        simpa only [hm] using hback
  | _ => simp [hm] at h

theorem Inv.joinThread {s s' : State} (hi : Inv s) (h : joinThread s = some s') : Inv s' := by
  unfold TestLogger.joinThread at h
  cases hm : s.main with
  | waiting i =>
    cases ht : s.logThreads[i]? with
    | none => simp [hm, ht] at h
    | some t =>
      by_cases hdone : t.pc = .done
      · obtain rfl : { s with main := .waiting (i + 1) } = s' := by simpa [hm, ht, hdone] using h
        exact hi.wait (by simp [hm]) (by simp [hm]) (i + 1)
      · simp [hm, ht, hdone] at h
  | _ => simp [hm] at h

theorem Inv.joinTimeout {s s' : State} (hi : Inv s) (h : joinTimeout s = some s') : Inv s' := by
  unfold TestLogger.joinTimeout at h
  cases hm : s.main with
  | waiting i =>
    cases ht : s.logThreads[i]? with
    | none => simp [hm, ht] at h
    | some t =>
      by_cases hdone : t.pc = .done
      · simp [hm, ht, hdone] at h
      · obtain rfl : { s with
            main := .timedOut
            shared := { s.shared with eventEndOfTest := true } } = s' := by
          simpa [hm, ht, hdone] using h
        refine ⟨hi.fresh, fun hset => ?_, by simp, by simp⟩
        simpa only [FlagBacked, hm] using hi.flag hset
  | _ => simp [hm] at h

/-- The result is the flag. -/
theorem Inv.returned {s : State} (hi : Inv s)
    (hback : s.shared.testCompleted = true → Completed s.delivered) :
    Inv { s with main := .returned s.shared.testCompleted } where
  fresh := hi.fresh
  flag _ := trivial
  result h := hback (by simpa using h)
  idle h := by simp at h

theorem Inv.waitEnd {s s' : State} (hi : Inv s) (h : waitEnd s = some s') : Inv s' := by
  have hback := hi.flag
  unfold TestLogger.waitEnd at h
  unfold FlagBacked at hback
  cases hm : s.main with
  | waiting i =>
    rw [hm] at h hback
    by_cases hlast : i = s.logThreads.length
    · obtain rfl : { s with main := .returned s.shared.testCompleted } = s' := by
        simpa [hlast] using h
      exact hi.returned hback
    · simp [hlast] at h
  | timedOut =>
    rw [hm] at h hback
    cases h
    exact hi.returned hback
  | _ => simp [hm] at h

/-- The reset leaves nothing of the attempt. -/
theorem inv_resetTestStatus {s s' : State} (h : resetTestStatus s = some s') : Inv s' := by
  unfold resetTestStatus at h
  cases hm : s.main with
  | returned b =>
    rw [hm] at h
    cases h
    exact ⟨fun t ht _ => by simp at ht, by simp, by simp, fun _ => rfl⟩
  | _ => simp [hm] at h

theorem Inv.clear {s s' : State} (hi : Inv s) {ports : List (Text × Text)}
    (h : TestLogger.step s (.clear ports) = some s') : Inv s' := by
  unfold TestLogger.step at h
  cases hm : s.main with
  | idle =>
    simp only [hm] at h
    cases h
    refine ⟨fun t ht _ => ?_, fun hset => ?_, by simp, by simp⟩
    · simp [hi.idle hm] at ht
    · have hback := hi.flag hset
      simp [FlagBacked, hm] at hback
  | _ => simp [hm] at h

theorem Inv.step {s s' : State} (hi : Inv s) :
    ∀ {e : Event}, EndExpected s e → step s e = some s' → Inv s'
  | .clear _, _, h => hi.clear h
  | .startThread _, _, h => hi.startThread h
  | .join, _, h => hi.joinThread h
  | .joinTimeout, _, h => hi.joinTimeout h
  | .waitEnd, _, h => hi.waitEnd h
  | .reset, _, h => inv_resetTestStatus h
  | .check _, _, h => hi.threadStep h (fun _ => rfl) (fun _ => rfl) (fun _ => rfl)
  | .readline _ _ _, hg, h => hi.readLine hg h
  | .readlineRaises _, _, h => hi.threadStep h (fun _ => rfl) (fun _ => rfl) (fun _ => rfl)
  | .finish _, _, h => hi.threadStep h (fun _ => rfl) (fun _ => rfl) fun t => by
      by_cases hon : t.controller.loggingStart = true <;> simp [hon, storeLog]

/-! ### Main theorem -/

/-- **Main result.** In every run that reads END only from ports that a thread
of the attempt is logging, a true result belongs to the attempt. -/
theorem completed_of_attempt {es : List Event}
    (hexpected : ∀ s e, Takes step init es s e → EndExpected s e) {s : State}
    (h : Visits step init es s) : Legitimate s :=
  (Visits.inv (I := Inv) (fun _ _ _ hi hg he => hi.step hg he) Inv.init hexpected h).result

/-- An attempt with one port that delivers START, a line and END. -/
def goodRun : List Event :=
  [.clear [("ttyA".toList, "log".toList)], .startThread 0, .startThread 0, .check 0,
    .readline 0 testStart 1, .check 0, .readline 0 "cycles: 42".toList 2, .check 0,
    .readline 0 testEnd 3, .check 0, .finish 0, .join, .waitEnd]

theorem completed_of_attempt_goodRun :
    ∃ s, Visits step init goodRun s ∧ s.main = .returned true ∧ Completed s.delivered := by
  have hend : (goodRun.foldlM step init).map (·.main) = some (.returned true) := by decide +kernel
  have hmeets : Meets step EndExpected init goodRun := by decide +kernel
  obtain ⟨s, hs, hmain⟩ := Option.map_eq_some_iff.mp hend
  have hvisits : Visits step init goodRun s := ⟨goodRun, List.prefix_rfl, hs⟩
  exact ⟨s, hvisits, hmain, completed_of_attempt (fun _ _ => hmeets.takes) hvisits hmain⟩

/-- The thread of a first attempt reads START and is still in `readline` at the
timeout; END is what it reads in the second attempt. -/
def staleRun : List Event :=
  [.clear [("ttyA".toList, "log1".toList)], .startThread 0, .startThread 0, .check 0,
    .readline 0 testStart 1, .check 0, .joinTimeout, .waitEnd, .reset,
    .clear [("ttyA".toList, "log2".toList)], .startThread 200, .startThread 200,
    .readline 0 testEnd 201, .check 0, .finish 0, .join, .check 1, .finish 1, .join, .waitEnd]

theorem stale_completion : ¬ ∀ es s, Visits step init es s → Legitimate s := by
  intro h
  have hend : (staleRun.foldlM step init).map (fun s => (s.main, s.delivered)) =
      some (.returned true, [("ttyA".toList, testEnd)]) := by decide +kernel
  obtain ⟨s, hs, hboth⟩ := Option.map_eq_some_iff.mp hend
  obtain ⟨hmain, hdelivered⟩ := Prod.mk.inj hboth
  obtain ⟨port, before, after, happend, hstart, -⟩ :=
    h staleRun s ⟨staleRun, List.prefix_rfl, hs⟩ hmain
  have hmem : (port, testStart) ∈ [("ttyA".toList, testEnd)] := by
    rw [← hdelivered, happend]
    exact List.mem_append_left after hstart
  have hne : testStart ≠ testEnd := by decide +kernel
  exact hne (Prod.mk.inj (List.mem_singleton.mp hmem)).2

end TestLogger
end DaatMcs
