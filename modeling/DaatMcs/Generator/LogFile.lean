/-
# The log file of a port

A `trace_results_thread` writes its log file in two places: the handler of the
END tag stores what is logged, and so does the `finally` block if the logging
is still on. Whatever the other threads and `main` do until the event is
cleared for the next attempt, the thread writes once or never, and what it
writes is the lines received since START (`log_file`).
-/
import DaatMcs.Generator.TestLogger
import Mathlib.Data.List.TakeWhile

namespace DaatMcs
namespace TestLogger

open Steps

/-! ### What a thread receives and writes -/

/-- The thread that a step belongs to; none for the steps of `main`. -/
def Event.thread : Event → Option ℕ
  | .check i | .readline i _ _ | .readlineRaises i | .finish i => some i
  | .clear _ | .startThread _ | .join | .joinTimeout | .waitEnd | .reset => none

/-- The line that thread `i` reads in a step. -/
def Event.line (i : ℕ) : Event → Option Text
  | .readline j line _ => if j = i then some line else none
  | _ => none

/-- The lines that thread `i` reads in a run. -/
def received (i : ℕ) (es : List Event) : List Text := es.filterMap (Event.line i)

/-- The files that thread `i` writes in a step. -/
def writtenIn (i : ℕ) (s : State) (e : Event) : List (Text × Text) :=
  if e.thread = some i then
    ((step s e).map fun s' => s'.shared.files.drop s.shared.files.length).getD []
  else []

/-- The files that thread `i` writes in a run. -/
def written (i : ℕ) : State → List Event → List (Text × Text)
  | _, [] => []
  | s, e :: es => writtenIn i s e ++ ((step s e).map fun s' => written i s' es).getD []

def isTag (line : Text) : Bool := (serialFuncMap line).isSome

/-- The tags of boot and hypervisor errors. -/
def IsError (line : Text) : Prop := line = bootError ∨ line = baoError ∨ line = bootError1

/-- A line that ends the test. -/
def EndsTest (line : Text) : Prop := line = testEnd ∨ IsError line

/-- Of the lines received, those to log: from START on, without empty lines
and tags. -/
def logged (lines : List Text) : List Text :=
  (lines.dropWhile fun line => line ≠ testStart).filter fun line => line ≠ [] ∧ isTag line = false

/-- The file with what was to log. -/
def logFile (file : Text) (lines : List Text) : Text × Text := (file, join "\n".toList (logged lines))

theorem written_concat {i : ℕ} {e : Event} : ∀ {es : List Event} {s u : State},
    es.foldlM step s = some u → written i s (es ++ [e]) = written i s es ++ writtenIn i u e
  | [], s, u, h => by
    obtain rfl : s = u := Option.some.inj h
    show writtenIn i s e ++ ((step s e).map fun _ => []).getD [] = [] ++ writtenIn i s e
    cases step s e <;> simp
  | d :: es, s, u, h => by
    rw [List.foldlM_cons] at h
    obtain ⟨s', hs', h⟩ := Option.bind_eq_some_iff.mp h
    show writtenIn i s d ++ ((step s d).map fun s' => written i s' (es ++ [e])).getD [] =
      writtenIn i s d ++ ((step s d).map fun s' => written i s' es).getD [] ++ writtenIn i u e
    rw [hs', Option.map_some, Option.map_some, Option.getD_some, Option.getD_some, written_concat h,
      List.append_assoc]

/-! ### The lines to log -/

theorem isTag_eq_true {line : Text} : isTag line = true ↔ line = testStart ∨ EndsTest line := by
  unfold isTag serialFuncMap EndsTest IsError
  split_ifs <;> simp_all

theorem not_isError_testEnd : ¬ IsError testEnd := by
  unfold IsError
  decide +kernel

theorem not_endsTest_testStart : ¬ EndsTest testStart := by
  unfold EndsTest IsError
  decide +kernel

theorem isTag_testStart : isTag testStart = true := isTag_eq_true.mpr (.inl rfl)

/-- A line is to log if START came before it and it is neither empty nor a tag. -/
theorem logged_concat (lines : List Text) (line : Text) : logged (lines ++ [line]) =
    logged lines ++ if testStart ∈ lines ∧ line ≠ [] ∧ isTag line = false then [line] else [] := by
  have hempty : (lines.dropWhile fun line => line ≠ testStart).isEmpty = true ↔ testStart ∉ lines := by
    rw [List.isEmpty_iff, List.dropWhile_eq_nil_iff]
    exact ⟨fun h hs => of_decide_eq_true (h testStart hs) rfl,
      fun h x hx => decide_eq_true fun hxs => h (hxs ▸ hx)⟩
  unfold logged
  rw [List.dropWhile_append]
  by_cases hstart : testStart ∈ lines
  · rw [if_neg fun h => hempty.mp h hstart, List.filter_append]
    by_cases hline : line ≠ [] ∧ isTag line = false
    · rw [if_pos ⟨hstart, hline⟩, List.filter_cons_of_pos (by simpa using hline)]
      rfl
    · rw [if_neg fun h => hline h.2, List.filter_cons_of_neg (by simpa using hline)]
      rfl
  · have hnil := List.isEmpty_iff.mp (hempty.mpr hstart)
    rw [if_pos (hempty.mpr hstart), hnil, if_neg fun h => hstart h.1]
    by_cases hline : line = testStart
    · rw [List.dropWhile_cons_of_neg (by simp [hline]), hline]
      simp [isTag_testStart]
    · rw [List.dropWhile_cons_of_pos (by simp [hline])]
      rfl

/-! ### One step -/

/-- What thread `i` does in its step is seen in its state and in what it writes. -/
theorem threadStep_own {s s' : State} {i : ℕ} {pc : ThreadPc} {next : Thread → Thread × Shared}
    (h : threadStep s i pc next = some s') :
    ∃ t, s.logThreads[i]? = some t ∧ t.pc = pc ∧ s'.logThreads[i]? = some (next t).1 ∧
      s'.shared = (next t).2 := by
  unfold threadStep at h
  cases ht : s.logThreads[i]? with
  | none => simp [ht] at h
  | some t =>
    rw [ht] at h
    by_cases hpc : t.pc = pc
    · have hlt : i < s.logThreads.length := (List.getElem?_eq_some_iff.mp ht).1
      obtain rfl := Option.some.inj ((if_pos hpc).symm.trans h)
      exact ⟨t, rfl, hpc, List.getElem?_set_self hlt, rfl⟩
    · exact absurd h (by simp [hpc])

theorem threadStep_frame {s s' : State} {i j : ℕ} {pc : ThreadPc} {next : Thread → Thread × Shared}
    (h : threadStep s j pc next = some s') (hij : j ≠ i) :
    s'.logThreads[i]? = s.logThreads[i]? := by
  obtain ⟨t, -, rfl⟩ := threadStep_eq_some h
  exact List.getElem?_set_ne hij

/-- What a line does, by what it is. -/
inductive Handled (line : Text) (c : LoggingController) (sh : Shared) (c' : LoggingController)
    (sh' : Shared) : Prop
  | start (hline : line = testStart) (hon : c'.loggingStart = true)
      (hcontent : c'.loggingContent = c.loggingContent) (hsh : sh' = sh)
  | testEnd (hline : line = testEnd) (hon : c'.loggingStart = false) (hset : sh'.eventEndOfTest = true)
      (hfiles : sh'.files = sh.files ++ [(c.loggingOutputFile, join "\n".toList c.loggingContent)])
  | error (hline : IsError line) (hon : c'.loggingStart = false)
      (hset : sh'.eventEndOfTest = true) (hfiles : sh'.files = sh.files)
  | other (hline : isTag line = false) (hon : c'.loggingStart = c.loggingStart)
      (hcontent : c'.loggingContent =
        c.loggingContent ++ if c.loggingStart = true ∧ line ≠ [] then [line] else []) (hsh : sh' = sh)

theorem dispatch_handled {line : Text} (hne : line ≠ []) (now : ℤ) (c : LoggingController) (sh : Shared) :
    Handled line c sh (dispatch line now c sh).1 (dispatch line now c sh).2 ∧
      (dispatch line now c sh).1.loggingOutputFile = c.loggingOutputFile := by
  unfold dispatch
  cases hmap : serialFuncMap line with
  | none =>
    have htag : isTag line = false := by rw [isTag, hmap]; rfl
    dsimp only
    split
    · next hon => exact ⟨.other htag rfl (by rw [if_pos ⟨hon, hne⟩]) rfl, rfl⟩
    · next hon => exact ⟨.other htag rfl (by rw [if_neg fun h => hon h.1, List.append_nil]) rfl, rfl⟩
  | some handler =>
    unfold serialFuncMap at hmap
    split at hmap
    · next h =>
      obtain rfl := Option.some.inj hmap
      exact ⟨.start h rfl rfl rfl, rfl⟩
    split at hmap
    · next h =>
      obtain rfl := Option.some.inj hmap
      exact ⟨.testEnd h rfl rfl rfl, rfl⟩
    split at hmap
    · next h =>
      obtain rfl := Option.some.inj hmap
      exact ⟨.error (.inl h) rfl rfl rfl, rfl⟩
    split at hmap
    · next h =>
      obtain rfl := Option.some.inj hmap
      exact ⟨.error (.inr (.inl h)) rfl rfl rfl, rfl⟩
    split at hmap
    · next h =>
      obtain rfl := Option.some.inj hmap
      exact ⟨.error (.inr (.inr h)) rfl rfl rfl, rfl⟩
    · cases hmap

theorem isTag_nil : isTag [] = false := by decide +kernel

theorem takeLine_handled (line : Text) (now : ℤ) (t : Thread) (sh : Shared) :
    Handled line t.controller sh (takeLine line now t sh).1.controller (takeLine line now t sh).2 ∧
      (takeLine line now t sh).1.controller.loggingOutputFile = t.controller.loggingOutputFile ∧
      (takeLine line now t sh).1.pc = .check := by
  unfold takeLine
  split
  · next hline =>
    refine ⟨.other (hline ▸ isTag_nil) rfl ?_ rfl, rfl, rfl⟩
    rw [if_neg fun h => h.2 hline, List.append_nil]
  · next hline =>
    cases t.firstLine with
    | true =>
      obtain ⟨hhandled, hfile⟩ := dispatch_handled hline now t.controller sh
      exact ⟨hhandled, hfile, rfl⟩
    | false =>
      obtain ⟨hhandled, hfile⟩ :=
        dispatch_handled hline now { t.controller with logBootStartTime := now } sh
      refine ⟨?_, hfile, rfl⟩
      cases hhandled with
      | start hl hon hcontent hsh => exact .start hl hon hcontent hsh
      | testEnd hl hon hset hfiles => exact .testEnd hl hon hset hfiles
      | error hl hon hset hfiles => exact .error hl hon hset hfiles
      | other hl hon hcontent hsh => exact .other hl hon hcontent hsh

theorem Handled.event {line : Text} {c c' : LoggingController} {sh sh' : Shared}
    (h : Handled line c sh c' sh') (hset : sh.eventEndOfTest = true) : sh'.eventEndOfTest = true := by
  cases h with
  | start _ _ _ hsh => rw [hsh, hset]
  | testEnd _ _ h _ => exact h
  | error _ _ h _ => exact h
  | other _ _ _ hsh => rw [hsh, hset]

theorem readLine_own {s s' : State} {i : ℕ} {line : Text} {now : ℤ}
    (h : readLine s i line now = some s') :
    ∃ t, s.logThreads[i]? = some t ∧ t.pc = .reading ∧
      s'.logThreads[i]? = some (takeLine line now t s.shared).1 ∧
      s'.shared = (takeLine line now t s.shared).2 := by
  obtain ⟨u, hu, rfl⟩ := Option.map_eq_some_iff.mp h
  obtain ⟨t, ht, hpc, hnext, hsh⟩ := threadStep_own hu
  exact ⟨t, ht, hpc, hnext, hsh⟩

/-- A step of `main` other than a start leaves the threads as they are. -/
theorem step_main {s s' : State} {e : Event} (he : e = .join ∨ e = .joinTimeout ∨ e = .waitEnd ∨ e = .reset)
    (h : step s e = some s') : s'.logThreads = s.logThreads ∧
      (s.shared.eventEndOfTest = true → s'.shared.eventEndOfTest = true) := by
  rcases he with rfl | rfl | rfl | rfl
  · unfold step joinThread at h
    grind
  · unfold step joinTimeout at h
    grind
  · unfold step waitEnd at h
    grind
  · unfold step resetTestStatus at h
    grind

/-- The steps of the others leave a thread as it is, and only `main` clears
the event. -/
theorem step_other {s s' : State} {i : ℕ} {t : Thread} (ht : s.logThreads[i]? = some t) :
    ∀ {e : Event}, e.thread ≠ some i → (∀ ports, e ≠ .clear ports) → step s e = some s' →
      s'.logThreads[i]? = some t ∧ (s.shared.eventEndOfTest = true → s'.shared.eventEndOfTest = true)
  | .clear ports, _, hclear, _ => absurd rfl (hclear ports)
  | .startThread now, _, _, h => by
    have hlt : i < s.logThreads.length := (List.getElem?_eq_some_iff.mp ht).1
    unfold step startThread at h
    cases hm : s.main with
    | starting ports =>
      rw [hm] at h
      cases ports with
      | nil =>
        obtain rfl := Option.some.inj h
        exact ⟨ht, id⟩
      | cons p ports =>
        obtain rfl := Option.some.inj h
        exact ⟨(List.getElem?_append_left hlt).trans ht, id⟩
    | _ => simp [hm] at h
  | .join, _, _, h =>
    have hmain := step_main (.inl rfl) h
    ⟨by rw [hmain.1, ht], hmain.2⟩
  | .joinTimeout, _, _, h =>
    have hmain := step_main (.inr (.inl rfl)) h
    ⟨by rw [hmain.1, ht], hmain.2⟩
  | .waitEnd, _, _, h =>
    have hmain := step_main (.inr (.inr (.inl rfl))) h
    ⟨by rw [hmain.1, ht], hmain.2⟩
  | .reset, _, _, h =>
    have hmain := step_main (.inr (.inr (.inr rfl))) h
    ⟨by rw [hmain.1, ht], hmain.2⟩
  | .check j, hj, _, h => by
    obtain ⟨u, -, -, -, hsh⟩ := threadStep_own h
    exact ⟨(threadStep_frame h fun hji => hj (congrArg some hji)).trans ht, fun hset => by rw [hsh, hset]⟩
  | .readline j line now, hj, _, h => by
    obtain ⟨u, -, -, -, hsh⟩ := readLine_own h
    obtain ⟨v, hv, hs'⟩ := Option.map_eq_some_iff.mp h
    refine ⟨?_, fun hset => by rw [hsh]; exact (takeLine_handled line now u s.shared).1.event hset⟩
    rw [← hs']
    exact (threadStep_frame hv fun hji => hj (congrArg some hji)).trans ht
  | .readlineRaises j, hj, _, h => by
    obtain ⟨u, -, -, -, hsh⟩ := threadStep_own h
    exact ⟨(threadStep_frame h fun hji => hj (congrArg some hji)).trans ht, fun hset => by rw [hsh, hset]⟩
  | .finish j, hj, _, h => by
    obtain ⟨u, -, -, -, hsh⟩ := threadStep_own h
    refine ⟨(threadStep_frame h fun hji => hj (congrArg some hji)).trans ht, fun hset => ?_⟩
    rw [hsh]
    dsimp only
    split <;> exact hset

/-! ### The invariant -/

/-- A thread that has read no line that ends the test. -/
structure Running (file : Text) (t : Thread) (lines : List Text) (files : List (Text × Text)) : Prop where
  unended : ∀ line ∈ lines, ¬ EndsTest line
  content : t.controller.loggingContent = logged lines
  on : t.controller.loggingStart = true ↔ testStart ∈ lines
  files : files = if t.pc = .done ∧ testStart ∈ lines then [logFile file lines] else []

/-- A thread that has read one; it reads no other. -/
structure Stopped (file : Text) (t : Thread) (event : Bool) (lines : List Text)
    (files : List (Text × Text)) : Prop where
  last : ∃ pre line, lines = pre ++ [line] ∧ EndsTest line ∧ ∀ l ∈ pre, ¬ EndsTest l
  event : event = true
  off : t.controller.loggingStart = false
  pc : t.pc ≠ .reading
  files : files = if testEnd ∈ lines then [logFile file lines] else []

/-- The thread after it has read `lines` and written `files`. -/
def LogInv (file : Text) (t : Thread) (event : Bool) (lines : List Text) (files : List (Text × Text)) :
    Prop :=
  t.controller.loggingOutputFile = file ∧ (Running file t lines files ∨ Stopped file t event lines files)

section
variable {file : Text} {t : Thread} {event : Bool} {lines : List Text} {files : List (Text × Text)}

theorem LogInv.new (port file : Text) (now : ℤ) (event : Bool) :
    LogInv file (newThread port file now) event [] [] :=
  ⟨rfl, .inl
    { unended := fun _ h => absurd h List.not_mem_nil
      content := rfl
      on := by simp [newThread]
      files := by simp }⟩

theorem LogInv.mono (h : LogInv file t event lines files) {event' : Bool}
    (hevent : event = true → event' = true) : LogInv file t event' lines files :=
  ⟨h.1, h.2.imp_right fun hs => { hs with event := hevent hs.event }⟩

/-- The thread goes on to another place, not to read after the end. -/
theorem LogInv.move (h : LogInv file t event lines files) {pc : ThreadPc} (hdone : t.pc ≠ .done)
    (hnext : pc ≠ .done) (hpc : event = true → t.pc ≠ .reading → pc ≠ .reading) :
    LogInv file { t with pc := pc } event lines files := by
  refine ⟨h.1, h.2.imp (fun hr => ?_) fun hs => ?_⟩
  · refine { unended := hr.unended, content := hr.content, on := hr.on, files := ?_ }
    rw [hr.files, if_neg fun hd => hdone hd.1, if_neg fun hd => hnext hd.1]
  · exact { hs with pc := hpc hs.event hs.pc }

/-- The `finally` block writes where the logging is on. -/
theorem LogInv.finish (h : LogInv file t event lines files) (hpc : t.pc = .finally) :
    LogInv file { t with pc := .done } event lines
      (files ++ if t.controller.loggingStart = true then
        [(t.controller.loggingOutputFile, join "\n".toList t.controller.loggingContent)] else []) := by
  obtain ⟨hfile, hr | hs⟩ := h
  · refine ⟨hfile, .inl { unended := hr.unended, content := hr.content, on := hr.on, files := ?_ }⟩
    have hnot : t.pc ≠ .done := by
      rw [hpc]
      decide
    rw [hr.files, if_neg fun hd => hnot hd.1, List.nil_append]
    by_cases hstart : testStart ∈ lines
    · rw [if_pos (hr.on.mpr hstart), if_pos ⟨rfl, hstart⟩, hfile, hr.content, logFile]
    · rw [if_neg fun hon => hstart (hr.on.mp hon), if_neg fun hd => hstart hd.2]
  · refine ⟨hfile, .inr { hs with pc := nofun, files := ?_ }⟩
    rw [if_neg (by rw [hs.off]; exact Bool.false_ne_true), List.append_nil, hs.files]

theorem logged_concat_tag (lines : List Text) {line : Text} (h : isTag line = true) :
    logged (lines ++ [line]) = logged lines := by
  rw [logged_concat, if_neg fun hc => Bool.false_ne_true (hc.2.2.symm.trans h), List.append_nil]

/-- A line is read. -/
theorem LogInv.read (h : LogInv file t event lines files) (hpc : t.pc = .reading) (line : Text) (now : ℤ)
    (sh : Shared) :
    LogInv file (takeLine line now t sh).1 (takeLine line now t sh).2.eventEndOfTest (lines ++ [line])
      (files ++ (takeLine line now t sh).2.files.drop sh.files.length) := by
  obtain ⟨hfile, hr | hs⟩ := h
  swap
  · exact absurd hpc hs.pc
  obtain ⟨hhandled, hfile', hpc'⟩ := takeLine_handled line now t sh
  have hfiles : files = [] := by
    rw [hr.files, if_neg]
    rintro ⟨hd, -⟩
    rw [hpc] at hd
    exact absurd hd (by decide)
  have hnot : (takeLine line now t sh).1.pc ≠ .done := by
    rw [hpc']
    decide
  have hreading : (takeLine line now t sh).1.pc ≠ .reading := by
    rw [hpc']
    decide
  have hmem : ∀ l : Text, l ∈ lines ++ [line] ↔ l ∈ lines ∨ l = line := fun l => by
    rw [List.mem_append, List.mem_singleton]
  refine ⟨hfile'.trans hfile, ?_⟩
  rw [hfiles, List.nil_append]
  cases hhandled with
  | start hline hon hcontent hsh =>
    have htag : isTag line = true := isTag_eq_true.mpr (.inl hline)
    left
    constructor
    · intro l hl
      rcases (hmem l).mp hl with hl | rfl
      · exact hr.unended l hl
      · exact hline ▸ not_endsTest_testStart
    · rw [hcontent, hr.content, logged_concat_tag lines htag]
    · rw [hmem]
      exact iff_of_true hon (.inr hline.symm)
    · rw [hsh, List.drop_length, if_neg fun hd => hnot hd.1]
  | testEnd hline hon hset hwritten =>
    right
    have hends : EndsTest line := .inl hline
    refine ⟨⟨lines, line, rfl, hends, hr.unended⟩, hset, hon, hreading, ?_⟩
    rw [if_pos ((hmem _).mpr (.inr hline.symm)), hwritten, List.drop_left, logFile,
      logged_concat_tag lines (isTag_eq_true.mpr (.inr hends)), hr.content, hfile]
  | error hline hon hset hwritten =>
    right
    refine ⟨⟨lines, line, rfl, .inr hline, hr.unended⟩, hset, hon, hreading, ?_⟩
    have hno : testEnd ∉ lines ++ [line] := fun h => ((hmem _).mp h).elim
      (fun hl => hr.unended _ hl (.inl rfl)) fun hl => not_isError_testEnd (hl ▸ hline)
    rw [if_neg hno, hwritten, List.drop_length]
  | other hline hon hcontent hsh =>
    left
    have hnotag : line ≠ testStart ∧ ¬ EndsTest line := by
      rw [← not_or, ← isTag_eq_true, hline]
      exact Bool.false_ne_true
    constructor
    · intro l hl
      rcases (hmem l).mp hl with hl | rfl
      · exact hr.unended l hl
      · exact hnotag.2
    · rw [hcontent, hr.content, logged_concat]
      simp only [hr.on, hline, and_true]
    · rw [hon, hr.on, hmem, or_iff_left (Ne.symm hnotag.1)]
    · rw [hsh, List.drop_length, if_neg fun hd => hnot hd.1]

end

/-! ### A run of the system -/

section
variable {i : ℕ} {file : Text} {s s' : State} {t : Thread} {lines : List Text} {files : List (Text × Text)}
  {e : Event}

/-- A thread's own step keeps its invariant. -/
theorem LogInv.step_own (ht : s.logThreads[i]? = some t) (h : LogInv file t s.shared.eventEndOfTest lines files)
    (he : e.thread = some i) (hstep : step s e = some s') :
    ∃ t', s'.logThreads[i]? = some t' ∧ LogInv file t' s'.shared.eventEndOfTest
      (lines ++ (e.line i).toList) (files ++ writtenIn i s e) := by
  have hwritten : writtenIn i s e = s'.shared.files.drop s.shared.files.length := by
    rw [writtenIn, if_pos he, hstep]
    rfl
  rw [hwritten]
  cases e with
  | check j =>
    obtain rfl : j = i := Option.some.inj he
    obtain ⟨u, hu, hpc, hnext, hsh⟩ := threadStep_own hstep
    obtain rfl := Option.some.inj (ht.symm.trans hu)
    refine ⟨_, hnext, ?_⟩
    rw [hsh, List.drop_length, List.append_nil]
    show LogInv file _ _ (lines ++ []) files
    rw [List.append_nil]
    refine h.move (by rw [hpc]; decide) (by split <;> decide) fun hset _ => ?_
    rw [if_pos hset]
    decide
  | readline j line now =>
    obtain rfl : j = i := Option.some.inj he
    obtain ⟨u, hu, hpc, hnext, hsh⟩ := readLine_own hstep
    obtain rfl := Option.some.inj (ht.symm.trans hu)
    refine ⟨_, hnext, ?_⟩
    have hline : (Event.readline j line now).line j = some line := if_pos rfl
    rw [hsh, hline]
    exact h.read hpc line now s.shared
  | readlineRaises j =>
    obtain rfl : j = i := Option.some.inj he
    obtain ⟨u, hu, hpc, hnext, hsh⟩ := threadStep_own hstep
    obtain rfl := Option.some.inj (ht.symm.trans hu)
    refine ⟨_, hnext, ?_⟩
    rw [hsh, List.drop_length, List.append_nil]
    show LogInv file _ _ (lines ++ []) files
    rw [List.append_nil]
    exact h.move (by rw [hpc]; decide) (by decide) fun _ hr => absurd hpc hr
  | finish j =>
    obtain rfl : j = i := Option.some.inj he
    obtain ⟨u, hu, hpc, hnext, hsh⟩ := threadStep_own hstep
    obtain rfl := Option.some.inj (ht.symm.trans hu)
    refine ⟨_, hnext, ?_⟩
    have hfinish := h.finish hpc
    show LogInv file _ _ (lines ++ []) _
    rw [hsh, List.append_nil]
    by_cases hon : t.controller.loggingStart = true
    · rw [if_pos hon] at hfinish ⊢
      rw [storeLog, List.drop_left]
      exact hfinish
    · rw [if_neg hon] at hfinish ⊢
      rw [List.drop_length]
      exact hfinish
  | _ => cases he

/-- Every step but the clearing of the event keeps the invariant of a thread. -/
theorem LogInv.step (ht : s.logThreads[i]? = some t) (h : LogInv file t s.shared.eventEndOfTest lines files)
    (hclear : ∀ ports, e ≠ .clear ports) (hstep : step s e = some s') :
    ∃ t', s'.logThreads[i]? = some t' ∧ LogInv file t' s'.shared.eventEndOfTest
      (lines ++ (e.line i).toList) (files ++ writtenIn i s e) := by
  by_cases he : e.thread = some i
  · exact h.step_own ht he hstep
  · have hwritten : writtenIn i s e = [] := if_neg he
    have hline : e.line i = none := by
      cases e with
      | readline j line now => exact if_neg fun hji => he (congrArg some hji)
      | _ => rfl
    obtain ⟨hsame, hmono⟩ := step_other ht he hclear hstep
    refine ⟨t, hsame, ?_⟩
    rw [hwritten, hline, List.append_nil, Option.toList_none, List.append_nil]
    exact h.mono hmono

end

/-- So does a run in which the event is not cleared. -/
theorem LogInv.run {i : ℕ} {port file : Text} {now : ℤ} {s₀ : State}
    (hnew : s₀.logThreads[i]? = some (newThread port file now)) {es : List Event} :
    ∀ {s : State}, (∀ e ∈ es, ∀ ports, e ≠ .clear ports) → es.foldlM TestLogger.step s₀ = some s →
      ∃ t, s.logThreads[i]? = some t ∧
        LogInv file t s.shared.eventEndOfTest (received i es) (written i s₀ es) := by
  induction es using List.reverseRecOn with
  | nil =>
    intro s _ hrun
    obtain rfl := Option.some.inj hrun
    exact ⟨_, hnew, .new port file now _⟩
  | append_singleton es e ih =>
    intro s hclear hrun
    obtain ⟨u, hu, he⟩ := foldlM_concat.mp hrun
    rw [List.forall_mem_append, List.forall_mem_singleton] at hclear
    obtain ⟨t, ht, hinv⟩ := ih hclear.1 hu
    obtain ⟨t', ht', hinv'⟩ := hinv.step ht hclear.2 he
    refine ⟨t', ht', ?_⟩
    have hreceived : received i (es ++ [e]) = received i es ++ (e.line i).toList := by
      rw [received, List.filterMap_append, ← received]
      cases hline : e.line i with
      | none => rw [List.filterMap_cons_none hline]; rfl
      | some line => rw [List.filterMap_cons_some hline]; rfl
    rw [hreceived, written_concat hu]
    exact hinv'

/-- **Main result.** A thread that has returned, in any run of the system
since its start that does not clear the event. After END, which is then the
last line it has read, or with its logging still on, it has written its file
once, with the lines to log. After an error, which is then the last line, or
without START and END, it has written none. -/
theorem log_file {s₀ s : State} {i : ℕ} {port file : Text} {now : ℤ} {es : List Event} {t : Thread}
    (hnew : s₀.logThreads[i]? = some (newThread port file now))
    (hclear : ∀ e ∈ es, ∀ ports, e ≠ .clear ports) (hrun : es.foldlM step s₀ = some s)
    (ht : s.logThreads[i]? = some t) (hdone : t.pc = .done) :
    (∀ line ∈ (received i es).dropLast, ¬ EndsTest line) ∧
    (testEnd ∈ received i es ∨ t.controller.loggingStart = true →
      written i s₀ es = [(file, join "\n".toList (logged (received i es)))]) ∧
    ((∃ line ∈ received i es, IsError line) ∨
      (testStart ∉ received i es ∧ testEnd ∉ received i es) → written i s₀ es = []) := by
  obtain ⟨u, hu, -, hinv⟩ := LogInv.run hnew hclear hrun
  obtain rfl := Option.some.inj (ht.symm.trans hu)
  rcases hinv with hr | hs
  · refine ⟨fun line hline => hr.unended line (List.mem_of_mem_dropLast hline), ?_, ?_⟩
    · rintro (hend | hon)
      · exact absurd (.inl rfl) (hr.unended _ hend)
      · rw [hr.files, if_pos ⟨hdone, hr.on.mp hon⟩, logFile]
    · rintro (⟨line, hline, herror⟩ | ⟨hstart, -⟩)
      · exact absurd (.inr herror) (hr.unended line hline)
      · rw [hr.files, if_neg fun h => hstart h.2]
  · obtain ⟨pre, last, hlines, hlast, hpre⟩ := hs.last
    refine ⟨?_, ?_, ?_⟩
    · rw [hlines, List.dropLast_concat]
      exact hpre
    · rintro (hend | hon)
      · rw [hs.files, if_pos hend, logFile]
      · rw [hs.off] at hon
        exact absurd hon Bool.false_ne_true
    · intro h
      rw [hs.files, if_neg]
      intro hend
      rcases h with ⟨line, hline, herror⟩ | ⟨-, hno⟩
      · -- both would be the last line
        rw [hlines, List.mem_append, List.mem_singleton] at hend hline
        have hlast₁ := hend.resolve_left fun h => hpre _ h (.inl rfl)
        have hlast₂ := hline.resolve_left fun h => hpre _ h (.inr herror)
        exact not_isError_testEnd (hlast₁.trans hlast₂.symm ▸ herror)
      · exact hno hend

/-- A thread that has just started. -/
def loneThread : State :=
  ⟨.starting [], ⟨false, false, [], []⟩, [newThread "ttyA".toList "log".toList 0], [], 0⟩

/-- The port delivers a line before START, two lines and an empty one, and
`main` gives up while the thread waits for the next. -/
def cutRun : List Event :=
  [.startThread 0, .check 0, .readline 0 "boot".toList 1, .check 0, .readline 0 testStart 2, .check 0,
    .readline 0 "cycles: 42".toList 3, .check 0, .readline 0 [] 4, .check 0, .joinTimeout,
    .readline 0 "cycles: 43".toList 5, .check 0, .finish 0]

theorem log_file_cutRun :
    written 0 loneThread cutRun = [("log".toList, "cycles: 42\ncycles: 43".toList)] := by
  have hend : ((cutRun.foldlM step loneThread).bind fun s => s.logThreads[0]?).map
      (fun t => (t.pc, t.controller.loggingStart)) = some (.done, true) := by decide +kernel
  obtain ⟨t, ht, hpair⟩ := Option.map_eq_some_iff.mp hend
  obtain ⟨s, hs, ht⟩ := Option.bind_eq_some_iff.mp ht
  obtain ⟨hdone, hon⟩ := Prod.mk.inj hpair
  have hclear : ∀ e ∈ cutRun, ∀ ports, e ≠ .clear ports := by
    simp [cutRun]
  rw [(@log_file loneThread s 0 _ _ _ cutRun t rfl hclear hs ht hdone).2.1 (.inr hon)]
  decide +kernel

end TestLogger
end DaatMcs
