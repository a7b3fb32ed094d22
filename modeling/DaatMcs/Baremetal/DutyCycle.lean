/-
# The duty-cycle timer under late interrupts

The handler of the intermittent stressor waits for the end of the running
interval, `timer_wait(next_tick - timer_get())`, and arms the timer for the
next one. Every read of the counter is an element of a list of readings that
only grows, and a call takes its readings from the front; a delay is a gap
between two of them.

The difference may underflow, and `timer_wait` adds a reading to it: the two
wraps cancel, because the deadline they stand for is below `2 ^ 64`
(`toNat_deadline`). So the wait ends at the first reading that reaches the
deadline (`timerWait_eq_some_iff`), at once when `next_tick` has passed, in
every invocation of every run (`run_spec`).
-/
import Mathlib.Algebra.Ring.Nat
import Mathlib.Data.List.Basic
import Mathlib.Tactic.Common

namespace DaatMcs
namespace DutyCycle

abbrev Word := BitVec 64

/-! ### The timer -/

/-- `TIME_US` -/
def timeUs (timerFreq us : Word) : Word := timerFreq * us / 1000000#64

/-- `TIME_MS` -/
def timeMs (timerFreq ms : Word) : Word := timeUs timerFreq (ms * 1000#64)

/-- The loop of `timer_wait`: the reading it ends with and those still to come,
`none` while all readings are before the target. -/
def waitUntil (target : Word) : List Word → Option (Word × List Word)
  | [] => none
  | r :: rs => if r < target then waitUntil target rs else some (r, rs)

def timerWait (n : Word) : List Word → Option (Word × List Word)
  | [] => none
  | start :: rs => waitUntil (start + n) rs

/-- What `timer_set` returns: the count it read, or the count it armed the
timer for, as the runtime for Armv8 has it. -/
inductive TimerSet
  | current | armed
  deriving DecidableEq, Repr

/-- The value returned and the value of the compare register. -/
def TimerSet.set (ret : TimerSet) (current n : Word) : Word × Word :=
  match ret with
  | .current => (current, current + n)
  | .armed => (current + n, current + n)

/-! ### The handler -/

/-- `DC_TIMER_INTERVAL_MS` -/
def dcTimerInterval (timerFreq : Word) : Word := timeMs timerFreq 1#64

/-- `DC_CYCLE_COUNT` -/
def dcCycleCount : Word := 4#64

/-- `init_dc_cycle_on_time` -/
def dcCycleOnTime (timerFreq : Word) : List Word :=
  let interval := dcTimerInterval timerFreq
  [20#64 * interval / 100#64, 40#64 * interval / 100#64, 60#64 * interval / 100#64,
    80#64 * interval / 100#64]

/-- The entries of one CPU in `dc_cycle_index`, `current_tick` and `next_tick`,
and the CPU's compare register. -/
structure Cpu where
  dcCycleIndex : Word
  currentTick : Word
  nextTick : Word
  cval : Word
  deriving DecidableEq, Repr

section Run

variable (ret : TimerSet) (timerFreq : Word)

/-- `timer_set` with the on time of `cycleIndex`, and the ticks it leaves;
`none` where `dc_cycle_on_time` has no such entry. -/
def arm (s : Cpu) (cycleIndex : Word) : List Word → Option (Cpu × List Word)
  | [] => none
  | now :: rs => do
    let onTime ← (dcCycleOnTime timerFreq)[cycleIndex.toNat]?
    let (current, cval) := ret.set now onTime
    some ({ s with currentTick := current, nextTick := current + dcTimerInterval timerFreq, cval := cval }, rs)

def duttyCycleTimerHandler (s : Cpu) : List Word → Option (Cpu × List Word)
  | [] => none
  | now :: rs => do
    let (_, rs) ← timerWait (s.nextTick - now) rs
    let cycleIndex := (s.dcCycleIndex + 1#64) % dcCycleCount
    arm ret timerFreq { s with dcCycleIndex := cycleIndex } cycleIndex rs

/-- The arming in `main`. -/
def start (rs : List Word) : Option (Cpu × List Word) :=
  let s : Cpu := ⟨0#64, 0#64, 0#64, 0#64⟩
  arm ret timerFreq s (s.dcCycleIndex % dcCycleCount) rs

/-- The state after `k` invocations of the handler, and the readings still to come. -/
def run (rs : List Word) : ℕ → Option (Cpu × List Word)
  | 0 => start ret timerFreq rs
  | k + 1 => do
    let (s, rest) ← run rs k
    duttyCycleTimerHandler ret timerFreq s rest

end Run

/-- Readings of a counter that only grows and stays below `2 ^ 63`. -/
def Counter (rs : List Word) : Prop :=
  rs.Pairwise (fun a b => a.toNat ≤ b.toNat) ∧ ∀ r ∈ rs, r.toNat < 2 ^ 63

/-! ### The wait -/

/-- The loop ends at the first reading that is not before the target. -/
theorem waitUntil_eq_some_iff {target r : Word} {rs rest : List Word} :
    waitUntil target rs = some (r, rest) ↔
      ∃ pre, rs = pre ++ r :: rest ∧ (∀ p ∈ pre, p.toNat < target.toNat) ∧ target.toNat ≤ r.toNat := by
  induction rs with
  | nil => simp [waitUntil]
  | cons a rs ih =>
    rw [waitUntil]
    by_cases ha : a < target
    · rw [if_pos ha, ih]
      have hlt : a.toNat < target.toNat := BitVec.lt_def.mp ha
      constructor
      · rintro ⟨pre, rfl, hpre, hr⟩
        exact ⟨a :: pre, rfl, List.forall_mem_cons.mpr ⟨hlt, hpre⟩, hr⟩
      · rintro ⟨pre, heq, hpre, hr⟩
        cases pre with
        | nil =>
          rw [List.nil_append, List.cons.injEq] at heq
          rw [heq.1] at hlt
          omega
        | cons p pre =>
          rw [List.cons_append, List.cons.injEq] at heq
          exact ⟨pre, heq.2, (List.forall_mem_cons.mp hpre).2, hr⟩
    · have hle : target.toNat ≤ a.toNat := Nat.le_of_not_lt fun h => ha (BitVec.lt_def.mpr h)
      rw [if_neg ha, Option.some.injEq, Prod.mk.injEq]
      constructor
      · rintro ⟨rfl, rfl⟩
        exact ⟨[], rfl, List.forall_mem_nil _, hle⟩
      · rintro ⟨pre, heq, hpre, hr⟩
        cases pre with
        | nil => exact List.cons.inj heq
        | cons p pre =>
          rw [List.cons_append, List.cons.injEq] at heq
          have hp := (List.forall_mem_cons.mp hpre).1
          rw [← heq.1] at hp
          omega

/-- The two wraps cancel: the target of the wait is the deadline. -/
theorem toNat_deadline {next now begin : Word} (hle : now.toNat ≤ begin.toNat)
    (hlt : next.toNat + (begin.toNat - now.toNat) < 2 ^ 64) :
    (begin + (next - now)).toNat = next.toNat + (begin.toNat - now.toNat) := by
  rw [BitVec.toNat_add, BitVec.toNat_sub]
  omega

theorem timerWait_eq_some_iff {next now begin r : Word} {rs rest : List Word} (hle : now.toNat ≤ begin.toNat)
    (hlt : next.toNat + (begin.toNat - now.toNat) < 2 ^ 64) :
    timerWait (next - now) (begin :: rs) = some (r, rest) ↔
      ∃ pre, rs = pre ++ r :: rest ∧ (∀ p ∈ pre, p.toNat < next.toNat + (begin.toNat - now.toNat)) ∧
        next.toNat + (begin.toNat - now.toNat) ≤ r.toNat := by
  rw [timerWait, waitUntil_eq_some_iff, toNat_deadline hle hlt]

/-! ### Runs -/

theorem Counter.of_append {pre rs : List Word} (h : Counter (pre ++ rs)) : Counter rs :=
  ⟨(List.pairwise_append.mp h.1).2.1, fun r hr => h.2 r (List.mem_append_right pre hr)⟩

/-- What holds between two invocations: the last reading is not after those to
come, and the next tick is not far behind it. -/
structure Inv (timerFreq : Word) (s : Cpu) (rest : List Word) : Prop where
  index : s.dcCycleIndex.toNat < dcCycleCount.toNat
  interval : s.nextTick - s.currentTick = dcTimerInterval timerFreq
  counter : Counter rest
  next : ∃ last < 2 ^ 63, (∀ r ∈ rest, last ≤ r.toNat) ∧ s.nextTick.toNat ≤ last + 2 ^ 59

theorem dcTimerInterval_lt (timerFreq : Word) : (dcTimerInterval timerFreq).toNat < 2 ^ 45 := by
  unfold dcTimerInterval timeMs timeUs
  rw [BitVec.toNat_udiv]
  exact Nat.div_lt_of_lt_mul (Nat.lt_of_lt_of_le (BitVec.isLt _) (by decide))

theorem onTime_lt {timerFreq onTime : Word} (h : onTime ∈ dcCycleOnTime timerFreq) :
    onTime.toNat < 2 ^ 58 := by
  have hdiv : ∀ x : Word, (x / 100#64).toNat < 2 ^ 58 := by
    intro x
    rw [BitVec.toNat_udiv]
    exact Nat.div_lt_of_lt_mul (Nat.lt_of_lt_of_le x.isLt (by decide))
  simp only [dcCycleOnTime, List.mem_cons, List.not_mem_nil, or_false] at h
  rcases h with rfl | rfl | rfl | rfl
  all_goals exact hdiv _

section Invariant

variable {ret : TimerSet} {timerFreq : Word}

/-- The on times are there for every index below the count. -/
theorem arm_returns {index : Word} (hindex : index.toNat < dcCycleCount.toNat) (s : Cpu) (now : Word)
    (rs : List Word) : ∃ onTime, (dcCycleOnTime timerFreq)[index.toNat]? = some onTime ∧
      arm ret timerFreq s index (now :: rs) = some ({ s with
        currentTick := (ret.set now onTime).1
        nextTick := (ret.set now onTime).1 + dcTimerInterval timerFreq
        cval := (ret.set now onTime).2 }, rs) := by
  have hlt : index.toNat < (dcCycleOnTime timerFreq).length := hindex
  refine ⟨_, List.getElem?_eq_getElem hlt, ?_⟩
  unfold arm
  rw [List.getElem?_eq_getElem hlt]
  rfl

theorem arm_inv {s s' : Cpu} {index : Word} {rs rest : List Word} (hrs : Counter rs)
    (hindex : s.dcCycleIndex.toNat < dcCycleCount.toNat)
    (h : arm ret timerFreq s index rs = some (s', rest)) : Inv timerFreq s' rest := by
  cases rs with
  | nil => cases h
  | cons now rs =>
    unfold arm at h
    obtain ⟨onTime, honTime, h⟩ := Option.bind_eq_some_iff.mp h
    have hon := onTime_lt (List.mem_of_getElem? honTime)
    have hinterval := dcTimerInterval_lt timerFreq
    have hnow : now.toNat < 2 ^ 63 := hrs.2 now List.mem_cons_self
    obtain ⟨rfl, rfl⟩ := Prod.mk.inj (Option.some.inj h)
    have hsub : ∀ c : Word, c + dcTimerInterval timerFreq - c = dcTimerInterval timerFreq := fun c => by
      rw [BitVec.add_comm, BitVec.add_sub_cancel]
    refine ⟨hindex, hsub _, Counter.of_append (show Counter ([now] ++ rs) from hrs), now.toNat, hnow, ?_, ?_⟩
    · exact fun r hr => (List.pairwise_cons.mp hrs.1).1 r hr
    · cases ret with
      | current =>
        show (now + dcTimerInterval timerFreq).toNat ≤ _
        rw [BitVec.toNat_add]
        omega
      | armed =>
        show (now + onTime + dcTimerInterval timerFreq).toNat ≤ _
        rw [BitVec.toNat_add, BitVec.toNat_add]
        omega

theorem handler_cons (s : Cpu) (now : Word) (rs : List Word) :
    duttyCycleTimerHandler ret timerFreq s (now :: rs) =
      (timerWait (s.nextTick - now) rs).bind fun p =>
        arm ret timerFreq { s with dcCycleIndex := (s.dcCycleIndex + 1#64) % dcCycleCount }
          ((s.dcCycleIndex + 1#64) % dcCycleCount) p.2 := rfl

theorem nextIndex_lt (index : Word) : ((index + 1#64) % dcCycleCount).toNat < dcCycleCount.toNat := by
  rw [BitVec.toNat_umod]
  exact Nat.mod_lt _ (by decide)

theorem handler_inv {s s' : Cpu} {rs rest : List Word} (hs : Inv timerFreq s rs)
    (h : duttyCycleTimerHandler ret timerFreq s rs = some (s', rest)) : Inv timerFreq s' rest := by
  cases rs with
  | nil => cases h
  | cons now rs =>
    rw [handler_cons] at h
    obtain ⟨⟨r, rs'⟩, hwait, harm⟩ := Option.bind_eq_some_iff.mp h
    cases rs with
    | nil => cases hwait
    | cons begin rs =>
      rw [timerWait, waitUntil_eq_some_iff] at hwait
      obtain ⟨pre, rfl, -⟩ := hwait
      have hcounter : Counter rs' := by
        have hcons : now :: begin :: (pre ++ r :: rs') = (now :: begin :: pre ++ [r]) ++ rs' := by simp
        exact (hcons ▸ hs.counter).of_append
      exact arm_inv hcounter (nextIndex_lt s.dcCycleIndex) harm

theorem run_inv {rs : List Word} (hrs : Counter rs) {k : ℕ} {s : Cpu} {rest : List Word}
    (h : run ret timerFreq rs k = some (s, rest)) : Inv timerFreq s rest := by
  induction k generalizing s rest with
  | zero => exact arm_inv hrs (by decide) h
  | succ k ih =>
    obtain ⟨⟨s', rest'⟩, hrun, h⟩ := Option.bind_eq_some_iff.mp h
    exact handler_inv (ih hrun) h

/-- The deadline of the wait does not overflow. -/
theorem Inv.deadline_lt {s : Cpu} {now begin : Word} {rs : List Word}
    (h : Inv timerFreq s (now :: begin :: rs)) :
    now.toNat ≤ begin.toNat ∧ s.nextTick.toNat + (begin.toNat - now.toNat) < 2 ^ 64 := by
  obtain ⟨last, hlast, hrest, hnext⟩ := h.next
  have hnow : last ≤ now.toNat := hrest now List.mem_cons_self
  have hle : now.toNat ≤ begin.toNat := (List.pairwise_cons.mp h.counter.1).1 begin List.mem_cons_self
  have hbegin : begin.toNat < 2 ^ 63 := h.counter.2 begin (by simp)
  omega

end Invariant

/-- **Main result.** After the arming and any number of invocations, however
late each of them starts: the cycle index is in range and the ticks are one
interval apart; the wait of the next invocation ends at the first reading not
before its deadline, at once when the next tick has passed; and with one more
reading, that of `timer_set`, the invocation returns, with the next index and
the ticks from what `timer_set` returned. -/
theorem run_spec (ret : TimerSet) (timerFreq : Word) {rs : List Word} (hrs : Counter rs) {k : ℕ} {s : Cpu}
    {rest : List Word} (hrun : run ret timerFreq rs k = some (s, rest)) :
    s.dcCycleIndex.toNat < dcCycleCount.toNat ∧
    s.nextTick - s.currentTick = dcTimerInterval timerFreq ∧
    ∀ now begin later, rest = now :: begin :: later →
      (∀ r left, timerWait (s.nextTick - now) (begin :: later) = some (r, left) ↔
        ∃ pre, later = pre ++ r :: left ∧
          (∀ p ∈ pre, p.toNat < s.nextTick.toNat + (begin.toNat - now.toNat)) ∧
          s.nextTick.toNat + (begin.toNat - now.toNat) ≤ r.toNat) ∧
      (s.nextTick.toNat ≤ now.toNat → ∀ r left, later = r :: left →
        timerWait (s.nextTick - now) (begin :: later) = some (r, left)) ∧
      ∀ r set left, timerWait (s.nextTick - now) (begin :: later) = some (r, set :: left) →
        ∃ onTime, (dcCycleOnTime timerFreq)[((s.dcCycleIndex + 1#64) % dcCycleCount).toNat]? = some onTime ∧
          duttyCycleTimerHandler ret timerFreq s rest = some
            ({ dcCycleIndex := (s.dcCycleIndex + 1#64) % dcCycleCount
               currentTick := (ret.set set onTime).1
               nextTick := (ret.set set onTime).1 + dcTimerInterval timerFreq
               cval := (ret.set set onTime).2 }, left) := by
  have hinv := run_inv hrs hrun
  refine ⟨hinv.index, hinv.interval, ?_⟩
  rintro now begin later rfl
  obtain ⟨hle, hlt⟩ := hinv.deadline_lt
  refine ⟨fun r left => timerWait_eq_some_iff hle hlt, ?_, ?_⟩
  · rintro hlate r left rfl
    have hr : begin.toNat ≤ r.toNat :=
      (List.pairwise_cons.mp (List.pairwise_cons.mp hinv.counter.1).2).1 r List.mem_cons_self
    rw [timerWait_eq_some_iff hle hlt]
    exact ⟨[], rfl, List.forall_mem_nil _, by omega⟩
  · intro r set left hwait
    rw [handler_cons, hwait]
    exact arm_returns (nextIndex_lt s.dcCycleIndex) _ set left

/-- One late invocation at 100 MHz: the counter is at 300 000 when it starts,
long after the tick at 100 007, so it waits for one reading and arms with the
next. -/
theorem run_spec_late :
    ∃ s, run .current 100000000#64 [7#64, 300000#64, 300001#64, 300002#64, 300003#64] 0 =
        some (s, [300000#64, 300001#64, 300002#64, 300003#64]) ∧
      s.nextTick = 100007#64 ∧
      timerWait (s.nextTick - 300000#64) [300001#64, 300002#64, 300003#64] = some (300002#64, [300003#64]) ∧
      duttyCycleTimerHandler .current 100000000#64 s [300000#64, 300001#64, 300002#64, 300003#64] =
        some (⟨1#64, 300003#64, 400003#64, 340003#64⟩, []) := by
  have hcounter : Counter [7#64, 300000#64, 300001#64, 300002#64, 300003#64] := by
    simp [Counter]
  have hrun : run .current 100000000#64 [7#64, 300000#64, 300001#64, 300002#64, 300003#64] 0 =
      some (⟨0#64, 7#64, 100007#64, 20007#64⟩, [300000#64, 300001#64, 300002#64, 300003#64]) := by decide
  obtain ⟨-, -, hnext⟩ := run_spec .current 100000000#64 hcounter hrun
  obtain ⟨-, hlate, hreturns⟩ := hnext _ _ _ rfl
  have hwait := hlate (by decide) _ _ rfl
  obtain ⟨onTime, honTime, hhandler⟩ := hreturns _ _ _ hwait
  obtain rfl : 40000#64 = onTime := Option.some.inj (honTime.symm.trans (by decide)).symm
  exact ⟨_, hrun, rfl, hwait, hhandler⟩

end DutyCycle
end DaatMcs
