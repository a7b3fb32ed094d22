/-
# The spinlock of the runtime

`spin_lock` for Armv8: an exclusive load, retried while the lock is taken,
and an exclusive store, which succeeds only while the CPU still holds the
monitor the load gave it. A store to the lock word by any CPU takes all the
monitors, and a CPU may lose its monitor at any time, so that its store
fails without a reason.

Any number of CPUs run sections under one lock, their accesses in any order.
No two are ever inside at once (`mutual_exclusion`), what the CPUs reach with
the lock free is what they would reach if each section were one step
(`reaches_free_iff`), and no state they reach is a deadlock (`can_finish`).
-/
import DaatMcs.Lib.Mutex
import Mathlib.Algebra.BigOperators.Group.Finset.Basic
import Mathlib.Algebra.Order.BigOperators.Group.Finset

namespace DaatMcs
namespace Spinlock

open Steps Mutex

/-- Where a CPU stands: `outside` is at its next item, with a section there
at the `ldaxr` of `spin_lock`; `stxr` has read the lock word as 0; `inside`
has the steps `left` before its `spin_unlock`. -/
inductive Pc (σ α : Type*)
  | outside
  | stxr
  | inside (left : Body σ α)

/-- `SPINLOCK_INITVAL` -/
def spinlockInitval : UInt32 := 0

structure Cpus (κ σ α : Type*) extends State κ σ α where
  lock : UInt32
  monitor : κ → Bool
  pc : κ → Pc σ α

variable {κ σ α : Type*}

/-- A store to the lock word. -/
def Cpus.store (s : Cpus κ σ α) (v : UInt32) : Cpus κ σ α := { s with lock := v, monitor := fun _ => false }

@[simp] theorem Cpus.store_toState (s : Cpus κ σ α) (v : UInt32) : (s.store v).toState = s.toState := rfl
@[simp] theorem Cpus.store_lock (s : Cpus κ σ α) (v : UInt32) : (s.store v).lock = v := rfl
@[simp] theorem Cpus.store_monitor (s : Cpus κ σ α) (v : UInt32) (k : κ) : (s.store v).monitor k = false := rfl
@[simp] theorem Cpus.store_pc (s : Cpus κ σ α) (v : UInt32) : (s.store v).pc = s.pc := rfl

variable [DecidableEq κ]

def Cpus.goto (s : Cpus κ σ α) (k : κ) (p : Pc σ α) : Cpus κ σ α := { s with pc := Function.update s.pc k p }

@[simp] theorem Cpus.goto_toState (s : Cpus κ σ α) (k : κ) (p : Pc σ α) : (s.goto k p).toState = s.toState := rfl
@[simp] theorem Cpus.goto_lock (s : Cpus κ σ α) (k : κ) (p : Pc σ α) : (s.goto k p).lock = s.lock := rfl
@[simp] theorem Cpus.goto_monitor (s : Cpus κ σ α) (k : κ) (p : Pc σ α) :
    (s.goto k p).monitor = s.monitor := rfl
@[simp] theorem Cpus.goto_pc (s : Cpus κ σ α) (k : κ) (p : Pc σ α) :
    (s.goto k p).pc = Function.update s.pc k p := rfl

/-- The CPU takes its next access, or loses its monitor. -/
inductive Event (κ : Type*)
  | cpu (k : κ)
  | lose (k : κ)
  deriving DecidableEq, Repr

/-- `ldaxr` and the branch on what it read. -/
def ldaxr (s : Cpus κ σ α) (k : κ) : Cpus κ σ α :=
  { s with monitor := Function.update s.monitor k true }.goto k (if s.lock = 0 then .stxr else .outside)

/-- `stxr` and the branch on its status. -/
def stxr (s : Cpus κ σ α) (k : κ) (b : Body σ α) (is : List (Item σ α)) : Cpus κ σ α :=
  if s.monitor k then { (s.store 1).goto k (.inside b) with toState := s.next k is }
  else s.goto k .outside

/-- `stlr`, the whole of `spin_unlock`. -/
def stlr (s : Cpus κ σ α) (k : κ) : Cpus κ σ α := (s.store 0).goto k .outside

def step (s : Cpus κ σ α) : Event κ → Option (Cpus κ σ α)
  | .lose k => some { s with monitor := Function.update s.monitor k false }
  | .cpu k =>
    match s.pc k, s.todo k with
    | .outside, .critical _ :: _ => some (ldaxr s k)
    | .outside, .peek f :: is => some { s with toState := (s.next k is).set k (s.shared, f s.shared (s.own k)) }
    | .stxr, .critical b :: is => some (stxr s k b is)
    | .inside (f :: left), _ =>
      some { s.goto k (.inside left) with toState := s.set k (f (s.shared, s.own k)) }
    | .inside [], _ => some (stlr s k)
    | _, _ => none

/-- The lock is free and every CPU is before its first item. -/
structure Initial (s : Cpus κ σ α) : Prop where
  lock : s.lock = spinlockInitval
  pc : ∀ k, s.pc k = .outside

/-- The CPU is between its `spin_lock` and its `spin_unlock`. -/
def Inside (s : Cpus κ σ α) (k : κ) : Prop := ∃ left, s.pc k = .inside left

/-! ### The lock as one open section -/

/-- The lock word says whether a section is open, and a monitor held at the
`stxr` that the word is still 0. -/
structure Holds (s : Cpus κ σ α) (l : Locked κ σ α) : Prop where
  toState : l.toState = s.toState
  inside : ∀ k left, s.pc k = .inside left ↔ l.inside = some (k, left)
  lock : s.lock = 0 ↔ l.inside = none
  monitor : ∀ k, s.pc k = .stxr → s.monitor k = true → s.lock = 0

omit [DecidableEq κ] in
theorem holds_initial {s : Cpus κ σ α} (h : Initial s) : Holds s ⟨s.toState, none⟩ where
  toState := rfl
  inside k left := by simp [h.pc k]
  lock := by simp [h.lock, spinlockInitval]
  monitor k hk := by simp [h.pc k] at hk

/-- A CPU goes somewhere outside of its sections. -/
theorem Holds.goto {s : Cpus κ σ α} {l : Locked κ σ α} (h : Holds s l) {k : κ} {p : Pc σ α}
    (hk : ¬ Inside s k) (hp : ∀ left, p ≠ .inside left)
    (hmon : p = .stxr → s.monitor k = true → s.lock = 0) : Holds (s.goto k p) l where
  toState := h.toState
  inside j left := by
    by_cases hj : j = k
    · subst hj
      have hno : l.inside ≠ some (j, left) := fun hl => hk ⟨left, (h.inside j left).mpr hl⟩
      simp [hp left, hno]
    · simp only [Cpus.goto_pc, Function.update_of_ne hj]
      exact h.inside j left
  lock := h.lock
  monitor j hj hm := by
    by_cases hjk : j = k
    · subst hjk
      exact hmon (by simpa using hj) hm
    · exact h.monitor j (by simpa [Function.update_of_ne hjk] using hj) hm

/-- A CPU that is not at its `stxr` may gain or lose its monitor. -/
theorem Holds.setMonitor {s : Cpus κ σ α} {l : Locked κ σ α} (h : Holds s l) {k : κ} {v : Bool}
    (hv : v = true → s.pc k ≠ .stxr) : Holds { s with monitor := Function.update s.monitor k v } l where
  toState := h.toState
  inside := h.inside
  lock := h.lock
  monitor j hj hm := by
    by_cases hjk : j = k
    · subst hjk
      exact absurd hj (hv (by simpa using hm))
    · exact h.monitor j hj (by simpa [Function.update_of_ne hjk] using hm)

/-- The open section is opened, moves on or is closed: the CPU's place and the
open section change together, and no other CPU is inside. -/
theorem holds_move {s t : Cpus κ σ α} {k : κ} {p : Pc σ α} {section' : Option (κ × Body σ α)}
    (hpc : t.pc = Function.update s.pc k p) (hothers : ∀ j, j ≠ k → ¬ Inside s j)
    (hp : ∀ left, p = .inside left ↔ section' = some (k, left))
    (hne : ∀ j left, section' = some (j, left) → j = k) (hlock : t.lock = 0 ↔ section' = none)
    (hmon : ∀ j, t.pc j = .stxr → t.monitor j = true → t.lock = 0) : Holds t ⟨t.toState, section'⟩ where
  toState := rfl
  inside j left := by
    by_cases hj : j = k
    · subst hj
      rw [hpc, Function.update_self]
      exact hp left
    · have hno : ¬ s.pc j = .inside left := fun hpc => hothers j hj ⟨left, hpc⟩
      have hno' : section' ≠ some (j, left) := fun ho => hj (hne j left ho)
      rw [hpc, Function.update_of_ne hj]
      simp [hno, hno']
  lock := hlock
  monitor := hmon

omit [DecidableEq κ] in
/-- Two CPUs inside would both be the one with the open section. -/
theorem Holds.unique {s : Cpus κ σ α} {l : Locked κ σ α} (h : Holds s l) {j k : κ}
    (hj : Inside s j) (hk : Inside s k) : j = k := by
  obtain ⟨left, hj⟩ := hj
  obtain ⟨left', hk⟩ := hk
  have heq := (h.inside j left).mp hj
  rw [(h.inside k left').mp hk, Option.some.injEq, Prod.mk.injEq] at heq
  exact heq.1.symm

/-- Whatever the CPUs do, threads with one open section follow. -/
theorem simulates_locked : Simulates step locked (Holds (κ := κ) (σ := σ) (α := α)) := by
  rintro s ⟨m, open'⟩ (k | k) t hR he
  · obtain rfl : m = s.toState := hR.toState
    simp only [step] at he
    split at he <;> try cases he
    · next hpc htodo =>
      have hout : ¬ Inside s k := by simp [Inside, hpc]
      refine ⟨_, .refl _, (hR.setMonitor (k := k) (v := true) (by simp [hpc])).goto hout ?_ ?_⟩
      · intro left
        split <;> simp
      · intro hp _
        by_contra hlock
        simp [show s.lock ≠ 0 from hlock] at hp
    · next f is hpc htodo =>
      have hany : open'.any (·.1 = k) = false := by
        rcases open' with _ | ⟨j, left⟩
        · rfl
        · have hj : s.pc j = .inside left := (hR.inside j left).mpr rfl
          have hjk : j ≠ k := by
            rintro rfl
            simp [hpc] at hj
          simp [hjk]
      refine ⟨⟨_, open'⟩, .single (e := .peek k) ?_, ⟨rfl, hR.inside, hR.lock, hR.monitor⟩⟩
      simp [locked, htodo, hany]
    · next b is hpc htodo =>
      unfold stxr
      split
      · next hm =>
        -- the monitor is still held: nobody is inside
        have hopen : open' = none := hR.lock.mp (hR.monitor k hpc hm)
        subst hopen
        refine ⟨⟨s.next k is, some (k, b)⟩, .single (e := .enter k) (by simp only [locked, htodo]), ?_⟩
        refine holds_move (k := k) (p := .inside b) rfl ?_ (by simp) (by simp [eq_comm])
          (by simp) (by simp)
        rintro j - ⟨left, hj⟩
        simpa using (hR.inside j left).mp hj
      · have hout : ¬ Inside s k := by simp [Inside, hpc]
        exact ⟨_, .refl _, hR.goto hout (by simp) (by simp)⟩
    · next f left hpc =>
      have hin : open' = some (k, f :: left) := (hR.inside k _).mp hpc
      subst hin
      have hk : Inside s k := ⟨_, hpc⟩
      refine ⟨⟨s.set k (f (s.shared, s.own k)), some (k, left)⟩, .single (e := .work) rfl, ?_⟩
      refine holds_move (k := k) (p := .inside left) rfl (fun j hj hjin => hj (hR.unique hjin hk))
        (by simp) (by simp [eq_comm]) (by simpa using hR.lock) ?_
      intro j hj hm
      by_cases hjk : j = k
      · subst hjk
        simp at hj
      · exact hR.monitor j (by simpa [Function.update_of_ne hjk] using hj) hm
    · next hpc =>
      have hin : open' = some (k, []) := (hR.inside k _).mp hpc
      subst hin
      have hk : Inside s k := ⟨_, hpc⟩
      refine ⟨⟨s.toState, none⟩, .single (e := .leave) rfl, ?_⟩
      exact holds_move (k := k) (p := .outside) rfl (fun j hj hjin => hj (hR.unique hjin hk))
        (by simp) (by simp) (by simp [stlr]) (by simp [stlr])
  · cases he
    exact ⟨_, .refl _, hR.setMonitor (by simp)⟩

theorem inside_unique {s t : Cpus κ σ α} (hs : Initial s) (ht : Reaches step s t) {j k : κ} (hj : Inside t j)
    (hk : Inside t k) : j = k := by
  obtain ⟨l, -, hR⟩ := simulates_locked.reaches (holds_initial hs) ht
  exact hR.unique hj hk

theorem lock_eq_zero_iff {s t : Cpus κ σ α} (hs : Initial s) (ht : Reaches step s t) :
    t.lock = 0 ↔ ∀ k, ¬ Inside t k := by
  obtain ⟨l, -, hR⟩ := simulates_locked.reaches (holds_initial hs) ht
  refine hR.lock.trans ?_
  constructor
  · rintro hnone k ⟨left, hk⟩
    simpa [hnone] using (hR.inside k left).mp hk
  · intro hno
    cases hl : l.inside with
    | none => rfl
    | some x => exact absurd ⟨x.2, (hR.inside x.1 x.2).mpr hl⟩ (hno x.1)

/-- **Mutual exclusion**: in no reachable state are two CPUs inside, and the
lock word is 0 exactly when none is. -/
theorem mutual_exclusion {s t : Cpus κ σ α} (hs : Initial s) (ht : Reaches step s t) :
    (∀ j k, Inside t j → Inside t k → j = k) ∧ (t.lock = 0 ↔ ∀ k, ¬ Inside t k) :=
  ⟨fun _ _ => inside_unique hs ht, lock_eq_zero_iff hs ht⟩

/-- Whenever the lock is free, the CPUs stand where they would if every item
were run at once. -/
theorem reaches_atomic {s t : Cpus κ σ α} (hs : Initial s) (ht : Reaches step s t)
    (hitems : s.Todo Item.Critical ∨ s.Todo Item.CommitsLast) (hlock : t.lock = 0) :
    Reaches atomic s.toState t.toState := by
  obtain ⟨l, hl, hR⟩ := simulates_locked.reaches (holds_initial hs) ht
  have hopen : l.inside = none := hR.lock.mp hlock
  rcases hitems with h | h
  · obtain ⟨a, ha, -, rfl⟩ := simulates_finish.reaches (a := s.toState) ⟨h, rfl⟩ hl
    rw [← hR.toState]
    simpa [Locked.finish, hopen] using ha
  · obtain ⟨a, ha, -, hun⟩ := simulates_commit.reaches (a := s.toState) ⟨h, .closed rfl rfl⟩ hl
    cases hun with
    | closed _ heq => rwa [heq, hR.toState] at ha
    | committed hin => simp [hopen] at hin
    | pending _ _ hin => simp [hopen] at hin

/-- Two CPUs that each add 1 under the lock. -/
def adders : Cpus Bool ℕ Unit :=
  ⟨⟨0, fun _ => (), fun _ => [.critical [fun x => (x.1 + 1, x.2)]]⟩, spinlockInitval, fun _ => false,
    fun _ => .outside⟩

theorem adders_initial : Initial adders := ⟨rfl, fun _ => rfl⟩

theorem mutual_exclusion_adders : ∃ t, Reaches step adders t ∧ Inside t true ∧ ¬ Inside t false := by
  have ht : Reaches step adders (stxr (ldaxr adders true) true [fun x => (x.1 + 1, x.2)] []) :=
    ⟨[.cpu true, .cpu true], rfl⟩
  have hin : Inside (stxr (ldaxr adders true) true [fun x => (x.1 + 1, x.2)] []) true := ⟨_, rfl⟩
  exact ⟨_, ht, hin, fun hfalse => by simpa using (mutual_exclusion adders_initial ht).1 _ _ hin hfalse⟩

/-! ### Getting through -/

/-- A CPU at its `stxr` is about to enter a section. -/
def Waits (s : Cpus κ σ α) : Prop := ∀ k, s.pc k = .stxr → ∃ b is, s.todo k = .critical b :: is

theorem Waits.step {s t : Cpus κ σ α} {e : Event κ} (h : Waits s) (he : step s e = some t) : Waits t := by
  rcases e with k | k
  · intro j hj
    simp only [Spinlock.step] at he
    by_cases hjk : j = k
    · subst hjk
      split at he <;> try cases he
      · next b is hpc htodo => exact ⟨b, is, htodo⟩
      · next hpc htodo => simp [hpc] at hj
      · next hpc htodo =>
        unfold stxr at hj
        split at hj <;> simp at hj
      · simp at hj
      · simp [stlr] at hj
    · have hkeep : t.pc j = s.pc j ∧ t.todo j = s.todo j := by
        split at he <;> try cases he
        · simp [ldaxr, Function.update_of_ne hjk]
        · simp [Function.update_of_ne hjk]
        · unfold stxr
          split <;> simp [Function.update_of_ne hjk]
        · simp [Function.update_of_ne hjk]
        · simp [stlr, Function.update_of_ne hjk]
      rw [hkeep.2]
      exact h j (hkeep.1 ▸ hj)
  · cases he
    exact h

/-- The CPU inside leaves, if only it moves. -/
theorem reaches_leave {s : Cpus κ σ α} {k : κ} {left : Body σ α} (hk : s.pc k = .inside left) :
    ∃ u, Reaches step s u ∧ u.lock = 0 ∧ u.toState = s.set k (left.run (s.shared, s.own k)) := by
  induction left generalizing s with
  | nil =>
    have hstep : step s (.cpu k) = some (stlr s k) := by simp only [step, hk]
    exact ⟨_, .single hstep, by simp [stlr], by simp [stlr, State.set_self]⟩
  | cons f left ih =>
    have hstep : step s (.cpu k) =
        some { s.goto k (.inside left) with toState := s.set k (f (s.shared, s.own k)) } := by
      simp only [step, hk]
    obtain ⟨u, hu, hlock, hstate⟩ := @ih
      { s.goto k (.inside left) with toState := s.set k (f (s.shared, s.own k)) } (by simp)
    refine ⟨u, (Reaches.single hstep).trans hu, hlock, ?_⟩
    rw [hstate]
    simp [State.set_set]

/-- A CPU that waits for the free lock fails once and is outside again. -/
theorem reaches_outside {s : Cpus κ σ α} (hw : Waits s) {k : κ} (hk : ¬ Inside s k) :
    ∃ u, Reaches step s u ∧ u.lock = s.lock ∧ u.toState = s.toState ∧ u.pc k = .outside := by
  cases hpc : s.pc k with
  | outside => exact ⟨s, .refl s, rfl, rfl, hpc⟩
  | stxr =>
    obtain ⟨b, is, htodo⟩ := hw k hpc
    let s' : Cpus κ σ α := { s with monitor := Function.update s.monitor k false }
    have hrun : [.lose k, .cpu k].foldlM step s = some (s'.goto k .outside) := by
      simp [s', step, hpc, htodo, stxr]
    exact ⟨s'.goto k .outside, ⟨_, hrun⟩, rfl, rfl, by simp⟩
  | inside left => exact absurd ⟨left, hpc⟩ hk

/-- With the lock free, a CPU gets through its next item as if at once. -/
theorem reaches_item {s : Cpus κ σ α} (hw : Waits s) (hlock : s.lock = 0) {k : κ} (hk : ¬ Inside s k)
    {a : State κ σ α} (ha : atomic s.toState k = some a) :
    ∃ u, Reaches step s u ∧ u.lock = 0 ∧ u.toState = a := by
  obtain ⟨t, ht, htlock, hstate, hpc⟩ := reaches_outside hw hk
  cases htodo : t.todo k with
  | nil =>
    rw [← hstate] at ha
    simp [atomic, htodo] at ha
  | cons i is =>
    rw [← hstate, atomic_of_todo htodo, Option.some.injEq] at ha
    subst ha
    cases i with
    | peek f =>
      have hstep : step t (.cpu k) =
          some { t with toState := (t.next k is).set k (t.shared, f t.shared (t.own k)) } := by
        simp only [step, hpc, htodo]
      exact ⟨_, ht.trans (.single hstep), htlock.trans hlock, rfl⟩
    | critical b =>
      have hload : step t (.cpu k) = some (ldaxr t k) := by simp only [step, hpc, htodo]
      have hstore : step (ldaxr t k) (.cpu k) = some (stxr (ldaxr t k) k b is) := by
        simp [step, ldaxr, htlock, hlock, htodo]
      have hin : (stxr (ldaxr t k) k b is).pc k = .inside b := by simp [stxr, ldaxr]
      obtain ⟨u, hu, hulock, hustate⟩ := reaches_leave hin
      refine ⟨u, ht.trans ((Reaches.single hload).trans ((Reaches.single hstore).trans hu)), hulock, ?_⟩
      rw [hustate]
      simp [stxr, ldaxr, Item.run]

theorem waits_of_reaches {s t : Cpus κ σ α} (hs : Initial s) (ht : Reaches step s t) : Waits t :=
  ht.inv (fun _ _ _ h he => h.step he) fun k hk => by simp [hs.pc k] at hk

/-- What the items reach one after the other the CPUs reach, each item run
through by its CPU alone. -/
theorem reaches_of_atomic {s : Cpus κ σ α} (hs : Initial s) {a : State κ σ α} (ha : Reaches atomic s.toState a) :
    ∃ t, Reaches step s t ∧ t.lock = 0 ∧ t.toState = a := by
  refine ha.inv (I := fun a => ∃ t, Reaches step s t ∧ t.lock = 0 ∧ t.toState = a) ?_
    ⟨s, .refl s, hs.lock, rfl⟩
  rintro b k c ⟨t, ht, hlock, rfl⟩ hc
  obtain ⟨u, hu, hulock, hustate⟩ :=
    reaches_item (waits_of_reaches hs ht) hlock ((lock_eq_zero_iff hs ht).mp hlock k) hc
  exact ⟨u, ht.trans hu, hulock, hustate⟩

/-- **Sections are atomic**: the states the CPUs reach with the lock free are
those they would reach if every item were run at once, provided the items
are all sections, or the sections all commit in their last step. -/
theorem reaches_free_iff {s : Cpus κ σ α} (hs : Initial s)
    (hitems : s.Todo Item.Critical ∨ s.Todo Item.CommitsLast) (a : State κ σ α) :
    (∃ t, Reaches step s t ∧ t.lock = 0 ∧ t.toState = a) ↔ Reaches atomic s.toState a := by
  constructor
  · rintro ⟨t, ht, hlock, rfl⟩
    exact reaches_atomic hs ht hitems hlock
  · exact reaches_of_atomic hs

theorem reaches_free_adders : ∃ t, Reaches step adders t ∧ t.lock = 0 ∧ t.shared = 2 := by
  have hcritical : adders.Todo Item.Critical := by
    intro k i hi
    obtain rfl := List.mem_singleton.mp hi
    trivial
  obtain ⟨t, ht, hlock, hstate⟩ :=
    (reaches_free_iff adders_initial (.inl hcritical) _).mpr ⟨[false, true], rfl⟩
  exact ⟨t, ht, hlock, congrArg State.shared hstate⟩

/-- **No deadlock**: from every reachable state the CPUs can still get through
all their items. -/
theorem can_finish [Fintype κ] {s t : Cpus κ σ α} (hs : Initial s) (ht : Reaches step s t) :
    ∃ u, Reaches step t u ∧ u.lock = 0 ∧ ∀ k, u.todo k = [] ∧ u.pc k = .outside := by
  -- first the CPU inside leaves
  obtain ⟨v, hv, hvlock⟩ : ∃ v, Reaches step t v ∧ v.lock = 0 := by
    by_cases h : ∃ k, Inside t k
    · obtain ⟨k, left, hk⟩ := h
      obtain ⟨v, hv, hlock, -⟩ := reaches_leave hk
      exact ⟨v, hv, hlock⟩
    · exact ⟨t, .refl t, (lock_eq_zero_iff hs ht).mpr fun k hk => h ⟨k, hk⟩⟩
  -- then one item after the other is run, on the number of items left
  have hrest : ∀ n, ∀ v, Reaches step t v → v.lock = 0 → ∑ k, (v.todo k).length = n →
      ∃ u, Reaches step t u ∧ u.lock = 0 ∧ ∀ k, u.todo k = [] := by
    intro n
    induction n using Nat.strongRecOn with
    | ind n ih =>
      intro v hv hvlock hn
      have hout := (lock_eq_zero_iff hs (ht.trans hv)).mp hvlock
      by_cases hall : ∀ k, v.todo k = []
      · exact ⟨v, hv, hvlock, hall⟩
      · rw [not_forall] at hall
        obtain ⟨k, hk⟩ := hall
        obtain ⟨i, is, htodo⟩ := List.exists_cons_of_ne_nil hk
        obtain ⟨u, hu, hulock, hustate⟩ :=
          reaches_item (waits_of_reaches hs (ht.trans hv)) hvlock (hout k) (atomic_of_todo htodo)
        refine ih _ ?_ u (hv.trans hu) hulock rfl
        rw [← hn, hustate]
        refine Finset.sum_lt_sum (fun j _ => ?_) ⟨k, Finset.mem_univ k, by simp [htodo]⟩
        by_cases hj : j = k
        · subst hj
          simp [htodo]
        · rw [State.set_todo, State.next_todo, Function.update_of_ne hj]
  obtain ⟨u, hu, hulock, hutodo⟩ := hrest _ v hv hvlock rfl
  refine ⟨u, hu, hulock, fun k => ⟨hutodo k, ?_⟩⟩
  have hout := (lock_eq_zero_iff hs (ht.trans hu)).mp hulock k
  cases hpc : u.pc k with
  | outside => rfl
  | stxr =>
    obtain ⟨b, is, h⟩ := waits_of_reaches hs (ht.trans hu) k hpc
    simp [hutodo k] at h
  | inside left => exact absurd ⟨left, hpc⟩ hout

theorem can_finish_adders : ∃ u, Reaches step (ldaxr adders true) u ∧ u.lock = 0 ∧
    ∀ k, u.todo k = [] ∧ u.pc k = .outside :=
  can_finish adders_initial ⟨[.cpu true], rfl⟩

end Spinlock
end DaatMcs
