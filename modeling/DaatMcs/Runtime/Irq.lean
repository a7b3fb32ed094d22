/-
# Enabling an interrupt from several CPUs

`irq_enable` for the GICv2: the enable bit is set, then the targets are read
without the lock, and written back under it with the bit of the calling CPU.
Between the read and the write another CPU may do the same, and then its bit
is lost.

Any number of CPUs enable any shared interrupts, their accesses in any order.
When all are done every interrupt kept the targets it had and has otherwise
only CPUs that enabled it, one of them at least, and all of them if there is
but one (`irqEnable_spec`). Two CPUs that enable the same interrupt may end
with one of them as a target (`lost_target`).
-/
import DaatMcs.Runtime.Gicv2

namespace DaatMcs
namespace Irq

open Registers Steps Mutex Spinlock Gicv2

/-- `1 << get_cpuid()`, as the `uint8_t` it is passed as. -/
def cpuBit (cpuid : ℕ) : BitVec 8 := 1#8 <<< cpuid

/-- `irq_enable` on the CPU `cpuid`. -/
def irqEnable (cpuid id : ℕ) : List (Item Gicd Own) :=
  [.critical (gicSetEnable id true),
    .peek fun d o => { o with trgt := gicGetTrgt d id },
    .critical (gicSetTrgt id fun o => o.trgt ||| cpuBit cpuid)]

variable {κ : Type*} [DecidableEq κ] {cpuid : κ → ℕ} {ids : κ → List ℕ}

variable (cpuid ids) in
/-- Each CPU is about to enable its interrupts, one after the other, all of them
shared. -/
structure Start (s : Cpus κ Gicd Own) : Prop where
  initial : Initial s
  todo : ∀ k, s.todo k = (ids k).flatMap (irqEnable (cpuid k))
  shared : ∀ k, ∀ i ∈ ids k, firstShared ≤ i

/-- All CPUs are done. -/
def Done (s : Cpus κ Gicd Own) : Prop := s.lock = 0 ∧ ∀ k, s.todo k = []

def Enabled (d : Gicd) (id : ℕ) : Prop := bitAt d.enabled (enableSlot id) = true

/-! ### What each access does -/

theorem gicGetTrgt_writeEnable (d : Gicd) (i j : ℕ) (en : Bool) :
    gicGetTrgt (writeEnable d i en) j = gicGetTrgt d j := rfl

theorem run_gicSetTrgt (d : Gicd) (o : Own) (i : ℕ) (c : ℕ) (j : ℕ) :
    gicGetTrgt ((gicSetTrgt i fun o => o.trgt ||| cpuBit c).run (d, o)).1 j =
      if j = i then o.trgt ||| cpuBit c else gicGetTrgt d j :=
  byteAt_update d.itargetsr i j _

theorem enabled_iff (d : Gicd) (i : ℕ) : Enabled d i ↔ d.get (.enable i) = 1 := by
  unfold Enabled
  exact Bool.toNat_eq_one.symm

theorem enabled_writeEnable (d : Gicd) (i j : ℕ) :
    Enabled (writeEnable d i true) j ↔ j = i ∨ Enabled d j := by
  have h := get_apply (.setEnable i true) d (.enable j)
  rw [enabled_iff, enabled_iff]
  show ((Call.setEnable i true).apply d).get (.enable j) = 1 ↔ _
  rw [h, Call.writes]
  by_cases hij : j = i
  · simp [hij]
  · simp [hij]

theorem getLsbD_cpuBit (c b : ℕ) : (cpuBit c).getLsbD b = (decide (b < 8) && decide (b = c)) := by
  unfold cpuBit
  rw [BitVec.getLsbD_shiftLeft, BitVec.getLsbD_one]
  by_cases hb : b < 8
  · by_cases hc : b = c
    · simp [hc]
    · have hne : b < c ∨ b - c ≠ 0 := by omega
      rcases hne with h | h <;> simp [hb, hc, h]
  · simp [hb]

/-! ### The targets between the accesses -/

variable (cpuid ids) in
/-- The targets `t` keep those of `d₀` and add only CPUs that enable `i`. -/
structure Good (d₀ : Gicd) (i : ℕ) (t : BitVec 8) : Prop where
  keeps : ∀ b, (gicGetTrgt d₀ i).getLsbD b = true → t.getLsbD b = true
  adds : ∀ b, t.getLsbD b = true → (gicGetTrgt d₀ i).getLsbD b = true ∨ ∃ k, i ∈ ids k ∧ cpuid k = b

omit [DecidableEq κ] in
theorem Good.refl (d₀ : Gicd) (i : ℕ) : Good cpuid ids d₀ i (gicGetTrgt d₀ i) :=
  ⟨fun _ h => h, fun _ h => .inl h⟩

omit [DecidableEq κ] in
theorem Good.or {d₀ : Gicd} {i : ℕ} {t : BitVec 8} (h : Good cpuid ids d₀ i t) {k : κ} (hk : i ∈ ids k) :
    Good cpuid ids d₀ i (t ||| cpuBit (cpuid k)) where
  keeps b hb := by rw [BitVec.getLsbD_or, h.keeps b hb, Bool.true_or]
  adds b hb := by
    rw [BitVec.getLsbD_or, getLsbD_cpuBit, Bool.or_eq_true, Bool.and_eq_true] at hb
    rcases hb with hb | ⟨-, hb⟩
    · exact h.adds b hb
    · exact .inr ⟨k, hk, (of_decide_eq_true hb).symm⟩

variable (cpuid ids) in
/-- Where a CPU stands with the interrupts `rest` before it, the first of
which it may have begun to enable. -/
inductive Stage (d₀ d : Gicd) (k : κ) (o : Own) : List ℕ → List (Item Gicd Own) → Prop
  | enable (rest : List ℕ) : Stage d₀ d k o rest (rest.flatMap (irqEnable (cpuid k)))
  | get {i : ℕ} {rest : List ℕ} (on : Enabled d i) :
    Stage d₀ d k o (i :: rest) ((irqEnable (cpuid k) i).drop 1 ++ rest.flatMap (irqEnable (cpuid k)))
  | set {i : ℕ} {rest : List ℕ} (on : Enabled d i) (good : Good cpuid ids d₀ i o.trgt) :
    Stage d₀ d k o (i :: rest) ((irqEnable (cpuid k) i).drop 2 ++ rest.flatMap (irqEnable (cpuid k)))

variable (cpuid ids) in
/-- What holds between the accesses, `done k` being what CPU `k` has enabled. -/
structure Inv (d₀ : Gicd) (a : State κ Gicd Own) (done : κ → List ℕ) : Prop where
  stage : ∀ k, ∃ rest, done k ++ rest = ids k ∧ Stage cpuid ids d₀ a.shared k (a.own k) rest (a.todo k)
  good : ∀ i, Good cpuid ids d₀ i (gicGetTrgt a.shared i)
  on : ∀ k, ∀ i ∈ done k, Enabled a.shared i
  one : ∀ k, ∀ i ∈ done k, ∃ j, i ∈ done j ∧
    (cpuid j < 8 → (gicGetTrgt a.shared i).getLsbD (cpuid j) = true)

omit [DecidableEq κ] in
/-- What a CPU has begun stays as it is while others move. -/
theorem Stage.mono {d₀ d d' : Gicd} {k : κ} {o : Own} {rest : List ℕ} {todo : List (Item Gicd Own)}
    (h : Stage cpuid ids d₀ d k o rest todo) (hon : ∀ i, Enabled d i → Enabled d' i) :
    Stage cpuid ids d₀ d' k o rest todo := by
  cases h with
  | enable => exact .enable rest
  | get on => exact .get (hon _ on)
  | set on good => exact .set (hon _ on) good

/-- An access of CPU `k` leaves the others where they were. -/
theorem Inv.stage_of_access {d₀ : Gicd} {a : State κ Gicd Own} {done done' : κ → List ℕ}
    (h : Inv cpuid ids d₀ a done) {k : κ} {x : Gicd × Own} {is : List (Item Gicd Own)}
    (hon : ∀ i, Enabled a.shared i → Enabled x.1 i) (hdone : ∀ j, j ≠ k → done' j = done j)
    (hk : ∃ rest, done' k ++ rest = ids k ∧ Stage cpuid ids d₀ x.1 k x.2 rest is) (j : κ) :
    ∃ rest, done' j ++ rest = ids j ∧
      Stage cpuid ids d₀ x.1 j (((a.next k is).set k x).own j) rest (((a.next k is).set k x).todo j) := by
  by_cases hj : j = k
  · subst hj
    simpa using hk
  · obtain ⟨rest, hids, hstage⟩ := h.stage j
    refine ⟨rest, by rw [hdone j hj, hids], ?_⟩
    simp only [State.set_own, State.set_todo, State.next_own, State.next_todo, Function.update_of_ne hj]
    exact hstage.mono hon

theorem Inv.step {d₀ : Gicd} {a b : State κ Gicd Own} {done : κ → List ℕ} (h : Inv cpuid ids d₀ a done) {k : κ}
    (hb : atomic a k = some b) : ∃ done', Inv cpuid ids d₀ b done' := by
  obtain ⟨rest, hids, hstage⟩ := h.stage k
  generalize htodo : a.todo k = todo at hstage
  cases hstage with
  | enable =>
    cases rest with
    | nil => simp [atomic, htodo] at hb
    | cons i rest =>
      rw [atomic_of_todo htodo, Option.some.injEq] at hb
      subst hb
      have hon : ∀ j, Enabled a.shared j → Enabled (writeEnable a.shared i true) j :=
        fun j hj => (enabled_writeEnable a.shared i j).mpr (.inr hj)
      refine ⟨done, h.stage_of_access hon (fun _ _ => rfl) ⟨i :: rest, hids, .get ?_⟩, h.good, ?_, h.one⟩
      · exact (enabled_writeEnable a.shared i i).mpr (.inl rfl)
      · exact fun j i' hi' => hon i' (h.on j i' hi')
  | @get i rest on =>
    rw [atomic_of_todo htodo, Option.some.injEq] at hb
    subst hb
    exact ⟨done, h.stage_of_access (fun _ hj => hj) (fun _ _ => rfl) ⟨i :: rest, hids, .set on (h.good i)⟩,
      h.good, h.on, h.one⟩
  | @set i rest on good =>
    rw [atomic_of_todo htodo, Option.some.injEq] at hb
    subst hb
    have hmem : i ∈ ids k := by simp [← hids]
    have htrgt := run_gicSetTrgt a.shared (a.own k) i (cpuid k)
    generalize hx : Item.run (.critical (gicSetTrgt i fun o => o.trgt ||| cpuBit (cpuid k)))
      (a.shared, a.own k) = x
    rw [show (gicSetTrgt i fun o => o.trgt ||| cpuBit (cpuid k)).run (a.shared, a.own k) = x from hx] at htrgt
    have hon : ∀ j, Enabled a.shared j → Enabled x.1 j := by
      rw [← hx]
      exact fun _ hj => hj
    -- the interrupt is done for CPU `k`, and its byte has the bit of `k`
    refine ⟨Function.update done k (done k ++ [i]), ?_, ?_, ?_, ?_⟩
    · refine h.stage_of_access hon (fun j hj => Function.update_of_ne hj ..) ?_
      exact ⟨rest, by simp [hids], .enable rest⟩
    · intro j
      rw [State.set_shared, htrgt j]
      split
      · next hj => exact hj ▸ good.or hmem
      · exact h.good j
    · intro j i' hi'
      refine hon i' ?_
      by_cases hj : j = k
      · subst hj
        rw [Function.update_self, List.mem_append, List.mem_singleton] at hi'
        rcases hi' with hi' | rfl
        · exact h.on j i' hi'
        · exact on
      · rw [Function.update_of_ne hj] at hi'
        exact h.on j i' hi'
    · intro j i' hi'
      rw [State.set_shared, htrgt i']
      by_cases hi : i' = i
      · subst hi
        refine ⟨k, by simp, fun hlt => ?_⟩
        rw [if_pos rfl, BitVec.getLsbD_or, getLsbD_cpuBit]
        simp [hlt]
      · have hold : i' ∈ done j := by
          by_cases hj : j = k
          · subst hj
            simpa [hi] using hi'
          · simpa [Function.update_of_ne hj] using hi'
        obtain ⟨j', hj', hbit⟩ := h.one j i' hold
        refine ⟨j', ?_, by rwa [if_neg hi]⟩
        by_cases hj : j' = k
        · subst hj
          simp [hj']
        · rwa [Function.update_of_ne hj]

omit [DecidableEq κ] in
theorem Inv.of_start {s : Cpus κ Gicd Own} (hs : Start cpuid ids s) :
    Inv cpuid ids s.shared s.toState fun _ => [] where
  stage k := ⟨ids k, rfl, by rw [hs.todo k]; exact .enable _⟩
  good i := Good.refl s.shared i
  on k i hi := by simp at hi
  one k i hi := by simp at hi

omit [DecidableEq κ] in
theorem Start.commitsLast {s : Cpus κ Gicd Own} (hs : Start cpuid ids s) : s.Todo Item.CommitsLast := by
  intro k x hx
  rw [hs.todo k, List.mem_flatMap] at hx
  obtain ⟨id, -, hx⟩ := hx
  simp only [irqEnable, List.mem_cons, List.not_mem_nil, or_false] at hx
  rcases hx with rfl | rfl | rfl
  · trivial
  · trivial
  · exact ⟨fun _ => rfl, trivial⟩

/-- **What enabling leaves**: once all CPUs are done, an interrupt that some CPU
enabled is enabled; it kept the targets it had, got no others than CPUs that
enabled it, one of them at least, and exactly that one if there is but one. -/
theorem irqEnable_spec {s t : Cpus κ Gicd Own} (hs : Start cpuid ids s) (ht : Reaches step s t)
    (hdone : Done t) (i : ℕ) :
    Good cpuid ids s.shared i (gicGetTrgt t.shared i) ∧
      ((∃ k, i ∈ ids k) → Enabled t.shared i ∧
        ∃ j, i ∈ ids j ∧ (cpuid j < 8 → (gicGetTrgt t.shared i).getLsbD (cpuid j) = true)) ∧
      ∀ k, cpuid k < 8 → (∀ j, i ∈ ids j ↔ j = k) →
        gicGetTrgt t.shared i = gicGetTrgt s.shared i ||| cpuBit (cpuid k) := by
  have hatomic := reaches_atomic hs.initial ht (.inr hs.commitsLast) hdone.1
  obtain ⟨done, h⟩ := hatomic.inv (I := fun a => ∃ done, Inv cpuid ids s.shared a done)
    (fun _ _ _ ⟨_, h⟩ hb => h.step hb) ⟨_, Inv.of_start hs⟩
  -- nothing is left, so all that was to be enabled is done
  have hall : ∀ k, done k = ids k := by
    intro k
    obtain ⟨rest, hids, hstage⟩ := h.stage k
    rw [hdone.2 k] at hstage
    have hrest : rest = [] := by
      generalize htodo : ([] : List (Item Gicd Own)) = todo at hstage
      cases hstage with
      | enable =>
        cases rest with
        | nil => rfl
        | cons => simp [irqEnable] at htodo
      | get => simp [irqEnable] at htodo
      | set => simp [irqEnable] at htodo
    rw [← hids, hrest, List.append_nil]
  have hone : ∀ k, i ∈ ids k → ∃ j, i ∈ ids j ∧
      (cpuid j < 8 → (gicGetTrgt t.shared i).getLsbD (cpuid j) = true) := by
    intro k hk
    obtain ⟨j, hj, hbit⟩ := h.one k i ((hall k).symm ▸ hk)
    exact ⟨j, hall j ▸ hj, hbit⟩
  refine ⟨h.good i, fun ⟨k, hk⟩ => ⟨h.on k i ((hall k).symm ▸ hk), hone k hk⟩, fun k hlt hk => ?_⟩
  apply BitVec.eq_of_getLsbD_eq
  intro b hb
  rw [BitVec.getLsbD_or, getLsbD_cpuBit, Bool.eq_iff_iff, Bool.or_eq_true, Bool.and_eq_true,
    decide_eq_true_eq, decide_eq_true_eq]
  obtain ⟨j, hj, hbit⟩ := hone k ((hk k).mpr rfl)
  rw [hk] at hj
  subst hj
  constructor
  · intro hset
    rcases (h.good i).adds b hset with hold | ⟨j', hj', rfl⟩
    · exact .inl hold
    · rw [hk] at hj'
      exact .inr ⟨hb, congrArg cpuid hj'⟩
  · rintro (hold | ⟨-, rfl⟩)
    · exact (h.good i).keeps b hold
    · exact hbit hlt

/-- The CPUs 0 and 1 before they enable the interrupt 40. -/
def twoCpus : Cpus Bool Gicd Own :=
  ⟨⟨⟨fun _ => 0, fun _ => 0, fun _ => 0⟩, fun _ => ⟨0, 0⟩, fun k => irqEnable k.toNat 40⟩, spinlockInitval,
    fun _ => false, fun _ => .outside⟩

theorem twoCpus_start : Start Bool.toNat (fun _ => [40]) twoCpus :=
  ⟨⟨rfl, fun _ => rfl⟩, fun _ => rfl, by decide⟩

theorem irqEnable_spec_twoCpus : ∃ t, Reaches step twoCpus t ∧ Done t ∧ Enabled t.shared 40 := by
  let run : List (Event Bool) := List.replicate 10 (.cpu true) ++ List.replicate 10 (.cpu false)
  have hrun : (run.foldlM step twoCpus).isSome := rfl
  have ht := Option.some_get hrun
  have hdone : Done ((run.foldlM step twoCpus).get hrun) := by
    refine ⟨rfl, ?_⟩
    rintro (_ | _) <;> rfl
  exact ⟨_, ⟨_, ht.symm⟩, hdone,
    ((irqEnable_spec twoCpus_start ⟨_, ht.symm⟩ hdone 40).2.1 ⟨true, List.mem_singleton_self 40⟩).1⟩

/-- **A target is lost** when another CPU enables the same interrupt and both
read the targets before either writes them: the last to write is the only
one that was added. -/
theorem lost_target {s : Cpus κ Gicd Own} (hs : Start cpuid ids s) {i : ℕ} {j k : κ} (hjk : j ≠ k)
    (hids : ∀ x, ids x = if x = j ∨ x = k then [i] else []) :
    ∃ t, Reaches step s t ∧ Done t ∧
      gicGetTrgt t.shared i = gicGetTrgt s.shared i ||| cpuBit (cpuid k) := by
  have hj : s.todo j = irqEnable (cpuid j) i := by simp [hs.todo, hids]
  have hk : s.todo k = irqEnable (cpuid k) i := by simp [hs.todo, hids]
  have hother : ∀ x, x ≠ j → x ≠ k → s.todo x = [] := fun x hxj hxk => by simp [hs.todo, hids, hxj, hxk]
  obtain ⟨a, ha, htodo, htrgt⟩ : ∃ a, [j, k, j, k, j, k].foldlM atomic s.toState = some a ∧
      (∀ x, a.todo x = []) ∧ gicGetTrgt a.shared i = gicGetTrgt s.shared i ||| cpuBit (cpuid k) := by
    simp only [List.foldlM_cons, List.foldlM_nil, atomic, hj, hk, irqEnable, Item.run, Option.pure_def,
      Option.bind_eq_bind, Option.bind_fun_some, Option.bind_some, State.set_todo, State.next_todo,
      State.set_shared, State.set_own, State.next_own, ne_eq, hjk, hjk.symm, not_false_eq_true,
      Function.update_of_ne, Function.update_self, Option.some.injEq, exists_eq_left']
    refine ⟨fun x => ?_, ?_⟩
    · by_cases hxk : x = k
      · rw [hxk, Function.update_self]
      · by_cases hxj : x = j
        · rw [Function.update_of_ne hxk, hxj, Function.update_self]
        · simp only [Function.update_of_ne hxk, Function.update_of_ne hxj, hother x hxj hxk]
    · rw [run_gicSetTrgt, if_pos rfl]
      rfl
  obtain ⟨t, ht, hlock, rfl⟩ := reaches_of_atomic hs.initial ⟨_, ha⟩
  exact ⟨t, ht, ⟨hlock, htodo⟩, htrgt⟩

theorem lost_target_twoCpus : ∃ t, Reaches step twoCpus t ∧ Done t ∧ gicGetTrgt t.shared 40 = 1 := by
  obtain ⟨t, ht, hdone, htrgt⟩ :=
    lost_target twoCpus_start (j := true) (k := false) (by decide) (by rintro (_ | _) <;> rfl)
  exact ⟨t, ht, hdone, htrgt.trans (by decide)⟩

end Irq
end DaatMcs
