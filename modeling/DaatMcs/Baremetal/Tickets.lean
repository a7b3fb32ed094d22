/-
# Tickets and rows of the cache stressors

In `main` of the cache stressors every CPU draws a ticket under
`cpu_ticket_lock`; one whose ticket is below `NUM_CPUS` goes on and writes
the row of that number in `cpu_interf_buf`, over and over.

Tickets are places in the order the CPUs were inside in (`Drawn`), so no row
has two CPUs, and once all have drawn the rows in use are the first ones
(`rows_spec`). A pass over a row touches every cache line of the row once
(`passLines_spec`), but the rows do not end on a line: two neighbours may write
the same one (`share_line_iff`).
-/
import DaatMcs.Runtime.Spinlock
import Mathlib.Tactic.Ring

namespace DaatMcs
namespace Tickets

open Steps Mutex Spinlock

/-! ### The ticket -/

/-- What a CPU keeps: `buf_index`, and what its `+=` has read. -/
structure Own where
  bufIndex : Option ℕ
  read : ℕ
  deriving DecidableEq, Repr

/-- The accesses to `buf_index_ticket`, a `size_t`, under the lock. -/
def ticket : Body ℕ Own :=
  [fun x => (x.1, { x.2 with bufIndex := some x.1 }),
    fun x => (x.1, { x.2 with read := x.1 }),
    fun x => ((x.2.read + 1) % 2 ^ 64, x.2)]

variable {κ : Type*} [DecidableEq κ]

/-- All CPUs are about to draw, and no ticket is gone. -/
structure Start (s : Cpus κ ℕ Own) : Prop where
  initial : Initial s
  shared : s.shared = 0
  todo : ∀ k, s.todo k = [.critical ticket]

/-- The CPU has drawn and released the lock. -/
def Past (s : Cpus κ ℕ Own) (k : κ) : Prop := s.todo k = [] ∧ s.pc k = .outside

/-- The CPU is past the check of its ticket against `NUM_CPUS`, and `row` is its `bufid`. -/
def Stresses (numCpus : ℕ) (s : Cpus κ ℕ Own) (k : κ) (row : ℕ) : Prop :=
  Past s k ∧ (s.own k).bufIndex = some row ∧ row < numCpus

/-- The CPUs that have drawn, in the order they did. -/
structure Drawn (a : State κ ℕ Own) (order : List κ) : Prop where
  nodup : order.Nodup
  todo : ∀ k, a.todo k = if k ∈ order then [] else [.critical ticket]
  shared : a.shared = order.length % 2 ^ 64
  bufIndex : ∀ i k, order[i]? = some k → (a.own k).bufIndex = some i

theorem Drawn.length_lt [Fintype κ] {a : State κ ℕ Own} {order : List κ} (h : Drawn a order) {k : κ}
    (hk : k ∉ order) : order.length < Fintype.card κ := by
  have hle := List.Nodup.length_le_card (List.nodup_cons.mpr ⟨hk, h.nodup⟩)
  rwa [List.length_cons, Nat.succ_le_iff] at hle

/-- A draw puts the CPU at the end of the order. -/
theorem Drawn.draw [Fintype κ] (hcard : Fintype.card κ ≤ 2 ^ 64) {a b : State κ ℕ Own} {order : List κ} {k : κ}
    (h : Drawn a order) (hb : atomic a k = some b) : Drawn b (order ++ [k]) := by
  have hk : k ∉ order := by
    intro hk
    simp [atomic, h.todo k, hk] at hb
  have hlt : order.length < 2 ^ 64 := (h.length_lt hk).trans_le hcard
  have htodo : a.todo k = [.critical ticket] := by rw [h.todo k, if_neg hk]
  rw [atomic_of_todo htodo, Option.some.injEq] at hb
  have hshared : a.shared = order.length := by rw [h.shared, Nat.mod_eq_of_lt hlt]
  subst hb
  refine ⟨?_, fun j => ?_, ?_, fun i j hj => ?_⟩
  · rw [List.nodup_append]
    refine ⟨h.nodup, List.nodup_singleton k, ?_⟩
    rintro x hx y hy rfl
    exact hk (List.mem_singleton.mp hy ▸ hx)
  · by_cases hj : j = k
    · subst hj
      simp
    · simp [h.todo j, hj]
  · simp [Item.run, ticket, Body.run, hshared]
  · by_cases hjk : j = k
    · subst hjk
      have hi : i = order.length := by
        rcases Nat.lt_or_ge i order.length with hi | hi
        · rw [List.getElem?_append_left hi] at hj
          exact absurd (List.mem_of_getElem? hj) hk
        · rw [List.getElem?_append_right hi] at hj
          have hlen := (List.getElem?_eq_some_iff.mp hj).1
          rw [List.length_singleton] at hlen
          omega
      simp [Item.run, ticket, Body.run, hshared, hi]
    · have hi : i < order.length := by
        by_contra hge
        rw [List.getElem?_append_right (Nat.le_of_not_lt hge)] at hj
        exact hjk (List.mem_singleton.mp (List.mem_of_getElem? hj))
      rw [List.getElem?_append_left hi] at hj
      simp [Function.update_of_ne hjk, h.bufIndex i j hj]

theorem Drawn.of_start {s : Cpus κ ℕ Own} (h : Start s) : Drawn s.toState [] where
  nodup := List.nodup_nil
  todo k := by simp [h.todo k]
  shared := by simp [h.shared]
  bufIndex i k hk := by simp at hk

/-- Behind every reachable state there is an order that the tickets follow. -/
theorem exists_drawn [Fintype κ] (hcard : Fintype.card κ ≤ 2 ^ 64) {s t : Cpus κ ℕ Own} (hs : Start s)
    (ht : Reaches step s t) :
    ∃ order : List κ, order.Nodup ∧ ∀ k, Past t k → ∃ i, order[i]? = some k ∧ (t.own k).bufIndex = some i := by
  obtain ⟨l, hl, hR⟩ := simulates_locked.reaches (holds_initial hs.initial) ht
  have hcommit : s.toState.Todo Item.CommitsLast := by
    intro k i hi
    rw [hs.todo k, List.mem_singleton] at hi
    subst hi
    exact ⟨fun _ => rfl, fun _ => rfl, trivial⟩
  obtain ⟨a, ha, -, hun⟩ := simulates_commit.reaches (a := s.toState) ⟨hcommit, .closed rfl rfl⟩ hl
  obtain ⟨order, ho⟩ : ∃ order, Drawn a order := by
    refine ha.inv (I := fun a => ∃ order, Drawn a order) ?_ ⟨[], Drawn.of_start hs⟩
    rintro u k v ⟨order, h⟩ hv
    exact ⟨_, h.draw hcard hv⟩
  refine ⟨order, ho.nodup, fun k ⟨htodo, hpc⟩ => ?_⟩
  have hout : ∀ left, l.inside ≠ some (k, left) := by
    intro left hin
    simp [(hR.inside k left).mpr hin] at hpc
  obtain ⟨hown, htodo'⟩ := hun.outside hout
  rw [hR.toState] at hown htodo'
  have hmem : k ∈ order := by
    by_contra hk
    simp [ho.todo k, hk, htodo] at htodo'
  obtain ⟨i, hi⟩ := List.mem_iff_getElem?.mp hmem
  exact ⟨i, hi, hown ▸ ho.bufIndex i k hi⟩

/-- **No row has two CPUs**, in any reachable state; and when all CPUs have
drawn, the rows in use are as many of the first as there are CPUs for. -/
theorem rows_spec [Fintype κ] (numCpus : ℕ) (hcard : Fintype.card κ ≤ 2 ^ 64) {s t : Cpus κ ℕ Own} (hs : Start s)
    (ht : Reaches step s t) :
    (∀ j k row, Stresses numCpus t j row → Stresses numCpus t k row → j = k) ∧
      ((∀ k, Past t k) → ∀ row, (∃ k, Stresses numCpus t k row) ↔ row < min numCpus (Fintype.card κ)) := by
  obtain ⟨order, hnodup, horder⟩ := exists_drawn hcard hs ht
  constructor
  · rintro j k row ⟨hj, hjrow, -⟩ ⟨hk, hkrow, -⟩
    obtain ⟨i, hi, hbuf⟩ := horder j hj
    obtain ⟨i', hi', hbuf'⟩ := horder k hk
    have hii : i = i' := by
      rw [hjrow, Option.some.injEq] at hbuf
      rw [hkrow, Option.some.injEq] at hbuf'
      exact hbuf.symm.trans hbuf'
    subst hii
    exact Option.some.inj (hi.symm.trans hi')
  · intro hall row
    have hmem : ∀ k, k ∈ order := fun k => by
      obtain ⟨i, hi, -⟩ := horder k (hall k)
      exact List.mem_of_getElem? hi
    have hlen : order.length = Fintype.card κ :=
      Nat.le_antisymm hnodup.length_le_card <| by
        rw [← List.toFinset_card_of_nodup hnodup, ← Finset.card_univ]
        exact Finset.card_le_card fun k _ => List.mem_toFinset.mpr (hmem k)
    rw [Nat.lt_min, ← hlen]
    constructor
    · rintro ⟨k, hk, hrow, hlt⟩
      obtain ⟨i, hi, hbuf⟩ := horder k hk
      rw [hrow, Option.some.injEq] at hbuf
      subst hbuf
      exact ⟨hlt, (List.getElem?_eq_some_iff.mp hi).1⟩
    · rintro ⟨hlt, hrow⟩
      obtain ⟨i, hi, hbuf⟩ := horder order[row] (hall _)
      have hirow : i = row := by
        obtain ⟨hilt, hieq⟩ := List.getElem?_eq_some_iff.mp hi
        exact (List.Nodup.getElem_inj_iff hnodup).mp hieq
      exact ⟨order[row], hall _, hirow ▸ hbuf, hlt⟩

/-- Two CPUs before their draws. -/
def twoCpus : Cpus Bool ℕ Own :=
  ⟨⟨0, fun _ => ⟨none, 0⟩, fun _ => [.critical ticket]⟩, spinlockInitval, fun _ => false, fun _ => .outside⟩

theorem rows_spec_twoCpus : ∃ t, Reaches step twoCpus t ∧ ∀ row, (∃ k, Stresses 3 t k row) ↔ row < 2 := by
  let run : List (Event Bool) := List.replicate 6 (.cpu true) ++ List.replicate 6 (.cpu false)
  have hrun : (run.foldlM step twoCpus).isSome := rfl
  have ht := Option.some_get hrun
  refine ⟨_, ⟨_, ht.symm⟩, (rows_spec 3 (by simp) ⟨⟨rfl, fun _ => rfl⟩, rfl, fun _ => rfl⟩ ⟨_, ht.symm⟩).2 ?_⟩
  rintro (_ | _) <;> exact ⟨rfl, rfl⟩

/-! ### The rows -/

/-- The elements of a line: `CACHE_LINE_SIZE / sizeof(uint64_t)`. -/
def stride : ℕ := 64 / 8

/-- The loop `for (i = base; i < base + range; i += stride)`: the elements it writes. -/
def pass (limit i : ℕ) : List ℕ :=
  if i < limit then i :: pass limit (i + stride) else []
termination_by limit - i
decreasing_by unfold stride; omega

/-- `accesses_per_pass` -/
def accessesPerPass (n : ℕ) : ℕ := (n + stride - 1) / stride

/-- The cache line of element `i` of `cpu_interf_buf[row]`, whose rows have `n`
elements; the array starts on a line. -/
def line (n row i : ℕ) : ℕ := (row * n + i) * 8 / 64

/-- The lines a CPU with this row writes in a pass. -/
def passLines (n row : ℕ) : List ℕ := (pass n 0).map (line n row)

/-- The loop steps from line to line until it is past the limit. -/
theorem pass_eq (limit i : ℕ) :
    pass limit i = (List.range ((limit - i + 7) / 8)).map fun j => i + 8 * j := by
  fun_induction pass limit i with
  | case1 i hi ih =>
    have hcount : (limit - i + 7) / 8 = (limit - (i + 8) + 7) / 8 + 1 := by omega
    rw [ih, hcount, List.range_succ_eq_map, List.map_cons, List.map_map]
    refine congrArg₂ List.cons rfl (List.map_congr_left fun j _ => ?_)
    show i + 8 + 8 * j = i + 8 * (j + 1)
    omega
  | case2 i hi =>
    have hcount : (limit - i + 7) / 8 = 0 := by omega
    rw [hcount]
    rfl

/-- The elements written are in the row. -/
theorem mem_pass {n i : ℕ} : i ∈ pass n 0 ↔ i < n ∧ i % 8 = 0 := by
  rw [pass_eq, List.mem_map]
  constructor
  · rintro ⟨j, hj, rfl⟩
    rw [List.mem_range] at hj
    omega
  · rintro ⟨hlt, hmod⟩
    exact ⟨i / 8, List.mem_range.mpr (by omega), by omega⟩

theorem passLines_eq (n row : ℕ) :
    passLines n row = (List.range ((n + 7) / 8)).map fun j => row * n / 8 + j := by
  rw [passLines, pass_eq, List.map_map, Nat.sub_zero]
  refine List.map_congr_left fun j _ => ?_
  show (row * n + (0 + 8 * j)) * 8 / 64 = row * n / 8 + j
  omega

theorem mem_passLines {n row l : ℕ} :
    l ∈ passLines n row ↔ row * n / 8 ≤ l ∧ l < row * n / 8 + (n + 7) / 8 := by
  rw [passLines_eq, List.mem_map]
  constructor
  · rintro ⟨j, hj, rfl⟩
    rw [List.mem_range] at hj
    omega
  · rintro ⟨hle, hlt⟩
    exact ⟨l - row * n / 8, List.mem_range.mpr (by omega), by omega⟩

/-- **A pass writes a line at most once**, as many lines as it counts accesses;
and it reaches the last line of its row iff the row starts early enough in
its first one. -/
theorem passLines_spec {n : ℕ} (hn : 0 < n) (row : ℕ) :
    (passLines n row).Nodup ∧ (passLines n row).length = accessesPerPass n ∧
      ((∀ i < n, line n row i ∈ passLines n row) ↔ row * n % 8 + (n - 1) % 8 < 8) := by
  refine ⟨?_, ?_, ?_⟩
  · rw [passLines_eq]
    exact List.nodup_range.map fun i j hij => Nat.add_left_cancel hij
  · rw [passLines_eq, List.length_map, List.length_range]
    rfl
  · simp only [mem_passLines, line]
    generalize row * n = start
    constructor
    · intro h
      have hlast := h (n - 1) (by omega)
      omega
    · intro h i hi
      omega

theorem passLines_spec_fifteen :
    (∀ i < 15, line 15 0 i ∈ passLines 15 0) ∧ ¬ ∀ i < 15, line 15 1 i ∈ passLines 15 1 :=
  ⟨((passLines_spec (n := 15) (by decide) 0).2.2).mpr (by decide),
    fun h => absurd (((passLines_spec (n := 15) (by decide) 1).2.2).mp h) (by decide)⟩

/-- **Where rows meet**: of two rows the earlier shares a line with the later
iff they follow each other and the later starts in the earlier's last line. -/
theorem share_line_iff {n : ℕ} (hn : stride ≤ n) {row row' : ℕ} (hrow : row < row') :
    (∃ l, l ∈ passLines n row ∧ l ∈ passLines n row') ↔
      row' = row + 1 ∧ n % 8 ≠ 0 ∧ row * n % 8 + n % 8 < 8 := by
  have hn8 : 8 ≤ n := hn
  simp only [mem_passLines]
  obtain ⟨d, rfl⟩ := Nat.exists_eq_add_of_lt hrow
  have hstart : (row + d + 1) * n = row * n + n + d * n := by ring
  rw [hstart]
  generalize row * n = start
  rcases Nat.eq_zero_or_pos d with rfl | hd
  · rw [Nat.zero_mul]
    constructor
    · rintro ⟨l, h⟩
      omega
    · rintro h
      exact ⟨(start + n) / 8, by omega⟩
  · have hfar : n ≤ d * n := Nat.le_mul_of_pos_left n hd
    constructor
    · rintro ⟨l, h⟩
      omega
    · rintro ⟨h, -⟩
      omega

theorem share_line_ten : ∃ l, l ∈ passLines 10 0 ∧ l ∈ passLines 10 1 :=
  (share_line_iff (n := 10) (by decide) (by decide)).mpr (by decide)

end Tickets
end DaatMcs
