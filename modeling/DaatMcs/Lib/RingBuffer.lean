/-
# Ring buffers with counters that wrap

A ring has `N` slots and two counters that only count up, modulo `M`: the
producer writes its slot and counts, the consumer counts and reads. `Holds`
is the queue between them: the counters stand for numbers that differ by its
length, at most `N`, and its elements sit in the slots those numbers give.

While `N < M` the counters differ exactly when the queue is not empty
(`Holds.ne_iff`); while `N ∣ M` a wrapped counter still finds its slot, so
`Holds.push` and `Holds.pop` are the two ends of a first-in first-out queue.

A free list is threaded through a table: `Threaded` is the list that starts
at a head and follows the table to a tail.
-/
import Mathlib.Data.List.Basic
import Mathlib.Data.Nat.ModEq
import Mathlib.Logic.Function.Basic
import Mathlib.Tactic.Common

namespace DaatMcs
namespace RingBuffer

variable {α : Type*} {N M : ℕ}

/-- The queue `q` between the counters `idx` of the producer and `last` of the consumer. -/
def Holds (N M : ℕ) (ring : ℕ → α) (idx last : ℕ) (q : List α) : Prop :=
  ∃ c, last = c % M ∧ idx = (c + q.length) % M ∧ q.length ≤ N ∧
    ∀ i x, q[i]? = some x → ring ((c + i) % N) = x

theorem Holds.nil (N M : ℕ) (ring : ℕ → α) : Holds N M ring 0 0 [] :=
  ⟨0, (Nat.zero_mod M).symm, (Nat.zero_mod M).symm, Nat.zero_le N, by simp⟩

theorem Holds.length_le {ring : ℕ → α} {idx last : ℕ} {q : List α} (h : Holds N M ring idx last q) :
    q.length ≤ N := by
  obtain ⟨c, -, -, hlen, -⟩ := h
  exact hlen

/-- The counters tell whether there is something in the queue. -/
theorem Holds.ne_iff (hNM : N < M) {ring : ℕ → α} {idx last : ℕ} {q : List α}
    (h : Holds N M ring idx last q) : idx ≠ last ↔ q ≠ [] := by
  obtain ⟨c, rfl, rfl, hlen, -⟩ := h
  rw [not_iff_not, ← List.length_eq_zero_iff]
  constructor
  · intro heq
    have hmod : c + q.length ≡ c + 0 [MOD M] := heq
    have hzero : q.length ≡ 0 [MOD M] := Nat.ModEq.add_left_cancel' c hmod
    exact Nat.eq_zero_of_dvd_of_lt (Nat.modEq_zero_iff_dvd.mp hzero) (by omega)
  · intro hzero
    rw [hzero, Nat.add_zero]

/-- The producer's end. -/
theorem Holds.push (hdvd : N ∣ M) {ring : ℕ → α} {idx last : ℕ} {q : List α}
    (h : Holds N M ring idx last q) (hlt : q.length < N) (x : α) :
    Holds N M (Function.update ring (idx % N) x) ((idx + 1) % M) last (q ++ [x]) := by
  obtain ⟨c, rfl, rfl, hlen, hq⟩ := h
  refine ⟨c, rfl, ?_, ?_, fun i y hi => ?_⟩
  · rw [List.length_append, List.length_singleton, Nat.mod_add_mod, Nat.add_assoc]
  · rw [List.length_append, List.length_singleton]
    omega
  · rw [Nat.mod_mod_of_dvd _ hdvd]
    rcases Nat.lt_or_ge i q.length with hiq | hiq
    · rw [List.getElem?_append_left hiq] at hi
      have hne : (c + i) % N ≠ (c + q.length) % N := by
        intro heq
        have hmod : c + i ≡ c + q.length [MOD N] := heq
        have hiq' : i ≡ q.length [MOD N] := Nat.ModEq.add_left_cancel' c hmod
        have := Nat.ModEq.eq_of_lt_of_lt hiq' (by omega) hlt
        omega
      rw [Function.update_of_ne hne]
      exact hq i y hi
    · rw [List.getElem?_append_right hiq] at hi
      have hzero : i - q.length = 0 := by
        have hlen' := (List.getElem?_eq_some_iff.mp hi).1
        rw [List.length_singleton] at hlen'
        omega
      rw [hzero, List.getElem?_cons_zero, Option.some.injEq] at hi
      have hieq : i = q.length := by omega
      rw [hieq, Function.update_self, hi]

/-- The consumer's end. -/
theorem Holds.pop (hdvd : N ∣ M) {ring : ℕ → α} {idx last : ℕ} {x : α} {q : List α}
    (h : Holds N M ring idx last (x :: q)) :
    ring (last % N) = x ∧ Holds N M ring idx ((last + 1) % M) q := by
  obtain ⟨c, rfl, rfl, hlen, hq⟩ := h
  rw [List.length_cons] at hlen
  refine ⟨?_, c + 1, Nat.mod_add_mod .., ?_, by omega, fun i y hi => ?_⟩
  · rw [Nat.mod_mod_of_dvd _ hdvd]
    exact hq 0 x rfl
  · rw [List.length_cons, Nat.add_comm q.length, ← Nat.add_assoc]
  · rw [Nat.add_assoc, Nat.add_comm 1 i]
    exact hq (i + 1) y hi

/-! ### Lists threaded through a table -/

variable {ι : Type*}

/-- The list that starts at `head`, follows `next` and leads to `tail`. -/
inductive Threaded (next : ι → ι) (tail : ι) : ι → List ι → Prop
  | nil : Threaded next tail tail []
  | cons {x : ι} {xs : List ι} (h : Threaded next tail (next x) xs) : Threaded next tail x (x :: xs)

theorem Threaded.eq_tail {next : ι → ι} {tail head : ι} (h : Threaded next tail head []) : head = tail := by
  cases h with
  | nil => rfl

theorem Threaded.head_eq {next : ι → ι} {tail head x : ι} {xs : List ι} (h : Threaded next tail head (x :: xs)) :
    x = head ∧ Threaded next tail (next x) xs := by
  cases h with
  | cons h => exact ⟨rfl, h⟩

theorem Threaded.congr {next next' : ι → ι} {tail head : ι} {xs : List ι} (h : Threaded next tail head xs)
    (heq : ∀ x ∈ xs, next' x = next x) : Threaded next' tail head xs := by
  induction h with
  | nil => exact .nil
  | cons _ ih =>
    refine .cons ?_
    rw [heq _ List.mem_cons_self]
    exact ih fun y hy => heq y (List.mem_cons_of_mem _ hy)

/-- The table that counts up, but for its last entry. -/
theorem threaded_range' {next : ℕ → ℕ} {tail n : ℕ} : ∀ {start : ℕ},
    (∀ i, start ≤ i → i < start + n → next i = i + 1) → next (start + n) = tail →
      Threaded next tail start (List.range' start (n + 1)) := by
  induction n with
  | zero =>
    intro start _ htail
    refine .cons ?_
    rw [show next start = tail from htail]
    exact .nil
  | succ n ih =>
    intro start hnext htail
    refine .cons ?_
    rw [hnext start le_rfl (by omega)]
    refine ih (fun i hi hlt => hnext i (by omega) (by omega)) ?_
    rw [show start + 1 + n = start + (n + 1) by omega, htail]

variable [DecidableEq ι]

/-- Entries off the list may change. -/
theorem Threaded.update {next : ι → ι} {tail head i v : ι} {xs : List ι} (h : Threaded next tail head xs)
    (hi : i ∉ xs) : Threaded (Function.update next i v) tail head xs :=
  h.congr fun x hx => Function.update_of_ne (fun heq : x = i => hi (heq ▸ hx)) ..

/-- An element is put before the head. -/
theorem Threaded.push {next : ι → ι} {tail head i : ι} {xs : List ι} (h : Threaded next tail head xs)
    (hi : i ∉ xs) : Threaded (Function.update next i head) tail i (i :: xs) :=
  .cons (by rw [Function.update_self]; exact h.update hi)

end RingBuffer
end DaatMcs
