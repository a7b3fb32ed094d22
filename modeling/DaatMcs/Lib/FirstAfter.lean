/-
# The first one after

Two increasing sequences, of which each entry of the first one takes the first
entry of the second one after it. Entries of the first sequence that follow
each other closely take the same one: they take different ones iff between any
two of them there is an entry of the second (`increasing_iff`).
-/
import Mathlib.Order.Lattice
import Mathlib.Data.List.Pairwise
import Mathlib.Tactic.Common

namespace DaatMcs
namespace FirstAfter

variable {α : Type*} [LinearOrder α]

/-- The first of `rs` after `q`. -/
def firstAfter (rs : List α) (q : α) : Option α := rs.find? fun r => q < r

/-- Each of `qs` that can with the first of `rs` after it. -/
def pairs (qs rs : List α) : List (α × α) := qs.filterMap fun q => (firstAfter rs q).map (q, ·)

/-- A response to every entry before the next one, as far as there are any. -/
def Interleaved (qs rs : List α) : Prop :=
  ∀ q ∈ qs, ∀ q' ∈ qs, q < q' → (∃ r ∈ rs, q' < r) → ∃ r ∈ rs, q < r ∧ r ≤ q'

theorem firstAfter_eq_some {rs : List α} (hrs : rs.Pairwise (· < ·)) {q r : α} :
    firstAfter rs q = some r ↔ r ∈ rs ∧ q < r ∧ ∀ x ∈ rs, q < x → r ≤ x := by
  induction rs with
  | nil => simp [firstAfter]
  | cons a rs ih =>
    have hlt : ∀ {x}, x ∈ rs → a < x := List.rel_of_pairwise_cons hrs
    have ih := ih (List.Pairwise.of_cons hrs)
    unfold firstAfter at ih ⊢
    by_cases ha : q < a
    · rw [List.find?_cons_of_pos (by simpa using ha), Option.some.injEq]
      constructor
      · rintro rfl
        exact ⟨List.mem_cons_self, ha, List.forall_mem_cons.mpr ⟨fun _ => le_refl a, fun x hx _ => (hlt hx).le⟩⟩
      · rintro ⟨hr, -, hle⟩
        rcases List.mem_cons.mp hr with rfl | hr
        · rfl
        · exact absurd (hlt hr) (not_lt.mpr (hle a List.mem_cons_self ha))
    · rw [List.find?_cons_of_neg (by simpa using ha), ih]
      constructor
      · rintro ⟨hr, hq, hle⟩
        exact ⟨List.mem_cons_of_mem a hr, hq, List.forall_mem_cons.mpr ⟨fun h => absurd h ha, hle⟩⟩
      · rintro ⟨hr, hq, hle⟩
        rcases List.mem_cons.mp hr with rfl | hr
        · exact absurd hq ha
        · exact ⟨hr, hq, fun x hx => hle x (List.mem_cons_of_mem a hx)⟩

theorem exists_firstAfter {rs : List α} {q : α} :
    (∃ r, firstAfter rs q = some r) ↔ ∃ r ∈ rs, q < r := by
  rw [← Option.isSome_iff_exists, firstAfter, List.find?_isSome]
  simp

theorem mem_pairs {qs rs : List α} {p : α × α} : p ∈ pairs qs rs ↔ p.1 ∈ qs ∧ firstAfter rs p.1 = some p.2 := by
  obtain ⟨q, r⟩ := p
  simp [pairs]

/-- The entries that are paired, in order: those with a later one. -/
theorem map_fst_pairs (rs : List α) : ∀ qs : List α,
    (pairs qs rs).map Prod.fst = qs.filter fun q => ∃ r ∈ rs, q < r
  | [] => rfl
  | q :: qs => by
    have ih := map_fst_pairs rs qs
    rw [pairs] at ih ⊢
    cases h : firstAfter rs q with
    | none =>
      have hno : ¬ ∃ r ∈ rs, q < r := fun hr => by
        obtain ⟨r, hr⟩ := exists_firstAfter.mpr hr
        exact absurd (h.symm.trans hr) (Option.some_ne_none r).symm
      rw [List.filterMap_cons_none (by rw [h, Option.map_none]), ih, List.filter_cons_of_neg (by simpa using hno)]
    | some r =>
      have hsome : ∃ r ∈ rs, q < r := exists_firstAfter.mp ⟨r, h⟩
      rw [List.filterMap_cons_some (by rw [h, Option.map_some]), List.map_cons, ih,
        List.filter_cons_of_pos (by simpa using hsome)]

/-- The entries take different ones, in order, iff the sequences interleave. -/
theorem increasing_iff {qs rs : List α} (hqs : qs.Pairwise (· < ·)) (hrs : rs.Pairwise (· < ·)) :
    ((pairs qs rs).map Prod.snd).Pairwise (· < ·) ↔ Interleaved qs rs := by
  have hpairs : (pairs qs rs).Pairwise fun p p' => p.1 < p'.1 := by
    rw [← List.pairwise_map, map_fst_pairs]
    exact hqs.filter _
  rw [List.pairwise_map]
  constructor
  · intro h q hq q' hq' hlt hafter
    obtain ⟨r', hr'⟩ := exists_firstAfter.mpr hafter
    obtain ⟨hmem', hlt', -⟩ := (firstAfter_eq_some hrs).mp hr'
    obtain ⟨r, hr⟩ := exists_firstAfter.mpr ⟨r', hmem', hlt.trans hlt'⟩
    obtain ⟨hmem, hqr, -⟩ := (firstAfter_eq_some hrs).mp hr
    have hboth := hpairs.and h
    have hall : ∀ p ∈ pairs qs rs, ∀ p' ∈ pairs qs rs, p.1 < p'.1 → p.2 < p'.2 :=
      List.Pairwise.forall_of_forall_of_flip (fun p _ hp => absurd hp (lt_irrefl _))
        (hboth.imp fun hp _ => hp.2) (hboth.imp fun hp hp' => absurd hp' (lt_asymm hp.1))
    have hrr : r < r' := hall (q, r) (mem_pairs.mpr ⟨hq, hr⟩) (q', r') (mem_pairs.mpr ⟨hq', hr'⟩) hlt
    refine ⟨r, hmem, hqr, ?_⟩
    by_contra hno
    exact absurd (((firstAfter_eq_some hrs).mp hr').2.2 r hmem (not_le.mp hno)) (not_le.mpr hrr)
  · intro h
    refine List.Pairwise.imp_of_mem (fun {p p'} hp hp' hlt => ?_) hpairs
    obtain ⟨hq, hr⟩ := mem_pairs.mp hp
    obtain ⟨hq', hr'⟩ := mem_pairs.mp hp'
    obtain ⟨hmem', hlt', -⟩ := (firstAfter_eq_some hrs).mp hr'
    obtain ⟨r, hmem, hqr, hle⟩ := h p.1 hq p'.1 hq' hlt ⟨p'.2, hmem', hlt'⟩
    calc p.2 ≤ r := ((firstAfter_eq_some hrs).mp hr).2.2 r hmem hqr
      _ ≤ p'.1 := hle
      _ < p'.2 := hlt'

/-- As many entries as can be paired at all are those that are paired here. -/
theorem map_fst_eq {qs rs : List α} {ps : List (α × α)} (hsub : (ps.map Prod.fst).Sublist qs)
    (hlater : ∀ p ∈ ps, p.2 ∈ rs ∧ p.1 < p.2) (hlen : ps.length = (pairs qs rs).length) :
    ps.map Prod.fst = (pairs qs rs).map Prod.fst := by
  rw [map_fst_pairs]
  have hall : (ps.map Prod.fst).filter (fun q => ∃ r ∈ rs, q < r) = ps.map Prod.fst := by
    refine List.filter_eq_self.mpr fun q hq => ?_
    obtain ⟨p, hp, rfl⟩ := List.mem_map.mp hq
    exact decide_eq_true ⟨p.2, hlater p hp⟩
  have hle := hsub.filter fun q => ∃ r ∈ rs, q < r
  rw [hall] at hle
  refine hle.eq_of_length ?_
  rw [List.length_map, hlen, ← map_fst_pairs, List.length_map]

end FirstAfter
end DaatMcs
