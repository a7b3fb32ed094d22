/-
# Requests and their responses

`calc_latencies` takes for each request handshake of a capture the first later
sample with a response, and does not mark that response as used. Where two
requests are outstanding at once both get the same one. `paired_iff`: the
latencies are those of a pairing one to one iff between any two requests there
is a response, as far as there are any.
-/
import DaatMcs.Lib.FirstAfter
import DaatMcs.Scripts.Latencies

namespace DaatMcs
namespace Scripts

open FirstAfter

/-- The samples with a request handshake. -/
def requests (cfg : SnoopConfig) (df : Capture) : List ℕ :=
  indices (fun row => row cfg.reqValid = cfg.reqValue ∧ row cfg.reqReady = "1".toList) df

/-- The samples with a response. -/
def responses (cfg : SnoopConfig) (df : Capture) : List ℕ :=
  indices (fun row => row cfg.response = cfg.respValue) df

/-- The latencies of requests, in order, each paired with a later response
that no other one has, an earlier request with an earlier one. A request for
which no later response is left has none. -/
def PairedOneToOne (cfg : SnoopConfig) (df : Capture) (latencies : List ℕ) : Prop :=
  ∃ ps : List (ℕ × ℕ), latencies = ps.map (fun p => p.2 - p.1) ∧
    (ps.map Prod.fst).Sublist (requests cfg df) ∧
    (∀ p ∈ ps, p.2 ∈ responses cfg df ∧ p.1 < p.2) ∧ (ps.map Prod.snd).Pairwise (· < ·)

/-! ### The indices -/

theorem pairwise_indices (p : Row → Bool) (df : Capture) : (indices p df).Pairwise (· < ·) := by
  have hall : (df.zipIdx.map Prod.snd).Pairwise (· < ·) := by
    rw [List.zipIdx_map_snd]
    exact List.pairwise_lt_range' 1
  exact hall.sublist (List.filter_sublist.map Prod.snd)

theorem calcLatencies_eq (cfg : SnoopConfig) (df : Capture) : calcLatencies cfg df =
    (pairs (requests cfg df) (responses cfg df)).map fun p => p.2 - p.1 := by
  rw [pairs, List.map_filterMap]
  simp only [Option.map_map]
  rfl

/-- **Main result.** The latencies of a capture are those of a pairing one to
one iff its requests and responses interleave. -/
theorem paired_iff (cfg : SnoopConfig) (df : Capture) :
    PairedOneToOne cfg df (calcLatencies cfg df) ↔ Interleaved (requests cfg df) (responses cfg df) := by
  have hreq : (requests cfg df).Pairwise (· < ·) := pairwise_indices _ df
  have hresp : (responses cfg df).Pairwise (· < ·) := pairwise_indices _ df
  rw [← increasing_iff hreq hresp, calcLatencies_eq]
  have hlater : ∀ p ∈ pairs (requests cfg df) (responses cfg df),
      p.2 ∈ responses cfg df ∧ p.1 < p.2 := fun p hp => by
    obtain ⟨hmem, hlt, -⟩ := (firstAfter_eq_some hresp).mp (mem_pairs.mp hp).2
    exact ⟨hmem, hlt⟩
  constructor
  · rintro ⟨ps, hdiff, hsub, hps, hinc⟩
    -- the requests are the same, so with the same latencies the responses are
    have hlen := congrArg List.length hdiff
    rw [List.length_map, List.length_map] at hlen
    have hfst := map_fst_eq hsub hps hlen.symm
    have hsame : ps = pairs (requests cfg df) (responses cfg df) := by
      refine List.ext_getElem hlen.symm fun i hi hi' => ?_
      have hfirst : ps[i].1 = (pairs (requests cfg df) (responses cfg df))[i].1 := by
        have := congrArg (fun l => l[i]?) hfst
        simpa [hi, hi'] using this
      have hlat : (pairs (requests cfg df) (responses cfg df))[i].2 -
          (pairs (requests cfg df) (responses cfg df))[i].1 = ps[i].2 - ps[i].1 := by
        have := congrArg (fun l => l[i]?) hdiff
        simpa [hi, hi'] using this
      have hlt := (hps _ (List.getElem_mem hi)).2
      have hlt' := (hlater _ (List.getElem_mem hi')).2
      exact Prod.ext hfirst (by omega)
    rwa [hsame] at hinc
  · intro hinc
    exact ⟨_, rfl, by rw [map_fst_pairs]; exact List.filter_sublist, hlater, hinc⟩

/-- A sample of a capture of read snoops. -/
def sample (arvalid arready rvalid : String) : Row := fun column =>
  if column = "design_1_i/system_ila_0/inst/SLOT_0_ACEMM_arvalid_1".toList then arvalid.toList
  else if column = "design_1_i/system_ila_0/inst/SLOT_0_ACEMM_arready_1".toList then arready.toList
  else if column = "design_1_i/system_ila_0/inst/SLOT_0_ACEMM_rvalid_1".toList then rvalid.toList
  else []

/-- Two requests before the first response. -/
def outstanding : Capture := [sample "SEND_AR" "1" "0", sample "SEND_AR" "1" "0", sample "IDLE" "0" "1"]

/-- Both get it. -/
theorem outstanding_shared : ∃ cfg, snoopConfig 1 = some cfg ∧ calcLatencies cfg outstanding = [2, 1] ∧
    ¬ PairedOneToOne cfg outstanding (calcLatencies cfg outstanding) := by
  have hlat : ∀ cfg ∈ snoopConfig 1, calcLatencies cfg outstanding = [2, 1] ∧
      responses cfg outstanding = [2] := by
    rintro cfg ⟨⟩
    decide +kernel
  obtain ⟨hlat, hresp⟩ := hlat _ rfl
  refine ⟨_, rfl, hlat, ?_⟩
  rintro ⟨ps, hdiff, -, hps, hinc⟩
  rw [hlat] at hdiff
  rw [hresp] at hps
  have hlen : ps.length = 2 := by simpa using (congrArg List.length hdiff).symm
  obtain ⟨p, p', rfl⟩ := List.length_eq_two.mp hlen
  have hr := List.mem_singleton.mp (hps p List.mem_cons_self).1
  have hr' := List.mem_singleton.mp (hps p' (List.mem_cons_of_mem p List.mem_cons_self)).1
  have hlt : p.2 < p'.2 := List.rel_of_pairwise_cons hinc List.mem_cons_self
  omega

end Scripts
end DaatMcs
