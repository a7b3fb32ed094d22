/-
# The bandwidth assignments

`generate_mbr_assignments` turns the `mem_bw_config` of a setup into one
variant for each choice of a budget and a period for each guest that is not
disabled. Values stored twice under one key of text stay once, so for numbers
the result is exactly the product (`assignments_exact`). A guest's values are
those of `budget` and `period_us`; those of `lc_budgets` and `lc_period_us`
count only where the first key is absent.

The guests of a variant are in the order of the mapping, and the occurrences
of a placeholder are served in this order. So the texts made of the
assignments do not depend on the order only as far as it is kept among the
guests that share a placeholder (`texts_perm`).
-/
import DaatMcs.Generator.Splicing
import DaatMcs.Lib.Combinations

namespace DaatMcs
namespace TestEngine

open Literal

/-- A value of the configuration file: nothing, one scalar, or a list. -/
inductive OneOrMany
  | null
  | one (s : Scalar)
  | many (l : List Scalar)
deriving DecidableEq

def normalizeToList : OneOrMany → List Scalar
  | .null => []
  | .one s => [s]
  | .many l => l

instance : Inhabited Scalar := ⟨.int 0⟩

/-- A guest's entry of `mem_bw_config`; of the keys it does not have there is
none. -/
structure MemBw where
  enabled : Option Bool
  budget : Option OneOrMany
  lcBudgets : Option OneOrMany
  periodUs : Option OneOrMany
  lcPeriodUs : Option OneOrMany
deriving DecidableEq

def guestBudgets (c : MemBw) : List Scalar :=
  normalizeToList (c.budget.getD (c.lcBudgets.getD (.many [])))

def guestPeriods (c : MemBw) : List Scalar :=
  normalizeToList (c.periodUs.getD (c.lcPeriodUs.getD (.many [])))

/-- Not disabled, with a budget and a period. -/
def eligible (c : MemBw) : Bool := c.enabled.getD true ∧ guestBudgets c ≠ [] ∧ guestPeriods c ≠ []

/-- `f"B{budget}_P{period}"`. -/
def variantKey (v : Scalar × Scalar) : Text := "B".toList ++ v.1.show ++ "_P".toList ++ v.2.show

/-- The values of the guest's variants, stored under their keys. -/
def guestVariants (c : MemBw) : List (Scalar × Scalar) :=
  (Dict.ofList ((guestBudgets c).flatMap fun budget => (guestPeriods c).map fun period =>
    (variantKey (budget, period), (budget, period)))).items.map Prod.snd

/-- `{"budget": budget, "period": period}`. -/
def budgetSettings (v : Scalar × Scalar) : MbrConfig :=
  .settings (.ofList [("budget".toList, some v.1), ("period".toList, some v.2)])

/-- The eligible guests, in the order of the mapping. -/
def eligibleGuests (mbrConfiguration : Dict Text MemBw) : List (Text × MemBw) :=
  mbrConfiguration.items.filter fun g => eligible g.2

def generateMbrAssignments (mbrConfiguration : Dict Text MemBw) : List (Dict Text MbrConfig) :=
  let guests := eligibleGuests mbrConfiguration
  if guests = [] then []
  else (product (guests.map fun g => guestVariants g.2)).map fun combination =>
    .ofList (((guests.map Prod.fst).zip combination).map fun g => (g.1, budgetSettings g.2))

/-! ### The mapping -/

/-- The scalar is the value, or one of its list. -/
def OneOrMany.Lists : OneOrMany → Scalar → Prop
  | .null, _ => False
  | .one t, s => s = t
  | .many l, s => s ∈ l

/-- One of the values of two spellings of a key: of the second one's only if
the first one is absent. -/
def Given (first second : Option OneOrMany) (s : Scalar) : Prop :=
  (∃ v, first = some v ∧ v.Lists s) ∨ first = none ∧ ∃ v, second = some v ∧ v.Lists s

def IsBudget (c : MemBw) (s : Scalar) : Prop := Given c.budget c.lcBudgets s

def IsPeriod (c : MemBw) (s : Scalar) : Prop := Given c.periodUs c.lcPeriodUs s

/-- The guest is not disabled and has a budget and a period. -/
def Eligible (c : MemBw) : Prop := c.enabled ≠ some false ∧ (∃ s, IsBudget c s) ∧ ∃ s, IsPeriod c s

def OneOrMany.All (P : Scalar → Prop) : OneOrMany → Prop
  | .null => True
  | .one s => P s
  | .many l => ∀ s ∈ l, P s

/-- The integer of a scalar that is one. -/
def Scalar.number : Scalar → ℤ
  | .int n => n
  | .str _ => 0

/-- All budgets and periods of the entry are integers. -/
def Numbers (c : MemBw) : Prop :=
  ∀ o ∈ [c.budget, c.lcBudgets, c.periodUs, c.lcPeriodUs], ∀ v ∈ o, v.All fun s => ∃ n : ℤ, s = .int n

instance (s : Scalar) : Decidable (∃ n : ℤ, s = .int n) :=
  match s with
  | .int n => .isTrue ⟨n, rfl⟩
  | .str _ => .isFalse fun ⟨_, h⟩ => Scalar.noConfusion h

instance (P : Scalar → Prop) [DecidablePred P] : ∀ v : OneOrMany, Decidable (v.All P)
  | .null => .isTrue trivial
  | .one s => inferInstanceAs (Decidable (P s))
  | .many l => inferInstanceAs (Decidable (∀ s ∈ l, P s))

instance (c : MemBw) : Decidable (Numbers c) :=
  inferInstanceAs (Decidable (∀ o ∈ [c.budget, c.lcBudgets, c.periodUs, c.lcPeriodUs], ∀ v ∈ o,
    v.All fun s => ∃ n : ℤ, s = .int n))

theorem mem_normalizeToList {v : OneOrMany} {s : Scalar} : s ∈ normalizeToList v ↔ v.Lists s := by
  cases v with
  | null => exact List.mem_nil_iff s
  | one t => exact List.mem_singleton
  | many l => exact Iff.rfl

theorem mem_normalizeToList_getD {first second : Option OneOrMany} {s : Scalar} :
    s ∈ normalizeToList (first.getD (second.getD (.many []))) ↔ Given first second s := by
  rw [mem_normalizeToList, Given]
  cases first with
  | some v => simp
  | none =>
    cases second with
    | some v => simp
    | none => simp [OneOrMany.Lists]

theorem mem_guestBudgets {c : MemBw} {s : Scalar} : s ∈ guestBudgets c ↔ IsBudget c s := mem_normalizeToList_getD

theorem mem_guestPeriods {c : MemBw} {s : Scalar} : s ∈ guestPeriods c ↔ IsPeriod c s := mem_normalizeToList_getD

theorem eligible_iff (c : MemBw) : eligible c = true ↔ Eligible c := by
  have hne : ∀ l : List Scalar, l ≠ [] ↔ ∃ s, s ∈ l := fun l =>
    ⟨List.exists_mem_of_ne_nil l, fun ⟨_, hs⟩ => List.ne_nil_of_mem hs⟩
  have henabled : c.enabled.getD true = true ↔ c.enabled ≠ some false := by
    cases c.enabled with
    | none => simp
    | some b => cases b <;> simp
  rw [eligible, decide_eq_true_iff, Eligible, henabled, hne, hne]
  simp only [mem_guestBudgets, mem_guestPeriods]

instance (c : MemBw) : Decidable (Eligible c) := decidable_of_iff _ (eligible_iff c)

theorem OneOrMany.All.of_lists {P : Scalar → Prop} {v : OneOrMany} {s : Scalar} (h : v.All P)
    (hs : v.Lists s) : P s := by
  cases v with
  | null => cases hs
  | one t => exact hs ▸ h
  | many l => exact h s hs

/-- The values the code reads are integers. -/
theorem Numbers.exists_int {c : MemBw} (h : Numbers c) {s : Scalar} (hs : s ∈ guestBudgets c ++ guestPeriods c) :
    ∃ n : ℤ, s = .int n := by
  have hgiven : ∀ first second, first ∈ [c.budget, c.lcBudgets, c.periodUs, c.lcPeriodUs] →
      second ∈ [c.budget, c.lcBudgets, c.periodUs, c.lcPeriodUs] → Given first second s → ∃ n : ℤ, s = .int n := by
    rintro first second hf hsec (⟨v, rfl, hv⟩ | ⟨-, v, rfl, hv⟩)
    · exact (h _ hf v rfl).of_lists hv
    · exact (h _ hsec v rfl).of_lists hv
  rcases List.mem_append.mp hs with hs | hs
  · exact hgiven _ _ (by simp) (by simp) (mem_guestBudgets.mp hs)
  · exact hgiven _ _ (by simp) (by simp) (mem_guestPeriods.mp hs)

/-! ### The variants of a guest -/

/-- Every budget with every period, but of those with one key only one. -/
theorem mem_guestVariants_of {c : MemBw} {v : Scalar × Scalar} (h : v ∈ guestVariants c) :
    v.1 ∈ guestBudgets c ∧ v.2 ∈ guestPeriods c := by
  obtain ⟨e, he, rfl⟩ := List.mem_map.mp h
  obtain ⟨b, hb, he⟩ := List.mem_flatMap.mp (Dict.mem_of_mem_ofList he)
  obtain ⟨p, hp, rfl⟩ := List.mem_map.mp he
  exact ⟨hb, hp⟩

theorem guestVariants_ne_nil {c : MemBw} (h : eligible c = true) : guestVariants c ≠ [] := by
  obtain ⟨-, hb, hp⟩ := of_decide_eq_true h
  rw [guestVariants, ne_eq, List.map_eq_nil_iff]
  refine Dict.items_ofList_ne_nil ?_
  obtain ⟨b, hb⟩ := List.exists_mem_of_ne_nil _ hb
  obtain ⟨p, hp⟩ := List.exists_mem_of_ne_nil _ hp
  exact List.ne_nil_of_mem (List.mem_flatMap.mpr ⟨b, hb, List.mem_map_of_mem hp⟩)

theorem toMbrLines_budgetSettings (v : Scalar × Scalar) :
    toMbrLines (budgetSettings v) = generateMbrVariant v.1 v.2 := rfl

theorem budgetSettings_injective : Function.Injective budgetSettings := fun v w h => by
  have hd := MbrConfig.settings.inj h
  have hb : some (some v.1) = some (some w.1) := congrArg (fun d => d.get? "budget".toList) hd
  have hp : some (some v.2) = some (some w.2) := congrArg (fun d => d.get? "period".toList) hd
  simp only [Option.some.injEq] at hb hp
  exact Prod.ext hb hp

/-- The stored values are distinct: each has its own key. -/
theorem nodup_guestVariants (c : MemBw) : (guestVariants c).Nodup := by
  have hkey : ∀ e ∈ (Dict.ofList ((guestBudgets c).flatMap fun budget => (guestPeriods c).map fun period =>
      (variantKey (budget, period), (budget, period)))).items, variantKey e.2 = e.1 := by
    intro e he
    obtain ⟨b, -, he⟩ := List.mem_flatMap.mp (Dict.mem_of_mem_ofList he)
    obtain ⟨p, -, rfl⟩ := List.mem_map.mp he
    rfl
  refine List.Nodup.of_map variantKey ?_
  rw [guestVariants, List.map_map]
  refine (List.map_congr_left hkey) ▸ Dict.nodup _

theorem variantKey_int_inj {b p b' p' : ℤ}
    (h : variantKey (.int b, .int p) = variantKey (.int b', .int p')) : b = b' ∧ p = p' := by
  have hu : ∀ i : ℤ, '_' ∉ showInt i := notMem_showInt (by decide) (by decide)
  have hsplit : ∀ b p : ℤ, variantKey (.int b, .int p) =
      "B".toList ++ (showInt b ++ '_' :: ("P".toList ++ showInt p)) := fun b p => by
    simp [variantKey, Scalar.show]
  rw [hsplit, hsplit, List.append_cancel_left_eq] at h
  have hb : showInt b = showInt b' := by
    refine (prefix_append_singleton ("P".toList ++ showInt p') (hu b) (hu b')).mp ?_
    exact ⟨"P".toList ++ showInt p, by rw [← h]; simp⟩
  rw [hb, List.append_cancel_left_eq, List.cons.injEq, List.append_cancel_left_eq] at h
  exact ⟨showInt_injective hb, showInt_injective h.2⟩

/-- Of numbers every budget is there with every period. -/
theorem mem_guestVariants {c : MemBw} (hc : Numbers c) {v : Scalar × Scalar} :
    v ∈ guestVariants c ↔ v.1 ∈ guestBudgets c ∧ v.2 ∈ guestPeriods c := by
  refine ⟨mem_guestVariants_of, fun ⟨hb, hp⟩ => List.mem_map.mpr ⟨(variantKey v, v), ?_, rfl⟩⟩
  refine (Dict.mem_ofList_of_agree fun e he e' he' hk => ?_).mpr
    (List.mem_flatMap.mpr ⟨v.1, hb, List.mem_map.mpr ⟨v.2, hp, rfl⟩⟩)
  obtain ⟨b, hb, he⟩ := List.mem_flatMap.mp he
  obtain ⟨p, hp, rfl⟩ := List.mem_map.mp he
  obtain ⟨b', hb', he'⟩ := List.mem_flatMap.mp he'
  obtain ⟨p', hp', rfl⟩ := List.mem_map.mp he'
  obtain ⟨b, rfl⟩ := hc.exists_int (List.mem_append_left _ hb)
  obtain ⟨p, rfl⟩ := hc.exists_int (List.mem_append_right _ hp)
  obtain ⟨b', rfl⟩ := hc.exists_int (List.mem_append_left _ hb')
  obtain ⟨p', rfl⟩ := hc.exists_int (List.mem_append_right _ hp')
  obtain ⟨rfl, rfl⟩ := variantKey_int_inj hk
  rfl

/-! ### The assignments -/

theorem nodup_eligibleGuests (m : Dict Text MemBw) : ((eligibleGuests m).map Prod.fst).Nodup :=
  m.nodup.sublist (List.filter_sublist.map _)

theorem eligible_of_mem {m : Dict Text MemBw} {g : Text × MemBw} (h : g ∈ eligibleGuests m) :
    eligible g.2 = true := (List.mem_filter.mp h).2

/-- Values in the order of distinct names are a function of the name. -/
theorem exists_fun {β : Type} [Inhabited β] : ∀ {gs : List (Text × MemBw)} {c : List β},
    (gs.map Prod.fst).Nodup → c.length = gs.length → ∃ f : Text → β, c = gs.map fun g => f g.1
  | [], [], _, _ => ⟨fun _ => default, rfl⟩
  | g :: gs, x :: c, hnd, hlen => by
    obtain ⟨hg, hnd⟩ := List.nodup_cons.mp hnd
    obtain ⟨f, rfl⟩ := exists_fun hnd (Nat.succ.inj hlen)
    refine ⟨Function.update f g.1 x, ?_⟩
    rw [List.map_cons, Function.update_self]
    refine congrArg _ (List.map_congr_left fun g' hg' => ?_)
    rw [Function.update_of_ne]
    exact fun heq => hg (heq ▸ List.mem_map_of_mem hg')

/-- The guests with the settings that `f` gives to their names. -/
def assigned (f : Text → Scalar × Scalar) (gs : List (Text × MemBw)) : List (Text × MbrConfig) :=
  gs.map fun g => (g.1, budgetSettings (f g.1))

theorem map_fst_assigned (f : Text → Scalar × Scalar) (gs : List (Text × MemBw)) :
    (assigned f gs).map Prod.fst = gs.map Prod.fst := by
  rw [assigned, List.map_map]
  rfl

theorem zip_assigned (f : Text → Scalar × Scalar) : ∀ gs : List (Text × MemBw),
    ((gs.map Prod.fst).zip (gs.map fun g => f g.1)).map (fun g => (g.1, budgetSettings g.2)) =
      assigned f gs
  | [] => rfl
  | g :: gs => by
    rw [List.map_cons, List.map_cons, List.zip_cons_cons, List.map_cons, zip_assigned f gs]
    rfl

/-- The variants chosen by `f` are a combination iff each is one of the
guest's own. -/
theorem map_mem_product {f : Text → Scalar × Scalar} {gs : List (Text × MemBw)} :
    (gs.map fun g => f g.1) ∈ product (gs.map fun g => guestVariants g.2) ↔
      ∀ g ∈ gs, f g.1 ∈ guestVariants g.2 := by
  rw [mem_product, List.forall₂_map_left_iff, List.forall₂_map_right_iff, List.forall₂_same]

theorem generateMbrAssignments_eq_nil {m : Dict Text MemBw} (hm : eligibleGuests m = []) :
    generateMbrAssignments m = [] := by
  unfold generateMbrAssignments
  dsimp only
  rw [if_pos hm]

/-- The assignments are the functions that give each eligible guest one of
its variants, in the order of the mapping. -/
theorem mem_generateMbrAssignments {m : Dict Text MemBw} (hm : eligibleGuests m ≠ [])
    {v : Dict Text MbrConfig} : v ∈ generateMbrAssignments m ↔ ∃ f : Text → Scalar × Scalar,
      (∀ g ∈ eligibleGuests m, f g.1 ∈ guestVariants g.2) ∧ v.items = assigned f (eligibleGuests m) := by
  have hnd := nodup_eligibleGuests m
  have hitems : ∀ f, (Dict.ofList (assigned f (eligibleGuests m))).items = assigned f (eligibleGuests m) :=
    fun f => Dict.items_ofList (by rwa [map_fst_assigned])
  unfold generateMbrAssignments
  dsimp only
  rw [if_neg hm, List.mem_map]
  constructor
  · rintro ⟨c, hc, rfl⟩
    have hlen := (mem_product.mp hc).length_eq
    rw [List.length_map] at hlen
    obtain ⟨f, rfl⟩ := exists_fun hnd hlen
    refine ⟨f, map_mem_product.mp hc, ?_⟩
    rw [zip_assigned, hitems]
  · rintro ⟨f, hf, hv⟩
    refine ⟨_, map_mem_product.mpr hf, ?_⟩
    rw [zip_assigned, Dict.mk.injEq, hitems, hv]

/-- No two combinations are the same assignment. -/
theorem nodup_generateMbrAssignments (m : Dict Text MemBw) : (generateMbrAssignments m).Nodup := by
  unfold generateMbrAssignments
  dsimp only
  split
  · exact List.nodup_nil
  have hprod : (product ((eligibleGuests m).map fun g => guestVariants g.2)).Nodup :=
    nodup_product fun l hl => by
      obtain ⟨g, -, rfl⟩ := List.mem_map.mp hl
      exact nodup_guestVariants g.2
  refine (List.nodup_map_iff_inj_on hprod).mpr fun c hc d hd h => ?_
  obtain ⟨f, rfl⟩ := exists_fun (nodup_eligibleGuests m) (by
    rw [(mem_product.mp hc).length_eq, List.length_map])
  obtain ⟨g, rfl⟩ := exists_fun (nodup_eligibleGuests m) (by
    rw [(mem_product.mp hd).length_eq, List.length_map])
  rw [zip_assigned, zip_assigned] at h
  have hitems := congrArg Dict.items h
  rw [Dict.items_ofList (by rw [map_fst_assigned]; exact nodup_eligibleGuests m),
    Dict.items_ofList (by rw [map_fst_assigned]; exact nodup_eligibleGuests m)] at hitems
  refine List.map_congr_left fun x hx => budgetSettings_injective ?_
  exact (Prod.mk.inj (List.map_inj_left.mp hitems x hx)).2

/-- The guests the code keeps are the eligible ones. -/
theorem eligibleGuests_eq (m : Dict Text MemBw) :
    eligibleGuests m = m.items.filter fun g => Eligible g.2 := by
  refine List.filter_congr fun g _ => ?_
  rw [Bool.eq_iff_iff, eligible_iff, decide_eq_true_iff]

/-- **Main result.** Of integers the assignments are the exact product: each
choice of one of its budgets and one of its periods for each eligible guest,
in the order of the mapping, is there exactly once, also where budgets or
periods are repeated. -/
theorem assignments_exact (m : Dict Text MemBw) (h : ∀ g ∈ m.items, Numbers g.2) :
    ((∀ g ∈ m.items, ¬ Eligible g.2) → generateMbrAssignments m = []) ∧
    ((∃ g ∈ m.items, Eligible g.2) → (generateMbrAssignments m).Nodup ∧ ∀ v,
      v ∈ generateMbrAssignments m ↔ ∃ f : Text → ℤ × ℤ,
        (∀ g ∈ m.items, Eligible g.2 → IsBudget g.2 (.int (f g.1).1) ∧ IsPeriod g.2 (.int (f g.1).2)) ∧
        v.items = (m.items.filter fun g => Eligible g.2).map fun g =>
          (g.1, .settings (.ofList [("budget".toList, some (.int (f g.1).1)),
            ("period".toList, some (.int (f g.1).2))]))) := by
  have hguests := eligibleGuests_eq m
  have hmem : ∀ g, g ∈ eligibleGuests m ↔ g ∈ m.items ∧ Eligible g.2 := fun g => by
    rw [hguests, List.mem_filter, decide_eq_true_iff]
  have hnum : ∀ g ∈ eligibleGuests m, Numbers g.2 := fun g hg => h g ((hmem g).mp hg).1
  refine ⟨fun hm => ?_, fun ⟨g, hg, hel⟩ => ⟨nodup_generateMbrAssignments m, fun v => ?_⟩⟩
  · refine generateMbrAssignments_eq_nil (List.eq_nil_iff_forall_not_mem.mpr fun g hg => ?_)
    exact hm g ((hmem g).mp hg).1 ((hmem g).mp hg).2
  rw [mem_generateMbrAssignments (List.ne_nil_of_mem ((hmem g).mpr ⟨hg, hel⟩)), ← hguests]
  constructor
  · rintro ⟨f, hf, hv⟩
    -- the numbers of the values
    have hn : ∀ g ∈ eligibleGuests m, f g.1 = (.int (f g.1).1.number, .int (f g.1).2.number) := fun g hg => by
      have hfg := (mem_guestVariants (hnum g hg)).mp (hf g hg)
      obtain ⟨b, hb⟩ := (hnum g hg).exists_int (List.mem_append_left _ hfg.1)
      obtain ⟨p, hp⟩ := (hnum g hg).exists_int (List.mem_append_right _ hfg.2)
      exact Prod.ext (by rw [hb]; rfl) (by rw [hp]; rfl)
    refine ⟨fun name => ((f name).1.number, (f name).2.number), fun g hg hel => ?_, ?_⟩
    · have hg := (hmem g).mpr ⟨hg, hel⟩
      have hfg := (mem_guestVariants (hnum g hg)).mp (hf g hg)
      rw [hn g hg, mem_guestBudgets, mem_guestPeriods] at hfg
      exact hfg
    · rw [hv, assigned]
      refine List.map_congr_left fun g hg => ?_
      rw [hn g hg]
      rfl
  · rintro ⟨f, hf, hv⟩
    refine ⟨fun name => (.int (f name).1, .int (f name).2), fun g hg => ?_, hv⟩
    rw [mem_guestVariants (hnum g hg), mem_guestBudgets, mem_guestPeriods]
    exact hf g ((hmem g).mp hg).1 ((hmem g).mp hg).2

/-- A guest with a repeated budget, one that is disabled, and one with the
other spellings. -/
def repeatedBudget : Dict Text MemBw := .ofList
  [("linux".toList, ⟨none, some (.many [.int 1, .int 2, .int 1]), none, none, some (.one (.int 9))⟩),
    ("zephyr".toList, ⟨some false, some (.one (.int 3)), none, some (.one (.int 9)), none⟩),
    ("baremetal".toList, ⟨none, none, some (.one (.int 5)), some (.one (.int 7)), some (.one (.int 8))⟩)]

/-- Two assignments, with the period that is not of the second spelling. -/
theorem assignments_exact_repeated : (∀ g ∈ repeatedBudget.items, Numbers g.2) ∧
    (generateMbrAssignments repeatedBudget).Nodup ∧ (generateMbrAssignments repeatedBudget).length = 2 ∧
    ∀ v ∈ generateMbrAssignments repeatedBudget, v.keys = ["linux".toList, "baremetal".toList] := by
  have hnum : ∀ g ∈ repeatedBudget.items, Numbers g.2 := by decide
  have hel : ∃ g ∈ repeatedBudget.items, Eligible g.2 := by decide
  obtain ⟨hnd, hall⟩ := (assignments_exact repeatedBudget hnum).2 hel
  refine ⟨hnum, hnd, by decide, fun v hv => ?_⟩
  obtain ⟨f, -, hitems⟩ := (hall v).mp hv
  have hnames : (repeatedBudget.items.filter fun g => Eligible g.2).map Prod.fst =
      ["linux".toList, "baremetal".toList] := by decide
  rw [Dict.keys, hitems, List.map_map, ← hnames]
  rfl

/-- A budget of the second spelling does not count where the first one is
there, though empty. -/
theorem second_spelling_ignored : ∃ c : MemBw, Numbers c ∧ c.enabled = none ∧
    (∃ v, c.lcBudgets = some v ∧ v.Lists (.int 100)) ∧ (∃ v, c.periodUs = some v ∧ v.Lists (.int 10)) ∧
    generateMbrAssignments (.ofList [("linux".toList, c)]) = [] :=
  ⟨⟨none, some (.many []), some (.many [.int 100]), some (.one (.int 10)), none⟩, by decide, rfl,
    ⟨_, rfl, List.mem_singleton_self _⟩, ⟨_, rfl, rfl⟩, by decide⟩

/-! ### The texts of the assignments -/

/-- The texts made of the assignments of a mapping. -/
def assignmentTexts (patterns : List Text) (content filename : Text) (m : Dict Text MemBw) : List Text :=
  (generateMbrCode content filename patterns ((generateMbrAssignments m).map .keyed)).map Prod.snd

/-- The eligible guests that share the placeholder `p`: those whose
lower-cased name contains its hint. -/
def sharing (p : Text) (m : Dict Text MemBw) : List (Text × MemBw) :=
  (eligibleGuests m).filter fun g => (find (patternGuestHint p) (lower g.1)).isSome

/-- What is put in for a placeholder comes from the guests that share it. -/
theorem mbrEntries_assigned {m : Dict Text MemBw} {v : Dict Text MbrConfig} {f : Text → Scalar × Scalar}
    (hv : v.items = assigned f (eligibleGuests m)) (p : Text) :
    mbrEntries v (patternGuestHint p) =
      (sharing p m).map fun g => (g.1, generateMbrVariant (f g.1).1 (f g.1).2) := by
  have hlines : guestLineVariants v =
      (eligibleGuests m).map fun g => (g.1, generateMbrVariant (f g.1).1 (f g.1).2) := by
    rw [guestLineVariants, hv, assigned, List.map_map]
    simp only [Function.comp_def, toMbrLines_budgetSettings]
    refine List.filter_eq_self.mpr fun e he => ?_
    obtain ⟨g, -, rfl⟩ := List.mem_map.mp he
    exact decide_eq_true (List.cons_ne_nil _ _)
  rw [← guestLineVariants_eq, hlines, sharing]
  split
  · next hint =>
    rw [hint, List.filter_eq_self.mpr fun g _ => find_isSome.mpr List.nil_infix]
  · rw [List.filter_map]
    rfl

/-- The text in which the guests have the settings of `f`. -/
def assignedText (patterns : List Text) (m : Dict Text MemBw) (f : Text → Scalar × Scalar) (content : Text) :
    Text :=
  patterns.foldl (fun text p => spliceBack (fun k => some (mbrConfigStr ((sharing p m).map fun g =>
    (g.1, generateMbrVariant (f g.1).1 (f g.1).2)) k)) (occurrences p text) text) content

theorem mbrText_assigned {m : Dict Text MemBw} {v : Dict Text MbrConfig} {f : Text → Scalar × Scalar}
    (hv : v.items = assigned f (eligibleGuests m)) (patterns : List Text) (content : Text) :
    (mbrText patterns content (.keyed v)).1 = assignedText patterns m f content := by
  rw [mbrText, assignedText]
  refine List.foldl_ext _ _ _ fun text p _ => ?_
  rw [keyedPattern_eq, mbrEntries_assigned hv]

theorem generateMbrAssignments_ne_nil {m : Dict Text MemBw} (hm : eligibleGuests m ≠ []) :
    generateMbrAssignments m ≠ [] := by
  unfold generateMbrAssignments
  dsimp only
  rw [if_neg hm, ne_eq, List.map_eq_nil_iff]
  refine product_ne_nil fun l hl => ?_
  obtain ⟨g, hg, rfl⟩ := List.mem_map.mp hl
  exact guestVariants_ne_nil (eligible_of_mem hg)

theorem mem_assignmentTexts {patterns : List Text} {content filename : Text} {m : Dict Text MemBw}
    (hm : eligibleGuests m ≠ []) {t : Text} : t ∈ assignmentTexts patterns content filename m ↔
      ∃ f : Text → Scalar × Scalar, (∀ g ∈ eligibleGuests m, f g.1 ∈ guestVariants g.2) ∧
        t = assignedText patterns m f content := by
  rw [assignmentTexts, map_snd_generateMbrCode,
    if_neg (mt List.map_eq_nil_iff.mp (generateMbrAssignments_ne_nil hm)), List.map_map, List.mem_map]
  constructor
  · rintro ⟨v, hv, rfl⟩
    obtain ⟨f, hf, hv⟩ := (mem_generateMbrAssignments hm).mp hv
    exact ⟨f, hf, mbrText_assigned hv patterns content⟩
  · rintro ⟨f, hf, rfl⟩
    have hnd : ((assigned f (eligibleGuests m)).map Prod.fst).Nodup := by
      rw [map_fst_assigned]
      exact nodup_eligibleGuests m
    exact ⟨⟨_, hnd⟩, (mem_generateMbrAssignments hm).mpr ⟨f, hf, rfl⟩,
      mbrText_assigned rfl patterns content⟩

theorem assignedText_congr {patterns : List Text} {m m' : Dict Text MemBw}
    (h : ∀ p ∈ patterns, sharing p m = sharing p m') (f : Text → Scalar × Scalar) (content : Text) :
    assignedText patterns m f content = assignedText patterns m' f content := by
  rw [assignedText, assignedText]
  refine List.foldl_ext _ _ _ fun text p hp => ?_
  rw [h p hp]

/-- **Main result.** The texts do not depend on the order of the mapping
beyond the order of the guests that share a placeholder. -/
theorem texts_perm (patterns : List Text) (content filename : Text) {m m' : Dict Text MemBw}
    (hperm : m.items.Perm m'.items) (h : ∀ p ∈ patterns, sharing p m = sharing p m') (t : Text) :
    t ∈ assignmentTexts patterns content filename m ↔ t ∈ assignmentTexts patterns content filename m' := by
  have hguests : (eligibleGuests m).Perm (eligibleGuests m') := hperm.filter _
  by_cases hm : eligibleGuests m = []
  · have hm' : eligibleGuests m' = [] := (hm ▸ hguests).symm.eq_nil
    rw [assignmentTexts, assignmentTexts, generateMbrAssignments_eq_nil hm, generateMbrAssignments_eq_nil hm']
  have hm' : eligibleGuests m' ≠ [] := fun hm' => hm (hm' ▸ hguests).eq_nil
  rw [mem_assignmentTexts hm, mem_assignmentTexts hm']
  refine exists_congr fun f => and_congr ?_ ?_
  · exact forall_congr' fun g => by rw [hguests.mem_iff]
  · rw [assignedText_congr h]

/-- A guest with one budget and one period. -/
def limit (budget period : ℤ) : MemBw := ⟨none, some (.one (.int budget)), none, some (.one (.int period)), none⟩

/-- A Linux guest and a bare-metal guest: each has its own placeholder. -/
theorem texts_perm_hints :
    join "\n".toList (generateMbrVariant (.int 100) (.int 1000)) ++ "\n.\n".toList ++
        join "\n".toList (generateMbrVariant (.int 200) (.int 1000)) ++ "\n".toList ∈
      assignmentTexts mbrPatterns twoLimits "base".toList
        (.ofList [("baremetal".toList, limit 200 1000), ("linux".toList, limit 100 1000)]) := by
  have hlinux : join "\n".toList (generateMbrVariant (.int 100) (.int 1000)) ++ "\n.\n".toList ++
        join "\n".toList (generateMbrVariant (.int 200) (.int 1000)) ++ "\n".toList ∈
      assignmentTexts mbrPatterns twoLimits "base".toList
        (.ofList [("linux".toList, limit 100 1000), ("baremetal".toList, limit 200 1000)]) := by
    decide +kernel
  exact (texts_perm mbrPatterns twoLimits "base".toList (.swap _ _ _) (by decide +kernel) _).mp hlinux

/-- Two Linux guests share the placeholder: the first in the mapping is
served. -/
theorem texts_depend_on_order : ∃ (m m' : Dict Text MemBw) (t : Text), m.items.Perm m'.items ∧
    t ∈ assignmentTexts mbrPatterns twoLimits "base".toList m ∧
    t ∉ assignmentTexts mbrPatterns twoLimits "base".toList m' := by
  refine ⟨.ofList [("linux1".toList, limit 100 1000), ("linux2".toList, limit 200 1000)],
    .ofList [("linux2".toList, limit 200 1000), ("linux1".toList, limit 100 1000)],
    join "\n".toList (generateMbrVariant (.int 100) (.int 1000)) ++ "\n.\n\n".toList, .swap _ _ _, ?_, ?_⟩
  · decide +kernel
  · decide +kernel

end TestEngine
end DaatMcs
