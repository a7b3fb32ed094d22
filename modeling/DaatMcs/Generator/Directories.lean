/-
# The directory of a setup's configurations

`main` has the configurations of a setup generated and then built. The path
they are written to is made of the setup's name: `main` deletes `_profiling`
from a name that has `profiling` in it, and the engine appends it again. The
path they are read from is made of the first entry of `list_setups`.
`directories_iff` is exactly when the two name one directory: with the usual paths,
when the name written is the first setup's.
-/
import DaatMcs.Lib.Literal
import DaatMcs.Lib.Paths

namespace DaatMcs
namespace Profiler

open Literal Paths

/-- The paths and the benchmark `read_config` keeps. -/
structure Locations where
  rootDir : Text
  configsDir : Text
  benchmark : Text
  root_abs : AbsPath rootDir

/-! ### The two paths -/

/-- What `generate_tests` of `main` passes on for a setup's name: the name, and
whether the profiler takes part. -/
def setupArgs (setupName : Text) : Text × Bool :=
  if (find "profiling".toList setupName).isSome then (replace "_profiling".toList [] setupName, true)
  else (setupName, false)

/-- `out_dir` of the engine's `generate_tests`. -/
def outDir (p : Locations) (setupName : Text) (includeProfiler : Bool) : Text :=
  p.rootDir ++ p.configsDir ++ "/".toList ++ p.benchmark ++ "/".toList ++ setupName ++
    if includeProfiler then "_profiling".toList else []

/-- Where the configurations of a setup are written. -/
def generatedDir (p : Locations) (setup : Text) : Text := outDir p (setupArgs setup).1 (setupArgs setup).2

/-- `config_dir` of `build_tests`; none is the `IndexError` of no setups. -/
def configDir (p : Locations) (listSetups : List Text) : Option Text :=
  listSetups.head?.map fun first => p.rootDir ++ osPathJoin p.configsDir [p.benchmark, first]

/-- The configurations of a setup are read from where they are written. -/
def Agree (p : Locations) (listSetups : List Text) (setup : Text) : Prop :=
  ∃ dir, configDir p listSetups = some dir ∧ components (generatedDir p setup) = components dir

/-! ### When they agree -/

/-- The name of a setup in the path written. -/
def writtenName (setup : Text) : Text :=
  if "profiling".toList <:+: setup then replace "_profiling".toList [] setup ++ "_profiling".toList
  else setup

/-- The path read ends where the path written does. With a relative benchmark
and a relative first setup behind a `configs_dir`, this is up to the last part.
An absolute one makes `os.path.join` drop what is before it, so the path written
must repeat it; and without `configs_dir` the path read lacks the separator
behind `root_dir`. -/
def SamePlace (p : Locations) (first written : Text) : Prop :=
  if isAbs first ∨ isAbs p.benchmark then
    ¬ Glued p.rootDir p.configsDir ∧
      components p.configsDir ++ components p.benchmark ++ components written =
        (if isAbs first then [] else components p.benchmark) ++ components first
  else if p.configsDir = [] ∧ p.rootDir ≠ ['/'] then
    p.benchmark = [] ∧ first = [] ∧ components written = []
  else components written = components first

section
variable (p : Locations)

theorem components_generatedDir (setup : Text) : components (generatedDir p setup) =
    components (p.rootDir ++ p.configsDir) ++ components p.benchmark ++ components (writtenName setup) := by
  have hargs : (setupArgs setup).1 ++ (if (setupArgs setup).2 then "_profiling".toList else []) =
      writtenName setup := by
    by_cases h : "profiling".toList <:+: setup
    · have hargs : setupArgs setup = (replace "_profiling".toList [] setup, true) :=
        if_pos (find_isSome.mpr h)
      have hname : writtenName setup = replace "_profiling".toList [] setup ++ "_profiling".toList := if_pos h
      rw [hargs, hname, if_pos rfl]
    · have hargs : setupArgs setup = (setup, false) := if_neg (mt find_isSome.mp h)
      have hname : writtenName setup = setup := if_neg h
      rw [hargs, hname, if_neg Bool.false_ne_true, List.append_nil]
  have hdir : generatedDir p setup =
      p.rootDir ++ p.configsDir ++ '/' :: (p.benchmark ++ '/' :: writtenName setup) := by
    rw [← hargs]
    unfold generatedDir outDir
    have hslash : "/".toList = ['/'] := rfl
    simp only [hslash, List.append_assoc, List.cons_append, List.nil_append]
  rw [hdir, components_append, components_append, List.append_assoc]

/-- The components of the path read. -/
theorem components_configDir (first : Text) :
    components (p.rootDir ++ osPathJoin p.configsDir [p.benchmark, first]) =
      if isAbs first then components p.rootDir ++ components first
      else if isAbs p.benchmark then components p.rootDir ++ components p.benchmark ++ components first
      else if p.configsDir ≠ [] then
        components (p.rootDir ++ p.configsDir) ++ components p.benchmark ++ components first
      else if p.benchmark ≠ [] then components (p.rootDir ++ p.benchmark) ++ components first
      else components (p.rootDir ++ first) := by
  show components (p.rootDir ++ joinPath (joinPath p.configsDir p.benchmark) first) = _
  by_cases hfirst : isAbs first = true
  · rw [if_pos hfirst, joinPath_abs _ hfirst, components_append_abs _ hfirst]
  rw [if_neg hfirst]
  by_cases hbench : isAbs p.benchmark = true
  · rw [if_pos hbench, joinPath_abs _ hbench, components_joinPath _ (ne_nil_of_isAbs hbench) hfirst,
      components_append_abs _ hbench]
  rw [if_neg hbench]
  by_cases hconfigs : p.configsDir = []
  · rw [if_neg (not_not.mpr hconfigs), hconfigs, joinPath_nil]
    by_cases hne : p.benchmark = []
    · rw [if_neg (not_not.mpr hne), hne, joinPath_nil]
    · rw [if_pos hne, components_joinPath _ hne hfirst]
  · rw [if_pos hconfigs, components_joinPath _ (joinPath_ne_nil hconfigs _) hfirst,
      components_joinPath _ hconfigs hbench]

end

/-- The two paths name one directory iff they end in the same place. -/
theorem components_eq_iff (p : Locations) (first setup : Text) :
    components (generatedDir p setup) =
      components (p.rootDir ++ osPathJoin p.configsDir [p.benchmark, first]) ↔
    SamePlace p first (writtenName setup) := by
  rw [components_generatedDir, components_configDir]
  generalize writtenName setup = written
  rw [SamePlace]
  by_cases hfirst : isAbs first = true
  · rw [if_pos hfirst, if_pos (Or.inl hfirst), if_pos hfirst, List.append_assoc,
      components_append_eq_iff p.root_abs, List.nil_append, List.append_assoc]
  rw [if_neg hfirst, if_neg hfirst]
  by_cases hbench : isAbs p.benchmark = true
  · rw [if_pos hbench, if_pos (Or.inr hbench), List.append_assoc, List.append_assoc,
      components_append_eq_iff p.root_abs, List.append_assoc]
  rw [if_neg hbench, if_neg (not_or.mpr ⟨hfirst, hbench⟩)]
  by_cases hconfigs : p.configsDir = []
  · -- `root_dir` is not separated from what follows, unless it is `/`
    rw [if_neg (not_not.mpr hconfigs), hconfigs, List.append_nil, eq_comm]
    have hslash : p.rootDir = ['/'] → ∀ x, ¬ Glued p.rootDir x := fun hroot x h => h.1 hroot
    by_cases hne : p.benchmark = []
    · rw [if_neg (not_not.mpr hne), hne, components_nil, List.append_nil]
      by_cases hroot : p.rootDir = ['/']
      · rw [if_neg fun h => h.2 hroot, components_not_glued (hslash hroot _), List.append_cancel_left_eq,
          eq_comm]
      rw [if_pos ⟨rfl, hroot⟩, and_iff_right rfl]
      by_cases hnil : first = []
      · rw [hnil, List.append_nil, List.self_eq_append_right, and_iff_right rfl]
      · refine iff_of_false (fun heq => ?_) fun h => hnil h.1
        refine components_glued_ne p.root_abs ⟨hroot, hnil, Bool.eq_false_iff.mpr hfirst⟩ []
          (components written) ?_
        rw [List.append_nil, heq]
    · rw [if_pos hne]
      by_cases hroot : p.rootDir = ['/']
      · rw [if_neg fun h => h.2 hroot, components_not_glued (hslash hroot _), List.append_cancel_left_eq,
          eq_comm]
      rw [if_pos ⟨rfl, hroot⟩]
      refine iff_of_false (fun heq => ?_) fun h => hne h.1
      rw [List.append_assoc] at heq
      exact components_glued_ne p.root_abs ⟨hroot, hne, Bool.eq_false_iff.mpr hbench⟩ _ _ heq
  · rw [if_pos hconfigs, if_neg fun h => hconfigs h.1, List.append_cancel_left_eq]

/-- **Main result.** The configurations of a setup are read from where they are
written iff the path made of the name written ends where that of the first
setup does. -/
theorem directories_iff (p : Locations) (listSetups : List Text) (setup : Text) :
    Agree p listSetups setup ↔
      ∃ first, listSetups.head? = some first ∧ SamePlace p first (writtenName setup) := by
  simp only [Agree, configDir, Option.map_eq_some_iff]
  constructor
  · rintro ⟨dir, ⟨first, hfirst, rfl⟩, h⟩
    exact ⟨first, hfirst, (components_eq_iff p first setup).mp h⟩
  · rintro ⟨first, hfirst, h⟩
    exact ⟨_, ⟨first, hfirst, rfl⟩, (components_eq_iff p first setup).mpr h⟩

/-- Where `/home/daat` holds the framework. -/
def usual : Locations where
  rootDir := "/home/daat".toList
  configsDir := "/configs".toList
  benchmark := "MiBench".toList
  root_abs := .inr ⟨"/home".toList, "daat".toList, by decide +kernel, by decide, by decide, by decide +kernel⟩

/-- The second of two setups is written elsewhere, and so is a first one with
`profiling` in another place than at its end. -/
theorem usual_not_agree :
    ¬ Agree usual ["solo_linux".toList, "interf_linux".toList] "interf_linux".toList ∧
    ¬ Agree usual ["profiling_linux".toList] "profiling_linux".toList := by
  constructor
  · rintro ⟨dir, hdir, h⟩
    obtain rfl := Option.some.inj hdir
    exact absurd h (by decide +kernel)
  · rintro ⟨dir, hdir, h⟩
    obtain rfl := Option.some.inj hdir
    exact absurd h (by decide +kernel)

/-- A setup's own name is written iff `profiling` does not come in it, or just
once, as the suffix that the engine appends. -/
theorem writtenName_eq_self_iff (setup : Text) : writtenName setup = setup ↔
    ¬ "profiling".toList <:+: setup ∨
      ∃ name, ¬ "_profiling".toList <:+: name ∧ setup = name ++ "_profiling".toList := by
  have hpat : "_profiling".toList = '_' :: "profiling".toList := rfl
  have hmark : '_' ∉ "profiling".toList := by decide
  have hconcat : ∀ name : Text, replace "_profiling".toList [] (name ++ "_profiling".toList) =
      replace "_profiling".toList [] name := fun name => by
    rw [hpat, replace_concat hmark, List.append_nil]
  have hself : ∀ name : Text, replace "_profiling".toList [] name = name ↔ ¬ "_profiling".toList <:+: name :=
    fun name => replace_eq_self_iff (by rw [hpat]; exact List.cons_ne_nil _ _)
  by_cases h : "profiling".toList <:+: setup
  · have hname : writtenName setup = replace "_profiling".toList [] setup ++ "_profiling".toList := if_pos h
    rw [hname, or_iff_right (not_not.mpr h)]
    constructor
    · intro heq
      refine ⟨replace "_profiling".toList [] setup, (hself _).mp ?_, heq.symm⟩
      rw [← hconcat, heq]
    · rintro ⟨name, hnot, rfl⟩
      rw [hconcat, (hself name).mpr hnot]
  · have hname : writtenName setup = setup := if_neg h
    exact iff_of_true hname (.inl h)

end Profiler
end DaatMcs
