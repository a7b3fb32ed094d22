/-
# Regular expressions with backtracking

Patterns as Python's `re` matches them: a match is tried in a fixed order,
and the first way to match the whole pattern counts. `matches` lists all ways
to match at the start of a text in that order: the left side of an
alternative before the right one, more characters before fewer for a greedy
repeat, fewer before more for a lazy one. Only classes of characters are
repeated.

Key theorems: `mem_matches_seq` and its kin (what a match is, whatever the
order), `captures_lazy_seq` and `captures_greedy_seq` (which of the ways a
repeat takes), `matches_append` and `search_append` (matching does not look at
the text behind a match).
-/
import DaatMcs.Lib.Text
import Mathlib.Data.List.Infix

namespace DaatMcs
namespace Regex

/-- A regular expression. -/
inductive Pattern
  /-- A text without special characters. -/
  | lit (w : Text)
  /-- One character of a class. -/
  | set (p : Char → Bool)
  /-- `[..]{min,}`, as many characters as possible. -/
  | greedy (p : Char → Bool) (min : ℕ)
  /-- `[..]{min,}?`, as few as possible. -/
  | lazy (p : Char → Bool) (min : ℕ)
  | seq (r s : Pattern)
  | alt (r s : Pattern)
  /-- `(?P<name>..)`. -/
  | group (name : String) (r : Pattern)
  /-- `$`: the end, or before a newline at the end. -/
  | eos

/-- `(?:..)?`. -/
def Pattern.opt (r : Pattern) : Pattern := .alt r (.lit [])

/-- Patterns one after the other. -/
def Pattern.concat (rs : List Pattern) : Pattern := rs.foldr .seq (.lit [])

/-- `.`. -/
def dot (c : Char) : Bool := c ≠ '\n'

/-- A way to match at the start of a text: the groups it sets, the text it
takes and the rest. -/
structure Match where
  groups : List (String × Text)
  taken : Text
  rest : Text
deriving DecidableEq

/-- `m.group(name)`: the last text the group took, none if it took no part. -/
def Match.group? (m : Match) (name : String) : Option Text :=
  (m.groups.reverse.find? fun g => g.1 = name).map Prod.snd

/-- A match of two patterns in turn. -/
def Match.append (m n : Match) : Match := ⟨m.groups ++ n.groups, m.taken ++ n.taken, n.rest⟩

/-- The ways to cut a run of a class off a text, shortest first. -/
def runs (p : Char → Bool) : Text → List (Text × Text)
  | [] => [([], [])]
  | c :: cs => ([], c :: cs) :: if p c then (runs p cs).map fun x => (c :: x.1, x.2) else []

/-- The runs of at least `min` characters, shortest first. -/
def runMatches (p : Char → Bool) (min : ℕ) (s : Text) : List Match :=
  ((runs p s).filter fun x => min ≤ x.1.length).map fun x => ⟨[], x.1, x.2⟩

/-- The ways to match at the start of a text, in the order they are tried. -/
@[grind =]
def Pattern.matches : Pattern → Text → List Match
  | .lit w, s => if w.isPrefixOf s then [⟨[], w, s.drop w.length⟩] else []
  | .set p, s =>
    match s with
    | [] => []
    | c :: cs => if p c then [⟨[], [c], cs⟩] else []
  | .greedy p min, s => (runMatches p min s).reverse
  | .lazy p min, s => runMatches p min s
  | .seq r t, s => (r.matches s).flatMap fun m => (t.matches m.rest).map m.append
  | .alt r t, s => r.matches s ++ t.matches s
  | .group name r, s => (r.matches s).map fun m => { m with groups := m.groups ++ [(name, m.taken)] }
  | .eos, s => if s = [] ∨ s = ['\n'] then [⟨[], [], s⟩] else []

/-- `re.match`. -/
def Pattern.first (r : Pattern) (s : Text) : Option Match := (r.matches s).head?

/-- `re.search`: the first place with a match. -/
def Pattern.search (r : Pattern) (s : Text) : Option Match := s.tails.findSome? r.first

/-- `re.sub` with a text for the replacement. After an empty match the next
one at that place must not be empty; `fuel` bounds the rounds. -/
def Pattern.subFrom (r : Pattern) (repl : Text) : (fuel : ℕ) → (mustAdvance : Bool) → Text → Text
  | 0, _, s => s
  | fuel + 1, mustAdvance, s =>
    match (r.matches s).find? fun m => !mustAdvance || m.taken ≠ [] with
    | some m => repl ++ subFrom r repl fuel (m.taken = []) m.rest
    | none =>
      match s with
      | [] => []
      | c :: cs => c :: subFrom r repl fuel false cs

def Pattern.sub (r : Pattern) (repl s : Text) : Text := r.subFrom repl (2 * s.length + 2) false s

/-- `re.findall` of a pattern without groups, with the same rule. -/
def Pattern.findAllFrom (r : Pattern) : (fuel : ℕ) → (mustAdvance : Bool) → Text → List Text
  | 0, _, _ => []
  | fuel + 1, mustAdvance, s =>
    match (r.matches s).find? fun m => !mustAdvance || m.taken ≠ [] with
    | some m => m.taken :: findAllFrom r fuel (m.taken = []) m.rest
    | none =>
      match s with
      | [] => []
      | _ :: cs => findAllFrom r fuel false cs

def Pattern.findAll (r : Pattern) (s : Text) : List Text := r.findAllFrom (2 * s.length + 2) false s

example : (Pattern.lazy dot 0).sub ['-'] "abc".toList = "-------".toList := by decide

/-! ### What a match is -/

theorem mem_runs {p : Char → Bool} {x : Text × Text} : ∀ {s : Text},
    x ∈ runs p s ↔ x.1 ++ x.2 = s ∧ ∀ c ∈ x.1, p c = true
  | [] => by
    rw [runs, List.mem_singleton, List.append_eq_nil_iff]
    constructor
    · rintro rfl
      exact ⟨⟨rfl, rfl⟩, fun c hc => by cases hc⟩
    · rintro ⟨⟨h₁, h₂⟩, -⟩
      exact Prod.ext h₁ h₂
  | c :: cs => by
    rw [runs, List.mem_cons]
    constructor
    · rintro (rfl | h)
      · exact ⟨rfl, fun c hc => by cases hc⟩
      · split_ifs at h with hc
        · obtain ⟨y, hy, rfl⟩ := List.mem_map.mp h
          obtain ⟨hcat, hall⟩ := mem_runs.mp hy
          exact ⟨by rw [List.cons_append, hcat], List.forall_mem_cons.mpr ⟨hc, hall⟩⟩
        · cases h
    · obtain ⟨_ | ⟨d, ds⟩, rest⟩ := x
      · rintro ⟨h, -⟩
        exact .inl (Prod.ext rfl h)
      · rintro ⟨h, hall⟩
        rw [List.cons_append, List.cons.injEq] at h
        obtain ⟨rfl, h⟩ := h
        rw [if_pos (hall d List.mem_cons_self)]
        exact .inr (List.mem_map.mpr ⟨(ds, rest),
          mem_runs.mpr ⟨h, fun e he => hall e (List.mem_cons_of_mem _ he)⟩, rfl⟩)

theorem mem_runMatches {p : Char → Bool} {min : ℕ} {s : Text} {m : Match} :
    m ∈ runMatches p min s ↔ m.groups = [] ∧ m.taken ++ m.rest = s ∧
      (∀ c ∈ m.taken, p c = true) ∧ min ≤ m.taken.length := by
  simp only [runMatches, List.mem_map, List.mem_filter, mem_runs, decide_eq_true_eq]
  constructor
  · rintro ⟨x, ⟨⟨h, hall⟩, hmin⟩, rfl⟩
    exact ⟨rfl, h, hall, hmin⟩
  · rintro ⟨hg, h, hall, hmin⟩
    exact ⟨(m.taken, m.rest), ⟨⟨h, hall⟩, hmin⟩, by rw [← hg]⟩

theorem mem_matches_lit {w s : Text} {m : Match} :
    m ∈ (Pattern.lit w).matches s ↔ m.groups = [] ∧ m.taken = w ∧ w ++ m.rest = s := by
  rw [Pattern.matches]
  split_ifs with h
  · obtain ⟨t, rfl⟩ := List.isPrefixOf_iff_prefix.mp h
    rw [List.mem_singleton, List.drop_left, List.append_cancel_left_eq]
    constructor
    · rintro rfl
      exact ⟨rfl, rfl, rfl⟩
    · obtain ⟨g, x, r⟩ := m
      rintro ⟨rfl, rfl, rfl⟩
      rfl
  · simp only [List.not_mem_nil, false_iff, not_and]
    rintro - - rfl
    exact h (List.isPrefixOf_iff_prefix.mpr (List.prefix_append _ _))

theorem mem_matches_seq {r t : Pattern} {s : Text} {m : Match} :
    m ∈ (Pattern.seq r t).matches s ↔
      ∃ a ∈ r.matches s, ∃ b ∈ t.matches a.rest, a.append b = m := by
  simp only [Pattern.matches, List.mem_flatMap, List.mem_map]

theorem mem_matches_group {name : String} {r : Pattern} {s : Text} {m : Match} :
    m ∈ (Pattern.group name r).matches s ↔
      ∃ a ∈ r.matches s, ⟨a.groups ++ [(name, a.taken)], a.taken, a.rest⟩ = m := by
  rw [Pattern.matches, List.mem_map]

theorem mem_matches_set {p : Char → Bool} {s : Text} {m : Match} :
    m ∈ (Pattern.set p).matches s ↔ ∃ c, p c = true ∧ c :: m.rest = s ∧ m = ⟨[], [c], m.rest⟩ := by
  cases s with
  | nil => exact ⟨fun h => absurd h List.not_mem_nil, fun ⟨c, _, h, _⟩ => absurd h (List.cons_ne_nil _ _)⟩
  | cons d s =>
    rw [Pattern.matches, List.mem_ite_nil_right, List.mem_singleton]
    constructor
    · rintro ⟨hd, rfl⟩
      exact ⟨d, hd, rfl, rfl⟩
    · rintro ⟨c, hc, hs, hm⟩
      rw [List.cons.injEq] at hs
      obtain ⟨rfl, rfl⟩ := hs
      exact ⟨hc, hm⟩

/-- A match cuts the text in two. -/
theorem taken_append_rest {m : Match} : ∀ {r : Pattern} {s : Text}, m ∈ r.matches s →
    m.taken ++ m.rest = s := by
  intro r
  induction r generalizing m with
  | lit w =>
    intro s h
    obtain ⟨-, rfl, h⟩ := mem_matches_lit.mp h
    exact h
  | set p =>
    rintro (_ | ⟨c, cs⟩) h
    · cases h
    · rw [Pattern.matches] at h
      split_ifs at h
      · rw [List.mem_singleton.mp h]
        rfl
      · cases h
  | greedy p min => exact fun h => (mem_runMatches.mp (List.mem_reverse.mp h)).2.1
  | lazy p min => exact fun h => (mem_runMatches.mp h).2.1
  | seq r t ihr iht =>
    intro s h
    obtain ⟨a, ha, b, hb, rfl⟩ := mem_matches_seq.mp h
    rw [← ihr ha, ← iht hb]
    exact List.append_assoc _ _ _
  | alt r t ihr iht => exact fun h => (List.mem_append.mp h).elim ihr iht
  | group name r ih =>
    intro s h
    obtain ⟨a, ha, rfl⟩ := List.mem_map.mp h
    show a.taken ++ a.rest = s
    exact ih ha
  | eos =>
    intro s h
    rw [Pattern.matches] at h
    split_ifs at h
    · rw [List.mem_singleton.mp h]
      rfl
    · cases h

/-- What is found is in the text, and is what some match takes. -/
theorem mem_findAllFrom {r : Pattern} {x : Text} : ∀ {fuel : ℕ} {mustAdvance : Bool} {s : Text},
    x ∈ r.findAllFrom fuel mustAdvance s → x <:+: s ∧ ∃ t, ∃ m ∈ r.matches t, x = m.taken
  | fuel + 1, mustAdvance, s, h => by
    unfold Pattern.findAllFrom at h
    split at h
    · next m hm =>
      have hmem := List.mem_of_find?_eq_some hm
      have hcut := taken_append_rest hmem
      rcases List.mem_cons.mp h with rfl | h
      · exact ⟨⟨[], m.rest, hcut⟩, s, m, hmem, rfl⟩
      · obtain ⟨hin, hx⟩ := mem_findAllFrom h
        exact ⟨hin.trans ⟨m.taken, [], by rw [List.append_nil, hcut]⟩, hx⟩
    · split at h
      · cases h
      · next c cs _ =>
        obtain ⟨hin, hx⟩ := mem_findAllFrom h
        exact ⟨hin.trans (List.suffix_cons c cs).isInfix, hx⟩

/-- No match of the pattern has the character in it. -/
def Pattern.avoids (c : Char) : Pattern → Bool
  | .lit w => !w.contains c
  | .set p | .greedy p _ | .lazy p _ => !p c
  | .seq r t | .alt r t => r.avoids c && t.avoids c
  | .group _ r => r.avoids c
  | .eos => true

theorem notMem_run {p : Char → Bool} {min : ℕ} {c : Char} {s : Text} {m : Match}
    (hp : (!p c) = true) (hm : m ∈ runMatches p min s) : c ∉ m.taken := fun hc => by
  rw [(mem_runMatches.mp hm).2.2.1 c hc] at hp
  exact Bool.false_ne_true hp

theorem notMem_taken {c : Char} {m : Match} : ∀ {r : Pattern} {s : Text}, r.avoids c = true →
    m ∈ r.matches s → c ∉ m.taken := by
  intro r
  induction r generalizing m with
  | lit w =>
    intro s hw hm
    rw [(mem_matches_lit.mp hm).2.1]
    simpa [Pattern.avoids] using hw
  | set p =>
    intro s hp hm
    obtain ⟨d, hd, -, hmd⟩ := mem_matches_set.mp hm
    rw [hmd, List.mem_singleton]
    rintro rfl
    rw [Pattern.avoids, hd] at hp
    exact Bool.false_ne_true hp
  | greedy p min => exact fun hp hm => notMem_run hp (List.mem_reverse.mp hm)
  | lazy p min => exact fun hp hm => notMem_run hp hm
  | seq r t ihr iht =>
    intro s h hm
    rw [Pattern.avoids, Bool.and_eq_true] at h
    obtain ⟨a, ha, b, hb, rfl⟩ := mem_matches_seq.mp hm
    rw [Match.append, List.mem_append, not_or]
    exact ⟨ihr h.1 ha, iht h.2 hb⟩
  | alt r t ihr iht =>
    intro s h hm
    rw [Pattern.avoids, Bool.and_eq_true] at h
    exact (List.mem_append.mp hm).elim (ihr h.1) (iht h.2)
  | group name r ih =>
    intro s h hm
    obtain ⟨a, ha, rfl⟩ := mem_matches_group.mp hm
    show c ∉ a.taken
    exact ih h ha
  | eos =>
    intro s _ hm
    obtain ⟨-, rfl⟩ := List.mem_ite_nil_right.mp hm |>.imp_right List.mem_singleton.mp
    exact List.not_mem_nil

/-- Patterns in turn end with a match of the last one. -/
theorem exists_last_of_concat {r : Pattern} : ∀ {rs : List Pattern} {s : Text} {m : Match},
    rs.getLast? = some r → m ∈ (Pattern.concat rs).matches s →
      ∃ x t, ∃ k ∈ r.matches t, m.taken = x ++ k.taken
  | [q], s, m, hlast, h => by
    obtain rfl : q = r := Option.some.inj hlast
    obtain ⟨a, ha, b, hb, rfl⟩ := mem_matches_seq.mp h
    obtain ⟨-, htaken, -⟩ := mem_matches_lit.mp hb
    exact ⟨[], s, a, ha, by rw [Match.append, htaken, List.append_nil, List.nil_append]⟩
  | q :: q' :: rs, s, m, hlast, h => by
    obtain ⟨a, -, b, hb, rfl⟩ := mem_matches_seq.mp h
    rw [List.getLast?_cons_cons] at hlast
    obtain ⟨x, t, k, hk, htaken⟩ := exists_last_of_concat hlast hb
    exact ⟨a.taken ++ x, t, k, hk, by rw [Match.append, htaken, List.append_assoc]⟩

/-! ### The first match -/

theorem first_seq (r t : Pattern) (s : Text) :
    (Pattern.seq r t).first s = (r.matches s).findSome? fun a => (t.first a.rest).map a.append := by
  rw [Pattern.first, Pattern.matches, List.head?_flatMap]
  simp only [List.head?_map, Pattern.first]

theorem first_seq_assoc (a b c : Pattern) (s : Text) :
    (Pattern.seq (.seq a b) c).first s = (Pattern.seq a (.seq b c)).first s := by
  have h : (Pattern.seq (.seq a b) c).matches s = (Pattern.seq a (.seq b c)).matches s := by
    have hassoc : ∀ m n : Match, (m.append n).append = m.append ∘ n.append := fun m n => by
      funext k
      simp only [Match.append, Function.comp, List.append_assoc]
    simp only [Pattern.matches, List.flatMap_assoc, List.flatMap_map, List.map_flatMap, List.map_map,
      hassoc]
    rfl
  rw [Pattern.first, h, Pattern.first]

theorem first_alt_seq (a b c : Pattern) (s : Text) :
    (Pattern.seq (.alt a b) c).first s =
      ((Pattern.seq a c).first s).or ((Pattern.seq b c).first s) := by
  simp only [Pattern.first, Pattern.matches, List.flatMap_append, List.head?_append]

theorem first_lit_seq (w t : Text) (r : Pattern) :
    (Pattern.seq (.lit w) r).first (w ++ t) = (r.first t).map (Match.append ⟨[], w, t⟩) := by
  rw [first_seq, Pattern.matches,
    if_pos (List.isPrefixOf_iff_prefix.mpr (List.prefix_append w t)), List.drop_left,
    List.findSome?_singleton]

theorem matches_eq_nil {r : Pattern} {s : Text} (h : r.first s = none) : r.matches s = [] :=
  List.head?_eq_none_iff.mp h

theorem matches_lit_seq (w t : Text) (r : Pattern) :
    (Pattern.seq (.lit w) r).matches (w ++ t) = (r.matches t).map (Match.append ⟨[], w, t⟩) := by
  rw [Pattern.matches, Pattern.matches, if_pos (List.isPrefixOf_iff_prefix.mpr (List.prefix_append w t)),
    List.drop_left, List.flatMap_cons, List.flatMap_nil, List.append_nil]

/-- One character of a class before something else, which cannot start with it. -/
theorem matches_greedy_one_seq {p : Char → Bool} {c : Char} {t : Text} (hc : p c = true)
    (ht : ∀ d ∈ t.head?, p d = false) {r : Pattern} (hr : r.first (c :: t) = none) :
    (Pattern.seq (.greedy p 0) r).matches (c :: t) = (r.matches t).map (Match.append ⟨[], [c], t⟩) := by
  have hruns : runs p t = [([], t)] := by
    cases t with
    | nil => rfl
    | cons d t =>
      rw [runs, ht d rfl]
      rfl
  have hgreedy : (Pattern.greedy p 0).matches (c :: t) = [⟨[], [c], t⟩, ⟨[], [], c :: t⟩] := by
    rw [Pattern.matches, runMatches, runs, if_pos hc, hruns]
    rfl
  rw [Pattern.matches, hgreedy, List.flatMap_cons, List.flatMap_cons, List.flatMap_nil, matches_eq_nil hr]
  exact List.append_nil _

theorem first_lit_seq_none {w s : Text} (h : ¬ w <+: s) (r : Pattern) :
    (Pattern.seq (.lit w) r).first s = none := by
  rw [first_seq, Pattern.matches, if_neg (mt List.isPrefixOf_iff_prefix.mp h), List.findSome?_nil]

theorem first_empty_seq (r : Pattern) (s : Text) : (Pattern.seq (.lit []) r).first s = r.first s := by
  have h := first_lit_seq [] s r
  rw [List.nil_append] at h
  rw [h]
  cases r.first s <;> rfl

theorem matches_seq_empty (r : Pattern) (s : Text) : (Pattern.seq r (.lit [])).matches s = r.matches s := by
  have hone : ∀ m : Match, ((Pattern.lit []).matches m.rest).map m.append = [m] := fun m => by
    rw [Pattern.matches, if_pos (List.isPrefixOf_iff_prefix.mpr List.nil_prefix), List.map_singleton]
    simp [Match.append]
  rw [Pattern.matches, List.flatMap_congr fun m _ => hone m, List.flatMap_singleton']

/-! ### Repeats -/

theorem findSome?_filter {α β : Type} (p : α → Bool) (f : α → Option β) : ∀ l : List α,
    (l.filter p).findSome? f = l.findSome? fun x => if p x then f x else none
  | [] => rfl
  | x :: l => by
    have ih := findSome?_filter p f l
    by_cases hx : p x = true
    · rw [List.filter_cons_of_pos hx, List.findSome?_cons, List.findSome?_cons, if_pos hx, ih]
    · rw [List.filter_cons_of_neg hx, List.findSome?_cons, if_neg hx, ih]

/-- The first run is empty, the others are not. -/
theorem exists_runs_eq (p : Char → Bool) (s : Text) :
    ∃ l, runs p s = ([], s) :: l ∧ ∀ x ∈ l, x.1 ≠ [] := by
  cases s with
  | nil => exact ⟨[], rfl, fun x hx => by cases hx⟩
  | cons c cs =>
    refine ⟨_, rfl, fun x hx => ?_⟩
    split_ifs at hx
    · obtain ⟨y, -, rfl⟩ := List.mem_map.mp hx
      exact List.cons_ne_nil _ _
    · cases hx

section
variable {p : Char → Bool} {β : Type} {v : β}

/-- From the shortest run on, the first one that does. -/
theorem findSome?_runs : ∀ {w t : Text} {f : Text × Text → Option β}, (∀ c ∈ w, p c = true) →
    (∀ x y, w = x ++ y → y ≠ [] → f (x, y ++ t) = none) → f (w, t) = some v →
    (runs p (w ++ t)).findSome? f = some v
  | [], t, f, _, _, hv => by
    obtain ⟨l, hl, -⟩ := exists_runs_eq p t
    rw [List.nil_append, hl, List.findSome?_cons_of_isSome (by rw [hv]; rfl), hv]
  | c :: w, t, f, hall, hnone, hv => by
    have h0 : f ([], c :: w ++ t) = none := hnone [] (c :: w) rfl (List.cons_ne_nil c w)
    have ih := findSome?_runs (f := fun x => f (c :: x.1, x.2)) (w := w) (t := t)
      (fun d hd => hall d (List.mem_cons_of_mem c hd))
      (fun x y hxy hy => hnone (c :: x) y (by rw [hxy]; rfl) hy) hv
    rw [List.cons_append, runs, if_pos (hall c List.mem_cons_self)]
    rw [List.cons_append] at h0
    rw [List.findSome?_cons_of_isNone (by rw [h0]; rfl), List.findSome?_map]
    exact ih

/-- From the longest run on, the first one that does. -/
theorem findSome?_reverse_runs : ∀ {w t : Text} {f : Text × Text → Option β},
    (∀ c ∈ w, p c = true) →
    (∀ y z, t = y ++ z → y ≠ [] → (∀ c ∈ y, p c = true) → f (w ++ y, z) = none) →
    f (w, t) = some v → (runs p (w ++ t)).reverse.findSome? f = some v
  | [], t, f, _, hnone, hv => by
    obtain ⟨l, hl, hne⟩ := exists_runs_eq p t
    rw [List.nil_append, hl, List.reverse_cons, List.findSome?_append]
    have hl' : l.reverse.findSome? f = none := by
      rw [List.findSome?_eq_none_iff]
      intro x hx
      have hx := List.mem_reverse.mp hx
      obtain ⟨hcat, hall⟩ := mem_runs.mp (hl ▸ List.mem_cons_of_mem _ hx)
      exact hnone x.1 x.2 hcat.symm (hne x hx) hall
    rw [hl', List.findSome?_singleton, hv]
    rfl
  | c :: w, t, f, hall, hnone, hv => by
    have ih := findSome?_reverse_runs (f := fun x => f (c :: x.1, x.2)) (w := w) (t := t)
      (fun d hd => hall d (List.mem_cons_of_mem c hd)) hnone hv
    rw [List.cons_append, runs, if_pos (hall c List.mem_cons_self), List.reverse_cons,
      List.findSome?_append, ← List.map_reverse, List.findSome?_map]
    exact Option.or_eq_some_iff.mpr (.inl ih)

end

variable {p : Char → Bool} {min : ℕ} {w t : Text} {r : Pattern} {m : Match}

/-- A greedy repeat takes the run up to the first other character, if the rest
matches there. -/
theorem first_greedy_seq (hall : ∀ c ∈ w, p c = true) (hmin : min ≤ w.length)
    (ht : ∀ c ∈ t.head?, p c = false) (h : r.first t = some m) :
    (Pattern.seq (.greedy p min) r).first (w ++ t) = some (Match.append ⟨[], w, t⟩ m) := by
  rw [first_seq, Pattern.matches, runMatches, ← List.map_reverse, List.findSome?_map,
    ← List.filter_reverse, findSome?_filter]
  refine findSome?_reverse_runs hall (fun y z hyz hy hally => ?_) ?_
  · obtain ⟨c, y, rfl⟩ := List.exists_cons_of_ne_nil hy
    rw [hyz] at ht
    have hc := hally c List.mem_cons_self
    rw [ht c rfl] at hc
    exact absurd hc Bool.false_ne_true
  · rw [if_pos (by simpa using hmin)]
    show (r.first t).map (Match.append ⟨[], w, t⟩) = _
    rw [h]
    rfl

theorem first_group_runs (name : String) (l : List (Text × Text)) (r : Pattern) :
    ((l.map fun x => (⟨[], x.1, x.2⟩ : Match)).map fun m : Match =>
        { m with groups := m.groups ++ [(name, m.taken)] }).findSome?
      (fun a => (r.first a.rest).map a.append) =
    l.findSome? fun x => (r.first x.2).map (Match.append ⟨[(name, x.1)], x.1, x.2⟩) := by
  rw [List.map_map, List.findSome?_map]
  rfl

/-- The first match sets these groups. -/
def Pattern.Captures (r : Pattern) (s : Text) (groups : List (String × Text)) : Prop :=
  ∃ m, r.first s = some m ∧ m.groups = groups

variable {groups : List (String × Text)}

theorem captures_lit_seq (h : r.Captures t groups) (w : Text) :
    (Pattern.seq (.lit w) r).Captures (w ++ t) groups := by
  obtain ⟨m, hm, hg⟩ := h
  exact ⟨Match.append ⟨[], w, t⟩ m, by rw [first_lit_seq, hm]; rfl, hg⟩

/-- A lazy group takes the shortest run after which the rest matches. -/
theorem captures_lazy_seq (name : String) (hall : ∀ c ∈ w, p c = true) (hmin : min ≤ w.length)
    (hnone : ∀ x y, w = x ++ y → y ≠ [] → min ≤ x.length → r.first (y ++ t) = none)
    (h : r.Captures t groups) :
    (Pattern.seq (.group name (.lazy p min)) r).Captures (w ++ t) ((name, w) :: groups) := by
  obtain ⟨m, hm, rfl⟩ := h
  refine ⟨⟨(name, w) :: m.groups, w ++ m.taken, m.rest⟩, ?_, rfl⟩
  rw [first_seq, Pattern.matches, Pattern.matches, runMatches, first_group_runs, findSome?_filter]
  refine findSome?_runs hall (fun x y hxy hy => ?_) ?_
  · split_ifs with hx
    · rw [hnone x y hxy hy (by simpa using hx)]
      rfl
    · rfl
  · rw [if_pos (by simpa using hmin), hm]
    rfl

/-- A greedy group takes the longest run after which the rest matches. -/
theorem captures_greedy_seq (name : String) (hall : ∀ c ∈ w, p c = true) (hmin : min ≤ w.length)
    (hnone : ∀ y z, t = y ++ z → y ≠ [] → (∀ c ∈ y, p c = true) → r.first z = none)
    (h : r.Captures t groups) :
    (Pattern.seq (.group name (.greedy p min)) r).Captures (w ++ t) ((name, w) :: groups) := by
  obtain ⟨m, hm, rfl⟩ := h
  refine ⟨⟨(name, w) :: m.groups, w ++ m.taken, m.rest⟩, ?_, rfl⟩
  rw [first_seq, Pattern.matches, Pattern.matches, runMatches, ← List.map_reverse, first_group_runs,
    ← List.filter_reverse, findSome?_filter]
  refine findSome?_reverse_runs hall (fun y z hyz hy hally => ?_) ?_
  · split_ifs
    · rw [hnone y z hyz hy hally]
      rfl
    · rfl
  · rw [if_pos (by simpa using hmin), hm]
    rfl

/-- A greedy group at the end takes the run up to the first other character. -/
theorem captures_greedy (name : String) (hall : ∀ c ∈ w, p c = true) (hmin : min ≤ w.length)
    (ht : ∀ c ∈ t.head?, p c = false) :
    (Pattern.group name (.greedy p min)).Captures (w ++ t) [(name, w)] := by
  have hlit : (Pattern.lit []).Captures t [] := by
    refine ⟨⟨[], [], t⟩, ?_, rfl⟩
    rw [Pattern.first, Pattern.matches, if_pos (List.isPrefixOf_iff_prefix.mpr List.nil_prefix)]
    rfl
  have h := captures_greedy_seq name hall hmin (fun y z hyz hy hally => ?_) hlit
  · rwa [Pattern.Captures, Pattern.first, matches_seq_empty] at h
  · obtain ⟨c, y, rfl⟩ := List.exists_cons_of_ne_nil hy
    rw [hyz] at ht
    have hc := hally c List.mem_cons_self
    rw [ht c rfl] at hc
    exact absurd hc Bool.false_ne_true

theorem captures_set_seq (name : String) {c : Char} (hc : p c = true) (h : r.Captures t groups) :
    (Pattern.seq (.group name (.set p)) r).Captures (c :: t) ((name, [c]) :: groups) := by
  obtain ⟨m, hm, rfl⟩ := h
  refine ⟨⟨(name, [c]) :: m.groups, c :: m.taken, m.rest⟩, ?_, rfl⟩
  rw [first_seq, Pattern.matches, Pattern.matches, if_pos hc, List.map_singleton,
    List.findSome?_singleton, hm]
  rfl

theorem captures_lit_group (name : String) (w : Text) (h : r.Captures t groups) :
    (Pattern.seq (.group name (.lit w)) r).Captures (w ++ t) ((name, w) :: groups) := by
  obtain ⟨m, hm, rfl⟩ := h
  refine ⟨⟨(name, w) :: m.groups, w ++ m.taken, m.rest⟩, ?_, rfl⟩
  rw [first_seq, Pattern.matches, Pattern.matches,
    if_pos (List.isPrefixOf_iff_prefix.mpr (List.prefix_append w t)), List.drop_left,
    List.map_singleton, List.findSome?_singleton, hm]
  rfl

theorem first_group_alt (name : String) (a b : Pattern) (s : Text) :
    (Pattern.seq (.group name (.alt a b)) r).first s =
      ((Pattern.seq (.group name a) r).first s).or ((Pattern.seq (.group name b) r).first s) := by
  simp only [first_seq, Pattern.matches, List.map_append, List.findSome?_append]

/-- The left side of an alternative is taken where the rest matches after it. -/
theorem captures_alt_left {name : String} {a : Pattern} (b : Pattern) {s : Text}
    (h : (Pattern.seq (.group name a) r).Captures s groups) :
    (Pattern.seq (.group name (.alt a b)) r).Captures s groups := by
  obtain ⟨m, hm, hg⟩ := h
  exact ⟨m, by rw [first_group_alt, hm, Option.some_or], hg⟩

/-- The right side is taken where it does not match after the left one. -/
theorem captures_alt_right {name : String} {a b : Pattern} {s : Text}
    (ha : ∀ m ∈ a.matches s, r.first m.rest = none)
    (h : (Pattern.seq (.group name b) r).Captures s groups) :
    (Pattern.seq (.group name (.alt a b)) r).Captures s groups := by
  obtain ⟨m, hm, hg⟩ := h
  refine ⟨m, ?_, hg⟩
  have hnone : (Pattern.seq (.group name a) r).first s = none := by
    rw [first_seq, List.findSome?_eq_none_iff]
    intro x hx
    obtain ⟨k, hk, rfl⟩ := mem_matches_group.mp hx
    rw [ha k hk]
    rfl
  rw [first_group_alt, hnone, Option.none_or, hm]

/-- Where all ways to match set the same groups, so does the first. -/
theorem captures_of_mem {s : Text} (h : m ∈ r.matches s)
    (hall : ∀ k ∈ r.matches s, k.groups = groups) : r.Captures s groups := by
  obtain ⟨k, hk⟩ := Option.isSome_iff_exists.mp (List.isSome_head?.mpr (List.ne_nil_of_mem h))
  exact ⟨k, hk, hall k (List.mem_of_head? hk)⟩

/-- An optional pattern that cannot start here is skipped. -/
theorem captures_opt_seq_skip {a : Pattern} (hskip : (Pattern.seq a r).first t = none)
    (h : r.Captures t groups) : (Pattern.seq a.opt r).Captures t groups := by
  obtain ⟨m, hm, hg⟩ := h
  exact ⟨m, by rw [Pattern.opt, first_alt_seq, hskip, Option.none_or, first_empty_seq, hm], hg⟩

/-- One that can is taken. -/
theorem captures_opt_seq_take {a : Pattern} (h : (Pattern.seq a r).Captures t groups) :
    (Pattern.seq a.opt r).Captures t groups := by
  obtain ⟨m, hm, hg⟩ := h
  exact ⟨m, by rw [Pattern.opt, first_alt_seq, hm, Option.some_or], hg⟩

theorem captures_seq_assoc {a b : Pattern} (h : (Pattern.seq a (.seq b r)).Captures t groups) :
    (Pattern.seq (.seq a b) r).Captures t groups := by
  obtain ⟨m, hm, hg⟩ := h
  exact ⟨m, by rw [first_seq_assoc, hm], hg⟩

/-! ### More text behind -/

/-- No `$`, so that the text behind a match does not matter. -/
def Pattern.noEos : Pattern → Bool
  | .eos => false
  | .seq r t | .alt r t => r.noEos && t.noEos
  | .group _ r => r.noEos
  | _ => true

/-- The match with more text behind it. -/
def Match.extend (t : Text) (m : Match) : Match := ⟨m.groups, m.taken, m.rest ++ t⟩

theorem runs_append (p : Char → Bool) (t : Text) : ∀ s : Text,
    ((runs p (s ++ t)).filter fun x => x.1.length ≤ s.length) =
      (runs p s).map fun x => (x.1, x.2 ++ t)
  | [] => by
    obtain ⟨l, hl, hne⟩ := exists_runs_eq p t
    have hnone : l.filter (fun x : Text × Text => x.1.length ≤ ([] : Text).length) = [] := by
      rw [List.filter_eq_nil_iff]
      intro x hx
      simpa using hne x hx
    rw [List.nil_append, hl, List.filter_cons_of_pos (by simp), hnone]
    rfl
  | c :: s => by
    have ih := runs_append p t s
    rw [List.cons_append, runs, runs, List.filter_cons_of_pos (by simp), List.map_cons]
    by_cases hc : p c = true
    · rw [if_pos hc, if_pos hc, List.filter_map, List.map_map]
      have hpred : ((fun x : Text × Text => decide (x.1.length ≤ (c :: s).length)) ∘
          fun x : Text × Text => (c :: x.1, x.2)) = fun x => decide (x.1.length ≤ s.length) := by
        funext x
        simp
      rw [hpred, ih, List.map_map]
      rfl
    · rw [if_neg hc, if_neg hc]
      rfl

theorem runMatches_append (p : Char → Bool) (min : ℕ) (s t : Text) :
    ((runMatches p min (s ++ t)).filter fun m => m.taken.length ≤ s.length) =
      (runMatches p min s).map (Match.extend t) := by
  rw [runMatches, runMatches, List.filter_map, List.filter_filter, List.map_map]
  have hcomm : (runs p (s ++ t)).filter (fun x => ((fun m : Match =>
        decide (m.taken.length ≤ s.length)) ∘ fun x : Text × Text => (⟨[], x.1, x.2⟩ : Match)) x &&
      decide (min ≤ x.1.length)) =
      ((runs p (s ++ t)).filter fun x => x.1.length ≤ s.length).filter fun x => min ≤ x.1.length := by
    rw [List.filter_filter]
    refine List.filter_congr fun x _ => ?_
    rw [Bool.and_comm]
    rfl
  rw [hcomm, runs_append, List.filter_map, List.map_map]
  rfl

theorem flatMap_ite {α β : Type} (p : α → Bool) (f : α → List β) : ∀ l : List α,
    (l.flatMap fun x => if p x then f x else []) = (l.filter p).flatMap f
  | [] => rfl
  | x :: l => by
    have ih := flatMap_ite p f l
    by_cases hx : p x = true
    · rw [List.flatMap_cons, if_pos hx, List.filter_cons_of_pos hx, List.flatMap_cons, ih]
    · rw [List.flatMap_cons, if_neg hx, List.filter_cons_of_neg hx, List.nil_append, ih]

/-- The ways to match within `s` are the same, and in the same order, whatever
comes behind `s`. -/
def Pattern.Local (r : Pattern) : Prop :=
  ∀ s t : Text, ((r.matches (s ++ t)).filter fun m => m.taken.length ≤ s.length) =
    (r.matches s).map (Match.extend t)

theorem local_lit (w : Text) : (Pattern.lit w).Local := by
  intro s t
  rw [Pattern.matches, Pattern.matches]
  by_cases hs : w.isPrefixOf s
  · obtain ⟨x, rfl⟩ := List.isPrefixOf_iff_prefix.mp hs
    have hst : w.isPrefixOf (w ++ x ++ t) :=
      List.isPrefixOf_iff_prefix.mpr ⟨x ++ t, (List.append_assoc w x t).symm⟩
    rw [if_pos hs, if_pos hst, List.filter_cons_of_pos (by simp), List.append_assoc, List.drop_left,
      List.drop_left]
    rfl
  · rw [if_neg hs, List.map_nil, List.filter_eq_nil_iff]
    intro m hm hlen
    split_ifs at hm with hst
    · rw [List.mem_singleton.mp hm, decide_eq_true_eq] at hlen
      exact hs (List.isPrefixOf_iff_prefix.mpr (List.prefix_of_prefix_length_le
        (List.isPrefixOf_iff_prefix.mp hst) (List.prefix_append s t) hlen))
    · cases hm

theorem local_set (p : Char → Bool) : (Pattern.set p).Local := by
  intro s t
  cases s with
  | nil =>
    rw [List.nil_append]
    cases t with
    | nil => rfl
    | cons c t =>
      rw [Pattern.matches, Pattern.matches]
      by_cases hc : p c = true
      · simp [hc]
      · simp [hc]
  | cons c s =>
    rw [List.cons_append, Pattern.matches, Pattern.matches]
    by_cases hc : p c = true
    · simp [hc, Match.extend]
    · simp [hc]

theorem Pattern.Local.seq {r q : Pattern} (hr : r.Local) (hq : q.Local) : (Pattern.seq r q).Local := by
  intro s t
  -- only what `r` matches within `s` can be continued within `s`
  have hcut : ∀ m ∈ r.matches (s ++ t),
      (((q.matches m.rest).map m.append).filter fun n => n.taken.length ≤ s.length) =
        if decide (m.taken.length ≤ s.length) then
          ((q.matches m.rest).map m.append).filter fun n => n.taken.length ≤ s.length
        else [] := by
    intro m _
    split_ifs with hlen
    · rfl
    · rw [List.filter_eq_nil_iff]
      intro n hn hle
      obtain ⟨k, -, rfl⟩ := List.mem_map.mp hn
      rw [Match.append, List.length_append, decide_eq_true_eq] at hle
      rw [decide_eq_true_eq] at hlen
      omega
  -- and `q` continues as it does on the rest of `s`
  have hrest : ∀ m ∈ r.matches s,
      (((q.matches (m.extend t).rest).map (m.extend t).append).filter fun n =>
        n.taken.length ≤ s.length) = ((q.matches m.rest).map m.append).map (Match.extend t) := by
    intro m hm
    have hs : s.length = m.taken.length + m.rest.length := by
      rw [← taken_append_rest hm, List.length_append]
    have hpred : ((fun n : Match => decide (n.taken.length ≤ s.length)) ∘ (m.extend t).append) =
        fun n => decide (n.taken.length ≤ m.rest.length) := by
      funext n
      show decide ((m.taken ++ n.taken).length ≤ s.length) = _
      rw [List.length_append, hs, decide_eq_decide]
      omega
    have hstep := hq m.rest t
    rw [List.filter_map, hpred, Match.extend, hstep, List.map_map, List.map_map]
    rfl
  have hbefore := hr s t
  rw [Pattern.matches, Pattern.matches, List.filter_flatMap, List.flatMap_congr hcut, flatMap_ite,
    hbefore, List.flatMap_map, List.flatMap_congr hrest, List.map_flatMap]

theorem Pattern.Local.alt {r q : Pattern} (hr : r.Local) (hq : q.Local) : (Pattern.alt r q).Local := by
  intro s t
  have hleft := hr s t
  have hright := hq s t
  rw [Pattern.matches, Pattern.matches, List.filter_append, hleft, hright, List.map_append]

theorem Pattern.Local.group {r : Pattern} (hr : r.Local) (name : String) : (Pattern.group name r).Local := by
  intro s t
  have h := hr s t
  rw [Pattern.matches, Pattern.matches, List.filter_map, List.map_map]
  show List.map _ ((r.matches (s ++ t)).filter fun m => m.taken.length ≤ s.length) = _
  rw [h, List.map_map]
  rfl

/-- **More text behind.** Only the end of the text looks at what comes behind. -/
theorem matches_append {r : Pattern} (hr : r.noEos = true) : r.Local := by
  induction r with
  | lit w => exact local_lit w
  | set p => exact local_set p
  | greedy p min =>
    intro s t
    rw [Pattern.matches, Pattern.matches, List.filter_reverse, runMatches_append, List.map_reverse]
  | lazy p min => exact fun s t => runMatches_append p min s t
  | seq r q ihr ihq =>
    rw [Pattern.noEos, Bool.and_eq_true] at hr
    exact (ihr hr.1).seq (ihq hr.2)
  | alt r q ihr ihq =>
    rw [Pattern.noEos, Bool.and_eq_true] at hr
    exact (ihr hr.1).alt (ihq hr.2)
  | group name r ih =>
    rw [Pattern.noEos] at hr
    exact (ih hr).group name
  | eos => exact absurd hr Bool.false_ne_true

/-- Where no match goes beyond `s`, the first one is that of `s`. -/
theorem first_append {r : Pattern} (hr : r.noEos = true) {s t : Text}
    (h : ∀ m ∈ r.matches (s ++ t), m.taken.length ≤ s.length) :
    r.first (s ++ t) = (r.first s).map (Match.extend t) := by
  have hall : (r.matches (s ++ t)).filter (fun m => m.taken.length ≤ s.length) = r.matches (s ++ t) :=
    List.filter_eq_self.mpr fun m hm => decide_eq_true (h m hm)
  rw [Pattern.first, ← hall, matches_append hr, List.head?_map, Pattern.first]

/-! ### Searching -/

theorem search_cons (r : Pattern) (c : Char) (s : Text) :
    r.search (c :: s) = (r.first (c :: s)).or (r.search s) := by
  rw [Pattern.search, List.tails_cons, List.findSome?_cons, Pattern.search]
  cases r.first (c :: s) <;> rfl

/-- The search goes on behind a text in which no match starts. -/
theorem search_skip {r : Pattern} {t : Text} : ∀ {pre : Text},
    (∀ a, a ≠ [] → a <:+ pre → r.first (a ++ t) = none) → r.search (pre ++ t) = r.search t
  | [], _ => rfl
  | c :: pre, h => by
    have ih := search_skip fun a hne ha => h a hne (ha.trans (List.suffix_cons c pre))
    have hfirst := h (c :: pre) (List.cons_ne_nil c pre) (List.suffix_refl _)
    rw [List.cons_append] at hfirst ⊢
    rw [search_cons, hfirst, Option.none_or, ih]

theorem search_of_first {r : Pattern} {c : Char} {s : Text} {m : Match} (h : r.first (c :: s) = some m) :
    r.search (c :: s) = some m := by
  rw [search_cons, h, Option.some_or]

theorem search_eq_none {r : Pattern} : ∀ {s : Text}, (∀ a, a <:+ s → r.first a = none) →
    r.search s = none
  | [], h => by
    show [([] : Text)].findSome? r.first = none
    rw [List.findSome?_singleton]
    exact h [] (List.suffix_refl [])
  | c :: s, h => by
    rw [search_cons, h _ (List.suffix_refl _), Option.none_or]
    exact search_eq_none fun a ha => h a (ha.trans (List.suffix_cons c s))

/-- What is found is a match of some end of the text. -/
theorem exists_of_search {r : Pattern} {m : Match} : ∀ {s : Text}, r.search s = some m →
    ∃ a, a <:+ s ∧ m ∈ r.matches a := by
  intro s h
  obtain ⟨a, ha, hm⟩ := List.exists_of_findSome?_eq_some h
  exact ⟨a, (List.mem_tails a s).mp ha, List.mem_of_head? hm⟩

theorem search_of_captures {r : Pattern} {s : Text} {groups : List (String × Text)}
    (h : r.Captures s groups) : (r.search s).map Match.groups = some groups := by
  obtain ⟨m, hm, rfl⟩ := h
  cases s with
  | nil =>
    show (([([] : Text)].findSome? r.first).map Match.groups) = _
    rw [List.findSome?_singleton, hm]
    rfl
  | cons c s =>
    rw [search_cons, hm]
    rfl

/-- A match found in a text with more behind it, by the groups it sets: it is
one within the first text, or one from the end of it on. -/
theorem search_append {r : Pattern} (hr : r.noEos = true) (hnil : r.first [] = none) {t : Text} :
    ∀ {s : Text}, (∀ a, a ≠ [] → a <:+ s → ∀ m ∈ r.matches (a ++ t), m.taken.length ≤ a.length) →
      (r.search (s ++ t)).map Match.groups =
        ((r.search s).map Match.groups).or ((r.search t).map Match.groups)
  | [], _ => by
    rw [search_eq_none (s := []) fun a ha => by rw [List.suffix_nil.mp ha, hnil]]
    rfl
  | c :: s, h => by
    have ih := search_append hr hnil fun a hne ha => h a hne (ha.trans (List.suffix_cons c s))
    have hfirst := first_append hr (h (c :: s) (List.cons_ne_nil c s) (List.suffix_refl _))
    rw [List.cons_append] at hfirst ⊢
    rw [search_cons, search_cons, hfirst, Option.map_or, ih, Option.map_or, Option.or_assoc,
      Option.map_map]
    rfl

end Regex
end DaatMcs
