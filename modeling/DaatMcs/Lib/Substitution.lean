/-
# Substituting several literals

Substituting for one literal after the other is the substitution for all of
them at once (`substituteEach_eq`), if no literal overlaps another one and no
text put in makes an occurrence: none starts in it (`Foreign`), and none that
starts before it ends in it or behind it (`Harmless`).

Every fact about a substitution is by the same walk over its text: an
occurrence is replaced, and any other character is copied.

Key definitions: `Foreign`, `Apart`, `Harmless`, `substituteAll`.
Key theorems: `infix_of_substitute` (what a substituted text has in it, the
text had), `count_substitute`, `substituteEach_eq`.
-/
import DaatMcs.Lib.Lines
import Mathlib.Data.List.Find

namespace DaatMcs
namespace Literal

variable {α : Type*}

/-- No occurrence of `p` starts in `q`, whatever stands behind it. -/
def Foreign (p q : List α) : Prop := ¬ p <:+: q ∧ ∀ t, t ≠ [] → t <:+ q → ¬ t <+: p

/-- No occurrences of the two overlap. -/
def Apart (p q : List α) : Prop := Foreign p q ∧ Foreign q p

/-- `r` put in place of `p` makes no occurrence of `q` in the text. -/
structure Harmless (text p r q : List α) : Prop where
  ne_nil : r ≠ []
  foreign : Foreign q r
  behind : ∀ x t, q = x ++ t → x ≠ [] → t ≠ [] → (t <+: r ∨ r <+: t) → ¬ x ++ p <:+: text

theorem Foreign.not_starts {p q s : List α} (h : Foreign p q) (hs : s <:+ q) (hne : s ≠ [])
    (rest : List α) : ¬ p <+: s ++ rest := by
  intro hp
  rcases List.prefix_or_prefix_of_prefix hp (List.prefix_append s rest) with hps | hsp
  · exact h.1 (hps.isInfix.trans hs.isInfix)
  · exact h.2 s hne hs hsp

theorem Foreign.infix_append {p q y : List α} (h : Foreign p q) (hp : p <:+: q ++ y) : p <:+: y := by
  rcases List.infix_append_iff.mp hp with hp | hp | ⟨t, s, rfl, ht, hs⟩
  · exact absurd hp h.1
  · exact hp
  · rcases eq_or_ne t [] with rfl | hne
    · exact hs.isInfix
    · exact absurd (List.prefix_append t s) (h.2 t hne ht)

theorem Foreign.tail {p : List α} {c : α} {q : List α} (h : Foreign p (c :: q)) : Foreign p q :=
  ⟨fun hp => h.1 (List.infix_cons hp), fun t hne ht => h.2 t hne (ht.trans (List.suffix_cons c q))⟩

theorem Apart.symm {p q : List α} (h : Apart p q) : Apart q p := ⟨h.2, h.1⟩

/-- A literal that stays makes no occurrence of one it does not overlap. -/
theorem Apart.harmless {p q : List α} (h : Apart p q) (hp : p ≠ []) (text : List α) :
    Harmless text p p q := by
  refine ⟨hp, h.2, fun x t hq _ hne hr _ => ?_⟩
  have ht : t <:+ q := ⟨x, hq.symm⟩
  rcases hr with hr | hr
  · exact h.1.2 t hne ht hr
  · exact h.1.1 (hr.isInfix.trans ht.isInfix)

/-- What follows a beginning of `q` is harmless to it, if it is to `q` and to
what is put behind the beginning. -/
theorem Harmless.append {p r p' q x t : List α} (hq : Harmless text p r q) (hp' : Harmless text p r p')
    (hqx : q = x ++ t) (ht : t ≠ []) : Harmless text p r (x ++ p') := by
  have hxq : x <+: q := ⟨t, hqx.symm⟩
  have hself : ∀ {s}, s ≠ [] → s <:+ r → s <+: x ++ p' → False := by
    intro s hs hsr hpre
    rcases List.prefix_or_prefix_of_prefix hpre (List.prefix_append x p') with h | ⟨z, rfl⟩
    · exact hq.foreign.2 s hs hsr (h.trans hxq)
    · rcases eq_or_ne z [] with rfl | hz
      · exact hq.foreign.2 _ hs hsr (by rw [List.append_nil]; exact hxq)
      · exact hp'.foreign.2 z hz ((List.suffix_append x z).trans hsr)
          ((List.prefix_append_right_inj x).mp hpre)
  have hp'r : ¬ p' <:+: r := hp'.foreign.1
  -- `p'` itself neither begins nor goes on as `r` does
  have hp'0 : ¬ (p' <+: r ∨ r <+: p') := by
    rintro (h | h)
    · exact hp'r h.isInfix
    · exact hp'.foreign.2 r hq.ne_nil (List.suffix_refl r) h
  refine ⟨hq.ne_nil, ⟨fun h => hp'r ((List.suffix_append x p').isInfix.trans h), fun s hs hsr h =>
    hself hs hsr h⟩, fun x' t' heq hx' ht' hr => ?_⟩
  rcases List.append_eq_append_iff.mp heq with ⟨y, hxy, hp'y⟩ | ⟨y, hxy, ht'y⟩
  · -- the split is within `p'`
    rcases eq_or_ne y [] with rfl | hy
    · rw [List.nil_append] at hp'y
      exact absurd (hp'y ▸ hr) hp'0
    · intro hin
      refine hp'.behind y t' hp'y hy ht' hr (List.IsInfix.trans ?_ hin)
      rw [hxy, List.append_assoc]
      exact (List.suffix_append x _).isInfix
  · -- it is within `x`
    refine hq.behind x' (y ++ t) (by rw [hqx, hxy, List.append_assoc]) hx' (by simp [ht]) (.inr ?_)
    rcases hr with hr | hr
    · rw [ht'y] at hr
      exact absurd ((List.suffix_append y p').isInfix.trans hr.isInfix) hp'r
    · rw [ht'y] at hr
      rcases List.prefix_or_prefix_of_prefix hr (List.prefix_append y p') with h | ⟨z, rfl⟩
      · exact h.trans (List.prefix_append y t)
      · rcases eq_or_ne z [] with rfl | hz
        · rw [List.append_nil]
          exact List.prefix_append y t
        · exact absurd ((List.prefix_append_right_inj y).mp hr)
            (hp'.foreign.2 z hz (List.suffix_append y z))

variable [DecidableEq α]

/-- The number of occurrences. -/
def count (p text : List α) : ℕ := (occurrences p text).length

/-! ### The walk -/

/-- The walk over a text: at an occurrence of one of the literals it goes on
behind it, else at the next character. -/
theorem walk (ps : List (List α)) (hne : ∀ p ∈ ps, p ≠ []) {motive : List α → Prop} (nil : motive [])
    (hit : ∀ p ∈ ps, ∀ rest, motive rest → motive (p ++ rest))
    (miss : ∀ c cs, (∀ p ∈ ps, ¬ p <+: c :: cs) → motive cs → motive (c :: cs)) :
    ∀ text, motive text := by
  intro text
  induction hn : text.length using Nat.strong_induction_on generalizing text with
  | _ n ih =>
    cases text with
    | nil => exact nil
    | cons c cs =>
      by_cases h : ∃ p ∈ ps, p <+: c :: cs
      · obtain ⟨p, hp, rest, hrest⟩ := h
        rw [← hrest] at hn ⊢
        refine hit p hp rest (ih rest.length ?_ rest rfl)
        have := List.length_pos_iff.mpr (hne p hp)
        rw [List.length_append] at hn
        omega
      · refine miss c cs (fun p hp hpre => h ⟨p, hp, hpre⟩) (ih cs.length ?_ cs rfl)
        rw [List.length_cons] at hn
        omega

theorem substituteFrom_hit {p : List α} (hne : p ≠ []) (f : ℕ → Option (List α)) (k : ℕ)
    (rest : List α) :
    substituteFrom p f 0 k (p ++ rest) = (f k).getD p ++ substituteFrom p f 0 (k + 1) rest := by
  obtain ⟨c, cs, rfl⟩ := List.exists_cons_of_ne_nil hne
  have hpre : (c :: cs).isPrefixOf (c :: (cs ++ rest)) :=
    List.isPrefixOf_iff_prefix.mpr (List.prefix_append (c :: cs) rest)
  rw [List.cons_append, substituteFrom, if_pos hpre, List.length_cons, Nat.add_sub_cancel,
    substituteFrom_skip]

theorem substituteFrom_miss {p cs : List α} {c : α} (h : ¬ p <+: c :: cs) (f : ℕ → Option (List α))
    (k : ℕ) : substituteFrom p f 0 k (c :: cs) = c :: substituteFrom p f 0 k cs := by
  rw [substituteFrom, if_neg (mt List.isPrefixOf_iff_prefix.mp h)]

/-- What no occurrence starts in is copied. -/
theorem substituteFrom_foreign {p : List α} (f : ℕ → Option (List α)) (k : ℕ) (rest : List α) :
    ∀ {q : List α}, Foreign p q →
      substituteFrom p f 0 k (q ++ rest) = q ++ substituteFrom p f 0 k rest
  | [], _ => rfl
  | c :: q, h => by
    have hmiss : ¬ p <+: c :: (q ++ rest) :=
      h.not_starts (List.suffix_refl _) (List.cons_ne_nil c q) rest
    rw [List.cons_append, substituteFrom_miss hmiss, substituteFrom_foreign f k rest h.tail,
      List.cons_append]

theorem count_hit {p : List α} (hne : p ≠ []) (rest : List α) :
    count p (p ++ rest) = count p rest + 1 := by
  obtain ⟨c, cs, rfl⟩ := List.exists_cons_of_ne_nil hne
  have hpre : (c :: cs).isPrefixOf (c :: (cs ++ rest)) :=
    List.isPrefixOf_iff_prefix.mpr (List.prefix_append (c :: cs) rest)
  rw [count, occurrences, List.cons_append, spans, if_pos hpre, List.length_cons, List.length_cons,
    Nat.add_sub_cancel, length_spans_skip, count]

theorem count_miss {p cs : List α} {c : α} (h : ¬ p <+: c :: cs) : count p (c :: cs) = count p cs := by
  rw [count, occurrences, spans, if_neg (mt List.isPrefixOf_iff_prefix.mp h), length_spans_pos, count,
    occurrences]

theorem count_foreign {p : List α} (rest : List α) : ∀ {q : List α}, Foreign p q →
    count p (q ++ rest) = count p rest
  | [], _ => rfl
  | c :: q, h => by
    have hmiss : ¬ p <+: c :: (q ++ rest) :=
      h.not_starts (List.suffix_refl _) (List.cons_ne_nil c q) rest
    rw [List.cons_append, count_miss hmiss, count_foreign rest h.tail]

/-! ### What a substitution makes of a text -/

section
variable {text p : List α} {f : ℕ → Option (List α)}

/-- What follows `x` after the substitution followed it before, if it does
not take part in anything put in. -/
theorem prefix_of_substituteFrom (hp : p ≠ []) {u : List α} : ∀ (b : List α) (k : ℕ) (x u' : List α),
    (∀ i < count p b, Harmless text p ((f (k + i)).getD p) u) → u = x ++ u' → x ≠ [] →
    x ++ b <:+: text → u' <+: substituteFrom p f 0 k b → u' <+: b := by
  refine walk [p] (by simpa using hp) ?_ ?_ ?_
  · exact fun k x u' _ _ _ _ h => h
  · intro q hq rest _ k x u' hf hu hx hin h
    obtain rfl := List.mem_singleton.mp hq
    rw [substituteFrom_hit hp] at h
    rcases eq_or_ne u' [] with rfl | hu'
    · exact List.nil_prefix
    · have h0 := hf 0 (by rw [count_hit hp]; omega)
      have hr := List.prefix_or_prefix_of_prefix h (List.prefix_append _ _)
      exact absurd (List.IsInfix.trans ⟨[], rest, by simp⟩ hin) (h0.behind x u' hu hx hu' hr)
  · intro c cs hmiss ih k x u' hf hu hx hin h
    have hmiss := hmiss p (List.mem_singleton_self p)
    rw [substituteFrom_miss hmiss] at h
    rw [count_miss hmiss] at hf
    cases u' with
    | nil => exact List.nil_prefix
    | cons d u' =>
      obtain ⟨rfl, htl⟩ := List.cons_prefix_cons.mp h
      refine List.cons_prefix_cons.mpr ⟨rfl, ih k (x ++ [d]) u' hf (by simp [hu]) (by simp) ?_ htl⟩
      simpa using hin

/-- What a substituted text has in it, the text had. -/
theorem infix_of_substituteFrom (hp : p ≠ []) {u : List α} : ∀ (b : List α) (k : ℕ),
    (∀ i < count p b, Harmless text p ((f (k + i)).getD p) u) → b <:+: text →
    u <:+: substituteFrom p f 0 k b → u <:+: b := by
  refine walk [p] (by simpa using hp) ?_ ?_ ?_
  · exact fun k _ _ h => h
  · intro q hq rest ih k hf hin h
    obtain rfl := List.mem_singleton.mp hq
    rw [substituteFrom_hit hp] at h
    rw [count_hit hp] at hf
    have h0 := hf 0 (by omega)
    have hrest : rest <:+: text := List.IsInfix.trans (List.suffix_append _ _).isInfix hin
    refine (ih (k + 1) (fun i hi => ?_) hrest (h0.foreign.infix_append h)).trans
      (List.suffix_append _ _).isInfix
    have := hf (i + 1) (by omega)
    rwa [← Nat.add_assoc, Nat.add_right_comm] at this
  · intro c cs hmiss ih k hf hin h
    have hmiss := hmiss p (List.mem_singleton_self p)
    rw [count_miss hmiss] at hf
    rw [substituteFrom_miss hmiss] at h
    rcases List.infix_cons_iff.mp h with h | h
    · cases u with
      | nil => exact List.nil_infix
      | cons d u =>
        obtain ⟨rfl, htl⟩ := List.cons_prefix_cons.mp h
        exact (List.cons_prefix_cons.mpr ⟨rfl, prefix_of_substituteFrom hp cs k [d] u hf rfl
          (List.cons_ne_nil _ _) hin htl⟩).isInfix
    · exact List.infix_cons (ih k hf ((List.suffix_cons c cs).isInfix.trans hin) h)

theorem infix_of_substitute (hp : p ≠ []) {u : List α}
    (hf : ∀ k < count p text, Harmless text p ((f k).getD p) u) (h : u <:+: substitute p f text) :
    u <:+: text :=
  infix_of_substituteFrom hp text 0 (by simpa using hf) (List.infix_refl _) h

/-- The occurrences of another literal stay as many. -/
theorem count_substitute (hp : p ≠ []) {q : List α} (hq : q ≠ []) (hpq : Apart p q)
    (hf : ∀ k < count p text, Harmless text p ((f k).getD p) q) :
    count q (substitute p f text) = count q text := by
  have hwalk : ∀ (b : List α) (k : ℕ), (∀ i < count p b, Harmless text p ((f (k + i)).getD p) q) →
      b <:+: text → count q (substituteFrom p f 0 k b) = count q b := by
    refine walk [p, q] (by simp [hp, hq]) (fun _ _ _ => rfl) ?_ ?_
    · intro s hs rest ih k hf hin
      have hrest : rest <:+: text := List.IsInfix.trans (List.suffix_append _ _).isInfix hin
      rcases List.mem_pair.mp hs with rfl | rfl
      · rw [count_hit hp] at hf
        have h0 := hf 0 (by omega)
        rw [Nat.add_zero] at h0
        rw [substituteFrom_hit hp, count_foreign _ h0.foreign, count_foreign _ hpq.2]
        refine ih (k + 1) (fun i hi => ?_) hrest
        have := hf (i + 1) (by omega)
        rwa [← Nat.add_assoc, Nat.add_right_comm] at this
      · rw [count_foreign _ hpq.1] at hf
        rw [substituteFrom_foreign f k rest hpq.1, count_hit hq, count_hit hq, ih k hf hrest]
    · intro c cs hmiss ih k hf hin
      have hp' := hmiss p List.mem_cons_self
      have hq' := hmiss q (by simp)
      rw [count_miss hp'] at hf
      rw [substituteFrom_miss hp', count_miss hq', ← ih k hf ((List.suffix_cons c cs).isInfix.trans hin)]
      refine count_miss fun h => ?_
      obtain ⟨d, u, rfl⟩ := List.exists_cons_of_ne_nil hq
      obtain ⟨rfl, htl⟩ := List.cons_prefix_cons.mp h
      exact hq' (List.cons_prefix_cons.mpr ⟨rfl, prefix_of_substituteFrom hp cs k [d] u hf rfl
        (List.cons_ne_nil _ _) hin htl⟩)
  exact hwalk text 0 (by simpa using hf) (List.infix_refl _)

end

/-! ### Several literals -/

/-- Literals, each with what the occurrences of it are replaced by. -/
abbrev Jobs (α : Type*) := List (List α × (ℕ → Option (List α)))

/-- The substitutions one after the other. -/
def substituteEach (jobs : Jobs α) (text : List α) : List α :=
  jobs.foldl (fun text j => substitute j.1 j.2 text) text

/-- All the substitutions at once, from left to right: of the literal with
number `i` the next occurrence is the `seen i`-th. -/
def substituteAllFrom (jobs : List ((List α × (ℕ → Option (List α))) × ℕ)) :
    (skip : ℕ) → (seen : ℕ → ℕ) → List α → List α
  | _, _, [] => []
  | skip + 1, seen, _ :: cs => substituteAllFrom jobs skip seen cs
  | 0, seen, c :: cs =>
    match jobs.find? fun j => j.1.1.isPrefixOf (c :: cs) with
    | some ((p, f), i) =>
      (f (seen i)).getD p ++
        substituteAllFrom jobs (p.length - 1) (Function.update seen i (seen i + 1)) cs
    | none => c :: substituteAllFrom jobs 0 seen cs

def substituteAll (jobs : Jobs α) (text : List α) : List α :=
  substituteAllFrom jobs.zipIdx 0 (fun _ => 0) text

/-- No literal overlaps another one, and what replaces one makes no
occurrence of a later one. -/
def NoClash (text : List α) (jobs : Jobs α) : Prop :=
  (∀ j ∈ jobs, j.1 ≠ []) ∧ jobs.Pairwise fun j j' => Apart j.1 j'.1 ∧
    ∀ k < count j.1 text, ∀ r, j.2 k = some r → Harmless text j.1 r j'.1

section
variable {js : List ((List α × (ℕ → Option (List α))) × ℕ)}

theorem substituteAllFrom_skip (seen : ℕ → ℕ) (rest : List α) : ∀ xs : List α,
    substituteAllFrom js xs.length seen (xs ++ rest) = substituteAllFrom js 0 seen rest
  | [] => rfl
  | _ :: xs => substituteAllFrom_skip seen rest xs

theorem substituteAllFrom_hit {seen : ℕ → ℕ} {p rest : List α} {f : ℕ → Option (List α)} {i : ℕ}
    (hp : p ≠ []) (h : js.find? (fun j => j.1.1.isPrefixOf (p ++ rest)) = some ((p, f), i)) :
    substituteAllFrom js 0 seen (p ++ rest) =
      (f (seen i)).getD p ++ substituteAllFrom js 0 (Function.update seen i (seen i + 1)) rest := by
  obtain ⟨c, cs, rfl⟩ := List.exists_cons_of_ne_nil hp
  rw [List.cons_append] at h ⊢
  rw [substituteAllFrom, h]
  dsimp only
  rw [List.length_cons, Nat.add_sub_cancel, substituteAllFrom_skip]

theorem substituteAllFrom_miss {seen : ℕ → ℕ} {c : α} {cs : List α}
    (h : js.find? (fun j => j.1.1.isPrefixOf (c :: cs)) = none) :
    substituteAllFrom js 0 seen (c :: cs) = c :: substituteAllFrom js 0 seen cs := by
  rw [substituteAllFrom, h]

theorem substituteAllFrom_foreign (seen : ℕ → ℕ) (rest : List α) : ∀ {q : List α},
    (∀ j ∈ js, Foreign j.1.1 q) →
    substituteAllFrom js 0 seen (q ++ rest) = q ++ substituteAllFrom js 0 seen rest
  | [], _ => rfl
  | c :: q, h => by
    have hmiss : ∀ j ∈ js, ¬ j.1.1 <+: c :: (q ++ rest) := fun j hj =>
      (h j hj).not_starts (List.suffix_refl _) (List.cons_ne_nil c q) rest
    have hnone : js.find? (fun j => j.1.1.isPrefixOf (c :: (q ++ rest))) = none :=
      List.find?_eq_none.mpr fun j hj => mt List.isPrefixOf_iff_prefix.mp (hmiss j hj)
    rw [List.cons_append, substituteAllFrom_miss hnone,
      substituteAllFrom_foreign seen rest fun j hj => (h j hj).tail, List.cons_append]

end

/-- Where the literal does not start, the others start where they did. -/
theorem prefix_substituteFrom_iff {text p q : List α} {f : ℕ → Option (List α)} {k : ℕ} {c : α}
    {cs : List α} (hp : p ≠ []) (hq : q ≠ []) (hpq : Apart p q) (hmiss : ¬ p <+: c :: cs)
    (hf : ∀ i < count p (c :: cs), Harmless text p ((f (k + i)).getD p) q) (hin : c :: cs <:+: text) :
    q <+: substituteFrom p f 0 k (c :: cs) ↔ q <+: c :: cs := by
  constructor
  · intro h
    rw [substituteFrom_miss hmiss] at h
    rw [count_miss hmiss] at hf
    obtain ⟨d, u, rfl⟩ := List.exists_cons_of_ne_nil hq
    obtain ⟨rfl, htl⟩ := List.cons_prefix_cons.mp h
    exact List.cons_prefix_cons.mpr ⟨rfl, prefix_of_substituteFrom hp cs k [d] u hf rfl
      (List.cons_ne_nil _ _) hin htl⟩
  · rintro ⟨rest, hrest⟩
    rw [← hrest, substituteFrom_foreign f k rest hpq.1]
    exact List.prefix_append _ _

theorem update_agree {β : Type*} {js : List (β × ℕ)} {seen seen' : ℕ → ℕ} (h : ∀ j ∈ js, seen' j.2 = seen j.2)
    (m n : ℕ) : ∀ j ∈ js, Function.update seen' m n j.2 = Function.update seen m n j.2 := by
  intro j hj
  by_cases hjm : j.2 = m
  · rw [hjm, Function.update_self, Function.update_self]
  · rw [Function.update_of_ne hjm, Function.update_of_ne hjm, h j hj]

section
variable {js : List ((List α × (ℕ → Option (List α))) × ℕ)}

/-- So the job that starts there is the same before and after. -/
theorem find?_substituteFrom {text p : List α} {f : ℕ → Option (List α)} {k : ℕ} {c : α}
    {cs : List α} (hp : p ≠ []) (hne : ∀ j ∈ js, j.1.1 ≠ []) (hap : ∀ j ∈ js, Apart p j.1.1)
    (hmiss : ¬ p <+: c :: cs)
    (hf : ∀ j ∈ js, ∀ i < count p (c :: cs), Harmless text p ((f (k + i)).getD p) j.1.1)
    (hin : c :: cs <:+: text) :
    js.find? (fun j => j.1.1.isPrefixOf (substituteFrom p f 0 k (c :: cs))) =
      js.find? fun j => j.1.1.isPrefixOf (c :: cs) := by
  refine List.find?_congr fun j hj => ?_
  rw [Bool.eq_iff_iff, List.isPrefixOf_iff_prefix, List.isPrefixOf_iff_prefix]
  exact prefix_substituteFrom_iff hp (hne j hj) (hap j hj) hmiss (hf j hj) hin

theorem find?_cons_skip {p t : List α} (f : ℕ → Option (List α)) (i : ℕ) (h : ¬ p <+: t) :
    (((p, f), i) :: js).find? (fun j => j.1.1.isPrefixOf t) = js.find? fun j => j.1.1.isPrefixOf t :=
  List.find?_cons_of_neg (mt List.isPrefixOf_iff_prefix.mp h)

/-- What is still to be read is rewritten at once as it is by the first job
first, then by the others at once. -/
def FirstThenRest (js : List ((List α × (ℕ → Option (List α))) × ℕ)) (text p : List α)
    (f : ℕ → Option (List α)) (i : ℕ) (b : List α) : Prop :=
  ∀ seen seen' : ℕ → ℕ, (∀ j ∈ js, seen' j.2 = seen j.2) → b <:+: text →
    (∀ j ∈ js, ∀ m < count p b, Harmless text p ((f (seen i + m)).getD p) j.1.1) →
    substituteAllFrom (((p, f), i) :: js) 0 seen b =
      substituteAllFrom js 0 seen' (substituteFrom p f 0 (seen i) b)

section Steps

variable {text p : List α} {f : ℕ → Option (List α)} {i : ℕ}

/-- The first job's literal is next. -/
theorem FirstThenRest.hit {rest : List α} (hp : p ≠ []) (hi : ∀ j ∈ js, j.2 ≠ i)
    (h : FirstThenRest js text p f i rest) : FirstThenRest js text p f i (p ++ rest) := by
  intro seen seen' hseen hin hf
  have hfind : (((p, f), i) :: js).find? (fun j => j.1.1.isPrefixOf (p ++ rest)) = some ((p, f), i) :=
    List.find?_cons_of_pos (List.isPrefixOf_iff_prefix.mpr (List.prefix_append p rest))
  have hforeign : ∀ j ∈ js, Foreign j.1.1 ((f (seen i)).getD p) := fun j hj => by
    have hharmless := hf j hj 0 (by rw [count_hit hp]; omega)
    exact hharmless.foreign
  rw [substituteAllFrom_hit hp hfind, substituteFrom_hit hp, substituteAllFrom_foreign _ _ hforeign,
    List.append_cancel_left_eq]
  have hstep := h (Function.update seen i (seen i + 1)) seen' (fun j hj => ?_)
    (List.IsInfix.trans (List.suffix_append _ _).isInfix hin) (fun j hj m hm => ?_)
  · rwa [Function.update_self] at hstep
  · rw [Function.update_of_ne (hi j hj), hseen j hj]
  · have hharmless := hf j hj (m + 1) (by rw [count_hit hp]; omega)
    rwa [Function.update_self, Nat.add_assoc, Nat.add_comm 1]

/-- No literal is next. -/
theorem FirstThenRest.miss {c : α} {cs : List α} (hp : p ≠ []) (hne : ∀ j ∈ js, j.1.1 ≠ [])
    (hap : ∀ j ∈ js, Apart p j.1.1) (hpre : ¬ p <+: c :: cs)
    (hfind : js.find? (fun j => j.1.1.isPrefixOf (c :: cs)) = none) (h : FirstThenRest js text p f i cs) :
    FirstThenRest js text p f i (c :: cs) := by
  intro seen seen' hseen hin hf
  have hsame := find?_substituteFrom hp hne hap hpre hf hin
  have hskip := @find?_cons_skip _ _ js _ _ f i hpre
  rw [hfind] at hsame hskip
  rw [substituteFrom_miss hpre] at hsame ⊢
  rw [substituteAllFrom_miss hskip, substituteAllFrom_miss hsame]
  congr 1
  apply h seen seen' hseen ((List.suffix_cons c cs).isInfix.trans hin)
  intro j hj m hm
  exact hf j hj m (by rwa [count_miss hpre])

/-- The literal of another job is next. -/
theorem FirstThenRest.other {c : α} {cs q rest : List α} {g : ℕ → Option (List α)} {m : ℕ} (hp : p ≠ [])
    (hne : ∀ j ∈ js, j.1.1 ≠ []) (hi : ∀ j ∈ js, j.2 ≠ i) (hap : ∀ j ∈ js, Apart p j.1.1)
    (hpre : ¬ p <+: c :: cs) (hrest : q ++ rest = c :: cs)
    (hfind : js.find? (fun j => j.1.1.isPrefixOf (c :: cs)) = some ((q, g), m))
    (h : FirstThenRest js text p f i rest) : FirstThenRest js text p f i (c :: cs) := by
  intro seen seen' hseen hin hf
  have hj := List.mem_of_find?_eq_some hfind
  have hq : q ≠ [] := hne _ hj
  have hforeign : Foreign p q := (hap _ hj).1
  have hsame := find?_substituteFrom hp hne hap hpre hf hin
  have hskip := @find?_cons_skip _ _ js _ _ f i hpre
  rw [hfind] at hsame hskip
  have hcount : count p (c :: cs) = count p rest := by
    rw [← hrest]
    exact count_foreign rest hforeign
  rw [← hrest] at hin hskip hsame ⊢
  rw [substituteFrom_foreign f _ rest hforeign] at hsame ⊢
  rw [substituteAllFrom_hit hq hskip, substituteAllFrom_hit hq hsame, hseen _ hj,
    List.append_cancel_left_eq]
  have hmi : Function.update seen m (seen m + 1) i = seen i := Function.update_of_ne (hi _ hj).symm _ _
  have hstep := h (Function.update seen m (seen m + 1)) (Function.update seen' m (seen m + 1))
    (update_agree hseen m _) (List.IsInfix.trans (List.suffix_append _ _).isInfix hin)
    (fun j' hj' n hn' => ?_)
  · rwa [hmi] at hstep
  · rw [hmi]
    exact hf j' hj' n (by rwa [hcount])

end Steps

/-- At once is the first literal first, then the others at once. -/
theorem substituteAllFrom_cons {text p : List α} {f : ℕ → Option (List α)} {i : ℕ}
    (hp : p ≠ []) (hne : ∀ j ∈ js, j.1.1 ≠ [])
    (hi : ∀ j ∈ js, j.2 ≠ i) (hap : ∀ j ∈ js, Apart p j.1.1) (b : List α) :
    FirstThenRest js text p f i b := by
  induction hn : b.length using Nat.strong_induction_on generalizing b with
  | _ n ih =>
    have hshorter : ∀ rest : List α, rest.length < b.length → FirstThenRest js text p f i rest :=
      fun rest hlt => ih rest.length (hn ▸ hlt) rest rfl
    cases b with
    | nil => exact fun _ _ _ _ _ => rfl
    | cons c cs =>
      by_cases hpre : p <+: c :: cs
      · obtain ⟨rest, hrest⟩ := hpre
        have hpos := List.length_pos_iff.mpr hp
        rw [← hrest] at hshorter ⊢
        exact .hit hp hi (hshorter rest (by rw [List.length_append]; omega))
      · cases hfind : js.find? (fun j => j.1.1.isPrefixOf (c :: cs)) with
        | none => exact .miss hp hne hap hpre hfind (hshorter cs (Nat.lt_succ_self _))
        | some j =>
          obtain ⟨⟨q, g⟩, m⟩ := j
          have hstart := List.find?_some hfind
          obtain ⟨rest, hrest⟩ := List.isPrefixOf_iff_prefix.mp hstart
          have hpos : 0 < q.length := List.length_pos_iff.mpr (hne _ (List.mem_of_find?_eq_some hfind))
          dsimp only at hrest
          refine .other hp hne hi hap hpre hrest hfind (hshorter rest ?_)
          rw [← hrest, List.length_append]
          omega

end

section
variable {text p : List α} {f : ℕ → Option (List α)} {js : Jobs α}

theorem NoClash.harmless (h : NoClash text ((p, f) :: js)) {j : List α × (ℕ → Option (List α))}
    (hj : j ∈ js) : ∀ k < count p text, Harmless text p ((f k).getD p) j.1 := by
  intro k hk
  obtain ⟨hap, hr⟩ := List.rel_of_pairwise_cons h.2 hj
  cases hf : f k with
  | none => exact hap.harmless (h.1 _ List.mem_cons_self) text
  | some r => exact hr k hk r hf

/-- The later literals do not clash in the substituted text. -/
theorem NoClash.substitute (h : NoClash text ((p, f) :: js)) : NoClash (substitute p f text) js := by
  have hp : p ≠ [] := h.1 _ List.mem_cons_self
  have hne : ∀ j ∈ js, j.1 ≠ [] := fun j hj => h.1 j (List.mem_cons_of_mem _ hj)
  refine ⟨hne, (List.pairwise_cons.mp h.2).2.imp_of_mem fun {j j'} hj hj' hjj => ⟨hjj.1, fun k hk r hr => ?_⟩⟩
  rw [count_substitute hp (hne j hj) (List.rel_of_pairwise_cons h.2 hj).1 (h.harmless hj)] at hk
  have hharm := hjj.2 k hk r hr
  refine ⟨hharm.ne_nil, hharm.foreign, fun x t hq hx ht hxt hin => hharm.behind x t hq hx ht hxt ?_⟩
  exact infix_of_substitute hp
    (fun k hk => (h.harmless hj' k hk).append (h.harmless hj k hk) hq ht) hin

/-- **One after the other is at once**, where the literals do not clash. -/
theorem substituteEach_eq {jobs : Jobs α} (h : NoClash text jobs) :
    substituteEach jobs text = substituteAll jobs text := by
  have hfrom : ∀ (jobs : Jobs α) (n : ℕ) (text : List α), NoClash text jobs →
      substituteEach jobs text = substituteAllFrom (jobs.zipIdx n) 0 (fun _ => 0) text := by
    intro jobs
    induction jobs with
    | nil =>
      intro n text _
      have hnil : ∀ b : List α, substituteAllFrom [] 0 (fun _ => 0) b = b := fun b => by
        induction b with
        | nil => rfl
        | cons c cs ih => rw [substituteAllFrom_miss (by simp), ih]
      exact (hnil text).symm
    | cons j js ih =>
      intro n text h
      obtain ⟨p, f⟩ := j
      have hmem : ∀ j ∈ js.zipIdx (n + 1), j.1 ∈ js ∧ n + 1 ≤ j.2 := fun j hj =>
        ⟨List.fst_mem_of_mem_zipIdx hj, List.le_snd_of_mem_zipIdx hj⟩
      have hcons : substituteAllFrom (((p, f), n) :: js.zipIdx (n + 1)) 0 (fun _ => 0) text =
          substituteAllFrom (js.zipIdx (n + 1)) 0 (fun _ => 0) (substitute p f text) := substituteAllFrom_cons
        (h.1 _ List.mem_cons_self) (fun j hj => h.1 _ (List.mem_cons_of_mem _ (hmem j hj).1))
        (fun j hj => by have := (hmem j hj).2; omega)
        (fun j hj => (List.rel_of_pairwise_cons h.2 (hmem j hj).1).1) text (fun _ => 0) (fun _ => 0)
        (fun _ _ => rfl) (List.infix_refl _)
        (fun j hj m hm => by rw [Nat.zero_add]; exact h.harmless (hmem j hj).1 m hm)
      rw [List.zipIdx_cons, hcons, substituteEach, List.foldl_cons]
      exact ih (n + 1) _ h.substitute
  exact hfrom jobs 0 text h

end

end Literal
end DaatMcs
