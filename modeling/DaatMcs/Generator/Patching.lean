/-
# The macros in the sources of a guest

Before a bare-metal guest is built, `build_guests` writes its configuration
into `main.c`: for each macro one substitution puts a new `#define` in place of
every old one, on the text the substitution before it left. The file is not
restored, so the next configuration is written into the text of this one.

Each `#define` is of one macro only, and the one put in is again of that macro
and reaches as far as the old one did. So only the last configuration counts,
every `#define` of a macro then has its value, and the rest of the text is
the original (`patching_noMemory`). A text is what `open` reads in text mode,
with its line ends translated.
-/
import DaatMcs.Generator.Guests
import DaatMcs.Lib.Marked

namespace DaatMcs
namespace Guests

open Literal Regex

/-! ### The substitutions -/

/-- One substitution: the macro, the pattern of its value, and the white space
and value of the new line. -/
structure Define where
  name : Text
  value : Pattern
  gap : Text
  new : Text

/-- `#define\s+NAME\s+` and the value. -/
def Define.pattern (d : Define) : Pattern :=
  .seq (.lit "#define".toList) (.seq (.greedy isSpace 1) (.seq (.lit d.name) (.seq (.greedy isSpace 1) d.value)))

/-- What the pattern is replaced by. -/
def Define.line (d : Define) : Text := "#define ".toList ++ d.name ++ d.gap ++ d.new

/-- `re.sub`. -/
def Define.sub (d : Define) (fileContent : Text) : Text := d.pattern.sub d.line fileContent

def patch (ds : List Define) (fileContent : Text) : Text := ds.foldl (fun text d => d.sub text) fileContent

/-- `\d+`. -/
def digits (u : UnicodeData) : Pattern := .greedy (fun c => (u.decimal c).isSome) 1

/-- `\w`. -/
def isWord (u : UnicodeData) (c : Char) : Bool := u.isAlnum c || c = '_'

def isHexDigit (c : Char) : Bool :=
  ('0' ≤ c && c ≤ '9') || ('a' ≤ c && c ≤ 'f') || ('A' ≤ c && c ≤ 'F')

/-- An entry of the cache guests, with the bytes its buffer size stands for. -/
structure CacheConfig (u : UnicodeData) where
  guest : CacheGuest
  bytes : ℕ
  bytes_eq : ibsBytes u guest.interferenceBufferSize = some (bytes : ℤ)

/-- An entry of the CCI guests; its test type is a word, the name of a macro
of `main.c`. -/
structure CciConfig (u : UnicodeData) where
  guest : CciGuest
  word : guest.testType ≠ [] ∧ ∀ c ∈ guest.testType, isWord u c = true ∧ isSpace c = false

section
variable {u : UnicodeData}

/-- `en_read` and its like. -/
def CacheConfig.en (c : CacheConfig u) (word : Text) : ℕ :=
  if (find word c.guest.readWriteOperation).isSome then 1 else 0

/-- The substitutions of `baremetal_cache_guests`. -/
def CacheConfig.defines (c : CacheConfig u) : List Define :=
  [ ⟨"CACHE_LINE_SIZE".toList, digits u, "     ".toList, showNat c.guest.cacheLineSize⟩,
    ⟨"NUM_CPUS".toList, digits u, "            ".toList, showNat c.guest.numCpus⟩,
    ⟨"INTERF_BUF_SIZE".toList, .seq (.lit "0x".toList) (.greedy isHexDigit 1), "     ".toList, hex c.bytes⟩,
    ⟨"ENABLE_READS".toList, digits u, "        ".toList, showNat (c.en "read".toList)⟩,
    ⟨"ENABLE_WRITES".toList, digits u, "       ".toList, showNat (c.en "write".toList)⟩,
    ⟨"IVAC_CACHE".toList, digits u, "        ".toList, showNat (c.en "ivac".toList)⟩,
    ⟨"CIVAC_CACHE".toList, digits u, "        ".toList, showNat (c.en "civac".toList)⟩ ]

/-- The substitutions of `baremetal_cci_guests`. -/
def CciConfig.defines (c : CciConfig u) : List Define :=
  [ ⟨"TEST_TYPE".toList, .greedy (isWord u) 1, "     ".toList, c.guest.testType⟩,
    ⟨"SNOOP_TYPE".toList, digits u, "    ".toList, showNat c.guest.snoopType⟩,
    ⟨"DMA_CHANNELS".toList, digits u, "  ".toList, showNat c.guest.channels⟩,
    ⟨"COHERENCY".toList, digits u, "     ".toList, showNat c.guest.coherency⟩,
    ⟨"NUM_CPUS".toList, digits u, "      ".toList, showNat c.guest.cpuIDs.length⟩ ]

end

/-! ### What patching is to do -/

/-- The second text is the first one, but that some of the matches of the
macros' patterns are replaced by the new lines. -/
inductive SameBut (ds : List Define) : Text → Text → Prop
  | nil : SameBut ds [] []
  | keep (c : Char) {s t : Text} (h : SameBut ds s t) : SameBut ds (c :: s) (c :: t)
  | define {d : Define} (hd : d ∈ ds) {s t : Text} {m : Match} (hm : d.pattern.first s = some m)
      (h : SameBut ds m.rest t) : SameBut ds s (d.line ++ t)

/-- Every match of a macro's pattern is the new line. -/
def Carries (ds : List Define) (text : Text) : Prop :=
  ∀ d ∈ ds, ∀ s, s <:+ text → ∀ m, d.pattern.first s = some m → m.taken = d.line

/-- `#define\s+NAME\s+` and the value. -/
def macroPattern (name : Text) (value : Pattern) : Pattern :=
  .seq (.lit "#define".toList) (.seq (.greedy isSpace 1) (.seq (.lit name) (.seq (.greedy isSpace 1) value)))

/-- Every `#define` of the macro with a value of the kind has the value `new`. -/
def HasValue (text name : Text) (value : Pattern) (new : Text) : Prop :=
  ∀ s, s <:+ text → ∀ m, (macroPattern name value).first s = some m →
    ∃ gap, gap ≠ [] ∧ (∀ c ∈ gap, isSpace c = true) ∧ m.taken = "#define ".toList ++ name ++ gap ++ new

/-- After any configurations in turn the text is that of the last one alone. -/
def NoMemory {γ : Type} (defines : γ → List Define) : Prop :=
  ∀ (text : Text) (cs : List γ) (c : γ),
    (cs ++ [c]).foldl (fun text c => patch (defines c) text) text = patch (defines c) text ∧
      Carries (defines c) (patch (defines c) text) ∧ SameBut (defines c) text (patch (defines c) text)

/-! ### One piece -/

namespace Define

/-- The white space and the value. -/
def tail (d : Define) : Pattern := .seq (.greedy isSpace 1) d.value

/-- The pattern behind the mark `#`. -/
def piecePattern (d : Define) : Pattern :=
  .seq (.lit "define".toList) (.seq (.greedy isSpace 1) (.seq (.lit d.name) d.tail))

/-- The new line behind its mark. -/
def body (d : Define) : Text := "define ".toList ++ d.name ++ d.gap ++ d.new

/-- The new line is of the macro, and its value reaches as far as the old one
did. -/
structure Fits (d : Define) : Prop where
  name : d.name ≠ [] ∧ ∀ c ∈ d.name, isSpace c = false
  gap : d.gap ≠ [] ∧ ∀ c ∈ d.gap, isSpace c = true
  new : d.new ≠ [] ∧ ∀ c ∈ d.new.head?, isSpace c = false
  unmarked : '#' ∉ d.name ∧ '#' ∉ d.gap ∧ '#' ∉ d.new
  value : d.value.avoids '#' = true ∧ d.value.noEos = true
  again : ∀ s k, d.value.first s = some k → d.value.first (d.new ++ k.rest) = some ⟨[], d.new, k.rest⟩

end Define

/-- The macro a piece is about, and what follows its name. -/
def heading (piece : Text) : Option (Text × Text) :=
  if "define".toList <+: piece ∧ (piece.drop 6).head?.any isSpace then
    let s := (piece.drop 6).dropWhile isSpace
    some (s.takeWhile fun c => !isSpace c, s.dropWhile fun c => !isSpace c)
  else none

theorem heading_eq {gap name t : Text} (hgap : gap ≠ [] ∧ ∀ c ∈ gap, isSpace c = true)
    (hname : name ≠ [] ∧ ∀ c ∈ name, isSpace c = false) (ht : ∀ c ∈ t.head?, isSpace c = true) :
    heading ("define".toList ++ (gap ++ (name ++ t))) = some (name, t) := by
  have hdrop : ("define".toList ++ (gap ++ (name ++ t))).drop 6 = gap ++ (name ++ t) := rfl
  obtain ⟨c, g, rfl⟩ := List.exists_cons_of_ne_nil hgap.1
  obtain ⟨d, n, rfl⟩ := List.exists_cons_of_ne_nil hname.1
  have hspace := hgap.2 c List.mem_cons_self
  have hd := hname.2 d List.mem_cons_self
  have hrest : (c :: g ++ (d :: n ++ t)).dropWhile isSpace = d :: n ++ t := by
    rw [List.dropWhile_append_of_pos hgap.2, List.cons_append, List.dropWhile_cons_of_neg (by rw [hd]; decide)]
  have hall : ∀ e ∈ d :: n, (!isSpace e) = true := fun e he => by rw [hname.2 e he]; rfl
  have htake : t.takeWhile (fun c => !isSpace c) = [] ∧ t.dropWhile (fun c => !isSpace c) = t := by
    cases t with
    | nil => exact ⟨rfl, rfl⟩
    | cons e t =>
      have he : ¬ (!isSpace e) = true := by rw [ht e rfl]; decide
      exact ⟨List.takeWhile_cons_of_neg he, List.dropWhile_cons_of_neg he⟩
  rw [heading, hdrop, if_pos ⟨List.prefix_append _ _, hspace⟩]
  dsimp only
  rw [hrest, List.takeWhile_append_of_pos hall, List.dropWhile_append_of_pos hall, htake.1, htake.2,
    List.append_nil]

/-- A name does not start with white space. -/
theorem first_name_space {d : Define} (hname : d.name ≠ [] ∧ ∀ c ∈ d.name, isSpace c = false) {c : Char}
    (hc : isSpace c = true) (s : Text) : (Pattern.seq (.lit d.name) d.tail).first (c :: s) = none := by
  refine first_lit_seq_none (fun h => ?_) _
  obtain ⟨n, ns, hn⟩ := List.exists_cons_of_ne_nil hname.1
  rw [hn] at h
  have hne := hname.2 n (hn ▸ List.mem_cons_self)
  rw [(List.cons_prefix_cons.mp h).1, hc] at hne
  exact Bool.false_ne_true hne.symm

/-- Behind the white space the name is the word up to the next. -/
theorem first_name {d : Define} (hname : d.name ≠ [] ∧ ∀ c ∈ d.name, isSpace c = false) (s : Text) :
    ((Pattern.seq (.lit d.name) d.tail).first s).map Match.rest =
      if (s.takeWhile fun c => !isSpace c) = d.name then
        (d.tail.first (s.dropWhile fun c => !isSpace c)).map Match.rest
      else none := by
  have hword : ∀ c ∈ s.takeWhile (fun c => !isSpace c), isSpace c = false := fun c hc => by
    simpa using List.mem_takeWhile_imp hc
  have hrest : ∀ c ∈ (s.dropWhile fun c => !isSpace c).head?, isSpace c = true := fun c hc => by
    simpa using eq_false_of_mem_head?_dropWhile c hc
  have hfirst := first_word (r := d.value) hword hname.2 hrest
  rw [List.takeWhile_append_dropWhile] at hfirst
  rw [Define.tail, hfirst]
  split
  · rw [Option.map_map]
    rfl
  · rfl

/-- A macro's pattern matches the pieces about it, if the value does. -/
theorem first_piecePattern {d : Define} (hname : d.name ≠ [] ∧ ∀ c ∈ d.name, isSpace c = false)
    (piece : Text) : (d.piecePattern.first piece).map Match.rest =
      (heading piece).bind fun h => if h.1 = d.name then (d.tail.first h.2).map Match.rest else none := by
  by_cases hpre : "define".toList <+: piece
  · obtain ⟨s, rfl⟩ := hpre
    have hdrop : ("define".toList ++ s).drop 6 = s := rfl
    rw [Define.piecePattern, first_lit_seq, Option.map_map]
    have hspaces : ∀ c ∈ s.takeWhile isSpace, isSpace c = true := fun c hc => List.mem_takeWhile_imp hc
    have hrest : ∀ c ∈ (s.dropWhile isSpace).head?, isSpace c = false := eq_false_of_mem_head?_dropWhile
    have hsplit : s.takeWhile isSpace ++ s.dropWhile isSpace = s := List.takeWhile_append_dropWhile
    by_cases hgap : s.takeWhile isSpace = []
    · rw [hgap, List.nil_append] at hsplit
      rw [hsplit] at hrest
      have hnone : heading ("define".toList ++ s) = none := by
        rw [heading, hdrop, if_neg]
        rintro ⟨-, hany⟩
        obtain ⟨c, hc, hspace⟩ := (Option.any_eq_true _ _).mp hany
        rw [hrest c hc] at hspace
        exact Bool.false_ne_true hspace
      rw [hnone, first_no_gap hrest]
      rfl
    · obtain ⟨c, g, hg⟩ := List.exists_cons_of_ne_nil hgap
      have hhead : s.head?.any isSpace := by
        rw [← hsplit, hg]
        exact hspaces c (hg ▸ List.mem_cons_self)
      rw [heading, hdrop, if_pos ⟨List.prefix_append _ _, hhead⟩]
      conv_lhs => rw [← hsplit]
      rw [first_gap hspaces hgap hrest fun e s' he => first_name_space hname he s', Option.map_map]
      exact first_name hname (s.dropWhile isSpace)
  · rw [heading, if_neg fun h => hpre h.1, Define.piecePattern, first_lit_seq_none hpre]
    rfl

/-! ### Rewriting a piece -/

/-- What the substitutions make of a piece: the one of its macro counts. -/
def rewrite (ds : List Define) (piece : Text) : Text :=
  match heading piece with
  | some (name, t) =>
    match ds.find? fun d => d.name = name with
    | some d =>
      match d.tail.first t with
      | some k => d.body ++ k.rest
      | none => piece
    | none => piece
  | none => piece

variable {d : Define} {ds : List Define} {piece : Text}

theorem Define.body_eq (d : Define) (rest : Text) :
    d.body ++ rest = "define".toList ++ ([' '] ++ (d.name ++ (d.gap ++ (d.new ++ rest)))) := by
  have hdefine : "define ".toList = "define".toList ++ [' '] := by decide +kernel
  unfold Define.body
  rw [hdefine]
  simp only [List.append_assoc]

theorem Define.Fits.heading_body (h : d.Fits) (rest : Text) :
    heading (d.body ++ rest) = some (d.name, d.gap ++ (d.new ++ rest)) := by
  have hblank : [' '] ≠ [] ∧ ∀ c ∈ [' '], isSpace c = true :=
    ⟨List.cons_ne_nil _ _, List.forall_mem_singleton.mpr (by decide)⟩
  rw [Define.body_eq]
  refine heading_eq hblank h.name fun e he => ?_
  obtain ⟨c, g, hg⟩ := List.exists_cons_of_ne_nil h.gap.1
  rw [hg] at he
  obtain rfl : c = e := by simpa using he
  exact h.gap.2 c (hg ▸ List.mem_cons_self)

/-- The new line is matched in place of the old one. -/
theorem Define.Fits.tail_again (h : d.Fits) {t : Text} {k : Match} (hk : d.tail.first t = some k) :
    (d.tail.first (d.gap ++ (d.new ++ k.rest))).map Match.rest = some k.rest := by
  rw [Define.tail, first_seq] at hk
  obtain ⟨a, -, ha⟩ := List.exists_of_findSome?_eq_some hk
  obtain ⟨k', hk', rfl⟩ := Option.map_eq_some_iff.mp ha
  have hrest : (Match.append a k').rest = k'.rest := rfl
  have hagain := h.again _ k' hk'
  have hhead : ∀ c ∈ (d.new ++ k'.rest).head?, isSpace c = false := fun c hc => by
    obtain ⟨n, ns, hn⟩ := List.exists_cons_of_ne_nil h.new.1
    rw [hn] at hc
    obtain rfl : n = c := by simpa using hc
    exact h.new.2 n (by rw [hn]; rfl)
  rw [hrest, Define.tail, first_greedy_seq h.gap.2 (List.length_pos_iff.mpr h.gap.1) hhead hagain]
  rfl

/-- A piece is rewritten by the substitution of its macro if that matches, and
else by none. -/
theorem rewrite_spec (ds : List Define) (piece : Text) :
    (∃ d ∈ ds, ∃ t k, heading piece = some (d.name, t) ∧ d.tail.first t = some k ∧
      (ds.find? fun e => e.name = d.name) = some d ∧ rewrite ds piece = d.body ++ k.rest) ∨
    (rewrite ds piece = piece ∧ ∀ d t, heading piece = some (d.name, t) →
      (ds.find? fun e => e.name = d.name) = some d → d.tail.first t = none) := by
  unfold rewrite
  cases hh : heading piece with
  | none => exact .inr ⟨rfl, fun d t h => by cases h⟩
  | some h =>
    obtain ⟨name, t⟩ := h
    dsimp only
    cases hf : ds.find? fun d => d.name = name with
    | none =>
      refine .inr ⟨rfl, fun d t' h hd => ?_⟩
      obtain ⟨rfl, rfl⟩ := Prod.mk.inj (Option.some.inj h)
      rw [hf] at hd
      cases hd
    | some d =>
      have hname : d.name = name := by simpa using List.find?_some hf
      subst hname
      dsimp only
      cases hk : d.tail.first t with
      | none =>
        refine .inr ⟨rfl, fun d' t' h hd => ?_⟩
        obtain ⟨hname, rfl⟩ := Prod.mk.inj (Option.some.inj h)
        rw [← hname, hf] at hd
        rw [← Option.some.inj hd, hk]
      | some k => exact .inl ⟨d, List.mem_of_find?_eq_some hf, t, k, rfl, hk, hf, rfl⟩

/-- One substitution on a piece. -/
theorem subPiece_eq_rewrite (h : d.Fits) (piece : Text) :
    subPiece d.piecePattern d.body piece = rewrite [d] piece := by
  have hfirst := first_piecePattern h.name piece
  have hsub : subPiece d.piecePattern d.body piece =
      (((d.piecePattern.first piece).map Match.rest).map (d.body ++ ·)).getD piece := by
    unfold subPiece
    cases d.piecePattern.first piece <;> rfl
  rw [hsub, hfirst, rewrite]
  cases heading piece with
  | none => rfl
  | some h =>
    obtain ⟨name, t⟩ := h
    rw [Option.bind_some]
    dsimp only
    by_cases hname : name = d.name
    · rw [if_pos hname, List.find?_cons_of_pos (by simpa using hname.symm)]
      dsimp only
      cases d.tail.first t <;> rfl
    · rw [if_neg hname, List.find?_cons_of_neg (by simpa using Ne.symm hname)]
      rfl

/-- Macros of different names do not meet. -/
theorem rewrite_cons (h : d.Fits) (hd : d.name ∉ ds.map Define.name) (piece : Text) :
    rewrite (d :: ds) piece = rewrite ds (rewrite [d] piece) := by
  have hnone : (ds.find? fun e => e.name = d.name) = none := List.find?_eq_none.mpr fun e he heq =>
    hd (List.mem_map.mpr ⟨e, he, of_decide_eq_true heq⟩)
  rcases rewrite_spec [d] piece with ⟨d', hd', t, k, hh, hk, -, hout⟩ | ⟨hout, hno⟩
  · obtain rfl := List.mem_singleton.mp hd'
    have hleft : rewrite (d' :: ds) piece = d'.body ++ k.rest := by
      rw [rewrite, hh]
      dsimp only
      rw [List.find?_cons_of_pos (by simp)]
      dsimp only
      rw [hk]
    have hright : rewrite ds (d'.body ++ k.rest) = d'.body ++ k.rest := by
      rw [rewrite, h.heading_body]
      dsimp only
      rw [hnone]
    rw [hleft, hout, hright]
  · rw [hout]
    unfold rewrite
    cases hh : heading piece with
    | none => rfl
    | some x =>
      obtain ⟨name, t⟩ := x
      dsimp only
      by_cases hname : d.name = name
      · subst hname
        rw [List.find?_cons_of_pos (by simp), hnone]
        dsimp only
        rw [hno d t hh (List.find?_cons_of_pos (by simp))]
      · rw [List.find?_cons_of_neg (by simpa using hname)]

/-- Substitutions of macros with different names, each of which fits. -/
structure Sound (ds : List Define) : Prop where
  fits : ∀ d ∈ ds, d.Fits
  names : (ds.map Define.name).Nodup

theorem Sound.tail (h : Sound (d :: ds)) : Sound ds where
  fits e he := h.fits e (List.mem_cons_of_mem d he)
  names := (List.nodup_cons.mp h.names).2

/-- The macros and the patterns of their values, which no configuration
changes. -/
def skeleton (ds : List Define) : List (Text × Pattern) := ds.map fun d => (d.name, d.value)

theorem find?_skeleton {ds ds' : List Define} (h : skeleton ds = skeleton ds') {name : Text} {d : Define}
    (hd : (ds.find? fun e => e.name = name) = some d) :
    ∃ d', (ds'.find? fun e => e.name = name) = some d' ∧ d'.name = d.name ∧ d'.tail = d.tail := by
  have hmap : ∀ l : List Define, ((skeleton l).find? fun e => e.1 = name) =
      (l.find? fun e => e.name = name).map fun d => (d.name, d.value) := fun l => by
    rw [skeleton, List.find?_map]
    rfl
  have hsome := hmap ds'
  rw [← h, hmap, hd] at hsome
  obtain ⟨d', hd', heq⟩ := Option.map_eq_some_iff.mp hsome.symm
  obtain ⟨hname, hvalue⟩ := Prod.mk.inj heq
  exact ⟨d', hd', hname, by rw [Define.tail, Define.tail, hvalue]⟩

theorem rewrite_of_heading {name t : Text} {k : Match} (hh : heading piece = some (name, t))
    (hf : (ds.find? fun e => e.name = name) = some d) (hk : d.tail.first t = some k) :
    rewrite ds piece = d.body ++ k.rest := by
  unfold rewrite
  rw [hh]
  dsimp only
  rw [hf]
  dsimp only
  rw [hk]

/-- A configuration's lines are rewritten by the next one as the old lines. -/
theorem rewrite_rewrite {ds ds' : List Define} (hds : Sound ds) (hskel : skeleton ds = skeleton ds')
    (piece : Text) : rewrite ds' (rewrite ds piece) = rewrite ds' piece := by
  rcases rewrite_spec ds piece with ⟨d, hd, t, k, hh, hk, hf, hout⟩ | ⟨hout, -⟩
  · obtain ⟨d', hf', hname, htail⟩ := find?_skeleton hskel hf
    have hfits := hds.fits d hd
    obtain ⟨k', hk', hrest⟩ := Option.map_eq_some_iff.mp (hfits.tail_again hk)
    have hleft : rewrite ds' (d.body ++ k.rest) = d'.body ++ k'.rest :=
      rewrite_of_heading (hfits.heading_body k.rest) hf' (by rw [htail, hk'])
    have hright : rewrite ds' piece = d'.body ++ k.rest :=
      rewrite_of_heading hh hf' (by rw [htail, hk])
    rw [hout, hleft, hright, hrest]
  · rw [hout]

/-! ### The text -/

theorem Define.pattern_eq (d : Define) : d.pattern = .seq (.lit ('#' :: "define".toList))
    (.seq (.greedy isSpace 1) (.seq (.lit d.name) d.tail)) := by
  have hdefine : "#define".toList = '#' :: "define".toList := by decide +kernel
  rw [Define.pattern, hdefine, Define.tail]

theorem Define.line_eq (d : Define) : d.line = '#' :: d.body := by
  have hdefine : "#define ".toList = '#' :: "define ".toList := by decide +kernel
  unfold Define.line Define.body
  rw [hdefine]
  generalize "define ".toList = w
  rfl

theorem notMem_define : '#' ∉ "define".toList := by decide

theorem Define.Fits.avoids (h : d.Fits) :
    (Pattern.seq (.greedy isSpace 1) (.seq (.lit d.name) d.tail)).avoids '#' = true := by
  have hspace : isSpace '#' = false := by decide
  simp [Define.tail, Pattern.avoids, hspace, h.unmarked.1, h.value.1]

theorem Define.Fits.noEos (h : d.Fits) :
    (Pattern.seq (.greedy isSpace 1) (.seq (.lit d.name) d.tail)).noEos = true := by
  simp [Define.tail, Pattern.noEos, h.value.2]

theorem Define.Fits.notMem_body (h : d.Fits) : '#' ∉ d.body := by
  have hdefine : '#' ∉ "define ".toList := by decide
  unfold Define.body
  generalize "define ".toList = w at hdefine ⊢
  simp only [List.mem_append, not_or]
  exact ⟨⟨⟨hdefine, h.unmarked.1⟩, h.unmarked.2.1⟩, h.unmarked.2.2⟩

/-- One substitution goes piece by piece. -/
theorem splitOn_sub_define (h : d.Fits) (text : Text) :
    (d.sub text).splitOn '#' = mapTail (rewrite [d]) (text.splitOn '#') := by
  have hpieces := splitOn_sub notMem_define h.avoids h.noEos h.notMem_body text
  rw [← Define.pattern_eq, ← Define.line_eq] at hpieces
  have hsub : subPiece d.piecePattern d.body = rewrite [d] := funext (subPiece_eq_rewrite h)
  rw [Define.sub, hpieces, ← hsub]
  rfl

/-- And so do all of them. -/
theorem splitOn_patch : ∀ {ds : List Define}, Sound ds → ∀ text : Text,
    (patch ds text).splitOn '#' = mapTail (rewrite ds) (text.splitOn '#')
  | [], _, text => by
    have hid : rewrite [] = id := funext fun piece => by
      unfold rewrite
      cases heading piece <;> rfl
    rw [hid]
    show text.splitOn '#' = _
    cases text.splitOn '#' with
    | nil => rfl
    | cons x xs => rw [mapTail, List.map_id]
  | d :: ds, hds, text => by
    have hd := hds.fits d List.mem_cons_self
    have hcons : rewrite (d :: ds) = rewrite ds ∘ rewrite [d] := funext fun piece =>
      rewrite_cons hd (List.nodup_cons.mp hds.names).1 piece
    show (patch ds (d.sub text)).splitOn '#' = _
    rw [splitOn_patch hds.tail, splitOn_sub_define hd, mapTail_mapTail, hcons]

theorem splitOn_injective {s t : Text} (h : s.splitOn '#' = t.splitOn '#') : s = t := by
  have hs : ['#'].intercalate (s.splitOn '#') = s := List.intercalate_splitOn '#'
  rw [← hs, h, List.intercalate_splitOn]

/-- The next configuration does not see the one before. -/
theorem patch_patch {ds ds' : List Define} (hds : Sound ds) (hds' : Sound ds')
    (hskel : skeleton ds = skeleton ds') (text : Text) : patch ds' (patch ds text) = patch ds' text := by
  apply splitOn_injective
  have hcomp : rewrite ds' ∘ rewrite ds = rewrite ds' := funext (rewrite_rewrite hds hskel)
  rw [splitOn_patch hds', splitOn_patch hds, mapTail_mapTail, hcomp, splitOn_patch hds']

/-- The rest of a text from a mark on is a piece and what starts with the next mark. -/
theorem exists_piece_of_suffix {s text : Text} (h : '#' :: s <:+ text) :
    ∃ first pieces piece rest, text.splitOn '#' = first :: pieces ∧ piece ∈ pieces ∧
      s = piece ++ rest ∧ ∀ c ∈ rest.head?, c = '#' := by
  obtain ⟨a, rfl⟩ := h
  obtain ⟨first, before, ha⟩ := List.exists_cons_of_ne_nil (List.splitOn_ne_nil '#' a)
  obtain ⟨piece, after, hs⟩ := List.exists_cons_of_ne_nil (List.splitOn_ne_nil '#' s)
  have hsplit : (a ++ '#' :: s).splitOn '#' = first :: (before ++ piece :: after) := by
    rw [List.splitOn_eq_splitOnP, List.splitOnP_append_cons (p := (· == '#')) a s (beq_self_eq_true '#'),
      ← List.splitOn_eq_splitOnP, ← List.splitOn_eq_splitOnP, ha, hs]
    rfl
  refine ⟨first, _, piece, marked '#' after, hsplit, List.mem_append_right _ List.mem_cons_self, ?_, ?_⟩
  · rw [← intercalate_marked, ← hs, List.intercalate_splitOn]
  · cases after with
    | nil => simp [marked]
    | cons p ps => simp [marked]

/-- Where the macro's pattern matches, a piece of the macro starts. -/
theorem first_pattern_piece (h : d.Fits) {piece rest : Text} (hrest : ∀ c ∈ rest.head?, c = '#') :
    (d.pattern.first ('#' :: (piece ++ rest))).map Match.rest =
      ((d.piecePattern.first piece).map Match.rest).map (· ++ rest) := by
  have havoids : d.piecePattern.avoids '#' = true := by
    have hq := h.avoids
    have hdefine : ("define".toList.contains '#') = false := by decide
    rw [Define.piecePattern, Pattern.avoids, Pattern.avoids, hdefine, hq]
    rfl
  rw [Define.pattern_eq, first_marked, ← Define.piecePattern, first_piece havoids h.noEos hrest]
  cases d.piecePattern.first piece <;> rfl

theorem find?_of_nodup (hds : Sound ds) (hd : d ∈ ds) : (ds.find? fun e => e.name = d.name) = some d := by
  have hex : ∃ e ∈ ds, decide (e.name = d.name) = true := ⟨d, hd, decide_eq_true rfl⟩
  obtain ⟨e, he⟩ := Option.isSome_iff_exists.mp (List.find?_isSome.mpr hex)
  have hsome := List.find?_some he
  have hname : e.name = d.name := by simpa using hsome
  rw [he, List.inj_on_of_nodup_map hds.names (List.mem_of_find?_eq_some he) hd hname]

/-- After patching every match of a macro's pattern is its new line. -/
theorem carries_patch (hds : Sound ds) (text : Text) : Carries ds (patch ds text) := by
  intro d hd s hs m hm
  have hfits := hds.fits d hd
  have hfind := find?_of_nodup hds hd
  cases s with
  | nil =>
    rw [Define.pattern_eq, first_marked_nil] at hm
    cases hm
  | cons c s =>
    by_cases hc : c = '#'
    swap
    · rw [Define.pattern_eq, first_unmarked hc] at hm
      cases hm
    subst hc
    obtain ⟨first, pieces, piece, rest, hsplit, hpiece, rfl, hrest⟩ := exists_piece_of_suffix hs
    obtain ⟨old, rfl⟩ : ∃ old, piece = rewrite ds old := by
      rw [splitOn_patch hds] at hsplit
      obtain ⟨first', olds, holds⟩ := List.exists_cons_of_ne_nil (List.splitOn_ne_nil '#' text)
      rw [holds, mapTail, List.cons.injEq] at hsplit
      rw [← hsplit.2] at hpiece
      obtain ⟨old, -, hold⟩ := List.mem_map.mp hpiece
      exact ⟨old, hold.symm⟩
    have hmatch : (d.pattern.first ('#' :: (rewrite ds old ++ rest))).map Match.rest = _ :=
      first_pattern_piece hfits hrest
    rw [hm, first_piecePattern hfits.name] at hmatch
    have hcut := taken_append_rest (List.mem_of_head? hm)
    rcases rewrite_spec ds old with ⟨e, he, t, k, -, hk, -, hout⟩ | ⟨hout, hno⟩
    · have hefits := hds.fits e he
      rw [hout, hefits.heading_body, Option.bind_some] at hmatch
      by_cases hname : e.name = d.name
      · obtain rfl := List.inj_on_of_nodup_map hds.names he hd hname
        rw [if_pos rfl, hefits.tail_again hk] at hmatch
        have hmrest : m.rest = k.rest ++ rest := Option.some.inj hmatch
        rw [hmrest, hout, List.append_assoc, ← List.cons_append, ← Define.line_eq] at hcut
        exact List.append_cancel_right hcut
      · rw [if_neg hname] at hmatch
        cases hmatch
    · rw [hout] at hmatch
      cases hh : heading old with
      | none =>
        rw [hh] at hmatch
        cases hmatch
      | some x =>
        obtain ⟨name, t⟩ := x
        rw [hh, Option.bind_some] at hmatch
        by_cases hname : name = d.name
        · rw [if_pos hname, hno d t (hname ▸ hh) hfind] at hmatch
          cases hmatch
        · rw [if_neg hname] at hmatch
          cases hmatch

theorem SameBut.append {s t : Text} (h : SameBut ds s t) : ∀ x : Text, SameBut ds (x ++ s) (x ++ t)
  | [] => h
  | c :: x => .keep c (h.append x)

theorem sameBut_marked (hds : Sound ds) : ∀ pieces : List Text,
    SameBut ds (marked '#' pieces) (marked '#' (pieces.map (rewrite ds)))
  | [] => .nil
  | piece :: pieces => by
    have ih := sameBut_marked hds pieces
    have hrest : ∀ c ∈ (marked '#' pieces).head?, c = '#' := by
      cases pieces with
      | nil => simp [marked]
      | cons p ps => simp [marked]
    show SameBut ds ('#' :: (piece ++ marked '#' pieces))
      ('#' :: (rewrite ds piece ++ marked '#' (pieces.map (rewrite ds))))
    rcases rewrite_spec ds piece with ⟨d, hd, t, k, hh, hk, -, hout⟩ | ⟨hout, -⟩
    · have hfits := hds.fits d hd
      have hmatch : (d.pattern.first ('#' :: (piece ++ marked '#' pieces))).map Match.rest = _ :=
        first_pattern_piece hfits hrest
      rw [first_piecePattern hfits.name, hh, Option.bind_some, if_pos rfl, hk] at hmatch
      obtain ⟨m, hm, hmrest⟩ := Option.map_eq_some_iff.mp hmatch
      have hline : '#' :: (d.body ++ k.rest ++ marked '#' (pieces.map (rewrite ds))) =
          d.line ++ (k.rest ++ marked '#' (pieces.map (rewrite ds))) := by
        rw [Define.line_eq, List.append_assoc, List.cons_append]
      rw [hout, hline]
      exact .define hd hm (hmrest ▸ ih.append k.rest)
    · rw [hout]
      exact .keep '#' (ih.append piece)

/-- Outside the matches of the macros' patterns the text stays. -/
theorem sameBut_patch (hds : Sound ds) (text : Text) : SameBut ds text (patch ds text) := by
  obtain ⟨first, pieces, hsplit⟩ := List.exists_cons_of_ne_nil (List.splitOn_ne_nil '#' text)
  have htext : text = first ++ marked '#' pieces := by
    rw [← intercalate_marked, ← hsplit, List.intercalate_splitOn]
  have hpatch : patch ds text = first ++ marked '#' (pieces.map (rewrite ds)) := by
    have hcat : ['#'].intercalate ((patch ds text).splitOn '#') = patch ds text := List.intercalate_splitOn '#'
    rw [← hcat, splitOn_patch hds, hsplit, mapTail, intercalate_marked]
  rw [hpatch]
  conv in SameBut ds text _ => rw [htext]
  exact (sameBut_marked hds pieces).append first

/-! ### The values -/

/-- A repeated class takes the run up to the first other character. -/
theorem first_greedy {p : Char → Bool} {w t : Text} (hall : ∀ c ∈ w, p c = true) (hne : w ≠ [])
    (ht : ∀ c ∈ t.head?, p c = false) : (Pattern.greedy p 1).first (w ++ t) = some ⟨[], w, t⟩ := by
  have hlit : (Pattern.lit []).first t = some ⟨[], [], t⟩ := by
    rw [Pattern.first, Pattern.matches, if_pos (List.isPrefixOf_iff_prefix.mpr List.nil_prefix)]
    rfl
  have hseq := first_greedy_seq hall (List.length_pos_iff.mpr hne) ht hlit
  rw [Pattern.first, matches_seq_empty] at hseq
  rw [Pattern.first, hseq, Match.append]
  simp

/-- So another run of the class in its place is taken alike. -/
theorem first_greedy_again {p : Char → Bool} {new : Text} (hall : ∀ c ∈ new, p c = true) (hne : new ≠ [])
    {s : Text} {k : Match} (hk : (Pattern.greedy p 1).first s = some k) :
    (Pattern.greedy p 1).first (new ++ k.rest) = some ⟨[], new, k.rest⟩ := by
  refine first_greedy hall hne ?_
  have hhead : ∀ c ∈ (s.dropWhile p).head?, p c = false := eq_false_of_mem_head?_dropWhile
  have hrun : ∀ c ∈ s.takeWhile p, p c = true := fun c hc => List.mem_takeWhile_imp hc
  have hsplit : s.takeWhile p ++ s.dropWhile p = s := List.takeWhile_append_dropWhile
  by_cases hnil : s.takeWhile p = []
  · -- the pattern would not match
    obtain ⟨-, hcut, htaken, hlen⟩ := mem_runMatches.mp (List.mem_reverse.mp (List.mem_of_head? hk))
    obtain ⟨c, x, hx⟩ := List.exists_cons_of_ne_nil (List.length_pos_iff.mp hlen)
    rw [hnil, List.nil_append] at hsplit
    rw [hsplit, ← hcut, hx] at hhead
    have hc := htaken c (hx ▸ List.mem_cons_self)
    rw [hhead c rfl] at hc
    exact absurd hc Bool.false_ne_true
  · have hfirst := first_greedy hrun hnil hhead
    rw [hsplit, hk] at hfirst
    rw [Option.some.inj hfirst]
    exact hhead

/-- Names and gaps as they are in the source. -/
def Plain (name gap : Text) : Prop :=
  name ≠ [] ∧ gap ≠ [] ∧ name.all (fun c => !isSpace c && c != '#') = true ∧ gap.all isSpace = true

instance (name gap : Text) : Decidable (Plain name gap) := inferInstanceAs (Decidable (_ ∧ _ ∧ _ ∧ _))

theorem fits_of_plain {name gap new : Text} {value : Pattern} (hplain : Plain name gap)
    (hnew : new ≠ [] ∧ ∀ c ∈ new, isSpace c = false ∧ c ≠ '#')
    (hvalue : value.avoids '#' = true ∧ value.noEos = true)
    (hagain : ∀ s k, value.first s = some k → value.first (new ++ k.rest) = some ⟨[], new, k.rest⟩) :
    Define.Fits ⟨name, value, gap, new⟩ := by
  obtain ⟨hname, hgap, hchars, hspaces⟩ := hplain
  have hchars : ∀ c ∈ name, isSpace c = false ∧ c ≠ '#' := fun c hc => by
    simpa using List.all_eq_true.mp hchars c hc
  have hspaces : ∀ c ∈ gap, isSpace c = true := List.all_eq_true.mp hspaces
  have hmark : isSpace '#' = false := by decide
  refine ⟨⟨hname, fun c hc => (hchars c hc).1⟩, ⟨hgap, hspaces⟩, ⟨hnew.1, fun c hc => ?_⟩,
    ⟨fun h => (hchars _ h).2 rfl, fun h => ?_, fun h => (hnew.2 _ h).2 rfl⟩, hvalue, hagain⟩
  · exact (hnew.2 c (List.mem_of_mem_head? hc)).1
  · rw [hspaces _ h] at hmark
    exact Bool.false_ne_true hmark.symm

theorem fits_digits (u : UnicodeData) {name gap : Text} (hplain : Plain name gap) (n : ℕ) :
    Define.Fits ⟨name, digits u, gap, showNat n⟩ := by
  have hmark : u.decimal '#' = none := u.decimal_ascii '#' (by decide)
  have hdigit : ∀ c ∈ showNat n, (u.decimal c).isSome = true := fun c hc => by
    have hd := digit_of_mem_showNat hc
    have hlt := (toNat_of_isDigit hd).2
    rw [u.decimal_ascii c (by omega), if_pos hd]
    rfl
  refine fits_of_plain hplain ⟨showNat_ne_nil n, fun c hc => ⟨isSpace_of_isDigit (digit_of_mem_showNat hc), ?_⟩⟩
    ⟨?_, rfl⟩ fun s k hk => first_greedy_again hdigit (showNat_ne_nil n) hk
  · rintro rfl
    exact notMem_showNat (by decide) n hc
  · simp [digits, Pattern.avoids, hmark]

theorem fits_word (u : UnicodeData) {name gap word : Text} (hplain : Plain name gap)
    (hword : word ≠ [] ∧ ∀ c ∈ word, isWord u c = true ∧ isSpace c = false) :
    Define.Fits ⟨name, .greedy (isWord u) 1, gap, word⟩ := by
  have hmark : isWord u '#' = false := by
    rw [isWord, u.isAlnum_ascii '#' (by decide)]
    rfl
  refine fits_of_plain hplain ⟨hword.1, fun c hc => ⟨(hword.2 c hc).2, ?_⟩⟩ ⟨?_, rfl⟩
    fun s k hk => first_greedy_again (fun c hc => (hword.2 c hc).1) hword.1 hk
  · rintro rfl
    rw [(hword.2 _ hc).1] at hmark
    exact Bool.false_ne_true hmark.symm
  · simp [Pattern.avoids, hmark]

theorem isHexDigit_digitChar : ∀ d < 16, isHexDigit (Nat.digitChar d) = true := by decide

theorem isSpace_digitChar : ∀ d < 16, isSpace (Nat.digitChar d) = false ∧ Nat.digitChar d ≠ '#' := by decide

theorem fits_hex {name gap : Text} (hplain : Plain name gap) (n : ℕ) :
    Define.Fits ⟨name, .seq (.lit "0x".toList) (.greedy isHexDigit 1), gap, hex n⟩ := by
  have hdigits : ∀ c ∈ Nat.toDigits 16 n, isHexDigit c = true := fun c hc => by
    obtain ⟨d, hd, rfl⟩ := mem_toDigits n c hc
    exact isHexDigit_digitChar d hd
  have hne : Nat.toDigits 16 n ≠ [] := Nat.toDigits_ne_nil
  have hhex : hex n = "0x".toList ++ Nat.toDigits 16 n := rfl
  refine fits_of_plain hplain ⟨List.cons_ne_nil _ _, fun c hc => ?_⟩ ⟨by decide, rfl⟩ fun s k hk => ?_
  · rcases List.mem_cons.mp hc with rfl | hc
    · decide
    · rcases List.mem_cons.mp hc with rfl | hc
      · decide
      · obtain ⟨d, hd, rfl⟩ := mem_toDigits n c hc
        exact isSpace_digitChar d hd
  · by_cases hpre : "0x".toList <+: s
    · obtain ⟨t, rfl⟩ := hpre
      rw [first_lit_seq] at hk
      obtain ⟨k', hk', rfl⟩ := Option.map_eq_some_iff.mp hk
      have hrest : (Match.append ⟨[], "0x".toList, t⟩ k').rest = k'.rest := rfl
      rw [hrest, hhex, List.append_assoc, first_lit_seq, first_greedy_again hdigits hne hk']
      rfl
    · rw [first_lit_seq_none hpre] at hk
      cases hk

/-! ### The two kinds of guests -/

variable {u : UnicodeData}

/-- The macros and values are those that the guest is built with. -/
theorem CacheConfig.build_defines (c : CacheConfig u) :
    (c.guest.build u).map Build.defines = some (c.defines.map fun d => (d.name, d.new)) := by
  rw [CacheGuest.build, c.bytes_eq]
  rfl

theorem CciConfig.build_defines (c : CciConfig u) :
    c.guest.build.defines = c.defines.map fun d => (d.name, d.new) := rfl

theorem CacheConfig.sound (c : CacheConfig u) : Sound c.defines where
  fits := by
    simp only [CacheConfig.defines, List.forall_mem_cons]
    exact ⟨fits_digits u (by decide +kernel) _, fits_digits u (by decide +kernel) _,
      fits_hex (by decide +kernel) _, fits_digits u (by decide +kernel) _,
      fits_digits u (by decide +kernel) _, fits_digits u (by decide +kernel) _,
      fits_digits u (by decide +kernel) _, fun _ h => absurd h List.not_mem_nil⟩
  names := by
    show (["CACHE_LINE_SIZE", "NUM_CPUS", "INTERF_BUF_SIZE", "ENABLE_READS", "ENABLE_WRITES", "IVAC_CACHE",
      "CIVAC_CACHE"].map String.toList).Nodup
    decide +kernel

theorem CciConfig.sound (c : CciConfig u) : Sound c.defines where
  fits := by
    simp only [CciConfig.defines, List.forall_mem_cons]
    exact ⟨fits_word u (by decide +kernel) c.word, fits_digits u (by decide +kernel) _,
      fits_digits u (by decide +kernel) _, fits_digits u (by decide +kernel) _,
      fits_digits u (by decide +kernel) _, fun _ h => absurd h List.not_mem_nil⟩
  names := by
    show (["TEST_TYPE", "SNOOP_TYPE", "DMA_CHANNELS", "COHERENCY", "NUM_CPUS"].map String.toList).Nodup
    decide +kernel

theorem noMemory_of_sound {γ : Type} {defines : γ → List Define} (hsound : ∀ c, Sound (defines c))
    (hskel : ∀ c c', skeleton (defines c) = skeleton (defines c')) : NoMemory defines := by
  intro text cs c
  refine ⟨?_, carries_patch (hsound c) text, sameBut_patch (hsound c) text⟩
  induction cs generalizing text with
  | nil => rfl
  | cons c' cs ih =>
    rw [List.cons_append, List.foldl_cons, ih, patch_patch (hsound c') (hsound c) (hskel c' c)]

/-- The value a macro carries is that of its new line. -/
theorem Carries.hasValue (hds : Sound ds) {text : Text} (h : Carries ds text) (hd : d ∈ ds) :
    HasValue text d.name d.value d.new := fun s hs m hm =>
  ⟨d.gap, (hds.fits d hd).gap.1, (hds.fits d hd).gap.2, h d hd s hs m hm⟩

/-- `1 if word in operation else 0`. -/
theorem CacheConfig.en_eq (c : CacheConfig u) (word : Text) :
    c.en word = if word <:+: c.guest.readWriteOperation then 1 else 0 := by
  rw [CacheConfig.en]
  exact if_congr find_isSome rfl rfl

/-- **Main result.** Whatever configurations were written into the sources
before, they are as if only the last one had been, and every `#define` of a
macro has its value: of cache guests and of CCI guests. -/
theorem patching_noMemory (u : UnicodeData) :
    NoMemory (CacheConfig.defines (u := u)) ∧ NoMemory (CciConfig.defines (u := u)) ∧
    (∀ (text : Text) (cs : List (CacheConfig u)) (c : CacheConfig u),
      let out := (cs ++ [c]).foldl (fun text c => patch c.defines text) text
      let en (word : String) := showNat (if word.toList <:+: c.guest.readWriteOperation then 1 else 0)
      HasValue out "CACHE_LINE_SIZE".toList (digits u) (showNat c.guest.cacheLineSize) ∧
      HasValue out "NUM_CPUS".toList (digits u) (showNat c.guest.numCpus) ∧
      HasValue out "INTERF_BUF_SIZE".toList (.seq (.lit "0x".toList) (.greedy isHexDigit 1)) (hex c.bytes) ∧
      HasValue out "ENABLE_READS".toList (digits u) (en "read") ∧
      HasValue out "ENABLE_WRITES".toList (digits u) (en "write") ∧
      HasValue out "IVAC_CACHE".toList (digits u) (en "ivac") ∧
      HasValue out "CIVAC_CACHE".toList (digits u) (en "civac")) ∧
    ∀ (text : Text) (cs : List (CciConfig u)) (c : CciConfig u),
      let out := (cs ++ [c]).foldl (fun text c => patch c.defines text) text
      HasValue out "TEST_TYPE".toList (.greedy (isWord u) 1) c.guest.testType ∧
      HasValue out "SNOOP_TYPE".toList (digits u) (showNat c.guest.snoopType) ∧
      HasValue out "DMA_CHANNELS".toList (digits u) (showNat c.guest.channels) ∧
      HasValue out "COHERENCY".toList (digits u) (showNat c.guest.coherency) ∧
      HasValue out "NUM_CPUS".toList (digits u) (showNat c.guest.cpuIDs.length) := by
  have hcache : NoMemory (CacheConfig.defines (u := u)) := noMemory_of_sound CacheConfig.sound fun _ _ => rfl
  have hcci : NoMemory (CciConfig.defines (u := u)) := noMemory_of_sound CciConfig.sound fun _ _ => rfl
  refine ⟨hcache, hcci, fun text cs c => ?_, fun text cs c => ?_⟩
  · obtain ⟨hlast, hcarries, -⟩ := hcache text cs c
    have hvalue : ∀ d ∈ c.defines, HasValue (patch c.defines text) d.name d.value d.new := fun d hd =>
      hcarries.hasValue c.sound hd
    simp only [CacheConfig.defines, List.forall_mem_cons, CacheConfig.en_eq] at hvalue
    obtain ⟨hline, hcpus, hsize, hread, hwrite, hivac, hcivac, -⟩ := hvalue
    rw [hlast]
    simp only [CacheConfig.defines, CacheConfig.en_eq]
    exact ⟨hline, hcpus, hsize, hread, hwrite, hivac, hcivac⟩
  · obtain ⟨hlast, hcarries, -⟩ := hcci text cs c
    have hvalue : ∀ d ∈ c.defines, HasValue (patch c.defines text) d.name d.value d.new := fun d hd =>
      hcarries.hasValue c.sound hd
    simp only [CciConfig.defines, List.forall_mem_cons] at hvalue
    obtain ⟨htest, hsnoop, hchannels, hcoherency, hcpus, -⟩ := hvalue
    rw [hlast]
    simp only [CciConfig.defines]
    exact ⟨htest, hsnoop, hchannels, hcoherency, hcpus⟩

/-- `ibs` of 512K in bytes. -/
theorem ibsBytes_512K : ibsBytes asciiData "512K".toList = some 524288 := by decide +kernel

/-- Cache guests on the given CPUs. -/
def stressor (cpuIDs : List ℕ) (readWriteOperation : Text) : CacheConfig asciiData where
  guest := ⟨[], 64, "512K".toList, cpuIDs.length, cpuIDs, readWriteOperation⟩
  bytes := 524288
  bytes_eq := ibsBytes_512K

/-- Lines of the stressor's `main.c`. -/
def stressorMain : Text :=
  ("#define NUM_CPUS            1\n#define CIVAC_CACHE        0\n").toList

/-- Two CPUs that invalidate, then one that reads: the text of the second alone,
though the first had left an invalidating stressor. -/
theorem patching_noMemory_stressor :
    patch (stressor [1] "read".toList).defines (patch (stressor [1, 2] "civac".toList).defines stressorMain) =
      patch (stressor [1] "read".toList).defines stressorMain ∧
    HasValue (patch (stressor [1] "read".toList).defines
        (patch (stressor [1, 2] "civac".toList).defines stressorMain))
      "CIVAC_CACHE".toList (digits asciiData) "0".toList ∧
    HasValue (patch (stressor [1, 2] "civac".toList).defines stressorMain)
      "CIVAC_CACHE".toList (digits asciiData) "1".toList := by
  obtain ⟨hcache, -, hvalues, -⟩ := patching_noMemory asciiData
  have hreads : ¬ "civac".toList <:+: "read".toList := by decide +kernel
  have hread := (hvalues stressorMain [stressor [1, 2] "civac".toList] (stressor [1] "read".toList)).2.2.2.2.2.2
  have hcivac := (hvalues stressorMain [] (stressor [1, 2] "civac".toList)).2.2.2.2.2.2
  refine ⟨(hcache stressorMain [stressor [1, 2] "civac".toList] (stressor [1] "read".toList)).1, ?_, ?_⟩
  · change HasValue _ _ _ (showNat (if "civac".toList <:+: "read".toList then 1 else 0)) at hread
    rw [if_neg hreads] at hread
    exact hread
  · change HasValue _ _ _ (showNat (if "civac".toList <:+: "civac".toList then 1 else 0)) at hcivac
    rwa [if_pos List.infix_rfl, List.nil_append, List.foldl_cons, List.foldl_nil,
      show showNat 1 = "1".toList from rfl] at hcivac

end Guests
end DaatMcs
