/-
# The placeholders of a configuration text

`generate_configs` writes lines, and the patterns of the mitigation step are
literals at the end of a line, so both steps of the mitigation go line by
line: colouring gives the VM blocks that carry a placeholder one mask each,
in order (`colorText_blocks`), and the bandwidth step leaves every line alone
that does not end with one of its own placeholders.
-/
import DaatMcs.Generator.Combine

namespace DaatMcs
namespace TestEngine

open Literal

/-- No colour placeholder in a line. -/
def Free (l : Text) : Prop := ¬ linuxCcToken <:+: l ∧ ¬ baremetalCcToken <:+: l

instance (l : Text) : Decidable (Free l) :=
  inferInstanceAs (Decidable (¬ linuxCcToken <:+: l ∧ ¬ baremetalCcToken <:+: l))

/-- A colour placeholder. -/
def IsCcToken (tok : Text) : Prop := tok = linuxCcToken ∨ tok = baremetalCcToken

/-- A VM block that carries the placeholder: once, at the end of a line. -/
def Placeholder (tok : Text) (vm : List Text) : Prop :=
  ∃ before pre after, vm = before ++ (pre ++ tok) :: after ∧ '#' ∉ pre ∧
    ∀ l ∈ before ++ after, Free l

/-- The line of a coloured VM, without its end. -/
def colorLine (color : Text) : Text := ".colors = ".toList ++ color ++ ",".toList

def replaceToken (tok r l : Text) : Text :=
  if tok <:+ l then l.take (l.length - tok.length) ++ r else l

/-- A VM block with its own mask. -/
def colorVm (color : Text) (vm : List Text) : List Text :=
  vm.map fun l => replaceToken baremetalCcToken (colorLine color)
    (replaceToken linuxCcToken (colorLine color) l)

/-- The VM block carries a colour placeholder. -/
def carries (vm : List Text) : Bool :=
  vm.any fun l => linuxCcToken.isSuffixOf l || baremetalCcToken.isSuffixOf l

/-- The VM blocks with one mask for each that carries a placeholder, in order. -/
def colorVms : List Text → List (List Text) → List (List Text)
  | _, [] => []
  | [], vms => vms
  | color :: colors, vm :: vms =>
    if carries vm then colorVm color vm :: colorVms colors vms
    else vm :: colorVms (color :: colors) vms

/-! ### Tokens at the end of a line -/

/-- Two literals that both end a line end each other. -/
theorem not_suffix_of_suffix {s t l : Text} (h : ¬ s <:+ t) (h' : ¬ t <:+ s) (ht : t <:+ l) :
    ¬ s <:+ l := fun hs => by
  rcases Nat.le_total s.length t.length with hle | hle
  · exact h (List.suffix_of_suffix_length_le hs ht hle)
  · exact h' (List.suffix_of_suffix_length_le ht hs hle)

theorem not_baremetal_suffix (pre : Text) : ¬ baremetalCcToken <:+ pre ++ linuxCcToken :=
  not_suffix_of_suffix (by decide) (by decide) (List.suffix_append _ _)

theorem not_linux_suffix (pre : Text) : ¬ linuxCcToken <:+ pre ++ baremetalCcToken :=
  not_suffix_of_suffix (by decide) (by decide) (List.suffix_append _ _)

theorem IsCcToken.newline_notMem {tok : Text} (h : IsCcToken tok) : '\n' ∉ tok := by
  rcases h with rfl | rfl <;> decide

theorem free_of_notMem {l : Text} (h : '#' ∉ l) : Free l :=
  ⟨fun hl => h (hl.subset (by decide)), fun hl => h (hl.subset (by decide))⟩

theorem Free.not_suffix {l tok : Text} (h : Free l) (ht : IsCcToken tok) : ¬ tok <:+ l := by
  rcases ht with rfl | rfl
  · exact fun hs => h.1 hs.isInfix
  · exact fun hs => h.2 hs.isInfix

/-- Text without `#` makes no placeholder at the end of a line. -/
theorem Free.append {pre r : Text} (h : Free pre) (hr : '#' ∉ r) : Free (pre ++ r) := by
  have hlinux : linuxCcToken = linuxCcToken.dropLast ++ ['#'] := by decide
  have hbaremetal : baremetalCcToken = baremetalCcToken.dropLast ++ ['#'] := by decide
  unfold Free at h ⊢
  rw [hlinux, hbaremetal] at h ⊢
  exact ⟨fun hl => h.1 (infix_of_append _ hr hl), fun hl => h.2 (infix_of_append _ hr hl)⟩

theorem Free.of_append {pre r : Text} (h : Free (pre ++ r)) : Free pre :=
  ⟨fun hl => h.1 (hl.trans (List.prefix_append pre r).isInfix),
    fun hl => h.2 (hl.trans (List.prefix_append pre r).isInfix)⟩

/-! ### The colouring of lines -/

/-- The colouring for one placeholder: each line that ends with it takes the
next colour, while there are colours. -/
def colorLines (tok : Text) : List Text → List Text → List Text
  | _, [] => []
  | [], ls => ls
  | color :: colors, l :: ls =>
    if tok <:+ l then
      (l.take (l.length - tok.length) ++ colorLine color) :: colorLines tok colors ls
    else l :: colorLines tok (color :: colors) ls

theorem substituteLines_none (tok : Text) {f : ℕ → Option (Text × List Text)} :
    ∀ (ls : List Text) (k : ℕ), (∀ j, k ≤ j → f j = none) → substituteLines tok f k ls = ls
  | [], _, _ => rfl
  | l :: ls, k, h => by
    rw [substituteLines, substituteLines_none tok ls (k + 1) fun j hj => h j (by omega),
      substituteLines_none tok ls k h, h k (Nat.le_refl k)]
    split <;> rfl

theorem substituteLines_colors (tok : Text) (colors : List Text) : ∀ (ls : List Text) (k : ℕ),
    substituteLines tok (fun i => colors[i]?.map fun c => (colorLine c, [])) k ls =
      colorLines tok (colors.drop k) ls
  | [], _ => by simp [substituteLines, colorLines]
  | l :: ls, k => by
    by_cases hk : k < colors.length
    · have ih := substituteLines_colors tok colors ls
      rw [substituteLines, List.drop_eq_getElem_cons hk, colorLines, ih, ih,
        List.getElem?_eq_getElem hk, ← List.drop_eq_getElem_cons hk]
      rfl
    · rw [List.drop_eq_nil_of_le (by omega), colorLines, substituteLines_none]
      · intro j hj
        rw [List.getElem?_eq_none (by omega)]
        rfl
      · simp

theorem colorConfigStr_eq (color : Text) :
    colorConfigStr color = unlines '\n' [colorLine color] := by
  have hend : ",\n".toList = ",".toList ++ ['\n'] := by decide
  unfold colorConfigStr colorLine unlines
  rw [List.flatMap_singleton, hend]
  simp only [List.append_assoc]

/-- One pattern on a text made of lines. -/
theorem colorPattern_unlines {tok : Text} (ht : IsCcToken tok) (colors : List Text) (r : ℕ)
    {ls : List Text} (hls : ∀ l ∈ ls, '\n' ∉ l) :
    colorPattern colors (unlines '\n' ls, r) (tok ++ ['\n']) =
      (unlines '\n' (colorLines tok (colors.drop r) ls),
        r + min (ls.countP fun l => tok <:+ l) (colors.length - r)) := by
  let f : ℕ → Option (Text × List Text) := fun i => (colors.drop r)[i]?.map fun c => (colorLine c, [])
  have hf : ∀ i : ℕ, colors[r + i]?.map colorConfigStr =
      (f i).map fun x => unlines '\n' (x.1 :: x.2) := fun i => by
    simp only [f, List.getElem?_drop, Option.map_map]
    exact Option.map_congr fun c _ => colorConfigStr_eq c
  have htext := substitute_unlines ht.newline_notMem f hls
  have hlines : substituteLines tok f 0 ls = colorLines tok (colors.drop r) ls :=
    substituteLines_colors tok (colors.drop r) ls 0
  have hne : tok ++ ['\n'] ≠ [] := by simp
  simp only [colorPattern]
  rw [spliceBack_occurrences hne, funext hf, htext, hlines, length_filter_range,
    length_occurrences_unlines ht.newline_notMem ls hls]

/-! ### The colouring of VM blocks -/

/-- A mask as the generator writes it has no line end and no `#`. -/
def Plain (color : Text) : Prop := '#' ∉ color ∧ '\n' ∉ color

theorem notMem_colorLine {color : Text} (h : Plain color) : '#' ∉ colorLine color := by
  unfold colorLine
  simp only [List.mem_append, not_or]
  exact ⟨⟨by decide, h.1⟩, by decide⟩

theorem newline_notMem_colorLine {color : Text} (h : Plain color) : '\n' ∉ colorLine color := by
  unfold colorLine
  simp only [List.mem_append, not_or]
  exact ⟨⟨by decide, h.2⟩, by decide⟩

theorem replaceToken_of_not {tok l : Text} (r : Text) (h : ¬ tok <:+ l) : replaceToken tok r l = l :=
  if_neg h

theorem replaceToken_append (tok r pre : Text) : replaceToken tok r (pre ++ tok) = pre ++ r := by
  rw [replaceToken, if_pos (List.suffix_append _ _), List.length_append, Nat.add_sub_cancel,
    List.take_left]

/-- The placeholder's line is the one that changes. -/
theorem colorVm_placeholder {tok color pre : Text} {before after : List Text} (ht : IsCcToken tok)
    (hc : Plain color) (hpre : '#' ∉ pre) (hfree : ∀ l ∈ before ++ after, Free l) :
    colorVm color (before ++ (pre ++ tok) :: after) =
      before ++ (pre ++ colorLine color) :: after := by
  have hid : ∀ l ∈ before ++ after, replaceToken baremetalCcToken (colorLine color)
      (replaceToken linuxCcToken (colorLine color) l) = l := fun l hl => by
    rw [replaceToken_of_not _ ((hfree l hl).not_suffix (.inl rfl)),
      replaceToken_of_not _ ((hfree l hl).not_suffix (.inr rfl))]
  have hline : replaceToken baremetalCcToken (colorLine color)
      (replaceToken linuxCcToken (colorLine color) (pre ++ tok)) = pre ++ colorLine color := by
    rcases ht with rfl | rfl
    · have hfree' : Free (pre ++ colorLine color) :=
        (free_of_notMem hpre).append (notMem_colorLine hc)
      rw [replaceToken_append, replaceToken_of_not _ (hfree'.not_suffix (.inr rfl))]
    · rw [replaceToken_of_not _ (not_linux_suffix pre), replaceToken_append]
  rw [colorVm, List.map_append, List.map_cons, hline,
    List.map_congr_left fun l hl => hid l (List.mem_append_left _ hl),
    List.map_congr_left fun l hl => hid l (List.mem_append_right _ hl), List.map_id', List.map_id']

theorem Placeholder.carries {tok : Text} {vm : List Text} (ht : IsCcToken tok)
    (h : Placeholder tok vm) : carries vm = true := by
  obtain ⟨before, pre, after, rfl, -, -⟩ := h
  refine List.any_eq_true.mpr ⟨pre ++ tok, by simp, ?_⟩
  rw [Bool.or_eq_true, List.isSuffixOf_iff_suffix, List.isSuffixOf_iff_suffix]
  rcases ht with rfl | rfl
  · exact .inl (List.suffix_append _ _)
  · exact .inr (List.suffix_append _ _)

theorem carries_free {vm : List Text} (h : ∀ l ∈ vm, Free l) : carries vm = false := by
  refine List.any_eq_false.mpr fun l hl => ?_
  rw [Bool.or_eq_true, List.isSuffixOf_iff_suffix, List.isSuffixOf_iff_suffix]
  exact not_or.mpr ⟨(h l hl).not_suffix (.inl rfl), (h l hl).not_suffix (.inr rfl)⟩

@[simp]
theorem colorVms_nil_left (vms : List (List Text)) : colorVms [] vms = vms := by
  cases vms <;> rfl

@[simp]
theorem colorLines_nil_left (tok : Text) (ls : List Text) : colorLines tok [] ls = ls := by
  cases ls <;> rfl

/-- Blocks that all carry take one colour each. -/
theorem colorVms_append : ∀ (vms vms' : List (List Text)) (colors : List Text),
    (∀ vm ∈ vms, carries vm) →
      colorVms colors (vms ++ vms') = colorVms colors vms ++ colorVms (colors.drop vms.length) vms'
  | [], vms', colors, _ => by cases colors <;> simp [colorVms]
  | vm :: vms, vms', [], _ => by simp
  | vm :: vms, vms', color :: colors, h => by
    have ih := colorVms_append vms vms' colors fun x hx => h x (List.mem_cons_of_mem vm hx)
    rw [List.cons_append, colorVms, if_pos (h vm List.mem_cons_self), ih, colorVms,
      if_pos (h vm List.mem_cons_self)]
    rfl

theorem colorVms_of_not_carries : ∀ (vms : List (List Text)) (colors : List Text),
    (∀ vm ∈ vms, carries vm = false) → colorVms colors vms = vms
  | [], colors, _ => by cases colors <;> rfl
  | vm :: vms, [], _ => rfl
  | vm :: vms, color :: colors, h => by
    rw [colorVms, if_neg (by simp [h vm List.mem_cons_self]),
      colorVms_of_not_carries vms _ fun x hx => h x (List.mem_cons_of_mem vm hx)]

theorem colorLines_append (tok : Text) : ∀ (ls ls' colors : List Text),
    (∀ l ∈ ls, ¬ tok <:+ l) → colorLines tok colors (ls ++ ls') = ls ++ colorLines tok colors ls'
  | [], _, _, _ => rfl
  | l :: ls, ls', [], _ => by simp
  | l :: ls, ls', color :: colors, h => by
    rw [List.cons_append, colorLines, if_neg (h l List.mem_cons_self),
      colorLines_append tok ls ls' _ fun x hx => h x (List.mem_cons_of_mem l hx), List.cons_append]

theorem colorLines_of_not_suffix {tok : Text} {ls : List Text} (colors : List Text)
    (h : ∀ l ∈ ls, ¬ tok <:+ l) : colorLines tok colors ls = ls := by
  have happ := colorLines_append tok ls [] colors h
  rwa [List.append_nil, colorLines, List.append_nil] at happ

/-- Blocks with the placeholder take the colours in order. -/
theorem colorLines_blocks {tok : Text} (ht : IsCcToken tok) (rest : List Text) :
    ∀ (vms : List (List Text)) (colors : List Text), (∀ c ∈ colors, Plain c) →
      (∀ vm ∈ vms, Placeholder tok vm) →
        colorLines tok colors (vms.flatten ++ rest) =
          (colorVms colors vms).flatten ++ colorLines tok (colors.drop vms.length) rest
  | [], colors, _, _ => by simp [colorVms]
  | vm :: vms, [], _, _ => by simp
  | vm :: vms, color :: colors, hc, h => by
    have ih := colorLines_blocks ht rest vms colors (fun c hcc => hc c (List.mem_cons_of_mem _ hcc))
      fun x hx => h x (List.mem_cons_of_mem vm hx)
    have hcarries := (h vm List.mem_cons_self).carries ht
    obtain ⟨before, pre, after, rfl, hpre, hfree⟩ := h vm List.mem_cons_self
    have hns : ∀ l ∈ before ++ after, ¬ tok <:+ l := fun l hl => (hfree l hl).not_suffix ht
    rw [colorVms, if_pos hcarries, colorVm_placeholder ht (hc color List.mem_cons_self) hpre hfree,
      List.flatten_cons, List.flatten_cons, List.append_assoc, List.append_assoc, List.cons_append,
      colorLines_append tok before _ _ fun l hl => hns l (List.mem_append_left _ hl), colorLines,
      if_pos (List.suffix_append _ _), List.length_append, Nat.add_sub_cancel, List.take_left,
      colorLines_append tok after _ _ fun l hl => hns l (List.mem_append_right _ hl), ih]
    simp [List.append_assoc]

theorem countP_blocks {tok : Text} (ht : IsCcToken tok) : ∀ vms : List (List Text),
    (∀ vm ∈ vms, Placeholder tok vm) → vms.flatten.countP (fun l => tok <:+ l) = vms.length
  | [], _ => rfl
  | vm :: vms, h => by
    have ih := countP_blocks ht vms fun x hx => h x (List.mem_cons_of_mem vm hx)
    obtain ⟨before, pre, after, rfl, -, hfree⟩ := h vm List.mem_cons_self
    have hzero : ∀ ls : List Text, (∀ l ∈ ls, Free l) → ls.countP (fun l => tok <:+ l) = 0 :=
      fun ls hls => List.countP_eq_zero.mpr fun l hl => by simpa using (hls l hl).not_suffix ht
    rw [List.flatten_cons, List.countP_append, List.countP_append, List.countP_cons, ih,
      hzero before fun l hl => hfree l (List.mem_append_left _ hl),
      hzero after fun l hl => hfree l (List.mem_append_right _ hl), List.length_cons]
    simp [Nat.add_comm]

/-- A property of lines that colouring keeps. -/
theorem forall_mem_colorVms {tok : Text} (ht : IsCcToken tok) {P : Text → Prop}
    (hP : ∀ pre c, '#' ∉ pre → Plain c → P (pre ++ tok) → P (pre ++ colorLine c)) :
    ∀ (vms : List (List Text)) (colors : List Text), (∀ c ∈ colors, Plain c) →
      (∀ vm ∈ vms, Placeholder tok vm) → (∀ l ∈ vms.flatten, P l) →
        ∀ l ∈ (colorVms colors vms).flatten, P l
  | [], colors, _, _, _ => by cases colors <;> simp [colorVms]
  | vm :: vms, [], _, _, h => h
  | vm :: vms, color :: colors, hc, h, hl => by
    have ih := forall_mem_colorVms ht hP vms colors (fun c hcc => hc c (List.mem_cons_of_mem _ hcc))
      (fun x hx => h x (List.mem_cons_of_mem vm hx))
      fun l hx => hl l (by rw [List.flatten_cons]; exact List.mem_append_right _ hx)
    have hcarries := (h vm List.mem_cons_self).carries ht
    obtain ⟨before, pre, after, rfl, hpre, hfree⟩ := h vm List.mem_cons_self
    have hcol := hc color List.mem_cons_self
    have hvm : ∀ l ∈ before ++ (pre ++ tok) :: after, P l := fun l hx =>
      hl l (by rw [List.flatten_cons]; exact List.mem_append_left _ hx)
    rw [colorVms, if_pos hcarries, colorVm_placeholder ht hcol hpre hfree, List.flatten_cons]
    intro l hx
    rcases List.mem_append.mp hx with hx | hx
    · rcases List.mem_append.mp hx with hx | hx
      · exact hvm l (List.mem_append_left _ hx)
      · rcases List.mem_cons.mp hx with rfl | hx
        · exact hP pre color hpre hcol (hvm _ (List.mem_append_right _ List.mem_cons_self))
        · exact hvm l (List.mem_append_right _ (List.mem_cons_of_mem _ hx))
    · exact ih l hx

/-- The VM blocks of a configuration: those of Linux guests first, those of
baremetal guests next, those without placeholder last. -/
structure Blocks (linuxVms baremetalVms freeVms : List (List Text)) : Prop where
  linux : ∀ vm ∈ linuxVms, Placeholder linuxCcToken vm
  baremetal : ∀ vm ∈ baremetalVms, Placeholder baremetalCcToken vm
  free : ∀ vm ∈ freeVms, ∀ l ∈ vm, Free l

theorem Blocks.colorVms_eq {linuxVms baremetalVms freeVms : List (List Text)}
    (h : Blocks linuxVms baremetalVms freeVms) (colors : List Text) :
    colorVms colors (linuxVms ++ baremetalVms ++ freeVms) =
      colorVms colors linuxVms ++
        (colorVms (colors.drop linuxVms.length) baremetalVms ++ freeVms) := by
  rw [List.append_assoc, colorVms_append _ _ _ fun vm hvm => (h.linux vm hvm).carries (.inl rfl),
    colorVms_append _ _ _ fun vm hvm => (h.baremetal vm hvm).carries (.inr rfl),
    colorVms_of_not_carries freeVms _ fun vm hvm => carries_free (h.free vm hvm)]

theorem Blocks.forall_mem_colorVms {linuxVms baremetalVms freeVms : List (List Text)}
    (h : Blocks linuxVms baremetalVms freeVms) {P : Text → Prop}
    (hP : ∀ pre tok c, Plain c → P (pre ++ tok) → P (pre ++ colorLine c)) {colors : List Text}
    (hc : ∀ c ∈ colors, Plain c)
    (hl : ∀ l ∈ (linuxVms ++ baremetalVms ++ freeVms).flatten, P l) :
    ∀ l ∈ (colorVms colors (linuxVms ++ baremetalVms ++ freeVms)).flatten, P l := by
  rw [h.colorVms_eq]
  simp only [List.flatten_append, List.append_assoc, List.forall_mem_append] at hl ⊢
  exact ⟨TestEngine.forall_mem_colorVms (.inl rfl) (fun pre c _ hcol => hP pre _ c hcol) linuxVms
      colors hc h.linux hl.1,
    TestEngine.forall_mem_colorVms (.inr rfl) (fun pre c _ hcol => hP pre _ c hcol) baremetalVms _
      (fun c hcc => hc c (List.mem_of_mem_drop hcc)) h.baremetal hl.2.1, hl.2.2⟩

theorem not_suffix_of_placeholder {tok other : Text} (ht : IsCcToken tok) (ho : IsCcToken other)
    (hne : tok ≠ other) {vms : List (List Text)} (h : ∀ vm ∈ vms, Placeholder tok vm) :
    ∀ l ∈ vms.flatten, ¬ other <:+ l := by
  intro l hl
  obtain ⟨vm, hvm, hl⟩ := List.mem_flatten.mp hl
  obtain ⟨before, pre, after, rfl, -, hfree⟩ := h vm hvm
  rcases List.mem_append.mp hl with hl | hl
  · exact (hfree l (List.mem_append_left _ hl)).not_suffix ho
  · rcases List.mem_cons.mp hl with rfl | hl
    · rcases ht with rfl | rfl <;> rcases ho with rfl | rfl
      · exact absurd rfl hne
      · exact not_baremetal_suffix pre
      · exact not_linux_suffix pre
      · exact absurd rfl hne
    · exact (hfree l (List.mem_append_right _ hl)).not_suffix ho

section ColorText

variable {linuxVms baremetalVms freeVms : List (List Text)} {head tail colors : List Text}

theorem Blocks.free_rest (h : Blocks linuxVms baremetalVms freeVms) (htail : ∀ l ∈ tail, Free l) :
    ∀ l ∈ freeVms.flatten ++ tail, Free l := by
  refine List.forall_mem_append.mpr ⟨fun l hl => ?_, htail⟩
  obtain ⟨vm, hvm, hl⟩ := List.mem_flatten.mp hl
  exact h.free vm hvm l hl

/-- Behind the Linux blocks no line ends in a Linux placeholder. -/
theorem Blocks.not_linux_rest (h : Blocks linuxVms baremetalVms freeVms)
    (htail : ∀ l ∈ tail, Free l) :
    ∀ l ∈ baremetalVms.flatten ++ (freeVms.flatten ++ tail), ¬ linuxCcToken <:+ l :=
  List.forall_mem_append.mpr
    ⟨not_suffix_of_placeholder (.inr rfl) (.inl rfl) (by decide) h.baremetal,
      fun l hl => (h.free_rest htail l hl).not_suffix (.inl rfl)⟩

/-- The first pattern colours the Linux blocks. -/
theorem Blocks.colorLines_linux (h : Blocks linuxVms baremetalVms freeVms)
    (hc : ∀ c ∈ colors, Plain c) (hhead : ∀ l ∈ head, Free l) (htail : ∀ l ∈ tail, Free l) :
    colorLines linuxCcToken colors (head ++ (linuxVms ++ baremetalVms ++ freeVms).flatten ++ tail) =
      head ++ ((colorVms colors linuxVms).flatten ++
        (baremetalVms.flatten ++ (freeVms.flatten ++ tail))) := by
  simp only [List.flatten_append, List.append_assoc]
  rw [colorLines_append _ head _ _ fun l hl => (hhead l hl).not_suffix (.inl rfl),
    colorLines_blocks (.inl rfl) _ linuxVms colors hc h.linux,
    colorLines_of_not_suffix _ (h.not_linux_rest htail)]

theorem Blocks.countP_linux (h : Blocks linuxVms baremetalVms freeVms)
    (hhead : ∀ l ∈ head, Free l) (htail : ∀ l ∈ tail, Free l) :
    (head ++ (linuxVms ++ baremetalVms ++ freeVms).flatten ++ tail).countP
      (fun l => linuxCcToken <:+ l) = linuxVms.length := by
  have hzero : ∀ ls : List Text, (∀ l ∈ ls, ¬ linuxCcToken <:+ l) →
      ls.countP (fun l => linuxCcToken <:+ l) = 0 :=
    fun ls hls => List.countP_eq_zero.mpr fun l hl => by simpa using hls l hl
  simp only [List.flatten_append, List.append_assoc]
  rw [List.countP_append, List.countP_append, countP_blocks (.inl rfl) linuxVms h.linux,
    hzero _ (h.not_linux_rest htail), hzero head fun l hl => (hhead l hl).not_suffix (.inl rfl)]
  omega

/-- The second pattern colours the baremetal blocks, in the text the first one left. -/
theorem Blocks.colorLines_baremetal (h : Blocks linuxVms baremetalVms freeVms)
    (hc : ∀ c ∈ colors, Plain c) (hhead : ∀ l ∈ head, Free l) (htail : ∀ l ∈ tail, Free l) :
    colorLines baremetalCcToken (colors.drop linuxVms.length)
        (head ++ ((colorVms colors linuxVms).flatten ++
          (baremetalVms.flatten ++ (freeVms.flatten ++ tail)))) =
      head ++ ((colorVms colors linuxVms).flatten ++
        ((colorVms (colors.drop linuxVms.length) baremetalVms).flatten ++
          (freeVms.flatten ++ tail))) := by
  have hbare : IsCcToken baremetalCcToken := .inr rfl
  have hcolored : ∀ l ∈ (colorVms colors linuxVms).flatten, ¬ baremetalCcToken <:+ l :=
    TestEngine.forall_mem_colorVms (.inl rfl)
      (fun pre c hpre hcol _ => ((free_of_notMem hpre).append (notMem_colorLine hcol)).not_suffix hbare)
      linuxVms colors hc h.linux
      (not_suffix_of_placeholder (.inl rfl) hbare (by decide) h.linux)
  rw [colorLines_append _ head _ _ fun l hl => (hhead l hl).not_suffix hbare,
    colorLines_append _ _ _ _ hcolored,
    colorLines_blocks hbare _ baremetalVms _ (fun c hcc => hc c (List.mem_of_mem_drop hcc)) h.baremetal,
    colorLines_of_not_suffix _ fun l hl => (h.free_rest htail l hl).not_suffix hbare]

/-- Colouring the Linux blocks leaves the lines lines. -/
theorem Blocks.newline_notMem_linux (h : Blocks linuxVms baremetalVms freeVms)
    (hc : ∀ c ∈ colors, Plain c)
    (hnl : ∀ l ∈ head ++ (linuxVms ++ baremetalVms ++ freeVms).flatten ++ tail, '\n' ∉ l) :
    ∀ l ∈ head ++ ((colorVms colors linuxVms).flatten ++
      (baremetalVms.flatten ++ (freeVms.flatten ++ tail))), '\n' ∉ l := by
  simp only [List.flatten_append, List.append_assoc, List.forall_mem_append] at hnl ⊢
  refine ⟨hnl.1, TestEngine.forall_mem_colorVms (.inl rfl) (fun pre c _ hcol hl => ?_) linuxVms
    colors hc h.linux hnl.2.1, hnl.2.2⟩
  rw [List.mem_append, not_or] at hl ⊢
  exact ⟨hl.1, newline_notMem_colorLine hcol⟩

/-- **Colouring a configuration.** On a text whose VM blocks carry their
placeholders in the order of the patterns, colouring gives the blocks one
colour each, in order, and changes nothing else. -/
theorem colorText_blocks (h : Blocks linuxVms baremetalVms freeVms) (hc : ∀ c ∈ colors, Plain c)
    (hhead : ∀ l ∈ head, Free l) (htail : ∀ l ∈ tail, Free l)
    (hnl : ∀ l ∈ head ++ (linuxVms ++ baremetalVms ++ freeVms).flatten ++ tail, '\n' ∉ l) :
    colorText [linuxCcToken ++ ['\n'], baremetalCcToken ++ ['\n']]
        (unlines '\n' (head ++ (linuxVms ++ baremetalVms ++ freeVms).flatten ++ tail)) colors =
      unlines '\n' (head ++ (colorVms colors (linuxVms ++ baremetalVms ++ freeVms)).flatten ++ tail) := by
  -- the second pattern goes on with the colour where the first stopped
  have hdrop : colors.drop (0 + min linuxVms.length (colors.length - 0)) =
      colors.drop linuxVms.length := by
    rcases Nat.le_total linuxVms.length colors.length with hle | hle
    · rw [Nat.zero_add, Nat.sub_zero, Nat.min_eq_left hle]
    · rw [Nat.zero_add, Nat.sub_zero, Nat.min_eq_right hle, List.drop_length,
        List.drop_eq_nil_of_le hle]
  rw [colorText, List.foldl_cons, List.foldl_cons, List.foldl_nil,
    colorPattern_unlines (.inl rfl) colors 0 hnl, List.drop_zero, h.colorLines_linux hc hhead htail,
    h.countP_linux hhead htail,
    colorPattern_unlines (.inr rfl) colors _ (h.newline_notMem_linux hc hnl), hdrop,
    h.colorLines_baremetal hc hhead htail, h.colorVms_eq]
  simp only [List.flatten_append, List.append_assoc]

end ColorText

/-- With enough colours no placeholder stays. -/
theorem free_colorVms {tok : Text} (ht : IsCcToken tok) : ∀ (vms : List (List Text))
    (colors : List Text), (∀ c ∈ colors, Plain c) → (∀ vm ∈ vms, Placeholder tok vm) →
      vms.length ≤ colors.length → ∀ l ∈ (colorVms colors vms).flatten, Free l
  | [], colors, _, _, _ => by cases colors <;> simp [colorVms]
  | vm :: vms, [], _, _, hlen => by simp at hlen
  | vm :: vms, color :: colors, hc, h, hlen => by
    have ih := free_colorVms ht vms colors (fun c hcc => hc c (List.mem_cons_of_mem _ hcc))
      (fun x hx => h x (List.mem_cons_of_mem vm hx)) (by simpa using hlen)
    have hcarries := (h vm List.mem_cons_self).carries ht
    obtain ⟨before, pre, after, rfl, hpre, hfree⟩ := h vm List.mem_cons_self
    have hcol := hc color List.mem_cons_self
    rw [colorVms, if_pos hcarries, colorVm_placeholder ht hcol hpre hfree, List.flatten_cons]
    intro l hl
    rcases List.mem_append.mp hl with hl | hl
    · rcases List.mem_append.mp hl with hl | hl
      · exact hfree l (List.mem_append_left _ hl)
      · rcases List.mem_cons.mp hl with rfl | hl
        · exact (free_of_notMem hpre).append (notMem_colorLine hcol)
        · exact hfree l (List.mem_append_right _ hl)
    · exact ih l hl

theorem Blocks.free_colorVms {linuxVms baremetalVms freeVms : List (List Text)}
    (h : Blocks linuxVms baremetalVms freeVms) {colors : List Text} (hc : ∀ c ∈ colors, Plain c)
    (hlen : (linuxVms ++ baremetalVms).length ≤ colors.length) :
    ∀ l ∈ (colorVms colors (linuxVms ++ baremetalVms ++ freeVms)).flatten, Free l := by
  rw [List.length_append] at hlen
  rw [h.colorVms_eq]
  simp only [List.flatten_append, List.forall_mem_append]
  refine ⟨TestEngine.free_colorVms (.inl rfl) linuxVms colors hc h.linux (by omega),
    TestEngine.free_colorVms (.inr rfl) baremetalVms _ (fun c hcc => hc c (List.mem_of_mem_drop hcc))
      h.baremetal (by rw [List.length_drop]; omega), fun l hl => ?_⟩
  obtain ⟨vm, hvm, hl⟩ := List.mem_flatten.mp hl
  exact h.free vm hvm l hl

/-- With too few colours the last placeholder stays at the end of its line. -/
theorem exists_token_colorVms : ∀ (vms : List (List Text)) (colors : List Text),
    (∀ vm ∈ vms, ∃ tok, IsCcToken tok ∧ Placeholder tok vm) → colors.length < vms.length →
      ∃ pre tok, IsCcToken tok ∧ pre ++ tok ∈ (colorVms colors vms).flatten
  | [], colors, _, hlen => by simp at hlen
  | vm :: vms, [], h, _ => by
    obtain ⟨tok, ht, before, pre, after, rfl, -, -⟩ := h vm List.mem_cons_self
    exact ⟨pre, tok, ht, by simp⟩
  | vm :: vms, color :: colors, h, hlen => by
    obtain ⟨pre, tok, ht, hmem⟩ := exists_token_colorVms vms colors
      (fun x hx => h x (List.mem_cons_of_mem vm hx)) (by simpa using hlen)
    obtain ⟨tok', ht', hpl⟩ := h vm List.mem_cons_self
    refine ⟨pre, tok, ht, ?_⟩
    rw [colorVms, if_pos (hpl.carries ht'), List.flatten_cons]
    exact List.mem_append_right _ hmem

theorem length_flatten_colorVms : ∀ (vms : List (List Text)) (colors : List Text),
    (colorVms colors vms).flatten.length = vms.flatten.length
  | [], colors => by cases colors <;> rfl
  | vm :: vms, [] => rfl
  | vm :: vms, color :: colors => by
    rw [colorVms]
    split
    · rw [List.flatten_cons, List.flatten_cons, List.length_append, List.length_append,
        length_flatten_colorVms vms colors, colorVm, List.length_map]
    · rw [List.flatten_cons, List.flatten_cons, List.length_append, List.length_append,
        length_flatten_colorVms vms]

/-! ### The lines of a configuration -/

/-- A line of the text around the VM blocks. -/
def Around (l : Text) : Prop := '\n' ∉ l ∧ Free l

instance (l : Text) : Decidable (Around l) := inferInstanceAs (Decidable ('\n' ∉ l ∧ Free l))

/-- Joined lines are the lines, and one empty line if there is none. -/
theorem join_newline (ls : List Text) : join "\n".toList ls ++ "\n".toList =
    unlines '\n' (ls ++ if ls = [] then [[]] else []) := by
  split
  · rename_i h
    subst h
    rfl
  · rename_i h
    rw [List.append_nil, unlines_eq_intercalate _ h]
    rfl

theorem unlines_dropLast {text : Text} (h : '\n' ∈ text.getLast?) :
    unlines '\n' (text.dropLast.splitOn '\n') = text := by
  rw [unlines_splitOn, List.dropLast_append_getLast? _ h]

/-- The lines of a configuration up to its VM blocks. -/
def headLines (includeProfiler : Bool) (config : GuestConfig) : List Text :=
  ["#include <config.h>".toList, []] ++
    (config.vmImages ++ (if config.vmImages = [] then [[]] else []) ++ [[]]) ++
    (join "\n".toList configPreamble.tail).dropLast.splitOn '\n' ++
    (if includeProfiler || config.enableProfiler then profilerContent.dropLast.splitOn '\n' else []) ++
    ["\t.vmlist_size = ".toList ++ showNat config.vmImages.length ++ ",".toList] ++
    ["\t.vmlist = \x7b".toList]

theorem around_vmlistSize (n : ℕ) : Around ("\t.vmlist_size = ".toList ++ showNat n ++ ",".toList) := by
  refine ⟨?_, free_of_notMem ?_⟩
  · rw [List.mem_append, List.mem_append, not_or, not_or]
    exact ⟨⟨by decide, notMem_showNat (by decide) n⟩, by decide⟩
  · rw [List.mem_append, List.mem_append, not_or, not_or]
    exact ⟨⟨by decide, notMem_showNat (by decide) n⟩, by decide⟩

theorem around_headLines (includeProfiler : Bool) {config : GuestConfig}
    (himg : ∀ l ∈ config.vmImages, Around l) : ∀ l ∈ headLines includeProfiler config, Around l := by
  have hempty : ∀ l ∈ (if config.vmImages = [] then [[]] else []), Around l := by
    split <;> decide
  have hpreamble : ∀ l ∈ (join "\n".toList configPreamble.tail).dropLast.splitOn '\n', Around l := by
    decide +kernel
  have hprofiler : ∀ l ∈ (if includeProfiler || config.enableProfiler then
      profilerContent.dropLast.splitOn '\n' else []), Around l := by
    split
    · decide +kernel
    · decide
  simp only [headLines, List.forall_mem_append]
  exact ⟨⟨⟨⟨⟨by decide, ⟨himg, hempty⟩, by decide⟩, hpreamble⟩, hprofiler⟩,
    List.forall_mem_singleton.mpr (around_vmlistSize _)⟩, by decide⟩

/-- The text of a configuration by lines: only its VM blocks vary with the
blocks, as long as there is a line in them or not. -/
theorem configContent_lines (includeProfiler : Bool) (config : GuestConfig)
    (vms : List (List Text)) :
    configContent includeProfiler { config with vmConfigs := vms } =
      unlines '\n' (headLines includeProfiler config ++ vms.flatten ++
        ((if vms.flatten = [] then [[]] else []) ++ ["\t\x7d".toList, "\x7d;".toList])) := by
  have hfirst : unlines '\n' ["#include <config.h>".toList, []] = configPreamble.headD [] := by
    decide
  have himages : unlines '\n'
      (config.vmImages ++ (if config.vmImages = [] then [[]] else []) ++ [[]]) =
        join "\n".toList config.vmImages ++ "\n\n".toList := by
    rw [unlines_append, ← join_newline, List.append_assoc]
    rfl
  have hpreamble : unlines '\n' ((join "\n".toList configPreamble.tail).dropLast.splitOn '\n') =
      join "\n".toList configPreamble.tail := unlines_dropLast (by
    rw [@getLast?_join _ "\t\x7d,\n\n".toList (by decide) _ rfl]
    decide)
  have hprofiler : unlines '\n' (if includeProfiler || config.enableProfiler then
      profilerContent.dropLast.splitOn '\n' else []) =
        if includeProfiler || config.enableProfiler then profilerContent else [] := by
    have hlines := @unlines_dropLast profilerContent (by decide +kernel)
    split
    · exact hlines
    · rfl
  have hsize : ∀ n, unlines '\n' ["\t.vmlist_size = ".toList ++ showNat n ++ ",".toList] =
      "\t.vmlist_size = ".toList ++ showNat n ++ ",\n".toList := fun n => by
    have hend : ",\n".toList = ",".toList ++ ['\n'] := by decide
    rw [hend, ← List.append_assoc]
    exact List.flatMap_singleton _ _
  have hlist : unlines '\n' ["\t.vmlist = \x7b".toList] =
      "\t.vmlist = \x7b".toList ++ "\n".toList := by decide
  have hclose : unlines '\n' ["\t\x7d".toList, "\x7d;".toList] =
      "\t\x7d\n".toList ++ "\x7d;\n".toList := by decide
  rw [← List.append_assoc (_ ++ vms.flatten), List.append_assoc _ vms.flatten, unlines_append,
    unlines_append, ← join_newline, hclose, headLines, unlines_append, unlines_append,
    unlines_append, unlines_append, unlines_append, hfirst, himages, hpreamble, hprofiler, hsize,
    hlist]
  unfold configContent
  simp only [List.append_assoc]

/-- The lines of a coloured configuration. -/
theorem exists_lines (includeProfiler : Bool) {config : GuestConfig}
    {linuxVms baremetalVms freeVms : List (List Text)} {colors : List Text}
    (himg : ∀ l ∈ config.vmImages, Around l) (hnl : ∀ l ∈ config.vmConfigs.flatten, '\n' ∉ l)
    (hvms : config.vmConfigs = linuxVms ++ baremetalVms ++ freeVms)
    (hb : Blocks linuxVms baremetalVms freeVms) (hc : ∀ c ∈ colors, Plain c) :
    ∃ head tail, (∀ l ∈ head ++ tail, Free l) ∧
      configContent includeProfiler { config with vmConfigs := colorVms colors config.vmConfigs } =
        unlines '\n' (head ++ (colorVms colors config.vmConfigs).flatten ++ tail) ∧
      ∀ l ∈ head ++ (colorVms colors config.vmConfigs).flatten ++ tail, '\n' ∉ l := by
  have hhead := around_headLines includeProfiler himg
  have htail : ∀ l ∈ (if (colorVms colors config.vmConfigs).flatten = [] then [[]] else []) ++
      ["\t\x7d".toList, "\x7d;".toList], Around l := by
    split <;> decide
  refine ⟨_, _, ?_, configContent_lines includeProfiler config _, ?_⟩
  · exact List.forall_mem_append.mpr ⟨fun l hl => (hhead l hl).2, fun l hl => (htail l hl).2⟩
  · refine List.forall_mem_append.mpr ⟨List.forall_mem_append.mpr
      ⟨fun l hl => (hhead l hl).1, ?_⟩, fun l hl => (htail l hl).1⟩
    rw [hvms] at hnl ⊢
    refine hb.forall_mem_colorVms (fun pre tok c hcol hl => ?_) hc hnl
    rw [List.mem_append, not_or] at hl ⊢
    exact ⟨hl.1, newline_notMem_colorLine hcol⟩

/-- Colouring changes the VM blocks of the configuration. -/
theorem colorText_configContent (includeProfiler : Bool) {config : GuestConfig}
    {linuxVms baremetalVms freeVms : List (List Text)} {colors : List Text}
    (himg : ∀ l ∈ config.vmImages, Around l) (hnl : ∀ l ∈ config.vmConfigs.flatten, '\n' ∉ l)
    (hvms : config.vmConfigs = linuxVms ++ baremetalVms ++ freeVms)
    (hb : Blocks linuxVms baremetalVms freeVms) (hc : ∀ c ∈ colors, Plain c) :
    colorText [linuxCcToken ++ ['\n'], baremetalCcToken ++ ['\n']]
        (configContent includeProfiler config) colors =
      configContent includeProfiler
        { config with vmConfigs := colorVms colors config.vmConfigs } := by
  have hhead := around_headLines includeProfiler himg
  have htail : ∀ l ∈ (if config.vmConfigs.flatten = [] then [[]] else []) ++
      ["\t\x7d".toList, "\x7d;".toList], Around l := by
    split <;> decide
  have hempty : (colorVms colors config.vmConfigs).flatten = [] ↔ config.vmConfigs.flatten = [] := by
    rw [← List.length_eq_zero_iff, length_flatten_colorVms, List.length_eq_zero_iff]
  have hconfig : configContent includeProfiler config = _ :=
    configContent_lines includeProfiler config config.vmConfigs
  rw [hconfig, configContent_lines]
  simp only [hempty]
  generalize (if config.vmConfigs.flatten = [] then [[]] else []) ++
    ["\t\x7d".toList, "\x7d;".toList] = tail at htail ⊢
  rw [hvms] at hnl ⊢
  refine colorText_blocks hb hc (fun l hl => (hhead l hl).2) (fun l hl => (htail l hl).2) ?_
  intro l hl
  rcases List.mem_append.mp hl with hl | hl
  · rcases List.mem_append.mp hl with hl | hl
    · exact (hhead l hl).1
    · exact hnl l hl
  · exact (htail l hl).1

/-! ### The bandwidth step by lines -/

/-- What the bandwidth step does to lines: it makes lines, adds no colour
placeholder, and keeps what does not end with a placeholder of its own. -/
structure MbrLines (ls ls' : List Text) : Prop where
  newline : ∀ l ∈ ls', '\n' ∉ l
  free : (∀ l ∈ ls, Free l) → ∀ l ∈ ls', Free l
  mem : ∀ l ∈ ls, ¬ baremetalMbrToken <:+ l → ¬ linuxMbrToken <:+ l → l ∈ ls'

theorem MbrLines.trans {ls ls' ls'' : List Text} (h : MbrLines ls ls') (h' : MbrLines ls' ls'') :
    MbrLines ls ls'' :=
  ⟨h'.newline, fun hf => h'.free (h.free hf), fun l hl hb hx => h'.mem l (h.mem l hl hb hx) hb hx⟩

/-- Replacing a bandwidth placeholder at the ends of lines by lines without `#`. -/
theorem mbrLines_splice {tok : Text} (ht : tok = baremetalMbrToken ∨ tok = linuxMbrToken)
    (r : ℕ → Text) (hr : ∀ k, ∃ t, r k = t ++ ['\n'] ∧ '#' ∉ t) {ls : List Text}
    (hls : ∀ l ∈ ls, '\n' ∉ l) :
    ∃ ls', spliceBack (fun k => some (r k)) (occurrences (tok ++ ['\n']) (unlines '\n' ls))
      (unlines '\n' ls) = unlines '\n' ls' ∧ MbrLines ls ls' := by
  choose t hrt ht' using hr
  have htok : '\n' ∉ tok := by rcases ht with rfl | rfl <;> decide
  let f : ℕ → Option (Text × List Text) := fun k =>
    some (((t k).splitOn '\n').head (List.splitOn_ne_nil _ _), ((t k).splitOn '\n').tail)
  have hf : ∀ k, some (r k) = (f k).map fun x => unlines '\n' (x.1 :: x.2) := fun k => by
    rw [Option.map_some, List.cons_head_tail, unlines_splitOn, hrt]
  -- the lines of a replacement
  have hparts : ∀ k, ∀ x ∈ (t k).splitOn '\n', '\n' ∉ x ∧ '#' ∉ x := fun k x hx => by
    refine ⟨notMem_of_mem_splitOn hx, fun hmem => ht' k ?_⟩
    have hin : '#' ∈ unlines '\n' ((t k).splitOn '\n') :=
      List.mem_flatMap.mpr ⟨x, hx, List.mem_append_left _ hmem⟩
    rw [unlines_splitOn] at hin
    exact (List.mem_append.mp hin).resolve_right (by decide)
  have hkeep : ∀ {P : Text → Prop}, (∀ pre x, P (pre ++ tok) → '\n' ∉ x ∧ '#' ∉ x → P (pre ++ x)) →
      (∀ x, '\n' ∉ x ∧ '#' ∉ x → P x) → (∀ l ∈ ls, P l) → ∀ l ∈ substituteLines tok f 0 ls, P l :=
    fun happ hnew => forall_mem_substituteLines (fun k x pre hk hpre => by
      obtain rfl := Option.some.inj hk
      exact ⟨happ pre _ hpre (hparts k _ (List.head_mem _)),
        fun l hl => hnew l (hparts k l (List.mem_of_mem_tail hl))⟩) ls 0
  refine ⟨substituteLines tok f 0 ls, ?_, ?_, ?_, ?_⟩
  · rw [spliceBack_occurrences (by simp), funext hf, substitute_unlines htok f hls]
  · refine hkeep (fun pre x hpre hx => ?_) (fun x hx => hx.1) hls
    rw [List.mem_append, not_or] at hpre ⊢
    exact ⟨hpre.1, hx.1⟩
  · exact hkeep (fun pre x hpre hx => hpre.of_append.append hx.2) fun x hx => free_of_notMem hx.2
  · intro l hl hb hx
    refine mem_substituteLines f ?_ 0 hl
    rcases ht with rfl | rfl
    · exact hb
    · exact hx

/-- Both patterns, one after the other. -/
theorem mbrLines_foldl {step : Text → Text → Text} (r : Text → ℕ → Text)
    (hr : ∀ p k, ∃ t, r p k = t ++ ['\n'] ∧ '#' ∉ t)
    (hstep : ∀ content p, step content p =
      spliceBack (fun k => some (r p k)) (occurrences p content) content)
    {ls : List Text} (hls : ∀ l ∈ ls, '\n' ∉ l) :
    ∃ ls', [baremetalMbrToken ++ ['\n'], linuxMbrToken ++ ['\n']].foldl step (unlines '\n' ls) =
      unlines '\n' ls' ∧ MbrLines ls ls' := by
  obtain ⟨ls₁, h₁, hm₁⟩ := mbrLines_splice (.inl rfl) (r _) (hr _) hls
  obtain ⟨ls₂, h₂, hm₂⟩ := mbrLines_splice (.inr rfl) (r _) (hr _) hm₁.newline
  exact ⟨ls₂, by rw [List.foldl_cons, List.foldl_cons, List.foldl_nil, hstep, hstep, h₁, h₂],
    hm₁.trans hm₂⟩

/-- No `#` in the lines of an MBR variant given by guest. -/
def PlainMbr (v : MbrVariant) : Prop :=
  ∃ guests, v = .keyed guests ∧ ∀ g ∈ guestLineVariants guests, ∀ l ∈ g.2, '#' ∉ l

theorem mbrText_lines {v : MbrVariant} (hv : PlainMbr v) {ls : List Text} (hls : ∀ l ∈ ls, '\n' ∉ l) :
    ∃ ls', (mbrText [baremetalMbrToken ++ ['\n'], linuxMbrToken ++ ['\n']] (unlines '\n' ls) v).1 =
      unlines '\n' ls' ∧ MbrLines ls ls' := by
  obtain ⟨guests, rfl, hg⟩ := hv
  refine mbrLines_foldl (fun p => mbrConfigStr (if patternGuestHint p = [] then guestLineVariants guests
    else (guestLineVariants guests).filter fun g =>
      (find (patternGuestHint p) (lower g.1)).isSome)) (fun p k => ?_) (fun _ _ => rfl) hls
  refine mbrConfigStr_plain (fun g hmem => hg g ?_) k
  split at hmem
  · exact hmem
  · exact List.mem_of_mem_filter hmem

theorem removePatterns_lines {ls : List Text} (hls : ∀ l ∈ ls, '\n' ∉ l) :
    ∃ ls', removePatterns [baremetalMbrToken ++ ['\n'], linuxMbrToken ++ ['\n']] (unlines '\n' ls) =
      unlines '\n' ls' ∧ MbrLines ls ls' :=
  mbrLines_foldl (fun _ _ => "\n".toList) (fun _ _ => ⟨[], rfl, by decide⟩) (fun _ _ => rfl) hls

end TestEngine
end DaatMcs
