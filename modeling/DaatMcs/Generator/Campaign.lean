/-
# The image loop of a test campaign

`main` runs one test for each image. An attempt that does not complete is
repeated, up to `max_retries` times; then the image is given up. The status
page is written before every attempt and at the end: an image with an entry
in `img_timings` is shown as done, the current one as running, the others as
failed. Both ways out of the retry loop store an entry, but only a completed
test puts the image in `completed_imgs`.

Key theorems: `attempts_booked` (each image is attempted until it succeeds, at
most `max_retries` times, and completed iff an attempt succeeded) and
`booked_iff` (the pages agree with `completed_imgs` iff no image is given up).
-/
import DaatMcs.Lib.Dict
import DaatMcs.Lib.Text

namespace DaatMcs
namespace Campaign

/-- An entry of `img_timings`. -/
structure Timing where
  start : Text
  finish : Text
  duration : Text
deriving DecidableEq

/-- One attempt as `main` sees it: the times it measures, and what
`wait_for_test_end` returns. -/
structure Attempt where
  timing : Timing
  testCompleted : Bool

/-! ### The status page -/

def stylizeDone (img : Text) (timing : Timing) : Text :=
  ["\x1b[9m".toList, img, "\x1b[0m ✅  [".toList, timing.start, " - ".toList, timing.finish,
    "] (".toList, timing.duration, ")".toList].flatten

def stylizeFailed (img : Text) : Text :=
  ["\x1b[91m".toList, img, "\x1b[0m ❌".toList].flatten

def stylizeCurrent (img : Text) : Text :=
  [">>> \x1b[1m".toList, img, "\x1b[0m ⏳".toList].flatten

/-- The line of the `j`-th image. -/
def statusLine (imgTimings : Dict Text Timing) (imgIndex : ℕ) (image : Text × ℕ) : Text :=
  match imgTimings.get? image.1 with
  | some timing => stylizeDone image.1 timing
  | none => if image.2 = imgIndex then stylizeCurrent image.1 else stylizeFailed image.1

/-- The lines of the images; the header and the name of the running test
around them are left out. -/
def printTestStatus (imgTimings : Dict Text Timing) (imgIndex : ℕ) (listBaoImgs : List Text) :
    List Text :=
  listBaoImgs.zipIdx.map (statusLine imgTimings imgIndex)

/-- A page, with `completed_imgs` as it was when the page was written. -/
structure Display where
  lines : List Text
  completedImgs : List Text

/-- The page shows exactly the completed images as done. -/
def Display.Agrees (d : Display) (listBaoImgs : List Text) : Prop :=
  d.lines.length = listBaoImgs.length ∧ ∀ e ∈ d.lines.zip listBaoImgs,
    (∃ timing, e.1 = stylizeDone e.2 timing) ↔ e.2 ∈ d.completedImgs

/-! ### The loop -/

/-- `img_timings` and `completed_imgs`, with the attempts and the pages so far. -/
structure State where
  imgTimings : Dict Text Timing
  completedImgs : List Text
  attempts : List (Text × Bool)
  displays : List Display

def init : State := ⟨.empty, [], [], []⟩

def maxRetries : ℕ := 10

/-- One round of the retry loop. -/
def attempt (listBaoImgs : List Text) (image : Text × ℕ) (a : Attempt) (s : State) : State :=
  let s := { s with
    displays := s.displays ++
      [⟨printTestStatus s.imgTimings image.2 listBaoImgs, s.completedImgs⟩]
    attempts := s.attempts ++ [(image.1, a.testCompleted)] }
  if a.testCompleted then
    { s with
      imgTimings := s.imgTimings.insert image.1 a.timing
      completedImgs := s.completedImgs ++ [image.1] }
  else s

/-- `while not success and retry_count < max_retries`: the state it leaves,
and `retry_count`. A round that does not succeed counts up, so there are
`fuel = maxRetries - retryCount` rounds at most. -/
def retryLoop (listBaoImgs : List Text) (image : Text × ℕ) (outcome : ℕ → Attempt) :
    (fuel retryCount : ℕ) → State → State × ℕ
  | 0, retryCount, s => (s, retryCount)
  | fuel + 1, retryCount, s =>
    let s := attempt listBaoImgs image (outcome retryCount) s
    if (outcome retryCount).testCompleted then (s, retryCount)
    else retryLoop listBaoImgs image outcome fuel (retryCount + 1) s

/-- The body of the image loop; `outcome r` is the image's `r`-th attempt. -/
def imageStep (listBaoImgs : List Text) (image : Text × ℕ) (outcome : ℕ → Attempt) (s : State) :
    State :=
  let (s, retryCount) := retryLoop listBaoImgs image outcome maxRetries 0 s
  if retryCount = maxRetries then
    let timing := ⟨(outcome (maxRetries - 1)).timing.start, "N/A".toList, "N/A".toList⟩
    { s with imgTimings := s.imgTimings.insert image.1 timing }
  else s

/-- The state after the first `k` images. -/
def imageLoop (listBaoImgs : List Text) (outcome : ℕ → ℕ → Attempt) (k : ℕ) : State :=
  (listBaoImgs.zipIdx.take k).foldl (fun s image => imageStep listBaoImgs image (outcome image.2) s) init

/-- The page written after the loop. It names the last image: without images
there is none, and Python raises `NameError`. -/
def finalDisplay (listBaoImgs : List Text) (s : State) : Option Display :=
  listBaoImgs.getLast?.map fun _ =>
    ⟨printTestStatus s.imgTimings listBaoImgs.length listBaoImgs, s.completedImgs⟩

/-! ### What the books should say -/

/-- The outcomes of an image's attempts, in order. -/
def tries (s : State) (img : Text) : List Bool :=
  (s.attempts.filter fun a => a.1 = img).map Prod.snd

/-- The attempts of the images and `completed_imgs` at the end of the loop. -/
structure AttemptsBooked (listBaoImgs : List Text) (s : State) : Prop where
  attempted : ∀ img ∈ listBaoImgs, 1 ≤ (tries s img).length ∧ (tries s img).length ≤ maxRetries
  stops : ∀ img ∈ listBaoImgs, ∀ pre post, tries s img = pre ++ true :: post → post = []
  completed : ∀ img ∈ listBaoImgs, img ∈ s.completedImgs ↔ true ∈ tries s img

/-- The books of a whole campaign: also every page agrees. -/
structure Booked (listBaoImgs : List Text) (outcome : ℕ → ℕ → Attempt) : Prop where
  attempts : AttemptsBooked listBaoImgs (imageLoop listBaoImgs outcome listBaoImgs.length)
  displays : ∀ d ∈ (imageLoop listBaoImgs outcome listBaoImgs.length).displays,
    d.Agrees listBaoImgs
  final : ∀ d ∈ finalDisplay listBaoImgs (imageLoop listBaoImgs outcome listBaoImgs.length),
    d.Agrees listBaoImgs

/-! ### One image -/

/-- The outcomes of the rounds of the retry loop. -/
def results (outcome : ℕ → Attempt) : (fuel retryCount : ℕ) → List Bool
  | 0, _ => []
  | fuel + 1, retryCount =>
    (outcome retryCount).testCompleted ::
      if (outcome retryCount).testCompleted then [] else results outcome fuel (retryCount + 1)

theorem length_results_le (outcome : ℕ → Attempt) : ∀ fuel retryCount,
    (results outcome fuel retryCount).length ≤ fuel
  | 0, _ => Nat.le_refl 0
  | fuel + 1, retryCount => by
    have ih := length_results_le outcome fuel (retryCount + 1)
    rw [results, List.length_cons]
    split
    · rw [List.length_nil]
      omega
    · omega

/-- Nothing comes after a success. -/
theorem results_stop (outcome : ℕ → Attempt) : ∀ fuel retryCount pre post,
    results outcome fuel retryCount = pre ++ true :: post → post = []
  | 0, _, pre, post, h => by simp [results] at h
  | fuel + 1, retryCount, [], post, h => by
    rw [results, List.nil_append, List.cons.injEq] at h
    rw [if_pos h.1] at h
    exact h.2.symm
  | fuel + 1, retryCount, b :: pre, post, h => by
    rw [results, List.cons_append, List.cons.injEq] at h
    obtain ⟨-, h⟩ := h
    split at h
    · simp at h
    · exact results_stop outcome fuel (retryCount + 1) pre post h

theorem true_mem_results (outcome : ℕ → Attempt) : ∀ fuel retryCount,
    true ∈ results outcome fuel retryCount ↔
      ∃ r < fuel, (outcome (retryCount + r)).testCompleted = true
  | 0, _ => by simp [results]
  | fuel + 1, retryCount => by
    have ih := true_mem_results outcome fuel (retryCount + 1)
    rw [results, List.mem_cons]
    by_cases hc : (outcome retryCount).testCompleted = true
    · exact ⟨fun _ => ⟨0, by omega, hc⟩, fun _ => .inl hc.symm⟩
    · rw [if_neg hc, ih, or_iff_right (Ne.symm hc)]
      constructor
      · rintro ⟨r, hr, h⟩
        exact ⟨r + 1, by omega, by rwa [Nat.add_assoc, Nat.add_comm 1] at h⟩
      · rintro ⟨_ | r, hr, h⟩
        · exact absurd h hc
        · exact ⟨r, by omega, by rwa [Nat.add_assoc, Nat.add_comm 1]⟩

/-- The page written while the books are those of `s`. -/
def page (listBaoImgs : List Text) (imgIndex : ℕ) (s : State) : Display :=
  ⟨printTestStatus s.imgTimings imgIndex listBaoImgs, s.completedImgs⟩

variable (listBaoImgs : List Text) (image : Text × ℕ)

/-- What the retry loop does to the books. -/
theorem retryLoop_spec (outcome : ℕ → Attempt) : ∀ (fuel retryCount : ℕ) (s : State),
    let (s', retryCount') := retryLoop listBaoImgs image outcome fuel retryCount s
    let bs := results outcome fuel retryCount
    s'.attempts = s.attempts ++ bs.map (image.1, ·) ∧
    (∀ d ∈ s'.displays, d ∈ s.displays ∨ d = page listBaoImgs image.2 s) ∧
    if true ∈ bs then
      retryCount' < retryCount + fuel ∧ s'.completedImgs = s.completedImgs ++ [image.1] ∧
        ∃ timing, s'.imgTimings = s.imgTimings.insert image.1 timing
    else
      retryCount' = retryCount + fuel ∧ s'.completedImgs = s.completedImgs ∧
        s'.imgTimings = s.imgTimings
  | 0, retryCount, s => by simp +contextual [retryLoop, results]
  | fuel + 1, retryCount, s => by
    rw [retryLoop, results]
    by_cases hc : (outcome retryCount).testCompleted = true
    · simp only [hc, ↓reduceIte, attempt]
      refine ⟨by simp, fun d hd => ?_, ?_⟩
      · rwa [List.mem_append, List.mem_singleton] at hd
      · rw [if_pos List.mem_cons_self]
        exact ⟨by omega, by simp, _, rfl⟩
    · rw [Bool.not_eq_true] at hc
      -- a failed round changes only the attempts and the pages
      have ih := retryLoop_spec outcome fuel (retryCount + 1)
        (attempt listBaoImgs image (outcome retryCount) s)
      simp only [hc, Bool.false_eq_true, ↓reduceIte, attempt] at ih ⊢
      obtain ⟨hatt, hdisp, hend⟩ := ih
      refine ⟨?_, fun d hd => ?_, ?_⟩
      · rw [hatt, List.map_cons, List.append_assoc, List.singleton_append]
      · rcases hdisp d hd with h | h
        · rwa [List.mem_append, List.mem_singleton] at h
        · exact .inr h
      · simp only [List.mem_cons, Bool.true_eq_false, false_or]
        convert hend using 2 <;> omega

/-- The image's attempt that completes, if one of those it gets does. -/
def Succeeds (outcome : ℕ → Attempt) : Prop := ∃ r < maxRetries, (outcome r).testCompleted = true

/-- What the body of the image loop does to the books: whether the image
succeeds or is given up, it gets an entry in `img_timings`. -/
theorem imageStep_spec (outcome : ℕ → Attempt) (s : State) :
    let s' := imageStep listBaoImgs image outcome s
    s'.attempts = s.attempts ++ (results outcome maxRetries 0).map (image.1, ·) ∧
    (∀ d ∈ s'.displays, d ∈ s.displays ∨ d = page listBaoImgs image.2 s) ∧
    (∀ img, img ∈ s'.completedImgs ↔ img ∈ s.completedImgs ∨ img = image.1 ∧ Succeeds outcome) ∧
    ∃ timing, s'.imgTimings = s.imgTimings.insert image.1 timing := by
  have h := retryLoop_spec listBaoImgs image outcome maxRetries 0 s
  have hsucc : true ∈ results outcome maxRetries 0 ↔ Succeeds outcome := by
    simp only [true_mem_results, Nat.zero_add, Succeeds]
  unfold imageStep
  rcases hloop : retryLoop listBaoImgs image outcome maxRetries 0 s with ⟨s', retryCount⟩
  rw [hloop] at h
  obtain ⟨hatt, hdisp, hend⟩ := h
  by_cases hs : Succeeds outcome
  · rw [if_pos (hsucc.mpr hs)] at hend
    obtain ⟨hlt, hcompleted, htimings⟩ := hend
    simp only [if_neg (show retryCount ≠ maxRetries by omega)]
    refine ⟨hatt, hdisp, fun img => ?_, htimings⟩
    rw [hcompleted, List.mem_append, List.mem_singleton, and_iff_left hs]
  · rw [if_neg (mt hsucc.mp hs)] at hend
    obtain ⟨heq, hcompleted, htimings⟩ := hend
    simp only [if_pos (show retryCount = maxRetries by omega)]
    refine ⟨hatt, hdisp, fun img => ?_, _, by rw [htimings]⟩
    rw [hcompleted, iff_false_intro hs, and_false, or_false]

/-! ### The whole loop -/

variable {listBaoImgs}

/-- The books after the first `k` images, as far as a page depends on them. -/
structure Books (listBaoImgs : List Text) (outcome : ℕ → ℕ → Attempt) (k : ℕ)
    (timed completed : List Text) : Prop where
  timed : ∀ img, img ∈ timed ↔ img ∈ listBaoImgs.take k
  completed : ∀ img, img ∈ completed ↔
    ∃ i < k, listBaoImgs[i]? = some img ∧ Succeeds (outcome i)

/-- The state after the first `k` images. -/
structure Inv (listBaoImgs : List Text) (outcome : ℕ → ℕ → Attempt) (k : ℕ) (s : State) :
    Prop where
  books : Books listBaoImgs outcome k s.imgTimings.keys s.completedImgs
  attempts : s.attempts = (listBaoImgs.zipIdx.take k).flatMap fun image =>
    (results (outcome image.2) maxRetries 0).map (image.1, ·)
  displays : ∀ d ∈ s.displays, ∃ j ≤ k, ∃ imgIndex imgTimings,
    d.lines = printTestStatus imgTimings imgIndex listBaoImgs ∧
      Books listBaoImgs outcome j imgTimings.keys d.completedImgs

theorem inv_imageLoop (listBaoImgs : List Text) (outcome : ℕ → ℕ → Attempt) :
    ∀ k ≤ listBaoImgs.length, Inv listBaoImgs outcome k (imageLoop listBaoImgs outcome k)
  | 0, _ => ⟨⟨by simp [imageLoop, init, Dict.keys, Dict.empty], by simp [imageLoop, init]⟩,
      by simp [imageLoop, init], by simp [imageLoop, init]⟩
  | k + 1, hk => by
    have ih := inv_imageLoop listBaoImgs outcome k (by omega)
    have hlt : k < listBaoImgs.length := by omega
    have htake : listBaoImgs.zipIdx.take (k + 1) =
        listBaoImgs.zipIdx.take k ++ [(listBaoImgs[k], k)] := by
      rw [List.take_succ_eq_append_getElem (by simpa)]
      simp
    obtain ⟨hatt, hdisp, hcompleted, timing, htimings⟩ :=
      imageStep_spec listBaoImgs (listBaoImgs[k], k) (outcome k)
        (imageLoop listBaoImgs outcome k)
    have hloop : imageLoop listBaoImgs outcome (k + 1) =
        imageStep listBaoImgs (listBaoImgs[k], k) (outcome k) (imageLoop listBaoImgs outcome k) := by
      rw [imageLoop, htake, List.foldl_append]
      rfl
    rw [hloop]
    refine ⟨⟨fun img => ?_, fun img => ?_⟩, ?_, fun d hd => ?_⟩
    · rw [htimings, Dict.mem_keys_insert, ih.books.timed, List.take_succ_eq_append_getElem hlt,
        List.mem_append, List.mem_singleton, or_comm]
    · rw [hcompleted, ih.books.completed]
      constructor
      · rintro (⟨i, hi, h⟩ | ⟨rfl, hs⟩)
        · exact ⟨i, by omega, h⟩
        · exact ⟨k, by omega, List.getElem?_eq_getElem hlt, hs⟩
      · rintro ⟨i, hi, himg, hs⟩
        rcases Nat.lt_succ_iff_lt_or_eq.mp hi with hlt' | rfl
        · exact .inl ⟨i, hlt', himg, hs⟩
        · rw [List.getElem?_eq_getElem hlt, Option.some.injEq] at himg
          exact .inr ⟨himg.symm, hs⟩
    · rw [hatt, ih.attempts, htake, List.flatMap_append, List.flatMap_singleton]
    · rcases hdisp d hd with h | rfl
      · obtain ⟨j, hj, rest⟩ := ih.displays d h
        exact ⟨j, by omega, rest⟩
      · exact ⟨k, by omega, k, _, rfl, ih.books⟩

/-- An image's tries are those of its own rounds: the names are distinct. -/
theorem filter_rounds {f : ℕ → List Bool} {img : Text} {i : ℕ} : ∀ {l : List (Text × ℕ)},
    (l.map Prod.fst).Nodup → (img, i) ∈ l →
    (l.flatMap fun e => (f e.2).map (e.1, ·)).filter (fun a => a.1 = img) = (f i).map (img, ·)
  | e :: l, hnd, hmem => by
    rw [List.map_cons, List.nodup_cons] at hnd
    rw [List.flatMap_cons, List.filter_append]
    rcases List.mem_cons.mp hmem with rfl | hmem'
    · have hrest : (l.flatMap fun e => (f e.2).map (e.1, ·)).filter (fun a => a.1 = img) = [] := by
        rw [List.filter_eq_nil_iff]
        intro a ha
        obtain ⟨e, he, ha⟩ := List.mem_flatMap.mp ha
        obtain ⟨b, -, rfl⟩ := List.mem_map.mp ha
        simp only [decide_eq_true_eq]
        exact fun h => hnd.1 (List.mem_map.mpr ⟨e, he, h⟩)
      rw [hrest, List.append_nil, List.filter_eq_self]
      intro a ha
      obtain ⟨b, -, rfl⟩ := List.mem_map.mp ha
      exact decide_eq_true rfl
    · have hne : e.1 ≠ img := fun h => hnd.1 (List.mem_map.mpr ⟨_, hmem', h.symm⟩)
      have hfirst : ((f e.2).map (e.1, ·)).filter (fun a => a.1 = img) = [] := by
        rw [List.filter_eq_nil_iff]
        intro a ha
        obtain ⟨b, -, rfl⟩ := List.mem_map.mp ha
        simpa using hne
      rw [hfirst, List.nil_append, filter_rounds hnd.2 hmem']

theorem tries_eq (hnd : listBaoImgs.Nodup) (outcome : ℕ → ℕ → Attempt)
    {i : ℕ} {img : Text} (hi : listBaoImgs[i]? = some img) :
    tries (imageLoop listBaoImgs outcome listBaoImgs.length) img =
      results (outcome i) maxRetries 0 := by
  have hinv := inv_imageLoop listBaoImgs outcome listBaoImgs.length (Nat.le_refl _)
  have hmem : (img, i) ∈ listBaoImgs.zipIdx := List.mem_zipIdx_iff_getElem?.mpr hi
  rw [tries, hinv.attempts, List.take_of_length_le (by simp),
    filter_rounds (f := fun i => results (outcome i) maxRetries 0) (by simpa using hnd) hmem,
    List.map_map]
  exact List.map_id _

/-- The attempts are as they should be in every campaign: each image is
attempted until it succeeds, at most `max_retries` times, and an image is in
`completed_imgs` iff one of its attempts succeeded. -/
theorem attempts_booked (hnd : listBaoImgs.Nodup)
    (outcome : ℕ → ℕ → Attempt) :
    AttemptsBooked listBaoImgs (imageLoop listBaoImgs outcome listBaoImgs.length) where
  attempted img himg := by
    obtain ⟨i, hi⟩ := List.mem_iff_getElem?.mp himg
    rw [tries_eq hnd outcome hi]
    refine ⟨?_, length_results_le _ _ _⟩
    simp [maxRetries, results]
  stops img himg pre post h := by
    obtain ⟨i, hi⟩ := List.mem_iff_getElem?.mp himg
    rw [tries_eq hnd outcome hi] at h
    exact results_stop _ _ _ _ _ h
  completed img himg := by
    obtain ⟨i, hi⟩ := List.mem_iff_getElem?.mp himg
    have hinv := inv_imageLoop listBaoImgs outcome listBaoImgs.length (Nat.le_refl _)
    rw [tries_eq hnd outcome hi, true_mem_results, hinv.books.completed]
    simp only [Nat.zero_add]
    constructor
    · rintro ⟨j, -, hj, hs⟩
      rwa [← (List.getElem?_inj (List.getElem?_eq_some_iff.mp hi).1 hnd).mp (hi.trans hj.symm)] at hs
    · exact fun hs => ⟨i, (List.getElem?_eq_some_iff.mp hi).1, hi, hs⟩

/-! ### The pages -/

/-- The two lines differ after their first three characters. -/
theorem stylizeFailed_ne (img : Text) (timing : Timing) :
    stylizeFailed img ≠ stylizeDone img timing := by
  unfold stylizeFailed stylizeDone
  rw [List.flatten_cons, List.flatten_cons]
  exact append_ne_append (by decide) (by decide) _ _

theorem stylizeCurrent_ne (img : Text) (timing : Timing) :
    stylizeCurrent img ≠ stylizeDone img timing := by
  unfold stylizeCurrent stylizeDone
  rw [List.flatten_cons, List.flatten_cons]
  exact append_ne_append (by decide) (by decide) _ _

theorem isDone_statusLine (imgTimings : Dict Text Timing) (imgIndex : ℕ) (image : Text × ℕ) :
    (∃ timing, statusLine imgTimings imgIndex image = stylizeDone image.1 timing) ↔
      image.1 ∈ imgTimings.keys := by
  rw [Dict.mem_keys]
  cases hget : imgTimings.get? image.1 with
  | some timing =>
    simp only [statusLine, hget]
    exact iff_of_true ⟨timing, rfl⟩ ⟨timing, Dict.get?_eq_some.mp hget⟩
  | none =>
    simp only [statusLine, hget]
    apply iff_of_false
    · rintro ⟨timing, h⟩
      split_ifs at h
      · exact stylizeCurrent_ne _ _ h
      · exact stylizeFailed_ne _ _ h
    · rintro ⟨timing, h⟩
      rw [Dict.get?_eq_some.mpr h] at hget
      cases hget

theorem agrees_iff (listBaoImgs : List Text) (imgTimings : Dict Text Timing) (imgIndex : ℕ)
    (completedImgs : List Text) :
    Display.Agrees ⟨printTestStatus imgTimings imgIndex listBaoImgs, completedImgs⟩ listBaoImgs ↔
      ∀ img ∈ listBaoImgs, img ∈ imgTimings.keys ↔ img ∈ completedImgs := by
  have hzip : (printTestStatus imgTimings imgIndex listBaoImgs).zip listBaoImgs =
      listBaoImgs.zipIdx.map fun image => (statusLine imgTimings imgIndex image, image.1) := by
    calc (printTestStatus imgTimings imgIndex listBaoImgs).zip listBaoImgs
        = (printTestStatus imgTimings imgIndex listBaoImgs).zip
            (listBaoImgs.zipIdx.map Prod.fst) := by rw [List.zipIdx_map_fst]
      _ = _ := List.zip_map' ..
  simp only [Display.Agrees, hzip, List.mem_map, forall_exists_index, and_imp,
    forall_apply_eq_imp_iff₂, isDone_statusLine]
  constructor
  · rintro ⟨-, h⟩ img himg
    obtain ⟨i, hi⟩ := List.mem_iff_getElem?.mp himg
    exact h (img, i) (List.mem_zipIdx_iff_getElem?.mpr hi)
  · exact fun h => ⟨by simp [printTestStatus],
      fun image himage => h image.1 (List.fst_mem_of_mem_zipIdx himage)⟩

/-- Where every image succeeds the books of a page agree. -/
theorem Books.agree {outcome : ℕ → ℕ → Attempt} {k : ℕ} {timed completed : List Text}
    (h : Books listBaoImgs outcome k timed completed)
    (hs : ∀ i < listBaoImgs.length, Succeeds (outcome i)) (img : Text) :
    img ∈ timed ↔ img ∈ completed := by
  rw [h.timed, h.completed, List.mem_take_iff_getElem]
  constructor
  · rintro ⟨i, hi, rfl⟩
    exact ⟨i, by omega, List.getElem?_eq_getElem (by omega), hs i (by omega)⟩
  · rintro ⟨i, hi, himg, -⟩
    obtain ⟨hlt, rfl⟩ := List.getElem?_eq_some_iff.mp himg
    exact ⟨i, by omega, rfl⟩

/-- The page after the loop shows every image as done: where it agrees, every
image has succeeded. -/
theorem Booked.succeeds {outcome : ℕ → ℕ → Attempt} (h : Booked listBaoImgs outcome)
    (hnd : listBaoImgs.Nodup) {i : ℕ} (hi : i < listBaoImgs.length) : Succeeds (outcome i) := by
  have hinv := inv_imageLoop listBaoImgs outcome listBaoImgs.length (Nat.le_refl _)
  have hne : listBaoImgs ≠ [] := List.ne_nil_of_length_pos (by omega)
  have hfinal := h.final _ (Option.mem_def.mpr (by
    rw [finalDisplay, List.getLast?_eq_some_getLast hne]; rfl))
  rw [agrees_iff] at hfinal
  have hmem := List.getElem_mem hi
  have hdone := (hfinal _ hmem).mp ((hinv.books.timed _).mpr (by rwa [List.take_length]))
  obtain ⟨j, -, hj, hs⟩ := (hinv.books.completed _).mp hdone
  rwa [(List.getElem?_inj hi hnd).mp ((List.getElem?_eq_getElem hi).trans hj.symm)]

/-- **Main result.** For images with distinct names the books of a campaign
are right iff each image has a success among its first `max_retries`
attempts: an image that is given up is shown as done from then on. -/
theorem booked_iff (listBaoImgs : List Text) (hnd : listBaoImgs.Nodup)
    (outcome : ℕ → ℕ → Attempt) :
    Booked listBaoImgs outcome ↔
      ∀ i < listBaoImgs.length, ∃ r < maxRetries, (outcome i r).testCompleted = true := by
  have hinv := inv_imageLoop listBaoImgs outcome listBaoImgs.length (Nat.le_refl _)
  constructor
  · exact fun h i hi => h.succeeds hnd hi
  · intro hs
    refine ⟨attempts_booked hnd outcome, fun d hd => ?_, fun d hd => ?_⟩
    · obtain ⟨j, -, imgIndex, imgTimings, hlines, hbooks⟩ := hinv.displays d hd
      have hd' : d = ⟨printTestStatus imgTimings imgIndex listBaoImgs, d.completedImgs⟩ := by
        rw [← hlines]
      rw [hd', agrees_iff]
      exact fun img _ => hbooks.agree hs img
    · obtain ⟨_, -, rfl⟩ := Option.map_eq_some_iff.mp hd
      rw [agrees_iff]
      exact fun img _ => hinv.books.agree hs img

/-- A campaign whose `i`-th image completes at its attempt `rounds i`. -/
def campaign (rounds : ℕ → ℕ) (i r : ℕ) : Attempt :=
  ⟨⟨"10:00:00".toList, "10:01:30".toList, "0:01:30".toList⟩, r = rounds i⟩

theorem booked_iff_retried : Booked ["linux_fft.img".toList, "linux_qsort.img".toList]
    (campaign fun i => 9 * i) :=
  (booked_iff _ (by decide) _).mpr (by decide)

/-- One image that never completes. -/
theorem givenUp_shown_done : ¬ Booked ["linux_fft.img".toList] (campaign fun _ => 10) := fun h =>
  absurd (h.succeeds (by decide) (i := 0) (by decide)) (by unfold Succeeds; decide)

end Campaign
end DaatMcs
