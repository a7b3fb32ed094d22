/-
# Dictionaries

The dictionary of Python: entries in the order of their insertion, one for
each key. Storing under a key that is there replaces its value in place
(`insert`), so of a list of entries stored one after the other the last one
for each key stays (`mem_ofList`), and all of them stay iff their keys are
distinct.
-/
import Mathlib.Data.List.Induction
import Mathlib.Data.List.Nodup
import Mathlib.Tactic.Common

namespace DaatMcs

/-- Entries with distinct keys. -/
structure Dict (κ υ : Type*) where
  items : List (κ × υ)
  nodup : (items.map Prod.fst).Nodup
deriving DecidableEq

namespace Dict

variable {κ υ ω : Type*} [DecidableEq κ]

def keys (d : Dict κ υ) : List κ := d.items.map Prod.fst

/-- `d.get(k)`. -/
def get? (d : Dict κ υ) (k : κ) : Option υ := (d.items.find? fun e => e.1 = k).map Prod.snd

def empty : Dict κ υ := ⟨[], List.nodup_nil⟩

/-- The entries after `d[k] = v`. -/
def insertItem (k : κ) (v : υ) : List (κ × υ) → List (κ × υ)
  | [] => [(k, v)]
  | e :: l => if e.1 = k then (k, v) :: l else e :: insertItem k v l

theorem map_fst_insertItem (k : κ) (v : υ) : ∀ l : List (κ × υ),
    (insertItem k v l).map Prod.fst =
      if k ∈ l.map Prod.fst then l.map Prod.fst else l.map Prod.fst ++ [k]
  | [] => by simp [insertItem]
  | e :: l => by
    by_cases he : e.1 = k
    · simp [insertItem, he]
    · have ih := map_fst_insertItem k v l
      have hmem : k ∈ (e :: l).map Prod.fst ↔ k ∈ l.map Prod.fst := by
        rw [List.map_cons, List.mem_cons, or_iff_right (Ne.symm he)]
      rw [insertItem, if_neg he, List.map_cons, ih]
      by_cases hk : k ∈ l.map Prod.fst
      · rw [if_pos hk, if_pos (hmem.mpr hk), List.map_cons]
      · rw [if_neg hk, if_neg (mt hmem.mp hk), List.map_cons, List.cons_append]

/-- `d[k] = v`. -/
def insert (d : Dict κ υ) (k : κ) (v : υ) : Dict κ υ where
  items := insertItem k v d.items
  nodup := by
    rw [map_fst_insertItem]
    split
    · exact d.nodup
    · rename_i h
      exact List.nodup_append.mpr ⟨d.nodup, List.nodup_singleton k,
        fun a ha b hb => by rw [List.mem_singleton.mp hb]; exact fun hab => h (hab ▸ ha)⟩

/-- `d.update(..)`: the entries are stored one after the other. -/
def update (d : Dict κ υ) (l : List (κ × υ)) : Dict κ υ := l.foldl (fun d e => d.insert e.1 e.2) d

def ofList (l : List (κ × υ)) : Dict κ υ := empty.update l

/-! ### Entries -/

theorem get?_eq_some {d : Dict κ υ} {k : κ} {v : υ} : d.get? k = some v ↔ (k, v) ∈ d.items := by
  obtain ⟨l, hl⟩ := d
  simp only [get?]
  induction l with
  | nil => simp
  | cons e l ih =>
    rw [List.map_cons, List.nodup_cons] at hl
    by_cases he : e.1 = k
    · subst he
      have hnot : (e.1, v) ∉ l := fun h => hl.1 (List.mem_map.mpr ⟨_, h, rfl⟩)
      simp [hnot, Prod.ext_iff, eq_comm]
    · have hne : (k, v) ≠ e := fun h => he (by rw [← h])
      rw [List.find?_cons_of_neg (by simpa using he), ih hl.2, List.mem_cons]
      simp [hne]

omit [DecidableEq κ] in
theorem mem_keys {d : Dict κ υ} {k : κ} : k ∈ d.keys ↔ ∃ v, (k, v) ∈ d.items := by
  simp [keys]

theorem keys_insert (d : Dict κ υ) (k : κ) (v : υ) :
    (d.insert k v).keys = if k ∈ d.keys then d.keys else d.keys ++ [k] :=
  map_fst_insertItem k v d.items

theorem mem_keys_insert {d : Dict κ υ} {k k' : κ} {v : υ} :
    k' ∈ (d.insert k v).keys ↔ k' = k ∨ k' ∈ d.keys := by
  rw [keys_insert]
  split
  · next hk => exact ⟨.inr, fun h => h.elim (· ▸ hk) id⟩
  · rw [List.mem_append, List.mem_singleton, or_comm]

/-- `d.setdefault(k, v)`. -/
def setDefault (d : Dict κ υ) (k : κ) (v : υ) : Dict κ υ := if k ∈ d.keys then d else d.insert k v

theorem mem_keys_setDefault {d : Dict κ υ} {k k' : κ} {v : υ} :
    k' ∈ (d.setDefault k v).keys ↔ k' = k ∨ k' ∈ d.keys := by
  unfold setDefault
  split
  · next hk => exact ⟨.inr, fun h => h.elim (· ▸ hk) id⟩
  · exact mem_keys_insert

theorem insertItem_of_not_mem (k : κ) (v : υ) : ∀ l : List (κ × υ), k ∉ l.map Prod.fst →
    insertItem k v l = l ++ [(k, v)]
  | [], _ => rfl
  | e :: l, h => by
    rw [List.map_cons, List.mem_cons, not_or] at h
    rw [insertItem, if_neg (Ne.symm h.1), insertItem_of_not_mem k v l h.2, List.cons_append]

theorem mem_insertItem {k : κ} {v : υ} {e : κ × υ} : ∀ l : List (κ × υ), (l.map Prod.fst).Nodup →
    (e ∈ insertItem k v l ↔ e = (k, v) ∨ e ∈ l ∧ e.1 ≠ k)
  | [], _ => by simp [insertItem]
  | x :: l, hl => by
    rw [List.map_cons, List.nodup_cons] at hl
    by_cases hx : x.1 = k
    · subst hx
      have hne : ∀ y ∈ l, y.1 ≠ x.1 := fun y hy h =>
        hl.1 (List.mem_map.mpr ⟨y, hy, h⟩)
      rw [insertItem, if_pos rfl, List.mem_cons, List.mem_cons]
      constructor
      · rintro (h | h)
        · exact .inl h
        · exact .inr ⟨.inr h, hne e h⟩
      · rintro (h | ⟨rfl | h, hk⟩)
        · exact .inl h
        · exact absurd rfl hk
        · exact .inr h
    · rw [insertItem, if_neg hx, List.mem_cons, mem_insertItem l hl.2, List.mem_cons]
      constructor
      · rintro (rfl | h | ⟨h, hk⟩)
        · exact .inr ⟨.inl rfl, hx⟩
        · exact .inl h
        · exact .inr ⟨.inr h, hk⟩
      · rintro (h | ⟨h | h, hk⟩)
        · exact .inr (.inl h)
        · exact .inl h
        · exact .inr (.inr ⟨h, hk⟩)

/-- Storing leaves every other entry as it is. -/
theorem mem_insert {d : Dict κ υ} {k : κ} {v : υ} {e : κ × υ} :
    e ∈ (d.insert k v).items ↔ e = (k, v) ∨ e ∈ d.items ∧ e.1 ≠ k :=
  mem_insertItem d.items d.nodup

theorem insertItem_insertItem (k : κ) (v w : υ) : ∀ l : List (κ × υ),
    insertItem k w (insertItem k v l) = insertItem k w l
  | [] => by simp [insertItem]
  | e :: l => by
    by_cases he : e.1 = k
    · simp [insertItem, he]
    · simp [insertItem, he, insertItem_insertItem k v w l]

theorem items_insert_of_not_mem {d : Dict κ υ} {k : κ} (v : υ) (h : k ∉ d.keys) :
    (d.insert k v).items = d.items ++ [(k, v)] := insertItem_of_not_mem k v d.items h

/-- The last value stored under a key stays. -/
theorem insert_insert (d : Dict κ υ) (k : κ) (v w : υ) : (d.insert k v).insert k w = d.insert k w := by
  rw [Dict.mk.injEq]
  exact insertItem_insertItem k v w d.items

theorem get?_insert_self (d : Dict κ υ) (k : κ) (v : υ) : (d.insert k v).get? k = some v :=
  get?_eq_some.mpr (mem_insert.mpr (.inl rfl))

/-- The same entries under a key are the same value for it. -/
theorem get?_congr {d d' : Dict κ υ} {k : κ} (h : ∀ v, (k, v) ∈ d'.items ↔ (k, v) ∈ d.items) :
    d'.get? k = d.get? k := by
  refine Option.ext fun v => ?_
  rw [get?_eq_some, get?_eq_some, h]

theorem get?_insert (d : Dict κ υ) (k : κ) (v : υ) (k' : κ) :
    (d.insert k v).get? k' = if k' = k then some v else d.get? k' := by
  split
  · next h => rw [h, get?_insert_self]
  · next h =>
    refine get?_congr fun w => ?_
    rw [mem_insert, or_iff_right fun heq => h (congrArg Prod.fst heq)]
    exact and_iff_left h

/-! ### Several entries -/

theorem update_concat (d : Dict κ υ) (l : List (κ × υ)) (e : κ × υ) :
    d.update (l ++ [e]) = (d.update l).insert e.1 e.2 := by
  rw [update, List.foldl_append]
  rfl

/-- Of the entries stored under one key the last stays. -/
theorem mem_ofList {l : List (κ × υ)} {e : κ × υ} :
    e ∈ (ofList l).items ↔ ∃ l₁ l₂, l = l₁ ++ e :: l₂ ∧ e.1 ∉ l₂.map Prod.fst := by
  induction l using List.reverseRecOn with
  | nil => simp [ofList, update, empty]
  | append_singleton l x ih =>
    rw [ofList, update_concat, mem_insert, ← ofList, ih]
    constructor
    · rintro (rfl | ⟨⟨l₁, l₂, rfl, hl⟩, hne⟩)
      · exact ⟨l, [], rfl, by simp⟩
      · exact ⟨l₁, l₂ ++ [x], by simp, by simp [hne] at hl ⊢; exact hl⟩
    · rintro ⟨l₁, l₂, hl, hmem⟩
      induction l₂ using List.reverseRecOn with
      | nil => exact .inl (List.singleton_inj.mp (List.append_inj' hl rfl).2).symm
      | append_singleton l₂ y _ =>
        rw [← List.cons_append, ← List.append_assoc] at hl
        obtain ⟨heq, hxy⟩ := List.append_inj' hl rfl
        obtain rfl := List.singleton_inj.mp hxy
        rw [List.map_append, List.mem_append, not_or] at hmem
        exact .inr ⟨⟨l₁, l₂, heq, hmem.1⟩, fun h => hmem.2 (List.mem_singleton.mpr h)⟩

/-- The same by positions. -/
theorem mem_ofList_iff_getElem? {l : List (κ × υ)} {e : κ × υ} :
    e ∈ (ofList l).items ↔
      ∃ i : ℕ, l[i]? = some e ∧ ∀ (j : ℕ) (x : κ × υ), i < j → l[j]? = some x → x.1 ≠ e.1 := by
  rw [mem_ofList]
  constructor
  · rintro ⟨l₁, l₂, rfl, hmem⟩
    refine ⟨l₁.length, by simp, fun j x hj hx hk => hmem ?_⟩
    obtain ⟨m, rfl⟩ : ∃ m, j = l₁.length + (m + 1) := ⟨j - l₁.length - 1, by omega⟩
    rw [List.getElem?_append_right (by omega), Nat.add_sub_cancel_left, List.getElem?_cons_succ] at hx
    exact List.mem_map.mpr ⟨x, List.mem_of_getElem? hx, hk⟩
  · rintro ⟨i, hi, hlast⟩
    obtain ⟨hlt, rfl⟩ := List.getElem?_eq_some_iff.mp hi
    refine ⟨l.take i, l.drop (i + 1), by simp, fun hmem => ?_⟩
    obtain ⟨x, hx, hk⟩ := List.mem_map.mp hmem
    obtain ⟨m, hm⟩ := List.mem_iff_getElem?.mp hx
    rw [List.getElem?_drop] at hm
    exact hlast _ x (by omega) hm hk

theorem update_append (d : Dict κ υ) (l l' : List (κ × υ)) :
    d.update (l ++ l') = (d.update l).update l' := List.foldl_append ..

/-- A loop that stores some entries in each turn. -/
theorem foldlM_update {α : Type*} {step : Dict κ υ → α → Option (Dict κ υ)} {entries : α → List (κ × υ)} :
    ∀ {l : List α}, (∀ x ∈ l, ∀ d, step d x = some (d.update (entries x))) → ∀ d : Dict κ υ,
      l.foldlM step d = some (d.update (l.flatMap entries))
  | [], _, _ => rfl
  | x :: l, h, d => by
    rw [List.foldlM_cons, h x List.mem_cons_self, List.flatMap_cons, update_append]
    exact foldlM_update (fun y hy => h y (List.mem_cons_of_mem x hy)) (d.update (entries x))

/-- Every key that was stored under is there. -/
theorem mem_keys_ofList {l : List (κ × υ)} {k : κ} : k ∈ (ofList l).keys ↔ k ∈ l.map Prod.fst := by
  induction l using List.reverseRecOn with
  | nil => simp [ofList, update, empty, keys]
  | append_singleton l x ih =>
    rw [ofList, update_concat, ← ofList, mem_keys_insert, ih]
    simp [or_comm]

theorem mem_of_mem_ofList {l : List (κ × υ)} {e : κ × υ} (h : e ∈ (ofList l).items) : e ∈ l := by
  obtain ⟨l₁, l₂, rfl, -⟩ := mem_ofList.mp h
  exact List.mem_append_right l₁ List.mem_cons_self

/-- Where the entries stored under one key agree, all of them stay. -/
theorem mem_ofList_of_agree {l : List (κ × υ)} (h : ∀ e ∈ l, ∀ e' ∈ l, e.1 = e'.1 → e = e')
    {e : κ × υ} : e ∈ (ofList l).items ↔ e ∈ l := by
  refine ⟨mem_of_mem_ofList, fun he => ?_⟩
  obtain ⟨e', he', hk⟩ := List.mem_map.mp (mem_keys_ofList.mpr (List.mem_map_of_mem he))
  rwa [h e he e' (mem_of_mem_ofList he') hk.symm]

theorem items_ofList_ne_nil {l : List (κ × υ)} (h : l ≠ []) : (ofList l).items ≠ [] := by
  obtain ⟨l, e, rfl⟩ := List.eq_nil_or_concat l |>.resolve_left h
  rw [List.concat_eq_append]
  exact List.ne_nil_of_mem (mem_ofList.mpr ⟨l, [], rfl, by simp⟩)

/-- Entries with distinct keys all stay, in order. -/
theorem items_ofList {l : List (κ × υ)} (h : (l.map Prod.fst).Nodup) : (ofList l).items = l := by
  induction l using List.reverseRecOn with
  | nil => rfl
  | append_singleton l x ih =>
    rw [List.map_append, List.nodup_append] at h
    rw [ofList, update_concat, ← ofList]
    have hk : x.1 ∉ (ofList l).items.map Prod.fst := by
      rw [ih h.1]
      exact fun hx => h.2.2 _ hx _ (List.mem_singleton_self _) rfl
    exact (insertItem_of_not_mem _ _ _ hk).trans (by rw [ih h.1])

/-- Stored again, the entries of a dictionary make it again. -/
theorem ofList_items (d : Dict κ υ) : ofList d.items = d := by
  have hitems := items_ofList d.nodup
  cases hd : ofList d.items with
  | mk items nodup =>
    cases d with
    | mk items' nodup' =>
      rw [hd] at hitems
      cases hitems
      rfl

/-- No key is lost, and none was stored under twice. -/
theorem keys_ofList_iff {l : List (κ × υ)} :
    (ofList l).keys = l.map Prod.fst ↔ (l.map Prod.fst).Nodup := by
  constructor
  · intro h
    rw [← h]
    exact (ofList l).nodup
  · intro h
    rw [keys, items_ofList h]

/-! ### Values -/

/-- `{k: f(v) for k, v in d.items()}`, without the keys `f` has no value for. -/
def filterMapValues (f : υ → Option ω) (d : Dict κ υ) : Dict κ ω where
  items := d.items.filterMap fun e => (f e.2).map (e.1, ·)
  nodup := by
    refine List.Nodup.sublist ?_ d.nodup
    generalize d.items = l
    induction l with
    | nil => exact List.Sublist.slnil
    | cons e l ih =>
      cases hf : f e.2 with
      | none => simpa [hf] using ih.cons e.1
      | some w => simpa [hf] using ih

omit [DecidableEq κ] in
theorem items_filterMapValues (f : υ → Option ω) (d : Dict κ υ) :
    (d.filterMapValues f).items = d.items.filterMap fun e => (f e.2).map (e.1, ·) := rfl

omit [DecidableEq κ] in
theorem mem_filterMapValues {f : υ → Option ω} {d : Dict κ υ} {k : κ} {w : ω} :
    (k, w) ∈ (d.filterMapValues f).items ↔ ∃ v, (k, v) ∈ d.items ∧ f v = some w := by
  simp [filterMapValues]

theorem get?_filterMapValues (f : υ → Option ω) (d : Dict κ υ) (k : κ) :
    (d.filterMapValues f).get? k = (d.get? k).bind f := by
  ext w
  rw [get?_eq_some, mem_filterMapValues, Option.bind_eq_some_iff]
  exact exists_congr fun v => and_congr_left' get?_eq_some.symm

/-! ### Other values for the same keys -/

/-- `{k: f(k, v) for k, v in d.items()}`. -/
def mapItems (f : κ → υ → ω) (d : Dict κ υ) : Dict κ ω where
  items := d.items.map fun e => (e.1, f e.1 e.2)
  nodup := by
    rw [List.map_map]
    exact d.nodup

omit [DecidableEq κ] in
@[simp] theorem keys_mapItems (f : κ → υ → ω) (d : Dict κ υ) : (d.mapItems f).keys = d.keys :=
  List.map_map ..

@[simp] theorem get?_mapItems (f : κ → υ → ω) (d : Dict κ υ) (k : κ) :
    (d.mapItems f).get? k = (d.get? k).map (f k) := by
  ext w
  rw [get?_eq_some, Option.map_eq_some_iff, mapItems, List.mem_map]
  constructor
  · rintro ⟨e, he, heq⟩
    cases heq
    exact ⟨e.2, get?_eq_some.mpr he, rfl⟩
  · rintro ⟨v, hv, rfl⟩
    exact ⟨(k, v), get?_eq_some.mp hv, rfl⟩

end Dict
end DaatMcs
