/-
# Grids filled entry by entry

A grid of entries some of which are missing, as an array of NaN that loops
over its columns and rows write into. A loop that goes through the positions
in order leaves at each of them what it wrote there (`foldl_modify`), so two
nested loops leave the grid of the values for each row and column
(`fill_eq`).
-/
import Mathlib.Data.List.Basic
import Mathlib.Tactic.Common

namespace DaatMcs

/-- Rows of entries. -/
abbrev Grid (α : Type*) := List (List (Option α))

namespace Grid

variable {α β ρ κ : Type*}

/-- A grid without entries. -/
def full (α : Type*) (rows cols : ℕ) : Grid α := List.replicate rows (List.replicate cols none)

/-- `grid[i, j] = v`. -/
def put (grid : Grid α) (i j : ℕ) (v : α) : Grid α := grid.modify i fun row => row.set j (some v)

/-- One column, where there is a value for the row. -/
def fillColumn (cell : ρ → Option α) (rows : List ρ) (j : ℕ) (grid : Grid α) : Grid α :=
  rows.zipIdx.foldl (fun grid r =>
    match cell r.1 with
    | some v => grid.put r.2 j v
    | none => grid) grid

theorem modify_append_cons (f : β → β) (y : β) (todo : List β) : ∀ done : List β,
    (done ++ y :: todo).modify done.length f = done ++ f y :: todo
  | [] => rfl
  | d :: done => by
    rw [List.cons_append, List.length_cons, List.modify_succ_cons, modify_append_cons f y todo done,
      List.cons_append]

/-- A loop over a list that changes the entry at the position it is at. -/
theorem foldl_modify (f : ρ → β → β) : ∀ (l : List ρ) (done todo : List β), l.length = todo.length →
    (l.zipIdx done.length).foldl (fun acc x => acc.modify x.2 (f x.1)) (done ++ todo) =
      done ++ List.zipWith f l todo
  | [], done, [], _ => rfl
  | x :: l, done, y :: todo, h => by
    have hhere : (done ++ y :: todo).modify done.length (f x) = done ++ [f x y] ++ todo := by
      rw [modify_append_cons, List.append_assoc, List.singleton_append]
    have ih := foldl_modify f l (done ++ [f x y]) todo (Nat.succ.inj h)
    rw [List.length_append, List.length_singleton] at ih
    rw [List.zipIdx_cons, List.foldl_cons, hhere, ih, List.zipWith_cons_cons, List.append_assoc,
      List.singleton_append]

theorem put_eq (grid : Grid α) (i j : ℕ) (v : α) :
    grid.put i j v = grid.modify i fun row => row.modify j fun old => (some v).or old := by
  have hset : (fun row : List (Option α) => row.set j (some v)) =
      fun row => row.modify j fun old => (some v).or old := by
    funext row
    refine List.ext_getElem? fun k => ?_
    rw [List.getElem?_set', List.getElem?_modify]
    by_cases h : j = k
    · cases row[k]? <;> simp [h]
    · cases row[k]? <;> simp [h]
  rw [put, hset]

theorem modify_none (grid : Grid α) (i j : ℕ) :
    grid.modify i (fun row => row.modify j fun old => none.or old) = grid := by
  have hrow : (fun row : List (Option α) => row.modify j fun old => none.or old) = id := by
    funext row
    exact List.modify_id j row
  rw [hrow, List.modify_id]

/-- A column that is left out has no values. -/
theorem fillColumn_bind {γ : Type*} (o : Option γ) (cell : γ → ρ → Option α) (rows : List ρ) (j : ℕ)
    (grid : Grid α) : fillColumn (fun r => o.bind fun x => cell x r) rows j grid =
      match o with
      | some x => fillColumn (cell x) rows j grid
      | none => grid := by
  cases o with
  | some x => rfl
  | none => exact List.foldl_fixed' (fun _ => rfl) _

/-- What a column's loop does to each row. -/
theorem fillColumn_map (cell : ρ → Option α) (rows : List ρ) (j : ℕ) (g : ρ → List (Option α)) :
    fillColumn cell rows j (rows.map g) = rows.map fun r => (g r).modify j fun old => (cell r).or old := by
  have hstep : (fun (grid : Grid α) (r : ρ × ℕ) =>
      match cell r.1 with
      | some v => grid.put r.2 j v
      | none => grid) =
        fun grid r => grid.modify r.2 fun row => row.modify j fun old => (cell r.1).or old := by
    funext grid r
    cases cell r.1 with
    | none => exact (modify_none grid r.2 j).symm
    | some v => exact put_eq grid r.2 j v
  have hloop := foldl_modify (fun r row => row.modify j fun old => (cell r).or old) rows []
    (rows.map g) (List.length_map g).symm
  rw [List.zipWith_map_right, List.zipWith_self] at hloop
  rw [fillColumn, hstep]
  exact hloop

/-- Two loops in one. -/
theorem foldl_prod {ι : Type*} {f : α × β → ι → α × β} {g : α → ι → α} {h : β → ι → β}
    (hf : ∀ x i, f x i = (g x.1 i, h x.2 i)) : ∀ (l : List ι) (x : α × β),
    l.foldl f x = (l.foldl g x.1, l.foldl h x.2)
  | [], _ => rfl
  | i :: l, x => by rw [List.foldl_cons, hf, foldl_prod hf l]; rfl

/-- All columns, one after the other. -/
theorem fill_eq (cell : ρ → κ → Option α) (rows : List ρ) (cols : List κ) :
    cols.zipIdx.foldl (fun grid c => fillColumn (fun r => cell r c.1) rows c.2 grid)
      (full α rows.length cols.length) = rows.map fun r => cols.map fun c => cell r c := by
  have hcols : ∀ (l : List (κ × ℕ)) (g : ρ → List (Option α)),
      l.foldl (fun grid c => fillColumn (fun r => cell r c.1) rows c.2 grid) (rows.map g) =
        rows.map fun r => l.foldl (fun row c => row.modify c.2 fun old => (cell r c.1).or old) (g r) := by
    intro l
    induction l with
    | nil => exact fun g => rfl
    | cons c l ih =>
      intro g
      rw [List.foldl_cons, fillColumn_map, ih]
      rfl
  have hfull : full α rows.length cols.length = rows.map fun _ => List.replicate cols.length none :=
    List.map_const'.symm
  rw [hfull, hcols]
  refine List.map_congr_left fun r _ => ?_
  have hloop := foldl_modify (fun c old => (cell r c).or old) cols [] (List.replicate cols.length none)
    List.length_replicate.symm
  refine hloop.trans ?_
  rw [List.nil_append]
  refine List.ext_getElem? fun k => ?_
  rw [List.getElem?_zipWith, List.getElem?_map, List.getElem?_replicate]
  cases hk : cols[k]? with
  | none => rfl
  | some c =>
    rw [if_pos (List.getElem?_eq_some_iff.mp hk).1]
    simp

end Grid
end DaatMcs
