/-
# Paths and the directories they name

The components of a path, without the empty ones and `.`: paths with the same
components name the same directory, whatever links a file system has.
`joinPath` is one step of `os.path.join`. A text put behind an absolute path
adds its components, unless it is glued to the last one (`Glued`), and then the result
has not the components of any continuation of the path
(`components_append_eq_iff`).
-/
import DaatMcs.Lib.Lines
import DaatMcs.Lib.Text

namespace DaatMcs
namespace Paths

def components (path : Text) : List Text := (path.splitOn '/').filter fun c => c ≠ [] ∧ c ≠ ['.']

/-- `os.path.isabs`. -/
def isAbs (path : Text) : Bool := path.head? = some '/'

def joinPath (path part : Text) : Text :=
  if isAbs part then part
  else if path = [] ∨ path.getLast? = some '/' then path ++ part
  else path ++ '/' :: part

/-- `os.path.join`. -/
def osPathJoin (path : Text) (parts : List Text) : Text := parts.foldl joinPath path

/-- What `os.path.abspath` returns: the root, or a path that ends with a
component. -/
def AbsPath (path : Text) : Prop :=
  path = ['/'] ∨ ∃ parent name, path = parent ++ '/' :: name ∧ name ≠ [] ∧ name ≠ ['.'] ∧ '/' ∉ name

/-! ### Components of longer paths -/

theorem components_append (x y : Text) : components (x ++ '/' :: y) = components x ++ components y := by
  rw [components, List.splitOn_append_cons_self, List.filter_append]
  rfl

theorem components_nil : components [] = [] := rfl

theorem components_append_abs (x : Text) {y : Text} (h : isAbs y = true) :
    components (x ++ y) = components x ++ components y := by
  cases y with
  | nil => cases h
  | cons c y =>
    obtain rfl : c = '/' := Option.some.inj (of_decide_eq_true h)
    have hy := components_append [] y
    rw [List.nil_append, components_nil, List.nil_append] at hy
    rw [components_append, hy]

theorem joinPath_abs (path : Text) {part : Text} (h : isAbs part = true) : joinPath path part = part := by
  rw [joinPath, if_pos h]

theorem joinPath_nil (part : Text) : joinPath [] part = part := by
  rw [joinPath, if_pos (Or.inl rfl), List.nil_append, ite_self]

theorem ne_nil_of_isAbs {path : Text} (h : isAbs path = true) : path ≠ [] := by
  rintro rfl
  cases h

theorem joinPath_ne_nil {path : Text} (h : path ≠ []) (part : Text) : joinPath path part ≠ [] := by
  rw [joinPath]
  split
  · next hpart => exact ne_nil_of_isAbs hpart
  · split
    · exact List.append_ne_nil_of_left_ne_nil h part
    · exact List.append_ne_nil_of_left_ne_nil h _

theorem components_joinPath (x : Text) {path part : Text} (hpath : path ≠ []) (hpart : ¬ isAbs part = true) :
    components (x ++ joinPath path part) = components (x ++ path) ++ components part := by
  rw [joinPath, if_neg hpart]
  split
  · next h =>
    rcases h with h | h
    · exact absurd h hpath
    · obtain ⟨init, rfl⟩ := List.getLast?_eq_some_iff.mp h
      have hsplit : x ++ (init ++ ['/'] ++ part) = x ++ init ++ '/' :: part := by simp
      have hslash : x ++ (init ++ ['/']) = x ++ init ++ '/' :: [] := by simp
      rw [hsplit, hslash, components_append, components_append, components_nil, List.append_nil]
  · rw [← List.append_assoc, components_append]

/-! ### Behind an absolute path -/

/-- The text continues the last component of the path. -/
def Glued (path x : Text) : Prop := path ≠ ['/'] ∧ x ≠ [] ∧ isAbs x = false

instance (path x : Text) : Decidable (Glued path x) := inferInstanceAs (Decidable (_ ∧ _ ∧ _))

section
variable {path : Text}

theorem components_not_glued {x : Text} (h : ¬ Glued path x) :
    components (path ++ x) = components path ++ components x := by
  by_cases hroot : path = ['/']
  · rw [hroot]
    exact components_append [] x
  by_cases hx : x = []
  · rw [hx, List.append_nil, components_nil, List.append_nil]
  · refine components_append_abs path ?_
    rw [← Bool.not_eq_false]
    exact fun habs => h ⟨hroot, hx, habs⟩

theorem components_glued_ne (hpath : AbsPath path) {x : Text} (h : Glued path x) (l l' : List Text) :
    components (path ++ x) ++ l ≠ components path ++ l' := by
  obtain ⟨hroot, hx, habs⟩ := h
  obtain ⟨parent, name, rfl, hne, hdot, hslash⟩ := hpath.resolve_left hroot
  obtain ⟨seg, segs, hsplit, hseg, hname⟩ := Literal.splitOn_append x hslash
  have hsegne : seg ≠ [] := by
    rintro rfl
    cases x with
    | nil => exact hx rfl
    | cons c x =>
      have hc : ¬ (c == '/') = true := by simpa [isAbs] using habs
      rw [List.splitOn_cons_eq_if_modifyHead, if_neg hc] at hsplit
      obtain ⟨y, ys, hy⟩ := List.exists_cons_of_ne_nil (List.splitOn_ne_nil '/' x)
      rw [hy, List.modifyHead_cons, List.cons.injEq] at hsplit
      exact List.cons_ne_nil c y hsplit.1
  have hlong : components (name ++ x) = (name ++ seg) :: segs.filter fun c => c ≠ [] ∧ c ≠ ['.'] := by
    have hname' : name ++ seg ≠ [] ∧ name ++ seg ≠ ['.'] := by
      refine ⟨fun h => hne (List.append_eq_nil_iff.mp h).1, fun h => ?_⟩
      rcases List.append_eq_singleton_iff.mp h with ⟨h, -⟩ | ⟨-, h⟩
      · exact hne h
      · exact hsegne h
    rw [components, hname]
    exact List.filter_cons_of_pos (decide_eq_true hname')
  have hshort : components name = [name] := by
    rw [components, List.splitOn_eq_singleton hslash, List.filter_cons_of_pos (by simp [hne, hdot])]
    rfl
  intro heq
  rw [List.append_assoc, List.cons_append, components_append, components_append, hlong, hshort,
    List.append_assoc, List.append_assoc, List.append_cancel_left_eq, List.cons_append, List.cons_append,
    List.cons.injEq] at heq
  exact hsegne (List.append_right_eq_self.mp heq.1)

theorem components_append_eq_iff (hpath : AbsPath path) (x : Text) (l l' : List Text) :
    components (path ++ x) ++ l = components path ++ l' ↔ ¬ Glued path x ∧ components x ++ l = l' := by
  by_cases h : Glued path x
  · exact iff_of_false (components_glued_ne hpath h l l') fun hand => hand.1 h
  · rw [components_not_glued h, List.append_assoc, List.append_cancel_left_eq, and_iff_right h]

end

end Paths
end DaatMcs
