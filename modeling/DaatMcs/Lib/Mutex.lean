/-
# Critical sections, one at a time

Threads share a state. Each runs a list of items: a critical section, which
is a list of steps on the shared state and the thread's own, or a peek, one
read of the shared state outside of any section. In `locked` a section is
entered when no other is open, and its steps are taken one by one while the
other threads move; in `atomic` an item is one step.

`locked` reaches no state that `atomic` does not, in two readings. Without
peeks the open section may be taken as run to its end (`simulates_finish`).
With peeks it is taken as not begun before its last step, the only one that
may change the shared state (`simulates_commit`). And an atomic run of calls
is the calls in some order, each thread's in its own (`exists_order`).
-/
import DaatMcs.Lib.Steps
import Mathlib.Logic.Function.Basic
import Mathlib.Tactic.Common

namespace DaatMcs
namespace Mutex

open Steps

variable {κ σ α : Type*}

/-- The steps of a critical section, on the shared state and the thread's own. -/
abbrev Body (σ α : Type*) := List (σ × α → σ × α)

def Body.run (b : Body σ α) (x : σ × α) : σ × α := b.foldl (fun x f => f x) x

inductive Item (σ α : Type*)
  | critical (b : Body σ α)
  | peek (f : σ → α → α)

def Item.Critical : Item σ α → Prop
  | .critical _ => True
  | .peek _ => False

def Item.run : Item σ α → σ × α → σ × α
  | .critical b, x => b.run x
  | .peek f, x => (x.1, f x.1 x.2)

/-- The shared state, each thread's own, and the items each has yet to start. -/
@[ext] structure State (κ σ α : Type*) where
  shared : σ
  own : κ → α
  todo : κ → List (Item σ α)

variable [DecidableEq κ]

def State.set (s : State κ σ α) (k : κ) (x : σ × α) : State κ σ α :=
  { s with shared := x.1, own := Function.update s.own k x.2 }

def State.next (s : State κ σ α) (k : κ) (is : List (Item σ α)) : State κ σ α :=
  { s with todo := Function.update s.todo k is }

/-- A thread runs its next item at once. -/
def atomic (s : State κ σ α) (k : κ) : Option (State κ σ α) :=
  match s.todo k with
  | [] => none
  | i :: is => some ((s.next k is).set k (i.run (s.shared, s.own k)))

/-- At most one section is open: its thread, and the steps still to be taken. -/
structure Locked (κ σ α : Type*) extends State κ σ α where
  inside : Option (κ × Body σ α)

inductive Move (κ : Type*)
  | enter (k : κ) | work | leave | peek (k : κ)
  deriving DecidableEq, Repr

def locked (s : Locked κ σ α) : Move κ → Option (Locked κ σ α)
  | .enter k =>
    match s.inside, s.todo k with
    | none, .critical b :: is => some ⟨s.next k is, some (k, b)⟩
    | _, _ => none
  | .work =>
    match s.inside with
    | some (k, f :: left) => some ⟨s.set k (f (s.shared, s.own k)), some (k, left)⟩
    | _ => none
  | .leave =>
    match s.inside with
    | some (_, []) => some ⟨s.toState, none⟩
    | _ => none
  | .peek k =>
    match s.todo k with
    | .peek f :: is =>
      if s.inside.any (·.1 = k) then none
      else some ⟨(s.next k is).set k (s.shared, f s.shared (s.own k)), s.inside⟩
    | _ => none

/-! ### What the records keep -/

@[simp] theorem Body.run_nil (x : σ × α) : Body.run [] x = x := rfl

@[simp] theorem Body.run_cons (f : σ × α → σ × α) (b : Body σ α) (x : σ × α) :
    Body.run (f :: b) x = Body.run b (f x) := rfl

theorem Body.run_append (b c : Body σ α) (x : σ × α) : Body.run (b ++ c) x = c.run (b.run x) :=
  List.foldl_append ..

@[simp] theorem State.set_shared (s : State κ σ α) (k : κ) (x : σ × α) : (s.set k x).shared = x.1 := rfl
@[simp] theorem State.set_own (s : State κ σ α) (k : κ) (x : σ × α) :
    (s.set k x).own = Function.update s.own k x.2 := rfl
@[simp] theorem State.set_todo (s : State κ σ α) (k : κ) (x : σ × α) : (s.set k x).todo = s.todo := rfl
@[simp] theorem State.next_shared (s : State κ σ α) (k : κ) (is : List (Item σ α)) :
    (s.next k is).shared = s.shared := rfl
@[simp] theorem State.next_own (s : State κ σ α) (k : κ) (is : List (Item σ α)) :
    (s.next k is).own = s.own := rfl
@[simp] theorem State.next_todo (s : State κ σ α) (k : κ) (is : List (Item σ α)) :
    (s.next k is).todo = Function.update s.todo k is := rfl

theorem State.set_set (s : State κ σ α) (k : κ) (x y : σ × α) : (s.set k x).set k y = s.set k y :=
  State.ext rfl (Function.update_idem ..) rfl

theorem State.set_self (s : State κ σ α) (k : κ) : s.set k (s.shared, s.own k) = s :=
  State.ext rfl (Function.update_eq_self ..) rfl

theorem atomic_of_todo {s : State κ σ α} {k : κ} {i : Item σ α} {is : List (Item σ α)}
    (h : s.todo k = i :: is) :
    atomic s k = some ((s.next k is).set k (i.run (s.shared, s.own k))) := by
  simp only [atomic, h]

/-- What the locked threads can do. -/
theorem locked_cases {s t : Locked κ σ α} {e : Move κ} (h : locked s e = some t) :
    (∃ k b is, e = .enter k ∧ s.inside = none ∧ s.todo k = .critical b :: is ∧
      t = ⟨s.next k is, some (k, b)⟩) ∨
    (∃ k f left, e = .work ∧ s.inside = some (k, f :: left) ∧
      t = ⟨s.set k (f (s.shared, s.own k)), some (k, left)⟩) ∨
    (∃ k, e = .leave ∧ s.inside = some (k, []) ∧ t = ⟨s.toState, none⟩) ∨
    (∃ k f is, e = .peek k ∧ (∀ j left, s.inside = some (j, left) → j ≠ k) ∧
      s.todo k = .peek f :: is ∧
      t = ⟨(s.next k is).set k (s.shared, f s.shared (s.own k)), s.inside⟩) := by
  cases e with
  | enter k =>
    simp only [locked] at h
    split at h
    · next b is hin htodo => exact .inl ⟨k, b, is, rfl, hin, htodo, (Option.some.inj h).symm⟩
    · cases h
  | work =>
    simp only [locked] at h
    split at h
    · next k f left hin => exact .inr (.inl ⟨k, f, left, rfl, hin, (Option.some.inj h).symm⟩)
    · cases h
  | leave =>
    simp only [locked] at h
    split at h
    · next k hin => exact .inr (.inr (.inl ⟨k, rfl, hin, (Option.some.inj h).symm⟩))
    · cases h
  | peek k =>
    simp only [locked] at h
    split at h
    · next f is htodo =>
      split at h
      · cases h
      · next hany =>
        refine .inr (.inr (.inr ⟨k, f, is, rfl, ?_, htodo, (Option.some.inj h).symm⟩))
        intro j left hin hjk
        exact hany (by simp [hin, hjk])
    · cases h

/-! ### The open section as run to its end -/

/-- The open section has been run to its end. -/
def Locked.finish (s : Locked κ σ α) : State κ σ α :=
  match s.inside with
  | none => s.toState
  | some (k, left) => s.set k (left.run (s.shared, s.own k))

/-- The items still to be started are all such as `P` says. -/
def State.Todo (P : Item σ α → Prop) (s : State κ σ α) : Prop := ∀ k, ∀ i ∈ s.todo k, P i

theorem State.Todo.next {P : Item σ α → Prop} {s : State κ σ α} (h : s.Todo P) {k : κ} {i : Item σ α}
    {is : List (Item σ α)} (htodo : s.todo k = i :: is) : (s.next k is).Todo P := by
  intro j x hx
  by_cases hj : j = k
  · subst hj
    rw [State.next_todo, Function.update_self] at hx
    exact h j x (htodo ▸ List.mem_cons_of_mem _ hx)
  · rw [State.next_todo, Function.update_of_ne hj] at hx
    exact h j x hx

omit [DecidableEq κ] in
theorem State.Todo.head {P : Item σ α → Prop} {s : State κ σ α} (h : s.Todo P) {k : κ} {i : Item σ α}
    {is : List (Item σ α)} (htodo : s.todo k = i :: is) : P i :=
  h k i (htodo ▸ List.mem_cons_self)

/-- Without peeks, a section counts from where it is entered. -/
theorem simulates_finish :
    Simulates locked atomic fun (s : Locked κ σ α) a => s.Todo Item.Critical ∧ a = s.finish := by
  rintro s a e t ⟨hno, rfl⟩ he
  obtain ⟨k, b, is, rfl, hin, htodo, rfl⟩ | ⟨k, f, left, rfl, hin, rfl⟩ | ⟨k, rfl, hin, rfl⟩ |
    ⟨k, f, is, rfl, -, htodo, rfl⟩ := locked_cases he
  · have hs : s.finish = s.toState := by simp [Locked.finish, hin]
    rw [hs]
    exact ⟨_, .single (atomic_of_todo htodo), hno.next htodo, rfl⟩
  · refine ⟨_, .refl _, hno, ?_⟩
    simp [Locked.finish, hin, State.set_set]
  · refine ⟨_, .refl _, hno, ?_⟩
    simp [Locked.finish, hin, State.set_self]
  · exact (hno.head htodo).elim

/-! ### The open section as not begun before its last step -/

/-- Only the last step may change the shared state. -/
def CommitsLast : Body σ α → Prop
  | [] => True
  | [_] => True
  | f :: g :: b => (∀ x, (f x).1 = x.1) ∧ CommitsLast (g :: b)

/-- `a` is `s` with the open section not yet entered, if its last step is still
to be taken: its steps so far only changed its thread's own state, from `o`. -/
inductive Uncommitted (s : Locked κ σ α) (a : State κ σ α) : Prop
  | closed (hin : s.inside = none) (ha : a = s.toState)
  | committed {k : κ} (hin : s.inside = some (k, [])) (ha : a = s.toState)
  | pending (pre : Body σ α) (o : α) {k : κ} {left : Body σ α} {f : σ × α → σ × α} (hin : s.inside = some (k, f :: left))
      (hlast : CommitsLast (f :: left)) (hpre : Body.run pre (s.shared, o) = (s.shared, s.own k))
      (ha : a = ⟨s.shared, Function.update s.own k o,
        Function.update s.todo k (.critical (pre ++ f :: left) :: s.todo k)⟩)

/-- The threads that are not inside stand in `a` as they do in `s`. -/
theorem Uncommitted.outside {s : Locked κ σ α} {a : State κ σ α} (h : Uncommitted s a) {k : κ}
    (hk : ∀ left, s.inside ≠ some (k, left)) : a.own k = s.own k ∧ a.todo k = s.todo k := by
  cases h with
  | closed _ ha => exact ⟨by rw [ha], by rw [ha]⟩
  | committed _ ha => exact ⟨by rw [ha], by rw [ha]⟩
  | @pending _ _ j _ _ hin _ _ ha =>
    have hkj : k ≠ j := fun heq => hk _ (heq ▸ hin)
    rw [ha]
    exact ⟨Function.update_of_ne hkj .., Function.update_of_ne hkj ..⟩

def Item.CommitsLast : Item σ α → Prop
  | .critical b => Mutex.CommitsLast b
  | .peek _ => True

/-- Where every section commits in its last step, it counts from there. -/
theorem simulates_commit :
    Simulates locked atomic fun (s : Locked κ σ α) a => s.Todo Item.CommitsLast ∧ Uncommitted s a := by
  rintro s a e t ⟨hall, hR⟩ he
  obtain ⟨k, b, is, rfl, hin, htodo, rfl⟩ | ⟨k, f, left, rfl, hin, rfl⟩ | ⟨k, rfl, hin, rfl⟩ |
    ⟨k, f, is, rfl, hne, htodo, rfl⟩ := locked_cases he
  · have ha : a = s.toState := by
      cases hR with
      | closed _ ha => exact ha
      | committed hin' => simp [hin] at hin'
      | pending _ _ hin' => simp [hin] at hin'
    subst ha
    cases b with
    | nil =>
      -- a section without steps is over when it is entered
      refine ⟨_, .single (atomic_of_todo htodo), hall.next htodo, .committed rfl ?_⟩
      exact State.set_self ..
    | cons f left =>
      refine ⟨_, .refl _, hall.next htodo,
        .pending [] (s.own k) rfl (hall.head htodo) rfl ?_⟩
      simp [State.next, ← htodo]
  · cases hR with
    | closed hin' => simp [hin] at hin'
    | committed hin' => simp [hin] at hin'
    | pending pre o hin' hlast hpre ha =>
      rw [hin, Option.some.injEq, Prod.mk.injEq, List.cons.injEq] at hin'
      obtain ⟨rfl, rfl, rfl⟩ := hin'
      cases left with
      | nil =>
        -- the last step: the whole section happens here
        have htodo : a.todo k = .critical (pre ++ [f]) :: s.todo k := by
          rw [ha]
          exact Function.update_self ..
        refine ⟨_, .single (atomic_of_todo htodo), hall, .committed rfl ?_⟩
        subst ha
        simp [Item.run, Body.run_append, hpre, State.set, State.next]
      | cons g left =>
        have hkeep : (f (s.shared, s.own k)).1 = s.shared := hlast.1 _
        refine ⟨a, .refl a, hall, .pending (pre ++ [f]) o rfl hlast.2 ?_ ?_⟩
        · rw [State.set_shared, hkeep, Body.run_append, hpre, State.set_own, Function.update_self]
          exact Prod.ext hkeep rfl
        · rw [ha]
          simp [State.set, hkeep]
  · refine ⟨a, .refl a, hall, .closed rfl ?_⟩
    cases hR with
    | closed _ ha => exact ha
    | committed _ ha => exact ha
    | pending _ _ hin' => simp [hin] at hin'
  · cases hR with
    | closed hin ha =>
      subst ha
      exact ⟨_, .single (atomic_of_todo htodo), hall.next htodo, .closed hin rfl⟩
    | committed hin ha =>
      subst ha
      exact ⟨_, .single (atomic_of_todo htodo), hall.next htodo, .committed hin rfl⟩
    | @pending pre o j left g hin hlast hpre ha =>
      have hjk : j ≠ k := hne j _ hin
      have htodo' : a.todo k = .peek f :: is := by
        rw [ha, ← htodo]
        exact Function.update_of_ne hjk.symm ..
      refine ⟨_, .single (atomic_of_todo htodo'), hall.next htodo, .pending pre o hin hlast ?_ ?_⟩
      · simp only [State.set_shared, State.set_own, State.next_own, Function.update_of_ne hjk]
        exact hpre
      · subst ha
        simp only [Item.run, State.set, State.next, Function.update_of_ne hjk, Function.update_of_ne hjk.symm]
        rw [Function.update_comm hjk, Function.update_comm hjk]

/-! ### The order of calls -/

/-- Where every item is a call whose effect on the shared state is known, an
atomic run has put the calls in an order that keeps each thread's own. -/
theorem exists_order {ι : Type*} {item : ι → Item σ α} {e : ι → σ → σ}
    (heffect : ∀ i x, ((item i).run x).1 = e i x.1) {s t : State κ σ α} {calls : κ → List ι}
    (hs : ∀ k, s.todo k = (calls k).map item) (ht : Reaches atomic s t) :
    ∃ (order : List (κ × ι)) (rest : κ → List ι),
      t.shared = order.foldl (fun x c => e c.2 x) s.shared ∧
        (∀ k, (order.filter (·.1 = k)).map Prod.snd ++ rest k = calls k) ∧
          ∀ k, t.todo k = (rest k).map item := by
  refine ht.inv (I := fun t => ∃ (order : List (κ × ι)) (rest : κ → List ι),
      t.shared = order.foldl (fun x c => e c.2 x) s.shared ∧
        (∀ k, (order.filter (·.1 = k)).map Prod.snd ++ rest k = calls k) ∧
          ∀ k, t.todo k = (rest k).map item) ?_ ⟨[], calls, rfl, fun _ => rfl, hs⟩
  rintro u k v ⟨order, rest, hshared, hcalls, htodo⟩ hv
  cases hrest : rest k with
  | nil =>
    have hnil : u.todo k = [] := by rw [htodo k, hrest]; rfl
    simp [atomic, hnil] at hv
  | cons c cs =>
    have hcons : u.todo k = item c :: cs.map item := by rw [htodo k, hrest]; rfl
    rw [atomic_of_todo hcons, Option.some.injEq] at hv
    subst hv
    refine ⟨order ++ [(k, c)], Function.update rest k cs, ?_, fun j => ?_, fun j => ?_⟩
    · simp [heffect, hshared]
    · by_cases hj : j = k
      · subst hj
        rw [← hcalls j, hrest]
        simp
      · rw [← hcalls j]
        simp [Function.update_of_ne hj, Ne.symm hj]
    · by_cases hj : j = k
      · subst hj
        simp
      · simp [Function.update_of_ne hj, htodo j]

end Mutex
end DaatMcs
