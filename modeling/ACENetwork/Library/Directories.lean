import Mathlib

/-!
# Walks through directories

A walk goes up, stays, or enters a name; at the root, going up stays there. What a walk does
is known from a number of steps up and the names that are entered behind them, and this
decides whether it ends below its start.
-/
namespace ACENetwork.Library.Directories

variable {α : Type*}

inductive Move (α : Type*) where
  | stay
  | up
  | enter (name : α)
  deriving DecidableEq

def move (directory : List α) : Move α → List α
  | .stay => directory
  | .up => directory.dropLast
  | .enter name => directory ++ [name]

def walk (directory : List α) (moves : List (Move α)) : List α := moves.foldl move directory

theorem walk_append (directory : List α) (front back : List (Move α)) :
    walk directory (front ++ back) = walk (walk directory front) back := List.foldl_append

/-- What a walk does: so many steps up, and then into these names. -/
structure Net (α : Type*) where
  ups : ℕ
  names : List α
  deriving DecidableEq

def Net.move (n : Net α) : Move α → Net α
  | .stay => n
  | .up => if n.names = [] then ⟨n.ups + 1, []⟩ else ⟨n.ups, n.names.dropLast⟩
  | .enter name => ⟨n.ups, n.names ++ [name]⟩

def net (moves : List (Move α)) : Net α := moves.foldl Net.move ⟨0, []⟩

def Net.apply (n : Net α) (directory : List α) : List α :=
  directory.take (directory.length - n.ups) ++ n.names

theorem Net.apply_move (n : Net α) (m : Move α) (directory : List α) :
    (n.move m).apply directory = Directories.move (n.apply directory) m := by
  cases m with
  | stay => rfl
  | up =>
    by_cases hnames : n.names = []
    · have hlength : (directory.take (directory.length - n.ups)).length = directory.length - n.ups :=
        List.length_take_of_le (Nat.sub_le _ _)
      rw [Net.move, if_pos hnames, Directories.move, Net.apply, Net.apply, hnames, List.append_nil,
        List.append_nil, List.dropLast_eq_take, hlength, List.take_take, Nat.sub_sub,
        Nat.min_eq_left (by omega)]
    · rw [Net.move, if_neg hnames]
      exact (List.dropLast_append_of_ne_nil hnames).symm
  | enter name => exact (List.append_assoc _ _ _).symm

theorem walk_eq (directory : List α) (moves : List (Move α)) :
    walk directory moves = (net moves).apply directory := by
  have h (n : Net α) : walk (n.apply directory) moves = (moves.foldl Net.move n).apply directory := by
    induction moves generalizing n with
    | nil => rfl
    | cons m moves ih =>
      rw [List.foldl_cons, ← ih, Net.apply_move]
      rfl
  have hstart : (⟨0, []⟩ : Net α).apply directory = directory := by simp [Net.apply]
  rw [net, ← h, hstart]

def Below (top directory : List α) : Prop := top <+: directory ∧ top ≠ directory

instance [DecidableEq α] (top directory : List α) : Decidable (Below top directory) :=
  inferInstanceAs (Decidable (_ ∧ _))

theorem below_append_iff (front top directory : List α) :
    Below (front ++ top) (front ++ directory) ↔ Below top directory := by
  rw [Below, Below, List.prefix_append_right_inj, ne_eq, List.append_cancel_left_eq]

/-- A walk ends below its start when the names that are entered begin with those that have been
left, and go on. -/
theorem below_walk_iff (directory : List α) (moves : List (Move α)) :
    Below directory (walk directory moves) ↔
      Below (directory.drop (directory.length - (net moves).ups)) (net moves).names := by
  have hbelow := below_append_iff (directory.take (directory.length - (net moves).ups))
    (directory.drop (directory.length - (net moves).ups)) (net moves).names
  rw [List.take_append_drop] at hbelow
  rw [walk_eq]
  exact hbelow

/-- A walk that does not leave its start ends below it unless it ends there. -/
theorem below_walk_iff_of_ups {moves : List (Move α)} (h : (net moves).ups = 0) (directory : List α) :
    Below directory (walk directory moves) ↔ (net moves).names ≠ [] := by
  rw [below_walk_iff, h, Nat.sub_zero, List.drop_length]
  exact ⟨fun hbelow hnil => hbelow.2 hnil.symm, fun hne => ⟨List.nil_prefix, hne.symm⟩⟩

theorem net_enter (names : List α) : net (names.map Move.enter) = ⟨0, names⟩ := by
  have h (front : List α) :
      (names.map Move.enter).foldl Net.move ⟨0, front⟩ = ⟨0, front ++ names⟩ := by
    induction names generalizing front with
    | nil => rw [List.append_nil]; rfl
    | cons name names ih =>
      rw [List.map_cons, List.foldl_cons, Net.move, ih, List.append_assoc]
      rfl
  exact h []

end ACENetwork.Library.Directories
