import ACENetwork.Library.Decimal

/-!
# Patterns with groups

Regular expressions as a backtracking matcher runs them: what comes behind a pattern
is a continuation, a quantifier tries its longest run first, and the first choice with
which the continuation succeeds is taken. A group remembers the text that its pattern
took.
-/
namespace ACENetwork.Library

/-- A pattern over classes of symbols; the quantifiers are greedy. -/
inductive Pattern (α : Type) where
  | chars (p : α → Bool) (least : ℕ) (most : Option ℕ)
  | word (w : List α)
  | seq (r s : Pattern α)
  | opt (r : Pattern α)
  | group (n : ℕ) (r : Pattern α)

def Pattern.groups {α : Type} : Pattern α → List ℕ
  | .chars _ _ _ => []
  | .word _ => []
  | .seq r s => r.groups ++ s.groups
  | .opt r => r.groups
  | .group n r => n :: r.groups

abbrev Groups (α : Type) := ℕ → Option (List α)

/-- The numbers from `most` down to `least`. -/
def descending (least most : ℕ) : List ℕ := (List.range' least (most + 1 - least)).reverse

namespace Pattern

variable {α β : Type} [DecidableEq α]

/-- The matcher: the first choice with which the continuation succeeds. -/
def run : Pattern α → (List α → Groups α → Option β) → List α → Groups α → Option β
  | .chars p least most, k, s, g =>
    let longest := (s.takeWhile p).length
    (descending least (most.elim longest (min longest))).findSome? fun n => k (s.drop n) g
  | .word w, k, s, g => if w.isPrefixOf s then k (s.drop w.length) g else none
  | .seq r t, k, s, g => r.run (fun rest g => t.run k rest g) s g
  | .opt r, k, s, g => (r.run k s g).or (k s g)
  | .group n r, k, s, g =>
    r.run (fun rest g => k rest (Function.update g n (some (s.take (s.length - rest.length))))) s g

def atEnd (rest : List α) (g : Groups α) : Option (Groups α) := if rest = [] then some g else none

/-- `std::regex_match`: the groups of the first match of the whole text. -/
def fullMatch (r : Pattern α) (s : List α) : Option (Groups α) := r.run atEnd s fun _ => none

end Pattern

section Descending

variable {β : Type} {f : ℕ → Option β} {least most : ℕ}

theorem mem_descending {n : ℕ} : n ∈ descending least most ↔ least ≤ n ∧ n ≤ most := by
  rw [descending, List.mem_reverse, List.mem_range'_1]
  omega

theorem descending_of_le (h : least ≤ most) :
    descending least most = most :: (List.range' least (most - least)).reverse := by
  obtain ⟨n, rfl⟩ : ∃ n, most = least + n := ⟨most - least, by omega⟩
  have hcount : least + n + 1 - least = n + 1 := by omega
  rw [descending, hcount, List.range'_1_concat, List.reverse_append, List.reverse_singleton,
    Nat.add_sub_cancel_left]
  rfl

theorem findSome_descending_first {b : β} (h : least ≤ most) (hf : f most = some b) :
    (descending least most).findSome? f = some b := by
  rw [descending_of_le h, List.findSome?_cons, hf]

theorem findSome_descending_none (hf : ∀ n, least ≤ n → n ≤ most → f n = none) :
    (descending least most).findSome? f = none := by
  rw [List.findSome?_eq_none_iff]
  intro n hn
  exact hf n (mem_descending.1 hn).1 (mem_descending.1 hn).2

/-- Where no shorter run succeeds, the longest one decides. -/
theorem findSome_descending (hf : ∀ n, least ≤ n → n < most → f n = none) :
    (descending least most).findSome? f = if least ≤ most then f most else none := by
  split_ifs with h
  · cases hmost : f most with
    | some b => exact findSome_descending_first h hmost
    | none =>
      refine findSome_descending_none fun n hleast hn => ?_
      rcases hn.lt_or_eq with hlt | rfl
      · exact hf n hleast hlt
      · exact hmost
  · exact findSome_descending_none fun n hleast hn => absurd (hleast.trans hn) h

theorem descending_succ (h : least ≤ most + 1) :
    descending least (most + 1) = (most + 1) :: descending least most := by
  rw [descending_of_le h, descending]

theorem findSome_descending_at {n : ℕ} {b : β} (hleast : least ≤ n) (hn : n ≤ most)
    (hf : f n = some b) (hlonger : ∀ m, n < m → m ≤ most → f m = none) :
    (descending least most).findSome? f = some b := by
  obtain ⟨d, rfl⟩ := Nat.exists_eq_add_of_le hn
  induction d with
  | zero => exact findSome_descending_first hleast hf
  | succ d ih =>
    rw [← Nat.add_assoc, descending_succ (by omega), List.findSome?_cons,
      hlonger (n + d + 1) (by omega) (by omega)]
    exact ih (by omega) fun m hm hle => hlonger m hm (by omega)

end Descending

namespace Pattern

variable {α β : Type} [DecidableEq α] {p : α → Bool} {least : ℕ}
  {k : List α → Groups α → Option β} {text rest : List α} {g : Groups α}

theorem run_class (p : α → Bool) (least : ℕ) (most : Option ℕ) (k : List α → Groups α → Option β)
    (s : List α) (g : Groups α) :
    (chars p least most).run k s g =
      (descending least (most.elim (s.takeWhile p).length (min (s.takeWhile p).length))).findSome?
        fun n => k (s.drop n) g := rfl

theorem run_capture (n : ℕ) (r : Pattern α) (k : List α → Groups α → Option β) (s : List α)
    (g : Groups α) :
    (group n r).run k s g = r.run
      (fun rest g => k rest (Function.update g n (some (s.take (s.length - rest.length))))) s g := rfl

/-- A class without an upper bound takes its whole run, where no shorter one succeeds. -/
theorem run_chars (htext : ∀ a ∈ text, p a = true) (hrest : Stops p rest)
    (hshort : ∀ n, least ≤ n → n < text.length → k (text.drop n ++ rest) g = none) :
    (chars p least none).run k (text ++ rest) g =
      if least ≤ text.length then k rest g else none := by
  simp only [run_class, takeWhile_run htext hrest, Option.elim_none]
  rw [findSome_descending, List.drop_left]
  intro n hleast hn
  rw [List.drop_append_of_le_length hn.le]
  exact hshort n hleast hn

/-- A class takes its whole run if the continuation succeeds behind it. -/
theorem run_chars_first {b : β} (htext : ∀ a ∈ text, p a = true) (hrest : Stops p rest)
    (hleast : least ≤ text.length) (hk : k rest g = some b) :
    (chars p least none).run k (text ++ rest) g = some b := by
  simp only [run_class, takeWhile_run htext hrest, Option.elim_none]
  exact findSome_descending_first hleast (by rw [List.drop_left, hk])

/-- A class with an upper bound takes its whole run if it is short enough. -/
theorem run_chars_atMost {b : β} {most : ℕ} (htext : ∀ a ∈ text, p a = true) (hrest : Stops p rest)
    (hleast : least ≤ text.length) (hmost : text.length ≤ most) (hk : k rest g = some b) :
    (chars p least (some most)).run k (text ++ rest) g = some b := by
  simp only [run_class, takeWhile_run htext hrest, Option.elim_some, min_eq_left hmost]
  exact findSome_descending_first hleast (by rw [List.drop_left, hk])

theorem run_chars_some {b : β} {most : Option ℕ} {s : List α}
    (h : (chars p least most).run k s g = some b) :
    ∃ text rest, s = text ++ rest ∧ (∀ a ∈ text, p a = true) ∧ least ≤ text.length ∧
      (∀ m ∈ most, text.length ≤ m) ∧ k rest g = some b := by
  obtain ⟨n, hn, hk⟩ := List.exists_of_findSome?_eq_some h
  obtain ⟨hleast, hlongest⟩ := mem_descending.1 hn
  have hrun : n ≤ (s.takeWhile p).length ∧ ∀ m ∈ most, n ≤ m := by
    cases most with
    | none => exact ⟨hlongest, by simp⟩
    | some m =>
      simp only [Option.elim_some, le_min_iff] at hlongest
      exact ⟨hlongest.1, fun m' hm' => by cases hm'; exact hlongest.2⟩
  have hle : n ≤ s.length := hrun.1.trans (List.takeWhile_prefix p).length_le
  have hfront : s.take n <+: s.takeWhile p :=
    List.prefix_of_prefix_length_le (List.take_prefix n s) (List.takeWhile_prefix p)
      ((List.length_take_le n s).trans hrun.1)
  have hlength : (s.take n).length = n := List.length_take_of_le hle
  exact ⟨s.take n, s.drop n, (List.take_append_drop n s).symm,
    fun a ha => List.mem_takeWhile_imp (hfront.subset ha), hlength.symm ▸ hleast,
    fun m hm => hlength.symm ▸ hrun.2 m hm, hk⟩

omit [DecidableEq α] in
theorem take_group (text rest : List α) :
    (text ++ rest).take ((text ++ rest).length - rest.length) = text := by
  simp

theorem run_group_first {n : ℕ} {b : β} (htext : ∀ a ∈ text, p a = true) (hrest : Stops p rest)
    (hleast : least ≤ text.length) (hk : k rest (Function.update g n (some text)) = some b) :
    (group n (chars p least none)).run k (text ++ rest) g = some b := by
  rw [run_capture]
  refine run_chars_first htext hrest hleast ?_
  simpa using hk

theorem run_group {n : ℕ} (htext : ∀ a ∈ text, p a = true) (hrest : Stops p rest)
    (hshort : ∀ m g', least ≤ m → m < text.length → k (text.drop m ++ rest) g' = none) :
    (group n (chars p least none)).run k (text ++ rest) g =
      if least ≤ text.length then k rest (Function.update g n (some text)) else none := by
  rw [run_capture, run_chars htext hrest]
  · simp
  · intro m hleast hm
    exact hshort m _ hleast hm

end Pattern

/-- How a pattern with alternatives and repetitions matches in front of a continuation. -/
abbrev Matcher (α β : Type) :=
  (List α → Groups α → Option β) → List α → Groups α → Option β

namespace Matcher

variable {α β : Type} {clear : Groups α → Groups α} {r t : Matcher α β}
  {k : List α → Groups α → Option β} {s : List α} {g : Groups α}

def both (r t : Matcher α β) : Matcher α β := fun k s g => r (fun rest g => t k rest g) s g

def either (r t : Matcher α β) : Matcher α β := fun k s g => (r k s g).or (t k s g)

def maybe (r : Matcher α β) : Matcher α β := fun k s g => (r k s g).or (k s g)

def capture (n : ℕ) (r : Matcher α β) : Matcher α β := fun k s g =>
  r (fun rest g => k rest (Function.update g n (some (s.take (s.length - rest.length))))) s g

/-- At most so many rounds; each takes something, and has its groups cleared before it. -/
def repeated (clear : Groups α → Groups α) (r : Matcher α β) (k : List α → Groups α → Option β) :
    ℕ → List α → Groups α → Option β
  | 0, s, g => k s g
  | n + 1, s, g =>
    if s = [] then k s g
    else
      (r (fun rest g => if rest.length < s.length then repeated clear r k n rest g else none) s
        (clear g)).or (k s g)

def star (clear : Groups α → Groups α) (r : Matcher α β) : Matcher α β :=
  fun k s g => repeated clear r k s.length s g

theorem repeated_enough {n : ℕ} (h : s.length ≤ n) :
    repeated clear r k n s g = star clear r k s g := by
  induction n using Nat.strong_induction_on generalizing s g with
  | _ n ih =>
    cases s with
    | nil =>
      cases n with
      | zero => rfl
      | succ n => exact if_pos rfl
    | cons a s =>
      cases n with
      | zero => exact absurd h (Nat.not_succ_le_zero _)
      | succ n =>
        rw [star, List.length_cons, repeated, repeated, if_neg (List.cons_ne_nil a s),
          if_neg (List.cons_ne_nil a s)]
        congr 2
        funext rest g
        split_ifs with hrest
        · have hle : rest.length ≤ s.length := Nat.lt_succ_iff.mp hrest
          have hlt : s.length < n + 1 := Nat.lt_of_succ_le h
          rw [ih n (Nat.lt_succ_self n) (hle.trans (Nat.lt_succ_iff.mp hlt)), ih s.length hlt hle]
        · rfl

theorem star_cons (a : α) (s : List α) : star clear r k (a :: s) g =
    (r (fun rest g => if rest.length < (a :: s).length then star clear r k rest g else none) (a :: s)
      (clear g)).or (k (a :: s) g) := by
  rw [star, List.length_cons, repeated, if_neg (List.cons_ne_nil a s), List.length_cons]
  congr 2
  funext rest g
  split_ifs with hrest
  · exact repeated_enough (Nat.lt_succ_iff.mp hrest)
  · rfl

def Keeps (P Q : Groups α → Prop) (r : Matcher α β) : Prop :=
  ∀ k s g b, P g → r k s g = some b → ∃ rest g', Q g' ∧ k rest g' = some b

section Keeps

variable {P Q R : Groups α → Prop}

theorem Keeps.both (hr : Keeps P Q r) (ht : Keeps Q R t) : Keeps P R (both r t) := by
  intro k s g b hg h
  obtain ⟨rest, g', hg', h'⟩ := hr _ s g b hg h
  exact ht k rest g' b hg' h'

theorem Keeps.either (hr : Keeps P Q r) (ht : Keeps P Q t) : Keeps P Q (either r t) := by
  intro k s g b hg h
  rcases Option.or_eq_some_iff.mp h with h | ⟨-, h⟩
  · exact hr k s g b hg h
  · exact ht k s g b hg h

theorem Keeps.maybe (hr : Keeps P Q r) (hPQ : ∀ g, P g → Q g) : Keeps P Q (maybe r) := by
  intro k s g b hg h
  rcases Option.or_eq_some_iff.mp h with h | ⟨-, h⟩
  · exact hr k s g b hg h
  · exact ⟨s, g, hPQ g hg, h⟩

theorem Keeps.star (hclear : ∀ g, P g → Q (clear g)) (hr : Keeps Q P r) :
    Keeps P P (star clear r) := by
  intro k s g b hg h
  rw [Matcher.star] at h
  generalize s.length = n at h
  induction n generalizing s g with
  | zero => exact ⟨s, g, hg, h⟩
  | succ n ih =>
    rw [repeated] at h
    split_ifs at h with hnil
    · exact ⟨s, g, hg, h⟩
    · rcases Option.or_eq_some_iff.mp h with h | ⟨-, h⟩
      · obtain ⟨rest, g', hg', h'⟩ := hr _ s (clear g) b (hclear g hg) h
        split_ifs at h' with hrest
        exact ih rest g' hg' h'
      · exact ⟨s, g, hg, h⟩

theorem Keeps.imp {P' Q' : Groups α → Prop} (hr : Keeps P Q r) (hP : ∀ g, P' g → P g)
    (hQ : ∀ g, Q g → Q' g) : Keeps P' Q' r := by
  intro k s g b hg h
  obtain ⟨rest, g', hg', h'⟩ := hr k s g b (hP g hg) h
  exact ⟨rest, g', hQ g' hg', h'⟩

theorem keeps_run [DecidableEq α] (p : Pattern α)
    (h : ∀ g n text, n ∈ p.groups → P g → P (Function.update g n (some text))) :
    Keeps P P (p.run : Matcher α β) := by
  induction p with
  | chars q least most =>
    intro k s g b hg hrun
    obtain ⟨text, rest, -, -, -, -, hk⟩ := Pattern.run_chars_some hrun
    exact ⟨rest, g, hg, hk⟩
  | word w =>
    intro k s g b hg hrun
    rw [Pattern.run] at hrun
    split_ifs at hrun
    exact ⟨_, g, hg, hrun⟩
  | seq r t ihr iht =>
    intro k s g b hg hrun
    obtain ⟨rest, g', hg', h'⟩ := ihr (fun g n text hn => h g n text (List.mem_append_left _ hn))
      _ s g b hg hrun
    exact iht (fun g n text hn => h g n text (List.mem_append_right _ hn)) k rest g' b hg' h'
  | opt r ih =>
    intro k s g b hg hrun
    rcases Option.or_eq_some_iff.mp hrun with hrun | ⟨-, hrun⟩
    · exact ih h k s g b hg hrun
    · exact ⟨s, g, hg, hrun⟩
  | group n r ih =>
    intro k s g b hg hrun
    obtain ⟨rest, g', hg', h'⟩ := ih (fun g m text hm => h g m text (List.mem_cons_of_mem _ hm))
      _ s g b hg hrun
    exact ⟨rest, _, h g' n _ List.mem_cons_self hg', h'⟩

end Keeps

end Matcher

end ACENetwork.Library
