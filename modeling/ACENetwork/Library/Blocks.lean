import Mathlib

/-!
# Reading a text that comes in blocks

A machine looks at what is left of a block, takes some of its symbols, and stays open or
closes. It never sees past the end of a block, so that what it makes of a text depends on where
the text has been cut.
-/
namespace ACENetwork.Library.Blocks

/-- A machine is open, or it has closed with a result. -/
inductive Progress (σ ρ : Type*) where
  | opened (s : σ)
  | closed (r : ρ)
  deriving DecidableEq

variable {α σ ρ : Type*}

section Machine

variable (step : σ → List α → Progress σ ρ × ℕ)

/-- What a machine makes of a block; the first symbols belong to the last step. -/
def scan : σ → ℕ → List α → Progress σ ρ
  | s, _, [] => .opened s
  | s, skip + 1, _ :: rest => scan s skip rest
  | s, 0, a :: rest =>
    match step s (a :: rest) with
    | (.opened s', taken) => scan s' (taken - 1) rest
    | (.closed r, _) => .closed r

/-- Where a machine closes: its state, and what is left of the block. -/
def closing : σ → ℕ → List α → Option (σ × List α)
  | _, _, [] => none
  | s, skip + 1, _ :: rest => closing s skip rest
  | s, 0, a :: rest =>
    match step s (a :: rest) with
    | (.opened s', taken) => closing s' (taken - 1) rest
    | (.closed _, _) => some (s, a :: rest)

def read : σ → List (List α) → Progress σ ρ
  | s, [] => .opened s
  | s, block :: blocks =>
    match scan step s 0 block with
    | .opened s' => read s' blocks
    | .closed r => .closed r

end Machine

/-- The blocks that are left when `rest` is left of the first one. -/
def remaining (rest : List α) (blocks : List (List α)) : List (List α) :=
  if rest = [] then blocks else rest :: blocks

def Piece (piece : List α) (blocks blocks' : List (List α)) : Prop :=
  ∃ rest tail, blocks = (piece ++ rest) :: tail ∧ blocks' = remaining rest tail

def Whole (piece : List α) (blocks blocks' : List (List α)) : Prop := blocks = piece :: blocks'

section Remaining

variable {word rest : List α} {blocks blocks' : List (List α)}

@[simp] theorem remaining_nil (blocks : List (List α)) : remaining [] blocks = blocks := if_pos rfl

@[simp] theorem remaining_cons (a : α) (rest : List α) (blocks : List (List α)) :
    remaining (a :: rest) blocks = (a :: rest) :: blocks := if_neg (List.cons_ne_nil a rest)

@[simp] theorem flatten_remaining (rest : List α) (blocks : List (List α)) :
    (remaining rest blocks).flatten = rest ++ blocks.flatten := by
  cases rest <;> simp

theorem nonempty_remaining (h : ∀ b ∈ blocks, b ≠ []) : ∀ b ∈ remaining rest blocks, b ≠ [] := by
  cases rest with
  | nil => simpa using h
  | cons a rest => simpa using h

theorem Piece.flatten (h : Piece word blocks blocks') :
    blocks.flatten = word ++ blocks'.flatten := by
  obtain ⟨rest, tail, rfl, rfl⟩ := h
  simp

theorem Piece.nonempty (h : Piece word blocks blocks') (hblocks : ∀ b ∈ blocks, b ≠ []) :
    ∀ b ∈ blocks', b ≠ [] := by
  obtain ⟨rest, tail, rfl, rfl⟩ := h
  exact nonempty_remaining fun b hb => hblocks b (List.mem_cons_of_mem _ hb)

theorem Piece.of_append {more : List (List α)} (h : Piece word (blocks ++ more) blocks')
    (hblocks : blocks ≠ []) : ∃ blocks₁, Piece word blocks blocks₁ ∧ blocks' = blocks₁ ++ more := by
  obtain ⟨block, tail, rfl⟩ := List.exists_cons_of_ne_nil hblocks
  obtain ⟨rest, tail', hcons, rfl⟩ := h
  obtain ⟨rfl, rfl⟩ := List.cons.inj hcons
  refine ⟨remaining rest tail, ⟨rest, tail, rfl, rfl⟩, ?_⟩
  cases rest with
  | nil => simp
  | cons a rest => simp

theorem Whole.piece (h : Whole word blocks blocks') : Piece word blocks blocks' :=
  ⟨[], blocks', by rw [h, List.append_nil], (remaining_nil blocks').symm⟩

theorem exists_cons_of_flatten {a : α} {text : List α} (hblocks : ∀ b ∈ blocks, b ≠ [])
    (h : blocks.flatten = a :: text) : ∃ block tail, blocks = (a :: block) :: tail ∧
      block ++ tail.flatten = text := by
  cases blocks with
  | nil => cases h
  | cons block tail =>
    obtain ⟨b, block, rfl⟩ := List.exists_cons_of_ne_nil (hblocks block List.mem_cons_self)
    cases h
    exact ⟨block, tail, rfl, rfl⟩

end Remaining

section Machine

variable {step : σ → List α → Progress σ ρ × ℕ} {s s' : σ} {r : ρ} {piece rest : List α}
  {blocks : List (List α)}

@[simp] theorem scan_nil (s : σ) (skip : ℕ) : scan step s skip [] = .opened s := by
  cases skip <;> rfl

theorem scan_cons (s : σ) (a : α) (text : List α) : scan step s 0 (a :: text) =
    match step s (a :: text) with
    | (.opened s', taken) => scan step s' (taken - 1) text
    | (.closed r, _) => .closed r := rfl

theorem read_cons (s : σ) (block : List α) (blocks : List (List α)) :
    read step s (block :: blocks) =
      match scan step s 0 block with
      | .opened s' => read step s' blocks
      | .closed r => .closed r := rfl

theorem scan_skip (s : σ) (piece rest : List α) :
    scan step s piece.length (piece ++ rest) = scan step s 0 rest := by
  induction piece with
  | nil => rfl
  | cons a piece ih => exact ih

theorem read_remaining (s : σ) (rest : List α) (blocks : List (List α)) :
    read step s (remaining rest blocks) = read step s (rest :: blocks) := by
  cases rest with
  | nil =>
    rw [remaining_nil]
    rfl
  | cons a rest => rw [remaining_cons]

theorem scan_opened (hpiece : piece ≠ [])
    (h : step s (piece ++ rest) = (.opened s', piece.length)) :
    scan step s 0 (piece ++ rest) = scan step s' 0 rest := by
  obtain ⟨a, piece, rfl⟩ := List.exists_cons_of_ne_nil hpiece
  rw [List.cons_append] at h ⊢
  rw [scan_cons, h]
  exact scan_skip s' piece rest

theorem scan_taken {text : List α} {n : ℕ} (hpos : 1 ≤ n) (hle : n ≤ text.length)
    (h : step s text = (.opened s', n)) : scan step s 0 text = scan step s' 0 (text.drop n) := by
  have hsplit := List.take_append_drop n text
  have hlength : (text.take n).length = n := List.length_take_of_le hle
  have hpiece : text.take n ≠ [] := by
    intro hnil
    rw [hnil, List.length_nil] at hlength
    omega
  have hstep : step s (text.take n ++ text.drop n) = (.opened s', (text.take n).length) := by
    rw [hsplit, h, hlength]
  have hscan := scan_opened hpiece hstep
  rwa [hsplit] at hscan

theorem scan_closed {k : ℕ} (hpiece : piece ≠ []) (h : step s piece = (.closed r, k)) :
    scan step s 0 piece = .closed r := by
  obtain ⟨a, piece, rfl⟩ := List.exists_cons_of_ne_nil hpiece
  rw [scan_cons, h]

theorem closing_opened (hpiece : piece ≠ [])
    (h : step s (piece ++ rest) = (.opened s', piece.length)) :
    closing step s 0 (piece ++ rest) = closing step s' 0 rest := by
  have hskip (s : σ) (piece : List α) :
      closing step s piece.length (piece ++ rest) = closing step s 0 rest := by
    induction piece with
    | nil => rfl
    | cons a piece ih => exact ih
  obtain ⟨a, piece, rfl⟩ := List.exists_cons_of_ne_nil hpiece
  rw [List.cons_append] at h ⊢
  rw [closing, h]
  exact hskip s' piece

theorem closing_closed {k : ℕ} (hpiece : piece ≠ []) (h : step s piece = (.closed r, k)) :
    closing step s 0 piece = some (s, piece) := by
  obtain ⟨a, piece, rfl⟩ := List.exists_cons_of_ne_nil hpiece
  rw [closing, h]

theorem read_opened (hpiece : piece ≠ [])
    (h : step s (piece ++ rest) = (.opened s', piece.length)) :
    read step s ((piece ++ rest) :: blocks) = read step s' (remaining rest blocks) := by
  rw [read_remaining, read_cons, scan_opened hpiece h, read_cons]

theorem read_closed {k : ℕ} (hpiece : piece ≠ []) (h : step s piece = (.closed r, k)) :
    read step s (piece :: blocks) = .closed r := by
  rw [read_cons, scan_closed hpiece h]

theorem read_append (s : σ) (blocks blocks' : List (List α)) :
    read step s (blocks ++ blocks') =
      match read step s blocks with
      | .opened s' => read step s' blocks'
      | .closed r => .closed r := by
  induction blocks generalizing s with
  | nil => rfl
  | cons block blocks ih =>
    rw [List.cons_append, read_cons, read_cons]
    cases scan step s 0 block with
    | opened s' => exact ih s'
    | closed r => rfl

theorem read_append_closed (h : read step s blocks = .closed r) (blocks' : List (List α)) :
    read step s (blocks ++ blocks') = .closed r := by
  rw [read_append, h]

/-- Steps that leave a machine open, and what is left of the text. -/
inductive Steps (step : σ → List α → Progress σ ρ × ℕ) : σ → List α → σ → List α → Prop
  | refl (s : σ) (text : List α) : Steps step s text s text
  | head {s s' t : σ} {piece rest left : List α} (hpiece : piece ≠ [])
      (hstep : step s (piece ++ rest) = (.opened s', piece.length))
      (hrest : Steps step s' rest t left) : Steps step s (piece ++ rest) t left

theorem Steps.single (hpiece : piece ≠ [])
    (h : step s (piece ++ rest) = (.opened s', piece.length)) :
    Steps step s (piece ++ rest) s' rest :=
  .head hpiece h (.refl s' rest)

theorem Steps.trans {t : σ} {text rest left : List α} (h : Steps step s text s' rest)
    (h' : Steps step s' rest t left) : Steps step s text t left := by
  induction h with
  | refl => exact h'
  | head hpiece hstep _ ih => exact .head hpiece hstep (ih h')

theorem Steps.taken {t : σ} {text left : List α} {n : ℕ} (hpos : 1 ≤ n) (hle : n ≤ text.length)
    (hstep : step s text = (.opened s', n)) (hrest : Steps step s' (text.drop n) t left) :
    Steps step s text t left := by
  have hlength : (text.take n).length = n := List.length_take_of_le hle
  have hpiece : text.take n ≠ [] := by
    intro hnil
    rw [hnil, List.length_nil] at hlength
    omega
  rw [← List.take_append_drop n text] at hstep ⊢
  exact .head hpiece (by rw [hstep, hlength]) hrest

theorem Steps.scan_eq {text : List α} (h : Steps step s text s' rest) :
    scan step s 0 text = scan step s' 0 rest := by
  induction h with
  | refl => rfl
  | head hpiece hstep _ ih => exact (scan_opened hpiece hstep).trans ih

theorem Steps.closing_eq {text : List α} (h : Steps step s text s' rest) :
    closing step s 0 text = closing step s' 0 rest := by
  induction h with
  | refl => rfl
  | head hpiece hstep _ ih => exact (closing_opened hpiece hstep).trans ih

theorem Steps.exists_front {text : List α} (h : Steps step s text s' rest) :
    ∃ front, text = front ++ rest := by
  induction h with
  | refl => exact ⟨[], rfl⟩
  | @head s s' t piece rest left hpiece hstep _ ih =>
    obtain ⟨front, rfl⟩ := ih
    exact ⟨piece ++ front, (List.append_assoc _ _ _).symm⟩

theorem Steps.of_prefix {t : σ} {front left left' : List α}
    (hstep : ∀ s s' piece rest rest', rest' <+: rest →
      step s (piece ++ rest) = (.opened s', piece.length) →
        step s (piece ++ rest') = (.opened s', piece.length))
    (h : Steps step s (front ++ left) t left) (hfront : left' <+: left) :
    Steps step s (front ++ left') t left' := by
  generalize htext : front ++ left = text at h
  induction h generalizing front with
  | refl s text =>
    obtain rfl : front = [] := by simpa using htext
    exact .refl s left'
  | @head s s' t piece rest left hpiece hs hrest ih =>
    obtain ⟨front', rfl⟩ := hrest.exists_front
    rw [← List.append_assoc, List.append_cancel_right_eq] at htext
    subst htext
    rw [List.append_assoc]
    refine .head hpiece (hstep _ _ _ _ _ ?_ hs) (ih hfront rfl)
    exact (List.prefix_append_right_inj front').mpr hfront

/-- As many steps as are asked for, where each of them leaves the machine open. -/
def advance (step : σ → List α → Progress σ ρ × ℕ) : ℕ → σ → List α → Option (σ × List α)
  | 0, s, text => some (s, text)
  | k + 1, s, text =>
    match step s text with
    | (.opened s', n) =>
      if 1 ≤ n ∧ n ≤ text.length then advance step k s' (text.drop n) else none
    | (.closed _, _) => none

theorem steps_advance {k : ℕ} {text : List α} (h : advance step k s text = some (s', rest)) :
    Steps step s text s' rest := by
  induction k generalizing s text with
  | zero =>
    cases h
    exact .refl _ _
  | succ k ih =>
    rw [advance] at h
    cases hs : step s text with
    | mk progress n =>
      rw [hs] at h
      cases progress with
      | closed r => cases h
      | opened t =>
        dsimp only at h
        split_ifs at h with htaken
        exact .taken htaken.1 htaken.2 hs (ih h)

theorem Steps.keeps {text : List α} {inv : σ → List α → Prop}
    (hstep : ∀ s s' piece rest, piece ≠ [] → inv s (piece ++ rest) →
      step s (piece ++ rest) = (.opened s', piece.length) → inv s' rest)
    (h : Steps step s text s' rest) (hinv : inv s text) : inv s' rest := by
  induction h with
  | refl => exact hinv
  | head hpiece hs _ ih => exact ih (hstep _ _ _ _ hpiece hinv hs)

def Takes (step : σ → List α → Progress σ ρ × ℕ) : Prop :=
  ∀ s a text, 1 ≤ (step s (a :: text)).2 ∧ (step s (a :: text)).2 ≤ text.length + 1

/-- A run is a number of steps that leave the machine open, and the step that closes it, if there
is one. -/
theorem exists_steps (htakes : Takes step) (s : σ) (text : List α) : ∃ s' rest,
    Steps step s text s' rest ∧
      (rest = [] ∧ scan step s 0 text = .opened s' ∨
        ∃ r k, rest ≠ [] ∧ step s' rest = (.closed r, k) ∧ scan step s 0 text = .closed r) := by
  induction hlength : text.length using Nat.strong_induction_on generalizing s text with
  | _ n ih =>
    cases text with
    | nil => exact ⟨s, [], .refl s [], .inl ⟨rfl, rfl⟩⟩
    | cons a text =>
      obtain ⟨hpos, hle⟩ := htakes s a text
      cases hs : step s (a :: text) with
      | mk progress taken =>
        rw [hs] at hpos hle
        cases progress with
        | closed r =>
          refine ⟨s, a :: text, .refl s _, .inr ⟨r, taken, List.cons_ne_nil _ _, hs, ?_⟩⟩
          exact scan_closed (List.cons_ne_nil _ _) hs
        | opened t =>
          have hpiece : (a :: text).take taken ≠ [] := by
            obtain ⟨k, rfl⟩ := Nat.exists_eq_succ_of_ne_zero (by omega : taken ≠ 0)
            exact List.cons_ne_nil _ _
          have hlen : ((a :: text).take taken).length = taken := by
            rw [List.length_take, List.length_cons]
            exact Nat.min_eq_left hle
          have hsplit := List.take_append_drop taken (a :: text)
          have hstep : step s ((a :: text).take taken ++ (a :: text).drop taken) =
              (.opened t, ((a :: text).take taken).length) := by rw [hsplit, hs, hlen]
          have hdrop : ((a :: text).drop taken).length < n := by
            rw [List.length_drop, hlength]
            rw [List.length_cons] at hlength
            omega
          obtain ⟨s', rest, hsteps, hend⟩ := ih _ hdrop t ((a :: text).drop taken) rfl
          have hrun := Steps.head hpiece hstep hsteps
          have hscan := scan_opened hpiece hstep
          rw [hsplit] at hrun hscan
          rw [hscan]
          exact ⟨s', rest, hrun, hend⟩

/-- What holds between two machines, or between their results. -/
def Related (inv : σ → σ → Prop) (post : ρ → ρ → Prop) : Progress σ ρ → Progress σ ρ → Prop
  | .opened s, .opened t => inv s t
  | .closed r, .closed r' => post r r'
  | _, _ => False

/-- Machines that every step keeps related are related at the end. -/
theorem scan_related {inv : σ → σ → Prop} {post : ρ → ρ → Prop}
    (hstep : ∀ s t text, inv s t → (step s text).2 = (step t text).2 ∧
      Related inv post (step s text).1 (step t text).1)
    {s t : σ} (h : inv s t) (skip : ℕ) (text : List α) :
    Related inv post (scan step s skip text) (scan step t skip text) := by
  induction text generalizing s t skip with
  | nil => rwa [scan_nil, scan_nil]
  | cons a text ih =>
    cases skip with
    | succ skip => exact ih h skip
    | zero =>
      obtain ⟨htaken, hrelated⟩ := hstep s t (a :: text) h
      rw [scan_cons, scan_cons]
      cases hs : step s (a :: text) with
      | mk progress taken =>
        cases ht : step t (a :: text) with
        | mk progress' taken' =>
          rw [hs, ht] at htaken hrelated
          obtain rfl : taken = taken' := htaken
          cases progress with
          | opened s' =>
            cases progress' with
            | opened t' => exact ih hrelated (taken - 1)
            | closed r => exact hrelated.elim
          | closed r =>
            cases progress' with
            | opened t' => exact hrelated.elim
            | closed r' => exact hrelated

def Keeps (inv : σ → Prop) (post : ρ → Prop) : Progress σ ρ → Prop
  | .opened s => inv s
  | .closed r => post r

theorem scan_keeps {inv : σ → Prop} {post : ρ → Prop}
    (hstep : ∀ s text, inv s → Keeps inv post (step s text).1) {s : σ} (hinv : inv s) (skip : ℕ)
    (text : List α) : Keeps inv post (scan step s skip text) := by
  induction text generalizing s skip with
  | nil =>
    rw [scan_nil]
    exact hinv
  | cons a text ih =>
    cases skip with
    | succ skip => exact ih hinv skip
    | zero =>
      have hkeeps := hstep s (a :: text) hinv
      rw [scan_cons]
      cases hs : step s (a :: text) with
      | mk progress taken =>
        rw [hs] at hkeeps
        cases progress with
        | opened s' => exact ih hkeeps (taken - 1)
        | closed r => exact hkeeps

theorem read_keeps {inv : σ → Prop} {post : ρ → Prop}
    (hstep : ∀ s text, inv s → Keeps inv post (step s text).1) {s : σ} (hinv : inv s)
    (blocks : List (List α)) : Keeps inv post (read step s blocks) := by
  induction blocks generalizing s with
  | nil => exact hinv
  | cons block blocks ih =>
    have hkeeps := scan_keeps hstep hinv 0 block
    rw [read_cons]
    cases hs : scan step s 0 block with
    | opened s' =>
      rw [hs] at hkeeps
      exact ih hkeeps
    | closed r =>
      rw [hs] at hkeeps
      exact hkeeps

def Within (m : σ → ℕ) (n : ρ → ℕ) (bound : ℕ) : Progress σ ρ → Prop
  | .opened s => m s ≤ bound
  | .closed r => n r ≤ bound

variable {m : σ → ℕ} {n : ρ → ℕ}

theorem Within.mono {b c : ℕ} {progress : Progress σ ρ} (h : Within m n b progress) (hbc : b ≤ c) :
    Within m n c progress := by
  cases progress with
  | opened s => exact le_trans h hbc
  | closed r => exact le_trans h hbc

theorem scan_within
    (hstep : ∀ s a text, Within m n (m s + (step s (a :: text)).2) (step s (a :: text)).1 ∧
      1 ≤ (step s (a :: text)).2 ∧ (step s (a :: text)).2 ≤ text.length + 1)
    (s : σ) {skip : ℕ} {text : List α} (hskip : skip ≤ text.length) :
    Within m n (m s + (text.length - skip)) (scan step s skip text) := by
  induction text generalizing s skip with
  | nil =>
    rw [scan_nil]
    exact Nat.le_add_right _ _
  | cons a text ih =>
    cases skip with
    | succ skip =>
      rw [List.length_cons, Nat.add_sub_add_right]
      exact ih s (Nat.le_of_succ_le_succ hskip)
    | zero =>
      obtain ⟨hwithin, hpos, hle⟩ := hstep s a text
      rw [scan_cons]
      cases hs : step s (a :: text) with
      | mk progress taken =>
        rw [hs] at hwithin hpos hle
        simp only at hwithin hpos hle
        cases progress with
        | closed r =>
          have hn : n r ≤ m s + taken := hwithin
          show n r ≤ m s + (text.length + 1 - 0)
          omega
        | opened s' =>
          have hm : m s' ≤ m s + taken := hwithin
          have hbound : m s' + (text.length - (taken - 1)) ≤ m s + (text.length + 1 - 0) := by omega
          exact (ih s' (show taken - 1 ≤ text.length by omega)).mono hbound

/-- What every step adds to a measure is what it takes at most; so does a run. -/
theorem read_within
    (hstep : ∀ s a text, Within m n (m s + (step s (a :: text)).2) (step s (a :: text)).1 ∧
      1 ≤ (step s (a :: text)).2 ∧ (step s (a :: text)).2 ≤ text.length + 1)
    (s : σ) (blocks : List (List α)) :
    Within m n (m s + blocks.flatten.length) (read step s blocks) := by
  induction blocks generalizing s with
  | nil => exact Nat.le_add_right _ _
  | cons block blocks ih =>
    have hblock := scan_within hstep s (Nat.zero_le block.length)
    rw [read_cons, List.flatten_cons, List.length_append]
    cases hs : scan step s 0 block with
    | closed r =>
      rw [hs] at hblock
      have hn : n r ≤ m s + (block.length - 0) := hblock
      show n r ≤ m s + (block.length + blocks.flatten.length)
      omega
    | opened s' =>
      rw [hs] at hblock
      have hm : m s' ≤ m s + (block.length - 0) := hblock
      have hbound : m s' + blocks.flatten.length ≤
          m s + (block.length + blocks.flatten.length) := by omega
      exact (ih s').mono hbound

end Machine

end ACENetwork.Library.Blocks
