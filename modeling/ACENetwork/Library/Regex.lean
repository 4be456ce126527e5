import Mathlib

/-!
# Regular expressions over classes of symbols

Patterns whose letters are classes of symbols, as scanner generators have them.
Derivatives find the longest prefix of an input that a pattern matches.
-/
namespace ACENetwork.Library

inductive Regex (α : Type*) where
  | never
  | empty
  | symbol (p : α → Bool)
  | or (r s : Regex α)
  | seq (r s : Regex α)
  | star (r : Regex α)

namespace Regex

variable {α : Type*}

def language : Regex α → Language α
  | never => 0
  | empty => 1
  | symbol p => {w | ∃ a, p a = true ∧ w = [a]}
  | or r s => r.language + s.language
  | seq r s => r.language * s.language
  | star r => KStar.kstar r.language

def nullable : Regex α → Bool
  | never => false
  | empty => true
  | symbol _ => false
  | or r s => r.nullable || s.nullable
  | seq r s => r.nullable && s.nullable
  | star _ => true

/-- Alternatives, without those that never match. -/
def mkOr : Regex α → Regex α → Regex α
  | never, s => s
  | r, never => r
  | r, s => or r s

/-- A sequence, without its trivial parts. -/
def mkSeq : Regex α → Regex α → Regex α
  | never, _ => never
  | empty, s => s
  | r, s => seq r s

def deriv (a : α) : Regex α → Regex α
  | never => never
  | empty => never
  | symbol p => if p a then empty else never
  | or r s => mkOr (r.deriv a) (s.deriv a)
  | seq r s =>
    if r.nullable then mkOr (mkSeq (r.deriv a) s) (s.deriv a) else mkSeq (r.deriv a) s
  | star r => mkSeq (r.deriv a) (star r)

def longest (r : Regex α) : List α → Option ℕ
  | [] => if r.nullable then some 0 else none
  | a :: w =>
    match (r.deriv a).longest w with
    | some n => some (n + 1)
    | none => if r.nullable then some 0 else none

/-- The first of the longest matches of some patterns: its length, and what its pattern is for. -/
def first {β : Type*} : List (Regex α × β) → List α → Option (ℕ × β)
  | [], _ => none
  | (r, b) :: rules, w =>
    match r.longest w, first rules w with
    | some n, some (m, c) => if m ≤ n then some (n, b) else some (m, c)
    | some n, none => some (n, b)
    | none, other => other

def plus (r : Regex α) : Regex α := seq r (star r)

def opt (r : Regex α) : Regex α := or r empty

def times : ℕ → Regex α → Regex α
  | 0, _ => empty
  | n + 1, r => seq r (times n r)

def range (least most : ℕ) (r : Regex α) : Regex α :=
  seq (times least r) (times (most - least) (opt r))

def word [DecidableEq α] : List α → Regex α
  | [] => empty
  | a :: w => seq (symbol (· == a)) (word w)

def anyOf : List (Regex α) → Regex α
  | [] => never
  | r :: rs => or r (anyOf rs)

def all : List (Regex α) → Regex α
  | [] => empty
  | r :: rs => seq r (all rs)

theorem mem_symbol {p : α → Bool} {w : List α} :
    w ∈ (symbol p).language ↔ ∃ a, p a = true ∧ w = [a] := Iff.rfl

theorem nullable_iff {r : Regex α} : r.nullable = true ↔ [] ∈ r.language := by
  induction r with
  | never => simp [nullable, language]
  | empty => simp [nullable, language]
  | symbol p => simp [nullable, mem_symbol]
  | or r s ihr ihs => simp [nullable, language, Language.mem_add, ihr, ihs]
  | seq r s ihr ihs => simp [nullable, language, Language.mem_mul, ihr, ihs]
  | star r => simp [nullable, language, Language.nil_mem_kstar]

theorem mkOr_language (r s : Regex α) : (mkOr r s).language = r.language + s.language := by
  unfold mkOr
  split <;> simp [language]

theorem mkSeq_language (r s : Regex α) : (mkSeq r s).language = r.language * s.language := by
  unfold mkSeq
  split <;> simp [language]

/-- A word of a product that begins with a symbol begins in the first factor, unless that is
empty. -/
theorem cons_mem_mul {l m : Language α} {a : α} {w : List α} :
    a :: w ∈ l * m ↔
      (∃ u v, a :: u ∈ l ∧ v ∈ m ∧ u ++ v = w) ∨ [] ∈ l ∧ a :: w ∈ m := by
  rw [Language.mem_mul]
  constructor
  · rintro ⟨u, hu, v, hv, huv⟩
    cases u with
    | nil =>
      cases huv
      exact Or.inr ⟨hu, hv⟩
    | cons b u =>
      cases huv
      exact Or.inl ⟨u, v, hu, hv, rfl⟩
  · rintro (⟨u, v, hu, hv, rfl⟩ | ⟨hnil, hw⟩)
    · exact ⟨a :: u, hu, v, hv, rfl⟩
    · exact ⟨[], hnil, a :: w, hw, rfl⟩

theorem cons_mem_kstar {l : Language α} {a : α} {w : List α} :
    a :: w ∈ KStar.kstar l ↔ ∃ u v, a :: u ∈ l ∧ v ∈ KStar.kstar l ∧ u ++ v = w := by
  constructor
  · intro h
    obtain ⟨parts, hw, hparts⟩ := Language.mem_kstar_iff_exists_nonempty.mp h
    cases parts with
    | nil => cases hw
    | cons part parts =>
      obtain ⟨hpart, hnil⟩ := hparts part List.mem_cons_self
      obtain ⟨b, u, rfl⟩ := List.exists_cons_of_ne_nil hnil
      cases hw
      exact ⟨u, parts.flatten, hpart,
        Language.join_mem_kstar fun y hy => (hparts y (List.mem_cons_of_mem _ hy)).1, rfl⟩
  · rintro ⟨u, v, hu, ⟨parts, rfl, hparts⟩, rfl⟩
    refine ⟨(a :: u) :: parts, rfl, fun y hy => ?_⟩
    rcases List.mem_cons.mp hy with rfl | hy
    · exact hu
    · exact hparts y hy

/-- The derivative has the words of the pattern that begin with the symbol, without it. -/
theorem mem_deriv {a : α} {r : Regex α} {w : List α} :
    w ∈ (r.deriv a).language ↔ a :: w ∈ r.language := by
  induction r generalizing w with
  | never => exact Iff.rfl
  | empty => simp [deriv, language]
  | symbol p =>
    rw [mem_symbol]
    by_cases h : p a = true
    · simp [deriv, language, h]
    · simp [deriv, language, h]
  | or r s ihr ihs => simp [deriv, mkOr_language, language, Language.mem_add, ihr, ihs]
  | seq r s ihr ihs =>
    have hseq : w ∈ (r.deriv a).language * s.language ↔
        ∃ u v, a :: u ∈ r.language ∧ v ∈ s.language ∧ u ++ v = w := by
      simp [Language.mem_mul, ihr]
    rw [language, cons_mem_mul, ← hseq]
    by_cases h : r.nullable = true
    · simp [deriv, h, mkOr_language, mkSeq_language, Language.mem_add, ihs, nullable_iff.1 h]
    · simp [deriv, h, mkSeq_language, mt nullable_iff.2 h]
  | star r ih =>
    rw [language, cons_mem_kstar, deriv, mkSeq_language, Language.mem_mul]
    simp [ih, language]

/-- A prefix of a length that matches, where there is none that is longer. -/
def IsLongest (r : Regex α) (w : List α) (n : ℕ) : Prop :=
  n ≤ w.length ∧ w.take n ∈ r.language ∧ ∀ m, n < m → m ≤ w.length → w.take m ∉ r.language

def NoPrefix (r : Regex α) (w : List α) : Prop := ∀ m, m ≤ w.length → w.take m ∉ r.language

theorem IsLongest.unique {r : Regex α} {w : List α} {m n : ℕ} (hm : r.IsLongest w m)
    (hn : r.IsLongest w n) : m = n := by
  by_contra h
  rcases lt_or_gt_of_ne h with hlt | hlt
  · exact hm.2.2 n hlt hn.1 hn.2.1
  · exact hn.2.2 m hlt hm.1 hm.2.1

theorem longest_spec (r : Regex α) (w : List α) :
    (∀ n, r.longest w = some n → r.IsLongest w n) ∧ (r.longest w = none → r.NoPrefix w) := by
  induction w generalizing r with
  | nil =>
    by_cases h : r.nullable = true
    · simp [longest, h, IsLongest, nullable_iff.1 h]
      omega
    · simp [longest, h, NoPrefix, mt nullable_iff.2 h]
  | cons a w ih =>
    obtain ⟨hsome, hnone⟩ := ih (r.deriv a)
    have hcons (m : ℕ) : (a :: w).take (m + 1) ∈ r.language ↔ w.take m ∈ (r.deriv a).language := by
      rw [mem_deriv]
      rfl
    have hempty (h : (r.deriv a).NoPrefix w) (m : ℕ) (hm : m ≤ (a :: w).length) (hpos : 0 < m) :
        (a :: w).take m ∉ r.language := by
      obtain ⟨m, rfl⟩ := Nat.exists_eq_succ_of_ne_zero hpos.ne'
      rw [hcons]
      exact h m (Nat.le_of_succ_le_succ hm)
    rw [longest]
    cases hlongest : (r.deriv a).longest w with
    | some k =>
      obtain ⟨hle, hmem, hmax⟩ := hsome k hlongest
      refine ⟨?_, by simp⟩
      rintro n ⟨⟩
      refine ⟨Nat.succ_le_succ hle, (hcons k).mpr hmem, fun m hm hlen => ?_⟩
      obtain ⟨m, rfl⟩ := Nat.exists_eq_succ_of_ne_zero (Nat.ne_zero_of_lt hm)
      rw [hcons]
      exact hmax m (Nat.lt_of_succ_lt_succ hm) (Nat.le_of_succ_le_succ hlen)
    | none =>
      have hrest := hempty (hnone hlongest)
      by_cases h : r.nullable = true
      · simp only [h, if_true]
        refine ⟨?_, by simp⟩
        rintro n ⟨⟩
        exact ⟨Nat.zero_le _, nullable_iff.1 h, fun m hm hlen => hrest m hlen hm⟩
      · simp only [h]
        refine ⟨by simp, fun _ m hm => ?_⟩
        rcases Nat.eq_zero_or_pos m with rfl | hpos
        · exact mt nullable_iff.2 h
        · exact hrest m hm hpos

def accepts (r : Regex α) (w : List α) : Bool := (w.foldl (fun r a => r.deriv a) r).nullable

theorem accepts_iff {r : Regex α} {w : List α} : r.accepts w = true ↔ w ∈ r.language := by
  induction w generalizing r with
  | nil => exact nullable_iff
  | cons a w ih => exact ih.trans mem_deriv

section Words

variable {r s : Regex α} {w : List α}

theorem mem_or : w ∈ (or r s).language ↔ w ∈ r.language ∨ w ∈ s.language := Iff.rfl

theorem mem_seq : w ∈ (seq r s).language ↔ ∃ u ∈ r.language, ∃ v ∈ s.language, u ++ v = w :=
  Language.mem_mul

theorem mem_empty : w ∈ (empty : Regex α).language ↔ w = [] := Language.mem_one w

theorem mem_opt : w ∈ (opt r).language ↔ w = [] ∨ w ∈ r.language := by
  rw [opt, mem_or, mem_empty, or_comm]

theorem mem_word [DecidableEq α] {v : List α} : w ∈ (word v).language ↔ w = v := by
  induction v generalizing w with
  | nil => exact mem_empty
  | cons a v ih =>
    rw [word, mem_seq]
    constructor
    · rintro ⟨_, ⟨b, hb, rfl⟩, u, hu, rfl⟩
      rw [ih.mp hu, eq_of_beq hb]
      rfl
    · rintro rfl
      exact ⟨[a], ⟨a, BEq.rfl, rfl⟩, v, ih.mpr rfl, rfl⟩

theorem mem_anyOf {rs : List (Regex α)} : w ∈ (anyOf rs).language ↔ ∃ r ∈ rs, w ∈ r.language := by
  induction rs with
  | nil =>
    rw [anyOf]
    exact iff_of_false (Language.notMem_zero w) (by simp)
  | cons r rs ih => rw [anyOf, mem_or, ih, List.exists_mem_cons_iff]

theorem mem_times {n : ℕ} : w ∈ (times n r).language ↔
    ∃ ws : List (List α), ws.length = n ∧ (∀ v ∈ ws, v ∈ r.language) ∧ w = ws.flatten := by
  induction n generalizing w with
  | zero =>
    rw [times, mem_empty]
    constructor
    · rintro rfl
      exact ⟨[], rfl, by simp, rfl⟩
    · rintro ⟨ws, hlength, -, rfl⟩
      rw [List.length_eq_zero_iff.mp hlength, List.flatten_nil]
  | succ n ih =>
    rw [times, mem_seq]
    constructor
    · rintro ⟨u, hu, v, hv, rfl⟩
      obtain ⟨ws, hlength, hws, rfl⟩ := ih.mp hv
      exact ⟨u :: ws, by rw [List.length_cons, hlength], List.forall_mem_cons.mpr ⟨hu, hws⟩, rfl⟩
    · rintro ⟨ws, hlength, hws, rfl⟩
      obtain ⟨u, ws, rfl⟩ := List.exists_cons_of_length_eq_add_one hlength
      obtain ⟨hu, hws⟩ := List.forall_mem_cons.mp hws
      exact ⟨u, hu, ws.flatten, ih.mpr ⟨ws, by simpa using hlength, hws, rfl⟩, rfl⟩

theorem mem_times_opt {n : ℕ} : w ∈ (times n (opt r)).language ↔
    ∃ ws : List (List α), ws.length ≤ n ∧ (∀ v ∈ ws, v ∈ r.language) ∧ w = ws.flatten := by
  induction n generalizing w with
  | zero =>
    rw [times, mem_empty]
    constructor
    · rintro rfl
      exact ⟨[], le_rfl, by simp, rfl⟩
    · rintro ⟨ws, hlength, -, rfl⟩
      rw [List.length_eq_zero_iff.mp (Nat.le_zero.mp hlength), List.flatten_nil]
  | succ n ih =>
    rw [times, mem_seq]
    constructor
    · rintro ⟨u, hu, v, hv, rfl⟩
      obtain ⟨ws, hlength, hws, rfl⟩ := ih.mp hv
      rcases mem_opt.1 hu with rfl | hu
      · exact ⟨ws, Nat.le_succ_of_le hlength, hws, rfl⟩
      · exact ⟨u :: ws, Nat.succ_le_succ hlength, List.forall_mem_cons.mpr ⟨hu, hws⟩, rfl⟩
    · rintro ⟨ws, hlength, hws, rfl⟩
      cases ws with
      | nil => exact ⟨[], mem_opt.2 (.inl rfl), [], ih.mpr ⟨[], Nat.zero_le _, by simp, rfl⟩, rfl⟩
      | cons u ws =>
        obtain ⟨hu, hws⟩ := List.forall_mem_cons.mp hws
        exact ⟨u, mem_opt.2 (.inr hu), ws.flatten,
          ih.mpr ⟨ws, Nat.le_of_succ_le_succ hlength, hws, rfl⟩, rfl⟩

theorem mem_range {least most : ℕ} (h : least ≤ most) : w ∈ (range least most r).language ↔
    ∃ ws : List (List α), least ≤ ws.length ∧ ws.length ≤ most ∧ (∀ v ∈ ws, v ∈ r.language) ∧
      w = ws.flatten := by
  rw [range, mem_seq]
  constructor
  · rintro ⟨u, hu, v, hv, rfl⟩
    obtain ⟨us, hus, hr, rfl⟩ := mem_times.1 hu
    obtain ⟨vs, hvs, hr', rfl⟩ := mem_times_opt.1 hv
    refine ⟨us ++ vs, ?_, ?_, ?_, List.flatten_append.symm⟩
    · rw [List.length_append]
      omega
    · rw [List.length_append]
      omega
    · exact List.forall_mem_append.mpr ⟨hr, hr'⟩
  · rintro ⟨ws, hleast, hmost, hr, rfl⟩
    refine ⟨(ws.take least).flatten, mem_times.2 ⟨_, List.length_take_of_le hleast, ?_, rfl⟩,
      (ws.drop least).flatten, mem_times_opt.2 ⟨_, ?_, ?_, rfl⟩, ?_⟩
    · exact fun v hv => hr v (List.mem_of_mem_take hv)
    · rw [List.length_drop]
      omega
    · exact fun v hv => hr v (List.mem_of_mem_drop hv)
    · rw [← List.flatten_append, List.take_append_drop]

/-- A pattern a number of times whose words are those of some parts. -/
theorem mem_range_map {β : Type*} {f : β → List α} {P : β → Prop}
    (hr : ∀ v, v ∈ r.language ↔ ∃ b, P b ∧ v = f b) {least most : ℕ} (h : least ≤ most) :
    w ∈ (range least most r).language ↔ ∃ bs : List β, least ≤ bs.length ∧ bs.length ≤ most ∧
      (∀ b ∈ bs, P b) ∧ w = bs.flatMap f := by
  rw [mem_range h]
  constructor
  · rintro ⟨ws, hleast, hmost, hws, rfl⟩
    obtain ⟨bs, hP, rfl⟩ : ∃ bs : List β, (∀ b ∈ bs, P b) ∧ ws = bs.map f := by
      clear hleast hmost
      induction ws with
      | nil => exact ⟨[], by simp, rfl⟩
      | cons v ws ih =>
        obtain ⟨hv, hrest⟩ := List.forall_mem_cons.mp hws
        obtain ⟨b, hb, rfl⟩ := (hr v).mp hv
        obtain ⟨bs, hbs, rfl⟩ := ih hrest
        exact ⟨b :: bs, List.forall_mem_cons.mpr ⟨hb, hbs⟩, rfl⟩
    rw [List.length_map] at hleast hmost
    exact ⟨bs, hleast, hmost, hP, rfl⟩
  · rintro ⟨bs, hleast, hmost, hP, rfl⟩
    refine ⟨bs.map f, by simpa using hleast, by simpa using hmost, fun v hv => ?_, rfl⟩
    obtain ⟨b, hb, rfl⟩ := List.mem_map.mp hv
    exact (hr _).mpr ⟨b, hP b hb, rfl⟩

theorem mem_range_symbol {least most : ℕ} {p : α → Bool} (h : least ≤ most) :
    w ∈ (range least most (symbol p)).language ↔
      least ≤ w.length ∧ w.length ≤ most ∧ ∀ a ∈ w, p a = true := by
  rw [mem_range h]
  constructor
  · rintro ⟨ws, hleast, hmost, hws, rfl⟩
    have hsum : ws.flatten.length = ws.length := by
      rw [List.length_flatten, List.map_congr_left (g := fun _ => 1) fun v hv => ?_]
      · simp
      · obtain ⟨a, -, rfl⟩ := hws v hv
        rfl
    refine ⟨hsum.symm ▸ hleast, hsum.symm ▸ hmost, fun a ha => ?_⟩
    obtain ⟨v, hv, hav⟩ := List.mem_flatten.mp ha
    obtain ⟨b, hb, rfl⟩ := hws v hv
    rwa [List.mem_singleton.mp hav]
  · rintro ⟨hleast, hmost, hp⟩
    refine ⟨w.map fun a => [a], by simpa using hleast, by simpa using hmost, ?_, ?_⟩
    · rintro v hv
      obtain ⟨a, ha, rfl⟩ := List.mem_map.mp hv
      exact ⟨a, hp a ha, rfl⟩
    · rw [← List.flatMap_def, List.flatMap_singleton']

theorem mem_star_symbol {p : α → Bool} :
    w ∈ (star (symbol p)).language ↔ ∀ a ∈ w, p a = true := by
  constructor
  · rintro ⟨ws, rfl, hws⟩ a ha
    obtain ⟨v, hv, hav⟩ := List.mem_flatten.mp ha
    obtain ⟨b, hb, rfl⟩ := hws v hv
    rwa [List.mem_singleton.mp hav]
  · intro hp
    refine ⟨w.map fun a => [a], ?_, fun v hv => ?_⟩
    · rw [← List.flatMap_def, List.flatMap_singleton']
    · obtain ⟨a, ha, rfl⟩ := List.mem_map.mp hv
      exact ⟨a, hp a ha, rfl⟩

theorem mem_plus_symbol {p : α → Bool} :
    w ∈ (plus (symbol p)).language ↔ w ≠ [] ∧ ∀ a ∈ w, p a = true := by
  rw [plus, mem_seq]
  constructor
  · rintro ⟨_, ⟨a, ha, rfl⟩, v, hv, rfl⟩
    exact ⟨by simp, List.forall_mem_cons.mpr ⟨ha, mem_star_symbol.1 hv⟩⟩
  · rintro ⟨hnil, hp⟩
    obtain ⟨a, v, rfl⟩ := List.exists_cons_of_ne_nil hnil
    obtain ⟨ha, hv⟩ := List.forall_mem_cons.mp hp
    exact ⟨[a], ⟨a, ha, rfl⟩, v, mem_star_symbol.2 hv, rfl⟩

def Over (p : α → Prop) : Regex α → Prop
  | never => True
  | empty => True
  | symbol q => ∀ a, q a = true → p a
  | or r s => r.Over p ∧ s.Over p
  | seq r s => r.Over p ∧ s.Over p
  | star r => r.Over p

instance Over.decidable {p : α → Prop}
    [∀ q : α → Bool, Decidable (∀ a, q a = true → p a)] : (r : Regex α) → Decidable (r.Over p)
  | never => .isTrue trivial
  | empty => .isTrue trivial
  | symbol _ => inferInstanceAs (Decidable (∀ a, _ → p a))
  | or r s => @instDecidableAnd _ _ (Over.decidable r) (Over.decidable s)
  | seq r s => @instDecidableAnd _ _ (Over.decidable r) (Over.decidable s)
  | star r => Over.decidable r

theorem Over.mem {p : α → Prop} (h : r.Over p) (hw : w ∈ r.language) : ∀ a ∈ w, p a := by
  induction r generalizing w with
  | never => exact absurd hw (Language.notMem_zero w)
  | empty =>
    obtain rfl := mem_empty.1 hw
    simp
  | symbol q =>
    obtain ⟨a, ha, rfl⟩ := hw
    exact List.forall_mem_singleton.mpr (h a ha)
  | or r s ihr ihs => exact hw.elim (ihr h.1) (ihs h.2)
  | seq r s ihr ihs =>
    obtain ⟨u, hu, v, hv, rfl⟩ := mem_seq.1 hw
    exact List.forall_mem_append.mpr ⟨ihr h.1 hu, ihs h.2 hv⟩
  | star r ih =>
    obtain ⟨ws, rfl, hws⟩ := hw
    intro a ha
    obtain ⟨v, hv, hav⟩ := List.mem_flatten.mp ha
    exact ih h (hws v hv) a hav

end Words

theorem longest_eq_some {r : Regex α} {w : List α} {n : ℕ} :
    r.longest w = some n ↔ r.IsLongest w n := by
  refine ⟨(longest_spec r w).1 n, fun h => ?_⟩
  cases hlongest : r.longest w with
  | none => exact absurd h.2.1 ((longest_spec r w).2 hlongest n h.1)
  | some m => rw [((longest_spec r w).1 m hlongest).unique h]

theorem longest_eq_none {r : Regex α} {w : List α} : r.longest w = none ↔ r.NoPrefix w := by
  refine ⟨(longest_spec r w).2, fun h => ?_⟩
  cases hlongest : r.longest w with
  | none => rfl
  | some m =>
    have hm := (longest_spec r w).1 m hlongest
    exact absurd hm.2.1 (h m hm.1)

theorem longest_le {r : Regex α} {w : List α} {n : ℕ} (h : r.longest w = some n) :
    n ≤ w.length :=
  (longest_eq_some.1 h).1

theorem longest_mem {r : Regex α} {w : List α} {n : ℕ} (h : r.longest w = some n) :
    w.take n ∈ r.language :=
  (longest_eq_some.1 h).2.1

/-- A pattern that does not match the empty word takes something. -/
theorem longest_pos {r : Regex α} {w : List α} {n : ℕ} (hr : r.nullable = false)
    (h : r.longest w = some n) : 0 < n := by
  refine Nat.pos_of_ne_zero ?_
  rintro rfl
  exact Bool.false_ne_true (hr.symm.trans (nullable_iff.2 (longest_mem h)))

theorem first_some {β : Type*} {rules : List (Regex α × β)} {w : List α} {n : ℕ} {b : β}
    (h : first rules w = some (n, b)) : ∃ r, (r, b) ∈ rules ∧ r.longest w = some n := by
  induction rules with
  | nil => cases h
  | cons rule rules ih =>
    obtain ⟨r, c⟩ := rule
    rw [first] at h
    cases hr : r.longest w with
    | none =>
      rw [hr] at h
      obtain ⟨s, hs, hlongest⟩ := ih h
      exact ⟨s, List.mem_cons_of_mem _ hs, hlongest⟩
    | some k =>
      cases hrules : first rules w with
      | none =>
        rw [hr, hrules] at h
        cases h
        exact ⟨r, List.mem_cons_self, hr⟩
      | some other =>
        rw [hr, hrules] at h
        dsimp only at h
        split_ifs at h
        · cases h
          exact ⟨r, List.mem_cons_self, hr⟩
        · cases h
          obtain ⟨s, hs, hlongest⟩ := ih hrules
          exact ⟨s, List.mem_cons_of_mem _ hs, hlongest⟩

section Prefixes
variable {r : Regex α} {w w' : List α} {n : ℕ}

theorem longest_of_front (hfront : w' <+: w) (h : r.longest w = some n) (hn : n ≤ w'.length) :
    r.longest w' = some n := by
  obtain ⟨u, rfl⟩ := hfront
  obtain ⟨-, hmem, hmax⟩ := longest_eq_some.1 h
  refine longest_eq_some.2 ⟨hn, by rwa [List.take_append_of_le_length hn] at hmem, fun m hm hle => ?_⟩
  have hnot := hmax m hm (by rw [List.length_append]; omega)
  rwa [List.take_append_of_le_length hle] at hnot

theorem longest_none_of_front (hfront : w' <+: w) (h : r.longest w = none) :
    r.longest w' = none := by
  obtain ⟨u, rfl⟩ := hfront
  refine longest_eq_none.2 fun m hm hmem => longest_eq_none.1 h m ?_ ?_
  · rw [List.length_append]
    omega
  · rwa [List.take_append_of_le_length hm]

theorem first_none_of_front {β : Type*} {rules : List (Regex α × β)} (hfront : w' <+: w)
    (h : first rules w = none) : first rules w' = none := by
  induction rules with
  | nil => rfl
  | cons rule rules ih =>
    obtain ⟨r, b⟩ := rule
    rw [first] at h ⊢
    cases hr : r.longest w with
    | none =>
      rw [hr] at h
      rw [longest_none_of_front hfront hr]
      exact ih h
    | some k =>
      cases hrules : first rules w with
      | none =>
        rw [hr, hrules] at h
        cases h
      | some other =>
        rw [hr, hrules] at h
        dsimp only at h
        split_ifs at h

theorem first_of_front {β : Type*} {rules : List (Regex α × β)} {b : β} (hfront : w' <+: w)
    (h : first rules w = some (n, b)) (hn : n ≤ w'.length) : first rules w' = some (n, b) := by
  induction rules generalizing n b with
  | nil => cases h
  | cons rule rules ih =>
    obtain ⟨r, c⟩ := rule
    rw [first] at h ⊢
    cases hr : r.longest w with
    | none =>
      rw [hr] at h
      rw [longest_none_of_front hfront hr]
      exact ih h hn
    | some k =>
      cases hrules : first rules w with
      | none =>
        rw [hr, hrules] at h
        cases h
        rw [longest_of_front hfront hr hn, first_none_of_front hfront hrules]
      | some other =>
        obtain ⟨m, d⟩ := other
        rw [hr, hrules] at h
        dsimp only at h
        split_ifs at h with hle
        · cases h
          rw [longest_of_front hfront hr hn, ih hrules (hle.trans hn)]
          exact if_pos hle
        · cases h
          rw [longest_of_front hfront hr (by omega), ih hrules hn]
          exact if_neg hle

end Prefixes

end Regex

end ACENetwork.Library
