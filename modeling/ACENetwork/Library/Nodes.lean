import Mathlib

/-!
# Lists of nodes

A list whose elements keep their place in memory. An iterator is the key of a node, or the end;
it stays valid until its own node is erased, whatever happens to the others. Keys are not used
again.
-/
namespace ACENetwork.Library

structure Nodes (α : Type*) where
  entries : List (ℕ × α)
  fresh : ℕ
  nodup : (entries.map Prod.fst).Nodup
  lt_fresh : ∀ e ∈ entries, e.1 < fresh

namespace Nodes

variable {α : Type*} {l : Nodes α} {it : Option ℕ} {j k : ℕ} {x : α}

def ofList (values : List α) : Nodes α where
  entries := values.zipIdx.map Prod.swap
  fresh := values.length
  nodup := by
    have hkeys : (values.zipIdx.map Prod.swap).map Prod.fst = List.range' 0 values.length := by
      rw [List.map_map]
      exact List.zipIdx_map_snd 0 values
    rw [hkeys]
    exact List.nodup_range'
  lt_fresh := by
    intro e he
    obtain ⟨⟨x, n⟩, hmem, rfl⟩ := List.mem_map.mp he
    exact (List.mem_zipIdx' hmem).1

def values (l : Nodes α) : List α := l.entries.map Prod.snd

/-- `begin ()`. -/
def first (l : Nodes α) : Option ℕ := l.entries.head?.map Prod.fst

def ahead (l : Nodes α) : Option ℕ → List (ℕ × α)
  | none => []
  | some k => l.entries.dropWhile (·.1 != k)

/-- What an iterator refers to; nothing if it is the end or has been invalidated. -/
def value? (l : Nodes α) (it : Option ℕ) : Option α := (l.ahead it).head?.map Prod.snd

def next (l : Nodes α) (k : ℕ) : Option ℕ := (l.ahead (some k)).tail.head?.map Prod.fst

def find? (l : Nodes α) (p : α → Bool) : Option ℕ := (l.entries.find? (p ·.2)).map Prod.fst

def pushBack (l : Nodes α) (x : α) : Nodes α where
  entries := l.entries ++ [(l.fresh, x)]
  fresh := l.fresh + 1
  nodup := by
    rw [List.map_append, List.nodup_append]
    refine ⟨l.nodup, List.nodup_singleton _, ?_⟩
    rintro _ hmem _ hfresh rfl
    obtain ⟨e, he, heq⟩ := List.mem_map.mp hmem
    exact (l.lt_fresh e he).ne (heq.trans (List.mem_singleton.mp hfresh))
  lt_fresh := by
    intro e he
    rcases List.mem_append.mp he with he | he
    · exact (l.lt_fresh e he).trans (Nat.lt_succ_self _)
    · rw [List.mem_singleton.mp he]
      exact Nat.lt_succ_self _

def erase (l : Nodes α) (k : ℕ) : Nodes α where
  entries := l.entries.filter (·.1 != k)
  fresh := l.fresh
  nodup := l.nodup.sublist (List.filter_sublist.map _)
  lt_fresh := fun e he => l.lt_fresh e (List.mem_of_mem_filter he)

def IsValid (l : Nodes α) (it : Option ℕ) : Prop := ∀ k ∈ it, ∃ e ∈ l.entries, e.1 = k

@[simp] theorem isValid_none : l.IsValid none := by
  rintro k ⟨⟩

theorem isValid_some : l.IsValid (some k) ↔ ∃ e ∈ l.entries, e.1 = k := by
  simp [IsValid]

@[simp] theorem ahead_none : l.ahead none = [] := rfl

theorem ahead_some (l : Nodes α) (k : ℕ) :
    l.ahead (some k) = l.entries.dropWhile (·.1 != k) := rfl

theorem mem_of_mem_ahead {e : ℕ × α} (h : e ∈ l.ahead it) : e ∈ l.entries := by
  cases it with
  | none => cases h
  | some k => exact (List.dropWhile_suffix _).subset h

theorem ahead_first : l.ahead l.first = l.entries := by
  unfold first
  cases h : l.entries with
  | nil => rfl
  | cons e rest => simp [ahead, h]

theorem first_isValid : l.IsValid l.first := by
  unfold first
  cases h : l.entries with
  | nil => exact isValid_none
  | cons e rest => exact isValid_some.2 ⟨e, by simp [h], rfl⟩

theorem ahead_cons (h : l.IsValid (some k)) :
    ∃ x rest, l.ahead (some k) = (k, x) :: rest := by
  obtain ⟨e, he, rfl⟩ := isValid_some.1 h
  cases hahead : l.ahead (some e.1) with
  | nil =>
    have hall := List.dropWhile_eq_nil_iff.mp hahead e he
    simp at hall
  | cons e' rest =>
    have hhead := List.head?_dropWhile_not (fun e' => e'.1 != e.1) l.entries
    rw [show l.entries.dropWhile (fun e' => e'.1 != e.1) = e' :: rest from hahead] at hhead
    obtain ⟨k', x⟩ := e'
    obtain rfl : k' = e.1 := by simpa using hhead
    exact ⟨x, rest, rfl⟩

theorem value?_isSome : (l.value? (some k)).isSome ↔ l.IsValid (some k) := by
  constructor
  · intro h
    unfold value? ahead at h
    cases hahead : l.entries.dropWhile (·.1 != k) with
    | nil => simp [hahead] at h
    | cons e rest =>
      have hhead := List.head?_dropWhile_not (fun e' => e'.1 != k) l.entries
      have hmem : e ∈ l.entries := (List.dropWhile_suffix _).subset (hahead ▸ List.mem_cons_self)
      rw [hahead] at hhead
      exact isValid_some.2 ⟨e, hmem, by simpa using hhead⟩
  · intro h
    obtain ⟨x, rest, hahead⟩ := ahead_cons h
    simp [value?, hahead]

theorem value?_of_ahead {rest : List (ℕ × α)} (h : l.ahead it = (k, x) :: rest) :
    l.value? it = some x := by
  simp [value?, h]

theorem ahead_next {rest : List (ℕ × α)} (h : l.ahead (some k) = (k, x) :: rest) :
    l.ahead (l.next k) = rest ∧ l.IsValid (l.next k) := by
  have hsplit : l.entries = l.entries.takeWhile (·.1 != k) ++ (k, x) :: rest := by
    rw [← h]
    exact (List.takeWhile_append_dropWhile).symm
  cases rest with
  | nil => simp [next, h]
  | cons e rest =>
    have hnext : l.next k = some e.1 := by simp [next, h]
    have hmem : e ∈ l.entries := by
      rw [hsplit]
      simp
    refine ⟨?_, hnext ▸ isValid_some.2 ⟨e, hmem, rfl⟩⟩
    have hnodup := l.nodup
    rw [hsplit, List.append_cons, List.map_append, List.nodup_append] at hnodup
    have hfront : ∀ e' ∈ l.entries.takeWhile (·.1 != k) ++ [(k, x)], (e'.1 != e.1) = true := by
      intro e' he'
      exact bne_iff_ne.mpr (hnodup.2.2 _ (List.mem_map_of_mem he') _ (by simp))
    rw [hnext, ahead, hsplit, List.append_cons, List.dropWhile_append_of_pos hfront]
    simp

theorem ahead_pushBack (h : l.IsValid (some k)) :
    (l.pushBack x).ahead (some k) = l.ahead (some k) ++ [(l.fresh, x)] := by
  obtain ⟨y, rest, hahead⟩ := ahead_cons h
  rw [ahead_some] at hahead
  rw [ahead_some, ahead_some, pushBack, List.dropWhile_append, hahead]
  rfl

theorem IsValid.pushBack (h : l.IsValid it) : (l.pushBack x).IsValid it := by
  intro k hk
  obtain ⟨e, he, hkey⟩ := h k hk
  exact ⟨e, List.mem_append_left _ he, hkey⟩

theorem ahead_erase (h : k ≠ j) :
    (l.erase j).ahead (some k) = (l.ahead (some k)).filter (·.1 != j) := by
  rw [ahead_some, ahead_some, erase]
  dsimp only
  induction l.entries with
  | nil => rfl
  | cons e entries ih =>
    by_cases hk : e.1 = k
    · simp [hk, h]
    · rw [List.dropWhile_cons, if_pos (bne_iff_ne.mpr hk), ← ih, List.filter_cons]
      by_cases hj : e.1 = j
      · rw [if_neg (by simp [hj])]
      · rw [if_pos (bne_iff_ne.mpr hj), List.dropWhile_cons, if_pos (bne_iff_ne.mpr hk)]

theorem isValid_erase (h : l.IsValid (some k)) : (l.erase j).IsValid (some k) ↔ k ≠ j := by
  obtain ⟨e, he, rfl⟩ := isValid_some.1 h
  rw [isValid_some]
  constructor
  · rintro ⟨e', he', hkey⟩
    have hne := (List.mem_filter.mp he').2
    rw [hkey] at hne
    exact bne_iff_ne.mp hne
  · intro hne
    exact ⟨e, List.mem_filter.mpr ⟨he, bne_iff_ne.mpr hne⟩, rfl⟩

/-- The node that is found has a value of the kind, and no other node has its key. -/
theorem find?_some {p : α → Bool} (h : l.find? p = some j) :
    ∀ e ∈ l.entries, e.1 = j → p e.2 = true := by
  obtain ⟨e', he', rfl⟩ := Option.map_eq_some_iff.mp h
  intro e he hkey
  have hinj := List.inj_on_of_nodup_map l.nodup he (List.mem_of_find?_eq_some he') hkey
  rw [hinj]
  simpa using List.find?_some he'

theorem not_isValid_pushBack (hlt : k < l.fresh) (h : ¬ l.IsValid (some k)) :
    ¬ (l.pushBack x).IsValid (some k) := by
  rw [isValid_some] at h ⊢
  rintro ⟨e, he, hkey⟩
  rcases List.mem_append.mp he with he | he
  · exact h ⟨e, he, hkey⟩
  · rw [List.mem_singleton.mp he] at hkey
    exact hlt.ne hkey.symm

theorem not_isValid_erase (h : ¬ l.IsValid (some k)) : ¬ (l.erase j).IsValid (some k) := by
  rw [isValid_some] at h ⊢
  rintro ⟨e, he, hkey⟩
  exact h ⟨e, List.mem_of_mem_filter he, hkey⟩

theorem IsValid.lt_fresh (h : l.IsValid (some k)) : k < l.fresh := by
  obtain ⟨e, he, rfl⟩ := isValid_some.1 h
  exact l.lt_fresh e he

end Nodes
end ACENetwork.Library
