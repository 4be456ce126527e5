import Mathlib

/-!
# Flags and their updates

A set of flags is updated by a list of flags with the values that they get. What a flag is in
the end and how often the flags have changed are told apart flag by flag.
-/
namespace ACENetwork.Library.Flags

variable {κ : Type*} [DecidableEq κ]

def set (current : Finset κ) (update : κ × Bool) : Finset κ :=
  if update.2 then insert update.1 current else current.erase update.1

def apply (current : Finset κ) (updates : List (κ × Bool)) : Finset κ := updates.foldl set current

def changes (current : Finset κ) : List (κ × Bool) → ℕ
  | [] => 0
  | update :: updates =>
    (if decide (update.1 ∈ current) = update.2 then 0 else 1) + changes (set current update) updates

def values (key : κ) (updates : List (κ × Bool)) : List Bool :=
  (updates.filter fun update => update.1 = key).map Prod.snd

def uniform (value : Bool) (updates : List (κ × Bool)) : List (κ × Bool) :=
  updates.map fun update => (update.1, value)

def switches (value : Bool) : List Bool → ℕ
  | [] => 0
  | next :: values => (if value = next then 0 else 1) + switches next values

variable {current : Finset κ} {updates : List (κ × Bool)} {key : κ} {v s : Bool} {as : List Bool}

section Flagwise

theorem mem_set (update : κ × Bool) :
    key ∈ set current update ↔ if update.1 = key then update.2 = true else key ∈ current := by
  obtain ⟨key', value⟩ := update
  cases value with
  | false =>
    by_cases h : key' = key
    · simp [set, h]
    · simp [set, h, Ne.symm h]
  | true =>
    by_cases h : key' = key
    · simp [set, h]
    · simp [set, h, Ne.symm h]

theorem values_cons_self (value : Bool) (updates : List (κ × Bool)) :
    values key ((key, value) :: updates) = value :: values key updates := by
  simp [values]

theorem values_cons_ne {update : κ × Bool} (h : update.1 ≠ key) (updates : List (κ × Bool)) :
    values key (update :: updates) = values key updates := by
  simp [values, h]

theorem values_append (front rest : List (κ × Bool)) :
    values key (front ++ rest) = values key front ++ values key rest := by
  simp [values]

theorem mem_values : v ∈ values key updates ↔ (key, v) ∈ updates := by
  simp only [values, List.mem_map, List.mem_filter, decide_eq_true_eq]
  constructor
  · rintro ⟨update, ⟨hin, rfl⟩, rfl⟩
    exact hin
  · intro hin
    exact ⟨(key, v), ⟨hin, rfl⟩, rfl⟩

theorem values_uniform (value : Bool) (updates : List (κ × Bool)) :
    values key (uniform value updates) = (values key updates).map fun _ => value := by
  simp only [values, uniform, List.filter_map, List.map_map]
  rfl

theorem mem_apply (current : Finset κ) (updates : List (κ × Bool)) (key : κ) :
    key ∈ apply current updates ↔
      (values key updates).getLastD (decide (key ∈ current)) = true := by
  induction updates generalizing current with
  | nil => simp [apply, values]
  | cons update updates ih =>
    obtain ⟨key', value⟩ := update
    have hstep := ih (set current (key', value))
    rw [apply] at hstep ⊢
    rw [List.foldl_cons, hstep]
    by_cases h : key' = key
    · subst h
      rw [values_cons_self, List.getLastD_cons]
      simp [mem_set]
    · rw [values_cons_ne h]
      simp [mem_set, h]

theorem changes_eq_sum {keys : Finset κ} (hkeys : ∀ update ∈ updates, update.1 ∈ keys) :
    changes current updates =
      ∑ key ∈ keys, switches (decide (key ∈ current)) (values key updates) := by
  induction updates generalizing current with
  | nil => simp [changes, values, switches]
  | cons update updates ih =>
    obtain ⟨key', value⟩ := update
    obtain ⟨hkey', htail⟩ := List.forall_mem_cons.mp hkeys
    have hothers (key : κ) (h : key ∈ keys.erase key') :
        switches (decide (key ∈ set current (key', value))) (values key updates) =
          switches (decide (key ∈ current)) (values key ((key', value) :: updates)) := by
      have hne : key' ≠ key := fun heq => Finset.ne_of_mem_erase h heq.symm
      rw [values_cons_ne hne]
      simp [mem_set, hne]
    have hself : decide (key' ∈ set current (key', value)) = value := by
      simp [mem_set]
    rw [changes, ih htail, ← Finset.add_sum_erase _ _ hkey', ← Finset.add_sum_erase keys _ hkey',
      Finset.sum_congr rfl hothers, hself, values_cons_self, switches, Nat.add_assoc]

end Flagwise

section Uniform

theorem switches_eq_zero : switches s as = 0 ↔ ∀ a ∈ as, a = s := by
  induction as generalizing s with
  | nil => simp [switches]
  | cons a as ih =>
    rw [switches, Nat.add_eq_zero_iff, ih, List.forall_mem_cons]
    by_cases h : s = a
    · subst h
      simp
    · simp [h, Ne.symm h]

theorem getLastD_of_switches (h : switches s as = 0) : as.getLastD s = s := by
  cases as with
  | nil => rfl
  | cons a as =>
    rw [List.getLastD_cons]
    exact switches_eq_zero.1 h _ List.getLastD_mem_cons

theorem switches_const (v s : Bool) (as : List Bool) :
    switches v (as.map fun _ => s) = if as = [] ∨ v = s then 0 else 1 := by
  cases as with
  | nil => simp [switches]
  | cons a as =>
    have hrest : switches s (as.map fun _ => s) = 0 := by simp [switches_eq_zero]
    rw [List.map_cons, switches, hrest]
    simp

theorem getLastD_const (v s : Bool) (as : List Bool) :
    (as.map fun _ => s).getLastD v = if as = [] then v else s := by
  induction as generalizing v with
  | nil => rfl
  | cons a as ih =>
    rw [List.map_cons, List.getLastD_cons, ih]
    simp

theorem switches_pos (hlast : as.getLastD v = s) (hne : v ≠ s) : 1 ≤ switches v as := by
  rw [Nat.one_le_iff_ne_zero]
  intro hzero
  exact hne ((getLastD_of_switches hzero).symm.trans hlast)

/-- The updates with the other value change nothing and are followed by ones with the value. -/
def Settles (v s : Bool) (as : List Bool) : Prop :=
  ∀ front rest, as = front ++ (!s) :: rest → v = !s ∧ s ∉ front ∧ s ∈ rest

theorem settles_cons_self : Settles v s (s :: as) ↔ ∀ a ∈ as, a = s := by
  constructor
  · intro h a ha
    by_contra hne
    obtain ⟨front, rest, rfl⟩ := List.append_of_mem ha
    obtain rfl : a = !s := Bool.eq_not_iff.mpr hne
    exact (h (s :: front) rest rfl).2.1 List.mem_cons_self
  · intro h front rest heq
    have hin : (!s) ∈ s :: as := by simp [heq]
    rcases List.mem_cons.mp hin with hs | hrest
    · simp at hs
    · simpa using h _ hrest

theorem settles_cons_not :
    Settles v s ((!s) :: as) ↔ v = (!s) ∧ s ∈ as ∧ Settles (!s) s as := by
  constructor
  · intro h
    obtain ⟨hv, -, hin⟩ := h [] as rfl
    refine ⟨hv, hin, fun front rest heq => ?_⟩
    obtain ⟨-, hfront, hrest⟩ := h ((!s) :: front) rest (by rw [heq]; rfl)
    exact ⟨rfl, fun hmem => hfront (List.mem_cons_of_mem _ hmem), hrest⟩
  · rintro ⟨rfl, hin, h⟩ front rest heq
    cases front with
    | nil =>
      obtain ⟨-, rfl⟩ := List.cons.inj heq
      exact ⟨rfl, List.not_mem_nil, hin⟩
    | cons a front =>
      rw [List.cons_append] at heq
      obtain ⟨rfl, htail⟩ := List.cons.inj heq
      obtain ⟨-, hfront, hrest⟩ := h front rest htail
      refine ⟨rfl, ?_, hrest⟩
      rw [List.mem_cons, not_or]
      exact ⟨by simp, hfront⟩

/-- A flag ends up and switches as if it had got one value only. -/
theorem settles_iff : Settles v s as ↔
    as.getLastD v = (as.map fun _ => s).getLastD v ∧
      switches v as = switches v (as.map fun _ => s) := by
  rw [getLastD_const, switches_const]
  induction as generalizing v with
  | nil => simp [Settles, switches]
  | cons a as ih =>
    rw [List.getLastD_cons, switches, if_neg (List.cons_ne_nil a as)]
    by_cases ha : a = s
    · subst ha
      rw [settles_cons_self, ← switches_eq_zero]
      have hlast : switches a as = 0 → as.getLastD a = a := getLastD_of_switches
      by_cases hv : v = a
      · subst hv
        simpa using hlast
      · simpa [hv] using hlast
    · obtain rfl : a = !s := Bool.eq_not_iff.mpr ha
      rw [settles_cons_not, ih]
      by_cases hv : v = !s
      · subst hv
        by_cases hnil : as = []
        · simp [hnil]
        · have hin : as.getLastD (!s) = s → s ∈ as := by
            intro hlast
            obtain ⟨b, as, rfl⟩ := List.exists_cons_of_ne_nil hnil
            rw [List.getLastD_cons] at hlast
            rw [← hlast]
            exact List.getLastD_mem_cons
          simp only [hnil, if_false, if_true, false_or, Nat.zero_add, true_and, List.cons_ne_nil]
          constructor
          · exact fun h => h.2
          · exact fun h => ⟨hin h.1, h⟩
      · have hv' : v = s := by simpa using hv
        simp [hv']

end Uniform

section Same

/-- A place among the values of a flag is a place among the updates. -/
theorem exists_split {front' rest' : List Bool} (h : values key updates = front' ++ v :: rest') :
    ∃ front rest, updates = front ++ (key, v) :: rest ∧ values key front = front' ∧
      values key rest = rest' := by
  induction updates generalizing front' with
  | nil => simp [values] at h
  | cons update updates ih =>
    obtain ⟨key', value⟩ := update
    by_cases hkey : key' = key
    · subst hkey
      rw [values_cons_self] at h
      cases front' with
      | nil =>
        obtain ⟨rfl, htail⟩ := List.cons.inj h
        exact ⟨[], updates, rfl, rfl, htail⟩
      | cons a front' =>
        obtain ⟨rfl, htail⟩ := List.cons.inj h
        obtain ⟨front, rest, rfl, hfront, hrest⟩ := ih htail
        exact ⟨(key', value) :: front, rest, rfl, by rw [values_cons_self, hfront], hrest⟩
    · rw [values_cons_ne hkey] at h
      obtain ⟨front, rest, rfl, hfront, hrest⟩ := ih h
      exact ⟨(key', value) :: front, rest, rfl, by rw [values_cons_ne hkey, hfront], hrest⟩

/-- The updates with the other value find it in their flag and come before one with the value. -/
def Steady (current : Finset κ) (s : Bool) (updates : List (κ × Bool)) : Prop :=
  ∀ front key rest, updates = front ++ (key, !s) :: rest →
    (key ∈ current ↔ s = false) ∧ (key, s) ∉ front ∧ (key, s) ∈ rest

omit [DecidableEq κ] in
theorem steady_of_same (h : ∀ update ∈ updates, update.2 = s) : Steady current s updates := by
  intro front key rest heq
  have hvalue := h (key, !s) (by simp [heq])
  simp at hvalue

theorem steady_iff_settles :
    Steady current s updates ↔ ∀ key, Settles (decide (key ∈ current)) s (values key updates) := by
  have hvalue (key : κ) : decide (key ∈ current) = (!s) ↔ (key ∈ current ↔ s = false) := by
    cases s <;> simp
  constructor
  · intro h key front' rest' heq
    obtain ⟨front, rest, hsplit, rfl, rfl⟩ := exists_split heq
    obtain ⟨hin, hfront, hrest⟩ := h front key rest hsplit
    exact ⟨(hvalue key).mpr hin, fun hmem => hfront (mem_values.1 hmem), mem_values.2 hrest⟩
  · rintro h front key rest rfl
    obtain ⟨hin, hfront, hrest⟩ := h key (values key front) (values key rest)
      (by rw [values_append, values_cons_self])
    exact ⟨(hvalue key).mp hin, fun hmem => hfront (mem_values.2 hmem), mem_values.1 hrest⟩

theorem uniform_iff_steady (current : Finset κ) (s : Bool) (updates : List (κ × Bool)) :
    (apply current (uniform s updates) = apply current updates ∧
      changes current (uniform s updates) = changes current updates) ↔
      Steady current s updates := by
  let keys := (updates.map Prod.fst).toFinset
  have hkeys : ∀ update ∈ updates, update.1 ∈ keys := fun update hin =>
    List.mem_toFinset.mpr (List.mem_map_of_mem hin)
  have hkeys' : ∀ update ∈ uniform s updates, update.1 ∈ keys := by
    intro update hin
    obtain ⟨update', hin', rfl⟩ := List.mem_map.mp hin
    exact hkeys update' hin'
  have hset : apply current (uniform s updates) = apply current updates ↔ ∀ key,
      (values key updates).getLastD (decide (key ∈ current)) =
        ((values key updates).map fun _ => s).getLastD (decide (key ∈ current)) := by
    rw [Finset.ext_iff]
    refine forall_congr' fun key => ?_
    rw [mem_apply, mem_apply, values_uniform, Bool.coe_iff_coe, eq_comm]
  rw [steady_iff_settles, hset, changes_eq_sum hkeys, changes_eq_sum hkeys']
  simp only [values_uniform, settles_iff, forall_and]
  refine and_congr_right fun hlast => ?_
  have hle : ∀ key ∈ keys,
      switches (decide (key ∈ current)) ((values key updates).map fun _ => s) ≤
        switches (decide (key ∈ current)) (values key updates) := by
    intro key hin
    have hkey := hlast key
    rw [getLastD_const] at hkey
    rw [switches_const]
    by_cases hsame : values key updates = [] ∨ decide (key ∈ current) = s
    · rw [if_pos hsame]
      exact Nat.zero_le _
    · rw [not_or] at hsame
      rw [if_neg hsame.1] at hkey
      rw [if_neg (not_or.mpr hsame)]
      exact switches_pos hkey hsame.2
  rw [Finset.sum_eq_sum_iff_of_le hle]
  constructor
  · intro h key
    by_cases hin : key ∈ keys
    · exact (h key hin).symm
    · have hnil : values key updates = [] := by
        refine List.eq_nil_iff_forall_not_mem.mpr fun v hv => hin ?_
        exact hkeys _ (mem_values.1 hv)
      rw [hnil]
      rfl
  · exact fun h key _ => (h key).symm

end Same

end ACENetwork.Library.Flags
