import Mathlib

/-!
# Runs of a fallible step function

A run feeds a list of inputs to a step that may fail. The rules below carry an
invariant along every run whose steps meet a condition on the state before the
step and its input: one for steps that then succeed, one for steps that may
still fail, and one for the failures themselves.
-/
namespace ACENetwork.Library.Runs

variable {σ ι ε : Type*} (step : σ → ι → Except ε σ)

def run (s : σ) : List ι → Except ε σ
  | [] => .ok s
  | e :: es => step s e >>= fun s' => run s' es

/-- Every step the run reaches meets the condition `P`. -/
def Along (P : σ → ι → Prop) (s : σ) : List ι → Prop
  | [] => True
  | e :: es => P s e ∧ ∀ s', step s e = .ok s' → Along P s' es

/-- Whether the steps meet the condition can be computed along the run. -/
instance Along.decidable {P : σ → ι → Prop} [∀ s e, Decidable (P s e)] :
    (s : σ) → (es : List ι) → Decidable (Along step P s es)
  | _, [] => isTrue trivial
  | s, e :: es =>
    match h : step s e with
    | .error _ => decidable_of_iff (P s e) (by simp [Along, h])
    | .ok s' =>
      have := Along.decidable (P := P) s' es
      decidable_of_iff (P s e ∧ Along step P s' es) (by simp [Along, h])

variable {step}

@[simp] theorem run_nil (s : σ) : run step s [] = .ok s := rfl

theorem run_cons (s : σ) (e : ι) (es : List ι) :
    run step s (e :: es) = step s e >>= fun s' => run step s' es := rfl

theorem run_cons_ok {s t : σ} {e : ι} {es : List ι} :
    run step s (e :: es) = .ok t ↔ ∃ s', step s e = .ok s' ∧ run step s' es = .ok t := by
  rw [run_cons]
  cases step s e with
  | error f =>
    refine iff_of_false (fun h => ?_) fun ⟨s', hs', ht⟩ => ?_
    · cases h
    · cases hs'
  | ok s'' =>
    refine ⟨fun h => ⟨s'', rfl, h⟩, fun ⟨s', hs', ht⟩ => ?_⟩
    cases hs'
    exact ht

theorem run_cons_error {s : σ} {e : ι} {es : List ι} {f : ε} :
    run step s (e :: es) = .error f ↔
      step s e = .error f ∨ ∃ s', step s e = .ok s' ∧ run step s' es = .error f := by
  rw [run_cons]
  cases step s e with
  | error g =>
    refine ⟨fun h => ?_, fun h => ?_⟩
    · cases h
      exact Or.inl rfl
    · rcases h with h | ⟨s', hs', -⟩
      · cases h
        rfl
      · cases hs'
  | ok s'' =>
    refine ⟨fun h => Or.inr ⟨s'', rfl, h⟩, fun h => ?_⟩
    rcases h with h | ⟨s', hs', ht⟩
    · cases h
    · cases hs'
      exact ht

theorem run_append {s t : σ} {es : List ι} (h : run step s es = .ok t) (fs : List ι) :
    run step s (es ++ fs) = run step t fs := by
  induction es generalizing s with
  | nil =>
    obtain rfl : s = t := by simpa using h
    rfl
  | cons e es ih =>
    obtain ⟨s', hs', ht⟩ := run_cons_ok.1 h
    rw [List.cons_append, run_cons, hs']
    exact ih ht

theorem run_append_bind (s : σ) (es fs : List ι) :
    run step s (es ++ fs) = run step s es >>= fun t => run step t fs := by
  induction es generalizing s with
  | nil => rfl
  | cons e es ih =>
    rw [List.cons_append, run_cons, run_cons]
    cases step s e with
    | error f => rfl
    | ok s' => exact ih s'

theorem Along.of_prefix {P : σ → ι → Prop} {s : σ} {es fs : List ι} (hpre : es <+: fs)
    (h : Along step P s fs) : Along step P s es := by
  induction es generalizing s fs with
  | nil => trivial
  | cons e es ih =>
    obtain ⟨rest, rfl⟩ := hpre
    exact ⟨h.1, fun s' hs' => ih ⟨rest, rfl⟩ (h.2 s' hs')⟩

theorem Along.last {P : σ → ι → Prop} {s t : σ} {es : List ι} {e : ι}
    (h : Along step P s (es ++ [e])) (hrun : run step s es = .ok t) : P t e := by
  induction es generalizing s with
  | nil =>
    obtain rfl : s = t := by simpa using hrun
    exact h.1
  | cons e' es ih =>
    obtain ⟨s', hs', hrest⟩ := run_cons_ok.1 hrun
    exact ih (h.2 s' hs') hrest

theorem Along.mono {P Q : σ → ι → Prop} {s : σ} {es : List ι} (h : Along step P s es)
    (himp : ∀ s e, P s e → Q s e) : Along step Q s es := by
  induction es generalizing s with
  | nil => trivial
  | cons e es ih => exact ⟨himp s e h.1, fun s' hs' => ih (h.2 s' hs')⟩

theorem along_of_forall {P : σ → ι → Prop} {s : σ} {es : List ι} (h : ∀ e ∈ es, ∀ s, P s e) :
    Along step P s es := by
  induction es generalizing s with
  | nil => trivial
  | cons e es ih =>
    exact ⟨h e List.mem_cons_self s, fun s' _ => ih fun e' he' => h e' (List.mem_cons_of_mem _ he')⟩

theorem Along.and_forall {P : σ → ι → Prop} {Q : ι → Prop} {s : σ} {es : List ι}
    (h : Along step P s es) (hall : ∀ e ∈ es, Q e) : Along step (fun s e => P s e ∧ Q e) s es := by
  induction es generalizing s with
  | nil => trivial
  | cons e es ih =>
    exact ⟨⟨h.1, hall e List.mem_cons_self⟩,
      fun s' hs' => ih (h.2 s' hs') fun e he => hall e (List.mem_cons_of_mem _ he)⟩

/-- Steps that succeed and extend the invariant of the inputs so far. -/
theorem run_total {P : σ → ι → Prop} (Inv : List ι → σ → Prop)
    (hstep : ∀ seen s e, Inv seen s → P s e → ∃ s', step s e = .ok s' ∧ Inv (seen ++ [e]) s')
    {seen es : List ι} {s : σ} (hinv : Inv seen s) (halong : Along step P s es) :
    ∃ t, run step s es = .ok t ∧ Inv (seen ++ es) t := by
  induction es generalizing seen s with
  | nil => exact ⟨s, rfl, by simpa using hinv⟩
  | cons e es ih =>
    obtain ⟨s', hs', hinv'⟩ := hstep seen s e hinv halong.1
    obtain ⟨t, ht, hinvt⟩ := ih hinv' (halong.2 s' hs')
    exact ⟨t, run_cons_ok.2 ⟨s', hs', ht⟩, by simpa using hinvt⟩

theorem run_total_invariant {P : σ → ι → Prop} (Inv : σ → Prop)
    (hstep : ∀ s e, Inv s → P s e → ∃ s', step s e = .ok s' ∧ Inv s')
    {es : List ι} {s : σ} (hinv : Inv s) (halong : Along step P s es) :
    ∃ t, run step s es = .ok t ∧ Inv t := by
  induction es generalizing s with
  | nil => exact ⟨s, rfl, hinv⟩
  | cons e es ih =>
    obtain ⟨s', hs', hinv'⟩ := hstep s e hinv halong.1
    obtain ⟨t, ht, hinvt⟩ := ih hinv' (halong.2 s' hs')
    exact ⟨t, run_cons_ok.2 ⟨s', hs', ht⟩, hinvt⟩

theorem run_invariant {P : σ → ι → Prop} (Inv : σ → Prop)
    (hstep : ∀ s e s', Inv s → P s e → step s e = .ok s' → Inv s')
    {es : List ι} {s t : σ} (hinv : Inv s) (halong : Along step P s es)
    (hrun : run step s es = .ok t) : Inv t := by
  induction es generalizing s with
  | nil =>
    obtain rfl : s = t := by simpa using hrun
    exact hinv
  | cons e es ih =>
    obtain ⟨s', hs', ht⟩ := run_cons_ok.1 hrun
    exact ih (hstep s e s' hinv halong.1 hs') (halong.2 s' hs') ht

theorem run_front (Inv : σ → Prop) (hkeeps : ∀ s e s', Inv s → step s e = .ok s' → Inv s')
    {front rest : List ι} {s t : σ} (hinv : Inv s) (hrun : run step s (front ++ rest) = .ok t) :
    ∃ u, run step s front = .ok u ∧ Inv u := by
  induction front generalizing s with
  | nil => exact ⟨s, rfl, hinv⟩
  | cons e front ih =>
    obtain ⟨s', hs', ht⟩ := run_cons_ok.1 hrun
    obtain ⟨u, hu, hinvu⟩ := ih (hkeeps s e s' hinv hs') ht
    exact ⟨u, run_cons_ok.2 ⟨s', hs', hu⟩, hinvu⟩

/-- Where a step succeeds and keeps the invariant exactly under a condition, every front of a run
succeeds with the invariant exactly where the condition holds along the run. -/
theorem run_total_iff {P : σ → ι → Prop} (Inv : σ → Prop)
    (hstep : ∀ s e, Inv s → ((∃ s', step s e = .ok s' ∧ Inv s') ↔ P s e))
    {es : List ι} {s : σ} (hinv : Inv s) :
    (∀ front, front <+: es → ∃ t, run step s front = .ok t ∧ Inv t) ↔ Along step P s es := by
  induction es generalizing s with
  | nil =>
    refine iff_of_true (fun front hfront => ?_) trivial
    obtain rfl := List.prefix_nil.mp hfront
    exact ⟨s, rfl, hinv⟩
  | cons e es ih =>
    constructor
    · intro h
      obtain ⟨t, ht, hinvt⟩ := h [e] ⟨es, rfl⟩
      obtain ⟨s', hs', heq⟩ := run_cons_ok.1 ht
      obtain rfl : s' = t := by simpa using heq
      refine ⟨(hstep s e hinv).mp ⟨s', hs', hinvt⟩, fun s'' hs'' => ?_⟩
      obtain rfl : s' = s'' := Except.ok.inj (hs'.symm.trans hs'')
      refine (ih hinvt).mp fun front hfront => ?_
      obtain ⟨u, hu, hinvu⟩ := h (e :: front) (List.cons_prefix_cons.mpr ⟨rfl, hfront⟩)
      obtain ⟨v, hv, huv⟩ := run_cons_ok.1 hu
      obtain rfl : s' = v := Except.ok.inj (hs'.symm.trans hv)
      exact ⟨u, huv, hinvu⟩
    · rintro ⟨hP, halong⟩ front hfront
      cases front with
      | nil => exact ⟨s, rfl, hinv⟩
      | cons e' front =>
        obtain ⟨rfl, htail⟩ := List.cons_prefix_cons.mp hfront
        obtain ⟨s', hs', hinv'⟩ := (hstep s e' hinv).mpr hP
        obtain ⟨t, ht, hinvt⟩ := (ih hinv').mpr (halong s' hs') front htail
        exact ⟨t, run_cons_ok.2 ⟨s', hs', ht⟩, hinvt⟩

/-- Where a step from a state with the invariant succeeds exactly under a condition, a run succeeds
exactly where the condition holds along it. -/
theorem run_ok_iff {P : σ → ι → Prop} (Inv : σ → Prop)
    (hok : ∀ s e, Inv s → ((∃ s', step s e = .ok s') ↔ P s e))
    (hkeeps : ∀ s e s', Inv s → step s e = .ok s' → Inv s')
    {es : List ι} {s : σ} (hinv : Inv s) :
    (∃ t, run step s es = .ok t) ↔ Along step P s es := by
  have hstep (s : σ) (e : ι) (hinv : Inv s) :
      (∃ s', step s e = .ok s' ∧ Inv s') ↔ P s e := by
    rw [← hok s e hinv]
    exact exists_congr fun s' => and_iff_left_of_imp (hkeeps s e s' hinv)
  rw [← run_total_iff Inv hstep hinv]
  constructor
  · rintro ⟨t, hrun⟩ front ⟨rest, rfl⟩
    exact run_front Inv hkeeps hinv hrun
  · intro h
    obtain ⟨t, ht, -⟩ := h es List.prefix_rfl
    exact ⟨t, ht⟩

/-- Where a step keeps the invariant of the inputs so far exactly under a condition, and a step
that fails meets it, the invariant holds in every state of a run exactly where the condition
holds along the run. -/
theorem run_invariant_iff {P : σ → ι → Prop} {Q : ι → Prop} (Inv : List ι → σ → Prop)
    (hstep : ∀ seen s e s', Inv seen s → Q e → step s e = .ok s' →
      (Inv (seen ++ [e]) s' ↔ P s e))
    (hfail : ∀ seen s e f, Inv seen s → step s e = .error f → P s e)
    {seen es : List ι} {s : σ} (hinv : Inv seen s) (hall : ∀ e ∈ es, Q e) :
    (∀ front t, front <+: es → run step s front = .ok t → Inv (seen ++ front) t) ↔
      Along step P s es := by
  induction es generalizing seen s with
  | nil =>
    refine iff_of_true (fun front t hfront hrun => ?_) trivial
    obtain rfl := List.prefix_nil.mp hfront
    obtain rfl : s = t := by simpa using hrun
    simpa using hinv
  | cons e es ih =>
    have hQ := hall e List.mem_cons_self
    have hrest : ∀ e' ∈ es, Q e' := fun e' he' => hall e' (List.mem_cons_of_mem e he')
    constructor
    · intro h
      have hkeeps (s' : σ) (hs' : step s e = .ok s') : Inv (seen ++ [e]) s' :=
        h [e] s' ⟨es, rfl⟩ (run_cons_ok.2 ⟨s', hs', rfl⟩)
      refine ⟨?_, fun s' hs' => (ih (hkeeps s' hs') hrest).mp fun front t hfront hrun => ?_⟩
      · cases hs : step s e with
        | error f => exact hfail seen s e f hinv hs
        | ok s' => exact (hstep seen s e s' hinv hQ hs).mp (hkeeps s' hs)
      · have hinv' := h (e :: front) t (List.cons_prefix_cons.mpr ⟨rfl, hfront⟩)
          (run_cons_ok.2 ⟨s', hs', hrun⟩)
        simpa using hinv'
    · rintro ⟨hP, halong⟩ front t hfront hrun
      cases front with
      | nil =>
        obtain rfl : s = t := by simpa using hrun
        simpa using hinv
      | cons e' front =>
        obtain ⟨rfl, htail⟩ := List.cons_prefix_cons.mp hfront
        obtain ⟨s', hs', hrun⟩ := run_cons_ok.1 hrun
        have hinv' := (ih ((hstep seen s e' s' hinv hQ hs').mpr hP) hrest).mpr (halong s' hs')
          front t htail hrun
        simpa using hinv'

/-- The failures of a run are failures of steps from states with the invariant. -/
theorem run_error {P : σ → ι → Prop} (Inv : σ → Prop) {Q : ε → Prop}
    (hstep : ∀ s e s', Inv s → P s e → step s e = .ok s' → Inv s')
    (hfail : ∀ s e f, Inv s → P s e → step s e = .error f → Q f)
    {es : List ι} {s : σ} {f : ε} (hinv : Inv s) (halong : Along step P s es)
    (hrun : run step s es = .error f) : Q f := by
  induction es generalizing s with
  | nil => simp at hrun
  | cons e es ih =>
    rcases run_cons_error.1 hrun with herr | ⟨s', hs', herr⟩
    · exact hfail s e f hinv halong.1 herr
    · exact ih (hstep s e s' hinv halong.1 hs') (halong.2 s' hs') herr

end ACENetwork.Library.Runs
