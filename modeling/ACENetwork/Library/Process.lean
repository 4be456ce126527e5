import ACENetwork.Library.Runs

/-!
# Processes with atomic scopes

A process runs in scopes: each one reads and writes the shared state in one step,
produces effects, and its result selects what comes next. Alone, a process runs to
its end. In a pool, the scopes of many processes interleave, and a proof outline
gives every scope an assertion that the scopes of the other processes keep.
-/
namespace ACENetwork.Library

/-- A process over the state `σ` with scopes labelled by `Λ`, effects `ω` and faults `ε`. -/
inductive Process (Λ σ ω ε α : Type) : Type 1 where
  | done (result : α)
  | scope {β : Type} (label : Λ) (body : σ → Except ε (β × σ × List ω))
      (next : β → Process Λ σ ω ε α)

namespace Process

variable {Λ σ ω ε α β : Type}

def bind : Process Λ σ ω ε α → (α → Process Λ σ ω ε β) → Process Λ σ ω ε β
  | .done a, q => q a
  | .scope l body next, q => .scope l body fun b => (next b).bind q

instance : Monad (Process Λ σ ω ε) where
  pure := .done
  bind := bind

@[simp] theorem scope_bind {γ : Type} (l : Λ) (body : σ → Except ε (γ × σ × List ω))
    (next : γ → Process Λ σ ω ε α) (q : α → Process Λ σ ω ε β) :
    (Process.scope l body next >>= q) = Process.scope l body fun b => next b >>= q := rfl

def atomically (l : Λ) (body : σ → Except ε (α × σ × List ω)) : Process Λ σ ω ε α :=
  .scope l body .done

def guarded (condition : Bool) (p : Process Λ σ ω ε Unit) : Process Λ σ ω ε Unit :=
  if condition then p else .done ()

def label? : Process Λ σ ω ε α → Option Λ
  | .done _ => none
  | .scope l _ _ => some l

def run : Process Λ σ ω ε α → σ → Except ε (α × σ × List ω)
  | .done a, s => .ok (a, s, [])
  | .scope _ body next, s =>
    match body s with
    | .error e => .error e
    | .ok (b, s', out) =>
      match (next b).run s' with
      | .error e => .error e
      | .ok (a, t, rest) => .ok (a, t, out ++ rest)

/-- What holds of the result, the state and the effects where the process alone ends, and
of its fault if it faults. -/
def Ensures (p : Process Λ σ ω ε α) (s : σ) (Q : α → σ → List ω → Prop) (F : ε → Prop) : Prop :=
  match p.run s with
  | .ok (a, t, out) => Q a t out
  | .error e => F e

section Ensures

variable {Q : α → σ → List ω → Prop} {R : β → σ → List ω → Prop} {F : ε → Prop} {s : σ}

@[simp] theorem ensures_pure (a : α) :
    (pure a : Process Λ σ ω ε α).Ensures s Q F ↔ Q a s [] := Iff.rfl

@[simp] theorem ensures_done (a : α) :
    (Process.done a : Process Λ σ ω ε α).Ensures s Q F ↔ Q a s [] := Iff.rfl

theorem ensures_scope {γ : Type} {l : Λ} {body : σ → Except ε (γ × σ × List ω)}
    {next : γ → Process Λ σ ω ε α} :
    (Process.scope l body next).Ensures s Q F ↔
      match body s with
      | .ok (b, s', first) => (next b).Ensures s' (fun a t rest => Q a t (first ++ rest)) F
      | .error e => F e := by
  simp only [Ensures, run]
  cases body s with
  | error e => rfl
  | ok r =>
    obtain ⟨b, s', first⟩ := r
    cases hnext : (next b).run s' <;> simp [hnext]

theorem ensures_bind {p : Process Λ σ ω ε α} {q : α → Process Λ σ ω ε β} :
    (p >>= q).Ensures s R F ↔
      p.Ensures s (fun a t first => (q a).Ensures t (fun b u rest => R b u (first ++ rest)) F) F := by
  induction p generalizing s R with
  | done a => rfl
  | scope l body next ih =>
    simp only [scope_bind, ensures_scope, ih, List.append_assoc]

theorem ensures_atomically {l : Λ} {body : σ → Except ε (α × σ × List ω)} :
    (atomically l body).Ensures s Q F ↔
      match body s with
      | .ok (a, t, out) => Q a t out
      | .error e => F e := by
  simp [atomically, ensures_scope]

theorem ensures_guarded {condition : Bool} {p : Process Λ σ ω ε Unit}
    {Q : Unit → σ → List ω → Prop} :
    (guarded condition p).Ensures s Q F ↔
      if condition then p.Ensures s Q F else Q () s [] := by
  cases condition <;> rfl

theorem Ensures.mono {p : Process Λ σ ω ε α} {Q' : α → σ → List ω → Prop} {F' : ε → Prop}
    (h : p.Ensures s Q F) (hQ : ∀ a t out, Q a t out → Q' a t out) (hF : ∀ e, F e → F' e) :
    p.Ensures s Q' F' := by
  unfold Ensures at *
  split at h
  · exact hQ _ _ _ h
  · exact hF _ h

end Ensures

/-- Every scope of the process makes only transitions of `T`, whatever the earlier ones
returned. A transition may also be a fault. -/
def AllScopes (T : Λ → σ → Except ε (σ × List ω) → Prop) : Process Λ σ ω ε α → Prop
  | .done _ => True
  | .scope l body next => (∀ s, T l s ((body s).map Prod.snd)) ∧ ∀ b, (next b).AllScopes T

section AllScopes

variable {T : Λ → σ → Except ε (σ × List ω) → Prop}

@[simp] theorem allScopes_pure (a : α) : (pure a : Process Λ σ ω ε α).AllScopes T := trivial

theorem AllScopes.mono {T' : Λ → σ → Except ε (σ × List ω) → Prop} {p : Process Λ σ ω ε α}
    (hp : p.AllScopes T) (h : ∀ l s r, T l s r → T' l s r) : p.AllScopes T' := by
  induction p with
  | done a => trivial
  | scope l body next ih => exact ⟨fun s => h l s _ (hp.1 s), fun b => ih b (hp.2 b)⟩

theorem AllScopes.bind {p : Process Λ σ ω ε α} {q : α → Process Λ σ ω ε β}
    (hp : p.AllScopes T) (hq : ∀ a, (q a).AllScopes T) : (p >>= q).AllScopes T := by
  induction p with
  | done a => exact hq a
  | scope l body next ih => exact ⟨hp.1, fun b => ih b (hp.2 b)⟩

theorem allScopes_atomically {l : Λ} {body : σ → Except ε (α × σ × List ω)}
    (h : ∀ s, T l s ((body s).map Prod.snd)) : (atomically l body).AllScopes T :=
  ⟨h, fun _ => trivial⟩

theorem AllScopes.guarded {p : Process Λ σ ω ε Unit} (hp : p.AllScopes T) (c : Bool) :
    (Process.guarded c p).AllScopes T := by
  cases c
  · trivial
  · exact hp

/-- What every transition of the process preserves holds where it ends, and its faults
are faults of transitions from states where that holds. -/
theorem AllScopes.ensures {p : Process Λ σ ω ε α} (hp : p.AllScopes T) (I : σ → Prop)
    (F : ε → Prop)
    (hok : ∀ l s s' out, I s → T l s (.ok (s', out)) → I s')
    (herror : ∀ l s e, I s → T l s (.error e) → F e) {s : σ} (hs : I s) :
    p.Ensures s (fun _ t _ => I t) F := by
  induction p generalizing s with
  | done a => exact hs
  | scope l body next ih =>
    have hT := hp.1 s
    rw [ensures_scope]
    cases hbody : body s with
    | error e =>
      rw [hbody] at hT
      exact herror l s e hs hT
    | ok r =>
      rw [hbody] at hT
      exact ih r.1 (hp.2 r.1) (hok l s r.2.1 r.2.2 hs hT)

end AllScopes

/-- From states with `I`, every scope makes only transitions of `T`, and the result has `R`. Of
what comes behind a scope, only what such a state leads to is considered. -/
def Yields (I : σ → Prop) (T : Λ → σ → Except ε (σ × List ω) → Prop) (R : α → Prop) :
    Process Λ σ ω ε α → Prop
  | .done a => R a
  | .scope l body next => ∀ s, I s → T l s ((body s).map Prod.snd) ∧
      ∀ b s' out, body s = .ok (b, s', out) → (next b).Yields I T R

section Yields

variable {I : σ → Prop} {T : Λ → σ → Except ε (σ × List ω) → Prop} {R : α → Prop} {Q : β → Prop}

theorem Yields.bind {p : Process Λ σ ω ε α} {q : α → Process Λ σ ω ε β} (hp : p.Yields I T R)
    (hq : ∀ a, R a → (q a).Yields I T Q) : (p >>= q).Yields I T Q := by
  induction p with
  | done a => exact hq a hp
  | scope l body next ih =>
    exact fun s hs => ⟨(hp s hs).1, fun b s' out hbody => ih b ((hp s hs).2 b s' out hbody)⟩

theorem yields_atomically {l : Λ} {body : σ → Except ε (α × σ × List ω)}
    (hT : ∀ s, I s → T l s ((body s).map Prod.snd))
    (hR : ∀ s a s' out, I s → body s = .ok (a, s', out) → R a) :
    (atomically l body).Yields I T R :=
  fun s hs => ⟨hT s hs, fun a s' out hbody => hR s a s' out hs hbody⟩

theorem Yields.guarded {R : Unit → Prop} {p : Process Λ σ ω ε Unit} (hp : p.Yields I T R)
    (hR : R ()) (condition : Bool) : (Process.guarded condition p).Yields I T R := by
  cases condition
  · exact hR
  · exact hp

end Yields

end Process

/-- A scope that has run: its label, the state before it and its effects. -/
structure Step (Λ σ ω : Type) where
  label : Λ
  before : σ
  effects : List ω

def effectsOf {Λ σ ω : Type} (history : List (Step Λ σ ω)) : List ω :=
  history.flatMap Step.effects

@[simp] theorem effectsOf_append_step {Λ σ ω : Type} (history : List (Step Λ σ ω)) (l : Λ) (s : σ)
    (out : List ω) : effectsOf (history ++ [⟨l, s, out⟩]) = effectsOf history ++ out := by
  simp [effectsOf]

/-- A condition on the events of a pool: on the jobs that are started, on the scopes with
a label that are run, and on the labels of the other processes beside which they are run. -/
structure Schedule (ι Λ σ ω : Type) where
  started : ι → Prop := fun _ => True
  enabled : Λ → List (Step Λ σ ω) → σ → Prop := fun _ _ _ => True
  apart : Λ → Λ → σ → Prop := fun _ _ _ => True

/-- What a proof outline keeps: an invariant of the history and the state, and an
assertion at the scopes with a label. -/
structure Discipline (Λ σ ω : Type) where
  invariant : List (Step Λ σ ω) → σ → Prop
  assertion : Λ → σ → Prop := fun _ _ => True

namespace Process

variable {ι Λ σ ω ε α β : Type} (c : Schedule ι Λ σ ω) (d : Discipline Λ σ ω)

/-- The assertion where the process stands, and `Q` of its result where it has ended. -/
def Stands (Q : α → σ → Prop) : Process Λ σ ω ε α → σ → Prop
  | .done a, s => Q a s
  | .scope l _ _, s => d.assertion l s

/-- The proof outline: from its assertion, every scope keeps the invariant, leads to the
assertion of what comes next and keeps the assertions of the processes beside it. -/
def Outline (Q : α → σ → Prop) : Process Λ σ ω ε α → Prop
  | .done _ => True
  | .scope l body next =>
    (∀ history s b s' out, d.invariant history s → d.assertion l s → c.enabled l history s →
      body s = .ok (b, s', out) →
        d.invariant (history ++ [⟨l, s, out⟩]) s' ∧ (next b).Stands d Q s' ∧
          ∀ l', c.apart l l' s → d.assertion l' s → d.assertion l' s') ∧
      ∀ b, (next b).Outline Q

/-- Every scope leads from its assertion to that of what comes next. -/
def Leads (Q : α → σ → Prop) : Process Λ σ ω ε α → Prop
  | .done _ => True
  | .scope l body next =>
    (∀ s b s' out, d.assertion l s → body s = .ok (b, s', out) → (next b).Stands d Q s') ∧
      ∀ b, (next b).Leads Q

variable {c d}

theorem Stands.bind {Q : α → σ → Prop} {R : β → σ → Prop} {p : Process Λ σ ω ε α}
    {q : α → Process Λ σ ω ε β} {s : σ} (hp : p.Stands d Q s)
    (hQ : ∀ a s, Q a s → (q a).Stands d R s) : (p >>= q).Stands d R s := by
  cases p with
  | done a => exact hQ a s hp
  | scope l body next => exact hp

/-- The rule of composition: the first process leads to where the second one stands. -/
theorem Leads.bind {R : β → σ → Prop} {p : Process Λ σ ω ε α} {q : α → Process Λ σ ω ε β}
    (hp : p.Leads d fun a s => (q a).Stands d R s) (hq : ∀ a, (q a).Leads d R) :
    (p >>= q).Leads d R := by
  induction p with
  | done a => exact hq a
  | scope l body next ih =>
    refine ⟨fun s b s' out hat hbody => ?_, fun b => ih b (hp.2 b)⟩
    exact (hp.1 s b s' out hat hbody).bind fun _ _ h => h

theorem Leads.mono {Q R : α → σ → Prop} {p : Process Λ σ ω ε α} (hp : p.Leads d Q)
    (h : ∀ a s, Q a s → R a s) : p.Leads d R := by
  induction p with
  | done a => trivial
  | scope l body next ih =>
    refine ⟨fun s b s' out hat hbody => ?_, fun b => ih b (hp.2 b)⟩
    have hstands := hp.1 s b s' out hat hbody
    cases hnext : next b with
    | done a =>
      rw [hnext] at hstands
      exact h a s' hstands
    | scope l' body' next' =>
      rw [hnext] at hstands
      exact hstands

theorem leads_atomically {Q : α → σ → Prop} {l : Λ} {body : σ → Except ε (α × σ × List ω)}
    (h : ∀ s a s' out, d.assertion l s → body s = .ok (a, s', out) → Q a s') :
    (atomically l body).Leads d Q :=
  ⟨h, fun _ => trivial⟩

theorem Leads.guarded {Q : Unit → σ → Prop} {p : Process Λ σ ω ε Unit} (hp : p.Leads d Q)
    (condition : Bool) : (Process.guarded condition p).Leads d Q := by
  cases condition
  · trivial
  · exact hp

theorem stands_guarded {Q : Unit → σ → Prop} {p : Process Λ σ ω ε Unit} {condition : Bool} {s : σ}
    (hp : condition = true → p.Stands d Q s) (hQ : condition = false → Q () s) :
    (Process.guarded condition p).Stands d Q s := by
  cases condition
  · exact hQ rfl
  · exact hp rfl

/-- A proof outline in two parts: what every scope does to the invariant and to the
assertions beside it, and where it leads. -/
theorem Leads.outline {Q : α → σ → Prop} {T : Λ → σ → Except ε (σ × List ω) → Prop}
    {p : Process Λ σ ω ε α} (hleads : p.Leads d Q) (hscopes : p.AllScopes T)
    (hT : ∀ history l s s' out, d.invariant history s → d.assertion l s → c.enabled l history s →
      T l s (.ok (s', out)) → d.invariant (history ++ [⟨l, s, out⟩]) s' ∧
        ∀ l', c.apart l l' s → d.assertion l' s → d.assertion l' s') :
    p.Outline c d Q := by
  induction p with
  | done a => trivial
  | scope l body next ih =>
    refine ⟨fun history s b s' out hinv hat henabled hbody => ?_,
      fun b => ih b (hleads.2 b) (hscopes.2 b)⟩
    have htransition := hscopes.1 s
    rw [hbody] at htransition
    obtain ⟨hinv', hothers⟩ := hT history l s s' out hinv hat henabled htransition
    exact ⟨hinv', hleads.1 s b s' out hat hbody, hothers⟩

theorem stands_of_assertion {p : Process Λ σ ω ε α} {s : σ} (hassertion : ∀ l s, d.assertion l s) :
    p.Stands d (fun _ _ => True) s := by
  cases p with
  | done a => trivial
  | scope l body next => exact hassertion l s

theorem leads_of_assertion {p : Process Λ σ ω ε α} (hassertion : ∀ l s, d.assertion l s) :
    p.Leads d fun _ _ => True := by
  induction p with
  | done a => trivial
  | scope l body next ih => exact ⟨fun _ _ _ _ _ _ => stands_of_assertion hassertion, ih⟩

end Process

/-- Processes that run beside each other, and the scopes that have run. -/
structure Pool (Λ σ ω ε : Type) : Type 1 where
  state : σ
  threads : List (Process Λ σ ω ε Unit)
  history : List (Step Λ σ ω)

/-- A job is started, or the next scope of a thread is run. -/
inductive PoolEvent (ι : Type) where
  | start (job : ι)
  | schedule (thread : ℕ)

namespace Pool

variable {ι Λ σ ω ε : Type} (program : ι → Process Λ σ ω ε Unit)

def initial (s : σ) : Pool Λ σ ω ε := ⟨s, [], []⟩

def label? (pool : Pool Λ σ ω ε) (thread : ℕ) : Option Λ :=
  (pool.threads[thread]?).bind Process.label?

def step (pool : Pool Λ σ ω ε) : PoolEvent ι → Except ε (Pool Λ σ ω ε)
  | .start job => .ok { pool with threads := pool.threads ++ [program job] }
  | .schedule thread =>
    match pool.threads[thread]? with
    | some (.scope l body next) =>
      match body pool.state with
      | .error e => .error e
      | .ok (b, s', out) =>
        .ok ⟨s', pool.threads.set thread (next b), pool.history ++ [⟨l, pool.state, out⟩]⟩
    | _ => .ok pool

variable (c : Schedule ι Λ σ ω) (d : Discipline Λ σ ω)

def Admits (pool : Pool Λ σ ω ε) : PoolEvent ι → Prop
  | .start job => c.started job
  | .schedule thread =>
    ∀ l, pool.label? thread = some l →
      c.enabled l pool.history pool.state ∧
        ∀ other l', other ≠ thread → pool.label? other = some l' → c.apart l l' pool.state

/-- The invariant holds and every thread stands in its proof outline. -/
def Outlined (pool : Pool Λ σ ω ε) : Prop :=
  d.invariant pool.history pool.state ∧
    ∀ p ∈ pool.threads, p.Outline c d (fun _ _ => True) ∧
      p.Stands d (fun _ _ => True) pool.state

variable {program c d}

theorem Outlined.step {pool pool' : Pool Λ σ ω ε} {event : PoolEvent ι}
    (hpool : pool.Outlined c d) (hadmits : pool.Admits c event)
    (hstart : ∀ job, event = .start job →
      (program job).Outline c d (fun _ _ => True) ∧
        (program job).Stands d (fun _ _ => True) pool.state)
    (hstep : pool.step program event = .ok pool') : pool'.Outlined c d := by
  cases event with
  | start job =>
    obtain rfl : { pool with threads := pool.threads ++ [program job] } = pool' := by
      simpa [Pool.step] using hstep
    refine ⟨hpool.1, fun p hp => ?_⟩
    rcases List.mem_append.mp hp with hold | hnew
    · exact hpool.2 p hold
    · rw [List.mem_singleton.mp hnew]
      exact hstart job rfl
  | schedule thread =>
    simp only [Pool.step] at hstep
    cases hthread : pool.threads[thread]? with
    | none =>
      obtain rfl : pool = pool' := by simpa [hthread] using hstep
      exact hpool
    | some p =>
      cases p with
      | done u =>
        obtain rfl : pool = pool' := by simpa [hthread] using hstep
        exact hpool
      | scope l body next =>
        have hlabel : pool.label? thread = some l := by simp [label?, hthread, Process.label?]
        have hp := hpool.2 _ (List.mem_of_getElem? hthread)
        cases hbody : body pool.state with
        | error e => simp [hthread, hbody] at hstep
        | ok r =>
          obtain ⟨b, s', out⟩ := r
          obtain rfl :
              (⟨s', pool.threads.set thread (next b),
                pool.history ++ [⟨l, pool.state, out⟩]⟩ : Pool Λ σ ω ε) = pool' := by
            simpa [hthread, hbody] using hstep
          have hscope := hp.1.1 _ _ b s' out hpool.1 hp.2 (hadmits l hlabel).1 hbody
          refine ⟨hscope.1, fun q hq => ?_⟩
          obtain ⟨other, hother⟩ := List.getElem?_of_mem hq
          by_cases hsame : other = thread
          · subst hsame
            have hq : next b = q := by
              rw [List.getElem?_set_self (List.getElem?_eq_some_iff.mp hthread).1] at hother
              simpa using hother
            subst hq
            exact ⟨hp.1.2 b, hscope.2.1⟩
          · rw [List.getElem?_set_ne (Ne.symm hsame)] at hother
            have hq' := hpool.2 q (List.mem_of_getElem? hother)
            refine ⟨hq'.1, ?_⟩
            -- the scheduled scope keeps the assertion where the other thread stands
            cases q with
            | done u => trivial
            | scope l' body' next' =>
              apply hscope.2.2 l' _ hq'.2
              exact (hadmits l hlabel).2 other l' hsame (by simp [label?, hother, Process.label?])

/-- The rule of interference freedom: along a schedule, the invariant holds and every
thread stands in its outline. -/
theorem Outlined.run {pool pool' : Pool Λ σ ω ε} {events : List (PoolEvent ι)}
    (hpool : pool.Outlined c d)
    (hstart : ∀ job, c.started job →
      (program job).Outline c d (fun _ _ => True) ∧
        ∀ s, (program job).Stands d (fun _ _ => True) s)
    (halong : Runs.Along (Pool.step program) (Admits c) pool events)
    (hrun : Runs.run (Pool.step program) pool events = .ok pool') : pool'.Outlined c d := by
  refine Runs.run_invariant (fun pool => pool.Outlined c d) ?_ hpool halong hrun
  intro pool event pool' hinv hadmits hstep
  refine hinv.step hadmits ?_ hstep
  rintro job rfl
  exact ⟨(hstart job hadmits).1, (hstart job hadmits).2 _⟩

/-- A step starts a job or does nothing, or adds one transition to the history. -/
theorem step_history {T : Λ → σ → Except ε (σ × List ω) → Prop} {pool pool' : Pool Λ σ ω ε}
    {event : PoolEvent ι} (hpool : ∀ p ∈ pool.threads, p.AllScopes T)
    (hprogram : ∀ job, (program job).AllScopes T) (hstep : pool.step program event = .ok pool') :
    (∀ p ∈ pool'.threads, p.AllScopes T) ∧
      (pool'.history = pool.history ∨ ∃ l out, T l pool.state (.ok (pool'.state, out)) ∧
        pool'.history = pool.history ++ [⟨l, pool.state, out⟩]) := by
  cases event with
  | start job =>
    obtain rfl : { pool with threads := pool.threads ++ [program job] } = pool' := by
      simpa [Pool.step] using hstep
    refine ⟨fun p hp => ?_, .inl rfl⟩
    rcases List.mem_append.mp hp with hold | hnew
    · exact hpool p hold
    · rw [List.mem_singleton.mp hnew]
      exact hprogram job
  | schedule thread =>
    simp only [Pool.step] at hstep
    split at hstep
    · rename_i l body next hthread
      have hscope := hpool _ (List.mem_of_getElem? hthread)
      cases hbody : body pool.state with
      | error e => simp [hbody] at hstep
      | ok r =>
        have htransition := hscope.1 pool.state
        rw [hbody] at htransition
        simp only [hbody, Except.ok.injEq] at hstep
        subst hstep
        refine ⟨fun p hp => ?_, .inr ⟨l, r.2.2, htransition, rfl⟩⟩
        rcases List.mem_or_eq_of_mem_set hp with hold | hnew
        · exact hpool p hold
        · rw [hnew]
          exact hscope.2 r.1
    · obtain rfl := Except.ok.inj hstep
      exact ⟨hpool, .inl rfl⟩

/-- What every scope of the started jobs keeps holds along the schedule. -/
theorem run_invariant {s : σ} {pool : Pool Λ σ ω ε} {events : List (PoolEvent ι)}
    {T : ι → Λ → σ → Except ε (σ × List ω) → Prop} (I : List (Step Λ σ ω) → σ → Prop)
    (hscopes : ∀ job, (program job).AllScopes (T job))
    (hT : ∀ job history l s s' out, c.started job → I history s → c.enabled l history s →
      T job l s (.ok (s', out)) → I (history ++ [⟨l, s, out⟩]) s')
    (hinitial : I [] s)
    (halong : Runs.Along (Pool.step program) (Admits c) (initial s) events)
    (hrun : Runs.run (Pool.step program) (initial s) events = .ok pool) :
    I pool.history pool.state := by
  have houtlined : (initial s : Pool Λ σ ω ε).Outlined c { invariant := I } :=
    ⟨hinitial, by simp [initial]⟩
  refine (houtlined.run (fun job hjob => ⟨?_, fun _ => ?_⟩) halong hrun).1
  · refine (Process.leads_of_assertion fun _ _ => trivial).outline (hscopes job) ?_
    exact fun history l s s' out hinv _ henabled htransition =>
      ⟨hT job history l s s' out hjob hinv henabled htransition, fun _ _ _ => trivial⟩
  · exact Process.stands_of_assertion fun _ _ => trivial

/-- What the transitions of the started jobs keep, as long as it has `I`, holds along the run,
where the jobs that may be started depend on what has happened before. -/
theorem run_yields {s : σ} {pool : Pool Λ σ ω ε} {events : List (PoolEvent ι)}
    {P : Pool Λ σ ω ε → PoolEvent ι → Prop} {T : ι → Λ → σ → Except ε (σ × List ω) → Prop}
    {I : σ → Prop} {good : ι → Prop} (H : List (Step Λ σ ω) → σ → Prop)
    (hyields : ∀ job, good job → (program job).Yields I (T job) fun _ => True)
    (hstart : ∀ pool job, H pool.history pool.state → P pool (.start job) → good job)
    (hI : ∀ history s, H history s → I s)
    (hT : ∀ job history l s s' out, good job → H history s → T job l s (.ok (s', out)) →
      H (history ++ [⟨l, s, out⟩]) s')
    (hinitial : H [] s) (halong : Runs.Along (Pool.step program) P (initial s) events)
    (hrun : Runs.run (Pool.step program) (initial s) events = .ok pool) :
    H pool.history pool.state := by
  have hinv := Runs.run_invariant (fun pool : Pool Λ σ ω ε => H pool.history pool.state ∧
    ∀ p ∈ pool.threads, ∃ job, good job ∧ p.Yields I (T job) fun _ => True) ?_
    ⟨hinitial, by simp [initial]⟩ halong hrun
  · exact hinv.1
  rintro pool event pool' ⟨hH, hthreads⟩ hP hstep
  cases event with
  | start job =>
    obtain rfl : { pool with threads := pool.threads ++ [program job] } = pool' := by
      simpa [Pool.step] using hstep
    refine ⟨hH, fun p hp => ?_⟩
    rcases List.mem_append.mp hp with hold | hnew
    · exact hthreads p hold
    · have hgood := hstart pool job hH hP
      rw [List.mem_singleton.mp hnew]
      exact ⟨job, hgood, hyields job hgood⟩
  | schedule thread =>
    simp only [Pool.step] at hstep
    split at hstep
    · rename_i l body next hthread
      obtain ⟨job, hgood, hscope⟩ := hthreads _ (List.mem_of_getElem? hthread)
      obtain ⟨htransition, hnext⟩ := hscope pool.state (hI _ _ hH)
      cases hbody : body pool.state with
      | error e => simp [hbody] at hstep
      | ok r =>
        obtain ⟨b, s', out⟩ := r
        rw [hbody] at htransition
        simp only [hbody, Except.ok.injEq] at hstep
        subst hstep
        refine ⟨hT job _ l _ _ _ hgood hH htransition, fun p hp => ?_⟩
        rcases List.mem_or_eq_of_mem_set hp with hold | hnew
        · exact hthreads p hold
        · rw [hnew]
          exact ⟨job, hgood, hnext b s' out hbody⟩
    · obtain rfl := Except.ok.inj hstep
      exact ⟨hH, hthreads⟩

end Pool
end ACENetwork.Library
