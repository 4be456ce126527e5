import ACENetwork.Library.Runs

/-!
# The listener of the proactor

`Net_Server_AsynchListener_T`: `open` submits the initial accepts, and every completion of an accept
hands its descriptor to a new handler or closes it, submits the next accept and notifies the
subscribers.
-/
namespace ACENetwork.Net
open Library

def ECANCELED : ℕ := 125

structure Acceptor where
  listenHandle : Option ℕ
  validateNewConnection : Bool
  reissueAccept : Bool
  deriving DecidableEq, Repr

/-- The completion of an accept, with what becomes of it: whether the connection is validated, a
handler is made and leaves it open, and the next accept can be submitted. -/
structure AcceptCompletion where
  success : Bool := true
  acceptHandle : Option ℕ
  error : ℕ := 0
  validated : Bool := true
  made : Bool := true
  remains : Bool := true
  submitted : Bool := true
  deriving DecidableEq, Repr

/-- The accepts that are outstanding, and a record of what has happened: the number of completions,
whether an accept could not be submitted, the descriptors with the number of their completion, and
the handles that every subscriber has been called with. -/
structure AsynchListener where
  outstanding : ℕ
  completed : ℕ := 0
  refused : Bool := false
  accepted : List (ℕ × ℕ) := []
  handed : List (ℕ × ℕ) := []
  closed : List (ℕ × ℕ) := []
  kept : List ℕ := []
  notified : List (Option ℕ) := []
  deriving DecidableEq, Repr

namespace AsynchListener

/-- `open`, where the socket `listenHandle` can be bound or not, and the accepts can be submitted. -/
def openListener (listenHandle : ℕ) (validateConnections reissueAccept : Bool) (backLog : ℕ)
    (numberOfInitialAccepts : Option ℕ) (bound : Bool) (submitted : ℕ → Bool) :
    Option (Acceptor × AsynchListener) :=
  let initialAccepts := numberOfInitialAccepts.getD backLog
  if bound && (List.range initialAccepts).all submitted then
    some (⟨some listenHandle, validateConnections, reissueAccept⟩,
      { outstanding := initialAccepts })
  else none

def start (listenHandle backLog : ℕ) (bound : Bool) (submitted : ℕ → Bool) :
    Option (Acceptor × AsynchListener) :=
  openListener listenHandle true true backLog none bound submitted

section Step

variable (a : Acceptor) (c : AcceptCompletion) (l : AsynchListener)

def failed : Bool :=
  !c.success || c.acceptHandle.isNone || (a.validateNewConnection && !c.validated) || !c.made

def reissues : Bool :=
  a.reissueAccept && a.listenHandle.isSome && decide (c.error ≠ ECANCELED)

def descriptor : List (ℕ × ℕ) := c.acceptHandle.toList.map fun handle => (l.completed, handle)

def handleAccept : AsynchListener where
  outstanding := l.outstanding - 1 + if reissues a c && c.submitted then 1 else 0
  completed := l.completed + 1
  refused := l.refused || (reissues a c && !c.submitted)
  accepted := l.accepted ++ descriptor c l
  handed := if failed a c then l.handed else l.handed ++ descriptor c l
  closed := if failed a c then l.closed ++ descriptor c l else l.closed
  kept := if !failed a c && c.remains then l.kept ++ c.acceptHandle.toList else l.kept
  -- whatever has become of the descriptor
  notified := l.notified ++ [c.acceptHandle]

def step (a : Acceptor) (l : AsynchListener) (c : AcceptCompletion) : Except Empty AsynchListener :=
  .ok (if l.outstanding = 0 then l else handleAccept a c l)

end Step

/-- As long as accepts can be submitted as many are outstanding, and every accepted descriptor has
been handed to one handler or closed. -/
structure Accounts (initial : ℕ) (l : AsynchListener) : Prop where
  outstanding : l.refused = false → l.outstanding = initial
  numbered : ∀ d ∈ l.accepted, d.1 < l.completed
  distinct : l.accepted.Nodup
  parted : l.accepted.Perm (l.handed ++ l.closed)

/-- The subscribers have been called with the connections that have been handed to a handler and
not been closed again, once each and in their order. -/
structure Reports (initial : ℕ) (l : AsynchListener) : Prop extends Accounts initial l where
  notified : l.notified = l.kept.map some

/-- A completion that comes has a connection that is validated, gets a handler and is not closed
again. -/
def Regular (l : AsynchListener) (c : AcceptCompletion) : Prop :=
  l.outstanding ≠ 0 → c.success ∧ c.acceptHandle ≠ none ∧ c.validated ∧ c.made ∧ c.remains

section Run

variable {a : Acceptor} {c : AcceptCompletion} {l : AsynchListener} {initial : ℕ}

theorem descriptor_fst {d : ℕ × ℕ} (h : d ∈ descriptor c l) : d.1 = l.completed := by
  obtain ⟨handle, -, rfl⟩ := List.mem_map.mp h
  rfl

theorem nodup_descriptor : (descriptor c l).Nodup := by
  rw [descriptor]
  cases c.acceptHandle <;> simp

theorem accounts_handleAccept (h : l.Accounts initial) (hne : l.outstanding ≠ 0)
    (hreissues : reissues a c = true) : (handleAccept a c l).Accounts initial := by
  constructor
  · intro hrefused
    simp only [handleAccept, hreissues, Bool.true_and, Bool.or_eq_false_iff,
      Bool.not_eq_false'] at hrefused ⊢
    have hinitial := h.outstanding hrefused.1
    rw [hrefused.2, if_pos rfl]
    omega
  · intro d hd
    rcases List.mem_append.mp hd with hd | hd
    · exact Nat.lt_succ_of_lt (h.numbered d hd)
    · exact (descriptor_fst hd).symm ▸ Nat.lt_succ_self l.completed
  · refine List.nodup_append.mpr ⟨h.distinct, nodup_descriptor, fun d hd d' hd' heq => ?_⟩
    have hlt := h.numbered d hd
    rw [heq, descriptor_fst hd'] at hlt
    exact lt_irrefl _ hlt
  · have hparted := h.parted.append_right (descriptor c l)
    rw [List.append_assoc] at hparted
    simp only [handleAccept]
    split_ifs
    · exact hparted
    · rw [List.append_assoc]
      exact hparted.trans (List.perm_append_comm.append_left _)

theorem failed_eq_false (hvalidate : a.validateNewConnection = true) :
    failed a c = false ↔ c.success ∧ c.acceptHandle ≠ none ∧ c.validated ∧ c.made := by
  rw [failed, hvalidate, Bool.true_and]
  cases c.acceptHandle with
  | none => simp
  | some handle => simp [and_assoc]

theorem notified_handleAccept (h : l.notified = l.kept.map some) :
    (handleAccept a c l).notified = (handleAccept a c l).kept.map some ↔
      failed a c = false ∧ c.remains = true := by
  simp only [handleAccept, h]
  split_ifs with hkept
  · rw [Bool.and_eq_true, Bool.not_eq_true'] at hkept
    refine iff_of_true ?_ hkept
    cases hhandle : c.acceptHandle with
    | none =>
      rw [failed, hhandle] at hkept
      simp at hkept
    | some handle => simp
  · refine iff_of_false (fun heq => ?_) fun hboth => hkept (by simp [hboth.1, hboth.2])
    have hlength := congrArg List.length heq
    simp at hlength

theorem reports_step {initial : ℕ} {l' : AsynchListener} (hvalidate : a.validateNewConnection = true)
    (hreissues : reissues a c = true) (h : l.Reports initial) (hstep : step a l c = .ok l') :
    l'.Reports initial ↔ l.Regular c := by
  cases hstep
  rw [Regular]
  by_cases hnone : l.outstanding = 0
  · rw [if_pos hnone]
    exact iff_of_true h fun hne => absurd hnone hne
  · rw [if_neg hnone]
    have haccounts := accounts_handleAccept h.toAccounts hnone hreissues
    have hnotified := notified_handleAccept (a := a) (c := c) h.notified
    rw [failed_eq_false hvalidate] at hnotified
    constructor
    · intro h' _
      have hparts := hnotified.mp h'.notified
      tauto
    · intro hregular
      have hparts := hregular hnone
      exact ⟨haccounts, hnotified.mpr (by tauto)⟩

theorem start_spec {listenHandle backLog : ℕ} {bound : Bool} {submitted : ℕ → Bool}
    (h : start listenHandle backLog bound submitted = some (a, l)) :
    a = ⟨some listenHandle, true, true⟩ ∧ l = { outstanding := backLog } := by
  rw [start, openListener] at h
  split_ifs at h
  cases h
  exact ⟨rfl, rfl⟩

theorem reissues_started {listenHandle : ℕ} {validate : Bool} (h : c.error ≠ ECANCELED) :
    reissues ⟨some listenHandle, validate, true⟩ c = true := by
  simp [reissues, h]

theorem accounts_started (backLog : ℕ) : Accounts backLog { outstanding := backLog } :=
  ⟨fun _ => rfl, fun _ hd => absurd hd List.not_mem_nil, List.nodup_nil, List.Perm.nil⟩

variable {listenHandle backLog : ℕ} {bound : Bool} {submitted : ℕ → Bool} {t : AsynchListener}
  {completions : List AcceptCompletion}

/-- A listener that has been started reports exactly the connections that it has made, in every
state that its completions lead to, exactly where every completion that comes is regular. -/
theorem reports_iff (hstart : start listenHandle backLog bound submitted = some (a, l))
    (herror : ∀ c ∈ completions, c.error ≠ ECANCELED) :
    (∀ front t, front <+: completions → Runs.run (step a) l front = .ok t → t.Reports backLog) ↔
      Runs.Along (step a) Regular l completions := by
  obtain ⟨rfl, rfl⟩ := start_spec hstart
  have hstep (seen : List AcceptCompletion) (s : AsynchListener) (c : AcceptCompletion)
      (s' : AsynchListener) (hs : s.Reports backLog) (hc : c.error ≠ ECANCELED)
      (hok : step ⟨some listenHandle, true, true⟩ s c = .ok s') :
      s'.Reports backLog ↔ s.Regular c :=
    reports_step rfl (reissues_started hc) hs hok
  have hstarted : Reports backLog { outstanding := backLog } := ⟨accounts_started backLog, rfl⟩
  exact @Runs.run_invariant_iff _ _ _ (step _) Regular _ (fun _ => Reports backLog) hstep
    (fun _ _ _ f => nomatch f) [] completions _ hstarted herror

end Run

instance Regular.decidable (l : AsynchListener) (c : AcceptCompletion) : Decidable (l.Regular c) :=
  inferInstanceAs (Decidable (_ → _))

def twoConnections : List AcceptCompletion :=
  [{ acceptHandle := some 7 }, { acceptHandle := some 8 }]

theorem two_connections_reported :
    (Runs.run (step ⟨some 3, true, true⟩) { outstanding := 5 } twoConnections).toOption.any
      (fun l => l.notified == [some 7, some 8]) = true ∧
    ∀ front t, front <+: twoConnections →
      Runs.run (step ⟨some 3, true, true⟩) { outstanding := 5 } front = .ok t → t.Reports 5 := by
  have hstart : start 3 5 true (fun _ => true) =
      some (⟨some 3, true, true⟩, { outstanding := 5 }) := by decide
  exact ⟨by decide, (reports_iff hstart (by decide)).mpr (by decide)⟩

def aborted : AcceptCompletion := { success := false, acceptHandle := none, error := 103 }

/-- The subscribers are called for an accept that has failed. -/
theorem aborted_accept_reported :
    ¬ ∀ (backLog : ℕ) (a : Acceptor) (l t : AsynchListener) (completions : List AcceptCompletion),
      start 3 backLog true (fun _ => true) = some (a, l) →
        (∀ c ∈ completions, c.error ≠ ECANCELED) →
          Runs.run (step a) l completions = .ok t → t.Reports backLog := by
  intro h
  have hreports := h 5 ⟨some 3, true, true⟩ { outstanding := 5 } _ [aborted] (by decide) (by decide)
    rfl
  exact absurd hreports.notified (by decide)

end AsynchListener

end ACENetwork.Net
