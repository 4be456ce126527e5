import ACENetwork.BitTorrent.Common
import ACENetwork.Library.Runs

/-!
# The listener of the reactor

`Net_Server_Listener_T`, and `Net_Server_SSL_Listener_T`, which has the same `initialize`, `start`
and `stop`. What the operations of the acceptor return is free; a close that fails leaves the
acceptor in any state.
-/
namespace ACENetwork.Net
open BitTorrent (Fault)
open Library

/-- The socket of the acceptor and its registration with the reactor. -/
inductive AcceptorState (ι : Type) where
  | closed
  | listening (address : ι)
  | suspended (address : ι)
  deriving DecidableEq, Repr

namespace AcceptorState

variable {ι : Type}

def accepts : AcceptorState ι → Bool
  | .listening _ => true
  | _ => false

def suspend : AcceptorState ι → AcceptorState ι
  | .listening address => .suspended address
  | other => other

def resume : AcceptorState ι → AcceptorState ι
  | .suspended address => .listening address
  | other => other

end AcceptorState

structure ListenerConfiguration (ι : Type) where
  address : ι
  useLoopBackDevice : Bool
  deriving DecidableEq, Repr

/-- The configuration after `address.set`, which `start` calls for the loopback device. -/
def ListenerConfiguration.bound {ι : Type} (loopback : ι → ι) (c : ListenerConfiguration ι) :
    ListenerConfiguration ι :=
  if c.useLoopBackDevice then { c with address := loopback c.address } else c

structure Listener (ι : Type) where
  configuration : Option (ListenerConfiguration ι) := none
  hasChanged : Bool := false
  isInitialized : Bool := false
  isListening : Bool := false
  isOpen : Bool := false
  isSuspended : Bool := false
  acceptor : AcceptorState ι := .closed
  deriving DecidableEq, Repr

/-- Which operations of a call succeed, and what a close leaves that does not. -/
structure ListenerOutcome (ι : Type) where
  sets : Bool := true
  opens : Bool := true
  closes : Bool := true
  suspends : Bool := true
  resumes : Bool := true
  left : AcceptorState ι := .closed
  deriving DecidableEq, Repr

namespace Listener

section Source

variable {ι : Type} (loopback : ι → ι) (o : ListenerOutcome ι) (l : Listener ι)

def initializeWith (configuration : ListenerConfiguration ι) : Listener ι :=
  { l with configuration := some configuration, hasChanged := true, isInitialized := true }

/-- `inherited::close ()` in `start`, where the acceptor is open. -/
def closeChanged : Bool × Listener ι :=
  if !l.isOpen then (true, l)
  else if !o.closes then (false, { l with acceptor := o.left, isOpen := false, isListening := false })
  else (true, { l with acceptor := .closed, isOpen := false })

/-- The branch of `start` for a changed configuration; whether it goes on behind it. -/
def takeUp : Bool × Listener ι :=
  let l := { l with hasChanged := false }
  if !l.isSuspended then closeChanged o l
  else if !o.resumes then (false, l)
  else closeChanged o { l with acceptor := l.acceptor.resume, isSuspended := false }

def startListening : Except Fault (Bool × Listener ι) :=
  if l.isOpen then
    if !l.isSuspended then .error .assertion
    else if !o.resumes then .ok (false, l)
    else
      .ok (true, { l with acceptor := l.acceptor.resume, isSuspended := false, isListening := true })
  else
    match l.configuration with
    | none => .error .assertion
    | some c =>
      if c.useLoopBackDevice && !o.sets then .ok (false, l)
      else
        let c := c.bound loopback
        let l := { l with configuration := some c }
        if !o.opens then .ok (false, l)
        else .ok (true, { l with acceptor := .listening c.address, isOpen := true, isListening := true })

def start : Except Fault (Bool × Listener ι) :=
  if !l.isInitialized then .ok (false, l)
  else if l.isListening then .ok (true, l)
  else if l.hasChanged then
    let (goesOn, l) := takeUp o l
    if goesOn then startListening loopback o l else .ok (false, l)
  else startListening loopback o l

def stop (close : Bool) : Except Fault (Bool × Listener ι) :=
  if !l.isListening then .ok (true, l)
  else if !l.isOpen then .error .assertion
  else if close then
    if !o.closes then .ok (false, { l with acceptor := o.left, isOpen := false, isListening := false })
    else .ok (true, { l with acceptor := .closed, isOpen := false, isListening := false })
  else if !o.suspends then .ok (false, l)
  else .ok (true, { l with acceptor := l.acceptor.suspend, isSuspended := true, isListening := false })

end Source

inductive Call (ι : Type) where
  | initializeWith (configuration : ListenerConfiguration ι)
  | start
  | stop (close : Bool)
  deriving DecidableEq, Repr

/-- A listener in use: the address of the configuration with which a start has last taken effect,
whether the last call was a start that has returned true, or a `stop (true)` that has reported no
error, and whether there has been a `stop (false)` and no start since. -/
structure Session (ι : Type) where
  listener : Listener ι := {}
  effective : Option ι := none
  started : Bool := false
  stopped : Bool := false
  quiet : Bool := false
  deriving DecidableEq, Repr

section Step

variable {ι : Type} (loopback : ι → ι) (s : Session ι)

/-- A start takes effect if it returns true and the listener has not been listening before. -/
def effectiveOf (result : Bool) (l : Listener ι) : Option ι :=
  if result && !s.listener.isListening then l.configuration.map (·.address) else s.effective

def afterStart (result : Bool) (l : Listener ι) : Session ι :=
  { listener := l, effective := effectiveOf s result l, started := result, stopped := false
    quiet := false }

def afterStop (close reported : Bool) (l : Listener ι) : Session ι :=
  { s with listener := l, started := false, stopped := close && reported, quiet := s.quiet || !close }

def step (s : Session ι) : Call ι × ListenerOutcome ι → Except Fault (Session ι)
  | (.initializeWith configuration, _) =>
    .ok { s with listener := s.listener.initializeWith configuration, started := false, stopped := false }
  | (.start, o) => do
    let (result, l) ← s.listener.start loopback o
    .ok (afterStart s result l)
  | (.stop close, o) => do
    let (reported, l) ← s.listener.stop o close
    .ok (afterStop s close reported l)

/-- What the flags say of the acceptor. -/
structure Flagged (l : Listener ι) : Prop where
  isOpen : l.isOpen = (l.isListening || l.isSuspended)
  exclusive : l.isListening = true → l.isSuspended = false
  listening : l.isListening = true → ∃ a, l.acceptor = .listening a
  suspended : l.isSuspended = true → ∃ a, l.acceptor = .suspended a
  configured : l.isInitialized = true → ∃ c, l.configuration = some c

/-- The flags tell the truth, and the calls do what they report. -/
structure TellsTruth (s : Session ι) : Prop where
  flagged : Flagged s.listener
  listening : s.listener.isListening = true →
    ∃ a, s.effective = some a ∧ s.listener.acceptor = .listening a
  started : s.started = true → ∃ a, s.effective = some a ∧ s.listener.acceptor = .listening a
  stopped : s.stopped = true → s.listener.acceptor = .closed
  quiet : s.quiet = true → s.listener.acceptor.accepts = false

/-- A start that only resumes the acceptor, without having seen a change. -/
structure ResumesOnly (o : ListenerOutcome ι) (l : Listener ι) : Prop where
  isInitialized : l.isInitialized = true
  isListening : l.isListening = false
  hasChanged : l.hasChanged = false
  isOpen : l.isOpen = true
  resumes : o.resumes = true

/-- A start that only resumes the acceptor finds it on the address of the configuration;
`stop (true)` finds the listener listening or the acceptor closed; and `stop (false)` can suspend
what is listening, and finds nothing else that accepts. -/
def Regular (s : Session ι) : Call ι × ListenerOutcome ι → Prop
  | (.initializeWith _, _) => True
  | (.start, o) => ResumesOnly o s.listener →
      ∀ c a, s.listener.configuration = some c → s.listener.acceptor = .suspended a → a = c.address
  | (.stop true, _) => s.listener.isListening = true ∨ s.listener.acceptor = .closed
  | (.stop false, o) =>
      if s.listener.isListening then o.suspends = true else s.listener.acceptor.accepts = false

end Step

section Start

variable {ι : Type} {loopback : ι → ι} {o : ListenerOutcome ι} {l : Listener ι}

/-- A listener that is neither listening nor suspended, with whatever acceptor. -/
theorem flagged_of_idle (hopen : l.isOpen = false) (hlistening : l.isListening = false)
    (hsuspended : l.isSuspended = false)
    (hconfigured : l.isInitialized = true → ∃ c, l.configuration = some c) : Flagged l where
  isOpen := by rw [hopen, hlistening, hsuspended]; rfl
  exclusive := fun _ => hsuspended
  listening := fun h => absurd h (by simp [hlistening])
  suspended := fun h => absurd h (by simp [hsuspended])
  configured := hconfigured

theorem closeChanged_spec (hlistening : l.isListening = false) (hsuspended : l.isSuspended = false)
    (hconfigured : l.isInitialized = true → ∃ c, l.configuration = some c) :
    Flagged (closeChanged o l).2 ∧ (closeChanged o l).2.isListening = false ∧
      (closeChanged o l).2.isInitialized = l.isInitialized ∧
        ((closeChanged o l).1 = true → (closeChanged o l).2.isOpen = false) := by
  unfold closeChanged
  split_ifs with hopen hcloses
  · have hopen : l.isOpen = false := by simpa using hopen
    exact ⟨flagged_of_idle hopen hlistening hsuspended hconfigured, hlistening, rfl, fun _ => hopen⟩
  · exact ⟨flagged_of_idle rfl rfl hsuspended hconfigured, rfl, rfl, nofun⟩
  · exact ⟨flagged_of_idle rfl hlistening hsuspended hconfigured, hlistening, rfl, fun _ => rfl⟩

/-- Behind the branch of a changed configuration the acceptor is not open, or the start is given
up. -/
theorem takeUp_spec (h : Flagged l) (hlistening : l.isListening = false) :
    Flagged (takeUp o l).2 ∧ (takeUp o l).2.isListening = false ∧
      (takeUp o l).2.isInitialized = l.isInitialized ∧
        ((takeUp o l).1 = true → (takeUp o l).2.isOpen = false) := by
  unfold takeUp
  dsimp only
  split_ifs with hsuspended hresumes
  · have hsuspended : l.isSuspended = false := by simpa using hsuspended
    exact closeChanged_spec hlistening hsuspended h.configured
  · exact ⟨⟨h.isOpen, h.exclusive, h.listening, h.suspended, h.configured⟩, hlistening, rfl, nofun⟩
  · exact closeChanged_spec hlistening rfl h.configured

theorem startListening_of_closed (h : Flagged l) (hinitialized : l.isInitialized = true)
    (hopen : l.isOpen = false) :
    ∃ result l', startListening loopback o l = .ok (result, l') ∧ Flagged l' ∧
      (result = false ∧ l'.isListening = false ∨ result = true ∧ l'.isListening = true ∧
        ∃ c, l'.configuration = some c ∧ l'.acceptor = .listening c.address) := by
  obtain ⟨c, hc⟩ := h.configured hinitialized
  have hidle := h.isOpen
  rw [hopen, eq_comm, Bool.or_eq_false_iff] at hidle
  unfold startListening
  rw [if_neg (by simp [hopen])]
  simp only [hc]
  split_ifs
  · exact ⟨false, l, rfl, h, .inl ⟨rfl, hidle.1⟩⟩
  · exact ⟨false, _, rfl, flagged_of_idle hopen hidle.1 hidle.2 fun _ => ⟨_, rfl⟩, .inl ⟨rfl, hidle.1⟩⟩
  · refine ⟨true, _, rfl, ?_, .inr ⟨rfl, rfl, _, rfl, rfl⟩⟩
    exact ⟨rfl, fun _ => hidle.2, fun _ => ⟨_, rfl⟩, fun hs => absurd hs (by simp [hidle.2]),
      fun _ => ⟨_, rfl⟩⟩

theorem startListening_of_open (h : Flagged l) (hlistening : l.isListening = false)
    (hopen : l.isOpen = true) :
    ∃ a, l.acceptor = .suspended a ∧
      ((o.resumes = false ∧ startListening loopback o l = .ok (false, l)) ∨
        (o.resumes = true ∧ ∃ l', startListening loopback o l = .ok (true, l') ∧ Flagged l' ∧
          l'.isListening = true ∧ l'.configuration = l.configuration ∧ l'.acceptor = .listening a)) := by
  have hsuspended : l.isSuspended = true := by
    have hflags := h.isOpen
    rw [hopen, hlistening, Bool.false_or] at hflags
    exact hflags.symm
  obtain ⟨a, ha⟩ := h.suspended hsuspended
  refine ⟨a, ha, ?_⟩
  unfold startListening
  rw [if_pos hopen, if_neg (by simp [hsuspended])]
  cases hresumes : o.resumes with
  | false => exact .inl ⟨rfl, rfl⟩
  | true =>
    refine .inr ⟨rfl, _, rfl, ?_, rfl, rfl, by simp [ha, AcceptorState.resume]⟩
    exact ⟨by simp [hopen], fun _ => rfl, fun _ => ⟨a, by simp [ha, AcceptorState.resume]⟩, nofun,
      h.configured⟩

theorem start_resumesOnly (h : Flagged l) (honly : ResumesOnly o l) :
    ∃ a c l', l.acceptor = .suspended a ∧ l.configuration = some c ∧
      start loopback o l = .ok (true, l') ∧ Flagged l' ∧ l'.isListening = true ∧
        l'.configuration = some c ∧ l'.acceptor = .listening a := by
  obtain ⟨c, hc⟩ := h.configured honly.isInitialized
  obtain ⟨a, ha, hrest⟩ :=
    @startListening_of_open _ loopback o l h honly.isListening honly.isOpen
  rcases hrest with ⟨hresumes, -⟩ | ⟨-, l', hok, hflagged, hlistening, hsame, hacceptor⟩
  · exact absurd honly.resumes (by simp [hresumes])
  · refine ⟨a, c, l', ha, hc, ?_, hflagged, hlistening, hsame.trans hc, hacceptor⟩
    unfold start
    rw [if_neg (by simp [honly.isInitialized]), if_neg (by simp [honly.isListening]),
      if_neg (by simp [honly.hasChanged]), hok]

/-- A start fails, finds the listener listening, or opens the acceptor. -/
def StartsAnew (l l' : Listener ι) (result : Bool) : Prop :=
  result = false ∧ (l'.isListening = true → l' = l) ∨
    result = true ∧ (l.isListening = true ∧ l' = l ∨
      l.isListening = false ∧ l'.isListening = true ∧
        ∃ c, l'.configuration = some c ∧ l'.acceptor = .listening c.address)

theorem startsAnew_of_closed {m : Listener ι} (hlistening : l.isListening = false) (h : Flagged m)
    (hinitialized : m.isInitialized = true) (hopen : m.isOpen = false) :
    ∃ result l', startListening loopback o m = .ok (result, l') ∧ Flagged l' ∧
      StartsAnew l l' result := by
  obtain ⟨result, l', hok, hflagged, hcases⟩ :=
    startListening_of_closed h hinitialized hopen
  refine ⟨result, l', hok, hflagged, ?_⟩
  rcases hcases with ⟨hresult, hidle⟩ | ⟨hresult, hstarted⟩
  · exact .inl ⟨hresult, fun h => absurd h (by simp [hidle])⟩
  · exact .inr ⟨hresult, .inr ⟨hlistening, hstarted⟩⟩

theorem start_other (h : Flagged l) (hother : ¬ ResumesOnly o l) :
    ∃ result l', start loopback o l = .ok (result, l') ∧ Flagged l' ∧ StartsAnew l l' result := by
  unfold start
  by_cases hinitialized : l.isInitialized = true
  · rw [if_neg (by simp [hinitialized])]
    by_cases hlistening : l.isListening = true
    · rw [if_pos hlistening]
      exact ⟨true, l, rfl, h, .inr ⟨rfl, .inl ⟨hlistening, rfl⟩⟩⟩
    rw [if_neg hlistening]
    rw [Bool.not_eq_true] at hlistening
    by_cases hchanged : l.hasChanged = true
    · obtain ⟨hflagged, hidle, hsame, hopen⟩ := takeUp_spec (o := o) h hlistening
      rw [if_pos hchanged]
      dsimp only
      split_ifs with hgoes
      · exact startsAnew_of_closed hlistening hflagged (hsame.trans hinitialized) (hopen hgoes)
      · exact ⟨false, _, rfl, hflagged, .inl ⟨rfl, fun h => absurd h (by simp [hidle])⟩⟩
    · rw [if_neg hchanged]
      by_cases hopen : l.isOpen = true
      · obtain ⟨a, -, hrest⟩ := startListening_of_open h hlistening hopen
        rcases hrest with ⟨-, hok⟩ | ⟨hresumes, -⟩
        · exact ⟨false, l, hok, h, .inl ⟨rfl, fun _ => rfl⟩⟩
        · rw [Bool.not_eq_true] at hchanged
          exact absurd ⟨hinitialized, hlistening, hchanged, hopen, hresumes⟩ hother
      · exact startsAnew_of_closed hlistening h hinitialized (Bool.not_eq_true _ ▸ hopen)
  · rw [if_pos (by simp [hinitialized])]
    exact ⟨false, l, rfl, h, .inl ⟨rfl, fun _ => rfl⟩⟩

theorem stop_spec (h : Flagged l) (close : Bool) :
    ∃ reported l', stop o l close = .ok (reported, l') ∧ Flagged l' ∧
      (l.isListening = false ∧ reported = true ∧ l' = l ∨
        l.isListening = true ∧
          (close = true ∧ l'.isListening = false ∧ (reported = true → l'.acceptor = .closed) ∨
            close = false ∧ o.suspends = true ∧ l'.isListening = false ∧
              l'.acceptor = l.acceptor.suspend ∨
            close = false ∧ o.suspends = false ∧ reported = false ∧ l' = l)) := by
  unfold stop
  by_cases hlistening : l.isListening = true
  · have hopen : l.isOpen = true := by rw [h.isOpen, hlistening, Bool.true_or]
    have hidle := h.exclusive hlistening
    rw [if_neg (by simp [hlistening]), if_neg (by simp [hopen])]
    cases close with
    | true =>
      rw [if_pos rfl]
      split_ifs
      · exact ⟨false, _, rfl, flagged_of_idle rfl rfl hidle h.configured,
          .inr ⟨hlistening, .inl ⟨rfl, rfl, nofun⟩⟩⟩
      · exact ⟨true, _, rfl, flagged_of_idle rfl rfl hidle h.configured,
          .inr ⟨hlistening, .inl ⟨rfl, rfl, fun _ => rfl⟩⟩⟩
    | false =>
      rw [if_neg Bool.false_ne_true]
      cases hsuspends : o.suspends with
      | false => exact ⟨false, l, rfl, h, .inr ⟨hlistening, .inr (.inr ⟨rfl, rfl, rfl, rfl⟩)⟩⟩
      | true =>
        obtain ⟨a, ha⟩ := h.listening hlistening
        refine ⟨true, _, rfl, ?_, .inr ⟨hlistening, .inr (.inl ⟨rfl, rfl, rfl, rfl⟩)⟩⟩
        exact ⟨by simp [hopen], nofun, nofun,
          fun _ => ⟨a, by simp [ha, AcceptorState.suspend]⟩, h.configured⟩
  · rw [Bool.not_eq_true] at hlistening
    rw [if_pos (by simp [hlistening])]
    exact ⟨true, l, rfl, h, .inl ⟨hlistening, rfl, rfl⟩⟩

end Start

section Run

variable {ι : Type} {loopback : ι → ι} {s s' : Session ι} {e : Call ι × ListenerOutcome ι}

theorem step_start {o : ListenerOutcome ι} {result : Bool} {l : Listener ι}
    (h : start loopback o s.listener = .ok (result, l)) :
    step loopback s (.start, o) = .ok (afterStart s result l) := by
  simp [step, h, bind, Except.bind]

theorem step_stop {o : ListenerOutcome ι} {close reported : Bool} {l : Listener ι}
    (h : stop o s.listener close = .ok (reported, l)) :
    step loopback s (.stop close, o) = .ok (afterStop s close reported l) := by
  simp [step, h, bind, Except.bind]

theorem step_flagged (h : Flagged s.listener) (e : Call ι × ListenerOutcome ι) :
    ∃ s', step loopback s e = .ok s' ∧ Flagged s'.listener := by
  obtain ⟨call, o⟩ := e
  cases call with
  | initializeWith configuration =>
    exact ⟨_, rfl, ⟨h.isOpen, h.exclusive, h.listening, h.suspended, fun _ => ⟨_, rfl⟩⟩⟩
  | start =>
    by_cases honly : ResumesOnly o s.listener
    · obtain ⟨a, c, l', -, -, hok, hflagged, -⟩ := @start_resumesOnly _ loopback o _ h honly
      exact ⟨_, step_start hok, hflagged⟩
    · obtain ⟨result, l', hok, hflagged, -⟩ := @start_other _ loopback o _ h honly
      exact ⟨_, step_start hok, hflagged⟩
  | stop close =>
    obtain ⟨reported, l', hok, hflagged, -⟩ := stop_spec (o := o) h close
    exact ⟨_, step_stop hok, hflagged⟩

theorem tellsTruth_initializeWith (h : TellsTruth s) (configuration : ListenerConfiguration ι)
    (o : ListenerOutcome ι) (hstep : step loopback s (.initializeWith configuration, o) = .ok s') :
    TellsTruth s' := by
  obtain rfl := Except.ok.inj hstep
  exact ⟨⟨h.flagged.isOpen, h.flagged.exclusive, h.flagged.listening, h.flagged.suspended,
    fun _ => ⟨_, rfl⟩⟩, h.listening, nofun, nofun, h.quiet⟩

theorem tellsTruth_start {o : ListenerOutcome ι} (h : TellsTruth s)
    (hstep : step loopback s (.start, o) = .ok s') : TellsTruth s' ↔ Regular s (.start, o) := by
  by_cases honly : ResumesOnly o s.listener
  · obtain ⟨a, c, l', ha, hc, hok, hflagged, hlistening, hsame, hacceptor⟩ :=
      @start_resumesOnly _ loopback o _ h.flagged honly
    obtain rfl := Except.ok.inj ((step_start hok).symm.trans hstep)
    have heffective : effectiveOf s true l' = some c.address := by
      simp [effectiveOf, honly.isListening, hsame]
    constructor
    · intro h' _ c' a' hc' ha'
      obtain ⟨b, hb, hlisten⟩ := h'.started rfl
      have hba : b = a := AcceptorState.listening.inj (hlisten.symm.trans hacceptor)
      have hbc : b = c.address := Option.some.inj (hb.symm.trans heffective)
      obtain rfl := Option.some.inj (hc.symm.trans hc')
      obtain rfl := AcceptorState.suspended.inj (ha.symm.trans ha')
      exact hba.symm.trans hbc
    · intro hregular
      have haddress := hregular honly c a hc ha
      have hboth : ∃ b, effectiveOf s true l' = some b ∧ l'.acceptor = .listening b :=
        ⟨a, haddress ▸ heffective, hacceptor⟩
      exact ⟨hflagged, fun _ => hboth, fun _ => hboth, nofun, nofun⟩
  · refine iff_of_true ?_ fun h' => absurd h' honly
    obtain ⟨result, l', hok, hflagged, hcases⟩ := @start_other _ loopback o _ h.flagged honly
    obtain rfl := Except.ok.inj ((step_start hok).symm.trans hstep)
    rcases hcases with ⟨rfl, hsame⟩ | ⟨rfl, ⟨hlistening, rfl⟩ | ⟨hidle, -, c, hc, hacceptor⟩⟩
    · refine ⟨hflagged, fun hlistening => ?_, nofun, nofun, nofun⟩
      obtain rfl := hsame hlistening
      exact h.listening hlistening
    · have heffective : effectiveOf s true s.listener = s.effective := by
        simp [effectiveOf, hlistening]
      have hboth : ∃ b, effectiveOf s true s.listener = some b ∧
          s.listener.acceptor = .listening b := heffective ▸ h.listening hlistening
      exact ⟨hflagged, fun _ => hboth, fun _ => hboth, nofun, nofun⟩
    · have heffective : effectiveOf s true l' = some c.address := by
        simp [effectiveOf, hidle, hc]
      have hboth : ∃ b, effectiveOf s true l' = some b ∧ l'.acceptor = .listening b :=
        ⟨c.address, heffective, hacceptor⟩
      exact ⟨hflagged, fun _ => hboth, fun _ => hboth, nofun, nofun⟩

theorem tellsTruth_stop {o : ListenerOutcome ι} (h : TellsTruth s) (close : Bool)
    (hstep : step loopback s (.stop close, o) = .ok s') :
    TellsTruth s' ↔ Regular s (.stop close, o) := by
  obtain ⟨reported, l', hok, hflagged, hcases⟩ := @stop_spec _ o _ h.flagged close
  obtain rfl := Except.ok.inj ((step_stop hok).symm.trans hstep)
  rcases hcases with ⟨hidle, rfl, rfl⟩ | ⟨hlistening, hcases⟩
  · have hnever {p : Prop} (hlistening : s.listener.isListening = true) : p :=
      absurd hlistening (by simp [hidle])
    cases close with
    | true =>
      constructor
      · exact fun h' => .inr (h'.stopped rfl)
      · rintro (hlistening | hclosed)
        · exact hnever hlistening
        · exact ⟨hflagged, hnever, nofun, fun _ => hclosed, fun _ => by simp [afterStop, hclosed,
            AcceptorState.accepts]⟩
    | false =>
      simp only [Regular, hidle, Bool.false_eq_true, if_false]
      constructor
      · exact fun h' => h'.quiet (by simp [afterStop])
      · exact fun hquiet => ⟨hflagged, hnever, nofun, nofun, fun _ => hquiet⟩
  · obtain ⟨a, -, hacceptor⟩ := h.listening hlistening
    have hloud : s.quiet = false := by
      by_contra hquiet
      have := h.quiet (by simpa using hquiet)
      simp [hacceptor, AcceptorState.accepts] at this
    rcases hcases with ⟨rfl, hidle, hclosed⟩ | ⟨rfl, hsuspends, hidle, hafter⟩ |
      ⟨rfl, hsuspends, rfl, rfl⟩
    · refine iff_of_true ?_ (.inl hlistening)
      have hnever {p : Prop} (hlistening : l'.isListening = true) : p :=
        absurd hlistening (by simp [hidle])
      exact ⟨hflagged, hnever, nofun, fun hreported => hclosed hreported,
        fun hquiet => absurd hquiet (by simp [afterStop, hloud])⟩
    · refine iff_of_true ?_ (by simp [Regular, hlistening, hsuspends])
      have hnever {p : Prop} (hlistening : l'.isListening = true) : p :=
        absurd hlistening (by simp [hidle])
      exact ⟨hflagged, hnever, nofun, nofun,
        fun _ => by simp [afterStop, hafter, hacceptor, AcceptorState.suspend, AcceptorState.accepts]⟩
    · refine iff_of_false (fun h' => ?_) (by simp [Regular, hlistening, hsuspends])
      have := h'.quiet (by simp [afterStop])
      simp [afterStop, hacceptor, AcceptorState.accepts] at this

theorem tellsTruth_step (h : TellsTruth s) (hstep : step loopback s e = .ok s') :
    TellsTruth s' ↔ Regular s e := by
  obtain ⟨call, o⟩ := e
  cases call with
  | initializeWith configuration =>
    exact iff_of_true (tellsTruth_initializeWith h configuration o hstep) trivial
  | start => exact tellsTruth_start h hstep
  | stop close => exact tellsTruth_stop h close hstep

theorem flagged_unused : Flagged ({} : Listener ι) := flagged_of_idle rfl rfl rfl nofun

theorem tellsTruth_unused : TellsTruth ({} : Session ι) :=
  ⟨flagged_unused, nofun, nofun, nofun, nofun⟩

/-- No run of calls fails an assertion; and in every state of a run the flags tell the truth and the
calls have done what they report, exactly where the calls are regular. -/
theorem listener_tellsTruth_iff (loopback : ι → ι) (calls : List (Call ι × ListenerOutcome ι)) :
    (∃ t, Runs.run (step loopback) {} calls = .ok t) ∧
      ((∀ front t, front <+: calls → Runs.run (step loopback) {} front = .ok t → TellsTruth t) ↔
        Runs.Along (step loopback) Regular {} calls) := by
  constructor
  · obtain ⟨t, ht, -⟩ := @Runs.run_total_invariant _ _ _ (step loopback) (fun _ _ => True)
      (fun s => Flagged s.listener) (fun s e hs _ => step_flagged hs e) calls {} flagged_unused
      (Runs.along_of_forall fun _ _ _ => trivial)
    exact ⟨t, ht⟩
  · have hstep (seen : List (Call ι × ListenerOutcome ι)) (s : Session ι)
        (e : Call ι × ListenerOutcome ι) (s' : Session ι) (hs : TellsTruth s) (_ : True)
        (hok : step loopback s e = .ok s') : TellsTruth s' ↔ Regular s e :=
      tellsTruth_step hs hok
    have hfail (seen : List (Call ι × ListenerOutcome ι)) (s : Session ι)
        (e : Call ι × ListenerOutcome ι) (f : Fault) (hs : TellsTruth s)
        (herror : step loopback s e = .error f) : Regular s e := by
      obtain ⟨s', hok, -⟩ := @step_flagged _ loopback s hs.flagged e
      rw [herror] at hok
      cases hok
    exact @Runs.run_invariant_iff _ _ _ (step loopback) Regular (fun _ => True)
      (fun _ => TellsTruth) hstep hfail [] calls {} tellsTruth_unused fun _ _ => trivial

end Run

def suspendedAndStopped : List (Call ℕ × ListenerOutcome ℕ) :=
  [(.initializeWith ⟨7, false⟩, {}), (.start, {}), (.stop false, {}), (.stop true, {})]

/-- `stop (true)` returns early while the listener is suspended, and leaves its socket open. -/
theorem suspended_listener_stays_open :
    ¬ ∀ front t, front <+: suspendedAndStopped → Runs.run (step id) {} front = .ok t →
      TellsTruth t := by
  intro h
  have hstopped := (h suspendedAndStopped _ List.prefix_rfl rfl).stopped rfl
  exact absurd hstopped (by decide)

end Listener
end ACENetwork.Net
