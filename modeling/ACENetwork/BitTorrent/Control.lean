import ACENetwork.BitTorrent.Session.Transitions

/-!
# The controller

The controller keeps its sessions under the base names of their metainfo files. Sessions
post events that a thread of the controller handles later, and every search for a session
is recorded with the key under which the session was inserted. Assertions of the
controller are evaluated.
-/
namespace ACENetwork.BitTorrent
open Library Tools Session

/-- `BitTorrent_Control_Event`, and the key of the session that has posted it. -/
structure Control.Event where
  origin : List Char
  metaInfoFileName : List Char
  type : ControlEvent
  data : List Char

/-- A search for the session that was inserted under a key, by a name. -/
structure Control.Lookup where
  key : List Char
  name : List Char
  deriving DecidableEq, Repr

/-- `BitTorrent_SessionContext_T`, with the handlers of the session that are running. -/
structure Control.Context where
  configuration : Configuration
  session : SessionPool

/-- The sessions of `BitTorrent_Control_T`, its queue, and the searches so far. -/
structure Control where
  sessions : List Char → Option Control.Context
  queue : List Control.Event
  lookups : List Control.Lookup

namespace Control

/-- What the steps of `request` return, and the state that `initialize` leaves. -/
structure RequestResults where
  parsed : Bool
  initialized : Bool
  /-- the address of the tracker is found -/
  trackerAddress : Bool
  /-- the request is sent to the tracker -/
  sent : Bool
  state : SessionState

def initial : Control := ⟨fun _ => none, [], []⟩

variable (c : Control)

def lookup (key name : List Char) : Control := { c with lookups := c.lookups ++ [⟨key, name⟩] }

def insert (key : List Char) (context : Context) : Control :=
  { c with sessions := Function.update c.sessions key (some context) }

def erase (key : List Char) : Control :=
  { c with sessions := Function.update c.sessions key none }

def put (event : Event) : Control := { c with queue := c.queue ++ [event] }

/-- `ACE_ASSERT (iterator != sessions_.end ())`, and the state behind it. -/
def assertRegistered (name : List Char) (next : Control) : Except Fault Control :=
  if (c.sessions name).isSome then .ok next else .error .assertion

def request (configurationBase : Configuration) (metaInfoFileName : List Char)
    (results : RequestResults) : Except Fault Control :=
  let label := fileBasename metaInfoFileName
  if !results.parsed then .ok c
  else if (c.sessions label).isSome then .error .assertion
  else
    let inserted := c.insert label ⟨configurationBase, Pool.initial results.state⟩
    if !results.initialized || !results.trackerAddress then
      .ok ((inserted.lookup label label).erase label)
    else if !isMissingPiece results.state.pieces then
      .ok (inserted.put ⟨label, label, .complete, []⟩)
    else if !results.sent then .ok ((inserted.lookup label label).erase label)
    else .ok inserted

def cancel (metaInfoFileName : List Char) : Control :=
  let searched := c.lookup (fileBasename metaInfoFileName) metaInfoFileName
  match c.sessions metaInfoFileName with
  | none => searched
  | some _ => searched.erase metaInfoFileName

/-- `get`, which only searches. -/
def get (metaInfoFileName : List Char) : Control :=
  c.lookup (fileBasename metaInfoFileName) (fileBasename metaInfoFileName)

def handle : Except Fault Control :=
  match c.queue with
  | [] => .ok c
  | event :: queue =>
    let next := { c with queue := queue }
    let searched := next.lookup event.origin event.metaInfoFileName
    match event.type with
    | .cancelled | .complete =>
      -- `notifyTracker` searches first
      c.assertRegistered event.metaInfoFileName
        (searched.lookup event.origin event.metaInfoFileName)
    | .noMorePeers => .ok searched
    | .trackerRedirected =>
      if event.data = [] then .error .assertion
      else c.assertRegistered event.metaInfoFileName searched
    | .trackerRerequestPeers => .ok next

/-- What an effect of the session under a key does to the controller: `notify` puts an
event into the queue and `notifyTracker` searches at once. -/
def deliver (origin : List Char) (c : Control) : Effect → Control
  | .notify name type data => c.put ⟨origin, name, type, data⟩
  | .notifyTracker name _ => c.lookup origin name
  | _ => c

/-- The session under a key starts a handler or runs the next scope of one. -/
def advance (key : List Char) (event : PoolEvent Job) : Except Fault Control :=
  match c.sessions key with
  | none => .ok c
  | some context => do
    let session ← Pool.step (Job.handler context.configuration) context.session event
    let effects := effectsOf (session.history.drop context.session.history.length)
    .ok (effects.foldl (deliver key) (c.insert key ⟨context.configuration, session⟩))

inductive Command where
  | request (configurationBase : Configuration) (metaInfoFileName : List Char)
      (results : RequestResults)
  | cancel (metaInfoFileName : List Char)
  | get (metaInfoFileName : List Char)
  | handle
  | advance (key : List Char) (event : PoolEvent Job)

def step (c : Control) : Command → Except Fault Control
  | .request base metaInfoFileName results => c.request base metaInfoFileName results
  | .cancel metaInfoFileName => .ok (c.cancel metaInfoFileName)
  | .get metaInfoFileName => .ok (c.get metaInfoFileName)
  | .handle => c.handle
  | .advance key event => c.advance key event

/-- Every search is for the key of its session, and an event of a session that is
registered finds it. -/
structure Hits (c : Control) : Prop where
  lookups : ∀ lookup ∈ c.lookups, lookup.name = lookup.key
  registered : ∀ event ∈ c.queue, ∀ context, c.sessions event.origin = some context →
    c.sessions event.metaInfoFileName = some context

/-- The command is about a path, in a program whose base configuration has a file name. -/
def ForPath (configured metaInfoFileName : List Char) : Command → Prop
  | .request base name _ => base.metaInfoFileName = configured ∧ name = metaInfoFileName
  | .cancel name | .get name => name = metaInfoFileName
  | .handle | .advance _ _ => True

/-- The names under which the effects of a scope reach the controller. -/
def Issues (cfg : Configuration) (l : Label) (_ : SessionState)
    (r : Except Fault (SessionState × List Effect)) : Prop :=
  ∀ t out, r = .ok (t, out) → ∀ effect ∈ out, effect.IssuedAt cfg l

theorem Job.allScopes_issues {cfg : Configuration} (job : Job) :
    (job.handler cfg).AllScopes (Issues cfg) :=
  job.allScopes_handler.mono fun _ _ _ h _ _ hr => transition_issued h hr

/-- The searches so far and the events in the queue are named by the keys of their
sessions. -/
structure Named (c : Control) : Prop where
  lookups : ∀ lookup ∈ c.lookups, lookup.name = lookup.key
  queue : ∀ event ∈ c.queue, event.metaInfoFileName = event.origin

/-- Every session is configured with its key, which is a base name. -/
structure Keyed (c : Control) : Prop extends Named c where
  sessions : ∀ key context, c.sessions key = some context →
    context.configuration.metaInfoFileName = key ∧ fileBasename key = key ∧
      ∀ p ∈ context.session.threads, p.AllScopes (Issues context.configuration)

section Keyed

variable {c : Control} {key : List Char}

@[simp] theorem insert_sessions {context : Context} :
    (c.insert key context).sessions = Function.update c.sessions key (some context) := rfl

@[simp] theorem erase_sessions :
    (c.erase key).sessions = Function.update c.sessions key none := rfl

theorem Named.lookup (h : Named c) : Named (c.lookup key key) := by
  refine ⟨fun l hl => ?_, h.queue⟩
  rcases List.mem_append.mp hl with hold | hnew
  · exact h.lookups l hold
  · rw [List.mem_singleton.mp hnew]

theorem Named.put (h : Named c) {event : Event} (hevent : event.metaInfoFileName = event.origin) :
    Named (c.put event) := by
  refine ⟨h.lookups, fun e he => ?_⟩
  rcases List.mem_append.mp he with hold | hnew
  · exact h.queue e hold
  · rw [List.mem_singleton.mp hnew, hevent]

theorem Keyed.lookup (h : Keyed c) : Keyed (c.lookup key key) := ⟨h.toNamed.lookup, h.sessions⟩

theorem Keyed.put (h : Keyed c) {event : Event} (hevent : event.metaInfoFileName = event.origin) :
    Keyed (c.put event) := ⟨h.toNamed.put hevent, h.sessions⟩

theorem Keyed.insert (h : Keyed c) {context : Context}
    (hcontext : context.configuration.metaInfoFileName = key ∧ fileBasename key = key ∧
      ∀ p ∈ context.session.threads, p.AllScopes (Issues context.configuration)) :
    Keyed (c.insert key context) := by
  refine ⟨⟨h.lookups, h.queue⟩, fun other context' hother => ?_⟩
  by_cases hkey : other = key
  · subst hkey
    obtain rfl : context = context' := by simpa using hother
    exact hcontext
  · rw [insert_sessions, Function.update_of_ne hkey] at hother
    exact h.sessions other context' hother

theorem Keyed.erase (h : Keyed c) : Keyed (c.erase key) := by
  refine ⟨⟨h.lookups, h.queue⟩, fun other context hother => ?_⟩
  by_cases hkey : other = key
  · subst hkey
    simp at hother
  · rw [erase_sessions, Function.update_of_ne hkey] at hother
    exact h.sessions other context hother

theorem Keyed.deliver {cfg : Configuration} {l : Label} (h : Keyed c)
    (hname : cfg.metaInfoFileName = key) (hbase : fileBasename key = key) {effects : List Effect}
    (heffects : ∀ effect ∈ effects, effect.IssuedAt cfg l) :
    Keyed (effects.foldl (Control.deliver key) c) := by
  induction effects generalizing c with
  | nil => exact h
  | cons effect effects ih =>
    have hissued := heffects effect List.mem_cons_self
    refine ih ?_ fun e he => heffects e (List.mem_cons_of_mem _ he)
    cases effect with
    | notify name type data =>
      have hkey : name = key := by simpa [Effect.IssuedAt, hname, hbase] using hissued
      exact h.put hkey
    | notifyTracker name type =>
      obtain rfl : name = key := by simpa [Effect.IssuedAt, hname, hbase] using hissued
      exact h.lookup
    | _ => exact h

theorem Keyed.advance (h : Keyed c) {event : PoolEvent Job} {c' : Control}
    (hstep : c.advance key event = .ok c') : Keyed c' := by
  unfold Control.advance at hstep
  cases hcontext : c.sessions key with
  | none =>
    simp only [hcontext] at hstep
    obtain rfl := Except.ok.inj hstep
    exact h
  | some context =>
    obtain ⟨hname, hbase, hthreads⟩ := h.sessions key context hcontext
    simp only [hcontext] at hstep
    cases hsession : Pool.step (Job.handler context.configuration) context.session event with
    | error e => simp [hsession, bind, Except.bind] at hstep
    | ok session =>
      simp only [hsession, bind, Except.bind, Except.ok.injEq] at hstep
      subst hstep
      obtain ⟨hthreads', hhistory⟩ := Pool.step_history hthreads Job.allScopes_issues hsession
      have hinserted : Keyed (c.insert key ⟨context.configuration, session⟩) :=
        h.insert ⟨hname, hbase, hthreads'⟩
      rcases hhistory with hsame | ⟨l, out, hissues, hhistory⟩
      · rw [hsame, List.drop_length]
        exact hinserted
      · rw [hhistory, List.drop_left]
        refine hinserted.deliver hname hbase (l := l) fun effect heffect => ?_
        exact hissues _ _ rfl effect (by simpa [effectsOf] using heffect)

theorem Keyed.handle (h : Keyed c) {c' : Control} (hstep : c.handle = .ok c') : Keyed c' := by
  unfold Control.handle at hstep
  split at hstep
  · obtain rfl := Except.ok.inj hstep
    exact h
  · rename_i event queue hqueue
    have hname : event.metaInfoFileName = event.origin :=
      h.queue event (by rw [hqueue]; exact List.mem_cons_self)
    have hnext : Keyed { c with queue := queue } := by
      refine ⟨⟨h.lookups, fun e he => h.queue e ?_⟩, h.sessions⟩
      rw [hqueue]
      exact List.mem_cons_of_mem _ he
    have hasserted {name : List Char} {next : Control} (hkeyed : Keyed next)
        (hok : c.assertRegistered name next = .ok c') : Keyed c' := by
      unfold assertRegistered at hok
      split at hok
      · obtain rfl := Except.ok.inj hok
        exact hkeyed
      · cases hok
    rw [hname] at hstep
    simp only at hstep
    split at hstep
    · exact hasserted hnext.lookup.lookup hstep
    · exact hasserted hnext.lookup.lookup hstep
    · obtain rfl := Except.ok.inj hstep
      exact hnext.lookup
    · split at hstep
      · cases hstep
      · exact hasserted hnext.lookup hstep
    · obtain rfl := Except.ok.inj hstep
      exact hnext

def KeepsKeys : Command → Prop
  | .request base name _ => base.metaInfoFileName = fileBasename name ∧ name = fileBasename name
  | .cancel name => name = fileBasename name
  | .get _ | .handle | .advance _ _ => True

theorem Keyed.step {c' : Control} {command : Command} (h : Keyed c) (hkeys : KeepsKeys command)
    (hstep : c.step command = .ok c') : Keyed c' := by
  cases command with
  | request base name results =>
    obtain ⟨hbase, hname⟩ := hkeys
    simp only [Control.step, Control.request] at hstep
    have hinserted : Keyed (c.insert (fileBasename name) ⟨base, Pool.initial results.state⟩) :=
      h.insert ⟨hbase, congrArg fileBasename hname.symm, by simp [Pool.initial]⟩
    split at hstep
    · obtain rfl := Except.ok.inj hstep
      exact h
    · split at hstep
      · cases hstep
      · split at hstep
        · obtain rfl := Except.ok.inj hstep
          exact hinserted.lookup.erase
        · split at hstep
          · obtain rfl := Except.ok.inj hstep
            exact hinserted.put rfl
          · split at hstep
            · obtain rfl := Except.ok.inj hstep
              exact hinserted.lookup.erase
            · obtain rfl := Except.ok.inj hstep
              exact hinserted
  | cancel name =>
    obtain rfl : c.cancel name = c' := Except.ok.inj hstep
    have hname : name = fileBasename name := hkeys
    have hsearched : Keyed (c.lookup (fileBasename name) name) := by
      rw [← hname]
      exact h.lookup
    simp only [Control.cancel]
    split
    · exact hsearched
    · exact hsearched.erase
  | get name =>
    obtain rfl : c.get name = c' := Except.ok.inj hstep
    exact h.lookup
  | handle => exact h.handle hstep
  | advance key event => exact h.advance hstep

theorem keyed_initial : Keyed initial :=
  ⟨⟨by simp [initial], by simp [initial]⟩, by simp [initial]⟩

theorem Named.hits (h : Named c) : Hits c := by
  refine ⟨h.lookups, fun event hevent context hcontext => ?_⟩
  rw [h.queue event hevent]
  exact hcontext

end Keyed

/-- A run with a path in which every search is for the key of its session, and every event
of a registered session finds it, whatever the sessions do. -/
def AlwaysHits (configured metaInfoFileName : List Char) : Prop :=
  ∀ commands, (∀ command ∈ commands, ForPath configured metaInfoFileName command) →
    ∀ c, Runs.run step initial commands = .ok c → Hits c

section Samples

variable (configured metaInfoFileName : List Char)

def sampleRequestCommand : Command :=
  .request { sampleConfiguration false with metaInfoFileName := configured } metaInfoFileName
    ⟨true, true, true, true, sampleSession [samplePiece false] []⟩

def sampleTrackerError : List Command :=
  [sampleRequestCommand configured metaInfoFileName,
    .advance (fileBasename metaInfoFileName) (.start ⟨1, .trackerError, sampleEnvironment⟩),
    .advance (fileBasename metaInfoFileName) (.schedule 0)]

variable {c : Control} {key : List Char}

theorem advance_ok {context : Context} {event : PoolEvent Job} {session : SessionPool}
    (hcontext : c.sessions key = some context)
    (hsession : Pool.step (Job.handler context.configuration) context.session event = .ok session) :
    c.advance key event =
      .ok ((effectsOf (session.history.drop context.session.history.length)).foldl (deliver key)
        (c.insert key ⟨context.configuration, session⟩)) := by
  simp [Control.advance, hcontext, hsession, bind, Except.bind]

theorem cancel_lookups : (c.cancel metaInfoFileName).lookups =
    c.lookups ++ [⟨fileBasename metaInfoFileName, metaInfoFileName⟩] := by
  unfold cancel
  split <;> rfl

/-- The event of the tracker's error carries the configured file name. -/
theorem run_sampleTrackerError :
    ∃ c context, Runs.run step initial (sampleTrackerError configured metaInfoFileName) = .ok c ∧
      c.sessions (fileBasename metaInfoFileName) = some context ∧
      (∀ other, other ≠ fileBasename metaInfoFileName → c.sessions other = none) ∧
      c.queue = [⟨fileBasename metaInfoFileName, configured, .cancelled, []⟩] := by
  refine ⟨_, _, Runs.run_cons_ok.mpr ⟨_, rfl, Runs.run_cons_ok.mpr ⟨_,
    advance_ok (Function.update_self ..) rfl, Runs.run_cons_ok.mpr ⟨_,
      advance_ok (Function.update_self ..) rfl, rfl⟩⟩⟩, Function.update_self .., ?_, rfl⟩
  intro other hother
  exact (Function.update_of_ne hother ..).trans <| (Function.update_of_ne hother ..).trans <|
    Function.update_of_ne hother ..

variable {configured metaInfoFileName}

theorem alwaysHits_configured (h : AlwaysHits configured metaInfoFileName) :
    configured = fileBasename metaInfoFileName := by
  obtain ⟨c, context, hrun, hsession, hothers, hqueue⟩ :=
    run_sampleTrackerError configured metaInfoFileName
  have hhits := h (sampleTrackerError configured metaInfoFileName)
    (by simp [sampleTrackerError, sampleRequestCommand, ForPath]) c hrun
  have hfound := hhits.registered _ (by rw [hqueue]; exact List.mem_cons_self) context hsession
  by_contra hother
  rw [hothers _ hother] at hfound
  cases hfound

theorem alwaysHits_path (h : AlwaysHits configured metaInfoFileName) :
    metaInfoFileName = fileBasename metaInfoFileName := by
  have hhits := h [sampleRequestCommand configured metaInfoFileName, .cancel metaInfoFileName]
    (by simp [sampleRequestCommand, ForPath]) _
    (Runs.run_cons_ok.mpr ⟨_, rfl, Runs.run_cons_ok.mpr ⟨_, rfl, rfl⟩⟩)
  refine hhits.lookups ⟨fileBasename metaInfoFileName, metaInfoFileName⟩ ?_
  rw [cancel_lookups]
  exact List.mem_append_right _ List.mem_cons_self

end Samples

/-- For a path and a configured file name, no search of any run misses just when both are
the base name of the path. -/
theorem alwaysHits_iff (configured metaInfoFileName : List Char) :
    AlwaysHits configured metaInfoFileName ↔
      configured = fileBasename metaInfoFileName ∧
        metaInfoFileName = fileBasename metaInfoFileName := by
  refine ⟨fun h => ⟨alwaysHits_configured h, alwaysHits_path h⟩, ?_⟩
  rintro ⟨hconfigured, hname⟩ commands hpath c hrun
  have hkeys : ∀ command ∈ commands, KeepsKeys command := by
    intro command hcommand
    have hfor := hpath command hcommand
    cases command with
    | request base name results =>
      obtain ⟨hbase, rfl⟩ := hfor
      exact ⟨hbase.trans hconfigured, hname⟩
    | cancel name =>
      obtain rfl : name = metaInfoFileName := hfor
      exact hname
    | _ => trivial
  have halong : Runs.Along step (fun _ command => KeepsKeys command) initial commands :=
    Runs.along_of_forall fun command hcommand _ => hkeys command hcommand
  have hkeyed : Keyed c := Runs.run_invariant Keyed (fun _ _ _ h hjob hstep => h.step hjob hstep)
    keyed_initial halong hrun
  exact hkeyed.toNamed.hits

/-- A torrent file in a directory: its session is inserted as `a`, and the error of the
tracker is looked up as `d/a.t`. -/
theorem not_alwaysHits :
    ¬ ∀ metaInfoFileName : List Char, AlwaysHits metaInfoFileName metaInfoFileName := by
  intro h
  have hname := alwaysHits_configured (h ['d', '/', 'a', '.', 't'])
  exact absurd hname (by decide)

end Control
end ACENetwork.BitTorrent
