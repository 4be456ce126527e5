import ACENetwork.IRC.NotifySafety
import ACENetwork.Library.Runs

/-!
# The session and the server

The server's view of the client is its nickname and the channels that it is in. The session
mirrors it as long as no stranger changes the nickname and no channel is joined twice or left
by a kick.
-/
namespace ACENetwork.IRC
open BitTorrent (Fault fault_bind_ok)
open Library

/-- The server's view of the client. -/
structure View where
  nick : Bytes
  channels : Finset Bytes := ∅
  deriving DecidableEq

/-- What a message of the server says about the client. -/
def View.next (v : View) (r : Record) : View :=
  match r.commandType, r.parameters with
  | some .nick, nick :: _ => if r.sender.origin = v.nick then { v with nick := nick } else v
  | some .join, channel :: _ =>
    if r.sender.origin = v.nick then { v with channels := insert channel v.channels } else v
  | some .part, channel :: _ =>
    if r.sender.origin = v.nick then { v with channels := v.channels.erase channel } else v
  | some .kick, channel :: target :: _ =>
    if target = v.nick then { v with channels := v.channels.erase channel } else v
  | _, _ => v

def view (nick : Bytes) (messages : List Record) : View := messages.foldl View.next { nick := nick }

structure Mirrors (v : View) (s : SessionState) : Prop where
  nick : s.nickName = v.nick
  once : s.channels.Nodup
  joined : ∀ channel, channel ∈ s.channels ↔ channel ∈ v.channels
  named : [] ∉ s.channels
  modes : ∀ channel ∈ s.channels, (s.channelToModes.find? (tolower channel)).isSome = true
  idle : s.channel = [] ↔ s.channels = []
  current : s.channels ≠ [] → s.channel ∈ s.channels

/-- The messages that the session follows: the nickname is changed by the client itself, and
its channels are left by `PART` only. -/
def Record.Followed (s : SessionState) (r : Record) : Prop :=
  match r.commandType, r.parameters with
  | some .nick, nick :: _ => r.sender.origin = s.nickName ∨ nick = s.nickName
  | some .join, channel :: _ => r.sender.origin = s.nickName → channel ∉ s.channels
  | some .kick, channel :: target :: _ => target = s.nickName → channel ∉ s.channels
  | _, _ => True

def Record.Named (r : Record) : Prop := ∀ parameter ∈ r.parameters, parameter ≠ []

instance Record.Named.decidable (r : Record) : Decidable r.Named :=
  inferInstanceAs (Decidable (∀ parameter ∈ r.parameters, parameter ≠ []))

/-- What is mirrored stays as it is; a channel that has modes keeps them. -/
structure Unchanged (s s' : SessionState) : Prop where
  nickName : s'.nickName = s.nickName
  channels : s'.channels = s.channels
  channel : s'.channel = s.channel
  modes : ∀ name, (s.channelToModes.find? name).isSome = true →
    (s'.channelToModes.find? name).isSome = true

theorem Unchanged.refl (s : SessionState) : Unchanged s s := ⟨rfl, rfl, rfl, fun _ h => h⟩

theorem Unchanged.trans {s t u : SessionState} (h : Unchanged s t) (h' : Unchanged t u) :
    Unchanged s u :=
  ⟨h'.nickName.trans h.nickName, h'.channels.trans h.channels, h'.channel.trans h.channel,
    fun name hname => h'.modes name (h.modes name hname)⟩

theorem unchanged_log (s : SessionState) (messageText : Bytes) : Unchanged s (s.log messageText) :=
  ⟨rfl, rfl, rfl, fun _ h => h⟩

theorem unchanged_logRecord {s s' : SessionState} {r : Record} (h : s.logRecord r = .ok s') :
    Unchanged s s' := by
  obtain ⟨messageText, rfl⟩ := logRecord_ok h
  exact unchanged_log s messageText

theorem Mirrors.unchanged {v : View} {s s' : SessionState} (h : Mirrors v s)
    (hs : Unchanged s s') : Mirrors v s' where
  nick := hs.nickName.trans h.nick
  once := hs.channels ▸ h.once
  joined := hs.channels ▸ h.joined
  named := hs.channels ▸ h.named
  modes channel hchannel := hs.modes _ (h.modes channel (hs.channels ▸ hchannel))
  idle := by rw [hs.channel, hs.channels, h.idle]
  current := by rw [hs.channel, hs.channels]; exact h.current

theorem unchanged_userhost {s s' : SessionState} {parameters : List Bytes}
    (h : userhost s parameters = .ok s') : Unchanged s s' := by
  obtain ⟨parameter, -, hrecords⟩ := fault_bind_ok.mp h
  obtain ⟨records, -, hfold⟩ := fault_bind_ok.mp hrecords
  clear h hrecords
  induction records generalizing s with
  | nil =>
    obtain rfl : s = s' := Except.ok.inj hfold
    exact Unchanged.refl s
  | cons record records ih =>
    rw [List.foldlM_cons] at hfold
    obtain ⟨t, ht, hrest⟩ := fault_bind_ok.mp hfold
    obtain ⟨message, -, ht⟩ := fault_bind_ok.mp ht
    refine Unchanged.trans ?_ (ih hrest)
    cases message with
    | none => exact Except.ok.inj ht ▸ Unchanged.refl s
    | some message => exact Except.ok.inj ht ▸ unchanged_log s message

theorem unchanged_listReply {s s' : SessionState} {parameters : List Bytes}
    (h : listReply s parameters = .ok s') : Unchanged s s' := by
  unfold listReply at h
  split_ifs at h
  obtain ⟨_, -, h⟩ := fault_bind_ok.mp h
  obtain ⟨_, -, h⟩ := fault_bind_ok.mp h
  obtain ⟨_, -, h⟩ := fault_bind_ok.mp h
  obtain ⟨_, -, h⟩ := fault_bind_ok.mp h
  exact Except.ok.inj h ▸ ⟨rfl, rfl, rfl, fun _ h => h⟩

theorem unchanged_whoReply {s s' : SessionState} {parameters : List Bytes}
    (h : whoReply s parameters = .ok s') : Unchanged s s' := by
  unfold whoReply at h
  split_ifs at h
  obtain ⟨_, -, h⟩ := fault_bind_ok.mp h
  obtain ⟨_, -, h⟩ := fault_bind_ok.mp h
  obtain ⟨_, -, h⟩ := fault_bind_ok.mp h
  obtain ⟨_, -, h⟩ := fault_bind_ok.mp h
  obtain ⟨_, -, h⟩ := fault_bind_ok.mp h
  obtain ⟨_, -, h⟩ := fault_bind_ok.mp h
  obtain ⟨_, -, h⟩ := fault_bind_ok.mp h
  exact Except.ok.inj h ▸ ⟨rfl, rfl, rfl, fun _ h => h⟩

theorem unchanged_namReply {split : Bytes → UInt8 → List Bytes} {s s' : SessionState}
    {parameters : List Bytes} (h : namReply split s parameters = .ok s') : Unchanged s s' := by
  unfold namReply at h
  split_ifs at h
  obtain ⟨_, -, h⟩ := fault_bind_ok.mp h
  obtain ⟨_, -, h⟩ := fault_bind_ok.mp h
  obtain ⟨_, -, h⟩ := fault_bind_ok.mp h
  exact Except.ok.inj h ▸ ⟨rfl, rfl, rfl, fun _ h => h⟩

theorem unchanged_notifyNumeric {split : Bytes → UInt8 → List Bytes} {s s' : SessionState}
    {r : Record} {code : ℕ} (h : notifyNumeric split s r code = .ok s') : Unchanged s s' := by
  unfold notifyNumeric at h
  split_ifs at h
  · obtain ⟨rest, -, h⟩ := fault_bind_ok.mp h
    dsimp only at h
    split_ifs at h
    · have hlog := unchanged_logRecord h
      exact ⟨hlog.nickName, hlog.channels, hlog.channel, hlog.modes⟩
    · exact Except.ok.inj h ▸ ⟨rfl, rfl, rfl, fun _ h => h⟩
  · exact unchanged_userhost h
  · obtain ⟨t, ht, h⟩ := fault_bind_ok.mp h
    exact (unchanged_logRecord ht).trans (Except.ok.inj h ▸ ⟨rfl, rfl, rfl, fun _ h => h⟩)
  · exact unchanged_listReply h
  · exact unchanged_whoReply h
  · exact unchanged_namReply h
  · obtain ⟨_, -, h⟩ := fault_bind_ok.mp h
    exact Except.ok.inj h ▸ Unchanged.refl s
  · exact unchanged_logRecord h
  · obtain ⟨t, ht, h⟩ := fault_bind_ok.mp h
    exact error_ok h ▸ unchanged_logRecord ht
  · exact Except.ok.inj h ▸ Unchanged.refl s

theorem unchanged_notifyMode {s s' : SessionState} {r : Record} (h : notifyMode s r = .ok s') :
    Unchanged s s' := by
  obtain ⟨t, ht, h⟩ := fault_bind_ok.mp h
  obtain ⟨iterator, -, h⟩ := fault_bind_ok.mp h
  obtain ⟨target, -, h⟩ := fault_bind_ok.mp h
  refine (unchanged_logRecord ht).trans ?_
  split_ifs at h
  · obtain ⟨modes, -, h⟩ := fault_bind_ok.mp h
    obtain ⟨merged, -, h⟩ := fault_bind_ok.mp h
    exact Except.ok.inj h ▸ ⟨rfl, rfl, rfl, fun _ h => h⟩
  · cases hfind : t.channelToModes.find? (tolower target) with
    | none =>
      rw [hfind] at h
      cases h
    | some current =>
      rw [hfind] at h
      obtain ⟨modes, -, h⟩ := fault_bind_ok.mp h
      obtain ⟨merged, -, h⟩ := fault_bind_ok.mp h
      exact Except.ok.inj h ▸
        ⟨rfl, rfl, rfl, fun _ hname => OrderedMap.isSome_find?_assign merged.1 hname⟩

/-- Only NICK, JOIN and PART change what is mirrored. -/
theorem unchanged_notifyString {s s' : SessionState} {r : Record} {command : Option CommandType}
    (h : notifyString s r command = .ok s') (hnick : command ≠ some .nick)
    (hjoin : command ≠ some .join) (hpart : command ≠ some .part) : Unchanged s s' := by
  cases command with
  | none => exact Except.ok.inj h ▸ Unchanged.refl s
  | some type =>
    cases type with
    | nick => exact absurd rfl hnick
    | join => exact absurd rfl hjoin
    | part => exact absurd rfl hpart
    | mode => exact unchanged_notifyMode h
    | user | topic | kick | notice | away => exact unchanged_logRecord h
    | quit =>
      obtain ⟨t, ht, h⟩ := fault_bind_ok.mp h
      split_ifs at h
      · exact error_ok h ▸ unchanged_logRecord ht
      · exact Except.ok.inj h ▸ unchanged_logRecord ht
    | error =>
      obtain ⟨t, ht, h⟩ := fault_bind_ok.mp h
      exact error_ok h ▸ unchanged_logRecord ht
    | privmsg =>
      obtain ⟨parameter, -, h⟩ := fault_bind_ok.mp h
      obtain ⟨target, -, h⟩ := fault_bind_ok.mp h
      exact Except.ok.inj h ▸ unchanged_log s _
    | _ => exact Except.ok.inj h ▸ Unchanged.refl s

section

variable {v : View} {s s' : SessionState} {r : Record}

theorem Mirrors.rename (h : Mirrors v s) (nick : Bytes) :
    Mirrors { v with nick := nick } { s with nickName := nick } :=
  ⟨rfl, h.once, h.joined, h.named, h.modes, h.idle, h.current⟩

theorem mirrors_nick (h : Mirrors v s) (htype : r.commandType = some .nick)
    (hs : notifyString s r (some .nick) = .ok s') : Mirrors (v.next r) s' ↔ r.Followed s := by
  obtain ⟨nick, hfront, hlog⟩ := fault_bind_ok.mp hs
  obtain ⟨rest, hparameters⟩ := List.head?_eq_some_iff.mp (front_ok.mp hfront)
  have hunchanged := unchanged_logRecord hlog
  simp only [View.next, Record.Followed, htype, hparameters]
  by_cases hown : r.sender.origin = v.nick
  · rw [if_pos hown]
    exact iff_of_true ((h.rename nick).unchanged hunchanged) (Or.inl (hown.trans h.nick.symm))
  · rw [if_neg hown, h.nick, or_iff_right hown]
    constructor
    · intro hmirrors
      exact hunchanged.nickName.symm.trans hmirrors.nick
    · rintro rfl
      exact (h.rename v.nick).unchanged hunchanged

theorem mirrors_join (h : Mirrors v s) (htype : r.commandType = some .join) (hnamed : r.Named)
    (hs : notifyJoin s r = .ok s') : Mirrors (v.next r) s' ↔ r.Followed s := by
  unfold notifyJoin at hs
  split_ifs at hs with hown
  · obtain ⟨channel, hfront, hs⟩ := fault_bind_ok.mp hs
    obtain ⟨rest, hparameters⟩ := List.head?_eq_some_iff.mp (front_ok.mp hfront)
    obtain rfl := Except.ok.inj hs
    have hname : channel ≠ [] := hnamed channel (by simp [hparameters])
    simp only [View.next, Record.Followed, htype, hparameters]
    rw [if_pos (hown.trans h.nick), imp_iff_right hown]
    constructor
    · intro hmirrors hjoined
      have honce : (s.channels ++ [channel]).Nodup := hmirrors.once
      exact (List.nodup_append.mp honce).2.2 channel hjoined channel List.mem_cons_self rfl
    · intro hjoined
      refine ⟨h.nick, ?_, fun name => ?_, ?_, fun name hin => ?_, ?_, fun _ => ?_⟩
      · exact List.nodup_append.mpr ⟨h.once, List.nodup_singleton _,
          fun name hin name' hin' => by
            rintro rfl
            exact hjoined (List.mem_singleton.mp hin' ▸ hin)⟩
      · simp [h.joined name, or_comm]
      · simp [h.named, hname.symm]
      · have hkeys := OrderedMap.isSome_find?_insert s.channelToModes (tolower channel)
          (tolower name) ∅
        rcases List.mem_append.mp hin with hold | hnew
        · exact hkeys.mpr (Or.inr (h.modes name hold))
        · exact hkeys.mpr (Or.inl (congrArg tolower (List.mem_singleton.mp hnew)))
      · simp [hname]
      · simp
  · have hmirrors := h.unchanged (unchanged_logRecord hs)
    simp only [View.next, Record.Followed, htype]
    cases hparameters : r.parameters with
    | nil => exact iff_of_true hmirrors trivial
    | cons channel rest =>
      simp only [if_neg (h.nick ▸ hown)]
      exact iff_of_true hmirrors fun hin => absurd hin hown

theorem current_spec {channels : List Bytes} {current : Bytes} (hnamed : [] ∉ channels)
    (hcurrent : current ≠ [] → current ∈ channels) :
    ((if current = [] then channels.headD [] else current) = [] ↔ channels = []) ∧
      (channels ≠ [] → (if current = [] then channels.headD [] else current) ∈ channels) := by
  by_cases hidle : current = []
  · rw [if_pos hidle]
    cases channels with
    | nil => simp
    | cons channel channels =>
      have hne : channel ≠ [] := fun h => hnamed (h ▸ List.mem_cons_self)
      simp [hne]
  · rw [if_neg hidle]
    have hin := hcurrent hidle
    exact ⟨iff_of_false hidle (List.ne_nil_of_mem hin), fun _ => hin⟩

theorem mirrors_part (h : Mirrors v s) (htype : r.commandType = some .part)
    (hs : notifyPart s r = .ok s') : Mirrors (v.next r) s' := by
  unfold notifyPart at hs
  split_ifs at hs with hown
  · obtain ⟨channel, hfront, hs⟩ := fault_bind_ok.mp hs
    obtain ⟨rest, hparameters⟩ := List.head?_eq_some_iff.mp (front_ok.mp hfront)
    by_cases hknown : channel ∈ s.channels
    · rw [if_neg (not_not.mpr hknown)] at hs
      obtain rfl := Except.ok.inj hs
      simp only [View.next, htype, hparameters]
      rw [if_pos (hown.trans h.nick)]
      have hsub (name : Bytes) (hin : name ∈ s.channels.erase channel) : name ∈ s.channels :=
        List.mem_of_mem_erase hin
      have hunnamed : [] ∉ s.channels.erase channel := fun hin => h.named (hsub [] hin)
      -- the channel that stays current is another one
      have hcurrent : (if s.channel = channel then [] else s.channel) ≠ [] →
          (if s.channel = channel then [] else s.channel) ∈ s.channels.erase channel := by
        split_ifs with hparted
        · exact fun hne => absurd rfl hne
        · exact fun hidle => (List.mem_erase_of_ne hparted).mpr
            (h.current fun hnil => hidle (h.idle.mpr hnil))
      have hspec := current_spec hunnamed hcurrent
      refine ⟨h.nick, h.once.erase channel, fun name => ?_, hunnamed,
        fun name hin => h.modes name (hsub name hin), hspec.1, hspec.2⟩
      rw [log_channels, h.once.mem_erase_iff, Finset.mem_erase, h.joined name]
    · rw [if_pos hknown] at hs
      cases hs
  · have hmirrors := h.unchanged (unchanged_logRecord hs)
    simp only [View.next, htype]
    cases hparameters : r.parameters with
    | nil => exact hmirrors
    | cons channel rest =>
      simp only [if_neg (h.nick ▸ hown)]
      exact hmirrors

theorem mirrors_kick (h : Mirrors v s) (htype : r.commandType = some .kick)
    (hs : notifyString s r (some .kick) = .ok s') : Mirrors (v.next r) s' ↔ r.Followed s := by
  have hunchanged : Unchanged s s' := unchanged_logRecord hs
  have hmirrors := h.unchanged hunchanged
  simp only [View.next, Record.Followed, htype]
  rcases hparameters : r.parameters with _ | ⟨channel, _ | ⟨target, rest⟩⟩
  · exact iff_of_true hmirrors trivial
  · exact iff_of_true hmirrors trivial
  · dsimp only
    by_cases htarget : target = v.nick
    · rw [if_pos htarget, imp_iff_right (htarget.trans h.nick.symm)]
      constructor
      · intro hleft hin
        rw [← hunchanged.channels, hleft.joined channel] at hin
        simp at hin
      · intro hnot
        rw [Finset.erase_eq_of_notMem fun hin => hnot ((h.joined channel).mpr hin)]
        exact hmirrors
    · rw [if_neg htarget]
      exact iff_of_true hmirrors fun hown => absurd (hown.trans h.nick) htarget

/-- A message is followed exactly where the session goes on to mirror the server. -/
theorem mirrors_step {split : Bytes → UInt8 → List Bytes} (h : Mirrors v s) (hnamed : r.Named)
    (hs : notify split s r = .ok s') : Mirrors (v.next r) s' ↔ r.Followed s := by
  -- a message that is neither NICK, JOIN, PART nor KICK says nothing about the client
  have hother (hunchanged : Unchanged s s') (hnext : v.next r = v) (hfollowed : r.Followed s) :
      Mirrors (v.next r) s' ↔ r.Followed s :=
    iff_of_true (hnext.symm ▸ h.unchanged hunchanged) hfollowed
  unfold notify at hs
  cases hcommand : r.command with
  | numeric code =>
    rw [hcommand] at hs
    have htype : r.commandType = none := by rw [Record.commandType, hcommand]
    exact hother (unchanged_notifyNumeric hs) (by simp [View.next, htype])
      (by simp [Record.Followed, htype])
  | invalid =>
    rw [hcommand] at hs
    have htype : r.commandType = none := by rw [Record.commandType, hcommand]
    exact hother (Except.ok.inj hs ▸ Unchanged.refl s) (by simp [View.next, htype])
      (by simp [Record.Followed, htype])
  | string name =>
    rw [hcommand] at hs
    have htype : r.commandType = commandToType name := by rw [Record.commandType, hcommand]
    dsimp only at hs
    rw [← htype] at hs
    cases hcase : r.commandType with
    | none =>
      rw [hcase] at hs
      exact hother (Except.ok.inj hs ▸ Unchanged.refl s) (by simp [View.next, hcase])
        (by simp [Record.Followed, hcase])
    | some type =>
      rw [hcase] at hs
      cases type with
      | nick => exact mirrors_nick h hcase hs
      | join => exact mirrors_join h hcase hnamed hs
      | part =>
        refine iff_of_true (mirrors_part h hcase hs) ?_
        simp [Record.Followed, hcase]
      | kick => exact mirrors_kick h hcase hs
      | _ =>
        exact hother (unchanged_notifyString hs (by simp) (by simp) (by simp))
          (by simp [View.next, hcase]) (by simp [Record.Followed, hcase])

/-- NICK and JOIN fail without a parameter only, and KICK does not fail. -/
theorem followed_of_error {split : Bytes → UInt8 → List Bytes} {f : Fault}
    (hs : notify split s r = .error f) : r.Followed s := by
  cases hcommand : r.command with
  | numeric code => simp [Record.Followed, Record.commandType, hcommand]
  | invalid => simp [Record.Followed, Record.commandType, hcommand]
  | string name =>
    have htype : r.commandType = commandToType name := by rw [Record.commandType, hcommand]
    rw [notify, hcommand] at hs
    dsimp only at hs
    rw [← htype] at hs
    have hfails : ¬ NeedsMet s r r.commandType := by
      rw [← notifyString_succeeds s rfl, hs]
      exact not_succeeds_error f
    unfold Record.Followed
    split
    · next hcase hparameters => simp [hcase, NeedsMet, hparameters] at hfails
    · next hcase hparameters => simp [hcase, NeedsMet, hparameters] at hfails
    · next hcase hparameters => simp [hcase, NeedsMet] at hfails
    · trivial

end

theorem mirrors_start (nick : Bytes) : Mirrors { nick := nick } (start nick) :=
  ⟨rfl, List.nodup_nil, fun _ => iff_of_false List.not_mem_nil (Finset.notMem_empty _),
    List.not_mem_nil, fun _ hin => absurd hin List.not_mem_nil, iff_of_true rfl rfl,
    fun h => absurd rfl h⟩

/-- The session mirrors the server's view in every state exactly where it follows the messages
in every state. -/
theorem mirrors_iff_followed (split : Bytes → UInt8 → List Bytes) (nick : Bytes)
    (messages : List Record) (hnamed : ∀ r ∈ messages, r.Named) :
    (∀ seen s, seen <+: messages → Runs.run (notify split) (start nick) seen = .ok s →
      Mirrors (view nick seen) s) ↔
    Runs.Along (notify split) Record.Followed (start nick) messages := by
  have hstep (seen : List Record) (s : SessionState) (r : Record) (s' : SessionState)
      (h : Mirrors (view nick seen) s) (hnamed : r.Named) (hs : notify split s r = .ok s') :
      Mirrors (view nick (seen ++ [r])) s' ↔ r.Followed s := by
    rw [view, List.foldl_append]
    exact mirrors_step h hnamed hs
  have hfail (seen : List Record) (s : SessionState) (r : Record) (f : Fault)
      (_ : Mirrors (view nick seen) s) (hs : notify split s r = .error f) : r.Followed s :=
    followed_of_error hs
  have hstart : Mirrors (view nick []) (start nick) := mirrors_start nick
  simpa using Runs.run_invariant_iff (fun seen s => Mirrors (view nick seen) s) hstep hfail hstart
    hnamed

/-- The client joins a channel, takes another name and leaves the channel under it. -/
def visit : List Record :=
  [⟨{ origin := text "me" }, .string (text "JOIN"), [text "#c"]⟩,
    ⟨{ origin := text "me" }, .string (text "NICK"), [text "you"]⟩,
    ⟨{ origin := text "you" }, .string (text "PART"), [text "#c"]⟩]

theorem mirrors_visit :
    (∀ seen s, seen <+: visit →
      Runs.run (notify fun s c => s.splitOn c) (start (text "me")) seen = .ok s →
        Mirrors (view (text "me") seen) s) ↔
    Runs.Along (notify fun s c => s.splitOn c) Record.Followed (start (text "me")) visit :=
  mirrors_iff_followed (fun s c => s.splitOn c) (text "me") visit (by decide +kernel)

/-- A stranger takes another name, and the session takes it for its own. -/
def renamedStranger : List Record :=
  [⟨{ origin := text "stranger" }, .string (text "NICK"), [text "you"]⟩]

theorem stranger_not_mirrored : ∃ s,
    Runs.run (notify fun s c => s.splitOn c) (start (text "me")) renamedStranger = .ok s ∧
      ¬ Mirrors (view (text "me") renamedStranger) s := by
  have hrun : (Runs.run (notify fun s c => s.splitOn c) (start (text "me"))
      renamedStranger).toOption.map SessionState.nickName = some (text "you") := by decide +kernel
  have hview : (view (text "me") renamedStranger).nick = text "me" := by decide +kernel
  cases hs : Runs.run (notify fun s c => s.splitOn c) (start (text "me")) renamedStranger with
  | error f => simp [hs, Except.toOption] at hrun
  | ok s =>
    refine ⟨s, rfl, fun h => ?_⟩
    have hnick : s.nickName = text "you" := by simpa [hs, Except.toOption] using hrun
    have hne : text "you" ≠ text "me" := by decide +kernel
    exact hne (hnick.symm.trans (h.nick.trans hview))

end ACENetwork.IRC
