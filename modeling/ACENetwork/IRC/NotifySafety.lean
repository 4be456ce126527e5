import ACENetwork.IRC.Session

/-!
# Which messages the session survives

Some handlers read parameters that a message need not have, and some assert that the
session knows a channel. A message is handled exactly where these are there.
-/
namespace ACENetwork.IRC
open BitTorrent (Fault fault_bind_ok)
open Library

def Succeeds {α : Type} (x : Except Fault α) : Prop := ∃ a, x = .ok a

section Succeeds

variable {α β : Type}

@[simp] theorem succeeds_ok (a : α) : Succeeds (.ok a : Except Fault α) := ⟨a, rfl⟩

@[simp] theorem not_succeeds_error (e : Fault) : ¬ Succeeds (.error e : Except Fault α) := by
  rintro ⟨a, ha⟩
  cases ha

theorem succeeds_bind {x : Except Fault α} {f : α → Except Fault β} :
    Succeeds (x >>= f) ↔ ∃ a, x = .ok a ∧ Succeeds (f a) := by
  cases x with
  | error e => simp [Succeeds, bind, Except.bind]
  | ok a => simp [bind, Except.bind]

theorem Succeeds.bind {x : Except Fault α} {f : α → Except Fault β} (hx : Succeeds x)
    (hf : ∀ a, Succeeds (f a)) : Succeeds (x >>= f) := by
  obtain ⟨a, ha⟩ := hx
  exact succeeds_bind.2 ⟨a, ha, hf a⟩

theorem Succeeds.bind_iff {x : Except Fault α} {f : α → Except Fault β}
    (hf : ∀ a, Succeeds (f a)) : Succeeds (x >>= f) ↔ Succeeds x :=
  ⟨fun h => let ⟨a, ha, _⟩ := succeeds_bind.1 h; ⟨a, ha⟩, fun h => h.bind hf⟩

theorem front_succeeds {l : List α} : Succeeds (front l) ↔ l ≠ [] := by
  cases l <;> simp [front]

theorem back_succeeds {l : List α} : Succeeds (back l) ↔ l ≠ [] := by
  unfold back
  cases h : l.getLast? with
  | none => simp [List.getLast?_eq_none_iff.mp h]
  | some a =>
    have hne : l ≠ [] := by
      rintro rfl
      simp at h
    simpa using hne

theorem advance_succeeds {l : List α} {n : ℕ} : Succeeds (advance l n) ↔ n ≤ l.length := by
  unfold advance
  split_ifs with h <;> simp [h]

theorem front_advance_succeeds {l : List α} {n : ℕ} (h : n < l.length) :
    Succeeds (advance l n >>= front) := by
  rw [advance_of_le h.le]
  exact front_succeeds.2 (List.ne_nil_of_length_pos (by simpa using h))

end Succeeds

/-- The commands of which `RecordToString` reads a parameter without a check. -/
def readsParameter : Option CommandType → Bool
  | some .nick | some .quit | some .join | some .part => true
  | _ => false

theorem recordToString_succeeds (r : Record) :
    Succeeds (recordToString r) ↔ (readsParameter r.commandType = true → r.parameters ≠ []) := by
  obtain ⟨sender, command, parameters⟩ := r
  cases command with
  | numeric code =>
    simp only [recordToString, Record.commandType, readsParameter]
    split_ifs <;> simp
  | invalid => simp [recordToString, Record.commandType, readsParameter]
  | string name =>
    simp only [recordToString, Record.commandType]
    cases commandToType name with
    | none => simp [readsParameter]
    | some type =>
      have hback (f : Bytes → Bytes) :
          Succeeds (back parameters >>= fun p => Except.ok (f p) : Except Fault Bytes) ↔
            parameters ≠ [] :=
        (Succeeds.bind_iff fun p => succeeds_ok (f p)).trans back_succeeds
      cases type with
      | nick => simpa [readsParameter] using hback _
      | quit => simpa [readsParameter] using hback _
      | join => simpa [readsParameter] using hback _
      | part =>
        refine (Succeeds.bind_iff fun channel => ?_).trans (by simpa [readsParameter] using front_succeeds)
        split_ifs with hlength
        · rw [advance_of_le (by omega)]
          refine (front_succeeds.2 (List.ne_nil_of_length_pos ?_)).bind fun p => succeeds_ok _
          rw [List.length_drop]
          omega
        · exact succeeds_ok _
      | _ => simp [readsParameter]

theorem logRecord_succeeds (s : SessionState) (r : Record) :
    Succeeds (s.logRecord r) ↔ (readsParameter r.commandType = true → r.parameters ≠ []) :=
  (Succeeds.bind_iff fun _ => succeeds_ok _).trans (recordToString_succeeds r)

theorem error_succeeds (s : SessionState) (r : Record) :
    Succeeds (s.error r) ↔ (readsParameter r.commandType = true → r.parameters ≠ []) :=
  (Succeeds.bind_iff fun _ => succeeds_ok _).trans (recordToString_succeeds r)

theorem logRecord_of_not_reads {r : Record} (h : readsParameter r.commandType = false)
    (s : SessionState) : Succeeds (s.logRecord r) :=
  (logRecord_succeeds s r).mpr fun hreads => absurd hreads (by simp [h])

theorem error_of_not_reads {r : Record} (h : readsParameter r.commandType = false)
    (s : SessionState) : Succeeds (s.error r) :=
  (error_succeeds s r).mpr fun hreads => absurd hreads (by simp [h])

theorem userhostRecords_succeeds (parameter : Bytes) (lastPosition : ℕ)
    (h : lastPosition ≤ parameter.length) : Succeeds (userhostRecords parameter lastPosition) := by
  fun_induction userhostRecords parameter lastPosition with
  | case1 lastPosition hnone =>
    rw [substr_of_le h]
    exact succeeds_ok _
  | case2 lastPosition currentPosition hsome ih =>
    have hbounds := find_bounds hsome
    rw [substr_of_le h]
    exact (ih (by omega)).bind fun _ => succeeds_ok _

theorem userhostMessage_succeeds (record : Bytes) : Succeeds (userhostMessage record) := by
  unfold userhostMessage
  cases hposition : find record '='.toUInt8 0 with
  | none => exact succeeds_ok _
  | some position =>
    have hbounds := find_bounds hposition
    dsimp only
    rw [substr_of_le (Nat.zero_le _)]
    cases hposition' : find record '@'.toUInt8 position with
    | none => exact succeeds_ok _
    | some position' =>
      have hbounds' := find_bounds hposition'
      dsimp only
      rw [substr_of_le (by omega), substr_of_le (by omega)]
      exact succeeds_ok _

theorem userhost_succeeds (s : SessionState) (parameters : List Bytes) :
    Succeeds (userhost s parameters) ↔ parameters ≠ [] := by
  refine (Succeeds.bind_iff fun parameter => ?_).trans back_succeeds
  refine (userhostRecords_succeeds parameter 0 (Nat.zero_le _)).bind fun records => ?_
  induction records generalizing s with
  | nil => exact succeeds_ok _
  | cons record records ih =>
    rw [List.foldlM_cons]
    obtain ⟨message, hmessage⟩ := userhostMessage_succeeds record
    rw [hmessage]
    cases message with
    | none => exact ih s
    | some message => exact ih (s.log message)

theorem listReply_succeeds (s : SessionState) (parameters : List Bytes) :
    Succeeds (listReply s parameters) ↔ 3 ≤ parameters.length := by
  unfold listReply
  split_ifs with h
  · simpa using h
  · refine iff_of_true ?_ (by omega)
    obtain ⟨members, hmembers⟩ := front_advance_succeeds (l := parameters) (n := 2) (by omega)
    obtain ⟨channel, hchannel⟩ := front_advance_succeeds (l := parameters) (n := 1) (by omega)
    obtain ⟨iterator, hiterator, hfront⟩ := fault_bind_ok.mp hmembers
    obtain ⟨iterator', hiterator', hfront'⟩ := fault_bind_ok.mp hchannel
    rw [hiterator, hiterator']
    simp [bind, Except.bind, hfront, hfront']

theorem whoReply_succeeds (s : SessionState) (parameters : List Bytes) :
    Succeeds (whoReply s parameters) ↔ 8 ≤ parameters.length := by
  unfold whoReply
  split_ifs with h
  · simpa using h
  · refine iff_of_true ?_ (by omega)
    rw [advance_of_le (by omega)]
    refine (front_succeeds.2 (List.ne_nil_of_length_pos (by simp; omega))).bind fun _ => ?_
    rw [advance_of_le (by simp; omega)]
    refine (front_succeeds.2 (List.ne_nil_of_length_pos (by simp; omega))).bind fun _ => ?_
    refine (back_succeeds.2 (List.ne_nil_of_length_pos (by omega))).bind fun parameter => ?_
    have hposition : (find parameter 0x20 0).elim 0 (· + 1) ≤ parameter.length := by
      cases hfind : find parameter 0x20 0 with
      | none => exact Nat.zero_le _
      | some position => exact (find_bounds hfind).2
    dsimp only
    rw [substr_of_le (Nat.zero_le _), substr_of_le hposition]
    exact succeeds_ok _

section

variable (split : Bytes → UInt8 → List Bytes)

theorem namReply_succeeds (s : SessionState) (parameters : List Bytes) :
    Succeeds (namReply split s parameters) ↔ 3 ≤ parameters.length := by
  unfold namReply
  split_ifs with h
  · simpa using h
  · refine iff_of_true ?_ (by omega)
    refine (back_succeeds.2 (List.ne_nil_of_length_pos (by omega))).bind fun parameter => ?_
    rw [advance_of_le (by omega)]
    exact (front_succeeds.2 (List.ne_nil_of_length_pos (by simp; omega))).bind fun _ => succeeds_ok _

/-- The number of parameters that the handler of a numeric reply reads. -/
def numericArity (code : ℕ) : ℕ :=
  if code = 5 then 1
  else if code = 302 then 1
  else if code = 322 then 3
  else if code = 352 then 8
  else if code = 353 then 3
  else if code = 366 then 1
  else 0

theorem notifyNumeric_succeeds (s : SessionState) {r : Record} {code : ℕ}
    (hcode : r.command = .numeric code) :
    Succeeds (notifyNumeric split s r code) ↔ numericArity code ≤ r.parameters.length := by
  have hreads : readsParameter r.commandType = false := by simp [Record.commandType, hcode, readsParameter]
  have hlog (s : SessionState) := logRecord_of_not_reads hreads s
  have herror (s : SessionState) := error_of_not_reads hreads s
  rcases eq_or_ne code 5 with rfl | h5
  · rw [notifyNumeric, if_pos rfl]
    split_ifs with hempty
    · simp [hempty, numericArity]
    · have hlength : 1 ≤ r.parameters.length := List.length_pos_of_ne_nil hempty
      refine iff_of_true ?_ hlength
      rw [advance_of_le hlength]
      dsimp only [bind, Except.bind]
      split_ifs
      · exact hlog _
      · exact succeeds_ok _
  rcases eq_or_ne code 302 with rfl | h302
  · exact (userhost_succeeds s r.parameters).trans List.length_pos_iff.symm
  rcases eq_or_ne code 315 with rfl | h315
  · exact iff_of_true ((hlog s).bind fun _ => succeeds_ok _) (Nat.zero_le _)
  rcases eq_or_ne code 322 with rfl | h322
  · exact listReply_succeeds s r.parameters
  rcases eq_or_ne code 352 with rfl | h352
  · exact whoReply_succeeds s r.parameters
  rcases eq_or_ne code 353 with rfl | h353
  · exact namReply_succeeds split s r.parameters
  rcases eq_or_ne code 366 with rfl | h366
  · exact (Succeeds.bind_iff fun _ => succeeds_ok _).trans advance_succeeds
  -- the replies that are logged or ignored read no parameter
  rw [notifyNumeric, numericArity]
  simp only [if_neg h5, if_neg h302, if_neg h315, if_neg h322, if_neg h352, if_neg h353,
    if_neg h366, Nat.zero_le, iff_true]
  split_ifs
  · exact hlog s
  · exact (hlog s).bind fun s => herror s
  · exact succeeds_ok s

end

/-- What the handler of a command that is not numeric needs: its parameters, and for the
channel of the user's own `PART` and of a `MODE` that the session knows it. -/
def NeedsMet (s : SessionState) (r : Record) : Option CommandType → Prop
  | some .nick | some .quit | some .join | some .privmsg => r.parameters ≠ []
  | some .part =>
    ∃ channel ∈ r.parameters.head?, r.sender.origin = s.nickName → channel ∈ s.channels
  | some .mode =>
    ∃ target ∈ r.parameters.head?,
      if target = s.nickName then ∀ modes ∈ r.parameters.getLast?, modes ≠ []
      else (s.channelToModes.find? (tolower target)).isSome = true ∧
        ∃ modes ∈ r.parameters[1]?, modes ≠ []
  | _ => True

theorem notifyJoin_succeeds (s : SessionState) {r : Record} (htype : r.commandType = some .join) :
    Succeeds (notifyJoin s r) ↔ r.parameters ≠ [] := by
  unfold notifyJoin
  split_ifs with hown
  · exact (Succeeds.bind_iff fun _ => succeeds_ok _).trans front_succeeds
  · simp [logRecord_succeeds, htype, readsParameter]

theorem notifyPart_succeeds (s : SessionState) {r : Record} (htype : r.commandType = some .part) :
    Succeeds (notifyPart s r) ↔ NeedsMet s r (some .part) := by
  unfold notifyPart NeedsMet
  split_ifs with hown
  · cases hparameters : r.parameters with
    | nil => simp [front, bind, Except.bind]
    | cons channel rest =>
      simp only [front_cons, bind, Except.bind, List.head?_cons, Option.mem_some_iff,
        exists_eq_left', hown, true_imp_iff]
      by_cases hknown : channel ∈ s.channels
      · rw [if_neg (not_not.mpr hknown)]
        exact iff_of_true (succeeds_ok _) hknown
      · rw [if_pos hknown]
        exact iff_of_false (not_succeeds_error _) hknown
  · simp only [logRecord_succeeds, htype, readsParameter, true_imp_iff, hown, false_imp_iff,
      and_true]
    cases r.parameters <;> simp

theorem notifyMode_succeeds (s : SessionState) {r : Record} (htype : r.commandType = some .mode) :
    Succeeds (notifyMode s r) ↔ NeedsMet s r (some .mode) := by
  obtain ⟨s', hlog⟩ := logRecord_of_not_reads (by rw [htype]; rfl) s
  obtain ⟨messageText, rfl⟩ := logRecord_ok hlog
  unfold notifyMode NeedsMet
  rw [hlog]
  cases hparameters : r.parameters with
  | nil => simp [advance, bind, Except.bind]
  | cons target rest =>
    have hadvance : advance (target :: rest) 1 = .ok rest := advance_of_le (by simp)
    simp only [bind, Except.bind, hadvance, front_cons, List.head?_cons, Option.mem_some_iff,
      exists_eq_left']
    by_cases htarget : target = s.nickName
    · rw [if_pos (show target = (s.log messageText).nickName from htarget), if_pos htarget]
      obtain ⟨modes, -, hback⟩ := back_of_ne_nil (List.cons_ne_nil target rest)
      have hlast := back_ok.mp hback
      rw [hback, hlast]
      cases modes with
      | nil => simp [merge]
      | cons sign letters => simp [merge]
    · rw [if_neg (show ¬ target = (s.log messageText).nickName from htarget), if_neg htarget,
        log_channelToModes]
      cases s.channelToModes.find? (tolower target) with
      | none => simp
      | some current =>
        cases rest with
        | nil => simp [front]
        | cons modes rest =>
          cases modes with
          | nil => simp [merge]
          | cons sign letters => simp [merge]

theorem notifyString_succeeds (s : SessionState) {r : Record} {command : Option CommandType}
    (htype : r.commandType = command) :
    Succeeds (notifyString s r command) ↔ NeedsMet s r command := by
  have hreads := htype ▸ logRecord_succeeds s r
  cases command with
  | none => exact iff_of_true (succeeds_ok s) trivial
  | some type =>
    cases type with
    | nick =>
      refine succeeds_bind.trans ⟨fun ⟨nickName, hfront, _⟩ => front_succeeds.1 ⟨nickName, hfront⟩,
        fun h => ?_⟩
      obtain ⟨nickName, -, hfront⟩ := front_of_ne_nil h
      exact ⟨nickName, hfront, (logRecord_succeeds _ r).mpr fun _ => h⟩
    | quit =>
      refine succeeds_bind.trans ⟨fun ⟨s', hlog, _⟩ => ?_, fun h => ?_⟩
      · exact hreads.mp ⟨s', hlog⟩ rfl
      · obtain ⟨s', hlog⟩ := hreads.mpr fun _ => h
        refine ⟨s', hlog, ?_⟩
        split_ifs
        · exact (error_succeeds s' r).mpr fun _ => h
        · exact succeeds_ok s'
    | join => exact notifyJoin_succeeds s htype
    | part => exact notifyPart_succeeds s htype
    | mode => exact notifyMode_succeeds s htype
    | privmsg =>
      refine succeeds_bind.trans ⟨fun ⟨parameter, hback, _⟩ => back_succeeds.1 ⟨parameter, hback⟩,
        fun h => ?_⟩
      obtain ⟨parameter, -, hback⟩ := back_of_ne_nil h
      exact ⟨parameter, hback, (front_succeeds.2 h).bind fun _ => succeeds_ok _⟩
    | error =>
      have hnone : readsParameter r.commandType = false := by
        rw [htype]
        rfl
      exact iff_of_true ((logRecord_of_not_reads hnone s).bind fun s' =>
        error_of_not_reads hnone s') trivial
    | user | topic | kick | notice | away =>
      exact iff_of_true (hreads.mpr fun h => Bool.noConfusion h) trivial
    | _ => exact iff_of_true (succeeds_ok s) trivial

def Record.Handled (s : SessionState) (r : Record) : Prop :=
  match r.command with
  | .numeric code => numericArity code ≤ r.parameters.length
  | .string name => NeedsMet s r (commandToType name)
  | .invalid => True

/-- A message is handled without a fault exactly where its parameters are there. -/
theorem notify_succeeds_iff (split : Bytes → UInt8 → List Bytes) (s : SessionState) (r : Record) :
    Succeeds (notify split s r) ↔ r.Handled s := by
  unfold notify Record.Handled
  cases hcommand : r.command with
  | numeric code => exact notifyNumeric_succeeds split s hcommand
  | string name => exact notifyString_succeeds s (by rw [Record.commandType, hcommand])
  | invalid => exact iff_of_true (succeeds_ok s) trivial

/-- The server says that the user has left a channel that the user has not joined. -/
theorem part_of_unknown_fails : ¬ Succeeds (notify (fun s c => s.splitOn c) (start (text "me"))
    ⟨{ origin := text "me" }, .string (text "PART"), [text "#c"]⟩) := by
  have hfails : notify (fun s c => s.splitOn c) (start (text "me"))
      ⟨{ origin := text "me" }, .string (text "PART"), [text "#c"]⟩ = .error .assertion := by
    decide +kernel
  rw [hfails]
  exact not_succeeds_error _

end ACENetwork.IRC
