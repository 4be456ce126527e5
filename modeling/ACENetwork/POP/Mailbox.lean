import ACENetwork.Library.Runs
import ACENetwork.POP.Send

/-!
# Emptying a mailbox

The commands that retrieve and delete the mails of a mailbox, in their order, and what has to
become of the replies. A sender keeps to them from one reply to the next.
-/
namespace ACENetwork.POP
open BitTorrent (Fault)
open Library
open SMTP (Sending)

/-- A reply, what becomes of the message of its command, the command that is sent, and what
becomes of the message with the reply. -/
structure Exchange where
  reply : Reply
  sending : Sending
  command : Option Request
  disposal : Disposal
  deriving DecidableEq

/-- The module and its exchanges so far. -/
structure Session where
  sender : Sender := {}
  log : List Exchange := []
  deriving DecidableEq

def Session.step (cfg : Configuration) (s : Session) (e : Reply × Sending) :
    Except Fault Session := do
  let (sender, command, disposal) ← handleDataMessage cfg s.sender e.1 e.2
  .ok ⟨sender, s.log ++ [⟨e.1, e.2, command, disposal⟩]⟩

def commands (log : List Exchange) : List Request := log.filterMap Exchange.command

section

variable (cfg : Configuration)

def user : Request := { command := .authUser, parameters := [cfg.username] }

def pass : Request := { command := .authPass, parameters := [cfg.password] }

def stat : Request := { command := .transStat }

def quit : Request := { command := .transQuit }

def retrieval (i : ℕ) : Request := { command := .transRetr, parameters := [decimal i] }

def deletion (i : ℕ) : Request := { command := .transDele, parameters := [decimal i] }

def commandsFor (n : ℕ) : List Request :=
  [user cfg, pass cfg, stat] ++
    ((List.range n).map (fun i => retrieval (i + 1)) ++
      ((List.range n).map (fun i => deletion (i + 1)) ++ [quit]))

def Reply.Reports (r : Reply) (n : ℕ) : Prop :=
  ∃ numeral size : Bytes, numeral ≠ [] ∧ size ≠ [] ∧ numeral.all isDigit = true ∧
    size.all isDigit = true ∧ r.text.head? = some (numeral ++ 0x20 :: size) ∧
    decimalValue numeral = n

/-- Where STAT was accepted, its reply reports `n` messages. -/
def Reported (log : List Exchange) (n : ℕ) : Prop :=
  ∀ (i : ℕ) (e e' : Exchange), log[i]? = some e → e.command = some stat →
    log[i + 1]? = some e' → e'.reply.isPositive = true → e'.reply.Reports n

/-- The mailbox is emptied without losing mail. -/
structure Emptied (log : List Exchange) (n : ℕ) : Prop where
  isPrefix : commands log <+: commandsFor cfg n
  complete : (∀ e ∈ log, e.reply.isPositive = true) →
    commands log = (commandsFor cfg n).take log.length
  stops : ∀ (i : ℕ) (e : Exchange), log[i]? = some e → e.reply.isPositive = false →
    ∀ (j : ℕ) (e' : Exchange), i ≤ j → log[j]? = some e' → e'.command = none
  retrieved : ∀ (i j : ℕ) (e : Exchange), log[j]? = some e → e.command = some (deletion i) →
    ∃ (k : ℕ) (e₁ e₂ : Exchange), k + 1 ≤ j ∧ log[k]? = some e₁ ∧
      e₁.command = some (retrieval i) ∧ log[k + 1]? = some e₂ ∧
      e₂.reply.isPositive = true ∧ e₂.disposal = .passed
  disposed : ∀ e ∈ log, e.disposal ≠ .kept

def Session.Empties (s : Session) : Prop := ∃ n, Reported s.log n ∧ Emptied cfg s.log n

/-- What a positive reply must be for the sender to go on: STAT is answered with a number of
messages, the index can be counted up, DELE is answered for the last message, and QUIT is not
answered. -/
def Sender.Continues (m : Sender) (reply : Reply) : Prop :=
  match m.protocolState with
  | .transStatSent => (reply.text.head?.bind matchStat).isSome = true
  | .transRetrSent => m.index ≠ 2 ^ 32 - 1
  | .transDeleSent => m.mailDropMessages = m.index
  | .transQuitSent => False
  | _ => True

instance Sender.Continues.decidable : (m : Sender) → (reply : Reply) → Decidable (m.Continues reply)
  | ⟨.transStatSent, _, _, _⟩, reply =>
    inferInstanceAs (Decidable ((reply.text.head?.bind matchStat).isSome = true))
  | ⟨.transRetrSent, _, index, _⟩, _ => inferInstanceAs (Decidable (index ≠ 2 ^ 32 - 1))
  | ⟨.transDeleSent, messages, index, _⟩, _ => inferInstanceAs (Decidable (messages = index))
  | ⟨.transQuitSent, _, _, _⟩, _ => inferInstanceAs (Decidable False)
  | ⟨.greetingReceived, _, _, _⟩, _ | ⟨.authLoginUserSent, _, _, _⟩, _
  | ⟨.authLoginPasswordSent, _, _, _⟩, _ | ⟨.authApopSent, _, _, _⟩, _
  | ⟨.authQuitSent, _, _, _⟩, _ | ⟨.transListSent, _, _, _⟩, _ | ⟨.transNoopSent, _, _, _⟩, _
  | ⟨.transRsetSent, _, _, _⟩, _ | ⟨.transTopSent, _, _, _⟩, _ | ⟨.transUidlSent, _, _, _⟩, _
  | ⟨.updatQuitSent, _, _, _⟩, _ | ⟨.max, _, _, _⟩, _ | ⟨.invalid, _, _, _⟩, _ =>
    inferInstanceAs (Decidable True)

/-- The command can be sent, and a positive reply comes only if none was negative and the sender
goes on from it. -/
def Session.Regular (s : Session) (e : Reply × Sending) : Prop :=
  e.2 = .sent ∧ (e.1.isPositive = true →
    (∀ x ∈ s.log, x.reply.isPositive = true) ∧ s.sender.Continues e.1)

instance Session.Regular.decidable (s : Session) (e : Reply × Sending) : Decidable (s.Regular e) :=
  inferInstanceAs (Decidable (_ ∧ _))

end

variable {cfg : Configuration} {n k : ℕ}

theorem matchStat_some {line numeral size : Bytes} (h : matchStat line = some (numeral, size)) :
    numeral ≠ [] ∧ size ≠ [] ∧ numeral.all isDigit = true ∧ size.all isDigit = true ∧
      line = numeral ++ 0x20 :: size := by
  have hline : line.takeWhile isDigit ++ line.dropWhile isDigit = line :=
    List.takeWhile_append_dropWhile
  have hdigits : (line.takeWhile isDigit).all isDigit = true := List.all_takeWhile
  revert hline hdigits
  rw [matchStat] at h
  split at h
  · cases h
  · cases h
  · rename_i c second hrest hnonempty
    split_ifs at h with hc
    cases h
    obtain ⟨rfl, hne, hall⟩ := hc
    rw [hrest]
    intro hline hdigits
    exact ⟨hnonempty, hne, hdigits, hall, hline.symm⟩

section Commands

theorem commandsFor_length : (commandsFor cfg n).length = 4 + 2 * n := by
  simp [commandsFor]
  omega

theorem commandsFor_retrieval {i : ℕ} (h : i < n) :
    (commandsFor cfg n)[3 + i]? = some (retrieval (i + 1)) := by
  rw [commandsFor, List.getElem?_append_right (by simp), List.getElem?_append_left (by simp; omega)]
  simp [h]

theorem commandsFor_deletion {i : ℕ} (h : i < n) :
    (commandsFor cfg n)[3 + n + i]? = some (deletion (i + 1)) := by
  rw [commandsFor, List.getElem?_append_right (by simp; omega),
    List.getElem?_append_right (by simp; omega), List.getElem?_append_left (by simp; omega)]
  have hindex : 3 + n + i - 3 - n = i := by omega
  simp [h, hindex]

theorem commandsFor_quit : (commandsFor cfg n)[3 + 2 * n]? = some quit := by
  rw [commandsFor, List.getElem?_append_right (by simp),
    List.getElem?_append_right (by simp; omega), List.getElem?_append_right (by simp; omega)]
  have hindex : 2 * n - n - n = 0 := by omega
  simp [hindex]

theorem commandsFor_cases {r : Request} (h : (commandsFor cfg n)[k]? = some r) :
    k = 0 ∧ r = user cfg ∨ k = 1 ∧ r = pass cfg ∨ k = 2 ∧ r = stat ∨
      (∃ i, i < n ∧ k = 3 + i ∧ r = retrieval (i + 1)) ∨
      (∃ i, i < n ∧ k = 3 + n + i ∧ r = deletion (i + 1)) ∨ k = 3 + 2 * n ∧ r = quit := by
  have hlt : k < 4 + 2 * n := by
    rw [← @commandsFor_length cfg n]
    exact (List.getElem?_eq_some_iff.mp h).1
  match k, h with
  | 0, h => exact Or.inl ⟨rfl, (Option.some.inj h).symm⟩
  | 1, h => exact Or.inr (Or.inl ⟨rfl, (Option.some.inj h).symm⟩)
  | 2, h => exact Or.inr (Or.inr (Or.inl ⟨rfl, (Option.some.inj h).symm⟩))
  | k + 3, h =>
    refine Or.inr (Or.inr (Or.inr ?_))
    by_cases hretrieval : k < n
    · have hr := @commandsFor_retrieval cfg n k hretrieval
      rw [Nat.add_comm, h] at hr
      exact Or.inl ⟨k, hretrieval, Nat.add_comm k 3, Option.some.inj hr⟩
    · by_cases hdeletion : k < 2 * n
      · have hr := @commandsFor_deletion cfg n (k - n) (by omega)
        have hindex : 3 + n + (k - n) = k + 3 := by omega
        rw [hindex, h] at hr
        exact Or.inr (Or.inl ⟨k - n, by omega, hindex.symm, Option.some.inj hr⟩)
      · have hindex : k + 3 = 3 + 2 * n := by omega
        rw [hindex, commandsFor_quit] at h
        exact Or.inr (Or.inr ⟨hindex, (Option.some.inj h).symm⟩)

theorem commandsFor_getElem?_congr (m : ℕ) (h : k < 3) :
    (commandsFor cfg n)[k]? = (commandsFor cfg m)[k]? := by
  rw [commandsFor, commandsFor, List.getElem?_append_left (by simpa using h),
    List.getElem?_append_left (by simpa using h)]

theorem eq_of_deletion {i j : ℕ} (h : deletion i = deletion j) : i = j := by
  have hdecimal : decimal i = decimal j := by simpa [deletion] using h
  rw [← decimalValue_decimal i, hdecimal, decimalValue_decimal]

end Commands

/-- What a sender is at behind the first `k` commands for a mailbox of `n` messages. -/
def Sender.At (m : Sender) (n k : ℕ) : Prop :=
  match m.protocolState with
  | .invalid => k = 0
  | .authLoginUserSent => k = 1
  | .authLoginPasswordSent => k = 2
  | .transStatSent => k = 3
  | .transRetrSent => m.mailDropMessages.toNat = min n (2 ^ 32 - 1) ∧ 1 ≤ m.index.toNat ∧
      m.index.toNat ≤ m.mailDropMessages.toNat ∧ k = 3 + m.index.toNat
  | .transDeleSent => m.mailDropMessages.toNat = n ∧ 1 ≤ n ∧ m.index = 1 ∧ k = 4 + n
  | .transQuitSent => k = 4 + 2 * n
  | _ => False

/-- Exchanges whose replies are all positive, each with the next command for the mailbox. -/
structure Proceeds (cfg : Configuration) (n : ℕ) (m : Sender) (log : List Exchange) : Prop where
  isAt : m.At n log.length
  bound : log.length ≤ 4 + 2 * n
  sends : ∀ k < log.length, log[k]?.map Exchange.command = some (commandsFor cfg n)[k]?
  positive : ∀ e ∈ log, e.reply.isPositive = true
  disposed : ∀ e ∈ log, e.disposal ≠ .kept
  reported : ∀ e, log[3]? = some e → e.reply.Reports n
  passed : ∀ (i : ℕ) (e : Exchange), i < n → log[4 + i]? = some e → e.disposal = .passed

theorem Proceeds.start (cfg : Configuration) : Proceeds cfg 0 {} [] where
  isAt := rfl
  bound := Nat.zero_le _
  sends _ hk := absurd hk (Nat.not_lt_zero _)
  positive _ he := absurd he List.not_mem_nil
  disposed _ he := absurd he List.not_mem_nil
  reported _ he := by cases he
  passed _ _ hi _ := absurd hi (Nat.not_lt_zero _)

section Proceeds

variable {m m' : Sender} {log : List Exchange} {r : Request}

theorem getElem?_snoc {α : Type*} {l : List α} {x y : α} {k : ℕ} (h : (l ++ [y])[k]? = some x) :
    l[k]? = some x ∨ k = l.length ∧ x = y := by
  rcases lt_trichotomy k l.length with hlt | rfl | hgt
  · rw [List.getElem?_append_left hlt] at h
    exact Or.inl h
  · rw [List.getElem?_concat_length] at h
    exact Or.inr ⟨rfl, (Option.some.inj h).symm⟩
  · rw [List.getElem?_eq_none (by simp; omega)] at h
    cases h

/-- Until STAT is answered, nothing depends on the size of the mailbox. -/
theorem Proceeds.resize (h : Proceeds cfg n m log) (hstate : m.protocolState = .transStatSent)
    (n' : ℕ) : Proceeds cfg n' m log := by
  have hat : ∀ i : ℕ, m.At i log.length ↔ log.length = 3 := by
    intro i
    rw [Sender.At, hstate]
  have hlength : log.length = 3 := (hat n).mp h.isAt
  have hnone (i : ℕ) : log[3 + i]? = none := List.getElem?_eq_none (by omega)
  exact {
    isAt := (hat n').mpr hlength
    bound := by omega
    sends := by
      intro k hk
      rw [h.sends k hk, commandsFor_getElem?_congr n' (by omega)]
    positive := h.positive
    disposed := h.disposed
    reported := by
      intro e he
      rw [hnone 0] at he
      cases he
    passed := by
      intro i e _ he
      rw [show 4 + i = 3 + (1 + i) by omega, hnone] at he
      cases he }

theorem Proceeds.snoc (h : Proceeds cfg n m log) {e : Exchange}
    (hcommand : (commandsFor cfg n)[log.length]? = some r) (hr : e.command = some r)
    (hpositive : e.reply.isPositive = true) (hdisposal : e.disposal ≠ .kept)
    (hreported : log.length = 3 → e.reply.Reports n)
    (hpassed : ∀ i < n, log.length = 4 + i → e.disposal = .passed)
    (hat : m'.At n (log.length + 1)) : Proceeds cfg n m' (log ++ [e]) where
  isAt := by
    rw [List.length_append]
    exact hat
  bound := by
    have hlt := (List.getElem?_eq_some_iff.mp hcommand).1
    rw [commandsFor_length] at hlt
    rw [List.length_append, List.length_singleton]
    omega
  sends := by
    intro k hk
    rw [List.length_append, List.length_singleton] at hk
    rcases Nat.lt_succ_iff_lt_or_eq.mp hk with hlt | rfl
    · rw [List.getElem?_append_left hlt, h.sends k hlt]
    · rw [List.getElem?_concat_length, hcommand, Option.map_some, hr]
  positive := by
    intro x hx
    rcases List.mem_append.mp hx with hx | hx
    · exact h.positive x hx
    · rwa [List.mem_singleton.mp hx]
  disposed := by
    intro x hx
    rcases List.mem_append.mp hx with hx | hx
    · exact h.disposed x hx
    · rwa [List.mem_singleton.mp hx]
  reported := by
    intro x hx
    rcases getElem?_snoc hx with hx | ⟨hlength, rfl⟩
    · exact h.reported x hx
    · exact hreported hlength.symm
  passed := by
    intro i x hi hx
    rcases getElem?_snoc hx with hx | ⟨hlength, rfl⟩
    · exact h.passed i x hi hx
    · exact hpassed i hi hlength.symm

theorem handleDataMessage_send {reply : Reply} {b : Bool}
    (h : respond cfg m reply = .ok (.send m' b r)) :
    handleDataMessage cfg m reply .sent = .ok (m', some r, if b then .passed else .released) := by
  simp [handleDataMessage, h, bind, Except.bind]

/-- The step from a positive reply: the next command for the mailbox. -/
def Sender.StepsOn (cfg : Configuration) (m : Sender) (log : List Exchange) (reply : Reply) : Prop :=
  ∃ n m' r disposal, handleDataMessage cfg m reply .sent = .ok (m', some r, disposal) ∧
    Proceeds cfg n m' (log ++ [⟨reply, .sent, some r, disposal⟩])

theorem Proceeds.stepsOn {reply : Reply} {b : Bool} (h : Proceeds cfg n m log)
    (hrespond : respond cfg m reply = .ok (.send m' b r))
    (hcommand : (commandsFor cfg n)[log.length]? = some r) (hpositive : reply.isPositive = true)
    (hreported : log.length = 3 → reply.Reports n) (hpassed : ∀ i < n, log.length = 4 + i → b = true)
    (hat : m'.At n (log.length + 1)) : m.StepsOn cfg log reply := by
  refine ⟨n, m', r, _, handleDataMessage_send hrespond, h.snoc hcommand rfl hpositive ?_ hreported
    (fun i hi hlength => if_pos (hpassed i hi hlength)) hat⟩
  cases b with
  | false => exact Disposal.noConfusion
  | true => exact Disposal.noConfusion

theorem readUnsigned_toNat (numeral : Bytes) :
    (readUnsigned numeral).toNat = min (decimalValue numeral) (2 ^ 32 - 1) := by
  rw [readUnsigned, UInt32.toNat_ofNat']
  omega

/-- The reply to STAT starts the retrieval, or ends the session where there is no mail. -/
theorem stepsOn_statSent {reply : Reply} (h : Proceeds cfg n m log)
    (hstate : m.protocolState = .transStatSent) (hpositive : reply.isPositive = true)
    (hcontinues : m.Continues reply) : m.StepsOn cfg log reply := by
  obtain ⟨state, mailDrop, index, multiline⟩ := m
  obtain rfl : state = .transStatSent := hstate
  obtain ⟨status, lines⟩ := reply
  have hlength : log.length = 3 := h.isAt
  -- the reply matches: it reports a number of messages
  obtain ⟨line, rest, rfl, numeral, size, hmatch⟩ : ∃ line rest, lines = line :: rest ∧
      ∃ numeral size, matchStat line = some (numeral, size) := by
    cases lines with
    | nil => cases hcontinues
    | cons line rest =>
      obtain ⟨⟨numeral, size⟩, hmatch⟩ := Option.isSome_iff_exists.mp hcontinues
      exact ⟨line, rest, rfl, numeral, size, hmatch⟩
  have hreports : (⟨status, line :: rest⟩ : Reply).Reports (decimalValue numeral) := by
    obtain ⟨hnumeral, hsize, hdigits, hdigits', rfl⟩ := matchStat_some hmatch
    exact ⟨numeral, size, hnumeral, hsize, hdigits, hdigits', rfl, rfl⟩
  have hread := readUnsigned_toNat numeral
  have hproceeds := h.resize rfl (decimalValue numeral)
  have hpassed (b : Bool) : ∀ i < decimalValue numeral, log.length = 4 + i → b = true := by
    intro i _ hi
    omega
  by_cases hempty : readUnsigned numeral = 0
  · have hzero : decimalValue numeral = 0 := by
      rw [hempty, UInt32.toNat_zero] at hread
      omega
    have hrespond : respond cfg ⟨.transStatSent, mailDrop, index, multiline⟩
        ⟨status, line :: rest⟩ =
          .ok (.send ⟨.transQuitSent, readUnsigned numeral, index, multiline⟩ false quit) := by
      simp [respond, hpositive, statSent, hmatch, hempty, quit]
    refine hproceeds.stepsOn hrespond ?_ hpositive (fun _ => hreports) (hpassed false) ?_
    · rw [hlength, hzero]
      exact commandsFor_quit
    · show log.length + 1 = 4 + 2 * decimalValue numeral
      omega
  · have hpos : 0 < (readUnsigned numeral).toNat := by
      rw [Nat.pos_iff_ne_zero]
      intro hzero
      exact hempty (UInt32.toNat_inj.mp hzero)
    have hrespond : respond cfg ⟨.transStatSent, mailDrop, index, multiline⟩
        ⟨status, line :: rest⟩ =
          .ok (.send ⟨.transRetrSent, readUnsigned numeral, 1, true⟩ false (retr 1)) := by
      simp [respond, hpositive, statSent, hmatch, hempty]
    refine hproceeds.stepsOn hrespond ?_ hpositive (fun _ => hreports) (hpassed false) ?_
    · rw [hlength]
      exact commandsFor_retrieval (i := 0) (by omega)
    · refine ⟨hread, le_refl _, ?_, ?_⟩
      · show 1 ≤ (readUnsigned numeral).toNat
        omega
      · show log.length + 1 = 3 + 1
        omega

/-- The reply to RETR is passed on; the next mail is retrieved, or the first one is deleted. -/
theorem stepsOn_retrSent {reply : Reply} (h : Proceeds cfg n m log)
    (hstate : m.protocolState = .transRetrSent) (hpositive : reply.isPositive = true)
    (hcontinues : m.Continues reply) : m.StepsOn cfg log reply := by
  obtain ⟨state, mailDrop, index, multiline⟩ := m
  obtain rfl : state = .transRetrSent := hstate
  obtain ⟨hmailDrop, hfirst, hlast, hlength⟩ := h.isAt
  simp only at hmailDrop hfirst hlast hlength
  have hindex : index ≠ 2 ^ 32 - 1 := hcontinues
  have hlt : index.toNat < 2 ^ 32 - 1 := by
    have hle : index.toNat < 2 ^ 32 := index.toNat_lt
    have hne : index.toNat ≠ 2 ^ 32 - 1 := fun heq => hindex (UInt32.toNat_inj.mp heq)
    omega
  have hnext : (index + 1).toNat = index.toNat + 1 := by
    rw [UInt32.toNat_add, UInt32.toNat_one]
    omega
  have hreported : log.length = 3 → reply.Reports n := by
    intro hthree
    omega
  have hpassed : ∀ i < n, log.length = 4 + i → true = true := fun _ _ _ => rfl
  by_cases hmore : mailDrop < index + 1
  · have hn : mailDrop.toNat = n ∧ index.toNat = n := by
      rw [UInt32.lt_iff_toNat_lt, hnext] at hmore
      omega
    have hrespond : respond cfg ⟨.transRetrSent, mailDrop, index, multiline⟩ reply =
        .ok (.send ⟨.transDeleSent, mailDrop, 1, false⟩ true (dele 1)) := by
      simp [respond, hpositive, retrSent, hmore]
    refine h.stepsOn hrespond ?_ hpositive hreported hpassed ?_
    · rw [hlength, hn.2]
      exact commandsFor_deletion (i := 0) (by omega)
    · refine ⟨hn.1, by omega, rfl, ?_⟩
      omega
  · have hrespond : respond cfg ⟨.transRetrSent, mailDrop, index, multiline⟩ reply =
        .ok (.send ⟨.transRetrSent, mailDrop, index + 1, multiline⟩ true (retr (index + 1))) := by
      simp [respond, hpositive, retrSent, hmore]
    refine h.stepsOn hrespond ?_ hpositive hreported hpassed ?_
    · rw [UInt32.lt_iff_toNat_lt, hnext] at hmore
      rw [hlength, commandsFor_retrieval (by omega), retr, writeUnsigned, hnext, retrieval]
    · rw [UInt32.lt_iff_toNat_lt, hnext] at hmore
      refine ⟨hmailDrop, ?_, ?_, ?_⟩
      · show 1 ≤ (index + 1).toNat
        omega
      · show (index + 1).toNat ≤ mailDrop.toNat
        omega
      · show log.length + 1 = 3 + (index + 1).toNat
        omega

theorem stepsOn_deleSent {reply : Reply} (h : Proceeds cfg n m log)
    (hstate : m.protocolState = .transDeleSent) (hpositive : reply.isPositive = true)
    (hcontinues : m.Continues reply) : m.StepsOn cfg log reply := by
  obtain ⟨state, mailDrop, index, multiline⟩ := m
  obtain rfl : state = .transDeleSent := hstate
  obtain ⟨hmailDrop, hn, hindex, hlength⟩ := h.isAt
  simp only at hmailDrop hindex hlength
  have hlast : mailDrop = index := hcontinues
  subst hlast
  subst hindex
  have hone : n = 1 := hmailDrop.symm
  subst hone
  have hrespond : respond cfg ⟨.transDeleSent, 1, 1, multiline⟩ reply =
      .ok (.send ⟨.transQuitSent, 1, 1 + 1, multiline⟩ false quit) := by
    simp [respond, hpositive, deleSent, quit]
  refine h.stepsOn hrespond ?_ hpositive ?_ ?_ ?_
  · rw [hlength]
    exact commandsFor_quit
  · intro hthree
    omega
  · intro i hi hlength'
    omega
  · show log.length + 1 = 4 + 2 * 1
    omega

theorem Proceeds.stepsOn_login {reply : Reply} (h : Proceeds cfg n m log)
    (hrespond : respond cfg m reply = .ok (.send m' false r)) (hpositive : reply.isPositive = true)
    (hlength : log.length < 3) (hcommand : (commandsFor cfg n)[log.length]? = some r)
    (hat : m'.At n (log.length + 1)) : m.StepsOn cfg log reply := by
  refine h.stepsOn hrespond hcommand hpositive ?_ ?_ hat
  · intro hthree
    omega
  · intro i _ hlength'
    omega

/-- From a positive reply the sender goes on to the next command for the mailbox. -/
theorem Proceeds.continues {reply : Reply} (h : Proceeds cfg n m log)
    (hpositive : reply.isPositive = true) (hcontinues : m.Continues reply) :
    m.StepsOn cfg log reply := by
  obtain ⟨state, mailDrop, index, multiline⟩ := m
  have hat := h.isAt
  cases state with
  | invalid =>
    have hlength : log.length = 0 := hat
    have hrespond : respond cfg ⟨.invalid, mailDrop, index, multiline⟩ reply =
        .ok (.send ⟨.authLoginUserSent, mailDrop, index, multiline⟩ false (user cfg)) := by
      simp [respond, hpositive, ProtocolState.increase, user, bind, Except.bind]
    refine h.stepsOn_login hrespond hpositive (by omega) ?_ ?_
    · rw [hlength]
      rfl
    · exact congrArg (· + 1) hlength
  | authLoginUserSent =>
    have hlength : log.length = 1 := hat
    have hrespond : respond cfg ⟨.authLoginUserSent, mailDrop, index, multiline⟩ reply =
        .ok (.send ⟨.authLoginPasswordSent, mailDrop, index, multiline⟩ false (pass cfg)) := by
      simp [respond, hpositive, ProtocolState.increase, pass, bind, Except.bind]
    refine h.stepsOn_login hrespond hpositive (by omega) ?_ ?_
    · rw [hlength]
      rfl
    · exact congrArg (· + 1) hlength
  | authLoginPasswordSent =>
    have hlength : log.length = 2 := hat
    have hrespond : respond cfg ⟨.authLoginPasswordSent, mailDrop, index, multiline⟩ reply =
        .ok (.send ⟨.transStatSent, mailDrop, index, multiline⟩ false stat) := by
      simp [respond, hpositive, stat]
    refine h.stepsOn_login hrespond hpositive (by omega) ?_ ?_
    · rw [hlength]
      rfl
    · exact congrArg (· + 1) hlength
  | transStatSent => exact stepsOn_statSent h rfl hpositive hcontinues
  | transRetrSent => exact stepsOn_retrSent h rfl hpositive hcontinues
  | transDeleSent => exact stepsOn_deleSent h rfl hpositive hcontinues
  | transQuitSent => exact hcontinues.elim
  | _ => exact hat.elim

theorem handleDataMessage_negative {reply : Reply} (hat : m.At n k)
    (hnegative : reply.isPositive = false) :
    handleDataMessage cfg m reply .sent = .ok (m, none, .released) := by
  obtain ⟨state, mailDrop, index, multiline⟩ := m
  have hrespond : respond cfg ⟨state, mailDrop, index, multiline⟩ reply = .ok .protocolError := by
    cases state with
    | invalid | authLoginUserSent | authLoginPasswordSent | transStatSent | transRetrSent
    | transDeleSent | transQuitSent => simp [respond, hnegative]
    | _ => exact hat.elim
  simp [handleDataMessage, hrespond, bind, Except.bind]

end Proceeds

def Exchange.Idle (e : Exchange) : Prop :=
  e.reply.isPositive = false ∧ e.command = none ∧ e.disposal = .released

/-- The session proceeds until it stops at a negative reply. -/
def Session.Kept (cfg : Configuration) (s : Session) : Prop :=
  ∃ n good bad, s.log = good ++ bad ∧ Proceeds cfg n s.sender good ∧ ∀ e ∈ bad, e.Idle

theorem kept_regular {s : Session} {e : Reply × Sending} (hkept : s.Kept cfg)
    (hregular : s.Regular e) : ∃ s', s.step cfg e = .ok s' ∧ s'.Kept cfg := by
  obtain ⟨m, log⟩ := s
  obtain ⟨reply, sending⟩ := e
  obtain ⟨n, good, bad, hlog, hproceeds, hbad⟩ := hkept
  obtain ⟨rfl, hcontinues⟩ := hregular
  simp only at hlog hproceeds hcontinues
  by_cases hpositive : reply.isPositive = true
  · obtain ⟨hall, hcontinues⟩ := hcontinues hpositive
    -- no reply has been negative
    obtain rfl : bad = [] := by
      refine List.eq_nil_iff_forall_not_mem.mpr fun x hx => ?_
      have hxpositive := hall x (hlog ▸ List.mem_append_right good hx)
      rw [(hbad x hx).1] at hxpositive
      cases hxpositive
    rw [List.append_nil] at hlog
    obtain rfl := hlog
    obtain ⟨n', m', r, disposal, hstep, hproceeds'⟩ := hproceeds.continues hpositive hcontinues
    refine ⟨⟨m', log ++ [⟨reply, .sent, some r, disposal⟩]⟩, ?_, n', _, [],
      (List.append_nil _).symm, hproceeds', fun x hx => absurd hx List.not_mem_nil⟩
    simp [Session.step, hstep, bind, Except.bind]
  · have hnegative : reply.isPositive = false := Bool.not_eq_true _ ▸ hpositive
    refine ⟨⟨m, log ++ [⟨reply, .sent, none, .released⟩]⟩, ?_, n, good,
      bad ++ [⟨reply, .sent, none, .released⟩], ?_, hproceeds, ?_⟩
    · simp [Session.step, handleDataMessage_negative hproceeds.isAt hnegative, bind, Except.bind]
    · rw [hlog, List.append_assoc]
    · intro x hx
      rcases List.mem_append.mp hx with hx | hx
      · exact hbad x hx
      · rw [List.mem_singleton.mp hx]
        exact ⟨hnegative, rfl, rfl⟩

section Kept

variable {m : Sender} {log good bad : List Exchange}

theorem Proceeds.commands_eq (h : Proceeds cfg n m log) :
    commands log = (commandsFor cfg n).take log.length := by
  have hmap : log.map Exchange.command = ((commandsFor cfg n).take log.length).map some := by
    apply List.ext_getElem?
    intro k
    by_cases hk : k < log.length
    · have hbound : k < (commandsFor cfg n).length := by
        rw [commandsFor_length]
        exact lt_of_lt_of_le hk h.bound
      rw [List.getElem?_map, h.sends k hk, List.getElem?_map, List.getElem?_take_of_lt hk,
        List.getElem?_eq_getElem hbound]
      rfl
    · rw [List.getElem?_eq_none (by simpa using hk), List.getElem?_eq_none (by simp; omega)]
  calc commands log = (log.map Exchange.command).filterMap id := by
        rw [commands, List.filterMap_map]
        rfl
    _ = (commandsFor cfg n).take log.length := by
        rw [hmap, List.filterMap_map]
        exact List.filterMap_some

theorem commands_idle (hbad : ∀ e ∈ bad, e.Idle) : commands bad = [] :=
  List.filterMap_eq_nil_iff.mpr fun e he => (hbad e he).2.1

theorem getElem?_kept {i : ℕ} {e : Exchange} (h : (good ++ bad)[i]? = some e) :
    good[i]? = some e ∨ e ∈ bad := by
  by_cases hi : i < good.length
  · rw [List.getElem?_append_left hi] at h
    exact Or.inl h
  · rw [List.getElem?_append_right (not_lt.mp hi)] at h
    exact Or.inr (List.mem_of_getElem? h)

theorem Proceeds.getElem?_command (h : Proceeds cfg n m log) {i : ℕ} {e : Exchange}
    (he : log[i]? = some e) : (commandsFor cfg n)[i]? = e.command := by
  have hi := (List.getElem?_eq_some_iff.mp he).1
  have hcommand := h.sends i hi
  rw [he] at hcommand
  exact (Option.some.inj hcommand).symm

theorem getElem?_of_command (hbad : ∀ e ∈ bad, e.Idle) {i : ℕ} {e : Exchange} {r : Request}
    (h : (good ++ bad)[i]? = some e) (hr : e.command = some r) : good[i]? = some e := by
  rcases getElem?_kept h with h | h
  · exact h
  · rw [(hbad e h).2.1] at hr
    cases hr

theorem Proceeds.reported_log (h : Proceeds cfg n m good) (hbad : ∀ e ∈ bad, e.Idle) :
    Reported (good ++ bad) n := by
  intro i e e' he hstat he' hpositive
  have hcommand := h.getElem?_command (getElem?_of_command hbad he hstat)
  obtain rfl : i = 2 := by
    rcases commandsFor_cases (hcommand.trans hstat) with ⟨_, h⟩ | ⟨_, h⟩ | ⟨h, _⟩ | ⟨_, _, _, h⟩ |
      ⟨_, _, _, h⟩ | ⟨_, h⟩
    · cases congrArg Request.command h
    · cases congrArg Request.command h
    · exact h
    · cases congrArg Request.command h
    · cases congrArg Request.command h
    · cases congrArg Request.command h
  rcases getElem?_kept he' with he' | he'
  · exact h.reported e' he'
  · rw [(hbad e' he').1] at hpositive
    cases hpositive

/-- A mail is deleted behind the positive reply to its retrieval, which was passed on. -/
theorem Proceeds.retrieved_log (h : Proceeds cfg n m good) {i j : ℕ} {e : Exchange}
    (he : good[j]? = some e) (hdeletion : e.command = some (deletion i)) :
    ∃ (k : ℕ) (e₁ e₂ : Exchange), k + 1 ≤ j ∧ good[k]? = some e₁ ∧
      e₁.command = some (retrieval i) ∧ good[k + 1]? = some e₂ ∧
      e₂.reply.isPositive = true ∧ e₂.disposal = .passed := by
  have hj := (List.getElem?_eq_some_iff.mp he).1
  have hcommand := (h.getElem?_command he).trans hdeletion
  obtain ⟨i', hi', rfl, rfl⟩ : ∃ i', i' < n ∧ j = 3 + n + i' ∧ i = i' + 1 := by
    rcases commandsFor_cases hcommand with ⟨_, h⟩ | ⟨_, h⟩ | ⟨_, h⟩ | ⟨_, _, _, h⟩ |
      ⟨i', hi', hj, h⟩ | ⟨_, h⟩
    · cases congrArg Request.command h
    · cases congrArg Request.command h
    · cases congrArg Request.command h
    · cases congrArg Request.command h
    · exact ⟨i', hi', hj, eq_of_deletion h⟩
    · cases congrArg Request.command h
  have hretrieval : good[3 + i']? = some good[3 + i'] := List.getElem?_eq_getElem (by omega)
  have hreply : good[4 + i']? = some good[4 + i'] := List.getElem?_eq_getElem (by omega)
  refine ⟨3 + i', good[3 + i'], good[4 + i'], by omega, hretrieval, ?_, ?_,
    h.positive _ (List.getElem_mem _), h.passed i' _ hi' hreply⟩
  · rw [← h.getElem?_command hretrieval, commandsFor_retrieval hi']
  · rw [show 3 + i' + 1 = 4 + i' by omega]
    exact hreply

theorem Proceeds.emptied (h : Proceeds cfg n m good) (hbad : ∀ e ∈ bad, e.Idle) :
    Emptied cfg (good ++ bad) n where
  isPrefix := by
    rw [commands, List.filterMap_append]
    rw [← commands, ← commands, commands_idle hbad, List.append_nil, h.commands_eq]
    exact List.take_prefix _ _
  complete hpositive := by
    obtain rfl : bad = [] := by
      refine List.eq_nil_iff_forall_not_mem.mpr fun x hx => ?_
      have hxpositive := hpositive x (List.mem_append_right good hx)
      rw [(hbad x hx).1] at hxpositive
      cases hxpositive
    rw [List.append_nil]
    exact h.commands_eq
  stops := by
    intro i e he hnegative j e' hij he'
    have hi : good.length ≤ i := by
      by_contra hlt
      rw [List.getElem?_append_left (not_le.mp hlt)] at he
      rw [h.positive e (List.mem_of_getElem? he)] at hnegative
      cases hnegative
    rw [List.getElem?_append_right (hi.trans hij)] at he'
    exact (hbad e' (List.mem_of_getElem? he')).2.1
  retrieved := by
    intro i j e he hdeletion
    obtain ⟨k, e₁, e₂, hk, h₁, hretrieval, h₂, hpositive, hpassed⟩ :=
      h.retrieved_log (getElem?_of_command hbad he hdeletion) hdeletion
    have hlt (l : ℕ) {x : Exchange} (hx : good[l]? = some x) : (good ++ bad)[l]? = some x := by
      rw [List.getElem?_append_left (List.getElem?_eq_some_iff.mp hx).1]
      exact hx
    exact ⟨k, e₁, e₂, hk, hlt k h₁, hretrieval, hlt (k + 1) h₂, hpositive, hpassed⟩
  disposed := by
    intro e he
    rcases List.mem_append.mp he with he | he
    · exact h.disposed e he
    · rw [(hbad e he).2.2]
      exact Disposal.noConfusion

end Kept

/-- Where the commands can be sent, no reply is positive behind a negative one, and the sender
goes on from every positive one, the client empties the mailbox without losing mail. -/
theorem empties_of_regular (cfg : Configuration) (replies : List (Reply × Sending))
    (h : Runs.Along (Session.step cfg) Session.Regular {} replies) :
    ∃ s, Runs.run (Session.step cfg) {} replies = .ok s ∧ s.Empties cfg := by
  have hstart : Session.Kept cfg {} := ⟨0, [], [], rfl, Proceeds.start cfg, fun e he =>
    absurd he List.not_mem_nil⟩
  obtain ⟨s, hrun, n, good, bad, hlog, hproceeds, hbad⟩ :=
    Runs.run_total_invariant (Session.Kept cfg) (fun _ _ => kept_regular) hstart h
  refine ⟨s, hrun, n, ?_⟩
  rw [hlog]
  exact ⟨hproceeds.reported_log hbad, hproceeds.emptied hbad⟩

/-- A mailbox of one mail, up to its deletion. -/
theorem one_mail_empties : ∃ s, Runs.run (Session.step ⟨text "me", text "secret"⟩) {}
      [(⟨text "+OK", []⟩, .sent), (⟨text "+OK", []⟩, .sent), (⟨text "+OK", []⟩, .sent),
        (⟨text "+OK", [text "1 42"]⟩, .sent), (⟨text "+OK", [text "hello"]⟩, .sent),
        (⟨text "+OK", []⟩, .sent), (⟨text "-ERR", []⟩, .sent)] = .ok s ∧
      s.Empties ⟨text "me", text "secret"⟩ :=
  empties_of_regular _ _ (by decide)

theorem Session.Empties.command_ne_invalid {s : Session} (h : s.Empties cfg) {r : Request}
    (hr : r ∈ commands s.log) : r.command ≠ .invalid := by
  obtain ⟨n, -, hemptied⟩ := h
  obtain ⟨k, hk⟩ := List.mem_iff_getElem?.mp (hemptied.isPrefix.subset hr)
  rcases commandsFor_cases hk with ⟨_, rfl⟩ | ⟨_, rfl⟩ | ⟨_, rfl⟩ | ⟨_, _, _, rfl⟩ |
    ⟨_, _, _, rfl⟩ | ⟨_, rfl⟩ <;> exact Command.noConfusion

/-- A mailbox of two mails: the second one is not deleted. -/
theorem two_mails_not_emptied : ¬ ∃ s, Runs.run (Session.step ⟨text "me", text "secret"⟩) {}
      [(⟨text "+OK", []⟩, .sent), (⟨text "+OK", []⟩, .sent), (⟨text "+OK", []⟩, .sent),
        (⟨text "+OK", [text "2 99"]⟩, .sent), (⟨text "+OK", [text "hello"]⟩, .sent),
        (⟨text "+OK", [text "world"]⟩, .sent), (⟨text "+OK", []⟩, .sent)] = .ok s ∧
      s.Empties ⟨text "me", text "secret"⟩ := by
  rintro ⟨s, hrun, hempties⟩
  have hinvalid : ∀ s', Runs.run (Session.step ⟨text "me", text "secret"⟩) {}
      [(⟨text "+OK", []⟩, .sent), (⟨text "+OK", []⟩, .sent), (⟨text "+OK", []⟩, .sent),
        (⟨text "+OK", [text "2 99"]⟩, .sent), (⟨text "+OK", [text "hello"]⟩, .sent),
        (⟨text "+OK", [text "world"]⟩, .sent), (⟨text "+OK", []⟩, .sent)] = .ok s' →
      ⟨.invalid, [text "2"]⟩ ∈ commands s'.log := by
    intro s' hs'
    cases hs'
    decide
  exact hempties.command_ne_invalid (hinvalid s hrun) rfl

end ACENetwork.POP
