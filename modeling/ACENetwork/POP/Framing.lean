import ACENetwork.Library.Runs
import ACENetwork.POP.Decoding
import ACENetwork.POP.Send

/-!
# Replies and records

The parser reads the replies of the server while the sender switches its flag. As long as no
status line ends a mail, every record that is delivered is one reply.
-/
namespace ACENetwork.POP
open BitTorrent (Fault)
open Library
open Library.Blocks (Piece Whole remaining Within)
open SMTP (Sending)

/-- What the server has to answer next. -/
inductive Awaited where
  | nothing
  | greeting
  | command (request : Request)
  deriving DecidableEq

def Awaited.isRetrieval : Awaited → Bool
  | .command request => request.command = .transRetr
  | _ => false

/-- A reply of the server, and the blocks it comes in. -/
structure Answer where
  positive : Bool
  status : Bytes
  mail : List Bytes := []
  blocks : List Bytes
  deriving DecidableEq

def Answer.code (a : Answer) : Bytes := if a.positive then ok else err

def Answer.octets (retrieval : Bool) (a : Answer) : Bytes :=
  if a.positive = true ∧ retrieval = true then encode a.status a.mail
  else a.code ++ (a.status ++ crlf)

/-- The client: its sender, the start condition of the scanner, and what is awaited; the records
with the octets they were read from; the replies, each with its code. -/
structure Client where
  sender : Sender := {}
  condition : Condition := .initial
  awaited : Awaited := .greeting
  records : List (Reply × ℕ) := []
  replies : List (Bytes × Bytes) := []
  deriving DecidableEq

/-- A reply is parsed, and its record handled. A reply whose record is not delivered leaves the
parser waiting, or it has been an error; no command follows it. -/
def Client.step (cfg : Configuration) (s : Client) (e : Answer × Sending) :
    Except Fault Client :=
  let s := { s with replies := s.replies ++ [(e.1.code, e.1.octets s.awaited.isRetrieval)] }
  match parse s.sender.expectMultiline s.condition e.1.blocks with
  | .closed (.delivered record scanned) => do
    let (sender, request, _) ← handleDataMessage cfg s.sender record e.2
    .ok { s with
      sender := sender
      condition := .replyCode
      awaited := request.elim .nothing .command
      records := s.records ++ [(record, scanned)] }
  | _ => .ok { s with awaited := .nothing }

/-- The reply has the form that the command prescribes. -/
structure Client.Answers (s : Client) (a : Answer) : Prop where
  awaited : s.awaited ≠ .nothing
  status : IsPlain a.status
  mail : ∀ line ∈ a.mail, IsPlain line
  blocks : ∀ b ∈ a.blocks, b ≠ []
  octets : a.blocks.flatten = a.octets s.awaited.isRetrieval

/-- Every record has been read from one reply: it has the status of the reply to its command, and it
has consumed the octets of that reply. -/
def Client.InStep (s : Client) : Prop :=
  ∀ (i : ℕ) (record : Reply) (scanned : ℕ), s.records[i]? = some (record, scanned) →
    ∃ code octets : Bytes, s.replies[i]? = some (code, octets) ∧ record.status = code ∧
      scanned = octets.length

/-- The status line ends the mail: its text is a dot behind blanks, with its line end in the same
block, and the blanks have not been cut. -/
def EndsMail (code status : Bytes) (blocks : List Bytes) : Prop :=
  ∃ blanks blocks₁ blocks₂ blocks₃, blanks ≠ [] ∧ (∀ b ∈ blanks, b = blank) ∧
    status = blanks ++ [dot] ∧ Piece code blocks blocks₁ ∧ Piece blanks blocks₁ blocks₂ ∧
    Piece mailEnd blocks₂ blocks₃

/-- The reply has its form, and the status line of a mail does not end the mail. -/
def Client.Regular (s : Client) (e : Answer × Sending) : Prop :=
  s.Answers e.1 ∧ (s.awaited.isRetrieval = true → e.1.positive = true →
    ¬ EndsMail ok e.1.status e.1.blocks)

variable {condition : Condition} {code status more : Bytes} {blocks lines : List Bytes} {r : Reply}
  {n : ℕ}

section Reading

theorem readFrom_status {m : Bool} {c : Condition} {v : Bytes} {r r' : Reply} {k : ℕ}
    (h : readFrom m c v r k blocks = .closed (.delivered r' n)) : r'.status = r.status := by
  have hstep : ∀ p text, p.record.map Reply.status = some r.status →
      Blocks.Keeps (fun p : Parse => p.record.map Reply.status = some r.status)
        (fun result => ∀ r' n, result = .delivered r' n → r'.status = r.status)
        (step m p text).1 := by
    intro p text hp
    obtain ⟨condition, value, record, scanned⟩ := p
    obtain ⟨record, rfl, hrecord⟩ := Option.map_eq_some_iff.mp hp
    rw [step]
    cases rule m condition value text with
    | goOn next value length => exact hp
    | invalid next =>
      intro r' n hr
      cases hr
    | give token next value length =>
      cases token with
      | replyCode _ =>
        intro r' n hr
        cases hr
      | replyText _ => exact hp
      | replyTextEnd =>
        intro r' n hr
        cases hr
        exact hrecord
  have hkeeps := Blocks.read_keeps hstep (s := ⟨c, v, some r, k⟩) rfl blocks
  rw [show Blocks.read (step m) ⟨c, v, some r, k⟩ blocks = _ from h] at hkeeps
  exact hkeeps r' n rfl

theorem single_line (hcondition : condition = .initial ∨ condition = .replyCode)
    (hcode : code = ok ∨ code = err) (hplain : IsPlain status) (hblocks : ∀ b ∈ blocks, b ≠ [])
    (hflatten : blocks.flatten = code ++ (status ++ crlf))
    (h : parse false condition blocks = .closed (.delivered r n)) :
    r.status = code ∧ n = (code ++ (status ++ crlf)).length := by
  obtain ⟨blocks₁, hpiece⟩ := code_of_delivered hcondition hcode hblocks hflatten h
  have hblocks₁ := hpiece.nonempty hblocks
  rw [parse_code hcondition hcode hpiece] at h
  refine ⟨readFrom_status h, ?_⟩
  rw [hpiece.flatten] at hflatten
  have hflatten₁ : blocks₁.flatten = status ++ (crlf ++ []) := List.append_cancel_left hflatten
  rcases status_of_delivered hblocks₁ hplain hflatten₁ h with ⟨rfl, blocks₂, hcrlf⟩ | hblank
  · rw [readFrom_textBegin_crlf hcrlf, if_neg Bool.false_ne_true] at h
    cases h
    rw [List.length_append]
    rfl
  · obtain ⟨blanks, rest, blocks₂, hne, hblanks, rfl, hpiece₁, hcut⟩ :=
      exists_blanks hblocks₁ hblank hflatten₁
    have hblocks₂ := hpiece₁.nonempty hblocks₁
    rw [← List.append_assoc] at hflatten₁
    rw [readFrom_status_blanks hne hblanks hflatten₁ hpiece₁ hcut] at h
    rw [hpiece₁.flatten, List.append_assoc, List.append_assoc] at hflatten₁
    have hflatten₂ : blocks₂.flatten = rest ++ crlf ++ [] := by
      rw [List.append_assoc]
      exact List.append_cancel_left hflatten₁
    have hrest : carriageReturn ∉ rest := fun hin =>
      return_notMem_plain hplain (List.mem_append_right blanks hin)
    obtain ⟨blocks₃, hline⟩ := piece_of_upToLineEnd hblocks₂ hrest hflatten₂
      fun word tail hcons hne hcut => by
        rw [hcons, show textCondition false = .text from rfl, readFrom_singleText_cut hne hcut] at h
        cases h
    obtain ⟨r', hread, -⟩ := readFrom_singleText (m := false) (v := []) (r := ⟨code, []⟩)
      (n := code.length + blanks.length) hrest hline
    rw [show textCondition false = .text from rfl, hread] at h
    cases h
    simp only [List.length_append]
    omega

theorem mail_consumed (hcondition : condition = .initial ∨ condition = .replyCode)
    (hcode : code = ok ∨ code = err) (hplain : IsPlain status)
    (hlines : ∀ line ∈ lines, IsPlain line ∧ line ≠ [dot]) (hblocks : ∀ b ∈ blocks, b ≠ [])
    (hflatten : blocks.flatten = code ++ (status ++ (crlf ++ (content lines ++ mailEnd))))
    (hends : ¬ EndsMail code status blocks)
    (h : parse true condition blocks = .closed (.delivered r n)) :
    r.status = code ∧ n = (code ++ (status ++ (crlf ++ (content lines ++ mailEnd)))).length := by
  obtain ⟨blocks₁, hpiece⟩ := code_of_delivered hcondition hcode hblocks hflatten h
  have hblocks₁ := hpiece.nonempty hblocks
  rw [parse_code hcondition hcode hpiece] at h
  refine ⟨readFrom_status h, ?_⟩
  rw [hpiece.flatten] at hflatten
  have hflatten₁ := List.append_cancel_left hflatten
  have hcrlf : crlf.length = 2 := by decide
  rcases status_of_delivered hblocks₁ hplain hflatten₁ h with ⟨rfl, blocks₂, hend⟩ | hblank
  · rw [hend.flatten] at hflatten₁
    rw [readFrom_textBegin_crlf hend, if_pos rfl] at h
    obtain ⟨entries, hentries⟩ := lines_of_delivered (hend.nonempty hblocks₁) hlines
      (List.append_cancel_left hflatten₁) h
    rw [hentries.delivered hlines] at h
    cases h
    simp only [List.length_append, List.length_nil, hcrlf]
    omega
  · obtain ⟨blanks, rest, blocks₂, hne, hblanks, rfl, hpiece₁, hcut⟩ :=
      exists_blanks hblocks₁ hblank hflatten₁
    have hblocks₂ := hpiece₁.nonempty hblocks₁
    rw [← List.append_assoc] at hflatten₁
    rw [readFrom_status_blanks hne hblanks hflatten₁ hpiece₁ hcut,
      show textCondition true = .multilineTextBegin from rfl] at h
    rw [hpiece₁.flatten, List.append_assoc, List.append_assoc] at hflatten₁
    have hflatten₂ := List.append_cancel_left hflatten₁
    cases rest with
    | nil =>
      have hall : ∀ line ∈ [] :: lines, IsPlain line ∧ line ≠ [dot] := by
        intro line hline
        rcases List.mem_cons.mp hline with rfl | hline
        · exact ⟨fun b hb => absurd hb List.not_mem_nil, by decide⟩
        · exact hlines line hline
      obtain ⟨entries, hentries⟩ := lines_of_delivered hblocks₂ hall hflatten₂ h
      rw [hentries.delivered hall] at h
      cases h
      simp only [content_cons, List.length_append, List.length_nil, hcrlf]
      omega
    | cons c y =>
      have hline : IsPlain (c :: y) := fun b hb => hplain b (List.mem_append_right _ hb)
      have hend : c :: y = [dot] → ∀ blocks', ¬ Piece mailEnd blocks₂ blocks' := by
        intro hdot blocks' hmailEnd
        exact hends ⟨blanks, blocks₁, blocks₂, blocks', hne, hblanks, by rw [hdot], hpiece, hpiece₁,
          hmailEnd⟩
      rw [← List.append_assoc] at hflatten₂
      obtain ⟨blocks₃, blocks₄, hfirst, hdot, hrest⟩ :=
        statusText_of_delivered hblocks₂ hline hflatten₂ hend h
      obtain ⟨v', hread⟩ := readFrom_statusText hline hfirst hdot hrest
      have hflatten₄ : blocks₄.flatten = content lines ++ mailEnd := by
        rw [hfirst.flatten, hrest.flatten, ← List.append_assoc] at hflatten₂
        exact List.append_cancel_left hflatten₂
      rw [hread] at h
      obtain ⟨entries, hentries⟩ := lines_of_delivered
        (hrest.nonempty (hfirst.nonempty hblocks₂)) hlines hflatten₄ h
      rw [hentries.delivered hlines] at h
      cases h
      simp only [List.length_append, List.length_cons, hcrlf]
      omega

theorem scanned_le (m : Bool) (h : parse m condition blocks = .closed (.delivered r n)) :
    n ≤ blocks.flatten.length := by
  have hwithin := Blocks.read_within (step_within m) { condition := condition } blocks
  rw [show Blocks.read (step m) { condition := condition } blocks = _ from h] at hwithin
  simpa [Within, Result.scanned] using hwithin

theorem negative_consumed (hcondition : condition = .initial ∨ condition = .replyCode)
    (hcode : code = ok ∨ code = err) (hplain : IsPlain status) (hblocks : ∀ b ∈ blocks, b ≠ [])
    (hflatten : blocks.flatten = code ++ (status ++ crlf))
    (h : parse true condition blocks = .closed (.delivered r n)) :
    r.status = code ∧ n = (code ++ (status ++ crlf)).length := by
  by_cases hends : EndsMail code status blocks
  · obtain ⟨blanks, blocks₁, blocks₂, blocks₃, hne, hblanks, rfl, hpiece, hpiece₁, hend⟩ := hends
    rw [parse_code hcondition hcode hpiece] at h
    refine ⟨readFrom_status h, ?_⟩
    rw [hpiece.flatten] at hflatten
    have hflatten₁ : blocks₁.flatten = blanks ++ [dot] ++ crlf ++ [] := by
      rw [List.append_nil]
      exact List.append_cancel_left hflatten
    rw [readFrom_status_blanks hne hblanks hflatten₁ hpiece₁ (fun hdot => absurd hdot (by decide)),
      show textCondition true = .multilineTextBegin from rfl, readFrom_terminator hend] at h
    cases h
    have hcrlf : crlf.length = 2 := by decide
    simp only [List.length_append, List.length_singleton, hcrlf]
    omega
  · -- with the end of a mail behind it the reply would be longer than it is
    have hmore : (blocks ++ [mailEnd]).flatten =
        code ++ (status ++ (crlf ++ (content [] ++ mailEnd))) := by
      rw [List.flatten_append, hflatten]
      simp [content]
    have hends' : ¬ EndsMail code status (blocks ++ [mailEnd]) := by
      rintro ⟨blanks, more₁, more₂, more₃, hne, hblanks, rfl, hpiece, hpiece₁, hend⟩
      refine hends ?_
      have hnonempty {b : Bytes} {bs : List Bytes} (h : bs.flatten = b ++ crlf) : bs ≠ [] := by
        rintro rfl
        cases (List.append_eq_nil_iff.mp h.symm).2
      rw [← List.append_assoc] at hflatten
      obtain ⟨blocks₁, hcode₁, rfl⟩ := hpiece.of_append (hnonempty hflatten)
      rw [hcode₁.flatten, List.append_assoc] at hflatten
      have hflatten₁ := List.append_cancel_left hflatten
      obtain ⟨blocks₂, hblanks₂, rfl⟩ := hpiece₁.of_append (hnonempty hflatten₁)
      rw [hblanks₂.flatten, List.append_assoc] at hflatten₁
      obtain ⟨blocks₃, hend₃, -⟩ :=
        hend.of_append (hnonempty (List.append_cancel_left hflatten₁))
      exact ⟨blanks, blocks₁, blocks₂, blocks₃, hne, hblanks, rfl, hcode₁, hblanks₂, hend₃⟩
    have hblocks' : ∀ b ∈ blocks ++ [mailEnd], b ≠ [] := by
      intro b hb
      rcases List.mem_append.mp hb with hb | hb
      · exact hblocks b hb
      · rw [List.mem_singleton.mp hb]
        decide
    have hdelivered : parse true condition (blocks ++ [mailEnd]) = .closed (.delivered r n) :=
      Blocks.read_append_closed h [mailEnd]
    obtain ⟨-, hn⟩ := mail_consumed hcondition hcode hplain (by simp) hblocks' hmore hends' hdelivered
    have hle := scanned_le true h
    rw [hn, hflatten] at hle
    simp [content, mailEnd] at hle

end Reading

section Flag

variable {cfg : Configuration} {m m' : Sender} {reply : Reply} {sending : Sending}
  {request : Request} {disposal : Disposal}

/-- The flag is set while a mail is awaited. -/
def Sender.Flagged (m : Sender) : Prop :=
  m.expectMultiline = true ↔ m.protocolState = .transRetrSent

def Response.Flagged : Response → Prop
  | .send m _ request =>
    m.Flagged ∧ (m.expectMultiline = true ↔ request.command = .transRetr)
  | .protocolError => True
  | .return_ _ => True

/-- A command of another state, which leaves the flag alone. -/
theorem flagged_of_other {b : Bool} (hflag : m.Flagged) (hstate : m.protocolState ≠ .transRetrSent)
    {state : ProtocolState} (hnext : state ≠ .transRetrSent) (hrequest : request.command ≠ .transRetr) :
    (Response.send { m with protocolState := state } b request).Flagged := by
  have hoff : m.expectMultiline ≠ true := fun h => hstate (hflag.mp h)
  exact ⟨iff_of_false hoff hnext, iff_of_false hoff hrequest⟩

theorem statSent_flagged {text : List Bytes} {response : Response} (hflag : m.Flagged)
    (hstate : m.protocolState = .transStatSent) (h : statSent m text = .ok response) :
    response.Flagged := by
  cases text with
  | nil => cases h
  | cons line text =>
    rw [statSent] at h
    cases hmatch : matchStat line with
    | none =>
      rw [hmatch] at h
      cases h
      trivial
    | some numerals =>
      rw [hmatch] at h
      have hoff : m.expectMultiline ≠ true := by
        intro hon
        rw [hflag.mp hon] at hstate
        cases hstate
      by_cases hempty : readUnsigned numerals.1 = 0
      · simp only [hempty, if_pos] at h
        cases h
        exact ⟨iff_of_false hoff ProtocolState.noConfusion, iff_of_false hoff Command.noConfusion⟩
      · simp only [if_neg hempty] at h
        cases h
        exact ⟨iff_of_true rfl rfl, iff_of_true rfl rfl⟩

theorem respond_flagged {response : Response} (hflag : m.Flagged)
    (h : respond cfg m reply = .ok response) : response.Flagged := by
  have hother := @flagged_of_other m
  obtain ⟨state, mailDrop, index, multiline⟩ := m
  by_cases hpositive : reply.isPositive = true
  · cases state with
    | transStatSent =>
      simp only [respond, if_pos hpositive] at h
      exact statSent_flagged hflag rfl h
    | transRetrSent =>
      have hon : multiline = true := hflag.mpr rfl
      simp only [respond, if_pos hpositive, retrSent, Except.ok.injEq] at h
      subst h
      split_ifs
      · exact ⟨iff_of_false Bool.false_ne_true ProtocolState.noConfusion,
          iff_of_false Bool.false_ne_true Command.noConfusion⟩
      · exact ⟨iff_of_true hon rfl, iff_of_true hon rfl⟩
    | transDeleSent =>
      have hoff : ¬ multiline = true := fun hon => ProtocolState.noConfusion (hflag.mp hon)
      simp only [respond, if_pos hpositive, deleSent, Except.ok.injEq] at h
      subst h
      split_ifs
      · exact ⟨iff_of_false hoff ProtocolState.noConfusion, iff_of_false hoff Command.noConfusion⟩
      · exact ⟨iff_of_false hoff ProtocolState.noConfusion, iff_of_false hoff Command.noConfusion⟩
    | invalid | authLoginUserSent | authLoginPasswordSent =>
      simp only [respond, if_pos hpositive] at h
      cases h
      exact hother hflag ProtocolState.noConfusion ProtocolState.noConfusion Command.noConfusion
    | _ =>
      simp only [respond, hpositive, if_true, Except.ok.injEq] at h
      subst h
      trivial
  · cases state with
    | invalid | authLoginUserSent | authLoginPasswordSent | transStatSent | transRetrSent
    | transDeleSent | transQuitSent | updatQuitSent =>
      simp only [respond, if_neg hpositive, Except.ok.injEq] at h
      subst h
      trivial
    | _ =>
      simp only [respond, Except.ok.injEq] at h
      subst h
      trivial

theorem handleDataMessage_flagged (hflag : m.Flagged)
    (h : handleDataMessage cfg m reply sending = .ok (m', some request, disposal)) :
    m'.Flagged ∧ (m'.expectMultiline = true ↔ request.command = .transRetr) := by
  rw [handleDataMessage] at h
  by_cases hrecord : sending = .noRecord
  · rw [if_pos hrecord] at h
    cases h
  · rw [if_neg hrecord] at h
    obtain ⟨response, hrespond, h⟩ := BitTorrent.fault_bind_ok.mp h
    have hflagged := respond_flagged hflag hrespond
    cases response with
    | return_ m => cases h
    | protocolError => cases h
    | send m pass request =>
      by_cases hsent : sending = .sent
      · simp only [if_pos hsent] at h
        cases h
        exact hflagged
      · simp only [if_neg hsent] at h
        obtain ⟨state, -, h⟩ := BitTorrent.fault_bind_ok.mp h
        cases h

end Flag

section Run

variable {cfg : Configuration} {s s' : Client}

theorem Answer.code_cases (a : Answer) : a.code = ok ∨ a.code = err := by
  rw [Answer.code]
  split_ifs
  · exact Or.inl rfl
  · exact Or.inr rfl

/-- What holds of a client while its replies are in step. -/
structure Client.Kept (s : Client) : Prop where
  inStep : s.InStep
  condition : s.condition = .initial ∨ s.condition = .replyCode
  length : s.awaited ≠ .nothing → s.records.length = s.replies.length
  flagged : s.awaited ≠ .nothing → s.sender.Flagged ∧
    (s.sender.expectMultiline = true ↔ s.awaited.isRetrieval = true)

theorem Client.Kept.consumed (hkept : s.Kept) {e : Answer × Sending} (h : s.Regular e)
    {record : Reply} {scanned : ℕ}
    (hparse : parse s.sender.expectMultiline s.condition e.1.blocks =
      .closed (.delivered record scanned)) :
    record.status = e.1.code ∧ scanned = (e.1.octets s.awaited.isRetrieval).length := by
  obtain ⟨⟨hawaited, hstatus, hmail, hblocks, hoctets⟩, hends⟩ := h
  obtain ⟨-, hflag⟩ := hkept.flagged hawaited
  by_cases hretrieval : s.awaited.isRetrieval = true
  · rw [hflag.mpr hretrieval] at hparse
    by_cases hpositive : e.1.positive = true
    · have hcode : e.1.code = ok := if_pos hpositive
      rw [Answer.octets, if_pos ⟨hpositive, hretrieval⟩, encode_eq] at hoctets ⊢
      rw [hcode]
      exact mail_consumed hkept.condition (Or.inl rfl) hstatus (stuffed hmail) hblocks hoctets
        (hends hretrieval hpositive) hparse
    · rw [Answer.octets, if_neg fun h => hpositive h.1] at hoctets ⊢
      exact negative_consumed hkept.condition e.1.code_cases hstatus hblocks hoctets hparse
  · have hoff : s.sender.expectMultiline = false :=
      Bool.not_eq_true _ ▸ fun hon => hretrieval (hflag.mp hon)
    rw [hoff] at hparse
    rw [Answer.octets, if_neg fun h => hretrieval h.2] at hoctets ⊢
    exact single_line hkept.condition e.1.code_cases hstatus hblocks hoctets hparse

theorem Client.InStep.replies (h : s.InStep) (reply : Bytes × Bytes) (awaited : Awaited) :
    Client.InStep { s with replies := s.replies ++ [reply], awaited := awaited } := by
  intro i record scanned hi
  obtain ⟨code, octets, hreply, hrecord⟩ := h i record scanned hi
  refine ⟨code, octets, ?_, hrecord⟩
  show (s.replies ++ [reply])[i]? = some (code, octets)
  rw [List.getElem?_append_left (List.getElem?_eq_some_iff.mp hreply).1, hreply]

theorem Client.InStep.snoc (h : s.InStep) {t : Client} {record : Reply} {scanned : ℕ}
    {code octets : Bytes} (hlength : s.records.length = s.replies.length)
    (hrecords : t.records = s.records ++ [(record, scanned)])
    (hreplies : t.replies = s.replies ++ [(code, octets)])
    (hstatus : record.status = code) (hscanned : scanned = octets.length) : t.InStep := by
  intro i record' scanned' hi
  rw [hrecords] at hi
  rw [hreplies]
  rcases lt_trichotomy i s.records.length with hlt | rfl | hgt
  · rw [List.getElem?_append_left hlt] at hi
    obtain ⟨code', octets', hreply, hrecord⟩ := h i record' scanned' hi
    refine ⟨code', octets', ?_, hrecord⟩
    rw [List.getElem?_append_left (hlength ▸ hlt), hreply]
  · rw [List.getElem?_concat_length] at hi
    cases hi
    exact ⟨code, octets, by rw [hlength, List.getElem?_concat_length], hstatus, hscanned⟩
  · rw [List.getElem?_eq_none (by simp; omega)] at hi
    cases hi

theorem kept_step {e : Answer × Sending} (hkept : s.Kept) (hregular : s.Regular e)
    (hstep : s.step cfg e = .ok s') : s'.Kept := by
  rw [Client.step] at hstep
  simp only at hstep
  have hwaiting (hs' : { s with
      replies := s.replies ++ [(e.1.code, e.1.octets s.awaited.isRetrieval)]
      awaited := .nothing } = s') : s'.Kept := by
    subst hs'
    exact ⟨hkept.inStep.replies _ _, hkept.condition, fun h => absurd rfl h, fun h => absurd rfl h⟩
  cases hparse : parse s.sender.expectMultiline s.condition e.1.blocks with
  | opened p =>
    rw [hparse] at hstep
    exact hwaiting (Except.ok.inj hstep)
  | closed result =>
    cases result with
    | failed =>
      rw [hparse] at hstep
      exact hwaiting (Except.ok.inj hstep)
    | delivered record scanned =>
      rw [hparse] at hstep
      obtain ⟨⟨sender, request, disposal⟩, hhandle, hstep⟩ := BitTorrent.fault_bind_ok.mp hstep
      obtain ⟨hstatus, hscanned⟩ := hkept.consumed hregular hparse
      have hlength := hkept.length hregular.1.awaited
      obtain ⟨hflag, -⟩ := hkept.flagged hregular.1.awaited
      cases hstep
      refine ⟨hkept.inStep.snoc hlength rfl rfl hstatus hscanned, Or.inr rfl, fun _ => ?_, ?_⟩
      · simp [hlength]
      · intro hawaited
        cases request with
        | none => exact absurd rfl hawaited
        | some request =>
          obtain ⟨hflag', hretr⟩ := handleDataMessage_flagged hflag hhandle
          exact ⟨hflag', hretr.trans decide_eq_true_iff.symm⟩

end Run

/-- Where the replies have their form and no status line ends a mail, every record is read from one
reply, in every state the client reaches. -/
theorem inStep_of_regular (cfg : Configuration) {s : Client} {answers : List (Answer × Sending)}
    (h : Runs.Along (Client.step cfg) Client.Regular {} answers)
    (hrun : Runs.run (Client.step cfg) {} answers = .ok s) : s.InStep := by
  have hstart : Client.Kept {} := {
    inStep := fun i record scanned hi => by cases hi
    condition := Or.inl rfl
    length := fun _ => rfl
    flagged := fun _ => ⟨iff_of_false Bool.false_ne_true ProtocolState.noConfusion,
      iff_of_false Bool.false_ne_true Bool.false_ne_true⟩ }
  exact (Runs.run_invariant Client.Kept (fun _ _ _ => kept_step) hstart h hrun).inStep

instance Client.Answers.decidable (s : Client) (a : Answer) : Decidable (s.Answers a) :=
  decidable_of_iff (s.awaited ≠ .nothing ∧ IsPlain a.status ∧ (∀ line ∈ a.mail, IsPlain line) ∧
      (∀ b ∈ a.blocks, b ≠ []) ∧ a.blocks.flatten = a.octets s.awaited.isRetrieval)
    ⟨fun ⟨h₁, h₂, h₃, h₄, h₅⟩ => ⟨h₁, h₂, h₃, h₄, h₅⟩,
      fun ⟨h₁, h₂, h₃, h₄, h₅⟩ => ⟨h₁, h₂, h₃, h₄, h₅⟩⟩

/-- A status text whose last character is not a dot does not end a mail. -/
theorem regular_of_getLast? (s : Client) (e : Answer × Sending)
    (h : s.Answers e.1 ∧ e.1.status.getLast? ≠ some dot) : s.Regular e := by
  refine ⟨h.1, fun _ _ => ?_⟩
  rintro ⟨blanks, -, -, -, -, -, hstatus, -⟩
  rw [hstatus, List.getLast?_concat] at h
  exact h.2 rfl

def oneMail (a : Answer) : List (Answer × Sending) :=
  [(⟨true, [], [], [text "+OK", crlf]⟩, .sent), (⟨true, [], [], [text "+OK" ++ crlf]⟩, .sent),
    (⟨true, [], [], [text "+OK" ++ crlf]⟩, .sent),
    (⟨true, text " 1 9", [], [text "+OK ", text "1 9" ++ crlf]⟩, .sent), (a, .sent)]

/-- A mail in four blocks. -/
theorem one_mail_in_step : (Runs.run (Client.step ⟨text "me", text "pw"⟩) {}
      (oneMail ⟨true, [], [text "x"], [text "+OK" ++ crlf, text "x", crlf, mailEnd]⟩)).toOption.any
        (·.records.length == 5) = true ∧
    ∀ s, Runs.run (Client.step ⟨text "me", text "pw"⟩) {}
      (oneMail ⟨true, [], [text "x"], [text "+OK" ++ crlf, text "x", crlf, mailEnd]⟩) = .ok s →
      s.InStep :=
  ⟨by decide, fun _ hrun => inStep_of_regular _
    (Runs.Along.mono (by decide +kernel) regular_of_getLast?) hrun⟩

/-- The status line of a mail ends the mail: its record has consumed seven octets. -/
theorem dot_status_out_of_step :
    Runs.Along (Client.step ⟨text "me", text "pw"⟩) (fun s e => s.Answers e.1) {}
      (oneMail ⟨true, text " .", [text "x"], [encode (text " .") [text "x"]]⟩) ∧
    ¬ ∀ s, Runs.run (Client.step ⟨text "me", text "pw"⟩) {}
      (oneMail ⟨true, text " .", [text "x"], [encode (text " .") [text "x"]]⟩) = .ok s →
      s.InStep := by
  refine ⟨by decide +kernel, fun h => ?_⟩
  have hrecord : (Runs.run (Client.step ⟨text "me", text "pw"⟩) {}
      (oneMail ⟨true, text " .", [text "x"], [encode (text " .") [text "x"]]⟩)).toOption.any
        (fun s => s.records[4]? == some (⟨ok, []⟩, 7) &&
          s.replies[4]? == some (ok, encode (text " .") [text "x"])) = true := by decide
  cases hrun : Runs.run (Client.step ⟨text "me", text "pw"⟩) {}
      (oneMail ⟨true, text " .", [text "x"], [encode (text " .") [text "x"]]⟩) with
  | error f =>
    rw [hrun] at hrecord
    cases hrecord
  | ok s =>
    rw [hrun] at hrecord
    obtain ⟨hrecord, hreply⟩ := Bool.and_eq_true_iff.mp hrecord
    obtain ⟨code, octets, hreply', -, hscanned⟩ := h s hrun 4 _ _ (beq_iff_eq.mp hrecord)
    rw [beq_iff_eq.mp hreply] at hreply'
    cases hreply'
    exact absurd hscanned (by decide)

end ACENetwork.POP
