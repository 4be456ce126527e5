import ACENetwork.Library.Copies
import ACENetwork.Library.Transparency
import ACENetwork.SMTP.Record

/-!
# The SMTP streamer

`SMTP_Module_Streamer_T::handleDataMessage` writes the line of a command, or the text of a
message, into the block of the request.
-/
namespace ACENetwork.SMTP.Streamer
open BitTorrent (Fault InetAddr)
open Library

section Addresses

def beforeLastColon (s : Bytes) : Option Bytes :=
  if ':'.toUInt8 ∈ s then some (s.reverse.dropWhile (· != ':'.toUInt8)).tail.reverse else none

/-- `Net_Common_Tools::IPAddressToString`, of an address only. -/
def ipAddressToString (addrToString : InetAddr → Option Bytes) (address : InetAddr) :
    Except Fault Bytes :=
  match addrToString address with
  | none => .ok []
  | some result =>
    let result :=
      match address with
      | .ipv4 _ _ => result
      | .ipv6 _ _ =>
        let result := if result.head? = some '['.toUInt8 then result.tail else result
        (result.reverse.erase ']'.toUInt8).reverse
    match beforeLastColon result with
    | some result => .ok result
    | none => .error .assertion

/-- The text of an address, with its port behind it; that of an IPv6 address is in brackets. -/
structure WritesAddress (addrToString : InetAddr → Option Bytes) (ip : InetAddr → Bytes) : Prop where
  ipv4 : ∀ address port, addrToString (.ipv4 address port) =
    some (ip (.ipv4 address port) ++ ':'.toUInt8 :: decimal port.toNat)
  ipv6 : ∀ address port, addrToString (.ipv6 address port) =
    some ('['.toUInt8 :: (ip (.ipv6 address port) ++ ']'.toUInt8 :: ':'.toUInt8 ::
      decimal port.toNat))

variable {addrToString : InetAddr → Option Bytes} {ip : InetAddr → Bytes}

theorem decimal_notMem {b : UInt8} (h : isDigit b = false) (n : ℕ) : b ∉ decimal n := fun hb => by
  rw [isDigit_of_mem_decimal hb] at h
  cases h

theorem beforeLastColon_decimal (front : Bytes) (n : ℕ) :
    beforeLastColon (front ++ ':'.toUInt8 :: decimal n) = some front := by
  have hmem : ':'.toUInt8 ∈ front ++ ':'.toUInt8 :: decimal n := by simp
  have hdigits : ∀ b ∈ (decimal n).reverse, (b != ':'.toUInt8) = true := fun b hb => by
    refine bne_iff_ne.mpr ?_
    rintro rfl
    exact decimal_notMem (by decide) n (List.mem_reverse.mp hb)
  rw [beforeLastColon, if_pos hmem, List.reverse_append, List.reverse_cons, List.append_assoc,
    List.singleton_append, dropWhile_run hdigits fun b hb => ?_]
  · simp
  · cases hb
    rfl

theorem ipAddressToString_eq (h : WritesAddress addrToString ip) (address : InetAddr) :
    ipAddressToString addrToString address = .ok (ip address) := by
  cases address with
  | ipv4 address port =>
    rw [ipAddressToString, h.ipv4]
    dsimp only
    rw [beforeLastColon_decimal]
  | ipv6 address port =>
    have hbracket : ']'.toUInt8 ∉ (decimal port.toNat).reverse ++ [':'.toUInt8] := by
      simpa using ⟨decimal_notMem (by decide) port.toNat, by decide⟩
    have herase : ((ip (.ipv6 address port) ++ ']'.toUInt8 :: ':'.toUInt8 ::
        decimal port.toNat).reverse.erase ']'.toUInt8).reverse =
          ip (.ipv6 address port) ++ ':'.toUInt8 :: decimal port.toNat := by
      have hreverse : (ip (.ipv6 address port) ++ ']'.toUInt8 :: ':'.toUInt8 ::
          decimal port.toNat).reverse = ((decimal port.toNat).reverse ++ [':'.toUInt8]) ++
            ']'.toUInt8 :: (ip (.ipv6 address port)).reverse := by simp
      rw [hreverse, List.erase_append_right _ hbracket, List.erase_cons_head]
      simp
    rw [ipAddressToString, h.ipv6]
    dsimp only
    rw [List.head?_cons, if_pos rfl, List.tail_cons, herase, beforeLastColon_decimal]

end Addresses

section Streamer
variable (addrToString : InetAddr → Option Bytes) (date : Bytes) (r : Request)

def npos : ℕ := 2 ^ 64 - 1

def find (s pattern : Bytes) (position : ℕ) : Option ℕ :=
  ((List.range (s.length + 1)).filter fun i =>
    decide (position ≤ i) && pattern.isPrefixOf (s.drop i)).head?

/-- `message_header`, without the empty line. -/
def header (recipient : Bytes) : Bytes :=
  text "From: \"\" <" ++ r.from ++ text ">\r\n" ++ text "To: \"\" <" ++ recipient ++ text ">\r\n" ++
    text "Date: " ++ date ++ text "\r\n" ++
    (if r.subject = [] then [] else text "Subject: " ++ r.subject ++ text "\r\n")

/-- `text_string`, without the header: the data are cropped where the end sequence is found. -/
def croppedData : Bytes :=
  match find r.data (text "\r\n.\r\n") npos with
  | some position => r.data.take position
  | none => r.data

/-- `SMTP_Module_Streamer_T::handleDataMessage`: what the block of a request with some free space
holds. -/
def handleDataMessage (space : ℕ) : Except Fault Bytes :=
  match r.command with
  | .ehlo => do
    let address ← ipAddressToString addrToString r.domain
    .ok (copies space [text "EHLO [" ++ address ++ text "]\r\n"])
  | .startTls => .ok (copies space [text "STARTTLS\r\n"])
  | .mail => .ok (copies space [text "MAIL FROM:<" ++ r.from ++ text ">\r\n"])
  | .rcpt =>
    match r.to with
    | recipient :: _ => .ok (copies space [text "RCPT TO:<" ++ recipient ++ text ">\r\n"])
    | [] => .error .assertion
  | .data => .ok (copies space [text "DATA\r\n"])
  | .quit => .ok (copies space [text "QUIT\r\n"])
  | .auth =>
    match r.parameters with
    | [] => .ok (copies space [text "AUTH LOGIN\r\n"])
    | parameter :: _ => .ok (copies space [parameter, text "\r\n"])
  | .data2 =>
    match r.to with
    | recipient :: _ =>
      .ok (copies space [header date r recipient ++ text "\r\n" ++ croppedData r ++
        text "\r\n.\r\n"])
    | [] => .error .endIterator
  | .invalid => .ok []

end Streamer

section Messages
variable {addrToString : InetAddr → Option Bytes} {date recipient : Bytes} {r : Request} {space : ℕ}

theorem croppedData_eq (h : r.data.length < npos) : croppedData r = r.data := by
  have hnone : find r.data (text "\r\n.\r\n") npos = none := by
    rw [find, List.head?_eq_none_iff, List.filter_eq_nil_iff]
    intro i hi
    have hlt := List.mem_range.mp hi
    have hnot : ¬ npos ≤ i := by omega
    simp [hnot]
  rw [croppedData, hnone]

def message (date : Bytes) (r : Request) (recipient : Bytes) : Bytes :=
  header date r recipient ++ crlf ++ r.data

theorem handleDataMessage_data2 (hcommand : r.command = .data2)
    (hto : r.to.head? = some recipient) (hdata : r.data.length < npos)
    (hspace : (message date r recipient ++ endMark).length ≤ space) :
    handleDataMessage addrToString date r space = .ok (message date r recipient ++ endMark) := by
  obtain ⟨more, hto⟩ := List.head?_eq_some_iff.mp hto
  have hmark : text "\r\n.\r\n" = endMark := rfl
  have hcrlf : text "\r\n" = crlf := rfl
  rw [handleDataMessage, hcommand, hto]
  dsimp only
  rw [croppedData_eq hdata, hmark, hcrlf]
  rw [message] at hspace ⊢
  rw [copies_of_room (by rwa [List.flatten_singleton]), List.flatten_singleton]

theorem plain_append {a b : Bytes} (ha : ∀ c ∈ a, isPlain c = true) (hb : ∀ c ∈ b, isPlain c = true) :
    ∀ c ∈ a ++ b, isPlain c = true := fun c hc =>
  (List.mem_append.mp hc).elim (ha c) (hb c)

theorem dotLine_message (hfrom : ∀ b ∈ r.from, isPlain b = true)
    (hrecipient : ∀ b ∈ recipient, isPlain b = true) (hdate : ∀ b ∈ date, isPlain b = true) :
    dotLine <:+: crlf ++ message date r recipient ↔
      dotLine <:+: r.subject ∨ dotLine <:+: crlf ++ r.data := by
  have hend : text ">\r\n" = text ">" ++ crlf := rfl
  have hcrlf : text "\r\n" = crlf := rfl
  have hclose : ∀ c ∈ text ">", isPlain c = true := by decide +kernel
  have hline {name value : Bytes} (rest : Bytes) (hname : ∃ c ∈ name.head?, c ≠ dot)
      (hplain : ∀ b ∈ name ++ value, isPlain b = true) :
      dotLine <:+: crlf ++ (name ++ value ++ rest) ↔ dotLine <:+: rest := by
    refine dotLine_line (return_notMem_plain hplain) ?_
    obtain ⟨c, hc, hne⟩ := hname
    exact ⟨c, by rw [List.head?_append, Option.mem_def.mp hc]; rfl, hne⟩
  have hempty : dotLine <:+: crlf ++ (crlf ++ r.data) ↔ dotLine <:+: crlf ++ r.data := by
    have hfirst : (crlf ++ r.data).head? ≠ some dot := fun heq =>
      absurd (Option.some.inj heq) (by decide)
    rw [dotLine_start_iff]
    exact or_iff_right hfirst
  have hsubject : dotLine <:+: crlf ++ ((if r.subject = [] then [] else
      text "Subject: " ++ r.subject ++ text "\r\n") ++ (crlf ++ r.data)) ↔
        dotLine <:+: r.subject ∨ dotLine <:+: crlf ++ r.data := by
    split_ifs with hnil
    · have hnot : ¬ dotLine <:+: r.subject := by
        rw [hnil]
        decide
      rw [List.nil_append, hempty]
      exact (or_iff_right hnot).symm
    · have hname : ∀ b ∈ text "Subject: ", isPlain b = true := by decide +kernel
      rw [List.append_assoc, List.append_assoc,
        dotLine_line (return_notMem_plain hname) ⟨'S'.toUInt8, rfl, by decide⟩, hcrlf,
        dotLine_crlf, hempty]
  have hmessage : message date r recipient = (text "From: \"\" <" ++ (r.from ++ text ">")) ++
      (crlf ++ ((text "To: \"\" <" ++ (recipient ++ text ">")) ++ (crlf ++
        ((text "Date: " ++ date) ++ (crlf ++ ((if r.subject = [] then [] else
          text "Subject: " ++ r.subject ++ text "\r\n") ++ (crlf ++ r.data))))))) := by
    simp only [message, header, hend, hcrlf, List.append_assoc]
  rw [hmessage, hline _ ⟨'F'.toUInt8, rfl, by decide⟩ (plain_append (by decide +kernel)
      (plain_append hfrom hclose)),
    hline _ ⟨'T'.toUInt8, rfl, by decide⟩ (plain_append (by decide +kernel)
      (plain_append hrecipient hclose)),
    hline _ ⟨'D'.toUInt8, rfl, by decide⟩ (plain_append (by decide +kernel) hdate), hsubject]

/-- A message that fits into its block is transparent exactly if its data do not begin with a dot,
and no line behind a line end of its subject or its data does. -/
theorem handleDataMessage_transparent_iff (hcommand : r.command = .data2)
    (hto : r.to.head? = some recipient) (hfrom : ∀ b ∈ r.from, isPlain b = true)
    (hrecipient : ∀ b ∈ recipient, isPlain b = true) (hdate : ∀ b ∈ date, isPlain b = true)
    (hdata : r.data.length < npos)
    (hspace : (message date r recipient ++ endMark).length ≤ space) :
    (∃ bytes, handleDataMessage addrToString date r space = .ok bytes ∧
      Transparent (message date r recipient) bytes) ↔
        ¬ dotLine <:+: r.subject ∧ ¬ r.data.head? = some dot ∧ ¬ dotLine <:+: r.data := by
  have hbytes : handleDataMessage addrToString date r space = .ok _ :=
    handleDataMessage_data2 hcommand hto hdata hspace
  have hiff : (∃ bytes, handleDataMessage addrToString date r space = .ok bytes ∧
      Transparent (message date r recipient) bytes) ↔
        Transparent (message date r recipient) (message date r recipient ++ endMark) := by
    constructor
    · rintro ⟨bytes, h, htransparent⟩
      rw [hbytes] at h
      cases h
      exact htransparent
    · exact fun htransparent => ⟨_, hbytes, htransparent⟩
  rw [hiff, transparent_iff, dotLine_message hfrom hrecipient hdate, dotLine_start_iff, not_or,
    not_or]

def sampleDate : Bytes := text "Mon, 01 Jan 2024 00:00:00 +0000"

def sampleRequest (data : Bytes) : Request where
  command := .data2
  «from» := text "alice@example.org"
  «to» := [text "bob@example.org"]
  data := data

theorem sample_transparent : ∃ bytes,
    handleDataMessage (fun _ => none) sampleDate (sampleRequest (text "Hi Bob\r\n")) 1024 = .ok bytes ∧
      Transparent (message sampleDate (sampleRequest (text "Hi Bob\r\n")) (text "bob@example.org"))
        bytes :=
  (handleDataMessage_transparent_iff rfl rfl (by decide +kernel) (by decide +kernel)
    (by decide +kernel) (by decide +kernel) (by decide +kernel)).mpr (by decide +kernel)

/-- The data end the message, and go on with a command. -/
theorem sample_not_transparent : ∃ bytes,
    handleDataMessage (fun _ => none) sampleDate
        (sampleRequest (text "Hi\r\n.\r\nMAIL FROM:<eve@example.org>\r\n")) 1024 = .ok bytes ∧
      ¬ Transparent (message sampleDate
        (sampleRequest (text "Hi\r\n.\r\nMAIL FROM:<eve@example.org>\r\n"))
          (text "bob@example.org")) bytes := by
  refine ⟨_, rfl, fun h => ?_⟩
  have hback := h.once (header sampleDate (sampleRequest []) (text "bob@example.org") ++ crlf ++
    text "Hi") (text "MAIL FROM:<eve@example.org>\r\n" ++ endMark) (by decide +kernel)
  exact absurd hback (by decide +kernel)

end Messages

end ACENetwork.SMTP.Streamer
