import ACENetwork.IRC.Bisection
import ACENetwork.IRC.Independence
import ACENetwork.IRC.Session

/-!
# The stream of a client

The bisector cuts the blocks of a connection into frames, the parser makes a record of each frame,
and the session is notified of the records. What the session makes of the blocks depends on the
frames only.
-/
namespace ACENetwork.IRC
open BitTorrent (Fault)
open Library
open Library.Runs

/-- The modules of a stream, with the session that its last module notifies. -/
structure Client where
  bisector : Bisector.Module := {}
  driver : Parser.Driver := {}
  session : SessionState := {}
  deriving DecidableEq

section

variable (capacity : ℕ) (split : Bytes → UInt8 → List Bytes)

/-- A frame is parsed, and the session is notified of its record. -/
def Client.frame (c : Client) (blocks : List Bytes) : Except Fault Client := do
  let (driver, outcome) ← Parser.handleDataMessage capacity c.driver blocks
  match outcome with
  | none => .ok { c with driver := driver }
  | some r => do
    let session ← notify split c.session r
    .ok { c with driver := driver, session := session }

/-- A block is cut, and the frames that it completes are passed on. -/
def Client.receive (c : Client) (block : Bytes) : Except Fault Client := do
  let bisector ← Bisector.handleDataMessage { c.bisector with passed := [] } block
  run (Client.frame capacity split) { c with bisector := bisector } bisector.passed

end

def parsed (frame : Bytes) : Option Record :=
  match Parser.parse {} .initial frame with
  | .ok (_, outcome) => outcome
  | .error _ => none

/-- A frame that is parsed on its own, with no other line end in it. -/
structure Regular (capacity : ℕ) (frame : Bytes) : Prop extends Parser.Regular capacity frame where
  plain : ∃ body, frame = body ++ crlf ∧ ∀ b ∈ body, isPlain b = true

/-- A block that starts with a frame has two octets at least; `retained` has been retained. -/
def Scanned (retained : Bytes) (frames blocks : List Bytes) : Prop :=
  ∀ front block back, blocks = front ++ block :: back →
    (∃ done rest, frames = done ++ rest ∧ retained ++ front.flatten = done.flatten) →
      2 ≤ block.length

variable {capacity : ℕ} {split : Bytes → UInt8 → List Bytes} {c : Client} {retained tail : Bytes}
  {frames blocks : List Bytes} {chains : List (List Bytes)}

section Frames

theorem handleDataMessage_parsed {chain : List Bytes}
    (h : Parser.Regular capacity chain.flatten) :
    Parser.handleDataMessage capacity {} chain = .ok ({}, parsed chain.flatten) := by
  obtain ⟨body, hbody, hreturns⟩ := h.returns
  obtain ⟨outcome, hparse⟩ := Parser.endsInitial_of_returns hreturns
  rw [Parser.handleDataMessage_fits h.fits h.boundary, parsed, hbody, hparse]
  rfl

theorem run_frame (hdriver : c.driver = {})
    (hchains : ∀ chain ∈ chains, Parser.Regular capacity chain.flatten) :
    run (Client.frame capacity split) c chains =
      run (notify split) c.session ((chains.map List.flatten).filterMap parsed) >>=
        fun session => .ok { c with session := session } := by
  induction chains generalizing c with
  | nil => rfl
  | cons chain chains ih =>
    have hchain := hchains chain List.mem_cons_self
    have htail (c : Client) (hdriver : c.driver = {}) := ih hdriver
      fun chain hchain => hchains chain (List.mem_cons_of_mem _ hchain)
    obtain ⟨bisector, driver, session⟩ := c
    obtain rfl : driver = {} := hdriver
    rw [run_cons, Client.frame, handleDataMessage_parsed hchain, List.map_cons, List.filterMap_cons]
    cases parsed chain.flatten with
    | none => exact htail ⟨bisector, {}, session⟩ rfl
    | some r =>
      show (notify split session r >>= fun session => _) >>= _ = (notify split session r >>= _) >>= _
      cases notify split session r with
      | error f => rfl
      | ok session' => exact htail ⟨bisector, {}, session'⟩ rfl

theorem isLine_of_regular {frame : Bytes} (h : Regular capacity frame) : IsLine frame := by
  obtain ⟨body, rfl, hplain⟩ := h.plain
  exact isLine_of_plain hplain

theorem paired_frames (hframes : ∀ frame ∈ frames, Regular capacity frame)
    (htail : Paired tail) : Paired (frames.flatten ++ tail) := by
  refine htail.lines_append fun frame hframe => ?_
  obtain ⟨body, rfl, hplain⟩ := (hframes frame hframe).plain
  exact ⟨body, rfl, hplain⟩

/-- The first line feed ends the first frame. -/
theorem idxOf_frames (hframes : ∀ frame ∈ frames, Regular capacity frame)
    (htail : lineFeed ∉ tail) (hfeed : lineFeed ∈ frames.flatten ++ tail) :
    (frames.flatten ++ tail).idxOf lineFeed < Parser.maximumFrameSize := by
  cases frames with
  | nil => exact absurd hfeed htail
  | cons frame frames =>
    have hregular := hframes frame List.mem_cons_self
    obtain ⟨body, hbody, hplain⟩ := hregular.plain
    have hfits := hregular.fits
    rw [hbody, List.length_append] at hfits
    have hcrlf : crlf.length = 2 := rfl
    rw [List.flatten_cons, hbody, List.append_assoc, Bisector.idxOf_lineFeed hplain]
    omega

end Frames

section Blocks

theorem kept_of_open {m : Bisector.Module} (h : m.Open retained) :
    Bisector.Module.Kept { m with passed := [] } retained :=
  ⟨by simp, retained, h, rfl⟩

theorem not_crlf_of_open {m : Bisector.Module} (h : m.Open retained) : ¬ crlf <:+: retained := by
  rcases h.2 with ⟨hplain, -⟩ | ⟨body, hplain, rfl, -⟩
  · exact not_crlf_infix_plain hplain
  · exact not_crlf_infix_pending hplain

theorem regular_block {m : Bisector.Module} {block rest : Bytes} (hopen : m.Open retained)
    (hframes : ∀ frame ∈ frames, Regular capacity frame) (htail : Paired tail)
    (hcrlf : ¬ crlf <:+: tail) (hlength : block.length + 2 < 2 ^ 31)
    (hstarts : retained = [] → 2 ≤ block.length)
    (hflatten : retained ++ (block ++ rest) = frames.flatten ++ tail) :
    Bisector.Module.Regular { m with passed := [] } block := by
  have hbuffer : m.buffer.flatten = retained := hopen.1
  have hwhole : retained ++ block ++ rest = frames.flatten ++ tail := by
    rw [List.append_assoc, hflatten]
  refine ⟨fun hnil => hstarts (hbuffer.symm.trans hnil), ?_, hlength, ?_⟩
  · have hpaired : Paired (frames.flatten ++ tail) := paired_frames hframes htail
    rw [← hwhole] at hpaired
    exact hbuffer ▸ hpaired.of_prefix
  · show lineFeed ∈ m.buffer.flatten ++ block →
      (m.buffer.flatten ++ block).idxOf lineFeed + 1 < 2 ^ 32
    rw [hbuffer]
    intro hfeed
    have hindex : (retained ++ block ++ rest).idxOf lineFeed < Parser.maximumFrameSize := by
      rw [hwhole]
      refine idxOf_frames hframes (htail.lineFeed_notMem hcrlf) ?_
      rw [← hwhole]
      exact List.mem_append_left rest hfeed
    rw [List.idxOf_append_of_mem hfeed] at hindex
    have hsize : Parser.maximumFrameSize + 1 < 2 ^ 32 := by decide
    omega

theorem Scanned.next {passed left : List Bytes} {block retained' : Bytes}
    (h : Scanned retained (passed ++ left) (block :: blocks))
    (heq : passed.flatten ++ retained' = retained ++ block) : Scanned retained' left blocks := by
  rintro front block' back rfl ⟨done, rest, rfl, hdone⟩
  refine h (block :: front) block' back rfl ⟨passed ++ done, rest, (List.append_assoc ..).symm, ?_⟩
  rw [List.flatten_append, ← hdone, ← List.append_assoc, heq]
  simp

/-- The blocks that are left of a stream of frames: the session is notified of the records of the
frames that are left. -/
theorem run_receive (hdriver : c.driver = {}) (hopen : c.bisector.Open retained)
    (hframes : ∀ frame ∈ frames, Regular capacity frame)
    (htail : Paired tail) (hcrlf : ¬ crlf <:+: tail)
    (hblocks : ∀ block ∈ blocks, block ≠ [] ∧ block.length + 2 < 2 ^ 31)
    (hscanned : Scanned retained frames blocks)
    (hflatten : retained ++ blocks.flatten = frames.flatten ++ tail) :
    (run (Client.receive capacity split) c blocks).map Client.session =
      run (notify split) c.session (frames.filterMap parsed) := by
  induction blocks generalizing c retained frames with
  | nil =>
    -- what is retained has no frame
    cases frames with
    | nil => rfl
    | cons frame frames =>
      have hline := (isLine_of_regular (hframes frame List.mem_cons_self)).1.isInfix
      rw [List.flatten_nil, List.append_nil, List.flatten_cons, List.append_assoc] at hflatten
      exact absurd (hline.trans ⟨[], _, hflatten.symm⟩) (not_crlf_of_open hopen)
  | cons block blocks ih =>
    obtain ⟨hne, hlength⟩ := hblocks block List.mem_cons_self
    have hstarts (hnil : retained = []) : 2 ≤ block.length :=
      hscanned [] block blocks rfl ⟨[], frames, rfl, by simp [hnil]⟩
    have hregular : Bisector.Module.Regular { c.bisector with passed := [] } block :=
      regular_block hopen hframes htail hcrlf hlength hstarts hflatten
    obtain ⟨m, hm, hlines, retained', hopen', hpassed⟩ := (kept_of_open hopen).step hne hregular
    have hcut : (m.passed.map List.flatten).flatten ++ retained' = retained ++ block := by
      rw [← List.flatten_flatten, hpassed]
    have hrest : (m.passed.map List.flatten).flatten ++ (retained' ++ blocks.flatten) =
        frames.flatten ++ tail := by
      rw [← List.append_assoc, hcut, List.append_assoc, ← hflatten]
      rfl
    obtain ⟨left, rfl, hleft⟩ := lines_front (List.forall_mem_map.mpr hlines)
      (fun frame hframe => isLine_of_regular (hframes frame hframe)) hcrlf hrest
    have hchains : ∀ chain ∈ m.passed, Parser.Regular capacity chain.flatten := fun chain hchain =>
      (hframes _ (List.mem_append_left left (List.mem_map_of_mem hchain))).toRegular
    have hreceive : c.receive capacity split block =
        run (notify split) c.session ((m.passed.map List.flatten).filterMap parsed) >>=
          fun session => .ok { c with bisector := m, session := session } := by
      rw [Client.receive, hm]
      exact run_frame hdriver hchains
    rw [run_cons, hreceive, List.filterMap_append, run_append_bind]
    cases run (notify split) c.session ((m.passed.map List.flatten).filterMap parsed) with
    | error f => rfl
    | ok session =>
      exact ih hdriver hopen' (fun frame hframe => hframes frame (List.mem_append_right _ hframe))
        (fun block hblock => hblocks block (List.mem_cons_of_mem _ hblock)) (hscanned.next hcut) hleft

/-- The session of a client is what it would be if it were notified of the records of the frames,
however the frames come in blocks, as long as none of one octet starts a frame. -/
theorem session_of_blocks (nickName : Bytes)
    (hframes : ∀ frame ∈ frames, Regular capacity frame)
    (htail : Paired tail) (hcrlf : ¬ crlf <:+: tail)
    (hblocks : ∀ block ∈ blocks, block ≠ [] ∧ block.length + 2 < 2 ^ 31)
    (hscanned : Scanned [] frames blocks) (hflatten : blocks.flatten = frames.flatten ++ tail) :
    (run (Client.receive capacity split) { session := start nickName } blocks).map Client.session =
      run (notify split) (start nickName) (frames.filterMap parsed) :=
  run_receive rfl ⟨rfl, .inl ⟨by simp, rfl, rfl⟩⟩ hframes htail hcrlf hblocks hscanned hflatten

def shortStay : List Bytes := [text ":nick JOIN #a\r\n", text ":nick PART #a\r\n"]

theorem shortStay_regular : ∀ frame ∈ shortStay, Regular 514 frame := by
  have hlead : Parser.IsLead (text ":nick ") :=
    Or.inr ⟨text "nick", [], text " ", Or.inr ⟨by decide +kernel, by decide +kernel⟩, by simp,
      by simp [Parser.Separate], ⟨by decide +kernel, by decide +kernel⟩, by decide +kernel⟩
  have hframe (command : Bytes) (hne : command ≠ []) (hcommand : ∀ b ∈ command, isAlpha b = true)
      (hlength : command.length ≤ 4) :
      Regular 514 (text ":nick " ++ (command ++ Parser.blank :: text "#a") ++ crlf) := by
    have hsize : (text ":nick " ++ (command ++ Parser.blank :: text "#a") ++ crlf).length =
        command.length + 11 := by
      simp only [List.length_append, List.length_cons]
      show 6 + (command.length + 3) + 2 = _
      omega
    have hmax : Parser.maximumFrameSize = 512 := rfl
    have hflex : Parser.flexBoundarySize = 2 := rfl
    refine ⟨⟨by omega, by omega, _, rfl, ?_⟩, _, rfl, fun b hb => ?_⟩
    · exact .message hlead ⟨.string command, rfl, hne, hcommand⟩ (by decide +kernel)
        (by unfold Parser.Undisturbed; decide +kernel)
    · rcases List.mem_append.mp hb with hb | hb
      · exact (by decide +kernel : ∀ b ∈ text ":nick ", isPlain b = true) b hb
      · rcases List.mem_append.mp hb with hb | hb
        · have halpha := hcommand b hb
          rw [isPlain, Bool.and_eq_true, bne_iff_ne, bne_iff_ne]
          refine ⟨?_, ?_⟩ <;> rintro rfl <;> exact absurd halpha (by decide)
        · exact (by decide +kernel : ∀ b ∈ Parser.blank :: text "#a", isPlain b = true) b hb
  intro frame hin
  rcases List.mem_cons.mp hin with rfl | hin
  · exact hframe (text "JOIN") (by decide) (by decide +kernel) (by decide)
  · obtain rfl := List.mem_singleton.mp hin
    exact hframe (text "PART") (by decide) (by decide +kernel) (by decide)

/-- A frame that is cut between carriage return and line feed, and an open one. A block of one octet
in front of a frame makes an assertion fail. -/
theorem session_of_visit :
    (run (Client.receive 514 fun s b => s.splitOn b) { session := start (text "nick") }
        [text ":nick JO", text "IN #a\r", text "\n:nick PART #a\r\n:n"]).map Client.session =
      run (notify fun s b => s.splitOn b) (start (text "nick")) (shortStay.filterMap parsed) ∧
    run (Client.receive 514 fun s b => s.splitOn b) { session := start (text "nick") }
      [text ":", text "nick JOIN #a\r\n"] = .error .assertion := by
  constructor
  · have hlong : ∀ block ∈ [text ":nick JO", text "IN #a\r", text "\n:nick PART #a\r\n:n"],
        2 ≤ block.length ∧ block.length + 2 < 2 ^ 31 := by decide +kernel
    refine session_of_blocks (text "nick") shortStay_regular (by decide +kernel : Paired (text ":n"))
      (by decide +kernel) (fun block hblock => ⟨?_, (hlong block hblock).2⟩) ?_ (by decide +kernel)
    · rintro rfl
      exact absurd (hlong [] hblock).1 (by decide)
    · intro front block back hblocks _
      exact (hlong block (hblocks ▸ by simp)).1
  · decide +kernel

end Blocks

end ACENetwork.IRC
