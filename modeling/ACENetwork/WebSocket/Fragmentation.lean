import ACENetwork.WebSocket.Framing

/-!
# The messages of a stream

A parser that blocks waits for messages inside the scanner, and one that does not starts over with
the first block of its chain while the start condition stays.
-/
namespace ACENetwork.WebSocket
open BitTorrent (Fault fault_bind_ok)
open Library

/-- What a parser that blocks has scanned: the octets of a frame, if one has ended, the chain with
the messages that have been waited for, and those that are to come. -/
structure Scanned where
  parser : Parser
  frame : Option ℕ
  chain : List Bytes
  queue : List Bytes

def Scanned.behind (s : Scanned) (block : Bytes) : Scanned :=
  { s with frame := s.frame.map (block.length + ·), chain := block :: s.chain }

/-- A block has room for the two octets that end a buffer, and the scanner can count its octets. -/
def begin (config : Configuration) (capacity : ℕ) (block : Bytes) : Except Fault Unit :=
  if capacity - block.length < flexBoundarySize then .error .assertion
  else if 2 ^ 31 ≤ block.length + config.overhead then .error .signedOverflow
  else .ok ()

/-- `zzparse` with a scanner that switches to the next block, and waits for one where none is
linked. Where octets are left that no rule takes, it goes on in the buffer that has been deleted. -/
def lexBlocks (config : Configuration) (capacity : ℕ) (p : Parser) (block : Bytes) (linked : ℕ) :
    (following : List Bytes) → Except Fault Scanned
  | [] => do
    let (p, token, rest) ← lex p block
    match token with
    | .frame => .ok ⟨p, some (block.length - rest.length), [matched config block rest], []⟩
    | .finished | .invalid => .ok ⟨p, none, [block], []⟩
  | next :: following => do
    let (p, token, rest) ← lex p block
    match token with
    | .frame =>
      .ok ⟨p, some (block.length - rest.length),
        matched config block rest :: (next :: following).take linked,
        (next :: following).drop linked⟩
    | .invalid => .error .outOfRange
    | .finished => do
      begin config capacity next
      let s ← lexBlocks config capacity p next (linked - 1) following
      .ok (s.behind block)

/-- One pass over the chain of a parser that blocks: what comes behind a frame, or the end of the
messages. -/
def Module.passBlocking (tools : StreamTools) (config : Configuration) (capacity : ℕ) (m : Module)
    (block : Bytes) (blocks queue : List Bytes) : Except Fault (Module × Option (List Bytes)) := do
  begin config capacity block
  let s ← lexBlocks config capacity m.parser.begun block blocks.length (blocks ++ queue)
  match s.frame with
  | some consumed => do
    let m ← m.frame tools s.parser consumed s.chain
    .ok (m, some s.queue)
  | none => .ok ({ m with parser := s.parser, chain := s.chain }, none)

section Termination

variable {tools : StreamTools} {config : Configuration} {capacity : ℕ} {m m' : Module}
  {p q : Parser} {block text rest : Bytes} {blocks queue following : List Bytes} {s : Scanned}

theorem lex_offset {token : Token} (h : lex p text = .ok (q, token, rest)) :
    p.offset ≤ q.offset ∧
      (p.condition = .initial → p.offset < q.offset ∨ q.condition = .initial) := by
  fun_induction lex p text with
  | case3 | case9 | case10 => cases h
  | case1 | case8 | case12 =>
    cases h
    exact ⟨Nat.le_refl _, .inr⟩
  | case4 | case13 | case15 =>
    cases h
    refine ⟨?_, fun _ => .inr rfl⟩
    first | exact Nat.le_refl _ | exact Nat.le_add_right _ _
  | case2 p b rest hcondition ih =>
    have hlt : p.offset < q.offset := (ih h).1
    exact ⟨Nat.le_of_lt hlt, fun _ => .inl hlt⟩
  | case5 p b rest hcondition | case6 p b rest hcondition | case7 p b hcondition
  | case11 p b hcondition | case14 p b rest hcondition | case16 p b rest hcondition =>
    rename_i ih
    refine ⟨Nat.le_trans ?_ (ih h).1,
      fun hstart => absurd (hcondition.symm.trans hstart) (by decide)⟩
    first | exact Nat.le_refl _ | exact Nat.le_add_right _ _

/-- A frame that has been scanned over some blocks: it has a header, and no octet is lost. -/
theorem lexBlocks_frame {linked consumed : ℕ}
    (h : lexBlocks config capacity p block linked following = .ok s)
    (hframe : s.frame = some consumed) :
    s.parser.condition = .initial ∧ p.offset ≤ s.parser.offset ∧
      (p.condition = .initial → p.offset < s.parser.offset) ∧
      s.chain.flatten.length + s.queue.flatten.length =
        block.length + following.flatten.length := by
  induction following generalizing p block linked s consumed with
  | nil =>
    rw [lexBlocks] at h
    obtain ⟨⟨q, token, rest⟩, hlex, h⟩ := fault_bind_ok.mp h
    cases token with
    | frame =>
      cases h
      obtain ⟨hinitial, hle, hlt⟩ := lex_frame hlex
      exact ⟨hinitial, hle, hlt, by simp⟩
    | finished | invalid =>
      cases h
      cases hframe
  | cons next following ih =>
    rw [lexBlocks] at h
    obtain ⟨⟨q, token, rest⟩, hlex, h⟩ := fault_bind_ok.mp h
    cases token with
    | frame =>
      cases h
      obtain ⟨hinitial, hle, hlt⟩ := lex_frame hlex
      refine ⟨hinitial, hle, hlt, ?_⟩
      have hsplit := congrArg (fun blocks : List Bytes => blocks.flatten.length)
        (List.take_append_drop linked (next :: following))
      simp only [List.flatten_append, List.length_append] at hsplit
      simp only [List.flatten_cons, List.length_append, matched_length] at hsplit ⊢
      omega
    | invalid => cases h
    | finished =>
      obtain ⟨_, -, h⟩ := fault_bind_ok.mp h
      obtain ⟨s', hs', h⟩ := fault_bind_ok.mp h
      cases h
      obtain ⟨consumed', hframe', -⟩ := Option.map_eq_some_iff.mp hframe
      obtain ⟨hinitial, hle, hlt, hlength⟩ := ih hs' hframe'
      obtain ⟨hle', hstart⟩ := lex_offset hlex
      refine ⟨hinitial, hle'.trans hle, fun hp => ?_, ?_⟩
      · rcases hstart hp with hq | hq
        · exact hq.trans_le hle
        · exact hle'.trans_lt (hlt hq)
      · simp only [Scanned.behind, List.flatten_cons, List.length_append]
        omega

def Module.rankWith (m : Module) (queue : List Bytes) : ℕ :=
  m.rank + 2 * queue.flatten.length

theorem passBlocking_rank (hchain : m.chain = block :: blocks)
    (h : m.passBlocking tools config capacity block blocks queue = .ok (m', some following)) :
    m'.rankWith following < m.rankWith queue := by
  obtain ⟨_, -, h⟩ := fault_bind_ok.mp h
  obtain ⟨s, hs, h⟩ := fault_bind_ok.mp h
  cases hframe : s.frame with
  | none =>
    rw [hframe] at h
    cases h
  | some consumed =>
    rw [hframe] at h
    obtain ⟨n, hn, h⟩ := fault_bind_ok.mp h
    cases h
    obtain ⟨hinitial, -, hheader, hlength⟩ := lexBlocks_frame hs hframe
    obtain ⟨hcondition, hle⟩ := frame_rank hn
    rw [List.flatten_append, List.length_append] at hlength
    rw [Module.rankWith, Module.rankWith, Module.rank, Module.rank, hchain, hcondition,
      if_pos hinitial, List.flatten_cons, List.length_append]
    split_ifs with hstart
    · have hpos : 0 < s.parser.offset := hheader hstart
      omega
    · omega

end Termination

/-- The loop of a task whose parser blocks: what it dispatches is taken from the queue, as is what
it waits for. -/
def Module.serve (tools : StreamTools) (config : Configuration) (capacity : ℕ) (m : Module)
    (queue : List Bytes) : Except Fault Module :=
  match _hchain : m.chain with
  | [] =>
    match queue with
    | [] => .ok m
    | message :: queue =>
      if capacity - message.length < flexBoundarySize then .error .assertion
      else serve tools config capacity { m with chain := [message] } queue
  | block :: blocks =>
    match _hpass : m.passBlocking tools config capacity block blocks queue with
    | .error fault => .error fault
    | .ok (m, none) => .ok m
    | .ok (m, some queue) => serve tools config capacity m queue
termination_by (m.rankWith queue, queue.length)
decreasing_by
  · simp only [Module.rankWith, Module.rank, _hchain, List.flatten_cons, List.flatten_nil,
      List.length_append, List.length_nil, List.length_cons]
    apply Prod.Lex.right'
    · omega
    · omega
  · exact Prod.Lex.left _ _ (passBlocking_rank _hchain _hpass)

/-- The messages of a session reach `dispatch_2` one by one. -/
def Module.receive (tools : StreamTools) (config : Configuration) (capacity : ℕ) (m : Module) :
    List Bytes → Except Fault Module
  | [] => .ok m
  | message :: messages => do
    let m ← m.dispatch tools config capacity message
    m.receive tools config capacity messages

section Serve

variable {tools : StreamTools} {config : Configuration} {capacity : ℕ} {m : Module}
  {block message : Bytes} {blocks queue : List Bytes}

end Serve

def Module.messages (tools : StreamTools) (config : Configuration) (capacity : ℕ) (block : Bool)
    (m : Module) (messages : List Bytes) : Except Fault Module :=
  if block then m.serve tools config capacity messages
  else m.receive tools config capacity messages

end ACENetwork.WebSocket
