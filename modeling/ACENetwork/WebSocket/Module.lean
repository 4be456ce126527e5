import ACENetwork.WebSocket.Scanner

/-!
# The parser module

`WebSocket_Module_Parser_T::dispatch_2` parses the first block of the chain that it keeps, cuts
the frame out of the chain and passes it on, as long as anything is left. The parser does not
block: more data arrive by further calls only.
-/
namespace ACENetwork.WebSocket
open BitTorrent (Fault)
open Library

/-- `Stream_Tools::get` of the stream library: the blocks with the first octets of a chain, and
the others. A chain that is cut behind its first block stays as it is. -/
structure StreamTools where
  get : ℕ → List Bytes → List Bytes × List Bytes
  get_front : ∀ block rest, rest.flatten ≠ [] → get block.length (block :: rest) = ([block], rest)
  get_rest : ∀ n chain, (get n chain).2.flatten.length ≤ chain.flatten.length

/-- The octets of a chain that are left once the first ones have been taken off. -/
def split : ℕ → List Bytes → List Bytes × List Bytes
  | _, [] => ([], [])
  | n, block :: blocks =>
    if n < block.length then ([block.take n], block.drop n :: blocks)
    else if n = block.length then ([block], blocks)
    else (block :: (split (n - block.length) blocks).1, (split (n - block.length) blocks).2)

theorem split_length (n : ℕ) (chain : List Bytes) :
    (split n chain).2.flatten.length ≤ chain.flatten.length := by
  induction chain generalizing n with
  | nil => exact Nat.le_refl _
  | cons block blocks ih =>
    have hrest := ih (n - block.length)
    rw [split]
    split_ifs <;>
      simp only [List.flatten_cons, List.length_append, List.length_drop] <;>
      omega

def StreamTools.split : StreamTools where
  get := WebSocket.split
  get_front block rest _ := by
    rw [WebSocket.split, if_neg (Nat.lt_irrefl _), if_pos rfl]
  get_rest := split_length

structure Configuration where
  useYYScanBuffer : Bool
  deriving DecidableEq

/-- The octets that flex counts beside those of a buffer: a copy has the two behind them. -/
def Configuration.overhead (config : Configuration) : ℕ :=
  if config.useYYScanBuffer then 0 else 2

/-- What is passed downstream: the octets that the scanner took, the record, and the data. -/
structure Passed where
  consumed : ℕ
  opcode : UInt8
  payloadSize : UInt64
  payload : Bytes
  deriving DecidableEq, Repr

structure Module where
  parser : Parser := {}
  /-- The chain that starts with `headFragment_`. -/
  chain : List Bytes := []
  passed : List Passed := []
  deriving DecidableEq

def flexBoundarySize : ℕ := 2

def advance (count : ℕ) : List Bytes → Except Fault (List Bytes)
  | [] => .error .assertion
  | block :: blocks =>
    if count ≤ block.length then .ok (block.drop count :: blocks)
    else do
      let blocks ← advance (count - block.length) blocks
      .ok ([] :: blocks)

/-- A block is cut in two behind the first octets of a chain. -/
def cut (count : ℕ) : List Bytes → Except Fault (List Bytes)
  | [] => .error .assertion
  | block :: blocks =>
    if count < block.length then .ok (block.take count :: block.drop count :: blocks)
    else if count = block.length then .ok (block :: blocks)
    else do
      let blocks ← cut (count - block.length) blocks
      .ok (block :: blocks)

/-- The octets of a block once a token has been matched in place: the octet behind the match
stays a NUL. -/
def matched (config : Configuration) (block rest : Bytes) : Bytes :=
  if config.useYYScanBuffer then block.set (block.length - rest.length) 0 else block

/-- The driver starts over with a block. The start condition and the counters stay. -/
def Parser.begun (p : Parser) : Parser := { p with finished := false, offset := 0, record := {} }

/-- `WebSocket_ParserDriver_T::parse`: the state, the token, and the octets that are left. The
scanner takes the length of the buffer as an `int`. -/
def parse (config : Configuration) (p : Parser) (block : Bytes) :
    Except Fault (Parser × Token × Bytes) :=
  if 2 ^ 31 ≤ block.length + config.overhead then .error .signedOverflow
  else lex p.begun block

/-- What is passed on and what stays: the chain as a whole, or what is cut off it. -/
def StreamTools.reframe (tools : StreamTools) (size : ℕ) (chain : List Bytes) :
    Except Fault (List Bytes × List Bytes) :=
  if chain.flatten.length ≤ size then .ok (chain, [])
  else
    match (tools.get size chain).1 with
    | [] => .error .assertion
    | _ :: _ => .ok (tools.get size chain)

/-- A frame has been parsed: `record` frames its data, and they are passed on. -/
def Module.frame (tools : StreamTools) (m : Module) (p : Parser) (consumed : ℕ)
    (chain : List Bytes) : Except Fault Module := do
  let chain ← advance p.offset chain
  let chain ← cut p.record.payloadSize.toNat chain
  let (front, rest) ← tools.reframe p.record.payloadSize.toNat chain
  .ok { m with
    parser := { p with finished := true }
    chain := rest
    passed := m.passed ++ [⟨consumed, p.record.opcode, p.record.payloadSize, front.flatten⟩] }

/-- One pass over the first block of the chain. Where the frame is not complete, the next block is
switched to by `switchBuffer`, which fails as the buffer has been deleted; the last block waits. -/
def Module.pass (tools : StreamTools) (config : Configuration) (m : Module) (block : Bytes)
    (blocks : List Bytes) : Except Fault (Module × Bool) := do
  let (p, token, rest) ← parse config m.parser block
  match token with
  | .frame => do
    let m ← m.frame tools p (block.length - rest.length) (matched config block rest :: blocks)
    .ok (m, true)
  | .finished | .invalid =>
    if blocks = [] then .ok ({ m with parser := p, chain := [block] }, false)
    else .error .assertion

section Termination

variable {tools : StreamTools} {config : Configuration} {m m' : Module} {p q : Parser}
  {text rest block : Bytes} {blocks chain : List Bytes}

theorem lex_frame (h : lex p text = .ok (q, .frame, rest)) :
    q.condition = .initial ∧ p.offset ≤ q.offset ∧
      (p.condition = .initial → p.offset < q.offset) := by
  fun_induction lex p text with
  | case1 | case3 | case8 | case9 | case10 | case12 => cases h
  | case2 p b rest hcondition ih =>
    obtain ⟨hinitial, hle, -⟩ := ih h
    have hlt : p.offset < q.offset := hle
    exact ⟨hinitial, Nat.le_of_lt hlt, fun _ => hlt⟩
  | case4 p b rest hcondition | case13 p b rest hcondition | case15 p b rest hcondition =>
    cases h
    refine ⟨rfl, ?_, fun hstart => absurd (hcondition.symm.trans hstart) (by decide)⟩
    first | exact Nat.le_refl _ | exact Nat.le_add_right _ _
  | case5 p b rest hcondition | case6 p b rest hcondition | case7 p b hcondition
  | case11 p b hcondition | case14 p b rest hcondition | case16 p b rest hcondition =>
    rename_i ih
    obtain ⟨hinitial, hle, -⟩ := ih h
    refine ⟨hinitial, Nat.le_trans ?_ hle,
      fun hstart => absurd (hcondition.symm.trans hstart) (by decide)⟩
    first | exact Nat.le_refl _ | exact Nat.le_add_right _ _

theorem advance_length {count : ℕ} (h : advance count blocks = .ok chain) :
    chain.flatten.length + count = blocks.flatten.length := by
  induction blocks generalizing count chain with
  | nil => cases h
  | cons block blocks ih =>
    rw [advance] at h
    split_ifs at h with hcount
    · cases h
      simp only [List.flatten_cons, List.length_append, List.length_drop]
      omega
    · obtain ⟨rest, hrest, h⟩ := BitTorrent.fault_bind_ok.mp h
      cases h
      have hlength := ih hrest
      simp only [List.flatten_cons, List.length_append, List.length_nil]
      omega

theorem cut_flatten {count : ℕ} (h : cut count blocks = .ok chain) :
    chain.flatten = blocks.flatten := by
  induction blocks generalizing count chain with
  | nil => cases h
  | cons block blocks ih =>
    rw [cut] at h
    split_ifs at h with hlt heq
    · cases h
      rw [List.flatten_cons, List.flatten_cons, List.flatten_cons, ← List.append_assoc,
        List.take_append_drop]
    · cases h
      rfl
    · obtain ⟨rest, hrest, h⟩ := BitTorrent.fault_bind_ok.mp h
      cases h
      rw [List.flatten_cons, List.flatten_cons, ih hrest]

theorem reframe_length {size : ℕ} {parts : List Bytes × List Bytes}
    (h : tools.reframe size chain = .ok parts) :
    parts.2.flatten.length ≤ chain.flatten.length := by
  rw [StreamTools.reframe] at h
  split_ifs at h
  · cases h
    exact Nat.zero_le _
  · split at h
    · cases h
    · cases h
      exact tools.get_rest size chain

/-- What is left after a pass: the octets in the chain count twice, a started frame once. -/
def Module.rank (m : Module) : ℕ :=
  2 * m.chain.flatten.length + (if m.parser.condition = .initial then 0 else 1)

@[simp] theorem matched_length (config : Configuration) (block rest : Bytes) :
    (matched config block rest).length = block.length := by
  rw [matched]
  split_ifs <;> simp

theorem frame_rank {consumed : ℕ} (h : m.frame tools p consumed blocks = .ok m') :
    m'.parser.condition = p.condition ∧
      m'.chain.flatten.length + p.offset ≤ blocks.flatten.length := by
  obtain ⟨advanced, hadvance, h⟩ := BitTorrent.fault_bind_ok.mp h
  obtain ⟨chain, hcut, h⟩ := BitTorrent.fault_bind_ok.mp h
  obtain ⟨parts, hreframe, h⟩ := BitTorrent.fault_bind_ok.mp h
  cases h
  have hlength := reframe_length hreframe
  rw [cut_flatten hcut] at hlength
  have := advance_length hadvance
  exact ⟨rfl, by dsimp only; omega⟩

theorem pass_rank (hchain : m.chain = block :: blocks)
    (h : m.pass tools config block blocks = .ok (m', true)) : m'.rank < m.rank := by
  obtain ⟨⟨p, token, rest⟩, hparse, h⟩ := BitTorrent.fault_bind_ok.mp h
  rw [parse] at hparse
  split_ifs at hparse
  cases token with
  | frame =>
    obtain ⟨n, hframe, h⟩ := BitTorrent.fault_bind_ok.mp h
    cases h
    obtain ⟨hcondition, hlength⟩ := frame_rank hframe
    obtain ⟨hinitial, -, hheader⟩ := lex_frame hparse
    have hsame : (matched config block rest :: blocks).flatten.length =
        (block :: blocks).flatten.length := by simp
    rw [Module.rank, Module.rank, hchain, hcondition, if_pos hinitial]
    rw [hsame] at hlength
    split_ifs with hstart
    · have hpos : 0 < p.offset := hheader hstart
      omega
    · omega
  | finished | invalid =>
    dsimp only at h
    split_ifs at h
    cases h

end Termination

/-- `dispatch_2` from its label `parse` on. -/
def Module.run (tools : StreamTools) (config : Configuration) (m : Module) :
    Except Fault Module :=
  match _hchain : m.chain with
  | [] => .ok m
  | block :: blocks =>
    match _hpass : m.pass tools config block blocks with
    | .error fault => .error fault
    | .ok (next, false) => .ok next
    | .ok (next, true) => next.run tools config
termination_by m.rank
decreasing_by exact pass_rank _hchain _hpass

section Run

variable {tools : StreamTools} {config : Configuration} {m m' : Module} {p : Parser}
  {block : Bytes} {blocks : List Bytes}

theorem run_nil (h : m.chain = []) : m.run tools config = .ok m := by
  rw [Module.run]
  split
  · rfl
  · rename_i hchain
    rw [h] at hchain
    cases hchain

theorem run_cons (h : m.chain = block :: blocks) :
    m.run tools config = m.pass tools config block blocks >>= fun next =>
      if next.2 then next.1.run tools config else .ok next.1 := by
  rw [Module.run]
  split
  · rename_i hchain
    rw [h] at hchain
    cases hchain
  · rename_i hchain
    obtain ⟨rfl, rfl⟩ := List.cons.inj (h.symm.trans hchain)
    split
    · rename_i hpass
      rw [hpass]
      rfl
    · rename_i hpass
      rw [hpass]
      rfl
    · rename_i hpass
      rw [hpass]
      rfl

theorem frame_passed {consumed : ℕ} (h : m.frame tools p consumed blocks = .ok m') :
    ∃ payload, m'.passed =
      m.passed ++ [⟨consumed, p.record.opcode, p.record.payloadSize, payload⟩] := by
  obtain ⟨advanced, -, h⟩ := BitTorrent.fault_bind_ok.mp h
  obtain ⟨chain, -, h⟩ := BitTorrent.fault_bind_ok.mp h
  obtain ⟨parts, -, h⟩ := BitTorrent.fault_bind_ok.mp h
  cases h
  exact ⟨_, rfl⟩

theorem pass_passed {next : Module × Bool} (h : m.pass tools config block blocks = .ok next) :
    m.passed <+: next.1.passed := by
  obtain ⟨⟨p, token, rest⟩, -, h⟩ := BitTorrent.fault_bind_ok.mp h
  cases token with
  | frame =>
    obtain ⟨n, hframe, h⟩ := BitTorrent.fault_bind_ok.mp h
    cases h
    obtain ⟨payload, hpassed⟩ := frame_passed hframe
    exact ⟨_, hpassed.symm⟩
  | finished | invalid =>
    dsimp only at h
    split_ifs at h
    cases h
    exact List.prefix_refl _

theorem run_passed (h : m.run tools config = .ok m') : m.passed <+: m'.passed := by
  fun_induction Module.run tools config m with
  | case1 m hchain =>
    cases h
    exact List.prefix_refl _
  | case2 => cases h
  | case3 m block blocks hchain next hpass =>
    cases h
    exact pass_passed hpass
  | case4 m block blocks hchain next hpass ih => exact (pass_passed hpass).trans (ih h)

end Run

/-- `dispatch_2`: the block has to leave room for the two octets that end a buffer. -/
def Module.dispatch (tools : StreamTools) (config : Configuration) (capacity : ℕ) (m : Module)
    (message : Bytes) : Except Fault Module :=
  if capacity - message.length < flexBoundarySize then .error .assertion
  else ({ m with chain := m.chain ++ [message] }).run tools config

end ACENetwork.WebSocket
