import ACENetwork.BitTorrent.Common
import ACENetwork.Library.Lines
import ACENetwork.Library.Runs

/-!
# The bisector

`IRC_Module_Bisector_T` cuts the stream of message blocks into frames. A scanner counts the
octets up to the next frame boundary; the module adds up the counts and cuts the chain of
blocks there.
-/
namespace ACENetwork.IRC.Bisector
open BitTorrent (Fault fault_bind_ok)
open Library

inductive Condition where
  | initial
  | endOfFrame
  deriving DecidableEq, Repr

/-- The scanner: the octets that `yymore` keeps in front of the next match, and the octets that
are left. -/
structure Scanner where
  condition : Condition
  more : ℕ := 0
  rest : Bytes
  deriving DecidableEq, Repr

/-- What the scanner returns: the length of a match, -1 for a frame boundary, 0 at the end. -/
inductive Chunk where
  | octets (length : ℕ)
  | boundary
  | finished
  deriving DecidableEq, Repr

def lexEndOfFrame (more : ℕ) : Bytes → Chunk × Scanner
  | [] => (.finished, ⟨.endOfFrame, 0, []⟩)
  | c :: rest =>
    if c = lineFeed then (.boundary, ⟨.initial, 0, rest⟩)
    else (.octets (more + 1), ⟨.initial, more + 1, rest⟩)

/-- `IRC_Bisector_lex`. A carriage return returns nothing: the scanner goes on. -/
def lex (s : Scanner) : Chunk × Scanner :=
  match s.condition, s.rest with
  | .endOfFrame, rest => lexEndOfFrame s.more rest
  | .initial, [] => (.finished, ⟨.initial, 0, []⟩)
  | .initial, c :: rest =>
    if c = carriageReturn then lexEndOfFrame 0 rest
    else if c = lineFeed then (.octets (s.more + 1), ⟨.initial, s.more + 1, rest⟩)
    else
      (.octets (s.more + ((c :: rest).takeWhile isPlain).length),
        ⟨.initial, 0, (c :: rest).dropWhile isPlain⟩)

theorem lexEndOfFrame_rest {more : ℕ} {rest : Bytes}
    (h : (lexEndOfFrame more rest).1 ≠ .finished) :
    (lexEndOfFrame more rest).2.rest.length < rest.length := by
  cases rest with
  | nil => exact absurd rfl h
  | cons c rest =>
    rw [lexEndOfFrame]
    split_ifs <;> simp

theorem lex_rest {s : Scanner} (h : (lex s).1 ≠ .finished) :
    (lex s).2.rest.length < s.rest.length := by
  obtain ⟨condition, more, rest⟩ := s
  cases condition with
  | endOfFrame => exact lexEndOfFrame_rest h
  | initial =>
    cases rest with
    | nil => exact absurd rfl h
    | cons c rest =>
      simp only [lex] at h ⊢
      split_ifs at h ⊢ with hreturn hfeed
      · exact (lexEndOfFrame_rest h).trans (by simp)
      · simp
      · have hplain : isPlain c = true := by simp [isPlain, hreturn, hfeed]
        have hle := List.length_dropWhile_le isPlain rest
        simp only [List.dropWhile_cons_of_pos hplain, List.length_cons]
        omega

/-- The members of the module, with the chains that it has passed on. The chain that
`buffer_` starts has no block where it is `NULL`. -/
structure Module where
  condition : Condition := .initial
  buffer : List Bytes := []
  messageLength : UInt32 := 0
  passed : List (List Bytes) := []
  deriving DecidableEq

/-- The loop over the current block, the last one of the chain. -/
structure Scan where
  scanner : Scanner
  before : List Bytes
  block : Bytes
  scanned : ℕ
  messageLength : UInt32
  passed : List (List Bytes)

/-- An addition to `scanned_bytes`, which is an `int`. -/
def addScanned (scanned chunk : ℕ) : Except Fault ℕ :=
  if scanned + chunk < 2 ^ 31 then .ok (scanned + chunk) else .error .signedOverflow

/-- `scanned_bytes` and `messageLength_` at a frame boundary. -/
def Scan.boundary (l : Scan) : Except Fault (ℕ × UInt32) :=
  -- the block starts with the line feed of a pending carriage return
  if l.scanned = 0 ∧ l.block.head? = some lineFeed then .ok (1, l.messageLength + 2)
  else do
    let scanned ← addScanned l.scanned 2
    .ok (scanned, l.messageLength + UInt32.ofNat scanned)

/-- The loop of `handleDataMessage`. -/
def scan (l : Scan) : Except Fault Module :=
  match _h : lex l.scanner with
  | (.finished, s) =>
    .ok ⟨s.condition, l.before ++ [l.block], l.messageLength + UInt32.ofNat l.scanned, l.passed⟩
  | (.octets n, s) => do
    let scanned ← addScanned l.scanned n
    scan { l with scanner := s, scanned := scanned }
  | (.boundary, s) => do
    let count ← l.boundary
    let total := l.before.flatten.length + l.block.length
    if count.2.toNat < total then
      if count.2.toNat ≠ l.before.flatten.length + count.1 then .error .assertion
      else
        scan ⟨s, [], l.block.drop count.1, 0, 0, l.passed ++ [l.before ++ [l.block.take count.1]]⟩
    else if count.2.toNat ≠ total then .error .assertion
    else .ok ⟨s.condition, [], 0, l.passed ++ [l.before ++ [l.block]]⟩
termination_by l.scanner.rest.length
decreasing_by
  all_goals
    have hrest := lex_rest (s := l.scanner) (by simp [_h])
    simpa [_h] using hrest

/-- `handleDataMessage`: less than a frame boundary is not scanned. The scanner takes the length
of the block as an `int`. -/
def handleDataMessage (m : Module) (block : Bytes) : Except Fault Module :=
  if (m.buffer ++ [block]).flatten.length < 2 then .ok { m with buffer := m.buffer ++ [block] }
  else
    let length := block.length % 2 ^ 32
    if 2 ^ 31 ≤ length + 2 then .error .signedOverflow
    else scan ⟨⟨m.condition, 0, block.take length⟩, m.buffer, block, 0, m.messageLength, m.passed⟩

end ACENetwork.IRC.Bisector
