import ACENetwork.BitTorrent.Session.Accounting
import ACENetwork.BitTorrent.Session.Bounds
import ACENetwork.BitTorrent.Tools.MissingBlocks

/-!
# The choice of a piece

A session asks a peer for a random block of a random piece that it misses and the peer has. What
`hasMissingPiece` finds is among the pieces to choose from, and every one of these misses a byte,
so there is a block to choose.
-/
namespace ACENetwork.BitTorrent
open Library

theorem pieceComplete_of_covered {piece : Piece}
    (h : Contained piece.length.toNat piece.chunks)
    (hall : ∀ p < piece.length.toNat, Segment.Covers (piece.chunks.map PieceChunk.segment) p) :
    Tools.isPieceComplete piece.length piece.chunks = true := by
  have htotal := Segment.card_covered h.ordered (n := piece.length.toNat) (by simpa using h.stop_le)
  rw [Finset.filter_true_of_mem fun p hp => hall p (Finset.mem_range.mp hp),
    Finset.card_range] at htotal
  rw [Tools.isPieceComplete_eq, ← htotal]
  simp

theorem exists_missing_byte {piece : Piece} (h : Contained piece.length.toNat piece.chunks)
    (hmissing : Tools.isMissing piece = true) :
    ∃ p < piece.length.toNat, ¬ Segment.Covers (piece.chunks.map PieceChunk.segment) p := by
  by_contra hall
  push Not at hall
  simp [Tools.isMissing, pieceComplete_of_covered h hall] at hmissing

namespace Tools

/-- What is asked for of a missing piece: there is a block, and every block lies in the piece. -/
theorem getMissingChunks_missing (ndebug : Bool) {piece : Piece}
    (h : Contained piece.length.toNat piece.chunks) (hmissing : isMissing piece = true) :
    ∃ blocks, getMissingChunks ndebug piece.length piece.chunks = .ok blocks ∧ blocks ≠ [] ∧
      ∀ b ∈ blocks, 0 < b.length ∧ b.begin.toNat + b.length.toNat ≤ piece.length.toNat := by
  have hzero : 0 ≤ piece.length := UInt32.le_iff_toNat_le.mpr (by simp)
  obtain ⟨blocks, hblocks, hwalk⟩ :=
    getMissingChunksFrom_walk ndebug h.ordered h.stop_le (by simp) hzero
  obtain ⟨p, hp, hcovers⟩ := exists_missing_byte h hmissing
  refine ⟨blocks, hblocks, ?_, fun b hb => ?_⟩
  · rintro rfl
    exact requested_nil (hwalk.missing p (Nat.zero_le p) hp hcovers)
  · exact ⟨(hwalk.within.sized b hb).1, hwalk.within.le_high b hb⟩

end Tools

namespace Session
open Tools

variable {cfg : Configuration} {env : Environment}

/-- A bitfield that has a byte for every piece is read for every index. -/
theorem doesntHave_eq {ndebug : Bool} {bitfield : List UInt8} {n : ℕ} {indexes : List ℕ}
    (hlength : bitfield.length = bitfieldLength n) (hindexes : ∀ i ∈ indexes, i < n) :
    doesntHave ndebug bitfield indexes =
      .ok (indexes.filter fun i => !hasBit (UInt32.ofNat i) bitfield) := by
  induction indexes with
  | nil => rfl
  | cons index indexes ih =>
    obtain ⟨hindex, hindexes⟩ := List.forall_mem_cons.mp hindexes
    have hbyte : (UInt32.ofNat index).toNat / 8 < bitfield.length := by
      rw [hlength]
      exact word_div_lt_bitfieldLength hindex
    rw [doesntHave, havePiece_eq hbyte, ih hindexes]
    cases hbit : hasBit (UInt32.ofNat index) bitfield <;> simp [hbit, bind, Except.bind]

def candidates (pieces : List Piece) (bitfield : List UInt8) : List ℕ :=
  (getPieceIndexes pieces true).filter fun i => hasBit (UInt32.ofNat i) bitfield

theorem mem_candidates {pieces : List Piece} {bitfield : List UInt8} {i : ℕ} :
    i ∈ candidates pieces bitfield ↔ (∃ piece, pieces[i]? = some piece ∧ isMissing piece = true) ∧
      hasBit (UInt32.ofNat i) bitfield = true := by
  rw [candidates, List.mem_filter, mem_getPieceIndexes]

theorem filter_doesntHave {pieces : List Piece} {bitfield : List UInt8} :
    (getPieceIndexes pieces true).filter (· ∉ (List.range pieces.length).filter fun i =>
      !hasBit (UInt32.ofNat i) bitfield) = candidates pieces bitfield := by
  apply List.filter_congr
  intro i hi
  obtain ⟨piece, hpiece, -⟩ := mem_getPieceIndexes.mp hi
  have hlt := (List.getElem?_eq_some_iff.mp hpiece).1
  simp [hlt]

/-- A block that may be requested: of a piece that the peer has and that is missing here. -/
structure Requestable (pieces : List Piece) (bitfield : List UInt8) (i : ℕ) (block : Block) :
    Prop where
  missing : ∃ piece, pieces[i]? = some piece ∧ isMissing piece = true ∧
    block.begin.toNat + block.length.toNat ≤ piece.length.toNat
  has : hasBit (UInt32.ofNat i) bitfield = true
  pos : 0 < block.length

variable (cfg env) in
theorem randomBlock_ok {pieces : List Piece} {bitfield : List UInt8}
    (hlength : bitfield.length = bitfieldLength pieces.length)
    (hcontained : ∀ piece ∈ pieces, Contained piece.length.toNat piece.chunks)
    (hcandidates : candidates pieces bitfield ≠ []) :
    ∃ i block, randomBlock cfg env pieces bitfield = .ok (UInt32.ofNat i, block) ∧
      Requestable pieces bitfield i block := by
  have hwithout : doesntHave cfg.ndebug bitfield (List.range pieces.length) = .ok _ :=
    doesntHave_eq hlength fun i hi => List.mem_range.mp hi
  have hlt := Nat.mod_lt env.randomPiece (List.length_pos_iff.mpr hcandidates)
  obtain ⟨⟨piece, hpiece, hmissing⟩, hbit⟩ := mem_candidates.1 (List.getElem_mem hlt)
  generalize hi : (candidates pieces bitfield)[env.randomPiece %
    (candidates pieces bitfield).length] = i at hpiece hbit
  obtain ⟨blocks, hblocks, hsome, hinside⟩ := getMissingChunks_missing cfg.ndebug
    (hcontained piece (List.mem_of_getElem? hpiece)) hmissing
  have hblock := Nat.mod_lt env.randomChunk (List.length_pos_iff.mpr hsome)
  have hne : pieces ≠ [] := List.ne_nil_of_mem (List.mem_of_getElem? hpiece)
  obtain ⟨hpos, hle⟩ := hinside _ (List.getElem_mem hblock)
  refine ⟨i, _, ?_, ⟨piece, hpiece, hmissing, hle⟩, hbit, hpos⟩
  simp only [randomBlock, hwithout, bind, Except.bind]
  rw [filter_doesntHave, List.getElem?_eq_getElem hlt, hi]
  simp only [hne, hcandidates, ne_eq, not_false_eq_true, decide_true, aceAssert_true, hpiece,
    hblocks, hsome]
  rw [List.getElem?_eq_getElem hblock]

theorem hasMissingPiece_eq (ndebug : Bool) {pieces : List Piece} {bitfield : List UInt8}
    (hlength : bitfield.length = bitfieldLength pieces.length) :
    hasMissingPiece ndebug pieces bitfield = .ok (candidates pieces bitfield ≠ []) := by
  cases h : hasMissingPiece ndebug pieces bitfield with
  | error e => exact absurd h (hasMissingPieceFrom_error (by simpa using hlength))
  | ok b =>
    have hfound := hasMissingPieceFrom_ok h
    simp only [Nat.zero_add] at hfound
    congr 1
    rw [Bool.eq_iff_iff, hfound, decide_eq_true_iff]
    constructor
    · rintro ⟨i, piece, hpiece, hmissing, hbit⟩
      exact List.ne_nil_of_mem (mem_candidates.2 ⟨⟨piece, hpiece, hmissing⟩, hbit⟩)
    · intro hne
      obtain ⟨i, hi⟩ := List.exists_mem_of_ne_nil _ hne
      obtain ⟨⟨piece, hpiece, hmissing⟩, hbit⟩ := mem_candidates.1 hi
      exact ⟨i, piece, hpiece, hmissing, hbit⟩

theorem run_atomically {α β : Type} {l : Label} {body : Scope β} {next : β → Handler α}
    {s t u : SessionState} {b : β} {a : α} {out rest : List Effect}
    (hbody : body s = .ok (b, t, out)) (hnext : (next b).run t = .ok (a, u, rest)) :
    (Process.atomically l body >>= next : Handler α).run s = .ok (a, u, out ++ rest) := by
  change (Process.scope l body fun b => next b : Handler α).run s = _
  simp [Process.run, hbody, hnext]

theorem run_emit {α : Type} {l : Label} {effects : List Effect} {a : α} {s : SessionState} :
    (emit l effects >>= fun _ => pure a : Handler α).run s = .ok (a, s, effects) := by
  rw [emit, run_atomically (s := s) rfl rfl, List.append_nil]

theorem run_request {id : ConnectionId} {index begin length : UInt32} {s : SessionState}
    (hpos : 0 < length) :
    (request cfg env id index begin length >>= fun _ => pure true : Handler Bool).run s =
      .ok (true, s, transmit env id (.request index begin length)) := by
  have hne : length ≠ 0 := UInt32.pos_iff_ne_zero.mp hpos
  have hbody : (do
      aceAssert cfg.ndebug (length ≠ 0)
      .ok ((), s, transmit env id (.request index begin length)) :
        Except Fault (Unit × SessionState × List Effect)) =
      .ok ((), s, transmit env id (.request index begin length)) := by
    simp [hne, bind, Except.bind]
  rw [request, run_atomically hbody rfl, List.append_nil]

/-- The lists that `requestNextPiece` chooses from are not empty, whichever piece is chosen. -/
def Choosable (ndebug : Bool) (pieces : List Piece) (bitfield : List UInt8) : Prop :=
  ∃ without, doesntHave ndebug bitfield (List.range pieces.length) = .ok without ∧
    (getPieceIndexes pieces true).filter (· ∉ without) ≠ [] ∧
    ∀ i ∈ (getPieceIndexes pieces true).filter (· ∉ without), ∃ piece blocks,
      pieces[i]? = some piece ∧
        getMissingChunks ndebug piece.length piece.chunks = .ok blocks ∧ blocks ≠ []

theorem choosable {ndebug : Bool} {pieces : List Piece} {bitfield : List UInt8}
    (hlength : bitfield.length = bitfieldLength pieces.length)
    (hcontained : ∀ piece ∈ pieces, Contained piece.length.toNat piece.chunks)
    (hcandidates : candidates pieces bitfield ≠ []) : Choosable ndebug pieces bitfield := by
  refine ⟨_, doesntHave_eq hlength fun i hi => List.mem_range.mp hi, ?_⟩
  rw [filter_doesntHave]
  refine ⟨hcandidates, fun i hi => ?_⟩
  obtain ⟨⟨piece, hpiece, hmissing⟩, -⟩ := mem_candidates.1 hi
  obtain ⟨blocks, hblocks, hne, -⟩ := getMissingChunks_missing ndebug
    (hcontained piece (List.mem_of_getElem? hpiece)) hmissing
  exact ⟨piece, blocks, hpiece, hblocks, hne⟩

/-- No assertion of `requestNextPiece` fails. Either nothing is missing that the peer has, and the
interest ends; or a block is requested of a missing piece that the peer has. -/
theorem requestNextPiece_sound {s : SessionState} {peer : PeerState} {id : ConnectionId}
    (hpeer : s.peerState (connectionIdToPeerAddress cfg id) = some peer)
    (hlength : peer.pieces.length = bitfieldLength s.pieces.length)
    (hcontained : ∀ piece ∈ s.pieces, Contained piece.length.toNat piece.chunks) :
    hasMissingPiece cfg.ndebug s.pieces peer.pieces = .ok false ∧
      (requestNextPiece cfg env id).run s = .ok (false,
        s.setPeer (connectionIdToPeerAddress cfg id) { peer with status.amInterested := false },
        transmit env id .notInterested) ∨
    hasMissingPiece cfg.ndebug s.pieces peer.pieces = .ok true ∧
      Choosable cfg.ndebug s.pieces peer.pieces ∧
      ∃ i block, Requestable s.pieces peer.pieces i block ∧
        (requestNextPiece cfg env id).run s = .ok (true,
          s.setPeer (connectionIdToPeerAddress cfg id) peer,
          transmit env id (.request (UInt32.ofNat i) block.begin block.length)) := by
  have hmissing := hasMissingPiece_eq cfg.ndebug hlength
  by_cases hcandidates : candidates s.pieces peer.pieces = []
  · left
    simp only [hcandidates, ne_eq, not_true_eq_false, decide_false] at hmissing
    refine ⟨hmissing, ?_⟩
    have hchoose : withPeer cfg (connectionIdToPeerAddress cfg id) (choosePiece cfg env) s =
        .ok (none, s.setPeer (connectionIdToPeerAddress cfg id)
          { peer with status.amInterested := false }, []) :=
      withPeer_ok.mpr ⟨peer, _, hpeer, by simp [choosePiece, hmissing, bind, Except.bind], rfl, rfl⟩
    exact run_atomically hchoose run_emit
  · right
    simp only [hcandidates, ne_eq, not_false_eq_true, decide_true] at hmissing
    obtain ⟨i, block, hblock, hrequestable⟩ :=
      randomBlock_ok cfg env hlength hcontained hcandidates
    refine ⟨hmissing, choosable hlength hcontained hcandidates, i, block, hrequestable, ?_⟩
    have hchoose : withPeer cfg (connectionIdToPeerAddress cfg id) (choosePiece cfg env) s =
        .ok (some (UInt32.ofNat i, block), s.setPeer (connectionIdToPeerAddress cfg id) peer, []) :=
      withPeer_ok.mpr ⟨peer, _, hpeer,
        by simp [choosePiece, hmissing, hblock, bind, Except.bind], rfl, rfl⟩
    exact run_atomically hchoose (run_request hrequestable.pos)

/-- The sample torrent with one peer, which has its piece. -/
def sampleLacking : SessionState :=
  sampleSession [samplePiece false] [(0x0A000001, { connections := [1], pieces := [0x80] })]

/-- The whole piece is requested. -/
theorem requestNextPiece_sound_sample :
    (∃ i block, Requestable sampleLacking.pieces [0x80] i block ∧
      ((requestNextPiece (sampleConfiguration false) sampleEnvironment 1).run sampleLacking).map
        (fun r => r.2.2) = .ok (transmit sampleEnvironment 1
          (.request (UInt32.ofNat i) block.begin block.length))) := by
  rcases @requestNextPiece_sound (sampleConfiguration false) sampleEnvironment sampleLacking
    { connections := [1], pieces := [0x80] } 1 rfl rfl
    (List.forall_mem_singleton.mpr ⟨List.Pairwise.nil, by simp [samplePiece]⟩) with
    ⟨hnone, -⟩ | ⟨-, -, i, block, hblock, hrun⟩
  · exact absurd hnone (by decide)
  · exact ⟨i, block, hblock, by rw [hrun]; rfl⟩

end Session
end ACENetwork.BitTorrent
