import ACENetwork.BitTorrent.Common
import ACENetwork.Library.Sorting

/-!
# Chunks of a piece

`sanitizeChunks` sorts the received chunks by offset and by falling length,
removes the later ones of equal offset and crops a chunk that reaches over the
start of the next one. `std::sort` is any sort for the source's comparison.
-/
namespace ACENetwork.BitTorrent
open Library

def pieceChunksLess (lhs rhs : PieceChunk) : Bool :=
  if lhs.offset ≠ rhs.offset then lhs.offset < rhs.offset
  else lhs.data.totalLength > rhs.data.totalLength

namespace Tools

/-- The loop of step2ba and step2bb over a chain whose last block comes first:
blocks that lie inside the overlap are dropped from the end, and the read pointer
of the last remaining block is advanced over the rest of the overlap. -/
def cropContinuations (overlap : UInt32) : List (List UInt8) → Except Fault (List (List UInt8))
  | [] => .error .nullPointer
  | last :: front =>
    if UInt32.ofNat last.length > overlap then .ok (last.drop overlap.toNat :: front)
    -- `message_block_2` is null when the first block would have to go
    else if front = [] then .error .nullPointer
    else if overlap - UInt32.ofNat last.length = 0 then .ok front
    else cropContinuations (overlap - UInt32.ofNat last.length) front

def cropChain (overlap : UInt32) (b : MessageBlock) : Except Fault MessageBlock := do
  match (← cropContinuations overlap b.blocks.reverse).reverse with
  | [] => .error .nullPointer
  | first :: cont => .ok ⟨first, cont⟩

def overlap (chunk next : PieceChunk) : UInt32 :=
  let totalLength := UInt32.ofNat chunk.data.totalLength
  if chunk.offset + totalLength > next.offset then chunk.offset + totalLength - next.offset
  else 0

/-- Step2b for two neighbours of different offset. -/
def cropOverlap (chunk next : PieceChunk) : Except Fault PieceChunk :=
  if overlap chunk next = 0 then .ok chunk
  else do .ok { chunk with data := ← cropChain (overlap chunk next) chunk.data }

/-- The outer loop of step2: `chunk` and the list are the two iterators. -/
def mergeChunks (chunk : PieceChunk) : List PieceChunk → Except Fault (List PieceChunk)
  | [] => .ok [chunk]
  | next :: rest =>
    if chunk.offset = next.offset then mergeChunks chunk rest
    else do
      let cropped ← cropOverlap chunk next
      let merged ← mergeChunks next rest
      .ok (cropped :: merged)

def sanitizeChunks (sort : Sorter pieceChunksLess) (chunks : List PieceChunk) :
    Except Fault (List PieceChunk) :=
  match sort.run chunks with
  | [] => .ok []
  | chunk :: rest => mergeChunks chunk rest

def isPieceComplete (length : UInt32) (chunks : List PieceChunk) : Bool :=
  length = (chunks.map fun chunk => UInt32.ofNat chunk.data.totalLength).sum

/-- The buffer that `validatePieceHash` fills before it hashes. -/
def concatenate (chunks : List PieceChunk) : List UInt8 :=
  chunks.flatMap fun chunk => chunk.data.bytes

end Tools

/-- `push_back` of a received block and the `sanitizeChunks` that follows it. -/
def appendChunk (sort : Sorter pieceChunksLess) (chunks : List PieceChunk) (block : PieceChunk) :
    Except Fault (List PieceChunk) :=
  Tools.sanitizeChunks sort (chunks ++ [block])

theorem pieceChunksLess_eq_false {a b : PieceChunk} :
    pieceChunksLess b a = false ↔
      a.offset.toNat < b.offset.toNat ∨
        a.offset = b.offset ∧ b.data.totalLength ≤ a.data.totalLength := by
  unfold pieceChunksLess
  split
  · rename_i h
    have hne : b.offset.toNat ≠ a.offset.toNat := fun he => h (UInt32.toNat_inj.mp he)
    have hne' : a.offset ≠ b.offset := fun he => h he.symm
    simp only [decide_eq_false_iff_not, UInt32.lt_iff_toNat_lt, hne', false_and, or_false]
    omega
  · rename_i h
    have heq : b.offset = a.offset := by simpa using h
    simp [heq]

/-- The insertion sort for the source's comparison, for evaluation. -/
def insertionSorter : Sorter pieceChunksLess :=
  Sorter.insertion pieceChunksLess
    (fun a b => by
      simp only [pieceChunksLess_eq_false]
      rcases lt_trichotomy a.offset.toNat b.offset.toNat with h | h | h
      · exact .inl (.inl h)
      · have := UInt32.toNat_inj.mp h
        rcases le_total b.data.totalLength a.data.totalLength with hl | hl
        · exact .inl (.inr ⟨this, hl⟩)
        · exact .inr (.inr ⟨this.symm, hl⟩)
      · exact .inr (.inl h))
    (fun a b c hab hbc => by
      simp only [pieceChunksLess_eq_false] at *
      rcases hab with hab | ⟨hab, hlab⟩
      · rcases hbc with hbc | ⟨hbc, -⟩
        · exact .inl (hab.trans hbc)
        · exact .inl (hbc ▸ hab)
      · rcases hbc with hbc | ⟨hbc, hlbc⟩
        · exact .inl (hab ▸ hbc)
        · exact .inr ⟨hab.trans hbc, hlbc.trans hlab⟩)

end ACENetwork.BitTorrent
