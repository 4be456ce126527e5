import ACENetwork.BitTorrent.Tools.MetaInfo

/-!
# Assembling the files

The piece files are read one after the other, and what they hold is appended to the files of the
torrent. A cursor over the files advances when the current file has its length, and a piece that
has bytes left is written on from there.
-/
namespace ACENetwork.BitTorrent.Tools
open Bencoding (Value)

def infoNameKey : List Char := ['n', 'a', 'm', 'e']

def infoFilesPathKey : List Char := ['p', 'a', 't', 'h']

def directorySeparator : UInt8 := '/'.toUInt8

/-- The loop of `listToPath`, in front of the `erase`. -/
def joinPath : List Value → Option (List UInt8)
  | [] => some []
  | .string octets :: values => do some (octets ++ directorySeparator :: (← joinPath values))
  | _ :: _ => none

/-- `listToPath`; an empty list leaves no character to erase. -/
def listToPath (list : List Value) : Option (List UInt8) := do
  let path ← joinPath list
  if path = [] then none else some path.dropLast

/-- An entry of the list of files: its path and its length. -/
structure ListedFile where
  path : List UInt8
  length : Int64
  deriving DecidableEq

def listedFile : Value → Option ListedFile
  | .dictionary file =>
    match entry infoLengthKey file, entry infoFilesPathKey file with
    | some (.integer length), some (.list path) => (listToPath path).map fun path => ⟨path, length⟩
    | _, _ => none
  | _ => none

structure AssemblyResults where
  ndebug : Bool
  piecesPath : List UInt8
  /-- the names of the piece files, sorted -/
  names : List (List UInt8)
  load : List UInt8 → Option (List UInt8)
  /-- whether `store` succeeds, by the number of calls in front -/
  stored : ℕ → Bool

abbrev Stores := List (List UInt8 × List UInt8)

/-- The variables of the loop: `current_file_path_on_disk`, `current_file_length`, and the files
from `iterator_3` on. -/
structure Assembly where
  path : List UInt8
  length : ℕ
  files : List Value
  stores : Stores

def assertSome {α : Type} (ndebug : Bool) : Option α → Except Fault α
  | some a => .ok a
  | none => .error (if ndebug then .endIterator else .assertion)

section

variable (results : AssemblyResults) (single : Bool) (directory : List UInt8)

def pathOnDisk (path : List UInt8) : List UInt8 :=
  results.piecesPath ++ directorySeparator :: (directory ++ directorySeparator :: path)

/-- The label `write_file` with the bytes of a piece that are left, up to the end of the body of the
loop; `false`: `store` fails. -/
def writeFile : (files : List Value) → (path : List UInt8) → (length : ℕ) → (stores : Stores) →
    (data : List UInt8) → Except Fault (Bool × Assembly)
  | files, path, length, stores, data =>
    -- `static_cast<unsigned int>` of the smaller one
    let bytesToWrite := min data.length length % 2 ^ 32
    if !results.stored stores.length then .ok (false, ⟨path, length, files, stores⟩)
    else
      let stores := stores ++ [(path, data.take bytesToWrite)]
      let length := length - bytesToWrite
      let data := data.drop bytesToWrite
      if length ≠ 0 ∨ single then do
        aceAssert results.ndebug (data = [])
        .ok (true, ⟨path, length, files, stores⟩)
      else match files with
        -- `++iterator_3` beyond the end
        | [] => .error .endIterator
        | [_] => do
          aceAssert results.ndebug (data = [])
          .ok (true, ⟨path, length, [], stores⟩)
        | _ :: next :: files => do
          let file ← assertSome results.ndebug (listedFile next)
          let path := pathOnDisk results directory file.path
          -- `static_cast<unsigned int>` of the length
          let length := (unsignedInt file.length).toNat
          if data ≠ [] then writeFile (next :: files) path length stores data
          else .ok (true, ⟨path, length, next :: files, stores⟩)

def assemblePieces : (names : List (List UInt8)) → Assembly → Except Fault (Bool × Assembly)
  | [], assembly => .ok (true, assembly)
  | name :: names, assembly =>
    match results.load (results.piecesPath ++ directorySeparator :: name) with
    | none => .ok (false, assembly)
    | some data => do
      let (done, assembly) ← writeFile results single directory assembly.files assembly.path
        assembly.length assembly.stores data
      if done then assemblePieces names assembly else .ok (false, assembly)

end

/-- What `assembleFiles` returns, what it has stored, and the files that it deletes behind that. -/
structure Assembled where
  result : Bool
  stores : Stores
  deleted : List (List UInt8)
  deriving DecidableEq

def nameOf (info : Dictionary) : Option (List UInt8) :=
  match entry infoNameKey info with
  | some (.string name) => some name
  | _ => none

def singleLength (info : Dictionary) : Option Int64 :=
  match entry infoLengthKey info with
  | some (.integer length) => some length
  | _ => none

def firstFile : Value → Option (ListedFile × List Value)
  | .list (first :: files) => (listedFile first).map fun file => (file, first :: files)
  | _ => none

def assembleFrom (results : AssemblyResults) (single : Bool) (directory : List UInt8)
    (assembly : Assembly) : Except Fault Assembled := do
  let (done, assembly) ← assemblePieces results single directory results.names assembly
  .ok ⟨done, assembly.stores,
    if done then results.names.map fun name => results.piecesPath ++ directorySeparator :: name
    else []⟩

def assembleFiles (results : AssemblyResults) (metaInfo : Dictionary) : Except Fault Assembled := do
  let info ← assertSome results.ndebug (info metaInfo)
  let name ← assertSome results.ndebug (nameOf info)
  match entry infoFilesKey info with
  | none =>
    let length ← assertSome results.ndebug (singleLength info)
    assembleFrom results true []
      ⟨results.piecesPath ++ directorySeparator :: name, length.toUInt64.toNat, [], []⟩
  | some files =>
    let (file, files) ← assertSome results.ndebug (firstFile files)
    assembleFrom results false name
      ⟨pathOnDisk results name file.path, file.length.toUInt64.toNat, files, []⟩

end ACENetwork.BitTorrent.Tools
