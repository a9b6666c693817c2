import Mathlib.Data.UInt
import Parachuter.Lib.Blob
/-!
# Names shared by every module: file ids, the files of the holding directory, errors, paths

The ground keeps three files per assembly in one *holding directory*: the data, the sidecar and the sidecar's temporary
twin.  `HoldingFile` names them by id and kind, as `<id>.incoming`, `<id>.parmanifest` and `<id>.parmanifest.tmp` do.
-/
namespace Parachuter

abbrev FileId := Int64

/-- A string, by its characters. -/
abbrev Text := List Char

inductive HoldingFile
  | incoming (id : FileId)
  | manifest (id : FileId)
  | manifestTmp (id : FileId)
  deriving DecidableEq, Repr

/-- Paths an error may carry: a file of the holding directory, or a path as text. -/
inductive PathBuf
  | held (f : HoldingFile)
  | text (name : List Char)
  deriving DecidableEq, Repr

/-- Kinds of `std::io::Error` the code tells apart. -/
inductive IoError
  | notFound
  | other
  deriving DecidableEq, Repr

/-- `error.rs`, less the variants of the JSON and TOML parsers. -/
inductive Error
  | io (e : IoError)
  | sqlite
  | toml
  | notFound (path : PathBuf)
  | badPacket (reason : String)
  | badManifest (reason : String)
  | badChunkSize (size : Nat)
  | badConfig (reason : String)
  | outOfRange (index total : UInt32)
  deriving DecidableEq, Repr

/-! ## Where a file lands -/

/-- An absolute path, by its components. -/
abbrev Path := List (List Char)

/-- `Path::components` of a payload path, less the root: separators and `.` are skipped. -/
def components (name : List Char) : Path := (name.splitOn '/').filter (fun c => c ≠ [] ∧ c ≠ ['.'])

/-- The `Normal` ones: `..` is left out too. -/
def normalComponents (name : List Char) : Path := (components name).filter (· ≠ ['.', '.'])

/-- `ground_path`: the normal components under the final directory. -/
def groundPath (finalDir : Path) (payloadPath : List Char) : Path := finalDir ++ normalComponents payloadPath

end Parachuter
