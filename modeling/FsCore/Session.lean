import FsCore.Effect
import FsCore.Layout
import FsCore.Table
import Mathlib.Data.List.Lex
import Mathlib.Data.Char
import Mathlib.Logic.Function.Basic

namespace FsCore

/-- A file that is mapped; it is empty between its creation and `ftruncate`. -/
inductive File (α : Type) where
  | missing
  | empty
  | bytes (content : α)

def File.content {α : Type} (zero : α) : File α → α
  | .bytes content => content
  | _ => zero

def File.isMissing {α : Type} : File α → Bool
  | .missing => true
  | _ => false

/-- The part of `MmapHeaderConstract` that the code reads or writes. -/
structure MmapHeader where
  writeCount : Nat
  capacity : Nat
  sourceFilePath : Text
deriving DecidableEq

def MmapHeader.zero : MmapHeader := ⟨0, 0, []⟩

/-- The objects of one segment file, by local index. -/
abbrev Segment := Nat → ParsedEntry

def Segment.zero : Segment := fun _ => ParsedEntry.zero

/-- `token.mmap.header` and the numbered files `token.mmap.000` and on. -/
structure MmapFiles where
  header : File MmapHeader
  segments : Nat → File Segment

structure IndexRow where
  timestamp : Binary64
  canId : Nat
  direction : Nat
  channel : Text
  changed : Nat
deriving DecidableEq

structure IndexTables where
  logIndex : Table Nat IndexRow
  logCanIds : Table Nat Unit
  logChannels : Table Text Unit

/-- The index database as its only writer sees it: the committed tables and the
working copy of the open transaction. -/
structure IndexDb where
  committed : IndexTables
  transaction : Option IndexTables

def IndexDb.tables (db : IndexDb) : IndexTables := db.transaction.getD db.committed

structure ViewBrowser where
  rows : List Nat
  rowCount : Nat
  fullView : Bool
deriving DecidableEq

inductive StoreError where
  | io (call : String)
  | mmap (what : String)
  | sqlite (what : String)
  | outOfRange (what : String)
  /-- The code has no defined behaviour from here on. -/
  | undefined
deriving DecidableEq

/-- A `MetaDataStorageInterface` object over the files of its token. `faults`
says of each system or SQLite call still to come whether it fails. -/
structure Session where
  files : MmapFiles
  index : IndexDb
  writeNext : Nat
  writeMapped : List Nat
  readMapped : List Nat
  lastRowByCanId : UInt32 → Option UInt32
  browser : ViewBrowser
  faults : List Bool

abbrev StoreM := Effect Session StoreError

def call (name : String) : StoreM Unit := fun s =>
  match s.faults with
  | [] => (.ok (), s)
  | false :: rest => (.ok (), { s with faults := rest })
  | true :: rest => (.error (.io name), { s with faults := rest })

def Session.header (s : Session) : MmapHeader := s.files.header.content MmapHeader.zero

def Session.setHeader (f : File MmapHeader) (s : Session) : Session :=
  { s with files := { s.files with header := f } }

def Session.setSegment (i : Nat) (f : File Segment) (s : Session) : Session :=
  { s with files := { s.files with segments := Function.update s.files.segments i f } }

end FsCore
