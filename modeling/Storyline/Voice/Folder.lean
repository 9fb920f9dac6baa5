import Storyline.Voice.Prefetch

/-!
# Voices in a folder

A folder lies somewhere and holds files by path.  A path is walked name by name
as file systems do; where the walk ends decides what reading the path gives.
-/

namespace Storyline

/-- Files by the names that lead to them; folders are where files lie. -/
structure Folder where
  /-- The path at which the folder lies, without a slash at its end. -/
  root : String
  files : List (List String × Bytes)
deriving DecidableEq, Repr

inductive FileError where
  | notFound
  | notFolder
  | isFolder
  | nameTooLong
  | nulByte
deriving DecidableEq, Repr

def FileError.message : FileError → String
  | notFound => "No such file or directory (os error 2)"
  | notFolder => "Not a directory (os error 20)"
  | isFolder => "Is a directory (os error 21)"
  | nameTooLong => "File name too long (os error 36)"
  | nulByte => "file name contained an unexpected NUL byte"

namespace Folder

/-- The parts of a path between its slashes. -/
def splitList : List Char → List (List Char)
  | [] => [[]]
  | c :: rest =>
    match splitList rest with
    | [] => [[c]]
    | part :: parts => if c = '/' then [] :: part :: parts else (c :: part) :: parts

def split (path : String) : List String := (splitList path.toList).map String.ofList

/-- A folder of the given files, each under its path. -/
def ofFiles (root : String) (files : List (String × Bytes)) : Folder :=
  ⟨root, files.map (fun f ↦ ((split f.1).filter (fun name ↦ name != "" && name != "."), f.2))⟩

def file? (f : Folder) (names : List String) : Option Bytes := f.files.lookup names

def isFolder (f : Folder) (names : List String) : Bool :=
  names.isEmpty ||
    f.files.any (fun file ↦ names.isPrefixOf file.1 && decide (names.length < file.1.length))

/-- File systems limit the bytes of a name and of a path. -/
def nameLimit : Nat := 255

def pathLimit : Nat := 4095

/-- Where a walk has come to: a place inside the folder, or a folder around it,
in which nothing else is known. -/
inductive Place where
  | inside (names : List String)
  | around
deriving DecidableEq, Repr

def Place.up : Place → Place
  | inside [] => around
  | inside names => inside names.dropLast
  | around => around

def canEnter (f : Folder) : Place → Bool
  | .inside names => f.isFolder names
  | .around => true

def into (f : Folder) (name : String) : Place → Except FileError Place
  | .inside names =>
    let next := names ++ [name]
    if (f.file? next).isSome || f.isFolder next then .ok (.inside next) else .error .notFound
  | .around => .error .notFound

/-- Walks on from a place; every step has to start in a folder. -/
def walk (f : Folder) : Place → List String → Except FileError Place
  | place, [] => .ok place
  | place, name :: rest =>
    if !f.canEnter place then .error .notFolder
    else if name == "" || name == "." then walk f place rest
    else if name == ".." then walk f place.up rest
    else if nameLimit < name.utf8ByteSize then .error .nameTooLong
    else
      match f.into name place with
      | .ok next => walk f next rest
      | .error e => .error e

/-- Paths that begin with a slash start outside. -/
def isAbsolute (path : String) : Bool := path.toList.head? == some '/'

def startOf (path : String) : Place := if isAbsolute path then .around else .inside []

/-- The path by which the file system is asked. -/
def fullPath (f : Folder) (path : String) : String :=
  if isAbsolute path then path else f.root ++ "/" ++ path

def contentAt (f : Folder) : Place → Except FileError Bytes
  | .inside names =>
    match f.file? names with
    | some content => .ok content
    | none => .error .isFolder
  | .around => .error .isFolder

def read (f : Folder) (path : String) : Except FileError Bytes :=
  if path.toList.contains (Char.ofNat 0) then .error .nulByte
  else if pathLimit < (f.fullPath path).utf8ByteSize then .error .nameTooLong
  else
    match f.walk (startOf path) (split path) with
    | .ok place => f.contentAt place
    | .error e => .error e

/-- A file as a voice; an empty file is none. -/
def voice (f : Folder) (path : String) : Except VoiceError Bytes :=
  match f.read path with
  | .error e => .error ⟨.file e.message, none⟩
  | .ok [] => .error ⟨.empty, none⟩
  | .ok content => .ok content

/-- Fetches from a folder take no time. -/
def fetcher (f : Folder) : Fetcher := fun path ↦ ⟨some 0, f.voice path⟩

end Folder

end Storyline
