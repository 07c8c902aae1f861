import ZMachine.Memory.Storage

/-!
# Files

A small file system: names lead to files, and an open file stays usable after
its name is gone.  It is what a story is opened in and copied in when it is
not held in memory.  A working copy is a scratch file, whose name goes away
when it is closed.
-/

namespace ZMachine

/-- Why a file cannot be used. -/
inductive Refusal where
  | notFound
  | permissionDenied
  | notDirectory
  | isDirectory
  | nameTooLong
  /-- There is a zero character in the name. -/
  | zeroInName
  /-- Only files can be copied. -/
  | notRegular
  | other (text : String)
  deriving DecidableEq, Repr, Inhabited

namespace Refusal

/-- The text of the operating system. -/
def text : Refusal → String
  | notFound => "No such file or directory (os error 2)"
  | permissionDenied => "Permission denied (os error 13)"
  | notDirectory => "Not a directory (os error 20)"
  | isDirectory => "Is a directory (os error 21)"
  | nameTooLong => "File name too long (os error 36)"
  | zeroInName => "file name contained an unexpected NUL byte"
  | notRegular => "the source path is neither a regular file nor a symlink to a regular file"
  | other text => text

/-- The two common reasons in plain words, the others as they are. -/
def plain : Refusal → String
  | notFound => "file not found"
  | permissionDenied => "permission denied"
  | r => r.text

/-- The reason why a file that cannot be read cannot be copied. -/
def ofCopy : Refusal → Refusal
  | isDirectory => notRegular
  | r => r

end Refusal

/-- The contents of a file as the pieces written to it, the latest first.
Bytes between the pieces are zero. -/
structure Contents where
  size : Nat := 0
  pieces : List (Nat × Array UInt8) := []
  deriving DecidableEq, Repr

namespace Contents

def ofBytes (bytes : Array UInt8) : Contents where
  size := bytes.size
  pieces := [(0, bytes)]

/-- A byte is that of the latest piece which covers its place. -/
def byteIn (place : Nat) : List (Nat × Array UInt8) → UInt8
  | [] => 0
  | (start, data) :: rest =>
    if start ≤ place ∧ place < start + data.size then data.getD (place - start) 0
    else byteIn place rest

/-- The bytes from an offset on, at most `length` of them. -/
def read (c : Contents) (offset length : Nat) : Array UInt8 :=
  Array.ofFn fun i : Fin (min length (c.size - offset)) => byteIn (offset + i) c.pieces

/-- Writing nothing does not extend a file. -/
def write (c : Contents) (offset : Nat) (data : Array UInt8) : Contents :=
  if data.isEmpty then c
  else { size := max c.size (offset + data.size), pieces := (offset, data) :: c.pieces }

def bytes (c : Contents) : Array UInt8 := c.read 0 c.size

end Contents

/-- Files with their names, which are paths from the working directory.  A
directory is there if a file is in it.  A file is known by its number. -/
structure FileSystem where
  names : List (List String × Nat) := []
  files : Array Contents := #[]
  deriving DecidableEq, Repr

/-- What a path leads to. -/
inductive Place where
  | file (number : Nat)
  | directory
  /-- Nothing yet, in a directory that is there; `slash` if the path asks for
  a directory. -/
  | vacant (path : List String) (slash : Bool)
  deriving DecidableEq, Repr

namespace FileSystem

def contents (fs : FileSystem) (number : Nat) : Contents := fs.files.getD number {}

def setContents (fs : FileSystem) (number : Nat) (c : Contents) : FileSystem :=
  { fs with files := fs.files.setIfInBounds number c }

/-- Add a file with a name. -/
def add (path : List String) (c : Contents) (fs : FileSystem) : Nat × FileSystem :=
  (fs.files.size, { names := (path, fs.files.size) :: fs.names, files := fs.files.push c })

def ofFiles (files : List (String × Array UInt8)) : FileSystem :=
  files.foldl (fun fs (name, bytes) => (fs.add (name.splitOn "/") (.ofBytes bytes)).2) {}

def isDirectory (fs : FileSystem) (path : List String) : Bool :=
  path.isEmpty ∨ fs.names.any fun (name, _) => path.isPrefixOf name ∧ path ≠ name

/-- Follow the parts of a path from a directory, which is `none` outside the
working directory, where nothing is known. -/
def follow (fs : FileSystem) :
    (directory : Option (List String)) → List String → Except Refusal Place
  | _, [] => return .directory
  | directory, part :: rest =>
    if part = "" ∨ part = "." then follow fs directory rest
    else if 255 < part.utf8ByteSize then throw .nameTooLong
    else
      match directory with
      | none => if part = ".." then follow fs none rest else throw .notFound
      | some path =>
        if part = ".." then
          follow fs (if path.isEmpty then none else some path.dropLast) rest
        else
          match fs.names.lookup (path ++ [part]) with
          | some number => if rest.isEmpty then return .file number else throw .notDirectory
          | none =>
            if fs.isDirectory (path ++ [part]) then follow fs (some (path ++ [part])) rest
            else if rest.all (· = "") then return .vacant (path ++ [part]) (¬ rest.isEmpty)
            else throw .notFound

def find (fs : FileSystem) (path : String) : Except Refusal Place :=
  if path = "" then throw .notFound
  else if path.any (· = '\x00') then throw .zeroInName
  else if 4096 ≤ path.utf8ByteSize then throw .nameTooLong
  else fs.follow (if path.startsWith "/" then none else some []) (path.splitOn "/")

/-- The number of a file that is there. -/
def fileAt (fs : FileSystem) (path : String) : Except Refusal Nat := do
  match ← fs.find path with
  | .file number => return number
  | .directory => throw .isDirectory
  | .vacant _ _ => throw .notFound

def isPresent (fs : FileSystem) (path : String) : Bool :=
  match fs.find path with
  | .ok (.file _) => true
  | .ok .directory => true
  | _ => false

/-- All bytes of a file. -/
def read (fs : FileSystem) (path : String) : Except Refusal (Array UInt8) := do
  return (fs.contents (← fs.fileAt path)).bytes

/-- Make a file, or empty the one that is there. -/
def create (fs : FileSystem) (path : String) : Except Refusal (Nat × FileSystem) := do
  match ← fs.find path with
  | .file number => return (number, fs.setContents number {})
  | .directory => throw .isDirectory
  | .vacant name slash => if slash then throw .isDirectory else return fs.add name {}

/-- Copy a file.  The target is emptied before anything is read, so a file
that is copied to itself is lost. -/
def copy (fs : FileSystem) (source target : String) : Except Refusal FileSystem := do
  let number ← (fs.fileAt source).mapError Refusal.ofCopy
  let (copied, fs) ← fs.create target
  return fs.setContents copied (fs.contents number)

/-- Take a file's name away; nothing happens if there is none. -/
def remove (path : String) (fs : FileSystem) : FileSystem :=
  match fs.find path with
  | .ok (.file number) => { fs with names := fs.names.eraseP fun (_, n) => n = number }
  | _ => fs

end FileSystem

/-- A file opened for reading and writing. -/
structure OpenFile where
  path : String
  number : Nat
  /-- The file is a working copy, which goes away when it is closed. -/
  scratch : Bool := false
  deriving DecidableEq, Repr

namespace OpenFile

/-- Open a file that is there. -/
def ofPath (path : String) (fs : FileSystem) : Except Fault OpenFile :=
  match fs.fileAt path with
  | .ok number => return { path, number }
  | .error r => throw (.storyOpen path r.plain)

/-- Copy a story and open the copy, so that nothing is written to the story.
Whatever fails about the copy is reported for the story. -/
def workingCopy (story scratch : String) (fs : FileSystem) :
    Except Fault (OpenFile × FileSystem) :=
  match fs.copy story scratch with
  | .error r => throw (.storyOpen story r.plain)
  | .ok fs => do
    let file ← ofPath scratch fs
    return ({ file with scratch := true }, fs)

/-- Close a file. -/
def close (file : OpenFile) (fs : FileSystem) : FileSystem :=
  if file.scratch then fs.remove file.path else fs

end OpenFile

/-- An open file in its file system, as a storage. -/
structure FileStorage where
  file : OpenFile
  system : FileSystem

namespace FileStorage

def contents (s : FileStorage) : Contents := s.system.contents s.file.number

instance : Storage FileStorage where
  size := do
    let n := (← get).contents.size
    if 0x100000000 ≤ n then throw (.storage s!"story too large: {n} bytes")
    return n
  readAt offset length := return (← get).contents.read offset length
  writeAt offset data :=
    modify fun s =>
      { s with system := s.system.setContents s.file.number (s.contents.write offset data) }

end FileStorage
end ZMachine
