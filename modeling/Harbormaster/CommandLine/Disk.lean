import Harbormaster.CommandLine.Host

/-!
Disks in memory, and the host over one. A command line that is executed on such a
disk is a function from the disk before to the disk after: what it wrote and what
it said is kept there, in order.
-/

namespace Harbormaster.CommandLine

structure Disk where
  /-- The files with their contents, by path. -/
  files : List (String × String)
  /-- Directories, besides those on the way to a file. -/
  directories : List String
  /-- The files that were written, in order. -/
  written : List (String × String)
  notices : Array Notice

/-- The directory in which a path lies. -/
def parent (path : String) : String := "/".intercalate (Text.split '/' path).dropLast

namespace Disk

def file? (d : Disk) (path : String) : Option String := d.files.lookup path

/-- Whether a path leads to a directory, by itself or on the way to something. -/
def isDirectory (d : Disk) (path : String) : Bool :=
  d.directories.contains path ||
    (d.files.map (·.1) ++ d.directories).any (·.startsWith (path ++ "/"))

/-- Why a path does not lead to a file. -/
def fault (d : Disk) (path : String) : DocumentFault :=
  let steps := Text.split '/' path
  let above := (List.range steps.length).map fun n => "/".intercalate (steps.take n)
  if above.any fun p => (d.file? p).isSome then .underFile path else .missingFile path

def fetch (d : Disk) (path : String) : Except Failure String :=
  match d.file? path with
  | some text => .ok text
  | none => .error (.document (if d.isDirectory path then .directoryRead else d.fault path))

/-- Writes a file into a directory that is there. -/
def store (d : Disk) (path text : String) : Except Failure Disk :=
  if d.isDirectory path then .error (.document (.directoryWritten path))
  else if d.isDirectory (parent path) then
    .ok { d with files := (path, text) :: d.files, written := d.written ++ [(path, text)] }
  else .error (.document (d.fault path))

/-- The host over a disk. -/
def host (directory standardRules : String) : Host (StateM Disk) :=
  { say := fun notice => modify fun d => { d with notices := d.notices.push notice }
    fetch := fun path => return (← get).fetch path
    store := fun path text => do
      match (← get).store path text with
      | .ok disk =>
        set disk
        return .ok ()
      | .error failure => return .error failure
    directory
    standardRules }

end Disk

end Harbormaster.CommandLine
