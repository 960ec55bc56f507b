import PhpWeave.Load.Volume

/-!
A volume in memory: one tree of files and directories, with a directory in it that relative paths
begin at. A path is walked step by step, and every step but the last must be at a directory. Every
change happens at a moment of its own, later than all before it.
-/

namespace PhpWeave

/-- What is at a place of a disk. -/
inductive DiskEntry where
  | file (bytes : Bytes) (changed : Nat)
  | directory (changed : Nat)
  deriving DecidableEq, Repr

abbrev Place := List Text

/-- Files and directories by place, and the moment of the last change. -/
structure Disk where
  entries : List (Place × DiskEntry)
  clock : Nat
  deriving DecidableEq, Repr

namespace Disk

def workPlace : Place := ["tmp", "work"]

def beginning : Nat := 1000000001

/-- A disk with no files, and no directories but the ones on the way to the work place. -/
def empty : Disk :=
  let places := (List.range (workPlace.length + 1)).map workPlace.take
  ⟨places.map fun place => (place, .directory beginning), beginning⟩

def at? (disk : Disk) (place : Place) : Option DiskEntry := disk.entries.lookup place

def set (disk : Disk) (place : Place) (entry : DiskEntry) : Disk :=
  { disk with entries := (place, entry) :: disk.entries.filter fun other => other.1 ≠ place }

def above (place : Place) : Place := place.dropLast

/-- The steps that a path says to take: one for each piece between slashes that is not empty. -/
def stepsOf (path : Path) : List Text := (Text.splitAt '/' path).filter fun piece => !piece.isEmpty

/-- One step. Even a dot, which stays at its place, is a step only at a directory. -/
def stepFrom (disk : Disk) (place : Place) (step : Text) : Except FileError Place :=
  match disk.at? place with
  | none => .error .missing
  | some (.file _ _) => .error .notDirectory
  | some (.directory _) =>
    if step = ['.'] then .ok place
    else if step = ['.', '.'] then .ok (above place)
    else .ok (place ++ [step])

/-- The place that some steps lead to; only a name that is the last step may be missing. -/
def follow (disk : Disk) : Place → List Text → Except FileError Place
  | place, [] => .ok place
  | place, step :: rest =>
    match disk.stepFrom place step with
    | .error failure => .error failure
    | .ok next => follow disk next rest

def placeOf (disk : Disk) (path : Path) : Except FileError Place :=
  if path = [] then .error .missing
  else disk.follow (if Path.isAbsolute path then [] else workPlace) (stepsOf path)

def endsInSlash (path : Path) : Bool := path.getLast? == some '/'

def resolve (disk : Disk) (path : Path) : Except FileError (Place × DiskEntry) :=
  match disk.placeOf path with
  | .error failure => .error failure
  | .ok place =>
    match disk.at? place with
    | none => .error .missing
    | some (.file bytes changed) =>
      if endsInSlash path then .error .notDirectory else .ok (place, .file bytes changed)
    | some (.directory changed) => .ok (place, .directory changed)

def changed? (disk : Disk) (path : Path) : Option Nat :=
  match disk.resolve path with
  | .error _ => none
  | .ok (_, .file _ changed) => some changed
  | .ok (_, .directory changed) => some changed

def read (disk : Disk) (path : Path) : Except FileError Bytes :=
  match disk.resolve path with
  | .error failure => .error failure
  | .ok (_, .directory _) => .error .isDirectory
  | .ok (_, .file bytes _) => .ok bytes

def tick (disk : Disk) : Disk := { disk with clock := disk.clock + 1 }

def touchAbove (disk : Disk) (place : Place) : Disk := disk.set (above place) (.directory disk.clock)

def write (disk : Disk) (path : Path) (bytes : Bytes) : Except FileError Unit × Disk :=
  match disk.placeOf path with
  | .error failure => (.error failure, disk)
  | .ok place =>
    if endsInSlash path then (.error .isDirectory, disk)
    else
      let disk := disk.tick
      match disk.at? place with
      | some (.directory _) => (.error .isDirectory, disk)
      | some (.file _ _) => (.ok (), disk.set place (.file bytes disk.clock))
      | none => (.ok (), (disk.touchAbove place).set place (.file bytes disk.clock))

def makeDirectory (disk : Disk) (path : Path) : Except FileError Unit × Disk :=
  match disk.placeOf path with
  | .error failure => (.error failure, disk)
  | .ok place =>
    match disk.at? place with
    | some _ => (.error .alreadyThere, disk)
    | none =>
      let disk := disk.tick
      (.ok (), (disk.touchAbove place).set place (.directory disk.clock))

def isDirectory (disk : Disk) (path : Path) : Bool :=
  match disk.resolve path with
  | .ok (_, .directory _) => true
  | _ => false

def ensureDirectory (disk : Disk) (path : Path) : Except FileError Unit × Disk :=
  match disk.makeDirectory path with
  | (.ok (), made) => (.ok (), made)
  | (.error failure, same) =>
    if same.isDirectory path then (.ok (), same) else (.error failure, same)

/-- Makes a directory and those above it, for a path of at most `fuel` characters. The empty path
stands for the directory that relative paths begin at, which is always there. -/
def makeWithin : Nat → Disk → Path → Except FileError Unit × Disk
  | 0, disk, _ => (.ok (), disk)
  | fuel + 1, disk, path =>
    if path = [] then (.ok (), disk)
    else match disk.makeDirectory path with
      | (.ok (), made) => (.ok (), made)
      | (.error .missing, same) =>
        match Path.parent? path with
        | none => (.error .missing, same)
        | some parent =>
          match makeWithin fuel same parent with
          | (.error failure, partly) => (.error failure, partly)
          | (.ok (), made) => made.ensureDirectory path
      | (.error failure, same) =>
        if same.isDirectory path then (.ok (), same) else (.error failure, same)

def makeDirectories (disk : Disk) (path : Path) : Except FileError Unit × Disk :=
  makeWithin path.length disk path

def clearPlace (disk : Disk) (place : Place) : Disk :=
  { disk with
    entries := disk.entries.filter fun entry => !place.isPrefixOf entry.1 }.set
      place (.directory disk.clock)

/-- Removes one directory with nothing in it. Dots name a directory that cannot be removed by
them, and the root cannot be removed at all. -/
def removeDirectory (disk : Disk) (path : Path) : Except FileError Unit × Disk :=
  match disk.placeOf path with
  | .error failure => (.error failure, disk)
  | .ok place =>
    match (stepsOf path).getLast? with
    | none => (.error .inUse, disk)
    | some ['.'] => (.error .notAllowed, disk)
    | some ['.', '.'] => (.error .notEmpty, disk)
    | some _ =>
      (.ok (), { disk with
        entries := disk.entries.filter fun entry => entry.1 ≠ place }.touchAbove place)

/-- Removes a directory and everything in it, the directory last. When its path led through what
was in it, there is nothing left to remove at the end. -/
def removeTree (disk : Disk) (path : Path) : Except FileError Unit × Disk :=
  match disk.resolve path with
  | .error failure => (.error failure, disk)
  | .ok (_, .file _ _) => (.error .notDirectory, disk)
  | .ok (place, .directory _) =>
    match (disk.tick.clearPlace place).removeDirectory path with
    | (.error .missing, cleared) => (.ok (), cleared)
    | result => result

def removeFile (disk : Disk) (path : Path) : Except FileError Unit × Disk :=
  match disk.resolve path with
  | .error failure => (.error failure, disk)
  | .ok (_, .directory _) => (.error .isDirectory, disk)
  | .ok (place, .file _ _) =>
    let disk := disk.tick
    (.ok (), { disk with
      entries := disk.entries.filter fun entry => entry.1 ≠ place }.touchAbove place)

def setChanged (disk : Disk) (path : Path) (moment : Nat) : Except FileError Unit × Disk :=
  match disk.resolve path with
  | .error failure => (.error failure, disk)
  | .ok (_, .directory _) => (.error .isDirectory, disk)
  | .ok (place, .file bytes _) => (.ok (), disk.set place (.file bytes moment))

def relativeFile? : Place × DiskEntry → Option Path
  | (place, .file _ _) =>
    if workPlace.isPrefixOf place then
      some (Text.joinWith ['/'] (place.drop workPlace.length))
    else none
  | (_, .directory _) => none

def files (disk : Disk) : List Path :=
  (disk.entries.filterMap relativeFile?).mergeSort fun left right => !decide (right < left)

instance : Volume Disk where
  changed? := changed?
  read := read
  write := write
  makeDirectories := makeDirectories
  removeTree := removeTree

end Disk
end PhpWeave
