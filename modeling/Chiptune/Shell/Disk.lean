import Chiptune.File.Fault
import Chiptune.Shell.Path

/-!
# Disks

A disk as a program meets it: what stands at each location, and the folder that paths begin in. A path
is walked step by step, and each step has to begin in a folder. Reading goes to the end of the
path; storing makes a file there, or empties the one that is there first.

* `node?_store_of_ne`: storing a file leaves all other locations alone.
* `read_store`: a stored file is read back from the place that was opened for it.
-/

namespace Chiptune

/-- The names that lead from the root to a place, the last name first. -/
abbrev Location := List String

/-- A file, or a device that is used like one. -/
structure Entry where
  content : Bytes
  /-- Why it cannot be read. -/
  reading : Option DiskFault := none
  /-- Why it cannot be opened for writing. -/
  opening : Option DiskFault := none
  /-- Why nothing can be written once it is open. -/
  writing : Option DiskFault := none
  /-- Whether what is written stays. -/
  keeps : Bool := true
  deriving DecidableEq, Repr, Inhabited

namespace Entry

/-- A file without restrictions. -/
def file (content : Bytes) : Entry where
  content

/-- A device that takes everything and gives nothing. -/
def nullDevice : Entry where
  content := []
  keeps := false

/-- A device that has no space left. -/
def fullDevice : Entry where
  content := []
  writing := some .noSpace
  keeps := false

/-- The entry after some content was written to it. -/
def holding (e : Entry) (content : Bytes) : Entry :=
  if e.keeps then { e with content } else e

/-- Why some content cannot be written; nothing can always be written. -/
def refusal? (e : Entry) (content : Bytes) : Option DiskFault :=
  if content = [] then none else e.writing

def read (e : Entry) : Except DiskFault Bytes :=
  match e.reading with
  | some fault => .error fault
  | none => .ok e.content

end Entry

/-- What stands at a location. -/
inductive Node where
  /-- A folder, and why no file can be made in it. -/
  | folder (lock : Option DiskFault)
  | entry (e : Entry)
  deriving DecidableEq, Repr, Inhabited

/-- What stands at every location, and where paths begin. -/
structure Disk where
  /-- What stands at a location, if anything does. -/
  node? : Location → Option Node
  /-- The folder that paths begin in. -/
  home : Location

/-- Why a file was not stored. -/
inductive StoreFault where
  | create (fault : DiskFault)
  /-- It was created, but not written. -/
  | write (fault : DiskFault)
  deriving DecidableEq, Repr, Inhabited

def StoreFault.cause : StoreFault → DiskFault
  | .create fault => fault
  | .write fault => fault

namespace Disk

/-- The location that a step from another leads to. Only a folder can be left or entered. -/
def step (d : Disk) (l : Location) (s : Path.Step) : Except DiskFault Location :=
  match d.node? l with
  | none => .error .noSuchFile
  | some (.entry _) => .error .notDirectory
  | some (.folder _) => match s with
    | .stay => .ok l
    -- the root is its own surrounding folder
    | .up => .ok l.tail
    | .down name =>
      if name.utf8ByteSize ≤ Path.longestName then .ok (name :: l) else .error .nameTooLong

def walk (d : Disk) (l : Location) (steps : List Path.Step) : Except DiskFault Location :=
  steps.foldlM d.step l

/-- Where a path begins, unless it is no path at all. -/
def origin (d : Disk) (path : String) : Except DiskFault Location :=
  if path.toList.contains '\x00' then .error .zeroInName
  else if path = "" then .error .noSuchFile
  else if Path.longest < path.utf8ByteSize then .error .nameTooLong
  else .ok (if Path.isAbsolute path then [] else d.home)

def locate (d : Disk) (path : String) : Except DiskFault Location :=
  (d.origin path).bind fun l =>
    d.walk l (Path.steps path ++ if Path.endsInSlash path then [.stay] else [])

/-- The location of a file that is to be created. A slash after its name asks for a folder, whatever
stands there. -/
def target (d : Disk) (path : String) : Except DiskFault Location :=
  match (Path.steps path).getLast? with
  | some (.down _) =>
    if Path.endsInSlash path then
      (d.origin path).bind fun l =>
        (d.walk l ((Path.steps path).dropLast ++ [.stay])).bind fun _ => .error .isDirectory
    else d.locate path
  | _ => d.locate path

def read (d : Disk) (path : String) : Except DiskFault Bytes :=
  (d.locate path).bind fun l =>
    match d.node? l with
    | none => .error .noSuchFile
    | some (.folder _) => .error .isDirectory
    | some (.entry e) => e.read

/-- The disk with an entry at a location. -/
def set (d : Disk) (l : Location) (e : Entry) : Disk :=
  { d with node? := fun other => if other = l then some (.entry e) else d.node? other }

/-- Why no file can be made at a free location. -/
def lock? (d : Disk) (l : Location) : Option DiskFault :=
  match d.node? l.tail with
  | some (.folder lock) => lock
  | _ => some .noSuchFile

/-- The entry at a location after it was opened for writing, before it is emptied. -/
def openAt (d : Disk) (l : Location) : Except DiskFault Entry :=
  match d.node? l with
  | some (.folder _) => .error .isDirectory
  | some (.entry e) => match e.opening with
    | some fault => .error fault
    | none => .ok e
  | none => match d.lock? l with
    | some fault => .error fault
    | none => .ok (.file [])

/-- The disk after some content was stored at a location, and why that failed if it did. A file that
could be created but not written is left empty. -/
def storeAt (d : Disk) (l : Location) (content : Bytes) : Option StoreFault × Disk :=
  match d.openAt l with
  | .error fault => (some (.create fault), d)
  | .ok e => match e.refusal? content with
    | some fault => (some (.write fault), d.set l (e.holding []))
    | none => (none, d.set l (e.holding content))

/-- The disk after some content was stored at a path, and why that failed if it did. -/
def store (d : Disk) (path : String) (content : Bytes) : Option StoreFault × Disk :=
  match d.target path with
  | .error fault => (some (.create fault), d)
  | .ok l => d.storeAt l content

/-- What a location holds; nothing if no file stands there. -/
def held (d : Disk) (l : Location) : Bytes :=
  match d.node? l with
  | some (.entry e) => e.content
  | _ => []

/-- The folders at the root of every system. -/
def rootFolders : List String :=
  ["bin", "boot", "dev", "etc", "home", "lib", "media", "mnt", "opt", "root", "run", "sbin",
    "srv", "tmp", "usr", "var"]

/-- The folder that holds the files of a fresh disk. -/
def workFolder : Location :=
  ["work", "tmp"]

/-- The standard output, which can be stored to like a file. -/
def standardOutput : Location :=
  ["stdout", "dev"]

/-- A fresh disk: the folders at the root, some devices, and a folder of files in which the program
runs. Nothing comes from the standard input. -/
def folder (files : List (String × Bytes)) : Disk where
  home := workFolder
  node?
    | [] => some (.folder none)
    -- the system alone makes files in these two
    | ["proc"] => some (.folder (some .noSuchFile))
    | ["sys"] => some (.folder (some .noPermission))
    | [name] => if name ∈ rootFolders then some (.folder none) else none
    | ["null", "dev"] => some (.entry .nullDevice)
    | ["full", "dev"] => some (.entry .fullDevice)
    | ["stdin", "dev"] => some (.entry .nullDevice)
    | name :: l =>
      if name :: l = workFolder then some (.folder none)
      else if name :: l = standardOutput then some (.entry (.file []))
      else if l = workFolder then (files.lookup name).map fun content => .entry (.file content)
      else none

theorem exists_folder_of_step {d : Disk} {l r : Location} {s : Path.Step}
    (h : d.step l s = .ok r) : ∃ lock, d.node? l = some (.folder lock) := by
  unfold step at h
  split at h
  · simp at h
  · simp at h
  · exact ⟨_, by assumption⟩

/-- A walk does not notice a change where no folder stands. -/
theorem walk_set {d : Disk} {t : Location} (e : Entry)
    (ht : ∀ lock, d.node? t ≠ some (.folder lock)) {s : List Path.Step} {l r : Location}
    (h : d.walk l s = .ok r) : (d.set t e).walk l s = .ok r := by
  induction s generalizing l with
  | nil => exact h
  | cons a s ih =>
    simp only [walk, List.foldlM_cons] at h ih ⊢
    cases ha : d.step l a with
    | error fault => simp [ha, bind, Except.bind] at h
    | ok m =>
      have hlt : l ≠ t := by
        rintro rfl
        obtain ⟨lock, hl⟩ := exists_folder_of_step ha
        exact ht lock hl
      have hstep : (d.set t e).step l a = .ok m := by
        rw [← ha]
        simp [step, set, hlt]
      rw [hstep]
      rw [ha] at h
      exact ih h

/-- What is to be created at a path is found there. -/
theorem locate_of_target {d : Disk} {path : String} {l : Location} (h : d.target path = .ok l) :
    d.locate path = .ok l := by
  unfold target at h
  split at h
  · split at h
    · cases ho : d.origin path with
      | error fault => simp [ho, Except.bind] at h
      | ok o =>
        simp only [ho, Except.bind] at h
        split at h <;> simp at h
    · exact h
  · exact h

/-- Storing a file leaves all other locations alone. -/
theorem node?_store_of_ne (d : Disk) (path : String) (content : Bytes) {other : Location}
    (h : d.target path ≠ .ok other) : (d.store path content).2.node? other = d.node? other := by
  unfold store
  split
  · rfl
  · rename_i l hl
    have hne : other ≠ l := fun he => h (he ▸ hl)
    unfold storeAt
    split
    · rfl
    · split <;> simp [set, hne]

/-- A stored file is read back from the place that was opened for it. -/
theorem read_store {d : Disk} {path : String} {content : Bytes}
    (h : (d.store path content).1 = none) :
    ∃ l e, d.target path = .ok l ∧ d.openAt l = .ok e ∧
      (d.store path content).2.read path = (e.holding content).read := by
  unfold store at *
  split at h
  · simp at h
  · rename_i l hl
    unfold storeAt at *
    split at h
    · simp at h
    · rename_i e he
      split at h
      · simp at h
      · refine ⟨l, e, hl, he, ?_⟩
        have hfree : ∀ lock, d.node? l ≠ some (.folder lock) := by
          intro lock hn
          simp [openAt, hn] at he
        have hloc := locate_of_target hl
        have : (d.set l (e.holding content)).locate path = .ok l := by
          unfold locate at *
          cases ho : d.origin path with
          | error fault => simp [ho, Except.bind] at hloc
          | ok o =>
            rw [ho] at hloc
            have hset : (d.set l (e.holding content)).origin path = .ok o := ho
            rw [hset]
            exact walk_set _ hfree hloc
        rw [read, this]
        simp [Except.bind, set]

end Disk

end Chiptune
