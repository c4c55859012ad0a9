import Mathlib.Algebra.Group.Nat.Defs
import Mathlib.Logic.Function.Basic
import Mathlib.Data.List.FinRange
import CopySpace.Gcc.Envelope

/-!
# `files.c`: the file system of a job

A job has a table of files and a table of descriptors.  Directories exist only as prefixes of the
names of files; a second table gives them numbers.  A file that is unlinked keeps its slot until
its last descriptor is closed.

Every function takes the tables and gives them back, with a result or the number in `errno`.
Where it allocates memory, an argument says whether it gets it.
-/

namespace CopySpace.Gcc

/-- The numbers in `errno`. -/
inductive Errno
  | ENOENT | EIOerr | EBADF | ENOMEM | EACCES | EFAULT | EBUSY | EEXIST | ENOTDIR | EISDIR | EINVAL
  | ENFILE | EMFILE | EFBIG | ERANGE | ENAMETOOLONG
deriving DecidableEq

def fdCount : Nat := 64

def pathBytes : Nat := 4097

def intMax : Nat := 2 ^ 31 - 1

def uintMax : Nat := 2 ^ 32 - 1

/-! ## Paths -/

/-- What `..` leaves of a name. -/
def parent (out : Bytes) : Bytes := ((out.reverse.dropWhile (· ≠ slash)).drop 1).reverse

/-- The loop of `normalize`.  A component takes a character, so as many steps as there are
characters are enough. -/
def normalizeLoop : Nat → Bytes → Bytes → Except Errno Bytes
  | 0, _, out => .ok out
  | _ + 1, [], out => .ok out
  | fuel + 1, c :: path, out =>
      let path := (c :: path).dropWhile (· = slash)
      let first := path.takeWhile (· ≠ slash)
      let rest := path.dropWhile (· ≠ slash)
      if first = [] ∨ first = [dot] then normalizeLoop fuel rest out
      else if first = [dot, dot] then
        if out = [] then .error .ENOENT else normalizeLoop fuel rest (parent out)
      else
        let separator := if out = [] then 0 else 1
        if out.length > pathBytes - 1 - separator ∨
            first.length > pathBytes - 1 - out.length - separator then .error .ENAMETOOLONG
        else normalizeLoop fuel rest (if out = [] then first else out ++ slash :: first)

/-- `normalize`; the path is `none` for a null pointer. -/
def normalize (path : Option Bytes) : Except Errno Bytes :=
  match path with
  | none => .error .ENOENT
  | some path => if path = [] then .error .ENOENT else normalizeLoop path.length path []

/-! ## The tables -/

/-- `file`.  The buffer has `capacity` bytes, the first `size` of them are those of the file. -/
structure File where
  name : Option Bytes
  data : Bytes
  size : Nat
  references : Nat
  readonly : Bool
  linked : Bool
deriving DecidableEq

namespace File

def capacity (f : File) : Nat := f.data.length

/-- What can be read. -/
def contents (f : File) : Bytes := f.data.take f.size

/-- A slot after `release`. -/
def free : File := ⟨none, [], 0, 0, false, false⟩

end File

/-- `descriptor`, in use. -/
structure Descriptor where
  object : Fin filesMax
  position : Nat
  flags : UInt32
deriving DecidableEq

/-- The static variables of `files.c`. -/
structure Files where
  objects : Fin filesMax → File
  handles : Fin fdCount → Option Descriptor
  directories : Fin filesMax → Option Bytes
  openDirectories : Nat

namespace Files

/-- The variables before the first call. -/
def empty : Files := ⟨fun _ ↦ .free, fun _ ↦ none, fun _ ↦ none, 0⟩

def setObject (s : Files) (i : Fin filesMax) (f : File) : Files :=
  { s with objects := Function.update s.objects i f }

def setHandle (s : Files) (fd : Fin fdCount) (d : Option Descriptor) : Files :=
  { s with handles := Function.update s.handles fd d }

/-- A file with the name is found. -/
def Named (s : Files) (name : Bytes) (i : Fin filesMax) : Prop :=
  (s.objects i).name = some name ∧ (s.objects i).linked = true

instance (s : Files) (name : Bytes) (i : Fin filesMax) : Decidable (s.Named name i) :=
  inferInstanceAs (Decidable (_ ∧ _))

def lookup (s : Files) (name : Bytes) : Option (Fin filesMax) :=
  (List.finRange filesMax).find? (s.Named name ·)

/-- The linked file is below the directory. -/
def Below (s : Files) (name : Bytes) (i : Fin filesMax) : Prop :=
  (s.objects i).linked = true ∧ ∃ p, (s.objects i).name = some p ∧ name ++ [slash] <+: p

instance (s : Files) (name : Bytes) (i : Fin filesMax) : Decidable (s.Below name i) :=
  decidable_of_iff ((s.objects i).linked = true ∧ ((s.objects i).name.any
    fun p ↦ (name ++ [slash]).isPrefixOf p) = true) (by
      simp only [Below, Option.any_eq_true, List.isPrefixOf_iff_prefix])

def freeHandle (s : Files) : Option (Fin fdCount) :=
  (List.finRange fdCount).find? fun fd ↦ 3 ≤ fd.val ∧ s.handles fd = none

def freeObject (s : Files) : Option (Fin filesMax) :=
  (List.finRange filesMax).find? fun i ↦ (s.objects i).name = none

end Files

/-- A function of `files.c`. -/
abbrev Outcome (α : Type) := Except Errno α × Files

/-- `cs_gcc_fs_mount`.  Every file takes an allocation, and their array another. -/
def mount (memory : Nat → Bool) (s : Files) (blob : Bytes) : Outcome Unit :=
  if s.openDirectories ≠ 0 then (.error .EBUSY, s)
  else if ∃ fd : Fin fdCount, 3 ≤ fd.val ∧ s.handles fd ≠ none then (.error .EBUSY, s)
  else match decodeFiles blob with
    | none => (.error .EINVAL, s)
    | some e =>
        if ∃ f ∈ e.files, f.data.length > intMax then (.error .EFBIG, s)
        else if (List.range (e.files.length + 1)).any fun k ↦ !memory k then (.error .ENOMEM, s)
        else (.ok (),
          { s with
            objects := fun i ↦ match e.files[i.val]? with
              | some f => ⟨some f.name, f.data, f.data.length, 0, true, true⟩
              | none => if (s.objects i).name = none then s.objects i else .free
            directories := fun _ ↦ none })

def directoryInode (memory : Bool) (s : Files) (name : Bytes) : Outcome Nat :=
  match (List.finRange filesMax).find? fun i ↦ s.directories i = some name with
  | some i => (.ok (filesMax + 1 + i), s)
  | none => match (List.finRange filesMax).find? fun i ↦ s.directories i = none with
    | none => (.error .ENFILE, s)
    | some i =>
        if memory then
          (.ok (filesMax + 1 + i),
            { s with directories := Function.update s.directories i (some name) })
        else (.error .ENOMEM, s)

/-- What `cs_gcc_fs_stat` reports. -/
structure Stat where
  size : Nat
  directory : Bool
  inode : Nat
deriving DecidableEq

def stat (memory : Bool) (s : Files) (path : Option Bytes) : Outcome Stat :=
  match normalize path with
  | .error e => (.error e, s)
  | .ok name => match s.lookup name with
    | some i => (.ok ⟨(s.objects i).size, false, i + 1⟩, s)
    | none =>
        if name = [] ∨ ∃ i, s.Below name i then
          let result := directoryInode memory s name
          (result.1.map fun inode ↦ ⟨0, true, inode⟩, result.2)
        else (.error .ENOENT, s)

/-- `cs_gcc_fs_stat` succeeds, with a directory. -/
def isDirectory : Except Errno Stat → Bool
  | .ok st => st.directory
  | .error _ => false

/-! ## Descriptors -/

namespace Flags

def read : UInt32 := 1
def write : UInt32 := 2
def create : UInt32 := 4
def trunc : UInt32 := 8
def append : UInt32 := 16
def excl : UInt32 := 32

def allowed : UInt32 := read ||| write ||| create ||| trunc ||| append ||| excl

end Flags

/-- One of the bits is set. -/
def has (flags bits : UInt32) : Bool := flags &&& bits ≠ 0

/-- The end of `cs_gcc_fs_open`: the descriptor is entered. -/
def enter (s : Files) (fd : Fin fdCount) (i : Fin filesMax) (flags : UInt32) : Files :=
  let f := s.objects i
  let f := if has flags Flags.trunc then { f with size := 0 } else f
  (s.setObject i { f with references := f.references + 1 }).setHandle fd (some ⟨i, 0, flags⟩)

/-- `cs_gcc_fs_open` behind its check for directories. -/
def openName (memory : Bool) (s : Files) (name : Bytes) (flags : UInt32) : Outcome Nat :=
  let object := s.lookup name
  if object.isSome ∧ has flags Flags.create ∧ has flags Flags.excl then (.error .EEXIST, s)
  else if (object.any fun i ↦ (s.objects i).readonly) ∧ has flags Flags.write then
    (.error .EACCES, s)
  else if object = none ∧ ¬ has flags Flags.create then (.error .ENOENT, s)
  else match s.freeHandle with
    | none => (.error .EMFILE, s)
    | some fd => match object with
      | some i => (.ok fd, enter s fd i flags)
      | none => match s.freeObject with
        | none => (.error .ENFILE, s)
        | some i =>
            if memory then
              let f := { s.objects i with name := some name, linked := true }
              (.ok fd, enter (s.setObject i f) fd i flags)
            else (.error .ENOMEM, s)

/-- `cs_gcc_fs_open`.  The number of a directory and the name of a file take an allocation. -/
def openFile (memory : Nat → Bool) (s : Files) (path : Option Bytes) (flags : UInt32) :
    Outcome Nat :=
  if has flags (~~~Flags.allowed) ∨ ¬ has flags (Flags.read ||| Flags.write) then
    (.error .EINVAL, s)
  else if has flags (Flags.trunc ||| Flags.append) ∧ ¬ has flags Flags.write then
    (.error .EINVAL, s)
  else match normalize path with
    | .error e => (.error e, s)
    | .ok name =>
        let result := stat (memory 0) s path
        if isDirectory result.1 then (.error .EISDIR, result.2)
        else openName (memory 1) result.2 name flags

/-- `get`. -/
def get (s : Files) (fd : Int) : Option (Fin fdCount × Descriptor) :=
  if h : 3 ≤ fd ∧ fd < fdCount then
    let fd : Fin fdCount := ⟨fd.toNat, by omega⟩
    (s.handles fd).map ((fd, ·))
  else none

def closeFile (s : Files) (fd : Int) : Outcome Unit :=
  match get s fd with
  | none => (.error .EBADF, s)
  | some (fd, d) =>
      let f := s.objects d.object
      let f := { f with references := f.references - 1 }
      (.ok (), (s.setHandle fd none).setObject d.object
        (if f.linked = false ∧ f.references = 0 then .free else f))

/-- `cs_gcc_fs_read`, with the bytes that it reads; the buffer may be a null pointer. -/
def readFile (s : Files) (fd : Int) (null : Bool) (size : Nat) : Outcome Bytes :=
  match get s fd with
  | none => (.error .EBADF, s)
  | some (fd, d) =>
      let f := s.objects d.object
      if ¬ has d.flags Flags.read then (.error .EBADF, s)
      else if size > intMax then (.error .EINVAL, s)
      else if size ≠ 0 ∧ null then (.error .EFAULT, s)
      else
        let left := if d.position < f.size then f.size - d.position else 0
        let count := if size < left then size else left
        (.ok ((f.data.drop d.position).take count),
          s.setHandle fd (some { d with position := d.position + count }))

/-- The buffer of a file after `realloc` and `memset`: up to the position it is that of the file,
and zeros behind. -/
def File.extended (f : File) (position finish : Nat) : Bytes :=
  let data := if finish > f.capacity then f.data ++ List.replicate (finish - f.capacity) 0
    else f.data
  if position > f.size then
    data.take f.size ++ List.replicate (position - f.size) 0 ++ data.drop position
  else data

/-- `cs_gcc_fs_write`. -/
def writeFile (memory : Bool) (s : Files) (fd : Int) (null : Bool) (data : Bytes) : Outcome Nat :=
  match get s fd with
  | none => (.error .EBADF, s)
  | some (fd, d) =>
      if ¬ has d.flags Flags.write then (.error .EBADF, s)
      else if data.length > intMax then (.error .EINVAL, s)
      else if data ≠ [] ∧ null then (.error .EFAULT, s)
      else if data = [] then (.ok 0, s)
      else
        let f := s.objects d.object
        let position := if has d.flags Flags.append then f.size else d.position
        if data.length > intMax - position then (.error .EFBIG, s)
        else
          let finish := position + data.length
          if finish > f.capacity ∧ memory = false then (.error .ENOMEM, s)
          else
            let buffer := f.extended position finish
            let f := { f with
              data := buffer.take position ++ data ++ buffer.drop finish
              size := if finish > f.size then finish else f.size }
            (.ok data.length, (s.setObject d.object f).setHandle fd
              (some { d with position := finish }))

def seekFile (s : Files) (fd : Int) (offset origin : Int) : Outcome Nat :=
  match get s fd with
  | none => (.error .EBADF, s)
  | some (fd, d) =>
      let base : Option Nat :=
        if origin = 0 then some 0
        else if origin = 1 then some d.position
        else if origin = 2 then some (s.objects d.object).size
        else none
      match base with
      | none => (.error .EINVAL, s)
      | some base =>
          if offset < -base ∨ offset > intMax - base then (.error .EINVAL, s)
          else
            let position := (base + offset).toNat
            (.ok position, s.setHandle fd (some { d with position := position }))

def fstat (s : Files) (fd : Int) : Outcome (Nat × Nat) :=
  match get s fd with
  | none => (.error .EBADF, s)
  | some (_, d) => (.ok ((s.objects d.object).size, d.object + 1), s)

/-! ## Names of files -/

def unlink (s : Files) (path : Option Bytes) : Outcome Unit :=
  match normalize path with
  | .error e => (.error e, s)
  | .ok name => match s.lookup name with
    | none => (.error .ENOENT, s)
    | some i =>
        let f := s.objects i
        if f.readonly then (.error .EACCES, s)
        else (.ok (), s.setObject i (if f.references = 0 then .free else { f with linked := false }))

/-- `cs_gcc_fs_output`. -/
def outputFile (s : Files) (path : Option Bytes) : Except Errno Bytes :=
  match normalize path with
  | .error e => .error e
  | .ok name => match s.lookup name with
    | none => .error .ENOENT
    | some i => .ok (s.objects i).contents

/-- `cs_gcc_fs_replace_owned`; `own` says that the pointer is that of the file. -/
def replaceOwned (s : Files) (path : Option Bytes) (null own : Bool) (data : Bytes) :
    Outcome Unit :=
  if data.length > intMax then (.error .EFBIG, s)
  else if data ≠ [] ∧ null then (.error .EFAULT, s)
  else match normalize path with
    | .error e => (.error e, s)
    | .ok name => match s.lookup name with
      | none => (.error .ENOENT, s)
      | some i =>
          let f := s.objects i
          if f.readonly then (.error .EACCES, s)
          else if f.references ≠ 0 then (.error .EBUSY, s)
          else if ¬ null ∧ own then (.error .EINVAL, s)
          else (.ok (), s.setObject i { f with data := data, size := data.length })

/-! ## Directories -/

def directoryOpen (memory : Bool) (s : Files) (path : Option Bytes) : Outcome Unit :=
  let result := stat memory s path
  match result.1 with
  | .error e => (.error e, result.2)
  | .ok st =>
      if st.directory = false then (.error .ENOTDIR, result.2)
      else if s.openDirectories = uintMax then (.error .EMFILE, result.2)
      else (.ok (), { result.2 with openDirectories := s.openDirectories + 1 })

def directoryClose (s : Files) : Files := { s with openDirectories := s.openDirectories - 1 }

/-- `cs_gcc_fs_access`. -/
def access (memory : Bool) (s : Files) (path : Option Bytes) (write execute : Bool) :
    Outcome Unit :=
  let result := stat memory s path
  match result.1 with
  | .error e => (.error e, result.2)
  | .ok st =>
      if st.directory then (.ok (), result.2)
      else match normalize path with
        | .error e => (.error e, result.2)
        | .ok name =>
            if execute ∨ (write ∧ (s.lookup name).any fun i ↦ (s.objects i).readonly) then
              (.error .EACCES, result.2)
            else (.ok (), result.2)

/-- `child`: the name of a file in a directory. -/
def child (f : File) (base : Bytes) : Option Bytes :=
  match f.name with
  | none => none
  | some name =>
      if f.linked = false then none
      else if base = [] then some name
      else if (base ++ [slash]).isPrefixOf name then some (name.drop (base.length + 1))
      else none

/-- The first component of a name in a directory, and whether it is a directory. -/
def firstPart (part : Bytes) : Bytes × Bool :=
  (part.takeWhile (· ≠ slash), (part.dropWhile (· ≠ slash)).head? = some slash)

/-- What `cs_gcc_fs_directory_next` reports of the slot `i`, if it is not what it has reported of
one before. -/
def listed (s : Files) (base : Bytes) (i : Fin filesMax) : Option (Bytes × Bool) :=
  match child (s.objects i) base with
  | none => none
  | some part =>
      if part = [] then none
      else
        let (first, directory) := firstPart part
        let duplicate := decide (∃ j, j < i ∧ (child (s.objects j) base).any fun previous ↦
          first.isPrefixOf previous && (previous.length = first.length ||
            previous[first.length]? = some slash))
        if duplicate then none else some (first, directory)

/-- An entry of a directory. -/
structure Entry where
  name : Bytes
  directory : Bool
  inode : Nat
deriving DecidableEq

/-- `cs_gcc_fs_directory_next`: the next entry and the next cursor, or the end. -/
def directoryNext (memory : Bool) (s : Files) (path : Option Bytes) (cursor capacity : Nat) :
    Outcome (Option Entry × Nat) :=
  if cursor > filesMax then (.error .EINVAL, s)
  else match normalize path with
    | .error e => (.error e, s)
    | .ok base =>
        match ((List.finRange filesMax).drop cursor).find? fun i ↦ (listed s base i).isSome with
        | none => (.ok (none, filesMax), s)
        | some i => match listed s base i with
          | none => (.ok (none, filesMax), s)
          | some (name, directory) =>
              if name.length ≥ capacity then (.error .ERANGE, s)
              else if directory then
                let full := if base = [] then name else base ++ slash :: name
                let result := directoryInode memory s full
                (result.1.map fun inode ↦ (some ⟨name, true, inode⟩, i + 1), result.2)
              else (.ok (some ⟨name, false, i + 1⟩, i + 1), s)

/-! ## Runs -/

/-- A call, with its arguments. -/
inductive Call
  | mount (memory : Nat → Bool) (blob : Bytes)
  | openFile (memory : Nat → Bool) (path : Option Bytes) (flags : UInt32)
  | closeFile (fd : Int)
  | readFile (fd : Int) (null : Bool) (size : Nat)
  | writeFile (memory : Bool) (fd : Int) (null : Bool) (data : Bytes)
  | seekFile (fd : Int) (offset origin : Int)
  | fstat (fd : Int)
  | unlink (path : Option Bytes)
  | replaceOwned (path : Option Bytes) (null own : Bool) (data : Bytes)
  | stat (memory : Bool) (path : Option Bytes)
  | access (memory : Bool) (path : Option Bytes) (write execute : Bool)
  | directoryOpen (memory : Bool) (path : Option Bytes)
  | directoryNext (memory : Bool) (path : Option Bytes) (cursor capacity : Nat)
  | directoryClose

/-- The tables after a call. -/
def Call.step (s : Files) : Call → Files
  | mount memory blob => (Gcc.mount memory s blob).2
  | openFile memory path flags => (Gcc.openFile memory s path flags).2
  | closeFile fd => (Gcc.closeFile s fd).2
  | readFile fd null size => (Gcc.readFile s fd null size).2
  | writeFile memory fd null data => (Gcc.writeFile memory s fd null data).2
  | seekFile fd offset origin => (Gcc.seekFile s fd offset origin).2
  | fstat fd => (Gcc.fstat s fd).2
  | unlink path => (Gcc.unlink s path).2
  | replaceOwned path null own data => (Gcc.replaceOwned s path null own data).2
  | stat memory path => (Gcc.stat memory s path).2
  | access memory path write execute => (Gcc.access memory s path write execute).2
  | directoryOpen memory path => (Gcc.directoryOpen memory s path).2
  | directoryNext memory path cursor capacity =>
      (Gcc.directoryNext memory s path cursor capacity).2
  | directoryClose => Gcc.directoryClose s

/-- The tables after some calls. -/
def run (s : Files) (calls : List Call) : Files := calls.foldl Call.step s

end CopySpace.Gcc
