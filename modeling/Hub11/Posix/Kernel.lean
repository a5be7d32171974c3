import Hub11.Effect.Program
import Hub11.Posix.FileSystem

/-!
The system-call interface over the file system: descriptors, directory streams,
short transfers and injected failures.

Everything the kernel may decide by itself is in `Choices`, most of it indexed by the
number of calls made so far: which call fails and with which error number, in which order
and in which portions a directory is listed, how much a read or a write transfers,
and when the block device is there. A theorem about every `Choices` is a theorem
about every such behaviour. A failed call has no effect, except that a failed `close`
may free the descriptor (`Choices.leak` says whether it does not).
-/

namespace Hub11.Posix

open Hub11.Effect

/-- The special descriptor number for "relative to the working directory". -/
def AT_FDCWD : Int := -100

/-! ### The flags of `openat` -/

def O_RDONLY : Nat := 0
def O_WRONLY : Nat := 1
def O_CREAT : Nat := 0o100
def O_TRUNC : Nat := 0o1000

/-- The flags that `creat(2)` stands for. -/
def creatFlags : Nat := O_WRONLY ||| O_CREAT ||| O_TRUNC

/-- What the number of a flag means depends on the architecture. `asm-generic/fcntl.h` and
arm64 have the numbers of `O_DIRECTORY` and `O_DIRECT` the other way round; the flags above
are the same on both. -/
inductive Abi where
  | generic
  | arm64
deriving DecidableEq

/-- The number of `O_DIRECTORY`. On arm64 it is what `O_DIRECT` is elsewhere. -/
def Abi.O_DIRECTORY : Abi → Nat
  | .generic => 0o200000
  | .arm64 => 0o40000

/-- The number of `O_DIRECT`. On arm64 it is what `O_DIRECTORY` is elsewhere, and the number that
`recovery_init.c` passes for a directory. -/
def Abi.O_DIRECT : Abi → Nat
  | .generic => 0o40000
  | .arm64 => 0o200000

/-- What `openat` is asked to do, as far as the kernel tells it apart here. A flag word becomes a
mode only through the numbers of an architecture. -/
inductive OpenMode where
  | rdonly
  | directory
  | direct
  | creat
deriving DecidableEq

/-- How the kernel of an architecture reads a flag word. Of `O_WRONLY` and `O_TRUNC` only the
combination that `creat` stands for occurs. -/
def Abi.mode (abi : Abi) (flags : Nat) : OpenMode :=
  if flags &&& O_CREAT ≠ 0 then .creat
  else if flags &&& abi.O_DIRECTORY ≠ 0 then .directory
  else if flags &&& abi.O_DIRECT ≠ 0 then .direct
  else .rdonly

@[simp] theorem Abi.mode_rdonly (abi : Abi) : abi.mode O_RDONLY = .rdonly := by
  cases abi <;> rfl

@[simp] theorem Abi.mode_creat (abi : Abi) : abi.mode creatFlags = .creat := by
  cases abi <;> rfl

/-- The file type in `st_mode`. -/
inductive FileType where
  | reg
  | dir
  | lnk
deriving DecidableEq

/-- What a program writes to the console: a fixed text or the name of an entry. The log keeps them
in order. -/
inductive Text where
  | lit (s : String)
  | name (c : Comp)
deriving DecidableEq

/-- The calls that the rescue init makes, with the arguments that matter. The mounts of the kernel's
own file systems and the console are calls of their own. -/
inductive Syscall where
  | mkdirat (dirfd : Int) (path : Path)
  | mountDevtmpfs
  | openConsole
  | mountDisk (target : Path)
  | nanosleep (sec : Nat)
  | openat (dirfd : Int) (path : Path) (flags : Nat)
  | getdents64 (fd : Int) (size : Nat)
  | renameat (olddirfd : Int) (oldpath : Path) (newdirfd : Int) (newpath : Path)
  | unlinkat (dirfd : Int) (path : Path) (removeDir : Bool)
  | symlinkat (target : Path) (dirfd : Int) (path : Path)
  | newfstatat (dirfd : Int) (path : Path)
  | read (fd : Int) (count : Nat)
  | write (fd : Int) (buf : Bytes)
  | puts (fd : Int) (text : Text)
  | close (fd : Int)
  | sync
  | umount2 (target : Path)

/-- The result in register `x0` (negative: an error number), with what a call puts
into its caller's buffer or `struct stat`. -/
structure Reply where
  ret : Int
  dents : List Comp := []
  data : Bytes := []
  type : FileType := .reg
deriving DecidableEq

/-- An open file description. A directory stream remembers which entries were
there when it was opened and which it has returned. -/
inductive Desc where
  | dir (i : Ino) (born seen : List Comp)
  | file (i : Ino) (offset : Nat)
  | console
deriving DecidableEq

/-- Everything the kernel keeps between two calls. `tick` counts the calls, and the choices of the
environment are looked up by it. -/
structure World where
  fs : FS
  mount : Option (Ino × Ino)
  fds : Nat → Option Desc
  nextFd : Nat
  log : List Text
  tick : Nat

/-- The kernel's own decisions, indexed by the number of calls made before, but for two
that are the same all the time: which files can be opened with `O_DIRECT`, and whether
there is a console. -/
structure Choices where
  fault : Nat → Option Errno
  leak : Nat → Bool
  order : Nat → List Comp
  chunk : Nat → Nat
  short : Nat → Option Nat
  diskReady : Nat → Bool
  direct : Ino → Bool
  console : Bool

/-- The machine: its architecture, the root of the initial ram disk, which is also the
working directory, the root of the file system on the block device, and the kernel's
choices. -/
structure Env where
  abi : Abi
  ramRoot : Ino
  diskRoot : Ino
  choices : Choices

/-! ### Directory listings -/

/-- The size of a `linux_dirent64` record: name at byte 19, NUL, rounded up to 8. -/
def recLen : Comp → Nat
  | .dot => 24
  | .dotdot => 24
  | .name n => (19 + n.bytes.length + 1 + 7) / 8 * 8

/-- The longest prefix of the records that fits into `size` bytes. No record is cut. -/
def fitting : Nat → List Comp → List Comp
  | _, [] => []
  | size, c :: cs => if recLen c ≤ size then c :: fitting (size - recLen c) cs else []

/-- The records of a directory before they are ordered: the two dots, then every name once. -/
def listing (es : List (Name × Ino)) : List Comp :=
  .dot :: .dotdot :: (es.map fun e => Comp.name e.1).dedup

/-- One portion of a directory listing: any entries not returned before, in any
order. Entries that were there from the start have to come before the end is
reported; entries added since may be left out. -/
def portion (size : Nat) (choice born pending : List Comp) : List Comp :=
  match (choice.filter (· ∈ pending)).dedup with
  | c :: cs => fitting size (c :: cs)
  | [] => fitting size ((pending.filter (· ∈ born)).take 1)

namespace World

variable (env : Env) (w : World)

def space : Space := ⟨env.ramRoot, w.mount⟩

/-- The directory a path starts from: the root, the working directory (which is the root here), or
what the descriptor is open on. -/
def base (dirfd : Int) (path : Path) : Except Errno Ino :=
  if path.absolute then .ok env.ramRoot
  else if dirfd = AT_FDCWD then .ok env.ramRoot
  else match dirfd with
  | .ofNat k =>
      match w.fds k with
      | some (.dir i _ _) => .ok i
      | some _ => .error .ENOTDIR
      | none => .error .EBADF
  | .negSucc _ => .error .EBADF

/-- The lookup of a path for a call that follows a link at its end, as `openat` and `mount` do. -/
def resolve (dirfd : Int) (path : Path) : Walk :=
  match w.base env dirfd path with
  | .ok start => w.fs.lookup (w.space env) start path.comps
  | .error e => .fail e

/-- The lookup of a path for a call on an entry: the directory that holds the last name, and the
name. A link at the end is not followed. -/
def resolveParent (dirfd : Int) (path : Path) : Except Errno (Ino × Name) := do
  let start ← w.base env dirfd path
  w.fs.lookupParent (w.space env) start path.comps

def desc (fd : Int) : Option Desc :=
  match fd with
  | .ofNat k => w.fds k
  | .negSucc _ => none

def setDesc (fd : Int) (d : Option Desc) : World :=
  { w with fds := fun k => if fd = (k : Int) then d else w.fds k }

/-- A new descriptor. Numbers are not reused, and there is no limit on them. -/
def openDesc (d : Desc) : World × Reply :=
  ({ w with fds := fun k => if k = w.nextFd then some d else w.fds k, nextFd := w.nextFd + 1 },
    { ret := w.nextFd })

/-- Open what a lookup has found. With `O_DIRECT` a directory cannot be opened, as it has no
data to read or write, and a file only if its file system takes part. -/
def openNode (i : Ino) (mode : OpenMode) : Except Errno (World × Reply) :=
  match w.fs.node i with
  | some (.dir _ es) =>
      match mode with
      | .creat => .error .EISDIR
      | .direct => .error .EINVAL
      | _ => .ok (w.openDesc (.dir i (listing es) []))
  | some (.file _) =>
      match mode with
      | .directory => .error .ENOTDIR
      | .direct => if env.choices.direct i then .ok (w.openDesc (.file i 0)) else .error .EINVAL
      | .rdonly => .ok (w.openDesc (.file i 0))
      | .creat => .ok ({ w with fs := w.fs.setData i [] }.openDesc (.file i 0))
  | some (.symlink _) => .error .ELOOP
  | none => .error .ENOENT

def fileType (i : Ino) : FileType :=
  match w.fs.node i with
  | some (.dir _ _) => .dir
  | some (.symlink _) => .lnk
  | _ => .reg

/-- Replace the file system by the result of an operation. -/
def applyFS (r : Except Errno FS) : Except Errno (World × Reply) :=
  r.map fun fs => ({ w with fs := fs }, { ret := 0 })

end World

/-- Bytes `[off, off + buf.length)` of a file overwritten. What comes after them stays, so a shorter
text leaves the end of a longer one. -/
def overwrite (data : Bytes) (off : Nat) (buf : Bytes) : Bytes :=
  data.take off ++ buf ++ data.drop (off + buf.length)

namespace World

variable (env : Env) (w : World)

/-- Is a descriptor open on the device of the mounted file system? Then `umount2` without flags
fails. -/
def diskInUse : Bool :=
  (List.range w.nextFd).any fun k =>
    match w.fds k with
    | some (.dir i _ _) => i.dev = env.diskRoot.dev
    | some (.file i _) => i.dev = env.diskRoot.dev
    | _ => false

/-- `getdents64`: the next portion of the listing, or nothing at its end. A name that was handed out
before does not come again on the same descriptor, whatever has been added or removed meanwhile. -/
def getdents (fd : Int) (size : Nat) : Except Errno (World × Reply) :=
  match w.desc fd with
  | some (.dir i born seen) =>
      match w.fs.entries i with
      | some es =>
          let got := portion size (env.choices.order w.tick) born
            ((listing es).filter (· ∉ seen))
          .ok (w.setDesc fd (some (.dir i born (seen ++ got))),
            { ret := ((got.map recLen).sum : Nat), dents := got })
      | none => .error .ENOENT
  | some _ => .error .ENOTDIR
  | none => .error .EBADF

/-- `read`: at most `count` bytes, and at least one unless the file has ended. -/
def readFile (fd : Int) (count : Nat) : Except Errno (World × Reply) :=
  match w.desc fd with
  | some (.file i off) =>
      match w.fs.node i with
      | some (.file data) =>
          let got := (data.drop off).take (min count (max 1 (env.choices.chunk w.tick)))
          .ok (w.setDesc fd (some (.file i (off + got.length))),
            { ret := got.length, data := got })
      | _ => .error .EBADF
  | some (.dir _ _ _) => .error .EISDIR
  | some .console => .ok (w, { ret := 0 })
  | none => .error .EBADF

/-- `write`: the bytes go to the descriptor's offset; a short write takes fewer. -/
def writeFile (fd : Int) (buf : Bytes) : Except Errno (World × Reply) :=
  match w.desc fd with
  | some (.file i off) =>
      match w.fs.node i with
      | some (.file data) =>
          let part := buf.take ((env.choices.short w.tick).getD buf.length)
          .ok ({ w with fs := w.fs.setData i (overwrite data off part) }.setDesc fd
            (some (.file i (off + part.length))), { ret := part.length })
      | _ => .error .EBADF
  | _ => .error .EBADF

/-- `newfstatat` with `AT_SYMLINK_NOFOLLOW`. -/
def stat (dirfd : Int) (path : Path) : Except Errno (World × Reply) := do
  let (d, n) ← w.resolveParent env dirfd path
  match w.fs.child d n with
  | some i => .ok (w, { ret := 0, type := w.fileType i })
  | none => .error .ENOENT

/-- `openat`: the path is looked up, links included, and a file is created where the flags ask for
it and the directory is there. -/
def openPath (dirfd : Int) (path : Path) (flags : Nat) : Except Errno (World × Reply) :=
  match w.resolve env dirfd path with
  | .found i => w.openNode env i (env.abi.mode flags)
  | .missing d n =>
      if env.abi.mode flags = .creat then
        (w.fs.create d n (.file [])).map fun fs =>
          { w with fs := fs }.openDesc (.file (w.fs.fresh d.dev) 0)
      else .error .ENOENT
  | .fail e => .error e

/-- A call that is not made to fail. It can still fail for reasons of its own, and then the error
number says why. -/
def exec : Syscall → Except Errno (World × Reply)
  | .mkdirat dirfd path => do
      let (d, n) ← w.resolveParent env dirfd path
      w.applyFS (w.fs.mkdir d n)
  | .mountDevtmpfs => .ok (w, { ret := 0 })
  | .openConsole => if env.choices.console then .ok (w.openDesc .console) else .error .ENOENT
  | .mountDisk target =>
      match w.resolve env AT_FDCWD target with
      | .found i =>
          if w.fs.isDir i && w.mount.isNone && env.choices.diskReady w.tick then
            .ok ({ w with mount := some (i, env.diskRoot) }, { ret := 0 })
          else .error .ENODEV
      | _ => .error .ENOENT
  | .nanosleep _ => .ok (w, { ret := 0 })
  | .openat dirfd path flags => w.openPath env dirfd path flags
  | .getdents64 fd size => w.getdents env fd size
  | .renameat olddirfd oldpath newdirfd newpath => do
      let (sd, n) ← w.resolveParent env olddirfd oldpath
      let (dd, m) ← w.resolveParent env newdirfd newpath
      w.applyFS (w.fs.rename (w.space env).busy sd n dd m)
  | .unlinkat dirfd path removeDir => do
      let (d, n) ← w.resolveParent env dirfd path
      w.applyFS (if removeDir then w.fs.rmdir (w.space env).busy d n else w.fs.unlink d n)
  | .symlinkat target dirfd path => do
      let (d, n) ← w.resolveParent env dirfd path
      w.applyFS (w.fs.symlink target d n)
  | .newfstatat dirfd path => w.stat env dirfd path
  | .read fd count => w.readFile env fd count
  | .write fd buf => w.writeFile env fd buf
  | .puts fd text =>
      match w.desc fd with
      | some .console => .ok ({ w with log := w.log ++ [text] }, { ret := 0 })
      | _ => .error .EBADF
  | .close fd =>
      match w.desc fd with
      | some _ => .ok (w.setDesc fd none, { ret := 0 })
      | none => .error .EBADF
  | .sync => .ok (w, { ret := 0 })
  | .umount2 target =>
      match w.resolve env AT_FDCWD target with
      | .found i =>
          if w.mount.map Prod.snd = some i then
            if w.diskInUse env then .error .EBUSY else .ok ({ w with mount := none }, { ret := 0 })
          else .error .EINVAL
      | _ => .error .ENOENT

/-- The state a failing call leaves behind: that before it, except that a failed `close` may have
freed the descriptor. -/
def refused : Syscall → World
  | .close fd => if env.choices.leak w.tick then w else w.setDesc fd none
  | _ => w

/-- What a call does, before it is counted: it is made to fail, or carried out. -/
def attempt (op : Syscall) : Except Errno (World × Reply) :=
  match env.choices.fault w.tick with
  | some e => .error e
  | none => w.exec env op

end World

/-- The kernel as a machine: one call, counted. A call that fails returns the negative error number,
as the wrappers of the rescue init expect it. -/
def kernel (env : Env) : Machine World Syscall fun _ => Reply := fun w op =>
  match w.attempt env op with
  | .ok (w', r) => ({ w' with tick := w.tick + 1 }, r)
  | .error e => ({ w.refused env op with tick := w.tick + 1 }, { ret := -(e.code : Int) })

end Hub11.Posix
