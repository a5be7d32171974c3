import Mathlib.Algebra.GroupWithZero.Nat
import Mathlib.Data.List.Basic
import Mathlib.Logic.Basic

/-!
A file system as a table of inodes, with the directory operations of POSIX.

A directory is a list of named references to inodes and knows its parent; regular
files and symbolic links may be referenced from several places (hard links). An
inode is numbered within its device, and `FS.next` is above every number in use,
so a fresh inode is always at hand. The operations below are those of the
system-call layer after path lookup: they take the directory a name lives in and
either fail with an error number and no effect or return the new table.
-/

namespace Hub11.Posix

abbrev Bytes := List UInt8

/-- A file name: what a directory entry can be called. `.` and `..` are not
entries of the table, and neither the separator nor NUL can occur. -/
structure Name where
  bytes : Bytes
  valid : bytes ≠ [] ∧ bytes.length ≤ 255 ∧ 0 ∉ bytes ∧ 47 ∉ bytes ∧ bytes ≠ [46] ∧
    bytes ≠ [46, 46]
deriving DecidableEq

/-- One component of a path, or one record of a directory listing. `.` and `..` are listed like
every other name. -/
inductive Comp where
  | dot
  | dotdot
  | name (n : Name)
deriving DecidableEq

/-- A path, split at its separators. -/
structure Path where
  absolute : Bool
  comps : List Comp
deriving DecidableEq

/-- An error number as the kernel returns it, always positive. -/
structure Errno where
  code : Nat
  pos : 0 < code
deriving DecidableEq

namespace Errno

def ENOENT : Errno := ⟨2, by decide⟩
def EBADF : Errno := ⟨9, by decide⟩
def EBUSY : Errno := ⟨16, by decide⟩
def EEXIST : Errno := ⟨17, by decide⟩
def EXDEV : Errno := ⟨18, by decide⟩
def ENODEV : Errno := ⟨19, by decide⟩
def ENOTDIR : Errno := ⟨20, by decide⟩
def EISDIR : Errno := ⟨21, by decide⟩
def EINVAL : Errno := ⟨22, by decide⟩
def ENOTEMPTY : Errno := ⟨39, by decide⟩
def ELOOP : Errno := ⟨40, by decide⟩

end Errno

/-- An inode, by its device and its number there. A rename or a hard link never leaves the
device. -/
structure Ino where
  dev : Nat
  num : Nat
deriving DecidableEq

/-- What an inode is. A directory knows its parent and lists its entries; a link holds the path it
leads to. -/
inductive Node where
  | dir (parent : Ino) (entries : List (Name × Ino))
  | file (data : Bytes)
  | symlink (target : Path)
deriving DecidableEq

/-! ### Directory contents -/

/-- The entry of a name; the first one counts. -/
def dirGet (es : List (Name × Ino)) (n : Name) : Option Ino :=
  (es.find? fun e => e.1 = n).map Prod.snd

def dirDel (es : List (Name × Ino)) (n : Name) : List (Name × Ino) :=
  es.filter fun e => e.1 ≠ n

def dirSet (es : List (Name × Ino)) (n : Name) (i : Ino) : List (Name × Ino) :=
  (n, i) :: dirDel es n

/-! ### The inode table -/

/-- The table of inodes. `next` is above every number in use, so that a fresh inode is always at
hand. -/
@[ext] structure FS where
  node : Ino → Option Node
  next : Nat
  bounded : ∀ i, node i ≠ none → i.num < next

namespace FS

/-- Change (or drop) the node of an inode in use. -/
def modify (fs : FS) (i : Ino) (f : Node → Option Node) : FS where
  node j := if j = i then (fs.node i).bind f else fs.node j
  next := fs.next
  bounded j hj := by
    by_cases h : j = i
    · subst h
      refine fs.bounded j fun hnone => hj ?_
      simp [hnone]
    · exact fs.bounded j (by simpa [h] using hj)

/-- The first unused inode of a device. -/
def fresh (fs : FS) (dev : Nat) : Ino := ⟨dev, fs.next⟩

/-- Put a node at the first unused inode of a device. -/
def alloc (fs : FS) (dev : Nat) (n : Node) : FS where
  node j := if j = fs.fresh dev then some n else fs.node j
  next := fs.next + 1
  bounded j hj := by
    by_cases h : j = fs.fresh dev
    · subst h
      exact Nat.lt_succ_self _
    · exact Nat.lt_succ_of_lt (fs.bounded j (by simpa [h] using hj))

/-- The entries of a directory; `none` if the inode is no directory. -/
def entries (fs : FS) (i : Ino) : Option (List (Name × Ino)) :=
  match fs.node i with
  | some (.dir _ es) => some es
  | _ => none

def isDir (fs : FS) (i : Ino) : Bool := (fs.entries i).isSome

def isEmptyDir (fs : FS) (i : Ino) : Bool := fs.entries i = some []

def child (fs : FS) (d : Ino) (n : Name) : Option Ino :=
  (fs.entries d).bind fun es => dirGet es n

def parent (fs : FS) (i : Ino) : Ino :=
  match fs.node i with
  | some (.dir p _) => p
  | _ => i

def setEntry (fs : FS) (d : Ino) (n : Name) (i : Ino) : FS :=
  fs.modify d fun
    | .dir p es => some (.dir p (dirSet es n i))
    | other => some other

def delEntry (fs : FS) (d : Ino) (n : Name) : FS :=
  fs.modify d fun
    | .dir p es => some (.dir p (dirDel es n))
    | other => some other

def setParent (fs : FS) (i p : Ino) : FS :=
  fs.modify i fun
    | .dir _ es => some (.dir p es)
    | other => some other

/-- Overwrite the bytes of a regular file. -/
def setData (fs : FS) (i : Ino) (data : Bytes) : FS :=
  fs.modify i fun
    | .file _ => some (.file data)
    | other => some other

/-- Drop a directory. Descriptors still open on it find no directory any more. -/
def drop (fs : FS) (i : Ino) : FS := fs.modify i fun _ => none

/-- Is `t` the directory `i` or somewhere below it? `k` bounds the depth searched. A rename into its
own subtree is refused with it. -/
def inside (fs : FS) : Nat → Ino → Ino → Bool
  | 0, i, t => i = t
  | k + 1, i, t => i = t || match fs.entries i with
      | some es => es.any fun e => (dirGet es e.1).any fun j => fs.inside k j t
      | none => false

/-! ### Operations on a directory entry -/

/-- Add the entry `n` with a new node to directory `d`. -/
def link (fs : FS) (d : Ino) (n : Name) (node : Node) : FS :=
  (fs.alloc d.dev node).setEntry d n (fs.fresh d.dev)

/-- Creating an entry needs a directory in which the name is free, whatever holds the name, a link
to nothing included. -/
def create (fs : FS) (d : Ino) (n : Name) (node : Node) : Except Errno FS :=
  if fs.isDir d then
    match fs.child d n with
    | some _ => .error .EEXIST
    | none => .ok (fs.link d n node)
  else .error .ENOTDIR

def mkdir (fs : FS) (d : Ino) (n : Name) : Except Errno FS := fs.create d n (.dir d [])

def symlink (fs : FS) (target : Path) (d : Ino) (n : Name) : Except Errno FS :=
  fs.create d n (.symlink target)

/-- `unlinkat` without flags: removes anything but a directory. -/
def unlink (fs : FS) (d : Ino) (n : Name) : Except Errno FS :=
  match fs.child d n with
  | none => .error .ENOENT
  | some i => if fs.isDir i then .error .EISDIR else .ok (fs.delEntry d n)

/-- `unlinkat` with `AT_REMOVEDIR`: removes an empty directory that is not in use
as a mount point. -/
def rmdir (fs : FS) (busy : Option Ino) (d : Ino) (n : Name) : Except Errno FS :=
  match fs.child d n with
  | none => .error .ENOENT
  | some i =>
      if !fs.isDir i then .error .ENOTDIR
      else if busy = some i then .error .EBUSY
      else if fs.isEmptyDir i then .ok ((fs.delEntry d n).drop i)
      else .error .ENOTEMPTY

/-- The effect of a rename that goes through: `i` leaves `(sd, n)` and appears at
`(dd, m)`; a directory learns its new parent; a directory it replaces is gone. -/
def relink (fs : FS) (sd : Ino) (n : Name) (dd : Ino) (m : Name) (i : Ino) (old : Option Ino) : FS :=
  let moved := ((fs.delEntry sd n).setEntry dd m i).setParent i dd
  match old with
  | some j => if fs.isDir j then moved.drop j else moved
  | none => moved

/-- `renameat` on resolved directories. Two names of one inode are left alone and
the call succeeds; a mount point is neither moved nor replaced. -/
def rename (fs : FS) (busy : Option Ino) (sd : Ino) (n : Name) (dd : Ino) (m : Name) :
    Except Errno FS :=
  if !fs.isDir sd || !fs.isDir dd then .error .ENOTDIR
  else if sd.dev ≠ dd.dev then .error .EXDEV
  else match fs.child sd n with
  | none => .error .ENOENT
  | some i =>
      match fs.child dd m with
      | none =>
          if fs.isDir i && fs.inside fs.next i dd then .error .EINVAL
          else if busy = some i then .error .EBUSY
          else .ok (fs.relink sd n dd m i none)
      | some j =>
          if i = j then .ok fs
          else if fs.isDir i && fs.inside fs.next i dd then .error .EINVAL
          else if fs.isDir i && !fs.isDir j then .error .ENOTDIR
          else if !fs.isDir i && fs.isDir j then .error .EISDIR
          else if busy = some i || busy = some j then .error .EBUSY
          else if fs.isDir j && !fs.isEmptyDir j then .error .ENOTEMPTY
          else .ok (fs.relink sd n dd m i (some j))

end FS

/-! ### Path lookup -/

/-- What a process sees: its root directory, and at most one mount, given as the
directory it covers and the root of the mounted file system. -/
structure Space where
  root : Ino
  mount : Option (Ino × Ino)

namespace Space

def cross (sp : Space) (i : Ino) : Ino :=
  match sp.mount with
  | some (covered, top) => if i = covered then top else i
  | none => i

/-- `..`, which stays at the root and leaves a mount through the directory it covers. -/
def up (sp : Space) (fs : FS) (i : Ino) : Ino :=
  if i = sp.root then i
  else match sp.mount with
  | some (covered, top) => if i = top then fs.parent covered else fs.parent i
  | none => fs.parent i

/-- The inode in use as a mount point. -/
def busy (sp : Space) : Option Ino := sp.mount.map Prod.fst

end Space

/-- The result of a lookup. `missing` says where the last component could be created; every other
failure has an error number. -/
inductive Walk where
  | found (i : Ino)
  | missing (d : Ino) (n : Name)
  | fail (e : Errno)
deriving DecidableEq

namespace FS

/-- Walk along components up to the first symbolic link, which is given to
`onLink` together with the components still to come. -/
def walkFrom (fs : FS) (sp : Space) (onLink : Ino → List Comp → Walk) : Ino → List Comp → Walk
  | cur, [] => .found cur
  | cur, c :: cs =>
      match fs.entries cur with
      | none => .fail .ENOTDIR
      | some es =>
          match c with
          | .dot => fs.walkFrom sp onLink cur cs
          | .dotdot => fs.walkFrom sp onLink (sp.up fs cur) cs
          | .name n =>
              match dirGet es n with
              | none => if cs.isEmpty then .missing cur n else .fail .ENOENT
              | some i =>
                  match fs.node i with
                  | some (.symlink t) => onLink (if t.absolute then sp.root else cur) (t.comps ++ cs)
                  | _ => fs.walkFrom sp onLink (sp.cross i) cs

/-- Path lookup that follows symbolic links, also in the last component, as long as
no more than `budget` of them are met. -/
def walk (fs : FS) (sp : Space) : Nat → Ino → List Comp → Walk
  | 0 => fs.walkFrom sp fun _ _ => .fail .ELOOP
  | budget + 1 => fs.walkFrom sp (fs.walk sp budget)

/-- Linux gives up after forty links. -/
def lookup (fs : FS) (sp : Space) (start : Ino) (comps : List Comp) : Walk :=
  fs.walk sp 40 start comps

/-- The directory and the name the last component of a path stands for, links in
the last component not followed. -/
def lookupParent (fs : FS) (sp : Space) (start : Ino) (comps : List Comp) :
    Except Errno (Ino × Name) :=
  match comps.reverse with
  | .name n :: rest =>
      match fs.lookup sp start rest.reverse with
      | .found d => .ok (d, n)
      | .missing _ _ => .error .ENOENT
      | .fail e => .error e
  | _ => .error .EINVAL

end FS

end Hub11.Posix
