import Hub11.Posix.Kernel

/-!
The rescue init of `recovery-init/recovery_init.c`: a freestanding program that
mounts the root file system of hub-11, merges `/lib_old` and a stray `/lib`
directory back into `/usr/lib`, restores the usr-merge links and installs the
dynamic linker.

The functions keep the order of system calls of the source, and results the source
ignores are ignored here. `out` is the descriptor in the source's `out_fd`. The
recursion of `merge_dir` and the two read loops take a bound; a run that uses it up
has not returned (`Prog.spent`). File modes are not modelled: the program runs as
root, and the `mkdirat` calls of `_start` do not even pass one. Calls are taken by the
names that the source gives their numbers in comments. The flags of `openat` are the
numbers of the source's own definitions, and what they mean is up to the kernel.
-/

namespace Hub11.Recovery

open Hub11.Effect Hub11.Posix

/-- A program that makes system calls. Whatever the source computes between two calls is plain Lean
in the continuation. -/
abbrev Sys := Prog Syscall fun _ => Reply

/-! ### Names and paths -/

def ascii (s : List Char) : Bytes := s.map fun c => UInt8.ofNat c.toNat

def nDev : Name := ⟨ascii ['d', 'e', 'v'], by decide⟩
def nMnt : Name := ⟨ascii ['m', 'n', 't'], by decide⟩
def nUsr : Name := ⟨ascii ['u', 's', 'r'], by decide⟩
def nLib : Name := ⟨ascii ['l', 'i', 'b'], by decide⟩
def nLib64 : Name := ⟨ascii ['l', 'i', 'b', '6', '4'], by decide⟩
def nLibOld : Name := ⟨ascii ['l', 'i', 'b', '_', 'o', 'l', 'd'], by decide⟩
def nModules : Name := ⟨ascii ['m', 'o', 'd', 'u', 'l', 'e', 's'], by decide⟩
def nArch : Name := ⟨ascii "aarch64-linux-gnu".toList, by decide⟩
def nLdLinux : Name := ⟨ascii "ld-linux-aarch64.so.1".toList, by decide⟩
def nLd231 : Name := ⟨ascii "ld-2.31.so".toList, by decide⟩

/-- The absolute path through the given names. -/
def absPath (names : List Name) : Path := ⟨true, names.map .name⟩

/-- The relative path through the given names. -/
def relPath (names : List Name) : Path := ⟨false, names.map .name⟩

/-- A path below `/mnt`. -/
def mntPath (names : List Name) : Path := absPath (nMnt :: names)

/-! ### Flags -/

/-- Line 13 of the source, which gives the flag the number that it has in the generic
header. The rescue image is built for arm64, where this is the number of `O_DIRECT`. -/
def O_DIRECTORY : Nat := 0o200000

/-- The flags with which `merge_dir` and `_start` mean to open directories. -/
def dirFlags : Nat := O_RDONLY ||| O_DIRECTORY

@[simp] theorem mode_dirFlags_generic : Abi.generic.mode dirFlags = .directory := rfl

@[simp] theorem mode_dirFlags_arm64 : Abi.arm64.mode dirFlags = .direct := rfl

theorem mode_dirFlags_ne_creat (abi : Abi) : abi.mode dirFlags ≠ .creat := by
  cases abi <;> decide

theorem abi_of_not_direct {abi : Abi} (h : abi.mode dirFlags ≠ .direct) : abi = .generic := by
  cases abi with
  | generic => rfl
  | arm64 => exact absurd rfl h

theorem mode_of_not_direct {abi : Abi} (h : abi.mode dirFlags ≠ .direct) :
    abi.mode dirFlags = .directory := by
  rw [abi_of_not_direct h]
  rfl

theorem abi_of_not_directory {abi : Abi} (h : abi.mode dirFlags ≠ .directory) : abi = .arm64 := by
  cases abi with
  | generic => exact absurd rfl h
  | arm64 => rfl

/-! ### Helpers -/

/-- `str_eq` on two NUL-terminated strings, given without the NUL. The comparison stops at the first
difference or when both have ended. -/
def strEq : Bytes → Bytes → Bool
  | a :: as, b :: bs => if a = b then strEq as bs else false
  | [], [] => true
  | _, _ => false

theorem strEq_iff (a b : Bytes) : strEq a b = true ↔ a = b := by
  induction a generalizing b with
  | nil => cases b <;> simp [strEq]
  | cons x a ih =>
      cases b with
      | nil => simp [strEq]
      | cons y b => by_cases h : x = y <;> simp [strEq, h, ih]

/-- The bytes of `d_name`. -/
def dName : Comp → Bytes
  | .dot => [46]
  | .dotdot => [46, 46]
  | .name n => n.bytes

def call (op : Syscall) : Sys Int := do
  let r ← Prog.perform op
  return r.ret

def print (out : Int) (s : Text) : Sys Unit := do
  let _ ← call (.puts out s)

/-- Fixed texts one after the other. -/
def printAll (out : Int) (texts : List String) : Sys Unit :=
  texts.forM fun s => print out (.lit s)

/-- An `if` without `else` in front of other statements. -/
def onlyIf (c : Prop) [Decidable c] (p : Sys Unit) : Sys Unit := if c then p else pure ()

/-- `if (fd >= 0) close(fd)` -/
def closeOpen (fd : Int) : Sys Unit := onlyIf (fd ≥ 0) do
  let _ ← call (.close fd)

def sleepSec (s : Nat) : Sys Unit := do
  let _ ← call (.nanosleep s)

/-! ### `copy_file` -/

/-- The read/write loop of `copy_file`: 4096 bytes at a time until a read returns nothing or fails.
The result of `write` is not looked at. -/
def copyLoop : Nat → Int → Int → Sys Unit
  | 0, _, _ => .spent
  | fuel + 1, inFd, outFd => do
      let r ← Prog.perform (.read inFd 4096)
      if r.ret > 0 then
        let _ ← call (.write outFd r.data)
        copyLoop fuel inFd outFd

/-- `copy_file`: the source is opened, the destination unlinked and created, the bytes copied. Only
the two opens can end in an error message; everything else is reported as installed. -/
def copyFile (out : Int) (fuel : Nat) (src dst : Path) (srcText dstText : String) : Sys Unit := do
  let inFd ← call (.openat AT_FDCWD src O_RDONLY)
  if inFd < 0 then
    printAll out ["  [ERROR] Cannot open source: ", srcText, "\n"]
  else
    let _ ← call (.unlinkat AT_FDCWD dst false)
    let outFd ← call (.openat AT_FDCWD dst creatFlags)
    if outFd < 0 then
      printAll out ["  [ERROR] Cannot create dest: ", dstText, "\n"]
      let _ ← call (.close inFd)
    else
      copyLoop fuel inFd outFd
      let _ ← call (.close inFd)
      let _ ← call (.close outFd)
      printAll out ["  Installed: ", dstText, "\n"]

/-! ### `merge_dir` -/

/-- What `merge_dir` does with a record it could not rename; `recurse` stands for the
recursive call. -/
def mergeSubdir (recurse : Int → Int → Sys Unit) (srcFd dstFd : Int) (d : Comp) : Sys Unit := do
  let subSrc ← call (.openat srcFd ⟨false, [d]⟩ dirFlags)
  let _ ← call (.mkdirat dstFd ⟨false, [d]⟩)
  let subDst ← call (.openat dstFd ⟨false, [d]⟩ dirFlags)
  onlyIf (subSrc ≥ 0 ∧ subDst ≥ 0) (recurse subSrc subDst)
  closeOpen subSrc
  closeOpen subDst
  let _ ← call (.unlinkat srcFd ⟨false, [d]⟩ true)

/-- One directory record of `merge_dir`. A name that cannot be renamed is taken for a directory of
both trees, whatever the reason was. -/
def mergeEntry (out : Int) (recurse : Int → Int → Sys Unit) (srcFd dstFd : Int) (indent : String)
    (d : Comp) : Sys Unit := do
  if !strEq (dName d) (dName .dot) && !strEq (dName d) (dName .dotdot) then
    print out (.lit indent)
    print out (.lit "  Processing: ")
    print out (.name d)
    let r ← call (.renameat srcFd ⟨false, [d]⟩ dstFd ⟨false, [d]⟩)
    if r = 0 then
      print out (.lit " -> [MOVED]\n")
    else
      print out (.lit " -> [MERGING SUBDIR]\n")
      mergeSubdir recurse srcFd dstFd d

/-- `merge_dir`: portions of the listing until one is empty or fails, and a recursive call for every
record that was not moved. The bound goes down with every portion and with every level. -/
def mergeDir (out : Int) : Nat → Int → Int → String → Sys Unit
  | 0, _, _, _ => .spent
  | fuel + 1, srcFd, dstFd, indent => do
      let r ← Prog.perform (.getdents64 srcFd 2048)
      if r.ret > 0 then
        r.dents.forM (mergeEntry out (fun s d => mergeDir out fuel s d "    ") srcFd dstFd indent)
        mergeDir out fuel srcFd dstFd indent

/-! ### `_start`, in the phases of its comments -/

/-- The loop of step 3: at most `k` attempts to mount the disk, a second apart. It hands on the
result of the last one. -/
def waitForDisk (out : Int) : Nat → Int → Sys Int
  | 0, ret => pure ret
  | k + 1, _ => do
      let ret ← call (.mountDisk (absPath [nMnt]))
      if ret = 0 then
        return ret
      else
        print out (.lit "    Waiting for /dev/mmcblk0p6...\n")
        sleepSec 1
        waitForDisk out k ret

/-- Steps 1 and 2: `/dev` is made and mounted and the console opened. The result is the new
`out_fd`, or 1 if there is no console. -/
def openOutput : Sys Int := do
  let _ ← call (.mkdirat AT_FDCWD (absPath [nDev]))
  let _ ← call .mountDevtmpfs
  let cfd ← call .openConsole
  return if cfd ≥ 0 then cfd else 1

/-- Step 3: the banner and the mount. -/
def mountRootfs (out : Int) : Sys Int := do
  printAll out ["\n\n",
    "========================================================\n",
    "===   HUB-11 ULTIMATE RESCUE & RESTORATION v3.0      ===\n",
    "========================================================\n\n"]
  let _ ← call (.mkdirat AT_FDCWD (absPath [nMnt]))
  print out (.lit ">>> Waiting for eMMC and mounting /dev/mmcblk0p6 on /mnt...\n")
  waitForDisk out 15 (-1)

/-- The directories below `/mnt/usr` that the merges rely on. -/
def ensureDirs : Sys Unit := do
  let _ ← call (.mkdirat AT_FDCWD (mntPath [nUsr]))
  let _ ← call (.mkdirat AT_FDCWD (mntPath [nUsr, nLib]))
  let _ ← call (.mkdirat AT_FDCWD (mntPath [nUsr, nLib64]))
  let _ ← call (.mkdirat AT_FDCWD (mntPath [nUsr, nLib, nArch]))
  let _ ← call (.mkdirat AT_FDCWD (mntPath [nUsr, nLib, nModules]))

/-- `merge_dir` from a directory and the `close` after it, as steps 4 and 5 both have it. The
`rmdir` of the source is up to the step. -/
def mergeFrom (out : Int) (fuel : Nat) (srcFd dstLib : Int) : Sys Unit := do
  mergeDir out fuel srcFd dstLib ""
  let _ ← call (.close srcFd)

/-- Step 4: `/mnt/lib_old` into `/mnt/usr/lib`, and the `rmdir` of what is left of it. All of it is
skipped if the directory cannot be opened. -/
def mergeLibOld (out : Int) (fuel : Nat) (dstLib : Int) : Sys Unit := do
  let oldLib ← call (.openat AT_FDCWD (mntPath [nLibOld]) dirFlags)
  if oldLib ≥ 0 then
    print out (.lit ">>> Merging /mnt/lib_old into /mnt/usr/lib...\n")
    mergeFrom out fuel oldLib dstLib
    let _ ← call (.unlinkat AT_FDCWD (mntPath [nLibOld]) true)

/-- Step 5: `/mnt/lib` into `/mnt/usr/lib`, if it is a directory and no link. The `rmdir` comes
whether or not it could be opened. -/
def mergeLib (out : Int) (fuel : Nat) (dstLib : Int) : Sys Unit := do
  let st ← Prog.perform (.newfstatat AT_FDCWD (mntPath [nLib]))
  if st.ret = 0 ∧ st.type = .dir then
    print out (.lit ">>> Merging /mnt/lib into /mnt/usr/lib...\n")
    let curLib ← call (.openat AT_FDCWD (mntPath [nLib]) dirFlags)
    onlyIf (curLib ≥ 0) (mergeFrom out fuel curLib dstLib)
    let _ ← call (.unlinkat AT_FDCWD (mntPath [nLib]) true)

/-- Steps 4 and 5 with the descriptor of `/mnt/usr/lib` around them. It is passed
on unchecked. -/
def mergePhases (out : Int) (fuel : Nat) : Sys Unit := do
  let dstLib ← call (.openat AT_FDCWD (mntPath [nUsr, nLib]) dirFlags)
  mergeLibOld out fuel dstLib
  mergeLib out fuel dstLib
  closeOpen dstLib

/-- Unlink, rmdir and symlink: one of the two links of step 6. None of the three results is looked
at. -/
def restoreLink (n : Name) (target : Path) : Sys Unit := do
  let _ ← call (.unlinkat AT_FDCWD (mntPath [n]) false)
  let _ ← call (.unlinkat AT_FDCWD (mntPath [n]) true)
  let _ ← call (.symlinkat target AT_FDCWD (mntPath [n]))

/-- Step 6: the two links of the usr-merge, `/lib` and `/lib64`, relative as on Debian. -/
def restoreSymlinks (out : Int) : Sys Unit := do
  print out (.lit ">>> Rebuilding UsrMerge symlinks (/lib -> usr/lib, /lib64 -> usr/lib64)...\n")
  restoreLink nLib (relPath [nUsr, nLib])
  restoreLink nLib64 (relPath [nUsr, nLib64])

/-- Step 7: the two linkers from the ram disk to their three places, and links for the places that
are still empty then. -/
def installLinkers (out : Int) (fuel : Nat) : Sys Unit := do
  print out (.lit ">>> Installing verified Debian dynamic linkers directly onto eMMC storage...\n")
  copyFile out fuel (absPath [nLdLinux]) (mntPath [nUsr, nLib, nArch, nLdLinux])
    "/ld-linux-aarch64.so.1" "/mnt/usr/lib/aarch64-linux-gnu/ld-linux-aarch64.so.1"
  copyFile out fuel (absPath [nLd231]) (mntPath [nUsr, nLib, nArch, nLd231])
    "/ld-2.31.so" "/mnt/usr/lib/aarch64-linux-gnu/ld-2.31.so"
  copyFile out fuel (absPath [nLdLinux]) (mntPath [nUsr, nLib, nLdLinux])
    "/ld-linux-aarch64.so.1" "/mnt/usr/lib/ld-linux-aarch64.so.1"
  let _ ← call (.symlinkat (relPath [nLdLinux]) AT_FDCWD (mntPath [nUsr, nLib, nArch, nLd231]))
  let _ ← call (.symlinkat (relPath [nArch, nLdLinux]) AT_FDCWD (mntPath [nUsr, nLib, nLdLinux]))

def successLine : String :=
  ">>> [SUCCESS]: Dynamic linker is VERIFIED ACCESSIBLE through /lib!\n"

/-- Step 8: can the linker be opened through `/lib`? The answer is printed, and nothing depends on
it. -/
def verifyLinker (out : Int) : Sys Unit := do
  print out (.lit ">>> Verifying /mnt/lib/ld-linux-aarch64.so.1 resolution...\n")
  let tfd ← call (.openat AT_FDCWD (mntPath [nLib, nLdLinux]) O_RDONLY)
  if tfd ≥ 0 then
    print out (.lit successLine)
    let _ ← call (.close tfd)
  else
    print out (.lit ">>> [WARNING]: Could not open dynamic linker through /lib!\n")

def bannerLine : String := "===      REPAIR COMPLETE! SYSTEM RESTORED!           ===\n"

/-- What `_start` says before it goes to sleep for good. -/
def closingLines : List String :=
  ["\n",
    "========================================================\n",
    bannerLine,
    "========================================================\n",
    ">>> Rootfs /dev/mmcblk0p6 is fully repaired and unmounted.\n",
    ">>> Dynamic linker and core libraries are verified in place.\n\n",
    ">>> WHAT TO DO NOW:\n",
    ">>> 1. Unplug the DC power barrel jack.\n",
    ">>> 2. Hold the recovery pin in the 3.5mm AV jack.\n",
    ">>> 3. Reconnect DC power (hold pin for 3s) to enter Loader mode.\n",
    ">>> 4. Lab will now flash the known-good 13:38 kernel!\n",
    "========================================================\n\n"]

/-- Steps 9 and 10 and the closing banner, which is printed whatever has gone wrong before. -/
def finish (out : Int) : Sys Unit := do
  print out (.lit ">>> Syncing all changes to eMMC storage...\n")
  let _ ← call .sync
  print out (.lit ">>> Safely unmounting /mnt...\n")
  let _ ← call (.umount2 (absPath [nMnt]))
  let _ ← call .sync
  printAll out closingLines

/-- Where `_start` ends up sleeping for ever: after a mount that failed, or after the banner. -/
inductive Halt where
  | fatal
  | complete
deriving DecidableEq

/-- What `_start` does once the root file system is mounted, up to step 6. -/
def mergeAll (out : Int) (fuel : Nat) : Sys Unit := do
  print out (.lit ">>> Rootfs mounted successfully!\n\n")
  ensureDirs
  mergePhases out fuel

/-- Steps 6 to 10: what `_start` does after the merges. -/
def rebuild (out : Int) (fuel : Nat) : Sys Unit := do
  restoreSymlinks out
  installLinkers out fuel
  verifyLinker out
  finish out

/-- `_start`. The process never returns, so the value says in which of its two endless loops it
ends. -/
def start (fuel : Nat) : Sys Halt := do
  let out ← openOutput
  let ret ← mountRootfs out
  if ret ≠ 0 then
    printAll out ["FATAL: Failed to mount /dev/mmcblk0p6!\n", ">>> System halted.\n"]
    return .fatal
  else
    mergeAll out fuel
    rebuild out fuel
    return .complete

end Hub11.Recovery
