import Mathlib.Logic.Function.Basic
import Hub11.Effect.Interleave
import Hub11.Scripts.Dist

/-!
`flash-boot.sh`: a FIT is written to `/dev/mmcblk0p3`.

The script runs on lab and works on the box over `ssh`. It streams p3 to a backup file,
compares hashes, pushes the FIT to `/tmp`, compares hashes again, writes p3, reads it back
and reboots. The commands that move bytes do so block by block, and each of them can stop
after any number of bytes, with or without an error. The part that runs on the box under
one `ssh` belongs to the run: a run has ended when that part has.

What is printed is left out, and so is the directory `$BACKUP_DIR` itself. The name of the
FIT is one word for the remote shell. `sha256sum` is a parameter. The device has a fixed
size, and nothing but these scripts writes to it.
-/

namespace Hub11.Scripts.FlashBoot

open Hub11.Effect

abbrev Name := List Char

abbrev Path := List Name

def basename (p : Path) : Name := p.getLast?.getD []

/-- `${l#p}` -/
def stripFront (p l : Name) : Name := if p.isPrefixOf l then l.drop p.length else l

/-- `${l%p}` -/
def stripBack (p l : Name) : Name := if p.isSuffixOf l then l.take (l.length - p.length) else l

/-- `KREL`, as it is read off the name of the FIT. A name of another form is taken as it is, with
what fits cut off. -/
def krel (name : Name) : Name := stripBack ".itb".toList (stripFront "hub11-boot-".toList name)

/-- `$BACKUP_DIR/backup-installed-boot-$TS.fit` -/
def backupPath (backupDir : Path) (ts : Name) : Path :=
  backupDir ++ ["backup-installed-boot-".toList ++ ts ++ ".fit".toList]

/-- `bs=4M` -/
def blockSize : Nat := 4194304

/-- Bytes are written to a file, which may be shorter than the offset. The gap is filled with zeros,
as a sparse file reads. -/
def writeAt (old : Bytes) (off : Nat) (new : Bytes) : Bytes :=
  old.take off ++ List.replicate (off - old.length) 0 ++ new ++ old.drop (off + new.length)

/-- Bytes are written to a device, which keeps its size. What would go over the end is lost. -/
def overwrite (old : Bytes) (off : Nat) (new : Bytes) : Bytes :=
  (old.take off ++ new ++ old.drop (off + new.length)).take old.length

/-- The files on lab, as far as the script looks at them: the FITs it is called with and the backups
it makes. -/
structure Lab where
  /-- The regular files, by their canonical path. -/
  files : Path → Option Bytes
  /-- The `hub11-boot-*.itb` in a directory, in the order of `ls`. -/
  images : Path → Option (List Name)
  /-- `readlink -f` -/
  real : Path → Path

/-- The FIT that an argument stands for: the argument itself, or the first image in it if it is a
directory. -/
def Lab.found (lab : Lab) (arg : Path) : Path :=
  match lab.images arg with
  | some (name :: _) => arg ++ [name]
  | _ => arg

/-- Its canonical path. -/
def Lab.itb (lab : Lab) (arg : Path) : Path := lab.real (lab.found arg)

/-- `/usr/lib/modules/<krel>` -/
structure ModuleDir where
  /-- The modules. -/
  files : Tree
  /-- `modules.dep` is there. -/
  dep : Bool

/-- The box: the partition that is flashed, the files in `/tmp`, and the installed modules. A file
that is removed while it is open keeps its inode. -/
structure Box where
  p3 : Bytes
  /-- The files in `/tmp`, by inode. -/
  tmp : Name → Option Nat
  inodes : Nat → Bytes
  /-- The next free inode. -/
  fresh : Nat
  /-- What the `dd` that writes p3 has opened, or had opened last. -/
  flashing : Option Nat
  modules : Name → ModuleDir

/-- What is remembered of a run: its look at p3, its look at the backup, its first block, its
reboot. Races are told by it. -/
inductive Event where
  /-- `sha256sum /dev/mmcblk0p3` -/
  | measured
  /-- `sha256sum "$BK"`, with the contents of the file. -/
  | hashed (bk : Path) (contents : Bytes)
  /-- The first block is about to go over these contents of p3. -/
  | flashed (p3 : Bytes)
  /-- `systemctl reboot`, with the contents of p3. -/
  | rebooted (p3 : Bytes)

/-- Lab and box together, with what has happened so far. The journal and the past are there for the
statements only; no command reads them. -/
structure Site where
  lab : Lab
  box : Box
  /-- The events of each run. -/
  journal : Nat → List Event
  /-- Every contents that p3 has had. -/
  past : List Bytes

namespace Site

def setFile (s : Site) (p : Path) (b : Bytes) : Site :=
  { s with lab := { s.lab with files := Function.update s.lab.files p (some b) } }

def setInode (s : Site) (i : Nat) (b : Bytes) : Site :=
  { s with box := { s.box with inodes := Function.update s.box.inodes i b } }

def setTmp (s : Site) (name : Name) (i : Option Nat) : Site :=
  { s with box := { s.box with tmp := Function.update s.box.tmp name i } }

def setP3 (s : Site) (b : Bytes) : Site :=
  { s with box := { s.box with p3 := b }, past := b :: s.past }

def log (s : Site) (run : Nat) (e : Event) : Site :=
  { s with journal := Function.update s.journal run (e :: s.journal run) }

end Site

/-- The commands of the script, one for each thing that can go wrong by itself. A copy is a command
for each block that is read and for each that is written. -/
inductive Cmd where
  /-- `[ -d "$ARG" ]` -/
  | isDir (arg : Path)
  /-- `ls "$ARG"/hub11-boot-*.itb | head -1` -/
  | ls (arg : Path)
  | testFile (p : Path)
  | readlink (p : Path)
  | basename (p : Path)
  /-- `stat -c%s` -/
  | stat (p : Path)
  | sha256sum (p : Path)
  | mkdirBackups
  | chmodBackups
  /-- `test -f /usr/lib/modules/$KREL/modules.dep` -/
  | testModulesDep (krel : Name)
  | date
  /-- `> "$BK"` -/
  | openBackup (bk : Path)
  /-- `dd if=/dev/mmcblk0p3`, one block. -/
  | streamP3 (off : Nat)
  | writeBackup (bk : Path) (off : Nat) (block : Bytes)
  | sha256P3
  | sha256Backup (bk : Path)
  /-- `scp` creates or truncates its target. -/
  | openTmp (name : Name)
  | readItb (itb : Path) (off : Nat)
  | writeTmp (ino off : Nat) (block : Bytes)
  | sha256Tmp (name : Name)
  /-- `dd if=/tmp/$NAME of=/dev/mmcblk0p3` -/
  | openFlash (name : Name)
  | readTmp (ino off : Nat)
  | writeP3 (off : Nat) (block : Bytes)
  | sync
  /-- `dd if=/dev/mmcblk0p3 iflag=count_bytes count=$SIZE`, one block. -/
  | readBack (off count : Nat)
  /-- `sha256sum` at the end of a pipe. -/
  | sha256Stdin (input : Bytes)
  | rmTmp (name : Name)
  | sleep
  | reboot

abbrev Reply : Cmd → Type
  | .isDir _ => Bool
  | .ls _ => Name
  | .readlink _ => Path
  | .basename _ => Name
  | .stat _ => Nat
  | .sha256sum _ => Bytes
  | .date => Name
  | .streamP3 _ => Bytes
  | .sha256P3 => Bytes
  | .sha256Backup _ => Bytes
  | .openTmp _ => Nat
  | .readItb _ _ => Bytes
  | .sha256Tmp _ => Bytes
  | .openFlash _ => Nat
  | .readTmp _ _ => Bytes
  | .readBack _ _ => Bytes
  | .sha256Stdin _ => Bytes
  | _ => Unit

/-- What becomes of a command: whether it succeeds, and how much of its work it does. The clock is
chosen here too. -/
structure Fate where
  ok : Bool
  /-- How many bytes get through. A command that fails has done something only if this is
  given. -/
  part : Option Nat
  /-- What `date` prints. -/
  now : Name

namespace Fate

/-- The result of a command, if it succeeds. -/
def done {β : Type} (c : Fate) (b : β) : Option β := if c.ok then some b else none

/-- Does the command do its work? It does if it succeeds, and a command that fails may have done it
all the same. -/
def effect (c : Fate) : Bool := c.ok || c.part.isSome

/-- The block that is read at an offset. It is empty at the end, and where a transfer stops. -/
def block (c : Fate) (source : Bytes) (off : Nat) : Bytes :=
  (source.drop off).take (min (c.part.getD blockSize) blockSize)

/-- What is written of a block: all of it, or as much as gets through before the write fails. -/
def written (c : Fate) (block : Bytes) : Bytes :=
  if c.ok then block else block.take (c.part.getD 0)

end Fate

/-- The commands of one run. They differ from those of another run only in the journal that they
write to. -/
def machine (sha : Bytes → Bytes) (run : Nat) : Chooser Fate Site Cmd fun op => Option (Reply op) :=
  fun c s op =>
    match op with
    | .isDir arg => (s, some (s.lab.images arg).isSome)
    | .ls arg => (s, ((s.lab.images arg).bind List.head?).bind c.done)
    | .testFile p => (s, (s.lab.files (s.lab.real p)).map fun _ => ())
    | .readlink p => (s, c.done (s.lab.real p))
    | .basename p => (s, c.done (FlashBoot.basename p))
    | .stat p => (s, (s.lab.files p).bind fun b => c.done b.length)
    | .sha256sum p => (s, (s.lab.files p).bind fun b => c.done (sha b))
    | .mkdirBackups => (s, c.done ())
    | .chmodBackups => (s, c.done ())
    | .testModulesDep krel => (s, if (s.box.modules krel).dep then c.done () else none)
    | .date => (s, c.done c.now)
    | .openBackup bk => (if c.effect then s.setFile bk [] else s, c.done ())
    | .streamP3 off => (s, c.done (c.block s.box.p3 off))
    | .writeBackup bk off block =>
        (s.setFile bk (writeAt ((s.lab.files bk).getD []) off (c.written block)), c.done ())
    | .sha256P3 => (s.log run .measured, c.done (sha s.box.p3))
    | .sha256Backup bk =>
        match s.lab.files bk with
        | none => (s, none)
        | some b => (s.log run (.hashed bk b), c.done (sha b))
    | .openTmp name =>
        let ino := (s.box.tmp name).getD s.box.fresh
        let s' := (s.setTmp name (some ino)).setInode ino []
        (if c.effect then { s' with box := { s'.box with fresh := s.box.fresh + 1 } } else s,
          c.done ino)
    | .readItb itb off => (s, (s.lab.files itb).bind fun b => c.done (c.block b off))
    | .writeTmp ino off block =>
        (s.setInode ino (writeAt (s.box.inodes ino) off (c.written block)), c.done ())
    | .sha256Tmp name => (s, (s.box.tmp name).bind fun ino => c.done (sha (s.box.inodes ino)))
    | .openFlash name =>
        match s.box.tmp name with
        | none => (s, none)
        | some ino =>
            (if c.ok then { s with box := { s.box with flashing := some ino } } else s, c.done ino)
    | .readTmp ino off => (s, c.done (c.block (s.box.inodes ino) off))
    | .writeP3 off block =>
        let s' := if off = 0 then s.log run (.flashed s.box.p3) else s
        (s'.setP3 (overwrite s.box.p3 off (c.written block)), c.done ())
    | .sync => (s, c.done ())
    | .readBack off count => (s, c.done ((c.block s.box.p3 off).take count))
    | .sha256Stdin input => (s, c.done (sha input))
    | .rmTmp name => (if c.effect then s.setTmp name none else s, c.done ())
    | .sleep => (s, c.done ())
    | .reboot => (s.log run (.rebooted s.box.p3), c.done ())

abbrev Shell := Script Cmd Reply

abbrev must (op : Cmd) : Shell (Reply op) := Script.must op

open Script (attempt check)

/-- A transfer block by block. Every block has at least one byte, so as many blocks as the
device has bytes are enough. -/
def copyBlocks (read : Nat → Shell Bytes) (write : Nat → Bytes → Shell Unit) :
    Nat → Nat → Shell Unit
  | 0, _ => pure ()
  | blocks + 1, off => do
      let block ← read off
      if block = [] then
        pure ()
      else
        write off block
        copyBlocks read write blocks (off + block.length)

/-- The bytes that `dd` hands to `sha256sum`. There is no `pipefail` on the box: if `dd`
fails, what it has read so far is hashed. -/
def readBack (size : Nat) : Nat → Bytes → Shell Bytes
  | 0, got => pure got
  | blocks + 1, got => do
      let block ← attempt (.readBack got.length (size - got.length))
      if block.getD [] = [] then
        pure got
      else
        readBack size blocks (got ++ block.getD [])

/-- The FIT that is meant. -/
def locate (arg : Path) : Shell Path := do
  let dir ← must (.isDir arg)
  if dir then
    let name ← must (.ls arg)
    pure (arg ++ [name])
  else
    pure arg

/-- What the script knows of the FIT: its path, its name, and the size and hash that it took before
anything else. -/
structure Itb where
  path : Path
  name : Name
  size : Nat
  sha : Bytes

/-- Everything up to the size check and the hash. Nothing has been written anywhere by then. -/
def inspect (arg : Path) : Shell Itb := do
  let found ← locate arg
  must (.testFile found)
  let path ← must (.readlink found)
  let name ← must (.basename path)
  let size ← must (.stat path)
  check (size < fitCap)
  let sha ← must (.sha256sum path)
  pure ⟨path, name, size, sha⟩

/-- The first pre-flight check: the modules for this kernel are on the box. The backup directory is
made before it. -/
def checkModules (itb : Itb) : Shell Unit := do
  must .mkdirBackups
  must .chmodBackups
  must (.testModulesDep (krel itb.name))

/-- The second one: p3 is streamed to lab. The redirection empties the file first, and the size and
the hashes are compared when the stream has ended. -/
def backUp (backupDir : Path) : Shell Unit := do
  let ts ← must .date
  let bk := backupPath backupDir ts
  must (.openBackup bk)
  copyBlocks (fun off => must (.streamP3 off)) (fun off block => must (.writeBackup bk off block))
    fitCap 0
  let size ← must (.stat bk)
  check (size = fitCap)
  let devSha ← must .sha256P3
  let bkSha ← must (.sha256Backup bk)
  check (devSha = bkSha)

/-- The third one: the FIT is copied to the box, and the copy is compared with the hash that was
taken on lab. -/
def push (itb : Itb) : Shell Unit := do
  let ino ← must (.openTmp itb.name)
  copyBlocks (fun off => must (.readItb itb.path off)) (fun off block => must (.writeTmp ino off block))
    fitCap 0
  let remoteSha ← must (.sha256Tmp itb.name)
  check (remoteSha = itb.sha)

/-- The part that runs on the box: the copy is written to p3 and read back, and only if the hash is
right the box is told to reboot. -/
def flash (itb : Itb) : Shell Unit := do
  let ino ← must (.openFlash itb.name)
  copyBlocks (fun off => must (.readTmp ino off)) (fun off block => must (.writeP3 off block)) fitCap 0
  must .sync
  let got ← readBack itb.size fitCap []
  let rb ← must (.sha256Stdin got)
  check (rb = itb.sha)
  must (.rmTmp itb.name)
  must .sleep
  must .reboot

/-- `flash-boot.sh`: the checks, then the write. The first command that fails ends it. -/
def flashBoot (backupDir arg : Path) : Shell Unit := do
  let itb ← inspect arg
  checkModules itb
  backUp backupDir
  push itb
  flash itb

/-! ### What is written -/

/-- The new bytes up to an offset, and the old ones from there on: what p3 holds while it is being
written. -/
def mixed (new old : Bytes) (off : Nat) : Bytes := new.take off ++ old.drop off

@[simp] theorem mixed_zero (new old : Bytes) : mixed new old 0 = old := rfl

theorem length_mixed {new old : Bytes} {off : Nat} (hoff : off ≤ new.length)
    (h : new.length ≤ old.length) : (mixed new old off).length = old.length := by
  rw [mixed, List.length_append, List.length_take, List.length_drop]
  omega

theorem take_append_block {source block : Bytes} {off : Nat} (hblock : block <+: source.drop off) :
    source.take off ++ block = source.take (off + block.length) := by
  rw [List.take_add, ← List.prefix_iff_eq_take.mp hblock]

theorem add_length_le {source block : Bytes} {off : Nat} (hoff : off ≤ source.length)
    (hblock : block <+: source.drop off) : off + block.length ≤ source.length := by
  have := hblock.length_le
  rw [List.length_drop] at this
  omega

/-- A copy that has come to an offset takes the next bytes. -/
theorem writeAt_take {source block : Bytes} {off : Nat} (hoff : off ≤ source.length)
    (hblock : block <+: source.drop off) :
    writeAt (source.take off) off block = source.take (off + block.length) := by
  have hlen : (source.take off).length = off := List.length_take_of_le hoff
  have hrest : (source.take off).drop (off + block.length) = [] :=
    List.drop_of_length_le (by omega)
  unfold writeAt
  rw [hrest, hlen, Nat.sub_self, List.replicate_zero, List.append_nil, List.append_nil, List.take_take,
    Nat.min_self, take_append_block hblock]

/-- A device over which the new bytes have come to an offset takes the next ones. -/
theorem overwrite_mixed {new old block : Bytes} {off : Nat} (hoff : off ≤ new.length)
    (h : new.length ≤ old.length) (hblock : block <+: new.drop off) :
    overwrite (mixed new old off) off block = mixed new old (off + block.length) := by
  have hlen : (new.take off).length = off := List.length_take_of_le hoff
  have hold : (mixed new old off).drop (off + block.length) = old.drop (off + block.length) := by
    rw [mixed, ← List.drop_drop, List.drop_left' hlen, List.drop_drop]
  have hsize : (mixed new old (off + block.length)).length = (mixed new old off).length := by
    rw [length_mixed (add_length_le hoff hblock) h, length_mixed hoff h]
  unfold overwrite
  rw [hold, mixed, List.take_left' hlen, take_append_block hblock]
  exact List.take_of_length_le (Nat.le_of_eq hsize)

theorem Fate.block_isPrefix (c : Fate) (source : Bytes) (off : Nat) :
    c.block source off <+: source.drop off :=
  List.take_prefix _ _

theorem Fate.written_isPrefix (c : Fate) (block : Bytes) : c.written block <+: block := by
  unfold written
  split
  · exact List.prefix_rfl
  · exact List.take_prefix _ _

theorem Fate.done_eq_some {β : Type} {c : Fate} {a b : β} : c.done b = some a ↔ c.ok = true ∧ b = a := by
  unfold done
  split <;> simp_all

theorem Fate.done_cases {β : Type} (c : Fate) (b : β) :
    (c.ok = true ∧ c.done b = some b) ∨ (c.ok = false ∧ c.done b = none) := by
  unfold done
  cases c.ok <;> simp

/-! ### Rules for the commands -/

/-- The commands that leave everything as it is. -/
def Cmd.Quiet : Cmd → Prop
  | .openBackup _ => False
  | .writeBackup _ _ _ => False
  | .sha256P3 => False
  | .sha256Backup _ => False
  | .openTmp _ => False
  | .writeTmp _ _ _ => False
  | .openFlash _ => False
  | .writeP3 _ _ => False
  | .rmTmp _ => False
  | .reboot => False
  | _ => True

theorem machine_quiet {sha : Bytes → Bytes} {run : Nat} (c : Fate) (s : Site) (op : Cmd)
    (hop : op.Quiet) : (machine sha run c s op).1 = s := by
  cases op with
  | openBackup => exact hop.elim
  | writeBackup => exact hop.elim
  | sha256P3 => exact hop.elim
  | sha256Backup => exact hop.elim
  | openTmp => exact hop.elim
  | writeTmp => exact hop.elim
  | openFlash => exact hop.elim
  | writeP3 => exact hop.elim
  | rmTmp => exact hop.elim
  | reboot => exact hop.elim
  | _ => rfl

/-- The commands that do not write p3. -/
def Cmd.SparesP3 : Cmd → Prop
  | .writeP3 _ _ => False
  | _ => True

/-- The commands that are remembered. -/
def Cmd.Notes : Cmd → Prop
  | .sha256P3 => True
  | .sha256Backup _ => True
  | .reboot => True
  | _ => False

/-- What a command can do, by the parts of the site that change. There is one case for each of them,
so that an invariant is shown for a few changes and not for all commands. -/
inductive Change (run : Nat) (s : Site) : Cmd → Site → Prop where
  | nothing {op : Cmd} : Change run s op s
  | opened (bk : Path) (b : Bytes) : Change run s (.openBackup bk) (s.setFile bk b)
  | stored (bk : Path) (off : Nat) (block b : Bytes) :
      Change run s (.writeBackup bk off block) (s.setFile bk b)
  | noted {op : Cmd} (hop : op.Notes) (e : Event) (he : ∀ P, e ≠ .flashed P) :
      Change run s op (s.log run e)
  /-- Something in `/tmp` on the box. -/
  | boxed {op : Cmd} (box : Box) (hp3 : box.p3 = s.box.p3) : Change run s op { s with box := box }
  | first (block b : Bytes) :
      Change run s (.writeP3 0 block) ((s.log run (.flashed s.box.p3)).setP3 b)
  | later {off : Nat} (block b : Bytes) (hoff : off ≠ 0) :
      Change run s (.writeP3 off block) (s.setP3 b)

theorem machine_change {sha : Bytes → Bytes} {run : Nat} (c : Fate) (s : Site) (op : Cmd) :
    Change run s op (machine sha run c s op).1 := by
  cases op with
  | openBackup bk =>
      simp only [machine]
      split
      · exact .opened bk []
      · exact .nothing
  | writeBackup bk off block => exact .stored bk off block _
  | sha256P3 => exact .noted (show Cmd.Notes .sha256P3 from trivial) _ nofun
  | sha256Backup bk =>
      simp only [machine]
      split
      · exact .nothing
      · exact .noted (show Cmd.Notes (.sha256Backup bk) from trivial) _ nofun
  | openTmp name =>
      simp only [machine]
      split
      · exact .boxed _ rfl
      · exact .nothing
  | writeTmp ino off block => exact .boxed _ rfl
  | openFlash name =>
      simp only [machine]
      split
      · exact .nothing
      · dsimp only
        split
        · exact .boxed _ rfl
        · exact .nothing
  | writeP3 off block =>
      simp only [machine]
      split
      · rename_i hoff
        subst hoff
        exact .first block _
      · rename_i hoff
        exact .later block _ hoff
  | rmTmp name =>
      simp only [machine]
      split
      · exact .boxed _ rfl
      · exact .nothing
  | reboot => exact .noted (show Cmd.Notes .reboot from trivial) _ nofun
  | _ => exact .nothing

section Rules

variable {γ : Type} {M : Chooser γ Site Cmd fun op => Option (Reply op)} {G : Guard γ Site Cmd}
  {J : Site → Prop} {s : Site}

/-- The rule for a copy by blocks: an invariant over the offset, which each block keeps and a short
read ends. -/
theorem always_copyBlocks {read : Nat → Shell Bytes} {write : Nat → Bytes → Shell Unit}
    {K : Nat → Nat → Site → Prop} {Q : Option Unit → Site → Prop}
    (hJ : ∀ n off t, K n off t → J t) (hzero : ∀ off t, K 0 off t → Q (some ()) t)
    (hread : ∀ n off t, K (n + 1) off t → (read off).run.Always M G J (fun r u => match r with
      | none => Q none u
      | some block => (block = [] → Q (some ()) u) ∧
          (block ≠ [] → (write off block).run.Always M G J (fun r v => match r with
            | none => Q none v
            | some _ => K n (off + block.length) v) u)) t)
    {n off : Nat} (hK : K n off s) : (copyBlocks read write n off).run.Always M G J Q s := by
  induction n generalizing off s with
  | zero => exact ⟨hJ 0 off s hK, hzero off s hK⟩
  | succ n ih =>
      refine Script.always_bind ((hread n off s hK).mono fun r t hJt hr => ?_)
      cases r with
      | none => exact hr
      | some block =>
          dsimp only at hr ⊢
          by_cases hblock : block = []
          · rw [if_pos hblock]
            exact ⟨hJt, hr.1 hblock⟩
          · rw [if_neg hblock]
            refine Script.always_bind ((hr.2 hblock).mono fun r u _ hr => ?_)
            cases r with
            | none => exact hr
            | some _ => exact ih hr

theorem issues_copyBlocks {P : Cmd → Prop} {read : Nat → Shell Bytes} {write : Nat → Bytes → Shell Unit}
    (hread : ∀ off, (read off).run.Issues P) (hwrite : ∀ off block, (write off block).run.Issues P)
    (n off : Nat) : (copyBlocks read write n off).run.Issues P := by
  induction n generalizing off with
  | zero => trivial
  | succ n ih =>
      refine Script.issues_bind (hread off) fun block => ?_
      split
      · trivial
      · exact Script.issues_bind (hwrite off block) fun _ => ih _

theorem issues_readBack {P : Cmd → Prop} (hread : ∀ off count, P (.readBack off count)) (size n : Nat)
    (got : Bytes) : (readBack size n got).run.Issues P := by
  induction n generalizing got with
  | zero => trivial
  | succ n ih =>
      refine Script.issues_attempt (hread _ _) fun block => ?_
      split
      · trivial
      · exact ih _

/-- The commands that leave p3, the backups and the journal alone. -/
def Cmd.Light : Cmd → Prop
  | .openBackup _ => False
  | .writeBackup _ _ _ => False
  | .writeP3 _ _ => False
  | .sha256P3 => False
  | .sha256Backup _ => False
  | .reboot => False
  | _ => True

theorem inspect_light (arg : Path) : (inspect arg).run.Issues Cmd.Light := by
  refine Script.issues_bind ?_ fun found => ?_
  · refine Script.issues_must trivial fun dir => ?_
    split
    · exact Script.issues_must trivial fun name => trivial
    · trivial
  · refine Script.issues_must trivial fun _ => Script.issues_must trivial fun path => ?_
    refine Script.issues_must trivial fun name => Script.issues_must trivial fun size => ?_
    exact Script.issues_check (Script.issues_must trivial fun digest => trivial)

theorem checkModules_light (itb : Itb) : (checkModules itb).run.Issues Cmd.Light := by
  refine Script.issues_must trivial fun _ => Script.issues_must trivial fun _ => ?_
  exact ⟨trivial, fun _ => trivial⟩

theorem push_light (itb : Itb) : (push itb).run.Issues Cmd.Light := by
  refine Script.issues_must trivial fun ino => Script.issues_bind ?_ fun _ => ?_
  · refine issues_copyBlocks ?_ ?_ _ _
    · exact fun _ => ⟨trivial, fun _ => trivial⟩
    · exact fun _ _ => ⟨trivial, fun _ => trivial⟩
  · exact Script.issues_must trivial fun digest => Script.issues_last _

end Rules

section Inspect

variable {sha : Bytes → Bytes} {run : Nat} {R : Site → Site → Prop} {G : Guard Fate Site Cmd}
  {J K : Site → Prop} {s : Site}

/-- A command that writes nothing keeps a condition that the others keep too. -/
theorem always_quiet {α : Type} {Q : Option α → Site → Prop} {op : Cmd} {f : Reply op → Shell α}
    (hop : op.Quiet) (hR : ∀ s t, K s → R s t → K t) (hJ : ∀ t, K t → J t)
    (hfail : ∀ t, K t → Q none t) (hK : K s)
    (hok : ∀ c t b, K t → (machine sha run c t op).2 = some b →
      (f b).run.Always (disturbed (machine sha run)) (Disturbs R G) J Q t) :
    (must op >>= f).run.Always (disturbed (machine sha run)) (Disturbs R G) J Q s := by
  refine Script.always_must (hJ s hK) (fun c hc _ => ?_) fun c b hc hb => ?_
  · have hstay : (disturbed (machine sha run) c s op).1 = c.2 := machine_quiet c.1 c.2 op hop
    rw [hstay]
    exact ⟨hJ _ (hR s c.2 hK hc.1), hfail _ (hR s c.2 hK hc.1)⟩
  · have hstay : (disturbed (machine sha run) c s op).1 = c.2 := machine_quiet c.1 c.2 op hop
    rw [hstay]
    exact hok c.1 c.2 b (hR s c.2 hK hc.1) hb

theorem locate_always {lab : Lab} {arg : Path} (hR : ∀ s t, K s → R s t → K t)
    (hJ : ∀ t, K t → J t) (hlab : ∀ t, K t → t.lab.images = lab.images) (hK : K s) :
    (locate arg).run.Always (disturbed (machine sha run)) (Disturbs R G) J
      (fun r t => K t ∧ ∀ p, r = some p → p = lab.found arg) s := by
  have hfail : ∀ t, K t → K t ∧ ∀ p, (none : Option Path) = some p → p = lab.found arg :=
    fun t ht => ⟨ht, fun p hp => by cases hp⟩
  refine always_quiet trivial hR hJ hfail hK fun c t dir ht hdir => ?_
  have hdir : (lab.images arg).isSome = dir := by
    rw [← hlab t ht]
    exact Option.some.inj hdir
  cases himages : lab.images arg with
  | none =>
      rw [himages] at hdir
      subst hdir
      refine ⟨hJ t ht, ht, fun p hp => ?_⟩
      cases hp
      rw [Lab.found, himages]
  | some names =>
      rw [himages] at hdir
      subst hdir
      refine always_quiet trivial hR hJ hfail ht fun c u name hu hname => ?_
      refine ⟨hJ u hu, hu, fun p hp => ?_⟩
      cases hp
      have hname : (((u.lab.images arg).bind List.head?).bind c.done) = some name := hname
      rw [hlab u hu, himages, Option.bind_some] at hname
      cases names with
      | nil => cases hname
      | cons first rest =>
          obtain ⟨-, rfl⟩ := Fate.done_eq_some.mp hname
          rw [Lab.found, himages]

/-- What the script finds out about the FIT. -/
def Itb.of (sha : Bytes → Bytes) (path : Path) (F : Bytes) : Itb :=
  ⟨path, FlashBoot.basename path, F.length, sha F⟩

/-- The first part finds out what the FIT is, and keeps a condition that the others keep. -/
theorem inspect_always {lab : Lab} {arg : Path} {F : Bytes} (hR : ∀ s t, K s → R s t → K t)
    (hJ : ∀ t, K t → J t)
    (hlab : ∀ t, K t → t.lab.images = lab.images ∧ t.lab.real = lab.real ∧
      t.lab.files (lab.itb arg) = some F) (hK : K s) :
    (inspect arg).run.Always (disturbed (machine sha run)) (Disturbs R G) J
      (fun r t => K t ∧ ∀ itb, r = some itb → F.length < fitCap ∧ itb = .of sha (lab.itb arg) F) s := by
  have hfail : ∀ t, K t → K t ∧ ∀ itb, (none : Option Itb) = some itb →
      F.length < fitCap ∧ itb = .of sha (lab.itb arg) F :=
    fun t ht => ⟨ht, fun itb hitb => by cases hitb⟩
  refine Script.always_bind ((locate_always hR hJ (fun t ht => (hlab t ht).1) hK).mono ?_)
  rintro (_ | found) t - ⟨ht, hfound⟩
  · exact hfail t ht
  obtain rfl := hfound found rfl
  refine always_quiet trivial hR hJ hfail ht fun _ t _ ht _ => ?_
  refine always_quiet trivial hR hJ hfail ht fun c t path ht hpath => ?_
  obtain ⟨-, rfl⟩ := Fate.done_eq_some.mp hpath
  rw [(hlab t ht).2.1]
  refine always_quiet trivial hR hJ hfail ht fun c t name ht hname => ?_
  obtain ⟨-, rfl⟩ := Fate.done_eq_some.mp hname
  refine always_quiet trivial hR hJ hfail ht fun c t size ht hsize => ?_
  have hsize : (t.lab.files (lab.itb arg)).bind (fun b => c.done b.length) = some size := hsize
  rw [(hlab t ht).2.2] at hsize
  obtain ⟨-, rfl⟩ := Fate.done_eq_some.mp hsize
  refine Script.always_check (hJ t ht) (fun _ => hfail t ht) fun hcap => ?_
  refine always_quiet trivial hR hJ hfail ht fun c t digest ht hdigest => ?_
  have hdigest : (t.lab.files (lab.itb arg)).bind (fun b => c.done (sha b)) = some digest := hdigest
  rw [(hlab t ht).2.2] at hdigest
  obtain ⟨-, rfl⟩ := Fate.done_eq_some.mp hdigest
  refine ⟨hJ t ht, ht, fun itb hitb => ?_⟩
  cases hitb
  exact ⟨hcap, rfl⟩

/-- The second part finds the modules on the box. -/
theorem checkModules_always {itb : Itb} (hR : ∀ s t, K s → R s t → K t) (hJ : ∀ t, K t → J t)
    (hK : K s) :
    (checkModules itb).run.Always (disturbed (machine sha run)) (Disturbs R G) J
      (fun r t => K t ∧ (r = some () → ∃ u, K u ∧ (u.box.modules (krel itb.name)).dep = true)) s := by
  have hfail : ∀ t, K t → K t ∧ ((none : Option Unit) = some () →
      ∃ u, K u ∧ (u.box.modules (krel itb.name)).dep = true) :=
    fun t ht => ⟨ht, fun h => by cases h⟩
  refine always_quiet trivial hR hJ hfail hK fun _ t _ ht _ => ?_
  refine always_quiet trivial hR hJ hfail ht fun _ t _ ht _ => ?_
  refine ⟨hJ t ht, fun c hc => ?_⟩
  have hu : K c.2 := hR t c.2 ht hc.1
  change Prog.Always _ _ _ _ (.ret (if (c.2.box.modules (krel itb.name)).dep then _ else none)) c.2
  refine ⟨hJ _ hu, hu, fun h => ⟨c.2, hu, ?_⟩⟩
  by_contra hdep
  rw [if_neg hdep] at h
  cases h

/-- What is read back is a part of p3, and no more than was asked for. -/
theorem readBack_always {size n : Nat} {q got : Bytes} (hR : ∀ s t, K s → R s t → K t)
    (hJ : ∀ t, K t → J t) (hp3 : ∀ t, K t → t.box.p3 = q) (hgot : got <+: q)
    (hsize : got.length ≤ size) (hK : K s) :
    (readBack size n got).run.Always (disturbed (machine sha run)) (Disturbs R G) J
      (fun r t => K t ∧ ∃ got, r = some got ∧ got <+: q ∧ got.length ≤ size) s := by
  induction n generalizing got s with
  | zero => exact ⟨hJ s hK, hK, got, rfl, hgot, hsize⟩
  | succ n ih =>
      refine Script.always_attempt (hJ s hK) fun c hc => ?_
      have ht : K c.2 := hR s c.2 hK hc.1
      have hreply : (disturbed (machine sha run) c s (.readBack got.length (size - got.length))).2 =
          c.1.done ((c.1.block q got.length).take (size - got.length)) := by
        rw [← hp3 c.2 ht]
        rfl
      rw [hreply]
      generalize hblock : (c.1.done ((c.1.block q got.length).take (size - got.length))).getD [] = block
      have hread : block <+: (c.1.block q got.length).take (size - got.length) := by
        rw [← hblock, Fate.done]
        split
        · exact List.prefix_rfl
        · exact List.nil_prefix
      have hnext : block <+: q.drop got.length :=
        (hread.trans (List.take_prefix _ _)).trans (c.1.block_isPrefix q got.length)
      change Prog.Always _ _ _ _ (OptionT.run (if _ then _ else _)) c.2
      split
      · exact ⟨hJ _ ht, ht, got, rfl, hgot, hsize⟩
      · refine ih ?_ ?_ ht
        · rw [List.prefix_iff_eq_take.mp hgot, take_append_block hnext]
          exact List.take_prefix _ _
        · have := Nat.le_trans hread.length_le (List.length_take_le _ _)
          rw [List.length_append]
          omega

end Inspect

/-! ### Undisturbed runs -/

@[simp] theorem Site.setFile_files (s : Site) (p : Path) (b : Bytes) :
    (s.setFile p b).lab.files p = some b :=
  Function.update_self _ _ _

@[simp] theorem Site.setFile_setFile (s : Site) (p : Path) (b b' : Bytes) :
    (s.setFile p b).setFile p b' = s.setFile p b' := by
  simp [setFile]

theorem Site.log_journal (s : Site) (run : Nat) (e : Event) :
    (s.log run e).journal run = e :: s.journal run :=
  Function.update_self _ _ _

/-- What is in the journals after an event. -/
theorem Site.mem_log {s : Site} {run j : Nat} {e f : Event} (h : f ∈ (s.log run e).journal j) :
    f = e ∨ f ∈ s.journal j := by
  have h : f ∈ Function.update s.journal run (e :: s.journal run) j := h
  by_cases hj : j = run
  · subst hj
    rw [Function.update_self] at h
    exact List.mem_cons.mp h
  · rw [Function.update_of_ne hj] at h
    exact .inr h

section Undisturbed

variable {sha : Bytes → Bytes} {run : Nat} {G : Guard Fate Site Cmd} {J : Site → Prop} {s : Site}

theorem machine_sha256Backup (c : Fate) {bk : Path} {b : Bytes} (h : s.lab.files bk = some b) :
    machine sha run c s (.sha256Backup bk) = (s.log run (.hashed bk b), c.done (sha b)) := by
  simp only [machine, h]

theorem always_still {α : Type} {Q : Option α → Site → Prop} {op : Cmd} {f : Reply op → Shell α}
    (hop : op.Quiet) (hJ : J s) (hfail : Q none s)
    (hok : ∀ c b, G c s op → (machine sha run c s op).2 = some b →
      (f b).run.Always (machine sha run) G J Q s) :
    (must op >>= f).run.Always (machine sha run) G J Q s := by
  refine Script.always_must hJ (fun c _ _ => ?_) fun c b hc hb => ?_
  · rw [machine_quiet c s op hop]
    exact ⟨hJ, hfail⟩
  · rw [machine_quiet c s op hop]
    exact hok c b hc hb

/-- What the first part finds out, when nobody interferes. -/
theorem inspect_still {arg : Path} {F : Bytes} (hF : s.lab.files (s.lab.itb arg) = some F) (hJ : J s) :
    (inspect arg).run.Always (machine sha run) G J
      (fun r t => t = s ∧ ∀ itb, r = some itb →
        F.length < fitCap ∧ itb = .of sha (s.lab.itb arg) F) s := by
  refine Prog.Always.of_disturbed (R := Eq) (fun _ => rfl) (inspect_always (K := fun t => t = s) ?_ ?_ ?_ rfl)
  · rintro t u rfl rfl
    rfl
  · rintro t rfl
    exact hJ
  · rintro t rfl
    exact ⟨rfl, rfl, hF⟩

theorem checkModules_still {itb : Itb} (hJ : J s) :
    (checkModules itb).run.Always (machine sha run) G J
      (fun r t => t = s ∧ (r = some () → (s.box.modules (krel itb.name)).dep = true)) s := by
  refine (Prog.Always.of_disturbed (R := Eq) (fun _ => rfl)
    (checkModules_always (K := fun t => t = s) ?_ ?_ rfl)).mono ?_
  · rintro t u rfl rfl
    rfl
  · rintro t rfl
    exact hJ
  · rintro r t - ⟨rfl, hdep⟩
    refine ⟨rfl, fun hr => ?_⟩
    obtain ⟨u, rfl, hu⟩ := hdep hr
    exact hu

theorem readBack_still {size n : Nat} (hJ : J s) :
    (readBack size n []).run.Always (machine sha run) G J
      (fun r t => t = s ∧ ∃ got, r = some got ∧ got <+: s.box.p3 ∧ got.length ≤ size) s := by
  refine Prog.Always.of_disturbed (R := Eq) (fun _ => rfl)
    (readBack_always (K := fun t => t = s) ?_ ?_ ?_ List.nil_prefix (Nat.zero_le _) rfl)
  · rintro t u rfl rfl
    rfl
  · rintro t rfl
    exact hJ
  · rintro t rfl
    rfl

/-- While p3 is streamed to lab, the file holds a beginning of it. -/
theorem stream_always {bk : Path} {P : Bytes} (hp3 : s.box.p3 = P) (hsize : P.length = fitCap)
    (hJ : ∀ k, J (s.setFile bk (P.take k))) (Complete : Prop)
    (hread : Complete → ∀ c t off, G c t (.streamP3 off) → off < t.box.p3.length →
      c.ok = true ∧ c.block t.box.p3 off ≠ [])
    (hwrite : Complete → ∀ c t off b, G c t (.writeBackup bk off b) →
      c.written b = b ∧ (off + b.length < t.box.p3.length → c.ok = true)) :
    (copyBlocks (fun off => must (.streamP3 off)) (fun off block => must (.writeBackup bk off block))
      fitCap 0).run.Always (machine sha run) G J
      (fun _ t => ∃ k, t = s.setFile bk (P.take k) ∧ (Complete → P.length ≤ k))
      (s.setFile bk []) := by
  refine always_copyBlocks (K := fun n off t => off ≤ P.length ∧ P.length ≤ off + n ∧
      t = s.setFile bk (P.take off)) ?_ ?_ ?_ ⟨Nat.zero_le _, by omega, by simp⟩
  · rintro n off t ⟨-, -, rfl⟩
    exact hJ off
  · rintro off t ⟨-, hend, rfl⟩
    exact ⟨off, rfl, fun _ => hend⟩
  rintro n off t ⟨hoff, hend, rfl⟩
  refine Script.always_command (hJ off) fun c hc => ?_
  have hstream : machine sha run c (s.setFile bk (P.take off)) (.streamP3 off) =
      (s.setFile bk (P.take off), c.done (c.block P off)) := by
    rw [← hp3]
    rfl
  have hkept : Complete → off < P.length → c.ok = true ∧ c.block P off ≠ [] := by
    intro h hlt
    have hstep := hread h c _ off hc
    rw [show (s.setFile bk (P.take off)).box.p3 = P from hp3] at hstep
    exact hstep hlt
  rw [hstream]
  refine ⟨hJ off, ?_⟩
  rcases c.done_cases (c.block P off) with ⟨hok, hdone⟩ | ⟨hok, hdone⟩ <;> rw [hdone]
  · refine ⟨fun hempty => ⟨off, rfl, fun h => ?_⟩, fun hne => ?_⟩
    · by_contra hlt
      exact (hkept h (by omega)).2 hempty
    refine Script.always_command (hJ off) fun d hd => ?_
    have hpart := (d.written_isPrefix (c.block P off)).trans (c.block_isPrefix P off)
    have hstore : machine sha run d (s.setFile bk (P.take off)) (.writeBackup bk off (c.block P off)) =
        (s.setFile bk (P.take (off + (d.written (c.block P off)).length)), d.done ()) := by
      simp only [machine, Site.setFile_files, Option.getD_some, Site.setFile_setFile,
        writeAt_take hoff hpart]
    rw [hstore]
    refine ⟨hJ _, ?_⟩
    rcases d.done_cases () with ⟨hok, hdone⟩ | ⟨hok, hdone⟩ <;> rw [hdone]
    · have hall : d.written (c.block P off) = c.block P off := if_pos hok
      have hpos := List.length_pos_iff.mpr hne
      rw [hall] at hpart ⊢
      exact ⟨add_length_le hoff hpart, by omega, rfl⟩
    · refine ⟨_, rfl, fun h => ?_⟩
      obtain ⟨hall, hlast⟩ := hwrite h d _ _ _ hd
      rw [show (s.setFile bk (P.take off)).box.p3 = P from hp3, hok] at hlast
      rw [hall]
      by_contra hlt
      cases hlast (by omega)
  · refine ⟨off, rfl, fun h => ?_⟩
    by_contra hlt
    rw [(hkept h (by omega)).1] at hok
    cases hok

end Undisturbed

end Hub11.Scripts.FlashBoot
