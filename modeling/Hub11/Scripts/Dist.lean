import Mathlib.Logic.Function.Basic
import Hub11.Effect.Script

/-!
A dist directory and the commands that fill it.

Only files are modelled. A file has its contents and the number of the run that wrote it.
The tools (`tar`, `zstd`, `mkimage`, `sha256sum`) are functions of what they read; what
they compute is a parameter. A command that fails may leave anything in the files it was
about to write.
-/

namespace Hub11.Scripts

abbrev Bytes := List UInt8

abbrev RelPath := List String

/-- The files of a directory, by their path below it. -/
abbrev Tree := RelPath → Option Bytes

/-- The contents of `include/config/kernel.release`, which is part of file names. -/
structure Release where
  name : String
  nonempty : name ≠ ""
  slashless : '/' ∉ name.toList
deriving DecidableEq

/-- The names in a dist directory. -/
inductive Item where
  /-- `Image` -/
  | image
  /-- `resource.img` -/
  | resourceImg
  /-- `vendor.dtb` -/
  | vendorDtb
  /-- A device tree under its own name. -/
  | boardDtb (name : String)
  /-- `hub11-boot.its` -/
  | its
  /-- `KREL` -/
  | krel
  /-- `DTB` -/
  | dtb
  /-- `firmware/…` -/
  | firmware (path : RelPath)
  /-- `modules/…`, where the modules are installed before they are packed. -/
  | modules (path : RelPath)
  /-- `modules.tar` -/
  | modulesTar
  /-- `modules.tar.zst` -/
  | modulesTarZst
  /-- `hub11-boot-<krel>.itb` -/
  | itb (release : Release)
  /-- `SHA256SUMS` -/
  | sha256sums
deriving DecidableEq

/-- What is in a file. `SHA256SUMS` is read as the digest it lists for each name, and every other
file is bytes. -/
inductive Data where
  | blob (bytes : Bytes)
  | sums (digest : Item → Option Bytes)

/-- A file with the run that wrote it last. The number is there to say that files belong together;
no command reads it. -/
structure File where
  data : Data
  /-- The run that wrote it. -/
  origin : Nat

abbrev Dir := Item → Option File

/-- The programs the scripts call, as functions of what they read. Whether they succeed is not up to
them but a choice. -/
structure Tools where
  /-- An archive of a tree, rooted at the release. -/
  tar : Release → Tree → Bytes
  zstd : Bytes → Bytes
  /-- The FIT of an image source with its kernel, its device tree and its resources. -/
  mkimage : Bytes → Bytes → Bytes → Bytes → Option Bytes
  sha256 : Bytes → Bytes

namespace Dir

def blob (D : Dir) (i : Item) : Option Bytes :=
  match D i with
  | some ⟨.blob bytes, _⟩ => some bytes
  | _ => none

/-- The digests listed in `SHA256SUMS`. -/
def listed (D : Dir) (i : Item) : Option Bytes :=
  match D .sha256sums with
  | some ⟨.sums digest, _⟩ => digest i
  | _ => none

/-- Files written by a run over those that were there. What is not written stays, with the run that
wrote it. -/
def write (D : Dir) (run : Nat) (new : Item → Option Data) : Dir := fun i =>
  match new i with
  | some data => some ⟨data, run⟩
  | none => D i

def remove (D : Dir) (doomed : Item → Bool) : Dir := fun i => if doomed i then none else D i

/-- The installed modules of one release. -/
def modulesOf (D : Dir) (release : Release) : Tree := fun p =>
  D.blob (.modules ("lib" :: "modules" :: release.name :: p))

end Dir

/-- One file. -/
def single (target : Item) (data : Data) : Item → Option Data := fun i =>
  if i = target then some data else none

/-- A line of text. -/
def line (s : String) : Bytes := s.toUTF8.toList ++ [10]

/-- The cap of the partition the FIT goes to. -/
def fitCap : Nat := 67108864

def Item.inModules : Item → Bool
  | .modules _ => true
  | _ => false

/-- The commands, inside the directory. A command reads its sources when it runs, so a missing
source is a failure. -/
inductive DirCmd where
  /-- `mkdir -p` of a directory below. -/
  | mkdir
  /-- `cp`; the source may be missing. -/
  | cp (source : Option Bytes) (target : Item)
  /-- `echo … > target` -/
  | echo (text : Bytes) (target : Item)
  /-- `cp -r` to a directory below `firmware/`. -/
  | cpFirmware (source : Option Tree) (top : RelPath)
  /-- `rm -rf` -/
  | rm (doomed : Item → Bool)
  /-- `make … modules_install` with `modules/` as `INSTALL_MOD_PATH`. -/
  | modulesInstall (modules : Option Tree)
  /-- `test -f` -/
  | testFile (i : Item)
  /-- `tar -cf modules.tar` of the installed modules. -/
  | tar (release : Release)
  /-- `zstd modules.tar -o modules.tar.zst` -/
  | zstd
  /-- `tar -cf - … | zstd -o modules.tar.zst` -/
  | tarZstd (release : Release)
  | mkimage (release : Release)
  /-- `stat -c%s` -/
  | stat (i : Item)
  /-- `sha256sum … > SHA256SUMS` -/
  | sha256sum (items : List Item)
  /-- `find firmware -type f … | xargs sha256sum >> SHA256SUMS` -/
  | sha256sumFirmware
  | cat

namespace DirCmd

abbrev Reply : DirCmd → Type
  | .stat _ => Nat
  | _ => Unit

/-- The files a command writes or removes. A command that fails may leave anything there, and
nothing elsewhere. -/
def writes : DirCmd → Item → Bool
  | .cp _ target, i => i = target
  | .echo _ target, i => i = target
  | .cpFirmware _ _, .firmware _ => true
  | .rm doomed, i => doomed i
  | .modulesInstall _, .modules _ => true
  | .tar _, .modulesTar => true
  | .zstd, .modulesTarZst => true
  | .tarZstd _, .modulesTarZst => true
  | .mkimage release, i => i = .itb release
  | .sha256sum _, .sha256sums => true
  | .sha256sumFirmware, .sha256sums => true
  | _, _ => false

/-- The files `cp -r` writes below `firmware/`. -/
def firmwareBelow (tree : Tree) (top : RelPath) : Item → Option Data
  | .firmware p => if top <+: p then (tree (p.drop top.length)).map .blob else none
  | _ => none

def installed (tree : Tree) : Item → Option Data
  | .modules p => (tree p).map .blob
  | _ => none

/-- The lines of `sha256sum` for the firmware, after the lines that are there. -/
def firmwareSums (tools : Tools) (D : Dir) : Item → Option Bytes
  | .firmware p => ((D.blob (.firmware p)).map tools.sha256).or (D.listed (.firmware p))
  | i => D.listed i

/-- What the command does when it succeeds. -/
def effect (tools : Tools) (run : Nat) : (c : DirCmd) → Dir → Option (Dir × c.Reply)
  | .mkdir, D => some (D, ())
  | .cp source target, D => do
      let bytes ← source
      some (D.write run (single target (.blob bytes)), ())
  | .echo text target, D => some (D.write run (single target (.blob text)), ())
  | .cpFirmware source top, D => do
      let tree ← source
      some (D.write run (firmwareBelow tree top), ())
  | .rm doomed, D => some (D.remove doomed, ())
  | .modulesInstall modules, D => do
      let tree ← modules
      some (D.write run (installed tree), ())
  | .testFile i, D => if (D i).isSome then some (D, ()) else none
  | .tar release, D =>
      some (D.write run (single .modulesTar (.blob (tools.tar release (D.modulesOf release)))), ())
  | .zstd, D => do
      let archive ← D.blob .modulesTar
      some (D.write run (single .modulesTarZst (.blob (tools.zstd archive))), ())
  | .tarZstd release, D =>
      some (D.write run (single .modulesTarZst
        (.blob (tools.zstd (tools.tar release (D.modulesOf release))))), ())
  | .mkimage release, D => do
      let its ← D.blob .its
      let image ← D.blob .image
      let dtb ← D.blob .vendorDtb
      let resource ← D.blob .resourceImg
      let fit ← tools.mkimage its image dtb resource
      some (D.write run (single (.itb release) (.blob fit)), ())
  | .stat i, D => do
      let bytes ← D.blob i
      some (D, bytes.length)
  | .sha256sum items, D =>
      if items.all fun i => (D.blob i).isSome then
        some (D.write run (single .sha256sums (.sums fun i =>
          if i ∈ items then (D.blob i).map tools.sha256 else none)), ())
      else none
  | .sha256sumFirmware, D =>
      some (D.write run (single .sha256sums (.sums (firmwareSums tools D))), ())
  | .cat, D => some (D, ())

/-- What a command leaves when it fails: anything, in the files it writes. So a half-written file is
a case of it, and a file that is gone is another one. -/
def spoil (c : DirCmd) (left : Dir) (D : Dir) : Dir := fun i => if c.writes i then left i else D i

end DirCmd

/-! ### What the commands leave alone -/

theorem Dir.write_of_none {D : Dir} {run : Nat} {new : Item → Option Data} {i : Item}
    (h : new i = none) : D.write run new i = D i := by
  rw [Dir.write, h]

theorem Dir.write_of_some {D : Dir} {run : Nat} {new : Item → Option Data} {i : Item} {data : Data}
    (h : new i = some data) : D.write run new i = some ⟨data, run⟩ := by
  rw [Dir.write, h]

theorem single_self (target : Item) (data : Data) : single target data target = some data :=
  if_pos rfl

theorem single_of_ne {target i : Item} (data : Data) (h : i ≠ target) : single target data i = none :=
  if_neg h

@[simp] theorem Dir.write_single_self (D : Dir) (run : Nat) (target : Item) (data : Data) :
    D.write run (single target data) target = some ⟨data, run⟩ :=
  Dir.write_of_some (single_self target data)

theorem Dir.write_single_of_ne {D : Dir} {run : Nat} {target i : Item} {data : Data}
    (h : i ≠ target) : D.write run (single target data) i = D i :=
  Dir.write_of_none (single_of_ne data h)

theorem single_isSome {target i : Item} {data : Data} (h : (single target data i).isSome) :
    i = target := by
  by_contra hne
  rw [single_of_ne data hne] at h
  cases h

/-- What a command that succeeds does to a directory: it writes files of its own, or removes some,
or leaves all alone. -/
theorem DirCmd.effect_cases {tools : Tools} {run : Nat} {c : DirCmd} {D D' : Dir} {r : c.Reply}
    (h : c.effect tools run D = some (D', r)) :
    (∃ new, D' = D.write run new ∧ ∀ i, (new i).isSome → c.writes i = true) ∨
      (∃ doomed, c = .rm doomed ∧ D' = D.remove doomed) ∨ D' = D := by
  cases c with
  | mkdir =>
      cases h
      exact .inr (.inr rfl)
  | cp source target =>
      obtain ⟨bytes, -, h⟩ := Option.bind_eq_some_iff.mp h
      cases h
      exact .inl ⟨_, rfl, fun i hi => by simp [writes, single_isSome hi]⟩
  | echo text target =>
      cases h
      exact .inl ⟨_, rfl, fun i hi => by simp [writes, single_isSome hi]⟩
  | cpFirmware source top =>
      obtain ⟨tree, -, h⟩ := Option.bind_eq_some_iff.mp h
      cases h
      refine .inl ⟨_, rfl, fun i hi => ?_⟩
      cases i <;> first | rfl | cases hi
  | rm doomed =>
      cases h
      exact .inr (.inl ⟨doomed, rfl, rfl⟩)
  | modulesInstall modules =>
      obtain ⟨tree, -, h⟩ := Option.bind_eq_some_iff.mp h
      cases h
      refine .inl ⟨_, rfl, fun i hi => ?_⟩
      cases i <;> first | rfl | cases hi
  | testFile i =>
      obtain ⟨-, h⟩ := Option.ite_none_right_eq_some.mp h
      cases h
      exact .inr (.inr rfl)
  | tar release =>
      cases h
      exact .inl ⟨_, rfl, fun i hi => by rw [single_isSome hi]; rfl⟩
  | zstd =>
      obtain ⟨archive, -, h⟩ := Option.bind_eq_some_iff.mp h
      cases h
      exact .inl ⟨_, rfl, fun i hi => by rw [single_isSome hi]; rfl⟩
  | tarZstd release =>
      cases h
      exact .inl ⟨_, rfl, fun i hi => by rw [single_isSome hi]; rfl⟩
  | mkimage release =>
      simp only [effect, Option.bind_eq_bind, Option.bind_eq_some_iff] at h
      obtain ⟨its, -, image, -, dtb, -, resource, -, fit, -, h⟩ := h
      cases h
      exact .inl ⟨_, rfl, fun i hi => by simp [writes, single_isSome hi]⟩
  | stat i =>
      obtain ⟨bytes, -, h⟩ := Option.bind_eq_some_iff.mp h
      cases h
      exact .inr (.inr rfl)
  | sha256sum items =>
      obtain ⟨-, h⟩ := Option.ite_none_right_eq_some.mp h
      cases h
      exact .inl ⟨_, rfl, fun i hi => by rw [single_isSome hi]; rfl⟩
  | sha256sumFirmware =>
      cases h
      exact .inl ⟨_, rfl, fun i hi => by rw [single_isSome hi]; rfl⟩
  | cat =>
      cases h
      exact .inr (.inr rfl)

/-- It changes only the files it writes. -/
theorem DirCmd.effect_frame {tools : Tools} {run : Nat} {c : DirCmd} {D D' : Dir} {r : c.Reply}
    (h : c.effect tools run D = some (D', r)) {i : Item} (hi : c.writes i = false) : D' i = D i := by
  rcases effect_cases h with ⟨new, rfl, hnew⟩ | ⟨doomed, rfl, rfl⟩ | rfl
  · apply Dir.write_of_none
    by_contra hsome
    rw [hnew i (Option.isSome_iff_ne_none.mpr hsome)] at hi
    cases hi
  · exact if_neg (by rw [show doomed i = false from hi]; simp)
  · rfl

/-- The commands that write plain files and remove nothing. -/
def DirCmd.additive : DirCmd → Bool
  | .rm _ => false
  | .sha256sum _ => false
  | .sha256sumFirmware => false
  | _ => true

/-- The file is a plain file of this run. -/
def Dir.Own (D : Dir) (run : Nat) (i : Item) : Prop := ∃ bytes, D i = some ⟨.blob bytes, run⟩

theorem Dir.Own.blob {D : Dir} {run : Nat} {i : Item} (h : D.Own run i) :
    ∃ bytes, D i = some ⟨.blob bytes, run⟩ ∧ D.blob i = some bytes := by
  obtain ⟨bytes, hi⟩ := h
  exact ⟨bytes, hi, by rw [Dir.blob, hi]⟩

theorem single_blob {target i : Item} {bytes : Bytes} {data : Data}
    (h : single target (.blob bytes) i = some data) : data = .blob bytes := by
  have hi : i = target := single_isSome (by rw [h]; rfl)
  rw [hi, single_self] at h
  cases h
  rfl

/-- What such a command does not leave alone is a file of its run afterwards. -/
theorem DirCmd.effect_additive {tools : Tools} {run : Nat} {c : DirCmd} {D D' : Dir} {r : c.Reply}
    (h : c.effect tools run D = some (D', r)) (hc : c.additive = true) (i : Item) :
    D' i = D i ∨ D'.Own run i := by
  have written : ∀ new : Item → Option Data,
      (∀ data, new i = some data → ∃ bytes, data = .blob bytes) →
      D.write run new i = D i ∨ (D.write run new).Own run i := by
    intro new hnew
    cases hi : new i with
    | none => exact .inl (Dir.write_of_none hi)
    | some data =>
        obtain ⟨bytes, rfl⟩ := hnew data hi
        exact .inr ⟨bytes, Dir.write_of_some hi⟩
  have one : ∀ target bytes, D.write run (single target (.blob bytes)) i = D i ∨
      (D.write run (single target (.blob bytes))).Own run i :=
    fun target bytes => written _ fun data hdata => ⟨bytes, single_blob hdata⟩
  cases c with
  | mkdir =>
      cases h
      exact .inl rfl
  | cp source target =>
      obtain ⟨bytes, -, h⟩ := Option.bind_eq_some_iff.mp h
      cases h
      exact one _ _
  | echo text target =>
      cases h
      exact one _ _
  | cpFirmware source top =>
      obtain ⟨tree, -, h⟩ := Option.bind_eq_some_iff.mp h
      cases h
      apply written
      intro data hdata
      cases i with
      | firmware p =>
          obtain ⟨-, hdata⟩ := Option.ite_none_right_eq_some.mp hdata
          obtain ⟨bytes, -, rfl⟩ := Option.map_eq_some_iff.mp hdata
          exact ⟨bytes, rfl⟩
      | _ => cases hdata
  | rm doomed => cases hc
  | modulesInstall modules =>
      obtain ⟨tree, -, h⟩ := Option.bind_eq_some_iff.mp h
      cases h
      apply written
      intro data hdata
      cases i with
      | modules p =>
          obtain ⟨bytes, -, rfl⟩ := Option.map_eq_some_iff.mp hdata
          exact ⟨bytes, rfl⟩
      | _ => cases hdata
  | testFile j =>
      obtain ⟨-, h⟩ := Option.ite_none_right_eq_some.mp h
      cases h
      exact .inl rfl
  | tar release =>
      cases h
      exact one _ _
  | zstd =>
      obtain ⟨archive, -, h⟩ := Option.bind_eq_some_iff.mp h
      cases h
      exact one _ _
  | tarZstd release =>
      cases h
      exact one _ _
  | mkimage release =>
      simp only [effect, Option.bind_eq_bind, Option.bind_eq_some_iff] at h
      obtain ⟨its, -, image, -, dtb, -, resource, -, fit, -, h⟩ := h
      cases h
      exact one _ _
  | stat j =>
      obtain ⟨bytes, -, h⟩ := Option.bind_eq_some_iff.mp h
      cases h
      exact .inl rfl
  | sha256sum items => cases hc
  | sha256sumFirmware => cases hc
  | cat =>
      cases h
      exact .inl rfl

/-- These files are of this run, and so is all firmware. It is built up command by command. -/
structure Dir.Has (run : Nat) (items : List Item) (D : Dir) : Prop where
  own : ∀ i ∈ items, D.Own run i
  firmware : ∀ p, D (.firmware p) ≠ none → D.Own run (.firmware p)

namespace Dir.Has

variable {tools : Tools} {run : Nat} {items : List Item} {c : DirCmd} {D D' : Dir} {r : c.Reply}

/-- A command that leaves these files alone or writes plain files. -/
theorem step (hD : D.Has run items) (h : c.effect tools run D = some (D', r))
    (hc : c.additive = true ∨ (∀ i ∈ items, c.writes i = false) ∧
      ∀ p, c.writes (.firmware p) = false) : D'.Has run items := by
  rcases hc with hc | ⟨hitems, hfirmware⟩
  · constructor
    · intro i hi
      rcases DirCmd.effect_additive h hc i with heq | hown
      · obtain ⟨bytes, hbytes⟩ := hD.own i hi
        exact ⟨bytes, heq.trans hbytes⟩
      · exact hown
    · intro p hp
      rcases DirCmd.effect_additive h hc (.firmware p) with heq | hown
      · rw [heq] at hp
        obtain ⟨bytes, hbytes⟩ := hD.firmware p hp
        exact ⟨bytes, heq.trans hbytes⟩
      · exact hown
  · constructor
    · intro i hi
      obtain ⟨bytes, hbytes⟩ := hD.own i hi
      exact ⟨bytes, (DirCmd.effect_frame h (hitems i hi)).trans hbytes⟩
    · intro p hp
      have heq := DirCmd.effect_frame h (hfirmware p)
      rw [heq] at hp
      obtain ⟨bytes, hbytes⟩ := hD.firmware p hp
      exact ⟨bytes, heq.trans hbytes⟩

theorem cons (hD : D.Has run items) {i : Item} (hi : D.Own run i) : D.Has run (i :: items) := by
  constructor
  · intro j hj
    rcases List.mem_cons.mp hj with rfl | hj
    · exact hi
    · exact hD.own j hj
  · exact hD.firmware

end Dir.Has

end Hub11.Scripts
