import Mathlib.Data.List.Sort
import Mathlib.Data.List.Infix
import Mathlib.Logic.Function.Basic
import Hub11.Effect.Script
import Hub11.Shell.Pipeline

/-!
`scripts/stage-modules.sh`: the modules and the firmware of a dist are put on hub-11.

The box is its tree of physical paths: what is at a path when no link is followed. Files have
an inode, so a file can have several names. A command is a list of actions; a command that
fails has done some of them, and what it was writing may be torn. What the kernel makes of a
path with links in it is a parameter (`Kernel`), of which only this is known: where there is
no link, a path leads to itself, or it fails because a directory on the way is missing.

`tar -x` and `depmod` are taken at their word: their actions are at fixed places
(`Action.place`), below the working directory and below the modules of the release. The copies
by `cp` go through links like every other path; what a copy reads is what was there when it
began. The shell on the box has no `pipefail`, so an archive that `zstd` gave up half way may
be unpacked in part without an error.
-/

namespace Hub11.Scripts.StageModules

open Hub11.Effect Hub11.Shell

/-- A path from `/`, by its components. -/
abbrev Path := List Text

/-- What can be seen at a path, without following it. -/
inductive Entry where
  | dir
  | file (data : Text)
  | symlink (target : Text)
deriving DecidableEq

/-- What is at a path. Several paths may have the inode of one file, and then a write through one is
seen through all. -/
inductive Obj where
  | dir
  | file (inode : Nat)
  | symlink (target : Text)
deriving DecidableEq

/-- The tree of the box; the first entry for a path counts. -/
structure Box where
  entries : List (Path × Obj)
  content : Nat → Text

namespace Box

variable (b : Box)

def objAt (p : Path) : Option Obj := b.entries.lookup p

def look (p : Path) : Option Entry :=
  match b.objAt p with
  | some .dir => some .dir
  | some (.file i) => some (.file (b.content i))
  | some (.symlink t) => some (.symlink t)
  | none => none

def isLink (p : Path) : Bool :=
  match b.objAt p with
  | some (.symlink _) => true
  | _ => false

def set (p : Path) (o : Obj) : Box := { b with entries := (p, o) :: b.entries }

def erase (p : Path) : Box := { b with entries := b.entries.filter fun e => e.1 ≠ p }

def write (i : Nat) (data : Text) : Box := { b with content := Function.update b.content i data }

/-- The inode of an entry. -/
def inode : Path × Obj → Nat
  | (_, .file i) => i
  | _ => 0

/-- An inode that is not in use. -/
def fresh : Nat := (b.entries.map inode).foldr max 0 + 1

/-- Something new at a path, in the place of what was there. -/
def put (p : Path) : Entry → Box
  | .dir => b.set p .dir
  | .symlink t => b.set p (.symlink t)
  | .file data => (b.set p (.file b.fresh)).write b.fresh data

/-- The paths at and below `p` where there is something. -/
def under (p : Path) : List Path := ((b.entries.map Prod.fst).filter fun q => p <+: q).dedup

end Box

/-- How the kernel follows links. Where there are none it has no choice but to fail for a directory
that is missing. -/
structure Kernel where
  /-- Where a path leads if all links are followed; `none` if that fails. -/
  follow : Box → Path → Option Path
  /-- The same without a link at the end. -/
  site : Box → Path → Option Path
  follow_eq : ∀ b p, (∀ q, q <+: p → b.isLink q = false) →
    follow b p = some p ∨ follow b p = none
  site_eq : ∀ b p, (∀ q, q <+: p → q ≠ p → b.isLink q = false) →
    site b p = some p ∨ site b p = none ∧ ∀ q, p <+: q → b.objAt q = none

/-! ### Actions -/

/-- One step of a command on the tree. Whether it goes through links, and what it does to what is
there already, depends on the tool. -/
inductive Action where
  | remove (p : Path)
  /-- A directory, unless something is there. -/
  | mkdir (p : Path)
  /-- A symbolic link, in the place of what was there. -/
  | link (p : Path) (target : Text)
  /-- A new file, in the place of one that was there. -/
  | renew (p : Path) (data : Text)
  /-- A file, which keeps its inode if it was there. -/
  | store (p : Path) (data : Text)
  /-- An entry exactly here. -/
  | place (p : Path) (e : Entry)

namespace Action

def target : Action → Path
  | .remove p => p
  | .mkdir p => p
  | .link p _ => p
  | .renew p _ => p
  | .store p _ => p
  | .place p _ => p

/-- A link is left behind. -/
def links : Action → Bool
  | .link _ _ => true
  | .place _ (.symlink _) => true
  | _ => false

/-- The action goes through links on its path. -/
def resolves : Action → Bool
  | .remove _ => false
  | .place _ _ => false
  | _ => true

/-- The action with only a part of the data. -/
def tear (f : Text → Text) : Action → Action
  | .renew p data => .renew p (f data)
  | .store p data => .store p (f data)
  | .place p (.file data) => .place p (.file (f data))
  | a => a

end Action

/-- What an action does. Where its path leads nowhere, or to something it cannot replace, it does
nothing. -/
def Kernel.act (k : Kernel) (b : Box) : Action → Box
  | .remove p => b.erase p
  | .mkdir p =>
      match k.site b p with
      | some x => if b.objAt x = none then b.put x .dir else b
      | none => b
  | .link p t =>
      match k.site b p with
      | some x => if b.objAt x = some .dir then b else b.put x (.symlink t)
      | none => b
  | .renew p data =>
      match k.follow b p with
      | some x => if b.objAt x = some .dir then b else b.put x (.file data)
      | none => b
  | .store p data =>
      match k.follow b p with
      | some x =>
          match b.objAt x with
          | some (.file i) => b.write i data
          | some _ => b
          | none => b.put x (.file data)
      | none => b
  | .place p e => b.put p e

/-! ### The dist -/

/-- The number `N` of a release `6.18.N-hub11`, the kernels that this repository builds. -/
structure Release where
  digits : Text
  nonempty : digits ≠ []
  digit : ∀ c ∈ digits, c.isDigit = true

def Release.krel (r : Release) : Text := "6.18.".toList ++ r.digits ++ "-hub11".toList

/-- A member of the archive, with the name that it has in it. The name can be anything. -/
structure Member where
  name : Text
  entry : Entry

/-- A dist directory, as far as it is sent to the box. The archive comes from anywhere and may hold
anything. -/
structure Dist where
  release : Release
  /-- The bytes of `modules.tar.zst`. -/
  archive : Text
  /-- What `zstd -dc` and `tar` read in them. -/
  members : List Member
  /-- `firmware/` as `scp -r` sends it, links resolved: directories and files. -/
  firmware : List (Path × Option Text)

/-- `tar -t` prints a name on one line. -/
def quoteChar (c : Char) : Text :=
  if c = '\n' then ['\\', 'n'] else if c = '\\' then ['\\', '\\'] else [c]

def quote (name : Text) : Text := name.flatMap quoteChar

/-- `$TOP`: the first components of all names, each once. The guard compares it with the release. -/
def Dist.top (D : Dist) : Text :=
  substitution (unlines (sortU ((D.members.map fun m => quote m.name).map cutFirst)))

/-- Where `tar -x` puts a member, below the working directory. -/
def Member.place (m : Member) : Path :=
  (m.name.splitOn '/').filter fun c => c ≠ [] ∧ c ≠ ['.']

/-- Members with a component `..` are skipped. -/
def Member.skipped (m : Member) : Bool := ['.', '.'] ∈ m.name.splitOn '/'

def scratch : Path := ["tmp".toList, "modstage".toList]

def scratchFw : Path := scratch ++ ["fw".toList]

def firmwareDir : Path := ["usr".toList, "lib".toList, "firmware".toList]

namespace Dist

variable (D : Dist)

def modulesDir : Path := ["usr".toList, "lib".toList, "modules".toList, D.release.krel]

/-- The release in the scratch directory. -/
def unpacked : Path := scratch ++ [D.release.krel]

end Dist

/-! ### What the commands do -/

/-- `mkdir -p` -/
def mkdirs (p : Path) : List Action := (p.inits.filter (· ≠ [])).map .mkdir

/-- `rm -rf`: what is at the path and below it, and no link is followed. -/
def removeAll (k : Kernel) (b : Box) (p : Path) : List Action :=
  match k.site b p with
  | some x => (b.under x).map .remove
  | none => []

/-- A member with the directories above it. -/
def extractMember (m : Member) : List Action :=
  if m.skipped then [] else
    ((m.place.inits.filter fun q => q ≠ [] ∧ q ≠ m.place).map fun q => .place (scratch ++ q) .dir) ++
      [.place (scratch ++ m.place) m.entry]

/-- What a copy of the directory `x` finds in it, directories before their entries. It goes
down only into directories. -/
def found (b : Box) (x : Path) : List Path :=
  ((((b.under x).map fun p => p.drop x.length).dedup).filter fun q =>
    q ≠ [] ∧ ∀ r ∈ q.inits, r ≠ q → b.objAt (x ++ r) = some .dir).insertionSort
      fun q r => q.length ≤ r.length

/-- One entry of a copy. `cp -a` gives up a file with several names before it writes, which
leaves the other names as they are; `cp -r --no-preserve=all` writes into it. -/
def copyEntry (renew : Bool) (b : Box) (x dest q : Path) : Option Action :=
  match b.look (x ++ q) with
  | some .dir => some (.mkdir (dest ++ q))
  | some (.symlink t) => some (.link (dest ++ q) t)
  | some (.file data) => some (if renew then .renew (dest ++ q) data else .store (dest ++ q) data)
  | none => none

/-- `cp` of what is in a directory into another one, each entry of it as it was when the copy
began. -/
def copyInto (renew : Bool) (k : Kernel) (b : Box) (src dest : Path) : List Action :=
  match k.follow b src with
  | some x => (found b x).filterMap (copyEntry renew b x dest)
  | none => []

/-- The commands of the script: four on lab, and the rest on the box. -/
inductive Cmd where
  /-- `readlink -f "$DISTDIR"` -/
  | readlink
  /-- `cat "$DISTDIR/KREL"` -/
  | catKrel
  /-- `test -f "$DISTDIR/modules.tar.zst"` -/
  | testArchive
  /-- `zstd -dc … | tar -tf - | cut -d/ -f1 | sort -u` -/
  | listArchive
  /-- `rm -rf /tmp/modstage` -/
  | rmScratch
  /-- `mkdir -p /tmp/modstage/fw` -/
  | mkScratch
  /-- `scp -q "$DISTDIR/modules.tar.zst"` -/
  | scpModules
  /-- `scp -qr "$DISTDIR/firmware/."` -/
  | scpFirmware
  /-- `cd /tmp/modstage` -/
  | cdScratch
  /-- `zstd -dc modules.tar.zst | tar -xf -` -/
  | extract
  /-- `test -f '$KREL/modules.dep'` -/
  | testDep
  /-- `mkdir -p /usr/lib/modules/$KREL` -/
  | mkModules
  /-- `cp -a '$KREL/.' /usr/lib/modules/$KREL/` -/
  | cpModules
  /-- `depmod -a $KREL` -/
  | depmod
  /-- `mkdir -p /usr/lib/firmware` -/
  | mkFirmware
  /-- `cp -r --no-preserve=all fw/. /usr/lib/firmware/` -/
  | cpFirmware
  /-- `cd /` -/
  | cdRoot
  /-- `find … | wc -l` -/
  | report

/-- How a command goes: whether it succeeds, and how much it has done if not. -/
structure Choice where
  ok : Bool
  /-- What a failing command has done of its actions. -/
  did : Action → Bool
  /-- What is left of a file that it was writing. -/
  torn : Text → Text
  /-- `zstd` comes to the end of the archive that it is piping to `tar`. -/
  whole : Bool
  /-- What `depmod` writes below the modules of the release. -/
  depmod : List (Path × Entry)

/-- A part of the actions of a command, the files possibly torn. -/
def Choice.part (c : Choice) (as : List Action) : List Action :=
  (as.filter c.did).map (Action.tear c.torn)

section Machine

variable (k : Kernel) (D : Dist)

/-- The actions of a command that does all of its work. -/
def work (c : Choice) (b : Box) : Cmd → List Action
  | .rmScratch => removeAll k b scratch
  | .mkScratch => mkdirs scratchFw
  | .scpModules => [.renew (scratch ++ ["modules.tar.zst".toList]) D.archive]
  | .scpFirmware => D.firmware.map fun f =>
      match f.2 with
      | none => .mkdir (scratchFw ++ f.1)
      | some data => .renew (scratchFw ++ f.1) data
  | .extract => D.members.flatMap extractMember
  | .mkModules => mkdirs D.modulesDir
  | .cpModules => copyInto true k b D.unpacked D.modulesDir
  | .depmod => c.depmod.map fun f => .place (D.modulesDir ++ f.1) f.2
  | .mkFirmware => mkdirs firmwareDir
  | .cpFirmware => copyInto false k b scratchFw firmwareDir
  | _ => []

/-- Can the command succeed at all? -/
def possible (b : Box) : Cmd → Bool
  | .testDep =>
      match (k.follow b (D.unpacked ++ ["modules.dep".toList])).bind b.look with
      | some (.file _) => true
      | _ => false
  | _ => true

/-- The actions of a command that reports success. The status of the pipe is that of `tar`,
which is content with an archive that ends between two members. -/
def done (c : Choice) (b : Box) : Cmd → List Action
  | .extract => if c.whole then work k D c b .extract else c.part (work k D c b .extract)
  | op => work k D c b op

/-- What the command prints, where the script looks at it. -/
def output : Cmd → Text
  | .listArchive => D.top
  | _ => []

/-- A command that fails has done a part of its work, and so has an extraction that reports success
too soon. -/
def machine : Chooser Choice Box Cmd fun _ => Option Text := fun c b op =>
  if c.ok && possible k D b op then ((done k D c b op).foldl k.act b, some (output D op))
  else ((c.part (work k D c b op)).foldl k.act b, none)

end Machine

open Script

def cleanUp : Script Cmd (fun _ => Text) Unit := do
  let _ ← must .cdRoot
  let _ ← must .rmScratch
  let _ ← must .report

def installFirmware : Script Cmd (fun _ => Text) Unit := do
  let _ ← must .mkFirmware
  let _ ← must .cpFirmware
  cleanUp

def installModules : Script Cmd (fun _ => Text) Unit := do
  let _ ← must .mkModules
  let _ ← must .cpModules
  let _ ← must .depmod
  installFirmware

/-- What happens on the box: the scratch directory is made anew, two copies go into it, and the rest
is one session under `set -e`. -/
def remote : Script Cmd (fun _ => Text) Unit := do
  let _ ← must .rmScratch
  let _ ← must .mkScratch
  let _ ← must .scpModules
  let _ ← must .scpFirmware
  let _ ← must .cdScratch
  let _ ← must .extract
  let _ ← must .testDep
  installModules

/-- `stage-modules.sh`: the guard on lab, then everything on the box. -/
def stageModules (D : Dist) : Script Cmd (fun _ => Text) Unit := do
  let _ ← must .readlink
  let _ ← must .catKrel
  let _ ← must .testArchive
  let top ← must .listArchive
  check (top = D.release.krel)
  remote

/-! ### The guard -/

theorem quote_eq_self {t : Text} (hn : '\n' ∉ t) (hb : '\\' ∉ t) : quote t = t := by
  induction t with
  | nil => rfl
  | cons c t ih =>
      have hc : quoteChar c = [c] := by
        unfold quoteChar
        rw [if_neg (by rintro rfl; simp at hn), if_neg (by rintro rfl; simp at hb)]
      have ht := ih (fun h => hn (List.mem_cons_of_mem c h)) fun h => hb (List.mem_cons_of_mem c h)
      unfold quote at ht ⊢
      rw [List.flatMap_cons, ht, hc]
      rfl

theorem backslash_mem_quote {t : Text} (h : '\n' ∈ t ∨ '\\' ∈ t) : '\\' ∈ quote t := by
  have hchar : ∀ c, c = '\n' ∨ c = '\\' → '\\' ∈ quoteChar c := by
    rintro c (rfl | rfl) <;> decide
  obtain ⟨c, hc, hq⟩ : ∃ c ∈ t, c = '\n' ∨ c = '\\' := by
    rcases h with h | h
    · exact ⟨_, h, .inl rfl⟩
    · exact ⟨_, h, .inr rfl⟩
  exact List.mem_flatMap.mpr ⟨c, hc, hchar c hq⟩

theorem newline_notMem_quote (t : Text) : '\n' ∉ quote t := by
  intro h
  obtain ⟨c, -, hc⟩ := List.mem_flatMap.mp h
  unfold quoteChar at hc
  split at hc
  · simp at hc
  · split at hc
    · simp at hc
    · rename_i hne _
      exact hne (List.mem_singleton.mp hc).symm

/-- Quoting does not touch the slashes. -/
theorem cutFirst_quote (t : Text) : cutFirst (quote t) = quote (cutFirst t) := by
  induction t with
  | nil => rfl
  | cons c t ih =>
      have hcons : quote (c :: t) = quoteChar c ++ quote t := List.flatMap_cons
      rw [hcons]
      by_cases hc : c = '/'
      · subst hc
        rfl
      · have hfree : ∀ x ∈ quoteChar c, decide (x ≠ '/') = true := by
          unfold quoteChar
          split
          · simp
          · split
            · simp
            · simpa using hc
        unfold cutFirst at ih ⊢
        rw [List.takeWhile_append_of_pos hfree, ih, List.takeWhile_cons_of_pos (by simpa using hc)]
        rfl

theorem Release.krel_plain (r : Release) :
    r.krel ≠ [] ∧ '\n' ∉ r.krel ∧ '\\' ∉ r.krel := by
  have hdigit : ∀ c : Char, c.isDigit = false → c ∉ r.digits := by
    intro c hc hmem
    rw [r.digit c hmem] at hc
    cases hc
  have hn := hdigit '\n' rfl
  have hb := hdigit '\\' rfl
  refine ⟨by simp [krel], ?_, ?_⟩ <;> simp [krel, hn, hb]

/-- A quoted name is the release exactly if the name is: the release has nothing in it to quote. -/
theorem quote_eq_krel_iff (r : Release) (t : Text) : quote t = r.krel ↔ t = r.krel := by
  obtain ⟨-, hn, hb⟩ := r.krel_plain
  constructor
  · intro h
    by_cases hplain : '\n' ∈ t ∨ '\\' ∈ t
    · exact absurd (h ▸ backslash_mem_quote hplain) hb
    · rw [not_or] at hplain
      rwa [quote_eq_self hplain.1 hplain.2] at h
  · rintro rfl
    exact quote_eq_self hn hb

/-- The first component of the member's name is the release, so that it is unpacked into the
directory that is copied. -/
def Member.Rooted (r : Release) (m : Member) : Prop := (m.name.splitOn '/').head? = some r.krel

instance (r : Release) (m : Member) : Decidable (m.Rooted r) :=
  inferInstanceAs (Decidable (_ = _))

/-- The guard lets pass what is rooted at the release, and is not empty. -/
theorem top_eq_krel_iff (D : Dist) :
    D.top = D.release.krel ↔ D.members ≠ [] ∧ ∀ m ∈ D.members, m.Rooted D.release := by
  obtain ⟨hne, hn, -⟩ := D.release.krel_plain
  unfold Dist.top
  rw [substitution_sortU_eq_iff ?_ hne hn]
  · simp only [List.map_map, ne_eq, List.map_eq_nil_iff, List.forall_mem_map, Function.comp_apply,
      cutFirst_quote, quote_eq_krel_iff, Member.Rooted, head?_splitOn, Option.some.injEq]
  · simp only [List.map_map, List.forall_mem_map, Function.comp_apply, cutFirst_quote]
    exact fun m _ => newline_notMem_quote _

/-! ### The box -/

namespace Box

variable {b : Box}

theorem lookup_cons_eq (q p : Path) (o : Obj) (es : List (Path × Obj)) :
    List.lookup q ((p, o) :: es) = if q = p then some o else List.lookup q es := by
  by_cases h : q = p
  · simp [h]
  · have hbeq : (q == p) = false := beq_eq_false_iff_ne.mpr h
    rw [List.lookup_cons, hbeq, if_neg h]

theorem objAt_set (p : Path) (o : Obj) (q : Path) :
    (b.set p o).objAt q = if q = p then some o else b.objAt q :=
  lookup_cons_eq q p o b.entries

theorem objAt_erase (p q : Path) : (b.erase p).objAt q = if q = p then none else b.objAt q := by
  have h : ∀ es : List (Path × Obj), List.lookup q (es.filter fun e => e.1 ≠ p) =
      if q = p then none else List.lookup q es := by
    intro es
    induction es with
    | nil => simp
    | cons e es ih =>
        obtain ⟨x, o⟩ := e
        rw [lookup_cons_eq]
        by_cases hx : x = p
        · rw [List.filter_cons_of_neg (by simp [hx]), ih, hx]
          by_cases hq : q = p <;> simp [hq]
        · rw [List.filter_cons_of_pos (by simp [hx]), lookup_cons_eq, ih]
          by_cases hq : q = x
          · simp [hq, hx]
          · simp [hq]
  exact h b.entries

@[simp] theorem objAt_write (i : Nat) (data : Text) (q : Path) :
    (b.write i data).objAt q = b.objAt q := rfl

theorem objAt_put_of_ne {p q : Path} (h : q ≠ p) (e : Entry) : (b.put p e).objAt q = b.objAt q := by
  cases e <;> simp [put, objAt_set, h]

@[simp] theorem objAt_put_dir (p : Path) : (b.put p .dir).objAt p = some .dir := by
  simp [put, objAt_set]

theorem objAt_put_file {p q : Path} {e : Entry} {i : Nat}
    (h : (b.put p e).objAt q = some (.file i)) : b.objAt q = some (.file i) ∨ i = b.fresh := by
  by_cases hq : q = p
  · subst hq
    cases e with
    | dir => simp [put, objAt_set] at h
    | symlink t => simp [put, objAt_set] at h
    | file data =>
        simp only [put, objAt_write, objAt_set, if_true] at h
        cases h
        exact .inr rfl
  · rw [objAt_put_of_ne hq] at h
    exact .inl h

theorem content_put {i : Nat} (h : i ≠ b.fresh) (p : Path) (e : Entry) :
    (b.put p e).content i = b.content i := by
  cases e with
  | dir => rfl
  | symlink t => rfl
  | file data => exact Function.update_of_ne h data b.content

theorem lt_fresh {p : Path} {i : Nat} (h : b.objAt p = some (.file i)) : i < b.fresh := by
  have hle : ∀ es : List (Path × Obj), es.lookup p = some (.file i) →
      i ≤ (es.map inode).foldr max 0 := by
    intro es hes
    induction es with
    | nil => cases hes
    | cons e es ih =>
        obtain ⟨q, o⟩ := e
        simp only [List.map_cons, List.foldr_cons]
        rw [lookup_cons_eq] at hes
        split at hes
        · cases hes
          exact Nat.le_max_left _ _
        · exact (ih hes).trans (Nat.le_max_right _ _)
  exact Nat.lt_succ_of_le (hle b.entries h)

theorem isLink_congr {b' : Box} {p : Path} (h : b'.objAt p = b.objAt p) :
    b'.isLink p = b.isLink p := by
  simp only [isLink, h]

/-- New entries are links only where a link is put. -/
theorem isLink_put {p q : Path} {e : Entry} (h : (b.put p e).isLink q = true) :
    b.isLink q = true ∨ q = p ∧ ∃ t, e = .symlink t := by
  by_cases hq : q = p
  · subst hq
    cases e with
    | dir => simp [isLink, put, objAt_set] at h
    | file data => simp [isLink, put, objAt_set] at h
    | symlink t => exact .inr ⟨rfl, t, rfl⟩
  · rw [isLink_congr (objAt_put_of_ne hq e)] at h
    exact .inl h

end Box

end Hub11.Scripts.StageModules
