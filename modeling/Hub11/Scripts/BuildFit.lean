import Mathlib.Logic.Relation
import Mathlib.Tactic.Tauto
import Hub11.Scripts.Dist

/-!
The dist directories of `build-fit.sh` over any sequence of runs.

A directory is named by the minute of its run and the release of the kernel, so two runs
of one minute share it: `mkdir -p` accepts a directory that is there, and the files are
written in place. `latest` is kept with all the names it ever had, the newest first, and
a file is kept with the run that wrote it.
-/

namespace Hub11.Scripts.BuildFit

open Hub11.Effect

/-- `<UTC ts>-<krel>`; the time stamp counts minutes, so two runs in one minute with one kernel have
the same directory. -/
structure DirName where
  minute : Nat
  release : Release
deriving DecidableEq

/-- The directories under `dist`, where `latest` points and has pointed, and the clock. -/
structure Lab where
  dist : DirName → Option Dir
  /-- What `dist/latest` has named, the newest name first. -/
  latest : List DirName
  clock : Nat
  /-- The number of the current run. -/
  run : Nat

def Lab.empty : Lab := ⟨fun _ => none, [], 0, 0⟩

/-- The lab with one directory replaced. -/
def Lab.fill (s : Lab) (d : DirName) (D : Dir) : Lab :=
  { s with dist := Function.update s.dist d (some D) }

/-- What a run finds in the kernel output, in this repository and in its environment. -/
structure Inputs where
  release : Option Release
  image : Option Bytes
  dtb : String → Option Bytes
  /-- What `modules_install` installs. -/
  modules : Option Tree
  resourceImg : Option Bytes
  its : Option Bytes
  brcm : Option Tree
  mali : Option Bytes
  /-- `HUB11_DTB` -/
  hub11Dtb : String

/-- `HUB11_DTB=${HUB11_DTB:-rk3588-hub11.dtb}` -/
def Inputs.dtbName (inputs : Inputs) : String :=
  if inputs.hub11Dtb = "" then "rk3588-hub11.dtb" else inputs.hub11Dtb

inductive Cmd where
  | catRelease (source : Option Release)
  | date
  | testFile (source : Option Bytes)
  | mkdirDest (d : DirName)
  | inDest (d : DirName) (c : DirCmd)
  /-- `ln -sfn` -/
  | linkLatest (d : DirName)

abbrev Reply : Cmd → Type
  | .catRelease _ => Release
  | .date => Nat
  | .inDest _ c => c.Reply
  | _ => Unit

structure Choice where
  ok : Bool
  /-- The clock; it never goes back. -/
  now : Nat
  /-- What a command that fails leaves behind. -/
  left : Dir

def machine (tools : Tools) : Chooser Choice Lab Cmd fun op => Option (Reply op) := fun c s op =>
  match op with
  | .catRelease source => (s, if c.ok then source else none)
  | .date =>
      ({ s with clock := max s.clock c.now }, if c.ok then some (max s.clock c.now) else none)
  | .testFile source => (s, if c.ok && source.isSome then some () else none)
  | .mkdirDest d =>
      if c.ok then (s.fill d ((s.dist d).getD fun _ => none), some ()) else (s, none)
  | .inDest d cmd =>
      match s.dist d with
      | none => (s, none)
      | some D =>
          match if c.ok then cmd.effect tools s.run D else none with
          | some (D', r) => (s.fill d D', some r)
          | none => (s.fill d (cmd.spoil c.left D), none)
  | .linkLatest d => if c.ok then ({ s with latest := d :: s.latest }, some ()) else (s, none)

abbrev Shell := Script Cmd Reply

abbrev must (op : Cmd) : Shell (Reply op) := Script.must op

abbrev inDest (d : DirName) (c : DirCmd) : Shell c.Reply := must (.inDest d c)

/-- The files that are copied from the kernel output and from this repository, one `cp` for each of
them. -/
def copyInputs (inputs : Inputs) (d : DirName) : Shell Unit := do
  inDest d (.cp inputs.image .image)
  inDest d (.cp inputs.resourceImg .resourceImg)
  inDest d (.cp (inputs.dtb inputs.dtbName) .vendorDtb)
  inDest d (.cp inputs.its .its)
  inDest d (.echo (line d.release.name) .krel)
  inDest d (.echo (line inputs.dtbName) .dtb)
  inDest d .mkdir
  inDest d (.cpFirmware inputs.brcm ["brcm"])
  inDest d .mkdir
  inDest d (.cp inputs.mali (.firmware ["arm", "mali", "arch10.8", "mali_csffw.bin"]))

def packModules (inputs : Inputs) (d : DirName) : Shell Unit := do
  inDest d (.rm Item.inModules)
  inDest d (.modulesInstall inputs.modules)
  inDest d (.testFile (.modules ["lib", "modules", d.release.name, "modules.dep"]))
  inDest d (.tar d.release)
  inDest d .zstd
  inDest d (.rm fun i => i = .modulesTar || i.inModules)

def makeFit (d : DirName) : Shell Unit := do
  inDest d (.mkimage d.release)
  let size ← inDest d (.stat (.itb d.release))
  Script.check (size < fitCap)

/-- The files of the first `sha256sum`. -/
def listedItems (release : Release) : List Item :=
  [.image, .vendorDtb, .resourceImg, .itb release, .modulesTarZst]

def sumUp (d : DirName) : Shell Unit := do
  inDest d (.sha256sum (listedItems d.release))
  inDest d .sha256sumFirmware
  inDest d .cat

/-- Everything that happens in the directory: copies, the archive of the modules, the FIT, and the
digests of all of it. -/
def fillDest (inputs : Inputs) (d : DirName) : Shell Unit := do
  copyInputs inputs d
  packModules inputs d
  makeFit d
  sumUp d

/-- `build-fit.sh`. The name of the directory is fixed by the time at the beginning, and `latest` is
moved when all is done. -/
def buildFit (inputs : Inputs) : Shell Unit := do
  let release ← must (.catRelease inputs.release)
  let minute ← must .date
  must (.testFile (inputs.dtb inputs.dtbName))
  must (.mkdirDest ⟨minute, release⟩)
  fillDest inputs ⟨minute, release⟩
  must (.linkLatest ⟨minute, release⟩)

/-- Runs one after the other, each of which may fail or be cut off at any command. The clock goes on
in between. -/
def Builds (tools : Tools) (G : Guard Choice Lab Cmd) : Lab → Lab → Prop :=
  Relation.ReflTransGen fun s t =>
    ∃ inputs, (buildFit inputs).run.Reaches (machine tools) G { s with run := s.run + 1 } t

/-- The listed files and all firmware match `SHA256SUMS` and come from one run. Such a directory can
be flashed as it is. -/
def Finished (tools : Tools) (release : Release) (D : Dir) : Prop :=
  ∃ run, ∀ i, i ∈ listedItems release ∨ (∃ p, i = .firmware p ∧ D i ≠ none) →
    ∃ bytes, D i = some ⟨.blob bytes, run⟩ ∧ D.listed i = some (tools.sha256 bytes)

/-- A directory that `latest` has named never changes again, and the one it names is
finished. -/
def DistKept (tools : Tools) (G : Guard Choice Lab Cmd) : Prop :=
  ∀ s t, Builds tools G .empty s → Builds tools G s t →
    (∀ d ∈ s.latest, ∃ D, s.dist d = some D ∧ t.dist d = some D) ∧
      ∀ d, t.latest.head? = some d → ∃ D, t.dist d = some D ∧ Finished tools d.release D

/-- When a run creates its directory, `latest` has never named it, and no firmware is left
in it from a run that failed. -/
def Unused : Guard Choice Lab Cmd := fun _ s op =>
  match op with
  | .mkdirDest d => d ∉ s.latest ∧ ∀ D, s.dist d = some D → ∀ p, D (.firmware p) = none
  | _ => True

/-! ### One run -/

/-- Every directory that `latest` has named is finished, so that an older one can be gone back
to. -/
def Sound (tools : Tools) (s : Lab) : Prop :=
  ∀ d ∈ s.latest, ∃ D, s.dist d = some D ∧ Finished tools d.release D

/-- The directories that `latest` had named are as they were. -/
def Kept (s t : Lab) : Prop := (∀ d ∈ s.latest, d ∈ t.latest) ∧ ∀ d ∈ s.latest, t.dist d = s.dist d

theorem Kept.refl (s : Lab) : Kept s s := ⟨fun _ h => h, fun _ _ => rfl⟩

theorem Kept.trans {s t u : Lab} (h : Kept s t) (h' : Kept t u) : Kept s u :=
  ⟨fun d hd => h'.1 d (h.1 d hd), fun d hd => (h'.2 d (h.1 d hd)).trans (h.2 d hd)⟩

/-- What holds in every state of a run that starts in `s`. -/
def Inv (tools : Tools) (s t : Lab) : Prop := Kept s t ∧ Sound tools t

theorem fill_fill (s : Lab) (d : DirName) (D D' : Dir) : (s.fill d D).fill d D' = s.fill d D' := by
  simp [Lab.fill]

theorem fill_dist_self (s : Lab) (d : DirName) (D : Dir) : (s.fill d D).dist d = some D := by
  simp [Lab.fill]

theorem fill_dist_of_ne {s : Lab} {d e : DirName} {D : Dir} (h : e ≠ d) :
    (s.fill d D).dist e = s.dist e := by
  simp [Lab.fill, h]

theorem Kept.fill {s : Lab} {d : DirName} (hd : d ∉ s.latest) (D : Dir) : Kept s (s.fill d D) :=
  ⟨fun _ h => h, fun _ he => fill_dist_of_ne fun heq => hd (heq ▸ he)⟩

theorem Sound.of_kept {tools : Tools} {s t : Lab} (hs : Sound tools s) (h : Kept s t)
    (hlatest : t.latest = s.latest) : Sound tools t := by
  intro d hd
  rw [hlatest] at hd
  obtain ⟨D, hD, hfinished⟩ := hs d hd
  exact ⟨D, (h.2 d hd).trans hD, hfinished⟩

/-- The script comes to its end with a directory that satisfies `P`, or it fails. Nothing else on
the lab has changed. -/
def Leaves {α : Type} (s : Lab) (d : DirName) (P : Dir → Prop) (r : Option α) (t : Lab) : Prop :=
  r ≠ none → ∃ D, t = s.fill d D ∧ P D

section Run

variable {tools : Tools} {s : Lab} {d : DirName} {J : Lab → Prop} {P : Dir → Prop} {D : Dir}

theorem machine_inDest (c : DirCmd) (ch : Choice) :
    machine tools ch (s.fill d D) (.inDest d c) =
      match if ch.ok then c.effect tools s.run D else none with
      | some (D', r) => (s.fill d D', some r)
      | none => (s.fill d (c.spoil ch.left D), none) := by
  simp only [machine, fill_dist_self, fill_fill]
  rfl

/-- The rule for a command in the directory. -/
theorem always_inDest {α : Type} {c : DirCmd} {f : c.Reply → Shell α} (hJ : ∀ D, J (s.fill d D))
    (h : ∀ D' r, c.effect tools s.run D = some (D', r) →
      (f r).run.Always (machine tools) Unused J (Leaves s d P) (s.fill d D')) :
    (inDest d c >>= f).run.Always (machine tools) Unused J (Leaves s d P) (s.fill d D) := by
  apply Script.always_must (hJ D)
  · intro ch _ hfail
    rw [machine_inDest] at hfail ⊢
    cases he : (if ch.ok then c.effect tools s.run D else none) with
    | none => exact ⟨hJ _, fun h => absurd rfl h⟩
    | some out =>
        rw [he] at hfail
        cases hfail
  · intro ch r _ hok
    rw [machine_inDest] at hok ⊢
    cases he : (if ch.ok then c.effect tools s.run D else none) with
    | none =>
        rw [he] at hok
        cases hok
    | some out =>
        rw [he] at hok
        cases hok
        exact h _ _ (Option.ite_none_right_eq_some.mp he).2

/-- The rule for the last one. -/
theorem always_last {c : DirCmd} (hJ : ∀ D, J (s.fill d D))
    (h : ∀ D' r, c.effect tools s.run D = some (D', r) → P D') :
    (inDest d c).run.Always (machine tools) Unused J (Leaves s d P) (s.fill d D) := by
  refine ⟨hJ D, fun ch _ => ?_⟩
  rw [machine_inDest]
  cases he : (if ch.ok then c.effect tools s.run D else none) with
  | none => exact ⟨hJ _, fun h => absurd rfl h⟩
  | some out => exact ⟨hJ _, fun _ => ⟨out.1, rfl, h _ _ (Option.ite_none_right_eq_some.mp he).2⟩⟩

/-- One part of the script after another. -/
theorem always_part {α : Type} {p : Shell Unit} {q : Shell α} {R : Dir → Prop}
    (hp : p.run.Always (machine tools) Unused J (Leaves s d R) (s.fill d D))
    (hq : ∀ D, R D → q.run.Always (machine tools) Unused J (Leaves s d P) (s.fill d D)) :
    (p >>= fun _ => q).run.Always (machine tools) Unused J (Leaves s d P) (s.fill d D) := by
  apply Script.always_bind
  refine hp.mono ?_
  rintro (_ | ⟨⟩) t hJ hleaves
  · exact fun h => absurd rfl h
  · obtain ⟨D', rfl, hR⟩ := hleaves (by simp)
    exact hq D' hR

theorem cp_own {source : Option Bytes} {target : Item} {D' : Dir} {r : Unit} {run : Nat}
    (h : (DirCmd.cp source target).effect tools run D = some (D', r)) : D'.Own run target := by
  obtain ⟨bytes, -, h⟩ := Option.bind_eq_some_iff.mp h
  cases h
  exact ⟨bytes, Dir.write_single_self _ _ _ _⟩

variable {inputs : Inputs}

/-- Whatever was in the directory but firmware, the copies are of this run. -/
theorem copyInputs_always (hJ : ∀ D, J (s.fill d D)) (hD : D.Has s.run []) :
    (copyInputs inputs d).run.Always (machine tools) Unused J
      (Leaves s d (Dir.Has s.run [.its, .vendorDtb, .resourceImg, .image])) (s.fill d D) := by
  apply always_inDest hJ
  intro D₁ _ h₁
  have hD₁ := (hD.step h₁ (.inl rfl)).cons (cp_own h₁)
  apply always_inDest hJ
  intro D₂ _ h₂
  have hD₂ := (hD₁.step h₂ (.inl rfl)).cons (cp_own h₂)
  apply always_inDest hJ
  intro D₃ _ h₃
  have hD₃ := (hD₂.step h₃ (.inl rfl)).cons (cp_own h₃)
  apply always_inDest hJ
  intro D₄ _ h₄
  have hD₄ := (hD₃.step h₄ (.inl rfl)).cons (cp_own h₄)
  apply always_inDest hJ
  intro D₅ _ h₅
  apply always_inDest hJ
  intro D₆ _ h₆
  apply always_inDest hJ
  intro D₇ _ h₇
  apply always_inDest hJ
  intro D₈ _ h₈
  apply always_inDest hJ
  intro D₉ _ h₉
  apply always_last hJ
  intro D' _ h'
  have hD₆ := (hD₄.step h₅ (.inl rfl)).step h₆ (.inl rfl)
  have hD₉ := ((hD₆.step h₇ (.inl rfl)).step h₈ (.inl rfl)).step h₉ (.inl rfl)
  exact hD₉.step h' (.inl rfl)

theorem packModules_always {items : List Item} (hJ : ∀ D, J (s.fill d D)) (hD : D.Has s.run items)
    (hitems : ∀ i ∈ items, i.inModules = false ∧ i ≠ .modulesTar) :
    (packModules inputs d).run.Always (machine tools) Unused J
      (Leaves s d (Dir.Has s.run (.modulesTarZst :: items))) (s.fill d D) := by
  apply always_inDest hJ
  intro D₁ _ h₁
  have hD₁ := hD.step h₁ (.inr ⟨fun i hi => (hitems i hi).1, fun _ => rfl⟩)
  apply always_inDest hJ
  intro D₂ _ h₂
  apply always_inDest hJ
  intro D₃ _ h₃
  apply always_inDest hJ
  intro D₄ _ h₄
  have hD₄ := ((hD₁.step h₂ (.inl rfl)).step h₃ (.inl rfl)).step h₄ (.inl rfl)
  apply always_inDest hJ
  intro D₅ _ h₅
  have hzst : D₅.Own s.run .modulesTarZst := by
    obtain ⟨archive, -, h⟩ := Option.bind_eq_some_iff.mp h₅
    cases h
    exact ⟨_, Dir.write_single_self _ _ _ _⟩
  apply always_last hJ
  intro D' _ h'
  refine ((hD₄.step h₅ (.inl rfl)).cons hzst).step h' (.inr ⟨fun i hi => ?_, fun _ => rfl⟩)
  rcases List.mem_cons.mp hi with rfl | hi
  · rfl
  · simp [DirCmd.writes, hitems i hi]

theorem makeFit_always {items : List Item} (hJ : ∀ D, J (s.fill d D)) (hD : D.Has s.run items) :
    (makeFit d).run.Always (machine tools) Unused J
      (Leaves s d (Dir.Has s.run (.itb d.release :: items))) (s.fill d D) := by
  apply always_inDest hJ
  intro D₁ _ h₁
  have hitb : D₁.Own s.run (.itb d.release) := by
    simp only [DirCmd.effect, Option.bind_eq_bind, Option.bind_eq_some_iff] at h₁
    obtain ⟨its, -, image, -, dtb, -, resource, -, fit, -, h⟩ := h₁
    cases h
    exact ⟨fit, Dir.write_single_self _ _ _ _⟩
  apply always_inDest hJ
  intro D₂ size h₂
  have hD₂ := ((hD.step h₁ (.inl rfl)).cons hitb).step h₂ (.inl rfl)
  unfold Script.check
  split
  · exact ⟨hJ _, fun _ => ⟨D₂, rfl, hD₂⟩⟩
  · exact ⟨hJ _, fun h => absurd rfl h⟩

theorem listed_of_write {run : Nat} {digest : Item → Option Bytes} (i : Item) :
    (D.write run (single .sha256sums (.sums digest))).listed i = digest i := by
  rw [Dir.listed, Dir.write_single_self]

/-- The two rounds of `sha256sum` list what is there. -/
theorem finished_of_sums {items : List Item} {run : Nat} {D₁ D₂ : Dir} {r₁ r₂ : Unit}
    (hD : D.Has run items) (hitems : listedItems d.release ⊆ items)
    (h₁ : (DirCmd.sha256sum (listedItems d.release)).effect tools run D = some (D₁, r₁))
    (h₂ : DirCmd.sha256sumFirmware.effect tools run D₁ = some (D₂, r₂)) :
    Finished tools d.release D₂ := by
  obtain ⟨-, h₁⟩ := Option.ite_none_right_eq_some.mp h₁
  cases h₁
  cases h₂
  refine ⟨run, ?_⟩
  rintro i (hi | ⟨p, rfl, hp⟩)
  · obtain ⟨bytes, hbytes, hblob⟩ := (hD.own i (hitems hi)).blob
    have hne : i ≠ .sha256sums := by
      rintro rfl
      simp [listedItems] at hi
    refine ⟨bytes, ?_, ?_⟩
    · rw [Dir.write_single_of_ne hne, Dir.write_single_of_ne hne, hbytes]
    · have hlisted : ∀ D : Dir, DirCmd.firmwareSums tools D i = D.listed i := by
        intro D
        simp only [listedItems, List.mem_cons, List.not_mem_nil, or_false] at hi
        rcases hi with rfl | rfl | rfl | rfl | rfl <;> rfl
      rw [listed_of_write, hlisted, listed_of_write, if_pos hi, hblob]
      rfl
  · rw [Dir.write_single_of_ne (by simp), Dir.write_single_of_ne (by simp)] at hp
    obtain ⟨bytes, hbytes⟩ := hD.firmware p hp
    have hbytes₁ : ∀ data, D.write run (single .sha256sums data) (.firmware p) =
        some ⟨.blob bytes, run⟩ :=
      fun data => (Dir.write_single_of_ne (by simp)).trans hbytes
    refine ⟨bytes, (Dir.write_single_of_ne (by simp)).trans (hbytes₁ _), ?_⟩
    rw [listed_of_write, DirCmd.firmwareSums, Dir.blob, hbytes₁]
    rfl

theorem sumUp_always {items : List Item} (hJ : ∀ D, J (s.fill d D)) (hD : D.Has s.run items)
    (hitems : listedItems d.release ⊆ items) :
    (sumUp d).run.Always (machine tools) Unused J (Leaves s d (Finished tools d.release))
      (s.fill d D) := by
  apply always_inDest hJ
  intro D₁ _ h₁
  apply always_inDest hJ
  intro D₂ _ h₂
  apply always_last hJ
  intro D' _ h'
  cases h'
  exact finished_of_sums hD hitems h₁ h₂

/-- When everything in the directory has been done it is finished, and on the way nothing else
changes. -/
theorem fillDest_always (hJ : ∀ D, J (s.fill d D)) (hD : D.Has s.run []) :
    (fillDest inputs d).run.Always (machine tools) Unused J
      (Leaves s d (Finished tools d.release)) (s.fill d D) := by
  apply always_part (copyInputs_always hJ hD)
  intro D₁ hD₁
  apply always_part (packModules_always hJ hD₁ (by simp [Item.inModules]))
  intro D₂ hD₂
  apply always_part (makeFit_always hJ hD₂)
  intro D₃ hD₃
  apply sumUp_always hJ hD₃
  intro i hi
  simp only [listedItems, List.mem_cons, List.not_mem_nil, or_false] at hi ⊢
  tauto

/-- `latest` is set to a directory that is finished. -/
theorem inv_link (hs : Sound tools s) (hd : d ∉ s.latest) (hD : Finished tools d.release D) :
    Inv tools s { s.fill d D with latest := d :: s.latest } := by
  have hkept : Kept s (s.fill d D) := Kept.fill hd D
  refine ⟨⟨fun e he => List.mem_cons_of_mem d he, hkept.2⟩, fun e he => ?_⟩
  rcases List.mem_cons.mp he with rfl | he
  · exact ⟨D, fill_dist_self s e D, hD⟩
  · exact hs.of_kept hkept rfl e he

/-- The part between `mkdir -p` and the end: only the new directory changes, until `latest` names
it. -/
theorem destination_always (hs : Sound tools s) (hd : d ∉ s.latest) (hD : D.Has s.run []) :
    (fillDest inputs d >>= fun _ => must (.linkLatest d)).run.Always (machine tools) Unused
      (Inv tools s) (fun _ _ => True) (s.fill d D) := by
  have hJ : ∀ D, Inv tools s (s.fill d D) := fun D => ⟨.fill hd D, hs.of_kept (.fill hd D) rfl⟩
  apply Script.always_bind
  refine (fillDest_always hJ hD).mono ?_
  rintro (_ | ⟨⟩) t _ hleaves
  · trivial
  obtain ⟨D', rfl, hfinished⟩ := hleaves (by simp)
  refine ⟨hJ D', fun c _ => ?_⟩
  cases hok : c.ok with
  | false =>
      have hstep : machine tools c (s.fill d D') (.linkLatest d) = (s.fill d D', none) := by
        simp [machine, hok]
      rw [hstep]
      exact ⟨hJ D', trivial⟩
  | true =>
      have hstep : machine tools c (s.fill d D') (.linkLatest d) =
          ({ s.fill d D' with latest := d :: s.latest }, some ()) := by
        simp [machine, hok, Lab.fill]
      rw [hstep]
      exact ⟨inv_link hs hd hfinished, trivial⟩

/-- A directory that is new, or in which no firmware was left. -/
theorem has_nil_of_unused (h : ∀ D, s.dist d = some D → ∀ p, D (.firmware p) = none) (run : Nat) :
    ((s.dist d).getD fun _ => none).Has run [] := by
  constructor
  · simp
  · intro p hp
    cases hd : s.dist d with
    | none =>
        rw [hd] at hp
        exact absurd rfl hp
    | some D =>
        rw [hd] at hp
        exact absurd (h D hd p) hp

/-- A run whose directory was not there leaves all others alone. -/
theorem create_always (hs : Sound tools s) :
    (must (.mkdirDest d) >>= fun _ => fillDest inputs d >>= fun _ => must (.linkLatest d)).run.Always
      (machine tools) Unused (Inv tools s) (fun _ _ => True) s := by
  have hstart : Inv tools s s := ⟨.refl s, hs⟩
  apply Script.always_must hstart
  · intro c _ hfail
    cases hok : c.ok with
    | false => simpa [machine, hok] using hstart
    | true => simp [machine, hok] at hfail
  · intro c _ hunused hok
    have hok : c.ok = true := by
      by_contra hne
      simp [machine, hne] at hok
    have hstep : (machine tools c s (.mkdirDest d)).1 =
        s.fill d ((s.dist d).getD fun _ => none) := by
      simp [machine, hok]
    rw [hstep]
    exact destination_always hs hunused.1 (has_nil_of_unused hunused.2 s.run)

/-- One run, wherever it stops: what `latest` had named is as it was, and what it names is
finished. -/
theorem buildFit_always (hs : Sound tools s) :
    (buildFit inputs).run.Always (machine tools) Unused (Inv tools s) (fun _ _ => True) s := by
  have hstart : Inv tools s s := ⟨.refl s, hs⟩
  apply Script.always_must hstart
  · exact fun c _ _ => ⟨hstart, trivial⟩
  intro c release _ _
  apply Script.always_must hstart
  · exact fun c _ _ => ⟨hstart, trivial⟩
  intro c minute _ _
  -- Reading the clock changes nothing that `Inv` looks at.
  have hread : Sound tools { s with clock := max s.clock c.now } := hs
  apply Script.always_must ⟨.refl s, hread⟩
  · exact fun c _ _ => ⟨hstart, trivial⟩
  intro c _ _ _
  exact create_always hread

end Run

/-! ### Any number of runs -/

/-- The same for any number of runs, by induction on them. -/
theorem builds_inv {tools : Tools} {s t : Lab} (hs : Sound tools s) (h : Builds tools Unused s t) :
    Inv tools s t := by
  induction h with
  | refl => exact ⟨.refl s, hs⟩
  | @tail t u _ hrun ih =>
      obtain ⟨inputs, hreach⟩ := hrun
      have hstart : Sound tools { t with run := t.run + 1 } := ih.2
      obtain ⟨hkept, hsound⟩ := (buildFit_always hstart).reaches hreach
      exact ⟨ih.1.trans hkept, hsound⟩

/-- In every sequence of runs each of which finds its directory unused, a directory that
`latest` has named never changes again, and `latest` names a finished one. -/
theorem distKept_of_unused (tools : Tools) : DistKept tools Unused := by
  intro s t hs ht
  have hempty : Sound tools .empty := fun d hd => by cases hd
  have hsound : Sound tools s := (builds_inv hempty hs).2
  obtain ⟨hkept, hsound'⟩ := builds_inv hsound ht
  constructor
  · intro d hd
    obtain ⟨D, hD, -⟩ := hsound d hd
    exact ⟨D, hD, (hkept.2 d hd).trans hD⟩
  · intro d hd
    exact hsound' d (List.mem_of_head? hd)

/-- Tools that leave everything as it is. -/
def plainTools : Tools where
  tar := fun _ tree => (tree ["modules.dep"]).getD []
  zstd := id
  mkimage := fun its image dtb resource => some (its ++ image ++ dtb ++ resource)
  sha256 := id

def someRelease : Release := ⟨"6.18.49-hub11", by decide, by decide⟩

/-- A kernel output and a repository in which nothing is missing. -/
def someInputs : Inputs where
  release := some someRelease
  image := some [1]
  dtb := fun _ => some [2]
  modules := some fun p => if p = ["lib", "modules", "6.18.49-hub11", "modules.dep"] then some [3] else none
  resourceImg := some [4]
  its := some [5]
  brcm := some fun _ => none
  mali := some [6]
  hub11Dtb := ""

/-- Every command succeeds, all in the same minute. -/
def smooth : Choice := ⟨true, 7, fun _ => none⟩

/-- The lab after one run in which nothing fails. -/
def labOnce : Lab :=
  ((buildFit someInputs).run.after (machine plainTools) (List.replicate 26 smooth)
    { Lab.empty with run := 1 }).2

/-- A second run a minute later. -/
def labLater : Lab :=
  ((buildFit someInputs).run.after (machine plainTools) (List.replicate 26 ⟨true, 8, fun _ => none⟩)
    { labOnce with run := 2 }).2

theorem distKept_of_unused_later :
    labLater.latest = [⟨8, someRelease⟩, ⟨7, someRelease⟩] ∧
      (∀ d ∈ labOnce.latest, ∃ D, labOnce.dist d = some D ∧ labLater.dist d = some D) ∧
      ∀ d, labLater.latest.head? = some d →
        ∃ D, labLater.dist d = some D ∧ Finished plainTools d.release D := by
  have hfirst : Builds plainTools Unused .empty labOnce := by
    refine .single ⟨someInputs, List.replicate 26 smooth, ⟨trivial, trivial, trivial, ⟨?_, ?_⟩, trivial,
      trivial, trivial, trivial, trivial, trivial, trivial, trivial, trivial, trivial, trivial, trivial,
      trivial, trivial, trivial, trivial, trivial, trivial, trivial, trivial, trivial, trivial,
      trivial⟩, rfl⟩
    · exact List.not_mem_nil
    · exact fun _ h => by cases h
  have hsecond : Builds plainTools Unused labOnce labLater := by
    refine .single ⟨someInputs, List.replicate 26 ⟨true, 8, fun _ => none⟩, ⟨trivial, trivial, trivial,
      ⟨?_, ?_⟩, trivial, trivial, trivial, trivial, trivial, trivial, trivial, trivial, trivial,
      trivial, trivial, trivial, trivial, trivial, trivial, trivial, trivial, trivial, trivial,
      trivial, trivial, trivial, trivial⟩, rfl⟩
    · decide
    · exact fun _ h => by cases h
  exact ⟨by decide, distKept_of_unused plainTools labOnce labLater hfirst hsecond⟩

/-- A second run in the same minute, whose first copy fails when it has cut the file to nothing. -/
def labTwice : Lab :=
  ((buildFit someInputs).run.after (machine plainTools)
    (List.replicate 4 smooth ++ [⟨false, 7, fun _ => some ⟨.blob [], 2⟩⟩]) { labOnce with run := 2 }).2

theorem not_distKept_same_minute : ¬ DistKept plainTools Anything := by
  intro h
  have hfirst : Builds plainTools Anything .empty labOnce :=
    .single ⟨someInputs, _, Prog.meets_anything _ _ _ _, rfl⟩
  have hsecond : Builds plainTools Anything labOnce labTwice :=
    .single ⟨someInputs, _, Prog.meets_anything _ _ _ _, rfl⟩
  obtain ⟨D, hD, hD'⟩ := (h _ _ hfirst hsecond).1 ⟨7, someRelease⟩ (by decide)
  have himage : (labOnce.dist ⟨7, someRelease⟩).any (fun D => D.blob .image = some [1]) = true := by
    decide
  have himage' : (labTwice.dist ⟨7, someRelease⟩).any (fun D => D.blob .image = some [1]) = false := by
    decide
  rw [hD] at himage
  rw [hD', himage] at himage'
  cases himage'

end Hub11.Scripts.BuildFit
