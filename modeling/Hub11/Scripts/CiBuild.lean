import Hub11.Scripts.BuildFit
import Hub11.Scripts.KernelTree

/-!
`ci-build.sh` beside `build-kernel.sh` and `build-fit.sh`.

The script clones the tag, applies the patches, copies the device trees, and packs the
output of the kernel into one directory. It does not copy `kernel-extra`, and it puts no
firmware into the directory.
-/

namespace Hub11.Scripts.CiBuild

open Hub11.Effect
open Hub11.Scripts.KernelTree (Git Kbuild Repo Site Clone dtsPath Brings Hands)
open Hub11.Scripts.BuildFit (Inputs DirName Lab)

/-! ### The kernel tree -/

section Tree

variable {Patch : Type}

/-- `git am` for each patch; the script ends at the first one that fails. -/
def applyPatches : List Patch → KernelTree.Shell Patch Unit
  | [] => pure ()
  | patch :: rest => do
      KernelTree.must (.am patch)
      applyPatches rest

/-- `ci-build.sh`, up to the point where it calls `make`. A pattern that matches nothing
stands for itself here, and there is no such file. -/
def prepare (R : Repo Patch) : KernelTree.Shell Patch Unit :=
  match R.tag with
  | none => Script.abort
  | some tag => do
      KernelTree.must (.gitClone tag)
      Script.check (R.patches.isEmpty = false)
      applyPatches R.patches
      Script.check (R.dts.isEmpty = false)
      KernelTree.must (.cp (some (R.dts.map fun d => (dtsPath d.1, d.2))))
      KernelTree.must .mkdirOut
      KernelTree.must (.mergeConfig R.hub11Config R.hub11InfraConfig)

end Tree

/-! ### The dist directory -/

/-- `grep -qE '^6\.18\.[0-9]+-hub11$'`, on the one line that the release is. -/
def releaseOk (release : Release) : Bool :=
  let rest := release.name.toList.drop 5
  release.name.toList.take 5 == "6.18.".toList && !(rest.takeWhile Char.isDigit).isEmpty &&
    rest.dropWhile Char.isDigit == "-hub11".toList

structure Choice where
  ok : Bool
  /-- What a command that fails leaves behind. -/
  left : Dir

/-- A machine with one directory. -/
def machine (tools : Tools) (run : Nat) : Chooser Choice Dir DirCmd fun op => Option op.Reply :=
  fun c D op =>
    match if c.ok then op.effect tools run D else none with
    | some (D', r) => (D', some r)
    | none => (op.spoil c.left D, none)

abbrev Shell := Script DirCmd DirCmd.Reply

abbrev must (op : DirCmd) : Shell op.Reply := Script.must op

def summed (release : Release) : List Item :=
  [.image, .vendorDtb, .boardDtb "rk3588-hub11.dtb", .boardDtb "rk3588-hub11-sdhs.dtb",
    .resourceImg, .itb release, .modulesTarZst]

/-- `ci-build.sh`, from the kernel output on. No command of it writes below `firmware/`. -/
def pack (inputs : Inputs) (release : Release) : Shell Unit := do
  Script.check (releaseOk release = true)
  must .mkdir
  must (.cp inputs.image .image)
  must (.cp (inputs.dtb "rk3588-hub11.dtb") .vendorDtb)
  must (.cp (inputs.dtb "rk3588-hub11.dtb") (.boardDtb "rk3588-hub11.dtb"))
  must (.cp (inputs.dtb "rk3588-hub11-sdhs.dtb") (.boardDtb "rk3588-hub11-sdhs.dtb"))
  must (.cp inputs.resourceImg .resourceImg)
  must (.cp inputs.its .its)
  must (.echo (line release.name) .krel)
  must (.modulesInstall inputs.modules)
  must (.tarZstd release)
  must (.rm Item.inModules)
  must (.mkimage release)
  let size ← must (.stat (.itb release))
  Script.check (size < fitCap)
  must (.sha256sum (summed release))

/-! ### Both ways to build -/

variable {Patch : Type}

/-- What a build hands to `make`, and the directory it makes of the kernel output. The kernel build
in between is left out. -/
structure Result (git : Git Patch) where
  handed : Site git
  dist : Dir

/-- A run of `ci-build.sh` comes to its end with this result. -/
def Builds (tools : Tools) (kbuild : Kbuild) {git : Git Patch} (R : Repo Patch) (K : Inputs)
    (release : Release) (result : Result git) : Prop :=
  (∃ s, (prepare R).run.Ends (KernelTree.machine kbuild) Anything s (some ()) result.handed) ∧
    (pack K release).run.Ends (machine tools 0) Anything (fun _ => none) (some ()) result.dist

/-- The same of `build-kernel.sh` in a fresh clone and of `build-fit.sh` in a directory that is
empty. -/
def LabBuilds (tools : Tools) (kbuild : Kbuild) {git : Git Patch} (R : Repo Patch) (K : Inputs)
    (release : Release) (result : Result git) : Prop :=
  (∃ tag, R.tag = some tag ∧ Hands kbuild R (.fresh git tag) result.handed) ∧
    ∃ (s t : Lab) (d : DirName), d.release = release ∧
      (BuildFit.fillDest K d).run.Ends (BuildFit.machine tools) Anything (s.fill d fun _ => none)
        (some ()) t ∧ t.dist d = some result.dist

/-- What `stage-modules.sh` and `flash-boot.sh` read is there, as in the other directory. The
firmware directory has to be there too, as `scp` fails without it. -/
structure Serves (release : Release) (D D' : Dir) : Prop where
  items : ∀ i ∈ [.krel, .modulesTarZst, .itb release], D.blob i ≠ none ∧ D.blob i = D'.blob i
  firmware : ∃ p, D.blob (.firmware p) ≠ none
  same : ∀ p, D.blob (.firmware p) = D'.blob (.firmware p)

/-- The first build mirrors the second one: the same tree and configuration go to `make`, and the
two directories serve alike. -/
structure Mirrors {git : Git Patch} (release : Release) (ci lab : Result git) : Prop where
  work : ci.handed.clone.work = lab.handed.clone.work
  config : ci.handed.config = lab.handed.config
  dist : Serves release ci.dist lab.dist

/-! ### No extra drivers -/

section Work

variable {git : Git Patch} {kbuild : Kbuild} {s : Site git}

theorem applyPatches_brings {tree rest : Tree} (patches : List Patch)
    (h : KernelTree.Holds tree rest s) :
    Brings kbuild (applyPatches patches) s (KernelTree.Patched tree rest patches) := by
  induction patches generalizing s tree rest with
  | nil => exact KernelTree.brings_pure h.patched_nil
  | cons patch patches ih =>
      refine KernelTree.brings_must fun t ht => ?_
      obtain ⟨next, hnext, hholds⟩ := h.am ht
      exact Prog.Always.mono (ih hholds) fun r t _ hyields hr => (hyields hr).cons hnext

/-- With different names it does not matter in which order the device trees are copied. -/
theorem lookup_dts {dts : List (String × Bytes)} (h : (dts.map Prod.fst).Nodup) (p : RelPath) :
    (dts.map fun d => (dtsPath d.1, d.2)).lookup p = KernelTree.dtsCopies dts p := by
  induction dts with
  | nil => rfl
  | cons d dts ih =>
      obtain ⟨name, bytes⟩ := d
      obtain ⟨hname, hdts⟩ := List.nodup_cons.mp h
      rw [KernelTree.dtsCopies, ← ih hdts]
      by_cases hp : p = dtsPath name
      · have hnone : (dts.map fun d => (dtsPath d.1, d.2)).lookup p = none := by
          rw [List.lookup_eq_none_iff]
          rintro _ hmem
          obtain ⟨d, hd, rfl⟩ := List.mem_map.mp hmem
          have hne : name ≠ d.1 := fun heq => hname (List.mem_map.mpr ⟨d, hd, heq.symm⟩)
          simpa [hp, dtsPath] using hne
        rw [hnone, if_pos hp, Option.none_or]
        simp [hp]
      · have hne : (p == dtsPath name) = false := by simpa using hp
        rw [if_neg hp, Option.or_none, List.map_cons, List.lookup_cons, hne]

/-- The tree that the script hands to `make`. -/
theorem prepare_brings (R : Repo Patch) :
    Brings kbuild (prepare R) s fun t => ∃ tag tree patched, R.tag = some tag ∧
      git.remote tag = some tree ∧ KernelTree.series git tree R.patches = some patched ∧
      t.clone.work = fun p => (KernelTree.dtsCopies R.dts p).or (patched p) := by
  unfold prepare
  cases htag : R.tag with
  | none => exact KernelTree.brings_abort
  | some tag =>
      apply KernelTree.brings_must
      intro s₁ hs₁
      obtain ⟨hremote, hs₁⟩ := Option.ite_none_right_eq_some.mp hs₁
      obtain ⟨tree, hremote⟩ := Option.isSome_iff_exists.mp hremote
      cases hs₁
      have hholds : KernelTree.Holds tree (fun _ => none)
          ({ s with clone := .fresh git tag } : Site git) := by
        have hindex : (Clone.fresh git tag).index = tree := by
          change (git.remote tag).getD _ = tree
          rw [hremote]
          rfl
        exact ⟨hindex, by simp only [Option.or_none]; exact hindex⟩
      refine Script.always_check trivial (fun _ h => absurd rfl h) fun _ => ?_
      apply KernelTree.brings_bind (applyPatches_brings R.patches hholds)
      rintro s₂ ⟨patched, hpatched, hholds₂⟩
      refine Script.always_check trivial (fun _ h => absurd rfl h) fun _ => ?_
      apply KernelTree.brings_must
      intro s₃ hs₃
      cases hs₃
      apply KernelTree.brings_must
      intro s₄ hs₄
      cases hs₄
      apply KernelTree.brings_last
      intro t ht
      simp only [KernelTree.effect, Option.bind_eq_bind, Option.bind_eq_some_iff] at ht
      obtain ⟨defconfig, -, hub11, -, infra, -, ht⟩ := ht
      cases ht
      refine ⟨tag, tree, patched, rfl, hremote, hpatched, ?_⟩
      change (fun p => (List.lookup p _).or (s₂.clone.work p)) = _
      rw [hholds₂.work]
      funext p
      rw [lookup_dts R.dtsNodup p]
      simp

/-- Both builds hand over the same tree exactly if `kernel-extra` brings nothing new. -/
theorem work_eq_iff {tools : Tools} {R : Repo Patch} {K : Inputs} {release : Release}
    {ci lab : Result git} (hci : Builds tools kbuild R K release ci)
    (hlab : LabBuilds tools kbuild R K release lab) :
    ci.handed.clone.work = lab.handed.clone.work ↔
      ∀ p, KernelTree.extraCopies R.kernelExtra p ≠ none →
        KernelTree.extraCopies R.kernelExtra p = ci.handed.clone.work p := by
  obtain ⟨⟨s, hends⟩, -⟩ := hci
  obtain ⟨⟨tag', htag', hhands⟩, -⟩ := hlab
  obtain ⟨tag, tree, patched, htag, hremote, hseries, hwork⟩ :=
    (prepare_brings R).ends hends (by simp)
  obtain ⟨tag₁, htag₁, tree₁, patched₁, hremote₁, hseries₁, hwork₁⟩ := hhands.assembled
  obtain rfl : tag = tag₁ := Option.some.inj (htag.symm.trans htag₁)
  obtain rfl : tag = tag' := Option.some.inj (htag.symm.trans htag')
  cases hremote.symm.trans hremote₁
  cases hseries.symm.trans hseries₁
  have hnone : (Site.fresh git tag).clone.untracked = fun _ => none :=
    KernelTree.untracked_fresh git tag
  have hlabwork : lab.handed.clone.work = fun p =>
      (KernelTree.extraCopies R.kernelExtra p).or (ci.handed.clone.work p) := by
    rw [hwork₁, hwork, hnone]
    funext p
    simp [Repo.copies, Option.or_assoc]
  rw [hlabwork]
  constructor
  · intro heq p hp
    obtain ⟨bytes, hbytes⟩ := Option.ne_none_iff_exists'.mp hp
    rw [congrFun heq p, hbytes, Option.some_or]
  · intro hall
    funext p
    cases hp : KernelTree.extraCopies R.kernelExtra p with
    | none => rw [Option.none_or]
    | some bytes => rw [← hall p (by simp [hp]), hp, Option.some_or]

end Work

/-! ### No firmware -/

/-- Commands that leave `firmware/` alone. -/
def SparesFirmware (c : DirCmd) : Prop := ∀ p, c.writes (.firmware p) = false

theorem machine_sparesFirmware {tools : Tools} {run : Nat} (c : Choice) (D : Dir) (op : DirCmd)
    (hop : SparesFirmware op) (hD : ∀ p, D (.firmware p) = none) :
    ∀ p, (machine tools run c D op).1 (.firmware p) = none := by
  intro p
  unfold machine
  cases he : (if c.ok then op.effect tools run D else none) with
  | none =>
      change (if op.writes (.firmware p) = true then c.left _ else D _) = none
      rw [hop p]
      exact hD p
  | some out =>
      have h := (Option.ite_none_right_eq_some.mp he).2
      exact (DirCmd.effect_frame h (hop p)).trans (hD p)

theorem pack_sparesFirmware (K : Inputs) (release : Release) :
    (pack K release).run.Issues SparesFirmware := by
  apply Script.issues_check
  iterate 13
    apply Script.issues_must (fun p => rfl)
    intro _
  apply Script.issues_check
  exact Prog.issues_perform fun p => rfl

theorem pack_no_firmware {tools : Tools} {run : Nat} {K : Inputs} {release : Release}
    {r : Option Unit} {D : Dir}
    (h : (pack K release).run.Ends (machine tools run) Anything (fun _ => none) r D) :
    ∀ p, D (.firmware p) = none := by
  have always : (pack K release).run.Always (machine tools run) Anything
      (fun D => ∀ p, D (.firmware p) = none) (fun _ _ => True) fun _ => none :=
    (pack_sparesFirmware K release).always (fun c D op _ => machine_sparesFirmware c D op) fun p => rfl
  exact always.reaches h.reaches

/-- No run of `ci-build.sh` mirrors the lab build: there is no firmware for
`stage-modules.sh` to read. -/
theorem not_mirrors_of_builds {tools : Tools} {kbuild : Kbuild} {git : Git Patch} {R : Repo Patch}
    {K : Inputs} {release : Release} {ci : Result git} (h : Builds tools kbuild R K release ci)
    (lab : Result git) : ¬ Mirrors release ci lab := by
  rintro ⟨-, -, hserves⟩
  obtain ⟨p, hp⟩ := hserves.firmware
  exact hp (by rw [Dir.blob, pack_no_firmware h.2 p])

/-! ### A version for which both builds come to their end -/

/-- One patch, one device tree and one extra driver. -/
def someRepo : Repo Unit where
  kernelTag := ["v6.18"]
  patches := [()]
  dts := [("rk3588-hub11.dts", [3])]
  kernelExtra := some (some [(["drivers", "net", "wireless", "rockchip_wlan", "Kconfig"], [4])])
  hub11Config := some [1]
  hub11InfraConfig := some [2]
  dtsNodup := by decide

def ciResult : Result KernelTree.smallGit where
  handed := ((prepare someRepo).run.after (KernelTree.machine KernelTree.smallKbuild)
    (List.replicate 5 KernelTree.smallChoice) (.fresh KernelTree.smallGit "v6.18")).2
  dist := ((pack BuildFit.someInputs BuildFit.someRelease).run.after (machine BuildFit.plainTools 0)
    (List.replicate 15 ⟨true, fun _ => none⟩) fun _ => none).2

theorem ciResult_builds : Builds BuildFit.plainTools KernelTree.smallKbuild someRepo
    BuildFit.someInputs BuildFit.someRelease ciResult := by
  constructor
  · exact ⟨.fresh KernelTree.smallGit "v6.18", List.replicate 5 KernelTree.smallChoice,
      Prog.meets_anything _ _ _ _, rfl⟩
  · exact ⟨List.replicate 15 ⟨true, fun _ => none⟩, Prog.meets_anything _ _ _ _, rfl⟩

/-- The dist directory of the lab, and the lab after `build-fit.sh`. -/
def someDest : DirName := ⟨7, BuildFit.someRelease⟩

def labAfter : Lab :=
  ((BuildFit.fillDest BuildFit.someInputs someDest).run.after (BuildFit.machine BuildFit.plainTools)
    (List.replicate 21 BuildFit.smooth) (Lab.empty.fill someDest fun _ => none)).2

def labResult : Result KernelTree.smallGit where
  handed := KernelTree.smallHanded someRepo (.fresh KernelTree.smallGit "v6.18")
  dist := (labAfter.dist someDest).getD fun _ => none

theorem labResult_builds : LabBuilds BuildFit.plainTools KernelTree.smallKbuild someRepo
    BuildFit.someInputs BuildFit.someRelease labResult := by
  refine ⟨⟨"v6.18", by decide, KernelTree.hands_small someRepo _ rfl⟩, ?_⟩
  refine ⟨.empty, labAfter, someDest, rfl, ?_, rfl⟩
  exact ⟨List.replicate 21 BuildFit.smooth, Prog.meets_anything _ _ _ _, rfl⟩

theorem not_mirrors_of_builds_some : ¬ Mirrors BuildFit.someRelease ciResult labResult :=
  not_mirrors_of_builds ciResult_builds labResult

/-- Whenever both builds come to their end, the first mirrors the second, whatever repository and
kernel output they are given. -/
def AlwaysMirrors (tools : Tools) (kbuild : Kbuild) (git : Git Patch) : Prop :=
  ∀ (R : Repo Patch) (K : Inputs) (release : Release) (ci lab : Result git),
    Builds tools kbuild R K release ci → LabBuilds tools kbuild R K release lab →
      Mirrors release ci lab

theorem not_alwaysMirrors :
    ¬ AlwaysMirrors BuildFit.plainTools KernelTree.smallKbuild KernelTree.smallGit := by
  intro h
  have hmirrors := h someRepo _ _ _ _ ciResult_builds labResult_builds
  have hwork := congrFun hmirrors.work ["drivers", "net", "wireless", "rockchip_wlan", "Kconfig"]
  have hci : ciResult.handed.clone.work ["drivers", "net", "wireless", "rockchip_wlan", "Kconfig"] =
      none := by decide
  have hlab : labResult.handed.clone.work
      ["drivers", "net", "wireless", "rockchip_wlan", "Kconfig"] = some [4] := by decide
  rw [hci, hlab] at hwork
  cases hwork

end Hub11.Scripts.CiBuild
