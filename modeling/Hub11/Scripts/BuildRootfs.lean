import Mathlib.Data.List.Infix
import Mathlib.Logic.Relation
import Hub11.Effect.Script

/-!
The mounts of `build-rootfs.sh`.

For the hooks the script mounts `/dev`, `/dev/pts`, `proc` and `sysfs` of the host below
`$ROOT`. An `EXIT` trap unmounts them again, and so does the script itself before it packs
the tree. The mount table is the part of the host that survives a run: a run that is killed
has no trap, and the next one starts with `rm -rf "$WORK"`.

Only the mount table is state. What a command finds in the tree and whether it succeeds is
a choice. `debootstrap` unmounts what it mounts, and no hook mounts anything.
-/

namespace Hub11.Scripts.BuildRootfs

open Hub11.Effect

/-- Where a file system of the host is mounted, below `$ROOT`. -/
inductive Point where
  | devPts
  | dev
  | proc
  | sys
deriving DecidableEq

/-- `umount -l`: the last mount at this place goes, and whatever is mounted on it goes with
it. The mounts are listed with the last one first. -/
def detach (p : Point) : List Point → Option (List Point)
  | [] => none
  | q :: mounts =>
      if q = p then
        some mounts
      else if p = .devPts ∧ q = .dev then
        -- An older `dev/pts` is hidden below this `dev`.
        none
      else if p = .dev ∧ q = .devPts then
        detach p mounts
      else
        (detach p mounts).map (q :: ·)

/-- What a run leaves behind on the host: the mounts below `$ROOT`. It is kept what was mounted
whenever something was deleted or packed. -/
structure Host where
  /-- What is mounted below `$ROOT`, the last mount first. -/
  mounts : List Point
  /-- The mounts at each `rm -rf "$WORK"` and at each `tar` so far. -/
  swept : List (List Point)
deriving DecidableEq

/-- Nothing of the host has been deleted or archived. -/
def Host.Spared (h : Host) : Prop := ∀ mounts ∈ h.swept, mounts = []

/-- The commands of the script. All but the mounts, `rm -rf` and `tar` only succeed or fail here. -/
inductive Cmd where
  | cdMeta
  | idRoot
  | commandV (tool : String)
  | readlinkDist
  | testKrel
  | catKrel
  | testModulesTar
  | rmWork
  | mkdirRoot
  | debootstrap
  | cpOverlay
  | chmodConnections
  | mkdirModules
  | untarModules
  | testModulesDep
  | cpFirmware
  | testSecret (name : String)
  | installSecret (name : String)
  | grepInterface
  | sedInterface
  | installDir (path : String)
  | writeJoinEnv
  | chmodJoinEnv
  | mkdirWants
  | lnJoinUnit
  | mount (p : Point)
  | installResolvConf
  | mvResolvConf
  | writePolicy
  | chmodPolicy
  | mkdirBuild
  | testPackages (profile : String)
  | grepPackages (profile : String)
  | cpHooks
  | chrootHook (hook : String)
  | rmBuild
  | umount (p : Point)
  | testNoTailscaleState
  | testNoHostKeys
  | testNoLeaks
  | date
  | mkdirOut
  | tar
  | chrootDpkgQuery
  | writeManifest
  | sha256sum
  | chown
  | lnLatest
  | du
deriving DecidableEq

abbrev Reply (_ : Cmd) : Type := Unit

structure Choice where
  ok : Bool
  /-- A `mount` that fails may still have done its work. -/
  effect : Bool

def machine : Chooser Choice Host Cmd fun op => Option (Reply op) := fun c h op =>
  let done : Option Unit := if c.ok then some () else none
  match op with
  -- A mount point cannot be removed, but everything below it can.
  | .rmWork => ({ h with swept := h.mounts :: h.swept }, if h.mounts = [] then done else none)
  | .tar => ({ h with swept := h.mounts :: h.swept }, done)
  | .mount p => (if c.ok || c.effect then { h with mounts := p :: h.mounts } else h, done)
  | .umount p =>
      if c.ok then
        ({ h with mounts := (detach p h.mounts).getD h.mounts }, (detach p h.mounts).map fun _ => ())
      else
        (h, none)
  | _ => (h, done)

/-- The commands that have nothing to do with the mounts. -/
def Cmd.Quiet : Cmd → Prop
  | .rmWork => False
  | .tar => False
  | .mount _ => False
  | .umount _ => False
  | _ => True

/-- `ROOTFS_PROFILES`, `ALLOW_MISSING_SECRETS` and `rootfs/hooks/*.sh`: what decides which commands
are run. -/
structure Config where
  profiles : List String
  allowMissingSecrets : Bool
  hooks : List String

abbrev Shell := Script Cmd Reply

open Script

/-- Everything before the first `rm -rf "$WORK"`. -/
def preflight : Shell Unit := do
  must .cdMeta
  must .idRoot
  forEach (fun tool => must (.commandV tool))
    ["debootstrap", "qemu-aarch64-static", "zstd", "tar", "chroot"]
  must .readlinkDist
  must .testKrel
  must .catKrel
  must .testModulesTar

def cleanup : Shell Unit :=
  forEach (fun m => do let _ ← attempt (.umount m)) [.devPts, .dev, .proc, .sys]

/-- Base system, overlay, modules and firmware. -/
def populate : Shell Unit := do
  must .debootstrap
  must .cpOverlay
  let _ ← attempt .chmodConnections
  must .mkdirModules
  must .untarModules
  must .testModulesDep
  must .cpFirmware

/-- One of the secrets: `install` it if it is there. If it is missing, the run goes on only if that
is allowed. -/
def secret (cfg : Config) (name : String) (install : Shell Unit) : Shell Unit := do
  let present ← attempt (.testSecret name)
  if present.isSome then
    install
  else
    check (cfg.allowMissingSecrets = true)

def secrets (cfg : Config) : Shell Unit := do
  secret cfg "nope_5g.nmconnection" do
    must (.installSecret "nope_5g.nmconnection")
    let named ← attempt .grepInterface
    if named.isNone then
      must .sedInterface
  secret cfg "authorized_keys" do
    must (.installDir "tmp/authkeys")
    must (.installSecret "authorized_keys")
  if "infra" ∈ cfg.profiles then
    secret cfg "k3s-token" do
      must (.installDir "etc/rancher/k3s")
      must .writeJoinEnv
      must .chmodJoinEnv
      must .mkdirWants
      must .lnJoinUnit

def mounting : Shell Unit := forEach (fun p => must (.mount p)) [.proc, .sys, .dev, .devPts]

/-- From `resolv.conf` to the end of the hooks. -/
def hooks (cfg : Config) : Shell Unit := do
  must .installResolvConf
  must .mvResolvConf
  must .writePolicy
  must .chmodPolicy
  must .mkdirBuild
  forEach (fun p => do
    must (.testPackages p)
    must (.grepPackages p)) (cfg.profiles.filter (· ≠ "base"))
  must .cpHooks
  forEach (fun h => must (.chrootHook h)) cfg.hooks
  must .rmBuild

/-- The part under `trap cleanup EXIT`: if any command of it fails, the trap unmounts and the run
ends. -/
def inside (cfg : Config) : Shell Unit := do
  populate
  secrets cfg
  mounting
  hooks cfg

def leakGate : Shell Unit := do
  must .testNoTailscaleState
  must .testNoHostKeys
  must .testNoLeaks

/-- What is done with the tarball. -/
def finish : Shell Unit := do
  must .writeManifest
  must .chrootDpkgQuery
  must .sha256sum
  must .chown
  must .lnLatest

/-- `build-rootfs.sh`, with `$WORK` removed at the beginning and again at the end. A run that is
killed does neither, nor its trap. -/
def buildRootfs (cfg : Config) : Shell Unit := do
  preflight
  must .rmWork
  must .mkdirRoot
  inside cfg <|> do
    cleanup
    abort
  cleanup
  leakGate
  must .date
  must .mkdirOut
  must .tar
  finish
  must .rmWork
  must .du

/-- Builds one after the other, each of which comes to its end or is killed in a state that
`Kill` allows. -/
def Builds (G : Guard Choice Host Cmd) (Kill : Host → Prop) : Host → Host → Prop :=
  Relation.ReflTransGen fun h h' => ∃ cfg,
    (∃ r, (buildRootfs cfg).run.Ends machine G h r h') ∨
      ((buildRootfs cfg).run.Reaches machine G h h' ∧ Kill h')

/-- No `rm -rf "$WORK"` and no `tar` ever meets a mount of the host, in any run after any sequence
of runs that failed or were killed. -/
def SparesHost (G : Guard Choice Host Cmd) (Kill : Host → Prop) : Prop :=
  ∀ h h' cfg, Builds G Kill ⟨[], []⟩ h → (buildRootfs cfg).run.Reaches machine G h h' → h'.Spared

/-- An `umount` of something that is mounted succeeds. The one of `dev/pts` need not: it is
detached with `dev`. -/
def Unmounts : Guard Choice Host Cmd := fun c h op =>
  match op with
  | .umount p => p ∈ h.mounts → p ≠ .devPts → c.ok = true
  | _ => True

/-- A run is killed only while nothing is mounted. -/
def NothingMounted (h : Host) : Prop := h.mounts = []

/-! ### The commands that change nothing -/

theorem machine_quiet (c : Choice) (h : Host) (op : Cmd) (hop : op.Quiet) :
    (machine c h op).1 = h := by
  cases op with
  | rmWork => exact hop.elim
  | tar => exact hop.elim
  | mount p => exact hop.elim
  | umount p => exact hop.elim
  | _ => rfl

theorem preflight_quiet : preflight.run.Issues Cmd.Quiet := by
  refine issues_must trivial fun _ => issues_must trivial fun _ => ?_
  refine issues_bind (issues_forEach _ fun _ => Prog.issues_perform trivial) fun _ => ?_
  repeat refine issues_must trivial fun _ => ?_
  exact Prog.issues_perform trivial

theorem populate_quiet : populate.run.Issues Cmd.Quiet := by
  refine issues_must trivial fun _ => issues_must trivial fun _ => ?_
  refine issues_attempt trivial fun _ => ?_
  repeat refine issues_must trivial fun _ => ?_
  exact Prog.issues_perform trivial

theorem secret_quiet (cfg : Config) (name : String) {install : Shell Unit}
    (h : install.run.Issues Cmd.Quiet) : (secret cfg name install).run.Issues Cmd.Quiet := by
  refine issues_attempt trivial fun present => ?_
  split
  · exact h
  · unfold check
    split <;> trivial

theorem secrets_quiet (cfg : Config) : (secrets cfg).run.Issues Cmd.Quiet := by
  refine issues_bind (secret_quiet cfg _ ?_) fun _ => issues_bind (secret_quiet cfg _ ?_) fun _ => ?_
  · refine issues_must trivial fun _ => issues_attempt trivial fun named => ?_
    split
    · exact Prog.issues_perform trivial
    · trivial
  · exact issues_must trivial fun _ => Prog.issues_perform trivial
  · split
    · refine secret_quiet cfg _ ?_
      repeat refine issues_must trivial fun _ => ?_
      exact Prog.issues_perform trivial
    · trivial

theorem hooks_quiet (cfg : Config) : (hooks cfg).run.Issues Cmd.Quiet := by
  repeat refine issues_must trivial fun _ => ?_
  refine issues_bind (issues_forEach _ fun _ => ?_) fun _ => ?_
  · exact issues_must trivial fun _ => Prog.issues_perform trivial
  · refine issues_must trivial fun _ => ?_
    refine issues_bind (issues_forEach _ fun _ => Prog.issues_perform trivial) fun _ => ?_
    exact Prog.issues_perform trivial

theorem leakGate_quiet : leakGate.run.Issues Cmd.Quiet := by
  repeat refine issues_must trivial fun _ => ?_
  exact Prog.issues_perform trivial

theorem finish_quiet : finish.run.Issues Cmd.Quiet := by
  repeat refine issues_must trivial fun _ => ?_
  exact Prog.issues_perform trivial

/-! ### The mounts -/

/-- What is mounted while the hooks run, the last mount first. -/
def chain : List Point := [.devPts, .dev, .sys, .proc]

/-- What may still be mounted when `cleanup` has come to these places: a mount that failed may have
done its work, and `/dev` cannot go before what is mounted in it. -/
def left (places : List Point) : List Point :=
  chain.filter fun p => p ∈ places ∨ p = .devPts ∧ .dev ∈ places

/-- One `umount` of `cleanup`, whether it succeeds or is excused. -/
theorem detach_left : ∀ places ∈ [Point.devPts, .dev, .proc, .sys].tails, ∀ p ∈ places.head?,
    ∀ mounts ∈ (left places).tails, (detach p mounts).getD mounts ∈ (left places.tail).tails ∧
      ((p ∈ mounts → p = .devPts) → mounts ∈ (left places.tail).tails) := by
  decide

section Proof

variable {h : Host} {α : Type}

/-- A stretch of commands that have nothing to do with the mounts. -/
theorem always_quiet {p : Shell Unit} {f : Unit → Shell α} {Q : Option α → Host → Prop}
    (hp : p.run.Issues Cmd.Quiet) (hh : h.Spared) (hfail : Q none h)
    (hok : (f ()).run.Always machine Unmounts Host.Spared Q h) :
    (p >>= f).run.Always machine Unmounts Host.Spared Q h := by
  refine always_bind ((hp.always_unchanged machine_quiet hh).mono ?_)
  rintro r t - rfl
  cases r with
  | none => exact hfail
  | some _ => exact hok

/-- While the four mounts are made, what is mounted is an end of the chain, the last mount being in
front. -/
theorem mounting_always (hh : h.Spared) (hm : h.mounts = []) :
    mounting.run.Always machine Unmounts Host.Spared (fun _ t => t.mounts ∈ chain.tails) h := by
  unfold mounting
  refine always_forEach (K := fun places t => places.reverse ++ t.mounts = chain)
    (fun t _ ht => ?_) (fun p places t hspared ht => ?_) hh (by rw [hm]; rfl)
  · rw [List.mem_tails]
    exact ⟨[], ht⟩
  have hpushed : places.reverse ++ p :: t.mounts = chain := by
    rw [← ht, List.reverse_cons, List.append_assoc]
    rfl
  have hsame : t.mounts ∈ chain.tails := (List.mem_tails _ _).mpr ⟨_, ht⟩
  have hmore : p :: t.mounts ∈ chain.tails := (List.mem_tails _ _).mpr ⟨_, hpushed⟩
  refine ⟨hspared, fun c _ => ?_⟩
  rcases hok : c.ok with _ | _
  · rcases heffect : c.effect with _ | _ <;> simp only [machine, hok, heffect]
    · exact ⟨hspared, hsame⟩
    · exact ⟨hspared, hmore⟩
  · simp only [machine, hok]
    exact ⟨hspared, hpushed⟩

/-- `cleanup` unmounts from the innermost mount outwards and leaves nothing mounted. -/
theorem cleanup_always (hh : h.Spared) (hm : h.mounts ∈ chain.tails) :
    cleanup.run.Always machine Unmounts Host.Spared (fun _ t => t.mounts = []) h := by
  unfold cleanup
  refine always_forEach (K := fun places (t : Host) => places ∈ [Point.devPts, .dev, .proc, .sys].tails ∧
      t.mounts ∈ (left places).tails)
    (fun t _ ht => List.mem_singleton.mp ht.2) (fun p places t hspared ht => ?_) hh ⟨by decide, hm⟩
  obtain ⟨hplaces, hmounts⟩ := ht
  obtain ⟨hdone, hexcused⟩ := detach_left _ hplaces p rfl _ hmounts
  have hrest : places ∈ [Point.devPts, .dev, .proc, .sys].tails :=
    (List.mem_tails _ _).mpr ((List.suffix_cons p places).trans ((List.mem_tails _ _).mp hplaces))
  refine ⟨hspared, fun c hc => ?_⟩
  rcases hok : c.ok with _ | _ <;> simp only [machine, hok]
  · refine ⟨hspared, hrest, hexcused fun hp => ?_⟩
    by_contra hne
    rw [hc hp hne] at hok
    cases hok
  · exact ⟨hspared, hrest, hdone⟩

/-- The part under the trap, wherever it fails: what is mounted then is an end of the chain, and
nothing was deleted. -/
theorem inside_always (cfg : Config) (hh : h.Spared) (hm : h.mounts = []) :
    (inside cfg).run.Always machine Unmounts Host.Spared (fun _ t => t.mounts ∈ chain.tails) h := by
  have hstart : h.mounts ∈ chain.tails := by
    rw [hm]
    decide
  refine always_quiet populate_quiet hh hstart ?_
  refine always_quiet (secrets_quiet cfg) hh hstart ?_
  refine always_bind ((mounting_always hh hm).mono fun r t hspared ht => ?_)
  cases r with
  | none => exact ht
  | some _ =>
      refine ((hooks_quiet cfg).always_unchanged machine_quiet hspared).mono ?_
      rintro _ u - rfl
      exact ht

theorem Host.Spared.cons (hh : h.Spared) (hm : h.mounts = []) :
    Host.Spared { h with swept := h.mounts :: h.swept } := by
  intro mounts hmounts
  rcases List.mem_cons.mp hmounts with rfl | hmounts
  · exact hm
  · exact hh mounts hmounts

/-- One run: every `rm -rf` and every `tar` meets an empty mount table, if it started with one. -/
theorem buildRootfs_always (cfg : Config) (hh : h.Spared) (hm : h.mounts = []) :
    (buildRootfs cfg).run.Always machine Unmounts Host.Spared (fun _ t => t.mounts = []) h := by
  refine always_quiet preflight_quiet hh hm ?_
  refine always_must hh (fun c _ _ => ⟨hh.cons hm, hm⟩) fun c _ _ _ => ?_
  have hswept : (machine c h .rmWork).1.Spared := hh.cons hm
  refine always_must hswept (fun _ _ _ => ⟨hswept, hm⟩) fun _ _ _ _ => ?_
  refine always_bind (always_orElse ((inside_always cfg hswept hm).mono fun r t hspared ht => ?_))
  cases r with
  | none =>
      refine always_bind ((cleanup_always hspared ht).mono fun r u hspared hu => ?_)
      cases r with
      | none => exact hu
      | some _ => exact ⟨hspared, hu⟩
  | some _ =>
      refine always_bind ((cleanup_always hspared ht).mono fun r u hspared hu => ?_)
      cases r with
      | none => exact hu
      | some _ =>
          refine always_quiet leakGate_quiet hspared hu ?_
          refine always_must hspared (fun _ _ _ => ⟨hspared, hu⟩) fun _ _ _ _ => ?_
          refine always_must hspared (fun _ _ _ => ⟨hspared, hu⟩) fun _ _ _ _ => ?_
          refine always_must hspared (fun _ _ _ => ⟨hspared.cons hu, hu⟩) fun _ _ _ _ => ?_
          refine always_quiet finish_quiet (hspared.cons hu) hu ?_
          have hend := (hspared.cons hu).cons hu
          refine always_must (hspared.cons hu) (fun _ _ _ => ⟨hend, hu⟩) fun _ _ _ _ => ?_
          exact ⟨hend, fun _ _ => ⟨hend, hu⟩⟩

/-- The host between two runs. -/
theorem builds_sound (hbuilds : Builds Unmounts NothingMounted ⟨[], []⟩ h) :
    h.Spared ∧ h.mounts = [] := by
  induction hbuilds with
  | refl => exact ⟨fun _ hmounts => (List.not_mem_nil hmounts).elim, rfl⟩
  | tail _ hstep ih =>
      obtain ⟨cfg, hstep⟩ := hstep
      have always := buildRootfs_always cfg ih.1 ih.2
      rcases hstep with ⟨r, hends⟩ | ⟨hreach, hkill⟩
      · exact ⟨always.reaches hends.reaches, always.ends hends⟩
      · exact ⟨always.reaches hreach, hkill⟩

end Proof

/-- In every sequence of runs in which what is mounted can be unmounted and no run is killed
while something is mounted, nothing of the host is deleted or archived. -/
theorem spared_of_unmounts {h h' : Host} {cfg : Config}
    (hbuilds : Builds Unmounts NothingMounted ⟨[], []⟩ h)
    (hreach : (buildRootfs cfg).run.Reaches machine Unmounts h h') : h'.Spared := by
  obtain ⟨hspared, hm⟩ := builds_sound hbuilds
  exact (buildRootfs_always cfg hspared hm).reaches hreach

/-- A build of the base system without hooks. -/
def baseOnly : Config := ⟨["base"], false, []⟩

/-- A run in which every command succeeds: `rm -rf` and `tar` meet no mount. -/
theorem spared_of_unmounts_baseOnly :
    (buildRootfs baseOnly).run.Ends machine Unmounts ⟨[], []⟩ (some ()) ⟨[], [[], [], []]⟩ ∧
      Host.Spared ⟨[], [[], [], []]⟩ := by
  have hok : ∀ c ∈ List.replicate 54 (⟨true, true⟩ : Choice), ∀ h op, Unmounts c h op := by
    intro c hc h op
    rw [List.eq_of_mem_replicate hc]
    cases op <;> simp [Unmounts]
  have hends : (buildRootfs baseOnly).run.Ends machine Unmounts ⟨[], []⟩ (some ())
      ⟨[], [[], [], []]⟩ := ⟨List.replicate 54 ⟨true, true⟩, Prog.meets_of_forall hok _ _, rfl⟩
  exact ⟨hends, spared_of_unmounts .refl hends.reaches⟩

/-- A run is killed after its first `mount`, and the next one starts with `rm -rf`. -/
theorem not_sparesHost : ¬ SparesHost Anything (fun _ => True) := by
  intro h
  have hfirst : (buildRootfs baseOnly).run.Reaches machine Anything ⟨[], []⟩ ⟨[.proc], [[]]⟩ :=
    ⟨List.replicate 27 ⟨true, true⟩, Prog.meets_anything _ _ _ _, rfl⟩
  have hsecond : (buildRootfs baseOnly).run.Reaches machine Anything ⟨[.proc], [[]]⟩
      ⟨[.proc], [[.proc], []]⟩ :=
    ⟨List.replicate 12 ⟨true, true⟩, Prog.meets_anything _ _ _ _, rfl⟩
  have := h _ _ baseOnly (.single ⟨baseOnly, .inr ⟨hfirst, trivial⟩⟩) hsecond [.proc]
    List.mem_cons_self
  cases this

end Hub11.Scripts.BuildRootfs
