import Mathlib.Logic.Relation
import Hub11.Effect.Script

/-!
The first-boot join of `hub11-k3s-join` and its unit.

The unit is skipped once `/usr/local/bin/k3s` exists, and the script itself exits with
status 0 then. The installer, which is downloaded and not part of this repository, places
that file first and sets up the agent unit only later. The download is piped into `sh`
without `pipefail`, so the status of the script is the status of the part that arrived.
-/

namespace Hub11.Scripts.K3sJoin

open Hub11.Effect

/-- What the commands of the installer do, as far as it matters here: it places the binary, writes
the unit and starts it, among other things. -/
inductive InstallStep where
  | other
  | placeBinary
  | writeUnit
  | startUnit
deriving DecidableEq

/-- The installer: the binary is placed before the agent unit is written and started. -/
structure Installer where
  steps : List InstallStep
  ordered : ∃ before later, steps = before ++ .placeBinary :: later ∧
    .writeUnit ∉ before ∧ .startUnit ∉ before ∧ .writeUnit ∈ later ∧ .startUnit ∈ later

/-- What a boot leaves for the next one. `join.env` comes with the image, and no command here
touches it. -/
structure Box where
  /-- `/usr/local/bin/k3s` exists and is executable. -/
  binary : Bool
  /-- `/etc/rancher/k3s/join.env` exists. -/
  joinEnv : Bool
  unitWritten : Bool
  unitStarted : Bool
deriving DecidableEq

/-- The agent unit is completely installed. -/
def Box.Complete (b : Box) : Prop := b.unitWritten = true ∧ b.unitStarted = true

instance (b : Box) : Decidable b.Complete :=
  inferInstanceAs (Decidable (b.unitWritten = true ∧ b.unitStarted = true))

/-- The image as it is flashed: nothing is installed yet, `join.env` is there. -/
def Box.fresh : Box := ⟨false, true, false, false⟩

def Box.apply (b : Box) : InstallStep → Box
  | .other => b
  | .placeBinary => { b with binary := true }
  | .writeUnit => { b with unitWritten := true }
  | .startUnit => { b with unitStarted := true }

/-- The commands of the script, and one for each step of the installer. -/
inductive Cmd where
  | hasBinary
  | hasJoinEnv
  | sourceJoinEnv
  | requireVars
  | hasAddress
  | sleep
  | curl
  | install (step : InstallStep)
deriving DecidableEq

/-- `curl` replies with the number of commands of the installer it delivered, anything
else with whether it succeeded. -/
abbrev Reply : Cmd → Type
  | .curl => Nat
  | _ => Bool

/-- How a command goes. `delivered` is how much of the installer the download brings, which is all
that `sh` ever sees of it. -/
structure Choice where
  ok : Bool
  /-- A command of the installer that fails may still have done its work. -/
  effect : Bool
  delivered : Nat

def machine : Chooser Choice Box Cmd Reply := fun c b op =>
  match op with
  | .hasBinary => (b, b.binary)
  | .hasJoinEnv => (b, b.joinEnv)
  | .sourceJoinEnv => (b, c.ok)
  | .requireVars => (b, c.ok)
  | .hasAddress => (b, c.ok)
  | .sleep => (b, c.ok)
  | .curl => (b, c.delivered)
  | .install step => (if c.ok || c.effect then b.apply step else b, c.ok)

abbrev Shell := Prog Cmd Reply

/-- `sh` over the part of the installer that arrived; the result is its status. A part that is cut
off between two commands looks like a whole. -/
def runInstaller : List InstallStep → Shell Bool
  | [] => pure true
  | step :: rest => do
      let ok ← Prog.perform (.install step)
      if ok then runInstaller rest else pure false

/-- At most `k` rounds of waiting for an address; `sleep` is under `set -e`. -/
def waitForAddress : Nat → Shell Bool
  | 0 => pure true
  | k + 1 => do
      let found ← Prog.perform .hasAddress
      if found then
        pure true
      else
        let ok ← Prog.perform .sleep
        if ok then waitForAddress k else pure false

/-- `hub11-k3s-join`; the result says whether it exits with status 0. Nothing is looked at but
whether the binary is there. -/
def join (installer : Installer) : Shell Bool := do
  let present ← Prog.perform .hasBinary
  if present then return true
  let wanted ← Prog.perform .hasJoinEnv
  if !wanted then return true
  let sourced ← Prog.perform .sourceJoinEnv
  if !sourced then return false
  let given ← Prog.perform .requireVars
  if !given then return false
  let waited ← waitForAddress 60
  if !waited then return false
  let delivered ← Prog.perform .curl
  runInstaller (installer.steps.take delivered)

/-- How the unit ends in one boot. -/
inductive BootEnd where
  | skipped
  | exited (ok : Bool)
deriving DecidableEq

/-- `hub11-k3s-join.service`: its two conditions, then the script, which asks the same two questions
again. -/
def boot (installer : Installer) : Shell BootEnd := do
  let present ← Prog.perform .hasBinary
  if present then return .skipped
  let wanted ← Prog.perform .hasJoinEnv
  if !wanted then return .skipped
  let ok ← join installer
  return .exited ok

/-- Boots one after the other, each of which comes to its end or is cut off in a state
that `Cut` allows. -/
def Boots (installer : Installer) (G : Guard Choice Box Cmd) (Cut : Box → Prop) : Box → Box → Prop :=
  Relation.ReflTransGen fun b b' =>
    (∃ e, (boot installer).Ends machine G b e b') ∨ ((boot installer).Reaches machine G b b' ∧ Cut b')

/-- Whenever the unit is skipped or the script exits with status 0, the agent unit is
completely installed. -/
def RetriedUntilComplete (installer : Installer) (G : Guard Choice Box Cmd) (Cut : Box → Prop) :
    Prop :=
  ∀ b b' e, Boots installer G Cut .fresh b → (boot installer).Ends machine G b e b' →
    e = .skipped ∨ e = .exited true → b'.Complete

/-- The download brings the commands that set up the unit, and once the binary is being
placed no command of the installer fails before the unit is set up. -/
def Intact (installer : Installer) : Guard Choice Box Cmd := fun c b op =>
  match op with
  | .curl => .writeUnit ∈ installer.steps.take c.delivered ∧
      .startUnit ∈ installer.steps.take c.delivered
  | .install step => b.binary = true ∨ step = .placeBinary → ¬ b.Complete → c.ok = true
  | _ => True

/-- A boot is not cut off between the two: where the binary is, the unit is installed and started
too. -/
def NotBetween (b : Box) : Prop := b.binary = true → b.Complete

theorem Box.Complete.apply {b : Box} (h : b.Complete) (step : InstallStep) :
    (b.apply step).Complete := by
  cases step with
  | other => exact h
  | placeBinary => exact h
  | writeUnit => exact ⟨rfl, h.2⟩
  | startUnit => exact ⟨h.1, rfl⟩

theorem Box.apply_joinEnv (b : Box) (step : InstallStep) : (b.apply step).joinEnv = b.joinEnv := by
  cases step <;> rfl

/-- What the rest of the installer still has to do. -/
def Coming (b : Box) (rest : List InstallStep) : Prop :=
  (b.unitWritten = true ∨ .writeUnit ∈ rest) ∧ (b.unitStarted = true ∨ .startUnit ∈ rest)

theorem Coming.step {b : Box} {step : InstallStep} {rest : List InstallStep}
    (h : Coming b (step :: rest)) : Coming (b.apply step) rest := by
  obtain ⟨hw, hs⟩ := h
  simp only [List.mem_cons] at hw hs
  cases step <;> simp_all [Coming, Box.apply]

/-- A command of the installer that fails leaves nothing half done. -/
theorem notBetween_of_failed {b : Box} {step : InstallStep}
    (hc : b.binary = true ∨ step = .placeBinary → b.Complete) :
    NotBetween b ∧ NotBetween (b.apply step) := by
  refine ⟨fun hbinary => hc (.inl hbinary), fun hbinary => ?_⟩
  by_cases hb : b.binary = true ∨ step = .placeBinary
  · exact (hc hb).apply step
  · rw [not_or] at hb
    cases step with
    | placeBinary => exact absurd rfl hb.2
    | other => exact absurd hbinary hb.1
    | writeUnit => exact absurd hbinary hb.1
    | startUnit => exact absurd hbinary hb.1

section Proof

variable {installer : Installer} {b : Box}

/-- Over what is left of the installer: if nothing goes wrong between the binary and the unit, the
unit is complete where the binary is. -/
theorem runInstaller_always {rest : List InstallStep} (hj : b.joinEnv = true)
    (hcoming : Coming b rest) :
    (runInstaller rest).Always machine (Intact installer) (fun b => b.joinEnv = true)
      (fun ok b' => NotBetween b' ∧ (ok = true → b'.Complete)) b := by
  induction rest generalizing b with
  | nil =>
      have hcomplete : b.Complete := by simpa [Coming, Box.Complete] using hcoming
      exact ⟨hj, fun _ => hcomplete, fun _ => hcomplete⟩
  | cons step rest ih =>
      refine ⟨hj, fun c hc => ?_⟩
      cases hok : c.ok with
      | true =>
          have hnext : machine c b (.install step) = (b.apply step, true) := by
            simp [machine, hok]
          rw [hnext]
          exact ih (by rw [b.apply_joinEnv, hj]) hcoming.step
      | false =>
          have hdone : b.binary = true ∨ step = .placeBinary → b.Complete := by
            intro hb
            by_cases hcomplete : b.Complete
            · exact hcomplete
            · rw [hc hb hcomplete] at hok
              cases hok
          obtain ⟨hsame, happlied⟩ := notBetween_of_failed hdone
          cases heffect : c.effect with
          | true =>
              have hnext : machine c b (.install step) = (b.apply step, false) := by
                simp [machine, hok, heffect]
              rw [hnext]
              exact ⟨(b.apply_joinEnv step).trans hj, happlied, by simp⟩
          | false =>
              have hnext : machine c b (.install step) = (b, false) := by
                simp [machine, hok, heffect]
              rw [hnext]
              exact ⟨hj, hsame, by simp⟩

theorem waitForAddress_always (k : Nat) (hj : b.joinEnv = true) :
    (waitForAddress k).Always machine (Intact installer) (fun b => b.joinEnv = true)
      (fun _ b' => b' = b) b := by
  induction k with
  | zero => exact ⟨hj, rfl⟩
  | succ k ih =>
      refine ⟨hj, fun c _ => ?_⟩
      cases hfound : c.ok with
      | true =>
          change Prog.Always _ _ _ _ (if c.ok = true then _ else _) b
          rw [if_pos hfound]
          exact ⟨hj, rfl⟩
      | false =>
          change Prog.Always _ _ _ _ (if c.ok = true then _ else _) b
          rw [if_neg (by simp [hfound])]
          refine ⟨hj, fun c _ => ?_⟩
          change Prog.Always _ _ _ _ (if c.ok = true then _ else _) b
          split
          · exact ih
          · exact ⟨hj, rfl⟩

/-- An early exit, or the rest of the script. -/
private theorem always_ite {α : Type} {c : Prop} [Decidable c] {p q : Shell α}
    {Q : α → Box → Prop} {G : Guard Choice Box Cmd} {J : Box → Prop}
    (hp : c → p.Always machine G J Q b) (hq : ¬ c → q.Always machine G J Q b) :
    (if c then p else q).Always machine G J Q b := by
  split
  · exact hp ‹_›
  · exact hq ‹_›

/-- The script keeps binary and unit together, and where it exits with status 0 the unit is
complete. -/
theorem join_always (hj : b.joinEnv = true) (hb : NotBetween b) :
    (join installer).Always machine (Intact installer) (fun b => b.joinEnv = true)
      (fun ok b' => NotBetween b' ∧ (ok = true → b'.Complete)) b := by
  refine ⟨hj, fun _ _ => ?_⟩
  refine always_ite (fun hpresent => ⟨hj, hb, fun _ => hb hpresent⟩) fun _ => ?_
  refine ⟨hj, fun _ _ => ?_⟩
  refine always_ite (fun habsent => ?_) fun _ => ?_
  · change (!b.joinEnv) = true at habsent
    rw [hj] at habsent
    cases habsent
  refine ⟨hj, fun _ _ => ?_⟩
  refine always_ite (fun _ => ⟨hj, hb, by simp⟩) fun _ => ?_
  refine ⟨hj, fun _ _ => ?_⟩
  refine always_ite (fun _ => ⟨hj, hb, by simp⟩) fun _ => ?_
  refine Prog.Always.bind ((waitForAddress_always 60 hj).mono ?_)
  rintro waited b' _ rfl
  refine always_ite (fun _ => ⟨hj, hb, by simp⟩) fun _ => ?_
  refine ⟨hj, fun c hc => ?_⟩
  exact runInstaller_always hj ⟨.inr hc.1, .inr hc.2⟩

/-- One boot: it leaves the binary with the unit or without any of it, and if it was skipped or
exits with status 0 the unit is complete. -/
theorem boot_always (hj : b.joinEnv = true) (hb : NotBetween b) :
    (boot installer).Always machine (Intact installer) (fun b => b.joinEnv = true)
      (fun e b' => NotBetween b' ∧ (e = .skipped ∨ e = .exited true → b'.Complete)) b := by
  refine ⟨hj, fun _ _ => ?_⟩
  refine always_ite (fun hpresent => ⟨hj, hb, fun _ => hb hpresent⟩) fun _ => ?_
  refine ⟨hj, fun _ _ => ?_⟩
  refine always_ite (fun habsent => ?_) fun _ => ?_
  · change (!b.joinEnv) = true at habsent
    rw [hj] at habsent
    cases habsent
  refine Prog.Always.bind ((join_always hj hb).mono ?_)
  rintro ok b' hj' ⟨hb', hok⟩
  refine ⟨hj', hb', ?_⟩
  rintro (h | h)
  · cases h
  · cases h
    exact hok rfl

/-- The state between two boots. -/
theorem boots_sound {b : Box} (h : Boots installer (Intact installer) NotBetween .fresh b) :
    b.joinEnv = true ∧ NotBetween b := by
  induction h with
  | refl => exact ⟨rfl, fun h => by cases h⟩
  | tail _ hstep ih =>
      have always : (boot installer).Always machine (Intact installer) _ _ _ :=
        boot_always ih.1 ih.2
      rcases hstep with ⟨e, hends⟩ | ⟨hreach, hcut⟩
      · exact ⟨always.reaches hends.reaches, (always.ends hends).1⟩
      · exact ⟨always.reaches hreach, hcut⟩

end Proof

/-- In every sequence of boots in which the download brings the commands that set up the
unit and nothing goes wrong between the binary and the unit, the join is retried until
it is complete. -/
theorem retried_of_intact (installer : Installer) :
    RetriedUntilComplete installer (Intact installer) NotBetween := by
  intro b b' e hboots hends hdone
  obtain ⟨hj, hb⟩ := boots_sound hboots
  exact ((boot_always hj hb).ends hends).2 hdone

/-- The smallest installer. -/
def smallInstaller : Installer :=
  ⟨[.placeBinary, .writeUnit, .startUnit], [], _, rfl, by decide, by decide, by decide, by decide⟩

/-- One boot is cut off early, the next one joins, and in the third the unit is skipped. -/
theorem retried_of_intact_small :
    (boot smallInstaller).Ends machine (Intact smallInstaller) ⟨true, true, true, true⟩ .skipped
        ⟨true, true, true, true⟩ ∧
      (⟨true, true, true, true⟩ : Box).Complete := by
  have hcut : (boot smallInstaller).Reaches machine (Intact smallInstaller) .fresh .fresh :=
    ⟨List.replicate 4 ⟨true, true, 3⟩, ⟨trivial, trivial, trivial, trivial, trivial⟩, rfl⟩
  have hjoined : (boot smallInstaller).Ends machine (Intact smallInstaller) .fresh (.exited true)
      ⟨true, true, true, true⟩ :=
    ⟨List.replicate 11 ⟨true, true, 3⟩, ⟨trivial, trivial, trivial, trivial, trivial, trivial,
      trivial, ⟨by decide, by decide⟩, fun _ _ => rfl, fun _ _ => rfl, fun _ _ => rfl, trivial⟩, rfl⟩
  have hskipped : (boot smallInstaller).Ends machine (Intact smallInstaller)
      ⟨true, true, true, true⟩ .skipped ⟨true, true, true, true⟩ :=
    ⟨[⟨true, true, 0⟩], ⟨trivial, trivial⟩, rfl⟩
  have hboots : Boots smallInstaller (Intact smallInstaller) NotBetween .fresh
      ⟨true, true, true, true⟩ :=
    .tail (.single (.inr ⟨hcut, fun h => by cases h⟩)) (.inl ⟨_, hjoined⟩)
  exact ⟨hskipped, retried_of_intact smallInstaller _ _ _ hboots hskipped (.inl rfl)⟩

/-- A power cut after the first command of the installer, and the next boot skips the unit. -/
theorem not_retried_after_cut :
    ¬ RetriedUntilComplete smallInstaller Anything (fun _ => True) := by
  intro h
  have hfirst : (boot smallInstaller).Reaches machine Anything .fresh ⟨true, true, false, false⟩ :=
    ⟨List.replicate 9 ⟨true, true, 3⟩, Prog.meets_anything _ _ _ _, rfl⟩
  have hsecond : (boot smallInstaller).Ends machine Anything ⟨true, true, false, false⟩ .skipped
      ⟨true, true, false, false⟩ :=
    ⟨[⟨true, true, 0⟩], Prog.meets_anything _ _ _ _, rfl⟩
  have := h _ _ _ (.single (.inr ⟨hfirst, trivial⟩)) hsecond (.inl rfl)
  revert this
  decide

end Hub11.Scripts.K3sJoin
