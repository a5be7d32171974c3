import Hub11.Scripts.FlashRuns

/-!
Several runs of `flash-boot.sh` at the same time.

The runs share p3, the files in `/tmp` on the box and the backups on lab, and there is no
lock. A run compares its backup with p3 and writes p3 later, and it compares what it reads
back and reboots later: a block that another run writes in between is not noticed. Nothing
else that the others do matters. If they empty the backup or the copy in `/tmp`, a later
comparison fails.
-/

namespace Hub11.Scripts.FlashBoot

open Hub11.Effect

variable {n : Nat}

/-- The backups that a run writes have the names of backups. -/
def Cmd.Proper (backupDir : Path) : Cmd → Prop
  | .openBackup bk => ∃ ts, backupPath backupDir ts = bk
  | .writeBackup bk _ _ => ∃ ts, backupPath backupDir ts = bk
  | _ => True

/-- Everything on lab but the backups is as it was. A run may empty the backup of another one that
started in the same minute. -/
structure SameLab (backupDir : Path) (s t : Site) : Prop where
  images : t.lab.images = s.lab.images
  real : t.lab.real = s.lab.real
  files : ∀ p, (∀ ts, backupPath backupDir ts ≠ p) → t.lab.files p = s.lab.files p

/-- What a run bears of the others: after its first look at p3, nobody writes p3. Everything else is
found out by its own comparisons. -/
structure Tolerates (backupDir : Path) (run : Nat) (s t : Site) : Prop where
  lab : SameLab backupDir s t
  journal : t.journal run = s.journal run
  p3 : .measured ∈ s.journal run → t.box.p3 = s.box.p3

section Frame

variable {sha : Bytes → Bytes} {run j : Nat} {backupDir : Path} {s t u : Site}

theorem SameLab.refl (s : Site) : SameLab backupDir s s := ⟨rfl, rfl, fun _ _ => rfl⟩

theorem SameLab.trans (h : SameLab backupDir s t) (h' : SameLab backupDir t u) :
    SameLab backupDir s u :=
  ⟨h'.images.trans h.images, h'.real.trans h.real, fun p hp => (h'.files p hp).trans (h.files p hp)⟩

theorem SameLab.setFile (s : Site) {bk : Path} (b : Bytes) (hbk : ∃ ts, backupPath backupDir ts = bk) :
    SameLab backupDir s (s.setFile bk b) := by
  obtain ⟨ts, rfl⟩ := hbk
  exact ⟨rfl, rfl, fun p hp => Function.update_of_ne (fun h => hp ts h.symm) _ _⟩

theorem Tolerates.refl (s : Site) : Tolerates backupDir run s s := ⟨.refl s, rfl, fun _ => rfl⟩

theorem Tolerates.trans (h : Tolerates backupDir run s t) (h' : Tolerates backupDir run t u) :
    Tolerates backupDir run s u := by
  refine ⟨h.lab.trans h'.lab, h'.journal.trans h.journal, fun hm => ?_⟩
  exact (h'.p3 (h.journal ▸ hm)).trans (h.p3 hm)

/-- What a command does that is not remembered and does not write p3. -/
structure Quietly (backupDir : Path) (s t : Site) : Prop where
  lab : SameLab backupDir s t
  journal : t.journal = s.journal
  p3 : t.box.p3 = s.box.p3

/-- These commands. -/
def Cmd.Calm (backupDir : Path) (op : Cmd) : Prop :=
  op.Proper backupDir ∧ ¬ op.Notes ∧ op.SparesP3

theorem Cmd.Light.calm {op : Cmd} (h : op.Light) : op.Calm backupDir := by
  cases op <;> first | exact h.elim | exact ⟨trivial, id, trivial⟩

end Frame

/-! ### One run among others -/

/-- What is seen in the journal of a run with the FIT `F`. -/
def Clean (F : Bytes) (events : List Event) : Prop :=
  (∀ q, .rebooted q ∈ events → F <+: q) ∧
    ∀ bk b P, .hashed bk b ∈ events → .flashed P ∈ events → b = P

def Unharmed (F : Bytes) (run : Nat) (t : Site) : Prop := Clean F (t.journal run)

/-- The run has come so far. -/
structure At (backupDir : Path) (s : Site) (run : Nat) (events : List Event) (t : Site) : Prop where
  lab : SameLab backupDir s t
  journal : t.journal run = events

section Run

variable {sha : Bytes → Bytes} {run : Nat} {backupDir path : Path} {F : Bytes} {s t : Site}
  {J K : Site → Prop}

theorem clean_of_unflashed {events : List Event} (hreboot : ∀ q, .rebooted q ∉ events)
    (hflash : ∀ P, .flashed P ∉ events) : Clean F events :=
  ⟨fun q hq => absurd hq (hreboot q), fun _ _ P _ hP => absurd hP (hflash P)⟩

theorem clean_hashed (bk : Path) (b : Bytes) : Clean F [.hashed bk b, .measured] :=
  clean_of_unflashed (by simp) (by simp)

theorem clean_flashed (bk : Path) (P : Bytes) : Clean F [.flashed P, .hashed bk P, .measured] := by
  refine ⟨fun q hq => by simp at hq, fun bk' b Q hb hQ => ?_⟩
  simp only [List.mem_cons, Event.hashed.injEq, Event.flashed.injEq, List.not_mem_nil, or_false,
    false_or, reduceCtorEq] at hb hQ
  rw [hb.2, hQ]

theorem At.clean {events : List Event} (h : At backupDir s run events t) (hc : Clean F events) :
    Unharmed F run t := by
  rw [Unharmed, h.journal]
  exact hc

theorem At.log {events : List Event} (h : At backupDir s run events t) (e : Event) :
    At backupDir s run (e :: events) (t.log run e) := by
  refine ⟨⟨h.lab.images, h.lab.real, h.lab.files⟩, ?_⟩
  rw [← h.journal]
  exact Function.update_self _ _ _

/-- Where the run is when the next block goes to `off`. Before the first one p3 is still what was
backed up. -/
def Writing (backupDir : Path) (s : Site) (run : Nat) (bk : Path) (P : Bytes) (off : Nat) (t : Site) :
    Prop :=
  (off = 0 ∧ At backupDir s run [.hashed bk P, .measured] t ∧ t.box.p3 = P) ∨
    (off ≠ 0 ∧ At backupDir s run [.flashed P, .hashed bk P, .measured] t)

theorem Writing.clean {bk : Path} {P : Bytes} {off : Nat} (h : Writing backupDir s run bk P off t) :
    Unharmed F run t := by
  rcases h with ⟨-, h, -⟩ | ⟨-, h⟩
  · exact h.clean (clean_hashed bk P)
  · exact h.clean (clean_flashed bk P)

/-- A block goes to p3. The first one finds what is in the backup. -/
theorem Writing.write {bk : Path} {P : Bytes} {off : Nat} (h : Writing backupDir s run bk P off t)
    (c : Fate) (block : Bytes) :
    At backupDir s run [.flashed P, .hashed bk P, .measured]
      (machine sha run c t (.writeP3 off block)).1 := by
  simp only [machine]
  rcases h with ⟨hoff, h, hP⟩ | ⟨hoff, h⟩
  · rw [if_pos hoff, hP]
    exact ⟨⟨h.lab.images, h.lab.real, h.lab.files⟩, (h.log (.flashed P)).journal⟩
  · rw [if_neg hoff]
    exact ⟨⟨h.lab.images, h.lab.real, h.lab.files⟩, h.journal⟩

end Run

/-! ### All interleavings -/

end Hub11.Scripts.FlashBoot
