import Hub11.Scripts.FlashRuns

/-!
One run of `flash-boot.sh`, with every pattern of failures.

Until the first block is written p3 is as it was. From then on it holds the FIT up to some
offset and the old contents behind it, the backup has been compared, and the copy from which
the blocks come has been compared as well. The reboot comes after the comparison of what
was read back.
-/

namespace Hub11.Scripts.FlashBoot

open Hub11.Effect

/-- What the run has made sure of before p3 changes. `P` is what p3 had, `F` is the FIT. With it a
run that stops anywhere can be undone. -/
structure Covered (backupDir path : Path) (run : Nat) (F P : Bytes) (modules : Name → ModuleDir)
    (t : Site) : Prop where
  small : F.length < fitCap
  backup : ∃ ts, .hashed (backupPath backupDir ts) P ∈ t.journal run ∧
    t.lab.files (backupPath backupDir ts) = some P
  /-- Writing the backup back restores p3. -/
  restores : overwrite t.box.p3 0 P = P
  modulesDep : (modules (krel (basename path))).dep = true
  /-- The blocks come from a copy of the FIT. -/
  source : ∃ ino, t.box.flashing = some ino ∧ t.box.inodes ino = F
  p3 : ∃ k, t.box.p3 = mixed F P k

/-- Either p3 is as it was or the run is covered, and it reboots only into the whole FIT. This holds
in every state of every run. -/
structure Safe (backupDir path : Path) (run : Nat) (F P : Bytes) (modules : Name → ModuleDir)
    (t : Site) : Prop where
  covered : t.box.p3 ≠ P → Covered backupDir path run F P modules t
  reboots : ∀ q, .rebooted q ∈ t.journal run → q = F ++ P.drop F.length

/-- p3 is as it was, and the run has not rebooted. -/
def Idle (run : Nat) (P : Bytes) (t : Site) : Prop :=
  t.box.p3 = P ∧ ∀ q, .rebooted q ∉ t.journal run

section Phases

variable {sha : Bytes → Bytes} {run : Nat} {backupDir path : Path} {F P : Bytes}
  {modules : Name → ModuleDir} {s : Site}

theorem Idle.safe (h : Idle run P s) : Safe backupDir path run F P modules s :=
  ⟨fun hne => absurd h.1 hne, fun q hq => absurd hq (h.2 q)⟩

theorem Idle.log (h : Idle run P s) {e : Event} (he : ∀ q, e ≠ .rebooted q) :
    Idle run P (s.log run e) := by
  refine ⟨h.1, fun q hq => ?_⟩
  rw [Site.log_journal, List.mem_cons] at hq
  rcases hq with hq | hq
  · exact he q hq.symm
  · exact h.2 q hq

/-- The backup of `P` has been accepted: it is on lab under one of the names, and the journal says
that it was compared. -/
structure BackedUp (backupDir : Path) (run : Nat) (P : Bytes) (s t : Site) : Prop where
  box : t.box = s.box
  files : ∀ p, (∀ ts, backupPath backupDir ts ≠ p) → t.lab.files p = s.lab.files p
  backup : ∃ ts, .hashed (backupPath backupDir ts) P ∈ t.journal run ∧
    t.lab.files (backupPath backupDir ts) = some P

/-- The second pre-flight check: when it is passed the backup is what p3 is, and p3 has not
changed. -/
theorem backUp_always (hs : Idle run P s) (hsize : P.length = fitCap) {J : Site → Prop}
    (hJ : ∀ t, Idle run P t → J t) :
    (backUp backupDir).run.Always (machine sha run) Anything J
      (fun r t => Idle run P t ∧ (r = some () → BackedUp backupDir run P s t)) s := by
  have hfail : ∀ t, Idle run P t → Idle run P t ∧
      ((none : Option Unit) = some () → BackedUp backupDir run P s t) :=
    fun t ht => ⟨ht, fun h => by cases h⟩
  have hset : ∀ p b, Idle run P (s.setFile p b) := fun p b => hs
  refine always_still trivial (hJ s hs) (hfail s hs) fun _ ts _ _ => ?_
  generalize hbk : backupPath backupDir ts = bk
  refine Script.always_must (hJ s hs) (fun c _ _ => ?_) fun c _ _ hopened => ?_
  · have hidle : Idle run P (machine sha run c s (.openBackup bk)).1 := by
      change Idle run P (if c.effect then s.setFile bk [] else s)
      split
      · exact hset bk []
      · exact hs
    exact ⟨hJ _ hidle, hfail _ hidle⟩
  have hopen : (machine sha run c s (.openBackup bk)).1 = s.setFile bk [] := by
    have hok := (Fate.done_eq_some.mp hopened).1
    exact if_pos (by rw [Fate.effect, hok, Bool.true_or])
  rw [hopen]
  refine Script.always_bind ((stream_always hs.1 hsize (fun k => hJ _ (hset _ _)) False
    (fun h => h.elim) (fun h => h.elim)).mono ?_)
  rintro (_ | _) t - ⟨k, rfl, -⟩
  · exact hfail _ (hset _ _)
  have hidle : Idle run P (s.setFile bk (P.take k)) := hset _ _
  refine always_still trivial (hJ _ hidle) (hfail _ hidle) fun c size _ hstat => ?_
  have hstat : ((s.setFile bk (P.take k)).lab.files bk).bind (fun b => c.done b.length) = some size := hstat
  rw [Site.setFile_files] at hstat
  obtain ⟨-, rfl⟩ := Fate.done_eq_some.mp hstat
  refine Script.always_check (hJ _ hidle) (fun _ => hfail _ hidle) fun hall => ?_
  have hfull : P.take k = P := by
    have hall : (P.take k).length = fitCap := hall
    rw [List.length_take] at hall
    exact List.take_of_length_le (by omega)
  rw [hfull]
  have hfirst : Idle run P ((s.setFile bk P).log run .measured) := (hset bk P).log fun q h => by cases h
  refine Script.always_must (hJ _ (hset bk P)) (fun _ _ _ => ⟨hJ _ hfirst, hfail _ hfirst⟩) ?_
  rintro c devSha - -
  have hsecond : Idle run P (((s.setFile bk P).log run .measured).log run (.hashed bk P)) :=
    hfirst.log fun q h => by cases h
  change Prog.Always _ _ _ _ _ ((s.setFile bk P).log run .measured)
  have hhash : ∀ c, machine sha run c ((s.setFile bk P).log run .measured) (.sha256Backup bk) =
      (((s.setFile bk P).log run .measured).log run (.hashed bk P), c.done (sha P)) :=
    fun c => machine_sha256Backup c (Site.setFile_files s bk P)
  refine Script.always_must (hJ _ hfirst) (fun c _ _ => ?_) fun c bkSha _ _ => ?_
  · rw [hhash]
    exact ⟨hJ _ hsecond, hfail _ hsecond⟩
  rw [hhash]
  unfold Script.check
  split
  · refine ⟨hJ _ hsecond, hsecond, fun _ => ⟨rfl, fun p hp => ?_, ts, ?_, ?_⟩⟩
    · exact Function.update_of_ne (fun h => hp ts (hbk.trans h.symm)) _ _
    · rw [hbk, Site.log_journal]
      exact List.mem_cons_self
    · rw [hbk]
      exact Site.setFile_files s bk P
  · exact ⟨hJ _ hsecond, hfail _ hsecond⟩

/-- The copy on the box has come to an offset, and nothing else has changed. -/
structure Copied (name : Name) (ino : Nat) (F : Bytes) (off : Nat) (s t : Site) : Prop where
  lab : t.lab = s.lab
  journal : t.journal = s.journal
  p3 : t.box.p3 = s.box.p3
  tmp : t.box.tmp name = some ino
  inode : t.box.inodes ino = F.take off
  bound : off ≤ F.length

theorem Copied.idle {name : Name} {ino off : Nat} {t : Site} (h : Copied name ino F off s t)
    (hs : Idle run P s) : Idle run P t := by
  refine ⟨h.p3.trans hs.1, fun q => ?_⟩
  rw [h.journal]
  exact hs.2 q

theorem openTmp_copied {name : Name} {ino : Nat} {c : Fate}
    (h : (machine sha run c s (.openTmp name)).2 = some ino) :
    Copied name ino F 0 s (machine sha run c s (.openTmp name)).1 := by
  obtain ⟨hok, rfl⟩ := Fate.done_eq_some.mp h
  have heffect : c.effect = true := by rw [Fate.effect, hok, Bool.true_or]
  simp only [machine, heffect, if_true]
  exact ⟨rfl, rfl, rfl, Function.update_self _ _ _, Function.update_self _ _ _, Nat.zero_le _⟩

theorem writeTmp_copied (sha : Bytes → Bytes) (run : Nat) (c : Fate) {name : Name} {ino off : Nat}
    {t : Site} {block : Bytes}
    (h : Copied name ino F off s t) (hblock : block <+: F.drop off) :
    Copied name ino F (off + (c.written block).length) s
      (machine sha run c t (.writeTmp ino off block)).1 := by
  have hpart := (c.written_isPrefix block).trans hblock
  refine ⟨h.lab, h.journal, h.p3, h.tmp, ?_, add_length_le h.bound hpart⟩
  change Function.update t.box.inodes ino _ ino = _
  rw [Function.update_self, h.inode, writeAt_take h.bound hpart]

/-- The copy of the FIT, block by block. -/
theorem copy_always (hs : Idle run P s) (hF : s.lab.files path = some F) {J : Site → Prop}
    (hJ : ∀ t, Idle run P t → J t) {name : Name} {ino n off : Nat} {t : Site}
    (ht : Copied name ino F off s t) :
    (copyBlocks (fun off => must (.readItb path off)) (fun off block => must (.writeTmp ino off block))
      n off).run.Always (machine sha run) Anything J (fun _ t => ∃ off, Copied name ino F off s t) t := by
  refine always_copyBlocks (K := fun _ off t => Copied name ino F off s t)
    (fun _ _ t ht => hJ t (ht.idle hs)) (fun off t ht => ⟨off, ht⟩) (fun _ off t ht => ?_) ht
  have hread : ∀ c, machine sha run c t (.readItb path off) = (t, c.done (c.block F off)) := by
    intro c
    simp only [machine, ht.lab, hF, Option.bind_some]
  refine Script.always_command (hJ t (ht.idle hs)) fun c _ => ?_
  rw [hread]
  refine ⟨hJ t (ht.idle hs), ?_⟩
  rcases c.done_cases (c.block F off) with ⟨-, hdone⟩ | ⟨-, hdone⟩ <;> rw [hdone]
  · refine ⟨fun _ => ⟨off, ht⟩, fun _ => Script.always_command (hJ t (ht.idle hs)) fun d _ => ?_⟩
    have hnext := writeTmp_copied sha run d ht (c.block_isPrefix F off)
    refine ⟨hJ _ (hnext.idle hs), ?_⟩
    rw [show (machine sha run d t (.writeTmp ino off (c.block F off))).2 = d.done () from rfl]
    rcases d.done_cases () with ⟨hok, hdone⟩ | ⟨-, hdone⟩ <;> rw [hdone]
    · have hall : d.written (c.block F off) = c.block F off := if_pos hok
      rw [hall] at hnext
      exact hnext
    · exact ⟨_, hnext⟩
  · exact ⟨off, ht⟩

/-- The third check: when it is passed there is a copy of the FIT on the box, by the hash. -/
theorem push_always (hsha : Function.Injective sha) (hs : Idle run P s)
    (hF : s.lab.files path = some F) {J : Site → Prop} (hJ : ∀ t, Idle run P t → J t) :
    (push (.of sha path F)).run.Always (machine sha run) Anything J
      (fun r t => Idle run P t ∧
        (r = some () → ∃ ino, Copied (basename path) ino F F.length s t)) s := by
  have hfail : ∀ t, Idle run P t → Idle run P t ∧ ((none : Option Unit) = some () →
      ∃ ino, Copied (basename path) ino F F.length s t) :=
    fun t ht => ⟨ht, fun h => by cases h⟩
  refine Script.always_must (hJ s hs) (fun c _ _ => ?_) fun c ino _ hopened => ?_
  · have hidle : Idle run P (machine sha run c s (.openTmp (basename path))).1 := by
      change Idle run P (if c.effect then _ else s)
      split
      · exact hs
      · exact hs
    exact ⟨hJ _ hidle, hfail _ hidle⟩
  refine Script.always_bind ((copy_always hs hF hJ (openTmp_copied hopened)).mono ?_)
  rintro (_ | _) t - ⟨off, ht⟩
  · exact hfail t (ht.idle hs)
  change Copied (basename path) ino F off s t at ht
  refine always_still trivial (hJ t (ht.idle hs)) (hfail t (ht.idle hs)) fun c digest _ hdigest => ?_
  have hdigest : (t.box.tmp (basename path)).bind (fun ino => c.done (sha (t.box.inodes ino))) =
      some digest := hdigest
  rw [ht.tmp] at hdigest
  obtain ⟨-, rfl⟩ := Fate.done_eq_some.mp hdigest
  unfold Script.check
  split
  · rename_i hsame
    have hall : t.box.inodes ino = F := hsha hsame
    refine ⟨hJ t (ht.idle hs), ht.idle hs, fun _ =>
      ⟨ino, ht.lab, ht.journal, ht.p3, ht.tmp, ?_, Nat.le_refl _⟩⟩
    rw [hall, List.take_length]
  · exact ⟨hJ t (ht.idle hs), hfail t (ht.idle hs)⟩

/-- p3 holds the FIT up to an offset, and nothing has been rebooted. The file that the blocks come
from is still the FIT, whoever unlinks its name. -/
structure Flashed (run ino : Nat) (F P : Bytes) (off : Nat) (s t : Site) : Prop where
  lab : t.lab = s.lab
  journal : ∀ e ∈ s.journal run, e ∈ t.journal run
  unbooted : ∀ q, .rebooted q ∉ t.journal run
  flashing : t.box.flashing = some ino
  inode : t.box.inodes ino = F
  p3 : t.box.p3 = mixed F P off
  bound : off ≤ F.length

/-- What the checks have shown when p3 is about to be written. None of it can become false while it
is written. -/
structure Checked (backupDir path : Path) (run : Nat) (F P : Bytes) (modules : Name → ModuleDir)
    (s : Site) : Prop where
  size : P.length = fitCap
  small : F.length < fitCap
  backup : ∃ ts, .hashed (backupPath backupDir ts) P ∈ s.journal run ∧
    s.lab.files (backupPath backupDir ts) = some P
  modulesDep : (modules (krel (basename path))).dep = true

theorem overwrite_zero {old new : Bytes} (h : old.length = new.length) : overwrite old 0 new = new := by
  unfold overwrite
  rw [List.take_zero, List.nil_append, Nat.zero_add, List.drop_of_length_le (Nat.le_of_eq h),
    List.append_nil, h, List.take_length]

theorem Flashed.safe {ino off : Nat} {t : Site} (h : Flashed run ino F P off s t)
    (hs : Checked backupDir path run F P modules s) : Safe backupDir path run F P modules t := by
  have hsmall : F.length ≤ P.length := by
    rw [hs.size]
    exact Nat.le_of_lt hs.small
  refine ⟨fun _ => ?_, fun q hq => absurd hq (h.unbooted q)⟩
  obtain ⟨ts, hhashed, hfile⟩ := hs.backup
  refine ⟨hs.small, ⟨ts, h.journal _ hhashed, h.lab ▸ hfile⟩, overwrite_zero ?_, hs.modulesDep,
    ⟨ino, h.flashing, h.inode⟩, off, h.p3⟩
  rw [h.p3, length_mixed h.bound hsmall]

theorem Flashed.rebooted {ino off : Nat} {t : Site} (h : Flashed run ino F P off s t)
    (hs : Checked backupDir path run F P modules s) (hp3 : t.box.p3 = F ++ P.drop F.length) :
    Safe backupDir path run F P modules (t.log run (.rebooted t.box.p3)) := by
  refine ⟨fun hne => ?_, fun q hq => ?_⟩
  · obtain ⟨hsmall, ⟨ts, hhashed, hfile⟩, hrestores, hdep, hsource, hmixed⟩ := (h.safe hs).covered hne
    refine ⟨hsmall, ⟨ts, ?_, hfile⟩, hrestores, hdep, hsource, hmixed⟩
    rw [Site.log_journal]
    exact List.mem_cons_of_mem _ hhashed
  · rw [Site.log_journal] at hq
    rcases List.mem_cons.mp hq with hq | hq
    · cases hq
      exact hp3
    · exact absurd hq (h.unbooted q)

theorem writeP3_flashed (sha : Bytes → Bytes) (c : Fate) {ino off : Nat} {t : Site} {block : Bytes}
    (h : Flashed run ino F P off s t) (hsmall : F.length ≤ P.length) (hblock : block <+: F.drop off) :
    Flashed run ino F P (off + (c.written block).length) s
      (machine sha run c t (.writeP3 off block)).1 := by
  have hpart := (c.written_isPrefix block).trans hblock
  have hp3 : overwrite t.box.p3 off (c.written block) = mixed F P (off + (c.written block).length) := by
    rw [h.p3, overwrite_mixed h.bound hsmall hpart]
  by_cases hoff : off = 0
  · have hnext : (machine sha run c t (.writeP3 off block)).1 =
        (t.log run (.flashed t.box.p3)).setP3 (overwrite t.box.p3 off (c.written block)) := by
      simp only [machine, if_pos hoff]
    rw [hnext]
    refine ⟨h.lab, fun e he => ?_, fun q hq => ?_, h.flashing, h.inode, hp3, add_length_le h.bound hpart⟩
    · exact (Site.log_journal t run _).symm ▸ List.mem_cons_of_mem _ (h.journal e he)
    · rcases List.mem_cons.mp ((Site.log_journal t run (.flashed t.box.p3)) ▸ hq) with hq | hq
      · cases hq
      · exact h.unbooted q hq
  · have hnext : (machine sha run c t (.writeP3 off block)).1 =
        t.setP3 (overwrite t.box.p3 off (c.written block)) := by
      simp only [machine, if_neg hoff]
    rw [hnext]
    exact ⟨h.lab, h.journal, h.unbooted, h.flashing, h.inode, hp3, add_length_le h.bound hpart⟩

/-- The write, block by block: p3 is the FIT up to an offset, and the copy it comes from stays. -/
theorem write_always (hs : Checked backupDir path run F P modules s) {ino n off : Nat} {t : Site}
    (ht : Flashed run ino F P off s t) :
    (copyBlocks (fun off => must (.readTmp ino off)) (fun off block => must (.writeP3 off block))
      n off).run.Always (machine sha run) Anything (Safe backupDir path run F P modules)
      (fun _ t => ∃ off, Flashed run ino F P off s t) t := by
  have hsmall : F.length ≤ P.length := by
    rw [hs.size]
    exact Nat.le_of_lt hs.small
  refine always_copyBlocks (K := fun _ off t => Flashed run ino F P off s t)
    (fun _ _ t ht => ht.safe hs) (fun off t ht => ⟨off, ht⟩) (fun _ off t ht => ?_) ht
  have hread : ∀ c, machine sha run c t (.readTmp ino off) = (t, c.done (c.block F off)) := by
    intro c
    simp only [machine, ht.inode]
  refine Script.always_command (ht.safe hs) fun c _ => ?_
  rw [hread]
  refine ⟨ht.safe hs, ?_⟩
  rcases c.done_cases (c.block F off) with ⟨-, hdone⟩ | ⟨-, hdone⟩ <;> rw [hdone]
  · refine ⟨fun _ => ⟨off, ht⟩, fun _ => Script.always_command (ht.safe hs) fun d _ => ?_⟩
    have hnext := writeP3_flashed sha d ht hsmall (c.block_isPrefix F off)
    refine ⟨hnext.safe hs, ?_⟩
    rw [show (machine sha run d t (.writeP3 off (c.block F off))).2 = d.done () from rfl]
    rcases d.done_cases () with ⟨hok, hdone⟩ | ⟨-, hdone⟩ <;> rw [hdone]
    · have hall : d.written (c.block F off) = c.block F off := if_pos hok
      rw [hall] at hnext
      exact hnext
    · exact ⟨_, hnext⟩
  · exact ⟨off, ht⟩

/-- What was read back whole is followed by the old contents. -/
theorem eq_of_prefix_mixed {off : Nat} (hoff : off ≤ F.length) (h : F <+: mixed F P off) :
    mixed F P off = F ++ P.drop F.length := by
  have hlen : (F.take off).length = off := List.length_take_of_le hoff
  have hrest : (mixed F P off).drop F.length = P.drop F.length := by
    rw [mixed, List.drop_append, List.drop_of_length_le (by omega), hlen, List.drop_drop,
      List.nil_append]
    congr 1
    omega
  rw [← List.take_append_drop F.length (mixed F P off), ← List.prefix_iff_eq_take.mp h, hrest]

/-- The part on the box: it reboots only after the comparison, and from the first block on the run
is covered. -/
theorem flash_always (hsha : Function.Injective sha) (hidle : Idle run P s)
    (hs : Checked backupDir path run F P modules s) {ino : Nat}
    (htmp : s.box.tmp (basename path) = some ino) (hino : s.box.inodes ino = F) :
    (flash (.of sha path F)).run.Always (machine sha run) Anything
      (Safe backupDir path run F P modules) (fun _ _ => True) s := by
  have hopen : ∀ c, machine sha run c s (.openFlash (basename path)) =
      (if c.ok then { s with box := { s.box with flashing := some ino } } else s, c.done ino) := by
    intro c
    simp only [machine, htmp]
  refine Script.always_must hidle.safe (fun c _ _ => ⟨?_, trivial⟩) fun c i _ hi => ?_
  · change Safe backupDir path run F P modules (machine sha run c s (.openFlash (basename path))).1
    rw [hopen]
    refine Idle.safe ?_
    dsimp only
    split
    · exact hidle
    · exact hidle
  change (machine sha run c s (.openFlash (basename path))).2 = some i at hi
  change Prog.Always _ _ _ _ _ (machine sha run c s (.openFlash (basename path))).1
  rw [hopen] at hi ⊢
  obtain ⟨hok, rfl⟩ := Fate.done_eq_some.mp hi
  rw [if_pos hok]
  have hstart : Flashed run ino F P 0 s { s with box := { s.box with flashing := some ino } } :=
    ⟨rfl, fun e he => he, hidle.2, rfl, hino, hidle.1, Nat.zero_le _⟩
  refine Script.always_bind ((write_always hs hstart).mono ?_)
  rintro (_ | _) t - ⟨off, ht⟩
  · trivial
  refine always_still trivial (ht.safe hs) trivial fun _ _ _ _ => ?_
  refine Script.always_bind ((readBack_still (ht.safe hs)).mono ?_)
  rintro r u - ⟨rfl, got, rfl, hgot, hlen⟩
  refine always_still trivial (ht.safe hs) trivial fun c rb _ hrb => ?_
  obtain ⟨-, rfl⟩ := Fate.done_eq_some.mp hrb
  refine Script.always_check (ht.safe hs) (fun _ => trivial) fun hsame => ?_
  obtain rfl : got = F := hsha hsame
  have hp3 : u.box.p3 = got ++ P.drop got.length := by
    rw [ht.p3] at hgot ⊢
    exact eq_of_prefix_mixed ht.bound hgot
  have hrm : ∀ c, Flashed run ino got P off s (machine sha run c u (.rmTmp (basename path))).1 := by
    intro c
    change Flashed run ino got P off s (if c.effect then u.setTmp (basename path) none else u)
    split
    · exact ⟨ht.lab, ht.journal, ht.unbooted, ht.flashing, ht.inode, ht.p3, ht.bound⟩
    · exact ht
  have hsame : ∀ c, (machine sha run c u (.rmTmp (basename path))).1.box.p3 = u.box.p3 := by
    intro c
    rw [(hrm c).p3, ht.p3]
  refine Script.always_must (ht.safe hs) (fun c _ _ => ⟨(hrm c).safe hs, trivial⟩) fun c _ _ _ => ?_
  refine always_still trivial ((hrm c).safe hs) trivial fun _ _ _ _ => ?_
  exact Script.always_command ((hrm c).safe hs) fun _ _ =>
    ⟨(hrm c).rebooted hs ((hsame c).trans hp3), trivial⟩

end Phases

/-- In every state of every run of `flash-boot.sh`: if p3 is not what it was, the FIT is
smaller than p3, the backup is what p3 was, the modules were there when they were looked
for, and what is in p3 comes from a copy of the FIT. A reboot comes only when p3 holds the
whole FIT. -/
theorem flashBoot_safe {sha : Bytes → Bytes} (hsha : Function.Injective sha) (run : Nat)
    (backupDir arg : Path) {F : Bytes} {s t : Site} (hF : s.lab.files (s.lab.itb arg) = some F)
    (hitb : ∀ ts, backupPath backupDir ts ≠ s.lab.itb arg) (hp3 : s.box.p3.length = fitCap)
    (hnew : s.journal run = [])
    (ht : (flashBoot backupDir arg).run.Reaches (machine sha run) Anything s t) :
    Safe backupDir (s.lab.itb arg) run F s.box.p3 s.box.modules t := by
  have hidle : Idle run s.box.p3 s := ⟨rfl, fun q hq => by rw [hnew] at hq; cases hq⟩
  have hJ : ∀ u, Idle run s.box.p3 u →
      Safe backupDir (s.lab.itb arg) run F s.box.p3 s.box.modules u := fun u hu => hu.safe
  suffices h : (flashBoot backupDir arg).run.Always (machine sha run) Anything
      (Safe backupDir (s.lab.itb arg) run F s.box.p3 s.box.modules) (fun _ _ => True) s from h.reaches ht
  refine Script.always_bind ((inspect_still hF hidle.safe).mono ?_)
  rintro (_ | itb) u - ⟨rfl, hitb'⟩
  · trivial
  obtain ⟨hsmall, rfl⟩ := hitb' itb rfl
  refine Script.always_bind ((checkModules_still hidle.safe).mono ?_)
  rintro (_ | _) v - ⟨rfl, hdep⟩
  · trivial
  have hdep := hdep rfl
  refine Script.always_bind ((backUp_always hidle hp3 hJ).mono ?_)
  rintro (_ | _) u - ⟨hidle', hbacked⟩
  · trivial
  have hbacked := hbacked rfl
  have hF' : u.lab.files (v.lab.itb arg) = some F := (hbacked.files _ hitb).trans hF
  refine Script.always_bind ((push_always hsha hidle' hF' hJ).mono ?_)
  rintro (_ | _) x - ⟨hidle'', hcopied⟩
  · trivial
  obtain ⟨ino, hcopied⟩ := hcopied rfl
  obtain ⟨ts, hhashed, hfile⟩ := hbacked.backup
  refine flash_always hsha hidle'' ⟨hp3, hsmall, ⟨ts, ?_, ?_⟩, hdep⟩ hcopied.tmp ?_
  · rw [hcopied.journal]
    exact hhashed
  · rw [hcopied.lab]
    exact hfile
  · rw [hcopied.inode, List.take_length]

/-- A run that comes to its end: p3 is no longer what it was, the box has been told to
reboot, and both halves of `Safe` speak of this state. -/
theorem flashBoot_safe_small : ∃ t, t.box.p3 ≠ newSite.box.p3 ∧ .rebooted t.box.p3 ∈ t.journal 0 ∧
    Safe [['b']] [['f']] 0 [1] newSite.box.p3 newSite.box.modules t := by
  obtain ⟨t, hends, -, hjournal, hp3, -⟩ :=
    newSite_ends (G := Anything) (fun _ _ _ => trivial) trivial fun _ _ => trivial
  refine ⟨t, ?_, ?_, flashBoot_safe (s := newSite) Function.injective_id 0 [['b']] [['f']] rfl
    (fun ts h => newSite_apart ['f'] ts h.symm) List.length_replicate rfl hends.reaches⟩
  · rw [hp3]
    exact newSite_overwrite (by decide)
  · rw [hjournal, hp3, Site.log_journal]
    exact List.mem_cons_self

end Hub11.Scripts.FlashBoot
