import Hub11.Scripts.FlashRuns

/-!
The backups that `flash-boot.sh` makes, over any number of runs.

Each run may stop at any of its commands, and any transfer may stop short. The clock may
show anything; a clock that does not run backwards is a case of that.

The name of a backup has the minute in it, and the redirection empties the file before
anything has been compared. So a stream that breaks off leaves a part of p3 in the archive,
and a run that starts in the minute of another one may take away the only copy of what that
one has replaced.
-/

namespace Hub11.Scripts.FlashBoot

open Hub11.Effect

/-- Every backup is what p3 was at some time, and whatever a run has written over is in a
backup. -/
structure Archive (backupDir : Path) (s : Site) : Prop where
  genuine : ∀ ts b, s.lab.files (backupPath backupDir ts) = some b → b ∈ s.past
  kept : ∀ run P, .flashed P ∈ s.journal run → ∃ ts, s.lab.files (backupPath backupDir ts) = some P

/-- What may happen between two runs: everything, as long as nobody else writes p3 or the
backups. -/
structure Meanwhile (backupDir : Path) (s t : Site) : Prop where
  backups : ∀ ts, t.lab.files (backupPath backupDir ts) = s.lab.files (backupPath backupDir ts)
  p3 : t.box.p3 = s.box.p3
  journal : t.journal = s.journal
  past : t.past = s.past

/-- One run after another, each to its end, successful or not. In between FITs may come and go, but
nobody touches the backups. -/
inductive Runs (sha : Bytes → Bytes) (G : Guard Fate Site Cmd) (backupDir : Path) (s : Site) :
    Site → Prop where
  | none : Runs sha G backupDir s s
  | next {t u v : Site} {run : Nat} {arg : Path} {r : Option Unit} (before : Runs sha G backupDir s t)
      (meanwhile : Meanwhile backupDir t u)
      (ends : (flashBoot backupDir arg).run.Ends (machine sha run) G u r v) :
      Runs sha G backupDir s v

/-- The backups, before the first run: in order, and p3 is one of the contents it has had. -/
structure Opening (backupDir : Path) (s : Site) : Prop where
  archive : Archive backupDir s
  current : s.box.p3 ∈ s.past
  size : s.box.p3.length = fitCap

/-- The law of the archive: whatever the runs are, each backup is in full what p3 was, and nothing
that a run has replaced is missing. -/
def Archived (G : Path → Guard Fate Site Cmd) : Prop :=
  ∀ (sha : Bytes → Bytes) (backupDir : Path) (s t : Site), Opening backupDir s →
    Runs sha (G backupDir) backupDir s t → Archive backupDir t

/-- The redirection is refused, or nothing is lost when the file is emptied: no run has
written over what it holds, or p3 holds it, or another backup does. After that every block
of p3 gets through. -/
def Streams (backupDir : Path) : Guard Fate Site Cmd := fun c s op =>
  match op with
  | .openBackup bk => c.effect = true → c.ok = true ∧
      ∀ old run, s.lab.files bk = some old → .flashed old ∈ s.journal run →
        old = s.box.p3 ∨ ∃ ts, backupPath backupDir ts ≠ bk ∧
          s.lab.files (backupPath backupDir ts) = some old
  | .streamP3 off => off < s.box.p3.length → c.ok = true ∧ c.block s.box.p3 off ≠ []
  | .writeBackup _ off block =>
      c.written block = block ∧ (off + block.length < s.box.p3.length → c.ok = true)
  | _ => True

/-! ### What the commands keep -/

/-- The commands that write neither p3 nor a backup. -/
def Cmd.Spares : Cmd → Prop
  | .openBackup _ => False
  | .writeBackup _ _ _ => False
  | .writeP3 _ _ => False
  | _ => True

theorem Cmd.Light.spares {op : Cmd} (h : op.Light) : op.Spares := by
  cases op <;> first | exact h.elim | trivial

/-- p3 and the backups are as they were, and so is what has been written over. Most commands of a
run leave all of it alone. -/
structure Still (s t : Site) : Prop where
  lab : t.lab = s.lab
  p3 : t.box.p3 = s.box.p3
  past : t.past = s.past
  flashed : ∀ run P, .flashed P ∈ t.journal run → .flashed P ∈ s.journal run

theorem Still.refl (s : Site) : Still s s := ⟨rfl, rfl, rfl, fun _ _ h => h⟩

theorem Still.log (s : Site) (run : Nat) {e : Event} (he : ∀ P, e ≠ .flashed P) :
    Still s (s.log run e) := by
  refine ⟨rfl, rfl, rfl, fun j P h => ?_⟩
  rcases Site.mem_log h with h | h
  · exact absurd h.symm (he P)
  · exact h

theorem Change.still {run : Nat} {s t : Site} {op : Cmd} (change : Change run s op t)
    (hop : op.Spares) : Still s t := by
  cases change with
  | nothing => exact Still.refl s
  | opened bk b => exact hop.elim
  | stored bk off block b => exact hop.elim
  | noted hop e he => exact Still.log s run he
  | boxed box hp3 => exact ⟨rfl, hp3, rfl, fun _ _ h => h⟩
  | first block b => exact hop.elim
  | later block b hoff => exact hop.elim

/-- The backup `bk` is what p3 holds. -/
def Backed (backupDir bk : Path) (s : Site) : Prop :=
  Opening backupDir s ∧ s.lab.files bk = some s.box.p3

section Keep

variable {sha : Bytes → Bytes} {run : Nat} {G : Guard Fate Site Cmd} {backupDir bk : Path} {s t : Site}

theorem Opening.still (hs : Opening backupDir s) (h : Still s t) : Opening backupDir t := by
  refine ⟨⟨fun ts b hb => ?_, fun run P hP => ?_⟩, ?_, ?_⟩
  · rw [h.lab] at hb
    rw [h.past]
    exact hs.archive.genuine ts b hb
  · rw [h.lab]
    exact hs.archive.kept run P (h.flashed run P hP)
  · rw [h.p3, h.past]
    exact hs.current
  · rw [h.p3]
    exact hs.size

theorem Opening.meanwhile (hs : Opening backupDir s) (h : Meanwhile backupDir s t) :
    Opening backupDir t := by
  refine ⟨⟨fun ts b hb => ?_, fun run P hP => ?_⟩, ?_, ?_⟩
  · rw [h.backups] at hb
    rw [h.past]
    exact hs.archive.genuine ts b hb
  · rw [h.journal] at hP
    obtain ⟨ts, hts⟩ := hs.archive.kept run P hP
    exact ⟨ts, (h.backups ts).trans hts⟩
  · rw [h.p3, h.past]
    exact hs.current
  · rw [h.p3]
    exact hs.size

theorem Backed.still (hs : Backed backupDir bk s) (h : Still s t) : Backed backupDir bk t := by
  refine ⟨hs.1.still h, ?_⟩
  rw [h.lab, h.p3]
  exact hs.2

/-- Commands that write neither p3 nor a backup keep every condition on the two. They are most of a
run. -/
theorem spares_always {α : Type} {p : Shell α} (hp : p.run.Issues Cmd.Spares) {K : Site → Prop}
    (keep : ∀ s t, K s → Still s t → K t) (hs : K s) :
    p.run.Always (machine sha run) G (fun _ => True) (fun _ t => K t) s := by
  have h := hp.always (M := machine sha run) (G := G) (J := K)
    (fun c s op _ hop hs => keep s _ hs ((machine_change c s op).still hop)) hs
  exact (h.mono fun _ t hK _ => hK).weaken fun _ _ => trivial

/-- When the file is complete, nothing is missing. -/
theorem Opening.stored (hs : Opening backupDir s) {ts : Name}
    (hold : ∀ old run, s.lab.files (backupPath backupDir ts) = some old → .flashed old ∈ s.journal run →
      old = s.box.p3 ∨ ∃ ts', backupPath backupDir ts' ≠ backupPath backupDir ts ∧
        s.lab.files (backupPath backupDir ts') = some old) :
    Opening backupDir (s.setFile (backupPath backupDir ts) s.box.p3) := by
  have hother : ∀ ts', backupPath backupDir ts' ≠ backupPath backupDir ts →
      (s.setFile (backupPath backupDir ts) s.box.p3).lab.files (backupPath backupDir ts') =
        s.lab.files (backupPath backupDir ts') :=
    fun ts' hne => Function.update_of_ne hne _ _
  refine ⟨⟨fun ts' b hb => ?_, fun run P hP => ?_⟩, hs.current, hs.size⟩
  · by_cases hne : backupPath backupDir ts' = backupPath backupDir ts
    · rw [hne, Site.setFile_files] at hb
      cases hb
      exact hs.current
    · rw [hother ts' hne] at hb
      exact hs.archive.genuine ts' b hb
  · obtain ⟨ts', hts'⟩ := hs.archive.kept run P hP
    by_cases hne : backupPath backupDir ts' = backupPath backupDir ts
    · rw [hne] at hts'
      rcases hold P run hts' hP with rfl | ⟨ts'', hne', hts''⟩
      · exact ⟨ts, Site.setFile_files _ _ _⟩
      · exact ⟨ts'', (hother ts'' hne').trans hts''⟩
    · exact ⟨ts', (hother ts' hne).trans hts'⟩

/-- A block goes to p3. What the first one goes over is in a backup. -/
theorem Opening.written (hs : Opening backupDir s) (c : Fate) {off : Nat} {block : Bytes}
    (hfirst : off = 0 → ∃ ts, s.lab.files (backupPath backupDir ts) = some s.box.p3) :
    Opening backupDir (machine sha run c s (.writeP3 off block)).1 := by
  have hsize := (length_overwrite s.box.p3 off (c.written block)).trans hs.size
  have hset : ∀ t : Site, t.lab = s.lab → t.past = s.past →
      (∀ j P, .flashed P ∈ t.journal j → ∃ ts, s.lab.files (backupPath backupDir ts) = some P) →
      Opening backupDir (t.setP3 (overwrite s.box.p3 off (c.written block))) := by
    intro t hlab hpast hkept
    refine ⟨⟨fun ts b hb => ?_, fun j P hP => ?_⟩, List.mem_cons_self, hsize⟩
    · have hb : t.lab.files (backupPath backupDir ts) = some b := hb
      rw [hlab] at hb
      change b ∈ _ :: t.past
      rw [hpast]
      exact List.mem_cons_of_mem _ (hs.archive.genuine ts b hb)
    · obtain ⟨ts, hts⟩ := hkept j P hP
      refine ⟨ts, ?_⟩
      change t.lab.files _ = _
      rw [hlab]
      exact hts
  simp only [machine]
  split
  · rename_i hoff
    refine hset _ rfl rfl fun j P hP => ?_
    rcases Site.mem_log hP with hP | hP
    · cases hP
      exact hfirst hoff
    · exact hs.archive.kept j P hP
  · exact hset s rfl rfl hs.archive.kept

end Keep

/-! ### One run -/

section Run

variable {sha : Bytes → Bytes} {run : Nat} {backupDir bk : Path} {s : Site}

/-- The backup is there when the second check has passed, and the archive is in order if it
has not. -/
theorem backUp_archives (hs : Opening backupDir s) :
    (backUp backupDir).run.Always (machine sha run) (Streams backupDir) (fun _ => True)
      (fun r t => Opening backupDir t ∧ (r = some () → ∃ ts, Backed backupDir (backupPath backupDir ts) t))
      s := by
  have hfail : ∀ t, Opening backupDir t → Opening backupDir t ∧
      ((none : Option Unit) = some () → ∃ ts, Backed backupDir (backupPath backupDir ts) t) :=
    fun t ht => ⟨ht, fun h => by cases h⟩
  refine always_still trivial trivial (hfail s hs) fun _ ts _ _ => ?_
  have hopen : ∀ c, machine sha run c s (.openBackup (backupPath backupDir ts)) =
      (if c.effect then s.setFile (backupPath backupDir ts) [] else s, c.done ()) := fun c => rfl
  refine Script.always_must trivial (fun c hc hnone => ?_) fun c _ hc hopened => ?_
  · -- a redirection that fails has not emptied the file
    have hok : c.effect = false := by
      by_contra h
      rw [hopen, Fate.done, (hc (by simpa using h)).1] at hnone
      cases hnone
    rw [hopen, hok]
    exact ⟨trivial, hfail s hs⟩
  have hok := (Fate.done_eq_some.mp hopened).1
  have heffect : c.effect = true := by rw [Fate.effect, hok, Bool.true_or]
  rw [hopen, heffect]
  have hstored := hs.stored (hc heffect).2
  refine Script.always_bind ((stream_always rfl hs.size (fun _ => trivial) True
    (fun _ c t off h => h) (fun _ c t off b h => h)).mono ?_)
  rintro r t - ⟨k, rfl, hend⟩
  rw [List.take_of_length_le (hend trivial)]
  cases r with
  | none => exact hfail _ hstored
  | some _ =>
      have hbacked : Backed backupDir (backupPath backupDir ts)
          (s.setFile (backupPath backupDir ts) s.box.p3) :=
        ⟨hstored, Site.setFile_files _ _ _⟩
      refine (spares_always (K := Backed backupDir (backupPath backupDir ts)) ?_
        (fun _ _ => Backed.still) hbacked).mono fun r t _ ht => ⟨ht.1, fun _ => ⟨ts, ht⟩⟩
      refine Script.issues_must trivial fun size => Script.issues_check ?_
      exact Script.issues_must trivial fun devSha => Script.issues_must trivial fun bkSha =>
        Script.issues_last _

/-- However far `dd` comes. -/
theorem write_archives (ino : Nat) {n off : Nat} {t : Site} (ht : Opening backupDir t)
    (hfirst : off = 0 → ∃ ts, t.lab.files (backupPath backupDir ts) = some t.box.p3) :
    (copyBlocks (fun off => must (.readTmp ino off)) (fun off block => must (.writeP3 off block))
      n off).run.Always (machine sha run) (Streams backupDir) (fun _ => True)
      (fun _ t => Opening backupDir t) t := by
  refine always_copyBlocks (K := fun _ off t => Opening backupDir t ∧
    (off = 0 → ∃ ts, t.lab.files (backupPath backupDir ts) = some t.box.p3))
    (fun _ _ _ _ => trivial) (fun off t ht => ht.1) (fun _ off t ht => ?_) ⟨ht, hfirst⟩
  refine Script.always_command (J := fun _ => True) trivial fun c _ => ?_
  refine ⟨trivial, ?_⟩
  rw [show machine sha run c t (.readTmp ino off) = (t, c.done (c.block (t.box.inodes ino) off)) from rfl]
  cases c.done (c.block (t.box.inodes ino) off) with
  | none => exact ht.1
  | some block =>
      refine ⟨fun _ => ht.1, fun hne => Script.always_command (J := fun _ => True) trivial fun d _ => ?_⟩
      refine ⟨trivial, ?_⟩
      have hnext : Opening backupDir (machine sha run d t (.writeP3 off block)).1 :=
        ht.1.written d ht.2
      rw [show (machine sha run d t (.writeP3 off block)).2 = d.done () from rfl]
      cases d.done () with
      | none => exact hnext
      | some _ =>
          have hpos := List.length_pos_iff.mpr hne
          exact ⟨hnext, fun h => by omega⟩

/-- The part on the box. -/
theorem flash_archives (itb : Itb) {ts : Name} (hs : Backed backupDir (backupPath backupDir ts) s) :
    (flash itb).run.Always (machine sha run) (Streams backupDir) (fun _ => True)
      (fun _ t => Opening backupDir t) s := by
  have hopened : ∀ c, Backed backupDir (backupPath backupDir ts)
      (machine sha run c s (.openFlash itb.name)).1 :=
    fun c => hs.still ((machine_change c s _).still trivial)
  refine Script.always_must trivial (fun c _ _ => ⟨trivial, (hopened c).1⟩) fun c ino _ _ => ?_
  refine Script.always_bind ((write_archives ino (hopened c).1 fun _ => ⟨ts, (hopened c).2⟩).mono ?_)
  rintro (_ | _) t - ht
  · exact ht
  refine spares_always ?_ (fun _ _ => Opening.still) ht
  refine Script.issues_must trivial fun _ => Script.issues_bind ?_ fun got => ?_
  · exact issues_readBack (fun _ _ => trivial) _ _ _
  · refine Script.issues_must trivial fun rb => Script.issues_check (Script.issues_must trivial fun _ => ?_)
    exact Script.issues_must trivial fun _ => ⟨trivial, fun _ => trivial⟩

theorem flashBoot_archives (arg : Path) (hs : Opening backupDir s) :
    (flashBoot backupDir arg).run.Always (machine sha run) (Streams backupDir) (fun _ => True)
      (fun _ t => Opening backupDir t) s := by
  refine Script.always_bind ((spares_always ((inspect_light arg).mono fun _ => Cmd.Light.spares)
    (fun _ _ => Opening.still) hs).mono ?_)
  rintro (_ | itb) t - ht
  · exact ht
  refine Script.always_bind ((spares_always ((checkModules_light itb).mono fun _ => Cmd.Light.spares)
    (fun _ _ => Opening.still) ht).mono ?_)
  rintro (_ | _) u - hu
  · exact hu
  refine Script.always_bind ((backUp_archives hu).mono ?_)
  rintro (_ | _) v - ⟨hv, hbacked⟩
  · exact hv
  obtain ⟨ts, hbacked⟩ := hbacked rfl
  refine Script.always_bind ((spares_always ((push_light itb).mono fun _ => Cmd.Light.spares)
    (fun _ _ => Backed.still) hbacked).mono ?_)
  rintro (_ | _) x - hx
  · exact hx.1
  exact flash_archives itb hx

end Run

/-! ### All runs -/

theorem runs_opening {sha : Bytes → Bytes} {backupDir : Path} {s t : Site} (hs : Opening backupDir s)
    (ht : Runs sha (Streams backupDir) backupDir s t) : Opening backupDir t := by
  induction ht with
  | none => exact hs
  | next _ meanwhile ends ih => exact (flashBoot_archives _ (ih.meanwhile meanwhile)).ends ends

/-- If no redirection empties a file that is needed, and every stream gets through, the
archive is in order after every run. -/
theorem archive_of_streams {sha : Bytes → Bytes} {backupDir : Path} {s t : Site}
    (hs : Opening backupDir s) (ht : Runs sha (Streams backupDir) backupDir s t) :
    Archive backupDir t :=
  (runs_opening hs ht).archive

theorem newSite_opening (backupDir : Path) (h : ∀ ts, (backupPath backupDir ts).length ≠ 1) :
    Opening backupDir newSite := by
  have hnone : ∀ ts, newSite.lab.files (backupPath backupDir ts) = none := by
    intro ts
    have hf : backupPath backupDir ts ≠ [['f']] := fun heq => h ts (congrArg List.length heq)
    have hg : backupPath backupDir ts ≠ [['g']] := fun heq => h ts (congrArg List.length heq)
    exact (if_neg hf).trans (if_neg hg)
  refine ⟨⟨fun ts b hb => ?_, fun run P hP => ?_⟩, List.mem_cons_self, List.length_replicate⟩
  · rw [hnone ts] at hb
    cases hb
  · cases hP

theorem streams_routine (backupDir : Path) (ts : Name) (s : Site) (op : Cmd) (hop : op.Routine) :
    Streams backupDir (.fine ts) s op := by
  cases op with
  | openBackup bk => exact hop.elim
  | streamP3 off => exact fun h => ⟨rfl, Fate.fine_block_ne_nil ts h⟩
  | writeBackup bk off block => exact ⟨rfl, fun _ => rfl⟩
  | _ => trivial

/-- A first run that comes to its end: it has written p3, and what p3 was is in the backup. -/
theorem archive_of_streams_first : ∃ t, Runs id (Streams [['b']]) [['b']] newSite t ∧
    .flashed newSite.box.p3 ∈ t.journal 0 ∧ t.box.p3 ≠ newSite.box.p3 ∧
    t.lab.files (backupPath [['b']] ['t']) = some newSite.box.p3 ∧ Archive [['b']] t := by
  have hopening : Opening [['b']] newSite := newSite_opening _ fun _ => by simp [backupPath]
  have hopen : Streams [['b']] (.fine ['t']) newSite (.openBackup (backupPath [['b']] ['t'])) :=
    fun _ => ⟨rfl, fun old run _ h => by cases h⟩
  obtain ⟨t, hends, hlab, hjournal, hp3, -⟩ :=
    newSite_ends (streams_routine [['b']] ['t']) hopen fun _ _ => trivial
  have hruns : Runs id (Streams [['b']]) [['b']] newSite t :=
    .next .none ⟨fun _ => rfl, rfl, rfl, rfl⟩ hends
  refine ⟨t, hruns, ?_, ?_, ?_, archive_of_streams hopening hruns⟩
  · rw [hjournal, Site.log_journal, Site.log_journal]
    exact List.mem_cons_of_mem _ List.mem_cons_self
  · rw [hp3]
    exact newSite_overwrite (by decide)
  · rw [hlab]
    exact Site.setFile_files _ _ _

/-- The stream breaks off before the first block. -/
theorem not_archived : ¬ Archived fun _ => Anything := by
  intro h
  have hrun : (flashBoot [['b']] [['f']]).run.Ends (machine id 0) Anything newSite none
      (newSite.setFile (backupPath [['b']] ['t']) []) :=
    ⟨List.replicate 11 (.fine ['t']) ++ [⟨false, none, []⟩], Prog.meets_anything _ _ _ _, rfl⟩
  have harchive := h id [['b']] newSite _ (newSite_opening _ fun _ => by simp [backupPath])
    (.next .none ⟨fun _ => rfl, rfl, rfl, rfl⟩ hrun)
  have hpart : ([] : Bytes) ∈ newSite.past := harchive.genuine ['t'] [] (Site.setFile_files _ _ _)
  have hlen := congrArg List.length (List.mem_singleton.mp hpart)
  rw [List.length_replicate] at hlen
  cases hlen

end Hub11.Scripts.FlashBoot
