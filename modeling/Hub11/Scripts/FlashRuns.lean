import Hub11.Scripts.FlashBoot

/-!
Runs of `flash-boot.sh` in which nothing goes wrong: up to the first block that goes to p3,
which is the whole of a small FIT, and from there to the reboot. The two parts are apart
because other runs may take their turns in between.
-/

namespace Hub11.Scripts.FlashBoot

open Hub11.Effect

/-- The command goes through. -/
def Fate.fine (ts : Name) : Fate := ⟨true, none, ts⟩

theorem Fate.fine_done {β : Type} (ts : Name) (b : β) : (fine ts).done b = some b := rfl

theorem Fate.fine_written (ts : Name) (block : Bytes) : (fine ts).written block = block := rfl

theorem Fate.fine_block (ts : Name) (source : Bytes) (off : Nat) :
    (fine ts).block source off = (source.drop off).take blockSize := by
  unfold block fine
  rw [Option.getD_none, Nat.min_self]

/-- A block is empty only at the end. -/
theorem Fate.fine_block_ne_nil (ts : Name) {source : Bytes} {off : Nat} (h : off < source.length) :
    (fine ts).block source off ≠ [] := by
  have hpos : 0 < blockSize := by decide
  intro hnil
  have hlen := congrArg List.length hnil
  rw [fine_block, List.length_take, List.length_drop, List.length_nil] at hlen
  omega

/-- p3 has been backed up, and the backup has been compared: the file, and the two entries in the
journal. -/
def Site.backedUp (s : Site) (run : Nat) (bk : Path) : Site :=
  ((s.setFile bk s.box.p3).log run .measured).log run (.hashed bk s.box.p3)

/-- The commands that are the same in every run without failures: neither p3 nor a file that
may be an older backup is written to. -/
def Cmd.Routine : Cmd → Prop
  | .openBackup _ => False
  | .writeP3 _ _ => False
  | _ => True

theorem Cmd.Quiet.routine {op : Cmd} (h : op.Quiet) : op.Routine := by
  cases op with
  | openBackup bk => exact h.elim
  | writeP3 off block => exact h.elim
  | _ => trivial

section Fine

variable {sha : Bytes → Bytes} {run : Nat} {G : Guard Fate Site Cmd} {s : Site} {ts : Name}

theorem leads_quiet {α : Type} {op : Cmd} {f : Reply op → Shell α} {b : Reply op} {u : Site}
    {q : Prog Cmd (fun op => Option (Reply op)) (Option α)} (hop : op.Quiet)
    (hG : ∀ t op, op.Quiet → G (.fine ts) t op) (hreply : (machine sha run (.fine ts) s op).2 = some b)
    (h : (f b).run.Leads (machine sha run) G s q u) :
    (must op >>= f).run.Leads (machine sha run) G s q u := by
  refine Script.leads_must (.fine ts) (hG s op hop) (Prod.ext ?_ hreply) h
  exact machine_quiet (.fine ts) s op hop

/-- A FIT that is named by its path. -/
theorem inspect_leads (hG : ∀ t op, op.Quiet → G (.fine ts) t op) {arg : Path} {F : Bytes}
    (harg : s.lab.images arg = none) (hF : s.lab.files (s.lab.real arg) = some F)
    (hsmall : F.length < fitCap) :
    (inspect arg).run.Leads (machine sha run) G s (.ret (some (.of sha (s.lab.real arg) F))) s := by
  have hlocate : (locate arg).run.Leads (machine sha run) G s (.ret (some arg)) s := by
    refine leads_quiet trivial hG (b := false) ?_ (.refl _ s)
    simp only [machine, harg, Option.isSome_none]
  refine Script.leads_bind hlocate ?_
  refine leads_quiet trivial hG (b := ()) ?_ ?_
  · simp only [machine, hF, Option.map_some]
  refine leads_quiet trivial hG rfl (leads_quiet trivial hG rfl ?_)
  refine leads_quiet trivial hG (b := F.length) ?_ ?_
  · simp only [machine, hF, Option.bind_some, Fate.fine_done]
  refine Script.leads_check hsmall ?_
  refine leads_quiet trivial hG (b := sha F) ?_ (.refl _ s)
  simp only [machine, hF, Option.bind_some, Fate.fine_done]

theorem checkModules_leads (hG : ∀ t op, op.Quiet → G (.fine ts) t op) {itb : Itb}
    (hdep : (s.box.modules (krel itb.name)).dep = true) :
    (checkModules itb).run.Leads (machine sha run) G s (.ret (some ())) s := by
  refine leads_quiet trivial hG rfl (leads_quiet trivial hG rfl ?_)
  refine .call (.fine ts) (hG s (.testModulesDep _) trivial) ?_
  simp only [machine, hdep, if_true, Fate.fine_done]
  exact .refl _ s

variable (ts) in
/-- A transfer comes to its end. `S off` is the state when it has come to `off`. -/
theorem copyBlocks_leads (source : Bytes) (S : Nat → Site) {read : Nat → Shell Bytes}
    {write : Nat → Bytes → Shell Unit}
    (hread : ∀ off, (read off).run.Leads (machine sha run) G (S off)
      (.ret (some (Fate.block (.fine ts) source off))) (S off))
    (hwrite : ∀ off block, off ≤ source.length → block <+: source.drop off →
      (write off block).run.Leads (machine sha run) G (S off) (.ret (some ())) (S (off + block.length)))
    {n off : Nat} (hoff : off ≤ source.length) (hn : source.length ≤ off + n) :
    (copyBlocks read write n off).run.Leads (machine sha run) G (S off) (.ret (some ()))
      (S source.length) := by
  induction n generalizing off with
  | zero =>
      obtain rfl : off = source.length := by omega
      exact .refl _ _
  | succ n ih =>
      refine Script.leads_bind (hread off) ?_
      by_cases hend : source.length ≤ off
      · obtain rfl : off = source.length := by omega
        rw [if_pos (by rw [Fate.fine_block, List.drop_length, List.take_nil])]
        exact .refl _ _
      · have hne : (Fate.fine ts).block source off ≠ [] := Fate.fine_block_ne_nil ts (by omega)
        have hblock := (Fate.fine ts).block_isPrefix source off
        have hpos := List.length_pos_iff.mpr hne
        rw [if_neg hne]
        exact Script.leads_bind (hwrite off _ hoff hblock) (ih (add_length_le hoff hblock) (by omega))

/-- The whole of p3 comes to the backup. -/
theorem stream_leads (hread : ∀ t off, G (.fine ts) t (.streamP3 off)) {bk : Path}
    (hwrite : ∀ t off b, G (.fine ts) t (.writeBackup bk off b)) (hsize : s.box.p3.length = fitCap) :
    (copyBlocks (fun off => must (.streamP3 off)) (fun off block => must (.writeBackup bk off block))
      fitCap 0).run.Leads (machine sha run) G (s.setFile bk []) (.ret (some ()))
      (s.setFile bk s.box.p3) := by
  have hall : s.setFile bk s.box.p3 = s.setFile bk (s.box.p3.take s.box.p3.length) := by
    rw [List.take_length]
  rw [hall]
  refine copyBlocks_leads ts s.box.p3 (fun off => s.setFile bk (s.box.p3.take off))
    (fun off => .call (.fine ts) (hread _ _) (.refl _ _)) (fun off block hoff hblock => ?_)
    (Nat.zero_le _) (by omega)
  refine .call (.fine ts) (hwrite _ _ _) ?_
  simp only [machine, Site.setFile_files, Option.getD_some, Site.setFile_setFile, Fate.fine_written,
    Fate.fine_done, writeAt_take hoff hblock]
  exact .refl _ _

theorem leads_fine {α : Type} {op : Cmd} {f : Reply op → Shell α} {b : Reply op} {t u : Site}
    {q : Prog Cmd (fun op => Option (Reply op)) (Option α)} (hop : op.Routine)
    (hG : ∀ t op, op.Routine → G (.fine ts) t op)
    (hstep : machine sha run (.fine ts) s op = (t, some b))
    (h : (f b).run.Leads (machine sha run) G t q u) :
    (must op >>= f).run.Leads (machine sha run) G s q u :=
  Script.leads_must (.fine ts) (hG s op hop) hstep h

/-- The second check passes. -/
theorem backUp_leads (hG : ∀ t op, op.Routine → G (.fine ts) t op) (backupDir : Path)
    (hopen : G (.fine ts) s (.openBackup (backupPath backupDir ts))) (hsize : s.box.p3.length = fitCap) :
    (backUp backupDir).run.Leads (machine sha run) G s (.ret (some ()))
      (s.backedUp run (backupPath backupDir ts)) := by
  refine leads_fine trivial hG rfl ?_
  refine Script.leads_must (.fine ts) hopen rfl ?_
  refine Script.leads_bind (stream_leads (fun t off => hG t (.streamP3 off) trivial)
    (fun t off b => hG t (.writeBackup _ off b) trivial) hsize) ?_
  refine leads_fine trivial hG (b := s.box.p3.length)
    (t := s.setFile (backupPath backupDir ts) s.box.p3) ?_ ?_
  · simp only [machine, Fate.fine, Site.setFile_files, Option.bind_some, Fate.done, if_true]
  refine Script.leads_check hsize ?_
  refine leads_fine trivial hG rfl ?_
  refine leads_fine trivial hG (b := sha s.box.p3) ?_ (Script.leads_last rfl)
  exact machine_sha256Backup _ (Site.setFile_files s _ _)

/-- The whole FIT comes to the box. -/
theorem copyItb_leads (hG : ∀ t op, op.Routine → G (.fine ts) t op)
    {path : Path} {F : Bytes} (hF : s.lab.files path = some F) (hsmall : F.length < fitCap) (ino : Nat) :
    (copyBlocks (fun off => must (.readItb path off)) (fun off block => must (.writeTmp ino off block))
      fitCap 0).run.Leads (machine sha run) G (s.setInode ino []) (.ret (some ())) (s.setInode ino F) := by
  have hall : s.setInode ino F = s.setInode ino (F.take F.length) := by rw [List.take_length]
  rw [hall]
  refine copyBlocks_leads ts F (fun off => s.setInode ino (F.take off))
    (fun off => .call (.fine ts) (hG _ (.readItb path off) trivial) ?_) (fun off block hoff hblock => ?_)
    (Nat.zero_le _) (by omega)
  · simp only [machine, Site.setInode, hF, Option.bind_some, Fate.fine_done]
    exact .refl _ _
  refine .call (.fine ts) (hG _ (.writeTmp ino off block) trivial) ?_
  simp only [machine, Site.setInode, Function.update_self, Function.update_idem, Fate.fine_written,
    Fate.fine_done, writeAt_take hoff hblock]
  exact .refl _ _

variable (sha run) in
/-- The third check passes. -/
theorem push_leads (hG : ∀ t op, op.Routine → G (.fine ts) t op)
    {path : Path} {F : Bytes} (hF : s.lab.files path = some F) (hsmall : F.length < fitCap) :
    ∃ ino box, (push (.of sha path F)).run.Leads (machine sha run) G s (.ret (some ()))
        { s with box := box } ∧
      box.tmp (basename path) = some ino ∧ box.inodes ino = F ∧ box.p3 = s.box.p3 ∧
      box.modules = s.box.modules := by
  generalize hbase : (s.box.tmp (basename path)).getD s.box.fresh = ino
  generalize hbox : { s.box with
    tmp := Function.update s.box.tmp (basename path) (some ino), fresh := s.box.fresh + 1 } = box
  have hopen : machine sha run (.fine ts) s (.openTmp (basename path)) =
      (Site.setInode { s with box := box } ino [], some ino) := by
    rw [← hbox, ← hbase]
    rfl
  have htmp : box.tmp (basename path) = some ino := by
    rw [← hbox]
    exact Function.update_self _ _ _
  refine ⟨ino, { box with inodes := Function.update box.inodes ino F }, ?_, htmp,
    Function.update_self _ _ _, by rw [← hbox], by rw [← hbox]⟩
  refine leads_fine trivial hG hopen
    (Script.leads_bind (copyItb_leads (s := { s with box := box }) hG hF hsmall ino) ?_)
  refine leads_fine trivial hG (b := sha F) ?_ (Script.leads_last rfl)
  simp only [machine, Site.setInode, Itb.of, htmp, Option.bind_some, Function.update_self, Fate.fine_done]

/-- Nothing is left to copy. -/
theorem copyBlocks_end {read : Nat → Shell Bytes} {write : Nat → Bytes → Shell Unit} {n off : Nat}
    (hread : (read off).run.Leads (machine sha run) G s (.ret (some [])) s) :
    (copyBlocks read write n off).run.Leads (machine sha run) G s (.ret (some ())) s := by
  cases n with
  | zero => exact .refl _ s
  | succ n => exact Script.leads_bind hread (.refl _ s)

/-- A FIT of one block is read back: one block, and then nothing. -/
theorem readBack_leads (hG : ∀ t op, op.Routine → G (.fine ts) t op) {F : Bytes} (hF : F ≠ [])
    (hsmall : F.length ≤ blockSize) (hp3 : F <+: s.box.p3) {n : Nat} (hn : 2 ≤ n) :
    (readBack F.length n []).run.Leads (machine sha run) G s (.ret (some F)) s := by
  obtain ⟨m, rfl⟩ := Nat.exists_eq_add_of_le hn
  rw [Nat.add_comm]
  have hblock : ((Fate.fine ts).block s.box.p3 0).take F.length = F := by
    rw [Fate.fine_block, List.drop_zero, List.take_take, Nat.min_eq_left hsmall]
    exact (List.prefix_iff_eq_take.mp hp3).symm
  refine .call (.fine ts) (hG _ (.readBack 0 F.length) trivial) ?_
  change (OptionT.run (if ((Fate.fine ts).block s.box.p3 0).take F.length = [] then _ else
    readBack F.length (m + 1) ([] ++ ((Fate.fine ts).block s.box.p3 0).take F.length))).Leads _ _ s _ s
  rw [hblock, if_neg hF, List.nil_append]
  refine .call (.fine ts) (hG _ (.readBack F.length (F.length - F.length)) trivial) ?_
  have hempty : (((Fate.fine ts).block s.box.p3 F.length).take (F.length - F.length)) = [] := by
    rw [Nat.sub_self, List.take_zero]
  change (OptionT.run (if ((Fate.fine ts).block s.box.p3 F.length).take (F.length - F.length) = []
    then pure F else readBack F.length m (F ++ _))).Leads _ _ s _ s
  rw [if_pos hempty]
  exact .refl _ s

variable (sha run) in
/-- The part on the box: up to the first block, and from the state after it, with the FIT in
p3 whatever else has happened since, to the reboot. -/
theorem flash_leads (hG : ∀ t op, op.Routine → G (.fine ts) t op)
    {path : Path} {F : Bytes} {ino : Nat} (htmp : s.box.tmp (basename path) = some ino)
    (hino : s.box.inodes ino = F) (hF : F ≠ []) (hsmall : F.length ≤ blockSize) :
    ∃ next, (flash (.of sha path F)).run.Leads (machine sha run) G s (.call (.writeP3 0 F) next)
        { s with box := { s.box with flashing := some ino } } ∧
      ∀ (H : Guard Fate Site Cmd) (t : Site), (∀ t op, op.Routine → H (.fine ts) t op) →
        t.box.inodes ino = F → F <+: t.box.p3 →
        (next (some ())).Leads (machine sha run) H t (.ret (some ()))
          ((t.setTmp (basename path) none).log run (.rebooted t.box.p3)) := by
  have hopen : machine sha run (.fine ts) s (.openFlash (basename path)) =
      ({ s with box := { s.box with flashing := some ino } }, some ino) := by
    simp only [machine, htmp]
    rfl
  have hblock : (Fate.fine ts).block (s.box.inodes ino) 0 = F := by
    rw [Fate.fine_block, hino, List.drop_zero, List.take_of_length_le hsmall]
  have hread : machine sha run (.fine ts) { s with box := { s.box with flashing := some ino } }
      (.readTmp ino 0) = ({ s with box := { s.box with flashing := some ino } }, some F) := by
    rw [← hblock]
    rfl
  have hfirst : (copyBlocks (fun off => must (.readTmp ino off))
      (fun off block => must (.writeP3 off block)) fitCap 0).run.Leads (machine sha run) G
      { s with box := { s.box with flashing := some ino } }
      (must (.writeP3 0 F) >>= fun _ => copyBlocks (fun off => must (.readTmp ino off))
        (fun off block => must (.writeP3 off block)) (fitCap - 1) (0 + F.length)).run
      { s with box := { s.box with flashing := some ino } } := by
    refine leads_fine trivial hG hread ?_
    rw [if_neg hF]
    exact .refl _ _
  refine ⟨_, leads_fine trivial hG hopen hfirst.bind, fun H t hH hino' hp3 => ?_⟩
  have hend : (must (.readTmp ino (0 + F.length))).run.Leads (machine sha run) H t (.ret (some [])) t := by
    refine .call (.fine ts) (hH _ (.readTmp ino (0 + F.length)) trivial) ?_
    simp only [machine, Fate.fine_done, Fate.fine_block, hino', Nat.zero_add, List.drop_length,
      List.take_nil]
    exact .refl _ t
  change (copyBlocks (fun off => must (.readTmp ino off)) (fun off block => must (.writeP3 off block))
    (fitCap - 1) (0 + F.length) >>= fun _ => _).run.Leads _ _ t _ _
  refine Script.leads_bind (copyBlocks_end hend) ?_
  refine leads_fine trivial hH rfl ?_
  refine Script.leads_bind (readBack_leads hH hF hsmall hp3 (by decide)) ?_
  refine leads_fine (b := sha F) trivial hH rfl (Script.leads_check rfl ?_)
  refine leads_fine trivial hH rfl (leads_fine trivial hH rfl ?_)
  exact .call (.fine ts) (hH _ .reboot trivial) (.refl _ _)

variable (sha run) in
/-- A run comes to its first block, with its backup accepted. Once the FIT is in p3 it comes
from there to the reboot, as long as nobody has touched the copies on the box. -/
theorem flashBoot_leads (hG : ∀ t op, op.Routine → G (.fine ts) t op)
    {backupDir arg : Path} {F : Bytes} (harg : s.lab.images arg = none)
    (hF : s.lab.files (s.lab.real arg) = some F) (hne : F ≠ []) (hsmall : F.length ≤ blockSize)
    (hdep : (s.box.modules (krel (basename (s.lab.real arg)))).dep = true)
    (hsize : s.box.p3.length = fitCap) (hbk : s.lab.real arg ≠ backupPath backupDir ts)
    (hopen : G (.fine ts) s (.openBackup (backupPath backupDir ts))) :
    ∃ next t, (flashBoot backupDir arg).run.Leads (machine sha run) G s (.call (.writeP3 0 F) next) t ∧
      t.lab = (s.backedUp run (backupPath backupDir ts)).lab ∧
      t.journal = (s.backedUp run (backupPath backupDir ts)).journal ∧
      t.box.p3 = s.box.p3 ∧ t.box.modules = s.box.modules ∧
      ∀ (H : Guard Fate Site Cmd) (u : Site), (∀ t op, op.Routine → H (.fine ts) t op) →
        u.box.inodes = t.box.inodes → F <+: u.box.p3 →
        (next (some ())).Leads (machine sha run) H u (.ret (some ()))
          ((u.setTmp (basename (s.lab.real arg)) none).log run (.rebooted u.box.p3)) := by
  have hquiet : ∀ t op, op.Quiet → G (.fine ts) t op :=
    fun t op hop => hG t op hop.routine
  have hfit : F.length < fitCap := Nat.lt_of_le_of_lt hsmall (by decide)
  have hF' : (s.backedUp run (backupPath backupDir ts)).lab.files (s.lab.real arg) = some F :=
    (Function.update_of_ne hbk _ _).trans hF
  obtain ⟨ino, box, hpush, htmp, hino, hp3, hmodules⟩ := push_leads sha run hG hF' hfit
  obtain ⟨next, hflash, hrest⟩ := flash_leads sha run hG
    (s := { s.backedUp run (backupPath backupDir ts) with box := box }) htmp hino hne hsmall
  have hleads : ∀ q t, (flash (.of sha (s.lab.real arg) F)).run.Leads (machine sha run) G
      { s.backedUp run (backupPath backupDir ts) with box := box } q t →
      (flashBoot backupDir arg).run.Leads (machine sha run) G s q t := by
    intro q t h
    refine Script.leads_bind (inspect_leads hquiet harg hF hfit) ?_
    refine Script.leads_bind (checkModules_leads hquiet hdep) ?_
    exact Script.leads_bind (backUp_leads hG backupDir hopen hsize) (Script.leads_bind hpush h)
  refine ⟨next, _, hleads _ _ hflash, rfl, rfl, hp3, hmodules, fun H u hH hinodes hu => ?_⟩
  exact hrest H u hH ((congrFun hinodes ino).trans hino) hu

theorem length_overwrite (old : Bytes) (off : Nat) (new : Bytes) :
    (overwrite old off new).length = old.length := by
  rw [overwrite, List.length_take, List.length_append, List.length_append, List.length_take,
    List.length_drop]
  omega

/-- What is written to the front of a device is there afterwards. -/
theorem isPrefix_overwrite {F P : Bytes} (h : F.length ≤ P.length) : F <+: overwrite P 0 F := by
  unfold overwrite
  rw [List.take_zero, List.nil_append, List.prefix_take_iff]
  exact ⟨List.prefix_append F _, h⟩

variable (sha run) in
/-- A whole run without failures: p3 begins with the FIT, its old contents are in the backup,
and the box has been told to reboot. -/
theorem flashBoot_ends (hG : ∀ t op, op.Routine → G (.fine ts) t op)
    {backupDir arg : Path} {F : Bytes} (harg : s.lab.images arg = none)
    (hF : s.lab.files (s.lab.real arg) = some F) (hne : F ≠ []) (hsmall : F.length ≤ blockSize)
    (hdep : (s.box.modules (krel (basename (s.lab.real arg)))).dep = true)
    (hsize : s.box.p3.length = fitCap) (hbk : s.lab.real arg ≠ backupPath backupDir ts)
    (hopen : G (.fine ts) s (.openBackup (backupPath backupDir ts)))
    (hwrite : ∀ t, t.journal = (s.backedUp run (backupPath backupDir ts)).journal →
      G (.fine ts) t (.writeP3 0 F)) :
    ∃ t, (flashBoot backupDir arg).run.Ends (machine sha run) G s (some ()) t ∧
      t.lab = (s.backedUp run (backupPath backupDir ts)).lab ∧
      t.journal = (((s.backedUp run (backupPath backupDir ts)).log run (.flashed s.box.p3)).log run
        (.rebooted (overwrite s.box.p3 0 F))).journal ∧
      t.box.p3 = overwrite s.box.p3 0 F ∧ t.box.modules = s.box.modules := by
  obtain ⟨next, u, hleads, hlab, hjournal, hp3, hmodules, hrest⟩ :=
    flashBoot_leads sha run hG harg hF hne hsmall hdep hsize hbk hopen
  obtain ⟨v, hv⟩ : ∃ v, v = (u.log run (.flashed s.box.p3)).setP3 (overwrite s.box.p3 0 F) := ⟨_, rfl⟩
  have hstep : machine sha run (.fine ts) u (.writeP3 0 F) = (v, some ()) := by
    simp only [machine, if_true, hp3, Fate.fine_written, Fate.fine_done, hv]
  have hfit : F.length ≤ s.box.p3.length := by
    rw [hsize]
    exact Nat.le_of_lt (Nat.lt_of_le_of_lt hsmall (by decide))
  have hlast := hrest G v hG (by rw [hv]; rfl) (by rw [hv]; exact isPrefix_overwrite hfit)
  refine ⟨(v.setTmp (basename (s.lab.real arg)) none).log run (.rebooted v.box.p3),
    hleads.trans (.call (.fine ts) (hwrite u hjournal) ?_), ?_, ?_, ?_, ?_⟩
  · rw [hstep]
    exact hlast
  · rw [hv]
    exact hlab
  · rw [hv]
    simp only [Site.log, Site.setTmp, Site.setP3, hjournal]
  · rw [hv]
    rfl
  · rw [hv]
    exact hmodules

end Fine

/-- A box with an empty p3, and two FITs on lab. -/
def newSite : Site where
  lab :=
    { files := fun p => if p = [['f']] then some [1] else if p = [['g']] then some [2] else none
      images := fun _ => none
      real := id }
  box :=
    { p3 := List.replicate fitCap 0
      tmp := fun _ => none
      inodes := fun _ => []
      fresh := 0
      flashing := none
      modules := fun _ => ⟨fun _ => none, true⟩ }
  journal := fun _ => []
  past := [List.replicate fitCap 0]

/-- The FITs are not among the backups. -/
theorem newSite_apart (n : Name) (ts : Name) : ([n] : Path) ≠ backupPath [['b']] ts := by
  intro h
  have hlen := congrArg List.length h
  simp [backupPath] at hlen

theorem overwrite_cons (a b : UInt8) (l : Bytes) : overwrite (a :: l) 0 [b] = b :: l := by
  simp [overwrite]

/-- A run with the first FIT, as long as nothing keeps it from writing p3. -/
theorem newSite_ends {G : Guard Fate Site Cmd} (hG : ∀ t op, op.Routine → G (.fine ['t']) t op)
    (hopen : G (.fine ['t']) newSite (.openBackup (backupPath [['b']] ['t'])))
    (hwrite : ∀ t, t.journal = (newSite.backedUp 0 (backupPath [['b']] ['t'])).journal →
      G (.fine ['t']) t (.writeP3 0 [1])) :
    ∃ t, (flashBoot [['b']] [['f']]).run.Ends (machine id 0) G newSite (some ()) t ∧
      t.lab = (newSite.backedUp 0 (backupPath [['b']] ['t'])).lab ∧
      t.journal = (((newSite.backedUp 0 (backupPath [['b']] ['t'])).log 0
        (.flashed newSite.box.p3)).log 0 (.rebooted (overwrite newSite.box.p3 0 [1]))).journal ∧
      t.box.p3 = overwrite newSite.box.p3 0 [1] ∧ t.box.modules = newSite.box.modules :=
  flashBoot_ends id 0 hG rfl rfl nofun (by decide) rfl List.length_replicate (newSite_apart ['f'] ['t'])
    hopen hwrite

theorem newSite_overwrite {b : UInt8} (hb : b ≠ 0) : overwrite newSite.box.p3 0 [b] ≠ newSite.box.p3 := by
  have hp3 : newSite.box.p3 = 0 :: List.replicate 67108863 0 := List.replicate_succ
  rw [hp3, overwrite_cons]
  exact fun h => hb (List.cons.inj h).1

end Hub11.Scripts.FlashBoot
