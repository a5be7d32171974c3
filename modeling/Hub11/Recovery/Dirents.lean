import Hub11.Recovery.RescueInit

/-!
The bytes behind a directory listing.

`merge_dir` walks over the buffer that `getdents64` has filled: the name of a record starts
at its byte 19, the length of the record is at bytes 16 and 17. Here the two nested loops
are modelled on the bytes. A read beyond the bytes that were returned gives `none`, and so
does a walk that has not ended within its bound. The result lists the names that are
processed.

`Dirent.encode` is the layout of `linux_dirent64`. The bytes between the NUL and the end of
a record are whatever the kernel left there.
-/

namespace Hub11.Recovery

open Hub11.Effect Hub11.Posix

/-! ### The loops of `merge_dir` -/

/-- `str_eq`, at an offset of the buffer. The other string is given with its NUL, and a byte past
the end of the buffer is a read that must not happen. -/
def strEqAt (buf : Bytes) (a : Nat) : Bytes → Option Bool
  | [] => none
  | c :: cs => do
      let x ← buf[a]?
      if x ≠ 0 ∧ c ≠ 0 ∧ x = c then
        strEqAt buf (a + 1) cs
      else
        some (x = c)

/-- The string up to its NUL, as `print` and the calls read it. -/
def cString : Bytes → Option Bytes
  | [] => none
  | c :: cs => if c = 0 then some [] else (cString cs).map (c :: ·)

/-- `d->d_reclen`, two bytes, the lower one first. -/
def reclenAt (buf : Bytes) (bpos : Nat) : Option Nat := do
  let low ← buf[bpos + 16]?
  let high ← buf[bpos + 17]?
  some (low.toNat + 256 * high.toNat)

/-- `!str_eq(d->d_name, ".") && !str_eq(d->d_name, "..")` -/
def processedAt (buf : Bytes) (bpos : Nat) : Option Bool := do
  if ← strEqAt buf (bpos + 19) [46, 0] then
    some false
  else
    return !(← strEqAt buf (bpos + 19) [46, 46, 0])

/-- The inner loop: from record to record by `d_reclen`, with the names that are processed. It
returns `none` where the source would read past the bytes it was given. -/
def walkRecords (buf : Bytes) : Nat → Nat → Option (List Bytes)
  | 0, _ => none
  | fuel + 1, bpos =>
      if bpos < buf.length then do
        let names ← if ← processedAt buf bpos then
            (cString (buf.drop (bpos + 19))).map fun name => [name]
          else
            some []
        let reclen ← reclenAt buf bpos
        return names ++ (← walkRecords buf fuel (bpos + reclen))
      else
        some []

/-- The outer loop, over what the calls of `getdents64` return one after the other. -/
def walkListing (fuel : Nat) : List Bytes → Option (List Bytes)
  | [] => some []
  | buf :: bufs =>
      if 0 < buf.length then do
        let names ← walkRecords buf fuel 0
        return names ++ (← walkListing fuel bufs)
      else
        some []

/-! ### `linux_dirent64` -/

/-- The size of a record: the name at byte 19, the NUL, and up to a multiple of eight. -/
def recSize (name : Bytes) : Nat := (19 + name.length + 1 + 7) / 8 * 8

/-- A record as the kernel writes it: a name of at most 255 bytes without NUL, and padding up to a
multiple of eight. The fields that `merge_dir` does not read are arbitrary. -/
structure Dirent where
  ino : UInt64
  off : UInt64
  type : UInt8
  name : Bytes
  /-- What stands between the NUL and the end of the record. -/
  pad : Bytes
  nonempty : name ≠ []
  short : name.length ≤ 255
  nulFree : 0 ∉ name
  padded : 19 + name.length + 1 + pad.length = recSize name

/-- `k` bytes of a number, the lowest first. -/
def littleEndian : Nat → Nat → Bytes
  | 0, _ => []
  | k + 1, n => UInt8.ofNat n :: littleEndian k (n / 256)

/-- The layout of `linux_dirent64`: inode and offset, the length of the record, the type, the name
with its NUL, the padding. -/
def Dirent.encode (d : Dirent) : Bytes :=
  littleEndian 8 d.ino.toNat ++ littleEndian 8 d.off.toNat ++ littleEndian 2 (recSize d.name) ++
    [d.type] ++ d.name ++ [0] ++ d.pad

/-- The bytes of one call. -/
def encodeAll (records : List Dirent) : Bytes := (records.map Dirent.encode).flatten

/-- The records come in portions that fit into the buffer. A call without records ends the
listing. -/
def Packed (portions : List (List Dirent)) : Prop :=
  ∀ records ∈ portions, records ≠ [] ∧ (encodeAll records).length ≤ 2048

/-- The record is not one of the two that are skipped. -/
def Dirent.processed (d : Dirent) : Bool := d.name ≠ [46] ∧ d.name ≠ [46, 46]

/-! ### Reading one record -/

section Record

variable {buf : Bytes} {bpos : Nat} {d : Dirent} {rest : Bytes}

/-- The record up to its name has nineteen bytes, and the name and its NUL come next. -/
theorem Dirent.encode_eq (d : Dirent) :
    ∃ head, head.length = 19 ∧ d.encode = head ++ (d.name ++ 0 :: d.pad) := by
  refine ⟨_, ?_, by rw [Dirent.encode, List.append_assoc, List.append_assoc]; rfl⟩
  simp [littleEndian]

theorem Dirent.length_encode (d : Dirent) : d.encode.length = recSize d.name := by
  obtain ⟨head, hhead, heq⟩ := d.encode_eq
  have := d.padded
  rw [heq, List.length_append, List.length_append, List.length_cons]
  omega

/-- `str_eq` on the buffer is `str_eq` on the name that stands there. -/
theorem strEqAt_eq (other : Bytes) {a : Nat} {name : Bytes} (h : buf.drop a = name ++ 0 :: rest)
    (hname : 0 ∉ name) (hother : 0 ∉ other) :
    strEqAt buf a (other ++ [0]) = some (decide (name = other)) := by
  induction other generalizing a name with
  | nil =>
      cases name with
      | nil =>
          have hx : buf[a]? = some 0 := by rw [← List.head?_drop, h]; rfl
          simp [strEqAt, hx]
      | cons x xs =>
          have hx : buf[a]? = some x := by rw [← List.head?_drop, h]; rfl
          have hne : x ≠ 0 := fun h => hname (h ▸ List.mem_cons_self)
          simp [strEqAt, hx, hne]
  | cons c cs ih =>
      have hc : c ≠ 0 := fun h => hother (h ▸ List.mem_cons_self)
      cases name with
      | nil =>
          have hx : buf[a]? = some 0 := by rw [← List.head?_drop, h]; rfl
          simp [strEqAt, hx, Ne.symm hc]
      | cons x xs =>
          have hx : buf[a]? = some x := by rw [← List.head?_drop, h]; rfl
          have hnext : buf.drop (a + 1) = xs ++ 0 :: rest := by
            rw [← List.drop_drop, h]
            rfl
          have hxs : 0 ∉ xs := fun h => hname (List.mem_cons_of_mem _ h)
          have hcs : 0 ∉ cs := fun h => hother (List.mem_cons_of_mem _ h)
          by_cases hxc : x = c
          · subst hxc
            simp [strEqAt, hx, hc, ih hnext hxs hcs]
          · simp [strEqAt, hx, hxc]

theorem cString_append {name : Bytes} (hname : 0 ∉ name) : cString (name ++ 0 :: rest) = some name := by
  induction name with
  | nil => rfl
  | cons c cs ih =>
      have hc : c ≠ 0 := fun h => hname (h ▸ List.mem_cons_self)
      rw [List.cons_append, cString, if_neg hc, ih fun h => hname (List.mem_cons_of_mem _ h)]
      rfl

theorem reclenAt_encode (h : buf.drop bpos = d.encode ++ rest) :
    reclenAt buf bpos = some (recSize d.name) := by
  have hlow : buf[bpos + 16]? = some (UInt8.ofNat (recSize d.name)) := by
    rw [← List.getElem?_drop, h]
    simp [Dirent.encode, littleEndian]
  have hhigh : buf[bpos + 17]? = some (UInt8.ofNat (recSize d.name / 256)) := by
    rw [← List.getElem?_drop, h]
    simp [Dirent.encode, littleEndian]
  have hsize : recSize d.name < 65536 := by
    have := d.short
    unfold recSize
    omega
  rw [reclenAt, hlow, hhigh]
  simp only [Option.bind_eq_bind, Option.bind_some, UInt8.toNat_ofNat']
  congr 1
  omega

theorem name_of_drop (h : buf.drop bpos = d.encode ++ rest) :
    buf.drop (bpos + 19) = d.name ++ 0 :: (d.pad ++ rest) := by
  obtain ⟨head, hhead, heq⟩ := d.encode_eq
  rw [← List.drop_drop, h, heq, List.append_assoc, List.drop_left' hhead, List.append_assoc,
    List.cons_append]

/-- The test picks out the two records that are skipped. -/
theorem processedAt_encode (h : buf.drop bpos = d.encode ++ rest) :
    processedAt buf bpos = some d.processed := by
  have hname := name_of_drop h
  have hdot : strEqAt buf (bpos + 19) [46, 0] = some (decide (d.name = [46])) :=
    strEqAt_eq [46] hname d.nulFree (by decide)
  have hdotdot : strEqAt buf (bpos + 19) [46, 46, 0] = some (decide (d.name = [46, 46])) :=
    strEqAt_eq [46, 46] hname d.nulFree (by decide)
  rw [processedAt, hdot]
  by_cases h1 : d.name = [46]
  · simp [Dirent.processed, h1]
  · by_cases h2 : d.name = [46, 46]
    · simp [Dirent.processed, hdotdot, h2]
    · simp [Dirent.processed, hdotdot, h1, h2]

end Record

/-! ### Reading all of them -/

theorem walkRecords_encodeAll {buf : Bytes} {records : List Dirent} {bpos fuel : Nat}
    (h : buf.drop bpos = encodeAll records) (hfuel : records.length < fuel) :
    walkRecords buf fuel bpos = some ((records.filter Dirent.processed).map Dirent.name) := by
  induction records generalizing bpos fuel with
  | nil =>
      obtain _ | fuel := fuel
      · exact absurd hfuel (Nat.not_lt_zero _)
      have hend : ¬ bpos < buf.length := by
        have := List.drop_eq_nil_iff.mp h
        omega
      rw [walkRecords, if_neg hend]
      rfl
  | cons d records ih =>
      obtain _ | fuel := fuel
      · exact absurd hfuel (Nat.not_lt_zero _)
      have hd : buf.drop bpos = d.encode ++ encodeAll records := h
      have hmore : bpos < buf.length := by
        by_contra hend
        rw [List.drop_of_length_le (by omega)] at hd
        have hlen := congrArg List.length hd
        rw [List.length_append, d.length_encode, recSize, List.length_nil] at hlen
        omega
      have hnext : buf.drop (bpos + recSize d.name) = encodeAll records := by
        rw [← List.drop_drop, hd, List.drop_left' d.length_encode]
      have hrest := ih hnext (Nat.lt_of_succ_lt_succ hfuel)
      rw [walkRecords, if_pos hmore, processedAt_encode hd, reclenAt_encode hd]
      cases hp : d.processed with
      | true =>
          simp [name_of_drop hd, cString_append d.nulFree, hrest, hp]
      | false =>
          simp [hrest, hp]

/-- Every record has at least 24 bytes. -/
theorem length_encodeAll (records : List Dirent) : 24 * records.length ≤ (encodeAll records).length := by
  induction records with
  | nil => exact Nat.zero_le _
  | cons d records ih =>
      have hlen : (encodeAll (d :: records)).length = d.encode.length + (encodeAll records).length :=
        List.length_append
      have hname := List.length_pos_iff.mpr d.nonempty
      rw [hlen, d.length_encode, recSize, List.length_cons]
      omega

/-- Whatever the records are and however they are packed, the loops of `merge_dir` end, read
nothing outside what was returned, and process every record but `.` and `..`, each once and
in order. -/
theorem walkListing_encode {portions : List (List Dirent)} (h : Packed portions) {fuel : Nat}
    (hfuel : 86 ≤ fuel) :
    walkListing fuel (portions.map encodeAll) =
      some ((portions.flatten.filter Dirent.processed).map Dirent.name) := by
  induction portions with
  | nil => rfl
  | cons records portions ih =>
      obtain ⟨hne, hfits⟩ := h records List.mem_cons_self
      have hlen := length_encodeAll records
      have hpos := List.length_pos_iff.mpr hne
      have hrest := ih fun r hr => h r (List.mem_cons_of_mem _ hr)
      have hwalk : walkRecords (encodeAll records) fuel 0 =
          some ((records.filter Dirent.processed).map Dirent.name) :=
        walkRecords_encodeAll rfl (by omega)
      rw [List.map_cons, walkListing, if_pos (by omega), hwalk, hrest, List.flatten_cons,
        List.filter_append, List.map_append]
      rfl

/-- A record with the fields that do not matter set to zero. -/
def plainDirent (name : Bytes) (h : name ≠ [] ∧ name.length ≤ 255 ∧ 0 ∉ name) : Dirent where
  ino := 0
  off := 0
  type := 0
  name := name
  pad := List.replicate (recSize name - (19 + name.length + 1)) 0
  nonempty := h.1
  short := h.2.1
  nulFree := h.2.2
  padded := by
    rw [List.length_replicate, recSize]
    omega

/-- `.`, `...` and `.a` in one call, `..` in the next: the second and the third are processed. -/
theorem walkListing_encode_dots :
    walkListing 86 ([[plainDirent [46] (by decide), plainDirent [46, 46, 46] (by decide),
        plainDirent [46, 97] (by decide)], [plainDirent [46, 46] (by decide)]].map encodeAll) =
      some [[46, 46, 46], [46, 97]] := by
  refine walkListing_encode (fun records hrecords => ?_) (Nat.le_refl _)
  rcases List.mem_cons.mp hrecords with rfl | hrecords
  · exact ⟨by decide, by decide⟩
  · obtain rfl := List.mem_singleton.mp hrecords
    exact ⟨by decide, by decide⟩

/-! ### The listing of the kernel -/

/-- The size of a record is the one the kernel counts with. -/
theorem recLen_eq (c : Comp) : recLen c = recSize (dName c) := by
  cases c <;> rfl

/-- The records of a reply are as long as the number that the kernel returns. -/
theorem length_encodeAll_dents {dents : List Comp} {records : List Dirent}
    (hnames : records.map Dirent.name = dents.map dName) :
    (encodeAll records).length = (dents.map recLen).sum := by
  have hrecord : List.length ∘ Dirent.encode = recSize ∘ Dirent.name :=
    funext Dirent.length_encode
  have hdent : recLen = recSize ∘ dName := funext recLen_eq
  rw [encodeAll, List.length_flatten, List.map_map, hrecord, ← List.map_map, hnames, List.map_map,
    ← hdent]

/-- This ties the bytes to the rest of the model, where a reply of `getdents64` is a list of
components and `mergeEntry` skips two of them: any records with the names of the reply fill as
many bytes as the kernel says, and the walk over these bytes finds the components that are not
skipped. -/
theorem walkRecords_dents {dents : List Comp} {records : List Dirent} {fuel : Nat}
    (hnames : records.map Dirent.name = dents.map dName) (hfuel : records.length < fuel) :
    (encodeAll records).length = (dents.map recLen).sum ∧
    walkRecords (encodeAll records) fuel 0 = some ((dents.filter fun d =>
      !strEq (dName d) (dName .dot) && !strEq (dName d) (dName .dotdot)).map dName) := by
  refine ⟨length_encodeAll_dents hnames, ?_⟩
  have hwalk : walkRecords (encodeAll records) fuel 0 =
      some ((records.filter Dirent.processed).map Dirent.name) :=
    walkRecords_encodeAll rfl hfuel
  have hnames' := congrArg (List.filter fun n : Bytes => decide (n ≠ [46] ∧ n ≠ [46, 46])) hnames
  rw [List.filter_map, List.filter_map] at hnames'
  have hskip : (fun d => !strEq (dName d) (dName .dot) && !strEq (dName d) (dName .dotdot)) =
      (fun n : Bytes => decide (n ≠ [46] ∧ n ≠ [46, 46])) ∘ dName := by
    funext d
    change (!strEq (dName d) [46] && !strEq (dName d) [46, 46]) =
      decide (dName d ≠ [46] ∧ dName d ≠ [46, 46])
    generalize dName d = n
    rw [Bool.eq_iff_iff]
    simp [← Bool.not_eq_true, strEq_iff]
  rw [hwalk, hskip]
  exact congrArg some hnames'

end Hub11.Recovery
