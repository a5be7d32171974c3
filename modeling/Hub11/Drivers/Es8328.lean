import Mathlib.Logic.Function.Basic

/-!
The rate dividers of the ES8388 codec, with the two patches to `es8328.c`.

The first patch looks the MCLK ratio up in consumer mode as well. The second one writes the
power-up table at probe and, in `hw_params` of the playback stream, the ratio to the ADC as
well as to the DAC. `hw_params` of the capture stream writes it to the ADC only.

The driver under the patches is not part of this repository. What they rely on are the
parameters of `Driver`: the addresses and masks of its header, the word lengths it accepts, and
what a register reads as after a write that failed. A write to the codec can fail on the bus.
The result of the last one is returned, the others are not looked at.
-/

namespace Hub11.Drivers.Es8328

/-- The address of a register, or what it holds. -/
abbrev Reg := BitVec 8

/-- What the patches use of the unpatched driver: registers, masks, word lengths, and what a failed
write leaves. -/
structure Driver where
  masterMode : Reg
  dacControl1 : Reg
  dacControl2 : Reg
  adcControl4 : Reg
  adcControl5 : Reg
  distinct : [masterMode, dacControl1, dacControl2, adcControl4, adcControl5].Nodup
  /-- `ES8328_MASTERMODE_MCLKDIV2` -/
  mclkdiv2Mask : Reg
  /-- `ES8328_DACCONTROL1_DACWL_MASK` -/
  dacwlMask : Reg
  dacwlShift : Nat
  /-- `ES8328_ADCCONTROL4_ADCWL_MASK` -/
  adcwlMask : Reg
  adcwlShift : Nat
  /-- `ES8328_RATEMASK` -/
  rateMask : Reg
  /-- The code of a word length, if it is supported. -/
  wordLength : Nat → Option Reg
  /-- What a register reads as after a failed write, from what it held and what was written. The
  cache of `regmap` is written before the bus. -/
  failed : Reg → Reg → Reg

/-- `sysclk_constraints->list` with `mclk_ratios`: the rates that the MCLK allows, each with the
code of its ratio. -/
structure Constraints (D : Driver) where
  rows : List (Nat × Reg)
  /-- Every ratio fits into its field. -/
  fits : ∀ row ∈ rows, row.2 &&& D.rateMask = row.2

inductive Stream where
  | playback
  | capture
deriving DecidableEq

/-- A call of `es8328_hw_params`, with the private data of the driver at that time, and what the bus
makes of its writes. -/
structure Call (D : Driver) where
  stream : Stream
  rate : Nat
  width : Nat
  provider : Bool
  mclkdiv2 : Bool
  sysclkConstraints : Option (Constraints D)
  /-- A write to this register gets through. -/
  bus : Reg → Bool

/-- The registers as the driver reads them. -/
abbrev Registers := Reg → Reg

/-- The bits under the mask are replaced, and the others stay. -/
def merged (old mask val : Reg) : Reg := (old &&& ~~~mask) ||| (val &&& mask)

/-- `snd_soc_component_update_bits`. Nothing is written if nothing changes, and a failed write
leaves what `failed` says. -/
def updateBits (D : Driver) (bus : Reg → Bool) (regs : Registers) (reg mask val : Reg) :
    Registers × Bool :=
  if merged (regs reg) mask val = regs reg then
    (regs, true)
  else if bus reg then
    (Function.update regs reg (merged (regs reg) mask val), true)
  else
    (Function.update regs reg (D.failed (regs reg) (merged (regs reg) mask val)), false)

section HwParams

variable {D : Driver}

/-- The ratio of the first row with this rate. A rate that is not in the list has none. -/
def Constraints.lookup (k : Constraints D) (rate : Nat) : Option Reg :=
  (k.rows.find? fun row => row.1 = rate).map Prod.snd

/-- The ratio of a call; without one it fails with `-EINVAL`. In consumer mode, where the first
patch looks it up too, zero takes the place of a missing one. -/
def Call.ratio (c : Call D) : Option Reg :=
  if c.provider then
    c.sysclkConstraints.bind fun k => k.lookup c.rate
  else
    match c.sysclkConstraints with
    | some k => some ((k.lookup c.rate).getD 0)
    | none => some 0

/-- The driver clears `mclkdiv2` where it knows nothing of the MCLK. -/
def Call.divides (c : Call D) : Bool :=
  c.mclkdiv2 && (c.provider || c.sysclkConstraints.isSome)

/-- The last part of `es8328_hw_params`: the word length, then the ratio. -/
def setRate (c : Call D) (regs : Registers) (ratio wl : Reg) : Registers × Bool :=
  match c.stream with
  | .playback =>
      let regs := (updateBits D c.bus regs D.dacControl1 D.dacwlMask (wl <<< D.dacwlShift)).1
      let regs := (updateBits D c.bus regs D.adcControl5 D.rateMask ratio).1
      updateBits D c.bus regs D.dacControl2 D.rateMask ratio
  | .capture =>
      let regs := (updateBits D c.bus regs D.adcControl4 D.adcwlMask (wl <<< D.adcwlShift)).1
      updateBits D c.bus regs D.adcControl5 D.rateMask ratio

/-- `es8328_hw_params`; the second part of the result says whether it succeeds. A word length that
is not supported is found only after `MCLKDIV2` has been written. -/
def hwParams (c : Call D) (regs : Registers) : Registers × Bool :=
  match c.ratio with
  | none => (regs, false)
  | some ratio =>
      let regs := (updateBits D c.bus regs D.masterMode D.mclkdiv2Mask
        (if c.divides then D.mclkdiv2Mask else 0)).1
      match D.wordLength c.width with
      | none => (regs, false)
      | some wl => setRate c regs ratio wl

end HwParams

/-- `es8388_init` and the two writes after it. -/
def es8388Init : List (Reg × Reg) :=
  [(0x01, 0x60), (0x02, 0xf3), (0x02, 0xf0), (0x2b, 0x80), (0x00, 0x36), (0x08, 0x00), (0x04, 0x00),
    (0x06, 0xc3), (0x19, 0x02), (0x09, 0x00), (0x0a, 0xf8), (0x0b, 0x82), (0x0c, 0x0c), (0x0d, 0x02),
    (0x10, 0x00), (0x11, 0x00), (0x12, 0x00), (0x13, 0xc0), (0x14, 0x05), (0x15, 0x06), (0x16, 0x52),
    (0x17, 0x18), (0x18, 0x02), (0x1a, 0x00), (0x1b, 0x00), (0x27, 0xb8), (0x2a, 0xb8), (0x03, 0x09),
    (0x02, 0x00)]

/-- `es8328_component_probe`, as far as the second patch adds to it: the power-up table, written in
order. -/
def probe (regs : Registers) : Registers :=
  es8388Init.foldl (fun regs row => Function.update regs row.1 row.2) regs

/-! ### In step -/

/-- The ratio in a register. -/
def Driver.field (D : Driver) (regs : Registers) (reg : Reg) : Reg := regs reg &&& D.rateMask

section InStep

variable {D : Driver}

/-- Both dividers hold the ratio of the call, which is what the comment in the patch calls the same
fs. -/
def InStep (c : Call D) (regs : Registers) : Prop :=
  D.field regs D.adcControl5 = D.field regs D.dacControl2 ∧
    c.ratio = some (D.field regs D.dacControl2)

instance (c : Call D) (regs : Registers) : Decidable (InStep c regs) :=
  inferInstanceAs (Decidable (_ ∧ _))

/-- After a failed write of this ratio over this value the register reads as the ratio. -/
def Driver.Sticks (D : Driver) (old ratio : Reg) : Prop :=
  D.failed old (merged old D.rateMask ratio) &&& D.rateMask = ratio

/-- A playback call whose write to the ADC gets through, is not needed or sticks all the same; a
capture call for the ratio that the DAC has. -/
def Matched (c : Call D) (regs : Registers) : Prop :=
  match c.stream with
  | .playback =>
      c.bus D.adcControl5 = true ∨ c.ratio = some (D.field regs D.adcControl5) ∨
        ∃ ratio ∈ c.ratio, D.Sticks (regs D.adcControl5) ratio
  | .capture => c.ratio = some (D.field regs D.dacControl2)

/-- Every call of the sequence that succeeds leaves both dividers at its ratio. A call that fails
may leave anything. -/
def StayInStep : List (Call D) → Registers → Prop
  | [], _ => True
  | c :: calls, regs =>
      ((hwParams c regs).2 = true → InStep c (hwParams c regs).1) ∧
        StayInStep calls (hwParams c regs).1

/-- Every call of the sequence that succeeds is matched when it is made, in the state that the calls
before it have left. -/
def AllMatched : List (Call D) → Registers → Prop
  | [], _ => True
  | c :: calls, regs =>
      ((hwParams c regs).2 = true → Matched c regs) ∧ AllMatched calls (hwParams c regs).1

/-! ### What one update does -/

theorem merged_and_mask (old mask val : Reg) : merged old mask val &&& mask = val &&& mask := by
  ext i
  simp only [merged, BitVec.getElem_and, BitVec.getElem_or, BitVec.getElem_not]
  cases old[i] <;> cases mask[i] <;> cases val[i] <;> rfl

/-- A register whose field has the value already is not changed. -/
theorem merged_eq_self {old mask val : Reg} (h : old &&& mask = val &&& mask) :
    merged old mask val = old := by
  rw [merged, ← h]
  ext i
  simp only [BitVec.getElem_and, BitVec.getElem_or, BitVec.getElem_not]
  cases old[i] <;> cases mask[i] <;> rfl

theorem updateBits_cases (bus : Reg → Bool) (regs : Registers) (reg mask val : Reg) :
    (regs reg &&& mask = val &&& mask ∧ updateBits D bus regs reg mask val = (regs, true)) ∨
    (bus reg = true ∧ updateBits D bus regs reg mask val =
      (Function.update regs reg (merged (regs reg) mask val), true)) ∨
    (bus reg = false ∧ regs reg &&& mask ≠ val &&& mask ∧
      updateBits D bus regs reg mask val =
        (Function.update regs reg (D.failed (regs reg) (merged (regs reg) mask val)), false)) := by
  unfold updateBits
  by_cases hsame : merged (regs reg) mask val = regs reg
  · rw [if_pos hsame]
    refine .inl ⟨?_, rfl⟩
    rw [← merged_and_mask (regs reg) mask val, hsame]
  · rw [if_neg hsame]
    cases hbus : bus reg with
    | true => exact .inr (.inl ⟨rfl, rfl⟩)
    | false => exact .inr (.inr ⟨rfl, fun h => hsame (merged_eq_self h), rfl⟩)

variable {bus : Reg → Bool} {regs : Registers} {reg mask val : Reg}

theorem updateBits_of_ne {other : Reg} (h : other ≠ reg) :
    (updateBits D bus regs reg mask val).1 other = regs other := by
  obtain ⟨-, heq⟩ | ⟨-, heq⟩ | ⟨-, -, heq⟩ :=
    updateBits_cases (D := D) bus regs reg mask val
  · rw [heq]
  · rw [heq]
    exact Function.update_of_ne h _ _
  · rw [heq]
    exact Function.update_of_ne h _ _

/-- The field has the value afterwards just if the write gets through, the field had it or the
failed write leaves it; and it has it if the update succeeds. -/
theorem updateBits_spec (bus : Reg → Bool) (regs : Registers) (reg mask val : Reg) :
    ((updateBits D bus regs reg mask val).1 reg &&& mask = val &&& mask ↔
      bus reg = true ∨ regs reg &&& mask = val &&& mask ∨
        D.failed (regs reg) (merged (regs reg) mask val) &&& mask = val &&& mask) ∧
    ((updateBits D bus regs reg mask val).2 = true →
      (updateBits D bus regs reg mask val).1 reg &&& mask = val &&& mask) := by
  obtain ⟨hfield, heq⟩ | ⟨hbus, heq⟩ | ⟨hbus, hfield, heq⟩ :=
    updateBits_cases (D := D) bus regs reg mask val
  · rw [heq]
    exact ⟨⟨fun h => .inr (.inl h), fun _ => hfield⟩, fun _ => hfield⟩
  · rw [heq]
    dsimp only
    rw [Function.update_self]
    have hnew := merged_and_mask (regs reg) mask val
    exact ⟨⟨fun _ => .inl hbus, fun _ => hnew⟩, fun _ => hnew⟩
  · rw [heq]
    dsimp only
    rw [Function.update_self]
    refine ⟨⟨fun h => .inr (.inr h), ?_⟩, fun h => by cases h⟩
    rintro (h | h | h)
    · rw [hbus] at h
      cases h
    · exact absurd h hfield
    · exact h

/-! ### What a call does -/

theorem Driver.adcControl5_ne (D : Driver) :
    D.adcControl5 ≠ D.masterMode ∧ D.adcControl5 ≠ D.dacControl1 ∧ D.adcControl5 ≠ D.dacControl2 ∧
      D.adcControl5 ≠ D.adcControl4 := by
  have h := D.distinct
  simp only [List.nodup_cons, List.mem_cons, not_or] at h
  exact ⟨Ne.symm h.1.2.2.2.1, Ne.symm h.2.1.2.2.1, Ne.symm h.2.2.1.2.1, Ne.symm h.2.2.2.1.1⟩

theorem Driver.dacControl2_ne (D : Driver) :
    D.dacControl2 ≠ D.masterMode ∧ D.dacControl2 ≠ D.dacControl1 ∧ D.dacControl2 ≠ D.adcControl4 := by
  have h := D.distinct
  simp only [List.nodup_cons, List.mem_cons, not_or] at h
  exact ⟨Ne.symm h.1.2.1, Ne.symm h.2.1.1, h.2.2.1.1⟩

/-- A ratio that is looked up fits into its field. -/
theorem Call.ratio_fits {c : Call D} {ratio : Reg} (h : c.ratio = some ratio) :
    ratio &&& D.rateMask = ratio := by
  have hrow : ∀ k : Constraints D, ∀ r, k.lookup c.rate = some r → r &&& D.rateMask = r := by
    intro k r hr
    obtain ⟨row, hfind, rfl⟩ := Option.map_eq_some_iff.mp hr
    exact k.fits row (List.mem_of_find?_eq_some hfind)
  unfold Call.ratio at h
  split at h
  · obtain ⟨k, -, hk⟩ := Option.bind_eq_some_iff.mp h
    exact hrow k ratio hk
  · split at h
    · rename_i k _
      cases hk : k.lookup c.rate with
      | none =>
          rw [hk] at h
          cases h
          exact BitVec.zero_and
      | some r =>
          rw [hk] at h
          cases h
          exact hrow k _ hk
    · cases h
      exact BitVec.zero_and

/-- A successful call comes to its last part with both dividers untouched. -/
theorem hwParams_ok {c : Call D} (h : (hwParams c regs).2 = true) :
    ∃ ratio wl regs', c.ratio = some ratio ∧ hwParams c regs = setRate c regs' ratio wl ∧
      regs' D.adcControl5 = regs D.adcControl5 ∧ regs' D.dacControl2 = regs D.dacControl2 := by
  unfold hwParams at h ⊢
  cases hratio : c.ratio with
  | none =>
      rw [hratio] at h
      cases h
  | some ratio =>
      rw [hratio] at h
      dsimp only at h ⊢
      cases hwl : D.wordLength c.width with
      | none =>
          rw [hwl] at h
          cases h
      | some wl =>
          refine ⟨ratio, wl, _, rfl, rfl, ?_, ?_⟩
          · exact updateBits_of_ne D.adcControl5_ne.1
          · exact updateBits_of_ne D.dacControl2_ne.1

/-- The last part for playback: the DAC has the ratio, and the ADC if its write got through. -/
theorem setRate_playback {c : Call D} {ratio wl : Reg} (hstream : c.stream = .playback)
    (hfits : ratio &&& D.rateMask = ratio) (h : (setRate c regs ratio wl).2 = true) :
    D.field (setRate c regs ratio wl).1 D.dacControl2 = ratio ∧
      (D.field (setRate c regs ratio wl).1 D.adcControl5 = ratio ↔
        c.bus D.adcControl5 = true ∨ D.field regs D.adcControl5 = ratio ∨
          D.Sticks (regs D.adcControl5) ratio) := by
  unfold setRate at h ⊢
  rw [hstream] at h ⊢
  dsimp only at h ⊢
  generalize hregs₁ : (updateBits D c.bus regs D.dacControl1 D.dacwlMask (wl <<< D.dacwlShift)).1 =
    regs₁ at h ⊢
  have hadc₁ : regs₁ D.adcControl5 = regs D.adcControl5 := by
    rw [← hregs₁]
    exact updateBits_of_ne D.adcControl5_ne.2.1
  have hmirror := (updateBits_spec (D := D) c.bus regs₁ D.adcControl5 D.rateMask ratio).1
  generalize (updateBits D c.bus regs₁ D.adcControl5 D.rateMask ratio).1 = regs₂ at h hmirror ⊢
  have hdac := (updateBits_spec c.bus regs₂ D.dacControl2 D.rateMask ratio).2 h
  rw [hfits] at hdac hmirror
  rw [hadc₁] at hmirror
  refine ⟨hdac, ?_⟩
  rw [Driver.field, updateBits_of_ne D.adcControl5_ne.2.2.1]
  exact hmirror

/-- The last part for capture: the ADC has the ratio, and the DAC is as it was. -/
theorem setRate_capture {c : Call D} {ratio wl : Reg} (hstream : c.stream = .capture)
    (hfits : ratio &&& D.rateMask = ratio) (h : (setRate c regs ratio wl).2 = true) :
    D.field (setRate c regs ratio wl).1 D.adcControl5 = ratio ∧
      D.field (setRate c regs ratio wl).1 D.dacControl2 = D.field regs D.dacControl2 := by
  unfold setRate at h ⊢
  rw [hstream] at h ⊢
  dsimp only at h ⊢
  have hadc := (updateBits_spec c.bus _ D.adcControl5 D.rateMask ratio).2 h
  rw [hfits] at hadc
  refine ⟨hadc, ?_⟩
  rw [Driver.field, Driver.field, updateBits_of_ne (Ne.symm D.adcControl5_ne.2.2.1),
    updateBits_of_ne D.dacControl2_ne.2.2]

/-- A successful call leaves both dividers at its ratio just if it is matched. -/
theorem hwParams_inStep {c : Call D} (h : (hwParams c regs).2 = true) :
    InStep c (hwParams c regs).1 ↔ Matched c regs := by
  obtain ⟨ratio, wl, regs', hratio, heq, hadc, hdac⟩ := hwParams_ok h
  have hfits := Call.ratio_fits hratio
  have hfield : D.field regs' D.adcControl5 = D.field regs D.adcControl5 := by
    rw [Driver.field, hadc, Driver.field]
  have hfield' : D.field regs' D.dacControl2 = D.field regs D.dacControl2 := by
    rw [Driver.field, hdac, Driver.field]
  rw [heq] at h ⊢
  unfold InStep Matched
  rw [hratio]
  cases hstream : c.stream with
  | playback =>
      obtain ⟨hset, hmirror⟩ := setRate_playback hstream hfits h
      rw [hset, hmirror, hfield, hadc]
      constructor
      · rintro ⟨h | h | h, -⟩
        · exact .inl h
        · exact .inr (.inl (congrArg some h.symm))
        · exact .inr (.inr ⟨ratio, rfl, h⟩)
      · rintro (h | h | ⟨_, heq, h⟩)
        · exact ⟨.inl h, rfl⟩
        · exact ⟨.inr (.inl (Option.some.inj h).symm), rfl⟩
        · cases heq
          exact ⟨.inr (.inr h), rfl⟩
  | capture =>
      obtain ⟨hset, hkept⟩ := setRate_capture hstream hfits h
      rw [hset, hkept, hfield']
      exact ⟨fun h => h.2, fun h => ⟨Option.some.inj h, h⟩⟩

/-- For every sequence of calls after probe, playback and capture in any order: the dividers stay in
step exactly if every call that succeeds is matched. What goes wrong is a capture call at another
ratio than the DAC has. -/
theorem stayInStep_iff (calls : List (Call D)) (regs : Registers) :
    StayInStep calls (probe regs) ↔ AllMatched calls (probe regs) := by
  generalize probe regs = regs
  induction calls generalizing regs with
  | nil => exact Iff.rfl
  | cons c calls ih =>
      have hcall : ((hwParams c regs).2 = true → InStep c (hwParams c regs).1) ↔
          ((hwParams c regs).2 = true → Matched c regs) :=
        imp_congr_right fun h => hwParams_inStep h
      exact and_congr hcall (ih _)

end InStep

/-- The addresses and masks of the mainline driver, over a cache that takes every write. -/
def mainline : Driver where
  masterMode := 0x08
  dacControl1 := 0x17
  dacControl2 := 0x18
  adcControl4 := 0x0c
  adcControl5 := 0x0d
  distinct := by decide
  mclkdiv2Mask := 0x40
  dacwlMask := 0x38
  dacwlShift := 3
  adcwlMask := 0x1c
  adcwlShift := 2
  rateMask := 0x1f
  wordLength := fun width => [(16, 3), (18, 2), (20, 1), (24, 0), (32, 4)].lookup width
  failed := fun _ written => written

/-- Two of the rates for an MCLK of 12.288 MHz. -/
def mclk12288 : Constraints mainline := ⟨[(24000, 4), (48000, 2)], by decide⟩

/-- Consumer mode with a known MCLK and a bus that works. -/
def setup (stream : Stream) (rate : Nat) : Call mainline :=
  ⟨stream, rate, 16, false, false, some mclk12288, fun _ => true⟩

example : StayInStep [setup .playback 24000, setup .capture 24000] (probe fun _ => 0) := by
  refine ⟨fun _ => ?_, fun _ => ?_, trivial⟩ <;> decide

/-- Capture at 24 kHz right after probe: the ADC is set to 4, the DAC stays at 2. -/
theorem not_stayInStep :
    ¬ ∀ (D : Driver) (calls : List (Call D)) (regs : Registers), StayInStep calls (probe regs) := by
  intro h
  have hcall := (h mainline [setup .capture 24000] fun _ => 0).1 (by decide)
  revert hcall
  decide

end Hub11.Drivers.Es8328
