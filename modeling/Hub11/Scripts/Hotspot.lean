import Mathlib.Data.List.Infix
import Hub11.Shell.Pipeline

/-!
The dispatcher script `50-hub11-ap`, which keeps the hotspot on the channel of `wlan0`.

The script looks for the word `channel` in the output of `iw dev wlan0 info`, in which the SSID
stands as well, and compares what it finds with numbers; a comparison with something that is
not a number is false. NetworkManager is modelled by the channel in the profile and the channel
of the hotspot that is running. What `nmcli` does is chosen freely, except that it
accepts only a number as a channel.

`Good` says which invocations leave the hotspot on the reported channel or off, and
`onChannel_iff` that a run is right exactly if all its invocations are of this kind.
-/

namespace Hub11.Scripts.Hotspot

open Hub11.Shell

/-! ### What `iw` reports -/

/-- What `awk` looks for. -/
def word : Text := "channel".toList

/-- The line `channel 36 (5180 MHz), width: …` as `iw` prints it: the number, and what is behind
it. -/
structure Channel where
  digits : Text
  mhz : Text
  /-- From `MHz)` on. -/
  tail : Text
  nonempty : digits ≠ []
  digit : ∀ c ∈ digits, c.isDigit = true

def Channel.number (c : Channel) : Nat := digitsValue c.digits

def Channel.line (c : Channel) : Text :=
  '\t' :: (word ++ ' ' :: (c.digits ++ ' ' :: ('(' :: c.mhz ++ ' ' :: c.tail)))

def ssidLine (ssid : Text) : Text := '\t' :: ("ssid".toList ++ ' ' :: ssid)

/-- `iw dev wlan0 info`. The SSID and the channel may be missing, and the other lines do not
have the word. -/
structure Info where
  before : List Text
  ssid : Option Text
  middle : List Text
  channel : Option Channel
  after : List Text
  wordless : ∀ l ∈ before ++ middle ++ after, ¬ word <:+: l

namespace Info

variable (i : Info)

/-- The output of `iw dev wlan0 info`, with the SSID and the channel at their places between other
lines. -/
def lines : List Text :=
  i.before ++ ((i.ssid.map ssidLine).toList ++ (i.middle ++
    ((i.channel.map Channel.line).toList ++ i.after)))

/-- The channel of `wlan0`. -/
def reported : Option Nat := i.channel.map Channel.number

/-- The lines with the word. The SSID is one of them if the word is in it. -/
def matching : List Text := i.lines.filter fun l => word <:+: l

/-- `$CH`: the second field of every line that matches, one below the other. -/
def channelText : Text := substitution (unlines (i.matching.map fun l => (fields l).getD 1 []))

/-- `$FREQ` -/
def freqText : Text :=
  substitution (unlines (i.matching.map fun l =>
    ((fields l).getD 2 []).filter fun c => c ∉ ['(', ')']))

end Info

/-! ### The script -/

/-- `[ "$t" -ge n ]` -/
def atLeast (t : Text) (n : Int) : Bool :=
  match number t with
  | some v => n ≤ v
  | none => false

/-- `[ "$t" -le n ]` -/
def atMost (t : Text) (n : Int) : Bool :=
  match number t with
  | some v => v ≤ n
  | none => false

inductive Band where
  | a
  | bg
deriving DecidableEq

structure Profile where
  band : Band
  channel : Nat
deriving DecidableEq

/-- The profile `hub11-ap`, and the channel of the hotspot if it is active. A profile that is
changed is used the next time the hotspot comes up. -/
structure State where
  profile : Profile
  active : Option Nat
deriving DecidableEq

/-- What `nmcli con up` leads to, whatever it reports in the end; the report is only logged. -/
inductive Activation where
  | active
  | unchanged
  | inactive
deriving DecidableEq

/-- What the commands of one invocation lead to. They are chosen anew each time. -/
structure Choices where
  /-- There is no `wlan1`, and so no hotspot either. -/
  gone : Bool
  /-- `wlan1-ap-iface` goes through. -/
  created : Bool
  /-- `nmcli con modify` goes through, if it can. -/
  modified : Bool
  up : Activation

inductive Event where
  | up (info : Info) (c : Choices)
  /-- `nmcli con down`, which may fail. -/
  | down (ok : Bool)
  | preDown (ok : Bool)

/-- The hotspot that is running when the script looks. -/
def live (s : State) (c : Choices) : Option Nat := if c.gone then none else s.active

/-- The number `nmcli` accepts as a channel. -/
def channelNumber (t : Text) : Option Nat := (number t).bind Int.toNat?

def modify (s : State) (c : Choices) (band : Band) (ch : Text) : State :=
  match c.modified, channelNumber ch with
  | true, some n => { s with profile := ⟨band, n⟩ }
  | _, _ => s

def conUp (s : State) (c : Choices) : State :=
  match c.up with
  | .active => { s with active := some s.profile.channel }
  | .unchanged => s
  | .inactive => { s with active := none }

/-- `$BAND`, with `0` for an empty `$FREQ` -/
def band (i : Info) : Band :=
  if atLeast (if i.freqText = [] then "0".toList else i.freqText) 5000 then .a else .bg

/-- The script on `up` of `wlan0`: nothing without a channel or on one with radar, and otherwise the
profile is changed and brought up. -/
def dispatchUp (s : State) (i : Info) (c : Choices) : State :=
  let s := { s with active := live s c }
  let ch := i.channelText
  if ch = [] then s
  else if atLeast ch 52 && atMost ch 144 then s
  else if c.gone && !c.created then s
  else conUp (modify s c (band i) ch) c

def dispatchDown (s : State) (ok : Bool) : State := if ok then { s with active := none } else s

/-- The state after an invocation of the dispatcher. -/
def dispatch (s : State) : Event → State
  | .up i c => dispatchUp s i c
  | .down ok => dispatchDown s ok
  | .preDown ok => dispatchDown s ok

/-! ### What the hotspot must be on -/

/-- The channels on which an access point must look out for radar. -/
def Dfs (n : Nat) : Prop := 52 ≤ n ∧ n ≤ 144

/-- After an `up` an active hotspot is on the channel reported to it, and not on a DFS one. Nothing
is asked of the other events. -/
def Right (s : State) : Event → Prop
  | .up i _ => ∀ n, s.active = some n → i.reported = some n ∧ ¬ Dfs n
  | _ => True

/-- The invariant after every invocation. -/
def OnChannel : State → List Event → Prop
  | _, [] => True
  | s, e :: es => Right (dispatch s e) e ∧ OnChannel (dispatch s e) es

/-- The SSID has the word in it. -/
def Wordy (i : Info) : Prop := ∃ t, i.ssid = some t ∧ word <:+: ssidLine t

/-- The script comes to `nmcli`. -/
def Proceeds (i : Info) (c : Choices) : Prop :=
  i.channelText ≠ [] ∧ (atLeast i.channelText 52 && atMost i.channelText 144) = false ∧
    (c.gone && !c.created) = false

/-- The invocations after which the hotspot is right. -/
inductive Good (s : State) (i : Info) (c : Choices) : Prop where
  /-- Nothing is done, and no hotspot runs on another channel. -/
  | alone (h : ¬ Proceeds i c ∨ c.up = .unchanged)
      (hlive : ∀ n, live s c = some n → i.reported = some n ∧ ¬ Dfs n)
  /-- The hotspot does not come up. -/
  | stopped (h : Proceeds i c) (hup : c.up = .inactive)
  /-- It comes up with a profile that was changed, and the SSID does not have the word. -/
  | tuned (h : Proceeds i c) (hup : c.up = .active) (hword : ¬ Wordy i) (hmod : c.modified = true)
  /-- It comes up with the old profile, which was for this channel already. -/
  | stale (h : Proceeds i c) (hup : c.up = .active) (hold : c.modified = false ∨ Wordy i)
      (hsame : i.reported = some s.profile.channel) (hdfs : ¬ Dfs s.profile.channel)

def GoodEvent (s : State) : Event → Prop
  | .up i c => Good s i c
  | _ => True

/-- Every invocation is good in the state it meets, which the ones before it have left. -/
def AllGood : State → List Event → Prop
  | _, [] => True
  | s, e :: es => GoodEvent s e ∧ AllGood (dispatch s e) es

/-! ### What the script reads -/

theorem word_infix_line (c : Channel) : word <:+: c.line :=
  ⟨['\t'], ' ' :: (c.digits ++ ' ' :: ('(' :: c.mhz ++ ' ' :: c.tail)), by simp [Channel.line]⟩

theorem field_line (c : Channel) : (fields c.line).getD 1 [] = c.digits := by
  unfold Channel.line
  rw [fields_blank rfl, fields_word (by decide) (by simp [word, isBlank]) rfl,
    fields_word c.nonempty (fun x hx => isBlank_of_isDigit (c.digit x hx)) rfl]
  rfl

theorem newline_notMem_digits (c : Channel) : '\n' ∉ c.digits :=
  fun h => absurd (c.digit '\n' h) (by decide)

/-- Only the SSID and the channel can match. -/
theorem matching_eq (i : Info) :
    i.matching = (i.ssid.map ssidLine).toList.filter (fun l => word <:+: l) ++
      (i.channel.map Channel.line).toList := by
  have hplain : ∀ ls : List Text, (∀ l ∈ ls, l ∈ i.before ++ i.middle ++ i.after) →
      ls.filter (fun l => word <:+: l) = [] := by
    intro ls hls
    rw [List.filter_eq_nil_iff]
    intro l hl
    simpa using i.wordless l (hls l hl)
  have hchannel : (i.channel.map Channel.line).toList.filter (fun l => word <:+: l) =
      (i.channel.map Channel.line).toList := by
    rw [List.filter_eq_self]
    intro l hl
    obtain ⟨c, -, rfl⟩ := Option.map_eq_some_iff.mp (Option.mem_toList.mp hl)
    exact decide_eq_true (word_infix_line c)
  unfold Info.matching Info.lines
  rw [List.filter_append, List.filter_append, List.filter_append, List.filter_append,
    hplain i.before (by simp +contextual), hplain i.middle (by simp +contextual),
    hplain i.after (by simp +contextual), hchannel]
  simp

/-- `$CH` is the number of the channel line, or empty without one, if the name of the network does
not have the word in it. -/
theorem channelText_eq {i : Info} (h : ¬ Wordy i) :
    i.channelText = (i.channel.map Channel.digits).getD [] := by
  have hssid : (i.ssid.map ssidLine).toList.filter (fun l => word <:+: l) = [] := by
    rw [List.filter_eq_nil_iff]
    intro l hl
    obtain ⟨t, ht, rfl⟩ := Option.map_eq_some_iff.mp (Option.mem_toList.mp hl)
    simpa using fun hword => h ⟨t, ht, hword⟩
  unfold Info.channelText
  rw [matching_eq, hssid, List.nil_append]
  cases i.channel with
  | none => rfl
  | some c =>
      have hone : unlines ([c.line].map fun l => (fields l).getD 1 []) = c.digits ++ ['\n'] := by
        simp only [List.map_cons, List.map_nil, field_line, unlines, List.flatMap_cons,
          List.flatMap_nil, List.append_nil]
      exact (congrArg substitution hone).trans (substitution_line (newline_notMem_digits c))

theorem number_channelText {i : Info} (h : ¬ Wordy i) {c : Channel} (hc : i.channel = some c) :
    number i.channelText = some (c.number : Int) := by
  rw [channelText_eq h, hc]
  exact number_digits c.nonempty c.digit

/-- The second field of a line for an SSID with the word. -/
theorem field_ssidLine {t : Text} (h : word <:+: ssidLine t) :
    (fields (ssidLine t)).getD 1 [] ≠ [] ∧
      ∀ c ∈ (fields (ssidLine t)).getD 1 [], isBlank c = false := by
  have hmem : 'c' ∈ t := by
    have hline : 'c' ∈ ssidLine t := h.subset (by decide)
    simpa [ssidLine] using hline
  have hfields : fields (ssidLine t) = "ssid".toList :: fields t := by
    unfold ssidLine
    rw [fields_blank rfl, fields_word (by decide) (by simp [isBlank]) rfl]
  obtain ⟨w, ws, hw⟩ := List.exists_cons_of_ne_nil (fields_ne_nil hmem (by decide))
  rw [hfields, hw]
  exact mem_fields (hw ▸ List.mem_cons_self)

/-- With the word in the SSID the script reads two lines, which are not a number. -/
theorem number_wordy {i : Info} (h : Wordy i) {c : Channel} (hc : i.channel = some c) :
    number i.channelText = none := by
  obtain ⟨t, ht, hword⟩ := h
  obtain ⟨hne, hblank⟩ := field_ssidLine hword
  have hmatching : i.matching = [ssidLine t, c.line] := by
    simp [matching_eq, ht, hc, hword]
  have htext : i.channelText = (fields (ssidLine t)).getD 1 [] ++ '\n' :: c.digits := by
    unfold Info.channelText
    rw [hmatching]
    have hlines : unlines ([ssidLine t, c.line].map fun l => (fields l).getD 1 []) =
        ((fields (ssidLine t)).getD 1 [] ++ ['\n']) ++ c.digits ++ ['\n'] := by
      simp only [List.map_cons, List.map_nil, field_line, unlines, List.flatMap_cons,
        List.flatMap_nil, List.append_nil, List.append_assoc]
    rw [hlines, substitution_newline, substitution_append c.nonempty (newline_notMem_digits c)]
    simp
  rw [htext]
  exact number_lines hne hblank c.nonempty c.digit

/-! ### One invocation -/

section Invocation

variable {s : State} {i : Info} {c : Choices}

/-- The hotspot after an `up`. -/
theorem active_of_not_proceeds (h : ¬ Proceeds i c) : (dispatchUp s i c).active = live s c := by
  unfold dispatchUp
  by_cases hch : i.channelText = []
  · simp [hch]
  · by_cases hdfs : (atLeast i.channelText 52 && atMost i.channelText 144) = true
    · simp [hch, hdfs]
    · by_cases hgone : (c.gone && !c.created) = true
      · simp only [hch, hdfs, hgone, if_true, if_false, Bool.false_eq_true]
      · exact absurd ⟨hch, (Bool.not_eq_true _).mp hdfs, (Bool.not_eq_true _).mp hgone⟩ h

theorem dispatchUp_of_proceeds (h : Proceeds i c) :
    dispatchUp s i c =
      conUp (modify { s with active := live s c } c (band i) i.channelText) c := by
  obtain ⟨hch, hdfs, hgone⟩ := h
  unfold dispatchUp
  simp only [hch, hdfs, hgone, if_false, Bool.false_eq_true]

theorem modify_active {t : Text} {b : Band} : (modify s c b t).active = s.active := by
  unfold modify
  split <;> rfl

theorem active_of_unchanged (h : c.up = .unchanged) : (dispatchUp s i c).active = live s c := by
  by_cases hp : Proceeds i c
  · rw [dispatchUp_of_proceeds hp, conUp, h]
    exact modify_active
  · exact active_of_not_proceeds hp

theorem active_of_inactive (hp : Proceeds i c) (h : c.up = .inactive) :
    (dispatchUp s i c).active = none := by
  rw [dispatchUp_of_proceeds hp, conUp, h]

theorem active_of_active (hp : Proceeds i c) (h : c.up = .active) :
    (dispatchUp s i c).active =
      some (modify { s with active := live s c } c (band i) i.channelText).profile.channel := by
  rw [dispatchUp_of_proceeds hp, conUp, h]

theorem modify_channel (h : c.modified = true) {n : Nat} {t : Text} {b : Band}
    (hn : channelNumber t = some n) : (modify s c b t).profile.channel = n := by
  simp [modify, h, hn]

theorem modify_stale {t : Text} {b : Band} (h : c.modified = false ∨ channelNumber t = none) :
    modify s c b t = s := by
  unfold modify
  split
  · rename_i n hmod hn
    rcases h with h | h
    · rw [h] at hmod
      cases hmod
    · rw [h] at hn
      cases hn
  · rfl

/-- What the script reads is the reported channel unless the SSID has the word. -/
theorem channelNumber_eq (hword : ¬ Wordy i) {ch : Channel} (hch : i.channel = some ch) :
    channelNumber i.channelText = some ch.number := by
  rw [channelNumber, number_channelText hword hch]
  rfl

theorem channelNumber_wordy (hword : Wordy i) {ch : Channel} (hch : i.channel = some ch) :
    channelNumber i.channelText = none := by
  rw [channelNumber, number_wordy hword hch]
  rfl

theorem exists_channel {n : Nat} (h : i.reported = some n) : ∃ ch, i.channel = some ch ∧ ch.number = n :=
  Option.map_eq_some_iff.mp h

/-- Where the script goes on and reads well, there is a channel, and not a DFS one. -/
theorem Proceeds.channel (h : Proceeds i c) (hword : ¬ Wordy i) :
    ∃ ch, i.channel = some ch ∧ ¬ Dfs ch.number := by
  obtain ⟨hne, hdfs, -⟩ := h
  cases hch : i.channel with
  | none =>
      rw [channelText_eq hword, hch] at hne
      exact absurd rfl hne
  | some ch =>
      refine ⟨ch, rfl, fun hd => ?_⟩
      simp only [atLeast, atMost, number_channelText hword hch, Bool.and_eq_false_iff,
        decide_eq_false_iff_not] at hdfs
      unfold Dfs at hd
      omega

theorem right_of_good (h : Good s i c) : Right (dispatchUp s i c) (.up i c) := by
  intro n hn
  cases h with
  | alone h hlive =>
      have hactive : (dispatchUp s i c).active = live s c := by
        rcases h with h | h
        · exact active_of_not_proceeds h
        · exact active_of_unchanged h
      exact hlive n (hactive ▸ hn)
  | stopped hp hup =>
      rw [active_of_inactive hp hup] at hn
      cases hn
  | tuned hp hup hword hmod =>
      obtain ⟨ch, hch, hdfs⟩ := hp.channel hword
      rw [active_of_active hp hup, modify_channel hmod (channelNumber_eq hword hch)] at hn
      cases hn
      exact ⟨by rw [Info.reported, hch]; rfl, hdfs⟩
  | stale hp hup hold hsame hdfs =>
      obtain ⟨ch, hch, -⟩ := exists_channel hsame
      have hstale : c.modified = false ∨ channelNumber i.channelText = none :=
        hold.imp_right fun hword => channelNumber_wordy hword hch
      rw [active_of_active hp hup, modify_stale hstale] at hn
      cases hn
      exact ⟨hsame, hdfs⟩

theorem good_of_right (h : Right (dispatchUp s i c) (.up i c)) : Good s i c := by
  by_cases hp : Proceeds i c
  · cases hup : c.up with
    | unchanged =>
        exact .alone (.inr hup) fun n hn => h n ((active_of_unchanged hup).trans hn)
    | inactive => exact .stopped hp hup
    | active =>
        have hactive := active_of_active (s := s) hp hup
        by_cases hmod : c.modified = true
        · by_cases hword : Wordy i
          · -- the reported channel cannot be what was read
            have hreported := (h _ hactive).1
            obtain ⟨ch, hch, -⟩ := exists_channel hreported
            have hstale := modify_stale (s := { s with active := live s c }) (b := band i)
              (.inr (channelNumber_wordy hword hch) : c.modified = false ∨ _)
            rw [hstale] at hactive
            exact .stale hp hup (.inr hword) (h _ hactive).1 (h _ hactive).2
          · exact .tuned hp hup hword hmod
        · have hfail : c.modified = false := (Bool.not_eq_true _).mp hmod
          have hstale := modify_stale (s := { s with active := live s c }) (b := band i)
            (t := i.channelText) (.inl hfail)
          rw [hstale] at hactive
          exact .stale hp hup (.inl hfail) (h _ hactive).1 (h _ hactive).2
  · exact .alone (.inl hp) fun n hn => h n ((active_of_not_proceeds hp).trans hn)

end Invocation

/-! ### Sequences of invocations -/

/-- One invocation leaves the hotspot right exactly if it is good. What is left is the induction
over the run. -/
theorem right_iff_good (s : State) (e : Event) : Right (dispatch s e) e ↔ GoodEvent s e := by
  cases e with
  | up i c => exact ⟨good_of_right, right_of_good⟩
  | down ok => exact Iff.rfl
  | preDown ok => exact Iff.rfl

/-- The hotspot is right after every invocation of a run exactly if all of them are good. One that
is not good is a DFS channel, a name with the word in it, or a command that failed. -/
theorem onChannel_iff (s : State) (es : List Event) : OnChannel s es ↔ AllGood s es := by
  induction es generalizing s with
  | nil => exact Iff.rfl
  | cons e es ih => exact and_congr (right_iff_good s e) (ih (dispatch s e))

section Sample

/-- The profile as it is installed, and no hotspot. -/
def fresh : State := ⟨⟨.a, 149⟩, none⟩

def channel36 : Channel :=
  ⟨"36".toList, "5180".toList, "MHz), width: 80 MHz".toList, by decide, by simp⟩

def channel100 : Channel :=
  ⟨"100".toList, "5500".toList, "MHz), width: 80 MHz".toList, by decide, by simp⟩

def infoOn (ch : Channel) : Info where
  before := ["Interface wlan0".toList]
  ssid := some "nope_5g".toList
  middle := ["\ttype managed".toList]
  channel := some ch
  after := []
  wordless := by decide

/-- Everything goes well. -/
def smooth : Choices := ⟨false, true, true, .active⟩

/-- The access point moves to a DFS channel while the hotspot is up. -/
def movedToDfs : List Event := [.up (infoOn channel36) smooth, .up (infoOn channel100) smooth]

theorem not_onChannel : ¬ ∀ es : List Event, OnChannel fresh es := by
  intro h
  have hright := (h movedToDfs).2.1
  have hactive : (dispatch (dispatch fresh (.up (infoOn channel36) smooth))
      (.up (infoOn channel100) smooth)).active = some 36 := by decide
  exact absurd (hright 36 hactive).1 (by decide)

end Sample

end Hub11.Scripts.Hotspot
