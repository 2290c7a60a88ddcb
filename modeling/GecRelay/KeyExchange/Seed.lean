import GecRelay.KeyExchange.ReadMessage

/-!
# The seed of the key exchange

`seed_from_uav` waits for an ATTITUDE message with a pitch speed and for a
BATTERY_STATUS message with a voltage, and multiplies the two for `srand`. Its
loop ends as soon as it has one of them: the other factor is what the last
message that did not pass left, or what was on the stack.

A `float` is its bit pattern. `conv` stands for the conversion
`(unsigned int)(fabs(pitchspeed) * 1e10)`.
-/

namespace GecRelay

open Foundation

def mavlinkMsgIdAttitude : BitVec 24 := 30

def mavlinkMsgIdBatteryStatus : BitVec 24 := 147

/-! ## Fields of a message -/

def payloadByte (msg : MavlinkMessage) (ofs : ℕ) : UInt8 := msg.payload.toList.getD ofs 0

/-- `_MAV_RETURN_float`. -/
def mavReturnFloat (msg : MavlinkMessage) (ofs : ℕ) : UInt32 :=
  (payloadByte msg ofs).toUInt32 ||| (payloadByte msg (ofs + 1)).toUInt32 <<< 8 |||
    (payloadByte msg (ofs + 2)).toUInt32 <<< 16 ||| (payloadByte msg (ofs + 3)).toUInt32 <<< 24

/-- An element of `_MAV_RETURN_uint16_t_array`. -/
def mavReturnUint16 (msg : MavlinkMessage) (ofs : ℕ) : UInt16 :=
  (payloadByte msg ofs).toUInt16 ||| (payloadByte msg (ofs + 1)).toUInt16 <<< 8

def mavlinkMsgAttitudeGetPitchspeed (msg : MavlinkMessage) : UInt32 := mavReturnFloat msg 20

def mavlinkMsgBatteryStatusGetVoltages (msg : MavlinkMessage) : List.Vector UInt16 10 :=
  List.Vector.ofFn fun i => mavReturnUint16 msg (10 + i * 2)

/-- The bits of `fabsf`. -/
def fabsf (bits : UInt32) : UInt32 := bits &&& 0x7FFFFFFF

/-- `fabsf(pitchspeed) > 0.00000001f`. The bits of non-negative floats are
ordered as the floats are; those above infinity are no numbers. -/
def aboveEpsilon (bits : UInt32) : Bool := 0x322BCC77 < fabsf bits && fabsf bits ≤ 0x7F800000

/-! ## The loop -/

structure SeedLocals where
  pitchspeed : UInt32
  voltages : List.Vector UInt16 10
  gotPitchspeed : Bool
  gotVoltage : Bool

/-- The `switch` on a message. -/
def seedSwitch (l : SeedLocals) (msg : MavlinkMessage) : SeedLocals :=
  if msg.msgid = mavlinkMsgIdAttitude then
    if !l.gotPitchspeed then
      let pitchspeed := mavlinkMsgAttitudeGetPitchspeed msg
      if aboveEpsilon pitchspeed then
        { l with pitchspeed := pitchspeed, gotPitchspeed := true }
      else { l with pitchspeed := pitchspeed }
    else l
  else if msg.msgid = mavlinkMsgIdBatteryStatus then
    if !l.gotVoltage then
      let voltages := mavlinkMsgBatteryStatusGetVoltages msg
      if voltages.get 0 ≠ 0 then { l with voltages := voltages, gotVoltage := true }
      else { l with voltages := voltages }
    else l
  else l

def SeedLocals.seed (conv : UInt32 → UInt32) (l : SeedLocals) : UInt32 :=
  conv l.pitchspeed * (l.voltages.get 0).toUInt32

/-- The `do` loop on the messages that `read_message` returns: how many it has
read, and the seed. It has not returned when they do not end it. -/
def seedLoop (conv : UInt32 → UInt32) : SeedLocals → List MavlinkMessage → Option (ℕ × UInt32)
  | _, [] => none
  | l, msg :: msgs =>
      let l' := seedSwitch l msg
      if !l'.gotPitchspeed && !l'.gotVoltage then
        (seedLoop conv l' msgs).map fun r => (r.1 + 1, r.2)
      else some (1, l'.seed conv)

/-- `pitchspeed` and `voltages` are not initialised. -/
def seedFromUav (conv : UInt32 → UInt32) (pitchspeed : UInt32) (voltages : List.Vector UInt16 10)
    (msgs : List MavlinkMessage) : Option (ℕ × UInt32) :=
  seedLoop conv ⟨pitchspeed, voltages, false, false⟩ msgs

/-! ## The measurements -/

def pitchOf (msg : MavlinkMessage) : Option UInt32 :=
  if msg.msgid = mavlinkMsgIdAttitude then some (mavlinkMsgAttitudeGetPitchspeed msg) else none

def voltageOf (msg : MavlinkMessage) : Option UInt16 :=
  if msg.msgid = mavlinkMsgIdBatteryStatus then
    some ((mavlinkMsgBatteryStatusGetVoltages msg).get 0)
  else none

/-- The first pitch speed that is not zero. -/
def firstPitch (msgs : List MavlinkMessage) : Option UInt32 :=
  (msgs.filterMap pitchOf).find? fun bits => fabsf bits ≠ 0

def firstVoltage (msgs : List MavlinkMessage) : Option UInt16 :=
  (msgs.filterMap voltageOf).find? (· ≠ 0)

def lastPitch (msgs : List MavlinkMessage) : Option UInt32 := (msgs.filterMap pitchOf).getLast?

/-- **The seed uses both measurements**, whatever is on the stack and however
the pitch speed is converted. -/
def SeedUsesBoth (msgs : List MavlinkMessage) : Prop :=
  ∀ conv pitchspeed voltages n seed,
    seedFromUav conv pitchspeed voltages msgs = some (n, seed) →
    ∃ p v, firstPitch (msgs.take n) = some p ∧ firstVoltage (msgs.take n) = some v ∧
      seed = conv p * v.toUInt32

/-- The message passes the test of its kind. -/
def PassesTest (msg : MavlinkMessage) : Prop :=
  (∃ p, pitchOf msg = some p ∧ aboveEpsilon p) ∨ ∃ v, voltageOf msg = some v ∧ v ≠ 0

/-- The first message that passes is a BATTERY_STATUS, and the last pitch speed
before it, too small to pass, is the first that is not zero. -/
def PitchLeft (msgs : List MavlinkMessage) : Prop :=
  ∀ before msg after, msgs = before ++ msg :: after →
    (∀ m ∈ before, ¬PassesTest m) → PassesTest msg →
    msg.msgid = mavlinkMsgIdBatteryStatus ∧
    ∃ p, firstPitch before = some p ∧ lastPitch before = some p

/-! ## One message -/

/-- The locals while nothing has passed. -/
structure Waiting (pitchspeed : UInt32) (before : List MavlinkMessage) (l : SeedLocals) : Prop where
  noPitch : l.gotPitchspeed = false
  noVoltage : l.gotVoltage = false
  pitch : l.pitchspeed = (lastPitch before).getD pitchspeed

@[simp] theorem attitude_ne_batteryStatus : mavlinkMsgIdAttitude ≠ mavlinkMsgIdBatteryStatus := by
  decide

theorem passes_attitude {msg : MavlinkMessage} (h : msg.msgid = mavlinkMsgIdAttitude) :
    PassesTest msg ↔ aboveEpsilon (mavlinkMsgAttitudeGetPitchspeed msg) := by
  simp [PassesTest, pitchOf, voltageOf, h]

theorem passes_battery {msg : MavlinkMessage} (h : msg.msgid = mavlinkMsgIdBatteryStatus) :
    PassesTest msg ↔ (mavlinkMsgBatteryStatusGetVoltages msg).get 0 ≠ 0 := by
  simp [PassesTest, pitchOf, voltageOf, h, attitude_ne_batteryStatus.symm]

theorem lastPitch_snoc (before : List MavlinkMessage) (msg : MavlinkMessage) :
    lastPitch (before ++ [msg]) = (pitchOf msg).or (lastPitch before) := by
  rw [lastPitch, List.filterMap_append, List.getLast?_append, lastPitch]
  cases h : pitchOf msg <;> simp [h]

section Steps

variable {pitchspeed : UInt32} {before : List MavlinkMessage} {l : SeedLocals}
  {msg : MavlinkMessage}

theorem Waiting.wait (h : Waiting pitchspeed before l) (hmsg : ¬PassesTest msg) :
    Waiting pitchspeed (before ++ [msg]) (seedSwitch l msg) := by
  by_cases hatt : msg.msgid = mavlinkMsgIdAttitude
  · have hlow : ¬aboveEpsilon (mavlinkMsgAttitudeGetPitchspeed msg) :=
      fun habove => hmsg ((passes_attitude hatt).mpr habove)
    refine ⟨?_, ?_, ?_⟩
    · simp [seedSwitch, hatt, h.noPitch, hlow]
    · simp [seedSwitch, hatt, h.noPitch, hlow, h.noVoltage]
    · rw [lastPitch_snoc, pitchOf, if_pos hatt]
      simp [seedSwitch, hatt, h.noPitch, hlow]
  · have hnone : pitchOf msg = none := if_neg hatt
    have hlast : lastPitch (before ++ [msg]) = lastPitch before := by
      rw [lastPitch_snoc, hnone, Option.none_or]
    by_cases hbat : msg.msgid = mavlinkMsgIdBatteryStatus
    · have hzero : (mavlinkMsgBatteryStatusGetVoltages msg).get 0 = 0 := by
        by_contra hne
        exact hmsg ((passes_battery hbat).mpr hne)
      have hswitch : seedSwitch l msg =
          { l with voltages := mavlinkMsgBatteryStatusGetVoltages msg } := by
        simp [seedSwitch, hbat, attitude_ne_batteryStatus.symm, h.noVoltage, hzero]
      rw [hswitch]
      exact ⟨h.noPitch, h.noVoltage, hlast ▸ h.pitch⟩
    · have hswitch : seedSwitch l msg = l := by
        rw [seedSwitch, if_neg hatt, if_neg hbat]
      rw [hswitch]
      exact ⟨h.noPitch, h.noVoltage, hlast ▸ h.pitch⟩

/-- The message that ends the loop sets one flag; the other local stays. -/
theorem Waiting.ends (h : Waiting pitchspeed before l) (hmsg : PassesTest msg) :
    (msg.msgid = mavlinkMsgIdAttitude ∧ (seedSwitch l msg).gotPitchspeed = true) ∨
    (msg.msgid = mavlinkMsgIdBatteryStatus ∧ (seedSwitch l msg).gotVoltage = true ∧
      (seedSwitch l msg).pitchspeed = (lastPitch before).getD pitchspeed ∧
      (seedSwitch l msg).voltages = mavlinkMsgBatteryStatusGetVoltages msg) := by
  by_cases hatt : msg.msgid = mavlinkMsgIdAttitude
  · have habove := (passes_attitude hatt).mp hmsg
    left
    simp [seedSwitch, hatt, h.noPitch, habove]
  · have hbat : msg.msgid = mavlinkMsgIdBatteryStatus := by
      by_contra hbat
      simp [PassesTest, pitchOf, voltageOf, hatt, hbat] at hmsg
    have hne := (passes_battery hbat).mp hmsg
    right
    have hswitch : seedSwitch l msg =
        { l with voltages := mavlinkMsgBatteryStatusGetVoltages msg, gotVoltage := true } := by
      simp only [seedSwitch, if_neg hatt, if_pos hbat, h.noVoltage, Bool.not_false, if_true,
        if_pos hne]
    rw [hswitch]
    exact ⟨hbat, rfl, h.pitch, rfl⟩

end Steps

/-! ## The whole loop -/

theorem Waiting.loop {pitchspeed : UInt32} (conv : UInt32 → UInt32) (rest : List MavlinkMessage)
    (before : List MavlinkMessage) {waited : List MavlinkMessage} {l : SeedLocals}
    (h : Waiting pitchspeed waited l) (hwait : ∀ m ∈ before, ¬PassesTest m) :
    ∃ l', Waiting pitchspeed (waited ++ before) l' ∧
      seedLoop conv l (before ++ rest) =
        (seedLoop conv l' rest).map fun r => (r.1 + before.length, r.2) := by
  induction before generalizing waited l with
  | nil =>
      refine ⟨l, by rwa [List.append_nil], ?_⟩
      simp
  | cons msg before ih =>
      have hnext := h.wait (hwait msg List.mem_cons_self)
      obtain ⟨l', hl', hloop⟩ := ih hnext fun m hm => hwait m (List.mem_cons_of_mem _ hm)
      refine ⟨l', by rwa [List.append_assoc] at hl', ?_⟩
      rw [List.cons_append, seedLoop]
      simp only [hnext.noPitch, hnext.noVoltage, Bool.not_false, Bool.and_self, if_true]
      rw [hloop, Option.map_map]
      congr 1

theorem waiting_init (pitchspeed : UInt32) (voltages : List.Vector UInt16 10) :
    Waiting pitchspeed [] ⟨pitchspeed, voltages, false, false⟩ := ⟨rfl, rfl, rfl⟩

/-- The first message that passes ends the loop. -/
theorem seedFromUav_ends (conv : UInt32 → UInt32) (pitchspeed : UInt32)
    (voltages : List.Vector UInt16 10) {before : List MavlinkMessage} {msg : MavlinkMessage}
    (after : List MavlinkMessage) (hwait : ∀ m ∈ before, ¬PassesTest m) (hmsg : PassesTest msg) :
    ∃ l, Waiting pitchspeed before l ∧
      seedFromUav conv pitchspeed voltages (before ++ msg :: after) =
        some (before.length + 1, (seedSwitch l msg).seed conv) := by
  obtain ⟨l, hl, hloop⟩ :=
    (waiting_init pitchspeed voltages).loop conv (msg :: after) before hwait
  refine ⟨l, hl, ?_⟩
  rw [seedFromUav, hloop, seedLoop]
  rcases hl.ends hmsg with ⟨-, hgot⟩ | ⟨-, hgot, -⟩
  · simp [hgot, Nat.add_comm]
  · simp [hgot, Nat.add_comm]

theorem seedFromUav_waits (conv : UInt32 → UInt32) (pitchspeed : UInt32)
    (voltages : List.Vector UInt16 10) {msgs : List MavlinkMessage}
    (hwait : ∀ m ∈ msgs, ¬PassesTest m) : seedFromUav conv pitchspeed voltages msgs = none := by
  obtain ⟨l, -, hloop⟩ := (waiting_init pitchspeed voltages).loop conv [] msgs hwait
  rw [List.append_nil] at hloop
  rw [seedFromUav, hloop]
  rfl

/-- Either nothing has passed, or there is a first message that does. -/
theorem first_passing (msgs : List MavlinkMessage) :
    (∀ m ∈ msgs, ¬PassesTest m) ∨ ∃ before msg after,
      msgs = before ++ msg :: after ∧ (∀ m ∈ before, ¬PassesTest m) ∧ PassesTest msg := by
  classical
  cases hfind : msgs.find? (fun m => PassesTest m) with
  | none =>
      left
      simpa using hfind
  | some msg =>
      right
      obtain ⟨hpass, before, after, heq, hbefore⟩ := List.find?_eq_some_iff_append.mp hfind
      exact ⟨before, msg, after, heq, by simpa using hbefore, by simpa using hpass⟩

theorem firstVoltage_none {before : List MavlinkMessage} (hwait : ∀ m ∈ before, ¬PassesTest m) :
    firstVoltage before = none := by
  rw [firstVoltage, List.find?_eq_none]
  intro v hv
  obtain ⟨m, hm, hvm⟩ := List.mem_filterMap.mp hv
  simp only [decide_eq_true_eq]
  intro hne
  exact hwait m hm (Or.inr ⟨v, hvm, hne⟩)

theorem firstVoltage_snoc {before : List MavlinkMessage} (hwait : ∀ m ∈ before, ¬PassesTest m)
    (msg : MavlinkMessage) :
    firstVoltage (before ++ [msg]) = (voltageOf msg).filter (· ≠ 0) := by
  have hnone := firstVoltage_none hwait
  rw [firstVoltage] at hnone
  rw [firstVoltage, List.filterMap_append, List.find?_append, hnone, Option.none_or]
  cases hv : voltageOf msg with
  | none => simp [hv]
  | some v => by_cases hzero : v = 0 <;> simp [hv, hzero, Option.filter]

/-- A voltage ends the loop: the pitch speed is the last one, or the one that
was on the stack. -/
theorem seedFromUav_battery (conv : UInt32 → UInt32) (pitchspeed : UInt32)
    (voltages : List.Vector UInt16 10) {before : List MavlinkMessage} {msg : MavlinkMessage}
    (after : List MavlinkMessage) (hwait : ∀ m ∈ before, ¬PassesTest m) (hmsg : PassesTest msg)
    (hbat : msg.msgid = mavlinkMsgIdBatteryStatus) :
    ∃ v : UInt16, v ≠ 0 ∧ firstVoltage (before ++ [msg]) = some v ∧
      seedFromUav conv pitchspeed voltages (before ++ msg :: after) =
        some (before.length + 1, conv ((lastPitch before).getD pitchspeed) * v.toUInt32) := by
  have hne := (passes_battery hbat).mp hmsg
  obtain ⟨l, hl, hseed⟩ := seedFromUav_ends conv pitchspeed voltages after hwait hmsg
  refine ⟨(mavlinkMsgBatteryStatusGetVoltages msg).get 0, hne, ?_, ?_⟩
  · rw [firstVoltage_snoc hwait, voltageOf, if_pos hbat, Option.filter, if_pos (by simpa using hne)]
  · rcases hl.ends hmsg with ⟨hatt, -⟩ | ⟨-, -, hpitch, hvoltages⟩
    · exact absurd (hatt.symm.trans hbat) attitude_ne_batteryStatus
    · rw [hseed, SeedLocals.seed, hpitch, hvoltages]

theorem firstPitch_snoc {before : List MavlinkMessage} {msg : MavlinkMessage}
    (h : msg.msgid = mavlinkMsgIdBatteryStatus) :
    firstPitch (before ++ [msg]) = firstPitch before := by
  have hnone : pitchOf msg = none := by
    rw [pitchOf, h, if_neg attitude_ne_batteryStatus.symm]
  rw [firstPitch, List.filterMap_append]
  simp [hnone, firstPitch]

theorem lastPitch_isSome {msgs : List MavlinkMessage} {p : UInt32} (h : firstPitch msgs = some p) :
    ∃ q, lastPitch msgs = some q := by
  have hmem := List.mem_of_find?_eq_some h
  exact ⟨_, List.getLast?_eq_getLast_of_ne_nil (List.ne_nil_of_mem hmem)⟩

theorem take_succ_append (before : List MavlinkMessage) (msg : MavlinkMessage)
    (after : List MavlinkMessage) :
    (before ++ msg :: after).take (before.length + 1) = before ++ [msg] := by
  rw [List.take_append, List.take_of_length_le (by omega)]
  simp

theorem toUInt32_ne_zero {v : UInt16} (h : v ≠ 0) : v.toUInt32 ≠ 0 := by
  intro hzero
  apply h
  rw [← UInt16.toNat_inj]
  simpa using congrArg UInt32.toNat hzero

/-- **The seed uses both measurements exactly when** no message ends the loop,
or a BATTERY_STATUS ends it and the last pitch speed before it, too small to
pass, is the first that is not zero. -/
theorem seed_uses_both_exactly (msgs : List MavlinkMessage) :
    SeedUsesBoth msgs ↔ PitchLeft msgs := by
  constructor
  · rintro h before msg after rfl hwait hmsg
    obtain ⟨l, -, hseed⟩ := seedFromUav_ends (fun _ => 0) 0 (List.Vector.replicate 10 0) after
      hwait hmsg
    obtain ⟨p, v, hp, hv, -⟩ := h _ _ _ _ _ hseed
    rw [take_succ_append] at hp hv
    have hbat : msg.msgid = mavlinkMsgIdBatteryStatus := by
      by_contra hne
      rw [firstVoltage_snoc hwait, voltageOf, if_neg hne] at hv
      cases hv
    rw [firstPitch_snoc hbat] at hp
    refine ⟨hbat, p, hp, ?_⟩
    obtain ⟨q, hq⟩ := lastPitch_isSome hp
    -- a conversion that tells `p` from every other pitch speed
    obtain ⟨w, hw, hvoltage, hends⟩ := seedFromUav_battery (fun x => if x = p then 1 else 0) 0
      (List.Vector.replicate 10 0) after hwait hmsg hbat
    obtain ⟨p', v', hp', hv', hprod⟩ := h _ _ _ _ _ hends
    rw [take_succ_append, firstPitch_snoc hbat, hp] at hp'
    rw [take_succ_append, hvoltage] at hv'
    cases hp'
    cases hv'
    by_contra hne
    rw [hq] at hne hprod
    have hqp : q ≠ p := fun heq => hne (congrArg some heq)
    simp only [Option.getD_some, if_neg hqp, if_true, UInt32.zero_mul, UInt32.one_mul] at hprod
    exact toUInt32_ne_zero hw hprod.symm
  · rintro h conv pitchspeed voltages n seed hseed
    rcases first_passing msgs with hwait | ⟨before, msg, after, rfl, hwait, hmsg⟩
    · rw [seedFromUav_waits conv pitchspeed voltages hwait] at hseed
      cases hseed
    · obtain ⟨hbat, p, hp, hlast⟩ := h before msg after rfl hwait hmsg
      obtain ⟨v, -, hvoltage, hends⟩ :=
        seedFromUav_battery conv pitchspeed voltages after hwait hmsg hbat
      rw [hends, hlast] at hseed
      cases hseed
      rw [take_succ_append, firstPitch_snoc hbat]
      exact ⟨p, v, hp, hvoltage, rfl⟩

/-- The entry of BATTERY_STATUS in `MAVLINK_MESSAGE_CRCS`. -/
def batteryTable : MavlinkMsgTable := fun msgid =>
  if msgid = mavlinkMsgIdBatteryStatus then some ⟨154, 54⟩ else none

/-- The header and the payload of a BATTERY_STATUS with a first voltage of one. -/
def batteryChecked : List UInt8 :=
  [36, 0, 1, 1, 147] ++ List.replicate 10 0 ++ [1] ++ List.replicate 25 0

def batteryBytes : List UInt8 :=
  mavlinkStxMavlink1 :: batteryChecked ++
    checksumBytes (crcAccumulateBuffer crcInit (batteryChecked ++ [154]))

/-- What `read_message` returns when those bytes arrive. -/
def batteryOnly : List MavlinkMessage := okFrames batteryTable (.init, .zero) batteryBytes

theorem seed_from_stack :
    seedFromUav id 5 (List.Vector.replicate 10 0) batteryOnly = some (1, 5) ∧
    seedFromUav id 7 (List.Vector.replicate 10 0) batteryOnly = some (1, 7) ∧
    ¬SeedUsesBoth batteryOnly := by
  refine ⟨by decide +kernel, by decide +kernel, fun h => ?_⟩
  obtain ⟨p, v, hp, -⟩ := h id 5 (List.Vector.replicate 10 0) 1 5 (by decide +kernel)
  have hnone : firstPitch (batteryOnly.take 1) = none := by decide +kernel
  rw [hnone] at hp
  cases hp

end GecRelay
