import FenwickOS.Drv.Devices
import FenwickOS.Lib.Calendar
import Mathlib.Order.Monotone.Basic

/-! The clock readers of kernel/rtc/rtc.c and kernel/drv/drv_rtc.c on a clock that runs on while
they read. -/
namespace FenwickOS.Rtc
open Machine Drv

def rtcBcdToBin (val : Byte) : Byte := (val >>> 4) * 10#8 + (val &&& 0x0F#8)

/-- `struct rtc_time`, which has a field more than the driver's. -/
structure RtcTimeWeekday extends RtcTime where
  weekday : Byte

def rtcGetTime (s : Cmos) : RtcTimeWeekday × Cmos :=
  let (second, s) := cmosRead 0x00#8 s
  let (minute, s) := cmosRead 0x02#8 s
  let (hour, s) := cmosRead 0x04#8 s
  let (day, s) := cmosRead 0x07#8 s
  let (month, s) := cmosRead 0x08#8 s
  let (year, s) := cmosRead 0x09#8 s
  let (century, s) := cmosRead 0x32#8 s
  let (statusB, s) := cmosRead 0x0B#8 s
  let t : RtcTime := ⟨second, minute, hour, day, month, year, century⟩
  let t :=
    if statusB &&& 0x04#8 = 0#8 then
      { second := rtcBcdToBin t.second
        minute := rtcBcdToBin t.minute
        hour := rtcBcdToBin (t.hour &&& 0x7F#8)
        day := rtcBcdToBin t.day
        month := rtcBcdToBin t.month
        year := rtcBcdToBin t.year
        century := rtcBcdToBin t.century : RtcTime }
    else t
  let t :=
    if statusB &&& 0x02#8 = 0#8 ∧ t.hour &&& 0x80#8 ≠ 0#8 then
      { t with hour := ((t.hour &&& 0x7F#8) + 12#8) % 24#8 }
    else t
  ({ t with weekday := 0#8 }, s)

/-! ### The clock while it is read -/

/-- The seconds that have passed at the `k`-th read when `advances j` of them pass just before the
`j`-th. -/
def elapsed (advances : Nat → Nat) : Nat → Nat
  | 0 => advances 0
  | k + 1 => elapsed advances k + advances (k + 1)

def registers (t : CalendarTime) : RtcTime where
  second := BitVec.ofNat 8 t.second
  minute := BitVec.ofNat 8 t.minute
  hour := BitVec.ofNat 8 t.hour
  day := BitVec.ofNat 8 t.day
  month := BitVec.ofNat 8 t.month
  year := BitVec.ofNat 8 t.year
  century := BitVec.ofNat 8 t.century

/-- The chip during a call: the clock in 24-hour binary mode, which runs on between the reads;
`other` is what the registers that are no part of the date hold. -/
def runningCmos {leap : Nat → Nat → Bool} (clock : Clock leap) (advances : Nat → Nat)
    (other : Nat → Byte → Byte) : Cmos where
  cmos k reg :=
    let t := registers (clock.after (elapsed advances k))
    if reg = 0x00#8 then t.second
    else if reg = 0x02#8 then t.minute
    else if reg = 0x04#8 then t.hour
    else if reg = 0x07#8 then t.day
    else if reg = 0x08#8 then t.month
    else if reg = 0x09#8 then t.year
    else if reg = 0x32#8 then t.century
    else if reg = 0x0B#8 then other k reg ||| 0x06#8
    else other k reg
  reads := 0
  written := []

/-- The number of a field's read in either function, the seconds being read first. -/
def readNumber : CalendarTime.Field → Nat
  | .minute => 1
  | .hour => 2
  | .day => 3
  | .month => 4
  | .year => 5
  | .century => 6

variable {leap : Nat → Nat → Bool} {advances : Nat → Nat} {last j k : Nat}

/-- What a call puts together: each field as the clock showed it at its own read. -/
def assembled (clock : Clock leap) (advances : Nat → Nat) : RtcTime where
  second := BitVec.ofNat 8 (clock.after (elapsed advances 0)).second
  minute := BitVec.ofNat 8 (clock.after (elapsed advances 1)).minute
  hour := BitVec.ofNat 8 (clock.after (elapsed advances 2)).hour
  day := BitVec.ofNat 8 (clock.after (elapsed advances 3)).day
  month := BitVec.ofNat 8 (clock.after (elapsed advances 4)).month
  year := BitVec.ofNat 8 (clock.after (elapsed advances 5)).year
  century := BitVec.ofNat 8 (clock.after (elapsed advances 6)).century

/-- The time is the clock's at some moment between the first read and the `last`. -/
def NotTorn (clock : Clock leap) (advances : Nat → Nat) (last : Nat) (t : RtcTime) : Prop :=
  ∃ n, elapsed advances 0 ≤ n ∧ n ≤ elapsed advances last ∧ t = registers (clock.after n)

/-- Every field above the seconds has at its own read the value that it has whole minutes after the
first read, at a moment of the call. -/
def SameMinute (clock : Clock leap) (advances : Nat → Nat) (last : Nat) : Prop :=
  ∃ minutes, elapsed advances 0 + 60 * minutes ≤ elapsed advances last ∧
    ∀ field, (clock.after (elapsed advances (readNumber field))).value field =
      (clock.after (elapsed advances 0 + 60 * minutes)).value field

/-- Nothing is carried into a field between the first read and the field's own. -/
def NoCarry (clock : Clock leap) (advances : Nat → Nat) : Prop :=
  ∀ field k, elapsed advances 0 ≤ k → k < elapsed advances (readNumber field) →
    ¬ clock.Carries field k

theorem mode_bits (other : Byte) :
    (other ||| 0x06#8) &&& 0x04#8 ≠ 0#8 ∧ (other ||| 0x06#8) &&& 0x02#8 ≠ 0#8 := by
  revert other
  decide

theorem rtcGetTime_eq (clock : Clock leap) (advances : Nat → Nat) (other : Nat → Byte → Byte) :
    (rtcGetTime (runningCmos clock advances other)).1.toRtcTime = assembled clock advances := by
  obtain ⟨hbinary, h24⟩ := mode_bits (other 7 0x0B#8)
  simp [rtcGetTime, runningCmos, cmosRead, assembled, registers, hbinary, h24]

theorem rtcGetRaw_eq (clock : Clock leap) (advances : Nat → Nat) (other : Nat → Byte → Byte) :
    (rtcGetRaw (runningCmos clock advances other)).1 = assembled clock advances := by
  obtain ⟨hbinary, h24⟩ := mode_bits (other 8 0x0B#8)
  simp [rtcGetRaw, runningCmos, cmosRead, assembled, registers, hbinary, h24]

theorem ofNat_inj {a b : Nat} (ha : a < 100) (hb : b < 100) :
    BitVec.ofNat 8 a = BitVec.ofNat 8 b ↔ a = b := by
  rw [← BitVec.toNat_inj, BitVec.toNat_ofNat, BitVec.toNat_ofNat, Nat.mod_eq_of_lt (by omega),
    Nat.mod_eq_of_lt (by omega)]

theorem assembled_eq_iff (clock : Clock leap) (advances : Nat → Nat) (n : Nat) :
    assembled clock advances = registers (clock.after n) ↔
      (clock.after (elapsed advances 0)).second = (clock.after n).second ∧
      ∀ field, (clock.after (elapsed advances (readNumber field))).value field =
        (clock.after n).value field := by
  have hvalue (field : CalendarTime.Field) (k : Nat) : (clock.after k).value field < 100 :=
    CalendarTime.value_lt (clock.valid_after k) field
  have hsecond (k : Nat) : (clock.after k).second < 100 :=
    Nat.lt_trans (clock.valid_after k).second (by decide)
  constructor
  · intro h
    rw [assembled, registers, RtcTime.mk.injEq] at h
    obtain ⟨h0, h1, h2, h3, h4, h5, h6⟩ := h
    refine ⟨(ofNat_inj (hsecond _) (hsecond _)).mp h0, fun field => ?_⟩
    refine (ofNat_inj (hvalue field _) (hvalue field _)).mp ?_
    cases field <;> assumption
  · rintro ⟨h0, h⟩
    rw [assembled, registers, RtcTime.mk.injEq]
    exact ⟨congrArg _ h0, congrArg _ (h .minute), congrArg _ (h .hour), congrArg _ (h .day),
      congrArg _ (h .month), congrArg _ (h .year), congrArg _ (h .century)⟩

theorem elapsed_mono (advances : Nat → Nat) : Monotone (elapsed advances) :=
  monotone_nat_of_le_succ fun k => Nat.le_add_right _ (advances (k + 1))

/-- The seconds that were read recur every minute, so the other fields must fit one of those
moments. -/
theorem assembled_notTorn_iff (clock : Clock leap) (advances : Nat → Nat) (last : Nat) :
    NotTorn clock advances last (assembled clock advances) ↔ SameMinute clock advances last := by
  simp only [NotTorn, SameMinute, assembled_eq_iff]
  constructor
  · rintro ⟨n, hfirst, hlast, hsecond, hfields⟩
    rw [Clock.second_after, Clock.second_after] at hsecond
    have hn : n = elapsed advances 0 + 60 * ((n - elapsed advances 0) / 60) := by omega
    exact ⟨_, hn ▸ hlast, hn ▸ hfields⟩
  · rintro ⟨minutes, hlast, hfields⟩
    refine ⟨_, Nat.le_add_right _ _, hlast, ?_, hfields⟩
    rw [Clock.second_after, Clock.second_after]
    omega

/-- In a call that takes less than a minute the minute can only be that of the first read. -/
theorem sameMinute_iff_of_lt (clock : Clock leap) (advances : Nat → Nat)
    (hlast : 6 ≤ last) (hshort : elapsed advances last < elapsed advances 0 + 60) :
    SameMinute clock advances last ↔ NoCarry clock advances := by
  have hfield (field : CalendarTime.Field) :
      elapsed advances 0 ≤ elapsed advances (readNumber field) ∧
      elapsed advances (readNumber field) < elapsed advances 0 + 60 := by
    have hread : readNumber field ≤ last := by cases field <;> dsimp only [readNumber] <;> omega
    exact ⟨elapsed_mono advances (Nat.zero_le _),
      Nat.lt_of_le_of_lt (elapsed_mono advances hread) hshort⟩
  constructor
  · rintro ⟨minutes, hminutes, hfields⟩ field
    have hzero : minutes = 0 := by omega
    subst hzero
    exact (clock.value_after_iff field (hfield field).1 (hfield field).2).mp (hfields field)
  · intro h
    refine ⟨0, elapsed_mono advances (Nat.zero_le _), fun field => ?_⟩
    exact (clock.value_after_iff field (hfield field).1 (hfield field).2).mpr (h field)

/-- A read is torn exactly if no minute of the call fits all its fields; within a minute, if a carry
overtakes the reads. -/
theorem readers_notTorn_iff (clock : Clock leap) (advances : Nat → Nat)
    (other : Nat → Byte → Byte) :
    let time := (rtcGetTime (runningCmos clock advances other)).1.toRtcTime
    let raw := (rtcGetRaw (runningCmos clock advances other)).1
    (NotTorn clock advances 7 time ↔ SameMinute clock advances 7) ∧
    (NotTorn clock advances 8 raw ↔ SameMinute clock advances 8) ∧
    (elapsed advances 7 < elapsed advances 0 + 60 →
      (NotTorn clock advances 7 time ↔ NoCarry clock advances)) ∧
    (elapsed advances 8 < elapsed advances 0 + 60 →
      (NotTorn clock advances 8 raw ↔ NoCarry clock advances)) := by
  intro time raw
  have htime : time = assembled clock advances := rtcGetTime_eq clock advances other
  have hraw : raw = assembled clock advances := rtcGetRaw_eq clock advances other
  rw [htime, hraw]
  have hiff := assembled_notTorn_iff clock advances
  exact ⟨hiff 7, hiff 8,
    fun hshort => (hiff 7).trans (sameMinute_iff_of_lt clock advances (by decide) hshort),
    fun hshort => (hiff 8).trans (sameMinute_iff_of_lt clock advances (by decide) hshort)⟩

def beforeMinute : Clock fun _ _ => false := ⟨⟨59, 0, 0, 1, 1, 0, 20⟩, by constructor <;> decide⟩

/-- One second passes between the reads of the seconds and of the minutes. -/
def advanceOnce (k : Nat) : Nat := if k = 1 then 1 else 0

theorem torn_minute :
    ¬ NotTorn beforeMinute advanceOnce 7
      (rtcGetTime (runningCmos beforeMinute advanceOnce fun _ _ => 0#8)).1.toRtcTime ∧
    ¬ NotTorn beforeMinute advanceOnce 8
      (rtcGetRaw (runningCmos beforeMinute advanceOnce fun _ _ => 0#8)).1 := by
  have hcarry : ¬ NoCarry beforeMinute advanceOnce := by
    intro h
    exact h .minute 0 (by decide) (by decide) (by unfold Clock.Carries; decide)
  rw [rtcGetTime_eq, rtcGetRaw_eq, assembled_notTorn_iff, assembled_notTorn_iff,
    sameMinute_iff_of_lt _ _ (by decide) (by decide), sameMinute_iff_of_lt _ _ (by decide) (by decide)]
  exact ⟨hcarry, hcarry⟩

end FenwickOS.Rtc
