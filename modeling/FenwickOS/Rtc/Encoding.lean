import FenwickOS.Rtc.Rtc

/-! What the clock readers make of each format in which the chip can keep the time. -/
namespace FenwickOS.Rtc
open Machine Drv

/-- Status B has a bit for binary fields and one for hours up to 23. -/
def binaryMode (statusB : Byte) : Bool := statusB &&& 0x04#8 != 0#8
def hours24 (statusB : Byte) : Bool := statusB &&& 0x02#8 != 0#8

structure Encodable (t : CalendarTime) : Prop where
  second : t.second < 60
  minute : t.minute < 60
  hour : t.hour < 24
  day_pos : 1 ≤ t.day
  day : t.day ≤ 31
  month_pos : 1 ≤ t.month
  month : t.month ≤ 12
  year : t.year < 100
  century : t.century < 100

/-- Two decimal digits. -/
def bcd (n : Nat) : Byte := BitVec.ofNat 8 (16 * (n / 10) + n % 10)

def encodeField (binary : Bool) (n : Nat) : Byte := if binary then BitVec.ofNat 8 n else bcd n

/-- The hour on a twelve-hour clock: midnight and noon are 12. -/
def hour12 (hour : Nat) : Nat := if hour % 12 = 0 then 12 else hour % 12

def encodeHour (binary h24 : Bool) (hour : Nat) : Byte :=
  if h24 then encodeField binary hour
  else encodeField binary (hour12 hour) ||| if 12 ≤ hour then 0x80#8 else 0#8

def encode (binary h24 : Bool) (t : CalendarTime) : RtcTime where
  second := encodeField binary t.second
  minute := encodeField binary t.minute
  hour := encodeHour binary h24 t.hour
  day := encodeField binary t.day
  month := encodeField binary t.month
  year := encodeField binary t.year
  century := encodeField binary t.century

/-- The registers keep these values through all reads. -/
structure Holds (statusB : Byte) (t : RtcTime) (s : Cmos) : Prop where
  second : ∀ k, s.cmos k 0x00#8 = t.second
  minute : ∀ k, s.cmos k 0x02#8 = t.minute
  hour : ∀ k, s.cmos k 0x04#8 = t.hour
  day : ∀ k, s.cmos k 0x07#8 = t.day
  month : ∀ k, s.cmos k 0x08#8 = t.month
  year : ∀ k, s.cmos k 0x09#8 = t.year
  century : ∀ k, s.cmos k 0x32#8 = t.century
  statusB : ∀ k, s.cmos k 0x0B#8 = statusB

/-- The hours that come out right: all of 24, and of 12 those that need no correction and get none,
or need twelve hours added and get them. -/
def HourDecodes (binary h24 : Bool) (hour : Nat) : Prop :=
  h24 = true ∨ (1 ≤ hour ∧ hour ≤ 11) ∨
    if binary then 13 ≤ hour else hour = 12

instance (binary h24 : Bool) (hour : Nat) : Decidable (HourDecodes binary h24 hour) := by
  unfold HourDecodes
  infer_instance

/-! ### What both functions do with the registers -/

def decodeField (binary : Bool) (v : Byte) : Byte := if binary then v else bcdToBin v

/-- A packed hour has lost its upper bit before that is looked at. -/
def decodeHour (binary h24 : Bool) (v : Byte) : Byte :=
  let hour := if binary then v else bcdToBin (v &&& 0x7F#8)
  if h24 = false ∧ hour &&& 0x80#8 ≠ 0#8 then ((hour &&& 0x7F#8) + 12#8) % 24#8 else hour

def decode (binary h24 : Bool) (t : RtcTime) : RtcTime where
  second := decodeField binary t.second
  minute := decodeField binary t.minute
  hour := decodeHour binary h24 t.hour
  day := decodeField binary t.day
  month := decodeField binary t.month
  year := decodeField binary t.year
  century := decodeField binary t.century

variable {binary h24 : Bool} {n hour : Nat} {statusB : Byte} {t : CalendarTime} {raw : RtcTime}
  {s : Cmos}

theorem decode_eq (statusB : Byte) (raw : RtcTime) :
    let t :=
      if statusB &&& 0x04#8 = 0#8 then
        { second := bcdToBin raw.second
          minute := bcdToBin raw.minute
          hour := bcdToBin (raw.hour &&& 0x7F#8)
          day := bcdToBin raw.day
          month := bcdToBin raw.month
          year := bcdToBin raw.year
          century := bcdToBin raw.century : RtcTime }
      else raw
    (if statusB &&& 0x02#8 = 0#8 ∧ t.hour &&& 0x80#8 ≠ 0#8 then
        { t with hour := ((t.hour &&& 0x7F#8) + 12#8) % 24#8 }
      else t) = decode (binaryMode statusB) (hours24 statusB) raw := by
  intro t
  have h24 : hours24 statusB = false ↔ statusB &&& 0x02#8 = 0#8 := bne_eq_false_iff_eq
  have hbinary : binaryMode statusB = true ↔ ¬ statusB &&& 0x04#8 = 0#8 := bne_iff_ne
  unfold decode decodeHour decodeField
  simp only [h24, hbinary]
  by_cases hpacked : statusB &&& 0x04#8 = 0#8
  · have ht : t = _ := if_pos hpacked
    simp only [ht, hpacked, not_true_eq_false, if_false]
    split <;> rfl
  · have ht : t = raw := if_neg hpacked
    simp only [ht, hpacked, not_false_eq_true, if_true]
    split <;> rfl

theorem rtcGetTime_holds (h : Holds statusB raw s) :
    (rtcGetTime s).1.toRtcTime = decode (binaryMode statusB) (hours24 statusB) raw := by
  obtain ⟨h0, h1, h2, h3, h4, h5, h6, hb⟩ := h
  simp only [rtcGetTime, cmosRead, h0, h1, h2, h3, h4, h5, h6, hb]
  exact decode_eq statusB raw

theorem rtcGetRaw_holds (h : Holds statusB raw s) :
    (rtcGetRaw s).1 = decode (binaryMode statusB) (hours24 statusB) raw := by
  obtain ⟨h0, h1, h2, h3, h4, h5, h6, hb⟩ := h
  simp only [rtcGetRaw, cmosRead, h0, h1, h2, h3, h4, h5, h6, hb]
  exact decode_eq statusB raw

/-! ### Decoding what has been encoded -/

theorem decodeField_encodeField (hn : n < 100) :
    decodeField binary (encodeField binary n) = BitVec.ofNat 8 n := by
  have hpacked : ∀ n < 100, bcdToBin (bcd n) = BitVec.ofNat 8 n := by decide
  cases binary with
  | false => exact hpacked n hn
  | true => rfl

theorem decodeHour_encodeHour (hhour : hour < 24) :
    decodeHour binary h24 (encodeHour binary h24 hour) = BitVec.ofNat 8 hour ↔
      HourDecodes binary h24 hour := by
  have hall : ∀ binary h24 : Bool, ∀ hour < 24,
      (decodeHour binary h24 (encodeHour binary h24 hour) = BitVec.ofNat 8 hour ↔
        HourDecodes binary h24 hour) := by
    decide
  exact hall binary h24 hour hhour

theorem decode_encode (ht : Encodable t) :
    decode binary h24 (encode binary h24 t) = registers t ↔ HourDecodes binary h24 t.hour := by
  obtain ⟨hsecond, hminute, hhour, -, hday, -, hmonth, hyear, hcentury⟩ := ht
  rw [← decodeHour_encodeHour hhour, decode, encode, registers, RtcTime.mk.injEq,
    decodeField_encodeField (by omega), decodeField_encodeField (by omega),
    decodeField_encodeField (by omega), decodeField_encodeField (by omega),
    decodeField_encodeField hyear, decodeField_encodeField hcentury]
  simp

/-- Both readers give the time that the registers hold exactly if its hour is one that they
decode. -/
theorem readers_decode_iff (ht : Encodable t) (statusB : Byte)
    (h : Holds statusB (encode (binaryMode statusB) (hours24 statusB) t) s) :
    ((rtcGetTime s).1.toRtcTime = registers t ↔
      HourDecodes (binaryMode statusB) (hours24 statusB) t.hour) ∧
    ((rtcGetRaw s).1 = registers t ↔
      HourDecodes (binaryMode statusB) (hours24 statusB) t.hour) := by
  rw [rtcGetTime_holds h, rtcGetRaw_holds h]
  exact ⟨decode_encode ht, decode_encode ht⟩

def heldCmos (statusB : Byte) (t : RtcTime) : Cmos where
  cmos _ reg :=
    if reg = 0x00#8 then t.second
    else if reg = 0x02#8 then t.minute
    else if reg = 0x04#8 then t.hour
    else if reg = 0x07#8 then t.day
    else if reg = 0x08#8 then t.month
    else if reg = 0x09#8 then t.year
    else if reg = 0x32#8 then t.century
    else if reg = 0x0B#8 then statusB
    else 0#8
  reads := 0
  written := []

theorem holds_heldCmos (statusB : Byte) (t : RtcTime) : Holds statusB t (heldCmos statusB t) := by
  constructor <;> intro k <;> rfl

/-- One in the afternoon of the first of January 2000. -/
def afternoon : CalendarTime := ⟨0, 0, 13, 1, 1, 0, 20⟩

theorem encodable_afternoon : Encodable afternoon := by
  constructor <;> decide

/-- In binary mode the afternoon is recognised on a twelve-hour clock. -/
theorem readers_decode_binary :
    (rtcGetTime (heldCmos 0x04#8 (encode true false afternoon))).1.toRtcTime =
        registers afternoon ∧
      (rtcGetRaw (heldCmos 0x04#8 (encode true false afternoon))).1 = registers afternoon := by
  have h := readers_decode_iff encodable_afternoon 0x04#8 (holds_heldCmos 0x04#8 _)
  exact ⟨h.1.mpr (by decide), h.2.mpr (by decide)⟩

/-- With packed fields it is taken for one in the morning. -/
theorem readers_not_decode_packed :
    (rtcGetTime (heldCmos 0x00#8 (encode false false afternoon))).1.toRtcTime ≠
        registers afternoon ∧
      (rtcGetRaw (heldCmos 0x00#8 (encode false false afternoon))).1 ≠ registers afternoon := by
  decide

end FenwickOS.Rtc
