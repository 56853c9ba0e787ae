import FenwickOS.Lib.Words
import Mathlib.Logic.Function.Basic

/-! The display, serial and clock drivers: kernel/drv/drv_vga.c, drv_serial.c and drv_rtc.c. -/
namespace FenwickOS.Drv
open Machine

/-! ### Display -/

def vgaWidth : Int := 80
def vgaHeight : Int := 25
def defaultColor : Byte := 0x0F#8

/-- `vgaBuffer i` is the byte at offset `i` from 0xB8000, which a cursor set by `ioctl` can put
outside the screen. -/
structure Vga where
  vgaBuffer : Int → Byte
  vgaCursorX : Int
  vgaCursorY : Int
  vgaColor : Byte

def vgaIndex (x y : Int) : Int := (y * vgaWidth + x) * 2

def vgaPutcAt (c color : Byte) (x y : Int) (s : Vga) : Vga :=
  { s with
    vgaBuffer :=
      Function.update (Function.update s.vgaBuffer (vgaIndex x y) c) (vgaIndex x y + 1) color }

/-- The loops move each row up by one, then blank the last. -/
def vgaScroll (s : Vga) : Vga :=
  if s.vgaCursorY < vgaHeight then s
  else
    { s with
      vgaBuffer := fun i =>
        if 0 ≤ i ∧ i < vgaIndex 0 (vgaHeight - 1) then s.vgaBuffer (i + vgaIndex 0 1)
        else if vgaIndex 0 (vgaHeight - 1) ≤ i ∧ i < vgaIndex 0 vgaHeight then
          if i % 2 = 0 then ascii ' ' else s.vgaColor
        else s.vgaBuffer i
      vgaCursorY := vgaHeight - 1 }

def vgaNewline (s : Vga) : Vga :=
  vgaScroll { s with vgaCursorX := 0, vgaCursorY := s.vgaCursorY + 1 }

def vgaPutGlyph (c : Byte) (s : Vga) : Vga :=
  let s := vgaPutcAt c s.vgaColor s.vgaCursorX s.vgaCursorY s
  let s := { s with vgaCursorX := s.vgaCursorX + 1 }
  if s.vgaCursorX ≥ vgaWidth then vgaNewline s else s

def vgaPutc (c : Byte) (s : Vga) : Vga :=
  if c = 0x0A#8 then vgaNewline s
  else if c = 0x0D#8 then { s with vgaCursorX := 0 }
  else if c = 0x09#8 then
    Nat.repeat (vgaPutGlyph (ascii ' ')) (4 - s.vgaCursorX.tmod 4).toNat s
  else if c = 0x08#8 then
    if s.vgaCursorX > 0 then
      let s := { s with vgaCursorX := s.vgaCursorX - 1 }
      vgaPutcAt (ascii ' ') s.vgaColor s.vgaCursorX s.vgaCursorY s
    else s
  else vgaPutGlyph c s

def vgaDriverInit (s : Vga) : Int × Vga :=
  (0, { vgaBuffer := fun i =>
          if 0 ≤ i ∧ i < vgaIndex 0 vgaHeight then
            if i % 2 = 0 then ascii ' ' else defaultColor
          else s.vgaBuffer i
        vgaCursorX := 0
        vgaCursorY := 0
        vgaColor := defaultColor })

/-- The C conversion of a length to `int`. -/
def toInt32 (len : Word) : Int := (len.setWidth 32).toInt

def vgaDriverWrite (buf : Option (Nat → Byte)) (len : Word) (s : Vga) : Int × Vga :=
  match buf with
  | none => (-1, s)
  | some buf => (toInt32 len, (List.range len.toNat).foldl (fun s i => vgaPutc (buf i) s) s)

def vgaDriverIoctl (cmd : BitVec 32) (arg : Word) (s : Vga) : Int × Vga :=
  if cmd = 0#32 then (0, { s with vgaColor := arg.setWidth 8 })
  else if cmd = 1#32 then (0, { s with vgaCursorX := toInt32 arg })
  else if cmd = 2#32 then (0, { s with vgaCursorY := toInt32 (arg >>> 32) })
  else if cmd = 3#32 then (0, { s with vgaCursorX := 0, vgaCursorY := 0 })
  else (-1, s)

/-! ### Serial line -/

def com1 : BitVec 16 := 0x3F8#16

/-- What has been written to the ports of the line; `serial_putc` first waits until it is ready. -/
structure Serial where
  io : List IoEvent

def serialPutc (c : Byte) (s : Serial) : Serial := ⟨s.io ++ [.outb com1 c]⟩

def serialDriverInit (s : Serial) : Int × Serial :=
  (0, ⟨s.io ++ [.outb (com1 + 1) 0x00#8, .outb (com1 + 3) 0x80#8, .outb (com1 + 0) 0x03#8,
    .outb (com1 + 1) 0x00#8, .outb (com1 + 3) 0x03#8, .outb (com1 + 2) 0xC7#8,
    .outb (com1 + 4) 0x0B#8]⟩)

def serialDriverWrite (buf : Option (Nat → Byte)) (len : Word) (s : Serial) : Int × Serial :=
  match buf with
  | none => (-1, s)
  | some buf => (toInt32 len, (List.range len.toNat).foldl (fun s i => serialPutc (buf i) s) s)

/-! ### Clock -/

/-- The clock chip: `cmos k reg` is what the `k`-th read finds in a register. -/
structure Cmos where
  cmos : Nat → Byte → Byte
  reads : Nat
  written : List (Byte × Byte)

def cmosWrite (reg val : Byte) (s : Cmos) : Cmos := { s with written := s.written ++ [(reg, val)] }

def cmosRead (reg : Byte) (s : Cmos) : Byte × Cmos :=
  (s.cmos s.reads reg, { s with reads := s.reads + 1 })

structure RtcTime where
  second : Byte
  minute : Byte
  hour : Byte
  day : Byte
  month : Byte
  year : Byte
  century : Byte
  deriving DecidableEq

def bcdToBin (v : Byte) : Byte := (v >>> 4) * 10#8 + (v &&& 0x0F#8)

def rtcGetRaw (s : Cmos) : RtcTime × Cmos :=
  let (second, s) := cmosRead 0x00#8 s
  let (minute, s) := cmosRead 0x02#8 s
  let (hour, s) := cmosRead 0x04#8 s
  let (day, s) := cmosRead 0x07#8 s
  let (month, s) := cmosRead 0x08#8 s
  let (year, s) := cmosRead 0x09#8 s
  let (century, s) := cmosRead 0x32#8 s
  let (_, s) := cmosRead 0x0C#8 s
  let (sb, s) := cmosRead 0x0B#8 s
  let t : RtcTime := ⟨second, minute, hour, day, month, year, century⟩
  let t :=
    if sb &&& 0x04#8 = 0#8 then
      { second := bcdToBin t.second
        minute := bcdToBin t.minute
        hour := bcdToBin (t.hour &&& 0x7F#8)
        day := bcdToBin t.day
        month := bcdToBin t.month
        year := bcdToBin t.year
        century := bcdToBin t.century : RtcTime }
    else t
  let t :=
    if sb &&& 0x02#8 = 0#8 ∧ t.hour &&& 0x80#8 ≠ 0#8 then
      { t with hour := ((t.hour &&& 0x7F#8) + 12#8) % 24#8 }
    else t
  (t, s)

def rtcDriverInit (s : Cmos) : Int × Cmos :=
  let (b, s) := cmosRead 0x0B#8 s
  let s := cmosWrite 0x0B#8 (b ||| 0x40#8) s
  let (_, s) := cmosRead 0x0C#8 s
  (0, s)

/-- `sizeof(rtc_time_t)` is seven bytes. -/
def rtcDriverRead (buf len : Word) (s : Cmos) : Int × List Byte × Cmos :=
  if buf = 0#64 ∨ len < 7#64 then (-1, [], s)
  else
    let (t, s) := rtcGetRaw s
    (7, [t.second, t.minute, t.hour, t.day, t.month, t.year, t.century], s)

def rtcDriverIoctl (cmd : BitVec 32) (s : Cmos) : Int × Cmos :=
  if cmd = 0#32 then (100, s) else (-1, s)

end FenwickOS.Drv
