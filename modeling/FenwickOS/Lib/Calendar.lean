import Mathlib.Algebra.GroupWithZero.Nat
import Mathlib.Data.Nat.Init
import Mathlib.Logic.Function.Iterate

/-! Clocks that count seconds, minutes, hours and days, under any rule for leap years. -/
namespace Machine

structure CalendarTime where
  second : Nat
  minute : Nat
  hour : Nat
  day : Nat
  month : Nat
  year : Nat
  century : Nat
  deriving DecidableEq

namespace CalendarTime

variable {leap : Nat → Nat → Bool} {t : CalendarTime}

/-- `leap` decides about a year of a century. -/
def monthDays (leap : Nat → Nat → Bool) (t : CalendarTime) : Nat :=
  if t.month = 2 then (if leap t.century t.year then 29 else 28)
  else if t.month = 4 ∨ t.month = 6 ∨ t.month = 9 ∨ t.month = 11 then 30
  else 31

structure Valid (leap : Nat → Nat → Bool) (t : CalendarTime) : Prop where
  second : t.second < 60
  minute : t.minute < 60
  hour : t.hour < 24
  day_pos : 1 ≤ t.day
  day : t.day ≤ t.monthDays leap
  month_pos : 1 ≤ t.month
  month : t.month ≤ 12
  year : t.year < 100
  century : t.century < 100

def nextYear (t : CalendarTime) : CalendarTime :=
  if t.year + 1 < 100 then { t with year := t.year + 1 }
  else { t with year := 0, century := (t.century + 1) % 100 }

def nextMonth (t : CalendarTime) : CalendarTime :=
  if t.month + 1 ≤ 12 then { t with month := t.month + 1 } else nextYear { t with month := 1 }

def nextDay (leap : Nat → Nat → Bool) (t : CalendarTime) : CalendarTime :=
  if t.day + 1 ≤ t.monthDays leap then { t with day := t.day + 1 } else nextMonth { t with day := 1 }

def nextHour (leap : Nat → Nat → Bool) (t : CalendarTime) : CalendarTime :=
  if t.hour + 1 < 24 then { t with hour := t.hour + 1 } else nextDay leap { t with hour := 0 }

def nextMinute (leap : Nat → Nat → Bool) (t : CalendarTime) : CalendarTime :=
  if t.minute + 1 < 60 then { t with minute := t.minute + 1 }
  else nextHour leap { t with minute := 0 }

def tick (leap : Nat → Nat → Bool) (t : CalendarTime) : CalendarTime :=
  if t.second + 1 < 60 then { t with second := t.second + 1 }
  else nextMinute leap { t with second := 0 }

/-- The fields that a clock carries into. -/
inductive Field
  | minute | hour | day | month | year | century
  deriving DecidableEq

def value (t : CalendarTime) : Field → Nat
  | .minute => t.minute
  | .hour => t.hour
  | .day => t.day
  | .month => t.month
  | .year => t.year
  | .century => t.century

theorem one_le_monthDays (t : CalendarTime) : 1 ≤ t.monthDays leap := by
  unfold monthDays
  repeat' split
  all_goals decide

theorem monthDays_le (t : CalendarTime) : t.monthDays leap ≤ 31 := by
  unfold monthDays
  repeat' split
  all_goals decide

/-! ### A tick keeps the date valid -/

theorem valid_nextYear (h : t.Valid leap) (hday : t.day = 1) : t.nextYear.Valid leap := by
  have hfirst (u : CalendarTime) : t.day ≤ u.monthDays leap := hday ▸ one_le_monthDays u
  unfold nextYear
  split
  · rename_i hyear
    exact { h with day := hfirst _, year := hyear }
  · exact { h with
      day := hfirst _
      year := show 0 < 100 by decide
      century := Nat.mod_lt _ (by decide) }

theorem valid_nextMonth (h : t.Valid leap) (hday : t.day = 1) : t.nextMonth.Valid leap := by
  have hfirst (u : CalendarTime) : t.day ≤ u.monthDays leap := hday ▸ one_le_monthDays u
  unfold nextMonth
  split
  · rename_i hmonth
    exact { h with day := hfirst _, month_pos := Nat.succ_pos _, month := hmonth }
  · refine valid_nextYear { h with day := hfirst _, month_pos := ?_, month := ?_ } hday
    · exact Nat.le_refl 1
    · exact Nat.succ_le_succ (Nat.zero_le 11)

theorem valid_nextDay (h : t.Valid leap) : (t.nextDay leap).Valid leap := by
  unfold nextDay
  split
  · rename_i hday
    exact { h with day_pos := Nat.succ_pos _, day := hday }
  · exact valid_nextMonth { h with day_pos := Nat.le_refl 1, day := one_le_monthDays _ } rfl

theorem valid_nextHour (h : t.Valid leap) : (t.nextHour leap).Valid leap := by
  unfold nextHour
  split
  · rename_i hhour
    exact { h with hour := hhour }
  · exact valid_nextDay { h with hour := Nat.succ_pos 23 }

theorem valid_nextMinute (h : t.Valid leap) : (t.nextMinute leap).Valid leap := by
  unfold nextMinute
  split
  · rename_i hminute
    exact { h with minute := hminute }
  · exact valid_nextHour { h with minute := Nat.succ_pos 59 }

theorem valid_tick (h : t.Valid leap) : (t.tick leap).Valid leap := by
  unfold tick
  split
  · rename_i hsecond
    exact { h with second := hsecond }
  · exact valid_nextMinute { h with second := Nat.succ_pos 59 }

/-! ### What a tick changes -/

theorem second_nextMinute (t : CalendarTime) : (t.nextMinute leap).second = t.second := by
  unfold nextMinute nextHour nextDay nextMonth nextYear
  repeat' split
  all_goals rfl

theorem second_tick (h : t.second < 60) : (t.tick leap).second = (t.second + 1) % 60 := by
  unfold tick
  split
  · rename_i hroom
    exact (Nat.mod_eq_of_lt hroom).symm
  · rw [second_nextMinute]
    dsimp only
    omega

/-- Nothing is carried unless a minute ends. -/
theorem value_tick (h : t.second + 1 < 60) (field : Field) :
    (t.tick leap).value field = t.value field := by
  rw [tick, if_pos h]
  rfl

theorem value_lt (h : t.Valid leap) (field : Field) : t.value field < 100 := by
  have hdays : t.monthDays leap ≤ 31 := monthDays_le t
  obtain ⟨_, hminute, hhour, _, hday, _, hmonth, hyear, hcentury⟩ := h
  cases field <;> dsimp only [value] <;> omega

end CalendarTime

/-- A clock that shows a date of the calendar. -/
def Clock (leap : Nat → Nat → Bool) : Type := { t : CalendarTime // t.Valid leap }

namespace Clock
open CalendarTime

variable {leap : Nat → Nat → Bool} {a b k n : Nat}

def tick (c : Clock leap) : Clock leap := ⟨c.val.tick leap, valid_tick c.property⟩

def after (c : Clock leap) (n : Nat) : CalendarTime := (tick^[n] c).val

/-- The tick after `n` seconds carries into the field. -/
def Carries (c : Clock leap) (field : Field) (n : Nat) : Prop :=
  (c.after (n + 1)).value field ≠ (c.after n).value field

theorem valid_after (c : Clock leap) (n : Nat) : (c.after n).Valid leap := (tick^[n] c).property

theorem after_succ (c : Clock leap) (n : Nat) : c.after (n + 1) = (c.after n).tick leap :=
  congrArg Subtype.val (Function.iterate_succ_apply' tick n c)

theorem second_after (c : Clock leap) (n : Nat) :
    (c.after n).second = (c.val.second + n) % 60 := by
  induction n with
  | zero => exact (Nat.mod_eq_of_lt c.property.second).symm
  | succ n ih =>
    rw [after_succ, second_tick (c.valid_after n).second, ih]
    omega

theorem second_of_carries {c : Clock leap} {field : Field} (h : c.Carries field n) :
    (c.val.second + n) % 60 = 59 := by
  by_contra hne
  have hroom : (c.after n).second + 1 < 60 := by
    rw [second_after]
    omega
  apply h
  rw [after_succ]
  exact value_tick hroom field

theorem value_after_of_not_carries {c : Clock leap} {field : Field} (hab : a ≤ b)
    (h : ∀ k, a ≤ k → k < b → ¬ c.Carries field k) :
    (c.after b).value field = (c.after a).value field := by
  induction b, hab using Nat.le_induction with
  | base => rfl
  | succ b hab ih =>
    have hlast := not_not.mp (h b hab (Nat.lt_succ_self b))
    exact hlast.trans (ih fun k hak hkb => h k hak (Nat.lt_succ_of_lt hkb))

/-- Within a minute a field changes exactly if something is carried into it. -/
theorem value_after_iff (c : Clock leap) (field : Field) (hab : a ≤ b) (hmin : b < a + 60) :
    (c.after b).value field = (c.after a).value field ↔
      ∀ k, a ≤ k → k < b → ¬ c.Carries field k := by
  refine ⟨?_, value_after_of_not_carries hab⟩
  intro heq k hak hkb hcarry
  have hk := second_of_carries hcarry
  -- a second carry would end another minute
  have others (j : Nat) (hj : j ≠ k) (haj : a ≤ j) (hjb : j < b) : ¬ c.Carries field j := by
    intro hj'
    have := second_of_carries hj'
    omega
  have hbefore := value_after_of_not_carries hak
    fun j haj hjk => others j (Nat.ne_of_lt hjk) haj (by omega)
  have hafter := value_after_of_not_carries hkb
    fun j hkj hjb => others j (Nat.ne_of_gt hkj) (by omega) hjb
  exact hcarry (hafter.symm.trans (heq.trans hbefore.symm))

end Clock
end Machine
