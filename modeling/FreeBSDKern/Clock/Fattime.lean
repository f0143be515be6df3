import Mathlib

/-!
# FAT Timestamps

`timespec2fattime` packs a time into the date, the time and the hundredths of a
directory entry, and `fattime2timespec` unpacks them. Both count days in cycles of four
years, with a table of months each, and set the year 2100 right on their own.

The two are inverse to each other as long as the seconds of the day number fit into the
`unsigned` in which `fattime2timespec` multiplies, that is up to 2106-02-07. From the day
after on the time that comes back lies before 1980 (`fattime_roundtrip_iff`).

## Main definitions

* `timespec2fattime`, `fattime2timespec`: The two conversions.
* `WellFormed`: The fields of a stamp are those of a date and a time.

## Theorems

* `cycleDate_eq`, `fatDays_eq`: Packing and unpacking of one day of a cycle.
* `fattime_roundtrip_iff`: When what is packed is unpacked again, and the other way round.
-/

namespace FreeBSDKern.Clock

/-- `struct timespec`, with a `time_t` of 64 bits. -/
@[ext]
structure Timespec where
  tvSec : Int
  tvNsec : Int
deriving DecidableEq

/-- Date, time and hundredths. -/
@[ext]
structure Fattime where
  dd : Nat
  dt : Nat
  dh : Nat
deriving DecidableEq

/-- The conversion of a number to an unsigned type of `w` bits. -/
def toUnsigned (w : Nat) (x : Int) : Nat := (x % 2 ^ w).toNat

/-- The days of a cycle before each month, as `mtab` has them. -/
def mtabDays (m : Nat) : Nat :=
  [0, 31, 60, 91, 121, 152, 182, 213, 244, 274, 305, 335,
   366, 397, 425, 456, 486, 517, 547, 578, 609, 639, 670, 700,
   731, 762, 790, 821, 851, 882, 912, 943, 974, 1004, 1035, 1065,
   1096, 1127, 1155, 1186, 1216, 1247, 1277, 1308, 1339, 1369, 1400, 1430].getD m 1461

/-- `ENC`, of the year and the month that stand at `m` in `mtab`. -/
def mtabCoded (m : Nat) : Nat := (m / 12) <<< 9 ||| (m % 12 + 1) <<< 5

/-- The loop that finds the month, with the number of entries behind `m`. -/
def findMonth (t2 : Nat) : Nat → Nat
  | 0 => 47
  | k + 1 => if mtabDays (47 - k) ≤ t2 then findMonth t2 k else 47 - (k + 1)

/-- The date of a day since 1980, in cycles that all have a leap year. -/
def cycleDate (t2 : Nat) : Nat :=
  let l := t2 / 1461
  let t2 := t2 - l * 1461
  let m := findMonth t2 (47 - t2 / 32)
  toUnsigned 16 ((l * 4) <<< 9 + mtabCoded m : Nat) ||| toUnsigned 16 (t2 - (mtabDays m - 1 : Int))

/-- The day 2100-02-29 of the cycles, `(2100 - 1980) / 4 * LYC + FEB`. -/
def noLeap : Nat := 43889

def fatDate (t1 : Int) : Nat :=
  let t2 := toUnsigned 32 (t1.tdiv 86400)
  if t2 < 3652 then 0x0021
  else if noLeap ≤ t2 - 3652 then cycleDate (t2 - 3652 + 1) else cycleDate (t2 - 3652)

def fatTime (t1 : Int) : Nat :=
  toUnsigned 16 ((t1.tdiv 2).tmod 30) ||| toUnsigned 16 ((t1.tdiv 60).tmod 60 * 2 ^ 5) |||
    toUnsigned 16 ((t1.tdiv 3600).tmod 24 * 2 ^ 11)

/-- What `utc_offset` gives, unless the calendar is that of UTC. -/
def shift (off : Int) (utc : Bool) : Int := if utc then 0 else off

/-- All three parts are asked for. Each is found without the others. -/
def timespec2fattime (off : Int) (utc : Bool) (t : Timespec) : Fattime :=
  let t1 := t.tvSec - shift off utc
  ⟨fatDate t1, fatTime t1, toUnsigned 8 (t.tvSec % 2 * 100 + t.tvNsec.tdiv 10000000)⟩

def daytab (i : Nat) : Nat :=
  [0, 0, 31, 60, 91, 121, 152, 182, 213, 244, 274, 305, 335, 366, 0, 0,
   0, 366, 397, 425, 456, 486, 517, 547, 578, 609, 639, 670, 700, 731, 0, 0,
   0, 731, 762, 790, 821, 851, 882, 912, 943, 974, 1004, 1035, 1065, 1096, 0, 0,
   0, 1096, 1127, 1155, 1186, 1216, 1247, 1277, 1308, 1339, 1369, 1400, 1430, 1461, 0, 0].getD i 0

/-- The day since 1970 of a date. -/
def fatDays (dd : Nat) : Nat :=
  let day := toUnsigned 32 ((dd &&& 0x1f : Nat) - (1 : Int) +
    (1461 * (dd >>> 11 &&& 0x1f) + daytab (dd >>> 5 &&& 0x3f) : Nat))
  toUnsigned 32 ((if noLeap ≤ day then day - 1 else day) + 3652 : Nat)

/-- The product of the day with `DAY` is one of `unsigned`. -/
def fattime2timespec (off : Int) (utc : Bool) (x : Fattime) : Timespec :=
  ⟨((x.dt &&& 0x1f) <<< 1 + ((x.dt &&& 0x7e0) >>> 5) * 60 + ((x.dt &&& 0xf800) >>> 11) * 3600 +
    x.dh / 100 + toUnsigned 32 (86400 * fatDays x.dd : Nat) : Nat) + shift off utc,
   (x.dh % 100 * 10000000 : Nat)⟩

section Calendar

def leapyear (y : Nat) : Bool := y % 4 = 0 ∧ (y % 100 ≠ 0 ∨ y % 400 = 0)

def daysInMonth (y m : Nat) : Nat :=
  if m = 2 then if leapyear y then 29 else 28
  else if m ∈ [4, 6, 9, 11] then 30 else 31

/-- The stamp is that of a date from 1980 to 2107 and of a time on it. -/
structure WellFormed (x : Fattime) : Prop where
  year : x.dd / 512 < 128
  month : 1 ≤ x.dd / 32 % 16 ∧ x.dd / 32 % 16 ≤ 12
  day : 1 ≤ x.dd % 32 ∧ x.dd % 32 ≤ daysInMonth (1980 + x.dd / 512) (x.dd / 32 % 16)
  hour : x.dt / 2048 < 24
  minute : x.dt / 32 % 64 < 60
  second : x.dt % 32 < 30
  hundredths : x.dh < 200

/-- The seconds of the days from 1980-01-01 to 2107-12-31. -/
def InRange (t1 : Int) : Prop := 3652 * 86400 ≤ t1 ∧ t1 < 50403 * 86400

example : ((List.range 138).map fun y => if leapyear (1970 + y) then 366 else 365).sum =
    50403 := by decide +kernel

end Calendar

section Bits

theorem toUnsigned_natCast {w n : Nat} (h : n < 2 ^ w) : toUnsigned w n = n := by
  rw [toUnsigned, show (2 : Int) ^ w = ((2 ^ w : Nat) : Int) by push_cast; rfl,
    ← Int.natCast_emod, Int.toNat_natCast, Nat.mod_eq_of_lt h]

theorem mul_or {i a b : Nat} (h : b < 2 ^ i) : 2 ^ i * a ||| b = 2 ^ i * a + b :=
  (Nat.two_pow_add_eq_or_of_lt h a).symm

theorem and_low (x k : Nat) : x &&& (2 ^ k - 1) = x % 2 ^ k :=
  Nat.and_two_pow_sub_one_eq_mod x k

theorem and_shift (x i k : Nat) : (x &&& ((2 ^ k - 1) <<< i)) >>> i = x / 2 ^ i % 2 ^ k := by
  rw [Nat.shiftRight_and_distrib, Nat.shiftLeft_shiftRight, and_low, Nat.shiftRight_eq_div_pow]

end Bits

section Cycle

theorem mtabCoded_eq : ∀ m < 48, mtabCoded m = m / 12 * 512 + (m % 12 + 1) * 32 := by decide

theorem daytab_coded : ∀ m < 48, daytab (m / 12 * 16 + m % 12 + 1) = mtabDays m := by decide

theorem mtabDays_step : ∀ m < 48, mtabDays m < mtabDays (m + 1) ∧
    mtabDays (m + 1) ≤ mtabDays m + 31 ∧ mtabDays (m + 1) ≤ 1461 := by decide

theorem mtabDays_mono {m n : Nat} (h : m ≤ n) (hn : n ≤ 48) : mtabDays m ≤ mtabDays n := by
  induction n, h using Nat.le_induction with
  | base => exact le_rfl
  | succ n _ ih => exact (ih (by omega)).trans (mtabDays_step n (by omega)).1.le

/-- The loop goes up to the month of the day from every entry before it. -/
theorem findMonth_of_le {r m : Nat} (hm : m < 48) (hle : mtabDays m ≤ r)
    (hlt : r < mtabDays (m + 1)) {k : Nat} (hk : 47 - k ≤ m) : findMonth r k = m := by
  induction k with
  | zero => rw [findMonth]; omega
  | succ k ih =>
    rw [findMonth]
    split
    · next hnext =>
      refine ih (not_lt.mp fun hgt => ?_)
      exact absurd (mtabDays_mono (show m + 1 ≤ 47 - k from hgt) (by omega)) (by omega)
    next hnext =>
    refine le_antisymm hk (not_lt.mp fun hgt => hnext ?_)
    exact (mtabDays_mono (show 47 - k ≤ m by omega) (by omega)).trans hle

theorem findMonth_eq {m j : Nat} (hm : m < 48) (hj : mtabDays m + j < mtabDays (m + 1)) :
    findMonth (mtabDays m + j) (47 - (mtabDays m + j) / 32) = m := by
  have hshort : ∀ n < 49, mtabDays n ≤ 31 * n := by decide
  have hend := hshort (m + 1) (by omega)
  exact findMonth_of_le hm (by omega) hj (by omega)

/-- Every day before a month is in one before it. -/
theorem exists_month {r n : Nat} (h : r < mtabDays n) :
    ∃ m < n, mtabDays m ≤ r ∧ r < mtabDays (m + 1) := by
  induction n with
  | zero => exact absurd h (Nat.not_lt_zero _)
  | succ n ih =>
    obtain hlt | hle := lt_or_ge r (mtabDays n)
    · obtain ⟨m, hm, hin⟩ := ih hlt
      exact ⟨m, by omega, hin⟩
    · exact ⟨n, n.lt_succ_self, hle, h⟩

theorem exists_cycle {v : Nat} (hv : v < 46752) : ∃ l < 32, ∃ m < 48, ∃ j,
    mtabDays m + j < mtabDays (m + 1) ∧ v = l * 1461 + (mtabDays m + j) := by
  obtain ⟨m, hm, hle, hlt⟩ := exists_month (n := 48) (show v % 1461 < 1461 by omega)
  exact ⟨v / 1461, by omega, m, hm, v % 1461 - mtabDays m, by omega, by omega⟩

/-- The number of a date, by its cycle, its month in the cycle, and its day from zero on. -/
def dateOf (l m j : Nat) : Nat := l * 2048 + m / 12 * 512 + (m % 12 + 1) * 32 + j + 1

theorem cycleDate_eq {l m j : Nat} (hl : l < 32) (hm : m < 48)
    (hj : mtabDays m + j < mtabDays (m + 1)) :
    cycleDate (l * 1461 + (mtabDays m + j)) = dateOf l m j := by
  obtain ⟨-, hlen, hend⟩ := mtabDays_step m hm
  have hmonth := findMonth_eq hm hj
  have hdiv : (l * 1461 + (mtabDays m + j)) / 1461 = l := by omega
  simp only [cycleDate, hdiv, Nat.add_sub_cancel_left, hmonth, mtabCoded_eq m hm, Nat.shiftLeft_eq]
  rw [toUnsigned_natCast (by omega),
    show ((mtabDays m + j : Nat) - (mtabDays m - 1 : Int)) = (j + 1 : Nat) by omega,
    toUnsigned_natCast (by omega), show l * 4 * 2 ^ 9 + (m / 12 * 512 + (m % 12 + 1) * 32) =
      2 ^ 5 * (l * 64 + m / 12 * 16 + (m % 12 + 1)) by omega,
    mul_or (by omega), dateOf]
  omega

theorem fatDays_eq {l m j : Nat} (hl : l < 32) (hm : m < 48)
    (hj : mtabDays m + j < mtabDays (m + 1)) :
    fatDays (dateOf l m j) = (if noLeap ≤ l * 1461 + (mtabDays m + j)
      then l * 1461 + (mtabDays m + j) - 1 else l * 1461 + (mtabDays m + j)) + 3652 := by
  obtain ⟨-, hlen, hend⟩ := mtabDays_step m hm
  have hlow : dateOf l m j &&& 0x1f = j + 1 := by
    rw [show 0x1f = 2 ^ 5 - 1 from rfl, and_low, dateOf]; omega
  have hcycle : dateOf l m j >>> 11 &&& 0x1f = l := by
    rw [show 0x1f = 2 ^ 5 - 1 from rfl, and_low, Nat.shiftRight_eq_div_pow, dateOf]; omega
  have hindex : dateOf l m j >>> 5 &&& 0x3f = m / 12 * 16 + m % 12 + 1 := by
    rw [show 0x3f = 2 ^ 6 - 1 from rfl, and_low, Nat.shiftRight_eq_div_pow, dateOf]; omega
  rw [fatDays, hlow, hcycle, hindex, daytab_coded m hm,
    show (j + 1 : Nat) - (1 : Int) + (1461 * l + mtabDays m : Nat) =
      (l * 1461 + (mtabDays m + j) : Nat) by omega]
  have hfit : l * 1461 + (mtabDays m + j) < 2 ^ 31 := by omega
  generalize l * 1461 + (mtabDays m + j) = v at *
  rw [toUnsigned_natCast (n := v) (by omega), noLeap]
  exact toUnsigned_natCast (w := 32) (by split <;> omega)

end Cycle

section Parts

/-- A day since 1970, with the leap day of 2100 put in. -/
def cycleDay (n : Nat) : Nat :=
  if noLeap ≤ n - 3652 then n - 3652 + 1 else n - 3652

/-- A day before 1980 is taken for its first one. -/
theorem fatDate_early {n : Nat} (h : n < 3652 * 86400) : fatDate n = 0x0021 := by
  rw [fatDate, show ((n : Int).tdiv 86400) = (n / 86400 : Nat) from rfl,
    toUnsigned_natCast (by omega), if_pos (by omega)]

theorem fatDate_eq {n : Nat} (h : 3652 * 86400 ≤ n) (hn : n < 50403 * 86400) :
    fatDate n = cycleDate (cycleDay (n / 86400)) := by
  rw [fatDate, show ((n : Int).tdiv 86400) = (n / 86400 : Nat) from rfl,
    toUnsigned_natCast (by omega), if_neg (by omega), cycleDay]
  split <;> rfl

theorem fatDays_fatDate {n : Nat} (h : 3652 * 86400 ≤ n) (hn : n < 50403 * 86400) :
    fatDays (fatDate n) = n / 86400 := by
  have hday : cycleDay (n / 86400) < 46752 := by unfold cycleDay noLeap; split <;> omega
  obtain ⟨l, hl, m, hm, j, hj, hv⟩ := exists_cycle hday
  rw [fatDate_eq h hn, hv, cycleDate_eq hl hm hj, fatDays_eq hl hm hj, ← hv]
  unfold cycleDay noLeap
  grind

theorem fatTime_eq (n : Nat) :
    fatTime n = n / 3600 % 24 * 2048 + n / 60 % 60 * 32 + n / 2 % 30 := by
  rw [fatTime, show ((n : Int).tdiv 2).tmod 30 = (n / 2 % 30 : Nat) from rfl,
    show ((n : Int).tdiv 60).tmod 60 * 2 ^ 5 = (n / 60 % 60 * 2 ^ 5 : Nat) from rfl,
    show ((n : Int).tdiv 3600).tmod 24 * 2 ^ 11 = (n / 3600 % 24 * 2 ^ 11 : Nat) from rfl,
    toUnsigned_natCast (by omega), toUnsigned_natCast (by omega), toUnsigned_natCast (by omega),
    Nat.or_comm (n / 2 % 30), Nat.mul_comm _ (2 ^ 5), mul_or (by omega), Nat.or_comm,
    Nat.mul_comm _ (2 ^ 11), mul_or (by omega)]
  omega

/-- The seconds that are read from a stamp. -/
theorem fattime2timespec_sec (off : Int) (utc : Bool) (x : Fattime) (hdt : x.dt < 2 ^ 16) :
    (fattime2timespec off utc x).tvSec - shift off utc = (x.dt % 32 * 2 + x.dt / 32 % 64 * 60 +
      x.dt / 2048 * 3600 + x.dh / 100 + 86400 * fatDays x.dd % 2 ^ 32 : Nat) := by
  rw [fattime2timespec, show 0x1f = 2 ^ 5 - 1 from rfl, and_low,
    show 0x7e0 = (2 ^ 6 - 1) <<< 5 from rfl, and_shift,
    show 0xf800 = (2 ^ 5 - 1) <<< 11 from rfl, and_shift, Nat.shiftLeft_eq]
  have hprod : toUnsigned 32 (86400 * fatDays x.dd : Nat) = 86400 * fatDays x.dd % 2 ^ 32 := rfl
  rw [hprod]
  dsimp only
  omega

/-- A second is made up of its day and of its fields on it. -/
theorem fields_of_second {d h mi s o : Nat} (hh : h < 24) (hmi : mi < 60) (hs : s < 30)
    (ho : o < 2) {n : Nat} (hn : s * 2 + mi * 60 + h * 3600 + o + 86400 * d = n) :
    n / 86400 = d ∧ n / 3600 % 24 = h ∧ n / 60 % 60 = mi ∧ n / 2 % 30 = s ∧ n % 2 = o := by
  refine ⟨by omega, ?_, ?_, ?_, by omega⟩
  · rw [show n / 3600 = d * 24 + h by omega, Nat.mul_add_mod_self_right, Nat.mod_eq_of_lt hh]
  · rw [show n / 60 = (d * 24 + h) * 60 + mi by omega, Nat.mul_add_mod_self_right,
      Nat.mod_eq_of_lt hmi]
  · rw [show n / 2 = ((d * 24 + h) * 60 + mi) * 30 + s by omega, Nat.mul_add_mod_self_right,
      Nat.mod_eq_of_lt hs]

/-- The product of the day is cut off from 49711 days on. -/
theorem day_mul {d : Nat} (hd : d < 50403) : 86400 * d % 2 ^ 32 =
    if d ≤ 49710 then 86400 * d else 86400 * d - 2 ^ 32 := by
  split <;> omega

theorem second_iff {n : Nat} (hn : n < 50403 * 86400) : n / 2 % 30 * 2 + n / 60 % 60 * 60 +
    n / 3600 % 24 * 3600 + n % 2 + 86400 * (n / 86400) % 2 ^ 32 = n ↔ n < 49711 * 86400 := by
  have hmin : n / 60 = n / 2 / 30 := by rw [Nat.div_div_eq_div_mul]
  have hhour : n / 3600 = n / 60 / 60 := by rw [Nat.div_div_eq_div_mul]
  have hday : n / 86400 = n / 3600 / 24 := by rw [Nat.div_div_eq_div_mul]
  rw [day_mul (by omega)]
  split <;> omega

theorem fields_eq {h m s : Nat} (hm : m < 64) (hs : s < 32) :
    (h * 2048 + m * 32 + s) % 32 = s ∧ (h * 2048 + m * 32 + s) / 32 % 64 = m ∧
      (h * 2048 + m * 32 + s) / 2048 = h := by
  omega

theorem second_mod {s sh : Int} {n : Nat} (hn : s - sh = n) (hsh : 60 ∣ sh) :
    (s % 2).toNat = n % 2 := by omega

theorem hundredths_eq (s : Int) {n : Nat} (hn : n < 10 ^ 9) :
    toUnsigned 8 (s % 2 * 100 + (n : Int).tdiv 10000000) = (s % 2).toNat * 100 + n / 10000000 := by
  rw [show s % 2 * 100 + (n : Int).tdiv 10000000 = ((s % 2).toNat * 100 + n / 10000000 : Nat) by
    have : (n : Int).tdiv 10000000 = (n / 10000000 : Nat) := rfl
    omega]
  exact toUnsigned_natCast (by omega)

theorem dvd_shift {off : Int} (h : 60 ∣ off) (utc : Bool) : 60 ∣ shift off utc := by
  cases utc
  · exact h
  · exact ⟨0, rfl⟩

end Parts

section RoundTrip

theorem daysInMonth_le (y mo : Nat) : daysInMonth (1980 + y) mo ≤ daysInMonth (1980 + y % 4) mo := by
  have hleap : leapyear (1980 + y) = true → leapyear (1980 + y % 4) = true := by
    intro h
    simp only [leapyear, decide_eq_true_eq] at h
    rw [show y % 4 = 0 by omega]
    rfl
  grind [daysInMonth]

/-- The months of the cycles are those of the calendar, but for the leap day of 2100. -/
theorem month_in_cycle {y mo : Nat} (h : 1 ≤ mo) (hmo : mo < 13) :
    mtabDays (y % 4 * 12 + (mo - 1)) + daysInMonth (1980 + y) mo ≤
      mtabDays (y % 4 * 12 + (mo - 1) + 1) ∧
    (y / 4 * 1461 + mtabDays (y % 4 * 12 + (mo - 1)) + daysInMonth (1980 + y) mo ≤ noLeap ∨
      noLeap < y / 4 * 1461 + mtabDays (y % 4 * 12 + (mo - 1))) := by
  have hfirst : ∀ q < 4, ∀ mo < 13, 1 ≤ mo → mtabDays (q * 12 + (mo - 1)) +
      daysInMonth (1980 + q) mo ≤ mtabDays (q * 12 + (mo - 1) + 1) := by decide
  have h2100 : ∀ q < 4, ∀ mo < 13, 1 ≤ mo → 30 * 1461 + mtabDays (q * 12 + (mo - 1)) +
      daysInMonth (2100 + q) mo ≤ noLeap ∨ noLeap < 30 * 1461 + mtabDays (q * 12 + (mo - 1)) := by
    decide
  have hle := daysInMonth_le y mo
  have hin := hfirst (y % 4) (by omega) mo hmo h
  obtain ⟨-, -, hend⟩ := mtabDays_step (y % 4 * 12 + (mo - 1)) (by omega)
  refine ⟨by omega, ?_⟩
  obtain hlt | heq | hgt := lt_trichotomy (y / 4) 30
  · left; unfold noLeap; omega
  · have h := h2100 (y % 4) (by omega) mo hmo h
    rwa [show 2100 + y % 4 = 1980 + y by omega, ← heq] at h
  · right; unfold noLeap; omega

/-- A date is one of a cycle, and is packed from the day that it is unpacked to. -/
theorem WellFormed.cycle {x : Fattime} (h : WellFormed x) : ∃ l < 32, ∃ m < 48, ∃ j,
    mtabDays m + j < mtabDays (m + 1) ∧ x.dd = dateOf l m j ∧
    cycleDay (fatDays x.dd) = l * 1461 + (mtabDays m + j) := by
  obtain ⟨hy, ⟨hmo, hmo'⟩, ⟨hd, hd'⟩, -⟩ := h
  obtain ⟨hin, hleap⟩ := month_in_cycle (y := x.dd / 512) hmo (by omega)
  generalize hm : x.dd / 512 % 4 * 12 + (x.dd / 32 % 16 - 1) = m at hin hleap
  have hj : mtabDays m + (x.dd % 32 - 1) < mtabDays (m + 1) := by omega
  have hdd : x.dd = dateOf (x.dd / 512 / 4) m (x.dd % 32 - 1) := by unfold dateOf; omega
  refine ⟨x.dd / 512 / 4, by omega, m, by omega, _, hj, hdd, ?_⟩
  rw [congrArg fatDays hdd, fatDays_eq (by omega) (by omega) hj, cycleDay]
  unfold noLeap at *
  grind

/-- The dates up to 2106-02-07 are those of the days whose seconds fit into 32 bits. -/
theorem dateOf_le {m j : Nat} (hm : m < 48) (hj : mtabDays m + j < mtabDays (m + 1)) :
    mtabDays m + j ≤ 768 ↔ dateOf 31 m j ≤ 126 * 512 + 2 * 32 + 7 := by
  obtain ⟨-, hlen, -⟩ := mtabDays_step m hm
  unfold dateOf
  obtain hlt | rfl | hgt := lt_trichotomy m 25
  · have h : mtabDays (m + 1) ≤ 762 := mtabDays_mono (show m + 1 ≤ 25 from hlt) (by decide)
    omega
  · rw [show mtabDays 25 = 762 from rfl]
    omega
  · have h : 790 ≤ mtabDays m := mtabDays_mono (show 26 ≤ m from hgt) (by omega)
    omega

theorem fatDays_le {l m j : Nat} (hl : l < 32) (hm : m < 48)
    (hj : mtabDays m + j < mtabDays (m + 1)) :
    fatDays (dateOf l m j) ≤ 49710 ↔ dateOf l m j ≤ 126 * 512 + 2 * 32 + 7 := by
  obtain ⟨-, hlen, hend⟩ := mtabDays_step m hm
  have hlast := dateOf_le hm hj
  rw [fatDays_eq hl hm hj, noLeap]
  obtain rfl | hl' : l = 31 ∨ l < 31 := by omega
  · rw [← hlast]
    split <;> omega
  · have : dateOf l m j ≤ 126 * 512 + 2 * 32 + 7 := by unfold dateOf; omega
    split <;> omega

theorem unpack_pack_iff {off : Int} {utc : Bool} (hoff : 60 ∣ off) {t : Timespec}
    (hns : 0 ≤ t.tvNsec) (hns' : t.tvNsec < 10 ^ 9) (hr : InRange (t.tvSec - shift off utc)) :
    fattime2timespec off utc (timespec2fattime off utc t) =
        ⟨t.tvSec, t.tvNsec / 10 ^ 7 * 10 ^ 7⟩ ↔
      t.tvSec - shift off utc < 49711 * 86400 := by
  obtain ⟨s, ns⟩ := t
  obtain ⟨hlow, hhigh⟩ := hr
  dsimp only at *
  lift ns to Nat using hns
  have hshift := dvd_shift hoff utc
  obtain ⟨n, hn⟩ := Int.eq_ofNat_of_zero_le (a := s - shift off utc) (by omega)
  have hsec := fattime2timespec_sec off utc (timespec2fattime off utc ⟨s, ns⟩)
  simp only [timespec2fattime, hn, fatTime_eq, hundredths_eq s (n := ns) (by omega),
    fatDays_fatDate (n := n) (by omega) (by omega)] at hsec ⊢
  specialize hsec (by omega)
  obtain ⟨hs, hmi, hh⟩ := fields_eq (h := n / 3600 % 24) (m := n / 60 % 60) (s := n / 2 % 30)
    (by omega) (by omega)
  have hodd : ((s % 2).toNat * 100 + ns / 10000000) / 100 = n % 2 := by
    rw [← second_mod hn hshift]
    omega
  have hnsec : ((((s % 2).toNat * 100 + ns / 10000000) % 100 * 10000000 : Nat) : Int) =
      ns / 10 ^ 7 * 10 ^ 7 := by omega
  have hiff := second_iff (n := n) (by omega)
  rw [hs, hmi, hh, hodd] at hsec
  generalize n / 2 % 30 * 2 + n / 60 % 60 * 60 + n / 3600 % 24 * 3600 + n % 2 +
    86400 * (n / 86400) % 2 ^ 32 = n' at hsec hiff
  have hsec' : (fattime2timespec off utc ⟨fatDate n, n / 3600 % 24 * 2048 + n / 60 % 60 * 32 +
      n / 2 % 30, (s % 2).toNat * 100 + ns / 10000000⟩).tvSec = s ↔ n < 49711 * 86400 := by
    rw [← hiff]
    omega
  rw [Timespec.ext_iff]
  refine ⟨fun h => ?_, fun h => ⟨hsec'.mpr (by omega), hnsec⟩⟩
  have := hsec'.mp h.1
  omega

theorem pack_unpack_iff {off : Int} {utc : Bool} (hoff : 60 ∣ off) {x : Fattime}
    (hx : WellFormed x) : timespec2fattime off utc (fattime2timespec off utc x) = x ↔
      x.dd ≤ 126 * 512 + 2 * 32 + 7 := by
  obtain ⟨l, hl, m, hm, j, hj, hdd, hcycle⟩ := hx.cycle
  have hle := fatDays_le hl hm hj
  have hday := fatDays_eq hl hm hj
  have hpack := cycleDate_eq hl hm hj
  obtain ⟨-, -, hend⟩ := mtabDays_step m hm
  rw [← hdd] at hle hday hpack
  have htime : x.dt / 2048 * 2048 + x.dt / 32 % 64 * 32 + x.dt % 32 = x.dt := by omega
  have hlow : 3652 ≤ fatDays x.dd ∧ fatDays x.dd < 50403 := by
    rw [hday, noLeap]
    split <;> omega
  have hsec := fattime2timespec_sec off utc x (by have := hx.hour; omega)
  have hshift := dvd_shift hoff utc
  obtain ⟨-, -, -, hh, hmi, hs, hdh⟩ := hx
  generalize hn : x.dt % 32 * 2 + x.dt / 32 % 64 * 60 + x.dt / 2048 * 3600 + x.dh / 100 +
    86400 * fatDays x.dd % 2 ^ 32 = n at hsec
  rw [day_mul hlow.2] at hn
  rw [← hle, timespec2fattime, hsec]
  by_cases hd : fatDays x.dd ≤ 49710
  · rw [if_pos hd] at hn
    obtain ⟨hd', hh', hmi', hs', hodd⟩ := fields_of_second hh hmi hs (by omega) hn
    have hdh' := hundredths_eq (fattime2timespec off utc x).tvSec (n := x.dh % 100 * 10000000)
      (by omega)
    rw [fatDate_eq (by omega) (by omega), hd', hcycle, hpack, fatTime_eq, hh', hmi', hs']
    refine iff_of_true (Fattime.ext rfl htime ?_) hd
    refine hdh'.trans ?_
    rw [second_mod hsec hshift, hodd, Nat.mul_div_cancel _ (by decide), Nat.div_add_mod']
  rw [if_neg hd] at hn
  -- What is left of the seconds is less than the days up to 1980.
  rw [fatDate_early (by omega)]
  refine iff_of_false (fun h => ?_) hd
  have hdd' : 0x0021 = x.dd := congrArg Fattime.dd h
  exact hd (hle.mpr (by omega))

/-- **A stamp and its time come back if and only if the date is 2106-02-07 at most.** -/
theorem fattime_roundtrip_iff (off : Int) (utc : Bool) (hoff : 60 ∣ off) :
    (∀ t : Timespec, 0 ≤ t.tvNsec → t.tvNsec < 10 ^ 9 → InRange (t.tvSec - shift off utc) →
      (fattime2timespec off utc (timespec2fattime off utc t) =
          ⟨t.tvSec, t.tvNsec / 10 ^ 7 * 10 ^ 7⟩ ↔
        t.tvSec - shift off utc < 49711 * 86400)) ∧
    ∀ x : Fattime, WellFormed x → (timespec2fattime off utc (fattime2timespec off utc x) = x ↔
        x.dd ≤ 126 * 512 + 2 * 32 + 7) :=
  ⟨fun _ => unpack_pack_iff hoff, fun _ => pack_unpack_iff hoff⟩

theorem fattime_roundtrip_cet :
    fattime2timespec (-3600) false (timespec2fattime (-3600) false ⟨4107542400, 5⟩) =
        ⟨4107542400, 0⟩ ∧
      timespec2fattime (-3600) false (fattime2timespec (-3600) false ⟨61537, 0, 0⟩) =
        ⟨61537, 0, 0⟩ := by
  have h := fattime_roundtrip_iff (-3600) false ⟨-60, rfl⟩
  refine ⟨(h.1 ⟨4107542400, 5⟩ (by decide) (by decide) ⟨by decide, by decide⟩).mpr (by decide),
    (h.2 ⟨61537, 0, 0⟩ ⟨?_, ?_, ?_, ?_, ?_, ?_, ?_⟩).mpr (by decide)⟩ <;> decide

/-- The first second of 2106-02-08 comes back as one of 1970. -/
theorem fattime_late : ¬ ∀ t : Timespec, 0 ≤ t.tvNsec → t.tvNsec < 10 ^ 9 →
    InRange (t.tvSec - shift 0 true) → fattime2timespec 0 true (timespec2fattime 0 true t) =
        ⟨t.tvSec, t.tvNsec / 10 ^ 7 * 10 ^ 7⟩ := by
  intro h
  have h := h ⟨49711 * 86400, 0⟩ (by decide) (by decide) ⟨by decide, by decide⟩
  exact absurd h (by decide)

end RoundTrip

end FreeBSDKern.Clock
