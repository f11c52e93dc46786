import SXP.Lib.Text

/-!
# Dates as texts

A date is an instant, in milliseconds.  `toString` prints it for a time zone down to the
second, and `SimpleDateFormat` writes the fields that its pattern names and reads them back
with zeros for the rest.  The calendar is the Gregorian one, and the Julian one in front of
the cutover.

* `number_civil`: the day with a year, a month and a day of the month.
* `toString_inj`: a printed date says as much as its fields and the name of the zone.
-/

namespace SXP.Lib.Date

open Text

/-! ### Calendars -/

inductive Calendar where
  | gregorian
  | julian
deriving DecidableEq, Repr

/-- A day as it is written.  The year before the first one is the year `0`. -/
structure Civil where
  year : ℤ
  month : ℤ
  day : ℤ
deriving DecidableEq, Repr

/-- Four years from March to February, the last of which is long. -/
def fourYears (n : ℤ) : ℤ × ℤ :=
  let a := min (n % 1461 / 365) 3
  (4 * (n / 1461) + a, n % 1461 - 365 * a)

/-- The year, from March on, and the day of it, for a day counted from 1 March of the year 0. -/
def yearDay : Calendar → ℤ → ℤ × ℤ
  | .julian, n => fourYears n
  | .gregorian, n =>
      let c := min (n % 146097 / 36524) 3
      let r := fourYears (n % 146097 - 36524 * c)
      (400 * (n / 146097) + 100 * c + r.1, r.2)

def daysBefore : Calendar → ℤ → ℤ
  | .julian, y => 365 * y + y / 4
  | .gregorian, y => 365 * y + y / 4 - y / 100 + y / 400

def epoch : Calendar → ℤ
  | .julian => 719470
  | .gregorian => 719468

/-- The month in which a day of a year lies, counted from March. -/
def monthIndex (day : ℤ) : ℤ := (5 * day + 2) / 153

def daysBeforeMonth (mp : ℤ) : ℤ := (153 * mp + 2) / 5

def month (mp : ℤ) : ℤ := if mp < 10 then mp + 3 else mp - 9

def civil (cal : Calendar) (n : ℤ) : Civil :=
  let r := yearDay cal (n + epoch cal)
  let m := month (monthIndex r.2)
  ⟨if m ≤ 2 then r.1 + 1 else r.1, m, r.2 - daysBeforeMonth (monthIndex r.2) + 1⟩

def number (cal : Calendar) (c : Civil) : ℤ :=
  let y := if c.month ≤ 2 then c.year - 1 else c.year
  daysBefore cal y + daysBeforeMonth ((c.month + 9) % 12) + c.day - 1 - epoch cal

theorem fourYears_day (n : ℤ) : 0 ≤ (fourYears n).2 ∧ (fourYears n).2 ≤ 365 := by
  unfold fourYears
  dsimp only
  omega

theorem fourYears_number (n : ℤ) :
    365 * (fourYears n).1 + (fourYears n).1 / 4 + (fourYears n).2 = n := by
  unfold fourYears
  dsimp only
  omega

theorem fourYears_year {n : ℤ} (h0 : 0 ≤ n) (h : n ≤ 36524) :
    0 ≤ (fourYears n).1 ∧ (fourYears n).1 ≤ 99 := by
  unfold fourYears
  dsimp only
  omega

theorem yearDay_day (cal : Calendar) (n : ℤ) : 0 ≤ (yearDay cal n).2 ∧ (yearDay cal n).2 ≤ 365 := by
  cases cal with
  | julian => exact fourYears_day n
  | gregorian => exact fourYears_day _

/-- **A day is where its year begins and the days since.** -/
theorem yearDay_number (cal : Calendar) (n : ℤ) :
    daysBefore cal (yearDay cal n).1 + (yearDay cal n).2 = n := by
  cases cal with
  | julian => exact fourYears_number n
  | gregorian =>
    simp only [yearDay, daysBefore]
    generalize hc : min (n % 146097 / 36524) 3 = c
    have hrest := fourYears_number (n % 146097 - 36524 * c)
    have hyear := fourYears_year (n := n % 146097 - 36524 * c) (by omega) (by omega)
    generalize fourYears (n % 146097 - 36524 * c) = r at hrest hyear ⊢
    -- the hundreds and the four hundreds begin where the years of the rest do not reach
    have h100 : (400 * (n / 146097) + 100 * c + r.1) / 100 = 4 * (n / 146097) + c := by omega
    have h400 : (400 * (n / 146097) + 100 * c + r.1) / 400 = n / 146097 := by omega
    have h4 : (400 * (n / 146097) + 100 * c + r.1) / 4 = 100 * (n / 146097) + 25 * c + r.1 / 4 := by
      omega
    rw [h100, h400, h4]
    omega

theorem monthIndex_bounds {d : ℤ} (h0 : 0 ≤ d) (h : d ≤ 365) :
    0 ≤ monthIndex d ∧ monthIndex d ≤ 11 := by
  unfold monthIndex
  omega

theorem month_bounds {mp : ℤ} (h0 : 0 ≤ mp) (h : mp ≤ 11) : 1 ≤ month mp ∧ month mp ≤ 12 := by
  unfold month
  split <;> omega

theorem month_index {mp : ℤ} (h0 : 0 ≤ mp) (h : mp ≤ 11) : (month mp + 9) % 12 = mp := by
  unfold month
  split <;> omega

theorem civil_month (cal : Calendar) (n : ℤ) : 1 ≤ (civil cal n).month ∧
    (civil cal n).month ≤ 12 := by
  obtain ⟨h0, h365⟩ := yearDay_day cal (n + epoch cal)
  obtain ⟨h1, h2⟩ := monthIndex_bounds h0 h365
  exact month_bounds h1 h2

theorem civil_day (cal : Calendar) (n : ℤ) : 1 ≤ (civil cal n).day ∧ (civil cal n).day ≤ 31 := by
  obtain ⟨h0, h365⟩ := yearDay_day cal (n + epoch cal)
  simp only [civil, daysBeforeMonth, monthIndex]
  omega

/-- **The number of a day is read off its year, month and day.** -/
theorem number_civil (cal : Calendar) (n : ℤ) : number cal (civil cal n) = n := by
  obtain ⟨h0, h365⟩ := yearDay_day cal (n + epoch cal)
  obtain ⟨h1, h2⟩ := monthIndex_bounds h0 h365
  have hnumber := yearDay_number cal (n + epoch cal)
  have hmonth : (civil cal n).month = month (monthIndex (yearDay cal (n + epoch cal)).2) := rfl
  have hday : (civil cal n).day = (yearDay cal (n + epoch cal)).2 -
      daysBeforeMonth (monthIndex (yearDay cal (n + epoch cal)).2) + 1 := rfl
  have hyear : (civil cal n).year = if (civil cal n).month ≤ 2 then
      (yearDay cal (n + epoch cal)).1 + 1 else (yearDay cal (n + epoch cal)).1 := rfl
  have hmarch : (if (civil cal n).month ≤ 2 then (civil cal n).year - 1 else
      (civil cal n).year) = (yearDay cal (n + epoch cal)).1 := by
    rw [hyear]
    split
    · exact add_sub_cancel_right _ _
    · rfl
  unfold number
  dsimp only
  rw [hmarch, hday, hmonth, month_index h1 h2]
  omega

/-! ### Instants -/

/-- `offset` is what the zone adds to an instant, `wall` what it takes from a local time, and
`shortName` the name it prints. -/
structure TimeZone where
  offset : ℤ → ℤ
  wall : ℤ → ℤ
  shortName : ℤ → String

def TimeZone.utc : TimeZone := ⟨fun _ => 0, fun _ => 0, fun _ => "UTC"⟩

def TimeZone.localTime (z : TimeZone) (t : ℤ) : ℤ := t + z.offset t

/-- The first day of the Gregorian calendar, 15 October 1582. -/
def cutover : ℤ := -141427

/-- The first day of the year 1. -/
def firstDay : ℤ := -719164

/-- What is printed of a local time; the year is counted from 1, forwards or backwards. -/
structure Fields where
  weekday : ℤ
  year : ℤ
  month : ℤ
  day : ℤ
  hour : ℤ
  minute : ℤ
  second : ℤ
deriving DecidableEq, Repr

def fields (time : ℤ) : Fields :=
  let n := time / 86400000
  let c := civil (if cutover ≤ n then .gregorian else .julian) n
  { weekday := (n + 4) % 7
    year := if c.year ≤ 0 then 1 - c.year else c.year
    month := c.month
    day := c.day
    hour := time % 86400000 / 3600000
    minute := time % 3600000 / 60000
    second := time % 60000 / 1000 }

/-- What a date prints: its fields in the zone, and the zone. -/
def printed (z : TimeZone) (t : ℤ) : Fields × String := (fields (z.localTime t), z.shortName t)

/-! ### Printing -/

def weekdays : List String := ["Sun", "Mon", "Tue", "Wed", "Thu", "Fri", "Sat"]

def months : List String :=
  ["Jan", "Feb", "Mar", "Apr", "May", "Jun", "Jul", "Aug", "Sep", "Oct", "Nov", "Dec"]

def twoDigits (n : ℤ) : String := if n < 10 then "0" ++ decimal n else decimal n

/-- `date.toString()`. -/
def toString (z : TimeZone) (t : ℤ) : String :=
  let f := fields (z.localTime t)
  String.join [weekdays.getD f.weekday.toNat "", " ", months.getD (f.month - 1).toNat "", " ",
    twoDigits f.day, " ", twoDigits f.hour, ":", twoDigits f.minute, ":", twoDigits f.second, " "] ++
    (z.shortName t ++ " " ++ decimal f.year)

/-! ### Patterns -/

/-- `dd-MM-yyyy` and `dd-MM-yyyy HH:mm:ss`. -/
inductive Pattern where
  | day
  | second
deriving DecidableEq, Repr

/-- The day that is read from its fields: in the Gregorian calendar, if that has it. -/
def readDay (c : Civil) : ℤ :=
  if cutover ≤ number .gregorian c then number .gregorian c else number .julian c

/-- What is read back from what `SimpleDateFormat` writes, in one zone. -/
def reread (p : Pattern) (z : TimeZone) (t : ℤ) : ℤ :=
  let f := fields (z.localTime t)
  let time := readDay ⟨f.year, f.month, f.day⟩ * 86400000 + match p with
    | .day => 0
    | .second => f.hour * 3600000 + f.minute * 60000 + f.second * 1000
  time - z.wall time

/-! ### What a text says -/

structure Fields.Ranged (f : Fields) : Prop where
  weekday : 0 ≤ f.weekday ∧ f.weekday < 7
  month : 1 ≤ f.month ∧ f.month ≤ 12
  day : 1 ≤ f.day ∧ f.day ≤ 31
  hour : 0 ≤ f.hour ∧ f.hour < 24
  minute : 0 ≤ f.minute ∧ f.minute < 60
  second : 0 ≤ f.second ∧ f.second < 60

theorem fields_ranged (time : ℤ) : (fields time).Ranged where
  weekday := by
    unfold fields
    dsimp only
    omega
  month := civil_month _ _
  day := civil_day _ _
  hour := by
    unfold fields
    dsimp only
    omega
  minute := by
    unfold fields
    dsimp only
    omega
  second := by
    unfold fields
    dsimp only
    omega

theorem weekdays_inj : ∀ i < 7, ∀ j < 7, weekdays.getD i "" = weekdays.getD j "" → i = j := by
  decide

theorem months_inj : ∀ i < 12, ∀ j < 12, months.getD i "" = months.getD j "" → i = j := by
  decide

theorem weekdays_length : ∀ i < 7, (weekdays.getD i "").length = 3 := by decide

theorem months_length : ∀ i < 12, (months.getD i "").length = 3 := by decide

/-- **Two digits spell one number.** -/
theorem twoDigits_inj {n m : ℤ} (hn : 0 ≤ n) (hm : 0 ≤ m) (h : twoDigits n = twoDigits m) :
    n = m := by
  have hvalue : ∀ {n : ℤ}, 0 ≤ n → Nat.ofDigitChars 10 (twoDigits n).toList 0 = n.toNat := by
    intro n hn
    unfold twoDigits
    split
    · rw [String.toList_append, decimal_toList hn]
      exact Nat.ofDigitChars_ten_toDigits
    · rw [decimal_toList hn]
      exact Nat.ofDigitChars_ten_toDigits
  have hnm := hvalue hn
  rw [h, hvalue hm] at hnm
  omega

theorem twoDigits_length {n : ℤ} (h0 : 0 ≤ n) (h : n < 100) : (twoDigits n).length = 2 := by
  have hten := lt_length_decimal_iff (n := n) (k := 1) h0 (by decide)
  have hhundred := lt_length_decimal_iff (n := n) (k := 2) h0 (by decide)
  have hpos : 0 < (decimal n).length := by
    rw [length_decimal h0]
    exact List.length_pos_of_ne_nil Nat.toDigits_ne_nil
  unfold twoDigits
  split
  · rw [String.length_append]
    have hone : ("0" : String).length = 1 := rfl
    omega
  · omega

/-- **A printed date says as much as its fields** and the name of the zone. -/
theorem toString_inj {z z' : TimeZone} {t t' : ℤ} :
    toString z t = toString z' t' ↔ printed z t = printed z' t' := by
  constructor
  · intro h
    have hr := fields_ranged (z.localTime t)
    have hr' := fields_ranged (z'.localTime t')
    unfold toString at h
    unfold printed
    generalize fields (z.localTime t) = f at h hr ⊢
    generalize fields (z'.localTime t') = f' at h hr' ⊢
    have hlength : ∀ f : Fields, f.Ranged → [weekdays.getD f.weekday.toNat "", " ",
        months.getD (f.month - 1).toNat "", " ", twoDigits f.day, " ", twoDigits f.hour, ":",
        twoDigits f.minute, ":", twoDigits f.second, " "].map String.length =
        [3, 1, 3, 1, 2, 1, 2, 1, 2, 1, 2, 1] := by
      intro f hf
      obtain ⟨hw, hm, hd, hh, hmin, hs⟩ := hf
      simp only [List.map_cons, List.map_nil]
      rw [weekdays_length _ (by omega), months_length _ (by omega),
        twoDigits_length (by omega) (by omega), twoDigits_length (by omega) (by omega),
        twoDigits_length (by omega) (by omega), twoDigits_length (by omega) (by omega)]
      rfl
    obtain ⟨hfront, hrest⟩ :=
      (join_append_inj ((hlength f hr).trans (hlength f' hr').symm)).mp h
    have hname : z.shortName t = z'.shortName t' ∧ f.year = f'.year := by
      have hlist := congrArg String.toList hrest
      rw [String.toList_append, String.toList_append, String.toList_append, String.toList_append,
        List.append_assoc, List.append_assoc] at hlist
      obtain ⟨hname, hyear⟩ :=
        (append_cons_inj (space_notMem_decimal _) (space_notMem_decimal _)).mp hlist
      exact ⟨String.toList_inj.mp hname, decimal_injective (String.toList_inj.mp hyear)⟩
    simp only [List.cons.injEq, true_and, and_true] at hfront
    obtain ⟨hweekday, hmonth, hday, hhour, hminute, hsecond⟩ := hfront
    obtain ⟨hw, hm, hd, hh, hmin, hs⟩ := hr
    obtain ⟨hw', hm', hd', hh', hmin', hs'⟩ := hr'
    have h1 := weekdays_inj _ (by omega) _ (by omega) hweekday
    have h2 := months_inj _ (by omega) _ (by omega) hmonth
    have h3 := twoDigits_inj (by omega) (by omega) hday
    have h4 := twoDigits_inj hh.1 hh'.1 hhour
    have h5 := twoDigits_inj hmin.1 hmin'.1 hminute
    have h6 := twoDigits_inj hs.1 hs'.1 hsecond
    rw [hname.1, Prod.mk.injEq]
    refine ⟨?_, rfl⟩
    cases f
    cases f'
    simp only [Fields.mk.injEq] at *
    omega
  · intro h
    obtain ⟨hfields, hname⟩ := Prod.mk.inj h
    unfold toString
    rw [hfields, hname]

theorem toString_ne_null (z : TimeZone) (t : ℤ) : toString z t ≠ "null" := by
  intro h
  have hspace : ' ' ∈ (toString z t).toList := by
    unfold toString
    rw [String.toList_append, String.toList_append, String.toList_append]
    exact List.mem_append_right _ (List.mem_append_left _ (List.mem_append_right _
      List.mem_cons_self))
  rw [h] at hspace
  exact absurd hspace (by decide)

/-! ### What is read back -/

theorem civil_year_pos {n : ℤ} (cal : Calendar) (h : firstDay ≤ n)
    (hcal : cal = .gregorian → cutover ≤ n) : 0 < (civil cal n).year := by
  have hday := yearDay_day cal (n + epoch cal)
  have hnumber := yearDay_number cal (n + epoch cal)
  have hmonth : (civil cal n).month = month (monthIndex (yearDay cal (n + epoch cal)).2) := rfl
  have hyear : (civil cal n).year = if (civil cal n).month ≤ 2 then
      (yearDay cal (n + epoch cal)).1 + 1 else (yearDay cal (n + epoch cal)).1 := rfl
  rw [hyear, hmonth]
  generalize yearDay cal (n + epoch cal) = r at hday hnumber ⊢
  unfold firstDay at h
  unfold cutover at hcal
  unfold month monthIndex
  cases cal with
  | julian =>
    simp only [daysBefore, epoch] at hnumber
    split <;> split at * <;> omega
  | gregorian =>
    have hn := hcal rfl
    simp only [daysBefore, epoch] at hnumber
    split <;> split at * <;> omega

theorem number_gregorian_lt {n : ℤ} (hn : ¬ cutover ≤ n) :
    ¬ cutover ≤ number .gregorian (civil .julian n) := by
  have hjulian := number_civil .julian n
  obtain ⟨hm1, hm2⟩ := civil_month .julian n
  obtain ⟨hd1, hd2⟩ := civil_day .julian n
  unfold number at hjulian ⊢
  dsimp only at hjulian ⊢
  unfold cutover at hn ⊢
  generalize (civil .julian n).year = y at hjulian ⊢
  generalize (civil .julian n).month = m at hjulian hm1 hm2 ⊢
  generalize (civil .julian n).day = d at hjulian hd1 hd2 ⊢
  generalize (if m ≤ 2 then y - 1 else y) = y' at hjulian ⊢
  simp only [daysBefore, epoch, daysBeforeMonth] at hjulian ⊢
  omega

/-- **The fields of a local time give its day**, from the year 1 on. -/
theorem readDay_fields {time : ℤ} (h : firstDay ≤ time / 86400000) :
    readDay ⟨(fields time).year, (fields time).month, (fields time).day⟩ = time / 86400000 := by
  unfold fields
  dsimp only
  generalize time / 86400000 = n at h ⊢
  unfold readDay
  by_cases hn : cutover ≤ n
  · rw [if_pos hn, if_neg (not_le.mpr (civil_year_pos .gregorian h fun _ => hn))]
    change (if cutover ≤ number .gregorian (civil .gregorian n) then
      number .gregorian (civil .gregorian n) else _) = n
    rw [number_civil, if_pos hn]
  · have hpos := civil_year_pos .julian h fun hcal => absurd hcal (by decide)
    rw [if_neg hn, if_neg (not_le.mpr hpos)]
    change (if cutover ≤ number .gregorian (civil .julian n) then _ else
      number .julian (civil .julian n)) = n
    rw [if_neg (number_gregorian_lt hn), number_civil]

/-- **Fields are the same in the same second**, from the year 1 on. -/
theorem fields_inj {time time' : ℤ} (h : firstDay ≤ time / 86400000)
    (h' : firstDay ≤ time' / 86400000) :
    fields time = fields time' ↔ time / 1000 = time' / 1000 := by
  constructor
  · intro heq
    have hday := readDay_fields h
    rw [heq, readDay_fields h'] at hday
    have hhour := congrArg Fields.hour heq
    have hminute := congrArg Fields.minute heq
    have hsecond := congrArg Fields.second heq
    unfold fields at hhour hminute hsecond
    dsimp only at hhour hminute hsecond
    omega
  · intro heq
    have hday : time / 86400000 = time' / 86400000 := by omega
    have hhour : time % 86400000 / 3600000 = time' % 86400000 / 3600000 := by omega
    have hminute : time % 3600000 / 60000 = time' % 3600000 / 60000 := by omega
    have hsecond : time % 60000 / 1000 = time' % 60000 / 1000 := by omega
    unfold fields
    rw [hday, hhour, hminute, hsecond]

/-- **What a pattern keeps** of a local time is its day, or its second. -/
theorem reread_eq {z : TimeZone} {t : ℤ} (h : firstDay ≤ z.localTime t / 86400000) (p : Pattern) :
    reread p z t = (match p with
      | .day => z.localTime t / 86400000 * 86400000
      | .second => z.localTime t / 1000 * 1000) - z.wall (match p with
      | .day => z.localTime t / 86400000 * 86400000
      | .second => z.localTime t / 1000 * 1000) := by
  have htime : readDay ⟨(fields (z.localTime t)).year, (fields (z.localTime t)).month,
      (fields (z.localTime t)).day⟩ * 86400000 + (match p with
      | .day => 0
      | .second => (fields (z.localTime t)).hour * 3600000 +
          (fields (z.localTime t)).minute * 60000 + (fields (z.localTime t)).second * 1000) =
      match p with
      | .day => z.localTime t / 86400000 * 86400000
      | .second => z.localTime t / 1000 * 1000 := by
    rw [readDay_fields h]
    cases p with
    | day => exact add_zero _
    | second =>
      unfold fields
      dsimp only
      omega
  unfold reread
  dsimp only
  rw [htime]

example : toString .utc (reread .day .utc 1700000000123) = "Tue Nov 14 00:00:00 UTC 2023" := by
  decide +kernel

end SXP.Lib.Date
