import Columnar.Time.Calendar
import Mathlib.Tactic.IntervalCases
import Mathlib.Tactic.SplitIfs

/-!
# The calendar day by day

The proleptic Gregorian calendar is told by the lengths of its months and by the years that have a
29th of February: every date has a next one, and the first of January 1970 is day zero.  The dates
that are found by dividing days into eras, years and months are those of this calendar, before 1970
as well as after it.

A day is looked at in three ways: by its number, by the year that starts in March and the day of
it, and as a date.

## Main definitions

* `CivilDate.isLeap`, `CivilDate.monthLength`, `CivilDate.IsValid` — leap years, the lengths of
  months, and the dates there are.
* `CivilDate.next` — the next date.
* `CivilDate.OnDay` — the date of a day, counted from the first of January 1970.
* `CivilDate.IsMarchDay`, `CivilDate.ofMarch`, `CivilDate.marchDays` — a day of a year that starts
  in March, its date and its number.

## Main results

* `CivilDate.toDays_next` — the next date is one day later.
* `CivilDate.ofDays_toDays`, `CivilDate.toDays_ofDays` — dates and days correspond.
* `CivilDate.onDay_iff` — **the date found for a day is the date of that day.**
-/

namespace Columnar.CivilDate

/-! ### The calendar -/

/-- Every fourth year is a leap year, but of full centuries only every fourth. -/
def isLeap (y : Int) : Bool := y % 4 == 0 && (y % 100 != 0 || y % 400 == 0)

/-- The days of a month. -/
def monthLength (y : Int) (m : Nat) : Nat :=
  if m = 2 then if isLeap y then 29 else 28
  else if m = 4 ∨ m = 6 ∨ m = 9 ∨ m = 11 then 30
  else 31

/-- A date of the calendar. -/
structure IsValid (d : CivilDate) : Prop where
  month_pos : 1 ≤ d.month
  month_le : d.month ≤ 12
  day_pos : 1 ≤ d.day
  day_le : d.day ≤ monthLength d.year d.month

/-- The next date. -/
def next (d : CivilDate) : CivilDate :=
  if d.day < monthLength d.year d.month then { d with day := d.day + 1 }
  else if d.month < 12 then ⟨d.year, d.month + 1, 1⟩
  else ⟨d.year + 1, 1, 1⟩

/-- The date of a day: day zero is the first of January 1970, and from one day to the next the date
moves on, or back. -/
inductive OnDay : Int → CivilDate → Prop
  /-- Where the days are counted from. -/
  | epoch : OnDay 0 ⟨1970, 1, 1⟩
  /-- One day later. -/
  | next {n : Int} {d : CivilDate} (h : OnDay n d) : OnDay (n + 1) d.next
  /-- One day earlier. -/
  | previous {n : Int} {d : CivilDate} (hd : d.IsValid) (h : OnDay (n + 1) d.next) : OnDay n d

theorem one_le_monthLength (y : Int) (m : Nat) : 1 ≤ monthLength y m := by
  unfold monthLength
  split_ifs <;> decide

theorem IsValid.next {d : CivilDate} (h : d.IsValid) : d.next.IsValid := by
  unfold CivilDate.next
  split_ifs with hday hmonth
  · exact ⟨h.month_pos, h.month_le, Nat.le_add_left 1 _, hday⟩
  · exact ⟨Nat.le_add_left 1 _, hmonth, Nat.le_refl 1, one_le_monthLength _ _⟩
  · exact ⟨Nat.le_refl 1, Nat.le_add_left 1 11, Nat.le_refl 1, one_le_monthLength _ _⟩

theorem monthLength_le (y : Int) (m : Nat) : monthLength y m ≤ 31 := by
  unfold monthLength
  split_ifs <;> decide

/-- The month and the day of a date have two digits. -/
theorem IsValid.fields_lt {d : CivilDate} (h : d.IsValid) : d.month < 100 ∧ d.day < 100 := by
  have hmonth := h.month_le
  have hday := h.day_le.trans (monthLength_le d.year d.month)
  omega

/-- The next date is one day later. -/
theorem toDays_next {d : CivilDate} (h : d.IsValid) : d.next.toDays = d.toDays + 1 := by
  obtain ⟨y, m, day⟩ := d
  obtain ⟨hpos, hle, hday, hlast⟩ := h
  dsimp only at hpos hle hday hlast
  unfold next
  dsimp only
  split
  · unfold toDays
    dsimp only
    omega
  · -- the last day of a month, of which February depends on the year
    obtain rfl : day = monthLength y m := by omega
    unfold toDays daysBeforeMonth daysBeforeYear monthLength isLeap eraDays
    interval_cases m
    all_goals simp
    all_goals (try split_ifs)
    all_goals omega

/-! ### Years that start in March -/

/-- A day of a year that starts in March; the last one belongs to leap years. -/
def IsMarchDay (year : Int) (day : Nat) : Prop := day < 365 ∨ day = 365 ∧ isLeap (year + 1) = true

/-- The date on a day of a year that starts in March. -/
def ofMarch (year : Int) (day : Nat) : CivilDate :=
  let month := (5 * day + 2) / 153
  { year := if month < 10 then year else year + 1
    month := if month < 10 then month + 3 else month - 9
    day := day - daysBeforeMonth month + 1 }

/-- The number of a day of a year of an era. -/
def marchDays (era : Int) (year day : Nat) : Int :=
  era * eraDays + (daysBeforeYear year + day : Nat) - epochShift

theorem isLeap_iff (y : Int) :
    isLeap y = true ↔ y % 4 = 0 ∧ (y % 100 ≠ 0 ∨ y % 400 = 0) := by
  simp [isLeap]

/-- The year of an era is found from the centuries, the four years and the years before a day. -/
theorem yearOfEraDay_parts {c q y day : Nat} (hc : c ≤ 3) (hq : q ≤ 24) (hy : y ≤ 3)
    (hday : day < 365 ∨ day = 365 ∧ y = 3 ∧ (q < 24 ∨ c = 3)) :
    yearOfEraDay (36524 * c + 1461 * q + 365 * y + day) = 100 * c + 4 * q + y := by
  unfold yearOfEraDay
  generalize hn : 36524 * c + 1461 * q + 365 * y + day = n
  by_cases hlast : day = 365 ∧ q = 24 ∧ c = 3
  · obtain rfl : n = 146096 := by omega
    omega
  · have hcenturies : n / 36524 = c := by omega
    have heras : n / 146096 = 0 := by omega
    -- a leap day may count among the days of the next four years
    have hquads : n / 1460 = 25 * c + q ∧ day < 365 ∨ n / 1460 = 25 * c + q + 1 ∧ 1 ≤ day := by
      omega
    rw [hcenturies, heras]
    omega

theorem daysBeforeYear_parts {c q y : Nat} (hq : q ≤ 24) (hy : y ≤ 3) :
    daysBeforeYear (100 * c + 4 * q + y) = 36524 * c + 1461 * q + 365 * y := by
  unfold daysBeforeYear
  omega

section

variable {era : Int} {year day : Nat}

theorem isMarchDay_iff (hyear : year < 400) : IsMarchDay (era * 400 + year) day ↔
    day < 365 ∨ day = 365 ∧ year % 4 = 3 ∧ (year % 100 < 99 ∨ year = 399) := by
  unfold IsMarchDay
  rw [isLeap_iff]
  omega

/-- The year of a day of an era. -/
theorem yearOfEraDay_eq (hyear : year < 400) (h : IsMarchDay (era * 400 + year) day) :
    yearOfEraDay (daysBeforeYear year + day) = year := by
  rw [isMarchDay_iff hyear] at h
  obtain ⟨c, q, y, hc, hq, hy, rfl⟩ :
      ∃ c q y, c ≤ 3 ∧ q ≤ 24 ∧ y ≤ 3 ∧ year = 100 * c + 4 * q + y :=
    ⟨year / 100, year % 100 / 4, year % 4, by omega, by omega, by omega, by omega⟩
  rw [daysBeforeYear_parts hq hy]
  exact yearOfEraDay_parts hc hq hy (by omega)

/-- The days of an era. -/
theorem daysBeforeYear_add_lt (hyear : year < 400) (h : IsMarchDay (era * 400 + year) day) :
    daysBeforeYear year + day < eraDays := by
  rw [isMarchDay_iff hyear] at h
  unfold daysBeforeYear eraDays
  omega

/-- Every day of an era is one of some year. -/
theorem exists_year {n : Nat} (hn : n < eraDays) (era : Int) :
    ∃ year day : Nat, year < 400 ∧ IsMarchDay (era * 400 + year) day ∧
      n = daysBeforeYear year + day := by
  unfold eraDays at hn
  obtain ⟨c, q, y, day, hc, hq, hy, hday, rfl⟩ : ∃ c q y day, c ≤ 3 ∧ q ≤ 24 ∧ y ≤ 3 ∧
      (day < 365 ∨ day = 365 ∧ y = 3 ∧ (q < 24 ∨ c = 3)) ∧
      n = 36524 * c + 1461 * q + 365 * y + day := by
    generalize hc : min (n / 36524) 3 = c
    obtain ⟨r, hr⟩ : ∃ r, n = 36524 * c + r := ⟨n - 36524 * c, by omega⟩
    refine ⟨c, r / 1461, min (r % 1461 / 365) 3, r % 1461 - 365 * min (r % 1461 / 365) 3, ?_⟩
    omega
  have hyear : 100 * c + 4 * q + y < 400 := by omega
  refine ⟨100 * c + 4 * q + y, day, hyear, (isMarchDay_iff hyear).mpr (by omega), ?_⟩
  rw [daysBeforeYear_parts hq hy]

/-! ### Days, years that start in March, and dates -/

theorem month_le {year : Int} (h : IsMarchDay year day) : (5 * day + 2) / 153 ≤ 11 := by
  unfold IsMarchDay at h
  omega

theorem daysBeforeMonth_le (day : Nat) : daysBeforeMonth ((5 * day + 2) / 153) ≤ day := by
  unfold daysBeforeMonth
  omega

theorem ofDays_marchDays (hyear : year < 400) (h : IsMarchDay (era * 400 + year) day) :
    ofDays (marchDays era year day) = ofMarch (era * 400 + year) day := by
  have hlt := daysBeforeYear_add_lt hyear h
  have hyearOf := yearOfEraDay_eq hyear h
  generalize hn : daysBeforeYear year + day = n at hlt hyearOf
  have hshift : marchDays era year day + epochShift = era * eraDays + n := by
    rw [marchDays, hn]
    omega
  have hera : (era * eraDays + n) / (eraDays : Int) = era := by
    unfold eraDays at *
    omega
  have hday : ((era * eraDays + n) % (eraDays : Int)).toNat = n := by
    unfold eraDays at *
    omega
  have hrest : n - daysBeforeYear year = day := by omega
  unfold ofDays ofMarch
  simp only [hshift, hera, hday, hyearOf, hrest]
  have hmonth := month_le h
  generalize (5 * day + 2) / 153 = month at hmonth
  by_cases hlt : month < 10
  · simp [hlt]
  · have hle : month - 9 ≤ 2 := by omega
    simp [hlt, hle]

theorem toDays_ofMarch (hyear : year < 400) (h : IsMarchDay (era * 400 + year) day) :
    (ofMarch (era * 400 + year) day).toDays = marchDays era year day := by
  have hmonth := month_le h
  have hbefore := daysBeforeMonth_le day
  have hera : (era * 400 + year : Int) / 400 = era := by omega
  have hrest : ((era * 400 + year : Int) % 400).toNat = year := by omega
  unfold toDays ofMarch marchDays
  dsimp only
  generalize (5 * day + 2) / 153 = month at hmonth hbefore
  by_cases hlt : month < 10
  · have hlate : ¬ month + 3 ≤ 2 := by omega
    simp only [hlt, hlate, if_true, if_false, Nat.add_sub_cancel, hera, hrest]
    omega
  · have hearly : month - 9 ≤ 2 := by omega
    have hback : month - 9 + 9 = month := by omega
    simp only [hlt, hearly, if_true, if_false, Int.add_sub_cancel, Nat.add_sub_cancel, hback, hera,
      hrest]
    omega

theorem isValid_ofMarch {year : Int} (h : IsMarchDay year day) : (ofMarch year day).IsValid := by
  have hmonth := month_le h
  have hlast : day < daysBeforeMonth ((5 * day + 2) / 153 + 1) := by
    unfold daysBeforeMonth
    omega
  unfold IsMarchDay at h
  unfold ofMarch
  dsimp only
  generalize (5 * day + 2) / 153 = month at hmonth hlast
  unfold daysBeforeMonth at *
  constructor
  all_goals dsimp only
  · split_ifs <;> omega
  · split_ifs <;> omega
  · omega
  · -- the last day of the year is in February, whose length depends on the year
    rcases h with hday | ⟨rfl, hleap⟩
    · unfold monthLength
      interval_cases month
      all_goals simp at hlast ⊢
      all_goals (try split_ifs)
      all_goals omega
    · obtain rfl : month = 11 := by omega
      simp [monthLength, hleap]

/-- Every date is on a day of a year that starts in March. -/
theorem IsValid.exists_ofMarch {d : CivilDate} (hd : d.IsValid) :
    ∃ year day, IsMarchDay year day ∧ d = ofMarch year day := by
  obtain ⟨y, m, day⟩ := d
  obtain ⟨hpos, hle, hday, hlast⟩ := hd
  dsimp only at hpos hle hday hlast
  refine ⟨if m ≤ 2 then y - 1 else y,
    daysBeforeMonth (if m ≤ 2 then m + 9 else m - 3) + (day - 1), ?_, ?_⟩
  · -- only the 29th of February needs a leap year
    unfold IsMarchDay daysBeforeMonth monthLength at *
    interval_cases m
    all_goals simp at hlast ⊢
    all_goals (try split_ifs at hlast)
    all_goals grind
  · have hmonth : (5 * (daysBeforeMonth (if m ≤ 2 then m + 9 else m - 3) + (day - 1)) + 2) / 153
        = if m ≤ 2 then m + 9 else m - 3 := by
      unfold daysBeforeMonth monthLength at *
      interval_cases m
      all_goals simp at hlast ⊢
      all_goals (try split_ifs at hlast)
      all_goals omega
    unfold ofMarch
    simp only [hmonth, mk.injEq]
    split_ifs <;> omega

end

theorem exists_marchDays (n : Int) : ∃ (era : Int) (year day : Nat), year < 400 ∧
    IsMarchDay (era * 400 + year) day ∧ n = marchDays era year day := by
  have hpos : (0 : Int) < eraDays := by decide
  have hlt := Int.emod_lt_of_pos (n + epochShift) hpos
  have hnonneg := Int.emod_nonneg (n + epochShift) hpos.ne'
  obtain ⟨year, day, hyear, hmarch, hday⟩ := exists_year
    (n := ((n + epochShift) % eraDays).toNat) (by omega) ((n + epochShift) / eraDays)
  refine ⟨(n + epochShift) / eraDays, year, day, hyear, hmarch, ?_⟩
  have hsplit := Int.ediv_mul_add_emod (n + epochShift) eraDays
  rw [marchDays, ← hday]
  omega

/-- The date found for a day has its number. -/
theorem toDays_ofDays (n : Int) : (ofDays n).toDays = n := by
  obtain ⟨era, year, day, hyear, hmarch, rfl⟩ := exists_marchDays n
  rw [ofDays_marchDays hyear hmarch, toDays_ofMarch hyear hmarch]

theorem isValid_ofDays (n : Int) : (ofDays n).IsValid := by
  obtain ⟨era, year, day, hyear, hmarch, rfl⟩ := exists_marchDays n
  rw [ofDays_marchDays hyear hmarch]
  exact isValid_ofMarch hmarch

/-- A date is found for its number. -/
theorem ofDays_toDays {d : CivilDate} (h : d.IsValid) : ofDays d.toDays = d := by
  obtain ⟨year, day, hmarch, rfl⟩ := h.exists_ofMarch
  obtain ⟨era, y, hy, rfl⟩ : ∃ (era : Int) (y : Nat), y < 400 ∧ year = era * 400 + y :=
    ⟨year / 400, (year % 400).toNat, by omega, by omega⟩
  rw [toDays_ofMarch hy hmarch, ofDays_marchDays hy hmarch]

/-! ### Day by day -/

theorem ofDays_succ (n : Int) : ofDays (n + 1) = (ofDays n).next := by
  have hvalid := isValid_ofDays n
  rw [← ofDays_toDays hvalid.next, toDays_next hvalid, toDays_ofDays]

theorem year_le_next (d : CivilDate) : d.year ≤ d.next.year := by
  unfold next
  split_ifs
  · exact Int.le_refl _
  · exact Int.le_refl _
  · exact Int.le_add_one (Int.le_refl _)

/-- Later days are not of earlier years. -/
theorem year_ofDays_le {m n : Int} (h : m ≤ n) : (ofDays m).year ≤ (ofDays n).year := by
  induction n, h using Int.leInduction with
  | base => exact Int.le_refl _
  | succ n _ ih =>
    rw [ofDays_succ]
    exact ih.trans (year_le_next _)

theorem OnDay.isValid_and_toDays {n : Int} {d : CivilDate} (h : OnDay n d) :
    d.IsValid ∧ d.toDays = n := by
  induction h with
  | epoch => exact ⟨⟨by decide, by decide, by decide, by decide⟩, rfl⟩
  | next _ ih => exact ⟨ih.1.next, by rw [toDays_next ih.1, ih.2]⟩
  | previous hd _ ih =>
    have hnext := toDays_next hd
    exact ⟨hd, by omega⟩

theorem onDay_ofDays (n : Int) : OnDay n (ofDays n) := by
  induction n using Int.induction_on with
  | zero => exact .epoch
  | succ n ih =>
    rw [ofDays_succ]
    exact ih.next
  | pred n ih =>
    refine .previous (isValid_ofDays _) ?_
    rwa [← ofDays_succ, Int.sub_add_cancel]

/-- **The date found for a day is the date of that day**, and there is no other. -/
theorem onDay_iff {n : Int} {d : CivilDate} : OnDay n d ↔ d = ofDays n := by
  constructor
  · intro h
    obtain ⟨hvalid, hdays⟩ := h.isValid_and_toDays
    rw [← hdays, ofDays_toDays hvalid]
  · rintro rfl
    exact onDay_ofDays n

end Columnar.CivilDate
