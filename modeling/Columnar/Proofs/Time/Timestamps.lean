import Columnar.Proofs.Json.Numerals
import Columnar.Proofs.Time.Calendar
import Columnar.Time.Instant

/-!
# Points in time are read back

A text of a point in time is read as it is spelled: a year, of four digits or behind a sign, two
digits for the month and the day, and, behind a `T`, the time of day with the decimals of a second.
What is read stands for the nanoseconds from the start of 1970, by the day that its date is on.

Whatever is left out of a text at the resolution of its unit is zero, before 1970 as well, as the
parts of a point in time are rounded down.

## Main definitions

* `Timestamp`, `Timestamp.read?` — what a text of a point in time says.
* `Timestamp.Denotes` — the nanoseconds from the start of 1970 that it stands for.
* `IsReached` — the points in time of the years that have a text.
* `SplitFits` — what is computed of a count fits its word.

## Main results

* `Instant.read?_text` — the text of a count is read back.
* `Instant.denotes_timestamp` — and stands for its nanoseconds.
* `datetimeText?_of_parts`, `splitFits` — a count has a text in those years, and nothing overflows.
-/

namespace Columnar

/-! ### Reading -/

/-- What the text of a point in time says. -/
structure Timestamp where
  /-- The date. -/
  date : CivilDate
  /-- The hour of the day. -/
  hour : Nat
  /-- The minute of the hour. -/
  minute : Nat
  /-- The second of the minute. -/
  second : Nat
  /-- The nanoseconds of the second. -/
  nanos : Nat
  deriving DecidableEq, Repr

namespace Timestamp

/-- A number of digits, and what stands behind them. -/
def digits? (width : Nat) (cs : List Char) : Option (Nat × List Char) :=
  let ds := cs.take width
  if ds.length = width ∧ ds.all Char.isDigit then some (Nat.ofDigitChars 10 ds 0, cs.drop width)
  else none

/-- Two digits behind a mark. -/
def field? (mark : Char) : List Char → Option (Nat × List Char)
  | c :: cs => if c = mark then digits? 2 cs else none
  | [] => none

/-- A year: four digits, or any number of them behind a sign. -/
def year? : List Char → Option (Int × List Char)
  | '+' :: cs =>
    some (Nat.ofDigitChars 10 (cs.takeWhile Char.isDigit) 0, cs.dropWhile Char.isDigit)
  | '-' :: cs =>
    some (-Nat.ofDigitChars 10 (cs.takeWhile Char.isDigit) 0, cs.dropWhile Char.isDigit)
  | cs => (digits? 4 cs).map fun (n, rest) => (n, rest)

/-- The decimals of a second behind a point, as nanoseconds. -/
def decimals? : List Char → Option Nat
  | [] => some 0
  | '.' :: cs =>
    if cs.length ≤ 9 ∧ cs.all Char.isDigit then
      some (Nat.ofDigitChars 10 cs 0 * 10 ^ (9 - cs.length))
    else none
  | _ => none

/-- A date, alone or with a time of day. -/
def read? (cs : List Char) : Option Timestamp := do
  let (year, cs) ← year? cs
  let (month, cs) ← field? '-' cs
  let (day, cs) ← field? '-' cs
  match cs with
  | [] => some ⟨⟨year, month, day⟩, 0, 0, 0, 0⟩
  | 'T' :: cs =>
    let (hour, cs) ← digits? 2 cs
    let (minute, cs) ← field? ':' cs
    let (second, cs) ← field? ':' cs
    let nanos ← decimals? cs
    some ⟨⟨year, month, day⟩, hour, minute, second, nanos⟩
  | _ => none

/-- A time of day of a date, as nanoseconds from the start of 1970. -/
structure Denotes (t : Timestamp) (total : Int) : Prop where
  hour_lt : t.hour < 24
  minute_lt : t.minute < 60
  second_lt : t.second < 60
  nanos_lt : t.nanos < 1000000000
  onDay : ∃ day, CivilDate.OnDay day t.date ∧
    total = (((day * 24 + t.hour) * 60 + t.minute) * 60 + t.second) * 1000000000 + t.nanos

/-- What is read stands for one point in time. -/
theorem Denotes.unique {t : Timestamp} {a b : Int} (ha : t.Denotes a) (hb : t.Denotes b) :
    a = b := by
  obtain ⟨day, hday, rfl⟩ := ha.onDay
  obtain ⟨day', hday', rfl⟩ := hb.onDay
  rw [← hday.isValid_and_toDays.2, ← hday'.isValid_and_toDays.2]

/-- A point in time has one date and one time of day. -/
theorem Denotes.stamp_unique {s t : Timestamp} {total : Int} (hs : s.Denotes total)
    (ht : t.Denotes total) : s = t := by
  obtain ⟨hhour, hminute, hsecond, hnanos, day, hday, htotal⟩ := hs
  obtain ⟨hhour', hminute', hsecond', hnanos', day', hday', htotal'⟩ := ht
  have hdays : day = day' := by omega
  have hdates : s.date = t.date := by
    rw [CivilDate.onDay_iff.mp hday, CivilDate.onDay_iff.mp hday', hdays]
  obtain ⟨date, hour, minute, second, nanos⟩ := s
  obtain ⟨date', hour', minute', second', nanos'⟩ := t
  dsimp only at *
  rw [Timestamp.mk.injEq]
  exact ⟨hdates, by omega, by omega, by omega, by omega⟩

end Timestamp

/-! ### Numbers of a width -/

section

variable {width n : Nat} {rest : List Char}

theorem isDigit_of_mem_paddedNat : ∀ c ∈ paddedNat width n, c.isDigit = true :=
  isDigit_append isDigit_of_mem_replicate isDigit_of_mem_toDigits

theorem ofDigitChars_paddedNat : Nat.ofDigitChars 10 (paddedNat width n) 0 = n := by
  rw [paddedNat, Nat.ofDigitChars_append, Nat.ofDigitChars_replicate_zero, Nat.mul_zero,
    Nat.ofDigitChars_ten_toDigits]

theorem length_paddedNat (hwidth : 0 < width) (hn : n < 10 ^ width) :
    (paddedNat width n).length = width := by
  have hle := (Nat.length_toDigits_le_iff (by decide) hwidth).mpr hn
  rw [paddedNat, List.length_append, List.length_replicate]
  omega

theorem all_isDigit_paddedNat : (paddedNat width n).all Char.isDigit = true :=
  List.all_eq_true.mpr isDigit_of_mem_paddedNat

namespace Timestamp

/-- A number of a width is read back, whatever stands behind it. -/
theorem digits?_paddedNat (hwidth : 0 < width) (hn : n < 10 ^ width) :
    digits? width (paddedNat width n ++ rest) = some (n, rest) := by
  have hlen := length_paddedNat hwidth hn
  simp only [digits?, List.take_left' hlen, List.drop_left' hlen, hlen, all_isDigit_paddedNat,
    ofDigitChars_paddedNat, and_self, if_true]

theorem field?_paddedNat (mark : Char) (hn : n < 100) :
    field? mark (mark :: (paddedNat 2 n ++ rest)) = some (n, rest) := by
  rw [field?, if_pos rfl, digits?_paddedNat (by decide) hn]

/-- The decimals of a second are read back, if those that are left out are zero. -/
theorem decimals?_paddedNat {nanos : Nat} (hwidth : 0 < width) (hle : width ≤ 9)
    (hlt : nanos < 1000000000) (hdvd : 10 ^ (9 - width) ∣ nanos) :
    decimals? ('.' :: paddedNat width (nanos / 10 ^ (9 - width))) = some nanos := by
  have hscale : 10 ^ (9 - width) * 10 ^ width = 1000000000 := by
    rw [← pow_add, Nat.sub_add_cancel hle]
    rfl
  have hlen := length_paddedNat (n := nanos / 10 ^ (9 - width)) hwidth
    (Nat.div_lt_of_lt_mul (by rwa [hscale]))
  simp only [decimals?, hlen, hle, all_isDigit_paddedNat, ofDigitChars_paddedNat,
    Nat.div_mul_cancel hdvd, and_self, if_true]

end Timestamp

theorem takeWhile_paddedNat (width n : Nat) (rest : List Char) :
    (paddedNat width n ++ '-' :: rest).takeWhile Char.isDigit = paddedNat width n ∧
      (paddedNat width n ++ '-' :: rest).dropWhile Char.isDigit = '-' :: rest := by
  rw [List.takeWhile_append_of_pos isDigit_of_mem_paddedNat,
    List.dropWhile_append_of_pos isDigit_of_mem_paddedNat]
  constructor
  · rw [List.takeWhile_cons_of_neg (by decide), List.append_nil]
  · rw [List.dropWhile_cons_of_neg (by decide)]

end

namespace Timestamp

/-- What starts with a digit is a year without a sign. -/
theorem year?_of_isDigit {c : Char} {cs : List Char} (hc : c.isDigit = true) :
    year? (c :: cs) = (digits? 4 (c :: cs)).map fun (n, rest) => (n, rest) := by
  unfold year?
  split
  · next heq => cases heq; cases hc
  · next heq => cases heq; cases hc
  · rfl

/-- A year is read back up to the mark behind it. -/
theorem year?_yearText (y : Int) (rest : List Char) :
    year? (Instant.yearText y ++ '-' :: rest) = some (y, '-' :: rest) := by
  unfold Instant.yearText
  split_ifs with hshort hneg
  · cases hdigits : paddedNat 4 y.toNat with
    | nil =>
      have hlen : (paddedNat 4 y.toNat).length = 4 := length_paddedNat (by decide) (by omega)
      rw [hdigits] at hlen
      cases hlen
    | cons c cs =>
      have hc := isDigit_of_mem_paddedNat c (hdigits ▸ List.mem_cons_self)
      rw [List.cons_append, year?_of_isDigit hc, ← List.cons_append, ← hdigits,
        digits?_paddedNat (by decide) (by omega), Option.map_some]
      dsimp only
      rw [Int.toNat_of_nonneg hshort.1]
  · obtain ⟨htake, hdrop⟩ := takeWhile_paddedNat 4 y.natAbs rest
    simp only [List.cons_append, year?, htake, hdrop, ofDigitChars_paddedNat,
      Int.ofNat_natAbs_of_nonpos hneg.le, Int.neg_neg]
  · obtain ⟨htake, hdrop⟩ := takeWhile_paddedNat 4 y.natAbs rest
    simp only [List.cons_append, year?, htake, hdrop, ofDigitChars_paddedNat,
      Int.natAbs_of_nonneg (Int.not_lt.mp hneg)]

end Timestamp

/-! ### The text of a count -/

namespace Instant

variable {t : Instant} {count : Int64} {unit : TimeUnit}

/-- The date and the time of day of a point in time. -/
def timestamp (t : Instant) : Timestamp :=
  ⟨.ofDays t.days, t.secondOfDay / 3600, t.secondOfDay / 60 % 60, t.secondOfDay % 60, t.nanos⟩

theorem denotes_timestamp (h : t.nanos < 1000000000) :
    t.timestamp.Denotes (t.seconds * 1000000000 + t.nanos) := by
  have hnonneg : 0 ≤ t.seconds % 86400 := by omega
  have hsecond : (t.secondOfDay : Int) = t.seconds % 86400 := Int.toNat_of_nonneg hnonneg
  refine ⟨?_, ?_, ?_, h, t.days, CivilDate.onDay_ofDays _, ?_⟩
  all_goals
    unfold timestamp
    dsimp only
  · omega
  · omega
  · omega
  · unfold days
    omega

/-- The day of a point in time. -/
theorem ediv_eq_days (h : t.nanos < 1000000000) :
    (t.seconds * 1000000000 + t.nanos) / 86400000000000 = t.days := by
  unfold days
  omega

/-- A count of a unit is split into seconds and nanoseconds. -/
theorem ofCount?_parts (h : ofCount? count unit = some t) :
    ∃ n, unit.nanoseconds? = some n ∧ t.nanos < 1000000000 ∧
      t.seconds * 1000000000 + t.nanos = count.toInt * n := by
  cases hn : unit.nanoseconds? with
  | none =>
    rw [ofCount?, hn] at h
    cases h
  | some n =>
    rw [ofCount?, hn] at h
    cases h
    refine ⟨n, rfl, ?_⟩
    dsimp only
    omega

/-- A date says everything about a count of days or of weeks. -/
theorem parts_of_isDateUnit (h : ofCount? count unit = some t) (hunit : isDateUnit unit = true) :
    t.secondOfDay = 0 ∧ t.nanos = 0 := by
  obtain ⟨n, hn, hlt, htotal⟩ := ofCount?_parts h
  unfold secondOfDay
  cases unit
  case week =>
    cases hn
    omega
  case day =>
    cases hn
    omega
  all_goals cases hunit

/-- The decimals at the resolution of a unit say everything about the part of a second. -/
theorem decimals?_fractionOfSecond (h : ofCount? count unit = some t) :
    Timestamp.decimals? (t.fractionOfSecond unit) = some t.nanos := by
  obtain ⟨n, hn, hlt, htotal⟩ := ofCount?_parts h
  cases unit
  case millisecond =>
    cases hn
    exact @Timestamp.decimals?_paddedNat 3 _ (by decide) (by decide) hlt (by omega)
  case microsecond =>
    cases hn
    exact @Timestamp.decimals?_paddedNat 6 _ (by decide) (by decide) hlt (by omega)
  case nanosecond =>
    have hwhole := @Timestamp.decimals?_paddedNat 9 _ (by decide) (by decide) hlt (one_dvd _)
    rwa [Nat.sub_self, pow_zero, Nat.div_one] at hwhole
  all_goals
    cases hn
    try
      obtain hzero : t.nanos = 0 := by omega
      rw [hzero]
      rfl

/-- The text of a count is read back. -/
theorem read?_text (h : ofCount? count unit = some t) :
    Timestamp.read? (t.text unit).toList = some t.timestamp := by
  obtain ⟨hmonth, hday⟩ := (CivilDate.isValid_ofDays t.days).fields_lt
  have hclock : t.secondOfDay < 86400 := by
    unfold secondOfDay
    omega
  rw [text, String.toList_ofList]
  unfold dateText
  split_ifs with hunit
  · obtain ⟨hsecond, hnanos⟩ := parts_of_isDateUnit h hunit
    rw [timestamp, hsecond, hnanos]
    have hlast := @Timestamp.field?_paddedNat _ [] '-' hday
    rw [List.append_nil] at hlast
    simp [Timestamp.read?, Timestamp.year?_yearText, Timestamp.field?_paddedNat, hmonth, hlast]
  · have hdecimals := decimals?_fractionOfSecond h
    have hhour (rest : List Char) : Timestamp.digits? 2
        (paddedNat 2 (t.secondOfDay / 3600) ++ rest) = some (t.secondOfDay / 3600, rest) :=
      Timestamp.digits?_paddedNat (by decide) (by omega)
    have hminute : t.secondOfDay / 60 % 60 < 100 := by omega
    have hsecond : t.secondOfDay % 60 < 100 := by omega
    simp only [clockText, List.append_assoc, List.cons_append, Timestamp.read?,
      Timestamp.year?_yearText, Timestamp.field?_paddedNat, hmonth, hday, hhour, hminute, hsecond,
      hdecimals, timestamp, Option.bind_eq_bind, Option.bind_some]

/-- The characters of the text of a point in time. -/
def IsStampChar (c : Char) : Prop := c.isDigit = true ∨ c ∈ ['+', '-', 'T', ':', '.']

theorem isStampChar_of_mem_paddedNat {width n : Nat} : ∀ c ∈ paddedNat width n, IsStampChar c :=
  fun c hc => .inl (isDigit_of_mem_paddedNat c hc)

theorem isStampChar_of_mem_dateText (d : CivilDate) : ∀ c ∈ dateText d, IsStampChar c := by
  have hyear : ∀ c ∈ yearText d.year, IsStampChar c := by
    unfold yearText
    split_ifs
    · exact isStampChar_of_mem_paddedNat
    all_goals exact List.forall_mem_cons.mpr ⟨by simp [IsStampChar], isStampChar_of_mem_paddedNat⟩
  simp only [dateText, List.forall_mem_append, List.forall_mem_cons]
  exact ⟨⟨hyear, by simp [IsStampChar], isStampChar_of_mem_paddedNat⟩, by simp [IsStampChar],
    isStampChar_of_mem_paddedNat⟩

theorem isStampChar_of_mem_clockText (t : Instant) : ∀ c ∈ t.clockText, IsStampChar c := by
  simp only [clockText, List.forall_mem_append, List.forall_mem_cons]
  exact ⟨⟨isStampChar_of_mem_paddedNat, by simp [IsStampChar], isStampChar_of_mem_paddedNat⟩,
    by simp [IsStampChar], isStampChar_of_mem_paddedNat⟩

theorem isStampChar_of_mem_fractionOfSecond (t : Instant) (unit : TimeUnit) :
    ∀ c ∈ t.fractionOfSecond unit, IsStampChar c := by
  unfold fractionOfSecond
  split
  case h_4 => nofun
  all_goals exact List.forall_mem_cons.mpr ⟨by simp [IsStampChar], isStampChar_of_mem_paddedNat⟩

theorem isStampChar_of_mem_text : ∀ c ∈ (t.text unit).toList, IsStampChar c := by
  have hdate := isStampChar_of_mem_dateText (.ofDays t.days)
  rw [text, String.toList_ofList]
  split_ifs
  · exact hdate
  · simp only [List.forall_mem_append, List.forall_mem_cons]
    exact ⟨⟨hdate, by simp [IsStampChar], isStampChar_of_mem_clockText t⟩,
      isStampChar_of_mem_fractionOfSecond t unit⟩

/-- Nothing of the text of a point in time is escaped. -/
theorem char_of_isStampChar {c : Char} (h : IsStampChar c) :
    Escaped.char Escaped.isControlOrDelete c = [c] := by
  rcases h with hdigit | hmark
  · have hbounds : 48 ≤ c.toNat ∧ c.toNat ≤ 57 := by
      simp only [Char.isDigit, Bool.and_eq_true, decide_eq_true_eq] at hdigit
      exact ⟨hdigit.1, hdigit.2⟩
    have hhidden : Escaped.isControlOrDelete c = false := by
      rw [Escaped.isControlOrDelete, decide_eq_false_iff_not]
      omega
    unfold Escaped.char
    rw [hhidden]
    split_ifs
    all_goals first | rfl | contradiction | (subst_vars; cases hdigit)
  · simp only [List.mem_cons, List.not_mem_nil, or_false] at hmark
    rcases hmark with rfl | rfl | rfl | rfl | rfl
    all_goals decide

theorem quotedText_text (t : Instant) (unit : TimeUnit) :
    quotedText (t.text unit) = '"' :: (t.text unit).toList ++ ['"'] := by
  have hplain : (t.text unit).toList.flatMap (Escaped.char Escaped.isControlOrDelete)
      = (t.text unit).toList := by
    rw [List.flatMap_congr fun c hc => char_of_isStampChar (isStampChar_of_mem_text c hc),
      List.flatMap_singleton']
  rw [quotedText, Escaped.string, hplain]

end Instant

/-! ### The years that have a text -/

/-- The points in time, in nanoseconds from the start of 1970, that are in a year with a text. -/
def IsReached (total : Int) : Prop :=
  ∃ date, CivilDate.OnDay (total / 86400000000000) date ∧
    -262143 ≤ date.year ∧ date.year ≤ 262142

theorem year_before_firstDay : (CivilDate.ofDays (Instant.firstDay - 1)).year = -262144 := by
  decide

theorem year_firstDay : (CivilDate.ofDays Instant.firstDay).year = -262143 := by
  decide

theorem year_lastDay : (CivilDate.ofDays Instant.lastDay).year = 262142 := by
  decide

theorem year_after_lastDay : (CivilDate.ofDays (Instant.lastDay + 1)).year = 262143 := by
  decide

theorem isReached_iff {total : Int} : IsReached total ↔
    Instant.firstDay ≤ total / 86400000000000 ∧ total / 86400000000000 ≤ Instant.lastDay := by
  unfold IsReached
  simp only [CivilDate.onDay_iff, exists_eq_left]
  generalize total / 86400000000000 = day
  constructor
  · rintro ⟨hfirst, hlast⟩
    constructor
    · by_contra hlt
      have hle := CivilDate.year_ofDays_le (m := day) (n := Instant.firstDay - 1) (by omega)
      rw [year_before_firstDay] at hle
      omega
    · by_contra hlt
      have hle := CivilDate.year_ofDays_le (m := Instant.lastDay + 1) (n := day) (by omega)
      rw [year_after_lastDay] at hle
      omega
  · rintro ⟨hfirst, hlast⟩
    have hfrom := CivilDate.year_ofDays_le hfirst
    have hto := CivilDate.year_ofDays_le hlast
    rw [year_firstDay] at hfrom
    rw [year_lastDay] at hto
    exact ⟨hfrom, hto⟩

/-- A count of a unit of fixed length has a text if it is in a year that has one. -/
theorem datetimeText?_of_parts {count : Int64} {unit : TimeUnit} {t : Instant}
    (ht : Instant.ofCount? count unit = some t) :
    (IsReached (t.seconds * 1000000000 + t.nanos) →
      datetimeText? count unit = some (t.text unit)) ∧
    (¬ IsReached (t.seconds * 1000000000 + t.nanos) → datetimeText? count unit = none) := by
  obtain ⟨n, -, hlt, -⟩ := Instant.ofCount?_parts ht
  rw [isReached_iff, Instant.ediv_eq_days hlt, datetimeText?, ht]
  exact ⟨fun h => if_pos h, fun h => if_neg h⟩

/-- The nanoseconds of a count and their split into seconds and a part of one fit their words;
seconds that have a text fit a smaller one. -/
structure SplitFits (total : Int) : Prop where
  total_ge : -2 ^ 127 ≤ total
  total_lt : total < 2 ^ 127
  quotient_ge : -2 ^ 127 ≤ total / 1000000000
  quotient_lt : total / 1000000000 < 2 ^ 127
  remainder_nonneg : 0 ≤ total % 1000000000
  remainder_lt : total % 1000000000 < 2 ^ 32
  reached : IsReached total → -2 ^ 63 ≤ total / 1000000000 ∧ total / 1000000000 < 2 ^ 63

theorem firstDay_eq : Instant.firstDay = -96465292 := by decide

theorem lastDay_eq : Instant.lastDay = 95026236 := by decide

theorem splitFits (count : Int64) {unit : TimeUnit} {n : Nat} (hn : unit.nanoseconds? = some n) :
    SplitFits (count.toInt * n) := by
  have hge := count.le_toInt
  have hlt := count.toInt_lt
  have hbounds : -2 ^ 127 ≤ count.toInt * n ∧ count.toInt * n < 2 ^ 127 := by
    cases unit
    all_goals
      cases hn
      try omega
  generalize count.toInt * n = total at hbounds
  refine ⟨hbounds.1, hbounds.2, by omega, by omega, by omega, by omega, fun h => ?_⟩
  rw [isReached_iff, firstDay_eq, lastDay_eq] at h
  omega

end Columnar
