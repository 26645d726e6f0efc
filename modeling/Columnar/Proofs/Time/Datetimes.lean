import Columnar.Json.ValueText
import Columnar.Proofs.Json.Adds
import Columnar.Proofs.Time.Timestamps

/-!
# Points in time that are written

A count of a unit of fixed length is made of seconds and nanoseconds, from which a library of dates
makes a point in time and spells it by a pattern.  All that is asked of the library is that it knows
the years that have a text, and that it follows the patterns.  Then the text of a count says exactly
how much time it counts, and no two counts of a unit have one text.

## Main definitions

* `DateLibrary` — points in time and their spelling.
* `Timestamp.spell`, `TimeUnit.pattern` — what the specifiers of a pattern stand for, and the
  pattern of a unit.
* `DateLibrary.IsDocumented` — a library does what it is said to do.
* `Value.IsStamped`, `Value.IsBare` — a point in time is written as a text, or as a count.

## Main results

* `DateLibrary.datetimeText?_eq` — the text of a count is the one that such a library makes.
* `Value.text_datetime_exact` — **points in time are written without a loss.**
-/

namespace Columnar

/-! ### A library of dates -/

/-- A library of dates. -/
structure DateLibrary where
  /-- Its points in time. -/
  Point : Type
  /-- The point of seconds from the start of 1970 and nanoseconds of the next one. -/
  ofTimestamp? : Int64 → UInt32 → Option Point
  /-- A point as it is spelled by a pattern. -/
  format : Point → List Char → String

/-- What the specifiers of a pattern stand for. -/
def Timestamp.spell (t : Timestamp) : List Char → List Char
  | '%' :: 'Y' :: cs => Instant.yearText t.date.year ++ t.spell cs
  | '%' :: 'm' :: cs => paddedNat 2 t.date.month ++ t.spell cs
  | '%' :: 'd' :: cs => paddedNat 2 t.date.day ++ t.spell cs
  | '%' :: 'H' :: cs => paddedNat 2 t.hour ++ t.spell cs
  | '%' :: 'M' :: cs => paddedNat 2 t.minute ++ t.spell cs
  | '%' :: 'S' :: cs => paddedNat 2 t.second ++ t.spell cs
  | '%' :: '.' :: '3' :: 'f' :: cs => '.' :: paddedNat 3 (t.nanos / 1000000) ++ t.spell cs
  | '%' :: '.' :: '6' :: 'f' :: cs => '.' :: paddedNat 6 (t.nanos / 1000) ++ t.spell cs
  | '%' :: '.' :: '9' :: 'f' :: cs => '.' :: paddedNat 9 t.nanos ++ t.spell cs
  | c :: cs => c :: t.spell cs
  | [] => []

/-- The pattern of a date. -/
def datePattern : List Char := ['%', 'Y', '-', '%', 'm', '-', '%', 'd']

/-- The pattern of a time of day. -/
def clockPattern : List Char := ['T', '%', 'H', ':', '%', 'M', ':', '%', 'S']

/-- The pattern of a unit. -/
def TimeUnit.pattern : TimeUnit → List Char
  | week | day => datePattern
  | millisecond => datePattern ++ clockPattern ++ ['%', '.', '3', 'f']
  | microsecond => datePattern ++ clockPattern ++ ['%', '.', '6', 'f']
  | nanosecond => datePattern ++ clockPattern ++ ['%', '.', '9', 'f']
  | _ => datePattern ++ clockPattern

/-- The text of a point in time follows the pattern of its unit. -/
theorem Instant.text_eq_spell (t : Instant) (unit : TimeUnit) :
    t.text unit = String.ofList (t.timestamp.spell unit.pattern) := by
  rw [text]
  cases unit
  all_goals
    simp [TimeUnit.pattern, datePattern, clockPattern, Timestamp.spell, dateText, clockText,
      fractionOfSecond, isDateUnit, timestamp]

namespace DateLibrary

variable {lib : DateLibrary}

/-- The text of a count: its seconds and nanoseconds make a point in time, if they fit a word. -/
def datetimeText? (lib : DateLibrary) (count : Int64) (unit : TimeUnit) : Option String :=
  match unit.nanoseconds? with
  | none => none
  | some n =>
    let seconds := count.toInt * n / 1000000000
    let nanos := (count.toInt * n % 1000000000).toNat
    if fitsInt64 seconds ∧ nanos < 2 ^ 32 then
      (lib.ofTimestamp? (.ofInt seconds) (.ofNat nanos)).map fun p => lib.format p unit.pattern
    else none

/-- A library makes the points in time of the years it knows, and spells them by their date and
time of day. -/
structure IsDocumented (lib : DateLibrary) : Prop where
  covers (seconds : Int64) (nanos : UInt32) (h : nanos.toNat < 1000000000) :
    (lib.ofTimestamp? seconds nanos).isSome ↔
      IsReached (seconds.toInt * 1000000000 + nanos.toNat)
  spells (seconds : Int64) (nanos : UInt32) (h : nanos.toNat < 1000000000) {p : lib.Point}
    (hp : lib.ofTimestamp? seconds nanos = some p) :
    ∃ stamp : Timestamp, stamp.Denotes (seconds.toInt * 1000000000 + nanos.toNat) ∧
      ∀ unit : TimeUnit, lib.format p unit.pattern = String.ofList (stamp.spell unit.pattern)

/-- A point in time of the library has the text of its seconds and nanoseconds. -/
theorem IsDocumented.map_format (hlib : lib.IsDocumented) {t : Instant} (unit : TimeUnit)
    (hlt : t.nanos < 1000000000) (hseconds : fitsInt64 t.seconds = true) :
    ((lib.ofTimestamp? (.ofInt t.seconds) (.ofNat t.nanos)).map fun p => lib.format p unit.pattern)
      = some (t.text unit) ∧ IsReached (t.seconds * 1000000000 + t.nanos) ∨
    ((lib.ofTimestamp? (.ofInt t.seconds) (.ofNat t.nanos)).map fun p => lib.format p unit.pattern)
      = none ∧ ¬ IsReached (t.seconds * 1000000000 + t.nanos) := by
  rw [fitsInt64, decide_eq_true_eq] at hseconds
  have hsecondsEq : (Int64.ofInt t.seconds).toInt = t.seconds :=
    Int64.toInt_ofInt_of_le hseconds.1 hseconds.2
  have hnanosEq : (UInt32.ofNat t.nanos).toNat = t.nanos :=
    UInt32.toNat_ofNat_of_lt' (by omega : t.nanos < 2 ^ 32)
  have hcovers := hlib.covers (.ofInt t.seconds) (.ofNat t.nanos) (by rwa [hnanosEq])
  have hspells :=
    @IsDocumented.spells _ hlib (.ofInt t.seconds) (.ofNat t.nanos) (by rwa [hnanosEq])
  rw [hsecondsEq, hnanosEq] at hcovers hspells
  cases hp : lib.ofTimestamp? (.ofInt t.seconds) (.ofNat t.nanos) with
  | none =>
    rw [hp] at hcovers
    exact .inr ⟨rfl, fun h => absurd (hcovers.mpr h) Bool.false_ne_true⟩
  | some p =>
    rw [hp] at hcovers
    obtain ⟨stamp, hstamp, hformat⟩ := hspells hp
    obtain rfl := hstamp.stamp_unique (Instant.denotes_timestamp hlt)
    refine .inl ⟨?_, hcovers.mp rfl⟩
    rw [Option.map_some, hformat, Instant.text_eq_spell]

/-- The text of a count is the one that such a library makes. -/
theorem datetimeText?_eq (hlib : lib.IsDocumented) (count : Int64) (unit : TimeUnit) :
    lib.datetimeText? count unit = Columnar.datetimeText? count unit := by
  cases hn : unit.nanoseconds? with
  | none =>
    rw [datetimeText?, Columnar.datetimeText?, Instant.ofCount?, hn]
    rfl
  | some n =>
    obtain ⟨t, ht, hseconds, hnanos⟩ : ∃ t, Instant.ofCount? count unit = some t ∧
        t.seconds = count.toInt * n / 1000000000 ∧
        t.nanos = (count.toInt * n % 1000000000).toNat := by
      rw [Instant.ofCount?, hn]
      exact ⟨_, rfl, rfl, rfl⟩
    obtain ⟨n', hn', hlt, htotal⟩ := Instant.ofCount?_parts ht
    obtain ⟨hreached, hnone⟩ := datetimeText?_of_parts ht
    obtain rfl : n = n' := Option.some.inj (hn.symm.trans hn')
    rw [datetimeText?, hn]
    dsimp only
    rw [← hseconds, ← hnanos]
    by_cases hfits : fitsInt64 t.seconds = true
    · rw [if_pos ⟨hfits, by omega⟩]
      rcases hlib.map_format unit hlt hfits with ⟨htext, h⟩ | ⟨htext, h⟩
      · rw [htext, hreached h]
      · rw [htext, hnone h]
    · -- years that have a text are reached by a word of seconds
      rw [if_neg fun h => hfits h.1, hnone fun h => hfits ?_]
      have hword := (splitFits count hn).reached (htotal ▸ h)
      rw [fitsInt64, decide_eq_true_eq]
      omega

/-- The library of the civil calendar. -/
def civil : DateLibrary where
  Point := Instant
  ofTimestamp? seconds nanos :=
    let t : Instant := ⟨seconds.toInt, nanos.toNat⟩
    if Instant.firstDay ≤ t.days ∧ t.days ≤ Instant.lastDay then some t else none
  format t pattern := String.ofList (t.timestamp.spell pattern)

theorem isDocumented_civil : civil.IsDocumented := by
  refine ⟨fun seconds nanos h => ?_, fun seconds nanos h p hp => ?_⟩
  · have hday := @Instant.ediv_eq_days ⟨seconds.toInt, nanos.toNat⟩ h
    rw [isReached_iff, hday]
    simp [civil]
  · obtain ⟨-, hpoint⟩ := Option.ite_none_right_eq_some.mp hp
    cases hpoint
    exact ⟨_, Instant.denotes_timestamp h, fun _ => rfl⟩

end DateLibrary

/-! ### Points in time that are written -/

namespace Value

variable {o : WriteOptions}

/-- A value of one call that adds a text. -/
theorem text_of_calls {v : Value} {c : Call} {name : String} {text : List Char}
    (hcalls : v.calls = [c]) (hsteps : c.steps o = [.value name text]) :
    v.text o = .ok (String.ofList text) := by
  have hadds := (Encoder.awaits_outside o false).adds_value hsteps
  rw [Value.text, hcalls, TextWriter.new, Encoder.start, hadds.callAll]
  simp [Except.map]

/-- A point in time is written as a bare count. -/
def IsBare (o : WriteOptions) (count : Int64) (unit : TimeUnit) : Prop :=
  (Value.datetime count unit).calls = [.int count] ∧
    (Value.datetime count unit).text o = .ok (toString count.toInt)

/-- A point in time is written as a text between quotes, which is read as its nanoseconds. -/
def IsStamped (o : WriteOptions) (count : Int64) (unit : TimeUnit) (total : Int) : Prop :=
  ∃ text stamp, (Value.datetime count unit).calls = [.string text] ∧
    (Value.datetime count unit).text o = .ok (String.ofList ('"' :: text.toList ++ ['"'])) ∧
    Timestamp.read? text.toList = some stamp ∧ stamp.Denotes total

theorem isBare_of_datetimeText? {count : Int64} {unit : TimeUnit}
    (h : datetimeText? count unit = none) : IsBare o count unit := by
  have hcalls : (Value.datetime count unit).calls = [.int count] := by
    rw [calls, datetimeCall, h]
  refine ⟨hcalls, ?_⟩
  rw [text_of_calls hcalls rfl, String.ofList_toList]

theorem isStamped_of_datetimeText? {count : Int64} {unit : TimeUnit} {t : Instant}
    (ht : Instant.ofCount? count unit = some t)
    (h : datetimeText? count unit = some (t.text unit)) :
    IsStamped o count unit (t.seconds * 1000000000 + t.nanos) := by
  obtain ⟨n, -, hlt, -⟩ := Instant.ofCount?_parts ht
  have hcalls : (Value.datetime count unit).calls = [.string (t.text unit)] := by
    rw [calls, datetimeCall, h]
  refine ⟨t.text unit, t.timestamp, hcalls, ?_, Instant.read?_text ht,
    Instant.denotes_timestamp hlt⟩
  rw [text_of_calls hcalls rfl, Instant.quotedText_text]

section

variable {count : Int64} {unit : TimeUnit}

/-- A point in time has a text or is a bare count, by its year. -/
theorem isStamped_or_isBare (o : WriteOptions) (count : Int64) (unit : TimeUnit) :
    (∃ n, unit.nanoseconds? = some n ∧ IsReached (count.toInt * n) ∧
      IsStamped o count unit (count.toInt * n)) ∨
    (∀ n, unit.nanoseconds? = some n → ¬ IsReached (count.toInt * n)) ∧ IsBare o count unit := by
  cases ht : Instant.ofCount? count unit with
  | none =>
    have hnone : unit.nanoseconds? = none := by
      cases hn : unit.nanoseconds? with
      | none => rfl
      | some n =>
        rw [Instant.ofCount?, hn] at ht
        cases ht
    have hbare : datetimeText? count unit = none := by rw [datetimeText?, ht]
    refine .inr ⟨fun n hn => ?_, isBare_of_datetimeText? hbare⟩
    rw [hnone] at hn
    cases hn
  | some t =>
    obtain ⟨n, hn, -, htotal⟩ := Instant.ofCount?_parts ht
    obtain ⟨hreached, hbare⟩ := datetimeText?_of_parts ht
    have hstamped := fun h => @isStamped_of_datetimeText? o _ _ _ ht (hreached h)
    rw [htotal] at hbare hstamped
    by_cases h : IsReached (count.toInt * n)
    · exact .inl ⟨n, hn, h, hstamped h⟩
    · refine .inr ⟨fun n' hn' => ?_, isBare_of_datetimeText? (hbare h)⟩
      obtain rfl : n = n' := Option.some.inj (hn.symm.trans hn')
      exact h

/-- No two counts of a unit are written alike. -/
theorem eq_of_text_datetime {a b : Int64}
    (h : (Value.datetime a unit).text o = (Value.datetime b unit).text o) : a = b := by
  rcases isStamped_or_isBare o a unit with ⟨n, hn, -, ta, sa, -, ha, hra, hda⟩ | ⟨-, -, ha⟩ <;>
    rcases isStamped_or_isBare o b unit with ⟨n', hn', -, tb, sb, -, hb, hrb, hdb⟩ | ⟨-, -, hb⟩ <;>
    rw [ha, hb, Except.ok.injEq] at h
  · -- the same text is read as the same time
    have hchars := String.ofList_injective h
    obtain rfl : ta = tb := String.toList_inj.mp (by simpa using hchars)
    obtain rfl : n = n' := Option.some.inj (hn.symm.trans hn')
    obtain rfl : sa = sb := Option.some.inj (hra.symm.trans hrb)
    have hn0 : (n : Int) ≠ 0 := by
      cases unit
      all_goals
        cases hn
        try decide
    exact Int64.toInt_inj.mp (Int.eq_of_mul_eq_mul_right hn0 (hda.unique hdb))
  · exact absurd h.symm (toString_int_ne_ofList rfl (by decide) _ _)
  · exact absurd h (toString_int_ne_ofList rfl (by decide) _ _)
  · exact Int64.toInt_inj.mp (toString_int_injective h)

end

/-- **Points in time are written without a loss.**  For a unit of fixed length, nothing that is
computed of a count overflows; where there is a year with a text, the text is read as exactly the
time that is counted.  Anything else is written as a bare count, and no two counts of a unit are
written alike.  All of it holds with any library of dates that does what it is said to do. -/
theorem text_datetime_exact {lib : DateLibrary} (hlib : lib.IsDocumented) (o : WriteOptions)
    (count : Int64) (unit : TimeUnit) :
    datetimeText? count unit = lib.datetimeText? count unit ∧
    (∀ n, unit.nanoseconds? = some n → SplitFits (count.toInt * n)) ∧
    (∀ n, unit.nanoseconds? = some n → IsReached (count.toInt * n) →
      IsStamped o count unit (count.toInt * n)) ∧
    ((∀ n, unit.nanoseconds? = some n → ¬ IsReached (count.toInt * n)) → IsBare o count unit) ∧
    ∀ other, (Value.datetime other unit).text o = (Value.datetime count unit).text o →
      other = count := by
  refine ⟨(DateLibrary.datetimeText?_eq hlib count unit).symm, fun n hn => splitFits count hn,
    fun n hn hreached => ?_, fun hnot => ?_, fun other h => eq_of_text_datetime h⟩
  · rcases isStamped_or_isBare o count unit with ⟨n', hn', -, h⟩ | ⟨h, -⟩
    · obtain rfl : n = n' := Option.some.inj (hn.symm.trans hn')
      exact h
    · exact absurd hreached (h n hn)
  · rcases isStamped_or_isBare o count unit with ⟨n, hn, h, -⟩ | ⟨-, h⟩
    · exact absurd h (hnot n hn)
    · exact h

/-- The last thousandth of a second before 1970. -/
theorem text_datetime_exact_millisecond : DateLibrary.civil.IsDocumented ∧
    datetimeText? (-1) .millisecond = some "1969-12-31T23:59:59.999" ∧
    datetimeText? (-1) .millisecond = DateLibrary.civil.datetimeText? (-1) .millisecond ∧
    IsStamped {} (-1) .millisecond (-1000000) := by
  obtain ⟨htext, -, hstamped, -⟩ :=
    text_datetime_exact DateLibrary.isDocumented_civil {} (-1) .millisecond
  refine ⟨DateLibrary.isDocumented_civil, by decide, htext, hstamped 1000000 rfl ?_⟩
  rw [isReached_iff]
  decide

end Value

end Columnar
