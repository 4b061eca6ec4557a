import Mathlib.Data.List.Dedup
import Mathlib.Data.List.Sort
import Mathlib.Data.List.SplitOn
import Mathlib.Data.Rat.Floor
import Pokyh.Lib.Calendar
import Pokyh.Lib.Json
import Pokyh.Lib.Results

/-!
# Menu — Reading

Reading a menu source (`parseMenuSource`, `utils/mensaSource.ts`): any JSON value can stand anywhere in it, and what is read has to
fit the columns it goes into.  Dates are eight digits.
-/

namespace Pokyh.Menu.Reading
open Pokyh.Lib

/-- What the runtime provides: `JSON.parse`, `String(n)`, `Number(s)`, small letters without accents and blanks around, and whether a
text is a plain web address. -/
structure Runtime where
  parse : Units → Option Json
  numberText : Number → Units
  numberOf : Units → Number
  fold : Units → Units
  isWebAddress : Units → Bool

/-- What is thrown: a refusal of the source, `toISOString` at a day that no `Date` can be, or taking apart what is no list. -/
inductive Thrown where
  | menuSourceError (message : String)
  | rangeError
  | typeError
  deriving DecidableEq

structure SourceDish where
  sourceId : Units
  nameDe : Units
  nameIt : Units
  nameEn : Units
  descDe : Units
  descIt : Units
  descEn : Units
  imageUrl : Units
  category : Units
  tags : Units
  allergens : Units
  prepTime : ℤ
  calories : ℤ
  price : ℚ
  protein : ℚ
  fat : ℚ
  isVegetarian : Bool
  isVegan : Bool
  date : ℤ
  weekOrdinal : ℤ
  deriving DecidableEq

structure ParsedSource where
  dishes : List SourceDish
  /-- Entries that could not be read, or were there twice. -/
  skipped : ℕ

def MAX_NAME : ℕ := 500
def MAX_DESC : ℕ := 2000
def MAX_URL : ℕ := 1000
def MAX_CATEGORY : ℕ := 200
def MAX_LIST_JSON : ℕ := 2000
def MAX_SOURCE_ID : ℕ := 200
def MAX_NUMBER : ℚ := 1000000
def MAX_DISHES : ℕ := 2000

/-- The last two are what every object has; neither is a number above 0. -/
def WEEKDAYS : List (String × ℤ) :=
  [("mo", 1), ("montag", 1), ("monday", 1), ("lunedi", 1), ("lun", 1), ("di", 2), ("dienstag", 2), ("tuesday", 2), ("tue", 2),
    ("martedi", 2), ("mar", 2), ("mi", 3), ("mittwoch", 3), ("wednesday", 3), ("wed", 3), ("mercoledi", 3), ("mer", 3), ("do", 4),
    ("donnerstag", 4), ("thursday", 4), ("thu", 4), ("giovedi", 4), ("gio", 4), ("fr", 5), ("freitag", 5), ("friday", 5), ("fri", 5),
    ("venerdi", 5), ("ven", 5), ("sa", 6), ("samstag", 6), ("saturday", 6), ("sat", 6), ("sabato", 6), ("sab", 6), ("so", 7),
    ("sonntag", 7), ("sunday", 7), ("sun", 7), ("domenica", 7), ("dom", 7), ("constructor", 0), ("__proto__", 0)]

def weekdayNamed (name : Units) : Option ℤ := (WEEKDAYS.find? (units ·.1 = name)).map (·.2)

variable (x : Runtime)

/-! ### Fields -/

def isSlugUnit (u : UInt16) : Bool := (97 ≤ u && u ≤ 122) || (48 ≤ u && u ≤ 57)

/-- The dish's name as its stable key. -/
def dishSlug (name : Units) : Units :=
  let spelled := (x.fold name).flatMap fun u => if u = 0xDF then [115, 115] else [u]
  (List.intercalate [45] ((spelled.splitOnP fun u => !isSlugUnit u).filter fun piece => !piece.isEmpty)).take 180

def isControlUnit (u : UInt16) : Bool := u ≤ 8 || u = 11 || u = 12 || (14 ≤ u && u ≤ 31) || u = 127

/-- Text without control characters, in the size its column holds. -/
def text (v : Option Json) (max : ℕ) : Units :=
  let cleaned := fun s : Units => (trimUnits (s.filter fun u => !isControlUnit u)).take max
  match v with
  | some (.string s) => cleaned s
  | some (.number n) => cleaned (x.numberText n)
  | _ => []

/-- `a || b`. -/
def orText (a b : Units) : Units := if a = [] then b else a

structure Localized where
  de : Units
  it : Units
  en : Units

def localized (v : Option Json) (max : ℕ) : Localized :=
  match v with
  | some (.object fields) =>
    let m := fun key => text x ((Json.object fields).get key) max
    let first := ((fields.map fun field => text x (some field.2) max).find? fun s => !s.isEmpty).getD []
    let de := orText (m "de") (orText (m "it") (orText (m "en") first))
    ⟨de, orText (m "it") de, orText (m "en") de⟩
  | v =>
    let s := text x v max
    ⟨s, s, s⟩

def amount (v : Option Json) : ℚ :=
  let n := match v with
    | some (.number n) => n
    -- The first comma.
    | some (.string s) => x.numberOf (s.replace 44 46)
    | _ => .finite 0
  match n with
  | .finite n => if 0 < n then min n MAX_NUMBER else 0
  | _ => 0

/-- `Math.round`. -/
def round (n : ℚ) : ℤ := ⌊n + 1 / 2⌋

/-- As many entries as fit the column. -/
def listFrom (kept : List Units) : List Json → List Units
  | [] => kept
  | item :: items =>
    let s := text x (some item) 100
    if s = [] ∨ s ∈ kept then listFrom kept items
    else if MAX_LIST_JSON < (stringify (kept ++ [s])).length then kept
    else listFrom (kept ++ [s]) items

def list (v : Option Json) : Units :=
  match v with
  | some (.array items) => stringify (listFrom x [] items)
  | _ => stringify []

/-- A plain web address, or nothing. -/
def webUrl (v : Option Json) : Units :=
  let s := text x v (MAX_URL + 1)
  if s = [] ∨ MAX_URL < s.length then [] else if x.isWebAddress s then s else []

/-! ### Days -/

/-- `toISOString`, which throws beyond a hundred million days from 1970.  A year that has not four digits makes no eight digits. -/
def toISOString (day : ℤ) : Except Thrown ℤ := if -100000000 ≤ day ∧ day ≤ 100000000 then .ok (stampOf day) else .error .rangeError

/-- `Date.UTC`: a year below 100 is one of the twentieth century. -/
def dateUTC (year month day : ℤ) : ℤ := dayNumber (if 0 ≤ year ∧ year ≤ 99 then 1900 + year else year) month day

def isoParts (s : Units) : Option (ℕ × ℕ × ℕ) := do
  if 10 ≤ s.length ∧ (s.drop 4).head? = some 45 ∧ (s.drop 7).head? = some 45 then
    return (← digitsOf (s.take 4), ← digitsOf ((s.drop 5).take 2), ← digitsOf ((s.drop 8).take 2))
  else none

def dottedParts (s : Units) : Option (ℕ × ℕ × ℕ) :=
  match s.splitOn 46 with
  | [d, m, y] => do
    if 1 ≤ d.length ∧ d.length ≤ 2 ∧ 1 ≤ m.length ∧ m.length ≤ 2 ∧ y.length = 4 then
      return (← digitsOf y, ← digitsOf m, ← digitsOf d)
    else none
  | _ => none

def dayOf (v : Option Json) : Except Thrown (Option ℤ) :=
  let s := text x v 40
  match (isoParts s).or (dottedParts s) with
  | none => .ok none
  | some (y, m, d) => do
    let day ← toISOString (dateUTC y m d)
    -- A day that is none would roll on to the next month.
    let wanted : ℤ := y * 10000 + m * 100 + d
    return if day = wanted ∧ 20000101 ≤ day ∧ day ≤ 21001231 then some day else none

def isDigit (u : UInt16) : Bool := (digitOf u).isSome

def isLetter (u : UInt16) : Bool := 97 ≤ lowerUnit u && lowerUnit u ≤ 122

/-- "w6_mo": week 6, Monday. -/
def fromSourceId (id : Units) : ℤ × ℤ :=
  match id with
  | [] => (0, 0)
  | w :: behind =>
    let digits := behind.takeWhile isDigit
    match digitsOf digits, behind.dropWhile isDigit with
    | some week, separator :: name =>
      let letters := name.takeWhile isLetter
      if lowerUnit w = 119 ∧ 1 ≤ digits.length ∧ digits.length ≤ 3 ∧ (separator = 95 ∨ separator = 45) ∧ letters ≠ [] then
        (week, (weekdayNamed (x.fold letters)).getD 0)
      else (0, 0)
    | _, _ => (0, 0)

def REFERENCE_MONDAY : ℤ := dayNumber 2001 1 1

def dayFromWeek (week weekday : ℤ) : Except Thrown (Option ℤ) :=
  if 0 < week ∧ week < 1000 ∧ 0 < weekday then some <$> toISOString (REFERENCE_MONDAY + ((week - 1) * 7 + weekday - 1)) else .ok none

def mondayOf (date : ℤ) : Except Thrown ℤ :=
  match readDate date with
  | none => .error .rangeError
  | some day => toISOString (day - (day + 3) % 7)

/-! ### Entries -/

inductive Read where
  | skipped
  | otherPlan
  | dish (d : SourceDish)
  deriving DecidableEq

/-- The week an entry gives itself: any whole number. -/
def wholeWeek (entry : Json) : Option ℤ :=
  match entry.get "week" with
  | some (.number (.finite n)) => if n = ⌊n⌋ then some ⌊n⌋ else none
  | _ => none

def isForOtherPlan (plan : Units) (entry : Json) : Bool :=
  match entry.get "plan" with
  | some (.string p) => p ≠ plan
  | _ => false

/-- A date as it is written. -/
def dateText (date : ℤ) : Units := units s!"{date / 10000}-{date / 1000 % 10}{date / 100 % 10}-{date / 10 % 10}{date % 10}"

def nameOf (entry : Json) : Localized := localized x (Json.orElse (entry.get "name") (entry.get "title")) MAX_NAME

/-- The week of an entry and its day, from its own fields or from its id. -/
def weekAndDay (entry : Json) (id : Units) : ℤ × ℤ :=
  let parts := fromSourceId x id
  ((wholeWeek entry).getD parts.1, (weekdayNamed (x.fold (text x (entry.get "day") 20))).getD parts.2)

def dateOf (entry : Json) (weekday : ℤ × ℤ) : Except Thrown (Option ℤ) := do
  match ← dayOf x (entry.get "date") with
  | some date => return some date
  | none => dayFromWeek weekday.1 weekday.2

def isTrue (v : Option Json) : Bool :=
  match v with
  | some (.bool b) => b
  | _ => false

/-- Without an id of its own a dish is known by its day and name. -/
def dishOf (d : Json) (id : Units) (week date : ℤ) : SourceDish :=
  let name := nameOf x d
  let desc := localized x (Json.orElse (d.get "description") (d.get "desc")) MAX_DESC
  { sourceId := orText id ((units "auto:" ++ dateText date ++ units ":" ++ dishSlug x name.de).take MAX_SOURCE_ID)
    nameDe := name.de
    nameIt := name.it
    nameEn := name.en
    descDe := desc.de
    descIt := desc.it
    descEn := desc.en
    imageUrl := webUrl x (Json.orElse (d.get "imageUrl") (d.get "image"))
    category := text x (d.get "category") MAX_CATEGORY
    tags := list x (d.get "tags")
    allergens := list x (d.get "allergens")
    prepTime := round (amount x (d.get "prepTime"))
    calories := round (amount x (d.get "calories"))
    price := amount x (d.get "price")
    protein := amount x (d.get "protein")
    fat := amount x (d.get "fat")
    isVegetarian := isTrue (d.get "isVegetarian")
    isVegan := isTrue (d.get "isVegan")
    date := date
    weekOrdinal := week }

def isObject : Json → Bool
  | .object _ => true
  | _ => false

def readEntry (plan : Units) (entry : Json) : Except Thrown Read :=
  if !isObject entry then .ok .skipped
  else if isForOtherPlan plan entry then .ok .otherPlan
  else do
    let id := text x (Json.orElse (entry.get "id") (entry.get "sourceId")) MAX_SOURCE_ID
    let weekday := weekAndDay x entry id
    match ← dateOf x entry weekday with
    | none => return .skipped
    | some date => return if (nameOf x entry).de = [] then .skipped else .dish (dishOf x entry id weekday.1 date)

/-- One turn of the loop over the entries; `seen` holds the ids of the dishes. -/
def addEntry (plan : Units) (p : ParsedSource) (entry : Json) : Except Thrown ParsedSource := do
  match ← readEntry x plan entry with
  | .skipped => return { p with skipped := p.skipped + 1 }
  | .otherPlan => return p
  | .dish d =>
    if d.sourceId ∈ p.dishes.map SourceDish.sourceId then return { p with skipped := p.skipped + 1 }
    else return { p with dishes := p.dishes ++ [d] }

/-- A dish that names no week gets its place among the file's Mondays. -/
def placeWeeks (dishes : List SourceDish) : Except Thrown (List SourceDish) := do
  let mondays := ((← dishes.mapM fun d => mondayOf d.date).dedup).insertionSort (· ≤ ·)
  dishes.mapM fun d => do
    if d.weekOrdinal ≠ 0 then return d else return { d with weekOrdinal := mondays.idxOf (← mondayOf d.date) + 1 }

def entriesOf (raw : Units) : Except Thrown (List Json) :=
  match x.parse raw with
  | none => .error (.menuSourceError "Die Quelle liefert kein gültiges JSON")
  | some parsed =>
    let fromMenu := (parsed.get "menu").bind (·.get "dishes")
    let entries : Option Json := match parsed with
      | .array items => some (.array items)
      | r => Json.orElse fromMenu (Json.orElse (r.get "dishes") (r.get "data"))
    match entries with
    | some (.array items) =>
      if MAX_DISHES < items.length then .error (.menuSourceError s!"Die Quelle enthält mehr als {MAX_DISHES} Einträge") else .ok items
    | _ => .error (.menuSourceError "In der Quelle steht keine Liste von Gerichten")

def parseMenuSource (raw plan : Units) : Except Thrown ParsedSource := do
  let entries ← entriesOf x raw
  let p ← entries.foldlM (addEntry x plan) ⟨[], 0⟩
  return { p with dishes := ← placeWeeks p.dishes }

/-! ### What should hold -/

/-- A day of the calendar between 2000 and 2100. -/
def IsDate (date : ℤ) : Prop := (∃ day, stampOf day = date) ∧ 20000101 ≤ date ∧ date ≤ 21001231

/-- JSON that fits its column. -/
def FitsList (s : Units) : Prop := JsonStrings s ∧ s.length ≤ MAX_LIST_JSON

/-- All but the week fits the columns. -/
structure Fits (d : SourceDish) : Prop where
  sourceId : d.sourceId.length ≤ MAX_SOURCE_ID
  named : d.nameDe ≠ []
  names : d.nameDe.length ≤ MAX_NAME ∧ d.nameIt.length ≤ MAX_NAME ∧ d.nameEn.length ≤ MAX_NAME
  descs : d.descDe.length ≤ MAX_DESC ∧ d.descIt.length ≤ MAX_DESC ∧ d.descEn.length ≤ MAX_DESC
  imageUrl : d.imageUrl.length ≤ MAX_URL
  category : d.category.length ≤ MAX_CATEGORY
  lists : FitsList d.tags ∧ FitsList d.allergens
  counts : (0 ≤ d.prepTime ∧ d.prepTime ≤ 1000000) ∧ (0 ≤ d.calories ∧ d.calories ≤ 1000000)
  amounts : (0 ≤ d.price ∧ d.price ≤ MAX_NUMBER) ∧ (0 ≤ d.protein ∧ d.protein ≤ MAX_NUMBER) ∧ (0 ≤ d.fat ∧ d.fat ≤ MAX_NUMBER)
  date : IsDate d.date

/-- The largest number of the column. -/
def MAX_INT : ℤ := 2147483647

structure Storable (d : SourceDish) : Prop extends Fits d where
  week : 1 ≤ d.weekOrdinal ∧ d.weekOrdinal ≤ MAX_INT

/-- Every entry is a dish that can be stored, is counted as skipped, or is for another plan. -/
structure ReadWhole (plan : Units) (entries : List Json) (p : ParsedSource) : Prop where
  ids : (p.dishes.map SourceDish.sourceId).Nodup
  storable : ∀ d ∈ p.dishes, Storable d
  counted : p.dishes.length + p.skipped + entries.countP (isForOtherPlan plan) = entries.length

/-- The source is refused, or read whole. -/
def ReadsStorable (raw plan : Units) : Prop :=
  match parseMenuSource x raw plan with
  | .error thrown => ∃ message, thrown = .menuSourceError message
  | .ok p => ∃ entries, entriesOf x raw = .ok entries ∧ ReadWhole plan entries p

/-- The entry is read as the dish, and none before it as one with its id. -/
def Kept (plan : Units) (entries : List Json) (entry : Json) (d : SourceDish) : Prop :=
  ∃ before rest, entries = before ++ entry :: rest ∧ readEntry x plan entry = .ok (.dish d) ∧
    ∀ earlier ∈ before, ∀ d', readEntry x plan earlier = .ok (.dish d') → d'.sourceId ≠ d.sourceId

variable {x} {raw plan : Units} {entry : Json} {entries before : List Json} {d : SourceDish} {dishes : List SourceDish} {v : Option Json}
  {max : ℕ} {date : ℤ}

/-! ### The fields fit -/

theorem text_length (x : Runtime) (v : Option Json) (max : ℕ) : (text x v max).length ≤ max := by
  unfold text
  split
  · exact List.length_take_le _ _
  · exact List.length_take_le _ _
  · exact Nat.zero_le _

theorem orText_length {a b : Units} (ha : a.length ≤ max) (hb : b.length ≤ max) : (orText a b).length ≤ max := by
  unfold orText
  split
  · exact hb
  · exact ha

theorem localized_length (x : Runtime) (v : Option Json) (max : ℕ) :
    (localized x v max).de.length ≤ max ∧ (localized x v max).it.length ≤ max ∧ (localized x v max).en.length ≤ max := by
  unfold localized
  split
  · rename_i fields
    have htext := fun key => text_length x ((Json.object fields).get key) max
    have hfirst : (((fields.map fun field => text x (some field.2) max).find? fun s => !s.isEmpty).getD []).length ≤ max := by
      cases hfind : (fields.map fun field => text x (some field.2) max).find? fun s => !s.isEmpty with
      | none => exact Nat.zero_le _
      | some s =>
        obtain ⟨field, -, rfl⟩ := List.mem_map.mp (List.mem_of_find?_eq_some hfind)
        exact text_length x _ max
    have hde := orText_length (htext "de") (orText_length (htext "it") (orText_length (htext "en") hfirst))
    exact ⟨hde, orText_length (htext "it") hde, orText_length (htext "en") hde⟩
  · exact ⟨text_length x _ max, text_length x _ max, text_length x _ max⟩

theorem amount_bounds (x : Runtime) (v : Option Json) : 0 ≤ amount x v ∧ amount x v ≤ MAX_NUMBER := by
  have hmax : (0 : ℚ) ≤ MAX_NUMBER := by norm_num [MAX_NUMBER]
  simp only [amount]
  split
  · split
    · exact ⟨le_min (by linarith) hmax, min_le_right _ _⟩
    · exact ⟨le_rfl, hmax⟩
  · exact ⟨le_rfl, hmax⟩

theorem round_bounds (x : Runtime) (v : Option Json) : 0 ≤ round (amount x v) ∧ round (amount x v) ≤ 1000000 := by
  obtain ⟨hpos, hle⟩ := amount_bounds x v
  rw [MAX_NUMBER] at hle
  constructor
  · exact Int.floor_nonneg.mpr (by linarith)
  · have hlt : round (amount x v) < 1000001 := Int.floor_lt.mpr (by push_cast; linarith)
    omega

theorem listFrom_length {kept : List Units} (h : (stringify kept).length ≤ MAX_LIST_JSON) (items : List Json) :
    (stringify (listFrom x kept items)).length ≤ MAX_LIST_JSON := by
  induction items generalizing kept with
  | nil => exact h
  | cons item items ih =>
    rw [listFrom]
    split
    · exact ih h
    · split
      · exact h
      · rename_i hfits
        exact ih (not_lt.mp hfits)

theorem list_fits (x : Runtime) (v : Option Json) : FitsList (list x v) := by
  have hnone : (stringify []).length ≤ MAX_LIST_JSON := by decide
  unfold list
  split
  · exact ⟨jsonStrings_stringify _, listFrom_length hnone _⟩
  · exact ⟨jsonStrings_stringify _, hnone⟩

theorem webUrl_length (x : Runtime) (v : Option Json) : (webUrl x v).length ≤ MAX_URL := by
  simp only [webUrl]
  split
  · exact Nat.zero_le _
  · rename_i hfits
    split
    · exact not_lt.mp (not_or.mp hfits).2
    · exact Nat.zero_le _

/-! ### Days can be read -/

theorem toISOString_ok {day : ℤ} (hlow : -100000000 ≤ day) (hhigh : day ≤ 100000000) : toISOString day = .ok (stampOf day) :=
  if_pos ⟨hlow, hhigh⟩

theorem dateUTC_bounds {year month day : ℕ} (hyear : year < 10000) (hmonth : month < 100) (hday : day < 100) :
    -100000000 ≤ dateUTC year month day ∧ dateUTC year month day ≤ 100000000 := by
  have hrange : ∀ y : ℤ, 0 ≤ y → y < 10000 → -100000000 ≤ dayNumber y month day ∧ dayNumber y month day ≤ 100000000 := by
    intro y h₀ hy
    simp only [dayNumber]
    have hbounds := daysBeforeMonth_bounds (isLeap (y + ((month : ℤ) - 1) / 12)) (m := ((month : ℤ) - 1) % 12 + 1) (by omega) (by omega)
    have hmono := daysBeforeMonth_mono (isLeap (y + ((month : ℤ) - 1) / 12)) (m := ((month : ℤ) - 1) % 12 + 1)
      (show _ ≤ ((month : ℤ) - 1) % 12 + 1 + 1 by omega) (by omega)
    have hshort := shortage_cases (isLeap (y + ((month : ℤ) - 1) / 12))
    simp only [daysBeforeYear, EPOCH]
    omega
  simp only [dateUTC]
  split
  · exact hrange _ (by omega) (by omega)
  · exact hrange _ (by omega) (by omega)

theorem isoParts_bounds {s : Units} {y m d : ℕ} (h : isoParts s = some (y, m, d)) : y < 10000 ∧ m < 100 ∧ d < 100 := by
  unfold isoParts at h
  split at h
  · rename_i hlength
    simp only [Option.bind_eq_bind, Option.bind_eq_some_iff] at h
    obtain ⟨y', hy, m', hm, d', hd, h⟩ := h
    cases h
    have hy := digitsOf_lt hy
    have hm := digitsOf_lt hm
    have hd := digitsOf_lt hd
    simp only [List.length_take, List.length_drop] at hy hm hd
    rw [Nat.min_eq_left (by omega)] at hy hm hd
    exact ⟨hy, hm, hd⟩
  · cases h

theorem digitsOf_two {s : Units} {n : ℕ} (h : digitsOf s = some n) (hlength : s.length ≤ 2) : n < 100 :=
  (digitsOf_lt h).trans_le (Nat.pow_le_pow_right (by decide) hlength)

theorem dottedParts_bounds {s : Units} {y m d : ℕ} (h : dottedParts s = some (y, m, d)) : y < 10000 ∧ m < 100 ∧ d < 100 := by
  unfold dottedParts at h
  split at h
  · split at h
    · rename_i hlength
      obtain ⟨-, hd₂, -, hm₂, hy₄⟩ := hlength
      simp only [Option.bind_eq_bind, Option.bind_eq_some_iff] at h
      obtain ⟨y', hy, m', hm, d', hd, h⟩ := h
      cases h
      have hy := digitsOf_lt hy
      rw [hy₄] at hy
      exact ⟨hy, digitsOf_two hm hm₂, digitsOf_two hd hd₂⟩
    · cases h
  · cases h

/-- Reading a day does not throw, and gives one of the calendar. -/
theorem dayOf_ok (x : Runtime) (v : Option Json) : ∃ date, dayOf x v = .ok date ∧ ∀ day ∈ date, IsDate day := by
  simp only [dayOf]
  split
  · exact ⟨none, rfl, by simp⟩
  · rename_i y m d hparts
    have hbounds : y < 10000 ∧ m < 100 ∧ d < 100 := by
      rcases Option.or_eq_some_iff.mp hparts with hiso | ⟨-, hdotted⟩
      · exact isoParts_bounds hiso
      · exact dottedParts_bounds hdotted
    obtain ⟨hlow, hhigh⟩ := dateUTC_bounds hbounds.1 hbounds.2.1 hbounds.2.2
    rw [toISOString_ok hlow hhigh]
    refine ⟨_, rfl, fun day hday => ?_⟩
    split at hday
    · rename_i hwanted
      obtain rfl := Option.some.inj hday
      exact ⟨⟨_, rfl⟩, hwanted.2⟩
    · cases hday

theorem dayFromWeek_ok (week weekday : ℤ) (hweekday : weekday ≤ 7) : ∃ date, dayFromWeek week weekday = .ok date ∧ ∀ day ∈ date, IsDate day := by
  unfold dayFromWeek
  split
  · rename_i hweek
    obtain ⟨hpos, hlt, hday⟩ := hweek
    have hreference : REFERENCE_MONDAY = 11323 := by decide +kernel
    have hfirst : stampOf 11323 = 20010101 := by decide +kernel
    have hlast : stampOf 18315 ≤ 21001231 := by decide +kernel
    rw [toISOString_ok (by omega) (by omega)]
    refine ⟨_, rfl, fun day hmem => ?_⟩
    obtain rfl := Option.some.inj hmem
    have hlow : stampOf 11323 ≤ stampOf (REFERENCE_MONDAY + ((week - 1) * 7 + weekday - 1)) := stampOf_le_iff.mpr (by omega)
    have hhigh : stampOf (REFERENCE_MONDAY + ((week - 1) * 7 + weekday - 1)) ≤ stampOf 18315 := stampOf_le_iff.mpr (by omega)
    exact ⟨⟨_, rfl⟩, by omega, by omega⟩
  · exact ⟨none, rfl, by simp⟩

theorem weekdayNamed_bounds {name : Units} {weekday : ℤ} (h : weekdayNamed name = some weekday) : 0 ≤ weekday ∧ weekday ≤ 7 := by
  have hall : ∀ named ∈ WEEKDAYS, 0 ≤ named.2 ∧ named.2 ≤ 7 := by decide
  obtain ⟨named, hfind, rfl⟩ := Option.map_eq_some_iff.mp h
  exact hall named (List.mem_of_find?_eq_some hfind)

theorem fromSourceId_bounds (x : Runtime) (id : Units) :
    (0 ≤ (fromSourceId x id).1 ∧ (fromSourceId x id).1 ≤ 999) ∧ (fromSourceId x id).2 ≤ 7 := by
  unfold fromSourceId
  split
  · exact ⟨⟨le_rfl, by decide⟩, by decide⟩
  · simp only
    split
    · rename_i week separator name hweek hbehind
      split
      · rename_i hform
        have hlt := (digitsOf_lt hweek).trans_le (Nat.pow_le_pow_right (by decide) hform.2.2.1)
        have hweek : (week : ℤ) ≤ 999 := by exact_mod_cast Nat.le_of_lt_succ hlt
        refine ⟨⟨Int.natCast_nonneg week, hweek⟩, ?_⟩
        cases hnamed : weekdayNamed (x.fold (name.takeWhile isLetter)) with
        | none => exact (by decide : (0 : ℤ) ≤ 7)
        | some weekday => exact (weekdayNamed_bounds hnamed).2
      · exact ⟨⟨le_rfl, by decide⟩, by decide⟩
    · exact ⟨⟨le_rfl, by decide⟩, by decide⟩

/-- The Monday of a date. -/
def mondayDay (date : ℤ) : ℤ := (readDate date).elim 0 fun day => stampOf (day - (day + 3) % 7)

theorem mondayOf_ok (h : IsDate date) : mondayOf date = .ok (mondayDay date) := by
  obtain ⟨⟨day, rfl⟩, hlow, hhigh⟩ := h
  have hfirst : stampOf 10957 = 20000101 := by decide +kernel
  have hlast : stampOf 47846 = 21001231 := by decide +kernel
  rw [← hfirst, stampOf_le_iff] at hlow
  rw [← hlast, stampOf_le_iff] at hhigh
  rw [mondayOf, mondayDay, readDate_stampOf]
  exact toISOString_ok (by omega) (by omega)

/-! ### One entry -/

/-- What is said of a dish as it is read: its week is the entry's own, or one of an id. -/
structure ReadAs (entry : Json) (d : SourceDish) : Prop extends Fits d where
  own : ∀ week, wholeWeek entry = some week → d.weekOrdinal = week
  fromId : wholeWeek entry = none → 0 ≤ d.weekOrdinal ∧ d.weekOrdinal ≤ 999

theorem dateOf_ok (x : Runtime) (entry : Json) (id : Units) :
    ∃ date, dateOf x entry (weekAndDay x entry id) = .ok date ∧ ∀ day ∈ date, IsDate day := by
  have hweekday : (weekAndDay x entry id).2 ≤ 7 := by
    simp only [weekAndDay]
    cases hnamed : weekdayNamed (x.fold (text x (entry.get "day") 20)) with
    | none => exact (fromSourceId_bounds x id).2
    | some weekday => exact (weekdayNamed_bounds hnamed).2
  obtain ⟨own, hown, hownDate⟩ := dayOf_ok x (entry.get "date")
  obtain ⟨placed, hplaced, hplacedDate⟩ := dayFromWeek_ok (weekAndDay x entry id).1 (weekAndDay x entry id).2 hweekday
  simp only [dateOf, hown, bind, Except.bind]
  cases own with
  | none => exact ⟨placed, hplaced, hplacedDate⟩
  | some day => exact ⟨some day, rfl, hownDate⟩

theorem dishOf_readAs (x : Runtime) {id : Units} (hid : id.length ≤ MAX_SOURCE_ID) (hname : (nameOf x entry).de ≠ []) (hdate : IsDate date) :
    ReadAs entry (dishOf x entry id (weekAndDay x entry id).1 date) where
  sourceId := orText_length hid (List.length_take_le _ _)
  named := hname
  names := localized_length x _ MAX_NAME
  descs := localized_length x _ MAX_DESC
  imageUrl := webUrl_length x _
  category := text_length x _ MAX_CATEGORY
  lists := ⟨list_fits x _, list_fits x _⟩
  counts := ⟨round_bounds x _, round_bounds x _⟩
  amounts := ⟨amount_bounds x _, amount_bounds x _, amount_bounds x _⟩
  date := hdate
  own := fun week hweek => by simp [dishOf, weekAndDay, hweek]
  fromId := fun hnone => by
    simp only [dishOf, weekAndDay, hnone, Option.getD_none]
    exact (fromSourceId_bounds x id).1

/-- Reading an entry does not throw. -/
theorem readEntry_ok (x : Runtime) (plan : Units) (entry : Json) : ∃ r, readEntry x plan entry = .ok r ∧
    (r = .otherPlan ↔ isForOtherPlan plan entry = true) ∧ ∀ d, r = .dish d → ReadAs entry d := by
  unfold readEntry
  split
  · rename_i hobject
    have hplan : isForOtherPlan plan entry = false := by
      cases entry with
      | object fields => simp [isObject] at hobject
      | null | bool _ | number _ | string _ | array _ => rfl
    exact ⟨.skipped, rfl, by simp [hplan], by simp⟩
  · split
    · rename_i hplan
      exact ⟨.otherPlan, rfl, by simp [hplan], by simp⟩
    · rename_i hplan
      set id := text x (Json.orElse (entry.get "id") (entry.get "sourceId")) MAX_SOURCE_ID
      obtain ⟨date, hdate, hisDate⟩ := dateOf_ok x entry id
      simp only [hdate, bind, Except.bind]
      cases date with
      | none => exact ⟨.skipped, rfl, by simp [hplan], by simp⟩
      | some date =>
        refine ⟨_, rfl, ?_, fun d hd => ?_⟩
        · split <;> simp [hplan]
        · split at hd
          · cases hd
          · rename_i hname
            cases hd
            exact dishOf_readAs x (text_length x _ _) hname (hisDate date rfl)

/-! ### All entries -/

theorem kept_append {plan : Units} {done : List Json} {a : Json} : Kept x plan (done ++ [a]) entry d ↔
    Kept x plan done entry d ∨ entry = a ∧ readEntry x plan a = .ok (.dish d) ∧
      ∀ earlier ∈ done, ∀ d', readEntry x plan earlier = .ok (.dish d') → d'.sourceId ≠ d.sourceId := by
  constructor
  · rintro ⟨before, rest, hsplit, hread, hfirst⟩
    rcases List.eq_nil_or_concat rest with rfl | ⟨rest, last, rfl⟩
    · obtain ⟨rfl, hlast⟩ := List.append_inj' hsplit rfl
      obtain rfl : a = entry := by simpa using hlast
      exact .inr ⟨rfl, hread, hfirst⟩
    · refine .inl ⟨before, rest, ?_, hread, hfirst⟩
      rw [List.concat_eq_append, ← List.cons_append, ← List.append_assoc] at hsplit
      exact (List.append_inj' hsplit rfl).1
  · rintro (⟨before, rest, rfl, hread, hfirst⟩ | ⟨rfl, hread, hfirst⟩)
    · exact ⟨before, rest ++ [a], by simp, hread, hfirst⟩
    · exact ⟨done, [], rfl, hread, hfirst⟩

theorem Kept.readAs {plan : Units} (h : Kept x plan entries entry d) : ReadAs entry d := by
  obtain ⟨-, -, -, hread, -⟩ := h
  obtain ⟨r, hr, -, hdish⟩ := readEntry_ok x plan entry
  exact hdish d (Except.ok.inj (hr.symm.trans hread))

/-- What the loop over the entries has made of those it has handled. -/
structure Gathered (x : Runtime) (plan : Units) (done : List Json) (p : ParsedSource) : Prop where
  ids : (p.dishes.map SourceDish.sourceId).Nodup
  counted : p.dishes.length + p.skipped + done.countP (isForOtherPlan plan) = done.length
  kept : ∀ d, d ∈ p.dishes ↔ ∃ entry, Kept x plan done entry d
  seen : ∀ entry ∈ done, ∀ d, readEntry x plan entry = .ok (.dish d) → d.sourceId ∈ p.dishes.map SourceDish.sourceId

variable {plan : Units} {done : List Json} {p : ParsedSource} {a : Json}

/-- An entry that adds no dish. -/
theorem Gathered.skip (h : Gathered x plan done p)
    (hnone : ∀ d, readEntry x plan a = .ok (.dish d) → d.sourceId ∈ p.dishes.map SourceDish.sourceId) {skipped : ℕ}
    (hcounted : p.dishes.length + skipped + (done ++ [a]).countP (isForOtherPlan plan) = (done ++ [a]).length) :
    Gathered x plan (done ++ [a]) { p with skipped := skipped } where
  ids := h.ids
  counted := hcounted
  kept := fun d => by
    rw [h.kept]
    refine exists_congr fun entry => ?_
    rw [kept_append]
    refine (or_iff_left ?_).symm
    rintro ⟨-, hread, hfirst⟩
    obtain ⟨d', hd', hid⟩ := List.mem_map.mp (hnone d hread)
    obtain ⟨earlier, before, rest, rfl, hread', -⟩ := (h.kept d').mp hd'
    exact hfirst earlier (by simp) d' hread' hid
  seen := fun entry hentry d hread => by
    rcases List.mem_append.mp hentry with hentry | hentry
    · exact h.seen entry hentry d hread
    · rw [List.mem_singleton.mp hentry] at hread
      exact hnone d hread

/-- An entry that adds a dish. -/
theorem Gathered.add (h : Gathered x plan done p) (hread : readEntry x plan a = .ok (.dish d)) (hplan : isForOtherPlan plan a = false)
    (hnew : d.sourceId ∉ p.dishes.map SourceDish.sourceId) : Gathered x plan (done ++ [a]) { p with dishes := p.dishes ++ [d] } where
  ids := by
    rw [List.map_append]
    exact h.ids.append (List.nodup_singleton _) (by simpa using hnew)
  counted := by
    have hcounted := h.counted
    simp only [List.length_append, List.length_singleton, List.countP_append, List.countP_singleton, hplan, Bool.false_eq_true, if_false]
    omega
  kept := fun d' => by
    rw [List.mem_append, h.kept, List.mem_singleton]
    constructor
    · rintro (⟨entry, hkept⟩ | rfl)
      · exact ⟨entry, kept_append.mpr (.inl hkept)⟩
      · refine ⟨a, kept_append.mpr (.inr ⟨rfl, hread, fun earlier hearlier d'' hread' heq => hnew ?_⟩)⟩
        rw [← heq]
        exact h.seen earlier hearlier d'' hread'
    · rintro ⟨entry, hkept⟩
      rcases kept_append.mp hkept with hkept | ⟨-, hread', -⟩
      · exact .inl ⟨entry, hkept⟩
      · rw [hread] at hread'
        cases hread'
        exact .inr rfl
  seen := fun entry hentry d' hread' => by
    rw [List.map_append, List.mem_append]
    rcases List.mem_append.mp hentry with hentry | hentry
    · exact .inl (h.seen entry hentry d' hread')
    · rw [List.mem_singleton.mp hentry, hread] at hread'
      cases hread'
      exact .inr (by simp)

theorem addEntry_gathered (h : Gathered x plan done p) (a : Json) :
    ∃ p', addEntry x plan p a = .ok p' ∧ Gathered x plan (done ++ [a]) p' := by
  obtain ⟨r, hr, hother, -⟩ := readEntry_ok x plan a
  have hcounted := h.counted
  simp only [addEntry, hr, bind, Except.bind]
  cases r with
  | skipped =>
    have hplan : isForOtherPlan plan a = false := by simpa using hother
    refine ⟨_, rfl, h.skip (fun d hread => by rw [hr] at hread; cases hread) ?_⟩
    simp only [List.length_append, List.length_singleton, List.countP_append, List.countP_singleton, hplan, Bool.false_eq_true, if_false]
    omega
  | otherPlan =>
    have hplan : isForOtherPlan plan a = true := hother.mp rfl
    refine ⟨_, rfl, h.skip (fun d hread => by rw [hr] at hread; cases hread) ?_⟩
    simp only [List.length_append, List.length_singleton, List.countP_append, List.countP_singleton, hplan, if_true]
    omega
  | dish d =>
    have hplan : isForOtherPlan plan a = false := by simpa using hother
    simp only
    split
    · rename_i hseen
      refine ⟨_, rfl, h.skip (fun d' hread => ?_) ?_⟩
      · rw [hr] at hread
        cases hread
        exact hseen
      · simp only [List.length_append, List.length_singleton, List.countP_append, List.countP_singleton, hplan, Bool.false_eq_true, if_false]
        omega
    · rename_i hnew
      exact ⟨_, rfl, h.add hr hplan hnew⟩

theorem gather_ok (x : Runtime) (plan : Units) (entries : List Json) :
    ∃ p, entries.foldlM (addEntry x plan) ⟨[], 0⟩ = .ok p ∧ Gathered x plan entries p := by
  refine foldlM_ok (P := Gathered x plan) ⟨List.nodup_nil, rfl, fun d => ?_, by simp⟩ fun done a rest p _ h => addEntry_gathered h a
  simp [Kept]

/-! ### Weeks -/

theorem mapM_ok {α β : Type} {f : α → Except Thrown β} {g : α → β} {l : List α} (h : ∀ a ∈ l, f a = .ok (g a)) : l.mapM f = .ok (l.map g) := by
  induction l with
  | nil => rfl
  | cons a l ih =>
    rw [List.mapM_cons, h a List.mem_cons_self, ih fun b hb => h b (List.mem_cons_of_mem _ hb)]
    rfl

/-- A dish with its week. -/
def placed (mondays : List ℤ) (d : SourceDish) : SourceDish :=
  if d.weekOrdinal ≠ 0 then d else { d with weekOrdinal := mondays.idxOf (mondayDay d.date) + 1 }

theorem placeWeeks_ok (hdates : ∀ d ∈ dishes, IsDate d.date) : ∃ mondays : List ℤ, mondays.length ≤ dishes.length ∧
    (∀ d ∈ dishes, mondayDay d.date ∈ mondays) ∧ placeWeeks dishes = .ok (dishes.map (placed mondays)) := by
  have hmondays : dishes.mapM (fun d => mondayOf d.date) = .ok (dishes.map fun d => mondayDay d.date) :=
    mapM_ok fun d hd => mondayOf_ok (hdates d hd)
  refine ⟨((dishes.map fun d => mondayDay d.date).dedup).insertionSort (· ≤ ·), ?_, fun d hd => ?_, ?_⟩
  · rw [List.length_insertionSort]
    exact (List.dedup_sublist _).length_le.trans (List.length_map _).le
  · rw [List.mem_insertionSort, List.mem_dedup]
    exact List.mem_map_of_mem hd
  · simp only [placeWeeks, hmondays, bind, Except.bind]
    refine mapM_ok fun d hd => ?_
    simp only [placed]
    split
    · rfl
    · rw [mondayOf_ok (hdates d hd)]
      rfl

/-- A week of its own that an entry gives its dish fits the column: 0 is none, and replaced. -/
theorem placed_storable {mondays : List ℤ} (hread : ReadAs entry d) (hmonday : mondayDay d.date ∈ mondays) (hfew : mondays.length ≤ MAX_DISHES) :
    Storable (placed mondays d) ↔ ∀ week, wholeWeek entry = some week → 0 ≤ week ∧ week ≤ MAX_INT := by
  have hsmall : (MAX_DISHES : ℤ) ≤ MAX_INT := by decide
  by_cases hzero : d.weekOrdinal = 0
  · have hplaced : placed mondays d = { d with weekOrdinal := mondays.idxOf (mondayDay d.date) + 1 } := by simp [placed, hzero]
    have hindex := List.idxOf_lt_length_of_mem hmonday
    constructor
    · intro _ week hweek
      rw [← hread.own week hweek, hzero]
      decide
    · intro _
      rw [hplaced]
      refine ⟨⟨hread.sourceId, hread.named, hread.names, hread.descs, hread.imageUrl, hread.category, hread.lists, hread.counts,
        hread.amounts, hread.date⟩, ?_⟩
      show (1 : ℤ) ≤ mondays.idxOf (mondayDay d.date) + 1 ∧ (mondays.idxOf (mondayDay d.date) + 1 : ℤ) ≤ MAX_INT
      omega
  · have hplaced : placed mondays d = d := by simp [placed, hzero]
    rw [hplaced]
    constructor
    · intro h week hweek
      rw [← hread.own week hweek]
      have hweek := h.week
      omega
    · intro h
      refine ⟨hread.toFits, ?_⟩
      cases hweek : wholeWeek entry with
      | none =>
        have hfromId := hread.fromId hweek
        have hlarge : (999 : ℤ) ≤ MAX_INT := by decide
        omega
      | some week =>
        have hown := hread.own week hweek
        have hbounds := h week hweek
        omega

/-! ### The source -/

theorem entriesOf_length (h : entriesOf x raw = .ok entries) : entries.length ≤ MAX_DISHES := by
  unfold entriesOf at h
  split at h
  · cases h
  · simp only at h
    split at h
    · split at h
      · cases h
      · rename_i hfits
        cases h
        exact not_lt.mp hfits
    · cases h

theorem entriesOf_refuses {thrown : Thrown} (h : entriesOf x raw = .error thrown) : ∃ message, thrown = .menuSourceError message := by
  unfold entriesOf at h
  split at h
  · cases h
    exact ⟨_, rfl⟩
  · simp only at h
    split at h
    · split at h
      · cases h
        exact ⟨_, rfl⟩
      · cases h
    · cases h
      exact ⟨_, rfl⟩

/-- A source is refused or read into dishes that can be stored, exactly when no entry that becomes a dish gives itself a week below 0 or
above what the column holds. -/
theorem parseMenuSource_iff (x : Runtime) (raw plan : Units) : ReadsStorable x raw plan ↔
    ∀ entries, entriesOf x raw = .ok entries → ∀ entry d, Kept x plan entries entry d →
      ∀ week, wholeWeek entry = some week → 0 ≤ week ∧ week ≤ MAX_INT := by
  unfold ReadsStorable
  cases hentries : entriesOf x raw with
  | error thrown =>
    have hparse : parseMenuSource x raw plan = .error thrown := by simp [parseMenuSource, hentries, bind, Except.bind]
    rw [hparse]
    constructor
    · intro _ entries h
      cases h
    · intro _
      exact entriesOf_refuses hentries
  | ok entries =>
    obtain ⟨p, hloop, hgathered⟩ := gather_ok x plan entries
    have hdates : ∀ d ∈ p.dishes, IsDate d.date := fun d hd => by
      obtain ⟨entry, hkept⟩ := (hgathered.kept d).mp hd
      exact hkept.readAs.date
    obtain ⟨mondays, hlength, hmondays, hplace⟩ := placeWeeks_ok hdates
    have hparse : parseMenuSource x raw plan = .ok { p with dishes := p.dishes.map (placed mondays) } := by
      simp [parseMenuSource, hentries, hloop, hplace, bind, Except.bind, pure, Except.pure]
    have hfew : mondays.length ≤ MAX_DISHES := by
      have hcounted := hgathered.counted
      have hentries := entriesOf_length hentries
      omega
    have hids : (p.dishes.map (placed mondays)).map SourceDish.sourceId = p.dishes.map SourceDish.sourceId := by
      rw [List.map_map]
      refine List.map_congr_left fun d _ => ?_
      simp only [Function.comp, placed]
      split <;> rfl
    have hstorable : ∀ entry d, Kept x plan entries entry d →
        (Storable (placed mondays d) ↔ ∀ week, wholeWeek entry = some week → 0 ≤ week ∧ week ≤ MAX_INT) := fun entry d hkept =>
      placed_storable hkept.readAs (hmondays d ((hgathered.kept d).mpr ⟨entry, hkept⟩)) hfew
    rw [hparse]
    constructor
    · rintro ⟨entries', hsame, hwhole⟩ entries'' hsame' entry d hkept
      obtain rfl := Except.ok.inj hsame'
      refine (hstorable entry d hkept).mp (hwhole.storable _ ?_)
      exact List.mem_map_of_mem ((hgathered.kept d).mpr ⟨entry, hkept⟩)
    · intro h
      refine ⟨entries, rfl, ?_, fun d' hd' => ?_, ?_⟩
      · rw [hids]
        exact hgathered.ids
      · obtain ⟨d, hd, rfl⟩ := List.mem_map.mp hd'
        obtain ⟨entry, hkept⟩ := (hgathered.kept d).mp hd
        exact (hstorable entry d hkept).mpr (h entries rfl entry d hkept)
      · simpa using hgathered.counted

/-- A source with one dish in the week -3. -/
def negativeWeek : Json :=
  .object [(units "name", .string (units "Pizza")), (units "date", .string (units "2026-03-02")), (units "week", .number (.finite (-3)))]

def negativeText : String := "[\x7b\"name\":\"Pizza\",\"date\":\"2026-03-02\",\"week\":-3\x7d]"

/-- It knows that one text. -/
def oneSource : Runtime where
  parse := fun raw => if raw = units negativeText then some (.array [negativeWeek]) else none
  numberText := fun _ => []
  numberOf := fun _ => .notANumber
  fold := fun s => s.map lowerUnit
  isWebAddress := fun _ => false

theorem week_below_zero :
    (parseMenuSource oneSource (units negativeText) (units "summer")).toOption.map (fun p => p.dishes.map (·.weekOrdinal)) = some [-3] ∧
      ¬ReadsStorable oneSource (units negativeText) (units "summer") := by
  have hweeks : (parseMenuSource oneSource (units negativeText) (units "summer")).toOption.map
      (fun p => p.dishes.map (·.weekOrdinal)) = some [-3] := by decide +kernel
  refine ⟨hweeks, fun h => ?_⟩
  unfold ReadsStorable at h
  cases hparse : parseMenuSource oneSource (units negativeText) (units "summer") with
  | error thrown =>
    rw [hparse] at hweeks
    cases hweeks
  | ok p =>
    simp only [hparse] at h
    rw [hparse] at hweeks
    obtain ⟨entries, -, hwhole⟩ := h
    have hweeks : p.dishes.map (·.weekOrdinal) = [-3] := Option.some.inj hweeks
    obtain ⟨d, hd, hweek⟩ := List.mem_map.mp (show (-3 : ℤ) ∈ p.dishes.map (·.weekOrdinal) by rw [hweeks]; simp)
    have hpositive := (hwhole.storable d hd).week.1
    omega

end Pokyh.Menu.Reading
