import Mathlib.Data.Nat.Digits.Lemmas
import Mathlib.Order.WithBot
import Pokyh.Menu.Reading

/-!
# Menu — Pdf

Reading a menu from where the text of its PDF stands on the page (`parseMenuPdf`, `utils/mensaPdf.ts`): a column for each week, a row
for each weekday, and lines of allergens.  Positions are exact numbers.
-/

namespace Pokyh.Menu.Pdf
open Pokyh.Lib Reading

structure PdfTextItem where
  str : Units
  x : ℚ
  y : ℚ
  width : ℚ
  deriving DecidableEq

/-- What the runtime provides: small and capital letters, and whether a text begins or ends with a letter. -/
structure Letters where
  lower : Units → Units
  upper : Units → Units
  startsWithLetter : Units → Bool
  endsInLetter : Units → Bool

structure Week where
  week : ℕ
  x : ℚ
  y : ℚ
  deriving DecidableEq

structure Row where
  label : Units
  y : ℚ
  deriving DecidableEq

structure Dish where
  sourceId : Units
  /-- In all three languages. -/
  name : Units
  description : Units
  allergens : Units
  isVegetarian : Bool
  date : ℤ
  weekOrdinal : ℕ
  deriving DecidableEq

inductive Season where
  | summer
  | winter
  deriving DecidableEq

structure PdfMenu where
  dishes : List Dish
  skipped : ℕ
  season : Option Season
  vegetarian : Bool
  validFrom : Option Units
  deriving DecidableEq

/-- `none` is what every object has, and is no list. -/
def WEEKDAYS : List (String × Option (ℤ × String)) :=
  [("montag", some (1, "mo")), ("dienstag", some (2, "di")), ("mittwoch", some (3, "mi")), ("donnerstag", some (4, "do")),
    ("freitag", some (5, "fr")), ("samstag", some (6, "sa")), ("sonntag", some (7, "so")), ("constructor", none), ("__proto__", none)]

def weekdayLabelled (label : Units) : Option (Option (ℤ × String)) := (WEEKDAYS.find? (units ·.1 = label)).map (·.2)

/-- The months in two digits; the last is what every object has, as text. -/
def MONTHS : List (String × String) :=
  [("januar", "01"), ("jänner", "01"), ("februar", "02"), ("feber", "02"), ("märz", "03"), ("april", "04"), ("mai", "05"),
    ("juni", "06"), ("juli", "07"), ("august", "08"), ("september", "09"), ("oktober", "10"), ("november", "11"), ("dezember", "12"),
    ("constructor", "function Object() \x7b [native code] \x7d")]

def ALLERGENS : List (String × String) :=
  [("A", "Gluten"), ("B", "Krebstiere"), ("C", "Eier"), ("D", "Fisch"), ("E", "Erdnüsse"), ("F", "Soja"), ("G", "Milch"),
    ("H", "Schalenfrüchte"), ("L", "Sellerie"), ("M", "Senf"), ("N", "Sesam"), ("O", "Sulfite"), ("P", "Lupinen"), ("R", "Weichtiere")]

def LINE_TOLERANCE : ℚ := 3

variable (x : Letters)

/-! ### Texts -/

/-- Small letters, as expressions without regard to case compare them. -/
def foldUnit (u : UInt16) : UInt16 := if u = 0xDC then 0xFC else lowerUnit u

/-- The words with single spaces. -/
def clean (s : Units) : Units := List.intercalate [32] ((s.splitOnP isSpaceUnit).filter fun word => !word.isEmpty)

def center (i : PdfTextItem) : ℚ := i.x + i.width / 2

/-- A line of a cell gets an item, or the item begins a new one. -/
def addToLines (item : PdfTextItem) : List (ℚ × List PdfTextItem) → List (ℚ × List PdfTextItem)
  | [] => [(item.y, [item])]
  | line :: lines =>
    if |line.1 - item.y| ≤ LINE_TOLERANCE then (line.1, line.2 ++ [item]) :: lines else line :: addToLines item lines

/-- The items of a cell as lines, top to bottom. -/
def linesOf (items : List PdfTextItem) : List Units :=
  let lines := (items.insertionSort (·.y ≤ ·.y)).foldl (fun lines item => addToLines item lines) []
  (lines.map fun line => clean (List.intercalate [32] ((line.2.insertionSort (·.x ≤ ·.x)).map PdfTextItem.str))).filter fun s => !s.isEmpty

/-- A word split at the end of a line. -/
def joinWrapped (before : Units) : Units → Units
  | [] => []
  | u :: us =>
    if u = 10 ∧ before.getLast? = some 45 ∧ x.endsInLetter before.dropLast ∧ x.startsWithLetter us then joinWrapped (before ++ [u]) us
    else u :: joinWrapped (before ++ [u]) us

/-- How long "Gemüse / Salat" is, if the text begins with it. -/
def sideDishAt (us : Units) : Option ℕ :=
  if (us.take 6).map foldUnit = units "gemüse" then
    let before := (us.drop 6).takeWhile isSpaceUnit
    match (us.drop 6).dropWhile isSpaceUnit with
    | 47 :: rest =>
      let behind := rest.takeWhile isSpaceUnit
      if ((rest.dropWhile isSpaceUnit).take 5).map foldUnit = units "salat" then some (6 + before.length + 1 + behind.length + 5) else none
    | _ => none
  else none

/-- What is before it, itself, and what is behind it. -/
def findSideDish : Units → Option (Units × Units × Units)
  | [] => none
  | u :: us =>
    match sideDishAt (u :: us) with
    | some n => some ([], (u :: us).take n, (u :: us).drop n)
    | none => (findSideDish us).map fun found => (u :: found.1, found.2)

/-- The first slash between single spaces. -/
def spacedSlash (us : Units) : Units :=
  ((us.takeWhile (· ≠ 47)).reverse.dropWhile isSpaceUnit).reverse ++ [32, 47, 32] ++ ((us.dropWhile (· ≠ 47)).drop 1).dropWhile isSpaceUnit

/-- "Farfalle mit Lachssauce / Gemüse / Salat / Fruchtjogurt" as name and the rest. -/
def splitCell (lines : List Units) : Units × Units :=
  let text := joinWrapped x [] (List.intercalate [10] lines)
  match findSideDish text with
  | none => (clean text, [])
  | some (before, side, behind) =>
    let after := (behind.splitOn 10).map clean
    let sides := clean (spacedSlash (clean side) ++ [32] ++ (after.head?).getD [])
    (clean before, List.intercalate (units " · ") (sides :: (after.drop 1).filter fun s => !s.isEmpty))

def isCapital (u : UInt16) : Bool := 65 ≤ u && u ≤ 90

def isWordUnit (u : UInt16) : Bool := isLetter u || isDigit u || u = 95

/-- Capital letters that stand alone; `before`: what stands before is part of a word. -/
def loneLetters (before : Bool) : Units → List UInt16
  | [] => []
  | u :: us =>
    if isCapital u && !before && !(us.head?.any isWordUnit) then u :: loneLetters true us else loneLetters (isWordUnit u) us

def allergensOf (text : Units) : Units :=
  let letters := (loneLetters false (x.upper text)).reverse.dedup.reverse
  stringify (letters.map fun l => ((ALLERGENS.find? (units ·.1 = [l])).map fun a => units a.2).getD [l])

/-- `needle` in small letters is somewhere in the text. -/
def holds (needle : String) (text : Units) : Bool := text.tails.any fun us => (units needle).isPrefixOf (us.map foldUnit)

def isMonthLetter (u : UInt16) : Bool := isLetter u || u ∈ units "ÄÖÜäöü"

/-- One or two digits, a dot and the letters behind it. -/
def dayAndMonth (us : Units) : Option (ℕ × Units × Units) := do
  let digits := us.takeWhile isDigit
  let rest := us.dropWhile isDigit
  let name := (rest.drop 1).dropWhile isSpaceUnit
  if 1 ≤ digits.length ∧ digits.length ≤ 2 ∧ rest.head? = some 46 ∧ (name.takeWhile isMonthLetter) ≠ [] then
    return (← digitsOf digits, name.takeWhile isMonthLetter, name.dropWhile isMonthLetter)
  else none

/-- "1. November bis 31. März" at the beginning. -/
def periodAt (us : Units) : Option (ℕ × Units) := do
  let (day, month, rest) ← dayAndMonth us
  let bis := rest.dropWhile isSpaceUnit
  let last := bis.drop 3
  if rest.head?.any isSpaceUnit ∧ bis.take 3 = units "bis" ∧ last.head?.any isSpaceUnit then
    let _ ← dayAndMonth (last.dropWhile isSpaceUnit)
    return (day, month)
  else none

def validFromOf (text : Units) : Option Units := do
  let (day, name) ← text.tails.findSome? periodAt
  let month ← MONTHS.find? (units ·.1 = x.lower name)
  if 1 ≤ day ∧ day ≤ 31 then return units s!"{month.2}-{day / 10}{day % 10}" else none

/-- The number of "6. Woche". -/
def weekHeading (s : Units) : Option ℕ :=
  match s.takeWhile isDigit, s.dropWhile isDigit with
  | d :: digits, 46 :: name => if (name.dropWhile isSpaceUnit).map lowerUnit = units "woche" then digitsOf (d :: digits) else none
  | _, _ => none

/-! ### The grid -/

/-- What is found on the page: the weeks from left to right, the rows from top to bottom, and the lines of allergens. -/
structure Grid where
  items : List PdfTextItem
  weeks : List Week
  rows : List Row
  marks : List ℚ

def weeksOf (items : List PdfTextItem) : List Week :=
  (items.filterMap fun i => (weekHeading (clean i.str)).map fun week => ⟨week, center i, i.y⟩).insertionSort (·.x ≤ ·.x)

def rowsOf (items : List PdfTextItem) (weeks : List Week) : List Row :=
  ((items.filter fun i => (weekdayLabelled (x.lower (clean i.str))).isSome && weeks.head?.any (center i < ·.x)).map fun i =>
    (⟨x.lower (clean i.str), i.y⟩ : Row)).insertionSort (·.y ≤ ·.y)

def marksOf (items : List PdfTextItem) : List ℚ :=
  ((items.filter fun i => (clean i.str).map lowerUnit = units "allergene").map PdfTextItem.y).insertionSort (· ≤ ·)

def gridOf (pages : List (List PdfTextItem)) : Grid :=
  let items := (pages.find? fun page => page.any fun i => (weekHeading (clean i.str)).isSome).getD []
  let weeks := weeksOf items
  ⟨items, weeks, rowsOf x items weeks, marksOf items⟩

def Grid.step (g : Grid) : ℚ :=
  match g.weeks, g.weeks.getLast? with
  | first :: _ :: _, some last => (last.x - first.x) / (g.weeks.length - 1)
  | _, _ => 120

/-- The place of the column of a position. -/
def Grid.columnOf (g : Grid) (x : ℚ) : Option ℕ := g.weeks.findIdx? fun w => |x - w.x| ≤ g.step / 2

/-- The line a row ends with; without one, half way to the next row, and for the last row none. -/
def endOf (marks : List ℚ) (row : Row) (next : Option Row) : WithTop ℚ :=
  match marks.find? (row.y < ·) with
  | some mark => mark
  | none => match next with
    | some next => ((row.y + next.y) / 2 : ℚ)
    | none => ⊤

/-- A row between two lines: `LINE_TOLERANCE` below the one and above the other. -/
structure Band where
  row : Row
  upper : WithTop ℚ
  lower : WithTop ℚ
  deriving DecidableEq

def Band.has (b : Band) (y : ℚ) : Prop := b.upper < ((y - LINE_TOLERANCE : ℚ) : WithTop ℚ) ∧ ((y + LINE_TOLERANCE : ℚ) : WithTop ℚ) < b.lower

instance (b : Band) (y : ℚ) : Decidable (b.has y) := inferInstanceAs (Decidable (_ ∧ _))

/-- The item stands in the line that the row ends with. -/
def Band.ends (b : Band) (y : ℚ) : Prop := ∃ lower : ℚ, b.lower = lower ∧ |y - lower| ≤ LINE_TOLERANCE

instance (b : Band) (y : ℚ) : Decidable (b.ends y) :=
  match hlower : b.lower with
  | none => isFalse fun ⟨lower, h, _⟩ => by
      rw [hlower] at h
      cases h
  | some lower => decidable_of_iff (|y - lower| ≤ LINE_TOLERANCE) ⟨fun h => ⟨lower, hlower, h⟩, fun ⟨lower', h, hle⟩ => by
      rw [hlower] at h
      cases h
      exact hle⟩

def bandsFrom (marks : List ℚ) (upper : WithTop ℚ) : List Row → List Band
  | [] => []
  | row :: rows => let lower := endOf marks row rows.head?; ⟨row, upper, lower⟩ :: bandsFrom marks lower rows

/-- The first row begins below the heading of the first week. -/
def Grid.bands (g : Grid) : List Band := bandsFrom g.marks ((g.weeks.head?.elim 0 Week.y : ℚ)) g.rows

/-- A band and a week, with the place of its column. -/
structure Cell where
  band : Band
  week : Week
  column : ℕ

def Grid.cells (g : Grid) : List Cell := g.bands.flatMap fun band => g.weeks.zipIdx.map fun week => ⟨band, week.1, week.2⟩

def Grid.inColumn (g : Grid) (c : Cell) : List PdfTextItem := g.items.filter fun i => g.columnOf (center i) = some c.column

def Grid.heading (g : Grid) : Units :=
  let above := g.items.filter fun i => i.y < g.weeks.head?.elim 0 Week.y - LINE_TOLERANCE
  clean (List.intercalate [32] ((above.insertionSort fun a b => a.y < b.y ∨ (a.y = b.y ∧ a.x ≤ b.x)).map PdfTextItem.str))

def Grid.vegetarian (g : Grid) : Bool := holds "vegetarisch" g.heading

/-- Name and description of a cell. -/
def Grid.textOf (g : Grid) (c : Cell) : Units × Units := splitCell x (linesOf ((g.inColumn c).filter fun i => c.band.has i.y))

def decimals (n : ℕ) : Units := if n = 0 then [48] else (Nat.digits 10 n).reverse.map fun d => (48 + d).toUInt16

def idOf (week : ℕ) (code : String) : Units := 119 :: decimals week ++ 95 :: units code

/-- `none` where the cell is skipped. -/
def Grid.readCell (g : Grid) (c : Cell) : Except Thrown (Option Dish) :=
  match weekdayLabelled c.band.row.label with
  | some (some (weekday, code)) => do
    let cell := g.textOf x c
    match ← dayFromWeek c.week.week weekday with
    | none => return none
    | some date =>
      if cell.1 = [] then return none
      else
        let allergens := List.intercalate [32] (((g.inColumn c).filter fun i => c.band.ends i.y).map PdfTextItem.str)
        return some
          { sourceId := idOf c.week.week code
            name := cell.1.take 500
            description := cell.2.take 2000
            allergens := allergensOf x allergens
            isVegetarian := g.vegetarian
            date := date
            weekOrdinal := c.week.week }
  | _ => .error .typeError

/-- Reads a plan from the text of its PDF. -/
def parseMenuPdf (pages : List (List PdfTextItem)) : Except Thrown PdfMenu :=
  let g := gridOf x pages
  if g.weeks = [] ∨ g.rows = [] then .error (.menuSourceError "Im PDF wurde kein Wochenplan gefunden")
  else do
    let cells ← g.cells.mapM (g.readCell x)
    return {
        dishes := cells.filterMap fun dish => dish
        skipped := cells.countP (·.isNone)
        season := if holds "sommer" g.heading then some .summer else if holds "winter" g.heading then some .winter else none
        vegetarian := g.vegetarian
        validFrom := validFromOf x g.heading
      }

/-! ### What should hold -/

/-- A dish is made of the cell. -/
def Grid.isDish (g : Grid) (c : Cell) : Bool :=
  match g.readCell x c with
  | .ok (some _) => true
  | _ => false

/-- The item goes into the cell's dish: into its name and description, or its allergens. -/
def Grid.Uses (g : Grid) (c : Cell) (item : PdfTextItem) : Prop := item ∈ g.inColumn c ∧ (c.band.has item.y ∨ c.band.ends item.y)

/-- Every cell is read for its own week and day. -/
structure ReadsCells (g : Grid) (menu : PdfMenu) : Prop where
  disjoint : g.bands.Pairwise fun b b' => ∀ y, ¬(b.has y ∧ b'.has y)
  own : ∀ b ∈ g.bands, b.has b.row.y
  others : g.bands.Pairwise fun b b' => ¬b.has b'.row.y ∧ ¬b'.has b.row.y
  once : (g.cells.filter (g.isDish x)).Pairwise fun c c' => ∀ item, ¬(g.Uses c item ∧ g.Uses c' item)
  ids : (menu.dishes.map Dish.sourceId).Nodup

/-- A line of allergens lies between the row's label and the next one, at a distance from both; where none lies below, the next label is
twice as far. -/
def Closes (marks : List ℚ) (row : Row) (next : Option Row) : Prop :=
  match marks.find? (row.y < ·) with
  | some mark => row.y + LINE_TOLERANCE < mark ∧ ∀ n ∈ next, mark + LINE_TOLERANCE < n.y
  | none => ∀ n ∈ next, row.y + 2 * LINE_TOLERANCE < n.y

def AllClose (marks : List ℚ) : List Row → Prop
  | [] => True
  | row :: rows => Closes marks row rows.head? ∧ AllClose marks rows

/-- The first label is below the first week's heading, and every row closes. -/
def Grid.Spaced (g : Grid) : Prop :=
  (∀ row ∈ g.rows.head?, g.weeks.head?.elim 0 Week.y + LINE_TOLERANCE < row.y) ∧ AllClose g.marks g.rows

/-- The cell names a dish, in a week that there is. -/
def Grid.hasText (g : Grid) (c : Cell) : Bool := !(g.textOf x c).1.isEmpty && 0 < c.week.week && c.week.week < 1000

/-- No two cells with a dish have the same week and weekday. -/
def Grid.Distinct (g : Grid) : Prop := ((g.cells.filter (g.hasText x)).map fun c => (c.week.week, c.band.row.label)).Nodup

variable {x} {marks : List ℚ} {row row' : Row} {next : Option Row} {rows : List Row} {upper : WithTop ℚ} {b b' : Band} {g : Grid} {c c' : Cell}
  {a y m : ℚ} {pages : List (List PdfTextItem)} {menu : PdfMenu}

/-! ### The ends of the rows -/

theorem find_of_le (hsorted : marks.Pairwise (· ≤ ·)) (hle : a ≤ y) (hfind : marks.find? (a < ·) = some m) (hlt : y < m) :
    marks.find? (y < ·) = some m := by
  induction marks with
  | nil => cases hfind
  | cons mark marks ih =>
    obtain ⟨-, hrest⟩ := List.pairwise_cons.mp hsorted
    by_cases hmark : a < mark
    · rw [List.find?_cons_of_pos (by simpa using hmark)] at hfind
      obtain rfl := Option.some.inj hfind
      exact List.find?_cons_of_pos (by simpa using hlt)
    · rw [List.find?_cons_of_neg (by simpa using hmark)] at hfind
      rw [List.find?_cons_of_neg (by simpa using (not_lt.mp hmark).trans hle)]
      exact ih hrest hfind

theorem find_none_of_le (hle : a ≤ y) (hfind : marks.find? (a < ·) = none) : marks.find? (y < ·) = none := by
  rw [List.find?_eq_none] at hfind ⊢
  intro mark hmark
  simpa using (not_lt.mp (by simpa using hfind mark hmark)).trans hle

theorem le_endOf (hnext : ∀ n ∈ next, row.y ≤ n.y) : (row.y : WithTop ℚ) ≤ endOf marks row next := by
  unfold endOf
  cases hfind : marks.find? (row.y < ·) with
  | some mark =>
    have hlt : row.y < mark := by simpa using List.find?_some hfind
    exact WithTop.coe_le_coe.mpr hlt.le
  | none =>
    cases next with
    | none => exact le_top
    | some n =>
      have hle := hnext n rfl
      exact WithTop.coe_le_coe.mpr (by linarith)

/-- The next row does not end before this one. -/
theorem endOf_le_endOf (hsorted : marks.Pairwise (· ≤ ·)) (hle : row.y ≤ row'.y) (hnext : ∀ n ∈ next, row'.y ≤ n.y) :
    endOf marks row (some row') ≤ endOf marks row' next := by
  cases hfind : marks.find? (row.y < ·) with
  | some mark =>
    have hend : endOf marks row (some row') = (mark : WithTop ℚ) := by simp [endOf, hfind]
    rw [hend]
    rcases lt_or_ge row'.y mark with hlt | hge
    · simp [endOf, find_of_le hsorted hle hfind hlt]
    · exact (WithTop.coe_le_coe.mpr hge).trans (le_endOf hnext)
  | none =>
    have hend : endOf marks row (some row') = (((row.y + row'.y) / 2 : ℚ) : WithTop ℚ) := by simp [endOf, hfind]
    rw [hend]
    refine le_trans ?_ (le_endOf hnext)
    exact WithTop.coe_le_coe.mpr (by linarith)

/-- The bands lie below the line above the first of them. -/
theorem bandsFrom_upper (hsorted : marks.Pairwise (· ≤ ·)) (hrows : rows.Pairwise (·.y ≤ ·.y))
    (hupper : ∀ row ∈ rows.head?, upper ≤ endOf marks row rows.tail.head?) : ∀ b ∈ bandsFrom marks upper rows, upper ≤ b.upper := by
  induction rows generalizing upper with
  | nil => simp [bandsFrom]
  | cons row rows ih =>
    obtain ⟨hbehind, hrest⟩ := List.pairwise_cons.mp hrows
    intro b hb
    rcases List.mem_cons.mp hb with rfl | hb
    · exact le_rfl
    · have hfirst := hupper row rfl
      refine hfirst.trans (ih hrest (fun row' hrow' => ?_) b hb)
      have hmem := List.mem_of_head? hrow'
      rw [List.tail_cons, hrow']
      refine endOf_le_endOf hsorted (hbehind row' hmem) fun n hn => ?_
      cases rows with
      | nil => cases hrow'
      | cons r rows =>
        cases hrow'
        exact (List.pairwise_cons.mp hrest).1 n (List.mem_of_head? hn)

/-- The bands are one below the other. -/
theorem bandsFrom_pairwise (hsorted : marks.Pairwise (· ≤ ·)) (hrows : rows.Pairwise (·.y ≤ ·.y)) :
    (bandsFrom marks upper rows).Pairwise fun b b' => b.lower ≤ b'.upper := by
  induction rows generalizing upper with
  | nil => exact .nil
  | cons row rows ih =>
    obtain ⟨hbehind, hrest⟩ := List.pairwise_cons.mp hrows
    refine .cons (bandsFrom_upper hsorted hrest fun row' hrow' => ?_) (ih hrest)
    rw [hrow']
    refine endOf_le_endOf hsorted (hbehind row' (List.mem_of_head? hrow')) fun n hn => ?_
    cases rows with
    | nil => cases hrow'
    | cons r rows =>
      cases hrow'
      exact (List.pairwise_cons.mp hrest).1 n (List.mem_of_head? hn)

/-- What is found on a page is in order. -/
structure Grid.Ordered (g : Grid) : Prop where
  marks : g.marks.Pairwise (· ≤ ·)
  rows : g.rows.Pairwise (·.y ≤ ·.y)

theorem gridOf_ordered (x : Letters) (pages : List (List PdfTextItem)) : (gridOf x pages).Ordered := by
  have : Std.Total fun a b : Row => a.y ≤ b.y := ⟨fun a b => le_total a.y b.y⟩
  have : IsTrans Row fun a b => a.y ≤ b.y := ⟨fun _ _ _ => le_trans⟩
  exact ⟨List.pairwise_insertionSort _ _, List.pairwise_insertionSort _ _⟩

theorem bands_pairwise (hg : g.Ordered) : g.bands.Pairwise fun b b' => b.lower ≤ b'.upper := bandsFrom_pairwise hg.marks hg.rows

theorem Band.lt_of_has (hle : b.lower ≤ b'.upper) (hy : b.has y) (ha : b'.has a) : y + LINE_TOLERANCE < a - LINE_TOLERANCE :=
  WithTop.coe_lt_coe.mp (hy.2.trans (hle.trans_lt ha.1))

theorem not_both_have (hle : b.lower ≤ b'.upper) (y : ℚ) : ¬(b.has y ∧ b'.has y) := by
  rintro ⟨hy, hy'⟩
  have hlt := Band.lt_of_has hle hy hy'
  simp only [LINE_TOLERANCE] at hlt
  linarith

/-! ### The labels -/

/-- A row closes exactly when it ends far enough below its label and above the next one. -/
theorem closes_iff : Closes marks row next ↔ ((row.y + LINE_TOLERANCE : ℚ) : WithTop ℚ) < endOf marks row next ∧
    ∀ n ∈ next, endOf marks row next < ((n.y - LINE_TOLERANCE : ℚ) : WithTop ℚ) := by
  unfold Closes endOf
  cases marks.find? (row.y < ·) with
  | some mark =>
    simp only [WithTop.coe_lt_coe]
    exact and_congr_right fun _ => forall₂_congr fun n _ => by rw [lt_sub_iff_add_lt]
  | none =>
    cases next with
    | none => simp
    | some n =>
      simp only [Option.mem_def, Option.some.injEq, forall_eq', WithTop.coe_lt_coe, LINE_TOLERANCE]
      constructor
      · intro h
        constructor <;> linarith
      · rintro ⟨h, -⟩
        linarith

/-- Every label is in its band exactly when every row closes, the first one below the line above it. -/
theorem bandsFrom_own : (∀ b ∈ bandsFrom marks upper rows, b.has b.row.y) ↔
    (∀ row ∈ rows.head?, upper < ((row.y - LINE_TOLERANCE : ℚ) : WithTop ℚ)) ∧ AllClose marks rows := by
  induction rows generalizing upper with
  | nil => simp [bandsFrom, AllClose]
  | cons row rows ih =>
    rw [bandsFrom, List.forall_mem_cons, ih, AllClose, closes_iff, List.head?_cons]
    simp only [Band.has, Option.mem_def, Option.some.injEq, forall_eq']
    tauto

theorem own_iff (g : Grid) : (∀ b ∈ g.bands, b.has b.row.y) ↔ g.Spaced := by
  rw [Grid.bands, bandsFrom_own, Grid.Spaced]
  refine and_congr_left fun _ => forall₂_congr fun row _ => ?_
  rw [WithTop.coe_lt_coe, lt_sub_iff_add_lt]

/-- Where every label is in its own band, none is in another. -/
theorem others_of_own (hg : g.Ordered) (hown : ∀ b ∈ g.bands, b.has b.row.y) :
    g.bands.Pairwise fun b b' => ¬b.has b'.row.y ∧ ¬b'.has b.row.y := by
  refine (bands_pairwise hg).imp_of_mem fun {b b'} hb hb' hle => ⟨fun h => ?_, fun h => ?_⟩
  · exact not_both_have hle _ ⟨h, hown b' hb'⟩
  · exact not_both_have hle _ ⟨hown b hb, h⟩

/-! ### The items -/

theorem linesOf_nil : linesOf [] = [] := rfl

theorem splitCell_nil (x : Letters) : (splitCell x []).1 = [] := rfl

/-- A cell with a name has an item in its band. -/
theorem exists_item_of_name (hname : (g.textOf x c).1 ≠ []) : ∃ y, c.band.has y := by
  by_contra hnone
  refine hname ?_
  have hempty : (g.inColumn c).filter (fun i => decide (c.band.has i.y)) = [] :=
    List.filter_eq_nil_iff.mpr fun item _ => by simpa using fun h => hnone ⟨item.y, h⟩
  rw [Grid.textOf, hempty, linesOf_nil, splitCell_nil]

theorem isDish_name (h : g.isDish x c = true) : (g.textOf x c).1 ≠ [] := by
  intro hempty
  unfold Grid.isDish Grid.readCell at h
  split at h
  · rename_i dish hread
    split at hread
    · rename_i weekday code _
      cases hdate : dayFromWeek c.week.week weekday with
      | error thrown => simp [hdate, bind, Except.bind] at hread
      | ok date => cases date <;> simp [hdate, hempty, bind, Except.bind, pure, Except.pure] at hread
    · cases hread
  · cases h

/-- Below a band and in or at the end of it, an item is not in or at the end of a lower one that has any. -/
theorem not_both_use (hle : b.lower ≤ b'.upper) (hsome : ∃ a, b'.has a) (y : ℚ) :
    ¬((b.has y ∨ b.ends y) ∧ (b'.has y ∨ b'.ends y)) := by
  rintro ⟨hy, hy'⟩
  obtain ⟨a, ha⟩ := hsome
  simp only [Band.has, Band.ends, LINE_TOLERANCE] at *
  -- The line above the lower band is a number.
  obtain ⟨upper', hupper⟩ := WithTop.ne_top_iff_exists.mp (ha.1.trans_le le_top).ne
  obtain ⟨lower, hlower⟩ := WithTop.ne_top_iff_exists.mp (hle.trans_lt (ha.1.trans_le le_top)).ne
  rw [← hupper, WithTop.coe_lt_coe] at ha
  rw [← hupper, ← hlower, WithTop.coe_le_coe] at hle
  rw [← hlower] at hy
  rw [← hupper, WithTop.coe_lt_coe] at hy'
  have hnear : y ≤ lower + 3 := by
    rcases hy with ⟨-, h⟩ | ⟨l, hl, h⟩
    · have := WithTop.coe_lt_coe.mp h
      linarith
    · obtain rfl := WithTop.coe_inj.mp hl
      linarith [(abs_le.mp h).2]
  rcases hy' with ⟨h, -⟩ | ⟨lower', hlower', h⟩
  · linarith
  · have hlow := ha.2
    rw [hlower', WithTop.coe_lt_coe] at hlow
    linarith [(abs_le.mp h).1]

/-- Every item goes into one dish at most. -/
theorem once_of_ordered (x : Letters) (hg : g.Ordered) :
    (g.cells.filter (g.isDish x)).Pairwise fun c c' => ∀ item, ¬(g.Uses c item ∧ g.Uses c' item) := by
  rw [List.pairwise_filter, Grid.cells, List.pairwise_flatMap]
  constructor
  · intro band _
    -- In one band the columns are different.
    have hcolumns : (g.weeks.zipIdx.map Prod.snd).Nodup := by
      rw [List.zipIdx_map_snd]
      exact List.nodup_range'
    rw [List.Nodup, List.pairwise_map] at hcolumns
    refine List.pairwise_map.mpr (hcolumns.imp fun {week week'} hne _ _ item => ?_)
    rintro ⟨⟨hmem, -⟩, hmem', -⟩
    have hcolumn : g.columnOf (center item) = some week.2 := by simpa using (List.mem_filter.mp hmem).2
    have hcolumn' : g.columnOf (center item) = some week'.2 := by simpa using (List.mem_filter.mp hmem').2
    exact hne (Option.some.inj (hcolumn.symm.trans hcolumn'))
  · refine (bands_pairwise hg).imp fun hle c hc c' hc' _ hdish' item => ?_
    obtain ⟨week, -, rfl⟩ := List.mem_map.mp hc
    obtain ⟨week', -, rfl⟩ := List.mem_map.mp hc'
    rintro ⟨⟨-, huses⟩, -, huses'⟩
    exact not_both_use hle (exists_item_of_name (isDish_name hdish')) item.y ⟨huses, huses'⟩

/-! ### The ids -/

theorem decimals_eq {n : ℕ} (hn : 0 < n) : (decimals n).map (fun u => u.toNat - 48) = (Nat.digits 10 n).reverse := by
  rw [decimals, if_neg hn.ne', List.map_map]
  conv_rhs => rw [← List.map_id (Nat.digits 10 n).reverse]
  refine List.map_congr_left fun d hd => ?_
  have hlt : d < 10 := Nat.digits_lt_base (by decide) (List.mem_reverse.mp hd)
  have hall : ∀ d < 10, (48 + d).toUInt16.toNat - 48 = d := by decide
  exact hall d hlt

theorem decimals_ne_underscore {n : ℕ} {u : UInt16} (h : u ∈ decimals n) : u ≠ 95 := by
  unfold decimals at h
  split at h
  · rw [List.mem_singleton.mp h]
    decide
  · obtain ⟨d, hd, rfl⟩ := List.mem_map.mp h
    have hlt : d < 10 := Nat.digits_lt_base (by decide) (List.mem_reverse.mp hd)
    have hall : ∀ d < 10, (48 + d).toUInt16 ≠ 95 := by decide
    exact hall d hlt

/-- An id has the week and the weekday in it. -/
theorem idOf_inj {week week' : ℕ} {code code' : String} (hweek : 0 < week) (hweek' : 0 < week') (h : idOf week code = idOf week' code') :
    week = week' ∧ units code = units code' := by
  have hrest : decimals week ++ 95 :: units code = decimals week' ++ 95 :: units code' := (List.cons.inj h).2
  have hfirst : ∀ n rest, (decimals n ++ 95 :: rest).takeWhile (· ≠ 95) = decimals n := by
    intro n rest
    rw [List.takeWhile_append_of_pos fun u hu => by simpa using decimals_ne_underscore hu]
    simp
  have hdecimals : decimals week = decimals week' := by rw [← hfirst week (units code), hrest, hfirst]
  constructor
  · have hdigits := congrArg (List.map fun u => u.toNat - 48) hdecimals
    rw [decimals_eq hweek, decimals_eq hweek', List.reverse_inj] at hdigits
    exact Nat.digits_inj_iff.mp hdigits
  · rw [hdecimals, List.append_cancel_left_eq] at hrest
    exact (List.cons.inj hrest).2

theorem weekdayLabelled_mem {label : Units} {weekday : Option (ℤ × String)} (h : weekdayLabelled label = some weekday) :
    ∃ name, (name, weekday) ∈ WEEKDAYS ∧ units name = label := by
  obtain ⟨entry, hfind, rfl⟩ := Option.map_eq_some_iff.mp h
  exact ⟨entry.1, List.mem_of_find?_eq_some hfind, by simpa using List.find?_some hfind⟩

/-- The codes of the weekdays are different. -/
theorem label_eq_of_code {label label' : Units} {weekday weekday' : ℤ} {code code' : String}
    (h : weekdayLabelled label = some (some (weekday, code))) (h' : weekdayLabelled label' = some (some (weekday', code')))
    (hcode : units code = units code') : label = label' := by
  have hall : ∀ e ∈ WEEKDAYS, ∀ e' ∈ WEEKDAYS, e.2.isSome → e'.2.isSome →
      e.2.map (fun w => units w.2) = e'.2.map (fun w => units w.2) → e.1 = e'.1 := by decide +kernel
  obtain ⟨name, hmem, rfl⟩ := weekdayLabelled_mem h
  obtain ⟨name', hmem', rfl⟩ := weekdayLabelled_mem h'
  have hname : name = name' := hall _ hmem _ hmem' rfl rfl (by simpa using hcode)
  rw [hname]

theorem weekday_bounds {label : Units} {weekday : ℤ} {code : String} (h : weekdayLabelled label = some (some (weekday, code))) :
    0 < weekday ∧ weekday ≤ 7 := by
  have hall : ∀ e ∈ WEEKDAYS, ∀ w ∈ e.2, 0 < w.1 ∧ w.1 ≤ 7 := by decide
  obtain ⟨name, hmem, -⟩ := weekdayLabelled_mem h
  exact hall _ hmem _ rfl

/-- The code of a label; any text for what is none. -/
def codeOf (label : Units) : String := (weekdayLabelled label).elim "" fun weekday => weekday.elim "" (·.2)

/-- A cell that is read is a dish when it has a text, and its id is of its week and weekday. -/
theorem readCell_ok {r : Option Dish} (h : g.readCell x c = .ok r) : (∃ w, weekdayLabelled c.band.row.label = some (some w)) ∧
    (g.isDish x c = g.hasText x c) ∧ r.map Dish.sourceId = if g.hasText x c then some (idOf c.week.week (codeOf c.band.row.label)) else none := by
  have hdish : g.isDish x c = r.isSome := by
    unfold Grid.isDish
    rw [h]
    cases r <;> rfl
  unfold Grid.readCell at h
  split at h
  · rename_i weekday code hlabel
    obtain ⟨hpos, hle⟩ := weekday_bounds hlabel
    have hcode : codeOf c.band.row.label = code := by simp [codeOf, hlabel]
    refine ⟨⟨_, hlabel⟩, ?_⟩
    rw [hdish, hcode]
    by_cases hweek : 0 < c.week.week ∧ c.week.week < 1000
    · have hweek' : (0 : ℤ) < c.week.week ∧ (c.week.week : ℤ) < 1000 ∧ 0 < weekday := ⟨by omega, by omega, hpos⟩
      have hreference : REFERENCE_MONDAY = 11323 := by decide +kernel
      have hdate : Reading.toISOString (REFERENCE_MONDAY + (((c.week.week : ℤ) - 1) * 7 + weekday - 1)) = .ok _ :=
        toISOString_ok (by omega) (by omega)
      rw [dayFromWeek, if_pos hweek', hdate] at h
      simp only [Functor.map, Except.map, bind, Except.bind, pure, Except.pure] at h
      split at h
      · rename_i hname
        cases h
        simp [Grid.hasText, hname]
      · rename_i hname
        cases h
        simp [Grid.hasText, hname, hweek.1, hweek.2]
    · have hnoWeek : ¬((0 : ℤ) < c.week.week ∧ (c.week.week : ℤ) < 1000 ∧ 0 < weekday) := fun h => hweek ⟨by omega, by omega⟩
      rw [dayFromWeek, if_neg hnoWeek] at h
      simp only [bind, Except.bind, pure, Except.pure] at h
      cases h
      have hnone : g.hasText x c = false := by
        rw [Bool.eq_false_iff]
        intro htext
        simp only [Grid.hasText, Bool.and_eq_true, decide_eq_true_eq] at htext
        exact hweek ⟨htext.1.2, htext.2⟩
      simp [hnone]
  · cases h

/-- A loop that succeeds has the result of each turn. -/
theorem mapM_eq_ok {α β : Type} {f : α → Except Thrown β} {l : List α} {out : List β} (h : l.mapM f = .ok out) :
    List.Forall₂ (fun a b => f a = .ok b) l out := by
  induction l generalizing out with
  | nil =>
    cases h
    exact .nil
  | cons a l ih =>
    rw [List.mapM_cons, bind_eq_ok] at h
    obtain ⟨b, hb, h⟩ := h
    obtain ⟨rest, hrest, h⟩ := bind_eq_ok.mp h
    cases h
    exact .cons hb (ih hrest)

/-- The ids of the dishes are those of the cells with text. -/
theorem ids_eq {cells : List Cell} {out : List (Option Dish)} (h : List.Forall₂ (fun c r => g.readCell x c = .ok r) cells out) :
    (out.filterMap fun dish => dish).map Dish.sourceId =
      (cells.filter (g.hasText x)).map fun c => idOf c.week.week (codeOf c.band.row.label) := by
  induction h with
  | nil => rfl
  | @cons c r cells out hread _ ih =>
    obtain ⟨-, -, hid⟩ := readCell_ok hread
    cases htext : g.hasText x c with
    | true =>
      rw [htext, if_pos rfl] at hid
      obtain ⟨dish, rfl, hdish⟩ := Option.map_eq_some_iff.mp hid
      simp [htext, ih, hdish]
    | false =>
      rw [htext, if_neg (by decide)] at hid
      obtain rfl := Option.map_eq_none_iff.mp hid
      simp [htext, ih]

theorem forall₂_left {α β : Type} {R : α → β → Prop} {l : List α} {out : List β} (h : List.Forall₂ R l out) : ∀ a ∈ l, ∃ b, R a b := by
  induction h with
  | nil => simp
  | cons hab _ ih =>
    intro a ha
    rcases List.mem_cons.mp ha with rfl | ha
    · exact ⟨_, hab⟩
    · exact ih a ha

/-- Different ids are different weeks or weekdays. -/
theorem distinct_iff (hcells : ∀ c ∈ g.cells, ∃ r, g.readCell x c = .ok r) :
    ((g.cells.filter (g.hasText x)).map fun c => idOf c.week.week (codeOf c.band.row.label)).Nodup ↔ g.Distinct x := by
  rw [Grid.Distinct, List.Nodup, List.Nodup, List.pairwise_map, List.pairwise_map]
  refine List.Pairwise.iff_of_mem fun {c c'} hc hc' => not_congr ?_
  obtain ⟨hmem, htext⟩ := List.mem_filter.mp hc
  obtain ⟨hmem', htext'⟩ := List.mem_filter.mp hc'
  obtain ⟨r, hread⟩ := hcells c hmem
  obtain ⟨r', hread'⟩ := hcells c' hmem'
  obtain ⟨⟨w, hlabel⟩, -⟩ := readCell_ok hread
  obtain ⟨⟨w', hlabel'⟩, -⟩ := readCell_ok hread'
  simp only [Grid.hasText, Bool.and_eq_true, decide_eq_true_eq] at htext htext'
  constructor
  · intro hid
    obtain ⟨hweek, hcode⟩ := idOf_inj htext.1.2 htext'.1.2 hid
    have hlabels := label_eq_of_code hlabel hlabel' (by simpa [codeOf, hlabel, hlabel'] using hcode)
    rw [hweek, hlabels]
  · intro hsame
    obtain ⟨hweek, hlabels⟩ := Prod.mk.inj hsame
    rw [hweek, hlabels]

/-! ### The page -/

theorem parse_cells (h : parseMenuPdf x pages = .ok menu) : ∃ out, menu.dishes = (out.filterMap fun dish => dish) ∧
    List.Forall₂ (fun c r => (gridOf x pages).readCell x c = .ok r) (gridOf x pages).cells out := by
  unfold parseMenuPdf at h
  simp only at h
  split at h
  · cases h
  · obtain ⟨out, hout, h⟩ := bind_eq_ok.mp h
    cases h
    exact ⟨out, rfl, mapM_eq_ok hout⟩

theorem readsCells_iff (h : parseMenuPdf x pages = .ok menu) :
    ReadsCells x (gridOf x pages) menu ↔ (gridOf x pages).Spaced ∧ (gridOf x pages).Distinct x := by
  have hg := gridOf_ordered x pages
  obtain ⟨out, hdishes, hout⟩ := parse_cells h
  have hids : (menu.dishes.map Dish.sourceId).Nodup ↔ (gridOf x pages).Distinct x := by
    rw [hdishes, ids_eq hout, distinct_iff (forall₂_left hout)]
  rw [← own_iff, ← hids]
  constructor
  · intro hreads
    exact ⟨hreads.own, hreads.ids⟩
  · rintro ⟨hown, hnodup⟩
    exact ⟨(bands_pairwise hg).imp fun hle => not_both_have hle, hown, others_of_own hg hown, once_of_ordered x hg, hnodup⟩

/-- Every cell of a page that is read is read for its own week and day exactly when every row closes before the next label, and no two
cells with a dish have the same week and weekday. -/
theorem parseMenuPdf_iff (x : Letters) (pages : List (List PdfTextItem)) :
    (∀ menu, parseMenuPdf x pages = .ok menu → ReadsCells x (gridOf x pages) menu) ↔
      ((∃ menu, parseMenuPdf x pages = .ok menu) → (gridOf x pages).Spaced ∧ (gridOf x pages).Distinct x) := by
  constructor
  · rintro hreads ⟨menu, hmenu⟩
    exact (readsCells_iff hmenu).mp (hreads menu hmenu)
  · intro h menu hmenu
    exact (readsCells_iff hmenu).mpr (h ⟨menu, hmenu⟩)

/-- Small and capital letters of ASCII. -/
def plainLetters : Letters where
  lower := fun s => s.map lowerUnit
  upper := fun s => s.map fun u => if 97 ≤ u ∧ u ≤ 122 then u - 32 else u
  startsWithLetter := fun s => s.head?.any isLetter
  endsInLetter := fun s => s.getLast?.any isLetter

def item (str : String) (x y : ℚ) : PdfTextItem := ⟨units str, x, y, 0⟩

/-- The row of Monday has no line of allergens, the one of Tuesday has one. -/
def lineMissing : List (List PdfTextItem) :=
  [[item "1. Woche" 100 0, item "Montag" 0 20, item "Pizza" 100 20, item "Dienstag" 0 60, item "Gulasch" 100 60, item "Allergene" 0 80,
    item "A" 100 80]]

/-- Both dishes become one of Monday, with Tuesday's allergens. -/
theorem tuesday_served_on_monday :
    (parseMenuPdf plainLetters lineMissing).toOption.map (fun menu => menu.dishes.map fun d => (d.sourceId, d.name)) =
        some [(units "w1_mo", units "Pizza Gulasch")] ∧
      ¬∀ menu, parseMenuPdf plainLetters lineMissing = .ok menu → ReadsCells plainLetters (gridOf plainLetters lineMissing) menu := by
  have hdishes : (parseMenuPdf plainLetters lineMissing).toOption.map (fun menu => menu.dishes.map fun d => (d.sourceId, d.name)) =
      some [(units "w1_mo", units "Pizza Gulasch")] := by decide +kernel
  refine ⟨hdishes, fun hreads => ?_⟩
  have hlabels : ¬∀ b ∈ (gridOf plainLetters lineMissing).bands, b.has b.row.y := by decide +kernel
  cases hparse : parseMenuPdf plainLetters lineMissing with
  | error thrown =>
    rw [hparse] at hdishes
    cases hdishes
  | ok menu => exact hlabels (hreads menu hparse).own

end Pokyh.Menu.Pdf
