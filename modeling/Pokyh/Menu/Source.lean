import Mathlib.Data.List.Basic
import Mathlib.Data.Rat.Defs
import Mathlib.Order.Basic

/-!
# Menu — Source

Comparing a menu source with the stored plan (`utils/mensaSource.ts`): dishes and their fingerprints, when
two names mean the same dish, and what a pull is going to do (`planPull`).

* `ParsedSource`: what the readers hand over.  A `mensa.json` names every dish once, with its day; a PDF
  knows weeks and weekdays only, and may name one twice.
* `PullPlan.changes`: what the plan does about one entry of the source.
-/

namespace Pokyh.Menu

/-- A day, counted from 1 January 1970. -/
abbrev Day := ℤ

/-- Days since Monday. -/
def weekdayOf (day : Day) : ℤ := (day + 3) % 7

def mondayOf (day : Day) : Day := day - weekdayOf day

/-- What can be said about a dish. -/
structure Content where
  nameDe : String
  nameIt : String
  nameEn : String
  descDe : String
  descIt : String
  descEn : String
  imageUrl : String
  category : String
  tags : String
  allergens : String
  prepTime : ℕ
  calories : ℕ
  price : ℚ
  protein : ℚ
  fat : ℚ
  isVegetarian : Bool
  isVegan : Bool
  deriving DecidableEq

structure SourceDish extends Content where
  sourceId : String
  date : Day
  weekOrdinal : ℤ
  /-- A source that only knows part of a dish. -/
  isPartial : Bool
  /-- Knows the week and the weekday only: `date` is a placeholder. -/
  undated : Bool
  deriving DecidableEq

/-- What a reader hands over, and what the two readers see to. -/
structure ParsedSource where
  dishes : List SourceDish
  skipped : ℕ
  read : ((dishes.map SourceDish.sourceId).Nodup ∧ ∀ e ∈ dishes, e.isPartial = false ∧ e.undated = false) ∨
    ∀ e ∈ dishes, e.isPartial = true ∧ e.undated = true

/-- What the platform provides: lower case without accents and blanks around, the SHA-256 of an object
as JSON, and `LIKE 'start%'` in the database's collation. -/
structure Platform where
  fold : String → String
  digest : String × Content → String
  startsWith : String → String → Bool

variable (x : Platform)

/-- What a source says about a dish, for telling later whether it changed it. -/
def dishFingerprint (e : SourceDish) : String := x.digest (e.sourceId, e.toContent)

/-! ### Names -/

def isWordChar (ch : Char) : Bool := ('a' ≤ ch && ch ≤ 'z') || ('0' ≤ ch && ch ≤ '9')

/-- The folded name, `ß` spelled out. -/
def letters (name : String) : List Char :=
  (x.fold name).toList.flatMap fun ch => if ch = 'ß' then ['s', 's'] else [ch]

/-- The longest pieces without other characters. -/
def pieces (chars : List Char) : List (List Char) :=
  (chars.splitOnP fun ch => !isWordChar ch).filter fun w => !w.isEmpty

/-- The dish's name as its stable key. -/
def slugifyDishName (name : String) : String :=
  String.ofList ((List.intercalate ['-'] (pieces (letters x name))).take 180)

def FILLERS : List String :=
  ["mit", "und", "oder", "auf", "in", "im", "an", "am", "der", "die", "das", "dem", "den", "von", "vom", "zu",
    "zum", "gebacken", "gebraten", "gebratene", "gebratener"]

/-- A word without a plain plural or case ending. -/
def stem (w : List Char) : List Char :=
  if ['e', 'n'].isSuffixOf w then w.take (w.length - 2)
  else if ['e'].isSuffixOf w || ['n'].isSuffixOf w || ['s'].isSuffixOf w then w.take (w.length - 1)
  else w

/-- The words that tell a dish apart. -/
def dishWords (name : String) : List (List Char) :=
  ((pieces ((letters x name).filter (· ≠ '-'))).filter fun w => String.ofList w ∉ FILLERS).map stem

def commonLength : List Char → List Char → ℕ
  | a :: as, b :: bs => if a = b then commonLength as bs + 1 else 0
  | _, _ => 0

/-- A typo or an ending apart, not two words. -/
def sameWord (a b : List Char) : Bool :=
  let short := if a.length ≤ b.length then a else b
  let long := if a.length ≤ b.length then b else a
  let same := commonLength a b
  if a = b then true
  -- A word and its compound.
  else if 4 ≤ short.length && short.isPrefixOf long then true
  else if short.length < 5 then false
  -- Another ending of the same word.
  else if 6 ≤ same && 4 * short.length ≤ 5 * same then true
  else if 1 < long.length - short.length then false
  -- At most one letter changed, added or left out.
  else a.drop (same + 1) = b.drop (same + 1) || a.drop same = b.drop (same + 1) ||
    a.drop (same + 1) = b.drop same

/-- Whether two names mean the same dish. -/
def sameDishName (a b : String) : Bool :=
  let wa := (dishWords x a).dedup
  let wb := (dishWords x b).dedup
  let small := if wa.length ≤ wb.length then wa else wb
  let large := if wa.length ≤ wb.length then wb else wa
  let shared := (small.filter fun w => large.any (sameWord w)).length
  !wa.isEmpty && !wb.isEmpty && 3 * small.length ≤ 4 * shared

/-! ### The plan of a pull -/

/-- A stored dish, as far as a pull compares it. -/
structure PlanDish where
  id : String
  nameDe : String
  descDe : String
  sourceId : Option String
  sourceHash : String
  date : Day
  weekOrdinal : ℤ
  /-- Has an uploaded picture. -/
  hasUpload : Bool

structure Create where
  dish : SourceDish
  date : Day
  hash : String

structure Update where
  id : String
  dish : SourceDish
  hash : String
  date : Option Day
  keepImage : Bool
  curated : Bool
  dropImage : Bool
  fillDescription : Bool

structure Adopt where
  id : String
  hash : String

structure PullPlan where
  create : List Create
  update : List Update
  adopt : List Adopt
  differs : List String
  remove : List String
  held : Option String

structure PullOptions where
  force : Bool
  keepDates : Bool
  removeMissing : Bool

/-- Rows from before source ids carried it as their id. -/
def PlanDish.key (d : PlanDish) : String := d.sourceId.getD d.id

/-- The stored dish an entry of the source is about. -/
def bySource (existing : List PlanDish) (e : SourceDish) : Option PlanDish :=
  existing.find? fun d => d.key = e.sourceId

/-- Where a week of the plan lies now. -/
def mondayOfWeek (weeks : List PlanDish) (week : ℤ) : Option Day :=
  (weeks.find? fun d => 0 < d.weekOrdinal && d.weekOrdinal = week).map fun d => mondayOf d.date

/-- The day the source sets, if it sets one. -/
def sourceDate (options : PullOptions) (e : SourceDish) : Option Day :=
  if options.keepDates || e.undated then none else some e.date

/-- The day of a new dish. -/
def newDate (options : PullOptions) (weeks : List PlanDish) (e : SourceDish) : Day :=
  let monday := if options.keepDates || e.undated then mondayOfWeek weeks e.weekOrdinal else none
  match monday with
  | some monday => monday + weekdayOf e.date
  | none => e.date

def changeOf (stored : PlanDish) (e : SourceDish) (date : Option Day) : Update :=
  let same := sameDishName x stored.nameDe e.nameDe
  { id := stored.id
    dish := e
    hash := dishFingerprint x e
    date
    keepImage := stored.hasUpload && (same || !e.isPartial)
    curated := e.isPartial && same
    dropImage := e.isPartial && !same && stored.hasUpload
    fillDescription := stored.descDe = "" }

/-- What is done about one entry of the source. -/
inductive Change where
  | create (c : Create)
  | update (u : Update)
  | adopt (a : Adopt)
  | differs (id : String)
  | nothing

def changeFor (existing weeks : List PlanDish) (options : PullOptions) (e : SourceDish) : Change :=
  let hash := dishFingerprint x e
  match bySource existing e with
  | none => .create ⟨e, newDate options weeks e, hash⟩
  | some stored =>
      let date := sourceDate options e
      if !options.force && stored.sourceHash = "" then
        if sameDishName x stored.nameDe e.nameDe || !e.isPartial then .adopt ⟨stored.id, hash⟩
        else .differs stored.id
      else if options.force || stored.sourceHash ≠ hash then .update (changeOf x stored e date)
      else if date.any (· ≠ stored.date) then .update (changeOf x stored e date)
      else .nothing

/-- Gone from the source; never a dish added by hand, and on first contact nothing. -/
def missing (options : PullOptions) (source : ParsedSource) (d : PlanDish) : Bool :=
  d.sourceId.any (fun id => id ≠ "" && source.dishes.all fun e => e.sourceId ≠ id) &&
    (options.force || d.sourceHash ≠ "")

/-- Why this should not happen without an administrator saying so. -/
def heldBack (existing : List PlanDish) (source : ParsedSource) (remove differs : List String) : Option String :=
  let total := source.dishes.length + source.skipped
  let known := (existing.filter fun d => d.sourceId.any (· ≠ "") && d.sourceHash ≠ "").length
  let matched := (source.dishes.filter fun e => (bySource existing e).isSome).length
  if source.dishes = [] then some "Die Quelle enthält keine lesbaren Gerichte für diesen Plan"
  else if total < 5 * source.skipped then
    some (toString source.skipped ++ " von " ++ toString total ++ " Einträgen der Quelle sind nicht lesbar")
  else if 3 ≤ known && known < 2 * remove.length then
    some ("Die Quelle würde " ++ toString remove.length ++ " von " ++ toString known ++ " Gerichten entfernen")
  else if 0 < existing.length && matched = 0 then
    some "Kein Gericht der Quelle passt zu diesem Plan, sie würden nur dazukommen"
  else if 0 < differs.length then
    some (toString differs.length ++ (if differs.length = 1 then " Gericht heißt" else " Gerichte heißen") ++
      " in der Quelle anders als hier")
  else none

def planPull (existing : List PlanDish) (source : ParsedSource) (options : PullOptions) (weeks : List PlanDish) :
    PullPlan :=
  let changes := source.dishes.map (changeFor x existing weeks options)
  let differs := changes.filterMap fun | .differs id => some id | _ => none
  let remove := if options.removeMissing then (existing.filter (missing options source)).map PlanDish.id else []
  { create := changes.filterMap fun | .create c => some c | _ => none
    update := changes.filterMap fun | .update u => some u | _ => none
    adopt := changes.filterMap fun | .adopt a => some a | _ => none
    differs
    remove
    held := if options.force then none else heldBack existing source remove differs }

end Pokyh.Menu
