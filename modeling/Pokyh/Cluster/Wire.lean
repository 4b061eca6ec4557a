import Pokyh.Cluster.Codec
import Pokyh.Lib.Base64
import Pokyh.Lib.IsoDates
import Pokyh.Lib.JsonTexts
import Pokyh.Lib.Results

/-!
# Cluster — Wire

A row on its way to another node: encoded from what the database's driver returns (`encodeRow`), sent as JSON, and decoded to what is
bound to a statement (`decodeRow` in `codec.ts`).

* `cell_survives_iff`: what a cell is decoded to stores its content, unless it is a document that is a string or null.
* `row_survives_iff`: **a row survives exactly if it has no such cell**; of the others no two are sent alike.
* `documents_mistaken`: the document `"5"` arrives as the number 5.
-/

namespace Pokyh.Cluster.Wire
open Pokyh.Lib

/-- `dataType` is `information_schema.COLUMNS.DATA_TYPE`. -/
def kindOf (dataType : String) : ColumnKind :=
  match dataType.toLower with
  | "datetime" | "timestamp" => .datetime
  | "date" => .date
  | "tinyblob" | "blob" | "mediumblob" | "longblob" | "binary" | "varbinary" | "bit" => .binary
  | "bigint" => .bigint
  | "tinyint" | "smallint" | "mediumint" | "int" | "integer" | "float" | "double" | "year" => .number
  | "decimal" | "numeric" => .decimal
  | "json" => .json
  | _ => .string

/-- A value of a row, as the driver gives it.  A date is its time, or none; `decimal` is an object that is written as a decimal number,
and `json` an array or an object of a document. -/
inductive JsValue where
  | undefined
  | null
  | text (value : Units)
  | number (value : Number)
  | bigint (value : ℤ)
  | bool (value : Bool)
  | date (time : Option ℤ)
  | bytes (value : Bytes)
  | decimal (value : Units)
  | json (value : Json)

inductive WireValue where
  | text (value : Units)
  | number (value : Number)
  | boolean (value : Bool)
  | null

/-- What is bound to a statement. -/
inductive Bound where
  | null
  | text (value : Units)
  | number (value : ℚ)
  | bigint (value : ℤ)
  | date (time : ℤ)
  | bytes (value : Bytes)

/-- What JavaScript makes of texts and objects that are not written here: `new Date(text)` of another form, `Number(text)`,
`BigInt(text)` of what is not a number in digits, and `String`, `Number` and `JSON.stringify` of objects. -/
structure Runtime where
  date : Units → Option ℤ
  number : Units → Number
  bigint : Units → Except String ℤ
  string : JsValue → Units
  numberOf : JsValue → Number
  stringify : JsValue → Units

def natText (n : ℕ) : Units := digitsText (if n = 0 then [0] else decimalDigits n)

/-- `n.toString()` of a bigint. -/
def bigintText (n : ℤ) : Units := if n < 0 then 45 :: natText n.natAbs else natText n.natAbs

def numberText : Number → Units
  | .finite value => doubleText value
  | .infinite true => units "Infinity"
  | .infinite false => units "-Infinity"
  | .notANumber => units "NaN"

variable (r : Runtime)

/-! ### Encoding -/

/-- `String(value)` -/
def stringOf : JsValue → Units
  | .undefined => units "undefined"
  | .null => units "null"
  | .text value => value
  | .number value => numberText value
  | .bigint value => bigintText value
  | .bool value => if value then units "true" else units "false"
  | .decimal value => value
  | value => r.string value

/-- `new Date(text)` -/
def readDate (text : Units) : Option ℤ :=
  match readISO text with
  | some time => some time
  | none => r.date text

/-- `value instanceof Date ? value : new Date(String(value))` -/
def dateOf : JsValue → Option ℤ
  | .date time => time
  | value => readDate r (stringOf r value)

/-- `JSON.stringify` -/
def stringifyOf : JsValue → Units
  | .number value => (Json.number value).stringify
  | .bool value => (Json.bool value).stringify
  | .json value => value.stringify
  | value => r.stringify value

def encodeNumber : JsValue → Number
  | .bigint value => toDouble value
  | .bool value => .finite (if value then 1 else 0)
  | .number value => value
  | .text value => r.number value
  | value => r.numberOf value

def encodeValue (kind : ColumnKind) (value : JsValue) : Except String WireValue :=
  match value with
  | .undefined | .null => .ok .null
  | value =>
    match kind with
    | .datetime =>
      match dateOf r value with
      | none => .error "invalid datetime value"
      | some time => .ok (.text (toISOString time))
    | .date =>
      match dateOf r value with
      | none => .error "invalid date value"
      | some time => .ok (.text ((toISOString time).take 10))
    | .binary =>
      match value with
      | .bytes bytes => .ok (.text (toBase64 bytes))
      | _ => .error "binary column did not contain binary data"
    | .number => .ok (.number (encodeNumber r value))
    | .json =>
      match value with
      | .text text => .ok (.text text)
      | value => .ok (.text (stringifyOf r value))
    | .bigint | .decimal | .string => .ok (.text (stringOf r value))

/-- `row` gives the value of a name. -/
def encodeRow (columns : List CodecColumn) (row : String → JsValue) : Except String (List WireValue) :=
  columns.mapM fun column => encodeValue r column.kind (row column.name)

/-! ### On the wire -/

def WireValue.json : WireValue → Json
  | .text value => .string value
  | .number value => .number value
  | .boolean value => .bool value
  | .null => .null

/-- `JSON.stringify` of the encoded row. -/
def send (values : List WireValue) : Units := (Json.array (values.map WireValue.json)).stringify

def wireOf : Json → Option WireValue
  | .string value => some (.text value)
  | .number value => some (.number value)
  | .bool value => some (.boolean value)
  | .null => some .null
  | _ => none

/-- `JSON.parse` of a row. -/
def receive (text : Units) : Option (List WireValue) :=
  match Json.parse text with
  | some (.array items) => items.mapM wireOf
  | _ => none

/-! ### Decoding -/

/-- `String(value)` -/
def WireValue.string : WireValue → Units
  | .text value => value
  | .number value => numberText value
  | .boolean value => if value then units "true" else units "false"
  | .null => units "null"

/-- `Number(value)` -/
def WireValue.toNumber : WireValue → Number
  | .text value => r.number value
  | .number value => value
  | .boolean value => .finite (if value then 1 else 0)
  | .null => .finite 0

/-- `BigInt(text)` -/
def readBigint (text : Units) : Except String ℤ :=
  let digits := readDigits (if text.head? = some 45 then text.tail else text)
  if digits.1 ≠ [] ∧ digits.2 = [] then .ok (if text.head? = some 45 then -(ofDigits digits.1 : ℤ) else ofDigits digits.1)
  else r.bigint text

def decodeValue (kind : ColumnKind) (value : WireValue) : Except String Bound :=
  match value with
  | .null => .ok .null
  | value =>
    match kind with
    | .datetime =>
      match readDate r value.string with
      | none => .error "invalid datetime value"
      | some time => .ok (.date time)
    | .date =>
      match readDate r (value.string ++ units "T00:00:00.000Z") with
      | none => .error "invalid date value"
      | some time => .ok (.date time)
    | .binary => .ok (.bytes (fromBase64 value.string))
    | .bigint => (readBigint r value.string).map .bigint
    | .number =>
      match value.toNumber r with
      | .finite number => .ok (.number number)
      | _ => .error "invalid numeric value"
    | .decimal | .json | .string => .ok (.text value.string)

def decodeRow (columns : List CodecColumn) (values : List WireValue) : Except String (List Bound) :=
  if values.length ≠ columns.length then .error "row does not match the column list"
  else (columns.zip values).mapM fun x => decodeValue r x.1.kind x.2

/-! ### What a column holds -/

/-- What the driver returns for a column of a kind.  A document is what it is parsed as; an `INT UNSIGNED` may come as a bigint, and a
`TINYINT(1)` as a truth value. -/
inductive Cell : ColumnKind → Type where
  | null {kind : ColumnKind} : Cell kind
  | text (value : Units) : Cell .string
  | number (value : ℚ) (h : IsDouble value) : Cell .number
  | whole (value : ℤ) (h : IsDouble value) : Cell .number
  | flag (value : Bool) : Cell .number
  | bigint (value : ℤ) : Cell .bigint
  | moment (time : ℤ) (h : FourDigits (time / DAY_MS)) : Cell .datetime
  | day (d : ℤ) (h : FourDigits d) : Cell .date
  | bytes (value : Bytes) : Cell .binary
  | decimal (value : Units) : Cell .decimal
  | json (value : Json) (h : value.Plain) : Cell .json

/-- What is stored in a column. -/
inductive Content where
  | null
  | text (value : Units)
  | number (value : ℚ)
  | bigint (value : ℤ)
  | moment (time : ℤ)
  | day (day : ℤ)
  | bytes (value : Bytes)
  | decimal (value : Units)
  | json (value : Json)

variable {kind : ColumnKind} {columns : List CodecColumn}

/-- A document as the driver returns it. -/
def parsedJson : Json → JsValue
  | .null => .null
  | .bool value => .bool value
  | .number value => .number value
  | .string value => .text value
  | value => .json value

def Cell.value : Cell kind → JsValue
  | .null => .null
  | .text value => .text value
  | .number value _ => .number (.finite value)
  | .whole value _ => .bigint value
  | .flag value => .bool value
  | .bigint value => .bigint value
  | .moment time _ => .date (some time)
  | .day d _ => .date (some (d * DAY_MS))
  | .bytes value => .bytes value
  | .decimal value => .decimal value
  | .json value _ => parsedJson value

def Cell.content : Cell kind → Content
  | .null => .null
  | .text value => .text value
  | .number value _ => .number value
  | .whole value _ => .number value
  | .flag value => .number (if value then 1 else 0)
  | .bigint value => .bigint value
  | .moment time _ => .moment time
  | .day d _ => .day d
  | .bytes value => .bytes value
  | .decimal value => .decimal value
  | .json value _ => .json value

/-- What the database stores in a column when a value is bound to it: a text is parsed for a document. -/
def stored (kind : ColumnKind) (value : Bound) : Option Content :=
  match kind, value with
  | _, .null => some .null
  | .string, .text value => some (.text value)
  | .number, .number value => some (.number value)
  | .bigint, .bigint value => some (.bigint value)
  | .datetime, .date time => some (.moment time)
  | .date, .date time => some (.day (time / DAY_MS))
  | .binary, .bytes value => some (.bytes value)
  | .decimal, .text value => some (.decimal value)
  | .json, .text value => (Json.parse value).map .json
  | _, _ => none

/-- A row that the driver returns for the columns. -/
structure Row (columns : List CodecColumn) where
  values : String → JsValue
  cells : (column : CodecColumn) → Cell column.kind
  returned : ∀ column ∈ columns, values column.name = (cells column).value

/-- The row arrives, and what is bound then stores what it held. -/
def Row.Survives (row : Row columns) : Prop :=
  ∃ sent received values, encodeRow r columns row.values = .ok sent ∧ receive (send sent) = some received ∧
    decodeRow r columns received = .ok values ∧
    List.Forall₂ (fun column value => stored column.kind value = some (row.cells column).content) columns values

/-- No document that is a string or null. -/
def Cell.Told (cell : Cell kind) : Prop := cell.content ≠ .json .null ∧ ∀ text, cell.content ≠ .json (.string text)

/-! ### Cells -/

theorem natText_digits (n : ℕ) : ∃ digits, natText n = digitsText digits ∧ digits ≠ [] ∧ (∀ d ∈ digits, d < 10) ∧ ofDigits digits = n := by
  by_cases hzero : n = 0
  · subst hzero
    exact ⟨[0], rfl, by decide, by decide, rfl⟩
  · refine ⟨decimalDigits n, by rw [natText, if_neg hzero], ?_, fun d hd => lt_of_mem_decimalDigits hd, ofDigits_decimalDigits n⟩
    rwa [decimalDigits, ne_eq, List.reverse_eq_nil_iff, Nat.digits_eq_nil_iff_eq_zero]

theorem readDigits_natText (n : ℕ) : ∃ digits, readDigits (natText n) = (digits, []) ∧ digits ≠ [] ∧ ofDigits digits = n ∧
    (natText n).head? ≠ some 45 := by
  obtain ⟨digits, htext, hne, hlt, hvalue⟩ := natText_digits n
  have hread : readDigits (digitsText digits ++ []) = (digits, []) := readDigits_text hlt fun u hu => by cases hu
  rw [List.append_nil] at hread
  refine ⟨digits, by rw [htext, hread], hne, hvalue, ?_⟩
  obtain ⟨d, more, rfl⟩ := List.exists_cons_of_ne_nil hne
  have hall : ∀ d < 10, (48 + d).toUInt16 ≠ 45 := by decide
  rw [htext]
  exact fun heq => hall d (hlt d List.mem_cons_self) (Option.some.inj heq)

theorem readBigint_bigintText (n : ℤ) : readBigint r (bigintText n) = .ok n := by
  obtain ⟨digits, hread, hne, hvalue, hhead⟩ := readDigits_natText n.natAbs
  unfold bigintText readBigint
  by_cases hneg : n < 0
  · simp only [if_pos hneg, List.head?_cons, if_true, List.tail_cons, hread, hvalue]
    rw [if_pos ⟨hne, trivial⟩]
    congr 1
    omega
  · simp only [if_neg hneg, if_neg hhead, hread, hvalue]
    rw [if_pos ⟨hne, trivial⟩]
    congr 1
    omega

theorem readDate_toISOString {time : ℤ} (h : FourDigits (time / DAY_MS)) : readDate r (toISOString time) = some time := by
  rw [readDate, readISO_toISOString h]

/-- What a cell is sent as, and what that is decoded to. -/
structure Cell.Sent (cell : Cell kind) (wire : WireValue) : Prop where
  encoded : encodeValue r kind cell.value = .ok wire
  plain : wire.json.Plain
  decoded : (∃ value, decodeValue r kind wire = .ok value ∧ stored kind value = some cell.content) ↔ cell.Told

theorem told_of_ne {cell : Cell kind} (h : ∀ value, cell.content ≠ .json value) : cell.Told := ⟨h _, fun _ => h _⟩

/-- A cell that is decoded to what it holds. -/
theorem Cell.Sent.of_stored {cell : Cell kind} {wire : WireValue} {value : Bound} (hencoded : encodeValue r kind cell.value = .ok wire)
    (hplain : wire.json.Plain) (hdecoded : decodeValue r kind wire = .ok value) (hstored : stored kind value = some cell.content)
    (htold : cell.Told) : cell.Sent r wire :=
  ⟨hencoded, hplain, fun _ => htold, fun _ => ⟨value, hdecoded, hstored⟩⟩

/-- The text of a document is parsed for it, if it is no string, which is sent as it is, and not null. -/
theorem document_sent {value : Json} (h : value.Plain) : ∃ wire, (Cell.json value h).Sent r wire := by
  have hparse := parse_stringify h
  have hstored : (Json.parse value.stringify).map Content.json = some (.json value) := congrArg (Option.map Content.json) hparse
  cases value with
  | null =>
      refine ⟨.null, rfl, .null, ?_⟩
      constructor
      · rintro ⟨value, hdecoded, hstored⟩
        obtain rfl := Except.ok.inj hdecoded
        cases hstored
      · exact fun htold => absurd rfl htold.1
  | string text =>
      refine ⟨.text text, rfl, .string _, ?_⟩
      constructor
      · rintro ⟨value, hdecoded, hstored⟩
        obtain rfl := Except.ok.inj hdecoded
        obtain ⟨document, hdocument, heq⟩ := Option.map_eq_some_iff.mp hstored
        obtain rfl := Content.json.inj heq
        exact absurd (longer_than_string hdocument) (Nat.lt_irrefl _)
      · exact fun htold => absurd rfl (htold.2 text)
  | bool value => exact ⟨.text (Json.bool value).stringify, .of_stored r rfl (.string _) rfl hstored ⟨nofun, nofun⟩⟩
  | number value => exact ⟨.text (Json.number value).stringify, .of_stored r rfl (.string _) rfl hstored ⟨nofun, nofun⟩⟩
  | array items => exact ⟨.text (Json.array items).stringify, .of_stored r rfl (.string _) rfl hstored ⟨nofun, nofun⟩⟩
  | object fields => exact ⟨.text (Json.object fields).stringify, .of_stored r rfl (.string _) rfl hstored ⟨nofun, nofun⟩⟩

/-- **A cell is decoded to what it holds**, unless it is a document that is a string or null. -/
theorem cell_sent (cell : Cell kind) : ∃ wire, cell.Sent r wire := by
  cases cell with
  | null => exact ⟨.null, .of_stored r rfl .null rfl (by cases kind <;> rfl) (told_of_ne nofun)⟩
  | text value => exact ⟨.text value, .of_stored r rfl (.string _) rfl rfl (told_of_ne nofun)⟩
  | number value h => exact ⟨.number (.finite value), .of_stored r rfl (.number h) rfl rfl (told_of_ne nofun)⟩
  | whole value h =>
      have hencoded : encodeValue r .number (Cell.whole value h).value = .ok (.number (.finite value)) :=
        congrArg (fun x => Except.ok (WireValue.number x)) (toDouble_of_isDouble h)
      exact ⟨.number (.finite value), .of_stored r hencoded (.number h) rfl rfl (told_of_ne nofun)⟩
  | flag value =>
      have hdouble : IsDouble (if value then 1 else 0) := by
        cases value with
        | false => exact isDouble_zero
        | true => exact ⟨1, 0, by norm_num, by norm_num, by norm_num, by norm_num⟩
      exact ⟨.number (.finite (if value then 1 else 0)), .of_stored r rfl (.number hdouble) rfl rfl (told_of_ne nofun)⟩
  | bigint value =>
      have hdecoded : decodeValue r .bigint (.text (bigintText value)) = .ok (.bigint value) :=
        congrArg (Except.map Bound.bigint) (readBigint_bigintText r value)
      exact ⟨.text (bigintText value), .of_stored r rfl (.string _) hdecoded rfl (told_of_ne nofun)⟩
  | moment time h =>
      have hdecoded : decodeValue r .datetime (.text (toISOString time)) = .ok (.date time) := by
        unfold decodeValue
        simp only [WireValue.string, readDate_toISOString r h]
      exact ⟨.text (toISOString time), .of_stored r rfl (.string _) hdecoded rfl (told_of_ne nofun)⟩
  | day d h =>
      have hday : FourDigits (d * DAY_MS / DAY_MS) := by rwa [day_midnight]
      have hencoded : encodeValue r .date (Cell.day d h).value = .ok (.text (dayText d)) := by
        have htext := toISOString_day hday
        rw [day_midnight] at htext
        exact congrArg (fun text => Except.ok (WireValue.text text)) htext
      have hdecoded : decodeValue r .date (.text (dayText d)) = .ok (.date (d * DAY_MS)) := by
        have hclock : units "T00:00:00.000Z" = clockText 0 := by decide +kernel
        unfold decodeValue
        simp only [WireValue.string, hclock, ← toISOString_midnight, readDate_toISOString r hday]
      have hstored : stored .date (.date (d * DAY_MS)) = some (Cell.day d h).content :=
        congrArg (fun n => some (Content.day n)) (day_midnight d)
      exact ⟨.text (dayText d), .of_stored r hencoded (.string _) hdecoded hstored (told_of_ne nofun)⟩
  | bytes value =>
      have hdecoded : decodeValue r .binary (.text (toBase64 value)) = .ok (.bytes value) :=
        congrArg (fun bytes => Except.ok (Bound.bytes bytes)) (fromBase64_toBase64 value)
      exact ⟨.text (toBase64 value), .of_stored r rfl (.string _) hdecoded rfl (told_of_ne nofun)⟩
  | decimal value => exact ⟨.text value, .of_stored r rfl (.string _) rfl rfl (told_of_ne nofun)⟩
  | json value h => exact document_sent r h

/-! ### Rows -/

theorem wireOf_json (wire : WireValue) : wireOf wire.json = some wire := by
  cases wire <;> rfl

/-- What is sent is received. -/
theorem receive_send {values : List WireValue} (h : ∀ value ∈ values, value.json.Plain) : receive (send values) = some values := by
  have hplain : (Json.array (values.map WireValue.json)).Plain := by
    refine .array fun item hitem => ?_
    obtain ⟨value, hvalue, rfl⟩ := List.mem_map.mp hitem
    exact h value hvalue
  have hitems : (values.map WireValue.json).mapM wireOf = some values := by
    clear h hplain
    induction values with
    | nil => rfl
    | cons value values ih =>
        rw [List.map_cons, List.mapM_cons, wireOf_json, ih]
        rfl
  rw [receive, send, parse_stringify hplain]
  exact hitems

/-- The values that a row is sent as. -/
theorem encodeRow_sent (row : Row columns) : ∃ values, encodeRow r columns row.values = .ok values ∧
    List.Forall₂ (fun column value => (row.cells column).Sent r value) columns values := by
  have hcells : ∀ list : List CodecColumn, (∀ column ∈ list, row.values column.name = (row.cells column).value) →
      ∃ values, encodeRow r list row.values = .ok values ∧ List.Forall₂ (fun column value => (row.cells column).Sent r value) list values := by
    intro list hlist
    induction list with
    | nil => exact ⟨[], rfl, .nil⟩
    | cons column list ih =>
        obtain ⟨value, hvalue⟩ := cell_sent r (row.cells column)
        obtain ⟨values, hvalues, hsent⟩ := ih fun c hc => hlist c (List.mem_cons_of_mem _ hc)
        refine ⟨value :: values, mapM_eq_ok_iff.mpr (.cons ?_ (mapM_eq_ok_iff.mp hvalues)), .cons hvalue hsent⟩
        rw [hlist column List.mem_cons_self]
        exact hvalue.encoded
  exact hcells columns row.returned

theorem plain_of_sent {cells : (column : CodecColumn) → Cell column.kind} {sent : List WireValue}
    (h : List.Forall₂ (fun column value => (cells column).Sent r value) columns sent) : ∀ value ∈ sent, value.json.Plain := by
  induction h with
  | nil =>
      intro value hvalue
      cases hvalue
  | cons hcell hrest ih =>
      rw [List.forall_mem_cons]
      exact ⟨hcell.plain, ih⟩

/-- The values that cells are sent as are decoded to what they hold exactly if none is a document that is a string or null. -/
theorem decoded_iff {cells : (column : CodecColumn) → Cell column.kind} {sent : List WireValue}
    (h : List.Forall₂ (fun column value => (cells column).Sent r value) columns sent) :
    (∃ values, (columns.zip sent).mapM (fun x => decodeValue r x.1.kind x.2) = .ok values ∧
      List.Forall₂ (fun column value => stored column.kind value = some (cells column).content) columns values) ↔
        ∀ column ∈ columns, (cells column).Told := by
  induction h with
  | nil =>
      constructor
      · intro _ column hcolumn
        cases hcolumn
      · exact fun _ => ⟨[], rfl, .nil⟩
  | @cons column value columns sent hcell hrest ih =>
      rw [List.forall_mem_cons, ← ih, ← hcell.decoded, List.zip_cons_cons]
      constructor
      · rintro ⟨values, hvalues, hstored⟩
        obtain ⟨first, rest, hfirst, hmore, rfl⟩ := List.forall₂_cons_left_iff.mp (mapM_eq_ok_iff.mp hvalues)
        obtain ⟨hhead, htail⟩ := List.forall₂_cons.mp hstored
        exact ⟨⟨first, hfirst, hhead⟩, rest, mapM_eq_ok_iff.mpr hmore, htail⟩
      · rintro ⟨⟨first, hfirst, hhead⟩, rest, hmore, htail⟩
        exact ⟨first :: rest, mapM_eq_ok_iff.mpr (.cons hfirst (mapM_eq_ok_iff.mp hmore)), .cons hhead htail⟩

theorem survives_iff (row : Row columns) : row.Survives r ↔ ∀ column ∈ columns, (row.cells column).Told := by
  obtain ⟨sent, hencoded, hsent⟩ := encodeRow_sent r row
  have hplain := plain_of_sent r hsent
  have hlength : ¬ sent.length ≠ columns.length := not_not.mpr hsent.length_eq.symm
  rw [← decoded_iff r hsent]
  constructor
  · rintro ⟨sent', received, values, hencoded', hreceived, hvalues, hstored⟩
    obtain rfl := Except.ok.inj (hencoded.symm.trans hencoded')
    obtain rfl := Option.some.inj ((receive_send hplain).symm.trans hreceived)
    rw [decodeRow, if_neg hlength] at hvalues
    exact ⟨values, hvalues, hstored⟩
  · rintro ⟨values, hvalues, hstored⟩
    refine ⟨sent, sent, values, hencoded, receive_send hplain, ?_, hstored⟩
    rw [decodeRow, if_neg hlength, hvalues]

/-- What is the same values is the same contents. -/
theorem contents_eq {f g : CodecColumn → Content} {values : List Bound}
    (hf : List.Forall₂ (fun column value => stored column.kind value = some (f column)) columns values)
    (hg : List.Forall₂ (fun column value => stored column.kind value = some (g column)) columns values) :
    ∀ column ∈ columns, f column = g column := by
  induction hf with
  | nil => exact fun column hcolumn => by cases hcolumn
  | cons hhead htail ih =>
      obtain ⟨hhead', htail'⟩ := List.forall₂_cons.mp hg
      rw [List.forall_mem_cons]
      exact ⟨Option.some.inj (hhead.symm.trans hhead'), ih htail'⟩

/-- **A row survives exactly if it has no document that is a string or null**, and of such rows no two are sent alike. -/
theorem row_survives_iff (columns : List CodecColumn) : (∀ row : Row columns, row.Survives r ↔ ∀ column ∈ columns, (row.cells column).Told) ∧
    ∀ row row' : Row columns, (∀ column ∈ columns, (row.cells column).Told) → (∀ column ∈ columns, (row'.cells column).Told) →
      encodeRow r columns row.values = encodeRow r columns row'.values →
        ∀ column ∈ columns, (row.cells column).content = (row'.cells column).content := by
  refine ⟨survives_iff r, fun row row' htold htold' hsame => ?_⟩
  obtain ⟨sent, received, values, hencoded, hreceived, hvalues, hstored⟩ := (survives_iff r row).mpr htold
  obtain ⟨sent', received', values', hencoded', hreceived', hvalues', hstored'⟩ := (survives_iff r row').mpr htold'
  obtain rfl := Except.ok.inj (hencoded.symm.trans (hsame.trans hencoded'))
  obtain rfl := Option.some.inj (hreceived.symm.trans hreceived')
  obtain rfl := Except.ok.inj (hvalues.symm.trans hvalues')
  exact contents_eq hstored hstored'

/-! ### Documents that are mistaken -/

/-- A runtime in which no other text is read. -/
def plainRuntime : Runtime where
  date _ := none
  number _ := .notANumber
  bigint _ := .error "Cannot convert to a BigInt"
  string _ := units "[object Object]"
  numberOf _ := .notANumber
  stringify _ := units "[object Object]"

/-- A table of one column of documents. -/
def bodyColumns : List CodecColumn := [⟨"body", kindOf "json"⟩]

/-- The row of one document. -/
def documentRow (value : Json) (h : value.Plain) : Row bodyColumns where
  values _ := parsedJson value
  cells := fun
    | ⟨_, .json⟩ => .json value h
    | ⟨_, _⟩ => .null
  returned := by
    have hkind : kindOf "json" = .json := by decide +kernel
    intro column hcolumn
    rw [List.mem_singleton.mp hcolumn, hkind]
    rfl

theorem encodeRow_body (row : String → JsValue) : encodeRow plainRuntime bodyColumns row =
    (encodeValue plainRuntime .json (row "body")).bind fun value => .ok [value] := by
  have hkind : kindOf "json" = .json := by decide +kernel
  rw [encodeRow, bodyColumns, hkind]
  rfl

theorem isDouble_five : IsDouble 5 := ⟨5, 0, by norm_num, by norm_num, by norm_num, by norm_num⟩

/-- The document `"5"` is sent as the number 5 is, and null as no document at all. -/
theorem documents_mistaken :
    encodeRow plainRuntime bodyColumns (documentRow (.string [53]) (.string _)).values =
      encodeRow plainRuntime bodyColumns (documentRow (.number (.finite 5)) (.number isDouble_five)).values ∧
    ¬ (documentRow (.string [53]) (.string _)).Survives plainRuntime ∧ ¬ (documentRow .null .null).Survives plainRuntime := by
  have hkind : kindOf "json" = .json := by decide +kernel
  have hfive : (Json.number (.finite 5)).stringify = [53] := by decide +kernel
  have hcolumn : ⟨"body", .json⟩ ∈ bodyColumns := by
    rw [bodyColumns, hkind]
    exact List.mem_cons_self
  refine ⟨?_, ?_, ?_⟩
  · have hsame : encodeValue plainRuntime .json (.text [53]) = encodeValue plainRuntime .json (.number (.finite 5)) :=
      congrArg (fun text => Except.ok (WireValue.text text)) hfive.symm
    rw [encodeRow_body, encodeRow_body]
    exact congrArg (fun value => Except.bind value fun value => Except.ok [value]) hsame
  · rw [survives_iff]
    exact fun htold => (htold _ hcolumn).2 [53] rfl
  · rw [survives_iff]
    exact fun htold => (htold _ hcolumn).1 rfl

end Pokyh.Cluster.Wire
