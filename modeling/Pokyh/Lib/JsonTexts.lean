import Pokyh.Lib.Doubles

/-!
# Lib — JsonTexts

JSON values as they are written (`JSON.stringify`) and read (`JSON.parse`).  White space may stand between the parts, and of the members
of one name the last one counts.

* `readBody_quoteBody`: a text is read back from between its quotes, whatever it is made of.
* `parse_stringify`: **a value is read back**, if its numbers are finite and its members have different names.
* `parse_enough`: reading comes to an end by itself, before its time is over.
* `longer_than_string`: a text that is read as a string is longer than the string.
-/

namespace Pokyh.Lib

/-! ### Writing -/

mutual

/-- `JSON.stringify` -/
def Json.stringify : Json → Units
  | .null => [110, 117, 108, 108]
  | .bool true => [116, 114, 117, 101]
  | .bool false => [102, 97, 108, 115, 101]
  | .number (.finite value) => doubleText value
  | .number _ => [110, 117, 108, 108]
  | .string value => quote value
  | .array items => 91 :: (stringifyItems items ++ [93])
  | .object fields => 123 :: (stringifyMembers fields ++ [125])
termination_by structural v => v

def stringifyItems : List Json → Units
  | [] => []
  | [item] => item.stringify
  | item :: next :: items => item.stringify ++ 44 :: stringifyItems (next :: items)
termination_by structural items => items

def stringifyMembers : List (Units × Json) → Units
  | [] => []
  | [field] => stringifyMember field
  | field :: next :: fields => stringifyMember field ++ 44 :: stringifyMembers (next :: fields)
termination_by structural fields => fields

def stringifyMember : Units × Json → Units
  | (key, value) => quote key ++ 58 :: value.stringify
termination_by structural field => field

end

/-! ### Reading -/

def isBlankUnit (u : UInt16) : Bool := u = 32 || u = 9 || u = 10 || u = 13

def skipBlanks (text : Units) : Units := text.dropWhile isBlankUnit

def hexValue (u : UInt16) : Option ℕ :=
  if 48 ≤ u ∧ u ≤ 57 then some (u.toNat - 48)
  else if 97 ≤ u ∧ u ≤ 102 then some (u.toNat - 87)
  else if 65 ≤ u ∧ u ≤ 70 then some (u.toNat - 55)
  else none

/-- The unit that four digits stand for. -/
def readHex (a b c d : UInt16) : Option UInt16 :=
  (hexValue a).bind fun a => (hexValue b).bind fun b => (hexValue c).bind fun c => (hexValue d).map fun d =>
    (((a * 16 + b) * 16 + c) * 16 + d).toUInt16

/-- The unit that a letter behind a backslash stands for. -/
def unescape (u : UInt16) : Option UInt16 :=
  if u = 34 ∨ u = 92 ∨ u = 47 then some u
  else if u = 98 then some 8
  else if u = 102 then some 12
  else if u = 110 then some 10
  else if u = 114 then some 13
  else if u = 116 then some 9
  else none

/-- A text up to its closing quote, and what follows it. -/
def readBody : Units → Option (Units × Units)
  | [] => none
  | 34 :: rest => some ([], rest)
  | 92 :: 117 :: a :: b :: c :: d :: rest => (readHex a b c d).bind fun u => (readBody rest).map fun x => (u :: x.1, x.2)
  | 92 :: letter :: rest => (unescape letter).bind fun u => (readBody rest).map fun x => (u :: x.1, x.2)
  | u :: rest => if u < 32 ∨ u = 92 then none else (readBody rest).map fun x => (u :: x.1, x.2)

/-- A member takes the place of one of its name. -/
def setMember (fields : List (Units × Json)) (field : Units × Json) : List (Units × Json) :=
  if fields.any (·.1 = field.1) then fields.map fun f => if f.1 = field.1 then field else f else fields ++ [field]

def objectOf (fields : List (Units × Json)) : Json := .object (fields.foldl setMember [])

mutual

/-- A value, and what follows it. -/
def readValue : ℕ → Units → Option (Json × Units)
  | 0, _ => none
  | n + 1, text =>
    match skipBlanks text with
    | 110 :: 117 :: 108 :: 108 :: rest => some (.null, rest)
    | 116 :: 114 :: 117 :: 101 :: rest => some (.bool true, rest)
    | 102 :: 97 :: 108 :: 115 :: 101 :: rest => some (.bool false, rest)
    | 34 :: rest => (readBody rest).map fun x => (.string x.1, x.2)
    | 91 :: rest =>
      if (skipBlanks rest).head? = some 93 then some (.array [], (skipBlanks rest).tail)
      else (readItems n rest).map fun x => (.array x.1, x.2)
    | 123 :: rest =>
      if (skipBlanks rest).head? = some 125 then some (.object [], (skipBlanks rest).tail)
      else (readMembers n rest).map fun x => (objectOf x.1, x.2)
    | text => (readDouble text).map fun x => (.number x.1, x.2)
termination_by structural n => n

/-- The items up to the closing bracket. -/
def readItems : ℕ → Units → Option (List Json × Units)
  | 0, _ => none
  | n + 1, text => (readValue n text).bind fun item =>
    match skipBlanks item.2 with
    | 44 :: rest => (readItems n rest).map fun more => (item.1 :: more.1, more.2)
    | 93 :: rest => some ([item.1], rest)
    | _ => none
termination_by structural n => n

/-- The members up to the closing brace. -/
def readMembers : ℕ → Units → Option (List (Units × Json) × Units)
  | 0, _ => none
  | n + 1, text =>
    match skipBlanks text with
    | 34 :: rest => (readBody rest).bind fun key =>
      match skipBlanks key.2 with
      | 58 :: rest => (readValue n rest).bind fun value =>
        match skipBlanks value.2 with
        | 44 :: rest => (readMembers n rest).map fun more => ((key.1, value.1) :: more.1, more.2)
        | 125 :: rest => some ([(key.1, value.1)], rest)
        | _ => none
      | _ => none
    | _ => none
termination_by structural n => n

end

/-- `JSON.parse`, with time for the length of the text. -/
def Json.parse (text : Units) : Option Json :=
  (readValue (2 * text.length + 2) text).bind fun x => if skipBlanks x.2 = [] then some x.1 else none
/-! ### Texts are read back -/

theorem hexValue_hexDigit {n : ℕ} (h : n < 16) : hexValue (hexDigit n) = some n := by
  have hall : ∀ n < 16, hexValue (hexDigit n) = some n := by decide +kernel
  exact hall n h

theorem readHex_escape (u : UInt16) : readHex (hexDigit (u.toNat / 4096 % 16)) (hexDigit (u.toNat / 256 % 16)) (hexDigit (u.toNat / 16 % 16))
    (hexDigit (u.toNat % 16)) = some u := by
  have hdigit : ∀ n, hexValue (hexDigit (n % 16)) = some (n % 16) := fun n => hexValue_hexDigit (Nat.mod_lt n (by decide))
  have hsize := UInt16.toNat_lt u
  have hnumber : ((u.toNat / 4096 % 16 * 16 + u.toNat / 256 % 16) * 16 + u.toNat / 16 % 16) * 16 + u.toNat % 16 = u.toNat := by omega
  rw [readHex, hdigit, hdigit, hdigit, hdigit]
  simp only [Option.bind_some, Option.map_some, hnumber]
  exact congrArg some (UInt16.ofNat_toNat)

/-- A unit that stands for itself. -/
theorem readBody_plain {u : UInt16} (hsmall : ¬ u < 32) (hquote : u ≠ 34) (hbackslash : u ≠ 92) (rest : Units) :
    readBody (u :: rest) = (readBody rest).map fun x => (u :: x.1, x.2) := by
  rw [readBody, if_neg]
  · rintro (h | h)
    · exact hsmall h
    · exact hbackslash h
  · exact hquote
  · rintro a b c d rest rfl
    exact absurd rfl hbackslash
  · rintro letter rest rfl
    exact absurd rfl hbackslash

/-- Half of a pair stands for itself. -/
theorem readBody_surrogate {u : UInt16} (h : isHighSurrogate u = true ∨ isLowSurrogate u = true) (rest : Units) :
    readBody (u :: rest) = (readBody rest).map fun x => (u :: x.1, x.2) := by
  have hlarge : 0xD800 ≤ u := by
    simp only [isHighSurrogate, isLowSurrogate, Bool.and_eq_true, decide_eq_true_eq] at h
    rcases h with h | h
    · exact h.1
    · exact UInt16.le_trans (by decide) h.1
  refine readBody_plain (UInt16.not_lt.mpr (UInt16.le_trans (by decide) hlarge)) ?_ ?_ rest
  · rintro rfl
    exact absurd hlarge (by decide)
  · rintro rfl
    exact absurd hlarge (by decide)

theorem readBody_quoteUnit (u : UInt16) (rest : Units) : readBody (quoteUnit u ++ rest) = (readBody rest).map fun x => (u :: x.1, x.2) := by
  unfold quoteUnit
  cases hescape : SHORT_ESCAPES.find? (·.1 = u) with
  | some escape =>
      have hletters : (SHORT_ESCAPES.all fun e => decide (e.2 ≠ 117 ∧ unescape e.2 = some e.1)) = true := by decide +kernel
      obtain ⟨hletter, hread⟩ := of_decide_eq_true (List.all_eq_true.mp hletters escape (List.mem_of_find?_eq_some hescape))
      have hunit : escape.1 = u := by simpa using List.find?_some hescape
      simp only [List.cons_append, List.nil_append]
      rw [readBody, hread, hunit, Option.bind_some]
      exact fun _ _ _ _ _ heq => absurd heq hletter
  | none =>
      dsimp only
      split
      · rw [escapeUnit]
        simp only [List.cons_append, List.nil_append]
        rw [readBody, readHex_escape, Option.bind_some]
      · rename_i hplain
        have hnone := List.find?_eq_none.mp hescape
        have hquote : u ≠ 34 := fun heq => hnone (34, 34) (by decide) (by simp [heq])
        have hbackslash : u ≠ 92 := fun heq => hnone (92, 92) (by decide) (by simp [heq])
        simp only [Bool.or_eq_true, not_or, decide_eq_true_eq] at hplain
        exact readBody_plain hplain.1.1 hquote hbackslash rest

/-- A text is read back from between its quotes. -/
theorem readBody_quoteBody (us rest : Units) : readBody (quoteBody us ++ 34 :: rest) = some (us, rest) := by
  induction us using quoteBody.induct with
  | case1 => rfl
  | case2 u => rw [quoteBody, readBody_quoteUnit, readBody, Option.map_some]
  | case3 u v us hpair ih =>
      rw [quoteBody, if_pos hpair, List.cons_append, List.cons_append]
      rw [Bool.and_eq_true] at hpair
      rw [readBody_surrogate (.inl hpair.1), readBody_surrogate (.inr hpair.2), ih, Option.map_some, Option.map_some]
  | case4 u v us hpair ih =>
      rw [quoteBody, if_neg hpair, List.append_assoc, readBody_quoteUnit, ih, Option.map_some]

/-! ### Values are read back -/

/-- What JSON can say: no number that is not finite, and no two members of one name. -/
inductive Json.Plain : Json → Prop where
  | null : Json.Plain .null
  | bool (value : Bool) : Json.Plain (.bool value)
  | number {value : ℚ} (h : IsDouble value) : Json.Plain (.number (.finite value))
  | string (value : Units) : Json.Plain (.string value)
  | array {items : List Json} (h : ∀ item ∈ items, item.Plain) : Json.Plain (.array items)
  | object {fields : List (Units × Json)} (hnames : (fields.map Prod.fst).Nodup) (h : ∀ field ∈ fields, field.2.Plain) :
      Json.Plain (.object fields)

theorem foldl_setMember {before fields : List (Units × Json)} (h : ((before ++ fields).map Prod.fst).Nodup) :
    fields.foldl setMember before = before ++ fields := by
  induction fields generalizing before with
  | nil => simp
  | cons field fields ih =>
      have hnew : before.any (·.1 = field.1) = false := by
        rw [List.any_eq_false]
        intro f hf heq
        rw [List.map_append, List.map_cons, List.nodup_append] at h
        exact h.2.2 f.1 (List.mem_map_of_mem hf) field.1 List.mem_cons_self (of_decide_eq_true heq)
      rw [List.foldl_cons, setMember, hnew, if_neg Bool.false_ne_true, ih (by simpa using h), List.append_assoc, List.singleton_append]

/-- An object of different names is made of its members as they are. -/
theorem objectOf_nodup {fields : List (Units × Json)} (h : (fields.map Prod.fst).Nodup) : objectOf fields = .object fields := by
  rw [objectOf, foldl_setMember (by simpa using h), List.nil_append]

theorem ends_comma (rest : Units) : EndsNumber (44 :: rest) := by
  intro u hu
  obtain rfl := Option.some.inj hu
  decide

theorem ends_bracket (rest : Units) : EndsNumber (93 :: rest) := by
  intro u hu
  obtain rfl := Option.some.inj hu
  decide

theorem ends_brace (rest : Units) : EndsNumber (125 :: rest) := by
  intro u hu
  obtain rfl := Option.some.inj hu
  decide

/-- What a value's text begins with. -/
def Begins (text : Units) : Prop := ∃ u us, text = u :: us ∧ isBlankUnit u = false ∧ u ≠ 93 ∧ u ≠ 125

/-- A number begins with a digit or a minus sign. -/
theorem doubleText_head {x : ℚ} (h : IsDouble x) : ∃ u us, doubleText x = u :: us ∧ u ∈ ([45, 48, 49, 50, 51, 52, 53, 54, 55, 56, 57] : Units) := by
  unfold doubleText
  split
  · exact ⟨48, [], rfl, by decide⟩
  · rename_i hzero
    obtain ⟨d, hd, hpos, -⟩ := shortest_spec h.abs (abs_pos.mpr hzero)
    have hgood := good_numeralOf d hpos
    obtain ⟨e, more, hwhole⟩ := List.exists_cons_of_ne_nil hgood.whole_ne
    have hdigit : e < 10 := hgood.digits e (List.mem_append_left _ (hwhole ▸ List.mem_cons_self))
    have hall : ∀ e < 10, (48 + e).toUInt16 ∈ ([45, 48, 49, 50, 51, 52, 53, 54, 55, 56, 57] : Units) := by decide
    rw [hd]
    dsimp only [Option.map_some, Option.getD_some]
    split
    · exact ⟨45, _, rfl, by decide⟩
    · rw [Numeral.text, hwhole]
      exact ⟨_, _, rfl, hall e hdigit⟩

theorem begins_stringify {v : Json} (h : v.Plain) : Begins v.stringify := by
  cases h with
  | null => exact ⟨110, _, rfl, by decide⟩
  | bool value =>
      cases value with
      | false => exact ⟨102, _, rfl, by decide⟩
      | true => exact ⟨116, _, rfl, by decide⟩
  | number hx =>
      obtain ⟨u, us, htext, hu⟩ := doubleText_head hx
      have hall : ([45, 48, 49, 50, 51, 52, 53, 54, 55, 56, 57] : Units).all (fun u => decide (isBlankUnit u = false ∧ u ≠ 93 ∧ u ≠ 125)) = true := by
        decide
      exact ⟨u, us, htext, of_decide_eq_true (List.all_eq_true.mp hall u hu)⟩
  | string value => exact ⟨34, _, rfl, by decide⟩
  | array => exact ⟨91, _, rfl, by decide⟩
  | object => exact ⟨123, _, rfl, by decide⟩

theorem skipBlanks_begins {text : Units} (h : Begins text) (rest : Units) : skipBlanks (text ++ rest) = text ++ rest := by
  obtain ⟨u, us, rfl, hblank, -⟩ := h
  exact List.dropWhile_cons_of_neg (by rw [hblank]; exact Bool.false_ne_true)

theorem stringifyMember_append (key : Units) (value : Json) (rest : Units) :
    stringifyMember (key, value) ++ rest = 34 :: (quoteBody key ++ 34 :: 58 :: (value.stringify ++ rest)) := by
  simp [stringifyMember, quote]

/-- What a value is read as, with enough time for the length of its text. -/
def Reads (v : Json) : Prop :=
  ∀ n rest, 2 * v.stringify.length < n → EndsNumber rest → readValue n (v.stringify ++ rest) = some (v, rest)

theorem readItems_stringify {items : List Json} (hne : items ≠ []) (h : ∀ item ∈ items, Reads item) {n : ℕ} {rest : Units}
    (hn : 2 * (stringifyItems items).length + 1 < n) : readItems n (stringifyItems items ++ 93 :: rest) = some (items, rest) := by
  induction items generalizing n with
  | nil => exact absurd rfl hne
  | cons item items ih =>
      obtain ⟨n, rfl⟩ := Nat.exists_eq_succ_of_ne_zero (Nat.ne_zero_of_lt hn)
      cases items with
      | nil =>
          rw [stringifyItems] at hn ⊢
          rw [readItems, h item List.mem_cons_self n (93 :: rest) (by omega) (ends_bracket rest)]
          rfl
      | cons next items =>
          rw [stringifyItems, List.length_append, List.length_cons] at hn
          have hitem := h item List.mem_cons_self n (44 :: (stringifyItems (next :: items) ++ 93 :: rest)) (by omega) (ends_comma _)
          have hmore : readItems n (stringifyItems (next :: items) ++ 93 :: rest) = some (next :: items, rest) :=
            ih (List.cons_ne_nil _ _) (fun v hv => h v (List.mem_cons_of_mem _ hv)) (by omega)
          have hcomma : skipBlanks (44 :: (stringifyItems (next :: items) ++ 93 :: rest)) = 44 :: (stringifyItems (next :: items) ++ 93 :: rest) := rfl
          rw [stringifyItems, List.append_assoc, List.cons_append, readItems, hitem, Option.bind_some, hcomma]
          exact congrArg (Option.map fun more : List Json × Units => (item :: more.1, more.2)) hmore

theorem readMembers_stringify {fields : List (Units × Json)} (hne : fields ≠ []) (h : ∀ field ∈ fields, Reads field.2) {n : ℕ} {rest : Units}
    (hn : 2 * (stringifyMembers fields).length < n) : readMembers n (stringifyMembers fields ++ 125 :: rest) = some (fields, rest) := by
  induction fields generalizing n with
  | nil => exact absurd rfl hne
  | cons field fields ih =>
      obtain ⟨n, rfl⟩ := Nat.exists_eq_succ_of_ne_zero (Nat.ne_zero_of_lt hn)
      obtain ⟨key, value⟩ := field
      have hvalue : Reads value := h (key, value) List.mem_cons_self
      have hblanks : ∀ text, skipBlanks (34 :: text) = 34 :: text := fun _ => rfl
      have hcolon : ∀ text, skipBlanks (58 :: text) = 58 :: text := fun _ => rfl
      cases fields with
      | nil =>
          rw [stringifyMembers, stringifyMember, quote, List.length_append, List.length_cons] at hn
          have hread := hvalue n (125 :: rest) (by omega) (ends_brace rest)
          rw [stringifyMembers, stringifyMember_append, readMembers, hblanks]
          simp only [readBody_quoteBody, Option.bind_some, hcolon, hread]
          rfl
      | cons next fields =>
          rw [stringifyMembers, stringifyMember, quote, List.length_append, List.length_append, List.length_cons, List.length_cons] at hn
          have hread := hvalue n (44 :: (stringifyMembers (next :: fields) ++ 125 :: rest)) (by omega) (ends_comma _)
          have hmore : readMembers n (stringifyMembers (next :: fields) ++ 125 :: rest) = some (next :: fields, rest) :=
            ih (List.cons_ne_nil _ _) (fun f hf => h f (List.mem_cons_of_mem _ hf)) (by omega)
          rw [stringifyMembers, List.append_assoc, stringifyMember_append, List.cons_append, readMembers, hblanks]
          simp only [readBody_quoteBody, Option.bind_some, hcolon, hread]
          exact congrArg (Option.map fun more : List (Units × Json) × Units => ((key, value) :: more.1, more.2)) hmore

theorem reads_of_plain {v : Json} (h : v.Plain) : Reads v := by
  induction h with
  | null =>
      intro n rest hn hrest
      obtain ⟨n, rfl⟩ := Nat.exists_eq_succ_of_ne_zero (Nat.ne_zero_of_lt hn)
      rfl
  | bool value =>
      intro n rest hn hrest
      obtain ⟨n, rfl⟩ := Nat.exists_eq_succ_of_ne_zero (Nat.ne_zero_of_lt hn)
      cases value <;> rfl
  | @number x hx =>
      intro n rest hn hrest
      obtain ⟨n, rfl⟩ := Nat.exists_eq_succ_of_ne_zero (Nat.ne_zero_of_lt hn)
      have hread := readDouble_doubleText hx hrest
      have hskip := skipBlanks_begins (begins_stringify (.number hx)) rest
      obtain ⟨u, us, htext, hhead⟩ := doubleText_head hx
      rw [Json.stringify] at hskip ⊢
      rw [readValue, hskip]
      rw [htext, List.cons_append] at hread ⊢
      split
      case h_7 => rw [hread, Option.map_some]
      all_goals
        rename_i heq
        rw [(List.cons.inj heq).1] at hhead
        exact absurd hhead (by decide)
  | string value =>
      intro n rest hn hrest
      obtain ⟨n, rfl⟩ := Nat.exists_eq_succ_of_ne_zero (Nat.ne_zero_of_lt hn)
      rw [Json.stringify, quote, List.append_assoc, List.cons_append, List.singleton_append]
      exact congrArg (Option.map fun x : Units × Units => (Json.string x.1, x.2)) (readBody_quoteBody value rest)
  | @array items hitems ih =>
      intro n rest hn hrest
      obtain ⟨n, rfl⟩ := Nat.exists_eq_succ_of_ne_zero (Nat.ne_zero_of_lt hn)
      have hbracket : ∀ text, skipBlanks (91 :: text) = 91 :: text := fun _ => rfl
      rw [Json.stringify, List.length_cons, List.length_append] at hn
      rw [Json.stringify, List.cons_append, List.append_assoc, List.singleton_append, readValue, hbracket]
      cases items with
      | nil => rfl
      | cons item items =>
          have hread : readItems n (stringifyItems (item :: items) ++ 93 :: rest) = some (item :: items, rest) :=
            readItems_stringify (List.cons_ne_nil _ _) ih (by simp only [List.length_cons, List.length_nil] at hn; omega)
          have hopen : ¬ (skipBlanks (stringifyItems (item :: items) ++ 93 :: rest)).head? = some 93 := by
            obtain ⟨u, us, htext, hblank, hclosed, -⟩ := begins_stringify (hitems item List.mem_cons_self)
            have hfirst : ∃ more, stringifyItems (item :: items) ++ 93 :: rest = u :: more := by
              cases items <;> exact ⟨_, by rw [stringifyItems, htext]; rfl⟩
            obtain ⟨more, hmore⟩ := hfirst
            rw [hmore, skipBlanks, List.dropWhile_cons_of_neg (by rw [hblank]; exact Bool.false_ne_true)]
            exact fun heq => hclosed (Option.some.inj heq)
          exact (if_neg hopen).trans (congrArg (Option.map fun x : List Json × Units => (Json.array x.1, x.2)) hread)
  | @object fields hnames hfields ih =>
      intro n rest hn hrest
      obtain ⟨n, rfl⟩ := Nat.exists_eq_succ_of_ne_zero (Nat.ne_zero_of_lt hn)
      have hbrace : ∀ text, skipBlanks (123 :: text) = 123 :: text := fun _ => rfl
      rw [Json.stringify, List.length_cons, List.length_append] at hn
      rw [Json.stringify, List.cons_append, List.append_assoc, List.singleton_append, readValue, hbrace]
      cases fields with
      | nil => rfl
      | cons field fields =>
          have hread : readMembers n (stringifyMembers (field :: fields) ++ 125 :: rest) = some (field :: fields, rest) :=
            readMembers_stringify (List.cons_ne_nil _ _) ih (by simp only [List.length_cons, List.length_nil] at hn; omega)
          have hopen : ¬ (skipBlanks (stringifyMembers (field :: fields) ++ 125 :: rest)).head? = some 125 := by
            have hfirst : ∃ more, stringifyMembers (field :: fields) ++ 125 :: rest = 34 :: more := by
              obtain ⟨key, value⟩ := field
              cases fields with
              | nil => exact ⟨_, by rw [stringifyMembers, stringifyMember_append]⟩
              | cons => exact ⟨_, by rw [stringifyMembers, List.append_assoc, stringifyMember_append]⟩
            obtain ⟨more, hmore⟩ := hfirst
            have hquote : skipBlanks (34 :: more) = 34 :: more := rfl
            rw [hmore, hquote]
            exact fun heq => absurd (Option.some.inj heq) (by decide)
          refine (if_neg hopen).trans ((congrArg (Option.map fun x : List (Units × Json) × Units => (objectOf x.1, x.2)) hread).trans ?_)
          rw [Option.map_some, objectOf_nodup hnames]

/-- **A value is read back.** -/
theorem parse_stringify {v : Json} (h : v.Plain) : Json.parse v.stringify = some v := by
  have hread := reads_of_plain h (2 * v.stringify.length + 2) [] (by omega) (fun u hu => by cases hu)
  rw [List.append_nil] at hread
  rw [Json.parse, hread]
  rfl

/-! ### Reading comes to an end -/

theorem readBody_length {text : Units} {x : Units × Units} (h : readBody text = some x) : x.1.length + x.2.length < text.length := by
  induction text using readBody.induct generalizing x with
  | case1 => cases h
  | case2 rest =>
      obtain rfl := Option.some.inj h
      simp
  | case3 a b c d rest ih =>
      rw [readBody] at h
      obtain ⟨u, -, h⟩ := Option.bind_eq_some_iff.mp h
      obtain ⟨y, hy, rfl⟩ := Option.map_eq_some_iff.mp h
      have hshort := ih hy
      simp only [List.length_cons] at hshort ⊢
      omega
  | case4 letter rest hhex ih =>
      rw [readBody] at h
      · obtain ⟨u, -, h⟩ := Option.bind_eq_some_iff.mp h
        obtain ⟨y, hy, rfl⟩ := Option.map_eq_some_iff.mp h
        have hshort := ih hy
        simp only [List.length_cons] at hshort ⊢
        omega
      · exact hhex
  | case5 u rest hquote hhex hshort hrefused =>
      rw [readBody, if_pos hrefused] at h
      · cases h
      · exact hquote
      · exact hhex
      · exact hshort
  | case6 u rest hquote hhex hshort hplain ih =>
      rw [readBody, if_neg hplain] at h
      · obtain ⟨y, hy, rfl⟩ := Option.map_eq_some_iff.mp h
        have hless := ih hy
        simp only [List.length_cons] at hless ⊢
        omega
      · exact hquote
      · exact hhex
      · exact hshort

theorem skipBlanks_length (text : Units) : (skipBlanks text).length ≤ text.length := (List.dropWhile_suffix _).length_le

theorem readDigits_length (text : Units) : (readDigits text).1.length + (readDigits text).2.length = text.length := by
  fun_induction readDigits text with
  | case1 => rfl
  | case2 u rest d hd ih =>
      simp only [List.length_cons]
      omega
  | case3 u rest hu => simp

theorem readFraction_length {text : Units} {x : List ℕ × Units} (h : readFraction text = some x) : x.2.length ≤ text.length := by
  unfold readFraction at h
  split at h
  · rename_i rest
    have hlength := readDigits_length rest
    split at h
    · cases h
    · obtain rfl := Option.some.inj h
      simp only [List.length_cons]
      omega
  · obtain rfl := Option.some.inj h
    exact le_rfl

theorem readExponent_length {text : Units} {x : Option ℤ × Units} (h : readExponent text = some x) : x.2.length ≤ text.length := by
  unfold readExponent at h
  split at h
  · obtain rfl := Option.some.inj h
    exact le_rfl
  · rename_i u rest
    split at h
    · have hlength := readDigits_length (if rest.head? = some 43 ∨ rest.head? = some 45 then rest.drop 1 else rest)
      have hsign : (if rest.head? = some 43 ∨ rest.head? = some 45 then rest.drop 1 else rest).length ≤ rest.length := by
        split
        · exact (List.drop_sublist 1 rest).length_le
        · exact le_rfl
      dsimp only at h
      generalize (if rest.head? = some 43 ∨ rest.head? = some 45 then rest.drop 1 else rest) = behind at h hlength hsign
      split at h
      · cases h
      · obtain rfl := Option.some.inj h
        simp only [List.length_cons]
        omega
    · obtain rfl := Option.some.inj h
      exact le_rfl

theorem readNumeral_length {text : Units} {x : Numeral × Units} (h : readNumeral text = some x) : x.2.length < text.length := by
  unfold readNumeral at h
  dsimp only at h
  split at h
  · cases h
  · rename_i hne
    obtain ⟨fraction, hfraction, h⟩ := Option.bind_eq_some_iff.mp h
    obtain ⟨exponent, hexponent, rfl⟩ := Option.map_eq_some_iff.mp h
    have hwhole := readDigits_length text
    have hpos : 0 < (readDigits text).1.length := List.length_pos_iff.mpr fun hnil => hne (.inl hnil)
    have hone := readFraction_length hfraction
    have htwo := readExponent_length hexponent
    dsimp only
    omega

theorem readDouble_length {text : Units} {x : Number × Units} (h : readDouble text = some x) : x.2.length < text.length := by
  unfold readDouble at h
  split at h
  · obtain ⟨y, hy, rfl⟩ := Option.map_eq_some_iff.mp h
    exact (readNumeral_length hy).trans (Nat.lt_succ_self _)
  · obtain ⟨y, hy, rfl⟩ := Option.map_eq_some_iff.mp h
    exact readNumeral_length hy

/-- Whatever is read takes at least a unit of the text. -/
theorem read_length (n : ℕ) :
    (∀ text x, readValue n text = some x → x.2.length < text.length) ∧ (∀ text x, readItems n text = some x → x.2.length < text.length) ∧
      ∀ text x, readMembers n text = some x → x.2.length < text.length := by
  induction n with
  | zero =>
      refine ⟨?_, ?_, ?_⟩
      all_goals
        intro text x h
        cases h
  | succ n ih =>
      obtain ⟨hvalue, hitems, hmembers⟩ := ih
      refine ⟨fun text x h => ?_, fun text x h => ?_, fun text x h => ?_⟩
      · have hskip := skipBlanks_length text
        have htail : ∀ rest : Units, (skipBlanks rest).tail.length ≤ rest.length := fun rest =>
          (List.tail_sublist _).length_le.trans (skipBlanks_length rest)
        rw [readValue] at h
        split at h
        case h_4 rest heq =>
          obtain ⟨y, hy, rfl⟩ := Option.map_eq_some_iff.mp h
          have hbody := readBody_length hy
          rw [heq, List.length_cons] at hskip
          dsimp only
          omega
        case h_5 rest heq =>
          rw [heq, List.length_cons] at hskip
          split at h
          · obtain rfl := Option.some.inj h
            have hclose := htail rest
            dsimp only
            omega
          · obtain ⟨y, hy, rfl⟩ := Option.map_eq_some_iff.mp h
            have hinside := hitems _ _ hy
            dsimp only
            omega
        case h_6 rest heq =>
          rw [heq, List.length_cons] at hskip
          split at h
          · obtain rfl := Option.some.inj h
            have hclose := htail rest
            dsimp only
            omega
          · obtain ⟨y, hy, rfl⟩ := Option.map_eq_some_iff.mp h
            have hinside := hmembers _ _ hy
            dsimp only
            omega
        case h_7 =>
          obtain ⟨y, hy, rfl⟩ := Option.map_eq_some_iff.mp h
          exact (readDouble_length hy).trans_le hskip
        all_goals
          rename_i rest heq
          obtain rfl := Option.some.inj h
          rw [heq] at hskip
          simp only [List.length_cons] at hskip
          dsimp only
          omega
      · rw [readItems] at h
        obtain ⟨item, hitem, h⟩ := Option.bind_eq_some_iff.mp h
        have hfirst := hvalue _ _ hitem
        have hskip := skipBlanks_length item.2
        split at h
        · rename_i rest heq
          obtain ⟨more, hmore, rfl⟩ := Option.map_eq_some_iff.mp h
          have hrest := hitems _ _ hmore
          rw [heq, List.length_cons] at hskip
          dsimp only
          omega
        · rename_i rest heq
          obtain rfl := Option.some.inj h
          rw [heq, List.length_cons] at hskip
          dsimp only
          omega
        · cases h
      · rw [readMembers] at h
        have hstart := skipBlanks_length text
        split at h
        · rename_i rest heq
          obtain ⟨key, hkey, h⟩ := Option.bind_eq_some_iff.mp h
          have hname := readBody_length hkey
          have hcolon := skipBlanks_length key.2
          rw [heq, List.length_cons] at hstart
          split at h
          · rename_i behind hbehind
            obtain ⟨value, hread, h⟩ := Option.bind_eq_some_iff.mp h
            have hfirst := hvalue _ _ hread
            have hskip := skipBlanks_length value.2
            rw [hbehind, List.length_cons] at hcolon
            split at h
            · rename_i after hafter
              obtain ⟨more, hmore, rfl⟩ := Option.map_eq_some_iff.mp h
              have hrest := hmembers _ _ hmore
              rw [hafter, List.length_cons] at hskip
              dsimp only
              omega
            · rename_i after hafter
              obtain rfl := Option.some.inj h
              rw [hafter, List.length_cons] at hskip
              dsimp only
              omega
            · cases h
          · cases h
        · cases h

/-- More time than the length of the text asks for reads the same. -/
theorem read_enough (n : ℕ) :
    (∀ text, 2 * text.length < n → readValue (n + 1) text = readValue n text) ∧
      (∀ text, 2 * text.length + 1 < n → readItems (n + 1) text = readItems n text) ∧
      ∀ text, 2 * text.length < n → readMembers (n + 1) text = readMembers n text := by
  induction n with
  | zero =>
      refine ⟨?_, ?_, ?_⟩
      all_goals
        intro text h
        omega
  | succ n ih =>
      obtain ⟨hvalue, hitems, hmembers⟩ := ih
      refine ⟨fun text h => ?_, fun text h => ?_, fun text h => ?_⟩
      · have hskip := skipBlanks_length text
        rw [readValue, readValue]
        split
        case h_5 rest heq =>
          rw [heq, List.length_cons] at hskip
          rw [hitems rest (by omega)]
        case h_6 rest heq =>
          rw [heq, List.length_cons] at hskip
          rw [hmembers rest (by omega)]
        all_goals rfl
      · rw [readItems, readItems, hvalue text (by omega)]
        cases hitem : readValue n text with
        | none => rfl
        | some item =>
            have hfirst := (read_length n).1 _ _ hitem
            have hskip := skipBlanks_length item.2
            simp only [Option.bind_some]
            split
            · rename_i rest heq
              rw [heq, List.length_cons] at hskip
              rw [hitems rest (by omega)]
            · rfl
            · rfl
      · have hstart := skipBlanks_length text
        rw [readMembers, readMembers]
        split
        · rename_i rest heq
          rw [heq, List.length_cons] at hstart
          cases hkey : readBody rest with
          | none => rfl
          | some key =>
              have hname := readBody_length hkey
              have hcolon := skipBlanks_length key.2
              simp only [Option.bind_some]
              split
              · rename_i behind hbehind
                rw [hbehind, List.length_cons] at hcolon
                rw [hvalue behind (by omega)]
                cases hread : readValue n behind with
                | none => rfl
                | some value =>
                    have hfirst := (read_length n).1 _ _ hread
                    have hskip := skipBlanks_length value.2
                    simp only [Option.bind_some]
                    split
                    · rename_i after hafter
                      rw [hafter, List.length_cons] at hskip
                      rw [hmembers after (by omega)]
                    · rfl
                    · rfl
              · rfl
        · rfl

/-- `JSON.parse` has time enough. -/
theorem parse_enough {text : Units} {n : ℕ} (h : 2 * text.length + 2 ≤ n) :
    Json.parse text = (readValue n text).bind fun x => if skipBlanks x.2 = [] then some x.1 else none := by
  have hsame : ∀ k, readValue (2 * text.length + 2 + k) text = readValue (2 * text.length + 2) text := by
    intro k
    induction k with
    | zero => rfl
    | succ k ih => rw [← ih, ← Nat.add_assoc, (read_enough _).1 text (by omega)]
  obtain ⟨k, rfl⟩ := Nat.exists_eq_add_of_le h
  rw [Json.parse, hsame]

/-- A text that is read as a string is longer than the string. -/
theorem longer_than_string {text s : Units} (h : Json.parse text = some (.string s)) : s.length < text.length := by
  unfold Json.parse at h
  obtain ⟨x, hx, h⟩ := Option.bind_eq_some_iff.mp h
  have hvalue : x.1 = .string s := by
    split at h
    · exact Option.some.inj h
    · cases h
  rw [readValue] at hx
  have hskip := skipBlanks_length text
  split at hx
  case h_4 rest heq =>
    obtain ⟨y, hy, rfl⟩ := Option.map_eq_some_iff.mp hx
    have hbody := readBody_length hy
    obtain rfl := Json.string.inj hvalue
    rw [heq, List.length_cons] at hskip
    omega
  case h_5 =>
    split at hx
    · obtain rfl := Option.some.inj hx
      cases hvalue
    · obtain ⟨y, -, rfl⟩ := Option.map_eq_some_iff.mp hx
      cases hvalue
  case h_6 =>
    split at hx
    · obtain rfl := Option.some.inj hx
      cases hvalue
    · obtain ⟨y, -, rfl⟩ := Option.map_eq_some_iff.mp hx
      cases hvalue
  case h_7 =>
    obtain ⟨y, -, rfl⟩ := Option.map_eq_some_iff.mp hx
    cases hvalue
  all_goals
    obtain rfl := Option.some.inj hx
    cases hvalue

end Pokyh.Lib
