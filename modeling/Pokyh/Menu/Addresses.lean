import Pokyh.Lib.Patterns
import Pokyh.Lib.Texts

/-!
# Menu — Addresses

Which addresses a menu source may not lead to (`utils/safeFetch.ts`): `isInternalAddress` judges an IPv6 address by its eight groups
(`v6Groups`), and one that carries an IPv4 address by that one.

* `Spelling`: how an IPv6 address is written: any number of its groups as digits of either case, a gap, a dotted end, a zone.
* `v6Groups_text`: **every spelling is read as the groups it stands for.**
* `addresses_judged`: **an address is judged by its value, and the four forms that carry an IPv4 address as that one.**
-/

namespace Pokyh.Menu.Addresses
open Pokyh.Lib

/-! ### IPv4 -/

/-- The number of some decimal digits; other texts are not a number. -/
def decimal (text : List Char) : Option ℕ :=
  if text.all Char.isDigit then some (text.foldl (fun n c => 10 * n + (c.toNat - 48)) 0) else none

/-- A decimal from 0 to 255 without zeros before it. -/
def isOctet (text : List Char) : Bool :=
  text ≠ [] && (text.length = 1 || text.head? ≠ some '0') && (decimal text).any (· ≤ 255)

/-- `net.isIPv4`: four of them with dots between. -/
def isIPv4 (address : List Char) : Bool :=
  (address.splitOn '.').length = 4 && (address.splitOn '.').all isOctet

/-- The ranges a server can reach and the internet cannot; a comparison with what is no number fails. -/
def isInternalV4 (address : List Char) : Bool :=
  let parts := (address.splitOn '.').map decimal
  let a := parts.getD 0 (some 0)
  let b := parts.getD 1 (some 0)
  let c := parts.getD 2 (some 0)
  a = some 0 || a = some 10 || a = some 127 || (a = some 169 && b = some 254) || (a = some 172 && b.any (· ≥ 16) && b.any (· ≤ 31)) ||
    (a = some 192 && b = some 168) || (a = some 192 && b = some 0 && c = some 0) ||
    (a = some 198 && (b = some 18 || b = some 19)) || (a = some 100 && b.any (· ≥ 64) && b.any (· ≤ 127)) || a.any (· ≥ 224)

/-! ### IPv6 -/

/-- `(\d+\.\d+\.\d+\.\d+)$`, as the text that matches. -/
def dottedPattern : Pattern Char (List Char) :=
  .bind (.atLeast Char.isDigit 1) fun a => .bind (.one (· = '.')) fun _ =>
  .bind (.atLeast Char.isDigit 1) fun b => .bind (.one (· = '.')) fun _ =>
  .bind (.atLeast Char.isDigit 1) fun c => .bind (.one (· = '.')) fun _ =>
  .bind (.atLeast Char.isDigit 1) fun d => .bind .ends fun _ =>
  .give (a ++ '.' :: b ++ '.' :: c ++ '.' :: d)

/-- `(high << 8) | low` as a 32-bit integer, in hexadecimal. -/
def hexOf (high low : ℕ) : List Char :=
  let n := (BitVec.ofNat 32 high <<< 8 ||| BitVec.ofNat 32 low).toInt
  if n < 0 then '-' :: Nat.toDigits 16 n.natAbs else Nat.toDigits 16 n.natAbs

/-- A text split at each `::`. -/
def splitGaps : List Char → List (List Char)
  | ':' :: ':' :: rest => [] :: splitGaps rest
  | c :: rest => (splitGaps rest).modifyHead (c :: ·)
  | [] => [[]]

def hexDigit (c : Char) : Option ℕ :=
  if c.isDigit then some (c.toNat - 48)
  else if 'a' ≤ c ∧ c ≤ 'f' then some (c.toNat - 87)
  else if 'A' ≤ c ∧ c ≤ 'F' then some (c.toNat - 55)
  else none

def hexNumber (digits : List Char) : ℕ := digits.foldl (fun n c => 16 * n + (hexDigit c).getD 0) 0

/-- `parseInt(text, 16)`: the digits that a text begins with, behind white space, a sign and `0x`. -/
def parseHex (text : List Char) : Option ℤ :=
  let signed := text.dropWhile isSpace
  let negative := signed.head? = some '-'
  let unsigned := if signed.head? = some '-' ∨ signed.head? = some '+' then signed.tail else signed
  let bare := if unsigned.take 2 = ['0', 'x'] ∨ unsigned.take 2 = ['0', 'X'] then unsigned.drop 2 else unsigned
  let digits := bare.takeWhile fun c => (hexDigit c).isSome
  if digits = [] then none else some (if negative then -hexNumber digits else hexNumber digits)

/-- The groups of one part of an address. -/
def groupsOf (part : List Char) : List (List Char) := if part = [] then [] else part.splitOn ':'

/-- The address with its dotted end as two groups. -/
def undotted (text : List Char) : List Char :=
  match Pattern.search dottedPattern [] text with
  | none => text
  | some (before, dotted) =>
    let parts := (dotted.splitOn '.').map fun part => (decimal part).getD 0
    before ++ hexOf (parts.getD 0 0) (parts.getD 1 0) ++ ':' :: hexOf (parts.getD 2 0) (parts.getD 3 0)

section
variable (unicode : List Char → List Char)

/-- The sixteen bits of each group, `::` and a dotted end expanded. -/
def v6Groups (address : List Char) : Option (List ℕ) :=
  let text := undotted (((toLowerCase unicode address).splitOn '%').headD [])
  let parts := splitGaps text
  let left := groupsOf (parts.headD [])
  let right := groupsOf (parts.getD 1 [])
  let fill : ℤ := if parts.length ≤ 1 then 0 else 8 - left.length - right.length
  if fill < 0 then none
  else
    let groups := (left ++ List.replicate fill.toNat ['0'] ++ right).map parseHex
    if groups.length = 8 ∧ groups.all (fun g => g.any fun n => 0 ≤ n ∧ n ≤ 0xffff) then
      some (groups.map fun g => (g.getD 0).toNat)
    else none

def v4Of (high low : ℕ) : List Char :=
  Nat.toDigits 10 (high >>> 8) ++ '.' :: Nat.toDigits 10 (high &&& 255) ++ '.' :: Nat.toDigits 10 (low >>> 8) ++
    '.' :: Nat.toDigits 10 (low &&& 255)

/-- The answer for eight groups. -/
def isInternalGroups (g : List ℕ) : Bool :=
  let g0 := g.getD 0 0
  let g1 := g.getD 1 0
  let g2 := g.getD 2 0
  let g3 := g.getD 3 0
  let g4 := g.getD 4 0
  let g5 := g.getD 5 0
  let g6 := g.getD 6 0
  let g7 := g.getD 7 0
  let startsZero := g0 = 0 ∧ g1 = 0 ∧ g2 = 0 ∧ g3 = 0 ∧ g4 = 0
  if startsZero ∧ (g5 = 0xffff ∨ g5 = 0) then (g5 = 0 && g6 = 0 && g7 ≤ 1) || isInternalV4 (v4Of g6 g7)
  else if g0 = 0x64 ∧ g1 = 0xff9b then isInternalV4 (v4Of g6 g7)
  else if g0 = 0x2002 then isInternalV4 (v4Of g1 g2)
  else g0 &&& 0xfe00 = 0xfc00 || g0 &&& 0xffc0 = 0xfe80 || g0 &&& 0xffc0 = 0xfec0 || g0 &&& 0xff00 = 0xff00

/-- Whether an address leads inside; what cannot be read does. -/
def isInternalAddress (address : List Char) : Bool :=
  if isIPv4 address then isInternalV4 address else ((v6Groups unicode address).map isInternalGroups).getD true

end

/-! ### Spellings -/

/-- A group as it is written: one to four hexadecimal digits. -/
structure Hextet where
  digits : List Char
  nonempty : digits ≠ []
  short : digits.length ≤ 4
  hex : ∀ c ∈ digits, (hexDigit c).isSome = true

def Hextet.value (x : Hextet) : ℕ := hexNumber x.digits

structure V4 where
  a : Fin 256
  b : Fin 256
  c : Fin 256
  d : Fin 256

/-- Four decimals with dots between. -/
def V4.dotted (v : V4) : List Char :=
  Nat.toDigits 10 v.a ++ '.' :: Nat.toDigits 10 v.b ++ '.' :: Nat.toDigits 10 v.c ++ '.' :: Nat.toDigits 10 v.d

def V4.high (v : V4) : ℕ := v.a * 256 + v.b

def V4.low (v : V4) : ℕ := v.c * 256 + v.d

/-- Parts with colons between. -/
def joined (parts : List (List Char)) : List Char := [':'].intercalate parts

/-- Some groups, and maybe an IPv4 address in place of the last two. -/
structure Ending where
  groups : List Hextet
  v4 : Option V4

def Ending.parts (e : Ending) : List (List Char) := e.groups.map (·.digits) ++ e.v4.toList.map V4.dotted

def Ending.values (e : Ending) : List ℕ := e.groups.map Hextet.value ++ e.v4.elim [] fun v => [v.high, v.low]

/-- Eight groups, or fewer around a gap that stands for the missing ones. -/
inductive Body where
  | full (e : Ending) (h : e.values.length = 8)
  | gap (left : List Hextet) (right : Ending) (h : left.length + right.values.length ≤ 7)

def Body.text : Body → List Char
  | .full e _ => joined e.parts
  | .gap left right _ => joined (left.map (·.digits)) ++ ':' :: ':' :: joined right.parts

def Body.value : Body → List ℕ
  | .full e _ => e.values
  | .gap left right _ => left.map Hextet.value ++ List.replicate (8 - (left.length + right.values.length)) 0 ++ right.values

/-- A letter, digit or mark of a zone. -/
def isZoneChar (c : Char) : Bool := c.isAlphanum || c = '-' || c = '.' || c = ':'

/-- How an IPv6 address is written. -/
structure Spelling where
  body : Body
  zone : Option (List Char)
  zone_chars : ∀ z ∈ zone, z ≠ [] ∧ ∀ c ∈ z, isZoneChar c = true

def Spelling.text (s : Spelling) : List Char := s.body.text ++ s.zone.elim [] fun z => '%' :: z

def Spelling.value (s : Spelling) : List ℕ := s.body.value

/-! ### Digits -/

theorem hexDigit_ascii {c : Char} (h : (hexDigit c).isSome = true) : c.toNat < 128 := by
  have hle : ∀ top : Char, c ≤ top → c.toNat ≤ top.toNat := fun top h => h
  unfold hexDigit at h
  split at h
  · rename_i hdigit
    simp only [Char.isDigit, Bool.and_eq_true, decide_eq_true_eq] at hdigit
    exact Nat.lt_of_le_of_lt (hle '9' hdigit.2) (by decide)
  · split at h
    · rename_i hletter
      exact Nat.lt_of_le_of_lt (hle 'f' hletter.2) (by decide)
    · split at h
      · rename_i hletter
        exact Nat.lt_of_le_of_lt (hle 'F' hletter.2) (by decide)
      · cases h

/-- What is known of a hexadecimal digit. -/
theorem hexDigit_facts {c : Char} (h : (hexDigit c).isSome = true) :
    hexDigit c.toLower = hexDigit c ∧ (hexDigit c).getD 0 < 16 ∧ isSpace c = false ∧ c ∉ ['-', '+', 'x', 'X', ':', '.', '%'] := by
  have hall : ∀ k < 128, (hexDigit (Char.ofNat k)).isSome = true → hexDigit (Char.ofNat k).toLower = hexDigit (Char.ofNat k) ∧
      (hexDigit (Char.ofNat k)).getD 0 < 16 ∧ isSpace (Char.ofNat k) = false ∧
      Char.ofNat k ∉ ['-', '+', 'x', 'X', ':', '.', '%'] := by decide +kernel
  exact ascii_cases (P := fun c => (hexDigit c).isSome = true → hexDigit c.toLower = hexDigit c ∧ (hexDigit c).getD 0 < 16 ∧
    isSpace c = false ∧ c ∉ ['-', '+', 'x', 'X', ':', '.', '%']) hall (hexDigit_ascii h) h

theorem isDigit_facts {c : Char} (h : c.isDigit = true) :
    (hexDigit c).isSome = true ∧ c ∉ ['.', ':', '%'] ∧ c.toLower = c ∧ c.toNat < 128 := by
  have hhex : (hexDigit c).isSome = true := by simp [hexDigit, h]
  have hascii := hexDigit_ascii hhex
  have hall : ∀ k < 128, (Char.ofNat k).isDigit = true → Char.ofNat k ∉ ['.', ':', '%'] ∧ (Char.ofNat k).toLower = Char.ofNat k := by
    decide +kernel
  obtain ⟨hmark, hlower⟩ := ascii_cases (P := fun c => c.isDigit = true → c ∉ ['.', ':', '%'] ∧ c.toLower = c) hall hascii h
  exact ⟨hhex, hmark, hlower, hascii⟩

/-- Four digits make sixteen bits. -/
theorem Hextet.value_lt (x : Hextet) : x.value < 65536 := by
  have hbound : ∀ (digits : List Char) (n : ℕ), (∀ c ∈ digits, (hexDigit c).isSome = true) →
      digits.foldl (fun n c => 16 * n + (hexDigit c).getD 0) n < (n + 1) * 16 ^ digits.length := by
    intro digits
    induction digits with
    | nil => intro n _; simp
    | cons c digits ih =>
        intro n hhex
        have hc := (hexDigit_facts (hhex c List.mem_cons_self)).2.1
        have hrest := ih (16 * n + (hexDigit c).getD 0) fun d hd => hhex d (List.mem_cons_of_mem _ hd)
        calc _ < (16 * n + (hexDigit c).getD 0 + 1) * 16 ^ digits.length := hrest
          _ ≤ ((n + 1) * 16) * 16 ^ digits.length := Nat.mul_le_mul_right _ (by omega)
          _ = (n + 1) * 16 ^ (c :: digits).length := by rw [List.length_cons, Nat.pow_succ, Nat.mul_assoc, Nat.mul_comm 16]
  have hlt := hbound x.digits 0 x.hex
  have hpow : 16 ^ x.digits.length ≤ 16 ^ 4 := Nat.pow_le_pow_right (by decide) x.short
  unfold Hextet.value hexNumber
  omega

/-- **A group is read as its value.** -/
theorem parseHex_hextet (x : Hextet) : parseHex x.digits = some (x.value : ℤ) := by
  obtain ⟨c, rest, hdigits⟩ : ∃ c rest, x.digits = c :: rest := List.exists_cons_of_ne_nil x.nonempty
  have hhex := x.hex
  rw [hdigits] at hhex
  obtain ⟨-, -, hspace, hmarks⟩ := hexDigit_facts (hhex c List.mem_cons_self)
  simp only [List.mem_cons, List.not_mem_nil, or_false, not_or] at hmarks
  have hprefix : ¬ ((c :: rest).take 2 = ['0', 'x'] ∨ (c :: rest).take 2 = ['0', 'X']) := by
    cases rest with
    | nil => simp
    | cons d rest =>
        have hd := (hexDigit_facts (hhex d (List.mem_cons_of_mem _ List.mem_cons_self))).2.2.2
        simp only [List.mem_cons, List.not_mem_nil, or_false, not_or] at hd
        simp [hd]
  have hrun : (c :: rest).takeWhile (fun c => (hexDigit c).isSome) = c :: rest := List.takeWhile_eq_self_iff.mpr hhex
  unfold parseHex
  rw [hdigits, List.dropWhile_cons_of_neg (by simp [hspace])]
  simp only [List.head?_cons, Option.some.injEq, hmarks, or_self, if_false, hprefix, hrun, reduceCtorEq, Hextet.value, hdigits]

/-! ### Dotted ends -/

theorem isDigit_toDigits {n : ℕ} {c : Char} (h : c ∈ Nat.toDigits 10 n) : c.isDigit = true :=
  Nat.isDigit_of_mem_toDigits (by decide) (by decide) h

theorem decimal_toDigits (n : ℕ) : decimal (Nat.toDigits 10 n) = some n := by
  rw [decimal, if_pos (List.all_eq_true.mpr fun c hc => isDigit_toDigits hc)]
  exact congrArg some (Nat.ofDigitChars_toDigits (by decide) (by decide))

theorem splitOn_dotted (v : V4) :
    v.dotted.splitOn '.' = [Nat.toDigits 10 v.a, Nat.toDigits 10 v.b, Nat.toDigits 10 v.c, Nat.toDigits 10 v.d] := by
  have hdot : ∀ n, '.' ∉ Nat.toDigits 10 n := fun n h => absurd (isDigit_toDigits h) (by decide)
  simp only [V4.dotted, List.append_assoc, List.cons_append]
  rw [List.splitOn_append_cons_self_of_not_mem (hdot _), List.splitOn_append_cons_self_of_not_mem (hdot _),
    List.splitOn_append_cons_self_of_not_mem (hdot _), List.splitOn_eq_singleton (hdot _)]

/-- A run of digits in front of a mark. -/
theorem digits_run (n : ℕ) (before : List Char) {after : List Char} (hafter : ∀ c ∈ after.head?, c.isDigit = false) :
    (Pattern.atLeast Char.isDigit 1 ⟨before, Nat.toDigits 10 n ++ after⟩).head? =
      some (Nat.toDigits 10 n, ⟨(Nat.toDigits 10 n).reverse ++ before, after⟩) := by
  have hpos : 1 ≤ (Nat.toDigits 10 n).length := Nat.length_toDigits_pos
  exact Pattern.head_many (fun c hc => isDigit_toDigits hc) hpos (by simp) hafter

theorem dot_run {before after : List Char} :
    (Pattern.one (· = '.') ⟨before, '.' :: after⟩).head? = some ('.', (⟨'.' :: before, after⟩ : Place Char)) := by
  simp [Pattern.one]

/-- **A dotted end is found** where it starts. -/
theorem dottedPattern_hit (v : V4) (before : List Char) :
    ∃ q, (dottedPattern ⟨before, v.dotted⟩).head? = some (v.dotted, q) := by
  have hdot : ∀ rest, ∀ c ∈ ('.' :: rest : List Char).head?, c.isDigit = false := fun rest c hc => by
    obtain rfl := Option.some.inj hc
    rfl
  have hnone : ∀ c ∈ ([] : List Char).head?, c.isDigit = false := fun c hc => by cases hc
  have hlast : ∀ before, (Pattern.atLeast Char.isDigit 1 ⟨before, Nat.toDigits 10 v.d⟩).head? =
      some (Nat.toDigits 10 v.d, ⟨(Nat.toDigits 10 v.d).reverse ++ before, []⟩) := fun before => by
    have hrun := digits_run v.d before hnone
    rwa [List.append_nil] at hrun
  refine ⟨⟨(Nat.toDigits 10 v.d).reverse ++ '.' :: ((Nat.toDigits 10 v.c).reverse ++ '.' :: ((Nat.toDigits 10 v.b).reverse ++
    '.' :: ((Nat.toDigits 10 v.a).reverse ++ before))), []⟩, ?_⟩
  unfold dottedPattern V4.dotted
  simp only [List.append_assoc, List.cons_append]
  exact Pattern.head_bind (digits_run _ _ (hdot _)) (Pattern.head_bind dot_run (Pattern.head_bind (digits_run _ _ (hdot _))
    (Pattern.head_bind dot_run (Pattern.head_bind (digits_run _ _ (hdot _)) (Pattern.head_bind dot_run
      (Pattern.head_bind (hlast _) (Pattern.head_bind (b := ()) rfl rfl)))))))

/-- Nothing is found where the digits that follow do not end in a dot. -/
theorem dottedPattern_miss {before after : List Char} (h : ∀ c ∈ (after.dropWhile Char.isDigit).head?, c ≠ '.') :
    dottedPattern ⟨before, after⟩ = [] := by
  refine Pattern.atLeast_one_miss (fun c hc => ?_) fun c hc => by simpa using h c hc
  have hdot := (isDigit_facts hc).2.1
  simp only [List.mem_cons, List.not_mem_nil, or_false, not_or] at hdot
  simp [hdot]

theorem hexNumber_append (xs ys : List Char) : hexNumber (xs ++ ys) = ys.foldl (fun n c => 16 * n + (hexDigit c).getD 0) (hexNumber xs) := by
  rw [hexNumber, hexNumber, List.foldl_append]

/-- What a number is written as in hexadecimal. -/
theorem toDigits_hex (n : ℕ) : hexNumber (Nat.toDigits 16 n) = n ∧ ∀ c ∈ Nat.toDigits 16 n, (hexDigit c).isSome = true := by
  have hdigit : ∀ k < 16, hexDigit (Nat.digitChar k) = some k := by decide +kernel
  induction n using Nat.strongRecOn with
  | ind n ih =>
      rcases Nat.lt_or_ge n 16 with hsmall | hlarge
      · rw [Nat.toDigits_of_lt_base hsmall]
        simp [hexNumber, hdigit n hsmall]
      · obtain ⟨hvalue, hhex⟩ := ih (n / 16) (by omega)
        rw [Nat.toDigits_of_base_le (by decide) hlarge]
        have hlast := hdigit (n % 16) (Nat.mod_lt n (by decide))
        refine ⟨?_, fun c hc => ?_⟩
        · rw [hexNumber_append, hvalue]
          simp only [List.foldl_cons, List.foldl_nil, hlast, Option.getD_some]
          omega
        · rcases List.mem_append.mp hc with hc | hc
          · exact hhex c hc
          · rw [List.mem_singleton.mp hc, hlast]
            rfl

/-- Sixteen bits as a group. -/
def hextetOf (n : ℕ) (h : n < 65536) : Hextet where
  digits := Nat.toDigits 16 n
  nonempty := Nat.toDigits_ne_nil
  short := (Nat.length_toDigits_le_iff (by decide) (by decide)).mpr h
  hex := (toDigits_hex n).2

theorem value_hextetOf {n : ℕ} (h : n < 65536) : (hextetOf n h).value = n := (toDigits_hex n).1

theorem V4.high_lt (v : V4) : v.high < 65536 := by
  have ha := v.a.isLt
  have hb := v.b.isLt
  unfold V4.high
  omega

theorem V4.low_lt (v : V4) : v.low < 65536 := by
  have hc := v.c.isLt
  have hd := v.d.isLt
  unfold V4.low
  omega

theorem hexOf_bytes (a b : Fin 256) : hexOf a b = Nat.toDigits 16 (a * 256 + b) := by
  have ha := a.isLt
  have hb := b.isLt
  have hbits : (BitVec.ofNat 32 a <<< 8 ||| BitVec.ofNat 32 b).toNat = a * 256 + b := by
    have hor := Nat.shiftLeft_add_eq_or_of_lt (i := 8) hb a
    rw [BitVec.toNat_or, BitVec.toNat_shiftLeft, BitVec.toNat_ofNat, BitVec.toNat_ofNat, Nat.mod_eq_of_lt (a := (a : ℕ)) (by omega),
      Nat.mod_eq_of_lt (a := (b : ℕ)) (by omega), Nat.mod_eq_of_lt (by rw [Nat.shiftLeft_eq]; omega), ← hor, Nat.shiftLeft_eq]
  have hint : (BitVec.ofNat 32 a <<< 8 ||| BitVec.ofNat 32 b).toInt = ((a * 256 + b : ℕ) : ℤ) := by
    rw [BitVec.toInt_eq_toNat_of_lt (by rw [hbits]; omega), hbits]
  have hnonneg : ¬ ((a * 256 + b : ℕ) : ℤ) < 0 := by omega
  simp only [hexOf, hint, if_neg hnonneg, Int.natAbs_natCast]

/-- Without a dot a text stays as it is. -/
theorem undotted_plain {text : List Char} (h : '.' ∉ text) : undotted text = text := by
  have hnone : Pattern.search dottedPattern [] text = none := by
    refine Pattern.search_none (fun before after => ?_) []
    by_cases hafter : after <:+ text
    · refine .inl (dottedPattern_miss fun c hc => ?_)
      rintro rfl
      exact h (hafter.subset ((List.dropWhile_sublist _).subset (List.mem_of_mem_head? hc)))
    · exact .inr hafter
  rw [undotted, hnone]

/-- **A dotted end becomes two groups.** -/
theorem undotted_dotted {pre : List Char} (hdot : '.' ∉ pre) (hend : pre.getLast? = some ':') (v : V4) :
    undotted (pre ++ v.dotted) = pre ++ Nat.toDigits 16 v.high ++ ':' :: Nat.toDigits 16 v.low := by
  obtain ⟨q, hhit⟩ := dottedPattern_hit v (pre.reverse ++ [])
  have hsearch : Pattern.search dottedPattern [] (pre ++ v.dotted) = some (pre, v.dotted) := by
    refine Pattern.search_pass (fun done c rest heq => dottedPattern_miss fun d hd => ?_) hhit
    -- the colon at the end of the part before stops the digits
    have hcolon : ':' ∈ (c :: rest).dropWhile Char.isDigit := by
      have hlast : (c :: rest).getLast? = some ':' := by
        rw [heq, List.getLast?_append_of_ne_nil _ (List.cons_ne_nil c rest)] at hend
        exact hend
      have hsplit := List.takeWhile_append_dropWhile (p := Char.isDigit) (l := c :: rest)
      rw [← hsplit] at hlast
      by_contra hno
      have hmem := List.mem_of_getLast? hlast
      rcases List.mem_append.mp hmem with hmem | hmem
      · exact absurd (List.mem_takeWhile_imp hmem) (by decide)
      · exact hno hmem
    have hne : ((c :: rest).dropWhile Char.isDigit).isEmpty = false := by
      cases hdrop : (c :: rest).dropWhile Char.isDigit with
      | nil =>
          rw [hdrop] at hcolon
          cases hcolon
      | cons => rfl
    rw [List.dropWhile_append, hne, if_neg (by decide), List.head?_append] at hd
    rintro rfl
    have hmem : '.' ∈ c :: rest := by
      cases hhead : ((c :: rest).dropWhile Char.isDigit).head? with
      | none =>
          rw [List.head?_eq_none_iff.mp hhead] at hcolon
          cases hcolon
      | some e =>
          rw [hhead] at hd
          obtain rfl := Option.some.inj hd
          exact (List.dropWhile_sublist _).subset (List.mem_of_mem_head? hhead)
    exact hdot (heq ▸ List.mem_append_right _ hmem)
  rw [undotted, hsearch]
  simp only [splitOn_dotted, List.map_cons, List.map_nil, decimal_toDigits, Option.getD_some]
  simp only [List.getD_cons_zero, List.getD_cons_succ, hexOf_bytes]
  rfl

/-! ### Parts -/

theorem joined_cons_cons (p q : List Char) (ps : List (List Char)) : joined (p :: q :: ps) = p ++ ':' :: joined (q :: ps) := by
  rw [joined, List.intercalate_cons_cons, List.append_assoc]
  rfl

/-- Parts in front of a last one, each with its colon. -/
theorem joined_snoc (ps : List (List Char)) (q : List Char) (qs : List (List Char)) :
    joined (ps ++ q :: qs) = ps.flatMap (· ++ [':']) ++ joined (q :: qs) := by
  induction ps with
  | nil => rfl
  | cons p ps ih =>
      have hnext : joined (p :: (ps ++ q :: qs)) = p ++ ':' :: joined (ps ++ q :: qs) := by
        cases ps with
        | nil => exact joined_cons_cons p q qs
        | cons p' ps => exact joined_cons_cons p p' _
      rw [List.cons_append, hnext, ih]
      simp

theorem mem_joined {c : Char} {parts : List (List Char)} (h : c ∈ joined parts) : c = ':' ∨ ∃ p ∈ parts, c ∈ p :=
  mem_of_mem_intercalate h

/-- What is written between colons. -/
structure Part (p : List Char) : Prop where
  nonempty : p ≠ []
  whole : ':' ∉ p

theorem Hextet.part (x : Hextet) : Part x.digits := by
  refine ⟨x.nonempty, fun h => ?_⟩
  have hmarks := (hexDigit_facts (x.hex _ h)).2.2.2
  simp at hmarks

theorem Hextet.not_dot (x : Hextet) : '.' ∉ x.digits := by
  intro h
  have hmarks := (hexDigit_facts (x.hex _ h)).2.2.2
  simp at hmarks

theorem splitGaps_append {p : List Char} (rest : List Char) (h : ':' ∉ p) :
    splitGaps (p ++ rest) = (splitGaps rest).modifyHead (p ++ ·) := by
  induction p with
  | nil => exact (congrFun List.modifyHead_id _).symm
  | cons c p ih =>
      obtain ⟨hc, hp⟩ := not_or.mp (List.mem_cons.not.mp h)
      rw [List.cons_append, splitGaps.eq_2 c (p ++ rest) (fun r heq => absurd heq.symm hc), ih hp, List.modifyHead_modifyHead]
      rfl

/-- A single colon does not split. -/
theorem splitGaps_colon {p : List Char} (rest : List Char) (h : Part p) :
    splitGaps (':' :: (p ++ rest)) = (splitGaps (p ++ rest)).modifyHead (':' :: ·) := by
  refine splitGaps.eq_2 ':' (p ++ rest) fun r _ heq => ?_
  cases p with
  | nil => exact h.nonempty rfl
  | cons c p =>
      obtain rfl := (List.cons.inj heq).1
      exact h.whole List.mem_cons_self

/-- Parts with single colons between stay together. -/
theorem splitGaps_joined {parts : List (List Char)} (h : ∀ p ∈ parts, Part p) (rest : List Char) :
    splitGaps (joined parts ++ rest) = (splitGaps rest).modifyHead (joined parts ++ ·) := by
  induction parts with
  | nil => exact (congrFun List.modifyHead_id _).symm
  | cons p parts ih =>
      have hp := h p List.mem_cons_self
      cases parts with
      | nil =>
          have hone : joined [p] = p := by simp [joined]
          rw [hone]
          exact splitGaps_append rest hp.whole
      | cons q parts =>
          have hq := h q (List.mem_cons_of_mem _ List.mem_cons_self)
          obtain ⟨tail, htail⟩ : ∃ tail, joined (q :: parts) = q ++ tail := by
            cases parts with
            | nil => exact ⟨[], by simp [joined]⟩
            | cons r parts => exact ⟨_, joined_cons_cons q r parts⟩
          rw [joined_cons_cons, List.append_assoc, splitGaps_append _ hp.whole, List.cons_append, htail, List.append_assoc,
            splitGaps_colon _ hq, ← List.append_assoc, ← htail, ih fun p hp => h p (List.mem_cons_of_mem _ hp),
            List.modifyHead_modifyHead, List.modifyHead_modifyHead]
          congr 1
          funext text
          simp [htail]

theorem groupsOf_joined {parts : List (List Char)} (h : ∀ p ∈ parts, Part p) : groupsOf (joined parts) = parts := by
  cases parts with
  | nil => rfl
  | cons p parts =>
      have hne : joined (p :: parts) ≠ [] := by
        intro heq
        cases parts with
        | nil => exact (h p List.mem_cons_self).nonempty (by simpa [joined] using heq)
        | cons q parts =>
            rw [joined_cons_cons] at heq
            simp at heq
      rw [groupsOf, if_neg hne]
      exact List.splitOn_intercalate ':' (fun p hp => (h p hp).whole) (List.cons_ne_nil p parts)

/-! ### Lower case, without a zone, without a dotted end -/

def Hextet.lower (x : Hextet) : Hextet where
  digits := x.digits.map Char.toLower
  nonempty := by simpa using x.nonempty
  short := by simpa using x.short
  hex := by
    intro c hc
    obtain ⟨d, hd, rfl⟩ := List.mem_map.mp hc
    rw [(hexDigit_facts (x.hex d hd)).1]
    exact x.hex d hd

theorem Hextet.value_lower (x : Hextet) : x.lower.value = x.value := by
  have hfold : ∀ (digits : List Char) (n : ℕ), (∀ c ∈ digits, (hexDigit c).isSome = true) →
      (digits.map Char.toLower).foldl (fun n c => 16 * n + (hexDigit c).getD 0) n =
        digits.foldl (fun n c => 16 * n + (hexDigit c).getD 0) n := by
    intro digits n hhex
    rw [List.foldl_map]
    exact List.foldl_ext _ _ n fun m c hc => by rw [(hexDigit_facts (hhex c hc)).1]
  exact hfold x.digits 0 x.hex

theorem Hextet.map_value_lower (groups : List Hextet) : (groups.map Hextet.lower).map Hextet.value = groups.map Hextet.value := by
  rw [List.map_map]
  exact List.map_congr_left fun x _ => x.value_lower

theorem V4.dotted_chars {v : V4} {c : Char} (h : c ∈ v.dotted) : c = '.' ∨ c.isDigit = true := by
  have hdigits : ∀ n, c ∈ Nat.toDigits 10 n → c.isDigit = true := fun n hc => isDigit_toDigits hc
  simp only [V4.dotted, List.append_assoc, List.cons_append, List.mem_append, List.mem_cons] at h
  rcases h with h | h | h | h | h | h | h
  · exact .inr (hdigits _ h)
  · exact .inl h
  · exact .inr (hdigits _ h)
  · exact .inl h
  · exact .inr (hdigits _ h)
  · exact .inl h
  · exact .inr (hdigits _ h)

theorem V4.part (v : V4) : Part v.dotted := by
  refine ⟨fun h => ?_, fun h => ?_⟩
  · have hlength := congrArg List.length h
    simp [V4.dotted] at hlength
  · rcases V4.dotted_chars h with h | h
    · cases h
    · cases h

theorem V4.map_toLower (v : V4) : v.dotted.map Char.toLower = v.dotted := by
  calc v.dotted.map Char.toLower = v.dotted.map id := List.map_congr_left fun c hc => by
        rcases V4.dotted_chars hc with rfl | h
        · rfl
        · exact (isDigit_facts h).2.2.1
    _ = v.dotted := List.map_id _

/-- The groups of an ending, the ones of a dotted end included. -/
def Ending.hextets (e : Ending) : List Hextet :=
  e.groups ++ e.v4.elim [] fun v => [hextetOf v.high v.high_lt, hextetOf v.low v.low_lt]

theorem Ending.values_hextets (e : Ending) : e.hextets.map Hextet.value = e.values := by
  rw [Ending.hextets, List.map_append, Ending.values]
  cases e.v4 with
  | none => rfl
  | some v => simp [value_hextetOf]

def Ending.lower (e : Ending) : Ending := ⟨e.groups.map Hextet.lower, e.v4⟩

theorem Ending.values_lower (e : Ending) : e.lower.values = e.values := by
  rw [Ending.values, Ending.values, Ending.lower, Hextet.map_value_lower]

theorem Ending.parts_part (e : Ending) : ∀ p ∈ e.parts, Part p := by
  intro p hp
  rcases List.mem_append.mp hp with hp | hp
  · obtain ⟨x, -, rfl⟩ := List.mem_map.mp hp
    exact x.part
  · obtain ⟨v, -, rfl⟩ := List.mem_map.mp hp
    exact v.part

theorem map_joined (f : Char → Char) (hf : f ':' = ':') (parts : List (List Char)) :
    (joined parts).map f = joined (parts.map (·.map f)) := by
  induction parts with
  | nil => rfl
  | cons p parts ih =>
      cases parts with
      | nil => simp [joined]
      | cons q parts =>
          rw [joined_cons_cons, List.map_append, List.map_cons, ih, hf]
          exact (joined_cons_cons _ _ _).symm

theorem Ending.map_parts (e : Ending) : (joined e.parts).map Char.toLower = joined e.lower.parts := by
  rw [map_joined _ rfl, Ending.parts, List.map_append, List.map_map, List.map_map, Ending.parts, Ending.lower, List.map_map]
  congr 2
  exact List.map_congr_left fun v _ => v.map_toLower

/-- **A dotted end is read as the two groups it stands for**, behind whatever ends in a colon. -/
theorem undotted_ending {lead : List Char} (e : Ending) (hdot : '.' ∉ lead) (hend : lead.getLast? = some ':' ∨ lead = [] ∧ e.groups ≠ []) :
    undotted (lead ++ joined e.parts) = lead ++ joined (e.hextets.map (·.digits)) := by
  have hplain : ∀ {groups : List Hextet}, '.' ∉ groups.flatMap fun x => x.digits ++ [':'] := by
    intro groups h
    obtain ⟨x, -, hx⟩ := List.mem_flatMap.mp h
    rcases List.mem_append.mp hx with hx | hx
    · exact x.not_dot hx
    · simp at hx
  cases hv4 : e.v4 with
  | none =>
      have hparts : e.parts = e.hextets.map (·.digits) := by simp [Ending.parts, Ending.hextets, hv4]
      rw [hparts]
      refine undotted_plain fun h => ?_
      rcases List.mem_append.mp h with h | h
      · exact hdot h
      · rcases mem_joined h with h | ⟨p, hp, h⟩
        · cases h
        · obtain ⟨x, -, rfl⟩ := List.mem_map.mp hp
          exact x.not_dot h
  | some v =>
      have htext : joined e.parts = (e.groups.flatMap fun x => x.digits ++ [':']) ++ v.dotted := by
        rw [Ending.parts, hv4, Option.toList_some, List.map_singleton, joined_snoc, List.flatMap_map]
        simp [joined]
      have hgroups : joined (e.hextets.map (·.digits)) =
          (e.groups.flatMap fun x => x.digits ++ [':']) ++ (Nat.toDigits 16 v.high ++ ':' :: Nat.toDigits 16 v.low) := by
        rw [Ending.hextets, hv4, Option.elim_some, List.map_append, List.map_cons, joined_snoc, List.flatMap_map]
        simp [joined, hextetOf]
      have hcolon : (lead ++ e.groups.flatMap fun x => x.digits ++ [':']).getLast? = some ':' := by
        rcases List.eq_nil_or_concat e.groups with hnil | ⟨groups, x, hconcat⟩
        · rcases hend with hend | ⟨-, hne⟩
          · simpa [hnil] using hend
          · exact absurd hnil hne
        · rw [hconcat, List.concat_eq_append, List.flatMap_append, List.flatMap_singleton, ← List.append_assoc, ← List.append_assoc]
          exact List.getLast?_concat
      have hpre : '.' ∉ lead ++ e.groups.flatMap fun x => x.digits ++ [':'] := fun h =>
        (List.mem_append.mp h).elim hdot hplain
      rw [htext, hgroups, ← List.append_assoc, undotted_dotted hpre hcolon, List.append_assoc, List.append_assoc]

/-! ### The groups of a spelling -/

def Body.lower : Body → Body
  | .full e h => .full e.lower (e.values_lower ▸ h)
  | .gap left right h => .gap (left.map Hextet.lower) right.lower (by rwa [List.length_map, right.values_lower])

theorem Body.value_lower (b : Body) : b.lower.value = b.value := by
  cases b with
  | full e h => exact e.values_lower
  | gap left right h => rw [Body.lower, Body.value, Body.value, Hextet.map_value_lower, List.length_map, right.values_lower]

theorem Body.map_text (b : Body) : b.text.map Char.toLower = b.lower.text := by
  cases b with
  | full e h => exact e.map_parts
  | gap left right h =>
      rw [Body.text, List.map_append, List.map_cons, List.map_cons, right.map_parts, map_joined _ rfl, List.map_map]
      simp only [Body.lower, Body.text, List.map_map]
      rfl

theorem joined_chars {groups : List Hextet} {c : Char} (h : c ∈ joined (groups.map (·.digits))) :
    c = ':' ∨ (hexDigit c).isSome = true := by
  obtain heq | ⟨p, hp, hc⟩ := mem_joined h
  · exact .inl heq
  · obtain ⟨x, -, rfl⟩ := List.mem_map.mp hp
    exact .inr (x.hex c hc)

theorem Ending.chars {e : Ending} {c : Char} (h : c ∈ joined e.parts) : c = ':' ∨ c = '.' ∨ (hexDigit c).isSome = true := by
  obtain heq | ⟨p, hp, hc⟩ := mem_joined h
  · exact .inl heq
  · rcases List.mem_append.mp hp with hp | hp
    · obtain ⟨x, -, rfl⟩ := List.mem_map.mp hp
      exact .inr (.inr (x.hex c hc))
    · obtain ⟨v, -, rfl⟩ := List.mem_map.mp hp
      rcases V4.dotted_chars hc with heq | hdigit
      · exact .inr (.inl heq)
      · exact .inr (.inr (isDigit_facts hdigit).1)

/-- What an address is written with. -/
theorem Body.chars {b : Body} {c : Char} (h : c ∈ b.text) : c = ':' ∨ c = '.' ∨ (hexDigit c).isSome = true := by
  cases b with
  | full e hlength => exact Ending.chars h
  | gap left right hlength =>
      rcases List.mem_append.mp h with h | h
      · rcases joined_chars h with h | h
        · exact .inl h
        · exact .inr (.inr h)
      · rcases List.mem_cons.mp h with h | h
        · exact .inl h
        · rcases List.mem_cons.mp h with h | h
          · exact .inl h
          · exact Ending.chars h

theorem Body.ascii {b : Body} {c : Char} (h : c ∈ b.text) : c.toNat < 128 ∧ c ≠ '%' := by
  rcases Body.chars h with rfl | rfl | h
  · decide
  · decide
  · refine ⟨hexDigit_ascii h, ?_⟩
    rintro rfl
    exact absurd h (by decide)

theorem isZoneChar_ascii {c : Char} (h : isZoneChar c = true) : c.toNat < 128 := by
  have hle : ∀ top : Char, c ≤ top → c.toNat ≤ top.toNat := fun top h => h
  simp only [isZoneChar, Char.isAlphanum, Char.isDigit, Bool.or_eq_true, Bool.and_eq_true, decide_eq_true_eq] at h
  delta Char.isAlpha Char.isUpper Char.isLower at h
  simp only [Bool.or_eq_true, Bool.and_eq_true, decide_eq_true_eq] at h
  rcases h with (((((h | h) | h) | rfl) | rfl) | rfl)
  · exact Nat.lt_of_le_of_lt (hle 'Z' h.2) (by decide)
  · exact Nat.lt_of_le_of_lt (hle 'z' h.2) (by decide)
  · exact Nat.lt_of_le_of_lt (hle '9' h.2) (by decide)
  · decide
  · decide
  · decide

section
variable (unicode : List Char → List Char)

/-- Lower case without a zone. -/
theorem Spelling.bare (s : Spelling) : ((toLowerCase unicode s.text).splitOn '%').headD [] = s.body.lower.text := by
  have hascii : s.text.all (·.toNat < 128) = true := by
    rw [List.all_eq_true]
    intro c hc
    rcases List.mem_append.mp hc with hc | hc
    · exact decide_eq_true (Body.ascii hc).1
    · cases hzone : s.zone with
      | none => simp [hzone] at hc
      | some z =>
          rw [hzone, Option.elim_some] at hc
          rcases List.mem_cons.mp hc with rfl | hc
          · decide
          · exact decide_eq_true (isZoneChar_ascii ((s.zone_chars z hzone).2 c hc))
  have hmark : '%' ∉ s.body.lower.text := fun h => (Body.ascii h).2 rfl
  rw [toLowerCase, if_pos hascii, Spelling.text, List.map_append, Body.map_text]
  cases s.zone with
  | none =>
      rw [Option.elim_none, List.map_nil, List.append_nil, List.splitOn_eq_singleton hmark]
      rfl
  | some z =>
      have hpercent : '%'.toLower = '%' := rfl
      rw [Option.elim_some, List.map_cons, hpercent, List.splitOn_append_cons_self_of_not_mem hmark, List.headD_cons]

/-- The text whose parts are all groups. -/
def Body.plain : Body → List Char
  | .full e _ => joined (e.hextets.map (·.digits))
  | .gap left right _ => joined (left.map (·.digits)) ++ ':' :: ':' :: joined (right.hextets.map (·.digits))

theorem Body.undotted_text (b : Body) : undotted b.text = b.plain := by
  cases b with
  | full e h =>
      have hgroups : e.groups ≠ [] := by
        intro hnil
        rw [Ending.values, hnil] at h
        cases hv4 : e.v4 with
        | none => simp [hv4] at h
        | some v => simp [hv4] at h
      exact undotted_ending e List.not_mem_nil (.inr ⟨rfl, hgroups⟩)
  | gap left right h =>
      have hdot : '.' ∉ joined (left.map (·.digits)) ++ [':', ':'] := by
        intro h
        rcases List.mem_append.mp h with h | h
        · rcases joined_chars h with h | h
          · cases h
          · exact absurd h (by decide)
        · exact absurd h (by decide)
      have hend : (joined (left.map (·.digits)) ++ [':', ':']).getLast? = some ':' := by
        rw [List.getLast?_append_of_ne_nil _ (List.cons_ne_nil _ _)]
        rfl
      have hread := undotted_ending right hdot (.inl hend)
      rw [List.append_assoc, List.append_assoc] at hread
      exact hread

theorem parts_of_hextets (groups : List Hextet) : ∀ p ∈ groups.map (·.digits), Part p := by
  intro p hp
  obtain ⟨x, -, rfl⟩ := List.mem_map.mp hp
  exact x.part

/-- Groups that are read as eight numbers of sixteen bits each are these numbers. -/
theorem groups_read {texts : List (List Char)} {values : List ℕ} (hread : texts.map parseHex = values.map fun n : ℕ => some (n : ℤ))
    (hlength : values.length = 8) (hbits : ∀ n ∈ values, n < 65536) :
    (if (texts.map parseHex).length = 8 ∧ (texts.map parseHex).all (fun g => g.any fun n => 0 ≤ n ∧ n ≤ 0xffff) then
      some ((texts.map parseHex).map fun g => (g.getD 0).toNat) else none) = some values := by
  have hall : (values.map fun n : ℕ => some (n : ℤ)).all (fun g => g.any fun n => 0 ≤ n ∧ n ≤ 0xffff) = true := by
    rw [List.all_map, List.all_eq_true]
    intro n hn
    have hlt := hbits n hn
    simp only [Function.comp_apply, Option.any_some, decide_eq_true_eq]
    omega
  rw [hread, if_pos ⟨by rw [List.length_map, hlength], hall⟩, List.map_map]
  exact congrArg some (List.map_id values)

theorem Hextet.map_parseHex (groups : List Hextet) :
    (groups.map (·.digits)).map parseHex = (groups.map Hextet.value).map fun n : ℕ => some (n : ℤ) := by
  rw [List.map_map, List.map_map]
  exact List.map_congr_left fun x _ => parseHex_hextet x

theorem Hextet.values_lt {groups : List Hextet} : ∀ n ∈ groups.map Hextet.value, n < 65536 := by
  intro n hn
  obtain ⟨x, -, rfl⟩ := List.mem_map.mp hn
  exact x.value_lt

/-- **Every spelling is read as the groups it stands for.** -/
theorem v6Groups_text (s : Spelling) : v6Groups unicode s.text = some s.value := by
  have hvalue : s.value = s.body.lower.value := (Body.value_lower s.body).symm
  rw [hvalue, v6Groups, Spelling.bare unicode s, Body.undotted_text]
  cases s.body.lower with
  | full e h =>
      have hsplit : splitGaps (joined (e.hextets.map (·.digits))) = [joined (e.hextets.map (·.digits))] := by
        have hjoined := splitGaps_joined (parts_of_hextets e.hextets) []
        rwa [List.append_nil, splitGaps, List.modifyHead_cons, List.append_nil] at hjoined
      have hnil : groupsOf [] = [] := rfl
      rw [Body.plain, Body.value, ← e.values_hextets]
      rw [← e.values_hextets] at h
      simp only [hsplit, List.headD_cons, List.length_singleton, le_refl, if_true, Int.toNat_zero,
        List.replicate_zero, List.append_nil, groupsOf_joined (parts_of_hextets e.hextets), List.getD_cons_succ, List.getD_nil,
        hnil]
      exact groups_read (Hextet.map_parseHex _) h Hextet.values_lt
  | gap left right h =>
      have hsplit : splitGaps (joined (left.map (·.digits)) ++ ':' :: ':' :: joined (right.hextets.map (·.digits))) =
          [joined (left.map (·.digits)), joined (right.hextets.map (·.digits))] := by
        have hright := splitGaps_joined (parts_of_hextets right.hextets) []
        rw [List.append_nil, splitGaps, List.modifyHead_cons, List.append_nil] at hright
        rw [splitGaps_joined (parts_of_hextets left), splitGaps, hright, List.modifyHead_cons, List.append_nil]
      rw [Body.plain, Body.value, ← right.values_hextets]
      rw [← right.values_hextets, List.length_map] at h
      have hfill : (8 - (left.length : ℤ) - (right.hextets.length : ℤ)) = ((8 - (left.length + right.hextets.length) : ℕ) : ℤ) := by
        omega
      have hnonneg : ¬ ((8 - (left.length + right.hextets.length) : ℕ) : ℤ) < 0 := by omega
      have hdigits : ∀ groups : List Hextet, (groups.map (·.digits)).length = groups.length := fun groups => List.length_map _
      have hzero : parseHex ['0'] = some ((0 : ℕ) : ℤ) := by decide
      simp only [hsplit, List.headD_cons, List.length_cons, List.length_nil, List.getD_cons_succ, List.getD_cons_zero,
        groupsOf_joined (parts_of_hextets left), groupsOf_joined (parts_of_hextets right.hextets), hdigits,
        Nat.reduceAdd, Nat.reduceLeDiff, if_false, hfill, if_neg hnonneg, Int.toNat_natCast]
      refine groups_read ?_ ?_ ?_
      · rw [List.map_append, List.map_append, List.map_replicate, Hextet.map_parseHex, Hextet.map_parseHex, hzero, List.map_append,
          List.map_append, List.map_replicate, List.length_map]
      · simp only [List.length_append, List.length_map, List.length_replicate]
        omega
      · intro n hn
        rcases List.mem_append.mp hn with hn | hn
        · rcases List.mem_append.mp hn with hn | hn
          · exact Hextet.values_lt n hn
          · rw [(List.mem_replicate.mp hn).2]
            decide
        · exact Hextet.values_lt n hn

/-! ### Judgement -/

/-- No IPv6 address is taken for an IPv4 one. -/
theorem isIPv4_colon {text : List Char} (h : ':' ∈ text) : isIPv4 text = false := by
  have hparts : ['.'].intercalate (text.splitOn '.') = text := List.intercalate_splitOn '.'
  rw [← hparts] at h
  rcases mem_of_mem_intercalate h with h | ⟨part, hpart, hcolon⟩
  · cases h
  have hdecimal : decimal part = none := by
    rw [decimal, if_neg]
    intro hall
    exact absurd (List.all_eq_true.mp hall ':' hcolon) (by decide)
  have hoctet : isOctet part = false := by simp [isOctet, hdecimal]
  have hall : (text.splitOn '.').all isOctet = false := List.all_eq_false.mpr ⟨part, hpart, by simp [hoctet]⟩
  simp [isIPv4, hall]

theorem isIPv4_dotted (v : V4) : isIPv4 v.dotted = true := by
  have hoctet : ∀ n : Fin 256, isOctet (Nat.toDigits 10 n) = true := by decide +kernel
  simp [isIPv4, splitOn_dotted, hoctet]

theorem colon_mem (b : Body) : ':' ∈ b.text := by
  cases b with
  | full e h =>
      obtain ⟨p, q, ps, hparts⟩ : ∃ p q ps, e.parts = p :: q :: ps := by
        have hlength : 2 ≤ e.parts.length := by
          rw [Ending.values] at h
          rw [Ending.parts]
          cases hv4 : e.v4 with
          | none =>
              simp only [hv4, Option.elim_none, List.append_nil, List.length_map] at h
              simp [h]
          | some v =>
              simp only [hv4, Option.elim_some, List.length_append, List.length_map, List.length_cons, List.length_nil] at h
              simp only [Option.toList_some, List.map_singleton, List.length_append, List.length_map, List.length_singleton]
              omega
        match hparts : e.parts, hlength with
        | p :: q :: ps, _ => exact ⟨p, q, ps, rfl⟩
      rw [Body.text, hparts, joined_cons_cons]
      simp
  | gap left right h => simp [Body.text]

/-- **An address is judged by the groups it stands for.** -/
theorem isInternalAddress_text (s : Spelling) : isInternalAddress unicode s.text = isInternalGroups s.value := by
  have hcolon : ':' ∈ s.text := List.mem_append_left _ (colon_mem s.body)
  rw [isInternalAddress, isIPv4_colon hcolon, if_neg (by decide), v6Groups_text unicode s]
  rfl

theorem isInternalAddress_dotted (v : V4) : isInternalAddress unicode v.dotted = isInternalV4 v.dotted := by
  rw [isInternalAddress, if_pos (isIPv4_dotted v)]

theorem v4Of_groups (v : V4) : v4Of v.high v.low = v.dotted := by
  have hbytes : ∀ a b : Fin 256, ((a : ℕ) * 256 + b) >>> 8 = a ∧ ((a : ℕ) * 256 + b) &&& 255 = b := by
    intro a b
    have hb := b.isLt
    have hlow := Nat.and_two_pow_sub_one_eq_mod ((a : ℕ) * 256 + b) 8
    rw [Nat.shiftRight_eq_div_pow]
    refine ⟨by omega, hlow.trans (by omega)⟩
  obtain ⟨ha, hb⟩ := hbytes v.a v.b
  obtain ⟨hc, hd⟩ := hbytes v.c v.d
  simp only [v4Of, V4.high, V4.low, ha, hb, hc, hd]
  rfl

/-- `::ffff:a.b.c.d`. -/
def V4.mapped (v : V4) : List ℕ := [0, 0, 0, 0, 0, 0xffff, v.high, v.low]

/-- `::a.b.c.d`. -/
def V4.compatible (v : V4) : List ℕ := [0, 0, 0, 0, 0, 0, v.high, v.low]

/-- `64:ff9b::a.b.c.d`. -/
def V4.nat64 (v : V4) : List ℕ := [0x64, 0xff9b, 0, 0, 0, 0, v.high, v.low]

/-- `2002:a.b.c.d::`, and what follows. -/
def V4.sixToFour (v : V4) (rest : List ℕ) : List ℕ := 0x2002 :: v.high :: v.low :: rest

theorem isInternalGroups_mapped (v : V4) : isInternalGroups v.mapped = isInternalV4 v.dotted := by
  simp [isInternalGroups, V4.mapped, v4Of_groups]

/-- `::` and `::1` are taken for themselves, which as IPv4 addresses are in `0.0.0.0/8`. -/
theorem isInternalGroups_compatible (v : V4) : isInternalGroups v.compatible = isInternalV4 v.dotted := by
  have hzero : v.high = 0 → isInternalV4 v.dotted = true := by
    intro hhigh
    have ha : (v.a : ℕ) = 0 := by
      unfold V4.high at hhigh
      omega
    have hfirst : decimal (Nat.toDigits 10 v.a) = some 0 := by rw [decimal_toDigits, ha]
    simp [isInternalV4, splitOn_dotted, hfirst]
  simp only [isInternalGroups, V4.compatible, List.getD_cons_zero, List.getD_cons_succ, v4Of_groups]
  rcases Nat.eq_zero_or_pos v.high with hhigh | hhigh
  · simp [hzero hhigh]
  · simp [Nat.ne_of_gt hhigh]

theorem isInternalGroups_nat64 (v : V4) : isInternalGroups v.nat64 = isInternalV4 v.dotted := by
  simp [isInternalGroups, V4.nat64, v4Of_groups]

theorem isInternalGroups_sixToFour (v : V4) (rest : List ℕ) : isInternalGroups (v.sixToFour rest) = isInternalV4 v.dotted := by
  simp [isInternalGroups, V4.sixToFour, v4Of_groups]

/-- **An address is judged by its value and not by its spelling**: each is read as its eight groups, two spellings of one address get one
answer, and one that carries an IPv4 address the answer of that one. -/
theorem addresses_judged :
    (∀ s : Spelling, v6Groups unicode s.text = some s.value) ∧
    (∀ s t : Spelling, s.value = t.value → isInternalAddress unicode s.text = isInternalAddress unicode t.text) ∧
    ∀ (v : V4) (s : Spelling), (s.value ∈ [v.mapped, v.compatible, v.nat64] ∨ ∃ rest, s.value = v.sixToFour rest) →
      isInternalAddress unicode s.text = isInternalAddress unicode v.dotted := by
  refine ⟨v6Groups_text unicode, fun s t hvalue => ?_, fun v s hform => ?_⟩
  · rw [isInternalAddress_text, isInternalAddress_text, hvalue]
  · rw [isInternalAddress_text, isInternalAddress_dotted]
    rcases hform with hform | ⟨rest, hform⟩
    · simp only [List.mem_cons, List.not_mem_nil, or_false] at hform
      rcases hform with hform | hform | hform
      · rw [hform, isInternalGroups_mapped]
      · rw [hform, isInternalGroups_compatible]
      · rw [hform, isInternalGroups_nat64]
    · rw [hform, isInternalGroups_sixToFour]

end

/-- `::FFFF:10.0.0.1%eth0` -/
def written : Spelling where
  body := .gap [] ⟨[⟨"FFFF".toList, by decide, by decide, List.all_eq_true.mp (by decide)⟩], some ⟨10, 0, 0, 1⟩⟩ (by decide)
  zone := some "eth0".toList
  zone_chars := by
    intro z hz
    obtain rfl := Option.some.inj hz
    exact ⟨by decide, List.all_eq_true.mp (by decide)⟩

/-- One spelling of a mapped address, and the answer it gets. -/
theorem written_judged : String.ofList written.text = "::FFFF:10.0.0.1%eth0" ∧
    v6Groups id written.text = some [0, 0, 0, 0, 0, 0xffff, 0x0a00, 0x0001] ∧
    isInternalAddress id written.text = isInternalAddress id "10.0.0.1".toList :=
  ⟨by decide, (addresses_judged id).1 written, (addresses_judged id).2.2 ⟨10, 0, 0, 1⟩ written (.inl (by decide))⟩

end Pokyh.Menu.Addresses
