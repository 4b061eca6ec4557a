import Pokyh.Lib.Json
import Pokyh.Lib.Primitives

/-!
# Lib — Base64

Bytes as text of 64 characters, in the usual alphabet with padding and in that of addresses without any, and the bytes that are read
from a text of either.

* `fromBase64_toBase64`, `fromBase64_toBase64Url`: **bytes are read back.**
-/

namespace Pokyh.Lib

/-- The numbers of six bits that bytes are cut into. -/
def sextets : Bytes → List ℕ
  | a :: b :: c :: rest =>
    a.toNat / 4 :: (a.toNat % 4 * 16 + b.toNat / 16) :: (b.toNat % 16 * 4 + c.toNat / 64) :: c.toNat % 64 :: sextets rest
  | [a, b] => [a.toNat / 4, a.toNat % 4 * 16 + b.toNat / 16, b.toNat % 16 * 4]
  | [a] => [a.toNat / 4, a.toNat % 4 * 16]
  | [] => []

/-- The bytes that numbers of six bits make; what is no whole byte is left out. -/
def ofSextets : List ℕ → Bytes
  | p :: q :: r :: s :: rest =>
    UInt8.ofNat (p * 4 + q / 16) :: UInt8.ofNat (q % 16 * 16 + r / 4) :: UInt8.ofNat (r % 4 * 64 + s) :: ofSextets rest
  | [p, q, r] => [UInt8.ofNat (p * 4 + q / 16), UInt8.ofNat (q % 16 * 16 + r / 4)]
  | [p, q] => [UInt8.ofNat (p * 4 + q / 16)]
  | _ => []

def sextetUnit (isUrl : Bool) (n : ℕ) : UInt16 :=
  if n < 26 then (65 + n).toUInt16
  else if n < 52 then (71 + n).toUInt16
  else if n < 62 then (n - 4).toUInt16
  else if n = 62 then if isUrl then 45 else 43
  else if isUrl then 95 else 47

/-- The number of a character of either alphabet. -/
def sextetOf (u : UInt16) : Option ℕ :=
  if 65 ≤ u ∧ u ≤ 90 then some (u.toNat - 65)
  else if 97 ≤ u ∧ u ≤ 122 then some (u.toNat - 71)
  else if 48 ≤ u ∧ u ≤ 57 then some (u.toNat + 4)
  else if u = 43 ∨ u = 45 then some 62
  else if u = 47 ∨ u = 95 then some 63
  else none

/-- `bytes.toString('base64')` -/
def toBase64 (bytes : Bytes) : Units := (sextets bytes).map (sextetUnit false) ++ List.replicate ((3 - bytes.length % 3) % 3) 61

/-- `bytes.toString('base64url')` -/
def toBase64Url (bytes : Bytes) : Units := (sextets bytes).map (sextetUnit true)

/-- `Buffer.from(text, 'base64')`, and with `'base64url'`: what is no character of an alphabet is passed over. -/
def fromBase64 (text : Units) : Bytes := ofSextets (text.filterMap sextetOf)

theorem ofNat_eq {n : ℕ} {b : UInt8} (h : n = b.toNat) : UInt8.ofNat n = b := by
  rw [h, UInt8.ofNat_toNat]

theorem ofSextets_sextets (bytes : Bytes) : ofSextets (sextets bytes) = bytes := by
  induction bytes using sextets.induct with
  | case1 a b c rest ih =>
      have hb := b.toNat_lt
      have hc := c.toNat_lt
      rw [sextets, ofSextets, ih, ofNat_eq (b := a) (by omega), ofNat_eq (b := b) (by omega), ofNat_eq (b := c) (by omega)]
  | case2 a b =>
      have hb := b.toNat_lt
      rw [sextets, ofSextets, ofNat_eq (b := a) (by omega), ofNat_eq (b := b) (by omega)]
  | case3 a => rw [sextets, ofSextets, ofNat_eq (b := a) (by omega)]
  | case4 => rfl

theorem sextets_lt (bytes : Bytes) : ∀ n ∈ sextets bytes, n < 64 := by
  induction bytes using sextets.induct with
  | case1 a b c rest ih =>
      have ha := a.toNat_lt
      have hb := b.toNat_lt
      have hc := c.toNat_lt
      intro n hn
      simp only [sextets, List.mem_cons] at hn
      rcases hn with rfl | rfl | rfl | rfl | hn
      · omega
      · omega
      · omega
      · omega
      · exact ih n hn
  | case2 a b =>
      have ha := a.toNat_lt
      have hb := b.toNat_lt
      intro n hn
      simp only [sextets, List.mem_cons, List.not_mem_nil, or_false] at hn
      omega
  | case3 a =>
      have ha := a.toNat_lt
      intro n hn
      simp only [sextets, List.mem_cons, List.not_mem_nil, or_false] at hn
      omega
  | case4 => exact fun n hn => by cases hn

theorem sextetOf_sextetUnit (isUrl : Bool) {n : ℕ} (h : n < 64) : sextetOf (sextetUnit isUrl n) = some n := by
  have hall : ∀ isUrl, ∀ n < 64, sextetOf (sextetUnit isUrl n) = some n := by decide
  exact hall isUrl n h

/-- The numbers are read from their characters. -/
theorem filterMap_sextets (isUrl : Bool) (bytes : Bytes) : ((sextets bytes).map (sextetUnit isUrl)).filterMap sextetOf = sextets bytes := by
  have hlt := sextets_lt bytes
  generalize sextets bytes = numbers at hlt
  induction numbers with
  | nil => rfl
  | cons n numbers ih =>
      rw [List.map_cons, List.filterMap_cons_some (sextetOf_sextetUnit isUrl (hlt n List.mem_cons_self)),
        ih fun m hm => hlt m (List.mem_cons_of_mem _ hm)]

/-- **Bytes are read back**, the padding being no character of the alphabet. -/
theorem fromBase64_toBase64 (bytes : Bytes) : fromBase64 (toBase64 bytes) = bytes := by
  have hpadding : ∀ n, (List.replicate n (61 : UInt16)).filterMap sextetOf = [] := by
    intro n
    rw [List.filterMap_eq_nil_iff]
    intro u hu
    rw [(List.mem_replicate.mp hu).2]
    rfl
  rw [fromBase64, toBase64, List.filterMap_append, filterMap_sextets, hpadding, List.append_nil, ofSextets_sextets]

theorem fromBase64_toBase64Url (bytes : Bytes) : fromBase64 (toBase64Url bytes) = bytes := by
  rw [fromBase64, toBase64Url, filterMap_sextets, ofSextets_sextets]

theorem length_sextets (bytes : Bytes) : (sextets bytes).length = (4 * bytes.length + 2) / 3 := by
  induction bytes using sextets.induct with
  | case1 a b c rest ih =>
      simp only [sextets, List.length_cons, ih]
      omega
  | case2 a b => simp [sextets]
  | case3 a => simp [sextets]
  | case4 => rfl

/-- How long the text is: four characters for three bytes. -/
theorem length_toBase64Url (bytes : Bytes) : (toBase64Url bytes).length = (4 * bytes.length + 2) / 3 := by
  rw [toBase64Url, List.length_map, length_sextets]

/-- The characters of a text of addresses. -/
theorem mem_toBase64Url {bytes : Bytes} {u : UInt16} (h : u ∈ toBase64Url bytes) : (sextetOf u).isSome = true ∧ isSpaceUnit u = false := by
  obtain ⟨n, hn, rfl⟩ := List.mem_map.mp h
  have hall : ∀ n < 64, (sextetOf (sextetUnit true n)).isSome = true ∧ isSpaceUnit (sextetUnit true n) = false := by decide
  exact hall n (sextets_lt bytes n hn)

end Pokyh.Lib
