import Mathlib.Data.List.GetD
import Pokyh.Lib.Bits
import Pokyh.Lib.Primitives
import Pokyh.Lib.Texts

/-!
# Admin — Base32

The secrets of the second factor as text (`base32Encode` and `base32Decode` in `security/totp.ts`).  Both shift what they read into
one 32-bit word that is never masked and take what they write from its lowest `bits` bits, which are those that were read and not
written yet.

* `encodeByte_bits`, `decodeChar_bits`: one step keeps the bits that were read.
* `encode_bits`, `decode_bits`: so does a whole run, up to some zeros behind the encoding and less than a byte behind the decoding.
* `base32_survives`: **a secret is decoded from every spelling of its encoding**, and no other secret has that encoding.
-/

namespace Pokyh.Admin.Base32
open Pokyh.Lib

/-! ### The code -/

def BASE32 : List Char := "ABCDEFGHIJKLMNOPQRSTUVWXYZ234567".toList

/-- What has been read into the word and not been written: its last `bits` bits. -/
structure Pending where
  bits : ℕ
  value : BitVec 32

/-- The character of the lowest five bits of a word. -/
def digit (v : BitVec 32) : Char := BASE32.getD (v &&& 31).toNat 'A'

/-- The loop over the pending bits: five of them at a time. -/
def emit (value : BitVec 32) : ℕ → List Char × Pending
  | bits + 5 => (digit (value >>> bits) :: (emit value bits).1, (emit value bits).2)
  | bits => ([], ⟨bits, value⟩)

def Pending.nothing : Pending := ⟨0, 0⟩

def encodeByte (p : Pending) (byte : UInt8) : List Char × Pending :=
  emit (p.value <<< 8 ||| byte.toBitVec.setWidth 32) (p.bits + 8)

def encodeFrom (p : Pending) : Bytes → List Char
  | [] => if p.bits > 0 then [digit (p.value <<< (5 - p.bits))] else []
  | byte :: bytes => (encodeByte p byte).1 ++ encodeFrom (encodeByte p byte).2 bytes

def base32Encode (bytes : Bytes) : List Char := encodeFrom .nothing bytes

/-- Upper case of one character; white space has none, and beyond ASCII it is what `other` says. -/
def upperCase (other : Char → List Char) (c : Char) : List Char :=
  if isSpace c then [c] else if c.toNat < 128 then [c.toUpper] else other c

/-- What is left out of a text: white space, `=` and `-`. -/
def skipped (c : Char) : Bool := isSpace c || c = '=' || c = '-'

/-- The characters that are read of a text. -/
def clean (other : Char → List Char) (text : List Char) : List Char :=
  (text.flatMap (upperCase other)).filter fun c => !skipped c

def decodeChar (p : Pending) (char : Char) : Option (Bytes × Pending) :=
  if char ∈ BASE32 then
    let value := p.value <<< 5 ||| BitVec.ofNat 32 (BASE32.idxOf char)
    let bits := p.bits + 5
    some (if bits ≥ 8 then ([⟨(value >>> (bits - 8) &&& 255).setWidth 8⟩], ⟨bits - 8, value⟩) else ([], ⟨bits, value⟩))
  else none

def decodeFrom (p : Pending) : List Char → Option Bytes
  | [] => some []
  | char :: chars =>
    match decodeChar p char with
    | none => none
    | some (out, p') => (decodeFrom p' chars).map (out ++ ·)

/-- The decoded bytes, or nothing where a character is none of the alphabet. -/
def base32Decode (other : Char → List Char) (text : List Char) : Option Bytes :=
  decodeFrom .nothing (clean other text)

example : base32Encode [0xF0, 0x9F, 0x98, 0x80] = "6CPZRAA".toList := by decide +kernel

/-! ### Bits -/

def Pending.pending (p : Pending) : List Bool := lowBits p.bits p.value

def byteBits (byte : UInt8) : List Bool := lowBits 8 byte.toBitVec

/-- The five bits a character of the alphabet stands for. -/
def digitBits (c : Char) : List Bool := lowBits 5 (BitVec.ofNat 5 (BASE32.idxOf c))

theorem byteBits_injective : Function.Injective byteBits := by
  intro byte byte' h
  exact UInt8.toBitVec_inj.mp (lowBits_injective h)

theorem index_lt (v : BitVec 32) : (v &&& 31).toNat < BASE32.length := by
  rw [BitVec.toNat_and]
  exact Nat.lt_of_le_of_lt Nat.and_le_right (by decide)

theorem digit_mem (v : BitVec 32) : digit v ∈ BASE32 := by
  unfold digit
  rw [List.getD_eq_getElem _ _ (index_lt v)]
  exact List.getElem_mem (index_lt v)

theorem idxOf_digit (v : BitVec 32) : BASE32.idxOf (digit v) = (v &&& 31).toNat := by
  have hnodup : BASE32.Nodup := by decide +kernel
  unfold digit
  rw [List.getD_eq_getElem _ _ (index_lt v)]
  exact hnodup.idxOf_getElem _ (index_lt v)

theorem mask31 {i : ℕ} (hi : i < 5) : (31 : BitVec 32).getLsbD i = true := by
  have hall : ∀ i < 5, (31 : BitVec 32).getLsbD i = true := by decide
  exact hall i hi

theorem mask255 {i : ℕ} (hi : i < 8) : (255 : BitVec 32).getLsbD i = true := by
  have hall : ∀ i < 8, (255 : BitVec 32).getLsbD i = true := by decide
  exact hall i hi

/-- The character of a word stands for its lowest five bits. -/
theorem digitBits_digit (v : BitVec 32) : digitBits (digit v) = lowBits 5 v := by
  unfold digitBits
  rw [idxOf_digit]
  refine lowBits_congr fun i hi => ?_
  have hplace : i < 32 := by omega
  have hmasked : (v &&& 31).getLsbD i = v.getLsbD i := by rw [BitVec.getLsbD_and, mask31 hi, Bool.and_true]
  rw [← hmasked, BitVec.ofNat_toNat, BitVec.getLsbD_setWidth]
  simp [hi]

/-! ### Encoding -/

theorem emit_bits (v : BitVec 32) (bits : ℕ) :
    (emit v bits).1.flatMap digitBits ++ (emit v bits).2.pending = lowBits bits v ∧ (emit v bits).2.bits < 5 := by
  fun_induction emit v bits with
  | case1 bits ih =>
      refine ⟨?_, ih.2⟩
      rw [List.flatMap_cons, List.append_assoc, ih.1, digitBits_digit, ← lowBits_split, Nat.add_comm]
  | case2 bits hsmall =>
      refine ⟨rfl, Nat.lt_of_not_le fun hle => ?_⟩
      exact hsmall (bits - 5) (by simp only at hle; omega)

/-- **What a byte adds to the encoding** and to what is pending are its bits. -/
theorem encodeByte_bits {p : Pending} (hp : p.bits < 5) (byte : UInt8) :
    (encodeByte p byte).1.flatMap digitBits ++ (encodeByte p byte).2.pending = p.pending ++ byteBits byte ∧
      (encodeByte p byte).2.bits < 5 := by
  have hfits : p.bits + 8 ≤ 32 := by omega
  have hemit := emit_bits (p.value <<< 8 ||| byte.toBitVec.setWidth 32) (p.bits + 8)
  rw [lowBits_join p.value byte.toBitVec hfits] at hemit
  exact hemit

/-- **The encoding spells the bits of the bytes**, and at most four zeros behind them. -/
theorem encode_bits {p : Pending} (hp : p.bits < 5) (bytes : Bytes) :
    ∃ n < 5, (encodeFrom p bytes).flatMap digitBits = p.pending ++ bytes.flatMap byteBits ++ List.replicate n false := by
  induction bytes generalizing p with
  | nil =>
      unfold encodeFrom
      split
      · rename_i hpos
        refine ⟨5 - p.bits, by omega, ?_⟩
        have hfull : p.bits + (5 - p.bits) = 5 := by omega
        have hshift := lowBits_shift (m := p.bits) (n := 5 - p.bits) p.value (by omega)
        rw [hfull] at hshift
        simp [digitBits_digit, hshift, Pending.pending]
      · rename_i hzero
        have hbits : p.bits = 0 := by omega
        exact ⟨0, by omega, by simp [Pending.pending, hbits, lowBits]⟩
  | cons byte bytes ih =>
      obtain ⟨hbits, hp'⟩ := encodeByte_bits hp byte
      obtain ⟨n, hn, hrest⟩ := ih hp'
      refine ⟨n, hn, ?_⟩
      rw [encodeFrom, List.flatMap_append, hrest, ← List.append_assoc, ← List.append_assoc, hbits]
      simp only [List.flatMap_cons, List.append_assoc]

theorem emit_mem {v : BitVec 32} {bits : ℕ} {c : Char} (h : c ∈ (emit v bits).1) : c ∈ BASE32 := by
  fun_induction emit v bits with
  | case1 bits ih =>
      rcases List.mem_cons.mp h with rfl | h
      · exact digit_mem _
      · exact ih h
  | case2 => cases h

theorem encodeFrom_mem {p : Pending} {bytes : Bytes} {c : Char} (h : c ∈ encodeFrom p bytes) : c ∈ BASE32 := by
  induction bytes generalizing p with
  | nil =>
      rw [encodeFrom] at h
      split at h
      · rw [List.mem_singleton.mp h]
        exact digit_mem _
      · cases h
  | cons byte bytes ih =>
      rcases List.mem_append.mp h with h | h
      · exact emit_mem h
      · exact ih h

/-! ### Decoding -/

/-- **What a character adds to the decoding** and to what is pending are its bits. -/
theorem decodeChar_bits {p : Pending} (hp : p.bits < 8) {c : Char} (hc : c ∈ BASE32) :
    ∃ out p', decodeChar p c = some (out, p') ∧ p'.bits < 8 ∧
      out.flatMap byteBits ++ p'.pending = p.pending ++ digitBits c := by
  have hindex : BASE32.idxOf c < 2 ^ 5 := List.idxOf_lt_length_iff.mpr hc
  have hword : BitVec.ofNat 32 (BASE32.idxOf c) = (BitVec.ofNat 5 (BASE32.idxOf c)).setWidth 32 := by
    rw [BitVec.setWidth_ofNat_of_le_of_lt (by decide) hindex]
  have hjoin := lowBits_join (m := p.bits) p.value (BitVec.ofNat 5 (BASE32.idxOf c)) (by omega)
  unfold decodeChar
  rw [if_pos hc, hword]
  set value := p.value <<< 5 ||| (BitVec.ofNat 5 (BASE32.idxOf c)).setWidth 32
  dsimp only
  split
  · rename_i hfull
    refine ⟨_, _, rfl, by simp only; omega, ?_⟩
    have hbits : 8 + (p.bits + 5 - 8) = p.bits + 5 := by omega
    have hbyte : byteBits ⟨(value >>> (p.bits + 5 - 8) &&& 255).setWidth 8⟩ = lowBits 8 (value >>> (p.bits + 5 - 8)) := by
      refine lowBits_congr fun i hi => ?_
      rw [BitVec.getLsbD_setWidth, BitVec.getLsbD_and, mask255 hi, Bool.and_true]
      simp [hi]
    rw [List.flatMap_singleton, hbyte, Pending.pending, ← lowBits_split, hbits, hjoin]
    rfl
  · rename_i hsmall
    exact ⟨_, _, rfl, by simp only; omega, hjoin⟩

/-- **The decoding spells the bits of the characters**, up to less than a byte at the end. -/
theorem decode_bits {p : Pending} (hp : p.bits < 8) {chars : List Char} (hchars : ∀ c ∈ chars, c ∈ BASE32) :
    ∃ out rest, decodeFrom p chars = some out ∧ rest.length < 8 ∧
      out.flatMap byteBits ++ rest = p.pending ++ chars.flatMap digitBits := by
  induction chars generalizing p with
  | nil => exact ⟨[], p.pending, rfl, by simpa [Pending.pending] using hp, by simp⟩
  | cons c chars ih =>
      obtain ⟨out, p', hdecode, hp', hbits⟩ := decodeChar_bits hp (hchars c List.mem_cons_self)
      obtain ⟨outs, rest, hrun, hrest, hspell⟩ := ih hp' fun c' hc' => hchars c' (List.mem_cons_of_mem _ hc')
      refine ⟨out ++ outs, rest, by simp [decodeFrom, hdecode, hrun], hrest, ?_⟩
      rw [List.flatMap_append, List.append_assoc, hspell, ← List.append_assoc, hbits]
      simp only [List.flatMap_cons, List.append_assoc]

/-! ### Spellings -/

/-- A text that spells the second one: in upper or lower case, with white space, `=` and `-` anywhere. -/
inductive Spells : List Char → List Char → Prop where
  | done : Spells [] []
  | kept {text secret : List Char} (c : Char) (h : Spells text secret) : Spells (c :: text) (c :: secret)
  | lowered {text secret : List Char} (c : Char) (h : Spells text secret) : Spells (c.toLower :: text) (c :: secret)
  | added {text secret : List Char} (c : Char) (hc : skipped c = true) (h : Spells text secret) : Spells (c :: text) secret

/-- In either case a character of the alphabet is read as itself. -/
theorem clean_letter (other : Char → List Char) {c c' : Char} (hc : c ∈ BASE32) (hc' : c' = c ∨ c' = c.toLower) (text : List Char) :
    clean other (c' :: text) = c :: clean other text := by
  have hall : (BASE32.all fun c => [c, c.toLower].all fun c' =>
      !isSpace c' && c'.toNat < 128 && c'.toUpper = c && !skipped c) = true := by decide +kernel
  have hletter := List.all_eq_true.mp (List.all_eq_true.mp hall c hc) c' (by simpa using hc')
  simp only [Bool.and_eq_true, Bool.not_eq_true', decide_eq_true_eq] at hletter
  obtain ⟨⟨⟨hspace, hascii⟩, hupper⟩, hread⟩ := hletter
  have hcase : upperCase other c' = [c] := by rw [upperCase, if_neg (by simp [hspace]), if_pos hascii, hupper]
  simp [clean, hcase, hread]

/-- What is skipped has no case. -/
theorem clean_skipped (other : Char → List Char) {c : Char} (hc : skipped c = true) (text : List Char) :
    clean other (c :: text) = clean other text := by
  have hcase : upperCase other c = [c] := by
    simp only [skipped, Bool.or_eq_true, decide_eq_true_eq] at hc
    rcases hc with (hspace | rfl) | rfl
    · rw [upperCase, if_pos hspace]
    · rfl
    · rfl
  simp [clean, hcase, hc]

theorem clean_of_spells (other : Char → List Char) {text secret : List Char} (h : Spells text secret)
    (hsecret : ∀ c ∈ secret, c ∈ BASE32) : clean other text = secret := by
  induction h with
  | done => rfl
  | @kept text secret c _ ih =>
      rw [clean_letter other (hsecret c List.mem_cons_self) (.inl rfl), ih fun c' hc' => hsecret c' (List.mem_cons_of_mem _ hc')]
  | @lowered text secret c _ ih =>
      rw [clean_letter other (hsecret c List.mem_cons_self) (.inr rfl), ih fun c' hc' => hsecret c' (List.mem_cons_of_mem _ hc')]
  | added c hc _ ih => rw [clean_skipped other hc, ih hsecret]

theorem pending_nothing : Pending.nothing.pending = [] := rfl

theorem length_byteBits (byte : UInt8) : (byteBits byte).length = 8 := length_lowBits 8 byte.toBitVec

/-- What is decoded of the encoding itself. -/
theorem decode_encode (bytes : Bytes) : decodeFrom .nothing (base32Encode bytes) = some bytes := by
  obtain ⟨n, hn, hencoded⟩ := encode_bits (p := .nothing) (Nat.zero_lt_succ 4) bytes
  have hmem : ∀ c ∈ base32Encode bytes, c ∈ BASE32 := fun c hc => encodeFrom_mem hc
  obtain ⟨out, rest, hrun, hrest, hdecoded⟩ := decode_bits (p := .nothing) (Nat.zero_lt_succ 7) hmem
  have hencode : (base32Encode bytes).flatMap digitBits = bytes.flatMap byteBits ++ List.replicate n false := by
    rw [base32Encode, hencoded, pending_nothing, List.nil_append]
  rw [hencode, pending_nothing, List.nil_append] at hdecoded
  have hzeros : (List.replicate n false).length < 8 := by rw [List.length_replicate]; omega
  have hout : out = bytes := eq_of_blocks length_byteBits byteBits_injective hrest hzeros hdecoded
  rw [hrun, hout]

/-- **Secrets survive**: a byte string is decoded from every spelling of its encoding, and no other has the same one. -/
theorem base32_survives (other : Char → List Char) :
    (∀ bytes text, Spells text (base32Encode bytes) → base32Decode other text = some bytes) ∧
      Function.Injective base32Encode := by
  refine ⟨fun bytes text h => ?_, fun bytes bytes' h => ?_⟩
  · rw [base32Decode, clean_of_spells other h fun c hc => encodeFrom_mem hc, decode_encode]
  · have hdecoded := decode_encode bytes
    rw [h, decode_encode] at hdecoded
    exact (Option.some.inj hdecoded).symm

/-- The four bytes of a smiling face, written in small letters, in groups and with padding. -/
theorem face_survives (other : Char → List Char) :
    base32Decode other "6cpz raa=".toList = some [0xF0, 0x9F, 0x98, 0x80] := by
  have hspelled : Spells "6cpz raa=".toList (base32Encode [0xF0, 0x9F, 0x98, 0x80]) := by
    have hencoded : base32Encode [0xF0, 0x9F, 0x98, 0x80] = "6CPZRAA".toList := by decide +kernel
    rw [hencoded]
    exact .kept '6' (.lowered 'C' (.lowered 'P' (.lowered 'Z' (.added ' ' (by decide) (.lowered 'R' (.lowered 'A' (.lowered 'A'
      (.added '=' (by decide) .done))))))))
  exact (base32_survives other).1 _ _ hspelled

end Pokyh.Admin.Base32
