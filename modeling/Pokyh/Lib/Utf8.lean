import Mathlib.Data.List.Basic
import Pokyh.Lib.Primitives

/-!
# Lib — Utf8

Text as bytes, and the text that is read from any bytes: what is no character becomes U+FFFD, one for each longest beginning of a
character.

* `readText_writeText`: **a written text is read back**, whatever bytes follow it.
-/

namespace Pokyh.Lib

/-- `Buffer.from(text, 'utf8')` -/
def writeText (text : List Char) : Bytes := text.flatMap String.utf8EncodeChar

def REPLACEMENT : Char := '\ufffd'

/-- The bytes that `needed` more bytes of a character may be, the first of them between two bounds: the character, and how many bytes
were read. -/
def followUp (code : ℕ) : ℕ → UInt8 → UInt8 → ℕ → Bytes → Char × ℕ
  | 0, _, _, seen, _ => (Char.ofNat code, seen)
  | needed + 1, lower, upper, seen, b :: rest =>
    if lower ≤ b && b ≤ upper then followUp (code * 64 + (b.toNat - 0x80)) needed 0x80 0xBF (seen + 1) rest else (REPLACEMENT, seen)
  | _ + 1, _, _, seen, [] => (REPLACEMENT, seen)

/-- The character that a byte begins, and how many bytes behind it belong to it. -/
def readChar (a : UInt8) (rest : Bytes) : Char × ℕ :=
  if a < 0x80 then (Char.ofNat a.toNat, 0)
  else if 0xC2 ≤ a && a ≤ 0xDF then followUp (a.toNat - 0xC0) 1 0x80 0xBF 0 rest
  else if 0xE0 ≤ a && a ≤ 0xEF then
    followUp (a.toNat - 0xE0) 2 (if a = 0xE0 then 0xA0 else 0x80) (if a = 0xED then 0x9F else 0xBF) 0 rest
  else if 0xF0 ≤ a && a ≤ 0xF4 then
    followUp (a.toNat - 0xF0) 3 (if a = 0xF0 then 0x90 else 0x80) (if a = 0xF4 then 0x8F else 0xBF) 0 rest
  else (REPLACEMENT, 0)

/-- `bytes.toString('utf8')` -/
def readText : Bytes → List Char
  | [] => []
  | a :: rest => (readChar a rest).1 :: readText (rest.drop (readChar a rest).2)
termination_by bytes => bytes.length
decreasing_by simp only [List.length_drop, List.length_cons]; omega

/-- A byte as `toString('ascii')` reads it. -/
def asciiChar (b : UInt8) : Char := Char.ofNat (b.toNat % 128)

theorem writeText_append (s t : List Char) : writeText (s ++ t) = writeText s ++ writeText t := List.flatMap_append

theorem writeText_cons (c : Char) (s : List Char) : writeText (c :: s) = String.utf8EncodeChar c ++ writeText s := rfl

theorem write_ascii {c : Char} (h : c.toNat < 128) : String.utf8EncodeChar c = [UInt8.ofNat c.toNat] := by
  unfold String.utf8EncodeChar
  exact if_pos (Nat.le_of_lt_succ h)

theorem writeText_ascii {s : List Char} (h : ∀ c ∈ s, c.toNat < 128) : writeText s = s.map fun c => UInt8.ofNat c.toNat := by
  induction s with
  | nil => rfl
  | cons c s ih =>
      rw [writeText_cons, write_ascii (h c List.mem_cons_self), ih fun d hd => h d (List.mem_cons_of_mem _ hd)]
      rfl

/-- The numbers that are characters. -/
theorem toNat_valid (c : Char) : c.toNat < 0xD800 ∨ 0xDFFF < c.toNat ∧ c.toNat < 0x110000 := c.valid

theorem toNat_ofNat {k : ℕ} (hk : k < 256) : (UInt8.ofNat k).toNat = k := by
  rw [UInt8.toNat_ofNat', Nat.mod_eq_of_lt hk]

theorem asciiChar_ofNat {c : Char} (h : c.toNat < 128) : asciiChar (UInt8.ofNat c.toNat) = c := by
  rw [asciiChar, toNat_ofNat (by omega), Nat.mod_eq_of_lt h, Char.ofNat_toNat]

/-- A text of ASCII characters is read back with `toString('ascii')`. -/
theorem readAscii_writeText {s : List Char} (h : ∀ c ∈ s, c.toNat < 128) : (writeText s).map asciiChar = s := by
  rw [writeText_ascii h, List.map_map]
  exact (List.map_congr_left fun c hc => asciiChar_ofNat (h c hc)).trans (List.map_id _)

/-- A byte below 128 stands for its own character only. -/
theorem byte_ascii {c : Char} {b : UInt8} (hb : b ∈ String.utf8EncodeChar c) (hlow : b.toNat < 128) : c.toNat = b.toNat := by
  have hval : c.val.toNat = c.toNat := rfl
  have hhigh : ∀ k, 128 ≤ k → k < 256 → b ≠ UInt8.ofNat k := fun k hle hk heq => by
    rw [heq, toNat_ofNat hk] at hlow
    omega
  have hvalid := toNat_valid c
  unfold String.utf8EncodeChar at hb
  rw [hval] at hb
  dsimp only at hb
  generalize c.toNat = n at hvalid hb
  split at hb
  · rw [List.mem_singleton.mp hb]
    exact (toNat_ofNat (by omega)).symm
  · exfalso
    split at hb
    · simp only [List.mem_cons, List.not_mem_nil, or_false] at hb
      rcases hb with heq | heq
      · exact hhigh _ (by omega) (by omega) heq
      · exact hhigh _ (by omega) (by omega) heq
    · split at hb
      · simp only [List.mem_cons, List.not_mem_nil, or_false] at hb
        rcases hb with heq | heq | heq
        · exact hhigh _ (by omega) (by omega) heq
        · exact hhigh _ (by omega) (by omega) heq
        · exact hhigh _ (by omega) (by omega) heq
      · simp only [List.mem_cons, List.not_mem_nil, or_false] at hb
        rcases hb with heq | heq | heq | heq
        · exact hhigh _ (by omega) (by omega) heq
        · exact hhigh _ (by omega) (by omega) heq
        · exact hhigh _ (by omega) (by omega) heq
        · exact hhigh _ (by omega) (by omega) heq

/-- An ASCII byte of a text is a character of it. -/
theorem mem_writeText_ascii {text : List Char} {d : Char} (hd : d.toNat < 128) (h : UInt8.ofNat d.toNat ∈ writeText text) : d ∈ text := by
  obtain ⟨c, hc, hbyte⟩ := List.mem_flatMap.mp h
  have hcode : (UInt8.ofNat d.toNat).toNat = d.toNat := toNat_ofNat (by omega)
  have hsame := byte_ascii hbyte (by omega)
  rw [hcode] at hsame
  have hchar : c = d := Char.ext (UInt32.toNat_inj.mp hsame)
  exact hchar ▸ hc

/-- A byte that may follow is read. -/
theorem followUp_byte {k code needed seen : ℕ} {lower upper : UInt8} (hk : k < 256) (hlower : lower.toNat ≤ k) (hupper : k ≤ upper.toNat)
    (rest : Bytes) : followUp code (needed + 1) lower upper seen (UInt8.ofNat k :: rest) =
      followUp (code * 64 + (k - 0x80)) needed 0x80 0xBF (seen + 1) rest := by
  rw [followUp, if_pos, toNat_ofNat hk]
  rw [Bool.and_eq_true, decide_eq_true_eq, decide_eq_true_eq, UInt8.le_iff_toNat_le, UInt8.le_iff_toNat_le, toNat_ofNat hk]
  exact ⟨hlower, hupper⟩

theorem readChar_ofNat {k : ℕ} (hk : k < 256) (rest : Bytes) : readChar (UInt8.ofNat k) rest =
    if k < 0x80 then (Char.ofNat k, 0)
    else if 0xC2 ≤ k ∧ k ≤ 0xDF then followUp (k - 0xC0) 1 0x80 0xBF 0 rest
    else if 0xE0 ≤ k ∧ k ≤ 0xEF then followUp (k - 0xE0) 2 (if k = 0xE0 then 0xA0 else 0x80) (if k = 0xED then 0x9F else 0xBF) 0 rest
    else if 0xF0 ≤ k ∧ k ≤ 0xF4 then followUp (k - 0xF0) 3 (if k = 0xF0 then 0x90 else 0x80) (if k = 0xF4 then 0x8F else 0xBF) 0 rest
    else (REPLACEMENT, 0) := by
  simp only [readChar, UInt8.lt_iff_toNat_lt, UInt8.le_iff_toNat_le, ← UInt8.toNat_inj, toNat_ofNat hk, Bool.and_eq_true, decide_eq_true_eq]
  rfl

/-- What is read of the bytes of one character. -/
theorem readChar_write (c : Char) (rest : Bytes) : ∃ a tail, String.utf8EncodeChar c = a :: tail ∧
    readChar a (tail ++ rest) = (c, tail.length) := by
  have hvalid := toNat_valid c
  have hof : Char.ofNat c.toNat = c := Char.ofNat_toNat c
  have hval : c.val.toNat = c.toNat := rfl
  unfold String.utf8EncodeChar
  rw [hval]
  dsimp only
  generalize c.toNat = n at hvalid hof
  by_cases h1 : n ≤ 0x7f
  · refine ⟨_, [], if_pos h1, ?_⟩
    rw [readChar_ofNat (by omega), if_pos (by omega), hof]
    rfl
  by_cases h2 : n ≤ 0x7ff
  · refine ⟨_, [_], (if_neg h1).trans (if_pos h2), ?_⟩
    have hcode : (n / 64 % 32 + 0xc0 - 0xC0) * 64 + (n % 64 + 0x80 - 0x80) = n := by omega
    rw [readChar_ofNat (by omega), if_neg (by omega), if_pos (by omega), List.cons_append,
      followUp_byte (by omega) (by simp) (by simp; omega), followUp, hcode, hof]
    rfl
  by_cases h3 : n ≤ 0xffff
  · refine ⟨_, [_, _], (if_neg h1).trans ((if_neg h2).trans (if_pos h3)), ?_⟩
    have hcode : ((n / 4096 % 16 + 0xe0 - 0xE0) * 64 + (n / 64 % 64 + 0x80 - 0x80)) * 64 + (n % 64 + 0x80 - 0x80) = n := by omega
    -- no three bytes for what two are enough for, and none for half a pair of surrogates
    have hlower : (if n / 4096 % 16 + 0xe0 = 0xE0 then 0xA0 else 0x80 : UInt8).toNat ≤ n / 64 % 64 + 0x80 := by split <;> simp <;> omega
    have hupper : n / 64 % 64 + 0x80 ≤ (if n / 4096 % 16 + 0xe0 = 0xED then 0x9F else 0xBF : UInt8).toNat := by split <;> simp <;> omega
    rw [readChar_ofNat (by omega), if_neg (by omega), if_neg (by omega), if_pos (by omega), List.cons_append, List.cons_append,
      followUp_byte (by omega) hlower hupper, followUp_byte (by omega) (by simp) (by simp; omega), followUp, hcode, hof]
    rfl
  · refine ⟨_, [_, _, _], (if_neg h1).trans ((if_neg h2).trans (if_neg h3)), ?_⟩
    have hcode : (((n / 262144 % 8 + 0xf0 - 0xF0) * 64 + (n / 4096 % 64 + 0x80 - 0x80)) * 64 + (n / 64 % 64 + 0x80 - 0x80)) * 64 +
        (n % 64 + 0x80 - 0x80) = n := by omega
    have hlower : (if n / 262144 % 8 + 0xf0 = 0xF0 then 0x90 else 0x80 : UInt8).toNat ≤ n / 4096 % 64 + 0x80 := by split <;> simp <;> omega
    have hupper : n / 4096 % 64 + 0x80 ≤ (if n / 262144 % 8 + 0xf0 = 0xF4 then 0x8F else 0xBF : UInt8).toNat := by split <;> simp <;> omega
    rw [readChar_ofNat (by omega), if_neg (by omega), if_neg (by omega), if_neg (by omega), if_pos (by omega), List.cons_append,
      List.cons_append, List.cons_append, followUp_byte (by omega) hlower hupper, followUp_byte (by omega) (by simp) (by simp; omega),
      followUp_byte (by omega) (by simp) (by simp; omega), followUp, hcode, hof]
    rfl

/-- **A written text is read back.** -/
theorem readText_writeText (s : List Char) (rest : Bytes) : readText (writeText s ++ rest) = s ++ readText rest := by
  induction s with
  | nil => rfl
  | cons c s ih =>
      obtain ⟨a, tail, hbytes, hread⟩ := readChar_write c (writeText s ++ rest)
      rw [writeText_cons, hbytes, List.append_assoc, List.cons_append, readText, hread]
      simp only
      rw [List.drop_left, ih, List.cons_append]

end Pokyh.Lib
