import Pokyh.Lib.Blocks
import Pokyh.Lib.Texts
import Pokyh.Lib.Utf8

/-!
# Cluster — Bundles

The archive of files that a node hands to a server it installs (`tarball.ts`), and a reader of such archives.  The file system and gzip
are parameters.

* `header_layout`: a header is its fields in order.
* `readEntries_written`: **what is read of an archive are its files.**
* `bundle_exact`: an archive that is made holds exactly the files, and a path that is not safe or too long is refused.
-/

namespace Pokyh.Cluster.Bundles
open Pokyh.Lib

/-! ### Writing -/

def BLOCK : ℕ := 512
def FIXED_MTIME : ℕ := 1767225600

/-- A regular file below 8 GiB. -/
structure File where
  content : Bytes
  executable : Bool
  content_length : content.length < 8 ^ 11

/-- What can be read below a directory.  A path to a file holds no null character, is not empty and does not end in a slash. -/
structure Disk where
  read : List Char → Option File
  no_null : ∀ path file, read path = some file → '\x00' ∉ path
  ends : ∀ path file, read path = some file → ∃ last, path.getLast? = some last ∧ last ≠ '/'

inductive TarError where
  /-- refusing unsafe path -/
  | unsafePath (file : List Char)
  /-- What the file system refuses. -/
  | unreadable (file : List Char)
  /-- path is too long for the archive -/
  | tooLong (name : List Char)

/-- `value.toString(8).padStart(width - 1, '0') + '\0'` -/
def octal (value width : ℕ) : List Char := (Nat.toDigits 8 value).leftpad (width - 1) '0' ++ ['\x00']

def byteLength (text : List Char) : ℕ := (writeText text).length

/-- The parts of a name before and behind its slashes, the last slash first; one at the very front does not count. -/
def cuts : List Char → List (List Char × List Char)
  | [] => []
  | c :: rest =>
    (cuts rest).map (fun cut => (c :: cut.1, cut.2)) ++ if rest.head? = some '/' then [([c], rest.tail)] else []

/-- A name in two fields: as it is where it fits, else cut at the last slash that leaves parts that fit. -/
def splitName (name : List Char) : Except TarError (List Char × List Char) :=
  if byteLength name ≤ 100 then .ok (name, [])
  else
    match (cuts name).find? fun cut => byteLength cut.1 ≤ 155 && byteLength cut.2 ≤ 100 with
    | some cut => .ok (cut.2, cut.1)
    | none => .error (.tooLong name)

/-- The whole characters of a text that fit into some bytes. -/
def fitting (limit : ℕ) : List Char → List Char
  | [] => []
  | c :: text => if (String.utf8EncodeChar c).length ≤ limit then c :: fitting (limit - (String.utf8EncodeChar c).length) text else []

/-- `block.write(text, at, width)` -/
def write (text : List Char) (place width : ℕ) : ℕ × Bytes := (place, writeText (fitting width text))

def sum (bytes : Bytes) : ℕ := (bytes.map UInt8.toNat).sum

/-- What stands in place of the sum while it is taken. -/
def blanks : Bytes := List.replicate 8 32

def header (name : List Char) (size mode : ℕ) : Except TarError Bytes :=
  match splitName name with
  | .error e => .error e
  | .ok split =>
    let block := writes (zeros BLOCK) [
      write split.1 0 100,
      write (octal mode 8) 100 8,
      write (octal 0 8) 108 8,
      write (octal 0 8) 116 8,
      write (octal size 12) 124 12,
      write (octal FIXED_MTIME 12) 136 12,
      (148, blanks),
      write ['0'] 156 1,
      write "ustar\x00".toList 257 6,
      write "00".toList 263 2,
      write "root".toList 265 32,
      write "root".toList 297 32,
      write split.2 345 155]
    .ok (writes block [write ((Nat.toDigits 8 (sum block)).leftpad 6 '0' ++ ['\x00', ' ']) 148 8])

/-- Absolute, or with `..` among its parts. -/
def isUnsafe (file : List Char) : Bool := file.head? = some '/' || (file.splitOn '/').contains ['.', '.']

/-- What a file adds to the archive. -/
def fileParts (disk : Disk) (under file : List Char) : Except TarError Bytes :=
  if isUnsafe file then .error (.unsafePath file)
  else
    match disk.read file with
    | none => .error (.unreadable file)
    | some content =>
      match header (under ++ '/' :: file) content.content.length (if content.executable then 0o755 else 0o644) with
      | .error e => .error e
      | .ok head => .ok (head ++ (content.content ++ zeros ((BLOCK - content.content.length % BLOCK) % BLOCK)))

/-- The parts of all files, in order. -/
def allParts (disk : Disk) (under : List Char) : List (List Char) → Except TarError Bytes
  | [] => .ok []
  | file :: files =>
    match fileParts disk under file with
    | .error e => .error e
    | .ok part =>
      match allParts disk under files with
      | .error e => .error e
      | .ok parts => .ok (part ++ parts)

def createTar (disk : Disk) (under : List Char) (files : List (List Char)) : Except TarError Bytes :=
  match allParts disk under files with
  | .error e => .error e
  | .ok parts => .ok (parts ++ zeros (BLOCK * 2))

/-- A compression that is undone. -/
structure Gzip where
  gzip : Bytes → Bytes
  gunzip : Bytes → Bytes
  inverts : ∀ data, gunzip (gzip data) = data

def createTarGz (g : Gzip) (disk : Disk) (files : List (List Char)) (under : List Char) : Except TarError Bytes :=
  match createTar disk under files with
  | .error e => .error e
  | .ok data => .ok (g.gzip data)

/-! ### Reading -/

/-- A file of an archive. -/
structure Entry where
  path : List Char
  executable : Bool
  content : Bytes
  deriving DecidableEq

def isOctalDigit (c : Char) : Bool := '0' ≤ c && c ≤ '7'

/-- A number in octal digits, up to a null character or a blank. -/
def readOctal (field : Bytes) : Option ℕ :=
  let digits := ((field.map asciiChar).dropWhile (· = ' ')).takeWhile isOctalDigit
  if digits = [] then none else some (Nat.ofDigitChars 8 digits 0)

/-- A text up to a null character. -/
def readName (field : Bytes) : Bytes := field.takeWhile (· ≠ 0)

/-- The sum of a header, with blanks in place of its sum. -/
def checksum (block : Bytes) : ℕ := sum (block.take 148) + 8 * 32 + sum (block.drop 156)

/-- A regular file's header: its path, its mode and its size. -/
def readHeader (block : Bytes) : Option (Bytes × ℕ × ℕ) :=
  if fieldAt block 257 6 = writeText "ustar\x00".toList ∧ fieldAt block 263 2 = writeText "00".toList ∧
      readOctal (fieldAt block 148 8) = some (checksum block) ∧ fieldAt block 156 1 = [48] then
    match readOctal (fieldAt block 100 8), readOctal (fieldAt block 124 12) with
    | some mode, some size =>
      let name := readName (fieldAt block 0 100)
      let start := readName (fieldAt block 345 155)
      some (if start = [] then name else start ++ 47 :: name, mode, size)
    | _, _ => none
  else none

/-- The size of some bytes in whole blocks. -/
def inBlocks (size : ℕ) : ℕ := (size + BLOCK - 1) / BLOCK * BLOCK

/-- A whole block of zeros. -/
def isZero (block : Bytes) : Bool := block.length = BLOCK && block.all (· = 0)

/-- What an archive begins with. -/
inductive Front where
  | damaged
  | zeros
  | entry (entry : Entry) (rest : Bytes)

/-- A block of zeros, or a header with the content that it announces; a path that ends in a slash is no file's. -/
def readFront (archive : Bytes) : Front :=
  let block := archive.take BLOCK
  let rest := archive.drop BLOCK
  if isZero block then .zeros
  else
    match readHeader block with
    | none => .damaged
    | some (path, mode, size) =>
      if rest.length < inBlocks size ∨ path.getLast? = some 47 then .damaged
      else .entry ⟨readText path, mode &&& 0o111 ≠ 0, rest.take size⟩ (rest.drop (inBlocks size))

/-- What is left behind an entry is shorter. -/
theorem readFront_shorter {archive rest : Bytes} {entry : Entry} (h : readFront archive = .entry entry rest) :
    rest.length < archive.length := by
  unfold readFront at h
  dsimp only at h
  split at h
  · cases h
  · split at h
    · cases h
    · rename_i path mode size hheader
      split at h
      · cases h
      · obtain ⟨-, rfl⟩ := Front.entry.inj h
        have hne : archive ≠ [] := by
          rintro rfl
          cases hheader
        have hpos := List.length_pos_iff.mpr hne
        simp only [List.length_drop, BLOCK]
        omega

/-- The files of an archive, up to the two blocks of zeros at its end. -/
def readEntries (archive : Bytes) : Option (List Entry) :=
  match _h : readFront archive with
  | .damaged => none
  | .zeros => if isZero ((archive.drop BLOCK).take BLOCK) then some [] else none
  | .entry entry rest => (readEntries rest).map (entry :: ·)
termination_by archive.length
decreasing_by exact readFront_shorter _h

/-! ### Headers -/

theorem fitting_all {text : List Char} {limit : ℕ} (h : byteLength text ≤ limit) : fitting limit text = text := by
  induction text generalizing limit with
  | nil => rfl
  | cons c text ih =>
      rw [byteLength, writeText_cons, List.length_append] at h
      have hrest : byteLength text ≤ limit - (String.utf8EncodeChar c).length := by
        rw [byteLength]
        omega
      rw [fitting, if_pos (by omega), ih hrest]

theorem write_all {text : List Char} {width : ℕ} (h : byteLength text ≤ width) (place : ℕ) : write text place width = (place, writeText text) := by
  rw [write, fitting_all h]

theorem isOctalDigit_toDigits {n : ℕ} {c : Char} (h : c ∈ Nat.toDigits 8 n) : isOctalDigit c = true ∧ c.toNat < 128 ∧ c ≠ ' ' := by
  have hdigit : ∀ k < 8, isOctalDigit (Nat.digitChar k) = true ∧ (Nat.digitChar k).toNat < 128 ∧ Nat.digitChar k ≠ ' ' := by decide
  induction n using Nat.strongRecOn with
  | ind n ih =>
      rcases Nat.lt_or_ge n 8 with hsmall | hlarge
      · rw [Nat.toDigits_of_lt_base hsmall, List.mem_singleton] at h
        exact h ▸ hdigit n hsmall
      · rw [Nat.toDigits_of_base_le (by decide) hlarge] at h
        rcases List.mem_append.mp h with h | h
        · exact ih (n / 8) (by omega) h
        · rw [List.mem_singleton] at h
          exact h ▸ hdigit _ (Nat.mod_lt n (by decide))

/-- Digits filled up with zeros. -/
theorem leftpad_digits {n width : ℕ} {c : Char} (h : c ∈ (Nat.toDigits 8 n).leftpad width '0') :
    isOctalDigit c = true ∧ c.toNat < 128 ∧ c ≠ ' ' := by
  rcases List.mem_append.mp h with h | h
  · rw [(List.mem_replicate.mp h).2]
    decide
  · exact isOctalDigit_toDigits h

theorem length_leftpad {n width : ℕ} (h : n < 8 ^ width) (hwidth : 0 < width) : ((Nat.toDigits 8 n).leftpad width '0').length = width := by
  have hlength := (Nat.length_toDigits_le_iff (b := 8) (by decide) hwidth).mpr h
  rw [List.leftpad, List.length_append, List.length_replicate]
  omega

theorem byteLength_ascii {text : List Char} (h : ∀ c ∈ text, c.toNat < 128) : byteLength text = text.length := by
  rw [byteLength, writeText_ascii h, List.length_map]

/-- **A number is read as it is written**, whatever stands behind its digits that is none. -/
theorem readOctal_leftpad {n width : ℕ} (stop : Char) (hstop : stop.toNat < 128) (hend : isOctalDigit stop = false) (after : Bytes) :
    readOctal (writeText ((Nat.toDigits 8 n).leftpad width '0' ++ [stop]) ++ after) = some n := by
  have hascii : ∀ c ∈ (Nat.toDigits 8 n).leftpad width '0' ++ [stop], c.toNat < 128 := by
    intro c hc
    rcases List.mem_append.mp hc with hc | hc
    · exact (leftpad_digits hc).2.1
    · exact List.mem_singleton.mp hc ▸ hstop
  have hne : (Nat.toDigits 8 n).leftpad width '0' ≠ [] := List.append_ne_nil_of_right_ne_nil _ Nat.toDigits_ne_nil
  have hdigits : ((writeText ((Nat.toDigits 8 n).leftpad width '0' ++ [stop]) ++ after).map asciiChar |>.dropWhile (· = ' ')).takeWhile
      isOctalDigit = (Nat.toDigits 8 n).leftpad width '0' := by
    rw [List.map_append, readAscii_writeText hascii]
    have hdigit : ∀ c ∈ (Nat.toDigits 8 n).leftpad width '0', isOctalDigit c = true ∧ c.toNat < 128 ∧ c ≠ ' ' := fun c hc => leftpad_digits hc
    generalize (Nat.toDigits 8 n).leftpad width '0' = digits at hdigit hne
    obtain ⟨d, rest, rfl⟩ := List.exists_cons_of_ne_nil hne
    have hfirst : ¬ (decide (d = ' ')) = true := by simpa using (hdigit d List.mem_cons_self).2.2
    rw [List.cons_append, List.cons_append, List.dropWhile_cons_of_neg (p := fun x => decide (x = ' ')) hfirst, ← List.cons_append, ← List.cons_append, List.append_assoc,
      List.takeWhile_append_of_pos fun c hc => (hdigit c hc).1, List.singleton_append, List.takeWhile_cons_of_neg (by simp [hend]), List.append_nil]
  rw [readOctal, hdigits, if_neg hne, List.leftpad, Nat.ofDigitChars_append, Nat.ofDigitChars_replicate_zero, Nat.mul_zero,
    Nat.ofDigitChars_toDigits (by decide) (by decide)]

theorem readOctal_octal {n width : ℕ} (after : Bytes) : readOctal (writeText (octal n width) ++ after) = some n :=
  readOctal_leftpad '\x00' (by decide) (by decide) after

theorem byteLength_octal {n width : ℕ} (h : n < 8 ^ (width - 1)) (hwidth : 1 < width) : byteLength (octal n width) = width := by
  have hascii : ∀ c ∈ octal n width, c.toNat < 128 := by
    intro c hc
    rcases List.mem_append.mp hc with hc | hc
    · exact (leftpad_digits hc).2.1
    · exact List.mem_singleton.mp hc ▸ (by decide)
  rw [byteLength_ascii hascii, octal, List.length_append, length_leftpad h (by omega), List.length_singleton]
  omega

/-- The fields of a header. -/
def headerFields (name start : List Char) (size mode : ℕ) (sum : Bytes) : Fields := [
  (100, writeText name), (8, writeText (octal mode 8)), (8, writeText (octal 0 8)), (8, writeText (octal 0 8)), (12, writeText (octal size 12)),
  (12, writeText (octal FIXED_MTIME 12)), (8, sum), (1, writeText ['0']), (100, []), (6, writeText "ustar\x00".toList), (2, writeText "00".toList),
  (32, writeText "root".toList), (32, writeText "root".toList), (8, []), (8, []), (155, writeText start), (12, [])]

/-- The text of a header's sum. -/
def sumText (n : ℕ) : List Char := (Nat.toDigits 8 n).leftpad 6 '0' ++ ['\x00', ' ']

/-- What fits into a header. -/
structure Small (name start : List Char) (size mode : ℕ) : Prop where
  name_length : byteLength name ≤ 100
  start_length : byteLength start ≤ 155
  size_lt : size < 8 ^ 11
  mode_lt : mode < 8 ^ 7

variable {name start : List Char} {size mode : ℕ}

theorem headerFields_fit (h : Small name start size mode) (chk : Bytes) (hsum : chk.length = 8) : Fit (headerFields name start size mode chk) := by
  have hmode : (writeText (octal mode 8)).length = 8 := byteLength_octal h.mode_lt (by decide)
  have hsize : (writeText (octal size 12)).length = 12 := byteLength_octal h.size_lt (by decide)
  have hname : (writeText name).length ≤ 100 := h.name_length
  have hstart : (writeText start).length ≤ 155 := h.start_length
  intro f hf
  simp only [headerFields, List.mem_cons, List.not_mem_nil, or_false] at hf
  rcases hf with rfl | rfl | rfl | rfl | rfl | rfl | rfl | rfl | rfl | rfl | rfl | rfl | rfl | rfl | rfl | rfl | rfl
  · exact hname
  · exact hmode.le
  · decide +kernel
  · decide +kernel
  · exact hsize.le
  · decide +kernel
  · exact hsum.le
  · decide +kernel
  · exact Nat.zero_le _
  · decide +kernel
  · decide +kernel
  · decide +kernel
  · decide +kernel
  · exact Nat.zero_le _
  · exact Nat.zero_le _
  · exact hstart
  · exact Nat.zero_le _

theorem sum_le (bytes : Bytes) : sum bytes ≤ 255 * bytes.length := by
  induction bytes with
  | nil => exact Nat.zero_le _
  | cons b bytes ih =>
      have hb := b.toNat_lt
      rw [sum] at ih ⊢
      rw [List.map_cons, List.sum_cons, List.length_cons]
      omega

theorem byteLength_sumText {bytes : Bytes} (h : bytes.length = BLOCK) : byteLength (sumText (sum bytes)) = 8 := by
  have hle := sum_le bytes
  have hlt : sum bytes < 8 ^ 6 := by
    rw [h] at hle
    exact hle.trans_lt (by decide)
  have hascii : ∀ c ∈ sumText (sum bytes), c.toNat < 128 := by
    intro c hc
    rcases List.mem_append.mp hc with hc | hc
    · exact (leftpad_digits hc).2.1
    · have hend : ∀ c ∈ ['\x00', ' '], c.toNat < 128 := forall_of_all (by decide +kernel)
      exact hend c hc
  rw [byteLength_ascii hascii, sumText, List.length_append, length_leftpad hlt (by decide)]
  rfl

/-- The block before its sum is written. -/
theorem first_writes (h : Small name start size mode) : writes (zeros BLOCK) [
      write name 0 100, write (octal mode 8) 100 8, write (octal 0 8) 108 8, write (octal 0 8) 116 8, write (octal size 12) 124 12,
      write (octal FIXED_MTIME 12) 136 12, (148, blanks), write ['0'] 156 1, write "ustar\x00".toList 257 6,
      write "00".toList 263 2, write "root".toList 265 32, write "root".toList 297 32, write start 345 155] =
    layout (headerFields name start size mode blanks) := by
  have hmode : byteLength (octal mode 8) ≤ 8 := (byteLength_octal h.mode_lt (by decide)).le
  have hsize : byteLength (octal size 12) ≤ 12 := (byteLength_octal h.size_lt (by decide)).le
  have hzero : byteLength (octal 0 8) ≤ 8 := by decide +kernel
  have htime : byteLength (octal FIXED_MTIME 12) ≤ 12 := by decide +kernel
  have hroot : byteLength "root".toList ≤ 32 := by decide +kernel
  have hmagic : byteLength "ustar\x00".toList ≤ 6 := by decide +kernel
  have hversion : byteLength "00".toList ≤ 2 := by decide +kernel
  have htype : byteLength ['0'] ≤ 1 := by decide +kernel
  -- the writes leave out the fields that stay empty
  have hwrites := writes_layout (headerFields_fit h blanks rfl) []
  have hwidth : widthOf (headerFields name start size mode blanks) = BLOCK := by simp [widthOf, headerFields, BLOCK]
  rw [hwidth, List.nil_append, List.nil_append] at hwrites
  rw [← hwrites, headerFields, write_all h.name_length, write_all hmode, write_all hsize, write_all hzero, write_all hzero, write_all htime,
    write_all hroot, write_all hroot, write_all hmagic, write_all hversion, write_all htype, write_all h.start_length]
  generalize zeros BLOCK = block
  simp only [atPlaces, writes, List.foldl_cons, List.foldl_nil, put_nil, List.length_nil, Nat.reduceAdd, Nat.zero_add]

/-- The fields before the sum, and those behind it. -/
def beforeSum (name start : List Char) (size mode : ℕ) : Bytes := layout ((headerFields name start size mode blanks).take 6)

def afterSum (name start : List Char) (size mode : ℕ) : Bytes := layout ((headerFields name start size mode blanks).drop 7)

theorem length_beforeSum (h : Small name start size mode) : (beforeSum name start size mode).length = 148 := by
  rw [beforeSum, length_layout fun f hf => headerFields_fit h blanks rfl f (List.mem_of_mem_take hf)]
  simp [widthOf, headerFields]

/-- A header is what stands before its sum, the sum, and what stands behind. -/
theorem header_parts {chk : Bytes} (hsum : chk.length = 8) : layout (headerFields name start size mode chk) =
    beforeSum name start size mode ++ (chk ++ afterSum name start size mode) := by
  have hfull : padded (8, chk) = chk := by
    rw [padded, hsum]
    exact List.append_nil _
  rw [← hfull]
  simp only [headerFields, beforeSum, afterSum, layout, List.take_succ_cons, List.take_zero, List.drop_succ_cons, List.drop_zero, List.map_cons,
    List.map_nil, List.flatten_cons, List.flatten_nil, List.append_assoc, List.append_nil, hfull]

theorem length_header (h : Small name start size mode) {chk : Bytes} (hsum : chk.length = 8) :
    (layout (headerFields name start size mode chk)).length = BLOCK := by
  rw [length_layout (headerFields_fit h _ hsum)]
  simp [widthOf, headerFields, BLOCK]

/-- The sum of a header's bytes, as it stands in the header. -/
def sumOf (name start : List Char) (size mode : ℕ) : Bytes := writeText (sumText (sum (layout (headerFields name start size mode blanks))))

theorem length_sumOf (h : Small name start size mode) : (sumOf name start size mode).length = 8 :=
  byteLength_sumText (length_header h rfl)

/-- **A header is its fields in order.** -/
theorem header_layout {path : List Char} (hsplit : splitName path = .ok (name, start)) (h : Small name start size mode) :
    header path size mode = .ok (layout (headerFields name start size mode (sumOf name start size mode))) := by
  have hsum := length_sumOf h
  have htext : write ((Nat.toDigits 8 (sum (layout (headerFields name start size mode blanks)))).leftpad 6 '0' ++ ['\x00', ' ']) 148 8 =
      (148, sumOf name start size mode) := write_all hsum.le 148
  have hover : put (layout (headerFields name start size mode blanks)) 148 (sumOf name start size mode) =
      layout (headerFields name start size mode (sumOf name start size mode)) := by
    have hput : put (beforeSum name start size mode ++ (blanks ++ afterSum name start size mode)) (beforeSum name start size mode).length
        (sumOf name start size mode) = beforeSum name start size mode ++ (sumOf name start size mode ++ afterSum name start size mode) :=
      put_over (show blanks.length = _ from hsum.symm) _ _
    rw [length_beforeSum h] at hput
    rw [header_parts rfl, header_parts hsum, hput]
  rw [header, hsplit]
  simp only [first_writes h]
  rw [htext]
  exact congrArg Except.ok hover

/-! ### Reading a header -/

/-- No null character, no null byte. -/
theorem writeText_zero {text : List Char} (h : '\x00' ∉ text) : (0 : UInt8) ∉ writeText text := fun hmem =>
  h (mem_writeText_ascii (by decide) hmem)

theorem readName_padded {text : List Char} (h : '\x00' ∉ text) (n : ℕ) : readName (writeText text ++ zeros n) = writeText text := by
  have hall : ∀ b ∈ writeText text, decide (b ≠ 0) = true := fun b hb => decide_eq_true fun heq => writeText_zero h (heq ▸ hb)
  rw [readName, List.takeWhile_append_of_pos hall]
  cases n with
  | zero => exact List.append_nil _
  | succ n => rw [zeros, List.replicate_succ, List.takeWhile_cons_of_neg (by decide), List.append_nil]

theorem sum_append (xs ys : Bytes) : sum (xs ++ ys) = sum xs + sum ys := by
  rw [sum, sum, sum, List.map_append, List.sum_append]

/-- **The sum in a header is right.** -/
theorem checksum_header (h : Small name start size mode) {chk : Bytes} (hsum : chk.length = 8) :
    checksum (layout (headerFields name start size mode chk)) = sum (layout (headerFields name start size mode blanks)) := by
  have hbefore := length_beforeSum h
  have hdrop : (beforeSum name start size mode ++ (chk ++ afterSum name start size mode)).drop 156 = afterSum name start size mode := by
    rw [← List.append_assoc]
    exact List.drop_left' (by rw [List.length_append, hbefore, hsum])
  rw [checksum, header_parts hsum, header_parts rfl, hdrop, List.take_left' hbefore, sum_append, sum_append, Nat.add_assoc]
  rfl

/-- **What is read of a header.** -/
theorem readHeader_layout (h : Small name start size mode) (hname : '\x00' ∉ name) (hstart : '\x00' ∉ start) :
    readHeader (layout (headerFields name start size mode (sumOf name start size mode))) =
      some (if writeText start = [] then writeText name else writeText start ++ 47 :: writeText name, mode, size) := by
  have hfit := headerFields_fit h _ (length_sumOf h)
  have hmagic : fieldAt (layout (headerFields name start size mode (sumOf name start size mode))) 257 6 = writeText "ustar\x00".toList :=
    field_index hfit (i := 9) (f := (6, writeText "ustar\x00".toList)) rfl (by simp [widthOf, headerFields])
  have hversion : fieldAt (layout (headerFields name start size mode (sumOf name start size mode))) 263 2 = writeText "00".toList :=
    field_index hfit (i := 10) (f := (2, writeText "00".toList)) rfl (by simp [widthOf, headerFields])
  have htype : fieldAt (layout (headerFields name start size mode (sumOf name start size mode))) 156 1 = [48] :=
    field_index hfit (i := 7) (f := (1, writeText ['0'])) rfl (by simp [widthOf, headerFields])
  have hchk : fieldAt (layout (headerFields name start size mode (sumOf name start size mode))) 148 8 = padded (8, sumOf name start size mode) :=
    field_index hfit (i := 6) rfl (by simp [widthOf, headerFields])
  have hmode : fieldAt (layout (headerFields name start size mode (sumOf name start size mode))) 100 8 = padded (8, writeText (octal mode 8)) :=
    field_index hfit (i := 1) rfl (by simp [widthOf, headerFields])
  have hsize : fieldAt (layout (headerFields name start size mode (sumOf name start size mode))) 124 12 = padded (12, writeText (octal size 12)) :=
    field_index hfit (i := 4) rfl (by simp [widthOf, headerFields])
  have hfirst : fieldAt (layout (headerFields name start size mode (sumOf name start size mode))) 0 100 = padded (100, writeText name) :=
    field_index hfit (i := 0) rfl (by simp [widthOf, headerFields])
  have hlast : fieldAt (layout (headerFields name start size mode (sumOf name start size mode))) 345 155 = padded (155, writeText start) :=
    field_index hfit (i := 15) rfl (by simp [widthOf, headerFields])
  have hsum : readOctal (padded (8, sumOf name start size mode)) = some (sum (layout (headerFields name start size mode blanks))) := by
    rw [padded, sumOf, sumText]
    generalize sum (layout (headerFields name start size mode blanks)) = n
    have hread : readOctal (writeText ((Nat.toDigits 8 n).leftpad 6 '0' ++ ['\x00']) ++
        (writeText [' '] ++ zeros (8 - (writeText ((Nat.toDigits 8 n).leftpad 6 '0' ++ ['\x00', ' '])).length))) = some n :=
      readOctal_leftpad '\x00' (by decide) (by decide) _
    rw [← List.append_assoc, ← writeText_append, List.append_assoc] at hread
    exact hread
  have hchecksum := checksum_header h (length_sumOf h)
  generalize layout (headerFields name start size mode (sumOf name start size mode)) = block at *
  rw [readHeader, if_pos ⟨hmagic, hversion, by rw [hchk, hsum, hchecksum], htype⟩, hmode, hsize, hfirst, hlast]
  have hmodeRead : readOctal (padded (8, writeText (octal mode 8))) = some mode := readOctal_octal _
  have hsizeRead : readOctal (padded (12, writeText (octal size 12))) = some size := readOctal_octal _
  have hnameRead : readName (padded (100, writeText name)) = writeText name := readName_padded hname _
  have hstartRead : readName (padded (155, writeText start)) = writeText start := readName_padded hstart _
  simp only [hmodeRead, hsizeRead, hnameRead, hstartRead]

/-! ### Names -/

theorem mem_cuts {path before behind : List Char} (h : (before, behind) ∈ cuts path) : before ≠ [] ∧ path = before ++ '/' :: behind := by
  induction path generalizing before with
  | nil => cases h
  | cons c rest ih =>
      rw [cuts] at h
      rcases List.mem_append.mp h with h | h
      · obtain ⟨⟨before', behind'⟩, hcut, heq⟩ := List.mem_map.mp h
        obtain ⟨rfl, rfl⟩ := Prod.mk.inj heq
        exact ⟨List.cons_ne_nil _ _, congrArg (c :: ·) (ih hcut).2⟩
      · split at h
        · rename_i hslash
          obtain ⟨behind', rfl⟩ := List.head?_eq_some_iff.mp hslash
          obtain ⟨rfl, rfl⟩ := Prod.mk.inj (List.mem_singleton.mp h)
          exact ⟨List.cons_ne_nil _ _, rfl⟩
        · cases h

theorem cut_mem {before : List Char} (h : before ≠ []) (behind : List Char) : (before, behind) ∈ cuts (before ++ '/' :: behind) := by
  induction before with
  | nil => exact absurd rfl h
  | cons c before ih =>
      rw [List.cons_append, cuts]
      cases before with
      | nil => exact List.mem_append_right _ (List.mem_singleton.mpr rfl)
      | cons d before => exact List.mem_append_left _ (List.mem_map.mpr ⟨_, ih (List.cons_ne_nil _ _), rfl⟩)

/-- A name that a header has room for. -/
def Fits (path : List Char) : Prop := byteLength path ≤ 100 ∨
  ∃ before behind, before ≠ [] ∧ path = before ++ '/' :: behind ∧ byteLength before ≤ 155 ∧ byteLength behind ≤ 100

/-- The parts of a name make it up again. -/
structure Parts (path name start : List Char) : Prop where
  name_length : byteLength name ≤ 100
  start_length : byteLength start ≤ 155
  whole : path = if start = [] then name else start ++ '/' :: name

theorem splitName_cases (path : List Char) : (∃ name start, splitName path = .ok (name, start) ∧ Parts path name start ∧ Fits path) ∨
    splitName path = .error (.tooLong path) ∧ ¬ Fits path := by
  unfold splitName
  by_cases hshort : byteLength path ≤ 100
  · exact .inl ⟨path, [], if_pos hshort, ⟨hshort, Nat.zero_le _, (if_pos rfl).symm⟩, .inl hshort⟩
  rw [if_neg hshort]
  cases hfind : (cuts path).find? fun cut => byteLength cut.1 ≤ 155 && byteLength cut.2 ≤ 100 with
  | none =>
      refine .inr ⟨rfl, ?_⟩
      rintro (h | ⟨before, behind, hne, rfl, hbefore, hbehind⟩)
      · exact hshort h
      · exact absurd (List.find?_eq_none.mp hfind _ (cut_mem hne behind)) (by simp [hbefore, hbehind])
  | some cut =>
      obtain ⟨before, behind⟩ := cut
      obtain ⟨hne, hpath⟩ := mem_cuts (List.mem_of_find?_eq_some hfind)
      have hroom := List.find?_some hfind
      simp only [Bool.and_eq_true, decide_eq_true_eq] at hroom
      exact .inl ⟨behind, before, rfl, ⟨hroom.2, hroom.1, by rw [if_neg hne, hpath]⟩, .inr ⟨before, behind, hne, hpath, hroom⟩⟩

theorem Parts.small {path name start : List Char} (h : Parts path name start) {size mode : ℕ} (hsize : size < 8 ^ 11) (hmode : mode < 8 ^ 7) :
    Small name start size mode := ⟨h.name_length, h.start_length, hsize, hmode⟩

theorem Parts.no_null {path name start : List Char} (h : Parts path name start) (hpath : '\x00' ∉ path) : '\x00' ∉ name ∧ '\x00' ∉ start := by
  have hwhole := h.whole
  split at hwhole
  · rename_i hstart
    subst hstart
    exact ⟨hwhole ▸ hpath, List.not_mem_nil⟩
  · rw [hwhole, List.mem_append, List.mem_cons] at hpath
    exact ⟨fun hmem => hpath (.inr (.inr hmem)), fun hmem => hpath (.inl hmem)⟩

theorem writeText_nil {text : List Char} : writeText text = [] ↔ text = [] := by
  constructor
  · intro h
    have hread := readText_writeText text []
    rwa [h, List.nil_append, readText, List.append_nil, eq_comm] at hread
  · rintro rfl
    rfl

/-- The bytes of a path, put together of the two fields. -/
theorem Parts.bytes {path name start : List Char} (h : Parts path name start) :
    (if writeText start = [] then writeText name else writeText start ++ 47 :: writeText name) = writeText path := by
  have hwhole := h.whole
  by_cases hstart : start = []
  · rw [if_pos (writeText_nil.mpr hstart), hwhole, if_pos hstart]
  · rw [if_neg fun hnil => hstart (writeText_nil.mp hnil), hwhole, if_neg hstart, writeText_append, writeText_cons]
    rfl

/-! ### Archives -/

theorem inBlocks_eq (size : ℕ) : inBlocks size = size + (BLOCK - size % BLOCK) % BLOCK := by
  simp only [inBlocks, BLOCK]
  omega

/-- What a file is read back as. -/
def entryOf (path : List Char) (file : File) : Entry := ⟨path, file.executable, file.content⟩

theorem readText_written (text : List Char) : readText (writeText text) = text := by
  have hread := readText_writeText text []
  rwa [List.append_nil, readText, List.append_nil] at hread

/-- A header is no block of zeros. -/
theorem isZero_header {block path : Bytes} {mode size : ℕ} (h : readHeader block = some (path, mode, size)) : isZero block = false := by
  unfold readHeader at h
  split at h
  · rename_i hfields
    by_contra hzero
    rw [Bool.not_eq_false, isZero, Bool.and_eq_true] at hzero
    have hmem : (117 : UInt8) ∈ fieldAt block 257 6 := by
      rw [hfields.1]
      decide +kernel
    have hblock := (List.drop_sublist _ _).subset ((List.take_sublist _ _).subset hmem)
    exact absurd (List.all_eq_true.mp hzero.2 _ hblock) (by decide)
  · cases h

/-- The last byte of a path that ends in another character than a slash. -/
theorem last_byte {path : List Char} {last : Char} (hlast : path.getLast? = some last) (hne : last ≠ '/') :
    (writeText path).getLast? ≠ some 47 := by
  obtain ⟨init, rfl⟩ := List.getLast?_eq_some_iff.mp hlast
  intro h
  have hbytes : String.utf8EncodeChar last ≠ [] := by
    obtain ⟨a, tail, hcons, -⟩ := readChar_write last []
    rw [hcons]
    exact List.cons_ne_nil _ _
  have hwritten : writeText [last] = String.utf8EncodeChar last := List.append_nil _
  rw [writeText_append, hwritten, List.getLast?_append_of_ne_nil _ hbytes] at h
  have hcode := byte_ascii (List.mem_of_getLast? h) (by decide)
  exact hne (Char.ext (UInt32.toNat_inj.mp hcode))

/-- What makes a file's part of the archive. -/
def Accepted (disk : Disk) (under file : List Char) : Prop :=
  isUnsafe file = false ∧ (disk.read file).isSome = true ∧ Fits (under ++ '/' :: file)

/-- The file that an entry holds. -/
def Holds (disk : Disk) (under file : List Char) (entry : Entry) : Prop :=
  ∃ content, disk.read file = some content ∧ entry = entryOf (under ++ '/' :: file) content

variable {disk : Disk} {under : List Char}

/-- A header of a file. -/
theorem header_cases (path : List Char) {size mode : ℕ} (hsize : size < 8 ^ 11) (hmode : mode < 8 ^ 7) :
    (∃ name start, Parts path name start ∧ Fits path ∧
      header path size mode = .ok (layout (headerFields name start size mode (sumOf name start size mode)))) ∨
    header path size mode = .error (.tooLong path) ∧ ¬ Fits path := by
  rcases splitName_cases path with ⟨name, start, hsplit, hparts, hfits⟩ | ⟨hsplit, hlong⟩
  · exact .inl ⟨name, start, hparts, hfits, header_layout hsplit (hparts.small hsize hmode)⟩
  · refine .inr ⟨?_, hlong⟩
    rw [header, hsplit]

theorem mode_lt (executable : Bool) : (if executable then 0o755 else 0o644) < 8 ^ 7 := by
  cases executable <;> decide

/-- A file's part, or why there is none. -/
theorem fileParts_cases (disk : Disk) (under file : List Char) :
    (∃ part content name start, fileParts disk under file = .ok part ∧ Accepted disk under file ∧ disk.read file = some content ∧
      Parts (under ++ '/' :: file) name start ∧
      part = layout (headerFields name start content.content.length (if content.executable then 0o755 else 0o644)
          (sumOf name start content.content.length (if content.executable then 0o755 else 0o644))) ++
        (content.content ++ zeros ((BLOCK - content.content.length % BLOCK) % BLOCK))) ∨
    (∃ e, fileParts disk under file = .error e) ∧ ¬ Accepted disk under file := by
  unfold fileParts
  cases hbad : isUnsafe file with
  | true => exact .inr ⟨⟨_, if_pos rfl⟩, fun h => absurd (hbad.symm.trans h.1) (by decide)⟩
  | false =>
      rw [if_neg Bool.false_ne_true]
      cases hread : disk.read file with
      | none => exact .inr ⟨⟨_, rfl⟩, fun h => absurd (hread ▸ h.2.1) (by decide)⟩
      | some content =>
          dsimp only
          rcases header_cases (under ++ '/' :: file) content.content_length (mode_lt content.executable) with
            ⟨name, start, hparts, hfits, hheader⟩ | ⟨hheader, hlong⟩
          · rw [hheader]
            exact .inl ⟨_, content, name, start, rfl, ⟨hbad, by rw [hread]; rfl, hfits⟩, rfl, hparts, rfl⟩
          · rw [hheader]
            exact .inr ⟨⟨_, rfl⟩, fun h => hlong h.2.2⟩

/-- **A file's part is read back as the file.** -/
theorem readFront_part {part : Bytes} {path name start : List Char} {content : File} (hparts : Parts path name start)
    (hnull : '\x00' ∉ path) {last : Char} (hlast : path.getLast? = some last) (hend : last ≠ '/')
    (hpart : part = layout (headerFields name start content.content.length (if content.executable then 0o755 else 0o644)
        (sumOf name start content.content.length (if content.executable then 0o755 else 0o644))) ++
      (content.content ++ zeros ((BLOCK - content.content.length % BLOCK) % BLOCK))) (rest : Bytes) :
    readFront (part ++ rest) = .entry (entryOf path content) rest := by
  have hsmall := hparts.small content.content_length (mode_lt content.executable)
  have hheader := readHeader_layout hsmall (hparts.no_null hnull).1 (hparts.no_null hnull).2
  have hblock := length_header hsmall (length_sumOf hsmall)
  have hexecutable : decide ((if content.executable then 0o755 else 0o644) &&& 0o111 ≠ 0) = content.executable := by
    cases content.executable <;> rfl
  rw [hparts.bytes] at hheader
  generalize layout (headerFields name start content.content.length (if content.executable then 0o755 else 0o644)
    (sumOf name start content.content.length (if content.executable then 0o755 else 0o644))) = block at *
  subst hpart
  have hlength : ((content.content ++ zeros ((BLOCK - content.content.length % BLOCK) % BLOCK)).length) = inBlocks content.content.length := by
    rw [List.length_append, length_zeros, inBlocks_eq]
  have hdrop : (block ++ (content.content ++ zeros ((BLOCK - content.content.length % BLOCK) % BLOCK)) ++ rest).drop BLOCK =
      content.content ++ zeros ((BLOCK - content.content.length % BLOCK) % BLOCK) ++ rest := by
    rw [List.append_assoc]
    exact List.drop_left' hblock
  have htake : (block ++ (content.content ++ zeros ((BLOCK - content.content.length % BLOCK) % BLOCK)) ++ rest).take BLOCK = block := by
    rw [List.append_assoc]
    exact List.take_left' hblock
  have hfits : ¬ ((content.content ++ zeros ((BLOCK - content.content.length % BLOCK) % BLOCK) ++ rest).length < inBlocks content.content.length ∨
      (writeText path).getLast? = some 47) := by
    rintro (h | h)
    · rw [List.length_append, hlength] at h
      omega
    · exact last_byte hlast hend h
  have hrest : (content.content ++ zeros ((BLOCK - content.content.length % BLOCK) % BLOCK) ++ rest).drop (inBlocks content.content.length) = rest :=
    List.drop_left' hlength
  have hcontent : (content.content ++ zeros ((BLOCK - content.content.length % BLOCK) % BLOCK) ++ rest).take content.content.length =
      content.content := by
    rw [List.append_assoc]
    exact List.take_left
  unfold readFront
  dsimp only
  rw [htake, hdrop, isZero_header hheader, if_neg Bool.false_ne_true, hheader]
  dsimp only
  rw [if_neg hfits, hrest, hcontent, readText_written, hexecutable]
  rfl

theorem readEntries_entry {archive rest : Bytes} {entry : Entry} (h : readFront archive = .entry entry rest) :
    readEntries archive = (readEntries rest).map (entry :: ·) := by
  rw [readEntries]
  split
  · rename_i heq
    cases h.symm.trans heq
  · rename_i heq
    cases h.symm.trans heq
  · rename_i heq
    obtain ⟨rfl, rfl⟩ := Front.entry.inj (h.symm.trans heq)
    rfl

/-- Two blocks of zeros end an archive. -/
theorem readEntries_end : readEntries (zeros (BLOCK * 2)) = some [] := by
  have hblock : isZero (zeros BLOCK) = true := by
    rw [isZero, length_zeros, Bool.and_eq_true]
    exact ⟨decide_eq_true rfl, List.all_eq_true.mpr fun b hb => decide_eq_true (List.eq_of_mem_replicate hb)⟩
  have htwo : zeros (BLOCK * 2) = zeros BLOCK ++ zeros BLOCK := (congrArg zeros (Nat.mul_two BLOCK)).trans (zeros_add _ _)
  have htake : (zeros BLOCK ++ zeros BLOCK).take BLOCK = zeros BLOCK := List.take_left' (length_zeros _)
  have hdrop : (zeros BLOCK ++ zeros BLOCK).drop BLOCK = zeros BLOCK := List.drop_left' (length_zeros _)
  have hrest : (zeros BLOCK).take BLOCK = zeros BLOCK := List.take_of_length_le (length_zeros _).le
  have hfront : readFront (zeros (BLOCK * 2)) = .zeros := by
    unfold readFront
    dsimp only
    rw [htwo, htake, hblock, if_pos rfl]
  rw [readEntries]
  split
  · rename_i heq
    cases hfront.symm.trans heq
  · rw [htwo, hdrop, hrest, hblock, if_pos rfl]
  · rename_i heq
    cases hfront.symm.trans heq

theorem length_part {name start : List Char} {content : File} (h : Small name start content.content.length
    (if content.executable then 0o755 else 0o644)) : BLOCK ∣ (layout (headerFields name start content.content.length
      (if content.executable then 0o755 else 0o644) (sumOf name start content.content.length (if content.executable then 0o755 else 0o644))) ++
      (content.content ++ zeros ((BLOCK - content.content.length % BLOCK) % BLOCK))).length := by
  rw [List.length_append, length_header h (length_sumOf h), List.length_append, length_zeros, ← inBlocks_eq]
  exact Nat.dvd_add (Nat.dvd_refl _) (Nat.dvd_mul_left _ _)

/-- **What is read of an archive are its files**, and there is one where all of them are accepted. -/
theorem readEntries_written (disk : Disk) (hunder : '\x00' ∉ under) (files : List (List Char)) :
    (∃ parts entries, allParts disk under files = .ok parts ∧ (∀ file ∈ files, Accepted disk under file) ∧
      List.Forall₂ (Holds disk under) files entries ∧ readEntries (parts ++ zeros (BLOCK * 2)) = some entries ∧ BLOCK ∣ parts.length) ∨
    (∃ e, allParts disk under files = .error e) ∧ ¬ ∀ file ∈ files, Accepted disk under file := by
  induction files with
  | nil => exact .inl ⟨[], [], rfl, nofun, .nil, readEntries_end, Nat.dvd_zero _⟩
  | cons file files ih =>
      rw [allParts]
      rcases fileParts_cases disk under file with ⟨part, content, name, start, hpart, haccepted, hread, hparts, heq⟩ | ⟨⟨e, he⟩, hrefused⟩
      · rw [hpart]
        dsimp only
        rcases ih with ⟨parts, entries, hall, hfiles, hholds, hentries, hlength⟩ | ⟨⟨e, he⟩, hrefused⟩
        · rw [hall]
          refine .inl ⟨part ++ parts, entryOf (under ++ '/' :: file) content :: entries, rfl, ?_, ?_, ?_, ?_⟩
          · intro f hf
            rcases List.mem_cons.mp hf with rfl | hf
            · exact haccepted
            · exact hfiles f hf
          · exact .cons ⟨content, hread, rfl⟩ hholds
          · obtain ⟨last, hlast, hend⟩ := disk.ends _ _ hread
            have hnull : '\x00' ∉ under ++ '/' :: file := by
              rw [List.mem_append, List.mem_cons]
              rintro (h | h | h)
              · exact hunder h
              · exact absurd h (by decide)
              · exact disk.no_null _ _ hread h
            have hlast' : (under ++ '/' :: file).getLast? = some last := by
              have hne : file ≠ [] := by
                rintro rfl
                cases hlast
              rw [List.getLast?_append_of_ne_nil _ (List.cons_ne_nil _ _), List.getLast?_cons_of_ne_nil hne, hlast]
            rw [List.append_assoc, readEntries_entry (readFront_part hparts hnull hlast' hend heq _), hentries]
            rfl
          · rw [List.length_append, heq]
            exact Nat.dvd_add (length_part (hparts.small content.content_length (mode_lt content.executable))) hlength
        · rw [he]
          exact .inr ⟨⟨e, rfl⟩, fun h => hrefused fun f hf => h f (List.mem_cons_of_mem _ hf)⟩
      · rw [he]
        exact .inr ⟨⟨e, rfl⟩, fun h => hrefused (h file List.mem_cons_self)⟩

/-- **The archive holds exactly the files**, in whole blocks; what is not safe, cannot be read or is too long is refused. -/
theorem bundle_exact (g : Gzip) (disk : Disk) (files : List (List Char)) (under : List Char) (hunder : '\x00' ∉ under) :
    (∀ data, createTarGz g disk files under = .ok data → ∃ entries, List.Forall₂ (Holds disk under) files entries ∧
      readEntries (g.gunzip data) = some entries ∧ BLOCK ∣ (g.gunzip data).length) ∧
    ((∃ data, createTarGz g disk files under = .ok data) ↔ ∀ file ∈ files, Accepted disk under file) := by
  unfold createTarGz createTar
  rcases readEntries_written disk hunder files with ⟨parts, entries, hall, hfiles, hholds, hentries, hlength⟩ | ⟨⟨e, he⟩, hrefused⟩
  · rw [hall]
    refine ⟨fun data h => ?_, fun _ => hfiles, fun _ => ⟨_, rfl⟩⟩
    obtain rfl := Except.ok.inj h
    refine ⟨entries, hholds, ?_, ?_⟩
    · rw [g.inverts, hentries]
    · rw [g.inverts, List.length_append, length_zeros]
      exact Nat.dvd_add hlength (Nat.dvd_mul_right _ _)
  · rw [he]
    exact ⟨fun _ h => (by cases h), fun ⟨_, h⟩ => (by cases h), fun h => absurd h hrefused⟩

/-- One file, and a compression that does nothing. -/
def oneFile : Disk where
  read path := if path = "a".toList then some ⟨[1], true, by decide⟩ else none
  no_null path file h := by
    split at h
    · rename_i hpath
      rw [hpath]
      decide
    · cases h
  ends path file h := by
    split at h
    · rename_i hpath
      exact ⟨'a', by rw [hpath]; rfl, by decide⟩
    · cases h

def stored : Gzip := ⟨id, id, fun _ => rfl⟩

theorem oneFile_bundled : ∃ data, createTarGz stored oneFile ["a".toList] "pokyh-app".toList = .ok data ∧
    readEntries data = some [⟨"pokyh-app/a".toList, true, [1]⟩] := by
  obtain ⟨hholds, haccepts⟩ := bundle_exact stored oneFile ["a".toList] "pokyh-app".toList (by decide)
  have haccepted : ∀ file ∈ ["a".toList], Accepted oneFile "pokyh-app".toList file := by
    intro file hfile
    rw [List.mem_singleton.mp hfile]
    exact ⟨by decide +kernel, rfl, .inl (by decide +kernel)⟩
  obtain ⟨data, hdata⟩ := haccepts.mpr haccepted
  obtain ⟨entries, hentries, hread, -⟩ := hholds data hdata
  refine ⟨data, hdata, ?_⟩
  cases hentries with
  | cons hfirst hnone =>
      cases hnone
      obtain ⟨content, hcontent, rfl⟩ := hfirst
      obtain rfl := Option.some.inj hcontent
      exact hread

end Pokyh.Cluster.Bundles
