import Pokyh.Cluster.IpAddresses
import Pokyh.Lib.Utf8

/-!
# Cluster — ServerNames

The server name in the first bytes of a connection (`relayProtocol.ts` and its copy in `relay.mjs`, `readServerName`), read off the
first TLS record by lengths that the record itself names.

* `FirstHostName`, `FirstServerName`, `HoldsName`: how a record holds a name, as lists of fields with their lengths in front.
* `read_scan`: **nothing is read outside the data**: what is read by places is what is scanned field by field.
* `server_name_iff`: when the name that is answered is the one that the record holds.
-/

namespace Pokyh.Cluster.ServerNames
open Pokyh.Lib Pokyh.Cluster.IpAddresses

/-! ### Names -/

/-- `(?!-)[a-z0-9-]{1,63}(?<!-)` -/
def isLabel (label : List Char) : Bool :=
  label ≠ [] && label.length ≤ 63 && label.all (fun c => c.isLower || c.isDigit || c = '-') && label.head? ≠ some '-' &&
    label.getLast? ≠ some '-'

/-- At most 253 characters, in labels with dots between. -/
def isHostname (value : List Char) : Bool := value ≠ [] && value.length ≤ 253 && (value.splitOn '.').all isLabel

def isServerName (value : List Char) : Bool := isHostname value && isIP value = 0

/-! ### Reading by places -/

inductive ServerNameResult where
  | more
  | ok (name : Option (List Char))
  | invalid
  deriving DecidableEq, Repr

/-- `data[at]`; none outside the data. -/
def byteAt (data : Bytes) (place : ℕ) : Option ℕ := data[place]?.map UInt8.toNat

def uint16 (a b : UInt8) : ℕ := 256 * a.toNat + b.toNat

/-- `data.readUInt16BE(at)`; none outside the data. -/
def readUInt16BE (data : Bytes) (place : ℕ) : Option ℕ :=
  match data.drop place with
  | a :: b :: _ => some (uint16 a b)
  | _ => none

def subarray (data : Bytes) (start stop : ℕ) : Bytes := (data.take stop).drop start

/-- What is answered for the bytes of a name. -/
def answerFor (bytes : Bytes) : ServerNameResult :=
  let name := (bytes.map asciiChar).map Char.toLower
  if isServerName name then .ok (some name) else .invalid

/-- The place behind a field, if it lies inside; none where a length is read outside the data. -/
def skip (hello : Bytes) (lengthBytes place : ℕ) : Option (Option ℕ) :=
  if place + lengthBytes > hello.length then some none
  else
    match if lengthBytes = 1 then byteAt hello place else readUInt16BE hello place with
    | none => none
    | some length =>
      let place := place + (lengthBytes + length)
      some (if place ≤ hello.length then some place else none)

/-- The entries of a server_name extension that ends at `stop`. -/
def readEntries (hello : Bytes) (listEnd stop entry : ℕ) : Option ServerNameResult :=
  if entry + 3 ≤ listEnd ∧ listEnd ≤ stop then
    match byteAt hello entry, readUInt16BE hello (entry + 1) with
    | some nameType, some nameLength =>
      if entry + 3 + nameLength > listEnd then some .invalid
      else if nameType = 0 then some (answerFor (subarray hello (entry + 3) (entry + 3 + nameLength)))
      else readEntries hello listEnd stop (entry + (3 + nameLength))
    | _, _ => none
  else some (.ok none)
termination_by listEnd - entry

def readExtensions (hello : Bytes) (extensionsEnd place : ℕ) : Option ServerNameResult :=
  if place + 4 ≤ extensionsEnd then
    match readUInt16BE hello place, readUInt16BE hello (place + 2) with
    | some type, some length =>
      let start := place + 4
      if start + length > extensionsEnd then some .invalid
      else if type = 0 then
        if length < 2 then some .invalid
        else
          match readUInt16BE hello start with
          | some listLength => readEntries hello (start + 2 + listLength) (start + length) (start + 2)
          | none => none
      else readExtensions hello extensionsEnd (start + length)
    | _, _ => none
  else some (.ok none)
termination_by extensionsEnd - place

/-- What stands behind the fields of fixed order. -/
def readTail (hello : Bytes) (place : ℕ) : Option ServerNameResult :=
  if place = hello.length then some (.ok none)
  else if place + 2 > hello.length then some .invalid
  else
    match readUInt16BE hello place with
    | some length =>
      let extensionsEnd := place + 2 + length
      if extensionsEnd > hello.length then some .invalid else readExtensions hello extensionsEnd (place + 2)
    | none => none

def readHello (hello : Bytes) : Option ServerNameResult :=
  match skip hello 1 (2 + 32) with
  | none => none
  | some none => some .invalid
  | some (some place) =>
    match skip hello 2 place with
    | none => none
    | some none => some .invalid
    | some (some place) =>
      match skip hello 1 place with
      | none => none
      | some none => some .invalid
      | some (some place) => readTail hello place

def readRecord (record : Bytes) : Option ServerNameResult :=
  match byteAt record 0, byteAt record 1, byteAt record 2, byteAt record 3 with
  | some type, some a, some b, some c =>
    if type ≠ 0x01 then some .invalid
    else
      let helloLength := a <<< 16 ||| b <<< 8 ||| c
      if 4 + helloLength > record.length then some .invalid else readHello (subarray record 4 (4 + helloLength))
  | _, _, _, _ => none

/-- None where the code reads outside the data. -/
def readServerName (data : Bytes) : Option ServerNameResult :=
  if data.length < 5 then some .more
  else
    match byteAt data 0, byteAt data 1, readUInt16BE data 3 with
    | some type, some version, some recordLength =>
      if type ≠ 0x16 ∨ version ≠ 0x03 then some .invalid
      else if recordLength < 4 ∨ recordLength > 16384 then some .invalid
      else if data.length < 5 + recordLength then some .more
      else readRecord (subarray data 5 (5 + recordLength))
    | _, _, _ => none

/-! ### Scanning field by field -/

/-- What is found: among others, the bytes of a name. -/
inductive Scanned where
  | more
  | nothing
  | invalid
  | name (bytes : Bytes)

def Scanned.answer : Scanned → ServerNameResult
  | .more => .more
  | .nothing => .ok none
  | .invalid => .invalid
  | .name bytes => answerFor bytes

/-- The bytes behind a field with its length in one byte. -/
def afterShort : Bytes → Option Bytes
  | a :: rest => if rest.length < a.toNat then none else some (rest.drop a.toNat)
  | [] => none

/-- The bytes behind a field with its length in two bytes. -/
def afterLong : Bytes → Option Bytes
  | a :: b :: rest => if rest.length < uint16 a b then none else some (rest.drop (uint16 a b))
  | _ => none

def scanEntries : Bytes → Scanned
  | kind :: a :: b :: rest =>
    if rest.length < uint16 a b then .invalid
    else if kind = 0 then .name (rest.take (uint16 a b))
    else scanEntries (rest.drop (uint16 a b))
  | _ => .nothing
termination_by list => list.length
decreasing_by simp only [List.length_drop, List.length_cons]; omega

def scanContent : Bytes → Scanned
  | a :: b :: rest => if rest.length < uint16 a b then .nothing else scanEntries (rest.take (uint16 a b))
  | _ => .invalid

def scanExtensions : Bytes → Scanned
  | a :: b :: c :: d :: rest =>
    if rest.length < uint16 c d then .invalid
    else if a = 0 ∧ b = 0 then scanContent (rest.take (uint16 c d))
    else scanExtensions (rest.drop (uint16 c d))
  | _ => .nothing
termination_by list => list.length
decreasing_by simp only [List.length_drop, List.length_cons]; omega

def scanTail : Bytes → Scanned
  | [] => .nothing
  | [_] => .invalid
  | a :: b :: rest => if rest.length < uint16 a b then .invalid else scanExtensions (rest.take (uint16 a b))

def scanHello (hello : Bytes) : Scanned :=
  if hello.length < 34 then .invalid
  else
    match ((afterShort (hello.drop 34)).bind afterLong).bind afterShort with
    | none => .invalid
    | some rest => scanTail rest

def uint24 (a b c : UInt8) : ℕ := 65536 * a.toNat + 256 * b.toNat + c.toNat

def scanRecord : Bytes → Scanned
  | type :: a :: b :: c :: rest =>
    if type ≠ 0x01 ∨ rest.length < uint24 a b c then .invalid else scanHello (rest.take (uint24 a b c))
  | _ => .invalid

def scan : Bytes → Scanned
  | type :: version :: _ :: a :: b :: rest =>
    if type ≠ 0x16 ∨ version ≠ 0x03 ∨ uint16 a b < 4 ∨ uint16 a b > 16384 then .invalid
    else if rest.length < uint16 a b then .more
    else scanRecord (rest.take (uint16 a b))
  | _ => .more

/-! ### Places -/

theorem subarray_take {data : Bytes} {start n stop : ℕ} (h : start + n ≤ stop) : (subarray data start stop).take n = subarray data start (start + n) := by
  rw [subarray, subarray, List.take_drop, List.take_take, Nat.min_eq_left h]

theorem subarray_drop (data : Bytes) (start stop n : ℕ) : (subarray data start stop).drop n = subarray data (start + n) stop := by
  rw [subarray, subarray, List.drop_drop]

theorem length_subarray {data : Bytes} {start stop : ℕ} (h : stop ≤ data.length) : (subarray data start stop).length = stop - start := by
  rw [subarray, List.length_drop, List.length_take, Nat.min_eq_left h]

theorem subarray_all (data : Bytes) (start : ℕ) : subarray data start data.length = data.drop start := by
  rw [subarray, List.take_length]

/-- What a part of the data begins with stands in the data at its place. -/
theorem prefix_of_subarray {data : Bytes} (bytes : Bytes) {rest : Bytes} {start stop : ℕ} (h : subarray data start stop = bytes ++ rest) :
    ∃ more, data.drop start = bytes ++ more := by
  have hprefix : subarray data start stop <+: data.drop start := by
    rw [subarray, List.drop_take]
    exact List.take_prefix _ _
  obtain ⟨more, hmore⟩ := hprefix
  exact ⟨rest ++ more, by rw [← hmore, h, List.append_assoc]⟩

theorem byteAt_of_cons {data rest : Bytes} {a : UInt8} {start stop : ℕ} (h : subarray data start stop = a :: rest) :
    byteAt data start = some a.toNat ∧ rest = subarray data (start + 1) stop := by
  obtain ⟨more, hmore⟩ := prefix_of_subarray [a] h
  refine ⟨?_, ?_⟩
  · rw [byteAt, ← List.head?_drop, hmore]
    rfl
  · rw [← subarray_drop, h]
    rfl

theorem uint16_of_cons {data rest : Bytes} {a b : UInt8} {start stop : ℕ} (h : subarray data start stop = a :: b :: rest) :
    readUInt16BE data start = some (uint16 a b) ∧ rest = subarray data (start + 2) stop := by
  obtain ⟨more, hmore⟩ := prefix_of_subarray [a, b] h
  refine ⟨?_, ?_⟩
  · rw [readUInt16BE, hmore]
    rfl
  · rw [← subarray_drop, h]
    rfl

/-- The first bytes of a part that is long enough. -/
theorem cons_two (bytes : Bytes) (h : 2 ≤ bytes.length) : ∃ a b rest, bytes = a :: b :: rest := by
  match bytes with
  | [] | [_] => simp at h
  | a :: b :: rest => exact ⟨a, b, rest, rfl⟩

theorem cons_three (bytes : Bytes) (h : 3 ≤ bytes.length) : ∃ k a b rest, bytes = k :: a :: b :: rest := by
  match bytes with
  | [] => simp at h
  | k :: rest =>
      obtain ⟨a, b, rest, rfl⟩ := cons_two rest (Nat.le_of_succ_le_succ h)
      exact ⟨k, a, b, rest, rfl⟩

theorem cons_four (bytes : Bytes) (h : 4 ≤ bytes.length) : ∃ a b c d rest, bytes = a :: b :: c :: d :: rest := by
  match bytes with
  | [] => simp at h
  | a :: rest =>
      obtain ⟨b, c, d, rest, rfl⟩ := cons_three rest (Nat.le_of_succ_le_succ h)
      exact ⟨a, b, c, d, rest, rfl⟩

theorem scanEntries_short {list : Bytes} (h : list.length < 3) : scanEntries list = .nothing := by
  match list with
  | [] | [_] | [_, _] => rw [scanEntries]; simp
  | _ :: _ :: _ :: _ =>
      simp only [List.length_cons] at h
      omega

theorem scanExtensions_short {list : Bytes} (h : list.length < 4) : scanExtensions list = .nothing := by
  match list with
  | [] | [_] | [_, _] | [_, _, _] => rw [scanExtensions]; simp
  | _ :: _ :: _ :: _ :: _ =>
      simp only [List.length_cons] at h
      omega

/-- **Entries are read as they are scanned.** -/
theorem readEntries_scan {hello : Bytes} {listEnd stop : ℕ} (hstop : listEnd ≤ stop) (hend : listEnd ≤ hello.length) (entry : ℕ) :
    readEntries hello listEnd stop entry = some (scanEntries (subarray hello entry listEnd)).answer := by
  induction hleft : listEnd - entry using Nat.strongRecOn generalizing entry with
  | ind left ih =>
      have hlength : (subarray hello entry listEnd).length = listEnd - entry := length_subarray hend
      rw [readEntries]
      by_cases hmore : entry + 3 ≤ listEnd
      · obtain ⟨k, a, b, rest, hlist⟩ := cons_three (subarray hello entry listEnd) (by omega)
        obtain ⟨hkind, hbehind⟩ := byteAt_of_cons hlist
        obtain ⟨hsize, hrest⟩ := uint16_of_cons hbehind.symm
        have hrest' : rest = subarray hello (entry + 3) listEnd := hrest
        have hrestLength : rest.length = listEnd - (entry + 3) := by rw [hrest', length_subarray hend]
        rw [if_pos ⟨hmore, hstop⟩, hkind, hsize, hlist, scanEntries]
        dsimp only
        have hlonger : rest.length < uint16 a b ↔ entry + 3 + uint16 a b > listEnd := by omega
        by_cases hlong : entry + 3 + uint16 a b > listEnd
        · rw [if_pos hlong, if_pos (hlonger.mpr hlong)]
          rfl
        · rw [if_neg hlong, if_neg fun h => hlong (hlonger.mp h)]
          have hzero : k.toNat = 0 ↔ k = 0 := UInt8.toNat_inj (b := 0)
          simp only [hzero]
          split
          · rw [hrest', subarray_take (by omega)]
            rfl
          · rw [ih (listEnd - (entry + (3 + uint16 a b))) (by omega) _ rfl, hrest', subarray_drop, Nat.add_assoc]
      · rw [if_neg fun h => hmore h.1, scanEntries_short (by omega)]
        rfl

/-- What ends behind its extension holds no name. -/
theorem readEntries_long {hello : Bytes} {listEnd stop : ℕ} (h : stop < listEnd) (entry : ℕ) :
    readEntries hello listEnd stop entry = some (.ok none) := by
  rw [readEntries, if_neg fun hboth => Nat.not_le.mpr h hboth.2]

theorem uint16_zero {a b : UInt8} : uint16 a b = 0 ↔ a = 0 ∧ b = 0 := by
  have ha : a.toNat = 0 ↔ a = 0 := UInt8.toNat_inj (b := 0)
  have hb : b.toNat = 0 ↔ b = 0 := UInt8.toNat_inj (b := 0)
  rw [← ha, ← hb, uint16]
  omega

/-- **Extensions are read as they are scanned.** -/
theorem readExtensions_scan {hello : Bytes} {extensionsEnd : ℕ} (hend : extensionsEnd ≤ hello.length) (place : ℕ) :
    readExtensions hello extensionsEnd place = some (scanExtensions (subarray hello place extensionsEnd)).answer := by
  induction hleft : extensionsEnd - place using Nat.strongRecOn generalizing place with
  | ind left ih =>
      have hlength : (subarray hello place extensionsEnd).length = extensionsEnd - place := length_subarray hend
      rw [readExtensions]
      by_cases hmore : place + 4 ≤ extensionsEnd
      · obtain ⟨a, b, c, d, rest, hlist⟩ := cons_four (subarray hello place extensionsEnd) (by omega)
        obtain ⟨htype, hbehind⟩ := uint16_of_cons hlist
        obtain ⟨hsize, hrest⟩ := uint16_of_cons hbehind.symm
        have hrest' : rest = subarray hello (place + 4) extensionsEnd := hrest
        have hrestLength : rest.length = extensionsEnd - (place + 4) := by rw [hrest', length_subarray hend]
        rw [if_pos hmore, htype, hsize, hlist, scanExtensions]
        dsimp only
        have hlonger : rest.length < uint16 c d ↔ place + 4 + uint16 c d > extensionsEnd := by omega
        by_cases hlong : place + 4 + uint16 c d > extensionsEnd
        · rw [if_pos hlong, if_pos (hlonger.mpr hlong)]
          rfl
        rw [if_neg hlong, if_neg fun h => hlong (hlonger.mp h)]
        by_cases hname : a = 0 ∧ b = 0
        · rw [if_pos (uint16_zero.mpr hname), if_pos hname, hrest', subarray_take (by omega)]
          have hcontent : (subarray hello (place + 4) (place + 4 + uint16 c d)).length = place + 4 + uint16 c d - (place + 4) :=
            length_subarray (by omega)
          by_cases hshort : uint16 c d < 2
          · rw [if_pos hshort]
            match subarray hello (place + 4) (place + 4 + uint16 c d), hcontent with
            | [], _ => rfl
            | [_], _ => rfl
            | _ :: _ :: _, hcontent =>
                simp only [List.length_cons] at hcontent
                omega
          · rw [if_neg hshort]
            obtain ⟨e, f, entries, hheld⟩ := cons_two (subarray hello (place + 4) (place + 4 + uint16 c d)) (by omega)
            obtain ⟨hsize, hentries⟩ := uint16_of_cons hheld
            have hentriesLength : entries.length = place + 4 + uint16 c d - (place + 4 + 2) := by
              rw [hentries, length_subarray (by omega)]
            rw [hsize, hheld, scanContent]
            dsimp only
            by_cases hover : entries.length < uint16 e f
            · rw [if_pos hover, readEntries_long (by omega)]
              rfl
            · rw [if_neg hover, readEntries_scan (by omega) (by omega), hentries, subarray_take (by omega)]
        · rw [if_neg fun h => hname (uint16_zero.mp h), if_neg hname, ih (extensionsEnd - (place + 4 + uint16 c d)) (by omega) _ rfl, hrest',
            subarray_drop]
      · rw [if_neg hmore, scanExtensions_short (by omega)]
        rfl

theorem readTail_scan {hello : Bytes} {place : ℕ} (h : place ≤ hello.length) :
    readTail hello place = some (scanTail (hello.drop place)).answer := by
  have hlength := List.length_drop (l := hello) (i := place)
  rw [readTail]
  by_cases hnone : place = hello.length
  · rw [if_pos hnone, hnone, List.drop_length]
    rfl
  rw [if_neg hnone]
  by_cases hshort : place + 2 > hello.length
  · rw [if_pos hshort]
    match hello.drop place, hlength with
    | [], hlength =>
        simp only [List.length_nil] at hlength
        omega
    | [_], _ => rfl
    | _ :: _ :: _, hlength =>
        simp only [List.length_cons] at hlength
        omega
  rw [if_neg hshort]
  obtain ⟨a, b, rest, hcons⟩ := cons_two (hello.drop place) (by omega)
  have hpart : subarray hello place hello.length = a :: b :: rest := by rw [subarray_all, hcons]
  obtain ⟨hsize, hrest⟩ := uint16_of_cons hpart
  have hrestLength : rest.length = hello.length - (place + 2) := by rw [hrest, length_subarray le_rfl]
  have hlonger : rest.length < uint16 a b ↔ place + 2 + uint16 a b > hello.length := by omega
  rw [hsize, hcons, scanTail]
  dsimp only
  by_cases hlong : place + 2 + uint16 a b > hello.length
  · rw [if_pos hlong, if_pos (hlonger.mpr hlong)]
    rfl
  · rw [if_neg hlong, if_neg fun h => hlong (hlonger.mp h), readExtensions_scan (by omega), hrest, subarray_take (by omega)]

/-- A field is skipped as it is scanned. -/
theorem skip_short (hello : Bytes) (place : ℕ) (h : place ≤ hello.length) : ∃ behind, skip hello 1 place = some behind ∧
    afterShort (hello.drop place) = behind.map (hello.drop ·) ∧ ∀ place' ∈ behind, place' ≤ hello.length := by
  rw [skip]
  match hcons : hello.drop place with
  | [] =>
      have hend := List.drop_eq_nil_iff.mp hcons
      rw [if_pos (by omega)]
      exact ⟨none, rfl, rfl, nofun⟩
  | a :: rest =>
      have hpart : subarray hello place hello.length = a :: rest := by rw [subarray_all, hcons]
      obtain ⟨hsize, hrest⟩ := byteAt_of_cons hpart
      have hlength := congrArg List.length hcons
      rw [List.length_drop, List.length_cons] at hlength
      rw [if_neg (by omega), if_pos rfl, hsize]
      refine ⟨_, rfl, ?_, ?_⟩
      · have hlonger : rest.length < a.toNat ↔ ¬ place + (1 + a.toNat) ≤ hello.length := by omega
        rw [afterShort]
        by_cases hfits : place + (1 + a.toNat) ≤ hello.length
        · rw [if_pos hfits, if_neg fun h => hlonger.mp h hfits, hrest, subarray_drop, subarray_all, Nat.add_assoc]
          rfl
        · rw [if_neg hfits, if_pos (hlonger.mpr hfits)]
          rfl
      · intro place' hplace'
        split at hplace'
        · obtain rfl := Option.some.inj hplace'
          assumption
        · cases hplace'

theorem skip_long {hello : Bytes} {place : ℕ} (h : place ≤ hello.length) : ∃ behind, skip hello 2 place = some behind ∧
    afterLong (hello.drop place) = behind.map (hello.drop ·) ∧ ∀ place' ∈ behind, place' ≤ hello.length := by
  rw [skip]
  match hcons : hello.drop place with
  | [] =>
      have hend := List.drop_eq_nil_iff.mp hcons
      rw [if_pos (by omega)]
      exact ⟨none, rfl, rfl, nofun⟩
  | [_] =>
      have hlength := congrArg List.length hcons
      rw [List.length_drop, List.length_singleton] at hlength
      rw [if_pos (by omega)]
      exact ⟨none, rfl, rfl, nofun⟩
  | a :: b :: rest =>
      have hpart : subarray hello place hello.length = a :: b :: rest := by rw [subarray_all, hcons]
      obtain ⟨hsize, hrest⟩ := uint16_of_cons hpart
      have hlength := congrArg List.length hcons
      rw [List.length_drop, List.length_cons, List.length_cons] at hlength
      rw [if_neg (by omega), if_neg (by decide), hsize]
      refine ⟨_, rfl, ?_, ?_⟩
      · have hlonger : rest.length < uint16 a b ↔ ¬ place + (2 + uint16 a b) ≤ hello.length := by omega
        rw [afterLong]
        by_cases hfits : place + (2 + uint16 a b) ≤ hello.length
        · rw [if_pos hfits, if_neg fun h => hlonger.mp h hfits, hrest, subarray_drop, subarray_all, Nat.add_assoc]
          rfl
        · rw [if_neg hfits, if_pos (hlonger.mpr hfits)]
          rfl
      · intro place' hplace'
        split at hplace'
        · obtain rfl := Option.some.inj hplace'
          assumption
        · cases hplace'

theorem readHello_scan (hello : Bytes) : readHello hello = some (scanHello hello).answer := by
  rw [readHello, scanHello]
  by_cases hshort : hello.length < 34
  · have hnone : skip hello 1 (2 + 32) = some none := if_pos (by omega)
    rw [hnone, if_pos hshort]
    rfl
  rw [if_neg hshort]
  obtain ⟨session, hskip, hafter, hinside⟩ := skip_short hello 34 (by omega)
  rw [hskip, hafter]
  cases session with
  | none => rfl
  | some place =>
      obtain ⟨suites, hskip, hafter, hinside⟩ := skip_long (hinside place rfl)
      simp only [Option.map_some, Option.bind_some]
      rw [hskip, hafter]
      cases suites with
      | none => rfl
      | some place =>
          obtain ⟨methods, hskip, hafter, hinside⟩ := skip_short _ _ (hinside place rfl)
          simp only [Option.map_some, Option.bind_some]
          rw [hskip, hafter]
          cases methods with
          | none => rfl
          | some place => exact readTail_scan (hinside place rfl)

/-- Three bytes that are put together bit by bit. -/
theorem uint24_bits (a b c : UInt8) : a.toNat <<< 16 ||| b.toNat <<< 8 ||| c.toNat = uint24 a b c := by
  have hb := b.toNat_lt
  have hc := c.toNat_lt
  have hlow := Nat.shiftLeft_add_eq_or_of_lt (i := 8) hc b.toNat
  have hhigh := Nat.shiftLeft_add_eq_or_of_lt (i := 16) (b := b.toNat <<< 8 ||| c.toNat) (by rw [← hlow, Nat.shiftLeft_eq]; omega) a.toNat
  rw [Nat.or_assoc, ← hhigh, ← hlow, Nat.shiftLeft_eq, Nat.shiftLeft_eq, uint24]
  omega

theorem readRecord_scan {record : Bytes} (h : 4 ≤ record.length) : readRecord record = some (scanRecord record).answer := by
  obtain ⟨type, a, b, c, rest, rfl⟩ := cons_four _ h
  have hone : type.toNat = 0x01 ↔ type = 0x01 := UInt8.toNat_inj (b := 0x01)
  have hbytes : readRecord (type :: a :: b :: c :: rest) =
      if type.toNat ≠ 0x01 then some .invalid
      else if 4 + (a.toNat <<< 16 ||| b.toNat <<< 8 ||| c.toNat) > (type :: a :: b :: c :: rest).length then some .invalid
      else readHello (subarray (type :: a :: b :: c :: rest) 4 (4 + (a.toNat <<< 16 ||| b.toNat <<< 8 ||| c.toNat))) := rfl
  rw [hbytes, uint24_bits, scanRecord]
  simp only [ne_eq, hone, List.length_cons]
  by_cases htype : type = 0x01
  · by_cases hlong : rest.length < uint24 a b c
    · rw [if_neg (not_not.mpr htype), if_pos (by omega), if_pos (.inr hlong)]
      rfl
    · have hhello : subarray (type :: a :: b :: c :: rest) 4 (4 + uint24 a b c) = rest.take (uint24 a b c) := by
        rw [subarray, Nat.add_comm]
        rfl
      rw [if_neg (not_not.mpr htype), if_neg (by omega), if_neg (by simp [htype, hlong]), readHello_scan, hhello]
  · rw [if_pos htype, if_pos (.inl htype)]
    rfl

/-- **Nothing is read outside the data**: what is read by places is what is scanned. -/
theorem read_scan (data : Bytes) : readServerName data = some (scan data).answer := by
  match data with
  | [] | [_] | [_, _] | [_, _, _] | [_, _, _, _] => rfl
  | type :: version :: minor :: a :: b :: rest =>
      have hread : readServerName (type :: version :: minor :: a :: b :: rest) =
          if (type :: version :: minor :: a :: b :: rest).length < 5 then some .more
          else if type.toNat ≠ 0x16 ∨ version.toNat ≠ 0x03 then some .invalid
          else if uint16 a b < 4 ∨ uint16 a b > 16384 then some .invalid
          else if (type :: version :: minor :: a :: b :: rest).length < 5 + uint16 a b then some .more
          else readRecord (subarray (type :: version :: minor :: a :: b :: rest) 5 (5 + uint16 a b)) := rfl
      have htype : type.toNat = 0x16 ↔ type = 0x16 := UInt8.toNat_inj (b := 0x16)
      have hversion : version.toNat = 0x03 ↔ version = 0x03 := UInt8.toNat_inj (b := 0x03)
      rw [hread, scan]
      simp only [ne_eq, htype, hversion, List.length_cons]
      rw [if_neg (by omega)]
      by_cases hhead : ¬ type = 0x16 ∨ ¬ version = 0x03
      · rw [if_pos hhead, if_pos (hhead.imp_right .inl)]
        rfl
      by_cases hsize : uint16 a b < 4 ∨ uint16 a b > 16384
      · rw [if_neg hhead, if_pos hsize, if_pos (.inr (.inr hsize))]
        rfl
      have hplain : ¬ (¬ type = 0x16 ∨ ¬ version = 0x03 ∨ uint16 a b < 4 ∨ uint16 a b > 16384) := by tauto
      rw [if_neg hhead, if_neg hsize, if_neg hplain]
      by_cases hlong : rest.length < uint16 a b
      · rw [if_pos (by omega), if_pos hlong]
        rfl
      · have hrecord : subarray (type :: version :: minor :: a :: b :: rest) 5 (5 + uint16 a b) = rest.take (uint16 a b) := by
          rw [subarray, Nat.add_comm]
          rfl
        have hfour : 4 ≤ (rest.take (uint16 a b)).length := by
          rw [List.length_take]
          omega
        rw [if_neg (by omega), if_neg hlong, hrecord, readRecord_scan hfour]

/-! ### How a record holds a name -/

/-- Bytes behind their length in one byte. -/
structure ShortField where
  length : UInt8
  body : Bytes
  length_eq : body.length = length.toNat

def ShortField.bytes (f : ShortField) : Bytes := f.length :: f.body

/-- Bytes behind their length in two bytes. -/
structure LongField where
  high : UInt8
  low : UInt8
  body : Bytes
  length_eq : body.length = uint16 high low

def LongField.bytes (f : LongField) : Bytes := f.high :: f.low :: f.body

/-- The first host name of a list of names: entries of other kinds before it, anything behind. -/
inductive FirstHostName : Bytes → Bytes → Prop where
  | here (name : LongField) (more : Bytes) : FirstHostName (0 :: (name.bytes ++ more)) name.body
  | later {kind : UInt8} (hkind : kind ≠ 0) (other : LongField) {list name : Bytes} (h : FirstHostName list name) :
      FirstHostName (kind :: (other.bytes ++ list)) name

/-- The content of the first server_name extension: extensions of other types before it, anything behind. -/
inductive FirstServerName : Bytes → Bytes → Prop where
  | here (content : LongField) (more : Bytes) : FirstServerName (0 :: 0 :: (content.bytes ++ more)) content.body
  | later {a b : UInt8} (htype : ¬ (a = 0 ∧ b = 0)) (other : LongField) {extensions content : Bytes} (h : FirstServerName extensions content) :
      FirstServerName (a :: b :: (other.bytes ++ extensions)) content

/-- A hello with extensions. -/
structure ClientHello where
  /-- The version and 32 random bytes. -/
  fixed : Bytes
  fixed_length : fixed.length = 34
  session : ShortField
  suites : LongField
  methods : ShortField
  extensions : LongField
  more : Bytes

def ClientHello.bytes (h : ClientHello) : Bytes :=
  h.fixed ++ (h.session.bytes ++ (h.suites.bytes ++ (h.methods.bytes ++ (h.extensions.bytes ++ h.more))))

def ClientHello.Names (h : ClientHello) (name : Bytes) : Prop :=
  ∃ content, FirstServerName h.extensions.body content ∧ ∃ (names : LongField) (more : Bytes),
    content = names.bytes ++ more ∧ FirstHostName names.body name

/-- The data begin with a whole record of the size that is read. -/
def BeginsWith (data record : Bytes) : Prop :=
  ∃ (minor a b : UInt8) (more : Bytes), data = 0x16 :: 0x03 :: minor :: a :: b :: (record ++ more) ∧ record.length = uint16 a b ∧
    4 ≤ record.length ∧ record.length ≤ 16384

/-- The first record holds a hello whose first host name this is. -/
def HoldsName (data name : Bytes) : Prop :=
  ∃ record, BeginsWith data record ∧ ∃ (a b c : UInt8) (hello : ClientHello) (more : Bytes),
    record = 0x01 :: a :: b :: c :: (hello.bytes ++ more) ∧ hello.bytes.length = uint24 a b c ∧ hello.Names name

/-- A field as it is taken off the front. -/
def LongField.read (a b : UInt8) (rest : Bytes) (h : ¬ rest.length < uint16 a b) : LongField :=
  ⟨a, b, rest.take (uint16 a b), List.length_take_of_le (Nat.not_lt.mp h)⟩

theorem bytes_read {a b : UInt8} {rest : Bytes} (h : ¬ rest.length < uint16 a b) :
    (LongField.read a b rest h).bytes ++ rest.drop (uint16 a b) = a :: b :: rest := by
  have hparts := List.take_append_drop (uint16 a b) rest
  exact congrArg (a :: b :: ·) hparts

/-- What is scanned where a field stands. -/
theorem LongField.front (f : LongField) (more : Bytes) : ¬ (f.body ++ more).length < uint16 f.high f.low ∧
    (f.body ++ more).take (uint16 f.high f.low) = f.body ∧ (f.body ++ more).drop (uint16 f.high f.low) = more := by
  rw [← f.length_eq, List.take_left, List.drop_left, List.length_append]
  exact ⟨by omega, rfl, rfl⟩

/-- **The first host name of a list.** -/
theorem scanEntries_iff (list name : Bytes) : scanEntries list = .name name ↔ FirstHostName list name := by
  constructor
  · intro h
    fun_induction scanEntries list with
    | case1 => cases h
    | case2 a b rest hfits =>
        cases h
        rw [← bytes_read hfits]
        exact .here (LongField.read a b rest hfits) _
    | case3 kind a b rest hfits hkind ih =>
        rw [← bytes_read hfits]
        exact .later hkind _ (ih h)
    | case4 => cases h
  · intro h
    induction h with
    | here name more =>
        obtain ⟨hfits, htake, -⟩ := name.front more
        rw [LongField.bytes, List.cons_append, List.cons_append, scanEntries, if_neg hfits, if_pos rfl, htake]
    | later hkind other h ih =>
        obtain ⟨hfits, -, hdrop⟩ := other.front _
        rw [LongField.bytes, List.cons_append, List.cons_append, scanEntries, if_neg hfits, if_neg hkind, hdrop]
        exact ih

theorem scanContent_iff (content name : Bytes) : scanContent content = .name name ↔
    ∃ (names : LongField) (more : Bytes), content = names.bytes ++ more ∧ FirstHostName names.body name := by
  constructor
  · intro h
    match content, h with
    | [], h => cases h
    | [_], h => cases h
    | a :: b :: rest, h =>
        rw [scanContent] at h
        split at h
        · cases h
        · rename_i hfits
          exact ⟨LongField.read a b rest hfits, _, (bytes_read hfits).symm, (scanEntries_iff _ _).mp h⟩
  · rintro ⟨names, more, rfl, h⟩
    obtain ⟨hfits, htake, -⟩ := names.front more
    rw [LongField.bytes, List.cons_append, List.cons_append, scanContent, if_neg hfits, htake]
    exact (scanEntries_iff _ _).mpr h

/-- **The first server_name extension.** -/
theorem scanExtensions_iff (extensions name : Bytes) : scanExtensions extensions = .name name ↔
    ∃ content, FirstServerName extensions content ∧ scanContent content = .name name := by
  constructor
  · intro h
    fun_induction scanExtensions extensions with
    | case1 => cases h
    | case2 a b c d rest hfits htype =>
        obtain ⟨rfl, rfl⟩ := htype
        rw [← bytes_read hfits]
        exact ⟨_, .here (LongField.read c d rest hfits) _, h⟩
    | case3 a b c d rest hfits htype ih =>
        obtain ⟨content, hfirst, hname⟩ := ih h
        rw [← bytes_read hfits]
        exact ⟨content, .later htype _ hfirst, hname⟩
    | case4 => cases h
  · rintro ⟨content, hfirst, hname⟩
    induction hfirst with
    | here content more =>
        obtain ⟨hfits, htake, -⟩ := content.front more
        rw [LongField.bytes, List.cons_append, List.cons_append, scanExtensions, if_neg hfits, if_pos ⟨rfl, rfl⟩, htake]
        exact hname
    | later htype other h ih =>
        obtain ⟨hfits, -, hdrop⟩ := other.front _
        rw [LongField.bytes, List.cons_append, List.cons_append, scanExtensions, if_neg hfits, if_neg htype, hdrop]
        exact ih hname

theorem scanTail_iff (tail name : Bytes) : scanTail tail = .name name ↔
    ∃ (extensions : LongField) (more : Bytes), tail = extensions.bytes ++ more ∧ scanExtensions extensions.body = .name name := by
  constructor
  · intro h
    match tail, h with
    | [], h => cases h
    | [_], h => cases h
    | a :: b :: rest, h =>
        rw [scanTail] at h
        split at h
        · cases h
        · rename_i hfits
          exact ⟨LongField.read a b rest hfits, _, (bytes_read hfits).symm, h⟩
  · rintro ⟨extensions, more, rfl, h⟩
    obtain ⟨hfits, htake, -⟩ := extensions.front more
    rw [LongField.bytes, List.cons_append, List.cons_append, scanTail, if_neg hfits, htake]
    exact h

theorem afterShort_iff (data rest : Bytes) : afterShort data = some rest ↔ ∃ f : ShortField, data = f.bytes ++ rest := by
  constructor
  · intro h
    match data, h with
    | [], h => cases h
    | a :: tail, h =>
        rw [afterShort] at h
        split at h
        · cases h
        · rename_i hfits
          obtain rfl := Option.some.inj h
          have hparts := List.take_append_drop a.toNat tail
          exact ⟨⟨a, tail.take a.toNat, List.length_take_of_le (Nat.not_lt.mp hfits)⟩, congrArg (a :: ·) hparts.symm⟩
  · rintro ⟨f, rfl⟩
    have hfits : ¬ (f.body ++ rest).length < f.length.toNat := by
      rw [List.length_append, f.length_eq]
      omega
    rw [ShortField.bytes, List.cons_append, afterShort, if_neg hfits, ← f.length_eq, List.drop_left]

theorem afterLong_iff (data rest : Bytes) : afterLong data = some rest ↔ ∃ f : LongField, data = f.bytes ++ rest := by
  constructor
  · intro h
    match data, h with
    | [], h => cases h
    | [_], h => cases h
    | a :: b :: tail, h =>
        rw [afterLong] at h
        split at h
        · cases h
        · rename_i hfits
          obtain rfl := Option.some.inj h
          exact ⟨LongField.read a b tail hfits, (bytes_read hfits).symm⟩
  · rintro ⟨f, rfl⟩
    obtain ⟨hfits, -, hdrop⟩ := f.front rest
    rw [LongField.bytes, List.cons_append, List.cons_append, afterLong, if_neg hfits, hdrop]

theorem scanHello_iff (hello name : Bytes) : scanHello hello = .name name ↔ ∃ h : ClientHello, hello = h.bytes ∧ h.Names name := by
  have hnames : ∀ extensions : LongField, scanExtensions extensions.body = .name name ↔
      ∃ content, FirstServerName extensions.body content ∧ ∃ (names : LongField) (more : Bytes),
        content = names.bytes ++ more ∧ FirstHostName names.body name := by
    intro extensions
    rw [scanExtensions_iff]
    simp only [scanContent_iff]
  rw [scanHello]
  constructor
  · intro h
    split at h
    · cases h
    · rename_i hlong
      split at h
      · cases h
      · rename_i rest hrest
        obtain ⟨behind, hbehind, hmethods⟩ := Option.bind_eq_some_iff.mp hrest
        obtain ⟨start, hsession, hsuites⟩ := Option.bind_eq_some_iff.mp hbehind
        obtain ⟨session, hsession⟩ := (afterShort_iff _ _).mp hsession
        obtain ⟨suites, rfl⟩ := (afterLong_iff _ _).mp hsuites
        obtain ⟨methods, rfl⟩ := (afterShort_iff _ _).mp hmethods
        obtain ⟨extensions, more, rfl, hscan⟩ := (scanTail_iff _ _).mp h
        refine ⟨⟨hello.take 34, List.length_take_of_le (Nat.not_lt.mp hlong), session, suites, methods, extensions, more⟩, ?_,
          (hnames _).mp hscan⟩
        have hparts := List.take_append_drop 34 hello
        rw [hsession] at hparts
        exact hparts.symm
  · rintro ⟨h, rfl, hname⟩
    have hlong : ¬ h.bytes.length < 34 := by
      rw [ClientHello.bytes, List.length_append, h.fixed_length]
      omega
    have hdrop : h.bytes.drop 34 = h.session.bytes ++ (h.suites.bytes ++ (h.methods.bytes ++ (h.extensions.bytes ++ h.more))) :=
      List.drop_left' h.fixed_length
    have hfields : ((afterShort (h.bytes.drop 34)).bind afterLong).bind afterShort = some (h.extensions.bytes ++ h.more) := by
      rw [hdrop, (afterShort_iff _ _).mpr ⟨h.session, rfl⟩, Option.bind_some, (afterLong_iff _ _).mpr ⟨h.suites, rfl⟩, Option.bind_some,
        (afterShort_iff _ _).mpr ⟨h.methods, rfl⟩]
    rw [if_neg hlong, hfields]
    exact (scanTail_iff _ _).mpr ⟨h.extensions, h.more, rfl, (hnames _).mpr hname⟩

theorem scanRecord_iff (record name : Bytes) : scanRecord record = .name name ↔
    ∃ (a b c : UInt8) (hello : ClientHello) (more : Bytes), record = 0x01 :: a :: b :: c :: (hello.bytes ++ more) ∧
      hello.bytes.length = uint24 a b c ∧ hello.Names name := by
  constructor
  · intro h
    match record, h with
    | [], h | [_], h | [_, _], h | [_, _, _], h => cases h
    | type :: a :: b :: c :: rest, h =>
        rw [scanRecord] at h
        split at h
        · cases h
        · rename_i hplain
          obtain ⟨htype, hfits⟩ := not_or.mp hplain
          obtain rfl := not_not.mp htype
          obtain ⟨hello, hbytes, hname⟩ := (scanHello_iff _ _).mp h
          have hparts := List.take_append_drop (uint24 a b c) rest
          refine ⟨a, b, c, hello, rest.drop (uint24 a b c), ?_, ?_, hname⟩
          · rw [← hbytes, hparts]
          · rw [← hbytes, List.length_take_of_le (Nat.not_lt.mp hfits)]
  · rintro ⟨a, b, c, hello, more, rfl, hlength, hname⟩
    have hfits : ¬ ((0x01 : UInt8) ≠ 0x01 ∨ (hello.bytes ++ more).length < uint24 a b c) := by
      rintro (h | h)
      · exact h rfl
      · rw [List.length_append, hlength] at h
        omega
    rw [scanRecord, if_neg hfits, ← hlength, List.take_left]
    exact (scanHello_iff _ _).mpr ⟨hello, rfl, hname⟩

/-- What is scanned of a whole record. -/
theorem scan_record {data record : Bytes} (h : BeginsWith data record) : scan data = scanRecord record := by
  obtain ⟨minor, a, b, more, rfl, hlength, hlow, hhigh⟩ := h
  have hplain : ¬ ((0x16 : UInt8) ≠ 0x16 ∨ (0x03 : UInt8) ≠ 0x03 ∨ uint16 a b < 4 ∨ uint16 a b > 16384) := by
    rintro (h | h | h)
    · exact h rfl
    · exact h rfl
    · omega
  have hlong : ¬ (record ++ more).length < uint16 a b := by
    rw [List.length_append, hlength]
    omega
  rw [scan, if_neg hplain, if_neg hlong, ← hlength, List.take_left]

theorem scanEntries_more (list : Bytes) : scanEntries list ≠ .more := by
  fun_induction scanEntries list with
  | case1 => exact nofun
  | case2 => exact nofun
  | case3 _ _ _ _ _ _ ih => exact ih
  | case4 => exact nofun

theorem scanContent_more (content : Bytes) : scanContent content ≠ .more := by
  unfold scanContent
  split
  · split
    · exact nofun
    · exact scanEntries_more _
  · exact nofun

theorem scanExtensions_more (extensions : Bytes) : scanExtensions extensions ≠ .more := by
  fun_induction scanExtensions extensions with
  | case1 => exact nofun
  | case2 => exact scanContent_more _
  | case3 _ _ _ _ _ _ _ ih => exact ih
  | case4 => exact nofun

theorem scanTail_more (tail : Bytes) : scanTail tail ≠ .more := by
  unfold scanTail
  split
  · exact nofun
  · exact nofun
  · split
    · exact nofun
    · exact scanExtensions_more _

theorem scanRecord_more (record : Bytes) : scanRecord record ≠ .more := by
  unfold scanRecord
  split
  · split
    · exact nofun
    · unfold scanHello
      split
      · exact nofun
      · split
        · exact nofun
        · exact scanTail_more _
  · exact nofun

/-- The size of the first record is not there, or not all of the bytes that it promises. -/
def Incomplete (data : Bytes) : Prop := data.length < 5 ∨ ∃ size, readUInt16BE data 3 = some size ∧ data.length < 5 + size

/-- The data, by what is scanned: more is asked for, another beginning, or a whole record. -/
theorem scan_cases (data : Bytes) : (scan data = .more ∧ Incomplete data) ∨
    (5 ≤ data.length ∧ scan data = .invalid) ∨ ∃ record, BeginsWith data record := by
  match data with
  | [] | [_] | [_, _] | [_, _, _] | [_, _, _, _] => exact .inl ⟨rfl, .inl (by simp)⟩
  | type :: version :: minor :: a :: b :: rest =>
      rw [scan]
      split
      · exact .inr (.inl ⟨by simp, rfl⟩)
      · rename_i hhead
        split
        · rename_i hshort
          refine .inl ⟨rfl, .inr ⟨uint16 a b, rfl, ?_⟩⟩
          simp only [List.length_cons]
          omega
        · rename_i hlong
          simp only [not_or, not_not, ne_eq] at hhead
          obtain ⟨rfl, rfl, hlow, hhigh⟩ := hhead
          have hlength : (rest.take (uint16 a b)).length = uint16 a b := List.length_take_of_le (Nat.not_lt.mp hlong)
          refine .inr (.inr ⟨rest.take (uint16 a b), minor, a, b, rest.drop (uint16 a b), ?_, hlength, ?_, ?_⟩)
          · rw [List.take_append_drop]
          · omega
          · omega

theorem begins_append {data record : Bytes} (h : BeginsWith data record) (more : Bytes) : BeginsWith (data ++ more) record := by
  obtain ⟨minor, a, b, behind, rfl, hfits⟩ := h
  refine ⟨minor, a, b, behind ++ more, ?_, hfits⟩
  rw [List.cons_append, List.cons_append, List.cons_append, List.cons_append, List.cons_append, List.append_assoc]

/-- **An answer is the answer to every continuation.** -/
theorem scan_append {data : Bytes} (h : scan data ≠ .more) (more : Bytes) : scan (data ++ more) = scan data := by
  rcases scan_cases data with ⟨hmore, -⟩ | ⟨hlength, hinvalid⟩ | ⟨record, hrecord⟩
  · exact absurd hmore h
  · rw [hinvalid]
    match data, hlength with
    | type :: version :: minor :: a :: b :: rest, _ =>
        rw [scan] at hinvalid
        simp only [List.cons_append]
        rw [scan]
        split at hinvalid
        · rename_i hhead
          rw [if_pos hhead]
        · split at hinvalid
          · cases hinvalid
          · rename_i hhead hlong
            have hlonger : ¬ (rest ++ more).length < uint16 a b := by
              rw [List.length_append]
              omega
            rw [if_neg hhead, if_neg hlonger, List.take_append_of_le_length (Nat.not_lt.mp hlong), hinvalid]
  · rw [scan_record hrecord, scan_record (begins_append hrecord more)]

/-- **A name is found exactly where the first record holds it.** -/
theorem scan_iff (data name : Bytes) : scan data = .name name ↔ HoldsName data name := by
  constructor
  · intro h
    rcases scan_cases data with ⟨hmore, -⟩ | ⟨-, hinvalid⟩ | ⟨record, hrecord⟩
    · rw [hmore] at h
      cases h
    · rw [hinvalid] at h
      cases h
    · rw [scan_record hrecord] at h
      exact ⟨record, hrecord, (scanRecord_iff _ _).mp h⟩
  · rintro ⟨record, hrecord, hname⟩
    rw [scan_record hrecord]
    exact (scanRecord_iff _ _).mpr hname

/-! ### Both copies -/

namespace Relay

/-- `relay.mjs`, which has the same text, its `isServerName` included. -/
def readServerName (data : Bytes) : Option ServerNameResult := ServerNames.readServerName data

end Relay

/-- The bytes are those of an ASCII text that is a server name in lower case. -/
def Spells (bytes : Bytes) (name : List Char) : Prop :=
  ∃ text : List Char, (∀ c ∈ text, c.toNat < 128) ∧ bytes = writeText text ∧ name = text.map Char.toLower ∧ isServerName name = true

/-- A name is answered exactly where the first record holds its bytes. -/
def NamedRight (data : Bytes) : Prop :=
  ∀ name, readServerName data = some (.ok (some name)) ↔ ∃ bytes, HoldsName data bytes ∧ Spells bytes name

/-- What the bytes of a name are taken for. -/
def takenFor (bytes : Bytes) : List Char := (bytes.map asciiChar).map Char.toLower

theorem answerFor_iff (bytes : Bytes) (name : List Char) : answerFor bytes = .ok (some name) ↔
    name = takenFor bytes ∧ isServerName (takenFor bytes) = true := by
  have hunfold : answerFor bytes = if isServerName (takenFor bytes) then .ok (some (takenFor bytes)) else .invalid := rfl
  rw [hunfold]
  split
  · rename_i hvalid
    constructor
    · intro h
      exact ⟨(Option.some.inj (ServerNameResult.ok.inj h)).symm, hvalid⟩
    · rintro ⟨rfl, -⟩
      rfl
  · rename_i hinvalid
    exact ⟨nofun, fun h => absurd h.2 hinvalid⟩

theorem answerFor_more (bytes : Bytes) : answerFor bytes ≠ .more := by
  unfold answerFor
  dsimp only
  split
  · exact nofun
  · exact nofun

/-- Bytes without a high bit are those of an ASCII text. -/
theorem spells_iff (bytes : Bytes) (name : List Char) : Spells bytes name ↔
    (∀ b ∈ bytes, b.toNat < 128) ∧ name = takenFor bytes ∧ isServerName (takenFor bytes) = true := by
  constructor
  · rintro ⟨text, hascii, rfl, rfl, hvalid⟩
    have htaken : takenFor (writeText text) = text.map Char.toLower := by rw [takenFor, readAscii_writeText hascii]
    refine ⟨?_, htaken.symm, htaken ▸ hvalid⟩
    rw [writeText_ascii hascii]
    intro b hb
    obtain ⟨c, hc, rfl⟩ := List.mem_map.mp hb
    have hlt := hascii c hc
    rwa [toNat_ofNat (by omega)]
  · rintro ⟨hlow, rfl, hvalid⟩
    have hchar : ∀ b : UInt8, (asciiChar b).toNat = b.toNat % 128 := fun b => by
      have hall : ∀ k < 128, (Char.ofNat k).toNat = k := by decide +kernel
      exact hall _ (Nat.mod_lt _ (by decide))
    have hascii : ∀ c ∈ bytes.map asciiChar, c.toNat < 128 := by
      intro c hc
      obtain ⟨b, -, rfl⟩ := List.mem_map.mp hc
      rw [hchar]
      omega
    refine ⟨bytes.map asciiChar, hascii, ?_, rfl, hvalid⟩
    rw [writeText_ascii hascii, List.map_map]
    refine (List.map_id bytes).symm.trans (List.map_congr_left fun b hb => ?_)
    have hsame : b.toNat % 128 = b.toNat := Nat.mod_eq_of_lt (hlow b hb)
    rw [Function.comp_apply, hchar, hsame, UInt8.ofNat_toNat]
    rfl

theorem read_name_iff (data : Bytes) (name : List Char) : readServerName data = some (.ok (some name)) ↔
    ∃ bytes, HoldsName data bytes ∧ name = takenFor bytes ∧ isServerName (takenFor bytes) = true := by
  rw [read_scan]
  constructor
  · intro h
    have hanswer := Option.some.inj h
    cases hscan : scan data with
    | name bytes =>
        rw [hscan] at hanswer
        exact ⟨bytes, (scan_iff _ _).mp hscan, (answerFor_iff _ _).mp hanswer⟩
    | more | nothing | invalid =>
        rw [hscan] at hanswer
        cases hanswer
  · rintro ⟨bytes, hholds, hname⟩
    rw [(scan_iff _ _).mpr hholds]
    exact congrArg some ((answerFor_iff _ _).mpr hname)

/-- The first host name that the record holds has no byte with its high bit set, if it is taken for a server name at all. -/
def Ascii (data : Bytes) : Prop := ∀ bytes, HoldsName data bytes → isServerName (takenFor bytes) = true → ∀ b ∈ bytes, b.toNat < 128

theorem named_right_iff (data : Bytes) : NamedRight data ↔ Ascii data := by
  constructor
  · intro h bytes hholds hvalid
    -- the record holds one name only
    obtain ⟨bytes', hholds', hspells⟩ := (h (takenFor bytes)).mp ((read_name_iff _ _).mpr ⟨bytes, hholds, rfl, hvalid⟩)
    have hsame := ((scan_iff _ _).mpr hholds).symm.trans ((scan_iff _ _).mpr hholds')
    obtain rfl := Scanned.name.inj hsame
    exact ((spells_iff _ _).mp hspells).1
  · intro h name
    rw [read_name_iff]
    constructor
    · rintro ⟨bytes, hholds, rfl, hvalid⟩
      exact ⟨bytes, hholds, (spells_iff _ _).mpr ⟨h bytes hholds hvalid, rfl, hvalid⟩⟩
    · rintro ⟨bytes, hholds, hspells⟩
      exact ⟨bytes, hholds, ((spells_iff _ _).mp hspells).2⟩

/-- More is asked for only while the first record is incomplete. -/
theorem incomplete_of_more {data : Bytes} (h : (scan data).answer = .more) : Incomplete data := by
  rcases scan_cases data with ⟨-, hincomplete⟩ | ⟨-, hinvalid⟩ | ⟨record, hrecord⟩
  · exact hincomplete
  · rw [hinvalid] at h
    cases h
  · rw [scan_record hrecord] at h
    cases hscan : scanRecord record with
    | more => exact absurd hscan (scanRecord_more record)
    | nothing | invalid =>
        rw [hscan] at h
        cases h
    | name bytes =>
        rw [hscan] at h
        exact absurd h (answerFor_more bytes)

/-- **The server name is read correctly** from data whose host name is ASCII; from any data, both copies read alike and nothing outside,
an answer is the answer to every continuation, and more is asked for only while the first record is incomplete. -/
theorem server_name_iff (data : Bytes) : (NamedRight data ↔ Ascii data) ∧ Relay.readServerName data = readServerName data ∧
    ∃ answer, readServerName data = some answer ∧ (answer = .more → Incomplete data) ∧
      (answer ≠ .more → ∀ more, readServerName (data ++ more) = some answer) := by
  refine ⟨named_right_iff data, rfl, (scan data).answer, read_scan data, incomplete_of_more, fun hmore more => ?_⟩
  have hscan : scan data ≠ .more := fun h => hmore (congrArg Scanned.answer h)
  rw [read_scan, scan_append hscan]

/-- The name `node`, the high bit of its first letter set. -/
def highName : LongField := ⟨0, 4, [0xee, 0x6f, 0x64, 0x65], rfl⟩

def highNames : LongField := ⟨0, 7, 0 :: highName.bytes, rfl⟩

def highContent : LongField := ⟨0, 9, highNames.bytes, rfl⟩

def highHello : ClientHello :=
  ⟨List.replicate 34 0, rfl, ⟨0, [], rfl⟩, ⟨0, 2, [0x13, 0x01], rfl⟩, ⟨1, [0], rfl⟩, ⟨0, 13, 0 :: 0 :: highContent.bytes, rfl⟩, []⟩

def highData : Bytes := 0x16 :: 0x03 :: 0x01 :: 0x00 :: 60 :: 0x01 :: 0x00 :: 0x00 :: 56 :: highHello.bytes

theorem highData_holds : HoldsName highData highName.body := by
  refine ⟨0x01 :: 0x00 :: 0x00 :: 56 :: highHello.bytes, ⟨0x01, 0x00, 60, [], by simp [highData], by decide, by decide, by decide⟩,
    0x00, 0x00, 56, highHello, [], by simp, by decide, highNames.bytes, ?_, highNames, [], by simp, ?_⟩
  · have hfirst := FirstServerName.here highContent []
    rwa [List.append_nil] at hfirst
  · have hfirst := FirstHostName.here highName []
    rwa [List.append_nil] at hfirst

/-- A name that is no ASCII is taken for one that is. -/
theorem high_bit_dropped : readServerName highData = some (.ok (some "node".toList)) ∧ ¬ ∀ data, NamedRight data := by
  have hvalid : isServerName (takenFor highName.body) = true := by decide +kernel
  refine ⟨(read_name_iff _ _).mpr ⟨_, highData_holds, by decide +kernel, hvalid⟩, fun h => ?_⟩
  have hlow := (named_right_iff highData).mp (h highData) _ highData_holds hvalid 0xee (by decide)
  exact absurd hlow (by decide)

end Pokyh.Cluster.ServerNames
