import Pokyh.Lib.Texts
import Pokyh.Lib.Utf8

/-!
# Cluster — GitRefs

What a git host answers about its branches and what is read of the answer (`rollout.ts`, `parseAdvertisedRefs`).  The answer is a list
of lines with their length in front and of flushes between them; an answer that was cut off in a line is refused.

* `parse_items`: lines and flushes are read one by one, whatever follows.
* `parse_cut`: **a cut in a line is seen, one between two lines or in a length is not**.
* `advertisement_read_iff`: when the refs of an answer are read whole, and a part of it refused.
-/

namespace Pokyh.Cluster.GitRefs
open Pokyh.Lib

/-! ### Reading -/

inductive GitError where
  /-- the answer is not a git ref advertisement -/
  | notAnAdvertisement
  /-- the git ref advertisement is truncated -/
  | truncated
  deriving DecidableEq, Repr

/-- The commits of the refs, in the order in which these came up. -/
abbrev Refs := List (List Char × List Char)

/-- `refs.set(name, commit)` -/
def setRef (refs : Refs) (name commit : List Char) : Refs :=
  if refs.any (·.1 = name) then refs.map fun ref => if ref.1 = name then (name, commit) else ref else refs ++ [(name, commit)]

def isHexDigit (c : Char) : Bool := c.isDigit || ('a' ≤ c && c ≤ 'f')

/-- `Number.parseInt(head, 16)` of four digits; none where there is another character. -/
def lengthOf (head : List Char) : Option ℕ :=
  if head.all isHexDigit then some (head.foldl (fun n c => 16 * n + if c.isDigit then c.toNat - 48 else c.toNat - 87) 0) else none

/-- The name and the commit of `^([0-9a-f]{40}) (refs\/\S+)$`. -/
def refLine (text : List Char) : Option (List Char × List Char) :=
  match text.splitAt 40 with
  | (commit, ' ' :: name) =>
    if commit.length = 40 && commit.all isHexDigit && "refs/".toList.isPrefixOf name && 5 < name.length && (name.drop 5).all (!isSpace ·) then
      some (name, commit)
    else none
  | _ => none

/-- What a line adds to the refs. -/
def takeLine (refs : Refs) (bytes : Bytes) : Refs :=
  let line := readText bytes
  if line.head? = some '#' then refs
  else
    let line := if line.getLast? = some '\n' then line.dropLast else line
    let line := line.takeWhile (· ≠ '\x00')
    match refLine line with
    | some (name, commit) => setRef refs name commit
    | none => refs

def parseFrom (refs : Refs) : Bytes → Except GitError Refs
  | a :: b :: c :: d :: rest =>
    match lengthOf ([a, b, c, d].map asciiChar) with
    | none => .error .notAnAdvertisement
    | some 0 => parseFrom refs rest
    | some length =>
      if length < 4 || rest.length + 4 < length then .error .truncated
      else parseFrom (takeLine refs (rest.take (length - 4))) (rest.drop (length - 4))
  | _ => .ok refs
termination_by body => body.length
decreasing_by
  · simp only [List.length_cons]
    omega
  · simp only [List.length_drop, List.length_cons]
    omega

def parseAdvertisedRefs (body : Bytes) : Except GitError Refs := parseFrom [] body

/-! ### What a git host sends -/

/-- A ref with its commit. -/
structure GitRef where
  commit : List Char
  name : List Char
  commit_length : commit.length = 40
  commit_digits : commit.all isHexDigit = true
  /-- No space and no control character. -/
  name_chars : (name.all fun c => ' ' < c) = true
  name_end : name.getLast? ≠ some '/'

def GitRef.isUnderRefs (ref : GitRef) : Bool := "refs/".toList.isPrefixOf ref.name

/-- A length in four digits. -/
def hex4 (n : ℕ) : List Char := [n / 4096, n / 256, n / 16, n].map fun k => Nat.digitChar (k % 16)

inductive Item where
  | flush
  | line (text : Bytes)

def Item.bytes : Item → Bytes
  | .flush => writeText (hex4 0)
  | .line text => writeText (hex4 (text.length + 4)) ++ text

/-- A line whose length git writes. -/
def Item.Fits : Item → Prop
  | .flush => True
  | .line text => text.length ≤ 65516

def written (items : List Item) : Bytes := items.flatMap Item.bytes

/-- The line of a ref, with what is behind its name. -/
def GitRef.line (ref : GitRef) (more : List Char) : Bytes := writeText (ref.commit ++ ' ' :: ref.name ++ more ++ ['\n'])

/-- The lines of refs, the first with what the host says it can do; without refs, one that names none. -/
def linesOf (capabilities : List Char) : List GitRef → List Bytes
  | [] => [writeText (List.replicate 40 '0' ++ " capabilities^{}".toList ++ '\x00' :: capabilities ++ ['\n'])]
  | ref :: refs => ref.line ('\x00' :: capabilities) :: refs.map (·.line [])

def itemsOf (capabilities : List Char) (refs : List GitRef) : List Item :=
  .line (writeText "# service=git-upload-pack\n".toList) :: .flush :: ((linesOf capabilities refs).map .line ++ [.flush])

/-- Refs of different names with their commits, and what the host says it can do. -/
structure Advertisement where
  refs : List GitRef
  capabilities : List Char
  distinct : (refs.map (·.name)).Nodup
  fits : ∀ line ∈ linesOf capabilities refs, line.length ≤ 65516

def Advertisement.items (a : Advertisement) : List Item := itemsOf a.capabilities a.refs

def Advertisement.bytes (a : Advertisement) : Bytes := written a.items

/-- The refs under `refs/`, with their commits. -/
def Advertisement.underRefs (a : Advertisement) : Refs := (a.refs.filter (·.isUnderRefs)).map fun ref => (ref.name, ref.commit)

/-! ### Lines and flushes -/

theorem digit_facts {k : ℕ} (h : k < 16) : isHexDigit (Nat.digitChar k) = true ∧ (Nat.digitChar k).toNat < 128 ∧
    (if (Nat.digitChar k).isDigit then (Nat.digitChar k).toNat - 48 else (Nat.digitChar k).toNat - 87) = k := by
  have hall : ∀ k < 16, isHexDigit (Nat.digitChar k) = true ∧ (Nat.digitChar k).toNat < 128 ∧
      (if (Nat.digitChar k).isDigit then (Nat.digitChar k).toNat - 48 else (Nat.digitChar k).toNat - 87) = k := by decide
  exact hall k h

theorem lengthOf_hex4 {n : ℕ} (h : n < 65536) : lengthOf (hex4 n) = some n := by
  have hdigit : ∀ k, isHexDigit (Nat.digitChar (k % 16)) = true := fun k => (digit_facts (Nat.mod_lt k (by decide))).1
  have hvalue : ∀ k, (if (Nat.digitChar (k % 16)).isDigit then (Nat.digitChar (k % 16)).toNat - 48
      else (Nat.digitChar (k % 16)).toNat - 87) = k % 16 := fun k => (digit_facts (Nat.mod_lt k (by decide))).2.2
  simp only [lengthOf, hex4, List.map_cons, List.map_nil, List.all_cons, List.all_nil, hdigit, Bool.and_self, if_true, List.foldl_cons,
    List.foldl_nil, hvalue]
  have hn : 16 * (16 * (16 * (16 * 0 + n / 4096 % 16) + n / 256 % 16) + n / 16 % 16) + n % 16 = n := by omega
  exact congrArg some hn

theorem hex4_ascii {n : ℕ} {c : Char} (h : c ∈ hex4 n) : c.toNat < 128 := by
  obtain ⟨k, -, rfl⟩ := List.mem_map.mp h
  exact (digit_facts (Nat.mod_lt k (by decide))).2.1

/-- The bytes of a length. -/
theorem hex4_bytes (n : ℕ) : ∃ a b c d, writeText (hex4 n) = [a, b, c, d] ∧ [a, b, c, d].map asciiChar = hex4 n := by
  have hwritten : writeText (hex4 n) = (hex4 n).map fun c => UInt8.ofNat c.toNat := writeText_ascii fun c hc => hex4_ascii hc
  refine ⟨_, _, _, _, hwritten, ?_⟩
  have hread := readAscii_writeText (s := hex4 n) fun c hc => hex4_ascii hc
  rwa [hwritten] at hread

theorem parse_short (refs : Refs) {body : Bytes} (h : body.length < 4) : parseFrom refs body = .ok refs := by
  match body with
  | [] | [_] | [_, _] | [_, _, _] => rw [parseFrom]; simp
  | _ :: _ :: _ :: _ :: _ =>
      simp only [List.length_cons] at h
      omega

/-- A length and what it says. -/
theorem parse_length {n : ℕ} (hn : n < 65536) (refs : Refs) (rest : Bytes) : parseFrom refs (writeText (hex4 n) ++ rest) =
    if n = 0 then parseFrom refs rest
    else if n < 4 || rest.length + 4 < n then .error .truncated
    else parseFrom (takeLine refs (rest.take (n - 4))) (rest.drop (n - 4)) := by
  obtain ⟨a, b, c, d, hbytes, hascii⟩ := hex4_bytes n
  rw [hbytes]
  simp only [List.cons_append, List.nil_append]
  rw [parseFrom, hascii, lengthOf_hex4 hn]
  cases n with
  | zero => rfl
  | succ n => rfl

def Item.take (refs : Refs) : Item → Refs
  | .flush => refs
  | .line text => takeLine refs text

theorem parse_item {item : Item} (h : item.Fits) (refs : Refs) (rest : Bytes) :
    parseFrom refs (item.bytes ++ rest) = parseFrom (item.take refs) rest := by
  cases item with
  | flush => exact (parse_length (by decide) refs rest).trans (if_pos rfl)
  | line text =>
      have hfits : text.length ≤ 65516 := h
      have hlong : (decide (text.length + 4 < 4) || decide ((text ++ rest).length + 4 < text.length + 4)) = false := by simp
      rw [Item.bytes, List.append_assoc, parse_length (by omega), if_neg (by omega), hlong, if_neg (by decide), Nat.add_sub_cancel,
        List.take_left, List.drop_left]
      rfl

/-- **Lines and flushes are read one by one**, whatever follows. -/
theorem parse_items {items : List Item} (h : ∀ item ∈ items, item.Fits) (refs : Refs) (rest : Bytes) :
    parseFrom refs (written items ++ rest) = parseFrom (items.foldl Item.take refs) rest := by
  induction items generalizing refs with
  | nil => rfl
  | cons item items ih =>
      rw [written, List.flatMap_cons, List.append_assoc, parse_item (h item List.mem_cons_self), List.foldl_cons]
      exact ih (fun item hitem => h item (List.mem_cons_of_mem _ hitem)) _

/-! ### Cuts -/

theorem length_hex4 (n : ℕ) : (writeText (hex4 n)).length = 4 := by
  obtain ⟨a, b, c, d, hbytes, -⟩ := hex4_bytes n
  rw [hbytes]
  rfl

theorem length_bytes (item : Item) : item.bytes.length = 4 + (match item with | .flush => 0 | .line text => text.length) := by
  cases item with
  | flush => exact length_hex4 0
  | line text => rw [Item.bytes, List.length_append, length_hex4]

/-- Where a list of lines and flushes is cut. -/
theorem written_take {items : List Item} {n : ℕ} (h : n < (written items).length) : ∃ done item rest k, items = done ++ item :: rest ∧
    n = (written done).length + k ∧ k < item.bytes.length ∧ (written items).take n = written done ++ item.bytes.take k := by
  induction items generalizing n with
  | nil => simp [written] at h
  | cons item items ih =>
      have hcons : written (item :: items) = item.bytes ++ written items := List.flatMap_cons
      rw [hcons] at h ⊢
      by_cases hn : n < item.bytes.length
      · exact ⟨[], item, items, n, rfl, by simp [written], hn, by simp [written, List.take_append_of_le_length hn.le]⟩
      · have hlength : n - item.bytes.length < (written items).length := by
          rw [List.length_append] at h
          omega
        obtain ⟨done, item', rest, k, rfl, hk, hlt, htake⟩ := ih hlength
        refine ⟨item :: done, item', rest, k, rfl, ?_, hlt, ?_⟩
        · rw [written, List.flatMap_cons, List.length_append]
          change n = item.bytes.length + (written done).length + k
          omega
        · have hwhole : item.bytes.take n = item.bytes := List.take_of_length_le (by omega)
          rw [List.take_append, hwhole, htake, ← List.append_assoc]
          rfl

/-- The cut is in a line, behind its length. -/
def InLine (items : List Item) (n : ℕ) : Prop :=
  ∃ done text rest, items = done ++ .line text :: rest ∧ (written done).length + 4 ≤ n ∧ n < (written done).length + 4 + text.length

theorem parse_part {text : Bytes} (hfits : text.length ≤ 65516) {k : ℕ} (hk : 4 ≤ k) (hlt : k < 4 + text.length) (refs : Refs) :
    parseFrom refs ((Item.line text).bytes.take k) = .error .truncated := by
  have htake : (Item.line text).bytes.take k = writeText (hex4 (text.length + 4)) ++ text.take (k - 4) := by
    rw [Item.bytes, List.take_append, length_hex4, List.take_of_length_le (by rw [length_hex4]; exact hk)]
  have hshort : (decide (text.length + 4 < 4) || decide ((text.take (k - 4)).length + 4 < text.length + 4)) = true := by
    simp only [List.length_take, Bool.or_eq_true, decide_eq_true_eq]
    omega
  rw [htake, parse_length (by omega), if_neg (by omega), if_pos hshort]

theorem written_append (items items' : List Item) : written (items ++ items') = written items ++ written items' := List.flatMap_append

/-- **A cut in a line is seen.** -/
theorem parse_inLine {items : List Item} (h : ∀ item ∈ items, item.Fits) {n : ℕ} (hcut : InLine items n) (refs : Refs) :
    parseFrom refs ((written items).take n) = .error .truncated := by
  obtain ⟨done, text, rest, rfl, hle, hlt⟩ := hcut
  have hfits : text.length ≤ 65516 := h (.line text) (by simp)
  have hlong : n - (written done).length ≤ (Item.line text).bytes.length := by
    rw [length_bytes]
    dsimp only
    omega
  have htake : (written (done ++ .line text :: rest)).take n = written done ++ (Item.line text).bytes.take (n - (written done).length) := by
    rw [written_append, List.take_append, List.take_of_length_le (by omega)]
    exact congrArg _ (List.take_append_of_le_length hlong)
  rw [htake, parse_items fun item hitem => h item (List.mem_append_left _ hitem)]
  exact parse_part hfits (by omega) (by omega) _

/-- Any other one is taken for the end of the answer. -/
theorem parse_between {items : List Item} (h : ∀ item ∈ items, item.Fits) {n : ℕ} (hn : n < (written items).length)
    (hcut : ¬ InLine items n) (refs : Refs) : ∃ done, done <+: items ∧
      parseFrom refs ((written items).take n) = .ok (done.foldl Item.take refs) := by
  obtain ⟨done, item, rest, k, rfl, rfl, hk, htake⟩ := written_take hn
  rw [htake, parse_items fun item hitem => h item (List.mem_append_left _ hitem)]
  have hshort : k < 4 := by
    rw [length_bytes] at hk
    cases item with
    | flush => exact hk
    | line text =>
        by_contra hlong
        refine hcut ⟨done, text, rest, rfl, by omega, ?_⟩
        dsimp only at hk
        omega
  exact ⟨done, List.prefix_append _ _, parse_short _ ((List.length_take_le _ _).trans_lt hshort)⟩

/-! ### Lines of refs -/

theorem GitRef.first_digit (ref : GitRef) : ∃ c rest, ref.commit = c :: rest ∧ isHexDigit c = true := by
  cases hcommit : ref.commit with
  | nil =>
      have hlength := ref.commit_length
      rw [hcommit] at hlength
      cases hlength
  | cons c rest =>
      have hdigits := ref.commit_digits
      rw [hcommit, List.all_cons, Bool.and_eq_true] at hdigits
      exact ⟨c, rest, rfl, hdigits.1⟩

/-- No NUL is in a ref. -/
theorem GitRef.plain (ref : GitRef) : ∀ c ∈ ref.commit ++ ' ' :: ref.name, c ≠ '\x00' := by
  rintro c hc rfl
  rcases List.mem_append.mp hc with hc | hc
  · exact absurd (List.all_eq_true.mp ref.commit_digits _ hc) (by decide)
  · rcases List.mem_cons.mp hc with hc | hc
    · exact absurd hc (by decide)
    · exact absurd (of_decide_eq_true (List.all_eq_true.mp ref.name_chars _ hc)) (by decide)

/-- A name that the regular expression takes: under `refs/`, without white space. -/
def GitRef.isRead (ref : GitRef) : Bool := ref.isUnderRefs && ref.name.all (!isSpace ·)

theorem GitRef.isUnderRefs_eq (ref : GitRef) (h : ref.isUnderRefs = true) : ∃ rest, ref.name = "refs/".toList ++ rest ∧ rest ≠ [] := by
  obtain ⟨rest, hrest⟩ := List.isPrefixOf_iff_prefix.mp h
  refine ⟨rest, hrest.symm, ?_⟩
  rintro rfl
  rw [List.append_nil] at hrest
  exact absurd (by rw [← hrest]; rfl) ref.name_end

theorem refLine_ref (ref : GitRef) : refLine (ref.commit ++ ' ' :: ref.name) = if ref.isRead then some (ref.name, ref.commit) else none := by
  have hsplit : (ref.commit ++ ' ' :: ref.name).splitAt 40 = (ref.commit, ' ' :: ref.name) := by
    rw [List.splitAt_eq, List.take_left' ref.commit_length, List.drop_left' ref.commit_length]
  rw [refLine, hsplit]
  change (if (decide (ref.commit.length = 40) && ref.commit.all isHexDigit && "refs/".toList.isPrefixOf ref.name && decide (5 < ref.name.length) &&
    (ref.name.drop 5).all (!isSpace ·)) = true then some (ref.name, ref.commit) else none) = _
  rw [ref.commit_digits, decide_eq_true ref.commit_length, Bool.true_and, Bool.true_and]
  cases hunder : ref.isUnderRefs with
  | false => simp only [GitRef.isRead, hunder, Bool.false_and, show "refs/".toList.isPrefixOf ref.name = false from hunder]
  | true =>
      obtain ⟨rest, hname, hrest⟩ := ref.isUnderRefs_eq hunder
      have hlength : 5 < ref.name.length := by
        have hpos := List.length_pos_of_ne_nil hrest
        rw [hname, List.length_append]
        exact Nat.lt_add_of_pos_right hpos
      have hall : ref.name.all (!isSpace ·) = (ref.name.drop 5).all (!isSpace ·) := by
        rw [hname, List.all_append]
        exact Bool.true_and _
      rw [GitRef.isRead, hunder, show "refs/".toList.isPrefixOf ref.name = true from hunder, decide_eq_true hlength, hall]
      rfl

theorem takeLine_ref (ref : GitRef) {more : List Char} (hmore : ∀ c ∈ more.head?, c = '\x00') (refs : Refs) :
    takeLine refs (ref.line more) = if ref.isRead then setRef refs ref.name ref.commit else refs := by
  have hread : readText (ref.line more) = ref.commit ++ ' ' :: ref.name ++ more ++ ['\n'] := by
    have hwhole := readText_writeText (ref.commit ++ ' ' :: ref.name ++ more ++ ['\n']) []
    rwa [List.append_nil, readText, List.append_nil] at hwhole
  have hfirst : (ref.commit ++ ' ' :: ref.name ++ more ++ ['\n']).head? ≠ some '#' := by
    obtain ⟨c, rest, hcommit, hc⟩ := ref.first_digit
    rw [hcommit]
    rintro ⟨⟩
    cases hc
  have hplain : (ref.commit ++ ' ' :: ref.name ++ more).takeWhile (· ≠ '\x00') = ref.commit ++ ' ' :: ref.name := by
    rw [List.takeWhile_append_of_pos fun c hc => decide_eq_true (ref.plain c hc)]
    cases more with
    | nil => exact List.append_nil _
    | cons c more =>
        rw [hmore c rfl]
        exact List.append_nil _
  rw [takeLine]
  simp only [hread, hfirst, if_false, List.getLast?_concat, if_true, List.dropLast_concat, hplain, refLine_ref]
  cases ref.isRead <;> rfl

/-! ### A whole answer -/

def GitRef.pair (ref : GitRef) : List Char × List Char := (ref.name, ref.commit)

theorem setRef_new {refs : Refs} {name commit : List Char} (h : ∀ ref ∈ refs, ref.1 ≠ name) :
    setRef refs name commit = refs ++ [(name, commit)] := by
  rw [setRef, if_neg]
  intro hany
  obtain ⟨ref, href, hname⟩ := List.any_eq_true.mp hany
  exact h ref href (of_decide_eq_true hname)

/-- The lines of refs of different names. -/
theorem take_refs {refs : List GitRef} (hdistinct : (refs.map (·.name)).Nodup) {more : List Char} {acc : Refs}
    (hmore : ∀ c ∈ more.head?, c = '\x00') (hacc : ∀ known ∈ acc, ∀ ref ∈ refs, known.1 ≠ ref.name) :
    ((refs.map (·.line more)).map Item.line).foldl Item.take acc = acc ++ (refs.filter (·.isRead)).map GitRef.pair := by
  induction refs generalizing acc with
  | nil => simp
  | cons ref refs ih =>
      obtain ⟨hnew, hdistinct⟩ := List.nodup_cons.mp hdistinct
      have hrest : ∀ known ∈ acc, ∀ ref' ∈ refs, known.1 ≠ ref'.name := fun known hknown ref' href =>
        hacc known hknown ref' (List.mem_cons_of_mem _ href)
      rw [List.map_cons, List.map_cons, List.foldl_cons]
      change List.foldl Item.take (takeLine acc (ref.line more)) _ = _
      rw [takeLine_ref ref hmore, List.filter_cons]
      split
      · rw [setRef_new fun known hknown => hacc known hknown ref List.mem_cons_self, ih hdistinct]
        · simp [GitRef.pair]
        · intro known hknown ref' href
          rcases List.mem_append.mp hknown with hknown | hknown
          · exact hrest known hknown ref' href
          · rw [List.mem_singleton.mp hknown]
            rintro heq
            exact hnew (List.mem_map.mpr ⟨ref', href, heq.symm⟩)
      · exact ih hdistinct hrest

theorem readText_whole (s : List Char) : readText (writeText s) = s := by
  have hwhole := readText_writeText s []
  rwa [List.append_nil, readText, List.append_nil] at hwhole

theorem take_service (refs : Refs) : takeLine refs (writeText "# service=git-upload-pack\n".toList) = refs := by
  simp only [takeLine, readText_whole]
  rfl

/-- The line that stands where there are no refs. -/
theorem take_none (capabilities : List Char) :
    takeLine [] (writeText (List.replicate 40 '0' ++ " capabilities^{}".toList ++ '\x00' :: capabilities ++ ['\n'])) = [] := by
  have hplain : (List.replicate 40 '0' ++ " capabilities^{}".toList ++ '\x00' :: capabilities).takeWhile (· ≠ '\x00') =
      List.replicate 40 '0' ++ " capabilities^{}".toList := by
    rw [List.takeWhile_append_of_pos (List.all_eq_true.mp (by decide +kernel)), List.takeWhile_cons_of_neg (by decide), List.append_nil]
  have hfirst : (List.replicate 40 '0' ++ " capabilities^{}".toList ++ '\x00' :: capabilities ++ ['\n']).head? ≠ some '#' := by
    rintro ⟨⟩
  simp only [takeLine, readText_whole, hfirst, if_false, List.getLast?_concat, if_true, List.dropLast_concat, hplain]
  rfl

theorem Advertisement.items_fit (a : Advertisement) : ∀ item ∈ a.items, item.Fits := by
  intro item hitem
  rcases List.mem_cons.mp hitem with rfl | hitem
  · have hlength : (writeText "# service=git-upload-pack\n".toList).length ≤ 65516 := by decide +kernel
    exact hlength
  rcases List.mem_cons.mp hitem with rfl | hitem
  · trivial
  rcases List.mem_append.mp hitem with hitem | hitem
  · obtain ⟨line, hline, rfl⟩ := List.mem_map.mp hitem
    exact a.fits line hline
  · rw [List.mem_singleton.mp hitem]
    trivial

/-- **What is read of a whole answer**: the refs under `refs/` in whose names no white space is. -/
theorem parse_whole (a : Advertisement) : parseAdvertisedRefs a.bytes = .ok ((a.refs.filter (·.isRead)).map GitRef.pair) := by
  have hbytes : a.bytes = written a.items ++ [] := (List.append_nil _).symm
  rw [hbytes, parseAdvertisedRefs, parse_items a.items_fit, parse_short _ (by decide), Advertisement.items, itemsOf, List.foldl_cons,
    List.foldl_cons, List.foldl_append]
  change Except.ok (List.foldl Item.take (takeLine [] (writeText "# service=git-upload-pack\n".toList)) _) = _
  rw [take_service]
  cases hrefs : a.refs with
  | nil =>
      change Except.ok (takeLine [] _) = _
      rw [take_none]
      rfl
  | cons ref refs =>
      have hdistinct := a.distinct
      rw [hrefs] at hdistinct
      obtain ⟨hnew, hrest⟩ := List.nodup_cons.mp hdistinct
      have hfirst : takeLine [] (ref.line ('\x00' :: a.capabilities)) = ([ref].filter (·.isRead)).map GitRef.pair := by
        rw [takeLine_ref ref (by rintro c ⟨⟩; rfl), List.filter_singleton]
        cases ref.isRead <;> rfl
      rw [linesOf, List.map_cons, List.foldl_cons]
      change Except.ok (List.foldl Item.take (takeLine [] (ref.line ('\x00' :: a.capabilities))) _) = _
      rw [hfirst, take_refs hrest (by rintro c ⟨⟩), ← List.map_append, ← List.filter_append]
      · rfl
      · intro known hknown ref' href heq
        obtain ⟨ref'', href'', rfl⟩ := List.mem_map.mp hknown
        obtain rfl := List.mem_singleton.mp (List.mem_filter.mp href'').1
        exact hnew (List.mem_map.mpr ⟨ref', href, heq.symm⟩)

/-! ### Whole or refused -/

/-- A whole answer yields the refs under `refs/` with their commits, and one that is cut off after `n` bytes is refused. -/
def ReadWhole (a : Advertisement) (n : ℕ) : Prop :=
  if n < a.bytes.length then ∃ e, parseAdvertisedRefs (a.bytes.take n) = .error e
  else parseAdvertisedRefs (a.bytes.take n) = .ok a.underRefs

theorem ReadWhole.refused {a : Advertisement} {n : ℕ} (h : ReadWhole a n) (hn : n < a.bytes.length) :
    ∃ e, parseAdvertisedRefs (a.bytes.take n) = .error e := by
  rwa [ReadWhole, if_pos hn] at h

/-- The answer is cut in a line, or it is not cut and no name under `refs/` has white space in it. -/
def Readable (a : Advertisement) (n : ℕ) : Prop :=
  if n < a.bytes.length then InLine a.items n else ∀ ref ∈ a.refs, ref.isUnderRefs = true → ∀ c ∈ ref.name, isSpace c = false

theorem underRefs_iff (a : Advertisement) : (a.refs.filter (·.isRead)).map GitRef.pair = a.underRefs ↔
    ∀ ref ∈ a.refs, ref.isUnderRefs = true → ∀ c ∈ ref.name, isSpace c = false := by
  constructor
  · intro h ref href hunder
    have hmem : ref.pair ∈ (a.refs.filter (·.isRead)).map GitRef.pair := by
      rw [h]
      exact List.mem_map.mpr ⟨ref, List.mem_filter.mpr ⟨href, hunder⟩, rfl⟩
    obtain ⟨ref', href', heq⟩ := List.mem_map.mp hmem
    have hname : ref'.name = ref.name := congrArg Prod.fst heq
    have hread := (List.mem_filter.mp href').2
    rw [GitRef.isRead, Bool.and_eq_true, hname] at hread
    simpa using hread.2
  · intro h
    have hfilter : a.refs.filter (·.isRead) = a.refs.filter (·.isUnderRefs) := by
      refine List.filter_congr fun ref href => ?_
      cases hunder : ref.isUnderRefs with
      | false => rw [GitRef.isRead, hunder, Bool.false_and]
      | true =>
          have hall : ref.name.all (!isSpace ·) = true := by simpa using h ref href hunder
          rw [GitRef.isRead, hunder, hall, Bool.and_self]
    rw [hfilter]
    rfl

/-- **An answer is read whole or refused** exactly when it is cut in a line, or is whole and has no white space in its names. -/
theorem advertisement_read_iff (a : Advertisement) (n : ℕ) : ReadWhole a n ↔ Readable a n := by
  unfold ReadWhole Readable
  split
  · rename_i hn
    constructor
    · rintro ⟨e, herror⟩
      by_contra hcut
      obtain ⟨done, -, hok⟩ := parse_between a.items_fit hn hcut []
      rw [parseAdvertisedRefs, Advertisement.bytes, hok] at herror
      cases herror
    · exact fun hcut => ⟨.truncated, parse_inLine a.items_fit hcut []⟩
  · rename_i hn
    rw [List.take_of_length_le (Nat.not_lt.mp hn), parse_whole, Except.ok.injEq]
    exact underRefs_iff a

/-- An answer that names one branch. -/
def mainOnly : Advertisement where
  refs := [⟨List.replicate 40 'a', "refs/heads/main".toList, by decide, by decide, by decide, by decide⟩]
  capabilities := "agent=git".toList
  distinct := by decide
  fits := by
    intro line hline
    obtain rfl := List.mem_singleton.mp hline
    decide +kernel

/-- What stands in front of its branch. -/
def mainOnlyOpening : List Item := [.line (writeText "# service=git-upload-pack\n".toList), .flush]

theorem length_written {items : List Item} (h : items ≠ []) : 0 < (written items).length := by
  obtain ⟨item, rest, rfl⟩ := List.exists_cons_of_ne_nil h
  rw [written, List.flatMap_cons, List.length_append, length_bytes]
  omega

theorem mainOnly_bytes : mainOnly.bytes = written mainOnlyOpening ++ written (mainOnly.items.drop 2) := by
  change written (mainOnlyOpening ++ mainOnly.items.drop 2) = _
  exact written_append _ _

/-- Cut off there, it is taken for an answer without a branch. -/
theorem cut_before_main : ¬ ∀ (a : Advertisement) (n : ℕ), ReadWhole a n := by
  intro h
  have hfit : ∀ item ∈ mainOnlyOpening, item.Fits := fun item hitem => mainOnly.items_fit item (List.mem_append_left (_ :: [_]) hitem)
  obtain ⟨n, hn⟩ : ∃ n, (written mainOnlyOpening).length = n := ⟨_, rfl⟩
  have htake : mainOnly.bytes.take n = written mainOnlyOpening := by rw [mainOnly_bytes, List.take_left' hn]
  have hlast : 0 < (written (mainOnly.items.drop 2)).length := length_written (List.cons_ne_nil _ _)
  have hlt : n < mainOnly.bytes.length := by
    rw [mainOnly_bytes, List.length_append, hn]
    exact Nat.lt_add_of_pos_right hlast
  have hok : parseAdvertisedRefs (mainOnly.bytes.take n) = .ok (mainOnlyOpening.foldl Item.take []) := by
    rw [htake, ← List.append_nil (written mainOnlyOpening), parseAdvertisedRefs, parse_items hfit]
    exact parse_short _ (by decide)
  obtain ⟨e, he⟩ := ReadWhole.refused (h _ _) hlt
  rw [hok] at he
  cases he

end Pokyh.Cluster.GitRefs
