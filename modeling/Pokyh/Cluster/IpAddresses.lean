import Pokyh.Menu.Addresses

/-!
# Cluster — IpAddresses

Which texts `net.isIP` takes for an address, and what such a text can hold.

* `isIP_chars`: the characters of an address.
* `not_both`: no text is an address of both families.
* `not_isIPv6_behind`: what stands behind `::ffff:` in an IPv6 address is not one itself.
-/

namespace Pokyh.Cluster.IpAddresses
open Pokyh.Lib Pokyh.Menu.Addresses

/-- One to four hexadecimal digits. -/
def isHextet (group : List Char) : Bool := group ≠ [] && group.length ≤ 4 && group.all fun c => (hexDigit c).isSome

/-- How many groups are written, an IPv4 address at the end as two. -/
def groupCount (groups : List (List Char)) : Option ℕ :=
  if groups.all isHextet then some groups.length
  else if groups.dropLast.all isHextet && groups.getLast?.any isIPv4 then some (groups.length + 1)
  else none

/-- Eight groups, or at most seven around a gap. -/
def isV6Body (text : List Char) : Bool :=
  match splitGaps text with
  | [whole] => groupCount (groupsOf whole) = some 8
  | [left, right] => (groupsOf left).all isHextet && (groupCount (groupsOf right)).any fun n => (groupsOf left).length + n ≤ 7
  | _ => false

def isV6Zone : List Char → Bool
  | [] => true
  | _ :: zone => zone ≠ [] && zone.all isZoneChar

/-- `net.isIPv6` -/
def isIPv6 (address : List Char) : Bool := isV6Body (address.takeWhile (· ≠ '%')) && isV6Zone (address.dropWhile (· ≠ '%'))

/-- `net.isIP` -/
def isIP (text : List Char) : ℕ := if isIPv4 text then 4 else if isIPv6 text then 6 else 0

example : isIP "::ffff:198.51.100.1".toList = 6 := by decide +kernel
example : isIP "fe80::1%eth0".toList = 6 := by decide +kernel
example : isIP "1:2:3:4:5:6:7::8".toList = 0 := by decide +kernel

/-! ### Characters -/

/-- A character that an address can hold. -/
def isAddressChar (c : Char) : Bool := isZoneChar c || c = '%'

theorem isAddressChar_hex {c : Char} (h : (hexDigit c).isSome = true) : isAddressChar c = true := by
  have hall : ∀ k < 128, (hexDigit (Char.ofNat k)).isSome = true → isAddressChar (Char.ofNat k) = true := by decide +kernel
  exact ascii_cases (P := fun c => (hexDigit c).isSome = true → isAddressChar c = true) hall (hexDigit_ascii h) h

theorem isAddressChar_zone {c : Char} (h : isZoneChar c = true) : isAddressChar c = true := by
  rw [isAddressChar, h, Bool.true_or]

theorem isHextet_chars {group : List Char} (h : isHextet group = true) {c : Char} (hc : c ∈ group) : (hexDigit c).isSome = true := by
  unfold isHextet at h
  simp only [Bool.and_eq_true] at h
  exact List.all_eq_true.mp h.2 c hc

/-- A text that is a number has digits only. -/
theorem decimal_chars {part : List Char} {P : ℕ → Bool} (h : (decimal part).any P = true) {c : Char} (hc : c ∈ part) : c.isDigit = true := by
  unfold decimal at h
  split at h
  · rename_i hdigits
    exact List.all_eq_true.mp hdigits c hc
  · cases h

theorem isOctet_chars {part : List Char} (h : isOctet part = true) {c : Char} (hc : c ∈ part) : c.isDigit = true := by
  unfold isOctet at h
  simp only [Bool.and_eq_true] at h
  exact decimal_chars h.2 hc

theorem isIPv4_chars {text : List Char} (h : isIPv4 text = true) {c : Char} (hc : c ∈ text) : c.isDigit = true ∨ c = '.' := by
  unfold isIPv4 at h
  simp only [Bool.and_eq_true] at h
  have hjoined : ['.'].intercalate (text.splitOn '.') = text := List.intercalate_splitOn '.'
  rw [← hjoined] at hc
  rcases mem_of_mem_intercalate hc with hdot | ⟨part, hpart, hc⟩
  · exact .inr hdot
  · exact .inl (isOctet_chars (List.all_eq_true.mp h.2 part hpart) hc)

theorem isAddressChar_v4 {text : List Char} (h : isIPv4 text = true) {c : Char} (hc : c ∈ text) : isAddressChar c = true := by
  rcases isIPv4_chars h hc with hdigit | rfl
  · exact isAddressChar_hex (isDigit_facts hdigit).1
  · decide

theorem groupCount_chars {groups : List (List Char)} {n : ℕ} (h : groupCount groups = some n) {group : List Char} (hgroup : group ∈ groups)
    {c : Char} (hc : c ∈ group) : isAddressChar c = true := by
  unfold groupCount at h
  split at h
  · rename_i hall
    exact isAddressChar_hex (isHextet_chars (List.all_eq_true.mp hall group hgroup) hc)
  · split at h
    · rename_i hlast
      rw [Bool.and_eq_true] at hlast
      obtain ⟨last, hend, hv4⟩ : ∃ last, groups.getLast? = some last ∧ isIPv4 last = true := by
        cases hend : groups.getLast? with
        | none =>
            rw [hend] at hlast
            cases hlast.2
        | some last =>
            rw [hend] at hlast
            exact ⟨last, rfl, hlast.2⟩
      rw [← List.dropLast_append_getLast? last hend] at hgroup
      rcases List.mem_append.mp hgroup with hgroup | hgroup
      · exact isAddressChar_hex (isHextet_chars (List.all_eq_true.mp hlast.1 group hgroup) hc)
      · rw [List.mem_singleton.mp hgroup] at hc
        exact isAddressChar_v4 hv4 hc
    · cases h

theorem groupsOf_chars {part : List Char} {c : Char} (hc : c ∈ part) : c = ':' ∨ ∃ group ∈ groupsOf part, c ∈ group := by
  have hne : part ≠ [] := List.ne_nil_of_mem hc
  rw [groupsOf, if_neg hne]
  have hjoined : [':'].intercalate (part.splitOn ':') = part := List.intercalate_splitOn ':'
  rw [← hjoined] at hc
  exact mem_of_mem_intercalate hc

theorem splitGaps_ne_nil (text : List Char) : splitGaps text ≠ [] := by
  fun_induction splitGaps text with
  | case1 => exact List.cons_ne_nil _ _
  | case2 c rest _ ih =>
      intro hnil
      exact ih (List.modifyHead_eq_nil_iff.mp hnil)
  | case3 => exact List.cons_ne_nil _ _

theorem splitGaps_chars {text : List Char} {c : Char} (hc : c ∈ text) : c = ':' ∨ ∃ part ∈ splitGaps text, c ∈ part := by
  fun_induction splitGaps text with
  | case1 rest ih =>
      rcases List.mem_cons.mp hc with rfl | hc
      · exact .inl rfl
      · rcases List.mem_cons.mp hc with rfl | hc
        · exact .inl rfl
        · rcases ih hc with hcolon | ⟨part, hpart, hmem⟩
          · exact .inl hcolon
          · exact .inr ⟨part, List.mem_cons_of_mem _ hpart, hmem⟩
  | case2 d rest _ ih =>
      obtain ⟨head, more, hsplit⟩ := List.exists_cons_of_ne_nil (splitGaps_ne_nil rest)
      rw [hsplit, List.modifyHead_cons]
      rcases List.mem_cons.mp hc with rfl | hc
      · exact .inr ⟨_, List.mem_cons_self, List.mem_cons_self⟩
      · rcases ih hc with hcolon | ⟨part, hpart, hmem⟩
        · exact .inl hcolon
        · rw [hsplit] at hpart
          rcases List.mem_cons.mp hpart with rfl | hpart
          · exact .inr ⟨_, List.mem_cons_self, List.mem_cons_of_mem _ hmem⟩
          · exact .inr ⟨part, List.mem_cons_of_mem _ hpart, hmem⟩
  | case3 => cases hc

theorem isV6Body_chars {text : List Char} (h : isV6Body text = true) {c : Char} (hc : c ∈ text) : isAddressChar c = true := by
  rcases splitGaps_chars hc with rfl | ⟨part, hpart, hmem⟩
  · decide
  rcases groupsOf_chars hmem with rfl | ⟨group, hgroup, hmem⟩
  · decide
  unfold isV6Body at h
  split at h
  · rename_i whole hsplit
    rw [hsplit, List.mem_singleton] at hpart
    subst hpart
    exact groupCount_chars (of_decide_eq_true h) hgroup hmem
  · rename_i left right hsplit
    rw [Bool.and_eq_true] at h
    rw [hsplit] at hpart
    rcases List.mem_cons.mp hpart with rfl | hpart
    · exact isAddressChar_hex (isHextet_chars (List.all_eq_true.mp h.1 group hgroup) hmem)
    · obtain rfl := List.mem_singleton.mp hpart
      cases hcount : groupCount (groupsOf part) with
      | none =>
          rw [hcount] at h
          cases h.2
      | some n => exact groupCount_chars hcount hgroup hmem
  · cases h

theorem isIPv6_chars {address : List Char} (h : isIPv6 address = true) {c : Char} (hc : c ∈ address) : isAddressChar c = true := by
  unfold isIPv6 at h
  rw [Bool.and_eq_true] at h
  rw [← List.takeWhile_append_dropWhile (p := (· ≠ '%')) (l := address)] at hc
  rcases List.mem_append.mp hc with hc | hc
  · exact isV6Body_chars h.1 hc
  · have hzone := h.2
    have hhead := List.head?_dropWhile_not (fun d : Char => decide (d ≠ '%')) address
    cases hrest : address.dropWhile (· ≠ '%') with
    | nil =>
        rw [hrest] at hc
        cases hc
    | cons d zone =>
        rw [hrest] at hc hzone hhead
        rcases List.mem_cons.mp hc with rfl | hc
        · have heq : c = '%' := by simpa using hhead
          rw [heq]
          decide
        · unfold isV6Zone at hzone
          rw [Bool.and_eq_true] at hzone
          exact isAddressChar_zone (List.all_eq_true.mp hzone.2 c hc)

/-- **The characters of an address.** -/
theorem isIP_chars {text : List Char} (h : isIP text ≠ 0) {c : Char} (hc : c ∈ text) : isAddressChar c = true := by
  unfold isIP at h
  split at h
  · rename_i hv4
    exact isAddressChar_v4 hv4 hc
  · split at h
    · rename_i hv6
      exact isIPv6_chars hv6 hc
    · exact absurd rfl h

theorem addressChar_facts {c : Char} (h : isAddressChar c = true) : c.toNat < 128 ∧ c ≠ ' ' ∧ c ≠ '\r' := by
  have hascii : c.toNat < 128 := by
    simp only [isAddressChar, Bool.or_eq_true, decide_eq_true_eq] at h
    rcases h with h | rfl
    · exact isZoneChar_ascii h
    · decide
  have hall : ∀ k < 128, isAddressChar (Char.ofNat k) = true → Char.ofNat k ≠ ' ' ∧ Char.ofNat k ≠ '\r' := by decide +kernel
  exact ⟨hascii, ascii_cases (P := fun c => isAddressChar c = true → c ≠ ' ' ∧ c ≠ '\r') hall hascii h⟩

/-! ### Families -/

theorem groupCount_one {group : List Char} {n : ℕ} (h : groupCount [group] = some n) : n ≤ 2 := by
  unfold groupCount at h
  split at h
  · have hn := Option.some.inj h
    simp at hn
    omega
  · split at h
    · have hn := Option.some.inj h
      simp at hn
      omega
    · cases h

/-- An IPv6 address has a colon. -/
theorem isV6Body_colon {text : List Char} (h : isV6Body text = true) : ':' ∈ text := by
  by_contra hno
  have hsplit : splitGaps text = [text] := by
    have happend := splitGaps_append [] hno
    rwa [List.append_nil, splitGaps, List.modifyHead_cons, List.append_nil] at happend
  unfold isV6Body at h
  rw [hsplit] at h
  have hcount : groupCount (groupsOf text) = some 8 := of_decide_eq_true h
  unfold groupsOf at hcount
  split at hcount
  · cases hcount
  · rw [List.splitOn_eq_singleton hno] at hcount
    have hle := groupCount_one hcount
    omega

/-- **No text is an address of both families.** -/
theorem not_both {text : List Char} (h : isIPv4 text = true) : isIPv6 text = false := by
  by_contra hv6
  rw [Bool.not_eq_false, isIPv6, Bool.and_eq_true] at hv6
  have hcolon := (List.takeWhile_sublist _).subset (isV6Body_colon hv6.1)
  rcases isIPv4_chars h hcolon with hdigit | hdot
  · exact absurd hdigit (by decide)
  · exact absurd hdot (by decide)

theorem groupCount_cons (group : List Char) {groups : List (List Char)} {n : ℕ} (hne : groups ≠ []) (hgroup : isHextet group = true)
    (h : groupCount groups = some n) : groupCount (group :: groups) = some (n + 1) := by
  unfold groupCount at h ⊢
  rw [List.all_cons, hgroup, Bool.true_and, List.dropLast_cons_of_ne_nil hne, List.all_cons, hgroup, Bool.true_and]
  rw [List.getLast?_cons_of_ne_nil hne]
  split at h
  · rename_i hall
    rw [if_pos hall, List.length_cons, Option.some.inj h]
  · rename_i hall
    split at h
    · rename_i hlast
      rw [if_neg hall, if_pos hlast, List.length_cons, Option.some.inj h]
    · cases h

/-- A gap, a group, and a body behind them are no body. -/
theorem not_isV6Body_behind {body : List Char} (h : isV6Body body = true) : isV6Body ("::ffff:".toList ++ body) = false := by
  have hgaps : splitGaps ("::ffff:".toList ++ body) = [] :: (splitGaps (':' :: body)).modifyHead ("ffff".toList ++ ·) := by
    have hgroup : ':' ∉ "ffff".toList := by decide
    have happend := splitGaps_append (':' :: body) hgroup
    exact congrArg ([] :: ·) happend
  cases body with
  | nil => cases h
  | cons c rest =>
      by_cases hc : c = ':'
      · -- a second gap
        subst hc
        obtain ⟨part, more, hmore⟩ := List.exists_cons_of_ne_nil (splitGaps_ne_nil rest)
        have hsplit : splitGaps (':' :: ':' :: rest) = [] :: part :: more := congrArg ([] :: ·) hmore
        rw [isV6Body, hgaps, hsplit]
        rfl
      · have hsplit : splitGaps (':' :: c :: rest) = (splitGaps (c :: rest)).modifyHead (':' :: ·) :=
          splitGaps.eq_2 ':' (c :: rest) fun r _ heq => hc (List.cons.inj heq).1
        rw [isV6Body, hgaps, hsplit]
        unfold isV6Body at h
        split at h
        · -- eight groups, and the one before them
          rename_i whole hwhole
          rw [hwhole]
          have hcount : groupCount (groupsOf whole) = some 8 := of_decide_eq_true h
          have hne : whole ≠ [] := by
            rintro rfl
            cases hcount
          have hgroups : groupsOf ("ffff".toList ++ ':' :: whole) = "ffff".toList :: groupsOf whole := by
            have hgroup : ':' ∉ "ffff".toList := by decide
            rw [groupsOf, groupsOf, if_neg hne, if_neg (by simp), List.splitOn_append_cons_self_of_not_mem hgroup]
          have hne' : groupsOf whole ≠ [] := by
            rw [groupsOf, if_neg hne]
            exact List.splitOn_ne_nil _ _
          have hnine := groupCount_cons "ffff".toList hne' (by decide) hcount
          simp only [List.modifyHead_cons]
          change ((groupsOf []).all isHextet && (groupCount (groupsOf ("ffff".toList ++ ':' :: whole))).any
            fun n => decide ((groupsOf []).length + n ≤ 7)) = false
          rw [hgroups, hnine]
          rfl
        · rename_i left right hparts
          rw [hparts]
          rfl
        · cases h

/-- **What stands behind `::ffff:` in an IPv6 address is not one itself.** -/
theorem not_isIPv6_behind {rest : List Char} (h : isIPv6 ("::ffff:".toList ++ rest) = true) : isIPv6 rest = false := by
  by_contra hrest
  rw [Bool.not_eq_false, isIPv6, Bool.and_eq_true] at hrest
  have hbody : ("::ffff:".toList ++ rest).takeWhile (· ≠ '%') = "::ffff:".toList ++ rest.takeWhile (· ≠ '%') := rfl
  rw [isIPv6, hbody, not_isV6Body_behind hrest.1, Bool.false_and] at h
  cases h

end Pokyh.Cluster.IpAddresses
