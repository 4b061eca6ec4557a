import Pokyh.Cluster.IpAddresses
import Pokyh.Lib.Streams
import Pokyh.Lib.Utf8

/-!
# Cluster — ProxyLines

The line with which a forwarder names the client of a connection (`proxyProtocol.ts`, `edge.mjs`), and the listener that reads it
off the connection's first bytes (`mtls.ts`, `acceptForwarded`).

* `parse_append`: **an answer to a beginning is the answer to every longer one**.
* `accept_chunks`: **what is passed on are the bytes behind the line, however they arrive**.
* `line_understood_iff`: when the line names the client to its reader.
-/

namespace Pokyh.Cluster.ProxyLines
open Pokyh.Lib Pokyh.Menu.Addresses Pokyh.Cluster.IpAddresses

/-! ### Lines -/

def MAX_HEADER_BYTES : ℕ := 107

inductive ProxyHeader where
  | more
  | none
  | invalid
  | ok (address : Option (List Char)) (port : Option ℕ) (length : ℕ)
  deriving DecidableEq, Repr

def PREFIX : Bytes := writeText "PROXY ".toList

/-- `data.indexOf('\r\n')` -/
def indexOfEnd : Bytes → Option ℕ
  | [] => .none
  | b :: rest => if b = 13 ∧ rest.head? = some 10 then some 0 else (indexOfEnd rest).map (· + 1)

/-- `^\d{1,5}$`, and not above 65535. -/
def isPort (text : List Char) : Bool := text ≠ [] && text.length ≤ 5 && (decimal text).any (· ≤ 65535)

/-- A line that names both ends. -/
def readNamed (family source destination sourcePort destinationPort : List Char) (length : ℕ) : ProxyHeader :=
  let expected := if family = "TCP4".toList then 4 else if family = "TCP6".toList then 6 else 0
  if expected = 0 ∨ isIP source ≠ expected ∨ isIP destination ≠ expected then .invalid
  else if !isPort sourcePort || !isPort destinationPort then .invalid
  else .ok (some source) (decimal sourcePort) length

/-- What a line says, of `length` bytes with its end. -/
def readLine (line : List Char) (length : ℕ) : ProxyHeader :=
  let parts := line.splitOn ' '
  if parts[1]? = some "UNKNOWN".toList then .ok .none .none length
  else
    match parts with
    | [_, family, source, destination, sourcePort, destinationPort] => readNamed family source destination sourcePort destinationPort length
    | _ => .invalid

def parseProxyHeader (data : Bytes) : ProxyHeader :=
  let compared := data.take (min data.length PREFIX.length)
  if PREFIX.take compared.length ≠ compared then .none
  else
    match indexOfEnd data with
    | .none => if data.length > MAX_HEADER_BYTES then .invalid else .more
    | some stop => if stop + 2 > MAX_HEADER_BYTES + 1 then .invalid else readLine ((data.take stop).map asciiChar) (stop + 2)

/-- `text.replace(/^::ffff:/, '')` -/
def unmapped (text : List Char) : List Char := if "::ffff:".toList.isPrefixOf text then text.drop 7 else text

def LINE_END : List Char := ['\r', '\n']

/-- `PROXY <family> <src> <dst> <port> <port>` -/
def namedText (family src dst : List Char) (sport dport : ℕ) : List Char :=
  "PROXY".toList ++ ' ' :: (family ++ ' ' :: (src ++ ' ' :: (dst ++ ' ' :: (Nat.toDigits 10 sport ++ ' ' :: Nat.toDigits 10 dport))))

theorem namedText_words (family src dst : List Char) (sport dport : ℕ) : namedText family src dst sport dport =
    "PROXY".toList ++ ' ' :: (family ++ ' ' :: (src ++ ' ' :: (dst ++ ' ' :: (Nat.toDigits 10 sport ++ ' ' :: Nat.toDigits 10 dport)))) := rfl

def unknownText : List Char := "PROXY UNKNOWN".toList

/-- An address and a port. -/
abbrev Side := List Char × ℕ

def formatProxyHeader (source destination : Side) : List Char :=
  let src := unmapped source.1
  let dst := unmapped destination.1
  let family := if isIP src = 6 ∨ isIP dst = 6 then "TCP6".toList else "TCP4".toList
  if isIP src = 0 ∨ isIP dst = 0 ∨ (family = "TCP6".toList ∧ (isIP src ≠ 6 ∨ isIP dst ≠ 6)) then unknownText ++ LINE_END
  else namedText family src dst source.2 destination.2 ++ LINE_END

/-- The forwarder's own copy; a socket that is gone has no address. -/
def proxyLine (client near : Option (List Char) × ℕ) : List Char :=
  let src := unmapped (client.1.getD [])
  let dst := unmapped (near.1.getD [])
  let v4 := isIPv4 src && isIPv4 dst
  let v6 := isIPv6 src && isIPv6 dst
  if !v4 && !v6 then unknownText ++ LINE_END
  else namedText (if v4 then "TCP4".toList else "TCP6".toList) src dst client.2 near.2 ++ LINE_END

/-! ### Beginnings -/

/-- The answer to a beginning, if it has one. -/
def answered (data : Bytes) : Option ProxyHeader := if parseProxyHeader data = .more then Option.none else some (parseProxyHeader data)

/-- What a beginning has of the first word is the first word's. -/
theorem compared_iff (data : Bytes) : PREFIX.take (data.take (min data.length PREFIX.length)).length = data.take (min data.length PREFIX.length) ↔
    data.take PREFIX.length <+: PREFIX := by
  have htake : data.take (min data.length PREFIX.length) = data.take PREFIX.length := by
    rw [Nat.min_comm, List.take_eq_take_min (i := PREFIX.length)]
  rw [htake, eq_comm, List.prefix_iff_eq_take]

theorem prefix_of_append {data more : Bytes} (h : (data ++ more).take PREFIX.length <+: PREFIX) : data.take PREFIX.length <+: PREFIX :=
  (List.IsPrefix.take (List.prefix_append data more) _).trans h

theorem prefix_append {data : Bytes} (h : data.take PREFIX.length <+: PREFIX) (hlong : PREFIX.length ≤ data.length) (more : Bytes) :
    (data ++ more).take PREFIX.length <+: PREFIX := by
  rwa [List.take_append_of_le_length hlong]

theorem indexOfEnd_lt {data : Bytes} {stop : ℕ} (h : indexOfEnd data = some stop) : stop + 2 ≤ data.length := by
  induction data generalizing stop with
  | nil => cases h
  | cons b rest ih =>
      rw [indexOfEnd] at h
      split at h
      · rename_i hend
        obtain rfl := Option.some.inj h
        obtain ⟨tail, rfl⟩ := List.head?_eq_some_iff.mp hend.2
        simp
      · obtain ⟨k, hk, rfl⟩ := Option.map_eq_some_iff.mp h
        have hle := ih hk
        rw [List.length_cons]
        omega

/-- The line's end stays where it is. -/
theorem indexOfEnd_append {data : Bytes} {stop : ℕ} (h : indexOfEnd data = some stop) (more : Bytes) :
    indexOfEnd (data ++ more) = some stop := by
  induction data generalizing stop with
  | nil => cases h
  | cons b rest ih =>
      rw [indexOfEnd] at h
      rw [List.cons_append, indexOfEnd]
      split at h
      · rename_i hend
        obtain ⟨tail, rfl⟩ := List.head?_eq_some_iff.mp hend.2
        rw [if_pos ⟨hend.1, rfl⟩, h]
      · rename_i hend
        obtain ⟨k, hk, rfl⟩ := Option.map_eq_some_iff.mp h
        have hne : rest ≠ [] := by
          rintro rfl
          cases hk
        rw [List.head?_append_of_ne_nil _ hne, if_neg hend, ih hk]
        rfl

/-- An end that comes later stands at the end of what was there, or behind it. -/
theorem le_indexOfEnd {data more : Bytes} {stop : ℕ} (hnone : indexOfEnd data = Option.none) (h : indexOfEnd (data ++ more) = some stop) :
    data.length ≤ stop + 1 := by
  induction data generalizing stop with
  | nil => exact Nat.zero_le _
  | cons b rest ih =>
      rw [indexOfEnd] at hnone
      rw [List.cons_append, indexOfEnd] at h
      split at hnone
      · cases hnone
      · rename_i hend
        split at h
        · rename_i hend'
          cases rest with
          | nil => simp
          | cons c rest => exact absurd hend' hend
        · obtain ⟨k, hk, rfl⟩ := Option.map_eq_some_iff.mp h
          have hle := ih (Option.map_eq_none_iff.mp hnone) hk
          rw [List.length_cons]
          omega

/-- The end stands behind a line without one. -/
theorem indexOfEnd_line {line : Bytes} (h : 13 ∉ line) (rest : Bytes) : indexOfEnd (line ++ 13 :: 10 :: rest) = some line.length := by
  induction line with
  | nil => rfl
  | cons b line ih =>
      obtain ⟨hb, hline⟩ := not_or.mp (List.mem_cons.not.mp h)
      rw [List.cons_append, indexOfEnd, if_neg fun hend => hb hend.1.symm, ih hline]
      rfl

theorem mem_of_indexOfEnd {data : Bytes} {stop : ℕ} (h : indexOfEnd data = some stop) : 13 ∈ data := by
  induction data generalizing stop with
  | nil => cases h
  | cons b rest ih =>
      rw [indexOfEnd] at h
      split at h
      · rename_i hend
        rw [hend.1]
        exact List.mem_cons_self
      · obtain ⟨k, hk, -⟩ := Option.map_eq_some_iff.mp h
        exact List.mem_cons_of_mem _ (ih hk)

/-- What is read, case by case. -/
theorem parse_cases (data : Bytes) :
    (¬ data.take PREFIX.length <+: PREFIX ∧ parseProxyHeader data = .none) ∨
    (data.take PREFIX.length <+: PREFIX ∧ indexOfEnd data = Option.none ∧ data.length > MAX_HEADER_BYTES ∧ parseProxyHeader data = .invalid) ∨
    (data.take PREFIX.length <+: PREFIX ∧ indexOfEnd data = Option.none ∧ data.length ≤ MAX_HEADER_BYTES ∧ parseProxyHeader data = .more) ∨
    ∃ stop, data.take PREFIX.length <+: PREFIX ∧ indexOfEnd data = some stop ∧ parseProxyHeader data =
      if stop + 2 > MAX_HEADER_BYTES + 1 then .invalid else readLine ((data.take stop).map asciiChar) (stop + 2) := by
  unfold parseProxyHeader
  by_cases hopens : data.take PREFIX.length <+: PREFIX
  · right
    have heq := (compared_iff data).mpr hopens
    simp only [ne_eq, heq, not_true_eq_false, if_false]
    cases hend : indexOfEnd data with
    | none =>
        by_cases hlong : data.length > MAX_HEADER_BYTES
        · exact .inl ⟨hopens, rfl, hlong, if_pos hlong⟩
        · exact .inr (.inl ⟨hopens, rfl, Nat.not_lt.mp hlong, if_neg hlong⟩)
    | some stop => exact .inr (.inr ⟨stop, hopens, rfl, rfl⟩)
  · exact .inl ⟨hopens, if_pos fun heq => hopens ((compared_iff data).mp heq)⟩

/-- An answer that is final, and as long as its line. -/
def Final (length : ℕ) (h : ProxyHeader) : Prop := h ≠ .more ∧ ∀ address port n, h = .ok address port n → n = length

theorem invalid_final (length : ℕ) : Final length .invalid := ⟨nofun, nofun⟩

theorem ok_final (address : Option (List Char)) (port : Option ℕ) (length : ℕ) : Final length (.ok address port length) := by
  refine ⟨nofun, fun _ _ n h => ?_⟩
  cases h
  rfl

theorem readNamed_final (family source destination sourcePort destinationPort : List Char) (length : ℕ) :
    Final length (readNamed family source destination sourcePort destinationPort length) := by
  unfold readNamed
  extract_lets expected
  split
  · exact invalid_final length
  · split
    · exact invalid_final length
    · exact ok_final _ _ _

/-- A line is never waited for once its end is there. -/
theorem readLine_final (line : List Char) (length : ℕ) : Final length (readLine line length) := by
  unfold readLine
  dsimp only
  split
  · exact ok_final _ _ _
  · split
    · exact readNamed_final _ _ _ _ _ _
    · exact invalid_final length

/-- A beginning with the line's end has the first word whole. -/
theorem prefix_length {data : Bytes} {stop : ℕ} (hopens : data.take PREFIX.length <+: PREFIX) (hend : indexOfEnd data = some stop) :
    PREFIX.length ≤ data.length := by
  by_contra hshort
  have hall : data.take PREFIX.length = data := List.take_of_length_le (Nat.not_le.mp hshort).le
  rw [hall] at hopens
  have hmem := hopens.subset (mem_of_indexOfEnd hend)
  revert hmem
  decide

/-- **An answer to a beginning is the answer to every longer one.** -/
theorem parse_append {data : Bytes} (h : parseProxyHeader data ≠ .more) (more : Bytes) :
    parseProxyHeader (data ++ more) = parseProxyHeader data := by
  rcases parse_cases data with ⟨hno, heq⟩ | ⟨hopens, hend, hlong, heq⟩ | ⟨-, -, -, heq⟩ | ⟨stop, hopens, hend, heq⟩
  · -- another first word
    rw [heq]
    rcases parse_cases (data ++ more) with ⟨-, heq'⟩ | ⟨hopens, -⟩ | ⟨hopens, -⟩ | ⟨stop, hopens, -⟩
    · exact heq'
    all_goals exact absurd (prefix_of_append hopens) hno
  · -- a line without an end that is too long already
    rw [heq]
    have hlonger : (data ++ more).length > MAX_HEADER_BYTES := by
      rw [List.length_append]
      omega
    have hwhole : PREFIX.length ≤ data.length := le_trans (by decide) hlong.le
    rcases parse_cases (data ++ more) with ⟨hno, -⟩ | ⟨-, -, -, heq'⟩ | ⟨-, -, hshort, -⟩ | ⟨stop, -, hend', heq'⟩
    · exact absurd (prefix_append hopens hwhole more) hno
    · exact heq'
    · exact absurd hlonger (Nat.not_lt.mpr hshort)
    · have hle := le_indexOfEnd hend hend'
      rw [heq', if_pos (by omega)]
  · exact absurd heq h
  · have hend' := indexOfEnd_append hend more
    have hstop := indexOfEnd_lt hend
    rcases parse_cases (data ++ more) with ⟨hno, -⟩ | ⟨-, hnone, -⟩ | ⟨-, hnone, -⟩ | ⟨stop', -, hsome, heq'⟩
    · exact absurd (prefix_append hopens (prefix_length hopens hend) more) hno
    · rw [hend'] at hnone
      cases hnone
    · rw [hend'] at hnone
      cases hnone
    · obtain rfl := Option.some.inj (hend'.symm.trans hsome)
      rw [heq', heq, List.take_append_of_le_length (by omega)]

theorem answered_steady : Steady answered := by
  intro data more answer h
  unfold answered at h ⊢
  split at h
  · cases h
  · rename_i hmore
    rw [parse_append hmore, if_neg hmore]
    exact h

/-- A line that is read lies inside what is there. -/
theorem length_le {data : Bytes} {address : Option (List Char)} {port : Option ℕ} {n : ℕ} (h : parseProxyHeader data = .ok address port n) :
    n ≤ data.length := by
  rcases parse_cases data with ⟨-, heq⟩ | ⟨-, -, -, heq⟩ | ⟨-, -, -, heq⟩ | ⟨stop, -, hend, heq⟩
  · rw [heq] at h
    cases h
  · rw [heq] at h
    cases h
  · rw [heq] at h
    cases h
  · rw [heq] at h
    split at h
    · cases h
    · rw [(readLine_final _ _).2 _ _ _ h]
      exact indexOfEnd_lt hend

/-! ### The listener -/

/-- What the listener knows of a connection: who it is from, whether that is a trusted forwarder or the node itself, the client it is for
where it comes from a relay, and whether TLS is there to take it. -/
structure Connection where
  remoteAddress : Option (List Char)
  isAllowed : Bool
  isLoopback : Bool
  clientAddressOf : Option (List Char)
  ready : Bool

inductive Accepting where
  | reading (head : Bytes)
  | destroyed
  /-- TLS runs, for a client, on these bytes so far. -/
  | passing (address : Option (List Char)) (bytes : Bytes)

/-- What is done about the first bytes. -/
def judge (c : Connection) (parsed : ProxyHeader) (head : Bytes) : Accepting :=
  match parsed with
  | .more => .reading head
  | .ok address _ length =>
    if !c.isAllowed || !c.ready then .destroyed else .passing (address.or c.remoteAddress) (head.drop length)
  | .none => if !c.isLoopback || !c.ready then .destroyed else .passing c.clientAddressOf head
  | .invalid => .destroyed

/-- `onData`, and the stream that replays what is left of the bytes that were read. -/
def acceptForwarded (c : Connection) : Accepting → Bytes → Accepting
  | .reading head, chunk => judge c (parseProxyHeader (head ++ chunk)) (head ++ chunk)
  | .destroyed, _ => .destroyed
  | .passing address bytes, chunk => .passing address (bytes ++ chunk)

/-- What a connection has come to, by what its reader has. -/
def outcome (c : Connection) : Intake UInt8 ProxyHeader → Accepting
  | .waiting head => .reading head
  | .done answer head later =>
    match judge c answer head with
    | .passing address bytes => .passing address (bytes ++ later)
    | other => other

theorem answered_none {data : Bytes} (h : answered data = Option.none) : parseProxyHeader data = .more := by
  unfold answered at h
  split at h
  · assumption
  · cases h

theorem answered_some {data : Bytes} {answer : ProxyHeader} (h : answered data = some answer) : parseProxyHeader data = answer ∧ answer ≠ .more := by
  unfold answered at h
  split at h
  · cases h
  · rename_i hmore
    obtain rfl := Option.some.inj h
    exact ⟨rfl, hmore⟩

theorem judge_reading {c : Connection} {answer : ProxyHeader} {head head' : Bytes} (h : answer ≠ .more) : judge c answer head ≠ .reading head' := by
  unfold judge
  split
  · exact absurd rfl h
  · split <;> exact nofun
  · split <;> exact nofun
  · exact nofun

/-- The listener is a reader of its connection. -/
theorem accept_take (c : Connection) {i : Intake UInt8 ProxyHeader} (hi : i.Sound answered) (chunk : Bytes) :
    acceptForwarded c (outcome c i) chunk = outcome c (i.take answered chunk) := by
  cases i with
  | waiting head =>
      rcases take_waiting answered head chunk with ⟨hnone, heq⟩ | ⟨answer, hsome, heq⟩
      · rw [heq, outcome, acceptForwarded, answered_none hnone]
        rfl
      · rw [heq, outcome, acceptForwarded, (answered_some hsome).1]
        cases hjudge : judge c answer (head ++ chunk) with
        | passing address bytes => simp only [outcome, hjudge, List.append_nil]
        | destroyed => simp only [outcome, hjudge]
        | reading held => exact absurd hjudge (judge_reading (answered_some hsome).2)
  | done answer head later =>
      cases hjudge : judge c answer head with
      | passing address bytes => simp only [outcome, Intake.take, hjudge, acceptForwarded, List.append_assoc]
      | destroyed => simp only [outcome, Intake.take, hjudge, acceptForwarded]
      | reading held => exact absurd hjudge (judge_reading (answered_some hi).2)

/-- What is done about the first bytes of a stream is done about the stream. -/
theorem outcome_done (c : Connection) {answer : ProxyHeader} {head : Bytes} (h : answered head = some answer) (later : Bytes) :
    outcome c (.done answer head later) = judge c answer (head ++ later) := by
  obtain ⟨hparse, hmore⟩ := answered_some h
  cases answer with
  | more => exact absurd rfl hmore
  | invalid => rfl
  | none =>
      by_cases hrefused : (!c.isLoopback || !c.ready) = true
      · simp only [outcome, judge, if_pos hrefused]
      · simp only [outcome, judge, if_neg hrefused]
  | ok address port n =>
      have hle := length_le hparse
      by_cases hrefused : (!c.isAllowed || !c.ready) = true
      · simp only [outcome, judge, if_pos hrefused]
      · simp only [outcome, judge, if_neg hrefused, List.drop_append_of_le_length hle]

/-- **What is passed on are the bytes behind the line, however they arrive.** -/
theorem accept_chunks (c : Connection) (chunks : List Bytes) :
    chunks.foldl (acceptForwarded c) (.reading []) = judge c (parseProxyHeader chunks.flatten) chunks.flatten := by
  have hrun : ∀ chunks : List Bytes, chunks.foldl (acceptForwarded c) (.reading []) = outcome c (intake answered chunks) := by
    intro chunks
    induction chunks using List.reverseRecOn with
    | nil => rfl
    | append_singleton chunks chunk ih =>
        rw [List.foldl_append, List.foldl_cons, List.foldl_nil, ih, accept_take c (sound_intake rfl chunks), intake, intake,
          List.foldl_append]
        rfl
  rw [hrun]
  cases hanswer : answered chunks.flatten with
  | none =>
      rw [intake_waiting answered_steady rfl hanswer, answered_none hanswer]
      rfl
  | some answer =>
      obtain ⟨head, later, hdone, hall, hhead⟩ := intake_done answered_steady rfl hanswer
      rw [hdone, outcome_done c hhead, hall, (answered_some hanswer).1]

/-! ### Both ends -/

/-- An end of a connection. -/
structure End where
  address : List Char
  port : ℕ
  is_address : isIP address ≠ 0
  is_port : port ≤ 65535

/-- The address that a socket's text stands for: the IPv4 address where one is mapped. -/
def meant (text : List Char) : List Char :=
  if "::ffff:".toList.isPrefixOf text ∧ isIPv4 (text.drop 7) then text.drop 7 else text

/-- An IPv6 address that begins like a mapped IPv4 address and is none. -/
def Mangled (text : List Char) : Prop := "::ffff:".toList.isPrefixOf text = true ∧ isIPv4 (text.drop 7) = false

def sourceOf (s : End) : Side := (s.address, s.port)

/-- Both forwarders write the same line, and it is read as what it says: the source, or none where the families differ. -/
def Understood (s d : End) (rest : Bytes) : Prop :=
  let line := formatProxyHeader (sourceOf s) (sourceOf d)
  proxyLine (some s.address, s.port) (some d.address, d.port) = line ∧
    parseProxyHeader (writeText line ++ rest) =
      if isIP (meant s.address) = isIP (meant d.address) then .ok (some (meant s.address)) (some s.port) (writeText line).length
      else .ok .none .none (writeText line).length

theorem isIP_cases (text : List Char) : (isIP text = 0 ∧ isIPv4 text = false ∧ isIPv6 text = false) ∨
    (isIP text = 4 ∧ isIPv4 text = true ∧ isIPv6 text = false) ∨ (isIP text = 6 ∧ isIPv4 text = false ∧ isIPv6 text = true) := by
  unfold isIP
  cases h4 : isIPv4 text with
  | true => exact .inr (.inl ⟨rfl, rfl, not_both h4⟩)
  | false =>
      cases h6 : isIPv6 text with
      | true => exact .inr (.inr ⟨rfl, rfl, rfl⟩)
      | false => exact .inl ⟨rfl, rfl, rfl⟩

/-- **Both forwarders write the same line.** -/
theorem writers_agree (source destination : Side) :
    proxyLine (some source.1, source.2) (some destination.1, destination.2) = formatProxyHeader source destination := by
  unfold proxyLine formatProxyHeader
  dsimp only [Option.getD_some]
  rcases isIP_cases (unmapped source.1) with ⟨h, h4, h6⟩ | ⟨h, h4, h6⟩ | ⟨h, h4, h6⟩ <;>
    rcases isIP_cases (unmapped destination.1) with ⟨h', h4', h6'⟩ | ⟨h', h4', h6'⟩ | ⟨h', h4', h6'⟩ <;>
    simp [h, h4, h6, h', h4', h6']

/-- The family of two ends that have one. -/
def familyOf (n : ℕ) : List Char := if n = 6 then "TCP6".toList else "TCP4".toList

theorem format_same {source destination : Side} (hsame : isIP (unmapped source.1) = isIP (unmapped destination.1))
    (hsource : isIP (unmapped source.1) ≠ 0) : formatProxyHeader source destination =
      namedText (familyOf (isIP (unmapped source.1))) (unmapped source.1) (unmapped destination.1) source.2 destination.2 ++ LINE_END := by
  unfold formatProxyHeader familyOf
  dsimp only
  rcases isIP_cases (unmapped source.1) with ⟨h, -⟩ | ⟨h, -⟩ | ⟨h, -⟩
  · exact absurd h hsource
  all_goals
    rw [h] at hsame
    simp [h, ← hsame]

theorem format_unknown {source destination : Side} (h : isIP (unmapped source.1) = 0 ∨ isIP (unmapped destination.1) = 0 ∨
    isIP (unmapped source.1) ≠ isIP (unmapped destination.1)) : formatProxyHeader source destination = unknownText ++ LINE_END := by
  unfold formatProxyHeader
  dsimp only
  rcases isIP_cases (unmapped source.1) with ⟨hs, -⟩ | ⟨hs, -⟩ | ⟨hs, -⟩ <;>
    rcases isIP_cases (unmapped destination.1) with ⟨hd, -⟩ | ⟨hd, -⟩ | ⟨hd, -⟩ <;>
    simp_all

theorem unmapped_eq {text : List Char} (h : ¬ Mangled text) : unmapped text = meant text := by
  unfold unmapped meant
  split
  · rename_i hopens
    have hv4 : isIPv4 (text.drop 7) = true := by
      by_contra hno
      exact h ⟨hopens, Bool.not_eq_true _ ▸ hno⟩
    rw [if_pos ⟨hopens, hv4⟩]
  · rename_i hopens
    exact (if_neg fun hboth => hopens hboth.1).symm

theorem isIP_meant {text : List Char} (h : isIP text ≠ 0) : isIP (meant text) ≠ 0 := by
  unfold meant
  split
  · rename_i hboth
    rw [isIP, if_pos hboth.2]
    decide
  · exact h

/-- **Nothing that is an address is left of such a text.** -/
theorem unmapped_mangled {text : List Char} (h : isIP text ≠ 0) (hm : Mangled text) : isIP (unmapped text) = 0 := by
  obtain ⟨rest, rfl⟩ := List.isPrefixOf_iff_prefix.mp hm.1
  have hrest : ("::ffff:".toList ++ rest).drop 7 = rest := rfl
  have hv4 : isIPv4 rest = false := hm.2
  rw [unmapped, if_pos hm.1, hrest]
  rcases isIP_cases ("::ffff:".toList ++ rest) with ⟨hzero, -⟩ | ⟨-, h4, -⟩ | ⟨-, -, h6⟩
  · exact absurd hzero h
  · rcases isIPv4_chars h4 (c := ':') (List.mem_append_left _ (by decide)) with hdigit | hdot
    · exact absurd hdigit (by decide)
    · exact absurd hdot (by decide)
  · rw [isIP, hv4, not_isIPv6_behind h6]
    rfl

/-! ### What is read of a line -/

theorem parse_line {line : List Char} (hchars : ∀ c ∈ line, c.toNat < 128 ∧ c ≠ '\r') (hopens : "PROXY ".toList <+: line) (rest : Bytes) :
    parseProxyHeader (writeText (line ++ LINE_END) ++ rest) =
      if line.length + 2 > MAX_HEADER_BYTES + 1 then .invalid else readLine line (line.length + 2) := by
  have hascii : ∀ c ∈ line, c.toNat < 128 := fun c hc => (hchars c hc).1
  have hlength : (writeText line).length = line.length := by rw [writeText_ascii hascii, List.length_map]
  have hbytes : writeText (line ++ LINE_END) ++ rest = writeText line ++ 13 :: 10 :: rest := by
    rw [writeText_append, List.append_assoc]
    rfl
  have hno : (13 : UInt8) ∉ writeText line := by
    rw [writeText_ascii hascii]
    intro hmem
    obtain ⟨c, hc, hcode⟩ := List.mem_map.mp hmem
    have hcode' := congrArg UInt8.toNat hcode
    rw [toNat_ofNat (by have := hascii c hc; omega)] at hcode'
    exact (hchars c hc).2 (Char.ext (UInt32.toNat_inj.mp hcode'))
  have hstart : (writeText (line ++ LINE_END) ++ rest).take PREFIX.length <+: PREFIX := by
    obtain ⟨more, rfl⟩ := hopens
    rw [hbytes, writeText_append, List.append_assoc]
    exact (List.take_left' rfl) ▸ List.prefix_refl _
  have hend : indexOfEnd (writeText (line ++ LINE_END) ++ rest) = some line.length := by
    rw [hbytes, ← hlength]
    exact indexOfEnd_line hno rest
  have htake : (writeText (line ++ LINE_END) ++ rest).take line.length = writeText line := by
    rw [hbytes]
    exact List.take_left' hlength
  rcases parse_cases (writeText (line ++ LINE_END) ++ rest) with ⟨h, -⟩ | ⟨-, h, -⟩ | ⟨-, h, -⟩ | ⟨stop, -, h, heq⟩
  · exact absurd hstart h
  · rw [hend] at h
    cases h
  · rw [hend] at h
    cases h
  · obtain rfl := Option.some.inj (hend.symm.trans h)
    rw [heq, htake, readAscii_writeText hascii]

theorem isPort_toDigits {n : ℕ} (h : n ≤ 65535) : isPort (Nat.toDigits 10 n) = true := by
  have hlength : (Nat.toDigits 10 n).length ≤ 5 := (Nat.length_toDigits_le_iff (by decide) (by decide)).mpr (by omega)
  rw [isPort, decimal_toDigits]
  simp [hlength, h, Nat.toDigits_ne_nil]

theorem readNamed_addresses {family : ℕ} {src dst : List Char} (hsrc : isIP src = family) (hdst : isIP dst = family) (hfamily : family ≠ 0)
    {sport dport : ℕ} (hs : sport ≤ 65535) (hd : dport ≤ 65535) (length : ℕ) :
    readNamed (familyOf family) src dst (Nat.toDigits 10 sport) (Nat.toDigits 10 dport) length = .ok (some src) (some sport) length := by
  have hexpected : (if familyOf family = "TCP4".toList then 4 else if familyOf family = "TCP6".toList then 6 else 0) = family := by
    rcases isIP_cases src with ⟨h, -⟩ | ⟨h, -⟩ | ⟨h, -⟩
    · exact absurd (hsrc.symm.trans h) hfamily
    all_goals
      obtain rfl := hsrc.symm.trans h
      rfl
  unfold readNamed
  rw [hexpected, if_neg (by simp [hsrc, hdst, hfamily]), isPort_toDigits hs, isPort_toDigits hd, decimal_toDigits]
  rfl

theorem not_blank_digits (n : ℕ) : ' ' ∉ Nat.toDigits 10 n := fun h => absurd (isDigit_toDigits h) (by decide)

theorem not_blank_address {text : List Char} (h : isIP text ≠ 0) : ' ' ∉ text := fun hmem => (addressChar_facts (isIP_chars h hmem)).2.1 rfl

theorem familyOf_facts (n : ℕ) : ' ' ∉ familyOf n ∧ familyOf n ≠ "UNKNOWN".toList ∧ (familyOf n).length = 4 ∧
    ∀ c ∈ familyOf n, c.toNat < 128 ∧ c ≠ '\r' := by
  unfold familyOf
  split
  · exact ⟨by decide, by decide, rfl, forall_of_all (by decide +kernel)⟩
  · exact ⟨by decide, by decide, rfl, forall_of_all (by decide +kernel)⟩

/-- **A line that names two ends is read as the first one.** -/
theorem readLine_named {family : ℕ} {src dst : List Char} (hsrc : isIP src = family) (hdst : isIP dst = family) (hfamily : family ≠ 0)
    {sport dport : ℕ} (hs : sport ≤ 65535) (hd : dport ≤ 65535) (length : ℕ) :
    readLine (namedText (familyOf family) src dst sport dport) length = .ok (some src) (some sport) length := by
  have hword : ' ' ∉ "PROXY".toList := by decide
  have hparts : (namedText (familyOf family) src dst sport dport).splitOn ' ' =
      ["PROXY".toList, familyOf family, src, dst, Nat.toDigits 10 sport, Nat.toDigits 10 dport] := by
    rw [namedText_words, List.splitOn_append_cons_self_of_not_mem hword, List.splitOn_append_cons_self_of_not_mem (familyOf_facts family).1,
      List.splitOn_append_cons_self_of_not_mem (not_blank_address (hsrc ▸ hfamily)),
      List.splitOn_append_cons_self_of_not_mem (not_blank_address (hdst ▸ hfamily)),
      List.splitOn_append_cons_self_of_not_mem (not_blank_digits _), List.splitOn_eq_singleton (not_blank_digits _)]
  have hknown : ¬ some (familyOf family) = some "UNKNOWN".toList := fun heq => (familyOf_facts family).2.1 (Option.some.inj heq)
  unfold readLine
  dsimp only
  rw [hparts]
  simp only [List.getElem?_cons_succ, List.getElem?_cons_zero]
  rw [if_neg hknown]
  exact readNamed_addresses hsrc hdst hfamily hs hd length

theorem namedText_chars {family : ℕ} {src dst : List Char} (hsrc : isIP src ≠ 0) (hdst : isIP dst ≠ 0) {sport dport : ℕ} {c : Char}
    (hc : c ∈ namedText (familyOf family) src dst sport dport) : c.toNat < 128 ∧ c ≠ '\r' := by
  have hword : ∀ c ∈ "PROXY".toList, c.toNat < 128 ∧ c ≠ '\r' := forall_of_all (by decide +kernel)
  have haddress : ∀ {text}, isIP text ≠ 0 → ∀ c ∈ text, c.toNat < 128 ∧ c ≠ '\r' := fun h c hc =>
    ⟨(addressChar_facts (isIP_chars h hc)).1, (addressChar_facts (isIP_chars h hc)).2.2⟩
  have hdigits : ∀ n, ∀ c ∈ Nat.toDigits 10 n, c.toNat < 128 ∧ c ≠ '\r' := fun n c hc => by
    have hdigit := isDigit_toDigits hc
    refine ⟨(isDigit_facts hdigit).2.2.2, ?_⟩
    rintro rfl
    exact absurd hdigit (by decide)
  have hblank : (' ' : Char).toNat < 128 ∧ ' ' ≠ '\r' := by decide
  simp only [namedText_words, List.mem_append, List.mem_cons] at hc
  rcases hc with hc | rfl | hc | rfl | hc | rfl | hc | rfl | hc | rfl | hc
  · exact hword c hc
  · exact hblank
  · exact (familyOf_facts family).2.2.2 c hc
  · exact hblank
  · exact haddress hsrc c hc
  · exact hblank
  · exact haddress hdst c hc
  · exact hblank
  · exact hdigits _ c hc
  · exact hblank
  · exact hdigits _ c hc

theorem namedText_length (family : ℕ) (src dst : List Char) (sport dport : ℕ) : (namedText (familyOf family) src dst sport dport).length =
    14 + src.length + dst.length + (Nat.toDigits 10 sport).length + (Nat.toDigits 10 dport).length := by
  have hword : "PROXY".toList.length = 5 := rfl
  simp only [namedText_words, List.length_append, List.length_cons, (familyOf_facts family).2.2.1, hword]
  omega

theorem parse_unknown (rest : Bytes) : parseProxyHeader (writeText (unknownText ++ LINE_END) ++ rest) = .ok .none .none 15 := by
  have hchars : ∀ c ∈ unknownText, c.toNat < 128 ∧ c ≠ '\r' := forall_of_all (by decide +kernel)
  rw [parse_line hchars (by decide) rest]
  decide +kernel

/-- What decides whether a line is understood: where the families agree, neither text may be mangled, nor the line be too long. -/
def Plain (s d : End) : Prop :=
  isIP (meant s.address) = isIP (meant d.address) → ¬ Mangled s.address ∧ ¬ Mangled d.address ∧
    (meant s.address).length + (meant d.address).length + (Nat.toDigits 10 s.port).length + (Nat.toDigits 10 d.port).length ≤ 92

/-- A line that names no one says so. -/
theorem understood_unknown {s d : End} (hformat : formatProxyHeader (sourceOf s) (sourceOf d) = unknownText ++ LINE_END) (rest : Bytes) :
    Understood s d rest ↔ isIP (meant s.address) ≠ isIP (meant d.address) := by
  have hlength : (writeText (unknownText ++ LINE_END)).length = 15 := by decide
  unfold Understood
  dsimp only
  rw [hformat, parse_unknown, hlength]
  constructor
  · rintro ⟨-, hparse⟩ hsame
    rw [if_pos hsame] at hparse
    cases hparse
  · intro hdiffer
    refine ⟨(writers_agree (sourceOf s) (sourceOf d)).trans hformat, ?_⟩
    rw [if_neg hdiffer]

/-- A line that names both ends is read unless it is too long. -/
theorem understood_named {s d : End} (hs : ¬ Mangled s.address) (hd : ¬ Mangled d.address)
    (hsame : isIP (meant s.address) = isIP (meant d.address)) (rest : Bytes) : Understood s d rest ↔
      (meant s.address).length + (meant d.address).length + (Nat.toDigits 10 s.port).length + (Nat.toDigits 10 d.port).length ≤ 92 := by
  have hsource : isIP (meant s.address) ≠ 0 := isIP_meant s.is_address
  have hformat : formatProxyHeader (sourceOf s) (sourceOf d) =
      namedText (familyOf (isIP (meant s.address))) (meant s.address) (meant d.address) s.port d.port ++ LINE_END := by
    rw [← unmapped_eq hs, ← unmapped_eq hd] at hsame ⊢
    exact format_same hsame (unmapped_eq hs ▸ hsource)
  have hchars : ∀ c ∈ namedText (familyOf (isIP (meant s.address))) (meant s.address) (meant d.address) s.port d.port, c.toNat < 128 ∧ c ≠ '\r' :=
    fun c hc => namedText_chars hsource (isIP_meant d.is_address) hc
  have hlength := namedText_length (isIP (meant s.address)) (meant s.address) (meant d.address) s.port d.port
  have hread : ∀ n, readLine (namedText (familyOf (isIP (meant s.address))) (meant s.address) (meant d.address) s.port d.port) n =
      .ok (some (meant s.address)) (some s.port) n := readLine_named rfl hsame.symm hsource s.is_port d.is_port
  have hopens : "PROXY ".toList <+: namedText (familyOf (isIP (meant s.address))) (meant s.address) (meant d.address) s.port d.port :=
    ⟨_, List.append_assoc "PROXY".toList [' '] _⟩
  generalize namedText (familyOf (isIP (meant s.address))) (meant s.address) (meant d.address) s.port d.port = line at *
  have hbytes : (writeText (line ++ LINE_END)).length = line.length + 2 := by
    have hend : (writeText LINE_END).length = 2 := rfl
    rw [writeText_append, List.length_append, writeText_ascii fun c hc => (hchars c hc).1, List.length_map, hend]
  have hlimit : MAX_HEADER_BYTES + 1 = 108 := rfl
  unfold Understood
  dsimp only
  rw [hformat, hbytes, parse_line hchars hopens, if_pos hsame, hlimit, hlength]
  constructor
  · rintro ⟨-, hparse⟩
    split at hparse
    · cases hparse
    · omega
  · intro hfits
    refine ⟨(writers_agree (sourceOf s) (sourceOf d)).trans hformat, ?_⟩
    rw [if_neg (by omega)]
    exact hread _

/-- **The line is understood** where no address is mangled and the line is not too long; a beginning that is answered is answered as the
whole; and what is passed on are the bytes behind the line. -/
theorem line_understood_iff (s d : End) (rest : Bytes) : (Understood s d rest ↔ Plain s d) ∧
    (∀ data more, parseProxyHeader data ≠ .more → parseProxyHeader (data ++ more) = parseProxyHeader data) ∧
    ∀ c (chunks : List Bytes), chunks.foldl (acceptForwarded c) (.reading []) = judge c (parseProxyHeader chunks.flatten) chunks.flatten := by
  refine ⟨?_, fun data more h => parse_append h more, accept_chunks⟩
  by_cases hsame : isIP (meant s.address) = isIP (meant d.address)
  · by_cases hs : Mangled s.address
    · have hzero := unmapped_mangled s.is_address hs
      rw [understood_unknown (format_unknown (.inl hzero))]
      exact ⟨fun h => absurd hsame h, fun h => absurd hs (h hsame).1⟩
    by_cases hd : Mangled d.address
    · have hzero := unmapped_mangled d.is_address hd
      rw [understood_unknown (format_unknown (.inr (.inl hzero)))]
      exact ⟨fun h => absurd hsame h, fun h => absurd hd (h hsame).2.1⟩
    rw [understood_named hs hd hsame]
    exact ⟨fun h _ => ⟨hs, hd, h⟩, fun h => (h hsame).2.2⟩
  · have hformat : formatProxyHeader (sourceOf s) (sourceOf d) = unknownText ++ LINE_END := by
      by_cases hs : Mangled s.address
      · exact format_unknown (.inl (unmapped_mangled s.is_address hs))
      by_cases hd : Mangled d.address
      · exact format_unknown (.inr (.inl (unmapped_mangled d.is_address hd)))
      refine format_unknown (.inr (.inr ?_))
      change isIP (unmapped s.address) ≠ isIP (unmapped d.address)
      rwa [unmapped_eq hs, unmapped_eq hd]
    rw [understood_unknown hformat]
    exact ⟨fun _ h => absurd h hsame, fun _ => hsame⟩

/-- A translated address, whose text begins like a mapped one. -/
def translated : End := ⟨"::ffff:0:102:304".toList, 51234, by decide +kernel, by decide⟩

def channel : End := ⟨"2001:db8::1".toList, 4100, by decide +kernel, by decide⟩

/-- The client behind a translated address is lost. -/
theorem translated_lost : formatProxyHeader (sourceOf translated) (sourceOf channel) = unknownText ++ LINE_END ∧
    ¬ ∀ s d rest, Understood s d rest := by
  have hformat : formatProxyHeader (sourceOf translated) (sourceOf channel) = unknownText ++ LINE_END := by decide +kernel
  have hsame : isIP (meant translated.address) = isIP (meant channel.address) := by decide +kernel
  exact ⟨hformat, fun h => (understood_unknown hformat []).mp (h translated channel []) hsame⟩

end Pokyh.Cluster.ProxyLines
