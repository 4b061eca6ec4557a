import Pokyh.Cluster.Joining

/-!
# Cluster — Transcripts

What the two handshakes hash and put under their tags (`pairInitTranscript`, `pairKeys`, `sessionInitTranscript` and
`sessionFullTranscript` of `crypto.ts`), before it is hashed.

* `transcripts_unambiguous`: **a transcript tells all that went into it**, with or without the certificates' pins.
-/

namespace Pokyh.Cluster.Pairing
open Pokyh.Lib

/-! ### The fields -/

def pairInitFields (init : PairInit) : List Bytes :=
  [utf8 "pair-init", utf8 (if init.tls.isSome then "3" else "2"), utf8 init.from, utf8 init.name, utf8 init.addr, init.salt,
    init.e, init.n] ++ (bindingFields init.tls).map utf8

def pairAcceptFields (accept : PairAccept) : List Bytes :=
  [utf8 "pair-accept", utf8 accept.id, utf8 accept.name, accept.e, accept.n]

def sessionInitFields (init : SessionInit) : List Bytes :=
  [utf8 "session-init", utf8 (if init.tls.isSome then "3" else "2"), utf8 init.from, utf8 init.to, init.e, init.n] ++
    (bindingFields init.tls).map utf8

def sessionAcceptFields (accept : SessionAccept) : List Bytes := [utf8 "session-accept", accept.sid, accept.e, accept.n]

theorem pairInitTranscript_eq (init : PairInit) : pairInitTranscript init = encodeFields (pairInitFields init) := rfl

theorem sessionInitTranscript_eq (init : SessionInit) : sessionInitTranscript init = encodeFields (sessionInitFields init) := rfl

/-- What `pairKeys` hashes. -/
def pairTranscript (init : PairInit) (accept : PairAccept) : Bytes :=
  pairInitTranscript init ++ encodeFields (pairAcceptFields accept)

/-- What `sessionFullTranscript` hashes. -/
def sessionTranscript (init : SessionInit) (accept : SessionAccept) : Bytes :=
  sessionInitTranscript init ++ encodeFields (sessionAcceptFields accept)

theorem pairKeys_transcript (P : Primitives) (psk shared : Bytes) (init : PairInit) (accept : PairAccept) :
    pairKeys P psk shared init accept =
      let transcript := P.sha256 (pairTranscript init accept)
      let master := P.hkdf shared psk "pair/master"
      { confirmInitiator := P.hmac (P.hkdf master transcript "pair/confirm-initiator") transcript
        confirmResponder := P.hmac (P.hkdf master transcript "pair/confirm-responder") transcript
        linkKey := P.hkdf master transcript "pair/link-key" } := rfl

theorem sessionFullTranscript_eq (P : Primitives) (init : SessionInit) (accept : SessionAccept) :
    sessionFullTranscript P init accept = P.sha256 (sessionTranscript init accept) := rfl

theorem pairTranscript_eq (init : PairInit) (accept : PairAccept) :
    pairTranscript init accept = encodeFields (pairInitFields init ++ pairAcceptFields accept) := by
  rw [encodeFields_append]
  rfl

theorem sessionTranscript_eq (init : SessionInit) (accept : SessionAccept) :
    sessionTranscript init accept = encodeFields (sessionInitFields init ++ sessionAcceptFields accept) := by
  rw [encodeFields_append]
  rfl

/-! ### What they tell -/

/-- The pins go in with a word of their own in front, so that the exchanges that have them are longer. -/
theorem pairFields_injective {init init' : PairInit} {accept accept' : PairAccept}
    (h : pairInitFields init ++ pairAcceptFields accept = pairInitFields init' ++ pairAcceptFields accept') :
    init = init' ∧ accept = accept' := by
  obtain ⟨from₁, name₁, addr₁, salt₁, e₁, n₁, tls₁⟩ := init
  obtain ⟨from₂, name₂, addr₂, salt₂, e₂, n₂, tls₂⟩ := init'
  obtain ⟨id₁, accepted₁, f₁, m₁⟩ := accept
  obtain ⟨id₂, accepted₂, f₂, m₂⟩ := accept'
  rcases tls₁ with - | ⟨client₁, server₁⟩ <;> rcases tls₂ with - | ⟨client₂, server₂⟩ <;>
    simp only [pairInitFields, pairAcceptFields, bindingFields, List.map_nil, List.map_cons, List.append_nil, List.cons_append,
      List.nil_append, List.cons.injEq, and_true, true_and, reduceCtorEq, and_false] at h
  · obtain ⟨hfrom, hname, haddr, rfl, rfl, rfl, hid, haccepted, rfl, rfl⟩ := h
    simp [utf8_injective hfrom, utf8_injective hname, utf8_injective haddr, utf8_injective hid, utf8_injective haccepted]
  · obtain ⟨-, hfrom, hname, haddr, rfl, rfl, rfl, hclient, hserver, hid, haccepted, rfl, rfl⟩ := h
    simp [utf8_injective hfrom, utf8_injective hname, utf8_injective haddr, utf8_injective hclient, utf8_injective hserver,
      utf8_injective hid, utf8_injective haccepted]

theorem sessionFields_injective {init init' : SessionInit} {accept accept' : SessionAccept}
    (h : sessionInitFields init ++ sessionAcceptFields accept = sessionInitFields init' ++ sessionAcceptFields accept') :
    init = init' ∧ accept = accept' := by
  obtain ⟨from₁, to₁, e₁, n₁, tls₁⟩ := init
  obtain ⟨from₂, to₂, e₂, n₂, tls₂⟩ := init'
  obtain ⟨sid₁, f₁, m₁⟩ := accept
  obtain ⟨sid₂, f₂, m₂⟩ := accept'
  rcases tls₁ with - | ⟨client₁, server₁⟩ <;> rcases tls₂ with - | ⟨client₂, server₂⟩ <;>
    simp only [sessionInitFields, sessionAcceptFields, bindingFields, List.map_nil, List.map_cons, List.append_nil,
      List.cons_append, List.nil_append, List.cons.injEq, and_true, true_and, reduceCtorEq, and_false] at h
  · obtain ⟨hfrom, hto, rfl, rfl, rfl, rfl, rfl⟩ := h
    simp [utf8_injective hfrom, utf8_injective hto]
  · obtain ⟨-, hfrom, hto, rfl, rfl, hclient, hserver, rfl, rfl, rfl⟩ := h
    simp [utf8_injective hfrom, utf8_injective hto, utf8_injective hclient, utf8_injective hserver]

/-- The two handshakes have different first words. -/
theorem pairInitFields_ne (init : PairInit) (init' : SessionInit) (rest rest' : List Bytes) :
    pairInitFields init ++ rest ≠ sessionInitFields init' ++ rest' := by
  intro h
  have hword : utf8 "pair-init" = utf8 "session-init" := by
    simp only [pairInitFields, sessionInitFields, List.cons_append, List.cons.injEq] at h
    exact h.1
  exact absurd (utf8_injective hword) (by decide)

/-- **A transcript tells all that went into it.** -/
theorem transcripts_unambiguous :
    (∀ fields fields', Short fields → Short fields' → encodeFields fields = encodeFields fields' → fields = fields') ∧
    (∀ init accept init' accept', Short (pairInitFields init ++ pairAcceptFields accept) →
      Short (pairInitFields init' ++ pairAcceptFields accept') →
        pairTranscript init accept = pairTranscript init' accept' → init = init' ∧ accept = accept') ∧
    (∀ init accept init' accept', Short (sessionInitFields init ++ sessionAcceptFields accept) →
      Short (sessionInitFields init' ++ sessionAcceptFields accept') →
        sessionTranscript init accept = sessionTranscript init' accept' → init = init' ∧ accept = accept') ∧
    ∀ init accept init' accept', Short (pairInitFields init ++ pairAcceptFields accept) →
      Short (sessionInitFields init' ++ sessionAcceptFields accept') →
        (∀ transcript ∈ [pairInitTranscript init, pairTranscript init accept],
          transcript ∉ [sessionInitTranscript init', sessionTranscript init' accept']) := by
  refine ⟨fun fields fields' => encodeFields_injective, fun init accept init' accept' hs hs' h => ?_,
    fun init accept init' accept' hs hs' h => ?_, fun init accept init' accept' hs hs' transcript hpair hsession => ?_⟩
  · rw [pairTranscript_eq, pairTranscript_eq] at h
    exact pairFields_injective (encodeFields_injective hs hs' h)
  · rw [sessionTranscript_eq, sessionTranscript_eq] at h
    exact sessionFields_injective (encodeFields_injective hs hs' h)
  · -- each is the encoding of a list that begins with the fields of its first message
    have hpairs : ∃ rest, Short (pairInitFields init ++ rest) ∧ transcript = encodeFields (pairInitFields init ++ rest) := by
      rcases List.mem_cons.mp hpair with rfl | hpair
      · exact ⟨[], (List.append_nil (pairInitFields init)).symm ▸ hs.left, by
          rw [List.append_nil, pairInitTranscript_eq]⟩
      · exact ⟨_, hs, (List.mem_singleton.mp hpair).trans (pairTranscript_eq init accept)⟩
    have hsessions : ∃ rest, Short (sessionInitFields init' ++ rest) ∧
        transcript = encodeFields (sessionInitFields init' ++ rest) := by
      rcases List.mem_cons.mp hsession with rfl | hsession
      · exact ⟨[], (List.append_nil (sessionInitFields init')).symm ▸ hs'.left, by
          rw [List.append_nil, sessionInitTranscript_eq]⟩
      · exact ⟨_, hs', (List.mem_singleton.mp hsession).trans (sessionTranscript_eq init' accept')⟩
    obtain ⟨rest, hshort, heq⟩ := hpairs
    obtain ⟨rest', hshort', heq'⟩ := hsessions
    exact pairInitFields_ne init init' rest rest' (encodeFields_injective hshort hshort' (heq.symm.trans heq'))

/-- An exchange with pins and the same one without them. -/
def boundInit (tls : Option ChannelBinding) : PairInit := ⟨"a", "Anna", "a.example", [1], [2], [3], tls⟩

def boundAccept : PairAccept := ⟨"b", "Ben", [4], [5]⟩

theorem transcripts_unambiguous_pins :
    pairTranscript (boundInit (some ⟨"x", "y"⟩)) boundAccept ≠ pairTranscript (boundInit none) boundAccept := by
  intro h
  have hinit := transcripts_unambiguous.2.1 (boundInit (some ⟨"x", "y"⟩)) boundAccept (boundInit none) boundAccept
    (by unfold Short; decide) (by unfold Short; decide) h
  exact absurd hinit.1 (by decide)

end Pokyh.Cluster.Pairing
