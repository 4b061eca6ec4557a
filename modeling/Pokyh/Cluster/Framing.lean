import Mathlib.Data.Nat.Log
import Mathlib.Tactic.Linarith
import Pokyh.Lib.Primitives

/-!
# Cluster — Framing

How the content of a call is laid out before it is sealed (`framing.ts`): compressed where that makes it shorter, with its length in
front, padded to one of a few sizes.  Compression is a parameter.

* `paddedSize_bounds`: the sizes are steps, at least what is asked for and not much more, and grow with it.
* `unpack_pack`: **what is unpacked of a package is its content**.
* `unpack_short`, `unpack_inside`: nothing is read outside a package, and no more than the limit comes out of it.
-/

namespace Pokyh.Cluster.Framing
open Pokyh.Lib

def CODEC_RAW : UInt8 := 0
def CODEC_BROTLI : UInt8 := 1
def HEADER_BYTES : ℕ := 5
def COMPRESS_FROM_BYTES : ℕ := 1024
def MIN_PADDED_BYTES : ℕ := 1024
def LARGE_STEP_BYTES : ℕ := 64 * 1024

inductive FramingError where
  /-- package is too short -/
  | tooShort
  /-- package length is inconsistent -/
  | inconsistent
  /-- package exceeds the size limit -/
  | tooLarge
  /-- package uses an unknown encoding -/
  | unknownEncoding
  /-- A number or a place outside what the operation allows. -/
  | outOfRange
  /-- What decompression refuses. -/
  | decompression
  deriving DecidableEq, Repr

/-- Powers of two up to 64 KiB, then whole multiples of 64 KiB. -/
def paddedSize (bytes : ℕ) : ℕ :=
  if bytes ≤ MIN_PADDED_BYTES then MIN_PADDED_BYTES
  else if bytes ≤ LARGE_STEP_BYTES then 2 ^ Nat.clog 2 bytes
  else (bytes + LARGE_STEP_BYTES - 1) / LARGE_STEP_BYTES * LARGE_STEP_BYTES

/-- `out.writeUInt32BE(n)` -/
def writeUInt32BE (n : ℕ) : Except FramingError Bytes := if n < 2 ^ 32 then .ok (uint32BE n) else .error .outOfRange

/-- `packed.readUInt8(at)` -/
def readUInt8 (bytes : Bytes) (place : ℕ) : Except FramingError UInt8 :=
  match bytes[place]? with
  | some byte => .ok byte
  | none => .error .outOfRange

/-- `packed.readUInt32BE(at)` -/
def readUInt32BE (bytes : Bytes) (place : ℕ) : Except FramingError ℕ :=
  match bytes.drop place with
  | a :: b :: c :: d :: _ => .ok (a.toNat * 2 ^ 24 + b.toNat * 2 ^ 16 + c.toNat * 2 ^ 8 + d.toNat)
  | _ => .error .outOfRange

/-- `packed.subarray(start, stop)`, where a place outside is an error of its own. -/
def subarray (bytes : Bytes) (start stop : ℕ) : Except FramingError Bytes :=
  if start ≤ stop ∧ stop ≤ bytes.length then .ok ((bytes.take stop).drop start) else .error .outOfRange

/-- A compression that decompression inverts, within the limit on what comes out of it. -/
structure Compression where
  compress : Bytes → Bytes
  decompress : Bytes → ℕ → Except FramingError Bytes
  inverts : ∀ content limit, 0 < limit → content.length ≤ limit → decompress (compress content) limit = .ok content
  respects : ∀ body limit content, decompress body limit = .ok content → content.length ≤ limit
  refuses : ∀ body limit e, decompress body limit = .error e → e = .decompression

variable (C : Compression)

/-- The codec and the body of a content. -/
def bodyOf (plaintext : Bytes) : UInt8 × Bytes :=
  if COMPRESS_FROM_BYTES ≤ plaintext.length ∧ (C.compress plaintext).length < plaintext.length then (CODEC_BROTLI, C.compress plaintext)
  else (CODEC_RAW, plaintext)

def packPayload (plaintext : Bytes) : Except FramingError Bytes :=
  let (codec, body) := bodyOf C plaintext
  match writeUInt32BE body.length with
  | .error e => .error e
  | .ok length =>
    .ok (codec :: length ++ body ++ List.replicate (paddedSize (HEADER_BYTES + body.length) - (HEADER_BYTES + body.length)) 0)

/-- What is done with the body that the header names. -/
def unpackBody (codec : UInt8) (body : Bytes) (maxBytes : ℕ) : Except FramingError Bytes :=
  if codec = CODEC_RAW then if body.length > maxBytes then .error .tooLarge else .ok body
  else if codec = CODEC_BROTLI then C.decompress body maxBytes
  else .error .unknownEncoding

def unpackPayload (packed : Bytes) (maxBytes : ℕ) : Except FramingError Bytes :=
  if packed.length < HEADER_BYTES then .error .tooShort
  else
    match readUInt8 packed 0, readUInt32BE packed 1 with
    | .ok codec, .ok length =>
      if length > packed.length - HEADER_BYTES then .error .inconsistent
      else
        match subarray packed HEADER_BYTES (HEADER_BYTES + length) with
        | .ok body => unpackBody C codec body maxBytes
        | .error e => .error e
    | .error e, _ | _, .error e => .error e

/-! ### Sizes -/

/-- The sizes a package can have. -/
def IsStep (size : ℕ) : Prop := (∃ k, 10 ≤ k ∧ k ≤ 16 ∧ size = 2 ^ k) ∨ ∃ k, 0 < k ∧ size = k * LARGE_STEP_BYTES

variable {bytes : ℕ}

theorem clog_bounds (h : MIN_PADDED_BYTES < bytes) (h' : bytes ≤ LARGE_STEP_BYTES) :
    10 ≤ Nat.clog 2 bytes ∧ Nat.clog 2 bytes ≤ 16 ∧ bytes ≤ 2 ^ Nat.clog 2 bytes ∧ 2 ^ Nat.clog 2 bytes < 2 * bytes := by
  have hone : 1 < bytes := lt_trans (by decide) h
  have hlow : 2 ^ 10 < bytes := h
  have hhigh : bytes ≤ 2 ^ 16 := h'
  refine ⟨((Nat.lt_clog_iff_pow_lt (by decide)).mpr hlow).le, Nat.clog_le_of_le_pow hhigh, Nat.le_pow_clog (by decide) _, ?_⟩
  have hpos := Nat.clog_pos (b := 2) (by decide) hone
  have hpred := Nat.pow_pred_clog_lt_self (b := 2) (by decide) hone
  obtain ⟨k, hk⟩ := Nat.exists_eq_succ_of_ne_zero hpos.ne'
  rw [hk, Nat.pred_succ] at hpred
  rw [hk, pow_succ]
  omega

theorem paddedSize_step (bytes : ℕ) : IsStep (paddedSize bytes) := by
  unfold paddedSize
  split
  · exact .inl ⟨10, le_rfl, by decide, rfl⟩
  · rename_i hmin
    split
    · rename_i hlarge
      obtain ⟨hlow, hhigh, -⟩ := clog_bounds (Nat.not_le.mp hmin) hlarge
      exact .inl ⟨_, hlow, hhigh, rfl⟩
    · rename_i hlarge
      refine .inr ⟨_, ?_, rfl⟩
      simp only [LARGE_STEP_BYTES] at hlarge ⊢
      omega

theorem le_paddedSize (bytes : ℕ) : bytes ≤ paddedSize bytes := by
  unfold paddedSize
  split
  · assumption
  · rename_i hmin
    split
    · rename_i hlarge
      exact (clog_bounds (Nat.not_le.mp hmin) hlarge).2.2.1
    · simp only [LARGE_STEP_BYTES]
      omega

theorem paddedSize_lt (bytes : ℕ) : paddedSize bytes < 2 * bytes ∨ paddedSize bytes < bytes + LARGE_STEP_BYTES := by
  unfold paddedSize
  split
  · right
    simp only [MIN_PADDED_BYTES, LARGE_STEP_BYTES]
    omega
  · rename_i hmin
    split
    · rename_i hlarge
      exact .inl (clog_bounds (Nat.not_le.mp hmin) hlarge).2.2.2
    · right
      simp only [LARGE_STEP_BYTES]
      omega

/-- The three ranges of sizes, each with what is greatest in it. -/
theorem paddedSize_le_of_le {bound : ℕ} (hbound : bytes ≤ bound) : paddedSize bytes ≤ paddedSize bound := by
  have hpow : ∀ {n}, n ≤ LARGE_STEP_BYTES → 2 ^ Nat.clog 2 n ≤ LARGE_STEP_BYTES := fun {n} hn =>
    Nat.pow_le_pow_right (by decide) (Nat.clog_le_of_le_pow (y := 16) hn)
  unfold paddedSize
  split
  · -- the least size
    split
    · exact le_rfl
    · rename_i hmin
      split
      · rename_i hlarge
        have hpow' : 2 ^ 10 ≤ 2 ^ Nat.clog 2 bound := Nat.pow_le_pow_right (by decide) (clog_bounds (Nat.not_le.mp hmin) hlarge).1
        exact hpow'
      · rename_i hlarge
        simp only [MIN_PADDED_BYTES, LARGE_STEP_BYTES] at hlarge ⊢
        omega
  · rename_i hmin
    have hmin' : ¬ bound ≤ MIN_PADDED_BYTES := by omega
    rw [if_neg hmin']
    split
    · split
      · exact Nat.pow_le_pow_right (by decide) (Nat.clog_mono_right 2 hbound)
      · rename_i hsmall hlarge
        refine (hpow hsmall).trans ?_
        simp only [LARGE_STEP_BYTES] at hlarge ⊢
        omega
    · rename_i hlarge
      have hlarge' : ¬ bound ≤ LARGE_STEP_BYTES := by omega
      rw [if_neg hlarge']
      simp only [LARGE_STEP_BYTES]
      omega

theorem paddedSize_mono : Monotone paddedSize := fun _ _ h => paddedSize_le_of_le h

/-! ### Packages -/

theorem readUInt32BE_uint32BE {n : ℕ} (hn : n < 2 ^ 32) (codec : UInt8) (rest : Bytes) :
    readUInt32BE (codec :: uint32BE n ++ rest) 1 = .ok n := by
  have hvalue : n / 2 ^ 24 % 256 * 2 ^ 24 + n / 2 ^ 16 % 256 * 2 ^ 16 + n / 2 ^ 8 % 256 * 2 ^ 8 + n % 256 = n := by omega
  have hread : ∀ a b c d : UInt8, readUInt32BE (codec :: [a, b, c, d] ++ rest) 1 =
      .ok (a.toNat * 2 ^ 24 + b.toNat * 2 ^ 16 + c.toNat * 2 ^ 8 + d.toNat) := fun _ _ _ _ => rfl
  rw [uint32BE, hread]
  simp only [UInt8.toNat_ofNat']
  exact congrArg Except.ok hvalue

/-- What is unpacked of a header, a body of the length it names, and anything behind. -/
theorem unpack_framed (codec : UInt8) {body : Bytes} (hbody : body.length < 2 ^ 32) (padding : Bytes) (maxBytes : ℕ) :
    unpackPayload C (codec :: uint32BE body.length ++ body ++ padding) maxBytes = unpackBody C codec body maxBytes := by
  have hheader : (codec :: uint32BE body.length).length = HEADER_BYTES := rfl
  have hread : readUInt32BE (codec :: uint32BE body.length ++ body ++ padding) 1 = .ok body.length := by
    rw [List.append_assoc]
    exact readUInt32BE_uint32BE hbody codec (body ++ padding)
  have hcodec : readUInt8 (codec :: uint32BE body.length ++ body ++ padding) 0 = .ok codec := rfl
  have hlength : (codec :: uint32BE body.length ++ body ++ padding).length = HEADER_BYTES + body.length + padding.length := by
    rw [List.length_append, List.length_append, hheader]
  have htake : (codec :: uint32BE body.length ++ body ++ padding).take (HEADER_BYTES + body.length) = codec :: uint32BE body.length ++ body :=
    List.take_left' (by rw [List.length_append, hheader])
  have hdrop : (codec :: uint32BE body.length ++ body).drop HEADER_BYTES = body := List.drop_left' hheader
  generalize codec :: uint32BE body.length ++ body ++ padding = packed at hread hcodec hlength htake
  have hsub : subarray packed HEADER_BYTES (HEADER_BYTES + body.length) = .ok body := by
    rw [subarray, if_pos ⟨Nat.le_add_right _ _, by omega⟩, htake, hdrop]
  rw [unpackPayload, if_neg (by omega), hcodec, hread]
  dsimp only
  rw [if_neg (by omega), hsub]

/-- **What is unpacked of a package is its content.** -/
theorem unpack_pack {plaintext : Bytes} {maxBytes : ℕ} (hlimit : plaintext.length ≤ maxBytes)
    (hbody : (bodyOf C plaintext).2.length < 2 ^ 32) : ∃ packed, packPayload C plaintext = .ok packed ∧
      packed.length = paddedSize (HEADER_BYTES + (bodyOf C plaintext).2.length) ∧ unpackPayload C packed maxBytes = .ok plaintext := by
  have hpack : packPayload C plaintext = .ok ((bodyOf C plaintext).1 :: uint32BE (bodyOf C plaintext).2.length ++ (bodyOf C plaintext).2 ++
      List.replicate (paddedSize (HEADER_BYTES + (bodyOf C plaintext).2.length) - (HEADER_BYTES + (bodyOf C plaintext).2.length)) 0) := by
    rw [packPayload]
    simp only [writeUInt32BE, if_pos hbody]
  refine ⟨_, hpack, ?_, ?_⟩
  · have hle := le_paddedSize (HEADER_BYTES + (bodyOf C plaintext).2.length)
    simp only [List.length_append, List.length_cons, length_uint32BE, List.length_replicate]
    simp only [HEADER_BYTES] at hle ⊢
    omega
  · rw [unpack_framed C _ hbody, bodyOf]
    split
    · rename_i hshorter
      have hpos : 0 < maxBytes := lt_of_lt_of_le (by decide) (hshorter.1.trans hlimit)
      exact C.inverts plaintext maxBytes hpos hlimit
    · exact if_neg (Nat.not_lt.mpr hlimit)

/-- A package that is too long for its header is refused. -/
theorem pack_refused {plaintext : Bytes} (hbody : ¬ (bodyOf C plaintext).2.length < 2 ^ 32) : packPayload C plaintext = .error .outOfRange := by
  rw [packPayload]
  simp only [writeUInt32BE, if_neg hbody]

/-- What is unpacked of anything, where a header is there: what the body that lies inside gives. -/
theorem unpack_cases (packed : Bytes) (maxBytes : ℕ) : unpackPayload C packed maxBytes = .error .tooShort ∨
    unpackPayload C packed maxBytes = .error .inconsistent ∨ ∃ codec body, unpackPayload C packed maxBytes = unpackBody C codec body maxBytes := by
  by_cases hshort : packed.length < HEADER_BYTES
  · exact .inl (if_pos hshort)
  · right
    match packed with
    | [] | [_] | [_, _] | [_, _, _] | [_, _, _, _] => exact absurd (by simp [HEADER_BYTES]) hshort
    | codec :: a :: b :: c :: d :: rest =>
        have hcodec : readUInt8 (codec :: a :: b :: c :: d :: rest) 0 = .ok codec := rfl
        have hread : readUInt32BE (codec :: a :: b :: c :: d :: rest) 1 =
            .ok (a.toNat * 2 ^ 24 + b.toNat * 2 ^ 16 + c.toNat * 2 ^ 8 + d.toNat) := rfl
        generalize codec :: a :: b :: c :: d :: rest = packed at hcodec hread hshort
        generalize a.toNat * 2 ^ 24 + b.toNat * 2 ^ 16 + c.toNat * 2 ^ 8 + d.toNat = length at hread
        rw [unpackPayload, if_neg hshort, hcodec, hread]
        dsimp only
        split
        · exact .inl rfl
        · rename_i hfits
          right
          rw [subarray, if_pos ⟨Nat.le_add_right _ _, by omega⟩]
          exact ⟨_, _, rfl⟩

theorem unpackBody_inside (codec : UInt8) (body : Bytes) (maxBytes : ℕ) : unpackBody C codec body maxBytes ≠ .error .outOfRange := by
  unfold unpackBody
  split
  · split <;> rintro ⟨⟩
  · split
    · intro h
      cases C.refuses body maxBytes _ h
    · rintro ⟨⟩

/-- **Nothing is read outside a package.** -/
theorem unpack_inside (packed : Bytes) (maxBytes : ℕ) : unpackPayload C packed maxBytes ≠ .error .outOfRange := by
  rcases unpack_cases C packed maxBytes with h | h | ⟨codec, body, h⟩
  · rw [h]
    rintro ⟨⟩
  · rw [h]
    rintro ⟨⟩
  · rw [h]
    exact unpackBody_inside C codec body maxBytes

/-- **No more than the limit comes out of a package.** -/
theorem unpack_le {packed content : Bytes} {maxBytes : ℕ} (h : unpackPayload C packed maxBytes = .ok content) : content.length ≤ maxBytes := by
  rcases unpack_cases C packed maxBytes with heq | heq | ⟨codec, body, heq⟩
  · rw [heq] at h
    cases h
  · rw [heq] at h
    cases h
  · rw [heq, unpackBody] at h
    split at h
    · split at h
      · cases h
      · rename_i hfits
        obtain rfl := Except.ok.inj h
        exact Nat.not_lt.mp hfits
    · split at h
      · exact C.respects body maxBytes content h
      · cases h

/-- **Payload framing is lossless and hides the length.** -/
theorem framing_lossless :
    (∀ plaintext maxBytes, plaintext.length ≤ maxBytes → (bodyOf C plaintext).2.length < 2 ^ 32 → ∃ packed,
      packPayload C plaintext = .ok packed ∧ packed.length = paddedSize (HEADER_BYTES + (bodyOf C plaintext).2.length) ∧
        unpackPayload C packed maxBytes = .ok plaintext) ∧
    (∀ bytes, IsStep (paddedSize bytes) ∧ bytes ≤ paddedSize bytes ∧
      (paddedSize bytes < 2 * bytes ∨ paddedSize bytes < bytes + LARGE_STEP_BYTES)) ∧
    Monotone paddedSize ∧
    (∀ packed maxBytes, unpackPayload C packed maxBytes ≠ .error .outOfRange ∧
      ∀ content, unpackPayload C packed maxBytes = .ok content → content.length ≤ maxBytes) ∧
    ∀ codec body padding padding' maxBytes, body.length < 2 ^ 32 →
      unpackPayload C (codec :: uint32BE body.length ++ body ++ padding) maxBytes =
        unpackPayload C (codec :: uint32BE body.length ++ body ++ padding') maxBytes := by
  refine ⟨fun plaintext maxBytes hlimit hbody => unpack_pack C hlimit hbody,
    fun bytes => ⟨paddedSize_step bytes, le_paddedSize bytes, paddedSize_lt bytes⟩, paddedSize_mono,
    fun packed maxBytes => ⟨unpack_inside C packed maxBytes, fun content h => unpack_le C h⟩, ?_⟩
  intro codec body padding padding' maxBytes hbody
  rw [unpack_framed C codec hbody, unpack_framed C codec hbody]

/-- Nothing is made shorter. -/
def stored : Compression where
  compress := id
  decompress := fun body limit => if body.length ≤ limit then .ok body else .error .decompression
  inverts := fun _ _ _ h => if_pos h
  respects := by
    intro body limit content h
    split at h
    · rename_i hle
      exact Except.ok.inj h ▸ hle
    · cases h
  refuses := by
    intro body limit e h
    split at h
    · cases h
    · exact (Except.error.inj h).symm

/-- Four gibibytes that nothing makes shorter do not fit behind a header. -/
theorem four_gibibytes_refused : ¬ ∀ (C : Compression) (plaintext : Bytes) (maxBytes : ℕ), plaintext.length ≤ maxBytes →
    ∃ packed, packPayload C plaintext = .ok packed ∧ unpackPayload C packed maxBytes = .ok plaintext := by
  intro h
  have hlength : (List.replicate (2 ^ 32) (0 : UInt8)).length = 2 ^ 32 := List.length_replicate
  have hbody : (bodyOf stored (List.replicate (2 ^ 32) 0)).2 = List.replicate (2 ^ 32) 0 := by
    rw [bodyOf, if_neg fun hshorter => absurd hshorter.2 (lt_irrefl _)]
  obtain ⟨packed, hpack, -⟩ := h stored (List.replicate (2 ^ 32) 0) (2 ^ 32) hlength.le
  rw [pack_refused] at hpack
  · cases hpack
  · rw [hbody, hlength]
    exact lt_irrefl _

end Pokyh.Cluster.Framing
