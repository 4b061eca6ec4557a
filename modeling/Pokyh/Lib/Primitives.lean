import Mathlib.Algebra.Group.Nat.Defs
import Mathlib.Data.Nat.Notation

/-!
# Lib — Primitives

The cryptography a protocol is built on, as operations on byte strings: a hash, a keyed hash, key
derivation, password stretching and a Diffie–Hellman exchange whose private keys are numbers.

* `encodeFields`: fields with their lengths in front; `encodeFields_injective`: **they can be told apart again**.
* `Primitives.Ideal`: what an unforgeable keyed hash comes to where nobody guesses: a tag tells its
  key and its data.
* `Primitives.free`: operations of this kind, which keep all they are given.
-/

namespace Pokyh.Lib

abbrev Bytes := List UInt8

def utf8 (s : String) : Bytes := s.toUTF8.data.toList

/-- A length in four bytes, the most significant first. -/
def uint32BE (n : ℕ) : Bytes :=
  [UInt8.ofNat (n / 2 ^ 24), UInt8.ofNat (n / 2 ^ 16), UInt8.ofNat (n / 2 ^ 8), UInt8.ofNat n]

def encodeFields (fields : List Bytes) : Bytes :=
  fields.flatMap fun bytes => uint32BE bytes.length ++ bytes

theorem utf8_injective {s t : String} (h : utf8 s = utf8 t) : s = t := by
  have hbytes : s.toByteArray = t.toByteArray := ByteArray.ext (Array.toList_inj.mp h)
  exact String.toByteArray_inj.mp hbytes

theorem length_uint32BE (n : ℕ) : (uint32BE n).length = 4 := rfl

theorem uint32BE_injective {m n : ℕ} (hm : m < 2 ^ 32) (hn : n < 2 ^ 32) (h : uint32BE m = uint32BE n) : m = n := by
  simp only [uint32BE, List.cons.injEq, and_true] at h
  obtain ⟨h₁, h₂, h₃, h₄⟩ := h
  replace h₁ := congrArg UInt8.toNat h₁
  replace h₂ := congrArg UInt8.toNat h₂
  replace h₃ := congrArg UInt8.toNat h₃
  replace h₄ := congrArg UInt8.toNat h₄
  simp only [UInt8.toNat_ofNat'] at h₁ h₂ h₃ h₄
  omega

/-- The lists the encoding is used on. -/
def Short (fields : List Bytes) : Prop := ∀ field ∈ fields, field.length < 2 ^ 32

theorem Short.left {fields fields' : List Bytes} (h : Short (fields ++ fields')) : Short fields := fun field hmem =>
  h field (List.mem_append_left _ hmem)

theorem encodeFields_append (fields fields' : List Bytes) :
    encodeFields (fields ++ fields') = encodeFields fields ++ encodeFields fields' :=
  List.flatMap_append

/-- **Every list of fields can be told from what it is encoded as.** -/
theorem encodeFields_injective {fields fields' : List Bytes} (hf : Short fields) (hf' : Short fields')
    (h : encodeFields fields = encodeFields fields') : fields = fields' := by
  induction fields generalizing fields' with
  | nil =>
      cases fields' with
      | nil => rfl
      | cons field fields' =>
          have hlength := congrArg List.length h
          simp only [encodeFields, List.flatMap_nil, List.flatMap_cons, List.length_append, length_uint32BE,
            List.length_nil] at hlength
          omega
  | cons field fields ih =>
      cases fields' with
      | nil =>
          have hlength := congrArg List.length h
          simp only [encodeFields, List.flatMap_nil, List.flatMap_cons, List.length_append, length_uint32BE,
            List.length_nil] at hlength
          omega
      | cons field' fields' =>
          simp only [encodeFields, List.flatMap_cons, List.append_assoc] at h
          -- first the lengths, then the fields that have them
          obtain ⟨hlength, hrest⟩ := List.append_inj h rfl
          have heq : field.length = field'.length :=
            uint32BE_injective (hf field List.mem_cons_self) (hf' field' List.mem_cons_self) hlength
          obtain ⟨rfl, htail⟩ := List.append_inj hrest heq
          rw [ih (fun f hmem => hf f (List.mem_cons_of_mem _ hmem)) (fun f hmem => hf' f (List.mem_cons_of_mem _ hmem)) htail]

structure Primitives where
  /-- Compatibility normalisation, and no blanks at the ends. -/
  normalize : String → String
  sha256 : Bytes → Bytes
  hmac : (key data : Bytes) → Bytes
  hkdf : (ikm salt : Bytes) → (info : String) → Bytes
  scrypt : (password salt : Bytes) → Bytes
  publicKey : ℕ → Bytes
  /-- Refused for a public key that is none, or of low order. -/
  sharedSecret : ℕ → Bytes → Option Bytes

/-- The operations as a protocol may take them: no two tags or derived keys are alike by chance, both
ends of an exchange arrive at the same secret, and no other two do. -/
structure Primitives.Ideal (P : Primitives) : Prop where
  hmac_inj : ∀ {k k' d d'}, P.hmac k d = P.hmac k' d' → k = k' ∧ d = d'
  hkdf_inj : ∀ {k k' s s' info}, P.hkdf k s info = P.hkdf k' s' info → k = k' ∧ s = s'
  exchange : ∀ a b, ∃ shared, P.sharedSecret a (P.publicKey b) = some shared ∧
    P.sharedSecret b (P.publicKey a) = some shared
  shared_inj : ∀ {a b a' b' shared}, P.sharedSecret a (P.publicKey b) = some shared →
    P.sharedSecret a' (P.publicKey b') = some shared → (a = a' ∧ b = b') ∨ (a = b' ∧ b = a')

/-- Two byte strings as one: the first with a mark before each byte. -/
def joined : Bytes → Bytes → Bytes
  | [], d => 0 :: d
  | b :: k, d => 1 :: b :: joined k d

theorem joined_injective {k k' d d' : Bytes} (h : joined k d = joined k' d') : k = k' ∧ d = d' := by
  induction k generalizing k' with
  | nil =>
      cases k' with
      | nil => exact ⟨rfl, List.tail_eq_of_cons_eq h⟩
      | cons b k' => exact absurd (List.head_eq_of_cons_eq h) (by decide)
  | cons b k ih =>
      cases k' with
      | nil => exact absurd (List.head_eq_of_cons_eq h) (by decide)
      | cons b' k' =>
          obtain ⟨rfl, hrest⟩ := List.cons.inj (List.tail_eq_of_cons_eq h)
          obtain ⟨rfl, hd⟩ := ih hrest
          exact ⟨rfl, hd⟩

/-- Operations that keep everything they are given. -/
def Primitives.free : Primitives where
  normalize := id
  sha256 := id
  hmac := joined
  hkdf ikm salt _ := joined ikm salt
  scrypt := joined
  publicKey a := List.replicate a 0
  sharedSecret a e :=
    some (joined (List.replicate (min a e.length) 0) (List.replicate (max a e.length) 0))

theorem Primitives.free_ideal : Primitives.free.Ideal where
  hmac_inj := joined_injective
  hkdf_inj := joined_injective
  exchange a b := by
    refine ⟨_, rfl, ?_⟩
    simp only [free, List.length_replicate, Nat.min_comm, Nat.max_comm]
  shared_inj := by
    intro a b a' b' shared h h'
    simp only [free, List.length_replicate] at h h'
    obtain ⟨hmin, hmax⟩ := joined_injective (Option.some_inj.mp (h.trans h'.symm))
    replace hmin := congrArg List.length hmin
    replace hmax := congrArg List.length hmax
    simp only [List.length_replicate] at hmin hmax
    omega

end Pokyh.Lib
