import Mathlib.Data.List.Basic
import Mathlib.Tactic.Common

/-!
# UTF-8

The bytes of a text and back. Decoding is total: what is no character becomes U+FFFD, one for
every longest beginning of a character (`String::from_utf8_lossy`). Byte 0 stands for the
character 0 alone, so fields that are ended by it can be told apart again.
-/

namespace Utf8

/-- The bytes of a text. -/
def encode (s : String) : List UInt8 := s.toList.flatMap String.utf8EncodeChar

def isContinuation (b : UInt8) : Bool := 0x80 ≤ b && b ≤ 0xBF

/-- May the byte stand second, behind this first one? -/
def isSecond (first b : UInt8) : Bool :=
  if first = 0xE0 then 0xA0 ≤ b && b ≤ 0xBF
  else if first = 0xED then 0x80 ≤ b && b ≤ 0x9F
  else if first = 0xF0 then 0x90 ≤ b && b ≤ 0xBF
  else if first = 0xF4 then 0x80 ≤ b && b ≤ 0x8F
  else isContinuation b

/-- The bytes, beyond the first, that one replacement character stands for. -/
def brokenTail : List UInt8 → ℕ
  | first :: second :: rest =>
      if 0xE0 ≤ first && first ≤ 0xF4 && isSecond first second then
        match rest with
        | third :: _ => if 0xF0 ≤ first && isContinuation third then 2 else 1
        | [] => 1
      else 0
  | _ => 0

/-- The characters of the bytes; `fuel` is their number. -/
def lossyChars : ℕ → List UInt8 → List Char
  | 0, _ | _, [] => []
  | fuel + 1, b :: bytes =>
      match ByteArray.utf8DecodeChar? (b :: bytes).toByteArray 0 with
      | some c => c :: lossyChars fuel ((b :: bytes).drop c.utf8Size)
      | none => '\uFFFD' :: lossyChars fuel (bytes.drop (brokenTail (b :: bytes)))

/-- `String::from_utf8_lossy`. -/
def fromUtf8Lossy (bytes : List UInt8) : String := String.ofList (lossyChars bytes.length bytes)

theorem toByteArray_append (l l' : List UInt8) :
    (l ++ l').toByteArray = l.toByteArray ++ l'.toByteArray := by
  simp

theorem lossyChars_encode (cs : List Char) {fuel : ℕ}
    (h : (cs.flatMap String.utf8EncodeChar).length ≤ fuel) :
    lossyChars fuel (cs.flatMap String.utf8EncodeChar) = cs := by
  induction cs generalizing fuel with
  | nil => cases fuel <;> rfl
  | cons c cs ih =>
      have hpos := c.utf8Size_pos
      rw [List.flatMap_cons] at h ⊢
      rw [List.length_append, String.length_utf8EncodeChar] at h
      obtain ⟨fuel, rfl⟩ : ∃ n, fuel = n + 1 := ⟨fuel - 1, by omega⟩
      have hdecode : ByteArray.utf8DecodeChar?
          (String.utf8EncodeChar c ++ cs.flatMap String.utf8EncodeChar).toByteArray 0 = some c := by
        rw [toByteArray_append]
        exact ByteArray.utf8DecodeChar?_utf8EncodeChar_append
      have hdrop : (String.utf8EncodeChar c ++ cs.flatMap String.utf8EncodeChar).drop c.utf8Size
          = cs.flatMap String.utf8EncodeChar := by
        rw [← String.length_utf8EncodeChar c, List.drop_left]
      cases hbytes : String.utf8EncodeChar c ++ cs.flatMap String.utf8EncodeChar with
      | nil => exact absurd (List.append_eq_nil_iff.mp hbytes).1 String.utf8EncodeChar_ne_nil
      | cons b bytes =>
          rw [hbytes] at hdecode hdrop
          rw [lossyChars, hdecode]
          simp only
          rw [hdrop, ih (by omega)]

/-- Decoding gives back what was encoded. -/
@[simp] theorem fromUtf8Lossy_encode (s : String) : fromUtf8Lossy (encode s) = s := by
  rw [fromUtf8Lossy, encode, lossyChars_encode s.toList (Nat.le_refl _), String.ofList_toList]

/-- Byte 0 stands in no other character. -/
theorem zero_mem_utf8EncodeChar {c : Char} (h : 0 ∈ String.utf8EncodeChar c) : c = '\x00' := by
  have hval : c.val.toNat < 0x110000 := by
    rcases c.valid with h | ⟨-, h⟩ <;> omega
  have hzero : ∀ n : ℕ, (0 : UInt8) = UInt8.ofNat n → n % 256 = 0 := by
    intro n hn
    simpa using (congrArg UInt8.toNat hn).symm
  have hc : c.val.toNat = 0 := by
    simp only [String.utf8EncodeChar] at h
    split at h
    · have := hzero _ (List.mem_singleton.mp h)
      omega
    · split at h
      · simp only [List.mem_cons, List.not_mem_nil, or_false] at h
        rcases h with h | h <;> have := hzero _ h <;> omega
      · split at h
        · simp only [List.mem_cons, List.not_mem_nil, or_false] at h
          rcases h with h | h | h <;> have := hzero _ h <;> omega
        · simp only [List.mem_cons, List.not_mem_nil, or_false] at h
          rcases h with h | h | h | h <;> have := hzero _ h <;> omega
  exact Char.ext (UInt32.toNat_inj.mp hc)

theorem zero_notMem_encode {s : String} (h : '\x00' ∉ s.toList) : 0 ∉ encode s := by
  intro hmem
  obtain ⟨c, hc, hzero⟩ := List.mem_flatMap.mp hmem
  exact h (zero_mem_utf8EncodeChar hzero ▸ hc)

theorem encode_eq_nil_iff {s : String} : encode s = [] ↔ s = "" := by
  rw [encode, List.flatMap_eq_nil_iff]
  constructor
  · intro h
    refine String.toList_eq_nil_iff.mp (List.eq_nil_iff_forall_not_mem.mpr fun c hc => ?_)
    exact String.utf8EncodeChar_ne_nil (h c hc)
  · rintro rfl
    simp

end Utf8
