import Keystone.ByteCodecs
import Keystone.DecimalText

/-! # The bytes of characters

UTF-8 text is a list of characters, of which only those below 128 have bytes below 128. -/
namespace Utf8Text

open ByteCodecs DecimalText List

theorem validUtf8_iff :
    validUtf8 bytes = true ↔ ∃ cs : List Char, bytes = cs.flatMap String.utf8EncodeChar := by
  rw [validUtf8, ByteArray.validateUTF8_eq_true_iff]
  constructor
  · rintro ⟨cs, h⟩
    exact ⟨cs, by simpa [List.utf8Encode] using congrArg (fun b => b.data.toList) h⟩
  · rintro ⟨cs, rfl⟩
    exact ⟨cs, by ext1; simp [List.utf8Encode]⟩

theorem utf8_ofList (cs : List Char) : utf8 (String.ofList cs) =
    cs.flatMap String.utf8EncodeChar := by
  simp [utf8, List.utf8Encode]

theorem validUtf8_utf8 (s : String) : validUtf8 (utf8 s) = true :=
  validUtf8_iff.mpr ⟨s.toList, by rw [← utf8_ofList, String.ofList_toList]⟩

theorem utf8EncodeChar_cases (c : Char) : c.toNat < 128 ∧
    String.utf8EncodeChar c = [UInt8.ofNat c.toNat] ∨
      128 ≤ c.toNat ∧ ∀ b ∈ String.utf8EncodeChar c, 128 ≤ b.toNat := by
  rw [String.utf8EncodeChar]
  simp only [Char.toNat_val]
  split_ifs with hascii
  · exact .inl ⟨by omega, rfl⟩
  all_goals
    simp only [mem_cons, not_mem_nil, or_false, forall_eq_or_imp, forall_eq, UInt8.toNat_ofNat']
    omega

theorem validUtf8_ascii (h : b.toNat < 128) : validUtf8 [b] = true := by
  have hc : (Char.ofUInt8 b).toNat = b.toNat := UInt8.toNat_toUInt32 b
  refine validUtf8_iff.mpr ⟨[Char.ofUInt8 b], ?_⟩
  obtain ⟨-, heq⟩ | ⟨hle, -⟩ := utf8EncodeChar_cases (Char.ofUInt8 b)
  · simp [heq, hc]
  · omega

end Utf8Text
