/-!
Text as bytes in UTF-8. `decode?` accepts exactly the byte strings that `encode` produces
(`decode?_eq_some_iff`), so each text has one spelling in bytes.
-/

set_option autoImplicit false
set_option relaxedAutoImplicit false

namespace Aout.Utf8

def encode (text : String) : List UInt8 :=
  text.toByteArray.data.toList

/-- The text that a byte string spells, if it is valid UTF-8. -/
def decode? (bytes : List UInt8) : Option String :=
  String.fromUTF8? ⟨bytes.toArray⟩

theorem decode?_eq_some_iff {bytes : List UInt8} {text : String} :
    decode? bytes = some text ↔ bytes = encode text := by
  unfold decode? String.fromUTF8? encode
  constructor
  · intro hdecode
    split at hdecode
    · obtain rfl := Option.some.inj hdecode
      rfl
    · simp at hdecode
  · rintro rfl
    have hvalid : ByteArray.IsValidUTF8 ⟨text.toByteArray.data.toList.toArray⟩ := text.isValidUTF8
    rw [dif_pos hvalid]
    rfl

theorem decode?_encode (text : String) : decode? (encode text) = some text :=
  decode?_eq_some_iff.mpr rfl

end Aout.Utf8
