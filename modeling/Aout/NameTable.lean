import Aout.Fault
import Aout.Text.Utf8
/-!
The name table: names in UTF-8, each followed by a zero byte. A name is found by the offset of its
first byte (`NameTable.nameAt_eq_ok_iff`). Names are only ever added at the end, so that an offset
that was handed out stays good.
-/

set_option autoImplicit false
set_option relaxedAutoImplicit false

namespace Aout

structure NameTable where
  bytes : Array UInt8
  deriving DecidableEq

namespace NameTable

def empty : NameTable := ⟨#[]⟩

/-- The offset at which the next name will start. -/
def nextOffset (table : NameTable) : UInt32 :=
  UInt32.ofNat table.bytes.size

/-- Add a name at the end. -/
def add (table : NameTable) (name : String) : NameTable :=
  ⟨table.bytes ++ (Utf8.encode name ++ [0])⟩

/-- The bytes before the first zero byte, if there is one. -/
def spelling? : List UInt8 → Option (List UInt8)
  | [] => none
  | byte :: rest => if byte = 0 then some [] else (spelling? rest).map (byte :: ·)

/-- The bytes from an offset on, so many of them at most, before the first zero byte, if there is
one. -/
def spellingAt? (bytes : Array UInt8) : (count offset : Nat) → Option (List UInt8)
  | 0, _ => none
  | count + 1, offset =>
    match bytes[offset]? with
    | none => none
    | some byte =>
      if byte = 0 then some [] else (spellingAt? bytes count (offset + 1)).map (byte :: ·)

/-- The name that starts at `offset`, for the symbol at `position`. -/
def nameAt (table : NameTable) (position : Nat) (offset : UInt32) : Except FormatFault String :=
  if offset.toNat < table.bytes.size then
    match spellingAt? table.bytes (table.bytes.size - offset.toNat) offset.toNat with
    | none => .error (.unterminatedName position)
    | some spelled =>
      match Utf8.decode? spelled with
      | none => .error (.undecodableName position)
      | some name => .ok name
  else .error (.nameOutsideTable position offset)

theorem spellingAt?_eq_spelling? (bytes : Array UInt8) (count offset : Nat)
    (hcount : offset + count = bytes.size) :
    spellingAt? bytes count offset = spelling? (bytes.toList.drop offset) := by
  induction count generalizing offset with
  | zero => rw [List.drop_eq_nil_of_le (by simp; omega)]; rfl
  | succ count ih =>
    have hinside : offset < bytes.size := by omega
    rw [List.drop_eq_getElem_cons (by simpa using hinside)]
    simp [spellingAt?, spelling?, hinside, ih (offset + 1) (by omega)]

theorem spelling?_eq_some_iff {bytes spelled : List UInt8} :
    spelling? bytes = some spelled ↔ 0 ∉ spelled ∧ ∃ back, bytes = spelled ++ 0 :: back := by
  induction bytes generalizing spelled with
  | nil => simp [spelling?]
  | cons byte rest ih =>
    by_cases hzero : byte = 0
    · cases spelled with
      | nil => simp [spelling?, hzero]
      | cons first others =>
        simp only [spelling?, hzero, if_true, Option.some.injEq, List.nil_eq, reduceCtorEq,
          false_iff, List.mem_cons, not_or, List.cons_append, List.cons.injEq]
        rintro ⟨⟨hfirst, -⟩, back, hsame, -⟩
        exact hfirst hsame
    · cases spelled with
      | nil => simp [spelling?, hzero]
      | cons first others =>
        simp only [spelling?, hzero, if_false, Option.map_eq_some_iff, ih, List.cons.injEq,
          List.mem_cons, not_or, List.cons_append]
        constructor
        · rintro ⟨_, ⟨hfree, back, hrest⟩, hsame, rfl⟩
          exact ⟨⟨fun hfirst ↦ hzero (hsame.trans hfirst.symm), hfree⟩, back, hsame, hrest⟩
        · rintro ⟨⟨-, hfree⟩, back, hsame, hrest⟩
          exact ⟨others, ⟨hfree, back, hrest⟩, hsame, rfl⟩

/-- A name is found where it is spelled and followed by a zero byte. -/
theorem nameAt_eq_ok_iff {table : NameTable} {position : Nat} {offset : UInt32} {name : String} :
    table.nameAt position offset = .ok name ↔
      0 ∉ Utf8.encode name ∧
        ∃ back, table.bytes.toList.drop offset.toNat = Utf8.encode name ++ 0 :: back := by
  unfold nameAt
  split
  · rename_i hinside
    rw [spellingAt?_eq_spelling? _ _ _ (by omega), ← spelling?_eq_some_iff]
    cases spelling? (table.bytes.toList.drop offset.toNat) with
    | none => simp
    | some spelled =>
      rw [Option.some.injEq, ← Utf8.decode?_eq_some_iff]
      cases hname : Utf8.decode? spelled <;> simp [hname]
  · rename_i houtside
    rw [List.drop_eq_nil_of_le (by simp; omega)]
    simp

end NameTable

end Aout
