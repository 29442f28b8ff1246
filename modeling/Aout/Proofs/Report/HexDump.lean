import Aout.Report.HexDump
import Aout.Proofs.Text.Numeral
import Mathlib.Data.List.TakeWhile
/-!
Reading hex dumps. A line is read as its offset, the bytes in its sixteen fields and the characters
in its brackets (`HexDump.readLine?`), and a dump line by line (`HexDump.read?`). Every dump can be
read, and shows the bytes that it was made of (`HexDump.text_faithful`).
-/

set_option autoImplicit false
set_option relaxedAutoImplicit false

namespace Aout.HexDump

open Numeral

/-! ### Reading -/

/-- What a line shows. -/
structure Row where
  offset : List Char
  bytes : List UInt8
  glyphs : List Char

/-- The byte that two hexadecimal digits spell. -/
def readByte? : List Char → Option UInt8
  | [high, low] => do
    let high ← digitValue? 16 high
    let low ← digitValue? 16 low
    return UInt8.ofNat (16 * high + low)
  | _ => none

/-- The bytes in the fields of a line: four groups of four, set apart by a blank more, and in the
middle by a dash. -/
def readFields? (fields : List Char) : Option (List UInt8) :=
  match fields.splitOn ' ' with
  | [[], a0, a1, a2, a3, [], a4, a5, a6, a7, ['-'], b0, b1, b2, b3, [], b4, b5, b6, b7, []] =>
    [a0, a1, a2, a3, a4, a5, a6, a7, b0, b1, b2, b3, b4, b5, b6, b7].mapM readByte?
  | _ => none

/-- What stands before the first mark, and what stands behind it. -/
def cutAt? (mark : Char) (characters : List Char) : Option (List Char × List Char) :=
  match characters.dropWhile (· ≠ mark) with
  | [] => none
  | _ :: back => some (characters.takeWhile (· ≠ mark), back)

/-- Read a line without its end. -/
def readLine? (line : List Char) : Option Row := do
  let (offset, rest) ← cutAt? ':' line
  let (fields, column) ← cutAt? '[' rest
  let bytes ← readFields? fields
  if column.getLast? = some ']' then return ⟨offset, bytes, column.dropLast⟩ else none

/-- Read a dump, all of whose lines must be ended. -/
def read? (dump : String) : Option (List Row) :=
  let lines := dump.toList.splitOn '\n'
  if lines.getLast? = some [] then lines.dropLast.mapM readLine? else none

/-- The character stands for the byte: it is the byte itself if that is printable, or else a dot. -/
def Depicts (character : Char) (byte : UInt8) : Prop :=
  if 0x20 ≤ byte.toNat ∧ byte.toNat ≤ 0x7E then character.toNat = byte.toNat else character = '.'

/-! ### Fields -/

variable {mark : Char} {letters : LetterCase} {byte : UInt8}

theorem forall₂_byteDigits (letters : LetterCase) (byte : UInt8) :
    List.Forall₂ (IsDigit 16) (byteDigits letters byte) [byte.toNat / 16, byte.toNat % 16] := by
  have hbyte := byte.toNat_lt
  exact .cons ⟨by omega, letters, rfl⟩ (.cons ⟨by omega, letters, rfl⟩ .nil)

theorem not_mem_byteDigits (hmark : digitValue? 16 mark = none) :
    mark ∉ byteDigits letters byte :=
  not_mem_of_forall₂_isDigit (Nat.le_refl 16) (forall₂_byteDigits letters byte) hmark

theorem readByte?_byteDigits (letters : LetterCase) (byte : UInt8) :
    readByte? (byteDigits letters byte) = some byte := by
  have hbyte := byte.toNat_lt
  have hhigh := digitValue?_digitChar letters (byte.toNat / 16) (by omega)
  have hlow := digitValue?_digitChar letters (byte.toNat % 16) (by omega)
  simp only [readByte?, byteDigits, hhigh, hlow, Option.bind_eq_bind, Option.bind_some,
    Option.pure_def, Nat.div_add_mod, UInt8.ofNat_toNat]

/-- The words that the gap before a field comes to. -/
def gapWords (column : Nat) : List (List Char) :=
  if column = 8 then [['-']] else if column = 4 ∨ column = 12 then [[]] else []

theorem splitOn_blank_cons (rest : List Char) :
    (' ' :: rest).splitOn ' ' = [] :: rest.splitOn ' ' :=
  List.splitOn_append_cons_self_of_not_mem (show ' ' ∉ ([] : List Char) from List.not_mem_nil) rest

theorem splitOn_digits_cons (column : Nat) (byte : UInt8) (rest : List UInt8) :
    (digits column (byte :: rest)).splitOn ' ' =
      gapWords column ++ byteDigits .upper byte :: (digits (column + 1) rest).splitOn ' ' := by
  have hfield : (byteDigits .upper byte ++ ' ' :: digits (column + 1) rest).splitOn ' ' =
      byteDigits .upper byte :: (digits (column + 1) rest).splitOn ' ' :=
    List.splitOn_append_cons_self_of_not_mem (not_mem_byteDigits (by decide)) _
  have hgap (fields : List Char) :
      (gap column ++ fields).splitOn ' ' = gapWords column ++ fields.splitOn ' ' := by
    unfold gap gapWords
    split
    · exact List.splitOn_append_cons_self_of_not_mem (show ' ' ∉ ['-'] by decide) fields
    split
    · exact splitOn_blank_cons fields
    · rfl
  rw [← hfield, ← hgap, digits]
  simp only [List.append_assoc, List.singleton_append]

theorem mapM_readByte? (row : List UInt8) :
    (row.map (byteDigits .upper)).mapM readByte? = some row := by
  induction row with
  | nil => rfl
  | cons byte rest ih => simp [readByte?_byteDigits, ih]

/-- Sixteen fields are read as the bytes that they were written for. -/
theorem readFields?_digits {row : List UInt8} (hrow : row.length = 16) :
    readFields? (' ' :: digits 0 row) = some row := by
  match row, hrow with
  | [a0, a1, a2, a3, a4, a5, a6, a7, b0, b1, b2, b3, b4, b5, b6, b7], _ =>
    have hend (column : Nat) : (digits column []).splitOn ' ' = [[]] := rfl
    simp only [readFields?, splitOn_blank_cons, splitOn_digits_cons, hend]
    exact mapM_readByte? [a0, a1, a2, a3, a4, a5, a6, a7, b0, b1, b2, b3, b4, b5, b6, b7]

/-! ### Lines -/

theorem cutAt?_append {front back : List Char} (hfree : mark ∉ front) :
    cutAt? mark (front ++ mark :: back) = some (front, back) := by
  have hfront : ∀ character ∈ front, decide (character ≠ mark) = true := fun character hmem ↦
    decide_eq_true fun hsame ↦ hfree (hsame ▸ hmem)
  rw [cutAt?, List.dropWhile_append_of_pos hfront, List.takeWhile_append_of_pos hfront,
    List.dropWhile_cons_of_neg (by simp), List.takeWhile_cons_of_neg (by simp), List.append_nil]

theorem not_mem_digits (hmark : digitValue? 16 mark = none) (hblank : mark ≠ ' ')
    (hdash : mark ≠ '-') (column : Nat) (row : List UInt8) : mark ∉ digits column row := by
  induction row generalizing column with
  | nil => exact List.not_mem_nil
  | cons byte rest ih =>
    have hgap : mark ∉ gap column := by
      unfold gap
      split
      · simp [hdash, hblank]
      split
      · simp [hblank]
      · exact List.not_mem_nil
    simp [digits, hgap, not_mem_byteDigits hmark, hblank, ih]

theorem not_mem_padded {width offset : Nat} (hmark : digitValue? 16 mark = none) :
    mark ∉ padded 16 width .upper offset := by
  obtain ⟨values, hdigits, -⟩ := spells_padded (show 2 ≤ 16 by decide) width .upper offset
  exact not_mem_of_forall₂_isDigit (Nat.le_refl 16) hdigits hmark

/-- The bytes of a line with zeros up to its length. -/
def filled (row : List UInt8) : List UInt8 :=
  row ++ List.replicate (lineLength - row.length) 0

theorem length_filled {row : List UInt8} (hrow : row.length ≤ 16) : (filled row).length = 16 := by
  rw [filled, List.length_append, List.length_replicate, lineLength]
  omega

theorem readLine?_line (offset : Nat) {row : List UInt8} (hrow : row.length ≤ 16) :
    readLine? (line offset row) =
      some ⟨padded 16 4 .upper offset, filled row, (filled row).map glyph⟩ := by
  have hline : line offset row = padded 16 4 .upper offset ++ ':' ::
      ((' ' :: digits 0 (filled row)) ++ '[' :: ((filled row).map glyph ++ [']'])) := by
    simp [line, filled]
  have hfields : '[' ∉ ' ' :: digits 0 (filled row) := by
    rw [List.mem_cons, not_or]
    exact ⟨by decide, not_mem_digits (by decide) (by decide) (by decide) _ _⟩
  rw [hline, readLine?, cutAt?_append (not_mem_padded (by decide)), Option.bind_eq_bind,
    Option.bind_some]
  dsimp only
  rw [cutAt?_append hfields]
  simp [readFields?_digits (length_filled hrow)]

theorem depicts_glyph (byte : UInt8) : Depicts (glyph byte) byte := by
  have hprintable : isPrintable byte = true ↔ 0x20 ≤ byte.toNat ∧ byte.toNat ≤ 0x7E := by
    simp [isPrintable, UInt8.le_iff_toNat_le]
  unfold Depicts glyph
  by_cases hbyte : 0x20 ≤ byte.toNat ∧ byte.toNat ≤ 0x7E
  · have hvalid : byte.toNat.isValidChar := .inl (by omega)
    rw [if_pos hbyte, if_pos (hprintable.mpr hbyte), Char.ofNat, dif_pos hvalid]
    rfl
  · rw [if_neg hbyte, if_neg (mt hprintable.mp hbyte)]

theorem Depicts.ne_newline {character : Char} (hdepicts : Depicts character byte) :
    character ≠ '\n' := by
  unfold Depicts at hdepicts
  rintro rfl
  split at hdepicts
  · rename_i hbyte
    have hcode : ('\n').toNat = 10 := rfl
    omega
  · cases hdepicts

theorem newline_not_mem_line (offset : Nat) (row : List UInt8) : '\n' ∉ line offset row := by
  have hglyphs : '\n' ∉ (filled row).map glyph := by
    rw [List.mem_map]
    rintro ⟨byte, -, hglyph⟩
    exact (depicts_glyph byte).ne_newline hglyph
  have hdigits : '\n' ∉ digits 0 (filled row) :=
    not_mem_digits (by decide) (by decide) (by decide) 0 (filled row)
  have hoffset : '\n' ∉ padded 16 4 .upper offset := not_mem_padded (by decide)
  unfold filled at hglyphs hdigits
  simp only [line, List.mem_append, hoffset, hdigits, hglyphs, or_false, false_or]
  decide

/-! ### Dumps -/

/-- The rows show the bytes from an offset on: sixteen in a row, and zeros in the rest of the last
one. Offsets have 32 bits. -/
structure Shows (offset : Nat) (bytes : List UInt8) (rows : List Row) : Prop where
  count : rows.length = (bytes.length + 15) / 16
  offset : ∀ place row, rows[place]? = some row →
    row.offset = padded 16 4 .upper ((offset + 16 * place) % UInt32.size)
  width : ∀ row ∈ rows, row.bytes.length = 16
  glyphs : ∀ row ∈ rows, row.glyphs = row.bytes.map glyph
  bytes : rows.flatMap (·.bytes) = bytes ++ List.replicate (16 * rows.length - bytes.length) 0

theorem shows_nil (offset : Nat) : Shows offset [] [] where
  count := rfl
  offset := by simp
  width := List.forall_mem_nil _
  glyphs := List.forall_mem_nil _
  bytes := rfl

/-- One row more in front. -/
theorem Shows.cons {offset : Nat} {bytes : List UInt8} {rows : List Row}
    (hrows : Shows (offset + 16) (bytes.drop 16) rows) (hbytes : bytes ≠ []) :
    Shows offset bytes (⟨padded 16 4 .upper (offset % UInt32.size), filled (bytes.take 16),
      (filled (bytes.take 16)).map glyph⟩ :: rows) where
  count := by
    have hcount := hrows.count
    have hpos := List.length_pos_iff.mpr hbytes
    rw [List.length_drop] at hcount
    rw [List.length_cons]
    omega
  offset := by
    rintro (_ | place) row hrow
    · obtain rfl := Option.some.inj hrow
      rfl
    · rw [hrows.offset place row hrow]
      congr 2
      omega
  width := List.forall_mem_cons.mpr ⟨length_filled (List.length_take_le 16 bytes), hrows.width⟩
  glyphs := List.forall_mem_cons.mpr ⟨rfl, hrows.glyphs⟩
  bytes := by
    have hcount := hrows.count
    rw [List.length_drop] at hcount
    rw [List.flatMap_cons, hrows.bytes, List.length_cons, List.length_drop, filled, lineLength,
      List.length_take]
    by_cases hfull : 16 ≤ bytes.length
    · rw [Nat.min_eq_left hfull, Nat.sub_self, List.replicate_zero, List.append_nil,
        ← List.append_assoc, List.take_append_drop,
        show 16 * rows.length - (bytes.length - 16) =
          16 * (rows.length + 1) - bytes.length by omega]
    · rw [List.take_of_length_le (by omega), List.drop_of_length_le (by omega), List.nil_append,
        Nat.min_eq_right (by omega), show rows.length = 0 by omega]
      simp

theorem exists_shows (offset : Nat) (bytes : List UInt8) : ∃ rows,
    ((linesFrom offset bytes).map String.toList).mapM readLine? = some rows ∧
      Shows offset bytes rows := by
  fun_induction linesFrom offset bytes with
  | case1 offset => exact ⟨[], rfl, shows_nil offset⟩
  | case2 offset first rest ih =>
    obtain ⟨rows, hread, hrows⟩ := ih
    refine ⟨_, ?_, hrows.cons (List.cons_ne_nil first rest)⟩
    have hline := readLine?_line (offset % UInt32.size) (List.length_take_le 16 (first :: rest))
    rw [List.map_cons, String.toList_ofList, List.mapM_cons, lineLength, hline, Option.bind_eq_bind,
      Option.bind_some, ← lineLength, hread]
    rfl

theorem toList_text (bytes : List UInt8) :
    (text bytes).toList = ((lines bytes).map String.toList).flatMap (· ++ ['\n']) := by
  simp [text, String.toList_join, List.flatMap_map]

theorem newline_not_mem_lines (offset : Nat) (bytes : List UInt8) :
    ∀ line ∈ (linesFrom offset bytes).map String.toList, '\n' ∉ line := by
  fun_induction linesFrom offset bytes with
  | case1 offset => exact List.forall_mem_nil _
  | case2 offset first rest ih =>
    refine List.forall_mem_cons.mpr ⟨?_, ih⟩
    rw [String.toList_ofList]
    exact newline_not_mem_line _ _

/-- Ended lines are told apart again. -/
theorem splitOn_ended {lines : List (List Char)} (hlines : ∀ line ∈ lines, '\n' ∉ line) :
    (lines.flatMap (· ++ ['\n'])).splitOn '\n' = lines ++ [[]] := by
  induction lines with
  | nil => rfl
  | cons line rest ih =>
    obtain ⟨hline, hrest⟩ := List.forall_mem_cons.mp hlines
    rw [List.flatMap_cons, List.append_assoc, List.singleton_append,
      List.splitOn_append_cons_self_of_not_mem hline, ih hrest, List.cons_append]

theorem exists_read? (bytes : List UInt8) :
    ∃ rows, read? (text bytes) = some rows ∧ Shows 0 bytes rows := by
  obtain ⟨rows, hread, hrows⟩ := exists_shows 0 bytes
  refine ⟨rows, ?_, hrows⟩
  have hlines := splitOn_ended (newline_not_mem_lines 0 bytes)
  rw [← lines, ← toList_text] at hlines
  simp only [read?, hlines, List.getLast?_concat, List.dropLast_concat, if_pos]
  exact hread

/-- A dump shows the bytes that it was made of. It has a line for every sixteen bytes begun. Each
line begins with the number of the bytes before it, in capital hexadecimal digits of which there are
four at least, and a colon. The fields of all lines together give the bytes in their order, and then
zeros up to the end of the last line. The brackets hold a character for each field. So different
byte strings of one length have different dumps. -/
theorem text_faithful {bytes : List UInt8} (hsize : bytes.length ≤ UInt32.size) :
    (∃ rows, read? (text bytes) = some rows ∧ rows.length = (bytes.length + 15) / 16 ∧
      (∀ place row, rows[place]? = some row →
        row.offset = padded 16 4 .upper (16 * place) ∧ Spells 16 row.offset (16 * place) ∧
          row.bytes.length = 16 ∧ List.Forall₂ Depicts row.glyphs row.bytes) ∧
      rows.flatMap (·.bytes) = bytes ++ List.replicate (16 * rows.length - bytes.length) 0) ∧
    ∀ other : List UInt8, other.length = bytes.length → text other = text bytes →
      other = bytes := by
  obtain ⟨rows, hread, hrows⟩ := exists_read? bytes
  refine ⟨⟨rows, hread, hrows.count, fun place row hrow ↦ ?_, hrows.bytes⟩, ?_⟩
  · have hcount := hrows.count
    have hplace : place < rows.length := (List.getElem?_eq_some_iff.mp hrow).1
    have hmem : row ∈ rows := List.mem_of_getElem? hrow
    have hoffset := hrows.offset place row hrow
    rw [Nat.zero_add, Nat.mod_eq_of_lt (by omega)] at hoffset
    refine ⟨hoffset, ?_, hrows.width row hmem, ?_⟩
    · rw [hoffset]
      exact spells_padded (by decide) 4 .upper _
    · rw [hrows.glyphs row hmem, List.forall₂_map_left_iff, List.forall₂_same]
      exact fun byte _ ↦ depicts_glyph byte
  · intro other hlength hsame
    obtain ⟨others, hother, hothers⟩ := exists_read? other
    rw [hsame, hread] at hother
    obtain rfl := Option.some.inj hother
    have hbytes := hrows.bytes
    rw [hothers.bytes] at hbytes
    exact (List.append_inj hbytes hlength).1

/-- The capital letters. -/
def capitals : List UInt8 :=
  (List.range 26).map fun place ↦ UInt8.ofNat (0x41 + place)

/-- A dump of two lines, the second of them filled up. -/
theorem text_faithful_capitals : ∃ rows, read? (text capitals) = some rows ∧ rows.length = 2 ∧
    rows.flatMap (·.bytes) = capitals ++ List.replicate 6 0 := by
  obtain ⟨⟨rows, hread, hcount, -, hbytes⟩, -⟩ :=
    text_faithful (show capitals.length ≤ UInt32.size by decide)
  have htwo : rows.length = 2 := hcount
  exact ⟨rows, hread, htwo, by rw [hbytes, htwo]; rfl⟩

example : lines [0x41, 0x42, 0x43, 0x44, 0x45, 0x46, 0x47, 0x48, 0x49, 0x4A, 0x4B, 0x4C, 0x4D, 0x4E,
      0x4F, 0x50, 0x51, 0x00, 0x7F] =
    ["0000: 41 42 43 44  45 46 47 48 - 49 4A 4B 4C  4D 4E 4F 50 [ABCDEFGHIJKLMNOP]",
      "0010: 51 00 7F 00  00 00 00 00 - 00 00 00 00  00 00 00 00 [Q...............]"] := by
  decide +kernel

end Aout.HexDump
