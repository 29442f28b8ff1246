import Aout.Proofs.Object.File
/-!
The file format as a list of checks. `Check.all` says what is looked at and in which order: the
length of the header, the magic number, the counts, the length of each further part, and the name of
each symbol. Every check is stated on the bytes alone, by offsets that are sums of the counts in the
header. Reading reports the first check that fails, and a file for which none fails is read
(`Object.decode_follows_format`).

The readers are taken one after the other. `Check.Follows` says that a computation reports the first
of several checks that fails, and is kept by chaining (`Check.Follows.bind`).
-/

set_option autoImplicit false
set_option relaxedAutoImplicit false

namespace Aout

namespace LittleEndian

/-- The 32-bit word at an offset of a byte string. -/
def word32At (string : List UInt8) (offset : Nat) : UInt32 :=
  UInt32.ofNat (value ((string.drop offset).take 4))

theorem word32At_drop (string : List UInt8) (first second : Nat) :
    word32At (string.drop first) second = word32At string (first + second) := by
  rw [word32At, word32At, List.drop_drop]

theorem word32At_take {string : List UInt8} {length offset : Nat} (hinside : offset + 4 ≤ length) :
    word32At (string.take length) offset = word32At string offset := by
  rw [word32At, word32At, List.drop_take, List.take_take]
  congr 3
  omega

theorem take32?_eq (string : List UInt8) : take32? string =
    if string.length < 4 then none else some (word32At string 0, string.drop 4) := by
  split_ifs with hshort
  · exact take32?_eq_none_iff.mpr hshort
  · match string, hshort with
    | [], hshort | [_], hshort | [_, _], hshort | [_, _, _], hshort => simp at hshort
    | _ :: _ :: _ :: _ :: _, _ => rfl

/-- A word that is read at an offset, and what is done with it and with what follows it. -/
theorem take32?_drop_bind {Result : Type} (string : List UInt8) (offset : Nat)
    (next : UInt32 × List UInt8 → Option Result) :
    (take32? (string.drop offset)).bind next =
      if string.length < offset + 4 then none
      else next (word32At string offset, string.drop (offset + 4)) := by
  rw [take32?_eq, word32At_drop, List.drop_drop, List.length_drop]
  by_cases hshort : string.length < offset + 4
  · rw [if_pos hshort, if_pos (by omega)]
    rfl
  · rw [if_neg hshort, if_neg (by omega)]
    rfl

end LittleEndian

open LittleEndian

/-- The parts behind the header, in file order. -/
def FilePart.behindHeader : List FilePart :=
  [.text, .data, .textRelocations, .dataRelocations, .symbols]

theorem FilePart.eq_header_or_mem_behindHeader (part : FilePart) :
    part = .header ∨ part ∈ behindHeader := by
  cases part <;> decide

namespace Header

/-- The header at the front of a byte string. -/
def ofBytes (bytes : List UInt8) : Header where
  magic := (word32At bytes 0).toInt32
  text := (word32At bytes 4).toInt32
  data := (word32At bytes 8).toInt32
  bss := (word32At bytes 12).toInt32
  symbols := (word32At bytes 16).toInt32
  entry := (word32At bytes 20).toInt32
  textRelocations := (word32At bytes 24).toInt32
  dataRelocations := (word32At bytes 28).toInt32

theorem take?_eq (bytes : List UInt8) : take? bytes =
    if bytes.length < fileSize then none else some (ofBytes bytes, bytes.drop fileSize) := by
  have hstart : take? bytes = take? (bytes.drop 0) := by rw [List.drop_zero]
  rw [hstart, take?]
  simp only [Option.bind_eq_bind, take32?_drop_bind, Nat.zero_add, Nat.reduceAdd, fileSize]
  by_cases hshort : bytes.length < 32
  · simp only [hshort, if_true]
    split_ifs <;> rfl
  · have hlong (offset : Nat) (hoffset : offset ≤ 32) : ¬ bytes.length < offset := by omega
    simp only [hlong, Nat.reduceLeDiff, if_false]
    rfl

theorem ofBytes_take {bytes : List UInt8} {length : Nat} (hlength : fileSize ≤ length) :
    ofBytes (bytes.take length) = ofBytes bytes := by
  unfold fileSize at hlength
  simp only [ofBytes]
  congr 2 <;> exact word32At_take (by omega)

/-- A count as a number of items; none if it is negative. -/
def amount (header : Header) (count : HeaderCount) : Nat :=
  (header.count count).toInt.toNat

/-- The number of bytes of one part of a file with this header. -/
def partSize (header : Header) : FilePart → Nat
  | .header => fileSize
  | .text => header.amount .text
  | .data => header.amount .data
  | .textRelocations => Relocation.fileSize * header.amount .textRelocations
  | .dataRelocations => Relocation.fileSize * header.amount .dataRelocations
  | .symbols => Symbol.fileSize * header.amount .symbols

/-- The offset of the first byte of a part. -/
def partStart (header : Header) : FilePart → Nat
  | .header => 0
  | .text => fileSize
  | .data => fileSize + header.partSize .text
  | .textRelocations => fileSize + header.partSize .text + header.partSize .data
  | .dataRelocations => fileSize + header.partSize .text + header.partSize .data +
      header.partSize .textRelocations
  | .symbols => fileSize + header.partSize .text + header.partSize .data +
      header.partSize .textRelocations + header.partSize .dataRelocations

/-- The offset of the first byte behind a part. -/
def partEnd (header : Header) (part : FilePart) : Nat :=
  header.partStart part + header.partSize part

/-- The offset of the first name, behind all other parts. -/
def namesStart (header : Header) : Nat :=
  fileSize + header.amount .text + header.amount .data +
    Relocation.fileSize * (header.amount .textRelocations + header.amount .dataRelocations) +
    Symbol.fileSize * header.amount .symbols

theorem partEnd_symbols (header : Header) : header.partEnd .symbols = header.namesStart := by
  simp only [partEnd, partStart, partSize, namesStart, Nat.mul_add]
  omega

theorem partEnd_le_namesStart (header : Header) (part : FilePart) :
    header.partEnd part ≤ header.namesStart := by
  rw [← partEnd_symbols]
  cases part <;> simp only [partEnd, partStart] <;> simp only [partSize] <;> omega

/-- The parts lie one behind the other. -/
theorem pairwise_behindHeader (header : Header) : FilePart.behindHeader.Pairwise
    fun earlier later ↦ header.partEnd earlier ≤ header.partStart later := by
  simp [FilePart.behindHeader, partEnd, partStart, Nat.add_assoc]

theorem fileSize_le_partStart (header : Header) {part : FilePart}
    (hbehind : part ∈ FilePart.behindHeader) : fileSize ≤ header.partStart part := by
  cases part with
  | header => exact absurd hbehind (by decide)
  | _ => simp [partStart, Nat.add_assoc]

/-- Every offset before the names lies in one of the parts. -/
theorem exists_part {header : Header} {offset : Nat} (hoffset : offset < header.namesStart) :
    ∃ part, header.partStart part ≤ offset ∧ offset < header.partEnd part := by
  by_contra hnone
  have hbehind (part : FilePart) (hstart : header.partStart part ≤ offset) :
      header.partEnd part ≤ offset :=
    Nat.le_of_not_lt fun hend ↦ hnone ⟨part, hstart, hend⟩
  have htext := hbehind .text (hbehind .header (Nat.zero_le _))
  have htextRelocations := hbehind .textRelocations (hbehind .data htext)
  have hsymbols := hbehind .symbols (hbehind .dataRelocations htextRelocations)
  rw [partEnd_symbols] at hsymbols
  omega

end Header

/-! ### What is checked -/

/-- Something that is checked when a file is read. -/
inductive Check
  /-- The file does not end before the end of the part. -/
  | part (part : FilePart)
  | magic
  | count (count : HeaderCount)
  /-- The symbol at the position has a name. -/
  | name (position : Nat)
  deriving DecidableEq

namespace Check

variable {bytes : List UInt8}

/-- Where the name of the symbol at a position starts among the names. -/
def nameOffset (bytes : List UInt8) (position : Nat) : UInt32 :=
  word32At bytes ((Header.ofBytes bytes).partStart .symbols + Symbol.fileSize * position)

/-- What follows the symbols. -/
def names (bytes : List UInt8) : List UInt8 :=
  bytes.drop (Header.ofBytes bytes).namesStart

/-- What a check finds wrong with a file, if anything. -/
def fault? (bytes : List UInt8) : Check → Option FormatFault
  | .part region =>
    if bytes.length < (Header.ofBytes bytes).partEnd region then some (.truncated region) else none
  | .magic =>
    if (Header.ofBytes bytes).magic = Header.objectMagic then none
    else some (.badMagic (Header.ofBytes bytes).magic)
  | .count field =>
    if (Header.ofBytes bytes).count field < 0 then
      some (.negativeCount field ((Header.ofBytes bytes).count field))
    else none
  | .name position =>
    if (names bytes).length ≤ (nameOffset bytes position).toNat then
      some (.nameOutsideTable position (nameOffset bytes position))
    else if 0 ∉ (names bytes).drop (nameOffset bytes position).toNat then
      some (.unterminatedName position)
    else if (Utf8.decode? (((names bytes).drop (nameOffset bytes position).toNat).takeWhile
        (· ≠ 0))).isNone then
      some (.undecodableName position)
    else none

/-- The checks of a header. -/
def ofHeader : List Check :=
  .magic :: HeaderCount.all.map .count

/-- The checks of the parts behind the header. -/
def ofParts : List Check :=
  FilePart.behindHeader.map .part

/-- The checks of a file with so many symbols, in the order in which they are made. -/
def all (symbols : Nat) : List Check :=
  .part .header :: ofHeader ++ ofParts ++ (List.range' 0 symbols).map .name

/-- The first thing that is wrong with a file, if anything. -/
def firstFault? (bytes : List UInt8) : Option FormatFault :=
  (all ((Header.ofBytes bytes).amount .symbols)).findSome? (fault? bytes)

theorem fault?_part_eq_none_iff {region : FilePart} : fault? bytes (.part region) = none ↔
    (Header.ofBytes bytes).partEnd region ≤ bytes.length := by
  simp [fault?]

theorem fault?_magic_eq_none_iff :
    fault? bytes .magic = none ↔ (Header.ofBytes bytes).magic = Header.objectMagic := by
  simp [fault?]

theorem fault?_count_eq_none_iff {field : HeaderCount} : fault? bytes (.count field) = none ↔
    0 ≤ ((Header.ofBytes bytes).count field).toInt := by
  simp [fault?, Int32.lt_iff_toInt_lt]

/-! ### Reading as a run of checks -/

section Follows

variable {Value Next : Type} {checks others : List Check}

/-- A computation reports the first of the checks that fails, and if none does it gives a value as
expected. -/
def Follows (bytes : List UInt8) (checks : List Check) (Expected : Value → Prop)
    (result : Except FormatFault Value) : Prop :=
  match checks.findSome? (fault? bytes) with
  | some fault => result = .error fault
  | none => ∃ value, result = .ok value ∧ Expected value

/-- The checks of a chain are those of its steps, and the second step is reached only by files that
pass the checks of the first. -/
theorem Follows.bind {Expected : Value → Prop} {Final : Next → Prop}
    {first : Except FormatFault Value} {next : Value → Except FormatFault Next}
    (hfirst : Follows bytes checks Expected first)
    (hnext : ∀ value, (∀ check ∈ checks, fault? bytes check = none) → Expected value →
      Follows bytes others Final (next value)) :
    Follows bytes (checks ++ others) Final (first >>= next) := by
  unfold Follows at hfirst ⊢
  rw [List.findSome?_append]
  cases hfault : checks.findSome? (fault? bytes) with
  | some fault =>
    rw [hfault] at hfirst
    rw [hfirst]
    rfl
  | none =>
    rw [hfault] at hfirst
    obtain ⟨value, rfl, hvalue⟩ := hfirst
    exact hnext value (List.findSome?_eq_none_iff.mp hfault) hvalue

theorem follows_nil {Expected : Value → Prop} {value : Value} (hvalue : Expected value) :
    Follows bytes [] Expected (.ok value) :=
  ⟨value, rfl, hvalue⟩

/-- A computation that makes a single check. -/
theorem follows_singleton {check : Check} {Expected : Value → Prop}
    {result : Except FormatFault Value}
    (hfault : ∀ fault, fault? bytes check = some fault → result = .error fault)
    (hvalue : fault? bytes check = none → ∃ value, result = .ok value ∧ Expected value) :
    Follows bytes [check] Expected result := by
  unfold Follows
  rw [List.findSome?_singleton]
  cases hcheck : fault? bytes check with
  | some fault => exact hfault fault hcheck
  | none => exact hvalue hcheck

theorem Follows.eq_error_iff {Expected : Value → Prop} {result : Except FormatFault Value}
    (hfollows : Follows bytes checks Expected result) {fault : FormatFault} :
    result = .error fault ↔ checks.findSome? (fault? bytes) = some fault := by
  unfold Follows at hfollows
  cases hfound : checks.findSome? (fault? bytes) with
  | some found =>
    rw [hfound] at hfollows
    rw [hfollows, Except.error.injEq, Option.some.injEq]
  | none =>
    rw [hfound] at hfollows
    obtain ⟨value, rfl, -⟩ := hfollows
    simp

theorem Follows.exists_eq_ok_iff {Expected : Value → Prop} {result : Except FormatFault Value}
    (hfollows : Follows bytes checks Expected result) :
    (∃ value, result = .ok value) ↔ checks.findSome? (fault? bytes) = none := by
  unfold Follows at hfollows
  cases hfound : checks.findSome? (fault? bytes) with
  | some found =>
    rw [hfound] at hfollows
    simp [hfollows]
  | none =>
    rw [hfound] at hfollows
    obtain ⟨value, rfl, -⟩ := hfollows
    simp

/-- A part is read where the parts before it end, if the file goes on to its own end. -/
theorem follows_whole {Contents : Type} {region : FilePart} {contents : Contents}
    {found : Option Contents} {size : Nat}
    (hsize : (Header.ofBytes bytes).partSize region = size)
    (hstart : (Header.ofBytes bytes).partStart region ≤ bytes.length)
    (hfound : found =
      if (bytes.drop ((Header.ofBytes bytes).partStart region)).length < size then none
      else some contents) :
    Follows bytes [.part region] (· = contents) (Object.whole region found) := by
  rw [List.length_drop] at hfound
  have hshort : bytes.length - (Header.ofBytes bytes).partStart region < size ↔
      bytes.length < (Header.ofBytes bytes).partEnd region := by
    unfold Header.partEnd
    omega
  subst hfound
  by_cases hend : bytes.length < (Header.ofBytes bytes).partEnd region
  · refine follows_singleton (fun fault hfault ↦ ?_) fun hnone ↦ ?_
    · rw [fault?, if_pos hend] at hfault
      rw [if_pos (hshort.mpr hend), ← Option.some.inj hfault, Object.whole]
    · exact absurd (fault?_part_eq_none_iff.mp hnone) (Nat.not_le_of_lt hend)
  · refine follows_singleton (fun fault hfault ↦ ?_) fun hnone ↦ ?_
    · rw [fault?, if_neg hend] at hfault
      cases hfault
    · exact ⟨contents, by rw [if_neg (mt hshort.mp hend), Object.whole], rfl⟩

end Follows

/-! ### The readers -/

theorem findSome?_map_count (fields : List HeaderCount) :
    (fields.map Check.count).findSome? (fault? bytes) =
      (fields.find? fun field ↦ (Header.ofBytes bytes).count field < 0).map fun field ↦
        .negativeCount field ((Header.ofBytes bytes).count field) := by
  induction fields with
  | nil => rfl
  | cons field rest ih =>
    by_cases hnegative : (Header.ofBytes bytes).count field < 0
    · simp [fault?, hnegative]
    · rw [List.map_cons, List.findSome?_cons, fault?, if_neg hnegative, List.find?_cons_of_neg]
      · exact ih
      · simpa using hnegative

theorem follows_header : Follows bytes ofHeader (fun _ ↦ True) (Header.ofBytes bytes).check := by
  unfold Follows ofHeader Header.check
  rw [List.findSome?_cons, fault?, findSome?_map_count]
  by_cases hmagic : (Header.ofBytes bytes).magic = Header.objectMagic
  · rw [if_pos hmagic, if_pos hmagic]
    cases HeaderCount.all.find? fun field ↦ (Header.ofBytes bytes).count field < 0 with
    | some field => rfl
    | none => exact ⟨(), rfl, trivial⟩
  · rw [if_neg hmagic, if_neg hmagic]

theorem takeBytes?_eq (count : Nat) (string : List UInt8) : Object.takeBytes? count string =
    if string.length < count then none else some (string.take count, string.drop count) := by
  rw [Object.takeBytes?, List.splitAt_eq]

/-- Records of equal size are read one behind the other. -/
theorem takeRecords?_eq {Record : Type} {take? : List UInt8 → Option (Record × List UInt8)}
    {size : Nat} {read : List UInt8 → Record}
    (htake : ∀ string, take? string =
      if string.length < size then none else some (read string, string.drop size))
    (count : Nat) (string : List UInt8) : Object.takeRecords? take? count string =
      if string.length < size * count then none
      else some ((List.range count).map fun position ↦ read (string.drop (size * position)),
        string.drop (size * count)) := by
  induction count generalizing string with
  | zero => simp [Object.takeRecords?]
  | succ count ih =>
    rw [Object.takeRecords?, htake]
    by_cases hfirst : string.length < size
    · have hall : string.length < size * (count + 1) :=
        Nat.lt_of_lt_of_le hfirst (Nat.le_mul_of_pos_right size count.succ_pos)
      rw [if_pos hfirst, if_pos hall]
      rfl
    · have hrest : (string.drop size).length < size * count ↔
          string.length < size * (count + 1) := by
        rw [List.length_drop, Nat.mul_succ]
        omega
      rw [if_neg hfirst]
      change (Object.takeRecords? take? count (string.drop size) >>= _) = _
      rw [ih]
      by_cases hshort : string.length < size * (count + 1)
      · rw [if_pos hshort, if_pos (hrest.mpr hshort)]
        rfl
      · rw [if_neg hshort, if_neg (mt hrest.mp hshort), List.range_succ_eq_map, List.drop_drop,
          Nat.mul_succ, Nat.add_comm size]
        simp [Function.comp_def, List.drop_drop, Nat.mul_succ, Nat.add_comm size]

theorem takeRelocation?_eq (string : List UInt8) : Relocation.take? string =
    if string.length < Relocation.fileSize then none
    else some (Relocation.ofPacked (word32At string 0) (word32At string 4),
      string.drop Relocation.fileSize) := by
  have hstart : Relocation.take? string = Relocation.take? (string.drop 0) := by
    rw [List.drop_zero]
  rw [hstart, Relocation.take?]
  simp only [Option.bind_eq_bind, take32?_drop_bind, Nat.zero_add, Nat.reduceAdd,
    Relocation.fileSize]
  by_cases hshort : string.length < 8
  · simp only [hshort, if_true]
    split_ifs <;> rfl
  · have hlong (offset : Nat) (hoffset : offset ≤ 8) : ¬ string.length < offset := by omega
    simp only [hlong, Nat.reduceLeDiff, if_false]
    rfl

theorem takeSymbol?_eq (string : List UInt8) : Symbol.take? string =
    if string.length < Symbol.fileSize then none
    else some (⟨word32At string 0, ⟨word32At string 4⟩, word32At string 8⟩,
      string.drop Symbol.fileSize) := by
  have hstart : Symbol.take? string = Symbol.take? (string.drop 0) := by rw [List.drop_zero]
  rw [hstart, Symbol.take?]
  simp only [Option.bind_eq_bind, take32?_drop_bind, Nat.zero_add, Nat.reduceAdd, Symbol.fileSize]
  by_cases hshort : string.length < 12
  · simp only [hshort, if_true]
    split_ifs <;> rfl
  · have hlong (offset : Nat) (hoffset : offset ≤ 12) : ¬ string.length < offset := by omega
    simp only [hlong, Nat.reduceLeDiff, if_false]
    rfl

theorem spelling?_eq (string : List UInt8) : NameTable.spelling? string =
    if 0 ∉ string then none else some (string.takeWhile (· ≠ 0)) := by
  induction string with
  | nil => rfl
  | cons byte rest ih =>
    by_cases hzero : byte = 0
    · simp [NameTable.spelling?, hzero]
    · have hmem : (0 ∈ byte :: rest) ↔ 0 ∈ rest := by simp [Ne.symm hzero]
      rw [NameTable.spelling?, if_neg hzero, ih]
      by_cases hfree : 0 ∉ rest
      · rw [if_pos hfree, if_pos (mt hmem.mp hfree), Option.map_none]
      · rw [if_neg hfree, if_neg (mt (mt hmem.mpr) hfree), Option.map_some,
          List.takeWhile_cons_of_pos (by simpa using hzero)]

theorem follows_nameAt (bytes : List UInt8) (position : Nat) :
    Follows bytes [.name position] (fun _ ↦ True)
      (NameTable.nameAt ⟨(names bytes).toArray⟩ position (nameOffset bytes position)) := by
  unfold Follows NameTable.nameAt
  rw [List.findSome?_singleton, fault?, List.size_toArray]
  by_cases houtside : (names bytes).length ≤ (nameOffset bytes position).toNat
  · rw [if_pos houtside, if_neg (Nat.not_lt_of_le houtside)]
  · rw [if_neg houtside, if_pos (Nat.lt_of_not_le houtside),
      NameTable.spellingAt?_eq_spelling? _ _ _ (by rw [List.size_toArray]; omega), spelling?_eq]
    by_cases hopen : 0 ∉ (names bytes).drop (nameOffset bytes position).toNat
    · rw [if_pos hopen, if_pos hopen]
    · rw [if_neg hopen, if_neg hopen]
      simp only
      cases Utf8.decode? (((names bytes).drop (nameOffset bytes position).toNat).takeWhile
        (· ≠ 0)) with
      | none => rfl
      | some name => exact ⟨name, rfl, trivial⟩

/-- Symbols are named one after the other. -/
theorem follows_nameSymbols {symbols : List Symbol} {position count : Nat}
    (hoffsets : symbols.map (·.nameOffset) =
      (List.range' position count).map (nameOffset bytes)) :
    Follows bytes ((List.range' position count).map .name) (fun _ ↦ True)
      (Object.nameSymbols ⟨(names bytes).toArray⟩ position symbols) := by
  induction symbols generalizing position count with
  | nil =>
    obtain rfl : count = 0 := by simpa using congrArg List.length hoffsets.symm
    exact follows_nil trivial
  | cons symbol rest ih =>
    cases count with
    | zero => cases hoffsets
    | succ count =>
      rw [List.range'_succ, List.map_cons, List.map_cons, List.cons.injEq] at hoffsets
      rw [List.range'_succ, List.map_cons, Object.nameSymbols, hoffsets.1]
      refine (follows_nameAt bytes position).bind fun name _ _ ↦ ?_
      rw [← List.append_nil ((List.range' _ _).map _)]
      exact (ih hoffsets.2).bind fun entries _ _ ↦ follows_nil trivial

theorem follows_takeBytes (bytes : List UInt8) (region : FilePart) {size : Nat}
    (hsize : (Header.ofBytes bytes).partSize region = size)
    (hstart : (Header.ofBytes bytes).partStart region ≤ bytes.length) :
    Follows bytes [.part region]
      (· = ((bytes.drop ((Header.ofBytes bytes).partStart region)).take size,
        bytes.drop ((Header.ofBytes bytes).partEnd region)))
      (Object.whole region
        (Object.takeBytes? size (bytes.drop ((Header.ofBytes bytes).partStart region)))) :=
  follows_whole hsize hstart (by rw [takeBytes?_eq, List.drop_drop, Header.partEnd, hsize])

theorem follows_takeRecords (bytes : List UInt8) (region : FilePart) {Record : Type}
    {take? : List UInt8 → Option (Record × List UInt8)} {size count : Nat}
    {read : List UInt8 → Record}
    (htake : ∀ string, take? string =
      if string.length < size then none else some (read string, string.drop size))
    (hsize : (Header.ofBytes bytes).partSize region = size * count)
    (hstart : (Header.ofBytes bytes).partStart region ≤ bytes.length) :
    Follows bytes [.part region]
      (· = ((List.range count).map fun position ↦
          read (bytes.drop ((Header.ofBytes bytes).partStart region + size * position)),
        bytes.drop ((Header.ofBytes bytes).partEnd region)))
      (Object.whole region
        (Object.takeRecords? take? count (bytes.drop ((Header.ofBytes bytes).partStart region)))) :=
  follows_whole hsize hstart
    (by simp only [takeRecords?_eq htake, List.drop_drop, Header.partEnd, hsize])

/-- Reading makes the checks of the format, in their order. -/
theorem follows_decode (bytes : List UInt8) :
    Follows bytes (all ((Header.ofBytes bytes).amount .symbols)) (fun _ ↦ True)
      (Object.decode bytes) := by
  have hpart {region : FilePart} (hpassed : ∀ check ∈ [Check.part region],
      fault? bytes check = none) : (Header.ofBytes bytes).partEnd region ≤ bytes.length :=
    fault?_part_eq_none_iff.mp (hpassed _ List.mem_cons_self)
  have hall (symbols : Nat) : all symbols = [.part .header] ++ (ofHeader ++ ([.part .text] ++
      ([.part .data] ++ ([.part .textRelocations] ++ ([.part .dataRelocations] ++
        ([.part .symbols] ++ (List.range' 0 symbols).map .name)))))) := rfl
  rw [hall, Object.decode]
  have hheader : Header.take? bytes =
      if (bytes.drop 0).length < Header.fileSize then none
      else some (Header.ofBytes bytes, bytes.drop Header.fileSize) := Header.take?_eq bytes
  refine (follows_whole rfl (Nat.zero_le _) hheader).bind ?_
  rintro _ hpassed rfl
  refine follows_header.bind fun _ _ _ ↦ ?_
  refine (follows_takeBytes bytes .text rfl (hpart hpassed)).bind ?_
  rintro _ hpassed rfl
  refine (follows_takeBytes bytes .data rfl (hpart hpassed)).bind ?_
  rintro _ hpassed rfl
  refine (follows_takeRecords bytes .textRelocations takeRelocation?_eq rfl (hpart hpassed)).bind ?_
  rintro _ hpassed rfl
  refine (follows_takeRecords bytes .dataRelocations takeRelocation?_eq rfl (hpart hpassed)).bind ?_
  rintro _ hpassed rfl
  refine (follows_takeRecords bytes .symbols takeSymbol?_eq rfl (hpart hpassed)).bind ?_
  rintro _ - rfl
  rw [← List.append_nil ((List.range' _ _).map _), Header.partEnd_symbols]
  refine (follows_nameSymbols ?_).bind fun _ _ _ ↦ follows_nil trivial
  rw [List.map_map, ← List.range_eq_range']
  refine List.map_congr_left fun position _ ↦ ?_
  exact word32At_drop bytes _ 0

end Check

/-! ### Well-formed files -/

open Header in
/-- The bytes are a file of the format. -/
structure WellFormed (bytes : List UInt8) : Prop where
  header : fileSize ≤ bytes.length
  magic : (ofBytes bytes).magic = objectMagic
  counts : ∀ field, 0 ≤ ((ofBytes bytes).count field).toInt
  length : (ofBytes bytes).namesStart ≤ bytes.length
  /-- The name of each symbol starts inside the file and is valid up to the zero byte that ends
  it. -/
  names : ∀ position < (ofBytes bytes).amount .symbols,
    (Check.nameOffset bytes position).toNat < (Check.names bytes).length ∧
      ∃ name back, 0 ∉ Utf8.encode name ∧
        (Check.names bytes).drop (Check.nameOffset bytes position).toNat =
          Utf8.encode name ++ 0 :: back

namespace Check

variable {bytes : List UInt8}

theorem fault?_name_eq_none_iff {position : Nat} : fault? bytes (.name position) = none ↔
    (nameOffset bytes position).toNat < (names bytes).length ∧
      ∃ name back, 0 ∉ Utf8.encode name ∧
        (names bytes).drop (nameOffset bytes position).toNat = Utf8.encode name ++ 0 :: back := by
  have hspelled (name : String) :
      (∃ back, 0 ∉ Utf8.encode name ∧
        (names bytes).drop (nameOffset bytes position).toNat = Utf8.encode name ++ 0 :: back) ↔
      0 ∈ (names bytes).drop (nameOffset bytes position).toNat ∧
        Utf8.decode? (((names bytes).drop (nameOffset bytes position).toNat).takeWhile
          (· ≠ 0)) = some name := by
    rw [exists_and_left, ← NameTable.spelling?_eq_some_iff, spelling?_eq,
      Utf8.decode?_eq_some_iff]
    simp
  rw [fault?]
  by_cases houtside : (names bytes).length ≤ (nameOffset bytes position).toNat
  · rw [if_pos houtside]
    exact iff_of_false nofun fun hnamed ↦ Nat.not_lt_of_le houtside hnamed.1
  rw [if_neg houtside]
  by_cases hopen : 0 ∉ (names bytes).drop (nameOffset bytes position).toNat
  · rw [if_pos hopen]
    exact iff_of_false nofun fun ⟨_, spelled, hname⟩ ↦ hopen ((hspelled spelled).mp hname).1
  rw [if_neg hopen]
  cases hdecode : Utf8.decode? (((names bytes).drop (nameOffset bytes position).toNat).takeWhile
      (· ≠ 0)) with
  | none =>
    refine iff_of_false nofun fun ⟨_, spelled, hname⟩ ↦ ?_
    rw [((hspelled spelled).mp hname).2] at hdecode
    cases hdecode
  | some spelled =>
    exact iff_of_true rfl
      ⟨Nat.lt_of_not_le houtside, spelled, (hspelled spelled).mpr ⟨not_not.mp hopen, hdecode⟩⟩

/-- Every part, the magic number and every count are checked, and the name of every symbol. -/
theorem mem_all_iff {symbols : Nat} {check : Check} :
    check ∈ all symbols ↔ ∀ position, check = .name position → position < symbols := by
  cases check with
  | part region =>
    rcases region.eq_header_or_mem_behindHeader with rfl | hbehind
    · simp [all]
    · simp [all, ofParts, hbehind]
  | magic => simp [all, ofHeader]
  | count field => simp [all, ofHeader, HeaderCount.mem_all]
  | name position => simp [all, ofHeader, ofParts]

/-- A file is well-formed if nothing is wrong with it. -/
theorem firstFault?_eq_none_iff : firstFault? bytes = none ↔ WellFormed bytes := by
  simp only [firstFault?, List.findSome?_eq_none_iff, mem_all_iff]
  constructor
  · intro hpassed
    exact {
      header := fault?_part_eq_none_iff.mp (hpassed (.part .header) nofun)
      magic := fault?_magic_eq_none_iff.mp (hpassed .magic nofun)
      counts := fun field ↦ fault?_count_eq_none_iff.mp (hpassed (.count field) nofun)
      length := Header.partEnd_symbols _ ▸
        fault?_part_eq_none_iff.mp (hpassed (.part .symbols) nofun)
      names := fun position hposition ↦ fault?_name_eq_none_iff.mp
        (hpassed (.name position) fun _ hsame ↦ name.inj hsame ▸ hposition) }
  · intro hwell check hcheck
    cases check with
    | part region =>
      exact fault?_part_eq_none_iff.mpr
        (Nat.le_trans (Header.partEnd_le_namesStart _ region) hwell.length)
    | magic => exact fault?_magic_eq_none_iff.mpr hwell.magic
    | count field => exact fault?_count_eq_none_iff.mpr (hwell.counts field)
    | name position =>
      exact fault?_name_eq_none_iff.mpr (hwell.names position (hcheck position rfl))

/-- Of the parts that a file lacks, the one inside which it ends is reported. -/
theorem findSome?_map_part {parts : List FilePart} {region : FilePart}
    (hsorted : parts.Pairwise fun earlier later ↦
      (Header.ofBytes bytes).partEnd earlier ≤ (Header.ofBytes bytes).partStart later)
    (hregion : region ∈ parts)
    (hstart : (Header.ofBytes bytes).partStart region ≤ bytes.length)
    (hend : bytes.length < (Header.ofBytes bytes).partEnd region) :
    (parts.map Check.part).findSome? (fault? bytes) = some (.truncated region) := by
  induction parts with
  | nil => cases hregion
  | cons first rest ih =>
    rw [List.pairwise_cons] at hsorted
    rw [List.map_cons, List.findSome?_cons]
    rcases List.mem_cons.mp hregion with rfl | hrest
    · rw [fault?, if_pos hend]
    · rw [fault?_part_eq_none_iff.mpr (Nat.le_trans (hsorted.1 region hrest) hstart)]
      exact ih hsorted.2 hrest

theorem findSome?_ofHeader (hmagic : (Header.ofBytes bytes).magic = Header.objectMagic)
    (hcounts : ∀ field, 0 ≤ ((Header.ofBytes bytes).count field).toInt) :
    ofHeader.findSome? (fault? bytes) = none := by
  rw [ofHeader, List.findSome?_cons, fault?_magic_eq_none_iff.mpr hmagic]
  simpa using fun field _ ↦ fault?_count_eq_none_iff.mpr (hcounts field)

/-- The front of a well-formed file lacks the part that holds the first missing byte. -/
theorem firstFault?_take (hwell : WellFormed bytes) {cut : Nat} {region : FilePart}
    (hstart : (Header.ofBytes bytes).partStart region ≤ cut)
    (hend : cut < (Header.ofBytes bytes).partEnd region) :
    firstFault? (bytes.take cut) = some (.truncated region) := by
  have hlength : (bytes.take cut).length = cut := List.length_take_of_le (Nat.le_of_lt
    (Nat.lt_of_lt_of_le hend
      (Nat.le_trans (Header.partEnd_le_namesStart _ region) hwell.length)))
  rcases region.eq_header_or_mem_behindHeader with rfl | hbehind
  · have hfault : fault? (bytes.take cut) (.part .header) = some (.truncated .header) :=
      if_pos (hlength.symm ▸ hend)
    rw [firstFault?, all, List.cons_append, List.cons_append, List.findSome?_cons, hfault]
  · have hlong : Header.fileSize ≤ cut :=
      Nat.le_trans (Header.fileSize_le_partStart _ hbehind) hstart
    have hheader : Header.ofBytes (bytes.take cut) = Header.ofBytes bytes :=
      Header.ofBytes_take hlong
    have hfirst : fault? (bytes.take cut) (.part .header) = none := by
      rw [fault?_part_eq_none_iff, hlength]
      exact hlong
    have hparts : ofParts.findSome? (fault? (bytes.take cut)) = some (.truncated region) :=
      findSome?_map_part (Header.pairwise_behindHeader _) hbehind
        (by rwa [hlength, hheader]) (by rwa [hlength, hheader])
    have hchecked : ofHeader.findSome? (fault? (bytes.take cut)) = none :=
      findSome?_ofHeader (hheader ▸ hwell.magic) (hheader ▸ hwell.counts)
    rw [firstFault?, all, List.findSome?_append, List.cons_append, List.findSome?_cons, hfirst]
    simp only
    rw [List.findSome?_append, hchecked, Option.none_or, hparts, Option.some_or]

end Check

namespace Object

open Check

/-- What is read, and what is said of everything else. The bytes are read if they are well-formed;
otherwise the first check that fails is reported; and of a file that can be read, a front that ends
before the names is reported to end in the part that holds the first missing byte. -/
theorem decode_follows_format (bytes : List UInt8) :
    ((∃ object, decode bytes = .ok object) ↔ WellFormed bytes) ∧
    (∀ fault, decode bytes = .error fault ↔ firstFault? bytes = some fault) ∧
    ∀ cut, (∃ object, decode bytes = .ok object) → cut < (Header.ofBytes bytes).namesStart →
      ∃ part, (Header.ofBytes bytes).partStart part ≤ cut ∧
        cut < (Header.ofBytes bytes).partEnd part ∧
        decode (bytes.take cut) = .error (.truncated part) := by
  have haccepted : (∃ object, decode bytes = .ok object) ↔ WellFormed bytes := by
    rw [(follows_decode bytes).exists_eq_ok_iff]
    exact firstFault?_eq_none_iff
  refine ⟨haccepted, fun fault ↦ (follows_decode bytes).eq_error_iff, ?_⟩
  intro cut hread hcut
  obtain ⟨part, hstart, hend⟩ := Header.exists_part hcut
  refine ⟨part, hstart, hend, (follows_decode (bytes.take cut)).eq_error_iff.mpr ?_⟩
  exact firstFault?_take (haccepted.mp hread) hstart hend

/-- The file of `foreignFile`, cut inside its only record. -/
theorem decode_follows_format_foreignFile :
    (∃ object, decode foreignFile = .ok object) ∧ WellFormed foreignFile ∧
      decode (foreignFile.take 40) = .error (.truncated .textRelocations) := by
  obtain ⟨haccepted, -, hcut⟩ := decode_follows_format foreignFile
  have hread : ∃ object, decode foreignFile = .ok object :=
    Fallible.exists_eq_ok_of_isSome (by decide +kernel)
  refine ⟨hread, haccepted.mp hread, ?_⟩
  obtain ⟨part, hstart, hend, hfault⟩ := hcut 40 hread (by decide +kernel)
  have hpart : part = .textRelocations := by
    revert hstart hend
    cases part <;> decide +kernel
  rwa [hpart] at hfault

end Object

end Aout
