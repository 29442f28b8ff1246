import Aout.NameTable
/-!
Where names are spelled. A table holds a name at an offset if its bytes stand there with a zero byte
behind them (`NameTable.Holds`), and it holds everything it did before when a name is added, and the
new name at the offset that was handed out for it, as long as offsets do not wrap. What it spells at
an offset ends with the first zero byte (`NameTable.Spells`), so a name that has a zero byte itself
is cut short (`NameTable.Holds.readsAs`).
-/

set_option autoImplicit false
set_option relaxedAutoImplicit false

namespace Aout

theorem Utf8.encode_injective : Function.Injective encode := fun first second hsame ↦ by
  have hdecode := decode?_encode first
  rw [hsame, decode?_encode] at hdecode
  exact (Option.some.inj hdecode).symm

namespace NameTable

variable {table : NameTable} {offset : UInt32} {name : String}

/-- The bytes of the name stand at the offset, with a zero byte right behind them. -/
def Holds (table : NameTable) (offset : UInt32) (name : String) : Prop :=
  ∃ back, table.bytes.toList.drop offset.toNat = Utf8.encode name ++ 0 :: back

/-- The bytes of the name stand at the offset, with the first zero byte right behind them. -/
def Spells (table : NameTable) (offset : UInt32) (name : String) : Prop :=
  0 ∉ Utf8.encode name ∧
    ∃ back, table.bytes.toList.drop offset.toNat = Utf8.encode name ++ 0 :: back

theorem nameAt_eq_ok_iff_spells {position : Nat} :
    table.nameAt position offset = .ok name ↔ table.Spells offset name :=
  nameAt_eq_ok_iff

theorem toList_add (table : NameTable) (name : String) :
    (table.add name).bytes.toList = table.bytes.toList ++ (Utf8.encode name ++ [0]) :=
  Array.toList_appendList ..

theorem size_lt_size_add (table : NameTable) (name : String) :
    table.bytes.size < (table.add name).bytes.size := by
  rw [← Array.length_toList, ← Array.length_toList, toList_add]
  simp

theorem Holds.add (hholds : table.Holds offset name) (other : String) :
    (table.add other).Holds offset name := by
  obtain ⟨back, hback⟩ := hholds
  have hinside : offset.toNat ≤ table.bytes.toList.length := Nat.le_of_not_lt fun houtside ↦ by
    rw [List.drop_eq_nil_of_le (Nat.le_of_lt houtside)] at hback
    simp at hback
  refine ⟨back ++ (Utf8.encode other ++ [0]), ?_⟩
  rw [toList_add, List.drop_append_of_le_length hinside, hback, List.append_assoc, List.cons_append]

/-- A name is held at the offset that was handed out for it. -/
theorem holds_nextOffset (hsize : table.bytes.size < UInt32.size) :
    (table.add name).Holds table.nextOffset name := by
  refine ⟨[], ?_⟩
  rw [nextOffset, UInt32.toNat_ofNat_of_lt' hsize, toList_add, ← Array.length_toList,
    List.drop_left]

theorem Spells.holds (hspells : table.Spells offset name) : table.Holds offset name :=
  hspells.2

theorem Spells.add (hspells : table.Spells offset name) (other : String) :
    (table.add other).Spells offset name :=
  ⟨hspells.1, hspells.holds.add other⟩

theorem spells_nextOffset (hfree : 0 ∉ Utf8.encode name)
    (hsize : table.bytes.size < UInt32.size) : (table.add name).Spells table.nextOffset name :=
  ⟨hfree, holds_nextOffset hsize⟩

theorem takeWhile_append_zero (front back : List UInt8) :
    (front ++ 0 :: back).takeWhile (· ≠ 0) = front.takeWhile (· ≠ 0) := by
  induction front with
  | nil => rfl
  | cons byte rest ih => rw [List.cons_append, List.takeWhile_cons, List.takeWhile_cons, ih]

/-- The text is what is read of a name: the bytes before its first zero byte. -/
def ReadsAs (name read : String) : Prop :=
  Utf8.encode read = (Utf8.encode name).takeWhile (· ≠ 0)

theorem ReadsAs.unique {first second : String} (hfirst : ReadsAs name first)
    (hsecond : ReadsAs name second) : first = second :=
  Utf8.encode_injective (hfirst.trans hsecond.symm)

theorem takeWhile_of_zero_not_mem {front : List UInt8} (hfree : 0 ∉ front) (back : List UInt8) :
    (front ++ 0 :: back).takeWhile (· ≠ 0) = front := by
  have hnonzero : ∀ byte ∈ front, decide (byte ≠ 0) = true :=
    fun byte hbyte ↦ decide_eq_true fun hzero ↦ hfree (hzero ▸ hbyte)
  rw [List.takeWhile_append_of_pos hnonzero]
  simp

theorem Spells.encode_eq (hspells : table.Spells offset name) :
    Utf8.encode name = (table.bytes.toList.drop offset.toNat).takeWhile (· ≠ 0) := by
  obtain ⟨hfree, back, hback⟩ := hspells
  rw [hback, takeWhile_of_zero_not_mem hfree]

theorem readsAs_self (hfree : 0 ∉ Utf8.encode name) : ReadsAs name name := by
  rw [ReadsAs, ← takeWhile_append_zero _ [], takeWhile_of_zero_not_mem hfree]

/-- Of a name that is held somewhere, the bytes before its first zero byte are read there. -/
theorem Holds.readsAs {read : String} (hholds : table.Holds offset name)
    (hspells : table.Spells offset read) : ReadsAs name read := by
  obtain ⟨hfree, back, hread⟩ := hspells
  obtain ⟨rest, hname⟩ := hholds
  rw [ReadsAs, ← takeWhile_append_zero _ rest, ← hname, hread, takeWhile_of_zero_not_mem hfree]

end NameTable

end Aout
