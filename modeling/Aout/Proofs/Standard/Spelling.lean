import Aout.Proofs.Standard.Arguments
/-!
Command lines that are spelled out. Plain arguments are operands and values, and an option takes the
next argument for its value, so a command line that spells an invocation out is read as that
invocation (`Invocation.parse_of_spelled`). With that the program may rely on the readers that it is
built with (`Readers.lawful_standard`).
-/

set_option autoImplicit false
set_option relaxedAutoImplicit false

namespace Aout

namespace Command

theorem IsPlain.isOption_eq_false {argument : String} (hplain : IsPlain argument) :
    Arguments.isOption argument = false := by
  obtain ⟨first, letters, htext, hfirst⟩ := hplain
  unfold Arguments.isOption
  rw [htext]
  split
  · rename_i heq
    exact absurd (List.cons.inj heq).1 hfirst
  · rfl

theorem IsPlain.ne_empty {argument : String} (hplain : IsPlain argument) : argument ≠ "" := by
  rintro rfl
  obtain ⟨first, letters, htext, -⟩ := hplain
  cases htext

namespace Arguments

variable {grammar : Grammar} {arguments next : Arguments} {rest : List String} {option : String}

theorem addOperand_eq_ok {operand : String} (hplain : IsPlain operand)
    (hroom : grammar.manyOperands ∨ arguments.operands = []) :
    arguments.addOperand grammar operand =
      .ok { arguments with operands := arguments.operands ++ [operand] } := by
  rw [addOperand, if_neg]
  rintro (hempty | ⟨hfew, hsome⟩)
  · exact hplain.ne_empty hempty
  · rcases hroom with hmany | hnone
    · exact hfew hmany
    · rw [hnone] at hsome
      exact hsome rfl

/-- A plain argument is an operand, if there is room for one. -/
theorem addAll_operand {operand : String} (hplain : IsPlain operand)
    (hroom : grammar.manyOperands ∨ arguments.operands = []) :
    addAll grammar arguments none (operand :: rest) =
      addAll grammar { arguments with operands := arguments.operands ++ [operand] } none rest := by
  have hadd := addOperand_eq_ok hplain hroom
  obtain ⟨first, letters, htext, hfirst⟩ := hplain
  rw [addAll, htext]
  split
  · rename_i heq
    exact absurd (List.cons.inj heq).1 hfirst
  · rename_i heq
    exact absurd (List.cons.inj heq).1 hfirst
  · rename_i heq
    exact absurd (List.cons.inj heq).1 hfirst
  · rw [hadd]
    rfl

theorem addAll_operands {operands : List String} (hmany : grammar.manyOperands)
    (hplain : ∀ operand ∈ operands, IsPlain operand) :
    addAll grammar arguments none (operands ++ rest) =
      addAll grammar { arguments with operands := arguments.operands ++ operands } none rest := by
  induction operands generalizing arguments with
  | nil => rw [List.append_nil, List.nil_append]
  | cons operand operands ih =>
    rw [List.cons_append, addAll_operand (hplain operand List.mem_cons_self) (.inl hmany),
      ih fun other hother ↦ hplain other (List.mem_cons_of_mem _ hother), ← List.append_cons]

theorem addAll_value {parameter : Parameter} {value : String} (hplain : IsPlain value)
    (hassign : arguments.assign parameter value = .ok next) :
    addAll grammar arguments (some parameter) (value :: rest) = addAll grammar next none rest := by
  rw [addAll, hplain.isOption_eq_false, if_neg Bool.false_ne_true, hassign]
  rfl

theorem newPath_none {path : String} (hplain : IsPlain path) :
    newPath none path = .ok (some path) := by
  rw [newPath, if_neg]
  rintro (hsome | hempty)
  · cases hsome
  · exact hplain.ne_empty hempty

/-- An option in front of its value assigns the value, and an option that is left out nothing. -/
theorem addAll_withValue {parameter : Parameter} {value? : Option String} (hoption : ∀ rest,
      addAll grammar arguments none (option :: rest) =
        addAll grammar arguments (some parameter) rest)
    (hplain : ∀ value ∈ value?, IsPlain value) (hunset : value? = none → next = arguments)
    (hassign : ∀ value ∈ value?, arguments.assign parameter value = .ok next) :
    addAll grammar arguments none (withValue option value? ++ rest) =
      addAll grammar next none rest := by
  cases value? with
  | none => rw [hunset rfl]; rfl
  | some value => exact (hoption _).trans (addAll_value (hplain value rfl) (hassign value rfl))

theorem addAll_output {path? : Option String} (hoption : ∀ rest,
      addAll grammar arguments none (option :: rest) =
        addAll grammar arguments (some .output) rest)
    (hplain : ∀ path ∈ path?, IsPlain path) (hnew : arguments.output? = none) :
    addAll grammar arguments none (withValue option path? ++ rest) =
      addAll grammar { arguments with output? := path? } none rest := by
  refine addAll_withValue hoption hplain (fun hunset ↦ ?_) fun path hpath ↦ ?_
  · rw [hunset, ← hnew]
  · rw [assign, hnew, newPath_none (hplain path hpath), ← Option.mem_def.mp hpath]
    rfl

theorem addAll_settings {path? : Option String} (hoption : ∀ rest,
      addAll grammar arguments none (option :: rest) =
        addAll grammar arguments (some .settings) rest)
    (hplain : ∀ path ∈ path?, IsPlain path) (hnew : arguments.settings? = none) :
    addAll grammar arguments none (withValue option path? ++ rest) =
      addAll grammar { arguments with settings? := path? } none rest := by
  refine addAll_withValue hoption hplain (fun hunset ↦ ?_) fun path hpath ↦ ?_
  · rw [hunset, ← hnew]
  · rw [assign, hnew, newPath_none (hplain path hpath), ← Option.mem_def.mp hpath]
    rfl

theorem addAll_base {literal? : Option String} {base? : Option UInt16} (hoption : ∀ rest,
      addAll grammar arguments none (option :: rest) = addAll grammar arguments (some .base) rest)
    (hplain : ∀ literal ∈ literal?, IsPlain literal)
    (hbase : literal?.map AddressLiteral.parse = base?.map .ok) (hnew : arguments.base? = none) :
    addAll grammar arguments none (withValue option literal? ++ rest) =
      addAll grammar { arguments with base? := base? } none rest := by
  refine addAll_withValue hoption hplain (fun hunset ↦ ?_) fun literal hliteral ↦ ?_
  · rw [hunset] at hbase
    rw [Option.map_eq_none_iff.mp hbase.symm, ← hnew]
  · rw [Option.mem_def.mp hliteral] at hbase
    obtain ⟨base, rfl, hparse⟩ := Option.map_eq_some_iff.mp hbase.symm
    rw [assign, hnew, ← hparse]

theorem addAll_switch (letter : Char) {switch : Switch} {chosen : Bool}
    (hoption : option.toList = ['-', letter]) (hdash : letter ≠ '-')
    (hletter : grammar.letters.lookup letter = some (.switch switch))
    (hnew : switch ∉ arguments.switches) :
    addAll grammar arguments none (ifChosen option chosen ++ rest) =
      addAll grammar { arguments with
        switches := (if chosen then [switch] else []) ++ arguments.switches } none rest := by
  cases chosen with
  | false => rfl
  | true =>
    change addAll grammar arguments none (option :: rest) = _
    rw [addAll, hoption]
    split
    · rename_i heq
      exact absurd (List.cons.inj (List.cons.inj heq).2).1 hdash
    · rename_i heq
      exact absurd (List.cons.inj (List.cons.inj heq).2).1 hdash
    · rename_i heq
      cases heq
      rw [addLetters, hletter]
      dsimp only
      rw [addSwitch, if_neg hnew]
      rfl
    · rename_i hother
      exact absurd rfl (hother letter [])

end Arguments

namespace Invocation

open Arguments

variable {arguments : List String} {invocation : Invocation}

theorem read_link {inputs : List String} {output? literal? settings? : Option String}
    {base? : Option UInt16}
    (hplain : ∀ argument ∈ inputs ++ output?.toList ++ literal?.toList ++ settings?.toList,
      IsPlain argument)
    (hbase : literal?.map AddressLiteral.parse = base?.map .ok) :
    Arguments.read linkGrammar (inputs ++ withValue "-o" output? ++ withValue "-b" literal? ++
      withValue "--config" settings?) = .ok ⟨inputs, [], output?, base?, settings?⟩ := by
  simp only [List.mem_append, Option.mem_toList, or_imp, forall_and] at hplain
  obtain ⟨⟨⟨hinputs, houtput⟩, hliteral⟩, hsettings⟩ := hplain
  rw [Arguments.read, List.append_assoc, List.append_assoc, addAll_operands rfl hinputs,
    addAll_output (fun _ ↦ rfl) houtput rfl, addAll_base (fun _ ↦ rfl) hliteral hbase rfl,
    ← List.append_nil (withValue "--config" settings?),
    addAll_settings (fun _ ↦ rfl) hsettings rfl]
  rfl

theorem read_report {input : String} (chosen : Report.Selection) (all : Bool)
    (hplain : IsPlain input) :
    ∃ switches, Arguments.read reportGrammar (input :: (ifChosen "-t" chosen.text ++
        ifChosen "-d" chosen.data ++ ifChosen "-r" chosen.relocations ++
        ifChosen "-s" chosen.symbols ++ ifChosen "-a" all)) =
          .ok ⟨[input], switches, none, none, none⟩ ∧
      selection switches = chosen ∧ decide (.all ∈ switches) = all := by
  rw [Arguments.read, addAll_operand hplain (.inr rfl), List.append_assoc, List.append_assoc,
    List.append_assoc, addAll_switch 't' rfl (by decide) rfl, addAll_switch 'd' rfl (by decide) rfl,
    addAll_switch 'r' rfl (by decide) rfl, addAll_switch 's' rfl (by decide) rfl,
    ← List.append_nil (ifChosen "-a" all), addAll_switch 'a' rfl (by decide) rfl]
  · refine ⟨_, rfl, ?_, ?_⟩
    · simp [selection, empty]
    · simp [empty]
  all_goals simp [empty]

theorem read_strip {input : String} (all relocations : Bool) {output? settings? : Option String}
    (hplain : ∀ argument ∈ input :: (output?.toList ++ settings?.toList), IsPlain argument) :
    ∃ switches, Arguments.read stripGrammar (input :: (ifChosen "-a" all ++
        ifChosen "-r" relocations ++ withValue "-o" output? ++ withValue "--config" settings?)) =
          .ok ⟨[input], switches, output?, none, settings?⟩ ∧
      decide (.all ∈ switches) = all ∧ decide (.relocations ∈ switches) = relocations := by
  simp only [List.mem_cons, List.mem_append, Option.mem_toList, or_imp, forall_and,
    forall_eq] at hplain
  obtain ⟨hinput, houtput, hsettings⟩ := hplain
  rw [Arguments.read, addAll_operand hinput (.inr rfl), List.append_assoc, List.append_assoc,
    addAll_switch 'a' rfl (by decide) rfl, addAll_switch 'r' rfl (by decide) rfl,
    addAll_output (fun _ ↦ rfl) houtput rfl, ← List.append_nil (withValue "--config" settings?),
    addAll_settings (fun _ ↦ rfl) hsettings rfl]
  · refine ⟨_, rfl, ?_, ?_⟩
    · simp [empty]
    · simp [empty]
  all_goals simp [empty]

theorem parse_of_spelled (hspelled : Invocation.Spelled arguments invocation) :
    Invocation.parse arguments = .ok invocation := by
  cases hspelled with
  | @link inputs output? literal? settings? base? hinputs hplain hbase =>
    refine Fallible.bind_eq_ok_iff.mpr ⟨_, read_link hplain hbase, ?_⟩
    rw [if_neg (by simpa using hinputs)]
    rfl
  | @report input chosen all hplain =>
    obtain ⟨switches, hread, hchosen, hall⟩ := read_report chosen all hplain
    refine Fallible.bind_eq_ok_iff.mpr ⟨_, hread, ?_⟩
    rw [← hchosen, ← hall]
    rfl
  | @strip input all relocations output? settings? hplain =>
    obtain ⟨switches, hread, hall, hrelocations⟩ := read_strip all relocations hplain
    refine Fallible.bind_eq_ok_iff.mpr ⟨_, hread, ?_⟩
    rw [← hall, ← hrelocations]
    rfl

end Invocation

end Command

theorem Readers.lawful_standard : Readers.standard.Lawful where
  word _ _ := Command.Invocation.word_of_parse
  inputs _ _ := Command.Invocation.inputs_of_parse
  spelled _ _ := Command.Invocation.parse_of_spelled

end Aout
