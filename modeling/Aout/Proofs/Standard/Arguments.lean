import Aout.Proofs.Command.Readers
import Aout.Proofs.Fallible
import Aout.Standard
/-!
Operands. However options stand between them, the operands of a command are arguments in the order
of the command line (`Arguments.operands_read`), and so are the inputs of an invocation
(`Invocation.inputs_of_parse`).
-/

set_option autoImplicit false
set_option relaxedAutoImplicit false

namespace Aout.Command

namespace Arguments

variable {grammar : Grammar} {arguments parsed : Arguments} {pending? : Option Parameter}

theorem operands_assign {parameter : Parameter} {value : String}
    (hassign : arguments.assign parameter value = .ok parsed) :
    parsed.operands = arguments.operands := by
  cases parameter with
  | output =>
    obtain ⟨path?, -, hreturn⟩ := Fallible.bind_eq_ok_iff.mp hassign
    rw [← Fallible.pure_eq_ok_iff.mp hreturn]
  | settings =>
    obtain ⟨path?, -, hreturn⟩ := Fallible.bind_eq_ok_iff.mp hassign
    rw [← Fallible.pure_eq_ok_iff.mp hreturn]
  | base =>
    rw [assign] at hassign
    split at hassign
    · rw [← Except.ok.inj hassign]
    · cases hassign

theorem operands_addSwitch {switch : Switch} (hadd : arguments.addSwitch switch = .ok parsed) :
    parsed.operands = arguments.operands := by
  unfold addSwitch at hadd
  split at hadd
  · cases hadd
  · rw [← Except.ok.inj hadd]

theorem operands_addLetters {letters : List Char}
    (hadd : addLetters grammar arguments letters = .ok (parsed, pending?)) :
    parsed.operands = arguments.operands := by
  induction letters generalizing arguments with
  | nil =>
    obtain ⟨rfl, -⟩ := Prod.mk.inj (Except.ok.inj hadd)
    rfl
  | cons letter rest ih =>
    rw [addLetters.eq_def] at hadd
    dsimp only at hadd
    split at hadd
    · cases hadd
    · cases hadd
    · obtain ⟨next, hnext, hrest⟩ := Fallible.bind_eq_ok_iff.mp hadd
      rw [ih hrest, operands_addSwitch hnext]
    · split at hadd
      · obtain ⟨rfl, -⟩ := Prod.mk.inj (Except.ok.inj hadd)
        rfl
      · obtain ⟨next, hnext, hreturn⟩ := Fallible.bind_eq_ok_iff.mp hadd
        obtain ⟨rfl, -⟩ := Prod.mk.inj (Fallible.pure_eq_ok_iff.mp hreturn)
        exact operands_assign hnext
      · obtain ⟨next, hnext, hreturn⟩ := Fallible.bind_eq_ok_iff.mp hadd
        obtain ⟨rfl, -⟩ := Prod.mk.inj (Fallible.pure_eq_ok_iff.mp hreturn)
        exact operands_assign hnext

theorem operands_addWord {word : List Char}
    (hadd : addWord grammar arguments word = .ok (parsed, pending?)) :
    parsed.operands = arguments.operands := by
  unfold addWord at hadd
  dsimp only at hadd
  split at hadd
  · cases hadd
  · obtain ⟨next, hnext, hreturn⟩ := Fallible.bind_eq_ok_iff.mp hadd
    obtain ⟨rfl, -⟩ := Prod.mk.inj (Fallible.pure_eq_ok_iff.mp hreturn)
    exact operands_addSwitch hnext
  · obtain ⟨rfl, -⟩ := Prod.mk.inj (Except.ok.inj hadd)
    rfl
  · obtain ⟨next, hnext, hreturn⟩ := Fallible.bind_eq_ok_iff.mp hadd
    obtain ⟨rfl, -⟩ := Prod.mk.inj (Fallible.pure_eq_ok_iff.mp hreturn)
    exact operands_assign hnext
  · cases hadd

theorem operands_addOperand {operand : String}
    (hadd : arguments.addOperand grammar operand = .ok parsed) :
    parsed.operands = arguments.operands ++ [operand] := by
  unfold addOperand at hadd
  split at hadd
  · cases hadd
  · rw [← Except.ok.inj hadd]

theorem operands_foldlM_addOperand {operands : List String}
    (hadd : operands.foldlM (addOperand grammar) arguments = .ok parsed) :
    parsed.operands = arguments.operands ++ operands := by
  induction operands generalizing arguments with
  | nil =>
    obtain rfl := Fallible.pure_eq_ok_iff.mp hadd
    rw [List.append_nil]
  | cons operand rest ih =>
    rw [List.foldlM_cons] at hadd
    obtain ⟨next, hnext, hrest⟩ := Fallible.bind_eq_ok_iff.mp hadd
    rw [ih hrest, operands_addOperand hnext, ← List.append_cons]

/-- Arguments add operands in their order. -/
theorem operands_addAll {rest : List String}
    (hadd : addAll grammar arguments pending? rest = .ok parsed) :
    ∃ operands, parsed.operands = arguments.operands ++ operands ∧ operands.Sublist rest := by
  induction rest generalizing arguments pending? with
  | nil =>
    cases pending? with
    | none =>
      obtain rfl := Except.ok.inj hadd
      exact ⟨[], (List.append_nil _).symm, .slnil⟩
    | some parameter => cases hadd
  | cons argument rest ih =>
    cases pending? with
    | some parameter =>
      rw [addAll] at hadd
      split at hadd
      · cases hadd
      · obtain ⟨next, hnext, hrest⟩ := Fallible.bind_eq_ok_iff.mp hadd
        obtain ⟨operands, hoperands, hsublist⟩ := ih hrest
        exact ⟨operands, by rw [hoperands, operands_assign hnext], hsublist.cons _⟩
    | none =>
      rw [addAll] at hadd
      split at hadd
      · exact ⟨rest, operands_foldlM_addOperand hadd, List.sublist_cons_self _ _⟩
      · obtain ⟨⟨next, following?⟩, hnext, hrest⟩ := Fallible.bind_eq_ok_iff.mp hadd
        obtain ⟨operands, hoperands, hsublist⟩ := ih hrest
        exact ⟨operands, by rw [hoperands, operands_addWord hnext], hsublist.cons _⟩
      · obtain ⟨⟨next, following?⟩, hnext, hrest⟩ := Fallible.bind_eq_ok_iff.mp hadd
        obtain ⟨operands, hoperands, hsublist⟩ := ih hrest
        exact ⟨operands, by rw [hoperands, operands_addLetters hnext], hsublist.cons _⟩
      · obtain ⟨next, hnext, hrest⟩ := Fallible.bind_eq_ok_iff.mp hadd
        obtain ⟨operands, hoperands, hsublist⟩ := ih hrest
        exact ⟨argument :: operands,
          by rw [hoperands, operands_addOperand hnext, ← List.append_cons],
          hsublist.cons_cons _⟩

theorem operands_read {arguments : List String} (hread : read grammar arguments = .ok parsed) :
    parsed.operands.Sublist arguments := by
  obtain ⟨operands, hoperands, hsublist⟩ := operands_addAll hread
  rw [hoperands]
  exact hsublist

end Arguments

/-! ### Invocations -/

variable {arguments : List String} {invocation : Invocation}

/-- A command line that is read starts with the word of its command, and the inputs are the operands
behind that. -/
theorem Invocation.exists_read_of_parse (hparse : Invocation.parse arguments = .ok invocation) :
    ∃ grammar rest parsed, arguments = invocation.word :: rest ∧
      Arguments.read grammar rest = .ok parsed ∧ parsed.operands = invocation.inputs := by
  unfold parse at hparse
  split at hparse
  · cases hparse
  split at hparse
  · obtain ⟨parsed, hread, hlink⟩ := Fallible.bind_eq_ok_iff.mp hparse
    split at hlink
    · cases hlink
    · rw [← Fallible.pure_eq_ok_iff.mp hlink]
      exact ⟨_, _, parsed, rfl, hread, rfl⟩
  · obtain ⟨parsed, hread, hreport⟩ := Fallible.bind_eq_ok_iff.mp hparse
    split at hreport
    · rename_i hinput
      rw [← Fallible.pure_eq_ok_iff.mp hreport]
      exact ⟨_, _, parsed, rfl, hread, hinput⟩
    · cases hreport
  · obtain ⟨parsed, hread, hstrip⟩ := Fallible.bind_eq_ok_iff.mp hparse
    split at hstrip
    · rename_i hinput
      rw [← Fallible.pure_eq_ok_iff.mp hstrip]
      exact ⟨_, _, parsed, rfl, hread, hinput⟩
    · cases hstrip
  · split at hparse <;> cases hparse
  · cases hparse

theorem Invocation.word_of_parse (hparse : Invocation.parse arguments = .ok invocation) :
    arguments.head? = some invocation.word := by
  obtain ⟨grammar, rest, parsed, rfl, -⟩ := exists_read_of_parse hparse
  rfl

theorem Invocation.inputs_of_parse (hparse : Invocation.parse arguments = .ok invocation) :
    invocation.inputs.Sublist arguments := by
  obtain ⟨grammar, rest, parsed, rfl, hread, hinputs⟩ := exists_read_of_parse hparse
  rw [← hinputs]
  exact (Arguments.operands_read hread).cons _

end Command

end Aout
